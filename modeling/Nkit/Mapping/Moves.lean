import Nkit.Base.Ledger
import Nkit.Mapping.Wiring

/-! The calls that the events of a document make to target items, one at a time.  Which calls come,
and in which order, depends on the target items and the document only, not on what the targets hold.
-/

namespace Nkit
namespace Xml2Var

/-- A call to target item `i`.  `OnExit` comes in parts: `collect` is the body of the loop of an
object or a list, for its child `c`, and `leave` is the rest. -/
inductive Move where
  | enter (attrs : List (Bytes × Bytes)) (i : ℕ)
  | text (text : Bytes) (i : ℕ)
  | collect (el : Bytes) (i c : ℕ)
  | leave (el : Bytes) (i : ℕ)

/-- `OnExit` of a scalar. -/
def TargetState.converted (lib : ScalarLib) (o : StructOptions) (target : Target)
    (s : TargetState) : TargetState :=
  match target with
  | .scalar t =>
    if s.mustUseDefaultValue target then { s with value := [] }
    else { s with var := t.type.convert lib o t.format (o.toOptions.trimmed s.value), value := [] }
  | _ => s

theorem TargetState.converted_fields (lib : ScalarLib) (o : StructOptions) (target : Target)
    (s : TargetState) :
    (s.converted lib o target).actualKeyName = s.actualKeyName ∧ (s.converted lib o target).past =
      s.past ∧
      (s.converted lib o target).current = s.current := by
  cases target with
  | object its => exact ⟨rfl, rfl, rfl⟩
  | list its => exact ⟨rfl, rfl, rfl⟩
  | scalar t =>
    rw [converted]
    split_ifs <;> exact ⟨rfl, rfl, rfl⟩

namespace TargetGroup
variable {E : Type} (lib : ScalarLib) (o : StructOptions)

def collect (el : Bytes) (i c : ℕ) (g : TargetGroup E) : TargetGroup E :=
  match (g.items i).target with
  | .object _ => g.collectDefault el i c
  | .list _ => g.collectItem i c
  | .scalar _ => g

def convert (i : ℕ) (g : TargetGroup E) : TargetGroup E :=
  g.setState i (·.converted lib o (g.items i).target)

def exitKey (el : Bytes) (s : TargetState) : Bytes :=
  if s.actualKeyName = star then el else Tools.cStr s.actualKeyName

/-- `OnExit` of a target item after that of its target. -/
def handOver (el : Bytes) (i : ℕ) (g : TargetGroup E) : TargetGroup E :=
  match (g.items i).parentTarget with
  | some parent =>
    if (g.states i).actualKeyName.isEmpty then g
    else g.setState parent fun s =>
      { s with current := s.current.setKey (exitKey el (g.states i)) (g.var i) }
  | none => g

def move (m : Move) (g : TargetGroup E) : TargetGroup E :=
  match m with
  | .enter attrs i => g.onEnter o attrs i
  | .text text i => g.onText text i
  | .collect el i c => g.collect el i c
  | .leave el i => (g.convert lib o i).handOver el i

/-- The parts of `OnExit` of a target item. -/
def exitMoves (items : ℕ → TargetItem E) (el : Bytes) (i : ℕ) : List Move :=
  (items i).target.children.map (.collect el i) ++ [.leave el i]

variable {lib o} {g : TargetGroup E}

theorem foldl_collect {el : Bytes} {i : ℕ} {f : ℕ → TargetGroup E → TargetGroup E}
    {items : ℕ → TargetItem E}
    (hf : ∀ g' : TargetGroup E, g'.items = items → ∀ c, g'.collect el i c = f c g')
    (hitems : ∀ g c, SameItems g (f c g)) (cs : List ℕ) (hg : g.items = items) :
    (cs.map (Move.collect el i)).foldl (fun g m => g.move lib o m) g =
      cs.foldl (fun g c => f c g) g := by
  induction cs generalizing g with
  | nil => rfl
  | cons c cs ih =>
    rw [List.map_cons, List.foldl_cons, List.foldl_cons]
    have hc : g.move lib o (.collect el i c) = f c g := hf g hg c
    rw [hc]
    exact ih ((hitems g c).1.trans hg)

theorem onExit_eq (el : Bytes) (i : ℕ) :
    g.onExit lib o el i = (exitMoves g.items el i).foldl (fun g m => g.move lib o m) g := by
  have hleave : ∀ g' : TargetGroup E, g'.items = g.items → (∀ t, (g.items i).target ≠ .scalar t) →
      (g'.convert lib o i).handOver el i = g'.handOver el i := by
    intro g' hg' hne
    have hsame : (g'.states i).converted lib o (g.items i).target = g'.states i := by
      cases h : (g.items i).target with
      | scalar t => exact absurd h (hne t)
      | object targetItems => rfl
      | list targetItems => rfl
    have hconvert : g'.convert lib o i = g' := by
      rw [convert, setState,
        show (g'.states i).converted lib o (g'.items i).target = g'.states i from hg' ▸ hsame,
        Function.update_eq_self]
    rw [hconvert]
  rw [exitMoves, List.foldl_append]
  cases h : (g.items i).target with
  | scalar t =>
    show g.onExit lib o el i = (g.convert lib o i).handOver el i
    rw [onExit, exitTarget, convert, h]
    rfl
  | object targetItems =>
    have hfold : (targetItems.map (Move.collect el i)).foldl (fun g m => g.move lib o m) g =
        g.exitTarget lib o el i := by
      rw [exitTarget, h]
      refine foldl_collect (fun g' hg' c => ?_) (fun g c => collectDefault_sameItems g el i c)
        targetItems rfl
      rw [collect, hg', h]
    rw [Target.children, hfold]
    exact (hleave _ (exitTarget_sameItems lib o g el i).1 (by simp [h])).symm
  | list targetItems =>
    have hfold : (targetItems.map (Move.collect el i)).foldl (fun g m => g.move lib o m) g =
        g.exitTarget lib o el i := by
      rw [exitTarget, h]
      refine foldl_collect (fun g' hg' c => ?_) (fun g c => collectItem_sameItems g i c) targetItems
        rfl
      rw [collect, hg', h]
    rw [Target.children, hfold]
    exact (hleave _ (exitTarget_sameItems lib o g el i).1 (by simp [h])).symm

theorem move_sameItems (m : Move) : SameItems g (g.move lib o m) := by
  cases m with
  | enter attrs i => exact onEnter_sameItems o g i attrs
  | text text i => exact onText_sameItems g i text
  | collect el i c =>
    show SameItems g (g.collect el i c)
    rw [collect]
    cases (g.items i).target with
    | object => exact collectDefault_sameItems g el i c
    | list => exact collectItem_sameItems g i c
    | scalar => exact ⟨rfl, rfl⟩
  | leave el i =>
    refine (show SameItems g (g.convert lib o i) from ⟨rfl, rfl⟩).trans ?_
    show SameItems _ ((g.convert lib o i).handOver el i)
    unfold handOver
    cases ((g.convert lib o i).items i).parentTarget with
    | none => exact ⟨rfl, rfl⟩
    | some parent =>
      dsimp only
      split_ifs <;> exact ⟨rfl, rfl⟩

variable {i k p : ℕ} {el : Bytes}

theorem enter_states (attrs : List (Bytes × Bytes)) :
    (g.move lib o (.enter attrs i)).states =
      Function.update g.states i ((g.states i).onEnter o attrs (g.items i)) := rfl

theorem text_states (text : Bytes) :
    (g.move lib o (.text text i)).states = Function.update g.states i
      (if (g.items i).path.attributeName.isEmpty then (g.states i).onText (g.items i).target text
        else g.states i) := by
  show (g.onText text i).states = _
  rw [onText]
  split_ifs
  · rfl
  · exact (Function.update_eq_self i g.states).symm

def defaultKey (el : Bytes) (s : TargetState) : Bytes :=
  if s.actualKeyName = star then el else s.actualKeyName

theorem collect_object_states {its : List ℕ} (htarget : (g.items i).target = .object its)
    (hne : k ≠ i) :
    (g.move lib o (.collect el i k)).states = Function.update
      (Function.update g.states i (if g.mustUseDefaultValue k then
        { g.states i with
          current := (g.states i).current.setKey (defaultKey el (g.states k)) (g.var k) }
            else g.states i))
      k ((g.states k).clear (g.items k).target) := by
  show (g.collect el i k).states = _
  rw [collect, htarget]
  show (g.collectDefault el i k).states = _
  rw [collectDefault]
  cases g.mustUseDefaultValue k with
  | true => simp [clear, setState, hne, defaultKey]
  | false => simp [clear, setState]

theorem collect_list_states {its : List ℕ} (htarget : (g.items i).target = .list its)
    (hne : k ≠ i) :
    (g.move lib o (.collect el i k)).states = Function.update
      (Function.update g.states i
        { g.states i with current := (g.states i).current.append (g.var k) })
      k ((g.states k).clear (g.items k).target) := by
  show (g.collect el i k).states = _
  rw [collect, htarget]
  show (g.collectItem i k).states = _
  simp [collectItem, clear, setState, hne]

theorem leave_states (lib : ScalarLib) (o : StructOptions) (el : Bytes)
    (hself : (g.items i).parentTarget ≠ some i) :
    let s := (g.states i).converted lib o (g.items i).target
    (((g.items i).parentTarget = none ∨ (g.states i).actualKeyName = []) ∧
        (g.move lib o (.leave el i)).states = Function.update g.states i s) ∨
      ∃ p, (g.items i).parentTarget = some p ∧ (g.states i).actualKeyName ≠ [] ∧
        (g.move lib o (.leave el i)).states = Function.update (Function.update g.states i s) p
          { g.states p with
            current :=
              (g.states p).current.setKey (exitKey el (g.states i)) (s.read i (g.items i).target)
                } := by
  intro s
  have hkey : s.actualKeyName = (g.states i).actualKeyName :=
    (TargetState.converted_fields lib o _ _).1
  have hstates : (g.convert lib o i).states = Function.update g.states i s := rfl
  have hitems : (g.convert lib o i).items = g.items := rfl
  show (_ ∧ ((g.convert lib o i).handOver el i).states = _) ∨ ∃ p, _ ∧ _ ∧
    ((g.convert lib o i).handOver el i).states = _
  have hexit : exitKey el s = exitKey el (g.states i) := by
    rw [exitKey, exitKey, hkey]
  rw [handOver, var, hstates, hitems, Function.update_self, hexit, hkey]
  cases hparent : (g.items i).parentTarget with
  | none => exact .inl ⟨.inl rfl, hstates⟩
  | some p =>
    have hpi : p ≠ i := fun heq => hself (heq ▸ hparent)
    cases hempty : (g.states i).actualKeyName with
    | nil => exact .inl ⟨.inr rfl, hstates⟩
    | cons b key =>
      refine .inr ⟨p, rfl, List.cons_ne_nil _ _, ?_⟩
      dsimp only [List.isEmpty_cons]
      rw [if_neg Bool.false_ne_true, setState, hstates, Function.update_of_ne hpi]

theorem moves_sameItems (ms : List Move) (g : TargetGroup E) :
    SameItems g (ms.foldl (fun g m => g.move lib o m) g) :=
  foldl_sameItems (fun _ m => move_sameItems m) ms g

end TargetGroup

/-- The target item is called at an element; `names` are those on the way to it from below the root.
-/
def TargetItem.firesAt (names : List Bytes) (item : TargetItem Bytes) : Bool :=
  if item.path.isMask then item.path.same star ⟨false, names, []⟩ else item.path.elements == names

def stepNames (names : List Bytes) : XmlEvent → List Bytes
  | .startElement el _ => names ++ [Tools.cStr el]
  | .text _ => names
  | .endElement _ => names.dropLast

namespace Compiled

def masks (names : List Bytes) (c : Compiled) : List ℕ :=
  c.order.filter fun i => (c.group.items i).path.isMask && (c.group.items i).firesAt names

def nodes (names : List Bytes) (c : Compiled) : List ℕ :=
  c.order.filter fun i => !(c.group.items i).path.isMask && (c.group.items i).firesAt names

def eventMoves (names : List Bytes) (c : Compiled) : XmlEvent → List Move
  | .startElement el attrs =>
    (c.masks (names ++ [Tools.cStr el]) ++ c.nodes (names ++ [Tools.cStr el])).map (.enter attrs)
  | .text text => (c.nodes names ++ c.masks names).map (.text text)
  | .endElement el =>
    (c.masks names ++ c.nodes names).flatMap (TargetGroup.exitMoves c.group.items el)

def moves (c : Compiled) : List Bytes → List XmlEvent → List Move
  | _, [] => []
  | names, e :: events => c.eventMoves names e ++ c.moves (stepNames names e) events

theorem moves_append (c : Compiled) (names : List Bytes) (events events' : List XmlEvent) :
    c.moves names (events ++ events') = c.moves names events ++
      c.moves (events.foldl stepNames names) events' := by
  induction events generalizing names with
  | nil => rfl
  | cons e events ih => rw [List.cons_append, moves, moves, ih, List.append_assoc, List.foldl_cons]

variable {c c' : Compiled}

theorem masksAt_eq (horder : c'.order = c.order) (hitems : c'.group.items = c.group.items)
    (path : Path Bytes) :
    c'.masksAt path = c.masks path.elements := by
  rw [masksAt, masks, horder, hitems]
  refine List.filter_congr fun i _ => ?_
  rw [TargetItem.firesAt]
  cases h : (c.group.items i).path.isMask with
  | false => rfl
  | true => simp [Path.same, h]

theorem nodeAt_eq (horder : c'.order = c.order) (hitems : c'.group.items = c.group.items)
    (path : Path Bytes) :
    c'.nodeAt path = c.nodes path.elements := by
  rw [nodeAt, nodes, horder, hitems]
  refine List.filter_congr fun i _ => ?_
  rw [TargetItem.firesAt]
  cases h : (c.group.items i).path.isMask with
  | false => rfl
  | true => rfl

end Compiled

structure NamedRun.Stands (c : Compiled) (g : TargetGroup Bytes) (names : List Bytes)
    (r : NamedRun) : Prop where
  firstNode : r.firstNode = false
  order : r.compiled.order = c.order
  group : r.compiled.group = g
  names : r.currentPath.elements = names

namespace NamedRun
variable {lib : ScalarLib} {o : StructOptions} {c : Compiled} {g : TargetGroup Bytes}
  {names : List Bytes} {r : NamedRun}

theorem Stands.step (lib : ScalarLib) (o : StructOptions) (h : r.Stands c g names)
    (hitems : g.items = c.group.items) (e : XmlEvent) :
    (r.step lib o e).Stands c ((c.eventMoves names e).foldl (fun g m => g.move lib o m) g)
      (stepNames names e) := by
  obtain ⟨hfirst, horder, rfl, rfl⟩ := h
  have hmasks := Compiled.masksAt_eq horder hitems
  have hnodes := Compiled.nodeAt_eq horder hitems
  cases e with
  | startElement el attrs =>
    rw [NamedRun.step, onStartElement, hfirst, if_neg Bool.false_ne_true]
    refine ⟨rfl, horder, ?_, rfl⟩
    simp only [Compiled.fire, hmasks, hnodes, Compiled.eventMoves, List.map_append,
      List.foldl_append, List.foldl_map]
    rfl
  | text text =>
    refine ⟨hfirst, horder, ?_, rfl⟩
    simp only [NamedRun.step, onText, Compiled.fire, hmasks, hnodes, Compiled.eventMoves,
      List.map_append, List.foldl_append, List.foldl_map]
    rfl
  | endElement el =>
    refine ⟨hfirst, horder, ?_, rfl⟩
    have hexit : ∀ (items : List ℕ) (g' : TargetGroup Bytes), g'.items = c.group.items →
        (items.flatMap (TargetGroup.exitMoves c.group.items el)).foldl (fun g m => g.move lib o m)
          g' =
          items.foldl (fun g i => g.onExit lib o el i) g' := by
      intro items
      induction items with
      | nil => exact fun _ _ => rfl
      | cons i items ih =>
        intro g' hg'
        rw [List.flatMap_cons, List.foldl_append, List.foldl_cons, ← hg', ← TargetGroup.onExit_eq,
          hg']
        exact ih _ ((TargetGroup.onExit_sameItems lib o g' el i).1.trans hg')
    simp only [NamedRun.step, onEndElement, Compiled.fire, hmasks, hnodes]
    rw [Compiled.eventMoves, hexit _ _ hitems, List.foldl_append]

theorem Stands.feed (lib : ScalarLib) (o : StructOptions) (events : List XmlEvent)
    (h : r.Stands c g names) (hitems : g.items = c.group.items) :
    (r.feed lib o events).Stands c ((c.moves names events).foldl (fun g m => g.move lib o m) g)
      (events.foldl stepNames names) := by
  induction events generalizing r g names with
  | nil => exact h
  | cons e events ih =>
    rw [Compiled.moves, List.foldl_append, List.foldl_cons]
    exact ih (h.step lib o hitems e) ((TargetGroup.moves_sameItems _ g).1.trans hitems)

end NamedRun

inductive Tag where
  | opens (names : List Bytes) (attrs : List (Bytes × Bytes))
  | closes (names : List Bytes)

def eventTags (names : List Bytes) : XmlEvent → List Tag
  | .startElement el attrs => [.opens (names ++ [Tools.cStr el]) attrs]
  | .text _ => []
  | .endElement _ => [.closes names]

def tags : List Bytes → List XmlEvent → List Tag
  | _, [] => []
  | names, e :: events => eventTags names e ++ tags (stepNames names e) events

def TargetItem.lastAttrs (item : TargetItem Bytes) (ts : List Tag) :
    Option (List (Bytes × Bytes)) :=
  ts.foldl (fun last t =>
    match t with
    | .opens names attrs => if item.firesAt names then some attrs else last
    | .closes _ => last) none

def TargetItem.closed (item : TargetItem Bytes) (ts : List Tag) : Bool :=
  ts.any fun t =>
    match t with
    | .opens _ _ => false
    | .closes names => item.firesAt names

end Xml2Var
end Nkit
