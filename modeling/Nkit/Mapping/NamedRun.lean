import Nkit.Mapping.Loading

/-! The events of a document in one compiled mapping.  A builder with any number of mappings does
to each of them what it would do on its own. -/

namespace Nkit
namespace Xml2Var
open OrderedMap

namespace TargetGroup
variable {E : Type}

def SameItems (g g' : TargetGroup E) : Prop := g'.items = g.items ∧ g'.count = g.count

theorem SameItems.trans {g g' g'' : TargetGroup E} (h : SameItems g g') (h' : SameItems g' g'') :
    SameItems g g'' :=
  ⟨h'.1.trans h.1, h'.2.trans h.2⟩

theorem foldl_sameItems {A : Type} {f : TargetGroup E → A → TargetGroup E}
    (hf : ∀ g a, SameItems g (f g a)) (l : List A) (g : TargetGroup E) :
    SameItems g (l.foldl f g) := by
  induction l generalizing g with
  | nil => exact ⟨rfl, rfl⟩
  | cons a l ih => exact (hf g a).trans (ih (f g a))

variable (lib : ScalarLib) (o : StructOptions) (g : TargetGroup E) (el : Bytes) (i c : ℕ)

theorem onEnter_sameItems (attrs : List (Bytes × Bytes)) :
    SameItems g (g.onEnter o attrs i) := ⟨rfl, rfl⟩

theorem onText_sameItems (text : Bytes) : SameItems g (g.onText text i) := by
  rw [onText]
  split_ifs
  · exact ⟨rfl, rfl⟩
  · exact ⟨rfl, rfl⟩

theorem collectDefault_sameItems : SameItems g (g.collectDefault el i c) := by
  rw [collectDefault]
  split_ifs
  · exact ⟨rfl, rfl⟩
  · exact ⟨rfl, rfl⟩
  · exact ⟨rfl, rfl⟩

theorem collectItem_sameItems : SameItems g (g.collectItem i c) := ⟨rfl, rfl⟩

theorem exitTarget_sameItems : SameItems g (g.exitTarget lib o el i) := by
  rw [exitTarget]
  cases (g.items i).target with
  | object targetItems =>
    exact foldl_sameItems (fun g c => collectDefault_sameItems g el i c) targetItems g
  | list targetItems => exact foldl_sameItems (fun g c => collectItem_sameItems g i c) targetItems g
  | scalar t => exact ⟨rfl, rfl⟩

theorem onExit_sameItems : SameItems g (g.onExit lib o el i) := by
  have h := exitTarget_sameItems lib o g el i
  rw [onExit]
  cases ((g.exitTarget lib o el i).items i).parentTarget with
  | none => exact h
  | some parent =>
    show SameItems g (if _ then _ else _)
    split_ifs
    · exact h
    · exact h.trans ⟨rfl, rfl⟩
    · exact h.trans ⟨rfl, rfl⟩

section Names
variable {m : String2IdMap} {x : TargetItem ℕ} {y : TargetItem Bytes} {g : TargetGroup ℕ}
  {h : TargetGroup Bytes}
variable {lib : ScalarLib} {o : StructOptions}

theorem Names.setState (hn : Names m g h) (i : ℕ) (f : TargetState → TargetState) :
    Names m (g.setState i f) (h.setState i f) :=
  ⟨hn.count, hn.items, by rw [TargetGroup.setState, TargetGroup.setState, hn.states]⟩

theorem Names.var (hn : Names m g h) (i : ℕ) : g.var i = h.var i := by
  rw [TargetGroup.var, TargetGroup.var, hn.states, (hn.items i).target]

theorem Names.clear (hn : Names m g h) (i : ℕ) : Names m (g.clear i) (h.clear i) := by
  rw [TargetGroup.clear, TargetGroup.clear, (hn.items i).target]
  exact hn.setState i _

theorem Names.foldl {f : TargetGroup ℕ → ℕ → TargetGroup ℕ}
    {f' : TargetGroup Bytes → ℕ → TargetGroup Bytes}
    (hf : ∀ {g h} (i : ℕ), Names m g h → Names m (f g i) (f' h i)) (l : List ℕ) (hn : Names m g h) :
    Names m (l.foldl f g) (l.foldl f' h) := by
  induction l generalizing g h with
  | nil => exact hn
  | cons i l ih => exact ih (hf i hn)

theorem Names.onEnter (hn : Names m g h) (attrs : List (Bytes × Bytes)) (i : ℕ) :
    Names m (g.onEnter o attrs i) (h.onEnter o attrs i) := by
  have heq : ∀ s : TargetState, s.onEnter o attrs (g.items i) = s.onEnter o attrs (h.items i) := by
    intro s
    obtain ⟨hpath, htarget, -, hkey, hisAttr⟩ := hn.items i
    simp only [TargetState.onEnter, htarget, hpath.attributeName, hkey, hisAttr]
  rw [TargetGroup.onEnter, TargetGroup.onEnter]
  simp only [heq]
  exact hn.setState i _

theorem Names.onText (hn : Names m g h) (text : Bytes) (i : ℕ) :
    Names m (g.onText text i) (h.onText text i) := by
  rw [TargetGroup.onText, TargetGroup.onText, (hn.items i).path.attributeName, (hn.items i).target]
  split_ifs
  · exact hn.setState i _
  · exact hn

theorem Names.collectDefault (hn : Names m g h) (el : Bytes) (i c : ℕ) :
    Names m (g.collectDefault el i c) (h.collectDefault el i c) := by
  rw [TargetGroup.collectDefault, TargetGroup.collectDefault, TargetGroup.mustUseDefaultValue,
    TargetGroup.mustUseDefaultValue, hn.states, (hn.items c).target, hn.var]
  split_ifs
  · exact (hn.setState i _).clear c
  · exact (hn.setState i _).clear c
  · exact hn.clear c

theorem Names.collectItem (hn : Names m g h) (i c : ℕ) :
    Names m (g.collectItem i c) (h.collectItem i c) := by
  rw [TargetGroup.collectItem, TargetGroup.collectItem, hn.var]
  exact (hn.setState i _).clear c

theorem Names.exitTarget (hn : Names m g h) (el : Bytes) (i : ℕ) :
    Names m (g.exitTarget lib o el i) (h.exitTarget lib o el i) := by
  rw [TargetGroup.exitTarget, TargetGroup.exitTarget, (hn.items i).target]
  cases (h.items i).target with
  | object targetItems => exact Names.foldl (fun c hn => hn.collectDefault el i c) targetItems hn
  | list targetItems => exact Names.foldl (fun c hn => hn.collectItem i c) targetItems hn
  | scalar t => exact hn.setState i _

theorem Names.onExit (hn : Names m g h) (el : Bytes) (i : ℕ) :
    Names m (g.onExit lib o el i) (h.onExit lib o el i) := by
  have hn' : Names m (g.exitTarget lib o el i) (h.exitTarget lib o el i) := hn.exitTarget el i
  rw [TargetGroup.onExit, TargetGroup.onExit, (hn'.items i).parentTarget]
  cases ((h.exitTarget lib o el i).items i).parentTarget with
  | none => exact hn'
  | some parent =>
    simp only [hn'.states, hn'.var]
    split_ifs
    · exact hn'
    · exact hn'.setState parent _
    · exact hn'.setState parent _

theorem Names.tree (hn : Names m g h) (fuel : ℕ) (v : Var) : g.tree fuel v = h.tree fuel v := by
  induction fuel generalizing v with
  | zero => cases v <;> rfl
  | succ fuel ih =>
    cases v with
    | value => rfl
    | made target n =>
      have hfun : g.tree fuel = h.tree fuel := funext ih
      simp only [TargetGroup.tree, hn.states, hfun]

end Names

end TargetGroup

namespace Compiled

def masksAt (path : Path Bytes) (c : Compiled) : List ℕ :=
  c.order.filter fun i => (c.group.items i).path.isMask && (c.group.items i).path.same star path

def nodeAt (path : Path Bytes) (c : Compiled) : List ℕ :=
  c.order.filter fun i => !(c.group.items i).path.isMask && (c.group.items i).path.elements ==
    path.elements

def fire (f : ℕ → TargetGroup Bytes → TargetGroup Bytes) (items : List ℕ) (c : Compiled) :
    Compiled :=
  { c with group := items.foldl (fun g i => f i g) c.group }

end Compiled

structure NamedRun where
  compiled : Compiled
  firstNode : Bool
  currentPath : Path Bytes

namespace NamedRun

def start (c : Compiled) : NamedRun := ⟨c, true, .empty⟩

variable (lib : ScalarLib) (o : StructOptions)

def onStartElement (el : Bytes) (attrs : List (Bytes × Bytes)) (r : NamedRun) : NamedRun :=
  if r.firstNode then { r with firstNode := false }
  else
    let path := r.currentPath.push star (Tools.cStr el)
    { r with
      compiled := (r.compiled.fire (fun i g => g.onEnter o attrs i) (r.compiled.masksAt path)).fire
        (fun i g => g.onEnter o attrs i) (r.compiled.nodeAt path)
      currentPath := path }

def onEndElement (el : Bytes) (r : NamedRun) : NamedRun :=
  { r with
    compiled :=
      (r.compiled.fire (fun i g => g.onExit lib o el i) (r.compiled.masksAt r.currentPath)).fire
      (fun i g => g.onExit lib o el i) (r.compiled.nodeAt r.currentPath)
    currentPath := r.currentPath.bubbleUp }

def onText (text : Bytes) (r : NamedRun) : NamedRun :=
  { r with
    compiled :=
      (r.compiled.fire (fun i g => g.onText text i) (r.compiled.nodeAt r.currentPath)).fire
      (fun i g => g.onText text i) (r.compiled.masksAt r.currentPath) }

def step (r : NamedRun) : XmlEvent → NamedRun
  | .startElement el attrs => r.onStartElement o el attrs
  | .text text => r.onText text
  | .endElement el => r.onEndElement lib o el

def feed (events : List XmlEvent) (r : NamedRun) : NamedRun := events.foldl (step lib o) r

/-- The value of target number `root`. -/
def var (root : ℕ) (r : NamedRun) : DynTree :=
  r.compiled.group.tree r.compiled.group.count (r.compiled.group.var root)

end NamedRun

/-- Group number `k` of the builder is the compiled mapping of the run. -/
structure StructXml2VarBuilder.Runs (b : StructXml2VarBuilder) (created : List ItemId) (k : ℕ)
    (r : NamedRun) : Prop where
  sane : b.str2id.Sane
  hung : b.Hung created
  mine : created.filter (fun i => i.1 == k) = r.compiled.order.map fun i => (k, i)
  names : TargetGroup.Names b.str2id (b.groups k) r.compiled.group
  firstNode : b.firstNode = r.firstNode
  currentPath : Path.Names b.str2id b.currentPath r.currentPath

namespace StructXml2VarBuilder
variable {b : StructXml2VarBuilder} {created : List ItemId} {k : ℕ} {r : NamedRun} {lib : ScalarLib}

/-- Only the items of group `k` change it. -/
theorem fire_groups (f : ℕ → TargetGroup ℕ → TargetGroup ℕ) (items : List ItemId)
    (b : StructXml2VarBuilder) (k : ℕ) :
    (b.fire f items).groups k =
      ((items.filter fun i => i.1 == k).map Prod.snd).foldl (fun g i => f i g) (b.groups k) := by
  induction items generalizing b with
  | nil => rfl
  | cons i items ih =>
    rw [fire, List.foldl_cons]
    refine (ih _).trans ?_
    by_cases hi : i.1 = k
    · subst hi
      simp
    · simp [hi, Ne.symm hi]

theorem fire_frame (f : ℕ → TargetGroup ℕ → TargetGroup ℕ) (items : List ItemId)
    (b : StructXml2VarBuilder) :
    b.fire f items = { b with groups := (b.fire f items).groups } := by
  induction items generalizing b with
  | nil => rfl
  | cons i items ih =>
    rw [fire, List.foldl_cons]
    exact ih _

theorem fire_itemAt {f : ℕ → TargetGroup ℕ → TargetGroup ℕ}
    (hf : ∀ i g, TargetGroup.SameItems g (f i g)) (items : List ItemId) (i : ItemId) :
    (b.fire f items).itemAt i = b.itemAt i := by
  rw [itemAt, fire_groups, (TargetGroup.foldl_sameItems (fun g i => hf i g) _ _).1, itemAt]

/-- The items of group `k` among those with a property. -/
theorem Runs.filter (h : b.Runs created k r) {P : ItemId → Bool} {P' : ℕ → Bool}
    (hP : ∀ i, P (k, i) = P' i) :
    (created.filter P).filter (fun i => i.1 == k) = (r.compiled.order.filter P').map fun i =>
      (k, i) := by
  rw [List.filter_comm, h.mine, List.filter_map]
  congr 1
  exact List.filter_congr fun i _ => hP i

theorem Runs.matchingMasks (h : b.Runs created k r) :
    b.matchingMasks.filter (fun i => i.1 == k) = (r.compiled.masksAt r.currentPath).map fun i =>
      (k, i) := by
  have hboth : b.matchingMasks = created.filter fun i =>
      (b.itemAt i).path.same String2IdMap.starId b.currentPath && (b.itemAt i).path.isMask := by
    rw [StructXml2VarBuilder.matchingMasks, h.hung.masks, List.filter_filter]
    rfl
  rw [hboth]
  refine h.filter fun i => ?_
  have hpath := (h.names.items i).path
  rw [itemAt, hpath.isMask, hpath.same h.sane h.currentPath, Bool.and_comm]

theorem Runs.currentNode (h : b.Runs created k r) :
    b.currentNode.filter (fun i => i.1 == k) = (r.compiled.nodeAt r.currentPath).map fun i =>
      (k, i) := by
  rw [StructXml2VarBuilder.currentNode, h.hung.nodes]
  refine h.filter fun i => ?_
  have hpath := (h.names.items i).path
  have heq := Path.elements_eq_iff h.sane hpath.elements h.currentPath.elements
  simp only [inNode, itemAt, hpath.isMask, beq_eq_decide, heq]

/-- Calls for the same items of group `k` keep it in step with the run. -/
theorem Runs.fire (h : b.Runs created k r) (f : ℕ → TargetGroup ℕ → TargetGroup ℕ)
    (f' : ℕ → TargetGroup Bytes → TargetGroup Bytes) (hf : ∀ i g, TargetGroup.SameItems g (f i g))
    (hff' : ∀ {g h} (i : ℕ), TargetGroup.Names b.str2id g h →
      TargetGroup.Names b.str2id (f i g) (f' i h)) {items : List ItemId} {items' : List ℕ}
    (hitems : items.filter (fun i => i.1 == k) = items'.map fun i => (k, i)) :
    (b.fire f items).Runs created k { r with compiled := r.compiled.fire f' items' } where
  sane := by
    rw [fire_frame]
    exact h.sane
  hung := by
    have hat := fire_itemAt (b := b) hf items
    refine ⟨?_, fun p => ?_⟩
    · simp only [hat]
      rw [fire_frame]
      exact h.hung.masks
    · have hin : (b.fire f items).inNode p = b.inNode p := by
        funext i
        rw [inNode, inNode, hat]
      rw [hin, fire_frame]
      exact h.hung.nodes p
  mine := h.mine
  names := by
    rw [fire_groups, hitems, List.map_map, fire_frame]
    have hid : (Prod.snd ∘ fun i : ℕ => (k, i)) = id := rfl
    rw [hid, List.map_id]
    exact TargetGroup.Names.foldl (fun i hn => hff' i hn) items' h.names
  firstNode := by
    rw [fire_frame]
    exact h.firstNode
  currentPath := by
    rw [fire_frame]
    exact h.currentPath

theorem Runs.grows (h : b.Runs created k r) {str2id : String2IdMap} (hs : str2id.Sane)
    (hg : b.str2id.Grows str2id) :
    (b.setStr2id str2id).Runs created k r :=
  ⟨hs, ⟨h.hung.masks, h.hung.nodes⟩, h.mine, h.names.grows hg, h.firstNode, h.currentPath.grows hg⟩

theorem Runs.move (h : b.Runs created k r) {p : Path ℕ} {q : Path Bytes}
    (hp : Path.Names b.str2id p q) :
    ({ b with currentPath := p } : StructXml2VarBuilder).Runs created k
      { r with currentPath := q } :=
  ⟨h.sane, ⟨h.hung.masks, h.hung.nodes⟩, h.mine, h.names, h.firstNode, hp⟩

theorem Runs.onStartElement (h : b.Runs created k r) (el : Bytes) (attrs : List (Bytes × Bytes)) :
    (b.onStartElement el attrs).Runs created k (r.onStartElement b.options el attrs) := by
  obtain ⟨hs, hg, hk⟩ := String2IdMap.getId_spec h.sane el
  have h₁ := h.grows hs hg
  rw [StructXml2VarBuilder.onStartElement, NamedRun.onStartElement]
  by_cases hfirst : b.firstNode = true
  · simp only [hfirst, h.firstNode.symm.trans hfirst, if_true]
    exact ⟨h₁.sane, ⟨h₁.hung.masks, h₁.hung.nodes⟩, h₁.mine, h₁.names, rfl, h₁.currentPath⟩
  · have hfirst' : ¬r.firstNode = true := h.firstNode ▸ hfirst
    simp only
    rw [if_neg hfirst, if_neg hfirst']
    have h₂ := h₁.move (h₁.currentPath.push hs hk)
    have h₃ :=
      h₂.fire (fun i g => g.onEnter b.options attrs i) (fun i g => g.onEnter b.options attrs i)
      (fun i g => TargetGroup.onEnter_sameItems b.options g i attrs)
        (fun i hn => hn.onEnter attrs i) h₂.matchingMasks
    exact h₃.fire _ _ (fun i g => TargetGroup.onEnter_sameItems b.options g i attrs)
      (fun i hn => hn.onEnter attrs i)
      h₂.currentNode

theorem Runs.onEndElement (h : b.Runs created k r) (el : Bytes) :
    (b.onEndElement lib el).Runs created k (r.onEndElement lib b.options el) := by
  have h₁ :=
    h.fire (fun i g => g.onExit lib b.options el i) (fun i g => g.onExit lib b.options el i)
    (fun i g => TargetGroup.onExit_sameItems lib b.options g el i) (fun i hn => hn.onExit el i)
      h.matchingMasks
  have h₂ :=
    h₁.fire (fun i g => g.onExit lib b.options el i) (fun i g => g.onExit lib b.options el i)
    (fun i g => TargetGroup.onExit_sameItems lib b.options g el i) (fun i hn => hn.onExit el i)
      h.currentNode
  exact h₂.move h₂.currentPath.bubbleUp

theorem Runs.onText (h : b.Runs created k r) (text : Bytes) :
    (b.onText text).Runs created k (r.onText text) := by
  have h₁ := h.fire (fun i g => g.onText text i) (fun i g => g.onText text i)
    (fun i g => TargetGroup.onText_sameItems g i text) (fun i hn => hn.onText text i) h.currentNode
  exact h₁.fire _ _ (fun i g => TargetGroup.onText_sameItems g i text)
    (fun i hn => hn.onText text i) h.matchingMasks

theorem step_options (b : StructXml2VarBuilder) (e : XmlEvent) :
    (b.step lib e).options = b.options ∧ (b.step lib e).rootTargets = b.rootTargets := by
  cases e with
  | startElement el attrs =>
    rw [step, StructXml2VarBuilder.onStartElement]
    simp only
    split_ifs
    · exact ⟨rfl, rfl⟩
    · rw [fire_frame, fire_frame]
      exact ⟨rfl, rfl⟩
  | text text =>
    rw [step, StructXml2VarBuilder.onText, fire_frame, fire_frame]
    exact ⟨rfl, rfl⟩
  | endElement el =>
    rw [step, StructXml2VarBuilder.onEndElement, fire_frame, fire_frame]
    exact ⟨rfl, rfl⟩

theorem Runs.feed (events : List XmlEvent) (h : b.Runs created k r) :
    (b.feed lib events).Runs created k (r.feed lib b.options events) := by
  induction events generalizing b r with
  | nil => exact h
  | cons e events ih =>
    have hstep : (b.step lib e).Runs created k (r.step lib b.options e) := by
      cases e with
      | startElement el attrs => exact h.onStartElement el attrs
      | text text => exact h.onText text
      | endElement el => exact h.onEndElement el
    have hrest := ih hstep
    rw [(step_options b e).1] at hrest
    exact hrest

theorem feed_rootTargets (events : List XmlEvent) (b : StructXml2VarBuilder) :
    (b.feed lib events).rootTargets = b.rootTargets := by
  induction events generalizing b with
  | nil => rfl
  | cons e events ih => exact (ih _).trans (step_options b e).2

/-- `var` of a name is the value of the run of its mapping. -/
theorem Runs.var (h : b.Runs created k r) {name : Bytes} {root : ℕ}
    (hroot : get? bytesLt name b.rootTargets = some (k, root)) : b.var name = r.var root := by
  rw [StructXml2VarBuilder.var, hroot]
  simp only
  rw [h.names.tree, h.names.count, h.names.var]
  rfl

end StructXml2VarBuilder

end Xml2Var
end Nkit
