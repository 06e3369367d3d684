import Nkit.Mapping.ListItems

/-! The calls that the events of a document make to target items, each a whole one.  They come in an
order in which an item is left after its children and before its parent. -/

namespace Nkit
namespace Xml2Var

/-- A call to target item `i`. -/
inductive Call where
  | enter (attrs : List (Bytes × Bytes)) (i : ℕ)
  | text (text : Bytes) (i : ℕ)
  | exit (el : Bytes) (i : ℕ)

namespace TargetGroup
variable {E : Type} (lib : ScalarLib) (o : StructOptions)

def call (v : Call) (g : TargetGroup E) : TargetGroup E :=
  match v with
  | .enter attrs i => g.onEnter o attrs i
  | .text text i => g.onText text i
  | .exit el i => g.onExit lib o el i

theorem call_sameItems (v : Call) (g : TargetGroup E) : SameItems g (g.call lib o v) := by
  cases v with
  | enter attrs i => exact onEnter_sameItems o g i attrs
  | text text i => exact onText_sameItems g i text
  | exit el i => exact onExit_sameItems lib o g el i

end TargetGroup

namespace Compiled

def eventCalls (names : List Bytes) (c : Compiled) : XmlEvent → List Call
  | .startElement el attrs =>
    (c.masks (names ++ [Tools.cStr el]) ++ c.nodes (names ++ [Tools.cStr el])).map (.enter attrs)
  | .text text => (c.nodes names ++ c.masks names).map (.text text)
  | .endElement el => (c.masks names ++ c.nodes names).map (.exit el)

def calls (c : Compiled) : List Bytes → List XmlEvent → List Call
  | _, [] => []
  | names, e :: events => c.eventCalls names e ++ c.calls (stepNames names e) events

theorem calls_append (c : Compiled) (names : List Bytes) (events events' : List XmlEvent) :
    c.calls names (events ++ events') = c.calls names events ++
      c.calls (events.foldl stepNames names) events' := by
  induction events generalizing names with
  | nil => rfl
  | cons e events ih => rw [List.cons_append, calls, calls, ih, List.append_assoc, List.foldl_cons]

theorem calls_element (c : Compiled) (names : List Bytes) (name : Bytes)
    (attrs : List (Bytes × Bytes)) (body rest : XmlContent) :
    c.calls names (XmlContent.element name attrs body rest).events =
      c.eventCalls names (.startElement name attrs) ++
        (c.calls (names ++ [Tools.cStr name]) body.events ++
        (c.eventCalls (names ++ [Tools.cStr name]) (.endElement name) ++
          c.calls names rest.events)) := by
  rw [XmlContent.events, calls, calls_append, calls, stepNames, body.foldl_stepNames, stepNames,
    List.dropLast_concat]

variable {lib : ScalarLib} {o : StructOptions} {c : Compiled}

/-- The calls of an event are its moves, those of `OnExit` taken together. -/
theorem foldl_eventCalls (names : List Bytes) (e : XmlEvent) {g : TargetGroup Bytes}
    (hg : g.items = c.group.items) :
    (c.eventCalls names e).foldl (fun g v => g.call lib o v) g =
      (c.eventMoves names e).foldl (fun g v => g.move lib o v) g := by
  cases e with
  | startElement el attrs =>
    rw [eventCalls, eventMoves, List.foldl_map, List.foldl_map]
    rfl
  | text text =>
    rw [eventCalls, eventMoves, List.foldl_map, List.foldl_map]
    rfl
  | endElement el =>
    rw [eventCalls, eventMoves]
    generalize c.masks names ++ c.nodes names = items
    induction items generalizing g with
    | nil => rfl
    | cons i items ih =>
      rw [List.map_cons, List.foldl_cons, List.flatMap_cons, List.foldl_append, ← hg,
        ← TargetGroup.onExit_eq, hg]
      exact ih ((TargetGroup.onExit_sameItems lib o g el i).1.trans hg)

theorem foldl_calls (names : List Bytes) (events : List XmlEvent) {g : TargetGroup Bytes}
    (hg : g.items = c.group.items) :
    (c.calls names events).foldl (fun g v => g.call lib o v) g =
      (c.moves names events).foldl (fun g v => g.move lib o v) g := by
  induction events generalizing names g with
  | nil => rfl
  | cons e events ih =>
    rw [calls, moves, List.foldl_append, List.foldl_append, foldl_eventCalls names e hg]
    exact ih _ ((TargetGroup.moves_sameItems _ g).1.trans hg)

def read (lib : ScalarLib) (o : StructOptions) (root : Bytes) (xs : XmlContent) (c : Compiled) :
    TargetGroup Bytes :=
  (c.calls [] xs.events ++ c.eventCalls [] (.endElement root)).foldl (fun g v => g.call lib o v)
    c.group

theorem value_read {mapping : DynTree} (h : Compiled.compile lib o mapping = .ok (0, c))
    (root : Bytes) (attrs : List (Bytes × Bytes)) (xs : XmlContent) :
    StructXml2VarBuilder.value lib o mapping (XmlDocument.events ⟨root, attrs, xs⟩) =
      (c.read lib o root xs).value := by
  have hstart : ((NamedRun.start c).step lib o (.startElement root attrs)).Stands c c.group [] :=
    ⟨rfl, rfl, rfl, rfl⟩
  have hrun := hstart.feed lib o (xs.events ++ [.endElement root]) rfl
  have hcalls : c.calls [] (xs.events ++ [.endElement root]) = c.calls [] xs.events ++
      c.eventCalls [] (.endElement root) := by
    rw [calls_append, xs.foldl_stepNames, calls, calls, List.append_nil]
  rw [StructXml2VarBuilder.value, h]
  show NamedRun.var 0
    (NamedRun.feed lib o (XmlDocument.events ⟨root, attrs, xs⟩) (NamedRun.start c)) = _
  have hfeed : NamedRun.feed lib o (XmlDocument.events ⟨root, attrs, xs⟩) (NamedRun.start c) =
      ((NamedRun.start c).step lib o (.startElement root attrs)).feed lib o
        (xs.events ++ [.endElement root]) := by
    rw [XmlDocument.events, NamedRun.feed, List.foldl_cons]
    rfl
  rw [hfeed, NamedRun.var, hrun.group, ← foldl_calls [] _ rfl, hcalls]
  rfl

end Compiled

structure Phase where
  busy : Set ℕ
  left : Set ℕ

namespace Phase
open Ledger
variable (c : Compiled)

def note (v : Call) (m : Phase) : Phase :=
  match v with
  | .enter _ i => { m with busy := insert i m.busy }
  | .text _ _ => m
  | .exit _ i => ⟨m.busy \ {i}, insert i (m.left \ {k | k ∈ (c.group.items i).target.children})⟩

def Legal (m : Phase) : Call → Prop
  | .enter _ i => i ∈ c.order ∧ i ∉ m.busy
  | .text _ i => i ∈ c.order ∧ i ∈ m.busy
  | .exit _ i =>
    i ∈ c.order ∧ i ∈ m.busy ∧ (∀ p, (c.group.items i).parentTarget = some p → p ∈ m.busy) ∧
      ∀ k ∈ (c.group.items i).target.children, k ∉ m.busy ∧
        ((∃ its, (c.group.items i).target = .list its) →
          (∀ its, (c.group.items k).target ≠ .list its) → k ∈ m.left)

def openAt (names : List Bytes) : Set ℕ := {i | i ∈ c.order ∧ (c.group.items i).Within names}

variable {c} {m : Phase} {names : List Bytes}

theorem enters (attrs : List (Bytes × Bytes)) {items : List ℕ} (hnodup : items.Nodup)
    (horder : ∀ i ∈ items, i ∈ c.order) (hbusy : ∀ i ∈ items, i ∉ m.busy) :
    Allowed (note c) (Legal c) m (items.map (.enter attrs)) ∧
      (after (note c) m (items.map (.enter attrs))).busy = m.busy ∪ {i | i ∈ items} := by
  induction items generalizing m with
  | nil => exact ⟨trivial, by simp⟩
  | cons i items ih =>
    obtain ⟨hi, hnodup⟩ := List.nodup_cons.mp hnodup
    obtain ⟨hallowed, hafter⟩ :=
      @ih (m.note c (.enter attrs i)) hnodup
        (fun j hj => horder j (List.mem_cons_of_mem i hj)) <| by
      intro j hj hin
      rcases Set.mem_insert_iff.mp hin with rfl | hin
      · exact hi hj
      · exact hbusy j (List.mem_cons_of_mem i hj) hin
    refine ⟨⟨⟨horder i List.mem_cons_self, hbusy i List.mem_cons_self⟩, hallowed⟩, ?_⟩
    rw [List.map_cons, after_cons]
    refine hafter.trans ?_
    ext j
    simp only [note, Set.mem_union, Set.mem_insert_iff, Set.mem_ofPred_eq, List.mem_cons]
    tauto

structure Leavable (c : Compiled) (m : Phase) (items : List ℕ) : Prop where
  order : ∀ i ∈ items, i ∈ c.order
  busy : ∀ i ∈ items, i ∈ m.busy
  parent : ∀ i ∈ items, ∀ p, (c.group.items i).parentTarget = some p → p ∈ m.busy
  children : ∀ i ∈ items, ∀ k ∈ (c.group.items i).target.children, k ∈ m.busy → k ∈ items
  values : ∀ i ∈ items, ∀ k ∈ (c.group.items i).target.children,
    (∃ its, (c.group.items i).target = .list its) →
    (∀ its, (c.group.items k).target ≠ .list its) → k ∈ m.left ∨ k ∈ items
  nodup : items.Nodup
  pairwise : items.Pairwise fun a b => (c.group.items b).parentTarget ≠ some a

theorem Leavable.exit (h : Wired c) (el : Bytes) {i : ℕ} {items : List ℕ}
    (hl : Leavable c m (i :: items)) :
    Legal c m (.exit el i) ∧ Leavable c (m.note c (.exit el i)) items := by
  obtain ⟨hi, horder⟩ := List.forall_mem_cons.mp hl.order
  obtain ⟨hbusy, hrest⟩ := List.forall_mem_cons.mp hl.busy
  obtain ⟨hfirst, hpairwise⟩ := List.pairwise_cons.mp hl.pairwise
  obtain ⟨hnot, hnodup⟩ := List.nodup_cons.mp hl.nodup
  -- the children of `i` were left before
  have hgone : ∀ k ∈ (c.group.items i).target.children, k ∉ i :: items := by
    intro k hk hin
    have hparent := (h.forest.children i hi k hk).2
    rcases List.mem_cons.mp hin with rfl | hin
    · exact h.forest.irrefl k hi hparent
    · exact hfirst k hin hparent
  have hother : ∀ j ∈ items, j ≠ i := fun j hj heq => hnot (heq ▸ hj)
  refine ⟨⟨hi, hbusy, hl.parent i List.mem_cons_self,
    fun k hk => ⟨fun hin => ?_, fun hlist hk' => ?_⟩⟩, ?_⟩
  · exact hgone k hk (hl.children i List.mem_cons_self k hk hin)
  · exact (hl.values i List.mem_cons_self k hk hlist hk').resolve_right (hgone k hk)
  constructor
  · exact horder
  · exact fun j hj => ⟨hrest j hj, hother j hj⟩
  · intro j hj p hp
    exact ⟨hl.parent j (List.mem_cons_of_mem i hj) p hp, fun heq => hfirst j hj (heq ▸ hp)⟩
  · intro j hj k hk hin
    exact (List.mem_cons.mp (hl.children j (List.mem_cons_of_mem i hj) k hk hin.1)).resolve_left
      hin.2
  · intro j hj k hk hlist hk'
    rcases hl.values j (List.mem_cons_of_mem i hj) k hk hlist hk' with hin | hin
    · -- only `j` takes it away
      refine .inl (.inr ⟨hin, fun hki => hother j hj ?_⟩)
      have hparent := (h.forest.children i hi k hki).2
      rw [(h.forest.children j (horder j hj) k hk).2] at hparent
      exact Option.some.inj hparent
    · exact (List.mem_cons.mp hin).imp (fun heq => .inl heq) id
  · exact hnodup
  · exact hpairwise

theorem exits (h : Wired c) (el : Bytes) {items : List ℕ} (hl : Leavable c m items) :
    Allowed (note c) (Legal c) m (items.map (.exit el)) ∧
      (after (note c) m (items.map (.exit el))).busy = m.busy \ {i | i ∈ items} := by
  induction items generalizing m with
  | nil => exact ⟨trivial, by simp⟩
  | cons i items ih =>
    obtain ⟨hlegal, hl'⟩ := hl.exit h el
    obtain ⟨hallowed, hafter⟩ := ih hl'
    refine ⟨⟨hlegal, hallowed⟩, ?_⟩
    rw [List.map_cons, after_cons]
    refine hafter.trans ?_
    ext j
    simp [note, and_assoc]

theorem leavable (h : Wired c) (hnames : star ∉ names) (hm : m.busy = openAt c names) :
    Leavable c m (c.masks names ++ c.nodes names) where
  order := fun i hi => (Wired.mem_firing.mp hi).1
  busy := fun i hi =>
    hm ▸ ⟨(Wired.mem_firing.mp hi).1, names, List.prefix_refl _, (Wired.mem_firing.mp hi).2⟩
  parent := by
    intro i hi p hp
    obtain ⟨hin, hfires⟩ := Wired.mem_firing.mp hi
    exact hm ▸ ⟨(h.fit hin hp).1, h.parent_within hin hp hnames ⟨names, List.prefix_refl _, hfires⟩⟩
  children := by
    intro i hi k hk hbusy
    obtain ⟨hin, hfires⟩ := Wired.mem_firing.mp hi
    obtain ⟨hkin, hparent⟩ := h.forest.children i hin k hk
    rw [hm] at hbusy
    exact Wired.mem_firing.mpr ⟨hkin, h.firesAt_of_within hkin hparent hnames hbusy.2 hfires⟩
  values := by
    rintro i hi k hk ⟨its, hlist⟩ hk'
    obtain ⟨hin, hfires⟩ := Wired.mem_firing.mp hi
    obtain ⟨hkin, hparent⟩ := h.forest.children i hin k hk
    have hsame := ((h.fit hkin hparent).2.list hlist).2.2.2 hk'
    refine .inr (Wired.mem_firing.mpr ⟨hkin, ?_⟩)
    rw [TargetItem.firesAt_congr (h.isMask_congr hkin hin hsame) hsame]
    exact hfires
  nodup := h.firing_nodup _
  pairwise := h.firing_pairwise hnames

theorem openAt_append (names : List Bytes) (n : Bytes) :
    openAt c (names ++ [n]) =
      openAt c names ∪ {i | i ∈ c.masks (names ++ [n]) ++ c.nodes (names ++ [n])} := by
  ext i
  simp only [openAt, Set.mem_ofPred_eq, Wired.within_append, Set.mem_union, Wired.mem_firing]
  tauto

theorem not_openAt (h : Wired c) {n : Bytes} (hnames : star ∉ names ++ [n]) {i : ℕ}
    (hi : i ∈ c.masks (names ++ [n]) ++ c.nodes (names ++ [n])) : i ∉ openAt c names := by
  obtain ⟨hin, hfires⟩ := Wired.mem_firing.mp hi
  exact fun hopen => h.not_within hin hnames hfires hopen.2

theorem content_allowed (h : Wired c) (xs : XmlContent) (hxs : ∀ e ∈ xs.events, Marks.Named e)
    (hnames : star ∉ names) (hm : m.busy = openAt c names) :
    Allowed (note c) (Legal c) m (c.calls names xs.events) ∧
      (after (note c) m (c.calls names xs.events)).busy = openAt c names := by
  induction xs generalizing m names with
  | nil => exact ⟨trivial, hm⟩
  | text s rest ih =>
    have hrest := @ih m names (fun e he => hxs e (List.mem_cons_of_mem _ he)) hnames hm
    have hfiring : ∀ i ∈ c.nodes names ++ c.masks names, i ∈ c.order ∧ i ∈ m.busy := by
      intro i hi
      have hin : i ∈ c.masks names ++ c.nodes names :=
        List.mem_append.mpr (List.mem_append.mp hi).symm
      exact ⟨(leavable h hnames hm).order i hin, (leavable h hnames hm).busy i hin⟩
    rw [XmlContent.events, Compiled.calls, Compiled.eventCalls]
    generalize c.nodes names ++ c.masks names = items at hfiring
    induction items with
    | nil => exact hrest
    | cons i items ih =>
      obtain ⟨hi, hitems⟩ := List.forall_mem_cons.mp hfiring
      exact ⟨⟨hi, (ih hitems).1⟩, (ih hitems).2⟩
  | element name attrs body rest ih ih' =>
    rw [XmlContent.events] at hxs
    obtain ⟨hname, hxs⟩ := List.forall_mem_cons.mp hxs
    obtain ⟨hbody, hxs⟩ := List.forall_mem_append.mp hxs
    obtain ⟨-, hrest⟩ := List.forall_mem_cons.mp hxs
    have hnamed : star ∉ names ++ [Tools.cStr name] := by
      simpa [hnames] using Ne.symm hname
    have hnot : ∀ i ∈ c.masks (names ++ [Tools.cStr name]) ++ c.nodes (names ++ [Tools.cStr name]),
        i ∉ m.busy :=
      fun i hi => hm ▸ not_openAt h hnamed hi
    obtain ⟨hallowed, hbusy⟩ :=
      enters (c := c) (m := m) attrs (h.firing_nodup (names ++ [Tools.cStr name]))
      (fun i hi => (Wired.mem_firing.mp hi).1) hnot
    rw [hm, ← openAt_append] at hbusy
    obtain ⟨hallowed₁, hbusy₁⟩ := ih hbody hnamed hbusy
    obtain ⟨hallowed₂, hbusy₂⟩ := exits h name (leavable h hnamed hbusy₁)
    have hback : openAt c (names ++ [Tools.cStr name]) \
        {i | i ∈ c.masks (names ++ [Tools.cStr name]) ++ c.nodes (names ++ [Tools.cStr name])} =
          openAt c names := by
      rw [openAt_append]
      exact Set.union_sdiff_cancel_right fun i hi => not_openAt h hnamed hi.2 hi.1
    rw [hbusy₁, hback] at hbusy₂
    obtain ⟨hallowed₃, hbusy₃⟩ := ih' hrest hnames hbusy₂
    rw [Compiled.calls_element]
    simp only [allowed_append, after_append]
    exact ⟨⟨hallowed, hallowed₁, hallowed₂, hallowed₃⟩, hbusy₃⟩

end Phase

end Xml2Var
end Nkit
