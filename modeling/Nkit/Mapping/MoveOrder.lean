import Nkit.Mapping.Moves

/-! The order in which target items are entered and left: a child is left before its parent, and an
object or a list has collected all its children when it is left. -/

namespace Nkit
namespace Xml2Var

def TargetItem.Within (names : List Bytes) (item : TargetItem Bytes) : Prop :=
  ∃ q, q <+: names ∧ item.firesAt q = true

theorem TargetItem.firesAt_congr {item item' : TargetItem Bytes}
    (hmask : item.path.isMask = item'.path.isMask)
    (helements : item.path.elements = item'.path.elements) {names : List Bytes} :
    item.firesAt names = item'.firesAt names := by
  simp only [firesAt, Path.same, hmask, helements]

theorem TargetItem.firesAt_iff {item : TargetItem Bytes} (hmask : item.path.MaskOk)
    {names : List Bytes} (hnames : star ∉ names) :
    item.firesAt names = true ↔
      List.Forall₂ (fun e n => e = star ∨ e = n) item.path.elements names := by
  rw [List.forall₂_iff_zip, firesAt, hmask]
  cases hstar : item.path.elements.contains star with
  | true =>
    have hpath : item.path.isMask = true := hmask.trans hstar
    simp only [if_true, Path.same, hpath, Bool.not_true, Bool.false_and, if_neg Bool.false_ne_true,
      Bool.and_eq_true, beq_iff_eq, List.all_eq_true, Path.compare, Bool.or_eq_true]
    refine and_congr_right fun _ => ⟨fun h e n hin => ?_, fun h e hin => ?_⟩
    · rcases h (e, n) hin with (h | h) | h
      · exact .inl h
      · exact absurd ((show n = star from h) ▸ (List.of_mem_zip hin).2) hnames
      · exact .inr h
    · exact (h hin).imp .inl id
  | false =>
    have hnot : star ∉ item.path.elements := by simpa using hstar
    rw [if_neg Bool.false_ne_true, beq_iff_eq, ← List.forall₂_iff_zip, ← List.forall₂_eq_eq_eq]
    constructor
    · exact fun h => h.imp fun _ _ heq => .inr heq
    · intro h
      rw [List.forall₂_iff_get] at h ⊢
      refine ⟨h.1, fun i hi hi' => (h.2 i hi hi').resolve_left fun heq => hnot ?_⟩
      exact heq ▸ List.get_mem _ _

namespace Wired
variable {c : Compiled} {names : List Bytes} {i j p k : ℕ}

theorem fit (h : Wired c) (hj : j ∈ c.order) (hp : (c.group.items j).parentTarget = some p) :
    p ∈ c.order ∧ Fit c.group.items j p := by
  rcases h.forest.parent j hj with rfl | ⟨q, hq, hfit⟩
  · rw [h.noParent] at hp
    cases hp
  · obtain rfl := Option.some.inj (hp.symm.trans hfit.parentTarget)
    exact ⟨hq, hfit⟩

theorem child_ne (h : Wired c) (hi : i ∈ c.order) (hk : k ∈ (c.group.items i).target.children) :
    k ≠ i := by
  obtain ⟨hkin, hparent⟩ := h.forest.children i hi k hk
  exact fun heq => h.forest.irrefl k hkin (heq ▸ hparent)

theorem down (h : Wired c) {P : ℕ → Prop} (hroot : P 0)
    (hfit : ∀ j ∈ c.order, ∀ p ∈ c.order, Fit c.group.items j p → P p → P j) :
    ∀ j ∈ c.order, P j := by
  have hsuffix : ∀ pre post, c.order = pre ++ post → ∀ j ∈ post, P j := by
    intro pre post
    induction post generalizing pre with
    | nil => exact fun _ j hj => absurd hj List.not_mem_nil
    | cons j post ih =>
      intro heq
      have hpost := ih (pre ++ [j]) (by rw [heq, List.append_assoc]; rfl)
      have hj : j ∈ c.order := heq ▸ List.mem_append_right _ List.mem_cons_self
      refine List.forall_mem_cons.mpr ⟨?_, hpost⟩
      rcases h.forest.parent j hj with rfl | ⟨p, hp, hf⟩
      · exact hroot
      · refine hfit j hj p hp hf (hpost p ?_)
        -- the parent was created after the child
        have hpair := h.forest.pairwise
        rw [heq] at hpair hp
        rcases List.mem_append.mp hp with hp | hp
        · exact absurd hf.parentTarget
            ((List.pairwise_append.mp hpair).2.2 p hp j List.mem_cons_self)
        · rcases List.mem_cons.mp hp with rfl | hp
          · exact absurd hf.parentTarget (h.forest.irrefl p hj)
          · exact hp
  exact hsuffix [] c.order rfl

theorem length_eq (h : Wired c) (hi : i ∈ c.order) (hfires : (c.group.items i).firesAt names = true)
    (hnames : star ∉ names) :
    (c.group.items i).path.elements.length = names.length :=
  ((TargetItem.firesAt_iff (h.forest.isMask i hi) hnames).mp hfires).length_eq

theorem within_append {item : TargetItem Bytes} {n : Bytes} :
    item.Within (names ++ [n]) ↔ item.Within names ∨ item.firesAt (names ++ [n]) = true := by
  constructor
  · rintro ⟨q, hq, hfires⟩
    rcases List.prefix_concat_iff.mp hq with rfl | hq
    · exact .inr hfires
    · exact .inl ⟨q, hq, hfires⟩
  · rintro (⟨q, hq, hfires⟩ | hfires)
    · exact ⟨q, hq.trans (List.prefix_append _ _), hfires⟩
    · exact ⟨_, List.prefix_refl _, hfires⟩

theorem not_within (h : Wired c) (hi : i ∈ c.order) {n : Bytes} (hnames : star ∉ names ++ [n])
    (hfires : (c.group.items i).firesAt (names ++ [n]) = true) :
    ¬(c.group.items i).Within names := by
  rintro ⟨q, hq, hfires'⟩
  have hlen := h.length_eq hi hfires hnames
  have hlen' := h.length_eq hi hfires' fun hin => hnames (List.mem_append_left _ (hq.subset hin))
  have hle := hq.length_le
  rw [List.length_append, List.length_singleton] at hlen
  omega

theorem parent_within (h : Wired c) (hj : j ∈ c.order)
    (hp : (c.group.items j).parentTarget = some p) (hnames : star ∉ names)
    (hwithin : (c.group.items j).Within names) : (c.group.items p).Within names := by
  obtain ⟨hin, hfit⟩ := h.fit hj hp
  obtain ⟨q, hq, hfires⟩ := hwithin
  have hstar : star ∉ q := fun hin => hnames (hq.subset hin)
  rw [TargetItem.firesAt_iff (h.forest.isMask j hj) hstar] at hfires
  have htake := List.forall₂_take (c.group.items p).path.elements.length hfires
  rw [List.prefix_iff_eq_take.mp hfit.extends_ |>.symm] at htake
  refine ⟨q.take (c.group.items p).path.elements.length, (List.take_prefix _ q).trans hq, ?_⟩
  exact (TargetItem.firesAt_iff (h.forest.isMask p hin) fun hmem =>
    hstar (List.mem_of_mem_take hmem)).mpr htake

theorem firesAt_of_within (h : Wired c) (hj : j ∈ c.order)
    (hp : (c.group.items j).parentTarget = some p) (hnames : star ∉ names)
    (hwithin : (c.group.items j).Within names) (hfires : (c.group.items p).firesAt names = true) :
    (c.group.items j).firesAt names = true := by
  obtain ⟨hin, hfit⟩ := h.fit hj hp
  obtain ⟨q, hq, hfires'⟩ := hwithin
  have hlen := h.length_eq hin hfires hnames
  have hlen' := h.length_eq hj hfires' fun hmem => hnames (hq.subset hmem)
  have hle := hfit.extends_.length_le
  exact (hq.eq_of_length (Nat.le_antisymm hq.length_le (by omega))) ▸ hfires'

end Wired

structure Hanging (c : Compiled) : Prop extends Wired c where
  rooted : (c.group.items 0).path.elements ≠ []

namespace Hanging
variable {c : Compiled} {i : ℕ}

theorem elements_ne_nil (h : Hanging c) (hi : i ∈ c.order) :
    (c.group.items i).path.elements ≠ [] := by
  refine h.down (P := fun i => (c.group.items i).path.elements ≠ []) h.rooted
    (fun j _ p _ hfit hp heq => hp ?_) i hi
  have hpre := hfit.extends_
  rw [heq] at hpre
  exact List.prefix_nil.mp hpre

theorem not_firesAt_nil (h : Hanging c) (hi : i ∈ c.order) :
    (c.group.items i).firesAt [] = false := by
  by_contra hne
  have hlen := h.length_eq hi (Bool.not_eq_false _ ▸ hne) List.not_mem_nil
  exact h.elements_ne_nil hi (List.eq_nil_of_length_eq_zero hlen)

theorem not_within_nil (h : Hanging c) (hi : i ∈ c.order) : ¬(c.group.items i).Within [] := by
  rintro ⟨q, hq, hfires⟩
  rw [List.prefix_nil.mp hq, h.not_firesAt_nil hi] at hfires
  cases hfires

end Hanging

structure Marks where
  busy : Set ℕ
  attrs : ℕ → Option (List (Bytes × Bytes))
  exited : Set ℕ
  tidy : Set ℕ

namespace Marks

def start : Marks := ⟨∅, fun _ => none, ∅, Set.univ⟩

def note (v : Move) (m : Marks) : Marks :=
  match v with
  | .enter attrs i =>
    { m with busy := insert i m.busy, attrs := Function.update m.attrs i (some attrs) }
  | .text _ _ => m
  | .collect _ _ k => { m with tidy := insert k m.tidy }
  | .leave _ i => { m with busy := m.busy \ {i}, exited := insert i m.exited, tidy := m.tidy \ {i} }

def Legal (c : Compiled) (m : Marks) : Move → Prop
  | .enter _ i => i ∈ c.order ∧ i ∉ m.busy
  | .text _ i => i ∈ c.order ∧ i ∈ m.busy
  | .collect _ i k =>
    i ∈ c.order ∧ i ∈ m.busy ∧ k ∈ (c.group.items i).target.children ∧ k ∉ m.busy ∧
      ∀ items t, (c.group.items i).target = .list items → (c.group.items k).target = .scalar t →
        k ∈ m.exited
  | .leave _ i =>
    i ∈ c.order ∧ i ∈ m.busy ∧ (∀ p, (c.group.items i).parentTarget = some p → p ∈ m.busy) ∧
      ∀ k ∈ (c.group.items i).target.children, k ∈ m.tidy

def Neat (c : Compiled) (m : Marks) : Prop :=
  ∀ p ∈ c.order, p ∉ m.busy → ∀ k ∈ (c.group.items p).target.children, k ∉ m.busy → k ∈ m.tidy

/-- The marks at an element, after the tags `ts`. -/
structure At (c : Compiled) (names : List Bytes) (ts : List Tag) (m : Marks) : Prop where
  named : star ∉ names
  busy : ∀ i, i ∈ m.busy ↔ i ∈ c.order ∧ (c.group.items i).Within names
  attrs : ∀ i ∈ c.order, m.attrs i = (c.group.items i).lastAttrs ts
  exited : ∀ i ∈ c.order, i ∈ m.exited ↔ (c.group.items i).closed ts = true
  neat : m.Neat c

open Ledger
variable {c : Compiled} {m : Marks} {names : List Bytes} {ts : List Tag}

theorem at_start (h : Hanging c) : start.At c [] [] where
  named := List.not_mem_nil
  busy := fun _ => iff_of_false (Set.notMem_empty _) fun hi => h.not_within_nil hi.1 hi.2
  attrs := fun _ _ => rfl
  exited := fun _ _ => iff_of_false (Set.notMem_empty _) Bool.false_ne_true
  neat := fun _ _ _ _ _ _ => Set.mem_univ _

theorem enters (attrs : List (Bytes × Bytes)) {items : List ℕ} (hnodup : items.Nodup)
    (horder : ∀ i ∈ items, i ∈ c.order) (hbusy : ∀ i ∈ items, i ∉ m.busy) :
    Allowed note (Legal c) m (items.map (.enter attrs)) ∧ after note m (items.map (.enter attrs)) =
      { m with
        busy := m.busy ∪ {i | i ∈ items}, attrs := fun i => if i ∈ items then some attrs
        else m.attrs i } := by
  induction items generalizing m with
  | nil => exact ⟨trivial, by simp⟩
  | cons i items ih =>
    obtain ⟨hi, hnodup⟩ := List.nodup_cons.mp hnodup
    obtain ⟨hallowed, hafter⟩ :=
      @ih (m.note (.enter attrs i)) hnodup (fun j hj => horder j (List.mem_cons_of_mem i hj)) <| by
      intro j hj hin
      rcases Set.mem_insert_iff.mp hin with rfl | hin
      · exact hi hj
      · exact hbusy j (List.mem_cons_of_mem i hj) hin
    refine ⟨⟨⟨horder i List.mem_cons_self, hbusy i List.mem_cons_self⟩, hallowed⟩, ?_⟩
    rw [List.map_cons, after_cons]
    refine hafter.trans ?_
    congr 1
    · ext j
      simp only [note, Set.mem_union, Set.mem_insert_iff, Set.mem_ofPred_eq, List.mem_cons]
      tauto
    · funext j
      by_cases hji : j = i
      · subst hji
        simp [note]
      · simp [note, hji]

structure Leavable (c : Compiled) (m : Marks) (items : List ℕ) : Prop where
  order : ∀ i ∈ items, i ∈ c.order
  busy : ∀ i ∈ items, i ∈ m.busy
  parent : ∀ i ∈ items, ∀ p, (c.group.items i).parentTarget = some p → p ∈ m.busy
  children : ∀ i ∈ items, ∀ k ∈ (c.group.items i).target.children, k ∈ m.busy → k ∈ items
  scalars : ∀ i ∈ items, ∀ k ∈ (c.group.items i).target.children,
    ∀ its t, (c.group.items i).target = .list its →
    (c.group.items k).target = .scalar t → k ∈ m.exited ∨ k ∈ items
  nodup : items.Nodup
  pairwise : items.Pairwise fun a b => (c.group.items b).parentTarget ≠ some a

/-- The loop of `OnExit` of an object or a list. -/
theorem collects (el : Bytes) {i : ℕ} {children : List ℕ} (hi : i ∈ c.order) (hbusy : i ∈ m.busy)
    (hchildren : ∀ k ∈ children, k ∈ (c.group.items i).target.children ∧ k ∉ m.busy ∧ ∀ items t,
      (c.group.items i).target = .list items → (c.group.items k).target = .scalar t →
      k ∈ m.exited) :
    Allowed note (Legal c) m (children.map (.collect el i)) ∧
      after note m (children.map (.collect el i)) =
        { m with tidy := m.tidy ∪ {k | k ∈ children} } := by
  induction children generalizing m with
  | nil => exact ⟨trivial, by simp⟩
  | cons k children ih =>
    obtain ⟨hk, hrest⟩ := List.forall_mem_cons.mp hchildren
    obtain ⟨hallowed, hafter⟩ := @ih (m.note (.collect el i k)) hbusy hrest
    refine ⟨⟨⟨hi, hbusy, hk⟩, hallowed⟩, ?_⟩
    rw [List.map_cons, after_cons]
    refine hafter.trans ?_
    congr 1
    ext j
    simp only [note, Set.mem_union, Set.mem_insert_iff, Set.mem_ofPred_eq, List.mem_cons]
    tauto

/-- `OnExit` of one target item. -/
theorem exits_one (h : Hanging c) (el : Bytes) {i : ℕ} {items : List ℕ}
    (hl : Leavable c m (i :: items)) (hneat : m.Neat c) :
    ∃ m', Allowed note (Legal c) m (TargetGroup.exitMoves c.group.items el i) ∧
      after note m (TargetGroup.exitMoves c.group.items el i) = m' ∧ m'.busy = m.busy \ {i} ∧
        m'.attrs = m.attrs ∧
      m'.exited = insert i m.exited ∧ m'.Neat c ∧ Leavable c m' items := by
  obtain ⟨hi, horder⟩ := List.forall_mem_cons.mp hl.order
  obtain ⟨hbusy, hrest⟩ := List.forall_mem_cons.mp hl.busy
  obtain ⟨hfirst, hpairwise⟩ := List.pairwise_cons.mp hl.pairwise
  obtain ⟨hnot, hnodup⟩ := List.nodup_cons.mp hl.nodup
  -- the children of `i` were left before
  have hgone : ∀ k ∈ (c.group.items i).target.children, k ∉ i :: items := by
    intro k hk hin
    have hparent := (h.forest.children i hi k hk).2
    rcases List.mem_cons.mp hin with rfl | hin
    · exact h.forest.irrefl k hi hparent
    · exact hfirst k hin hparent
  obtain ⟨hallowed, hafter⟩ :=
    collects (m := m) el hi hbusy fun k (hk : k ∈ (c.group.items i).target.children) =>
    ⟨hk, fun hin => hgone k hk (hl.children i List.mem_cons_self k hk hin),
      fun its t hlist hscalar =>
      (hl.scalars i List.mem_cons_self k hk its t hlist hscalar).resolve_right (hgone k hk)⟩
  rw [TargetGroup.exitMoves, allowed_append, after_append, hafter]
  refine ⟨_,
    ⟨hallowed, ⟨hi, hbusy, fun p hp => hl.parent i List.mem_cons_self p hp, fun k hk => .inr hk⟩,
      trivial⟩, rfl, rfl, rfl, rfl, ?_, ?_⟩
  · intro p hp hpnot k hk hknot
    have hne : k ≠ i ∨ p = i := by
      by_contra hboth
      obtain ⟨rfl, hpi⟩ := not_or.mp hboth |>.imp not_not.mp id
      -- the parent of an item that is being left is still open
      exact hpnot ⟨hl.parent k List.mem_cons_self p (h.forest.children p hp k hk).2, hpi⟩
    rcases eq_or_ne p i with rfl | hpi
    · exact ⟨.inr hk, fun heq => hgone k hk (heq ▸ List.mem_cons_self)⟩
    · have hki := hne.resolve_right hpi
      exact ⟨.inl (hneat p hp (fun hin => hpnot ⟨hin, hpi⟩) k hk fun hin => hknot ⟨hin, hki⟩), hki⟩
  · have hother : ∀ j ∈ items, j ≠ i := fun j hj heq => hnot (heq ▸ hj)
    constructor
    · exact horder
    · exact fun j hj => ⟨hrest j hj, hother j hj⟩
    · intro j hj p hp
      exact ⟨hl.parent j (List.mem_cons_of_mem i hj) p hp, fun heq => hfirst j hj (heq ▸ hp)⟩
    · intro j hj k hk hin
      exact (List.mem_cons.mp (hl.children j (List.mem_cons_of_mem i hj) k hk hin.1)).resolve_left
        hin.2
    · intro j hj k hk its t hlist hscalar
      rcases hl.scalars j (List.mem_cons_of_mem i hj) k hk its t hlist hscalar with hin | hin
      · exact .inl (.inr hin)
      · exact (List.mem_cons.mp hin).imp .inl id
    · exact hnodup
    · exact hpairwise

theorem exits (h : Hanging c) (el : Bytes) {items : List ℕ} (hl : Leavable c m items)
    (hneat : m.Neat c) :
    ∃ m', Allowed note (Legal c) m (items.flatMap (TargetGroup.exitMoves c.group.items el)) ∧
      after note m (items.flatMap (TargetGroup.exitMoves c.group.items el)) = m' ∧
        m'.busy = m.busy \ {i | i ∈ items} ∧
      m'.attrs = m.attrs ∧ m'.exited = m.exited ∪ {i | i ∈ items} ∧ m'.Neat c := by
  induction items generalizing m with
  | nil => exact ⟨m, trivial, rfl, by simp, rfl, by simp, hneat⟩
  | cons i items ih =>
    obtain ⟨m₁, hallowed₁, hafter₁, hbusy₁, hattrs₁, hexited₁, hneat₁, hl₁⟩ :=
      exits_one h el hl hneat
    obtain ⟨m₂, hallowed₂, hafter₂, hbusy₂, hattrs₂, hexited₂, hneat₂⟩ := ih hl₁ hneat₁
    refine ⟨m₂, ?_, ?_, ?_, hattrs₂.trans hattrs₁, ?_, hneat₂⟩
    · rw [List.flatMap_cons, allowed_append, hafter₁]
      exact ⟨hallowed₁, hallowed₂⟩
    · rw [List.flatMap_cons, after_append, hafter₁, hafter₂]
    · rw [hbusy₂, hbusy₁]
      ext j
      simp [and_assoc]
    · rw [hexited₂, hexited₁]
      ext j
      simp only [Set.mem_union, Set.mem_insert_iff, Set.mem_ofPred_eq, List.mem_cons]
      tauto

end Marks

namespace Wired
variable {c : Compiled} {names : List Bytes} {i : ℕ}

theorem mem_firing :
    i ∈ c.masks names ++ c.nodes names ↔ i ∈ c.order ∧ (c.group.items i).firesAt names = true := by
  rw [List.mem_append, Compiled.masks, Compiled.nodes, List.mem_filter, List.mem_filter]
  cases (c.group.items i).path.isMask <;> simp

theorem firing_nodup (h : Wired c) (names : List Bytes) :
    (c.masks names ++ c.nodes names).Nodup := by
  refine (h.forest.nodup.filter _).append (h.forest.nodup.filter _) fun i hi hi' => ?_
  have hmask := (List.mem_filter.mp hi).2
  have hnode := (List.mem_filter.mp hi').2
  rw [Bool.and_eq_true] at hmask hnode
  rw [hmask.1] at hnode
  cases hnode.1

theorem isMask_congr (h : Wired c) {j : ℕ} (hi : i ∈ c.order) (hj : j ∈ c.order)
    (helements : (c.group.items i).path.elements = (c.group.items j).path.elements) :
    (c.group.items i).path.isMask = (c.group.items j).path.isMask := by
  rw [h.forest.isMask i hi, h.forest.isMask j hj, helements]

theorem firing_pairwise (h : Wired c) (hnames : star ∉ names) :
    (c.masks names ++ c.nodes names).Pairwise fun a b => (c.group.items b).parentTarget ≠
      some a := by
  refine List.pairwise_append.mpr ⟨h.forest.pairwise.sublist List.filter_sublist,
    h.forest.pairwise.sublist List.filter_sublist, fun a ha b hb hparent => ?_⟩
  obtain ⟨hain, ha⟩ := List.mem_filter.mp ha
  obtain ⟨hbin, hb⟩ := List.mem_filter.mp hb
  rw [Bool.and_eq_true] at ha hb
  -- an item and its parent that fire at one element have the same path
  have hext := (h.fit hbin hparent).2.extends_
  have hlen := (h.length_eq hain ha.2 hnames).trans (h.length_eq hbin hb.2 hnames).symm
  rw [← h.isMask_congr hain hbin (hext.eq_of_length hlen), ha.1] at hb
  cases hb.1

end Wired

namespace Hanging
variable {c : Compiled} {m : Marks} {names : List Bytes} {ts : List Tag}

theorem leavable (h : Hanging c) (hm : m.At c names ts) :
    m.Leavable c (c.masks names ++ c.nodes names) where
  order := fun i hi => (Wired.mem_firing.mp hi).1
  busy := fun i hi =>
    (hm.busy i).mpr ⟨(Wired.mem_firing.mp hi).1, names, List.prefix_refl _,
      (Wired.mem_firing.mp hi).2⟩
  parent := by
    intro i hi p hp
    obtain ⟨hin, hfires⟩ := Wired.mem_firing.mp hi
    exact (hm.busy p).mpr
      ⟨(h.fit hin hp).1, h.parent_within hin hp hm.named ⟨names, List.prefix_refl _, hfires⟩⟩
  children := by
    intro i hi k hk hbusy
    obtain ⟨hin, hfires⟩ := Wired.mem_firing.mp hi
    obtain ⟨hkin, hparent⟩ := h.forest.children i hin k hk
    exact Wired.mem_firing.mpr
      ⟨hkin, h.firesAt_of_within hkin hparent hm.named ((hm.busy k).mp hbusy).2 hfires⟩
  scalars := by
    intro i hi k hk its t hlist hscalar
    obtain ⟨hin, hfires⟩ := Wired.mem_firing.mp hi
    obtain ⟨hkin, hparent⟩ := h.forest.children i hin k hk
    have hsame := ((h.fit hkin hparent).2.list hlist).2.2.2 (by simp [hscalar])
    refine .inr (Wired.mem_firing.mpr ⟨hkin, ?_⟩)
    rw [TargetItem.firesAt_congr (h.isMask_congr hkin hin hsame) hsame]
    exact hfires
  nodup := h.firing_nodup _
  pairwise := h.firing_pairwise hm.named

end Hanging

theorem TargetItem.lastAttrs_append (item : TargetItem Bytes) (ts : List Tag) (names : List Bytes)
    (attrs : List (Bytes × Bytes)) :
    item.lastAttrs (ts ++ [.opens names attrs]) =
      (if item.firesAt names then some attrs else item.lastAttrs ts) ∧
      item.lastAttrs (ts ++ [.closes names]) = item.lastAttrs ts := by
  constructor <;> rw [lastAttrs, List.foldl_append] <;> rfl

theorem TargetItem.closed_append (item : TargetItem Bytes) (ts : List Tag) (names : List Bytes)
    (attrs : List (Bytes × Bytes)) :
    item.closed (ts ++ [.opens names attrs]) = item.closed ts ∧
      item.closed (ts ++ [.closes names]) = (item.closed ts || item.firesAt names) := by
  constructor <;> simp [closed]

namespace Marks
open Ledger
variable {c : Compiled} {m : Marks} {names : List Bytes} {ts : List Tag}

def Due (c : Compiled) (ts : List Tag) (m : Marks) : Move → Prop
  | .collect _ i _ | .leave _ i =>
    ∃ done names rest, ts = done ++ .closes names :: rest ∧ (c.group.items i).firesAt names = true ∧
      ∀ k ∈ c.order, m.attrs k = (c.group.items k).lastAttrs done
  | _ => True

/-- No element has the name that stands for all. -/
def Named : XmlEvent → Prop
  | .startElement el _ => Tools.cStr el ≠ star
  | _ => True

theorem At.event (h : Hanging c) (hm : m.At c names ts) (e : XmlEvent) (he : Named e)
    (rest : List Tag) :
    Allowed note (fun m v => Legal c m v ∧ Due c (ts ++ (eventTags names e ++ rest)) m v) m
      (c.eventMoves names e) ∧
      (after note m (c.eventMoves names e)).At c (stepNames names e) (ts ++ eventTags names e) := by
  cases e with
  | startElement el attrs =>
    have hnamed : star ∉ names ++ [Tools.cStr el] := by
      simpa [hm.named] using Ne.symm he
    obtain ⟨hallowed, hafter⟩ :=
      enters (c := c) (m := m) attrs (h.firing_nodup (names ++ [Tools.cStr el]))
      (fun i hi => (Wired.mem_firing.mp hi).1) fun i hi hin =>
        h.not_within (Wired.mem_firing.mp hi).1 hnamed (Wired.mem_firing.mp hi).2
          ((hm.busy i).mp hin).2
    refine ⟨?_, ?_⟩
    · refine hallowed.and (P := fun v => ∃ attrs i, v = .enter attrs i) (I := fun _ => True) ?_
        (fun _ _ _ _ => trivial) trivial ?_
      · intro v hv
        obtain ⟨i, -, rfl⟩ := List.mem_map.mp hv
        exact ⟨attrs, i, rfl⟩
      · rintro m' v hlegal ⟨attrs, i, rfl⟩ -
        exact ⟨hlegal, trivial⟩
    · rw [Compiled.eventMoves, hafter]
      refine ⟨hnamed, fun i => ?_, fun i hi => ?_, fun i hi => ?_, fun p hp hpnot k hk hknot => ?_⟩
      · rw [stepNames, Wired.within_append, and_or_left, ← hm.busy, ← Wired.mem_firing]
        rfl
      · rw [eventTags, (TargetItem.lastAttrs_append ..).1, ← hm.attrs i hi]
        simp only [Wired.mem_firing, hi, true_and]
      · rw [eventTags, (TargetItem.closed_append ..).1, ← hm.exited i hi]
      · exact hm.neat p hp (fun hin => hpnot (.inl hin)) k hk fun hin => hknot (.inl hin)
  | text text =>
    have hfiring : ∀ i ∈ c.nodes names ++ c.masks names, i ∈ c.order ∧ i ∈ m.busy := by
      intro i hi
      have hin : i ∈ c.masks names ++ c.nodes names :=
        List.mem_append.mpr (List.mem_append.mp hi).symm
      exact ⟨(Wired.mem_firing.mp hin).1, (h.leavable hm).busy i hin⟩
    rw [Compiled.eventMoves, eventTags, List.append_nil]
    generalize c.nodes names ++ c.masks names = items at hfiring
    induction items with
    | nil => exact ⟨trivial, hm⟩
    | cons i items ih =>
      obtain ⟨hi, hrest⟩ := List.forall_mem_cons.mp hfiring
      exact ⟨⟨⟨hi, trivial⟩, (ih hrest).1⟩, (ih hrest).2⟩
  | endElement el =>
    obtain ⟨m', hallowed, hafter, hbusy, hattrs, hexited, hneat⟩ :=
      exits h el (h.leavable hm) hm.neat
    refine ⟨?_, ?_⟩
    · refine hallowed.and
        (P := fun v => (∃ i k, v = .collect el i k ∧ (c.group.items i).firesAt names = true) ∨
        ∃ i, v = .leave el i ∧ (c.group.items i).firesAt names = true)
          (I := fun m' => m'.attrs = m.attrs) ?_ ?_ rfl ?_
      · intro v hv
        obtain ⟨i, hi, hv⟩ := List.mem_flatMap.mp hv
        have hfires := (Wired.mem_firing.mp hi).2
        rcases List.mem_append.mp hv with hv | hv
        · obtain ⟨k, -, rfl⟩ := List.mem_map.mp hv
          exact .inl ⟨i, k, rfl, hfires⟩
        · exact .inr ⟨i, List.mem_singleton.mp hv, hfires⟩
      · rintro m' v (⟨i, k, rfl, -⟩ | ⟨i, rfl, -⟩) hm'
        · exact hm'
        · exact hm'
      · have hat : ∀ m' : Marks, m'.attrs = m.attrs → ∀ k ∈ c.order, m'.attrs k =
            (c.group.items k).lastAttrs ts :=
          fun m' hm' k hk => hm' ▸ hm.attrs k hk
        rintro m' v hlegal (⟨i, k, rfl, hfires⟩ | ⟨i, rfl, hfires⟩) hm'
        · exact ⟨hlegal, ts, names, rest, rfl, hfires, hat m' hm'⟩
        · exact ⟨hlegal, ts, names, rest, rfl, hfires, hat m' hm'⟩
    · rw [Compiled.eventMoves, hafter]
      refine ⟨fun hin => hm.named (List.mem_of_mem_dropLast hin), fun i => ?_, fun i hi => ?_,
        fun i hi => ?_, hneat⟩
      · rw [hbusy, Set.mem_sdiff, hm.busy, Set.mem_ofPred_eq, Wired.mem_firing, stepNames]
        rcases List.eq_nil_or_concat names with rfl | ⟨names, n, rfl⟩
        · exact iff_of_false (fun hi => h.not_within_nil hi.1.1 hi.1.2) fun hi =>
            h.not_within_nil hi.1 hi.2
        · rw [List.concat_eq_append] at hm ⊢
          rw [List.dropLast_concat, Wired.within_append]
          constructor
          · rintro ⟨⟨hi, hwithin⟩, hnot⟩
            exact ⟨hi, hwithin.resolve_right fun hfires => hnot ⟨hi, hfires⟩⟩
          · rintro ⟨hi, hwithin⟩
            exact ⟨⟨hi, .inl hwithin⟩, fun hfires => h.not_within hi hm.named hfires.2 hwithin⟩
      · rw [hattrs, eventTags, (TargetItem.lastAttrs_append _ _ _ []).2, hm.attrs i hi]
      · rw [hexited, eventTags, (TargetItem.closed_append _ _ _ []).2, Bool.or_eq_true,
          ← hm.exited i hi, Set.mem_union, Set.mem_ofPred_eq, Wired.mem_firing]
        simp only [hi, true_and]

theorem At.run (h : Hanging c) (hm : m.At c names ts) {events : List XmlEvent}
    (hevents : ∀ e ∈ events, Named e) :
    Allowed note (fun m v => Legal c m v ∧ Due c (ts ++ tags names events) m v) m
      (c.moves names events) ∧
      (after note m (c.moves names events)).At c (events.foldl stepNames names)
        (ts ++ tags names events) := by
  induction events generalizing m names ts with
  | nil =>
    rw [tags, List.append_nil]
    exact ⟨trivial, hm⟩
  | cons e events ih =>
    obtain ⟨he, hevents⟩ := List.forall_mem_cons.mp hevents
    obtain ⟨hallowed, hm₁⟩ := hm.event h e he (tags (stepNames names e) events)
    obtain ⟨hallowed', hm₂⟩ := ih hm₁ hevents
    rw [Compiled.moves, allowed_append, after_append, tags]
    rw [List.append_assoc] at hallowed' hm₂
    exact ⟨⟨hallowed, hallowed'⟩, hm₂⟩

end Marks

end Xml2Var
end Nkit
