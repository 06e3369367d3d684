import Nkit.Path.DynamicPath

/-! When the comparison of paths is an order.  Items are compared by their kinds alone, and of two
paths of one length one is less only if it is less at every position. -/

namespace Nkit

namespace PathItem

def target (vars : Variables) : PathItem → PathItem
  | keyPtr p => key (vars.keys p)
  | indexPtr p => index (vars.indices p)
  | item => item

/-- The same kind and the same key or index. -/
def Same (vars : Variables) (x y : PathItem) : Prop :=
  x.kind = y.kind ∧ x.target vars = y.target vars

end PathItem

namespace DynamicPath

section
variable {f : PathItem → PathItem → Bool} {xs ys zs : List PathItem}

theorem equal_iff (hlen : xs.length = ys.length) :
    equal f xs ys = true ↔ List.Forall₂ (fun x y => f x y = true) xs ys := by
  rw [equal, List.all_eq_true, List.forall₂_iff_zip, iff_true_intro hlen, true_and]
  exact ⟨fun h x y hxy => h (x, y) hxy, fun h xy hxy => h hxy⟩

def Below (xs ys : List PathItem) : Prop := List.Forall₂ (fun x y => x.kind < y.kind) xs ys

/-- The two paths have the same kinds. -/
def Alike (xs ys : List PathItem) : Prop := List.Forall₂ (fun x y => x.kind = y.kind) xs ys

theorem Below.trans (h : Below xs ys) (h' : Below ys zs) : Below xs zs := by
  unfold Below at h
  induction h generalizing zs with
  | nil =>
    cases h'
    exact .nil
  | cons hxy _ ih =>
    cases h' with
    | cons hyz h' => exact .cons (lt_trans hxy hyz) (ih h')

def Less (xs ys : List PathItem) : Prop := xs.length < ys.length ∨ Below xs ys

theorem Less.trans (h : Less xs ys) (h' : Less ys zs) : Less xs zs := by
  obtain h | h := h <;> obtain h' | h' := h'
  · exact .inl (h.trans h')
  · exact .inl (h'.length_eq ▸ h)
  · exact .inl (h.length_eq ▸ h')
  · exact .inr (h.trans h')

theorem Less.excludes (hne : xs ≠ [] ∨ ys ≠ []) (h : Less xs ys) : ¬Less ys xs ∧ ¬Alike xs ys := by
  obtain hshort | hbelow := h
  · refine ⟨not_or.mpr ⟨hshort.le.not_gt, fun h => hshort.ne' h.length_eq⟩,
      fun h => hshort.ne h.length_eq⟩
  · cases hbelow with
    | nil => exact absurd rfl (hne.elim id id)
    | cons hxy hrest =>
      refine ⟨not_or.mpr ⟨fun hlong => hlong.ne' (congrArg (· + 1) hrest.length_eq), ?_⟩, ?_⟩
      · rintro (_ | ⟨hyx, _⟩)
        exact lt_asymm hxy hyx
      · rintro (_ | ⟨heq, _⟩)
        exact hxy.ne heq

theorem not_less_self (hne : xs ≠ []) : ¬Less xs xs := fun h => (h.excludes (.inl hne)).1 h

theorem Alike.symm (h : Alike xs ys) : Alike ys xs := List.Forall₂.flip (h.imp fun _ _ => Eq.symm)

end

variable {p q r : DynamicPath}

theorem lt_iff : p.lt q = true ↔ Less p.pathItems q.pathItems := by
  unfold lt
  split_ifs with h h'
  · exact iff_of_true rfl (.inl h)
  · exact iff_of_false nofun (not_or.mpr ⟨h, fun hbelow => h'.ne' hbelow.length_eq⟩)
  · rw [equal_iff (le_antisymm (not_lt.mp h') (not_lt.mp h)), Less, or_iff_right h]
    simp only [PathItem.lt, decide_eq_true_eq, Below]

theorem eq_iff : p.eq q = true ↔ Alike p.pathItems q.pathItems := by
  unfold eq
  split_ifs with h
  · exact iff_of_false nofun fun halike => h halike.length_eq
  · rw [equal_iff (not_not.mp h)]
    simp only [PathItem.eq, beq_iff_eq, Alike]

theorem lt_self_iff : p.lt p = true ↔ p.pathItems = [] := by
  rw [lt_iff]
  refine ⟨fun h => not_not.mp fun hne => not_less_self hne h, fun hnil => .inr ?_⟩
  rw [hnil]
  exact .nil

/-- What an ordered container needs of three paths, and that equal paths are the same. -/
structure Ordered (vars : Variables) (p q r : DynamicPath) : Prop where
  same : p.eq q = true ↔ List.Forall₂ (PathItem.Same vars) p.pathItems q.pathItems
  irrefl : p.lt p = false
  trans : p.lt q = true → q.lt r = true → p.lt r = true
  trichotomy : (p.lt q = true ∧ p.eq q = false ∧ q.lt p = false) ∨
    (p.lt q = false ∧ p.eq q = true ∧ q.lt p = false) ∨
    (p.lt q = false ∧ p.eq q = false ∧ q.lt p = true)

/-- The laws hold exactly for a path that is not empty, against a path of another length, one with
kinds above or below at every position, or one of the same items. -/
theorem ordered_iff (vars : Variables) (p q r : DynamicPath) :
    Ordered vars p q r ↔ p.pathItems ≠ [] ∧ (p.pathItems.length ≠ q.pathItems.length ∨
      List.Forall₂ (fun x y => x.kind < y.kind) p.pathItems q.pathItems ∨
      List.Forall₂ (fun x y => y.kind < x.kind) p.pathItems q.pathItems ∨
      List.Forall₂ (PathItem.Same vars) p.pathItems q.pathItems) := by
  have hkinds : List.Forall₂ (PathItem.Same vars) p.pathItems q.pathItems →
      Alike p.pathItems q.pathItems :=
    fun h => h.imp fun _ _ => And.left
  constructor
  · intro h
    have hne : p.pathItems ≠ [] := fun hnil =>
      Bool.false_ne_true (h.irrefl.symm.trans (lt_self_iff.mpr hnil))
    refine ⟨hne, ?_⟩
    obtain ⟨hless, -⟩ | ⟨-, hequal, -⟩ | ⟨-, -, hmore⟩ := h.trichotomy
    · exact (lt_iff.mp hless).imp ne_of_lt .inl
    · exact .inr (.inr (.inr (h.same.mp hequal)))
    · exact (lt_iff.mp hmore).imp ne_of_gt fun hbelow => .inr (.inl (List.Forall₂.flip hbelow))
  · rintro ⟨hne, hcase⟩
    have hirrefl : p.lt p = false := Bool.eq_false_iff.mpr fun h => hne (lt_self_iff.mp h)
    have htrans : p.lt q = true → q.lt r = true → p.lt r = true := by
      simp only [lt_iff]
      exact Less.trans
    -- in each case one of the three relations holds, and it excludes the other two
    have hrelated : Less p.pathItems q.pathItems ∨ Less q.pathItems p.pathItems ∨
        List.Forall₂ (PathItem.Same vars) p.pathItems q.pathItems := by
      obtain hlen | hbelow | habove | hsame := hcase
      · exact (lt_or_gt_of_ne hlen).imp .inl fun h => .inl (.inl h)
      · exact .inl (.inr hbelow)
      · exact .inr (.inl (.inr (List.Forall₂.flip habove)))
      · exact .inr (.inr hsame)
    obtain hless | hmore | hsame := hrelated
    · obtain ⟨hnot, hunlike⟩ := hless.excludes (.inl hne)
      refine ⟨by rw [eq_iff]; exact iff_of_false hunlike (mt hkinds hunlike), hirrefl, htrans,
        .inl ?_⟩
      exact ⟨lt_iff.mpr hless, Bool.eq_false_iff.mpr (mt eq_iff.mp hunlike),
        Bool.eq_false_iff.mpr (mt lt_iff.mp hnot)⟩
    · obtain ⟨hnot, hunlike⟩ := hmore.excludes (.inr hne)
      have hunlike : ¬Alike p.pathItems q.pathItems := fun h => hunlike h.symm
      refine ⟨by rw [eq_iff]; exact iff_of_false hunlike (mt hkinds hunlike), hirrefl, htrans,
        .inr (.inr ?_)⟩
      exact ⟨Bool.eq_false_iff.mpr (mt lt_iff.mp hnot),
        Bool.eq_false_iff.mpr (mt eq_iff.mp hunlike), lt_iff.mpr hmore⟩
    · have halike := hkinds hsame
      have hless : ¬Less p.pathItems q.pathItems := fun h => (h.excludes (.inl hne)).2 halike
      have hmore : ¬Less q.pathItems p.pathItems := fun h => (h.excludes (.inr hne)).2 halike.symm
      refine ⟨by rw [eq_iff]; exact iff_of_true halike hsame, hirrefl, htrans, .inr (.inl ?_)⟩
      exact ⟨Bool.eq_false_iff.mpr (mt lt_iff.mp hless), eq_iff.mpr halike,
        Bool.eq_false_iff.mpr (mt lt_iff.mp hmore)⟩

/-- Two keys are equal and neither is less; an index and a key at different places are in no
relation; the empty path is less than itself. -/
theorem ordered_fails :
    (⟨46, [.key (ascii "a")], []⟩ : DynamicPath).eq ⟨46, [.key (ascii "b")], []⟩ = true ∧
    ((⟨46, [.key (ascii "a"), .index 0], []⟩ : DynamicPath).lt ⟨46, [.index 0, .key (ascii "a")],
      []⟩ = false ∧
      (⟨46, [.key (ascii "a"), .index 0], []⟩ : DynamicPath).eq ⟨46, [.index 0, .key (ascii "a")],
        []⟩ = false ∧
      (⟨46, [.index 0, .key (ascii "a")], []⟩ : DynamicPath).lt ⟨46, [.key (ascii "a"), .index 0],
        []⟩ = false) ∧
    (⟨46, [], []⟩ : DynamicPath).lt ⟨46, [], []⟩ = true := by
  decide

end DynamicPath
end Nkit
