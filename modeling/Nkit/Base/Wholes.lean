import Mathlib.Data.List.Basic
import Mathlib.Tactic.Common

/-! Parts written one after the other, each of which has a whole that it may fall short of. -/

namespace Wholes
variable {A B : Type*}

/-- The parts one after the other, each of them whole. -/
inductive Joins (Whole : A → List B → Prop) : List A → List B → Prop
  | nil : Joins Whole [] []
  | cons {a : A} {as : List A} {x out : List B} (hx : Whole a x) (h : Joins Whole as out) :
      Joins Whole (a :: as) (x ++ out)

/-- What is written is never longer than a whole. -/
def Bounded (Whole : A → List B → Prop) (written : A → List B) : Prop :=
  ∀ a x, Whole a x → (written a).length ≤ x.length

variable {Whole : A → List B → Prop} {written : A → List B} {as : List A} {out : List B}

theorem Joins.length_le (hbounded : Bounded Whole written) (h : Joins Whole as out) :
    (as.flatMap written).length ≤ out.length := by
  induction h with
  | nil => exact Nat.zero_le _
  | cons hx _ ih =>
    rw [List.flatMap_cons, List.length_append, List.length_append]
    exact Nat.add_le_add (hbounded _ _ hx) ih

theorem joins_flatMap_iff (hbounded : Bounded Whole written) :
    Joins Whole as (as.flatMap written) ↔ ∀ a ∈ as, Whole a (written a) := by
  induction as with
  | nil => exact ⟨fun _ a ha => absurd ha List.not_mem_nil, fun _ => .nil⟩
  | cons a as ih =>
    rw [List.forall_mem_cons, ← ih, List.flatMap_cons]
    constructor
    · intro h
      generalize hout : written a ++ as.flatMap written = out at h
      cases h with
      | @cons _ _ x rest hx hrest =>
        have hfirst := hbounded a x hx
        have hothers := hrest.length_le hbounded
        have hlength := congrArg List.length hout
        rw [List.length_append, List.length_append] at hlength
        obtain ⟨rfl, rfl⟩ := List.append_inj hout (by omega)
        exact ⟨hx, hrest⟩
    · rintro ⟨hx, hrest⟩
      exact .cons hx hrest

end Wholes
