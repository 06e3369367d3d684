import Mathlib.Data.List.Basic

/-! A loop that builds something from each element and leaves at the first element for which an
error is reported. -/

namespace Collect

variable {A B C E : Type*} (step : A → List E → B × List E) (put : C → A → B → C)

def collect : List A → C → List E → C × List E
  | [], c, errors => (c, errors)
  | a :: as, c, errors =>
    match step a errors with
    | (b, []) => collect as (put c a b) []
    | (_, errors) => (c, errors)

/-- All of `bs` put into `c`, each under its element. -/
def fill (c : C) (as : List A) (bs : List B) : C :=
  (as.zip bs).foldl (fun c ab => put c ab.1 ab.2) c

def Builds : List A → List B → Prop := List.Forall₂ fun a b => step a [] = (b, [])

/-- The loop leaves at an element, after the results `bs` for those before it. -/
def Leaves (as : List A) (bs : List B) : Prop :=
  ∃ before a after, as = before ++ a :: after ∧ Builds step before bs ∧ (step a []).2 ≠ []

variable {step put} {as : List A} {bs : List B} {c : C}

theorem collect_of_builds (h : Builds step as bs) (c : C) :
    collect step put as c [] = (fill put c as bs, []) := by
  induction h generalizing c with
  | nil => rfl
  | cons hstep _ ih =>
    rw [collect, hstep]
    exact ih _

theorem collect_of_leaves {before : List A} {a : A} {after : List A} (h : Builds step before bs)
    (ha : (step a []).2 ≠ []) (c : C) :
    collect step put (before ++ a :: after) c [] = (fill put c before bs, (step a []).2) := by
  induction h generalizing c with
  | nil =>
    rw [List.nil_append, collect]
    generalize step a [] = result at ha ⊢
    obtain ⟨b, errors⟩ := result
    cases errors with
    | nil => exact absurd rfl ha
    | cons e errors => rfl
  | cons hstep _ ih =>
    rw [List.cons_append, collect, hstep]
    exact ih _

theorem collect_keeps {P : List E → Prop} {errors : List E}
    (hstep : ∀ a errors, P errors → P (step a errors).2) (h : P errors) (c : C) :
    P (collect step put as c errors).2 := by
  induction as generalizing c errors with
  | nil => exact h
  | cons a as ih =>
    have hnext := hstep a errors h
    rw [collect]
    generalize step a errors = result at hnext
    obtain ⟨b, errors'⟩ := result
    cases errors' with
    | nil => exact ih hnext _
    | cons e errors' => exact hnext

theorem fill_append {before after : List A} (h : before.length = bs.length) (c : C) :
    fill put c (before ++ after) bs = fill put c before bs := by
  have hzip : (before ++ after).zip (bs ++ []) = before.zip bs ++ after.zip [] := List.zip_append h
  rw [List.append_nil, List.zip_nil_right, List.append_nil] at hzip
  rw [fill, fill, hzip]

theorem fill_snoc (as : List A) (bs : List B) (h : as.length = bs.length) (c : List B) :
    fill (fun c _ b => c ++ [b]) c as bs = c ++ bs := by
  induction as generalizing bs c with
  | nil =>
    obtain rfl : bs = [] := List.eq_nil_of_length_eq_zero h.symm
    exact (List.append_nil c).symm
  | cons a as ih =>
    cases bs with
    | nil => cases h
    | cons b bs =>
      have hrest := ih bs (Nat.succ.inj h) (c ++ [b])
      rw [List.append_assoc] at hrest
      exact hrest

theorem builds_or_leaves (step : A → List E → B × List E) (as : List A) :
    (∃ bs, Builds step as bs) ∨ ∃ bs, Leaves step as bs := by
  induction as with
  | nil => exact .inl ⟨[], .nil⟩
  | cons a as ih =>
    by_cases ha : (step a []).2 = []
    · have hstep : step a [] = ((step a []).1, []) := Prod.ext rfl ha
      obtain ⟨bs, h⟩ | ⟨bs, before, x, after, rfl, h, hx⟩ := ih
      · exact .inl ⟨_ :: bs, .cons hstep h⟩
      · exact .inr ⟨_ :: bs, a :: before, x, after, rfl, .cons hstep h, hx⟩
    · exact .inr ⟨[], [], a, as, rfl, .nil, ha⟩

theorem collect_errors_nil_iff : (collect step put as c []).2 = [] ↔ ∃ bs, Builds step as bs := by
  constructor
  · intro h
    obtain hbuilds | ⟨bs, before, a, after, rfl, hbuilds, ha⟩ := builds_or_leaves step as
    · exact hbuilds
    · rw [collect_of_leaves hbuilds ha] at h
      exact absurd h ha
  · rintro ⟨bs, h⟩
    rw [collect_of_builds h]

end Collect
