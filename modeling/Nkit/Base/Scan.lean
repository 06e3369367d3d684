import Mathlib.Data.List.Basic
import Mathlib.Order.Nat
import Mathlib.Tactic.Common

/-! A list that is consumed from the left by a step, which says what it writes and how much it has
read, until the list is empty or the step fails. -/

namespace Scan
variable {A B C : Type} {step : List A → Option (List B × ℕ)}

def loop (step : List A → Option (List B × ℕ)) : ℕ → List A → Bool × List B
  | _, [] => (true, [])
  | 0, _ :: _ => (false, [])
  | fuel + 1, a :: src =>
    match step (a :: src) with
    | none => (false, [])
    | some (out, n) =>
      let (ok, rest) := loop step fuel ((a :: src).drop n)
      (ok, out ++ rest)

def run (step : List A → Option (List B × ℕ)) (src : List A) : Bool × List B :=
  loop step src.length src

def Progress (step : List A → Option (List B × ℕ)) : Prop :=
  ∀ src out n, step src = some (out, n) → 0 < n

inductive Consumes (step : List A → Option (List B × ℕ)) :
    List A → List (List A × List B) → List A → Prop
  | stop (src : List A) : Consumes step src [] src
  | step {src rest : List A} {out : List B} {n : ℕ} {parts : List (List A × List B)}
      (hne : src ≠ [])
      (hstep : step src = some (out, n)) (h : Consumes step (src.drop n) parts rest) :
      Consumes step src ((src.take n, out) :: parts) rest

theorem loop_fuel (hstep : Progress step) (fuel fuel' : ℕ) (src : List A) (h : src.length ≤ fuel)
    (h' : src.length ≤ fuel') :
    loop step fuel src = loop step fuel' src := by
  induction fuel generalizing fuel' src with
  | zero =>
    obtain rfl := List.length_eq_zero_iff.mp (Nat.le_zero.mp h)
    cases fuel' <;> rfl
  | succ fuel ih =>
    cases src with
    | nil => cases fuel' <;> rfl
    | cons a src =>
      cases fuel' with
      | zero => cases h'
      | succ fuel' =>
        rw [loop, loop]
        cases hs : step (a :: src) with
        | none => rfl
        | some r =>
          obtain ⟨out, n⟩ := r
          have hpos := hstep _ _ _ hs
          have hdrop : ((a :: src).drop n).length ≤ src.length := by
            rw [List.length_drop, List.length_cons]
            omega
          simp only
          rw [ih fuel' _ (hdrop.trans (Nat.le_of_succ_le_succ h))
            (hdrop.trans (Nat.le_of_succ_le_succ h'))]

@[simp] theorem run_nil : run step [] = (true, []) := rfl

theorem run_none {src : List A} (hne : src ≠ []) (h : step src = none) :
    run step src = (false, []) := by
  cases src with
  | nil => exact absurd rfl hne
  | cons a src => rw [run, List.length_cons, loop, h]

theorem run_some (hstep : Progress step) {src : List A} {out : List B} {n : ℕ} (hne : src ≠ [])
    (h : step src = some (out, n)) :
    run step src = ((run step (src.drop n)).1, out ++ (run step (src.drop n)).2) := by
  cases src with
  | nil => exact absurd rfl hne
  | cons a src =>
    have hpos := hstep _ _ _ h
    rw [run, List.length_cons, loop, h]
    have hdrop : ((a :: src).drop n).length ≤ src.length := by
      rw [List.length_drop, List.length_cons]
      omega
    simp only
    rw [loop_fuel hstep _ _ _ hdrop le_rfl]
    rfl

theorem exists_consumes (hstep : Progress step) (src : List A) :
    ∃ parts rest, Consumes step src parts rest ∧ (run step src).2 = parts.flatMap Prod.snd ∧
      ((run step src).1 = true ∧ rest = [] ∨ (run step src).1 = false ∧ rest ≠ [] ∧
        step rest = none) := by
  have hall : ∀ fuel (src : List A), src.length ≤ fuel →
    ∃ parts rest, Consumes step src parts rest ∧
      (run step src).2 = parts.flatMap Prod.snd ∧
      ((run step src).1 = true ∧ rest = [] ∨ (run step src).1 = false ∧ rest ≠ [] ∧
        step rest = none) := by
    intro fuel
    induction fuel with
    | zero =>
      intro src h
      obtain rfl := List.length_eq_zero_iff.mp (Nat.le_zero.mp h)
      exact ⟨[], [], .stop [], rfl, .inl ⟨rfl, rfl⟩⟩
    | succ fuel ih =>
      intro src h
      by_cases hne : src = []
      · subst hne
        exact ⟨[], [], .stop [], rfl, .inl ⟨rfl, rfl⟩⟩
      · cases hs : step src with
        | none =>
          rw [run_none hne hs]
          exact ⟨[], src, .stop src, rfl, .inr ⟨rfl, hne, hs⟩⟩
        | some r =>
          obtain ⟨out, n⟩ := r
          have hpos := hstep _ _ _ hs
          have hshort : (src.drop n).length ≤ fuel := by
            have := List.length_pos_iff.mpr hne
            rw [List.length_drop]
            omega
          obtain ⟨parts, rest, hcons, hout, hend⟩ := ih (src.drop n) hshort
          rw [run_some hstep hne hs]
          exact ⟨_, rest, .step hne hs hcons, by rw [hout, List.flatMap_cons], hend⟩
  exact hall src.length src le_rfl

/-- What is left of the list after some steps. -/
inductive Reaches (step : List A → Option (List B × ℕ)) : List A → List A → Prop
  | refl (src : List A) : Reaches step src src
  | step {src rest : List A} {out : List B} {n : ℕ} (hne : src ≠ [])
      (hstep : step src = some (out, n))
      (h : Reaches step (src.drop n) rest) : Reaches step src rest

theorem mem_run_iff (hstep : Progress step) {src : List A} {b : B} :
    b ∈ (run step src).2 ↔ ∃ src' out n, Reaches step src src' ∧ src' ≠ [] ∧
      step src' = some (out, n) ∧ b ∈ out := by
  constructor
  · intro hmem
    obtain ⟨parts, rest, hcons, hout, -⟩ := exists_consumes hstep src
    rw [hout] at hmem
    clear hout
    induction hcons with
    | stop src => cases hmem
    | @step src rest out n parts hne hs _ ih =>
      rw [List.flatMap_cons, List.mem_append] at hmem
      rcases hmem with hmem | hmem
      · exact ⟨src, out, n, .refl src, hne, hs, hmem⟩
      · obtain ⟨src', out', n', hreach, hstep'⟩ := ih hmem
        exact ⟨src', out', n', .step hne hs hreach, hstep'⟩
  · rintro ⟨src', out, n, hreach, hne, hs, hmem⟩
    induction hreach with
    | refl src =>
      rw [run_some hstep hne hs]
      exact List.mem_append_left _ hmem
    | step hne' hs' _ ih =>
      rw [run_some hstep hne' hs']
      exact List.mem_append_right _ (ih hne hs)

theorem run_map (f : B → List C) {step' : List A → Option (List C × ℕ)}
    (hstep : ∀ src, src ≠ [] → step' src = (step src).map fun r => (r.1.flatMap f, r.2))
    (src : List A) :
    run step' src = ((run step src).1, (run step src).2.flatMap f) := by
  have hloop : ∀ fuel src, loop step' fuel src =
      ((loop step fuel src).1, (loop step fuel src).2.flatMap f) := by
    intro fuel
    induction fuel with
    | zero =>
      intro src
      cases src <;> rfl
    | succ fuel ih =>
      intro src
      cases src with
      | nil => rfl
      | cons a src =>
        rw [loop, loop, hstep _ (List.cons_ne_nil a src)]
        cases step (a :: src) with
        | none => rfl
        | some r =>
          obtain ⟨out, n⟩ := r
          simp only [Option.map_some, ih, List.flatMap_append]
  exact hloop src.length src

theorem reaches_map (f : B → List C) {step' : List A → Option (List C × ℕ)}
    (hstep : ∀ src, src ≠ [] → step' src = (step src).map fun r => (r.1.flatMap f, r.2))
    {src src' : List A} :
    Reaches step' src src' ↔ Reaches step src src' := by
  constructor
  · intro h
    induction h with
    | refl src => exact .refl src
    | step hne hs _ ih =>
      rw [hstep _ hne, Option.map_eq_some_iff] at hs
      obtain ⟨⟨out, n⟩, hs, heq⟩ := hs
      obtain ⟨rfl, rfl⟩ := Prod.mk.inj heq
      exact .step hne hs ih
  · intro h
    induction h with
    | refl src => exact .refl src
    | @step src _ out n hne hs _ ih =>
      have hs' : step' src = some (out.flatMap f, n) := by rw [hstep _ hne, hs, Option.map_some]
      exact .step hne hs' ih

end Scan
