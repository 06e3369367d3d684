import Mathlib.Algebra.BigOperators.Group.Finset.Basic
import Mathlib.Algebra.Order.BigOperators.Group.Finset
import Mathlib.Data.Fintype.Basic

/-! Threads that take steps on a shared state, in any order. -/

namespace Interleaving

variable {T S : Type*} (step : T → S → Option S)

/-- The threads of the schedule take a step each. One that has to wait, or that has ended, is passed
over. -/
def exec (schedule : List T) (s : S) : S := schedule.foldl (fun s t => (step t s).getD s) s

variable {step}

theorem exec_append (schedule schedule' : List T) (s : S) :
    exec step (schedule ++ schedule') s = exec step schedule' (exec step schedule s) :=
      List.foldl_append

theorem exec_invariant {P : S → Prop} (hstep : ∀ t s s', P s → step t s = some s' → P s')
    (schedule : List T) {s : S} (hs : P s) : P (exec step schedule s) := by
  induction schedule generalizing s with
  | nil => exact hs
  | cons t schedule ih =>
    refine ih ?_
    change P ((step t s).getD s)
    cases ht : step t s with
    | none => exact hs
    | some s' => exact hstep t s s' hs ht

theorem exec_finishes {P D : S → Prop} {μ : S → ℕ}
    (hstep : ∀ t s s', P s → step t s = some s' → P s')
    (hwork : ∀ t s s', P s → step t s = some s' → μ s' < μ s)
    (hprogress : ∀ s, P s → ¬ D s → ∃ t, (step t s).isSome) {s : S} (hs : P s) :
    ∃ schedule, D (exec step schedule s) := by
  induction hμ : μ s using Nat.strong_induction_on generalizing s with
  | _ k ih =>
    by_cases hD : D s
    · exact ⟨[], hD⟩
    · obtain ⟨t, ht⟩ := hprogress s hs hD
      obtain ⟨s', hs'⟩ := Option.isSome_iff_exists.mp ht
      obtain ⟨schedule, hdone⟩ := ih (μ s') (hμ ▸ hwork t s s' hs hs') (hstep t s s' hs hs') rfl
      refine ⟨t :: schedule, ?_⟩
      rw [exec, List.foldl_cons, hs']
      exact hdone

theorem sum_update_lt [Fintype T] [DecidableEq T] {A : Type*} (μ : A → ℕ) (threads : T → A) {t : T}
    {a : A} (h : μ a < μ (threads t)) :
    ∑ u, μ (Function.update threads t a u) < ∑ u, μ (threads u) := by
  refine Finset.sum_lt_sum (fun u _ => ?_) ⟨t, Finset.mem_univ t, ?_⟩
  · by_cases hu : u = t
    · rw [hu, Function.update_self]
      exact h.le
    · rw [Function.update_of_ne hu]
  · rwa [Function.update_self]

end Interleaving
