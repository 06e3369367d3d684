import Mathlib.Data.Nat.Find
import Mathlib.Tactic.Common

/-! A `while` loop that asks its environment for an answer in every round. -/

namespace AnsweredLoop
variable {A S : Type*} (running : S → Bool) (body : A → S → S) (answers : ℕ → A)

/-- State after `k` rounds; once the loop has been left it stays as it was. -/
def after (s : S) : ℕ → S
  | 0 => s
  | k + 1 => if running (after s k) then body (answers k) (after s k) else after s k

variable {running body answers} {s : S}

theorem after_running {k : ℕ} (h : running (after running body answers s k) = true) :
    after running body answers s (k + 1) = body (answers k) (after running body answers s k) := by
  rw [after, if_pos h]

theorem after_left {k : ℕ} (h : running (after running body answers s k) = false) :
    after running body answers s (k + 1) = after running body answers s k := by
  rw [after, if_neg (Bool.eq_false_iff.mp h)]

theorem after_of_left {k j : ℕ} (h : running (after running body answers s k) = false)
    (hle : k ≤ j) :
    after running body answers s j = after running body answers s k := by
  induction j, hle using Nat.le_induction with
  | base => rfl
  | succ j _ ih =>
    rw [← ih] at h
    rw [after_left h, ih]

theorem running_of_le {k j : ℕ} (h : running (after running body answers s j) = true)
    (hle : k ≤ j) :
    running (after running body answers s k) = true := by
  by_contra hk
  rw [Bool.not_eq_true] at hk
  rw [after_of_left hk hle, hk] at h
  cases h

theorem invariant {P : ℕ → S → Prop} (hstart : P 0 s)
    (hround : ∀ k s', running s' = true → after running body answers s k = s' → P k s' →
      P (k + 1) (body (answers k) s')) (hleft : ∀ k s', running s' = false → P k s' → P (k + 1) s')
    (k : ℕ) :
    P k (after running body answers s k) := by
  induction k with
  | zero => exact hstart
  | succ k ih =>
    cases hrun : running (after running body answers s k) with
    | true =>
      rw [after_running hrun]
      exact hround k _ hrun rfl ih
    | false =>
      rw [after_left hrun]
      exact hleft k _ hrun ih

theorem exits_of_variant (variant : S → ℕ)
    (hround : ∀ k, running (after running body answers s k) = true →
      variant (after running body answers s (k + 1)) < variant (after running body answers s k)) :
    ∃ k, running (after running body answers s k) = false := by
  by_contra hne
  have hrun : ∀ k, running (after running body answers s k) = true := by
    intro k
    by_contra hk
    exact hne ⟨k, Bool.eq_false_iff.mpr hk⟩
  have hbound : ∀ k, variant (after running body answers s k) + k ≤ variant s := by
    intro k
    induction k with
    | zero => exact le_rfl
    | succ k ih =>
      have := hround k (hrun k)
      omega
  have := hbound (variant s + 1)
  omega

theorem exists_exit (h : ∃ k, running (after running body answers s k) = false) :
    ∃ k, running (after running body answers s k) = false ∧
      ∀ i < k, running (after running body answers s i) = true := by
  refine ⟨Nat.find h, Nat.find_spec h, fun i hi => ?_⟩
  by_contra hrun
  exact Nat.find_min h hi (Bool.eq_false_iff.mpr hrun)

end AnsweredLoop
