import Mathlib.Tactic.Ring
import Mathlib.Tactic.Common

/-! Numbers as a lead and a fixed count of digits behind it, the highest digit first. -/

namespace Continuation
variable {b : ℕ}

/-- The lowest `k` digits of `u`. -/
def digits (b : ℕ) : ℕ → ℕ → List ℕ
  | 0, _ => []
  | k + 1, u => u / b ^ k % b :: digits b k u

def value (b lead : ℕ) (ds : List ℕ) : ℕ := ds.foldl (fun n d => n * b + d) lead

@[simp] theorem length_digits (b k u : ℕ) : (digits b k u).length = k := by
  induction k with
  | zero => rfl
  | succ k ih => rw [digits, List.length_cons, ih]

theorem lt_of_mem_digits (hb : 0 < b) {k u d : ℕ} (h : d ∈ digits b k u) : d < b := by
  induction k with
  | zero => cases h
  | succ k ih =>
    rw [digits, List.mem_cons] at h
    rcases h with rfl | h
    · exact Nat.mod_lt _ hb
    · exact ih h

theorem value_digits (b k u : ℕ) : value b (u / b ^ k) (digits b k u) = u := by
  induction k with
  | zero => simp [digits, value]
  | succ k ih =>
    have hlead : u / b ^ (k + 1) * b + u / b ^ k % b = u / b ^ k := by
      rw [pow_succ, ← Nat.div_div_eq_div_mul, mul_comm, Nat.div_add_mod]
    rw [digits, value, List.foldl_cons, hlead]
    exact ih

end Continuation
