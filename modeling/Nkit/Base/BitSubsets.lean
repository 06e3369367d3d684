import Mathlib.Data.List.Nodup
import Mathlib.Data.Nat.Bitwise

/-! Selections from a list, numbered by their bits: bit `i` of the number stands for the member at
position `i`. -/

namespace BitSubsets
variable {A : Type*} {items : List A} {c c' : ℕ}

/-- `a` stands at a position whose bit is set in `c`. -/
def Picks (items : List A) (c : ℕ) (a : A) : Prop := ∃ i, items[i]? = some a ∧ c.testBit i = true

theorem Picks.mem {a : A} (h : Picks items c a) : a ∈ items := by
  obtain ⟨i, hi, -⟩ := h
  exact List.mem_of_getElem? hi

theorem picks_zero (a : A) : ¬Picks items 0 a := by
  rintro ⟨i, -, hbit⟩
  rw [Nat.zero_testBit] at hbit
  cases hbit

theorem picks_getElem (hnodup : items.Nodup) {i : ℕ} (hi : i < items.length) :
    Picks items c items[i] ↔ c.testBit i = true := by
  constructor
  · rintro ⟨j, hj, hbit⟩
    obtain ⟨hlt, heq⟩ := List.getElem?_eq_some_iff.mp hj
    rwa [(List.Nodup.getElem_inj_iff hnodup).mp heq] at hbit
  · exact fun hbit => ⟨i, List.getElem?_eq_getElem hi, hbit⟩

theorem picks_injective (hnodup : items.Nodup) (hc : c < 2 ^ items.length)
    (hc' : c' < 2 ^ items.length) (h : ∀ a, Picks items c a ↔ Picks items c' a) : c = c' := by
  apply Nat.eq_of_testBit_eq
  intro i
  by_cases hi : i < items.length
  · rw [Bool.eq_iff_iff, ← picks_getElem hnodup hi, ← picks_getElem hnodup hi]
    exact h items[i]
  · have hpow : 2 ^ items.length ≤ 2 ^ i := Nat.pow_le_pow_right Nat.two_pos (Nat.le_of_not_lt hi)
    rw [Nat.testBit_lt_two_pow (hc.trans_le hpow), Nat.testBit_lt_two_pow (hc'.trans_le hpow)]

theorem exists_picks (hnodup : items.Nodup) (P : A → Prop) :
    ∃ c < 2 ^ items.length, ∀ a, Picks items c a ↔ a ∈ items ∧ P a := by
  classical
  refine ⟨Nat.ofBits fun i : Fin items.length => decide (P items[i]), Nat.ofBits_lt_two_pow _,
    fun a => ?_⟩
  constructor
  · intro h
    refine ⟨h.mem, ?_⟩
    obtain ⟨i, hi, rfl⟩ := List.mem_iff_getElem.mp h.mem
    rw [picks_getElem hnodup hi, Nat.testBit_ofBits_lt _ _ hi] at h
    exact of_decide_eq_true h
  · rintro ⟨hmem, hP⟩
    obtain ⟨i, hi, rfl⟩ := List.mem_iff_getElem.mp hmem
    rw [picks_getElem hnodup hi, Nat.testBit_ofBits_lt _ _ hi]
    exact decide_eq_true hP

theorem exists_picks_iff (hnodup : items.Nodup) (hc : c < 2 ^ items.length) :
    (∃ a, Picks items c a) ↔ c ≠ 0 := by
  constructor
  · rintro ⟨a, ha⟩ rfl
    exact picks_zero a ha
  · intro hne
    by_contra hno
    refine hne (picks_injective hnodup hc (Nat.two_pow_pos _) fun a => ?_)
    exact iff_of_false (fun ha => hno ⟨a, ha⟩) (picks_zero a)

end BitSubsets
