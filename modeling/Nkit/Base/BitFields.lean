import Mathlib.Data.Nat.Bitwise
import Mathlib.Data.List.Forall2
import Mathlib.Data.List.Lex
import Mathlib.Tactic.Common

/-! Words cut into fields of bits: what a mask and a shift read, and what writing one field leaves
of the others. -/

namespace BitFields

variable {n : ℕ}

/-- The bits `shift`, .., `shift + size - 1`. -/
def mask (n size shift : ℕ) : BitVec n := BitVec.ofNat n ((2 ^ size - 1) * 2 ^ shift)

def read (size shift w : ℕ) : ℕ := w / 2 ^ shift % 2 ^ size

theorem read_lt (size shift w : ℕ) :
    read size shift w < 2 ^ size := Nat.mod_lt _ (Nat.two_pow_pos size)

theorem toNat_mask {size shift : ℕ} (h : size + shift ≤ n) :
    (mask n size shift).toNat = (2 ^ size - 1) * 2 ^ shift := by
  have hlt : (2 ^ size - 1) * 2 ^ shift < 2 ^ n := by
    refine (Nat.mul_lt_mul_of_pos_right (Nat.sub_lt (Nat.two_pow_pos size) Nat.one_pos)
      (Nat.two_pow_pos shift)).trans_le ?_
    rw [← Nat.pow_add]
    exact Nat.pow_le_pow_right (Nat.zero_lt_two) h
  rw [mask, BitVec.toNat_ofNat, Nat.mod_eq_of_lt hlt]

theorem toNat_masked {size shift : ℕ} (h : size + shift ≤ n) (w : BitVec n) :
    (w &&& mask n size shift).toNat = read size shift w.toNat * 2 ^ shift := by
  rw [BitVec.toNat_and, toNat_mask h]
  refine Nat.eq_of_testBit_eq fun i => ?_
  rw [Nat.testBit_and, Nat.testBit_mul_two_pow, Nat.testBit_mul_two_pow, read,
    Nat.testBit_mod_two_pow, Nat.testBit_div_two_pow, Nat.testBit_two_pow_sub_one]
  by_cases hi : shift ≤ i
  · rw [Nat.sub_add_cancel hi]
    simp only [hi, decide_true, Bool.true_and]
    exact Bool.and_comm ..
  · simp only [hi, decide_false, Bool.false_and, Bool.and_false]

/-- `(w & mask) >> shift`. -/
theorem toNat_read {size shift : ℕ} (h : size + shift ≤ n) (w : BitVec n) :
    ((w &&& mask n size shift) >>> shift).toNat = read size shift w.toNat := by
  rw [BitVec.toNat_ushiftRight, toNat_masked h, Nat.shiftRight_eq_div_pow,
    Nat.mul_div_cancel _ (Nat.two_pow_pos shift)]

/-- `w & ~mask`. -/
theorem toNat_cleared {size shift : ℕ} (h : size + shift ≤ n) (w : BitVec n) :
    (w &&& ~~~mask n size shift).toNat + read size shift w.toNat * 2 ^ shift = w.toNat := by
  have hzero : (w &&& ~~~mask n size shift) &&& (w &&& mask n size shift) = 0#n := by
    ext i hi
    simp only [BitVec.getElem_and, BitVec.getElem_not, BitVec.getElem_zero]
    cases w[i] <;> cases (mask n size shift)[i] <;> rfl
  have hword : (w &&& ~~~mask n size shift) + (w &&& mask n size shift) = w := by
    rw [BitVec.add_eq_or_of_and_eq_zero _ _ hzero]
    ext i hi
    simp only [BitVec.getElem_or, BitVec.getElem_and, BitVec.getElem_not]
    cases w[i] <;> cases (mask n size shift)[i] <;> rfl
  rw [← toNat_masked h, ← BitVec.toNat_add_of_and_eq_zero hzero, hword]

theorem around (size shift w : ℕ) :
    w = w / 2 ^ (shift + size) * 2 ^ (shift + size) + read size shift w * 2 ^ shift + w %
      2 ^ shift := by
  have hhigh : w / 2 ^ shift = w / 2 ^ (shift + size) * 2 ^ size + read size shift w := by
    rw [Nat.pow_add, ← Nat.div_div_eq_div_mul, read, Nat.mul_comm, Nat.div_add_mod]
  calc w = w / 2 ^ shift * 2 ^ shift + w % 2 ^ shift := by rw [Nat.mul_comm, Nat.div_add_mod]
    _ = _ := by rw [hhigh, Nat.add_mul, Nat.mul_assoc, ← Nat.pow_add, Nat.add_comm size shift]

/-- The word with `f` in the field. -/
def write (size shift f w : ℕ) : ℕ :=
  w / 2 ^ (shift + size) * 2 ^ (shift + size) + f * 2 ^ shift + w % 2 ^ shift

section Write
variable {size shift f : ℕ}

theorem field_lt (shift : ℕ) (hf : f < 2 ^ size) (w : ℕ) :
    f * 2 ^ shift + w % 2 ^ shift < 2 ^ (shift + size) := by
  calc f * 2 ^ shift + w % 2 ^ shift < f * 2 ^ shift + 2 ^ shift :=
        Nat.add_lt_add_left (Nat.mod_lt _ (Nat.two_pow_pos shift)) _
    _ = (f + 1) * 2 ^ shift := (Nat.succ_mul f _).symm
    _ ≤ 2 ^ size * 2 ^ shift := Nat.mul_le_mul_right _ hf
    _ = 2 ^ (shift + size) := by rw [← Nat.pow_add, Nat.add_comm]

theorem write_high (hf : f < 2 ^ size) (w : ℕ) :
    write size shift f w / 2 ^ (shift + size) = w / 2 ^ (shift + size) := by
  rw [write, Nat.add_assoc, Nat.mul_comm, Nat.mul_add_div (Nat.two_pow_pos _),
    Nat.div_eq_of_lt (field_lt _ hf w), Nat.add_zero]

theorem write_low (w : ℕ) : write size shift f w % 2 ^ shift = w % 2 ^ shift := by
  rw [write, Nat.pow_add, ← Nat.mul_assoc, Nat.mul_right_comm, ← Nat.add_mul, Nat.add_comm,
    Nat.add_mul_mod_self_right, Nat.mod_mod]

theorem read_write (hf : f < 2 ^ size) (w : ℕ) : read size shift (write size shift f w) = f := by
  have hdiv : write size shift f w / 2 ^ shift = w / 2 ^ (shift + size) * 2 ^ size + f := by
    rw [write, Nat.pow_add, ← Nat.mul_assoc, Nat.mul_right_comm, ← Nat.add_mul, Nat.add_comm,
      Nat.add_mul_div_right _ _ (Nat.two_pow_pos shift),
      Nat.div_eq_of_lt (Nat.mod_lt _ (Nat.two_pow_pos shift)), Nat.zero_add]
  rw [read, hdiv, Nat.add_comm, Nat.add_mul_mod_self_right, Nat.mod_eq_of_lt hf]

theorem read_write_other {size' shift' : ℕ} (hf : f < 2 ^ size)
    (hapart : shift + size ≤ shift' ∨ shift' + size' ≤ shift) (w : ℕ) :
    read size' shift' (write size shift f w) = read size' shift' w := by
  rcases hapart with h | h
  · obtain ⟨k, rfl⟩ := Nat.exists_eq_add_of_le h
    rw [read, read, Nat.pow_add, ← Nat.div_div_eq_div_mul, ← Nat.div_div_eq_div_mul, write_high hf]
  · obtain ⟨k, rfl⟩ := Nat.exists_eq_add_of_le h
    have hread : ∀ v : ℕ, read size' shift' v =
        read size' shift' (v % 2 ^ (shift' + size' + k)) := by
      intro v
      rw [read, read, Nat.add_assoc, Nat.pow_add, Nat.mod_mul_right_div_self, Nat.pow_add,
        Nat.mod_mul_right_mod]
    rw [hread, write_low, ← hread]

/-- `(w & ~mask) + (f << shift)`. -/
theorem toNat_write (h : size + shift ≤ n) (w x : BitVec n) (hx : x.toNat < 2 ^ size) :
    ((w &&& ~~~mask n size shift) + x <<< shift).toNat = write size shift x.toNat w.toNat := by
  have hclear := toNat_cleared h w
  have haround := around size shift w.toNat
  have hshifted : x.toNat * 2 ^ shift < 2 ^ n :=
    (Nat.le_add_right _ _).trans_lt
      ((field_lt _ hx w.toNat).trans_le (Nat.pow_le_pow_right Nat.zero_lt_two (by omega)))
  have hwrite : write size shift x.toNat w.toNat < 2 ^ n := by
    have hpow : 2 ^ n = 2 ^ (shift + size) * 2 ^ (n - (shift + size)) := by
      rw [← Nat.pow_add]
      congr 1
      omega
    have hhigh : w.toNat / 2 ^ (shift + size) < 2 ^ (n - (shift + size)) :=
      Nat.div_lt_of_lt_mul (hpow ▸ w.isLt)
    have hrest := field_lt shift hx w.toNat
    calc write size shift x.toNat w.toNat
        < w.toNat / 2 ^ (shift + size) * 2 ^ (shift + size) + 2 ^ (shift + size) := by
          rw [write, Nat.add_assoc]
          exact Nat.add_lt_add_left hrest _
      _ = (w.toNat / 2 ^ (shift + size) + 1) * 2 ^ (shift + size) := (Nat.succ_mul _ _).symm
      _ ≤ 2 ^ (n - (shift + size)) * 2 ^ (shift + size) := Nat.mul_le_mul_right _ hhigh
      _ = 2 ^ n := by rw [hpow, Nat.mul_comm]
  rw [BitVec.toNat_add, BitVec.toNat_shiftLeft, Nat.shiftLeft_eq, Nat.mod_eq_of_lt hshifted]
  have hsum : (w &&& ~~~mask n size shift).toNat + x.toNat * 2 ^ shift =
      write size shift x.toNat w.toNat := by
    rw [write]
    omega
  rw [hsum, Nat.mod_eq_of_lt hwrite]

end Write

theorem radix_lt_iff {a b x y r : ℕ} (hx : x < r) (hy : y < r) :
    a * r + x < b * r + y ↔ a < b ∨ a = b ∧ x < y := by
  constructor
  · intro h
    rcases Nat.lt_trichotomy a b with hab | rfl | hab
    · exact .inl hab
    · exact .inr ⟨rfl, by omega⟩
    · have := Nat.mul_le_mul_right r hab
      rw [Nat.succ_mul] at this
      omega
  · rintro (hab | ⟨rfl, hxy⟩)
    · have := Nat.mul_le_mul_right r hab
      rw [Nat.succ_mul] at this
      omega
    · omega

theorem radix_eq_iff {a b x y r : ℕ} (hx : x < r) (hy : y < r) :
    a * r + x = b * r + y ↔ a = b ∧ x = y := by
  constructor
  · intro h
    have hab : ¬a * r + x < b * r + y := h.not_lt
    have hba : ¬b * r + y < a * r + x := h.not_gt
    rw [radix_lt_iff hx hy] at hab
    rw [radix_lt_iff hy hx] at hba
    omega
  · rintro ⟨rfl, rfl⟩
    rfl

def pack : ℕ → List ℕ → List ℕ → ℕ
  | a, r :: rs, x :: xs => pack (a * r + x) rs xs
  | a, _, _ => a

theorem pack_lt_iff {rs xs ys : List ℕ} (hxs : List.Forall₂ (· < ·) xs rs)
    (hys : List.Forall₂ (· < ·) ys rs) :
    ∀ a b, pack a rs xs < pack b rs ys ↔ a :: xs < b :: ys := by
  induction hxs generalizing ys with
  | nil =>
    intro a b
    cases hys
    simp only [pack, List.cons_lt_cons_iff, List.lt_irrefl, and_false, or_false]
  | cons hx _ ih =>
    intro a b
    cases hys with
    | cons hy hys =>
      rw [pack, pack, ih hys]
      simp only [List.cons_lt_cons_iff, radix_lt_iff hx hy, radix_eq_iff hx hy]
      tauto

end BitFields
