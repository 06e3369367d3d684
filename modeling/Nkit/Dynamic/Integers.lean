import Nkit.Dynamic.Ordering
import Mathlib.Data.Int.ModEq

/-! Arithmetic of whole numbers (`IntOperations`).  Each operator has an overload for a signed and
one for an unsigned left operand, and the type of the right operand picks the formula.  Sums,
differences and products wrap around; a signed division or negation without a value is a fault. -/

namespace Nkit

inductive Fault where
  | member
  | signed
  | iterator
  /-- `std::length_error`. -/
  | length
  | nesting
deriving DecidableEq, Repr

/-- `-lv`. -/
def signedNeg (lv : BitVec 64) : Except Fault (BitVec 64) :=
  if lv = BitVec.intMin 64 then .error .signed else .ok (-lv)

/-- `lv / si`, for a divisor that is not zero. -/
def signedDiv (lv si : BitVec 64) : Except Fault (BitVec 64) :=
  if lv = BitVec.intMin 64 ∧ si = -1 then .error .signed else .ok (lv.sdiv si)

namespace IntOperations
variable (lib : CLib)

/-- `add(int64_t & lv, const Data & rv)`. -/
def addInt (lv : BitVec 64) : DynTree → BitVec 64
  | .plain .integer rv => lv + rv
  | .plain .unsignedInteger rv =>
    if lv.toInt < 0 then
      let ulv := -lv
      if rv < ulv then -(ulv - rv) else rv - ulv
    else lv + rv
  | rv => lv + BitVec.ofInt 64 (rv.getInt lib)

/-- `add(uint64_t & lv, const Data & rv)`. -/
def addUInt (lv : BitVec 64) : DynTree → BitVec 64
  | .plain .integer rv => if rv.toInt < 0 then lv - -rv else lv + rv
  | .plain .unsignedInteger rv => lv + rv
  | rv => lv + BitVec.ofNat 64 (rv.getUInt lib)

/-- `sub(int64_t & lv, const Data & rv)`. -/
def subInt (lv : BitVec 64) : DynTree → BitVec 64
  | .plain .integer rv => lv - rv
  | .plain .unsignedInteger rv => if lv.toInt < 0 then -(-lv + rv) else lv - rv
  | rv => lv - BitVec.ofInt 64 (rv.getInt lib)

/-- `sub(uint64_t & lv, const Data & rv)`. -/
def subUInt (lv : BitVec 64) : DynTree → BitVec 64
  | .plain .integer rv => if rv.toInt < 0 then lv + -rv else lv - rv
  | .plain .unsignedInteger rv => lv - rv
  | rv => lv - BitVec.ofNat 64 (rv.getUInt lib)

/-- `mul(int64_t & lv, const Data & rv)`. -/
def mulInt (lv : BitVec 64) : DynTree → Option (BitVec 64)
  | .plain .integer rv | .plain .unsignedInteger rv => some (lv * rv)
  | rv => some (lv * BitVec.ofInt 64 (rv.getInt lib))

/-- `mul(uint64_t & lv, const Data & rv)`; `none` is the result `false`. -/
def mulUInt (lv : BitVec 64) : DynTree → Option (BitVec 64)
  | .plain .integer rv => if rv.toInt < 0 then none else some (lv * rv)
  | .plain .unsignedInteger rv => some (lv * rv)
  | rv => some (lv * BitVec.ofNat 64 (rv.getUInt lib))

/-- `div(int64_t & lv, const Data & rv)`. -/
def divInt (lv : BitVec 64) : DynTree → Except Fault (Option (BitVec 64))
  | .plain .unsignedInteger ui =>
    if ui = 0 then .ok none
    else if lv.toInt < 0 then do
      let lv ← signedNeg lv
      -- both operands are converted to `uint64_t` here
      let lv ← signedNeg (lv / ui)
      pure (some lv)
    else .ok (some (lv / ui))
  | rv =>
    let si := match rv with
      | .plain .integer si => si
      | rv => BitVec.ofInt 64 (rv.getInt lib)
    if si = 0 then .ok none else some <$> signedDiv lv si

/-- `div(uint64_t & lv, const Data & rv)`. -/
def divUInt (lv : BitVec 64) : DynTree → Option (BitVec 64)
  | .plain .integer si => if si.toInt ≤ 0 then none else some (lv / si)
  | .plain .unsignedInteger ui => if ui = 0 then none else some (lv / ui)
  | rv =>
    let ui := BitVec.ofNat 64 (rv.getUInt lib)
    if ui = 0 then none else some (lv / ui)

end IntOperations

inductive WholeType where
  | integer | unsignedInteger
deriving DecidableEq, Repr

namespace WholeType

@[coe] def toPlain : WholeType → PlainType
  | integer => .integer
  | unsignedInteger => .unsignedInteger

instance : Coe WholeType PlainType := ⟨toPlain⟩

/-- The number a word of this type denotes. -/
def value : WholeType → BitVec 64 → ℤ
  | integer, w => w.toInt
  | unsignedInteger, w => w.toNat

/-- The numbers the type has words for. -/
def Holds : WholeType → ℤ → Prop
  | integer, n => minInt64 ≤ n ∧ n ≤ maxInt64
  | unsignedInteger, n => 0 ≤ n ∧ n ≤ maxUInt64

theorem value_holds (t : WholeType) (w : BitVec 64) : t.Holds (t.value w) := by
  cases t with
  | integer =>
    have := BitVec.toInt_lt (x := w)
    have := BitVec.le_toInt (x := w)
    simp only [Holds, value, minInt64, maxInt64]
    omega
  | unsignedInteger =>
    have := w.isLt
    simp only [Holds, value, maxUInt64]
    omega

/-- A word denotes one number modulo `2 ^ 64`, whatever its type. -/
theorem value_modEq (t : WholeType) (w : BitVec 64) : t.value w ≡ w.toNat [ZMOD 2 ^ 64] := by
  cases t with
  | integer =>
    rw [value, BitVec.toInt_eq_toNat_bmod]
    exact Int.bmod_emod
  | unsignedInteger => rfl

theorem value_eq {t : WholeType} {w : BitVec 64} {n : ℤ} (h : t.value w ≡ n [ZMOD 2 ^ 64])
    (hn : t.Holds n) :
    t.value w = n := by
  have hw := t.value_holds w
  cases t with
  | integer =>
    simp only [Holds, minInt64, maxInt64] at hw hn
    unfold Int.ModEq at h
    omega
  | unsignedInteger =>
    simp only [Holds, maxUInt64] at hw hn
    unfold Int.ModEq at h
    omega

variable (t t' : WholeType) (v w : BitVec 64)

theorem value_add : t.value (v + w) ≡ t.value v + t'.value w [ZMOD 2 ^ 64] := by
  refine (t.value_modEq _).trans ?_
  rw [BitVec.toNat_add]
  push_cast
  exact (Int.mod_modEq _ _).trans ((t.value_modEq v).symm.add (t'.value_modEq w).symm)

theorem value_neg : t.value (-v) ≡ -t.value v [ZMOD 2 ^ 64] := by
  have h := t.value_add t (-v) v
  rw [BitVec.add_comm, BitVec.add_right_neg] at h
  have hzero : t.value 0 = 0 := by cases t <;> rfl
  rw [show t.value 0#64 = 0 from hzero] at h
  simpa using h.symm.sub (Int.ModEq.refl (t.value v))

theorem value_sub : t.value (v - w) ≡ t.value v - t'.value w [ZMOD 2 ^ 64] := by
  rw [BitVec.sub_eq_add_neg, Int.sub_eq_add_neg]
  exact (t.value_add t' v (-w)).trans ((Int.ModEq.refl _).add (t'.value_neg w))

theorem value_mul : t.value (v * w) ≡ t.value v * t'.value w [ZMOD 2 ^ 64] := by
  refine (t.value_modEq _).trans ?_
  rw [BitVec.toNat_mul]
  push_cast
  exact (Int.mod_modEq _ _).trans ((t.value_modEq v).symm.mul (t'.value_modEq w).symm)

end WholeType

namespace IntOperations
variable (lib : CLib) (t : WholeType) (lv rv : BitVec 64)

@[simp] theorem addInt_whole : addInt lib lv (.plain t rv) = lv + rv := by
  cases t with
  | integer => rfl
  | unsignedInteger =>
    simp only [WholeType.toPlain, addInt]
    split_ifs
    · rw [BitVec.neg_sub, BitVec.neg_neg]
    · rw [BitVec.sub_eq_add_neg, BitVec.neg_neg, BitVec.add_comm]
    · rfl

@[simp] theorem addUInt_whole : addUInt lib lv (.plain t rv) = lv + rv := by
  cases t with
  | integer =>
    simp only [WholeType.toPlain, addUInt]
    split_ifs
    · rw [BitVec.sub_eq_add_neg, BitVec.neg_neg]
    · rfl
  | unsignedInteger => rfl

@[simp] theorem subInt_whole : subInt lib lv (.plain t rv) = lv - rv := by
  cases t with
  | integer => rfl
  | unsignedInteger =>
    simp only [WholeType.toPlain, subInt]
    split_ifs
    · rw [BitVec.neg_add, BitVec.neg_neg]
    · rfl

@[simp] theorem subUInt_whole : subUInt lib lv (.plain t rv) = lv - rv := by
  cases t with
  | integer =>
    simp only [WholeType.toPlain, subUInt]
    split_ifs
    · rw [BitVec.sub_eq_add_neg]
    · rfl
  | unsignedInteger => rfl

@[simp] theorem mulInt_whole : mulInt lib lv (.plain t rv) = some (lv * rv) := by
  cases t <;> rfl

@[simp] theorem mulUInt_whole :
    mulUInt lib lv (.plain t rv) = if t.value rv < 0 then none else some (lv * rv) := by
  cases t with
  | integer => rfl
  | unsignedInteger =>
    have hnonneg : ¬WholeType.unsignedInteger.value rv < 0 := Int.not_lt.mpr (Int.natCast_nonneg _)
    rw [if_neg hnonneg]
    rfl

def Overflows (lv : BitVec 64) (t : WholeType) (rv : BitVec 64) : Prop :=
  lv = BitVec.intMin 64 ∧ match t with
    | .integer => rv = -1
    | .unsignedInteger => rv ≠ 0

instance : Decidable (Overflows lv t rv) := by
  cases t <;> exact inferInstanceAs (Decidable (_ ∧ _))

theorem divInt_zero : divInt lib lv (.plain t 0) = .ok none := by
  cases t <;> rfl

theorem divInt_overflow {lv rv : BitVec 64} {t : WholeType} (h : Overflows lv t rv) :
    divInt lib lv (.plain t rv) = .error .signed := by
  obtain ⟨rfl, h⟩ := h
  cases t with
  | integer =>
    obtain rfl : rv = -1 := h
    rfl
  | unsignedInteger =>
    have hrv : rv ≠ 0 := h
    have hneg : (BitVec.intMin 64).toInt < 0 := by decide
    simp only [WholeType.toPlain, divInt]
    rw [if_neg hrv, if_pos hneg]
    rfl

theorem toNat_neg_of_neg {w : BitVec 64} (h : w.toInt < 0) : ((-w).toNat : ℤ) = -w.toInt := by
  have hlt := w.isLt
  rw [BitVec.toNat_neg]
  rw [BitVec.toInt_eq_toNat_cond] at h ⊢
  split_ifs at h ⊢ <;> omega

theorem toInt_of_small {w : BitVec 64} (h : w.toNat < 2 ^ 63) : w.toInt = w.toNat := by
  rw [BitVec.toInt_eq_toNat_cond, if_pos (by omega)]

theorem toInt_of_nonneg {w : BitVec 64} (h : 0 ≤ w.toInt) : w.toInt = w.toNat := by
  have hlt := w.isLt
  rw [BitVec.toInt_eq_toNat_cond] at h ⊢
  split_ifs at h ⊢
  · rfl
  · omega

theorem divInt_negative {lv ui : BitVec 64} (hmin : lv ≠ BitVec.intMin 64) (hui : ui ≠ 0)
    (hneg : lv.toInt < 0) :
    ∃ q, divInt lib lv (.plain .unsignedInteger ui) = .ok (some q) ∧
      q.toInt = lv.toInt.tdiv ui.toNat := by
  have habs := toNat_neg_of_neg hneg
  have hlow : -2 ^ 63 < lv.toInt := by
    have hle := BitVec.le_toInt (x := lv)
    refine lt_of_le_of_ne hle fun h => hmin (BitVec.eq_of_toInt_eq (h.symm.trans ?_))
    rfl
  have hquot : (-lv / ui).toNat < 2 ^ 63 := by
    rw [BitVec.toNat_udiv]
    refine (Nat.div_le_self _ _).trans_lt ?_
    omega
  have hmin' : -lv / ui ≠ BitVec.intMin 64 := by
    intro h
    rw [h] at hquot
    exact absurd hquot (by decide)
  refine ⟨-(-lv / ui), ?_, ?_⟩
  · have hfirst : signedNeg lv = .ok (-lv) := if_neg hmin
    have hsecond : signedNeg (-lv / ui) = .ok (-(-lv / ui)) := if_neg hmin'
    simp only [divInt]
    rw [if_neg hui, if_pos hneg, hfirst]
    show signedNeg (-lv / ui) >>= _ = _
    rw [hsecond]
    rfl
  · have hlv : lv.toInt = -((-lv).toNat : ℤ) := by omega
    rw [BitVec.toInt_neg_of_ne_intMin hmin', toInt_of_small hquot, BitVec.toNat_udiv, hlv,
      Int.neg_tdiv, Int.ofNat_tdiv]

theorem divInt_exact {lv rv : BitVec 64} {t : WholeType} (h : ¬Overflows lv t rv) (hrv : rv ≠ 0) :
    ∃ q, divInt lib lv (.plain t rv) = .ok (some q) ∧ q.toInt = lv.toInt.tdiv (t.value rv) := by
  cases t with
  | integer =>
    have hno : ¬(lv = BitVec.intMin 64 ∧ rv = -1) := h
    refine ⟨lv.sdiv rv, ?_, ?_⟩
    · simp only [WholeType.toPlain, divInt, signedDiv]
      rw [if_neg hrv, if_neg hno]
      rfl
    · exact BitVec.toInt_sdiv_of_ne_or_ne _ _ (not_and_or.mp hno)
  | unsignedInteger =>
    by_cases hneg : lv.toInt < 0
    · exact divInt_negative lib (fun hmin => h ⟨hmin, hrv⟩) hrv hneg
    · refine ⟨lv / rv, ?_, ?_⟩
      · simp only [WholeType.toPlain, divInt]
        rw [if_neg hrv, if_neg hneg]
      · have hlv := toInt_of_nonneg (Int.not_lt.mp hneg)
        have hsmall : (lv / rv).toNat < 2 ^ 63 := by
          have hlt := BitVec.toInt_lt (x := lv)
          rw [BitVec.toNat_udiv]
          refine (Nat.div_le_self _ _).trans_lt ?_
          omega
        rw [toInt_of_small hsmall, BitVec.toNat_udiv, hlv, WholeType.value, Int.ofNat_tdiv]

theorem divUInt_exact (lv : BitVec 64) {rv : BitVec 64} {t : WholeType} (h : 0 < t.value rv) :
    ∃ q, divUInt lib lv (.plain t rv) = some q ∧
      (q.toNat : ℤ) = (lv.toNat : ℤ).tdiv (t.value rv) := by
  refine ⟨lv / rv, ?_, ?_⟩
  · cases t with
    | integer => exact if_neg (Int.not_le.mpr h)
    | unsignedInteger =>
      refine if_neg fun hrv => ?_
      rw [hrv] at h
      exact absurd h (by decide)
  · have hrv : t.value rv = rv.toNat := by
      cases t with
      | integer => exact toInt_of_nonneg h.le
      | unsignedInteger => rfl
    rw [hrv, BitVec.toNat_udiv, Int.ofNat_tdiv]

theorem divUInt_refused {lv rv : BitVec 64} {t : WholeType} (h : t.value rv ≤ 0) :
    divUInt lib lv (.plain t rv) = none := by
  cases t with
  | integer => exact if_pos h
  | unsignedInteger =>
    refine if_pos (BitVec.eq_of_toNat_eq ?_)
    have hle : (rv.toNat : ℤ) ≤ 0 := h
    show rv.toNat = 0
    omega

end IntOperations

end Nkit
