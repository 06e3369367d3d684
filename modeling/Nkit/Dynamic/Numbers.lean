import Nkit.Tools
import Mathlib.Tactic.Ring

/-! Numbers as texts and as machine words: `strtoll` and `strtoull` in base ten, and doubles
as their bit patterns. -/

namespace Nkit

/-- `isspace` in the C locale. -/
def isSpace (c : UInt8) : Bool := c == 32 || (9 ≤ c && c ≤ 13)

def isDigit (c : UInt8) : Bool := 48 ≤ c && c ≤ 57

def digitsValue (digits : Bytes) : ℕ := digits.foldl (fun n c => n * 10 + (c.toNat - 48)) 0

section Digits
variable {c : UInt8} {xs : Bytes}

theorem isDigit_iff : isDigit c = true ↔ 48 ≤ c.toNat ∧ c.toNat ≤ 57 := by
  simp only [isDigit, Bool.and_eq_true, decide_eq_true_eq, UInt8.le_iff_toNat_le]
  exact Iff.rfl

theorem isSpace_of_isDigit (h : isDigit c = true) : isSpace c = false := by
  have hrange := isDigit_iff.mp h
  rw [isSpace, Bool.or_eq_false_iff, Bool.and_eq_false_iff]
  refine ⟨?_, .inr (decide_eq_false fun hle => ?_)⟩
  · refine beq_false_of_ne ?_
    rintro rfl
    exact absurd hrange.1 (by decide)
  · have : c.toNat ≤ 13 := UInt8.le_iff_toNat_le.mp hle
    omega

theorem digitsValue_cons (c : UInt8) (xs : Bytes) :
    digitsValue (c :: xs) = (c.toNat - 48) * 10 ^ xs.length + digitsValue xs := by
  have hshift : ∀ (xs : Bytes) (k : ℕ),
      xs.foldl (fun n c => n * 10 + (c.toNat - 48)) k = k * 10 ^ xs.length + digitsValue xs := by
    intro xs
    induction xs with
    | nil => intro k; simp [digitsValue]
    | cons c xs ih =>
      intro k
      have hdigits : digitsValue (c :: xs) = (0 * 10 + (c.toNat - 48)) * 10 ^ xs.length +
        digitsValue xs := ih _
      rw [List.foldl_cons, ih, hdigits, List.length_cons, Nat.pow_succ]
      ring
  rw [digitsValue, List.foldl_cons, hshift]
  simp

theorem digitsValue_lt (h : ∀ c ∈ xs, isDigit c = true) : digitsValue xs < 10 ^ xs.length := by
  induction xs with
  | nil => decide
  | cons c xs ih =>
    have hrest := ih fun c' hc' => h c' (List.mem_cons_of_mem _ hc')
    have hc : c.toNat - 48 ≤ 9 := by
      have := (isDigit_iff.mp (h c List.mem_cons_self)).2
      omega
    rw [digitsValue_cons, List.length_cons, Nat.pow_succ]
    have := Nat.mul_le_mul_right (10 ^ xs.length) hc
    omega

end Digits

/-- What `strtoll` and `strtoull` read, and where they stop.  Without a digit nothing is read. -/
structure IntegerScan where
  negative : Bool
  digits : Bytes
  rest : Bytes
deriving DecidableEq, Repr

def splitSign : Bytes → Bool × Bytes
  | [] => (false, [])
  | c :: s => if c = 45 then (true, s) else if c = 43 then (false, s) else (false, c :: s)

def scanInteger (s : Bytes) : IntegerScan :=
  let (negative, t) := splitSign (s.dropWhile isSpace)
  let digits := t.takeWhile isDigit
  if digits = [] then ⟨false, [], s⟩ else ⟨negative, digits, t.drop digits.length⟩

def maxInt64 : ℤ := 2 ^ 63 - 1

def minInt64 : ℤ := -2 ^ 63

def maxUInt64 : ℕ := 2 ^ 64 - 1

/-- The value, and whether `errno` is set to `ERANGE`. -/
def strtoll (s : Bytes) : ℤ × Bool :=
  let scan := scanInteger s
  let n : ℤ := if scan.negative then -digitsValue scan.digits else digitsValue scan.digits
  if n < minInt64 then (minInt64, true) else if maxInt64 < n then (maxInt64, true) else (n, false)

/-- The value, whether `errno` is set to `ERANGE`, and what `endptr` shows. -/
def strtoull (s : Bytes) : ℕ × Bool × Bytes :=
  let scan := scanInteger s
  let n := digitsValue scan.digits
  if maxUInt64 < n then (maxUInt64, true, scan.rest)
  else if scan.negative then ((2 ^ 64 - n) % 2 ^ 64, false, scan.rest) else (n, false, scan.rest)

namespace Double

def magnitude (w : BitVec 64) : ℕ := w.toNat % 2 ^ 63

def isNaN (w : BitVec 64) : Bool := 2047 * 2 ^ 52 < magnitude w

def key (w : BitVec 64) : ℤ := if w.msb then -(magnitude w : ℤ) else magnitude w

/-- `<` on doubles. -/
def lt (v w : BitVec 64) : Bool := !isNaN v && !isNaN w && decide (key v < key w)

/-- `==` on doubles. -/
def eq (v w : BitVec 64) : Bool := !isNaN v && !isNaN w && decide (key v = key w)

def magnitudeOf (n : ℕ) : ℕ :=
  if n = 0 then 0
  else
    let e := n.log2
    if e ≤ 52 then (e + 1022) * 2 ^ 52 + n * 2 ^ (52 - e)
    else
      let q := n / 2 ^ (e - 52)
      let r := n % 2 ^ (e - 52)
      let half := 2 ^ (e - 53)
      -- a carry out of the mantissa goes into the exponent
      (e + 1022) * 2 ^ 52 + if half < r || (r == half && q % 2 == 1) then q + 1 else q

/-- `static_cast<double>` of an integer. -/
def ofInt (n : ℤ) : BitVec 64 :=
  BitVec.ofNat 64 (magnitudeOf n.natAbs + if n < 0 then 2 ^ 63 else 0)

/-- The integer part; `none` for infinities and NaN. -/
def trunc (w : BitVec 64) : Option ℤ :=
  let e := magnitude w / 2 ^ 52
  if e = 2047 then none
  else
    let significand := magnitude w % 2 ^ 52 + 2 ^ 52
    let n : ℕ := if e = 0 then 0 else if e < 1075 then significand / 2 ^ (1075 - e)
      else significand * 2 ^ (e - 1075)
    some (if w.msb then -(n : ℤ) else n)

example : ofInt 1 = 0x3FF0000000000000 ∧ ofInt (-3) = 0xC008000000000000 ∧
    ofInt (2 ^ 53 + 1) = ofInt (2 ^ 53) ∧ ofInt (2 ^ 63 - 1) = ofInt (2 ^ 63) ∧
    trunc 0x3FF8000000000000 = some 1 ∧ trunc (ofInt (-2 ^ 60)) = some (-2 ^ 60) := by decide

end Double

end Nkit
