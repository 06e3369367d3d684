import Nkit.Base.Spans
import Nkit.Json.Decimal
import Nkit.Json.Grammar

/-! Which number literals are read as the numbers they denote.  The test for an integer
looks for a point only, integers from 2^63 on are made by the constructor of signed ones,
`strtoull` takes a sign, and `errno` is looked at without having been cleared. -/

namespace Nkit
open Rfc8259

structure NumberLiteral where
  negative : Bool
  int : Bytes
  frac : Bytes
  exp : Bytes
  int_ne : int ≠ []
  int_digits : ∀ c ∈ int, isDigit c = true
  no_leading_zero : int.head? = some 48 → int = [48]
  frac_digits : frac = [] ∨ ∃ digits, digits ≠ [] ∧ (∀ c ∈ digits, isDigit c = true) ∧
    frac = 46 :: digits
  exp_digits : exp = [] ∨ ∃ e sign digits, isExp e = true ∧ sign ∈ ([[], [43], [45]] : List Bytes) ∧
    digits ≠ [] ∧
    (∀ c ∈ digits, isDigit c = true) ∧ exp = e :: (sign ++ digits)

namespace NumberLiteral
variable (l : NumberLiteral)

def digits : Bytes := l.int ++ (l.frac ++ l.exp)

def text : Bytes := if l.negative then 45 :: l.digits else l.digits

def isInteger : Bool := l.frac.isEmpty && l.exp.isEmpty

def value : ℤ := if l.negative then -digitsValue l.int else digitsValue l.int

def boundery : Bytes := if l.negative then stringCast (-minInt64) else stringCast maxInt64

/-- The value is the integer the literal denotes, if a word can hold it; otherwise it is the
double that `strtod` makes of the whole literal. -/
def Denoted (strtod : Strtod) (d : Dyn) : Prop :=
  if l.isInteger = true ∧ minInt64 ≤ l.value ∧ l.value ≤ maxUInt64 then
    (∃ w : BitVec 64, d = .plain .integer w ∧ w.toInt = l.value) ∨
      ∃ w : BitVec 64, d = .plain .unsignedInteger w ∧ (w.toNat : ℤ) = l.value
  else d = .plain .float (strtod l.text).1

/-- The literals that are read as another number: unsigned integers that no signed word holds,
negative integers beyond the signed words unless `errno` is set already, and short literals with
an exponent and no point. -/
def Misread (erange : Bool) : Prop :=
  (l.isInteger = true ∧ maxInt64 < l.value ∧ l.value ≤ maxUInt64) ∨
  (l.isInteger = true ∧ -(maxUInt64 : ℤ) ≤ l.value ∧ l.value < minInt64 ∧ erange = false) ∨
  (l.frac = [] ∧ l.exp ≠ [] ∧ (l.digits.length < 19 ∨ l.digits.length = 19 ∧ l.digits ≤ l.boundery))

theorem frac_exp_head (c : UInt8) (h : (l.frac ++ l.exp).head? = some c) : isDigit c = false := by
  obtain hfrac | ⟨digits, -, -, hfrac⟩ := l.frac_digits
  · obtain hexp | ⟨e, sign, digits, he, -, -, -, hexp⟩ := l.exp_digits
    · rw [hfrac, hexp] at h
      cases h
    · rw [hfrac, hexp] at h
      cases h
      unfold isExp at he
      rw [Bool.or_eq_true, beq_iff_eq, beq_iff_eq] at he
      rcases he with rfl | rfl <;> decide
  · rw [hfrac] at h
    cases h
    decide

theorem exp_chars {c : UInt8} (h : c ∈ l.exp) :
    isDigit c = true ∨ c ∈ ([43, 45, 69, 101] : Bytes) := by
  obtain hexp | ⟨e, sign, digits, he, hsign, -, hdigits, hexp⟩ := l.exp_digits
  · rw [hexp] at h
    cases h
  · rw [hexp, List.mem_cons, List.mem_append] at h
    obtain rfl | h | h := h
    · unfold isExp at he
      rw [Bool.or_eq_true, beq_iff_eq, beq_iff_eq] at he
      rcases he with rfl | rfl <;> exact .inr (by decide)
    · simp only [List.mem_cons, List.not_mem_nil, or_false] at hsign
      rcases hsign with rfl | rfl | rfl
      · cases h
      · rw [List.mem_singleton.mp h]
        exact .inr (by decide)
      · rw [List.mem_singleton.mp h]
        exact .inr (by decide)
    · exact .inl (hdigits c h)

theorem frac_chars {c : UInt8} (h : c ∈ l.frac) : isDigit c = true ∨ c = 46 := by
  obtain hfrac | ⟨digits, -, hdigits, hfrac⟩ := l.frac_digits
  · rw [hfrac] at h
    cases h
  · rw [hfrac, List.mem_cons] at h
    exact h.elim .inr fun h => .inl (hdigits c h)

theorem text_chars {c : UInt8} (h : c ∈ l.text) :
    isDigit c = true ∨ c ∈ l.frac ∨ c ∈ ([43, 45, 69, 101] : Bytes) := by
  have hdigits : c ∈ l.digits → isDigit c = true ∨ c ∈ l.frac ∨
      c ∈ ([43, 45, 69, 101] : Bytes) := by
    intro h
    rw [digits, List.mem_append, List.mem_append] at h
    obtain h | h | h := h
    · exact .inl (l.int_digits c h)
    · exact .inr (.inl h)
    · exact (l.exp_chars h).imp id .inr
  rw [text] at h
  split_ifs at h
  · obtain rfl | h := List.mem_cons.mp h
    · exact .inr (.inr (by decide))
    · exact hdigits h
  · exact hdigits h

theorem cStr_text : Tools.cStr l.text = l.text := by
  refine List.takeWhile_eq_self_iff.mpr fun c hc => decide_eq_true ?_
  rintro rfl
  obtain h | h | h := l.text_chars hc
  · cases h
  · obtain h | h := l.frac_chars h <;> cases h
  · exact absurd h (by decide)

theorem text_contains_dot : l.text.contains 46 = !l.frac.isEmpty := by
  obtain hfrac | ⟨digits, -, -, hfrac⟩ := l.frac_digits
  · rw [hfrac, List.contains_eq_mem, List.isEmpty_nil, Bool.not_true, decide_eq_false_iff_not]
    intro h
    obtain h | h | h := l.text_chars h
    · cases h
    · rw [hfrac] at h
      cases h
    · exact absurd h (by decide)
  · have hmem : (46 : UInt8) ∈ l.digits := by simp [NumberLiteral.digits, hfrac]
    have htext : (46 : UInt8) ∈ l.text := by
      rw [text]
      split_ifs
      · exact List.mem_cons_of_mem _ hmem
      · exact hmem
    rw [hfrac, List.contains_eq_mem, decide_eq_true htext]
    rfl

theorem takeWhile_digits_text : (l.digits).takeWhile isDigit = l.int :=
  Spans.takeWhile_append_stop l.int_digits l.frac_exp_head

theorem scanInteger_text : scanInteger l.text = ⟨l.negative, l.int, l.frac ++ l.exp⟩ := by
  have hdrop : l.digits.drop l.int.length = l.frac ++ l.exp := List.drop_left
  obtain ⟨c, cs, hcs⟩ := List.exists_cons_of_ne_nil l.int_ne
  have hc : isDigit c = true := l.int_digits c (hcs ▸ List.mem_cons_self)
  have hdigits : l.digits = c :: (cs ++ (l.frac ++ l.exp)) := by rw [digits, hcs, List.cons_append]
  unfold scanInteger
  rw [text]
  split_ifs with hneg
  · have hsplit : splitSign ((45 :: l.digits).dropWhile isSpace) = (true, l.digits) := rfl
    simp only [hsplit, l.takeWhile_digits_text, if_neg l.int_ne, hdrop, hneg]
  · have hspace : l.digits.dropWhile isSpace = l.digits := by
      rw [hdigits, List.dropWhile_cons_of_neg]
      rw [isSpace_of_isDigit hc]
      exact Bool.false_ne_true
    have hsplit : splitSign l.digits = (false, l.digits) := by
      have hne : c ≠ 45 ∧ c ≠ 43 := by
        constructor <;> rintro rfl <;> cases hc
      rw [hdigits, splitSign, if_neg hne.1, if_neg hne.2]
    simp only [hspace, hsplit, l.takeWhile_digits_text, if_neg l.int_ne, hdrop,
      Bool.not_eq_true _ ▸ hneg]

def Fits : Prop := l.digits.length < 19 ∨ l.digits.length = 19 ∧ l.digits ≤ l.boundery

instance : Decidable l.Fits := inferInstanceAs (Decidable (_ ∨ _))

theorem text_head : (l.text.head? == some 45) = l.negative := by
  obtain ⟨c, cs, hcs⟩ := List.exists_cons_of_ne_nil l.int_ne
  have hc : isDigit c = true := l.int_digits c (hcs ▸ List.mem_cons_self)
  rw [text]
  split_ifs with hneg
  · rw [hneg]
    rfl
  · rw [Bool.not_eq_true] at hneg
    rw [digits, hcs, hneg]
    refine beq_false_of_ne fun h => ?_
    cases h
    cases hc

theorem length_boundery : l.boundery.length = 19 := by
  unfold boundery
  split_ifs <;> decide

theorem isInteger_iff : l.isInteger = true ↔ l.frac = [] ∧ l.exp = [] := by
  rw [isInteger, Bool.and_eq_true, List.isEmpty_iff, List.isEmpty_iff]

theorem strtoull_text : strtoull l.text =
    if maxUInt64 < digitsValue l.int then (maxUInt64, true, l.frac ++ l.exp)
    else ((if l.negative then (2 ^ 64 - digitsValue l.int) % 2 ^ 64 else digitsValue l.int), false,
      l.frac ++ l.exp) := by
  simp only [strtoull, l.scanInteger_text]
  split_ifs <;> rfl

/-- The branches of `ParseNumber` on a literal. -/
theorem parseNumber_text (strtod : Strtod) (erange : Bool)
    (hsize : l.text.length < numericBufferSize) :
    parseNumber strtod l.text erange =
      if l.frac ≠ [] ∨ 20 < l.digits.length
        then some (.plain .float (strtod l.text).1, erange || (strtod l.text).2)
      else if l.Fits then some (.plain .integer (BitVec.ofInt 64 (strtoll l.text).1),
        erange || (strtoll l.text).2)
      else if erange = true ∨ maxUInt64 < digitsValue l.int ∨ l.exp ≠ [] then
        some (.plain .float (strtod l.text).1, erange || (strtoull l.text).2.1 || (strtod l.text).2)
      else some (.plain .integer (BitVec.ofNat 64 (strtoull l.text).1), false) := by
  have hdigits : (if l.negative = true then l.text.tail else l.text) = l.digits := by
    rw [text]
    split_ifs <;> rfl
  have hcount : (if l.negative = true then l.text.length - 1 else l.text.length) =
      l.digits.length := by
    rw [text]
    split_ifs <;> rfl
  have hmaxlen : (stringCast maxUInt64).length = 20 := by decide
  have hboundery : (if l.negative = true then stringCast (-minInt64) else stringCast maxInt64) =
    l.boundery := rfl
  unfold parseNumber
  simp only [if_neg (Nat.not_le.mpr hsize), l.cStr_text, l.text_head, hdigits, hcount, hmaxlen,
    hboundery, l.length_boundery, l.text_contains_dot]
  by_cases hfloat : l.frac ≠ [] ∨ 20 < l.digits.length
  · rw [if_pos hfloat, if_pos]
    simpa using hfloat
  rw [if_neg hfloat, if_neg (by simpa using hfloat)]
  by_cases hfits : l.Fits
  · rw [if_pos hfits, if_pos]
    simpa [Fits] using hfits
  rw [if_neg hfits, if_neg (by simpa [Fits] using hfits)]
  have hfrac : l.frac = [] := not_not.mp (not_or.mp hfloat).1
  by_cases hmax : maxUInt64 < digitsValue l.int
  · simp only [strtoull_text, hmax, Bool.or_true, Bool.true_or, if_true, true_or, or_true]
  simp only [strtoull_text, hmax, if_false, false_or, Bool.or_false, hfrac, List.nil_append]
  by_cases hother : erange = true ∨ l.exp ≠ []
  · rw [if_pos hother, if_pos]
    simpa using hother
  · rw [if_neg hother, if_neg]
    simpa using hother

theorem int_length_le {k : ℕ} : l.int.length ≤ k + 1 ↔ digitsValue l.int < 10 ^ (k + 1) := by
  constructor
  · intro h
    exact (digitsValue_lt l.int_digits).trans_le (Nat.pow_le_pow_right (by decide) h)
  · intro h
    obtain ⟨c, cs, hcs⟩ := List.exists_cons_of_ne_nil l.int_ne
    by_contra hlong
    have hne : c ≠ 48 := by
      rintro rfl
      have hsingle := l.no_leading_zero (by rw [hcs]; rfl)
      rw [hsingle] at hlong
      exact hlong (Nat.le_add_left 1 k)
    have hc := (isDigit_iff.mp (l.int_digits c (hcs ▸ List.mem_cons_self))).1
    have hpos : 1 ≤ c.toNat - 48 := by
      have : c.toNat ≠ 48 := fun h => hne (UInt8.toNat_inj.mp h)
      omega
    rw [hcs, digitsValue_cons] at h
    rw [hcs, List.length_cons] at hlong
    have hpow : 10 ^ (k + 1) ≤ 10 ^ cs.length := Nat.pow_le_pow_right (by decide) (by omega)
    have := Nat.mul_le_mul_right (10 ^ cs.length) hpos
    omega

theorem int_fits_iff {b : ℕ} (hlow : 10 ^ 18 ≤ b) (hhigh : b < 10 ^ 19) :
    (l.int.length < 19 ∨ l.int.length = 19 ∧ l.int ≤ decimal b) ↔ digitsValue l.int ≤ b := by
  have hlen : (decimal b).length = 19 := by
    have hle := (decimal_length_le (n := b) (k := 19) (by decide)).mpr hhigh
    have hgt := mt (decimal_length_le (n := b) (k := 18) (by decide)).mp (Nat.not_lt.mpr hlow)
    omega
  have h18 := l.int_length_le (k := 17)
  have h19 := l.int_length_le (k := 18)
  have hvalue := digitsValue_decimal b
  have hdigits : ∀ c ∈ decimal b, isDigit c = true := fun _ h => decimal_digits h
  constructor
  · rintro (h | ⟨h, hle⟩)
    · omega
    · by_contra hlt
      obtain hlt' | heq := List.le_iff_lt_or_eq.mp hle
      · have := digitsValue_mono (h.trans hlen.symm) l.int_digits hdigits hlt'
        omega
      · rw [heq, hvalue] at hlt
        exact hlt le_rfl
  · intro hle
    by_cases h : l.int.length < 19
    · exact .inl h
    · refine .inr ⟨by omega, List.not_lt.mp fun hlt => ?_⟩
      have := digitsValue_mono (hlen.trans (by omega)) hdigits l.int_digits hlt
      omega

theorem fits_iff (h : l.isInteger = true) : l.Fits ↔ minInt64 ≤ l.value ∧ l.value ≤ maxInt64 := by
  obtain ⟨hfrac, hexp⟩ := l.isInteger_iff.mp h
  have hdigits : l.digits = l.int := by rw [digits, hfrac, hexp, List.append_nil, List.append_nil]
  unfold Fits boundery value minInt64 maxInt64
  rw [hdigits]
  split_ifs with hneg
  · have hfit := l.int_fits_iff (b := 2 ^ 63) (by decide) (by decide)
    rw [show stringCast (-(-2 ^ 63)) = decimal (2 ^ 63) from rfl, hfit]
    omega
  · have hfit := l.int_fits_iff (b := 2 ^ 63 - 1) (by decide) (by decide)
    rw [show stringCast (2 ^ 63 - 1) = decimal (2 ^ 63 - 1) from rfl, hfit]
    omega

theorem strtoll_text (h : minInt64 ≤ l.value ∧ l.value ≤ maxInt64) :
    (strtoll l.text).1 = l.value := by
  have hvalue : (if l.negative = true then -(digitsValue l.int : ℤ) else digitsValue l.int) =
    l.value := rfl
  simp only [strtoll, l.scanInteger_text, hvalue, if_neg (not_lt.mpr h.1), if_neg (not_lt.mpr h.2)]

theorem denoted_float_iff (strtod : Strtod) :
    l.Denoted strtod (.plain .float (strtod l.text).1) ↔
      ¬(l.isInteger = true ∧ minInt64 ≤ l.value ∧ l.value ≤ maxUInt64) := by
  unfold Denoted
  split_ifs with h
  · simp [h]
  · simp [h]

theorem denoted_integer_iff (strtod : Strtod) (w : BitVec 64) :
    l.Denoted strtod (.plain .integer w) ↔
      (l.isInteger = true ∧ minInt64 ≤ l.value ∧ l.value ≤ maxUInt64) ∧ w.toInt = l.value := by
  unfold Denoted
  split_ifs with h
  · simp [h]
  · simp [h]

theorem exists_denoted_iff {strtod : Strtod} {x : Option (Dyn × Bool)} {d : Dyn} {e : Bool}
    (h : x = some (d, e)) :
    (∃ d e, x = some (d, e) ∧ l.Denoted strtod d) ↔ l.Denoted strtod d := by
  subst h
  constructor
  · rintro ⟨_, _, ⟨⟩, hd⟩
    exact hd
  · intro hd
    exact ⟨d, e, rfl, hd⟩

theorem denoted_iff_of_not_integer (strtod : Strtod) (erange : Bool)
    (hsize : l.text.length < numericBufferSize) (h : l.isInteger = false) :
    (∃ d e, parseNumber strtod l.text erange = some (d, e) ∧ l.Denoted strtod d) ↔
      ¬l.Misread erange := by
  have hfloat : l.Denoted strtod (.plain .float (strtod l.text).1) :=
    (l.denoted_float_iff strtod).mpr (by simp [h])
  have hinteger : ∀ w, ¬l.Denoted strtod (.plain .integer w) := fun w => by
    simp [denoted_integer_iff, h]
  have hparts : l.frac = [] → l.exp ≠ [] := fun hfrac hexp =>
    Bool.false_ne_true (h.symm.trans (l.isInteger_iff.mpr ⟨hfrac, hexp⟩))
  have hmisread : l.Misread erange ↔ l.frac = [] ∧ l.Fits := by
    unfold Misread
    rw [h]
    simp only [Bool.false_eq_true, false_and, false_or]
    exact ⟨fun ⟨hfrac, _, hfits⟩ => ⟨hfrac, hfits⟩,
      fun ⟨hfrac, hfits⟩ => ⟨hfrac, hparts hfrac, hfits⟩⟩
  have hshort : l.Fits → l.digits.length ≤ 20 := by
    rintro (h | h) <;> omega
  have hread := l.parseNumber_text strtod erange hsize
  rw [hmisread]
  by_cases h1 : l.frac ≠ [] ∨ 20 < l.digits.length
  · rw [if_pos h1] at hread
    rw [l.exists_denoted_iff hread]
    exact iff_of_true hfloat fun ⟨hfrac, hfits⟩ => h1.elim (· hfrac) fun hlong =>
      absurd (hshort hfits) (Nat.not_le.mpr hlong)
  have hfrac : l.frac = [] := not_not.mp (not_or.mp h1).1
  rw [if_neg h1] at hread
  by_cases hfits : l.Fits
  · rw [if_pos hfits] at hread
    rw [l.exists_denoted_iff hread]
    exact iff_of_false (hinteger _) (not_not.mpr ⟨hfrac, hfits⟩)
  · rw [if_neg hfits, if_pos (.inr (.inr (hparts hfrac)))] at hread
    rw [l.exists_denoted_iff hread]
    exact iff_of_true hfloat fun h => hfits h.2

theorem denoted_iff_of_integer (strtod : Strtod) (erange : Bool)
    (hsize : l.text.length < numericBufferSize) (h : l.isInteger = true) :
    (∃ d e, parseNumber strtod l.text erange = some (d, e) ∧ l.Denoted strtod d) ↔
      ¬l.Misread erange := by
  obtain ⟨hfrac, hexp⟩ := l.isInteger_iff.mp h
  have hdigits : l.digits.length = l.int.length := by
    rw [digits, hfrac, hexp, List.append_nil, List.append_nil]
  have hvalue : l.value = if l.negative then -(digitsValue l.int : ℤ) else digitsValue l.int := rfl
  have hmax : maxInt64 = 2 ^ 63 - 1 := rfl
  have hmin : minInt64 = -2 ^ 63 := rfl
  have humax : maxUInt64 = 2 ^ 64 - 1 := rfl
  have hmisread : l.Misread erange ↔
      maxInt64 < l.value ∧ l.value ≤ maxUInt64 ∨ -(maxUInt64 : ℤ) ≤ l.value ∧ l.value < minInt64 ∧
        erange = false := by
    simp [Misread, h, hexp]
  have hread := l.parseNumber_text strtod erange hsize
  rw [hmisread]
  by_cases hlong : 20 < l.digits.length
  · have hvast := mt (l.int_length_le (k := 19)).mpr (by omega)
    rw [if_pos (.inr hlong)] at hread
    rw [l.exists_denoted_iff hread, denoted_float_iff]
    split_ifs at hvalue <;> omega
  rw [if_neg (not_or.mpr ⟨not_not.mpr hfrac, hlong⟩)] at hread
  by_cases hfits : l.Fits
  · have hin := (l.fits_iff h).mp hfits
    rw [if_pos hfits, l.strtoll_text hin] at hread
    rw [l.exists_denoted_iff hread, denoted_integer_iff]
    have hword : (BitVec.ofInt 64 l.value).toInt = l.value :=
      BitVec.toInt_ofInt_eq_self (by decide) (by omega) (by omega)
    exact iff_of_true ⟨⟨h, by omega, by omega⟩, hword⟩ (by omega)
  have hout := mt (l.fits_iff h).mpr hfits
  rw [if_neg hfits] at hread
  by_cases hother : erange = true ∨ maxUInt64 < digitsValue l.int ∨ l.exp ≠ []
  · rw [if_pos hother] at hread
    rw [l.exists_denoted_iff hread, denoted_float_iff]
    have hstop : erange = true ∨ maxUInt64 < digitsValue l.int := hother.imp_right fun h =>
      h.resolve_right (not_not.mpr hexp)
    split_ifs at hvalue <;> rcases hstop with rfl | hbig <;>
      simp only [h, true_and, Bool.true_eq_false, and_false, or_false] <;> omega
  · rw [if_neg hother] at hread
    rw [l.exists_denoted_iff hread, denoted_integer_iff]
    simp only [not_or, Bool.not_eq_true] at hother
    refine iff_of_false ?_ (not_not.mpr ?_)
    · -- a signed word holds none of these values, whatever the word
      rintro ⟨-, hword⟩
      have hlow := BitVec.le_toInt (BitVec.ofNat 64 (strtoull l.text).1)
      have hhigh := BitVec.toInt_lt (x := BitVec.ofNat 64 (strtoull l.text).1)
      omega
    · split_ifs at hvalue <;> simp only [hother.1, and_true] <;> omega

/-- A literal is read as what it denotes exactly if it fits into the buffer and is none of the
misread ones. -/
theorem number_denoted_iff (strtod : Strtod) (erange : Bool) :
    (∃ d e, parseNumber strtod l.text erange = some (d, e) ∧ l.Denoted strtod d) ↔
      l.text.length < numericBufferSize ∧ ¬l.Misread erange := by
  by_cases hsize : l.text.length < numericBufferSize
  · rw [iff_true_intro hsize, true_and]
    cases h : l.isInteger with
    | false => exact l.denoted_iff_of_not_integer strtod erange hsize h
    | true => exact l.denoted_iff_of_integer strtod erange hsize h
  · refine iff_of_false ?_ fun h => hsize h.1
    rintro ⟨d, e, hread, -⟩
    rw [parseNumber, if_pos (Nat.not_lt.mp hsize)] at hread
    cases hread

/-- Literals at the bounds of the words, and one that starts like an integer. -/
theorem numbers_read_wrongly :
    (∃ l : NumberLiteral, l.text = ascii "9223372036854775808" ∧ l.value = 2 ^ 63 ∧
      parseNumber (fun _ => (0, false)) l.text false =
      some (.plain .integer (BitVec.ofInt 64 minInt64), false) ∧
      ¬∃ d e, parseNumber (fun _ => (0, false)) l.text false = some (d, e) ∧
      l.Denoted (fun _ => (0, false)) d) ∧
    (∃ l : NumberLiteral, l.text = ascii "-9223372036854775809" ∧
      parseNumber (fun _ => (0, false)) l.text false =
      some (.plain .integer (BitVec.ofInt 64 maxInt64), false)) ∧
    ∃ l : NumberLiteral, l.text = ascii "1e5" ∧ l.isInteger = false ∧
      parseNumber (fun _ => (0, false)) l.text false = some (.plain .integer 1, false) := by
  refine ⟨⟨⟨false, ascii "9223372036854775808", [], [], by decide,
    List.forall_iff_forall_mem.mp (by decide), by decide, .inl rfl, .inl rfl⟩,
      rfl, ?_, ?_, ?_⟩,
    ⟨⟨true, ascii "9223372036854775809", [], [], by decide,
      List.forall_iff_forall_mem.mp (by decide), by decide, .inl rfl, .inl rfl⟩, rfl, ?_⟩,
    ⟨⟨false, ascii "1", [], ascii "e5", by decide, List.forall_iff_forall_mem.mp (by decide),
      by decide, .inl rfl,
      .inr ⟨101, [], [53], rfl, by decide, by decide, List.forall_iff_forall_mem.mp (by decide),
        rfl⟩⟩, rfl, rfl, ?_⟩⟩
  · decide
  · rfl
  · intro h
    have hread :=
      (exists_denoted_iff (d := .plain .integer (BitVec.ofInt 64 minInt64)) (e := false) _ rfl).mp h
    exact absurd ((denoted_integer_iff _ _ _).mp hread).2 (by decide)
  · rfl
  · rfl

end NumberLiteral

end Nkit
