import Nkit.Json.Sax

/-! Integers as decimal texts and back. -/

namespace Nkit

def decimal (n : ℕ) : Bytes := (Nat.toDigits 10 n).map fun c => UInt8.ofNat c.toNat

theorem stringCast_eq (i : ℤ) :
    stringCast i = if i < 0 then 45 :: decimal i.natAbs else decimal i.natAbs := rfl

section Digits
variable {n : ℕ} {c : UInt8} {xs ys : Bytes}

theorem isDigit_ofNat {ch : Char} (h : ch.isDigit = true) :
    isDigit (UInt8.ofNat ch.toNat) = true ∧ (UInt8.ofNat ch.toNat).toNat = ch.toNat := by
  have hrange : 48 ≤ ch.toNat ∧ ch.toNat ≤ 57 := by
    simp only [Char.isDigit, Bool.and_eq_true, decide_eq_true_eq] at h
    exact ⟨UInt32.le_iff_toNat_le.mp h.1, UInt32.le_iff_toNat_le.mp h.2⟩
  have hnat : (UInt8.ofNat ch.toNat).toNat = ch.toNat := by
    rw [UInt8.toNat_ofNat']
    omega
  refine ⟨isDigit_iff.mpr ?_, hnat⟩
  rwa [hnat]

theorem decimal_digits (hc : c ∈ decimal n) : isDigit c = true := by
  obtain ⟨ch, hch, rfl⟩ := List.mem_map.mp hc
  exact (isDigit_ofNat (Nat.isDigit_of_mem_toDigits (by decide) (by decide) hch)).1

theorem decimal_ne_nil (n : ℕ) : decimal n ≠ [] := by
  unfold decimal
  rw [Ne, List.map_eq_nil_iff]
  exact Nat.toDigits_ne_nil

theorem decimal_length_le {k : ℕ} (hk : 0 < k) : (decimal n).length ≤ k ↔ n < 10 ^ k := by
  rw [decimal, List.length_map]
  exact Nat.length_toDigits_le_iff (by decide) hk

theorem digitsValue_decimal (n : ℕ) : digitsValue (decimal n) = n := by
  have hfold : ∀ (cs : List Char) (k : ℕ), (∀ ch ∈ cs, ch.isDigit = true) →
      (cs.map fun c => UInt8.ofNat c.toNat).foldl (fun n c => n * 10 + (c.toNat - 48)) k =
        Nat.ofDigitChars 10 cs k := by
    intro cs
    induction cs with
    | nil => exact fun _ _ => rfl
    | cons ch cs ih =>
      intro k hcs
      rw [List.map_cons, List.foldl_cons, ih _ fun ch' h => hcs ch' (List.mem_cons_of_mem _ h),
        Nat.ofDigitChars_cons, (isDigit_ofNat (hcs ch List.mem_cons_self)).2, Nat.mul_comm]
      rfl
  rw [digitsValue, decimal,
    hfold _ 0 fun ch hch => Nat.isDigit_of_mem_toDigits (by decide) (by decide) hch]
  exact Nat.ofDigitChars_ten_toDigits

theorem digitsValue_mono (hlen : xs.length = ys.length) (hx : ∀ c ∈ xs, isDigit c = true)
    (hy : ∀ c ∈ ys, isDigit c = true) (hlt : xs < ys) : digitsValue xs < digitsValue ys := by
  induction xs generalizing ys with
  | nil =>
    obtain rfl := List.length_eq_zero_iff.mp hlen.symm
    exact absurd hlt (List.lt_irrefl _)
  | cons c xs ih =>
    cases ys with
    | nil => cases hlen
    | cons d ys =>
      have hlen' : xs.length = ys.length := Nat.succ.inj hlen
      have hx' : ∀ c ∈ xs, isDigit c = true := fun c' hc' => hx c' (List.mem_cons_of_mem _ hc')
      have hy' : ∀ c ∈ ys, isDigit c = true := fun c' hc' => hy c' (List.mem_cons_of_mem _ hc')
      rw [digitsValue_cons, digitsValue_cons, hlen']
      rcases List.cons_lt_cons_iff.mp hlt with hcd | ⟨rfl, hrest⟩
      · have hbound := digitsValue_lt hx'
        have hc := (isDigit_iff.mp (hx c List.mem_cons_self)).1
        have hlt' : c.toNat - 48 + 1 ≤ d.toNat - 48 := by
          have : c.toNat < d.toNat := UInt8.lt_iff_toNat_lt.mp hcd
          omega
        have := Nat.mul_le_mul_right (10 ^ ys.length) hlt'
        rw [hlen'] at hbound
        rw [Nat.add_mul, Nat.one_mul] at this
        omega
      · have := ih hlen' hx' hy' hrest
        omega

theorem decimal_le {k : ℕ} (hlen : (decimal n).length = (decimal k).length) (hle : n ≤ k) :
    decimal n ≤ decimal k := by
  refine List.not_lt.mp fun hlt => ?_
  have := digitsValue_mono hlen.symm (fun _ h => decimal_digits h) (fun _ h => decimal_digits h) hlt
  rw [digitsValue_decimal, digitsValue_decimal] at this
  omega

end Digits

theorem takeWhile_digits {xs : Bytes} (h : ∀ c ∈ xs, isDigit c = true) :
    xs.takeWhile isDigit = xs :=
  List.takeWhile_eq_self_iff.mpr h

theorem stringCast_chars {i : ℤ} {c : UInt8} (hc : c ∈ stringCast i) :
    isDigit c = true ∨ c = 45 := by
  rw [stringCast_eq] at hc
  split_ifs at hc
  · rcases List.mem_cons.mp hc with rfl | hc
    · exact .inr rfl
    · exact .inl (decimal_digits hc)
  · exact .inl (decimal_digits hc)

theorem cStr_stringCast (i : ℤ) : Tools.cStr (stringCast i) = stringCast i := by
  refine List.takeWhile_eq_self_iff.mpr fun c hc => ?_
  rcases stringCast_chars hc with h | rfl
  · have hne : c ≠ 0 := by
      rintro rfl
      exact absurd h (by decide)
    simpa using hne
  · decide

theorem scanInteger_stringCast (i : ℤ) :
    scanInteger (stringCast i) = ⟨decide (i < 0), decimal i.natAbs, []⟩ := by
  obtain ⟨c, cs, hcs⟩ := List.exists_cons_of_ne_nil (decimal_ne_nil i.natAbs)
  have hc : isDigit c = true := decimal_digits (hcs ▸ List.mem_cons_self)
  have htake :=
    takeWhile_digits (fun _ h => decimal_digits h : ∀ c ∈ decimal i.natAbs, isDigit c = true)
  unfold scanInteger
  rw [stringCast_eq]
  split_ifs with hi
  · have hspace : (45 :: decimal i.natAbs).dropWhile isSpace = 45 :: decimal i.natAbs := rfl
    simp only [hspace, splitSign, if_true, htake, if_neg (decimal_ne_nil _), List.drop_length, hi,
      decide_true]
  · have hspace : (decimal i.natAbs).dropWhile isSpace = decimal i.natAbs := by
      rw [hcs, List.dropWhile_cons_of_neg]
      rw [isSpace_of_isDigit hc]
      exact Bool.false_ne_true
    have hsign : splitSign (decimal i.natAbs) = (false, decimal i.natAbs) := by
      rw [hcs, splitSign]
      have h45 : c ≠ 45 := by
        rintro rfl
        exact absurd hc (by decide)
      have h43 : c ≠ 43 := by
        rintro rfl
        exact absurd hc (by decide)
      rw [if_neg h45, if_neg h43]
    simp only [hspace, hsign, htake, if_neg (decimal_ne_nil _), List.drop_length, hi, decide_false]

theorem strtoll_stringCast {i : ℤ} (hmin : minInt64 ≤ i) (hmax : i ≤ maxInt64) :
    strtoll (stringCast i) = (i, false) := by
  have hvalue : (if decide (i < 0) = true then -(digitsValue (decimal i.natAbs) : ℤ)
      else digitsValue (decimal i.natAbs)) = i := by
    rw [digitsValue_decimal]
    split_ifs with hi
    · rw [decide_eq_true_eq] at hi
      omega
    · rw [decide_eq_true_eq] at hi
      omega
  simp only [strtoll, scanInteger_stringCast, hvalue, if_neg (not_lt.mpr hmin),
    if_neg (not_lt.mpr hmax)]

theorem within_boundery {n k : ℕ} (hlen : (decimal n).length ≤ (decimal k).length) (hle : n ≤ k) :
    (decide ((decimal n).length < (decimal k).length) ||
      ((decimal n).length == (decimal k).length && decide (decimal n ≤ decimal k))) = true := by
  rcases Nat.lt_or_eq_of_le hlen with hlt | heq
  · rw [decide_eq_true hlt, Bool.true_or]
  · rw [decide_eq_true (decimal_le heq hle), heq, beq_self_eq_true, Bool.and_self, Bool.or_true]

theorem parseNumber_stringCast (strtod : Strtod) {i : ℤ} (hmin : minInt64 ≤ i) (hmax : i ≤ maxInt64)
    (erange : Bool) :
    parseNumber strtod (stringCast i) erange =
      some (.plain .integer (BitVec.ofInt 64 i), erange) := by
  have hdot : (stringCast i).contains 46 = false := by
    rw [List.contains_eq_mem, decide_eq_false_iff_not]
    intro h
    rcases stringCast_chars h with h | h <;> exact absurd h (by decide)
  have hlen : (decimal i.natAbs).length ≤ 19 :=
    (decimal_length_le (by decide)).mpr (by unfold minInt64 maxInt64 at *; omega)
  have hmaxlen : (stringCast maxUInt64).length = 20 := by decide
  have hstrtoll := strtoll_stringCast hmin hmax
  have hcstr := cStr_stringCast i
  unfold parseNumber numericBufferSize
  by_cases hi : i < 0
  · have hstr : stringCast i = 45 :: decimal i.natAbs := by rw [stringCast_eq, if_pos hi]
    have hbound : stringCast (-minInt64) = decimal (2 ^ 63) := rfl
    have hboundlen : (decimal (2 ^ 63)).length = 19 := by decide
    have hwithin : _ = true :=
      within_boundery (n := i.natAbs) (k := 2 ^ 63) (by omega) (by unfold minInt64 at hmin; omega)
    have hsize : ¬1024 ≤ (decimal i.natAbs).length + 1 := by omega
    have hcount : ¬20 < (decimal i.natAbs).length := by omega
    rw [hstr] at hdot hstrtoll hcstr ⊢
    simp only [hcstr, hdot, hmaxlen, hstrtoll, List.head?_cons, beq_self_eq_true, if_true, hbound,
      List.length_cons, hsize, if_false, List.tail_cons, Nat.add_sub_cancel, hcount, decide_false,
      Bool.or_self, Bool.false_eq_true, hwithin, Bool.or_false]
  · have hstr : stringCast i = decimal i.natAbs := by rw [stringCast_eq, if_neg hi]
    have hbound : stringCast maxInt64 = decimal (2 ^ 63 - 1) := rfl
    have hboundlen : (decimal (2 ^ 63 - 1)).length = 19 := by decide
    have hwithin : _ = true :=
      within_boundery (n := i.natAbs) (k := 2 ^ 63 - 1) (by omega)
        (by unfold maxInt64 at hmax; omega)
    have hsize : ¬1024 ≤ (decimal i.natAbs).length := by omega
    have hcount : ¬20 < (decimal i.natAbs).length := by omega
    have hhead : ((decimal i.natAbs).head? == some 45) = false := by
      obtain ⟨c, cs, hcs⟩ := List.exists_cons_of_ne_nil (decimal_ne_nil i.natAbs)
      have hc : isDigit c = true := decimal_digits (hcs ▸ List.mem_cons_self)
      rw [hcs]
      refine beq_false_of_ne fun h => ?_
      cases h
      exact absurd hc (by decide)
    rw [hstr] at hdot hstrtoll hcstr ⊢
    simp only [hcstr, hdot, hmaxlen, hstrtoll, hhead, hbound, hsize, if_false, hcount, decide_false,
      Bool.or_self, Bool.false_eq_true, hwithin, if_true, Bool.or_false]

theorem decimal_injective : Function.Injective decimal :=
  Function.LeftInverse.injective digitsValue_decimal

theorem stringCast_injective : Function.Injective stringCast := by
  intro i j h
  rw [stringCast_eq, stringCast_eq] at h
  have hsign : ∀ n k : ℕ, 45 :: decimal n ≠ decimal k := by
    intro n k hk
    have hdigit : isDigit 45 = true := decimal_digits (hk ▸ List.mem_cons_self)
    exact absurd hdigit (by decide)
  split at h <;> split at h
  · have := decimal_injective (List.cons.inj h).2
    omega
  · exact absurd h (hsign _ _)
  · exact absurd h.symm (hsign _ _)
  · have := decimal_injective h
    omega

end Nkit
