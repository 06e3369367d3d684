import Nkit.Tools

/-! UTF-8 texts. -/

namespace Nkit

def isTail (b : UInt8) : Bool := 0x80 ≤ b && b ≤ 0xBF

def isUtf8Char : Bytes → Bool
  | [a] => a < 0x80
  | [a, b] => 0xC2 ≤ a && a ≤ 0xDF && isTail b
  | [a, b, c] =>
    ((a == 0xE0 && 0xA0 ≤ b && b ≤ 0xBF) || (0xE1 ≤ a && a ≤ 0xEC && isTail b) ||
      (a == 0xED && 0x80 ≤ b && b ≤ 0x9F) ||
      (0xEE ≤ a && a ≤ 0xEF && isTail b)) && isTail c
  | [a, b, c, d] =>
    ((a == 0xF0 && 0x90 ≤ b && b ≤ 0xBF) || (0xF1 ≤ a && a ≤ 0xF3 && isTail b) ||
      (a == 0xF4 && 0x80 ≤ b && b ≤ 0x8F)) &&
      isTail c && isTail d
  | _ => false

/-- The text is a sequence of characters. -/
inductive Utf8 : Bytes → Prop where
  | nil : Utf8 []
  | cons {c s : Bytes} (hc : isUtf8Char c = true) (hs : Utf8 s) : Utf8 (c ++ s)

def utf8Split (text : Bytes) : Option (Bytes × Bytes) :=
  ([1, 2, 3, 4].find? fun n => isUtf8Char (text.take n)).map fun n => (text.take n, text.drop n)

def utf8Encode (n : ℕ) : Bytes :=
  let tail := fun k => UInt8.ofNat (0x80 + n / 64 ^ k % 64)
  if n < 0x80 then [UInt8.ofNat n]
  else if n < 0x800 then [UInt8.ofNat (0xC0 + n / 64), tail 0]
  else if n < 0x10000 then [UInt8.ofNat (0xE0 + n / 64 ^ 2), tail 1, tail 0]
  else [UInt8.ofNat (0xF0 + n / 64 ^ 3), tail 2, tail 1, tail 0]

section Split
variable {a : UInt8} {c s rest : Bytes}

theorem isUtf8Char_length (h : isUtf8Char (a :: s) = true) :
    s.length = if a < 0x80 then 0 else if a < 0xE0 then 1 else if a < 0xF0 then 2 else 3 := by
  match s, h with
  | [], h => simp only [isUtf8Char, decide_eq_true_eq] at h; simp [h]
  | [b], h =>
    simp only [isUtf8Char, Bool.and_eq_true, decide_eq_true_eq] at h
    simp only [List.length_cons, List.length_nil]
    grind
  | [b, c], h =>
    simp only [isUtf8Char, Bool.and_eq_true, Bool.or_eq_true, decide_eq_true_eq, beq_iff_eq] at h
    simp only [List.length_cons, List.length_nil]
    grind
  | [b, c, d], h =>
    simp only [isUtf8Char, Bool.and_eq_true, Bool.or_eq_true, decide_eq_true_eq, beq_iff_eq] at h
    simp only [List.length_cons, List.length_nil]
    grind

theorem utf8Split_append (h : isUtf8Char c = true) : utf8Split (c ++ rest) = some (c, rest) := by
  cases c with
  | nil => cases h
  | cons a s =>
    have hlen := isUtf8Char_length h
    have hshort : ∀ n < s.length, isUtf8Char (a :: s.take n) = false := by
      intro n hn
      by_contra h'
      have hlen' := isUtf8Char_length (eq_true_of_ne_false h')
      rw [← hlen, List.length_take] at hlen'
      omega
    match s with
    | [] => simp [utf8Split, List.find?, h]
    | [b] =>
      have h0 : isUtf8Char [a] = false := hshort 0 (by simp)
      simp [utf8Split, List.find?, h0, h]
    | [b, c] =>
      have h0 : isUtf8Char [a] = false := hshort 0 (by simp)
      have h1 : isUtf8Char [a, b] = false := hshort 1 (by simp)
      simp [utf8Split, List.find?, h0, h1, h]
    | [b, c, d] =>
      have h0 : isUtf8Char [a] = false := hshort 0 (by simp)
      have h1 : isUtf8Char [a, b] = false := hshort 1 (by simp)
      have h2 : isUtf8Char [a, b, c] = false := hshort 2 (by simp)
      simp [utf8Split, List.find?, h0, h1, h2, h]
    | _ :: _ :: _ :: _ :: _ => cases h

theorem tail_of_utf8Char (h : isUtf8Char (a :: s) = true) (ha : ¬a < 0x80) :
    ∀ b ∈ a :: s, 0x80 ≤ b := by
  match s, h with
  | [], h => simp only [isUtf8Char, decide_eq_true_eq] at h; exact absurd h ha
  | [b], h =>
    simp only [isUtf8Char, isTail, Bool.and_eq_true, decide_eq_true_eq] at h
    grind
  | [b, c], h =>
    simp only [isUtf8Char, isTail, Bool.and_eq_true, Bool.or_eq_true, decide_eq_true_eq,
      beq_iff_eq] at h
    grind
  | [b, c, d], h =>
    simp only [isUtf8Char, isTail, Bool.and_eq_true, Bool.or_eq_true, decide_eq_true_eq,
      beq_iff_eq] at h
    grind

theorem Utf8.split (h : Utf8 (a :: s)) :
    ∃ c s', isUtf8Char (a :: c) = true ∧ s = c ++ s' ∧ Utf8 s' := by
  generalize hs : a :: s = text at h
  cases h with
  | nil => cases hs
  | @cons c s' hc hs' =>
    cases c with
    | nil => cases hc
    | cons b c =>
      obtain ⟨rfl, rfl⟩ := List.cons.inj hs
      exact ⟨c, s', hc, rfl, hs'⟩

theorem Utf8.tail (h : Utf8 (a :: s)) (ha : a < 0x80) : Utf8 s := by
  obtain ⟨c, s', hc, rfl, hs'⟩ := h.split
  have hlen := isUtf8Char_length hc
  rw [if_pos ha] at hlen
  rwa [List.length_eq_zero_iff.mp hlen]

theorem utf8_of_ascii (h : ∀ b ∈ s, b < 0x80) : Utf8 s := by
  induction s with
  | nil => exact .nil
  | cons a s ih =>
    exact .cons (c := [a]) (decide_eq_true (h a List.mem_cons_self))
      (ih fun b hb => h b (List.mem_cons_of_mem _ hb))

end Split

end Nkit
