import Nkit.Json.RoundTrip

/-! Which strings survive being written.  Everything that the writer gets wrong makes the
text of a string stand for fewer bytes, or for no string at all: a backslash before a quote is
dropped, and an escape without its last digit takes the next character for one. -/

namespace Nkit
open Rfc8259

section
variable {a b : UInt8} {c s v text text' rest rest' : Bytes} {fuel : ℕ}

theorem readChars_inv (hquote : text.head? ≠ some 34) (h : readChars fuel text = some (v, rest)) :
    ∃ fuel' c text' s, readChar text = some (c, text') ∧ readChars fuel' text' = some (s, rest) ∧
      v = c ++ s := by
  rw [readChars.eq_def] at h
  split at h
  · exact absurd rfl hquote
  · cases h
  · obtain ⟨⟨c, text'⟩, hchar, h⟩ := Option.bind_eq_some_iff.mp h
    obtain ⟨⟨s, rest'⟩, hrest, h⟩ := Option.bind_eq_some_iff.mp h
    cases h
    exact ⟨_, c, text', s, hchar, hrest, rfl⟩

theorem escapeChar_head (a : UInt8) : escapeChar a = [a] ∨ (escapeChar a).head? = some 92 := by
  unfold escapeChar
  split_ifs <;> first | exact .inr rfl | exact .inl rfl

theorem hexValue_lt {n : ℕ} (h : hexValue b = some n) : n < 16 ∧ b < 0x80 ∧ b ≠ 92 ∧ b ≠ 34 := by
  unfold hexValue isDigit at h
  simp only [UInt8.lt_iff_toNat_lt, UInt8.le_iff_toNat_le, ← UInt8.toNat_inj, ne_eq,
    Bool.and_eq_true, decide_eq_true_eq] at h ⊢
  have hlit : (48 : UInt8).toNat = 48 ∧ (57 : UInt8).toNat = 57 ∧ (65 : UInt8).toNat = 65 ∧
    (70 : UInt8).toNat = 70 ∧
    (97 : UInt8).toNat = 97 ∧ (102 : UInt8).toNat = 102 ∧ (0x80 : UInt8).toNat = 0x80 ∧
      (92 : UInt8).toNat = 92 ∧
    (34 : UInt8).toNat = 34 := by decide
  split_ifs at h <;> cases h <;> omega

def Cut (a : UInt8) : Prop := 0 < a ∧ a < 0x20 ∧ a ∉ ([8, 9, 10, 12, 13] : Bytes)

theorem escapeChar_cut (ha : Cut a) : ∃ x :
    ℕ, x < 2 ∧ escapeChar a = [92, 117, 48, 48, hexDigit x] := by
  obtain ⟨hpos, hlt, hshort⟩ := ha
  simp only [List.mem_cons, List.not_mem_nil, or_false, not_or] at hshort
  refine ⟨a.toNat / 16, ?_, ?_⟩
  · have hnat : a.toNat < 32 := UInt8.lt_iff_toNat_lt.mp hlt
    omega
  · unfold escapeChar
    grind

theorem readChar_cut (ha : Cut a) (h : readChar (escapeChar a ++ text) = some (c, text')) :
    c.length = 1 ∧ ∃ b n, text = b :: text' ∧ hexValue b = some n := by
  obtain ⟨x, hx, hcut⟩ := escapeChar_cut ha
  rw [hcut] at h
  cases text with
  | nil => cases h
  | cons b text =>
    obtain ⟨⟨high, rest⟩, hhex, h⟩ :=
      Option.bind_eq_some_iff.mp (show readUnicode (48 :: 48 :: hexDigit x :: b :: text) = _ from h)
    have hzero : hexValue 48 = some 0 := rfl
    have hdigit : hexValue (hexDigit x) = some x := by
      match x, hx with
      | 0, _ | 1, _ => rfl
    simp only [hex4, hzero, hdigit, Option.bind_eq_bind, Option.bind_some] at hhex
    obtain ⟨n, hn, hhex⟩ := Option.bind_eq_some_iff.mp hhex
    obtain ⟨hlt, -⟩ := hexValue_lt hn
    cases hhex
    have hhigh : ((0 * 16 + 0) * 16 + x) * 16 + n < 0x80 := by omega
    have h1 : ¬(0xDC00 ≤ ((0 * 16 + 0) * 16 + x) * 16 + n ∧ ((0 * 16 + 0) * 16 + x) * 16 + n <
      0xE000) := by omega
    have h2 : ¬(0xD800 ≤ ((0 * 16 + 0) * 16 + x) * 16 + n ∧ ((0 * 16 + 0) * 16 + x) * 16 + n <
      0xDC00) := by omega
    simp only [if_neg h1, if_neg h2, utf8Encode, if_pos hhigh] at h
    cases h
    exact ⟨rfl, b, n, rfl, hn⟩

theorem readChar_zero (text : Bytes) : readChar (0 :: text) = none := by
  have hsplit : utf8Split (0 :: text) = some ([0], text) := utf8Split_append (c := [0]) rfl
  simp [readChar, hsplit]

theorem escapeChars_hex {n : ℕ} (h : escapeChars s ++ 34 :: rest = b :: text')
    (hb : hexValue b = some n) :
    ∃ s', s = b :: s' ∧ text' = escapeChars s' ++ 34 :: rest := by
  obtain ⟨-, -, h92, h34⟩ := hexValue_lt hb
  cases s with
  | nil => exact absurd (List.cons.inj h).1.symm h34
  | cons a s =>
    by_cases hpair : a = 92 ∧ s.head? = some 34
    · obtain ⟨rfl, hhead⟩ := hpair
      obtain ⟨s, rfl⟩ := List.head?_eq_some_iff.mp hhead
      exact absurd (List.cons.inj h).1.symm h92
    · rw [escapeChars_cons hpair, List.append_assoc] at h
      obtain hself | hescape := escapeChar_head a
      · rw [hself] at h
        obtain ⟨rfl, rfl⟩ := List.cons.inj h
        exact ⟨s, rfl, rfl⟩
      · obtain ⟨e, he⟩ := List.head?_eq_some_iff.mp hescape
        rw [he] at h
        exact absurd (List.cons.inj h).1.symm h92

theorem PlainText.nil : PlainText [] :=
  ⟨.nil, fun _ h => absurd h List.not_mem_nil,
    fun h => absurd (List.eq_nil_of_infix_nil h) (by decide)⟩

theorem pair_of_append (hc : 92 ∉ c) (h : [92, 34] <:+: c ++ s) : [92, 34] <:+: s := by
  induction c with
  | nil => exact h
  | cons b c ih =>
    obtain ⟨hb, hc⟩ := not_or.mp (mt List.mem_cons.mpr hc)
    rw [List.cons_append, List.infix_cons_iff] at h
    obtain ⟨t, ht⟩ | h := h
    · exact absurd (List.cons.inj ht).1 hb
    · exact ih hc h

theorem PlainText.append (hs : PlainText s) (hc : isUtf8Char c = true)
    (hcontrol : ∀ b ∈ c, b < 0x20 → b ∈ ([8, 9, 10, 12, 13] : Bytes))
    (hpair : 92 ∈ c → s.head? ≠ some 34) :
    PlainText (c ++ s) := by
  refine ⟨.cons hc hs.utf8, fun b hb => ?_, ?_⟩
  · exact (List.mem_append.mp hb).elim (hcontrol b) (hs.control b)
  · intro hinside
    cases c with
    | nil => exact hs.pair hinside
    | cons a c =>
      by_cases ha : a < 0x80
      · have hlen := isUtf8Char_length hc
        rw [if_pos ha] at hlen
        rw [List.length_eq_zero_iff.mp hlen, List.singleton_append, List.infix_cons_iff] at hinside
        obtain ⟨s', hs'⟩ | hinside := hinside
        · obtain ⟨rfl, rfl⟩ := List.cons.inj hs'
          exact hpair List.mem_cons_self rfl
        · exact hs.pair hinside
      · exact hs.pair
          (pair_of_append (fun h => absurd (tail_of_utf8Char hc ha 92 h) (by decide)) hinside)

theorem readChars_escape_length (hs : Utf8 s)
    (h : readChars fuel (escapeChars s ++ 34 :: rest) = some (v, rest')) :
    v.length ≤ s.length ∧ (v.length = s.length → PlainText s) := by
  induction hn : s.length using Nat.strong_induction_on generalizing s v fuel with
  | _ n ih =>
  subst hn
  -- once a character is read from two, the rest cannot make up for it
  have hshort : ∀ {fuel c s' x}, Utf8 s' → c.length + s'.length < s.length →
      readChars fuel (escapeChars s' ++ 34 :: rest) = some (x, rest') →
      (c ++ x).length ≤ s.length ∧ ((c ++ x).length = s.length → PlainText s) := by
    intro fuel c s' x hs' hlt hx
    have hle := (ih s'.length (by omega) hs' hx rfl).1
    rw [List.length_append]
    exact ⟨by omega, fun heq => by omega⟩
  cases s with
  | nil =>
    rw [escapeChars, List.nil_append, readChars] at h
    cases h
    exact ⟨le_rfl, fun _ => .nil⟩
  | cons a s =>
    by_cases hpair : a = 92 ∧ s.head? = some 34
    · obtain ⟨rfl, hhead⟩ := hpair
      obtain ⟨s, rfl⟩ := List.head?_eq_some_iff.mp hhead
      obtain ⟨_, c, text', x, hchar, hrest, rfl⟩ := readChars_inv (by rw [escapeChars]; rintro ⟨⟩) h
      cases hchar
      exact hshort ((hs.tail (by decide)).tail (by decide))
        (by simp only [List.length_cons, List.length_nil]; omega) hrest
    by_cases ha : a < 0x80
    · rw [escapeChars_cons hpair, List.append_assoc] at h
      by_cases hcontrol : a < 0x20 → a ∈ ([8, 9, 10, 12, 13] : Bytes)
      · obtain ⟨hread, hquote, hne⟩ := readChar_escape ha hcontrol (escapeChars s ++ 34 :: rest)
        obtain ⟨_, c, text', x, hchar, hrest, rfl⟩ :=
          readChars_inv (by rwa [List.head?_append_of_ne_nil _ hne]) h
        cases hread.symm.trans hchar
        obtain ⟨hle, hplain⟩ := ih s.length (Nat.lt_succ_self _) (hs.tail ha) hrest rfl
        refine ⟨Nat.succ_le_succ hle, fun heq => (hplain (Nat.succ.inj heq)).append (c := [a])
          (decide_eq_true ha) ?_ ?_⟩
        · intro b hb
          rwa [List.mem_singleton.mp hb]
        · intro hb
          exact fun hhead => hpair ⟨(List.mem_singleton.mp hb).symm, hhead⟩
      · obtain ⟨hlt, hcontrol⟩ := Classical.not_imp.mp hcontrol
        have hquote : (escapeChar a ++ (escapeChars s ++ 34 :: rest)).head? ≠ some 34 := by
          obtain hself | hescape := escapeChar_head a
          · rintro hhead
            rw [hself] at hhead
            cases hhead
            exact absurd hlt (by decide)
          · rw [List.head?_append, hescape]
            rintro ⟨⟩
        obtain ⟨_, c, text', x, hchar, hrest, rfl⟩ := readChars_inv hquote h
        by_cases hzero : a = 0
        · subst hzero
          cases (readChar_zero _).symm.trans hchar
        · obtain ⟨hc, b, n, hb, hhex⟩ :=
            readChar_cut ⟨UInt8.pos_iff_ne_zero.mpr hzero, hlt, hcontrol⟩ hchar
          obtain ⟨s, rfl, rfl⟩ := escapeChars_hex hb hhex
          exact hshort ((hs.tail ha).tail (hexValue_lt hhex).2.1)
            (by simp only [List.length_cons]; omega) hrest
    · obtain ⟨c, s', hc, rfl, hs'⟩ := hs.split
      have htail := tail_of_utf8Char hc ha
      rw [← List.cons_append, escapeChars_tail htail, List.append_assoc] at h
      have hplain : ∀ b ∈ a :: c, 0x20 ≤ b ∧ b ≠ 34 ∧ b ≠ 92 := fun b hb =>
        plain_of_tail (htail b hb)
      have hquote : (a :: c ++ (escapeChars s' ++ 34 :: rest)).head? ≠ some 34 := by
        rintro ⟨⟩
        exact absurd rfl (hplain 34 List.mem_cons_self).2.1
      obtain ⟨_, c', text', x, hchar, hrest, rfl⟩ := readChars_inv hquote h
      cases (readChar_plain hc hplain _).symm.trans hchar
      rw [← List.cons_append, List.length_append, List.length_append] at *
      obtain ⟨hle, hwell⟩ := ih s'.length (by simp) hs' hrest rfl
      refine ⟨Nat.add_le_add_left hle _, fun heq => (hwell (Nat.add_left_cancel heq)).append hc ?_
        ?_⟩
      · intro b hb hlt
        exact absurd (hplain b hb).1 (UInt8.not_le.mpr hlt)
      · intro hb
        exact absurd rfl (hplain 92 hb).2.2

/-- What is written for a text is one string literal that stands for the text exactly if no
backslash stands before a quote and no control character lacks a short escape. -/
theorem written_string_decodes_iff (hs : Utf8 s) :
    readScalar (writeString s) = some (.string s, []) ↔
      ¬[92, 34] <:+: s ∧ ∀ c ∈ s, c < 0x20 → c ∈ ([8, 9, 10, 12, 13] : Bytes) := by
  have hscalar : readScalar (writeString s) = (readString (escapeChars s ++ [34])).map fun r =>
    (.string r.1, r.2) := rfl
  rw [hscalar]
  constructor
  · intro h
    obtain ⟨⟨v, rest⟩, hread, heq⟩ := Option.map_eq_some_iff.mp h
    cases heq
    have hplain := (readChars_escape_length hs hread).2 rfl
    exact ⟨hplain.pair, hplain.control⟩
  · rintro ⟨hpair, hcontrol⟩
    rw [readString_escape ⟨hs, hcontrol, hpair⟩]
    rfl

end

theorem written_string_decodes_short_escapes :
    Utf8 (ascii "a\\n\"/" ++ [8, 9, 10, 12, 13]) ∧
    readScalar (writeString (ascii "a\\n\"/" ++ [8, 9, 10, 12, 13])) =
      some (.string (ascii "a\\n\"/" ++ [8, 9, 10, 12, 13]), []) :=
  have hascii : Utf8 (ascii "a\\n\"/" ++ [8, 9, 10, 12, 13]) :=
    utf8_of_ascii (List.forall_iff_forall_mem.mp (by decide))
  ⟨hascii,
    (written_string_decodes_iff hascii).mpr ⟨by decide, List.forall_iff_forall_mem.mp (by decide)⟩⟩

/-- A backslash before a quote is lost; the escape of the byte 1 has three digits and takes the
next character for the fourth; a zero byte is written as it is. -/
theorem written_string_loses_characters :
    (Utf8 [92, 34] ∧ readScalar (writeString [92, 34]) = some (.string [34], [])) ∧
    (Utf8 [1] ∧ readScalar (writeString [1]) = none) ∧
    (Utf8 [1, 65] ∧ readScalar (writeString [1, 65]) = some (.string [10], [])) ∧
    Utf8 [0] ∧ readScalar (writeString [0]) = none :=
  ⟨⟨utf8_of_ascii (List.forall_iff_forall_mem.mp (by decide)), rfl⟩,
    ⟨utf8_of_ascii (List.forall_iff_forall_mem.mp (by decide)), rfl⟩,
    ⟨utf8_of_ascii (List.forall_iff_forall_mem.mp (by decide)), rfl⟩,
    utf8_of_ascii (List.forall_iff_forall_mem.mp (by decide)), rfl⟩

end Nkit
