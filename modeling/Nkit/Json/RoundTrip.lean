import Nkit.Base.Spans
import Nkit.Json.Construction
import Nkit.Json.Decimal
import Nkit.Json.Grammar
import Nkit.Json.Writer

/-! What is written as JSON is read back: the text is one of the grammar, for a value whose
reading is the tree that was written. -/

namespace Nkit
open OrderedMap Rfc8259

/-- A string as the writer expects it: the control characters are those with a short escape, and no
backslash stands before a quote. -/
structure PlainText (s : Bytes) : Prop where
  utf8 : Utf8 s
  control : ∀ c ∈ s, c < 0x20 → c ∈ ([8, 9, 10, 12, 13] : Bytes)
  pair : ¬[92, 34] <:+: s

structure PlainKey (k : Bytes) : Prop where
  utf8 : Utf8 k
  plain : ∀ c ∈ k, 0x20 ≤ c ∧ c ≠ 34 ∧ c ≠ 92

section Strings
variable {a : UInt8} {c s rest : Bytes}

theorem readChars_step {fuel : ℕ} {piece text : Bytes} (hquote : piece.head? ≠ some 34)
    (hne : piece ≠ []) (hchar : readChar (piece ++ text) = some (c, text))
    (hrest : readChars fuel text = some (s, rest)) :
    readChars (fuel + 1) (piece ++ text) = some (c ++ s, rest) := by
  rw [readChars, hchar]
  · show (readChars fuel text).bind _ = _
    rw [hrest]
    rfl
  · intro text' heq
    cases piece with
    | nil => exact hne rfl
    | cons b piece =>
      cases heq
      exact hquote rfl

theorem readChar_plain (h : isUtf8Char c = true) (hplain : ∀ b ∈ c, 0x20 ≤ b ∧ b ≠ 34 ∧ b ≠ 92)
    (text : Bytes) :
    readChar (c ++ text) = some (c, text) := by
  cases c with
  | nil => cases h
  | cons a s =>
    obtain ⟨hge, -, hne⟩ := hplain a List.mem_cons_self
    have hsplit : utf8Split (a :: s ++ text) = some (a :: s, text) := utf8Split_append h
    rw [List.cons_append] at hsplit ⊢
    rw [readChar.eq_def]
    split
    · rename_i heq
      cases heq
      exact absurd rfl hne
    · have hlt : ¬a < 0x20 := UInt8.not_lt.mpr hge
      simp only [hsplit, Option.bind_eq_bind, Option.bind_some, List.head?_cons, Option.any_some,
        hlt, decide_false, Bool.false_eq_true, if_false]

theorem readChars_key {k : Bytes} (hk : PlainKey k) {fuel : ℕ} (hfuel : k.length ≤ fuel)
    (rest : Bytes) :
    readChars fuel (k ++ 34 :: rest) = some (k, rest) := by
  obtain ⟨hutf8, hplain⟩ := hk
  induction hutf8 generalizing fuel with
  | nil => cases fuel <;> rfl
  | @cons c s hc hs ih =>
    have hne : c ≠ [] := by
      rintro rfl
      cases hc
    have hpos := List.length_pos_iff.mpr hne
    rw [List.length_append] at hfuel
    obtain ⟨fuel, rfl⟩ := Nat.exists_eq_succ_of_ne_zero (show fuel ≠ 0 by omega)
    have hfuel' : s.length ≤ fuel := by omega
    have hrest := ih hfuel' fun b hb => hplain b (List.mem_append_right _ hb)
    have hcplain : ∀ b ∈ c, 0x20 ≤ b ∧ b ≠ 34 ∧ b ≠ 92 := fun b hb =>
      hplain b (List.mem_append_left _ hb)
    rw [List.append_assoc]
    refine readChars_step ?_ hne (readChar_plain hc hcplain _) hrest
    intro hhead
    exact (hcplain 34 (List.mem_of_mem_head? hhead)).2.1 rfl

theorem escapeChars_cons (h : ¬(a = 92 ∧ s.head? = some 34)) :
    escapeChars (a :: s) = escapeChar a ++ escapeChars s := by
  rw [escapeChars]
  intro s' ha hs
  exact h ⟨ha, hs ▸ rfl⟩

theorem readChar_escape (ha : a < 0x80) (hcontrol : a < 0x20 → a ∈ ([8, 9, 10, 12, 13] : Bytes))
    (text : Bytes) :
    readChar (escapeChar a ++ text) = some ([a], text) ∧ (escapeChar a).head? ≠ some 34 ∧
      escapeChar a ≠ [] := by
  have hplain : a ≠ 92 → a ≠ 34 → 0x20 ≤ a → readChar ([a] ++ text) = some ([a], text) := by
    intro h92 h34 hge
    refine readChar_plain (c := [a]) (decide_eq_true ha) (fun b hb => ?_) text
    rw [List.mem_singleton.mp hb]
    exact ⟨hge, h34, h92⟩
  unfold escapeChar
  split_ifs with h1 h2 h3 h4 h5 h6 h7 h8 h9
  · exact ⟨by rw [h1]; rfl, by decide, by decide⟩
  · exact ⟨by rw [h2]; rfl, by decide, by decide⟩
  · exact ⟨by rw [h3]; rfl, by decide, by decide⟩
  · exact ⟨by rw [h4]; rfl, by decide, by decide⟩
  · exact ⟨by rw [h5]; rfl, by decide, by decide⟩
  · exact ⟨by rw [h6]; rfl, by decide, by decide⟩
  · exact ⟨by rw [h7]; rfl, by decide, by decide⟩
  · exact ⟨by rw [h8]; rfl, by decide, by decide⟩
  · have hmem := hcontrol (by grind)
    simp only [List.mem_cons, List.not_mem_nil, or_false] at hmem
    grind
  · refine ⟨hplain h1 h2 ?_, ?_, List.cons_ne_nil _ _⟩
    · by_contra hlt
      have hmem := hcontrol (UInt8.not_le.mp hlt)
      simp only [List.mem_cons, List.not_mem_nil, or_false] at hmem
      grind
    · intro heq
      cases heq
      exact h2 rfl

theorem plain_of_tail (h : 0x80 ≤ a) : 0x20 ≤ a ∧ a ≠ 34 ∧ a ≠ 92 := by grind

theorem escapeChars_tail (h : ∀ b ∈ c, 0x80 ≤ b) (s : Bytes) :
    escapeChars (c ++ s) = c ++ escapeChars s := by
  induction c with
  | nil => rfl
  | cons b c ih =>
    have hb := h b List.mem_cons_self
    have hself : escapeChar b = [b] := by
      unfold escapeChar
      split_ifs <;> grind
    rw [List.cons_append, escapeChars_cons, hself,
      ih fun b' hb' => h b' (List.mem_cons_of_mem _ hb')]
    · rfl
    · rintro ⟨rfl, -⟩
      exact absurd hb (by decide)

theorem readChars_escape (hs : PlainText s) {fuel : ℕ} (hfuel : s.length ≤ fuel) (rest : Bytes) :
    readChars fuel (escapeChars s ++ 34 :: rest) = some (s, rest) := by
  obtain ⟨hutf8, hcontrol, hpair⟩ := hs
  induction hutf8 generalizing fuel with
  | nil => cases fuel <;> rfl
  | @cons c s hc hs ih =>
    cases c with
    | nil => cases hc
    | cons a c =>
      rw [List.cons_append, List.length_cons, List.length_append] at hfuel
      obtain ⟨fuel, rfl⟩ := Nat.exists_eq_succ_of_ne_zero (show fuel ≠ 0 by omega)
      have hfuel' : s.length ≤ fuel := by omega
      have hrest := ih hfuel' (fun b hb hlt => hcontrol b (List.mem_append_right _ hb) hlt)
        fun hinside => hpair (hinside.trans (List.suffix_append _ _).isInfix)
      by_cases ha : a < 0x80
      · have hnil : c = [] := by
          have := isUtf8Char_length hc
          rw [if_pos ha] at this
          exact List.length_eq_zero_iff.mp this
        subst hnil
        obtain ⟨hchar, hquote, hne⟩ :=
          readChar_escape ha (hcontrol a List.mem_cons_self) (escapeChars s ++ 34 :: rest)
        rw [List.singleton_append, escapeChars_cons, List.append_assoc]
        · exact readChars_step hquote hne hchar hrest
        · rintro ⟨rfl, hhead⟩
          obtain ⟨s', rfl⟩ : ∃ s', s = 34 :: s' := by
            cases s with
            | nil => cases hhead
            | cons b s' =>
              cases hhead
              exact ⟨s', rfl⟩
          exact hpair ⟨[], s', rfl⟩
      · have htail := tail_of_utf8Char hc ha
        rw [escapeChars_tail htail, List.append_assoc]
        refine readChars_step ?_ (List.cons_ne_nil _ _)
          (readChar_plain hc (fun b hb => plain_of_tail (htail b hb)) _) hrest
        intro heq
        cases heq
        exact ha (by decide)

theorem escapeChars_length (s : Bytes) : s.length ≤ (escapeChars s).length := by
  have hpos : ∀ ch, 1 ≤ (escapeChar ch).length := by
    intro ch
    unfold escapeChar
    split_ifs <;> simp
  induction s using escapeChars.induct with
  | case1 => exact Nat.le_refl _
  | case2 s ih =>
    simp only [escapeChars, List.length_cons, List.length_append]
    omega
  | case3 ch s hne ih =>
    rw [escapeChars, List.length_cons, List.length_append]
    · have := hpos ch
      omega
    · exact hne

theorem readString_escape (hs : PlainText s) (rest : Bytes) :
    readString (escapeChars s ++ 34 :: rest) = some (s, rest) := by
  refine readChars_escape hs ?_ rest
  have := escapeChars_length s
  rw [List.length_append]
  omega

theorem readString_key {k : Bytes} (hk : PlainKey k) (rest : Bytes) :
    readString (k ++ 34 :: rest) = some (k, rest) := by
  refine readChars_key hk ?_ rest
  rw [List.length_append]
  omega

end Strings

def NumberEnds (rest : Bytes) : Prop :=
  ∀ c ∈ rest.head?, isDigit c = false ∧ c ≠ 46 ∧ isExp c = false

section Numbers
variable {rest : Bytes}

theorem readFrac_ends (h : NumberEnds rest) : readFrac rest = some ([], rest) := by
  cases rest with
  | nil => rfl
  | cons c rest =>
    rw [readFrac]
    rintro _ ⟨⟩
    exact (h _ rfl).2.1 rfl

theorem readExp_ends (h : NumberEnds rest) : readExp rest = some ([], rest) := by
  cases rest with
  | nil => rfl
  | cons c rest => simp only [readExp, (h c rfl).2.2, Bool.not_false, if_true]

theorem readDigits_ends {digits : Bytes} (hne : digits ≠ [])
    (hdigits : ∀ c ∈ digits, isDigit c = true) (h : NumberEnds rest) :
    readDigits (digits ++ rest) = some (digits, rest) := by
  have hstop : ∀ c ∈ rest.head?, isDigit c = false := fun c hc => (h c hc).1
  rw [readDigits, Spans.takeWhile_append_stop hdigits hstop,
    Spans.dropWhile_append_stop hdigits hstop, if_neg hne]

theorem decimal_zero {n : ℕ} {cs : Bytes} (h : decimal n = 48 :: cs) : cs = [] := by
  by_contra hne
  have hpos := List.length_pos_iff.mpr hne
  have hlt : n < 10 ^ cs.length := by
    have hvalue := digitsValue_decimal n
    rw [h, digitsValue_cons] at hvalue
    have hdigits : ∀ c ∈ cs, isDigit c = true := fun c hc =>
      decimal_digits (h ▸ List.mem_cons_of_mem _ hc)
    have hbound := digitsValue_lt hdigits
    simp at hvalue
    omega
  have hlen := (decimal_length_le hpos).mpr hlt
  rw [h, List.length_cons] at hlen
  omega

theorem readInt_decimal (n : ℕ) (h : NumberEnds rest) :
    readInt (decimal n ++ rest) = some (decimal n, rest) := by
  obtain ⟨c, cs, hcs⟩ := List.exists_cons_of_ne_nil (decimal_ne_nil n)
  by_cases hc : c = 48
  · subst hc
    rw [hcs, decimal_zero hcs]
    rfl
  · have hdigits := readDigits_ends (decimal_ne_nil n) (fun _ h => decimal_digits h) h
    rw [hcs] at hdigits ⊢
    rw [List.cons_append, readInt]
    · exact hdigits
    · rintro _ ⟨⟩
      exact hc rfl

theorem readNumber_stringCast (i : ℤ) (h : NumberEnds rest) :
    readNumber (stringCast i ++ rest) = some (stringCast i, rest) := by
  have hint := readInt_decimal i.natAbs h
  rw [stringCast_eq]
  unfold readNumber
  split_ifs with hi
  · have hsign : readSign [45] (45 :: (decimal i.natAbs ++ rest)) =
      ([45], decimal i.natAbs ++ rest) := rfl
    simp [hsign, hint, readFrac_ends h, readExp_ends h]
  · obtain ⟨c, cs, hcs⟩ := List.exists_cons_of_ne_nil (decimal_ne_nil i.natAbs)
    have hc : isDigit c = true := decimal_digits (hcs ▸ List.mem_cons_self)
    have hsign : readSign [45] (decimal i.natAbs ++ rest) = ([], decimal i.natAbs ++ rest) := by
      rw [hcs, List.cons_append, readSign, if_neg]
      rw [List.contains_eq_mem, decide_eq_true_eq, List.mem_singleton]
      rintro rfl
      exact absurd hc (by decide)
    simp [hsign, hint, readFrac_ends h, readExp_ends h]

end Numbers

namespace DynTree

mutual

def json : DynTree → Json
  | plain .bool w => .bool (w ≠ 0)
  | plain .integer w => .number (stringCast w.toInt)
  | string s => .string s
  | list items => .array (jsonItems items)
  | dict entries => .object (jsonEntries entries)
  | plain _ _ | oid _ | table _ _ => .null

def jsonItems : List DynTree → List Json
  | [] => []
  | v :: items => v.json :: jsonItems items

def jsonEntries : List (Bytes × DynTree) → List (Bytes × Json)
  | [] => []
  | (k, v) :: entries => (k, v.json) :: jsonEntries entries

end

/-- Undefined values, truth values, signed integers and strings, and lists and dicts of these. -/
inductive Writable : DynTree → Prop where
  | undef : Writable undef
  | bool {w : BitVec 64} (hw : w = 0 ∨ w = 1) : Writable (plain .bool w)
  | integer (w : BitVec 64) : Writable (plain .integer w)
  | string {s : Bytes} (hs : PlainText s) : Writable (string s)
  | list {items : List DynTree} (hitems : ∀ v ∈ items, Writable v) : Writable (list items)
  | dict {entries : List (Bytes × DynTree)} (hsorted : Sorted bytesLt entries)
      (hkeys : ∀ e ∈ entries, PlainKey e.1)
      (hvalues : ∀ e ∈ entries, Writable e.2) : Writable (dict entries)

def Begins (text : Bytes) : Prop := ∃ c cs, text = c :: cs ∧ isWs c = false ∧ c ≠ 93

structure Written (t : DynTree) (text : Bytes) : Prop where
  begins : Begins text
  reads : ∀ fuel rest, 2 * text.length ≤ fuel → NumberEnds rest → readValue fuel (text ++ rest) =
    some (t.json, rest)

end DynTree

section Values
open DynTree
variable {rest : Bytes}

theorem skipWs_cons {c : UInt8} (h : isWs c = false) (cs : Bytes) : skipWs (c :: cs) = c :: cs :=
  List.dropWhile_cons_of_neg (by rw [h]; exact Bool.false_ne_true)

theorem begins_stringCast (i : ℤ) :
    ∃ c cs, stringCast i = c :: cs ∧ (isDigit c = true ∨ c = 45) := by
  have hne : stringCast i ≠ [] := by
    rw [stringCast_eq]
    split_ifs
    · exact List.cons_ne_nil _ _
    · exact decimal_ne_nil _
  obtain ⟨c, cs, hcs⟩ := List.exists_cons_of_ne_nil hne
  exact ⟨c, cs, hcs, stringCast_chars (hcs ▸ List.mem_cons_self)⟩

theorem readValue_scalar {c : UInt8} {cs : Bytes} (hws : isWs c = false) (h91 : c ≠ 91)
    (h123 : c ≠ 123) (fuel : ℕ) :
    readValue (fuel + 1) (c :: cs) = readScalar (c :: cs) := by
  rw [readValue, skipWs_cons hws]
  split
  · rename_i heq
    cases heq
    exact absurd rfl h91
  · rename_i heq
    cases heq
    exact absurd rfl h123
  · rfl

theorem written_of_reads {t : DynTree} {c : UInt8} {cs : Bytes} (hws : isWs c = false)
    (h93 : c ≠ 93)
    (hread : ∀ fuel rest, NumberEnds rest → readValue (fuel + 1) (c :: cs ++ rest) =
      some (t.json, rest)) :
    Written t (c :: cs) := by
  refine ⟨⟨c, cs, rfl, hws, h93⟩, fun fuel rest hfuel hrest => ?_⟩
  rw [List.length_cons] at hfuel
  obtain ⟨fuel, rfl⟩ := Nat.exists_eq_succ_of_ne_zero (show fuel ≠ 0 by omega)
  exact hread fuel rest hrest

theorem written_scalar {t : DynTree} {c : UInt8} {cs : Bytes} (hws : isWs c = false) (h93 : c ≠ 93)
    (h91 : c ≠ 91) (h123 : c ≠ 123)
    (hread : ∀ rest, NumberEnds rest → readScalar (c :: cs ++ rest) = some (t.json, rest)) :
    Written t (c :: cs) :=
  written_of_reads hws h93 fun fuel rest hrest =>
    (readValue_scalar hws h91 h123 fuel).trans (hread rest hrest)

theorem written_integer (w : BitVec 64) : Written (plain .integer w) (stringCast w.toInt) := by
  obtain ⟨c, cs, hcs, hc⟩ := begins_stringCast w.toInt
  have hother : isWs c = false ∧ c ≠ 93 ∧ c ≠ 91 ∧ c ≠ 123 ∧ c ≠ 110 ∧ c ≠ 116 ∧ c ≠ 102 ∧
      c ≠ 34 := by
    rcases hc with hc | rfl
    · have hne : ∀ d, isDigit d = false → c ≠ d := by
        rintro d hd rfl
        rw [hc] at hd
        cases hd
      simp only [isWs, Bool.or_eq_false_iff, beq_eq_false_iff_ne]
      refine ⟨⟨⟨⟨?_, ?_⟩, ?_⟩, ?_⟩, ?_, ?_, ?_, ?_, ?_, ?_, ?_⟩ <;> exact hne _ (by decide)
    · decide
  obtain ⟨hws, h93, h91, h123, h110, h116, h102, h34⟩ := hother
  have hnumber : ∀ rest, NumberEnds rest → readNumber (c :: cs ++ rest) = some (c :: cs, rest) :=
    fun rest hrest => hcs ▸ readNumber_stringCast w.toInt hrest
  rw [hcs]
  refine written_scalar hws h93 h91 h123 fun rest hrest => ?_
  rw [List.cons_append, readScalar]
  · rw [← List.cons_append, hnumber rest hrest, json, hcs]
    rfl
  all_goals
    rintro _ ⟨⟩
    first
      | exact h110 rfl
      | exact h116 rfl
      | exact h102 rfl
      | exact h34 rfl

theorem written_string {str : Bytes} (hs : PlainText str) :
    Written (DynTree.string str) (writeString str) := by
  refine written_scalar (by decide) (by decide) (by decide) (by decide) fun rest _ => ?_
  show readScalar (34 :: (escapeChars str ++ [34] ++ rest)) = _
  rw [List.append_assoc, readScalar]
  show (readString (escapeChars str ++ 34 :: rest)).map _ = _
  rw [readString_escape hs]
  rfl

theorem numberEnds_cons {c : UInt8} (h : isDigit c = false ∧ c ≠ 46 ∧ isExp c = false)
    (rest : Bytes) : NumberEnds (c :: rest) := by
  intro c' hc'
  cases hc'
  exact h

def WrittenItems (items : List DynTree) (text : Bytes) : Prop :=
  ∀ fuel rest, 2 * text.length + 1 ≤ fuel → Rfc8259.readItems fuel (text ++ 93 :: rest) =
    some (jsonItems items, rest)

def WrittenEntries (entries : List (Bytes × DynTree)) (text : Bytes) : Prop :=
  ∀ fuel rest, 2 * text.length + 1 ≤ fuel → Rfc8259.readMembers fuel (text ++ 125 :: rest) =
    some (jsonEntries entries, rest)

theorem writtenItems_last {v : DynTree} {text : Bytes} (h : Written v text) :
    WrittenItems [v] text := by
  intro fuel rest hfuel
  obtain ⟨fuel, rfl⟩ := Nat.exists_eq_succ_of_ne_zero (show fuel ≠ 0 by omega)
  rw [Rfc8259.readItems, h.reads fuel _ (by omega) (numberEnds_cons (by decide) _)]
  rfl

theorem writtenItems_cons {v : DynTree} {items : List DynTree} {text texts : Bytes}
    (h : Written v text) (hitems : WrittenItems items texts) :
    WrittenItems (v :: items) (text ++ 44 :: texts) := by
  intro fuel rest hfuel
  rw [List.length_append, List.length_cons] at hfuel
  obtain ⟨fuel, rfl⟩ := Nat.exists_eq_succ_of_ne_zero (show fuel ≠ 0 by omega)
  rw [List.append_assoc, List.cons_append, Rfc8259.readItems,
    h.reads fuel _ (by omega) (numberEnds_cons (by decide) _)]
  show (Rfc8259.readItems fuel (texts ++ 93 :: rest)).map _ = _
  rw [hitems fuel rest (by omega)]
  rfl

theorem writeDictItem_eq (k text : Bytes) :
    writeDictItem k text = 34 :: (k ++ 34 :: 58 :: text) := by
  simp only [writeDictItem, List.cons_append, List.append_assoc, List.nil_append]

theorem readMembers_key {k : Bytes} (hk : PlainKey k) (fuel : ℕ) (text : Bytes) :
    Rfc8259.readMembers (fuel + 1) (writeDictItem k text) =
      (readValue fuel text).bind fun r =>
        match skipWs r.2 with
        | 44 :: text =>
          (Rfc8259.readMembers fuel text).map fun (members, text) => ((k, r.1) :: members, text)
        | 125 :: text => some ([(k, r.1)], text)
        | _ => none := by
  rw [writeDictItem_eq, Rfc8259.readMembers, skipWs_cons (by decide)]
  show (readString (k ++ 34 :: 58 :: text)).bind _ = _
  rw [readString_key hk]
  rfl

theorem writeDictItem_append (k text rest : Bytes) :
    writeDictItem k text ++ rest = writeDictItem k (text ++ rest) := by
  simp only [writeDictItem, List.append_assoc]

theorem writeDictItem_length (k text : Bytes) : text.length < (writeDictItem k text).length := by
  simp only [writeDictItem, List.length_append, List.length_cons, List.length_nil]
  omega

theorem writtenEntries_last {k : Bytes} {v : DynTree} {text : Bytes} (hk : PlainKey k)
    (h : Written v text) :
    WrittenEntries [(k, v)] (writeDictItem k text) := by
  intro fuel rest hfuel
  have hlen := writeDictItem_length k text
  obtain ⟨fuel, rfl⟩ := Nat.exists_eq_succ_of_ne_zero (show fuel ≠ 0 by omega)
  rw [writeDictItem_append, readMembers_key hk,
    h.reads fuel _ (by omega) (numberEnds_cons (by decide) _)]
  rfl

theorem writtenEntries_cons {k : Bytes} {v : DynTree} {entries : List (Bytes × DynTree)}
    {text texts : Bytes} (hk : PlainKey k) (h : Written v text)
    (hentries : WrittenEntries entries texts) :
    WrittenEntries ((k, v) :: entries) (writeDictItem k text ++ 44 :: texts) := by
  intro fuel rest hfuel
  have hlen := writeDictItem_length k text
  rw [List.length_append, List.length_cons] at hfuel
  obtain ⟨fuel, rfl⟩ := Nat.exists_eq_succ_of_ne_zero (show fuel ≠ 0 by omega)
  rw [List.append_assoc, List.cons_append, writeDictItem_append, readMembers_key hk,
    h.reads fuel _ (by omega) (numberEnds_cons (by decide) _)]
  show (Rfc8259.readMembers fuel (texts ++ 125 :: rest)).map _ = _
  rw [hentries fuel rest (by omega)]
  rfl

theorem readValue_items {c : UInt8} (hws : isWs c = false) (h93 : c ≠ 93) (fuel : ℕ) (cs : Bytes) :
    readValue (fuel + 1) (91 :: c :: cs) =
      (Rfc8259.readItems fuel (c :: cs)).map fun (items, text) => (.array items, text) := by
  rw [readValue, skipWs_cons (by decide)]
  simp only [skipWs_cons hws]
  split
  · rename_i heq
    cases heq
    exact absurd rfl h93
  · rfl

theorem readValue_members (fuel : ℕ) (cs : Bytes) :
    readValue (fuel + 1) (123 :: 34 :: cs) =
      (Rfc8259.readMembers fuel (34 :: cs)).map fun (members, text) => (.object members, text) := by
  rw [readValue, skipWs_cons (by decide)]
  simp only [skipWs_cons (show isWs 34 = false by decide)]
  rfl

theorem written_list {items : List DynTree} {text : Bytes} (hbegins : Begins text)
    (h : WrittenItems items text) :
    Written (DynTree.list items) (91 :: text ++ [93]) := by
  refine ⟨⟨91, _, rfl, by decide, by decide⟩, fun fuel rest hfuel _ => ?_⟩
  rw [List.length_append, List.length_cons] at hfuel
  obtain ⟨fuel, rfl⟩ := Nat.exists_eq_succ_of_ne_zero (show fuel ≠ 0 by omega)
  obtain ⟨c, cs, rfl, hws, h93⟩ := hbegins
  have hitems := h fuel rest (by omega)
  rw [List.append_assoc, List.cons_append, List.cons_append, readValue_items hws h93]
  rw [List.cons_append] at hitems
  show (Rfc8259.readItems fuel (c :: (cs ++ 93 :: rest))).map _ = _
  rw [hitems]
  rfl

theorem written_dict {entries : List (Bytes × DynTree)} {cs : Bytes}
    (h : WrittenEntries entries (34 :: cs)) :
    Written (DynTree.dict entries) (123 :: (34 :: cs) ++ [125]) := by
  refine ⟨⟨123, _, rfl, by decide, by decide⟩, fun fuel rest hfuel _ => ?_⟩
  rw [List.length_append, List.length_cons] at hfuel
  obtain ⟨fuel, rfl⟩ := Nat.exists_eq_succ_of_ne_zero (show fuel ≠ 0 by omega)
  have hentries := h fuel rest (by omega)
  rw [List.append_assoc, List.cons_append, List.cons_append, readValue_members]
  rw [List.cons_append] at hentries
  show (Rfc8259.readMembers fuel (34 :: (cs ++ 125 :: rest))).map _ = _
  rw [hentries]
  rfl

mutual

theorem toJson_written (lib : CLib) (t : DynTree) (ht : Writable t) :
    ∃ text, t.toJson lib = some text ∧ Written t text := by
  match t, ht with
  | _, .undef =>
    exact ⟨_, rfl, written_scalar (by decide) (by decide) (by decide) (by decide) fun rest _ => rfl⟩
  | _, .bool hw =>
    rcases hw with rfl | rfl
    · exact ⟨_, rfl, written_scalar (by decide) (by decide) (by decide) (by decide) fun rest _ =>
        rfl⟩
    · exact ⟨_, rfl, written_scalar (by decide) (by decide) (by decide) (by decide) fun rest _ =>
        rfl⟩
  | _, .integer w => exact ⟨_, rfl, written_integer w⟩
  | _, .string hs => exact ⟨_, rfl, written_string hs⟩
  | .list [], _ => exact ⟨_, rfl, written_of_reads (by decide) (by decide) fun _ _ _ => rfl⟩
  | .list (v :: items), .list hitems =>
    obtain ⟨text, hrun, hbegins, hwritten⟩ :=
      writeItems_written lib (v :: items) (List.cons_ne_nil _ _) hitems
    refine ⟨91 :: text ++ [93], ?_, written_list hbegins hwritten⟩
    rw [toJson, hrun]
    rfl
  | .dict [], _ => exact ⟨_, rfl, written_of_reads (by decide) (by decide) fun _ _ _ => rfl⟩
  | .dict (e :: entries), .dict _ hkeys hvalues =>
    obtain ⟨cs, hrun, hwritten⟩ :=
      writeEntries_written lib (e :: entries) (List.cons_ne_nil _ _) hkeys hvalues
    refine ⟨123 :: (34 :: cs) ++ [125], ?_, written_dict hwritten⟩
    rw [toJson, hrun]
    rfl
termination_by structural t

theorem writeItems_written (lib : CLib) (items : List DynTree) (hne : items ≠ [])
    (h : ∀ v ∈ items, Writable v) :
    ∃ text, writeItems lib items = some text ∧ Begins text ∧ WrittenItems items text := by
  match items with
  | [] => exact absurd rfl hne
  | v :: rest =>
    obtain ⟨text, hrun, hwritten⟩ := toJson_written lib v (h v List.mem_cons_self)
    by_cases hrest : rest = []
    · subst hrest
      refine ⟨text, ?_, hwritten.begins, writtenItems_last hwritten⟩
      rw [writeItems, hrun]
      rfl
    · obtain ⟨texts, hruns, -, hwrittens⟩ :=
        writeItems_written lib rest hrest fun v' hv' => h v' (List.mem_cons_of_mem _ hv')
      obtain ⟨c, cs, hcs, hbegins⟩ := hwritten.begins
      refine ⟨text ++ 44 :: texts, ?_, ⟨c, cs ++ 44 :: texts, by rw [hcs]; rfl, hbegins⟩,
        writtenItems_cons hwritten hwrittens⟩
      rw [writeItems, hrun]
      show (if rest.isEmpty = true then _ else (writeItems lib rest).bind _) = _
      rw [if_neg (mt List.isEmpty_iff.mp hrest), hruns]
      rfl
termination_by structural items

theorem writeEntries_written (lib : CLib) (entries : List (Bytes × DynTree)) (hne : entries ≠ [])
    (hkeys : ∀ e ∈ entries, PlainKey e.1) (hvalues : ∀ e ∈ entries, Writable e.2) :
    ∃ cs, writeEntries lib entries = some (34 :: cs) ∧ WrittenEntries entries (34 :: cs) := by
  match entries with
  | [] => exact absurd rfl hne
  | (k, v) :: rest =>
    obtain ⟨text, hrun, hwritten⟩ := toJson_written lib v (hvalues (k, v) List.mem_cons_self)
    have hk := hkeys (k, v) List.mem_cons_self
    by_cases hrest : rest = []
    · subst hrest
      refine ⟨_, ?_, writtenEntries_last hk hwritten⟩
      rw [writeEntries, hrun]
      rfl
    · obtain ⟨texts, hruns, hwrittens⟩ := writeEntries_written lib rest hrest
        (fun e he => hkeys e (List.mem_cons_of_mem _ he)) fun e he =>
          hvalues e (List.mem_cons_of_mem _ he)
      refine ⟨_, ?_, writtenEntries_cons hk hwritten hwrittens⟩
      rw [writeEntries, hrun]
      show (if rest.isEmpty = true then _ else (writeEntries lib rest).bind _) = _
      rw [if_neg (mt List.isEmpty_iff.mp hrest), hruns]
      rfl
termination_by structural entries

end

mutual

theorem read_json (strtod : Strtod) (t : DynTree) (ht : Writable t) (erange : Bool) :
    t.json.read strtod erange = some (t, erange) := by
  match t, ht with
  | _, .undef => rfl
  | _, .bool hw => rcases hw with rfl | rfl <;> rfl
  | _, .integer w =>
    have hmin : minInt64 ≤ w.toInt := BitVec.le_toInt w
    have hmax : w.toInt ≤ maxInt64 := Int.le_sub_one_of_lt (BitVec.toInt_lt (x := w))
    rw [json, Json.read, parseNumber_stringCast strtod hmin hmax, BitVec.ofInt_toInt]
    rfl
  | _, .string hs => rfl
  | .list items, .list hitems =>
    rw [json, Json.read, readItems_json strtod items hitems erange]
    rfl
  | .dict entries, .dict hsorted _ hvalues =>
    rw [json, Json.read, readMembers_json strtod entries hvalues erange [] hsorted]
    rfl
termination_by structural t

theorem readItems_json (strtod : Strtod) (items : List DynTree) (h : ∀ v ∈ items, Writable v)
    (erange : Bool) :
    readItems strtod (jsonItems items) erange = some (items, erange) := by
  match items with
  | [] => rfl
  | v :: items =>
    rw [jsonItems, readItems, read_json strtod v (h v List.mem_cons_self) erange]
    show (readItems strtod (jsonItems items) erange).bind _ = _
    rw [readItems_json strtod items (fun v' hv' => h v' (List.mem_cons_of_mem _ hv')) erange]
    rfl
termination_by structural items

theorem readMembers_json (strtod : Strtod) (entries : List (Bytes × DynTree))
    (h : ∀ e ∈ entries, Writable e.2) (erange : Bool) (done : List (Bytes × DynTree))
    (hsorted : Sorted bytesLt (done ++ entries)) :
    readMembers strtod (jsonEntries entries) erange done = some (done ++ entries, erange) := by
  match entries with
  | [] => rw [List.append_nil]; rfl
  | (k, v) :: entries =>
    have hlast : ∀ e ∈ done, bytesLt e.1 k = true :=
      fun e he => (List.pairwise_append.mp hsorted).2.2 e he (k, v) List.mem_cons_self
    rw [List.append_cons] at hsorted ⊢
    rw [jsonEntries, readMembers, read_json strtod v (h (k, v) List.mem_cons_self) erange]
    show readMembers strtod (jsonEntries entries) erange
      (update bytesLt k .undef (fun _ => v) done) = _
    rw [update_last hlast]
    exact readMembers_json strtod entries (fun e he => h e (List.mem_cons_of_mem _ he)) erange _
      hsorted
termination_by structural entries

end

theorem readText_written {t : DynTree} {text : Bytes} (h : Written t text) :
    readText text = some t.json := by
  have hread := h.reads (2 * text.length + 1) [] (by omega) fun _ hc => (nomatch hc)
  rw [List.append_nil] at hread
  rw [readText, hread]
  rfl

end Values

/-- A list or a dict that is written as JSON is read back as it was, by a parser that delivers the
events of every text of the grammar. -/
theorem json_round_trip (yajl : Yajl) (strtod : Strtod) (lib : CLib)
    (hparse : ∀ text v, readText text = some v → yajl.parse text = (v.events, true)) (t : DynTree)
    (ht : t.Writable) (hroot : t.type = .list ∨ t.type = .dict) (m : Store) (hb : m.Bounded)
    (erange : Bool) :
    ∃ text, t.toJson lib = some text ∧
      ∃ d m', dynamicFromJson yajl strtod text m erange = some (d, none, m') ∧
        Shows m' Set.univ d t := by
  obtain ⟨text, hwrite, hwritten⟩ := toJson_written lib t ht
  have hcontainer : t.json.isContainer = true := by
    cases ht with
    | list | dict => rfl
    | undef | bool | integer | string => rcases hroot with hroot | hroot <;> cases hroot
  exact ⟨text, hwrite, dynamicFromJson_reading (hparse text t.json (readText_written hwritten)) hb
    hcontainer
    (read_json strtod t ht erange)⟩

def grammarYajl : Yajl where
  parse text :=
    match readText text with
    | some v => (v.events, true)
    | none => ([], false)
  getError _ := ascii "parse error"

theorem json_round_trip_nested :
    ∃ text, (DynTree.dict
      [(ascii "k",
        .list [.plain .integer (BitVec.ofInt 64 minInt64), .string (ascii "a\"\n"),
          .undef])]).toJson
        ⟨fun _ => 0, fun _ => [], fun _ => [], fun _ => 0, fun _ => 0⟩ = some text ∧
      ∃ d m', dynamicFromJson grammarYajl (fun _ => (0, false)) text ⟨0, fun _ => none⟩ false =
        some (d, none, m') ∧
        Shows m' Set.univ d
          (.dict [(ascii "k",
            .list [.plain .integer (BitVec.ofInt 64 minInt64), .string (ascii "a\"\n"),
              .undef])]) := by
  have hkey : PlainKey (ascii "k") := ⟨.cons (c := [107]) (by decide) .nil, by decide +kernel⟩
  have htext : PlainText (ascii "a\"\n") :=
    ⟨.cons (c := [97]) (by decide)
      (.cons (c := [34]) (by decide) (.cons (c := [10]) (by decide) .nil)), by decide +kernel,
      by decide +kernel⟩
  refine json_round_trip grammarYajl (fun _ => (0, false)) _ (fun text v hv => ?_) _
    (.dict ?_ ?_ ?_) (.inr rfl) _
    (fun _ _ => rfl) false
  · simp only [grammarYajl, hv]
  · exact sorted_cons.mpr ⟨fun _ h => (nomatch h), sorted_nil _⟩
  · intro e he
    rw [List.mem_singleton.mp he]
    exact hkey
  · intro e he
    rw [List.mem_singleton.mp he]
    refine .list fun v hv => ?_
    simp only [List.mem_cons, List.not_mem_nil, or_false] at hv
    rcases hv with rfl | rfl | rfl
    · exact .integer _
    · exact .string htext
    · exact .undef

end Nkit
