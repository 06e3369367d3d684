import Nkit.Base.Wholes
import Nkit.Encoding.Transcoder

/-! Texts of characters in a code page, and what of them `FromUtf8` gets there. -/

namespace Nkit
open Wholes

def utf8Text (chars : List Char) : Bytes := chars.flatMap String.utf8EncodeChar

namespace Transcoder

def Represents (t : Transcoder) (ch : Char) (c : UInt8) : Prop :=
  (t.charToSingleUtf16Map c).toNat = ch.toNat

/-- The bytes stand for the ASCII characters that they are. -/
def Ascii (t : Transcoder) (text : Bytes) : Prop :=
  ∀ b ∈ text, (t.charToSingleUtf16Map b).toNat = b.toNat

/-- The reference of the character, if it has one, or else a byte that stands for it. -/
inductive EncodesChar (t : Transcoder) (reference : Char → Option Bytes) (ch : Char) : Bytes → Prop
  | reference {text : Bytes} (href : reference ch = some text) (hascii : t.Ascii text) :
      EncodesChar t reference ch text
  | byte {c : UInt8} (href : reference ch = none) (hc : t.Represents ch c) :
      EncodesChar t reference ch [c]

/-- The text is UTF-8, and every character of it is encoded. -/
def EncodesText (t : Transcoder) (reference : Char → Option Bytes) (s out : Bytes) : Prop :=
  ∃ chars, s = utf8Text chars ∧ Joins (t.EncodesChar reference) chars out

/-- A character of the code page that `utf8_to_utf16` does not refuse. -/
structure Encodable (t : Transcoder) (ch : Char) : Prop where
  ne_zero : ch.toNat ≠ 0
  le : ch.toNat ≤ 0xFFFD
  represented : ∃ c, t.Represents ch c

def CharKept (t : Transcoder) (reference : Char → Option Bytes) (ch : Char) : Prop :=
  (∃ text, reference ch = some text ∧ t.Ascii text) ∨ (reference ch = none ∧ t.Encodable ch)

def TextKept (t : Transcoder) (reference : Char → Option Bytes) (s : Bytes) : Prop :=
  ∃ chars, s = utf8Text chars ∧ ∀ ch ∈ chars, t.CharKept reference ch

/-- The callback knows the characters with references by their first bytes. -/
structure Answers (cb : UInt8 → Option Bytes) (reference : Char → Option Bytes) : Prop where
  answer : ∀ ch, cb ((String.utf8EncodeChar ch).getD 0 0) = reference ch
  ascii : ∀ ch text, reference ch = some text → ch.toNat < 0x80

theorem answers_none :
    Answers (fun _ => none) fun _ => none := ⟨fun _ => rfl, fun _ _ h => by cases h⟩

theorem toNat_bounds (ch : Char) :
    ch.toNat < 0xD800 ∨ (0xDFFF < ch.toNat ∧ ch.toNat < 0x110000) :=
  ch.valid

theorem utf8EncodeChar_eq (ch : Char) :
    String.utf8EncodeChar ch = encodeForm (formOf ch.toNat) ch.toNat := by
  have hbounds := toNat_bounds ch
  have hval : ch.val.toNat = ch.toNat := rfl
  simp only [String.utf8EncodeChar, formOf, hval, encodeForm]
  split_ifs
  all_goals first
    | omega
    | simp (disch := omega) [leadMark, Continuation.digits, Nat.mod_eq_of_lt, Nat.add_comm,
        -UInt8.ofNat_add]

theorem first_byte_eq_iff (ch : Char) {b : UInt8} (hb : b < 0x80) :
    (String.utf8EncodeChar ch).getD 0 0 = b ↔ ch.toNat = b.toNat := by
  have hbounds := toNat_bounds ch
  have hlt : ch.toNat < 2 ^ 31 := by omega
  have hlead := (lead_encodeForm hlt []).1
  have hb : b.toNat < 0x80 := UInt8.lt_iff_toNat_lt.mp hb
  rw [List.append_nil, ← utf8EncodeChar_eq] at hlead
  rw [← UInt8.toNat_inj, hlead, formOf]
  split_ifs
  all_goals
    simp only [leadMark]
    omega

variable {t : Transcoder} {reference : Char → Option Bytes} {cb : UInt8 → Option Bytes} {ch : Char}
  {c : UInt8} {chars : List Char} {s x out : Bytes}

theorem utf8ToUcs4_char (hne : ch.toNat ≠ 0) (rest : Bytes) :
    utf8ToUcs4 (String.utf8EncodeChar ch ++ rest) =
      some (ch.toNat, (String.utf8EncodeChar ch).length) ∧
      utf8Size ((String.utf8EncodeChar ch ++ rest).getD 0 0) =
        (String.utf8EncodeChar ch).length := by
  have hbounds := toNat_bounds ch
  have hlt : ch.toNat < 2 ^ 31 := by omega
  obtain ⟨utf8, hwrite, -, hread⟩ := utf8ToUcs4_ucs4ToUtf8 (Nat.pos_of_ne_zero hne) hlt
  rw [ucs4ToUtf8_eq hlt, ← utf8EncodeChar_eq] at hwrite
  obtain ⟨rfl, hlen⟩ := Prod.mk.inj (Option.some.inj hwrite)
  have hsize := (lead_encodeForm hlt rest).2
  rw [← utf8EncodeChar_eq] at hsize
  refine ⟨?_, hsize.trans hlen⟩
  rw [hread, bytesRead, if_pos]
  have := formOf_cases hlt
  omega

theorem symbol_char (hne : ch.toNat ≠ 0) (rest : Bytes) :
    t.fromUtf8Symbol (String.utf8EncodeChar ch ++ rest) (String.utf8EncodeChar ch ++ rest).length =
      (ucs4ToUtf16 ch.toNat).bind fun units =>
        (t.getChar units.1).map (·, (String.utf8EncodeChar ch).length) := by
  obtain ⟨hread, hsize⟩ := utf8ToUcs4_char hne rest
  have hshort : ¬(String.utf8EncodeChar ch).length > (String.utf8EncodeChar ch ++ rest).length := by
    rw [List.length_append]
    omega
  rw [fromUtf8Symbol, hsize, utf8ToUtf16, hread]
  simp only [if_neg hshort]
  cases ucs4ToUtf16 ch.toNat with
  | none => rfl
  | some units => rfl

theorem symbol_zero (hzero : ch.toNat = 0) (rest : Bytes) (k : ℕ) :
    t.fromUtf8Symbol (String.utf8EncodeChar ch ++ rest) k = none := by
  cases h : t.fromUtf8Symbol (String.utf8EncodeChar ch ++ rest) k with
  | none => rfl
  | some r =>
    have hfirst := (symbol_cases h).1.1
    rw [utf8EncodeChar_eq, hzero] at hfirst
    exact absurd rfl hfirst

theorem Represents.symbol (h : t.Represents ch c) (rest : Bytes) :
    (t.Encodable ch ∧ ∃ c', t.Represents ch c' ∧
      t.fromUtf8Symbol (String.utf8EncodeChar ch ++ rest)
      (String.utf8EncodeChar ch ++ rest).length =
        some (c', (String.utf8EncodeChar ch).length)) ∨
    (¬t.Encodable ch ∧
      t.fromUtf8Symbol (String.utf8EncodeChar ch ++ rest)
      (String.utf8EncodeChar ch ++ rest).length = none) := by
  have hunit : (t.charToSingleUtf16Map c).toNat < 2 ^ 16 := UInt16.toNat_lt _
  by_cases hzero : ch.toNat = 0
  · exact .inr ⟨fun hch => hch.ne_zero hzero, symbol_zero hzero rest _⟩
  · rw [symbol_char hzero]
    by_cases hle : ch.toNat ≤ 0xFFFD
    · left
      have hmap : UInt16.ofNat ch.toNat = t.charToSingleUtf16Map c := by
        rw [← h, UInt16.ofNat_toNat]
      obtain ⟨c', hget, hsame⟩ := t.exists_getChar c
      refine ⟨⟨hzero, hle, c, h⟩, c', ?_, ?_⟩
      · rw [Represents, hsame]
        exact h
      · rw [ucs4ToUtf16, if_pos hle, Option.bind_some, hmap, hget]
        rfl
    · right
      refine ⟨fun hch => hle hch.le, ?_⟩
      have hnot : ¬((decide (ch.toNat ≥ 0x00010000) && decide (ch.toNat ≤ 0x0010FFFF)) = true) := by
        rw [Represents] at h
        simp only [Bool.and_eq_true, decide_eq_true_eq]
        omega
      rw [ucs4ToUtf16, if_neg hle, if_neg hnot, Option.bind_none]

/-- A round of `FromUtf8` either goes on with an encoded character, or ends before one. -/
theorem EncodesChar.step (hcb : Answers cb reference) (h : t.EncodesChar reference ch x)
    (rest : Bytes) :
    (t.CharKept reference ch ∧ ∃ x', t.EncodesChar reference ch x' ∧ x'.length = x.length ∧
      t.callbackStep cb (String.utf8EncodeChar ch ++ rest) =
      some (x', (String.utf8EncodeChar ch).length)) ∨
    (¬t.CharKept reference ch ∧ 0 < x.length ∧
      t.callbackStep cb (String.utf8EncodeChar ch ++ rest) = none) := by
  have hne : String.utf8EncodeChar ch ≠ [] := String.utf8EncodeChar_ne_nil
  have hfirst : (String.utf8EncodeChar ch ++ rest).getD 0 0 =
      (String.utf8EncodeChar ch).getD 0 0 := by
    obtain ⟨b, bs, hb⟩ := List.exists_cons_of_ne_nil hne
    rw [hb]
    rfl
  rw [callbackStep, hfirst, hcb.answer]
  cases h with
  | reference href hascii =>
    have hlen : (String.utf8EncodeChar ch).length = 1 := by
      rw [String.utf8EncodeChar, if_pos]
      · rfl
      · exact Nat.le_of_lt_succ (hcb.ascii ch x href)
    rw [href, hlen]
    exact .inl ⟨.inl ⟨x, href, hascii⟩, x, .reference href hascii, rfl, rfl⟩
  | byte href hc =>
    rw [href, symbolStep]
    rcases hc.symbol rest with ⟨hch, c', hc', hsymbol⟩ | ⟨hch, hsymbol⟩
    · rw [hsymbol]
      exact .inl ⟨.inr ⟨href, hch⟩, [c'], .byte href hc', rfl, rfl⟩
    · rw [hsymbol]
      refine .inr ⟨?_, Nat.one_pos, rfl⟩
      rintro (⟨text, htext, -⟩ | ⟨-, hch'⟩)
      · cases href.symm.trans htext
      · exact hch hch'

theorem CharKept.encodes (h : t.CharKept reference ch) : ∃ x, t.EncodesChar reference ch x := by
  rcases h with ⟨text, href, hascii⟩ | ⟨href, hch⟩
  · exact ⟨text, .reference href hascii⟩
  · obtain ⟨c, hc⟩ := hch.represented
    exact ⟨[c], .byte href hc⟩

theorem utf8Text_cons (ch : Char) (chars : List Char) :
    utf8Text (ch :: chars) = String.utf8EncodeChar ch ++ utf8Text chars :=
  List.flatMap_cons

theorem utf8Text_cons_ne_nil (ch : Char) (chars : List Char) : utf8Text (ch :: chars) ≠ [] := by
  rw [utf8Text_cons]
  exact List.append_ne_nil_of_left_ne_nil String.utf8EncodeChar_ne_nil _

/-- Of a text that has an encoding, `FromUtf8` writes one as long, or stops short of it. -/
theorem run_cases (hcb : Answers cb reference) (h : Joins (t.EncodesChar reference) chars out) :
    ((∀ ch ∈ chars, t.CharKept reference ch) ∧
      Joins (t.EncodesChar reference) chars (t.fromUtf8With cb (utf8Text chars)).2 ∧
      (t.fromUtf8With cb (utf8Text chars)).2.length = out.length) ∨
    ((¬∀ ch ∈ chars, t.CharKept reference ch) ∧
      (t.fromUtf8With cb (utf8Text chars)).2.length < out.length) := by
  induction h with
  | nil => exact .inl ⟨fun _ hch => absurd hch List.not_mem_nil, .nil, rfl⟩
  | @cons ch chars x out hx _ ih =>
    have hne := utf8Text_cons_ne_nil ch chars
    rw [List.forall_mem_cons, List.length_append]
    rcases hx.step hcb (utf8Text chars) with ⟨hch, x', hx', hlen, hstep⟩ | ⟨hch, hpos, hstep⟩
    · rw [← utf8Text_cons] at hstep
      rw [fromUtf8With, Scan.run_some (t.callbackStep_progress cb) hne hstep, utf8Text_cons,
        List.drop_left, List.length_append, hlen]
      rcases ih with ⟨hall, hrow, hlength⟩ | ⟨hnot, hlt⟩
      · refine .inl ⟨⟨hch, hall⟩, .cons hx' hrow, ?_⟩
        rw [← hlength]
        rfl
      · exact .inr ⟨fun hall => hnot hall.2, Nat.add_lt_add_left hlt _⟩
    · rw [← utf8Text_cons] at hstep
      rw [fromUtf8With, Scan.run_none hne hstep]
      exact .inr ⟨fun hall => hch hall.1, Nat.add_pos_left hpos _⟩

theorem EncodesText.length_le (hcb : Answers cb reference) (h : t.EncodesText reference s out) :
    (t.fromUtf8With cb s).2.length ≤ out.length := by
  obtain ⟨chars, rfl, hrow⟩ := h
  rcases run_cases hcb hrow with ⟨-, -, hlen⟩ | ⟨-, hlt⟩
  · exact hlen.le
  · exact hlt.le

/-- `FromUtf8` writes the whole text exactly if it can write every character. -/
theorem encodesText_iff (hcb : Answers cb reference) :
    t.EncodesText reference s (t.fromUtf8With cb s).2 ↔ t.TextKept reference s := by
  constructor
  · rintro ⟨chars, rfl, hrow⟩
    rcases run_cases hcb hrow with ⟨hall, -⟩ | ⟨-, hlt⟩
    · exact ⟨chars, rfl, hall⟩
    · exact absurd hlt (lt_irrefl _)
  · rintro ⟨chars, rfl, hall⟩
    have hrow : ∃ out, Joins (t.EncodesChar reference) chars out := by
      induction chars with
      | nil => exact ⟨[], .nil⟩
      | cons ch chars ih =>
        obtain ⟨hch, hchars⟩ := List.forall_mem_cons.mp hall
        obtain ⟨x, hx⟩ := hch.encodes
        obtain ⟨out, hout⟩ := ih hchars
        exact ⟨x ++ out, .cons hx hout⟩
    obtain ⟨out, hout⟩ := hrow
    rcases run_cases hcb hout with ⟨-, hwritten, -⟩ | ⟨hnot, -⟩
    · exact ⟨chars, rfl, hwritten⟩
    · exact absurd hall hnot

theorem length_bytes (h : Joins (t.EncodesChar fun _ => none) chars out) :
    out.length = chars.length := by
  induction h with
  | nil => rfl
  | cons hx _ ih =>
    cases hx with
    | reference href => cases href
    | byte => rw [List.length_append, List.length_singleton, ih, List.length_cons, Nat.add_comm]

theorem joins_singleton (h : Joins (t.EncodesChar fun _ => none) [ch] out) :
    ∃ c, out = [c] ∧ t.Represents ch c := by
  cases h with
  | cons hx hrest =>
    cases hrest
    cases hx with
    | reference href => cases href
    | @byte c _ hc => exact ⟨c, rfl, hc⟩

theorem pointer_length_le_one (t : Transcoder) (s : Bytes) (k : ℕ) :
    (t.fromUtf8Pointer s k).2.length ≤ 1 := by
  rw [fromUtf8Pointer]
  cases t.fromUtf8Symbol s k with
  | none => exact Nat.zero_le 1
  | some r => exact le_rfl

theorem pointer_nil (t : Transcoder) : t.fromUtf8Pointer [] 0 = (false, []) := by
  rw [fromUtf8Pointer, fromUtf8Symbol_zero]

theorem EncodesText.pointer_length_le (h : t.EncodesText (fun _ => none) s out) :
    (t.fromUtf8Pointer s s.length).2.length ≤ out.length := by
  obtain ⟨chars, rfl, hrow⟩ := h
  rw [length_bytes hrow]
  cases chars with
  | nil => rw [utf8Text, List.flatMap_nil, List.length_nil, pointer_nil]; rfl
  | cons ch chars => exact (pointer_length_le_one t _ _).trans (Nat.le_add_left 1 _)

theorem encodesText_pointer_iff :
    t.EncodesText (fun _ => none) s (t.fromUtf8Pointer s s.length).2 ↔
      s = [] ∨ ∃ ch, s = String.utf8EncodeChar ch ∧ t.Encodable ch := by
  have hsymbol : ∀ {ch c}, t.Represents ch c →
      (t.Encodable ch ∧ ∃ c', t.Represents ch c' ∧
        (t.fromUtf8Pointer (String.utf8EncodeChar ch) (String.utf8EncodeChar ch).length).2 = [c']) ∨
      (¬t.Encodable ch ∧
        (t.fromUtf8Pointer (String.utf8EncodeChar ch) (String.utf8EncodeChar ch).length).2 =
        []) := by
    intro ch c hc
    have h := hc.symbol []
    rw [List.append_nil] at h
    rw [fromUtf8Pointer]
    rcases h with ⟨hch, c', hc', h⟩ | ⟨hch, h⟩
    · rw [h]
      exact .inl ⟨hch, c', hc', rfl⟩
    · rw [h]
      exact .inr ⟨hch, rfl⟩
  constructor
  · rintro ⟨chars, rfl, hrow⟩
    have hshort :=
      length_bytes hrow ▸ pointer_length_le_one t (utf8Text chars) (utf8Text chars).length
    rcases chars with _ | ⟨ch, _ | ⟨ch', chars⟩⟩
    · exact .inl rfl
    · rw [utf8Text, List.flatMap_singleton] at hrow ⊢
      obtain ⟨c, hout, hc⟩ := joins_singleton hrow
      rcases hsymbol hc with ⟨hch, -⟩ | ⟨-, hnone⟩
      · exact .inr ⟨ch, rfl, hch⟩
      · cases hnone.symm.trans hout
    · rw [List.length_cons, List.length_cons] at hshort
      omega
  · rintro (rfl | ⟨ch, rfl, hch⟩)
    · rw [List.length_nil, pointer_nil]
      exact ⟨[], rfl, .nil⟩
    · obtain ⟨c, hc⟩ := hch.represented
      rcases hsymbol hc with ⟨-, c', hc', hout⟩ | ⟨hnot, -⟩
      · rw [hout]
        exact ⟨[ch], (List.flatMap_singleton ..).symm, .cons (EncodesChar.byte rfl hc') .nil⟩
      · exact absurd hch hnot

end Transcoder
end Nkit
