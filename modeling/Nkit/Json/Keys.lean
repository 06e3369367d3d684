import Nkit.Dynamic.Clone
import Nkit.Json.Escapes

/-! Which keys survive being written.  A key is written as it is, so it may end early, swallow
what follows, or be read as another key; a document whose names are the keys has only
keys without a quote, a backslash or a control character. -/

namespace Nkit
open OrderedMap Rfc8259

section
variable {c e p q s t u v z text text' rest rest' : Bytes} {fuel n : ℕ}

theorem utf8Split_inv (h : utf8Split text = some (c, rest)) :
    text = c ++ rest ∧ isUtf8Char c = true := by
  obtain ⟨n, hfind, heq⟩ := Option.map_eq_some_iff.mp h
  cases heq
  exact ⟨(List.take_append_drop n text).symm,
    List.find?_some (p := fun n => isUtf8Char (text.take n)) hfind⟩

theorem hex4_inv (h : hex4 text = some (n, rest)) :
    ∃ e, text = e ++ rest ∧ e.length = 4 ∧ 34 ∉ e := by
  rw [hex4.eq_def] at h
  split at h
  · rename_i a b c d rest'
    obtain ⟨_, ha, h⟩ := Option.bind_eq_some_iff.mp h
    obtain ⟨_, hb, h⟩ := Option.bind_eq_some_iff.mp h
    obtain ⟨_, hc, h⟩ := Option.bind_eq_some_iff.mp h
    obtain ⟨_, hd, h⟩ := Option.bind_eq_some_iff.mp h
    cases h
    refine ⟨[a, b, c, d], rfl, rfl, ?_⟩
    simp only [List.mem_cons, List.not_mem_nil, or_false, not_or]
    exact ⟨(hexValue_lt ha).2.2.2.symm, (hexValue_lt hb).2.2.2.symm, (hexValue_lt hc).2.2.2.symm,
      (hexValue_lt hd).2.2.2.symm⟩
  · cases h

theorem utf8Encode_length (n : ℕ) : (utf8Encode n).length ≤ 4 := by
  unfold utf8Encode
  split_ifs <;> simp

theorem readUnicode_inv (h : readUnicode text = some (c, rest)) :
    ∃ e, text = e ++ rest ∧ c.length ≤ e.length ∧ 34 ∉ e := by
  obtain ⟨⟨high, text₁⟩, hhigh, hrest⟩ := Option.bind_eq_some_iff.mp h
  obtain ⟨e, rfl, hlen, he⟩ := hex4_inv hhigh
  simp only at hrest
  split_ifs at hrest with h1 h2
  · split at hrest
    · rename_i text₂
      obtain ⟨⟨low, text₃⟩, hlow, hchar⟩ := Option.bind_eq_some_iff.mp hrest
      obtain ⟨e', rfl, -, he'⟩ := hex4_inv hlow
      simp only at hchar
      split_ifs at hchar
      obtain ⟨rfl, rfl⟩ := Prod.mk.inj (Option.some.inj hchar)
      refine ⟨e ++ 92 :: 117 :: e', by simp, ?_, ?_⟩
      · have hlong : 4 ≤ (e ++ 92 :: 117 :: e').length := by
          rw [List.length_append, hlen]
          exact Nat.le_add_right _ _
        exact (utf8Encode_length _).trans hlong
      · simp [he, he']
    · cases hrest
  · cases hrest
    exact ⟨e, rfl, (utf8Encode_length _).trans hlen.ge, he⟩

theorem readChar_inv (hquote : text.head? ≠ some 34) (h : readChar text = some (c, rest)) :
    (text = c ++ rest ∧ c ≠ [] ∧ ∀ b ∈ c, 0x20 ≤ b ∧ b ≠ 34 ∧ b ≠ 92) ∨ c = [34] ∨
      ∃ e, text = e ++ rest ∧ c.length < e.length ∧ 34 ∉ e := by
  rw [readChar.eq_def] at h
  split at h
  · rename_i text
    rw [readEscape.eq_def] at h
    split at h
    case h_1 =>
      cases h
      exact .inr (.inl rfl)
    case h_9 =>
      obtain ⟨e, rfl, hlen, he⟩ := readUnicode_inv h
      refine .inr (.inr ⟨92 :: 117 :: e, rfl, ?_, ?_⟩)
      · simp only [List.length_cons]
        omega
      · simp [he]
    case h_10 => cases h
    all_goals
      cases h
      exact .inr (.inr ⟨_, (List.append_assoc [92] [_] _).symm, by decide, by decide⟩)
  · rename_i hescape
    obtain ⟨⟨c', text'⟩, hsplit, hrest⟩ := Option.bind_eq_some_iff.mp h
    obtain ⟨rfl, hchar⟩ := utf8Split_inv hsplit
    simp only at hrest
    split_ifs at hrest with hlow
    cases hrest
    cases c with
    | nil => cases hchar
    | cons a c =>
      have hge : ¬a < 0x20 := fun hlt => hlow (by simpa using hlt)
      have h92 : a ≠ 92 := fun ha => hescape (c ++ rest) (by rw [ha]; rfl)
      have h34 : a ≠ 34 := fun ha => hquote (by rw [ha]; rfl)
      refine .inl ⟨rfl, List.cons_ne_nil _ _, fun b hb => ?_⟩
      by_cases ha : a < 0x80
      · have hlen := isUtf8Char_length hchar
        rw [if_pos ha] at hlen
        rw [List.length_eq_zero_iff.mp hlen, List.mem_singleton] at hb
        exact hb ▸ ⟨UInt8.not_lt.mp hge, h34, h92⟩
      · exact plain_of_tail (tail_of_utf8Char hchar ha b hb)

theorem append_before_quote (hp : 34 ∉ p) (h : p ++ q = t ++ 34 :: u) :
    ∃ t', t = p ++ t' ∧ q = t' ++ 34 :: u := by
  obtain ⟨t', rfl, rfl⟩ | ⟨p', rfl, hu⟩ := List.append_eq_append_iff.mp h
  · exact ⟨t', rfl, rfl⟩
  · cases p' with
    | nil => exact ⟨[], by simp, hu.symm⟩
    | cons b p' =>
      obtain ⟨rfl, -⟩ := List.cons.inj hu
      exact absurd (List.mem_append_right _ List.mem_cons_self) hp

/-- If a text up to a quote is read as itself after some `z`, it is read character by character:
`z` gets no quote from what is read, and at the quote nothing of it may be left. -/
theorem readChars_aligned (h : readChars fuel (t ++ 34 :: u) = some (z ++ t, rest)) (hz : 34 ∉ z) :
    z = [] ∧ rest = u ∧ ∀ b ∈ t, 0x20 ≤ b ∧ b ≠ 34 ∧ b ≠ 92 := by
  induction hn : t.length using Nat.strong_induction_on generalizing t z fuel with
  | _ n ih =>
  subst hn
  cases t with
  | nil =>
    rw [List.nil_append, readChars] at h
    obtain ⟨hz, rfl⟩ := Prod.mk.inj (Option.some.inj h)
    rw [List.append_nil] at hz
    exact ⟨hz.symm, rfl, fun _ hb => absurd hb List.not_mem_nil⟩
  | cons a t =>
    by_cases ha : a = 34
    · subst ha
      rw [List.cons_append, readChars] at h
      have hnil := (Prod.mk.inj (Option.some.inj h)).1
      exact absurd (List.append_eq_nil_iff.mp hnil.symm).2 (List.cons_ne_nil _ _)
    have hquote : (a :: t ++ 34 :: u).head? ≠ some 34 := by
      rintro ⟨⟩
      exact ha rfl
    obtain ⟨_, c, text', s, hchar, hrest, hread⟩ := readChars_inv hquote h
    -- a piece `e` of the text that stands for `c` leaves what is read behind, and `z` moves on
    have hstep : ∀ e, 34 ∉ e → e ≠ [] → c.length ≤ e.length → a :: t ++ 34 :: u = e ++ text' →
        ∃ t', a :: t = e ++ t' ∧ (z ++ e).drop c.length = [] ∧ rest = u ∧ ∀ b ∈ t', 0x20 ≤ b ∧
          b ≠ 34 ∧ b ≠ 92 := by
      intro e he hne hlen htext
      obtain ⟨t', ht', rfl⟩ := append_before_quote he htext.symm
      have hlong : c.length ≤ (z ++ e).length := by
        rw [List.length_append]
        omega
      have hs : s = (z ++ e).drop c.length ++ t' := by
        have hdrop := congrArg (List.drop c.length) hread
        rwa [ht', ← List.append_assoc, List.drop_append_of_le_length hlong, List.drop_left, eq_comm]
          at hdrop
      have hquotes : 34 ∉ (z ++ e).drop c.length := fun hb =>
        (List.mem_append.mp (List.mem_of_mem_drop hb)).elim hz he
      have hlt : t'.length < (a :: t).length := by
        have := List.length_pos_iff.mpr hne
        rw [ht', List.length_append]
        omega
      obtain ⟨hnil, hrest, hplain⟩ := ih t'.length hlt (hs ▸ hrest) hquotes rfl
      exact ⟨t', ht', hnil, hrest, hplain⟩
    obtain ⟨htext, hne, hplain⟩ | rfl | ⟨e, htext, hlen, he⟩ := readChar_inv hquote hchar
    · obtain ⟨t', ht', hnil, hrest, hplain'⟩ :=
        hstep c (fun hb => (hplain 34 hb).2.1 rfl) hne le_rfl htext
      refine ⟨?_, hrest, fun b hb => ?_⟩
      · rw [List.drop_eq_nil_iff, List.length_append] at hnil
        exact List.length_eq_zero_iff.mp (by omega)
      · rw [ht', List.mem_append] at hb
        exact hb.elim (hplain b) (hplain' b)
    · cases z with
      | nil => exact absurd (List.cons.inj hread).1 ha
      | cons b z => exact absurd ((List.cons.inj hread).1 ▸ List.mem_cons_self) hz
    · have hne : e ≠ [] := List.length_pos_iff.mp (by omega)
      obtain ⟨t', -, hnil, -⟩ := hstep e he hne hlen.le htext
      rw [List.drop_eq_nil_iff, List.length_append] at hnil
      omega

end

/-- A key that may be written as it is. -/
def NoEscapes (k : Bytes) : Prop := ∀ b ∈ k, 0x20 ≤ b ∧ b ≠ 34 ∧ b ≠ 92

instance (k : Bytes) : Decidable (NoEscapes k) := List.decidableBAll _ k

namespace DynTree

def integerEntries (entries : List (Bytes × BitVec 64)) : List (Bytes × DynTree) :=
  entries.map fun e => (e.1, .plain .integer e.2)

def integerDict (entries : List (Bytes × BitVec 64)) : DynTree := .dict (integerEntries entries)

def integerRow (entries : List (Bytes × BitVec 64)) : DynTree :=
  .table (entries.map fun e => ⟨e.1, .integer⟩) [entries.map fun e => .plain .integer e.2]

end DynTree

open DynTree

variable {entries : List (Bytes × BitVec 64)} {text rest rest' : Bytes}
  {members : List (Bytes × Json)} {fuel : ℕ}

theorem writeEntries_cons (lib : CLib) (k : Bytes) (w : BitVec 64)
    (entries : List (Bytes × BitVec 64)) :
    writeEntries lib (integerEntries ((k, w) :: entries)) =
      if entries = [] then some (writeDictItem k (stringCast w.toInt))
      else (writeEntries lib (integerEntries entries)).map fun text =>
        writeDictItem k (stringCast w.toInt) ++ 44 :: text := by
  cases entries with
  | nil => rfl
  | cons e entries =>
    rw [if_neg (List.cons_ne_nil _ _), Option.map_eq_bind]
    rfl

theorem readMembers_head {k : Bytes}
    (h : Rfc8259.readMembers (fuel + 1) (writeDictItem k text) = some (members, rest)) :
    ∃ k' text', readString (k ++ 34 :: 58 :: text) = some (k', text') ∧
      (members.map Prod.fst).head? = some k' := by
  rw [writeDictItem_eq, Rfc8259.readMembers, skipWs_cons (by decide)] at h
  obtain ⟨⟨k', text₁⟩, hname, hcolon⟩ := Option.bind_eq_some_iff.mp h
  refine ⟨k', text₁, hname, ?_⟩
  simp only at hcolon
  split at hcolon
  · obtain ⟨⟨v, text₂⟩, -, hvalue⟩ := Option.bind_eq_some_iff.mp hcolon
    simp only at hvalue
    split at hvalue
    · obtain ⟨⟨others, text₃⟩, -, heq⟩ := Option.map_eq_some_iff.mp hvalue
      cases heq
      rfl
    · cases hvalue
      rfl
    · cases hvalue
  · cases hcolon

theorem noEscapes_of_readMembers {k : Bytes}
    (h : Rfc8259.readMembers (fuel + 1) (writeDictItem k text) = some (members, rest))
    (hname : (members.map Prod.fst).head? = some k) : NoEscapes k := by
  obtain ⟨k', text', hread, hhead⟩ := readMembers_head h
  obtain rfl : k = k' := Option.some_inj.mp (hname.symm.trans hhead)
  exact (readChars_aligned (z := []) hread List.not_mem_nil).2.2

theorem readMembers_noEscapes (lib : CLib) (hutf8 : ∀ e ∈ entries, Utf8 e.1) (hne : entries ≠ [])
    (hwrite : writeEntries lib (integerEntries entries) = some text)
    (hfuel : 2 * text.length + 1 ≤ fuel)
    (hread : Rfc8259.readMembers fuel (text ++ 125 :: rest) = some (members, rest'))
    (hnames : members.map Prod.fst = entries.map Prod.fst) : ∀ e ∈ entries, NoEscapes e.1 := by
  induction entries generalizing text members fuel with
  | nil => exact absurd rfl hne
  | cons e entries ih =>
    obtain ⟨k, w⟩ := e
    obtain ⟨fuel, rfl⟩ := Nat.exists_eq_succ_of_ne_zero (show fuel ≠ 0 by omega)
    have hhead : (members.map Prod.fst).head? = some k := by
      rw [hnames]
      rfl
    rw [writeEntries_cons] at hwrite
    by_cases hnil : entries = []
    · rw [if_pos hnil] at hwrite
      cases hwrite
      rw [writeDictItem_append] at hread
      intro e he
      rw [hnil, List.mem_singleton] at he
      exact he ▸ noEscapes_of_readMembers hread hhead
    · rw [if_neg hnil] at hwrite
      obtain ⟨texts, hwrites, rfl⟩ := Option.map_eq_some_iff.mp hwrite
      have hlen := writeDictItem_length k (stringCast w.toInt)
      rw [List.length_append, List.length_cons] at hfuel
      rw [List.append_assoc, List.cons_append, writeDictItem_append] at hread
      have hk := noEscapes_of_readMembers hread hhead
      rw [readMembers_key ⟨hutf8 (k, w) List.mem_cons_self, hk⟩,
        (written_integer w).reads fuel _ (by omega) (numberEnds_cons (by decide) _)] at hread
      obtain ⟨⟨others, text'⟩, hothers, heq⟩ := Option.map_eq_some_iff.mp
        (show (Rfc8259.readMembers fuel (texts ++ 125 :: rest)).map _ = _ from hread)
      cases heq
      rw [List.forall_mem_cons]
      exact ⟨hk, ih (fun e he => hutf8 e (List.mem_cons_of_mem _ he)) hnil hwrites (by omega)
        hothers (List.cons.inj hnames).2⟩

/-- The text is one object with these names. -/
def NamesObject (text : Option Bytes) (keys : List Bytes) : Prop :=
  ∃ members, text.bind readText = some (.object members) ∧ members.map Prod.fst = keys

/-- The text is a list of one object with these names. -/
def NamesRow (text : Option Bytes) (keys : List Bytes) : Prop :=
  ∃ members, text.bind readText = some (.array [.object members]) ∧ members.map Prod.fst = keys

theorem jsonEntries_integerEntries (entries : List (Bytes × BitVec 64)) :
    jsonEntries (integerEntries entries) = entries.map fun e =>
      (e.1, .number (stringCast e.2.toInt)) := by
  induction entries with
  | nil => rfl
  | cons e entries ih => exact congrArg (_ :: ·) ih

theorem stringCast_word_injective {v w : BitVec 64} (h : stringCast v.toInt = stringCast w.toInt) :
    v = w := by
  have hbounds : ∀ x : BitVec 64, strtoll (stringCast x.toInt) = (x.toInt, false) := fun x =>
    strtoll_stringCast (BitVec.le_toInt x) (Int.le_sub_one_of_lt (BitVec.toInt_lt (x := x)))
  have hint : (v.toInt, false) = (w.toInt, false) := by rw [← hbounds, h, hbounds]
  exact BitVec.eq_of_toInt_eq (Prod.mk.inj hint).1

theorem jsonEntries_injective {d₁ d₂ : List (Bytes × BitVec 64)}
    (h : jsonEntries (integerEntries d₁) = jsonEntries (integerEntries d₂)) : d₁ = d₂ := by
  rw [jsonEntries_integerEntries, jsonEntries_integerEntries] at h
  refine List.map_injective_iff.mpr (fun e e' he => ?_) h
  obtain ⟨hkey, hnumber⟩ := Prod.mk.inj he
  exact Prod.ext hkey (stringCast_word_injective (Json.number.inj hnumber))

theorem writeEntries_begins (lib : CLib) (hne : entries ≠ []) :
    ∃ cs, writeEntries lib (integerEntries entries) = some (34 :: cs) := by
  induction entries with
  | nil => exact absurd rfl hne
  | cons e entries ih =>
    rw [writeEntries_cons]
    split_ifs with hnil
    · exact ⟨_, rfl⟩
    · obtain ⟨cs, hcs⟩ := ih hnil
      rw [hcs]
      exact ⟨_, rfl⟩

theorem toJson_integerDict (lib : CLib) (hne : entries ≠ []) :
    (integerDict entries).toJson lib = (writeEntries lib (integerEntries entries)).map fun text =>
      123 :: text ++ [125] := by
  cases entries with
  | nil => exact absurd rfl hne
  | cons e entries =>
    rw [Option.map_eq_bind]
    rfl

theorem toJson_integerRow (lib : CLib) (hne : entries ≠ []) :
    (integerRow entries).toJson lib = ((integerDict entries).toJson lib).map fun text =>
      91 :: text ++ [93] := by
  have hrow : ∀ entries : List (Bytes × BitVec 64), entries ≠ [] →
      writeTableRow lib (entries.map fun e => ⟨e.1, .integer⟩)
        (entries.map fun e => .plain .integer e.2) =
        (writeEntries lib (integerEntries entries)).map (· ++ [125]) := by
    intro entries hne
    induction entries with
    | nil => exact absurd rfl hne
    | cons e entries ih =>
      rw [writeEntries_cons]
      cases entries with
      | nil => rfl
      | cons e' entries =>
        have hrest := ih (List.cons_ne_nil _ _)
        rw [List.map_cons, List.map_cons] at hrest
        rw [if_neg (List.cons_ne_nil _ _), List.map_cons, List.map_cons, List.map_cons,
          List.map_cons, writeTableRow, hrest]
        · cases writeEntries lib (integerEntries (e' :: entries)) with
          | none => rfl
          | some text =>
            refine congrArg some ?_
            show writeDictItem e.1 (stringCast e.2.toInt) ++ 44 :: (text ++ [125]) =
              writeDictItem e.1 (stringCast e.2.toInt) ++ 44 :: text ++ [125]
            rw [List.append_assoc, List.cons_append]
        · exact nofun
  obtain ⟨cs, hcs⟩ := writeEntries_begins lib hne
  rw [integerRow, toJson, writeTableRows, hrow entries hne, toJson_integerDict lib hne, hcs]
  rfl

theorem noEscapes_of_object (lib : CLib) (hutf8 : ∀ e ∈ entries, Utf8 e.1)
    (hwrite : (integerDict entries).toJson lib = some text) (hfuel : 2 * text.length ≤ fuel)
    (hread : readValue fuel (text ++ rest) = some (.object members, rest'))
    (hnames : members.map Prod.fst = entries.map Prod.fst) : ∀ e ∈ entries, NoEscapes e.1 := by
  by_cases hne : entries = []
  · subst hne
    exact fun e he => absurd he List.not_mem_nil
  obtain ⟨cs, hcs⟩ := writeEntries_begins lib hne
  rw [toJson_integerDict lib hne, hcs] at hwrite
  cases hwrite
  rw [List.length_append, List.length_cons] at hfuel
  obtain ⟨fuel, rfl⟩ := Nat.exists_eq_succ_of_ne_zero (show fuel ≠ 0 by omega)
  rw [List.append_assoc, List.cons_append, List.cons_append, readValue_members] at hread
  obtain ⟨⟨others, text'⟩, hothers, heq⟩ := Option.map_eq_some_iff.mp hread
  cases heq
  exact readMembers_noEscapes lib hutf8 hne hcs (by omega) hothers hnames

theorem integerDict_written (lib : CLib) (hutf8 : ∀ e ∈ entries, Utf8 e.1)
    (hplain : ∀ e ∈ entries, NoEscapes e.1) :
    ∃ text, (integerDict entries).toJson lib = some text ∧ Written (integerDict entries) text := by
  by_cases hne : entries = []
  · subst hne
    exact toJson_written lib (.dict [])
      (.dict (sorted_nil _) (fun _ h => absurd h List.not_mem_nil) fun _ h =>
        absurd h List.not_mem_nil)
  have hmem : ∀ e ∈ integerEntries entries, PlainKey e.1 ∧ Writable e.2 := by
    intro e he
    obtain ⟨e', he', rfl⟩ := List.mem_map.mp he
    exact ⟨⟨hutf8 e' he', hplain e' he'⟩, .integer _⟩
  obtain ⟨cs, hwrite, hwritten⟩ :=
    writeEntries_written lib (integerEntries entries) (mt List.map_eq_nil_iff.mp hne)
    (fun e he => (hmem e he).1) fun e he => (hmem e he).2
  exact ⟨_, by rw [toJson_integerDict lib hne, hwrite]; rfl, written_dict hwritten⟩

theorem namesObject_iff (lib : CLib) (hutf8 : ∀ e ∈ entries, Utf8 e.1) :
    NamesObject ((integerDict entries).toJson lib) (entries.map Prod.fst) ↔
      ∀ e ∈ entries, NoEscapes e.1 := by
  constructor
  · rintro ⟨members, htext, hnames⟩
    obtain ⟨text, hwrite, hread⟩ := Option.bind_eq_some_iff.mp htext
    rw [readText] at hread
    split at hread
    · rename_i v rest hvalue
      split_ifs at hread
      cases hread
      exact noEscapes_of_object lib hutf8 hwrite (Nat.le_succ _) (by rwa [List.append_nil]) hnames
    · cases hread
  · intro hplain
    obtain ⟨text, hwrite, hwritten⟩ := integerDict_written lib hutf8 hplain
    refine ⟨jsonEntries (integerEntries entries), ?_, ?_⟩
    · rw [hwrite]
      exact readText_written hwritten
    · rw [jsonEntries_integerEntries, List.map_map]
      rfl

theorem readItems_head {v : Json} {items : List Json}
    (h : Rfc8259.readItems fuel text = some (v :: items, rest)) :
    ∃ fuel' rest', fuel = fuel' + 1 ∧ readValue fuel' text = some (v, rest') := by
  cases fuel with
  | zero => cases h
  | succ fuel =>
    obtain ⟨⟨v', text'⟩, hvalue, hitems⟩ := Option.bind_eq_some_iff.mp h
    refine ⟨fuel, text', rfl, ?_⟩
    simp only at hitems
    split at hitems
    · obtain ⟨⟨others, text''⟩, -, heq⟩ := Option.map_eq_some_iff.mp hitems
      cases heq
      exact hvalue
    · cases hitems
      exact hvalue
    · cases hitems

theorem namesRow_iff (lib : CLib) (hutf8 : ∀ e ∈ entries, Utf8 e.1) (hne : entries ≠ []) :
    NamesRow ((integerRow entries).toJson lib) (entries.map Prod.fst) ↔
      ∀ e ∈ entries, NoEscapes e.1 := by
  rw [toJson_integerRow lib hne]
  constructor
  · rintro ⟨members, htext, hnames⟩
    obtain ⟨text, hwrite, hread⟩ := Option.bind_eq_some_iff.mp htext
    obtain ⟨object, hobject, rfl⟩ := Option.map_eq_some_iff.mp hwrite
    obtain ⟨cs, rfl⟩ : ∃ cs, object = 123 :: cs := by
      obtain ⟨cs, hcs⟩ := writeEntries_begins lib hne
      rw [toJson_integerDict lib hne, hcs] at hobject
      exact ⟨_, (Option.some_inj.mp hobject).symm⟩
    rw [readText] at hread
    split at hread
    · rename_i v rest hvalue
      split_ifs at hread
      cases hread
      rw [List.cons_append, List.cons_append, readValue_items (by decide) (by decide)] at hvalue
      obtain ⟨⟨items, text'⟩, hitems, heq⟩ := Option.map_eq_some_iff.mp hvalue
      cases heq
      obtain ⟨fuel, rest', hfuel, hread⟩ := readItems_head hitems
      simp only [List.length_cons, List.length_append] at hfuel
      exact noEscapes_of_object lib hutf8 hobject (by simp only [List.length_cons]; omega) hread
        hnames
    · cases hread
  · intro hplain
    obtain ⟨text, hwrite, hwritten⟩ := integerDict_written lib hutf8 hplain
    refine ⟨jsonEntries (integerEntries entries), ?_, ?_⟩
    · rw [hwrite]
      exact readText_written (written_list hwritten.begins (writtenItems_last hwritten))
    · rw [jsonEntries_integerEntries, List.map_map]
      rfl

theorem entries_eq_of_toJson_eq (lib : CLib) {d₁ d₂ : List (Bytes × BitVec 64)}
    (h₁ : ∀ e ∈ d₁, Utf8 e.1 ∧ NoEscapes e.1) (h₂ : ∀ e ∈ d₂, Utf8 e.1 ∧ NoEscapes e.1)
    (h : (integerDict d₁).toJson lib = (integerDict d₂).toJson lib) : d₁ = d₂ := by
  obtain ⟨text₁, hwrite₁, hwritten₁⟩ :=
    integerDict_written lib (fun e he => (h₁ e he).1) fun e he => (h₁ e he).2
  obtain ⟨text₂, hwrite₂, hwritten₂⟩ :=
    integerDict_written lib (fun e he => (h₂ e he).1) fun e he => (h₂ e he).2
  obtain rfl : text₁ = text₂ := Option.some_inj.mp (hwrite₁.symm.trans (h.trans hwrite₂))
  have hjson :=
    Option.some_inj.mp ((readText_written hwritten₁).symm.trans (readText_written hwritten₂))
  exact jsonEntries_injective (Json.object.inj hjson)

theorem integerDict_eq_refl (lib : CLib) (entries : List (Bytes × BitVec 64)) :
    (integerDict entries).eq lib (integerDict entries) = true := by
  refine Clonable.eq_refl lib (.dict fun e he => ?_)
  obtain ⟨e', -, rfl⟩ := List.mem_map.mp he
  exact .plain nofun nofun trivial

theorem integerRow_eq_refl (lib : CLib) (entries : List (Bytes × BitVec 64)) :
    (integerRow entries).eq lib (integerRow entries) = true := by
  refine Clonable.eq_refl lib (.table (fun row hrow => ?_) fun row hrow c hc => ?_)
  · rw [List.mem_singleton.mp hrow, List.map_map, List.map_map]
    rfl
  · rw [List.mem_singleton.mp hrow] at hc
    obtain ⟨e', -, rfl⟩ := List.mem_map.mp hc
    trivial

/-- Two dicts of integers, or two tables of one row, are told apart by their texts, and the
texts name their keys, exactly if no key has a quote, a backslash or a control character. -/
theorem keys_survive_iff (lib : CLib) {d₁ d₂ : List (Bytes × BitVec 64)} (h₁ : ∀ e ∈ d₁, Utf8 e.1)
    (h₂ : ∀ e ∈ d₂, Utf8 e.1) :
    ((((integerDict d₁).toJson lib = (integerDict d₂).toJson lib →
      (integerDict d₁).eq lib (integerDict d₂) = true) ∧
        NamesObject ((integerDict d₁).toJson lib) (d₁.map Prod.fst) ∧
        NamesObject ((integerDict d₂).toJson lib) (d₂.map Prod.fst)) ↔
          ∀ e ∈ d₁ ++ d₂, NoEscapes e.1) ∧
    (d₁ ≠ [] → d₂ ≠ [] →
      ((((integerRow d₁).toJson lib = (integerRow d₂).toJson lib →
        (integerRow d₁).eq lib (integerRow d₂) = true) ∧
        NamesRow ((integerRow d₁).toJson lib) (d₁.map Prod.fst) ∧
        NamesRow ((integerRow d₂).toJson lib) (d₂.map Prod.fst)) ↔
          ∀ e ∈ d₁ ++ d₂, NoEscapes e.1)) := by
  have hsame : (∀ e ∈ d₁ ++ d₂, NoEscapes e.1) → (integerDict d₁).toJson lib =
      (integerDict d₂).toJson lib → d₁ = d₂ :=
    fun h => entries_eq_of_toJson_eq lib (fun e he => ⟨h₁ e he, h e (List.mem_append_left _ he)⟩)
      fun e he => ⟨h₂ e he, h e (List.mem_append_right _ he)⟩
  constructor
  · rw [namesObject_iff lib h₁, namesObject_iff lib h₂, ← List.forall_mem_append]
    refine ⟨And.right, fun h => ⟨fun htext => ?_, h⟩⟩
    rw [hsame h htext]
    exact integerDict_eq_refl lib d₂
  · intro hne₁ hne₂
    rw [namesRow_iff lib h₁ hne₁, namesRow_iff lib h₂ hne₂, ← List.forall_mem_append]
    refine ⟨And.right, fun h => ⟨fun htext => ?_, h⟩⟩
    rw [toJson_integerRow lib hne₁, toJson_integerRow lib hne₂] at htext
    have hinjective : Function.Injective fun text : Bytes => 91 :: text ++ [93] :=
      fun _ _ heq => List.append_cancel_right (List.cons.inj heq).2
    rw [hsame h (Option.map_injective hinjective htext)]
    exact integerRow_eq_refl lib d₂

theorem keys_survive_plain :
    (∀ e ∈ [(([0xC3, 0xA9] : Bytes), (1 : BitVec 64))], Utf8 e.1) ∧
      (∀ e ∈ [(ascii "b", (2 : BitVec 64))], Utf8 e.1) ∧
    NamesObject
      ((integerDict [([0xC3, 0xA9], 1)]).toJson ⟨fun _ => 0, fun _ => [], fun _ => [], fun _ => 0,
        fun _ => 0⟩)
      [[0xC3, 0xA9]] := by
  have h₁ : ∀ e ∈ [(([0xC3, 0xA9] : Bytes), (1 : BitVec 64))], Utf8 e.1 := by
    intro e he
    rw [List.mem_singleton.mp he]
    exact .cons (c := [0xC3, 0xA9]) (by decide) .nil
  have h₂ : ∀ e ∈ [(ascii "b", (2 : BitVec 64))], Utf8 e.1 := by
    intro e he
    rw [List.mem_singleton.mp he]
    exact utf8_of_ascii (List.forall_iff_forall_mem.mp (by decide))
  exact ⟨h₁, h₂, ((keys_survive_iff _ h₁ h₂).1.mpr (by decide)).2.1⟩

/-- A key with quotes in it is read as two members, and its text is that of a dict with two keys. -/
theorem key_with_quotes_read_as_two :
    Utf8 (ascii "a\":1,\"b") ∧
    (integerDict [(ascii "a\":1,\"b", 2)]).toJson ⟨fun _ => 0, fun _ => [], fun _ => [], fun _ => 0,
      fun _ => 0⟩ =
      (integerDict [(ascii "a", 1), (ascii "b", 2)]).toJson ⟨fun _ => 0, fun _ => [], fun _ => [],
        fun _ => 0, fun _ => 0⟩ ∧
    (integerDict [(ascii "a\":1,\"b", 2)]).eq ⟨fun _ => 0, fun _ => [], fun _ => [], fun _ => 0,
      fun _ => 0⟩
      (integerDict [(ascii "a", 1), (ascii "b", 2)]) = false :=
  ⟨utf8_of_ascii (List.forall_iff_forall_mem.mp (by decide)), by rfl, by rfl⟩

end Nkit
