import Nkit.Base.Spans
import Nkit.Xml.Grammar
import Nkit.Xml.Var2Xml

/-! How the pieces of a written document are read: characters, escapes, sections, attributes and
elements, each whatever comes after it. -/

namespace Nkit
open XmlGrammar

section Characters
variable {x : UInt8} {p a b s : Bytes}

theorem isXmlText_cons (p : Bytes) (y : UInt8) (s : Bytes) :
    isXmlText p (y :: s) =
      if isXmlChar (p ++ [y]) then isXmlText [] s else if p.length < 3 then isXmlText (p ++ [y]) s
        else false := rfl

theorem isXmlText_append (h : isXmlText p a = true) (b : Bytes) :
    isXmlText p (a ++ b) = isXmlText [] b := by
  induction a generalizing p with
  | nil => rw [List.isEmpty_iff.mp h, List.nil_append]
  | cons y a ih =>
    rw [isXmlText_cons] at h
    rw [List.cons_append, isXmlText_cons]
    split_ifs at h ⊢ with hc hp
    · exact ih h
    · exact ih h

theorem not_isXmlChar_of_ascii (hx : x < 0x80) (hne : p ≠ [] ∨ s ≠ []) :
    isXmlChar (p ++ x :: s) = false := by
  have hutf : isUtf8Char (p ++ x :: s) = false := by
    by_contra h
    have h := Bool.eq_true_of_not_eq_false h
    cases p with
    | nil =>
      have hlen := isUtf8Char_length h
      rw [if_pos hx] at hlen
      exact hne.elim (fun h => h rfl) fun h => h (List.length_eq_zero_iff.mp hlen)
    | cons y p =>
      have hy : ¬y < 0x80 := by
        intro hy
        have hlen := isUtf8Char_length h
        rw [if_pos hy] at hlen
        simp at hlen
      have := tail_of_utf8Char h hy x (by simp)
      exact absurd hx (UInt8.not_lt.mpr this)
  rw [isXmlChar, hutf]
  rfl

theorem isXmlText_dead (hp : p ≠ []) (h : ∀ s, s ≠ [] → isXmlChar (p ++ s) = false) (b : Bytes) :
    isXmlText p b = false := by
  induction b generalizing p with
  | nil => exact List.isEmpty_eq_false_iff.mpr hp
  | cons y b ih =>
    rw [isXmlText_cons, if_neg (by rw [h [y] (List.cons_ne_nil _ _)]; exact Bool.false_ne_true)]
    split_ifs
    · refine ih (by simp) fun s hs => ?_
      rw [List.append_assoc]
      exact h _ (by simp)
    · rfl

theorem isXmlText_ascii (hx : x < 0x80) (p a b : Bytes) :
    isXmlText p (a ++ x :: b) = (isXmlText p a && isXmlChar [x] && isXmlText [] b) := by
  induction a generalizing p with
  | nil =>
    rw [List.nil_append, isXmlText_cons, isXmlText]
    by_cases hp : p = []
    · subst hp
      cases hc : isXmlChar [x] with
      | true => simp [hc]
      | false =>
        have hdead :=
          isXmlText_dead (p := [x]) (by simp)
            (fun s hs => not_isXmlChar_of_ascii (p := []) hx (.inr hs)) b
        simp [hc, hdead]
    · have hc : isXmlChar (p ++ [x]) = false := not_isXmlChar_of_ascii hx (.inl hp)
      have hdead : isXmlText (p ++ [x]) b = false := by
        refine isXmlText_dead (by simp) (fun s _ => ?_) b
        rw [List.append_assoc]
        exact not_isXmlChar_of_ascii hx (.inl hp)
      simp [hc, hdead, hp]
  | cons y a ih =>
    rw [List.cons_append, isXmlText_cons, isXmlText_cons]
    split_ifs
    · exact ih []
    · exact ih _
    · rfl

theorem xmlText_nil : XmlText [] := rfl

theorem XmlText.append (ha : XmlText a) (hb : XmlText b) :
    XmlText (a ++ b) := (isXmlText_append ha b).trans hb

theorem xmlText_ascii (hx : x < 0x80) :
    XmlText (a ++ x :: b) ↔ XmlText a ∧ isXmlChar [x] = true ∧ XmlText b := by
  rw [XmlText, isXmlText_ascii hx, Bool.and_eq_true, Bool.and_eq_true, and_assoc]
  rfl

theorem xmlText_append_iff (ha : ∀ x ∈ a.getLast?, x < 0x80) :
    XmlText (a ++ b) ↔ XmlText a ∧ XmlText b := by
  refine ⟨fun h => ?_, fun h => h.1.append h.2⟩
  rcases List.eq_nil_or_concat a with rfl | ⟨a', x, rfl⟩
  · exact ⟨xmlText_nil, h⟩
  · have hx : x < 0x80 := ha x (by simp)
    rw [List.concat_eq_append, List.append_assoc, List.singleton_append, xmlText_ascii hx] at h
    rw [List.concat_eq_append, xmlText_ascii hx]
    exact ⟨⟨h.1, h.2.1, xmlText_nil⟩, h.2.2⟩

def isPlain (word : Bytes) : Bool := !word.isEmpty && word.all fun b => b < 0x80 && isXmlChar [b]

theorem xmlText_plain {word : Bytes} (h : isPlain word = true) :
    XmlText (a ++ word ++ b) ↔ XmlText a ∧ XmlText b := by
  rw [isPlain, Bool.and_eq_true, List.all_eq_true] at h
  obtain ⟨hne, hall⟩ := h
  induction word generalizing a with
  | nil => cases hne
  | cons x word ih =>
    have hx := hall x List.mem_cons_self
    rw [Bool.and_eq_true, decide_eq_true_eq] at hx
    rw [List.append_assoc, List.cons_append, xmlText_ascii hx.1, and_iff_right hx.2]
    cases word with
    | nil => rfl
    | cons y word =>
      have hrest := ih (a := []) rfl fun b hb => hall b (List.mem_cons_of_mem _ hb)
      rw [List.nil_append] at hrest
      rw [hrest, and_iff_right xmlText_nil]

theorem xmlText_of_isPlain {word : Bytes} (h : isPlain word = true) : XmlText word := by
  have := xmlText_plain (a := []) (b := []) h
  rw [List.append_nil, List.nil_append] at this
  exact this.mpr ⟨xmlText_nil, xmlText_nil⟩

theorem isXmlChar_of_isNameByte (hx : x < 0x80) (h : isNameByte x = true) :
    isXmlChar [x] = true := by
  have hge : 0x20 ≤ x := by
    simp only [isNameByte, Bool.or_eq_true, Bool.and_eq_true, decide_eq_true_eq, beq_iff_eq] at h
    grind
  have hutf : isUtf8Char [x] = true := decide_eq_true hx
  have hall : [x].head?.all (0x20 ≤ ·) = true := decide_eq_true hge
  rw [isXmlChar, hutf, hall]
  simp

theorem isXmlText_flatMap {f : UInt8 → Bytes}
    (hf : ∀ b, f b = [b] ∨ (b < 0x80 ∧ isXmlChar [b] = true ∧ isPlain (f b) = true)) (p s : Bytes) :
    isXmlText p (s.flatMap f) = isXmlText p s := by
  induction s generalizing p with
  | nil => rfl
  | cons b s ih =>
    rw [List.flatMap_cons]
    rcases hf b with hb | ⟨hb, hchar, hplain⟩
    · rw [hb, List.singleton_append, isXmlText_cons, isXmlText_cons, ih, ih]
    · have hright := isXmlText_ascii hb p [] s
      rw [List.nil_append] at hright
      rw [hright, hchar, ← ih []]
      by_cases hp : p = []
      · subst hp
        have := xmlText_plain (a := []) (b := s.flatMap f) hplain
        rw [List.nil_append, and_iff_right xmlText_nil] at this
        simpa [isXmlText] using Bool.eq_iff_iff.mpr this
      · rw [isPlain, Bool.and_eq_true, List.all_eq_true] at hplain
        cases hword : f b with
        | nil => rw [hword] at hplain; cases hplain.1
        | cons x word =>
          have hx := hplain.2 x (by rw [hword]; exact List.mem_cons_self)
          rw [Bool.and_eq_true, decide_eq_true_eq] at hx
          have hleft := isXmlText_ascii hx.1 p [] (word ++ s.flatMap f)
          rw [List.nil_append] at hleft
          rw [List.cons_append, hleft]
          have hnil : isXmlText p [] = false := List.isEmpty_eq_false_iff.mpr hp
          rw [hnil]
          rfl

def asciiNames : NameTable where
  isName n := n.all (fun b => isNameByte b && b < 0x80) && n.head?.any fun b =>
    !(48 ≤ b && b ≤ 57 || b == 45 || b == 46)
  bytes n h := by
    rw [Bool.and_eq_true, List.all_eq_true] at h
    refine ⟨?_, fun b hb => ((Bool.and_eq_true _ _).mp (h.1 b hb)).1⟩
    rintro rfl
    exact absurd h.2 Bool.false_ne_true
  text n h := by
    rw [Bool.and_eq_true, List.all_eq_true] at h
    refine xmlText_of_isPlain ?_
    rw [isPlain, Bool.and_eq_true, List.all_eq_true]
    refine ⟨?_, fun b hb => ?_⟩
    · cases n with
      | nil => exact absurd h.2 Bool.false_ne_true
      | cons b n => rfl
    · have hb := h.1 b hb
      rw [Bool.and_eq_true, decide_eq_true_eq] at hb
      rw [Bool.and_eq_true, decide_eq_true_eq]
      exact ⟨hb.2, isXmlChar_of_isNameByte hb.2 hb.1⟩

end Characters

namespace XmlContent

def append : XmlContent → XmlContent → XmlContent
  | nil, c => c
  | text s rest, c => text s (rest.append c)
  | element name attrs body rest, c => element name attrs body (rest.append c)

theorem append_assoc (a b c : XmlContent) : (a.append b).append c = a.append (b.append c) := by
  induction a with
  | nil => rfl
  | text s rest ih => simp only [append, ih]
  | element name attrs body rest _ ih => simp only [append, ih]

theorem append_nil (a : XmlContent) : a.append nil = a := by
  induction a with
  | nil => rfl
  | text s rest ih => simp only [append, ih]
  | element name attrs body rest _ ih => simp only [append, ih]

@[simp] theorem characters_append (a b : XmlContent) :
    (a.append b).characters = a.characters ++ b.characters := by
  induction a with
  | nil => rfl
  | text s rest ih => simp only [append, characters, ih, List.append_assoc]
  | element name attrs body rest _ ih => simp only [append, characters, ih]

@[simp] theorem hasElements_append (a b : XmlContent) :
    (a.append b).hasElements = (a.hasElements || b.hasElements) := by
  induction a with
  | nil => rfl
  | text s rest ih => simp only [append, hasElements, ih]
  | element name attrs body rest _ _ => rfl

@[simp] theorem addTo_append (o : Options) (a b : XmlContent) (d : List (Bytes × Value)) :
    (a.append b).addTo o d = b.addTo o (a.addTo o d) := by
  induction a generalizing d with
  | nil => rfl
  | text s rest ih => simp only [append, addTo, ih]
  | element name attrs body rest _ ih => simp only [append, addTo, ih]

structure IsText (c : XmlContent) (s : Bytes) : Prop where
  elements : c.hasElements = false
  characters : c.characters = s

theorem IsText.addTo {c : XmlContent} {s : Bytes} (h : c.IsText s) (o : Options)
    (d : List (Bytes × Value)) :
    c.addTo o d = d := by
  obtain ⟨h, -⟩ := h
  induction c with
  | nil => rfl
  | text s rest ih => exact ih h
  | element name attrs body rest _ _ => cases h

theorem isText_nil : nil.IsText [] := ⟨rfl, rfl⟩

theorem isText_text (s : Bytes) : (text s nil).IsText s := ⟨rfl, List.append_nil s⟩

theorem IsText.append {a b : XmlContent} {s t : Bytes} (ha : a.IsText s) (hb : b.IsText t) :
    (a.append b).IsText (s ++ t) :=
  ⟨by simp [ha.elements, hb.elements], by simp [ha.characters, hb.characters]⟩

end XmlContent

section Reading
variable {names : NameTable} {w w' text rest : Bytes} {c c' : XmlContent}

theorem skip_append (word text : Bytes) : skip word (word ++ text) = some text := by
  have hstarts : word.isPrefixOf (word ++ text) = true :=
    List.isPrefixOf_iff_prefix.mpr (List.prefix_append _ _)
  rw [skip, if_pos hstarts, List.drop_left]

theorem skip_eq_none (h : ¬w <+: text) :
    skip w text = none := if_neg fun hp => h (List.isPrefixOf_iff_prefix.mp hp)

def Reading (names : NameTable) (text : Bytes) (c : XmlContent) (rest : Bytes) : Prop :=
  ∀ fuel, text.length < fuel → readContent names fuel text = some (c, rest)

def ReadsAs (names : NameTable) (w : Bytes) (c : XmlContent) : Prop :=
  ∀ ⦃text c' rest⦄, Reading names text c' rest → Reading names (w ++ text) (c.append c') rest

def Follows (text : Bytes) : Prop := text.head? ≠ some 93 ∧ text.head? ≠ some 62

def ReadsLast (names : NameTable) (w : Bytes) (c : XmlContent) : Prop :=
  ∀ ⦃text c' rest⦄, Follows text → Reading names text c' rest →
    Reading names (w ++ text) (c.append c') rest

theorem ReadsAs.last (h : ReadsAs names w c) : ReadsLast names w c := fun _ _ _ _ hr => h hr

theorem readsAs_nil : ReadsAs names [] .nil := fun _ _ _ h => h

theorem ReadsAs.append (h : ReadsAs names w c) (h' : ReadsAs names w' c') :
    ReadsAs names (w ++ w') (c.append c') := by
  intro text c'' rest hr
  rw [List.append_assoc, XmlContent.append_assoc]
  exact h (h' hr)

theorem ReadsAs.append_last (h : ReadsAs names w c) (h' : ReadsLast names w' c') :
    ReadsLast names (w ++ w') (c.append c') := by
  intro text c'' rest hf hr
  rw [List.append_assoc, XmlContent.append_assoc]
  exact h (h' hf hr)

theorem reading_stop (h : ascii "</" <+: text) : Reading names text .nil text := by
  intro fuel hfuel
  obtain ⟨fuel, rfl⟩ := Nat.exists_eq_succ_of_ne_zero (Nat.ne_zero_of_lt hfuel)
  obtain ⟨rest, rfl⟩ := h
  rfl

theorem readContent_char {b : UInt8} (hlt : b ≠ 60) (hamp : b ≠ 38)
    (hend : ¬ascii "]]>" <+: b :: text) (h : Reading names text c rest) :
    Reading names (b :: text) (.text [b] c) rest := by
  intro fuel hfuel
  obtain ⟨fuel, rfl⟩ := Nat.exists_eq_succ_of_ne_zero (Nat.ne_zero_of_lt hfuel)
  have hstarts : ¬(ascii "]]>").isPrefixOf (b :: text) = true := fun hp =>
    hend (List.isPrefixOf_iff_prefix.mp hp)
  have hrest := h fuel (Nat.lt_of_succ_lt_succ hfuel)
  rw [readContent]
  simp only [if_neg hlt, if_neg hamp, if_neg hstarts, hrest]
  rfl

theorem readReference_append {e : Bytes} {b : UInt8} (he : (e, b) ∈ entities) (text : Bytes) :
    readReference (e ++ text) = some (b, text) := by
  simp only [entities, List.mem_cons, List.not_mem_nil, or_false] at he
  rcases he with he | he | he | he | he
  all_goals cases he; rfl

theorem readContent_reference {e : Bytes} {b : UInt8} (he : (e, b) ∈ entities)
    (h : Reading names text c rest) :
    Reading names (38 :: e ++ text) (.text [b] c) rest := by
  intro fuel hfuel
  obtain ⟨fuel, rfl⟩ := Nat.exists_eq_succ_of_ne_zero (Nat.ne_zero_of_lt hfuel)
  have hlen : text.length < fuel := by
    simp only [List.cons_append, List.length_cons, List.length_append] at hfuel
    omega
  have hrest := h fuel hlen
  rw [List.cons_append, readContent]
  simp only [readReference_append he, Option.bind_eq_bind, Option.bind_some, hrest]
  rfl

theorem spetialChar_cases (b : UInt8) :
    (spetialChar b = [b] ∧ b ≠ 60 ∧ b ≠ 62 ∧ b ≠ 38) ∨ ∃ e, spetialChar b = 38 :: e ∧
      (e, b) ∈ entities := by
  by_cases h : b ∈ ([60, 62, 38, 34, 39] : Bytes)
  · right
    simp only [List.mem_cons, List.not_mem_nil, or_false] at h
    rcases h with rfl | rfl | rfl | rfl | rfl
    all_goals exact ⟨_, rfl, by decide⟩
  · left
    simp only [List.mem_cons, List.not_mem_nil, or_false, not_or] at h
    obtain ⟨h₁, h₂, h₃, h₄, h₅⟩ := h
    refine ⟨?_, h₁, h₂, h₃⟩
    rw [spetialChar, if_neg h₁, if_neg h₂, if_neg h₃, if_neg h₄, if_neg h₅]

theorem escapeText_head (s : Bytes) (h : text.head? ≠ some 62) :
    (escapeText s ++ text).head? ≠ some 62 := by
  cases s with
  | nil => exact h
  | cons b s =>
    rw [escapeText, List.flatMap_cons, List.append_assoc]
    rcases spetialChar_cases b with ⟨hb, -, hne, -⟩ | ⟨e, hb, -⟩
    · rw [hb]
      intro heq
      exact hne (Option.some.inj heq)
    · rw [hb]
      simp

/-- An escaped text never has a raw `>`, so no section ends in it. -/
theorem escapeText_open (b : UInt8) (s : Bytes) (hf : Follows text) :
    ¬ascii "]]>" <+: b :: (escapeText s ++ text) := by
  rintro ⟨r, hr⟩
  have hr : (93 : UInt8) :: 93 :: 62 :: r = b :: (escapeText s ++ text) := hr
  have htail := (List.cons.inj hr).2
  cases s with
  | nil =>
    exact hf.1 (by rw [escapeText, List.flatMap_nil, List.nil_append] at htail; rw [← htail]; rfl)
  | cons b' s =>
    rw [escapeText, List.flatMap_cons, List.append_assoc] at htail
    rcases spetialChar_cases b' with ⟨hb, -⟩ | ⟨e, hb, -⟩
    · rw [hb, List.singleton_append] at htail
      exact escapeText_head s hf.2 (by rw [escapeText, ← (List.cons.inj htail).2]; rfl)
    · rw [hb] at htail
      exact absurd (List.cons.inj htail).1 (by decide)

theorem readsLast_escapeText (names : NameTable) (s : Bytes) :
    ∃ c, c.IsText s ∧ ReadsLast names (escapeText s) c := by
  induction s with
  | nil => exact ⟨.nil, XmlContent.isText_nil, fun _ _ _ _ h => h⟩
  | cons b s ih =>
    obtain ⟨c, hc, hreads⟩ := ih
    refine ⟨.text [b] c, ⟨hc.elements, congrArg (b :: ·) hc.characters⟩,
      fun text c' rest hf h => ?_⟩
    have hrest := hreads hf h
    rw [escapeText, List.flatMap_cons, List.append_assoc]
    rcases spetialChar_cases b with ⟨hb, hlt, -, hamp⟩ | ⟨e, hb, he⟩
    · rw [hb]
      exact readContent_char hlt hamp (escapeText_open b s hf) hrest
    · rw [hb]
      exact readContent_reference he hrest

theorem readsAs_spaces (names : NameTable) {u : Bytes} (hu : ∀ b ∈ u, isXmlSpace b = true) :
    ∃ c, c.IsText u ∧ ReadsAs names u c := by
  induction u with
  | nil => exact ⟨.nil, XmlContent.isText_nil, readsAs_nil⟩
  | cons b u ih =>
    obtain ⟨c, hc, hreads⟩ := ih fun b hb => hu b (List.mem_cons_of_mem _ hb)
    refine ⟨.text [b] c, ⟨hc.elements, congrArg (b :: ·) hc.characters⟩, fun text c' rest h => ?_⟩
    have hb := hu b List.mem_cons_self
    refine readContent_char ?_ ?_ ?_ (hreads h)
    · rintro rfl
      cases hb
    · rintro rfl
      cases hb
    · rintro ⟨r, hr⟩
      have hb' : (93 : UInt8) = b := (List.cons.inj hr).1
      subst hb'
      cases hb

theorem infix_append_cases {α : Type*} {w a b : List α} (h : w <:+: a ++ b) :
    (∃ t, t ≠ [] ∧ t <:+ a ∧ w <+: t ++ b) ∨ w <:+: b := by
  induction a with
  | nil => exact .inr h
  | cons x a ih =>
    rcases List.infix_cons_iff.mp h with h | h
    · exact .inl ⟨x :: a, List.cons_ne_nil _ _, List.suffix_rfl, h⟩
    · rcases ih h with ⟨t, hne, ht, hw⟩ | h
      · exact .inl ⟨t, hne, ht.trans (List.suffix_cons x a), hw⟩
      · exact .inr h

theorem readCdata_run {u : Bytes} (hu : ¬cdataEnd <:+: u) (text : Bytes) :
    readCdata (u ++ cdataEnd ++ text) = some (u, text) := by
  induction u with
  | nil => rfl
  | cons b u ih =>
    have htail := ih fun h => hu (h.trans (List.suffix_cons b u).isInfix)
    have hstarts : ¬(ascii "]]>").isPrefixOf (b :: (u ++ cdataEnd ++ text)) = true := by
      intro hp
      obtain ⟨r, hr⟩ := List.isPrefixOf_iff_prefix.mp hp
      have hr : (93 : UInt8) :: 93 :: 62 :: r = b :: (u ++ cdataEnd ++ text) := hr
      -- the marker would have to end in the first bytes of the one that closes the section
      match u with
      | [] => cases (List.cons.inj (List.cons.inj (List.cons.inj hr).2).2).1
      | [_] => cases (List.cons.inj (List.cons.inj (List.cons.inj hr).2).2).1
      | x :: y :: u =>
        simp only [List.cons_append, List.cons.injEq] at hr
        obtain ⟨rfl, rfl, rfl, -⟩ := hr
        exact hu ⟨[], u, rfl⟩
    rw [List.cons_append, List.cons_append, readCdata, if_neg hstarts, htail]
    rfl

theorem readsAs_section {u : Bytes} (hu : ¬cdataEnd <:+: u) :
    ReadsAs names (cdataBegin ++ u ++ cdataEnd) (.text u .nil) := by
  intro text c' rest h fuel hfuel
  obtain ⟨fuel, rfl⟩ := Nat.exists_eq_succ_of_ne_zero (Nat.ne_zero_of_lt hfuel)
  have hlen : text.length < fuel := by
    simp only [List.length_append] at hfuel
    have : cdataBegin.length = 9 := rfl
    omega
  have hskip : skip (ascii "<![CDATA[") (cdataBegin ++ (u ++ cdataEnd ++ text)) =
    some (u ++ cdataEnd ++ text) := skip_append ..
  have hcomment : skip (ascii "<!--") (cdataBegin ++ (u ++ cdataEnd ++ text)) = none := rfl
  rw [List.append_assoc, List.append_assoc, ← List.append_assoc u,
    show cdataBegin ++ (u ++ cdataEnd ++ text) = 60 :: (ascii "![CDATA[" ++ (u ++ cdataEnd ++ text))
    from rfl, readContent]
  rw [show cdataBegin ++ (u ++ cdataEnd ++ text) =
    60 :: (ascii "![CDATA[" ++ (u ++ cdataEnd ++ text)) from rfl] at hskip hcomment
  have hstarts : ¬(ascii "</").isPrefixOf (60 :: (ascii "![CDATA[" ++ (u ++ cdataEnd ++ text))) =
    true := Bool.false_ne_true
  simp only [if_true, if_neg hstarts, hskip, hcomment, readCdata_run hu, Option.bind_eq_bind,
    Option.bind_some, h fuel hlen]
  rfl

theorem putCdataLoop_skip (k : ℕ) (run s : Bytes) :
    putCdataLoop k run s = putCdataLoop 0 run (s.drop k) := by
  induction k generalizing s with
  | zero => rfl
  | succ k ih =>
    cases s with
    | nil => rfl
    | cons b s => exact ih s

theorem putCdataLoop_run (run s : Bytes) : putCdataLoop 0 run s = run ++ putCdataLoop 0 [] s := by
  induction s generalizing run with
  | nil => exact (List.append_nil run).symm
  | cons b s ih =>
    rw [putCdataLoop, putCdataLoop]
    split_ifs
    · simp only [List.append_assoc, List.nil_append]
    · simp only [List.append_assoc, List.nil_append]
    · rw [ih, ih ([] ++ [b]), List.nil_append, List.append_assoc]

def cdataMarkers : List (Bytes × Bytes) := [(ascii "<![", ascii "CDATA["), (ascii "]]", ascii ">")]

theorem putCdataLoop_cases (run : Bytes) (b : UInt8) (s : Bytes) :
    (∃ p q s', b :: s = p ++ q ++ s' ∧ s'.length ≤ s.length ∧ (p, q) ∈ cdataMarkers ∧
      putCdataLoop 0 run (b :: s) = run ++ p ++ cdataEnd ++ cdataBegin ++ q ++
      putCdataLoop 0 [] s') ∨
    (¬cdataEnd <+: b :: s ∧ putCdataLoop 0 run (b :: s) = putCdataLoop 0 (run ++ [b]) s) := by
  have hmarker : ∀ {p q : Bytes}, p ++ q <+: b :: s → p ++ q ≠ [] →
      ∃ s', b :: s = p ++ q ++ s' ∧ s'.length ≤ s.length ∧ putCdataLoop ((p ++ q).length - 1) [] s =
        putCdataLoop 0 [] s' := by
    rintro p q ⟨s', hs'⟩ hne
    obtain ⟨x, word, hword⟩ := List.exists_cons_of_ne_nil hne
    rw [hword] at hs' ⊢
    have hs : s = word ++ s' := (List.cons.inj hs').2.symm
    refine ⟨s', hs'.symm, ?_, ?_⟩
    · rw [hs, List.length_append]
      exact Nat.le_add_left ..
    · rw [putCdataLoop_skip, hs, List.length_cons, Nat.add_sub_cancel, List.drop_left]
  rw [putCdataLoop]
  split_ifs with hbegin hend
  · obtain ⟨s', hs, hlen, hdrop⟩ :=
      hmarker (p := ascii "<![") (q := ascii "CDATA[") (List.isPrefixOf_iff_prefix.mp hbegin)
      (by decide)
    exact .inl ⟨_, _, s', hs, hlen, by decide, congrArg _ hdrop⟩
  · obtain ⟨s', hs, hlen, hdrop⟩ :=
      hmarker (p := ascii "]]") (q := ascii ">") (List.isPrefixOf_iff_prefix.mp hend) (by decide)
    exact .inl ⟨_, _, s', hs, hlen, by decide, congrArg _ hdrop⟩
  · exact .inr ⟨fun h => hend (List.isPrefixOf_iff_prefix.mpr h), rfl⟩

def RunOpen (run s : Bytes) : Prop := ∀ t, t ≠ [] → t <:+ run → ¬cdataEnd <+: t ++ s

theorem RunOpen.not_infix {run s p : Bytes} (h : RunOpen run s) (hps : p <+: s)
    (hp : ¬cdataEnd <:+: p) :
    ¬cdataEnd <:+: run ++ p := by
  intro hin
  rcases infix_append_cases hin with ⟨t, hne, ht, hw⟩ | hin
  · exact h t hne ht (hw.trans ((List.prefix_append_right_inj t).mpr hps))
  · exact hp hin

theorem runOpen_of_not_mem {q : Bytes} (hq : (93 : UInt8) ∉ q) (s : Bytes) : RunOpen q s := by
  rintro t hne ht ⟨r, hr⟩
  cases t with
  | nil => exact hne rfl
  | cons b t =>
    have hb : (93 : UInt8) = b := (List.cons.inj hr).1
    exact hq (hb ▸ ht.subset List.mem_cons_self)

theorem RunOpen.concat {run s : Bytes} {b : UInt8} (h : RunOpen run (b :: s))
    (hend : ¬cdataEnd <+: b :: s) : RunOpen (run ++ [b]) s := by
  intro t hne ht hw
  rcases List.suffix_concat_iff.mp ht with rfl | ⟨t', rfl, ht'⟩
  · exact hne rfl
  · rw [List.append_assoc, List.singleton_append] at hw
    by_cases hnil : t' = []
    · subst hnil
      exact hend hw
    · exact h t' hnil ht' hw

theorem cdataMarkers_open {p q : Bytes} (h : (p, q) ∈ cdataMarkers) :
    ¬cdataEnd <:+: p ∧ (93 : UInt8) ∉ q := by
  simp only [cdataMarkers, List.mem_cons, List.not_mem_nil, or_false] at h
  rcases h with h | h
  all_goals cases h; decide

def cdataSections (contents : List Bytes) : Bytes :=
  contents.flatMap fun c => cdataBegin ++ c ++ cdataEnd

theorem exists_cdataSections (n : ℕ) (run s : Bytes) (hn : s.length ≤ n) (h : RunOpen run s) :
    ∃ contents, cdataBegin ++ putCdataLoop 0 run s ++ cdataEnd = cdataSections contents ∧
      (∀ c ∈ contents, ¬cdataEnd <:+: c) ∧ contents.flatten = run ++ s := by
  induction n generalizing run s with
  | zero =>
    obtain rfl := List.length_eq_zero_iff.mp (Nat.le_zero.mp hn)
    have hnone : ¬cdataEnd <:+: run ++ [] := h.not_infix List.prefix_rfl (by decide)
    rw [List.append_nil] at hnone ⊢
    exact ⟨[run], (List.flatMap_singleton ..).symm, List.forall_mem_singleton.mpr hnone,
      List.flatten_singleton⟩
  | succ n ih =>
    cases s with
    | nil => exact ih run [] (Nat.zero_le n) h
    | cons b s =>
      rcases putCdataLoop_cases run b s with ⟨p, q, s', hs, hlen, hpq, hloop⟩ | ⟨hend, hloop⟩
      · obtain ⟨hp, hq⟩ := cdataMarkers_open hpq
        obtain ⟨contents, hout, hnone, htext⟩ :=
          ih q s' (by rw [List.length_cons] at hn; omega) (runOpen_of_not_mem hq s')
        rw [hs] at h
        have hfirst : ¬cdataEnd <:+: run ++ p :=
          h.not_infix (by rw [List.append_assoc]; exact List.prefix_append _ _) hp
        refine ⟨(run ++ p) :: contents, ?_, List.forall_mem_cons.mpr ⟨hfirst, hnone⟩, ?_⟩
        · rw [cdataSections, List.flatMap_cons, ← cdataSections, ← hout, hloop, putCdataLoop_run q]
          simp only [List.append_assoc]
        · rw [List.flatten_cons, htext, hs]
          simp only [List.append_assoc]
      · obtain ⟨contents, hout, hnone, htext⟩ :=
          ih (run ++ [b]) s (Nat.le_of_succ_le_succ hn) (h.concat hend)
        rw [List.append_assoc, List.singleton_append] at htext
        rw [hloop]
        exact ⟨contents, hout, hnone, htext⟩

theorem readsAs_sections (names : NameTable) {contents : List Bytes}
    (h : ∀ c ∈ contents, ¬cdataEnd <:+: c) :
    ∃ c, c.IsText contents.flatten ∧ ReadsAs names (cdataSections contents) c := by
  induction contents with
  | nil => exact ⟨.nil, XmlContent.isText_nil, readsAs_nil⟩
  | cons u contents ih =>
    obtain ⟨hu, hrest⟩ := List.forall_mem_cons.mp h
    obtain ⟨c, hc, hreads⟩ := ih hrest
    exact ⟨_, (XmlContent.isText_text u).append hc, (readsAs_section hu).append hreads⟩

theorem readsAs_putCdata (names : NameTable) (s : Bytes) :
    ∃ c, c.IsText s ∧ ReadsAs names (putCdata s) c := by
  obtain ⟨contents, hout, hnone, htext⟩ :=
    exists_cdataSections s.length [] s le_rfl (runOpen_of_not_mem List.not_mem_nil s)
  rw [List.nil_append] at htext
  rw [putCdata, hout, ← htext]
  exact readsAs_sections names hnone

def normalizeValue (s : Bytes) : Bytes := s.map fun b => if isXmlSpace b then 32 else b

theorem readName_append {name : Bytes} (hname : names.isName name = true) (text : Bytes)
    (htext : text.head?.all fun b => !isNameByte b) :
    readName names (name ++ text) = some (name, text) := by
  obtain ⟨-, hbytes⟩ := names.bytes name hname
  have hstop : ∀ b ∈ text.head?, isNameByte b = false := fun b hb => by
    simpa [Option.mem_def.mp hb] using htext
  rw [readName, Spans.takeWhile_append_stop hbytes hstop, Spans.dropWhile_append_stop hbytes hstop,
    if_pos hname]

theorem readValue_append (s text : Bytes) {fuel : ℕ}
    (hfuel : (escapeText s ++ 34 :: text).length ≤ fuel) :
    readValue fuel (escapeText s ++ 34 :: text) = some (normalizeValue s, text) := by
  induction s generalizing fuel with
  | nil =>
    obtain ⟨fuel, rfl⟩ :=
      Nat.exists_eq_succ_of_ne_zero (show fuel ≠ 0 by rintro rfl; simp [escapeText] at hfuel)
    rfl
  | cons b s ih =>
    obtain ⟨fuel, rfl⟩ := Nat.exists_eq_succ_of_ne_zero (show fuel ≠ 0 by rintro rfl; simp at hfuel)
    rw [escapeText, List.flatMap_cons, List.append_assoc, ← escapeText] at hfuel ⊢
    rcases spetialChar_cases b with ⟨hb, hlt, -, hamp⟩ | ⟨e, hb, he⟩
    · rw [hb, List.singleton_append] at hfuel ⊢
      have hrest := ih (Nat.le_of_succ_le_succ hfuel)
      by_cases hquote : b = 34
      · subst hquote
        cases hb
      · rw [readValue]
        simp only [if_neg hquote, if_neg hlt, if_neg hamp, hrest]
        rfl
    · rw [hb, List.cons_append] at hfuel ⊢
      have hlen : (escapeText s ++ 34 :: text).length ≤ fuel := by
        simp only [List.length_cons, List.length_append] at hfuel ⊢
        omega
      have hspace : isXmlSpace b = false := by
        simp only [entities, List.mem_cons, List.not_mem_nil, or_false] at he
        rcases he with he | he | he | he | he
        all_goals cases he; rfl
      have hnorm : normalizeValue (b :: s) = b :: normalizeValue s := by
        simp [normalizeValue, hspace]
      rw [readValue]
      simp only [readReference_append he, ih hlen, hnorm, Option.bind_eq_bind, Option.bind_some]
      rfl

def writeAttr (name value : Bytes) : Bytes := 32 :: name ++ ascii "=\"" ++ escapeText value ++ [34]

theorem readAttributes_append (attrs : List (Bytes × Bytes))
    (hnames : ∀ a ∈ attrs, names.isName a.1 = true) (hnodup : (attrs.map Prod.fst).Nodup)
    (text : Bytes) (fuel : ℕ)
    (hfuel : (attrs.flatMap (fun a => writeAttr a.1 a.2) ++ 62 :: text).length ≤ fuel) :
    readAttributes names fuel (attrs.flatMap (fun a => writeAttr a.1 a.2) ++ 62 :: text) =
      some (attrs.map fun a => (a.1, normalizeValue a.2), 62 :: text) := by
  induction attrs generalizing fuel with
  | nil =>
    obtain ⟨fuel, rfl⟩ := Nat.exists_eq_succ_of_ne_zero (show fuel ≠ 0 by rintro rfl; simp at hfuel)
    rfl
  | cons a attrs ih =>
    obtain ⟨fuel, rfl⟩ :=
      Nat.exists_eq_succ_of_ne_zero (show fuel ≠ 0 by rintro rfl; simp [writeAttr] at hfuel)
    have hname := hnames a List.mem_cons_self
    obtain ⟨hne, hbytes⟩ := names.bytes a.1 hname
    rw [List.map_cons, List.nodup_cons] at hnodup
    rw [List.flatMap_cons, List.append_assoc] at hfuel ⊢
    generalize htail : attrs.flatMap (fun a => writeAttr a.1 a.2) ++ 62 :: text = tail at hfuel ⊢
    have hlen : tail.length ≤ fuel := by
      simp only [writeAttr, List.cons_append, List.length_cons, List.length_append] at hfuel
      omega
    have hvaluelen : (escapeText a.2 ++ 34 :: tail).length ≤ fuel := by
      simp only [writeAttr, List.cons_append, List.length_cons, List.length_append,
        List.length_nil] at hfuel ⊢
      omega
    have hrest := ih (fun a ha => hnames a (List.mem_cons_of_mem _ ha)) hnodup.2 fuel (htail ▸ hlen)
    rw [htail] at hrest
    -- the name starts right after one blank
    have hskip : skipSpaces (writeAttr a.1 a.2 ++ tail) =
        a.1 ++ (ascii "=\"" ++ (escapeText a.2 ++ 34 :: tail)) := by
      obtain ⟨b, name, hcons⟩ := List.exists_cons_of_ne_nil hne
      have hb : isXmlSpace b = false := by
        have hbyte := hbytes b (hcons ▸ List.mem_cons_self)
        by_contra hspace
        simp only [isXmlSpace, Bool.not_eq_false, Bool.or_eq_true, beq_iff_eq] at hspace
        rcases hspace with (rfl | rfl) | rfl
        all_goals cases hbyte
      simp only [writeAttr, hcons, skipSpaces, List.cons_append, List.append_assoc]
      rw [List.dropWhile_cons_of_pos (by decide),
        List.dropWhile_cons_of_neg (by rw [hb]; exact Bool.false_ne_true)]
      rfl
    have hread := readName_append hname (ascii "=\"" ++ (escapeText a.2 ++ 34 :: tail)) rfl
    have hhead : ∀ b, isNameByte b = false →
        (a.1 ++ (ascii "=\"" ++ (escapeText a.2 ++ 34 :: tail))).head? ≠ some b := by
      obtain ⟨c, name, hcons⟩ := List.exists_cons_of_ne_nil hne
      intro b hb heq
      rw [hcons] at heq
      have hc := hbytes c (hcons ▸ List.mem_cons_self)
      rw [Option.some.inj heq, hb] at hc
      cases hc
    have hlong : (a.1 ++ (ascii "=\"" ++ (escapeText a.2 ++ 34 :: tail))).length ≠
        (writeAttr a.1 a.2 ++ tail).length := by
      simp only [writeAttr, List.cons_append, List.length_cons, List.length_append, List.length_nil]
      omega
    have hfresh : ((attrs.map fun a => (a.1, normalizeValue a.2)).any fun x => x.1 == a.1) =
        false := by
      rw [List.any_eq_false]
      rintro x hx heq
      obtain ⟨y, hy, rfl⟩ := List.mem_map.mp hx
      exact hnodup.1 (List.mem_map.mpr ⟨y, hy, eq_of_beq heq⟩)
    rw [readAttributes]
    simp only [hskip, hhead 62 rfl, hhead 47 rfl, or_self, if_false, if_neg hlong, hread,
      skip_append, readValue_append a.2 tail hvaluelen, hrest, hfresh, Option.bind_eq_bind,
      Option.bind_some, List.map_cons]
    rfl

theorem readEndTag_append (name text : Bytes) :
    readEndTag name (ascii "</" ++ name ++ 62 :: text) = some text := by
  rw [readEndTag, skip_append]
  rfl

def tagText (name : Bytes) (attrs : List (Bytes × Bytes)) (body : Bytes) : Bytes :=
  name ++ attrs.flatMap (fun a => writeAttr a.1 a.2) ++ 62 :: body ++ (ascii "</" ++ name ++ [62])

section Element
variable {name body : Bytes} {attrs : List (Bytes × Bytes)}

theorem readElement_append (hname : names.isName name = true)
    (hnames : ∀ a ∈ attrs, names.isName a.1 = true) (hnodup : (attrs.map Prod.fst).Nodup)
    (hbody : ∀ text, Reading names (body ++ (ascii "</" ++ name ++ 62 :: text)) c
      (ascii "</" ++ name ++ 62 :: text)) (text : Bytes) (fuel : ℕ)
    (hfuel : (tagText name attrs body ++ text).length ≤ fuel) :
    readElement names fuel (tagText name attrs body ++ text) =
      some ((name, attrs.map fun a => (a.1, normalizeValue a.2), c), text) := by
  have heq : tagText name attrs body ++ text =
      name ++ (attrs.flatMap (fun a => writeAttr a.1 a.2) ++ 62 ::
        (body ++ (ascii "</" ++ name ++ 62 :: text))) := by
    simp only [tagText, List.append_assoc, List.cons_append, List.nil_append]
  obtain ⟨hne, -⟩ := names.bytes name hname
  have hpos := List.length_pos_iff.mpr hne
  rw [heq] at hfuel ⊢
  rw [List.length_append] at hfuel
  obtain ⟨fuel, rfl⟩ := Nat.exists_eq_succ_of_ne_zero (show fuel ≠ 0 by omega)
  have hattrs :=
    readAttributes_append attrs hnames hnodup (body ++ (ascii "</" ++ name ++ 62 :: text)) fuel
      (by omega)
  have hlen : (body ++ (ascii "</" ++ name ++ 62 :: text)).length < fuel := by
    rw [List.length_append, List.length_cons] at hfuel
    omega
  have hread := readName_append hname
    (attrs.flatMap (fun a => writeAttr a.1 a.2) ++ 62 ::
      (body ++ (ascii "</" ++ name ++ 62 :: text)))
    (by cases attrs <;> rfl)
  have hskip : skip [62] (62 :: (body ++ (ascii "</" ++ name ++ 62 :: text))) =
      some (body ++ (ascii "</" ++ name ++ 62 :: text)) :=
    skip_append [62] _
  have hempty : skip (ascii "/>") (62 :: (body ++ (ascii "</" ++ name ++ 62 :: text))) = none := rfl
  rw [readElement, hread]
  simp only [Option.bind_eq_bind, Option.bind_some, hattrs, hempty, hskip, hbody text fuel hlen,
    readEndTag_append]

theorem ReadsLast.closed (hbody : ReadsLast names body c) (name text : Bytes) :
    Reading names (body ++ (ascii "</" ++ name ++ 62 :: text)) c
      (ascii "</" ++ name ++ 62 :: text) := by
  have hstop : Reading names (ascii "</" ++ name ++ 62 :: text) .nil
      (ascii "</" ++ name ++ 62 :: text) :=
    reading_stop (by rw [List.append_assoc]; exact List.prefix_append _ _)
  have hfollows : Follows (ascii "</" ++ name ++ 62 :: text) := by constructor <;> simp [ascii]
  have := hbody hfollows hstop
  rwa [XmlContent.append_nil] at this

theorem readsAs_element (hname : names.isName name = true)
    (hnames : ∀ a ∈ attrs, names.isName a.1 = true) (hnodup : (attrs.map Prod.fst).Nodup)
    (hbody : ReadsLast names body c) :
    ReadsAs names (60 :: tagText name attrs body)
      (.element name (attrs.map fun a => (a.1, normalizeValue a.2)) c .nil) := by
  intro text c' rest h fuel hfuel
  obtain ⟨fuel, rfl⟩ := Nat.exists_eq_succ_of_ne_zero (Nat.ne_zero_of_lt hfuel)
  obtain ⟨hne, hbytes⟩ := names.bytes name hname
  obtain ⟨x, name', hcons⟩ := List.exists_cons_of_ne_nil hne
  have hx := hbytes x (hcons ▸ List.mem_cons_self)
  have helement := readElement_append hname hnames hnodup (hbody.closed name) text fuel
    (Nat.le_of_lt_succ (Nat.lt_of_succ_lt hfuel))
  have hlen : text.length < fuel := by
    rw [List.cons_append, List.length_cons, List.length_append] at hfuel
    omega
  -- a name starts with none of the bytes that follow `<` elsewhere
  have hmarkup : ∀ b (word : Bytes), isNameByte b = false →
      ¬60 :: b :: word <+: 60 :: (tagText name attrs body ++ text) := by
    rintro b word hb ⟨r, hr⟩
    have hr := (List.cons.inj hr).2
    rw [tagText, hcons] at hr
    rw [← (List.cons.inj hr).1, hb] at hx
    cases hx
  have hstarts : ¬(ascii "</").isPrefixOf (60 :: (tagText name attrs body ++ text)) = true :=
    fun hp => hmarkup 47 [] rfl (List.isPrefixOf_iff_prefix.mp hp)
  have hcomment : skip (ascii "<!--") (60 :: (tagText name attrs body ++ text)) = none :=
    skip_eq_none (hmarkup 33 _ rfl)
  have hcdata : skip (ascii "<![CDATA[") (60 :: (tagText name attrs body ++ text)) = none :=
    skip_eq_none (hmarkup 33 _ rfl)
  rw [List.cons_append, readContent]
  simp only [if_true, if_neg hstarts, hcomment, hcdata, helement, h fuel hlen, Option.bind_eq_bind,
    Option.bind_some]
  rfl

end Element

theorem xmlText_escapeText (s : Bytes) : XmlText (escapeText s) ↔ XmlText s := by
  refine Bool.eq_iff_iff.mp (isXmlText_flatMap (fun b => ?_) [] s)
  rcases spetialChar_cases b with ⟨hb, -⟩ | ⟨e, hb, he⟩
  · exact .inl hb
  · refine .inr ?_
    rw [hb]
    simp only [entities, List.mem_cons, List.not_mem_nil, or_false] at he
    rcases he with he | he | he | he | he
    all_goals cases he; decide

theorem xmlText_normalizeValue (s : Bytes) : XmlText (normalizeValue s) ↔ XmlText s := by
  have hmap : normalizeValue s = s.flatMap fun b => [if isXmlSpace b then 32 else b] :=
    List.map_eq_flatMap
  rw [hmap]
  refine Bool.eq_iff_iff.mp (isXmlText_flatMap (fun b => ?_) [] s)
  cases hb : isXmlSpace b with
  | false => exact .inl rfl
  | true =>
    refine .inr ?_
    simp only [isXmlSpace, Bool.or_eq_true, beq_iff_eq] at hb
    rcases hb with (rfl | rfl) | rfl
    all_goals decide

theorem xmlText_spaces {u : Bytes} (hu : ∀ b ∈ u, isXmlSpace b = true) (a : Bytes) :
    XmlText (a ++ u) ↔ XmlText a := by
  induction u generalizing a with
  | nil => rw [List.append_nil]
  | cons b u ih =>
    have hb := hu b List.mem_cons_self
    have htail := ih (fun b hb => hu b (List.mem_cons_of_mem _ hb)) []
    rw [List.nil_append] at htail
    simp only [isXmlSpace, Bool.or_eq_true, beq_iff_eq] at hb
    have hchar : b < 0x80 ∧ isXmlChar [b] = true := by
      rcases hb with (rfl | rfl) | rfl
      all_goals decide
    rw [xmlText_ascii hchar.1, and_iff_right hchar.2, htail, and_iff_left xmlText_nil]

theorem xmlText_writeAttrs (attrs : List (Bytes × Bytes)) (a : Bytes) :
    XmlText (a ++ attrs.flatMap fun a => writeAttr a.1 a.2) ↔
      XmlText a ∧ ∀ a ∈ attrs, XmlText a.1 ∧ XmlText a.2 := by
  induction attrs generalizing a with
  | nil => simp
  | cons attr attrs ih =>
    have hword : isPlain (ascii "=\"") = true := by decide
    have htail := ih []
    rw [List.nil_append, and_iff_right xmlText_nil] at htail
    have heq : (attr :: attrs).flatMap (fun a => writeAttr a.1 a.2) =
        32 :: (attr.1 ++ ascii "=\"" ++
          (escapeText attr.2 ++ 34 :: attrs.flatMap fun a => writeAttr a.1 a.2)) := by
      simp only [List.flatMap_cons, writeAttr, List.cons_append, List.append_assoc, List.nil_append]
    rw [heq, xmlText_ascii (by decide), xmlText_plain hword, xmlText_ascii (by decide), htail,
      xmlText_escapeText, List.forall_mem_cons,
      and_iff_right (show isXmlChar [32] = true by decide),
      and_iff_right (show isXmlChar [34] = true by decide), and_assoc]

theorem xmlText_tagText (name : Bytes) (attrs : List (Bytes × Bytes)) (body a : Bytes) :
    XmlText (a ++ 60 :: tagText name attrs body) ↔
      XmlText a ∧ XmlText name ∧ (∀ a ∈ attrs, XmlText a.1 ∧ XmlText a.2) ∧ XmlText body := by
  have hword : isPlain (ascii "</") = true := by decide
  have heq : tagText name attrs body =
      name ++ attrs.flatMap (fun a => writeAttr a.1 a.2) ++ 62 ::
        (body ++ ascii "</" ++ (name ++ 62 :: [])) := by
    simp only [tagText, List.append_assoc, List.cons_append]
  rw [xmlText_ascii (by decide), heq, xmlText_ascii (by decide), xmlText_writeAttrs,
    xmlText_plain hword, xmlText_ascii (by decide),
    and_iff_right (show isXmlChar [60] = true by decide),
    and_iff_right (show isXmlChar [62] = true by decide)]
  constructor
  · rintro ⟨ha, ⟨hname, hattrs⟩, hbody, -⟩
    exact ⟨ha, hname, hattrs, hbody⟩
  · rintro ⟨ha, hname, hattrs, hbody⟩
    exact ⟨ha, ⟨hname, hattrs⟩, hbody, hname, by decide, xmlText_nil⟩

theorem xmlText_cdataLoop (n : ℕ) (run s : Bytes) (hn : s.length ≤ n) :
    XmlText (putCdataLoop 0 run s) ↔ XmlText (run ++ s) := by
  induction n generalizing run s with
  | zero =>
    obtain rfl := List.length_eq_zero_iff.mp (Nat.le_zero.mp hn)
    rw [List.append_nil]
    rfl
  | succ n ih =>
    cases s with
    | nil => exact ih run [] (Nat.zero_le n)
    | cons b s =>
      rcases putCdataLoop_cases run b s with ⟨p, q, s', hs, hlen, hpq, hloop⟩ | ⟨-, hloop⟩
      · have hplain : isPlain (p ++ q) = true ∧ isPlain (p ++ cdataEnd ++ cdataBegin ++ q) =
            true := by
          simp only [cdataMarkers, List.mem_cons, List.not_mem_nil, or_false] at hpq
          rcases hpq with hpq | hpq
          all_goals cases hpq; decide
        have hrest := ih [] s' (by rw [List.length_cons] at hn; omega)
        have heq : run ++ p ++ cdataEnd ++ cdataBegin ++ q ++ putCdataLoop 0 [] s' =
            run ++ (p ++ cdataEnd ++ cdataBegin ++ q) ++ putCdataLoop 0 [] s' := by
              simp only [List.append_assoc]
        rw [hloop, heq, xmlText_plain hplain.2, hrest, hs, ← List.append_assoc run,
          xmlText_plain hplain.1]
        rfl
      · rw [hloop, ih (run ++ [b]) s (Nat.le_of_succ_le_succ hn), List.append_assoc,
          List.singleton_append]

theorem xmlText_putCdata (s : Bytes) : XmlText (putCdata s) ↔ XmlText s := by
  have hbegin : isPlain cdataBegin = true := by decide
  have hend : isPlain cdataEnd = true := by decide
  have hleft := xmlText_plain (a := []) (b := putCdataLoop 0 [] s ++ cdataEnd) hbegin
  have hright := xmlText_plain (a := putCdataLoop 0 [] s) (b := []) hend
  rw [List.append_nil, and_iff_left xmlText_nil] at hright
  rw [List.nil_append, and_iff_right xmlText_nil, hright, xmlText_cdataLoop s.length [] s le_rfl,
    List.nil_append] at hleft
  rw [putCdata, List.append_assoc]
  exact hleft

end Reading

end Nkit
