import Nkit.Xml.Parsing

/-! The document that a value is written as.  However it is laid out, its text is read as this
document, up to white space beside the text of an element. -/

namespace Nkit
open OrderedMap XmlGrammar

def writtenAttrs (o : Var2XmlOptions) (v : Value) : List (Bytes × Bytes) :=
  (Var2XmlConverter.attributes o v).map fun a => (a.1, a.2.getString)

def reportedAttrs (o : Var2XmlOptions) (v : Value) : List (Bytes × Bytes) :=
  (writtenAttrs o v).map fun a => (a.1, normalizeValue a.2)

def textContent (s : Bytes) : XmlContent := if s.isEmpty then .nil else .text s .nil

def concatContents (cs : List (Bytes × XmlContent)) : XmlContent :=
  cs.foldr (fun c rest => c.2.append rest) .nil

def dictText (o : Var2XmlOptions) (entries : List (Bytes × Value)) : XmlContent :=
  match get? bytesLt o.textKey entries with
  | some text => textContent text.getString
  | none => .nil

mutual

def contentOf (o : Var2XmlOptions) (itemName : Bytes) : Value → XmlContent
  | .dict entries =>
    (concatContents (o.members (memberContents o entries))).append (dictText o entries)
  | .list items => itemContents o (if itemName.isEmpty then o.itemName else itemName) items
  | .str text => textContent text

def memberContents (o : Var2XmlOptions) : List (Bytes × Value) → List (Bytes × XmlContent)
  | [] => []
  | (key, v) :: entries =>
    (key, if v.isList then contentOf o key v
      else .element key (reportedAttrs o v) (contentOf o key v) .nil) ::
      memberContents o entries

def itemContents (o : Var2XmlOptions) (name : Bytes) : List Value → XmlContent
  | [] => .nil
  | v :: items => .element name (reportedAttrs o v) (contentOf o [] v) (itemContents o name items)

end

def documentOf (o : Var2XmlOptions) (data : Value) : XmlDocument :=
  ⟨o.rootName, reportedAttrs o data, contentOf o o.itemName data⟩

def XmlDocument.content (d : XmlDocument) : XmlContent := .element d.name d.attrs d.body .nil

namespace XmlContent

/-- Elements and attributes have names. -/
def Named (names : NameTable) : XmlContent → Prop
  | nil => True
  | text _ rest => rest.Named names
  | element name attrs body rest =>
    names.isName name = true ∧ (∀ a ∈ attrs, names.isName a.1 = true) ∧ (attrs.map Prod.fst).Nodup ∧
      body.Named names ∧
      rest.Named names

/-- All names and texts are made of characters of XML. -/
def Valid : XmlContent → Prop
  | nil => True
  | text s rest => XmlText s ∧ rest.Valid
  | element name attrs body rest =>
    XmlText name ∧ (∀ a ∈ attrs, XmlText a.1 ∧ XmlText a.2) ∧ body.Valid ∧ rest.Valid

@[simp] theorem named_append (names : NameTable) (a b : XmlContent) :
    (a.append b).Named names ↔ a.Named names ∧ b.Named names := by
  induction a with
  | nil => simp [append, Named]
  | text s rest ih => simp [append, Named, ih]
  | element name attrs body rest _ ih => simp only [append, Named, ih, and_assoc]

@[simp] theorem valid_append (a b : XmlContent) : (a.append b).Valid ↔ a.Valid ∧ b.Valid := by
  induction a with
  | nil => simp [append, Valid]
  | text s rest ih => simp only [append, Valid, ih, and_assoc]
  | element name attrs body rest _ ih => simp only [append, Valid, ih, and_assoc]

end XmlContent

section Written
variable {names : NameTable} {ro : Options} {o : Var2XmlOptions}

def Blank (o : Var2XmlOptions) (u : Bytes) : Prop := ∀ b ∈ u, b ∈ o.newline ∨ b ∈ o.indent

theorem blank_nil : Blank o [] := fun _ hb => absurd hb List.not_mem_nil

theorem Blank.append {u v : Bytes} (hu : Blank o u) (hv : Blank o v) : Blank o (u ++ v) := by
  intro b hb
  rcases List.mem_append.mp hb with hb | hb
  · exact hu b hb
  · exact hv b hb

theorem blank_newline : Blank o o.newline := fun _ => .inl

theorem blank_indent : Blank o o.indent := fun _ => .inr

structure Unseen (ro : Options) (o : Var2XmlOptions) : Prop where
  space : ∀ u, Blank o u → ∀ b ∈ u, isXmlSpace b = true
  trimmed : ∀ u s v, Blank o u → Blank o v → ro.trimmed (u ++ s ++ v) = ro.trimmed s

structure Renders (ro : Options) (o : Var2XmlOptions) (c c₀ : XmlContent) : Prop where
  addTo : ∀ d, c.addTo ro d = c₀.addTo ro d
  elements : c.hasElements = c₀.hasElements
  characters : ∃ u v, Blank o u ∧ Blank o v ∧ c.characters = u ++ c₀.characters ++ v

theorem renders_text {c : XmlContent} {s : Bytes} (h : c.IsText s) :
    Renders ro o c (textContent s) := by
  refine ⟨fun d => ?_, ?_, [], [], blank_nil, blank_nil, ?_⟩
  · rw [h.addTo, textContent]
    split <;> rfl
  · rw [h.elements, textContent]
    split <;> rfl
  · rw [h.characters, textContent, List.append_nil, List.nil_append]
    split
    · rename_i hs
      exact List.isEmpty_iff.mp hs
    · exact (List.append_nil s).symm

theorem renders_blank {c : XmlContent} {u : Bytes} (h : c.IsText u) (hu : Blank o u) :
    Renders ro o c .nil := by
  refine ⟨h.addTo ro, h.elements, u, [], hu, blank_nil, ?_⟩
  rw [h.characters]
  simp [XmlContent.characters]

theorem Renders.append {a a₀ b b₀ : XmlContent} (ha : Renders ro o a a₀) (ha₀ : a₀.characters = [])
    (hb : Renders ro o b b₀) :
    Renders ro o (a.append b) (a₀.append b₀) := by
  obtain ⟨u, v, hu, hv, hchars⟩ := ha.characters
  obtain ⟨u', v', hu', hv', hchars'⟩ := hb.characters
  refine ⟨fun d => ?_, ?_, u ++ v ++ u', v', (hu.append hv).append hu', hv', ?_⟩
  · rw [XmlContent.addTo_append, XmlContent.addTo_append, ha.addTo, hb.addTo]
  · rw [XmlContent.hasElements_append, XmlContent.hasElements_append, ha.elements, hb.elements]
  · rw [XmlContent.characters_append, XmlContent.characters_append, hchars, hchars', ha₀]
    simp only [List.append_nil, List.nil_append, List.append_assoc]

theorem Renders.append_blank {a a₀ b : XmlContent} (ha : Renders ro o a a₀) {w : Bytes}
    (hb : b.IsText w) (hw : Blank o w) :
    Renders ro o (a.append b) a₀ := by
  obtain ⟨u, v, hu, hv, hchars⟩ := ha.characters
  refine ⟨fun d => ?_, ?_, u, v ++ w, hu, hv.append hw, ?_⟩
  · rw [XmlContent.addTo_append, hb.addTo, ha.addTo]
  · rw [XmlContent.hasElements_append, ha.elements, hb.elements, Bool.or_false]
  · rw [XmlContent.characters_append, hchars, hb.characters]
    simp only [List.append_assoc]

theorem Renders.trimmed (hun : Unseen ro o) {c c₀ : XmlContent} (h : Renders ro o c c₀) :
    ro.trimmed c.characters = ro.trimmed c₀.characters := by
  obtain ⟨u, v, hu, hv, hchars⟩ := h.characters
  rw [hchars, hun.trimmed u _ v hu hv]

theorem Renders.storeText (hun : Unseen ro o) {c c₀ : XmlContent} (h : Renders ro o c c₀)
    (d : List (Bytes × Value)) :
    Nkit.storeText ro c.characters d = Nkit.storeText ro c₀.characters d := by
  rw [Nkit.storeText, Nkit.storeText, h.trimmed hun]

theorem Renders.element (hun : Unseen ro o) {c c₀ : XmlContent} (h : Renders ro o c c₀)
    (name : Bytes) (attrs : List (Bytes × Bytes)) :
    Renders ro o (.element name attrs c .nil) (.element name attrs c₀ .nil) := by
  refine ⟨fun d => ?_, rfl, [], [], blank_nil, blank_nil, rfl⟩
  simp only [XmlContent.addTo, h.elements, h.addTo, h.trimmed hun, h.storeText hun]

structure MemberText (names : NameTable) (ro : Options) (o : Var2XmlOptions) (text : Bytes)
    (c₀ : XmlContent) : Prop where
  reads : ∃ c, ReadsAs names text c ∧ Renders ro o c c₀
  ends : ∀ x ∈ text.getLast?, x < 0x80
  valid : XmlText text ↔ c₀.Valid

structure BodyText (names : NameTable) (ro : Options) (o : Var2XmlOptions) (text : Bytes)
    (c₀ : XmlContent) : Prop where
  reads : ∃ c, ReadsLast names text c ∧ Renders ro o c c₀
  valid : XmlText text ↔ c₀.Valid

theorem memberText_nil : MemberText names ro o [] .nil :=
  ⟨⟨.nil, readsAs_nil, renders_blank XmlContent.isText_nil blank_nil⟩, by simp,
    iff_of_true xmlText_nil trivial⟩

theorem MemberText.append {t t' : Bytes} {c c' : XmlContent} (h : MemberText names ro o t c)
    (hc : c.characters = []) (h' : MemberText names ro o t' c') :
    MemberText names ro o (t ++ t') (c.append c') := by
  obtain ⟨a, hreads, hrenders⟩ := h.reads
  obtain ⟨a', hreads', hrenders'⟩ := h'.reads
  refine ⟨⟨a.append a', hreads.append hreads', hrenders.append hc hrenders'⟩, ?_, ?_⟩
  · intro x hx
    rw [List.getLast?_append] at hx
    cases hlast : t'.getLast? with
    | none =>
      rw [hlast] at hx
      exact h.ends x hx
    | some y =>
      rw [hlast] at hx
      exact h'.ends x (hlast ▸ hx)
  · rw [xmlText_append_iff h.ends, h.valid, h'.valid, XmlContent.valid_append]

theorem MemberText.body {t : Bytes} {c : XmlContent} (h : MemberText names ro o t c) :
    BodyText names ro o t c := by
  obtain ⟨a, hreads, hrenders⟩ := h.reads
  exact ⟨⟨a, hreads.last, hrenders⟩, h.valid⟩

theorem MemberText.append_body {t t' : Bytes} {c c' : XmlContent} (h : MemberText names ro o t c)
    (hc : c.characters = []) (h' : BodyText names ro o t' c') :
    BodyText names ro o (t ++ t') (c.append c') := by
  obtain ⟨a, hreads, hrenders⟩ := h.reads
  obtain ⟨a', hreads', hrenders'⟩ := h'.reads
  refine ⟨⟨a.append a', hreads.append_last hreads', hrenders.append hc hrenders'⟩, ?_⟩
  rw [xmlText_append_iff h.ends, h.valid, h'.valid, XmlContent.valid_append]

theorem bodyText_text (hun : Unseen ro o) {u w s : Bytes} (hu : Blank o u)
    (hvalid : XmlText w ↔ XmlText s) (hs : s ≠ []) (hw : ∃ c, c.IsText s ∧ ReadsLast names w c) :
    BodyText names ro o (u ++ w) (textContent s) := by
  obtain ⟨c, hc, hreads⟩ := hw
  obtain ⟨b, hb, hreadsb⟩ := readsAs_spaces names (hun.space u hu)
  refine ⟨⟨b.append c, hreadsb.append_last hreads, ?_⟩, ?_⟩
  · exact (renders_blank hb hu).append rfl (renders_text hc)
  · have hends : ∀ x ∈ u.getLast?, x < 0x80 := by
      intro x hx
      have hspace := hun.space u hu x (List.mem_of_getLast? hx)
      simp only [isXmlSpace, Bool.or_eq_true, beq_iff_eq] at hspace
      rcases hspace with (rfl | rfl) | rfl
      all_goals decide
    have hu' : XmlText u := by simpa using (xmlText_spaces (hun.space u hu) []).mpr xmlText_nil
    rw [xmlText_append_iff hends, and_iff_right hu', hvalid, textContent,
      if_neg (by simpa using hs)]
    exact (and_iff_left trivial).symm

theorem readsLast_blank (hun : Unseen ro o) {body v : Bytes} {c : XmlContent}
    (hreads : ReadsLast names body c) (hv : Blank o v) :
    ∃ e, e.IsText v ∧ ReadsLast names (body ++ v) (c.append e) := by
  obtain ⟨e, he, hreadse⟩ := readsAs_spaces names (hun.space v hv)
  refine ⟨e, he, fun text c' rest hf hr => ?_⟩
  rw [List.append_assoc, XmlContent.append_assoc]
  refine hreads ?_ (hreadse hr)
  cases v with
  | nil => exact hf
  | cons x v =>
    have hx := hun.space _ hv x List.mem_cons_self
    constructor
    all_goals
      intro heq
      rw [List.cons_append, List.head?_cons, Option.some.injEq] at heq
      rw [heq] at hx
      cases hx

theorem memberText_element (hun : Unseen ro o) {name body u v : Bytes}
    {attrs : List (Bytes × Bytes)} {c₀ : XmlContent} (hname : names.isName name = true)
    (hnames : ∀ a ∈ attrs, names.isName a.1 = true) (hnodup : (attrs.map Prod.fst).Nodup)
    (hbody : BodyText names ro o body c₀) (hu : Blank o u) (hv : Blank o v) :
    MemberText names ro o (u ++ 60 :: tagText name attrs (body ++ v))
      (.element name (attrs.map fun a => (a.1, normalizeValue a.2)) c₀ .nil) := by
  obtain ⟨c, hreads, hrenders⟩ := hbody.reads
  obtain ⟨b, hb, hreadsb⟩ := readsAs_spaces names (hun.space u hu)
  obtain ⟨e, he, hinner⟩ := readsLast_blank hun hreads hv
  have helement := readsAs_element hname hnames hnodup hinner
  refine ⟨⟨b.append _, hreadsb.append helement, ?_⟩, ?_, ?_⟩
  · exact (renders_blank hb hu).append rfl ((hrenders.append_blank he hv).element hun name _)
  · intro x hx
    have heq : u ++ 60 :: tagText name attrs (body ++ v) =
        u ++ 60 ::
          (name ++ attrs.flatMap (fun a => writeAttr a.1 a.2) ++ 62 :: (body ++ v) ++
            (ascii "</" ++ name)) ++ [62] := by
      simp only [tagText, List.append_assoc, List.cons_append]
    rw [heq, List.getLast?_append, List.getLast?_singleton] at hx
    cases hx
    decide
  · have hu' : XmlText u := by simpa using (xmlText_spaces (hun.space u hu) []).mpr xmlText_nil
    rw [xmlText_tagText, and_iff_right hu', xmlText_spaces (hun.space v hv), hbody.valid,
      XmlContent.Valid, List.forall_mem_map]
    simp only [xmlText_normalizeValue, XmlContent.Valid, and_true]

open Var2XmlConverter

structure Wrote (s s' : Var2XmlConverter) (text : Bytes) : Prop where
  path : s'.path = s.path
  indent : s'.currentIndent = s.currentIndent
  begin : s'.begin = s.begin
  out : s'.out = s.out ++ text

theorem Wrote.refl (s : Var2XmlConverter) :
    Wrote s s [] := ⟨rfl, rfl, rfl, (List.append_nil _).symm⟩

theorem Wrote.trans {s s' s'' : Var2XmlConverter} {t t' : Bytes} (h : Wrote s s' t)
    (h' : Wrote s' s'' t') :
    Wrote s s'' (t ++ t') :=
  ⟨h'.path.trans h.path, h'.indent.trans h.indent, h'.begin.trans h.begin,
    by rw [h'.out, h.out, List.append_assoc]⟩

theorem flatMap_putAttribute (attrs : List (Bytes × Value)) :
    attrs.flatMap putAttribute = (attrs.map fun a => (a.1, a.2.getString)).flatMap fun a =>
      writeAttr a.1 a.2 := by
  rw [List.flatMap_map]
  rfl

theorem element_wrote {s s₁ : Var2XmlConverter} {name body : Bytes} {v : Value}
    (hindent : Blank o s.currentIndent) (hbody : Wrote (s.beginElement o name v) s₁ body) :
    ∃ s' u, s₁.endElement o = some s' ∧ Blank o u ∧ s'.path = s.path ∧ s'.currentIndent =
      s.currentIndent ∧ s'.begin = false ∧
      s'.out = s.out ++ (if !s.begin then o.newline
        else if !o.xmlDec.isEmpty && !o.rootName.isEmpty then o.xmlDec ++ o.newline else []) ++
          s.currentIndent ++ 60 :: tagText name (writtenAttrs o v) (body ++ u) := by
  have hpath : s₁.path = name :: s.path := hbody.path
  have hcut : s₁.currentIndent.take (s₁.currentIndent.length - o.indent.length) =
      s.currentIndent := by
    have : s₁.currentIndent = s.currentIndent ++ o.indent := hbody.indent
    rw [this, List.length_append, Nat.add_sub_cancel, List.take_left]
  have hend : s₁.endElement o = some { s₁ with
      path := s.path
      currentIndent := s.currentIndent
      firstEndAfterBegin := false
      out := s₁.out ++ (if s₁.firstEndAfterBegin then [] else o.newline ++ s.currentIndent) ++
      ascii "</" ++ name ++ [62] } := by
    simp only [endElement, hpath, hcut]
  refine ⟨_, if s₁.firstEndAfterBegin then [] else o.newline ++ s.currentIndent, hend, ?_, rfl, rfl,
    hbody.begin, ?_⟩
  · split
    · exact blank_nil
    · exact blank_newline.append hindent
  · show s₁.out ++ _ ++ _ ++ _ ++ _ = _
    rw [hbody.out, tagText, writtenAttrs, ← flatMap_putAttribute]
    simp only [beginElement, List.append_assoc, List.cons_append, List.nil_append]

theorem putText_wrote (hun : Unseen ro o) (s : Var2XmlConverter) (hindent : Blank o s.currentIndent)
    (text : Bytes) (newline : Bool) :
    ∃ t, Wrote s (s.putText o text newline) t ∧ BodyText names ro o t (textContent text) := by
  rw [putText]
  split
  · rename_i hempty
    obtain rfl := List.isEmpty_iff.mp hempty
    exact ⟨[], .refl s, memberText_nil.body⟩
  · rename_i hne
    have hne : text ≠ [] := by simpa using hne
    have hblank : Blank o (if newline then o.newline ++ s.currentIndent else []) := by
      split
      · exact blank_newline.append hindent
      · exact blank_nil
    have hesc :
        BodyText names ro o ((if newline then o.newline ++ s.currentIndent else []) ++
          escapeText text) (textContent text) :=
      bodyText_text hun hblank (xmlText_escapeText text) hne (readsLast_escapeText names text)
    have hcdata :
        BodyText names ro o ((if newline then o.newline ++ s.currentIndent else []) ++
          putCdata text) (textContent text) := by
      obtain ⟨c, hc, hreads⟩ := readsAs_putCdata names text
      exact bodyText_text hun hblank (xmlText_putCdata text) hne ⟨c, hc, hreads.last⟩
    have happend :
      ∀ t, Wrote s ((if newline then s.append (o.newline ++ s.currentIndent) else s).append t)
        ((if newline then o.newline ++ s.currentIndent else []) ++ t) := by
      intro t
      cases newline
      · exact ⟨rfl, rfl, rfl, rfl⟩
      · exact ⟨rfl, rfl, rfl, List.append_assoc ..⟩
    dsimp only
    generalize (if newline then s.append (o.newline ++ s.currentIndent) else s) = s₀ at happend
    split_ifs
    · exact ⟨_, happend _, hesc⟩
    · exact ⟨_, happend _, hcdata⟩
    · exact ⟨_, happend _, hesc⟩

theorem putDictText_wrote (hun : Unseen ro o) (s : Var2XmlConverter)
    (hindent : Blank o s.currentIndent) (entries : List (Bytes × Value)) (newline : Bool) :
    ∃ t, Wrote s (s.putDictText o entries newline) t ∧
      BodyText names ro o t (dictText o entries) := by
  rw [putDictText, dictText]
  cases get? bytesLt o.textKey entries with
  | none => exact ⟨[], .refl s, memberText_nil.body⟩
  | some text =>
    obtain ⟨t, hwrote, htext⟩ := putText_wrote hun s hindent text.getString newline
    exact ⟨t, ⟨hwrote.path, hwrote.indent, hwrote.begin, hwrote.out⟩, htext⟩

/-- What the converter does is to write the content. -/
def Runs (names : NameTable) (o : Var2XmlOptions) (f : Var2XmlConverter → Option Var2XmlConverter)
    (P : Bytes → XmlContent → Prop) (c₀ : XmlContent) : Prop :=
  c₀.Named names → ∀ s, s.begin = false → Blank o s.currentIndent → ∃ s' text, f s = some s' ∧
    Wrote s s' text ∧ P text c₀

theorem element_runs (hun : Unseen ro o) {f : Var2XmlConverter → Option Var2XmlConverter}
    {c₀ : XmlContent} (hf : Runs names o f (BodyText names ro o) c₀) (name : Bytes) (v : Value) :
    Runs names o (fun s => (f (s.beginElement o name v)).bind (endElement o))
      (MemberText names ro o)
      (.element name (reportedAttrs o v) c₀ .nil) := by
  rintro ⟨hname, hnames, hnodup, hnamed, -⟩ s hbegin hindent
  obtain ⟨s₁, body, hrun, hwrote, hbody⟩ :=
    hf hnamed (s.beginElement o name v) rfl (hindent.append blank_indent)
  obtain ⟨s', u, hend, hu, hpath, hind, hbegin', hout⟩ := element_wrote hindent hwrote
  rw [hbegin, Bool.not_false, if_pos rfl] at hout
  rw [List.append_assoc, List.append_assoc, ← List.append_assoc o.newline] at hout
  refine ⟨s', _, ?_, ⟨hpath, hind, hbegin'.trans hbegin.symm, hout⟩, ?_⟩
  · show (f (s.beginElement o name v)).bind (endElement o) = some s'
    rw [hrun]
    exact hend
  · refine memberText_element hun hname ?_ ?_ hbody (blank_newline.append hindent) hu
    · intro a ha
      exact hnames (a.1, normalizeValue a.2) (List.mem_map_of_mem ha)
    · rw [reportedAttrs, List.map_map] at hnodup
      exact hnodup

theorem members_forall₂ {α β : Type*} {R : α → β → Prop} {l : List (Bytes × α)}
    {l' : List (Bytes × β)} (h : List.Forall₂ (fun e e' => e.1 = e'.1 ∧ R e.2 e'.2) l l') :
    List.Forall₂ (fun e e' => e.1 = e'.1 ∧ R e.2 e'.2) (o.members l) (o.members l') := by
  refine List.rel_append ?_ ?_
  · induction o.priorityList with
    | nil => exact .nil
    | cons key keys ih =>
      have hkeys := keys_of_forall₂ h
      rw [List.filterMap_cons, List.filterMap_cons]
      by_cases hskip : (o.attrKey == key || o.textKey == key) = true
      · rw [if_pos hskip, if_pos hskip]
        exact ih
      · rw [if_neg hskip, if_neg hskip]
        cases hget : get? bytesLt key l with
        | none =>
          cases hget' : get? bytesLt key l' with
          | none => exact ih
          | some v' =>
            obtain ⟨v, hv⟩ := get?_of_keys hkeys.symm hget'
            rw [hget] at hv
            cases hv
        | some v =>
          obtain ⟨v', hv'⟩ := get?_of_keys hkeys hget
          rw [hv']
          exact .cons ⟨rfl, get?_of_forall₂ h hget hv'⟩ ih
  · induction h with
    | nil => exact .nil
    | @cons e e' l l' he _ ih =>
      rw [List.filter_cons, List.filter_cons, ← he.1]
      split
      · exact .cons he ih
      · exact ih

theorem foldlM_runs {l : List (Bytes × (Var2XmlConverter → Option Var2XmlConverter))}
    {l' : List (Bytes × XmlContent)}
    (h : List.Forall₂ (fun m m' => m.1 = m'.1 ∧ m'.2.characters = [] ∧
      Runs names o m.2 (MemberText names ro o) m'.2) l l') :
    (concatContents l').characters = [] ∧
      Runs names o (fun s => l.foldlM (fun s m => m.2 s) s) (MemberText names ro o)
        (concatContents l') := by
  induction h with
  | nil => exact ⟨rfl, fun _ s _ _ => ⟨s, [], rfl, .refl s, memberText_nil⟩⟩
  | @cons m m' l l' hm _ ih =>
    refine ⟨?_, fun hnamed s hbegin hindent => ?_⟩
    · rw [concatContents, List.foldr_cons, XmlContent.characters_append, hm.2.1]
      exact ih.1
    · obtain ⟨hnamed₁, hnamed₂⟩ := (XmlContent.named_append names _ _).mp hnamed
      obtain ⟨s₁, t₁, hrun₁, hwrote₁, htext₁⟩ := hm.2.2 hnamed₁ s hbegin hindent
      obtain ⟨s₂, t₂, hrun₂, hwrote₂, htext₂⟩ :=
        ih.2 hnamed₂ s₁ (hwrote₁.begin.trans hbegin) (hwrote₁.indent ▸ hindent)
      refine ⟨s₂, t₁ ++ t₂, ?_, hwrote₁.trans hwrote₂, htext₁.append hm.2.1 htext₂⟩
      show (m :: l).foldlM (fun s m => m.2 s) s = some s₂
      rw [List.foldlM_cons, hrun₁]
      exact hrun₂

theorem itemContents_characters (o : Var2XmlOptions) (name : Bytes) (items : List Value) :
    (itemContents o name items).characters = [] := by
  induction items with
  | nil => rfl
  | cons v items ih =>
    rw [itemContents]
    exact ih

mutual

/-- `Convert` writes what stands between the tags of an element. -/
theorem convert_runs (hun : Unseen ro o) (itemName : Bytes) (v : Value) :
    Runs names o (convert o itemName v) (BodyText names ro o) (contentOf o itemName v) := by
  match v with
  | .str text =>
    intro _ s hbegin hindent
    obtain ⟨t, hwrote, htext⟩ := putText_wrote hun s hindent text false
    refine ⟨_, t, by rw [convert], hwrote, ?_⟩
    rw [contentOf]
    exact htext
  | .list items =>
    intro hnamed s hbegin hindent
    rw [contentOf] at hnamed ⊢
    obtain ⟨s', t, hrun, hwrote, htext⟩ := convertItems_runs hun _ items hnamed s hbegin hindent
    exact ⟨s', t, by rw [convert]; exact hrun, hwrote, htext.body⟩
  | .dict entries =>
    intro hnamed s hbegin hindent
    have hmembers :=
      members_forall₂ (o := o) (R := fun f c => c.characters = [] ∧
        Runs names o f (MemberText names ro o) c)
      (convertMembers_runs hun entries)
    rw [contentOf] at hnamed ⊢
    obtain ⟨hnamed₁, hnamed₂⟩ := (XmlContent.named_append names _ _).mp hnamed
    obtain ⟨hchars, hfold⟩ := foldlM_runs hmembers
    obtain ⟨s₁, t₁, hrun, hwrote, htext⟩ := hfold hnamed₁ s hbegin hindent
    obtain ⟨t₂, hwrote₂, htext₂⟩ := putDictText_wrote hun s₁ (hwrote.indent ▸ hindent) entries
      !(o.members (convertMembers o entries)).isEmpty
    refine ⟨_, t₁ ++ t₂, ?_, hwrote.trans hwrote₂, htext.append_body hchars htext₂⟩
    dsimp only at hrun
    rw [convert, hrun]
    rfl

theorem convertMembers_runs (hun : Unseen ro o) (entries : List (Bytes × Value)) :
    List.Forall₂ (fun m m' => m.1 = m'.1 ∧ m'.2.characters = [] ∧
      Runs names o m.2 (MemberText names ro o) m'.2)
      (convertMembers o entries) (memberContents o entries) := by
  match entries with
  | [] =>
    rw [convertMembers, memberContents]
    exact .nil
  | (key, v) :: entries =>
    rw [convertMembers, memberContents]
    refine .cons ⟨rfl, ?_⟩ (convertMembers_runs hun entries)
    match v with
    | .list items =>
      simp only [Value.isList, if_true, contentOf, convert]
      exact ⟨itemContents_characters .., convertItems_runs hun _ items⟩
    | .str text =>
      simp only [Value.isList, Bool.false_eq_true, if_false]
      exact ⟨rfl, element_runs hun (convert_runs hun key (.str text)) key _⟩
    | .dict es =>
      simp only [Value.isList, Bool.false_eq_true, if_false]
      exact ⟨rfl, element_runs hun (convert_runs hun key (.dict es)) key _⟩

theorem convertItems_runs (hun : Unseen ro o) (name : Bytes) (items : List Value) :
    Runs names o (convertItems o name items) (MemberText names ro o)
      (itemContents o name items) := by
  match items with
  | [] =>
    intro _ s _ _
    rw [itemContents]
    exact ⟨s, [], by rw [convertItems], .refl s, memberText_nil⟩
  | v :: items =>
    intro hnamed s hbegin hindent
    rw [itemContents] at hnamed ⊢
    obtain ⟨hname, hattrs, hnodup, hbody, hrest⟩ := hnamed
    obtain ⟨s₁, t₁, hrun₁, hwrote₁, htext₁⟩ := element_runs hun (convert_runs hun [] v) name v
      ⟨hname, hattrs, hnodup, hbody, trivial⟩ s hbegin hindent
    obtain ⟨s₂, t₂, hrun₂, hwrote₂, htext₂⟩ :=
      convertItems_runs hun name items hrest s₁ (hwrote₁.begin.trans hbegin)
      (hwrote₁.indent ▸ hindent)
    refine ⟨s₂, t₁ ++ t₂, ?_, hwrote₁.trans hwrote₂, htext₁.append rfl htext₂⟩
    rw [convertItems]
    obtain ⟨s', hconvert, hend⟩ := Option.bind_eq_some_iff.mp hrun₁
    rw [hconvert, Option.bind_eq_bind, Option.bind_some, hend]
    exact hrun₂

end

theorem skipMisc_spaces {u text : Bytes} (hu : ∀ b ∈ u, isXmlSpace b = true)
    (htext : text.head?.all fun b => !isXmlSpace b) (hcomment : ¬ascii "<!--" <+: text) (fuel : ℕ) :
    skipMisc (fuel + 1) (u ++ text) = some text := by
  have hskip : skipSpaces (u ++ text) = text := by
    rw [skipSpaces, List.dropWhile_append_of_pos hu]
    cases text with
    | nil => rfl
    | cons b text => rw [List.dropWhile_cons_of_neg (by simpa using htext)]
  rw [skipMisc, hskip, skip_eq_none hcomment]

def Declares (xmlDec : Bytes) : Prop :=
  xmlDec = [] ∨ (XmlText xmlDec ∧ ∀ text, readDeclaration (xmlDec ++ text) = some text)

def prolog (o : Var2XmlOptions) : Bytes := if o.xmlDec.isEmpty then [] else o.xmlDec ++ o.newline

theorem prolog_text (hun : Unseen ro o) (hdec : Declares o.xmlDec) : XmlText (prolog o) := by
  rw [prolog]
  rcases hdec with hdec | ⟨hdec, -⟩
  · rw [hdec]
    exact xmlText_nil
  · split
    · exact xmlText_nil
    · exact (xmlText_spaces (hun.space _ blank_newline) _).mpr hdec

theorem prolog_skipped (hun : Unseen ro o) (hdec : Declares o.xmlDec) {b : UInt8}
    (hb : isNameByte b = true) (text : Bytes) :
    ∃ inner, readDeclaration (prolog o ++ 60 :: b :: text) = some inner ∧
      ∀ fuel, skipMisc (fuel + 1) inner = some (60 :: b :: text) := by
  have hmarkup : ∀ x (word : Bytes), isNameByte x = false →
      ¬60 :: x :: word <+: 60 :: b :: text := by
    rintro x word hx ⟨r, hr⟩
    rw [← (List.cons.inj (List.cons.inj hr).2).1, hx] at hb
    cases hb
  have hnone : readDeclaration (60 :: b :: text) = some (60 :: b :: text) :=
    if_neg fun hp => hmarkup 63 _ rfl (List.isPrefixOf_iff_prefix.mp hp)
  have hmisc : ∀ u, Blank o u → ∀ fuel, skipMisc (fuel + 1) (u ++ 60 :: b :: text) =
      some (60 :: b :: text) :=
    fun u hu fuel => skipMisc_spaces (hun.space u hu) (by rfl) (hmarkup 33 _ rfl) fuel
  rw [prolog]
  split
  · exact ⟨_, hnone, hmisc [] blank_nil⟩
  · rename_i hne
    obtain ⟨-, hread⟩ := hdec.resolve_left (by simpa using hne)
    exact ⟨_, by rw [List.append_assoc]; exact hread _, hmisc _ blank_newline⟩

theorem readDocument_prolog (hun : Unseen ro o) (hdec : Declares o.xmlDec) {name body : Bytes}
    {attrs : List (Bytes × Bytes)} {c : XmlContent} (hname : names.isName name = true)
    (hnames : ∀ a ∈ attrs, names.isName a.1 = true) (hnodup : (attrs.map Prod.fst).Nodup)
    (hbody : ReadsLast names body c)
    (hvalid : XmlText (prolog o ++ 60 :: tagText name attrs body)) :
    readDocument names (prolog o ++ 60 :: tagText name attrs body) =
      some ⟨name, attrs.map fun a => (a.1, normalizeValue a.2), c⟩ := by
  obtain ⟨hne, hbytes⟩ := names.bytes _ hname
  obtain ⟨b, root, hcons⟩ := List.exists_cons_of_ne_nil hne
  obtain ⟨rest, hrest⟩ : ∃ rest, tagText name attrs body = b :: rest :=
    ⟨_, by rw [tagText, hcons]; rfl⟩
  obtain ⟨inner, hdecl, hmisc⟩ :=
    prolog_skipped hun hdec (hbytes b (hcons ▸ List.mem_cons_self)) rest
  obtain ⟨n, hn⟩ : ∃ n, (prolog o ++ 60 :: tagText name attrs body).length = n + 1 :=
    ⟨_, by rw [List.length_append, List.length_cons]; exact Nat.add_succ ..⟩
  -- the declaration is text of the document too, so the fuel covers the element
  have hlen : (tagText name attrs body ++ []).length ≤ n + 1 := by
    rw [← hn, List.append_nil, List.length_append]
    exact (Nat.le_succ _).trans (Nat.le_add_left ..)
  have helement := readElement_append hname hnames hnodup (hbody.closed name) [] (n + 1) hlen
  rw [List.append_nil, hrest] at helement
  have hskip : skip [60] (60 :: b :: rest) = some (b :: rest) := rfl
  have hlast : skipMisc (n + 1) [] = some [] := rfl
  rw [readDocument, if_pos hvalid, hn, hrest, hdecl]
  simp only [Option.bind_eq_bind, Option.bind_some, hmisc n, hskip, helement, hlast]
  rfl

theorem process_reads (hun : Unseen ro o) (hdec : Declares o.xmlDec) {data : Value}
    (hdata : ∀ s, data ≠ .str s) (hnamed : (documentOf o data).content.Named names) :
    ∃ text, var2XmlProcess o data = some (.ok text) ∧
      (XmlText text ↔ (documentOf o data).content.Valid) ∧
      (XmlText text → ∃ d, readDocument names text = some d ∧ d.name = o.rootName ∧
        d.read ro = (documentOf o data).read ro) := by
  obtain ⟨hname, hattrs, hnodup, hbody, -⟩ := hnamed
  have hroot : (documentOf o data).name = o.rootName := rfl
  rw [hroot] at hname
  have hne := (names.bytes _ hname).1
  obtain ⟨s₁, body, hrun, hwrote, hbodytext⟩ :=
    convert_runs hun o.itemName data hbody (new.beginElement o o.rootName data) rfl
    (blank_nil.append blank_indent)
  obtain ⟨s', u, hend, hu, -, -, -, hout⟩ := element_wrote blank_nil hwrote
  obtain ⟨c, hreads, hrenders⟩ := hbodytext.reads
  obtain ⟨e, he, hinner⟩ := readsLast_blank hun hreads hu
  have hrender := hrenders.append_blank he hu
  have htext : s'.out = prolog o ++ 60 :: tagText o.rootName (writtenAttrs o data) (body ++ u) := by
    have hempty : o.rootName.isEmpty = false := by simpa using hne
    rw [hout, prolog, hempty]
    cases o.xmlDec.isEmpty <;> simp [new]
  have hprocess : var2XmlProcess o data = some (.ok s'.out) := by
    have hempty : ¬o.rootName.isEmpty = true := by simpa using hne
    cases data with
    | str text => exact absurd rfl (hdata text)
    | list items =>
      simp only [var2XmlProcess, if_neg hempty, hrun, hend, Option.bind_eq_bind, Option.bind_some]
    | dict entries =>
      simp only [var2XmlProcess, if_neg hempty, hrun, hend, Option.bind_eq_bind, Option.bind_some]
  refine ⟨s'.out, hprocess, ?_, fun hvalid => ?_⟩
  · rw [htext, xmlText_tagText, and_iff_right (prolog_text hun hdec),
      xmlText_spaces (hun.space u hu), hbodytext.valid]
    simp only [documentOf, XmlDocument.content, XmlContent.Valid, reportedAttrs,
      List.forall_mem_map, xmlText_normalizeValue, and_true]
  · have hnames : ∀ a ∈ writtenAttrs o data, names.isName a.1 = true := fun a ha =>
      hattrs (a.1, normalizeValue a.2) (List.mem_map_of_mem ha)
    have hdistinct : ((writtenAttrs o data).map Prod.fst).Nodup := by
      have : ((reportedAttrs o data).map Prod.fst).Nodup := hnodup
      rwa [reportedAttrs, List.map_map] at this
    refine ⟨⟨o.rootName, reportedAttrs o data, c.append e⟩, ?_, rfl, ?_⟩
    · rw [htext] at hvalid ⊢
      exact readDocument_prolog hun hdec hname hnames hdistinct hinner hvalid
    · simp only [XmlDocument.read, documentOf, hrender.addTo, hrender.storeText hun]

end Written

end Nkit
