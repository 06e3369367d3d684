import Nkit.Xml.Written
import Nkit.Xml.StackMachine
import Nkit.Tools.Scanning

/-! Values written as XML and read back by `AnyXml2VarBuilder`: the layout of the text makes no
difference to the value that is read. -/

namespace Nkit
open OrderedMap XmlGrammar

section Trim
open Tools
variable {ws : Bytes}

theorem trim_blank {u v : Bytes} (s : Bytes) (hu : ∀ b ∈ u, isWhiteSpace ws b = true)
    (hv : ∀ b ∈ v, isWhiteSpace ws b = true) :
    trim (u ++ s ++ v) ws = trim s ws := by
  rw [trim_eq, trim_eq, Strip.strip_append hu hv]

end Trim

section Machine
open AnyXml2VarBuilder

theorem onText_append (a b : Bytes) (s : AnyXml2VarBuilder) :
    (s.onText a).onText b = s.onText (a ++ b) := by
  have hedit : ∀ (h : Handle) (m : Objects), (m.append a h).append b h = m.append (a ++ b) h := by
    intro h m
    cases h with
    | none => rfl
    | some x =>
      cases hobj : m.objs x with
      | none => simp [Objects.append, Objects.editString, Objects.get, hobj]
      | some obj =>
        cases obj with
        | str t => simp [Objects.append, Objects.editString, Objects.get, Objects.put, hobj]
        | list items => simp [Objects.append, Objects.editString, Objects.get, hobj]
        | dict map => simp [Objects.append, Objects.editString, Objects.get, hobj]
  simp only [onText, hedit]

theorem onText_nil (s : AnyXml2VarBuilder) : s.onText [] = s := by
  have hedit : ∀ (h : Handle) (m : Objects), m.append [] h = m := by
    intro h m
    cases h with
    | none => rfl
    | some x =>
      cases hobj : m.objs x with
      | none => simp [Objects.append, Objects.editString, Objects.get, hobj]
      | some obj =>
        cases obj with
        | str t =>
          have hself : Function.update m.objs x (some (.str t)) = m.objs := by
            rw [← hobj, Function.update_eq_self]
          simp [Objects.append, Objects.editString, Objects.get, Objects.put, hobj, hself]
        | list items => simp [Objects.append, Objects.editString, Objects.get, hobj]
        | dict map => simp [Objects.append, Objects.editString, Objects.get, hobj]
  simp only [onText, hedit]

theorem feed_joinTexts (o : Options) (events : List XmlEvent) (s : AnyXml2VarBuilder) :
    s.feed o (joinTexts events) = s.feed o events := by
  induction events generalizing s with
  | nil => rfl
  | cons e events ih =>
    cases e with
    | startElement el attrs =>
      rw [joinTexts, feed_cons, feed_cons]
      · exact congrArg _ (funext ih)
      · rintro _ ⟨⟩
    | endElement el =>
      rw [joinTexts, feed_cons, feed_cons]
      · exact congrArg _ (funext ih)
      · rintro _ ⟨⟩
    | text t =>
      rw [feed_cons, step, Option.bind_some, ← ih, joinTexts]
      split
      · rename_i t' rest hjoin
        rw [hjoin, feed_cons, feed_cons, step, step, Option.bind_some, Option.bind_some,
          onText_append]
      · split
        · rename_i hempty
          rw [List.isEmpty_iff.mp hempty, onText_nil]
        · rw [feed_cons, step, Option.bind_some]

theorem dynamicFromAnyXml_reads {names : NameTable} {expat : Expat} (hexpat : expat.Conforms names)
    {text : Bytes} {d : XmlDocument} (hread : readDocument names text = some d) (o : Options) :
    ∃ s, dynamicFromAnyXml expat o text = some s ∧ s.rootName = d.name ∧
      ∀ v, Reads s.objects ∅ s.var v ↔ v = d.read o.withDefaultKeys := by
  obtain ⟨hok, hevents⟩ := hexpat text d hread
  obtain ⟨s, hfeed, hname, hreads⟩ := fresh_create.feed (withDefaultKeys_attrkey o) d
  have hparse : AnyXml2VarBuilder.parse o (expat text).1 = some s := by
    rw [AnyXml2VarBuilder.parse, ← feed_joinTexts, hevents, feed_joinTexts, hfeed]
  refine ⟨s, ?_, hname, fun v => ⟨fun h => h.unique hreads, ?_⟩⟩
  · rw [dynamicFromAnyXml, hparse, hok]
    rfl
  · rintro rfl
    exact hreads

end Machine

def Var2XmlSettings.plain (s : Var2XmlSettings) : Var2XmlSettings :=
  { s with indent := none, newline := none, cdata := [], plusCdata := [], minusCdata := [] }

section Layout
variable (o : Var2XmlOptions) (indent newline : Bytes) (cdata : List Bytes) (cdataExclude : Bool)

mutual

theorem contentOf_layout (itemName : Bytes) (v : Value) :
    contentOf { o with indent, newline, cdata, cdataExclude } itemName v =
      contentOf o itemName v := by
  match v with
  | .str text => rw [contentOf, contentOf]
  | .list items =>
    rw [contentOf, contentOf]
    exact itemContents_layout _ items
  | .dict entries =>
    rw [contentOf, contentOf, memberContents_layout entries]
    rfl

theorem memberContents_layout (entries : List (Bytes × Value)) :
    memberContents { o with indent, newline, cdata, cdataExclude } entries =
      memberContents o entries := by
  match entries with
  | [] => rw [memberContents, memberContents]
  | (key, v) :: entries =>
    rw [memberContents, memberContents, memberContents_layout entries, contentOf_layout key v]
    rfl

theorem itemContents_layout (name : Bytes) (items : List Value) :
    itemContents { o with indent, newline, cdata, cdataExclude } name items =
      itemContents o name items := by
  match items with
  | [] => rw [itemContents, itemContents]
  | v :: items =>
    rw [itemContents, itemContents, itemContents_layout name items, contentOf_layout [] v]
    rfl

end

end Layout

theorem documentOf_plain (s : Var2XmlSettings) (data : Value) :
    documentOf (.create s.plain) data = documentOf (.create s) data := by
  have hcontent := contentOf_layout (.create s) [] [] [] false (Var2XmlOptions.create s).itemName
    data
  rw [documentOf, documentOf, ← hcontent]
  rfl

/-- The production `VersionNum`. -/
def VersionNum (v : Bytes) : Prop :=
  ∃ digits, digits ≠ [] ∧ (∀ d ∈ digits, 48 ≤ d ∧ d ≤ 57) ∧ v = ascii "1." ++ digits

theorem declares_create (s : Var2XmlSettings)
    (h : ∀ v, s.version = some v → v ≠ [] → VersionNum v) :
    Declares (Var2XmlOptions.create s).xmlDec := by
  cases hv : s.version with
  | none =>
    refine .inl ?_
    simp only [Var2XmlOptions.create, hv]
    rfl
  | some v =>
  by_cases hnil : v = []
  · refine .inl ?_
    simp only [Var2XmlOptions.create, hv, hnil]
    rfl
  · obtain ⟨digits, hne, hdigits, rfl⟩ := h v hv hnil
    have heq : (Var2XmlOptions.create s).xmlDec = ascii "<?xml version=\"1." ++
      (digits ++ (ascii "\" encoding=\"UTF-8\" standalone=\"" ++
        ((if s.standalone.getD true then ascii "yes" else ascii "no") ++ ascii "\"?>"))) := by
      simp only [Var2XmlOptions.create, hv, Option.getD_some]
      rw [if_neg (by simp [ascii])]
      have : ascii "<?xml version=\"1." = ascii "<?xml version=\"" ++ ascii "1." := by decide
      rw [this]
      simp only [List.append_assoc]
    have hall : ∀ d ∈ digits, (48 ≤ d && d ≤ 57) = true := fun d hd => by simpa using hdigits d hd
    rw [heq]
    refine .inr ⟨?_, fun text => ?_⟩
    · have hplain : isPlain digits = true := by
        rw [isPlain, Bool.and_eq_true, List.all_eq_true]
        refine ⟨by simpa using hne, fun d hd => ?_⟩
        obtain ⟨hge, hle⟩ := hdigits d hd
        have hlt : d < 0x80 := by grind
        have hname : isNameByte d = true := by
          simp only [isNameByte, Bool.or_eq_true, Bool.and_eq_true, decide_eq_true_eq]
          grind
        rw [Bool.and_eq_true, decide_eq_true_eq]
        exact ⟨hlt, isXmlChar_of_isNameByte hlt hname⟩
      rw [← List.append_assoc, xmlText_plain hplain]
      refine ⟨by decide, ?_⟩
      cases s.standalone.getD true
      all_goals decide
    · -- the reader takes the digits up to the quote behind them
      have htake : ∀ rest : Bytes, (rest.head?.all fun b => !(48 ≤ b && b ≤ 57)) →
          (digits ++ rest).takeWhile (fun b => 48 ≤ b && b ≤ 57) = digits := by
        intro rest hrest
        refine Spans.takeWhile_append_stop hall fun b hb => ?_
        rw [Option.mem_def.mp hb] at hrest
        exact (Bool.not_eq_true' _).mp hrest
      have hpre :
        (ascii "<?xml").isPrefixOf
          (ascii "<?xml version=\"1." ++ (digits ++ (ascii "\" encoding=\"UTF-8\" standalone=\"" ++
        ((if s.standalone.getD true then ascii "yes" else ascii "no") ++ ascii "\"?>"))) ++ text) =
          true := rfl
      rw [readDeclaration, if_pos hpre]
      simp only [List.append_assoc, skip_append, Option.bind_eq_bind, Option.bind_some]
      rw [htake _ rfl, if_neg (by simpa using hne), List.drop_left, skip_append]
      cases s.standalone.getD true
      all_goals rfl

/-- Dicts are maps in the order of their keys. -/
inductive Value.InOrder : Value → Prop where
  | str (s : Bytes) : InOrder (.str s)
  | list {items : List Value} (hitems : ∀ v ∈ items, InOrder v) : InOrder (.list items)
  | dict {map : List (Bytes × Value)} (hs : Sorted bytesLt map) (hvalues : ∀ e ∈ map, InOrder e.2) :
      InOrder (.dict map)

namespace XmlContent

/-- The names of elements and attributes are names. -/
def Tagged (names : NameTable) : XmlContent → Prop
  | nil => True
  | text _ rest => rest.Tagged names
  | element name attrs body rest =>
    names.isName name = true ∧ (∀ a ∈ attrs, names.isName a.1 = true) ∧ body.Tagged names ∧
      rest.Tagged names

def Distinct : XmlContent → Prop
  | nil => True
  | text _ rest => rest.Distinct
  | element _ attrs body rest => (attrs.map Prod.fst).Nodup ∧ body.Distinct ∧ rest.Distinct

theorem Tagged.named {names : NameTable} {c : XmlContent} (h : c.Tagged names) (h' : c.Distinct) :
    c.Named names := by
  induction c with
  | nil => trivial
  | text s rest ih => exact ih h h'
  | element name attrs body rest ih ih' =>
    exact ⟨h.1, h.2.1, h'.1, ih h.2.2.1 h'.2.1, ih' h.2.2.2 h'.2.2⟩

theorem distinct_append {a b : XmlContent} (ha : a.Distinct) (hb : b.Distinct) :
    (a.append b).Distinct := by
  induction a with
  | nil => exact hb
  | text s rest ih => exact ih ha
  | element name attrs body rest _ ih => exact ⟨ha.1, ha.2.1, ih ha.2.2⟩

end XmlContent

theorem nodup_keys {V : Type*} {m : List (Bytes × V)} (hs : Sorted bytesLt m) :
    (m.map Prod.fst).Nodup := by
  refine (sorted_iff_keys.mp hs).imp fun {a b} hlt heq => ?_
  rw [heq, bytesLt_strictWeak.irrefl] at hlt
  cases hlt

section Distinct
variable {o : Var2XmlOptions}

theorem reportedAttrs_nodup {v : Value} (hv : v.InOrder) :
    ((reportedAttrs o v).map Prod.fst).Nodup := by
  have hkeys : (reportedAttrs o v).map Prod.fst = (Var2XmlConverter.attributes o v).map
      Prod.fst := by
    simp [reportedAttrs, writtenAttrs, List.map_map, Function.comp_def]
  rw [hkeys]
  cases hv with
  | str s => exact List.nodup_nil
  | list h => exact List.nodup_nil
  | dict hs hvalues =>
    rw [Var2XmlConverter.attributes]
    split
    · rename_i attrs hget
      obtain ⟨key, hmem⟩ := mem_of_get? hget
      cases hvalues _ hmem with
      | dict hs' _ => exact nodup_keys hs'
    · exact List.nodup_nil

theorem distinct_concat {cs : List (Bytes × XmlContent)} (h : ∀ c ∈ cs, c.2.Distinct) :
    (concatContents cs).Distinct := by
  induction cs with
  | nil => trivial
  | cons c cs ih =>
    exact XmlContent.distinct_append (h c List.mem_cons_self)
      (ih fun c hc => h c (List.mem_cons_of_mem _ hc))

theorem mem_members {α : Type*} {entries : List (Bytes × α)} {e : Bytes × α}
    (h : e ∈ o.members entries) :
    ∃ key, (key, e.2) ∈ entries := by
  rcases List.mem_append.mp h with h | h
  · obtain ⟨key, -, hkey⟩ := List.mem_filterMap.mp h
    split at hkey
    · cases hkey
    · obtain ⟨v, hv, rfl⟩ := Option.map_eq_some_iff.mp hkey
      exact mem_of_get? hv
  · exact ⟨e.1, (List.mem_filter.mp h).1⟩

theorem distinct_text (s : Bytes) : (textContent s).Distinct := by
  rw [textContent]
  split <;> trivial

mutual

theorem contentOf_distinct (itemName : Bytes) (v : Value) (hv : v.InOrder) :
    (contentOf o itemName v).Distinct := by
  match v, hv with
  | .str text, _ =>
    rw [contentOf]
    exact distinct_text text
  | .list items, .list hitems =>
    rw [contentOf]
    exact itemContents_distinct _ items hitems
  | .dict entries, .dict hs hvalues =>
    rw [contentOf]
    refine XmlContent.distinct_append (distinct_concat fun c hc => ?_) ?_
    · obtain ⟨key, hkey⟩ := mem_members hc
      exact memberContents_distinct entries hvalues (key, c.2) hkey
    · rw [dictText]
      split
      · exact distinct_text _
      · trivial

theorem memberContents_distinct (entries : List (Bytes × Value)) (h : ∀ e ∈ entries, e.2.InOrder) :
    ∀ c ∈ memberContents o entries, c.2.Distinct := by
  match entries with
  | [] =>
    rw [memberContents]
    exact fun c hc => absurd hc List.not_mem_nil
  | (key, v) :: entries =>
    rw [memberContents, List.forall_mem_cons]
    have hv := h (key, v) List.mem_cons_self
    refine ⟨?_, memberContents_distinct entries fun e he => h e (List.mem_cons_of_mem _ he)⟩
    dsimp only
    split
    · exact contentOf_distinct key v hv
    · exact ⟨reportedAttrs_nodup hv, contentOf_distinct key v hv, trivial⟩

theorem itemContents_distinct (name : Bytes) (items : List Value) (h : ∀ v ∈ items, v.InOrder) :
    (itemContents o name items).Distinct := by
  match items with
  | [] =>
    rw [itemContents]
    trivial
  | v :: items =>
    rw [itemContents]
    have hv := h v List.mem_cons_self
    exact ⟨reportedAttrs_nodup hv, contentOf_distinct [] v hv,
      itemContents_distinct name items fun v hv => h v (List.mem_cons_of_mem _ hv)⟩

end

theorem documentOf_distinct {data : Value} (hdata : data.InOrder) :
    (documentOf o data).content.Distinct :=
  ⟨reportedAttrs_nodup hdata, contentOf_distinct _ data hdata, trivial⟩

end Distinct

theorem unseen_trim {ro : Options} (htrim : ro.trim = true)
    (hws : ro.whiteSpaces = Tools.whiteSpaces) {o : Var2XmlOptions}
    (hblank : ∀ b, b ∈ o.newline ∨ b ∈ o.indent → b ∈ Tools.whiteSpaces ∧ b ≠ 13) :
    Unseen ro o := by
  have hmem : ∀ b, b ∈ Tools.whiteSpaces ∧ b ≠ 13 → b = 32 ∨ b = 10 ∨ b = 9 := by
    rintro b ⟨hb, hne⟩
    have hb : b ∈ ([32, 10, 9, 13] : Bytes) := hb
    simp only [List.mem_cons, List.not_mem_nil, or_false] at hb
    tauto
  refine ⟨fun u hu b hb => ?_, fun u s v hu hv => ?_⟩
  · rcases hmem b (hblank b (hu b hb)) with rfl | rfl | rfl
    all_goals rfl
  · have hwhite : ∀ u, Blank o u → ∀ b ∈ u, Tools.isWhiteSpace Tools.whiteSpaces b = true := by
      intro u hu b hb
      rcases hmem b (hblank b (hu b hb)) with rfl | rfl | rfl
      all_goals decide
    rw [Options.trimmed, Options.trimmed, htrim, if_pos rfl, if_pos rfl, hws,
      trim_blank s (hwhite u hu) (hwhite v hv)]

theorem unseen_plain (ro : Options) {o : Var2XmlOptions} (hnewline : o.newline = [])
    (hindent : o.indent = []) : Unseen ro o := by
  have hnil : ∀ u, Blank o u → u = [] := by
    intro u hu
    refine List.eq_nil_iff_forall_not_mem.mpr fun b hb => ?_
    have := hu b hb
    rw [hnewline, hindent] at this
    rcases this with h | h
    all_goals exact absurd h List.not_mem_nil
  refine ⟨fun u hu b hb => ?_, fun u s v hu hv => ?_⟩
  · rw [hnil u hu] at hb
    exact absurd hb List.not_mem_nil
  · rw [hnil u hu, hnil v hv, List.append_nil, List.nil_append]

/-- However a value is laid out, the same value is read. -/
theorem formatting_keeps_value (names : NameTable) (expat : Expat) (hexpat : expat.Conforms names)
    (ro : Options) (htrim : ro.trim = true) (hws : ro.whiteSpaces = Tools.whiteSpaces)
    (settings : Var2XmlSettings) (hversion : ∀ v, settings.version = some v → v ≠ [] → VersionNum v)
    (hindent : ∀ b ∈ settings.indent.getD [], b ∈ Tools.whiteSpaces ∧ b ≠ 13)
    (hnewline : ∀ b ∈ settings.newline.getD [], b ∈ Tools.whiteSpaces ∧ b ≠ 13) (data : Value)
    (hdata : data.InOrder) (htags : (documentOf (.create settings) data).content.Tagged names)
    (plain : Bytes) (hplain : var2XmlProcess (.create settings.plain) data = some (.ok plain))
    (hwf : (readDocument names plain).isSome = true) :
    ∃ formatted s s' v, var2XmlProcess (.create settings) data = some (.ok formatted) ∧
      dynamicFromAnyXml expat ro plain = some s ∧ dynamicFromAnyXml expat ro formatted = some s' ∧
      s.rootName = s'.rootName ∧ (∀ w, Reads s.objects ∅ s.var w ↔ w = v) ∧
        ∀ w, Reads s'.objects ∅ s'.var w ↔ w = v := by
  have hnamed := htags.named (documentOf_distinct hdata)
  have hvalue : ∀ t, data ≠ .str t := by
    rintro t rfl
    cases hplain
  have hun : Unseen ro.withDefaultKeys (.create settings) := by
    have htrim' : ro.withDefaultKeys.trim = true := htrim
    refine unseen_trim htrim' hws ?_
    rintro b (hb | hb)
    · exact hnewline b hb
    · exact hindent b hb
  have hunplain : Unseen ro.withDefaultKeys (.create settings.plain) := unseen_plain _ rfl rfl
  obtain ⟨text, htext, hvalid, hread⟩ :=
    process_reads hunplain (declares_create settings.plain hversion) hvalue
    (documentOf_plain settings data ▸ hnamed)
  obtain ⟨formatted, hformatted, hvalid', hread'⟩ :=
    process_reads hun (declares_create settings hversion) hvalue hnamed
  obtain rfl : plain = text := by
    rw [hplain] at htext
    cases htext
    rfl
  have hchars : XmlText plain := by
    by_contra h
    rw [readDocument, if_neg h] at hwf
    cases hwf
  obtain ⟨d, hd, hname, hvalue⟩ := hread hchars
  rw [documentOf_plain] at hvalid hvalue
  obtain ⟨d', hd', hname', hvalue'⟩ := hread' (hvalid'.mpr (hvalid.mp hchars))
  obtain ⟨s, hs, hroot, hreads⟩ := dynamicFromAnyXml_reads hexpat hd ro
  obtain ⟨s', hs', hroot', hreads'⟩ := dynamicFromAnyXml_reads hexpat hd' ro
  refine ⟨formatted, s, s', _, hformatted, hs, hs', ?_, hreads, ?_⟩
  · rw [hroot, hroot', hname, hname']
    rfl
  · rw [hvalue, ← hvalue']
    exact hreads'

deriving instance DecidableEq for XmlContent

deriving instance DecidableEq for XmlDocument

def trimOptions : Options := ⟨true, Tools.whiteSpaces, false, ascii "$", ascii "_"⟩

def indented : Var2XmlSettings :=
  ⟨some (ascii "r"), none, none, none, some (ascii "1.0"), none, some (ascii " "),
    some (ascii "\n"), [ascii "b"], [], [], []⟩

def nestedData : Value :=
  .dict [(ascii "$", .dict [(ascii "k", .str (ascii "1<2"))]), (ascii "_", .str (ascii "x")),
    (ascii "b", .list [.str (ascii "]]>"), .dict [(ascii "c", .str [])]])]

theorem formatting_keeps_value_nested :
    ∃ formatted s s' v, var2XmlProcess (.create indented) nestedData = some (.ok formatted) ∧
      dynamicFromAnyXml (grammarExpat asciiNames) trimOptions
        (ascii "<?xml version=\"1.0\" encoding=\"UTF-8\" standalone=\"yes\"?>" ++
          ascii "<r k=\"1&lt;2\"><b>]]&gt;</b><b><c></c></b>x</r>") = some s ∧
      dynamicFromAnyXml (grammarExpat asciiNames) trimOptions formatted = some s' ∧
        s.rootName = s'.rootName ∧
      (∀ w, Reads s.objects ∅ s.var w ↔ w = v) ∧ ∀ w, Reads s'.objects ∅ s'.var w ↔ w = v := by
  refine formatting_keeps_value asciiNames (grammarExpat asciiNames)
    (grammarExpat_conforms asciiNames) trimOptions rfl rfl
    indented ?_ (by decide +kernel) (by decide +kernel) nestedData ?_ ?_ _ ?_ ?_
  · rintro v ⟨⟩ -
    exact ⟨ascii "0", by decide, by decide +kernel, rfl⟩
  · refine .dict (sorted_iff_keys.mpr (by decide)) ?_
    simp only [List.forall_mem_cons]
    refine ⟨.dict (sorted_iff_keys.mpr (by decide)) ?_, .str _, .list ?_, ?_⟩
    · simp only [List.forall_mem_cons]
      exact ⟨.str _, fun _ h => absurd h List.not_mem_nil⟩
    · simp only [List.forall_mem_cons]
      refine ⟨.str _, .dict (sorted_iff_keys.mpr (by decide)) ?_,
        fun _ h => absurd h List.not_mem_nil⟩
      simp only [List.forall_mem_cons]
      exact ⟨.str _, fun _ h => absurd h List.not_mem_nil⟩
    · exact fun _ h => absurd h List.not_mem_nil
  · have hnil : ∀ a ∈ ([] : List (Bytes × Bytes)), asciiNames.isName a.1 = true := fun a ha =>
      absurd ha List.not_mem_nil
    have hattrs : ∀ a ∈ [(ascii "k", ascii "1<2")], asciiNames.isName a.1 = true := by decide
    exact And.intro rfl
      (And.intro hattrs (And.intro (And.intro rfl (And.intro hnil (And.intro trivial
      (And.intro rfl
        (And.intro hnil
          (And.intro (And.intro rfl (And.intro hnil (And.intro trivial trivial))) trivial))))))
            trivial))
  · rfl
  · decide +kernel

/-- Keys that are no names: `b/>t<!--` and `c/>u<!--`. -/
def injectedData : Value := .dict [(ascii "b/>t<!--", .str []), (ascii "c/>u<!--", .str [])]

def lined : Var2XmlSettings :=
  ⟨some (ascii "r"), none, none, none, none, none, none, some (ascii "\n"), [], [], [], []⟩

def Value.textUnder (key : Bytes) : Value → Option Bytes
  | .dict map => (get? bytesLt key map).map Value.getString
  | _ => none

/-- A key that is no name can put text between elements, and a line end there is part of it. -/
theorem formatting_changes_value :
    ∃ plain formatted s s' v, var2XmlProcess (.create lined.plain) injectedData = some (.ok plain) ∧
      (readDocument asciiNames plain).isSome = true ∧ 13 ∉ plain ∧
      var2XmlProcess (.create lined) injectedData = some (.ok formatted) ∧
      dynamicFromAnyXml (grammarExpat asciiNames) trimOptions plain = some s ∧
      dynamicFromAnyXml (grammarExpat asciiNames) trimOptions formatted = some s' ∧
      Reads s.objects ∅ s.var v ∧ ¬Reads s'.objects ∅ s'.var v := by
  have hconforms := grammarExpat_conforms asciiNames
  obtain ⟨s, hs, -, hreads⟩ := dynamicFromAnyXml_reads hconforms
    (show readDocument asciiNames (ascii "<r><b/>t<!--></b/>t<!--><c/>u<!--></c/>u<!--></r>") =
      some ⟨ascii "r", [],
        .element (ascii "b") [] .nil (.text (ascii "t") (.element (ascii "c") [] .nil
        (.text (ascii "u") .nil)))⟩ by decide +kernel) trimOptions
  obtain ⟨s', hs', -, hreads'⟩ := dynamicFromAnyXml_reads hconforms
    (show readDocument asciiNames
      (ascii "<r>\n<b/>t<!--></b/>t<!-->\n<c/>u<!--></c/>u<!-->\n</r>") =
      some ⟨ascii "r", [],
        .text (ascii "\n") (.element (ascii "b") [] .nil (.text (ascii "t") (.text (ascii "\n")
        (.element (ascii "c") [] .nil (.text (ascii "u") (.text (ascii "\n") .nil))))))⟩
          by decide +kernel) trimOptions
  refine ⟨_, _, s, s', _, rfl, ?_, ?_, rfl, hs, hs', (hreads _).mpr rfl, fun h => ?_⟩
  · decide +kernel
  · decide
  · -- the texts of the two roots differ
    have htext := congrArg (Value.textUnder (ascii "_")) ((hreads' _).mp h)
    exact absurd htext (by decide +kernel)

end Nkit
