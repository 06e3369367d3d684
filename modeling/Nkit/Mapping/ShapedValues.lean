import Nkit.Json.Decimal
import Nkit.Mapping.Preservation
import Nkit.Mapping.Shapes
import Nkit.Mapping.WrittenElements
import Nkit.Xml.Priority
import Nkit.Xml.RoundTrip

/-! Values that are written as XML and read back with the mapping of their shape. -/

namespace Nkit
namespace Xml2Var
open OrderedMap XmlGrammar Converter

section
variable (names : NameTable) (lib : ScalarLib) (texts : TextLib) (ro : StructOptions)
  (o : ConverterOptions)

def ReadsBack (type : ScalarType) (v : DynTree) : Prop :=
  type.convert lib ro [] (ro.toOptions.trimmed (dataText texts o v)) = v

inductive LeafValue : ScalarType → DynTree → Prop
  | string {s : Bytes} (hs : XmlText s) (htrim : ro.toOptions.trimmed s = s) :
      LeafValue .string (.string s)
  | integer (w : BitVec 64) : LeafValue .integer (.plain .integer w)
  | boolean {w : BitVec 64} (hw : w = 0 ∨ w = 1) : LeafValue .boolean (.plain .bool w)
  | number {w : BitVec 64} (htext : XmlText (dataText texts o (.plain .float w)))
      (hread : ReadsBack lib texts ro o .number (.plain .float w)) :
        LeafValue .number (.plain .float w)
  | datetime {w : BitVec 64} (htext : XmlText (dataText texts o (.plain .dateTime w)))
      (hread : ReadsBack lib texts ro o .datetime (.plain .dateTime w)) :
        LeafValue .datetime (.plain .dateTime w)

structure AttrValues (attrs : List (Bytes × Bytes)) : Prop where
  key : ro.attrkey = o.attrKey
  keyed : o.attrKey ≠ []
  sorted : Sorted bytesLt attrs
  nonempty : attrs ≠ []
  names : ∀ a ∈ attrs, names.isName a.1 = true
  texts : ∀ a ∈ attrs, XmlText a.2 ∧ 9 ∉ a.2 ∧ 10 ∉ a.2

def attrTree (attrs : List (Bytes × Bytes)) : DynTree :=
  .dict (attrs.map fun a => (a.1, .string a.2))

/-- A dict need not have all fields; a list in it has items. -/
inductive HasShape : Shape → DynTree → Prop
  | leaf {type : ScalarType} {v : DynTree} (h : LeafValue lib texts ro o type v) :
      HasShape (.leaf type) v
  | list {item : Shape} {items : List DynTree} (h : ∀ v ∈ items, HasShape item v) :
      HasShape (.list item) (.list items)
  | record {fields : Fields} {entries : List (Bytes × DynTree)} (hsorted : Sorted bytesLt entries)
      (hattrs : ∀ v, (o.attrKey, v) ∈ entries → ∃ attrs, v = attrTree attrs ∧
        AttrValues names ro o attrs)
      (hkeys : ∀ e ∈ entries, e.1 ≠ o.attrKey → e.1 ∈ fields.keys ∧ e.2 ≠ .list [])
      (hvalues : ∀ key shape v, fields.Has key shape → (key, v) ∈ entries → HasShape shape v) :
      HasShape (.record fields) (.dict entries)

/-- The options of the writer and those of the reader. -/
structure Agrees : Prop where
  rootName : names.isName o.rootName = true
  itemName : ElementName names o.itemName
  keys : o.attrKey ≠ o.textKey
  blank : ∀ b, b ∈ o.newline ∨ b ∈ o.indent → b ∈ Tools.whiteSpaces ∧ b ≠ 13
  priority : o.priorityList.Nodup
  spaces : ro.whiteSpaces = Tools.whiteSpaces
  boolTexts : XmlText o.boolTrue ∧ XmlText o.boolFalse
  boolTrue : ScalarType.boolean.convert lib ro [] (ro.toOptions.trimmed o.boolTrue) = .plain .bool 1
  boolFalse : ScalarType.boolean.convert lib ro [] (ro.toOptions.trimmed o.boolFalse) =
    .plain .bool 0

end

section
variable {names : NameTable} {lib : ScalarLib} {texts : TextLib} {ro : StructOptions}
  {o : ConverterOptions}

theorem nameByte_of_digit {b : UInt8} (h : isDigit b = true ∨ b = 45) :
    isNameByte b = true ∧ b < 0x80 := by
  rcases h with h | rfl
  · simp only [isDigit, Bool.and_eq_true, decide_eq_true_eq] at h
    simp only [isNameByte, Bool.or_eq_true, Bool.and_eq_true, decide_eq_true_eq]
    grind
  · decide

theorem stringCast_isEmpty (i : ℤ) : (stringCast i).isEmpty = false := by
  rw [stringCast_eq]
  split
  · rfl
  · simpa using decimal_ne_nil i.natAbs

theorem xmlText_stringCast (i : ℤ) : XmlText (stringCast i) := by
  apply xmlText_of_isPlain
  rw [isPlain, Bool.and_eq_true, List.all_eq_true]
  constructor
  · rw [stringCast_isEmpty, Bool.not_false]
  · intro b hb
    obtain ⟨hname, hascii⟩ := nameByte_of_digit (stringCast_chars hb)
    rw [Bool.and_eq_true, decide_eq_true_eq]
    exact ⟨hascii, isXmlChar_of_isNameByte hascii hname⟩

theorem trimmed_stringCast (hspaces : ro.whiteSpaces = Tools.whiteSpaces) (i : ℤ) :
    ro.toOptions.trimmed (stringCast i) = stringCast i := by
  have hblack : ∀ b ∈ stringCast i, Tools.isWhiteSpace ro.whiteSpaces b = false := fun b hb =>
    hspaces ▸ isWhiteSpace_of_isNameByte (nameByte_of_digit (stringCast_chars hb)).1
  rw [Options.trimmed]
  split
  · rw [Tools.trim_eq]
    exact Strip.strip_of_bare ⟨fun b hb => hblack b (List.mem_of_mem_head? hb),
      fun b hb => hblack b (List.mem_of_getLast? hb)⟩
  · rfl

theorem LeafValue.reads (hagree : Agrees names lib ro o) {type : ScalarType} {v : DynTree}
    (h : LeafValue lib texts ro o type v) :
    (v.isDict || v.isList) = false ∧ XmlText (dataText texts o v) ∧
      type.convert lib ro [] (ro.toOptions.trimmed (dataText texts o v)) = v := by
  cases h with
  | string hs htrim =>
    refine ⟨rfl, hs, ?_⟩
    exact congrArg DynTree.string htrim
  | integer w =>
    have htext : dataText texts o (.plain .integer w) = stringCast w.toInt := rfl
    rw [htext, trimmed_stringCast hagree.spaces]
    refine ⟨rfl, xmlText_stringCast _, ?_⟩
    rw [ScalarType.convert, stringCast_isEmpty, cStr_stringCast,
      strtoll_stringCast w.le_toInt w.toInt_le]
    simp
  | boolean hw =>
    rcases hw with rfl | rfl
    · exact ⟨rfl, hagree.boolTexts.2, hagree.boolFalse⟩
    · exact ⟨rfl, hagree.boolTexts.1, hagree.boolTrue⟩
  | number htext hread => exact ⟨rfl, htext, hread⟩
  | datetime htext hread => exact ⟨rfl, htext, hread⟩

theorem ownText_characters (c : XmlContent) : c.ownText.getD [] = c.characters := by
  induction c with
  | nil => rfl
  | text s rest ih => exact congrArg (s ++ ·) ih
  | element name attrs body rest _ ih => exact ih

theorem bodyOf_leaf {v : DynTree} (h : (v.isDict || v.isList) = false) (name : Bytes) :
    bodyOf texts o o.members name v = ⟨.nil, dataText texts o v, false, none⟩ := by
  cases v with
  | dict entries => cases h
  | list items => cases h
  | plain | string | oid | table =>
    rw [bodyOf]
    all_goals
      intros
      contradiction

theorem bodyOf_list (name : Bytes) (items : List DynTree) :
    bodyOf texts o o.members name (.list items) =
      ⟨Forest.concat
        (items.map fun v => (bodyOf texts o o.members [] v).element (if name.isEmpty then o.itemName
          else name)
        (attrTexts texts o v) .nil), [], false, none⟩ := bodyUnder_list name items

theorem bodyOf_dict {entries : List (Bytes × DynTree)} (hsorted : Sorted bytesLt entries)
    (name : Bytes) :
    bodyOf texts o o.members name (.dict entries) =
      dictBody texts o entries (o.memberKeys entries).isEmpty
        (Forest.concat ((o.memberKeys entries).map (forestAt texts o o.priorityList entries))) :=
          bodyUnder_dict hsorted name

theorem select_name {name : Bytes} (h : ElementName names name) {e : XmlElement}
    (hnames : ∀ c ∈ e.content.children, Tools.cStr c.1 = c.1) :
    e.select [name] = (e.content.children.filter fun c => c.1 == name).map Prod.snd := by
  have hfilter : (e.content.children.filter fun c => nameMatches name c.1) =
      e.content.children.filter fun c => c.1 == name := by
    refine List.filter_congr fun c hc => ?_
    rw [nameMatches, hnames c hc, beq_eq_false_iff_ne.mpr h.ne_star, Bool.false_or, Bool.beq_comm]
  rw [XmlElement.select, hfilter]
  induction e.content.children.filter fun c => c.1 == name with
  | nil => rfl
  | cons c cs ih => exact congrArg (c.2 :: ·) ih

theorem filter_pieces {keys : List Bytes} {pieces : List (List (Bytes × XmlElement))}
    {R : Bytes → List (Bytes × XmlElement) → Prop} (h : List.Forall₂ R keys pieces)
    (hR : ∀ key ∈ keys, ∀ p, R key p → ∀ c ∈ p, c.1 = key) (hnodup : keys.Nodup) :
    (∀ key ∈ keys, R key (pieces.flatten.filter fun c => c.1 == key)) ∧
      ∀ key ∉ keys, (pieces.flatten.filter fun c => c.1 == key) = [] := by
  induction h with
  | nil => exact ⟨fun _ h => absurd h List.not_mem_nil, fun _ _ => rfl⟩
  | @cons key p keys pieces hp _ ih =>
    obtain ⟨hnot, hnodup⟩ := List.nodup_cons.mp hnodup
    obtain ⟨hin, hout⟩ := ih (fun key hkey => hR key (List.mem_cons_of_mem _ hkey)) hnodup
    have hname := hR key List.mem_cons_self p hp
    have hself : (p.filter fun c => c.1 == key) = p := List.filter_eq_self.mpr fun c hc => by
      simpa using hname c hc
    have hother : ∀ key', key' ≠ key → (p.filter fun c => c.1 == key') = [] := by
      intro key' hne
      refine List.filter_eq_nil_iff.mpr fun c hc heq => hne ?_
      rw [← hname c hc, eq_of_beq heq]
    constructor
    · intro key' hkey'
      rw [List.flatten_cons, List.filter_append]
      rcases List.mem_cons.mp hkey' with rfl | hkey'
      · rwa [hself, hout key' hnot, List.append_nil]
      · rw [hother key' fun heq => hnot (heq ▸ hkey'), List.nil_append]
        exact hin key' hkey'
    · intro key' hkey'
      obtain ⟨hne, hnotin⟩ := not_or.mp (mt List.mem_cons.mpr hkey')
      rw [List.flatten_cons, List.filter_append, hother key' hne, hout key' hnotin]
      rfl

structure Read (lib : ScalarLib) (texts : TextLib) (ro : StructOptions) (o : ConverterOptions)
    (shape : Shape) (v : DynTree) :
    Prop where
  eval : ∀ {name : Bytes} {elements : List Bytes} {e : XmlElement},
    (bodyOf texts o o.members name v).ReadAs (attrTexts texts o v) e →
    (v.isList = true → elements = [o.itemName] ∧ (name = [] ∨ name = o.itemName)) →
      (shape.spec o.itemName elements).eval lib ro e = v
  shown : ∀ {key : Bytes} {cs : List (Bytes × XmlElement)}, key ≠ [] → v ≠ .list [] →
    WrittenAs (memberUnder texts o o.priorityList key v) cs →
      (∀ c ∈ cs, c.1 = key) ∧ (shape.spec o.itemName []).shown lib ro (cs.map Prod.snd) = some v

theorem shown_singleton (itemName : Bytes) (elements : List Bytes) {shape : Shape}
    (hshape : ∀ item, shape ≠ .list item) (e : XmlElement) :
    (shape.spec itemName elements).shown lib ro [e] =
      some ((shape.spec itemName elements).eval lib ro e) := by
  cases shape with
  | leaf type =>
    rw [Shape.spec, TargetSpec.shown, TargetSpec.eval]
    rfl
  | list item => exact absurd rfl (hshape item)
  | record fields =>
    rw [Shape.spec, TargetSpec.shown, TargetSpec.eval]
    rfl

theorem read_of_eval {shape : Shape} {v : DynTree} (hlist : v.isList = false)
    (hshape : ∀ item, shape ≠ .list item)
    (h : ∀ {name : Bytes} {elements : List Bytes} {e : XmlElement},
      (bodyOf texts o o.members name v).ReadAs (attrTexts texts o v) e →
      (shape.spec o.itemName elements).eval lib ro e = v) :
    Read lib texts ro o shape v := by
  refine ⟨fun he _ => h he, fun {key cs} _ _ hcs => ?_⟩
  rw [memberUnder, hlist, if_neg Bool.false_ne_true] at hcs
  obtain ⟨e, ds, rfl, he, hds⟩ := hcs.of_element
  cases hds
  refine ⟨List.forall_mem_singleton.mpr rfl, ?_⟩
  rw [List.map_singleton, shown_singleton o.itemName [] hshape, h he]

theorem read_leaf (hagree : Agrees names lib ro o) {type : ScalarType} {v : DynTree}
    (h : LeafValue lib texts ro o type v) :
    Read lib texts ro o (.leaf type) v := by
  obtain ⟨hleaf, -, hconvert⟩ := h.reads hagree
  refine read_of_eval (Bool.or_eq_false_iff.mp hleaf).2 (fun _ h => by cases h)
    fun {name elements e} he => ?_
  rw [bodyOf_leaf hleaf] at he
  have htext : (textFor [] e).getD [] = dataText texts o v :=
    (ownText_characters _).trans (he.text rfl rfl rfl)
  rw [Shape.spec, TargetSpec.eval, ScalarTarget.eval, htext, ite_self]
  exact hconvert

theorem names_of_items {items : List DynTree} {name : Bytes} {R : DynTree → XmlElement → Prop}
    {cs : List (Bytes × XmlElement)}
    (hcs : List.Forall₂ (fun v c => c.1 = name ∧ R v c.2) items cs) : ∀ c ∈ cs, c.1 = name := by
  induction hcs with
  | nil => exact fun _ hc => absurd hc List.not_mem_nil
  | cons hc _ ih => exact List.forall_mem_cons.mpr ⟨hc.1, ih⟩

theorem map_eval_items {item : Shape} {items : List DynTree} {name : Bytes}
    (h : ∀ v ∈ items, Read lib texts ro o item v) {cs : List (Bytes × XmlElement)}
    (hcs : List.Forall₂ (fun v c => c.1 = name ∧
      (bodyOf texts o o.members [] v).ReadAs (attrTexts texts o v) c.2) items cs) :
    (cs.map Prod.snd).map (fun e => (item.spec o.itemName [o.itemName]).eval lib ro e) = items := by
  induction hcs with
  | nil => rfl
  | cons hc _ ih =>
    rw [List.map_cons, List.map_cons, ih fun v hv => h v (List.mem_cons_of_mem _ hv),
      (h _ List.mem_cons_self).eval hc.2 fun _ => ⟨rfl, .inl rfl⟩]

theorem read_list (hagree : Agrees names lib ro o) {item : Shape} {items : List DynTree}
    (h : ∀ v ∈ items, Read lib texts ro o item v) :
    Read lib texts ro o (.list item) (.list items) := by
  constructor
  · intro name elements e he hname
    obtain ⟨rfl, hitemName⟩ := hname rfl
    have hitem : (if name.isEmpty then o.itemName else name) = o.itemName := by
      rcases hitemName with rfl | rfl
      · rfl
      · exact ite_self _
    have hchildren := he.children
    rw [bodyOf, hitem] at hchildren
    have hitems := hchildren.of_items
    have hcStr : ∀ c ∈ e.content.children, Tools.cStr c.1 = c.1 := fun c hc => by
      rw [names_of_items hitems c hc, hagree.itemName.cStr_self]
    have hall : (e.content.children.filter fun c => c.1 == o.itemName) = e.content.children :=
      List.filter_eq_self.mpr fun c hc => by simpa using names_of_items hitems c hc
    rw [Shape.spec, TargetSpec.eval, select_name hagree.itemName hcStr, hall,
      map_eval_items h hitems]
  · intro key cs hkey hne hcs
    have hchildren : WrittenAs (itemForest texts o o.members key items) cs := by
      rw [memberUnder, DynTree.isList, if_pos rfl, bodyUnder, bodyOf,
        if_neg (by simpa using hkey)] at hcs
      exact hcs
    have hitems := hchildren.of_items
    have hlength := hitems.length_eq
    refine ⟨names_of_items hitems, ?_⟩
    rw [Shape.spec, TargetSpec.shown, select_nil, map_eval_items h hitems, if_neg]
    rw [List.isEmpty_map, List.isEmpty_iff]
    rintro rfl
    exact hne (congrArg DynTree.list (List.length_eq_zero_iff.mp hlength))

theorem normalizeValue_self {s : Bytes} (htab : 9 ∉ s) (hline : 10 ∉ s) : normalizeValue s = s := by
  refine (List.map_congr_left fun b hb => ?_).trans (List.map_id s)
  split
  · rename_i hspace
    simp only [isXmlSpace, Bool.or_eq_true, beq_iff_eq] at hspace
    rcases hspace with (rfl | rfl) | rfl
    · rfl
    · exact absurd hb htab
    · exact absurd hb hline
  · rfl

theorem attrDict_sorted {attrs : List (Bytes × Bytes)} (hs : Sorted bytesLt attrs) :
    attrDict attrs = attrs.map fun a => (a.1, .string a.2) := by
  have hs' : Sorted bytesLt ([] ++ attrs.map fun a => (a.1, DynTree.string a.2)) :=
    Sorted.of_keys (by rw [List.nil_append, List.map_map]; rfl) hs
  exact foldl_update (fun a : Bytes × Bytes => a.1) (fun a => DynTree.string a.2)
    (fun a _ => DynTree.string a.2) hs'

theorem attrEntries_nil : attrEntries ro [] = [] := by
  rw [attrEntries, List.isEmpty_nil, Bool.not_true, Bool.and_false, if_neg Bool.false_ne_true]

theorem attrTexts_dict (texts : TextLib) {entries : List (Bytes × DynTree)}
    (hsorted : Sorted bytesLt entries)
    (hattrs : ∀ v, (o.attrKey, v) ∈ entries → ∃ attrs, v = attrTree attrs ∧
      AttrValues names ro o attrs) :
    get? bytesLt o.attrKey entries = none ∧ attrTexts texts o (.dict entries) = [] ∨
      ∃ attrs, get? bytesLt o.attrKey entries = some (attrTree attrs) ∧
        AttrValues names ro o attrs ∧
        attrTexts texts o (.dict entries) = attrs := by
  rw [attrTexts]
  cases hget : get? bytesLt o.attrKey entries with
  | none =>
    have hnone : attributes o (.dict entries) = [] := by simp only [attributes, hget]
    rw [hnone]
    exact .inl ⟨rfl, rfl⟩
  | some v =>
    obtain ⟨attrs, rfl, hvalues⟩ := hattrs v ((mem_iff_get? hsorted).mpr hget)
    have hsome : attributes o (.dict entries) = attrs.map fun a => (a.1, .string a.2) := by
      simp only [attributes, hget, attrTree]
    refine .inr ⟨attrs, rfl, hvalues, ?_⟩
    rw [hsome, List.map_map]
    exact List.map_id attrs

theorem attrTexts_sound (texts : TextLib) {entries : List (Bytes × DynTree)}
    (hsorted : Sorted bytesLt entries)
    (hattrs : ∀ v, (o.attrKey, v) ∈ entries → ∃ attrs, v = attrTree attrs ∧
      AttrValues names ro o attrs) :
    (∀ a ∈ attrTexts texts o (.dict entries), names.isName a.1 = true ∧ XmlText a.2) ∧
      ((attrTexts texts o (.dict entries)).map Prod.fst).Nodup := by
  rcases attrTexts_dict texts hsorted hattrs with ⟨-, htexts⟩ | ⟨attrs, -, hvalues, htexts⟩
  · rw [htexts]
    exact ⟨fun _ h => absurd h List.not_mem_nil, List.nodup_nil⟩
  · rw [htexts]
    exact ⟨fun a ha => ⟨hvalues.names a ha, (hvalues.texts a ha).1⟩, nodup_keys hvalues.sorted⟩

theorem get?_attrEntries {entries : List (Bytes × DynTree)} (hsorted : Sorted bytesLt entries)
    (hattrs : ∀ v, (o.attrKey, v) ∈ entries → ∃ attrs, v = attrTree attrs ∧
      AttrValues names ro o attrs) (key : Bytes) :
    get? bytesLt key
      (attrEntries ro
        ((attrTexts texts o (.dict entries)).map fun a => (a.1, normalizeValue a.2))) =
      if key = o.attrKey then get? bytesLt key entries else none := by
  rcases attrTexts_dict texts hsorted hattrs with ⟨hget, htexts⟩ | ⟨attrs, hget, hvalues, htexts⟩
  · rw [htexts, List.map_nil, attrEntries_nil]
    split_ifs with hkey
    · rw [hkey, hget]
      rfl
    · rfl
  · have hreported : attrs.map (fun a => (a.1, normalizeValue a.2)) = attrs := by
      refine (List.map_congr_left fun a ha => ?_).trans (List.map_id attrs)
      obtain ⟨-, htab, hline⟩ := hvalues.texts a ha
      exact congrArg (Prod.mk a.1) (normalizeValue_self htab hline)
    have hentries : attrEntries ro attrs = [(o.attrKey, attrTree attrs)] := by
      rw [attrEntries, hvalues.key, List.isEmpty_eq_false_iff.mpr hvalues.keyed,
        List.isEmpty_eq_false_iff.mpr hvalues.nonempty, attrDict_sorted hvalues.sorted]
      rfl
    rw [htexts, hreported, hentries, get?_cons_bytes (List.pairwise_singleton _ _)]
    by_cases hkey : key = o.attrKey
    · rw [if_pos hkey.symm, if_pos hkey, hkey, hget]
    · rw [if_neg (Ne.symm hkey), if_neg hkey]
      rfl

theorem shown_fields {entries : List (Bytes × DynTree)} {e : XmlElement} :
    (fields : Fields) → (∀ key shape, fields.Has key shape →
      (shape.spec o.itemName []).shown lib ro (e.select [key]) = get? bytesLt key entries) →
      (fields.specs o.itemName).shown lib ro e = fields.keys.map fun key =>
        (key, get? bytesLt key entries)
  | .nil, _ => by
    rw [Fields.specs, EntrySpecs.shown]
    rfl
  | .cons key shape rest, h => by
    rw [Fields.specs, EntrySpecs.shown, h key shape (.inl ⟨rfl, rfl⟩),
      shown_fields rest fun key shape hhas => h key shape (.inr hhas)]
    rfl

theorem shown_nil (itemName : Bytes) (elements : List Bytes) (shape : Shape) :
    (shape.spec itemName elements).shown lib ro [] = none := by
  cases shape with
  | leaf type =>
    rw [Shape.spec, TargetSpec.shown]
    rfl
  | list item =>
    rw [Shape.spec, TargetSpec.shown]
    rfl
  | record fields =>
    rw [Shape.spec, TargetSpec.shown]
    rfl

theorem get?_none_of_not_mem {key : Bytes} {entries : List (Bytes × DynTree)}
    (hs : Sorted bytesLt entries) (h : ∀ v, (key, v) ∉ entries) : get? bytesLt key entries = none :=
  Option.eq_none_iff_forall_ne_some.mpr fun v hget => h v ((mem_iff_get? hs).mpr hget)

section
variable {fields : Fields} {entries : List (Bytes × DynTree)} (hsorted : Sorted bytesLt entries)
  (hkeys : ∀ e ∈ entries, e.1 ≠ o.attrKey → e.1 ∈ fields.keys ∧ e.2 ≠ .list [])
    (hnamed : fields.Named names o.toVar2XmlOptions)
include hsorted hkeys

theorem member_field {key : Bytes} (hkey : key ∈ o.memberKeys entries) :
    ∃ v shape, (key, v) ∈ entries ∧ fields.Has key shape ∧ v ≠ .list [] := by
  obtain ⟨hmember, v, hv⟩ := (Var2XmlOptions.mem_memberKeys hsorted).mp hkey
  have hattr : key ≠ o.attrKey := by
    rintro rfl
    simp [Var2XmlOptions.isMember] at hmember
  obtain ⟨hmem, hne⟩ := hkeys _ hv hattr
  obtain ⟨shape, hshape⟩ := fields.has_of_mem hmem
  exact ⟨v, shape, hv, hshape, hne⟩

include hnamed

theorem read_fields (hpriority : o.priorityList.Nodup)
    (hvalues : ∀ key shape v, fields.Has key shape → (key, v) ∈ entries →
      Read lib texts ro o shape v) {e : XmlElement}
    (h : WrittenAs
      (Forest.concat ((o.memberKeys entries).map (forestAt texts o o.priorityList entries)))
      e.content.children) {key : Bytes} {shape : Shape} (hhas : fields.Has key shape) :
    (shape.spec o.itemName []).shown lib ro (e.select [key]) = get? bytesLt key entries := by
  obtain ⟨pieces, hpieces, hforests⟩ := h.of_concat
  rw [List.forall₂_map_left_iff] at hforests
  have hread : ∀ {key v shape cs}, (key, v) ∈ entries → fields.Has key shape → v ≠ .list [] →
      WrittenAs (forestAt texts o o.priorityList entries key) cs →
        (∀ c ∈ cs, c.1 = key) ∧ (shape.spec o.itemName []).shown lib ro (cs.map Prod.snd) =
          some v := by
    intro key v shape cs hv hshape hne hcs
    rw [forestAt_eq hsorted hv] at hcs
    exact (hvalues key shape v hshape hv).shown (hnamed.of_has hshape).1.1.ne_nil hne hcs
  obtain ⟨hin, hout⟩ := filter_pieces hforests (fun key hkey cs hcs => by
    obtain ⟨v, shape, hv, hshape, hne⟩ := member_field hsorted hkeys hkey
    exact (hread hv hshape hne hcs).1) (Var2XmlOptions.nodup_memberKeys hsorted hpriority)
  rw [← hpieces] at hin hout
  have hcStr : ∀ c ∈ e.content.children, Tools.cStr c.1 = c.1 := by
    intro c hc
    by_cases hmem : c.1 ∈ o.memberKeys entries
    · obtain ⟨v, shape, hv, hshape, hne⟩ := member_field hsorted hkeys hmem
      exact (hnamed.of_has hshape).1.1.cStr_self
    · exact absurd (hout c.1 hmem ▸ List.mem_filter.mpr ⟨hc, beq_self_eq_true c.1⟩) List.not_mem_nil
  obtain ⟨hname, hattr, htext⟩ := (hnamed.of_has hhas).1
  rw [select_name hname hcStr]
  by_cases hkey : key ∈ o.memberKeys entries
  · obtain ⟨v, shape', hv, hshape', hne⟩ := member_field hsorted hkeys hkey
    rw [(hread hv hhas hne (hin key hkey)).2, get?_eq_some_of_mem bytesLt_strictWeak hsorted hv]
  · rw [hout key hkey, List.map_nil, shown_nil]
    refine (get?_none_of_not_mem hsorted fun v hv =>
      hkey ((Var2XmlOptions.mem_memberKeys hsorted).mpr ⟨?_, v, hv⟩)).symm
    simp [Var2XmlOptions.isMember, Ne.symm hattr, Ne.symm htext]

theorem read_record (hpriority : o.priorityList.Nodup) (hnodup : fields.keys.Nodup)
    (hattrs : ∀ v, (o.attrKey, v) ∈ entries → ∃ attrs, v = attrTree attrs ∧
      AttrValues names ro o attrs)
    (hvalues : ∀ key shape v, fields.Has key shape → (key, v) ∈ entries →
      Read lib texts ro o shape v) :
    Read lib texts ro o (.record fields) (.dict entries) := by
  refine read_of_eval rfl (fun _ h => by cases h) fun {name elements e} he => ?_
  have hchildren := he.children
  rw [bodyOf_dict hsorted, dictBody_children] at hchildren
  have hshown := shown_fields fields fun key shape hhas =>
    read_fields hsorted hkeys hnamed hpriority hvalues hchildren hhas
  have hfst :
      ((fields.keys.map fun key => (key, get? bytesLt key entries)).map Prod.fst).Nodup := by
    rw [List.map_map]
    exact (List.map_id fields.keys).symm ▸ hnodup
  rw [Shape.spec, TargetSpec.eval, hshown, he.attrs]
  refine congrArg DynTree.dict (Sorted.ext_get? bytesLt_strictWeak equiv_bytesLt.mp
    (overlay_sorted bytesLt_strictWeak (Tallied.sorted_attrEntries ro _) _) hsorted
    fun key => ?_)
  by_cases hkey : key ∈ fields.keys
  · obtain ⟨shape, hshape⟩ := fields.has_of_mem hkey
    rw [get?_overlay bytesLt_strictWeak equiv_bytesLt.mp hfst (List.mem_map_of_mem hkey),
      get?_attrEntries hsorted hattrs, if_neg (hnamed.of_has hshape).1.2.1, Option.or_none]
  · rw [get?_overlay_of_not_mem bytesLt_strictWeak, get?_attrEntries hsorted hattrs]
    · split_ifs with hattr
      · rfl
      · exact (get?_none_of_not_mem hsorted fun v hv => hkey (hkeys _ hv hattr).1).symm
    · intro e he
      obtain ⟨key', hkey', rfl⟩ := List.mem_map.mp he
      exact not_equiv_of_ne equiv_bytesLt.mp fun heq => hkey (heq ▸ hkey')

end

theorem HasShape.read (hagree : Agrees names lib ro o) {shape : Shape} {v : DynTree}
    (h : HasShape names lib texts ro o shape v) (hnamed : shape.Named names o.toVar2XmlOptions) :
    Read lib texts ro o shape v := by
  induction h with
  | leaf h => exact read_leaf hagree h
  | list h ih =>
    rw [Shape.Named] at hnamed
    exact read_list hagree fun v hv => ih v hv hnamed
  | record hsorted hattrs hkeys hvalues ih =>
    rw [Shape.Named] at hnamed
    exact read_record hsorted hkeys hnamed.2 hagree.priority hnamed.1 hattrs
      fun key shape v hhas hv =>
      ih key shape v hhas hv (hnamed.2.of_has hhas).2

structure SoundValue (names : NameTable) (texts : TextLib) (o : ConverterOptions) (v : DynTree) :
    Prop where
  children : ∀ {name : Bytes}, name = [] ∨ names.isName name = true →
    (bodyOf texts o o.members name v).children.Each (ElementLabel.Sound names)
  text : ∀ {name : Bytes}, XmlText (bodyOf texts o o.members name v).text
  attrs : ∀ a ∈ attrTexts texts o v, names.isName a.1 = true ∧ XmlText a.2
  distinct : ((attrTexts texts o v).map Prod.fst).Nodup

theorem SoundValue.element {v : DynTree} (h : SoundValue names texts o v) {itemName name : Bytes}
    (hitem : itemName = [] ∨ names.isName itemName = true) (hname : names.isName name = true) :
    ((bodyOf texts o o.members itemName v).element name (attrTexts texts o v) .nil).Each
      (ElementLabel.Sound names) :=
  ⟨⟨hname, fun a ha => (h.attrs a ha).1, fun a ha => (h.attrs a ha).2, h.distinct, h.text⟩,
    h.children hitem, trivial⟩

theorem sound_leaf (hagree : Agrees names lib ro o) {type : ScalarType} {v : DynTree}
    (h : LeafValue lib texts ro o type v) :
    SoundValue names texts o v := by
  obtain ⟨hleaf, htext, -⟩ := h.reads hagree
  have hattrs : attrTexts texts o v = [] := by
    cases h <;> rfl
  refine ⟨fun {name} _ => ?_, fun {name} => ?_, ?_, ?_⟩
  · rw [bodyOf_leaf hleaf]
    exact trivial
  · rw [bodyOf_leaf hleaf]
    exact htext
  · rw [hattrs]
    exact fun _ h => absurd h List.not_mem_nil
  · rw [hattrs]
    exact List.nodup_nil

theorem sound_list (hagree : Agrees names lib ro o) {items : List DynTree}
    (h : ∀ v ∈ items, SoundValue names texts o v) :
    SoundValue names texts o (.list items) := by
  refine ⟨fun {name} hname => ?_, fun {name} => ?_, fun _ h => absurd h List.not_mem_nil,
    List.nodup_nil⟩
  · rw [bodyOf_list, Forest.each_concat, List.forall_mem_map]
    intro v hv
    refine (h v hv).element (.inl rfl) ?_
    rcases hname with rfl | hname
    · exact hagree.itemName.isName
    · rw [List.isEmpty_eq_false_iff.mpr (names.bytes name hname).1, if_neg Bool.false_ne_true]
      exact hname
  · rw [bodyOf_list]
    exact xmlText_nil

theorem sound_record (hagree : Agrees names lib ro o) {fields : Fields}
    {entries : List (Bytes × DynTree)} (hsorted : Sorted bytesLt entries)
    (hkeys : ∀ e ∈ entries, e.1 ≠ o.attrKey → e.1 ∈ fields.keys ∧ e.2 ≠ .list [])
    (hnamed : fields.Named names o.toVar2XmlOptions)
    (hattrs : ∀ v, (o.attrKey, v) ∈ entries → ∃ attrs, v = attrTree attrs ∧
      AttrValues names ro o attrs)
    (hvalues : ∀ key shape v, fields.Has key shape → (key, v) ∈ entries →
      SoundValue names texts o v) :
    SoundValue names texts o (.dict entries) := by
  have hfield : ∀ {key v}, (key, v) ∈ entries → key ≠ o.attrKey → ∃ shape, fields.Has key shape :=
    fun hv hattr =>
    fields.has_of_mem (hkeys _ hv hattr).1
  have htext : get? bytesLt o.textKey entries = none := by
    refine get?_none_of_not_mem hsorted fun v hv => ?_
    obtain ⟨shape, hshape⟩ := hfield hv (Ne.symm hagree.keys)
    exact (hnamed.of_has hshape).1.2.2 rfl
  have hbody : ∀ name, bodyOf texts o o.members name (.dict entries) =
      ⟨Forest.concat ((o.memberKeys entries).map (forestAt texts o o.priorityList entries)), [],
        false, none⟩ := by
    intro name
    rw [bodyOf_dict hsorted, dictBody, htext]
  obtain ⟨htexts, hdistinct⟩ := attrTexts_sound texts hsorted hattrs
  refine ⟨fun {name} _ => ?_, fun {name} => ?_, htexts, hdistinct⟩
  · rw [hbody, Forest.each_concat, List.forall_mem_map]
    intro key hkey
    obtain ⟨v, shape, hv, hshape, -⟩ := member_field hsorted hkeys hkey
    have hname := (hnamed.of_has hshape).1.1.isName
    rw [forestAt_eq hsorted hv, memberUnder]
    split_ifs
    · exact (hvalues key shape v hshape hv).children (.inr hname)
    · exact (hvalues key shape v hshape hv).element (.inr hname) hname
  · rw [hbody]
    exact xmlText_nil

theorem HasShape.sound (hagree : Agrees names lib ro o) {shape : Shape} {v : DynTree}
    (h : HasShape names lib texts ro o shape v) (hnamed : shape.Named names o.toVar2XmlOptions) :
    SoundValue names texts o v := by
  induction h with
  | leaf h => exact sound_leaf hagree h
  | list h ih =>
    rw [Shape.Named] at hnamed
    exact sound_list hagree fun v hv => ih v hv hnamed
  | record hsorted hattrs hkeys hvalues ih =>
    rw [Shape.Named] at hnamed
    exact sound_record hagree hsorted hkeys hnamed.2 hattrs fun key shape v hhas hv =>
      ih key shape v hhas hv (hnamed.2.of_has hhas).2

end

end Xml2Var
end Nkit
