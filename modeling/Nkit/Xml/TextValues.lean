import Nkit.Xml.Converter

/-! Values made of texts under the converter for any data.  With UTF-8 output it writes for them
what the converter without a transcoder writes. -/

namespace Nkit
open OrderedMap

mutual

def Value.toTree : Value → DynTree
  | .str s => .string s
  | .list items => .list (itemTrees items)
  | .dict map => .dict (entryTrees map)

def itemTrees : List Value → List DynTree
  | [] => []
  | v :: items => v.toTree :: itemTrees items

def entryTrees : List (Bytes × Value) → List (Bytes × DynTree)
  | [] => []
  | (key, v) :: entries => (key, v.toTree) :: entryTrees entries

end

theorem entryTrees_eq (entries : List (Bytes × Value)) :
    entryTrees entries = entries.map fun e => (e.1, e.2.toTree) := by
  induction entries with
  | nil => rfl
  | cons e entries ih => rw [entryTrees, ih, List.map_cons]

theorem get?_entryTrees (key : Bytes) (entries : List (Bytes × Value)) :
    get? bytesLt key (entryTrees entries) = (get? bytesLt key entries).map Value.toTree := by
  rw [entryTrees_eq, get?_map_values]

theorem isList_toTree (v : Value) : v.toTree.isList = v.isList := by cases v <;> rfl

namespace Converter
variable {lib : TextLib} {o : ConverterOptions}

theorem dataText_toTree (v : Value) : dataText lib o v.toTree = v.getString := by cases v <;> rfl

theorem attributes_toTree (v : Value) :
    attributes o v.toTree = (Var2XmlConverter.attributes o.toVar2XmlOptions v).map fun e =>
      (e.1, e.2.toTree) := by
  cases v with
  | str s => rfl
  | list items => rfl
  | dict entries =>
    rw [Value.toTree, attributes, Var2XmlConverter.attributes, get?_entryTrees]
    cases get? bytesLt o.attrKey entries with
    | none => rfl
    | some v =>
      cases v with
      | str s => rfl
      | list items => rfl
      | dict attrs => exact entryTrees_eq attrs

section
variable (ho : o.transcoder = none)
include ho

theorem appendTranscoded_plain (text : Bytes) :
    appendTranscoded o.transcoder text = text := by rw [ho, appendTranscoded]

theorem putText_plain (text : Bytes) :
    putText o.transcoder text = escapeText text := by rw [ho, escapeText_eq]

theorem putContent_plain (text : Bytes) (newline : Bool) (s : Var2XmlConverter) :
    putContent o text newline s = some (s.putText o.toVar2XmlOptions text newline) := by
  unfold putContent Var2XmlConverter.putText asCdata
  rw [putText_plain ho, ho, CdataLoop.putCdata_none]
  have hpath : (if newline then s.append (o.newline ++ s.currentIndent) else s).path = s.path := by
    cases newline <;> rfl
  dsimp only
  rw [hpath]
  cases text.isEmpty with
  | true => rfl
  | false =>
    cases o.cdata.isEmpty with
    | true => rfl
    | false =>
      simp only [Bool.false_eq_true, if_false]
      split_ifs <;> rfl

theorem putAttribute_toTree (attr : Bytes × Value) :
    putAttribute lib o (attr.1, attr.2.toTree) = Var2XmlConverter.putAttribute attr := by
  rw [putAttribute, Var2XmlConverter.putAttribute, appendTranscoded_plain ho, putText_plain ho,
    dataText_toTree]

theorem beginElement_toTree (name : Bytes) (v : Value) (s : Var2XmlConverter) :
    beginElement lib o name v.toTree s = s.beginElement o.toVar2XmlOptions name v := by
  have hattribute : (fun attr : Bytes × Value => putAttribute lib o (attr.1, attr.2.toTree)) =
      Var2XmlConverter.putAttribute :=
    funext (putAttribute_toTree ho)
  rw [beginElement, Var2XmlConverter.beginElement, attributes_toTree, appendTranscoded_plain ho,
    List.flatMap_map, hattribute, prolog]
  cases s.begin <;> rfl

theorem endElement_plain (s : Var2XmlConverter) :
    endElement o s = s.endElement o.toVar2XmlOptions := by
  rw [endElement, Var2XmlConverter.endElement]
  cases s.path with
  | nil => rfl
  | cons name path =>
    dsimp only
    rw [appendTranscoded_plain ho]
    cases s.firstEndAfterBegin <;> rfl

theorem putDictText_toTree (entries : List (Bytes × Value)) (newline : Bool)
    (s : Var2XmlConverter) :
    putDictText lib o (entryTrees entries) newline s =
      some (s.putDictText o.toVar2XmlOptions entries newline) := by
  rw [putDictText, Var2XmlConverter.putDictText, get?_entryTrees]
  cases get? bytesLt o.textKey entries with
  | none => rfl
  | some text =>
    dsimp only [Option.map_some]
    rw [dataText_toTree, putContent_plain ho]
    rfl

mutual

theorem convert_toTree (itemName : Bytes) :
    (v : Value) → ∀ s : Var2XmlConverter, convert lib o itemName v.toTree s =
      Var2XmlConverter.convert o.toVar2XmlOptions itemName v s
  | .str text, s => by
    rw [Value.toTree, convert, Var2XmlConverter.convert]
    · exact putContent_plain ho text false s
    all_goals
      intros
      contradiction
  | .list items, s => by
    rw [Value.toTree, convert, Var2XmlConverter.convert]
    exact convertItems_toTree _ items s
  | .dict entries, s => by
    rw [Value.toTree, convert, Var2XmlConverter.convert, convertMembers_toTree entries]
    congr 1
    funext s
    exact putDictText_toTree ho entries _ s

theorem convertMembers_toTree :
    (entries : List (Bytes × Value)) →
      convertMembers lib o (entryTrees entries) = Var2XmlConverter.convertMembers o.toVar2XmlOptions
        entries
  | [] => by rw [entryTrees, convertMembers, Var2XmlConverter.convertMembers]
  | (key, v) :: entries => by
    rw [entryTrees, convertMembers, Var2XmlConverter.convertMembers, convertMembers_toTree entries,
      isList_toTree]
    congr 2
    funext s
    rw [convert_toTree key v, convert_toTree key v, beginElement_toTree ho,
      funext (endElement_plain ho)]

theorem convertItems_toTree (name : Bytes) :
    (items : List Value) → ∀ s : Var2XmlConverter,
      convertItems lib o name (itemTrees items) s = Var2XmlConverter.convertItems o.toVar2XmlOptions
        name items s
  | [], s => by rw [itemTrees, convertItems, Var2XmlConverter.convertItems]
  | v :: items, s => by
    rw [itemTrees, convertItems, Var2XmlConverter.convertItems, convert_toTree [] v,
      beginElement_toTree ho, funext (endElement_plain ho), funext (convertItems_toTree name items)]

end

theorem processWith_toTree (v : Value) :
    processWith lib o v.toTree = var2XmlProcess o.toVar2XmlOptions v := by
  have hconvert : ∀ s, convert lib o o.itemName v.toTree s =
      Var2XmlConverter.convert o.toVar2XmlOptions o.itemName v s :=
    convert_toTree ho o.itemName v
  have hbegin : beginElement lib o o.rootName v.toTree .new =
      Var2XmlConverter.new.beginElement o.toVar2XmlOptions o.rootName v :=
    beginElement_toTree ho o.rootName v .new
  rw [processWith, hbegin, funext hconvert, funext (endElement_plain ho)]
  cases v with
  | str s => rfl
  | list items => rfl
  | dict entries => rfl

end

theorem transcoder_utf8 (find : Bytes → Option Transcoder) {settings : ConverterSettings}
    (h : settings.encodingName = ascii "UTF-8") :
    settings.transcoder find = .ok none := by
  rw [ConverterSettings.transcoder, h]
  rfl

theorem xmlDec_utf8 {settings : ConverterSettings} (h : settings.encodingName = ascii "UTF-8") :
    settings.xmlDec = (Var2XmlOptions.create settings.toVar2XmlSettings).xmlDec := by
  have htexts : ascii "\" encoding=\"UTF-8\" standalone=\"" = ascii "\" encoding=\"" ++
      (ascii "UTF-8" ++ ascii "\" standalone=\"") := by
    decide
  rw [ConverterSettings.xmlDec, h, Var2XmlOptions.create, htexts]
  cases (settings.version.getD []).isEmpty with
  | true => rfl
  | false => simp only [Bool.not_false, if_true, Bool.false_eq_true, if_false, List.append_assoc]

theorem process_toTree (find : Bytes → Option Transcoder) {settings : ConverterSettings}
    (h : settings.encoding = none) (v : Value) :
    process lib find settings v.toTree = var2XmlProcess (.create settings.toVar2XmlSettings) v := by
  have hname : settings.encodingName = ascii "UTF-8" := by
    rw [ConverterSettings.encodingName, h, Option.getD_none]
  rw [process, ConverterOptions.create, transcoder_utf8 find hname, xmlDec_utf8 hname]
  exact processWith_toTree rfl v

end Converter
end Nkit
