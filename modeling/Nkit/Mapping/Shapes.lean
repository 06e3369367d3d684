import Nkit.Mapping.Meaning
import Nkit.Tools.Splitting
import Nkit.Xml.Grammar
import Nkit.Xml.Var2Xml

/-! Shapes of values, and the mapping that reads values of a shape back from the elements that they
are written as: a list of the elements with the item name, an object with an entry for every field,
and in it a list of all elements with the name of the field. -/

namespace Nkit
namespace Xml2Var
open OrderedMap

mutual

inductive Shape where
  | leaf (type : ScalarType)
  | list (item : Shape)
  | record (fields : Fields)

inductive Fields where
  | nil
  | cons (key : Bytes) (shape : Shape) (rest : Fields)

end

def ScalarType.word : ScalarType → Bytes
  | string => ascii "string"
  | integer => ascii "integer"
  | number => ascii "number"
  | boolean => ascii "boolean"
  | datetime => ascii "datetime"

def Fields.keys : Fields → List Bytes
  | nil => []
  | cons key _ rest => key :: rest.keys

def Fields.Has (key : Bytes) (shape : Shape) : Fields → Prop
  | nil => False
  | cons key' shape' rest => key = key' ∧ shape = shape' ∨ rest.Has key shape

theorem Fields.has_of_mem {key : Bytes} :
    (fields : Fields) → key ∈ fields.keys → ∃ shape, fields.Has key shape
  | .nil, h => absurd h List.not_mem_nil
  | .cons _ _ rest, h => by
    rcases List.mem_cons.mp h with rfl | h
    · exact ⟨_, .inl ⟨rfl, rfl⟩⟩
    · obtain ⟨shape, hshape⟩ := rest.has_of_mem h
      exact ⟨shape, .inr hshape⟩

section
variable (itemName : Bytes)

mutual

/-- The items of a list stand in the elements at `path`. -/
def Shape.mapping (path : Bytes) : Shape → DynTree
  | .leaf type => .string type.word
  | .list item => .list [.string path, item.mapping itemName]
  | .record fields => .dict fields.mapping

def Fields.mapping : Fields → List (Bytes × DynTree)
  | .nil => []
  | .cons key shape rest => (key, shape.mapping (ascii "/")) :: rest.mapping

end

mutual

def Shape.spec (path : List Bytes) : Shape → TargetSpec
  | .leaf type => .scalar ⟨type, [], none⟩ []
  | .list item => .list path (item.spec [itemName])
  | .record fields => .object fields.specs

def Fields.specs : Fields → EntrySpecs
  | .nil => .nil
  | .cons key shape rest => .cons key false [key] (shape.spec []) rest.specs

end

end

structure ElementName (names : NameTable) (name : Bytes) : Prop where
  isName : names.isName name = true
  length : name.length < 2 ^ 64

mutual

/-- Fields have names of elements, no two of them the same. -/
def Shape.Named (names : NameTable) (o : Var2XmlOptions) : Shape → Prop
  | .leaf _ => True
  | .list item => item.Named names o
  | .record fields => fields.keys.Nodup ∧ fields.Named names o

def Fields.Named (names : NameTable) (o : Var2XmlOptions) : Fields → Prop
  | .nil => True
  | .cons key shape rest =>
    (ElementName names key ∧ key ≠ o.attrKey ∧ key ≠ o.textKey) ∧ shape.Named names o ∧
      rest.Named names o

end

theorem Fields.Named.of_has {names : NameTable} {o : Var2XmlOptions} {key : Bytes} {shape : Shape} :
    {fields : Fields} → fields.Named names o → fields.Has key shape →
      (ElementName names key ∧ key ≠ o.attrKey ∧ key ≠ o.textKey) ∧ shape.Named names o
  | .nil, _, h => h.elim
  | .cons _ _ _, hnamed, h => by
    rw [Fields.Named] at hnamed
    rcases h with ⟨rfl, rfl⟩ | h
    · exact ⟨hnamed.1, hnamed.2.1⟩
    · exact Fields.Named.of_has hnamed.2.2 h

section
variable {names : NameTable} {name : Bytes} {b : UInt8}

theorem isWhiteSpace_of_isNameByte (h : isNameByte b = true) :
    Tools.isWhiteSpace Tools.whiteSpaces b = false := by
  rw [Tools.isWhiteSpace_false_iff (by decide)]
  refine ⟨?_, fun hb => ?_⟩
  · rintro rfl
    cases h
  · have hb : b ∈ ([32, 10, 9, 13] : Bytes) := hb
    simp only [List.mem_cons, List.not_mem_nil, or_false] at hb
    rcases hb with rfl | rfl | rfl | rfl
    all_goals cases h

namespace ElementName
variable (h : ElementName names name)
include h

theorem byte : ∀ b ∈ name, isNameByte b = true := (names.bytes name h.isName).2

theorem ne_nil : name ≠ [] := (names.bytes name h.isName).1

theorem not_infix {d : Bytes} (hd : ∃ b ∈ d, isNameByte b = false) : ¬d <:+: name := by
  rintro hin
  obtain ⟨b, hb, hnot⟩ := hd
  rw [h.byte b (hin.subset hb)] at hnot
  cases hnot

theorem strip_self : Strip.strip (Tools.isWhiteSpace Tools.whiteSpaces) name = name := by
  refine Strip.strip_of_bare ⟨fun b hb => ?_, fun b hb => ?_⟩
  · exact isWhiteSpace_of_isNameByte (h.byte b (List.mem_of_mem_head? hb))
  · exact isWhiteSpace_of_isNameByte (h.byte b (List.mem_of_getLast? hb))

theorem cStr_self : Tools.cStr name = name := by
  refine List.takeWhile_eq_self_iff.mpr fun b hb => ?_
  have hne : b ≠ 0 := by
    rintro rfl
    cases h.byte 0 hb
  simpa using hne

theorem simpleSplitPair_self {d : Bytes} (hd : ∃ b ∈ d, isNameByte b = false) :
    Tools.simpleSplitPair name d Tools.whiteSpaces = (false, name, []) := by
  rw [Tools.simpleSplitPair_of_not_infix (h.not_infix hd) h.length, h.strip_self]

theorem splitPath_self : splitPath name = ([name], []) := by
  have hfields : Delimited.Fields (ascii "/") name 0 [name] :=
    .last (h.not_infix ⟨47, by decide, by decide⟩)
  have hblack : Strip.strip (Tools.isWhiteSpace Tools.whiteSpaces) name ≠ [] :=
    h.strip_self.symm ▸ h.ne_nil
  have hfree : ∀ b ∈ name, b ≠ 0 ∧ b ∉ Tools.whiteSpaces := fun b hb =>
    (Tools.isWhiteSpace_false_iff (by decide)).mp (isWhiteSpace_of_isNameByte (h.byte b hb))
  have hstrip : Strip.strip Tools.whiteSpaces.contains name = name := by
    refine Strip.strip_of_bare ⟨fun b hb => ?_, fun b hb => ?_⟩
    · exact Tools.contains_false_iff.mpr (hfree b (List.mem_of_mem_head? hb)).2
    · exact Tools.contains_false_iff.mpr (hfree b (List.mem_of_getLast? hb)).2
  have hkept : Tools.FieldsKept (ascii "/") Tools.whiteSpaces [name] := by
    refine .inr ⟨fun hzero => ?_, fun b hb => (hfree b (List.mem_of_getLast? hb)).2⟩
    rw [hstrip] at hzero
    exact (hfree 0 (List.mem_of_mem_head? hzero)).1 rfl
  have hslash : ∀ ch ∈ ascii "/", ch ∉ Tools.whiteSpaces :=
    List.forall_iff_forall_mem.mp (by decide)
  have hsplit :=
    (Tools.simpleSplit_fields_iff (by decide) (by decide) hslash hfields h.length hblack).mpr hkept
  rw [List.map_singleton, hstrip] at hsplit
  rw [splitPath, h.simpleSplitPair_self ⟨47, by decide, by decide⟩]
  simp only [hsplit, List.filter_cons, List.isEmpty_eq_false_iff.mpr h.ne_nil, Bool.not_false,
    if_true, List.filter_nil]

theorem ne_star : name ≠ star := by
  rintro rfl
  exact absurd (h.byte 42 (by decide)) (by decide)

theorem plainKey : Xml2Var.plainKey name false = true := by
  have hzero : (0 : UInt8) ∉ name := fun hin => absurd (h.byte 0 hin) (by decide)
  rw [Xml2Var.plainKey, bne_iff_ne.mpr h.ne_star, List.isEmpty_eq_false_iff.mpr h.ne_nil,
    List.contains_eq_mem, decide_eq_false hzero]
  rfl

theorem named_self : Path.named name = ⟨false, [name], []⟩ := by
  rw [Path.named, h.splitPath_self]
  simp [Path.push, Path.empty, h.cStr_self, h.ne_star]

end ElementName

end

section
variable {lib : ScalarLib} {ro : StructOptions} {names : NameTable} {o : Var2XmlOptions}

theorem parseScalarTarget_word (type : ScalarType) :
    parseScalarTarget lib ro type.word = .ok ⟨type, [], none⟩ := by
  cases type <;> rfl

theorem named_slash : Path.named (ascii "/") = ⟨false, [], []⟩ := by rfl

mutual

theorem Shape.parse (hitem : ElementName names o.itemName) {path : Bytes} {elements : List Bytes} :
    (shape : Shape) → shape.Named names o → Path.named path = ⟨false, elements, []⟩ →
      parseTarget lib ro [] (shape.mapping o.itemName path) = .ok (shape.spec o.itemName elements)
  | .leaf type, _, _ => by
    rw [Shape.mapping, Shape.spec, parseTarget, parseScalarTarget_word]
    rfl
  | .list item, h, hpath => by
    rw [Shape.Named] at h
    rw [Shape.mapping, Shape.spec, parseTarget, parseList]
    simp only [DynTree.getString, hpath, List.isEmpty_nil, if_true,
      Shape.parse hitem item h hitem.named_self]
    rfl
  | .record fields, h, _ => by
    rw [Shape.Named] at h
    rw [Shape.mapping, Shape.spec, parseTarget, Fields.parse hitem fields h.2]
    rfl

theorem Fields.parse (hitem : ElementName names o.itemName) :
    (fields : Fields) → fields.Named names o →
    parseEntries lib ro [] (fields.mapping o.itemName) = .ok (fields.specs o.itemName)
  | .nil, _ => by rw [Fields.mapping, Fields.specs, parseEntries]
  | .cons key shape rest, h => by
    rw [Fields.Named] at h
    obtain ⟨⟨hkey, -⟩, hshape, hrest⟩ := h
    have hentry : entryKey key [] [] = .ok (key, false) := rfl
    have hlast : Path.lastElementName (⟨false, [key], []⟩ : Path Bytes) = key := rfl
    rw [Fields.mapping, Fields.specs, parseEntries,
      hkey.simpleSplitPair_self ⟨62, by decide, by decide⟩]
    simp only [hkey.named_self, hlast, hentry, List.isEmpty_nil, if_true,
      Shape.parse hitem shape hshape named_slash, Fields.parse hitem rest hrest]
    rfl

end

theorem Fields.keys_specs (itemName : Bytes) :
    (fields : Fields) → (fields.specs itemName).keys = fields.keys
  | .nil => by rw [Fields.specs, EntrySpecs.keys, Fields.keys]
  | .cons key shape rest =>
    by rw [Fields.specs, EntrySpecs.keys, Fields.keys, rest.keys_specs itemName]

mutual

theorem Shape.plain :
    (shape : Shape) → shape.Named names o → ∀ elements, (shape.spec o.itemName elements).plain =
      true
  | .leaf _, _, _ => by rw [Shape.spec, TargetSpec.plain]
  | .list item, h, _ => by
    rw [Shape.Named] at h
    rw [Shape.spec, TargetSpec.plain]
    exact item.plain h _
  | .record fields, h, _ => by
    rw [Shape.Named] at h
    rw [Shape.spec, TargetSpec.plain]
    exact fields.plain h.2 h.1

theorem Fields.plain : (fields : Fields) → fields.Named names o → fields.keys.Nodup →
    (fields.specs o.itemName).plain = true
  | .nil, _, _ => by rw [Fields.specs, EntrySpecs.plain]
  | .cons key shape rest, h, hnodup => by
    rw [Fields.Named] at h
    rw [Fields.keys, List.nodup_cons] at hnodup
    obtain ⟨⟨hkey, -⟩, hshape, hrest⟩ := h
    have hkeys : (rest.specs o.itemName).keys = rest.keys := rest.keys_specs o.itemName
    rw [Fields.specs, EntrySpecs.plain, shape.plain hshape, rest.plain hrest hnodup.2, hkeys,
      hkey.plainKey, List.contains_eq_mem, decide_eq_false hnodup.1]
    rfl

end

end

end Xml2Var
end Nkit
