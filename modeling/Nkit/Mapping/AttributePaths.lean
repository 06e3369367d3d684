import Nkit.Mapping.FailedAdds

/-! Mappings whose paths end in an attribute.  `operator /` asserts that such a path is not
extended, and the parsing functions call it for every list and every entry of an object below it. -/

namespace Nkit
namespace Xml2Var

inductive Finding where
  | rejected
  | extended
deriving DecidableEq, Repr

def hasAttribute (pathSpec : Bytes) : Bool := !(splitPath pathSpec).2.isEmpty

def Path.endsInAttribute {E : Type} (p : Path E) : Bool := !p.attributeName.isEmpty

def extension (attr : Bool) : List Finding := if attr then [.extended] else []

section
variable (lib : ScalarLib) (o : StructOptions)

mutual

/-- The findings in a mapping, in the order of parsing; `attr` says that its path ends in one. -/
def findings (attr : Bool) : DynTree → List Finding
  | .list mapping => listFindings attr mapping
  | .dict mapping => entriesFindings attr mapping
  | .string mapping => if scalarRejected o mapping then [.rejected] else []
  | _ => [.rejected]

def listFindings (attr : Bool) : List DynTree → List Finding
  | [pathSpec, sumMapping] =>
    extension attr ++ findings (attr || hasAttribute (pathSpec.getString lib.toCLib)) sumMapping
  | _ => [.rejected]

def entriesFindings (attr : Bool) : List (Bytes × DynTree) → List Finding
  | [] => []
  | (spec, mapping) :: rest =>
    let pathSpec := (Tools.simpleSplitPair spec (ascii "->") Tools.whiteSpaces).2.1
    (if keyRejected spec then [.rejected]
      else extension attr ++ findings (attr || hasAttribute pathSpec) mapping) ++
        entriesFindings attr rest

end

def mappingFindings : DynTree → List Finding
  | .list mapping => findings lib o false (.list mapping)
  | .dict mapping => findings lib o false (.dict mapping)
  | _ => [.rejected]

end

def EndsAt {A : Type} (found : List Finding) : Except ParseFailure A → Prop
  | .ok _ => found = []
  | .error (.error text) => found.head? = some .rejected ∧ text ≠ []
  | .error .assertion => found.head? = some .extended

namespace EndsAt
variable {A B : Type} {found found' : List Finding}

theorem error {e : ParseFailure} (h : EndsAt found (.error e : Except ParseFailure A)) :
    EndsAt (found ++ found') (.error e : Except ParseFailure B) := by
  cases e with
  | error text =>
    exact ⟨List.head?_append_of_ne_nil found (by rintro rfl; cases h.1) |>.trans h.1, h.2⟩
  | assertion => exact List.head?_append_of_ne_nil found (by rintro rfl; cases h) |>.trans h

theorem ok {a : A} (h : EndsAt found (.ok a)) {r : Except ParseFailure B} (h' : EndsAt found' r) :
    EndsAt (found ++ found') r := by
  obtain rfl : found = [] := h
  exact h'

theorem iff_assertion {r : Except ParseFailure A} (h : EndsAt found r) :
    r = .error .assertion ↔ found.head? = some .extended := by
  match r, h with
  | .ok _, h =>
    obtain rfl : found = [] := h
    simp
  | .error (.error _), h => simp [h.1]
  | .error .assertion, h => exact iff_of_true rfl h

end EndsAt

theorem Path.append_attribute {E : Type} [DecidableEq E] (starId : E) (p tail : Path E) :
    (p.endsInAttribute = true ∧ p.append starId tail = none) ∨
    (p.endsInAttribute = false ∧ ∃ q, p.append starId tail = some q ∧ q.endsInAttribute =
      tail.endsInAttribute) := by
  rw [endsInAttribute, append]
  cases h : p.attributeName.isEmpty with
  | true => exact .inr ⟨rfl, _, if_pos rfl, rfl⟩
  | false => exact .inl ⟨rfl, if_neg Bool.false_ne_true⟩

namespace StructXml2VarBuilder
variable {lib : ScalarLib} {b b' : StructXml2VarBuilder} {found found' : List Finding}

def Ends {A : Type} (b : StructXml2VarBuilder) (found : List Finding)
    (r : Except ParseFailure A × StructXml2VarBuilder) :
    Prop := EndsAt found r.1 ∧ r.2.options = b.options

theorem createTargetItem_options (i : ℕ) (item : TargetItem ℕ) (b : StructXml2VarBuilder) :
    (b.createTargetItem i item).options = b.options := by
  rw [createTargetItem]
  split <;> rfl

theorem parseScalarTargetSpec_ends (parent : Option ℕ) (p : Path ℕ) (mapping : Bytes)
    (b : StructXml2VarBuilder) :
    b.Ends (if scalarRejected b.options mapping then [.rejected] else [])
      (parseScalarTargetSpec lib parent p mapping b) := by
  rw [parseScalarTargetSpec]
  obtain ⟨t, hparse, hrej⟩ | ⟨text, hparse, hrej, htext⟩ :=
    parseScalarTarget_cases lib b.options mapping
  · rw [hparse, hrej]
    exact ⟨rfl, createTargetItem_options _ _ _⟩
  · rw [hparse, hrej]
    exact ⟨⟨rfl, htext⟩, rfl⟩

theorem parseObjectTargetSpec_ends (parent : Option ℕ) (p : Path ℕ)
    {loop : ℕ → StructXml2VarBuilder → Except ParseFailure (List ℕ) × StructXml2VarBuilder}
    (b : StructXml2VarBuilder)
    (hloop : ∀ target (b' : StructXml2VarBuilder), b'.options = b.options →
      b'.Ends found (loop target b')) :
    b.Ends found (parseObjectTargetSpec parent p loop b) := by
  rw [parseObjectTargetSpec]
  obtain ⟨hend, hoptions⟩ := hloop b.group.allocate.1 (b.setGroup b.group.allocate.2) rfl
  dsimp only
  generalize loop b.group.allocate.1 (b.setGroup b.group.allocate.2) = r at hend hoptions ⊢
  obtain ⟨e | targetItems, b₁⟩ := r
  · exact ⟨List.append_nil found ▸ hend.error, hoptions⟩
  · exact ⟨hend, (createTargetItem_options _ _ _).trans hoptions⟩

mutual

theorem parseTargetSpec_ends (parent : Option ℕ) (p : Path ℕ) :
    (mapping : DynTree) → ∀ b : StructXml2VarBuilder,
      b.Ends (findings lib b.options p.endsInAttribute mapping)
        (parseTargetSpec lib parent p mapping b)
  | .list mapping, b => by
    rw [parseTargetSpec, findings]
    exact parseListTargetSpec_ends parent p mapping b
  | .dict mapping, b => by
    rw [parseTargetSpec, findings]
    apply parseObjectTargetSpec_ends
    intro target b' hoptions
    rw [← hoptions]
    exact parseEntries_ends target p mapping [] b'
  | .string mapping, b => by
    rw [parseTargetSpec, findings]
    exact parseScalarTargetSpec_ends parent p mapping b
  | .plain .., b => by
    simp [parseTargetSpec, findings, Ends, EndsAt, childMappingError, ascii_ne_nil]
  | .oid _, b => by
    simp [parseTargetSpec, findings, Ends, EndsAt, childMappingError, ascii_ne_nil]
  | .table .., b => by
    simp [parseTargetSpec, findings, Ends, EndsAt, childMappingError, ascii_ne_nil]

theorem parseListTargetSpec_ends (parent : Option ℕ) (p : Path ℕ) :
    (mapping : List DynTree) → ∀ b : StructXml2VarBuilder,
      b.Ends (listFindings lib b.options p.endsInAttribute mapping)
        (parseListTargetSpec lib parent p mapping b)
  | [pathSpec, sumMapping], b => by
    rw [parseListTargetSpec, listFindings]
    dsimp only
    obtain ⟨hattr, happend⟩ | ⟨hattr, q, happend, hq⟩ := p.append_attribute String2IdMap.starId
      (Path.parse (pathSpec.getString lib.toCLib) b.str2id).1
    · rw [happend, hattr]
      exact ⟨rfl, rfl⟩
    · rw [happend, hattr]
      obtain ⟨hend, hoptions⟩ := parseTargetSpec_ends (some b.group.allocate.1) q sumMapping
        ((b.setGroup b.group.allocate.2).setStr2id
          (Path.parse (pathSpec.getString lib.toCLib) b.str2id).2)
      rw [hq] at hend
      dsimp only
      generalize parseTargetSpec lib (some b.group.allocate.1) q sumMapping _ = r at hend hoptions ⊢
      obtain ⟨e | child, b₁⟩ := r
      · exact ⟨hend, hoptions⟩
      · exact ⟨hend, (createTargetItem_options _ _ _).trans hoptions⟩
  | [], b => by
    simp [parseListTargetSpec, listFindings, Ends, EndsAt, listMappingError, ascii_ne_nil]
  | [_], b => by
    simp [parseListTargetSpec, listFindings, Ends, EndsAt, listMappingError, ascii_ne_nil]
  | _ :: _ :: _ :: _, b => by
    simp [parseListTargetSpec, listFindings, Ends, EndsAt, listMappingError, ascii_ne_nil]

theorem parseEntries_ends (target : ℕ) (p : Path ℕ) :
    (mapping : List (Bytes × DynTree)) → ∀ (targetItems : List ℕ) (b : StructXml2VarBuilder),
      b.Ends (entriesFindings lib b.options p.endsInAttribute mapping)
        (parseEntries lib target p mapping targetItems b)
  | [], targetItems, b => by
    rw [parseEntries, entriesFindings]
    exact ⟨rfl, rfl⟩
  | (spec, mapping) :: rest, targetItems, b => by
    rw [parseEntries, entriesFindings]
    dsimp only
    -- the key depends on the path's text, not on the ids
    have hname :
      (Path.parse (Tools.simpleSplitPair spec (ascii "->") Tools.whiteSpaces).2.1
        b.str2id).1.attributeName =
      (Path.named (Tools.simpleSplitPair spec (ascii "->") Tools.whiteSpaces).2.1).attributeName :=
        rfl
    rw [hname]
    obtain ⟨⟨key, isAttribute⟩, hkey, hrej⟩ | ⟨text, hkey, hrej, htext⟩ := entryKey_cases
      ((Path.parse (Tools.simpleSplitPair spec (ascii "->") Tools.whiteSpaces).2.1
        b.str2id).1.getLastElementName
        (Path.parse (Tools.simpleSplitPair spec (ascii "->") Tools.whiteSpaces).2.1 b.str2id).2)
          spec
    · rw [hkey, hrej, if_neg Bool.false_ne_true]
      dsimp only
      obtain ⟨hattr, happend⟩ | ⟨hattr, q, happend, hq⟩ := p.append_attribute String2IdMap.starId
        (Path.parse (Tools.simpleSplitPair spec (ascii "->") Tools.whiteSpaces).2.1 b.str2id).1
      · rw [happend, hattr]
        exact ⟨rfl, rfl⟩
      · rw [happend, hattr]
        obtain ⟨hend, hoptions⟩ := parseTargetSpec_ends (some target) q mapping
          (b.setStr2id
            (Path.parse (Tools.simpleSplitPair spec (ascii "->") Tools.whiteSpaces).2.1 b.str2id).2)
        rw [hq] at hend
        dsimp only
        generalize parseTargetSpec lib (some target) q mapping _ = r at hend hoptions ⊢
        obtain ⟨e | child, b₁⟩ := r
        · exact ⟨hend.error, hoptions⟩
        · obtain ⟨hrest, hoptions'⟩ := parseEntries_ends target p rest
            ((b₁.setGroup (b₁.group.setKey key isAttribute child)).group.appendTargetItem
              targetItems child)
            (b₁.setGroup (b₁.group.setKey key isAttribute child))
          have hkept : (b₁.setGroup (b₁.group.setKey key isAttribute child)).options = b.options :=
            hoptions
          rw [hkept, hattr] at hrest
          exact ⟨hend.ok hrest, hoptions'.trans hkept⟩
    · rw [hkey, hrej, if_pos rfl]
      exact ⟨⟨rfl, htext⟩, rfl⟩

end

theorem parseMapping_ends (mapping : DynTree) (b : StructXml2VarBuilder) :
    EndsAt (mappingFindings lib b.options mapping) (parseMapping lib mapping b).1 := by
  cases mapping with
  | list mapping =>
    rw [parseMapping, mappingFindings, findings]
    exact (parseListTargetSpec_ends none .empty mapping b).1
  | dict mapping =>
    rw [parseMapping, mappingFindings, findings]
    refine (parseObjectTargetSpec_ends none .empty b fun target b' hoptions => ?_).1
    rw [← hoptions]
    exact parseEntries_ends target .empty mapping [] b'
  | plain | string | oid | table => exact ⟨rfl, ascii_ne_nil (by decide)⟩

theorem addMapping_ends (targetName : Bytes) (mapping : DynTree) (b : StructXml2VarBuilder) :
    EndsAt (mappingFindings lib b.options mapping) (b.addMapping lib targetName mapping).1 := by
  have hend : EndsAt (mappingFindings lib b.options mapping) (parseMapping lib mapping b).1 :=
    parseMapping_ends mapping b
  rw [addMapping]
  generalize parseMapping lib mapping b = r at hend ⊢
  obtain ⟨e | root, b₁⟩ := r
  · exact List.append_nil (mappingFindings lib b.options mapping) ▸ hend.error
  · exact hend

/-- `true`, or `false` with the text of an error. -/
def Returns : Except ParseFailure Unit → Prop
  | .ok _ => True
  | .error (.error text) => text ≠ []
  | .error .assertion => False

theorem returns_iff_of_endsAt {r : Except ParseFailure Unit} (h : EndsAt found r) :
    Returns r ↔ r ≠ .error .assertion := by
  match r, h with
  | .ok _, _ => simp [Returns]
  | .error (.error _), h => simp [Returns, h.2]
  | .error .assertion, _ => simp [Returns]

/-- `AddMapping` keeps to its assertion exactly when the first finding, if there is any, is a
rejection. -/
theorem addMapping_returns_iff (lib : ScalarLib) (b : StructXml2VarBuilder) (targetName : Bytes)
    (mapping : DynTree) :
    Returns (b.addMapping lib targetName mapping).1 ↔
      (mappingFindings lib b.options mapping).head? ≠ some .extended := by
  have hend : EndsAt (mappingFindings lib b.options mapping)
      (b.addMapping lib targetName mapping).1 :=
    addMapping_ends targetName mapping b
  rw [returns_iff_of_endsAt hend, ne_eq, hend.iff_assertion]

/-- A list below the attribute `b` of `a`. -/
theorem list_below_attribute :
    let result := ((create sampleOptions).addMapping sampleLib (ascii "m")
      (.dict [(ascii "a/@b", .list [.string (ascii "c"), .string (ascii "string")])])).1
    result = .error .assertion ∧ ¬Returns result := ⟨rfl, id⟩

end StructXml2VarBuilder

end Xml2Var
end Nkit
