import Nkit.Mapping.Targets

/-! `StructXml2VarBuilder`: mappings are compiled to targets that hang in a tree of paths, and the
events of the XML parser run through that tree (`xml2var.h`, `str2id.h`). -/

namespace Nkit
namespace Xml2Var
open OrderedMap

structure String2IdMap where
  name2id : List (Bytes × ℕ)
  maxElementId : ℕ
deriving DecidableEq, Repr

namespace String2IdMap

def starId : ℕ := 0

def create : String2IdMap := ⟨[(star, starId)], 1⟩

def getId (str : Bytes) (m : String2IdMap) : ℕ × String2IdMap :=
  match get? bytesLt (Tools.cStr str) m.name2id with
  | some id => (id, m)
  | none =>
    (m.maxElementId,
      ⟨update bytesLt (Tools.cStr str) m.maxElementId id m.name2id, m.maxElementId + 1⟩)

def getString (id : ℕ) (m : String2IdMap) : Bytes :=
  match m.name2id.find? fun e => e.2 == id with
  | some e => e.1
  | none => []

end String2IdMap

/-- A target item: the group that its target belongs to, and its number there. -/
abbrev ItemId := ℕ × ℕ

/-- A node of the path tree is given by its path from the root; `pathTree` has its target items.
`groupCount` is the number of calls of `AddMapping`. -/
structure StructXml2VarBuilder where
  options : StructOptions
  str2id : String2IdMap
  pathTree : List ℕ → List ItemId
  maskTargetItems : List ItemId
  groups : ℕ → TargetGroup ℕ
  groupCount : ℕ
  rootTargets : List (Bytes × ItemId)
  firstNode : Bool
  currentPath : Path ℕ

inductive ParseFailure where
  | error (text : Bytes)
  /-- The assertion in `operator /` of `Path`. -/
  | assertion
deriving DecidableEq, Repr

/-- The place in `AppendTargetItem`: before the first one with a longer path. -/
def insertBySize {A : Type} (size : A → ℕ) (x : A) : List A → List A
  | [] => [x]
  | y :: ys => if size x < size y then x :: y :: ys else y :: insertBySize size x ys

def TargetState.new (target : Target) : TargetState where
  actualKeyName := []
  useDefaultValue :=
    match target with
    | .scalar t => t.defaultValue.isSome
    | _ => false
  value := []
  var := .undef
  current :=
    match target with
    | .list _ => .list []
    | _ => .dict []
  past := []

namespace TargetGroup
variable {E : Type}

def item (path : Path E) (target : Target) (parent : Option ℕ) : TargetItem E :=
  ⟨path, target, parent, [], false⟩

def empty : TargetGroup E where
  count := 0
  items := fun _ => item ⟨false, [], []⟩ (.object []) none
  states := fun _ => .new (.object [])

def allocate (g : TargetGroup E) : ℕ × TargetGroup E := (g.count, { g with count := g.count + 1 })

def put (i : ℕ) (item : TargetItem E) (g : TargetGroup E) : TargetGroup E :=
  { g with
    items := Function.update g.items i item
    states := Function.update g.states i (.new item.target) }

def setKey (key : Bytes) (isAttribute : Bool) (i : ℕ) (g : TargetGroup E) : TargetGroup E :=
  { g with
    items :=
      Function.update g.items i { g.items i with keyName := key, keyNameIsAttribute := isAttribute }
    states := Function.update g.states i { g.states i with actualKeyName := key } }

/-- `AppendTargetItem` of an object with the given children. -/
def appendTargetItem (g : TargetGroup E) (targetItems : List ℕ) (c : ℕ) : List ℕ :=
  if targetItems.any fun i => (g.items i).keyName == (g.items c).keyName then targetItems
  else insertBySize (fun i => (g.items i).path.elements.length) c targetItems

end TargetGroup

def scalarFormatError : Bytes :=
  ascii ("Type definition for scalar must be of following format:\n" ++
    "- integer|optional_integer_default\n" ++
    "- number|optional_number_default\n" ++
    "- string|optional_string_default\n" ++
    "- boolean|optional_boolean_default\n" ++
    "- datetime|mandatory_default_dateTime_value" ++
    "|mandatory_formatting_string")

def booleanDefaultError (o : StructOptions) (booleanDefault : Bytes) : Bytes :=
  ascii ("Default value for boolean must one of those, defined in " ++
    "'true_variants' or 'false_variants' options, but '") ++ booleanDefault ++
  ascii "' has been provided.\nPossible values:" ++
  ascii "\n- true_variants: " ++ (ascii ", ").intercalate o.trueVariants ++
  ascii "\n- false_variants: " ++ (ascii ", ").intercalate o.falseVariants

/-- The three ways to create a `ScalarTarget`.  Only with a format is the default value trimmed. -/
def createScalar (lib : ScalarLib) (o : StructOptions) (type : ScalarType) : List Bytes →
    ScalarTarget
  | [] => ⟨type, [], none⟩
  | [defaultValue] => ⟨type, [], some (type.convert lib o [] defaultValue)⟩
  | defaultValue :: format :: _ =>
    ⟨type, format, some (type.convert lib o format (o.toOptions.trimmed defaultValue))⟩

/-- The target of `ParseScalarTargetSpec`. -/
def parseScalarTarget (lib : ScalarLib) (o : StructOptions) (mapping : Bytes) :
    Except ParseFailure ScalarTarget :=
  match Tools.simpleSplit mapping (ascii "|") Tools.whiteSpaces with
  | [] => .error (.error scalarFormatError)
  | type :: rest =>
    if type = ascii "string" then .ok (createScalar lib o .string (rest.take 1))
    else if type = ascii "integer" then .ok (createScalar lib o .integer (rest.take 1))
    else if type = ascii "number" then .ok (createScalar lib o .number rest)
    else if type = ascii "boolean" then
      match rest with
      | [] => .ok (createScalar lib o .boolean [])
      | booleanDefault :: _ =>
        if o.useCustomBoolVariants && !o.trueVariants.contains booleanDefault &&
            !o.falseVariants.contains booleanDefault then
          .error (.error (booleanDefaultError o booleanDefault))
        else .ok (createScalar lib o .boolean [booleanDefault])
    else if type = ascii "datetime" then .ok (createScalar lib o .datetime rest)
    else .error (.error (ascii "Scalar does not support type '" ++ type ++ ascii "'"))

def splitPath (pathSpec : Bytes) : List Bytes × Bytes :=
  let (_, pathSpecWoAttr, attr) := Tools.simpleSplitPair pathSpec (ascii "/@") Tools.whiteSpaces
  ((Tools.simpleSplit pathSpecWoAttr (ascii "/") Tools.whiteSpaces).filter fun e => !e.isEmpty,
    attr)

/-- The constructor of `Path`. -/
def Path.parse (pathSpec : Bytes) (str2id : String2IdMap) : Path ℕ × String2IdMap :=
  let (names, attr) := splitPath pathSpec
  let (path, str2id) := names.foldl (fun (path, str2id) name =>
    let (id, str2id) := String2IdMap.getId name str2id
    (path.push String2IdMap.starId id, str2id)) (Path.empty, str2id)
  ({ path with attributeName := attr }, str2id)

def Path.getLastElementName (str2id : String2IdMap) (p : Path ℕ) : Bytes :=
  match p.elements.getLast? with
  | some id => str2id.getString id
  | none => []

def entryKey (lastElementName attributeName key : Bytes) : Except ParseFailure (Bytes × Bool) :=
  if key.isEmpty then
    if attributeName.isEmpty then .ok (lastElementName, false)
    else if attributeName = star then .error (.error (ascii "Attribute name should not be '*'"))
    else .ok (attributeName, false)
  else if (ascii "@").isPrefixOf key then
    if (key.drop 1).isEmpty then .error (.error (ascii "Key alias should not be '@'"))
    else .ok (key.drop 1, true)
  else .ok (key, false)

def listMappingError : Bytes :=
  ascii ("List mapping must have two elements: " ++ "path/to/xml/element/with/data and sub-mapping")

def childMappingError : Bytes := ascii "Child mapping can be dictionary (object), list or string"

def rootMappingError : Bytes :=
  ascii "Root mapping can not be scalar - only dictionary (object) or list"

namespace StructXml2VarBuilder

def create (o : StructOptions) : StructXml2VarBuilder where
  options := o
  str2id := .create
  pathTree := fun _ => []
  maskTargetItems := []
  groups := fun _ => .empty
  groupCount := 0
  rootTargets := []
  firstNode := true
  currentPath := .empty

def group (b : StructXml2VarBuilder) : TargetGroup ℕ := b.groups b.groupCount

def setGroup (g : TargetGroup ℕ) (b : StructXml2VarBuilder) : StructXml2VarBuilder :=
  { b with groups := Function.update b.groups b.groupCount g }

def setStr2id (str2id : String2IdMap) (b : StructXml2VarBuilder) : StructXml2VarBuilder :=
  { b with str2id }

/-- `PutTargetItem` of the path tree. -/
def putTargetItem (path : Path ℕ) (item : ItemId) (b : StructXml2VarBuilder) :
    StructXml2VarBuilder :=
  let size (i : ItemId) := ((b.groups i.1).items i.2).path.elements.length
  { b with pathTree :=
      Function.update b.pathTree path.elements (insertBySize size item (b.pathTree path.elements)) }

/-- `TargetItem::Create` for target number `i`, and the place where it will be found. -/
def createTargetItem (i : ℕ) (item : TargetItem ℕ) (b : StructXml2VarBuilder) :
    StructXml2VarBuilder :=
  let b := b.setGroup (b.group.put i item)
  if item.path.isMask then { b with maskTargetItems := b.maskTargetItems ++ [(b.groupCount, i)] }
  else b.putTargetItem item.path (b.groupCount, i)

variable (lib : ScalarLib)

def parseScalarTargetSpec (parent : Option ℕ) (parentPath : Path ℕ) (mapping : Bytes)
    (b : StructXml2VarBuilder) :
    Except ParseFailure ℕ × StructXml2VarBuilder :=
  match parseScalarTarget lib b.options mapping with
  | .error e => (.error e, b)
  | .ok t =>
    let (i, g) := b.group.allocate
    (.ok i, (b.setGroup g).createTargetItem i (TargetGroup.item parentPath (.scalar t) parent))

/-- `ParseObjectTargetSpec` around its loop over the entries. -/
def parseObjectTargetSpec (parent : Option ℕ) (parentPath : Path ℕ)
    (loop : ℕ → StructXml2VarBuilder → Except ParseFailure (List ℕ) × StructXml2VarBuilder)
    (b : StructXml2VarBuilder) :
    Except ParseFailure ℕ × StructXml2VarBuilder :=
  let (target, g) := b.group.allocate
  match loop target (b.setGroup g) with
  | (.error e, b) => (.error e, b)
  | (.ok targetItems, b) =>
    (.ok target,
      b.createTargetItem target (TargetGroup.item parentPath (.object targetItems) parent))

mutual

def parseTargetSpec (parent : Option ℕ) (parentPath : Path ℕ) :
    DynTree → StructXml2VarBuilder → Except ParseFailure ℕ × StructXml2VarBuilder
  | .list mapping, b => parseListTargetSpec parent parentPath mapping b
  | .dict mapping, b =>
    parseObjectTargetSpec parent parentPath
      (fun target b => parseEntries target parentPath mapping [] b) b
  | .string mapping, b => parseScalarTargetSpec lib parent parentPath mapping b
  | _, b => (.error (.error childMappingError), b)

def parseListTargetSpec (parent : Option ℕ) (parentPath : Path ℕ) :
    List DynTree → StructXml2VarBuilder → Except ParseFailure ℕ × StructXml2VarBuilder
  | [pathSpec, sumMapping], b =>
    let (target, g) := b.group.allocate
    let (path, str2id) := Path.parse (pathSpec.getString lib.toCLib) b.str2id
    let b := (b.setGroup g).setStr2id str2id
    match parentPath.append String2IdMap.starId path with
    | none => (.error .assertion, b)
    | some foolPath =>
      match parseTargetSpec (some target) foolPath sumMapping b with
      | (.error e, b) => (.error e, b)
      | (.ok child, b) =>
        (.ok target, b.createTargetItem target (TargetGroup.item foolPath (.list [child]) parent))
  | _, b => (.error (.error listMappingError), b)

/-- The loop of `ParseObjectTargetSpec`; `targetItems` are the children put into the object so far.
-/
def parseEntries (target : ℕ) (parentPath : Path ℕ) :
    List (Bytes × DynTree) → List ℕ → StructXml2VarBuilder →
      Except ParseFailure (List ℕ) × StructXml2VarBuilder
  | [], targetItems, b => (.ok targetItems, b)
  | (spec, mapping) :: rest, targetItems, b =>
    let (_, pathSpec, key) := Tools.simpleSplitPair spec (ascii "->") Tools.whiteSpaces
    let (path, str2id) := Path.parse pathSpec b.str2id
    let b := b.setStr2id str2id
    match entryKey (path.getLastElementName str2id) path.attributeName key with
    | .error e => (.error e, b)
    | .ok (key, keyIsAttribute) =>
      match parentPath.append String2IdMap.starId path with
      | none => (.error .assertion, b)
      | some foolPath =>
        match parseTargetSpec (some target) foolPath mapping b with
        | (.error e, b) => (.error e, b)
        | (.ok child, b) =>
          let b := b.setGroup (b.group.setKey key keyIsAttribute child)
          parseEntries target parentPath rest (b.group.appendTargetItem targetItems child) b

end

def parseMapping : DynTree → StructXml2VarBuilder → Except ParseFailure ℕ × StructXml2VarBuilder
  | .list mapping, b => parseListTargetSpec lib none .empty mapping b
  | .dict mapping, b =>
    parseObjectTargetSpec none .empty (fun target b => parseEntries lib target .empty mapping [] b)
      b
  | _, b => (.error (.error rootMappingError), b)

/-- `AddMapping`; what was parsed before a failure stays in the tree. -/
def addMapping (targetName : Bytes) (mapping : DynTree) (b : StructXml2VarBuilder) :
    Except ParseFailure Unit × StructXml2VarBuilder :=
  match parseMapping lib mapping b with
  | (.error e, b) => (.error e, { b with groupCount := b.groupCount + 1 })
  | (.ok root, b) =>
    (.ok (), { b with
      groupCount := b.groupCount + 1
      rootTargets :=
        update bytesLt targetName (b.groupCount, root) (fun _ => (b.groupCount, root)) b.rootTargets
          })

def fire (f : ℕ → TargetGroup ℕ → TargetGroup ℕ) (items : List ItemId) (b : StructXml2VarBuilder) :
    StructXml2VarBuilder :=
  items.foldl (fun b i => { b with groups := Function.update b.groups i.1 (f i.2 (b.groups i.1)) })
    b

def matchingMasks (b : StructXml2VarBuilder) : List ItemId :=
  b.maskTargetItems.filter fun i =>
    ((b.groups i.1).items i.2).path.same String2IdMap.starId b.currentPath

def currentNode (b : StructXml2VarBuilder) : List ItemId := b.pathTree b.currentPath.elements

def onStartElement (el : Bytes) (attrs : List (Bytes × Bytes)) (b : StructXml2VarBuilder) :
    StructXml2VarBuilder :=
  let (elementId, str2id) := b.str2id.getId el
  let b := { b with str2id }
  if b.firstNode then { b with firstNode := false }
  else
    let b := { b with currentPath := b.currentPath.push String2IdMap.starId elementId }
    (b.fire (fun i g => g.onEnter b.options attrs i) b.matchingMasks).fire
      (fun i g => g.onEnter b.options attrs i) b.currentNode

def onEndElement (el : Bytes) (b : StructXml2VarBuilder) : StructXml2VarBuilder :=
  let b := (b.fire (fun i g => g.onExit lib b.options el i) b.matchingMasks).fire
    (fun i g => g.onExit lib b.options el i) b.currentNode
  { b with currentPath := b.currentPath.bubbleUp }

def onText (text : Bytes) (b : StructXml2VarBuilder) : StructXml2VarBuilder :=
  (b.fire (fun i g => g.onText text i) b.currentNode).fire (fun i g => g.onText text i)
    b.matchingMasks

def step (b : StructXml2VarBuilder) : XmlEvent → StructXml2VarBuilder
  | .startElement el attrs => b.onStartElement el attrs
  | .text text => b.onText text
  | .endElement el => b.onEndElement lib el

def feed (events : List XmlEvent) (b : StructXml2VarBuilder) : StructXml2VarBuilder :=
  events.foldl (step lib) b

/-- `var(target_name)`. -/
def var (targetName : Bytes) (b : StructXml2VarBuilder) : DynTree :=
  match get? bytesLt targetName b.rootTargets with
  | some (k, root) => (b.groups k).tree (b.groups k).count ((b.groups k).var root)
  | none => .plain .none 0

end StructXml2VarBuilder

end Xml2Var
end Nkit
