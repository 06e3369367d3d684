import Nkit.Xml.Reading
import Nkit.Dynamic.Ordering

/-! The targets that a mapping of XML to values is compiled to, and what they do at the events
of the parser (`Target`, `TargetItem`, `ObjectTarget`, `ListTarget`, `ScalarTarget` in
`xml2var.h`).  Elements of a path are ids in the source; here they are of any type `E`. -/

namespace Nkit
namespace Xml2Var
open OrderedMap

structure StructOptions extends Options where
  trueVariants : List Bytes
  falseVariants : List Bytes

/-- `Options::Create` asks for `false_variants_` twice. -/
def StructOptions.useCustomBoolVariants (o : StructOptions) : Bool :=
  !o.falseVariants.isEmpty || !o.falseVariants.isEmpty

def star : Bytes := ascii "*"

structure Path (E : Type) where
  isMask : Bool
  elements : List E
  attributeName : Bytes
deriving DecidableEq, Repr

namespace Path
variable {E : Type} [DecidableEq E] (starId : E)

def empty : Path E := ⟨false, [], []⟩

/-- `operator /=` of an element. -/
def push (id : E) (p : Path E) : Path E :=
  { p with isMask := p.isMask || id == starId, elements := p.elements ++ [id] }

/-- `operator /` of two paths; `none` is its failed assertion. -/
def append (p tail : Path E) : Option (Path E) :=
  if p.attributeName.isEmpty then
    some { tail.elements.foldl (fun p id => p.push starId id) p with
      attributeName := tail.attributeName }
  else none

def bubbleUp (p : Path E) : Path E := { p with elements := p.elements.dropLast }

/-- `compare` of `operator ==`. -/
def compare (i j : E) : Bool := i == starId || j == starId || i == j

/-- `operator ==`. -/
def same (p q : Path E) : Bool :=
  if !p.isMask && !q.isMask then p.elements == q.elements
  else p.elements.length == q.elements.length && (p.elements.zip q.elements).all fun e =>
    compare starId e.1 e.2

end Path

inductive ScalarType where
  | string | integer | number | boolean | datetime
deriving DecidableEq, Repr

structure ScalarLib extends CLib where
  /-- `sscanf`, zero where it reads nothing. -/
  scanDouble : Bytes → Bytes → BitVec 64
  dateTimeFromString : Bytes → Bytes → DynTree

/-- `InitAs..` of `VarBuilder`; without a format the default one is used. -/
def ScalarType.convert (lib : ScalarLib) (o : StructOptions) (format value : Bytes) : ScalarType →
    DynTree
  | string => .string value
  | integer =>
    .plain .integer (if value.isEmpty then 0 else BitVec.ofInt 64 (strtoll (Tools.cStr value)).1)
  | number =>
    .plain .float (if value.isEmpty then 0
      else lib.scanDouble (Tools.cStr value) (if format.isEmpty then ascii "%lg"
        else Tools.cStr format))
  | boolean =>
    let v := if o.useCustomBoolVariants then o.trueVariants.contains value else Tools.boolCast value
    .plain .bool (if v then 1 else 0)
  | datetime =>
    lib.dateTimeFromString (Tools.cStr value)
      (if format.isEmpty then ascii "%Y-%m-%d %H:%M:%S" else Tools.cStr format)

structure ScalarTarget where
  type : ScalarType
  format : Bytes
  defaultValue : Option DynTree

inductive Target where
  | object (targetItems : List ℕ)
  | list (targetItems : List ℕ)
  | scalar (target : ScalarTarget)

/-- A target item together with its target: the fields that parsing a document does not change. -/
structure TargetItem (E : Type) where
  path : Path E
  target : Target
  parentTarget : Option ℕ
  keyName : Bytes
  keyNameIsAttribute : Bool

/-- What a builder holds: a value that is never changed any more, or a list or dict that is named by
the target that made it and the number of those it made before. -/
inductive Var where
  | value (v : DynTree)
  | made (target n : ℕ)

inductive Content where
  | list (items : List Var)
  | dict (entries : List (Bytes × Var))

/-- The fields that change.  A scalar has `var`; an object or a list has its `current` content, and
`past` holds those it has made before, oldest first. -/
structure TargetState where
  actualKeyName : Bytes
  useDefaultValue : Bool
  value : Bytes
  var : DynTree
  current : Content
  past : List Content

/-- The targets made by one call of `ParseMapping`.  They point to each other only, so they are
numbered within their group. -/
structure TargetGroup (E : Type) where
  count : ℕ
  items : ℕ → TargetItem E
  states : ℕ → TargetState

namespace Content

/-- `SetDictKeyValue`.  Only objects are parents of target items with a key. -/
def setKey (key : Bytes) (v : Var) : Content → Content
  | dict entries => dict (update bytesLt key v (fun _ => v) entries)
  | list items => list items

def append (v : Var) : Content → Content
  | list items => list (items ++ [v])
  | dict entries => dict entries

end Content

def findAttributeValue (attrs : List (Bytes × Bytes)) (attributeName : Bytes) : Option Bytes :=
  (attrs.find? fun attr => attr.1 == Tools.cStr attributeName).map Prod.snd

/-- The dict that `SetAttrKey` builds. -/
def attrDict (attrs : List (Bytes × Bytes)) : List (Bytes × DynTree) :=
  attrs.foldl (fun d attr => update bytesLt attr.1 (.string attr.2) (fun _ => .string attr.2) d) []

namespace TargetState

/-- `InitAsDict` and `InitAsList` make a new object. -/
def init (content : Content) (s : TargetState) : TargetState :=
  { s with current := content, past := s.past ++ [s.current] }

def setAttrKey (o : StructOptions) (attrs : List (Bytes × Bytes)) (s : TargetState) : TargetState :=
  if !o.attrkey.isEmpty && !attrs.isEmpty then
    { s with current := s.current.setKey o.attrkey (.value (.dict (attrDict attrs))) }
  else s

def clear (target : Target) (s : TargetState) : TargetState :=
  match target with
  | .object _ => s.init (.dict [])
  | .list _ => s.init (.list [])
  | .scalar _ => { s with value := [], useDefaultValue := true }

/-- `OnText` of the target. -/
def onText (target : Target) (text : Bytes) (s : TargetState) : TargetState :=
  match target with
  | .scalar _ => { s with useDefaultValue := false, value := s.value ++ text }
  | _ => s

def mustUseDefaultValue (target : Target) (s : TargetState) : Bool :=
  match target with
  | .scalar t => t.defaultValue.isSome && s.useDefaultValue
  | _ => false

/-- `OnEnter` of a target item. -/
def onEnter {E : Type} (o : StructOptions) (attrs : List (Bytes × Bytes)) (item : TargetItem E)
    (s : TargetState) :
    TargetState :=
  let s := match item.target with
    | .object _ => (s.clear item.target).setAttrKey o attrs
    | .list _ => s
    | .scalar _ => { s with useDefaultValue := true }
  let s :=
    if item.path.attributeName.isEmpty then s
    else
      match findAttributeValue attrs item.path.attributeName with
      | some value => s.onText item.target value
      | none => s
  if item.keyNameIsAttribute then
    { s with actualKeyName := (findAttributeValue attrs item.keyName).getD item.keyName }
  else s

/-- `var()` of target number `i`. -/
def read (i : ℕ) (target : Target) (s : TargetState) : Var :=
  match target with
  | .scalar t => .value (if s.mustUseDefaultValue target then t.defaultValue.getD .undef else s.var)
  | _ => .made i s.past.length

end TargetState

namespace TargetGroup
variable {E : Type}

def setState (i : ℕ) (f : TargetState → TargetState) (g : TargetGroup E) : TargetGroup E :=
  { g with states := Function.update g.states i (f (g.states i)) }

def var (i : ℕ) (g : TargetGroup E) : Var := (g.states i).read i (g.items i).target

def mustUseDefaultValue (i : ℕ) (g : TargetGroup E) : Bool :=
  (g.states i).mustUseDefaultValue (g.items i).target

def clear (i : ℕ) (g : TargetGroup E) : TargetGroup E := g.setState i (·.clear (g.items i).target)

def onEnter (o : StructOptions) (attrs : List (Bytes × Bytes)) (i : ℕ) (g : TargetGroup E) :
    TargetGroup E :=
  g.setState i (·.onEnter o attrs (g.items i))

/-- `OnText` of a target item. -/
def onText (text : Bytes) (i : ℕ) (g : TargetGroup E) : TargetGroup E :=
  if (g.items i).path.attributeName.isEmpty then g.setState i (·.onText (g.items i).target text)
    else g

/-- The body of the loop in `OnExit` of an object. -/
def collectDefault (el : Bytes) (i c : ℕ) (g : TargetGroup E) : TargetGroup E :=
  let g :=
    if g.mustUseDefaultValue c then
      let key := if (g.states c).actualKeyName = star then el else (g.states c).actualKeyName
      g.setState i fun s => { s with current := s.current.setKey key (g.var c) }
    else g
  g.clear c

/-- The body of the loop in `OnExit` of a list. -/
def collectItem (i c : ℕ) (g : TargetGroup E) : TargetGroup E :=
  (g.setState i fun s => { s with current := s.current.append (g.var c) }).clear c

/-- `OnExit` of target number `i`. -/
def exitTarget (lib : ScalarLib) (o : StructOptions) (el : Bytes) (i : ℕ) (g : TargetGroup E) :
    TargetGroup E :=
  match (g.items i).target with
  | .object targetItems => targetItems.foldl (fun g c => g.collectDefault el i c) g
  | .list targetItems => targetItems.foldl (fun g c => g.collectItem i c) g
  | .scalar t =>
    g.setState i fun s =>
      if s.mustUseDefaultValue (.scalar t) then { s with value := [] }
      else { s with
        var := t.type.convert lib o t.format (o.toOptions.trimmed s.value), value := [] }

/-- `OnExit` of a target item. -/
def onExit (lib : ScalarLib) (o : StructOptions) (el : Bytes) (i : ℕ) (g : TargetGroup E) :
    TargetGroup E :=
  let g := g.exitTarget lib o el i
  let key := (g.states i).actualKeyName
  match (g.items i).parentTarget with
  | some parent =>
    if key.isEmpty then g
    else g.setState parent fun s =>
      { s with current := s.current.setKey (if key = star then el else Tools.cStr key) (g.var i) }
  | none => g

/-- The value that a `Var` of this group stands for.  Contents refer to targets further down, so
`fuel` is the number of targets. -/
def tree (g : TargetGroup E) : ℕ → Var → DynTree
  | _, .value v => v
  | 0, .made .. => .undef
  | fuel + 1, .made target n =>
    match ((g.states target).past ++ [(g.states target).current])[n]? with
    | some (.list items) => .list (items.map (tree g fuel))
    | some (.dict entries) => .dict (entries.map fun e => (e.1, tree g fuel e.2))
    | none => .undef

end TargetGroup

end Xml2Var
end Nkit
