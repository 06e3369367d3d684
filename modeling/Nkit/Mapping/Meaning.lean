import Nkit.Base.Overlay
import Nkit.Mapping.Compiled

/-! What a mapping says, apart from how it is compiled: the value that it gives to an element is
read off the element itself.  `select` finds the elements at a path, an entry of an object shows the
last of them, a list shows all of them. -/

namespace Nkit

structure XmlElement where
  attrs : List (Bytes × Bytes)
  content : XmlContent

namespace XmlContent

def children : XmlContent → List (Bytes × XmlElement)
  | nil => []
  | text _ rest => rest.children
  | element name attrs body rest => (name, ⟨attrs, body⟩) :: rest.children

def ownText : XmlContent → Option Bytes
  | nil => none
  | text s rest => some (s ++ rest.ownText.getD [])
  | element _ _ _ rest => rest.ownText

end XmlContent

namespace Xml2Var
open OrderedMap

def nameMatches (e name : Bytes) : Bool := e == star || e == Tools.cStr name

end Xml2Var

def XmlElement.select : List Bytes → XmlElement → List XmlElement
  | [], e => [e]
  | n :: path, e =>
    (e.content.children.filter fun c => Xml2Var.nameMatches n c.1).flatMap fun c => c.2.select path

namespace Xml2Var
open OrderedMap

def textFor (attributeName : Bytes) (e : XmlElement) : Option Bytes :=
  if attributeName.isEmpty then e.content.ownText else findAttributeValue e.attrs attributeName

def attrEntries (o : StructOptions) (attrs : List (Bytes × Bytes)) : List (Bytes × DynTree) :=
  if !o.attrkey.isEmpty && !attrs.isEmpty then [(o.attrkey, .dict (attrDict attrs))] else []

mutual

inductive TargetSpec where
  | scalar (target : ScalarTarget) (attributeName : Bytes)
  | list (path : List Bytes) (item : TargetSpec)
  | object (entries : EntrySpecs)

inductive EntrySpecs where
  | nil
  | cons (key : Bytes) (keyIsAttribute : Bool) (path : List Bytes) (target : TargetSpec)
      (rest : EntrySpecs)

end

def EntrySpecs.keys : EntrySpecs → List Bytes
  | nil => []
  | cons key _ _ _ rest => key :: rest.keys

def plainKey (key : Bytes) (keyIsAttribute : Bool) : Bool :=
  !keyIsAttribute && !key.isEmpty && key != star && !key.contains 0

mutual

def TargetSpec.plain : TargetSpec → Bool
  | .scalar _ _ => true
  | .list _ item => item.plain
  | .object entries => entries.plain

def EntrySpecs.plain : EntrySpecs → Bool
  | .nil => true
  | .cons key keyIsAttribute _ target rest =>
    plainKey key keyIsAttribute && !rest.keys.contains key && target.plain && rest.plain

end

section
variable (lib : ScalarLib) (o : StructOptions)

mutual

def parseTarget (attr : Bytes) : DynTree → Except ParseFailure TargetSpec
  | .list mapping => parseList attr mapping
  | .dict mapping => (parseEntries attr mapping).map .object
  | .string mapping => (parseScalarTarget lib o mapping).map fun t => .scalar t attr
  | _ => .error (.error childMappingError)

def parseList (attr : Bytes) : List DynTree → Except ParseFailure TargetSpec
  | [pathSpec, sumMapping] =>
    let path := Path.named (pathSpec.getString lib.toCLib)
    if attr.isEmpty then (parseTarget path.attributeName sumMapping).map (.list path.elements)
    else .error .assertion
  | _ => .error (.error listMappingError)

def parseEntries (attr : Bytes) : List (Bytes × DynTree) → Except ParseFailure EntrySpecs
  | [] => .ok .nil
  | (spec, mapping) :: rest =>
    let (_, pathSpec, key) := Tools.simpleSplitPair spec (ascii "->") Tools.whiteSpaces
    let path := Path.named pathSpec
    match entryKey path.lastElementName path.attributeName key with
    | .error e => .error e
    | .ok (key, keyIsAttribute) =>
      if attr.isEmpty then
        match parseTarget path.attributeName mapping with
        | .error e => .error e
        | .ok target => (parseEntries attr rest).map (.cons key keyIsAttribute path.elements target)
      else .error .assertion

end

def TargetSpec.parse : DynTree → Except ParseFailure TargetSpec
  | .list mapping => parseList lib o [] mapping
  | .dict mapping => (parseEntries lib o [] mapping).map .object
  | _ => .error (.error rootMappingError)

def ScalarTarget.eval (t : ScalarTarget) (text : Option Bytes) : DynTree :=
  match (if text.isNone then t.defaultValue else none) with
  | some d => d
  | none => t.type.convert lib o t.format (o.toOptions.trimmed (text.getD []))

mutual

/-- The value that an element gets. Those entries of an object that have something to show are put
over the one with the attributes. -/
def TargetSpec.eval : TargetSpec → XmlElement → DynTree
  | .scalar t attr, e => t.eval lib o (textFor attr e)
  | .list path item, e => .list ((e.select path).map fun e => item.eval e)
  | .object entries, e => .dict (overlay bytesLt (entries.shown e) (attrEntries o e.attrs))

/-- What an object has for the elements of an entry: the last one, or the items of all of them. -/
def TargetSpec.shown : TargetSpec → List XmlElement → Option DynTree
  | .scalar t attr, es =>
    match es.getLast? with
    | some e => some (t.eval lib o (textFor attr e))
    | none => t.defaultValue
  | .list path item, es =>
    if (es.flatMap (·.select path)).isEmpty then none
    else some (.list ((es.flatMap (·.select path)).map fun e => item.eval e))
  | .object entries, es =>
    es.getLast?.map fun e => .dict (overlay bytesLt (entries.shown e) (attrEntries o e.attrs))

def EntrySpecs.shown : EntrySpecs → XmlElement → List (Bytes × Option DynTree)
  | .nil, _ => []
  | .cons key _ path target rest, e => (key, target.shown (e.select path)) :: rest.shown e

end

end

end Xml2Var
end Nkit
