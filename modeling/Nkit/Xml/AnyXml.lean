import Nkit.Dynamic.Objects

/-! The stack machine of `AnyXml2VarBuilder` over the events of the XML parser, with the
`Dynamic` builders it drives (`xml2var.h`, `dynamic_builder.h`).  `none` is a failed assertion
or an access to an empty stack. -/

namespace Nkit

structure Options where
  trim : Bool
  whiteSpaces : Bytes
  explicitArray : Bool
  attrkey : Bytes
  textkey : Bytes
deriving DecidableEq, Repr

/-- What `Clear` makes of the options. -/
def Options.withDefaultKeys (o : Options) : Options :=
  { o with
    attrkey := if o.attrkey.isEmpty then ascii "$" else o.attrkey
    textkey := if o.textkey.isEmpty then ascii "_" else o.textkey }

/-- A `VarBuilder` over `DynamicBuilderPolicy`: the value, and the builders it keeps for
attributes and strings once it has needed them. -/
structure VarBuilder where
  object : Handle
  attrBuilder : Option VarBuilder
  stringBuilder : Option VarBuilder

namespace VarBuilder

def new : VarBuilder := ⟨none, none, none⟩

def initAsDict (m : Objects) (b : VarBuilder) : VarBuilder × Objects :=
  let (object, m) := m.alloc (.dict [])
  ({ b with object }, m)

def initAsString (value : Bytes) (m : Objects) (b : VarBuilder) : VarBuilder × Objects :=
  let (object, m) := m.alloc (.str value)
  ({ b with object }, m)

/-- `SetDictKeyValue` of a text, through the string builder. -/
def setDictKeyText (key text : Bytes) (m : Objects) (b : VarBuilder) : VarBuilder × Objects :=
  let (sb, m) := (b.stringBuilder.getD new).initAsString text m
  ({ b with stringBuilder := some sb }, m.dictSet key sb.object b.object)

/-- `SetDictKeyValue` of a value. -/
def setDictKeyValue (key : Bytes) (value : Handle) (m : Objects) (b : VarBuilder) :
    Option Objects :=
  if m.isDict b.object then some (m.dictSet key value b.object) else none

def setAttrKey (o : Options) (attrs : List (Bytes × Bytes)) (m : Objects) (b : VarBuilder) :
    Option (VarBuilder × Objects) :=
  if !o.attrkey.isEmpty && !attrs.isEmpty then do
    let (ab, m) := (b.attrBuilder.getD new).initAsDict m
    let (ab, m) := attrs.foldl (fun (ab, m) attr => ab.setDictKeyText attr.1 attr.2 m) (ab, m)
    let m ← b.setDictKeyValue o.attrkey ab.object m
    some ({ b with attrBuilder := some ab }, m)
  else some (b, m)

/-- `AppendToDictKeyList` of a value. -/
def appendToDictKeyList (o : Options) (key : Bytes) (value : Handle) (m : Objects)
    (b : VarBuilder) :
    Objects :=
  match m.dictGet key b.object with
  | some listValue =>
    if m.isList listValue then m.pushBack value listValue
    else
      let (list, m) := m.dlist listValue
      (m.dictSet key list b.object).pushBack value list
  | none =>
    if o.explicitArray then
      let (list, m) := m.dlist value
      m.dictSet key list b.object
    else m.dictSet key value b.object

/-- `AppendToDictKeyList` of a text, through the string builder. -/
def appendTextToDictKeyList (o : Options) (key text : Bytes) (m : Objects) (b : VarBuilder) :
    VarBuilder × Objects :=
  let (sb, m) := (b.stringBuilder.getD new).initAsString text m
  ({ b with stringBuilder := some sb }, b.appendToDictKeyList o key sb.object m)

end VarBuilder

/-- `top` is a second handle to the string on top of `stack`. -/
structure StringStack where
  top : Handle
  stack : List Handle
  cache : List Handle

namespace StringStack

def pushEmptyString (m : Objects) (t : StringStack) : StringStack × Objects :=
  match t.cache with
  | [] =>
    let (top, m) := m.alloc (.str [])
    (⟨top, top :: t.stack, []⟩, m)
  | top :: cache => (⟨top, top :: t.stack, cache⟩, m.clear top)

def pop (t : StringStack) : Option StringStack :=
  match t.stack with
  | [] => none
  | _ :: [] => some ⟨t.top, [], t.top :: t.cache⟩
  | _ :: top :: stack => some ⟨top, top :: stack, t.top :: t.cache⟩

end StringStack

structure AnyXml2VarBuilder where
  objects : Objects
  builders : ℕ → VarBuilder
  nextBuilder : ℕ
  rootVarBuilder : ℕ
  first : Bool
  rootName : Bytes
  varBuilderStack : List ℕ
  varBuilderCache : List ℕ
  isSimpleElementStack : List Bool
  currentTextStack : StringStack

inductive XmlEvent where
  | startElement (el : Bytes) (attrs : List (Bytes × Bytes))
  | text (text : Bytes)
  | endElement (el : Bytes)
deriving DecidableEq, Repr

namespace AnyXml2VarBuilder

def setBuilder (b : ℕ) (builder : VarBuilder) (m : Objects) (s : AnyXml2VarBuilder) :
    AnyXml2VarBuilder :=
  { s with objects := m, builders := Function.update s.builders b builder }

def newVarBuilder (s : AnyXml2VarBuilder) : ℕ × AnyXml2VarBuilder :=
  match s.varBuilderCache with
  | [] => (s.nextBuilder, { s with
      builders := Function.update s.builders s.nextBuilder VarBuilder.new
      nextBuilder := s.nextBuilder + 1 })
  | b :: cache => (b, { s with varBuilderCache := cache })

def popVarBuilderStack (s : AnyXml2VarBuilder) : Option AnyXml2VarBuilder :=
  match s.varBuilderStack with
  | [] => none
  | b :: stack =>
    some { s with varBuilderStack := stack, varBuilderCache := b :: s.varBuilderCache }

/-- The machine after the constructor, that is after `Clear`. -/
def create : AnyXml2VarBuilder :=
  let (root, m) := VarBuilder.new.initAsDict Objects.empty
  let (texts, m) := StringStack.pushEmptyString m ⟨none, [], []⟩
  { objects := m, builders := Function.update (fun _ => VarBuilder.new) 0 root, nextBuilder := 1
    rootVarBuilder := 0, first := true, rootName := [], varBuilderStack := [0],
    varBuilderCache := []
    isSimpleElementStack := [false], currentTextStack := texts }

/-- `Clear()`: the builder of the root comes from the cache if there is one. -/
def clear (s : AnyXml2VarBuilder) : AnyXml2VarBuilder :=
  let (root, s) := s.newVarBuilder
  let (texts, m) := StringStack.pushEmptyString s.objects ⟨s.currentTextStack.top, [], []⟩
  let (builder, m) := (s.builders root).initAsDict m
  { s.setBuilder root builder m with
    rootVarBuilder := root, first := true, rootName := [], varBuilderStack := [root]
    isSimpleElementStack := [false], currentTextStack := texts }

def onStartElement (o : Options) (el : Bytes) (attrs : List (Bytes × Bytes))
    (s : AnyXml2VarBuilder) :
    Option AnyXml2VarBuilder :=
  if s.first then do
    let (root, m) ← (s.builders s.rootVarBuilder).setAttrKey o attrs s.objects
    some { s.setBuilder s.rootVarBuilder root m with rootName := el, first := false }
  else
    match s.isSimpleElementStack with
    | [] => none
    | _ :: simple => do
      let (b, s) := s.newVarBuilder
      let (builder, m) := (s.builders b).initAsDict s.objects
      let (builder, m) ← builder.setAttrKey o attrs m
      let (texts, m) := s.currentTextStack.pushEmptyString m
      some { s.setBuilder b builder m with
        isSimpleElementStack := attrs.isEmpty :: false :: simple
        varBuilderStack := b :: s.varBuilderStack
        currentTextStack := texts }

def popElement (s : AnyXml2VarBuilder) : Option AnyXml2VarBuilder := do
  let texts ← s.currentTextStack.pop
  some { s with isSimpleElementStack := s.isSimpleElementStack.tail, currentTextStack := texts }

def onEndElement (o : Options) (el : Bytes) (s : AnyXml2VarBuilder) : Option AnyXml2VarBuilder := do
  let s := if o.trim then
      { s with objects := s.objects.trim o.whiteSpaces s.currentTextStack.top } else s
  let currentText ← s.objects.string s.currentTextStack.top
  let simple ← s.isSimpleElementStack.head?
  if simple then
    let s ← s.popVarBuilderStack
    let parent ← s.varBuilderStack.head?
    let (builder, m) := (s.builders parent).appendTextToDictKeyList o el currentText s.objects
    (s.setBuilder parent builder m).popElement
  else
    let last ← s.varBuilderStack.head?
    let s := if currentText.isEmpty then s
      else
        let (builder, m) := (s.builders last).setDictKeyText o.textkey currentText s.objects
        s.setBuilder last builder m
    let s ← s.popVarBuilderStack
    match s.varBuilderStack with
    | [] => s.popElement
    | parent :: _ =>
      let m := (s.builders parent).appendToDictKeyList o el (s.builders last).object s.objects
      AnyXml2VarBuilder.popElement { s with objects := m }

def onText (text : Bytes) (s : AnyXml2VarBuilder) : AnyXml2VarBuilder :=
  { s with objects := s.objects.append text s.currentTextStack.top }

def step (o : Options) (s : AnyXml2VarBuilder) : XmlEvent → Option AnyXml2VarBuilder
  | .startElement el attrs => s.onStartElement o el attrs
  | .text text => some (s.onText text)
  | .endElement el => s.onEndElement o el

def feed (o : Options) (events : List XmlEvent) (s : AnyXml2VarBuilder) :
    Option AnyXml2VarBuilder :=
  events.foldlM (step o) s

def var (s : AnyXml2VarBuilder) : Handle := (s.builders s.rootVarBuilder).object

def parse (o : Options) (events : List XmlEvent) : Option AnyXml2VarBuilder :=
  create.feed o.withDefaultKeys events

end AnyXml2VarBuilder

end Nkit
