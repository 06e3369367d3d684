import Nkit.Dynamic.Ordering
import Nkit.Xml.Cdata
import Nkit.Xml.Escaping

/-! `Var2XmlConverter` over any `Dynamic`, with texts in the encoding of the options
(`var2xml.h`, `dynamic_builder.h`). -/

namespace Nkit
open OrderedMap

structure ConverterSettings extends Var2XmlSettings where
  encoding : Option Bytes
  floatPrecision : Option ℕ
  dateTimeFormat : Option Bytes
  boolTrue : Option Bytes
  boolFalse : Option Bytes

structure ConverterOptions extends Var2XmlOptions where
  transcoder : Option Transcoder
  floatPrecision : ℕ
  dateTimeFormat : Bytes
  boolTrue : Bytes
  boolFalse : Bytes

/-- `istrequal`, in the C locale. -/
def istrequal (str1 str2 : Bytes) : Bool :=
  str1.length == str2.length && str1.map Tools.toLower == str2.map Tools.toLower

namespace ConverterSettings

def ofPriority (keys : List Bytes) : ConverterSettings :=
  ⟨⟨none, none, none, none, none, none, none, none, [], [], [], keys⟩, none, none, none, none, none⟩

def encodingName (s : ConverterSettings) : Bytes := s.encoding.getD (ascii "UTF-8")

/-- The transcoder that `Create` finds, or its message. -/
def transcoder (find : Bytes → Option Transcoder) (s : ConverterSettings) :
    Except Bytes (Option Transcoder) :=
  if !istrequal s.encodingName (ascii "UTF-8") then
    match find s.encodingName with
    | none => .error (ascii "'" ++ s.encodingName ++ ascii "' encoding doesn't supported")
    | some transcoder => .ok (some transcoder)
  else .ok none

def xmlDec (s : ConverterSettings) : Bytes :=
  let version := s.version.getD []
  if !version.isEmpty then
    ascii "<?xml version=\"" ++ version ++ ascii "\" encoding=\"" ++ s.encodingName ++
      ascii "\" standalone=\"" ++
      (if s.standalone.getD true then ascii "yes" else ascii "no") ++ ascii "\"?>"
  else []

end ConverterSettings

/-- `Create`; `find` is `Transcoder::Find`. -/
def ConverterOptions.create (find : Bytes → Option Transcoder) (s : ConverterSettings) :
    Except Bytes ConverterOptions := do
  let transcoder ← s.transcoder find
  .ok
    { toVar2XmlOptions := { Var2XmlOptions.create s.toVar2XmlSettings with xmlDec := s.xmlDec }
      transcoder
      floatPrecision := s.floatPrecision.getD 2
      dateTimeFormat := s.dateTimeFormat.getD (ascii "%Y-%m-%d %H:%M:%S")
      boolTrue := s.boolTrue.getD (ascii "1")
      boolFalse := s.boolFalse.getD (ascii "0") }

/-- What depends on the platform: beside `CLib`, dates and doubles in a format of the options. -/
structure TextLib extends CLib where
  /-- `strftime`. -/
  formatDateTime : Bytes → BitVec 64 → Bytes
  /-- `string_cast` of a double. -/
  formatFloat : ℕ → BitVec 64 → Bytes

def TextLib.none : TextLib :=
  ⟨⟨fun _ => 0, fun _ => [], fun _ => [], fun _ => 0, fun _ => 0⟩, fun _ _ => [], fun _ _ => []⟩

def DynTree.isList : DynTree → Bool
  | list _ => true
  | _ => false

namespace Converter

/-- The text that `PutText` takes for a value. -/
def dataText (lib : TextLib) (o : ConverterOptions) : DynTree → Bytes
  | .plain .dateTime w =>
    let format := Tools.cStr o.dateTimeFormat
    lib.formatDateTime (if format.isEmpty then ascii "%Y-%m-%d %H:%M:%S" else format) w
  | .plain .float w => lib.formatFloat o.floatPrecision w
  | .plain .bool w => if w.toInt ≠ 0 then o.boolTrue else o.boolFalse
  | data => data.getString lib.toCLib

/-- `AppendTranscoded` of a string.  What `FromUtf8` returns is not looked at. -/
def appendTranscoded (transcoder : Option Transcoder) (text : Bytes) : Bytes :=
  match transcoder with
  | none => text
  | some transcoder => (transcoder.fromUtf8 text).2

def asCdata (o : ConverterOptions) (top : Option Bytes) : Bool :=
  if o.cdata.isEmpty then false
  else
    let found := top.any o.cdata.contains
    (found && !o.cdataExclude) || (!found && o.cdataExclude)

/-- `PutText` of the content of an element. -/
def putContent (o : ConverterOptions) (text : Bytes) (newline : Bool) (s : Var2XmlConverter) :
    Option Var2XmlConverter :=
  if text.isEmpty then some s
  else
    let s := if newline then s.append (o.newline ++ s.currentIndent) else s
    if asCdata o s.path.head? then do
      let text ← CdataLoop.putCdata o.transcoder text
      some (s.append text)
    else some (s.append (putText o.transcoder text))

/-- The attributes `BeginElement` takes out of the value. -/
def attributes (o : ConverterOptions) : DynTree → List (Bytes × DynTree)
  | .dict entries =>
    match get? bytesLt o.attrKey entries with
    | some (.dict attrs) => attrs
    | _ => []
  | _ => []

def putAttribute (lib : TextLib) (o : ConverterOptions) (attr : Bytes × DynTree) : Bytes :=
  32 :: appendTranscoded o.transcoder attr.1 ++ ascii "=\"" ++ putText o.transcoder
    (dataText lib o attr.2) ++ [34]

def prolog (o : ConverterOptions) : Bytes :=
  if !o.xmlDec.isEmpty && !o.rootName.isEmpty then o.xmlDec ++ o.newline else []

def beginElement (lib : TextLib) (o : ConverterOptions) (name : Bytes) (data : DynTree)
    (s : Var2XmlConverter) : Var2XmlConverter :=
  { path := name :: s.path
    currentIndent := s.currentIndent ++ o.indent
    firstEndAfterBegin := true
    begin := false
    out := s.out ++ (if s.begin then prolog o else o.newline) ++ s.currentIndent ++
      60 :: appendTranscoded o.transcoder name ++ (attributes o data).flatMap
      (putAttribute lib o) ++ [62] }

/-- `none` is the assertion on the path. -/
def endElement (o : ConverterOptions) (s : Var2XmlConverter) : Option Var2XmlConverter :=
  match s.path with
  | [] => none
  | name :: path =>
    let currentIndent := s.currentIndent.take (s.currentIndent.length - o.indent.length)
    some { s with
      path, currentIndent
      firstEndAfterBegin := false
      out := s.out ++ (if !s.firstEndAfterBegin then o.newline ++ currentIndent else []) ++
        ascii "</" ++ appendTranscoded o.transcoder name ++ [62] }

def putDictText (lib : TextLib) (o : ConverterOptions) (entries : List (Bytes × DynTree))
    (newline : Bool) (s : Var2XmlConverter) :
    Option Var2XmlConverter :=
  match get? bytesLt o.textKey entries with
  | some text => do
    let s ← putContent o (dataText lib o text) newline s
    some { s with firstEndAfterBegin := !newline }
  | none => some s

mutual

def convert (lib : TextLib) (o : ConverterOptions) (itemName : Bytes) : DynTree → Var2XmlConverter →
    Option Var2XmlConverter
  | .dict entries, s => do
    let members := o.members (convertMembers lib o entries)
    let s ← members.foldlM (fun s member => member.2 s) s
    putDictText lib o entries (!members.isEmpty) s
  | .list items, s => convertItems lib o (if itemName.isEmpty then o.itemName else itemName) items s
  | data, s => putContent o (dataText lib o data) false s

def convertMembers (lib : TextLib) (o : ConverterOptions) :
    List (Bytes × DynTree) → List (Bytes × (Var2XmlConverter → Option Var2XmlConverter))
  | [] => []
  | (key, v) :: entries =>
    (key, fun s =>
      if v.isList then convert lib o key v s
      else do
        let s ← convert lib o key v (beginElement lib o key v s)
        endElement o s) :: convertMembers lib o entries

def convertItems (lib : TextLib) (o : ConverterOptions) (name : Bytes) :
    List DynTree → Var2XmlConverter → Option Var2XmlConverter
  | [], s => some s
  | v :: items, s => do
    let s ← convert lib o [] v (beginElement lib o name v s)
    let s ← endElement o s
    convertItems lib o name items s

end

/-- `Process` with options that are created: the output, or the message of an error. -/
def processWith (lib : TextLib) (o : ConverterOptions) (data : DynTree) :
    Option (Except Bytes Bytes) :=
  if data.isDict || data.isList then do
    let s := if o.rootName.isEmpty then Var2XmlConverter.new
      else beginElement lib o o.rootName data .new
    let s ← convert lib o o.itemName data s
    let s ← if o.rootName.isEmpty then some s else endElement o s
    some (.ok s.out)
  else some (.error (ascii "Variable MUST be object (dict) or list"))

/-- `Process`. -/
def process (lib : TextLib) (find : Bytes → Option Transcoder) (settings : ConverterSettings)
    (data : DynTree) :
    Option (Except Bytes Bytes) :=
  match ConverterOptions.create find settings with
  | .error message => some (.error message)
  | .ok o => processWith lib o data

end Converter

end Nkit
