import Nkit.Dynamic.Reads

/-! Values written as XML: `Var2XmlConverter` over `DynamicReaderPolicy`, for values made of
strings, lists and dicts (`var2xml.h`).  The output is UTF-8, so there is no transcoder. -/

namespace Nkit
open OrderedMap

structure Var2XmlSettings where
  rootname : Option Bytes
  itemname : Option Bytes
  attrkey : Option Bytes
  textkey : Option Bytes
  version : Option Bytes
  standalone : Option Bool
  indent : Option Bytes
  newline : Option Bytes
  cdata : List Bytes
  plusCdata : List Bytes
  minusCdata : List Bytes
  priority : List Bytes

structure Var2XmlOptions where
  rootName : Bytes
  itemName : Bytes
  attrKey : Bytes
  textKey : Bytes
  xmlDec : Bytes
  indent : Bytes
  newline : Bytes
  cdata : List Bytes
  cdataExclude : Bool
  priorityList : List Bytes

namespace Var2XmlOptions

def create (s : Var2XmlSettings) : Var2XmlOptions :=
  let cdata := if s.cdata.isEmpty then s.plusCdata else s.cdata
  let version := s.version.getD []
  { rootName := s.rootname.getD []
    itemName := s.itemname.getD (ascii "item")
    attrKey := s.attrkey.getD (ascii "$")
    textKey := s.textkey.getD (ascii "_")
    xmlDec :=
      if version.isEmpty then []
      else ascii "<?xml version=\"" ++ version ++ ascii "\" encoding=\"UTF-8\" standalone=\"" ++
        (if s.standalone.getD true then ascii "yes" else ascii "no") ++ ascii "\"?>"
    indent := s.indent.getD []
    newline := s.newline.getD []
    cdata := if cdata.isEmpty then s.minusCdata else cdata
    cdataExclude := cdata.isEmpty && !s.minusCdata.isEmpty
    priorityList := s.priority }

def members {α : Type*} (o : Var2XmlOptions) (entries : List (Bytes × α)) : List (Bytes × α) :=
  (o.priorityList.filterMap fun key =>
    if o.attrKey == key || o.textKey == key then none
    else (get? bytesLt key entries).map (key, ·)) ++
  entries.filter fun e => !(o.attrKey == e.1 || o.textKey == e.1 || o.priorityList.contains e.1)

end Var2XmlOptions

/-- `GetString` of a value without numbers. -/
def Value.getString : Value → Bytes
  | str s => s
  | _ => []

/-- `SpetialCharCallback`, and the character itself where it does nothing. -/
def spetialChar (ch : UInt8) : Bytes :=
  if ch = 60 then ascii "&lt;"
  else if ch = 62 then ascii "&gt;"
  else if ch = 38 then ascii "&amp;"
  else if ch = 34 then ascii "&quot;"
  else if ch = 39 then ascii "&apos;"
  else [ch]

/-- The innermost `PutText`. -/
def escapeText (text : Bytes) : Bytes := text.flatMap spetialChar

def cdataBegin : Bytes := ascii "<![CDATA["

def cdataEnd : Bytes := ascii "]]>"

/-- The loop of `PutCdata`: the bytes of a marker still to be passed, the run since the last
marker, and the rest of the text. -/
def putCdataLoop : ℕ → Bytes → Bytes → Bytes
  | _, run, [] => run
  | skip + 1, run, _ :: rest => putCdataLoop skip run rest
  | 0, run, ch :: rest =>
    if cdataBegin.isPrefixOf (ch :: rest) then
      run ++ ascii "<![" ++ cdataEnd ++ cdataBegin ++ ascii "CDATA[" ++
        putCdataLoop (cdataBegin.length - 1) [] rest
    else if cdataEnd.isPrefixOf (ch :: rest) then
      run ++ ascii "]]" ++ cdataEnd ++ cdataBegin ++ ascii ">" ++ putCdataLoop (cdataEnd.length - 1)
        [] rest
    else putCdataLoop 0 (run ++ [ch]) rest

def putCdata (text : Bytes) : Bytes := cdataBegin ++ putCdataLoop 0 [] text ++ cdataEnd

structure Var2XmlConverter where
  path : List Bytes
  currentIndent : Bytes
  firstEndAfterBegin : Bool
  begin : Bool
  out : Bytes

namespace Var2XmlConverter

def new : Var2XmlConverter := ⟨[], [], false, true, []⟩

def append (text : Bytes) (s : Var2XmlConverter) : Var2XmlConverter :=
  { s with out := s.out ++ text }

/-- `PutText` of the content of an element. -/
def putText (o : Var2XmlOptions) (text : Bytes) (newline : Bool) (s : Var2XmlConverter) :
    Var2XmlConverter :=
  if text.isEmpty then s
  else
    let s := if newline then s.append (o.newline ++ s.currentIndent) else s
    if o.cdata.isEmpty then s.append (escapeText text)
    else
      let found := s.path.head?.any o.cdata.contains
      if (found && !o.cdataExclude) || (!found && o.cdataExclude) then s.append (putCdata text)
      else s.append (escapeText text)

/-- The attributes `BeginElement` takes out of the value. -/
def attributes (o : Var2XmlOptions) : Value → List (Bytes × Value)
  | .dict entries =>
    match get? bytesLt o.attrKey entries with
    | some (.dict attrs) => attrs
    | _ => []
  | _ => []

def putAttribute (attr : Bytes × Value) : Bytes :=
  32 :: attr.1 ++ ascii "=\"" ++ escapeText attr.2.getString ++ [34]

def beginElement (o : Var2XmlOptions) (name : Bytes) (data : Value) (s : Var2XmlConverter) :
    Var2XmlConverter :=
  let prolog :=
    if !s.begin then o.newline
    else if !o.xmlDec.isEmpty && !o.rootName.isEmpty then o.xmlDec ++ o.newline
    else []
  { path := name :: s.path
    currentIndent := s.currentIndent ++ o.indent
    firstEndAfterBegin := true
    begin := false
    out := s.out ++ prolog ++ s.currentIndent ++ 60 :: name ++
    (attributes o data).flatMap putAttribute ++ [62] }

/-- `none` is the assertion on the path. -/
def endElement (o : Var2XmlOptions) (s : Var2XmlConverter) : Option Var2XmlConverter :=
  match s.path with
  | [] => none
  | name :: path =>
    let currentIndent := s.currentIndent.take (s.currentIndent.length - o.indent.length)
    some { s with
      path, currentIndent
      firstEndAfterBegin := false
      out := s.out ++ (if s.firstEndAfterBegin then [] else o.newline ++ currentIndent) ++
      ascii "</" ++ name ++ [62] }

def putDictText (o : Var2XmlOptions) (entries : List (Bytes × Value)) (newline : Bool)
    (s : Var2XmlConverter) :
    Var2XmlConverter :=
  match get? bytesLt o.textKey entries with
  | some text => { s.putText o text.getString newline with firstEndAfterBegin := !newline }
  | none => s

mutual

def convert (o : Var2XmlOptions) (itemName : Bytes) : Value → Var2XmlConverter →
    Option Var2XmlConverter
  | .dict entries, s => do
    let members := o.members (convertMembers o entries)
    let s ← members.foldlM (fun s member => member.2 s) s
    some (s.putDictText o entries !members.isEmpty)
  | .list items, s => convertItems o (if itemName.isEmpty then o.itemName else itemName) items s
  | .str text, s => some (s.putText o text false)

def convertMembers (o : Var2XmlOptions) :
    List (Bytes × Value) → List (Bytes × (Var2XmlConverter → Option Var2XmlConverter))
  | [] => []
  | (key, v) :: entries =>
    (key, fun s =>
      if v.isList then convert o key v s
      else do
        let s ← convert o key v (s.beginElement o key v)
        s.endElement o) :: convertMembers o entries

def convertItems (o : Var2XmlOptions) (name : Bytes) :
    List Value → Var2XmlConverter → Option Var2XmlConverter
  | [], s => some s
  | v :: items, s => do
    let s ← convert o [] v (s.beginElement o name v)
    let s ← s.endElement o
    convertItems o name items s

end

end Var2XmlConverter

open Var2XmlConverter in
/-- `Process`: the output, or the message of an error. -/
def var2XmlProcess (o : Var2XmlOptions) (data : Value) : Option (Except Bytes Bytes) :=
  match data with
  | .str _ => some (.error (ascii "Variable MUST be object (dict) or list"))
  | data => do
    let s := if o.rootName.isEmpty then new else new.beginElement o o.rootName data
    let s ← convert o o.itemName data s
    let s ← if o.rootName.isEmpty then some s else s.endElement o
    some (.ok s.out)

end Nkit
