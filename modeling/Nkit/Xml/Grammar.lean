import Nkit.Xml.Reading
import Nkit.Utf8

/-! A part of the XML 1.0 grammar as a reader: which bytes are a document, and of which elements.
Documents here are UTF-8 without CR, and have no document type, processing instructions or
character references.  The XML parser is a parameter; it is held to this part. -/

namespace Nkit

/-- The production `Char`, without CR. -/
def isXmlChar (c : Bytes) : Bool :=
  isUtf8Char c && (c.head?.all (0x20 ≤ ·) || c == [9] || c == [10]) && c != [0xEF, 0xBF, 0xBE] &&
    c != [0xEF, 0xBF, 0xBF]

/-- All characters are read; `pending` are the first bytes of one. -/
def isXmlText : Bytes → Bytes → Bool
  | pending, [] => pending.isEmpty
  | pending, b :: rest =>
    if isXmlChar (pending ++ [b]) then isXmlText [] rest
    else if pending.length < 3 then isXmlText (pending ++ [b]) rest
    else false

def XmlText (s : Bytes) : Prop := isXmlText [] s = true

instance (s : Bytes) : Decidable (XmlText s) := inferInstanceAs (Decidable (_ = _))

def isXmlSpace (b : UInt8) : Bool := b == 32 || b == 9 || b == 10

def isNameByte (b : UInt8) : Bool :=
  (97 ≤ b && b ≤ 122) || (65 ≤ b && b ≤ 90) || (48 ≤ b && b ≤ 57) || b == 46 || b == 45 || b ==
    95 || b == 58 || 0x80 ≤ b

/-- The editions of the standard differ in the characters beyond ASCII that a name may have. -/
structure NameTable where
  isName : Bytes → Bool
  bytes : ∀ n, isName n = true → n ≠ [] ∧ ∀ b ∈ n, isNameByte b = true
  text : ∀ n, isName n = true → XmlText n

namespace XmlGrammar
variable (names : NameTable)

def skip (word text : Bytes) : Option Bytes :=
  if word.isPrefixOf text then some (text.drop word.length) else none

def skipSpaces (text : Bytes) : Bytes := text.dropWhile isXmlSpace

def readName (text : Bytes) : Option (Bytes × Bytes) :=
  if names.isName (text.takeWhile isNameByte)
    then some (text.takeWhile isNameByte, text.dropWhile isNameByte)
  else none

def entities : List (Bytes × UInt8) :=
  [(ascii "lt;", 60), (ascii "gt;", 62), (ascii "amp;", 38), (ascii "quot;", 34),
    (ascii "apos;", 39)]

def readReference (text : Bytes) : Option (UInt8 × Bytes) :=
  entities.findSome? fun e => (skip e.1 text).map (e.2, ·)

/-- What follows `<![CDATA[`. -/
def readCdata : Bytes → Option (Bytes × Bytes)
  | [] => none
  | b :: text =>
    if (ascii "]]>").isPrefixOf (b :: text) then some ([], text.drop 2)
    else (readCdata text).map fun r => (b :: r.1, r.2)

/-- What follows `<!--`. -/
def readComment : Bytes → Option Bytes
  | [] => none
  | b :: text =>
    if (ascii "--").isPrefixOf (b :: text) then skip (ascii "->") text else readComment text

def readValue : ℕ → Bytes → Option (Bytes × Bytes)
  | 0, _ => none
  | fuel + 1, text =>
    match text with
    | [] => none
    | b :: text =>
      if b = 34 then some ([], text)
      else if b = 60 then none
      else if b = 38 then do
        let (c, text) ← readReference text
        let (s, text) ← readValue fuel text
        some (c :: s, text)
      else do
        let (s, text) ← readValue fuel text
        some ((if isXmlSpace b then 32 else b) :: s, text)

def readAttributes : ℕ → Bytes → Option (List (Bytes × Bytes) × Bytes)
  | 0, _ => none
  | fuel + 1, text =>
    let inner := skipSpaces text
    if inner.head? = some 62 ∨ inner.head? = some 47 then some ([], inner)
    else if inner.length = text.length then none
    else do
      let (name, text) ← readName names inner
      let text ← skip (ascii "=\"") text
      let (value, text) ← readValue fuel text
      let (attrs, text) ← readAttributes fuel text
      if attrs.any (·.1 == name) then none else some ((name, value) :: attrs, text)

def readEndTag (name text : Bytes) : Option Bytes := do
  let text ← skip (ascii "</" ++ name) text
  skip [62] (skipSpaces text)

mutual

/-- What follows `<` at the start of an element. -/
def readElement : ℕ → Bytes → Option ((Bytes × List (Bytes × Bytes) × XmlContent) × Bytes)
  | 0, _ => none
  | fuel + 1, text => do
    let (name, text) ← readName names text
    let (attrs, text) ← readAttributes names fuel text
    match skip (ascii "/>") text with
    | some text => some ((name, attrs, .nil), text)
    | none => do
      let text ← skip [62] text
      let (body, text) ← readContent fuel text
      let text ← readEndTag name text
      some ((name, attrs, body), text)

/-- The content up to an end tag, a text in pieces of one character or section. -/
def readContent : ℕ → Bytes → Option (XmlContent × Bytes)
  | 0, _ => none
  | fuel + 1, text =>
    match text with
    | [] => some (.nil, [])
    | b :: rest =>
      if b = 60 then
        if (ascii "</").isPrefixOf text then some (.nil, text)
        else
          match skip (ascii "<!--") text, skip (ascii "<![CDATA[") text with
          | some text, _ => do
            let text ← readComment text
            readContent fuel text
          | none, some text => do
            let (s, text) ← readCdata text
            let (content, text) ← readContent fuel text
            some (.text s content, text)
          | none, none => do
            let ((name, attrs, body), text) ← readElement fuel rest
            let (content, text) ← readContent fuel text
            some (.element name attrs body content, text)
      else if b = 38 then do
        let (c, text) ← readReference rest
        let (content, text) ← readContent fuel text
        some (.text [c] content, text)
      else if (ascii "]]>").isPrefixOf text then none
      else do
        let (content, text) ← readContent fuel rest
        some (.text [b] content, text)

end

def skipMisc : ℕ → Bytes → Option Bytes
  | 0, text => some text
  | fuel + 1, text =>
    match skip (ascii "<!--") (skipSpaces text) with
    | none => some (skipSpaces text)
    | some text => do
      let text ← readComment text
      skipMisc fuel text

def readDeclaration (text : Bytes) : Option Bytes :=
  if (ascii "<?xml").isPrefixOf text then do
    let text ← skip (ascii "<?xml version=\"1.") text
    let digits := text.takeWhile fun b => 48 ≤ b && b ≤ 57
    if digits.isEmpty then none
    else do
      let text ← skip (ascii "\" encoding=\"UTF-8\" standalone=\"") (text.drop digits.length)
      let text ← skip (ascii "yes") text <|> skip (ascii "no") text
      skip (ascii "\"?>") text
  else some text

def readDocument (text : Bytes) : Option XmlDocument :=
  if XmlText text then do
    let inner ← readDeclaration text
    let inner ← skipMisc text.length inner
    let inner ← skip [60] inner
    let ((name, attrs, body), inner) ← readElement names text.length inner
    let inner ← skipMisc text.length inner
    if inner.isEmpty then some ⟨name, attrs, body⟩ else none
  else none

end XmlGrammar

def joinTexts : List XmlEvent → List XmlEvent
  | [] => []
  | .text s :: events =>
    match joinTexts events with
    | .text s' :: rest => .text (s ++ s') :: rest
    | rest => if s.isEmpty then rest else .text s :: rest
  | e :: events => e :: joinTexts events

/-- The events of the handlers for a text that is fed whole, and whether there was no error. -/
abbrev Expat := Bytes → List XmlEvent × Bool

/-- Documents are accepted, and their events delivered; a text may come in any pieces. -/
def Expat.Conforms (names : NameTable) (expat : Expat) : Prop :=
  ∀ text d, XmlGrammar.readDocument names text = some d →
    (expat text).2 = true ∧ joinTexts (expat text).1 = joinTexts d.events

/-- `DynamicFromAnyXml`: the machine after the document, `none` where there was an error. -/
def dynamicFromAnyXml (expat : Expat) (o : Options) (xml : Bytes) : Option AnyXml2VarBuilder := do
  let s ← AnyXml2VarBuilder.parse o (expat xml).1
  if (expat xml).2 then some s else none

def grammarExpat (names : NameTable) : Expat := fun text =>
  match XmlGrammar.readDocument names text with
  | some d => (d.events, true)
  | none => ([], false)

theorem grammarExpat_conforms (names : NameTable) : (grammarExpat names).Conforms names := by
  intro text d h
  simp only [grammarExpat, h, and_self]

end Nkit
