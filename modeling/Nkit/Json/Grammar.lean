import Nkit.Json.Sax
import Nkit.Utf8

/-! The JSON grammar of RFC 8259 as a reader: which bytes are a JSON text, and of which value.
Strings are UTF-8. -/

namespace Nkit

namespace Rfc8259

def hexValue (c : UInt8) : Option ℕ :=
  if isDigit c then some (c.toNat - 48)
  else if 65 ≤ c ∧ c ≤ 70 then some (c.toNat - 55)
  else if 97 ≤ c ∧ c ≤ 102 then some (c.toNat - 87)
  else none

def hex4 : Bytes → Option (ℕ × Bytes)
  | a :: b :: c :: d :: text => do
    let a ← hexValue a
    let b ← hexValue b
    let c ← hexValue c
    let d ← hexValue d
    some (((a * 16 + b) * 16 + c) * 16 + d, text)
  | _ => none

/-- What follows `\\u`; characters outside the first plane take two escapes. -/
def readUnicode (text : Bytes) : Option (Bytes × Bytes) := do
  let (high, text) ← hex4 text
  if 0xDC00 ≤ high ∧ high < 0xE000 then none
  else if 0xD800 ≤ high ∧ high < 0xDC00 then
    match text with
    | 92 :: 117 :: text => do
      let (low, text) ← hex4 text
      if 0xDC00 ≤ low ∧ low < 0xE000 then
        some (utf8Encode (0x10000 + (high - 0xD800) * 1024 + (low - 0xDC00)), text)
      else none
    | _ => none
  else some (utf8Encode high, text)

def readEscape : Bytes → Option (Bytes × Bytes)
  | 34 :: text => some ([34], text)
  | 92 :: text => some ([92], text)
  | 47 :: text => some ([47], text)
  | 98 :: text => some ([8], text)
  | 102 :: text => some ([12], text)
  | 110 :: text => some ([10], text)
  | 114 :: text => some ([13], text)
  | 116 :: text => some ([9], text)
  | 117 :: text => readUnicode text
  | _ => none

def readChar : Bytes → Option (Bytes × Bytes)
  | 92 :: text => readEscape text
  | text => do
    let (c, text) ← utf8Split text
    if c.head?.any (· < 0x20) then none else some (c, text)

def readChars : ℕ → Bytes → Option (Bytes × Bytes)
  | _, 34 :: text => some ([], text)
  | 0, _ => none
  | fuel + 1, text => do
    let (c, text) ← readChar text
    let (s, text) ← readChars fuel text
    some (c ++ s, text)

def readString (text : Bytes) : Option (Bytes × Bytes) := readChars text.length text

def readDigits (text : Bytes) : Option (Bytes × Bytes) :=
  let digits := text.takeWhile isDigit
  if digits = [] then none else some (digits, text.dropWhile isDigit)

def readSign (signs : Bytes) : Bytes → Bytes × Bytes
  | [] => ([], [])
  | c :: text => if signs.contains c then ([c], text) else ([], c :: text)

def readInt : Bytes → Option (Bytes × Bytes)
  | 48 :: text => some ([48], text)
  | text => readDigits text

def readFrac : Bytes → Option (Bytes × Bytes)
  | 46 :: text => (readDigits text).map fun (digits, text) => (46 :: digits, text)
  | text => some ([], text)

def isExp (c : UInt8) : Bool := c == 101 || c == 69

def readExp : Bytes → Option (Bytes × Bytes)
  | [] => some ([], [])
  | c :: text =>
    if !isExp c then some ([], c :: text)
    else
      let (sign, text) := readSign [43, 45] text
      (readDigits text).map fun (digits, text) => (c :: sign ++ digits, text)

def readNumber (text : Bytes) : Option (Bytes × Bytes) := do
  let (sign, text) := readSign [45] text
  let (int, text) ← readInt text
  let (frac, text) ← readFrac text
  let (exp, text) ← readExp text
  some (sign ++ int ++ frac ++ exp, text)

def isWs (c : UInt8) : Bool := c == 32 || c == 9 || c == 10 || c == 13

def skipWs (text : Bytes) : Bytes := text.dropWhile isWs

def readLiteral (literal : Bytes) (v : Json) (text : Bytes) : Option (Json × Bytes) :=
  if literal.isPrefixOf text then some (v, text.drop literal.length) else none

def readScalar : Bytes → Option (Json × Bytes)
  | 110 :: text => readLiteral (ascii "ull") .null text
  | 116 :: text => readLiteral (ascii "rue") (.bool true) text
  | 102 :: text => readLiteral (ascii "alse") (.bool false) text
  | 34 :: text => (readString text).map fun (s, text) => (.string s, text)
  | text => (readNumber text).map fun (str, text) => (.number str, text)

mutual

def readValue : ℕ → Bytes → Option (Json × Bytes)
  | 0, _ => none
  | fuel + 1, text =>
    match skipWs text with
    | 91 :: text =>
      match skipWs text with
      | 93 :: text => some (.array [], text)
      | text => (readItems fuel text).map fun (items, text) => (.array items, text)
    | 123 :: text =>
      match skipWs text with
      | 125 :: text => some (.object [], text)
      | text => (readMembers fuel text).map fun (members, text) => (.object members, text)
    | text => readScalar text

def readItems : ℕ → Bytes → Option (List Json × Bytes)
  | 0, _ => none
  | fuel + 1, text => do
    let (v, text) ← readValue fuel text
    match skipWs text with
    | 44 :: text => (readItems fuel text).map fun (items, text) => (v :: items, text)
    | 93 :: text => some ([v], text)
    | _ => none

def readMembers : ℕ → Bytes → Option (List (Bytes × Json) × Bytes)
  | 0, _ => none
  | fuel + 1, text =>
    match skipWs text with
    | 34 :: text => do
      let (k, text) ← readString text
      match skipWs text with
      | 58 :: text => do
        let (v, text) ← readValue fuel text
        match skipWs text with
        | 44 :: text => (readMembers fuel text).map fun (members, text) => ((k, v) :: members, text)
        | 125 :: text => some ([(k, v)], text)
        | _ => none
      | _ => none
    | _ => none

end

def readText (text : Bytes) : Option Json :=
  match readValue (2 * text.length + 1) text with
  | some (v, rest) => if skipWs rest = [] then some v else none
  | none => none

end Rfc8259

end Nkit
