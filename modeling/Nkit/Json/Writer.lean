import Nkit.Dynamic.Ordering

/-! Values as JSON texts (`DynamicToJson`, with the default options).  `none` is an access to the
columns of a table that has none. -/

namespace Nkit

/-- The digits of `std::hex << std::uppercase`. -/
def hexDigit (n : ℕ) : UInt8 := if n < 10 then UInt8.ofNat (48 + n) else UInt8.ofNat (55 + n)

/-- One character of `write_string_or_mongodb_oid`.  The last digit of a `\u` is not written. -/
def escapeChar (ch : UInt8) : Bytes :=
  if ch = 92 then [92, 92]
  else if ch = 34 then [92, 34]
  else if ch = 47 then [92, 47]
  else if ch = 8 then [92, 98]
  else if ch = 12 then [92, 102]
  else if ch = 10 then [92, 110]
  else if ch = 13 then [92, 114]
  else if ch = 9 then [92, 116]
  else if 0 < ch ∧ ch ≤ 0x1F then
    [92, 117, 48, 48, hexDigit (ch.toNat / 16), hexDigit (ch.toNat % 16)].dropLast
  else [ch]

def escapeChars : Bytes → Bytes
  | [] => []
  | 92 :: 34 :: s => [92, 34] ++ escapeChars s
  | ch :: s => escapeChar ch ++ escapeChars s

def writeString (s : Bytes) : Bytes := 34 :: escapeChars s ++ [34]

def writeNumber (lib : CLib) (v : DynTree) : Bytes := v.getString lib

def writeDateTime (lib : CLib) (v : DynTree) : Bytes := 34 :: v.getString lib ++ [34]

/-- `write_dict_item`, for a value that is written already. -/
def writeDictItem (key value : Bytes) : Bytes := 34 :: key ++ [34, 58] ++ value

namespace DynTree

/-- `DynamicToJson` of a value without parts. -/
def scalarToJson (lib : CLib) : DynTree → Bytes
  | plain .bool w => if w.toInt = 0 then ascii "false" else ascii "true"
  | v@(plain .integer _) | v@(plain .unsignedInteger _) | v@(plain .float _) => writeNumber lib v
  | v@(plain .dateTime _) => writeDateTime lib v
  | string s | oid s => writeString s
  | _ => ascii "null"

/-- `write_table_row`: the last column stands after the loop. -/
def writeTableRow (lib : CLib) : List Column → List CellTree → Option Bytes
  | [c], [cell] => some (writeDictItem c.name (cell.toTree.scalarToJson lib) ++ [125])
  | c :: columns, cell :: cells => do
    let rest ← writeTableRow lib columns cells
    some (writeDictItem c.name (cell.toTree.scalarToJson lib) ++ 44 :: rest)
  | _, _ => none

def writeTableRows (lib : CLib) (columns : List Column) : List (List CellTree) → Option Bytes
  | [] => some [93]
  | [row] => do
    let text ← writeTableRow lib columns row
    some (123 :: text ++ [93])
  | row :: rows => do
    let text ← writeTableRow lib columns row
    let rest ← writeTableRows lib columns rows
    some (123 :: text ++ 44 :: rest)

mutual

/-- `DynamicToJson`. -/
def toJson (lib : CLib) : DynTree → Option Bytes
  | list items =>
    if items.isEmpty then some (ascii "[]")
    else do
      let text ← writeItems lib items
      some (91 :: text ++ [93])
  | dict entries =>
    if entries.isEmpty then some [123, 125]
    else do
      let text ← writeEntries lib entries
      some (123 :: text ++ [125])
  | table columns rows => do
    let text ← writeTableRows lib columns rows
    some (91 :: text)
  | v => some (v.scalarToJson lib)

/-- The loop of `write_list` and the item after it. -/
def writeItems (lib : CLib) : List DynTree → Option Bytes
  | [] => some []
  | v :: items => do
    let text ← v.toJson lib
    if items.isEmpty then some text
    else do
      let rest ← writeItems lib items
      some (text ++ 44 :: rest)

/-- The loop of `write_dict` and the item after it. -/
def writeEntries (lib : CLib) : List (Bytes × DynTree) → Option Bytes
  | [] => some []
  | (k, v) :: entries => do
    let text ← v.toJson lib
    if entries.isEmpty then some (writeDictItem k text)
    else do
      let rest ← writeEntries lib entries
      some (writeDictItem k text ++ 44 :: rest)

end

end DynTree

end Nkit
