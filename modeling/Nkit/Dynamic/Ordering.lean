import Nkit.Dynamic.Numbers
import Nkit.Dynamic.Store
import Nkit.Table.Compare

/-! Comparison of values (`Dynamic::operator <` and `==`).  The operators are tables over the two
types, and the left type says how the right operand is converted. -/

namespace Nkit
open OrderedMap

def PlainType.toDynamic : PlainType → DynamicType
  | .undef =>
    .undef | .integer => .integer | .unsignedInteger => .unsignedInteger | .float => .float
  | .bool => .bool | .dateTime => .dateTime | .none => .none

def DynTree.type : DynTree → DynamicType
  | plain type _ => type.toDynamic
  | string _ => .string
  | oid _ => .mongodbOid
  | list _ => .list
  | dict _ => .dict
  | table .. => .table

def CellTree.toTree : CellTree → DynTree
  | plain type data => .plain type data
  | string value => .string value

/-- What depends on the platform: conversions between doubles and texts, dates as texts in the local
time zone, and integer casts of doubles out of range. -/
structure CLib where
  strtod : Bytes → BitVec 64
  /-- `snprintf` with `"%f"`. -/
  printFloat : BitVec 64 → Bytes
  /-- `strftime` with the default format. -/
  printDateTime : BitVec 64 → Bytes
  castSigned : BitVec 64 → ℤ
  castUnsigned : BitVec 64 → ℕ

namespace DynTree
variable (lib : CLib)

/-- `OP_GET_INT`. -/
def getInt : DynTree → ℤ
  | plain .integer w | plain .unsignedInteger w | plain .bool w | plain .dateTime w => w.toInt
  | plain .float w =>
    match Double.trunc w with
    | some n => if minInt64 ≤ n ∧ n ≤ maxInt64 then n else lib.castSigned w
    | none => lib.castSigned w
  | string s => (strtoll (Tools.cStr s)).1
  | _ => 0

/-- `OP_GET_UINT`. -/
def getUInt : DynTree → ℕ
  | plain .integer w | plain .unsignedInteger w | plain .bool w | plain .dateTime w => w.toNat
  | plain .float w =>
    match Double.trunc w with
    | some n => if 0 ≤ n ∧ n ≤ maxUInt64 then n.toNat else lib.castUnsigned w
    | none => lib.castUnsigned w
  | string s => (strtoull (Tools.cStr s)).1
  | _ => 0

/-- `GET_DOUBLE`. -/
def getDouble : DynTree → BitVec 64
  | plain .integer w | plain .bool w | plain .dateTime w => Double.ofInt w.toInt
  | plain .unsignedInteger w => Double.ofInt w.toNat
  | plain .float w => w
  | string s => lib.strtod (Tools.cStr s)
  | _ => 0

/-- `OP_GET_STRING` with an empty format. -/
def getString : DynTree → Bytes
  | plain .integer w | plain .bool w => stringCast w.toInt
  | plain .unsignedInteger w => stringCast w.toNat
  | plain .float w => lib.printFloat w
  | plain .dateTime w => lib.printDateTime w
  | string s | oid s => s
  | _ => []

/-- `Operation<OP_LT>`. -/
def lt (v rv : DynTree) : Bool :=
  match v with
  | plain .bool w => w.toInt < rv.getInt lib
  | plain .integer w =>
    match rv with
    | plain .integer w' => w.toInt < w'.toInt
    | plain .unsignedInteger w' => w.toInt < 0 || w.toNat < w'.toNat
    | _ => w.toInt < rv.getInt lib
  | plain .unsignedInteger w =>
    match rv with
    | plain .integer w' => 0 ≤ w'.toInt && w.toNat < w'.toNat
    | plain .unsignedInteger w' => w.toNat < w'.toNat
    | _ => w.toNat < rv.getUInt lib
  | plain .float w => Double.lt w (rv.getDouble lib)
  | plain .dateTime w => w.toNat < rv.getUInt lib
  | string s | oid s => s < rv.getString lib
  | plain .undef _ | plain .none _ | list _ | dict _ | table .. => v.type.code < rv.type.code

/-- `Operation<OP_EQ>` where the left operand is no container. -/
def eqPlain (v rv : DynTree) : Bool :=
  match v with
  | plain .bool w => w.toInt == rv.getInt lib
  | plain .integer w =>
    match rv with
    | plain .integer w' => w.toInt == w'.toInt
    | plain .unsignedInteger w' => 0 ≤ w.toInt && w.toNat == w'.toNat
    | _ => w.toInt == rv.getInt lib
  | plain .unsignedInteger w =>
    match rv with
    | plain .integer w' => 0 ≤ w'.toInt && w.toNat == w'.toNat
    | plain .unsignedInteger w' => w.toNat == w'.toNat
    | _ => w.toNat == rv.getUInt lib
  | plain .float w => Double.eq w (rv.getDouble lib)
  | plain .dateTime w => w.toNat == rv.getUInt lib
  | string s | oid s => s == rv.getString lib
  | plain .undef _ | plain .none _ | list _ | dict _ | table .. => v.type == rv.type

/-- `GetCellValue` of a cell inside the table. -/
def cellValue (rows : List (List CellTree)) (row col : ℕ) : DynTree :=
  ((rows.getD row []).getD col (.plain .undef 0)).toTree

mutual

/-- `Operation<OP_EQ>`. -/
def eq : DynTree → DynTree → Bool
  | list l, list r => l.length == r.length && eqItems l r
  | dict l, dict r => l.length == r.length && eqEntries l r
  | table lcolumns lrows, table rcolumns rrows =>
    lrows.length == rrows.length && lcolumns.length == rcolumns.length &&
      (List.range lrows.length).all fun row => (List.range lcolumns.length).all fun col =>
        eqPlain lib (cellValue lrows row col) (cellValue rrows row col)
  | list _, _ | dict _, _ | table .., _ => false
  | v, rv => eqPlain lib v rv

/-- `std::equal` on the items of two lists. -/
def eqItems : List DynTree → List DynTree → Bool
  | [], _ => true
  | _ :: _, [] => false
  | v :: l, rv :: r => eq v rv && eqItems l r

/-- `std::equal` on the entries of two dicts. -/
def eqEntries : List (Bytes × DynTree) → List (Bytes × DynTree) → Bool
  | [], _ => true
  | _ :: _, [] => false
  | (k, v) :: l, rv :: r => (k == rv.1 && eq v rv.2) && eqEntries l r

end

/-- `operator <=`. -/
def le (v rv : DynTree) : Bool := v.lt lib rv || v.eq lib rv

/-- `operator >`. -/
def gt (v rv : DynTree) : Bool := !v.le lib rv

/-- `operator !=`. -/
def ne (v rv : DynTree) : Bool := !v.eq lib rv

/-- `operator >=`. -/
def ge (v rv : DynTree) : Bool := !v.lt lib rv

end DynTree

end Nkit
