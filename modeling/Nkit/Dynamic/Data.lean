import Nkit.Tools
import Mathlib.Logic.Function.Basic

/-! The tagged values of the library and their payloads (`nkit/dynamic.h`).  A payload is a
machine word or a pointer; a string pointer is kept with the identity of the object and
the characters it holds. -/

namespace Nkit

inductive DynamicType where
  | undef | integer | unsignedInteger | float | bool | dateTime | none
  | string | list | dict | mongodbOid | table
deriving DecidableEq, Repr

def DynamicType.code : DynamicType → ℕ
  | .undef => 0 | .integer => 1 | .unsignedInteger => 2 | .float => 3 | .bool => 4
  | .dateTime => 5 | .none => 6 | .string => 7 | .list => 8 | .dict => 9 | .mongodbOid => 10
  | .table => 11

def isRefCounted (type : DynamicType) : Bool := DynamicType.none.code < type.code

structure SharedString where
  addr : ℕ
  value : Bytes
deriving DecidableEq, Repr

/-- The union `Data`: the word read as `i64_`, `ui64_` or `f_`, a string pointer, or a
pointer to one of the other shared objects. -/
inductive Data where
  | word (w : BitVec 64)
  | str (s : SharedString)
  | obj (addr : ℕ)
deriving DecidableEq, Repr

namespace Data

def i64 : Data → ℤ
  | word w => w.toInt
  | _ => 0

def ui64 : Data → ℕ
  | word w => w.toNat
  | _ => 0

def bits : Data → BitVec 64
  | word w => w
  | _ => 0

/-- `f_`: the word as an IEEE double. -/
def f (d : Data) : Float := Float.ofBits (UInt64.ofBitVec d.bits)

def ofFloat (x : Float) : Data := word x.toBits.toBitVec

/-- `shared_string_->GetRef()`. -/
def text : Data → Bytes
  | str s => s.value
  | _ => []

def strAddr : Data → Option ℕ
  | str s => some s.addr
  | _ => none

end Data

structure Dynamic where
  type : DynamicType
  data : Data
deriving DecidableEq, Repr

/-- `D_NONE`. -/
def Dynamic.none : Dynamic := ⟨.none, .word 0⟩

/-- Reference counts by identity, and the next identity to hand out.  Identities are never
used twice; count `0` means freed or never allocated. -/
structure StringHeap where
  next : ℕ
  refs : ℕ → ℕ

namespace StringHeap

def incRef (h : StringHeap) (addr : ℕ) : StringHeap :=
  { h with refs := Function.update h.refs addr (h.refs addr + 1) }

def decRef (h : StringHeap) (addr : ℕ) : StringHeap :=
  { h with refs := Function.update h.refs addr (h.refs addr - 1) }

/-- `new SharedString`: a fresh object with count one. -/
def alloc (h : StringHeap) (value : Bytes) : SharedString × StringHeap :=
  (⟨h.next, value⟩, { next := h.next + 1, refs := Function.update h.refs h.next 1 })

/-- `OP_INC_REF_DATA` of a reference-counted table cell. -/
def incRefData (h : StringHeap) : Data → StringHeap
  | .str s => h.incRef s.addr
  | _ => h

/-- `OP_DEC_REF_DATA` of a reference-counted table cell. -/
def decRefData (h : StringHeap) : Data → StringHeap
  | .str s => h.decRef s.addr
  | _ => h

end StringHeap

/-- The types `types_map_` lets a table column have. -/
inductive ColumnType where
  | string | unsignedInteger | integer | float | bool | dateTime
deriving DecidableEq, Repr

@[coe] def ColumnType.toDynamic : ColumnType → DynamicType
  | .string => .string | .unsignedInteger => .unsignedInteger | .integer => .integer
  | .float => .float | .bool => .bool | .dateTime => .dateTime

instance : Coe ColumnType DynamicType := ⟨ColumnType.toDynamic⟩

/-- `types_map_`, in the order it is searched. -/
def typesMap : List (Bytes × ColumnType) :=
  [(ascii "STRING", .string), (ascii "UNSIGNED_INTEGER", .unsignedInteger),
    (ascii "INTEGER", .integer), (ascii "FLOAT", .float), (ascii "BOOL", .bool),
    (ascii "DATE_TIME", .dateTime)]

/-- `none` is the result `DYNAMIC_TYPES_COUNT`. -/
def stringToDynamicType (s : Bytes) : Option ColumnType :=
  (typesMap.find? fun item => Tools.strCaseEq item.1 s).map Prod.snd

def dynamicTypeToString (type : ColumnType) : Bytes :=
  ((typesMap.find? fun item => item.2 == type).map Prod.fst).getD []

/-- `types_affinity_`: what a key of a grouped table is compared as. -/
def getDynamicTypeAffinity : ColumnType → ColumnType
  | .string => .string | .unsignedInteger => .unsignedInteger | .dateTime => .unsignedInteger
  | .bool => .unsignedInteger | .integer => .integer | .float => .float

/-- `Dynamic::GetDefault` for a column type; `now` is the local time read from the clock.
`UNSIGNED_INTEGER` has no case of its own and gets the zero word of an undefined value. -/
def Dynamic.getDefault (type : ColumnType) (now : BitVec 64) (h : StringHeap) :
    Dynamic × StringHeap :=
  match type with
  | .integer => (⟨.integer, .word 0⟩, h)
  | .float => (⟨.float, .word 0⟩, h)
  | .bool => (⟨.bool, .word 0⟩, h)
  | .dateTime => (⟨.dateTime, .word now⟩, h)
  | .string => let (s, h) := h.alloc []; (⟨.string, .str s⟩, h)
  | .unsignedInteger => (⟨.undef, .word 0⟩, h)

/-- `SharedTable::GetDefault`: the cell takes its own reference before the temporary value
drops the one it was created with. -/
def getDefault (type : ColumnType) (now : BitVec 64) (h : StringHeap) : Data × StringHeap :=
  let (d, h) := Dynamic.getDefault type now h
  if isRefCounted type then (d.data, (h.incRefData d.data).decRefData d.data) else (d.data, h)

/-- The union `KeyItem` has the word and string members of `Data`. -/
abbrev KeyItem := Data

/-- `make_key_item`; `none` is the branch that aborts the process. -/
def makeKeyItem (data : Data) : DynamicType → Option KeyItem
  | .integer | .bool | .dateTime | .unsignedInteger | .string | .float => some data
  | _ => none

@[simp] theorem makeKeyItem_column (data : Data) (type : ColumnType) :
    makeKeyItem data type = some data := by
  cases type <;> rfl

@[simp] theorem isRefCounted_column (type : ColumnType) :
    isRefCounted type = true ↔ type = .string := by
  cases type <;> decide

end Nkit
