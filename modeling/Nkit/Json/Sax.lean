import Nkit.Dynamic.Clone

/-! The callbacks that build a value from the events of the JSON parser (`dynamic_json.cpp`).
`none` is a failed assertion or a pointer that leads nowhere. -/

namespace Nkit
open OrderedMap

/-- A JSON value, with numbers as they are written and strings without their escapes. -/
inductive Json where
  | null
  | bool (b : Bool)
  | number (str : Bytes)
  | string (str : Bytes)
  | array (items : List Json)
  | object (members : List (Bytes × Json))
deriving Repr

inductive JsonEvent where
  | null
  | boolean (v : Bool)
  | number (str : Bytes)
  | string (str : Bytes)
  | startMap
  | mapKey (str : Bytes)
  | endMap
  | startArray
  | endArray
deriving DecidableEq, Repr

namespace Json

def isContainer : Json → Bool
  | array _ | object _ => true
  | _ => false

mutual

def events : Json → List JsonEvent
  | null => [.null]
  | bool b => [.boolean b]
  | number str => [.number str]
  | string str => [.string str]
  | array items => .startArray :: itemEvents items ++ [.endArray]
  | object members => .startMap :: memberEvents members ++ [.endMap]

def itemEvents : List Json → List JsonEvent
  | [] => []
  | v :: items => events v ++ itemEvents items

def memberEvents : List (Bytes × Json) → List JsonEvent
  | [] => []
  | (k, v) :: members => .mapKey k :: events v ++ memberEvents members

end

end Json

/-- `strtod`, with whether it sets `errno` to `ERANGE`. -/
abbrev Strtod := Bytes → BitVec 64 × Bool

def numericBufferSize : ℕ := 1024

/-- `ParseNumber`; the flag is `errno == ERANGE`, which nothing resets.  The constructor of
`Dynamic` from a `uint64_t` makes an `INTEGER`, as that from an `int64_t` does. -/
def parseNumber (strtod : Strtod) (str : Bytes) (erange : Bool) : Option (Dyn × Bool) :=
  if numericBufferSize ≤ str.length then none
  else
    let buffer := Tools.cStr str
    let negative := str.head? == some 45
    let boundery := if negative then stringCast (-minInt64) else stringCast maxInt64
    let digits := if negative then buffer.tail else buffer
    let digitsCount := if negative then str.length - 1 else str.length
    let double : Dyn × Bool := (.plain .float (strtod buffer).1, erange || (strtod buffer).2)
    if buffer.contains 46 || (stringCast maxUInt64).length < digitsCount then some double
    else if digitsCount < boundery.length ||
        (digitsCount == boundery.length && digits ≤ boundery) then
      let (value, range) := strtoll buffer
      some (.plain .integer (BitVec.ofInt 64 value), erange || range)
    else
      let (value, range, rest) := strtoull buffer
      if erange || range || !rest.isEmpty then
        some (.plain .float (strtod buffer).1, erange || range || (strtod buffer).2)
      else some (.plain .integer (BitVec.ofNat 64 value), false)

inductive ContainerType where
  | undefined | map | array
deriving DecidableEq, Repr

/-- A `Dynamic *`: to the variable of the caller, to the last element of a vector, which is good
until the vector grows, or to an entry of a map. -/
inductive Pointer where
  | root
  | last (a pos : ℕ)
  | entry (a : ℕ) (key : Bytes)
deriving DecidableEq, Repr

structure DynamicConstructor where
  root : Dyn
  m : Store
  erange : Bool
  currentContainer : Option Pointer
  currentValue : Option Pointer
  containerType : ContainerType
  stack : List Pointer

namespace DynamicConstructor

def create (m : Store) (erange : Bool) : DynamicConstructor :=
  ⟨.undef, m, erange, some .root, none, .undefined, []⟩

def deref (p : Pointer) (s : DynamicConstructor) : Option Dyn :=
  match p with
  | .root => some s.root
  | .last a pos =>
    match s.m.objs a with
    | some (.vector items) => if items.length = pos + 1 then items[pos]? else none
    | _ => none
  | .entry a key => s.m.lookup a key

/-- `*p = v`. -/
def assign (p : Pointer) (v : Dyn) (s : DynamicConstructor) : Option DynamicConstructor := do
  let old ← s.deref p
  let v := if old.isNone then old else v
  match p with
  | .root => some { s with root := v }
  | .last a pos =>
    match s.m.objs a with
    | some (.vector items) => some { s with m := s.m.put a (.vector (items.set pos v)) }
    | _ => none
  | .entry a key =>
    match s.m.objs a with
    | some (.map entries) =>
      some { s with m := s.m.put a (.map (update bytesLt key .undef (fun _ => v) entries)) }
    | _ => none

/-- `p->PushBack(v)`. -/
def pushBack (p : Pointer) (v : Dyn) (s : DynamicConstructor) : Option DynamicConstructor := do
  let d ← s.deref p
  some { s with m := s.m.pushBack d v }

/-- `&p->back()`. -/
def back (p : Pointer) (s : DynamicConstructor) : Option Pointer := do
  let d ← s.deref p
  match d, s.m.get d with
  | .shared a, some (.vector items) =>
    if items.isEmpty then none else some (.last a (items.length - 1))
  | _, _ => none

/-- The callbacks for values without parts; `make` creates the value. -/
def onScalar (make : DynamicConstructor → Option (Dyn × DynamicConstructor))
    (s : DynamicConstructor) :
    Option (Bool × DynamicConstructor) :=
  match s.containerType with
  | .map => do
    let (v, s) ← make s
    let p ← s.currentValue
    let s ← s.assign p v
    some (true, s)
  | .array => do
    let (v, s) ← make s
    let p ← s.currentContainer
    let s ← s.pushBack p v
    some (true, s)
  | .undefined => some (false, s)

def onNull : DynamicConstructor → Option (Bool × DynamicConstructor) :=
  onScalar fun s => some (.undef, s)

def onBoolean (v : Bool) : DynamicConstructor → Option (Bool × DynamicConstructor) :=
  onScalar fun s => some (.plain .bool (if v then 1 else 0), s)

def onNumber (strtod : Strtod) (str : Bytes) : DynamicConstructor →
    Option (Bool × DynamicConstructor) :=
  onScalar fun s => do
    let (v, erange) ← parseNumber strtod str s.erange
    some (v, { s with erange })

def onString (str : Bytes) : DynamicConstructor → Option (Bool × DynamicConstructor) :=
  onScalar fun s =>
    let (v, m) := s.m.alloc (.string str)
    some (v, { s with m })

/-- A new container goes where the next value goes, with a pointer to it there. -/
def putContainer (v : Dyn) (s : DynamicConstructor) : Option (Pointer × DynamicConstructor) :=
  match s.containerType with
  | .map => do
    let p ← s.currentValue
    let s ← s.assign p v
    some (p, s)
  | .array => do
    let p ← s.currentContainer
    let s ← s.pushBack p v
    let p ← s.back p
    some (p, s)
  | .undefined => do
    let p ← s.currentContainer
    let s ← s.assign p v
    some (p, s)

def onStart (empty : StoreObject) (type : ContainerType) (s : DynamicConstructor) :
    Option (Bool × DynamicConstructor) := do
  let (v, m) := s.m.alloc empty
  let (p, s) ← putContainer v { s with m }
  some (true, { s with currentContainer := some p, containerType := type, stack := p :: s.stack })

def onStartMap : DynamicConstructor → Option (Bool × DynamicConstructor) := onStart (.map []) .map

def onStartArray : DynamicConstructor → Option (Bool × DynamicConstructor) :=
  onStart (.vector []) .array

def onMapKey (str : Bytes) (s : DynamicConstructor) : Option (Bool × DynamicConstructor) := do
  let p ← s.currentContainer
  let d ← s.deref p
  match d, s.m.get d with
  | .shared a, some (.map entries) =>
    some (true, { s with
      m := s.m.put a (.map (update bytesLt str .undef id entries)),
      currentValue := some (.entry a str) })
  | _, _ => none

/-- `OnEndMap` and `OnEndArray`, which have the same body. -/
def onEnd (s : DynamicConstructor) : Option (Bool × DynamicConstructor) :=
  match s.stack with
  | [] => none
  | [_] => some (true, { s with currentContainer := none, stack := [] })
  | _ :: p :: stack => do
    let d ← s.deref p
    let type := if (s.m.dictAddr d).isSome then ContainerType.map else .array
    some (true, { s with currentContainer := some p, containerType := type, stack := p :: stack })

def onEvent (strtod : Strtod) (s : DynamicConstructor) : JsonEvent →
    Option (Bool × DynamicConstructor)
  | .null => s.onNull
  | .boolean v => s.onBoolean v
  | .number str => s.onNumber strtod str
  | .string str => s.onString str
  | .startMap => s.onStartMap
  | .mapKey str => s.onMapKey str
  | .endMap | .endArray => s.onEnd
  | .startArray => s.onStartArray

def feed (strtod : Strtod) : List JsonEvent → DynamicConstructor →
    Option (Bool × DynamicConstructor)
  | [], s => some (true, s)
  | e :: events, s => do
    let (ok, s) ← s.onEvent strtod e
    if ok then feed strtod events s else some (false, s)

end DynamicConstructor

structure Yajl where
  parse : Bytes → List JsonEvent × Bool
  /-- `yajl_get_error`. -/
  getError : Bytes → Bytes

/-- `DynamicFromJson`: the value and, if there is one, the error. -/
def dynamicFromJson (yajl : Yajl) (strtod : Strtod) (json : Bytes) (m : Store) (erange : Bool) :
    Option (Dyn × Option Bytes × Store) := do
  let (events, accepted) := yajl.parse json
  let (ok, s) ← (DynamicConstructor.create m erange).feed strtod events
  if ok && accepted then some (s.root, none, s.m) else some (.undef, some (yajl.getError json), s.m)

def Dyn.tree : Dyn → DynTree
  | plain type data => .plain type data
  | shared _ => .undef

mutual

/-- What a value stands for.  Numbers are read from left to right, since `errno` is kept. -/
def Json.read (strtod : Strtod) : Json → Bool → Option (DynTree × Bool)
  | .null, erange => some (.undef, erange)
  | .bool b, erange => some (.plain .bool (if b then 1 else 0), erange)
  | .number str, erange => (parseNumber strtod str erange).map fun (v, erange) => (v.tree, erange)
  | .string str, erange => some (.string str, erange)
  | .array items, erange =>
    (readItems strtod items erange).map fun (ts, erange) => (.list ts, erange)
  | .object members, erange =>
    (readMembers strtod members erange []).map fun (ts, erange) => (.dict ts, erange)

def readItems (strtod : Strtod) : List Json → Bool → Option (List DynTree × Bool)
  | [], erange => some ([], erange)
  | v :: items, erange => do
    let (t, erange) ← v.read strtod erange
    let (ts, erange) ← readItems strtod items erange
    some (t :: ts, erange)

def readMembers (strtod : Strtod) : List (Bytes × Json) → Bool → List (Bytes × DynTree) →
    Option (List (Bytes × DynTree) × Bool)
  | [], erange, entries => some (entries, erange)
  | (k, v) :: members, erange, entries => do
    let (t, erange) ← v.read strtod erange
    readMembers strtod members erange (update bytesLt k .undef (fun _ => t) entries)

end

end Nkit
