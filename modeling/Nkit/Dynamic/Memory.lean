import Nkit.Tools
import Nkit.Base.RefGraph

/-! Handles into a heap of reference-counted strings, vectors and maps, and the assignment
between two of them (`Dynamic::operator =`).  `none` is an access to a freed location or a failed
assertion on a count. -/

namespace Nkit
open RefGraph

inductive PlainType where
  | undef | integer | unsignedInteger | float | bool | dateTime | none
deriving DecidableEq, Repr

/-- A `Dynamic`: a value of its own, or a pointer to a shared object, whose kind is its type. -/
inductive Dyn where
  | plain (type : PlainType) (data : BitVec 64)
  | shared (addr : ℕ)
deriving DecidableEq, Repr

namespace Dyn

/-- What `Reset()` leaves behind. -/
def undef : Dyn := plain .undef 0

def isRefCounted : Dyn → Bool
  | plain .. => false
  | shared _ => true

def isNone : Dyn → Bool
  | plain .none _ => true
  | _ => false

def targets : Dyn → List ℕ
  | plain .. => []
  | shared a => [a]

end Dyn

inductive SharedObject where
  | string (value : Bytes)
  | vector (items : List Dyn)
  | map (entries : List (Bytes × Dyn))
deriving DecidableEq, Repr

namespace SharedObject

def handles : SharedObject → List Dyn
  | string _ => []
  | vector items => items
  | map entries => entries.map Prod.snd

def setHandle (i : ℕ) (d : Dyn) : SharedObject → SharedObject
  | string value => string value
  | vector items => vector (items.set i d)
  | map entries => map (entries.modify i fun e => (e.1, d))

def refs (o : SharedObject) : List ℕ := o.handles.flatMap Dyn.targets

end SharedObject

/-- Where a `Dynamic` lives: in a variable, or in a container as its `i`-th element. -/
inductive Place where
  | var (i : ℕ)
  | elem (container i : ℕ)
deriving DecidableEq, Repr

/-- Objects have addresses below `next`. -/
structure Memory where
  locals : List Dyn
  next : ℕ
  heap : Heap ℕ SharedObject

namespace Memory

def load (x : Place) (m : Memory) : Option Dyn :=
  match x with
  | .var i => m.locals[i]?
  | .elem a i => (m.heap a).bind fun c => c.body.handles[i]?

def put (x : Place) (d : Dyn) (m : Memory) : Memory :=
  match x with
  | .var i => { m with locals := m.locals.set i d }
  | .elem a i => { m with heap := setBody a (SharedObject.setHandle i d) m.heap }

def store (x : Place) (d : Dyn) (m : Memory) : Option Memory := (m.load x).map fun _ => m.put x d

/-- `OP_INC_REF_DATA`, for the types that are reference-counted. -/
def incRef (d : Dyn) (m : Memory) : Option Memory :=
  match d with
  | .plain .. => some m
  | .shared a => (m.heap a).map fun c =>
    { m with heap := Function.update m.heap a (some { c with count := c.count + 1 }) }

def decRef (d : Dyn) (m : Memory) : Option Memory :=
  match d with
  | .plain .. => some m
  | .shared a =>
    (release SharedObject.refs (size SharedObject.refs (Finset.range m.next) m.heap [a]) [a]
      m.heap).map
      fun heap => { m with heap }

/-- `OP_DEC_REF_DYNAMIC`: the handle is reset when its object was deleted. -/
def decRefDynamic (x : Place) (m : Memory) : Option Memory := do
  let d ← m.load x
  let m ← m.decRef d
  if d.targets.any fun a => (m.heap a).isNone then m.store x .undef else some m

/-- `Dynamic::operator =`. -/
def assign (x y : Place) (m : Memory) : Option Memory :=
  if x = y then some m
  else do
    let self ← m.load x
    if self.isRefCounted then
      let saved ← m.load y
      let m ← m.incRef saved
      let m ← m.decRefDynamic x
      -- `Reset(from)` reads the right-hand side once more, not the saved copy
      let source ← m.load y
      let m ← m.store x source
      let m ← m.incRef source
      m.decRef saved
    else
      let m ← if self.isNone then some m else do
        let source ← m.load y
        m.store x source
      let self ← m.load x
      m.incRef self

end Memory

end Nkit
