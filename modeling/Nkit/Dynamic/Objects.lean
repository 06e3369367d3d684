import Nkit.Tools
import Nkit.Base.OrderedMap
import Mathlib.Data.List.Lex
import Mathlib.Order.Defs.LinearOrder

/-! Shared strings, lists and dicts, and the handles to them.  Objects are changed in place,
so two handles to one object see each other's changes.  Counts are left out: nothing here
reads an object after its last handle is gone. -/

namespace Nkit
open OrderedMap

/-- `none` is a value without an object, such as a default-constructed `Dynamic`. -/
abbrev Handle := Option ℕ

inductive Obj where
  | str (value : Bytes)
  | list (items : List Handle)
  | dict (map : List (Bytes × Handle))
deriving DecidableEq, Repr

structure Objects where
  next : ℕ
  objs : ℕ → Option Obj

/-- The order of `std::map<std::string, ..>`. -/
def bytesLt (a b : Bytes) : Bool := a < b

theorem bytesLt_strictWeak : StrictWeak bytesLt := strictWeak_lt

theorem equiv_bytesLt {k k' : Bytes} : equiv bytesLt k k' = true ↔ k = k' := equiv_lt_iff

theorem get?_update_bytes {V : Type*} (k k' : Bytes) (d : V) (f : V → V) (m : List (Bytes × V)) :
    get? bytesLt k' (update bytesLt k d f m) = if k = k' then some (f ((get? bytesLt k m).getD d))
      else get? bytesLt k' m := by
  rw [get?_update bytesLt_strictWeak]
  by_cases hk : k = k'
  · rw [if_pos (equiv_bytesLt.mpr hk), if_pos hk]
  · rw [if_neg (fun h => hk (equiv_bytesLt.mp h)), if_neg hk]

theorem get?_cons_bytes {V : Type*} {e : Bytes × V} {m : List (Bytes × V)}
    (hs : Sorted bytesLt (e :: m)) (k : Bytes) :
    get? bytesLt k (e :: m) = if e.1 = k then some e.2 else get? bytesLt k m := by
  obtain ⟨hlt, -⟩ := sorted_cons.mp hs
  rw [get?_cons]
  by_cases hk : e.1 = k
  · rw [if_pos hk, ← hk, bytesLt_strictWeak.irrefl]
    rfl
  · rw [if_neg hk]
    by_cases h1 : bytesLt e.1 k = true
    · rw [if_pos h1]
    · have h2 : bytesLt k e.1 = true := by
        by_contra h2
        exact hk (equiv_bytesLt.mp (by simp [equiv, h1, h2]))
      rw [if_neg h1, if_pos h2]
      exact (get?_eq_none_of_lt bytesLt_strictWeak fun e' he' => bytesLt_strictWeak.trans h2
        (hlt e' he')).symm

namespace Objects

def empty : Objects := ⟨0, fun _ => none⟩

def alloc (o : Obj) (m : Objects) : Handle × Objects :=
  (some m.next, ⟨m.next + 1, Function.update m.objs m.next (some o)⟩)

def put (a : ℕ) (o : Obj) (m : Objects) : Objects := ⟨m.next, Function.update m.objs a (some o)⟩

def get (h : Handle) (m : Objects) : Option Obj := h.bind m.objs

/-- `GetConstString` of a string. -/
def string (h : Handle) (m : Objects) : Option Bytes :=
  match m.get h with
  | some (.str s) => some s
  | _ => none

def editString (f : Bytes → Bytes) (h : Handle) (m : Objects) : Objects :=
  match h, m.get h with
  | some a, some (.str s) => m.put a (.str (f s))
  | _, _ => m

/-- `Dynamic::Clear` of a string. -/
def clear : Handle → Objects → Objects := editString fun _ => []

def append (text : Bytes) : Handle → Objects → Objects := editString (· ++ text)

def trim (whiteSpaces : Bytes) : Handle → Objects → Objects := editString (Tools.trim · whiteSpaces)

def isList (h : Handle) (m : Objects) : Bool :=
  match m.get h with
  | some (.list _) => true
  | _ => false

def isDict (h : Handle) (m : Objects) : Bool :=
  match m.get h with
  | some (.dict _) => true
  | _ => false

def pushBack (item h : Handle) (m : Objects) : Objects :=
  match h, m.get h with
  | some a, some (.list items) => m.put a (.list (items ++ [item]))
  | _, _ => m

/-- `DLIST(item)`: a new list of one item. -/
def dlist (item : Handle) (m : Objects) : Handle × Objects :=
  let (h, m) := m.alloc (.list [])
  (h, m.pushBack item h)

/-- `Get(key, &value)`. -/
def dictGet (key : Bytes) (h : Handle) (m : Objects) : Option Handle :=
  match m.get h with
  | some (.dict map) => get? bytesLt key map
  | _ => none

/-- `dict[key] = value`; without a dict the assignment goes to `D_NONE` and is lost. -/
def dictSet (key : Bytes) (value h : Handle) (m : Objects) : Objects :=
  match h, m.get h with
  | some a, some (.dict map) => m.put a (.dict (update bytesLt key none (fun _ => value) map))
  | _, _ => m

end Objects

end Nkit
