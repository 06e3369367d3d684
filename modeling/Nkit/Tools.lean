import Mathlib.Algebra.Group.Nat.Defs
import Mathlib.Data.List.DropRight
import Mathlib.Tactic.Common

/-! Byte strings and the text tools over them (`tools.cpp`).  Positions are `size_t`, so
the lengths handed to `substr` are differences modulo `2 ^ 64`. -/

namespace Nkit

abbrev Bytes := List UInt8

def ascii (s : String) : Bytes := s.toList.map fun c => UInt8.ofNat c.toNat

theorem ascii_ne_nil {s : String} (h : s ≠ "") : ascii s ≠ [] := by
  rw [ascii, Ne, List.map_eq_nil_iff]
  exact fun hnil => h (String.toList_eq_nil_iff.mp hnil)

namespace Tools

/-- `size_t(-1)`. -/
def npos : ℕ := 2 ^ 64 - 1

/-- The characters `c_str()` shows to a C function: those before the first NUL. -/
def cStr (s : Bytes) : Bytes := s.takeWhile (· ≠ 0)

def whiteSpaces : Bytes := ascii " \n\t\r"

/-- `strchr` finds the terminating NUL too, so NUL counts as white space. -/
def isWhiteSpace (whiteSpaces : Bytes) (ch : UInt8) : Bool :=
  ch == 0 || (cStr whiteSpaces).contains ch

/-- Character at `pos` of `c_str()`; the terminator stands at position `size()`. -/
def charAt (src : Bytes) (pos : ℕ) : UInt8 := src.getD pos 0

def substr (src : Bytes) (pos n : ℕ) : Bytes := (src.drop pos).take n

/-- `last - first + 1` in `size_t`. -/
def spanLength (first last : ℕ) : ℕ := (last + 2 ^ 64 - first + 1) % 2 ^ 64

/-- `std::string::find` from position `from` on. -/
def find (src pattern : Bytes) (start : ℕ) : Option ℕ :=
  (List.range (src.length + 1)).find? fun i => start ≤ i && pattern.isPrefixOf (src.drop i)

def skipSpaceForwardLoop (src : Bytes) (size : ℕ) (whiteSpaces : Bytes) : ℕ → ℕ → ℕ
  | 0, pos => pos
  | fuel + 1, pos =>
    if pos < size && isWhiteSpace whiteSpaces (charAt src pos) then
      skipSpaceForwardLoop src size whiteSpaces fuel (pos + 1)
    else pos

def skipSpaceForward (src : Bytes) (pos size : ℕ) (whiteSpaces : Bytes) : ℕ :=
  skipSpaceForwardLoop src size whiteSpaces (size - pos) pos

def skipSpaceBackward (src whiteSpaces : Bytes) : ℕ → ℕ
  | 0 => 0
  | pos + 1 =>
    if isWhiteSpace whiteSpaces (charAt src (pos + 1)) then skipSpaceBackward src whiteSpaces pos
    else pos + 1

/-- Position of the last non-white character before the delimiter at `pos`. -/
def fieldEnd (src whiteSpaces : Bytes) (pos : ℕ) : ℕ :=
  if 0 < pos then skipSpaceBackward src whiteSpaces (pos - 1) else npos

def simpleSplitLoop (src delimeter whiteSpaces : Bytes) : ℕ → ℕ → List Bytes
  | 0, _ => []
  | fuel + 1, firstPos =>
    match find src delimeter firstPos with
    | none => [substr src firstPos (src.length - firstPos)]
    | some pos =>
      substr src firstPos (spanLength firstPos (fieldEnd src whiteSpaces pos)) ::
        simpleSplitLoop src delimeter whiteSpaces fuel
          (skipSpaceForward src (pos + delimeter.length) src.length whiteSpaces)

/-- `simple_split` into a vector.  Every round of the loop passes a delimiter, so it makes
at most `size() + 1` rounds for a delimiter that is not empty. -/
def simpleSplit (src delimeter whiteSpaces : Bytes) : List Bytes :=
  if src.length = 0 then []
  else
    let firstPos := skipSpaceForward src 0 src.length whiteSpaces
    if src.length ≤ firstPos then []
    else simpleSplitLoop src delimeter whiteSpaces (src.length + 1) firstPos

/-- `simple_split` into a key and a value, with its result. -/
def simpleSplitPair (src delimeter whiteSpaces : Bytes) :
    Bool × Bytes × Bytes :=
  if src.length = 0 then (false, [], [])
  else
    let firstPos := skipSpaceForward src 0 src.length whiteSpaces
    if src.length ≤ firstPos then (false, [], [])
    else
      match find src delimeter firstPos with
      | none =>
        let lastPos := skipSpaceBackward src whiteSpaces (src.length - 1)
        (false, substr src firstPos (spanLength firstPos lastPos), [])
      | some pos =>
        let key := substr src firstPos (spanLength firstPos (fieldEnd src whiteSpaces pos))
        let valuePos := skipSpaceForward src (pos + delimeter.length) src.length whiteSpaces
        -- the right end of the value is computed by the source and then not used
        let value := if valuePos < src.length then
          substr src valuePos (src.length - valuePos + 1) else []
        (true, key, value)

def findLastNonspace (src whiteSpaces : Bytes) : ℕ → Option ℕ
  | 0 => if isWhiteSpace whiteSpaces (charAt src 0) then none else some 0
  | pos + 1 =>
    if isWhiteSpace whiteSpaces (charAt src (pos + 1)) then findLastNonspace src whiteSpaces pos
    else some (pos + 1)

/-- The in-place `trim`.  `find_first_nonspace` fails exactly when it runs to the end. -/
def trim (str whiteSpaces : Bytes) : Bytes :=
  let firstPos := skipSpaceForward str 0 str.length whiteSpaces
  if str.length ≤ firstPos then []
  else
    match findLastNonspace str whiteSpaces (str.length - 1) with
    | none => str.drop firstPos
    | some lastPos => (str.take (lastPos + 1)).drop firstPos

def toLower (ch : UInt8) : UInt8 := if 65 ≤ ch && ch ≤ 90 then ch + 32 else ch

/-- `strcasecmp(a, b) == 0` in the C locale. -/
def strCaseEq (a b : Bytes) : Bool := (cStr a).map toLower == (cStr b).map toLower

/-- `bool_cast`. -/
def boolCast (str : Bytes) : Bool :=
  let firstPos := skipSpaceForward str 0 str.length whiteSpaces
  if str.length ≤ firstPos then false
  else
    let first := cStr (str.drop firstPos)
    match charAt str firstPos with
    | 116 => first == ascii "true"
    | 84 => first == ascii "True" || first == ascii "TRUE"
    | 121 => first == ascii "yes"
    | 89 => first == ascii "Yes" || first == ascii "YES"
    | ch => 48 < ch && ch ≤ 57

end Tools
end Nkit
