import Nkit.Dynamic.Numbers
import Nkit.Dynamic.Update

/-! Paths into values (`dynamic_path.h`, `dynamic_path.cpp`).  A pointer to the text is what is
left of it; the variables behind the pointers of a path are numbered. -/

namespace Nkit

inductive PathItem where
  | undef
  | index (i : ℕ)
  | key (k : Bytes)
  | indexPtr (p : ℕ)
  | keyPtr (p : ℕ)
deriving DecidableEq, Repr

structure Variables where
  keys : ℕ → Bytes
  indices : ℕ → ℕ

/-- `Dynamic::Get` with a key. -/
def Store.getKey (m : Store) (key : Bytes) (d : Dyn) : Option Dyn :=
  match d with
  | .shared a => m.lookup a key
  | .plain .. => none

/-- `Dynamic::GetByIndex`. -/
def Store.getByIndex (m : Store) (pos : ℕ) (d : Dyn) : Option Dyn :=
  match m.get d with
  | some (.vector items) => items[pos]?
  | _ => none

namespace PathItem

def kind : PathItem → ℕ
  | undef => 0 | index _ => 1 | key _ => 2 | indexPtr _ => 3 | keyPtr _ => 4

def isIndex : PathItem → Bool
  | index _ | indexPtr _ => true
  | _ => false

def isKey : PathItem → Bool
  | key _ | keyPtr _ => true
  | _ => false

/-- What the item leads to; `none` is a null pointer. -/
def get (vars : Variables) (m : Store) (item : PathItem) (root : Dyn) : Option Dyn :=
  match item with
  | key k => m.getKey k root
  | keyPtr p => m.getKey (vars.keys p) root
  | index i => m.getByIndex i root
  | indexPtr p => m.getByIndex (vars.indices p) root
  | undef => none

def print (vars : Variables) : PathItem → Bytes
  | key k => k
  | keyPtr p => 38 :: vars.keys p
  | index i => 91 :: stringCast i ++ [93]
  | indexPtr p => [91, 38] ++ stringCast (vars.indices p) ++ [93]
  | undef => ascii "undefined"

/-- `operator <`. -/
def lt (x y : PathItem) : Bool := x.kind < y.kind

/-- `operator ==`. -/
def eq (x y : PathItem) : Bool := x.kind == y.kind

end PathItem

inductive PathState where
  | dot | dotAfterBracketClose | bracketOpen | bracketClose | param
deriving DecidableEq, Repr

/-- The variables of `MakePath`: the state, the text from `c` on, the items so far and the
arguments from `param` on. -/
structure Parsing where
  state : PathState
  rest : Bytes
  pathItems : List PathItem
  params : List PathItem
deriving DecidableEq, Repr

structure PathFailure where
  error : Bytes
  pathItems : List PathItem
deriving DecidableEq, Repr

section
variable (delimiter : UInt8) (path : Bytes)

/-- What `strchr` finds in `key_chars_`, the terminating NUL included. -/
def isKeyChar (c : UInt8) : Bool := c == 91 || c == 93 || c == delimiter || c == 0

def fetchName (s : Bytes) : Option (Bytes × Bytes) :=
  if s.head?.all (· == 93) then none
  else
    let name := s.takeWhile fun c => !isKeyChar delimiter c
    if name = [] then none else some (name, s.drop name.length)

def updateState (s : Parsing) : Option Parsing :=
  match s.rest with
  | [] => none
  | c :: rest =>
    if c = delimiter then
      some { s with rest, state := if s.state = .bracketClose then .dotAfterBracketClose else .dot }
    else if c = 91 then
      if s.state = .dotAfterBracketClose then none else some { s with rest, state := .bracketOpen }
    else if c = 93 then
      if s.state ≠ .bracketOpen ∧ s.state ≠ .param then none
        else some { s with rest, state := .bracketClose }
    else if c = 37 then some { s with rest, state := .param }
    else none

def invalidPath (s : Parsing) : PathFailure :=
  ⟨ascii "Invalid path '" ++ path ++ ascii "' at " ++
    stringCast (path.length - s.rest.length + 1 : ℕ), s.pathItems⟩

def addPathItem (fits : PathItem → Bool) (s : Parsing) : Except PathFailure Parsing :=
  match s.params with
  | [] => .error ⟨ascii "Not enough arguments for path '" ++ path ++ ascii "'", s.pathItems⟩
  | a :: params =>
    if !fits a then .error ⟨ascii "Wrong argument type for path '" ++ path ++ ascii "'",
      s.pathItems⟩
    else .ok { s with pathItems := s.pathItems ++ [a], params }

/-- `index * 10 + digit` on a `size_t`. -/
def fetchIndex (digits : Bytes) : ℕ :=
  digits.foldl (fun index c => (index * 10 + (c.toNat - 48)) % 2 ^ 64) 0

def parseStep (s : Parsing) : Except PathFailure Parsing :=
  match s.state with
  | .dotAfterBracketClose =>
    match updateState delimiter s with
    | none => .error (invalidPath path s)
    | some s => if s.state = .param then addPathItem path PathItem.isKey s else .ok s
  | .dot =>
    match updateState delimiter s with
    | none =>
      match fetchName delimiter s.rest with
      | none => .error (invalidPath path s)
      | some (name, rest) =>
        let s := { s with rest, pathItems := s.pathItems ++ [.key name] }
        if rest = [] then .ok s
        else
          match updateState delimiter s with
          | none => .error (invalidPath path s)
          | some s => .ok s
    | some s =>
      if s.state ≠ .param then .error (invalidPath path s) else addPathItem path PathItem.isKey s
  | .bracketOpen =>
    match updateState delimiter s with
    | none =>
      let digits := s.rest.takeWhile isDigit
      let s := { s with rest := s.rest.drop digits.length }
      if s.rest.head? ≠ some 93 then .error (invalidPath path s)
      else
        let s := { s with pathItems := s.pathItems ++ [.index (fetchIndex digits)] }
        match updateState delimiter s with
        | none => .error (invalidPath path s)
        | some s => .ok s
    | some s =>
      if s.state ≠ .param then .error (invalidPath path s) else addPathItem path PathItem.isIndex s
  | .bracketClose | .param =>
    match updateState delimiter s with
    | none => .error (invalidPath path s)
    | some s => .ok s

def parseLoop : ℕ → Parsing → Except PathFailure Parsing
  | 0, s => .ok s
  | fuel + 1, s => if s.rest = [] then .ok s else parseStep delimiter path s >>= parseLoop fuel

/-- `MakePath`, with the test that stands after the loop. -/
def makePath (params : List PathItem) : Except PathFailure (List PathItem) :=
  match path with
  | [] => .ok []
  | c :: rest =>
    let s : Parsing := if c = delimiter then ⟨.dot, rest, [], params⟩
      else if c = 91 then ⟨.bracketOpen, rest, [], params⟩ else ⟨.dot, c :: rest, [], params⟩
    if s.rest = [] then .error (invalidPath path { s with rest := path })
    else do
      let s ← parseLoop delimiter path path.length s
      if s.rest ≠ [] ∧ (s.state = .bracketOpen ∨ s.state = .dot) then .error (invalidPath path s)
        else .ok s.pathItems

/-- `Set`: arguments that were not given are left out. -/
def setPath (args : List PathItem) : Except PathFailure (List PathItem) :=
  if path = [delimiter] then .ok [] else makePath delimiter path (args.filter (· ≠ .undef))

end

structure DynamicPath where
  delimiter : UInt8
  pathItems : List PathItem
  error : Bytes
deriving DecidableEq, Repr

namespace DynamicPath

def create (delimiter : UInt8) (path : Bytes) (args : List PathItem) : DynamicPath :=
  match setPath delimiter path args with
  | .ok pathItems => ⟨delimiter, pathItems, []⟩
  | .error failure => ⟨delimiter, failure.pathItems, failure.error⟩

def ok (p : DynamicPath) : Bool := p.error.isEmpty

/-- The loop of `Get`, which leaves at the first null pointer. -/
def get (vars : Variables) (m : Store) (p : DynamicPath) (root : Dyn) : Option Dyn :=
  p.pathItems.foldlM (fun current item => item.get vars m current) root

def print (vars : Variables) (p : DynamicPath) : Bytes :=
  (if p.pathItems.head?.any PathItem.isIndex then [p.delimiter] else []) ++
    p.pathItems.flatMap fun item => (if item.isIndex then [] else [p.delimiter]) ++ item.print vars

/-- `std::equal` over two lists of one length. -/
def equal (f : PathItem → PathItem → Bool) (xs ys : List PathItem) : Bool :=
  (xs.zip ys).all fun xy => f xy.1 xy.2

/-- `operator <`. -/
def lt (p right : DynamicPath) : Bool :=
  if p.pathItems.length < right.pathItems.length then true
  else if right.pathItems.length < p.pathItems.length then false
  else equal PathItem.lt p.pathItems right.pathItems

/-- `operator ==`. -/
def eq (p right : DynamicPath) : Bool :=
  if p.pathItems.length ≠ right.pathItems.length then false
    else equal PathItem.eq p.pathItems right.pathItems

end DynamicPath

end Nkit
