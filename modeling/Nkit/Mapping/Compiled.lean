import Nkit.Mapping.ElementIds

/-! One mapping on its own: compiled over element names instead of ids, with its target items in
the order in which they are hung into the tree, and run on the events of a document. -/

namespace Nkit
namespace Xml2Var

/-- A compiled mapping; `order` has the target items as they were created. -/
structure Compiled where
  group : TargetGroup Bytes
  order : List ℕ

namespace Compiled

def empty : Compiled := ⟨.empty, []⟩

def create (i : ℕ) (item : TargetItem Bytes) (c : Compiled) : Compiled :=
  ⟨c.group.put i item, c.order ++ [i]⟩

def setKey (key : Bytes) (isAttribute : Bool) (i : ℕ) (c : Compiled) : Compiled :=
  { c with group := c.group.setKey key isAttribute i }

def allocate (c : Compiled) : Compiled := { c with group := c.group.allocate.2 }

variable (lib : ScalarLib) (o : StructOptions)

def compileScalar (parent : Option ℕ) (parentPath : Path Bytes) (mapping : Bytes) (c : Compiled) :
    Except ParseFailure (ℕ × Compiled) :=
  match parseScalarTarget lib o mapping with
  | .error e => .error e
  | .ok t =>
    .ok (c.group.count,
      c.allocate.create c.group.count (TargetGroup.item parentPath (.scalar t) parent))

def compileObject (parent : Option ℕ) (parentPath : Path Bytes)
    (loop : ℕ → Compiled → Except ParseFailure (List ℕ × Compiled)) (c : Compiled) :
    Except ParseFailure (ℕ × Compiled) :=
  match loop c.group.count c.allocate with
  | .error e => .error e
  | .ok (targetItems, c') =>
    .ok (c.group.count,
      c'.create c.group.count (TargetGroup.item parentPath (.object targetItems) parent))

mutual

def compileTarget (parent : Option ℕ) (parentPath : Path Bytes) :
    DynTree → Compiled → Except ParseFailure (ℕ × Compiled)
  | .list mapping, c => compileList parent parentPath mapping c
  | .dict mapping, c =>
    compileObject parent parentPath (fun target c => compileEntries target parentPath mapping [] c)
      c
  | .string mapping, c => compileScalar lib o parent parentPath mapping c
  | _, _ => .error (.error childMappingError)

def compileList (parent : Option ℕ) (parentPath : Path Bytes) :
    List DynTree → Compiled → Except ParseFailure (ℕ × Compiled)
  | [pathSpec, sumMapping], c =>
    match parentPath.append star (Path.named (pathSpec.getString lib.toCLib)) with
    | none => .error .assertion
    | some foolPath =>
      match compileTarget (some c.group.count) foolPath sumMapping c.allocate with
      | .error e => .error e
      | .ok (child, c') =>
        .ok (c.group.count,
          c'.create c.group.count (TargetGroup.item foolPath (.list [child]) parent))
  | _, _ => .error (.error listMappingError)

def compileEntries (target : ℕ) (parentPath : Path Bytes) :
    List (Bytes × DynTree) → List ℕ → Compiled → Except ParseFailure (List ℕ × Compiled)
  | [], targetItems, c => .ok (targetItems, c)
  | (spec, mapping) :: rest, targetItems, c =>
    let (_, pathSpec, key) := Tools.simpleSplitPair spec (ascii "->") Tools.whiteSpaces
    let path := Path.named pathSpec
    match entryKey path.lastElementName path.attributeName key with
    | .error e => .error e
    | .ok (key, keyIsAttribute) =>
      match parentPath.append star path with
      | none => .error .assertion
      | some foolPath =>
        match compileTarget (some target) foolPath mapping c with
        | .error e => .error e
        | .ok (child, c) =>
          let c := c.setKey key keyIsAttribute child
          compileEntries target parentPath rest (c.group.appendTargetItem targetItems child) c

end

def compile : DynTree → Except ParseFailure (ℕ × Compiled)
  | .list mapping => compileList lib o none .empty mapping empty
  | .dict mapping =>
    compileObject none .empty (fun target c => compileEntries lib o target .empty mapping [] c)
      empty
  | _ => .error (.error rootMappingError)

end Compiled

structure TargetItem.Names (m : String2IdMap) (x : TargetItem ℕ) (y : TargetItem Bytes) : Prop where
  path : Path.Names m x.path y.path
  target : x.target = y.target
  parentTarget : x.parentTarget = y.parentTarget
  keyName : x.keyName = y.keyName
  keyNameIsAttribute : x.keyNameIsAttribute = y.keyNameIsAttribute

structure TargetGroup.Names (m : String2IdMap) (g : TargetGroup ℕ) (h : TargetGroup Bytes) :
    Prop where
  count : g.count = h.count
  items : ∀ i, TargetItem.Names m (g.items i) (h.items i)
  states : g.states = h.states

theorem TargetItem.Names.grows {m m' : String2IdMap} {x : TargetItem ℕ} {y : TargetItem Bytes}
    (h : Names m x y) (hg : m.Grows m') :
    Names m' x y := ⟨h.path.grows hg, h.target, h.parentTarget, h.keyName, h.keyNameIsAttribute⟩

namespace TargetGroup
variable {m m' : String2IdMap} {g : TargetGroup ℕ} {h : TargetGroup Bytes}

theorem Names.grows (hn : Names m g h) (hg : m.Grows m') : Names m' g h :=
  ⟨hn.count, fun i => (hn.items i).grows hg, hn.states⟩

theorem names_empty :
    Names m .empty .empty := ⟨rfl, fun _ => ⟨Path.names_empty, rfl, rfl, rfl, rfl⟩, rfl⟩

theorem Names.allocate (hn : Names m g h) : Names m g.allocate.2 h.allocate.2 :=
  ⟨congrArg (· + 1) hn.count, hn.items, hn.states⟩

theorem Names.put (hn : Names m g h) (i : ℕ) {x : TargetItem ℕ} {y : TargetItem Bytes}
    (hx : TargetItem.Names m x y) :
    Names m (g.put i x) (h.put i y) := by
  refine ⟨hn.count, fun j => ?_, ?_⟩
  · by_cases hj : j = i
    · subst hj
      simpa [TargetGroup.put] using hx
    · simpa [TargetGroup.put, hj] using hn.items j
  · simp only [TargetGroup.put, hn.states, hx.target]

theorem Names.setKey (hn : Names m g h) (key : Bytes) (isAttribute : Bool) (i : ℕ) :
    Names m (g.setKey key isAttribute i) (h.setKey key isAttribute i) := by
  refine ⟨hn.count, fun j => ?_, ?_⟩
  · by_cases hj : j = i
    · subst hj
      obtain ⟨hpath, htarget, hparent, -, -⟩ := hn.items j
      simp only [TargetGroup.setKey, Function.update_self]
      exact ⟨hpath, htarget, hparent, rfl, rfl⟩
    · simpa [TargetGroup.setKey, hj] using hn.items j
  · simp only [TargetGroup.setKey, hn.states]

theorem Names.appendTargetItem (hn : Names m g h) (targetItems : List ℕ) (c : ℕ) :
    g.appendTargetItem targetItems c = h.appendTargetItem targetItems c := by
  have hsize : (fun i => (g.items i).path.elements.length) = fun i =>
      (h.items i).path.elements.length := by
    funext i
    exact (hn.items i).path.elements.length_eq
  have hkey : ∀ i, (g.items i).keyName = (h.items i).keyName := fun i => (hn.items i).keyName
  simp only [TargetGroup.appendTargetItem, hsize, hkey]

end TargetGroup

end Xml2Var
end Nkit
