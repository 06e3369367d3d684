import Nkit.Dynamic.Memory
import Nkit.Dynamic.Objects
import Nkit.Table.SharedTable
import Mathlib.Data.Set.Function

/-! A store of all kinds of shared objects, and the trees that handles into it stand for.
Counts are left out: nothing built on this store reads an object after its last handle is
gone.  Cells of a table are handles like any other, with the type of their column. -/

namespace Nkit
open OrderedMap

inductive StoreObject where
  | string (value : Bytes)
  | oid (value : Bytes)
  | vector (items : List Dyn)
  | map (entries : List (Bytes × Dyn))
  | table (columns : List Column) (rows : List (List Dyn))
deriving DecidableEq, Repr

/-- Objects have addresses below `next`. -/
structure Store where
  next : ℕ
  objs : ℕ → Option StoreObject

namespace Store

def alloc (o : StoreObject) (m : Store) : Dyn × Store :=
  (.shared m.next, ⟨m.next + 1, Function.update m.objs m.next (some o)⟩)

def put (a : ℕ) (o : StoreObject) (m : Store) : Store := ⟨m.next, Function.update m.objs a (some o)⟩

def get (d : Dyn) (m : Store) : Option StoreObject :=
  match d with
  | .plain .. => none
  | .shared a => m.objs a

/-- `IsDict()`, with the address of the map. -/
def dictAddr (d : Dyn) (m : Store) : Option ℕ :=
  match d, m.get d with
  | .shared a, some (.map _) => some a
  | _, _ => none

def Bounded (m : Store) : Prop := ∀ a, m.next ≤ a → m.objs a = none

theorem put_same {m : Store} {a c : ℕ} (o : StoreObject) (hc : c ≠ a) :
    (m.put a o).objs c = m.objs c :=
  Function.update_of_ne hc ..

theorem put_self (m : Store) (a : ℕ) (o : StoreObject) :
    (m.put a o).objs a = some o := Function.update_self ..

end Store

inductive CellTree where
  | plain (type : PlainType) (data : BitVec 64)
  | string (value : Bytes)
deriving DecidableEq, Repr

inductive DynTree where
  | plain (type : PlainType) (data : BitVec 64)
  | string (value : Bytes)
  | oid (value : Bytes)
  | list (items : List DynTree)
  | dict (entries : List (Bytes × DynTree))
  | table (columns : List Column) (rows : List (List CellTree))
deriving Repr

namespace DynTree

def undef : DynTree := plain .undef 0

def isDict : DynTree → Bool
  | dict _ => true
  | _ => false

end DynTree

theorem sizeOf_lt_dict {k : Bytes} {t : DynTree} {entries : List (Bytes × DynTree)}
    (h : get? bytesLt k entries = some t) : sizeOf t < sizeOf (DynTree.dict entries) := by
  suffices hlt : sizeOf t < sizeOf entries by
    simp only [DynTree.dict.sizeOf_spec]
    omega
  induction entries with
  | nil => cases h
  | cons e entries ih =>
    rw [get?_cons] at h
    obtain ⟨k', t'⟩ := e
    simp only [List.cons.sizeOf_spec, Prod.mk.sizeOf_spec]
    split_ifs at h
    · have := ih h
      omega
    · obtain rfl : t' = t := Option.some.inj h
      omega

inductive ShowsCell (m : Store) (P : Set ℕ) : Dyn → CellTree → Prop where
  | plain (type : PlainType) (data : BitVec 64) :
      ShowsCell m P (.plain type data) (.plain type data)
  | string {a : ℕ} {s : Bytes} (hobj : m.objs a = some (.string s)) (ha : a ∈ P) :
      ShowsCell m P (.shared a) (.string s)

/-- The handle stands for the tree, through objects in `P`. -/
inductive Shows (m : Store) (P : Set ℕ) : Dyn → DynTree → Prop where
  | plain (type : PlainType) (data : BitVec 64) : Shows m P (.plain type data) (.plain type data)
  | string {a : ℕ} {s : Bytes} (hobj : m.objs a = some (.string s)) (ha : a ∈ P) :
      Shows m P (.shared a) (.string s)
  | oid {a : ℕ} {s : Bytes} (hobj : m.objs a = some (.oid s)) (ha : a ∈ P) :
      Shows m P (.shared a) (.oid s)
  | list {a : ℕ} {items : List Dyn} {ts : List DynTree} (hobj : m.objs a = some (.vector items))
      (ha : a ∈ P)
      (hlen : items.length = ts.length)
      (hitems : ∀ (i : ℕ) (x : Dyn) (t : DynTree), items[i]? = some x → ts[i]? = some t →
        Shows m P x t) :
      Shows m P (.shared a) (.list ts)
  | dict {a : ℕ} {entries : List (Bytes × Dyn)} {tes : List (Bytes × DynTree)}
      (hobj : m.objs a = some (.map entries)) (ha : a ∈ P) (hsorted : Sorted bytesLt entries)
      (hkeys : entries.map Prod.fst = tes.map Prod.fst)
      (hvalues : ∀ (k : Bytes) (x : Dyn) (t : DynTree),
        get? bytesLt k entries = some x → get? bytesLt k tes = some t → Shows m P x t) :
      Shows m P (.shared a) (.dict tes)
  | table {a : ℕ} {columns : List Column} {rows : List (List Dyn)} {trows : List (List CellTree)}
      (hobj : m.objs a = some (.table columns rows)) (ha : a ∈ P)
      (hrows : List.Forall₂ (List.Forall₂ (ShowsCell m P)) rows trows) :
        Shows m P (.shared a) (.table columns trows)

section Shows
variable {m m' : Store} {P Q : Set ℕ} {d : Dyn} {t t' : DynTree}

theorem ShowsCell.frame {c : CellTree} (h : ShowsCell m P d c) (hsame : Set.EqOn m'.objs m.objs P)
    (hPQ : P ⊆ Q) :
    ShowsCell m' Q d c := by
  cases h with
  | plain type data => exact .plain type data
  | string hobj ha => exact .string ((hsame ha).trans hobj) (hPQ ha)

/-- Nothing outside `P` is read. -/
theorem Shows.frame (h : Shows m P d t) (hsame : Set.EqOn m'.objs m.objs P) (hPQ : P ⊆ Q) :
    Shows m' Q d t := by
  induction h with
  | plain type data => exact .plain type data
  | string hobj ha => exact .string ((hsame ha).trans hobj) (hPQ ha)
  | oid hobj ha => exact .oid ((hsame ha).trans hobj) (hPQ ha)
  | list hobj ha hlen _ ih => exact .list ((hsame ha).trans hobj) (hPQ ha) hlen ih
  | dict hobj ha hsorted hkeys _ ih => exact .dict ((hsame ha).trans hobj) (hPQ ha) hsorted hkeys ih
  | table hobj ha hrows =>
    exact .table ((hsame ha).trans hobj) (hPQ ha)
      (hrows.imp fun _ _ hrow => hrow.imp fun _ _ hc => hc.frame hsame hPQ)

theorem Shows.mono (h : Shows m P d t) (hPQ : P ⊆ Q) : Shows m Q d t := h.frame (fun _ _ => rfl) hPQ

theorem ShowsCell.unique {c c' : CellTree} (h : ShowsCell m P d c) (h' : ShowsCell m Q d c') :
    c = c' := by
  cases h with
  | plain type data =>
    cases h'
    rfl
  | string hobj ha =>
    cases h' with
    | string hobj' _ =>
      rw [hobj] at hobj'
      cases hobj'
      rfl

theorem Shows.unique (h : Shows m P d t) (h' : Shows m Q d t') : t = t' := by
  induction h generalizing t' with
  | plain type data =>
    cases h'
    rfl
  | string hobj _ =>
    cases h' with
    | string hobj' => rw [hobj] at hobj'; cases hobj'; rfl
    | oid hobj' | list hobj' | dict hobj' | table hobj' =>
      rw [hobj] at hobj'
      cases hobj'
  | oid hobj _ =>
    cases h' with
    | string hobj' =>
      rw [hobj] at hobj'
      cases hobj'
    | oid hobj' => rw [hobj] at hobj'; cases hobj'; rfl
    | list hobj' | dict hobj' | table hobj' =>
      rw [hobj] at hobj'
      cases hobj'
  | list hobj _ hlen _ ih =>
    cases h' with
    | list hobj' _ hlen' hitems' =>
      rw [hobj] at hobj'
      cases hobj'
      refine congrArg DynTree.list (List.ext_getElem (hlen.symm.trans hlen') fun i hi hi' => ?_)
      have hlt : i < _ := hlen ▸ hi
      exact ih i _ _ (List.getElem?_eq_getElem hlt) (List.getElem?_eq_getElem hi)
        (hitems' i _ _ (List.getElem?_eq_getElem hlt) (List.getElem?_eq_getElem hi'))
    | string hobj' | oid hobj' | dict hobj' | table hobj' =>
      rw [hobj] at hobj'
      cases hobj'
  | dict hobj _ hsorted hkeys _ ih =>
    cases h' with
    | dict hobj' _ _ hkeys' hvalues' =>
      rw [hobj] at hobj'
      cases hobj'
      refine congrArg DynTree.dict
        (ext_get? bytesLt_strictWeak (hsorted.of_keys hkeys) (hkeys.symm.trans hkeys') ?_)
      intro k v v' hv hv'
      obtain ⟨x, hx⟩ := get?_of_keys hkeys.symm hv
      exact ih k x v hx hv (hvalues' k x v' hx hv')
    | string hobj' | oid hobj' | list hobj' | table hobj' =>
      rw [hobj] at hobj'
      cases hobj'
  | table hobj _ hrows =>
    cases h' with
    | table hobj' _ hrows' =>
      rw [hobj] at hobj'
      cases hobj'
      -- the two readings may lie in different regions; both are readings within the whole store
      have hcell : Relator.RightUnique (ShowsCell m Set.univ) := fun _ _ _ => ShowsCell.unique
      have hfull : ∀ {R : Set ℕ} {rs : List (List Dyn)} {ts : List (List CellTree)},
          List.Forall₂ (List.Forall₂ (ShowsCell m R)) rs ts →
            List.Forall₂ (List.Forall₂ (ShowsCell m Set.univ)) rs ts :=
        fun h => h.imp fun _ _ h => h.imp fun _ _ h => h.frame (fun _ _ => rfl) (Set.subset_univ _)
      exact congrArg (DynTree.table _) (hcell.forall₂.forall₂ (hfull hrows) (hfull hrows'))
    | string hobj' | oid hobj' | list hobj' | dict hobj' =>
      rw [hobj] at hobj'
      cases hobj'

end Shows

end Nkit
