import Nkit.Base.Region
import Nkit.Dynamic.Clone

/-! Changes through a handle and what is seen of them through another one.  A copy has no object
in common with the original, and no change through one of the two is seen through the other. -/

namespace Nkit
open OrderedMap Region Relation

/-- The objects an object refers to. -/
def StoreObject.refs : StoreObject → List ℕ
  | string _ | oid _ => []
  | vector items => items.flatMap Dyn.targets
  | map entries => entries.flatMap fun e => e.2.targets
  | table _ rows => rows.flatMap fun row => row.flatMap Dyn.targets

namespace Store

def Reach (m : Store) (d : Dyn) (a : ℕ) : Prop := Region.Reach StoreObject.refs m.objs d.targets a

/-- `operator []` with a position or a key. -/
inductive Access where
  | index (pos : ℕ)
  | key (key : Bytes)
deriving DecidableEq, Repr

inductive Slot where
  | root
  | item (a pos : ℕ)
  | entry (a : ℕ) (key : Bytes)
deriving DecidableEq, Repr

/-- The entry of a dict is made when it is not there; `none` is `D_NONE`. -/
def access (acc : Access) (d : Dyn) (m : Store) : Option (Slot × Store) :=
  match acc, d, m.get d with
  | .index pos, .shared a, some (.vector items) =>
    if pos < items.length then some (.item a pos, m) else none
  | .key key, .shared a, some (.map entries) =>
    some (.entry a key, m.put a (.map (OrderedMap.update bytesLt key .undef id entries)))
  | _, _, _ => none

def load (s : Slot) (root : Dyn) (m : Store) : Option Dyn :=
  match s with
  | .root => some root
  | .item a pos =>
    match m.objs a with
    | some (.vector items) => items[pos]?
    | _ => none
  | .entry a key => m.lookup a key

def save (s : Slot) (d root : Dyn) (m : Store) : Option (Dyn × Store) :=
  match s with
  | .root => some (d, m)
  | .item a pos =>
    match m.objs a with
    | some (.vector items) => some (root, m.put a (.vector (items.set pos d)))
    | _ => none
  | .entry a key =>
    match m.objs a with
    | some (.map entries) =>
      some (root, m.put a (.map (OrderedMap.update bytesLt key .undef (fun _ => d) entries)))
    | _ => none

/-- A chain of `[..]`. -/
def locate (root : Dyn) : List Access → Slot → Store → Option (Slot × Store)
  | [], s, m => some (s, m)
  | acc :: path, s, m => do
    let d ← m.load s root
    let (s, m) ← m.access acc d
    locate root path s m

inductive Mutation where
  | pushBack (item : Dyn)
  | setKey (key : Bytes) (value : Dyn)
  | append (text : Bytes)
  | setCellValue (row col : ℕ) (value : Dyn)
  | clear
deriving DecidableEq, Repr

def Mutation.args : Mutation → List Dyn
  | pushBack item => [item]
  | setKey _ value | setCellValue _ _ value => [value]
  | append _ | clear => []

/-- `type_`. -/
def typeOf (d : Dyn) (m : Store) : Option DynamicType :=
  match d with
  | .plain type _ => some type.toDynamic
  | .shared a => (m.objs a).map fun
    | .string _ => .string
    | .oid _ => .mongodbOid
    | .vector _ => .list
    | .map _ => .dict
    | .table .. => .table

/-- `SharedTable::SetCellValue`; `none` is an access outside the table. -/
def setCellValue (a : ℕ) (columns : List Column) (rows : List (List Dyn)) (row col : ℕ)
    (value : Dyn) (m : Store) :
    Option Store :=
  if rows.length ≤ row && columns.length ≤ col then some m
  else do
    let column ← columns[col]?
    if m.typeOf value ≠ some column.type.toDynamic then some m
    else do
      let cells ← rows[row]?
      some (m.put a (.table columns (rows.set row (cells.set col value))))

/-- `Dynamic::Clear`; values that are not shared become undefined. -/
def clear (d : Dyn) (m : Store) : Dyn × Store :=
  match d with
  | .plain _ _ => (.undef, m)
  | .shared a =>
    (d, match m.objs a with
      | some (.string _) => m.put a (.string [])
      | some (.vector _) => m.put a (.vector [])
      | some (.map _) => m.put a (.map [])
      | some (.table ..) => m.put a (.table [] [])
      | some (.oid _) | none => m)

def Mutation.run (op : Mutation) (d : Dyn) (m : Store) : Option (Dyn × Store) :=
  match op with
  | pushBack item => some (d, m.pushBack d item)
  | setKey key value => some (d, m.setKey d key value)
  | append text =>
    match d, m.get d with
    | .shared a, some (.string s) => some (d, m.put a (.string (s ++ text)))
    | _, _ => some (d, m)
  | setCellValue row col value =>
    match d, m.get d with
    | .shared a, some (.table columns rows) =>
      (m.setCellValue a columns rows row col value).map fun m => (d, m)
    | _, _ => some (d, m)
  | clear => some (m.clear d)

def mutate (path : List Access) (op : Mutation) (root : Dyn) (m : Store) :
    Option (Dyn × Store) := do
  let (s, m) ← locate root path .root m
  let d ← m.load s root
  let (d, m) ← op.run d m
  m.save s d root

end Store

/-- The handle leads nowhere else. -/
def Dyn.Inside (Q : Set ℕ) (d : Dyn) : Prop := ∀ a ∈ d.targets, a ∈ Q

section Inside
variable {Q : Set ℕ} {m m' : Store} {root d d' : Dyn} {s : Store.Slot} {a : ℕ}

theorem inside_plain (type : PlainType) (data : BitVec 64) :
    (Dyn.plain type data).Inside Q := fun _ h => (nomatch h)

theorem inside_shared : (Dyn.shared a).Inside Q ↔ a ∈ Q := by
  constructor
  · intro h
    exact h a (List.mem_singleton_self a)
  · intro h b hb
    rwa [List.mem_singleton.mp hb]

theorem refs_vector {items : List Dyn} :
    (∀ b ∈ (StoreObject.vector items).refs, b ∈ Q) ↔ ∀ x ∈ items, x.Inside Q := by
  simp only [StoreObject.refs, List.mem_flatMap, forall_exists_index, and_imp]
  exact ⟨fun h x hx b hb => h b x hx hb, fun h b x hx hb => h x hx b hb⟩

theorem refs_map {entries : List (Bytes × Dyn)} :
    (∀ b ∈ (StoreObject.map entries).refs, b ∈ Q) ↔ ∀ e ∈ entries, e.2.Inside Q := by
  simp only [StoreObject.refs, List.mem_flatMap, forall_exists_index, and_imp]
  exact ⟨fun h x hx b hb => h b x hx hb, fun h b x hx hb => h x hx b hb⟩

theorem refs_table {columns : List Column} {rows : List (List Dyn)} :
    (∀ b ∈ (StoreObject.table columns rows).refs, b ∈ Q) ↔ ∀ row ∈ rows, ∀ x ∈ row, x.Inside Q := by
  simp only [StoreObject.refs, List.mem_flatMap, forall_exists_index, and_imp]
  exact ⟨fun h row hrow x hx b hb => h b row hrow x hx hb, fun h b row hrow x hx hb =>
    h row hrow x hx b hb⟩

def Store.Closed (Q : Set ℕ) (m : Store) : Prop := Region.Closed StoreObject.refs m.objs Q

theorem Store.Closed.refs (h : m.Closed Q) (ha : a ∈ Q) {o : StoreObject} (ho : m.objs a = some o) :
    ∀ b ∈ o.refs, b ∈ Q :=
  fun b hb => h a ha b ⟨o, ho, hb⟩

def Store.Confined (Q : Set ℕ) (m m' : Store) : Prop :=
  Region.Confined StoreObject.refs Q m.objs m'.objs

theorem confined_put (h : m.Closed Q) (ha : a ∈ Q) {o : StoreObject} (ho : ∀ b ∈ o.refs, b ∈ Q) :
    m.Confined Q (m.put a o) :=
  confined_update h ha ho

theorem inside_update {entries : List (Bytes × Dyn)} (h : ∀ e ∈ entries, e.2.Inside Q) (key : Bytes)
    {f : Dyn → Dyn} (hf : ∀ x, x.Inside Q → (f x).Inside Q) :
    ∀ e ∈ update bytesLt key .undef f entries, e.2.Inside Q := by
  intro e he
  rcases value_of_mem_update he with he | heq | ⟨e', he', heq⟩
  · exact h e he
  · rw [heq]
    exact hf _ (inside_plain .undef 0)
  · rw [heq]
    exact hf _ (h e' he')

theorem get_inside (hd : d.Inside Q) {o : StoreObject} (ho : m.get d = some o) :
    ∃ a ∈ Q, d = .shared a ∧ m.objs a = some o := by
  cases d with
  | plain type data => cases ho
  | shared a => exact ⟨a, inside_shared.mp hd, rfl, ho⟩

/-- The container of the slot is in the region. -/
def Store.Slot.Inside (Q : Set ℕ) : Store.Slot → Prop
  | .root => True
  | .item a _ | .entry a _ => a ∈ Q

theorem access_confined {acc : Store.Access} (h : m.Closed Q) (hd : d.Inside Q)
    (hrun : m.access acc d = some (s, m')) :
    m.Confined Q m' ∧ s.Inside Q := by
  unfold Store.access at hrun
  split at hrun
  · rename_i pos a items hget
    obtain ⟨_, ha, heq, -⟩ := get_inside hd hget
    cases heq
    split_ifs at hrun
    cases hrun
    exact ⟨.refl h, ha⟩
  · rename_i key a entries hget
    obtain ⟨_, ha, heq, hobj⟩ := get_inside hd hget
    cases heq
    cases hrun
    refine ⟨confined_put h ha (refs_map.mpr ?_), ha⟩
    exact inside_update (refs_map.mp (h.refs ha hobj)) key fun _ hx => hx
  · cases hrun

theorem load_inside (h : m.Closed Q) (hroot : root.Inside Q) (hs : s.Inside Q)
    (hload : m.load s root = some d) :
    d.Inside Q := by
  unfold Store.load at hload
  cases s with
  | root =>
    cases hload
    exact hroot
  | item a pos =>
    simp only at hload
    split at hload
    · rename_i items hobj
      exact refs_vector.mp (h.refs hs hobj) d (List.mem_of_getElem? hload)
    · cases hload
  | entry a key =>
    simp only [Store.lookup] at hload
    split at hload
    · rename_i entries hobj
      obtain ⟨key', hin⟩ := mem_of_get? hload
      exact refs_map.mp (h.refs hs hobj) (key', d) hin
    · cases hload

theorem locate_confined {path : List Store.Access} {s' : Store.Slot} (h : m.Closed Q)
    (hroot : root.Inside Q) (hs : s.Inside Q) (hrun : Store.locate root path s m = some (s', m')) :
    m.Confined Q m' ∧ s'.Inside Q := by
  induction path generalizing s m with
  | nil =>
    cases hrun
    exact ⟨.refl h, hs⟩
  | cons acc path ih =>
    rw [Store.locate] at hrun
    obtain ⟨d, hload, hrun⟩ := Option.bind_eq_some_iff.mp hrun
    obtain ⟨⟨s₁, m₁⟩, haccess, hrun⟩ := Option.bind_eq_some_iff.mp hrun
    obtain ⟨hconf, hs₁⟩ := access_confined h (load_inside h hroot hs hload) haccess
    obtain ⟨hconf', hs'⟩ := ih hconf.closed hs₁ hrun
    exact ⟨hconf.trans hconf', hs'⟩

theorem save_confined (h : m.Closed Q) (hroot : root.Inside Q) (hs : s.Inside Q) (hd : d.Inside Q)
    (hrun : m.save s d root = some (d', m')) : m.Confined Q m' ∧ d'.Inside Q := by
  unfold Store.save at hrun
  cases s with
  | root =>
    cases hrun
    exact ⟨.refl h, hd⟩
  | item a pos =>
    simp only at hrun
    split at hrun
    · rename_i items hobj
      cases hrun
      refine ⟨confined_put h hs (refs_vector.mpr fun x hx => ?_), hroot⟩
      rcases List.mem_or_eq_of_mem_set hx with hx | rfl
      · exact refs_vector.mp (h.refs hs hobj) x hx
      · exact hd
    · cases hrun
  | entry a key =>
    simp only at hrun
    split at hrun
    · rename_i entries hobj
      cases hrun
      refine ⟨confined_put h hs (refs_map.mpr ?_), hroot⟩
      exact inside_update (refs_map.mp (h.refs hs hobj)) key fun _ _ => hd
    · cases hrun

theorem pushBack_confined {item : Dyn} (h : m.Closed Q) (hd : d.Inside Q) (hitem : item.Inside Q) :
    m.Confined Q (m.pushBack d item) := by
  unfold Store.pushBack
  split
  · rename_i a items hget
    obtain ⟨_, ha, heq, hobj⟩ := get_inside hd hget
    cases heq
    refine confined_put h ha (refs_vector.mpr fun x hx => ?_)
    rcases List.mem_append.mp hx with hx | hx
    · exact refs_vector.mp (h.refs ha hobj) x hx
    · rwa [List.mem_singleton.mp hx]
  · exact .refl h

theorem setKey_confined {key : Bytes} {value : Dyn} (h : m.Closed Q) (hd : d.Inside Q)
    (hvalue : value.Inside Q) :
    m.Confined Q (m.setKey d key value) := by
  unfold Store.setKey
  split
  · rename_i a entries hget
    obtain ⟨_, ha, heq, hobj⟩ := get_inside hd hget
    cases heq
    refine confined_put h ha
      (refs_map.mpr (inside_update (refs_map.mp (h.refs ha hobj)) key fun x hx => ?_))
    split_ifs
    · exact hx
    · exact hvalue
  · exact .refl h

theorem setCellValue_confined {columns : List Column} {rows : List (List Dyn)} {row col : ℕ}
    {value : Dyn} (h : m.Closed Q) (ha : a ∈ Q) (hobj : m.objs a = some (.table columns rows))
    (hvalue : value.Inside Q) (hrun : m.setCellValue a columns rows row col value = some m') :
    m.Confined Q m' := by
  unfold Store.setCellValue at hrun
  split_ifs at hrun
  · cases hrun
    exact .refl h
  · obtain ⟨column, -, hrun⟩ := Option.bind_eq_some_iff.mp hrun
    split_ifs at hrun
    · cases hrun
      exact .refl h
    · obtain ⟨cells, hcells, hrun⟩ := Option.bind_eq_some_iff.mp hrun
      cases hrun
      have hold := refs_table.mp (h.refs ha hobj)
      refine confined_put h ha (refs_table.mpr fun row' hrow' x hx => ?_)
      rcases List.mem_or_eq_of_mem_set hrow' with hrow' | rfl
      · exact hold row' hrow' x hx
      · rcases List.mem_or_eq_of_mem_set hx with hx | rfl
        · exact hold cells (List.mem_of_getElem? hcells) x hx
        · exact hvalue

theorem clear_confined (h : m.Closed Q) (hd : d.Inside Q) :
    m.Confined Q (m.clear d).2 ∧ (m.clear d).1.Inside Q := by
  cases d with
  | plain type data => exact ⟨.refl h, inside_plain .undef 0⟩
  | shared a =>
    have ha := inside_shared.mp hd
    refine ⟨?_, hd⟩
    simp only [Store.clear]
    split
    · exact confined_put h ha fun _ hb => (nomatch hb)
    · exact confined_put h ha fun _ hb => (nomatch hb)
    · exact confined_put h ha fun _ hb => (nomatch hb)
    · exact confined_put h ha fun _ hb => (nomatch hb)
    · exact .refl h
    · exact .refl h

theorem run_confined {op : Store.Mutation} (h : m.Closed Q) (hd : d.Inside Q)
    (hargs : ∀ v ∈ op.args, v.Inside Q) (hrun : op.run d m = some (d', m')) :
    m.Confined Q m' ∧ d'.Inside Q := by
  cases op with
  | pushBack item =>
    cases hrun
    exact ⟨pushBack_confined h hd (hargs item (List.mem_singleton_self _)), hd⟩
  | setKey key value =>
    cases hrun
    exact ⟨setKey_confined h hd (hargs value (List.mem_singleton_self _)), hd⟩
  | append text =>
    simp only [Store.Mutation.run] at hrun
    split at hrun
    · rename_i a s hget
      obtain ⟨_, ha, heq, -⟩ := get_inside hd hget
      cases heq
      cases hrun
      exact ⟨confined_put h ha fun _ hb => (nomatch hb), hd⟩
    · cases hrun
      exact ⟨.refl h, hd⟩
  | setCellValue row col value =>
    simp only [Store.Mutation.run] at hrun
    split at hrun
    · rename_i a columns rows hget
      obtain ⟨_, ha, heq, hobj⟩ := get_inside hd hget
      cases heq
      obtain ⟨m₁, hset, heq⟩ := Option.map_eq_some_iff.mp hrun
      cases heq
      exact ⟨setCellValue_confined h ha hobj (hargs value (List.mem_singleton_self _)) hset, hd⟩
    · cases hrun
      exact ⟨.refl h, hd⟩
  | clear =>
    have heq : m.clear d = (d', m') := Option.some.inj hrun
    obtain ⟨hconf, hd'⟩ := clear_confined h hd
    rw [heq] at hconf hd'
    exact ⟨hconf, hd'⟩

theorem mutate_confined {path : List Store.Access} {op : Store.Mutation} (h : m.Closed Q)
    (hroot : root.Inside Q) (hargs : ∀ v ∈ op.args, v.Inside Q)
    (hrun : m.mutate path op root = some (d', m')) :
    m.Confined Q m' ∧ d'.Inside Q := by
  obtain ⟨⟨s, m₁⟩, hlocate, hrun⟩ := Option.bind_eq_some_iff.mp hrun
  obtain ⟨d, hload, hrun⟩ := Option.bind_eq_some_iff.mp hrun
  obtain ⟨⟨d₂, m₂⟩, hop, hsave⟩ := Option.bind_eq_some_iff.mp hrun
  obtain ⟨hconf₁, hs⟩ := locate_confined (s := .root) h hroot trivial hlocate
  obtain ⟨hconf₂, hd₂⟩ :=
    run_confined hconf₁.closed (load_inside hconf₁.closed hroot hs hload) hargs hop
  obtain ⟨hconf₃, hd'⟩ := save_confined hconf₂.closed hroot hs hd₂ hsave
  exact ⟨hconf₁.trans (hconf₂.trans hconf₃), hd'⟩

end Inside

structure Pair where
  x : Dyn
  y : Dyn
  m : Store

namespace Pair

def swap (p : Pair) : Pair := ⟨p.y, p.x, p.m⟩

/-- No object is reachable from both. -/
def Apart (p : Pair) : Prop := ∀ a, p.m.Reach p.x a → ¬p.m.Reach p.y a

/-- A change through the first handle, with values that do not lead to the objects of the second. -/
inductive Change (p : Pair) : Pair → Prop where
  | intro {path : List Store.Access} {op : Store.Mutation} {x' : Dyn} {m' : Store}
      (hargs : ∀ v ∈ op.args, ∀ a, p.m.Reach v a → ¬p.m.Reach p.y a)
      (hrun : p.m.mutate path op p.x = some (x', m')) : Change p ⟨x', p.y, m'⟩

/-- A change through one of the two, or anything that leaves the objects of both alone. -/
inductive Step (p : Pair) : Pair → Prop where
  | first {q : Pair} (h : p.Change q) : Step p q
  | second {q : Pair} (h : p.swap.Change q) : Step p q.swap
  | other {m' : Store} (hsame : ∀ a, p.m.Reach p.x a ∨ p.m.Reach p.y a → m'.objs a = p.m.objs a) :
      Step p ⟨p.x, p.y, m'⟩

/-- What the second handle stands for is not changed through the first one. -/
def Independent (p : Pair) : Prop :=
  ∀ (q : Pair) (t : DynTree), p.Change q → Shows p.m Set.univ p.y t → Shows q.m Set.univ q.y t

end Pair

section Pair
variable {m : Store} {P : Set ℕ} {d : Dyn} {t : DynTree} {p q : Pair} {a : ℕ}

theorem ShowsCell.reach {c : CellTree} (h : ShowsCell m P d c) (ha : m.Reach d a) : a ∈ P := by
  cases h with
  | plain type data => exact (reach_empty ha).elim
  | string hobj hP =>
    rcases reach_head hobj ha with rfl | ha
    · exact hP
    · exact (reach_empty ha).elim

theorem Shows.reach (h : Shows m P d t) (ha : m.Reach d a) : a ∈ P := by
  induction h with
  | plain type data => exact (reach_empty ha).elim
  | string hobj hP | oid hobj hP =>
    rcases reach_head hobj ha with rfl | ha
    · exact hP
    · exact (reach_empty ha).elim
  | @list _ items ts hobj hP hlen _ ih =>
    rcases reach_head hobj ha with rfl | ha
    · exact hP
    · obtain ⟨r, hr, hpath⟩ := ha
      obtain ⟨x, hx, hmem⟩ := List.mem_flatMap.mp hr
      obtain ⟨i, hi, rfl⟩ := List.getElem_of_mem hx
      have hi' : i < ts.length := hlen ▸ hi
      exact ih i _ _ (List.getElem?_eq_getElem hi) (List.getElem?_eq_getElem hi') ⟨r, hmem, hpath⟩
  | @dict _ entries tes hobj hP hsorted hkeys _ ih =>
    rcases reach_head hobj ha with rfl | ha
    · exact hP
    · obtain ⟨r, hr, hpath⟩ := ha
      obtain ⟨e, he, hmem⟩ := List.mem_flatMap.mp hr
      have hget := get?_eq_some_of_mem bytesLt_strictWeak hsorted he
      obtain ⟨t, ht⟩ := get?_of_keys hkeys hget
      exact ih e.1 e.2 t hget ht ⟨r, hmem, hpath⟩
  | @table _ columns rows trows hobj hP hrows =>
    rcases reach_head hobj ha with rfl | ha
    · exact hP
    · obtain ⟨r, hr, hpath⟩ := ha
      obtain ⟨row, hrow, hr⟩ := List.mem_flatMap.mp hr
      obtain ⟨x, hx, hmem⟩ := List.mem_flatMap.mp hr
      obtain ⟨i, hi, rfl⟩ := List.getElem_of_mem hrow
      obtain ⟨j, hj, rfl⟩ := List.getElem_of_mem hx
      obtain ⟨hlen, hrows⟩ := List.forall₂_iff_get.mp hrows
      obtain ⟨hlen', hcells⟩ := List.forall₂_iff_get.mp (hrows i hi (hlen ▸ hi))
      exact (hcells j hj (hlen' ▸ hj)).reach ⟨r, hmem, hpath⟩

theorem reach_child {o : StoreObject} (hobj : m.objs a = some o) {x : Dyn}
    (hx : ∀ r ∈ x.targets, r ∈ o.refs) {b : ℕ} (hb : m.Reach x b) : m.Reach (.shared a) b := by
  obtain ⟨r, hr, hpath⟩ := hb
  exact ⟨a, List.mem_singleton_self a, hpath.head ⟨o, hobj, hx r hr⟩⟩

theorem Shows.reachable (h : Shows m P d t) : Shows m {a | m.Reach d a ∧ m.objs a ≠ none} d t := by
  have hself : ∀ {b : ℕ} {o : StoreObject}, m.objs b = some o → m.Reach (.shared b) b ∧
      m.objs b ≠ none :=
    fun hobj =>
      ⟨reach_root (List.mem_singleton_self _), fun hnone => (nomatch hnone.symm.trans hobj)⟩
  induction h with
  | plain type data => exact .plain type data
  | string hobj _ => exact .string hobj (hself hobj)
  | oid hobj _ => exact .oid hobj (hself hobj)
  | list hobj _ hlen _ ih =>
    refine .list hobj (hself hobj) hlen fun i x t hx ht => (ih i x t hx ht).mono fun b hb =>
      ⟨?_, hb.2⟩
    exact reach_child hobj (fun r hr => List.mem_flatMap.mpr ⟨x, List.mem_of_getElem? hx, hr⟩) hb.1
  | dict hobj _ hsorted hkeys _ ih =>
    refine .dict hobj (hself hobj) hsorted hkeys fun k x t hx ht =>
      (ih k x t hx ht).mono fun b hb => ⟨?_, hb.2⟩
    obtain ⟨k', hin⟩ := mem_of_get? hx
    exact reach_child hobj (fun r hr => List.mem_flatMap.mpr ⟨(k', x), hin, hr⟩) hb.1
  | @table a columns rows trows hobj _ hrows =>
    have hcell : ∀ row ∈ rows, ∀ x ∈ row, ∀ c, ShowsCell m P x c →
        ShowsCell m {b | m.Reach (.shared a) b ∧ m.objs b ≠ none} x c := by
      intro row hrow x hx c hc
      cases hc with
      | plain type data => exact .plain type data
      | string hobj' _ =>
        refine .string hobj' ⟨reach_child hobj (fun r hr => ?_) (hself hobj').1, (hself hobj').2⟩
        exact List.mem_flatMap.mpr ⟨row, hrow, List.mem_flatMap.mpr ⟨_, hx, hr⟩⟩
    refine .table hobj (hself hobj) ?_
    obtain ⟨hlen, hrows⟩ := List.forall₂_iff_get.mp hrows
    refine List.forall₂_iff_get.mpr ⟨hlen, fun i hi hi' => ?_⟩
    obtain ⟨hlen', hcells⟩ := List.forall₂_iff_get.mp (hrows i hi hi')
    exact List.forall₂_iff_get.mpr ⟨hlen', fun j hj hj' =>
      hcell _ (List.getElem_mem hi) _ (List.getElem_mem hj) _ (hcells j hj hj')⟩

theorem Shows.congr {m' : Store} (h : Shows m P d t)
    (hsame : ∀ a, m.Reach d a → m'.objs a = m.objs a) :
    Shows m' Set.univ d t := h.reachable.frame (fun a ha => hsame a ha.1) (Set.subset_univ _)

theorem Pair.Change.apart (h : p.Change q) (hp : p.Apart) :
    q.Apart ∧ q.y = p.y ∧ ∀ a, p.m.Reach p.y a → q.m.objs a = p.m.objs a := by
  obtain @⟨path, op, x', m', hargs, hrun⟩ := h
  set roots := p.x.targets ++ op.args.flatMap Dyn.targets
  have hclosed : p.m.Closed {a | Region.Reach StoreObject.refs p.m.objs roots a} := reach_closed _ _
  have hx : p.x.Inside {a | Region.Reach StoreObject.refs p.m.objs roots a} :=
    fun a ha => reach_root (List.mem_append_left _ ha)
  have hv : ∀ v ∈ op.args, v.Inside {a | Region.Reach StoreObject.refs p.m.objs roots a} :=
    fun v hv a ha => reach_root (List.mem_append_right _ (List.mem_flatMap.mpr ⟨v, hv, ha⟩))
  obtain ⟨hconf, hx'⟩ := mutate_confined hclosed hx hv hrun
  have hout : ∀ a, p.m.Reach p.y a → a ∉ {a | Region.Reach StoreObject.refs p.m.objs roots a} := by
    intro a hy hin
    rcases reach_append.mp hin with hx | ⟨r, hr, hpath⟩
    · exact hp a hx hy
    · obtain ⟨v, hv, hmem⟩ := List.mem_flatMap.mp hr
      exact hargs v hv a ⟨r, hmem, hpath⟩ hy
  exact ⟨fun a => Region.Confined.apart hconf hx' hout, rfl, fun a ha => hconf.same a (hout a ha)⟩

theorem Pair.Apart.independent (h : p.Apart) : p.Independent := by
  intro q t hchange hy
  obtain ⟨-, heq, hsame⟩ := hchange.apart h
  rw [heq]
  exact hy.congr hsame

theorem Pair.Apart.swap (h : p.Apart) : p.swap.Apart := fun a hy hx => h a hx hy

theorem Pair.Step.apart (h : p.Step q) (hp : p.Apart) : q.Apart := by
  cases h with
  | first h => exact (h.apart hp).1
  | second h => exact (h.apart hp.swap).1.swap
  | other hsame =>
    intro a hx hy
    exact hp a ((reach_congr fun b hb => hsame b (.inl hb)).mp hx)
      ((reach_congr fun b hb => hsame b (.inr hb)).mp hy)

theorem Pair.Apart.steps (hp : p.Apart) (h : ReflTransGen Pair.Step p q) : q.Apart := by
  induction h with
  | refl => exact hp
  | tail _ hstep ih => exact hstep.apart ih

end Pair

/-- `Clone` returns an equal value of its own objects.  Whatever is done to the two afterwards, a
change through one of them is not seen through the other. -/
theorem clone_separate (lib : CLib) (m : Store) (d : Dyn) (t : DynTree) (hb : m.Bounded)
    (hd : Shows m Set.univ d t) (ht : t.Clonable) :
    ∃ n, ∀ fuel, n ≤ fuel → ∃ d' m' t', m.clone fuel d = some (d', m') ∧
      Shows m' Set.univ d t ∧ Shows m' Set.univ d' t' ∧ t'.eq lib t = true ∧ t.eq lib t' = true ∧
      Pair.Apart ⟨d, d', m'⟩ ∧
      ∀ p, ReflTransGen Pair.Step ⟨d, d', m'⟩ p → p.Apart ∧ p.Independent ∧ p.swap.Independent := by
  refine ⟨sizeOf t + 1, fun fuel hfuel => ?_⟩
  obtain ⟨d', m', hclone, hgrown, hd'⟩ := copies_clone hd ht hfuel m hb fun _ _ ha => ha
  have hold : Shows m (Set.Iio m.next) d t := hd.reachable.mono fun a ha => by
    obtain ⟨o, ho⟩ := Option.ne_none_iff_exists'.mp ha.2
    exact hb.lt ho
  have hold' : Shows m' (Set.Iio m.next) d t := hold.frame (fun a ha => hgrown.same a ha) subset_rfl
  have hapart : Pair.Apart ⟨d, d', m'⟩ := by
    intro a hx hy
    have hlt : a < m.next := hold'.reach hx
    exact absurd (hd'.reach hy).1 (Nat.not_le_of_lt hlt)
  have heq := ht.eq_refl lib
  refine ⟨d', m', t, hclone, hold'.mono (Set.subset_univ _), hd'.mono (Set.subset_univ _), heq, heq,
    hapart, fun p hp => ?_⟩
  have hp' := hapart.steps hp
  exact ⟨hp', hp'.independent, hp'.swap.independent⟩

def sharedStore : Store :=
  ⟨4, fun
    | 0 => some (.vector [.shared 1, .shared 1, .shared 2])
    | 1 => some (.string (ascii "s"))
    | 2 => some (.table [⟨ascii "name", .string⟩, ⟨ascii "n", .integer⟩]
      [[.shared 3, .plain .integer 7]])
    | 3 => some (.string (ascii "t"))
    | _ => none⟩

def sharedTree : DynTree :=
  .list [.string (ascii "s"), .string (ascii "s"),
    .table [⟨ascii "name", .string⟩, ⟨ascii "n", .integer⟩]
    [[.string (ascii "t"), .plain .integer 7]]]

theorem shows_sharedStore : Shows sharedStore Set.univ (.shared 0) sharedTree := by
  refine .list rfl trivial rfl fun i x t hx ht => ?_
  match i with
  | 0 | 1 =>
    cases hx
    cases ht
    exact .string rfl trivial
  | 2 =>
    cases hx
    cases ht
    exact .table rfl trivial (.cons (.cons (.string rfl trivial) (.cons (.plain _ _) .nil)) .nil)
  | i + 3 => cases hx

theorem clonable_sharedTree : sharedTree.Clonable := by
  refine .list fun t ht => ?_
  simp only [List.mem_cons, List.not_mem_nil, or_false] at ht
  rcases ht with rfl | rfl | rfl
  · exact .string _
  · exact .string _
  · refine .table (fun row hrow => ?_) fun row hrow c hc => ?_
    · rw [List.mem_singleton.mp hrow]
      rfl
    · rw [List.mem_singleton.mp hrow] at hc
      simp only [List.mem_cons, List.not_mem_nil, or_false] at hc
      rcases hc with rfl | rfl <;> trivial

theorem clone_separate_shared :
    ∃ n, ∀ fuel, n ≤ fuel → ∃ d' m' t', sharedStore.clone fuel (.shared 0) = some (d', m') ∧
      Shows m' Set.univ (.shared 0) sharedTree ∧ Shows m' Set.univ d' t' ∧
        Pair.Apart ⟨.shared 0, d', m'⟩ := by
  have hb : sharedStore.Bounded := by
    intro a ha
    match a, ha with
    | a + 4, _ => rfl
  obtain ⟨n, hn⟩ := clone_separate ⟨fun _ => 0, fun _ => [], fun _ => [], fun _ => 0, fun _ => 0⟩
    sharedStore (.shared 0)
    sharedTree hb shows_sharedStore clonable_sharedTree
  refine ⟨n, fun fuel hfuel => ?_⟩
  obtain ⟨d', m', t', hclone, hold, hnew, -, -, hapart, -⟩ := hn fuel hfuel
  exact ⟨d', m', t', hclone, hold, hnew, hapart⟩

end Nkit
