import Nkit.Table.Calls
import Mathlib.Algebra.BigOperators.Group.List.Basic

/-! Reference counts of the strings in tables.  Every loop over the cells of a row changes
each count by exactly the references the row gains and loses, with one exception: `SetRow`
does not release the old string of a column it fills with a default. -/

namespace Nkit
open FlatRows

/-- One if this is a reference to string `a`. -/
def cellRef (a : ℕ) (type : DynamicType) (d : Data) : ℕ :=
  if type = .string ∧ d.strAddr = some a then 1 else 0

def rowRefs (a : ℕ) : List Column → List Data → ℕ
  | c :: cs, d :: ds => cellRef a c.type d + rowRefs a cs ds
  | _, _ => 0

theorem rowRefs_cons (a : ℕ) (c : Column) (cs : List Column) (cache : List Data) :
    rowRefs a (c :: cs) cache =
      cellRef a c.type (cache.headD (.word 0)) + rowRefs a cs cache.tail := by
  cases cache with
  | nil => cases cs <;> simp [rowRefs, cellRef, Data.strAddr]
  | cons d ds => rfl

theorem rowRefs_append (a : ℕ) (cs : List Column) {row : List Data} (hlen : row.length = cs.length)
    (rest : List Data) : rowRefs a cs (row ++ rest) = rowRefs a cs row := by
  induction cs generalizing row with
  | nil =>
    simp [rowRefs]
  | cons c cs ih =>
    cases row with
    | nil => cases hlen
    | cons d row =>
      have hrow : row.length = cs.length := by simpa using hlen
      simp only [List.cons_append, rowRefs, ih hrow]

namespace StringHeap

/-- No identity at or above `next` has been handed out. -/
def Fresh (h : StringHeap) : Prop := ∀ a, h.next ≤ a → h.refs a = 0

theorem incRef_refs (h : StringHeap) (b a : ℕ) :
    (h.incRef b).refs a = h.refs a + if b = a then 1 else 0 := by
  by_cases hab : a = b
  · simp [incRef, hab]
  · simp [incRef, hab, Ne.symm hab]

theorem decRef_refs (h : StringHeap) (b a : ℕ) :
    (h.decRef b).refs a = h.refs a - if b = a then 1 else 0 := by
  by_cases hab : a = b
  · simp [decRef, hab]
  · simp [decRef, hab, Ne.symm hab]

theorem alloc_refs {h : StringHeap} (hf : h.Fresh) (value : Bytes) (a : ℕ) :
    (h.alloc value).2.refs a = h.refs a + if h.next = a then 1 else 0 := by
  by_cases ha : a = h.next
  · have hzero : h.refs h.next = 0 := hf _ le_rfl
    simp [alloc, ha, hzero]
  · simp [alloc, ha, Ne.symm ha]

theorem alloc_fresh {h : StringHeap} (hf : h.Fresh) (value : Bytes) : (h.alloc value).2.Fresh := by
  intro a ha
  have hlt : h.next < a := ha
  rw [alloc_refs hf, if_neg hlt.ne, hf a hlt.le]

theorem incRefData_refs (h : StringHeap) (d : Data) (a : ℕ) :
    (h.incRefData d).refs a = h.refs a + cellRef a .string d := by
  cases d with
  | str s => simp [incRefData, incRef_refs, cellRef, Data.strAddr]
  | word w => simp [incRefData, cellRef, Data.strAddr]
  | obj b => simp [incRefData, cellRef, Data.strAddr]

theorem decRefData_refs (h : StringHeap) (d : Data) (a : ℕ) :
    (h.decRefData d).refs a = h.refs a - cellRef a .string d := by
  cases d with
  | str s => simp [decRefData, decRef_refs, cellRef, Data.strAddr]
  | word w => simp [decRefData, cellRef, Data.strAddr]
  | obj b => simp [decRefData, cellRef, Data.strAddr]

end StringHeap

theorem cellRef_column (a : ℕ) (type : ColumnType) (d : Data) :
    cellRef a type d = if isRefCounted type then cellRef a .string d else 0 := by
  cases type <;> simp [cellRef, isRefCounted, DynamicType.code, ColumnType.toDynamic]

theorem incColumn_refs (type : ColumnType) (h : StringHeap) (d : Data) (a : ℕ) :
    (if isRefCounted type then h.incRefData d else h).refs a = h.refs a + cellRef a type d := by
  rw [cellRef_column]
  split_ifs
  · exact h.incRefData_refs d a
  · rfl

theorem decColumn_refs (type : ColumnType) (h : StringHeap) (d : Data) (a : ℕ) :
    (if isRefCounted type then h.decRefData d else h).refs a = h.refs a - cellRef a type d := by
  rw [cellRef_column]
  split_ifs
  · exact h.decRefData_refs d a
  · rfl

def Live (h : StringHeap) (v : Dynamic) : Prop := ∀ a, cellRef a v.type v.data ≤ h.refs a

namespace SharedTable

theorem takeArg_refs {type : ColumnType} {v : Dynamic} (ht : type.toDynamic = v.type)
    (h : StringHeap) (a : ℕ) : (takeArg v h).2.refs a = h.refs a + cellRef a type v.data := by
  unfold takeArg
  rw [← ht]
  exact incColumn_refs type h v.data a

theorem getDefault_refs {h : StringHeap} (hf : h.Fresh) (type : ColumnType) (now : BitVec 64) :
    (getDefault type now h).2.Fresh ∧ h.next ≤ (getDefault type now h).2.next ∧
      ∀ a, (getDefault type now h).2.refs a =
        h.refs a + cellRef a type (getDefault type now h).1 := by
  cases type
  case string =>
    -- the reference of the temporary and the one of the cell cancel but for one
    have hrefs : ∀ a, (getDefault .string now h).2.refs a =
        h.refs a + cellRef a .string (getDefault .string now h).1 := by
      intro a
      have halloc := StringHeap.alloc_refs hf [] a
      have heq : (getDefault .string now h).2.refs a = (h.alloc []).2.refs a := by
        change (((h.alloc []).2.incRef h.next).decRef h.next).refs a = _
        rw [StringHeap.decRef_refs, StringHeap.incRef_refs]
        omega
      rw [heq, halloc]
      change _ = h.refs a + cellRef a .string (.str ⟨h.next, []⟩)
      simp [cellRef, Data.strAddr]
    refine ⟨?_, Nat.le_succ _, hrefs⟩
    intro a ha
    have hlt : h.next < a := ha
    rw [hrefs, hf a hlt.le]
    change 0 + cellRef a .string (.str ⟨h.next, []⟩) = 0
    simp [cellRef, Data.strAddr, hlt.ne]
  all_goals
    exact ⟨hf, le_rfl, fun a => by simp [getDefault, Dynamic.getDefault, cellRef, isRefCounted,
    DynamicType.code, ColumnType.toDynamic]⟩

theorem insertCells_refs (now : ℕ → BitVec 64) (colNum : ℕ) {cs : List Column} {vs : List Dynamic}
    (ht : Typed cs vs) {h : StringHeap} (hf : h.Fresh) (hlive : ∀ v ∈ vs, Live h v) :
    (insertCells now colNum cs vs h).2.Fresh ∧
      ∀ a, (insertCells now colNum cs vs h).2.refs a =
        h.refs a + rowRefs a cs (insertCells now colNum cs vs h).1 := by
  induction cs generalizing colNum vs h with
  | nil => exact ⟨hf, fun a => rfl⟩
  | cons c cs ih =>
    cases vs with
    | nil =>
      obtain ⟨hf', -, hrefs⟩ := getDefault_refs hf c.type (now colNum)
      obtain ⟨hfresh, hrest⟩ := ih (colNum + 1) (typed_nil cs) hf' (by simp)
      refine ⟨hfresh, fun a => ?_⟩
      have hsum := hrest a
      rw [hrefs a] at hsum
      simp only [insertCells, rowRefs]
      omega
    | cons v vs =>
      obtain ⟨hc, hcs⟩ := ht.of_cons
      have hrefs := takeArg_refs hc h
      have hf' : (takeArg v h).2.Fresh := by
        intro a ha
        rw [takeArg_next] at ha
        have hv := hlive v List.mem_cons_self a
        rw [← hc, hf a ha] at hv
        rw [hrefs, hf a ha]
        omega
      have hlive' : ∀ v' ∈ vs, Live (takeArg v h).2 v' := by
        intro v' hv' a
        have hv := hlive v' (List.mem_cons_of_mem _ hv') a
        rw [hrefs]
        omega
      obtain ⟨hfresh, hrest⟩ := ih (colNum + 1) hcs hf' hlive'
      refine ⟨hfresh, fun a => ?_⟩
      have hsum := hrest a
      rw [hrefs a] at hsum
      simp only [insertCells, rowRefs]
      change _ = h.refs a + (cellRef a c.type v.data + _)
      omega

theorem releaseCells_refs (cs : List Column) (cache : List Data) {h : StringHeap}
    (hle : ∀ a, rowRefs a cs cache ≤ h.refs a) (a : ℕ) :
    (releaseCells cs cache h).refs a + rowRefs a cs cache = h.refs a := by
  induction cs generalizing cache h with
  | nil => rfl
  | cons c cs ih =>
    have hdec := decColumn_refs c.type h (cache.headD (.word 0))
    have hle' : ∀ a, rowRefs a cs cache.tail ≤
        (if isRefCounted c.type then h.decRefData (cache.headD (.word 0)) else h).refs a := by
      intro a
      have hcell := hle a
      rw [rowRefs_cons] at hcell
      rw [hdec]
      omega
    have hrest := ih cache.tail hle'
    have hcell := hle a
    rw [hdec] at hrest
    rw [rowRefs_cons] at hcell ⊢
    rw [releaseCells]
    omega

theorem releaseCells_next (cs : List Column) (cache : List Data) (h : StringHeap) :
    (releaseCells cs cache h).next = h.next := by
  induction cs generalizing cache h with
  | nil => rfl
  | cons c cs ih =>
    rw [releaseCells, ih]
    split_ifs
    · exact decRefData_next h _
    · rfl

theorem setCells_cons (now : ℕ → BitVec 64) (colNum : ℕ) {c : Column} {v : Dynamic}
    (hc : c.type.toDynamic = v.type) {cs : List Column} {vs : List Dynamic} {cache : List Data}
    {h : StringHeap} :
    setCells now colNum (c :: cs) (v :: vs) cache h =
      ((setCells now (colNum + 1) cs vs cache.tail (takeArg v (if isRefCounted c.type then
          h.decRefData (cache.headD (.word 0)) else h)).2).1,
        v.data ::
        (setCells now (colNum + 1) cs vs cache.tail (takeArg v (if isRefCounted c.type then
          h.decRefData (cache.headD (.word 0)) else h)).2).2.1,
        (setCells now (colNum + 1) cs vs cache.tail (takeArg v (if isRefCounted c.type then
          h.decRefData (cache.headD (.word 0)) else h)).2).2.2) := by
  have hne : ¬ (c.type.toDynamic ≠ v.type) := not_not_intro hc
  rw [setCells, if_neg hne]
  rfl

/-- `SetRow` exchanges the references of the old row for those of the new one, if no string
column is left to its default. -/
theorem setCells_refs (now : ℕ → BitVec 64) (colNum : ℕ) {cs : List Column} {vs : List Dynamic}
    (ht : Typed cs vs) (hstrings : ∀ c ∈ cs.drop vs.length, c.type ≠ .string) (cache : List Data)
    {h : StringHeap} (hf : h.Fresh)
    (hlive : ∀ v ∈ vs, ∀ a, cellRef a v.type v.data + rowRefs a cs cache ≤ h.refs a)
    (hle : ∀ a, rowRefs a cs cache ≤ h.refs a) :
    (setCells now colNum cs vs cache h).2.2.Fresh ∧
      ∀ a, (setCells now colNum cs vs cache h).2.2.refs a + rowRefs a cs cache =
        h.refs a + rowRefs a cs (setCells now colNum cs vs cache h).2.1 := by
  induction cs generalizing colNum vs cache h with
  | nil => exact ⟨hf, fun a => rfl⟩
  | cons c cs ih =>
    cases vs with
    | nil =>
      have hc : c.type ≠ .string := hstrings c (by simp)
      -- a default that is no string counts on neither side
      have hcell : ∀ a d, cellRef a c.type d = 0 := by
        intro a d
        rw [cellRef_column, if_neg]
        exact fun hcounted => hc ((isRefCounted_column _).mp hcounted)
      have hle' : ∀ a, rowRefs a cs cache.tail ≤ h.refs a := by
        intro a
        have hrow := hle a
        rw [rowRefs_cons] at hrow
        omega
      have hheap : (getDefault c.type (now colNum) h).2 = h := by
        revert hc
        cases c.type <;> intro hc <;> first | rfl | exact absurd rfl hc
      obtain ⟨hfresh, hrest⟩ := ih (colNum + 1) (typed_nil cs)
        (fun c' hc' => hstrings c' (by simp at hc' ⊢; exact .inr hc')) cache.tail hf (by simp) hle'
      have hcells : setCells now colNum (c :: cs) [] cache h =
          ((setCells now (colNum + 1) cs [] cache.tail h).1, (getDefault c.type (now colNum) h).1 ::
            (setCells now (colNum + 1) cs [] cache.tail h).2.1,
            (setCells now (colNum + 1) cs [] cache.tail h).2.2) := by
        simp only [setCells, hheap]
      rw [hcells]
      refine ⟨hfresh, fun a => ?_⟩
      rw [rowRefs_cons, rowRefs, hcell, hcell, Nat.zero_add, Nat.zero_add]
      exact hrest a
    | cons v vs =>
      obtain ⟨hc, hcs⟩ := ht.of_cons
      have hdec := decColumn_refs c.type h (cache.headD (.word 0))
      have htake := takeArg_refs hc
        (if isRefCounted c.type then h.decRefData (cache.headD (.word 0)) else h)
      have hrow : ∀ a, cellRef a c.type (cache.headD (.word 0)) + rowRefs a cs cache.tail ≤
          h.refs a := by
        intro a
        rw [← rowRefs_cons]
        exact hle a
      have hlive' := fun v' hv' a => by
        have hv := hlive v' hv' a
        rwa [rowRefs_cons] at hv
      -- one cell: the old string is released before the new one is taken
      have hrefs : ∀ a, (takeArg v (if isRefCounted c.type then
            h.decRefData (cache.headD (.word 0)) else h)).2.refs a +
          cellRef a c.type (cache.headD (.word 0)) = h.refs a + cellRef a c.type v.data := by
        intro a
        have hrow' := hrow a
        rw [htake, hdec]
        omega
      have hnext : (takeArg v (if isRefCounted c.type then
          h.decRefData (cache.headD (.word 0)) else h)).2.next = h.next := by
        rw [takeArg_next]
        split_ifs
        · exact decRefData_next h _
        · rfl
      have hf' : (takeArg v (if isRefCounted c.type then
          h.decRefData (cache.headD (.word 0)) else h)).2.Fresh := by
        intro a ha
        rw [hnext] at ha
        have hzero := hf a ha
        have hv := hlive' v List.mem_cons_self a
        have hsum := hrefs a
        rw [← hc] at hv
        omega
      obtain ⟨hfresh, hrest⟩ := ih (colNum + 1) hcs
        (fun c' hc' => hstrings c' (by simpa using hc')) cache.tail hf'
        (fun v' hv' a => by
          have hv := hlive' v' (List.mem_cons_of_mem _ hv') a
          have hsum := hrefs a
          omega)
        (fun a => by
          have hrow' := hrow a
          have hsum := hrefs a
          omega)
      rw [setCells_cons now colNum hc]
      refine ⟨hfresh, fun a => ?_⟩
      have hsum := hrest a
      have hhead := hrefs a
      dsimp only
      rw [rowRefs_cons, rowRefs]
      omega

/-- The references to string `a` in the cells of a table. -/
def cellRefs (a : ℕ) (t : SharedTable) : ℕ :=
  ((List.range t.rows).map fun r =>
    rowRefs a t.columns (t.storage.array.drop (t.storage.offsetToPos r))).sum

variable {columns : List Column} {rs : List (List Data)} {xs : List TableIndex}

def rowsRefs (a : ℕ) (columns : List Column) (rs : List (List Data)) : ℕ :=
  (rs.map (rowRefs a columns)).sum

theorem rowRefs_storage (a : ℕ) (hu : Uniform columns.length rs) {r : ℕ} (hr : r < rs.length) :
    rowRefs a columns (rs.drop r).flatten = rowRefs a columns rs[r] := by
  rw [List.drop_eq_getElem_cons hr, List.flatten_cons]
  exact rowRefs_append a columns (hu _ (List.getElem_mem hr)) _

theorem cellRefs_ofRows (a : ℕ) (hu : Uniform columns.length rs) (xs : List TableIndex) :
    cellRefs a (ofRows columns rs xs) = rowsRefs a columns rs := by
  have hmap : (List.range rs.length).map (fun r => rowRefs a columns
      (rs.flatten.drop (r * columns.length))) = rs.map (rowRefs a columns) := by
    refine List.ext_getElem (by simp) fun r hr _ => ?_
    have hr' : r < rs.length := by simpa using hr
    rw [List.getElem_map, List.getElem_map, List.getElem_range, drop_flatten hu]
    exact rowRefs_storage a hu hr'
  exact congrArg List.sum hmap

theorem rowsRefs_append (a : ℕ) (row : List Data) :
    rowsRefs a columns (rs ++ [row]) = rowsRefs a columns rs + rowRefs a columns row := by
  simp [rowsRefs]

theorem rowsRefs_insertIdx (a : ℕ) {r : ℕ} (hr : r ≤ rs.length) (row : List Data) :
    rowsRefs a columns (rs.insertIdx r row) = rowsRefs a columns rs + rowRefs a columns row := by
  have hperm := (List.perm_insertIdx row rs hr).map (rowRefs a columns)
  have hsum := hperm.sum_eq
  rw [List.map_cons, List.sum_cons] at hsum
  rw [rowsRefs, hsum, rowsRefs, Nat.add_comm]

theorem rowsRefs_eraseIdx (a : ℕ) (columns : List Column) {r : ℕ} (hr : r < rs.length) :
    rowsRefs a columns (rs.eraseIdx r) + rowRefs a columns rs[r] = rowsRefs a columns rs := by
  have hperm := (List.getElem_cons_eraseIdx_perm hr).map (rowRefs a columns)
  have hsum := hperm.sum_eq
  rw [List.map_cons, List.sum_cons] at hsum
  rw [rowsRefs, rowsRefs, ← hsum, Nat.add_comm]

theorem rowsRefs_set (a : ℕ) (columns : List Column) {r : ℕ} (hr : r < rs.length)
    (row : List Data) :
    rowsRefs a columns (rs.set r row) + rowRefs a columns rs[r] =
      rowsRefs a columns rs + rowRefs a columns row := by
  have hlen : r < (rs.set r row).length := by rwa [List.length_set]
  have hnew := rowsRefs_eraseIdx a columns hlen
  have hold := rowsRefs_eraseIdx a columns hr
  rw [List.eraseIdx_set_eq, List.getElem_set_self] at hnew
  omega

theorem rowRefs_le (a : ℕ) (columns : List Column) {r : ℕ} (hr : r < rs.length) :
    rowRefs a columns rs[r] ≤ rowsRefs a columns rs := by
  have hsum := rowsRefs_eraseIdx a columns hr
  omega

theorem rowRefs_set (a : ℕ) (cs : List Column) {row : List Data} {c : ℕ} (hc : c < cs.length)
    (hlen : row.length = cs.length) (d : Data) :
    rowRefs a cs (row.set c d) + cellRef a cs[c].type (row.getD c (.word 0)) =
      rowRefs a cs row + cellRef a cs[c].type d := by
  induction cs generalizing row c with
  | nil => cases hc
  | cons c₀ cs ih =>
    cases row with
    | nil => cases hlen
    | cons d₀ row =>
      have hrow : row.length = cs.length := by simpa using hlen
      cases c with
      | zero =>
        simp only [List.set_cons_zero, rowRefs, List.getElem_cons_zero, List.getD_cons_zero]
        omega
      | succ c =>
        have hrest := ih (Nat.lt_of_succ_lt_succ hc) hrow
        simp only [List.set_cons_succ, rowRefs, List.getElem_cons_succ, List.getD_cons_succ]
        omega

structure Exchanged (h : StringHeap) (t : SharedTable) (h' : StringHeap) (t' : SharedTable) :
    Prop where
  laid : t'.Laid
  fresh : h'.Fresh
  balance : ∀ a, h'.refs a + cellRefs a t = h.refs a + cellRefs a t'

theorem Exchanged.refl {h : StringHeap} {t : SharedTable} (ht : t.Laid) (hf : h.Fresh) :
    Exchanged h t h t := ⟨ht, hf, fun _ => rfl⟩

theorem exchanged_ofRows {h h' : StringHeap} (hu : Uniform columns.length rs)
    {rs' : List (List Data)} (hu' : Uniform columns.length rs') (xs xs' : List TableIndex)
    (hf' : h'.Fresh)
    (hbal : ∀ a, h'.refs a + rowsRefs a columns rs = h.refs a + rowsRefs a columns rs') :
    Exchanged h (ofRows columns rs xs) h' (ofRows columns rs' xs') := by
  refine ⟨laid_ofRows xs' hu', hf', fun a => ?_⟩
  rw [cellRefs_ofRows a hu, cellRefs_ofRows a hu']
  exact hbal a

theorem fresh_of_le {h h' : StringHeap} (hf : h.Fresh) (hnext : h'.next = h.next)
    (hle : ∀ a, h'.refs a ≤ h.refs a) : h'.Fresh := by
  intro a ha
  have hzero := hf a (hnext ▸ ha)
  have := hle a
  omega

section
variable {h h' : StringHeap} {t' : SharedTable} {b : Bool} (hu : Uniform columns.length rs)
  (hf : h.Fresh) (hcells : ∀ a, rowsRefs a columns rs ≤ h.refs a)
include hu hf

theorem appendRow_exchanged {now : ℕ → BitVec 64} {vargs : List Dynamic}
    (hlive : ∀ v ∈ vargs, Live h v)
    (hp : appendRow now vargs h (ofRows columns rs xs) = some (b, h', t')) :
    Exchanged h (ofRows columns rs xs) h' t' := by
  rw [appendRow_ofRows] at hp
  split_ifs at hp with hv
  · obtain ⟨xs', -, hp⟩ := Option.bind_eq_some_iff.mp hp
    cases hp
    have htyped := ((validateArgs_iff _ _).mp hv).2
    obtain ⟨hf', hrefs⟩ := insertCells_refs now 0 htyped hf hlive
    refine exchanged_ofRows hu (hu.append (newRow_length now columns vargs h)) xs xs' hf'
      fun a => ?_
    rw [rowsRefs_append, hrefs, newRow]
    omega
  · cases hp
    exact Exchanged.refl (laid_ofRows xs hu) hf

theorem insertRow_exchanged {now : ℕ → BitVec 64} {r : ℕ} {vargs : List Dynamic}
    (hlive : ∀ v ∈ vargs, Live h v)
    (hp : insertRow now r vargs h (ofRows columns rs xs) = some (b, h', t')) :
    Exchanged h (ofRows columns rs xs) h' t' := by
  rcases Nat.eq_zero_or_pos columns.length with hw | hw
  · -- without columns there is no storage to insert into
    have hnil : rs.flatten.length = 0 := by rw [length_flatten hu, hw, Nat.mul_zero]
    unfold insertRow at hp
    split_ifs at hp
    · cases hp
      exact Exchanged.refl (laid_ofRows xs hu) hf
    · simp [StorageImpl.insert, ofRows, hnil] at hp
  · rw [insertRow_ofRows xs hw hu] at hp
    split_ifs at hp with hv
    · obtain ⟨xs', -, hp⟩ := Option.bind_eq_some_iff.mp hp
      cases hp
      have htyped := ((validateArgs_iff _ _).mp hv.2).2
      obtain ⟨hf', hrefs⟩ := insertCells_refs now 0 htyped hf hlive
      refine exchanged_ofRows hu (hu.insertIdx (newRow_length now columns vargs h) r) xs xs' hf'
        fun a => ?_
      rw [rowsRefs_insertIdx a hv.1.le, hrefs, newRow]
      omega
    · cases hp
      exact Exchanged.refl (laid_ofRows xs hu) hf

include hcells

theorem deleteRow_exchanged {r : ℕ} (hp : deleteRow r h (ofRows columns rs xs) = some (b, h', t')) :
    Exchanged h (ofRows columns rs xs) h' t' := by
  rcases Nat.eq_zero_or_pos columns.length with hw | hw
  · have hnil : rs.flatten.length = 0 := by rw [length_flatten hu, hw, Nat.mul_zero]
    unfold deleteRow at hp
    split_ifs at hp
    · cases hp
      exact Exchanged.refl (laid_ofRows xs hu) hf
    · obtain ⟨cache, -, hp⟩ := Option.bind_eq_some_iff.mp hp
      obtain ⟨xs', -, hp⟩ := Option.bind_eq_some_iff.mp hp
      simp [StorageImpl.remove, ofRows, hnil] at hp
  · rw [deleteRow_ofRows xs hw hu] at hp
    split_ifs at hp with hr
    · obtain ⟨xs', -, hp⟩ := Option.bind_eq_some_iff.mp hp
      cases hp
      have hle : ∀ a, rowRefs a columns (rs.drop r).flatten ≤ h.refs a := fun a => by
        rw [rowRefs_storage a hu hr]
        exact (rowRefs_le a columns hr).trans (hcells a)
      have hrel := releaseCells_refs columns (rs.drop r).flatten hle
      have hf' : (releaseCells columns (rs.drop r).flatten h).Fresh :=
        fresh_of_le hf (releaseCells_next _ _ _) fun a => by
          have := hrel a
          omega
      refine exchanged_ofRows hu (hu.eraseIdx r) xs xs' hf' fun a => ?_
      have hsum := hrel a
      have herase := rowsRefs_eraseIdx a columns hr
      rw [rowRefs_storage a hu hr] at hsum
      omega
    · cases hp
      exact Exchanged.refl (laid_ofRows xs hu) hf

theorem setRow_exchanged {now : ℕ → BitVec 64} {r : ℕ} {vargs : List Dynamic}
    (hlive : ∀ v ∈ vargs, ∀ a, cellRef a v.type v.data + rowsRefs a columns rs ≤ h.refs a)
    (hstrings : r < rs.length ∧ validateArgs columns vargs = true →
      ∀ c ∈ columns.drop vargs.length, c.type ≠ .string)
    (hp : setRow now r vargs h (ofRows columns rs xs) = some (b, h', t')) :
    Exchanged h (ofRows columns rs xs) h' t' := by
  rw [setRow_ofRows xs hu] at hp
  split_ifs at hp with hv
  · obtain ⟨removed, -, hp⟩ := Option.bind_eq_some_iff.mp hp
    obtain ⟨xs', -, hp⟩ := Option.bind_eq_some_iff.mp hp
    cases hp
    have htyped := ((validateArgs_iff _ _).mp hv.2).2
    have hrow : ∀ a, rowRefs a columns (rs.drop r).flatten ≤ rowsRefs a columns rs := fun a => by
      rw [rowRefs_storage a hu hv.1]
      exact rowRefs_le a columns hv.1
    obtain ⟨hf', hrefs⟩ := setCells_refs now 0 htyped (hstrings hv) (rs.drop r).flatten hf
      (fun v hvmem a => (Nat.add_le_add_left (hrow a) _).trans (hlive v hvmem a))
      (fun a => (hrow a).trans (hcells a))
    refine exchanged_ofRows hu (hu.set (newRow_length now columns vargs h) r) xs xs' hf' fun a => ?_
    have hcellsEq := (setCells_eq now 0 htyped (rs.drop r).flatten (rfl : h.next = h.next)).2
    have hsum := hrefs a
    have hset := rowsRefs_set a columns hv.1 (newRow now columns vargs h)
    rw [hcellsEq, rowRefs_storage a hu hv.1] at hsum
    rw [newRow] at hset ⊢
    rw [setHeap]
    omega
  · cases hp
    exact Exchanged.refl (laid_ofRows xs hu) hf

theorem setCellValue_exchanged {r c : ℕ} {v : Dynamic} (hr : r < rs.length)
    (hc : c < columns.length)
    (hlive : ∀ a, cellRef a v.type v.data + rowsRefs a columns rs ≤ h.refs a)
    (hp : setCellValue r c v h (ofRows columns rs xs) = some (b, h', t')) :
    Exchanged h (ofRows columns rs xs) h' t' := by
  rw [setCellValue_ofRows xs hu hr hc] at hp
  split_ifs at hp with ht
  · obtain ⟨removed, -, hp⟩ := Option.bind_eq_some_iff.mp hp
    obtain ⟨xs', -, hp⟩ := Option.bind_eq_some_iff.mp hp
    cases hp
    have hlen : rs[r].length = columns.length := hu _ (List.getElem_mem hr)
    have hnew : (rs[r].set c v.data).length = columns.length := by rw [List.length_set, hlen]
    have hdec := decColumn_refs columns[c].type h (rs[r].getD c (.word 0))
    have htake := takeArg_refs ht (if isRefCounted columns[c].type then
      h.decRefData (rs[r].getD c (.word 0)) else h)
    have hcell : ∀ a, cellRef a columns[c].type (rs[r].getD c (.word 0)) ≤
        rowsRefs a columns rs := by
      intro a
      have hrow := rowRefs_set a columns hc hlen (.word 0)
      have hle := rowRefs_le a columns hr
      have hzero : cellRef a columns[c].type (.word 0) = 0 := by simp [cellRef, Data.strAddr]
      omega
    have hrefs : ∀ a, (setCellHeap columns[c].type (rs[r].getD c (.word 0)) v h).refs a +
        cellRef a columns[c].type (rs[r].getD c (.word 0)) =
          h.refs a + cellRef a columns[c].type v.data := by
      intro a
      have h1 := hcell a
      have h2 := hcells a
      rw [setCellHeap, htake, hdec]
      omega
    have hf' : (setCellHeap columns[c].type (rs[r].getD c (.word 0)) v h).Fresh := by
      intro a ha
      have hnext : (setCellHeap columns[c].type (rs[r].getD c (.word 0)) v h).next = h.next := by
        rw [setCellHeap, takeArg_next]
        split_ifs
        · exact decRefData_next h _
        · rfl
      have hzero := hf a (hnext ▸ ha)
      have hv := hlive a
      have hsum := hrefs a
      rw [← ht] at hv
      omega
    refine exchanged_ofRows hu (hu.set hnew r) xs xs' hf' fun a => ?_
    have hset := rowsRefs_set a columns hr (rs[r].set c v.data)
    have hrow := rowRefs_set a columns hc hlen v.data
    have hsum := hrefs a
    omega
  · cases hp
    exact Exchanged.refl (laid_ofRows xs hu) hf

end

theorem rowsRefs_take_succ (a : ℕ) {n : ℕ} (hn : n < rs.length) :
    rowsRefs a columns (rs.take (n + 1)) =
      rowsRefs a columns (rs.take n) + rowRefs a columns rs[n] := by
  rw [List.take_succ_eq_append_getElem hn, rowsRefs_append]

theorem rowsRefs_take_le (a : ℕ) (columns : List Column) (rs : List (List Data)) (n : ℕ) :
    rowsRefs a columns (rs.take n) ≤ rowsRefs a columns rs := by
  have hsplit : rowsRefs a columns rs =
      rowsRefs a columns (rs.take n) + rowsRefs a columns (rs.drop n) := by
    rw [rowsRefs, rowsRefs, rowsRefs, ← List.sum_append, ← List.map_append, List.take_append_drop]
  omega

theorem releaseRows_succ (t : SharedTable) (n : ℕ) (h : StringHeap) :
    t.releaseRows (n + 1) h = (t.releaseRows n h).bind fun h =>
      (t.storage.get n).bind fun cache => some (releaseCells t.columns cache h) := by
  rw [releaseRows, List.range_succ, List.foldlM_append]
  simp only [List.foldlM_cons, List.foldlM_nil, bind_pure]
  rfl

theorem clear_exchanged {h : StringHeap} (xs : List TableIndex) (hu : Uniform columns.length rs)
    (hf : h.Fresh) (hcells : ∀ a, rowsRefs a columns rs ≤ h.refs a) :
    ∃ h' t', clear h (ofRows columns rs xs) = some (h', t') ∧
      Exchanged h (ofRows columns rs xs) h' t' ∧ t'.rows = 0 := by
  have hloop : ∀ n ≤ rs.length, ∃ h', (ofRows columns rs xs).releaseRows n h = some h' ∧
      h'.next = h.next ∧ ∀ a, h'.refs a + rowsRefs a columns (rs.take n) = h.refs a := by
    intro n
    induction n with
    | zero => exact fun _ => ⟨h, rfl, rfl, fun a => by simp [rowsRefs]⟩
    | succ n ih =>
      intro hn
      obtain ⟨h₁, hrun, hnext, hrefs⟩ := ih (by omega)
      have hn' : n < rs.length := by omega
      have hle : ∀ a, rowRefs a columns (rs.drop n).flatten ≤ h₁.refs a := by
        intro a
        have htake := rowsRefs_take_le a columns rs (n + 1)
        rw [rowsRefs_take_succ a hn'] at htake
        have hsum := hrefs a
        have hall := hcells a
        rw [rowRefs_storage a hu hn']
        omega
      have hrel := releaseCells_refs columns (rs.drop n).flatten hle
      refine ⟨releaseCells columns (rs.drop n).flatten h₁, ?_, ?_, ?_⟩
      · rw [releaseRows_succ, hrun, Option.bind_some, get_ofRows xs hu hn'.le]
        rfl
      · rw [releaseCells_next, hnext]
      · intro a
        have hsum := hrefs a
        have hrow := hrel a
        rw [rowRefs_storage a hu hn'] at hrow
        rw [rowsRefs_take_succ a hn']
        omega
  obtain ⟨h', hrun, hnext, hrefs⟩ := hloop rs.length le_rfl
  rw [List.take_length] at hrefs
  refine ⟨h', ⟨0, [], ⟨0, []⟩, []⟩, ?_, ⟨⟨rfl, rfl⟩, ?_, ?_⟩, rfl⟩
  · have hrun' : (ofRows columns rs xs).releaseRows (ofRows columns rs xs).rows h = some h' := hrun
    rw [clear, hrun']
    rfl
  · refine fresh_of_le hf hnext fun a => ?_
    have := hrefs a
    omega
  · intro a
    rw [cellRefs_ofRows a hu]
    exact hrefs a

theorem cloneCells_refs (full : Bool) (cs : List Column) (row : List Data) {h : StringHeap}
    (hf : h.Fresh) (hle : ∀ a, h.refs a = 0 → rowRefs a cs row = 0) :
    (cloneCells full cs row h).1.length = cs.length ∧ (cloneCells full cs row h).2.Fresh ∧
      ∀ a, (cloneCells full cs row h).2.refs a =
        h.refs a + rowRefs a cs (cloneCells full cs row h).1 := by
  induction cs generalizing row h with
  | nil => exact ⟨rfl, hf, fun a => rfl⟩
  | cons c cs ih =>
    -- what happens to the first cell
    obtain ⟨d, h₁, hhead, hf₁, hgrow, hrefs⟩ : ∃ d h₁,
        cloneCells full (c :: cs) row h =
          (d :: (cloneCells full cs row.tail h₁).1, (cloneCells full cs row.tail h₁).2) ∧
        h₁.Fresh ∧ (∀ a, h.refs a ≤ h₁.refs a) ∧
        ∀ a, h₁.refs a = h.refs a + cellRef a c.type d := by
      cases hc : isRefCounted c.type with
      | false =>
        refine ⟨row.headD (.word 0), h, by simp [cloneCells, hc], hf, fun a => le_rfl, fun a => ?_⟩
        rw [cellRef_column, hc]
        rfl
      | true =>
        cases full with
        | true =>
          have hrefs :
            ∀ a, (((h.alloc (row.headD (.word 0)).text).2.incRef h.next).decRef h.next).refs a =
              h.refs a + cellRef a c.type (.str ⟨h.next, (row.headD (.word 0)).text⟩) := by
            intro a
            have halloc := StringHeap.alloc_refs hf (row.headD (.word 0)).text a
            rw [StringHeap.decRef_refs, StringHeap.incRef_refs, halloc, cellRef_column, hc]
            simp only [cellRef, Data.strAddr, true_and, Option.some.injEq, if_true]
            omega
          refine ⟨_, _, by simp only [cloneCells, hc, if_true]; rfl, ?_, ?_, hrefs⟩
          · intro a ha
            have hlt : h.next < a := ha
            rw [hrefs, hf a hlt.le, cellRef_column, hc]
            simp [cellRef, Data.strAddr, hlt.ne]
          · intro a
            rw [hrefs]
            omega
        | false =>
          have hrefs : ∀ a, (h.incRefData (row.headD (.word 0))).refs a =
              h.refs a + cellRef a c.type (row.headD (.word 0)) := by
            intro a
            rw [h.incRefData_refs, cellRef_column, hc]
            rfl
          refine ⟨_, _, by simp only [cloneCells, hc, if_true, Bool.false_eq_true, if_false],
            ?_, ?_, hrefs⟩
          · intro a ha
            rw [incRefData_next] at ha
            have hzero := hle a (hf a ha)
            rw [rowRefs_cons] at hzero
            rw [hrefs, hf a ha]
            omega
          · intro a
            rw [hrefs]
            omega
    have hle' : ∀ a, h₁.refs a = 0 → rowRefs a cs row.tail = 0 := by
      intro a hzero
      have hrow := hle a (by have := hgrow a; omega)
      rw [rowRefs_cons] at hrow
      omega
    obtain ⟨hlen, hfresh, hrest⟩ := ih row.tail hf₁ hle'
    rw [hhead]
    refine ⟨by simp [hlen], hfresh, fun a => ?_⟩
    have hsum := hrest a
    have hcell := hrefs a
    dsimp only
    rw [rowRefs]
    omega

theorem cloneRows_succ (full : Bool) (columns : List Column) (n : ℕ) (h : StringHeap)
    (storage : StorageImpl) :
    cloneRows full columns (n + 1) h storage = (cloneRows full columns n h storage).bind fun p =>
      (p.2.get n).bind fun row => some ((cloneCells full columns row p.1).2,
        p.2.write (p.2.offsetToPos n) (cloneCells full columns row p.1).1) := by
  rw [cloneRows, List.range_succ, List.foldlM_append]
  simp only [List.foldlM_cons, List.foldlM_nil, bind_pure]
  rfl

theorem clone_exchanged {h : StringHeap} (xs : List TableIndex) (full : Bool)
    (hu : Uniform columns.length rs) (hf : h.Fresh)
    (hcells : ∀ a, rowsRefs a columns rs ≤ h.refs a) :
    ∃ h' t', clone full h (ofRows columns rs xs) = some (h', t') ∧ t'.Laid ∧ h'.Fresh ∧
      ∀ a, h'.refs a = h.refs a + cellRefs a t' := by
  -- after `n` rounds the first `n` rows are copies
  have hloop : ∀ n ≤ rs.length, ∃ h' ns, cloneRows full columns n h ⟨columns.length, rs.flatten⟩ =
        some (h', ⟨columns.length, (ns ++ rs.drop n).flatten⟩) ∧ ns.length = n ∧
      Uniform columns.length ns ∧ h'.Fresh ∧ ∀ a, h'.refs a = h.refs a + rowsRefs a columns ns := by
    intro n
    induction n with
    | zero => exact fun _ => ⟨h, [], rfl, rfl, by simp [Uniform], hf, fun a => by simp [rowsRefs]⟩
    | succ n ih =>
      intro hn
      obtain ⟨h₁, ns, hrun, hlen, hns, hf₁, hrefs⟩ := ih (by omega)
      have hn' : n < rs.length := by omega
      have hmix : Uniform columns.length (ns ++ rs.drop n) := by
        intro row hrow
        rcases List.mem_append.mp hrow with hrow | hrow
        · exact hns row hrow
        · exact hu row (List.mem_of_mem_drop hrow)
      have hget : (ofRows columns (ns ++ rs.drop n) xs).storage.get n =
          some (rs.drop n).flatten := by
        rw [get_ofRows xs hmix (by simp [hlen]), List.drop_left' hlen]
      have hle : ∀ a, h₁.refs a = 0 → rowRefs a columns (rs.drop n).flatten = 0 := by
        intro a hzero
        have hall := (rowRefs_le a columns hn').trans (hcells a)
        have hsum := hrefs a
        rw [rowRefs_storage a hu hn']
        omega
      obtain ⟨hclen, hcf, hcrefs⟩ := cloneCells_refs full columns (rs.drop n).flatten hf₁ hle
      refine ⟨(cloneCells full columns (rs.drop n).flatten h₁).2,
        ns ++ [(cloneCells full columns (rs.drop n).flatten h₁).1], ?_, by simp [hlen],
        hns.append hclen, hcf, ?_⟩
      · have hn'' : n < (ns ++ rs.drop n).length := by simp [hlen]; omega
        have hset := set_flatten hmix hn'' (cloneCells full columns (rs.drop n).flatten h₁).1
        have hrow : (ns ++ rs.drop n).set n (cloneCells full columns (rs.drop n).flatten h₁).1 =
            ns ++ [(cloneCells full columns (rs.drop n).flatten h₁).1] ++ rs.drop (n + 1) := by
          rw [List.set_append_right _ _ hlen.le, hlen, Nat.sub_self, List.drop_eq_getElem_cons hn',
            List.set_cons_zero]
          simp
        have hget' : StorageImpl.get ⟨columns.length, (ns ++ rs.drop n).flatten⟩ n =
            some (rs.drop n).flatten := hget
        rw [cloneRows_succ, hrun, Option.bind_some]
        simp only [hget', Option.bind_some, StorageImpl.write, StorageImpl.offsetToPos, hclen, hset,
          hrow]
      · intro a
        rw [rowsRefs_append, hcrefs, hrefs]
        omega
  obtain ⟨h', ns, hrun, hlen, hns, hf', hrefs⟩ := hloop rs.length le_rfl
  rw [List.drop_length, List.append_nil] at hrun
  refine ⟨h', ofRows columns ns [], ?_, laid_ofRows [] hns, hf', fun a => ?_⟩
  · have hrun' : cloneRows full (ofRows columns rs xs).columns (ofRows columns rs xs).rows h
        (ofRows columns rs xs).storage = some (h', ⟨columns.length, ns.flatten⟩) := hrun
    rw [clone, hrun']
    simp only [ofRows, hlen]
    rfl
  · rw [cellRefs_ofRows a hns]
    exact hrefs a

end SharedTable

end Nkit
