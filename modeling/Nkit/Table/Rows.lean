import Nkit.Table.SharedTable
import Nkit.Base.FlatRows

/-! The flat storage as a list of rows.  `ofRows` is the table whose storage is a given list
of rows, and on such tables every operation is an operation on the list. -/

namespace Nkit
open FlatRows

namespace SharedTable

/-- Arguments of the types of the columns they fill. -/
def Typed (columns : List Column) (vargs : List Dynamic) : Prop :=
  ∀ cv ∈ columns.zip vargs, cv.1.type.toDynamic = cv.2.type

theorem validateArgs_iff (columns : List Column) (vargs : List Dynamic) :
    validateArgs columns vargs = true ↔ vargs ≠ [] ∧ Typed columns vargs := by
  simp [validateArgs, Typed]

theorem Typed.of_cons {c : Column} {cs : List Column} {v : Dynamic} {vs : List Dynamic}
    (h : Typed (c :: cs) (v :: vs)) : c.type.toDynamic = v.type ∧ Typed cs vs :=
  ⟨h (c, v) (by simp), fun cv hcv => h cv (by simp [hcv])⟩

theorem typed_nil (columns : List Column) : Typed columns [] := by simp [Typed]

theorem insertCells_length (now : ℕ → BitVec 64) (colNum : ℕ) (cs : List Column) (vs : List Dynamic)
    (h : StringHeap) : (insertCells now colNum cs vs h).1.length = cs.length := by
  induction cs generalizing colNum vs h with
  | nil => rfl
  | cons c cs ih =>
    cases vs with
    | nil => simp [insertCells, ih]
    | cons v vs => simp [insertCells, ih]

/-- On typed arguments the loop of `AppendRow` meets no mismatch. -/
theorem appendCells_eq (now : ℕ → BitVec 64) (colNum : ℕ) {cs : List Column} {vs : List Dynamic}
    (ht : Typed cs vs) (h : StringHeap) :
    appendCells now colNum cs vs h = (true, insertCells now colNum cs vs h) := by
  induction cs generalizing colNum vs h with
  | nil => rfl
  | cons c cs ih =>
    cases vs with
    | nil => simp only [appendCells, insertCells, ih _ (typed_nil cs)]
    | cons v vs =>
      obtain ⟨hc, hcs⟩ := ht.of_cons
      simp only [appendCells, insertCells, ih _ hcs, ne_eq, hc, not_true_eq_false, if_false]

theorem incRefData_next (h : StringHeap) (d : Data) : (h.incRefData d).next = h.next := by
  cases d <;> rfl

theorem decRefData_next (h : StringHeap) (d : Data) : (h.decRefData d).next = h.next := by
  cases d <;> rfl

theorem takeArg_next (v : Dynamic) (h : StringHeap) : (takeArg v h).2.next = h.next := by
  unfold takeArg
  split_ifs
  · exact incRefData_next h v.data
  · rfl

theorem getDefault_congr (type : ColumnType) (now : BitVec 64) {h h' : StringHeap}
    (hn : h.next = h'.next) : (getDefault type now h).1 = (getDefault type now h').1 ∧
      (getDefault type now h).2.next = (getDefault type now h').2.next := by
  cases type
  case string =>
    simp only [getDefault, Dynamic.getDefault, StringHeap.alloc, isRefCounted_column, if_true,
      StringHeap.incRefData, StringHeap.decRefData, StringHeap.incRef, StringHeap.decRef, hn,
      and_self]
  all_goals exact ⟨rfl, hn⟩

theorem setCells_eq (now : ℕ → BitVec 64) (colNum : ℕ) {cs : List Column} {vs : List Dynamic}
    (ht : Typed cs vs) (cache : List Data) {h h' : StringHeap} (hn : h'.next = h.next) :
    (setCells now colNum cs vs cache h').1 = true ∧
      (setCells now colNum cs vs cache h').2.1 = (insertCells now colNum cs vs h).1 := by
  induction cs generalizing colNum vs cache h h' with
  | nil => exact ⟨rfl, rfl⟩
  | cons c cs ih =>
    cases vs with
    | nil =>
      obtain ⟨hd, hn'⟩ := getDefault_congr c.type (now colNum) hn
      obtain ⟨h1, h2⟩ := ih (colNum + 1) (typed_nil cs) cache.tail hn'
      simp only [setCells, insertCells, h1, h2, hd, and_self]
    | cons v vs =>
      obtain ⟨hc, hcs⟩ := ht.of_cons
      have hn' :
        (takeArg v (if isRefCounted c.type then h'.decRefData (cache.headD (.word 0))
          else h')).2.next
          = (takeArg v h).2.next := by
        rw [takeArg_next, takeArg_next]
        split_ifs
        · rw [decRefData_next, hn]
        · exact hn
      obtain ⟨h1, h2⟩ := ih (colNum + 1) hcs cache.tail hn'
      have hne : ¬ (c.type.toDynamic ≠ v.type) := not_not_intro hc
      simp only [setCells, insertCells, if_neg hne, h1, h2, true_and]
      rfl

/-- The references after the loop of `SetRow`. -/
def setHeap (now : ℕ → BitVec 64) (columns : List Column) (vargs : List Dynamic) (cache : List Data)
    (h : StringHeap) : StringHeap := (setCells now 0 columns vargs cache h).2.2

/-- The references after `SetCellValue` replaces cell `d`. -/
def setCellHeap (type : ColumnType) (d : Data) (v : Dynamic) (h : StringHeap) : StringHeap :=
  (takeArg v (if isRefCounted type then h.decRefData d else h)).2

def ofRows (columns : List Column) (rs : List (List Data)) (xs : List TableIndex) : SharedTable :=
  { rows := rs.length, columns, storage := ⟨columns.length, rs.flatten⟩, tableIndexSet := xs }

def newRow (now : ℕ → BitVec 64) (columns : List Column) (vargs : List Dynamic) (h : StringHeap) :
    List Data := (insertCells now 0 columns vargs h).1

theorem newRow_length (now : ℕ → BitVec 64) (columns : List Column) (vargs : List Dynamic)
    (h : StringHeap) : (newRow now columns vargs h).length = columns.length :=
  insertCells_length now 0 columns vargs h

variable {columns : List Column} {rs : List (List Data)} (xs : List TableIndex)

theorem get_ofRows (hu : Uniform columns.length rs) {r : ℕ} (hr : r ≤ rs.length) :
    (ofRows columns rs xs).storage.get r = some (rs.drop r).flatten := by
  have hle : r * columns.length ≤ rs.flatten.length := by
    rw [length_flatten hu]
    exact Nat.mul_le_mul_right _ hr
  simp only [StorageImpl.get, StorageImpl.offsetToPos, ofRows, if_pos hle, drop_flatten hu]

theorem flatten_ne_nil (hw : 0 < columns.length) (hu : Uniform columns.length rs) {r : ℕ}
    (hr : r < rs.length) : ¬ rs.flatten.length = 0 := by
  rw [length_flatten hu]
  have : 0 < rs.length := by omega
  exact (Nat.mul_pos this hw).ne'

theorem getD_drop_flatten (hu : Uniform columns.length rs) {r : ℕ} (hr : r < rs.length) {col : ℕ}
    (hcol : col < columns.length) (d : Data) :
    (rs.drop r).flatten.getD col d = rs[r].getD col d := by
  rw [List.drop_eq_getElem_cons hr, List.flatten_cons]
  exact List.getD_append _ _ _ _ (by rw [hu _ (List.getElem_mem hr)]; exact hcol)

/-- The condition on which `InsertRow` and `SetRow` turn a call down. -/
theorem rejects_ofRows (r : ℕ) (vargs : List Dynamic) :
    (decide ((ofRows columns rs xs).height ≤ r) || !(ofRows columns rs xs).validate vargs) =
      !decide (r < rs.length ∧ validateArgs columns vargs = true) := by
  by_cases hr : r < rs.length
  · simp [height, validate, ofRows, hr, Nat.not_le.mpr hr]
  · simp [height, validate, ofRows, hr, Nat.not_lt.mp hr]

theorem appendRow_ofRows (now : ℕ → BitVec 64)
    (vargs : List Dynamic) (h : StringHeap) :
    appendRow now vargs h (ofRows columns rs xs) =
      if validateArgs columns vargs then
        (xs.mapM (TableIndex.notifyRowInsert (newRow now columns vargs h) rs.length false)).bind
          fun xs => some (true, (insertCells now 0 columns vargs h).2,
            ofRows columns (rs ++ [newRow now columns vargs h]) xs)
      else some (false, h, ofRows columns rs xs) := by
  unfold appendRow
  cases hv : validateArgs columns vargs with
  | false => simp [validate, ofRows, hv]
  | true =>
    have ht := ((validateArgs_iff _ _).mp hv).2
    have hlen := newRow_length now columns vargs h
    simp only [validate, ofRows, hv, Bool.not_true, Bool.false_eq_true, if_false, if_true,
      appendCells_eq now 0 ht, newRow] at hlen ⊢
    have harr : ∀ cells : List Data, cells.length = columns.length →
        (StorageImpl.extend ⟨columns.length, rs.flatten⟩).write rs.flatten.length cells =
          ⟨columns.length, (rs ++ [cells]).flatten⟩ := by
      intro cells hc
      simp [StorageImpl.extend, StorageImpl.write, hc]
    rw [harr _ hlen]
    simp only [List.length_append, List.length_singleton]
    rfl

theorem deleteRow_ofRows (hw : 0 < columns.length) (hu : Uniform columns.length rs) (r : ℕ)
    (h : StringHeap) :
    deleteRow r h (ofRows columns rs xs) =
      if r < rs.length then
        (xs.mapM (TableIndex.notifyRowDelete (rs.drop r).flatten r true)).bind
          fun xs => some (true, releaseCells columns (rs.drop r).flatten h,
            ofRows columns (rs.eraseIdx r) xs)
      else some (false, h, ofRows columns rs xs) := by
  unfold deleteRow
  by_cases hr : r < rs.length
  · have hnr : ¬ (ofRows columns rs xs).height ≤ r := by simpa [height, ofRows] using hr
    have hrem : (ofRows columns rs xs).storage.remove r =
        some ⟨columns.length, (rs.eraseIdx r).flatten⟩ := by
      simp only [StorageImpl.remove, StorageImpl.offsetToPos, ofRows,
        if_neg (flatten_ne_nil hw hu hr), erase_flatten hu]
    rw [if_neg hnr, if_pos hr, get_ofRows xs hu hr.le, hrem]
    simp only [ofRows, List.length_eraseIdx_of_lt hr]
    rfl
  · have hnr : (ofRows columns rs xs).height ≤ r := by simpa [height, ofRows] using hr
    rw [if_pos hnr, if_neg hr]

theorem setRow_ofRows (hu : Uniform columns.length rs) (now : ℕ → BitVec 64) (r : ℕ)
    (vargs : List Dynamic) (h : StringHeap) :
    setRow now r vargs h (ofRows columns rs xs) =
      if r < rs.length ∧ validateArgs columns vargs = true then
        (xs.mapM (TableIndex.notifyRowDelete (rs.drop r).flatten r false)).bind fun removed =>
          (removed.mapM (TableIndex.notifyRowInsert (newRow now columns vargs h) r false)).bind
            fun xs => some (true, setHeap now columns vargs (rs.drop r).flatten h,
              ofRows columns (rs.set r (newRow now columns vargs h)) xs)
      else some (false, h, ofRows columns rs xs) := by
  unfold setRow
  by_cases hrv : r < rs.length ∧ validateArgs columns vargs = true
  · obtain ⟨hr, hv⟩ := hrv
    obtain ⟨hok, hcells⟩ := setCells_eq now 0 ((validateArgs_iff _ _).mp hv).2
      (rs.drop r).flatten (rfl : h.next = h.next)
    have hset : setCells now 0 columns vargs (rs.drop r).flatten h =
        (true, newRow now columns vargs h, setHeap now columns vargs (rs.drop r).flatten h) :=
      Prod.ext hok (Prod.ext hcells rfl)
    have hwrite : (ofRows columns rs xs).storage.write
        ((ofRows columns rs xs).storage.offsetToPos r) (newRow now columns vargs h) =
          ⟨columns.length, (rs.set r (newRow now columns vargs h)).flatten⟩ := by
      simp only [StorageImpl.write, StorageImpl.offsetToPos, ofRows, newRow_length,
        set_flatten hu hr]
    have hcols : (ofRows columns rs xs).columns = columns := rfl
    rw [rejects_ofRows, decide_eq_true (⟨hr, hv⟩ : _ ∧ _), if_pos (⟨hr, hv⟩ : _ ∧ _),
      get_ofRows xs hu hr.le, hcols]
    simp only [Bool.not_true, Bool.false_eq_true, if_false, Option.bind_eq_bind, Option.bind_some,
      hset, hwrite]
    simp only [ofRows, List.length_set]
  · rw [rejects_ofRows, decide_eq_false hrv, if_neg hrv, Bool.not_false, if_pos rfl]

theorem insertRow_ofRows (hw : 0 < columns.length) (hu : Uniform columns.length rs)
    (now : ℕ → BitVec 64) (r : ℕ) (vargs : List Dynamic) (h : StringHeap) :
    insertRow now r vargs h (ofRows columns rs xs) =
      if r < rs.length ∧ validateArgs columns vargs = true then
        (xs.mapM (TableIndex.notifyRowInsert (newRow now columns vargs h) r true)).bind
          fun xs => some (true, (insertCells now 0 columns vargs h).2,
            ofRows columns (rs.insertIdx r (newRow now columns vargs h)) xs)
      else some (false, h, ofRows columns rs xs) := by
  unfold insertRow
  by_cases hrv : r < rs.length ∧ validateArgs columns vargs = true
  · obtain ⟨hr, hv⟩ := hrv
    have hins : (ofRows columns rs xs).storage.insert r (newRow now columns vargs h) =
        some ⟨columns.length, (rs.insertIdx r (newRow now columns vargs h)).flatten⟩ := by
      have htake : (newRow now columns vargs h).take columns.length =
          newRow now columns vargs h := by
        rw [← newRow_length now columns vargs h, List.take_length]
      simp only [StorageImpl.insert, StorageImpl.offsetToPos, ofRows,
        if_neg (flatten_ne_nil hw hu hr), htake, insert_flatten hu hr.le]
    have hcols : (ofRows columns rs xs).columns = columns := rfl
    rw [rejects_ofRows, decide_eq_true (⟨hr, hv⟩ : _ ∧ _), if_pos (⟨hr, hv⟩ : _ ∧ _), hcols]
    change ((ofRows columns rs xs).storage.insert r (newRow now columns vargs h)).bind _ = _
    rw [hins]
    simp only [ofRows, List.length_insertIdx_of_le_length hr.le]
    rfl
  · rw [rejects_ofRows, decide_eq_false hrv, if_neg hrv, Bool.not_false, if_pos rfl]

theorem setCellValue_ofRows (hu : Uniform columns.length rs) {r c : ℕ} (hr : r < rs.length)
    (hc : c < columns.length) (v : Dynamic) (h : StringHeap) :
    setCellValue r c v h (ofRows columns rs xs) =
      if columns[c].type.toDynamic = v.type then
        (xs.mapM (TableIndex.notifyCellDelete c (rs.drop r).flatten r)).bind fun removed =>
          (removed.mapM (TableIndex.notifyCellInsert c ((rs.drop r).flatten.set c v.data) r)).bind
            fun xs => some (true, setCellHeap columns[c].type (rs[r].getD c (.word 0)) v h,
              ofRows columns (rs.set r (rs[r].set c v.data)) xs)
      else some (false, h, ofRows columns rs xs) := by
  have hcond : (decide ((ofRows columns rs xs).height ≤ r) &&
      decide ((ofRows columns rs xs).columns.length ≤ c)) = false := by
    simp [height, ofRows, Nat.not_le.mpr hr]
  have hcol : (ofRows columns rs xs).columns[c]? = some columns[c] := List.getElem?_eq_getElem hc
  unfold setCellValue
  rw [hcond, hcol]
  simp only [Bool.false_eq_true, if_false, Option.bind_eq_bind, Option.bind_some]
  by_cases ht : columns[c].type.toDynamic = v.type
  · have hlen : rs[r].length = columns.length := hu _ (List.getElem_mem hr)
    have hcell : (rs.drop r).flatten[c]? = some (rs[r].getD c (.word 0)) := by
      rw [List.drop_eq_getElem_cons hr, List.flatten_cons, List.getElem?_append_left (by omega),
        List.getD_eq_getElem _ _ (by omega), List.getElem?_eq_getElem (by omega)]
    have hwrite : (ofRows columns rs xs).storage.write
        ((ofRows columns rs xs).storage.offsetToPos r + c) [v.data] =
          ⟨columns.length, (rs.set r (rs[r].set c v.data)).flatten⟩ := by
      simp only [StorageImpl.write, StorageImpl.offsetToPos, ofRows, List.length_singleton,
        set_cell_flatten hu hr hc]
    rw [if_neg (not_not_intro ht), if_pos ht, get_ofRows xs hu hr.le]
    simp only [Option.bind_some, hcell, takeArg, hwrite]
    simp only [ofRows, List.length_set]
    rfl
  · rw [if_pos ht, if_neg ht]

theorem getCellValue_ofRows (hu : Uniform columns.length rs) (r c : ℕ) (h : StringHeap) :
    getCellValue (ofRows columns rs xs) r c h =
      if hrc : r < rs.length ∧ c < columns.length then
        some (⟨columns[c].type, rs[r].getD c (.word 0)⟩,
          if isRefCounted columns[c].type then h.incRefData (rs[r].getD c (.word 0)) else h)
      else some (Dynamic.none, h) := by
  unfold getCellValue
  by_cases hr : r < rs.length
  · rw [if_neg (by simpa [height, ofRows] using hr), get_ofRows xs hu hr.le]
    by_cases hc : c < columns.length
    · have hcol : (ofRows columns rs xs).columns[c]? = some columns[c] :=
        List.getElem?_eq_getElem hc
      rw [dif_pos ⟨hr, hc⟩, hcol]
      simp only [Option.bind_eq_bind, Option.bind_some, getD_drop_flatten hu hr hc]
    · have hcol : (ofRows columns rs xs).columns[c]? = none :=
        List.getElem?_eq_none (Nat.le_of_not_lt hc)
      rw [dif_neg fun h => hc h.2, hcol]
  · rw [if_pos (by simpa [height, ofRows] using hr), dif_neg fun h => hr h.1]

/-- The storage has one slot for each cell. -/
structure Laid (t : SharedTable) : Prop where
  growFactor_eq : t.storage.growFactor = t.width
  size_eq : t.storage.array.length = t.height * t.width

theorem Laid.exists_rows {t : SharedTable} (ht : t.Laid) :
    ∃ rs, t = ofRows t.columns rs t.tableIndexSet ∧ Uniform t.columns.length rs := by
  obtain ⟨rs, hu, hlen, hflat⟩ := FlatRows.exists_rows ht.size_eq
  refine ⟨rs, ?_, hu⟩
  obtain ⟨rows, cols, ⟨growFactor, array⟩, xs⟩ := t
  have hgrow : growFactor = cols.length := ht.growFactor_eq
  have hrows : rs.length = rows := hlen
  have harray : rs.flatten = array := hflat
  simp only [ofRows, hgrow, hrows, harray]

theorem laid_ofRows (hu : Uniform columns.length rs) : (ofRows columns rs xs).Laid :=
  ⟨rfl, length_flatten hu⟩

end SharedTable
end Nkit
