import Nkit.Table.Calls
import Nkit.Table.KeyOrder
import Nkit.Base.RowIndex

/-! Indices over the rows of a table: what `Create` guarantees of an index, and what each
notification does to it.  An index is maintained when its buckets list exactly the rows
with their key; how the buckets are ordered is tracked separately. -/

namespace Nkit
open FlatRows OrderedMap InvertedIndex Renumber

namespace TableIndex

def keyOf (x : TableIndex) (row : List Data) : IndexKey :=
  x.columnNums.map fun col => row.getD col (.word 0)

def keyTypes (columns : List Column) (x : TableIndex) : List ColumnType :=
  x.columnNums.filterMap fun col => columns[col]?.map Column.type

/-- What the rest of the code relies on in an index of these columns. -/
structure Shape (columns : List Column) (x : TableIndex) : Prop where
  size : x.columnNums.length ≤ indexKeyMaxSize
  inside : ∀ col ∈ x.columnNums, col < columns.length
  order : ∃ os : List ItemOrder, os.map ItemOrder.type = x.keyTypes columns ∧ x.lt = itemsBefore os

def withMap (x : TableIndex) (m : List (IndexKey × List ℕ)) : TableIndex := { x with indexMap := m }

variable {columns : List Column} {x : TableIndex}

theorem Shape.strictWeak (hx : Shape columns x) : StrictWeak x.lt := by
  obtain ⟨os, -, hlt⟩ := hx.order
  rw [hlt]
  exact itemsBefore_strictWeak os

theorem Shape.equiv_iff (hx : Shape columns x) (a b : IndexKey) :
    equiv x.lt a b = true ↔ readKeys (x.keyTypes columns) a = readKeys (x.keyTypes columns) b := by
  obtain ⟨os, htypes, hlt⟩ := hx.order
  rw [hlt, itemsBefore_equiv, htypes]

theorem Shape.makeKey (hx : Shape columns x) (row : List Data) :
    Nkit.makeKey x.columnNums row = some (x.keyOf row) := if_pos hx.size

theorem Shape.keyOf_congr (hx : Shape columns x) {row row' : List Data}
    (h : ∀ col < columns.length, row.getD col (.word 0) = row'.getD col (.word 0)) :
    x.keyOf row = x.keyOf row' := List.map_congr_left fun col hcol => h col (hx.inside col hcol)

theorem keyOf_congr_nums {x x' : TableIndex} (h : x'.columnNums = x.columnNums) :
    x'.keyOf = x.keyOf := by
  funext row
  rw [keyOf, keyOf, h]

theorem makeKey_storage (hsize : x.columnNums.length ≤ indexKeyMaxSize)
    (hinside : ∀ col ∈ x.columnNums, col < columns.length) {rs : List (List Data)}
    (hu : Uniform columns.length rs) {r : ℕ} (hr : r < rs.length) :
    Nkit.makeKey x.columnNums (rs.drop r).flatten = some (x.keyOf rs[r]) := by
  have hkey : x.keyOf (rs.drop r).flatten = x.keyOf rs[r] :=
    List.map_congr_left fun col hcol => SharedTable.getD_drop_flatten hu hr (hinside col hcol) _
  rw [← hkey]
  exact if_pos hsize

theorem Shape.makeKey_storage (hx : Shape columns x) {rs : List (List Data)}
    (hu : Uniform columns.length rs) {r : ℕ} (hr : r < rs.length) :
    Nkit.makeKey x.columnNums (rs.drop r).flatten = some (x.keyOf rs[r]) :=
  TableIndex.makeKey_storage hx.size hx.inside hu hr

theorem update_update_id (h : StrictWeak x.lt) (key : IndexKey) (f : List ℕ → List ℕ)
    (m : List (IndexKey × List ℕ)) :
    update x.lt key [] f (update x.lt key [] id m) = update x.lt key [] f m := by
  simpa [mapValues] using update_mapValues_update h key (g := id) (d := []) rfl f m

theorem notifyRowInsert_eq (hx : Shape columns x) {data : List Data} {key : IndexKey}
    (hkey : Nkit.makeKey x.columnNums data = some key) (r : ℕ) :
    x.notifyRowInsert data r false =
      some (x.withMap (update x.lt key [] (· ++ [r]) x.indexMap)) := by
  unfold notifyRowInsert
  rw [hkey]
  simp only [Option.bind_eq_bind, Option.bind_some, Bool.false_eq_true, if_false,
    update_update_id hx.strictWeak]
  rfl

theorem notifyRowInsert_incremental_eq (hx : Shape columns x) {data : List Data} {key : IndexKey}
    (hkey : Nkit.makeKey x.columnNums data = some key) (r : ℕ) :
    x.notifyRowInsert data r true =
      some (x.withMap (update x.lt key [] (fun row => (row ++ [r]).insertionSort (· ≤ ·))
        (mapValues (renumberFrom (· + 1) r) x.indexMap))) := by
  unfold notifyRowInsert
  rw [hkey]
  simp only [Option.bind_eq_bind, Option.bind_some, if_true,
    update_mapValues_update hx.strictWeak key (renumberFrom_nil (· + 1) r)]
  rfl

theorem notifyRowDelete_eq {data : List Data} {key : IndexKey}
    (hkey : Nkit.makeKey x.columnNums data = some key) {r : ℕ}
    (hr : r ∈ bucket x.lt x.indexMap key) (incremental : Bool) :
    x.notifyRowDelete data r incremental =
      some (x.withMap (if incremental then
          mapValues (renumberFrom decrement r)
          (leave x.lt key r (bucket x.lt x.indexMap key) x.indexMap)
        else leave x.lt key r (bucket x.lt x.indexMap key) x.indexMap)) := by
  unfold notifyRowDelete
  rw [hkey]
  simp only [Option.bind_eq_bind, Option.bind_some, get?_of_mem_bucket hr, if_pos hr]
  rfl

theorem decrement_eq (n : ℕ) (hn : 0 < n) : decrement n = n - 1 := if_neg hn.ne'

/-- The index lists the rows under their keys, in ascending order if `ascending` is set. -/
structure Maintained (ascending : Bool) (columns : List Column) (rs : List (List Data))
    (x : TableIndex) : Prop where
  shape : Shape columns x
  seq : IndexesSeq x.lt (rs.map x.keyOf) x.indexMap
  ascending : ascending = true → Ascending x.lt x.indexMap

theorem Shape.withMap (hx : Shape columns x) (m : List (IndexKey × List ℕ)) :
    Shape columns (x.withMap m) := ⟨hx.size, hx.inside, hx.order⟩

theorem Shape.withRefer (hx : Shape columns x) (is : Bool) :
    Shape columns (x.notifyReferToTable is) := ⟨hx.size, hx.inside, hx.order⟩

variable {asc : Bool} {rs : List (List Data)}

theorem Maintained.withRefer (hx : Maintained asc columns rs x) (is : Bool) :
    Maintained asc columns rs (x.notifyReferToTable is) :=
      ⟨hx.shape.withRefer is, hx.seq, hx.ascending⟩

theorem Maintained.key_at (x : TableIndex) {r : ℕ} (hr : r < rs.length) :
    (rs.map x.keyOf)[r]? = some (x.keyOf rs[r]) := by
  rw [List.getElem?_map, List.getElem?_eq_getElem hr, Option.map_some]

theorem Maintained.mem_bucket (hx : Maintained asc columns rs x) {r : ℕ} (hr : r < rs.length) :
    r ∈ bucket x.lt x.indexMap (x.keyOf rs[r]) :=
  Indexes.mem_bucket hx.shape.strictWeak hx.seq (key_at x hr)

theorem Maintained.appendRow (hx : Maintained asc columns rs x) (row : List Data) :
    ∃ x', x.notifyRowInsert row rs.length false = some x' ∧
      Maintained asc columns (rs ++ [row]) x' := by
  refine ⟨_, notifyRowInsert_eq hx.shape (hx.shape.makeKey row) _, hx.shape.withMap _, ?_, ?_⟩
  · have happ := hx.seq.append hx.shape.strictWeak (x.keyOf row)
    rw [List.length_map] at happ
    rw [List.map_append]
    exact happ
  · intro hasc
    have happ := ascending_append hx.shape.strictWeak hx.seq (hx.ascending hasc) (x.keyOf row)
    rwa [List.length_map] at happ

theorem Maintained.insertRow (hx : Maintained asc columns rs x) {r : ℕ} (hr : r < rs.length)
    (hp : ∀ e ∈ x.indexMap, Partitioned r e.2) (row : List Data) :
    ∃ x', x.notifyRowInsert row r true = some x' ∧
      Maintained asc columns (rs.insertIdx r row) x' := by
  refine ⟨_, notifyRowInsert_incremental_eq hx.shape (hx.shape.makeKey row) _,
    hx.shape.withMap _, ?_, ?_⟩
  · have hins := hx.seq.insertIdx hx.shape.strictWeak (by simpa using hr.le) hp (x.keyOf row)
    rw [List.map_insertIdx]
    exact hins
  · exact fun hasc => ascending_insertIdx hx.shape.strictWeak (hx.ascending hasc) r _

theorem Maintained.deleteRow (hx : Maintained asc columns rs x) (hu : Uniform columns.length rs)
    {r : ℕ} (hr : r < rs.length) (hp : ∀ e ∈ x.indexMap, Partitioned r (e.2.erase r)) :
    ∃ x', x.notifyRowDelete (rs.drop r).flatten r true = some x' ∧
      Maintained asc columns (rs.eraseIdx r) x' := by
  refine ⟨_, notifyRowDelete_eq (hx.shape.makeKey_storage hu hr) (hx.mem_bucket hr) true,
    hx.shape.withMap _, ?_, ?_⟩
  · have herase := hx.seq.eraseIdx hx.shape.strictWeak (key_at x hr) decrement_eq hp
    rw [← List.eraseIdx_map]
    exact herase
  · exact fun hasc => ascending_eraseIdx hx.shape.strictWeak hx.seq (hx.ascending hasc)
      (key_at x hr) decrement_eq

theorem Maintained.replaceRow (hx : Maintained false columns rs x) (hu : Uniform columns.length rs)
    {r : ℕ} (hr : r < rs.length) (row data : List Data)
    (hdata : Nkit.makeKey x.columnNums data = some (x.keyOf row)) :
    ∃ x', x.notifyRowDelete (rs.drop r).flatten r false = some x' ∧ ∃ x'',
      x'.notifyRowInsert data r false = some x'' ∧ x'.columnNums = x.columnNums ∧
      Maintained false columns (rs.set r row) x'' := by
  refine ⟨_, notifyRowDelete_eq (hx.shape.makeKey_storage hu hr) (hx.mem_bucket hr) false, ?_⟩
  have hshape := hx.shape.withMap
    (leave x.lt (x.keyOf rs[r]) r (bucket x.lt x.indexMap (x.keyOf rs[r])) x.indexMap)
  refine ⟨_, notifyRowInsert_eq hshape hdata r, rfl, hshape.withMap _, ?_, ?_⟩
  · have hset := hx.seq.set hx.shape.strictWeak (key_at x hr) (x.keyOf row)
    rw [List.map_set]
    exact hset
  · exact fun hasc => absurd hasc (by decide)

theorem getD_set_drop_flatten (hu : Uniform columns.length rs) {r c : ℕ} (hr : r < rs.length)
    (hc : c < columns.length) (d : Data) {col : ℕ} (hcol : col < columns.length) :
    ((rs.drop r).flatten.set c d).getD col (.word 0) = (rs[r].set c d).getD col (.word 0) := by
  have hlen := hu _ (List.getElem_mem hr)
  rw [List.drop_eq_getElem_cons hr, List.flatten_cons, List.set_append_left _ _ (by omega),
    List.getD_append _ _ _ _ (by rw [List.length_set]; omega)]

theorem Shape.makeKey_set_cell (hx : Shape columns x) (hu : Uniform columns.length rs) {r c : ℕ}
    (hr : r < rs.length) (hc : c < columns.length) (d : Data) :
    Nkit.makeKey x.columnNums ((rs.drop r).flatten.set c d) = some (x.keyOf (rs[r].set c d)) := by
  rw [hx.makeKey, hx.keyOf_congr fun col hcol => getD_set_drop_flatten hu hr hc d hcol]

theorem keyOf_set_of_not_indexed {c : ℕ} (hc : x.isIndexedColumn c = false) (row : List Data)
    (d : Data) : x.keyOf (row.set c d) = x.keyOf row := by
  refine List.map_congr_left fun col hcol => ?_
  have hne : c ≠ col := by
    rintro rfl
    simp [isIndexedColumn, hcol] at hc
  rw [List.getD_eq_getElem?_getD, List.getElem?_set_ne hne, ← List.getD_eq_getElem?_getD]

theorem Maintained.replaceCell (hx : Maintained false columns rs x) (hu : Uniform columns.length rs)
    {r c : ℕ} (hr : r < rs.length) (hc : c < columns.length) (d : Data) :
    ∃ x', x.notifyCellDelete c (rs.drop r).flatten r = some x' ∧ ∃ x'',
      x'.notifyCellInsert c ((rs.drop r).flatten.set c d) r = some x'' ∧
      Maintained false columns (rs.set r (rs[r].set c d)) x'' := by
  cases hi : x.isIndexedColumn c with
  | true =>
    have hkey := hx.shape.makeKey_set_cell hu hr hc d
    obtain ⟨x', h1, x'', h2, hcols, h3⟩ := hx.replaceRow hu hr (rs[r].set c d) _ hkey
    have hi' : x'.isIndexedColumn c = true := by rwa [isIndexedColumn, hcols]
    exact ⟨x', by rw [notifyCellDelete, hi, if_pos rfl, h1], x'',
      by rw [notifyCellInsert, hi', if_pos rfl, h2], h3⟩
  | false =>
    refine ⟨x, by simp [notifyCellDelete, hi], x, by simp [notifyCellInsert, hi], hx.shape, ?_,
      fun hasc => absurd hasc (by decide)⟩
    have hkeys : (rs.set r (rs[r].set c d)).map x.keyOf = rs.map x.keyOf := by
      have hlen : r < (rs.map x.keyOf).length := by simpa using hr
      rw [List.map_set, keyOf_set_of_not_indexed hi, ← List.getElem_map x.keyOf (h := hlen),
        List.set_getElem_self]
    rw [hkeys]
    exact hx.seq

theorem Maintained.partitioned (hx : Maintained true columns rs x) (r : ℕ) {e : IndexKey × List ℕ}
    (he : e ∈ x.indexMap) : Partitioned r e.2 := by
  rw [← bucket_of_mem hx.shape.strictWeak hx.seq.sorted he]
  exact partitioned_of_ascending (hx.ascending rfl e.1) r

end TableIndex

end Nkit
