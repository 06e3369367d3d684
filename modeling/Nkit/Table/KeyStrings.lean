import Nkit.Table.RefCounts
import Nkit.Table.IndexRuns

/-! String pointers in the keys of an index.  A key is copied from the row that opened its
bucket and takes no reference, so it is good only while some cell holds its strings. -/

namespace Nkit
open FlatRows OrderedMap InvertedIndex Renumber

namespace TableIndex

/-- The strings a key of this index points to. -/
def keyStrings (columns : List Column) (x : TableIndex) (key : IndexKey) : List ℕ :=
  (x.columnNums.zip key).filterMap fun (col, d) =>
    if columns[col]?.map Column.type = some .string then d.strAddr else none

/-- The key stays in the index when row `r`, which has the key `rowKey`, is taken out. -/
def Survives (x : TableIndex) (rowKey : IndexKey) (r : ℕ) (e : IndexKey × List ℕ) : Prop :=
  ¬ (e.2 = [r] ∧ equiv x.lt rowKey e.1 = true)

instance (x : TableIndex) (rowKey : IndexKey) (r : ℕ) (e : IndexKey × List ℕ) :
    Decidable (x.Survives rowKey r e) := inferInstanceAs (Decidable (¬ _))

end TableIndex

/-- Some cell of row `i` holds string `a`. -/
def SharedTable.RowHolds (t : SharedTable) (i a : ℕ) : Prop :=
  0 < rowRefs a t.columns (t.storage.array.drop (t.storage.offsetToPos i))

/-- A row other than `r` holds string `a`. -/
def SharedTable.OtherRowHolds (t : SharedTable) (r a : ℕ) : Prop :=
  ∃ i < t.height, i ≠ r ∧ t.RowHolds i a

instance (t : SharedTable) (i a : ℕ) :
    Decidable (t.RowHolds i a) := inferInstanceAs (Decidable (_ < _))

instance (t : SharedTable) (r a : ℕ) : Decidable (t.OtherRowHolds r a) :=
  inferInstanceAs (Decidable (∃ i < t.height, i ≠ r ∧ t.RowHolds i a))

/-- Every string pointer in a key that stays is held by another row or by what is written. -/
def Call.Retains : Call → TableState → Prop
  | deleteRow r, (_, t) => r < t.height →
      ∀ x ∈ t.tableIndexSet, ∀ e ∈ x.indexMap, x.Survives (t.rowKey x r) r e →
        ∀ a ∈ x.keyStrings t.columns e.1, t.OtherRowHolds r a
  | setRow _ r vargs, (_, t) => r < t.height ∧ t.validate vargs = true →
      ∀ x ∈ t.tableIndexSet, ∀ e ∈ x.indexMap, x.Survives (t.rowKey x r) r e →
        ∀ a ∈ x.keyStrings t.columns e.1,
          t.OtherRowHolds r a ∨ 0 < rowRefs a t.columns (vargs.map Dynamic.data)
  | setCellValue r c v, (_, t) => t.columns[c]?.map (fun col => col.type.toDynamic) = some v.type →
      ∀ x ∈ t.tableIndexSet, ∀ e ∈ x.indexMap,
        (x.isIndexedColumn c = true → x.Survives (t.rowKey x r) r e) →
        ∀ a ∈ x.keyStrings t.columns e.1, t.OtherRowHolds r a ∨
          0 < rowRefs a t.columns ((t.storage.array.drop (t.storage.offsetToPos r)).set c v.data)
  | _, _ => True

def Action.Retains : Action → TableState → Prop
  | call c, s => c.Retains s
  | createIndex _, _ => True

/-- Every string pointer in a key of the index is held by some cell. -/
def TableIndex.KeysHeld (t : SharedTable) (x : TableIndex) : Prop :=
  ∀ e ∈ x.indexMap, ∀ a ∈ x.keyStrings t.columns e.1, ∃ i < t.height, t.RowHolds i a

namespace TableIndex

variable {columns : List Column} {rs : List (List Data)} {x : TableIndex}

theorem rowRefs_pos (a : ℕ) {cs : List Column} {row : List Data} {col : ℕ}
    (hcol : cs[col]?.map Column.type = some .string) (hlen : row.length = cs.length)
    (ha : (row.getD col (.word 0)).strAddr = some a) : 0 < rowRefs a cs row := by
  induction cs generalizing row col with
  | nil => cases hcol
  | cons c cs ih =>
    cases row with
    | nil => cases hlen
    | cons d row =>
      cases col with
      | zero =>
        have hc : c.type = .string := Option.some.inj hcol
        have hd : d.strAddr = some a := ha
        have hcell : cellRef a c.type d = 1 := by simp [cellRef, hc, hd, ColumnType.toDynamic]
        rw [rowRefs]
        omega
      | succ col =>
        have hrest := ih (by simpa using hcol) (by simpa using hlen) (by simpa using ha)
        rw [rowRefs]
        omega

theorem keyStrings_keyOf (x : TableIndex) {row : List Data} (hlen : row.length = columns.length)
    {a : ℕ} (ha : a ∈ x.keyStrings columns (x.keyOf row)) : 0 < rowRefs a columns row := by
  obtain ⟨⟨col, d⟩, hmem, hd⟩ := List.mem_filterMap.mp ha
  have hpair : d = row.getD col (.word 0) := by
    rw [keyOf, ← List.map_prod_left_eq_zip] at hmem
    obtain ⟨c, -, heq⟩ := List.mem_map.mp hmem
    cases heq
    rfl
  simp only at hd
  split_ifs at hd with hcol
  rw [hpair] at hd
  exact rowRefs_pos a hcol hlen hd

/-- A sorted index whose keys point to strings in `H` only. -/
structure KeysIn (H : ℕ → Prop) (columns : List Column) (x : TableIndex) : Prop where
  shape : Shape columns x
  sorted : Sorted x.lt x.indexMap
  keys : ∀ e ∈ x.indexMap, ∀ a ∈ x.keyStrings columns e.1, H a

theorem KeysIn.mono {H H' : ℕ → Prop} (hx : KeysIn H columns x) (hH : ∀ a, H a → H' a) :
    KeysIn H' columns x := ⟨hx.shape, hx.sorted, fun e he a ha => hH a (hx.keys e he a ha)⟩

theorem KeysIn.insert {H : ℕ → Prop} (hx : KeysIn H columns x) {data row : List Data}
    (hkey : Nkit.makeKey x.columnNums data = some (x.keyOf row))
    (hrow : ∀ a ∈ x.keyStrings columns (x.keyOf row), H a) {r : ℕ} {incremental : Bool}
    {x' : TableIndex} (h : x.notifyRowInsert data r incremental = some x') :
    KeysIn H columns x' := by
  have hkeys : ∀ (f : List ℕ → List ℕ) (m : List (IndexKey × List ℕ)),
      (∀ e ∈ m, ∀ a ∈ x.keyStrings columns e.1, H a) →
      ∀ e ∈ update x.lt (x.keyOf row) [] f m, ∀ a ∈ x.keyStrings columns e.1, H a := by
    intro f m hm e he a ha
    rcases mem_keys_update he with hnew | ⟨e', he', hold⟩
    · rw [hnew] at ha
      exact hrow a ha
    · rw [← hold] at ha
      exact hm e' he' a ha
  cases incremental with
  | false =>
    rw [notifyRowInsert_eq hx.shape hkey] at h
    cases h
    exact ⟨hx.shape.withMap _, update_sorted hx.shape.strictWeak hx.sorted _ _ _, hkeys _ _ hx.keys⟩
  | true =>
    rw [notifyRowInsert_incremental_eq hx.shape hkey] at h
    cases h
    refine ⟨hx.shape.withMap _,
      update_sorted hx.shape.strictWeak (mapValues_sorted hx.sorted _) _ _ _, hkeys _ _ ?_⟩
    intro e he a ha
    obtain ⟨e', he', rfl⟩ := List.mem_map.mp he
    exact hx.keys e' he' a ha

theorem notifyRowDelete_inv {data : List Data} {key : IndexKey}
    (hkey : Nkit.makeKey x.columnNums data = some key) {r : ℕ} {incremental : Bool}
    {x' : TableIndex} (h : x.notifyRowDelete data r incremental = some x') :
    r ∈ bucket x.lt x.indexMap key := by
  unfold notifyRowDelete at h
  rw [hkey] at h
  cases hget : get? x.lt key x.indexMap with
  | none => simp [hget] at h
  | some rows =>
    simp only [hget, Option.bind_eq_bind, Option.bind_some] at h
    by_cases hmem : r ∈ rows
    · rw [bucket, hget]
      exact hmem
    · rw [if_neg hmem] at h
      cases h

theorem KeysIn.delete {H H' : ℕ → Prop} (hx : KeysIn H columns x) {data row : List Data}
    (hkey : Nkit.makeKey x.columnNums data = some (x.keyOf row)) {r : ℕ}
    (hsurvive : ∀ e ∈ x.indexMap, x.Survives (x.keyOf row) r e →
      ∀ a ∈ x.keyStrings columns e.1, H' a) {incremental : Bool} {x' : TableIndex}
    (h : x.notifyRowDelete data r incremental = some x') : KeysIn H' columns x' := by
  have hr := notifyRowDelete_inv hkey h
  rw [notifyRowDelete_eq hkey hr] at h
  cases h
  have hsorted := leave_sorted hx.shape.strictWeak hx.sorted (x.keyOf row) r
    (bucket x.lt x.indexMap (x.keyOf row))
  have hkeys : ∀ e ∈ leave x.lt (x.keyOf row) r (bucket x.lt x.indexMap (x.keyOf row)) x.indexMap,
      ∀ a ∈ x.keyStrings columns e.1, H' a := by
    intro e he a ha
    obtain ⟨e', he', hsame, hstay⟩ := mem_leave hx.shape.strictWeak hx.sorted hr he
    rw [← hsame] at ha
    exact hsurvive e' he' hstay a ha
  cases incremental with
  | false => exact ⟨hx.shape.withMap _, hsorted, hkeys⟩
  | true =>
    refine ⟨hx.shape.withMap _, mapValues_sorted hsorted _, ?_⟩
    intro e he a ha
    obtain ⟨e', he', rfl⟩ := List.mem_map.mp he
    exact hkeys e' he' a ha

theorem KeysIn.replace {H H' : ℕ → Prop} (hx : KeysIn H columns x) {old new row row' : List Data}
    (hold : Nkit.makeKey x.columnNums old = some (x.keyOf row))
    (hnew : Nkit.makeKey x.columnNums new = some (x.keyOf row')) {r : ℕ}
    (hsurvive : ∀ e ∈ x.indexMap, x.Survives (x.keyOf row) r e →
      ∀ a ∈ x.keyStrings columns e.1, H' a)
    (hrow : ∀ a ∈ x.keyStrings columns (x.keyOf row'), H' a) {x' x'' : TableIndex}
    (hdel : x.notifyRowDelete old r false = some x')
    (hins : x'.notifyRowInsert new r false = some x'') : KeysIn H' columns x'' := by
  have hr := notifyRowDelete_inv hold hdel
  have hout := hx.delete hold hsurvive hdel
  rw [notifyRowDelete_eq hold hr] at hdel
  cases hdel
  exact hout.insert hnew hrow hins

theorem KeysIn.replaceCell {H H' : ℕ → Prop} (hx : KeysIn H columns x)
    (hu : Uniform columns.length rs) {r c : ℕ} (hr : r < rs.length) (hc : c < columns.length)
    (d : Data)
    (hstays : ∀ e ∈ x.indexMap, (x.isIndexedColumn c = true → x.Survives (x.keyOf rs[r]) r e) →
      ∀ a ∈ x.keyStrings columns e.1, H' a)
    (hrow : ∀ a ∈ x.keyStrings columns (x.keyOf (rs[r].set c d)), H' a) {x' x'' : TableIndex}
    (hdel : x.notifyCellDelete c (rs.drop r).flatten r = some x')
    (hins : x'.notifyCellInsert c ((rs.drop r).flatten.set c d) r = some x'') :
    KeysIn H' columns x'' := by
  cases hi : x.isIndexedColumn c with
  | true =>
    have hkey := hx.shape.makeKey_set_cell hu hr hc d
    rw [notifyCellDelete, hi, if_pos rfl] at hdel
    have hcols : x'.isIndexedColumn c = true := by
      rw [notifyRowDelete_eq (hx.shape.makeKey_storage hu hr)
        (notifyRowDelete_inv (hx.shape.makeKey_storage hu hr) hdel)] at hdel
      cases hdel
      exact hi
    rw [notifyCellInsert, hcols, if_pos rfl] at hins
    exact hx.replace (hx.shape.makeKey_storage hu hr) hkey
      (fun e he hstay => hstays e he fun _ => hstay) hrow hdel hins
  | false =>
    -- the index is not told, and its keys do not change
    simp only [notifyCellDelete, hi, Bool.false_eq_true, if_false, Option.some.injEq] at hdel
    subst hdel
    simp only [notifyCellInsert, hi, Bool.false_eq_true, if_false, Option.some.injEq] at hins
    subst hins
    exact ⟨hx.shape, hx.sorted, fun e he => hstays e he fun hindexed => by simp [hi] at hindexed⟩

end TableIndex

namespace SharedTable

variable {columns : List Column} {rs : List (List Data)} {xs : List TableIndex}

theorem rowsRefs_pos {a : ℕ} :
    0 < rowsRefs a columns rs ↔ ∃ row ∈ rs, 0 < rowRefs a columns row := by
  constructor
  · intro hpos
    by_contra hnone
    have hzero : rowsRefs a columns rs = 0 := by
      refine List.sum_eq_zero fun n hn => ?_
      obtain ⟨row, hrow, rfl⟩ := List.mem_map.mp hn
      exact Nat.eq_zero_of_not_pos fun hp => hnone ⟨row, hrow, hp⟩
    omega
  · rintro ⟨row, hrow, hpos⟩
    obtain ⟨r, hr, rfl⟩ := List.mem_iff_getElem.mp hrow
    have hle := rowRefs_le a columns hr
    omega

theorem rowHolds_ofRows (hu : Uniform columns.length rs) {i : ℕ} (hi : i < rs.length) (a : ℕ) :
    (ofRows columns rs xs).RowHolds i a ↔ 0 < rowRefs a columns rs[i] := by
  have hrow := rowRefs_storage a hu hi
  rw [← drop_flatten hu] at hrow
  rw [← hrow]
  rfl

theorem held_ofRows (hu : Uniform columns.length rs) (a : ℕ) :
    (∃ i < (ofRows columns rs xs).height, (ofRows columns rs xs).RowHolds i a) ↔
      0 < rowsRefs a columns rs := by
  rw [rowsRefs_pos]
  constructor
  · rintro ⟨i, hi, hhold⟩
    exact ⟨rs[i], List.getElem_mem hi, (rowHolds_ofRows hu hi a).mp hhold⟩
  · rintro ⟨row, hrow, hpos⟩
    obtain ⟨i, hi, rfl⟩ := List.mem_iff_getElem.mp hrow
    exact ⟨i, hi, (rowHolds_ofRows hu hi a).mpr hpos⟩

/-- What another row holds is still held when row `r` is gone. -/
theorem otherRow_eraseIdx (hu : Uniform columns.length rs) {r a : ℕ}
    (h : (ofRows columns rs xs).OtherRowHolds r a) : 0 < rowsRefs a columns (rs.eraseIdx r) := by
  obtain ⟨i, hi, hne, hhold⟩ := h
  have hi' : i < rs.length := hi
  rw [rowsRefs_pos]
  refine ⟨rs[i], ?_, (rowHolds_ofRows hu hi' a).mp hhold⟩
  rw [List.mem_eraseIdx_iff_getElem]
  exact ⟨i, hi', hne, rfl⟩

/-- What another row or the new row holds is still held when row `r` is overwritten. -/
theorem otherRow_set (xs : List TableIndex) (hu : Uniform columns.length rs) {r a : ℕ}
    (hr : r < rs.length) (row : List Data)
    (h : (ofRows columns rs xs).OtherRowHolds r a ∨ 0 < rowRefs a columns row) :
    0 < rowsRefs a columns (rs.set r row) := by
  have hlen : r < (rs.set r row).length := by rwa [List.length_set]
  have hsum := rowsRefs_eraseIdx a columns hlen
  rw [List.eraseIdx_set_eq, List.getElem_set_self] at hsum
  rcases h with h | h
  · have hother := otherRow_eraseIdx hu h
    omega
  · omega

theorem rowRefs_set_storage (a : ℕ) (hu : Uniform columns.length rs) {r c : ℕ} (hr : r < rs.length)
    (hc : c < columns.length) {xs : List TableIndex} (d : Data) :
    rowRefs a (ofRows columns rs xs).columns
      (((ofRows columns rs xs).storage.array.drop
        ((ofRows columns rs xs).storage.offsetToPos r)).set c d) =
      rowRefs a columns (rs[r].set c d) := by
  have hlen : rs[r].length = columns.length := hu _ (List.getElem_mem hr)
  have harray : (ofRows columns rs xs).storage.array.drop
      ((ofRows columns rs xs).storage.offsetToPos r) = rs[r] ++ (rs.drop (r + 1)).flatten := by
    rw [← List.flatten_cons, ← List.drop_eq_getElem_cons hr]
    exact drop_flatten hu r
  rw [harray, List.set_append_left _ _ (by omega)]
  exact rowRefs_append a columns (by rwa [List.length_set]) _

theorem rowRefs_args_le (a : ℕ) (now : ℕ → BitVec 64) (colNum : ℕ) (cs : List Column)
    (vs : List Dynamic) (h : StringHeap) :
    rowRefs a cs (vs.map Dynamic.data) ≤ rowRefs a cs (insertCells now colNum cs vs h).1 := by
  induction cs generalizing colNum vs h with
  | nil => exact le_rfl
  | cons c cs ih =>
    cases vs with
    | nil => exact Nat.zero_le _
    | cons v vs => exact Nat.add_le_add_left (ih (colNum + 1) vs (takeArg v h).2) _

end SharedTable

/-- The storage is a list of rows and every key points to strings of cells. -/
def KeysKept (columns : List Column) (s : TableState) : Prop :=
  ∃ rs xs, s.2 = SharedTable.ofRows columns rs xs ∧ Uniform columns.length rs ∧
    ∀ x ∈ xs, TableIndex.KeysIn (fun a => 0 < SharedTable.rowsRefs a columns rs) columns x

variable {columns : List Column} {s s' : TableState} {b : Bool}

theorem TableIndex.KeysIn.addRow {x x' : TableIndex} {rs rs' : List (List Data)}
    (hx : KeysIn (fun a => 0 < SharedTable.rowsRefs a columns rs) columns x) {row : List Data}
    (hlen : row.length = columns.length)
    (hrefs : ∀ a, SharedTable.rowsRefs a columns rs' = SharedTable.rowsRefs a columns rs +
      rowRefs a columns row) {r : ℕ} {incremental : Bool}
    (hins : x.notifyRowInsert row r incremental = some x') :
    KeysIn (fun a => 0 < SharedTable.rowsRefs a columns rs') columns x' := by
  have hgrow : KeysIn (fun a => 0 < SharedTable.rowsRefs a columns rs') columns x :=
    hx.mono fun a ha => by
    rw [hrefs]
    exact Nat.add_pos_left ha _
  apply hgrow.insert (hgrow.shape.makeKey row) _ hins
  intro a ha
  rw [hrefs]
  exact Nat.add_pos_right _ (keyStrings_keyOf x hlen ha)

theorem KeysKept.call (hw : 0 < columns.length) (hk : KeysKept columns s) (call : Call)
    (hin : call.InRange s) (hret : call.Retains s) (hp : call.perform s = some (b, s')) :
    KeysKept columns s' := by
  obtain ⟨h, t⟩ := s
  obtain ⟨rs, xs, rfl, hu, hxs⟩ := hk
  have hsame : KeysKept columns (h, SharedTable.ofRows columns rs xs) := ⟨rs, xs, rfl, hu, hxs⟩
  have hnew := fun now => SharedTable.newRow_length now columns
  cases call with
  | appendRow now vargs =>
    simp only [Call.perform, SharedTable.appendRow_ofRows] at hp
    split_ifs at hp
    · obtain ⟨xs', hxs', hp⟩ := Option.bind_eq_some_iff.mp hp
      cases hp
      refine ⟨_, xs', rfl, hu.append (hnew now vargs h), fun x' hx' => ?_⟩
      obtain ⟨x, hx, hins⟩ := Traverse.exists_of_mapM_some hxs' hx'
      exact (hxs x hx).addRow (hnew now vargs h) (fun a => SharedTable.rowsRefs_append ..) hins
    · cases hp
      exact hsame
  | insertRow now r vargs =>
    simp only [Call.perform, SharedTable.insertRow_ofRows xs hw hu] at hp
    split_ifs at hp with hv
    · obtain ⟨xs', hxs', hp⟩ := Option.bind_eq_some_iff.mp hp
      cases hp
      refine ⟨_, xs', rfl, hu.insertIdx (hnew now vargs h) r, fun x' hx' => ?_⟩
      obtain ⟨x, hx, hins⟩ := Traverse.exists_of_mapM_some hxs' hx'
      exact (hxs x hx).addRow (hnew now vargs h)
        (fun a => SharedTable.rowsRefs_insertIdx a hv.1.le ..) hins
    · cases hp
      exact hsame
  | deleteRow r =>
    simp only [Call.perform, SharedTable.deleteRow_ofRows xs hw hu] at hp
    split_ifs at hp with hr
    · obtain ⟨xs', hxs', hp⟩ := Option.bind_eq_some_iff.mp hp
      cases hp
      refine ⟨_, xs', rfl, hu.eraseIdx r, fun x' hx' => ?_⟩
      obtain ⟨x, hx, hdel⟩ := Traverse.exists_of_mapM_some hxs' hx'
      refine (hxs x hx).delete ((hxs x hx).shape.makeKey_storage hu hr) (fun e he hstay a ha => ?_)
        hdel
      rw [← (hxs x hx).shape.rowKey_ofRows xs hu hr] at hstay
      exact SharedTable.otherRow_eraseIdx hu (hret hr x hx e he hstay a ha)
    · cases hp
      exact hsame
  | setRow now r vargs =>
    simp only [Call.perform, SharedTable.setRow_ofRows xs hu] at hp
    split_ifs at hp with hv
    · obtain ⟨removed, hremoved, hp⟩ := Option.bind_eq_some_iff.mp hp
      obtain ⟨xs', hxs', hp⟩ := Option.bind_eq_some_iff.mp hp
      cases hp
      refine ⟨_, xs', rfl, hu.set (hnew now vargs h) r, fun x'' hx'' => ?_⟩
      obtain ⟨x', hx', hins⟩ := Traverse.exists_of_mapM_some hxs' hx''
      obtain ⟨x, hx, hdel⟩ := Traverse.exists_of_mapM_some hremoved hx'
      -- a string of the rows after the call is one of another row or of the new one
      have hheld : ∀ a, (SharedTable.ofRows columns rs xs).OtherRowHolds r a ∨
          0 < rowRefs a columns (SharedTable.newRow now columns vargs h) →
          0 < SharedTable.rowsRefs a columns (rs.set r (SharedTable.newRow now columns vargs h)) :=
        fun a => SharedTable.otherRow_set xs hu hv.1 _
      refine (hxs x hx).replace ((hxs x hx).shape.makeKey_storage hu hv.1)
        ((hxs x hx).shape.makeKey (SharedTable.newRow now columns vargs h)) ?_ ?_ hdel hins
      · intro e he hstay a ha
        rw [← (hxs x hx).shape.rowKey_ofRows xs hu hv.1] at hstay
        have hargs := SharedTable.rowRefs_args_le a now 0 columns vargs h
        exact hheld a
          ((hret hv x hx e he hstay a ha).imp id fun hpos => Nat.lt_of_lt_of_le hpos hargs)
      · exact fun a ha => hheld a (.inr (TableIndex.keyStrings_keyOf x (hnew now vargs h) ha))
    · cases hp
      exact hsame
  | setCellValue r c v =>
    have hr : r < rs.length := hin.1
    have hc : c < columns.length := hin.2
    simp only [Call.perform, SharedTable.setCellValue_ofRows xs hu hr hc] at hp
    split_ifs at hp with ht
    · obtain ⟨removed, hremoved, hp⟩ := Option.bind_eq_some_iff.mp hp
      obtain ⟨xs', hxs', hp⟩ := Option.bind_eq_some_iff.mp hp
      cases hp
      have hlen : (rs[r].set c v.data).length = columns.length := by
        rw [List.length_set]
        exact hu _ (List.getElem_mem hr)
      refine ⟨_, xs', rfl, hu.set hlen r, fun x'' hx'' => ?_⟩
      obtain ⟨x', hx', hins⟩ := Traverse.exists_of_mapM_some hxs' hx''
      obtain ⟨x, hx, hdel⟩ := Traverse.exists_of_mapM_some hremoved hx'
      have hheld : ∀ a, (SharedTable.ofRows columns rs xs).OtherRowHolds r a ∨
          0 < rowRefs a columns (rs[r].set c v.data) →
          0 < SharedTable.rowsRefs a columns (rs.set r (rs[r].set c v.data)) :=
        fun a => SharedTable.otherRow_set xs hu hr _
      have htype : (SharedTable.ofRows columns rs xs).columns[c]?.map
        (fun col => col.type.toDynamic) =
          some v.type := by
        rw [show (SharedTable.ofRows columns rs xs).columns[c]? = some columns[c] from
          List.getElem?_eq_getElem hc, Option.map_some, ht]
      -- only the cell changes, so the other cells of the row still hold their strings
      have hstays : ∀ e ∈
        x.indexMap, (x.isIndexedColumn c = true → x.Survives (x.keyOf rs[r]) r e) →
          ∀ a ∈ x.keyStrings columns e.1,
            0 < SharedTable.rowsRefs a columns (rs.set r (rs[r].set c v.data)) := by
        intro e he hstay a ha
        rw [← (hxs x hx).shape.rowKey_ofRows xs hu hr] at hstay
        refine hheld a ((hret htype x hx e he hstay a ha).imp id fun hpos => ?_)
        rwa [SharedTable.rowRefs_set_storage a hu hr hc] at hpos
      exact (hxs x hx).replaceCell hu hr hc v.data hstays
        (fun a ha => hheld a (.inr (TableIndex.keyStrings_keyOf x hlen ha))) hdel hins
    · cases hp
      exact hsame

theorem KeysKept.createIndex (hk : KeysKept columns s) {indexDefinition : Bytes}
    (hplain : PlainIndex columns indexDefinition)
    (hp : (Action.createIndex indexDefinition).perform s = some (b, s')) : KeysKept columns s' := by
  obtain ⟨h, t⟩ := s
  obtain ⟨rs, xs, rfl, hu, hxs⟩ := hk
  rcases createIndex_ofRows hu hplain true xs h with ⟨e, -, herr⟩ | ⟨x, hx, hkeys, hok⟩
  · cases herr.symm.trans hp
    exact ⟨rs, xs, rfl, hu, hxs⟩
  · cases hok.symm.trans hp
    refine ⟨rs, xs ++ [x], rfl, hu, fun x' hx' => ?_⟩
    rcases List.mem_append.mp hx' with hx' | hx'
    · exact hxs x' hx'
    · rw [List.mem_singleton.mp hx']
      refine ⟨hx.shape, hx.seq.sorted, fun e he a ha => ?_⟩
      obtain ⟨row, hrow, hkey⟩ := hkeys e he
      rw [hkey] at ha
      exact SharedTable.rowsRefs_pos.mpr ⟨row, hrow, TableIndex.keyStrings_keyOf x (hu row hrow) ha⟩

theorem KeysKept.action (hw : 0 < columns.length) (hk : KeysKept columns s) (a : Action)
    (hallowed : a.Allowed columns s) (hret : a.Retains s) (hp : a.perform s = some (b, s')) :
    KeysKept columns s' := by
  cases a with
  | call c => exact hk.call hw c hallowed hret hp
  | createIndex indexDefinition => exact hk.createIndex hallowed hp

theorem SharedTable.Sound.keysKept {t : SharedTable} (ht : t.Sound) (hnone : t.tableIndexSet = [])
    (h : StringHeap) : KeysKept t.columns (h, t) := by
  obtain ⟨rs, hrs, hu⟩ := ht.toLaid.exists_rows
  exact ⟨rs, t.tableIndexSet, hrs, hu, by simp [hnone]⟩

theorem KeysKept.subset {h h' : StringHeap} {t t' : SharedTable} (hk : KeysKept columns (h, t))
    (hsub : t'.tableIndexSet ⊆ t.tableIndexSet)
    (ht' : t' = { t with tableIndexSet := t'.tableIndexSet }) :
    KeysKept columns (h', t') := by
  obtain ⟨rs, xs, rfl, hu, hxs⟩ := hk
  exact ⟨rs, t'.tableIndexSet, ht', hu, fun x hx => hxs x (hsub hx)⟩

theorem KeysKept.held (hk : KeysKept columns s) {x : TableIndex} (hx : x ∈ s.2.tableIndexSet) :
    x.KeysHeld s.2 := by
  obtain ⟨rs, xs, htable, hu, hxs⟩ := hk
  rw [htable] at hx ⊢
  exact fun e he a ha => (SharedTable.held_ofRows hu a).mpr ((hxs x hx).keys e he a ha)

/-- **The strings of every key stay held by cells**, in every state a run reaches, as long as
each row that goes or is overwritten leaves the strings of the keys that stay to other cells. -/
theorem key_strings_held {t : SharedTable} (ht : t.Sound) (hnone : t.tableIndexSet = [])
    (h : StringHeap) (actions : List Action)
    (hallowed : Runs.AllSteps Action.perform (Action.Allowed t.columns) actions (h, t))
    (hretain : Runs.AllSteps Action.perform Action.Retains actions (h, t)) {flags : List Bool}
    {h' : StringHeap} {t' : SharedTable}
    (hrun : Runs.run Action.perform actions (h, t) = some (flags, h', t')) :
    ∀ x ∈ t'.tableIndexSet, x.KeysHeld t' := by
  have hkept := Runs.invariant_of_run (P := KeysKept t.columns)
    (C := fun a s => Action.Allowed t.columns a s ∧ Action.Retains a s)
    (fun a s b s' hk hC hp => hk.action ht.width_pos a hC.1 hC.2 hp)
    (ht.keysKept hnone h) (hallowed.and hretain) hrun
  exact fun x => hkept.held

theorem plainIndex_string : PlainIndex sampleColumns (ascii "s") := by
  intro keys hkeys
  have h : TableIndex.keyColumns sampleColumns (ascii "s") = .ok [(1, ⟨.string, false⟩)] := by
    decide
  cases h.symm.trans hkeys
  decide

def twoStrings : StringHeap := ⟨2, fun addr => if addr < 2 then 1 else 0⟩

def sharingActions : List Action :=
  [.createIndex (ascii "s"), .call (.appendRow (fun _ => 0) [intArg 5, stringArg 0 (ascii "a")]),
    .call (.appendRow (fun _ => 0) [intArg 6, stringArg 0 (ascii "a")]), .call (.deleteRow 0),
    .call (.setRow (fun _ => 0) 0 [intArg 7, stringArg 0 (ascii "a")]),
    .call (.setCellValue 0 1 (stringArg 1 (ascii "b")))]

theorem key_strings_held_sample : ∃ flags h' t',
    Runs.run Action.perform sharingActions (twoStrings, SharedTable.new sampleColumns) =
      some (flags, h', t') ∧
    (t'.tableIndexSet.map fun x => x.indexMap.map fun e => x.keyStrings t'.columns e.1) = [[[1]]] ∧
      ∀ x ∈ t'.tableIndexSet, x.KeysHeld t' := by
  have hkeys :
    (Runs.run Action.perform sharingActions (twoStrings, SharedTable.new sampleColumns)).map
      (fun r => r.2.2.tableIndexSet.map fun x => x.indexMap.map fun e =>
        x.keyStrings r.2.2.columns e.1) =
      some [[[1]]] := by decide
  obtain ⟨⟨flags, h', t'⟩, hrun, hkeys⟩ := Option.map_eq_some_iff.mp hkeys
  refine ⟨flags, h', t', hrun, hkeys, key_strings_held sound_sample rfl twoStrings sharingActions ?_
    ?_ hrun⟩
  · exact .cons plainIndex_string rfl (.cons trivial rfl (.cons trivial rfl (.cons trivial rfl
      (.cons trivial rfl (.cons ⟨by decide, by decide⟩ rfl trivial)))))
  · exact .cons trivial rfl (.cons trivial rfl (.cons trivial rfl
      (.cons (fun _ => by decide) rfl (.cons (fun _ => by decide +kernel) rfl
        (.cons (fun _ => by decide) rfl trivial)))))

/-- The bucket was opened by row `0`; row `1` has an equal string of its own. -/
def danglingActions : List Action :=
  [.createIndex (ascii "s"), .call (.appendRow (fun _ => 0) [intArg 5, stringArg 0 (ascii "a")]),
    .call (.appendRow (fun _ => 0) [intArg 6, stringArg 1 (ascii "a")]), .call (.deleteRow 0)]

theorem key_outlives_string :
    ¬ ∀ (t : SharedTable) (h : StringHeap) (actions : List Action) (flags : List Bool)
      (h' : StringHeap)
        (t' : SharedTable), t.Sound → t.tableIndexSet = [] →
      Runs.AllSteps Action.perform (Action.Allowed t.columns) actions (h, t) →
      Runs.run Action.perform actions (h, t) = some (flags, h', t') →
      ∀ x ∈ t'.tableIndexSet, x.KeysHeld t' := by
  intro hclaim
  have hdangling : (Runs.run Action.perform danglingActions
      (twoStrings, SharedTable.new sampleColumns)).map (fun r =>
        decide (∀ x ∈ r.2.2.tableIndexSet, ∀ e ∈ x.indexMap, ∀ a ∈ x.keyStrings r.2.2.columns e.1,
          ∃ i < r.2.2.height, r.2.2.RowHolds i a)) = some false := by decide
  obtain ⟨⟨flags, h', t'⟩, hrun, hfalse⟩ := Option.map_eq_some_iff.mp hdangling
  refine of_decide_eq_false hfalse
    (hclaim (SharedTable.new sampleColumns) twoStrings danglingActions
    flags h' t' sound_sample rfl ?_ hrun)
  exact .cons plainIndex_string rfl
    (.cons trivial rfl (.cons trivial rfl (.cons trivial rfl trivial)))

/-- **Buckets partition the rows after any calls**, as long as every row that is inserted or
deleted finds every bucket partitioned at its number and no key loses its strings. -/
theorem buckets_partition_rows {t : SharedTable} (ht : t.Sound) (hnone : t.tableIndexSet = [])
    (h : StringHeap) (actions : List Action)
    (hallowed : Runs.AllSteps Action.perform (Action.Allowed t.columns) actions (h, t))
    (hdist : Runs.AllSteps Action.perform Action.Undisturbed actions (h, t))
    (hretain : Runs.AllSteps Action.perform Action.Retains actions (h, t)) :
    ∃ flags h' t', Runs.run Action.perform actions (h, t) = some (flags, h', t') ∧
      ∀ x ∈ t'.tableIndexSet, x.Partitions t' ∧ x.KeysHeld t' := by
  have hstep : ∀ (a : Action) (s : TableState), Kept false t.columns s ∧ KeysKept t.columns s →
      a.Allowed t.columns s ∧ a.Undisturbed s ∧ a.Retains s →
      ∃ b s', a.perform s = some (b, s') ∧ Kept false t.columns s' ∧ KeysKept t.columns s' := by
    rintro a s ⟨hk, hkeys⟩ ⟨hin, hundisturbed, hretains⟩
    obtain ⟨b, s', hp, hk'⟩ := hk.action ht.width_pos a hin hundisturbed fun hasc =>
      absurd hasc (by decide)
    exact ⟨b, s', hp, hk', hkeys.action ht.width_pos a hin hretains hp⟩
  obtain ⟨flags, ⟨h', t'⟩, hrun, ⟨rs, xs, rfl, hu, hxs⟩, hkeys⟩ := Runs.run_of_allSteps hstep
    ⟨ht.kept hnone false h, ht.keysKept hnone h⟩ (hallowed.and (hdist.and hretain))
  exact ⟨flags, h', _, hrun, fun x hx => ⟨(hxs x hx).partitions xs hu, hkeys.held hx⟩⟩

def calmActions : List Action :=
  [.createIndex (ascii "-n,s"), .call (.appendRow (fun _ => 0) [intArg 5, stringArg 0 (ascii "a")]),
    .call (.appendRow (fun _ => 0) [intArg 7, stringArg 0 (ascii "a")]),
    .call (.setRow (fun _ => 0) 1 [intArg 5, stringArg 0 (ascii "a")]),
    .call (.setCellValue 1 0 (intArg 6)),
    .call (.insertRow (fun _ => 0) 1 [intArg 5, stringArg 0 (ascii "a")]), .call (.deleteRow 0)]

theorem buckets_partition_rows_sample : ∃ flags h' t',
    Runs.run Action.perform calmActions (twoStrings, SharedTable.new sampleColumns) =
      some (flags, h', t') ∧ ∀ x ∈ t'.tableIndexSet, x.Partitions t' ∧ x.KeysHeld t' := by
  refine buckets_partition_rows sound_sample rfl twoStrings calmActions ?_ ?_ ?_
  · exact .cons plainIndex_sample rfl (.cons trivial rfl (.cons trivial rfl (.cons trivial rfl
      (.cons ⟨by decide, by decide⟩ rfl (.cons trivial rfl (.cons trivial rfl trivial))))))
  · exact .cons trivial rfl
      (.cons trivial rfl (.cons trivial rfl (.cons trivial rfl (.cons trivial rfl
      (.cons (fun _ => by decide) rfl (.cons (fun _ => by decide) rfl trivial))))))
  · exact .cons trivial rfl
      (.cons trivial rfl (.cons trivial rfl (.cons (fun _ => by decide +kernel) rfl
      (.cons (fun _ => by decide +kernel) rfl
        (.cons trivial rfl (.cons (fun _ => by decide +kernel) rfl trivial))))))

/-- `SetRow` leaves a bucket `[1, 0]`, in which the later insertion finds nothing to renumber. -/
def disturbingActions : List Action :=
  [.createIndex (ascii "n"), .call (.appendRow (fun _ => 0) [intArg 5]),
    .call (.appendRow (fun _ => 0) [intArg 7]), .call (.setRow (fun _ => 0) 0 [intArg 7]),
    .call (.insertRow (fun _ => 0) 1 [intArg 5])]

theorem buckets_repeat_row_after_set_row :
    ¬ ∀ (t : SharedTable) (h : StringHeap) (actions : List Action), t.Sound → t.tableIndexSet = [] →
      Runs.AllSteps Action.perform (Action.Allowed t.columns) actions (h, t) →
      ∃ flags h' t', Runs.run Action.perform actions (h, t) = some (flags, h', t') ∧
        ∀ x ∈ t'.tableIndexSet, x.Partitions t' := by
  intro hclaim
  have hplain : PlainIndex sampleColumns (ascii "n") := by
    intro keys hkeys
    have h : TableIndex.keyColumns sampleColumns (ascii "n") = .ok [(0, ⟨.integer, false⟩)] := rfl
    cases h.symm.trans hkeys
    decide
  obtain ⟨flags, h', t', hrun, hall⟩ := hclaim (SharedTable.new sampleColumns) sampleHeap
    disturbingActions sound_sample rfl
    (.cons hplain rfl
      (.cons trivial rfl (.cons trivial rfl (.cons trivial rfl (.cons trivial rfl trivial)))))
  have hbuckets : (Runs.run Action.perform disturbingActions
      (sampleHeap, SharedTable.new sampleColumns)).map (fun r =>
        (r.2.2.height, r.2.2.tableIndexSet.map fun x => x.indexMap.flatMap Prod.snd)) =
      some (3, [[1, 1, 0]]) := by decide
  rw [hrun] at hbuckets
  obtain ⟨hheight, hxs⟩ := Prod.mk.inj (Option.some.inj hbuckets)
  obtain ⟨x, hx⟩ := List.exists_mem_of_length_eq_add_one (l := t'.tableIndexSet) (n := 0)
    (by simpa using congrArg List.length hxs)
  have hflat : x.indexMap.flatMap Prod.snd = [1, 1, 0] := by
    have hmem := List.mem_map_of_mem (f := fun x : TableIndex => x.indexMap.flatMap Prod.snd) hx
    rw [show t'.tableIndexSet.map (fun x : TableIndex => x.indexMap.flatMap Prod.snd) = _ from hxs]
      at hmem
    exact List.mem_singleton.mp hmem
  have hperm := (hall x hx).1
  rw [hflat, show t'.height = 3 from hheight] at hperm
  revert hperm
  decide
end Nkit
