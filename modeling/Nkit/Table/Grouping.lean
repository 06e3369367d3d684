import Nkit.Table.Group
import Nkit.Table.Calls
import Nkit.Table.KeyOrder
import Nkit.Base.GroupFold
import Nkit.Tools.Scanning

/-! What grouping computes.  Both paths fold the rows into the same ordered map of groups;
they differ in when the rows of the result are written. -/

namespace Nkit
open FlatRows OrderedMap

namespace SharedTable

variable {columns : List Column} {rs : List (List Data)} (xs : List TableIndex)

theorem unsafeCells_eq (now : ℕ → BitVec 64) (colNum : ℕ) {cs : List Column} {ds : List Data}
    (hlen : ds.length = cs.length) (h : StringHeap) : (unsafeCells now colNum cs ds h).1 = ds := by
  induction cs generalizing colNum ds h with
  | nil =>
    rw [List.length_eq_zero_iff.mp hlen]
    rfl
  | cons c cs ih =>
    cases ds with
    | nil => cases hlen
    | cons d ds =>
      rw [unsafeCells]
      simp only [ih (colNum + 1) (Nat.succ.inj hlen)]

theorem appendRowUnsafe_ofRows (rs : List (List Data)) (now : ℕ → BitVec 64) {row : List Data}
    (hlen : row.length = columns.length) (h : StringHeap) :
    ∃ h', (ofRows columns rs xs).appendRowUnsafe now row h =
      (h', ofRows columns (rs ++ [row]) xs) := by
  refine ⟨(unsafeCells now 0 columns row h).2, ?_⟩
  have hcells := unsafeCells_eq now 0 hlen h
  simp only [appendRowUnsafe, ofRows, hcells, StorageImpl.extend, StorageImpl.write]
  simp [hlen]

theorem setRowUnsafe_ofRows (hu : Uniform columns.length rs) {row : List Data}
    (hlen : row.length = columns.length) {r : ℕ} (hr : r < rs.length) :
    (ofRows columns rs xs).setRowUnsafe row r = some (ofRows columns (rs.set r row) xs) := by
  have hcache : columns.length ≤ (rs.drop r).flatten.length := by
    rw [List.drop_eq_getElem_cons hr, List.flatten_cons, List.length_append,
      hu _ (List.getElem_mem hr)]
    exact Nat.le_add_right _ _
  have hcells : (List.range columns.length).map (fun colNum => row.getD colNum (.word 0)) =
      row := by
    rw [← hlen]
    refine List.ext_getElem (by simp) fun i h₁ h₂ => ?_
    simp [h₂]
  have hcols : (ofRows columns rs xs).columns = columns := rfl
  have hwrite : (ofRows columns rs xs).storage.write ((ofRows columns rs xs).storage.offsetToPos r)
    row =
      ⟨columns.length, (rs.set r row).flatten⟩ := by
    simp only [StorageImpl.write, StorageImpl.offsetToPos, ofRows, hlen, set_flatten hu hr]
  rw [setRowUnsafe, get_ofRows xs hu hr.le, hcols, hcells]
  simp only [Option.bind_eq_bind, Option.bind_some, if_pos hcache, hwrite]
  simp only [ofRows, List.length_set]

theorem foldl_appendRowUnsafe {α : Type} (now : ℕ → BitVec 64) (row : α → List Data)
    (hlen : ∀ a, (row a).length = columns.length) (as : List α) (rs : List (List Data))
    (h : StringHeap) :
    ∃ h', as.foldl (fun (s : StringHeap × SharedTable) a => s.2.appendRowUnsafe now (row a) s.1)
      (h, ofRows columns rs xs) = (h', ofRows columns (rs ++ as.map row) xs) := by
  induction as generalizing rs h with
  | nil => exact ⟨h, by simp⟩
  | cons a as ih =>
    obtain ⟨h₁, happ⟩ := appendRowUnsafe_ofRows xs rs now (hlen a) h
    obtain ⟨h', hrest⟩ := ih (rs ++ [row a]) h₁
    refine ⟨h', ?_⟩
    rw [List.foldl_cons, happ, hrest, List.map_cons, List.append_assoc, List.singleton_append]

/-- Rows overwritten from row `n` on. -/
theorem foldlM_setRowUnsafe {α : Type} (row : α → List Data)
    (hlen : ∀ a, (row a).length = columns.length) (as : List α) (hu : Uniform columns.length rs)
    {n : ℕ} (hn : n + as.length = rs.length) :
    (as.zipIdx n).foldlM (fun (dst : SharedTable) (a, r) => dst.setRowUnsafe (row a) r)
      (ofRows columns rs xs) = some (ofRows columns (rs.take n ++ as.map row) xs) := by
  induction as generalizing rs n with
  | nil =>
    have hall : rs.take n = rs := List.take_of_length_le (by simpa using hn.ge)
    simp [hall]
  | cons a as ih =>
    rw [List.length_cons] at hn
    have hr : n < rs.length := by omega
    have hset := ih (hu.set (hlen a) n) (n := n + 1) (by rw [List.length_set]; omega)
    rw [List.zipIdx_cons, List.foldlM_cons]
    simp only [setRowUnsafe_ofRows xs hu (hlen a) hr, Option.bind_eq_bind, Option.bind_some]
    rw [hset, List.take_succ_eq_append_getElem (by rwa [List.length_set]), List.getElem_set_self,
      List.take_set_of_le le_rfl, List.map_cons, List.append_assoc, List.singleton_append]

end SharedTable

namespace GroupIndex

def keyOf (g : GroupIndex) (row : List Data) : IndexKey :=
  g.indexColumnNums.map fun col => row.getD col (.word 0)

def withMap (g : GroupIndex) (m : List (IndexKey × List Data)) : GroupIndex :=
  { g with indexMap := m }

def withTable (g : GroupIndex) (t : SharedTable) : GroupIndex := { g with groupedTable := t }

structure Frame (columns : List Column) (keys : List KeyColumn) (g : GroupIndex) : Prop where
  nums : g.indexColumnNums = keys.map KeyColumn.colNum
  found : ∀ k ∈ keys, columns[k.colNum]? = some k.column
  size : keys.length ≤ indexKeyMaxSize
  aggregated : ∀ a ∈ g.aggregators, a.method = .count ∨ a.columnNum < columns.length
  width : g.groupedTable.columns.length = keys.length + g.aggregators.length

/-- What the rest of the code relies on in a group index with these key columns. -/
structure Shape (columns : List Column) (keys : List KeyColumn) (g : GroupIndex) : Prop where
  nums : g.indexColumnNums = keys.map KeyColumn.colNum
  found : ∀ k ∈ keys, columns[k.colNum]? = some k.column
  size : keys.length ≤ indexKeyMaxSize
  affinity : (keys.map KeyColumn.order).map ItemOrder.type =
    (keys.map fun k => k.column.type).map getDynamicTypeAffinity
  order : g.lt = itemsBefore (keys.map KeyColumn.order)
  aggregated : ∀ a ∈ g.aggregators, a.method = .count ∨ a.columnNum < columns.length
  defaults : ∀ a ∈ g.aggregators, a = .create a.columnNum a.type a.method
  width : g.groupedTable.columns.length = keys.length + g.aggregators.length

variable {columns : List Column} {keys : List KeyColumn} {g : GroupIndex}

theorem Shape.frame (hg : Shape columns keys g) : Frame columns keys g :=
  ⟨hg.nums, hg.found, hg.size, hg.aggregated, hg.width⟩

theorem findColumn_ok {columnName : Bytes} {colNum : ℕ} {column : Column}
    (h : findColumn columns columnName = .ok (colNum, column)) :
    columns[colNum]? = some column := by
  unfold findColumn at h
  split at h
  · cases h
  next found hfound =>
    cases h
    obtain ⟨n, -, hn⟩ := Option.bind_eq_some_iff.mp hfound
    obtain ⟨c, hc, hpair⟩ := Option.map_eq_some_iff.mp hn
    cases hpair
    exact hc

theorem findColumn_name {columnName : Bytes} {found : ℕ × Column}
    (h : findColumn columns columnName = .ok found) : columnName = found.2.name := by
  unfold findColumn at h
  split at h
  · cases h
  next found' hfound =>
    cases h
    obtain ⟨n, hn, hpair⟩ := Option.bind_eq_some_iff.mp hfound
    obtain ⟨c, hc, hpair⟩ := Option.map_eq_some_iff.mp hpair
    cases hpair
    obtain ⟨hlt, heq, -⟩ := List.findIdx?_eq_some_iff_getElem.mp hn
    obtain ⟨-, rfl⟩ := List.getElem?_eq_some_iff.mp hc
    exact eq_of_beq heq

theorem keyColumn_ok {item : Bytes} {k : KeyColumn} (h : keyColumn columns item = .ok k) :
    columns[k.colNum]? = some k.column ∧ k.order.type = getDynamicTypeAffinity k.column.type := by
  unfold keyColumn at h
  simp only [bind, Except.bind] at h
  split at h
  · cases h
  next found hfound =>
    cases h
    exact ⟨findColumn_ok hfound, rfl⟩

theorem aggregatorOf_ok {aggrDef : Bytes} {p : Bytes × Aggregator}
    (h : aggregatorOf columns aggrDef = .ok p) :
    (p.2.method = .count ∨ p.2.columnNum < columns.length) ∧
      p.2 = .create p.2.columnNum p.2.type p.2.method := by
  unfold aggregatorOf at h
  simp only at h
  split at h
  · cases h
  · cases h
    exact ⟨.inl rfl, rfl⟩
  next aggrType _ _ =>
    split_ifs at h
    simp only [bind, Except.bind] at h
    split at h
    · cases h
    next found hfound =>
      split_ifs at h
      cases h
      exact ⟨.inr (List.getElem?_eq_some_iff.mp (findColumn_ok hfound)).1, rfl⟩

/-- The pieces `Create` puts together. -/
theorem create_ok {indexDef aggr : Bytes} (h : create columns indexDef aggr = .ok g) :
    ∃ keys aggrs, keyColumns columns indexDef = .ok keys ∧
      (Tools.simpleSplit aggr (ascii ",") Tools.whiteSpaces).mapM (aggregatorOf columns) =
        .ok aggrs ∧
      getComparator (keys.map fun k => k.order.text) = .ok g.cmp ∧
      SharedTable.createColumns
        ((keys.map fun k => columnDef k.column.name k.column.type) ++ aggrs.map Prod.fst) =
          .ok g.groupedTable ∧
      g.indexColumnNums = keys.map KeyColumn.colNum ∧ g.aggregators = aggrs.map Prod.snd ∧
      g.indexMap = [] := by
  unfold create at h
  split_ifs at h
  simp only [bind, Except.bind] at h
  split at h
  · cases h
  next keys hkeys =>
    split at h
    · cases h
    next aggrs haggrs =>
      split at h
      · cases h
      next cmp hcmp =>
        split at h
        · cases h
        next t ht =>
          cases h
          exact ⟨keys, aggrs, hkeys, haggrs, hcmp, ht, rfl, rfl, rfl⟩

theorem keyColumns_ok {indexDef : Bytes} (h : keyColumns columns indexDef = .ok keys) :
    ∀ k ∈ keys, columns[k.colNum]? = some k.column ∧
      k.order.type = getDynamicTypeAffinity k.column.type := by
  intro k hk
  obtain ⟨item, -, hitem⟩ := Traverse.exists_of_mapM_ok h hk
  exact keyColumn_ok hitem

theorem create_aggregator {indexDef aggr : Bytes} (h : create columns indexDef aggr = .ok g)
    {a : Aggregator} (ha : a ∈ g.aggregators) :
    (a.method = .count ∨ a.columnNum < columns.length) ∧
      a = .create a.columnNum a.type a.method := by
  obtain ⟨-, aggrs, -, haggrs, -, -, -, hag, -⟩ := create_ok h
  rw [hag] at ha
  obtain ⟨p, hp, rfl⟩ := List.mem_map.mp ha
  obtain ⟨item, -, hitem⟩ := Traverse.exists_of_mapM_ok haggrs hp
  exact aggregatorOf_ok hitem

theorem create_frame {indexDef aggr : Bytes} (hkeys : keyColumns columns indexDef = .ok keys)
    (h : create columns indexDef aggr = .ok g) (hsize : keys.length ≤ indexKeyMaxSize) :
    Frame columns keys g ∧ g.groupedTable = .ofRows g.groupedTable.columns [] [] ∧
      g.indexMap = [] := by
  obtain ⟨keys', aggrs, hkeys', -, -, htable, hnums, hag, hmap⟩ := create_ok h
  cases hkeys.symm.trans hkeys'
  obtain ⟨hempty, -, hcols⟩ := SharedTable.createColumns_ok htable
  have hlen := (Traverse.mapM_ok_iff.mp hcols).length_eq
  refine ⟨⟨hnums, fun k hk => (keyColumns_ok hkeys k hk).1, hsize, ?_, ?_⟩, hempty, hmap⟩
  · exact fun a ha => (create_aggregator h ha).1
  · rw [← hlen, hag]
    simp

theorem create_shape {indexDef aggr : Bytes} (hkeys : keyColumns columns indexDef = .ok keys)
    (h : create columns indexDef aggr = .ok g) (hsize : keys.length ≤ indexKeyMaxSize)
    (hfloat : ∀ k ∈ keys, k.column.type ≠ .float) :
    Shape columns keys g ∧ g.groupedTable = .ofRows g.groupedTable.columns [] [] ∧
      g.indexMap = [] := by
  obtain ⟨hframe, hempty, hmap⟩ := create_frame hkeys h hsize
  obtain ⟨keys', -, hkeys', -, hcmp, -⟩ := create_ok h
  cases hkeys.symm.trans hkeys'
  have hkey := keyColumns_ok hkeys
  refine ⟨⟨hframe.nums, hframe.found, hsize, ?_, ?_, hframe.aggregated, ?_, hframe.width⟩, hempty,
    hmap⟩
  · rw [List.map_map, List.map_map]
    exact List.map_congr_left fun k hk => (hkey k hk).2
  · have htexts : getComparator ((keys.map KeyColumn.order).map ItemOrder.text) = .ok g.cmp := by
      rw [List.map_map]
      exact hcmp
    refine getComparator_lt (fun o ho => ?_) htexts
    obtain ⟨k, hk, rfl⟩ := List.mem_map.mp ho
    rw [(hkey k hk).2]
    have hne := hfloat k hk
    revert hne
    cases k.column.type <;> decide
  · exact fun a ha => (create_aggregator h ha).2

theorem find_colon {name : Bytes} (hname : 58 ∉ name) (rest : Bytes) {start : ℕ}
    (hstart : start ≤ name.length) :
    Tools.find (name ++ 58 :: rest) [58] start = some name.length := by
  have hcut : Delimited.FirstAt [58] (name ++ 58 :: rest) name rest := by
    refine ⟨by rw [List.append_assoc]; rfl, fun i hi hbegins => hname ?_⟩
    rw [List.drop_append_of_le_length hi.le, List.drop_eq_getElem_cons hi, List.cons_append,
      List.cons_prefix_cons] at hbegins
    rw [hbegins.1]
    exact List.getElem_mem hi
  exact Tools.find_append [] hcut (Nat.zero_le _) hstart

theorem createColumn_columnDef {name : Bytes} (hname : 58 ∉ name) (type : ColumnType) :
    ∃ key, SharedTable.createColumn (columnDef name type) = .ok ⟨key, type⟩ := by
  have hdef : columnDef name type = name ++ 58 :: dynamicTypeToString type := by
    rw [columnDef, List.append_assoc]
    rfl
  have hfirst : Tools.skipSpaceForward (columnDef name type) 0 (columnDef name type).length
      Tools.whiteSpaces ≤ name.length := by
    refine Tools.skipSpaceForward_le ?_ (Nat.zero_le _)
    simp only [hdef, Tools.charAt, List.getD_append_right _ _ _ _ le_rfl, Nat.sub_self]
    rfl
  have hsize : (columnDef name type).length =
      name.length + 1 + (dynamicTypeToString type).length := by
    rw [hdef, List.length_append, List.length_cons]
    omega
  have hnonempty : 0 < (dynamicTypeToString type).length := by cases type <;> decide
  have hvalue : Tools.skipSpaceForward (columnDef name type) (name.length + 1)
    (columnDef name type).length
      Tools.whiteSpaces = name.length + 1 := by
    refine Tools.skipSpaceForward_stop ?_
    have hchar : Tools.charAt (columnDef name type) (name.length + 1) =
        (dynamicTypeToString type).getD 0 0 := by
      simp [hdef, Tools.charAt, List.getElem?_append_right]
    rw [hchar]
    cases type <;> decide
  have hsplit : ∃ key, Tools.simpleSplitPair (columnDef name type) (ascii ":") Tools.whiteSpaces =
      (true, key, dynamicTypeToString type) := by
    unfold Tools.simpleSplitPair
    have hfind : Tools.find (columnDef name type) (ascii ":")
      (Tools.skipSpaceForward (columnDef name type) 0
        (columnDef name type).length Tools.whiteSpaces) = some name.length := by
      have hcolon := find_colon hname (dynamicTypeToString type) hfirst
      rwa [← hdef] at hcolon
    rw [if_neg (by omega), if_neg (by omega), hfind]
    simp only [show (ascii ":").length = 1 from rfl, hvalue, if_pos (show name.length + 1 <
      (columnDef name type).length by omega), Tools.substr]
    have hdrop : (columnDef name type).drop (name.length + 1) = dynamicTypeToString type := by
      rw [hdef, List.drop_append]
      simp
    refine ⟨_, congrArg _ (congrArg _ ?_)⟩
    rw [hdrop, List.take_of_length_le (by omega)]
  obtain ⟨key, hsplit⟩ := hsplit
  have hparse : SharedTable.parseTableDefItem (columnDef name type) = some ⟨key, type⟩ := by
    unfold SharedTable.parseTableDefItem
    rw [hsplit]
    cases type <;> rfl
  exact ⟨key, by rw [SharedTable.createColumn, hparse]⟩

theorem types_of_defs {defs : List Bytes} {types : List ColumnType} {columns : List Column}
    (hdefs : List.Forall₂ (fun d type => ∃ name, 58 ∉ name ∧ d = columnDef name type) defs types)
    (h : List.Forall₂ (fun d c => SharedTable.createColumn d = .ok c) defs columns) :
    columns.map Column.type = types := by
  induction hdefs generalizing columns with
  | nil =>
    cases h
    rfl
  | cons hd hdefs ih =>
    obtain ⟨name, hname, rfl⟩ := hd
    cases h with
    | cons hc h =>
      obtain ⟨key, hkey⟩ := createColumn_columnDef hname _
      cases hkey.symm.trans hc
      rw [List.map_cons, ih h]

theorem aggregatorOf_def (hcolon : ∀ c ∈ columns, 58 ∉ c.name) {aggrDef : Bytes}
    {p : Bytes × Aggregator} (h : aggregatorOf columns aggrDef = .ok p) :
    ∃ name, 58 ∉ name ∧ p.1 = columnDef name p.2.type := by
  unfold aggregatorOf at h
  simp only at h
  split at h
  · cases h
  · cases h
    exact ⟨ascii "COUNT", by decide, rfl⟩
  next aggrType _ _ =>
    split_ifs at h
    simp only [bind, Except.bind] at h
    split at h
    · cases h
    next found hfound =>
      split_ifs at h
      cases h
      refine ⟨_, ?_, rfl⟩
      rw [findColumn_name hfound]
      exact hcolon _ (List.mem_of_getElem? (findColumn_ok hfound))

theorem create_types (hcolon : ∀ c ∈ columns, 58 ∉ c.name) {indexDef aggr : Bytes}
    (hkeys : keyColumns columns indexDef = .ok keys) (h : create columns indexDef aggr = .ok g) :
    g.groupedTable.columns.map Column.type =
      (keys.map fun k => k.column.type) ++ g.aggregators.map Aggregator.type := by
  obtain ⟨keys', aggrs, hkeys', haggrs, -, htable, -, hag, -⟩ := create_ok h
  cases hkeys.symm.trans hkeys'
  obtain ⟨-, -, hcols⟩ := SharedTable.createColumns_ok htable
  refine types_of_defs (List.rel_append ?_ ?_) (Traverse.mapM_ok_iff.mp hcols)
  · rw [List.forall₂_map_left_iff, List.forall₂_map_right_iff, List.forall₂_same]
    intro k hk
    obtain ⟨item, -, hitem⟩ := Traverse.exists_of_mapM_ok hkeys hk
    exact ⟨k.column.name, hcolon _ (List.mem_of_getElem? (keyColumn_ok hitem).1), rfl⟩
  · rw [hag, List.forall₂_map_left_iff, List.map_map, List.forall₂_map_right_iff, List.forall₂_same]
    intro p hp
    obtain ⟨item, -, hitem⟩ := Traverse.exists_of_mapM_ok haggrs hp
    exact aggregatorOf_def hcolon hitem

theorem Shape.strictWeak (hg : Shape columns keys g) : StrictWeak g.lt := by
  rw [hg.order]
  exact itemsBefore_strictWeak _

def contents (keys : List KeyColumn) (key : IndexKey) : List KeyValue :=
  readKeys (keys.map fun k => k.column.type) key

theorem Shape.equiv_iff (hg : Shape columns keys g) (a b : IndexKey) :
    equiv g.lt a b = true ↔ contents keys a = contents keys b := by
  rw [hg.order, itemsBefore_equiv, hg.affinity, readKeys_affinity, readKeys_affinity]
  rfl

theorem Shape.lt_eq (hg : Shape columns keys g) (a b : IndexKey) :
    g.lt a b = lexBefore (keys.map fun k => k.order.descending) (contents keys a)
      (contents keys b) := by
  rw [hg.order, itemsBefore_eq_lex, hg.affinity, readKeys_affinity, readKeys_affinity, List.map_map]
  rfl

theorem Frame.inside (hg : Frame columns keys g) {col : ℕ} (hcol : col ∈ g.indexColumnNums) :
    col < columns.length := by
  rw [hg.nums] at hcol
  obtain ⟨k, hk, rfl⟩ := List.mem_map.mp hcol
  exact (List.getElem?_eq_some_iff.mp (hg.found k hk)).1

def groups (g : GroupIndex) (rows : List (List Data)) : List (IndexKey × List Data) :=
  GroupFold.fold g.lt g.keyOf g.newBucket g.updateBucket rows

def enter (g : GroupIndex) (row : List Data) (m : List (IndexKey × List Data)) :
    List (IndexKey × List Data) := GroupFold.enter g.lt g.keyOf g.newBucket g.updateBucket m row

theorem groups_append (g : GroupIndex) (rows : List (List Data)) (row : List Data) :
    g.groups (rows ++ [row]) = g.enter row (g.groups rows) := GroupFold.fold_append rows row

theorem updateIndex_eq (g : GroupIndex) (row : List Data) :
    g.updateIndex (g.keyOf row) row =
      ((get? g.lt (g.keyOf row) g.indexMap).isNone, g.withMap (g.enter row g.indexMap)) := by
  unfold updateIndex
  cases hget : get? g.lt (g.keyOf row) g.indexMap with
  | none =>
    have hup : update g.lt (g.keyOf row) [] (fun _ => g.updateBucket g.newBucket row) g.indexMap =
        g.enter row g.indexMap := update_of_get?_none hget rfl
    simp only [hup]
    rfl
  | some bucket =>
    have hup : update g.lt (g.keyOf row) [] (fun _ => g.updateBucket bucket row) g.indexMap =
        g.enter row g.indexMap := update_of_get?_some hget [] g.newBucket (g.updateBucket · row)
    simp only [hup]
    rfl

theorem Frame.enter_congr (hg : Frame columns keys g) {row row' : List Data}
    (h : ∀ col < columns.length, row.getD col (.word 0) = row'.getD col (.word 0)) :
    g.keyOf row = g.keyOf row' ∧ ∀ bucket, g.updateBucket bucket row =
      g.updateBucket bucket row' := by
  refine ⟨List.map_congr_left fun col hcol => h col (hg.inside hcol), fun bucket => ?_⟩
  refine List.ext_getElem (by simp [updateBucket]) fun i h₁ h₂ => ?_
  have hi : i < g.aggregators.length := by
    simp only [updateBucket, List.length_zipWith] at h₁
    omega
  simp only [updateBucket, List.getElem_zipWith, Aggregator.update]
  rcases hg.aggregated _ (List.getElem_mem hi) with hcount | hcol
  · simp only [hcount]
  · rw [h _ hcol]

@[simp] theorem makeRow_length (g : GroupIndex) (it : IndexKey × List Data) :
    (g.makeRow it).length = g.indexColumnNums.length + g.aggregators.length := by simp [makeRow]

theorem Frame.makeRow_width (hg : Frame columns keys g) (it : IndexKey × List Data) :
    (g.makeRow it).length = g.groupedTable.columns.length := by
  rw [makeRow_length, hg.width, hg.nums, List.length_map]

def resultOf (g : GroupIndex) (rows : List (List Data)) : SharedTable :=
  .ofRows g.groupedTable.columns ((g.groups rows).map g.makeRow) []

variable {rs : List (List Data)}

theorem Frame.makeKey (hg : Frame columns keys g) (row : List Data) :
    Nkit.makeKey g.indexColumnNums row = some (g.keyOf row) := by
  refine if_pos ?_
  rw [hg.nums, List.length_map]
  exact hg.size

theorem Frame.updateFromTable_storage (hg : Frame columns keys g) (hu : Uniform columns.length rs)
    {r : ℕ} (hr : r < rs.length) (m : List (IndexKey × List Data)) :
    (g.withMap m).updateFromTable (rs.drop r).flatten = some (g.withMap (g.enter rs[r] m)) := by
  obtain ⟨hkey, hbucket⟩ := hg.enter_congr fun col hcol =>
    SharedTable.getD_drop_flatten hu hr hcol (.word 0)
  have hmake : Nkit.makeKey (g.withMap m).indexColumnNums (rs.drop r).flatten =
      some ((g.withMap m).keyOf (rs.drop r).flatten) := hg.makeKey _
  have henter : g.enter (rs.drop r).flatten m = g.enter rs[r] m := by
    simp only [enter, GroupFold.enter, hkey, hbucket]
  rw [updateFromTable, hmake]
  simp only [Option.bind_eq_bind, Option.bind_some, updateIndex_eq]
  rw [← henter]
  rfl

theorem Frame.buildFrom_ofRows (hg : Frame columns keys g)
    (hempty : g.groupedTable = .ofRows g.groupedTable.columns [] []) (hmap : g.indexMap = [])
    (hu : Uniform columns.length rs) (xs : List TableIndex) (now : ℕ → BitVec 64) (h : StringHeap) :
    ∃ h', g.buildFrom now (.ofRows columns rs xs) h = some (h', g.resultOf rs) := by
  have hloop : ∀ n ≤ rs.length, (List.range n).foldlM (fun (g : GroupIndex) i => do
      let row ← (SharedTable.ofRows columns rs xs).storage.get i
      g.updateFromTable row) g = some (g.withMap (g.groups (rs.take n))) := by
    intro n
    induction n with
    | zero =>
      intro _
      obtain ⟨nums, aggregators, groupedTable, cmp, indexMap⟩ := g
      subst hmap
      rfl
    | succ n ih =>
      intro hn
      rw [List.range_succ, List.foldlM_append, ih (by omega)]
      simp only [Option.bind_eq_bind, Option.bind_some, List.foldlM_cons, List.foldlM_nil,
        SharedTable.get_ofRows xs hu (show n ≤ rs.length by omega),
        hg.updateFromTable_storage hu (show n < rs.length by omega)]
      rw [List.take_succ_eq_append_getElem (by omega), groups_append]
      rfl
  have hall := hloop rs.length le_rfl
  rw [List.take_length] at hall
  have hheight : (SharedTable.ofRows columns rs xs).height = rs.length := rfl
  unfold buildFrom
  rw [hheight]
  split_ifs with hzero
  · refine ⟨h, ?_⟩
    rw [List.length_eq_zero_iff.mp hzero, hempty]
    rfl
  · obtain ⟨h', hfold⟩ := SharedTable.foldl_appendRowUnsafe [] now g.makeRow hg.makeRow_width
      (g.groups rs) [] h
    refine ⟨h', ?_⟩
    rw [hall]
    rw [← hempty] at hfold
    exact congrArg some hfold

/-- `Group` comes to the table of all groups. -/
theorem create_group {indexDef aggr : Bytes} (hkeys : keyColumns columns indexDef = .ok keys)
    (hcreate : create columns indexDef aggr = .ok g) (hsize : keys.length ≤ indexKeyMaxSize)
    (hu : Uniform columns.length rs) (xs : List TableIndex) (now : ℕ → BitVec 64) (h : StringHeap) :
    ∃ h', (SharedTable.ofRows columns rs xs).group now indexDef aggr h =
      some (.ok (h', g.resultOf rs)) := by
  obtain ⟨hframe, hempty, hmap⟩ := create_frame hkeys hcreate hsize
  obtain ⟨h', hbuild⟩ := hframe.buildFrom_ofRows hempty hmap hu xs now h
  have hcreate' : create (SharedTable.ofRows columns rs xs).columns indexDef aggr = .ok g := hcreate
  refine ⟨h', ?_⟩
  rw [SharedTable.group, hcreate']
  simp only [hbuild, Option.map_some]

theorem foldl_updateBucket (g : GroupIndex) (rows : List (List Data)) :
    rows.foldl g.updateBucket g.newBucket =
      g.aggregators.map fun a => rows.foldl a.update a.defaultData := by
  induction rows using List.reverseRecOn with
  | nil => rfl
  | append_singleton rows row ih =>
    rw [List.foldl_append, ih]
    refine List.ext_getElem (by simp [updateBucket]) fun i h₁ h₂ => ?_
    simp [updateBucket]

end GroupIndex

namespace Aggregator

variable {a : Aggregator}

theorem foldl_count (hcount : a.method = .count) (rows : List (List Data)) (acc : BitVec 64) :
    rows.foldl a.update (.word acc) = .word (acc + BitVec.ofNat 64 rows.length) := by
  induction rows generalizing acc with
  | nil => simp
  | cons row rows ih =>
    have hstep : a.update (.word acc) row = .word (acc + 1) := by simp [update, hcount, Data.bits]
    rw [List.foldl_cons, hstep, ih, List.length_cons, Nat.add_comm, BitVec.ofNat_add,
      BitVec.add_assoc]
    rfl

theorem bits_eq_ofInt (d : Data) : d.bits = BitVec.ofInt 64 d.i64 := by
  cases d with
  | word w => exact (BitVec.ofInt_toInt).symm
  | str s => rfl
  | obj addr => rfl

theorem bits_eq_ofNat (d : Data) : d.bits = BitVec.ofNat 64 d.ui64 := by
  cases d with
  | word w => exact (BitVec.ofNat_toNat 64 w).symm.trans (by simp [Data.ui64])
  | str s => rfl
  | obj addr => rfl

theorem update_sum (hsum : a.method = .sum) (htype : a.type = .integer ∨ a.type = .unsignedInteger)
    (acc : BitVec 64) (row : List Data) :
    a.update (.word acc) row = .word (acc + (row.getD a.columnNum (.word 0)).bits) := by
  rcases htype with htype | htype <;> simp only [update, hsum, opAdd, htype] <;> rfl

theorem foldl_sum_integer (hsum : a.method = .sum) (htype : a.type = .integer)
    (rows : List (List Data)) (acc : BitVec 64) : rows.foldl a.update (.word acc) =
      .word (acc +
        BitVec.ofInt 64 (rows.map fun row => (row.getD a.columnNum (.word 0)).i64).sum) := by
  induction rows generalizing acc with
  | nil => simp
  | cons row rows ih =>
    rw [List.foldl_cons, update_sum hsum (.inl htype), ih, List.map_cons, List.sum_cons,
      BitVec.ofInt_add, ← bits_eq_ofInt, BitVec.add_assoc]

theorem foldl_sum_unsigned (hsum : a.method = .sum) (htype : a.type = .unsignedInteger)
    (rows : List (List Data)) (acc : BitVec 64) : rows.foldl a.update (.word acc) =
      .word (acc +
        BitVec.ofNat 64 (rows.map fun row => (row.getD a.columnNum (.word 0)).ui64).sum) := by
  induction rows generalizing acc with
  | nil => simp
  | cons row rows ih =>
    rw [List.foldl_cons, update_sum hsum (.inr htype), ih, List.map_cons, List.sum_cons,
      BitVec.ofNat_add, ← bits_eq_ofNat, BitVec.add_assoc]

end Aggregator

namespace SharedTable

def cell (t : SharedTable) (r c : ℕ) : Data :=
  t.storage.array.getD (t.storage.offsetToPos r + c) (.word 0)

/-- The contents of the key columns of row `i`. -/
def groupKey (t : SharedTable) (keys : List GroupIndex.KeyColumn) (i : ℕ) : List KeyValue :=
  GroupIndex.contents keys (keys.map fun k => t.cell i k.colNum)

/-- The contents of the leading columns of row `j` of a grouped table. -/
def leadingKey (t : SharedTable) (keys : List GroupIndex.KeyColumn) (j : ℕ) : List KeyValue :=
  GroupIndex.contents keys ((List.range keys.length).map (t.cell j))

def rowsWithKey (t : SharedTable) (keys : List GroupIndex.KeyColumn) (key : List KeyValue) :
    List ℕ :=
  (List.range t.height).filter fun i => t.groupKey keys i = key

variable {columns : List Column} {rs : List (List Data)} (xs : List TableIndex)

theorem rows_eq_map_range (rs : List (List Data)) :
    rs = (List.range rs.length).map fun i => rs.getD i [] := by
  refine List.ext_getElem (by simp) fun i h₁ h₂ => ?_
  simp [h₁]

theorem cell_ofRows (hu : Uniform columns.length rs) {r c : ℕ} (hr : r < rs.length)
    (hc : c < columns.length) : (ofRows columns rs xs).cell r c = rs[r].getD c (.word 0) := by
  have hdrop := getD_drop_flatten hu hr hc (.word 0)
  rw [← drop_flatten hu] at hdrop
  rw [← hdrop, cell, List.getD_eq_getElem?_getD, List.getD_eq_getElem?_getD, List.getElem?_drop]
  rfl

end SharedTable

/-- COUNT is the number of rows, SUM the sum over the rows, both modulo `2 ^ 64`. -/
def Aggregator.total (t : SharedTable) (rows : List ℕ) (a : Aggregator) : BitVec 64 :=
  match a.method, a.type with
  | .count, _ => BitVec.ofNat 64 rows.length
  | _, .integer => BitVec.ofInt 64 (rows.map fun i => (t.cell i a.columnNum).i64).sum
  | _, _ => BitVec.ofNat 64 (rows.map fun i => (t.cell i a.columnNum).ui64).sum

namespace GroupIndex

variable {columns : List Column} {keys : List KeyColumn} {g : GroupIndex} {rs : List (List Data)}
  (xs : List TableIndex)

theorem Frame.groupKey_ofRows (hg : Frame columns keys g) (hu : Uniform columns.length rs) {i : ℕ}
    (hi : i < rs.length) :
    (SharedTable.ofRows columns rs xs).groupKey keys i = contents keys (g.keyOf rs[i]) := by
  rw [SharedTable.groupKey, keyOf, hg.nums, List.map_map]
  congr 1
  refine List.map_congr_left fun k hk => ?_
  exact SharedTable.cell_ofRows xs hu hi (List.getElem?_eq_some_iff.mp (hg.found k hk)).1

theorem Shape.map_rowsWithKey (hg : Shape columns keys g) (hu : Uniform columns.length rs)
    (key : IndexKey) :
    ((SharedTable.ofRows columns rs xs).rowsWithKey keys (contents keys key)).map
      (fun i => rs.getD i []) =
      GroupFold.members g.lt g.keyOf rs key := by
  conv_rhs => rw [SharedTable.rows_eq_map_range rs, GroupFold.members, List.filter_map]
  congr 1
  refine List.filter_congr fun i hi => ?_
  have hi' : i < rs.length := List.mem_range.mp hi
  rw [hg.frame.groupKey_ofRows xs hu hi', Function.comp_apply, List.getD_eq_getElem rs [] hi',
    Bool.eq_iff_iff, decide_eq_true_eq, hg.equiv_iff]

theorem Frame.resultOf_uniform (hg : Frame columns keys g) (rows : List (List Data)) :
    Uniform g.groupedTable.columns.length ((g.groups rows).map g.makeRow) := by
  intro row hrow
  obtain ⟨it, -, rfl⟩ := List.mem_map.mp hrow
  exact hg.makeRow_width it

theorem Frame.cell_resultOf (hg : Frame columns keys g) {j : ℕ} (hj : j < (g.groups rs).length)
    {c : ℕ} (hc : c < keys.length + g.aggregators.length) :
    (g.resultOf rs).cell j c = (g.makeRow (g.groups rs)[j]).getD c (.word 0) := by
  have hlen : j < ((g.groups rs).map g.makeRow).length := by rwa [List.length_map]
  rw [resultOf, SharedTable.cell_ofRows [] (hg.resultOf_uniform rs) hlen (by rwa [hg.width]),
    List.getElem_map]

theorem Frame.leading_resultOf (hg : Frame columns keys g) {j : ℕ} (hj : j < (g.groups rs).length) :
    (List.range keys.length).map ((g.resultOf rs).cell j) = (g.groups rs)[j].1 := by
  obtain ⟨row, -, hkey⟩ := GroupFold.key_of_mem_fold (List.getElem_mem hj)
  have hlen : (g.groups rs)[j].1.length = keys.length := by
    rw [show (g.groups rs)[j].1 = g.keyOf row from hkey, keyOf, hg.nums, List.length_map,
      List.length_map]
  refine List.ext_getElem (by simp [hlen]) fun c h₁ h₂ => ?_
  have hc : c < keys.length := by simpa using h₁
  rw [List.getElem_map, List.getElem_range, hg.cell_resultOf hj (by omega), makeRow,
    List.getD_append _ _ _ _ (by simpa [hg.nums] using hc),
    List.getD_eq_getElem _ _ (by simpa [hg.nums] using hc), List.getElem_map, List.getElem_range,
    List.getD_eq_getElem _ _ h₂]

theorem Frame.leadingKey_resultOf (hg : Frame columns keys g) {j : ℕ}
    (hj : j < (g.groups rs).length) :
    (g.resultOf rs).leadingKey keys j = contents keys (g.groups rs)[j].1 :=
  congrArg (contents keys) (hg.leading_resultOf hj)

theorem height_resultOf (g : GroupIndex) (rs : List (List Data)) :
    (g.resultOf rs).height = (g.groups rs).length := List.length_map _

theorem Frame.map_leading (hg : Frame columns keys g) (rs : List (List Data)) :
    (List.range (g.resultOf rs).height).map
      (fun j => (List.range keys.length).map ((g.resultOf rs).cell j)) =
      (g.groups rs).map Prod.fst := by
  refine List.ext_getElem (by simp [height_resultOf]) fun j h₁ h₂ => ?_
  have hj : j < (g.groups rs).length := by simpa using h₂
  rw [List.getElem_map, List.getElem_map, List.getElem_range, hg.leading_resultOf hj]

theorem Frame.map_leadingKey (hg : Frame columns keys g) :
    (List.range (g.resultOf rs).height).map ((g.resultOf rs).leadingKey keys) =
      (g.groups rs).map fun e => contents keys e.1 := by
  have hmap := congrArg (List.map (contents keys)) (hg.map_leading rs)
  rwa [List.map_map, List.map_map] at hmap

theorem Shape.aggregate_resultOf (hg : Shape columns keys g) {j n : ℕ}
    (hj : j < (g.groups rs).length) {a : Aggregator} (ha : g.aggregators[n]? = some a) :
    (g.resultOf rs).cell j (keys.length + n) =
      (GroupFold.members g.lt g.keyOf rs (g.groups rs)[j].1).foldl a.update a.defaultData := by
  obtain ⟨hn, rfl⟩ := List.getElem?_eq_some_iff.mp ha
  have hbucket : (g.groups rs)[j].2 = _ :=
    GroupFold.value_of_mem_fold hg.strictWeak (List.getElem_mem hj)
  rw [foldl_updateBucket] at hbucket
  rw [hg.frame.cell_resultOf hj (by omega), makeRow, hbucket,
    List.getD_append_right _ _ _ _ (by simp [hg.nums])]
  simp [hg.nums, hn]

theorem Shape.foldl_total (hg : Shape columns keys g) (hu : Uniform columns.length rs)
    {a : Aggregator} (ha : a ∈ g.aggregators)
    (hplain : a.method = .count ∨ a.method = .sum ∧ (a.type = .integer ∨ a.type = .unsignedInteger))
    (key : IndexKey) :
    (GroupFold.members g.lt g.keyOf rs key).foldl a.update a.defaultData = .word (a.total
      (.ofRows columns rs xs)
      ((SharedTable.ofRows columns rs xs).rowsWithKey keys (contents keys key))) := by
  have hdefault : a.defaultData = .word 0#64 := by
    rw [hg.defaults a ha]
    rcases hplain with hm | ⟨hm, -⟩ <;> rw [hm] <;> rfl
  have hcell : ∀ i ∈ (SharedTable.ofRows columns rs xs).rowsWithKey keys (contents keys key),
      a.method = .sum → (rs.getD i []).getD a.columnNum (.word 0) =
        (SharedTable.ofRows columns rs xs).cell i a.columnNum := by
    intro i hi hsum
    have hi' : i < rs.length := List.mem_range.mp (List.mem_filter.mp hi).1
    have hcol : a.columnNum < columns.length :=
      (hg.aggregated a ha).resolve_left fun hcount => by simp [hsum] at hcount
    rw [SharedTable.cell_ofRows xs hu hi' hcol, List.getD_eq_getElem rs [] hi']
  rw [hdefault, ← hg.map_rowsWithKey xs hu key]
  rcases hplain with hcount | ⟨hsum, htype | htype⟩
  · rw [Aggregator.foldl_count hcount, List.length_map, BitVec.zero_add]
    simp only [Aggregator.total, hcount]
  · have hsame := List.map_congr_left fun i hi => congrArg Data.i64 (hcell i hi hsum)
    rw [Aggregator.foldl_sum_integer hsum htype, List.map_map, BitVec.zero_add]
    simp only [Aggregator.total, hsum, htype, Function.comp_def, hsame]
  · have hsame := List.map_congr_left fun i hi => congrArg Data.ui64 (hcell i hi hsum)
    rw [Aggregator.foldl_sum_unsigned hsum htype, List.map_map, BitVec.zero_add]
    simp only [Aggregator.total, hsum, htype, Function.comp_def, hsame]

end GroupIndex

/-- **`Group` lists the distinct keys in order, each with its aggregates.** -/
theorem group_lists_distinct_keys {t : SharedTable} (ht : t.Laid) {indexDef aggr : Bytes}
    {keys : List GroupIndex.KeyColumn} (hkeys : GroupIndex.keyColumns t.columns indexDef = .ok keys)
    {g : GroupIndex} (hcreate : GroupIndex.create t.columns indexDef aggr = .ok g)
    (hsize : keys.length ≤ indexKeyMaxSize) (hfloat : ∀ k ∈ keys, k.column.type ≠ .float)
    (hplain : ∀ a ∈ g.aggregators,
      a.method = .count ∨ a.method = .sum ∧ (a.type = .integer ∨ a.type = .unsignedInteger))
    (now : ℕ → BitVec 64) (h : StringHeap) :
    ∃ h' result, t.group now indexDef aggr h = some (.ok (h', result)) ∧
      result.width = keys.length + g.aggregators.length ∧
      ((∀ c ∈ t.columns, 58 ∉ c.name) → result.columns.map Column.type =
        (keys.map fun k => k.column.type) ++ g.aggregators.map Aggregator.type) ∧
      ((List.range result.height).map (result.leadingKey keys)).Pairwise
        (fun a b => lexBefore (keys.map fun k => k.order.descending) a b = true) ∧
      ((List.range result.height).map (result.leadingKey keys)).Nodup ∧
      (∀ key, key ∈ (List.range result.height).map (result.leadingKey keys) ↔
        key ∈ (List.range t.height).map (t.groupKey keys)) ∧
      ∀ j < result.height, ∀ n a, g.aggregators[n]? = some a →
        result.cell j (keys.length + n) =
          .word (a.total t (t.rowsWithKey keys (result.leadingKey keys j))) ∧
        (a.method = .count → t.height < 2 ^ 64 → (result.cell j (keys.length + n)).ui64 =
          (t.rowsWithKey keys (result.leadingKey keys j)).length) := by
  obtain ⟨rs, hrs, hu⟩ := ht.exists_rows
  obtain ⟨hg, -, -⟩ := GroupIndex.create_shape hkeys hcreate hsize hfloat
  obtain ⟨h', hgroup⟩ := GroupIndex.create_group hkeys hcreate hsize hu t.tableIndexSet now h
  rw [← hrs] at hgroup
  -- the groups are kept sorted by their keys, so no key comes twice
  have hsorted : Sorted g.lt (g.groups rs) := GroupFold.fold_sorted hg.strictWeak rs
  have hheight : t.height = rs.length := by
    rw [hrs]
    rfl
  have hkeyAt : ∀ i (hi : i < rs.length), t.groupKey keys i =
      GroupIndex.contents keys (g.keyOf rs[i]) := by
    intro i hi
    rw [hrs]
    exact hg.frame.groupKey_ofRows t.tableIndexSet hu hi
  refine ⟨h', g.resultOf rs, hgroup, hg.width, ?_, ?_, ?_, ?_, ?_⟩
  · exact fun hcolon => GroupIndex.create_types hcolon hkeys hcreate
  · rw [hg.frame.map_leadingKey, List.pairwise_map]
    exact hsorted.imp fun {a b} hab => (hg.lt_eq a.1 b.1).symm.trans hab
  · rw [hg.frame.map_leadingKey, List.Nodup, List.pairwise_map]
    refine hsorted.imp fun {a b} hab htie => ?_
    rw [← hg.equiv_iff, not_equiv_of_lt hab] at htie
    cases htie
  · intro key
    rw [hg.frame.map_leadingKey, List.mem_map, List.mem_map]
    constructor
    · rintro ⟨e, he, rfl⟩
      obtain ⟨row, hrow, hkey⟩ := GroupFold.key_of_mem_fold he
      obtain ⟨i, hi, rfl⟩ := List.mem_iff_getElem.mp hrow
      exact ⟨i, List.mem_range.mpr (hheight ▸ hi), by rw [hkeyAt i hi, hkey]⟩
    · rintro ⟨i, hi, rfl⟩
      have hi' : i < rs.length := hheight ▸ List.mem_range.mp hi
      obtain ⟨e, he, htie⟩ := GroupFold.exists_group hg.strictWeak (List.getElem_mem hi')
      exact ⟨e, he, by rw [hkeyAt i hi', ← (hg.equiv_iff _ _).mp htie]⟩
  · intro j hj n a ha
    have hj' : j < (g.groups rs).length := by
      rwa [GroupIndex.height_resultOf] at hj
    have hcell : (g.resultOf rs).cell j (keys.length + n) =
        .word (a.total t (t.rowsWithKey keys ((g.resultOf rs).leadingKey keys j))) := by
      rw [hg.aggregate_resultOf hj' ha, hg.frame.leadingKey_resultOf hj',
        hg.foldl_total t.tableIndexSet hu (List.mem_of_getElem? ha)
        (hplain a (List.mem_of_getElem? ha)), ← hrs]
    refine ⟨hcell, fun hcount hsmall => ?_⟩
    rw [hcell, Data.ui64, Aggregator.total, hcount]
    simp only [BitVec.toNat_ofNat]
    refine Nat.mod_eq_of_lt (Nat.lt_of_le_of_lt ?_ hsmall)
    exact (List.length_filter_le _ _).trans_eq List.length_range

def sampleGroup : GroupIndex where
  indexColumnNums := [1]
  aggregators := [.create 0 .unsignedInteger .count, .create 0 .integer .sum]
  groupedTable :=
    .new [⟨ascii "s", .string⟩, ⟨ascii "COUNT", .unsignedInteger⟩, ⟨ascii "n", .integer⟩]
  cmp := ⟨[⟨[⟨.string, true⟩]⟩]⟩
  indexMap := []

def sampleKeys : List GroupIndex.KeyColumn := [⟨1, ⟨ascii "s", .string⟩, ⟨.string, true⟩⟩]

theorem create_sampleGroup :
    GroupIndex.keyColumns sampleColumns (ascii "-s") = .ok sampleKeys ∧
      GroupIndex.create sampleColumns (ascii "-s") (ascii "COUNT,SUM(n)") = .ok sampleGroup := by
  decide

def groupTable : SharedTable :=
  .ofRows sampleColumns [[.word 5, .str ⟨0, ascii "a"⟩], [.word 7, .str ⟨1, ascii "b"⟩],
    [.word (-2), .str ⟨2, ascii "a"⟩]] []

theorem group_lists_distinct_keys_sample : ∃ h' result,
    groupTable.group (fun _ => 0) (ascii "-s") (ascii "COUNT,SUM(n)") sampleHeap =
      some (.ok (h', result)) ∧
      result.height = 2 ∧
      (List.range result.height).map (result.leadingKey sampleKeys) =
        [[.text (ascii "b")], [.text (ascii "a")]] ∧
      ∀ j < result.height, result.cell j 2 = .word (Aggregator.total groupTable
        (groupTable.rowsWithKey sampleKeys (result.leadingKey sampleKeys j))
        (.create 0 .integer .sum)) := by
  obtain ⟨h', result, hgroup, -, -, -, -, -, hcells⟩ := group_lists_distinct_keys
    (t := groupTable) ⟨rfl, rfl⟩ create_sampleGroup.1 create_sampleGroup.2 (by decide) (by decide)
      (by decide)
    (fun _ => 0) sampleHeap
  have hresult : (groupTable.group (fun _ => 0) (ascii "-s") (ascii "COUNT,SUM(n)") sampleHeap).map
      (fun r =>
      r.toOption.map fun s =>
      (s.2.height, (List.range s.2.height).map (s.2.leadingKey sampleKeys))) =
      some (some (2, [[.text (ascii "b")], [.text (ascii "a")]])) := by decide
  rw [hgroup] at hresult
  obtain ⟨hheight, hleading⟩ := Prod.mk.inj (Option.some.inj (Option.some.inj hresult))
  exact ⟨h', result, hgroup, hheight, hleading, fun j hj => (hcells j hj 1 _ rfl).1⟩

end Nkit
