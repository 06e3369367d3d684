import Nkit.Table.Indexing
import Nkit.Base.GroupFold

/-! Runs of calls on a table with indices.  One invariant serves all runs: the storage is a
list of rows and every index is maintained for it.  Splicing a row keeps the invariant when
every bucket is partitioned at the row number, which ascending buckets always are. -/

namespace Nkit
open FlatRows OrderedMap InvertedIndex Renumber

inductive Action where
  | call (call : Call)
  | createIndex (indexDefinition : Bytes)

def Action.perform : Action → TableState → Option (Bool × TableState)
  | call c, s => c.perform s
  | createIndex indexDefinition, (h, t) =>
    match t.createIndex indexDefinition with
    | none => none
    | some (.error _) => some (false, h, t)
    | some (.ok t') => some (true, h, t')

/-- At most 63 key columns, all of type `INTEGER`, `UNSIGNED_INTEGER` or `STRING`. -/
def PlainIndex (columns : List Column) (indexDefinition : Bytes) : Prop :=
  ∀ keys, TableIndex.keyColumns columns indexDefinition = .ok keys →
    keys.length ≤ indexKeyMaxSize ∧
      ∀ k ∈ keys, k.2.type = .integer ∨ k.2.type = .unsignedInteger ∨ k.2.type = .string

namespace TableIndex

variable {columns : List Column} {rs : List (List Data)}

theorem keyColumn_ok {item : Bytes} {k : ℕ × ItemOrder} (h : keyColumn columns item = .ok k) :
    columns[k.1]?.map Column.type = some k.2.type := by
  unfold keyColumn at h
  simp only at h
  split at h
  · cases h
  next colNum column hcol =>
    cases h
    obtain ⟨n, _, hn⟩ := Option.bind_eq_some_iff.mp hcol
    obtain ⟨c, hc, hpair⟩ := Option.map_eq_some_iff.mp hn
    cases hpair
    simp [hc]

theorem keyColumns_ok {indexDefinition : Bytes} {keys : List (ℕ × ItemOrder)}
    (h : keyColumns columns indexDefinition = .ok keys) :
    ∀ k ∈ keys, columns[k.1]?.map Column.type = some k.2.type := by
  unfold keyColumns at h
  split_ifs at h
  intro k hk
  obtain ⟨item, _, hitem⟩ := Traverse.exists_of_mapM_ok h hk
  exact keyColumn_ok hitem

theorem define_ok {indexDefinition : Bytes} {x : TableIndex}
    (h : define columns indexDefinition = .ok x) :
    ∃ keys, keyColumns columns indexDefinition = .ok keys ∧ x.columnNums = keys.map Prod.fst ∧
      getComparator ((keys.map Prod.snd).map ItemOrder.text) = .ok x.cmp ∧ x.indexMap = [] := by
  unfold define at h
  cases hkeys : keyColumns columns indexDefinition with
  | error e =>
    rw [hkeys] at h
    cases h
  | ok keys =>
    rw [hkeys] at h
    cases hcmp : getComparator (keys.map fun k => k.2.text) with
    | error e =>
      simp only [bind, Except.bind, hcmp] at h
      cases h
    | ok cmp =>
      simp only [bind, Except.bind, hcmp] at h
      cases h
      exact ⟨keys, rfl, rfl, by rw [List.map_map]; exact hcmp, rfl⟩

theorem keyTypes_eq {keys : List (ℕ × ItemOrder)} {x : TableIndex}
    (hcols : x.columnNums = keys.map Prod.fst)
    (hkeys : ∀ k ∈ keys, columns[k.1]?.map Column.type = some k.2.type) :
    x.keyTypes columns = (keys.map Prod.snd).map ItemOrder.type := by
  unfold keyTypes
  rw [hcols]
  clear hcols
  induction keys with
  | nil => rfl
  | cons k keys ih =>
    simp only [List.map_cons, List.filterMap_cons, hkeys k List.mem_cons_self]
    rw [ih fun k' h' => hkeys k' (List.mem_cons_of_mem _ h')]

theorem define_shape {indexDefinition : Bytes} {x : TableIndex}
    (hplain : PlainIndex columns indexDefinition) (h : define columns indexDefinition = .ok x) :
    Shape columns x ∧ x.indexMap = [] := by
  obtain ⟨keys, hkeys, hcols, hcmp, hmap⟩ := define_ok h
  obtain ⟨hsize, htypes⟩ := hplain keys hkeys
  have hcol := keyColumns_ok hkeys
  refine ⟨⟨?_, ?_, keys.map Prod.snd, (keyTypes_eq hcols hcol).symm, ?_⟩, hmap⟩
  · rw [hcols, List.length_map]
    exact hsize
  · intro col hmem
    rw [hcols, List.mem_map] at hmem
    obtain ⟨k, hk, rfl⟩ := hmem
    obtain ⟨c, hc, _⟩ := Option.map_eq_some_iff.mp (hcol k hk)
    exact (List.getElem?_eq_some_iff.mp hc).1
  · refine getComparator_lt ?_ hcmp
    intro o ho
    obtain ⟨k, hk, rfl⟩ := List.mem_map.mp ho
    rcases htypes k hk with hk | hk | hk <;> rw [hk] <;> decide

def entries (x : TableIndex) (rs : List (List Data)) : List (IndexKey × List ℕ) :=
  GroupFold.fold x.lt (fun r => x.keyOf r.1) [] (fun rows r => rows ++ [r.2]) rs.zipIdx

theorem entries_append (x : TableIndex) (rs : List (List Data)) (row : List Data) :
    x.entries (rs ++ [row]) = update x.lt (x.keyOf row) [] (· ++ [rs.length]) (x.entries rs) := by
  rw [entries, List.zipIdx_append, List.zipIdx_singleton, Nat.zero_add]
  exact GroupFold.fold_append _ _

theorem buildIndex_ofRows {x : TableIndex} (hsize : x.columnNums.length ≤ indexKeyMaxSize)
    (hinside : ∀ col ∈ x.columnNums, col < columns.length) (hmap : x.indexMap = [])
    (hu : Uniform columns.length rs) (xs : List TableIndex) :
    x.buildIndex (SharedTable.ofRows columns rs xs).storage rs.length =
      some (x.withMap (x.entries rs)) := by
  have hloop : ∀ n ≤ rs.length, (List.range n).foldlM (fun m row => do
      let data ← (SharedTable.ofRows columns rs xs).storage.get row
      let key ← makeKey x.columnNums data
      some (update x.lt key [] (· ++ [row]) m)) x.indexMap = some (x.entries (rs.take n)) := by
    intro n
    induction n with
    | zero =>
      intro _
      rw [hmap]
      rfl
    | succ n ih =>
      intro hn
      have hlen : (rs.take n).length = n := by rw [List.length_take]; omega
      rw [List.range_succ, List.foldlM_append, ih (by omega)]
      simp only [Option.bind_eq_bind, Option.bind_some, List.foldlM_cons, List.foldlM_nil,
        SharedTable.get_ofRows xs hu (show n ≤ rs.length by omega),
        makeKey_storage hsize hinside hu (show n < rs.length by omega)]
      rw [List.take_succ_eq_append_getElem (by omega), entries_append, hlen]
      rfl
  have hall := hloop rs.length le_rfl
  rw [List.take_length] at hall
  unfold buildIndex
  rw [hall]
  rfl

theorem entries_indexes {x : TableIndex} (hx : Shape columns x) (rs : List (List Data)) :
    IndexesSeq x.lt (rs.map x.keyOf) (x.entries rs) ∧ Ascending x.lt (x.entries rs) := by
  induction rs using List.reverseRecOn with
  | nil => exact ⟨Indexes.empty fun i => by simp, fun k => List.Pairwise.nil⟩
  | append_singleton rs row ih =>
    have happ := ih.1.append hx.strictWeak (x.keyOf row)
    have hasc := ascending_append hx.strictWeak ih.1 ih.2 (x.keyOf row)
    rw [List.length_map] at happ hasc
    rw [entries_append, List.map_append]
    exact ⟨happ, hasc⟩

/-- `BuildIndex` enters the rows one after another. -/
theorem buildIndex_maintained {x : TableIndex} (hx : Shape columns x) (hmap : x.indexMap = [])
    (hu : Uniform columns.length rs) (xs : List TableIndex) (asc : Bool) :
    ∃ x', x.buildIndex (SharedTable.ofRows columns rs xs).storage rs.length = some x' ∧
      x'.columnNums = x.columnNums ∧ x'.cmp = x.cmp ∧ Maintained asc columns rs x' ∧
      ∀ e ∈ x'.indexMap, ∃ row ∈ rs, e.1 = x.keyOf row := by
  obtain ⟨hseq, hasc⟩ := entries_indexes hx rs
  refine ⟨_, buildIndex_ofRows hx.size hx.inside hmap hu xs, rfl, rfl,
    ⟨hx.withMap _, hseq, fun _ => hasc⟩, fun e he => ?_⟩
  obtain ⟨r, hr, hkey⟩ := GroupFold.key_of_mem_fold he
  exact ⟨r.1, List.fst_mem_of_mem_zipIdx hr, hkey⟩

/-- What `Create` returns for a table is the index it defined, filled with all rows. -/
theorem create_maintained {t : SharedTable} (ht : t.Laid) {indexDefinition : Bytes}
    (hplain : PlainIndex t.columns indexDefinition) (asc : Bool) {built : TableIndex}
    (hcreate : create t indexDefinition = some (.ok built)) :
    ∃ rs x, t = SharedTable.ofRows t.columns rs t.tableIndexSet ∧ Uniform t.columns.length rs ∧
      define t.columns indexDefinition = .ok x ∧ built.columnNums = x.columnNums ∧
        built.cmp = x.cmp ∧
      Maintained asc t.columns rs built := by
  obtain ⟨rs, hrs, hu⟩ := ht.exists_rows
  unfold create at hcreate
  cases hdef : define t.columns indexDefinition with
  | error e => simp [hdef] at hcreate
  | ok x =>
    obtain ⟨hshape, hmap⟩ := define_shape hplain hdef
    obtain ⟨x', hbuild, hnums, hcmp, hmaint, -⟩ :=
      buildIndex_maintained hshape hmap hu t.tableIndexSet asc
    rw [← hrs, show rs.length = t.rows by rw [hrs]; rfl] at hbuild
    simp only [hdef, hbuild, Option.map_some, Option.some.injEq, Except.ok.injEq] at hcreate
    subst hcreate
    exact ⟨rs, x, hrs, hu, rfl, hnums, hcmp, hmaint⟩

end TableIndex

/-- The storage is a list of rows and every index is maintained for it. -/
def Kept (asc : Bool) (columns : List Column) (s : TableState) : Prop :=
  ∃ rs xs, s.2 = SharedTable.ofRows columns rs xs ∧ Uniform columns.length rs ∧
    ∀ x ∈ xs, TableIndex.Maintained asc columns rs x

/-- A splice at row `r` renumbers every bucket as a whole. -/
def Call.Undisturbed : Call → TableState → Prop
  | insertRow _ r vargs, s => r < s.2.height ∧ s.2.validate vargs = true →
      ∀ x ∈ s.2.tableIndexSet, ∀ e ∈ x.indexMap, Partitioned r e.2
  | deleteRow r, s => r < s.2.height →
      ∀ x ∈ s.2.tableIndexSet, ∀ e ∈ x.indexMap, Partitioned r (e.2.erase r)
  | _, _ => True

def Call.Splices : Call → Prop
  | appendRow .. | insertRow .. | deleteRow .. => True
  | setRow .. | setCellValue .. => False

theorem Call.Splices.inRange {c : Call} (hc : c.Splices) (s : TableState) : c.InRange s := by
  cases c with
  | appendRow | insertRow | deleteRow | setRow => trivial
  | setCellValue => exact hc.elim

variable {columns : List Column} {rs : List (List Data)} {asc : Bool} {s : TableState}

theorem Kept.call (hw : 0 < columns.length) (hk : Kept asc columns s) (call : Call)
    (hin : call.InRange s) (hdist : call.Undisturbed s) (hasc : asc = true → call.Splices) :
    ∃ b s', call.perform s = some (b, s') ∧ Kept asc columns s' := by
  obtain ⟨h, t⟩ := s
  obtain ⟨rs, xs, rfl, hu, hxs⟩ := hk
  have hsame : Kept asc columns (h, SharedTable.ofRows columns rs xs) := ⟨rs, xs, rfl, hu, hxs⟩
  have hnew := fun now => SharedTable.newRow_length now columns
  cases call with
  | appendRow now vargs =>
    simp only [Call.perform, SharedTable.appendRow_ofRows]
    split_ifs with hv
    · obtain ⟨xs', hxs', hgood⟩ := Traverse.mapM_of_forall fun x hx =>
        (hxs x hx).appendRow (SharedTable.newRow now columns vargs h)
      rw [hxs']
      exact ⟨_, _, rfl, _, _, rfl, hu.append (hnew now vargs h), hgood⟩
    · exact ⟨_, _, rfl, hsame⟩
  | insertRow now r vargs =>
    simp only [Call.perform, SharedTable.insertRow_ofRows xs hw hu]
    split_ifs with hv
    · obtain ⟨xs', hxs', hgood⟩ := Traverse.mapM_of_forall fun x hx =>
        (hxs x hx).insertRow hv.1 (hdist hv x hx) (SharedTable.newRow now columns vargs h)
      rw [hxs']
      exact ⟨_, _, rfl, _, _, rfl, hu.insertIdx (hnew now vargs h) r, hgood⟩
    · exact ⟨_, _, rfl, hsame⟩
  | deleteRow r =>
    simp only [Call.perform, SharedTable.deleteRow_ofRows xs hw hu]
    split_ifs with hr
    · obtain ⟨xs', hxs', hgood⟩ := Traverse.mapM_of_forall fun x hx =>
        (hxs x hx).deleteRow hu hr (hdist hr x hx)
      rw [hxs']
      exact ⟨_, _, rfl, _, _, rfl, hu.eraseIdx r, hgood⟩
    · exact ⟨_, _, rfl, hsame⟩
  | setRow now r vargs =>
    cases asc with
    | true =>
      -- where the buckets are to stay ascending the calls are splices
      exact (hasc rfl).elim
    | false =>
      simp only [Call.perform, SharedTable.setRow_ofRows xs hu]
      split_ifs with hv
      · obtain ⟨removed, hremoved, xs', hxs', hgood⟩ := Traverse.mapM_mapM_of_forall fun x hx => by
          obtain ⟨x', h1, x'', h2, -, h3⟩ := (hxs x hx).replaceRow hu hv.1
            (SharedTable.newRow now columns vargs h) _ ((hxs x hx).shape.makeKey _)
          exact ⟨x', h1, x'', h2, h3⟩
        rw [hremoved, Option.bind_some, hxs']
        exact ⟨_, _, rfl, _, _, rfl, hu.set (hnew now vargs h) r, hgood⟩
      · exact ⟨_, _, rfl, hsame⟩
  | setCellValue r c v =>
    cases asc with
    | true => exact (hasc rfl).elim
    | false =>
      have hr : r < rs.length := hin.1
      have hc : c < columns.length := hin.2
      simp only [Call.perform, SharedTable.setCellValue_ofRows xs hu hr hc]
      split_ifs with ht
      · have hlen : (rs[r].set c v.data).length = columns.length := by
          rw [List.length_set]
          exact hu _ (List.getElem_mem hr)
        obtain ⟨removed, hremoved, xs', hxs', hgood⟩ := Traverse.mapM_mapM_of_forall fun x hx =>
          (hxs x hx).replaceCell hu hr hc v.data
        rw [hremoved, Option.bind_some, hxs']
        exact ⟨_, _, rfl, _, _, rfl, hu.set hlen r, hgood⟩
      · exact ⟨_, _, rfl, hsame⟩

theorem createIndex_ofRows (hu : Uniform columns.length rs) {indexDefinition : Bytes}
    (hplain : PlainIndex columns indexDefinition) (asc : Bool) (xs : List TableIndex)
    (h : StringHeap) :
    (∃ e, TableIndex.define columns indexDefinition = .error e ∧
      (Action.createIndex indexDefinition).perform (h, SharedTable.ofRows columns rs xs) =
        some (false, h, SharedTable.ofRows columns rs xs)) ∨
    ∃ x, TableIndex.Maintained asc columns rs x ∧
      (∀ e ∈ x.indexMap, ∃ row ∈ rs, e.1 = x.keyOf row) ∧
      (Action.createIndex indexDefinition).perform (h, SharedTable.ofRows columns rs xs) =
        some (true, h, SharedTable.ofRows columns rs (xs ++ [x])) := by
  have hcols : (SharedTable.ofRows columns rs xs).columns = columns := rfl
  have hrows : (SharedTable.ofRows columns rs xs).rows = rs.length := rfl
  simp only [Action.perform, SharedTable.createIndex, TableIndex.create, hcols, hrows]
  cases hdef : TableIndex.define columns indexDefinition with
  | error e => exact .inl ⟨e, rfl, rfl⟩
  | ok x =>
    obtain ⟨hshape, hmap⟩ := TableIndex.define_shape hplain hdef
    obtain ⟨x', hbuild, hnums, -, hx', hkeys⟩ :=
      TableIndex.buildIndex_maintained hshape hmap hu xs asc
    have hkeyOf : (x'.notifyReferToTable true).keyOf = x.keyOf := TableIndex.keyOf_congr_nums hnums
    refine .inr ⟨x'.notifyReferToTable true, hx'.withRefer true, by rwa [hkeyOf], ?_⟩
    simp only [hbuild]
    rfl

/-- In range, and new indices are over plain columns. -/
def Action.Allowed (columns : List Column) : Action → TableState → Prop
  | call c, s => c.InRange s
  | createIndex indexDefinition, _ => PlainIndex columns indexDefinition

def Action.Undisturbed : Action → TableState → Prop
  | call c, s => c.Undisturbed s
  | createIndex _, _ => True

/-- A row is appended, inserted or deleted, or an index over plain columns is created. -/
def Action.Splices (columns : List Column) : Action → Prop
  | call c => c.Splices
  | createIndex indexDefinition => PlainIndex columns indexDefinition

theorem Kept.action (hw : 0 < columns.length) (hk : Kept asc columns s) (a : Action)
    (hallowed : a.Allowed columns s) (hdist : a.Undisturbed s)
    (hasc : asc = true → a.Splices columns) :
    ∃ b s', a.perform s = some (b, s') ∧ Kept asc columns s' := by
  cases a with
  | call c => exact hk.call hw c hallowed hdist hasc
  | createIndex indexDefinition =>
    obtain ⟨h, t⟩ := s
    obtain ⟨rs, xs, rfl, hu, hxs⟩ := hk
    rcases createIndex_ofRows hu hallowed asc xs h with ⟨e, -, herr⟩ | ⟨x, hx, -, hok⟩
    · exact ⟨_, _, herr, rs, xs, rfl, hu, hxs⟩
    · refine ⟨_, _, hok, rs, xs ++ [x], rfl, hu, ?_⟩
      intro x' hx'
      rcases List.mem_append.mp hx' with hx' | hx'
      · exact hxs x' hx'
      · rw [List.mem_singleton.mp hx']
        exact hx

theorem Kept.undisturbed (hk : Kept true columns s) {a : Action} (ha : a.Splices columns) :
    a.Allowed columns s ∧ a.Undisturbed s := by
  obtain ⟨h, t⟩ := s
  obtain ⟨rs, xs, rfl, hu, hxs⟩ := hk
  cases a with
  | createIndex indexDefinition => exact ⟨ha, trivial⟩
  | call c =>
    cases c with
    | appendRow now vargs => exact ⟨trivial, trivial⟩
    | insertRow now r vargs => exact ⟨trivial, fun _ x hx e he => (hxs x hx).partitioned r he⟩
    | deleteRow r =>
      exact ⟨trivial, fun _ x hx e he =>
        ((hxs x hx).partitioned r he).sublist List.erase_sublist⟩
    | setRow now r vargs => exact ha.elim
    | setCellValue r c v => exact ha.elim

/-- A laid-out table with at least one column. -/
structure SharedTable.Sound (t : SharedTable) : Prop extends t.Laid where
  width_pos : 0 < t.width

theorem SharedTable.sound_of_create {tableDef : Bytes} {t : SharedTable}
    (h : SharedTable.create tableDef = .ok t) : t.Sound ∧ t.tableIndexSet = [] := by
  obtain ⟨ht, hw⟩ := SharedTable.create_ok h
  rw [ht]
  exact ⟨⟨⟨rfl, by simp [height, ofRows]⟩, hw⟩, rfl⟩

theorem SharedTable.Sound.kept {t : SharedTable} (ht : t.Sound) (hnone : t.tableIndexSet = [])
    (asc : Bool) (h : StringHeap) : Kept asc t.columns (h, t) := by
  obtain ⟨rs, hrs, hu⟩ := ht.toLaid.exists_rows
  exact ⟨rs, t.tableIndexSet, hrs, hu, by simp [hnone]⟩

/-- The key of row `i`, read from the storage. -/
def SharedTable.rowKey (t : SharedTable) (x : TableIndex) (i : ℕ) : IndexKey :=
  x.columnNums.map fun col => t.storage.array.getD (t.storage.offsetToPos i + col) (.word 0)

/-- Key columns of row `i` have the same contents as `key`. -/
def SharedTable.HasKey (t : SharedTable) (x : TableIndex) (i : ℕ) (key : IndexKey) : Prop :=
  readKeys (x.keyTypes t.columns) (t.rowKey x i) = readKeys (x.keyTypes t.columns) key

instance (t : SharedTable) (x : TableIndex) (i : ℕ) (key : IndexKey) :
    Decidable (t.HasKey x i key) :=
  inferInstanceAs (Decidable (_ = _))

/-- The index is what `BuildIndex` builds from scratch: equivalent keys with the same
buckets, each the ascending list of the rows that have its key. -/
def TableIndex.Rebuilt (t : SharedTable) (x : TableIndex) : Prop :=
  (∃ built, (x.withMap []).buildIndex t.storage t.rows = some built ∧
    List.Forall₂ (fun a b => equiv x.lt a.1 b.1 = true ∧ a.2 = b.2) x.indexMap built.indexMap) ∧
  ∀ e ∈ x.indexMap, e.2 = (List.range t.height).filter fun i => t.HasKey x i e.1

/-- The buckets partition the row numbers by current key. -/
def TableIndex.Partitions (t : SharedTable) (x : TableIndex) : Prop :=
  (x.indexMap.flatMap Prod.snd).Perm (List.range t.height) ∧
  ∀ e ∈ x.indexMap, e.2 ≠ [] ∧ ∀ i ∈ e.2, t.HasKey x i e.1

theorem TableIndex.Shape.rowKey_ofRows {x : TableIndex} (hx : x.Shape columns)
    (xs : List TableIndex) (hu : Uniform columns.length rs) {i : ℕ} (hi : i < rs.length) :
    (SharedTable.ofRows columns rs xs).rowKey x i = x.keyOf rs[i] := by
  refine List.map_congr_left fun col hcol => ?_
  have hdrop := SharedTable.getD_drop_flatten hu hi (hx.inside col hcol) (.word 0)
  rw [← drop_flatten hu] at hdrop
  rw [← hdrop, List.getD_eq_getElem?_getD, List.getD_eq_getElem?_getD, List.getElem?_drop]
  rfl

namespace TableIndex.Maintained

variable {rs : List (List Data)} {x : TableIndex} (xs : List TableIndex)

theorem mem_entry (hx : Maintained asc columns rs x) (hu : Uniform columns.length rs)
    {e : IndexKey × List ℕ} (he : e ∈ x.indexMap) (i : ℕ) :
    i ∈ e.2 ↔ i < rs.length ∧ (SharedTable.ofRows columns rs xs).HasKey x i e.1 := by
  rw [Indexes.mem_entry hx.shape.strictWeak hx.seq he]
  constructor
  · rintro ⟨k, hk, heq⟩
    obtain ⟨hi, rfl⟩ := List.getElem?_eq_some_iff.mp hk
    rw [List.length_map] at hi
    rw [hx.shape.equiv_iff, List.getElem_map] at heq
    exact ⟨hi, by rwa [SharedTable.HasKey, hx.shape.rowKey_ofRows xs hu hi]⟩
  · rintro ⟨hi, hkey⟩
    refine ⟨x.keyOf rs[i], key_at x hi, ?_⟩
    rw [hx.shape.equiv_iff]
    rwa [SharedTable.HasKey, hx.shape.rowKey_ofRows xs hu hi] at hkey

theorem partitions (hx : Maintained asc columns rs x) (hu : Uniform columns.length rs) :
    Partitions (SharedTable.ofRows columns rs xs) x := by
  refine ⟨?_, ?_⟩
  · have hperm := hx.seq.perm_range hx.shape.strictWeak
    rwa [List.length_map] at hperm
  · intro e he
    refine ⟨Indexes.entry_nonempty hx.shape.strictWeak hx.seq he, ?_⟩
    exact fun i hi => ((hx.mem_entry xs hu he i).mp hi).2

theorem rebuilt (hx : Maintained true columns rs x) (hu : Uniform columns.length rs) :
    Rebuilt (SharedTable.ofRows columns rs xs) x := by
  refine ⟨?_, ?_⟩
  · obtain ⟨built, hbuild, hcols, hcmp, hbuilt, -⟩ :=
      buildIndex_maintained (hx.shape.withMap []) rfl hu xs true
    refine ⟨built, hbuild, ?_⟩
    have hlt : built.lt = x.lt := congrArg IndexCompare.lt hcmp
    have hkey : built.keyOf = x.keyOf := keyOf_congr_nums hcols
    have hseq := hbuilt.seq
    have hasc := hbuilt.ascending rfl
    rw [hlt, hkey] at hseq
    rw [hlt] at hasc
    exact Indexes.unique hx.shape.strictWeak hx.seq (hx.ascending rfl) hseq hasc
  · intro e he
    have hasc : e.2.Pairwise (· < ·) := by
      rw [← bucket_of_mem hx.shape.strictWeak hx.seq.sorted he]
      exact hx.ascending rfl e.1
    refine ascending_ext hasc (List.pairwise_lt_range.filter _) ?_
    intro i
    rw [hx.mem_entry xs hu he, List.mem_filter, List.mem_range, decide_eq_true_eq]
    rfl

end TableIndex.Maintained

/-- **Splicing rows keeps every index as `BuildIndex` would rebuild it**, and no assertion of
`NotifyRowDelete` fails on the way. -/
theorem indices_rebuilt {t : SharedTable} (ht : t.Sound) (hnone : t.tableIndexSet = [])
    (h : StringHeap) (actions : List Action) (hsplices : ∀ a ∈ actions, a.Splices t.columns) :
    ∃ flags h' t', Runs.run Action.perform actions (h, t) = some (flags, h', t') ∧
      ∀ x ∈ t'.tableIndexSet, x.Rebuilt t' := by
  obtain ⟨flags, ⟨h', t'⟩, hrun, rs, xs, rfl, hu, hxs⟩ := Runs.run_of_allSteps
    (P := Kept true t.columns) (C := fun a _ => Action.Splices t.columns a)
    (fun a s hk ha => by
      obtain ⟨hallowed, hdist⟩ := hk.undisturbed ha
      exact hk.action ht.width_pos a hallowed hdist fun _ => ha)
    (ht.kept hnone true h) (Runs.allSteps_of_forall hsplices)
  exact ⟨flags, h', _, hrun, fun x hx => (hxs x hx).rebuilt xs hu⟩

def intArg (n : BitVec 64) : Dynamic := ⟨.integer, .word n⟩

def stringArg (addr : ℕ) (value : Bytes) : Dynamic := ⟨.string, .str ⟨addr, value⟩⟩

theorem keyColumns_sample : TableIndex.keyColumns sampleColumns (ascii "-n,s") =
    .ok [(0, ⟨.integer, true⟩), (1, ⟨.string, false⟩)] := by decide +kernel

theorem plainIndex_sample : PlainIndex sampleColumns (ascii "-n,s") := by
  intro keys hkeys
  cases keyColumns_sample.symm.trans hkeys
  decide

theorem sound_sample : (SharedTable.new sampleColumns).Sound := ⟨⟨rfl, rfl⟩, by decide⟩

def spliceActions : List Action :=
  [.call (.appendRow (fun _ => 0) [intArg 5]), .createIndex (ascii "-n,s"),
    .call (.insertRow (fun _ => 0) 0 [intArg 5]), .call (.insertRow (fun _ => 0) 1 [intArg 7]),
    .call (.deleteRow 0)]

theorem indices_rebuilt_sample : ∃ flags h' t',
    Runs.run Action.perform spliceActions (sampleHeap, SharedTable.new sampleColumns) =
      some (flags, h', t') ∧ (t'.tableIndexSet.map fun x => x.indexMap.map Prod.snd) =
        [[[0], [1]]] ∧
      ∀ x ∈ t'.tableIndexSet, x.Rebuilt t' := by
  obtain ⟨flags, h', t', hrun, hall⟩ := indices_rebuilt sound_sample rfl sampleHeap spliceActions
    (by simp [spliceActions, Action.Splices, Call.Splices, SharedTable.new, plainIndex_sample])
  have hbuckets : (Runs.run Action.perform spliceActions
      (sampleHeap, SharedTable.new sampleColumns)).map (fun r =>
        r.2.2.tableIndexSet.map fun x => x.indexMap.map Prod.snd) = some [[[0], [1]]] := by decide
  rw [hrun] at hbuckets
  exact ⟨flags, h', t', hrun, Option.some.inj hbuckets, hall⟩

end Nkit
