import Nkit.Table.Rejection
import Nkit.Table.Comparators
import Nkit.Table.Grouping

/-! How many key columns an index or a group definition may have.  `GetComparator` stops a
definition at the number of parts `IndexCompare` has room for, which is one more than fit
into the items of an `IndexKey`. -/

namespace Nkit
open FlatRows

namespace Tools

variable {src ws : Bytes}

theorem skipSpaceForward_stops (pos : ℕ) :
    src.length ≤ skipSpaceForward src pos src.length ws ∨
      isWhiteSpace ws (charAt src (skipSpaceForward src pos src.length ws)) = false := by
  have hloop : ∀ fuel pos, src.length ≤ pos + fuel →
      src.length ≤ skipSpaceForwardLoop src src.length ws fuel pos ∨
        isWhiteSpace ws (charAt src (skipSpaceForwardLoop src src.length ws fuel pos)) = false := by
    intro fuel
    induction fuel with
    | zero => exact fun pos hpos => .inl hpos
    | succ fuel ih =>
      intro pos hpos
      rw [skipSpaceForwardLoop]
      split
      next => exact ih (pos + 1) (by omega)
      next hstop =>
        rw [Bool.and_eq_true, not_and_or, decide_eq_true_eq] at hstop
        exact hstop.imp Nat.le_of_not_lt Bool.eq_false_of_not_eq_true
  exact hloop _ pos (by omega)

def Flush (ws s : Bytes) : Prop := s = [] ∨ isWhiteSpace ws (charAt s 0) = false

theorem flush_substr {first : ℕ}
    (hfirst : src.length ≤ first ∨ isWhiteSpace ws (charAt src first) = false) (n : ℕ) :
    Flush ws (substr src first n) := by
  obtain hend | hchar := hfirst
  · left
    rw [substr, List.drop_eq_nil_of_le hend, List.take_nil]
  · cases n with
    | zero => exact .inl List.take_zero
    | succ n =>
      right
      have hhead : charAt (substr src first (n + 1)) 0 = charAt src first := by
        simp [charAt, substr]
      rwa [hhead]

theorem flush_of_mem_simpleSplit {delimeter item : Bytes}
    (h : item ∈ simpleSplit src delimeter ws) :
    Flush ws item := by
  have hloop : ∀ fuel first, (src.length ≤ first ∨ isWhiteSpace ws (charAt src first) = false) →
      ∀ item ∈ simpleSplitLoop src delimeter ws fuel first, Flush ws item := by
    intro fuel
    induction fuel with
    | zero => exact fun _ _ _ hitem => absurd hitem List.not_mem_nil
    | succ fuel ih =>
      intro first hfirst item hitem
      rw [simpleSplitLoop] at hitem
      split at hitem
      · obtain rfl := List.mem_singleton.mp hitem
        exact flush_substr hfirst _
      · obtain rfl | hitem := List.mem_cons.mp hitem
        · exact flush_substr hfirst _
        · exact ih _ (skipSpaceForward_stops _) item hitem
  unfold simpleSplit at h
  split at h
  · exact absurd h List.not_mem_nil
  · dsimp only at h
    split at h
    · exact absurd h List.not_mem_nil
    · exact hloop _ _ (skipSpaceForward_stops 0) item h

theorem skipSpaceBackward_le (pos : ℕ) : skipSpaceBackward src ws pos ≤ pos := by
  induction pos with
  | zero => exact le_rfl
  | succ pos ih =>
    rw [skipSpaceBackward]
    split
    · exact ih.trans (Nat.le_succ pos)
    · exact le_rfl

theorem not_mem_take_of_find {d : UInt8} {pos : ℕ} (h : find src [d] 0 = some pos) :
    d ∉ src.take pos := by
  rw [find, List.find?_range_eq_some] at h
  intro hmem
  obtain ⟨i, hi, hd⟩ := List.mem_iff_getElem.mp hmem
  rw [List.length_take] at hi
  have hnone := h.2.2 i (by omega)
  rw [List.getElem_take] at hd
  rw [List.drop_eq_getElem_cons (by omega), hd] at hnone
  simp at hnone

theorem not_mem_of_find {d : UInt8} (h : find src [d] 0 = none) : d ∉ src := by
  rw [find, List.find?_eq_none] at h
  intro hmem
  obtain ⟨i, hi, hd⟩ := List.mem_iff_getElem.mp hmem
  have hnone := h i (List.mem_range.mpr (by omega))
  rw [List.drop_eq_getElem_cons hi, hd] at hnone
  simp at hnone

theorem skipSpaceForward_flush (hflush : Flush ws src) :
    skipSpaceForward src 0 src.length ws = 0 := by
  obtain rfl | hchar := hflush
  · rfl
  · exact skipSpaceForward_stop hchar

theorem keyLength_le (pos : ℕ) : spanLength 0 (fieldEnd src ws pos) ≤ pos := by
  unfold spanLength fieldEnd
  split
  next hpos =>
    have hback : skipSpaceBackward src ws (pos - 1) ≤ pos - 1 := skipSpaceBackward_le _
    generalize skipSpaceBackward src ws (pos - 1) = last at hback
    rw [Nat.sub_zero, Nat.add_right_comm, Nat.add_mod_right]
    exact (Nat.mod_le _ _).trans (by omega)
  next =>
    have hwrap : npos + 2 ^ 64 - 0 + 1 = 2 ^ 64 + 2 ^ 64 := rfl
    rw [hwrap, Nat.add_mod_left, Nat.mod_self]
    exact Nat.zero_le pos

theorem not_mem_key {d : UInt8} (hflush : Flush ws src) : d ∉ (simpleSplitPair src [d] ws).2.1 := by
  unfold simpleSplitPair
  rw [skipSpaceForward_flush hflush]
  by_cases hempty : src.length = 0
  · rw [if_pos hempty]
    exact List.not_mem_nil
  · rw [if_neg hempty, if_neg (by omega)]
    intro hmem
    cases hfind : find src [d] 0 with
    | none =>
      simp only [hfind, substr, List.drop_zero] at hmem
      exact not_mem_of_find hfind (List.mem_of_mem_take hmem)
    | some pos =>
      simp only [hfind, substr, List.drop_zero] at hmem
      exact not_mem_take_of_find hfind (List.take_subset_take_left _ (keyLength_le pos) hmem)

end Tools

theorem SharedTable.colon_not_mem_name {tableDef : Bytes} {t : SharedTable}
    (h : SharedTable.create tableDef = .ok t) : ∀ c ∈ t.columns, 58 ∉ c.name := by
  obtain ⟨-, -, hcols⟩ := SharedTable.createColumns_ok h
  intro c hc
  obtain ⟨item, hitem, hcolumn⟩ := Traverse.exists_of_mapM_ok hcols hc
  have hflush := Tools.flush_of_mem_simpleSplit hitem
  unfold SharedTable.createColumn SharedTable.parseTableDefItem at hcolumn
  dsimp only at hcolumn
  split at hcolumn
  · cases hcolumn
  next column hparse =>
    cases hcolumn
    obtain ⟨type, -, rfl⟩ := Option.map_eq_some_iff.mp hparse
    exact Tools.not_mem_key hflush

def IndexCompare.reach (c : IndexCompare) : ℕ := (c.fcomp.flatMap KeyCompare.items).length

def definitionItems (definition : Bytes) : List Bytes :=
  Tools.simpleSplit definition (ascii ",") Tools.whiteSpaces

namespace TableIndex

/-- `Create` comes to an end, and an index it accepts has keys that fit into an `IndexKey`. -/
def KeysFit (t : SharedTable) (indexDefinition : Bytes) : Prop :=
  ∃ result, create t indexDefinition = some result ∧
    ∀ x, result = .ok x → x.columnNums.length ≤ indexKeyMaxSize ∧ x.cmp.reach ≤ indexKeyMaxSize

/-- More items than a key has and no more than the comparator has room for, all of them
columns of indexed types. -/
def Overlong (columns : List Column) (indexDefinition : Bytes) : Prop :=
  indexKeyMaxSize < (definitionItems indexDefinition).length ∧
    (definitionItems indexDefinition).length ≤ IndexCompare.maxSize * tableIndexPartSize ∧
    ∀ item ∈ definitionItems indexDefinition,
      ∃ k, keyColumn columns item = .ok k ∧ k.2.type ∈ indexedTypes

variable {columns : List Column} {indexDefinition : Bytes}

theorem keyColumns_length {keys : List (ℕ × ItemOrder)}
    (h : keyColumns columns indexDefinition = .ok keys) :
    keys.length = (definitionItems indexDefinition).length := by
  unfold keyColumns at h
  split_ifs at h
  exact (Traverse.mapM_ok_iff.mp h).length_eq.symm

theorem define_eq {keys : List (ℕ × ItemOrder)}
    (hkeys : keyColumns columns indexDefinition = .ok keys) :
    (∃ x, define columns indexDefinition = .ok x) ↔ (∀ k ∈ keys, k.2.type ∈ indexedTypes) ∧
      keys.length ≤ IndexCompare.maxSize * tableIndexPartSize := by
  have hcmp : (∃ c, getComparator (keys.map fun k => k.2.text) = .ok c) ↔
      (∀ k ∈ keys, k.2.type ∈ indexedTypes) ∧ keys.length ≤ IndexCompare.maxSize *
        tableIndexPartSize := by
    have hmask : (keys.map fun k => k.2.text) = (keys.map Prod.snd).map ItemOrder.text := by
      rw [List.map_map]
      rfl
    rw [hmask, getComparator_ok_iff, List.forall_mem_map, List.length_map]
  rw [← hcmp, define, hkeys]
  refine exists_bind_ok_iff.trans ⟨?_, fun ⟨c, hc⟩ => ⟨keys, rfl, ?_⟩⟩
  · rintro ⟨keys', hk, x, hx⟩
    cases hk
    obtain ⟨c, hc, -⟩ := exists_bind_ok_iff.mp ⟨x, hx⟩
    exact ⟨c, hc⟩
  · exact exists_bind_ok_iff.mpr ⟨c, hc, _, rfl⟩

theorem define_reach {x : TableIndex} (h : define columns indexDefinition = .ok x) :
    x.cmp.reach = x.columnNums.length := by
  obtain ⟨keys, -, hnums, hcmp, -⟩ := define_ok h
  rw [IndexCompare.reach, (getComparator_parts hcmp).2, hnums, List.length_map, List.length_map]

theorem define_inside {x : TableIndex} (h : define columns indexDefinition = .ok x) :
    ∀ col ∈ x.columnNums, col < columns.length := by
  obtain ⟨keys, hkeys, hnums, -, -⟩ := define_ok h
  intro col hcol
  rw [hnums] at hcol
  obtain ⟨k, hk, rfl⟩ := List.mem_map.mp hcol
  obtain ⟨c, hc, -⟩ := Option.map_eq_some_iff.mp (keyColumns_ok hkeys k hk)
  exact (List.getElem?_eq_some_iff.mp hc).1

theorem buildIndex_nums {x x' : TableIndex} {storage : StorageImpl} {rows : ℕ}
    (h : x.buildIndex storage rows = some x') : x'.columnNums = x.columnNums := by
  obtain ⟨m, -, hm⟩ := Option.bind_eq_some_iff.mp h
  cases hm
  rfl

theorem keysFit_iff_of_define {t : SharedTable} (ht : t.Laid) {x : TableIndex}
    (h : define t.columns indexDefinition = .ok x) :
    KeysFit t indexDefinition ↔ x.columnNums.length ≤ indexKeyMaxSize := by
  have hcreate : create t indexDefinition = (x.buildIndex t.storage t.rows).map .ok := by
    rw [create, h]
  rw [KeysFit, hcreate]
  constructor
  · rintro ⟨result, hresult, hfit⟩
    obtain ⟨x', hbuild, rfl⟩ := Option.map_eq_some_iff.mp hresult
    rw [← buildIndex_nums hbuild]
    exact (hfit x' rfl).1
  · intro hsize
    obtain ⟨rs, hrs, hu⟩ := ht.exists_rows
    have hbuild := buildIndex_ofRows hsize (define_inside h) (define_ok h).choose_spec.2.2.2 hu
      t.tableIndexSet
    rw [← hrs] at hbuild
    have hrows : t.rows = rs.length := by rw [hrs]; rfl
    refine ⟨_, by rw [hrows, hbuild]; rfl, fun x' hx' => ?_⟩
    cases hx'
    exact ⟨hsize, (define_reach h).trans_le hsize⟩

theorem overlong_iff :
    Overlong columns indexDefinition ↔
      ∃ x, define columns indexDefinition = .ok x ∧ indexKeyMaxSize < x.columnNums.length := by
  have hdefined : ∀ {keys x}, keyColumns columns indexDefinition = .ok keys →
      define columns indexDefinition = .ok x → x.columnNums.length = keys.length := by
    intro keys x hkeys hx
    obtain ⟨keys', hkeys', hnums, -⟩ := define_ok hx
    cases hkeys.symm.trans hkeys'
    rw [hnums, List.length_map]
  constructor
  · rintro ⟨hmin, hmax, hitems⟩
    obtain ⟨keys, hmap, htypes⟩ := Traverse.exists_mapM_ok_iff.mpr hitems
    have hkeys : keyColumns columns indexDefinition = .ok keys := by
      unfold keyColumns
      rw [if_neg, ← hmap]
      · rfl
      · rintro hempty
        rw [List.isEmpty_iff.mp hempty] at hmin
        exact absurd hmin (by decide)
    rw [← keyColumns_length hkeys] at hmin hmax
    obtain ⟨x, hx⟩ := (define_eq hkeys).mpr ⟨htypes, hmax⟩
    exact ⟨x, hx, hdefined hkeys hx ▸ hmin⟩
  · rintro ⟨x, hx, hmin⟩
    obtain ⟨keys, hkeys, -⟩ := define_ok hx
    obtain ⟨htypes, hmax⟩ := (define_eq hkeys).mp ⟨x, hx⟩
    rw [hdefined hkeys hx] at hmin
    rw [Overlong, ← keyColumns_length hkeys]
    refine ⟨hmin, hmax, Traverse.exists_mapM_ok_iff.mp ⟨keys, ?_, htypes⟩⟩
    unfold keyColumns at hkeys
    split_ifs at hkeys
    exact hkeys

theorem keysFit_iff {t : SharedTable} (ht : t.Laid) :
    KeysFit t indexDefinition ↔ ¬ Overlong t.columns indexDefinition := by
  rw [overlong_iff]
  cases hdef : define t.columns indexDefinition with
  | error e =>
    refine iff_of_true ⟨.error e, by rw [create, hdef], fun x hx => by cases hx⟩ ?_
    rintro ⟨x, hx, -⟩
    cases hx
  | ok x =>
    rw [keysFit_iff_of_define ht hdef]
    simp

end TableIndex

namespace GroupIndex

/-- `Create` and `Group` come to an end, and an index that is accepted has keys that fit into
an `IndexKey`. -/
def KeysFit (t : SharedTable) (indexDef aggr : Bytes) : Prop :=
  (∀ now h, ∃ result, t.group now indexDef aggr h = some result) ∧
    ∀ g, create t.columns indexDef aggr = .ok g →
      g.indexColumnNums.length ≤ indexKeyMaxSize ∧ g.cmp.reach ≤ indexKeyMaxSize

/-- More items than a key has and no more than the comparator has room for, all of them
columns, with aggregators that are accepted. -/
def Overlong (columns : List Column) (indexDef aggr : Bytes) : Prop :=
  (indexKeyMaxSize < (definitionItems indexDef).length ∧
    (definitionItems indexDef).length ≤ IndexCompare.maxSize * tableIndexPartSize ∧
    ∀ item ∈ definitionItems indexDef, ∃ k, keyColumn columns item = .ok k) ∧
  aggr ≠ [] ∧ ∀ item ∈ definitionItems aggr, ∃ p, aggregatorOf columns item = .ok p

variable {columns : List Column} {keys : List KeyColumn} {g : GroupIndex} {indexDef aggr : Bytes}

theorem keyColumns_length (h : keyColumns columns indexDef = .ok keys) :
    keys.length = (definitionItems indexDef).length := (Traverse.mapM_ok_iff.mp h).length_eq.symm

theorem affinity_indexed (type : ColumnType) : getDynamicTypeAffinity type ∈ indexedTypes := by
  cases type <;> decide

theorem comparator_ok_iff (hkeys : keyColumns columns indexDef = .ok keys) :
    (∃ c, getComparator (keys.map fun k => k.order.text) = .ok c) ↔
      keys.length ≤ IndexCompare.maxSize * tableIndexPartSize := by
  have hmask : (keys.map fun k => k.order.text) =
      (keys.map KeyColumn.order).map ItemOrder.text := by
    rw [List.map_map]
    rfl
  have htypes : ∀ o ∈ keys.map KeyColumn.order, o.type ∈ indexedTypes := by
    rw [List.forall_mem_map]
    intro k hk
    rw [(keyColumns_ok hkeys k hk).2]
    exact affinity_indexed _
  rw [hmask, getComparator_ok_iff, List.length_map, and_iff_right htypes]

theorem createColumns_ok_of_defs (hcolon : ∀ c ∈ columns, 58 ∉ c.name)
    (hkeys : keyColumns columns indexDef = .ok keys) {aggrs : List (Bytes × Aggregator)}
    (haggrs : (definitionItems aggr).mapM (aggregatorOf columns) = .ok aggrs) (hne : keys ≠ []) :
    ∃ t, SharedTable.createColumns
      ((keys.map fun k => columnDef k.column.name k.column.type) ++ aggrs.map Prod.fst) =
        .ok t := by
  have hcolumn : ∀ d ∈ (keys.map fun k => columnDef k.column.name k.column.type) ++
    aggrs.map Prod.fst,
      ∃ c, SharedTable.createColumn d = .ok c ∧ True := by
    intro d hd
    obtain hd | hd := List.mem_append.mp hd
    · obtain ⟨k, hk, rfl⟩ := List.mem_map.mp hd
      obtain ⟨key, hkey⟩ := createColumn_columnDef
        (hcolon _ (List.mem_of_getElem? (keyColumns_ok hkeys k hk).1)) k.column.type
      exact ⟨_, hkey, trivial⟩
    · obtain ⟨p, hp, rfl⟩ := List.mem_map.mp hd
      obtain ⟨item, -, hitem⟩ := Traverse.exists_of_mapM_ok haggrs hp
      obtain ⟨name, hname, hdef⟩ := aggregatorOf_def hcolon hitem
      obtain ⟨key, hkey⟩ := createColumn_columnDef hname p.2.type
      exact ⟨_, hdef ▸ hkey, trivial⟩
  obtain ⟨cs, hcs, -⟩ := Traverse.exists_mapM_ok_iff.mpr hcolumn
  refine ⟨.new cs, ?_⟩
  unfold SharedTable.createColumns
  rw [if_neg, hcs]
  · rfl
  · simp [hne]

/-- The parts `Create` needs. -/
theorem create_of_parts (hcolon : ∀ c ∈ columns, 58 ∉ c.name)
    (hkeys : keyColumns columns indexDef = .ok keys) (hne : keys ≠ [])
    (hmax : keys.length ≤ IndexCompare.maxSize * tableIndexPartSize)
    {aggrs : List (Bytes × Aggregator)} (haggr : aggr ≠ [])
    (haggrs : (definitionItems aggr).mapM (aggregatorOf columns) = .ok aggrs) :
    ∃ g, create columns indexDef aggr = .ok g ∧ g.indexColumnNums = keys.map KeyColumn.colNum := by
  obtain ⟨cmp, hcmp⟩ := (comparator_ok_iff hkeys).mpr hmax
  obtain ⟨t, ht⟩ := createColumns_ok_of_defs hcolon hkeys haggrs hne
  have hdef : indexDef ≠ [] := by
    rintro rfl
    cases hkeys
    exact hne rfl
  have haggrs' : (Tools.simpleSplit aggr (ascii ",") Tools.whiteSpaces).mapM
    (aggregatorOf columns) =
      .ok aggrs := haggrs
  refine ⟨⟨keys.map KeyColumn.colNum, aggrs.map Prod.snd, t, cmp, []⟩, ?_, rfl⟩
  unfold create
  rw [if_neg (by simpa using hdef), if_neg (by simpa using haggr), hkeys]
  simp only [bind, Except.bind, haggrs', hcmp, ht]
  rfl

theorem create_reach (h : create columns indexDef aggr = .ok g) :
    g.cmp.reach = g.indexColumnNums.length := by
  obtain ⟨keys, aggrs, -, -, hcmp, -, hnums, -⟩ := create_ok h
  have hmask : getComparator ((keys.map KeyColumn.order).map ItemOrder.text) = .ok g.cmp := by
    rw [List.map_map]
    exact hcmp
  rw [IndexCompare.reach, (getComparator_parts hmask).2, hnums, List.length_map, List.length_map]

theorem overlong_iff (hcolon : ∀ c ∈ columns, 58 ∉ c.name) :
    Overlong columns indexDef aggr ↔
      ∃ g, create columns indexDef aggr = .ok g ∧ indexKeyMaxSize < g.indexColumnNums.length := by
  constructor
  · rintro ⟨⟨hmin, hmax, hitems⟩, haggr, haggrItems⟩
    obtain ⟨keys, hkeys, -⟩ := Traverse.exists_mapM_ok_iff.mpr fun item hitem =>
      (hitems item hitem).imp fun k hk => ⟨hk, trivial⟩
    obtain ⟨aggrs, haggrs, -⟩ := Traverse.exists_mapM_ok_iff.mpr fun item hitem =>
      (haggrItems item hitem).imp fun p hp => ⟨hp, trivial⟩
    have hkeys' : keyColumns columns indexDef = .ok keys := hkeys
    rw [← keyColumns_length hkeys'] at hmin hmax
    have hne : keys ≠ [] := List.ne_nil_of_length_pos (Nat.zero_lt_of_lt hmin)
    obtain ⟨g, hg, hnums⟩ := create_of_parts hcolon hkeys' hne hmax haggr haggrs
    exact ⟨g, hg, by rwa [hnums, List.length_map]⟩
  · rintro ⟨g, hg, hmin⟩
    obtain ⟨keys, aggrs, hkeys, haggrs, hcmp, -, hnums, -⟩ := create_ok hg
    have hlen : g.indexColumnNums.length = (definitionItems indexDef).length := by
      rw [hnums, List.length_map, keyColumns_length hkeys]
    have hmax := (comparator_ok_iff hkeys).mp ⟨_, hcmp⟩
    rw [keyColumns_length hkeys] at hmax
    have haggr : aggr ≠ [] := by
      rintro rfl
      unfold create at hg
      split_ifs at hg
      all_goals simp_all
    refine ⟨⟨hlen ▸ hmin, hmax, fun item hitem => ?_⟩, haggr, fun item hitem => ?_⟩
    · obtain ⟨k, hk, -⟩ :=
        Traverse.exists_mapM_ok_iff.mp ⟨keys, hkeys, fun _ _ => trivial⟩ item hitem
      exact ⟨k, hk⟩
    · obtain ⟨p, hp, -⟩ :=
        Traverse.exists_mapM_ok_iff.mp ⟨aggrs, haggrs, fun _ _ => trivial⟩ item hitem
      exact ⟨p, hp⟩

/-- `Group` under an index whose keys fit. -/
theorem group_some {t : SharedTable} (ht : t.Laid)
    (hcreate : create t.columns indexDef aggr = .ok g)
    (hsize : g.indexColumnNums.length ≤ indexKeyMaxSize) (now : ℕ → BitVec 64) (h : StringHeap) :
    ∃ result, t.group now indexDef aggr h = some result := by
  obtain ⟨keys, -, hkeys, -, -, -, hnums, -⟩ := create_ok hcreate
  rw [hnums, List.length_map] at hsize
  obtain ⟨rs, hrs, hu⟩ := ht.exists_rows
  obtain ⟨h', hgroup⟩ := create_group hkeys hcreate hsize hu t.tableIndexSet now h
  rw [← hrs] at hgroup
  exact ⟨_, hgroup⟩

theorem keysFit_iff {t : SharedTable} (ht : t.Laid) (hcolon : ∀ c ∈ t.columns, 58 ∉ c.name) :
    KeysFit t indexDef aggr ↔ ¬ Overlong t.columns indexDef aggr := by
  rw [overlong_iff hcolon]
  cases hcreate : create t.columns indexDef aggr with
  | error e =>
    refine iff_of_true ⟨fun now h => ⟨.error e, by rw [SharedTable.group, hcreate]⟩, fun g hg => ?_⟩
      ?_
    · cases hcreate.symm.trans hg
    · rintro ⟨g, hg, -⟩
      cases hg
  | ok g =>
    constructor
    · rintro ⟨-, hfit⟩ ⟨g', hg', hmin⟩
      cases hg'
      exact absurd (hfit g hcreate).1 (Nat.not_le.mpr hmin)
    · intro hshort
      have hsize : g.indexColumnNums.length ≤ indexKeyMaxSize :=
        Nat.not_lt.mp fun hmin => hshort ⟨g, rfl, hmin⟩
      refine ⟨group_some ht hcreate hsize, fun g' hg' => ?_⟩
      cases hcreate.symm.trans hg'
      exact ⟨hsize, (create_reach hcreate).trans_le hsize⟩

end GroupIndex

/-- **The keys of every index and every group that is accepted fit into an `IndexKey`**,
except under a definition of 64 to 66 columns: the last of the 22 parts `IndexCompare` has
room for lies behind the end of the key. -/
theorem key_columns_fit_iff {tableDef : Bytes} {t : SharedTable} (ht : t.Reached tableDef)
    (indexDef aggr : Bytes) :
    (TableIndex.KeysFit t indexDef ↔ ¬ TableIndex.Overlong t.columns indexDef) ∧
      (GroupIndex.KeysFit t indexDef aggr ↔ ¬ GroupIndex.Overlong t.columns indexDef aggr) := by
  obtain ⟨t₀, hcreate, hsound, hcols⟩ := ht.sound
  have hcolon : ∀ c ∈ t.columns, 58 ∉ c.name := by
    rw [hcols]
    exact SharedTable.colon_not_mem_name hcreate
  exact ⟨TableIndex.keysFit_iff hsound.toLaid, GroupIndex.keysFit_iff hsound.toLaid hcolon⟩

theorem key_columns_fit_two :
    ∃ t, t.Reached (ascii "n:INTEGER,s") ∧ TableIndex.KeysFit t (ascii "-n,s") ∧
      GroupIndex.KeysFit t (ascii "-n,s") (ascii "COUNT") := by
  have ht : (SharedTable.new sampleColumns).Reached (ascii "n:INTEGER,s") :=
    ⟨_, sampleHeap, [], _, _, rfl, rfl⟩
  obtain ⟨hindex, hgroup⟩ := key_columns_fit_iff ht (ascii "-n,s") (ascii "COUNT")
  refine ⟨_, ht, hindex.mpr ?_, hgroup.mpr ?_⟩
  · exact fun hlong => absurd hlong.1 (by decide)
  · exact fun hlong => absurd hlong.1.1 (by decide)

def overlongDefinition : Bytes := (List.replicate 63 (ascii "n,")).flatten ++ ascii "n"

/-- An index and a group over 64 columns are accepted. -/
theorem index_of_sixty_four_columns :
    ∃ t, t.Reached (ascii "n:INTEGER,s") ∧
      (∃ x, TableIndex.create t overlongDefinition = some (.ok x) ∧
        indexKeyMaxSize < x.columnNums.length) ∧
      ∃ g, GroupIndex.create t.columns overlongDefinition (ascii "COUNT") = .ok g ∧
        indexKeyMaxSize < g.indexColumnNums.length := by
  have hitems : definitionItems overlongDefinition = List.replicate 64 (ascii "n") := by
    decide +kernel
  refine ⟨.new sampleColumns, ⟨_, sampleHeap, [], _, _, rfl, rfl⟩, ?_, ?_⟩
  · obtain ⟨x, hx, hlong⟩ := TableIndex.overlong_iff.mp
      (show TableIndex.Overlong sampleColumns overlongDefinition by
        rw [TableIndex.Overlong, hitems]
        refine ⟨by decide, by decide, fun item hitem => ⟨(0, ⟨.integer, false⟩), ?_⟩⟩
        rw [List.eq_of_mem_replicate hitem]
        decide)
    have hcols : TableIndex.define (SharedTable.new sampleColumns).columns overlongDefinition =
      .ok x := hx
    refine ⟨x, ?_, hlong⟩
    rw [TableIndex.create, hcols]
    rfl
  · refine (GroupIndex.overlong_iff (by decide)).mp ?_
    rw [GroupIndex.Overlong, hitems]
    refine ⟨⟨by decide, by decide,
      fun item hitem => ⟨⟨0, ⟨ascii "n", .integer⟩, ⟨.integer, false⟩⟩, ?_⟩⟩,
        by decide, fun item hitem => ⟨(GroupIndex.columnDef (ascii "COUNT") .unsignedInteger,
        .create 0 .unsignedInteger .count), ?_⟩⟩
    · rw [List.eq_of_mem_replicate hitem]
      rfl
    · obtain rfl := List.mem_singleton.mp hitem
      rfl

end Nkit
