import Nkit.Table.KeyLimit

/-! An index and a group under one definition.  Both read the definition alike and enter the
rows alike; they part where the mask is built, from the types of the columns in one case and
from the affinities of these types in the other. -/

namespace Nkit
open FlatRows OrderedMap

variable {columns : List Column} {definition : Bytes}

namespace GroupIndex

def KeyColumn.plain (k : KeyColumn) : ℕ × ItemOrder :=
  (k.colNum, ⟨k.column.type, k.order.descending⟩)

theorem keyColumn_plain {item : Bytes} {k : ℕ × ItemOrder}
    (h : TableIndex.keyColumn columns item = .ok k) :
    ∃ k', keyColumn columns item = .ok k' ∧ k'.plain = k := by
  unfold TableIndex.keyColumn at h
  unfold keyColumn findColumn
  dsimp only at h ⊢
  split at h
  · cases h
  next colNum column hfound =>
    cases h
    exact ⟨_, by rw [hfound]; rfl, rfl⟩

theorem keyColumns_plain {keys : List (ℕ × ItemOrder)}
    (h : TableIndex.keyColumns columns definition = .ok keys) :
    ∃ keys', keyColumns columns definition = .ok keys' ∧ keys'.map KeyColumn.plain = keys := by
  unfold TableIndex.keyColumns at h
  split_ifs at h
  have hall : ∀ {items : List Bytes} {keys : List (ℕ × ItemOrder)},
      List.Forall₂ (fun item k => TableIndex.keyColumn columns item = .ok k) items keys →
      ∃ keys', items.mapM (keyColumn columns) = .ok keys' ∧ keys'.map KeyColumn.plain = keys := by
    intro items keys hitems
    simp only [Traverse.mapM_ok_iff]
    induction hitems with
    | nil => exact ⟨[], .nil, rfl⟩
    | cons hitem _ ih =>
      obtain ⟨k', hk', rfl⟩ := keyColumn_plain hitem
      obtain ⟨keys', hkeys', rfl⟩ := ih
      exact ⟨k' :: keys', .cons hk' hkeys', rfl⟩
  exact hall (Traverse.mapM_ok_iff.mp h)

theorem affinity_of_indexed {type : ColumnType} (h : type ∈ indexedTypes) :
    getDynamicTypeAffinity type = type := by
  revert h
  cases type <;> decide

end GroupIndex

/-- The index and the group of a definition are both accepted or both turned down, and if
they are accepted, the traversal of the index and the rows of the group go through the same
keys in the same order. -/
def SharedTable.SameKeys (t : SharedTable) (definition : Bytes) (now : ℕ → BitVec 64)
    (h : StringHeap) : Prop :=
  ((∃ t', t.createIndex definition = some (.ok t')) ↔
    ∃ s, t.group now definition (ascii "COUNT") h = some (.ok s)) ∧
  ∀ x s, TableIndex.create t definition = some (.ok x) →
    t.group now definition (ascii "COUNT") h = some (.ok s) →
    (List.range s.2.height).map (fun j => (List.range x.columnNums.length).map (s.2.cell j)) =
      x.indexMap.map Prod.fst

theorem createIndex_some_iff {t : SharedTable} :
    (∃ t', t.createIndex definition = some (.ok t')) ↔ ∃ x, TableIndex.create t definition =
      some (.ok x) := by
  unfold SharedTable.createIndex
  cases TableIndex.create t definition with
  | none => simp
  | some result => cases result <;> simp [Except.map]

/-- The aggregator `COUNT`. -/
theorem countAggregator (columns : List Column) :
    (definitionItems (ascii "COUNT")).mapM (GroupIndex.aggregatorOf columns) =
      .ok [(GroupIndex.columnDef (ascii "COUNT") .unsignedInteger,
        .create 0 .unsignedInteger .count)] := rfl

theorem TableIndex.create_of_define {rs : List (List Data)} (hu : Uniform columns.length rs)
    {x : TableIndex} (hx : TableIndex.define columns definition = .ok x)
    (hsize : x.columnNums.length ≤ indexKeyMaxSize) (xs : List TableIndex) :
    TableIndex.create (.ofRows columns rs xs) definition =
      some (.ok (x.withMap (x.entries rs))) := by
  obtain ⟨-, -, -, -, hmap⟩ := TableIndex.define_ok hx
  have hbuild := TableIndex.buildIndex_ofRows hsize (TableIndex.define_inside hx) hmap hu xs
  have hx' : TableIndex.define (SharedTable.ofRows columns rs xs).columns definition = .ok x := hx
  rw [TableIndex.create, hx']
  exact congrArg (Option.map Except.ok) hbuild

theorem entries_keys_eq {x : TableIndex} {g : GroupIndex} (hnums : x.columnNums = g.indexColumnNums)
    (hcmp : x.cmp = g.cmp) (rs : List (List Data)) :
    (x.entries rs).map Prod.fst = (g.groups rs).map Prod.fst := by
  have hlt : x.lt = g.lt := congrArg IndexCompare.lt hcmp
  have hkeyOf : x.keyOf = g.keyOf := by
    funext row
    rw [TableIndex.keyOf, GroupIndex.keyOf, hnums]
  rw [TableIndex.entries, hlt]
  refine GroupFold.keys_fold_congr ?_
  have hrows : (rs.zipIdx.map Prod.fst).map x.keyOf = rs.map g.keyOf := by
    rw [List.zipIdx_map_fst, hkeyOf]
  rwa [List.map_map] at hrows

section
variable {keys : List GroupIndex.KeyColumn}
  (hindex : TableIndex.keyColumns columns definition = .ok (keys.map GroupIndex.KeyColumn.plain))
include hindex

theorem createIndex_iff {rs : List (List Data)} (hu : Uniform columns.length rs)
    (hsize : keys.length ≤ indexKeyMaxSize) (xs : List TableIndex) :
    (∃ t', (SharedTable.ofRows columns rs xs).createIndex definition = some (.ok t')) ↔
      ∀ k ∈ keys, k.column.type ∈ indexedTypes := by
  have hmax : (keys.map GroupIndex.KeyColumn.plain).length ≤ IndexCompare.maxSize *
      tableIndexPartSize := by
    rw [List.length_map]
    exact hsize.trans (by decide)
  have hdefine := TableIndex.define_eq hindex
  rw [and_iff_left hmax, List.forall_mem_map] at hdefine
  refine createIndex_some_iff.trans (Iff.trans ⟨fun ⟨x', hx'⟩ => ?_, fun ⟨x, hx⟩ => ?_⟩ hdefine)
  · have hcols : (SharedTable.ofRows columns rs xs).columns = columns := rfl
    rw [TableIndex.create, hcols] at hx'
    cases hx : TableIndex.define columns definition with
    | error e => simp [hx] at hx'
    | ok x => exact ⟨x, rfl⟩
  · obtain ⟨xkeys, hxkeys, hnums, -⟩ := TableIndex.define_ok hx
    cases hindex.symm.trans hxkeys
    exact ⟨_, TableIndex.create_of_define hu hx (by rwa [hnums, List.length_map, List.length_map])
      xs⟩

variable (hkeys : GroupIndex.keyColumns columns definition = .ok keys)
include hkeys

theorem same_comparator {x : TableIndex} {g : GroupIndex}
    (htypes : ∀ k ∈ keys, k.column.type ∈ indexedTypes)
    (hx : TableIndex.define columns definition = .ok x)
    (hg : GroupIndex.create columns definition (ascii "COUNT") = .ok g) :
    x.columnNums = g.indexColumnNums ∧ x.cmp = g.cmp := by
  obtain ⟨xkeys, hxkeys, hxnums, hxcmp, -⟩ := TableIndex.define_ok hx
  cases hindex.symm.trans hxkeys
  obtain ⟨gkeys, -, hgkeys, -, hgcmp, -, hgnums, -⟩ := GroupIndex.create_ok hg
  cases hkeys.symm.trans hgkeys
  have hmask : ((keys.map GroupIndex.KeyColumn.plain).map Prod.snd).map ItemOrder.text =
      keys.map fun k => k.order.text := by
    rw [List.map_map, List.map_map]
    refine List.map_congr_left fun k hk => congrArg ItemOrder.text ?_
    have htype : k.order.type = k.column.type :=
      (GroupIndex.keyColumns_ok hkeys k hk).2.trans (GroupIndex.affinity_of_indexed (htypes k hk))
    rw [GroupIndex.KeyColumn.plain, ← htype]
  rw [hmask, hgcmp] at hxcmp
  refine ⟨?_, (Except.ok.inj hxcmp).symm⟩
  rw [hxnums, hgnums, List.map_map]
  rfl

theorem sameKeys_iff {rs : List (List Data)} (hu : Uniform columns.length rs)
    (hcolon : ∀ c ∈ columns, 58 ∉ c.name) (hne : keys ≠ []) (hsize : keys.length ≤ indexKeyMaxSize)
    (xs : List TableIndex) (now : ℕ → BitVec 64) (h : StringHeap) :
    (SharedTable.ofRows columns rs xs).SameKeys definition now h ↔
      ∀ k ∈ keys, k.column.type ∈ indexedTypes := by
  obtain ⟨g, hg, -⟩ :=
    GroupIndex.create_of_parts hcolon hkeys hne (hsize.trans (by decide)) (by decide)
    (countAggregator columns)
  obtain ⟨h', hgroup⟩ := GroupIndex.create_group hkeys hg hsize hu xs now h
  have hcreates := createIndex_iff hindex hu hsize xs
  have hgroups : ∃ s, (SharedTable.ofRows columns rs xs).group now definition (ascii "COUNT") h =
      some (.ok s) := ⟨_, hgroup⟩
  refine ⟨fun hsame => hcreates.mp (hsame.1.mpr hgroups), fun htypes =>
    ⟨iff_of_true (hcreates.mpr htypes) hgroups, fun x' s hx' hs => ?_⟩⟩
  obtain ⟨x, hx⟩ := (TableIndex.define_eq hindex).mpr ⟨List.forall_mem_map.mpr htypes, by
    rw [List.length_map]
    exact hsize.trans (by decide)⟩
  obtain ⟨hnums, hcmp⟩ := same_comparator hindex hkeys htypes hx hg
  have hframe := (GroupIndex.create_frame hkeys hg hsize).1
  have hlen : x.columnNums.length = keys.length := by rw [hnums, hframe.nums, List.length_map]
  rw [TableIndex.create_of_define hu hx (hlen.trans_le hsize), Option.some.injEq,
    Except.ok.injEq] at hx'
  rw [hgroup, Option.some.injEq, Except.ok.injEq] at hs
  subst hx' hs
  have hwidth : (x.withMap (x.entries rs)).columnNums.length = keys.length := hlen
  rw [hwidth]
  exact (hframe.map_leading rs).trans (entries_keys_eq hnums hcmp rs).symm

end

/-- **An index and a group with `COUNT` over the same columns succeed together and list the
keys in the same order**, exactly if no column is a `BOOL` or a `DATE_TIME`: these a group
compares by their affinity, and an index has no comparator for them. -/
theorem index_and_group_agree_iff {tableDef : Bytes} {t : SharedTable} (ht : t.Reached tableDef)
    {definition : Bytes} {keys : List (ℕ × ItemOrder)}
    (hkeys : TableIndex.keyColumns t.columns definition = .ok keys) (hne : keys ≠ [])
    (hsize : keys.length ≤ indexKeyMaxSize) (now : ℕ → BitVec 64) (h : StringHeap) :
    t.SameKeys definition now h ↔ ∀ k ∈ keys, k.2.type ≠ .bool ∧ k.2.type ≠ .dateTime := by
  obtain ⟨t₀, hcreate, hsound, hcols⟩ := ht.sound
  have hcolon : ∀ c ∈ t.columns, 58 ∉ c.name := by
    rw [hcols]
    exact SharedTable.colon_not_mem_name hcreate
  obtain ⟨rs, hrs, hu⟩ := hsound.toLaid.exists_rows
  obtain ⟨gkeys, hgkeys, rfl⟩ := GroupIndex.keyColumns_plain hkeys
  have hsame := sameKeys_iff hkeys hgkeys hu hcolon (fun hnil => hne (by rw [hnil]; rfl))
    (by rwa [List.length_map] at hsize) t.tableIndexSet now h
  rw [← hrs] at hsame
  rw [hsame, List.forall_mem_map]
  refine forall₂_congr fun k _ => ?_
  change k.column.type ∈ indexedTypes ↔ k.column.type ≠ .bool ∧ k.column.type ≠ .dateTime
  cases k.column.type <;> decide

theorem index_and_group_agree_two :
    ∃ t : SharedTable, t.Reached (ascii "n:INTEGER,s") ∧
      t.SameKeys (ascii "-n,s") (fun _ => 0) sampleHeap := by
  have hrun : Runs.run Action.perform [.call (.appendRow (fun _ => 0) [intArg 5]),
      .call (.appendRow (fun _ => 0) [intArg 7])] (sampleHeap, SharedTable.new sampleColumns) =
        some (_, _, _) := rfl
  have ht : SharedTable.Reached (ascii "n:INTEGER,s") _ := ⟨_, _, _, _, _, rfl, hrun⟩
  exact ⟨_, ht, (index_and_group_agree_iff ht keyColumns_sample (by decide) (by decide) _ _).mpr
    (by decide)⟩

/-- A group by a `BOOL` column is made; an index over it is turned down. -/
theorem bool_grouped_not_indexed :
    ∃ t : SharedTable, t.Reached (ascii "b:BOOL") ∧
      t.createIndex (ascii "b") = some (.error (comparatorError (maskText [⟨.bool, false⟩]))) ∧
      ∃ s, t.group (fun _ => 0) (ascii "b") (ascii "COUNT") sampleHeap = some (.ok s) := by
  have hindex : (SharedTable.new [⟨ascii "b", .bool⟩]).createIndex (ascii "b") =
      some (.error (comparatorError (maskText [⟨.bool, false⟩]))) := by decide +kernel
  have hgroup :
      (GroupIndex.create [⟨ascii "b", .bool⟩] (ascii "b") (ascii "COUNT")).toOption.isSome =
        true := by
    decide
  refine ⟨.new [⟨ascii "b", .bool⟩], ⟨_, sampleHeap, [], _, _, rfl, rfl⟩, hindex, ?_⟩
  have hcols : (SharedTable.new [⟨ascii "b", .bool⟩]).columns = [⟨ascii "b", .bool⟩] := rfl
  rw [SharedTable.group, hcols]
  cases hg : GroupIndex.create [⟨ascii "b", .bool⟩] (ascii "b") (ascii "COUNT") with
  | error e => simp [hg, Except.toOption] at hgroup
  | ok g => exact ⟨_, rfl⟩

end Nkit
