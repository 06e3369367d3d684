import Nkit.Table.GroupStream

/-! Rows that are shorter than the table, in a streaming builder.  The builder keeps one row
buffer and a row overwrites only as much of it as it provides, so what a short row counts as
depends on the rows before it.  Two builders are compared up to the identity of the strings
in their cells: one gets the rows as they are, the other gets them padded. -/

namespace Nkit
open FlatRows OrderedMap

section
variable {a a' b b' : Data} (ha : a.content = a'.content) (hb : b.content = b'.content)

theorem bits_of_content {a a' : Data} (ha : a.content = a'.content) : a.bits = a'.bits := by
  cases a <;> cases a' <;> simp_all [Data.content, Data.bits]

theorem i64_of_content {a a' : Data} (ha : a.content = a'.content) : a.i64 = a'.i64 := by
  cases a <;> cases a' <;> simp_all [Data.content, Data.i64]

theorem ui64_of_content {a a' : Data} (ha : a.content = a'.content) : a.ui64 = a'.ui64 := by
  cases a <;> cases a' <;> simp_all [Data.content, Data.ui64]

theorem text_of_content {a a' : Data} (ha : a.content = a'.content) : a.text = a'.text := by
  cases a <;> cases a' <;> simp_all [Data.content, Data.text]

theorem f_of_content {a a' : Data} (ha : a.content = a'.content) : a.f = a'.f := by
  rw [Data.f, Data.f, bits_of_content ha]

include ha hb

theorem keyItemCompare_content (o : ItemOrder) : keyItemCompare o a b = keyItemCompare o a' b' := by
  simp only [keyItemCompare, i64_of_content ha, i64_of_content hb, ui64_of_content ha,
    ui64_of_content hb, f_of_content ha, f_of_content hb, text_of_content ha, text_of_content hb]

theorem opAdd_content (type : ColumnType) :
    (opAdd type a b).content = (opAdd type a' b').content := by
  cases type <;>
    simp only [opAdd, bits_of_content ha, bits_of_content hb, f_of_content ha, f_of_content hb, ha]

theorem opMin_content (type : ColumnType) :
    (opMin type a b).content = (opMin type a' b').content := by
  cases type <;>
    simp only [opMin, i64_of_content ha, i64_of_content hb, ui64_of_content ha, ui64_of_content hb,
    f_of_content ha, f_of_content hb, ha] <;> split_ifs <;> assumption

theorem opMax_content (type : ColumnType) :
    (opMax type a b).content = (opMax type a' b').content := by
  cases type <;>
    simp only [opMax, i64_of_content ha, i64_of_content hb, ui64_of_content ha, ui64_of_content hb,
    f_of_content ha, f_of_content hb, ha] <;> split_ifs <;> assumption

end

def contentsOf (cells : List Data) : Row := cells.map Data.content

theorem getD_contentsOf (ds : List Data) (i : ℕ) :
    (contentsOf ds).getD i (.word 0) = (ds.getD i (.word 0)).content :=
  List.getD_map ds (.word 0) Data.content

theorem getD_contents {ds ds' : List Data} (h : contentsOf ds = contentsOf ds') (i : ℕ) :
    (ds.getD i (.word 0)).content = (ds'.getD i (.word 0)).content := by
  rw [← getD_contentsOf, ← getD_contentsOf, h]

theorem length_contents {ds ds' : List Data} (h : contentsOf ds = contentsOf ds') :
    ds.length = ds'.length := by
  have hlen := congrArg List.length h
  rwa [contentsOf, contentsOf, List.length_map, List.length_map] at hlen

section
variable {a a' b b' : IndexKey}

theorem keyItem_content (ha : contentsOf a = contentsOf a') :
    (keyItem a).content = (keyItem a').content := by
  have hfirst := getD_contents ha 0
  cases a <;> cases a' <;> simp_all [keyItem]

theorem contentsOf_drop (ha : contentsOf a = contentsOf a') (n : ℕ) :
    contentsOf (a.drop n) = contentsOf (a'.drop n) := by
  rw [contentsOf, contentsOf, List.map_drop, List.map_drop]
  exact congrArg (List.drop n) ha

theorem compareItems_content (os : List ItemOrder) (ha : contentsOf a = contentsOf a')
    (hb : contentsOf b = contentsOf b') : compareItems os a b = compareItems os a' b' := by
  induction os generalizing a a' b b' with
  | nil => rfl
  | cons o os ih =>
    have htail := ih (contentsOf_drop ha 1) (contentsOf_drop hb 1)
    simp only [List.drop_one] at htail
    simp only [compareItems, keyItemCompare_content (keyItem_content ha) (keyItem_content hb) o,
      htail]

theorem compareParts_content (fs : List KeyCompare) (ha : contentsOf a = contentsOf a')
    (hb : contentsOf b = contentsOf b') :
    IndexCompare.compareParts fs a b = IndexCompare.compareParts fs a' b' := by
  induction fs generalizing a a' b b' with
  | nil => rfl
  | cons f fs ih =>
    have hrest := ih (contentsOf_drop ha tableIndexPartSize) (contentsOf_drop hb tableIndexPartSize)
    simp only [IndexCompare.compareParts, KeyCompare.compare, compareItems_content f.items ha hb,
      hrest]
    rfl

theorem lt_content (c : IndexCompare) (ha : contentsOf a = contentsOf a')
    (hb : contentsOf b = contentsOf b') :
    c.lt a b = c.lt a' b' := by
  rw [IndexCompare.lt, IndexCompare.lt, compareParts_content c.fcomp ha hb]

end

namespace SharedTable

/-- Tables with the same columns and the same contents. -/
structure Alike (t t' : SharedTable) : Prop where
  columns : t.columns = t'.columns
  rows : t.rows = t'.rows
  growFactor : t.storage.growFactor = t'.storage.growFactor
  cells : contentsOf t.storage.array = contentsOf t'.storage.array

variable {t t' : SharedTable} {row row' : List Data}

theorem contentsOf_write {s s' : StorageImpl} (harray : contentsOf s.array = contentsOf s'.array)
    {cells cells' : List Data} (hcells : contentsOf cells = contentsOf cells') (pos : ℕ) :
    contentsOf (s.write pos cells).array = contentsOf (s'.write pos cells').array := by
  have hlen := length_contents hcells
  simp only [contentsOf] at harray hcells
  simp only [StorageImpl.write, contentsOf, List.map_append, List.map_take, List.map_drop, harray,
    hcells, hlen]

theorem Alike.appendRowUnsafe (ht : Alike t t') (hrow : contentsOf row = contentsOf row')
    (hw : row.length = t.columns.length) (now now' : ℕ → BitVec 64) (h h' : StringHeap) :
    Alike (t.appendRowUnsafe now row h).2 (t'.appendRowUnsafe now' row' h').2 := by
  have hw' : row'.length = t'.columns.length := by rw [← ht.columns, ← hw, length_contents hrow]
  have hcells := unsafeCells_eq now 0 hw h
  have hcells' := unsafeCells_eq now' 0 hw' h'
  refine ⟨ht.columns, congrArg (· + 1) ht.rows, ht.growFactor, ?_⟩
  simp only [SharedTable.appendRowUnsafe, hcells, hcells', length_contents ht.cells]
  refine contentsOf_write ?_ hrow _
  have harray := ht.cells
  simp only [contentsOf] at harray
  simp only [StorageImpl.extend, contentsOf, List.map_append, harray, ht.growFactor]

theorem Alike.setRowUnsafe (ht : Alike t t') (hrow : contentsOf row = contentsOf row') (r : ℕ) :
    Option.Rel (fun x y => Alike x y ∧ x.columns = t.columns) (t.setRowUnsafe row r)
      (t'.setRowUnsafe row' r) := by
  have hpos : t.storage.offsetToPos r = t'.storage.offsetToPos r := by
    rw [StorageImpl.offsetToPos, StorageImpl.offsetToPos, ht.growFactor]
  unfold SharedTable.setRowUnsafe
  simp only [StorageImpl.get, ← hpos, ← length_contents ht.cells]
  split_ifs with hin
  · simp only [Option.bind_eq_bind, Option.bind_some, List.length_drop, ← ht.columns,
      ← length_contents ht.cells]
    split_ifs with hfits
    · refine .some ⟨⟨rfl, ht.rows, ht.growFactor, contentsOf_write ht.cells ?_ _⟩, rfl⟩
      simp only [contentsOf, List.map_map]
      exact List.map_congr_left fun col _ => getD_contents hrow col
    · exact .none
  · exact .none

end SharedTable

theorem Aggregator.update_content (a : Aggregator) {out out' : Data}
    (hout : out.content = out'.content) {row row' : List Data}
    (hrow : a.method ≠ .count → (row.getD a.columnNum (.word 0)).content =
      (row'.getD a.columnNum (.word 0)).content) :
    (a.update out row).content = (a.update out' row').content := by
  unfold Aggregator.update
  cases hmethod : a.method with
  | count => simp only [bits_of_content hout]
  | sum => exact opAdd_content hout (hrow (by simp [hmethod])) a.type
  | min => exact opMin_content hout (hrow (by simp [hmethod])) a.type
  | max => exact opMax_content hout (hrow (by simp [hmethod])) a.type

namespace GroupIndex

/-- The columns whose cells an update looks at. -/
def Reads (g : GroupIndex) (col : ℕ) : Prop :=
  col ∈ g.indexColumnNums ∨ ∃ a ∈ g.aggregators, a.method ≠ .count ∧ a.columnNum = col

instance (g : GroupIndex) : DecidablePred g.Reads := fun col =>
  inferInstanceAs
    (Decidable (col ∈ g.indexColumnNums ∨ ∃ a ∈ g.aggregators, a.method ≠ .count ∧
      a.columnNum = col))

/-- Indices of the same columns with the same groups and the same result. -/
structure Alike (g g' : GroupIndex) : Prop where
  nums : g.indexColumnNums = g'.indexColumnNums
  aggregators : g.aggregators = g'.aggregators
  cmp : g.cmp = g'.cmp
  width : g.groupedTable.columns.length = g.indexColumnNums.length + g.aggregators.length
  table : g.groupedTable.Alike g'.groupedTable
  map : g.indexMap.map (Prod.map contentsOf contentsOf) =
    g'.indexMap.map (Prod.map contentsOf contentsOf)

variable {g g' : GroupIndex} {row row' : List Data}

theorem keyOf_content (hnums : g.indexColumnNums = g'.indexColumnNums) (hrow : ∀ col, g.Reads col →
      (row.getD col (.word 0)).content = (row'.getD col (.word 0)).content) :
    contentsOf (g.keyOf row) = contentsOf (g'.keyOf row') := by
  simp only [keyOf, contentsOf, List.map_map, ← hnums]
  exact List.map_congr_left fun col hcol => hrow col (.inl hcol)

theorem updateBucket_content (haggrs : g.aggregators = g'.aggregators)
    (hrow : ∀ col, g.Reads col → (row.getD col (.word 0)).content =
      (row'.getD col (.word 0)).content) {bucket bucket' : List Data}
    (hbucket : contentsOf bucket = contentsOf bucket') :
    contentsOf (g.updateBucket bucket row) = contentsOf (g'.updateBucket bucket' row') := by
  have hcol : ∀ a ∈ g.aggregators, a.method ≠ .count →
      (row.getD a.columnNum (.word 0)).content = (row'.getD a.columnNum (.word 0)).content :=
    fun a ha hcount => hrow a.columnNum (.inr ⟨a, ha, hcount, rfl⟩)
  rw [updateBucket, updateBucket, ← haggrs]
  generalize g.aggregators = as at hcol
  induction as generalizing bucket bucket' with
  | nil => rfl
  | cons a as ih =>
    cases bucket with
    | nil =>
      obtain rfl := List.map_eq_nil_iff.mp hbucket.symm
      rfl
    | cons out bucket =>
      cases bucket' with
      | nil => cases hbucket
      | cons out' bucket' =>
        obtain ⟨hout, hrest⟩ := List.cons.inj hbucket
        exact congrArg₂ List.cons (a.update_content hout (hcol a List.mem_cons_self))
          (ih hrest fun a' ha' => hcol a' (List.mem_cons_of_mem _ ha'))

theorem Alike.lt (hg : Alike g g') : g.lt = g'.lt := by rw [GroupIndex.lt, GroupIndex.lt, hg.cmp]

theorem Alike.enter (hg : Alike g g') (hrow : ∀ col, g.Reads col →
      (row.getD col (.word 0)).content = (row'.getD col (.word 0)).content) :
    (g.enter row g.indexMap).map (Prod.map contentsOf contentsOf) =
      (g'.enter row' g'.indexMap).map (Prod.map contentsOf contentsOf) := by
  have hnew : g.newBucket = g'.newBucket := by rw [newBucket, newBucket, hg.aggregators]
  rw [GroupIndex.enter, GroupIndex.enter, GroupFold.enter, GroupFold.enter, ← hg.lt, ← hnew]
  refine map_update_congr (p := contentsOf) (q := contentsOf) (lt_content g.cmp) ?_ ?_ ?_ hg.map
  · exact keyOf_content hg.nums hrow
  · exact updateBucket_content hg.aggregators hrow rfl
  · exact updateBucket_content hg.aggregators hrow

theorem makeRow_content (hnums : g.indexColumnNums = g'.indexColumnNums)
    (haggrs : g.aggregators = g'.aggregators) {it it' : IndexKey × List Data}
    (hit : Prod.map contentsOf contentsOf it = Prod.map contentsOf contentsOf it') :
    contentsOf (g.makeRow it) = contentsOf (g'.makeRow it') := by
  obtain ⟨hkey, hbucket⟩ := Prod.mk.inj hit
  simp only [makeRow, contentsOf, List.map_append, List.map_map, ← hnums, ← haggrs]
  refine congrArg₂ (· ++ ·) ?_ ?_
  · exact List.map_congr_left fun i _ => getD_contents hkey i
  · exact List.map_congr_left fun i _ => getD_contents hbucket i

theorem Alike.found (hg : Alike g g') {key key' : IndexKey}
    (hkey : contentsOf key = contentsOf key') {m m' : List (IndexKey × List Data)}
    (hm : m.map (Prod.map contentsOf contentsOf) = m'.map (Prod.map contentsOf contentsOf)) :
    (find g.lt key m).head?.map (Prod.map contentsOf contentsOf) =
      (find g'.lt key' m').head?.map (Prod.map contentsOf contentsOf) := by
  have hfind := map_find_congr (p := contentsOf) (q := contentsOf) (lt_content g.cmp) hkey hm
  rw [← hg.lt, ← List.head?_map, ← List.head?_map]
  exact congrArg List.head? hfind

theorem Alike.updateFromRow (hg : Alike g g')
    (hrow : ∀ col, g.Reads col → (row.getD col (.word 0)).content =
      (row'.getD col (.word 0)).content) {types types' : List DynamicType}
    (htypes : ∀ col ∈ g.indexColumnNums, types.getD col .undef = types'.getD col .undef)
    (now now' : ℕ → BitVec 64) (h h' : StringHeap) :
    Option.Rel (fun x y => Alike x.2 y.2) (g.updateFromRow now row types h)
      (g'.updateFromRow now' row' types' h') := by
  have hmade : Option.Rel (fun _ _ => True) (makeTypedKey g.indexColumnNums row types)
      (makeTypedKey g'.indexColumnNums row' types') := by
    have hfit : (∀ col ∈ g.indexColumnNums, (makeKeyItem (.word 0) (types.getD col .undef)).isSome =
      true) ↔
        ∀ col ∈ g.indexColumnNums, (makeKeyItem (.word 0) (types'.getD col .undef)).isSome = true :=
      forall₂_congr fun col hcol => by rw [htypes col hcol]
    simp only [makeTypedKey_eq, ← hg.nums, hfit]
    split_ifs
    · exact .some trivial
    · exact .none
  have hkey := keyOf_content hg.nums hrow
  have henter := hg.enter hrow
  have hnew : (get? g.lt (g.keyOf row) g.indexMap).isNone =
      (get? g'.lt (g'.keyOf row') g'.indexMap).isNone := by
    have hisNone := congrArg Option.isNone (hg.found hkey hg.map)
    simpa only [get?, Option.isNone_map] using hisNone
  rw [updateFromRow_eq, updateFromRow_eq, hnew]
  refine Runs.rel_bind hmade fun _ _ _ => ?_
  split_ifs
  · have hfound := hg.found hkey henter
    cases hit : (find g.lt (g.keyOf row) (g.enter row g.indexMap)).head? with
    | none =>
      rw [hit, Option.map_none, eq_comm, Option.map_eq_none_iff] at hfound
      rw [hfound]
      exact .none
    | some it =>
      rw [hit, Option.map_some, eq_comm, Option.map_eq_some_iff] at hfound
      obtain ⟨it', hit', heq⟩ := hfound
      rw [hit']
      have hmakeRow := makeRow_content hg.nums hg.aggregators heq.symm
      have hw : (g.makeRow it).length = g.groupedTable.columns.length := by
        rw [makeRow_length, hg.width]
      exact .some ⟨hg.nums, hg.aggregators, hg.cmp, hg.width,
        hg.table.appendRowUnsafe hmakeRow hw now now' h h', henter⟩
  · exact .some ⟨hg.nums, hg.aggregators, hg.cmp, hg.width, hg.table, henter⟩

theorem Alike.build (hg : Alike g g') : Option.Rel Alike g.build g'.build := by
  have hentries : List.Forall₂ (fun (x y : (IndexKey × List Data) × ℕ) =>
      Prod.map contentsOf contentsOf x.1 = Prod.map contentsOf contentsOf y.1 ∧ x.2 = y.2)
      g.indexMap.zipIdx g'.indexMap.zipIdx := by
    have hlen := congrArg List.length hg.map
    rw [List.length_map, List.length_map] at hlen
    refine List.forall₂_iff_get.mpr ⟨by simpa using hlen, fun i h₁ h₂ => ?_⟩
    have hget := congrArg (·[i]?) hg.map
    simp only [List.length_zipIdx] at h₁ h₂
    simp only [List.getElem?_map, List.getElem?_eq_getElem h₁, List.getElem?_eq_getElem h₂,
      Option.map_some, Option.some.injEq] at hget
    simp [hget]
  unfold GroupIndex.build
  refine Runs.rel_bind (R := fun t t' => SharedTable.Alike t t' ∧
    t.columns = g.groupedTable.columns) ?_ ?_
  · refine Runs.rel_foldlM ?_ hentries ⟨hg.table, rfl⟩
    rintro t t' ⟨it, r⟩ ⟨it', r'⟩ ⟨ht, hcols⟩ ⟨hit, hr⟩
    cases hr
    have hset := ht.setRowUnsafe (makeRow_content hg.nums hg.aggregators hit) r
    rwa [hcols] at hset
  · rintro t t' ⟨ht, hcols⟩
    refine .some ⟨hg.nums, hg.aggregators, hg.cmp, ?_, ht, hg.map⟩
    rw [hcols]
    exact hg.width

end GroupIndex

/-- The second call inserts what the first one inserts, with the missing columns filled as
`AppendRow` fills them. -/
inductive BuilderCall.Padded (columns : List Column) : BuilderCall → BuilderCall → Prop
  | insertRow {now now' : ℕ → BitVec 64} {vargs vargs' : List Dynamic}
      (hvalid : SharedTable.validateArgs columns vargs = true)
        (hfull : GroupIndex.FullRow columns vargs')
      (hcells : contentsOf (vargs'.map Dynamic.data) = fillRow now columns vargs) :
      Padded columns (.insertRow now vargs) (.insertRow now' vargs')
  | getResult : Padded columns .getResult .getResult

/-- The buffer holds the default of every column that the row leaves out and the index reads,
and the type of every such key column. -/
def BuilderCall.Covered : BuilderCall → StringHeap × GroupedTableBuilder → Prop
  | insertRow now vargs, (_, b) =>
    ∀ c ∈ b.validatorTable.columns.zipIdx, vargs.length ≤ c.2 → b.index.Reads c.2 →
      (b.currentData.getD c.2 (.word 0)).content = defaultContent c.1.type (now c.2) ∧
      (c.2 ∈ b.index.indexColumnNums → b.currentTypes.getD c.2 .undef = c.1.type.toDynamic)
  | getResult, _ => True

instance : ∀ (call : BuilderCall) (s : StringHeap × GroupedTableBuilder), Decidable (call.Covered s)
  | .insertRow _ vargs, (_, b) => inferInstanceAs (Decidable (∀ c ∈ b.validatorTable.columns.zipIdx,
      vargs.length ≤ c.2 → b.index.Reads c.2 → _ ∧ (c.2 ∈ b.index.indexColumnNums → _)))
  | .getResult, _ => inferInstanceAs (Decidable True)

namespace GroupedTableBuilder

/-- Builders for the same columns with the same groups; their buffers may differ. -/
structure Alike (columns : List Column) (b b' : GroupedTableBuilder) : Prop where
  columns_eq : b.validatorTable.columns = columns
  columns_eq' : b'.validatorTable.columns = columns
  data_length : b.currentData.length = columns.length
  data_length' : b'.currentData.length = columns.length
  types_length : b.currentTypes.length = columns.length
  types_length' : b'.currentTypes.length = columns.length
  index : b.index.Alike b'.index

variable {columns : List Column} {b b' : GroupedTableBuilder}

theorem validate_typed {vargs : List Dynamic}
    (hvalid : SharedTable.validateArgs b.validatorTable.columns vargs = true)
    (hdata : b.currentData.length = b.validatorTable.columns.length)
    (htypes : b.currentTypes.length = b.validatorTable.columns.length) :
    b.validate vargs = (true, { b with
      currentData := (vargs.take b.validatorTable.columns.length).map Dynamic.data ++
        b.currentData.drop vargs.length
      currentTypes := (vargs.take b.validatorTable.columns.length).map Dynamic.type ++
        b.currentTypes.drop vargs.length }) := by
  obtain ⟨hne, htyped⟩ := (SharedTable.validateArgs_iff _ _).mp hvalid
  have hempty : vargs.isEmpty = false := by rwa [List.isEmpty_eq_false_iff]
  simp only [validate, hempty, Bool.false_eq_true, if_false,
    GroupIndex.copyArgs_eq htyped hdata htypes]

theorem getD_overwritten {α : Type} (d : α) {new old : List α} {n k col : ℕ} (hcol : col < n)
    (hk : new.length = min k n) :
    (new ++ old.drop k).getD col d = if col < k then new.getD col d else old.getD col d := by
  split_ifs with hlt
  · exact List.getD_append _ _ _ _ (by omega)
  · rw [List.getD_append_right _ _ _ _ (by omega), List.getD_eq_getElem?_getD, List.getElem?_drop,
      List.getD_eq_getElem?_getD]
    congr 2
    omega

section
variable {now : ℕ → BitVec 64} {vargs vargs' : List Dynamic} {h : StringHeap} {col : ℕ}

theorem data_covered (hb : Alike columns b b') (hfull : GroupIndex.FullRow columns vargs')
    (hcells : contentsOf (vargs'.map Dynamic.data) = fillRow now columns vargs)
    (hcov : (BuilderCall.insertRow now vargs).Covered (h, b)) (hreads : b.index.Reads col) :
    (((vargs.take columns.length).map Dynamic.data ++ b.currentData.drop vargs.length).getD col
      (.word 0)).content =
      ((vargs'.map Dynamic.data).getD col (.word 0)).content := by
  by_cases hcol : col < columns.length
  · have hpadded : ((vargs'.map Dynamic.data).getD col (.word 0)).content =
        (vargs[col]?.map fun v => v.data.content).getD
          (defaultContent columns[col].type (now col)) := by
      rw [← getD_contentsOf, hcells, List.getD_eq_getElem _ _ (by simpa [fillRow] using hcol)]
      simp [fillRow]
    rw [hpadded, getD_overwritten _ hcol (by simp [Nat.min_comm])]
    split_ifs with hgiven
    · simp [List.getD_eq_getElem?_getD, hcol, hgiven]
    · rw [List.getElem?_eq_none (by omega)]
      refine (hcov (columns[col], col) ?_ (by simpa using hgiven) hreads).1
      rw [List.mem_zipIdx_iff_getElem?, hb.columns_eq, List.getElem?_eq_getElem hcol]
  · have hlen := hb.data_length
    rw [List.getD_eq_default _ _ (by simp; omega),
      List.getD_eq_default _ _ (by simp [hfull.1]; omega)]

theorem types_covered (hb : Alike columns b b')
    (hvalid : SharedTable.validateArgs columns vargs = true)
    (hfull : GroupIndex.FullRow columns vargs')
    (hcov : (BuilderCall.insertRow now vargs).Covered (h, b))
    (hkey : col ∈ b.index.indexColumnNums) :
    ((vargs.take columns.length).map Dynamic.type ++ b.currentTypes.drop vargs.length).getD col
      .undef =
      (vargs'.map Dynamic.type).getD col .undef := by
  obtain ⟨-, htyped⟩ := (SharedTable.validateArgs_iff _ _).mp hvalid
  by_cases hcol : col < columns.length
  · rw [hfull.type_getD hcol, getD_overwritten _ hcol (by simp [Nat.min_comm])]
    split_ifs with hgiven
    · have htype :=
        htyped (columns[col], vargs[col]) (List.mem_iff_getElem.mpr ⟨col, by simp; omega, by simp⟩)
      simp [List.getD_eq_getElem?_getD, hcol, hgiven, htype]
    · refine (hcov (columns[col], col) ?_ (by simpa using hgiven) (.inl hkey)).2 hkey
      rw [List.mem_zipIdx_iff_getElem?, hb.columns_eq, List.getElem?_eq_getElem hcol]
  · have hlen := hb.types_length
    rw [List.getD_eq_default _ _ (by simp; omega),
      List.getD_eq_default _ _ (by simp [hfull.1]; omega)]

end

theorem Alike.insertRow (hw : 0 < columns.length) (hb : Alike columns b b')
    {now now' : ℕ → BitVec 64} {vargs vargs' : List Dynamic}
    (hvalid : SharedTable.validateArgs columns vargs = true)
    (hfull : GroupIndex.FullRow columns vargs')
    (hcells : contentsOf (vargs'.map Dynamic.data) = fillRow now columns vargs) (h h' : StringHeap)
    (hcov : (BuilderCall.insertRow now vargs).Covered (h, b)) :
    Option.Rel (fun x y => Alike columns x.2.2 y.2.2) (b.insertRow now vargs h)
      (b'.insertRow now' vargs' h') := by
  have hup := hb.index.updateFromRow (fun col hreads => data_covered hb hfull hcells hcov hreads)
    (fun col hkey => types_covered hb hvalid hfull hcov hkey) now now' h h'
  obtain ⟨rfl, hcols', hdata, hdata', htypes, htypes', -⟩ := hb
  unfold GroupedTableBuilder.insertRow
  rw [validate_typed hvalid hdata htypes, validate_full hw hcols' hdata' htypes' hfull]
  refine Runs.rel_bind hup fun x y hxy => .some ⟨rfl, hcols', ?_, ?_, ?_, ?_, hxy⟩
  · simp only [List.length_append, List.length_map, List.length_take, List.length_drop]
    omega
  · rw [List.length_map, hfull.1]
  · simp only [List.length_append, List.length_map, List.length_take, List.length_drop]
    omega
  · rw [List.length_map, hfull.1]

theorem Alike.getResult (hb : Alike columns b b') :
    Option.Rel (fun x y => SharedTable.Alike x.1 y.1 ∧ Alike columns x.2 y.2) b.getResult
      b'.getResult := by
  refine Runs.rel_bind hb.index.build fun index index' hindex => .some ⟨hindex.table, ?_⟩
  exact ⟨hb.columns_eq, hb.columns_eq', hb.data_length, hb.data_length', hb.types_length,
    hb.types_length', hindex⟩

theorem Alike.perform (hw : 0 < columns.length) {call call' : BuilderCall}
    (hpad : call.Padded columns call') {s s' : StringHeap × GroupedTableBuilder}
    (hb : Alike columns s.2 s'.2) (hcov : call.Covered s) :
    Option.Rel (fun x y => Alike columns x.2.2 y.2.2) (call.perform s) (call'.perform s') := by
  cases hpad with
  | insertRow hvalid hfull hcells => exact hb.insertRow hw hvalid hfull hcells s.1 s'.1 hcov
  | getResult =>
    simp only [BuilderCall.perform, Option.map_eq_bind]
    exact Runs.rel_bind hb.getResult fun x y hxy => .some hxy.2

end GroupedTableBuilder

end Nkit
