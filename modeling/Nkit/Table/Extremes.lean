import Nkit.Table.KeyLimit
import Mathlib.Order.Bounds.Basic

/-! MIN and MAX over the groups of a table.  Both start from an extreme value of the type and
combine it with the cells of the group one by one; for `DATE_TIME` the operations are the
inherited ones, which keep their left operand, so that the start value is all they give. -/

namespace Nkit
open FlatRows OrderedMap

def Data.value (type : ColumnType) (d : Data) : ℤ :=
  match type with
  | .integer => d.i64
  | _ => d.ui64

theorem isLeast_foldl_min {α : Type} [LinearOrder α] (l : List α) (s : α) :
    IsLeast (insert s {x | x ∈ l}) (l.foldl min s) := by
  induction l generalizing s with
  | nil => simp
  | cons x l ih =>
    obtain ⟨hmem, hlower⟩ := ih (min s x)
    rw [List.foldl_cons]
    refine ⟨?_, fun y hy => ?_⟩
    · obtain heq | hmem := hmem
      · rw [heq]
        obtain h | h := min_choice s x <;> rw [h] <;> simp
      · exact .inr (.tail x hmem)
    · obtain rfl | hy := hy
      · exact (hlower (Set.mem_insert _ _)).trans (min_le_left _ _)
      · obtain rfl | hy := List.mem_cons.mp hy
        · exact (hlower (Set.mem_insert _ _)).trans (min_le_right _ _)
        · exact hlower (Set.mem_insert_of_mem _ hy)

theorem isLeast_of_start {α : Type} [LinearOrder α] {l : List α} {s : α} (hne : l ≠ [])
    (hs : ∀ x ∈ l, x ≤ s) :
    IsLeast {x | x ∈ l} (l.foldl min s) := by
  obtain ⟨hmem, hlower⟩ := isLeast_foldl_min l s
  refine ⟨?_, fun y hy => hlower (Set.mem_insert_of_mem _ hy)⟩
  obtain heq | hmem := hmem
  · obtain ⟨x, hx⟩ := List.exists_mem_of_ne_nil l hne
    have hle := hlower (Set.mem_insert_of_mem s hx)
    rw [heq] at hle ⊢
    rwa [le_antisymm hle (hs x hx)]
  · exact hmem

theorem isGreatest_of_start {α : Type} [LinearOrder α] {l : List α} {s : α} (hne : l ≠ [])
    (hs : ∀ x ∈ l, s ≤ x) :
    IsGreatest {x | x ∈ l} (l.foldl max s) := @isLeast_of_start αᵒᵈ _ l s hne hs

section
variable {type : ColumnType}

theorem opMin_value (htype : type = .integer ∨ type = .unsignedInteger ∨ type = .bool)
    (v rv : Data) :
    (opMin type v rv).value type = min (v.value type) (rv.value type) := by
  rcases htype with rfl | rfl | rfl <;> simp only [opMin, Data.value] <;> split_ifs <;> omega

theorem opMax_value (htype : type = .integer ∨ type = .unsignedInteger ∨ type = .bool)
    (v rv : Data) :
    (opMax type v rv).value type = max (v.value type) (rv.value type) := by
  rcases htype with rfl | rfl | rfl <;> simp only [opMax, Data.value] <;> split_ifs <;> omega

theorem i64_bounds (d : Data) : -2 ^ 63 ≤ d.i64 ∧ d.i64 < 2 ^ 63 := by
  cases d with
  | word w => exact ⟨w.le_toInt, w.toInt_lt⟩
  | str s => simp [Data.i64]
  | obj addr => simp [Data.i64]

theorem ui64_lt (d : Data) : d.ui64 < 2 ^ 64 := by
  cases d with
  | word w => exact w.isLt
  | str s => exact Nat.two_pow_pos 64
  | obj addr => exact Nat.two_pow_pos 64

theorem value_bounds {d : Data} (hbool : type = .bool → d.ui64 ≤ 1) (hfloat : type ≠ .float) :
    (getMinData type).value type ≤ d.value type ∧ d.value type ≤ (getMaxData type).value type := by
  have hint := i64_bounds d
  have hnat := ui64_lt d
  cases type with
  | integer =>
    have hmin : (getMinData .integer).i64 = -2 ^ 63 := by decide
    have hmax : (getMaxData .integer).i64 = 2 ^ 63 - 1 := by decide
    simp only [Data.value, hmin, hmax]
    omega
  | float => exact absurd rfl hfloat
  | bool =>
    have hle := hbool rfl
    have hmax : (getMaxData .bool).ui64 = 1 := rfl
    simp only [Data.value, hmax]
    exact ⟨Int.natCast_nonneg _, by omega⟩
  | unsignedInteger | dateTime | string =>
    exact ⟨Int.natCast_nonneg _, Int.ofNat_le.mpr (Nat.le_sub_one_of_lt hnat)⟩

end

namespace Aggregator

variable {a : Aggregator}

def Extreme (a : Aggregator) (values : Set ℤ) (v : ℤ) : Prop :=
  match a.method with
  | .min => IsLeast values v
  | _ => IsGreatest values v

def valuesIn (a : Aggregator) (rows : List (List Data)) : List ℤ :=
  rows.map fun row => (row.getD a.columnNum (.word 0)).value a.type

theorem foldl_value {o : ℤ → ℤ → ℤ}
    (hstep : ∀ acc row, (a.update acc row).value a.type =
      o (acc.value a.type) ((row.getD a.columnNum (.word 0)).value a.type))
    (rows : List (List Data)) (acc : Data) :
    (rows.foldl a.update acc).value a.type = (a.valuesIn rows).foldl o (acc.value a.type) := by
  induction rows generalizing acc with
  | nil => rfl
  | cons row rows ih =>
    rw [List.foldl_cons, ih, hstep]
    rfl

/-- `DATE_TIME` keeps the left operand. -/
theorem foldl_dateTime (hmethod : a.method = .min ∨ a.method = .max) (htype : a.type = .dateTime)
    (rows : List (List Data)) (acc : Data) : rows.foldl a.update acc = acc := by
  induction rows generalizing acc with
  | nil => rfl
  | cons row rows ih =>
    have hkeep : a.update acc row = acc := by
      rcases hmethod with hmethod | hmethod <;> simp only [update, hmethod, htype] <;> rfl
    rw [List.foldl_cons, hkeep, ih]

theorem defaultData_min (hdefault : a = .create a.columnNum a.type a.method)
    (hmin : a.method = .min) :
    a.defaultData = getMaxData a.type := by
  have hdata := congrArg defaultData hdefault
  rw [hmin] at hdata
  exact hdata

theorem defaultData_max (hdefault : a = .create a.columnNum a.type a.method)
    (hmax : a.method = .max) :
    a.defaultData = getMinData a.type := by
  have hdata := congrArg defaultData hdefault
  rw [hmax] at hdata
  exact hdata

section
variable (hmethod : a.method = .min ∨ a.method = .max)
  (hdefault : a = .create a.columnNum a.type a.method)
  (hfloat : a.type ≠ .float) {rows : List (List Data)}
  (hbool : a.type = .bool → ∀ row ∈ rows, (row.getD a.columnNum (.word 0)).ui64 ≤ 1)
include hmethod hdefault hfloat hbool

theorem start_bounds :
    a.method = .min ∧ (∀ v ∈ a.valuesIn rows, v ≤ a.defaultData.value a.type) ∨
      a.method = .max ∧ ∀ v ∈ a.valuesIn rows, a.defaultData.value a.type ≤ v := by
  have hvalues : ∀ v ∈ a.valuesIn rows, (getMinData a.type).value a.type ≤ v ∧
      v ≤ (getMaxData a.type).value a.type := by
    intro v hv
    obtain ⟨row, hrow, rfl⟩ := List.mem_map.mp hv
    exact value_bounds (fun htype => hbool htype row hrow) hfloat
  refine hmethod.imp (fun hmin => ⟨hmin, fun v hv => ?_⟩) fun hmax => ⟨hmax, fun v hv => ?_⟩
  · rw [defaultData_min hdefault hmin]
    exact (hvalues v hv).2
  · rw [defaultData_max hdefault hmax]
    exact (hvalues v hv).1

variable (hne : rows ≠ [])
include hne

/-- MIN and MAX over a group, except of `DATE_TIME`. -/
theorem extreme_foldl (hstring : a.type ≠ .string) (htype : a.type ≠ .dateTime) :
    a.Extreme {v | v ∈ a.valuesIn rows} ((rows.foldl a.update a.defaultData).value a.type) := by
  have hordered : a.type = .integer ∨ a.type = .unsignedInteger ∨ a.type = .bool := by
    revert hfloat hstring htype
    cases a.type <;> simp
  have hvalues : a.valuesIn rows ≠ [] := fun hnil => hne (List.map_eq_nil_iff.mp hnil)
  obtain ⟨hmin, hstart⟩ | ⟨hmax, hstart⟩ := start_bounds hmethod hdefault hfloat hbool
  · have hfold :=
      foldl_value (o := min) (fun acc row => by rw [update, hmin]; exact opMin_value hordered _ _)
      rows a.defaultData
    rw [Extreme, hmin, hfold]
    exact isLeast_of_start hvalues hstart
  · have hfold :=
      foldl_value (o := max) (fun acc row => by rw [update, hmax]; exact opMax_value hordered _ _)
      rows a.defaultData
    rw [Extreme, hmax, hfold]
    exact isGreatest_of_start hvalues hstart

/-- Over `DATE_TIME` the start value is right only where it is the only value. -/
theorem extreme_foldl_dateTime (htype : a.type = .dateTime) :
    a.Extreme {v | v ∈ a.valuesIn rows} ((rows.foldl a.update a.defaultData).value a.type) ↔
      ∀ v ∈ a.valuesIn rows, v = a.defaultData.value a.type := by
  have hvalues : a.valuesIn rows ≠ [] := fun hnil => hne (List.map_eq_nil_iff.mp hnil)
  obtain ⟨v₀, hv₀⟩ := List.exists_mem_of_ne_nil _ hvalues
  rw [foldl_dateTime hmethod htype]
  obtain ⟨hmin, hstart⟩ | ⟨hmax, hstart⟩ := start_bounds hmethod hdefault hfloat hbool
  · rw [Extreme, hmin]
    refine ⟨fun hleast v hv => le_antisymm (hstart v hv) (hleast.2 hv),
      fun hall => ⟨?_, fun v hv => ?_⟩⟩
    · rwa [← hall v₀ hv₀]
    · exact (hall v hv).ge
  · rw [Extreme, hmax]
    refine ⟨fun hgreatest v hv => le_antisymm (hgreatest.2 hv) (hstart v hv),
      fun hall => ⟨?_, fun v hv => ?_⟩⟩
    · rwa [← hall v₀ hv₀]
    · exact (hall v hv).le

end

end Aggregator

def SharedTable.groupsOf (t : SharedTable) (g : GroupIndex) : List (IndexKey × List ℕ) :=
  GroupFold.collect g.lt (fun i => g.indexColumnNums.map (t.cell i)) (List.range t.height)

theorem SharedTable.mem_groupsOf (t : SharedTable) (g : GroupIndex) :
    (∀ e ∈ t.groupsOf g, e.2 ≠ [] ∧ ∀ i ∈ e.2, i < t.height) ∧
      ∀ i < t.height, ∃ e ∈ t.groupsOf g, i ∈ e.2 := by
  obtain ⟨hentries, hcover⟩ := GroupFold.mem_collect (List.range t.height)
  refine ⟨fun e he => ⟨(hentries e he).1, fun i hi => ?_⟩,
    fun i hi => hcover i (List.mem_range.mpr hi)⟩
  exact List.mem_range.mp ((hentries e he).2 i hi)

namespace GroupIndex

variable {columns : List Column} {keys : List KeyColumn} {g : GroupIndex} {rs : List (List Data)}
  (xs : List TableIndex)

theorem Frame.groups_eq (hg : Frame columns keys g) (hu : Uniform columns.length rs) :
    g.groups rs = ((SharedTable.ofRows columns rs xs).groupsOf g).map fun e =>
      (e.1, (e.2.map fun i => rs.getD i []).foldl g.updateBucket g.newBucket) := by
  have hkey : ∀ i ∈ List.range rs.length, g.keyOf (rs.getD i []) =
      g.indexColumnNums.map ((SharedTable.ofRows columns rs xs).cell i) := by
    intro i hi
    have hi' : i < rs.length := List.mem_range.mp hi
    refine List.map_congr_left fun col hcol => ?_
    rw [SharedTable.cell_ofRows xs hu hi' (hg.inside hcol), List.getD_eq_getElem rs [] hi']
  conv_lhs =>
    rw [SharedTable.rows_eq_map_range rs, groups, GroupFold.fold_map, GroupFold.fold_congr hkey,
    GroupFold.fold_eq_collect]
  simp only [List.foldl_map]
  rfl

theorem Frame.aggregate_groupsOf (hg : Frame columns keys g) (hu : Uniform columns.length rs)
    {j n : ℕ} {e : IndexKey × List ℕ}
    (he : ((SharedTable.ofRows columns rs xs).groupsOf g)[j]? = some e) {a : Aggregator}
    (ha : g.aggregators[n]? = some a) :
    (g.resultOf rs).cell j (keys.length + n) =
      (e.2.map fun i => rs.getD i []).foldl a.update a.defaultData := by
  obtain ⟨hn, rfl⟩ := List.getElem?_eq_some_iff.mp ha
  have hgroup : (g.groups rs)[j]? =
      some (e.1, (e.2.map fun i => rs.getD i []).foldl g.updateBucket g.newBucket) := by
    rw [hg.groups_eq xs hu, List.getElem?_map, he, Option.map_some]
  obtain ⟨hj, hgroup⟩ := List.getElem?_eq_some_iff.mp hgroup
  rw [hg.cell_resultOf hj (by omega), hgroup, foldl_updateBucket, makeRow,
    List.getD_append_right _ _ _ _ (by simp [hg.nums])]
  simp [hg.nums, hn]

theorem create_column {indexDef aggr : Bytes} (h : create columns indexDef aggr = .ok g)
    {a : Aggregator} (ha : a ∈ g.aggregators) (hcount : a.method ≠ .count) :
    (∃ c, columns[a.columnNum]? = some c ∧ c.type = a.type) ∧ a.type ≠ .string := by
  obtain ⟨-, aggrs, -, haggrs, -, -, -, hag, -⟩ := create_ok h
  rw [hag] at ha
  obtain ⟨p, hp, rfl⟩ := List.mem_map.mp ha
  obtain ⟨item, -, hitem⟩ := Traverse.exists_of_mapM_ok haggrs hp
  unfold aggregatorOf at hitem
  simp only at hitem
  split at hitem
  · cases hitem
  · cases hitem
    exact absurd rfl hcount
  next aggrType _ _ =>
    split_ifs at hitem
    simp only [bind, Except.bind] at hitem
    split at hitem
    · cases hitem
    next found hfound =>
      split_ifs at hitem with hstring
      cases hitem
      exact ⟨⟨_, findColumn_ok hfound, rfl⟩, hstring⟩

end GroupIndex

/-- Row `j` of the result is about group `j`, and its cell of aggregator `n` is the least,
respectively greatest value of the rows of this group. -/
def SharedTable.ExtremesIn (t : SharedTable) (g : GroupIndex) (n : ℕ) (a : Aggregator)
    (result : SharedTable) : Prop :=
  result.height = (t.groupsOf g).length ∧
    ∀ j e, (t.groupsOf g)[j]? = some e →
      a.Extreme {v | ∃ i ∈ e.2, (t.cell i a.columnNum).value a.type = v}
        ((result.cell j (g.indexColumnNums.length + n)).value a.type)

namespace GroupIndex

variable {columns : List Column} {keys : List KeyColumn} {g : GroupIndex} {rs : List (List Data)}
  (xs : List TableIndex)

theorem buildFrom_eq_none {t : SharedTable} (hrows : t.height ≠ 0)
    (hsize : ¬ g.indexColumnNums.length ≤ indexKeyMaxSize) (now : ℕ → BitVec 64) (h : StringHeap) :
    g.buildFrom now t h = none := by
  obtain ⟨n, hn⟩ := Nat.exists_eq_succ_of_ne_zero hrows
  have hfirst : ((t.storage.get 0).bind fun row => g.updateFromTable row) = none := by
    cases t.storage.get 0 with
    | none => rfl
    | some row => simp [updateFromTable, makeKey, hsize]
  rw [buildFrom, if_neg hrows, hn, List.range_succ_eq_map, List.foldlM_cons]
  simp only [Option.bind_eq_bind, hfirst, Option.bind_none]

section
variable (hg : Frame columns keys g) (hu : Uniform columns.length rs) {n : ℕ} {a : Aggregator}
  (ha : g.aggregators[n]? = some a) (hmethod : a.method = .min ∨ a.method = .max)
include hg hu ha hmethod

theorem cell_of_row {i : ℕ} (hi : i < rs.length) :
    (rs.getD i []).getD a.columnNum (.word 0) = (SharedTable.ofRows columns rs xs).cell i
      a.columnNum := by
  have hcount : a.method ≠ .count := by rcases hmethod with h | h <;> rw [h] <;> decide
  have hcol : a.columnNum < columns.length :=
    (hg.aggregated a (List.mem_of_getElem? ha)).resolve_left hcount
  rw [SharedTable.cell_ofRows xs hu hi hcol, List.getD_eq_getElem rs [] hi]

theorem valuesIn_group {is : List ℕ} (his : ∀ i ∈ is, i < rs.length) :
    a.valuesIn (is.map fun i => rs.getD i []) =
      is.map fun i => ((SharedTable.ofRows columns rs xs).cell i a.columnNum).value a.type := by
  rw [Aggregator.valuesIn, List.map_map]
  exact List.map_congr_left fun i hi =>
    congrArg (Data.value a.type) (cell_of_row xs hg hu ha hmethod (his i hi))

variable (hdefault : a = .create a.columnNum a.type a.method) (hfloat : a.type ≠ .float)
  (hstring : a.type ≠ .string)
  (hbool : a.type = .bool → ∀ i < rs.length,
    ((SharedTable.ofRows columns rs xs).cell i a.columnNum).ui64 ≤ 1)
include hdefault hfloat hstring hbool

theorem extreme_group_iff {j : ℕ} {e : IndexKey × List ℕ}
    (hj : ((SharedTable.ofRows columns rs xs).groupsOf g)[j]? = some e) :
    a.Extreme {v | ∃ i ∈ e.2, ((SharedTable.ofRows columns rs xs).cell i a.columnNum).value a.type =
      v}
        (((g.resultOf rs).cell j (g.indexColumnNums.length + n)).value a.type) ↔
      a.type ≠ .dateTime ∨ ∀ i ∈ e.2,
        ((SharedTable.ofRows columns rs xs).cell i a.columnNum).value a.type =
          a.defaultData.value a.type := by
  obtain ⟨hne, hinside⟩ :=
    ((SharedTable.ofRows columns rs xs).mem_groupsOf g).1 e (List.mem_of_getElem? hj)
  have hvalues := valuesIn_group xs hg hu ha hmethod hinside
  have hset :
      {v | ∃ i ∈ e.2, ((SharedTable.ofRows columns rs xs).cell i a.columnNum).value a.type = v} =
      {v | v ∈ a.valuesIn (e.2.map fun i => rs.getD i [])} := by
    rw [hvalues]
    exact Set.ext fun v => List.mem_map.symm
  have hrows : (e.2.map fun i => rs.getD i []) ≠ [] := fun hnil => hne (List.map_eq_nil_iff.mp hnil)
  have hbools : a.type = .bool →
      ∀ row ∈ e.2.map fun i => rs.getD i [], (row.getD a.columnNum (.word 0)).ui64 ≤ 1 := by
    intro htype row hrow
    obtain ⟨i, hi, rfl⟩ := List.mem_map.mp hrow
    rw [cell_of_row xs hg hu ha hmethod (hinside i hi)]
    exact hbool htype i (hinside i hi)
  rw [hset, hg.nums, List.length_map, hg.aggregate_groupsOf xs hu hj ha]
  by_cases htype : a.type = .dateTime
  · rw [Aggregator.extreme_foldl_dateTime hmethod hdefault hfloat hbools hrows htype,
      or_iff_right (not_not_intro htype), hvalues]
    exact List.forall_mem_map
  · exact iff_of_true (Aggregator.extreme_foldl hmethod hdefault hfloat hbools hrows hstring htype)
      (.inl htype)

theorem extremesIn_resultOf_iff :
    (SharedTable.ofRows columns rs xs).ExtremesIn g n a (g.resultOf rs) ↔
      a.type ≠ .dateTime ∨ ∀ i < rs.length,
        ((SharedTable.ofRows columns rs xs).cell i a.columnNum).value a.type =
          a.defaultData.value a.type := by
  obtain ⟨hentries, hcover⟩ := (SharedTable.ofRows columns rs xs).mem_groupsOf g
  have hheight : (g.resultOf rs).height =
      ((SharedTable.ofRows columns rs xs).groupsOf g).length := by
    rw [height_resultOf, hg.groups_eq xs hu, List.length_map]
  have hgroup := fun j e => extreme_group_iff xs hg hu ha hmethod hdefault hfloat hstring hbool
    (j := j) (e := e)
  refine ⟨fun hext => ?_, fun hcond => ⟨hheight, fun j e hj => (hgroup j e hj).mpr ?_⟩⟩
  · refine or_iff_not_imp_left.mpr fun htype i hi => ?_
    obtain ⟨e, he, hie⟩ := hcover i hi
    obtain ⟨j, hj⟩ := List.mem_iff_getElem?.mp he
    exact ((hgroup j e hj).mp (hext.2 j e hj)).resolve_left htype i hie
  · exact hcond.imp_right fun hall i hi => hall i ((hentries e (List.mem_of_getElem? hj)).2 i hi)

end

end GroupIndex

/-- Values of type `BOOL` are 0 or 1, as `Impl<BOOL>::Create` makes them. -/
def Dynamic.Proper (v : Dynamic) : Prop := v.type = .bool → v.data.ui64 ≤ 1

def Action.Proper : Action → Prop
  | .call c => ∀ v ∈ c.args, v.Proper
  | .createIndex _ => True

def Column.Admits (c : Column) (d : Data) : Prop := c.type = .bool → d.ui64 ≤ 1

namespace SharedTable

theorem insertCells_admits (now : ℕ → BitVec 64) (colNum : ℕ) {cs : List Column} {vs : List Dynamic}
    (hvalid : ∀ cv ∈ cs.zip vs, cv.1.type.toDynamic = cv.2.type) (hproper : ∀ v ∈ vs, v.Proper)
    (h : StringHeap) :
    List.Forall₂ Column.Admits cs (insertCells now colNum cs vs h).1 := by
  induction cs generalizing colNum vs h with
  | nil => exact .nil
  | cons c cs ih =>
    cases vs with
    | nil =>
      rw [insertCells]
      refine .cons (fun hbool => ?_) (ih (colNum + 1) (by simp) (by simp) _)
      rw [hbool]
      exact Nat.zero_le 1
    | cons v vs =>
      rw [insertCells]
      rw [List.zip_cons_cons, List.forall_mem_cons] at hvalid
      rw [List.forall_mem_cons] at hproper
      refine .cons (fun hbool => hproper.1 ?_) (ih (colNum + 1) hvalid.2 hproper.2 _)
      rw [← hvalid.1, hbool]
      rfl

theorem newRow_admits (now : ℕ → BitVec 64) {columns : List Column} {vargs : List Dynamic}
    (hvalid : validateArgs columns vargs = true) (hproper : ∀ v ∈ vargs, v.Proper)
    (h : StringHeap) :
    List.Forall₂ Column.Admits columns (newRow now columns vargs h) := by
  refine insertCells_admits now 0 (fun cv hcv => ?_) hproper h
  rw [validateArgs, Bool.and_eq_true, List.all_eq_true] at hvalid
  exact eq_of_beq (hvalid.2 cv hcv)

theorem forall₂_set {α β : Type} {R : α → β → Prop} {as : List α} {bs : List β}
    (h : List.Forall₂ R as bs) {i : ℕ} {b : β} (hb : ∀ a, as[i]? = some a → R a b) :
    List.Forall₂ R as (bs.set i b) := by
  induction h generalizing i with
  | nil => exact .nil
  | cons hab hrest ih =>
    cases i with
    | zero => exact .cons (hb _ rfl) hrest
    | succ i => exact .cons hab (ih fun a ha => hb a ha)

def Admitted (t : SharedTable) : Prop :=
  t.Sound ∧ ∃ rs, t = ofRows t.columns rs t.tableIndexSet ∧
    ∀ row ∈ rs, List.Forall₂ Column.Admits t.columns row

theorem Admitted.ofRows {columns : List Column} {rs : List (List Data)} (hw : 0 < columns.length)
    (hrows : ∀ row ∈ rs, List.Forall₂ Column.Admits columns row) (xs : List TableIndex) :
    (ofRows columns rs xs).Admitted :=
  ⟨⟨laid_ofRows xs fun row hrow => (hrows row hrow).length_eq.symm, hw⟩, rs, rfl, hrows⟩

theorem Admitted.call {s s' : TableState} {b : Bool} (hs : s.2.Admitted) {call : Call}
    (hproper : ∀ v ∈ call.args, v.Proper) (h : call.perform s = some (b, s')) : s'.2.Admitted := by
  obtain ⟨heap, t⟩ := s
  obtain ⟨hsound, rs, ht, hrows⟩ := hs
  have hw : 0 < t.columns.length := hsound.width_pos
  have ht' : t = SharedTable.ofRows t.columns rs t.tableIndexSet := ht
  rw [ht'] at h
  obtain ⟨rs', xs', hs', -, hfrom⟩ := Call.rows_of_perform hw
    (fun row hrow => (hrows row hrow).length_eq.symm) h
  rw [hs']
  refine Admitted.ofRows hw (fun row hrow => ?_) xs'
  obtain hold | ⟨now, hvalid, rfl⟩ | ⟨old, hold, c, column, v, hcol, htype, hv, rfl⟩ :=
    hfrom row hrow
  · exact hrows row hold
  · exact newRow_admits now hvalid hproper heap
  · refine forall₂_set (hrows old hold) fun column' hcol' hbool => ?_
    obtain rfl := Option.some.inj (hcol.symm.trans hcol')
    refine hproper v hv ?_
    rw [← htype, hbool]
    rfl

theorem Admitted.action {s s' : TableState} {b : Bool} (hs : s.2.Admitted) {a : Action}
    (hproper : a.Proper) (h : a.perform s = some (b, s')) : s'.2.Admitted := by
  cases a with
  | call c => exact hs.call hproper h
  | createIndex indexDefinition =>
    obtain rfl | ⟨x, rfl⟩ := Action.createIndex_cases h
    · exact hs
    · obtain ⟨hsound, rs, ht, hrows⟩ := hs
      have hsub : s.2.subscribe x = SharedTable.ofRows s.2.columns rs (s.2.tableIndexSet ++
          [x.notifyReferToTable true]) := by
        rw [subscribe, ht]
        rfl
      rw [hsub]
      exact Admitted.ofRows hsound.width_pos hrows _

/-- Tables that calls with proper values and new indices lead to from a new table. -/
def ProperlyReached (tableDef : Bytes) (t : SharedTable) : Prop :=
  ∃ t₀ h actions flags h', SharedTable.create tableDef = .ok t₀ ∧ (∀ a ∈ actions, a.Proper) ∧
    Runs.run Action.perform actions (h, t₀) = some (flags, h', t)

theorem ProperlyReached.admitted {tableDef : Bytes} {t : SharedTable}
    (ht : t.ProperlyReached tableDef) :
    t.Admitted := by
  obtain ⟨t₀, h, actions, flags, h', hcreate, hproper, hrun⟩ := ht
  have hstart : t₀.Admitted := by
    obtain ⟨hsound, -⟩ := sound_of_create hcreate
    obtain ⟨hempty, -⟩ := createColumns_ok hcreate
    rw [hempty]
    exact Admitted.ofRows hsound.width_pos (by simp) []
  exact Runs.invariant_of_run (P := fun s : TableState => s.2.Admitted) (C := fun a _ => a.Proper)
    (fun a s b s' hs ha hperform => hs.action ha hperform) hstart (Runs.allSteps_of_forall hproper)
      hrun

theorem Admitted.cell_bool {t : SharedTable} (ht : t.Admitted) {c : ℕ} {column : Column}
    (hcol : t.columns[c]? = some column) (hbool : column.type = .bool) {i : ℕ} (hi : i < t.height) :
    (t.cell i c).ui64 ≤ 1 := by
  obtain ⟨-, rs, hrs, hrows⟩ := ht
  obtain ⟨hc, rfl⟩ := List.getElem?_eq_some_iff.mp hcol
  have hi' : i < rs.length := by
    rw [hrs] at hi
    exact hi
  have hrow := hrows _ (List.getElem_mem hi')
  rw [hrs, cell_ofRows _ (fun row hrow => (hrows row hrow).length_eq.symm) hi' hc,
    List.getD_eq_getElem _ _ (hrow.length_eq ▸ hc)]
  exact hrow.get hc (hrow.length_eq ▸ hc) hbool

end SharedTable

/-- **MIN and MAX give the least and greatest value of every group**, exactly if the keys fit
into an `IndexKey` and the column is no `DATE_TIME` or has nothing but the start value of the
aggregator in it; on a table without rows there is nothing to get wrong. -/
theorem min_max_iff {tableDef : Bytes} {t : SharedTable} (ht : t.ProperlyReached tableDef)
    {indexDef aggr : Bytes} {g : GroupIndex}
    (hg : GroupIndex.create t.columns indexDef aggr = .ok g) {n : ℕ} {a : Aggregator}
    (ha : g.aggregators[n]? = some a) (hmethod : a.method = .min ∨ a.method = .max)
    (hfloat : a.type ≠ .float) (now : ℕ → BitVec 64) (h : StringHeap) :
    (∃ h' result, t.group now indexDef aggr h = some (.ok (h', result)) ∧
      t.ExtremesIn g n a result) ↔
      t.height = 0 ∨ g.indexColumnNums.length ≤ indexKeyMaxSize ∧
        (a.type ≠ .dateTime ∨
          ∀ i < t.height, (t.cell i a.columnNum).value a.type = a.defaultData.value a.type) := by
  have hadmitted := ht.admitted
  obtain ⟨keys, _, hkeys, -, -, htable, hnums, -⟩ := GroupIndex.create_ok hg
  have hmem := List.mem_of_getElem? ha
  have hcount : a.method ≠ .count := by rcases hmethod with h | h <;> rw [h] <;> decide
  obtain ⟨⟨column, hcol, htype⟩, hstring⟩ := GroupIndex.create_column hg hmem hcount
  have hgroup : t.group now indexDef aggr h = (g.buildFrom now t h).map .ok := by
    rw [SharedTable.group, hg]
  by_cases hrows : t.height = 0
  · refine iff_of_true ⟨h, g.groupedTable, ?_, ?_⟩ (.inl hrows)
    · rw [hgroup, GroupIndex.buildFrom, if_pos hrows]
      rfl
    · have hnone : t.groupsOf g = [] := by
        rw [SharedTable.groupsOf, hrows]
        rfl
      have hempty := (SharedTable.createColumns_ok htable).1
      refine ⟨?_, fun j e hj => ?_⟩
      · rw [hnone, hempty]
        rfl
      · rw [hnone] at hj
        cases hj
  · rw [or_iff_right hrows]
    -- with too many key columns `buildFrom` fails as soon as there is a row
    by_cases hsize : g.indexColumnNums.length ≤ indexKeyMaxSize
    · rw [and_iff_right hsize]
      rw [hnums, List.length_map] at hsize
      have hframe := (GroupIndex.create_frame hkeys hg hsize).1
      obtain ⟨rs, hrs, hu⟩ := hadmitted.1.toLaid.exists_rows
      obtain ⟨h', hresult⟩ := GroupIndex.create_group hkeys hg hsize hu t.tableIndexSet now h
      have hheight : t.height = rs.length := by rw [hrs]; rfl
      have hiff := GroupIndex.extremesIn_resultOf_iff t.tableIndexSet hframe hu ha hmethod
        (GroupIndex.create_aggregator hg hmem).2 hfloat hstring fun hbool i hi => by
          rw [← hrs]
          exact hadmitted.cell_bool hcol (htype.trans hbool) (hheight ▸ hi)
      rw [← hrs, ← hheight] at hiff
      rw [← hrs] at hresult
      rw [← hiff]
      constructor
      · rintro ⟨h'', result, hres, hext⟩
        rw [hresult, Option.some.injEq, Except.ok.injEq, Prod.mk.injEq] at hres
        rwa [hres.2]
      · exact fun hext => ⟨h', _, hresult, hext⟩
    · refine iff_of_false ?_ fun hcond => hsize hcond.1
      rintro ⟨h', result, hres, -⟩
      rw [hgroup, GroupIndex.buildFrom_eq_none hrows hsize] at hres
      cases hres

def minGroup : GroupIndex where
  indexColumnNums := [1]
  aggregators := [.create 0 .integer .min]
  groupedTable := .new [⟨ascii "s", .string⟩, ⟨ascii "n", .integer⟩]
  cmp := ⟨[⟨[⟨.string, false⟩]⟩]⟩
  indexMap := []

def minTable : SharedTable :=
  .ofRows sampleColumns [[.word 5, .str ⟨0, ascii "a"⟩], [.word 7, .str ⟨0, ascii "a"⟩]] []

theorem min_max_integer :
    ∃ h' result, minTable.group (fun _ => 0) (ascii "s") (ascii "MIN(n)") sampleHeap =
      some (.ok (h', result)) ∧
      minTable.ExtremesIn minGroup 0 (.create 0 .integer .min) result := by
  have ht : minTable.ProperlyReached (ascii "n:INTEGER,s") := by
    refine ⟨.new sampleColumns, sampleHeap,
      [.call (.appendRow (fun _ => 0) [intArg 5, stringArg 0 (ascii "a")]),
        .call (.appendRow (fun _ => 0) [intArg 7, stringArg 0 (ascii "a")])], [true, true], _, rfl,
          ?_, rfl⟩
    simp [Action.Proper, Call.args, Dynamic.Proper, intArg, stringArg]
  have hg : GroupIndex.create minTable.columns (ascii "s") (ascii "MIN(n)") = .ok minGroup := by
    decide
  exact (min_max_iff ht hg rfl (.inl rfl) (by decide) _ _).mpr (.inr ⟨by decide, .inl (by decide)⟩)

def dateColumns : List Column := [⟨ascii "k", .integer⟩, ⟨ascii "d", .dateTime⟩]

def dateGroup : GroupIndex where
  indexColumnNums := [0]
  aggregators := [.create 1 .dateTime .min]
  groupedTable := .new dateColumns
  cmp := ⟨[⟨[⟨.integer, false⟩]⟩]⟩
  indexMap := []

def dateTable : SharedTable := .ofRows dateColumns [[.word 1, .word 5]] []

/-- The only date is 5, and MIN gives the largest word. -/
theorem min_of_date_time_not_least :
    dateTable.ProperlyReached (ascii "k:INTEGER,d:DATE_TIME") ∧
      GroupIndex.create dateTable.columns (ascii "k") (ascii "MIN(d)") = .ok dateGroup ∧
      ∃ h' result, dateTable.group (fun _ => 0) (ascii "k") (ascii "MIN(d)") sampleHeap =
        some (.ok (h', result)) ∧
        (result.cell 0 1).value .dateTime = 2 ^ 64 - 1 ∧
        ¬ dateTable.ExtremesIn dateGroup 0 (.create 1 .dateTime .min) result := by
  refine ⟨⟨.new dateColumns, sampleHeap,
    [.call (.appendRow (fun _ => 0) [intArg 1, ⟨.dateTime, .word 5⟩])], [true], _, rfl, ?_, rfl⟩,
      by decide, _, _, rfl, rfl, ?_⟩
  · simp [Action.Proper, Call.args, Dynamic.Proper, intArg]
  · rintro ⟨-, hgroups⟩
    obtain ⟨⟨i, hi, hvalue⟩, -⟩ := hgroups 0 ([.word 1], [0]) (by decide)
    obtain rfl := List.mem_singleton.mp hi
    revert hvalue
    decide

end Nkit
