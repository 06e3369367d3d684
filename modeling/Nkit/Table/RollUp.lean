import Nkit.Base.RollUp
import Nkit.Table.Extremes
import Mathlib.Data.BitVec

/-! Grouping a grouped table.  Fewer of the key columns, with sums over the counts and sums that are
there, give the table that grouping the source by them would give. -/

namespace Nkit
open OrderedMap FlatRows

namespace Aggregator
variable {a : Aggregator}

/-- COUNT, and SUM over integers. -/
def Summing (a : Aggregator) : Prop :=
  (a.method = .count ∨ a.method = .sum) ∧ (a.type = .integer ∨ a.type = .unsignedInteger)

def weight (a : Aggregator) (row : List Data) : BitVec 64 :=
  match a.method with
  | .count => 1
  | _ => (row.getD a.columnNum (.word 0)).bits

theorem weight_sum (hsum : a.method = .sum) (row : List Data) :
    a.weight row = (row.getD a.columnNum (.word 0)).bits := by
  rw [weight, hsum]

theorem Summing.foldl (h : a.Summing) (rows : List (List Data)) (acc : BitVec 64) :
    rows.foldl a.update (.word acc) = .word (acc + (rows.map a.weight).sum) := by
  have hstep : ∀ acc row, a.update (.word acc) row = .word (acc + a.weight row) := by
    intro acc row
    rcases h with ⟨hcount | hsum, htype⟩
    · simp only [update, weight, hcount]
      rfl
    · rw [update_sum hsum htype, weight_sum hsum]
  induction rows generalizing acc with
  | nil => simp
  | cons row rows ih => rw [List.foldl_cons, hstep, ih, List.map_cons, List.sum_cons, add_assoc]

end Aggregator

namespace GroupIndex
variable {columns : List Column} {keys : List KeyColumn} {g : GroupIndex} {rs : List (List Data)}

theorem Shape.makeRow_sum (hg : Shape columns keys g) {e : IndexKey × List Data}
    (he : e ∈ g.groups rs) {n : ℕ} {a : Aggregator} (ha : g.aggregators[n]? = some a)
    (hsum : a.Summing) :
    (g.makeRow e).getD (keys.length + n) (.word 0) =
      .word ((GroupFold.members g.lt g.keyOf rs e.1).map a.weight).sum := by
  have hdefault : a.defaultData = .word 0#64 := by
    rw [hg.defaults a (List.mem_of_getElem? ha)]
    rcases hsum with ⟨hm | hm, -⟩ <;> rw [hm] <;> rfl
  have hbucket : e.2 = _ := GroupFold.value_of_mem_fold hg.strictWeak he
  have hfold := hsum.foldl (GroupFold.members g.lt g.keyOf rs e.1) 0#64
  rw [BitVec.zero_add, ← hdefault] at hfold
  rw [foldl_updateBucket] at hbucket
  obtain ⟨hn, rfl⟩ := List.getElem?_eq_some_iff.mp ha
  rw [makeRow, hbucket, List.getD_append_right _ _ _ _ (by simp [hg.nums]), ← hfold]
  simp [hg.nums, hn]

theorem Shape.cell_sum (hg : Shape columns keys g) {j n : ℕ} (hj : j < (g.groups rs).length)
    {a : Aggregator} (ha : g.aggregators[n]? = some a) (hsum : a.Summing) :
    (g.resultOf rs).cell j (keys.length + n) =
      .word ((GroupFold.members g.lt g.keyOf rs (g.groups rs)[j].1).map a.weight).sum := by
  have hn := (List.getElem?_eq_some_iff.mp ha).1
  rw [hg.frame.cell_resultOf hj (by omega), hg.makeRow_sum (List.getElem_mem hj) ha hsum]

end GroupIndex

theorem getElem?_readKeys (ts : List ColumnType) (key : IndexKey) (i : ℕ) :
    (readKeys ts key)[i]? = ts[i]?.map fun t => readKey t (key.getD i (.word 0)) := by
  induction ts generalizing key i with
  | nil => rfl
  | cons t ts ih =>
    cases i with
    | zero => cases key <;> rfl
    | succ i =>
      rw [readKeys, List.getElem?_cons_succ, List.getElem?_cons_succ, ih]
      cases key <;> rfl

theorem readKeys_map {A : Type} (type : A → ColumnType) (item : A → Data) (as : List A) :
    readKeys (as.map type) (as.map item) = as.map fun a => readKey (type a) (item a) := by
  induction as with
  | nil => rfl
  | cons a as ih =>
    rw [List.map_cons, List.map_cons, List.map_cons, readKeys, List.tail_cons, ih]
    rfl

namespace GroupIndex

/-- The second grouping has some of the key columns of the first, the direct grouping has the same
columns of the source, and each sum is over a count or a sum that the direct grouping makes too. -/
structure RollsUp (keys₁ : List KeyColumn) (g₁ : GroupIndex) (keys₂ : List KeyColumn)
    (g₂ : GroupIndex)
    (keys₃ : List KeyColumn) (g₃ : GroupIndex) : Prop where
  keys : List.Forall₂ (fun k₂ k₃ => k₂.order.descending = k₃.order.descending ∧
    ∃ k₁, keys₁[k₂.colNum]? = some k₁ ∧ k₁.colNum = k₃.colNum) keys₂ keys₃
  sums : List.Forall₂ (fun a₂ a₃ => a₂.method = .sum ∧
    ∃ n, a₂.columnNum = keys₁.length + n ∧ g₁.aggregators[n]? = some a₃) g₂.aggregators
      g₃.aggregators

def project (keys₂ : List KeyColumn) (key : IndexKey) : IndexKey :=
  keys₂.map fun k => key.getD k.colNum (.word 0)

variable {columns columns' : List Column} {keys₁ keys₂ keys₃ : List KeyColumn}
  {g₁ g₂ g₃ : GroupIndex} {rs : List (List Data)}

theorem RollsUp.map_eq (h : RollsUp keys₁ g₁ keys₂ g₂ keys₃ g₃) {A : Type} {f f' : KeyColumn → A}
    (hf : ∀ k₂ ∈ keys₂, ∀ k₃ ∈ keys₃, k₂.order.descending = k₃.order.descending →
      ∀ k₁, keys₁[k₂.colNum]? = some k₁ → k₁.colNum = k₃.colNum → f k₂ = f' k₃) :
    keys₂.map f = keys₃.map f' := by
  refine List.ext_getElem (by simpa using h.keys.length_eq) fun i h₂ h₃ => ?_
  rw [List.getElem_map, List.getElem_map]
  rw [List.length_map] at h₂ h₃
  obtain ⟨horder, k₁, hk₁, hcol⟩ := h.keys.get h₂ h₃
  exact hf _ (List.getElem_mem h₂) _ (List.getElem_mem h₃) horder k₁ hk₁ hcol

theorem RollsUp.inside (h : RollsUp keys₁ g₁ keys₂ g₂ keys₃ g₃) :
    ∀ k ∈ keys₂, k.colNum < keys₁.length := by
  intro k hk
  obtain ⟨i, hi, rfl⟩ := List.mem_iff_getElem.mp hk
  obtain ⟨-, k₁, hk₁, -⟩ := h.keys.get hi (h.keys.length_eq ▸ hi)
  exact (List.getElem?_eq_some_iff.mp hk₁).1

theorem RollsUp.keyOf_makeRow (h : RollsUp keys₁ g₁ keys₂ g₂ keys₃ g₃)
    (hg₁ : Shape columns keys₁ g₁) (hg₂ : Shape columns' keys₂ g₂) (e : IndexKey × List Data) :
    g₂.keyOf (g₁.makeRow e) = project keys₂ e.1 := by
  rw [keyOf, hg₂.nums, List.map_map]
  refine List.map_congr_left fun k hk => ?_
  have hlt : k.colNum < g₁.indexColumnNums.length := by
    rw [hg₁.nums, List.length_map]
    exact h.inside k hk
  rw [Function.comp_apply, makeRow, List.getD_append _ _ _ _ (by simpa using hlt)]
  simp [hlt]

theorem RollsUp.keyOf_row (h : RollsUp keys₁ g₁ keys₂ g₂ keys₃ g₃) (hg₁ : Shape columns keys₁ g₁)
    (hg₃ : Shape columns keys₃ g₃) (row : List Data) :
    g₃.keyOf row = project keys₂ (g₁.keyOf row) := by
  rw [keyOf, hg₃.nums, keyOf, hg₁.nums, List.map_map, List.map_map, project]
  refine (h.map_eq fun k₂ _ k₃ _ _ k₁ hk₁ hcol => ?_).symm
  simp [List.getD_eq_getElem?_getD, hk₁, hcol]

theorem RollsUp.type_fine (h : RollsUp keys₁ g₁ keys₂ g₂ keys₃ g₃)
    (htypes : columns'.map Column.type = (keys₁.map fun k => k.column.type) ++ g₁.aggregators.map
      Aggregator.type) {k₁ k₂ : KeyColumn} (h₂ : k₂ ∈ keys₂)
    (hfound : columns'[k₂.colNum]? = some k₂.column) (h₁ : keys₁[k₂.colNum]? = some k₁) :
    k₂.column.type = k₁.column.type := by
  have hinside : k₂.colNum < (keys₁.map fun k => k.column.type).length := by
    rw [List.length_map]
    exact h.inside k₂ h₂
  have hfine := congrArg (·[k₂.colNum]?) htypes
  simp only [List.getElem?_map, hfound, List.getElem?_append_left hinside, h₁] at hfine
  exact Option.some.inj hfine

theorem column_eq {k k' : KeyColumn} (hk : columns[k.colNum]? = some k.column)
    (hk' : columns[k'.colNum]? = some k'.column) (hcol : k.colNum = k'.colNum) :
    k.column = k'.column := by
  rw [hcol, hk'] at hk
  exact (Option.some.inj hk).symm

theorem RollsUp.type_eq (h : RollsUp keys₁ g₁ keys₂ g₂ keys₃ g₃) (hg₁ : Shape columns keys₁ g₁)
    (hg₂ : Shape columns' keys₂ g₂) (hg₃ : Shape columns keys₃ g₃)
    (htypes : columns'.map Column.type = (keys₁.map fun k => k.column.type) ++ g₁.aggregators.map
      Aggregator.type) {k₁ k₂ k₃ : KeyColumn} (h₂ : k₂ ∈ keys₂) (h₃ : k₃ ∈ keys₃)
    (h₁ : keys₁[k₂.colNum]? = some k₁) (hcol : k₁.colNum = k₃.colNum) :
    k₂.column.type = k₃.column.type := by
  rw [h.type_fine htypes h₂ (hg₂.found k₂ h₂) h₁,
    column_eq (hg₁.found k₁ (List.mem_of_getElem? h₁)) (hg₃.found k₃ h₃) hcol]

theorem RollsUp.lt_eq (h : RollsUp keys₁ g₁ keys₂ g₂ keys₃ g₃) (hg₁ : Shape columns keys₁ g₁)
    (hg₂ : Shape columns' keys₂ g₂) (hg₃ : Shape columns keys₃ g₃)
    (htypes : columns'.map Column.type = (keys₁.map fun k => k.column.type) ++ g₁.aggregators.map
      Aggregator.type) :
    contents keys₂ = contents keys₃ ∧ g₂.lt = g₃.lt := by
  have hcolumns : (keys₂.map fun k => k.column.type) = keys₃.map fun k => k.column.type :=
    h.map_eq fun k₂ h₂ k₃ h₃ _ k₁ h₁ hcol => h.type_eq hg₁ hg₂ hg₃ htypes h₂ h₃ h₁ hcol
  have hdescending : (keys₂.map fun k => k.order.descending) = keys₃.map fun k =>
      k.order.descending :=
    h.map_eq fun _ _ _ _ horder _ _ _ => horder
  have hcontents : contents keys₂ = contents keys₃ := by
    funext key
    rw [contents, contents, hcolumns]
  refine ⟨hcontents, ?_⟩
  funext a b
  rw [hg₂.lt_eq, hg₃.lt_eq, hcontents, hdescending]

theorem RollsUp.project_equiv (h : RollsUp keys₁ g₁ keys₂ g₂ keys₃ g₃)
    (hg₁ : Shape columns keys₁ g₁) (hg₂ : Shape columns' keys₂ g₂)
    (htypes : columns'.map Column.type = (keys₁.map fun k => k.column.type) ++ g₁.aggregators.map
      Aggregator.type) (a b : IndexKey) (htie : equiv g₁.lt a b = true) :
    equiv g₂.lt (project keys₂ a) (project keys₂ b) = true := by
  rw [hg₁.equiv_iff] at htie
  rw [hg₂.equiv_iff, contents, contents, project, project, readKeys_map, readKeys_map]
  refine List.map_congr_left fun k₂ h₂ => ?_
  have h₁ := List.getElem?_eq_getElem (h.inside k₂ h₂)
  have htype := h.type_fine htypes h₂ (hg₂.found k₂ h₂) h₁
  have hitem := congrArg (·[k₂.colNum]?) htie
  have hread : (keys₁.map fun k => k.column.type)[k₂.colNum]? = some k₂.column.type := by
    rw [List.getElem?_map, h₁, Option.map_some, htype]
  simp only [contents, getElem?_readKeys, hread, Option.map_some] at hitem
  exact Option.some.inj hitem

theorem RollsUp.sum_of (h : RollsUp keys₁ g₁ keys₂ g₂ keys₃ g₃)
    (htypes : columns'.map Column.type = (keys₁.map fun k => k.column.type) ++ g₁.aggregators.map
      Aggregator.type)
    (hcolumn : ∀ a ∈ g₂.aggregators, a.method ≠ .count → ∃ c, columns'[a.columnNum]? = some c ∧
      c.type = a.type) (hsums : ∀ a ∈ g₃.aggregators, a.Summing) {n : ℕ}
    (hn : n < g₃.aggregators.length) :
    ∃ a₂ a₃ m, g₂.aggregators[n]? = some a₂ ∧ g₃.aggregators[n]? = some a₃ ∧ a₂.method = .sum ∧
      a₂.columnNum = keys₁.length + m ∧ g₁.aggregators[m]? = some a₃ ∧ a₂.Summing ∧ a₃.Summing := by
  have hn₂ : n < g₂.aggregators.length := h.sums.length_eq ▸ hn
  obtain ⟨hsum, m, hcol, ha₃⟩ := h.sums.get hn₂ hn
  obtain ⟨c, hc, htype⟩ :=
    hcolumn _ (List.getElem_mem hn₂) (fun hcount => by cases hsum.symm.trans hcount)
  have hmember := hsums _ (List.getElem_mem hn)
  have hsame := congrArg (·[keys₁.length + m]?) htypes
  simp only [List.get_eq_getElem] at hsum hcol ha₃
  rw [hcol] at hc
  rw [List.getElem?_map, hc, List.getElem?_append_right (by simp), List.length_map,
    Nat.add_sub_cancel_left, List.getElem?_map, ha₃] at hsame
  have htype₂ := htype.symm.trans (Option.some.inj hsame)
  refine ⟨_, _, m, List.getElem?_eq_getElem hn₂, List.getElem?_eq_getElem hn, hsum, hcol, ha₃,
    ⟨.inr hsum, ?_⟩, hmember⟩
  rw [htype₂]
  exact hmember.2

theorem RollsUp.sum_eq (h : RollsUp keys₁ g₁ keys₂ g₂ keys₃ g₃) (hg₁ : Shape columns keys₁ g₁)
    (hg₂ : Shape columns' keys₂ g₂) (hg₃ : Shape columns keys₃ g₃)
    (htypes : columns'.map Column.type = (keys₁.map fun k => k.column.type) ++ g₁.aggregators.map
      Aggregator.type) {a₂ a₃ : Aggregator} {m : ℕ} (hsum : a₂.method = .sum)
    (hcol : a₂.columnNum = keys₁.length + m) (hm : g₁.aggregators[m]? = some a₃)
    (hsum₃ : a₃.Summing) {k₂ k₃ : IndexKey} (htie : equiv g₂.lt k₂ k₃ = true) :
    ((GroupFold.members g₂.lt g₂.keyOf ((g₁.groups rs).map g₁.makeRow) k₂).map a₂.weight).sum =
      ((GroupFold.members g₃.lt g₃.keyOf rs k₃).map a₃.weight).sum := by
  obtain ⟨-, hlt⟩ := h.lt_eq hg₁ hg₂ hg₃ htypes
  have hequiv := h.project_equiv hg₁ hg₂ htypes
  have hcells : (GroupFold.members g₂.lt g₂.keyOf ((g₁.groups rs).map g₁.makeRow) k₂).map
    a₂.weight =
      (GroupFold.members g₂.lt (fun e => project keys₂ e.1) (g₁.groups rs) k₂).map fun e =>
        ((GroupFold.members g₁.lt g₁.keyOf rs e.1).map a₃.weight).sum := by
    rw [GroupFold.members, List.filter_map, List.map_map, GroupFold.members]
    simp only [Function.comp_def, h.keyOf_makeRow hg₁ hg₂]
    refine List.map_congr_left fun e he => ?_
    rw [Aggregator.weight_sum hsum, hcol, hg₁.makeRow_sum (List.mem_filter.mp he).1 hm hsum₃]
    rfl
  have hmembers : GroupFold.members g₃.lt g₃.keyOf rs k₃ =
      GroupFold.members g₂.lt (fun r => project keys₂ (g₁.keyOf r)) rs k₂ := by
    rw [GroupFold.members, GroupFold.members, ← hlt]
    refine List.filter_congr fun r _ => ?_
    rw [h.keyOf_row hg₁ hg₃, equiv_comm, equiv_comm _ _ k₂, equiv_left_congr hg₂.strictWeak htie]
  rw [hcells, hmembers]
  exact GroupFold.sum_of_sums hg₁.strictWeak hg₂.strictWeak hequiv a₃.weight rs k₂

theorem RollsUp.resultOf_eq (h : RollsUp keys₁ g₁ keys₂ g₂ keys₃ g₃) (hg₁ : Shape columns keys₁ g₁)
    (hg₂ : Shape columns' keys₂ g₂) (hg₃ : Shape columns keys₃ g₃)
    (htypes : columns'.map Column.type = (keys₁.map fun k => k.column.type) ++ g₁.aggregators.map
      Aggregator.type)
    (hcolumn : ∀ a ∈ g₂.aggregators, a.method ≠ .count → ∃ c, columns'[a.columnNum]? = some c ∧
      c.type = a.type) (hsums : ∀ a ∈ g₃.aggregators, a.Summing) (rs : List (List Data)) :
    (g₂.groups ((g₁.groups rs).map g₁.makeRow)).map (fun e => contents keys₂ e.1) =
        (g₃.groups rs).map (fun e => contents keys₃ e.1) ∧
      ∀ j < (g₃.groups rs).length, ∀ n < g₃.aggregators.length,
        (g₂.resultOf ((g₁.groups rs).map g₁.makeRow)).cell j (keys₂.length + n) =
          (g₃.resultOf rs).cell j (keys₃.length + n) := by
  obtain ⟨hcontents, hlt⟩ := h.lt_eq hg₁ hg₂ hg₃ htypes
  have hequiv := h.project_equiv hg₁ hg₂ htypes
  have hcoarse : g₂.groups ((g₁.groups rs).map g₁.makeRow) =
    GroupFold.fold g₂.lt (fun e => project keys₂ e.1)
      g₂.newBucket (fun v e => g₂.updateBucket v (g₁.makeRow e)) (g₁.groups rs) := by
    rw [groups, GroupFold.fold_map]
    exact GroupFold.fold_congr fun e _ => h.keyOf_makeRow hg₁ hg₂ e
  have hdirect : g₃.groups rs = GroupFold.fold g₂.lt (fun r => project keys₂ (g₁.keyOf r))
    g₃.newBucket
      g₃.updateBucket rs := by
    rw [groups, ← hlt]
    exact GroupFold.fold_congr fun r _ => h.keyOf_row hg₁ hg₃ r
  have hties : List.Forall₂ (fun e e' => equiv g₂.lt e.1 e'.1 = true)
      (g₂.groups ((g₁.groups rs).map g₁.makeRow)) (g₃.groups rs) := by
    rw [hcoarse, hdirect]
    exact GroupFold.groups_of_groups hg₁.strictWeak hg₂.strictWeak hequiv _ _ _ _ rs
  refine ⟨?_, fun j hj n hn => ?_⟩
  · refine List.ext_getElem (by simpa using hties.length_eq) fun j h₁ h₂ => ?_
    rw [List.length_map] at h₁ h₂
    rw [List.getElem_map, List.getElem_map]
    exact ((hg₂.equiv_iff _ _).mp (hties.get h₁ h₂)).trans (congrFun hcontents _)
  · obtain ⟨a₂, a₃, m, ha₂, ha₃, hsum, hcol, hm, hsum₂, hsum₃⟩ := h.sum_of htypes hcolumn hsums hn
    have hj₂ := hties.length_eq ▸ hj
    have htie : equiv g₂.lt (g₂.groups ((g₁.groups rs).map g₁.makeRow))[j].1 (g₃.groups rs)[j].1 =
      true := hties.get hj₂ hj
    rw [hg₂.cell_sum hj₂ ha₂ hsum₂, hg₃.cell_sum hj ha₃ hsum₃,
      h.sum_eq hg₁ hg₂ hg₃ htypes hsum hcol hm hsum₃ htie]

theorem RollsUp.plain (h : RollsUp keys₁ g₁ keys₂ g₂ keys₃ g₃)
    (htypes : columns'.map Column.type = (keys₁.map fun k => k.column.type) ++ g₁.aggregators.map
      Aggregator.type) (hfound₁ : ∀ k ∈ keys₁, columns[k.colNum]? = some k.column)
    (hfound₂ : ∀ k ∈ keys₂, columns'[k.colNum]? = some k.column)
    (hfound₃ : ∀ k ∈ keys₃, columns[k.colNum]? = some k.column)
    (hfloat : ∀ k ∈ keys₁, k.column.type ≠ .float) :
    (∀ k ∈ keys₂, k.column.type ≠ .float) ∧ ∀ k ∈ keys₃, k.column.type ≠ .float := by
  constructor
  · intro k hk
    have h₁ := List.getElem?_eq_getElem (h.inside k hk)
    rw [h.type_fine htypes hk (hfound₂ k hk) h₁]
    exact hfloat _ (List.mem_of_getElem? h₁)
  · intro k hk
    obtain ⟨i, hi, rfl⟩ := List.mem_iff_getElem.mp hk
    obtain ⟨-, k₁, hk₁, hcol⟩ := h.keys.get (h.keys.length_eq ▸ hi) hi
    have h₁ := List.mem_of_getElem? hk₁
    rw [← column_eq (hfound₁ k₁ h₁) (hfound₃ _ hk) hcol]
    exact hfloat k₁ h₁

end GroupIndex

/-- **Grouping a grouped table by some of its keys, with sums over its counts and sums, gives what
grouping the source by these keys gives.** -/
theorem group_rolls_up {t : SharedTable} (ht : t.Laid) (hcolon : ∀ c ∈ t.columns, 58 ∉ c.name)
    {fineDef fineAggr coarseDef coarseAggr directDef directAggr : Bytes}
    {keys₁ keys₂ keys₃ : List GroupIndex.KeyColumn} {g₁ g₂ g₃ : GroupIndex}
    (hkeys₁ : GroupIndex.keyColumns t.columns fineDef = .ok keys₁)
    (hfine : GroupIndex.create t.columns fineDef fineAggr = .ok g₁)
    (hkeys₂ : GroupIndex.keyColumns g₁.groupedTable.columns coarseDef = .ok keys₂)
    (hcoarse : GroupIndex.create g₁.groupedTable.columns coarseDef coarseAggr = .ok g₂)
    (hkeys₃ : GroupIndex.keyColumns t.columns directDef = .ok keys₃)
    (hdirect : GroupIndex.create t.columns directDef directAggr = .ok g₃)
    (hrolls : GroupIndex.RollsUp keys₁ g₁ keys₂ g₂ keys₃ g₃)
    (hsize₁ : keys₁.length ≤ indexKeyMaxSize) (hsize₂ : keys₂.length ≤ indexKeyMaxSize)
    (hfloat : ∀ k ∈ keys₁, k.column.type ≠ .float) (hsums : ∀ a ∈ g₃.aggregators, a.Summing)
    (now : ℕ → BitVec 64) (h : StringHeap) :
    ∃ h₁ fine h₂ coarse h₃ direct, t.group now fineDef fineAggr h = some (.ok (h₁, fine)) ∧
      fine.group now coarseDef coarseAggr h₁ = some (.ok (h₂, coarse)) ∧
      t.group now directDef directAggr h₂ = some (.ok (h₃, direct)) ∧
      coarse.height = direct.height ∧
      ∀ j < direct.height, coarse.leadingKey keys₂ j = direct.leadingKey keys₃ j ∧
        ∀ n < g₃.aggregators.length, coarse.cell j (keys₂.length + n) =
          direct.cell j (keys₃.length + n) := by
  obtain ⟨rs, hrs, hu⟩ := ht.exists_rows
  obtain ⟨hg₁, -, -⟩ := GroupIndex.create_shape hkeys₁ hfine hsize₁ hfloat
  have htypes := GroupIndex.create_types hcolon hkeys₁ hfine
  have hsize₃ := hrolls.keys.length_eq ▸ hsize₂
  obtain ⟨hfloat₂, hfloat₃⟩ :=
    hrolls.plain htypes hg₁.found (fun k hk => (GroupIndex.keyColumns_ok hkeys₂ k hk).1)
    (fun k hk => (GroupIndex.keyColumns_ok hkeys₃ k hk).1) hfloat
  obtain ⟨hg₂, -, -⟩ := GroupIndex.create_shape hkeys₂ hcoarse hsize₂ hfloat₂
  obtain ⟨hg₃, -, -⟩ := GroupIndex.create_shape hkeys₃ hdirect hsize₃ hfloat₃
  have hcolumn := fun a ha hcount => (GroupIndex.create_column hcoarse (a := a) ha hcount).1
  obtain ⟨hkeys, hcells⟩ := hrolls.resultOf_eq hg₁ hg₂ hg₃ htypes hcolumn hsums rs
  have hlength : (g₂.groups ((g₁.groups rs).map g₁.makeRow)).length = (g₃.groups rs).length := by
    simpa using congrArg List.length hkeys
  obtain ⟨h₁, hrun₁⟩ := GroupIndex.create_group hkeys₁ hfine hsize₁ hu t.tableIndexSet now h
  obtain ⟨h₂, hrun₂⟩ :=
    GroupIndex.create_group hkeys₂ hcoarse hsize₂ (hg₁.frame.resultOf_uniform rs) [] now h₁
  obtain ⟨h₃, hrun₃⟩ := GroupIndex.create_group hkeys₃ hdirect hsize₃ hu t.tableIndexSet now h₂
  rw [← hrs] at hrun₁ hrun₃
  refine ⟨h₁, _, h₂, _, h₃, _, hrun₁, hrun₂, hrun₃, ?_, fun j hj => ⟨?_, hcells j (by
    rwa [GroupIndex.height_resultOf] at hj)⟩⟩
  · rw [GroupIndex.height_resultOf, GroupIndex.height_resultOf, hlength]
  · have hj₃ : j < (g₃.groups rs).length := by rwa [GroupIndex.height_resultOf] at hj
    have hj₂ := hlength ▸ hj₃
    have hkey := congrArg (·[j]?) hkeys
    simp only [List.getElem?_map, List.getElem?_eq_getElem hj₂, List.getElem?_eq_getElem hj₃,
      Option.map_some] at hkey
    rw [hg₂.frame.leadingKey_resultOf hj₂, hg₃.frame.leadingKey_resultOf hj₃]
    exact Option.some.inj hkey

def salesColumns : List Column :=
  [⟨ascii "k", .integer⟩, ⟨ascii "s", .string⟩, ⟨ascii "n", .integer⟩]

def sales : SharedTable :=
  .ofRows salesColumns [[.word 1, .str ⟨0, ascii "a"⟩, .word 5],
    [.word 1, .str ⟨1, ascii "b"⟩, .word 7],
    [.word 2, .str ⟨2, ascii "a"⟩, .word 9], [.word 1, .str ⟨3, ascii "a"⟩, .word (-2)]] []

def salesByBoth : GroupIndex where
  indexColumnNums := [0, 1]
  aggregators := [.create 0 .unsignedInteger .count, .create 2 .integer .sum]
  groupedTable :=
    .new [⟨ascii "k", .integer⟩, ⟨ascii "s", .string⟩, ⟨ascii "COUNT", .unsignedInteger⟩,
      ⟨ascii "n", .integer⟩]
  cmp := ⟨[⟨[⟨.integer, false⟩, ⟨.string, false⟩]⟩]⟩
  indexMap := []

/-- By `s` alone, from the grouped table and from the source. -/
def salesByS (colNum count sum : ℕ) (method : AggregatorType) : GroupIndex where
  indexColumnNums := [colNum]
  aggregators := [.create count .unsignedInteger method, .create sum .integer .sum]
  groupedTable :=
    .new [⟨ascii "s", .string⟩, ⟨ascii "COUNT", .unsignedInteger⟩, ⟨ascii "n", .integer⟩]
  cmp := ⟨[⟨[⟨.string, true⟩]⟩]⟩
  indexMap := []

def salesKey : GroupIndex.KeyColumn := ⟨1, ⟨ascii "s", .string⟩, ⟨.string, true⟩⟩

theorem group_rolls_up_sales : ∃ h₁ fine h₂ coarse h₃ direct,
    sales.group (fun _ => 0) (ascii "k,s") (ascii "COUNT,SUM(n)") sampleHeap =
      some (.ok (h₁, fine)) ∧
      fine.group (fun _ => 0) (ascii "-s") (ascii "SUM(COUNT),SUM(n)") h₁ =
        some (.ok (h₂, coarse)) ∧
      sales.group (fun _ => 0) (ascii "-s") (ascii "COUNT,SUM(n)") h₂ = some (.ok (h₃, direct)) ∧
      coarse.height = direct.height ∧
      ∀ j < direct.height, coarse.leadingKey [salesKey] j = direct.leadingKey [salesKey] j ∧
        ∀ n < 2, coarse.cell j (1 + n) = direct.cell j (1 + n) := by
  have hkeys₁ : GroupIndex.keyColumns sales.columns (ascii "k,s") =
      .ok [⟨0, ⟨ascii "k", .integer⟩, ⟨.integer, false⟩⟩,
        ⟨1, ⟨ascii "s", .string⟩, ⟨.string, false⟩⟩] := by decide
  have hfine : GroupIndex.create sales.columns (ascii "k,s") (ascii "COUNT,SUM(n)") =
    .ok salesByBoth := by decide
  have hkeys₂ : GroupIndex.keyColumns salesByBoth.groupedTable.columns (ascii "-s") =
    .ok [salesKey] := by decide
  have hcoarse : GroupIndex.create salesByBoth.groupedTable.columns (ascii "-s")
    (ascii "SUM(COUNT),SUM(n)") =
      .ok (salesByS 1 2 3 .sum) := by decide
  have hkeys₃ : GroupIndex.keyColumns sales.columns (ascii "-s") = .ok [salesKey] := by decide
  have hdirect : GroupIndex.create sales.columns (ascii "-s") (ascii "COUNT,SUM(n)") =
      .ok (salesByS 1 0 2 .count) := by
    decide
  refine group_rolls_up ⟨rfl, rfl⟩ (by decide) hkeys₁ hfine hkeys₂ hcoarse hkeys₃ hdirect ⟨?_, ?_⟩
    (by decide) (by decide)
    (by decide) (by unfold Aggregator.Summing; decide) (fun _ => 0) sampleHeap
  · exact .cons ⟨rfl, _, rfl, rfl⟩ .nil
  · exact .cons ⟨rfl, 0, rfl, rfl⟩ (.cons ⟨rfl, 1, rfl, rfl⟩ .nil)

end Nkit
