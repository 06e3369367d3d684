import Nkit.Table.Grouping
import Nkit.Table.IndexRuns

/-! The streaming builder computes what the batch path computes.  Between calls the result
has one row for each group; `Build` overwrites all of them in the order of the keys. -/

namespace Nkit
open FlatRows OrderedMap

namespace GroupIndex

variable {columns : List Column} {keys : List KeyColumn} {g : GroupIndex}

/-- Arguments for every column, of the types of the columns. -/
def FullRow (columns : List Column) (vargs : List Dynamic) : Prop :=
  vargs.length = columns.length ∧ SharedTable.Typed columns vargs

instance (columns : List Column) (vargs : List Dynamic) : Decidable (FullRow columns vargs) :=
  inferInstanceAs (Decidable (_ ∧ ∀ cv ∈ columns.zip vargs, cv.1.type.toDynamic = cv.2.type))

theorem FullRow.type_getD {vargs : List Dynamic} (hfull : FullRow columns vargs) {col : ℕ}
    (hcol : col < columns.length) :
    (vargs.map Dynamic.type).getD col .undef = columns[col].type.toDynamic := by
  have hv : col < vargs.length := hfull.1 ▸ hcol
  rw [List.getD_eq_getElem (vargs.map Dynamic.type) _ (by simpa using hv), List.getElem_map]
  refine (hfull.2 (columns[col], vargs[col]) (List.mem_iff_getElem.mpr ⟨col, ?_, ?_⟩)).symm
  · rw [List.length_zip]
    omega
  · exact List.getElem_zip

theorem copyArgs_eq {cs : List Column} {vs : List Dynamic} {ds : List Data} {ts : List DynamicType}
    (htyped : SharedTable.Typed cs vs) (hds : ds.length = cs.length) (hts : ts.length = cs.length) :
    GroupedTableBuilder.copyArgs cs vs ds ts =
      (true, (vs.take cs.length).map Dynamic.data ++ ds.drop vs.length,
        (vs.take cs.length).map Dynamic.type ++ ts.drop vs.length) := by
  induction cs generalizing vs ds ts with
  | nil =>
    obtain rfl := List.length_eq_zero_iff.mp hds
    obtain rfl := List.length_eq_zero_iff.mp hts
    simp [GroupedTableBuilder.copyArgs]
  | cons c cs ih =>
    cases vs with
    | nil => simp [GroupedTableBuilder.copyArgs]
    | cons v vs =>
      cases ds with
      | nil => cases hds
      | cons d ds =>
        cases ts with
        | nil => cases hts
        | cons t ts =>
          obtain ⟨hc, hcs⟩ := htyped.of_cons
          have hrest := ih hcs (Nat.succ.inj hds) (Nat.succ.inj hts)
          simp only [GroupedTableBuilder.copyArgs, hc, ne_eq, not_true_eq_false, if_false, hrest,
            List.length_cons, List.take_succ_cons, List.drop_succ_cons, List.map_cons,
            List.cons_append]

theorem copyArgs_full {cs : List Column} {vs : List Dynamic} {ds : List Data}
    {ts : List DynamicType} (hfull : FullRow cs vs) (hds : ds.length = cs.length)
    (hts : ts.length = cs.length) :
    GroupedTableBuilder.copyArgs cs vs ds ts =
      (true, vs.map Dynamic.data, vs.map Dynamic.type) := by
  obtain ⟨hlen, htyped⟩ := hfull
  rw [copyArgs_eq htyped hds hts, ← hlen, List.take_length, List.drop_of_length_le (by omega),
    List.drop_of_length_le (by omega), List.append_nil, List.append_nil]

theorem makeTypedKey_eq (g : GroupIndex) (data : List Data) (types : List DynamicType) :
    makeTypedKey g.indexColumnNums data types =
      if g.indexColumnNums.length ≤ indexKeyMaxSize ∧
          ∀ col ∈ g.indexColumnNums, (makeKeyItem (.word 0) (types.getD col .undef)).isSome = true
        then some (g.keyOf data) else none := by
  have hitem : ∀ (d : Data) (type : DynamicType),
      makeKeyItem d type = if (makeKeyItem (.word 0) type).isSome = true then some d else none := by
    intro d type
    cases type <;> rfl
  by_cases hsize : g.indexColumnNums.length ≤ indexKeyMaxSize
  · rw [makeTypedKey, if_pos hsize]
    split_ifs with hfit
    · rw [Traverse.mapM_congr fun col hcol => (hitem _ _).trans (if_pos (hfit.2 col hcol)), keyOf]
      exact List.mapM_pure
    · cases hmap : g.indexColumnNums.mapM fun col =>
          makeKeyItem (data.getD col (.word 0)) (types.getD col .undef) with
      | none => rfl
      | some key =>
        refine absurd ⟨hsize, fun col hcol => ?_⟩ hfit
        obtain ⟨d, hd⟩ := Traverse.exists_mapM_iff.mp ⟨key, hmap⟩ col hcol
        by_contra hnot
        rw [hitem, if_neg hnot] at hd
        cases hd
  · rw [makeTypedKey, if_neg hsize, if_neg fun h => hsize h.1]

theorem makeTypedKey_full (hg : Shape columns keys g) {vargs : List Dynamic}
    (hfull : FullRow columns vargs) :
    makeTypedKey g.indexColumnNums (vargs.map Dynamic.data) (vargs.map Dynamic.type) =
      some (g.keyOf (vargs.map Dynamic.data)) := by
  have hsize : g.indexColumnNums.length ≤ indexKeyMaxSize := by
    rw [hg.nums, List.length_map]
    exact hg.size
  rw [makeTypedKey_eq]
  refine if_pos ⟨hsize, fun col hcol => ?_⟩
  have hlt := hg.frame.inside hcol
  rw [hfull.type_getD hlt, makeKeyItem_column, Option.isSome_some]

theorem updateFromRow_eq (g : GroupIndex) (now : ℕ → BitVec 64) (data : List Data)
    (types : List DynamicType) (h : StringHeap) :
    g.updateFromRow now data types h = (makeTypedKey g.indexColumnNums data types).bind fun _ =>
      if (get? g.lt (g.keyOf data) g.indexMap).isNone = true then
        (find g.lt (g.keyOf data) (g.enter data g.indexMap)).head?.map fun it =>
          ((g.groupedTable.appendRowUnsafe now (g.makeRow it) h).1,
            (g.withMap (g.enter data g.indexMap)).withTable
              (g.groupedTable.appendRowUnsafe now (g.makeRow it) h).2)
      else some (h, g.withMap (g.enter data g.indexMap)) := by
  unfold updateFromRow
  rw [makeTypedKey_eq]
  by_cases hfit : g.indexColumnNums.length ≤ indexKeyMaxSize ∧
      ∀ col ∈ g.indexColumnNums, (makeKeyItem (.word 0) (types.getD col .undef)).isSome = true
  · simp only [if_pos hfit, Option.bind_eq_bind, Option.bind_some, updateIndex_eq]
    split_ifs with hnew
    · rw [hnew, Option.map_eq_bind]
      rfl
    · rw [Bool.not_eq_true] at hnew
      rw [hnew]
  · rw [if_neg hfit]
    rfl

def Streamed (g : GroupIndex) (rows : List (List Data)) (g' : GroupIndex) : Prop :=
  ∃ rs, g' = (g.withMap (g.groups rows)).withTable (.ofRows g.groupedTable.columns rs []) ∧
    Uniform g.groupedTable.columns.length rs ∧ rs.length = (g.groups rows).length

theorem Shape.updateFromRow_streamed (hg : Shape columns keys g) {rows : List (List Data)}
    {g' : GroupIndex} (hs : Streamed g rows g') {vargs : List Dynamic}
    (hfull : FullRow columns vargs) (now : ℕ → BitVec 64) (h : StringHeap) :
    ∃ h' g'', g'.updateFromRow now (vargs.map Dynamic.data) (vargs.map Dynamic.type) h =
      some (h', g'') ∧
      Streamed g (rows ++ [vargs.map Dynamic.data]) g'' := by
  obtain ⟨rs, rfl, hu, hlen⟩ := hs
  have hkey : makeTypedKey ((g.withMap (g.groups rows)).withTable
      (.ofRows g.groupedTable.columns rs [])).indexColumnNums (vargs.map Dynamic.data)
        (vargs.map Dynamic.type) = some (g.keyOf (vargs.map Dynamic.data)) :=
          makeTypedKey_full hg hfull
  have hcount : (g.groups (rows ++ [vargs.map Dynamic.data])).length =
      if get? g.lt (g.keyOf (vargs.map Dynamic.data)) (g.groups rows) = none
        then (g.groups rows).length + 1
      else (g.groups rows).length := by
    rw [groups_append]
    exact GroupFold.length_update _ _ _ _
  rw [updateFromRow_eq, hkey, Option.bind_some]
  cases hget : get? g.lt (g.keyOf (vargs.map Dynamic.data)) (g.groups rows) with
  | some bucket =>
    rw [hget, if_neg (by simp)] at hcount
    refine ⟨h, _, if_neg ?_, rs, by rw [groups_append]; rfl, hu, hlen.trans hcount.symm⟩
    change ¬ (get? g.lt (g.keyOf (vargs.map Dynamic.data)) (g.groups rows)).isNone = true
    simp [hget]
  | none =>
    rw [hget, if_pos rfl] at hcount
    -- the key was entered, so the search for it succeeds
    obtain ⟨it, hit⟩ : ∃ it, (find g.lt (g.keyOf (vargs.map Dynamic.data))
        (g.enter (vargs.map Dynamic.data) (g.groups rows))).head? = some it := by
      have hfound := get?_update hg.strictWeak (g.keyOf (vargs.map Dynamic.data))
        (g.keyOf (vargs.map Dynamic.data)) g.newBucket (g.updateBucket · (vargs.map Dynamic.data))
        (g.groups rows)
      rw [if_pos (hg.strictWeak.equiv_refl _), get?] at hfound
      obtain ⟨it, hit, -⟩ := Option.map_eq_some_iff.mp hfound
      exact ⟨it, hit⟩
    obtain ⟨h', happ⟩ := SharedTable.appendRowUnsafe_ofRows [] rs now (hg.frame.makeRow_width it) h
    refine ⟨h', (g.withMap (g.groups (rows ++ [vargs.map Dynamic.data]))).withTable
      (.ofRows g.groupedTable.columns (rs ++ [g.makeRow it]) []), ?_, _, rfl,
        hu.append (hg.frame.makeRow_width it), ?_⟩
    · refine (if_pos ?_).trans ?_
      · change (get? g.lt (g.keyOf (vargs.map Dynamic.data)) (g.groups rows)).isNone = true
        rw [hget, Option.isNone_none]
      · change Option.map _ (find g.lt (g.keyOf (vargs.map Dynamic.data))
          (g.enter (vargs.map Dynamic.data) (g.groups rows))).head? = _
        rw [hit, Option.map_some, groups_append]
        change some (((SharedTable.ofRows g.groupedTable.columns rs []).appendRowUnsafe now
          (g.makeRow it) h).1,
          (g.withMap (g.enter (vargs.map Dynamic.data) (g.groups rows))).withTable
            ((SharedTable.ofRows g.groupedTable.columns rs []).appendRowUnsafe now (g.makeRow it)
              h).2) = _
        rw [happ]
    · rw [List.length_append, hlen, hcount]
      rfl

theorem Shape.build_streamed (hg : Shape columns keys g) {rows : List (List Data)} {g' : GroupIndex}
    (hs : Streamed g rows g') :
    ∃ g'', g'.build = some g'' ∧ g''.groupedTable = g.resultOf rows ∧ Streamed g rows g'' := by
  obtain ⟨rs, rfl, hu, hlen⟩ := hs
  have hset := SharedTable.foldlM_setRowUnsafe [] g.makeRow hg.frame.makeRow_width (g.groups rows)
    hu
    (n := 0) (by rw [Nat.zero_add, hlen])
  rw [List.take_zero, List.nil_append] at hset
  refine ⟨(g.withMap (g.groups rows)).withTable (g.resultOf rows), ?_, rfl,
    (g.groups rows).map g.makeRow, rfl, ?_, by simp⟩
  · exact congrArg (fun filled : Option SharedTable => filled.bind fun groupedTable =>
      some { g.withMap (g.groups rows) with groupedTable }) hset
  · intro row hrow
    obtain ⟨it, -, rfl⟩ := List.mem_map.mp hrow
    exact hg.frame.makeRow_width it

end GroupIndex

inductive BuilderCall where
  | insertRow (now : ℕ → BitVec 64) (vargs : List Dynamic)
  | getResult

def BuilderCall.perform : BuilderCall → StringHeap × GroupedTableBuilder →
    Option (Bool × StringHeap × GroupedTableBuilder)
  | insertRow now vargs, (h, b) => b.insertRow now vargs h
  | getResult, (h, b) => b.getResult.map fun r => (true, h, r.2)

/-- The rows that are inserted, in order. -/
def insertedRows : List BuilderCall → List (List Dynamic)
  | [] => []
  | .insertRow _ vargs :: calls => vargs :: insertedRows calls
  | .getResult :: calls => insertedRows calls

namespace GroupedTableBuilder

open GroupIndex

/-- The builder after some rows. -/
structure Holds (columns : List Column) (g : GroupIndex) (rows : List (List Data))
    (b : GroupedTableBuilder) : Prop where
  columns_eq : b.validatorTable.columns = columns
  data_length : b.currentData.length = columns.length
  types_length : b.currentTypes.length = columns.length
  streamed : Streamed g rows b.index

variable {columns : List Column} {keys : List KeyColumn} {g : GroupIndex} {rows : List (List Data)}
  {b : GroupedTableBuilder}

theorem validate_full (hw : 0 < columns.length) (hcols : b.validatorTable.columns = columns)
    (hdata : b.currentData.length = columns.length)
    (htypes : b.currentTypes.length = columns.length) {vargs : List Dynamic}
    (hfull : FullRow columns vargs) :
    b.validate vargs =
      (true, { b with
        currentData := vargs.map Dynamic.data, currentTypes := vargs.map Dynamic.type }) := by
  have hne : vargs.isEmpty = false := by
    rw [List.isEmpty_eq_false_iff, ← List.length_pos_iff, hfull.1]
    exact hw
  simp only [validate, hne, Bool.false_eq_true, if_false, hcols, copyArgs_full hfull hdata htypes]

theorem Holds.insertRow (hw : 0 < columns.length) (hg : Shape columns keys g)
    (hb : Holds columns g rows b) {vargs : List Dynamic} (hfull : FullRow columns vargs)
    (now : ℕ → BitVec 64) (h : StringHeap) :
    ∃ h' b', b.insertRow now vargs h = some (true, h', b') ∧
      Holds columns g (rows ++ [vargs.map Dynamic.data]) b' := by
  obtain ⟨h', index', hup, hstream⟩ := hg.updateFromRow_streamed hb.streamed hfull now h
  refine ⟨h', ⟨b.validatorTable, index', vargs.map Dynamic.data, vargs.map Dynamic.type⟩, ?_,
    hb.columns_eq, ?_, ?_, hstream⟩
  · unfold GroupedTableBuilder.insertRow
    rw [validate_full hw hb.columns_eq hb.data_length hb.types_length hfull]
    simp only at hup ⊢
    rw [hup]
    rfl
  · rw [List.length_map, hfull.1]
  · rw [List.length_map, hfull.1]

theorem Holds.getResult (hg : Shape columns keys g) (hb : Holds columns g rows b) :
    ∃ b', b.getResult = some (g.resultOf rows, b') ∧ Holds columns g rows b' := by
  obtain ⟨index', hbuild, htable, hstream⟩ := hg.build_streamed hb.streamed
  refine ⟨⟨b.validatorTable, index', b.currentData, b.currentTypes⟩, ?_, hb.columns_eq,
    hb.data_length, hb.types_length, hstream⟩
  unfold GroupedTableBuilder.getResult
  rw [hbuild, ← htable]
  rfl

theorem Holds.run (hw : 0 < columns.length) (hg : Shape columns keys g) {calls : List BuilderCall}
    (hrows : ∀ vargs ∈ insertedRows calls, FullRow columns vargs) (hb : Holds columns g rows b)
    (h : StringHeap) :
    ∃ flags h' b', Runs.run BuilderCall.perform calls (h, b) = some (flags, h', b') ∧
      Holds columns g (rows ++ (insertedRows calls).map (List.map Dynamic.data)) b' := by
  induction calls generalizing rows b h with
  | nil => exact ⟨[], h, b, rfl, by simpa [insertedRows] using hb⟩
  | cons call calls ih =>
    cases call with
    | insertRow now vargs =>
      obtain ⟨h₁, b₁, hins, hb₁⟩ := hb.insertRow hw hg (hrows vargs List.mem_cons_self) now h
      obtain ⟨flags, h', b', hrun, hb'⟩ :=
        ih (fun v hv => hrows v (List.mem_cons_of_mem _ hv)) hb₁ h₁
      refine ⟨true :: flags, h', b', Runs.run_cons hins hrun, ?_⟩
      rwa [List.append_assoc, List.singleton_append] at hb'
    | getResult =>
      obtain ⟨b₁, hres, hb₁⟩ := hb.getResult hg
      obtain ⟨flags, h', b', hrun, hb'⟩ := ih hrows hb₁ h
      have hstep : BuilderCall.getResult.perform (h, b) = some (true, h, b₁) := by
        simp [BuilderCall.perform, hres]
      exact ⟨true :: flags, h', b', Runs.run_cons hstep hrun, hb'⟩

theorem create_ok {tableDef indexDef aggr : Bytes} (h : create tableDef indexDef aggr = .ok b) :
    ∃ t, SharedTable.create tableDef = .ok t ∧ GroupIndex.create t.columns indexDef aggr =
      .ok b.index ∧
      b.validatorTable = t ∧ b.currentData.length = t.columns.length ∧
      b.currentTypes.length = t.columns.length := by
  unfold create at h
  simp only [bind, Except.bind] at h
  split at h
  · cases h
  next t ht =>
    split at h
    · cases h
    next index hindex =>
      cases h
      exact ⟨t, ht, hindex, rfl, by simp [SharedTable.width], by simp [SharedTable.width]⟩

end GroupedTableBuilder

namespace SharedTable

theorem newRow_full (now : ℕ → BitVec 64) {columns : List Column} {vargs : List Dynamic}
    (hlen : vargs.length = columns.length) (h : StringHeap) :
    newRow now columns vargs h = vargs.map Dynamic.data := by
  have hcells : ∀ (cs : List Column) (vs : List Dynamic) (colNum : ℕ) (h : StringHeap),
      vs.length = cs.length → (insertCells now colNum cs vs h).1 = vs.map Dynamic.data := by
    intro cs
    induction cs with
    | nil =>
      intro vs colNum h hvs
      rw [List.length_eq_zero_iff.mp hvs]
      rfl
    | cons c cs ih =>
      intro vs colNum h hvs
      cases vs with
      | nil => cases hvs
      | cons v vs =>
        rw [insertCells]
        simp only [ih vs (colNum + 1) _ (Nat.succ.inj hvs)]
        rfl
  exact hcells columns vargs 0 h hlen

theorem run_appendRows {columns : List Column} (hw : 0 < columns.length) (now : ℕ → BitVec 64)
    {rows : List (List Dynamic)} (hrows : ∀ vargs ∈ rows, GroupIndex.FullRow columns vargs)
    (rs : List (List Data)) (h : StringHeap) :
    ∃ flags h', Runs.run Call.perform (rows.map (Call.appendRow now)) (h, ofRows columns rs []) =
      some (flags, h', ofRows columns (rs ++ rows.map (List.map Dynamic.data)) []) ∧
      ∀ flag ∈ flags, flag = true := by
  induction rows generalizing rs h with
  | nil => exact ⟨[], h, by simp [Runs.run], by simp⟩
  | cons vargs rows ih =>
    obtain ⟨hlen, htyped⟩ := hrows vargs List.mem_cons_self
    have hvalid : validateArgs columns vargs = true := by
      refine (validateArgs_iff columns vargs).mpr ⟨?_, htyped⟩
      rw [← List.length_pos_iff, hlen]
      exact hw
    obtain ⟨flags, h', hrun, hflags⟩ := ih (fun v hv => hrows v (List.mem_cons_of_mem _ hv))
      (rs ++ [vargs.map Dynamic.data]) (insertCells now 0 columns vargs h).2
    have happ : (Call.appendRow now vargs).perform (h, ofRows columns rs []) =
        some (true, (insertCells now 0 columns vargs h).2,
          ofRows columns (rs ++ [vargs.map Dynamic.data]) []) := by
      simp only [Call.perform, appendRow_ofRows, hvalid, if_true, newRow_full now hlen]
      rfl
    refine ⟨true :: flags, h', ?_, ?_⟩
    · rw [List.append_assoc, List.singleton_append] at hrun
      exact Runs.run_cons happ hrun
    · intro flag hflag
      rcases List.mem_cons.mp hflag with rfl | hflag
      · rfl
      · exact hflags flag hflag

end SharedTable

/-- **The streaming builder returns what `Group` returns** for a table with the same rows,
whatever results were taken in between. -/
theorem builder_matches_group {tableDef indexDef aggr : Bytes} {b : GroupedTableBuilder}
    (hcreate : GroupedTableBuilder.create tableDef indexDef aggr = .ok b)
    {t : SharedTable} (ht : SharedTable.create tableDef = .ok t) {keys : List GroupIndex.KeyColumn}
    (hkeys : GroupIndex.keyColumns t.columns indexDef = .ok keys)
    (hsize : keys.length ≤ indexKeyMaxSize) (hfloat : ∀ k ∈ keys, k.column.type ≠ .float)
    (calls : List BuilderCall)
    (hrows : ∀ vargs ∈ insertedRows calls, GroupIndex.FullRow t.columns vargs)
    (h h₁ : StringHeap) (now now₁ : ℕ → BitVec 64) :
    ∃ flags h' b' result b'', Runs.run BuilderCall.perform calls (h, b) = some (flags, h', b') ∧
      b'.getResult = some (result, b'') ∧
      ∃ flags₁ h₂ h₃ t', Runs.run Call.perform ((insertedRows calls).map (Call.appendRow now))
        (h₁, t) =
          some (flags₁, h₂, t') ∧ (∀ flag ∈ flags₁, flag = true) ∧
        t'.group now₁ indexDef aggr h₂ = some (.ok (h₃, result)) := by
  obtain ⟨t₀, ht₀, hindex, hvalidator, hdata, htypes⟩ := GroupedTableBuilder.create_ok hcreate
  cases ht.symm.trans ht₀
  obtain ⟨hrowsOf, hw⟩ := SharedTable.create_ok ht
  obtain ⟨hg, hempty, hmap⟩ := GroupIndex.create_shape hkeys hindex hsize hfloat
  have hinit : GroupedTableBuilder.Holds t.columns b.index [] b := by
    refine ⟨by rw [hvalidator], hdata, htypes, [], ?_, by simp [Uniform], rfl⟩
    obtain ⟨t', ⟨nums, aggregators, groupedTable, cmp, indexMap⟩, data, types⟩ := b
    subst hmap
    simp only [GroupIndex.withTable, GroupIndex.withMap] at hempty ⊢
    rw [← hempty]
    rfl
  obtain ⟨flags, h', b', hrun, hb'⟩ := hinit.run hw hg hrows h
  obtain ⟨b'', hresult, -⟩ := hb'.getResult hg
  obtain ⟨flags₁, h₂, hrun₁, hflags⟩ := SharedTable.run_appendRows hw now hrows [] h₁
  have hu : Uniform t.columns.length ((insertedRows calls).map (List.map Dynamic.data)) := by
    intro row hrow
    obtain ⟨vargs, hvargs, rfl⟩ := List.mem_map.mp hrow
    rw [List.length_map, (hrows vargs hvargs).1]
  obtain ⟨h₃, hbuild⟩ := hg.frame.buildFrom_ofRows hempty hmap hu [] now₁ h₂
  rw [← hrowsOf, List.nil_append] at hrun₁
  refine ⟨flags, h', b', _, b'', hrun, hresult, flags₁, h₂, h₃, _, hrun₁, hflags, ?_⟩
  have hcols :
    (SharedTable.ofRows t.columns ((insertedRows calls).map (List.map Dynamic.data)) []).columns =
      t.columns := rfl
  rw [SharedTable.group, hcols, hindex]
  simp only [hbuild, Option.map_some]
  rfl

/-- A result is taken between the rows, and the last row joins the first group. -/
def streamCalls : List BuilderCall :=
  [.insertRow (fun _ => 0) [intArg 5, stringArg 0 (ascii "a")], .getResult,
    .insertRow (fun _ => 0) [intArg 7, stringArg 1 (ascii "b")],
    .insertRow (fun _ => 0) [intArg (-2), stringArg 2 (ascii "a")]]

theorem builder_matches_group_sample :
    ∃ flags h' b' result b'', Runs.run BuilderCall.perform streamCalls (sampleHeap,
        ⟨.new sampleColumns, sampleGroup, [.word 0, .word 0], [.undef, .undef]⟩) =
          some (flags, h', b') ∧
      b'.getResult = some (result, b'') ∧ result.storage.array =
        [.str ⟨1, ascii "b"⟩, .word 1, .word 7, .str ⟨0, ascii "a"⟩, .word 2, .word 3] ∧
      ∃ flags₁ h₂ h₃ t', Runs.run Call.perform
        ((insertedRows streamCalls).map (Call.appendRow fun _ => 0))
          (sampleHeap, .new sampleColumns) = some (flags₁, h₂, t') ∧
            (∀ flag ∈ flags₁, flag = true) ∧
        t'.group (fun _ => 0) (ascii "-s") (ascii "COUNT,SUM(n)") h₂ = some (.ok (h₃, result)) := by
  have hcreate : GroupedTableBuilder.create (ascii "n:INTEGER,s") (ascii "-s")
    (ascii "COUNT,SUM(n)") =
      .ok ⟨.new sampleColumns, sampleGroup, [.word 0, .word 0], [.undef, .undef]⟩ := by decide
  obtain ⟨flags, h', b', result, b'', hrun, hresult, hgroup⟩ := builder_matches_group hcreate
    (t := .new sampleColumns) (by decide) create_sampleGroup.1 (by decide) (by decide) streamCalls
    (by decide) sampleHeap sampleHeap (fun _ => 0) (fun _ => 0)
  refine ⟨flags, h', b', result, b'', hrun, hresult, ?_, hgroup⟩
  have hrows : ((Runs.run BuilderCall.perform streamCalls (sampleHeap,
      ⟨.new sampleColumns, sampleGroup, [.word 0, .word 0], [.undef, .undef]⟩)).bind fun r =>
        r.2.2.getResult).map (fun r => r.1.storage.array) = some
      [.str ⟨1, ascii "b"⟩, .word 1, .word 7, .str ⟨0, ascii "a"⟩, .word 2, .word 3] := by decide
  rw [hrun, Option.bind_some, hresult] at hrows
  exact Option.some.inj hrows

end Nkit
