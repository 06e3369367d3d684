import Nkit.Table.Rows
import Nkit.Base.Runs
import Nkit.Base.Traverse

/-! Sequences of calls on one table, and the abstract table they act on: a list of rows of
cell contents, in which the identity of a string plays no part. -/

namespace Nkit
open FlatRows

inductive Call where
  | appendRow (now : ℕ → BitVec 64) (vargs : List Dynamic)
  | insertRow (now : ℕ → BitVec 64) (rowNum : ℕ) (vargs : List Dynamic)
  | deleteRow (rowNum : ℕ)
  | setRow (now : ℕ → BitVec 64) (rowNum : ℕ) (vargs : List Dynamic)
  | setCellValue (rowNum colNum : ℕ) (v : Dynamic)

abbrev TableState := StringHeap × SharedTable

def Call.perform : Call → TableState → Option (Bool × TableState)
  | appendRow now vargs, (h, t) => t.appendRow now vargs h
  | insertRow now rowNum vargs, (h, t) => t.insertRow now rowNum vargs h
  | deleteRow rowNum, (h, t) => t.deleteRow rowNum h
  | setRow now rowNum vargs, (h, t) => t.setRow now rowNum vargs h
  | setCellValue rowNum colNum v, (h, t) => t.setCellValue rowNum colNum v h

/-- The values a call passes. -/
def Call.args : Call → List Dynamic
  | appendRow _ vargs | insertRow _ _ vargs | setRow _ _ vargs => vargs
  | deleteRow _ => []
  | setCellValue _ _ v => [v]

/-- Row and column of a cell assignment exist. -/
def Call.InRange : Call → TableState → Prop
  | setCellValue rowNum colNum _, s => rowNum < s.2.height ∧ colNum < s.2.width
  | _, _ => True

inductive Content where
  | word (w : BitVec 64)
  | text (s : Bytes)
  | obj (addr : ℕ)
deriving DecidableEq, Repr

def Data.content : Data → Content
  | word w => .word w
  | str s => .text s.value
  | obj addr => .obj addr

/-- A typed content, as `GetCellValue` returns it. -/
def Dynamic.content (v : Dynamic) : DynamicType × Content := (v.type, v.data.content)

abbrev Row := List Content

/-- Zero, false, the empty string, and for `DATE_TIME` the local time. -/
def defaultContent (type : ColumnType) (now : BitVec 64) : Content :=
  match type with
  | .string => .text []
  | .dateTime => .word now
  | _ => .word 0

/-- Arguments fill the columns from the left; missing ones are defaults, surplus ones are ignored.
-/
def fillRow (now : ℕ → BitVec 64) (columns : List Column) (vargs : List Dynamic) : Row :=
  columns.mapIdx fun i c =>
    (vargs[i]?.map fun v => v.data.content).getD (defaultContent c.type (now i))

/-- Non-empty arguments whose types match as far as there are columns for them. -/
def Admissible (columns : List Column) (vargs : List Dynamic) : Prop :=
  vargs ≠ [] ∧ ∀ cv ∈ columns.zip vargs, cv.1.type.toDynamic = cv.2.type

instance (columns : List Column) (vargs : List Dynamic) : Decidable (Admissible columns vargs) :=
  inferInstanceAs (Decidable (_ ∧ _))

/-- One call on the abstract table.  `none` is a cell assignment out of range. -/
def Call.abstract (columns : List Column) : Call → List Row → Option (Bool × List Row)
  | appendRow now vargs, rs =>
    some (if Admissible columns vargs then (true, rs ++ [fillRow now columns vargs])
      else (false, rs))
  | insertRow now r vargs, rs =>
    some (if r < rs.length ∧ Admissible columns vargs then
      (true, rs.insertIdx r (fillRow now columns vargs)) else (false, rs))
  | deleteRow r, rs => some (if r < rs.length then (true, rs.eraseIdx r) else (false, rs))
  | setRow now r vargs, rs =>
    some (if r < rs.length ∧ Admissible columns vargs then
      (true, rs.set r (fillRow now columns vargs)) else (false, rs))
  | setCellValue r c v, rs =>
    match rs[r]?, columns[c]? with
    | some row, some column =>
      some (if column.type.toDynamic = v.type then (true, rs.set r (row.set c v.data.content))
        else (false, rs))
    | _, _ => none

/-- The entry at row `r`, column `c`, or `NONE` out of range. -/
def cellAt (columns : List Column) (rs : List Row) (r c : ℕ) : DynamicType × Content :=
  match rs[r]?, columns[c]? with
  | some row, some column => (column.type, row.getD c (.word 0))
  | _, _ => (.none, .word 0)

namespace SharedTable

theorem getDefault_content (type : ColumnType) (now : BitVec 64) (h : StringHeap) :
    (getDefault type now h).1.content = defaultContent type now := by
  cases type <;> rfl

theorem insertCells_content (now : ℕ → BitVec 64) (colNum : ℕ) (cs : List Column)
    (vs : List Dynamic) (h : StringHeap) :
    (insertCells now colNum cs vs h).1.map Data.content =
      cs.mapIdx fun i c => (vs[i]?.map fun v => v.data.content).getD
        (defaultContent c.type (now (colNum + i))) := by
  induction cs generalizing colNum vs h with
  | nil => rfl
  | cons c cs ih =>
    have hshift : ∀ i, colNum + 1 + i = colNum + (i + 1) := fun i => by omega
    cases vs with
    | nil => simp [insertCells, ih, getDefault_content, List.mapIdx_cons, hshift]
    | cons v vs => simp [insertCells, ih, takeArg, List.mapIdx_cons, hshift]

theorem newRow_content (now : ℕ → BitVec 64) (columns : List Column) (vargs : List Dynamic)
    (h : StringHeap) :
    (newRow now columns vargs h).map Data.content = fillRow now columns vargs := by
  simpa only [newRow, fillRow, Nat.zero_add] using insertCells_content now 0 columns vargs h

theorem admissible_iff (columns : List Column) (vargs : List Dynamic) :
    Admissible columns vargs ↔ validateArgs columns vargs = true := by
  rw [validateArgs_iff]
  rfl

/-- The table stores rows of these contents and has no index. -/
def Refines (columns : List Column) (s : TableState) (rows : List Row) : Prop :=
  ∃ rs : List (List Data), s.2 = ofRows columns rs [] ∧ Uniform columns.length rs ∧
    rows = rs.map (List.map Data.content)

variable {columns : List Column}

theorem refines_step (hw : 0 < columns.length) (call : Call) (s : TableState) (rows : List Row)
    (b : Bool) (rows' : List Row) (hR : Refines columns s rows)
    (habs : call.abstract columns rows = some (b, rows')) :
    ∃ s', call.perform s = some (b, s') ∧ Refines columns s' rows' := by
  obtain ⟨h, t⟩ := s
  obtain ⟨rs, rfl, hu, rfl⟩ := hR
  have hnew := fun now => newRow_length now columns
  cases call with
  | appendRow now vargs =>
    simp only [Call.abstract, admissible_iff, Option.some.injEq] at habs
    simp only [Call.perform, appendRow_ofRows]
    split_ifs at habs with hv
    · obtain ⟨rfl, rfl⟩ := Prod.mk.inj habs
      rw [if_pos hv]
      exact ⟨_, rfl, _, rfl, hu.append (hnew now vargs h), by simp [newRow_content]⟩
    · obtain ⟨rfl, rfl⟩ := Prod.mk.inj habs
      rw [if_neg hv]
      exact ⟨_, rfl, rs, rfl, hu, rfl⟩
  | insertRow now r vargs =>
    simp only [Call.abstract, admissible_iff, List.length_map, Option.some.injEq] at habs
    simp only [Call.perform, insertRow_ofRows [] hw hu]
    split_ifs at habs with hv
    · obtain ⟨rfl, rfl⟩ := Prod.mk.inj habs
      rw [if_pos hv]
      exact ⟨_, rfl, _, rfl, hu.insertIdx (hnew now vargs h) r,
        by rw [List.map_insertIdx, newRow_content]⟩
    · obtain ⟨rfl, rfl⟩ := Prod.mk.inj habs
      rw [if_neg hv]
      exact ⟨_, rfl, rs, rfl, hu, rfl⟩
  | deleteRow r =>
    simp only [Call.abstract, List.length_map, Option.some.injEq] at habs
    simp only [Call.perform, deleteRow_ofRows [] hw hu]
    split_ifs at habs with hr
    · obtain ⟨rfl, rfl⟩ := Prod.mk.inj habs
      rw [if_pos hr]
      exact ⟨_, rfl, _, rfl, hu.eraseIdx r, by rw [List.eraseIdx_map]⟩
    · obtain ⟨rfl, rfl⟩ := Prod.mk.inj habs
      rw [if_neg hr]
      exact ⟨_, rfl, rs, rfl, hu, rfl⟩
  | setRow now r vargs =>
    simp only [Call.abstract, admissible_iff, List.length_map, Option.some.injEq] at habs
    simp only [Call.perform, setRow_ofRows [] hu]
    split_ifs at habs with hv
    · obtain ⟨rfl, rfl⟩ := Prod.mk.inj habs
      rw [if_pos hv]
      exact ⟨_, rfl, _, rfl, hu.set (hnew now vargs h) r, by rw [List.map_set, newRow_content]⟩
    · obtain ⟨rfl, rfl⟩ := Prod.mk.inj habs
      rw [if_neg hv]
      exact ⟨_, rfl, rs, rfl, hu, rfl⟩
  | setCellValue r c v =>
    -- the abstract call has no answer outside the table
    by_cases hr : r < rs.length
    · by_cases hc : c < columns.length
      · simp only [Call.abstract, List.getElem?_map, List.getElem?_eq_getElem hr,
          List.getElem?_eq_getElem hc, Option.map_some, Option.some.injEq] at habs
        simp only [Call.perform, setCellValue_ofRows [] hu hr hc]
        have hlen : (rs[r].set c v.data).length = columns.length := by
          rw [List.length_set]
          exact hu _ (List.getElem_mem hr)
        split_ifs at habs with ht
        · obtain ⟨rfl, rfl⟩ := Prod.mk.inj habs
          rw [if_pos ht]
          exact ⟨_, rfl, _, rfl, hu.set hlen r, by rw [List.map_set, List.map_set]⟩
        · obtain ⟨rfl, rfl⟩ := Prod.mk.inj habs
          rw [if_neg ht]
          exact ⟨_, rfl, rs, rfl, hu, rfl⟩
      · simp [Call.abstract, List.getElem?_eq_none (Nat.le_of_not_lt hc)] at habs
    · simp [Call.abstract, List.getElem?_eq_none (Nat.le_of_not_lt hr)] at habs

theorem abstract_of_inRange {call : Call} {s : TableState} {rows : List Row}
    (hR : Refines columns s rows) (hin : call.InRange s) :
    ∃ b rows', call.abstract columns rows = some (b, rows') := by
  cases call with
  | setCellValue r c v =>
    obtain ⟨h, t⟩ := s
    obtain ⟨rs, rfl, -, rfl⟩ := hR
    have hr : r < rs.length := hin.1
    have hc : c < columns.length := hin.2
    simp only [Call.abstract, List.getElem?_map, List.getElem?_eq_getElem hr,
      List.getElem?_eq_getElem hc, Option.map_some]
    exact ⟨_, _, rfl⟩
  | _ => exact ⟨_, _, rfl⟩

theorem Refines.observe {s : TableState} {rows : List Row} (hR : Refines columns s rows) :
    (∀ row ∈ rows, row.length = columns.length) ∧ s.2.height = rows.length ∧
      s.2.storage.array.length = s.2.height * columns.length ∧
      ∀ r c h, ∃ v h', s.2.getCellValue r c h = some (v, h') ∧
        v.content = cellAt columns rows r c := by
  obtain ⟨h, t⟩ := s
  obtain ⟨rs, rfl, hu, rfl⟩ := hR
  refine ⟨by simpa [Uniform] using hu, by simp [height, ofRows], length_flatten hu, ?_⟩
  intro r c h'
  rw [getCellValue_ofRows [] hu]
  by_cases hr : r < rs.length
  · by_cases hc : c < columns.length
    · rw [dif_pos ⟨hr, hc⟩]
      refine ⟨_, _, rfl, ?_⟩
      have hlen : c < rs[r].length := by
        rw [hu _ (List.getElem_mem hr)]
        exact hc
      simp [cellAt, Dynamic.content, hr, hc, hlen]
    · rw [dif_neg fun h => hc h.2]
      refine ⟨_, _, rfl, ?_⟩
      simp [cellAt, Dynamic.content, Dynamic.none, Data.content, hr,
        List.getElem?_eq_none (Nat.le_of_not_lt hc)]
  · rw [dif_neg fun h => hr h.1]
    refine ⟨_, _, rfl, ?_⟩
    simp [cellAt, Dynamic.content, Dynamic.none, Data.content,
      List.getElem?_eq_none (Nat.le_of_not_lt hr)]

theorem createColumns_ok {tableDef : List Bytes} {t : SharedTable}
    (h : createColumns tableDef = .ok t) :
    t = ofRows t.columns [] [] ∧ tableDef ≠ [] ∧ tableDef.mapM createColumn = .ok t.columns := by
  unfold createColumns at h
  split_ifs at h with hne
  cases hcols : tableDef.mapM createColumn with
  | error e =>
    rw [hcols] at h
    cases h
  | ok columns =>
    rw [hcols] at h
    cases h
    exact ⟨rfl, by simpa using hne, rfl⟩

theorem create_ok {tableDef : Bytes} {t : SharedTable} (h : create tableDef = .ok t) :
    t = ofRows t.columns [] [] ∧ 0 < t.columns.length := by
  obtain ⟨ht, hne, hcols⟩ := createColumns_ok h
  have hlen := (Traverse.mapM_ok_iff.mp hcols).length_eq
  rw [← hlen]
  exact ⟨ht, List.length_pos_of_ne_nil hne⟩

end SharedTable

/-- **The flat storage refines a list of rows.** -/
theorem run_refines_rows {tableDef : Bytes} {t : SharedTable}
    (hcreate : SharedTable.create tableDef = .ok t) (h : StringHeap) (calls : List Call)
    (hin : Runs.AllSteps Call.perform Call.InRange calls (h, t)) :
    ∃ (flags : List Bool) (h' : StringHeap) (t' : SharedTable) (rows : List Row),
      Runs.run Call.perform calls (h, t) = some (flags, h', t') ∧
      Runs.run (Call.abstract t.columns) calls [] = some (flags, rows) ∧
      (∀ row ∈ rows, row.length = t.width) ∧ t'.height = rows.length ∧
      t'.storage.array.length = t'.height * t.width ∧
      ∀ r c h'', ∃ v h''', t'.getCellValue r c h'' = some (v, h''') ∧
        v.content = cellAt t.columns rows r c := by
  obtain ⟨ht, hw⟩ := SharedTable.create_ok hcreate
  have hinit : SharedTable.Refines t.columns (h, t) [] := ⟨[], ht, by simp [Uniform], rfl⟩
  obtain ⟨flags, ⟨h', t'⟩, rows, hrun, habs, hR⟩ := Runs.simulate_run
    (fun call s rows hR hC => by
      obtain ⟨b, rows', habs⟩ := SharedTable.abstract_of_inRange hR hC
      obtain ⟨s', hs', hR'⟩ := SharedTable.refines_step hw call s rows b rows' hR habs
      exact ⟨b, s', rows', hs', habs, hR'⟩) hinit hin
  exact ⟨flags, h', t', rows, hrun, habs, hR.observe⟩

def sampleHeap : StringHeap := ⟨1, Function.update (fun _ => 0) 0 1⟩

def sampleColumns : List Column := [⟨ascii "n", .integer⟩, ⟨ascii "s", .string⟩]

def sampleCalls : List Call :=
  [.appendRow (fun _ => 0) [⟨.integer, .word 5⟩],
    .insertRow (fun _ => 0) 0 [⟨.integer, .word 7⟩, ⟨.string, .str ⟨0, ascii "a"⟩⟩],
    .setCellValue 1 0 ⟨.integer, .word 9⟩]

theorem run_refines_rows_sample :
    ∃ h' t', Runs.run Call.perform sampleCalls (sampleHeap, SharedTable.new sampleColumns) =
      some ([true, true, true], h', t') ∧ t'.storage.array.length = t'.height * 2 ∧
        t'.height = 2 := by
  have hcreate : SharedTable.create (ascii "n:INTEGER,s") = .ok (SharedTable.new sampleColumns) :=
    rfl
  obtain ⟨flags, h', t', rows, hrun, habs, -, hheight, harr, -⟩ :=
    run_refines_rows hcreate sampleHeap
    sampleCalls (.cons trivial rfl (.cons trivial rfl (.cons ⟨by decide, by decide⟩ rfl trivial)))
  have hrows : Runs.run (Call.abstract sampleColumns) sampleCalls [] = some ([true, true, true],
      [[.word 7, .text (ascii "a")], [.word 9, .text []]]) := rfl
  cases hrows.symm.trans habs
  exact ⟨h', t', hrun, harr, hheight⟩

end Nkit
