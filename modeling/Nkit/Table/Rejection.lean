import Nkit.Table.IndexRuns

/-! Which calls a table turns down, and that a call it turns down changes nothing.  Four of
the five mutators check the whole call before they change anything; `SetCellValue` lets a
call through when only one of its two numbers is out of range. -/

namespace Nkit
open FlatRows InvertedIndex

/-- Row or column that is not there, no arguments, or a value of another type than its column. -/
def Call.Rejected : Call → SharedTable → Prop
  | appendRow _ vargs, t => ¬ Admissible t.columns vargs
  | insertRow _ r vargs, t => t.height ≤ r ∨ ¬ Admissible t.columns vargs
  | deleteRow r, t => t.height ≤ r
  | setRow _ r vargs, t => t.height ≤ r ∨ ¬ Admissible t.columns vargs
  | setCellValue r c v, t =>
    t.height ≤ r ∨ t.width ≤ c ∨ ∃ column, t.columns[c]? = some column ∧ column.type.toDynamic ≠
      v.type

/-- A call that is to be rejected returns `false` and changes nothing; any other returns `true`. -/
def Call.Answers (call : Call) (s : TableState) : Prop :=
  (call.Rejected s.2 → call.perform s = some (false, s)) ∧
  (¬ call.Rejected s.2 → ∃ s', call.perform s = some (true, s'))

namespace TableIndex

variable {x x' : TableIndex}

end TableIndex

namespace SharedTable

variable {columns : List Column} {rs : List (List Data)} {xs : List TableIndex}

theorem setCellValue_row_out (hw : 0 < columns.length) (hu : Uniform columns.length rs) {r c : ℕ}
    (hr : rs.length ≤ r) (hc : c < columns.length) (v : Dynamic) (h : StringHeap) :
    setCellValue r c v h (ofRows columns rs xs) =
      if columns[c].type.toDynamic = v.type then none
        else some (false, h, ofRows columns rs xs) := by
  have hcond : (decide ((ofRows columns rs xs).height ≤ r) &&
      decide ((ofRows columns rs xs).columns.length ≤ c)) = false := by
    simp [ofRows, Nat.not_le.mpr hc]
  have hcol : (ofRows columns rs xs).columns[c]? = some columns[c] := List.getElem?_eq_getElem hc
  unfold setCellValue
  rw [hcond, hcol]
  simp only [Bool.false_eq_true, if_false, Option.bind_eq_bind, Option.bind_some]
  by_cases htype : columns[c].type.toDynamic = v.type
  · rw [if_neg (not_not_intro htype), if_pos htype]
    obtain rfl | hlt := Nat.eq_or_lt_of_le hr
    · -- the pointer past the last row
      rw [get_ofRows xs hu le_rfl, Option.bind_some, List.drop_length]
      simp
    · have hget : (ofRows columns rs xs).storage.get r = none := by
        refine if_neg fun hle => ?_
        have hsize : r * columns.length ≤ rs.length * columns.length := by
          rw [← length_flatten hu]
          exact hle
        exact absurd (Nat.le_of_mul_le_mul_right hsize hw) (Nat.not_le.mpr hlt)
      rw [hget]
      rfl
  · rw [if_pos htype, if_neg htype]

theorem setCellValue_column_out {t : SharedTable} {r c : ℕ} (hr : r < t.height) (hc : t.width ≤ c)
    (v : Dynamic) (h : StringHeap) : setCellValue r c v h t = none := by
  unfold setCellValue
  have hcol : t.columns[c]? = none := List.getElem?_eq_none hc
  rw [if_neg (by simp [Nat.not_le.mpr hr]), hcol]
  rfl

theorem setCellValue_both_out {t : SharedTable} {r c : ℕ} (hr : t.height ≤ r) (hc : t.width ≤ c)
    (v : Dynamic) (h : StringHeap) : setCellValue r c v h t = some (false, h, t) := by
  unfold setCellValue
  exact if_pos (by simpa using ⟨hr, hc⟩)

end SharedTable

section Answers
open SharedTable

variable {columns : List Column} {rs : List (List Data)} {xs : List TableIndex} {h : StringHeap}

end Answers

/-- A row after a call: an old one, one filled from the arguments, or an old one with a cell
replaced. -/
def Call.RowFrom (columns : List Column) (rs : List (List Data)) (h : StringHeap) (call : Call)
    (row : List Data) : Prop :=
  row ∈ rs ∨
  (∃ now, SharedTable.validateArgs columns call.args = true ∧
    row = SharedTable.newRow now columns call.args h) ∨
  ∃ old ∈ rs, ∃ c column v, columns[c]? = some column ∧ column.type.toDynamic = v.type ∧
    v ∈ call.args ∧
    row = old.set c v.data

theorem Call.rows_of_perform {columns : List Column} {rs : List (List Data)} {xs : List TableIndex}
    {heap : StringHeap} {s' : TableState} {b : Bool} (hw : 0 < columns.length)
    (hu : Uniform columns.length rs) {call : Call}
    (h : call.perform (heap, SharedTable.ofRows columns rs xs) = some (b, s')) :
    ∃ rs' xs', s'.2 = SharedTable.ofRows columns rs' xs' ∧ Uniform columns.length rs' ∧
      ∀ row ∈ rs', call.RowFrom columns rs heap row := by
  have hnew := fun now => SharedTable.newRow_length now columns
  have hsame : ∃ rs' xs', SharedTable.ofRows columns rs xs = SharedTable.ofRows columns rs' xs' ∧
      Uniform columns.length rs' ∧ ∀ row ∈ rs', call.RowFrom columns rs heap row :=
    ⟨rs, xs, rfl, hu, fun row hrow => .inl hrow⟩
  cases call with
  | appendRow now vargs =>
    rw [Call.perform, SharedTable.appendRow_ofRows] at h
    split at h
    next hvalid =>
      obtain ⟨xs', -, hs'⟩ := Option.bind_eq_some_iff.mp h
      cases hs'
      refine ⟨_, xs', rfl, hu.append (hnew now vargs heap), fun row hrow => ?_⟩
      obtain hold | hlast := List.mem_append.mp hrow
      · exact .inl hold
      · exact .inr (.inl ⟨now, hvalid, List.mem_singleton.mp hlast⟩)
    next =>
      cases h
      exact hsame
  | insertRow now r vargs =>
    rw [Call.perform, SharedTable.insertRow_ofRows xs hw hu] at h
    split at h
    next hvalid =>
      obtain ⟨xs', -, hs'⟩ := Option.bind_eq_some_iff.mp h
      cases hs'
      refine ⟨_, xs', rfl, hu.insertIdx (hnew now vargs heap) r, fun row hrow => ?_⟩
      obtain rfl | hold := List.eq_or_mem_of_mem_insertIdx hrow
      · exact .inr (.inl ⟨now, hvalid.2, rfl⟩)
      · exact .inl hold
    next =>
      cases h
      exact hsame
  | deleteRow r =>
    rw [Call.perform, SharedTable.deleteRow_ofRows xs hw hu] at h
    split at h
    next =>
      obtain ⟨xs', -, hs'⟩ := Option.bind_eq_some_iff.mp h
      cases hs'
      exact ⟨_, xs', rfl, hu.eraseIdx r, fun row hrow => .inl (List.mem_of_mem_eraseIdx hrow)⟩
    next =>
      cases h
      exact hsame
  | setRow now r vargs =>
    rw [Call.perform, SharedTable.setRow_ofRows xs hu] at h
    split at h
    next hvalid =>
      obtain ⟨removed, -, h⟩ := Option.bind_eq_some_iff.mp h
      obtain ⟨xs', -, hs'⟩ := Option.bind_eq_some_iff.mp h
      cases hs'
      refine ⟨_, xs', rfl, hu.set (hnew now vargs heap) r, fun row hrow => ?_⟩
      obtain hold | rfl := List.mem_or_eq_of_mem_set hrow
      · exact .inl hold
      · exact .inr (.inl ⟨now, hvalid.2, rfl⟩)
    next =>
      cases h
      exact hsame
  | setCellValue r c v =>
    rw [Call.perform] at h
    -- the guard of `SetCellValue` rejects only a cell out of range in both directions
    by_cases hr : r < rs.length
    · by_cases hc : c < columns.length
      · rw [SharedTable.setCellValue_ofRows xs hu hr hc] at h
        split at h
        next htype =>
          obtain ⟨removed, -, h⟩ := Option.bind_eq_some_iff.mp h
          obtain ⟨xs', -, hs'⟩ := Option.bind_eq_some_iff.mp h
          cases hs'
          have hlen : (rs[r].set c v.data).length = columns.length := by
            rw [List.length_set]
            exact hu _ (List.getElem_mem hr)
          refine ⟨_, xs', rfl, hu.set hlen r, fun row hrow => ?_⟩
          obtain hold | rfl := List.mem_or_eq_of_mem_set hrow
          · exact .inl hold
          · exact .inr
              (.inr ⟨rs[r], List.getElem_mem hr, c, columns[c], v, List.getElem?_eq_getElem hc,
                htype, List.mem_singleton_self v, rfl⟩)
        next =>
          cases h
          exact hsame
      · rw [SharedTable.setCellValue_column_out hr (Nat.le_of_not_lt hc)] at h
        cases h
    · by_cases hc : c < columns.length
      · rw [SharedTable.setCellValue_row_out hw hu (Nat.le_of_not_lt hr) hc] at h
        split at h
        · cases h
        · cases h
          exact hsame
      · rw [SharedTable.setCellValue_both_out (Nat.le_of_not_lt hr) (Nat.le_of_not_lt hc)] at h
        cases h
        exact hsame

theorem SharedTable.Sound.call {s s' : TableState} {b : Bool} (hs : s.2.Sound) {call : Call}
    (h : call.perform s = some (b, s')) : s'.2.Sound ∧ s'.2.columns = s.2.columns := by
  obtain ⟨heap, t⟩ := s
  have hw : 0 < t.columns.length := hs.width_pos
  obtain ⟨rs, ht, hu⟩ := SharedTable.Laid.exists_rows (t := t) hs.toLaid
  rw [ht] at h
  obtain ⟨rs', xs', hrows, hu', -⟩ := Call.rows_of_perform hw hu h
  rw [hrows]
  exact ⟨⟨SharedTable.laid_ofRows _ hu', hw⟩, rfl⟩

theorem Action.createIndex_cases {indexDefinition : Bytes} {s s' : TableState} {b : Bool}
    (h : (Action.createIndex indexDefinition).perform s = some (b, s')) :
    s' = s ∨ ∃ x, s' = (s.1, s.2.subscribe x) := by
  obtain ⟨heap, t⟩ := s
  rw [Action.perform] at h
  cases hcreate : t.createIndex indexDefinition with
  | none => simp [hcreate] at h
  | some res =>
    cases res with
    | error e =>
      simp only [hcreate, Option.some.injEq, Prod.mk.injEq] at h
      exact .inl h.2.symm
    | ok t' =>
      simp only [hcreate, Option.some.injEq, Prod.mk.injEq] at h
      obtain ⟨index, -, hindex⟩ := Option.map_eq_some_iff.mp hcreate
      cases index with
      | error e => cases hindex
      | ok x =>
        cases hindex
        exact .inr ⟨x, h.2.symm⟩

theorem SharedTable.Sound.action {s s' : TableState} {b : Bool} (hs : s.2.Sound) {a : Action}
    (h : a.perform s = some (b, s')) : s'.2.Sound ∧ s'.2.columns = s.2.columns := by
  cases a with
  | call c => exact hs.call h
  | createIndex indexDefinition =>
    obtain rfl | ⟨x, rfl⟩ := Action.createIndex_cases h
    · exact ⟨hs, rfl⟩
    · exact ⟨⟨⟨hs.growFactor_eq, hs.size_eq⟩, hs.width_pos⟩, rfl⟩

/-- Tables that calls and new indices lead to from a table that was just created. -/
def SharedTable.Reached (tableDef : Bytes) (t : SharedTable) : Prop :=
  ∃ t₀ h actions flags h', SharedTable.create tableDef = .ok t₀ ∧
    Runs.run Action.perform actions (h, t₀) = some (flags, h', t)

theorem SharedTable.Reached.sound {tableDef : Bytes} {t : SharedTable} (ht : t.Reached tableDef) :
    ∃ t₀, SharedTable.create tableDef = .ok t₀ ∧ t.Sound ∧ t.columns = t₀.columns := by
  obtain ⟨t₀, h, actions, flags, h', hcreate, hrun⟩ := ht
  have hkeeps :=
    Runs.invariant_of_run (P := fun s : TableState => s.2.Sound ∧ s.2.columns = t₀.columns)
    (C := fun _ _ => True)
    (fun a s b s' hs _ ha => ⟨(hs.1.action ha).1, (hs.1.action ha).2.trans hs.2⟩)
    ⟨(SharedTable.sound_of_create hcreate).1, rfl⟩ (Runs.allSteps_of_forall fun _ _ => trivial) hrun
  exact ⟨t₀, hcreate, hkeeps⟩

end Nkit
