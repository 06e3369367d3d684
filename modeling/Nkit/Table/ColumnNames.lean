import Nkit.Table.SharedTable

/-! Renaming columns.  `SetColumnName` is meant to refuse a name that some column already
has; the test it makes is the opposite one, so a new name is refused and a name in use is
written a second time. -/

namespace Nkit
namespace SharedTable

def columnNames (t : SharedTable) : List Bytes := t.columns.map Column.name

/-- The table with column `pos` renamed and nothing else changed. -/
def withColumnName (pos : ℕ) (name : Bytes) (t : SharedTable) : SharedTable :=
  { t with columns := t.columns.modify pos fun c => { c with name } }

def setColumnName (pos : ℕ) (name : Bytes) (t : SharedTable) : SharedTable :=
  if t.width ≤ pos then t
  else if columnNumber t.columns name ≠ none then t.withColumnName pos name
  else t

def setColumnNames (t : SharedTable) (calls : List (ℕ × Bytes)) : SharedTable :=
  calls.foldl (fun t call => t.setColumnName call.1 call.2) t

/-- `t'` is `t` with column `pos` under the new name, found there, and with every other
column found where it was. -/
structure Renamed (pos : ℕ) (name : Bytes) (t t' : SharedTable) : Prop where
  changed : t' = t.withColumnName pos name
  found : columnNumber t'.columns name = some pos
  others : ∀ i, i ≠ pos → ∀ c, t.columns[i]? = some c → columnNumber t'.columns c.name = some i

/-- A call that names a column and a name not yet used renames; any other call does nothing. -/
def Renames (pos : ℕ) (name : Bytes) (t t' : SharedTable) : Prop :=
  (pos < t.width ∧ name ∉ t.columnNames → Renamed pos name t t') ∧
    (¬(pos < t.width ∧ name ∉ t.columnNames) → t' = t)

/-- Every call of a sequence does what it is for, and the names are distinct after each. -/
def RenamesThroughout (t : SharedTable) (calls : List (ℕ × Bytes)) : Prop :=
  ∀ before call after, calls = before ++ call :: after →
    Renames call.1 call.2 (t.setColumnNames before) (t.setColumnNames (before ++ [call])) ∧
      (t.setColumnNames (before ++ [call])).columnNames.Nodup

variable {t : SharedTable} {pos : ℕ} {name : Bytes}

theorem columnNumber_eq_none_iff : columnNumber t.columns name = none ↔ name ∉ t.columnNames := by
  rw [columnNumber, List.findIdx?_eq_none_iff, columnNames, List.mem_map, not_exists]
  refine forall_congr' fun c => ?_
  rw [not_and, beq_eq_false_iff_ne, ne_comm]

theorem columnNames_getElem? (t : SharedTable) (pos : ℕ) :
    t.columnNames[pos]? = t.columns[pos]?.map Column.name := List.getElem?_map

/-- Column `pos` is beyond the table or has the name already. -/
def KeepsName (t : SharedTable) (call : ℕ × Bytes) : Prop :=
  t.width ≤ call.1 ∨ t.columnNames[call.1]? = some call.2

instance (t : SharedTable) (call : ℕ × Bytes) :
    Decidable (t.KeepsName call) := inferInstanceAs (Decidable (_ ∨ _))

theorem withColumnName_eq_self_iff (hpos : pos < t.width) :
    t.withColumnName pos name = t ↔ t.columnNames[pos]? = some name := by
  obtain ⟨c, hc⟩ : ∃ c, t.columns[pos]? = some c := ⟨_, List.getElem?_eq_getElem hpos⟩
  rw [columnNames_getElem?, hc, Option.map_some, Option.some_inj]
  constructor
  · intro h
    have hcolumn : (t.withColumnName pos name).columns[pos]? = some c := by rw [h, hc]
    rw [withColumnName, List.getElem?_modify_eq, hc] at hcolumn
    exact (congrArg Column.name (Option.some_inj.mp hcolumn)).symm
  · rintro rfl
    have hself : t.columns.modify pos (fun x => { x with name := c.name }) = t.columns := by
      apply List.ext_getElem?
      intro i
      rw [List.getElem?_modify]
      by_cases hi : pos = i
      · subst hi
        simp [hc]
      · simp [hi]
    rw [withColumnName, hself]

theorem setColumnName_of_keepsName (h : t.KeepsName (pos, name)) :
    t.setColumnName pos name = t := by
  by_cases hpos : t.width ≤ pos
  · rw [setColumnName, if_pos hpos]
  · rw [setColumnName, if_neg hpos]
    split_ifs
    · exact (withColumnName_eq_self_iff (Nat.lt_of_not_le hpos)).mpr (h.resolve_left hpos)
    · rfl

theorem renames_setColumnName_iff :
    Renames pos name t (t.setColumnName pos name) ↔ t.KeepsName (pos, name) := by
  constructor
  · rintro ⟨hfresh, hother⟩
    by_cases hpos : t.width ≤ pos
    · exact .inl hpos
    have hlt : pos < t.width := Nat.lt_of_not_le hpos
    by_cases hmem : name ∈ t.columnNames
    · have hsame := hother fun h => h.2 hmem
      rw [setColumnName, if_neg hpos, if_pos (columnNumber_eq_none_iff.not_left.mpr hmem)] at hsame
      exact .inr ((withColumnName_eq_self_iff hlt).mp hsame)
    · -- the new name is refused, so it is not found afterwards
      have hnone := columnNumber_eq_none_iff.mpr hmem
      have hfound := (hfresh ⟨hlt, hmem⟩).found
      rw [setColumnName, if_neg hpos, if_neg (not_not.mpr hnone), hnone] at hfound
      cases hfound
  · intro h
    rw [setColumnName_of_keepsName h]
    refine ⟨fun ⟨hlt, hmem⟩ => absurd ?_ hmem, fun _ => rfl⟩
    exact List.mem_of_getElem? (h.resolve_left (Nat.not_le_of_lt hlt))

theorem setColumnNames_of_keepsName {calls : List (ℕ × Bytes)}
    (h : ∀ call ∈ calls, t.KeepsName call) :
    t.setColumnNames calls = t := by
  induction calls with
  | nil => rfl
  | cons call calls ih =>
    rw [setColumnNames, List.foldl_cons, setColumnName_of_keepsName (h call List.mem_cons_self)]
    exact ih fun c hc => h c (List.mem_cons_of_mem _ hc)

theorem RenamesThroughout.head {call : ℕ × Bytes} {calls : List (ℕ × Bytes)}
    (h : t.RenamesThroughout (call :: calls)) : t.KeepsName call :=
  renames_setColumnName_iff.mp (h [] call calls rfl).1

theorem RenamesThroughout.tail {call : ℕ × Bytes} {calls : List (ℕ × Bytes)}
    (h : t.RenamesThroughout (call :: calls)) :
    (t.setColumnName call.1 call.2).RenamesThroughout calls :=
  fun before c after heq => h (call :: before) c after (congrArg (call :: ·) heq)

/-- Over every sequence of calls: each call renames as it is meant to and the names stay
distinct exactly if no call asks for anything. -/
theorem renames_throughout_iff (hnames : t.columnNames.Nodup) (calls : List (ℕ × Bytes)) :
    t.RenamesThroughout calls ↔ ∀ call ∈ calls, t.width ≤ call.1 ∨ t.columnNames[call.1]? =
      some call.2 := by
  constructor
  · intro h
    induction calls with
    | nil =>
      intro call hcall
      cases hcall
    | cons c calls ih =>
      have hrest := h.tail
      rw [setColumnName_of_keepsName h.head] at hrest
      intro call hcall
      obtain rfl | hcall := List.mem_cons.mp hcall
      · exact h.head
      · exact ih hrest call hcall
  · rintro h before call after rfl
    have hbefore : ∀ c ∈ before, t.KeepsName c := fun c hc => h c (List.mem_append_left _ hc)
    have hcall : t.KeepsName call := h call (List.mem_append_right _ List.mem_cons_self)
    have hstep : t.setColumnNames (before ++ [call]) = t.setColumnName call.1 call.2 := by
      rw [setColumnNames, List.foldl_append]
      exact congrArg (setColumnName call.1 call.2) (setColumnNames_of_keepsName hbefore)
    rw [hstep, setColumnNames_of_keepsName hbefore]
    refine ⟨renames_setColumnName_iff.mpr hcall, ?_⟩
    rwa [setColumnName_of_keepsName hcall]

theorem renames_throughout_own_name :
    (new [⟨ascii "n", .integer⟩, ⟨ascii "s", .string⟩]).columnNames.Nodup ∧
    (new [⟨ascii "n", .integer⟩, ⟨ascii "s", .string⟩]).RenamesThroughout
      [(0, ascii "n"), (2, ascii "x")] :=
  ⟨by decide, (renames_throughout_iff (by decide) _).mpr (by decide)⟩

/-- A new name is refused, and the name of the other column is taken twice. -/
theorem renames_refuse_new_name_and_double_used_name :
    (new [⟨ascii "n", .integer⟩, ⟨ascii "s", .string⟩]).columnNames.Nodup ∧
    ¬ (new [⟨ascii "n", .integer⟩, ⟨ascii "s", .string⟩]).RenamesThroughout [(0, ascii "x")] ∧
    ¬ (new [⟨ascii "n", .integer⟩, ⟨ascii "s", .string⟩]).RenamesThroughout [(0, ascii "s")] ∧
    ((new [⟨ascii "n", .integer⟩, ⟨ascii "s", .string⟩]).setColumnName 0 (ascii "x")).columnNames =
      [ascii "n", ascii "s"] ∧
    ((new [⟨ascii "n", .integer⟩, ⟨ascii "s", .string⟩]).setColumnName 0 (ascii "s")).columnNames =
      [ascii "s", ascii "s"] :=
  ⟨by decide, fun h => absurd h.head (by decide), fun h => absurd h.head (by decide), by decide,
    by decide⟩

end SharedTable
end Nkit
