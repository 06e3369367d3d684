import Nkit.Table.RefCounts
import Nkit.Table.IndexRuns

/-! Programs over several tables that pass strings around through handles of their own.
Every string has as many references as there are cells and handles that hold it. -/

namespace Nkit
open FlatRows

structure World where
  heap : StringHeap
  tables : List SharedTable
  handles : List Dynamic

namespace World

def empty : World := ⟨⟨0, fun _ => 0⟩, [], []⟩

def handleRefs (a : ℕ) (w : World) : ℕ := (w.handles.map fun v => cellRef a v.type v.data).sum

def tableRefs (a : ℕ) (w : World) : ℕ := (w.tables.map (SharedTable.cellRefs a)).sum

end World

inductive Statement where
  | newValue (v : Dynamic)
  | newString (value : Bytes)
  | copyHandle (i : ℕ)
  | dropHandle (i : ℕ)
  | createTable (tableDef : Bytes)
  | action (k : ℕ) (a : Action)
  | getCellValue (k rowNum colNum : ℕ)
  | clone (k : ℕ) (full : Bool)
  | clear (k : ℕ)

namespace Statement

def perform : Statement → World → Option (Bool × World)
  | newValue v, w =>
    if isRefCounted v.type then none else some (true, { w with handles := w.handles ++ [v] })
  | newString value, w =>
    let (s, heap) := w.heap.alloc value
    some (true, { w with heap, handles := w.handles ++ [⟨.string, .str s⟩] })
  | copyHandle i, w => do
    let v ← w.handles[i]?
    let heap := if isRefCounted v.type then w.heap.incRefData v.data else w.heap
    some (true, { w with heap, handles := w.handles ++ [v] })
  | dropHandle i, w => do
    let v ← w.handles[i]?
    let heap := if isRefCounted v.type then w.heap.decRefData v.data else w.heap
    some (true, { w with heap, handles := w.handles.eraseIdx i })
  | createTable tableDef, w =>
    match SharedTable.create tableDef with
    | .error _ => some (false, w)
    | .ok t => some (true, { w with tables := w.tables ++ [t] })
  | action k a, w => do
    let t ← w.tables[k]?
    let (b, heap, t') ← a.perform (w.heap, t)
    some (b, { w with heap, tables := w.tables.set k t' })
  | getCellValue k rowNum colNum, w => do
    let t ← w.tables[k]?
    let (v, heap) ← t.getCellValue rowNum colNum w.heap
    some (true, { w with heap, handles := w.handles ++ [v] })
  | clone k full, w => do
    let t ← w.tables[k]?
    let (heap, t') ← t.clone full w.heap
    some (true, { w with heap, tables := w.tables ++ [t'] })
  | clear k, w => do
    let t ← w.tables[k]?
    let (heap, t') ← t.clear w.heap
    some (true, { w with heap, tables := w.tables.set k t' })

end Statement

/-- Arguments are values the program holds, and cell assignments are in range. -/
def Statement.Allowed : Statement → World → Prop
  | action k (.call c), w =>
    (∀ v ∈ c.args, v ∈ w.handles) ∧ ∀ t, w.tables[k]? = some t → c.InRange (w.heap, t)
  | _, _ => True

/-- A row that is overwritten gets a value for each of its string columns. -/
def Statement.SuppliesStrings : Statement → World → Prop
  | action k (.call (.setRow _ rowNum vargs)), w => ∀ t, w.tables[k]? = some t →
      rowNum < t.height ∧ t.validate vargs = true →
        ∀ c ∈ t.columns.drop vargs.length, c.type ≠ .string
  | _, _ => True

/-- Every count is the number of cells and handles that hold the string. -/
structure World.Exact (w : World) : Prop where
  laid : ∀ t ∈ w.tables, t.Laid
  fresh : w.heap.Fresh
  strings : ∀ v ∈ w.handles, isRefCounted v.type = true → v.type = .string
  counts : ∀ a, w.heap.refs a = w.tableRefs a + w.handleRefs a

namespace World

variable {w : World}

theorem sum_map_set {α : Type*} (f : α → ℕ) {l : List α} {k : ℕ} {x : α} (hk : l[k]? = some x)
    (y : α) :
    ((l.set k y).map f).sum + f x = (l.map f).sum + f y := by
  induction l generalizing k with
  | nil => cases hk
  | cons z l ih =>
    cases k with
    | zero =>
      cases hk
      simp only [List.set_cons_zero, List.map_cons, List.sum_cons]
      omega
    | succ k =>
      have hrest := ih hk
      simp only [List.set_cons_succ, List.map_cons, List.sum_cons]
      omega

theorem sum_map_eraseIdx {α : Type*} (f : α → ℕ) {l : List α} {k : ℕ} {x : α}
    (hk : l[k]? = some x) :
    ((l.eraseIdx k).map f).sum + f x = (l.map f).sum := by
  induction l generalizing k with
  | nil => cases hk
  | cons z l ih =>
    cases k with
    | zero =>
      cases hk
      simp only [List.eraseIdx_cons_zero, List.map_cons, List.sum_cons]
      omega
    | succ k =>
      have hrest := ih hk
      simp only [List.eraseIdx_cons_succ, List.map_cons, List.sum_cons]
      omega

theorem le_sum_map {α : Type*} (f : α → ℕ) {l : List α} {x : α} (hx : x ∈ l) :
    f x ≤ (l.map f).sum := by
  obtain ⟨k, hk⟩ := List.mem_iff_getElem?.mp hx
  have hsum := sum_map_eraseIdx f hk
  omega

theorem handleRefs_append (a : ℕ) (v : Dynamic) (heap : StringHeap) :
    handleRefs a { w with heap, handles := w.handles ++ [v] } =
      w.handleRefs a + cellRef a v.type v.data := by
  simp [handleRefs]

theorem Exact.le_of_handle (hw : w.Exact) {v : Dynamic} (hv : v ∈ w.handles) {t : SharedTable}
    (ht : t ∈ w.tables) (a : ℕ) : cellRef a v.type v.data + t.cellRefs a ≤ w.heap.refs a := by
  have h1 : cellRef a v.type v.data ≤ w.handleRefs a :=
    le_sum_map (fun v => cellRef a v.type v.data) hv
  have h2 : t.cellRefs a ≤ w.tableRefs a := le_sum_map _ ht
  have hsum := hw.counts a
  omega

theorem Exact.le_of_table (hw : w.Exact) {t : SharedTable} (ht : t ∈ w.tables) (a : ℕ) :
    t.cellRefs a ≤ w.heap.refs a := by
  have h2 : t.cellRefs a ≤ w.tableRefs a := le_sum_map _ ht
  have hsum := hw.counts a
  omega

theorem SharedTable.cellRef_le_rowsRefs (a : ℕ) {columns : List Column} {rs : List (List Data)}
    (hu : Uniform columns.length rs) {r c : ℕ} (hr : r < rs.length) (hc : c < columns.length) :
    cellRef a columns[c].type (rs[r].getD c (.word 0)) ≤ SharedTable.rowsRefs a columns rs := by
  have hlen : rs[r].length = columns.length := hu _ (List.getElem_mem hr)
  have hrow := SharedTable.rowRefs_set a columns hc hlen (.word 0)
  have hle := SharedTable.rowRefs_le a columns hr
  have hzero : cellRef a columns[c].type (.word 0) = 0 := by simp [cellRef, Data.strAddr]
  omega

theorem Exact.exists_rows (hw : w.Exact) {t : SharedTable} (ht : t ∈ w.tables) :
    ∃ rs, t = SharedTable.ofRows t.columns rs t.tableIndexSet ∧ Uniform t.columns.length rs ∧
      ∀ a, SharedTable.rowsRefs a t.columns rs ≤ w.heap.refs a := by
  obtain ⟨rs, hrs, hu⟩ := (hw.laid t ht).exists_rows
  refine ⟨rs, hrs, hu, fun a => ?_⟩
  have hle := hw.le_of_table ht a
  rwa [hrs, SharedTable.cellRefs_ofRows a hu] at hle

theorem Exact.addHandle (hw : w.Exact) {heap : StringHeap} (hf : heap.Fresh) {v : Dynamic}
    (hv : isRefCounted v.type = true → v.type = .string)
    (hrefs : ∀ a, heap.refs a = w.heap.refs a + cellRef a v.type v.data) :
    Exact { w with heap, handles := w.handles ++ [v] } := by
  refine ⟨hw.laid, hf, ?_, fun a => ?_⟩
  · intro v' hv'
    rcases List.mem_append.mp hv' with hv' | hv'
    · exact hw.strings v' hv'
    · rw [List.mem_singleton.mp hv']
      exact hv
  have hsum := hw.counts a
  have hnew := hrefs a
  rw [handleRefs_append]
  change heap.refs a = w.tableRefs a + _
  omega

theorem Exact.setTable (hw : w.Exact) {k : ℕ} {t t' : SharedTable} (hk : w.tables[k]? = some t)
    {heap : StringHeap} (hex : SharedTable.Exchanged w.heap t heap t') :
    Exact { w with heap, tables := w.tables.set k t' } := by
  refine ⟨?_, hex.fresh, hw.strings, fun a => ?_⟩
  · intro t'' ht''
    rcases List.mem_or_eq_of_mem_set ht'' with ht'' | rfl
    · exact hw.laid t'' ht''
    · exact hex.laid
  · have hset := sum_map_set (SharedTable.cellRefs a) hk t'
    have hsum := hw.counts a
    have hbal := hex.balance a
    change heap.refs a = ((w.tables.set k t').map (SharedTable.cellRefs a)).sum + w.handleRefs a
    have htables : w.tableRefs a = (w.tables.map (SharedTable.cellRefs a)).sum := rfl
    omega

theorem Exact.addTable (hw : w.Exact) {t : SharedTable} (ht : t.Laid) {heap : StringHeap}
    (hf : heap.Fresh) (hrefs : ∀ a, heap.refs a = w.heap.refs a + t.cellRefs a) :
    Exact { w with heap, tables := w.tables ++ [t] } := by
  refine ⟨?_, hf, hw.strings, fun a => ?_⟩
  · intro t' ht'
    rcases List.mem_append.mp ht' with ht' | ht'
    · exact hw.laid t' ht'
    · rw [List.mem_singleton.mp ht']
      exact ht
  · have hsum := hw.counts a
    have hnew := hrefs a
    have htables : tableRefs a { w with heap, tables := w.tables ++ [t] } =
        w.tableRefs a + t.cellRefs a := by simp [tableRefs]
    rw [htables]
    change heap.refs a = _ + w.handleRefs a
    omega

theorem incHandle_refs {v : Dynamic} (hv : isRefCounted v.type = true → v.type = .string)
    (h : StringHeap) (a : ℕ) :
    (if isRefCounted v.type then h.incRefData v.data else h).refs a =
      h.refs a + cellRef a v.type v.data := by
  split_ifs with hc
  · rw [hv hc]
    exact h.incRefData_refs v.data a
  · have hne : v.type ≠ .string := fun hs => hc (by rw [hs]; decide)
    simp [cellRef, hne]

theorem fresh_of_counted {h h' : StringHeap} (hf : h.Fresh) (hnext : h'.next = h.next) {v : Dynamic}
    (hrefs : ∀ a, h'.refs a = h.refs a + cellRef a v.type v.data)
    (hle : ∀ a, cellRef a v.type v.data ≤ h.refs a) :
    h'.Fresh := by
  intro a ha
  rw [hnext] at ha
  have hzero := hf a ha
  have hcell := hle a
  rw [hrefs]
  omega

theorem incHandle_next (v : Dynamic) (h : StringHeap) :
    (if isRefCounted v.type then h.incRefData v.data else h).next = h.next := by
  split_ifs
  · exact SharedTable.incRefData_next h v.data
  · rfl

theorem decHandle_refs {v : Dynamic} (hv : isRefCounted v.type = true → v.type = .string)
    (h : StringHeap) (a : ℕ) :
    (if isRefCounted v.type then h.decRefData v.data else h).refs a =
      h.refs a - cellRef a v.type v.data := by
  split_ifs with hc
  · rw [hv hc]
    exact h.decRefData_refs v.data a
  · have hne : v.type ≠ .string := fun hs => hc (by rw [hs]; decide)
    simp [cellRef, hne]

theorem action_exchanged (hw : w.Exact) {k : ℕ} {t : SharedTable} (hk : w.tables[k]? = some t)
    {a : Action} (hallowed : (Statement.action k a).Allowed w)
    (hsup : (Statement.action k a).SuppliesStrings w) {b : Bool} {heap : StringHeap}
    {t' : SharedTable} (hp : a.perform (w.heap, t) = some (b, heap, t')) :
    SharedTable.Exchanged w.heap t heap t' := by
  have ht : t ∈ w.tables := List.mem_of_getElem? hk
  have hcells := hw.le_of_table ht
  have hlaid := hw.laid t ht
  cases a with
  | createIndex indexDefinition =>
    -- an index holds no reference
    have hsame : heap = w.heap ∧ t'.rows = t.rows ∧ t'.columns = t.columns ∧
        t'.storage = t.storage := by
      simp only [Action.perform, SharedTable.createIndex] at hp
      cases hc : TableIndex.create t indexDefinition with
      | none => simp [hc] at hp
      | some e =>
        cases e with
        | error e =>
          simp only [hc, Option.map_some, Except.map] at hp
          cases hp
          exact ⟨rfl, rfl, rfl, rfl⟩
        | ok x =>
          simp only [hc, Option.map_some, Except.map] at hp
          cases hp
          exact ⟨rfl, rfl, rfl, rfl⟩
    obtain ⟨rfl, hrows, hcols, hstorage⟩ := hsame
    refine ⟨⟨?_, ?_⟩, hw.fresh, fun a => ?_⟩
    · have hgrow := hlaid.growFactor_eq
      rwa [SharedTable.width, ← hcols, ← hstorage] at hgrow
    · have hsize := hlaid.size_eq
      rwa [SharedTable.width, SharedTable.height, ← hcols, ← hstorage, ← hrows] at hsize
    · rw [SharedTable.cellRefs, SharedTable.cellRefs, hrows, hcols, hstorage]
  | call c =>
    obtain ⟨rs, hrs, hu⟩ := hlaid.exists_rows
    have hin := hallowed.2 t hk
    have hlive : ∀ v ∈ c.args, Live w.heap v := fun v hv a =>
      (Nat.le_add_right _ _).trans (hw.le_of_handle (hallowed.1 v hv) ht a)
    have hheld : ∀ v ∈ c.args, ∀ a, cellRef a v.type v.data +
        SharedTable.rowsRefs a t.columns rs ≤ w.heap.refs a := by
      intro v hv a
      have hle := hw.le_of_handle (hallowed.1 v hv) ht a
      rwa [hrs, SharedTable.cellRefs_ofRows a hu] at hle
    have hrows : ∀ a, SharedTable.rowsRefs a t.columns rs ≤ w.heap.refs a := by
      intro a
      have hle := hcells a
      rwa [hrs, SharedTable.cellRefs_ofRows a hu] at hle
    rw [hrs] at hp ⊢
    cases c with
    | appendRow now vargs => exact SharedTable.appendRow_exchanged hu hw.fresh hlive hp
    | insertRow now r vargs => exact SharedTable.insertRow_exchanged hu hw.fresh hlive hp
    | deleteRow r => exact SharedTable.deleteRow_exchanged hu hw.fresh hrows hp
    | setRow now r vargs =>
      refine SharedTable.setRow_exchanged hu hw.fresh hrows hheld (fun hv => ?_) hp
      refine hsup t hk ⟨?_, hv.2⟩
      rw [hrs]
      exact hv.1
    | setCellValue r c v =>
      have hr : r < rs.length := by
        have hheight := hin.1
        rw [hrs] at hheight
        exact hheight
      exact SharedTable.setCellValue_exchanged hu hw.fresh hrows hr hin.2
        (hheld v List.mem_cons_self) hp

theorem Exact.step (hw : w.Exact) {s : Statement} (hallowed : s.Allowed w)
    (hsup : s.SuppliesStrings w) {b : Bool} {w' : World} (hp : s.perform w = some (b, w')) :
    w'.Exact := by
  cases s with
  | newValue v =>
    simp only [Statement.perform] at hp
    split_ifs at hp with hv
    cases hp
    -- a value that is no string refers to none
    have hzero : ∀ a, cellRef a v.type v.data = 0 := by
      intro a
      rw [cellRef, if_neg]
      rintro ⟨hs, -⟩
      rw [hs] at hv
      exact hv (by decide)
    exact hw.addHandle hw.fresh (fun hc => absurd hc hv) fun a => by rw [hzero, Nat.add_zero]
  | newString value =>
    simp only [Statement.perform] at hp
    cases hp
    refine hw.addHandle (StringHeap.alloc_fresh hw.fresh value) (fun _ => rfl) fun a => ?_
    rw [StringHeap.alloc_refs hw.fresh]
    simp [cellRef, Data.strAddr, StringHeap.alloc]
  | copyHandle i =>
    obtain ⟨v, hv, hp⟩ := Option.bind_eq_some_iff.mp hp
    cases hp
    have hmem := List.mem_of_getElem? hv
    have hrefs := incHandle_refs (hw.strings v hmem) w.heap
    apply hw.addHandle _ (hw.strings v hmem) hrefs
    apply fresh_of_counted hw.fresh (incHandle_next v w.heap) hrefs
    intro a
    -- the handle that is copied is counted already, so its string is live
    have hle : cellRef a v.type v.data ≤ w.handleRefs a :=
      le_sum_map (fun v => cellRef a v.type v.data) hmem
    have hsum := hw.counts a
    omega
  | dropHandle i =>
    obtain ⟨v, hv, hp⟩ := Option.bind_eq_some_iff.mp hp
    cases hp
    have hrefs := decHandle_refs (hw.strings v (List.mem_of_getElem? hv)) w.heap
    refine ⟨hw.laid, ?_, fun v' hv' => hw.strings v' (List.mem_of_mem_eraseIdx hv'), fun a => ?_⟩
    · refine SharedTable.fresh_of_le hw.fresh ?_ fun a => ?_
      · split_ifs
        · exact SharedTable.decRefData_next _ _
        · rfl
      · rw [hrefs]
        omega
    · have herase := sum_map_eraseIdx (fun v => cellRef a v.type v.data) hv
      have hsum := hw.counts a
      have hhandles : w.handleRefs a = (w.handles.map fun v => cellRef a v.type v.data).sum := rfl
      change (if isRefCounted v.type then w.heap.decRefData v.data else w.heap).refs a =
        w.tableRefs a + ((w.handles.eraseIdx i).map fun v => cellRef a v.type v.data).sum
      rw [hrefs]
      omega
  | createTable tableDef =>
    simp only [Statement.perform] at hp
    cases hc : SharedTable.create tableDef with
    | error e =>
      simp only [hc] at hp
      cases hp
      exact hw
    | ok t =>
      simp only [hc] at hp
      cases hp
      have ht := (SharedTable.sound_of_create hc).1
      refine hw.addTable ht.toLaid hw.fresh fun a => ?_
      have hrows : t.rows = 0 := by rw [(SharedTable.create_ok hc).1]; rfl
      simp [SharedTable.cellRefs, hrows]
  | action k a =>
    obtain ⟨t, hk, hp⟩ := Option.bind_eq_some_iff.mp hp
    obtain ⟨⟨b', heap, t'⟩, ha, hp⟩ := Option.bind_eq_some_iff.mp hp
    cases hp
    exact hw.setTable hk (action_exchanged hw hk hallowed hsup ha)
  | getCellValue k r c =>
    obtain ⟨t, hk, hp⟩ := Option.bind_eq_some_iff.mp hp
    obtain ⟨⟨v, heap⟩, hv, hp⟩ := Option.bind_eq_some_iff.mp hp
    cases hp
    have ht := List.mem_of_getElem? hk
    obtain ⟨rs, hrs, hu, hrows⟩ := hw.exists_rows ht
    rw [hrs, SharedTable.getCellValue_ofRows _ hu] at hv
    -- outside the table the answer is a value without a string
    by_cases hrc : r < rs.length ∧ c < t.columns.length
    · rw [dif_pos hrc] at hv
      cases hv
      have hrefs := incColumn_refs t.columns[c].type w.heap (rs[r].getD c (.word 0))
      have hcell : ∀ a, cellRef a t.columns[c].type (rs[r].getD c (.word 0)) ≤ w.heap.refs a :=
        fun a => (SharedTable.cellRef_le_rowsRefs a hu hrc.1 hrc.2).trans (hrows a)
      apply hw.addHandle _ _ hrefs
      · have hnext := incHandle_next ⟨t.columns[c].type, rs[r].getD c (.word 0)⟩ w.heap
        exact fresh_of_counted (v := ⟨t.columns[c].type, rs[r].getD c (.word 0)⟩) hw.fresh hnext
          hrefs hcell
      · intro hc
        rw [(isRefCounted_column _).mp hc]
        rfl
    · rw [dif_neg hrc] at hv
      cases hv
      exact hw.addHandle hw.fresh (by decide) fun a => rfl
  | clone k full =>
    obtain ⟨t, hk, hp⟩ := Option.bind_eq_some_iff.mp hp
    have ht := List.mem_of_getElem? hk
    obtain ⟨rs, hrs, hu, hrows⟩ := hw.exists_rows ht
    obtain ⟨heap, t', hclone, hlaid, hf, hrefs⟩ :=
      SharedTable.clone_exchanged t.tableIndexSet full hu hw.fresh hrows
    rw [hrs, hclone] at hp
    cases hp
    exact hw.addTable hlaid hf hrefs
  | clear k =>
    obtain ⟨t, hk, hp⟩ := Option.bind_eq_some_iff.mp hp
    have ht := List.mem_of_getElem? hk
    obtain ⟨rs, hrs, hu, hrows⟩ := hw.exists_rows ht
    obtain ⟨heap, t', hclear, hex, -⟩ :=
      SharedTable.clear_exchanged t.tableIndexSet hu hw.fresh hrows
    rw [hrs, hclear] at hp
    cases hp
    rw [← hrs] at hex
    exact hw.setTable hk hex

theorem exact_empty : Exact empty := by
  refine ⟨?_, fun _ _ => rfl, ?_, fun _ => rfl⟩
  · intro t ht
    cases ht
  · intro v hv
    cases hv

end World

/-- **Counts are exact** in every state a program reaches whose `SetRow` calls supply all
string columns; with every table cleared only the handles of the program are counted. -/
theorem counts_exact (statements : List Statement)
    (hallowed : Runs.AllSteps Statement.perform Statement.Allowed statements World.empty)
    (hstrings : Runs.AllSteps Statement.perform Statement.SuppliesStrings statements World.empty)
    {flags : List Bool} {w : World}
    (hrun : Runs.run Statement.perform statements World.empty = some (flags, w)) :
    (∀ a, w.heap.refs a = w.tableRefs a + w.handleRefs a) ∧
      ((∀ t ∈ w.tables, t.rows = 0) → ∀ a, w.heap.refs a = w.handleRefs a) := by
  have hw : w.Exact := Runs.invariant_of_run (P := World.Exact)
    (C := fun s w => Statement.Allowed s w ∧ Statement.SuppliesStrings s w)
    (fun s w b w' hw hC hp => hw.step hC.1 hC.2 hp) World.exact_empty (hallowed.and hstrings) hrun
  refine ⟨hw.counts, fun hclear a => ?_⟩
  have hzero : w.tableRefs a = 0 := by
    refine List.sum_eq_zero fun n hn => ?_
    obtain ⟨t, ht, rfl⟩ := List.mem_map.mp hn
    simp [SharedTable.cellRefs, hclear t ht]
  rw [hw.counts a, hzero, Nat.zero_add]

def tidyStatements : List Statement :=
  [.createTable (ascii "s,u"), .newString (ascii "a"),
    .action 0 (.call (.appendRow (fun _ => 0) [stringArg 0 (ascii "a")])), .clone 0 true,
    .clone 0 false,
    .action 0 (.call (.setRow (fun _ => 0) 0 [stringArg 0 (ascii "a"), stringArg 0 (ascii "a")])),
    .getCellValue 1 0 0, .clear 0, .clear 1, .clear 2]

theorem counts_exact_sample : ∃ flags w,
    Runs.run Statement.perform tidyStatements World.empty = some (flags, w) ∧
      w.heap.refs 0 = 1 ∧ ∀ a, w.heap.refs a = w.handleRefs a := by
  obtain ⟨flags, w, hrun⟩ : ∃ flags w,
      Runs.run Statement.perform tidyStatements World.empty = some (flags, w) := ⟨_, _, rfl⟩
  have hexact := counts_exact tidyStatements
    (.cons trivial rfl
      (.cons trivial rfl (.cons ⟨by decide, fun _ _ => trivial⟩ rfl (.cons trivial rfl
      (.cons trivial rfl
        (.cons ⟨by decide, fun _ _ => trivial⟩ rfl (.cons trivial rfl (.cons trivial rfl
        (.cons trivial rfl (.cons trivial rfl trivial))))))))))
    (.cons trivial rfl (.cons trivial rfl (.cons trivial rfl (.cons trivial rfl (.cons trivial rfl
      (.cons (by rintro t ht -; cases ht; decide) rfl (.cons trivial rfl (.cons trivial rfl
        (.cons trivial rfl (.cons trivial rfl trivial)))))))))) hrun
  have hends : (Runs.run Statement.perform tidyStatements World.empty).map (fun r =>
      (r.2.heap.refs 0, r.2.tables.map SharedTable.rows)) = some (1, [0, 0, 0]) := by decide
  rw [hrun] at hends
  obtain ⟨hrefs, hrows⟩ := Prod.mk.inj (Option.some.inj hends)
  refine ⟨flags, w, hrun, hrefs, hexact.2 fun t ht => ?_⟩
  have hmem : t.rows ∈ w.tables.map SharedTable.rows := List.mem_map_of_mem ht
  rw [show w.tables.map SharedTable.rows = [0, 0, 0] from hrows] at hmem
  simpa using hmem

/-- `SetRow` with one argument: the old string of the second column keeps its count. -/
def leakingStatements : List Statement :=
  [.createTable (ascii "s,u"), .newString (ascii "a"),
    .action 0 (.call (.appendRow (fun _ => 0) [stringArg 0 (ascii "a"), stringArg 0 (ascii "a")])),
    .action 0 (.call (.setRow (fun _ => 0) 0 [stringArg 0 (ascii "a")])), .clear 0, .dropHandle 0]

theorem set_row_leaks_string :
    ¬ ∀ (statements : List Statement) (flags : List Bool) (w : World),
      Runs.AllSteps Statement.perform Statement.Allowed statements World.empty →
      Runs.run Statement.perform statements World.empty = some (flags, w) →
      ∀ a, w.heap.refs a = w.tableRefs a + w.handleRefs a := by
  intro hclaim
  obtain ⟨flags, w, hrun⟩ : ∃ flags w,
      Runs.run Statement.perform leakingStatements World.empty = some (flags, w) := ⟨_, _, rfl⟩
  have hcount := hclaim leakingStatements flags w
    (.cons trivial rfl (.cons trivial rfl (.cons ⟨by decide, fun _ _ => trivial⟩ rfl
      (.cons ⟨by decide, fun _ _ => trivial⟩ rfl (.cons trivial rfl (.cons trivial rfl trivial))))))
        hrun 0
  have hends : (Runs.run Statement.perform leakingStatements World.empty).map (fun r =>
      (r.2.heap.refs 0, r.2.tableRefs 0, r.2.handleRefs 0)) = some (1, 0, 0) := by decide
  rw [hrun] at hends
  obtain ⟨hrefs, hrest⟩ := Prod.mk.inj (Option.some.inj hends)
  obtain ⟨htable, hhandle⟩ := Prod.mk.inj hrest
  dsimp only at hrefs htable hhandle
  omega

end Nkit
