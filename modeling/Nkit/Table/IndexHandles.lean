import Nkit.Table.KeyStrings
import Nkit.Table.Traversal

/-! The handles of the indices of a table over whole runs.  Between the calls that change rows a
caller creates and deletes indices, and keeps every handle. -/

namespace Nkit
open FlatRows OrderedMap

/-- A table and the handles of its indices.  `subscribed` are the handles of `tableIndexSet`, in its
order; `definitions` is what each handle was created with. -/
structure IndexedTable where
  heap : StringHeap
  table : SharedTable
  definitions : List Bytes
  subscribed : List ℕ
  unsubscribed : List (ℕ × TableIndex)

namespace IndexedTable

def indices (s : IndexedTable) : List (ℕ × TableIndex) := s.subscribed.zip s.table.tableIndexSet

def index (s : IndexedTable) (handle : ℕ) : Option TableIndex :=
  (s.indices ++ s.unsubscribed).lookup handle

/-- `UnSubscribe` of these handles. -/
def unSubscribe (gone : ℕ → Bool) (s : IndexedTable) : IndexedTable :=
  let kept := s.indices.filter fun i => !gone i.1
  { s with
    table := { s.table with tableIndexSet := kept.map Prod.snd }
    subscribed := kept.map Prod.fst
    unsubscribed :=
      (s.indices.filter fun i => gone i.1).map (fun i => (i.1, i.2.notifyReferToTable false)) ++
      s.unsubscribed }

def start (heap : StringHeap) (table : SharedTable) : IndexedTable := ⟨heap, table, [], [], []⟩

end IndexedTable

inductive IndexAction where
  | call (call : Call)
  | createIndex (indexDefinition : Bytes)
  | deleteIndex (handle : ℕ)
  | deleteAllIndices

def IndexAction.perform : IndexAction → IndexedTable → Option (Bool × IndexedTable)
  | call c, s => do
    let (b, heap, table) ← c.perform (s.heap, s.table)
    some (b, { s with heap, table })
  | createIndex indexDefinition, s =>
    match s.table.createIndex indexDefinition with
    | none => none
    | some (.error _) => some (false, s)
    | some (.ok table) =>
      some (true, { s with
        table
        definitions := s.definitions ++ [indexDefinition]
        subscribed := s.subscribed ++ [s.definitions.length] })
  | deleteIndex handle, s => some (true, s.unSubscribe (· == handle))
  | deleteAllIndices, s => some (true, s.unSubscribe fun _ => true)

/-- A row is appended, inserted or deleted, an index over plain columns is created, or indices are
deleted. -/
def IndexAction.Splices (columns : List Column) : IndexAction → Prop
  | call c => c.Splices
  | createIndex indexDefinition => PlainIndex columns indexDefinition
  | deleteIndex _ | deleteAllIndices => True

/-- Deleted indices compare no keys, so only the rows that go matter. -/
def IndexAction.Retains : IndexAction → IndexedTable → Prop
  | call c, s => c.Retains (s.heap, s.table)
  | createIndex _, _ | deleteIndex _, _ | deleteAllIndices, _ => True

namespace TableIndex

/-- The lookups find nothing. -/
def Silent (x : TableIndex) : Prop :=
  ∀ vargs, x.getEqual vargs = some x.end ∧ x.getGrater vargs = some x.end ∧
    x.getGraterOrEqual vargs = some x.end ∧
    x.getLower vargs = some x.end ∧ x.getLowerOrEqual vargs = some x.end

/-- The traversal and the lookups are those of the rows of the table, in the order of the
definition. -/
def Answers (t : SharedTable) (indexDefinition : Bytes) (x : TableIndex) : Prop :=
  ∃ keys directions, keyColumns t.columns indexDefinition = .ok keys ∧
    directions = keys.map (fun k => k.2.descending) ∧
    x.columnNums = keys.map Prod.fst ∧ ∀ fuel, t.height < fuel →
      ConstIterator.visit x.end fuel x.begin = some (t.rowsByKey x directions) ∧
      ∀ vargs args, vargs.map Dynamic.type = keys.map (fun k => k.2.type.toDynamic) →
        args = t.keyContents x (vargs.map Dynamic.data) →
        (∃ it, x.getEqual vargs = some it ∧ ConstIterator.visit x.end fuel it =
          some (if t.hasRow x args then (t.rowsByKey x directions).filter
            (t.notBefore x directions args) else [])) ∧
        (∃ it, x.getGrater vargs = some it ∧ ConstIterator.visit x.end fuel it =
          some ((t.rowsByKey x directions).filter (t.after x directions args))) ∧
        (∃ it, x.getGraterOrEqual vargs = some it ∧ ConstIterator.visit x.end fuel it =
          some ((t.rowsByKey x directions).filter (t.notBefore x directions args)))

theorem silent_of_unsubscribed {x : TableIndex} (h : x.referToTable = false) : x.Silent := by
  have hlookup : ∀ search vargs, x.lookup search vargs = some x.end := fun search vargs => by
    rw [lookup, h]
    rfl
  intro vargs
  have hequal : x.getEqual vargs = some x.end := hlookup _ _
  refine ⟨hequal, hlookup _ _, ?_, hlookup _ _, ?_⟩
  · rw [getGraterOrEqual, hequal]
    simp only [Option.bind_eq_bind, Option.bind_some, getGrater, hlookup, ite_self]
  · rw [getLowerOrEqual, hequal]
    simp only [Option.bind_eq_bind, Option.bind_some, getLower, hlookup, ite_self]

structure Serves (columns : List Column) (rs : List (List Data)) (indexDefinition : Bytes)
    (x : TableIndex) : Prop where
  maintained : Maintained true columns rs x
  subscribed : x.referToTable = true
  defined : ∃ x₀, define columns indexDefinition = .ok x₀ ∧ x.columnNums = x₀.columnNums ∧
    x.cmp = x₀.cmp
  plain : PlainIndex columns indexDefinition

variable {columns : List Column} {rs rs' : List (List Data)} {indexDefinition : Bytes}
  {x x' : TableIndex}

theorem Serves.answers (hx : Serves columns rs indexDefinition x) (hu : Uniform columns.length rs)
    (xs : List TableIndex) :
    Answers (.ofRows columns rs xs) indexDefinition x := by
  obtain ⟨x₀, hdef, hnums, hcmp⟩ := hx.defined
  obtain ⟨keys, hkeys, -⟩ := define_ok hdef
  obtain ⟨hcols, hord⟩ := define_ordered hx.plain hkeys hdef
  have hord' : Ordered columns x (keys.map fun k => k.2.descending) := by
    intro a b
    have hab := hord a b
    rwa [keyTypes, ← hnums, lt, ← hcmp] at hab
  refine ⟨keys, _, hkeys, rfl, hnums.trans hcols, fun fuel hfuel => ⟨?_, ?_⟩⟩
  · have hflat := hx.maintained.flatMap_eq_rowsByKey xs hu hord'
    rw [← hflat]
    refine ConstIterator.visit_ofIndex
      (fun e he => InvertedIndex.Indexes.entry_nonempty hx.maintained.shape.strictWeak
        hx.maintained.seq he) fuel ?_
    rw [hflat, SharedTable.rowsByKey, List.length_mergeSort, List.length_range]
    exact hfuel
  · rintro vargs _ hvargs rfl
    have hkey := hx.maintained.shape.indexKeyFrom (hnums.trans hcols) hvargs
    obtain ⟨it, hit, hvisit, -⟩ := visit_getEqual xs hx.maintained hu hord' hx.subscribed hkey hfuel
    exact ⟨⟨it, hit, hvisit⟩, visit_getGrater xs hx.maintained hu hord' hx.subscribed hkey hfuel,
      visit_getGraterOrEqual xs hx.maintained hu hord' hx.subscribed hkey hfuel⟩

theorem notifyRowInsert_keeps {data : List Data} {r : ℕ} {incremental : Bool}
    (h : x.notifyRowInsert data r incremental = some x') :
    ∃ m, x' = x.withMap m := by
  obtain ⟨key, -, hx'⟩ := Option.bind_eq_some_iff.mp h
  exact ⟨_, (Option.some.inj hx').symm⟩

theorem notifyRowDelete_keeps {data : List Data} {r : ℕ} {incremental : Bool}
    (h : x.notifyRowDelete data r incremental = some x') :
    ∃ m, x' = x.withMap m := by
  obtain ⟨key, -, hx'⟩ := Option.bind_eq_some_iff.mp h
  obtain ⟨rows, -, hx'⟩ := Option.bind_eq_some_iff.mp hx'
  by_cases hr : r ∈ rows
  · rw [if_pos hr] at hx'
    exact ⟨_, (Option.some.inj hx').symm⟩
  · rw [if_neg hr] at hx'
    cases hx'

theorem Serves.next (hx : Serves columns rs indexDefinition x) {f : TableIndex → Option TableIndex}
    (hf : ∃ x', f x = some x' ∧ Maintained true columns rs' x')
    (hkeeps : ∀ x', f x = some x' → ∃ m, x' = x.withMap m) :
    ∃ x', f x = some x' ∧ Serves columns rs' indexDefinition x' := by
  obtain ⟨x', hx', hmaintained⟩ := hf
  obtain ⟨m, rfl⟩ := hkeeps x' hx'
  exact ⟨_, hx', hmaintained, hx.subscribed, hx.defined, hx.plain⟩

end TableIndex

section
variable {columns : List Column} {rs : List (List Data)}

theorem Call.splice_ofRows (hw : 0 < columns.length) (hu : Uniform columns.length rs) {c : Call}
    (hc : c.Splices) (h : StringHeap) :
    ∃ (b : Bool) (h' : StringHeap) (rs' : List (List Data)) (f : TableIndex → Option TableIndex),
      Uniform columns.length rs' ∧
      (∀ d x, x.Serves columns rs d → ∃ x', f x = some x' ∧ x'.Serves columns rs' d) ∧
      ∀ xs, c.perform (h, .ofRows columns rs xs) = (xs.mapM f).bind fun xs =>
        some (b, h', .ofRows columns rs' xs) := by
  have hsame : ∀ xs : List TableIndex, (xs.mapM some : Option (List TableIndex)) = some xs :=
    fun xs => by
    rw [Traverse.mapM_some_iff]
    exact List.forall₂_same.mpr fun _ _ => rfl
  have hnone : ∀ xs : List TableIndex, some (false, h, SharedTable.ofRows columns rs xs) =
      (xs.mapM some).bind fun xs => some (false, h, SharedTable.ofRows columns rs xs) :=
        fun xs => by
    rw [hsame]
    rfl
  have hnew := fun now => SharedTable.newRow_length now columns
  cases c with
  | appendRow now vargs =>
    by_cases hv : SharedTable.validateArgs columns vargs = true
    · refine ⟨true, (SharedTable.insertCells now 0 columns vargs h).2, _,
        TableIndex.notifyRowInsert (SharedTable.newRow now columns vargs h) rs.length false,
          hu.append (hnew now vargs h), fun d x hx => ?_, fun xs => ?_⟩
      · exact hx.next (hx.maintained.appendRow _) fun _ => TableIndex.notifyRowInsert_keeps
      · rw [Call.perform, SharedTable.appendRow_ofRows, if_pos hv]
    · refine ⟨false, h, rs, some, hu, fun d x hx => ⟨x, rfl, hx⟩, fun xs => ?_⟩
      rw [Call.perform, SharedTable.appendRow_ofRows, if_neg hv, hnone]
  | insertRow now r vargs =>
    by_cases hv : r < rs.length ∧ SharedTable.validateArgs columns vargs = true
    · refine ⟨true, (SharedTable.insertCells now 0 columns vargs h).2, _,
        TableIndex.notifyRowInsert (SharedTable.newRow now columns vargs h) r true,
          hu.insertIdx (hnew now vargs h) r, fun d x hx => ?_, fun xs => ?_⟩
      · exact hx.next (hx.maintained.insertRow hv.1 (fun e he => hx.maintained.partitioned r he) _)
          fun _ => TableIndex.notifyRowInsert_keeps
      · rw [Call.perform, SharedTable.insertRow_ofRows xs hw hu, if_pos hv]
    · refine ⟨false, h, rs, some, hu, fun d x hx => ⟨x, rfl, hx⟩, fun xs => ?_⟩
      rw [Call.perform, SharedTable.insertRow_ofRows xs hw hu, if_neg hv, hnone]
  | deleteRow r =>
    by_cases hr : r < rs.length
    · refine ⟨true, SharedTable.releaseCells columns (rs.drop r).flatten h, _,
        TableIndex.notifyRowDelete (rs.drop r).flatten r true, hu.eraseIdx r, fun d x hx => ?_,
          fun xs => ?_⟩
      · exact hx.next
          (hx.maintained.deleteRow hu hr fun e he => (hx.maintained.partitioned r he).sublist
            List.erase_sublist)
          fun _ => TableIndex.notifyRowDelete_keeps
      · rw [Call.perform, SharedTable.deleteRow_ofRows xs hw hu, if_pos hr]
    · refine ⟨false, h, rs, some, hu, fun d x hx => ⟨x, rfl, hx⟩, fun xs => ?_⟩
      rw [Call.perform, SharedTable.deleteRow_ofRows xs hw hu, if_neg hr, hnone]
  | setRow | setCellValue => exact hc.elim

end

/-- The rows of the table, whose indices are served under their handles; the other handles point to
indices that are no longer subscribed. -/
structure IndexedTable.Kept (columns : List Column) (s : IndexedTable) : Prop where
  table : ∃ rs xs, s.table = .ofRows columns rs xs ∧ Uniform columns.length rs ∧
    List.Forall₂ (fun handle x => ∃ d, s.definitions[handle]? = some d ∧ x.Serves columns rs d)
      s.subscribed xs
  silent : ∀ i ∈ s.unsubscribed, i.2.referToTable = false
  known : ∀ handle < s.definitions.length, handle ∈ s.subscribed ∨
    handle ∈ s.unsubscribed.map Prod.fst
  keys : KeysKept columns (s.heap, s.table)

namespace IndexedTable
variable {columns : List Column} {s : IndexedTable}

theorem Kept.indices_of_table (hk : s.Kept columns) :
    ∃ rs, (∃ xs, s.table = .ofRows columns rs xs) ∧ Uniform columns.length rs ∧
      s.indices.map Prod.fst = s.subscribed ∧
      ∀ i ∈ s.indices, ∃ d, s.definitions[i.1]? = some d ∧ i.2.Serves columns rs d := by
  obtain ⟨rs, xs, htable, hu, hserves⟩ := hk.table
  have hxs : s.table.tableIndexSet = xs := by
    rw [htable]
    rfl
  refine ⟨rs, ⟨xs, htable⟩, hu, ?_, fun i hi => ?_⟩
  · rw [indices, hxs, List.map_fst_zip hserves.length_eq.le]
  · rw [indices, hxs] at hi
    exact List.forall₂_zip hserves hi

theorem Kept.call (hw : 0 < columns.length) (hk : s.Kept columns) {c : Call} (hc : c.Splices)
    (hret : c.Retains (s.heap, s.table)) :
    ∃ b s', (IndexAction.call c).perform s = some (b, s') ∧ s'.Kept columns := by
  obtain ⟨rs, xs, htable, hu, hserves⟩ := hk.table
  obtain ⟨b, h', rs', f, hu', hf, hperform⟩ := c.splice_ofRows hw hu hc s.heap
  obtain ⟨xs', hxs', hserves'⟩ := Traverse.forall₂_mapM_right
    (S := fun handle x => ∃ d, s.definitions[handle]? = some d ∧ x.Serves columns rs' d) hserves
      (f := f) (by
      rintro handle x ⟨d, hd, hx⟩
      obtain ⟨x', hx', hnext⟩ := hf d x hx
      exact ⟨x', hx', d, hd, hnext⟩)
  have hcall : c.perform (s.heap, s.table) = some (b, h', .ofRows columns rs' xs') := by
    rw [htable, hperform, hxs']
    rfl
  refine ⟨b, { s with heap := h', table := .ofRows columns rs' xs' }, ?_,
    ⟨rs', xs', rfl, hu', hserves'⟩, hk.silent, hk.known,
      hk.keys.call hw c (hc.inRange _) hret hcall⟩
  rw [IndexAction.perform, hcall]
  rfl

theorem Kept.createIndex (hk : s.Kept columns) {indexDefinition : Bytes}
    (hplain : PlainIndex columns indexDefinition) :
    ∃ b s', (IndexAction.createIndex indexDefinition).perform s = some (b, s') ∧
      s'.Kept columns := by
  obtain ⟨rs, xs, htable, hu, hserves⟩ := hk.table
  have hkeys : ∀ table, s.table.createIndex indexDefinition = some (.ok table) →
      KeysKept columns (s.heap, table) :=
    fun table hok => hk.keys.createIndex hplain (b := true) (by rw [Action.perform, hok])
  rw [htable] at hkeys
  have hrows : (SharedTable.ofRows columns rs xs).rows = rs.length := rfl
  have hcols : (SharedTable.ofRows columns rs xs).columns = columns := rfl
  rw [IndexAction.perform, htable, SharedTable.createIndex, TableIndex.create, hcols, hrows]
  cases hdef : TableIndex.define columns indexDefinition with
  | error e => exact ⟨false, s, rfl, hk⟩
  | ok x =>
    obtain ⟨hshape, hmap⟩ := TableIndex.define_shape hplain hdef
    obtain ⟨x', hbuild, hnums, hcmp, hx', -⟩ :=
      TableIndex.buildIndex_maintained hshape hmap hu xs true
    simp only [SharedTable.createIndex, TableIndex.create, hcols, hrows, hdef, hbuild,
      Option.map_some, Except.map] at hkeys ⊢
    refine ⟨true, _, rfl, ⟨rs, _, rfl, hu, ?_⟩, hk.silent, fun handle hhandle => ?_, hkeys _ rfl⟩
    · refine List.rel_append ?_
        (.cons ⟨indexDefinition, ?_, hx'.withRefer true, rfl, ⟨x, hdef, hnums, hcmp⟩, hplain⟩ .nil)
      · refine hserves.imp fun handle y hy => ?_
        obtain ⟨d, hd, hserved⟩ := hy
        exact ⟨d, (List.getElem?_append_left (List.getElem?_eq_some_iff.mp hd).1).trans hd, hserved⟩
      · exact List.getElem?_concat_length
    · rw [List.length_append, List.length_singleton] at hhandle
      rcases Nat.lt_succ_iff_lt_or_eq.mp hhandle with hold | rfl
      · exact (hk.known handle hold).imp_left (List.mem_append_left _)
      · exact .inl (List.mem_append_right _ (List.mem_singleton_self _))

theorem Kept.unSubscribe (hk : s.Kept columns) (gone : ℕ → Bool) :
    (s.unSubscribe gone).Kept columns := by
  obtain ⟨rs, ⟨xs, htable⟩, hu, hsubscribed, hserves⟩ := hk.indices_of_table
  have hkept : (s.unSubscribe gone).table =
      .ofRows columns rs ((s.indices.filter fun i => !gone i.1).map Prod.snd) := by
    rw [IndexedTable.unSubscribe, htable]
    rfl
  refine ⟨⟨rs, _, hkept, hu, ?_⟩, fun i hi => ?_, fun handle hhandle => ?_, ?_⟩
  · refine List.forall₂_map_left_iff.mpr (List.forall₂_map_right_iff.mpr (List.forall₂_same.mpr ?_))
    exact fun i hi => hserves i (List.mem_of_mem_filter hi)
  · rcases List.mem_append.mp hi with hi | hi
    · obtain ⟨i, -, rfl⟩ := List.mem_map.mp hi
      rfl
    · exact hk.silent i hi
  · simp only [IndexedTable.unSubscribe, List.map_append, List.map_map, Function.comp_def,
      List.mem_append]
    rcases hk.known handle hhandle with hin | hout
    · rw [← hsubscribed] at hin
      obtain ⟨i, hi, rfl⟩ := List.mem_map.mp hin
      cases hgone : gone i.1 with
      | true =>
        exact .inr
          (.inl (List.mem_map_of_mem (f := fun i : ℕ × TableIndex => i.1)
            (List.mem_filter.mpr ⟨hi, hgone⟩)))
      | false => exact .inl (List.mem_map_of_mem (List.mem_filter.mpr ⟨hi, by rw [hgone]; rfl⟩))
    · exact .inr (.inr hout)
  · refine hk.keys.subset (fun x hx => ?_) rfl
    rw [hkept] at hx
    obtain ⟨i, hi, rfl⟩ := List.mem_map.mp hx
    exact (List.of_mem_zip (List.mem_of_mem_filter hi)).2

theorem Kept.action (hw : 0 < columns.length) (hk : s.Kept columns) {a : IndexAction}
    (ha : a.Splices columns) (hret : a.Retains s) :
    ∃ b s', a.perform s = some (b, s') ∧ s'.Kept columns := by
  cases a with
  | call c => exact hk.call hw ha hret
  | createIndex indexDefinition => exact hk.createIndex ha
  | deleteIndex handle => exact ⟨_, _, rfl, hk.unSubscribe _⟩
  | deleteAllIndices => exact ⟨_, _, rfl, hk.unSubscribe _⟩

theorem Kept.answers (hk : s.Kept columns) {handle : ℕ} (hhandle : handle < s.definitions.length) :
    ∃ x, s.index handle = some x ∧
      if handle ∈ s.subscribed then x.Answers s.table s.definitions[handle] ∧ x.KeysHeld s.table
        else x.Silent := by
  obtain ⟨rs, ⟨xs, htable⟩, hu, hsubscribed, hserves⟩ := hk.indices_of_table
  have hmem : ∀ {l : List (ℕ × TableIndex)} {x : TableIndex}, l.lookup handle = some x →
      (handle, x) ∈ l := fun h => by
    obtain ⟨before, after, rfl, -⟩ := List.lookup_eq_some_iff.mp h
    exact List.mem_append_right _ List.mem_cons_self
  have hfound : ∀ {l : List (ℕ × TableIndex)}, handle ∈ l.map Prod.fst →
      ∃ x, l.lookup handle = some x := fun h => by
    obtain ⟨i, hi, rfl⟩ := List.mem_map.mp h
    exact Option.isSome_iff_exists.mp (List.lookup_isSome_iff.mpr ⟨i, hi, beq_self_eq_true _⟩)
  rw [index, List.lookup_append]
  by_cases hin : handle ∈ s.subscribed
  · obtain ⟨x, hx⟩ := hfound (hsubscribed ▸ hin)
    obtain ⟨d, hd, hserved⟩ := hserves _ (hmem hx)
    rw [List.getElem?_eq_getElem hhandle, Option.some.injEq] at hd
    refine ⟨x, by rw [hx]; rfl, ?_⟩
    rw [if_pos hin]
    refine ⟨?_, hk.keys.held (List.of_mem_zip (hmem hx)).2⟩
    rw [htable, hd]
    exact hserved.answers hu xs
  · have hnone : s.indices.lookup handle = none := by
      rw [← hsubscribed] at hin
      rw [List.lookup_eq_none_iff]
      intro i hi
      exact bne_iff_ne.mpr fun heq => hin (List.mem_map.mpr ⟨i, hi, heq.symm⟩)
    obtain ⟨x, hx⟩ := hfound ((hk.known handle hhandle).resolve_left hin)
    refine ⟨x, by rw [hnone, hx]; rfl, ?_⟩
    rw [if_neg hin]
    exact TableIndex.silent_of_unsubscribed (hk.silent _ (hmem hx))

end IndexedTable

/-- Whatever rows are spliced and indices created and deleted, as long as no key loses its strings
every handle that was given out answers for the rows that the table has now, or finds nothing once
its index is deleted. -/
theorem handles_answer {t : SharedTable} (ht : t.Sound) (hnone : t.tableIndexSet = [])
    (h : StringHeap) (actions : List IndexAction) (hsplices : ∀ a ∈ actions, a.Splices t.columns)
    (hretain : Runs.AllSteps IndexAction.perform IndexAction.Retains actions (.start h t)) :
    ∃ flags s, Runs.run IndexAction.perform actions (.start h t) = some (flags, s) ∧
      ∀ handle (hhandle : handle < s.definitions.length), ∃ x, s.index handle = some x ∧
        if handle ∈ s.subscribed then x.Answers s.table s.definitions[handle] ∧ x.KeysHeld s.table
          else x.Silent := by
  obtain ⟨rs, hrs, hu⟩ := ht.toLaid.exists_rows
  rw [hnone] at hrs
  have hstart : (IndexedTable.start h t).Kept t.columns :=
    ⟨⟨rs, [], hrs, hu, .nil⟩, nofun, nofun, ht.keysKept hnone h⟩
  obtain ⟨flags, s, hrun, hk⟩ := Runs.run_of_allSteps
    (C := fun a s => IndexAction.Splices t.columns a ∧ IndexAction.Retains a s)
    (fun a s hk ha => hk.action ht.width_pos ha.1 ha.2) hstart
      ((Runs.allSteps_of_forall hsplices).and hretain)
  exact ⟨flags, s, hrun, fun handle hhandle => hk.answers hhandle⟩

def handleActions : List IndexAction :=
  [.createIndex (ascii "-n,s"), .call (.appendRow (fun _ => 0) [intArg 5, stringArg 0 (ascii "a")]),
    .createIndex (ascii "-n,s"), .deleteIndex 0,
    .call (.appendRow (fun _ => 0) [intArg 5, stringArg 0 (ascii "a")]), .call (.deleteRow 0)]

theorem handles_answer_sample : ∃ flags s,
    Runs.run IndexAction.perform handleActions (.start twoStrings (SharedTable.new sampleColumns)) =
      some (flags, s) ∧
      ∀ handle (hhandle : handle < s.definitions.length), ∃ x, s.index handle = some x ∧
        if handle ∈ s.subscribed then x.Answers s.table s.definitions[handle] ∧ x.KeysHeld s.table
          else x.Silent := by
  refine handles_answer sound_sample rfl twoStrings handleActions ?_ ?_
  · simp only [handleActions, List.forall_mem_cons, List.not_mem_nil, false_implies, implies_true,
      and_true]
    exact ⟨plainIndex_sample, trivial, plainIndex_sample, trivial, trivial, trivial⟩
  · exact .cons trivial rfl
      (.cons trivial rfl (.cons trivial rfl (.cons trivial rfl (.cons trivial rfl
      (.cons (fun _ => by decide +kernel) rfl trivial)))))

end Nkit
