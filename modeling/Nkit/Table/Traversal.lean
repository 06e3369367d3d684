import Nkit.Table.IndexRuns

/-! Iteration over an index (`TableIndex::ConstIterator`) and the lookups that return an
iterator.  A position in a container is the list of what follows it, so the end is `[]`. -/

namespace Nkit
open FlatRows OrderedMap InvertedIndex

/-- `live` says that `table_index_` is not `NULL`. -/
structure ConstIterator where
  indexIt : List (IndexKey × List ℕ)
  rowIt : List ℕ
  live : Bool
deriving DecidableEq, Repr

namespace ConstIterator

def ofIndex (indexIt : List (IndexKey × List ℕ)) : ConstIterator :=
  match indexIt with
  | e :: _ => ⟨indexIt, e.2, true⟩
  | [] => ⟨[], [], false⟩

/-- `operator++`. -/
def next (it : ConstIterator) : ConstIterator :=
  let rowIt := it.rowIt.tail
  if rowIt.isEmpty then
    match it.indexIt with
    | _ :: e :: rest => ⟨e :: rest, e.2, it.live⟩
    | _ => ⟨[], rowIt, false⟩
  else { it with rowIt }

/-- `operator==`; two end markers are equal wherever they came from. -/
def eq (lhs rhs : ConstIterator) : Bool :=
  (!rhs.live && !lhs.live) || (rhs.indexIt == lhs.indexIt && rhs.rowIt == lhs.rowIt)

/-- `operator[]`. -/
def cell (t : SharedTable) (it : ConstIterator) (colNum : ℕ) (h : StringHeap) :
    Option (Dynamic × StringHeap) :=
  match it.live, it.rowIt with
  | true, row :: _ => t.getCellValue row colNum h
  | _, _ => some (Dynamic.none, h)

/-- `for (; it != stop; ++it)`: the row numbers `operator[]` reads from.  `none` when the fuel
ran out or the iterator had no row. -/
def visit (stop : ConstIterator) : ℕ → ConstIterator → Option (List ℕ)
  | 0, _ => none
  | fuel + 1, it =>
    if it.eq stop then some []
    else
      match it.rowIt with
      | [] => none
      | row :: _ => (visit stop fuel it.next).map (row :: ·)

end ConstIterator

namespace TableIndex

def begin (x : TableIndex) : ConstIterator := .ofIndex x.indexMap

def «end» (_ : TableIndex) : ConstIterator := .ofIndex []

/-- `IndexKeyFrom`.  The outer `none` is the abort of `make_key_item`, the inner one a wrong
number of arguments. -/
def indexKeyFrom (x : TableIndex) (vargs : List Dynamic) : Option (Option IndexKey) :=
  if vargs.length < x.columnNums.length || indexKeyMaxSize < vargs.length then some none
  else (vargs.mapM fun v => makeKeyItem v.data v.type).map some

/-- A lookup: the iterator at the position `search` finds for the key. -/
def lookup (x : TableIndex) (search : IndexKey → List (IndexKey × List ℕ)) (vargs : List Dynamic) :
    Option ConstIterator :=
  if x.referToTable then do
    match ← x.indexKeyFrom vargs with
    | none => some x.end
    | some indexKey => some (.ofIndex (search indexKey))
  else some x.end

def getLower (x : TableIndex) (than : List Dynamic) : Option ConstIterator :=
  x.lookup (fun indexKey => lowerBound x.lt indexKey x.indexMap) than

def getGrater (x : TableIndex) (than : List Dynamic) : Option ConstIterator :=
  x.lookup (fun indexKey => upperBound x.lt indexKey x.indexMap) than

def getEqual (x : TableIndex) (with_ : List Dynamic) : Option ConstIterator :=
  x.lookup (fun indexKey => find x.lt indexKey x.indexMap) with_

def getGraterOrEqual (x : TableIndex) (than : List Dynamic) : Option ConstIterator := do
  let pos ← x.getEqual than
  if pos.eq x.end then x.getGrater than else some pos

def getLowerOrEqual (x : TableIndex) (than : List Dynamic) : Option ConstIterator := do
  let pos ← x.getEqual than
  if pos.eq x.end then x.getLower than else some pos

end TableIndex

namespace ConstIterator

theorem ofIndex_eq_end (m : List (IndexKey × List ℕ)) :
    (ofIndex m).eq (ofIndex []) = decide (m = []) := by
  cases m <;> simp [ofIndex, eq]

theorem visit_bucket {stop : ConstIterator} (hstop : stop = ofIndex []) (e : IndexKey × List ℕ)
    (rest : List (IndexKey × List ℕ)) {tail : List ℕ}
    (hrest : ∀ fuel, tail.length < fuel → visit stop fuel (ofIndex rest) = some tail) :
    ∀ rows, rows ≠ [] → ∀ fuel, rows.length + tail.length < fuel →
      visit stop fuel ⟨e :: rest, rows, true⟩ = some (rows ++ tail) := by
  subst hstop
  intro rows
  induction rows with
  | nil => exact fun h => absurd rfl h
  | cons row rows ih =>
    intro _ fuel hfuel
    cases fuel with
    | zero => omega
    | succ fuel =>
      have hne : (eq ⟨e :: rest, row :: rows, true⟩ (ofIndex [])) = false := by simp [eq, ofIndex]
      rw [List.length_cons] at hfuel
      rw [visit, hne, if_neg (by decide)]
      cases rows with
      | nil =>
        have hnext : next ⟨e :: rest, [row], true⟩ = ofIndex rest := by cases rest <;> rfl
        rw [hnext, hrest fuel (by omega)]
        rfl
      | cons row' rows =>
        have hnext : next ⟨e :: rest, row :: row' :: rows, true⟩ =
          ⟨e :: rest, row' :: rows, true⟩ := rfl
        rw [hnext, ih (by simp) fuel (by omega)]
        rfl

theorem visit_ofIndex {m : List (IndexKey × List ℕ)} (hne : ∀ e ∈ m, e.2 ≠ []) :
    ∀ fuel, (m.flatMap Prod.snd).length < fuel →
      visit (ofIndex []) fuel (ofIndex m) = some (m.flatMap Prod.snd) := by
  induction m with
  | nil =>
    intro fuel hfuel
    cases fuel with
    | zero => omega
    | succ fuel => rfl
  | cons e m ih =>
    intro fuel hfuel
    rw [List.flatMap_cons, List.length_append] at hfuel
    rw [List.flatMap_cons]
    exact visit_bucket rfl e m (ih fun e' he' => hne e' (List.mem_cons_of_mem _ he')) e.2
      (hne e List.mem_cons_self) fuel hfuel

end ConstIterator

/-- The contents of a key of index `x`. -/
def SharedTable.keyContents (t : SharedTable) (x : TableIndex) (key : IndexKey) : List KeyValue :=
  readKeys (x.keyTypes t.columns) key

/-- Row `i` comes before row `j`: by key, column by column in the given directions, and by
row number where the keys tie. -/
def SharedTable.rowOrder (t : SharedTable) (x : TableIndex) (directions : List Bool) (i j : ℕ) :
    Bool :=
  let ki := t.keyContents x (t.rowKey x i)
  let kj := t.keyContents x (t.rowKey x j)
  lexBefore directions ki kj || (!lexBefore directions kj ki && decide (i ≤ j))

/-- The key of row `i` does not come before `args`. -/
def SharedTable.notBefore (t : SharedTable) (x : TableIndex) (directions : List Bool)
    (args : List KeyValue) (i : ℕ) :
    Bool := !lexBefore directions (t.keyContents x (t.rowKey x i)) args

/-- The key of row `i` comes strictly after `args`. -/
def SharedTable.after (t : SharedTable) (x : TableIndex) (directions : List Bool)
    (args : List KeyValue) (i : ℕ) :
    Bool := lexBefore directions args (t.keyContents x (t.rowKey x i))

/-- Some row has the key `args`. -/
def SharedTable.hasRow (t : SharedTable) (x : TableIndex) (args : List KeyValue) : Bool :=
  (List.range t.height).any fun i => t.keyContents x (t.rowKey x i) = args

def SharedTable.rowsByKey (t : SharedTable) (x : TableIndex) (directions : List Bool) : List ℕ :=
  (List.range t.height).mergeSort (t.rowOrder x directions)

namespace TableIndex

variable {columns : List Column} {rs : List (List Data)} (xs : List TableIndex) {x : TableIndex}
  {directions : List Bool}

/-- The comparator is the lexicographic order in these directions. -/
def Ordered (columns : List Column) (x : TableIndex) (directions : List Bool) : Prop :=
  ∀ a b, x.lt a b = lexBefore directions (readKeys (x.keyTypes columns) a)
    (readKeys (x.keyTypes columns) b)

theorem Maintained.rowKey_of_key (hx : Maintained true columns rs x)
    (hu : Uniform columns.length rs) (i : ℕ) (k : IndexKey) (hk : (rs.map x.keyOf)[i]? = some k) :
    (SharedTable.ofRows columns rs xs).rowKey x i = k := by
  obtain ⟨hi, rfl⟩ := List.getElem?_eq_some_iff.mp hk
  rw [List.length_map] at hi
  rw [hx.shape.rowKey_ofRows xs hu hi, List.getElem_map]

theorem Maintained.flatMap_eq_rowsByKey (hx : Maintained true columns rs x)
    (hu : Uniform columns.length rs) (hord : Ordered columns x directions) :
    x.indexMap.flatMap Prod.snd = (SharedTable.ofRows columns rs xs).rowsByKey x directions := by
  rw [hx.seq.flatMap_eq_mergeSort hx.shape.strictWeak (hx.ascending rfl)
    (hx.rowKey_of_key xs hu), List.length_map]
  have hle : keyOrder x.lt ((SharedTable.ofRows columns rs xs).rowKey x) =
      (SharedTable.ofRows columns rs xs).rowOrder x directions := by
    funext i j
    rw [keyOrder, hord, hord]
    rfl
  rw [hle]
  rfl

theorem Maintained.visit_filter (hx : Maintained true columns rs x) (hu : Uniform columns.length rs)
    (hord : Ordered columns x directions) {p : List KeyValue → Bool} {fuel : ℕ}
    (hfuel : rs.length < fuel) :
    ConstIterator.visit x.end fuel (.ofIndex (x.indexMap.filter fun e =>
        p (readKeys (x.keyTypes columns) e.1))) =
      some (((SharedTable.ofRows columns rs xs).rowsByKey x directions).filter fun i =>
        p ((SharedTable.ofRows columns rs xs).keyContents x
          ((SharedTable.ofRows columns rs xs).rowKey x i))) := by
  have hflat := hx.seq.flatMap_filter hx.shape.strictWeak (hx.rowKey_of_key xs hu)
    (p := fun k => p (readKeys (x.keyTypes columns) k)) fun a b hab => by
      rw [(hx.shape.equiv_iff a b).mp hab]
  rw [hx.flatMap_eq_rowsByKey xs hu hord] at hflat
  have hlen : ((x.indexMap.filter fun e => p (readKeys (x.keyTypes columns) e.1)).flatMap
      Prod.snd).length ≤ rs.length := by
    rw [hflat]
    refine (List.length_filter_le _ _).trans ?_
    rw [SharedTable.rowsByKey, List.length_mergeSort, List.length_range]
    exact le_rfl
  rw [TableIndex.end, ConstIterator.visit_ofIndex _ fuel (by omega), hflat]
  · rfl
  · intro e he
    exact Indexes.entry_nonempty hx.shape.strictWeak hx.seq (List.mem_of_mem_filter he)

theorem Shape.indexKeyFrom (hx : Shape columns x) {keys : List (ℕ × ItemOrder)}
    (hcols : x.columnNums = keys.map Prod.fst) {vargs : List Dynamic}
    (hargs : vargs.map Dynamic.type = keys.map fun k => k.2.type.toDynamic) :
    x.indexKeyFrom vargs = some (some (vargs.map Dynamic.data)) := by
  have hlen : vargs.length = x.columnNums.length := by
    rw [hcols, List.length_map]
    simpa using congrArg List.length hargs
  have hitems : vargs.mapM (fun v => makeKeyItem v.data v.type) =
      some (vargs.map Dynamic.data) := by
    rw [Traverse.mapM_some_iff, List.forall₂_map_right_iff, List.forall₂_same]
    intro v hv
    have hmem : v.type ∈ keys.map fun k => k.2.type.toDynamic := hargs ▸ List.mem_map_of_mem hv
    obtain ⟨k, -, hk⟩ := List.mem_map.mp hmem
    rw [← hk, makeKeyItem_column]
  have hcond : (decide (vargs.length < x.columnNums.length) ||
      decide (indexKeyMaxSize < vargs.length)) = false := by
    have := hx.size
    simp only [Bool.or_eq_false_iff, decide_eq_false_iff_not]
    omega
  rw [TableIndex.indexKeyFrom, hcond, hitems]
  rfl

theorem lookup_eq (hrefer : x.referToTable = true) {vargs : List Dynamic} {key : IndexKey}
    (hkey : x.indexKeyFrom vargs = some (some key)) (search : IndexKey → List (IndexKey × List ℕ)) :
    x.lookup search vargs = some (.ofIndex (search key)) := by
  rw [lookup, if_pos hrefer, hkey]
  rfl

section
variable (hx : Maintained true columns rs x) (hu : Uniform columns.length rs)
  (hord : Ordered columns x directions) (hrefer : x.referToTable = true) {vargs : List Dynamic}
  {key : IndexKey} (hkey : x.indexKeyFrom vargs = some (some key)) {fuel : ℕ}
  (hfuel : rs.length < fuel)
include hx hu

theorem hasRow_iff (key : IndexKey) :
    (SharedTable.ofRows columns rs xs).hasRow x (readKeys (x.keyTypes columns) key) = true ↔
    ∃ e ∈ x.indexMap, equiv x.lt key e.1 = true := by
  simp only [SharedTable.hasRow, List.any_eq_true, List.mem_range, decide_eq_true_eq]
  constructor
  · rintro ⟨i, hi, hcontents⟩
    have hi' : i < rs.length := hi
    have hmem := hx.mem_bucket hi'
    obtain ⟨k', hk', he⟩ := (get?_eq_some_iff hx.shape.strictWeak hx.seq.sorted).mp
      (get?_of_mem_bucket hmem)
    refine ⟨_, he, ?_⟩
    rw [hx.shape.rowKey_ofRows xs hu hi'] at hcontents
    rw [equiv_left_congr hx.shape.strictWeak ((hx.shape.equiv_iff _ _).mpr hcontents.symm)]
    exact hk'
  · rintro ⟨e, he, heq⟩
    obtain ⟨i, hi⟩ := List.exists_mem_of_ne_nil _
      (Indexes.entry_nonempty hx.shape.strictWeak hx.seq he)
    obtain ⟨hlt, hkey⟩ := (hx.mem_entry xs hu he i).mp hi
    exact ⟨i, hlt, hkey.trans ((hx.shape.equiv_iff _ _).mp heq).symm⟩

include hord hfuel

theorem visit_lowerBound :
    ConstIterator.visit x.end fuel (.ofIndex (lowerBound x.lt key x.indexMap)) =
    some (((SharedTable.ofRows columns rs xs).rowsByKey x directions).filter
      ((SharedTable.ofRows columns rs xs).notBefore x directions
        (readKeys (x.keyTypes columns) key))) := by
  have hpos : lowerBound x.lt key x.indexMap = x.indexMap.filter fun e =>
      !lexBefore directions (readKeys (x.keyTypes columns) e.1)
        (readKeys (x.keyTypes columns) key) := by
    rw [lowerBound_eq_filter hx.shape.strictWeak hx.seq.sorted]
    exact List.filter_congr fun e _ => by rw [hord]
  rw [hpos]
  exact hx.visit_filter xs hu hord
    (p := fun k => !lexBefore directions k (readKeys (x.keyTypes columns) key)) hfuel

include hrefer hkey

theorem visit_getGrater :
    ∃ it, x.getGrater vargs = some it ∧ ConstIterator.visit x.end fuel it =
      some (((SharedTable.ofRows columns rs xs).rowsByKey x directions).filter
        ((SharedTable.ofRows columns rs xs).after x directions
          (readKeys (x.keyTypes columns) key))) := by
  refine ⟨_, lookup_eq hrefer hkey _, ?_⟩
  have hpos : upperBound x.lt key x.indexMap = x.indexMap.filter fun e =>
      lexBefore directions (readKeys (x.keyTypes columns) key)
        (readKeys (x.keyTypes columns) e.1) := by
    rw [upperBound_eq_filter hx.shape.strictWeak hx.seq.sorted]
    exact List.filter_congr fun e _ => hord _ _
  rw [hpos]
  exact hx.visit_filter xs hu hord
    (p := fun k => lexBefore directions (readKeys (x.keyTypes columns) key) k)
    hfuel

theorem visit_getEqual :
    ∃ it, x.getEqual vargs = some it ∧ ConstIterator.visit x.end fuel it =
      some (if (SharedTable.ofRows columns rs xs).hasRow x (readKeys (x.keyTypes columns) key) then
        ((SharedTable.ofRows columns rs xs).rowsByKey x directions).filter
          ((SharedTable.ofRows columns rs xs).notBefore x directions
            (readKeys (x.keyTypes columns) key))
        else []) ∧
      it.eq x.end = !(SharedTable.ofRows columns rs xs).hasRow x
        (readKeys (x.keyTypes columns) key) := by
  refine ⟨_, lookup_eq hrefer hkey _, ?_⟩
  have hrow := hasRow_iff xs hx hu key
  rcases find_eq hx.shape.strictWeak hx.seq.sorted key with ⟨hfind, hne, hex⟩ | ⟨hfind, hnone⟩
  · rw [hrow.mpr hex, if_pos rfl, TableIndex.end, ConstIterator.ofIndex_eq_end,
      decide_eq_false hne, hfind]
    exact ⟨visit_lowerBound xs hx hu hord hfuel, rfl⟩
  · have hfalse : (SharedTable.ofRows columns rs xs).hasRow x (readKeys (x.keyTypes columns) key) =
        false := by
      rw [← Bool.not_eq_true, hrow]
      rintro ⟨e, he, heq⟩
      rw [hnone e he] at heq
      cases heq
    rw [hfalse, if_neg (by decide), hfind, TableIndex.end, ConstIterator.ofIndex_eq_end]
    refine ⟨ConstIterator.visit_ofIndex (by simp) fuel ?_, rfl⟩
    exact Nat.zero_lt_of_lt hfuel

theorem visit_getGraterOrEqual :
    ∃ it, x.getGraterOrEqual vargs = some it ∧ ConstIterator.visit x.end fuel it =
      some (((SharedTable.ofRows columns rs xs).rowsByKey x directions).filter
        ((SharedTable.ofRows columns rs xs).notBefore x directions
          (readKeys (x.keyTypes columns) key))) := by
  obtain ⟨it, hit, hvisit, hend⟩ := visit_getEqual xs hx hu hord hrefer hkey hfuel
  rw [getGraterOrEqual, hit]
  simp only [Option.bind_eq_bind, Option.bind_some, hend]
  cases hrow : (SharedTable.ofRows columns rs xs).hasRow x (readKeys (x.keyTypes columns) key) with
  | true =>
    refine ⟨it, rfl, ?_⟩
    rw [hvisit, hrow, if_pos rfl]
  | false =>
    obtain ⟨it', hit', hvisit'⟩ := visit_getGrater xs hx hu hord hrefer hkey hfuel
    refine ⟨it', hit', ?_⟩
    rw [hvisit']
    refine congrArg some (List.filter_congr fun i hi => ?_)
    -- no row ties with the arguments, so not before them means after them
    have hi' : i < (SharedTable.ofRows columns rs xs).height := by
      simpa [SharedTable.rowsByKey] using hi
    have htie : equiv x.lt key ((SharedTable.ofRows columns rs xs).rowKey x i) = false := by
      rw [← Bool.not_eq_true, hx.shape.equiv_iff]
      intro heq
      have htrue : (SharedTable.ofRows columns rs xs).hasRow x
          (readKeys (x.keyTypes columns) key) = true := by
        simp only [SharedTable.hasRow, List.any_eq_true, List.mem_range, decide_eq_true_eq]
        exact ⟨i, hi', heq.symm⟩
      rw [hrow] at htrue
      cases htrue
    have hasymm := hx.shape.strictWeak.asymm (a := key)
      (b := (SharedTable.ofRows columns rs xs).rowKey x i)
    have hafter : (SharedTable.ofRows columns rs xs).after x directions
      (readKeys (x.keyTypes columns) key) i =
        x.lt key ((SharedTable.ofRows columns rs xs).rowKey x i) := (hord _ _).symm
    have hnot : (SharedTable.ofRows columns rs xs).notBefore x directions
        (readKeys (x.keyTypes columns) key) i =
          !x.lt ((SharedTable.ofRows columns rs xs).rowKey x i) key :=
      congrArg not (hord _ _).symm
    rw [hafter, hnot]
    unfold equiv at htie
    cases hlt : x.lt key ((SharedTable.ofRows columns rs xs).rowKey x i) with
    | true => rw [hasymm hlt]; rfl
    | false => simpa [hlt] using htie.symm

end

theorem define_ordered {indexDefinition : Bytes} {keys : List (ℕ × ItemOrder)}
    (hplain : PlainIndex columns indexDefinition)
    (hkeys : keyColumns columns indexDefinition = .ok keys)
    (h : define columns indexDefinition = .ok x) :
    x.columnNums = keys.map Prod.fst ∧ Ordered columns x (keys.map fun k => k.2.descending) := by
  obtain ⟨keys', hkeys', hcols, hcmp, -⟩ := define_ok h
  cases hkeys.symm.trans hkeys'
  refine ⟨hcols, ?_⟩
  have hlt : x.lt = itemsBefore (keys.map Prod.snd) := by
    refine getComparator_lt ?_ hcmp
    intro o ho
    obtain ⟨k, hk, rfl⟩ := List.mem_map.mp ho
    rcases (hplain keys hkeys).2 k hk with hk | hk | hk <;> rw [hk] <;> decide
  intro a b
  rw [hlt, itemsBefore_eq_lex, ← keyTypes_eq hcols (keyColumns_ok hkeys), List.map_map]
  rfl

end TableIndex

/-- **Traversals of an index.**  From `begin()` to `end()` every row is visited once, in the
order of the keys; the lookups start the same traversal at the first row that qualifies. -/
theorem index_traversal {t : SharedTable} (ht : t.Sound) {indexDefinition : Bytes}
    (hplain : PlainIndex t.columns indexDefinition) {keys : List (ℕ × ItemOrder)}
    (hkeys : TableIndex.keyColumns t.columns indexDefinition = .ok keys) {built x : TableIndex}
    (hcreate : TableIndex.create t indexDefinition = some (.ok built))
    (hx : x = built.notifyReferToTable true) {directions : List Bool}
    (hdir : directions = keys.map fun k => k.2.descending) {fuel : ℕ} (hfuel : t.height < fuel) :
    ConstIterator.visit x.end fuel x.begin = some (t.rowsByKey x directions) ∧
    ∀ vargs args, vargs.map Dynamic.type = (keys.map fun k => k.2.type.toDynamic) →
      args = t.keyContents x (vargs.map Dynamic.data) →
      (∃ it, x.getEqual vargs = some it ∧ ConstIterator.visit x.end fuel it =
        some (if t.hasRow x args then (t.rowsByKey x directions).filter
          (t.notBefore x directions args)
          else [])) ∧
      (∃ it, x.getGrater vargs = some it ∧ ConstIterator.visit x.end fuel it =
        some ((t.rowsByKey x directions).filter (t.after x directions args))) ∧
      (∃ it, x.getGraterOrEqual vargs = some it ∧ ConstIterator.visit x.end fuel it =
        some ((t.rowsByKey x directions).filter (t.notBefore x directions args))) := by
  obtain ⟨rs, x₀, hrs, hu, hdef, hcols', hcmp', hmaint⟩ :=
    TableIndex.create_maintained ht.toLaid hplain true hcreate
  obtain ⟨hcols, hord⟩ := TableIndex.define_ordered hplain hkeys hdef
  have hmx : TableIndex.Maintained true t.columns rs x := hx ▸ hmaint.withRefer true
  have hrefer : x.referToTable = true := hx ▸ rfl
  have hxcols : x.columnNums = keys.map Prod.fst := by
    rw [hx, ← hcols, ← hcols']
    rfl
  have hxord : TableIndex.Ordered t.columns x directions := by
    rw [hx, hdir]
    intro a b
    have hab := hord a b
    rw [TableIndex.keyTypes, ← hcols', TableIndex.lt, ← hcmp'] at hab
    exact hab
  have hlen : rs.length < fuel := by
    rw [hrs] at hfuel
    exact hfuel
  rw [hrs]
  refine ⟨?_, ?_⟩
  · -- the entries in key order, each with its rows, are the rows sorted by key
    have hflat := hmx.flatMap_eq_rowsByKey t.tableIndexSet hu hxord
    rw [← hflat]
    refine ConstIterator.visit_ofIndex
      (fun e he => InvertedIndex.Indexes.entry_nonempty hmx.shape.strictWeak hmx.seq he) fuel ?_
    rw [hflat, SharedTable.rowsByKey, List.length_mergeSort, List.length_range]
    exact hlen
  · intro vargs args hvargs hargs
    have hkey := hmx.shape.indexKeyFrom hxcols hvargs
    subst hargs
    refine ⟨?_, TableIndex.visit_getGrater _ hmx hu hxord hrefer hkey hlen,
      TableIndex.visit_getGraterOrEqual _ hmx hu hxord hrefer hkey hlen⟩
    obtain ⟨it, hit, hvisit, -⟩ := TableIndex.visit_getEqual _ hmx hu hxord hrefer hkey hlen
    exact ⟨it, hit, hvisit⟩

def traversalTable : SharedTable :=
  .ofRows sampleColumns [[.word 5, .str ⟨0, ascii "b"⟩], [.word 7, .str ⟨1, ascii "a"⟩],
    [.word 5, .str ⟨2, ascii "b"⟩]] []

def traversalIndex : TableIndex :=
  ⟨[0, 1], ⟨[⟨[⟨.integer, true⟩, ⟨.string, false⟩]⟩]⟩,
    [([.word 7, .str ⟨1, ascii "a"⟩], [1]), ([.word 5, .str ⟨0, ascii "b"⟩], [0, 2])], false⟩

theorem index_traversal_sample :
    traversalTable.rowsByKey (traversalIndex.notifyReferToTable true) [true, false] = [1, 0, 2] ∧
    ∃ it, (traversalIndex.notifyReferToTable true).getGrater
        [⟨.integer, .word 7⟩, ⟨.string, .str ⟨3, ascii "a"⟩⟩] = some it ∧
      ConstIterator.visit (traversalIndex.notifyReferToTable true).end 4 it = some
        ((traversalTable.rowsByKey (traversalIndex.notifyReferToTable true) [true, false]).filter
          (traversalTable.after (traversalIndex.notifyReferToTable true) [true, false]
            [.int 7, .text (ascii "a")])) := by
  have hcreate : TableIndex.create traversalTable (ascii "-n,s") = some (.ok traversalIndex) := by
    decide
  obtain ⟨hall, hlookup⟩ := index_traversal (t := traversalTable) ⟨⟨rfl, rfl⟩, by decide⟩
    plainIndex_sample keyColumns_sample hcreate rfl rfl (by decide : traversalTable.height < 4)
  have hvisit : ConstIterator.visit (traversalIndex.notifyReferToTable true).end 4
      (traversalIndex.notifyReferToTable true).begin = some [1, 0, 2] := rfl
  refine ⟨Option.some.inj (hall.symm.trans hvisit), ?_⟩
  exact (hlookup [⟨.integer, .word 7⟩, ⟨.string, .str ⟨3, ascii "a"⟩⟩] _ rfl rfl).2.1

end Nkit
