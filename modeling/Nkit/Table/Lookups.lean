import Nkit.Table.Traversal

/-! Lookups of rows below a key.  `GetLower` starts at the lower bound of the key, which is the
first entry that does not come before it, so the row it returns is never one the name
promises; `GetLowerOrEqual` falls back on it. -/

namespace Nkit
open FlatRows OrderedMap InvertedIndex

/-- The index lists the rows of the table, each under a key it ties with.  The comparator
orders the keys in `S`: with a `FLOAT` column those without a NaN, else all of them. -/
structure TableIndex.Agrees (t : SharedTable) (S : Set IndexKey) (x : TableIndex) : Prop where
  subscribed : x.referToTable = true
  size : x.columnNums.length ≤ indexKeyMaxSize
  orders : StrictWeak fun a b : S => x.lt a b
  sorted : Sorted x.lt x.indexMap
  keys : ∀ e ∈ x.indexMap, e.1 ∈ S
  rows : ∀ r < t.height, t.rowKey x r ∈ S ∧ ∃ e ∈ x.indexMap, r ∈ e.2
  entries : ∀ e ∈ x.indexMap, e.2 ≠ [] ∧ ∀ r ∈ e.2, r < t.height ∧ equiv x.lt (t.rowKey x r) e.1 =
    true

/-- Arguments of the types of the key columns. -/
def TableIndex.Typed (t : SharedTable) (x : TableIndex) (vargs : List Dynamic) : Prop :=
  List.Forall₂ (fun v col => t.columns[col]?.map (fun c => c.type.toDynamic) = some v.type) vargs
    x.columnNums

namespace SharedTable

/-- The key of row `r` comes strictly before `key` in the order of the index. -/
def Before (t : SharedTable) (x : TableIndex) (key : IndexKey) (r : ℕ) : Prop :=
  x.lt (t.rowKey x r) key = true

/-- The key of row `r` is equal to `key` in the order of the index. -/
def Ties (t : SharedTable) (x : TableIndex) (key : IndexKey) (r : ℕ) : Prop :=
  equiv x.lt (t.rowKey x r) key = true

end SharedTable

namespace TableIndex

/-- The iterator points to a row before the key, and to the end if there is none. -/
def PointsBefore (t : SharedTable) (x : TableIndex) (key : IndexKey) (it : ConstIterator) : Prop :=
  (it.eq x.end = false → ∃ r, it.rowIt.head? = some r ∧ r < t.height ∧ t.Before x key r) ∧
    (it.eq x.end = true ↔ ∀ r < t.height, ¬ t.Before x key r)

/-- The iterator points to a row with the key, or else to a row before the key, and to the
end if there is neither. -/
def PointsUpTo (t : SharedTable) (x : TableIndex) (key : IndexKey) (it : ConstIterator) : Prop :=
  (it.eq x.end = false → ∃ r, it.rowIt.head? = some r ∧ r < t.height ∧
    (t.Ties x key r ∨ t.Before x key r ∧ ∀ r' < t.height, ¬ t.Ties x key r')) ∧
    (it.eq x.end = true ↔ ∀ r < t.height, ¬ t.Ties x key r ∧ ¬ t.Before x key r)

variable {t : SharedTable} {S : Set IndexKey} {x : TableIndex} {vargs : List Dynamic}

theorem Agrees.indexKeyFrom (hx : Agrees t S x) (htyped : Typed t x vargs) :
    x.indexKeyFrom vargs = some (some (vargs.map Dynamic.data)) := by
  have hlen : vargs.length = x.columnNums.length := htyped.length_eq
  have hitems : vargs.mapM (fun v => makeKeyItem v.data v.type) =
      some (vargs.map Dynamic.data) := by
    rw [Traverse.mapM_some_iff, List.forall₂_map_right_iff, List.forall₂_same]
    intro v hv
    obtain ⟨i, hi, rfl⟩ := List.mem_iff_getElem.mp hv
    obtain ⟨c, -, hc⟩ := Option.map_eq_some_iff.mp (htyped.get hi (hlen ▸ hi))
    rw [List.get_eq_getElem] at hc
    rw [← hc, makeKeyItem_column]
  have hcond : (decide (vargs.length < x.columnNums.length) ||
      decide (indexKeyMaxSize < vargs.length)) = false := by
    have hsize := hx.size
    simp only [Bool.or_eq_false_iff, decide_eq_false_iff_not]
    omega
  rw [TableIndex.indexKeyFrom, hcond, hitems]
  rfl

theorem Agrees.exists_row (hx : Agrees t S x) {e : IndexKey × List ℕ} (he : e ∈ x.indexMap) :
    ∃ r, e.2.head? = some r ∧ r ∈ e.2 ∧ r < t.height := by
  obtain ⟨hne, hrows⟩ := hx.entries e he
  have hmem := List.head_mem hne
  exact ⟨e.2.head hne, List.head?_eq_some_head hne, hmem, (hrows _ hmem).1⟩

section
variable {key : IndexKey} (hx : Agrees t S x) (hkey : key ∈ S)
include hx hkey

theorem Agrees.before_iff {e : IndexKey × List ℕ} (he : e ∈ x.indexMap) {r : ℕ} (hr : r ∈ e.2) :
    t.Before x key r ↔ x.lt e.1 key = true := by
  obtain ⟨hlt, htie⟩ := (hx.entries e he).2 r hr
  have hcongr : x.lt (t.rowKey x r) key = x.lt e.1 key :=
    hx.orders.lt_left_congr (a := ⟨_, (hx.rows r hlt).1⟩) (b := ⟨_, hx.keys e he⟩) htie ⟨key, hkey⟩
  rw [SharedTable.Before, hcongr]

theorem Agrees.ties_iff {e : IndexKey × List ℕ} (he : e ∈ x.indexMap) {r : ℕ} (hr : r ∈ e.2) :
    t.Ties x key r ↔ equiv x.lt e.1 key = true := by
  obtain ⟨hlt, htie⟩ := (hx.entries e he).2 r hr
  have hcongr : equiv x.lt (t.rowKey x r) key = equiv x.lt e.1 key :=
    equiv_left_congr hx.orders (a := ⟨_, (hx.rows r hlt).1⟩) (b := ⟨_, hx.keys e he⟩) htie
      ⟨key, hkey⟩
  rw [SharedTable.Ties, hcongr]

theorem Agrees.pointsBefore_lowerBound_iff :
    PointsBefore t x key (.ofIndex (lowerBound x.lt key x.indexMap)) ↔ t.height = 0 := by
  rw [PointsBefore, TableIndex.end, ConstIterator.ofIndex_eq_end]
  cases hpos : lowerBound x.lt key x.indexMap with
  | nil =>
    -- every entry comes before the key, so every row does
    have hall : ∀ e ∈ x.indexMap, x.lt e.1 key = true := List.dropWhile_eq_nil_iff.mp hpos
    have hbefore : ∀ r < t.height, t.Before x key r := by
      intro r hr
      obtain ⟨e, he, hre⟩ := (hx.rows r hr).2
      exact (hx.before_iff hkey he hre).mpr (hall e he)
    simp only [decide_true, Bool.true_eq_false, false_implies, true_and, true_iff]
    refine ⟨fun hnone => ?_, fun h0 r hr => absurd hr (by omega)⟩
    by_contra hpos
    exact hnone 0 (Nat.pos_of_ne_zero hpos) (hbefore 0 (Nat.pos_of_ne_zero hpos))
  | cons e rest =>
    have he : e ∈ x.indexMap := (List.dropWhile_sublist _).mem (hpos ▸ List.mem_cons_self)
    have hfirst : x.lt e.1 key = false := by
      have hnot := List.head?_dropWhile_not (fun e => x.lt e.1 key) x.indexMap
      rw [show x.indexMap.dropWhile (fun e => x.lt e.1 key) = e :: rest from hpos] at hnot
      simpa using hnot
    obtain ⟨r, hhead, hre, hr⟩ := hx.exists_row he
    refine iff_of_false ?_ (Nat.ne_zero_of_lt hr)
    rintro ⟨hpoints, -⟩
    obtain ⟨r', hhead', -, hbefore⟩ := hpoints (decide_eq_false (List.cons_ne_nil e rest))
    obtain rfl : r = r' := Option.some.inj (hhead.symm.trans hhead')
    rw [hx.before_iff hkey he hre, hfirst] at hbefore
    cases hbefore

theorem Agrees.find_cases :
    (∃ e rest, find x.lt key x.indexMap = e :: rest ∧ e ∈ x.indexMap ∧ equiv x.lt e.1 key = true) ∨
      (find x.lt key x.indexMap = [] ∧ ∀ e ∈ x.indexMap, equiv x.lt e.1 key = false) := by
  have hcases := OrderedMap.find_cases hx.sorted fun e he e' he' hke hee =>
    hx.orders.trans (a := ⟨key, hkey⟩) (b := ⟨e.1, hx.keys e he⟩) (c := ⟨e'.1, hx.keys e' he'⟩) hke
      hee
  simp only [equiv_comm x.lt key] at hcases
  exact hcases.imp_left And.right

end

theorem pointsUpTo_iff_pointsBefore {key : IndexKey} (hnone : ∀ r < t.height, ¬ t.Ties x key r)
    (it : ConstIterator) : PointsUpTo t x key it ↔ PointsBefore t x key it := by
  have hend : (∀ r < t.height, ¬ t.Ties x key r ∧ ¬ t.Before x key r) ↔
      ∀ r < t.height, ¬ t.Before x key r :=
    forall₂_congr fun r hr => and_iff_right (hnone r hr)
  have hrow :
    ∀ r, (r < t.height ∧ (t.Ties x key r ∨ t.Before x key r ∧ ∀ r' < t.height, ¬ t.Ties x key r')) ↔
      r < t.height ∧ t.Before x key r := by
    intro r
    refine and_congr_right fun hr => ?_
    rw [or_iff_right (hnone r hr), and_iff_left hnone]
  simp only [PointsUpTo, PointsBefore, hend, hrow]

theorem Agrees.pointsUpTo_of_tie {key : IndexKey} (hx : Agrees t S x) (hkey : key ∈ S)
    {e : IndexKey × List ℕ} {rest : List (IndexKey × List ℕ)} (he : e ∈ x.indexMap)
    (htie : equiv x.lt e.1 key = true) :
    (∃ r < t.height, t.Ties x key r) ∧ PointsUpTo t x key (.ofIndex (e :: rest)) := by
  obtain ⟨r, hhead, hre, hr⟩ := hx.exists_row he
  have hties : t.Ties x key r := (hx.ties_iff hkey he hre).mpr htie
  refine ⟨⟨r, hr, hties⟩, fun _ => ⟨r, hhead, hr, .inl hties⟩, ?_⟩
  rw [TableIndex.end, ConstIterator.ofIndex_eq_end]
  exact iff_of_false (by simp) fun hnone => (hnone r hr).1 hties

end TableIndex

theorem TableIndex.Maintained.agrees {asc : Bool} {columns : List Column} {rs : List (List Data)}
    {x : TableIndex} (hx : Maintained asc columns rs x) (hu : Uniform columns.length rs)
    (hrefer : x.referToTable = true) (xs : List TableIndex) :
    x.Agrees (.ofRows columns rs xs) Set.univ where
  subscribed := hrefer
  size := hx.shape.size
  orders := hx.shape.strictWeak.comap Subtype.val
  sorted := hx.seq.sorted
  keys _ _ := Set.mem_univ _
  rows r hr := by
    have hmem : r ∈ bucket x.lt x.indexMap _ := hx.mem_bucket hr
    obtain ⟨k, -, he⟩ :=
      (get?_eq_some_iff hx.shape.strictWeak hx.seq.sorted).mp (get?_of_mem_bucket hmem)
    exact ⟨Set.mem_univ _, _, he, hmem⟩
  entries e he := by
    refine ⟨Indexes.entry_nonempty hx.shape.strictWeak hx.seq he, fun r hr => ?_⟩
    obtain ⟨hlt, hkey⟩ := (hx.mem_entry xs hu he r).mp hr
    exact ⟨hlt, (hx.shape.equiv_iff _ _).mpr hkey⟩

theorem TableIndex.agrees_of_create {t : SharedTable} (ht : t.Sound) {indexDefinition : Bytes}
    (hplain : PlainIndex t.columns indexDefinition) {built : TableIndex}
    (hcreate : TableIndex.create t indexDefinition = some (.ok built)) :
    (built.notifyReferToTable true).Agrees t Set.univ := by
  obtain ⟨rs, -, hrs, hu, -, -, -, hmaint⟩ :=
    TableIndex.create_maintained ht.toLaid hplain false hcreate
  rw [hrs]
  exact (hmaint.withRefer true).agrees hu rfl t.tableIndexSet

/-- **Lookups below a key**: `GetLower` does what it says exactly on a table without rows, and
`GetLowerOrEqual` there and where a row has the key of the arguments. -/
theorem lower_lookups_iff {t : SharedTable} {S : Set IndexKey} {x : TableIndex} (hx : x.Agrees t S)
    {vargs : List Dynamic} (htyped : x.Typed t vargs) (hargs : vargs.map Dynamic.data ∈ S) :
    ((∃ it, x.getLower vargs = some it ∧ x.PointsBefore t (vargs.map Dynamic.data) it) ↔
      t.height = 0) ∧
    ((∃ it, x.getLowerOrEqual vargs = some it ∧ x.PointsUpTo t (vargs.map Dynamic.data) it) ↔
      t.height = 0 ∨ ∃ r < t.height, t.Ties x (vargs.map Dynamic.data) r) := by
  have hfrom := hx.indexKeyFrom htyped
  have hlower : x.getLower vargs =
      some (.ofIndex (lowerBound x.lt (vargs.map Dynamic.data) x.indexMap)) :=
    TableIndex.lookup_eq hx.subscribed hfrom _
  have hequal : x.getEqual vargs =
      some (.ofIndex (find x.lt (vargs.map Dynamic.data) x.indexMap)) :=
    TableIndex.lookup_eq hx.subscribed hfrom _
  generalize vargs.map Dynamic.data = key at *
  refine ⟨?_, ?_⟩
  · simp only [hlower, Option.some.injEq, exists_eq_left']
    exact hx.pointsBefore_lowerBound_iff hargs
  · rw [TableIndex.getLowerOrEqual, hequal]
    simp only [Option.bind_eq_bind, Option.bind_some]
    obtain ⟨e, rest, hfind, he, htie⟩ | ⟨hfind, hnone⟩ := hx.find_cases hargs
    · obtain ⟨htied, hpoints⟩ := hx.pointsUpTo_of_tie hargs he htie
      rw [hfind, TableIndex.end, ConstIterator.ofIndex_eq_end]
      exact iff_of_true ⟨_, rfl, hpoints⟩ (.inr htied)
    · have huntied : ∀ r < t.height, ¬ t.Ties x key r := by
        intro r hr
        obtain ⟨e, he, hre⟩ := (hx.rows r hr).2
        rw [hx.ties_iff hargs he hre, hnone e he]
        decide
      have hright : (t.height = 0 ∨ ∃ r < t.height, t.Ties x key r) ↔ t.height = 0 :=
        or_iff_left fun h => h.elim fun r hr => huntied r hr.1 hr.2
      rw [hfind, TableIndex.end, ConstIterator.ofIndex_eq_end, hright]
      simp only [decide_true, if_true, hlower, Option.some.injEq, exists_eq_left',
        TableIndex.pointsUpTo_iff_pointsBefore huntied]
      exact hx.pointsBefore_lowerBound_iff hargs

theorem agrees_sample :
    (traversalIndex.notifyReferToTable true).Agrees traversalTable Set.univ := by
  have hcreate : TableIndex.create traversalTable (ascii "-n,s") = some (.ok traversalIndex) := by
    decide
  exact TableIndex.agrees_of_create (t := traversalTable) ⟨⟨rfl, rfl⟩, by decide⟩ plainIndex_sample
    hcreate

def lookupArgs (n : BitVec 64) : List Dynamic := [intArg n, stringArg 3 (ascii "b")]

theorem typed_lookupArgs (n : BitVec 64) :
    (traversalIndex.notifyReferToTable true).Typed traversalTable (lookupArgs n) :=
      .cons rfl (.cons rfl .nil)

theorem lower_lookups_tied :
    ∃ it, (traversalIndex.notifyReferToTable true).getLowerOrEqual (lookupArgs 5) = some it ∧
      (traversalIndex.notifyReferToTable true).PointsUpTo traversalTable
        ((lookupArgs 5).map Dynamic.data) it := by
  have hrow : 0 < traversalTable.height ∧
      equiv traversalIndex.lt (traversalTable.rowKey traversalIndex 0)
        ((lookupArgs 5).map Dynamic.data) = true := by
    decide
  exact (lower_lookups_iff agrees_sample (typed_lookupArgs 5) (Set.mem_univ _)).2.mpr
    (.inr ⟨0, hrow⟩)

/-- In descending order row 1 with 7 comes before 6; `GetLower` returns row 0 with 5. -/
theorem getLower_returns_row_after :
    ∃ t S x vargs it, TableIndex.Agrees t S x ∧ TableIndex.Typed t x vargs ∧
      vargs.map Dynamic.data ∈ S ∧
      x.getLower vargs = some it ∧ it.eq x.end = false ∧ it.rowIt.head? = some 0 ∧
      ¬ t.Before x (vargs.map Dynamic.data) 0 ∧ 1 < t.height ∧
        t.Before x (vargs.map Dynamic.data) 1 := by
  refine ⟨traversalTable, Set.univ, traversalIndex.notifyReferToTable true, lookupArgs 6, _,
    agrees_sample, typed_lookupArgs 6, Set.mem_univ _, rfl, ?_⟩
  unfold SharedTable.Before
  decide

end Nkit
