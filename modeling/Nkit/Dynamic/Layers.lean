import Nkit.Dynamic.Update

/-! Layer after layer merged into one dict.  The dict takes the nested dicts of a layer by
their handles, so a later layer with dicts under the same keys is merged into the earlier
layer as well. -/

namespace Nkit
open OrderedMap

/-- The handle stands for the tree, and every object of it, all in `R`, is reached in one way. -/
inductive Tree (m : Store) : Set ℕ → Dyn → DynTree → Prop where
  | plain {R : Set ℕ} (type : PlainType) (data : BitVec 64) :
      Tree m R (.plain type data) (.plain type data)
  | string {R : Set ℕ} {a : ℕ} {s : Bytes} (hobj : m.objs a = some (.string s)) (ha : a ∈ R) :
      Tree m R (.shared a) (.string s)
  | oid {R : Set ℕ} {a : ℕ} {s : Bytes} (hobj : m.objs a = some (.oid s)) (ha : a ∈ R) :
      Tree m R (.shared a) (.oid s)
  | list {R : Set ℕ} {a : ℕ} {items : List Dyn} {ts : List DynTree} (S : ℕ → Set ℕ)
      (hobj : m.objs a = some (.vector items)) (ha : a ∈ R) (hlen : items.length = ts.length)
        (hsub : ∀ i, S i ⊆ R)
      (hself : ∀ i, a ∉ S i) (hapart : ∀ i j, i ≠ j → Disjoint (S i) (S j))
      (hitems : ∀ (i : ℕ) (x : Dyn) (t : DynTree), items[i]? = some x → ts[i]? = some t →
        Tree m (S i) x t) :
      Tree m R (.shared a) (.list ts)
  | dict {R : Set ℕ} {a : ℕ} {E : List (Bytes × Dyn)} {T : List (Bytes × DynTree)}
      (S : Bytes → Set ℕ)
      (hobj : m.objs a = some (.map E)) (ha : a ∈ R) (hsorted : Sorted bytesLt E)
      (hkeys : E.map Prod.fst = T.map Prod.fst) (hsub : ∀ k, S k ⊆ R) (hself : ∀ k, a ∉ S k)
      (hapart : ∀ k k', k ≠ k' → Disjoint (S k) (S k'))
      (hvalues : ∀ (k : Bytes) (x : Dyn) (t : DynTree),
        get? bytesLt k E = some x → get? bytesLt k T = some t → Tree m (S k) x t) :
      Tree m R (.shared a) (.dict T)
  | table {R : Set ℕ} {a : ℕ} {columns : List Column} {rows : List (List Dyn)}
      {trows : List (List CellTree)}
      (hobj : m.objs a = some (.table columns rows)) (ha : a ∈ R)
      (hrows : List.Forall₂ (List.Forall₂ (ShowsCell m R)) rows trows)
      (hself : a ∉ rows.flatten.flatMap Dyn.targets)
        (hapart : (rows.flatten.flatMap Dyn.targets).Nodup) :
      Tree m R (.shared a) (.table columns trows)

def mergedLayers (ts : List (List (Bytes × DynTree))) : List (Bytes × DynTree) :=
  ts.foldl mergeEntries []

/-- Wherever a layer and the layers before it have a dict under the same top-level key, the
new dict has nothing to add or to change. -/
def NothingNew (ts : List (List (Bytes × DynTree))) : Prop :=
  ∀ j t, ts[j]? = some t → ∀ k x y, get? bytesLt k (mergedLayers (ts.take j)) = some (.dict x) →
    get? bytesLt k t = some (.dict y) → mergeEntries x y = x

/-- An empty dict at `d`, and layers that are trees apart from it and from each other. -/
structure Layers (m : Store) (d : ℕ) (rs : List Dyn) (ts : List (List (Bytes × DynTree)))
    (R : ℕ → Set ℕ) : Prop where
  target : m.objs d = some (.map [])
  length : rs.length = ts.length
  trees : ∀ i r t, rs[i]? = some r → ts[i]? = some t → Tree m (R i) r (.dict t)
  apart : ∀ i j, i ≠ j → Disjoint (R i) (R j)
  outside : ∀ i, d ∉ R i

section Tree
variable {m : Store} {R F F' P : Set ℕ} {x : Dyn} {t : DynTree}

theorem Tree.shows (h : Tree m R x t) : Shows m R x t := by
  induction h with
  | plain type data => exact .plain type data
  | string hobj ha => exact .string hobj ha
  | oid hobj ha => exact .oid hobj ha
  | list S hobj ha hlen hsub _ _ _ ih =>
    exact .list hobj ha hlen fun i x t hx ht => (ih i x t hx ht).mono (hsub i)
  | dict S hobj ha hsorted hkeys hsub _ _ _ ih =>
    exact .dict hobj ha hsorted hkeys fun k x t hx ht => (ih k x t hx ht).mono (hsub k)
  | table hobj ha hrows => exact .table hobj ha hrows

theorem Branch.mono_leaf (h : Branch m F P x t) (hF : F ⊆ F') : Branch m F' P x t := by
  induction h with
  | leaf hleaf hshows => exact .leaf hleaf (hshows.mono hF)
  | dict S hobj ha hsorted hkeys hsub hself hapart _ ih =>
    exact .dict S hobj ha hsorted hkeys hsub hself hapart ih

theorem Tree.branch (h : Tree m R x t) :
    ∃ F P, Branch m F P x t ∧ F ⊆ R ∧ P ⊆ R ∧ Disjoint P F := by
  have hleaf : ∀ {R x t}, Tree m R x t → t.isDict = false → ∃ F P, Branch m F P x t ∧ F ⊆ R ∧
      P ⊆ R ∧ Disjoint P F :=
    fun {R} _ _ h hl =>
      ⟨R, ∅, .leaf hl h.shows, subset_rfl, Set.empty_subset _, Set.empty_disjoint _⟩
  induction h with
  | plain type data => exact hleaf (.plain type data) rfl
  | string hobj ha => exact hleaf (.string hobj ha) rfl
  | oid hobj ha => exact hleaf (.oid hobj ha) rfl
  | list S hobj ha hlen hsub hself hapart hitems _ =>
    exact hleaf (.list S hobj ha hlen hsub hself hapart hitems) rfl
  | table hobj ha hrows hself hapart => exact hleaf (.table hobj ha hrows hself hapart) rfl
  | @dict R a E T S hobj ha hsorted hkeys hsub hself hapart _ ih =>
    have hchild : ∀ k, ∃ F P, (∀ x t, get? bytesLt k E = some x → get? bytesLt k T = some t →
      Branch m F P x t) ∧
        F ⊆ S k ∧ P ⊆ S k ∧ Disjoint P F := by
      intro k
      cases hx : get? bytesLt k E with
      | none =>
        exact ⟨∅, ∅, fun _ _ h => (nomatch h), Set.empty_subset _, Set.empty_subset _,
          Set.empty_disjoint _⟩
      | some x =>
        obtain ⟨t, ht⟩ := get?_of_keys hkeys hx
        obtain ⟨F, P, hbranch, hrest⟩ := ih k x t hx ht
        refine ⟨F, P, fun x' t' hx' ht' => ?_, hrest⟩
        rw [ht] at ht'
        cases hx'
        cases ht'
        exact hbranch
    choose Fk Pk hbranch hF hP hPF using hchild
    refine ⟨⋃ k, Fk k, insert a (⋃ k, Pk k), ?_, Set.iUnion_subset fun k => (hF k).trans (hsub k),
      Set.insert_subset ha (Set.iUnion_subset fun k => (hP k).trans (hsub k)), ?_⟩
    · refine .dict Pk hobj (Set.mem_insert _ _) hsorted hkeys
        (fun k => (Set.subset_iUnion Pk k).trans (Set.subset_insert _ _))
          (fun k h => hself k (hP k h))
        (fun k k' hne => Set.disjoint_of_subset (hP k) (hP k') (hapart k k' hne))
          fun k x t hx ht => ?_
      exact (hbranch k x t hx ht).mono_leaf (Set.subset_iUnion Fk k)
    · rw [Set.disjoint_insert_left, Set.disjoint_iUnion_left]
      refine ⟨fun h => ?_, fun k => Set.disjoint_iUnion_right.mpr fun k' => ?_⟩
      · obtain ⟨k, hk⟩ := Set.mem_iUnion.mp h
        exact hself k (hF k hk)
      · by_cases hk : k = k'
        · subst hk
          exact hPF k
        · exact Set.disjoint_of_subset (hP k) (hF k') (hapart k k' hk)

theorem Children.mono_leaf {a : ℕ} {E : List (Bytes × Dyn)} {T : List (Bytes × DynTree)}
    {S : Bytes → Set ℕ} (h : Children m F a E T S) (hF : F ⊆ F') : Children m F' a E T S :=
  ⟨h.obj, h.sorted, h.keys, h.self, h.apart, fun k x t hx ht => (h.values k x t hx ht).mono_leaf hF⟩

theorem Children.shows {a : ℕ} {E : List (Bytes × Dyn)} {T : List (Bytes × DynTree)}
    {S : Bytes → Set ℕ} (h : Children m F a E T S) : Shows m Set.univ (.shared a) (.dict T) :=
  (h.branch (Set.mem_univ a) fun _ => Set.subset_univ _).shows.mono (Set.subset_univ _)

end Tree

structure Sites (F : Set ℕ) (d : ℕ) (addr : ℕ → ℕ) (P : ℕ → Bytes → Set ℕ) (R : ℕ → Set ℕ) :
    Prop where
  addr_mem : ∀ i k, P i k ⊆ R i \ {addr i}
  inner : ∀ i k k', k ≠ k' → Disjoint (P i k) (P i k')
  apart : ∀ i j, i ≠ j → Disjoint (R i) (R j)
  free : ∀ i, Disjoint (R i) F
  target : ∀ i, d ∉ R i
  target_free : d ∉ F

section Run
variable {m m' : Store} {F : Set ℕ} {d : ℕ} {rs : List Dyn} {ts : List (List (Bytes × DynTree))}
  {addr : ℕ → ℕ} {EL : ℕ → List (Bytes × Dyn)} {P : ℕ → Bytes → Set ℕ} {R : ℕ → Set ℕ} {j : ℕ}
  {D : List (Bytes × Dyn)}

def LayerKept (m : Store) (F : Set ℕ) (ts : List (List (Bytes × DynTree))) (addr : ℕ → ℕ)
    (EL : ℕ → List (Bytes × Dyn)) (P : ℕ → Bytes → Set ℕ) (R : ℕ → Set ℕ) (i : ℕ) : Prop :=
  ∀ t, ts[i]? = some t → addr i ∈ R i ∧ Children m F (addr i) (EL i) t (P i)

/-- After `j` calls: what the dict holds comes from the layers so far, and the others are as
they were. -/
structure Stage (m : Store) (F : Set ℕ) (d : ℕ) (ts : List (List (Bytes × DynTree))) (addr : ℕ → ℕ)
    (EL : ℕ → List (Bytes × Dyn)) (P : ℕ → Bytes → Set ℕ) (R : ℕ → Set ℕ) (j : ℕ)
      (D : List (Bytes × Dyn))
    (SD : Bytes → Set ℕ) : Prop where
  target : Children m F d D (mergedLayers (ts.take j)) SD
  taken : ∀ k c, c ∈ SD k → ∃ i < j, c ∈ R i
  later : ∀ i, j ≤ i → LayerKept m F ts addr EL P R i

theorem mergedLayers_take_succ {t : List (Bytes × DynTree)} (ht : ts[j]? = some t) :
    mergedLayers (ts.take (j + 1)) = mergeEntries (mergedLayers (ts.take j)) t := by
  rw [mergedLayers, List.take_add_one, ht, List.foldl_append]
  rfl

theorem Stage.apart {SD : Bytes → Set ℕ} {t : List (Bytes × DynTree)} (hs : Sites F d addr P R)
    (h : Stage m F d ts addr EL P R j D SD) (ht : ts[j]? = some t) :
    Apart F d (addr j) SD (P j) := by
  obtain ⟨hmem, hlayer⟩ := h.later j le_rfl t ht
  have hout : ∀ k c, c ∈ SD k → c ∉ R j := by
    intro k c hc hj
    obtain ⟨i, hi, hin⟩ := h.taken k c hc
    exact Set.disjoint_left.mp (hs.apart i j hi.ne) hin hj
  refine ⟨?_, hs.target_free, fun k => ?_, fun k => ?_, fun k hd => ?_, hlayer.self,
    fun k hin => hout k _ hin hmem, fun k k' => ?_, hs.inner j⟩
  · rintro rfl
    exact hs.target j hmem
  · refine Set.disjoint_left.mpr fun c hc => ?_
    obtain ⟨i, -, hin⟩ := h.taken k c hc
    exact Set.disjoint_left.mp (hs.free i) hin
  · exact (hs.free j).mono_left fun c hc => (hs.addr_mem j k hc).1
  · exact hs.target j (hs.addr_mem j k hd).1
  · exact Set.disjoint_left.mpr fun c hc hin => hout k c hc (hs.addr_mem j k' hin).1

theorem Stage.free_kept {SD S' : Bytes → Set ℕ} {t : List (Bytes × DynTree)}
    {D' : List (Bytes × Dyn)} (hs : Sites F d addr P R) (h : Stage m F d ts addr EL P R j D SD)
    (hdone : LoopDone m m' F d (addr j) D D' (mergedLayers (ts.take j)) t SD (P j) S') :
    Set.EqOn m'.objs m.objs F := by
  intro c hc
  refine hdone.same c ?_ fun k _ hin => ?_
  · rintro rfl
    exact hs.target_free hc
  · obtain ⟨i, -, hin'⟩ := h.taken k c hin
    exact Set.disjoint_left.mp (hs.free i) hin' hc

theorem Stage.later_kept {SD S' : Bytes → Set ℕ} {t : List (Bytes × DynTree)}
    {D' : List (Bytes × Dyn)} (hs : Sites F d addr P R) (h : Stage m F d ts addr EL P R j D SD)
    (hdone : LoopDone m m' F d (addr j) D D' (mergedLayers (ts.take j)) t SD (P j) S') {i : ℕ}
    (hi : j ≤ i) :
    LayerKept m' F ts addr EL P R i := by
  intro t' ht'
  obtain ⟨hmem, hlayer⟩ := h.later i hi t' ht'
  have hsame : ∀ c, c ∈ R i → m'.objs c = m.objs c := by
    intro c hc
    refine hdone.same c ?_ fun k _ hin => ?_
    · rintro rfl
      exact hs.target i hc
    · obtain ⟨i', hi', hin'⟩ := h.taken k c hin
      exact Set.disjoint_left.mp (hs.apart i' i (hi'.trans_le hi).ne) hin' hc
  exact ⟨hmem, hlayer.frame (hsame _ hmem) (h.free_kept hs hdone) fun k c hc =>
    hsame c (hs.addr_mem i k hc).1⟩

theorem Stage.step {SD : Bytes → Set ℕ} {t : List (Bytes × DynTree)} (fuel : ℕ)
    (hfuel : sizeOf t < fuel) (hs : Sites F d addr P R) (h : Stage m F d ts addr EL P R j D SD)
    (ht : ts[j]? = some t) :
    ∃ m' D' S', Store.update fuel (.shared d) m (.shared (addr j)) = some m' ∧
      Stage m' F d ts addr EL P R (j + 1) D' S' ∧
      LoopDone m m' F d (addr j) D D' (mergedLayers (ts.take j)) t SD (P j) S' := by
  obtain ⟨hmem, hlayer⟩ := h.later j le_rfl t ht
  obtain ⟨m', D', S', hrun, hdone⟩ := dictUpdate_done fuel hfuel h.target hlayer (h.apart hs ht)
  refine ⟨m', D', S', ?_,
    ⟨?_, fun k c hc => ?_, fun i hi => h.later_kept hs hdone (Nat.le_of_succ_le hi)⟩, hdone⟩
  · simp only [Store.update, h.target.dictAddr, hlayer.dictAddr, hrun]
  · rw [mergedLayers_take_succ ht]
    exact hdone.children
  · rcases hdone.region k hc with hc | hc
    · obtain ⟨i, hi, hin⟩ := h.taken k c hc
      exact ⟨i, Nat.lt_succ_of_lt hi, hin⟩
    · exact ⟨j, Nat.lt_succ_self j, (hs.addr_mem j k hc).1⟩

structure Intact (m : Store) (F : Set ℕ) (ts : List (List (Bytes × DynTree))) (addr : ℕ → ℕ)
    (EL : ℕ → List (Bytes × Dyn))
    (P : ℕ → Bytes → Set ℕ) (R : ℕ → Set ℕ) (j : ℕ) (D : List (Bytes × Dyn)) : Prop where
  layers : ∀ i, LayerKept m F ts addr EL P R i
  owner : ∀ k x, get? bytesLt k D = some x → ∃ i < j, ∃ t, ts[i]? = some t ∧ get? bytesLt k (EL i) =
    some x

theorem Intact.value {i : ℕ} {k : Bytes} {x : Dyn} {t : List (Bytes × DynTree)}
    {M : List (Bytes × DynTree)} {SD : Bytes → Set ℕ} (h : Intact m F ts addr EL P R j D)
    (htarget : Children m F d D M SD) (ht : ts[i]? = some t) (hx : get? bytesLt k D = some x)
    (hx' : get? bytesLt k (EL i) = some x) :
    get? bytesLt k M = get? bytesLt k t := by
  obtain ⟨-, hlayer⟩ := h.layers i t ht
  obtain ⟨v, hv⟩ := get?_of_keys htarget.keys hx
  obtain ⟨v', hv'⟩ := get?_of_keys hlayer.keys hx'
  rw [hv, hv', (htarget.values k x v hx hv).shows.unique (hlayer.values k x v' hx' hv').shows]

theorem Stage.owned {SD : Bytes → Set ℕ} (hs : Sites F d addr P R)
    (h : Stage m F d ts addr EL P R j D SD) (hin : Intact m F ts addr EL P R j D) :
    ∃ SD', Stage m F d ts addr EL P R j D SD' ∧
      ∀ k c, c ∈ SD' k → ∃ i x, get? bytesLt k D = some x ∧ get? bytesLt k (EL i) = some x ∧
        SD' k = P i k := by
  have hexists :
    ∀ k, ∃ S, (∀ x v, get? bytesLt k D = some x → get? bytesLt k (mergedLayers (ts.take j)) =
      some v →
      Branch m F S x v) ∧
        ((∃ i < j, ∃ t x, ts[i]? = some t ∧ get? bytesLt k D = some x ∧ get? bytesLt k (EL i) =
          some x ∧
        S = P i k) ∨ S = ∅) := by
    intro k
    cases hx : get? bytesLt k D with
    | none => exact ⟨∅, fun _ _ h => (nomatch h), .inr rfl⟩
    | some x =>
      obtain ⟨i, hi, t, ht, hx'⟩ := hin.owner k x hx
      refine ⟨P i k, fun x' v hx'' hv => ?_, .inl ⟨i, hi, t, x, ht, rfl, hx', rfl⟩⟩
      cases hx''
      rw [hin.value h.target ht hx hx'] at hv
      exact (hin.layers i t ht).2.values k x v hx' hv
  choose SD' hbranch hfrom using hexists
  refine ⟨SD',
    ⟨⟨h.target.obj, h.target.sorted, h.target.keys, fun k hd => ?_, fun k k' hne => ?_, hbranch⟩,
      fun k c hc => ?_, h.later⟩, fun k c hc => ?_⟩
  · rcases hfrom k with ⟨i, -, t, x, -, -, -, hS⟩ | hS
    · rw [hS] at hd
      exact hs.target i (hs.addr_mem i k hd).1
    · rw [hS] at hd
      exact hd
  · rcases hfrom k with ⟨i, -, t, x, -, -, -, hS⟩ | hS
    · rcases hfrom k' with ⟨i', -, t', x', -, -, -, hS'⟩ | hS'
      · rw [hS, hS']
        by_cases hi : i = i'
        · subst hi
          exact hs.inner i k k' hne
        · exact Set.disjoint_of_subset (fun c hc => (hs.addr_mem i k hc).1)
            (fun c hc => (hs.addr_mem i' k' hc).1)
            (hs.apart i i' hi)
      · rw [hS']
        exact Set.disjoint_empty _
    · rw [hS]
      exact Set.empty_disjoint _
  · rcases hfrom k with ⟨i, hi, t, x, -, -, -, hS⟩ | hS
    · rw [hS] at hc
      exact ⟨i, hi, (hs.addr_mem i k hc).1⟩
    · rw [hS] at hc
      exact absurd hc (Set.notMem_empty c)
  · rcases hfrom k with ⟨i, -, t, x, -, hx, hx', hS⟩ | hS
    · exact ⟨i, x, hx, hx', hS⟩
    · rw [hS] at hc
      exact absurd hc (Set.notMem_empty c)

theorem LoopDone.root_kept {SD S' : Bytes → Set ℕ} {t M : List (Bytes × DynTree)}
    {D' : List (Bytes × Dyn)} {i : ℕ} (hs : Sites F d addr P R)
    (hSD : ∀ k c, c ∈ SD k → ∃ i x, get? bytesLt k D = some x ∧ get? bytesLt k (EL i) = some x ∧
      SD k = P i k) (hdone : LoopDone m m' F d (addr j) D D' M t SD (P j) S')
    (himem : addr i ∈ R i) :
    m'.objs (addr i) = m.objs (addr i) := by
  refine hdone.same _ ?_ fun k _ hc => ?_
  · rintro hd
    exact hs.target i (hd ▸ himem)
  · obtain ⟨i', x, -, -, hS⟩ := hSD k _ hc
    rw [hS] at hc
    obtain ⟨hR, hne⟩ := hs.addr_mem i' k hc
    by_cases hii : i' = i
    · subst hii
      exact hne rfl
    · exact Set.disjoint_left.mp (hs.apart i' i hii) hR himem

theorem Intact.step {SD S' : Bytes → Set ℕ} {t : List (Bytes × DynTree)} {D' : List (Bytes × Dyn)}
    (hs : Sites F d addr P R) (h : Stage m F d ts addr EL P R j D SD)
    (hin : Intact m F ts addr EL P R j D)
    (hSD : ∀ k c, c ∈ SD k → ∃ i x, get? bytesLt k D = some x ∧ get? bytesLt k (EL i) = some x ∧
      SD k = P i k) (ht : ts[j]? = some t)
    (hdone : LoopDone m m' F d (addr j) D D' (mergedLayers (ts.take j)) t SD (P j) S')
    (hnew : ∀ k x y, get? bytesLt k (mergedLayers (ts.take j)) = some (.dict x) →
      get? bytesLt k t = some (.dict y) → mergeEntries x y = x) :
    Intact m' F ts addr EL P R (j + 1) D' := by
  obtain ⟨hmem, hlayer⟩ := h.later j le_rfl t ht
  have hsorted : Sorted bytesLt t := hlayer.sorted.of_keys hlayer.keys
  refine ⟨fun i t' ht' => ?_, fun k x hx => ?_⟩
  · obtain ⟨himem, hi⟩ := hin.layers i t' ht'
    refine ⟨himem, (LoopDone.root_kept hs hSD hdone himem).trans hi.obj, hi.sorted, hi.keys,
      hi.self, hi.apart, fun k x v hx hv => ?_⟩
    by_cases hmeet : Meet (mergedLayers (ts.take j)) t k ∧ SD k = P i k ∧ get? bytesLt k D = some x
    · -- merged in place: the entry of the dict is this very handle
      obtain ⟨⟨x₀, y₀, hx₀, hy₀⟩, hS, hD⟩ := hmeet
      have hsame : get? bytesLt k (mergeEntries (mergedLayers (ts.take j)) t) =
          get? bytesLt k (mergedLayers (ts.take j)) := by
        rw [get?_mergeEntries _ hsorted, hy₀, hx₀, Option.getD_some]
        show some (DynTree.dict (mergeEntries x₀ y₀)) = some (DynTree.dict x₀)
        rw [hnew k x₀ y₀ hx₀ hy₀]
      have hv' : get? bytesLt k (mergeEntries (mergedLayers (ts.take j)) t) = some v := by
        rw [hsame, hin.value h.target ht' hD hx, hv]
      have hx' : get? bytesLt k D' = some x := (hdone.met k ⟨x₀, y₀, hx₀, hy₀⟩).trans hD
      exact (hdone.children.values k x v hx' hv').mono ((hdone.kept k hsame).trans hS.subset)
    · refine (hi.values k x v hx hv).frame (h.free_kept hs hdone) fun c hc =>
        hdone.same c ?_ fun k' hmeet' hc' => ?_
      · rintro rfl
        exact hs.target i (hs.addr_mem i k hc).1
      · obtain ⟨i', x', hD, hx', hS⟩ := hSD k' c hc'
        rw [hS] at hc'
        by_cases hii : i' = i
        · subst hii
          by_cases hkk : k' = k
          · subst hkk
            rw [hx] at hx'
            cases hx'
            exact hmeet ⟨hmeet', hS, hD⟩
          · exact Set.disjoint_left.mp (hs.inner i' k' k hkk) hc' hc
        · exact Set.disjoint_left.mp (hs.apart i' i hii) (hs.addr_mem i' k' hc').1
            (hs.addr_mem i k hc).1
  · rcases hdone.origin k x hx with hx | hx
    · obtain ⟨i, hi, t', ht', hx'⟩ := hin.owner k x hx
      exact ⟨i, Nat.lt_succ_of_lt hi, t', ht', hx'⟩
    · exact ⟨j, Nat.lt_succ_self j, t, ht, (lookup_of_map hlayer.obj k).symm.trans hx⟩

theorem Intact.broken {SD S' : Bytes → Set ℕ} {t x y : List (Bytes × DynTree)} {k : Bytes}
    {D' : List (Bytes × Dyn)} (hs : Sites F d addr P R) (h : Stage m F d ts addr EL P R j D SD)
    (hin : Intact m F ts addr EL P R j D)
    (hSD : ∀ k c, c ∈ SD k → ∃ i x, get? bytesLt k D = some x ∧ get? bytesLt k (EL i) = some x ∧
      SD k = P i k) (ht : ts[j]? = some t)
    (hdone : LoopDone m m' F d (addr j) D D' (mergedLayers (ts.take j)) t SD (P j) S')
    (hx : get? bytesLt k (mergedLayers (ts.take j)) = some (.dict x))
    (hy : get? bytesLt k t = some (.dict y)) (hne : mergeEntries x y ≠ x) :
    ∃ i t', ts[i]? = some t' ∧ ¬Shows m' Set.univ (.shared (addr i)) (.dict t') := by
  obtain ⟨hmem, hlayer⟩ := h.later j le_rfl t ht
  have hsorted : Sorted bytesLt t := hlayer.sorted.of_keys hlayer.keys
  obtain ⟨v, hv⟩ := get?_of_keys h.target.keys.symm hx
  obtain ⟨i, hi, t', ht', hv'⟩ := hin.owner k v hv
  obtain ⟨himem, hilayer⟩ := hin.layers i t' ht'
  have hold : get? bytesLt k t' = some (.dict x) := (hin.value h.target ht' hv hv').symm.trans hx
  refine ⟨i, t', ht', fun hshows => hne ?_⟩
  have hmerged : get? bytesLt k (mergeEntries (mergedLayers (ts.take j)) t) =
      some (.dict (mergeEntries x y)) := by
    rw [get?_mergeEntries _ hsorted, hy, hx, Option.getD_some]
    rfl
  have hnow := hdone.children.values k v _ ((hdone.met k ⟨x, y, hx, hy⟩).trans hv) hmerged
  cases hshows with
  | dict hobj _ _ _ hvalues =>
    rw [LoopDone.root_kept hs hSD hdone himem, hilayer.obj] at hobj
    cases hobj
    exact DynTree.dict.inj (hnow.shows.unique (hvalues k v _ hv' hold))

theorem updates_take_succ {fuel : ℕ} {r : Dyn} (hr : rs[j]? = some r)
    (hrun : Store.updates fuel (.shared d) (rs.take j) m = some m') :
    Store.updates fuel (.shared d) (rs.take (j + 1)) m = Store.update fuel (.shared d) m' r := by
  rw [Store.updates, List.take_add_one, hr, List.foldlM_append]
  rw [Store.updates] at hrun
  rw [hrun]
  exact bind_pure (Store.update fuel (.shared d) m' r)

theorem updates_take_all {fuel : ℕ} (hr : rs[j]? = none)
    (hrun : Store.updates fuel (.shared d) (rs.take j) m = some m') :
    Store.updates fuel (.shared d) (rs.take (j + 1)) m = some m' := by
  rw [List.take_add_one, hr, Option.toList_none, List.append_nil]
  exact hrun

theorem Layers.sites {R₀ : ℕ → Set ℕ} (h : Layers m d rs ts R₀) :
    ∃ F addr EL P R, Sites F d addr P R ∧ Stage m F d ts addr EL P R 0 [] (fun _ => ∅) ∧
      Intact m F ts addr EL P R 0 [] ∧ ∀ (i : ℕ) (r : Dyn), rs[i]? = some r →
        r = .shared (addr i) := by
  have hlayer : ∀ i, ∃ F R a E S, (∀ r t, rs[i]? = some r → ts[i]? = some t →
      r = .shared a ∧ a ∈ R ∧ Children m F a E t S) ∧ (∀ k, S k ⊆ R \ {a}) ∧
      (∀ k k', k ≠ k' → Disjoint (S k) (S k')) ∧ F ⊆ R₀ i ∧ R ⊆ R₀ i ∧ Disjoint R F := by
    intro i
    by_cases hi : i < rs.length
    · obtain ⟨t, ht⟩ : ∃ t, ts[i]? = some t := ⟨_, List.getElem?_eq_getElem (h.length ▸ hi)⟩
      obtain ⟨r, hr⟩ : ∃ r, rs[i]? = some r := ⟨_, List.getElem?_eq_getElem hi⟩
      obtain ⟨F, R, hbranch, hF, hR, hRF⟩ := (h.trees i r t hr ht).branch
      obtain ⟨a, E, S, rfl, ha, hsub, hchildren⟩ := hbranch.children
      refine ⟨F, R, a, E, S, fun r' t' hr' ht' => ?_, fun k c hc => ⟨hsub k hc, ?_⟩,
        hchildren.apart, hF, hR, hRF⟩
      · rw [hr] at hr'
        rw [ht] at ht'
        cases hr'
        cases ht'
        exact ⟨rfl, ha, hchildren⟩
      · rintro rfl
        exact hchildren.self k hc
    · refine ⟨∅, ∅, 0, [], fun _ => ∅, fun r t hr => ?_, fun _ => Set.empty_subset _,
        fun _ _ _ => Set.disjoint_empty _, Set.empty_subset _, Set.empty_subset _,
          Set.disjoint_empty _⟩
      rw [List.getElem?_eq_none (Nat.not_lt.mp hi)] at hr
      cases hr
  choose F R addr EL P hchildren hP hinner hF hR hRF using hlayer
  have hkept : ∀ i, LayerKept m (⋃ i, F i) ts addr EL P R i := by
    intro i t ht
    obtain ⟨hi, -⟩ := List.getElem?_eq_some_iff.mp ht
    obtain ⟨-, ha, hc⟩ := hchildren i _ t (List.getElem?_eq_getElem (h.length ▸ hi)) ht
    exact ⟨ha, hc.mono_leaf (Set.subset_iUnion F i)⟩
  refine ⟨⋃ i, F i, addr, EL, P, R,
    ⟨hP, hinner, fun i j hne => ?_, fun i => ?_, fun i hd => h.outside i (hR i hd), ?_⟩,
      ⟨⟨h.target, sorted_nil _, rfl, fun _ => Set.notMem_empty _, fun _ _ _ => Set.disjoint_empty _,
        fun _ _ _ hx => nomatch hx⟩,
      fun _ c hc => absurd hc (Set.notMem_empty c), fun i _ => hkept i⟩,
    ⟨hkept, fun _ _ hx => nomatch hx⟩, fun i r hr => ?_⟩
  · exact Set.disjoint_of_subset (hR i) (hR j) (h.apart i j hne)
  · refine Set.disjoint_iUnion_right.mpr fun i' => ?_
    by_cases hi : i = i'
    · subst hi
      exact hRF i
    · exact Set.disjoint_of_subset (hR i) (hF i') (h.apart i i' hi)
  · intro hd
    obtain ⟨i, hi⟩ := Set.mem_iUnion.mp hd
    exact h.outside i (hF i hi)
  · obtain ⟨hi, -⟩ := List.getElem?_eq_some_iff.mp hr
    exact (hchildren i r _ hr (List.getElem?_eq_getElem (h.length ▸ hi))).1

theorem Stage.run {fuel : ℕ} (hfuel : ∀ t ∈ ts, sizeOf t < fuel) (hlen : rs.length = ts.length)
    (hs : Sites F d addr P R) (hrs : ∀ (i : ℕ) (r : Dyn), rs[i]? = some r → r = .shared (addr i))
    (h : Stage m F d ts addr EL P R 0 [] (fun _ => ∅)) (j : ℕ) :
    ∃ m' D SD, Store.updates fuel (.shared d) (rs.take j) m = some m' ∧
      Stage m' F d ts addr EL P R j D SD := by
  induction j with
  | zero => exact ⟨m, [], _, rfl, h⟩
  | succ j ih =>
    obtain ⟨m', D, SD, hrun, hstage⟩ := ih
    cases hr : rs[j]? with
    | none =>
      have ht : ts[j]? = none := by
        rw [List.getElem?_eq_none_iff] at hr ⊢
        exact hlen ▸ hr
      refine ⟨m', D, SD, updates_take_all hr hrun, ?_, fun k c hc => ?_,
        fun i hi => hstage.later i (Nat.le_of_succ_le hi)⟩
      · rw [List.take_add_one, ht, Option.toList_none, List.append_nil]
        exact hstage.target
      · obtain ⟨i, hi, hin⟩ := hstage.taken k c hc
        exact ⟨i, Nat.lt_succ_of_lt hi, hin⟩
    | some r =>
      obtain ⟨hj, -⟩ := List.getElem?_eq_some_iff.mp hr
      have ht := List.getElem?_eq_getElem (hlen ▸ hj : j < ts.length)
      obtain ⟨m'', D', S', hstep, hstage', -⟩ :=
        hstage.step fuel (hfuel _ (List.getElem_mem _)) hs ht
      refine ⟨m'', D', S', ?_, hstage'⟩
      rw [updates_take_succ hr hrun, hrs j r hr]
      exact hstep

/-- The call merges no dict that adds or changes something into a dict under the same key. -/
def NothingNewAt (ts : List (List (Bytes × DynTree))) (j : ℕ) : Prop :=
  ∀ t, ts[j]? = some t → ∀ k x y, get? bytesLt k (mergedLayers (ts.take j)) = some (.dict x) →
    get? bytesLt k t = some (.dict y) → mergeEntries x y = x

theorem Intact.run {fuel : ℕ} (hfuel : ∀ t ∈ ts, sizeOf t < fuel) (hlen : rs.length = ts.length)
    (hs : Sites F d addr P R) (hrs : ∀ (i : ℕ) (r : Dyn), rs[i]? = some r → r = .shared (addr i))
    (h : Stage m F d ts addr EL P R 0 [] (fun _ => ∅)) (hin : Intact m F ts addr EL P R 0 [])
    (j : ℕ) (hnew : ∀ i < j, NothingNewAt ts i) :
    ∃ m' D SD, Store.updates fuel (.shared d) (rs.take j) m = some m' ∧
      Stage m' F d ts addr EL P R j D SD ∧
      Intact m' F ts addr EL P R j D := by
  induction j with
  | zero => exact ⟨m, [], _, rfl, h, hin⟩
  | succ j ih =>
    obtain ⟨m', D, SD, hrun, hstage, hintact⟩ := ih fun i hi => hnew i (Nat.lt_succ_of_lt hi)
    cases hr : rs[j]? with
    | none =>
      obtain ⟨m'', D', SD', hrun', hstage'⟩ := h.run hfuel hlen hs hrs (j + 1)
      have hall := updates_take_all hr hrun
      obtain rfl : m'' = m' := Option.some.inj (hrun'.symm.trans hall)
      refine ⟨m'', D', SD', hall, hstage', hintact.layers, fun k x hx => ?_⟩
      obtain rfl : D' = D := by
        have hobj := hstage'.target.obj
        rw [hstage.target.obj] at hobj
        cases hobj
        rfl
      obtain ⟨i, hi, hrest⟩ := hintact.owner k x hx
      exact ⟨i, Nat.lt_succ_of_lt hi, hrest⟩
    | some r =>
      obtain ⟨hj, -⟩ := List.getElem?_eq_some_iff.mp hr
      have ht := List.getElem?_eq_getElem (hlen ▸ hj : j < ts.length)
      obtain ⟨SD', hstage', hSD⟩ := hstage.owned hs hintact
      obtain ⟨m'', D', S', hstep, hstage'', hdone⟩ :=
        hstage'.step fuel (hfuel _ (List.getElem_mem _)) hs ht
      refine ⟨m'', D', S', ?_, hstage'',
        hintact.step hs hstage' hSD ht hdone (hnew j (Nat.lt_succ_self j) _ ht)⟩
      rw [updates_take_succ hr hrun, hrs j r hr]
      exact hstep

end Run

/-- Each call of a sequence of updates returns and leaves in the dict what the layers so far merge
to.  All layers keep their contents throughout exactly if no call merges a dict that adds or
changes something into a dict under the same top-level key. -/
theorem updates_keep_layers_iff (m : Store) (d : ℕ) (rs : List Dyn)
    (ts : List (List (Bytes × DynTree))) (R : ℕ → Set ℕ) (h : Layers m d rs ts R) :
    ∃ n, ∀ fuel ≥ n,
      (∀ j, ∃ m', Store.updates fuel (.shared d) (rs.take j) m = some m' ∧
        Shows m' Set.univ (.shared d) (.dict (mergedLayers (ts.take j)))) ∧
      ((∀ j m', Store.updates fuel (.shared d) (rs.take j) m = some m' →
        ∀ (i : ℕ) (r : Dyn) (t : List (Bytes × DynTree)), rs[i]? = some r → ts[i]? = some t →
          Shows m' Set.univ r (.dict t)) ↔ NothingNew ts) := by
  obtain ⟨F, addr, EL, P, R', hs, hstage, hintact, hrs⟩ := h.sites
  refine ⟨sizeOf ts, fun fuel hfuel => ?_⟩
  have hsize : ∀ t ∈ ts, sizeOf t < fuel := fun t ht => (List.sizeOf_lt_of_mem ht).trans_le hfuel
  refine ⟨fun j => ?_, fun hkeep => ?_, fun hnew j m' hrun i r t hr ht => ?_⟩
  · obtain ⟨m', D, SD, hrun, hstage'⟩ := hstage.run hsize h.length hs hrs j
    exact ⟨m', hrun, hstage'.target.shows⟩
  · suffices hat : ∀ j, NothingNewAt ts j from hat
    intro j
    induction j using Nat.strong_induction_on with
    | _ j ih =>
      intro t ht k x y hx hy
      by_contra hne
      obtain ⟨m', D, SD, hrun, hstage', hintact'⟩ := hintact.run hsize h.length hs hrs hstage j ih
      obtain ⟨SD', hstage'', hSD⟩ := hstage'.owned hs hintact'
      obtain ⟨m'', D', S', hstep, -, hdone⟩ :=
        hstage''.step fuel (hsize t (List.mem_of_getElem? ht)) hs ht
      obtain ⟨i, t', ht', hbroken⟩ := hintact'.broken hs hstage'' hSD ht hdone hx hy hne
      obtain ⟨hj, -⟩ := List.getElem?_eq_some_iff.mp ht
      obtain ⟨hi, -⟩ := List.getElem?_eq_some_iff.mp ht'
      have hrj := List.getElem?_eq_getElem (h.length ▸ hj : j < rs.length)
      have hri := List.getElem?_eq_getElem (h.length ▸ hi : i < rs.length)
      have hnext : Store.updates fuel (.shared d) (rs.take (j + 1)) m = some m'' := by
        rw [updates_take_succ hrj hrun, hrs j _ hrj]
        exact hstep
      refine hbroken ?_
      rw [← hrs i _ hri]
      exact hkeep (j + 1) m'' hnext i _ t' hri ht'
  · obtain ⟨m'', D, SD, hrun', -, hintact'⟩ := hintact.run hsize h.length hs hrs hstage j fun i _ =>
      hnew i
    obtain rfl : m'' = m' := Option.some.inj (hrun'.symm.trans hrun)
    rw [hrs i r hr]
    exact (hintact'.layers i t ht).2.shows

/-- An empty dict, and the layers `{"k": {"a": 1}}`, `{"k": {"a": 2}}` and `{"b": 3}`. -/
def layerStore : Store where
  next := 6
  objs
    | 0 => some (.map [])
    | 1 => some (.map [(ascii "k", .shared 2)])
    | 2 => some (.map [(ascii "a", .plain .integer 1)])
    | 3 => some (.map [(ascii "k", .shared 4)])
    | 4 => some (.map [(ascii "a", .plain .integer 2)])
    | 5 => some (.map [(ascii "b", .plain .integer 3)])
    | _ => none

def innerLayer (n : BitVec 64) : List (Bytes × DynTree) := [(ascii "a", .plain .integer n)]

def nestedLayer (n : BitVec 64) : List (Bytes × DynTree) := [(ascii "k", .dict (innerLayer n))]

def flatLayer : List (Bytes × DynTree) := [(ascii "b", .plain .integer 3)]

theorem get?_single {V : Type*} {k k' : Bytes} {v v' : V} (h : get? bytesLt k [(k', v)] = some v') :
    k' = k ∧ v = v' := by
  rw [get?_cons_bytes (List.pairwise_singleton ..)] at h
  split_ifs at h with hk
  · exact ⟨hk, Option.some.inj h⟩
  · cases h

theorem tree_flat {m : Store} {R : Set ℕ} {a : ℕ} {k : Bytes} {n : BitVec 64}
    (hobj : m.objs a = some (.map [(k, .plain .integer n)])) (ha : a ∈ R) :
    Tree m R (.shared a) (.dict [(k, .plain .integer n)]) := by
  refine .dict (fun _ => ∅) hobj ha (List.pairwise_singleton ..) rfl (fun _ => Set.empty_subset _)
    (fun _ => Set.notMem_empty _) (fun _ _ _ => Set.disjoint_empty _) fun k' x t hx ht => ?_
  obtain ⟨-, rfl⟩ := get?_single hx
  obtain ⟨-, rfl⟩ := get?_single ht
  exact .plain _ _

theorem tree_nested {m : Store} {a b : ℕ} {n : BitVec 64}
    (ha : m.objs a = some (.map [(ascii "k", .shared b)]))
    (hb : m.objs b = some (.map [(ascii "a", .plain .integer n)])) (hne : a ≠ b) :
    Tree m {a, b} (.shared a) (.dict (nestedLayer n)) := by
  refine .dict (fun k => if k = ascii "k" then {b} else ∅) ha (Set.mem_insert a {b})
    (List.pairwise_singleton ..) rfl
    (fun k => ?_) (fun k hin => ?_) (fun k k' hkk => ?_) fun k' x t hx ht => ?_
  · split_ifs
    · exact Set.subset_insert a {b}
    · exact Set.empty_subset _
  · split_ifs at hin
    · exact hne (Set.mem_singleton_iff.mp hin)
    · exact hin
  · split_ifs with h1 h2 h2
    · exact absurd (h1.trans h2.symm) hkk
    · exact Set.disjoint_empty _
    · exact Set.empty_disjoint _
    · exact Set.disjoint_empty _
  · obtain ⟨hk, rfl⟩ := get?_single hx
    obtain ⟨-, rfl⟩ := get?_single ht
    rw [if_pos hk.symm]
    exact tree_flat hb (Set.mem_singleton b)

def layerRegion (second : Set ℕ) : ℕ → Set ℕ
  | 0 => {1, 2}
  | 1 => second
  | _ => ∅

theorem layerRegion_apart {second : Set ℕ} (h : Disjoint ({1, 2} : Set ℕ) second) (i j : ℕ)
    (hne : i ≠ j) :
    Disjoint (layerRegion second i) (layerRegion second j) := by
  match i, j with
  | 0, 0 => exact absurd rfl hne
  | 0, 1 => exact h
  | 1, 0 => exact h.symm
  | 1, 1 => exact absurd rfl hne
  | 0, j + 2 => exact Set.disjoint_empty _
  | 1, j + 2 => exact Set.disjoint_empty _
  | i + 2, j => exact Set.empty_disjoint _

theorem sampleLayers (second : Set ℕ) {r : Dyn} {t : List (Bytes × DynTree)}
    (htree : Tree layerStore second r (.dict t)) (hd : 0 ∉ second) (h1 : 1 ∉ second)
    (h2 : 2 ∉ second) :
    Layers layerStore 0 [.shared 1, r] [nestedLayer 1, t] (layerRegion second) := by
  refine ⟨rfl, rfl, fun i r' t' hr ht => ?_, layerRegion_apart ?_, fun i => ?_⟩
  · match i with
    | 0 =>
      cases hr
      cases ht
      exact tree_nested rfl rfl (by decide)
    | 1 =>
      cases hr
      cases ht
      exact htree
    | i + 2 => cases hr
  · simp [h1, h2]
  · match i with
    | 0 => simp [layerRegion]
    | 1 => exact hd
    | i + 2 => exact Set.notMem_empty _

theorem updates_keep_layers_iff_flat :
    ∃ n, ∀ fuel ≥ n, ∀ j m', Store.updates fuel (.shared 0) ([.shared 1, .shared 5].take j)
      layerStore = some m' →
      ∀ (i : ℕ) (r : Dyn) (t : List (Bytes × DynTree)), [Dyn.shared 1, .shared 5][i]? = some r →
        [nestedLayer 1, flatLayer][i]? = some t → Shows m' Set.univ r (.dict t) := by
  have hlayers := sampleLayers {5} (tree_flat (n := 3) rfl (Set.mem_singleton 5)) (by simp)
    (by simp) (by simp)
  obtain ⟨n, hn⟩ :=
    updates_keep_layers_iff layerStore 0 [.shared 1, .shared 5] [nestedLayer 1, flatLayer] _ hlayers
  refine ⟨n, fun fuel hfuel => (hn fuel hfuel).2.mpr fun j t ht k x y hx hy => ?_⟩
  match j with
  | 0 => cases hx
  | 1 =>
    cases ht
    obtain ⟨-, hno⟩ := get?_single hy
    cases hno
  | j + 2 => cases ht

/-- A layer with a dict under the same key is merged into the first layer. -/
theorem updates_change_layer :
    Layers layerStore 0 [.shared 1, .shared 3] [nestedLayer 1, nestedLayer 2] (layerRegion {3, 4}) ∧
      ∀ fuel, ∃ m', Store.updates (fuel + 2) (.shared 0) [.shared 1, .shared 3] layerStore =
        some m' ∧
        Shows m' Set.univ (.shared 1) (.dict (nestedLayer 2)) ∧
          ¬Shows m' Set.univ (.shared 1) (.dict (nestedLayer 1)) := by
  refine ⟨sampleLayers _ (tree_nested rfl rfl (by decide)) (by simp) (by simp) (by simp),
    fun fuel => ?_⟩
  have hrun : ∃ m', Store.updates (fuel + 2) (.shared 0) [.shared 1, .shared 3] layerStore =
    some m' ∧
      m'.objs 1 = some (.map [(ascii "k", .shared 2)]) ∧
        m'.objs 2 = some (.map [(ascii "a", .plain .integer 2)]) :=
    ⟨_, rfl, rfl, rfl⟩
  obtain ⟨m', hm', h1, h2⟩ := hrun
  have hnew : Shows m' Set.univ (.shared 1) (.dict (nestedLayer 2)) :=
    (tree_nested h1 h2 (by decide)).shows.mono (Set.subset_univ _)
  refine ⟨m', hm', hnew, fun hold => ?_⟩
  have heq := hold.unique hnew
  simp [nestedLayer, innerLayer] at heq

end Nkit
