import Nkit.Dynamic.Layers

/-! What `Dynamic::Update` makes of two trees, path by path, and what a second call finds. -/

namespace Nkit
open OrderedMap

def DynTree.along : DynTree → List Bytes → Option DynTree
  | t, [] => some t
  | .dict T, k :: p => (get? bytesLt k T).bind fun t => t.along p
  | _, _ :: _ => none

/-- No value under a path of keys is `NONE`. -/
def DynTree.WithoutNone (t : DynTree) : Prop := ∀ p u, t.along p = some u → u.isNone = false

structure MergedAt (x y z : List (Bytes × DynTree)) : Prop where
  both : ∀ k, Meet x y k → ∃ z', get? bytesLt k z = some (.dict z')
  right : ∀ k t, get? bytesLt k y = some t → ¬Meet x y k → get? bytesLt k z = some t
  left : ∀ k, get? bytesLt k y = none → get? bytesLt k z = get? bytesLt k x

/-- The recursive merge in which the second tree wins, and where its leaves are. -/
structure RightBiased (x y z : List (Bytes × DynTree)) : Prop where
  levels : ∀ p x' y', (DynTree.dict x).along p = some (.dict x') →
    (DynTree.dict y).along p = some (.dict y') →
    ∃ z', (DynTree.dict z).along p = some (.dict z') ∧ MergedAt x' y' z'
  leaves : ∀ p t, (DynTree.dict y).along p = some t → t.isDict = false →
    (DynTree.dict z).along p = some t

section Paths
variable {t u : DynTree} {k : Bytes} {p : List Bytes} {x y : List (Bytes × DynTree)}

theorem along_cons : (DynTree.dict x).along (k :: p) = (get? bytesLt k x).bind fun t =>
    t.along p := by
  rw [DynTree.along]

theorem along_cons_some (h : (DynTree.dict x).along (k :: p) = some u) :
    ∃ t, get? bytesLt k x = some t ∧ t.along p = some u := by
  rw [along_cons] at h
  exact Option.bind_eq_some_iff.mp h

theorem dict_of_along (h : t.along p = some (.dict x)) : ∃ T, t = .dict T := by
  cases p with
  | nil =>
    cases t with
    | dict T => exact ⟨T, rfl⟩
    | plain | string | oid | list | table => cases h
  | cons k p =>
    cases t with
    | dict T => exact ⟨T, rfl⟩
    | plain | string | oid | list | table => cases h

theorem DynTree.WithoutNone.child {T : List (Bytes × DynTree)} (h : (DynTree.dict T).WithoutNone)
    (ht : get? bytesLt k T = some t) : t.WithoutNone := by
  intro p u hu
  refine h (k :: p) u ?_
  rw [along_cons, ht]
  exact hu

theorem DynTree.WithoutNone.entry {T : List (Bytes × DynTree)} (h : (DynTree.dict T).WithoutNone)
    (ht : get? bytesLt k T = some t) : t.isNone = false := h.child ht [] t rfl

end Paths

def SortedTree (t : DynTree) : Prop := ∀ p T, t.along p = some (.dict T) → Sorted bytesLt T

section Merged
variable {k : Bytes} {t : DynTree} {x y : List (Bytes × DynTree)}

theorem SortedTree.child (h : SortedTree (.dict y)) (ht : get? bytesLt k y = some t) :
    SortedTree t := by
  intro p T hT
  refine h (k :: p) T ?_
  rw [along_cons, ht]
  exact hT

theorem Shows.sortedTree {m : Store} {P : Set ℕ} {d : Dyn} (h : Shows m P d t) : SortedTree t := by
  induction h with
  | plain | string | oid | list | table =>
    intro p T hT
    obtain ⟨T', hT'⟩ := dict_of_along hT
    cases hT'
  | dict hobj ha hsorted hkeys _ ih =>
    intro p T hT
    cases p with
    | nil =>
      cases hT
      exact hsorted.of_keys hkeys
    | cons k p =>
      obtain ⟨t, ht, hu⟩ := along_cons_some hT
      obtain ⟨e, he⟩ := get?_of_keys hkeys.symm ht
      exact ih k e t he ht p T hu

theorem get?_merge_meet (hy : Sorted bytesLt y) {x' y' : List (Bytes × DynTree)}
    (hx' : get? bytesLt k x = some (.dict x')) (hy' : get? bytesLt k y = some (.dict y')) :
    get? bytesLt k (mergeEntries x y) = some (.dict (mergeEntries x' y')) := by
  rw [get?_mergeEntries x hy, hy', hx']
  rfl

theorem get?_merge_right (hy : Sorted bytesLt y) (hnone : (DynTree.dict x).WithoutNone)
    (ht : get? bytesLt k y = some t) (hmeet : ¬Meet x y k) :
    get? bytesLt k (mergeEntries x y) = some t := by
  rw [get?_mergeEntries x hy, ht]
  have hold : ((get? bytesLt k x).getD .undef).isNone = false := by
    cases hx : get? bytesLt k x with
    | none => rfl
    | some u => exact hnone.entry hx
  have hleaf : ((get? bytesLt k x).getD .undef).isDict = false ∨ t.isDict = false := by
    cases hx : get? bytesLt k x with
    | none => exact .inl rfl
    | some u =>
      cases u with
      | dict x' =>
        cases t with
        | dict y' => exact absurd ⟨x', y', hx, ht⟩ hmeet
        | plain | string | oid | list | table => exact .inr rfl
      | plain | string | oid | list | table => exact .inl rfl
  simp only [mergeValue_eq _ t hleaf, hold, Bool.false_eq_true, if_false]

theorem mergedAt_merge (hy : Sorted bytesLt y) (hnone : (DynTree.dict x).WithoutNone) :
    MergedAt x y (mergeEntries x y) := by
  refine ⟨fun k hmeet => ?_, fun k t ht hmeet => get?_merge_right hy hnone ht hmeet, fun k hk => ?_⟩
  · obtain ⟨x', y', hx', hy'⟩ := hmeet
    exact ⟨_, get?_merge_meet hy hx' hy'⟩
  · rw [get?_mergeEntries x hy, hk]

theorem rightBiased_merge (hy : SortedTree (.dict y)) (hnone : (DynTree.dict x).WithoutNone) :
    RightBiased x y (mergeEntries x y) := by
  refine ⟨fun p => ?_, fun p => ?_⟩
  · induction p generalizing x y with
    | nil =>
      intro x' y' hx' hy'
      cases hx'
      cases hy'
      exact ⟨_, rfl, mergedAt_merge (hy [] y rfl) hnone⟩
    | cons k p ih =>
      intro x' y' hx' hy'
      obtain ⟨tx, htx, hx'⟩ := along_cons_some hx'
      obtain ⟨ty, hty, hy'⟩ := along_cons_some hy'
      obtain ⟨X, rfl⟩ := dict_of_along hx'
      obtain ⟨Y, rfl⟩ := dict_of_along hy'
      rw [along_cons, get?_merge_meet (hy [] y rfl) htx hty]
      exact ih (hy.child hty) (hnone.child htx) x' y' hx' hy'
  · induction p generalizing x y with
    | nil =>
      intro t ht hleaf
      cases ht
      cases hleaf
    | cons k p ih =>
      intro t ht hleaf
      obtain ⟨ty, hty, ht⟩ := along_cons_some ht
      rw [along_cons]
      by_cases hmeet : Meet x y k
      · obtain ⟨X, Y, hX, hY⟩ := hmeet
        rw [hty] at hY
        cases hY
        rw [get?_merge_meet (hy [] y rfl) hX hty]
        exact ih (hy.child hty) (hnone.child hX) t ht hleaf
      · rw [get?_merge_right (hy [] y rfl) hnone hty hmeet]
        exact ht

end Merged

/-- The value holds all of the other one: it is the same value, or each of them is a dict and every
entry of the other is held by the entry under its key. -/
inductive Absorbed (m : Store) (P : Set ℕ) : Dyn → Dyn → Prop where
  | same (x : Dyn) : Absorbed m P x x
  | dict {a b : ℕ} {E EY : List (Bytes × Dyn)} (X : Bytes → Dyn) (ha : a ∈ P) (hb : b ∈ P)
      (hobj : m.objs a = some (.map E))
      (hobj' : m.objs b = some (.map EY)) (hkeys : ∀ k y, get? bytesLt k EY = some y →
        get? bytesLt k E = some (X k))
      (hvalues : ∀ k y, get? bytesLt k EY = some y → Absorbed m P (X k) y) :
        Absorbed m P (.shared a) (.shared b)

section Absorbed
variable {m m' : Store} {P Q : Set ℕ} {a b : ℕ} {x y : Dyn} {EY : List (Bytes × Dyn)}
  {ty : List (Bytes × DynTree)}

theorem Absorbed.frame (h : Absorbed m P x y) (hsame : Set.EqOn m'.objs m.objs P) (hPQ : P ⊆ Q) :
    Absorbed m' Q x y := by
  induction h with
  | same x => exact .same x
  | dict X ha hb hobj hobj' hkeys _ ih =>
    exact .dict X (hPQ ha) (hPQ hb) ((hsame ha).trans hobj) ((hsame hb).trans hobj') hkeys ih

theorem Absorbed.entries (h : Absorbed m P (.shared a) (.shared b))
    (hb : m.objs b = some (.map EY)) :
    ∃ E, m.objs a = some (.map E) ∧
      ∀ k y, get? bytesLt k EY = some y → ∃ x, get? bytesLt k E = some x ∧ Absorbed m P x y := by
  cases h with
  | same => exact ⟨EY, hb, fun k y hy => ⟨y, hy, .same y⟩⟩
  | dict X _ _ hobj hobj' hkeys hvalues =>
    rw [hobj'] at hb
    cases hb
    exact ⟨_, hobj, fun k y hy => ⟨X k, hkeys k y hy, hvalues k y hy⟩⟩

theorem Absorbed.eq_of_leaf (h : Absorbed m P x y)
    (hleaf : m.dictAddr x = none ∨ m.dictAddr y = none) : x = y := by
  cases h with
  | same => rfl
  | dict X _ _ hobj hobj' =>
    simp only [Store.dictAddr, Store.get, hobj, hobj', reduceCtorEq, or_self] at hleaf

theorem foldlM_fixed {α β : Type*} {f : β → α → Option β} {s : β} {l : List α}
    (h : ∀ c ∈ l, f s c = some s) :
    l.foldlM f s = some s := by
  induction l with
  | nil => rfl
  | cons c l ih =>
    rw [List.foldlM_cons, h c List.mem_cons_self]
    exact ih fun c' hc' => h c' (List.mem_cons_of_mem c hc')

theorem shared_of_dictAddr (h : m.dictAddr x = some a) : x = .shared a := by
  cases x with
  | plain => cases h
  | shared c =>
    simp only [Store.dictAddr, Store.get] at h
    cases hobj : m.objs c with
    | none =>
      rw [hobj] at h
      cases h
    | some o =>
      rw [hobj] at h
      cases o with
      | map E => exact congrArg Dyn.shared (Option.some.inj h)
      | string | oid | vector | table => cases h

theorem updateKey_absorbed {merge : ℕ → ℕ → Store → Option Store} {E : List (Bytes × Dyn)}
    {k : Bytes} (hobj : m.objs a = some (.map E)) (hx : get? bytesLt k E = some x)
    (hy : m.lookup b k = some y) (h : Absorbed m P x y)
    (hmerge : ∀ a' b', x = .shared a' → y = .shared b' → m.dictAddr y = some b' →
      merge a' b' m = some m) :
    Store.updateKey merge a b m k = some m := by
  have hentry : m.entry a k = some (x, m) := by
    rw [entry_of_map hobj, hx, Option.getD_some, update_const, hx, id, Option.getD_some,
      update_of_get?_self hx, put_same_map hobj]
  have hassign : x = y → m.assignEntry a k y = some m := by
    rintro rfl
    have hvalue : (if x.isNone then x else x) = x := ite_self x
    rw [assignEntry_of_map hobj, update_const, hx, Option.getD_some, hvalue, update_of_get?_self hx,
      put_same_map hobj]
  rw [Store.updateKey, hentry]
  simp only [Option.bind_eq_bind, Option.bind_some, hy]
  cases hdx : m.dictAddr x with
  | none => exact hassign (h.eq_of_leaf (.inl hdx))
  | some a' =>
    cases hdy : m.dictAddr y with
    | none => exact hassign (h.eq_of_leaf (.inr hdy))
    | some b' => exact hmerge a' b' (shared_of_dictAddr hdx) (shared_of_dictAddr hdy) hdy

theorem dictUpdate_absorbed (fuel : ℕ) (hfuel : sizeOf ty < fuel)
    (h : Absorbed m P (.shared a) (.shared b)) (hY : Shows m Q (.shared b) (.dict ty)) :
    Store.dictUpdate fuel a b m = some m := by
  induction hn : sizeOf ty using Nat.strong_induction_on generalizing fuel a b ty with
  | _ n ih =>
    subst hn
    obtain ⟨fuel, rfl⟩ : ∃ f, fuel = f + 1 := ⟨fuel - 1, by omega⟩
    cases hY with
    | @dict _ EY _ hb _ hsorted hkeys hvalues =>
      obtain ⟨E, ha, hentries⟩ := h.entries hb
      rw [Store.dictUpdate, hb]
      refine foldlM_fixed fun k hk => ?_
      obtain ⟨⟨k', y⟩, hmem, rfl⟩ := List.mem_map.mp hk
      have hy := get?_eq_some_of_mem bytesLt_strictWeak hsorted hmem
      obtain ⟨x, hx, habsorbed⟩ := hentries k' y hy
      obtain ⟨t, ht⟩ := get?_of_keys hkeys hy
      refine updateKey_absorbed ha hx ((lookup_of_map hb k').trans hy) habsorbed ?_
      rintro a' b' rfl rfl hdict
      have hlt := sizeOf_lt_dict ht
      simp only [DynTree.dict.sizeOf_spec] at hlt
      have hshows := hvalues k' _ t hy ht
      cases t with
      | dict T =>
        simp only [DynTree.dict.sizeOf_spec] at hlt
        exact ih (sizeOf T) (by omega) fuel (by omega) habsorbed hshows rfl
      | plain | string | oid | list | table =>
        rw [hshows.dictAddr rfl] at hdict
        cases hdict

end Absorbed

def Absorbs (F : Set ℕ) (y : List (Bytes × DynTree)) (merge : ℕ → ℕ → Store → Option Store) :
    Prop :=
  ∀ (m : Store) (a b : ℕ) (x : List (Bytes × DynTree)) (R Z : Set ℕ),
    Branch m F R (.shared a) (.dict x) →
    Branch m F Z (.shared b) (.dict y) → Disjoint R F → Disjoint Z F → Disjoint R Z →
      (DynTree.dict x).WithoutNone →
    ∀ m', merge a b m = some m' → Absorbed m' (R ∪ Z) (.shared a) (.shared b)

section First
variable {m m₁ m' : Store} {F Z R' : Set ℕ} {a b : ℕ} {k : Bytes} {x' y : Dyn} {t : DynTree}
  {E : List (Bytes × Dyn)}
  {T Y : List (Bytes × DynTree)} {S SY : Bytes → Set ℕ} {merge : ℕ → ℕ → Store → Option Store}

theorem updateKey_absorbs (hX : Children m F a E T S) (hap : Apart F a b S SY)
    (hy : m.lookup b k = some y) (hY : Branch m F (SY k) y t)
    (hnone : ∀ told, get? bytesLt k T = some told → told.WithoutNone)
    (hrun : Store.updateKey merge a b m k = some m₁)
    (hkey : KeyDone m m₁ F a k y t E T S (SY k) x' R')
    (hmerge : ∀ ty, t = .dict ty → Absorbs F ty merge) : Absorbed m₁ (S k ∪ SY k) x' y := by
  by_cases hmeet : ∃ tx ty, get? bytesLt k T = some (.dict tx) ∧ t = .dict ty
  · -- two dicts meet, and the nested call has merged them
    have hx := hkey.met hmeet
    obtain ⟨tx, ty, htx, rfl⟩ := hmeet
    have hbranch := hX.values k x' _ hx htx
    obtain ⟨a', E₁, S₁, rfl, -, -, hX₁⟩ := hbranch.children
    obtain ⟨b', E₂, S₂, rfl, -, -, hY₂⟩ := hY.children
    rw [updateKey_meet_run hX.obj hx hy hX₁.obj hY₂.obj] at hrun
    exact hmerge ty rfl m a' b' tx (S k) (SY k) hbranch hY (hap.spine k) (hap.spine' k)
      (hap.cross k k) (hnone _ htx) m₁ hrun
  · -- otherwise the value itself was stored, so both dicts hold the same one
    have hleaf : ((get? bytesLt k T).getD .undef).isDict = false ∨ t.isDict = false := by
      cases htold : get? bytesLt k T with
      | none => exact .inl rfl
      | some told =>
        apply isDict_of_not_meet
        rintro ⟨tx, ty, rfl, hty⟩
        exact hmeet ⟨tx, ty, htold, hty⟩
    have hold : ((get? bytesLt k E).getD .undef).isNone = false := by
      rw [(hX.old k).isNone]
      cases htold : get? bytesLt k T with
      | none => rfl
      | some told => exact hnone told htold [] told rfl
    rw [updateKey_assign_run hX hap.free hy hap.ne hY hleaf, hold, if_neg Bool.false_ne_true,
      Option.some.injEq] at hrun
    have hobj := hkey.children.obj
    rw [← hrun, Store.put_self, Option.some.injEq, StoreObject.map.injEq] at hobj
    have hentry := congrArg (get? bytesLt k) hobj
    rw [get?_update_bytes, get?_update_bytes, if_pos rfl, if_pos rfl, Option.some.injEq] at hentry
    rw [hentry]
    exact .same x'

theorem updateKeys_absorbs (hYs : Sorted bytesLt Y) (hX : Children m F a E T S)
    (hap : Apart F a b S SY)
    (hlook : ∀ k t, get? bytesLt k Y = some t → ∃ y, m.lookup b k = some y ∧ Branch m F (SY k) y t)
    (hnone : ∀ k t told, get? bytesLt k Y = some t → get? bytesLt k T = some told →
      told.WithoutNone)
    (hmerge : ∀ k ty, get? bytesLt k Y = some (.dict ty) → Merges F ty merge ∧ Absorbs F ty merge)
    (hrun : (Y.map Prod.fst).foldlM (Store.updateKey merge a b) m = some m') :
    ∀ k t y, get? bytesLt k Y = some t → m.lookup b k = some y →
      ∃ x, m'.lookup a k = some x ∧ Absorbed m' (S k ∪ SY k) x y := by
  induction Y generalizing m E T S SY with
  | nil => exact fun _ _ _ h => nomatch h
  | cons e Y ih =>
    obtain ⟨k, t⟩ := e
    have hself : get? bytesLt k ((k, t) :: Y) = some t := by rw [get?_cons_bytes hYs, if_pos rfl]
    obtain ⟨y, hy, hbranch⟩ := hlook k t hself
    obtain ⟨m₁, x', R', hstep, hkey⟩ := updateKey_done hX hap.free (hap.spine k) hy hap.ne hbranch
      (hap.spine' k) (hap.self k) (fun k' => hap.cross k' k) fun ty ht =>
        (hmerge k ty (ht ▸ hself)).1
    have habsorbed :=
      updateKey_absorbs hX hap hy hbranch (fun told htold => hnone k t told hself htold) hstep hkey
      fun ty ht => (hmerge k ty (ht ▸ hself)).2
    rw [List.map_cons, List.foldlM_cons, hstep] at hrun
    -- the first key is settled by its own round and kept by the rest
    have hrest : (Y.map Prod.fst).foldlM (Store.updateKey merge a b) m₁ = some m' := hrun
    have hlook₁ := hkey.lookups hYs hap hlook
    obtain ⟨m'', E', S', hrun', hdone⟩ :=
      updateKeys_done (sorted_cons.mp hYs).2 hkey.children (hap.next hkey.region)
      (fun k' t' ht' => (hlook₁ k' t' ht').imp fun _ h => ⟨h.1, h.2.2⟩)
      fun k' ty hty => (hmerge k' ty (get?_tail_ne hYs hty).2).1
    obtain rfl : m'' = m' := Option.some.inj (hrun'.symm.trans hrest)
    intro k' t' y' ht' hy'
    rw [get?_cons_bytes hYs] at ht'
    by_cases hk : k = k'
    · subst hk
      rw [hy] at hy'
      cases hy'
      refine ⟨x', ?_, habsorbed.frame (fun c hc => hdone.same c ?_ fun k' hmeet hin => ?_)
        subset_rfl⟩
      · rw [lookup_of_map hdone.children.obj,
          hdone.other k (get?_eq_none_of_lt bytesLt_strictWeak (sorted_cons.mp hYs).1),
          get?_update_bytes, if_pos rfl]
      · rintro rfl
        exact hc.elim (hX.self k) (hap.self k)
      · -- the later rounds write to the dicts of other keys
        obtain ⟨_, _, -, hget⟩ := hmeet
        have hne := (get?_tail_ne hYs hget).1
        rw [Function.update_of_ne hne] at hin
        rcases hc with hc | hc
        · exact Set.disjoint_left.mp (hX.apart k k' (Ne.symm hne)) hc hin
        · exact Set.disjoint_left.mp (hap.cross k' k) hin hc
    · rw [if_neg hk] at ht'
      obtain ⟨y'', hy₁, hy'', -⟩ := hlook₁ k' t' ht'
      rw [hy'] at hy''
      cases hy''
      have hnone₁ : ∀ k' t' told, get? bytesLt k' Y = some t' →
          get? bytesLt k' (update bytesLt k .undef (fun old => mergeValue old t) T) = some told →
            told.WithoutNone := by
        intro k' t' told ht' htold
        obtain ⟨hne, hget⟩ := get?_tail_ne hYs ht'
        rw [get?_update_bytes, if_neg (Ne.symm hne)] at htold
        exact hnone k' t' told hget htold
      obtain ⟨x, hx, hin⟩ := ih (sorted_cons.mp hYs).2 hkey.children (hap.next hkey.region)
        (fun k' t' ht' => (hlook₁ k' t' ht').imp fun _ h => ⟨h.1, h.2.2⟩) hnone₁
        (fun k' ty hty => hmerge k' ty (get?_tail_ne hYs hty).2) hrest k' t' y' ht' hy₁
      rw [Function.update_of_ne (Ne.symm hk), Function.update_of_ne (Ne.symm hk)] at hin
      exact ⟨x, hx, hin⟩

theorem dictUpdate_merges (fuel : ℕ) (hfuel : sizeOf Y < fuel) :
    Merges F Y (Store.dictUpdate fuel) := by
  intro m a b x R Z hx hy hRF hZF hRZ
  obtain ⟨a', E, S, heq, ha, hsub, hX⟩ := hx.children
  cases heq
  obtain ⟨b', EY, SY, heq, hb, hsub', hY⟩ := hy.children
  cases heq
  obtain ⟨m', E', S', hrun, hdone⟩ :=
    dictUpdate_done fuel hfuel hX hY (hY.apart_from ha hb hsub hsub' hRF hZF hRZ)
  exact ⟨m', _, hrun, hdone.merges ha hsub hsub'⟩

theorem dictUpdate_absorbs (fuel : ℕ) (hfuel : sizeOf Y < fuel) :
    Absorbs F Y (Store.dictUpdate fuel) := by
  induction hn : sizeOf Y using Nat.strong_induction_on generalizing fuel Y with
  | _ n ih =>
    subst hn
    intro m a b x R Z hx hy hRF hZF hRZ hnone m' hrun
    obtain ⟨a', E, S, heq, ha, hsub, hX⟩ := hx.children
    cases heq
    obtain ⟨b', EY, SY, heq, hb, hsub', hY⟩ := hy.children
    cases heq
    have hap := hY.apart_from ha hb hsub hsub' hRF hZF hRZ
    obtain ⟨m'', E', S', hrun', hdone⟩ := dictUpdate_done fuel hfuel hX hY hap
    obtain rfl : m'' = m' := Option.some.inj (hrun'.symm.trans hrun)
    obtain ⟨fuel, rfl⟩ : ∃ f, fuel = f + 1 := ⟨fuel - 1, by omega⟩
    have hnested : ∀ k ty, get? bytesLt k Y = some (.dict ty) →
        Merges F ty (Store.dictUpdate fuel) ∧ Absorbs F ty (Store.dictUpdate fuel) := by
      intro k ty hty
      have hlt := sizeOf_lt_dict hty
      simp only [DynTree.dict.sizeOf_spec] at hlt
      exact ⟨dictUpdate_merges fuel (by omega), ih (sizeOf ty) (by omega) fuel (by omega) rfl⟩
    rw [Store.dictUpdate, hY.obj] at hrun
    simp only [hY.keys] at hrun
    have hlook : ∀ k t, get? bytesLt k Y = some t → ∃ y, m.lookup b k = some y ∧
        Branch m F (SY k) y t := by
      intro k t ht
      obtain ⟨y, hy⟩ := get?_of_keys hY.keys.symm ht
      exact ⟨y, (lookup_of_map hY.obj k).trans hy, hY.values k y t hy ht⟩
    have hentries := updateKeys_absorbs (hY.sorted.of_keys hY.keys) hX hap hlook
      (fun k _ told _ htold => hnone.child htold) hnested hrun
    have hobj : m''.objs b = some (.map EY) :=
      (hdone.same b hap.ne fun k _ => hap.other k).trans hY.obj
    have hentry : ∀ k y, get? bytesLt k EY = some y →
        get? bytesLt k E' = some ((get? bytesLt k E').getD .undef) ∧
          Absorbed m'' (R ∪ Z) ((get? bytesLt k E').getD .undef) y := by
      intro k y hy
      obtain ⟨t, ht⟩ := get?_of_keys hY.keys hy
      obtain ⟨x, hx, hin⟩ := hentries k t y ht ((lookup_of_map hY.obj k).trans hy)
      rw [lookup_of_map hdone.children.obj] at hx
      rw [hx]
      exact ⟨rfl, hin.frame (fun _ _ => rfl) (Set.union_subset_union (hsub k) (hsub' k))⟩
    exact .dict (fun k => (get? bytesLt k E').getD .undef) (.inl ha) (.inr hb) hdone.children.obj
      hobj
      (fun k y hy => (hentry k y hy).1) fun k y hy => (hentry k y hy).2

end First

/-- An update merges the second tree into the first one, and a second update with it changes
nothing. -/
theorem dict_update_merges (m : Store) (d r : Dyn) (x y : List (Bytes × DynTree)) (R Z : Set ℕ)
    (hd : Tree m R d (.dict x)) (hr : Tree m Z r (.dict y)) (hapart : Disjoint R Z)
    (hx : (DynTree.dict x).WithoutNone) :
    ∃ n, ∀ fuel ≥ n, ∃ m' z, Store.update fuel d m r = some m' ∧ Shows m' Set.univ d (.dict z) ∧
      RightBiased x y z ∧
      Store.update fuel d m' r = some m' := by
  refine ⟨sizeOf y + 1, fun fuel hfuel => ?_⟩
  obtain ⟨F₁, P₁, hbranch₁, hF₁, hP₁, hPF₁⟩ := hd.branch
  obtain ⟨F₂, P₂, hbranch₂, hF₂, hP₂, hPF₂⟩ := hr.branch
  have hfree₁ : Disjoint P₁ (F₁ ∪ F₂) := hPF₁.union_right (Set.disjoint_of_subset hP₁ hF₂ hapart)
  have hfree₂ : Disjoint P₂ (F₁ ∪ F₂) :=
    (Set.disjoint_of_subset hP₂ hF₁ hapart.symm).union_right hPF₂
  have hdicts : Disjoint P₁ P₂ := Set.disjoint_of_subset hP₁ hP₂ hapart
  have hd' := hbranch₁.mono_leaf (Set.subset_union_left (s := F₁) (t := F₂))
  have hr' := hbranch₂.mono_leaf (Set.subset_union_right (s := F₁) (t := F₂))
  obtain ⟨a, E, S, rfl, ha, hsub, hX⟩ := hd'.children
  obtain ⟨b, EY, SY, rfl, hb, hsub', hY⟩ := hr'.children
  have hapart := hY.apart_from ha hb hsub hsub' hfree₁ hfree₂ hdicts
  obtain ⟨m', E', S', hrun, hdone⟩ := dictUpdate_done fuel hfuel hX hY hapart
  obtain ⟨hsame, -⟩ := hdone.merges ha hsub hsub'
  have hkept : Set.EqOn m'.objs m.objs (F₁ ∪ F₂ ∪ P₂) := by
    refine fun c hc => hsame fun hin => ?_
    rcases hc with hc | hc
    · exact Set.disjoint_left.mp hfree₁ hin hc
    · exact Set.disjoint_left.mp hdicts hin hc
  have hsource : Shows m' (F₁ ∪ F₂ ∪ P₂) (.shared b) (.dict y) := hr'.shows.frame hkept subset_rfl
  have hobj : m'.objs b = some (.map EY) := (hkept (.inr hb)).trans hY.obj
  have hsecond : m'.dictAddr (.shared b) = some b := by simp only [Store.dictAddr, Store.get, hobj]
  have habsorbed := dictUpdate_absorbs fuel hfuel m a b x P₁ P₂ hd' hr' hfree₁ hfree₂ hdicts hx m'
    hrun
  refine ⟨m', mergeEntries x y, ?_, hdone.children.shows, rightBiased_merge hr.shows.sortedTree hx,
    ?_⟩
  · simp only [Store.update, hX.dictAddr, hY.dictAddr, hrun]
  · simp only [Store.update, hdone.children.dictAddr, hsecond]
    exact dictUpdate_absorbed fuel hfuel habsorbed hsource

/-- `{"k": {"a": 2}}` merged into `{"k": {"a": 1}}`. -/
theorem dict_update_merges_nested :
    ∃ n, ∀ fuel ≥ n, ∃ m' z, Store.update fuel (.shared 1) layerStore (.shared 3) = some m' ∧
      Shows m' Set.univ (.shared 1) (.dict z) ∧ RightBiased (nestedLayer 1) (nestedLayer 2) z ∧
      Store.update fuel (.shared 1) m' (.shared 3) = some m' := by
  refine dict_update_merges layerStore _ _ _ _ {1, 2} {3, 4} (tree_nested rfl rfl (by decide))
    (tree_nested rfl rfl (by decide)) (by simp) fun p u hu => ?_
  match p with
  | [] =>
    cases hu
    rfl
  | k :: p =>
    obtain ⟨t, ht, hu⟩ := along_cons_some hu
    obtain ⟨-, rfl⟩ := get?_single ht
    match p with
    | [] =>
      cases hu
      rfl
    | k' :: p =>
      obtain ⟨t, ht, hu⟩ := along_cons_some hu
      obtain ⟨-, rfl⟩ := get?_single ht
      cases p with
      | nil =>
        cases hu
        rfl
      | cons => cases hu

end Nkit
