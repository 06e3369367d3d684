import Nkit.Dynamic.Store
import Mathlib.Order.CompletePartialOrder

/-! Merging one dict into another (`Dynamic::Update`).  A value that is new to the target is
stored by its handle, and two dicts under one key are merged in place, so what one call
stored the next may write to. -/

namespace Nkit
open OrderedMap

namespace Store

/-- `to[key]`. -/
def entry (a : ℕ) (key : Bytes) (m : Store) : Option (Dyn × Store) :=
  match m.objs a with
  | some (.map entries) =>
    some ((get? bytesLt key entries).getD .undef,
      m.put a (.map (update bytesLt key .undef id entries)))
  | _ => none

/-- `i->second` where the iterator `i` stands at `key`. -/
def lookup (b : ℕ) (key : Bytes) (m : Store) : Option Dyn :=
  match m.objs b with
  | some (.map entries) => get? bytesLt key entries
  | _ => none

/-- `Dynamic::operator =` on an entry, which never overwrites `NONE`. -/
def assignEntry (a : ℕ) (key : Bytes) (value : Dyn) (m : Store) : Option Store :=
  match m.objs a with
  | some (.map entries) =>
    some (m.put a
      (.map (update bytesLt key .undef (fun old => if old.isNone then old else value) entries)))
  | _ => none

/-- One round of the loop; `merge` is the call for two nested dicts. -/
def updateKey (merge : ℕ → ℕ → Store → Option Store) (a b : ℕ) (m : Store) (key : Bytes) :
    Option Store := do
  let (old, m) ← m.entry a key
  let value ← m.lookup b key
  match m.dictAddr old, m.dictAddr value with
  | some a', some b' => merge a' b' m
  | _, _ => m.assignEntry a key value

/-- `Impl<DICT>::Update` on the maps at `a` and `b`; the fuel bounds the nesting. -/
def dictUpdate : ℕ → ℕ → ℕ → Store → Option Store
  | 0, _, _, _ => none
  | fuel + 1, a, b, m =>
    match m.objs b with
    | some (.map source) => (source.map Prod.fst).foldlM (updateKey (dictUpdate fuel) a b) m
    | _ => none

/-- `Dynamic::Update`, for a handle and an argument in different variables. -/
def update (fuel : ℕ) (d : Dyn) (m : Store) (rv : Dyn) : Option Store :=
  match m.dictAddr d, m.dictAddr rv with
  | some a, some b => dictUpdate fuel a b m
  | _, _ => some m

def updates (fuel : ℕ) (d : Dyn) (rs : List Dyn) (m : Store) : Option Store :=
  rs.foldlM (update fuel d) m

end Store

mutual

def mergeValue : DynTree → DynTree → DynTree
  | .dict x, .dict y => .dict (mergeEntries x y)
  | .plain .none data, _ => .plain .none data
  | _, t => t
termination_by structural _ t => t

def mergeEntries (x : List (Bytes × DynTree)) : List (Bytes × DynTree) → List (Bytes × DynTree)
  | [] => x
  | (k, t) :: rest => mergeEntries (update bytesLt k .undef (fun old => mergeValue old t) x) rest
termination_by structural y => y

end

theorem get?_mergeEntries (x : List (Bytes × DynTree)) {y : List (Bytes × DynTree)}
    (hy : Sorted bytesLt y) (k : Bytes) :
    get? bytesLt k (mergeEntries x y) =
      match get? bytesLt k y with
      | none => get? bytesLt k x
      | some t => some (mergeValue ((get? bytesLt k x).getD .undef) t) := by
  induction y generalizing x with
  | nil => rfl
  | cons e y ih =>
    obtain ⟨k', t⟩ := e
    rw [mergeEntries, ih _ (sorted_cons.mp hy).2, get?_update_bytes, get?_cons_bytes hy]
    by_cases hk : k' = k
    · subst hk
      have hnone : get? bytesLt k' y = none :=
        get?_eq_none_of_lt bytesLt_strictWeak (sorted_cons.mp hy).1
      simp only [hnone, if_true]
    · simp only [if_neg hk]

/-- `NONE`, which no assignment overwrites. -/
def DynTree.isNone : DynTree → Bool
  | plain .none _ => true
  | _ => false

theorem mergeValue_eq (old t : DynTree) (h : old.isDict = false ∨ t.isDict = false) :
    mergeValue old t = if old.isNone then old else t := by
  cases old with
  | plain type data => cases type <;> cases t <;> rfl
  | dict entries =>
    cases t with
    | dict entries' => rcases h with h | h <;> cases h
    | plain | string | oid | list | table => rfl
  | string | oid | list | table => cases t <;> rfl

def Meet (x y : List (Bytes × DynTree)) (k : Bytes) : Prop :=
  ∃ x' y', get? bytesLt k x = some (.dict x') ∧ get? bytesLt k y = some (.dict y')

/-- The handle stands for the tree.  Dicts that are reached through dicts are in `R`, each of
them in one way; everything else is in `F`. -/
inductive Branch (m : Store) (F : Set ℕ) : Set ℕ → Dyn → DynTree → Prop where
  | leaf {R : Set ℕ} {x : Dyn} {t : DynTree} (hleaf : t.isDict = false) (hshows : Shows m F x t) :
      Branch m F R x t
  | dict {R : Set ℕ} {a : ℕ} {E : List (Bytes × Dyn)} {T : List (Bytes × DynTree)}
      (S : Bytes → Set ℕ)
      (hobj : m.objs a = some (.map E)) (ha : a ∈ R) (hsorted : Sorted bytesLt E)
      (hkeys : E.map Prod.fst = T.map Prod.fst) (hsub : ∀ k, S k ⊆ R) (hself : ∀ k, a ∉ S k)
      (hapart : ∀ k k', k ≠ k' → Disjoint (S k) (S k'))
      (hvalues : ∀ (k : Bytes) (x : Dyn) (t : DynTree),
        get? bytesLt k E = some x → get? bytesLt k T = some t → Branch m F (S k) x t) :
      Branch m F R (.shared a) (.dict T)

/-- The map at `a` and what is under its keys, with separate dicts `S k` for each. -/
structure Children (m : Store) (F : Set ℕ) (a : ℕ) (E : List (Bytes × Dyn))
    (T : List (Bytes × DynTree))
    (S : Bytes → Set ℕ) : Prop where
  obj : m.objs a = some (.map E)
  sorted : Sorted bytesLt E
  keys : E.map Prod.fst = T.map Prod.fst
  self : ∀ k, a ∉ S k
  apart : ∀ k k', k ≠ k' → Disjoint (S k) (S k')
  values : ∀ (k : Bytes) (x : Dyn) (t : DynTree),
    get? bytesLt k E = some x → get? bytesLt k T = some t → Branch m F (S k) x t

section Branch
variable {m m' : Store} {F R R' Z : Set ℕ} {a b : ℕ} {k : Bytes} {x y : Dyn} {t : DynTree}
  {E E' : List (Bytes × Dyn)} {T T' : List (Bytes × DynTree)} {S S' : Bytes → Set ℕ}

theorem Branch.frame (h : Branch m F R x t) (hF : Set.EqOn m'.objs m.objs F)
    (hR : Set.EqOn m'.objs m.objs R) :
    Branch m' F R x t := by
  induction h with
  | leaf hleaf hshows => exact .leaf hleaf (hshows.frame hF subset_rfl)
  | dict S hobj ha hsorted hkeys hsub hself hapart _ ih =>
    refine .dict S ((hR ha).trans hobj) ha hsorted hkeys hsub hself hapart fun k x t hx ht => ?_
    exact ih k x t hx ht (hR.mono (hsub k))

theorem Branch.mono (h : Branch m F R x t) (hR : R ⊆ R') : Branch m F R' x t := by
  cases h with
  | leaf hleaf hshows => exact .leaf hleaf hshows
  | dict S hobj ha hsorted hkeys hsub hself hapart hvalues =>
    exact .dict S hobj (hR ha) hsorted hkeys (fun k => (hsub k).trans hR) hself hapart hvalues

theorem Branch.shows (h : Branch m F R x t) : Shows m (F ∪ R) x t := by
  induction h with
  | leaf hleaf hshows => exact hshows.mono Set.subset_union_left
  | dict S hobj ha hsorted hkeys hsub _ _ _ ih =>
    refine .dict hobj (.inr ha) hsorted hkeys fun k x t hx ht => ?_
    exact (ih k x t hx ht).mono (Set.union_subset_union_right F (hsub k))

theorem Branch.children (h : Branch m F R x (.dict T)) :
    ∃ a E S, x = .shared a ∧ a ∈ R ∧ (∀ k, S k ⊆ R) ∧ Children m F a E T S := by
  cases h with
  | leaf hleaf => cases hleaf
  | @dict _ a E _ S hobj ha hsorted hkeys hsub hself hapart hvalues =>
    exact ⟨a, E, S, rfl, ha, hsub, hobj, hsorted, hkeys, hself, hapart, hvalues⟩

theorem Children.branch (h : Children m F a E T S) (ha : a ∈ R) (hsub : ∀ k, S k ⊆ R) :
    Branch m F R (.shared a) (.dict T) :=
  .dict S h.obj ha h.sorted h.keys hsub h.self h.apart h.values

theorem Children.frame (h : Children m F a E T S) (ha : m'.objs a = m.objs a)
    (hF : Set.EqOn m'.objs m.objs F) (hS : ∀ k, Set.EqOn m'.objs m.objs (S k)) :
    Children m' F a E T S :=
  ⟨ha.trans h.obj, h.sorted, h.keys, h.self, h.apart,
    fun k x t hx ht => (h.values k x t hx ht).frame hF (hS k)⟩

theorem Children.set (h : Children m F a E T S)
    (hobj : m'.objs a = some (.map (update bytesLt k .undef (fun _ => x) E)))
    (hx : Branch m' F Z x t) (ha : a ∉ Z) (hZ : ∀ k', k ≠ k' → Disjoint Z (S k'))
    (hF : Set.EqOn m'.objs m.objs F) (hS : ∀ k', k ≠ k' → Set.EqOn m'.objs m.objs (S k')) :
    Children m' F a (update bytesLt k .undef (fun _ => x) E)
      (update bytesLt k .undef (fun _ => t) T)
      (Function.update S k Z) := by
  refine ⟨hobj, update_sorted bytesLt_strictWeak h.sorted .., keys_update_congr h.keys ..,
    fun k' => ?_, fun k₁ k₂ hne => ?_, fun k' x' t' hx' ht' => ?_⟩
  · by_cases hk : k' = k
    · subst hk
      rwa [Function.update_self]
    · rw [Function.update_of_ne hk]
      exact h.self k'
  · by_cases h₁ : k₁ = k
    · subst h₁
      rw [Function.update_self, Function.update_of_ne hne.symm]
      exact hZ k₂ hne
    · rw [Function.update_of_ne h₁]
      by_cases h₂ : k₂ = k
      · subst h₂
        rw [Function.update_self]
        exact (hZ k₁ hne.symm).symm
      · rw [Function.update_of_ne h₂]
        exact h.apart k₁ k₂ hne
  · rw [get?_update_bytes] at hx' ht'
    by_cases hk : k = k'
    · subst hk
      rw [if_pos rfl] at hx' ht'
      cases hx'
      cases ht'
      rwa [Function.update_self]
    · rw [if_neg hk] at hx' ht'
      rw [Function.update_of_ne (Ne.symm hk)]
      exact (h.values k' x' t' hx' ht').frame hF (hS k' hk)

theorem Shows.dictAddr {P : Set ℕ} (h : Shows m P x t) (hleaf : t.isDict = false) :
    m.dictAddr x = none := by
  cases h with
  | plain type data => rfl
  | string hobj | oid hobj | list hobj | table hobj => simp only [Store.dictAddr, Store.get, hobj]
  | dict => cases hleaf

theorem Children.dictAddr (h : Children m F a E T S) : m.dictAddr (.shared a) = some a := by
  simp only [Store.dictAddr, Store.get, h.obj]

theorem lookup_of_map (hobj : m.objs b = some (.map E)) (k : Bytes) :
    m.lookup b k = get? bytesLt k E := by
  rw [Store.lookup, hobj]

theorem Branch.leaf_shows (h : Branch m F R x t) (hleaf : t.isDict = false) : Shows m F x t := by
  cases h with
  | leaf _ hshows => exact hshows
  | dict => cases hleaf

theorem Branch.isNone (h : Branch m F R x t) : x.isNone = t.isNone := by
  cases h with
  | leaf hleaf hshows =>
    cases hshows with
    | plain type data => cases type <;> rfl
    | string | oid | list | dict | table => rfl
  | dict => rfl

end Branch

/-- What is asked of the call for two nested dicts, the second with the value `y`. -/
def Merges (F : Set ℕ) (y : List (Bytes × DynTree)) (merge : ℕ → ℕ → Store → Option Store) : Prop :=
  ∀ (m : Store) (a b : ℕ) (x : List (Bytes × DynTree)) (R Z : Set ℕ),
    Branch m F R (.shared a) (.dict x) →
    Branch m F Z (.shared b) (.dict y) → Disjoint R F → Disjoint Z F → Disjoint R Z →
    ∃ m' R', merge a b m = some m' ∧ Set.EqOn m'.objs m.objs Rᶜ ∧
      Branch m' F R' (.shared a) (.dict (mergeEntries x y)) ∧
      R' ⊆ R ∪ Z ∧ (mergeEntries x y = x → R' ⊆ R)

section Key
variable {m m' : Store} {F Z : Set ℕ} {a b : ℕ} {k : Bytes} {y : Dyn} {t : DynTree}
  {E : List (Bytes × Dyn)}
  {T : List (Bytes × DynTree)} {S : Bytes → Set ℕ} {merge : ℕ → ℕ → Store → Option Store}

structure KeyDone (m m' : Store) (F : Set ℕ) (a : ℕ) (k : Bytes) (y : Dyn) (t : DynTree)
    (E : List (Bytes × Dyn))
    (T : List (Bytes × DynTree)) (S : Bytes → Set ℕ) (Z : Set ℕ) (x' : Dyn) (R' : Set ℕ) :
      Prop where
  children : Children m' F a (update bytesLt k .undef (fun _ => x') E)
    (update bytesLt k .undef (fun old => mergeValue old t) T) (Function.update S k R')
  same : ∀ c, c ≠ a → ((∃ x y, get? bytesLt k T = some (.dict x) ∧ t = .dict y) → c ∉ S k) →
    m'.objs c = m.objs c
  region : R' ⊆ S k ∪ Z
  kept : ∀ told, get? bytesLt k T = some told → mergeValue told t = told → R' ⊆ S k
  met : (∃ x y, get? bytesLt k T = some (.dict x) ∧ t = .dict y) → get? bytesLt k E = some x'
  origin : x' = y ∨ get? bytesLt k E = some x'

theorem Children.old (h : Children m F a E T S) (k : Bytes) :
    Branch m F (S k) ((get? bytesLt k E).getD .undef) ((get? bytesLt k T).getD .undef) := by
  cases hE : get? bytesLt k E with
  | none =>
    have hT : get? bytesLt k T = none := by
      by_contra hne
      obtain ⟨t, ht⟩ := Option.ne_none_iff_exists'.mp hne
      obtain ⟨x, hx⟩ := get?_of_keys h.keys.symm ht
      rw [hE] at hx
      cases hx
    rw [hT]
    exact .leaf rfl (.plain .undef 0)
  | some x =>
    obtain ⟨t, ht⟩ := get?_of_keys h.keys hE
    rw [ht]
    exact h.values k x t hE ht

theorem entry_of_map (hobj : m.objs a = some (.map E)) (k : Bytes) :
    m.entry a k =
      some ((get? bytesLt k E).getD .undef, m.put a (.map (update bytesLt k .undef id E))) := by
  rw [Store.entry, hobj]

theorem assignEntry_of_map (hobj : m.objs a = some (.map E)) (k : Bytes) (value : Dyn) :
    m.assignEntry a k value =
      some (m.put a
        (.map (update bytesLt k .undef (fun old => if old.isNone then old else value) E))) := by
  rw [Store.assignEntry, hobj]

theorem put_same_map (hobj : m.objs a = some (.map E)) : m.put a (.map E) = m := by
  rw [Store.put, ← hobj, Function.update_eq_self]

theorem updateKey_meet_run {a' b' : ℕ} {E₁ E₂ : List (Bytes × Dyn)}
    (hobj : m.objs a = some (.map E)) (hx : get? bytesLt k E = some (.shared a'))
    (hy : m.lookup b k = some (.shared b')) (ha' : m.objs a' = some (.map E₁))
    (hb' : m.objs b' = some (.map E₂)) : Store.updateKey merge a b m k = merge a' b' m := by
  have hentry : update bytesLt k .undef id E = E := by
    rw [update_const, hx, id, Option.getD_some, update_of_get?_self hx]
  have hold : m.dictAddr (.shared a') = some a' := by simp only [Store.dictAddr, Store.get, ha']
  have hnew : m.dictAddr (.shared b') = some b' := by simp only [Store.dictAddr, Store.get, hb']
  rw [Store.updateKey, entry_of_map hobj, hx, hentry, put_same_map hobj]
  simp only [Option.bind_eq_bind, Option.bind_some, Option.getD_some, hy, hold, hnew]

theorem updateKey_meet {tx ty : List (Bytes × DynTree)} (hX : Children m F a E T S)
    (hSF : Disjoint (S k) F) (hy : m.lookup b k = some y) (hY : Branch m F Z y (.dict ty))
    (hZF : Disjoint Z F) (haZ : a ∉ Z) (hSZ : ∀ k', Disjoint (S k') Z)
    (hold : get? bytesLt k T = some (.dict tx)) (hmerge : Merges F ty merge) :
    ∃ m' x' R', Store.updateKey merge a b m k = some m' ∧
      KeyDone m m' F a k y (.dict ty) E T S Z x' R' := by
  obtain ⟨x, hx⟩ := get?_of_keys hX.keys.symm hold
  have hwrite : update bytesLt k .undef (fun _ => x) E = E := update_of_get?_self hx _
  obtain ⟨a', E₁, S₁, rfl, ha', -, hX₁⟩ := (hX.values k x _ hx hold).children
  obtain ⟨b', E₂, S₂, rfl, -, -, hY₂⟩ := hY.children
  obtain ⟨m', R', hrun, hsame, hbranch, hregion, hkept⟩ :=
    hmerge m a' b' tx (S k) Z (hX.values k _ _ hx hold) hY hSF hZF (hSZ k)
  have hsame' : ∀ c, c ∉ S k → m'.objs c = m.objs c := fun c hc => hsame hc
  refine ⟨m', .shared a', R', ?_, ?_, fun c _ hc => hsame' c (hc ⟨tx, ty, hold, rfl⟩), hregion, ?_,
    fun _ => hx, .inr hx⟩
  · rw [updateKey_meet_run hX.obj hx hy hX₁.obj hY₂.obj, hrun]
  · rw [update_const bytesLt k .undef (fun old => mergeValue old (.dict ty)), hold,
      Option.getD_some]
    have hdisj : ∀ k', k ≠ k' → Disjoint R' (S k') := by
      intro k' hk
      exact Set.disjoint_of_subset_left hregion ((hX.apart k k' hk).union_left (hSZ k').symm)
    refine hX.set ?_ ?_ (fun h => ?_) hdisj (fun c hc => hsame' c ?_) fun k' hk c hc => hsame' c ?_
    · rw [hwrite, hsame' a (hX.self k), hX.obj]
    · exact hbranch
    · rcases hregion h with h | h
      · exact hX.self k h
      · exact haZ h
    · exact fun h => Set.disjoint_left.mp hSF h hc
    · exact fun h => Set.disjoint_left.mp (hX.apart k k' hk) h hc
  · intro told htold hsameValue
    rw [hold] at htold
    cases htold
    exact hkept (DynTree.dict.inj hsameValue)

theorem updateKey_assign_run (hX : Children m F a E T S) (haF : a ∉ F) (hy : m.lookup b k = some y)
    (hba : b ≠ a) (hY : Branch m F Z y t)
    (hleaf : ((get? bytesLt k T).getD .undef).isDict = false ∨ t.isDict = false) :
    Store.updateKey merge a b m k = some (m.put a (.map (update bytesLt k .undef
      (fun _ => if ((get? bytesLt k E).getD .undef).isNone then (get? bytesLt k E).getD .undef
        else y) E))) := by
  have hold := hX.old k
  set old := (get? bytesLt k E).getD .undef with hold_def
  set x' := if old.isNone then old else y
  have hwrite : update bytesLt k .undef (fun old => if old.isNone then old else y)
    (update bytesLt k .undef id E) =
      update bytesLt k .undef (fun _ => x') E := by
    rw [update_update bytesLt_strictWeak, update_const]
    rfl
  set m₁ := m.put a (.map (update bytesLt k .undef id E))
  have hsame₁ : ∀ c, c ≠ a → m₁.objs c = m.objs c := fun c hc => Store.put_same _ hc
  have hF₁ : Set.EqOn m₁.objs m.objs F := fun c hc => hsame₁ c (fun h => haF (h ▸ hc))
  have hlook : m₁.lookup b k = some y := by
    rw [Store.lookup, hsame₁ b hba]
    exact hy
  have hnot : m₁.dictAddr old = none ∨ m₁.dictAddr y = none := by
    rcases hleaf with hl | hl
    · exact .inl (((hold.leaf_shows hl).frame hF₁ subset_rfl).dictAddr hl)
    · exact .inr (((hY.leaf_shows hl).frame hF₁ subset_rfl).dictAddr hl)
  rw [Store.updateKey, entry_of_map hX.obj]
  simp only [Option.bind_eq_bind, Option.bind_some, ← hold_def]
  show (m₁.lookup b k).bind _ = _
  rw [hlook, Option.bind_some]
  have hassign : m₁.assignEntry a k y =
      some (m.put a (.map (update bytesLt k .undef (fun _ => x') E))) := by
    rw [assignEntry_of_map (Store.put_self ..), hwrite]
    simp only [Store.put, Function.update_idem]
  show (match m₁.dictAddr old, m₁.dictAddr y with
    | some a', some b' => merge a' b' m₁
    | _, _ => m₁.assignEntry a k y) = _
  rcases hnot with h | h
  · simp only [h, hassign]
  · cases hd : m₁.dictAddr old <;> simp only [h, hassign]

theorem updateKey_assign (hX : Children m F a E T S) (haF : a ∉ F) (hy : m.lookup b k = some y)
    (hba : b ≠ a) (hY : Branch m F Z y t) (haZ : a ∉ Z) (hSZ : ∀ k', Disjoint (S k') Z)
    (hno : ∀ told, get? bytesLt k T = some told → told.isDict = false ∨ t.isDict = false) :
    ∃ m' x' R', Store.updateKey merge a b m k = some m' ∧ KeyDone m m' F a k y t E T S Z x' R' := by
  have hold := hX.old k
  have hleaf : ((get? bytesLt k T).getD .undef).isDict = false ∨ t.isDict = false := by
    cases hT : get? bytesLt k T with
    | none => exact .inl rfl
    | some told => exact hno told hT
  set old := (get? bytesLt k E).getD .undef with hold_def
  set told := (get? bytesLt k T).getD .undef with htold_def
  set x' := if old.isNone then old else y with hx'
  set R' := if old.isNone then S k else if t.isDict then Z else S k with hR'
  set m' := m.put a (.map (update bytesLt k .undef (fun _ => x') E)) with hm'
  have hsame : ∀ c, c ≠ a → m'.objs c = m.objs c := fun c hc => Store.put_same _ hc
  have hF : Set.EqOn m'.objs m.objs F := fun c hc => hsame c (fun h => haF (h ▸ hc))
  have hnone : old.isNone = told.isNone := hold.isNone
  have hvalue : mergeValue told t = if old.isNone then told else t := by
    rw [mergeValue_eq told t hleaf, hnone]
  refine ⟨m', x', R', updateKey_assign_run hX haF hy hba hY hleaf,
    ⟨?_, fun c hc _ => hsame c hc, ?_, ?_, ?_, ?_⟩⟩
  · rw [update_const bytesLt k .undef (fun old => mergeValue old t), ← htold_def]
    -- the value is kept or taken from the source map; either way its region is apart from the other
    -- keys
    have hnotZ : ∀ k', k ≠ k' → Disjoint R' (S k') := by
      intro k' hk
      rw [hR']
      split_ifs
      · exact hX.apart k k' hk
      · exact (hSZ k').symm
      · exact hX.apart k k' hk
    refine hX.set (Store.put_self ..) ?_ ?_ hnotZ hF fun k' _ c hc => hsame c ?_
    · rw [hvalue, hx', hR']
      split_ifs with h1 h2
      · exact hold.frame hF fun c hc => hsame c (fun h => hX.self k (h ▸ hc))
      · exact hY.frame hF fun c hc => hsame c (fun h => haZ (h ▸ hc))
      · have hl : t.isDict = false := Bool.eq_false_of_not_eq_true h2
        exact .leaf hl ((hY.leaf_shows hl).frame hF subset_rfl)
    · rw [hR']
      split_ifs
      · exact hX.self k
      · exact haZ
      · exact hX.self k
    · exact fun h => hX.self k' (h ▸ hc)
  · rw [hR']
    split_ifs
    · exact Set.subset_union_left
    · exact Set.subset_union_right
    · exact Set.subset_union_left
  · intro told' htold' hkeep
    obtain rfl : told = told' := by rw [htold_def, htold', Option.getD_some]
    rw [hR']
    split_ifs with h1 h2
    · exact subset_rfl
    · -- a dict cannot be stored here without a change
      rw [hvalue, if_neg h1] at hkeep
      rcases hleaf with hl | hl
      · rw [← hkeep, h2] at hl
        cases hl
      · rw [h2] at hl
        cases hl
    · exact subset_rfl
  · rintro ⟨tx, ty, htx, rfl⟩
    rcases hno _ htx with h | h <;> cases h
  · rw [hx']
    split_ifs with h1
    · refine .inr ?_
      rw [hold_def] at h1 ⊢
      cases hE : get? bytesLt k E with
      | none =>
        rw [hE] at h1
        cases h1
      | some x => rfl
    · exact .inl rfl

theorem isDict_of_not_meet {told t : DynTree} (h : ¬∃ tx ty, told = .dict tx ∧ t = .dict ty) :
    told.isDict = false ∨ t.isDict = false := by
  cases told with
  | dict tx =>
    cases t with
    | dict ty => exact absurd ⟨tx, ty, rfl, rfl⟩ h
    | plain | string | oid | list | table => exact .inr rfl
  | plain | string | oid | list | table => exact .inl rfl

theorem updateKey_done (hX : Children m F a E T S) (haF : a ∉ F) (hSF : Disjoint (S k) F)
    (hy : m.lookup b k = some y) (hba : b ≠ a) (hY : Branch m F Z y t) (hZF : Disjoint Z F)
    (haZ : a ∉ Z) (hSZ : ∀ k', Disjoint (S k') Z)
    (hmerge : ∀ ty, t = .dict ty → Merges F ty merge) :
    ∃ m' x' R', Store.updateKey merge a b m k = some m' ∧ KeyDone m m' F a k y t E T S Z x' R' := by
  by_cases hmeet : ∃ tx ty, get? bytesLt k T = some (.dict tx) ∧ t = .dict ty
  · obtain ⟨tx, ty, hold, rfl⟩ := hmeet
    exact updateKey_meet hX hSF hy hY hZF haZ hSZ hold (hmerge ty rfl)
  · apply updateKey_assign hX haF hy hba hY haZ hSZ
    intro told htold
    apply isDict_of_not_meet
    rintro ⟨tx, ty, rfl, hty⟩
    exact hmeet ⟨tx, ty, htold, hty⟩

end Key

/-- The result of the loop over the keys of `Y`. -/
structure LoopDone (m m' : Store) (F : Set ℕ) (a b : ℕ) (E E' : List (Bytes × Dyn))
    (T Y : List (Bytes × DynTree))
    (S SY S' : Bytes → Set ℕ) : Prop where
  children : Children m' F a E' (mergeEntries T Y) S'
  same : ∀ c, c ≠ a → (∀ k, Meet T Y k → c ∉ S k) → m'.objs c = m.objs c
  region : ∀ k, S' k ⊆ S k ∪ SY k
  kept : ∀ k, get? bytesLt k (mergeEntries T Y) = get? bytesLt k T → S' k ⊆ S k
  met : ∀ k, Meet T Y k → get? bytesLt k E' = get? bytesLt k E
  other : ∀ k, get? bytesLt k Y = none → get? bytesLt k E' = get? bytesLt k E
  origin : ∀ k x, get? bytesLt k E' = some x → get? bytesLt k E = some x ∨ m.lookup b k = some x

section Loop
variable {m : Store} {F : Set ℕ} {a b : ℕ} {E : List (Bytes × Dyn)} {T Y : List (Bytes × DynTree)}
  {S SY : Bytes → Set ℕ} {merge : ℕ → ℕ → Store → Option Store}

/-- The two maps and what is under their keys have nothing in common that may be written. -/
structure Apart (F : Set ℕ) (a b : ℕ) (S SY : Bytes → Set ℕ) : Prop where
  ne : b ≠ a
  free : a ∉ F
  spine : ∀ k, Disjoint (S k) F
  spine' : ∀ k, Disjoint (SY k) F
  self : ∀ k, a ∉ SY k
  self' : ∀ k, b ∉ SY k
  other : ∀ k, b ∉ S k
  cross : ∀ k k', Disjoint (S k) (SY k')
  inner : ∀ k k', k ≠ k' → Disjoint (SY k) (SY k')

theorem Apart.next {k : Bytes} {R' : Set ℕ} (h : Apart F a b S SY) (hR : R' ⊆ S k ∪ SY k) :
    Apart F a b (Function.update S k R') (Function.update SY k ∅) := by
  have hS : ∀ k', Function.update S k R' k' ⊆ S k' ∪ SY k' := by
    intro k'
    by_cases hk : k' = k
    · subst hk
      rwa [Function.update_self]
    · rw [Function.update_of_ne hk]
      exact Set.subset_union_left
  have hSY : ∀ k', Function.update SY k ∅ k' ⊆ SY k' := by
    intro k'
    by_cases hk : k' = k
    · subst hk
      rw [Function.update_self]
      exact Set.empty_subset _
    · rw [Function.update_of_ne hk]
  refine ⟨h.ne, h.free, fun k' => ?_, fun k' => ?_, fun k' hin => h.self k' (hSY k' hin),
    fun k' hin => h.self' k' (hSY k' hin), fun k' hin => ?_, fun k₁ k₂ => ?_, fun k₁ k₂ hne => ?_⟩
  · exact Set.disjoint_of_subset_left (hS k') ((h.spine k').union_left (h.spine' k'))
  · exact Set.disjoint_of_subset_left (hSY k') (h.spine' k')
  · rcases hS k' hin with hin | hin
    · exact h.other k' hin
    · exact h.self' k' hin
  · by_cases h₂ : k₂ = k
    · subst h₂
      rw [Function.update_self]
      exact Set.disjoint_empty _
    · rw [Function.update_of_ne h₂]
      by_cases h₁ : k₁ = k
      · subst h₁
        rw [Function.update_self]
        exact Set.disjoint_of_subset_left hR
          ((h.cross k₁ k₂).union_left (h.inner k₁ k₂ (Ne.symm h₂)))
      · rw [Function.update_of_ne h₁]
        exact h.cross k₁ k₂
  · exact Set.disjoint_of_subset (hSY k₁) (hSY k₂) (h.inner k₁ k₂ hne)

theorem get?_tail_ne {k k' : Bytes} {t t' : DynTree} (hY : Sorted bytesLt ((k, t) :: Y))
    (h : get? bytesLt k' Y = some t') : k' ≠ k ∧ get? bytesLt k' ((k, t) :: Y) = some t' := by
  have hne : k' ≠ k := by
    rintro rfl
    rw [get?_eq_none_of_lt bytesLt_strictWeak (sorted_cons.mp hY).1] at h
    cases h
  refine ⟨hne, ?_⟩
  rw [get?_cons_bytes hY, if_neg (Ne.symm hne)]
  exact h

theorem KeyDone.loop {m₁ m' : Store} {k : Bytes} {y x' : Dyn} {t : DynTree} {R' : Set ℕ}
    {E' : List (Bytes × Dyn)} {S' : Bytes → Set ℕ} (hY : Sorted bytesLt ((k, t) :: Y))
    (hap : Apart F a b S SY) (hy : m.lookup b k = some y)
    (hkey : KeyDone m m₁ F a k y t E T S (SY k) x' R')
    (hrest : LoopDone m₁ m' F a b (update bytesLt k .undef (fun _ => x') E) E'
      (update bytesLt k .undef (fun old => mergeValue old t) T) Y (Function.update S k R')
      (Function.update SY k ∅) S') :
    LoopDone m m' F a b E E' T ((k, t) :: Y) S SY S' := by
  -- the keys are sorted, so `k` does not come again
  have hnone : get? bytesLt k Y = none :=
    get?_eq_none_of_lt bytesLt_strictWeak (sorted_cons.mp hY).1
  have hT : ∀ k', k ≠ k' →
      get? bytesLt k' (update bytesLt k .undef (fun old => mergeValue old t) T) =
        get? bytesLt k' T :=
    fun k' hk => by rw [get?_update_bytes, if_neg hk]
  have hE : ∀ k', k ≠ k' → get? bytesLt k' (update bytesLt k .undef (fun _ => x') E) =
      get? bytesLt k' E :=
    fun k' hk => by rw [get?_update_bytes, if_neg hk]
  have hE_self : get? bytesLt k E' = some x' := by
    rw [hrest.other k hnone, get?_update_bytes, if_pos rfl]
  have hmeet_self : Meet T ((k, t) :: Y) k ↔ ∃ x y, get? bytesLt k T = some (.dict x) ∧
      t = .dict y := by
    simp only [Meet, get?_cons_bytes hY, if_true, Option.some.injEq]
  have hmeet : ∀ k', k ≠ k' →
      (Meet (update bytesLt k .undef (fun old => mergeValue old t) T) Y k' ↔
        Meet T ((k, t) :: Y) k') := by
    intro k' hk
    simp only [Meet, hT k' hk, get?_cons_bytes hY, if_neg hk]
  have hb : ∀ key, m₁.lookup b key = m.lookup b key := by
    intro key
    rw [Store.lookup, hkey.same b hap.ne fun _ => hap.other k]
    rfl
  refine ⟨hrest.children, fun c hc hout => ?_, fun k' => ?_, fun k' heq => ?_, fun k' hm => ?_,
    fun k' hk' => ?_, fun k' x hx => ?_⟩
  · rw [hrest.same c hc fun k' hm => ?_, hkey.same c hc fun hm => hout k (hmeet_self.mpr hm)]
    have hk : k ≠ k' := by
      rintro rfl
      obtain ⟨_, _, -, hget⟩ := hm
      rw [hnone] at hget
      cases hget
    rw [Function.update_of_ne (Ne.symm hk)]
    exact hout k' ((hmeet k' hk).mp hm)
  · have hsub := hrest.region k'
    by_cases hk : k' = k
    · subst hk
      rw [Function.update_self, Function.update_self, Set.union_empty] at hsub
      exact hsub.trans hkey.region
    · rwa [Function.update_of_ne hk, Function.update_of_ne hk] at hsub
  · by_cases hk : k = k'
    · subst hk
      have hmerged : get? bytesLt k (mergeEntries T ((k, t) :: Y)) =
          get? bytesLt k (update bytesLt k .undef (fun old => mergeValue old t) T) := by
        rw [mergeEntries, get?_mergeEntries _ (sorted_cons.mp hY).2, hnone]
      have hsub := hrest.kept k hmerged
      rw [Function.update_self] at hsub
      rw [hmerged, get?_update_bytes, if_pos rfl] at heq
      obtain ⟨told, htold⟩ : ∃ told, get? bytesLt k T = some told := ⟨_, heq.symm⟩
      rw [htold, Option.getD_some] at heq
      exact hsub.trans (hkey.kept told htold (Option.some.inj heq))
    · have hsub := hrest.kept k' (heq.trans (hT k' hk).symm)
      rwa [Function.update_of_ne (Ne.symm hk)] at hsub
  · by_cases hk : k = k'
    · subst hk
      rw [hE_self, hkey.met (hmeet_self.mp hm)]
    · rw [hrest.met k' ((hmeet k' hk).mpr hm), hE k' hk]
  · rw [get?_cons_bytes hY] at hk'
    split_ifs at hk' with hk
    rw [hrest.other k' hk', hE k' hk]
  · rcases hrest.origin k' x hx with h | h
    · by_cases hk : k = k'
      · subst hk
        rw [get?_update_bytes, if_pos rfl] at h
        cases h
        rcases hkey.origin with rfl | h
        · exact .inr hy
        · exact .inl h
      · rw [hE k' hk] at h
        exact .inl h
    · rw [hb] at h
      exact .inr h

/-- After a key the map at `b` still has its values. -/
theorem KeyDone.lookups {m₁ : Store} {k : Bytes} {y x' : Dyn} {t : DynTree} {R' : Set ℕ}
    (hY : Sorted bytesLt ((k, t) :: Y)) (hap : Apart F a b S SY)
    (hkey : KeyDone m m₁ F a k y t E T S (SY k) x' R')
    (hlook : ∀ k' t', get? bytesLt k' ((k, t) :: Y) = some t' → ∃ y, m.lookup b k' = some y ∧
      Branch m F (SY k') y t') :
    ∀ k' t', get? bytesLt k' Y = some t' →
      ∃ y, m₁.lookup b k' = some y ∧ m.lookup b k' = some y ∧
        Branch m₁ F (Function.update SY k ∅ k') y t' := by
  have hsame : ∀ c, c ≠ a → c ∉ S k → m₁.objs c = m.objs c := fun c hc hS => hkey.same c hc fun _ =>
    hS
  intro k' t' ht'
  obtain ⟨hne, hget⟩ := get?_tail_ne hY ht'
  obtain ⟨y', hy', hbranch'⟩ := hlook k' t' hget
  refine ⟨y', ?_, hy', ?_⟩
  · rw [Store.lookup, hsame b hap.ne (hap.other k)]
    exact hy'
  · rw [Function.update_of_ne hne]
    refine hbranch'.frame (fun c hc => hsame c (fun h => hap.free (h ▸ hc)) ?_)
      fun c hc => hsame c (fun h => hap.self k' (h ▸ hc)) ?_
    · exact Set.disjoint_right.mp (hap.spine k) hc
    · exact Set.disjoint_right.mp (hap.cross k k') hc

theorem updateKeys_done (hY : Sorted bytesLt Y) (hX : Children m F a E T S) (hap : Apart F a b S SY)
    (hlook : ∀ k t, get? bytesLt k Y = some t → ∃ y, m.lookup b k = some y ∧ Branch m F (SY k) y t)
    (hmerge : ∀ k ty, get? bytesLt k Y = some (.dict ty) → Merges F ty merge) :
    ∃ m' E' S', (Y.map Prod.fst).foldlM (Store.updateKey merge a b) m = some m' ∧
      LoopDone m m' F a b E E' T Y S SY S' := by
  induction Y generalizing m E T S SY with
  | nil =>
    refine ⟨m, E, S, rfl, hX, fun _ _ _ => rfl, fun k => Set.subset_union_left,
      fun _ _ => subset_rfl, fun _ _ => rfl, fun _ _ => rfl, fun _ _ h => .inl h⟩
  | cons e Y ih =>
    obtain ⟨k, t⟩ := e
    have hself : get? bytesLt k ((k, t) :: Y) = some t := by rw [get?_cons_bytes hY, if_pos rfl]
    obtain ⟨y, hy, hbranch⟩ := hlook k t hself
    obtain ⟨m₁, x', R', hrun, hkey⟩ := updateKey_done hX hap.free (hap.spine k) hy hap.ne hbranch
      (hap.spine' k) (hap.self k) (fun k' => hap.cross k' k) fun ty ht => hmerge k ty (ht ▸ hself)
    obtain ⟨m', E', S', hrun', hdone⟩ :=
      ih (sorted_cons.mp hY).2 hkey.children (hap.next hkey.region)
      (fun k' t' ht' => (hkey.lookups hY hap hlook k' t' ht').imp fun _ h => ⟨h.1, h.2.2⟩)
      fun k' ty hty => hmerge k' ty (get?_tail_ne hY hty).2
    refine ⟨m', E', S', ?_, hkey.loop hY hap hy hdone⟩
    rw [List.map_cons, List.foldlM_cons, hrun]
    exact hrun'

theorem Children.apart_from {EY : List (Bytes × Dyn)} {R Z : Set ℕ} (hY : Children m F b EY Y SY)
    (ha : a ∈ R) (hb : b ∈ Z) (hsub : ∀ k, S k ⊆ R) (hsub' : ∀ k, SY k ⊆ Z) (hRF : Disjoint R F)
    (hZF : Disjoint Z F) (hRZ : Disjoint R Z) : Apart F a b S SY := by
  refine ⟨?_, Set.disjoint_left.mp hRF ha, fun k => hRF.mono_left (hsub k),
    fun k => hZF.mono_left (hsub' k), fun k h => Set.disjoint_left.mp hRZ ha (hsub' k h), hY.self,
      fun k h => Set.disjoint_left.mp hRZ (hsub k h) hb, fun k k' =>
        Set.disjoint_of_subset (hsub k) (hsub' k') hRZ, hY.apart⟩
  rintro rfl
  exact Set.disjoint_left.mp hRZ ha hb

theorem LoopDone.merges {m' : Store} {E' : List (Bytes × Dyn)} {S' : Bytes → Set ℕ} {R Z : Set ℕ}
    (h : LoopDone m m' F a b E E' T Y S SY S') (ha : a ∈ R) (hsub : ∀ k, S k ⊆ R)
    (hsub' : ∀ k, SY k ⊆ Z) :
    Set.EqOn m'.objs m.objs Rᶜ ∧
      Branch m' F (insert a (⋃ k, S' k)) (.shared a) (.dict (mergeEntries T Y)) ∧
      insert a (⋃ k, S' k) ⊆ R ∪ Z ∧ (mergeEntries T Y = T → insert a (⋃ k, S' k) ⊆ R) := by
  refine ⟨fun c hc => h.same c ?_ fun k _ hin => hc (hsub k hin), ?_, ?_, fun heq => ?_⟩
  · rintro rfl
    exact hc ha
  · exact h.children.branch (Set.mem_insert _ _) fun k =>
      (Set.subset_iUnion S' k).trans (Set.subset_insert _ _)
  · refine Set.insert_subset (.inl ha) (Set.iUnion_subset fun k => (h.region k).trans ?_)
    exact Set.union_subset_union (hsub k) (hsub' k)
  · refine Set.insert_subset ha (Set.iUnion_subset fun k => (h.kept k ?_).trans (hsub k))
    rw [heq]

/-- Merging the map at `b` into the map at `a`, with fuel for the nesting of the second. -/
theorem dictUpdate_done {EY : List (Bytes × Dyn)} (fuel : ℕ) (hfuel : sizeOf Y < fuel)
    (hX : Children m F a E T S) (hY : Children m F b EY Y SY) (hap : Apart F a b S SY) :
    ∃ m' E' S', Store.dictUpdate fuel a b m = some m' ∧ LoopDone m m' F a b E E' T Y S SY S' := by
  induction hn : sizeOf Y using Nat.strong_induction_on generalizing fuel m a b E T S EY Y SY with
  | _ n ih =>
    subst hn
    obtain ⟨fuel, rfl⟩ : ∃ f, fuel = f + 1 := ⟨fuel - 1, by omega⟩
    have hlook : ∀ k t, get? bytesLt k Y = some t → ∃ y, m.lookup b k = some y ∧
        Branch m F (SY k) y t := by
      intro k t ht
      obtain ⟨y, hy⟩ := get?_of_keys hY.keys.symm ht
      exact ⟨y, (lookup_of_map hY.obj k).trans hy, hY.values k y t hy ht⟩
    have hmerge : ∀ k ty, get? bytesLt k Y = some (.dict ty) →
        Merges F ty (Store.dictUpdate fuel) := by
      intro k ty hty m a b x R Z hx hy hRF hZF hRZ
      have hlt : sizeOf ty < sizeOf Y := by
        have := sizeOf_lt_dict hty
        simp only [DynTree.dict.sizeOf_spec] at this
        omega
      obtain ⟨a', E₁, S₁, heq, ha, hsub, hX₁⟩ := hx.children
      cases heq
      obtain ⟨b', E₂, S₂, heq, hb, hsub', hY₂⟩ := hy.children
      cases heq
      obtain ⟨m', E', S', hrun, hdone⟩ := ih (sizeOf ty) hlt fuel (by omega) hX₁ hY₂
        (hY₂.apart_from ha hb hsub hsub' hRF hZF hRZ) rfl
      exact ⟨m', _, hrun, hdone.merges ha hsub hsub'⟩
    obtain ⟨m', E', S', hrun, hdone⟩ :=
      updateKeys_done (hY.sorted.of_keys hY.keys) hX hap hlook hmerge
    refine ⟨m', E', S', ?_, hdone⟩
    rw [Store.dictUpdate, hY.obj]
    simp only [hY.keys, hrun]

end Loop

end Nkit
