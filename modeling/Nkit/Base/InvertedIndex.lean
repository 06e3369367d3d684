import Nkit.Base.OrderedMap
import Nkit.Base.Renumber
import Mathlib.Logic.Function.Basic

/-! Buckets of row numbers under ordered keys.  `keyAt` says which key each row number
carries at the moment (`none` for a number that carries none), and an index agrees
with it when every bucket holds exactly the numbers that carry its key. -/

namespace InvertedIndex
open OrderedMap Renumber

variable {K : Type*} {lt : K → K → Bool}

/-- The numbers stored under `k`. -/
def bucket (lt : K → K → Bool) (m : List (K × List ℕ)) (k : K) : List ℕ := (get? lt k m).getD []

structure Indexes (lt : K → K → Bool) (keyAt : ℕ → Option K) (m : List (K × List ℕ)) : Prop where
  sorted : Sorted lt m
  nonempty : ∀ k, get? lt k m ≠ some []
  nodup : ∀ k, (bucket lt m k).Nodup
  mem_iff : ∀ k x, x ∈ bucket lt m k ↔ ∃ k', keyAt x = some k' ∧ equiv lt k' k = true

def Ascending (lt : K → K → Bool) (m : List (K × List ℕ)) : Prop :=
  ∀ k, (bucket lt m k).Pairwise (· < ·)

theorem bucket_update (h : StrictWeak lt) (k k' : K) (f : List ℕ → List ℕ)
    (m : List (K × List ℕ)) :
    bucket lt (update lt k [] f m) k' =
      if equiv lt k k' then f (bucket lt m k) else bucket lt m k' := by
  unfold bucket
  rw [get?_update h]
  split_ifs <;> rfl

theorem bucket_erase (h : StrictWeak lt) {m : List (K × List ℕ)} (hs : Sorted lt m) (k k' : K) :
    bucket lt (erase lt k m) k' = if equiv lt k k' then [] else bucket lt m k' := by
  unfold bucket
  rw [get?_erase h hs]
  split_ifs <;> rfl

theorem bucket_mapValues {f : List ℕ → List ℕ} (hf : f [] = []) (m : List (K × List ℕ)) (k : K) :
    bucket lt (mapValues f m) k = f (bucket lt m k) := by
  unfold bucket
  rw [get?_mapValues]
  cases get? lt k m with
  | none => exact hf.symm
  | some rows => rfl

theorem bucket_congr (h : StrictWeak lt) {k k' : K} (he : equiv lt k k' = true)
    (m : List (K × List ℕ)) : bucket lt m k = bucket lt m k' := by
  rw [bucket, bucket, get?_congr h he]

theorem bucket_of_mem (h : StrictWeak lt) {m : List (K × List ℕ)} (hs : Sorted lt m)
    {e : K × List ℕ} (he : e ∈ m) : bucket lt m e.1 = e.2 := by
  rw [bucket, get?_eq_some_of_mem h hs he, Option.getD_some]

theorem get?_of_mem_bucket {m : List (K × List ℕ)} {k : K} {x : ℕ} (hx : x ∈ bucket lt m k) :
    get? lt k m = some (bucket lt m k) := by
  unfold bucket at hx ⊢
  cases hg : get? lt k m with
  | none => simp [hg] at hx
  | some rows => rfl

namespace Indexes

variable {keyAt : ℕ → Option K} {m : List (K × List ℕ)}

theorem mem_bucket (h : StrictWeak lt) (hm : Indexes lt keyAt m) {x : ℕ} {k : K}
    (hx : keyAt x = some k) : x ∈ bucket lt m k :=
  (hm.mem_iff k x).mpr ⟨k, hx, h.equiv_refl k⟩

theorem empty (h : ∀ x, keyAt x = none) : Indexes lt keyAt [] where
  sorted := sorted_nil lt
  nonempty := by simp
  nodup := by simp [bucket]
  mem_iff := by simp [bucket, h]

/-- Entering number `r` under the key it now carries. -/
theorem push (h : StrictWeak lt) (hm : Indexes lt keyAt m) {r : ℕ} (hr : keyAt r = none) (k : K)
    {f : List ℕ → List ℕ} (hf : ∀ rows, (f rows).Perm (r :: rows)) :
    Indexes lt (Function.update keyAt r (some k)) (update lt k [] f m) := by
  have hnotin : ∀ k', r ∉ bucket lt m k' := by
    intro k' hmem
    obtain ⟨k'', hk'', _⟩ := (hm.mem_iff k' r).mp hmem
    rw [hr] at hk''
    cases hk''
  refine ⟨update_sorted h hm.sorted _ _ _, ?_, ?_, ?_⟩
  · intro k'
    rw [get?_update h]
    split_ifs
    · intro he
      have hlen := (hf ((get? lt k m).getD [])).length_eq
      rw [Option.some.inj he] at hlen
      simp at hlen
    · exact hm.nonempty k'
  · intro k'
    rw [bucket_update h]
    split_ifs
    · exact (hf _).nodup_iff.mpr (List.nodup_cons.mpr ⟨hnotin k, hm.nodup k⟩)
    · exact hm.nodup k'
  · intro k' x
    rw [bucket_update h]
    by_cases hxr : x = r
    · subst hxr
      rw [Function.update_self]
      split_ifs with he
      · simp [(hf _).mem_iff, he]
      · simp only [hnotin k', false_iff, not_exists, not_and]
        rintro k'' hk''
        rw [← Option.some.inj hk'']
        exact he
    · rw [Function.update_of_ne hxr]
      split_ifs with he
      · rw [(hf _).mem_iff, List.mem_cons, or_iff_right hxr, bucket_congr h he, hm.mem_iff]
      · exact hm.mem_iff k' x

/-- Taking number `r` out of the bucket of the key it carried. -/
theorem drop (h : StrictWeak lt) (hm : Indexes lt keyAt m) {r : ℕ} {k : K} (hr : keyAt r = some k)
    {m' : List (K × List ℕ)} (hs : Sorted lt m') (hne : ∀ k', get? lt k' m' ≠ some [])
    (hb : ∀ k', bucket lt m' k' =
      if equiv lt k k' then (bucket lt m k).erase r else bucket lt m k') :
    Indexes lt (Function.update keyAt r none) m' := by
  refine ⟨hs, hne, ?_, ?_⟩
  · intro k'
    rw [hb]
    split_ifs
    · exact (hm.nodup k).erase r
    · exact hm.nodup k'
  · intro k' x
    rw [hb]
    by_cases hxr : x = r
    · subst hxr
      rw [Function.update_self]
      split_ifs with he
      · simp [(hm.nodup k).mem_erase_iff]
      · rw [hm.mem_iff, hr]
        simp [he]
    · rw [Function.update_of_ne hxr]
      split_ifs with he
      · rw [List.mem_erase_of_ne hxr, bucket_congr h he, hm.mem_iff]
      · exact hm.mem_iff k' x

theorem relabel (hm : Indexes lt keyAt m) {g : List ℕ → List ℕ} (f : ℕ → ℕ)
    (hg : ∀ k, g (bucket lt m k) = (bucket lt m k).map f) (hg0 : g [] = [])
    {keyAt' : ℕ → Option K} (hto : ∀ x k, keyAt x = some k → keyAt' (f x) = some k)
    (hfrom : ∀ y k, keyAt' y = some k → ∃ x, f x = y ∧ keyAt x = some k)
    (hinj : ∀ x y, keyAt x ≠ none → keyAt y ≠ none → f x = f y → x = y) :
    Indexes lt keyAt' (mapValues g m) := by
  have hused : ∀ k x, x ∈ bucket lt m k → keyAt x ≠ none := by
    intro k x hx
    obtain ⟨k', hk', _⟩ := (hm.mem_iff k x).mp hx
    simp [hk']
  refine ⟨mapValues_sorted hm.sorted g, ?_, ?_, ?_⟩
  · intro k
    rw [get?_mapValues]
    cases hk : get? lt k m with
    | none => simp
    | some rows =>
      have hrows : bucket lt m k = rows := by rw [bucket, hk, Option.getD_some]
      have hne : rows ≠ [] := fun he => hm.nonempty k (he ▸ hk)
      have hmap := hg k
      rw [hrows] at hmap
      simpa [hmap] using hne
  · intro k
    rw [bucket_mapValues hg0, hg]
    exact List.Nodup.map_on (fun x hx y hy => hinj x y (hused k x hx) (hused k y hy)) (hm.nodup k)
  · intro k y
    rw [bucket_mapValues hg0, hg, List.mem_map]
    constructor
    · rintro ⟨x, hx, rfl⟩
      obtain ⟨k', hk', he⟩ := (hm.mem_iff k x).mp hx
      exact ⟨k', hto x k' hk', he⟩
    · rintro ⟨k', hk', he⟩
      obtain ⟨x, rfl, hx⟩ := hfrom y k' hk'
      exact ⟨x, (hm.mem_iff k x).mpr ⟨k', hx, he⟩, rfl⟩

theorem mem_entry (h : StrictWeak lt) (hm : Indexes lt keyAt m) {e : K × List ℕ} (he : e ∈ m)
    (x : ℕ) :
    x ∈ e.2 ↔ ∃ k', keyAt x = some k' ∧ equiv lt k' e.1 = true := by
  rw [← bucket_of_mem h hm.sorted he]
  exact hm.mem_iff e.1 x

theorem entry_nonempty (h : StrictWeak lt) (hm : Indexes lt keyAt m) {e : K × List ℕ} (he : e ∈ m) :
    e.2 ≠ [] := by
  intro hnil
  exact hm.nonempty e.1 (by rw [get?_eq_some_of_mem h hm.sorted he, hnil])

theorem entry_nodup (h : StrictWeak lt) (hm : Indexes lt keyAt m) {e : K × List ℕ} (he : e ∈ m) :
    e.2.Nodup := by
  rw [← bucket_of_mem h hm.sorted he]
  exact hm.nodup e.1

theorem flatten_nodup (h : StrictWeak lt) (hm : Indexes lt keyAt m) :
    (m.flatMap Prod.snd).Nodup := by
  rw [List.nodup_flatMap]
  refine ⟨fun e he => hm.entry_nodup h he, ?_⟩
  refine hm.sorted.imp_of_mem ?_
  intro a b ha hb hab x hxa hxb
  obtain ⟨k, hk, hka⟩ := (hm.mem_entry h ha x).mp hxa
  obtain ⟨k', hk', hkb⟩ := (hm.mem_entry h hb x).mp hxb
  rw [hk] at hk'
  obtain rfl := Option.some.inj hk'
  rw [equiv_comm] at hka
  have hab' := equiv_trans h hka hkb
  rw [not_equiv_of_lt hab] at hab'
  cases hab'

theorem mem_flatten (h : StrictWeak lt) (hm : Indexes lt keyAt m) (x : ℕ) :
    x ∈ m.flatMap Prod.snd ↔ keyAt x ≠ none := by
  rw [List.mem_flatMap]
  constructor
  · rintro ⟨e, he, hx⟩
    obtain ⟨k, hk, _⟩ := (hm.mem_entry h he x).mp hx
    simp [hk]
  · intro hx
    obtain ⟨k, hk⟩ := Option.ne_none_iff_exists'.mp hx
    have hb := hm.mem_bucket h hk
    obtain ⟨k', _, he⟩ := (get?_eq_some_iff h hm.sorted).mp (get?_of_mem_bucket hb)
    exact ⟨_, he, hb⟩

end Indexes

theorem Indexes.unique (h : StrictWeak lt) {keyAt : ℕ → Option K} :
    ∀ {m m' : List (K × List ℕ)}, Indexes lt keyAt m → Ascending lt m → Indexes lt keyAt m' →
      Ascending lt m' → List.Forall₂ (fun a b => equiv lt a.1 b.1 = true ∧ a.2 = b.2) m m' := by
  intro m m' hm ha hm' ha'
  have hb : ∀ k, bucket lt m k = bucket lt m' k := fun k =>
    ascending_ext (ha k) (ha' k) fun x => (hm.mem_iff k x).trans (hm'.mem_iff k x).symm
  have hget : ∀ k, get? lt k m = get? lt k m' := by
    intro k
    have hk := hb k
    unfold bucket at hk
    cases h1 : get? lt k m with
    | none =>
      cases h2 : get? lt k m' with
      | none => rfl
      | some rows =>
        rw [h1, h2] at hk
        exact absurd (h2.trans (congrArg some hk.symm)) (hm'.nonempty k)
    | some rows =>
      cases h2 : get? lt k m' with
      | none =>
        rw [h1, h2] at hk
        exact absurd (h1.trans (congrArg some hk)) (hm.nonempty k)
      | some rows' =>
        rw [h1, h2] at hk
        exact congrArg some hk
  -- lookups determine a sorted container up to equivalence of its keys
  have hs := hm.sorted
  have hs' := hm'.sorted
  clear hm ha hm' ha' hb
  induction m generalizing m' with
  | nil =>
    cases m' with
    | nil => exact List.Forall₂.nil
    | cons e m' =>
      have he := (hget e.1).trans (get?_eq_some_of_mem h hs' List.mem_cons_self)
      cases he
  | cons e m ih =>
    cases m' with
    | nil =>
      have he := (get?_eq_some_of_mem h hs List.mem_cons_self).symm.trans (hget e.1)
      cases he
    | cons e' m' =>
      obtain ⟨hlt, hs⟩ := sorted_cons.mp hs
      obtain ⟨hlt', hs'⟩ := sorted_cons.mp hs'
      have hee' : equiv lt e.1 e'.1 = true := by
        have h1 := hget e.1
        have h2 := hget e'.1
        simp only [get?_cons, h.irrefl] at h1 h2
        cases hab : lt e.1 e'.1 with
        | true => simp [hab, h.asymm hab] at h1
        | false =>
          cases hba : lt e'.1 e.1 with
          | true => simp [hab, hba] at h2
          | false => simp [equiv, hab, hba]
      have hval : e.2 = e'.2 := by
        have h1 := hget e.1
        have hab := hee'
        simp only [equiv, Bool.and_eq_true, Bool.not_eq_true'] at hab
        simpa [get?_cons, h.irrefl, hab.1, hab.2] using h1
      refine List.Forall₂.cons ⟨hee', hval⟩ (ih ?_ hs hs')
      intro k
      have hk := hget k
      simp only [get?_cons, h.lt_left_congr hee', h.lt_right_congr hee'] at hk
      cases hlk : lt e'.1 k with
      | true => simpa [hlk] using hk
      | false =>
        -- a key not after the heads finds nothing in either tail
        have hle : ∀ c, lt e'.1 c = true → lt k c = true := by
          intro c hc
          rcases h.cotrans k hc with h1 | h1
          · rw [hlk] at h1
            cases h1
          · exact h1
        rw [get?_eq_none_of_lt h fun a ham =>
            hle _ ((h.lt_left_congr hee' a.1).symm.trans (hlt a ham)),
          get?_eq_none_of_lt h fun a ham => hle _ (hlt' a ham)]

end InvertedIndex
