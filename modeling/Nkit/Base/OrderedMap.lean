import Mathlib.Data.List.Sort
import Mathlib.Tactic.Tauto
import Mathlib.Tactic.ByContra

/-! An ordered associative container under a caller-supplied comparison, as its
in-order sequence of entries.  A position in the container is the suffix of that
sequence starting there, and the end position is the empty suffix. -/

namespace OrderedMap

variable {K V : Type*}

/-- What an ordered container requires of its comparison. -/
structure StrictWeak (lt : K → K → Bool) : Prop where
  asymm : ∀ {a b}, lt a b = true → lt b a = false
  cotrans : ∀ {a b} (c), lt a b = true → lt a c = true ∨ lt c b = true

def equiv (lt : K → K → Bool) (a b : K) : Bool := !lt a b && !lt b a

/-- Entries in strictly increasing key order. -/
def Sorted (lt : K → K → Bool) (m : List (K × V)) : Prop :=
  m.Pairwise fun a b => lt a.1 b.1 = true

/-- First position whose key does not come before `k`. -/
def lowerBound (lt : K → K → Bool) (k : K) (m : List (K × V)) : List (K × V) :=
  m.dropWhile fun e => lt e.1 k

/-- First position whose key comes after `k`. -/
def upperBound (lt : K → K → Bool) (k : K) (m : List (K × V)) : List (K × V) :=
  m.dropWhile fun e => !lt k e.1

/-- Position of the entry under `k`, the end position if there is none. -/
def find (lt : K → K → Bool) (k : K) (m : List (K × V)) : List (K × V) :=
  match lowerBound lt k m with
  | [] => []
  | e :: rest => if lt k e.1 then [] else e :: rest

/-- The value under `k`. -/
def get? (lt : K → K → Bool) (k : K) (m : List (K × V)) : Option V :=
  (find lt k m).head?.map Prod.snd

/-- Access by `operator[]`: an absent key is entered with value `d`, then the value
under the key is replaced by `f` of itself. -/
def update (lt : K → K → Bool) (k : K) (d : V) (f : V → V) : List (K × V) → List (K × V)
  | [] => [(k, f d)]
  | e :: rest =>
    if lt e.1 k then e :: update lt k d f rest
    else if lt k e.1 then (k, f d) :: e :: rest
    else (e.1, f e.2) :: rest

/-- Removal of the entry under `k`. -/
def erase (lt : K → K → Bool) (k : K) : List (K × V) → List (K × V)
  | [] => []
  | e :: rest =>
    if lt e.1 k then e :: erase lt k rest
    else if lt k e.1 then e :: rest
    else rest

namespace StrictWeak

variable {lt : K → K → Bool} (h : StrictWeak lt)
include h

theorem irrefl (a : K) : lt a a = false := by
  cases ha : lt a a with
  | false => rfl
  | true => simpa [ha] using h.asymm ha

theorem trans {a b c : K} (hab : lt a b = true) (hbc : lt b c = true) : lt a c = true := by
  rcases h.cotrans c hab with hac | hcb
  · exact hac
  · rw [h.asymm hbc] at hcb
    cases hcb

theorem equiv_refl (a : K) : equiv lt a a = true := by
  simp [equiv, h.irrefl a]

/-- A key equivalent to `b` compares with every other key as `b` does. -/
theorem lt_left_congr {a b : K} (he : equiv lt a b = true) (c : K) : lt a c = lt b c := by
  simp only [equiv, Bool.and_eq_true, Bool.not_eq_true'] at he
  rw [Bool.eq_iff_iff]
  constructor
  · intro hac
    rcases h.cotrans b hac with hab | hbc
    · rw [he.1] at hab
      cases hab
    · exact hbc
  · intro hbc
    rcases h.cotrans a hbc with hba | hac
    · rw [he.2] at hba
      cases hba
    · exact hac

theorem lt_right_congr {a b : K} (he : equiv lt a b = true) (c : K) : lt c a = lt c b := by
  simp only [equiv, Bool.and_eq_true, Bool.not_eq_true'] at he
  rw [Bool.eq_iff_iff]
  constructor
  · intro hca
    rcases h.cotrans b hca with hcb | hba
    · exact hcb
    · rw [he.2] at hba
      cases hba
  · intro hcb
    rcases h.cotrans a hcb with hca | hab
    · exact hca
    · rw [he.1] at hab
      cases hab

end StrictWeak

theorem equiv_comm (lt : K → K → Bool) (a b : K) : equiv lt a b = equiv lt b a := by
  simp only [equiv, Bool.and_comm]

theorem equiv_trans {lt : K → K → Bool} (h : StrictWeak lt) {a b c : K}
    (hab : equiv lt a b = true) (hbc : equiv lt b c = true) : equiv lt a c = true := by
  simp only [equiv, h.lt_left_congr hab, h.lt_right_congr hab]
  simpa only [equiv] using hbc

theorem equiv_left_congr {lt : K → K → Bool} (h : StrictWeak lt) {a b : K}
    (hab : equiv lt a b = true) (c : K) : equiv lt a c = equiv lt b c := by
  simp only [equiv, h.lt_left_congr hab, h.lt_right_congr hab]

theorem not_equiv_of_lt {lt : K → K → Bool} {a b : K} (h : lt a b = true) :
    equiv lt a b = false := by
  simp [equiv, h]

theorem StrictWeak.comap {L : Type*} {lt : K → K → Bool} (h : StrictWeak lt) (f : L → K) :
    StrictWeak fun a b => lt (f a) (f b) :=
  ⟨h.asymm, fun c => h.cotrans (f c)⟩

theorem StrictWeak.swap {lt : K → K → Bool} (h : StrictWeak lt) : StrictWeak fun a b => lt b a :=
  ⟨h.asymm, fun c hab => (h.cotrans c hab).symm⟩

theorem strictWeak_false : StrictWeak fun _ _ : K => false :=
  ⟨fun h => (nomatch h), fun _ h => (nomatch h)⟩

/-- Comparison by `lt₁` first and by `lt₂` where `lt₁` does not decide. -/
theorem StrictWeak.lex {lt₁ lt₂ : K → K → Bool} (h₁ : StrictWeak lt₁) (h₂ : StrictWeak lt₂) :
    StrictWeak fun a b => lt₁ a b || (!lt₁ b a && lt₂ a b) := by
  constructor
  · intro a b hab
    simp only [Bool.or_eq_true, Bool.and_eq_true, Bool.not_eq_true'] at hab
    rcases hab with hab | ⟨hba, hab⟩
    · simp [h₁.asymm hab, hab]
    · simp [hba, h₂.asymm hab]
  · intro a b c hab
    simp only [Bool.or_eq_true, Bool.and_eq_true, Bool.not_eq_true'] at hab ⊢
    rcases hab with hab | ⟨hba, hab⟩
    · exact (h₁.cotrans c hab).imp Or.inl Or.inl
    · -- `a` and `b` tie under `lt₁`, so `c` lies on one side of both or ties with both
      cases hac : lt₁ a c with
      | true => exact Or.inl (Or.inl rfl)
      | false =>
        cases hcb : lt₁ c b with
        | true => exact Or.inr (Or.inl rfl)
        | false =>
          have hca : lt₁ c a = false := by
            cases hca : lt₁ c a with
            | false => rfl
            | true =>
              rcases h₁.cotrans b hca with h | h
              · rw [hcb] at h
                cases h
              · rw [hba] at h
                cases h
          have hbc : lt₁ b c = false := by
            cases hbc : lt₁ b c with
            | false => rfl
            | true =>
              rcases h₁.cotrans a hbc with h | h
              · rw [hba] at h
                cases h
              · rw [hac] at h
                cases h
          simpa [hca, hbc] using h₂.cotrans c hab

section LinearOrder

variable {α : Type*} [LT α] [LE α] [Std.IsLinearOrder α] [Std.LawfulOrderLT α] [DecidableLT α]

theorem strictWeak_lt : StrictWeak fun a b : α => decide (a < b) := by
  constructor
  · intro a b hab
    simp only [decide_eq_true_eq, decide_eq_false_iff_not] at hab ⊢
    exact Std.not_lt.mpr (Std.le_of_lt hab)
  · intro a b c hab
    simp only [decide_eq_true_eq] at hab ⊢
    by_cases hac : a < c
    · exact Or.inl hac
    · exact Or.inr (Std.lt_of_le_of_lt (Std.not_lt.mp hac) hab)

theorem equiv_lt_iff {a b : α} : equiv (fun a b : α => decide (a < b)) a b = true ↔ a = b := by
  simp only [equiv, Bool.and_eq_true, Bool.not_eq_true', decide_eq_false_iff_not, Std.not_lt]
  constructor
  · rintro ⟨h1, h2⟩
    exact Std.le_antisymm h2 h1
  · rintro rfl
    exact ⟨Std.le_refl _, Std.le_refl _⟩

end LinearOrder

@[simp] theorem get?_nil (lt : K → K → Bool) (k : K) : get? lt k ([] : List (K × V)) = none := rfl

theorem get?_cons (lt : K → K → Bool) (k : K) (e : K × V) (m : List (K × V)) :
    get? lt k (e :: m) =
      if lt e.1 k then get? lt k m else if lt k e.1 then none else some e.2 := by
  by_cases he : lt e.1 k = true
  · simp [get?, find, lowerBound, he]
  · by_cases hk : lt k e.1 = true <;> simp [get?, find, lowerBound, he, hk]

theorem sorted_nil (lt : K → K → Bool) : Sorted lt ([] : List (K × V)) := List.Pairwise.nil

theorem sorted_cons {lt : K → K → Bool} {e : K × V} {m : List (K × V)} :
    Sorted lt (e :: m) ↔ (∀ e' ∈ m, lt e.1 e'.1 = true) ∧ Sorted lt m := List.pairwise_cons

theorem get?_eq_none_of_lt {lt : K → K → Bool} (h : StrictWeak lt) {k : K} {m : List (K × V)}
    (hk : ∀ e ∈ m, lt k e.1 = true) : get? lt k m = none := by
  cases m with
  | nil => rfl
  | cons e m =>
    have he := hk e List.mem_cons_self
    simp [get?_cons, he, h.asymm he]

theorem get?_eq_some_iff {lt : K → K → Bool} (h : StrictWeak lt) {m : List (K × V)}
    (hs : Sorted lt m) {k : K} {v : V} :
    get? lt k m = some v ↔ ∃ k', equiv lt k k' = true ∧ (k', v) ∈ m := by
  induction m with
  | nil => simp
  | cons e m ih =>
    obtain ⟨hlt, hs⟩ := sorted_cons.mp hs
    rw [get?_cons]
    by_cases he : lt e.1 k = true
    · rw [if_pos he, ih hs]
      constructor
      · rintro ⟨k', hk', hm⟩
        exact ⟨k', hk', List.mem_cons_of_mem _ hm⟩
      · rintro ⟨k', hk', hm⟩
        rcases List.mem_cons.mp hm with rfl | hm
        · rw [equiv_comm, not_equiv_of_lt he] at hk'
          cases hk'
        · exact ⟨k', hk', hm⟩
    · rw [if_neg he]
      by_cases hk : lt k e.1 = true
      · rw [if_pos hk]
        simp only [reduceCtorEq, false_iff]
        rintro ⟨k', hk', hm⟩
        rcases List.mem_cons.mp hm with rfl | hm
        · rw [not_equiv_of_lt hk] at hk'
          cases hk'
        · rw [not_equiv_of_lt (h.trans hk (hlt _ hm))] at hk'
          cases hk'
      · rw [if_neg hk]
        have hke : equiv lt k e.1 = true := by simp [equiv, he, hk]
        constructor
        · intro hv
          exact ⟨e.1, hke, by simp [← Option.some.inj hv]⟩
        · rintro ⟨k', hk', hm⟩
          rcases List.mem_cons.mp hm with rfl | hm
          · rfl
          · have hkk' : lt k k' = true := (h.lt_left_congr hke k').trans (hlt _ hm)
            rw [not_equiv_of_lt hkk'] at hk'
            cases hk'

theorem mem_of_get? {lt : K → K → Bool} {k : K} {v : V} {m : List (K × V)}
    (hk : get? lt k m = some v) :
    ∃ k', (k', v) ∈ m := by
  induction m with
  | nil => cases hk
  | cons e m ih =>
    rw [get?_cons] at hk
    split_ifs at hk
    · obtain ⟨k', hin⟩ := ih hk
      exact ⟨k', List.mem_cons_of_mem e hin⟩
    · cases hk
      exact ⟨e.1, List.mem_cons_self⟩

theorem get?_eq_some_of_mem {lt : K → K → Bool} (h : StrictWeak lt) {m : List (K × V)}
    (hs : Sorted lt m) {e : K × V} (he : e ∈ m) : get? lt e.1 m = some e.2 :=
  (get?_eq_some_iff h hs).mpr ⟨e.1, h.equiv_refl _, he⟩

theorem get?_congr {lt : K → K → Bool} (h : StrictWeak lt) {k k' : K}
    (he : equiv lt k k' = true) (m : List (K × V)) : get? lt k m = get? lt k' m := by
  induction m with
  | nil => rfl
  | cons e m ih => simp only [get?_cons, ih, h.lt_left_congr he, h.lt_right_congr he]

theorem mem_keys_update {lt : K → K → Bool} {k : K} {d : V} {f : V → V} {m : List (K × V)}
    {e : K × V} (he : e ∈ update lt k d f m) : e.1 = k ∨ ∃ e' ∈ m, e'.1 = e.1 := by
  induction m with
  | nil =>
    left
    simpa [update] using congrArg Prod.fst (List.mem_singleton.mp he)
  | cons a m ih =>
    rw [update] at he
    split_ifs at he with h1 h2
    · rcases List.mem_cons.mp he with rfl | he
      · exact Or.inr ⟨e, List.mem_cons_self, rfl⟩
      · rcases ih he with hk | ⟨e', hm, hk⟩
        · exact Or.inl hk
        · exact Or.inr ⟨e', List.mem_cons_of_mem _ hm, hk⟩
    · rcases List.mem_cons.mp he with rfl | he
      · exact Or.inl rfl
      · exact Or.inr ⟨e, he, rfl⟩
    · rcases List.mem_cons.mp he with rfl | he
      · exact Or.inr ⟨a, List.mem_cons_self, rfl⟩
      · exact Or.inr ⟨e, List.mem_cons_of_mem _ he, rfl⟩

theorem value_of_mem_update {lt : K → K → Bool} {k : K} {d : V} {f : V → V} {m : List (K × V)}
    {e : K × V} (he : e ∈ update lt k d f m) : e ∈ m ∨ e.2 = f d ∨ ∃ e' ∈ m, e.2 = f e'.2 := by
  induction m with
  | nil =>
    obtain rfl := List.mem_singleton.mp he
    exact .inr (.inl rfl)
  | cons e₀ m ih =>
    rw [update] at he
    split_ifs at he
    · rcases List.mem_cons.mp he with rfl | he
      · exact .inl List.mem_cons_self
      · rcases ih he with hin | hd | ⟨e', he', heq⟩
        · exact .inl (List.mem_cons_of_mem _ hin)
        · exact .inr (.inl hd)
        · exact .inr (.inr ⟨e', List.mem_cons_of_mem _ he', heq⟩)
    · rcases List.mem_cons.mp he with rfl | he
      · exact .inr (.inl rfl)
      · exact .inl he
    · rcases List.mem_cons.mp he with rfl | he
      · exact .inr (.inr ⟨e₀, List.mem_cons_self, rfl⟩)
      · exact .inl (List.mem_cons_of_mem _ he)

theorem mem_update_new {lt : K → K → Bool} {k : K} {d : V} {f : V → V} {m : List (K × V)}
    (hnew : ∀ e ∈ m, equiv lt e.1 k = false) {e : K × V} :
    e ∈ update lt k d f m ↔ e = (k, f d) ∨ e ∈ m := by
  induction m with
  | nil => rw [update, List.mem_singleton, or_iff_left List.not_mem_nil]
  | cons a m ih =>
    obtain ⟨ha, hm⟩ := List.forall_mem_cons.mp hnew
    rw [update]
    split_ifs with h1 h2
    · rw [List.mem_cons, ih hm, List.mem_cons, or_left_comm]
    · rw [List.mem_cons]
    · simp [equiv, h1, h2] at ha

theorem update_sorted {lt : K → K → Bool} (h : StrictWeak lt) {m : List (K × V)}
    (hs : Sorted lt m) (k : K) (d : V) (f : V → V) : Sorted lt (update lt k d f m) := by
  induction m with
  | nil => exact List.pairwise_singleton _ _
  | cons e m ih =>
    obtain ⟨hlt, hs⟩ := sorted_cons.mp hs
    rw [update]
    split_ifs with h1 h2
    · refine sorted_cons.mpr ⟨?_, ih hs⟩
      intro e' he'
      rcases mem_keys_update he' with hk | ⟨e'', hm, hk⟩
      · rw [hk]
        exact h1
      · rw [← hk]
        exact hlt e'' hm
    · refine sorted_cons.mpr ⟨?_, sorted_cons.mpr ⟨hlt, hs⟩⟩
      intro e' he'
      rcases List.mem_cons.mp he' with rfl | hm
      · exact h2
      · exact h.trans h2 (hlt e' hm)
    · exact sorted_cons.mpr ⟨hlt, hs⟩

theorem get?_update {lt : K → K → Bool} (h : StrictWeak lt) (k k' : K) (d : V) (f : V → V)
    (m : List (K × V)) :
    get? lt k' (update lt k d f m) =
      if equiv lt k k' then some (f ((get? lt k m).getD d)) else get? lt k' m := by
  induction m with
  | nil =>
    simp only [update, get?_cons, get?_nil, Option.getD_none, equiv, Bool.and_eq_true,
      Bool.not_eq_true']
    cases hkk' : lt k k' <;> cases hk'k : lt k' k <;> simp
  | cons e m ih =>
    rw [update, get?_cons lt k e]
    by_cases h1 : lt e.1 k = true
    · rw [if_pos h1, if_pos h1, get?_cons, get?_cons, ih]
      by_cases h2 : lt e.1 k' = true
      · simp [h2]
      · have hne : lt k' k = true := (h.cotrans k' h1).resolve_left h2
        rw [equiv_comm, not_equiv_of_lt hne]
        simp
    · rw [if_neg h1, if_neg h1]
      by_cases h2 : lt k e.1 = true
      · rw [if_pos h2, if_pos h2, get?_cons]
        cases hkk' : lt k k' <;> cases hk'k : lt k' k <;> simp only [equiv, hkk', hk'k]
        · simp
        · have hk'e := h.trans hk'k h2
          simp [get?_cons, hk'e, h.asymm hk'e]
        · simp
        · simp [h.asymm hkk'] at hk'k
      · have hek : equiv lt e.1 k = true := by simp [equiv, h1, h2]
        rw [if_neg h2, if_neg h2, get?_cons, get?_cons, h.lt_left_congr hek, h.lt_right_congr hek]
        cases hkk' : lt k k' <;> cases hk'k : lt k' k <;> simp [equiv, hkk', hk'k]

theorem erase_subset {lt : K → K → Bool} {k : K} {m : List (K × V)} {e : K × V}
    (he : e ∈ erase lt k m) : e ∈ m := by
  induction m with
  | nil => exact he
  | cons a m ih =>
    rw [erase] at he
    split_ifs at he with h1 h2
    · rcases List.mem_cons.mp he with rfl | he
      · exact List.mem_cons_self
      · exact List.mem_cons_of_mem _ (ih he)
    · exact he
    · exact List.mem_cons_of_mem _ he

theorem erase_sorted {lt : K → K → Bool} {m : List (K × V)} (hs : Sorted lt m) (k : K) :
    Sorted lt (erase lt k m) := by
  induction m with
  | nil => exact hs
  | cons e m ih =>
    obtain ⟨hlt, hs'⟩ := sorted_cons.mp hs
    rw [erase]
    split_ifs with h1 h2
    · exact sorted_cons.mpr ⟨fun e' he' => hlt e' (erase_subset he'), ih hs'⟩
    · exact hs
    · exact hs'

theorem get?_erase {lt : K → K → Bool} (h : StrictWeak lt) {m : List (K × V)}
    (hs : Sorted lt m) (k k' : K) :
    get? lt k' (erase lt k m) = if equiv lt k k' then none else get? lt k' m := by
  induction m with
  | nil => simp [erase]
  | cons e m ih =>
    obtain ⟨hlt, hs'⟩ := sorted_cons.mp hs
    simp only [erase]
    by_cases h1 : lt e.1 k = true
    · simp only [h1, if_true, get?_cons, ih hs']
      by_cases h2 : lt e.1 k' = true
      · simp [h2]
      · have hne : lt k' k = true := (h.cotrans k' h1).resolve_left h2
        rw [equiv_comm, not_equiv_of_lt hne]
        simp
    · simp only [h1]
      by_cases h2 : lt k e.1 = true
      · simp only [h2, if_true, Bool.false_eq_true, if_false]
        by_cases hek : equiv lt k k' = true
        · have hk' : ∀ e' ∈ e :: m, lt k' e'.1 = true := by
            intro e' he'
            rw [← h.lt_left_congr hek]
            rcases List.mem_cons.mp he' with rfl | hm
            · exact h2
            · exact h.trans h2 (hlt e' hm)
          rw [if_pos hek, get?_eq_none_of_lt h hk']
        · rw [if_neg hek]
      · have hek : equiv lt e.1 k = true := by simp [equiv, h1, h2]
        simp only [h2, Bool.false_eq_true, if_false, get?_cons]
        by_cases hkk' : equiv lt k k' = true
        · have hk' : ∀ e' ∈ m, lt k' e'.1 = true := by
            intro e' he'
            rw [← h.lt_left_congr (equiv_trans h hek hkk')]
            exact hlt e' he'
          rw [if_pos hkk', get?_eq_none_of_lt h hk']
        · rw [if_neg hkk', h.lt_left_congr hek, h.lt_right_congr hek]
          cases hlk : lt k k' with
          | true => simp
          | false =>
            have hk'k : lt k' k = true := by simpa [equiv, hlk] using hkk'
            have hk' : ∀ e' ∈ m, lt k' e'.1 = true := by
              intro e' he'
              refine h.trans hk'k ?_
              rw [← h.lt_left_congr hek]
              exact hlt e' he'
            simp [hk'k, get?_eq_none_of_lt h hk']

/-- Every value replaced by `f` of itself, keys and positions unchanged. -/
def mapValues (f : V → V) (m : List (K × V)) : List (K × V) := m.map fun e => (e.1, f e.2)

theorem mapValues_sorted {lt : K → K → Bool} {m : List (K × V)} (hs : Sorted lt m) (f : V → V) :
    Sorted lt (mapValues f m) := by
  unfold Sorted mapValues
  rw [List.pairwise_map]
  exact hs

theorem get?_mapValues (lt : K → K → Bool) (k : K) (f : V → V) (m : List (K × V)) :
    get? lt k (mapValues f m) = (get? lt k m).map f := by
  induction m with
  | nil => rfl
  | cons e m ih =>
    simp only [mapValues, List.map_cons, get?_cons] at ih ⊢
    rw [ih]
    split_ifs <;> rfl

theorem update_mapValues_update {lt : K → K → Bool} (h : StrictWeak lt) (k : K) {d : V}
    {g : V → V} (hg : g d = d) (f : V → V) (m : List (K × V)) :
    update lt k d f (mapValues g (update lt k d id m)) = update lt k d f (mapValues g m) := by
  induction m with
  | nil => simp [update, mapValues, hg, h.irrefl]
  | cons e m ih =>
    rw [update]
    split_ifs with h1 h2
    · simp only [mapValues, List.map_cons, update, h1, if_true] at ih ⊢
      rw [ih]
    · simp [mapValues, update, h.irrefl, h1, h2, hg]
    · rfl

/-- Replacing the value under a key by `f v`, where `v` was looked up before. -/
theorem update_of_get?_some {lt : K → K → Bool} {k : K} {v : V} {m : List (K × V)}
    (hk : get? lt k m = some v) (d d' : V) (f : V → V) :
    update lt k d (fun _ => f v) m = update lt k d' f m := by
  induction m with
  | nil => cases hk
  | cons e m ih =>
    rw [get?_cons] at hk
    rw [update, update]
    split_ifs at hk ⊢
    · rw [ih hk]
    · rw [Option.some.inj hk]

theorem update_of_get?_self {lt : K → K → Bool} {k : K} {v : V} {m : List (K × V)}
    (hk : get? lt k m = some v) (d : V) : update lt k d (fun _ => v) m = m := by
  induction m with
  | nil => cases hk
  | cons e m ih =>
    rw [get?_cons] at hk
    rw [update]
    split_ifs at hk ⊢
    · rw [ih hk]
    · rw [← Option.some.inj hk]

theorem update_of_get?_none {lt : K → K → Bool} {k : K} {m : List (K × V)} (hk : get? lt k m = none)
    {d d' : V} {f f' : V → V} (hf : f d = f' d') : update lt k d f m = update lt k d' f' m := by
  induction m with
  | nil => rw [update, update, hf]
  | cons e m ih =>
    rw [get?_cons] at hk
    rw [update, update, hf]
    split_ifs at hk ⊢
    · rw [ih hk]
    · rfl

theorem update_update {lt : K → K → Bool} (h : StrictWeak lt) (k : K) (d d' : V) (f g : V → V)
    (m : List (K × V)) :
    update lt k d' g (update lt k d f m) = update lt k d (fun v => g (f v)) m := by
  induction m with
  | nil => simp [update, h.irrefl]
  | cons e m ih =>
    rw [update, update]
    split_ifs with h1 h2
    · rw [update, if_pos h1, ih]
    · simp [update, h.irrefl]
    · simp [update, h1, h2]

theorem update_const (lt : K → K → Bool) (k : K) (d : V) (f : V → V) (m : List (K × V)) :
    update lt k d f m = update lt k d (fun _ => f ((get? lt k m).getD d)) m := by
  cases hk : get? lt k m with
  | none => exact update_of_get?_none hk rfl
  | some v => exact (update_of_get?_some hk d d f).symm

theorem mem_update_cases {lt : K → K → Bool} {k : K} {d : V} {f : V → V} {m : List (K × V)}
    {e : K × V} (he : e ∈ update lt k d f m) : e.2 = f d ∨ e ∈ m ∨ ∃ e' ∈ m, e.2 = f e'.2 := by
  induction m with
  | nil =>
    obtain rfl := List.mem_singleton.mp he
    exact .inl rfl
  | cons a m ih =>
    rw [update] at he
    split_ifs at he
    · obtain rfl | he := List.mem_cons.mp he
      · exact .inr (.inl List.mem_cons_self)
      · exact (ih he).imp_right (Or.imp (.tail a) fun ⟨e', he', hval⟩ => ⟨e', .tail a he', hval⟩)
    · obtain rfl | he := List.mem_cons.mp he
      · exact .inl rfl
      · exact .inr (.inl he)
    · obtain rfl | he := List.mem_cons.mp he
      · exact .inr (.inr ⟨a, List.mem_cons_self, rfl⟩)
      · exact .inr (.inl (.tail a he))

theorem exists_mem_update (lt : K → K → Bool) (k : K) (d : V) (f : V → V) (m : List (K × V)) :
    (∃ e ∈ update lt k d f m, ∃ v, e.2 = f v) ∧
      ∀ e ∈ m, ∃ e' ∈ update lt k d f m, e'.2 = e.2 ∨ e'.2 = f e.2 := by
  induction m with
  | nil => exact ⟨⟨_, List.mem_singleton_self _, d, rfl⟩, by simp⟩
  | cons a m ih =>
    rw [update]
    split_ifs
    · refine ⟨?_, List.forall_mem_cons.mpr ⟨⟨a, List.mem_cons_self, .inl rfl⟩, fun e he => ?_⟩⟩
      · obtain ⟨e, he, hval⟩ := ih.1
        exact ⟨e, .tail a he, hval⟩
      · obtain ⟨e', he', hval⟩ := ih.2 e he
        exact ⟨e', .tail a he', hval⟩
    · exact ⟨⟨_, List.mem_cons_self, d, rfl⟩, fun e he => ⟨e, .tail _ he, .inl rfl⟩⟩
    · refine ⟨⟨_, List.mem_cons_self, a.2, rfl⟩, List.forall_mem_cons.mpr ⟨?_, fun e he => ?_⟩⟩
      · exact ⟨_, List.mem_cons_self, .inr rfl⟩
      · exact ⟨e, .tail _ he, .inl rfl⟩

theorem keys_update {lt : K → K → Bool} {k : K} {v : V} {m : List (K × V)}
    (hk : get? lt k m = some v) (d : V) (f : V → V) :
    (update lt k d f m).map Prod.fst = m.map Prod.fst := by
  induction m with
  | nil => cases hk
  | cons e m ih =>
    rw [get?_cons] at hk
    rw [update]
    split_ifs at hk ⊢ with h1 h2
    · rw [List.map_cons, List.map_cons, ih hk]
    · rfl

theorem Sorted.ext {lt : K → K → Bool} (h : StrictWeak lt) {m m' : List (K × V)} (hs : Sorted lt m)
    (hs' : Sorted lt m') (hmem : ∀ e, e ∈ m ↔ e ∈ m') : m = m' := by
  have hnodup : ∀ {m : List (K × V)}, Sorted lt m → m.Nodup := fun hs => hs.imp fun hab heq => by
    rw [heq, h.irrefl] at hab
    cases hab
  refine List.Perm.eq_of_pairwise (fun a b _ _ hab hba => ?_) hs hs'
    ((List.perm_ext_iff_of_nodup (hnodup hs) (hnodup hs')).mpr hmem)
  rw [h.asymm hab] at hba
  cases hba

theorem not_equiv_of_mem_erase {lt : K → K → Bool} (h : StrictWeak lt) {m : List (K × V)}
    (hs : Sorted lt m) {k : K} {e : K × V} (he : e ∈ erase lt k m) : equiv lt k e.1 = false := by
  have hget := get?_eq_some_of_mem h (erase_sorted hs k) he
  rw [get?_erase h hs] at hget
  cases htie : equiv lt k e.1 with
  | false => rfl
  | true => simp [htie] at hget

theorem dropWhile_eq_filter {α : Type*} {p : α → Bool} {l : List α}
    (h : l.Pairwise fun a b => p b = true → p a = true) :
    l.dropWhile p = l.filter fun a => !p a := by
  induction l with
  | nil => rfl
  | cons a l ih =>
    obtain ⟨ha, hl⟩ := List.pairwise_cons.mp h
    cases hpa : p a with
    | true => simp [hpa, ih hl]
    | false =>
      have hnone : ∀ b ∈ l, p b = false := by
        intro b hb
        cases hpb : p b with
        | false => rfl
        | true => rw [ha b hb hpb] at hpa; cases hpa
      simp only [List.dropWhile_cons, hpa, List.filter_cons, Bool.not_false, if_true]
      rw [List.filter_eq_self.mpr fun b hb => by rw [hnone b hb]; rfl]
      rfl

theorem lowerBound_eq_filter {lt : K → K → Bool} (h : StrictWeak lt) {m : List (K × V)}
    (hs : Sorted lt m) (k : K) : lowerBound lt k m = m.filter fun e => !lt e.1 k :=
  dropWhile_eq_filter (hs.imp fun hab hb => h.trans hab hb)

theorem upperBound_eq_filter {lt : K → K → Bool} (h : StrictWeak lt) {m : List (K × V)}
    (hs : Sorted lt m) (k : K) : upperBound lt k m = m.filter fun e => lt k e.1 := by
  unfold upperBound
  rw [dropWhile_eq_filter]
  · simp
  · refine hs.imp fun {a b} hab hb => ?_
    cases hka : lt k a.1 with
    | false => rfl
    | true => rw [h.trans hka hab] at hb; cases hb

theorem find_cases {lt : K → K → Bool} {k : K} {m : List (K × V)} (hs : Sorted lt m)
    (htrans : ∀ e ∈ m, ∀ e' ∈ m, lt k e.1 = true → lt e.1 e'.1 = true → lt k e'.1 = true) :
    (find lt k m = lowerBound lt k m ∧ ∃ e rest, find lt k m = e :: rest ∧ e ∈ m ∧
      equiv lt k e.1 = true) ∨
      (find lt k m = [] ∧ ∀ e ∈ m, equiv lt k e.1 = false) := by
  induction m with
  | nil => exact .inr ⟨rfl, by simp⟩
  | cons e m ih =>
    obtain ⟨hfirst, hs⟩ := sorted_cons.mp hs
    cases hlt : lt e.1 k with
    | true =>
      have hskip : lowerBound lt k (e :: m) = lowerBound lt k m := List.dropWhile_cons_of_pos hlt
      have hfind : find lt k (e :: m) = find lt k m := by rw [find, hskip]; rfl
      rw [hskip, hfind]
      refine (ih hs fun a ha b hb => htrans a (.tail e ha) b (.tail e hb)).imp ?_ ?_
      · rintro ⟨heq, e', rest, hcons, hmem, htie⟩
        exact ⟨heq, e', rest, hcons, .tail e hmem, htie⟩
      · rintro ⟨hnil, hnone⟩
        exact ⟨hnil, List.forall_mem_cons.mpr ⟨by simp [equiv, hlt], hnone⟩⟩
    | false =>
      have hstop : lowerBound lt k (e :: m) = e :: m := List.dropWhile_cons_of_neg (by simp [hlt])
      rw [find, hstop]
      cases hke : lt k e.1 with
      | false =>
        exact .inl ⟨by simp [hke], e, m, by simp [hke], List.mem_cons_self,
          by simp [equiv, hke, hlt]⟩
      | true =>
        refine .inr
          ⟨by simp [hke], List.forall_mem_cons.mpr ⟨by simp [equiv, hke], fun e' he' => ?_⟩⟩
        have hafter := htrans e List.mem_cons_self e' (.tail e he') hke (hfirst e' he')
        simp [equiv, hafter]

theorem find_eq {lt : K → K → Bool} (h : StrictWeak lt) {m : List (K × V)} (hs : Sorted lt m)
    (k : K) :
    (find lt k m = lowerBound lt k m ∧ find lt k m ≠ [] ∧ ∃ e ∈ m, equiv lt k e.1 = true) ∨
      (find lt k m = [] ∧ ∀ e ∈ m, equiv lt k e.1 = false) := by
  refine (find_cases hs fun e _ e' _ hke hee => h.trans hke hee).imp_left ?_
  rintro ⟨heq, e, rest, hcons, hmem, htie⟩
  exact ⟨heq, by simp [hcons], e, hmem, htie⟩

section Related
variable {W : Type*} {lt : K → K → Bool}

theorem map_values_update (g : V → W) {f : V → V} (f' : W → W) (hg : ∀ v, g (f v) = f' (g v))
    (k : K) (d : V) (m : List (K × V)) :
    (update lt k d f m).map (fun e => (e.1, g e.2)) =
      update lt k (g d) f' (m.map fun e => (e.1, g e.2)) := by
  induction m with
  | nil => simp [update, hg]
  | cons e m ih =>
    rw [List.map_cons, update, update]
    split_ifs
    · rw [List.map_cons, ih]
    · simp [hg]
    · simp [hg]

/-- Containers that look alike through `p` and `q` still do after updates that look alike. -/
theorem map_update_congr {L : Type*} {p : K → L} {q : V → W}
    (hlt : ∀ {a a' b b'}, p a = p a' → p b = p b' → lt a b = lt a' b') {k k' : K} (hk : p k = p k')
    {d d' : V} {f f' : V → V} (hd : q (f d) = q (f' d'))
    (hf : ∀ {v v'}, q v = q v' → q (f v) = q (f' v')) {m m' : List (K × V)}
    (hm : m.map (Prod.map p q) = m'.map (Prod.map p q)) :
    (update lt k d f m).map (Prod.map p q) = (update lt k' d' f' m').map (Prod.map p q) := by
  induction m generalizing m' with
  | nil =>
    obtain rfl := List.map_eq_nil_iff.mp hm.symm
    simp [update, hk, hd]
  | cons e m ih =>
    cases m' with
    | nil => cases hm
    | cons e' m' =>
      obtain ⟨he, hrest⟩ := List.cons.inj hm
      obtain ⟨hkey, hval⟩ := Prod.mk.inj he
      rw [update, update, hlt hkey hk, hlt hk hkey]
      split_ifs
      · rw [List.map_cons, List.map_cons, he, ih hrest]
      · exact congrArg₂ List.cons (Prod.ext hk hd) hm
      · exact congrArg₂ List.cons (Prod.ext hkey (hf hval)) hrest

theorem map_find_congr {L : Type*} {p : K → L} {q : V → W}
    (hlt : ∀ {a a' b b'}, p a = p a' → p b = p b' → lt a b = lt a' b') {k k' : K} (hk : p k = p k')
    {m m' : List (K × V)} (hm : m.map (Prod.map p q) = m'.map (Prod.map p q)) :
    (find lt k m).map (Prod.map p q) = (find lt k' m').map (Prod.map p q) := by
  induction m generalizing m' with
  | nil =>
    obtain rfl := List.map_eq_nil_iff.mp hm.symm
    rfl
  | cons e m ih =>
    cases m' with
    | nil => cases hm
    | cons e' m' =>
      obtain ⟨he, hrest⟩ := List.cons.inj hm
      obtain ⟨hkey, -⟩ := Prod.mk.inj he
      have hfirst := hlt hkey hk
      cases hlow : lt e.1 k with
      | true =>
        have hskip : find lt k (e :: m) = find lt k m := by simp [find, lowerBound, hlow]
        have hskip' : find lt k' (e' :: m') = find lt k' m' := by
          simp [find, lowerBound, ← hfirst, hlow]
        rw [hskip, hskip', ih hrest]
      | false =>
        have hstop : find lt k (e :: m) = if lt k e.1 then [] else e :: m := by
          simp [find, lowerBound, hlow]
        have hstop' : find lt k' (e' :: m') = if lt k' e'.1 then [] else e' :: m' := by
          simp [find, lowerBound, ← hfirst, hlow]
        rw [hstop, hstop', hlt hk hkey]
        split_ifs
        · rfl
        · exact hm

theorem get?_map_values (g : V → W) (k : K) (m : List (K × V)) :
    get? lt k (m.map fun e => (e.1, g e.2)) = (get? lt k m).map g := by
  induction m with
  | nil => rfl
  | cons e m ih =>
    rw [List.map_cons, get?_cons, get?_cons, ih]
    split_ifs <;> rfl

theorem sorted_iff_keys {m : List (K × V)} :
    Sorted lt m ↔ (m.map Prod.fst).Pairwise fun a b => lt a b = true := by
  rw [List.pairwise_map]
  rfl

theorem Sorted.of_keys {m : List (K × V)} {m' : List (K × W)}
    (hkeys : m.map Prod.fst = m'.map Prod.fst) (hs : Sorted lt m) : Sorted lt m' := by
  rw [sorted_iff_keys, ← hkeys]
  exact sorted_iff_keys.mp hs

theorem keys_update_congr {m : List (K × V)} {m' : List (K × W)}
    (hkeys : m.map Prod.fst = m'.map Prod.fst) (k : K) (d : V) (f : V → V) (d' : W) (f' : W → W) :
    (update lt k d f m).map Prod.fst = (update lt k d' f' m').map Prod.fst := by
  induction m generalizing m' with
  | nil =>
    obtain rfl := List.map_eq_nil_iff.mp hkeys.symm
    rfl
  | cons e m ih =>
    cases m' with
    | nil => cases hkeys
    | cons e' m' =>
      obtain ⟨hfst, hrest⟩ := List.cons.inj hkeys
      rw [update, update, ← hfst]
      split_ifs
      · rw [List.map_cons, List.map_cons, hfst, ih hrest]
      · exact congrArg (List.cons k) hkeys
      · rw [List.map_cons, List.map_cons, hrest]

theorem get?_of_keys {m : List (K × V)} {m' : List (K × W)}
    (hkeys : m.map Prod.fst = m'.map Prod.fst) {k : K} {v : V} (hk : get? lt k m = some v) :
    ∃ w, get? lt k m' = some w := by
  induction m generalizing m' with
  | nil => cases hk
  | cons e m ih =>
    cases m' with
    | nil => cases hkeys
    | cons e' m' =>
      obtain ⟨hfst, hrest⟩ := List.cons.inj hkeys
      rw [get?_cons] at hk ⊢
      rw [← hfst]
      split_ifs at hk ⊢
      · exact ih hrest hk
      · exact ⟨_, rfl⟩

theorem update_last {k : K} {m : List (K × V)} (hk : ∀ e ∈ m, lt e.1 k = true) (d : V) (f : V → V) :
    update lt k d f m = m ++ [(k, f d)] := by
  induction m with
  | nil => rfl
  | cons e m ih =>
    rw [update, if_pos (hk e List.mem_cons_self),
      ih fun e' he' => hk e' (List.mem_cons_of_mem e he')]
    rfl

theorem foldl_update {A : Type*} (key : A → K) (d : A → V) (f : A → V → V) {as : List A}
    {done : List (K × V)} (h : Sorted lt (done ++ as.map fun a => (key a, f a (d a)))) :
    as.foldl (fun m a => update lt (key a) (d a) (f a) m) done = done ++ as.map fun a =>
      (key a, f a (d a)) := by
  induction as generalizing done with
  | nil => rw [List.foldl_nil, List.map_nil, List.append_nil]
  | cons a as ih =>
    have hlast : ∀ e ∈ done, lt e.1 (key a) = true :=
      fun e he => (List.pairwise_append.mp h).2.2 e he (key a, f a (d a)) List.mem_cons_self
    rw [List.map_cons, List.append_cons] at h ⊢
    rw [List.foldl_cons, update_last hlast]
    exact ih h

theorem forall₂_of_get? {R : V → W → Prop} (h : StrictWeak lt) {m : List (K × V)}
    {m' : List (K × W)} (hs : Sorted lt m) (hkeys : m.map Prod.fst = m'.map Prod.fst)
    (hget : ∀ k v w, get? lt k m = some v → get? lt k m' = some w → R v w) :
    List.Forall₂ (fun e e' => e.1 = e'.1 ∧ R e.2 e'.2) m m' := by
  have hs' := hs.of_keys hkeys
  have hlen : m.length = m'.length := by
    have := congrArg List.length hkeys
    rwa [List.length_map, List.length_map] at this
  refine List.forall₂_iff_get.mpr ⟨hlen, fun i hi hi' => ?_⟩
  have hfst : m[i].1 = m'[i].1 := by
    have := congrArg (·[i]?) hkeys
    simpa [hi, hi'] using this
  have hv := get?_eq_some_of_mem h hs (List.getElem_mem hi)
  have hv' := get?_eq_some_of_mem h hs' (List.getElem_mem hi')
  rw [← hfst] at hv'
  exact ⟨hfst, hget _ _ _ hv hv'⟩

theorem keys_of_forall₂ {R : V → W → Prop} {m : List (K × V)} {m' : List (K × W)}
    (h : List.Forall₂ (fun e e' => e.1 = e'.1 ∧ R e.2 e'.2) m m') :
    m.map Prod.fst = m'.map Prod.fst := by
  induction h with
  | nil => rfl
  | cons he _ ih => rw [List.map_cons, List.map_cons, he.1, ih]

theorem get?_of_forall₂ {R : V → W → Prop} {m : List (K × V)} {m' : List (K × W)}
    (h : List.Forall₂ (fun e e' => e.1 = e'.1 ∧ R e.2 e'.2) m m') {k : K} {v : V} {w : W}
    (hv : get? lt k m = some v) (hw : get? lt k m' = some w) : R v w := by
  induction h with
  | nil => cases hv
  | @cons e e' _ _ he _ ih =>
    rw [get?_cons] at hv hw
    rw [← he.1] at hw
    split_ifs at hv hw
    · exact ih hv hw
    · cases hv
      cases hw
      exact he.2

theorem ext_get? {m m' : List (K × V)} (h : StrictWeak lt) (hs : Sorted lt m)
    (hkeys : m.map Prod.fst = m'.map Prod.fst)
    (hget : ∀ k v v', get? lt k m = some v → get? lt k m' = some v' → v = v') :
    m = m' := by
  have heq : List.Forall₂ (· = ·) m m' :=
    (forall₂_of_get? h hs hkeys hget).imp fun _ _ he => Prod.ext he.1 he.2
  exact List.forall₂_eq_eq_eq ▸ heq

inductive Located (lt : K → K → Bool) (k : K) (R : K × V → K × W → Prop) :
    List (K × V) → List (K × W) → Prop where
  | found (pre post : List (K × V)) (pre' post' : List (K × W)) {e : K × V} {e' : K × W}
      (hpre : List.Forall₂ R pre pre') (he : R e e') (hpost : List.Forall₂ R post post')
      (hget : get? lt k (pre ++ e :: post) = some e.2)
        (hget' : get? lt k (pre' ++ e' :: post') = some e'.2)
      (hset : ∀ d v, update lt k d (fun _ => v) (pre ++ e :: post) = pre ++ (e.1, v) :: post)
      (hset' : ∀ d v, update lt k d (fun _ => v) (pre' ++ e' :: post') = pre' ++ (e'.1, v) ::
        post') :
      Located lt k R (pre ++ e :: post) (pre' ++ e' :: post')
  | absent (pre post : List (K × V)) (pre' post' : List (K × W))
      (hpre : List.Forall₂ R pre pre') (hpost : List.Forall₂ R post post')
      (hget : get? lt k (pre ++ post) = none) (hget' : get? lt k (pre' ++ post') = none)
      (hset : ∀ d v, update lt k d (fun _ => v) (pre ++ post) = pre ++ (k, v) :: post)
      (hset' : ∀ d v, update lt k d (fun _ => v) (pre' ++ post') = pre' ++ (k, v) :: post') :
      Located lt k R (pre ++ post) (pre' ++ post')

theorem located {R : K × V → K × W → Prop} (hkey : ∀ e e', R e e' → e.1 = e'.1) (k : K)
    {m : List (K × V)} {m' : List (K × W)} (h : List.Forall₂ R m m') : Located lt k R m m' := by
  induction h with
  | nil => exact .absent [] [] [] [] .nil .nil rfl rfl (fun _ _ => rfl) fun _ _ => rfl
  | @cons e e' m m' he hm ih =>
    by_cases h1 : lt e'.1 k = true
    · have h1' : lt e.1 k = true := by rw [hkey e e' he]; exact h1
      cases ih with
      | found pre post pre' post' hpre hx hpost hget hget' hset hset' =>
        refine .found (e :: pre) post (e' :: pre') post' (.cons he hpre) hx hpost ?_ ?_ ?_ ?_
        · simpa [get?_cons, h1'] using hget
        · simpa [get?_cons, h1] using hget'
        · simpa [update, h1'] using hset
        · simpa [update, h1] using hset'
      | absent pre post pre' post' hpre hpost hget hget' hset hset' =>
        refine .absent (e :: pre) post (e' :: pre') post' (.cons he hpre) hpost ?_ ?_ ?_ ?_
        · simpa [get?_cons, h1'] using hget
        · simpa [get?_cons, h1] using hget'
        · simpa [update, h1'] using hset
        · simpa [update, h1] using hset'
    · by_cases h2 : lt k e'.1 = true
      · refine .absent [] (e :: m) [] (e' :: m') .nil (.cons he hm) ?_ ?_ ?_ ?_
        all_goals simp [get?_cons, update, hkey e e' he, h1, h2]
      · refine .found [] m [] m' .nil he hm ?_ ?_ ?_ ?_
        all_goals simp [get?_cons, update, hkey e e' he, h1, h2]

theorem forall₂_update {R : V → W → Prop} {m : List (K × V)} {m' : List (K × W)}
    (h : List.Forall₂ (fun e e' => e.1 = e'.1 ∧ R e.2 e'.2) m m') (k : K) (d : V) (d' : W) {v : V}
    {w : W} (hvw : R v w) :
    List.Forall₂ (fun e e' => e.1 = e'.1 ∧ R e.2 e'.2) (update lt k d (fun _ => v) m)
      (update lt k d' (fun _ => w) m') := by
  have hloc : Located lt k (fun e e' => e.1 = e'.1 ∧ R e.2 e'.2) m m' :=
    located (fun _ _ he => he.1) k h
  cases hloc with
  | found pre post pre' post' hpre he hpost _ _ hset hset' =>
    rw [hset, hset']
    exact List.rel_append hpre (.cons ⟨he.1, hvw⟩ hpost)
  | absent pre post pre' post' hpre hpost _ _ hset hset' =>
    rw [hset, hset']
    exact List.rel_append hpre (.cons ⟨rfl, hvw⟩ hpost)

end Related

end OrderedMap
