import Nkit.Base.OrderedMap

/-! Entries that may have no value, put into an ordered container one after the other.  Under
distinct keys their order does not matter, and later values replace earlier ones. -/

namespace OrderedMap
variable {K V A : Type*}

def put (lt : K → K → Bool) (k : K) (v : Option V) (m : List (K × V)) : List (K × V) :=
  match v with
  | some v => update lt k v (fun _ => v) m
  | none => m

def overlay (lt : K → K → Bool) (es : List (K × Option V)) (m : List (K × V)) : List (K × V) :=
  es.foldl (fun m e => put lt e.1 e.2 m) m

section
variable {lt : K → K → Bool} {es es' : List (K × Option V)} {m m' : List (K × V)} {k : K}
  {v : Option V}

@[simp] theorem overlay_nil : overlay lt [] m = m := rfl

@[simp] theorem overlay_cons (e : K × Option V) :
    overlay lt (e :: es) m = overlay lt es (put lt e.1 e.2 m) := rfl

theorem put_sorted (h : StrictWeak lt) (hs : Sorted lt m) (k : K) (v : Option V) :
    Sorted lt (put lt k v m) := by
  cases v with
  | none => exact hs
  | some v => exact update_sorted h hs k v _

theorem overlay_sorted (h : StrictWeak lt) (hs : Sorted lt m) (es : List (K × Option V)) :
    Sorted lt (overlay lt es m) := by
  induction es generalizing m with
  | nil => exact hs
  | cons e es ih => exact ih (put_sorted h hs e.1 e.2)

theorem get?_put_self (h : StrictWeak lt) : get? lt k (put lt k v m) = v.or (get? lt k m) := by
  cases v with
  | none => rfl
  | some v =>
    rw [put, get?_update h, if_pos (h.equiv_refl k)]
    rfl

theorem get?_put_of_ne (h : StrictWeak lt) {k' : K} (hne : equiv lt k k' = false) :
    get? lt k' (put lt k v m) = get? lt k' m := by
  cases v with
  | none => rfl
  | some v => rw [put, get?_update h, hne, if_neg Bool.false_ne_true]

theorem get?_overlay_of_not_mem (h : StrictWeak lt) (hk : ∀ e ∈ es, equiv lt e.1 k = false) :
    get? lt k (overlay lt es m) = get? lt k m := by
  induction es generalizing m with
  | nil => rfl
  | cons e es ih =>
    obtain ⟨he, hes⟩ := List.forall_mem_cons.mp hk
    rw [overlay_cons, ih hes, get?_put_of_ne h he]

end

theorem forall₂_update_keyed {W : Type*} {lt : K → K → Bool} {R R' : K → V → W → Prop}
    (h : StrictWeak lt) {m : List (K × V)} {m' : List (K × W)}
    (hm : List.Forall₂ (fun e e' => e.1 = e'.1 ∧ R e.1 e.2 e'.2) m m') (hs : Sorted lt m') {k : K}
    {v : V} {w : W} (hR : ∀ {k' v w}, equiv lt k k' = false → R k' v w → R' k' v w)
    (hvw : ∀ {k'}, equiv lt k k' = true → R' k' v w) (d : V) (d' : W) :
    List.Forall₂ (fun e e' => e.1 = e'.1 ∧ R' e.1 e.2 e'.2) (update lt k d (fun _ => v) m)
      (update lt k d' (fun _ => w) m') := by
  have hrest : ∀ {m : List (K × V)} {m' : List (K × W)}, (∀ e ∈ m', lt k e.1 = true) →
      List.Forall₂ (fun e e' => e.1 = e'.1 ∧ R e.1 e.2 e'.2) m m' →
      List.Forall₂ (fun e e' => e.1 = e'.1 ∧ R' e.1 e.2 e'.2) m m' := by
    intro m m' hlt hm
    induction hm with
    | nil => exact .nil
    | @cons e e' m m' he _ ih =>
      obtain ⟨hlt, hlts⟩ := List.forall_mem_cons.mp hlt
      exact .cons ⟨he.1, hR (not_equiv_of_lt (he.1 ▸ hlt)) he.2⟩ (ih hlts)
  induction hm with
  | nil => exact .cons ⟨rfl, hvw (h.equiv_refl k)⟩ .nil
  | @cons e e' m m' he hm ih =>
    obtain ⟨hlt, hs⟩ := sorted_cons.mp hs
    rw [update, update, ← he.1]
    split_ifs with h₁ h₂
    · refine .cons ⟨he.1, hR ?_ he.2⟩ (ih hs)
      rw [equiv_comm]
      exact not_equiv_of_lt h₁
    · refine .cons ⟨rfl, hvw (h.equiv_refl k)⟩
        (.cons ⟨he.1, hR (not_equiv_of_lt h₂) he.2⟩ (hrest (fun e₂ he₂ => ?_) hm))
      exact h.trans h₂ (he.1 ▸ hlt e₂ he₂)
    · have htie : equiv lt k e.1 = true := by simp [equiv, h₁, h₂]
      refine .cons ⟨rfl, hvw htie⟩ (hrest (fun e₂ he₂ => ?_) hm)
      rw [h.lt_left_congr htie]
      exact he.1 ▸ hlt e₂ he₂

section
variable {lt : K → K → Bool} {es es' : List (K × Option V)} {m m' : List (K × V)} {k : K}
  {v : Option V}
variable (h : StrictWeak lt) (heq : ∀ {a b}, equiv lt a b = true → a = b)

include heq in
theorem not_equiv_of_ne {a b : K} (hne : a ≠ b) : equiv lt a b = false :=
  Bool.eq_false_iff.mpr fun hab => hne (heq hab)

include h heq

theorem get?_overlay (hnodup : (es.map Prod.fst).Nodup) (he : (k, v) ∈ es) :
    get? lt k (overlay lt es m) = v.or (get? lt k m) := by
  induction es generalizing m with
  | nil => cases he
  | cons e es ih =>
    obtain ⟨hnot, hnodup⟩ := List.nodup_cons.mp hnodup
    rw [overlay_cons]
    rcases List.mem_cons.mp he with rfl | he
    · rw [get?_overlay_of_not_mem h, get?_put_self h]
      exact fun e' he' => not_equiv_of_ne heq fun hkey => hnot (List.mem_map.mpr ⟨e', he', hkey⟩)
    · have hne : e.1 ≠ k := fun hkey => hnot (List.mem_map.mpr ⟨_, he, hkey.symm⟩)
      rw [ih hnodup he, get?_put_of_ne h (not_equiv_of_ne heq hne)]

theorem Sorted.ext_get? (hs : Sorted lt m) (hs' : Sorted lt m')
    (hget : ∀ k, get? lt k m = get? lt k m') : m = m' := by
  have hsub : ∀ {m m' : List (K × V)}, Sorted lt m → Sorted lt m' →
    (∀ k, get? lt k m = get? lt k m') →
      ∀ e ∈ m, e ∈ m' := by
    intro m m' hs hs' hget e he
    have hsome : get? lt e.1 m' = some e.2 := (hget e.1).symm.trans (get?_eq_some_of_mem h hs he)
    obtain ⟨k', hk', hin⟩ := (get?_eq_some_iff h hs').mp hsome
    obtain rfl := heq hk'
    exact hin
  exact Sorted.ext h hs hs' fun e => ⟨hsub hs hs' hget e, hsub hs' hs (fun k => (hget k).symm) e⟩

theorem overlay_perm (hnodup : (es.map Prod.fst).Nodup) (hperm : es.Perm es') (hs : Sorted lt m) :
    overlay lt es m = overlay lt es' m := by
  refine Sorted.ext_get? h heq (overlay_sorted h hs es) (overlay_sorted h hs es') fun k => ?_
  by_cases hk : ∃ v, (k, v) ∈ es
  · obtain ⟨v, hv⟩ := hk
    rw [get?_overlay h heq hnodup hv,
      get?_overlay h heq ((hperm.map Prod.fst).nodup_iff.mp hnodup) (hperm.mem_iff.mp hv)]
  · have hnot : ∀ e ∈ es, equiv lt e.1 k = false := fun e he =>
      not_equiv_of_ne heq fun hkey => hk ⟨e.2, hkey ▸ he⟩
    rw [get?_overlay_of_not_mem h hnot,
      get?_overlay_of_not_mem h fun e he => hnot e (hperm.mem_iff.mpr he)]

variable {ks : List A} {key : A → K} (hkeys : (ks.map key).Nodup) (hs : Sorted lt m)
include hkeys hs

theorem overlay_overlay (f g : A → Option V) :
    overlay lt (ks.map fun a => (key a, g a)) (overlay lt (ks.map fun a => (key a, f a)) m) =
      overlay lt (ks.map fun a => (key a, (g a).or (f a))) m := by
  have hfst : ∀ f : A → Option V, ((ks.map fun a => (key a, f a)).map Prod.fst).Nodup := by
    intro f
    rw [List.map_map]
    exact hkeys
  refine Sorted.ext_get? h heq (overlay_sorted h (overlay_sorted h hs _) _) (overlay_sorted h hs _)
    fun k => ?_
  by_cases hk : ∃ a ∈ ks, key a = k
  · obtain ⟨a, ha, rfl⟩ := hk
    have hmem : ∀ f : A → Option V, (key a, f a) ∈ ks.map fun a => (key a, f a) :=
      fun f => List.mem_map_of_mem ha
    rw [get?_overlay h heq (hfst g) (hmem g), get?_overlay h heq (hfst f) (hmem f),
      get?_overlay h heq (hfst _) (hmem fun a => (g a).or (f a)), Option.or_assoc]
  · have hnot : ∀ f : A → Option V, ∀ e ∈ ks.map fun a => (key a, f a), equiv lt e.1 k = false := by
      intro f e he
      obtain ⟨a, ha, rfl⟩ := List.mem_map.mp he
      exact not_equiv_of_ne heq fun hkey => hk ⟨a, ha, hkey⟩
    rw [get?_overlay_of_not_mem h (hnot g), get?_overlay_of_not_mem h (hnot f),
      get?_overlay_of_not_mem h (hnot _)]

theorem put_overlay [DecidableEq A] {a : A} (ha : a ∈ ks) (f : A → Option V) (v : V) :
    put lt (key a) (some v) (overlay lt (ks.map fun a => (key a, f a)) m) =
      overlay lt (ks.map fun b => (key b, Function.update f a (some v) b)) m := by
  have hfst : ∀ f : A → Option V, ((ks.map fun a => (key a, f a)).map Prod.fst).Nodup := by
    intro f
    rw [List.map_map]
    exact hkeys
  have hmem : ∀ (f : A → Option V) {b : A}, b ∈ ks → (key b, f b) ∈ ks.map fun a => (key a, f a) :=
    fun f b hb => List.mem_map_of_mem hb
  refine Sorted.ext_get? h heq (put_sorted h (overlay_sorted h hs _) _ _) (overlay_sorted h hs _)
    fun k => ?_
  by_cases hk : ∃ b ∈ ks, key b = k
  · obtain ⟨b, hb, rfl⟩ := hk
    rw [get?_overlay h heq (hfst _) (hmem (Function.update f a (some v)) hb)]
    by_cases hba : b = a
    · rw [hba, Function.update_self, get?_put_self h]
      rfl
    · have hne : key a ≠ key b := fun hkey => hba (List.inj_on_of_nodup_map hkeys hb ha hkey.symm)
      rw [Function.update_of_ne hba, get?_put_of_ne h (not_equiv_of_ne heq hne),
        get?_overlay h heq (hfst f) (hmem f hb)]
  · have hnot : ∀ f : A → Option V, ∀ e ∈ ks.map fun a => (key a, f a), equiv lt e.1 k = false := by
      intro f e he
      obtain ⟨b, hb, rfl⟩ := List.mem_map.mp he
      exact not_equiv_of_ne heq fun hkey => hk ⟨b, hb, hkey⟩
    have hne : equiv lt (key a) k = false := not_equiv_of_ne heq fun hkey => hk ⟨a, ha, hkey⟩
    rw [get?_put_of_ne h hne, get?_overlay_of_not_mem h (hnot f),
      get?_overlay_of_not_mem h (hnot _)]

end

end OrderedMap
