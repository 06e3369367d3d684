import Nkit.Base.GroupFold
import Mathlib.Algebra.BigOperators.Group.List.Basic

/-! Groups of groups.  A coarser key that depends on the finer one alone makes the same groups of
the groups as of the records, and sums over the sums of the groups are sums over the records. -/

namespace GroupFold
open OrderedMap

variable {R K L V W M : Type*} {lt : K → K → Bool} {key : R → K}

theorem forall₂_equiv (h : StrictWeak lt) {m : List (K × V)} {m' : List (K × W)} (hs : Sorted lt m)
    (hs' : Sorted lt m') (hm : ∀ e ∈ m, ∃ e' ∈ m', equiv lt e.1 e'.1 = true)
    (hm' : ∀ e' ∈ m', ∃ e ∈ m, equiv lt e.1 e'.1 = true) :
    List.Forall₂ (fun e e' => equiv lt e.1 e'.1 = true) m m' := by
  induction m generalizing m' with
  | nil =>
    cases m' with
    | nil => exact .nil
    | cons e' m' =>
      obtain ⟨e, he, -⟩ := hm' e' List.mem_cons_self
      cases he
  | cons e m ih =>
    cases m' with
    | nil =>
      obtain ⟨e', he', -⟩ := hm e List.mem_cons_self
      cases he'
    | cons e' m' =>
      obtain ⟨hfirst, hrest⟩ := sorted_cons.mp hs
      obtain ⟨hfirst', hrest'⟩ := sorted_cons.mp hs'
      -- neither of the first keys can tie with a later one of the other
      have hhead : equiv lt e.1 e'.1 = true := by
        obtain ⟨x, hx, htie⟩ := hm e List.mem_cons_self
        obtain rfl | hx := List.mem_cons.mp hx
        · exact htie
        · obtain ⟨y, hy, htie'⟩ := hm' e' List.mem_cons_self
          obtain rfl | hy := List.mem_cons.mp hy
          · exact htie'
          · have hlt := hfirst y hy
            rw [h.lt_left_congr htie, h.lt_right_congr htie', h.asymm (hfirst' x hx)] at hlt
            cases hlt
      refine .cons hhead (ih hrest hrest' (fun x hx => ?_) fun x' hx' => ?_)
      · obtain ⟨x', hx', htie⟩ := hm x (List.mem_cons_of_mem e hx)
        obtain rfl | hx' := List.mem_cons.mp hx'
        · have hlt := hfirst x hx
          rw [h.lt_right_congr htie, h.lt_left_congr hhead, h.irrefl] at hlt
          cases hlt
        · exact ⟨x', hx', htie⟩
      · obtain ⟨x, hx, htie⟩ := hm' x' (List.mem_cons_of_mem e' hx')
        obtain rfl | hx := List.mem_cons.mp hx
        · have hlt := hfirst' x' hx'
          rw [← h.lt_right_congr htie, ← h.lt_left_congr hhead, h.irrefl] at hlt
          cases hlt
        · exact ⟨x, hx, htie⟩

theorem flatMap_update {p : K → Bool} (hp : ∀ a b, equiv lt a b = true → p a = p b) (k : K) (r : R)
    (m : List (K × List R)) :
    (((update lt k [] (· ++ [r]) m).filter fun e => p e.1).flatMap Prod.snd).Perm
      (((m.filter fun e => p e.1).flatMap Prod.snd) ++ if p k then [r] else []) := by
  induction m with
  | nil => cases hk : p k <;> simp [update, hk]
  | cons e m ih =>
    rw [update]
    by_cases hlt : lt e.1 k = true
    · rw [if_pos hlt]
      cases he : p e.1 with
      | false =>
        rw [List.filter_cons_of_neg (by simp [he]), List.filter_cons_of_neg (by simp [he])]
        exact ih
      | true =>
        rw [List.filter_cons, if_pos he, List.filter_cons, if_pos he, List.flatMap_cons,
          List.flatMap_cons, List.append_assoc]
        exact ih.append_left e.2
    · rw [if_neg hlt]
      by_cases hgt : lt k e.1 = true
      · rw [if_pos hgt, List.nil_append]
        cases hk : p k with
        | false => simp [List.filter_cons, hk]
        | true =>
          rw [List.filter_cons, if_pos hk, List.flatMap_cons]
          exact List.perm_append_comm
      · have htie : p e.1 = p k := hp _ _ (by simp [equiv, hlt, hgt])
        rw [if_neg hgt]
        cases hk : p k with
        | false =>
          rw [hk] at htie
          simp [htie]
        | true =>
          rw [hk] at htie
          rw [List.filter_cons, if_pos htie, List.filter_cons, if_pos htie, List.flatMap_cons,
            List.flatMap_cons, List.append_assoc, List.append_assoc]
          exact List.perm_append_comm.append_left e.2

theorem collect_filter {p : K → Bool} (hp : ∀ a b, equiv lt a b = true → p a = p b)
    (rows : List R) :
    (((collect lt key rows).filter fun e => p e.1).flatMap Prod.snd).Perm
      (rows.filter fun r => p (key r)) := by
  induction rows using List.reverseRecOn with
  | nil => exact .refl _
  | append_singleton rows r ih =>
    rw [collect_append, List.filter_append]
    refine (flatMap_update hp (key r) r _).trans (ih.append ?_)
    cases hr : p (key r) <;> simp [hr]

theorem value_of_mem_collect (h : StrictWeak lt) {rows : List R} {e : K × List R}
    (he : e ∈ collect lt key rows) :
    e.2 = members lt key rows e.1 := by
  rw [value_of_mem_fold h he]
  exact List.reverseRecOn (members lt key rows e.1) rfl fun l r ih => by
    rw [List.foldl_append, ih]; rfl

variable {init : V} {step : V → R → V} {lt' : L → L → Bool} {c : K → L}

theorem groups_of_groups (h : StrictWeak lt) (h' : StrictWeak lt')
    (hc : ∀ a b, equiv lt a b = true → equiv lt' (c a) (c b) = true) {V' W' : Type*} (init' : V')
    (init'' : W') (step' : V' → K × V → V') (step'' : W' → R → W') (rows : List R) :
    List.Forall₂ (fun e e' => equiv lt' e.1 e'.1 = true)
      (fold lt' (fun e => c e.1) init' step' (fold lt key init step rows))
      (fold lt' (fun r => c (key r)) init'' step'' rows) := by
  refine forall₂_equiv h' (fold_sorted h' _) (fold_sorted h' _) (fun e he => ?_) fun e' he' => ?_
  · obtain ⟨g, hg, heq⟩ := key_of_mem_fold he
    obtain ⟨r, hr, hkey⟩ := key_of_mem_fold hg
    rw [heq, hkey]
    exact exists_group h' hr
  · obtain ⟨r, hr, heq⟩ := key_of_mem_fold he'
    have hgroup : ∃ g ∈ fold lt key init step rows, equiv lt (key r) g.1 = true := exists_group h hr
    obtain ⟨g, hg, htie⟩ := hgroup
    have hcoarse : ∃ e ∈ fold lt' (fun e => c e.1) init' step' (fold lt key init step rows),
        equiv lt' (c g.1) e.1 = true := exists_group h' hg
    obtain ⟨e, he, htie'⟩ := hcoarse
    refine ⟨e, he, ?_⟩
    rw [heq, equiv_comm]
    exact equiv_trans h' (hc _ _ htie) htie'

theorem sum_of_sums [AddCommMonoid M] (h : StrictWeak lt) (h' : StrictWeak lt')
    (hc : ∀ a b, equiv lt a b = true → equiv lt' (c a) (c b) = true) (w : R → M) (rows : List R)
    (k : L) :
    ((members lt' (fun e => c e.1) (fold lt key init step rows) k).map fun e =>
        ((members lt key rows e.1).map w).sum).sum =
      ((members lt' (fun r => c (key r)) rows k).map w).sum := by
  have hp : ∀ a b, equiv lt a b = true → equiv lt' (c a) k = equiv lt' (c b) k :=
    fun a b htie => equiv_left_congr h' (hc a b htie) k
  have hsame : (((collect lt key rows).filter fun e => equiv lt' (c e.1) k).flatMap Prod.snd).Perm
      (rows.filter fun r => equiv lt' (c (key r)) k) := collect_filter hp rows
  rw [members, members, ← (hsame.map w).sum_eq, fold_eq_collect, List.filter_map, List.map_map,
    List.map_flatMap, List.flatMap_def, List.sum_flatten, List.map_map]
  congr 1
  refine List.map_congr_left fun e he => ?_
  exact congrArg (fun rs => (rs.map w).sum) (value_of_mem_collect h (List.mem_filter.mp he).1).symm

end GroupFold
