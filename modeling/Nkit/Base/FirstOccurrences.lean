import Mathlib.Data.List.Count
import Mathlib.Data.List.Nodup
import Mathlib.Algebra.BigOperators.Group.List.Basic
import Mathlib.Algebra.Order.BigOperators.Group.List
import Mathlib.Algebra.Order.Ring.Nat
import Mathlib.Tactic.Common

/-! A list cut down to the first occurrence of each of its elements, and the elements for which
the others do not matter. -/

namespace FirstOccurrences
variable {K B : Type*} [BEq K]

theorem induct {motive : List K → List K → Prop} (nil : motive [] [])
    (cons : ∀ k ks, motive (ks.filter fun k' => !k' == k) (ks.filter fun k' => !k' == k).eraseDups →
      motive (k :: ks) (k :: (ks.filter fun k' => !k' == k).eraseDups)) (ks : List K) :
    motive ks ks.eraseDups := by
  induction hn : ks.length using Nat.strong_induction_on generalizing ks with
  | _ n ih =>
    cases ks with
    | nil => exact nil
    | cons k ks =>
      rw [List.eraseDups_cons]
      refine cons k ks (ih _ ?_ _ rfl)
      rw [← hn, List.length_cons]
      exact Nat.lt_succ_of_le (List.length_filter_le ..)

theorem sublist (ks : List K) : ks.eraseDups.Sublist ks := by
  induction ks using induct with
  | nil => exact List.Sublist.refl _
  | cons k ks ih => exact (ih.trans List.filter_sublist).cons_cons k

variable [LawfulBEq K]

theorem mem_iff {k : K} {ks : List K} : k ∈ ks.eraseDups ↔ k ∈ ks := List.mem_eraseDups

theorem nodup (ks : List K) : ks.eraseDups.Nodup := by
  induction ks using induct with
  | nil => exact List.nodup_nil
  | cons k ks ih =>
    refine List.nodup_cons.mpr ⟨fun hk => ?_, ih⟩
    have := List.of_mem_filter (mem_iff.mp hk)
    simp at this

theorem filter_eq (p : K → Bool) (ks : List K) :
    (ks.filter p).eraseDups = ks.eraseDups.filter p := by
  induction ks using induct with
  | nil => rfl
  | cons k ks ih =>
    rw [List.filter_cons, List.filter_cons, ← ih, List.filter_filter]
    split_ifs with hk
    · rw [List.eraseDups_cons, List.filter_filter]
      simp only [Bool.and_comm]
    · congr 1
      apply List.filter_congr
      intro k' _
      by_cases hk' : k' = k
      · subst hk'
        simp [hk]
      · simp [hk']

theorem foldr_eq {f : K → B → B} {ks : List K} (h : ∀ k, 1 < ks.count k → ∀ b, f k b = b) (b : B) :
    ks.eraseDups.foldr f b = ks.foldr f b := by
  induction ks using induct with
  | nil => rfl
  | cons k ks ih =>
    have hcount : ∀ k', (ks.filter fun k' => !k' == k).count k' ≤ (k :: ks).count k' := fun k' =>
      List.Sublist.count_le k' (List.filter_sublist.trans (List.sublist_cons_self k ks))
    rw [List.foldr_cons, List.foldr_cons, ih fun k' hk' => h k' (hk'.trans_le (hcount k'))]
    congr 1
    -- what is dropped comes again
    have hdrop : ∀ ks' : List K, (k ∈ ks' → ∀ b, f k b = b) →
        (ks'.filter fun k' => !k' == k).foldr f b = ks'.foldr f b := by
      intro ks'
      induction ks' with
      | nil => exact fun _ => rfl
      | cons k' ks' ih' =>
        intro hk
        rw [List.filter_cons, List.foldr_cons, ← ih' fun hmem => hk (List.mem_cons_of_mem _ hmem)]
        by_cases heq : k' = k
        · subst heq
          rw [if_neg (by simp), hk List.mem_cons_self]
        · rw [if_pos (by simp [heq]), List.foldr_cons]
    refine hdrop ks fun hmem => h k ?_
    rw [List.count_cons_self]
    exact Nat.succ_lt_succ (List.count_pos_iff.mpr hmem)

theorem sum_lt {g : K → ℕ} {ks : List K} {k : K} (hcount : 1 < ks.count k) (hk : 0 < g k) :
    (ks.eraseDups.map g).sum < (ks.map g).sum := by
  obtain ⟨extra, hperm⟩ := (sublist ks).exists_perm_append
  have hextra : k ∈ extra := by
    rw [hperm.count_eq, List.count_append] at hcount
    have hone := List.nodup_iff_count_le_one.mp (nodup ks) k
    apply List.count_pos_iff.mp
    omega
  have hsum := (hperm.map g).sum_eq
  have hle := List.single_le_sum (fun _ _ => Nat.zero_le _) _ (List.mem_map_of_mem (f := g) hextra)
  rw [List.map_append, List.sum_append] at hsum
  omega

end FirstOccurrences
