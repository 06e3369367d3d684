import Mathlib.Data.List.Sort
import Mathlib.Data.List.GetD
import Mathlib.Tactic.Common

/-! Renumbering the tail of a list of row numbers.  The tail starts where a halving
search puts a given number, so it is the intended one exactly when the list is
partitioned at that number. -/

namespace Renumber

/-- The loop of `std::lower_bound`: `len` candidates remain from `first` on. -/
def lowerBoundLoop (xs : List ℕ) (val : ℕ) : ℕ → ℕ → ℕ → ℕ
  | 0, first, _ => first
  | fuel + 1, first, len =>
    if len = 0 then first
    else if xs.getD (first + len / 2) 0 < val then
      lowerBoundLoop xs val fuel (first + len / 2 + 1) (len - len / 2 - 1)
    else lowerBoundLoop xs val fuel first (len / 2)

def lowerBound (xs : List ℕ) (val : ℕ) : ℕ := lowerBoundLoop xs val xs.length 0 xs.length

/-- `f` applied to every element from the lower bound of `val` on. -/
def renumberFrom (f : ℕ → ℕ) (val : ℕ) (xs : List ℕ) : List ℕ :=
  xs.take (lowerBound xs val) ++ (xs.drop (lowerBound xs val)).map f

/-- No element that is `val` or more stands before one below `val`. -/
def Partitioned (val : ℕ) (xs : List ℕ) : Prop := xs.Pairwise fun a b => b < val → a < val

instance (val : ℕ) (xs : List ℕ) : Decidable (Partitioned val xs) :=
  inferInstanceAs (Decidable (xs.Pairwise _))

/-- The interval shrinks but keeps the cut `c` between its ends. -/
theorem lowerBoundLoop_eq {xs : List ℕ} {val c : ℕ}
    (hlow : ∀ i, i < c → xs.getD i 0 < val)
    (hhigh : ∀ i, c ≤ i → i < xs.length → ¬ xs.getD i 0 < val) :
    ∀ fuel first len, len ≤ fuel → first ≤ c → c ≤ first + len → first + len ≤ xs.length →
      lowerBoundLoop xs val fuel first len = c := by
  intro fuel
  induction fuel with
  | zero =>
    intro first len hf h1 h2 _
    rw [lowerBoundLoop]
    omega
  | succ fuel ih =>
    intro first len hf h1 h2 h3
    rw [lowerBoundLoop]
    split_ifs with hz hm
    · omega
    · have hc : first + len / 2 < c := by
        by_contra hge
        exact hhigh _ (by omega) (by omega) hm
      exact ih _ _ (by omega) (by omega) (by omega) (by omega)
    · have hc : c ≤ first + len / 2 := by
        by_contra hlt
        exact hm (hlow _ (by omega))
      exact ih _ _ (by omega) (by omega) (by omega) (by omega)

theorem lowerBound_append {val : ℕ} {as bs : List ℕ} (ha : ∀ x ∈ as, x < val)
    (hb : ∀ x ∈ bs, ¬ x < val) : lowerBound (as ++ bs) val = as.length := by
  refine lowerBoundLoop_eq ?_ ?_ _ _ _ le_rfl (Nat.zero_le _) (by simp) (by simp)
  · intro i hi
    rw [List.getD_append _ _ _ _ hi, List.getD_eq_getElem _ _ hi]
    exact ha _ (List.getElem_mem hi)
  · intro i hi hl
    rw [List.length_append] at hl
    rw [List.getD_append_right _ _ _ _ hi, List.getD_eq_getElem _ _ (by omega)]
    exact hb _ (List.getElem_mem _)

theorem partitioned_split {val : ℕ} {xs : List ℕ} (h : Partitioned val xs) :
    ∃ as bs, xs = as ++ bs ∧ (∀ x ∈ as, x < val) ∧ ∀ x ∈ bs, ¬ x < val := by
  induction xs with
  | nil => exact ⟨[], [], rfl, by simp, by simp⟩
  | cons a xs ih =>
    obtain ⟨ha, hxs⟩ := List.pairwise_cons.mp h
    by_cases hav : a < val
    · obtain ⟨as, bs, rfl, has, hbs⟩ := ih hxs
      exact ⟨a :: as, bs, rfl, by simpa [hav] using has, hbs⟩
    · refine ⟨[], a :: xs, rfl, by simp, ?_⟩
      intro x hx
      rcases List.mem_cons.mp hx with rfl | hx
      · exact hav
      · exact fun hxv => hav (ha x hx hxv)

/-- On a partitioned list exactly the elements that are `val` or more are renumbered. -/
theorem renumberFrom_eq_map {val : ℕ} {xs : List ℕ} (h : Partitioned val xs) (f : ℕ → ℕ) :
    renumberFrom f val xs = xs.map fun x => if x < val then x else f x := by
  obtain ⟨as, bs, rfl, ha, hb⟩ := partitioned_split h
  have has : as.map (fun x => if x < val then x else f x) = as := by
    rw [List.map_congr_left fun x hx => if_pos (ha x hx), List.map_id']
  have hbs : bs.map (fun x => if x < val then x else f x) = bs.map f :=
    List.map_congr_left fun x hx => if_neg (hb x hx)
  rw [renumberFrom, lowerBound_append ha hb, List.map_append, has, hbs]
  simp

theorem partitioned_of_ascending {xs : List ℕ} (h : xs.Pairwise (· < ·)) (val : ℕ) :
    Partitioned val xs := h.imp fun hab hb => hab.trans hb

theorem Partitioned.sublist {val : ℕ} {xs ys : List ℕ} (h : Partitioned val xs)
    (hs : ys.Sublist xs) : Partitioned val ys := List.Pairwise.sublist hs h

/-- Row numbers after a row is inserted before row `r`. -/
def shiftUp (r x : ℕ) : ℕ := if x < r then x else x + 1

/-- Row numbers after row `r` is removed. -/
def shiftDown (r x : ℕ) : ℕ := if x < r then x else x - 1

theorem shiftUp_lt {r x y : ℕ} (h : x < y) : shiftUp r x < shiftUp r y := by
  unfold shiftUp
  split_ifs <;> omega

theorem shiftUp_injective (r : ℕ) : Function.Injective (shiftUp r) := by
  intro x y h
  unfold shiftUp at h
  split_ifs at h <;> omega

theorem shiftUp_ne (r x : ℕ) : shiftUp r x ≠ r := by
  unfold shiftUp
  split_ifs <;> omega

theorem shiftDown_lt {r x y : ℕ} (hx : x ≠ r) (hy : y ≠ r) (h : x < y) :
    shiftDown r x < shiftDown r y := by
  unfold shiftDown
  split_ifs <;> omega

theorem ascending_ext {xs ys : List ℕ} (hx : xs.Pairwise (· < ·)) (hy : ys.Pairwise (· < ·))
    (h : ∀ a, a ∈ xs ↔ a ∈ ys) : xs = ys := by
  have hp : xs.Perm ys := (List.perm_ext_iff_of_nodup
    (hx.imp fun hab => hab.ne) (hy.imp fun hab => hab.ne)).mpr h
  exact hp.eq_of_pairwise (fun a b _ _ hab hba => absurd hba (by omega)) hx hy

end Renumber
