import Mathlib.Data.List.InsertIdx
import Mathlib.Data.List.TakeDrop
import Mathlib.Tactic.Ring

/-! Rows of one width laid out one after another in a single array.  Splicing the
array in units of the width is splicing the list of rows. -/

namespace FlatRows

variable {α : Type*} {w : ℕ} {rs : List (List α)}

/-- Every row has width `w`. -/
def Uniform (w : ℕ) (rs : List (List α)) : Prop := ∀ row ∈ rs, row.length = w

theorem Uniform.of_cons {row : List α} (h : Uniform w (row :: rs)) : Uniform w rs :=
  fun r hr => h r (List.mem_cons_of_mem _ hr)

theorem Uniform.append (h : Uniform w rs) {row : List α} (hrow : row.length = w) :
    Uniform w (rs ++ [row]) := by
  intro r hr
  rcases List.mem_append.mp hr with hr | hr
  · exact h r hr
  · rw [List.mem_singleton.mp hr]
    exact hrow

theorem Uniform.insertIdx (h : Uniform w rs) {row : List α} (hrow : row.length = w) (n : ℕ) :
    Uniform w (rs.insertIdx n row) := by
  intro r hr
  rcases List.eq_or_mem_of_mem_insertIdx hr with rfl | hr
  · exact hrow
  · exact h r hr

theorem Uniform.eraseIdx (h : Uniform w rs) (n : ℕ) : Uniform w (rs.eraseIdx n) :=
  fun r hr => h r (List.mem_of_mem_eraseIdx hr)

theorem Uniform.set (h : Uniform w rs) {row : List α} (hrow : row.length = w) (n : ℕ) :
    Uniform w (rs.set n row) := by
  intro r hr
  rcases List.mem_or_eq_of_mem_set hr with hr | rfl
  · exact h r hr
  · exact hrow

theorem length_flatten (h : Uniform w rs) : rs.flatten.length = rs.length * w := by
  induction rs with
  | nil => simp
  | cons row rs ih =>
    rw [List.flatten_cons, List.length_append, ih h.of_cons, h row List.mem_cons_self,
      List.length_cons]
    ring

theorem take_flatten (h : Uniform w rs) (n : ℕ) :
    rs.flatten.take (n * w) = (rs.take n).flatten := by
  induction rs generalizing n with
  | nil => simp
  | cons row rs ih =>
    cases n with
    | zero => simp
    | succ n =>
      have hrow := h row List.mem_cons_self
      rw [List.flatten_cons, List.take_succ_cons, List.flatten_cons, ← ih h.of_cons n,
        show (n + 1) * w = row.length + n * w by rw [hrow]; ring, List.take_length_add_append]

theorem drop_flatten (h : Uniform w rs) (n : ℕ) :
    rs.flatten.drop (n * w) = (rs.drop n).flatten := by
  induction rs generalizing n with
  | nil => simp
  | cons row rs ih =>
    cases n with
    | zero => simp
    | succ n =>
      have hrow := h row List.mem_cons_self
      rw [List.flatten_cons, List.drop_succ_cons, ← ih h.of_cons n,
        show (n + 1) * w = row.length + n * w by rw [hrow]; ring, List.drop_length_add_append]

theorem drop_succ_flatten (h : Uniform w rs) (n : ℕ) :
    rs.flatten.drop (n * w + w) = (rs.drop (n + 1)).flatten := by
  rw [← drop_flatten h, Nat.succ_mul]

theorem insertIdx_eq_append (rs : List α) {n : ℕ} (hn : n ≤ rs.length) (a : α) :
    rs.insertIdx n a = rs.take n ++ a :: rs.drop n := by
  induction rs generalizing n with
  | nil =>
    obtain rfl : n = 0 := by simpa using hn
    rfl
  | cons b rs ih =>
    cases n with
    | zero => rfl
    | succ n => simp [ih (Nat.le_of_succ_le_succ hn)]

theorem insert_flatten (h : Uniform w rs) {n : ℕ} (hn : n ≤ rs.length) (row : List α) :
    rs.flatten.take (n * w) ++ row ++ rs.flatten.drop (n * w) = (rs.insertIdx n row).flatten := by
  rw [take_flatten h, drop_flatten h, insertIdx_eq_append rs hn]
  simp

theorem erase_flatten (h : Uniform w rs) (n : ℕ) :
    rs.flatten.take (n * w) ++ rs.flatten.drop (n * w + w) = (rs.eraseIdx n).flatten := by
  rw [take_flatten h, drop_succ_flatten h, List.eraseIdx_eq_take_drop_succ, List.flatten_append]

theorem set_flatten (h : Uniform w rs) {n : ℕ} (hn : n < rs.length) (row : List α) :
    rs.flatten.take (n * w) ++ row ++ rs.flatten.drop (n * w + w) = (rs.set n row).flatten := by
  rw [take_flatten h, drop_succ_flatten h, List.set_eq_take_append_cons_drop, if_pos hn]
  simp

theorem set_cell_flatten (h : Uniform w rs) {n c : ℕ} (hn : n < rs.length) (hc : c < w) (a : α) :
    rs.flatten.take (n * w + c) ++ [a] ++ rs.flatten.drop (n * w + c + 1) =
      (rs.set n (rs[n].set c a)).flatten := by
  have hlen : rs[n].length = w := h _ (List.getElem_mem hn)
  have hdrop : rs.flatten.drop (n * w) = rs[n] ++ rs.flatten.drop (n * w + w) := by
    rw [drop_flatten h, drop_succ_flatten h, List.drop_eq_getElem_cons hn, List.flatten_cons]
  have htake : rs.flatten.take (n * w + c) = rs.flatten.take (n * w) ++ rs[n].take c := by
    rw [List.take_add, hdrop, List.take_append_of_le_length (by omega)]
  have hrest : rs.flatten.drop (n * w + c + 1) = rs[n].drop (c + 1) ++
      rs.flatten.drop (n * w + w) := by
    rw [Nat.add_assoc, ← List.drop_drop, hdrop, List.drop_append_of_le_length (by omega)]
  rw [← set_flatten h hn, htake, hrest, List.set_eq_take_append_cons_drop, if_pos (by omega)]
  simp

theorem exists_rows {n : ℕ} {array : List α} (hlen : array.length = n * w) :
    ∃ rs : List (List α), Uniform w rs ∧ rs.length = n ∧ rs.flatten = array := by
  induction n generalizing array with
  | zero => exact ⟨[], by simp [Uniform], rfl, by simp at hlen; simp [hlen]⟩
  | succ n ih =>
    rw [Nat.succ_mul] at hlen
    obtain ⟨rs, hu, hn, hflat⟩ := @ih (array.drop w) (by rw [List.length_drop]; omega)
    refine ⟨array.take w :: rs, ?_, by rw [List.length_cons, hn], ?_⟩
    · intro row hrow
      rcases List.mem_cons.mp hrow with rfl | hrow
      · rw [List.length_take]
        omega
      · exact hu row hrow
    · rw [List.flatten_cons, hflat, List.take_append_drop]

end FlatRows
