import Mathlib.Data.List.Basic

/-! The longest prefix of a list that satisfies a predicate: what a scanner cuts off. -/

namespace Spans

variable {α : Type*} {p : α → Bool} {xs ys xs' ys' : List α}

theorem takeWhile_append_stop (hxs : ∀ a ∈ xs, p a = true) (hys : ∀ a ∈ ys.head?, p a = false) :
    (xs ++ ys).takeWhile p = xs := by
  rw [List.takeWhile_append_of_pos hxs]
  cases ys with
  | nil => exact List.append_nil xs
  | cons a ys => rw [List.takeWhile_cons_of_neg (by simp [hys a rfl]), List.append_nil]

theorem dropWhile_append_stop (hxs : ∀ a ∈ xs, p a = true) (hys : ∀ a ∈ ys.head?, p a = false) :
    (xs ++ ys).dropWhile p = ys := by
  rw [List.dropWhile_append_of_pos hxs]
  cases ys with
  | nil => rfl
  | cons a ys => rw [List.dropWhile_cons_of_neg (by simp [hys a rfl])]

theorem drop_takeWhile (p : α → Bool) (xs : List α) :
    xs.drop (xs.takeWhile p).length = xs.dropWhile p := by
  have hdrop : (xs.takeWhile p ++ xs.dropWhile p).drop (xs.takeWhile p).length = xs.dropWhile p :=
    List.drop_left
  rwa [List.takeWhile_append_dropWhile] at hdrop

theorem head_dropWhile (p : α → Bool) (xs : List α) :
    ∀ a ∈ (xs.dropWhile p).head?, p a = false := by
  intro a ha
  have hhead := List.head?_dropWhile_not p xs
  rwa [Option.mem_def.mp ha] at hhead

theorem append_inj_of_stop (hxs : ∀ a ∈ xs, p a = true) (hys : ∀ a ∈ ys.head?, p a = false)
    (hxs' : ∀ a ∈ xs', p a = true) (hys' : ∀ a ∈ ys'.head?, p a = false)
    (h : xs ++ ys = xs' ++ ys') : xs = xs' ∧ ys = ys' := by
  have htake : xs = xs' := by
    rw [← takeWhile_append_stop hxs hys, h, takeWhile_append_stop hxs' hys']
  subst htake
  exact ⟨rfl, List.append_cancel_left h⟩

end Spans
