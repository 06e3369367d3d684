import Mathlib.Data.List.Infix
import Mathlib.Data.Nat.Find
import Mathlib.Tactic.Common

/-! A list cut at the leftmost occurrences of another one that do not overlap. -/

namespace Delimited
variable {A : Type*} {d s before rest before' rest' : List A}

theorem infix_iff_drop : d <:+: s ↔ ∃ i ≤ s.length, d <+: s.drop i := by
  constructor
  · rintro ⟨before, rest, rfl⟩
    refine ⟨before.length, by simp, rest, ?_⟩
    rw [List.append_assoc, List.drop_left]
  · rintro ⟨i, -, rest, hrest⟩
    exact ⟨s.take i, rest, by rw [List.append_assoc, hrest, List.take_append_drop]⟩

/-- What stands before the first occurrence of `d`, and what stands behind it. -/
structure FirstAt (d s before rest : List A) : Prop where
  eq : s = before ++ d ++ rest
  first : ∀ i < before.length, ¬d <+: s.drop i

theorem exists_firstAt (h : d <:+: s) : ∃ before rest, FirstAt d s before rest := by
  classical
  obtain ⟨n, -, hn⟩ := infix_iff_drop.mp h
  have hex : ∃ i, d <+: s.drop i := ⟨n, hn⟩
  obtain ⟨rest, hrest⟩ := Nat.find_spec hex
  refine ⟨s.take (Nat.find hex), rest, ?_, fun i hi => Nat.find_min hex ?_⟩
  · rw [List.append_assoc, hrest, List.take_append_drop]
  · rw [List.length_take] at hi
    exact hi.trans_le (Nat.min_le_left _ _)

theorem FirstAt.occurs (h : FirstAt d s before rest) : d <:+: s := ⟨before, rest, h.eq.symm⟩

theorem FirstAt.drop (h : FirstAt d s before rest) : s.drop before.length = d ++ rest := by
  rw [h.eq, List.append_assoc, List.drop_left]

theorem FirstAt.unique (h : FirstAt d s before rest) (h' : FirstAt d s before' rest') :
    before = before' ∧ rest = rest' := by
  have hbegins : ∀ {before rest}, FirstAt d s before rest → d <+: s.drop before.length :=
    fun h => ⟨_, h.drop.symm⟩
  have hlen : before.length = before'.length := by
    rcases Nat.lt_trichotomy before.length before'.length with hlt | heq | hlt
    · exact absurd (hbegins h) (h'.first _ hlt)
    · exact heq
    · exact absurd (hbegins h') (h.first _ hlt)
  have heq := h.eq.symm.trans h'.eq
  rw [List.append_assoc, List.append_assoc] at heq
  obtain ⟨rfl, htail⟩ := List.append_inj heq hlen
  exact ⟨rfl, List.append_cancel_left htail⟩

/-- The fields of `s`, and how many delimiters stand between them. -/
inductive Fields (d : List A) : List A → ℕ → List (List A) → Prop where
  | last {s : List A} (hno : ¬d <:+: s) : Fields d s 0 [s]
  | next {s before rest : List A} {n : ℕ} {fields : List (List A)}
      (hfirst : FirstAt d s before rest)
      (h : Fields d rest n fields) : Fields d s (n + 1) (before :: fields)

theorem Fields.length_eq {n : ℕ} {fields : List (List A)} (h : Fields d s n fields) :
    fields.length = n + 1 := by
  induction h with
  | last => rfl
  | next _ _ ih => rw [List.length_cons, ih]

theorem Fields.unique {n n' : ℕ} {fields fields' : List (List A)} (h : Fields d s n fields)
    (h' : Fields d s n' fields') :
    n = n' ∧ fields = fields' := by
  induction h generalizing n' fields' with
  | last hno =>
    cases h' with
    | last => exact ⟨rfl, rfl⟩
    | next hfirst => exact absurd hfirst.occurs hno
  | next hfirst _ ih =>
    cases h' with
    | last hno => exact absurd hfirst.occurs hno
    | next hfirst' h' =>
      obtain ⟨rfl, rfl⟩ := hfirst.unique hfirst'
      obtain ⟨rfl, rfl⟩ := ih h'
      exact ⟨rfl, rfl⟩

theorem exists_fields (hd : d ≠ []) (s : List A) : ∃ n fields, Fields d s n fields := by
  induction hlen : s.length using Nat.strong_induction_on generalizing s with
  | _ len ih =>
    by_cases hin : d <:+: s
    · obtain ⟨before, rest, hfirst⟩ := exists_firstAt hin
      have hshort : rest.length < len := by
        have hpos := List.length_pos_iff.mpr hd
        rw [← hlen, hfirst.eq, List.length_append, List.length_append]
        omega
      obtain ⟨n, fields, h⟩ := ih rest.length hshort rest rfl
      exact ⟨n + 1, before :: fields, .next hfirst h⟩
    · exact ⟨0, [s], .last hin⟩

end Delimited
