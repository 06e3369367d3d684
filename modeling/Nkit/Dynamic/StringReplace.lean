import Nkit.Tools.Scanning

/-! Replacing in a string (`Dynamic::Replace`).  The loop searches the string it rewrites, from the
end of the last replacement on. -/

namespace Nkit
open Delimited

/-- `while ((start_pos = value.find(from, start_pos)) != npos)`; `none` is a loop that goes on. -/
def replaceLoop (what replacement : Bytes) : ℕ → Bytes → ℕ → Option Bytes
  | 0, _, _ => none
  | fuel + 1, value, startPos =>
    match Tools.find value what startPos with
    | none => some value
    | some pos =>
      replaceLoop what replacement fuel
        (value.take pos ++ replacement ++ value.drop (pos + what.length))
        (pos + replacement.length)

/-- `Impl<STRING>::Replace`: what it leaves in the value, and its result. -/
def replace (fuel : ℕ) (value what replacement : Bytes) : Option (Bytes × Bool) :=
  if value.length < what.length then some (value, false)
  else (replaceLoop what replacement fuel value 0).map fun value => (value, false)

/-- The leftmost occurrences that do not overlap were replaced, so many of them. -/
inductive Replaced (what replacement : Bytes) : Bytes → Bytes → ℕ → Prop where
  | done {s : Bytes} (hno : ¬what <:+: s) : Replaced what replacement s s 0
  | next {before rest rest' : Bytes} {n : ℕ} (hfirst : ∀ i < before.length,
      ¬what <+: (before ++ what ++ rest).drop i)
      (h : Replaced what replacement rest rest' n) :
      Replaced what replacement (before ++ what ++ rest) (before ++ replacement ++ rest') (n + 1)

section Replaced
variable {what replacement : Bytes}

theorem Replaced.unique {s s₁ s₂ : Bytes} {n₁ n₂ : ℕ} (h₁ : Replaced what replacement s s₁ n₁)
    (h₂ : Replaced what replacement s s₂ n₂) : s₁ = s₂ ∧ n₁ = n₂ := by
  induction h₁ generalizing s₂ n₂ with
  | done hno =>
    cases h₂ with
    | done => exact ⟨rfl, rfl⟩
    | @next before rest => exact absurd ⟨before, rest, rfl⟩ hno
  | @next before rest rest' n hfirst _ ih =>
    generalize hs : before ++ what ++ rest = s at h₂ hfirst
    cases h₂ with
    | done hno => exact absurd ⟨before, rest, hs⟩ hno
    | @next before₂ rest₂ rest₂' n' hfirst₂ h₂ =>
      have hcut : FirstAt what (before ++ what ++ rest) before rest := ⟨rfl, hs ▸ hfirst⟩
      have hcut₂ : FirstAt what (before ++ what ++ rest) before₂ rest₂ := ⟨hs, hs ▸ hfirst₂⟩
      obtain ⟨rfl, rfl⟩ := hcut.unique hcut₂
      obtain ⟨rfl, rfl⟩ := ih h₂
      exact ⟨rfl, rfl⟩

end Replaced

section Loop
variable {what replacement : Bytes}

theorem replaceLoop_done (replacement : Bytes) (hwhat : what ≠ []) (fuel : ℕ) (before rest : Bytes)
    (hfuel : rest.length < fuel) :
    ∃ rest' n, replaceLoop what replacement fuel (before ++ rest) before.length =
      some (before ++ rest') ∧
      Replaced what replacement rest rest' n := by
  -- every round takes the pattern from what is left, so the fuel need not count the replacements
  induction fuel generalizing before rest with
  | zero => exact absurd hfuel (Nat.not_lt_zero _)
  | succ fuel ih =>
    by_cases hin : what <:+: rest
    · obtain ⟨kept, tail, hkept⟩ := exists_firstAt hin
      have hfind :=
        Tools.find_append before hkept le_rfl
          (by rw [List.length_append]; exact Nat.le_add_right _ _)
      have hshort : tail.length < fuel := by
        have hpos := List.length_pos_iff.mpr hwhat
        rw [hkept.eq, List.length_append, List.length_append] at hfuel
        omega
      obtain ⟨rest', n, hrun, hreplaced⟩ := ih (before ++ kept ++ replacement) tail hshort
      refine ⟨kept ++ replacement ++ rest', n + 1, ?_, ?_⟩
      · have hrest : before ++ rest = before ++ kept ++ what ++ tail := by
          rw [hkept.eq, ← List.append_assoc, ← List.append_assoc]
        have htake : (before ++ rest).take (before ++ kept).length = before ++ kept := by
          rw [hrest, List.append_assoc, List.take_left]
        have hskip : (before ++ rest).drop ((before ++ kept).length + what.length) = tail := by
          rw [hrest, ← List.length_append, List.drop_left]
        rw [replaceLoop, hfind]
        dsimp only
        rw [htake, hskip, ← List.length_append, hrun]
        simp only [List.append_assoc]
      · have hnext := Replaced.next (hkept.eq ▸ hkept.first) hreplaced
        rwa [← hkept.eq] at hnext
    · exact ⟨rest, 0, by rw [replaceLoop, Tools.find_append_none before hin le_rfl], .done hin⟩

theorem replaceLoop_empty (fuel : ℕ) (value : Bytes) {pos : ℕ} (hpos : pos ≤ value.length) :
    replaceLoop [] replacement fuel value pos = none := by
  induction fuel generalizing value pos with
  | zero => rfl
  | succ fuel ih =>
    have hfind : Tools.find value [] pos = some pos :=
      Tools.find_some_iff.mpr ⟨⟨Nat.le_refl pos, hpos, List.nil_prefix⟩,
        fun i hi hlt => absurd hi (Nat.not_le_of_lt hlt)⟩
    rw [replaceLoop, hfind]
    refine ih _ ?_
    rw [List.length_append, List.length_append, List.length_take, Nat.min_eq_left hpos]
    omega

end Loop

theorem replace_result {fuel : ℕ} {value what replacement value' : Bytes} {result : Bool}
    (h : replace fuel value what replacement = some (value', result)) : result = false := by
  unfold replace at h
  split_ifs at h
  · cases h
    rfl
  · obtain ⟨_, -, hr⟩ := Option.map_eq_some_iff.mp h
    exact (congrArg Prod.snd hr).symm

/-- The call returns, with every occurrence replaced and a result that says whether there was one.
-/
def ReplacesAll (value what replacement : Bytes) : Prop :=
  ∃ fuel value' result, replace fuel value what replacement = some (value', result) ∧
    if what = [] then value' = value ∧ result = false
    else ∃ n, Replaced what replacement value value' n ∧ (result = true ↔ 0 < n)

/-- An empty pattern keeps the loop going and the result is never `true`, so that all is well just
where there is nothing to replace.  With a pattern the value comes out right. -/
theorem replaces_all_iff (value what replacement : Bytes) :
    (ReplacesAll value what replacement ↔ what ≠ [] ∧ ¬what <:+: value) ∧
    (what ≠ [] → ∃ fuel value' n, replace fuel value what replacement = some (value', false) ∧
      Replaced what replacement value value' n) ∧
    (what = [] → ∀ fuel, replace fuel value what replacement = none) := by
  have hvalue : what ≠ [] → ∃ fuel value' n, replace fuel value what replacement =
    some (value', false) ∧
      Replaced what replacement value value' n := by
    intro hwhat
    by_cases hlong : value.length < what.length
    · refine ⟨0, value, 0, if_pos hlong, .done fun hinfix => ?_⟩
      exact absurd hinfix.length_le (Nat.not_le_of_lt hlong)
    · obtain ⟨value', n, hrun, hreplaced⟩ :=
        replaceLoop_done replacement hwhat (value.length + 1) [] value (Nat.lt_succ_self _)
      refine ⟨value.length + 1, value', n, ?_, hreplaced⟩
      rw [replace, if_neg hlong]
      exact congrArg (Option.map fun value => (value, false)) hrun
  -- the empty pattern is found again at the same place in every round
  have hempty : what = [] → ∀ fuel, replace fuel value what replacement = none := by
    rintro rfl fuel
    have hnot : ¬value.length < ([] : Bytes).length := Nat.not_lt_zero _
    rw [replace, if_neg hnot, replaceLoop_empty fuel value (Nat.zero_le _)]
    rfl
  refine ⟨⟨?_, fun ⟨hwhat, hno⟩ => ?_⟩, hvalue, hempty⟩
  · rintro ⟨fuel, value', result, hrun, hspec⟩
    by_cases hwhat : what = []
    · rw [hempty hwhat fuel] at hrun
      cases hrun
    · rw [if_neg hwhat] at hspec
      obtain ⟨n, hreplaced, hresult⟩ := hspec
      obtain rfl := replace_result hrun
      refine ⟨hwhat, ?_⟩
      cases hreplaced with
      | done hno => exact hno
      | next => exact absurd (hresult.mpr (Nat.succ_pos _)) Bool.false_ne_true
  · obtain ⟨fuel, value', n, hrun, hreplaced⟩ := hvalue hwhat
    refine ⟨fuel, value', false, hrun, ?_⟩
    rw [if_neg hwhat]
    refine ⟨n, hreplaced, ?_⟩
    cases hreplaced with
    | done => exact ⟨fun h => absurd h Bool.false_ne_true, fun h => absurd h (Nat.lt_irrefl 0)⟩
    | @next before rest => exact absurd ⟨before, rest, rfl⟩ hno

/-- An occurrence was replaced and the result is `false`. -/
theorem replace_found : ¬ReplacesAll (ascii "ab") (ascii "a") (ascii "c") := by
  rintro ⟨fuel, value', result, hrun, hspec⟩
  obtain rfl := replace_result hrun
  rw [if_neg (by decide)] at hspec
  obtain ⟨n, hreplaced, hresult⟩ := hspec
  generalize hs : ascii "ab" = s at hreplaced
  cases hreplaced with
  | done hno => exact hno ⟨[], ascii "b", hs⟩
  | next => exact absurd (hresult.mpr (Nat.succ_pos _)) Bool.false_ne_true

end Nkit
