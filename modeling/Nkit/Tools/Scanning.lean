import Nkit.Tools
import Nkit.Base.Spans
import Nkit.Base.Strip
import Nkit.Base.Delimited

/-! What the scanning functions of `tools.cpp` find. -/

namespace Nkit.Tools
open Strip Delimited

section
variable {src ws : Bytes} {pos : ℕ}

theorem charAt_eq (hpos : pos < src.length) : charAt src pos = src[pos] := by simp [charAt, hpos]

theorem substr_eq_drop {n : ℕ} (hn : src.length ≤ pos + n) : substr src pos n = src.drop pos :=
  List.take_of_length_le (by rw [List.length_drop]; omega)

theorem take_succ_eq (hpos : pos < src.length) :
    src.take (pos + 1) = src.take pos ++ [charAt src pos] := by
  rw [charAt_eq hpos, List.take_append_getElem]

theorem skipSpaceForwardLoop_eq (src ws : Bytes) (fuel pos : ℕ) (hfuel : fuel = src.length - pos) :
    skipSpaceForwardLoop src src.length ws fuel pos =
      pos + ((src.drop pos).takeWhile (isWhiteSpace ws)).length := by
  induction fuel generalizing pos with
  | zero =>
    rw [List.drop_eq_nil_of_le (by omega)]
    rfl
  | succ fuel ih =>
    have hpos : pos < src.length := by omega
    rw [skipSpaceForwardLoop, charAt_eq hpos, List.drop_eq_getElem_cons hpos, decide_eq_true hpos,
      Bool.true_and]
    split
    · rename_i hwhite
      rw [ih (pos + 1) (by omega), List.takeWhile_cons_of_pos hwhite, List.length_cons]
      omega
    · rename_i hwhite
      rw [List.takeWhile_cons_of_neg hwhite]
      rfl

theorem skipSpaceForward_eq_add (src ws : Bytes) (pos : ℕ) :
    skipSpaceForward src pos src.length ws =
      pos + ((src.drop pos).takeWhile (isWhiteSpace ws)).length :=
  skipSpaceForwardLoop_eq src ws _ pos rfl

theorem skipSpaceForwardLoop_le {size q : ℕ} (hq : isWhiteSpace ws (charAt src q) = false)
    (fuel : ℕ) (hpos : pos ≤ q) :
    skipSpaceForwardLoop src size ws fuel pos ≤ q := by
  induction fuel generalizing pos with
  | zero => exact hpos
  | succ fuel ih =>
    rw [skipSpaceForwardLoop]
    split_ifs with hwhite
    · have hne : pos ≠ q := by
        rintro rfl
        rw [hq, Bool.and_false] at hwhite
        cases hwhite
      exact ih (by omega)
    · exact hpos

theorem skipSpaceForward_le {size q : ℕ} (hq : isWhiteSpace ws (charAt src q) = false)
    (hpos : pos ≤ q) :
    skipSpaceForward src pos size ws ≤ q := skipSpaceForwardLoop_le hq _ hpos

theorem skipSpaceForward_stop {size : ℕ} (hpos : isWhiteSpace ws (charAt src pos) = false) :
    skipSpaceForward src pos size ws = pos := by
  unfold skipSpaceForward
  cases size - pos with
  | zero => rfl
  | succ fuel => rw [skipSpaceForwardLoop, hpos, Bool.and_false, if_neg Bool.false_ne_true]

theorem skipSpaceForward_append (u v ws : Bytes) :
    skipSpaceForward (u ++ v) u.length (u ++ v).length ws =
      u.length + (v.takeWhile (isWhiteSpace ws)).length := by
  rw [skipSpaceForward_eq_add, List.drop_left]

/-- Going back from `pos`, the scan stops at the last character that is not white, and at 0. -/
theorem skipSpaceBackward_eq (ws : Bytes) (hpos : pos < src.length) :
    skipSpaceBackward src ws pos = ((src.take (pos + 1)).rdropWhile (isWhiteSpace ws)).length -
      1 := by
  induction pos with
  | zero =>
    rw [skipSpaceBackward, take_succ_eq hpos, List.take_zero, List.nil_append,
      List.rdropWhile_singleton]
    split_ifs <;> rfl
  | succ pos ih =>
    rw [skipSpaceBackward, take_succ_eq hpos]
    split_ifs with hwhite
    · rw [ih (Nat.lt_of_succ_lt hpos), List.rdropWhile_concat_pos _ _ _ hwhite]
    · rw [List.rdropWhile_concat_neg _ _ _ hwhite, List.length_append,
        List.length_take_of_le hpos.le]
      rfl

theorem findLastNonspace_eq (ws : Bytes) (hpos : pos < src.length) :
    findLastNonspace src ws pos =
      if (src.take (pos + 1)).rdropWhile (isWhiteSpace ws) = [] then none
        else some (skipSpaceBackward src ws pos) := by
  induction pos with
  | zero =>
    rw [findLastNonspace, take_succ_eq hpos, List.take_zero, List.nil_append,
      List.rdropWhile_singleton]
    by_cases hwhite : isWhiteSpace ws (charAt src 0) = true
    · rw [if_pos hwhite, if_pos hwhite, if_pos rfl]
    · rw [if_neg hwhite, if_neg hwhite, if_neg (List.cons_ne_nil _ _), skipSpaceBackward]
  | succ pos ih =>
    rw [findLastNonspace, skipSpaceBackward, take_succ_eq hpos]
    split_ifs with hwhite hnil hnil
    · rw [ih (Nat.lt_of_succ_lt hpos),
        if_pos (by rwa [List.rdropWhile_concat_pos _ _ _ hwhite] at hnil)]
    · rw [ih (Nat.lt_of_succ_lt hpos),
        if_neg (by rwa [List.rdropWhile_concat_pos _ _ _ hwhite] at hnil)]
    · rw [List.rdropWhile_concat_neg _ _ _ hwhite] at hnil
      exact absurd hnil (List.append_ne_nil_of_right_ne_nil _ (List.cons_ne_nil _ _))
    · rfl

end

theorem last_index {s : Bytes} (hs : s ≠ []) (tail : Bytes) :
    s.length - 1 < (s ++ tail).length ∧ (s ++ tail).take (s.length - 1 + 1) = s := by
  have hpos := List.length_pos_iff.mpr hs
  have hlen : (s ++ tail).length = s.length + tail.length := List.length_append
  rw [Nat.sub_add_cancel hpos, List.take_left]
  exact ⟨by omega, rfl⟩

section
variable {ws t v : Bytes} (hv : ∀ b ∈ v, isWhiteSpace ws b = true)
  (hlast : ∀ b ∈ t.getLast?, isWhiteSpace ws b = false) (hne : t ≠ [])
include hv hlast hne

theorem skipSpaceBackward_append (u tail : Bytes) :
    skipSpaceBackward (u ++ t ++ v ++ tail) ws ((u ++ t ++ v).length - 1) =
      (u ++ t).length - 1 := by
  obtain ⟨hlt, htake⟩ :=
    last_index (List.append_ne_nil_of_left_ne_nil (List.append_ne_nil_of_right_ne_nil u hne) v) tail
  rw [skipSpaceBackward_eq ws hlt, htake, rdropWhile_parts hv hlast hne]

theorem findLastNonspace_append (u tail : Bytes) :
    findLastNonspace (u ++ t ++ v ++ tail) ws ((u ++ t ++ v).length - 1) =
      some ((u ++ t).length - 1) := by
  obtain ⟨hlt, htake⟩ :=
    last_index (List.append_ne_nil_of_left_ne_nil (List.append_ne_nil_of_right_ne_nil u hne) v) tail
  rw [findLastNonspace_eq ws hlt, htake, rdropWhile_parts hv hlast hne,
    if_neg (List.append_ne_nil_of_right_ne_nil u hne), skipSpaceBackward_append hv hlast hne]

end

section
variable (s ws : Bytes)

theorem skipSpaceForward_zero :
    skipSpaceForward s 0 s.length ws = (s.takeWhile (isWhiteSpace ws)).length := by
  rw [skipSpaceForward_eq_add, List.drop_zero, Nat.zero_add]

variable {s ws}

theorem skipSpaceForward_white (hwhite : strip (isWhiteSpace ws) s = []) :
    skipSpaceForward s 0 s.length ws = s.length := by
  rw [skipSpaceForward_zero, List.takeWhile_eq_self_iff.mpr (strip_eq_nil_iff.mp hwhite)]

theorem exists_ends (hblack : strip (isWhiteSpace ws) s ≠ []) :
    ∃ u v, s = u ++ strip (isWhiteSpace ws) s ++ v ∧ skipSpaceForward s 0 s.length ws = u.length ∧
      skipSpaceBackward s ws (s.length - 1) = (u ++ strip (isWhiteSpace ws) s).length - 1 ∧
      findLastNonspace s ws (s.length - 1) =
        some ((u ++ strip (isWhiteSpace ws) s).length - 1) := by
  obtain ⟨u, v, hs, hu, hv⟩ := exists_parts (isWhiteSpace ws) s
  have hbare := strip_bare (isWhiteSpace ws) s
  generalize strip (isWhiteSpace ws) s = t at hs hblack hbare
  have hback := skipSpaceBackward_append hv hbare.2 hblack u []
  have hlast := findLastNonspace_append hv hbare.2 hblack u []
  rw [List.append_nil, ← hs] at hback hlast
  refine ⟨u, v, hs, ?_, hback, hlast⟩
  rw [skipSpaceForward_zero, hs, takeWhile_parts hu hbare.1 hblack]

/-- The in-place `trim` takes white space, NUL included, from both ends. -/
theorem trim_eq (s ws : Bytes) : trim s ws = strip (isWhiteSpace ws) s := by
  rw [trim]
  by_cases hnil : strip (isWhiteSpace ws) s = []
  · rw [skipSpaceForward_white hnil, if_pos le_rfl, hnil]
  · obtain ⟨u, v, hs, hfirst, -, hlast⟩ := exists_ends hnil
    generalize strip (isWhiteSpace ws) s = t at hs hnil hlast
    have hpos := List.length_pos_iff.mpr hnil
    have hlong : (u ++ t).length = u.length + t.length := List.length_append
    have hshort : ¬s.length ≤ u.length := by
      rw [hs, List.length_append]
      omega
    rw [hfirst, hlast, if_neg hshort]
    dsimp only
    rw [Nat.sub_add_cancel (by omega), hs, List.take_left, List.drop_left]

end

theorem isWhiteSpace_eq {ws : Bytes} (hws : 0 ∉ ws) (ch : UInt8) :
    isWhiteSpace ws ch = (ch == 0 || ws.contains ch) := by
  have hall : cStr ws = ws := by
    rw [cStr, List.takeWhile_eq_self_iff]
    intro b hb
    exact decide_eq_true fun hzero => hws (hzero ▸ hb)
  rw [isWhiteSpace, hall]

section
variable {src pattern : Bytes} {start pos : ℕ}

theorem find_some_iff :
    find src pattern start = some pos ↔
      (start ≤ pos ∧ pos ≤ src.length ∧ pattern <+: src.drop pos) ∧ ∀ i, start ≤ i → i < pos →
        ¬pattern <+: src.drop i := by
  rw [find, List.find?_range_eq_some]
  simp only [Bool.and_eq_true, decide_eq_true_eq, List.isPrefixOf_iff_prefix, List.mem_range,
    Bool.not_eq_true', Bool.eq_false_iff, ne_eq]
  constructor
  · rintro ⟨⟨hstart, hbegins⟩, hlt, hno⟩
    exact ⟨⟨hstart, Nat.le_of_lt_succ hlt, hbegins⟩, fun i hi hpos h => hno i hpos ⟨hi, h⟩⟩
  · rintro ⟨⟨hstart, hle, hbegins⟩, hno⟩
    exact ⟨⟨hstart, hbegins⟩, Nat.lt_succ_of_le hle, fun i hpos ⟨hi, h⟩ => hno i hi hpos h⟩

theorem find_none_iff :
    find src pattern start = none ↔ ∀ i, start ≤ i → i ≤ src.length → ¬pattern <+: src.drop i := by
  rw [find, List.find?_eq_none]
  simp only [Bool.and_eq_true, decide_eq_true_eq, List.isPrefixOf_iff_prefix, List.mem_range,
    not_and]
  exact ⟨fun h i hi hle => h i (Nat.lt_succ_of_le hle) hi,
    fun h i hlt hi => h i hi (Nat.le_of_lt_succ hlt)⟩

variable {s before rest done : Bytes}

theorem find_parts {u : Bytes} (h : find (u ++ s) pattern u.length = some pos) :
    ∃ field rest, s = field ++ pattern ++ rest ∧ pos = (u ++ field).length := by
  obtain ⟨⟨hle, hpos, rest, hrest⟩, -⟩ := find_some_iff.mp h
  obtain ⟨k, rfl⟩ := Nat.exists_eq_add_of_le hle
  rw [List.length_append] at hpos
  rw [List.drop_length_add_append] at hrest
  refine ⟨s.take k, rest, ?_, ?_⟩
  · rw [List.append_assoc, hrest, List.take_append_drop]
  · rw [List.length_append, List.length_take_of_le (by omega)]

/-- A search that starts behind `done` and not behind the first occurrence finds it. -/
theorem find_append (done : Bytes) (h : FirstAt pattern s before rest) (hdone : done.length ≤ start)
    (hstart : start ≤ (done ++ before).length) :
    find (done ++ s) pattern start = some (done ++ before).length := by
  refine find_some_iff.mpr ⟨⟨hstart, ?_, ?_⟩, fun i hi hlt hbegins => ?_⟩
  · simp only [h.eq, List.length_append]
    omega
  · rw [List.length_append, List.drop_length_add_append, h.drop]
    exact List.prefix_append pattern rest
  · obtain ⟨k, rfl⟩ := Nat.exists_eq_add_of_le (hdone.trans hi)
    rw [List.length_append] at hlt
    rw [List.drop_length_add_append] at hbegins
    exact h.first k (by omega) hbegins

theorem find_append_none (done : Bytes) (h : ¬pattern <:+: s) (hdone : done.length ≤ start) :
    find (done ++ s) pattern start = none := by
  refine find_none_iff.mpr fun i hi hle hbegins => h ?_
  obtain ⟨k, rfl⟩ := Nat.exists_eq_add_of_le (hdone.trans hi)
  rw [List.length_append] at hle
  rw [List.drop_length_add_append] at hbegins
  exact infix_iff_drop.mpr ⟨k, by omega, hbegins⟩

end

end Nkit.Tools
