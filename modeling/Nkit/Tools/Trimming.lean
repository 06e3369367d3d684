import Nkit.Tools.Scanning

/-! The trimming functions of `tools.cpp`, with their reads checked: `none` is a read outside of the
string, or an assertion that fails. -/

namespace Nkit.Tools
open Strip

/-- The position before the end, in `size_t`. -/
def lastPosition (size : ℕ) : ℕ := if 0 < size then size - 1 else npos

namespace Checked

def skipSpaceForwardLoop (src : Bytes) (size : ℕ) (whiteSpaces : Bytes) : ℕ → ℕ → Option ℕ
  | 0, pos => some pos
  | fuel + 1, pos =>
    if pos < size then do
      if isWhiteSpace whiteSpaces (← src[pos]?)
        then skipSpaceForwardLoop src size whiteSpaces fuel (pos + 1) else some pos
    else some pos

def skipSpaceForward (src : Bytes) (pos size : ℕ) (whiteSpaces : Bytes) : Option ℕ :=
  skipSpaceForwardLoop src size whiteSpaces (size - pos) pos

def skipSpaceBackward (src whiteSpaces : Bytes) : ℕ → Option ℕ
  -- the loop is left at 0 whatever stands there
  | 0 => (src[0]?).map fun _ => 0
  | pos + 1 => do
    if isWhiteSpace whiteSpaces (← src[pos + 1]?) then skipSpaceBackward src whiteSpaces pos
      else some (pos + 1)

def ltrimCopy (str whiteSpaces : Bytes) : Option Bytes := do
  let firstPos ← skipSpaceForward str 0 str.length whiteSpaces
  if str.length ≤ firstPos then some [] else some (substr str firstPos (str.length - firstPos))

def rtrimCopy (str whiteSpaces : Bytes) : Option Bytes := do
  let lastPos ← skipSpaceBackward str whiteSpaces (lastPosition str.length)
  some (substr str 0 (spanLength 0 lastPos))

def trimCopy (str whiteSpaces : Bytes) : Option Bytes := do
  let firstPos ← skipSpaceForward str 0 str.length whiteSpaces
  if str.length ≤ firstPos then some []
  else do
    let lastPos ← skipSpaceBackward str whiteSpaces (lastPosition str.length)
    some (substr str firstPos (spanLength firstPos lastPos))

def findFirstNonspace (src : Bytes) (pos size : ℕ) (whiteSpaces : Bytes) : Option (Bool × ℕ) :=
  if size ≤ pos then some (false, pos)
  else (skipSpaceForwardLoop src size whiteSpaces (size - pos) pos).map fun pos =>
    (decide (pos < size), pos)

def findLastNonspace (src whiteSpaces : Bytes) : ℕ → Option (Bool × ℕ)
  | 0 => do
    if isWhiteSpace whiteSpaces (← src[0]?) then some (false, 0) else some (true, 0)
  | pos + 1 => do
    if isWhiteSpace whiteSpaces (← src[pos + 1]?) then findLastNonspace src whiteSpaces pos
      else some (true, pos + 1)

/-- The in-place `trim`. -/
def trim (str whiteSpaces : Bytes) : Option Bytes := do
  let (firstFound, firstPos) ← findFirstNonspace str 0 str.length whiteSpaces
  if !firstFound then some []
  else do
    let (lastFound, lastPos) ← findLastNonspace str whiteSpaces (lastPosition str.length)
    -- `assert(last_found)`
    if !lastFound then none
    else
      let str := str.take (lastPos + 1)
      some (if 0 < firstPos then str.drop firstPos else str)

section
variable {src ws : Bytes} {pos : ℕ}

theorem skipSpaceForwardLoop_eq {size : ℕ} (hsize : size ≤ src.length) (fuel pos : ℕ) :
    skipSpaceForwardLoop src size ws fuel
      pos = some (Tools.skipSpaceForwardLoop src size ws fuel pos) := by
  induction fuel generalizing pos with
  | zero => rfl
  | succ fuel ih =>
    rw [skipSpaceForwardLoop, Tools.skipSpaceForwardLoop]
    by_cases hpos : pos < size
    · rw [if_pos hpos, List.getElem?_eq_getElem (hpos.trans_le hsize), Option.bind_eq_bind,
        Option.bind_some, ← charAt_eq (hpos.trans_le hsize), decide_eq_true hpos, Bool.true_and, ih]
      split_ifs <;> rfl
    · rw [if_neg hpos, decide_eq_false hpos, Bool.false_and, if_neg Bool.false_ne_true]

theorem skipSpaceForward_eq (src ws : Bytes) (pos : ℕ) :
    skipSpaceForward src pos src.length ws = some (Tools.skipSpaceForward src pos src.length ws) :=
  skipSpaceForwardLoop_eq le_rfl _ pos

theorem skipSpaceBackward_eq (ws : Bytes) (hpos : pos < src.length) :
    skipSpaceBackward src ws pos = some (Tools.skipSpaceBackward src ws pos) := by
  induction pos with
  | zero =>
    rw [skipSpaceBackward, List.getElem?_eq_getElem hpos]
    rfl
  | succ pos ih =>
    rw [skipSpaceBackward, Tools.skipSpaceBackward, List.getElem?_eq_getElem hpos,
      Option.bind_eq_bind, Option.bind_some, ← charAt_eq hpos, ih (Nat.lt_of_succ_lt hpos)]
    split_ifs <;> rfl

theorem skipSpaceBackward_outside (ws : Bytes) (hpos : src.length ≤ pos) :
    skipSpaceBackward src ws pos = none := by
  cases pos with
  | zero => rw [skipSpaceBackward, List.getElem?_eq_none hpos, Option.map_none]
  | succ pos =>
    rw [skipSpaceBackward, List.getElem?_eq_none hpos, Option.bind_eq_bind, Option.bind_none]

theorem findFirstNonspace_eq (src ws : Bytes) :
    findFirstNonspace src 0 src.length ws =
      some (decide (Tools.skipSpaceForward src 0 src.length ws < src.length),
        Tools.skipSpaceForward src 0 src.length ws) := by
  rw [findFirstNonspace]
  split_ifs with hsize
  · obtain rfl := List.length_eq_zero_iff.mp (Nat.le_zero.mp hsize)
    rfl
  · rw [skipSpaceForwardLoop_eq le_rfl, Option.map_some, Tools.skipSpaceForward]

theorem findLastNonspace_eq (ws : Bytes) (hpos : pos < src.length) {last : ℕ}
    (h : Tools.findLastNonspace src ws pos = some last) :
    findLastNonspace src ws pos = some (true, last) := by
  induction pos with
  | zero =>
    rw [Tools.findLastNonspace] at h
    rw [findLastNonspace, List.getElem?_eq_getElem hpos, Option.bind_eq_bind, Option.bind_some,
      ← charAt_eq hpos]
    split_ifs at h ⊢
    rw [Option.some.inj h]
  | succ pos ih =>
    rw [Tools.findLastNonspace] at h
    rw [findLastNonspace, List.getElem?_eq_getElem hpos, Option.bind_eq_bind, Option.bind_some,
      ← charAt_eq hpos]
    split_ifs at h ⊢
    · exact ih (Nat.lt_of_succ_lt hpos) h
    · rw [Option.some.inj h]

end

section
variable {s ws : Bytes}

theorem lastPosition_eq (hs : s ≠ []) :
    lastPosition s.length = s.length - 1 := if_pos (List.length_pos_iff.mpr hs)

theorem lastPosition_lt (hs : s ≠ []) : lastPosition s.length < s.length := by
  have hpos := List.length_pos_iff.mpr hs
  rw [lastPosition_eq hs]
  omega

theorem ltrimCopy_eq (s ws : Bytes) : ltrimCopy s ws = some (s.dropWhile (isWhiteSpace ws)) := by
  rw [ltrimCopy, skipSpaceForward_eq, skipSpaceForward_zero, Option.bind_eq_bind, Option.bind_some,
    ← Spans.drop_takeWhile]
  split_ifs with hlong
  · rw [List.drop_of_length_le hlong]
  · rw [substr, List.take_of_length_le (by rw [List.length_drop])]

/-- What `rtrim_copy` leaves if there is something that is not white. -/
theorem rtrimCopy_eq (hlen : s.length < 2 ^ 64) (hblack : s.rdropWhile (isWhiteSpace ws) ≠ []) :
    rtrimCopy s ws = some (s.rdropWhile (isWhiteSpace ws)) := by
  have hprefix := List.rdropWhile_prefix (isWhiteSpace ws) s
  have hne : s ≠ [] := fun hnil => hblack (by rw [hnil, List.rdropWhile_nil])
  have hpos := List.length_pos_iff.mpr hblack
  have hle := hprefix.length_le
  have hlast := lastPosition_lt hne
  have htake : s.take (lastPosition s.length + 1) = s := by
    rw [lastPosition_eq hne]
    exact List.take_of_length_le (by omega)
  have hspan : spanLength 0 ((s.rdropWhile (isWhiteSpace ws)).length - 1) =
      (s.rdropWhile (isWhiteSpace ws)).length := by
    rw [spanLength]
    omega
  rw [rtrimCopy, skipSpaceBackward_eq ws hlast, Tools.skipSpaceBackward_eq ws hlast, htake,
    Option.bind_eq_bind, Option.bind_some, hspan, substr, List.drop_zero,
    ← List.prefix_iff_eq_take.mp hprefix]

/-- If all is white, `rtrim_copy` leaves the first character. -/
theorem rtrimCopy_white (hne : s ≠ []) (hwhite : ∀ b ∈ s, isWhiteSpace ws b = true) :
    rtrimCopy s ws = some (s.take 1) := by
  have hlast := lastPosition_lt hne
  have hnil : (s.take (lastPosition s.length + 1)).rdropWhile (isWhiteSpace ws) = [] :=
    List.rdropWhile_eq_nil_iff.mpr fun b hb => hwhite b (List.mem_of_mem_take hb)
  rw [rtrimCopy, skipSpaceBackward_eq ws hlast, Tools.skipSpaceBackward_eq ws hlast, hnil]
  rfl

theorem rtrimCopy_nil (ws : Bytes) : rtrimCopy [] ws = none := by
  rw [rtrimCopy, skipSpaceBackward_outside ws (Nat.zero_le _)]
  rfl

theorem trimCopy_eq (hlen : s.length < 2 ^ 64) :
    trimCopy s ws = some (strip (isWhiteSpace ws) s) := by
  rw [trimCopy, skipSpaceForward_eq, Option.bind_eq_bind, Option.bind_some]
  by_cases hnil : strip (isWhiteSpace ws) s = []
  · rw [skipSpaceForward_white hnil, if_pos le_rfl, hnil]
  · obtain ⟨u, v, hs, hfirst, hback, -⟩ := exists_ends hnil
    generalize strip (isWhiteSpace ws) s = t at hs hnil hback
    have hpos := List.length_pos_iff.mpr hnil
    have hlong : (u ++ t).length = u.length + t.length := List.length_append
    have hwhole : s.length = u.length + t.length + v.length := by
      rw [hs, List.length_append, List.length_append]
    have hne : s ≠ [] := List.length_pos_iff.mp (by omega)
    have hspan : spanLength u.length ((u ++ t).length - 1) = t.length := by
      rw [spanLength]
      omega
    rw [skipSpaceBackward_eq ws (lastPosition_lt hne), lastPosition_eq hne, hfirst, hback,
      if_neg (by omega), Option.bind_some, hspan, hs, substr, List.append_assoc, List.drop_left,
      List.take_left]

theorem trim_eq (s ws : Bytes) : trim s ws = some (strip (isWhiteSpace ws) s) := by
  rw [trim, findFirstNonspace_eq, Option.bind_eq_bind, Option.bind_some]
  by_cases hnil : strip (isWhiteSpace ws) s = []
  · rw [skipSpaceForward_white hnil, decide_eq_false (Nat.lt_irrefl _), hnil]
    rfl
  · obtain ⟨u, v, hs, hfirst, -, hlast⟩ := exists_ends hnil
    generalize strip (isWhiteSpace ws) s = t at hs hnil hlast
    have hpos := List.length_pos_iff.mpr hnil
    have hlong : (u ++ t).length = u.length + t.length := List.length_append
    have hwhole : s.length = u.length + t.length + v.length := by
      rw [hs, List.length_append, List.length_append]
    have hne : s ≠ [] := List.length_pos_iff.mp (by omega)
    rw [← lastPosition_eq hne] at hlast
    rw [findLastNonspace_eq ws (lastPosition_lt hne) hlast, hfirst, decide_eq_true (by omega)]
    simp only [Bool.not_true, Bool.false_eq_true, if_false, Option.bind_some]
    rw [Nat.sub_add_cancel (by omega), hs, List.take_left, List.drop_left]
    split_ifs with hu
    · rfl
    · rw [List.length_eq_zero_iff.mp (Nat.eq_zero_of_not_pos hu), List.nil_append]

end

end Checked

/-- Every trimming function gives what it should, and reads nothing outside of the string. -/
structure Trims (s ws : Bytes) : Prop where
  ltrimCopy : Checked.ltrimCopy s ws = some (s.dropWhile ws.contains)
  rtrimCopy : Checked.rtrimCopy s ws = some (s.rdropWhile ws.contains)
  trimCopy : Checked.trimCopy s ws = some ((s.dropWhile ws.contains).rdropWhile ws.contains)
  trim : Checked.trim s ws = Checked.trimCopy s ws
  rtrimCopy_ltrimCopy : (Checked.ltrimCopy s ws).bind (Checked.rtrimCopy · ws) =
    Checked.trimCopy s ws

/-- They do so exactly for the strings that are not all white. -/
theorem trims_iff {s ws : Bytes} (hws : 0 ∉ ws) (hs : 0 ∉ s) (hlen : s.length < 2 ^ 64) :
    Trims s ws ↔ ∃ ch ∈ s, ch ∉ ws := by
  have hcongr : ∀ ch ∈ s, isWhiteSpace ws ch = ws.contains ch := by
    intro ch hch
    have hne : (ch == 0) = false := beq_eq_false_iff_ne.mpr fun hzero => hs (hzero ▸ hch)
    rw [isWhiteSpace_eq hws, hne, Bool.false_or]
  constructor
  · intro h
    by_contra hall
    have hwhite : ∀ ch ∈ s, ws.contains ch = true := by
      intro ch hch
      by_contra hout
      exact hall ⟨ch, hch, fun hin => hout (List.contains_iff_mem.mpr hin)⟩
    have hr := h.rtrimCopy
    rw [List.rdropWhile_eq_nil_iff.mpr hwhite] at hr
    cases s with
    | nil =>
      rw [Checked.rtrimCopy_nil] at hr
      cases hr
    | cons ch s =>
      rw [Checked.rtrimCopy_white (List.cons_ne_nil ch s) fun b hb =>
        (hcongr b hb).trans (hwhite b hb)] at hr
      cases hr
  · rintro ⟨ch, hch, hout⟩
    have hnot : ws.contains ch = false := Bool.eq_false_iff.mpr fun hin =>
      hout (List.contains_iff_mem.mp hin)
    have hblack : s.rdropWhile ws.contains ≠ [] := by
      intro hnil
      rw [List.rdropWhile_eq_nil_iff.mp hnil ch hch] at hnot
      cases hnot
    have hcongr' : ∀ ch ∈ s.dropWhile ws.contains, isWhiteSpace ws ch = ws.contains ch :=
      fun ch hch =>
      hcongr ch ((List.dropWhile_suffix _).subset hch)
    have hleft : (s.dropWhile ws.contains).rdropWhile ws.contains ≠ [] := by
      intro hnil
      rw [strip_eq_nil_iff.mp hnil ch hch] at hnot
      cases hnot
    have hshort : (s.dropWhile ws.contains).length < 2 ^ 64 :=
      (List.dropWhile_suffix _).length_le.trans_lt hlen
    have htrim : Checked.trimCopy s ws =
        some ((s.dropWhile ws.contains).rdropWhile ws.contains) := by
      rw [Checked.trimCopy_eq hlen, strip_congr hcongr, strip]
    have hltrim : Checked.ltrimCopy s ws = some (s.dropWhile ws.contains) := by
      rw [Checked.ltrimCopy_eq, dropWhile_congr hcongr]
    refine ⟨hltrim, ?_, htrim, ?_, ?_⟩
    · rw [Checked.rtrimCopy_eq hlen (by rwa [rdropWhile_congr hcongr]), rdropWhile_congr hcongr]
    · rw [Checked.trim_eq, Checked.trimCopy_eq hlen]
    · rw [hltrim, Option.bind_some, htrim,
        Checked.rtrimCopy_eq hshort (by rwa [rdropWhile_congr hcongr']), rdropWhile_congr hcongr']

theorem trims_iff_text : Trims (ascii " a ") whiteSpaces ↔ ∃ ch ∈ ascii " a ", ch ∉ whiteSpaces :=
  trims_iff (by decide) (by decide) (by decide)

/-- Of two blanks `rtrim_copy` leaves one, and `rtrim_copy` of an empty string reads before it. -/
theorem blank_not_trimmed :
    Checked.rtrimCopy (ascii "  ") whiteSpaces = some (ascii " ") ∧
      Checked.rtrimCopy [] whiteSpaces = none ∧
    ¬Trims (ascii "  ") whiteSpaces := by
  have hblank : Checked.rtrimCopy (ascii "  ") whiteSpaces = some (ascii " ") := by decide
  refine ⟨hblank, Checked.rtrimCopy_nil _, fun h => ?_⟩
  have hr := h.rtrimCopy
  rw [hblank] at hr
  revert hr
  decide

end Nkit.Tools
