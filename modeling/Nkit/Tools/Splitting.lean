import Nkit.Tools.Scanning

/-! The two functions `simple_split` against the fields of a text: where a field is blank, and at
the end of the last one, they do not always strip it. -/

namespace Nkit.Tools
open Strip Delimited

def AllWhite (ws s : Bytes) : Prop := ∀ ch ∈ s, ch ∈ ws

/-- `simple_split` gives the stripped fields of `src`. -/
def SplitsFields (src delimeter ws : Bytes) : Prop :=
  (AllWhite ws src → simpleSplit src delimeter ws = []) ∧
  (¬AllWhite ws src → ∃ n fields, Fields delimeter src n fields ∧
    simpleSplit src delimeter ws = fields.map (strip ws.contains) ∧
    (simpleSplit src delimeter ws).length = n + 1)

/-- `simple_split` finds the delimiter, and gives what stands before it and behind it, stripped. -/
structure SplitsPair (src delimeter ws : Bytes) : Prop where
  found : (simpleSplitPair src delimeter ws).1 = true ↔ delimeter <:+: src
  parts : ∀ before rest, FirstAt delimeter src before rest →
    (simpleSplitPair src delimeter ws).2 = (strip ws.contains before, strip ws.contains rest)
  whole : ¬delimeter <:+: src → (simpleSplitPair src delimeter ws).2 = (strip ws.contains src, [])

/-- No NUL, which the scans take for white space, stands at an end of the stripped field. -/
def Sharp (ws field : Bytes) : Prop :=
  (strip ws.contains field).head? ≠ some 0 ∧ (strip ws.contains field).getLast? ≠ some 0

/-- A field with a delimiter behind it, which may be white as `blank` says only. -/
def Kept (delimeter ws field : Bytes) (blank : Prop) : Prop :=
  Sharp ws field ∧ (AllWhite ws field → delimeter.head? ≠ some 0 ∧ blank)

/-- A field at the start of the text. -/
def KeyKept (delimeter ws field : Bytes) : Prop := Kept delimeter ws field (field.length ≤ 1)

def ItemKept (delimeter ws field : Bytes) : Prop :=
  Kept delimeter ws field (field = [] ∧ delimeter.getLast? ≠ some 0)

/-- A field at the end of the text. -/
def RestKept (ws field : Bytes) : Prop :=
  AllWhite ws field ∨ (strip ws.contains field).head? ≠ some 0 ∧ ∀ ch ∈ field.getLast?, ch ∉ ws

def ItemsKept (delimeter ws : Bytes) : List Bytes → Prop
  | [] => True
  | [field] => RestKept ws field
  | field :: next :: fields => ItemKept delimeter ws field ∧ ItemsKept delimeter ws (next :: fields)

def FieldsKept (delimeter ws : Bytes) : List Bytes → Prop
  | [] => True
  | [field] => RestKept ws field
  | field :: next :: fields => KeyKept delimeter ws field ∧ ItemsKept delimeter ws (next :: fields)

section
variable {ws field : Bytes} (hws : 0 ∉ ws)

theorem contains_false_iff {ch : UInt8} : ws.contains ch = false ↔ ch ∉ ws := by
  rw [Bool.eq_false_iff, Ne, List.contains_iff_mem]

theorem exists_head {s : Bytes} (hs : s ≠ []) :
    ∃ ch, ch ∈ s.head? := ⟨_, List.head?_eq_some_head hs⟩

theorem allWhite_iff : AllWhite ws field ↔ ∀ ch ∈ field, ws.contains ch = true :=
  forall₂_congr fun _ _ => List.contains_iff_mem.symm

include hws

theorem isWhiteSpace_of_contains (ch : UInt8) (h : ws.contains ch = true) :
    isWhiteSpace ws ch = true := by
  rw [isWhiteSpace_eq hws, h, Bool.or_true]

theorem isWhiteSpace_false_iff {ch : UInt8} : isWhiteSpace ws ch = false ↔ ch ≠ 0 ∧ ch ∉ ws := by
  rw [isWhiteSpace_eq hws, Bool.or_eq_false_iff, beq_eq_false_iff_ne, contains_false_iff]

theorem ne_zero_iff {o : Option UInt8} (ho : ∀ ch ∈ o, ch ∉ ws) :
    o ≠ some 0 ↔ ∀ ch ∈ o, isWhiteSpace ws ch = false := by
  refine ⟨fun hne ch hch => (isWhiteSpace_false_iff hws).mpr ⟨fun hzero => hne ?_, ho ch hch⟩,
    fun h heq => ?_⟩
  · rw [Option.mem_def.mp hch, hzero]
  · exact ((isWhiteSpace_false_iff hws).mp (h 0 heq)).1 rfl

theorem head_ne_zero_iff :
    (strip ws.contains field).head? ≠ some 0 ↔ ∀ ch ∈ (strip ws.contains field).head?,
      isWhiteSpace ws ch = false :=
  ne_zero_iff hws fun ch hch => contains_false_iff.mp ((strip_bare ws.contains field).1 ch hch)

theorem sharp_iff : Sharp ws field ↔ Bare (isWhiteSpace ws) (strip ws.contains field) :=
  and_congr (head_ne_zero_iff hws)
    (ne_zero_iff hws fun ch hch => contains_false_iff.mp ((strip_bare ws.contains field).2 ch hch))

theorem strip_eq_iff_sharp : strip (isWhiteSpace ws) field = strip ws.contains field ↔
    Sharp ws field := by
  rw [sharp_iff hws, strip_eq_strip_iff (isWhiteSpace_of_contains hws)]

theorem restKept_iff : field.dropWhile (isWhiteSpace ws) = strip ws.contains field ↔
    RestKept ws field := by
  rw [dropWhile_eq_strip_iff (isWhiteSpace_of_contains hws), RestKept, allWhite_iff,
    head_ne_zero_iff hws]
  simp only [contains_false_iff]

end

/-- The field that both functions cut out between `firstPos` and the delimiter at `pos`. -/
def fieldText (src whiteSpaces : Bytes) (firstPos pos : ℕ) : Bytes :=
  substr src firstPos (spanLength firstPos (fieldEnd src whiteSpaces pos))

section
variable {src ws u field tail : Bytes} {pos : ℕ}

theorem fieldEnd_eq (hpos : 0 < pos) (hlen : pos ≤ src.length) :
    fieldEnd src ws pos = ((src.take pos).rdropWhile (isWhiteSpace ws)).length - 1 := by
  rw [fieldEnd, if_pos hpos, skipSpaceBackward_eq ws (by omega), Nat.sub_add_cancel hpos]

theorem fieldText_black (hlen : (u ++ field ++ tail).length < 2 ^ 64)
    (hblack : field.rdropWhile (isWhiteSpace ws) ≠ []) :
    fieldText (u ++ field ++ tail) ws u.length (u ++ field).length =
      field.rdropWhile (isWhiteSpace ws) := by
  have hparts : field = field.rdropWhile (isWhiteSpace ws) ++ field.rtakeWhile (isWhiteSpace ws) :=
    (List.rdropWhile_append_rtakeWhile ..).symm
  have hlast := last_rdropWhile (isWhiteSpace ws) field
  have hwhite : ∀ ch ∈ field.rtakeWhile (isWhiteSpace ws), isWhiteSpace ws ch = true := fun ch =>
    List.mem_rtakeWhile_imp
  generalize field.rdropWhile (isWhiteSpace ws) = t at hblack hparts hlast
  generalize field.rtakeWhile (isWhiteSpace ws) = v at hparts hwhite
  subst hparts
  have hpos := List.length_pos_iff.mpr hblack
  have hend : fieldEnd (u ++ (t ++ v) ++ tail) ws (u ++ (t ++ v)).length =
      u.length + (t.length - 1) := by
    rw [← List.append_assoc, fieldEnd, if_pos (by simp only [List.length_append]; omega),
      skipSpaceBackward_append hwhite hlast hblack, List.length_append]
    omega
  rw [fieldText, hend, substr, List.append_assoc, List.drop_left]
  have hspan : spanLength u.length (u.length + (t.length - 1)) = t.length := by
    simp only [List.length_append] at hlen
    rw [spanLength]
    omega
  rw [hspan, List.append_assoc, List.take_left]

theorem fieldText_white (hlen : src.length < 2 ^ 64) (hpos : pos ≤ src.length) :
    fieldText src ws pos pos = if pos = 0 ∨ fieldEnd src ws pos + 1 = pos then []
      else src.drop pos := by
  rw [fieldText]
  by_cases hzero : pos = 0
  · subst hzero
    rw [if_pos (.inl rfl), fieldEnd, if_neg (Nat.lt_irrefl 0)]
    exact List.take_zero
  · have hend : fieldEnd src ws pos = _ := fieldEnd_eq (Nat.pos_of_ne_zero hzero) hpos
    have hle := (List.rdropWhile_prefix (isWhiteSpace ws) (src.take pos)).length_le
    rw [List.length_take_of_le hpos] at hle
    split_ifs with hcond
    · have hspan : spanLength pos (fieldEnd src ws pos) = 0 := by
        rw [spanLength]
        omega
      rw [hspan, substr, List.take_zero]
    · refine substr_eq_drop ?_
      rw [spanLength]
      omega

theorem fieldText_head {d s : Bytes} (hd : d ≠ [])
    (hhead : ∀ ch ∈ d.head?, isWhiteSpace ws ch = true)
    (hstop : ∀ ch ∈ s.head?, isWhiteSpace ws ch = false) (hlen : (u ++ s).length < 2 ^ 64)
    (hfind : find (u ++ s) d u.length = some pos) :
    ∃ ch ∈ (fieldText (u ++ s) ws u.length pos).head?, isWhiteSpace ws ch = false := by
  obtain ⟨field, rest, rfl, rfl⟩ := find_parts hfind
  have hne : field ≠ [] := by
    rintro rfl
    obtain ⟨ch, hch⟩ := exists_head hd
    have hblack := hstop ch (by rwa [List.nil_append, List.head?_append_of_ne_nil d hd])
    rw [hhead ch hch] at hblack
    cases hblack
  obtain ⟨ch, hch⟩ := exists_head hne
  have hblack : isWhiteSpace ws ch = false := by
    refine hstop ch ?_
    rwa [List.append_assoc, List.head?_append_of_ne_nil field hne]
  have htext : field.rdropWhile (isWhiteSpace ws) ≠ [] := by
    intro hnil
    have hwhite := List.rdropWhile_eq_nil_iff.mp hnil ch (List.mem_of_mem_head? hch)
    rw [hblack] at hwhite
    cases hwhite
  refine ⟨ch, ?_, hblack⟩
  rw [List.append_assoc field, ← List.append_assoc] at hlen ⊢
  rw [fieldText_black hlen htext]
  obtain ⟨v, hv⟩ := List.rdropWhile_prefix (isWhiteSpace ws) field
  rwa [← hv, List.head?_append_of_ne_nil _ htext] at hch

end

section
variable {d ws done s before rest : Bytes} {blank : Prop} {start pos : ℕ}

theorem takeWhile_of_black (hfirst : FirstAt d s before rest)
    (hblack : strip (isWhiteSpace ws) before ≠ []) :
    s.takeWhile (isWhiteSpace ws) = before.takeWhile (isWhiteSpace ws) := by
  rw [hfirst.eq, List.append_assoc, List.takeWhile_append, if_neg]
  intro hall
  refine hblack (strip_eq_nil_iff.mpr (List.takeWhile_eq_self_iff.mp ?_))
  exact (List.takeWhile_prefix _).eq_of_length hall

theorem find_black (hfirst : FirstAt d s before rest) (hblack : strip (isWhiteSpace ws) before ≠ [])
    (hlen : (done ++ s).length < 2 ^ 64)
    (hstart : start = done.length + (s.takeWhile (isWhiteSpace ws)).length) :
    find (done ++ s) d start = some (done ++ before).length ∧
      fieldText (done ++ s) ws start (done ++ before).length = strip (isWhiteSpace ws) before := by
  have hparts : done ++ before = done ++ before.takeWhile (isWhiteSpace ws) ++
      before.dropWhile (isWhiteSpace ws) := by
    rw [List.append_assoc, List.takeWhile_append_dropWhile]
  rw [takeWhile_of_black hfirst hblack, ← List.length_append] at hstart
  subst hstart
  constructor
  · refine find_append done hfirst ?_ ?_
    · rw [List.length_append]
      exact Nat.le_add_right _ _
    · rw [hparts]
      exact (List.prefix_append _ _).length_le
  · rw [hfirst.eq, List.append_assoc before, ← List.append_assoc, hparts] at hlen ⊢
    exact fieldText_black hlen hblack

theorem find_white (hfirst : FirstAt d s before rest)
    (hwhite : ∀ ch ∈ before, isWhiteSpace ws ch = true) (hd : d ≠ [])
    (hhead : ∀ ch ∈ d.head?, isWhiteSpace ws ch = false) (hlen : (done ++ s).length < 2 ^ 64)
    (hstart : start = done.length + (s.takeWhile (isWhiteSpace ws)).length) :
    find (done ++ s) d start = some (done ++ before).length ∧
      fieldText (done ++ s) ws start (done ++ before).length =
      if (done ++ before).length = 0 ∨ fieldEnd (done ++ s) ws (done ++ before).length + 1 =
        (done ++ before).length then []
      else d ++ rest := by
  have htake : s.takeWhile (isWhiteSpace ws) = before := by
    rw [hfirst.eq, List.append_assoc]
    refine Spans.takeWhile_append_stop hwhite fun ch hch => hhead ch ?_
    rwa [List.head?_append_of_ne_nil d hd] at hch
  have hdrop : (done ++ s).drop (done ++ before).length = d ++ rest := by
    rw [List.length_append, List.drop_length_add_append, hfirst.drop]
  rw [htake, ← List.length_append] at hstart
  subst hstart
  refine ⟨find_append done hfirst ?_ le_rfl, ?_⟩
  · rw [List.length_append]
    exact Nat.le_add_right _ _
  · rw [fieldText_white hlen ?_, hdrop]
    simp only [hfirst.eq, List.length_append]
    omega

def BlankStays (d ws done s before : Bytes) (blank : Prop) : Prop :=
  (∀ ch ∈ before, isWhiteSpace ws ch = true) → (∀ ch ∈ d.head?, isWhiteSpace ws ch = false) →
    ((done ++ before).length = 0 ∨ fieldEnd (done ++ s) ws (done ++ before).length + 1 =
      (done ++ before).length ↔ blank)

theorem ne_strip_of_head {text : Bytes} (hwhite : ∀ ch ∈ before, isWhiteSpace ws ch = true)
    (hhead : ∃ ch ∈ text.head?, isWhiteSpace ws ch = false) : text ≠ strip ws.contains before := by
  rintro rfl
  obtain ⟨ch, hch, hblack⟩ := hhead
  have hin : ch ∈ before :=
    (List.dropWhile_suffix _).subset
      ((List.rdropWhile_prefix _ _).subset (List.mem_of_mem_head? hch))
  rw [hwhite ch hin] at hblack
  cases hblack

section
variable (hws : 0 ∉ ws) (hd : d ≠ []) (hdw : ∀ ch ∈ d, ch ∉ ws)
include hws

theorem kept_white_iff (hwhite : ∀ ch ∈ before, isWhiteSpace ws ch = true) :
    Kept d ws before blank ↔ AllWhite ws before ∧ d.head? ≠ some 0 ∧ blank := by
  have hnil : strip (isWhiteSpace ws) before = [] := strip_eq_nil_iff.mpr hwhite
  have hsharp : Sharp ws before ↔ AllWhite ws before := by
    rw [← strip_eq_iff_sharp hws, hnil, eq_comm, strip_eq_nil_iff, allWhite_iff]
  rw [Kept, hsharp]
  exact and_congr_right fun hall => forall_prop_of_true hall

include hd hdw

theorem find_field_iff (done : Bytes) (hfirst : FirstAt d s before rest)
    (hlen : (done ++ s).length < 2 ^ 64)
    (hstart : start = done.length + (s.takeWhile (isWhiteSpace ws)).length)
    (hblank : BlankStays d ws done s before blank) :
    find (done ++ s) d start = some pos ∧ fieldText (done ++ s) ws start pos =
      strip ws.contains before ↔
      pos = (done ++ before).length ∧ Kept d ws before blank := by
  have hhead := ne_zero_iff hws (o := d.head?) fun ch hch => hdw ch (List.mem_of_mem_head? hch)
  by_cases hblack : strip (isWhiteSpace ws) before = []
  · have hwhite := strip_eq_nil_iff.mp hblack
    rw [kept_white_iff hws hwhite, hhead]
    by_cases hdhead : ∀ ch ∈ d.head?, isWhiteSpace ws ch = false
    · obtain ⟨hfind, htext⟩ := find_white hfirst hwhite hd hdhead hlen hstart
      rw [hfind, Option.some_inj, eq_comm (a := pos), and_iff_right hdhead]
      refine and_congr_right fun hpos => ?_
      subst hpos
      rw [htext, ← hblank hwhite hdhead, allWhite_iff]
      split_ifs with hcond
      · rw [and_iff_left hcond, eq_comm, strip_eq_nil_iff]
      · refine iff_of_false (ne_strip_of_head hwhite ?_) fun h => hcond h.2
        obtain ⟨ch, hch⟩ := exists_head hd
        exact ⟨ch, by rwa [List.head?_append_of_ne_nil d hd], hdhead ch hch⟩
    · -- the scan passes the delimiter behind the blank field, and the next text is cut out instead
      refine iff_of_false (fun ⟨hfind, htext⟩ => ?_) fun h => hdhead h.2.2.1
      have hdwhite : ∀ ch ∈ d.head?, isWhiteSpace ws ch = true := by
        intro ch hch
        by_contra hch'
        refine hdhead fun ch' hch'' => ?_
        rw [Option.mem_unique hch'' hch, Bool.eq_false_iff]
        exact hch'
      have hsplit : done ++ s = done ++ s.takeWhile (isWhiteSpace ws) ++
          s.dropWhile (isWhiteSpace ws) := by
        rw [List.append_assoc, List.takeWhile_append_dropWhile]
      rw [← List.length_append] at hstart
      subst hstart
      rw [hsplit] at hlen hfind htext
      exact ne_strip_of_head hwhite
        (fieldText_head hd hdwhite (Spans.head_dropWhile _ _) hlen hfind) htext
  · obtain ⟨hfind, htext⟩ := find_black hfirst hblack hlen hstart
    rw [hfind, Option.some_inj, eq_comm (a := pos)]
    refine and_congr_right fun hpos => ?_
    subst hpos
    have hnot : ¬AllWhite ws before := fun hall =>
      hblack (strip_eq_nil_iff.mpr fun ch hch => isWhiteSpace_of_contains hws ch
        (allWhite_iff.mp hall ch hch))
    rw [htext, strip_eq_iff_sharp hws, Kept, and_iff_left fun hall => absurd hall hnot]

end

theorem key_blankStays (hfirst : FirstAt d s before rest) :
    BlankStays d ws [] s before (before.length ≤ 1) := by
  intro hwhite _
  rw [List.nil_append, List.nil_append]
  by_cases hzero : before.length = 0
  · exact iff_of_true (.inl hzero) (by omega)
  · have htake : s.take before.length =
      before := by rw [hfirst.eq, List.append_assoc, List.take_left]
    have hlen : before.length ≤ s.length := by
      rw [← htake, List.length_take]
      exact Nat.min_le_right _ _
    rw [fieldEnd_eq (Nat.pos_of_ne_zero hzero) hlen, htake, List.rdropWhile_eq_nil_iff.mpr hwhite,
      List.length_nil]
    omega

theorem item_blankStays (hws : 0 ∉ ws) (hd : d ≠ []) (hdw : ∀ ch ∈ d, ch ∉ ws) (hdone : d <:+ done)
    (hfirst : FirstAt d s before rest) :
    BlankStays d ws done s before (before = [] ∧ d.getLast? ≠ some 0) := by
  intro hwhite hhead
  obtain ⟨u, rfl⟩ := hdone
  obtain ⟨ch, hch⟩ := exists_head hd
  have hblack : (u ++ d).rdropWhile (isWhiteSpace ws) ≠ [] := by
    intro hnil
    have hch' :=
      List.rdropWhile_eq_nil_iff.mp hnil ch (List.mem_append_right u (List.mem_of_mem_head? hch))
    rw [hhead ch hch] at hch'
    cases hch'
  have hpos := List.length_pos_iff.mpr hblack
  have hle := (List.rdropWhile_prefix (isWhiteSpace ws) (u ++ d)).length_le
  have htake : (u ++ d ++ s).take (u ++ d ++ before).length = u ++ d ++ before := by
    rw [hfirst.eq, ← List.append_assoc, ← List.append_assoc, List.append_assoc (u ++ d ++ before),
      List.take_left]
  have hend : fieldEnd (u ++ d ++ s) ws (u ++ d ++ before).length + 1 =
      ((u ++ d).rdropWhile (isWhiteSpace ws)).length := by
    rw [fieldEnd_eq, htake, rdropWhile_append_of_pos hwhite]
    · omega
    · rw [List.length_append]
      omega
    · rw [← htake, List.length_take]
      exact Nat.min_le_right _ _
  have hlast := ne_zero_iff hws (o := d.getLast?) fun ch hch =>
    hdw ch (List.mem_of_mem_getLast? hch)
  rw [hend, List.length_append, hlast, ← List.length_eq_zero_iff]
  by_cases hdlast : ∀ ch ∈ d.getLast?, isWhiteSpace ws ch = false
  · have hall : (u ++ d).rdropWhile (isWhiteSpace ws) = u ++ d := by
      refine rdropWhile_of_last fun ch hch => hdlast ch ?_
      rwa [List.getLast?_append_of_ne_nil u hd] at hch
    rw [hall, and_iff_left hdlast]
    omega
  · have hlt : ((u ++ d).rdropWhile (isWhiteSpace ws)).length ≠ (u ++ d).length := by
      intro heq
      have hall := (List.rdropWhile_prefix (isWhiteSpace ws) (u ++ d)).eq_of_length heq
      refine hdlast fun ch hch => last_rdropWhile (isWhiteSpace ws) (u ++ d) ch ?_
      rwa [hall, List.getLast?_append_of_ne_nil u hd]
    refine iff_of_false ?_ fun h => hdlast h.2
    omega

end

section
variable {src d ws key value : Bytes}

theorem simpleSplitPair_blank (hwhite : strip (isWhiteSpace ws) src = []) :
    simpleSplitPair src d ws = (false, [], []) := by
  rw [simpleSplitPair, skipSpaceForward_white hwhite, if_pos le_rfl, ite_self]

theorem first_eq (src ws : Bytes) :
    skipSpaceForward src 0 src.length ws = ([] : Bytes).length +
      (src.takeWhile (isWhiteSpace ws)).length := by
  rw [skipSpaceForward_zero, List.length_nil, Nat.zero_add]

theorem first_lt (hblack : strip (isWhiteSpace ws) src ≠ []) :
    skipSpaceForward src 0 src.length ws < src.length := by
  obtain ⟨u, v, hs, hfirst, -⟩ := exists_ends hblack
  have hpos := List.length_pos_iff.mpr hblack
  have hlen := congrArg List.length hs
  rw [List.length_append, List.length_append] at hlen
  omega

theorem simpleSplitPair_black (hblack : strip (isWhiteSpace ws) src ≠ [])
    (hlen : src.length < 2 ^ 64) :
    simpleSplitPair src d ws =
      match find src d (skipSpaceForward src 0 src.length ws) with
      | none => (false, strip (isWhiteSpace ws) src, [])
      | some pos => (true, fieldText src ws (skipSpaceForward src 0 src.length ws) pos,
          (src.drop (pos + d.length)).dropWhile (isWhiteSpace ws)) := by
  have hlt := first_lt hblack
  rw [simpleSplitPair, if_neg (by omega)]
  dsimp only
  rw [if_neg (by omega)]
  cases find src d (skipSpaceForward src 0 src.length ws) with
  | none =>
    obtain ⟨u, v, hs, hfirst, hback, -⟩ := exists_ends hblack
    generalize strip (isWhiteSpace ws) src = t at hs hback hblack
    have hpos := List.length_pos_iff.mpr hblack
    have hspan : spanLength u.length ((u ++ t).length - 1) = t.length := by
      rw [hs, List.length_append, List.length_append] at hlen
      rw [List.length_append, spanLength]
      omega
    dsimp only
    rw [hback, hfirst, hspan, substr, hs, List.append_assoc, List.drop_left, List.take_left]
  | some pos =>
    have hdrop : src.drop (skipSpaceForward src (pos + d.length) src.length ws) =
        (src.drop (pos + d.length)).dropWhile (isWhiteSpace ws) := by
      rw [skipSpaceForward_eq_add, ← List.drop_drop, Spans.drop_takeWhile]
    dsimp only
    rw [← hdrop, fieldText]
    split_ifs with hvalue
    · have htail : src.length ≤ skipSpaceForward src (pos + d.length) src.length ws +
          (src.length - skipSpaceForward src (pos + d.length) src.length ws + 1) := by omega
      rw [substr_eq_drop htail]
    · rw [List.drop_eq_nil_of_le (by omega)]

theorem simpleSplitPair_eq_true_iff (hd : d ≠ []) (hlen : src.length < 2 ^ 64) :
    simpleSplitPair src d ws = (true, key, value) ↔
      ∃ pos, (find src d (skipSpaceForward src 0 src.length ws) = some pos ∧
        fieldText src ws (skipSpaceForward src 0 src.length ws) pos = key) ∧
        (src.drop (pos + d.length)).dropWhile (isWhiteSpace ws) = value := by
  by_cases hblack : strip (isWhiteSpace ws) src = []
  · rw [simpleSplitPair_blank hblack, skipSpaceForward_white hblack]
    refine iff_of_false nofun ?_
    rintro ⟨pos, ⟨hfind, -⟩, -⟩
    obtain ⟨⟨hle, -, hbegins⟩, -⟩ := find_some_iff.mp hfind
    rw [List.drop_eq_nil_of_le hle] at hbegins
    exact hd (List.prefix_nil.mp hbegins)
  · rw [simpleSplitPair_black hblack hlen]
    cases find src d (skipSpaceForward src 0 src.length ws) with
    | none => exact iff_of_false nofun (by rintro ⟨pos, ⟨⟨⟩, -⟩, -⟩)
    | some pos => simp only [Prod.mk.injEq, true_and, Option.some.injEq, and_assoc, exists_eq_left']

theorem simpleSplitPair_of_not_infix (hno : ¬d <:+: src) (hlen : src.length < 2 ^ 64) :
    simpleSplitPair src d ws = (false, strip (isWhiteSpace ws) src, []) := by
  by_cases hblack : strip (isWhiteSpace ws) src = []
  · rw [simpleSplitPair_blank hblack, hblack]
  · have hfind : find src d (skipSpaceForward src 0 src.length ws) = none :=
      find_append_none [] hno (Nat.zero_le _)
    rw [simpleSplitPair_black hblack hlen, hfind]

theorem splitsPair_of_infix {before rest : Bytes} (hfirst : FirstAt d src before rest) :
    SplitsPair src d ws ↔
      simpleSplitPair src d ws = (true, strip ws.contains before, strip ws.contains rest) := by
  constructor
  · intro h
    exact Prod.ext (h.found.mpr hfirst.occurs) (h.parts before rest hfirst)
  · intro h
    refine ⟨?_, fun before' rest' hfirst' => ?_, fun hno => absurd hfirst.occurs hno⟩
    · rw [h]
      exact iff_of_true rfl hfirst.occurs
    · obtain ⟨rfl, rfl⟩ := hfirst.unique hfirst'
      rw [h]

theorem splitsPair_of_not_infix (hno : ¬d <:+: src) :
    SplitsPair src d ws ↔ simpleSplitPair src d ws = (false, strip ws.contains src, []) := by
  constructor
  · intro h
    exact Prod.ext (Bool.eq_false_iff.mpr fun hfound => hno (h.found.mp hfound)) (h.whole hno)
  · intro h
    refine ⟨?_, fun before rest hfirst => absurd hfirst.occurs hno, fun _ => ?_⟩
    · rw [h]
      exact iff_of_false Bool.false_ne_true hno
    · rw [h]

/-- The key and the value are what they should be where the fields that are not stripped have
nothing to strip. -/
theorem splitsPair_iff (hws : 0 ∉ ws) (hd : d ≠ []) (hdw : ∀ ch ∈ d, ch ∉ ws)
    (hlen : src.length < 2 ^ 64) :
    SplitsPair src d ws ↔
      (¬d <:+: src ∧ Sharp ws src) ∨ ∃ before rest, FirstAt d src before rest ∧
        KeyKept d ws before ∧ RestKept ws rest := by
  by_cases hin : d <:+: src
  · obtain ⟨before, rest, hfirst⟩ := exists_firstAt hin
    have hkept : (∃ before rest, FirstAt d src before rest ∧ KeyKept d ws before ∧
      RestKept ws rest) ↔
        KeyKept d ws before ∧ RestKept ws rest := by
      refine ⟨fun ⟨before', rest', hfirst', h⟩ => ?_, fun h => ⟨before, rest, hfirst, h⟩⟩
      obtain ⟨rfl, rfl⟩ := hfirst.unique hfirst'
      exact h
    have hfield : ∀ pos, find src d (skipSpaceForward src 0 src.length ws) = some pos ∧
        fieldText src ws (skipSpaceForward src 0 src.length ws) pos = strip ws.contains before ↔
          pos = before.length ∧ KeyKept d ws before := fun pos =>
      find_field_iff hws hd hdw [] hfirst hlen (first_eq src ws) (key_blankStays hfirst)
    have hdrop : src.drop (before.length + d.length) = rest := by
      rw [← List.drop_drop, hfirst.drop, List.drop_left]
    rw [or_iff_right fun h => h.1 hin, hkept, splitsPair_of_infix hfirst,
      simpleSplitPair_eq_true_iff hd hlen]
    simp only [hfield, and_assoc, exists_eq_left, hdrop, restKept_iff hws]
  · have hnone : ¬∃ before rest, FirstAt d src before rest ∧ KeyKept d ws before ∧
        RestKept ws rest :=
      fun ⟨_, _, hfirst, _⟩ => hin hfirst.occurs
    rw [or_iff_left hnone, and_iff_right hin, splitsPair_of_not_infix hin,
      simpleSplitPair_of_not_infix hin hlen, ← strip_eq_iff_sharp hws]
    simp only [Prod.mk.injEq, true_and, and_true]

end

theorem splitsPair_iff_key : SplitsPair (ascii "k = v") (ascii "=") whiteSpaces ↔
    (¬ascii "=" <:+: ascii "k = v" ∧ Sharp whiteSpaces (ascii "k = v")) ∨
      ∃ before rest, FirstAt (ascii "=") (ascii "k = v") before rest ∧
        KeyKept (ascii "=") whiteSpaces before ∧ RestKept whiteSpaces rest :=
  splitsPair_iff (by decide) (by decide)
    (List.forall_mem_singleton.mpr (show (61 : UInt8) ∉ whiteSpaces by decide)) (by decide)

/-- A value keeps the blank at its end, and a blank key becomes the rest of the text. -/
theorem value_keeps_blank :
    (simpleSplitPair (ascii "k=v ") (ascii "=") whiteSpaces).2 = (ascii "k", ascii "v ") ∧
    (simpleSplitPair (ascii "  =v") (ascii "=") whiteSpaces).2 = (ascii "=v", ascii "v") ∧
    ¬SplitsPair (ascii "k=v ") (ascii "=") whiteSpaces ∧
      ¬SplitsPair (ascii "  =v") (ascii "=") whiteSpaces := by
  refine ⟨by decide, by decide, fun h => ?_, fun h => ?_⟩
  · have hparts := h.parts (ascii "k") (ascii "v ") ⟨by decide, by decide⟩
    revert hparts
    decide
  · have hparts := h.parts (ascii "  ") (ascii "v") ⟨by decide, by decide⟩
    revert hparts
    decide

section
variable {src d ws done s before rest : Bytes} {blank : Prop} {fields out : List Bytes}
  {start n fuel : ℕ}

theorem itemsKept_cons (hne : fields ≠ []) :
    ItemsKept d ws (before :: fields) ↔ ItemKept d ws before ∧ ItemsKept d ws fields := by
  cases fields with
  | nil => exact absurd rfl hne
  | cons => rfl

theorem fieldsKept_cons (hne : fields ≠ []) :
    FieldsKept d ws (before :: fields) ↔ KeyKept d ws before ∧ ItemsKept d ws fields := by
  cases fields with
  | nil => exact absurd rfl hne
  | cons => rfl

theorem simpleSplitLoop_last (done : Bytes) (hno : ¬d <:+: s)
    (hstart : start = done.length + (s.takeWhile (isWhiteSpace ws)).length) (fuel : ℕ) :
    simpleSplitLoop (done ++ s) d ws (fuel + 1) start = [s.dropWhile (isWhiteSpace ws)] := by
  have hfind : find (done ++ s) d start = none := find_append_none done hno (by omega)
  rw [simpleSplitLoop, hfind]
  dsimp only
  rw [substr_eq_drop (by omega), hstart, List.drop_length_add_append, Spans.drop_takeWhile]

section
variable (hws : 0 ∉ ws) (hd : d ≠ []) (hdw : ∀ ch ∈ d, ch ∉ ws)
include hws hd hdw

theorem simpleSplitLoop_next (done : Bytes) (hfirst : FirstAt d s before rest)
    (hlen : (done ++ s).length < 2 ^ 64)
    (hstart : start = done.length + (s.takeWhile (isWhiteSpace ws)).length)
    (hblank : BlankStays d ws done s before blank) (hout : out ≠ []) (fuel : ℕ) :
    simpleSplitLoop (done ++ s) d ws (fuel + 1) start = strip ws.contains before :: out ↔
      Kept d ws before blank ∧ simpleSplitLoop (done ++ s) d ws fuel
        (skipSpaceForward (done ++ s) ((done ++ before).length + d.length) (done ++ s).length ws) =
          out := by
  have hfield : ∀ pos, find (done ++ s) d start = some pos ∧ fieldText (done ++ s) ws start pos =
    strip ws.contains before ↔
      pos = (done ++ before).length ∧ Kept d ws before blank := fun pos =>
        find_field_iff hws hd hdw done hfirst hlen hstart hblank
  rw [simpleSplitLoop]
  cases hfind : find (done ++ s) d start with
  | none =>
    refine iff_of_false (fun h => hout (List.cons.inj h).2.symm) fun h => ?_
    have hsome := ((hfield _).mpr ⟨rfl, h.1⟩).1
    rw [hfind] at hsome
    cases hsome
  | some pos =>
    dsimp only
    rw [List.cons.injEq]
    constructor
    · rintro ⟨htext, hloop⟩
      obtain ⟨rfl, hkept⟩ := (hfield pos).mp ⟨hfind, htext⟩
      exact ⟨hkept, hloop⟩
    · rintro ⟨hkept, hloop⟩
      obtain ⟨hsome, htext⟩ := (hfield _).mpr ⟨rfl, hkept⟩
      obtain rfl : pos = (done ++ before).length := Option.some.inj (hfind.symm.trans hsome)
      exact ⟨htext, hloop⟩

theorem simpleSplitLoop_iff (hfields : Fields d s n fields) (hdone : d <:+ done)
    (hlen : (done ++ s).length < 2 ^ 64)
    (hstart : start = done.length + (s.takeWhile (isWhiteSpace ws)).length)
    (hfuel : s.length < fuel) :
    simpleSplitLoop (done ++ s) d ws fuel start = fields.map (strip ws.contains) ↔
      ItemsKept d ws fields := by
  induction hfields generalizing done fuel start with
  | last hno =>
    obtain ⟨fuel, rfl⟩ := Nat.exists_eq_succ_of_ne_zero (Nat.ne_zero_of_lt hfuel)
    rw [simpleSplitLoop_last done hno hstart, List.map_singleton, List.cons.injEq, and_iff_left rfl,
      restKept_iff hws]
    rfl
  | @next s before rest n fields hfirst hrest ih =>
    obtain ⟨fuel, rfl⟩ := Nat.exists_eq_succ_of_ne_zero (Nat.ne_zero_of_lt hfuel)
    have hne : fields ≠ [] := List.ne_nil_of_length_eq_add_one hrest.length_eq
    have hmap : fields.map (strip ws.contains) ≠ [] := fun hnil => hne (List.map_eq_nil_iff.mp hnil)
    have hsrc : done ++ s = done ++ before ++ d ++ rest := by
      rw [hfirst.eq, ← List.append_assoc, ← List.append_assoc]
    have hshort : rest.length < fuel := by
      have hpos := List.length_pos_iff.mpr hd
      rw [hfirst.eq, List.length_append, List.length_append] at hfuel
      omega
    rw [List.map_cons,
      simpleSplitLoop_next hws hd hdw done hfirst hlen hstart
      (item_blankStays hws hd hdw hdone hfirst) hmap, itemsKept_cons hne]
    refine and_congr_right' ?_
    rw [hsrc] at hlen ⊢
    rw [← List.length_append]
    exact ih (List.suffix_append _ d) hlen (skipSpaceForward_append ..) hshort

end

theorem simpleSplit_blank (hwhite : strip (isWhiteSpace ws) src = []) :
    simpleSplit src d ws = [] := by
  rw [simpleSplit, skipSpaceForward_white hwhite, if_pos le_rfl, ite_self]

theorem simpleSplit_black (hblack : strip (isWhiteSpace ws) src ≠ []) :
    simpleSplit src d ws = simpleSplitLoop src d ws (src.length + 1)
      (skipSpaceForward src 0 src.length ws) := by
  have hlt := first_lt hblack
  rw [simpleSplit, if_neg (by omega)]
  exact if_neg (by omega)

theorem splitsFields_of_fields (hfields : Fields d src n fields) (hall : ¬AllWhite ws src) :
    SplitsFields src d ws ↔ simpleSplit src d ws = fields.map (strip ws.contains) := by
  constructor
  · intro h
    obtain ⟨n', fields', hfields', hsplit, -⟩ := h.2 hall
    obtain ⟨rfl, rfl⟩ := hfields.unique hfields'
    exact hsplit
  · intro h
    refine ⟨fun hwhite => absurd hwhite hall, fun _ => ⟨n, fields, hfields, h, ?_⟩⟩
    rw [h, List.length_map, hfields.length_eq]

section
variable (hws : 0 ∉ ws) (hd : d ≠ []) (hdw : ∀ ch ∈ d, ch ∉ ws)
include hws hd hdw

theorem not_fieldsKept (hfields : Fields d src n fields) (hall : ¬AllWhite ws src)
    (hwhite : ∀ ch ∈ src, isWhiteSpace ws ch = true) :
    ¬FieldsKept d ws fields := by
  cases hfields with
  | last =>
    intro hrest
    have hnil := (restKept_iff hws).mpr hrest
    rw [List.dropWhile_eq_nil_iff.mpr hwhite, eq_comm, strip_eq_nil_iff] at hnil
    exact hall (allWhite_iff.mpr hnil)
  | @next _ before rest _ fields hfirst hrest =>
    rw [fieldsKept_cons (List.ne_nil_of_length_eq_add_one hrest.length_eq), KeyKept,
      kept_white_iff hws fun ch hch =>
      hwhite ch (by rw [hfirst.eq, List.append_assoc]; exact List.mem_append_left _ hch)]
    rintro ⟨⟨-, hhead, -⟩, -⟩
    obtain ⟨ch, hch⟩ := exists_head hd
    have hblack := (ne_zero_iff hws fun ch hch => hdw ch (List.mem_of_mem_head? hch)).mp hhead ch
      hch
    rw [hwhite ch (hfirst.occurs.subset (List.mem_of_mem_head? hch))] at hblack
    cases hblack

theorem simpleSplit_fields_iff (hfields : Fields d src n fields) (hlen : src.length < 2 ^ 64)
    (hblack : strip (isWhiteSpace ws) src ≠ []) :
    simpleSplit src d ws = fields.map (strip ws.contains) ↔ FieldsKept d ws fields := by
  rw [simpleSplit_black hblack]
  cases hfields with
  | last hno =>
    have hloop := simpleSplitLoop_last [] hno (first_eq src ws) src.length
    rw [List.nil_append] at hloop
    rw [hloop, List.map_singleton, List.cons.injEq, and_iff_left rfl, restKept_iff hws]
    rfl
  | @next _ before rest _ fields hfirst hrest =>
    have hne : fields ≠ [] := List.ne_nil_of_length_eq_add_one hrest.length_eq
    have hmap : fields.map (strip ws.contains) ≠ [] := fun hnil => hne (List.map_eq_nil_iff.mp hnil)
    have hnext :=
      simpleSplitLoop_next hws hd hdw [] hfirst hlen (first_eq src ws) (key_blankStays hfirst) hmap
        src.length
    rw [List.nil_append, List.nil_append] at hnext
    rw [List.map_cons, hnext, fieldsKept_cons hne]
    refine and_congr_right' ?_
    have hpos := List.length_pos_iff.mpr hd
    rw [hfirst.eq] at hlen ⊢
    rw [← List.length_append]
    refine simpleSplitLoop_iff hws hd hdw hrest (List.suffix_append _ d) hlen
      (skipSpaceForward_append ..) ?_
    rw [List.length_append, List.length_append]
    omega

/-- The fields are what they should be where the last one and the blank ones have nothing to strip.
-/
theorem splitsFields_iff (hlen : src.length < 2 ^ 64) :
    SplitsFields src d ws ↔ ∃ n fields, Fields d src n fields ∧ FieldsKept d ws fields := by
  obtain ⟨n, fields, hfields⟩ := exists_fields hd src
  have hkept : (∃ n fields, Fields d src n fields ∧ FieldsKept d ws fields) ↔
      FieldsKept d ws fields := by
    refine ⟨fun ⟨n', fields', hfields', h⟩ => ?_, fun h => ⟨n, fields, hfields, h⟩⟩
    obtain ⟨rfl, rfl⟩ := hfields.unique hfields'
    exact h
  rw [hkept]
  by_cases hall : AllWhite ws src
  · have hwhite : ∀ ch ∈ src, isWhiteSpace ws ch = true := fun ch hch =>
      isWhiteSpace_of_contains hws ch (allWhite_iff.mp hall ch hch)
    refine iff_of_true ⟨fun _ => simpleSplit_blank (strip_eq_nil_iff.mpr hwhite),
      fun h => absurd hall h⟩ ?_
    cases hfields with
    | last => exact .inl hall
    | next hfirst =>
      obtain ⟨ch, hch⟩ := List.exists_mem_of_ne_nil d hd
      exact absurd (hall ch (hfirst.occurs.subset hch)) (hdw ch hch)
  · rw [splitsFields_of_fields hfields hall]
    by_cases hblack : strip (isWhiteSpace ws) src = []
    · refine iff_of_false (fun h => ?_)
        (not_fieldsKept hws hd hdw hfields hall (strip_eq_nil_iff.mp hblack))
      rw [simpleSplit_blank hblack, eq_comm, List.map_eq_nil_iff] at h
      exact List.ne_nil_of_length_eq_add_one hfields.length_eq h
    · exact simpleSplit_fields_iff hws hd hdw hfields hlen hblack

end

end

theorem splitsFields_iff_items : SplitsFields (ascii "a , b") (ascii ",") whiteSpaces ↔
    ∃ n fields, Fields (ascii ",") (ascii "a , b") n fields ∧
      FieldsKept (ascii ",") whiteSpaces fields :=
  splitsFields_iff (by decide) (by decide)
    (List.forall_mem_singleton.mpr (show (44 : UInt8) ∉ whiteSpaces by decide)) (by decide)

/-- A blank field becomes the rest of the text, and the last field keeps the blank at its end. -/
theorem blank_field_takes_rest :
    simpleSplit (ascii "a, ,b") (ascii ",") whiteSpaces = [ascii "a", ascii ",b", ascii "b"] ∧
    simpleSplit (ascii "a,b ") (ascii ",") whiteSpaces = [ascii "a", ascii "b "] ∧
    ¬SplitsFields (ascii "a, ,b") (ascii ",") whiteSpaces ∧
      ¬SplitsFields (ascii "a,b ") (ascii ",") whiteSpaces := by
  refine ⟨by decide, by decide, fun h => ?_, fun h => ?_⟩
  · have hfirst : FirstAt (ascii ",") (ascii "a, ,b") (ascii "a") (ascii " ,b") :=
      ⟨by decide, by decide⟩
    have hsecond : FirstAt (ascii ",") (ascii " ,b") (ascii " ") (ascii "b") :=
      ⟨by decide, by decide⟩
    have hfields := Fields.next hfirst (.next hsecond (.last (by decide)))
    have hsplit :=
      (splitsFields_of_fields hfields (fun hall => absurd (hall 97 (by decide)) (by decide))).mp h
    revert hsplit
    decide
  · have hfirst : FirstAt (ascii ",") (ascii "a,b ") (ascii "a") (ascii "b ") :=
      ⟨by decide, by decide⟩
    have hfields := Fields.next hfirst (.last (by decide))
    have hsplit :=
      (splitsFields_of_fields hfields (fun hall => absurd (hall 97 (by decide)) (by decide))).mp h
    revert hsplit
    decide

end Nkit.Tools
