import Nkit.Dynamic.Numbers

/-! `sscanf` with the directives `%<width>u`, white space and single characters. -/

namespace Nkit.Scanf

inductive Directive where
  | number (width : ℕ)
  | char (c : UInt8)
  | space

inductive Piece where
  | number (blanks sign digits : Bytes)
  | char (c : UInt8)
  | space (blanks : Bytes)
deriving DecidableEq

def Piece.text : Piece → Bytes
  | number blanks sign digits => blanks ++ (sign ++ digits)
  | char c => [c]
  | space blanks => blanks

/-- The numbers stored: `%u` negates as `strtoul` does. -/
def Piece.values : Piece → List (BitVec 32)
  | number _ sign digits =>
    let n := BitVec.ofNat 32 (digitsValue digits)
    [if sign = [45] then -n else n]
  | char _ | space _ => []

def isSign (c : UInt8) : Bool := c == 43 || c == 45

def scanNumber (width : ℕ) (s : Bytes) : Option (Piece × Bytes) :=
  let blanks := s.takeWhile isSpace
  let rest := s.dropWhile isSpace
  let field := rest.take width
  let sign := (field.take 1).takeWhile isSign
  let digits := (field.drop sign.length).takeWhile isDigit
  if digits = [] then none
    else some (.number blanks sign digits, rest.drop (sign.length + digits.length))

def Directive.scan : Directive → Bytes → Option (Piece × Bytes)
  | number width, s => scanNumber width s
  | char _, [] => none
  | char c, c' :: s => if c' = c then some (.char c, s) else none
  | space, s => some (.space (s.takeWhile isSpace), s.dropWhile isSpace)

/-- `sscanf`: the numbers stored until a directive fails. -/
def sscanf : List Directive → Bytes → List (BitVec 32)
  | [], _ => []
  | d :: format, s =>
    match d.scan s with
    | none => []
    | some (p, rest) => p.values ++ sscanf format rest

/-- The first character, if there is one, does not satisfy `p`. -/
def StopsAt (p : UInt8 → Bool) (s : Bytes) : Prop := ∀ c t, s = c :: t → p c = false

/-- The pieces that a directive takes before `rest`. -/
inductive Directive.Takes : Directive → Piece → Bytes → Prop
  | number {width : ℕ} {blanks sign digits rest : Bytes} (hblanks : ∀ c ∈ blanks, isSpace c = true)
      (hsign : sign = [] ∨ sign = [43] ∨ sign = [45]) (hne : digits ≠ [])
        (hdigits : ∀ c ∈ digits, isDigit c = true)
      (hfits : sign.length + digits.length ≤ width)
      (hstops : sign.length + digits.length = width ∨ StopsAt isDigit rest) :
      Takes (.number width) (.number blanks sign digits) rest
  | char {c : UInt8} {rest : Bytes} : Takes (.char c) (.char c) rest
  | space {blanks rest : Bytes} (hblanks : ∀ c ∈ blanks, isSpace c = true)
      (hstops : StopsAt isSpace rest) :
      Takes .space (.space blanks) rest

section Pieces
variable {p : UInt8 → Bool} {s t rest blanks sign digits : Bytes} {width : ℕ}

theorem stopsAt_nil : StopsAt p [] := fun _ _ h => nomatch h

theorem takeWhile_stopsAt (h : StopsAt p s) : s.takeWhile p = [] := by
  cases s with
  | nil => rfl
  | cons c s => rw [List.takeWhile_cons, h c s rfl, if_neg Bool.false_ne_true]

theorem stopsAt_dropWhile (s : Bytes) : StopsAt p (s.dropWhile p) := by
  intro c t h
  have hne : s.dropWhile p ≠ [] := by
    rw [h]
    exact List.cons_ne_nil c t
  have hhead := List.head_dropWhile_not p hne
  simp only [h, List.head_cons] at hhead
  exact hhead

/-- A text whose first part satisfies `p` and whose second does not begin with it. -/
theorem takeWhile_split (hs : ∀ c ∈ s, p c = true) (ht : StopsAt p t) :
    (s ++ t).takeWhile p = s := by
  rw [List.takeWhile_append_of_pos hs, takeWhile_stopsAt ht, List.append_nil]

theorem dropWhile_split (hs : ∀ c ∈ s, p c = true) (ht : StopsAt p t) :
    (s ++ t).dropWhile p = t := by
  have hsum := List.takeWhile_append_dropWhile (p := p) (l := s ++ t)
  rw [takeWhile_split hs ht] at hsum
  exact List.append_cancel_left hsum

theorem isSpace_range {c : UInt8} (h : isSpace c = true) : c.toNat ≤ 32 := by
  rw [isSpace, Bool.or_eq_true, Bool.and_eq_true, beq_iff_eq, decide_eq_true_eq,
    decide_eq_true_eq] at h
  rcases h with rfl | ⟨-, h⟩
  · decide
  · exact (UInt8.le_iff_toNat_le.mp h).trans (by decide)

theorem isSign_range {c : UInt8} (h : isSign c = true) : 43 ≤ c.toNat ∧ c.toNat ≤ 45 := by
  rw [isSign, Bool.or_eq_true, beq_iff_eq, beq_iff_eq] at h
  rcases h with rfl | rfl <;> decide

theorem not_isSpace {c : UInt8} (h : isDigit c = true ∨ isSign c = true) : isSpace c = false := by
  rcases h with h | h
  · exact isSpace_of_isDigit h
  · refine Bool.eq_false_iff.mpr fun hs => ?_
    have hspace := isSpace_range hs
    have hsign := isSign_range h
    omega

theorem not_isSign {c : UInt8} (h : isDigit c = true) : isSign c = false := by
  refine Bool.eq_false_iff.mpr fun hs => ?_
  have hsign := isSign_range hs
  have hdigit := isDigit_iff.mp h
  omega

theorem stopsAt_append (hne : s ≠ []) (hs : ∀ c ∈ s, p c = false) : StopsAt p (s ++ t) := by
  intro c u h
  obtain ⟨d, s, rfl⟩ := List.exists_cons_of_ne_nil hne
  rw [List.cons_append, List.cons.injEq] at h
  exact h.1 ▸ hs d List.mem_cons_self

theorem isSign_of_mem (hsign : sign = [] ∨ sign = [43] ∨ sign = [45]) :
    ∀ c ∈ sign, isSign c = true := by
  rcases hsign with rfl | rfl | rfl
  · exact fun _ h => nomatch h
  · exact fun c h => List.mem_singleton.mp h ▸ rfl
  · exact fun c h => List.mem_singleton.mp h ▸ rfl

theorem scanNumber_takes (h : (Directive.number width).Takes (.number blanks sign digits) rest) :
    scanNumber width (blanks ++ (sign ++ (digits ++ rest))) =
      some (.number blanks sign digits, rest) := by
  cases h with
  | number hblanks hsign hne hdigits hfits hstops =>
    have hspace : StopsAt isSpace (sign ++ (digits ++ rest)) := by
      rw [← List.append_assoc]
      refine stopsAt_append (by simp [hne]) fun c hc => not_isSpace ?_
      exact (List.mem_append.mp hc).symm.imp (hdigits c) (isSign_of_mem hsign c)
    have hpos : 0 < digits.length := List.length_pos_iff.mpr hne
    have hfield : (sign ++ (digits ++ rest)).take width =
        sign ++ (digits ++ rest.take (width - sign.length - digits.length)) := by
      rw [List.take_append, List.take_append, List.take_of_length_le (by omega),
        List.take_of_length_le (by omega)]
    have htail : StopsAt isDigit (rest.take (width - sign.length - digits.length)) := by
      rcases hstops with hfull | hstops
      · rw [show width - sign.length - digits.length = 0 by omega, List.take_zero]
        exact stopsAt_nil
      · intro c t hct
        cases rest with
        | nil => cases (List.take_nil ▸ hct : [] = c :: t)
        | cons c' rest =>
          cases hk : width - sign.length - digits.length with
          | zero =>
            rw [hk] at hct
            cases hct
          | succ k =>
            rw [hk, List.take_succ_cons, List.cons.injEq] at hct
            exact hct.1 ▸ hstops c' rest rfl
    generalize rest.take (width - sign.length - digits.length) = tail at hfield htail
    have hsigned : ((sign ++ (digits ++ tail)).take 1).takeWhile isSign = sign := by
      rcases hsign with rfl | rfl | rfl
      · rw [List.nil_append]
        refine takeWhile_stopsAt fun c t hct => ?_
        obtain ⟨d, digits, rfl⟩ := List.exists_cons_of_ne_nil hne
        rw [List.cons_append, List.take_succ_cons, List.cons.injEq] at hct
        exact hct.1 ▸ not_isSign (hdigits d List.mem_cons_self)
      · rfl
      · rfl
    unfold scanNumber
    simp only [takeWhile_split hblanks hspace, dropWhile_split hblanks hspace, hfield, hsigned,
      List.drop_left, takeWhile_split hdigits htail, if_neg hne]
    rw [← List.append_assoc, ← List.length_append, List.drop_left]

theorem takes_of_scanNumber {x : Piece} (h : scanNumber width s = some (x, rest)) :
    (Directive.number width).Takes x rest ∧ s = x.text ++ rest := by
  unfold scanNumber at h
  have hs := List.takeWhile_append_dropWhile (p := isSpace) (l := s)
  have hblanks : ∀ c ∈ s.takeWhile isSpace, isSpace c = true := fun _ => List.mem_takeWhile_imp
  simp only at h
  generalize s.takeWhile isSpace = blanks at h hs hblanks
  generalize s.dropWhile isSpace = t at h hs
  have hsign : ((t.take width).take 1).takeWhile isSign = [] ∨
    ((t.take width).take 1).takeWhile isSign = [43] ∨
      ((t.take width).take 1).takeWhile isSign = [45] := by
    cases htake : t.take width with
    | nil => exact .inl rfl
    | cons c field =>
      rw [List.take_succ_cons, List.take_zero, List.takeWhile_cons]
      split_ifs with hc
      · rw [isSign, Bool.or_eq_true, beq_iff_eq, beq_iff_eq] at hc
        rcases hc with rfl | rfl
        · exact .inr (.inl rfl)
        · exact .inr (.inr rfl)
      · exact .inl rfl
  have hprefix : ((t.take width).take 1).takeWhile isSign <+: t.take width :=
    (List.takeWhile_prefix _).trans (List.take_prefix _ _)
  generalize ((t.take width).take 1).takeWhile isSign = sign at h hsign hprefix
  obtain ⟨field, hfield⟩ := hprefix
  rw [← hfield, List.drop_left] at h
  have hdigits : ∀ c ∈ field.takeWhile isDigit, isDigit c = true := fun _ => List.mem_takeWhile_imp
  have hstops := stopsAt_dropWhile (p := isDigit) field
  have hsplit := List.takeWhile_append_dropWhile (p := isDigit) (l := field)
  generalize field.takeWhile isDigit = digits at h hdigits hsplit
  generalize field.dropWhile isDigit = tail at hstops hsplit
  subst hsplit
  split_ifs at h with hne
  simp only [Option.some.injEq, Prod.mk.injEq] at h
  obtain ⟨rfl, rfl⟩ := h
  have ht : t = sign ++ (digits ++ (tail ++ t.drop width)) := by
    conv_lhs => rw [← List.take_append_drop width t, ← hfield]
    simp only [List.append_assoc]
  have hdrop : t.drop (sign.length + digits.length) = tail ++ t.drop width := by
    conv_lhs => rw [ht]
    rw [← List.append_assoc, ← List.length_append, List.drop_left]
  have hlength := congrArg List.length hfield
  rw [List.length_append, List.length_append, List.length_take] at hlength
  rw [hdrop]
  refine ⟨.number hblanks hsign hne hdigits (by omega) ?_, ?_⟩
  · -- the digits end with the field or at a byte that is no digit
    by_cases hfull : sign.length + digits.length = width
    · exact .inl hfull
    · refine .inr ?_
      cases tail with
      | cons c tail =>
        intro c' u hcu
        rw [List.cons_append, List.cons.injEq] at hcu
        exact hcu.1 ▸ hstops c tail rfl
      | nil =>
        rw [List.length_nil] at hlength
        rw [List.nil_append, List.drop_of_length_le (by omega)]
        exact stopsAt_nil
  · rw [← hs]
    conv_lhs => rw [ht]
    simp only [Piece.text, List.append_assoc]

theorem scan_iff {d : Directive} {x : Piece} :
    d.scan s = some (x, rest) ↔ d.Takes x rest ∧ s = x.text ++ rest := by
  cases d with
  | number width =>
    constructor
    · exact takes_of_scanNumber
    · rintro ⟨htakes, rfl⟩
      obtain ⟨blanks, sign, digits, rfl⟩ : ∃ blanks sign digits, x =
          .number blanks sign digits := by
        cases htakes
        exact ⟨_, _, _, rfl⟩
      simpa only [Directive.scan, Piece.text, List.append_assoc] using scanNumber_takes htakes
  | char c =>
    constructor
    · intro h
      cases s with
      | nil => cases h
      | cons c' s =>
        rw [Directive.scan] at h
        split_ifs at h with hc
        simp only [Option.some.injEq, Prod.mk.injEq] at h
        obtain ⟨rfl, rfl⟩ := h
        exact ⟨.char, hc ▸ rfl⟩
    · rintro ⟨⟨⟩, rfl⟩
      exact if_pos rfl
  | space =>
    constructor
    · intro h
      simp only [Directive.scan, Option.some.injEq, Prod.mk.injEq] at h
      obtain ⟨rfl, rfl⟩ := h
      exact ⟨.space (fun _ => List.mem_takeWhile_imp) (stopsAt_dropWhile s),
        List.takeWhile_append_dropWhile.symm⟩
    · rintro ⟨htakes, rfl⟩
      cases htakes with
      | space hblanks hstops =>
        rw [Directive.scan, Piece.text, takeWhile_split hblanks hstops,
          dropWhile_split hblanks hstops]

end Pieces

/-- The pieces of an input that begins with what a format asks for. -/
inductive Reads : List Directive → List Piece → Bytes → Prop
  | nil (s : Bytes) : Reads [] [] s
  | cons {d : Directive} {x : Piece} {format : List Directive} {xs : List Piece} {rest : Bytes}
      (htakes : d.Takes x rest)
      (hreads : Reads format xs rest) : Reads (d :: format) (x :: xs) (x.text ++ rest)

def stored (format : List Directive) : ℕ := (format.filter fun d => d matches .number _).length

def Regular : List Directive → Prop
  | [] => True
  | .number width :: format => 0 < width ∧ Regular format
  | .char _ :: format => format ≠ [] ∧ Regular format
  | .space :: format => stored (format.take 1) = 1 ∧ Regular format

section Formats
variable {format : List Directive} {xs ys : List Piece} {s : Bytes}

theorem Reads.unique (hx : Reads format xs s) (hy : Reads format ys s) : xs = ys := by
  induction hx generalizing ys with
  | nil => cases hy with | nil => rfl
  | @cons d x format xs rest htakes _ ih =>
    generalize hs : x.text ++ rest = s at hy
    cases hy with
    | cons htakes' hreads' =>
      have hscan := (scan_iff.mpr ⟨htakes, rfl⟩).symm.trans (scan_iff.mpr ⟨htakes', hs⟩)
      simp only [Option.some.injEq, Prod.mk.injEq] at hscan
      obtain ⟨rfl, rfl⟩ := hscan
      rw [ih hreads']

theorem stored_pos (h : Regular format) (hne : format ≠ []) : 0 < stored format := by
  induction format with
  | nil => exact absurd rfl hne
  | cons d format ih =>
    cases d with
    | number width => exact Nat.succ_pos _
    | char c => exact ih h.2 h.1
    | space =>
      refine ih h.2 fun hnil => ?_
      rw [hnil] at h
      exact absurd h.1 (by decide)

theorem stored_cons (d : Directive) (format : List Directive) :
    stored (d :: format) = stored [d] + stored format := by
  rw [stored, stored, stored, ← List.length_append, ← List.filter_append, List.singleton_append]

theorem Regular.tail {d : Directive} (h : Regular (d :: format)) : Regular format := by
  cases d with
  | number width => exact h.2
  | char c => exact h.2
  | space => exact h.2

theorem Directive.Takes.stored {d : Directive} {x : Piece} {rest : Bytes} (h : d.Takes x rest) :
    x.values.length = Scanf.stored [d] := by
  cases h <;> rfl

theorem Reads.sscanf (h : Reads format xs s) : Scanf.sscanf format s = xs.flatMap Piece.values := by
  induction h with
  | nil => rfl
  | cons htakes _ ih => rw [Scanf.sscanf, scan_iff.mpr ⟨htakes, rfl⟩, List.flatMap_cons, ← ih]

theorem reads_of_sscanf (h : Regular format) (hcount : (sscanf format s).length = stored format) :
    ∃ xs, Reads format xs s := by
  induction format generalizing s with
  | nil => exact ⟨[], .nil s⟩
  | cons d format ih =>
    rw [sscanf] at hcount
    cases hscan : d.scan s with
    | none =>
      rw [hscan] at hcount
      exact absurd hcount (stored_pos h (List.cons_ne_nil d format)).ne
    | some found =>
      obtain ⟨x, rest⟩ := found
      obtain ⟨htakes, rfl⟩ := scan_iff.mp hscan
      rw [hscan] at hcount
      simp only [List.length_append, htakes.stored] at hcount
      rw [stored_cons d format, Nat.add_left_cancel_iff] at hcount
      obtain ⟨xs, hxs⟩ := ih h.tail hcount
      exact ⟨x :: xs, .cons htakes hxs⟩

end Formats

def written : List Directive → List Bytes → Bytes
  | .number _ :: format, d :: ds => d ++ written format ds
  | .char c :: format, ds => c :: written format ds
  | .space :: format, ds => 32 :: written format ds
  | _, _ => []

structure Fills (width : ℕ) (digits : Bytes) : Prop where
  length : digits.length = width
  digit : ∀ c ∈ digits, isDigit c = true

theorem Fills.cons {width : ℕ} {digits : Bytes} (h : Fills (width + 1) digits) :
    ∃ c ds, digits = c :: ds ∧ isDigit c = true := by
  obtain ⟨c, ds, rfl⟩ := List.exists_cons_of_length_eq_add_one h.length
  exact ⟨c, ds, rfl, h.digit c List.mem_cons_self⟩

def widths (format : List Directive) : List ℕ :=
  format.filterMap fun | .number width => some width | .char _ | .space => none

def Directive.size : Directive → ℕ
  | number width => width
  | char _ | space => 1

/-- A number without white space and sign that fills its width, or a single blank. -/
inductive Directive.Exact : Directive → Piece → Prop
  | number {width : ℕ} {digits : Bytes} (h : digits.length = width) :
      Exact (.number width) (.number [] [] digits)
  | char (c : UInt8) : Exact (.char c) (.char c)
  | space : Exact .space (.space [32])

section Exact
variable {format : List Directive} {xs : List Piece} {s : Bytes} {ds : List Bytes}

def numberOf (digits : Bytes) : BitVec 32 := BitVec.ofNat 32 (digitsValue digits)

theorem length_written (hfills : List.Forall₂ Fills (widths format) ds) :
    (written format ds).length = (format.map Directive.size).sum := by
  induction format generalizing ds with
  | nil => rfl
  | cons d format ih =>
    rw [List.map_cons, List.sum_cons]
    cases d with
    | number width =>
      cases hfills with
      | cons hd hrest => rw [written, List.length_append, hd.length, ih hrest, Directive.size]
    | char c => rw [written, List.length_cons, ih hfills, Directive.size, Nat.add_comm]
    | space => rw [written, List.length_cons, ih hfills, Directive.size, Nat.add_comm]

theorem Reads.written (h : Reads format xs s) (hexact : List.Forall₂ Directive.Exact format xs) :
    ∃ ds rest, List.Forall₂ Fills (widths format) ds ∧ s = Scanf.written format ds ++ rest ∧
      xs.flatMap Piece.values = ds.map numberOf := by
  induction h with
  | nil s => exact ⟨[], s, .nil, rfl, rfl⟩
  | cons htakes _ ih =>
    cases hexact with
    | cons hfirst hrest =>
      obtain ⟨ds, rest, hfills, rfl, hvalues⟩ := ih hrest
      cases hfirst with
      | char c => exact ⟨ds, rest, hfills, rfl, hvalues⟩
      | space => exact ⟨ds, rest, hfills, rfl, hvalues⟩
      | @number width digits h =>
        cases htakes with
        | number _ _ _ hdigits =>
          refine ⟨digits :: ds, rest, .cons ⟨h, hdigits⟩ hfills, ?_, ?_⟩
          · simp only [Piece.text, Scanf.written, List.nil_append, List.append_assoc]
          · rw [List.flatMap_cons, hvalues]
            rfl

theorem reads_written (h : Regular format) (hfills : List.Forall₂ Fills (widths format) ds) :
    ∃ xs, Reads format xs (written format ds) ∧ List.Forall₂ Directive.Exact format xs ∧
      xs.flatMap Piece.values = ds.map numberOf := by
  induction format generalizing ds with
  | nil =>
    cases hfills
    exact ⟨[], .nil _, .nil, rfl⟩
  | cons d format ih =>
    cases d with
    | number width =>
      obtain ⟨hpos, hregular⟩ := h
      cases hfills with
      | cons hd hrest =>
        rename_i digits ds
        obtain ⟨xs, hreads, hexact, hvalues⟩ := ih hregular hrest
        have hne : digits ≠ [] := List.length_pos_iff.mp (hd.length ▸ hpos)
        have hlength : ([] : Bytes).length + digits.length = width := by
          rw [List.length_nil, Nat.zero_add, hd.length]
        refine ⟨.number [] [] digits :: xs, ?_, .cons (.number hd.length) hexact, ?_⟩
        · exact .cons
            (.number (fun _ h => nomatch h) (.inl rfl) hne hd.digit hlength.le (.inl hlength))
              hreads
        · rw [List.flatMap_cons, hvalues]
          rfl
    | char c =>
      obtain ⟨xs, hreads, hexact, hvalues⟩ := ih h.2 hfills
      exact ⟨.char c :: xs, .cons .char hreads, .cons (.char c) hexact, hvalues⟩
    | space =>
      obtain ⟨xs, hreads, hexact, hvalues⟩ := ih h.2 hfills
      refine ⟨.space [32] :: xs, .cons (.space (fun c hc => List.mem_singleton.mp hc ▸ rfl) ?_)
        hreads, .cons .space hexact, hvalues⟩
      -- a number follows, and its first digit ends the white space
      match format, h, hfills with
      | [], h, _ => exact absurd h.1 (by decide)
      | .char c :: _, h, _ => exact nomatch h.1
      | .space :: _, h, _ => exact nomatch h.1
      | .number width :: format, h, .cons hd _ =>
        exact stopsAt_append (List.length_pos_iff.mp (hd.length ▸ h.2.1)) fun c hc =>
          not_isSpace (.inl (hd.digit c hc))

theorem mem_written (hfills : List.Forall₂ Fills (widths format) ds) {c : UInt8}
    (hc : c ∈ written format ds) :
    isDigit c = true ∨ .char c ∈ format ∨ c = 32 := by
  induction format generalizing ds with
  | nil => cases hc
  | cons d format ih =>
    cases d with
    | number width =>
      cases hfills with
      | cons hd hrest =>
        rcases List.mem_append.mp hc with hc | hc
        · exact .inl (hd.digit c hc)
        · exact (ih hrest hc).imp_right fun h => h.imp_left (List.mem_cons_of_mem _)
    | char c' =>
      rcases List.mem_cons.mp hc with rfl | hc
      · exact .inr (.inl List.mem_cons_self)
      · exact (ih hfills hc).imp_right fun h => h.imp_left (List.mem_cons_of_mem _)
    | space =>
      rcases List.mem_cons.mp hc with rfl | hc
      · exact .inr (.inr rfl)
      · exact (ih hfills hc).imp_right fun h => h.imp_left (List.mem_cons_of_mem _)

end Exact

end Nkit.Scanf
