import Nkit.Dynamic.DateTime
import Nkit.Dynamic.Memory
import Nkit.Dynamic.Scanf

/-! Dates read from texts (`DateTimeFromDefault`, `DateTimeFromISO8601`). -/

namespace Nkit.DateTime
open Scanf

def wrongValues : Bytes := ascii "Wrong date-time value: "

/-- `Dynamic(year, mon, dd, hh, mm, ss, microsec)`. -/
def create (a : Args) : Dyn :=
  match set a with
  | none => .undef
  | some d => .plain .dateTime d

/-- `operator bool` of what `create` makes. -/
def toBool : Dyn → Bool
  | .plain .dateTime d => d ≠ 0
  | _ => false

def argsOf : List (BitVec 32) → Option Args
  | [year, mon, dd, hh, mm, ss] =>
    some ⟨year.setWidth 64, mon.setWidth 64, dd.setWidth 64, hh.setWidth 64, mm.setWidth 64,
      ss.setWidth 64, 0⟩
  | _ => none

/-- `make_date_time_from_string`: its result, `*out` and `*error`. -/
def makeDateTimeFromString (str sample : Bytes) (format : List Directive) (out : Dyn)
    (error : Bytes) : Bool × Dyn × Bytes :=
  if str.length ≠ sample.length then (false, out, wrongValues ++ str)
  else
    match argsOf (sscanf format (Tools.cStr str)) with
    | none => (false, out, wrongValues ++ str)
    | some a =>
      if toBool (create a) then (true, create a, error) else (false, create a, wrongValues ++ str)

/-- `%4u-%02u-%02u %02u:%02u:%02u`. -/
def defaultFormat : List Directive :=
  [.number 4, .char 45, .number 2, .char 45, .number 2, .space, .number 2, .char 58, .number 2,
    .char 58, .number 2]

def defaultExample : Bytes := ascii "1998-07-17 14:08:55"

/-- `DateTimeFromDefault`: the result and `*error`. -/
def dateTimeFromDefault (str error : Bytes) : Dyn × Bytes :=
  (makeDateTimeFromString str defaultExample defaultFormat .undef error).2

/-- `%4u-%02u-%02uT%02u:%02u:%02u`. -/
def format1 : List Directive :=
  [.number 4, .char 45, .number 2, .char 45, .number 2, .char 84, .number 2, .char 58, .number 2,
    .char 58, .number 2]

def example1 : Bytes := ascii "1998-07-17T14:08:55"

/-- `%4u%02u%02uT%02u%02u%02u`. -/
def format2 : List Directive :=
  [.number 4, .number 2, .number 2, .char 84, .number 2, .number 2, .number 2]

def example2 : Bytes := ascii "19980717T140855"

/-- `str[pos]`, where the terminating NUL can be read too. -/
def subscript (str : Bytes) (pos : ℕ) : Option UInt8 :=
  if pos ≤ str.length then some (str.getD pos 0) else none

/-- `DateTimeFromISO8601`; `none` where `str[4]` lies outside the string. -/
def dateTimeFromISO8601 (str error : Bytes) : Option (Dyn × Bytes) := do
  let c ← subscript str 4
  if c = 45 then return (makeDateTimeFromString str example1 format1 .undef error).2
  else return (makeDateTimeFromString str example2 format2 .undef error).2

structure Numerals where
  year : Bytes
  month : Bytes
  day : Bytes
  hh : Bytes
  mm : Bytes
  ss : Bytes
  fills : List.Forall₂ Fills [4, 2, 2, 2, 2, 2] [year, month, day, hh, mm, ss]

namespace Numerals
variable (n : Numerals)

def all : List Bytes := [n.year, n.month, n.day, n.hh, n.mm, n.ss]

/-- `YYYY-MM-DD hh:mm:ss`. -/
def default : Bytes :=
  n.year ++ ascii "-" ++ n.month ++ ascii "-" ++ n.day ++ ascii " " ++ n.hh ++ ascii ":" ++ n.mm ++
    ascii ":" ++ n.ss

/-- `YYYY-MM-DDThh:mm:ss`. -/
def extended : Bytes :=
  n.year ++ ascii "-" ++ n.month ++ ascii "-" ++ n.day ++ ascii "T" ++ n.hh ++ ascii ":" ++ n.mm ++
    ascii ":" ++ n.ss

/-- `YYYYMMDDThhmmss`. -/
def basic : Bytes := n.year ++ n.month ++ n.day ++ ascii "T" ++ n.hh ++ n.mm ++ n.ss

def args : Args :=
  let number := fun digits => BitVec.ofNat 64 (digitsValue digits)
  ⟨number n.year, number n.month, number n.day, number n.hh, number n.mm, number n.ss, 0⟩

end Numerals

/-- The text is accepted when it is one of a valid date-time, as what it denotes; otherwise there is
an error. -/
structure Faithful (IsText : Numerals → Prop) (result : Dyn × Bytes) : Prop where
  accepts : ∀ n, IsText n → n.args.Valid → ∃ v, result.1 = .plain .dateTime v ∧
    parts v = n.args.parts
  rejects : (∀ n, IsText n → ¬n.args.Valid) → result.1 = .undef ∧ result.2 ≠ []

/-- A text of the right length that begins with the pieces of a valid date-time, up to its first
NUL, where a number has white space before it, a sign or too few digits, or where the white space is
not a single blank. -/
structure LooselyReads (format : List Directive) (sample str : Bytes) (xs : List Piece) : Prop where
  size : str.length = sample.length
  reads : Scanf.Reads format xs (Tools.cStr str)
  valid : ∃ a, argsOf (xs.flatMap Piece.values) = some a ∧ a.Valid
  inexact : ¬List.Forall₂ Directive.Exact format xs

section Reading
variable {format : List Directive} {sample str : Bytes} {xs : List Piece} {a : Args} {error : Bytes}

theorem argsOf_length {values : List (BitVec 32)} (h : argsOf values = some a) :
    values.length = 6 := by
  unfold argsOf at h
  split at h
  · rfl
  · cases h

theorem create_valid (h : a.Valid) :
    ∃ v, create a = .plain .dateTime v ∧ toBool (create a) = true ∧ parts v = a.parts := by
  obtain ⟨v, hv, hnum⟩ := set_eq h
  have hcreate : create a = .plain .dateTime v := by rw [create, hv]
  refine ⟨v, hcreate, ?_, parts_set hv⟩
  rw [hcreate, toBool, decide_eq_true_eq]
  rintro rfl
  have hmonth := h.month.1
  rw [Args.packed] at hnum
  have hzero : (0 : BitVec 64).toNat = 0 := rfl
  omega

theorem create_invalid (h : ¬a.Valid) : create a = .undef := by rw [create, set_eq_none h]

def Accepted (format : List Directive) (sample str : Bytes) (xs : List Piece) (a : Args) : Prop :=
  str.length = sample.length ∧ Scanf.Reads format xs (Tools.cStr str) ∧
    argsOf (xs.flatMap Piece.values) = some a ∧ a.Valid

theorem make_accepted (error : Bytes) (h : Accepted format sample str xs a) :
    ∃ v, makeDateTimeFromString str sample format .undef error = (true, .plain .dateTime v, error) ∧
      parts v = a.parts := by
  obtain ⟨hsize, hreads, hargs, hvalid⟩ := h
  obtain ⟨v, hcreate, htrue, hparts⟩ := create_valid hvalid
  refine ⟨v, ?_, hparts⟩
  rw [makeDateTimeFromString, if_neg (not_not.mpr hsize), hreads.sscanf, hargs]
  simp only
  rw [if_pos htrue, hcreate]

theorem make_rejected (hregular : Regular format) (hstored : stored format = 6)
    (h : ∀ xs a, ¬Accepted format sample str xs a) :
    makeDateTimeFromString str sample format .undef error =
      (false, .undef, wrongValues ++ str) := by
  unfold makeDateTimeFromString
  by_cases hsize : str.length = sample.length
  · rw [if_neg (not_not.mpr hsize)]
    cases hargs : argsOf (sscanf format (Tools.cStr str)) with
    | none => rfl
    | some a =>
      obtain ⟨xs, hxs⟩ := reads_of_sscanf hregular (hstored ▸ argsOf_length hargs)
      rw [hxs.sscanf] at hargs
      have hinvalid : ¬a.Valid := fun hvalid => h xs a ⟨hsize, hxs, hargs, hvalid⟩
      simp only [create_invalid hinvalid]
      rfl
  · rw [if_pos hsize]

end Reading

structure Describes (format : List Directive) (sample : Bytes) (text : Numerals → Bytes) :
    Prop where
  regular : Regular format
  stored : stored format = 6
  widths : widths format = [4, 2, 2, 2, 2, 2]
  text : ∀ n, written format n.all = text n
  size : (format.map Directive.size).sum = sample.length
  noNul : .char 0 ∉ format

theorem describes_default : Describes defaultFormat defaultExample Numerals.default where
  regular := by simp [defaultFormat, Regular, stored]
  stored := rfl
  widths := rfl
  text n := by
    simp only [defaultFormat, Numerals.all, written, Numerals.default, List.append_assoc,
      List.append_nil]
    rfl
  size := rfl
  noNul := by simp [defaultFormat]

theorem describes_extended : Describes format1 example1 Numerals.extended where
  regular := by simp [format1, Regular]
  stored := rfl
  widths := rfl
  text n := by
    simp only [format1, Numerals.all, written, Numerals.extended, List.append_assoc,
      List.append_nil]
    rfl
  size := rfl
  noNul := by simp [format1]

theorem describes_basic : Describes format2 example2 Numerals.basic where
  regular := by simp [format2, Regular]
  stored := rfl
  widths := rfl
  text n := by
    simp only [format2, Numerals.all, written, Numerals.basic, List.append_assoc, List.append_nil]
    rfl
  size := rfl
  noNul := by simp [format2]

theorem Numerals.exists_of_fills {ds : List Bytes} (h : List.Forall₂ Fills [4, 2, 2, 2, 2, 2] ds) :
    ∃ n : Numerals, n.all = ds := by
  match ds, h with
  | [year, month, day, hh, mm, ss], h => exact ⟨⟨year, month, day, hh, mm, ss, h⟩, rfl⟩

theorem setWidth_numberOf {width : ℕ} {digits : Bytes} (h : Fills width digits)
    (hwidth : width ≤ 4) :
    (numberOf digits).setWidth 64 = BitVec.ofNat 64 (digitsValue digits) := by
  have hlt : digitsValue digits < 10 ^ 4 :=
    (digitsValue_lt h.digit).trans_le (Nat.pow_le_pow_right (by decide) (h.length ▸ hwidth))
  refine BitVec.eq_of_toNat_eq ?_
  rw [numberOf, BitVec.toNat_setWidth, BitVec.toNat_ofNat, BitVec.toNat_ofNat]
  omega

theorem Numerals.argsOf_all (n : Numerals) : argsOf (n.all.map numberOf) = some n.args := by
  obtain ⟨year, month, day, hh, mm, ss, h⟩ := n
  simp only [List.forall₂_cons, List.forall₂_nil_left_iff, and_true] at h
  obtain ⟨hy, hm, hd, hh', hmm, hss⟩ := h
  simp only [Numerals.all, List.map_cons, List.map_nil, argsOf, Numerals.args,
    setWidth_numberOf hy (by decide), setWidth_numberOf hm (by decide),
    setWidth_numberOf hd (by decide), setWidth_numberOf hh' (by decide),
    setWidth_numberOf hmm (by decide), setWidth_numberOf hss (by decide)]

section Describes
variable {format : List Directive} {sample : Bytes} {text : Numerals → Bytes}
  (h : Describes format sample text)
include h

theorem Describes.fills (n : Numerals) :
    List.Forall₂ Fills (Scanf.widths format) n.all := h.widths ▸ n.fills

theorem Describes.cStr (n : Numerals) : Tools.cStr (text n) = text n := by
  rw [Tools.cStr, List.takeWhile_eq_self_iff]
  intro c hc
  rw [decide_eq_true_eq]
  rintro rfl
  rw [← h.text] at hc
  rcases mem_written (h.fills n) hc with hdigit | hchar | hblank
  · cases hdigit
  · exact h.noNul hchar
  · cases hblank

theorem Describes.reads (n : Numerals) :
    ∃ xs, Scanf.Reads format xs (Tools.cStr (text n)) ∧ List.Forall₂ Directive.Exact format xs ∧
      argsOf (xs.flatMap Piece.values) = some n.args := by
  obtain ⟨xs, hreads, hexact, hvalues⟩ := reads_written h.regular (h.fills n)
  rw [h.text] at hreads
  exact ⟨xs, by rwa [h.cStr], hexact, by rw [hvalues, n.argsOf_all]⟩

theorem Describes.length (n : Numerals) : (text n).length = sample.length := by
  rw [← h.text, length_written (h.fills n), h.size]

theorem Describes.exact {str : Bytes} {xs : List Piece} (hsize : str.length = sample.length)
    (hreads : Scanf.Reads format xs (Tools.cStr str))
    (hexact : List.Forall₂ Directive.Exact format xs) :
    ∃ n, str = text n ∧ argsOf (xs.flatMap Piece.values) = some n.args := by
  obtain ⟨ds, rest, hfills, hstr, hvalues⟩ := hreads.written hexact
  obtain ⟨n, rfl⟩ := Numerals.exists_of_fills (h.widths ▸ hfills)
  rw [h.text] at hstr
  have hlength := h.length n
  have hcut : Tools.cStr str <+: str := List.takeWhile_prefix _
  have hle := hcut.length_le
  rw [hstr, List.length_append] at hle
  have hrest : rest = [] := List.length_eq_zero_iff.mp (by omega)
  rw [hrest, List.append_nil] at hstr
  refine ⟨n, ?_, by rw [hvalues, n.argsOf_all]⟩
  rw [← hstr]
  refine (hcut.eq_of_length ?_).symm
  rw [hstr, hlength, hsize]

theorem Describes.faithful_iff (str error : Bytes) :
    Faithful (fun n => str = text n) (makeDateTimeFromString str sample format .undef error).2 ↔
      ¬∃ xs, LooselyReads format sample str xs := by
  constructor
  · rintro hfaithful ⟨xs, hsize, hreads, ⟨a, hargs, hvalid⟩, hinexact⟩
    obtain ⟨v, hmake, -⟩ := make_accepted error ⟨hsize, hreads, hargs, hvalid⟩
    have hno : ∀ n, str = text n → ¬n.args.Valid := by
      rintro n rfl -
      obtain ⟨ys, hreads', hexact, -⟩ := h.reads n
      exact hinexact (hreads.unique hreads' ▸ hexact)
    have hundef := (hfaithful.rejects hno).1
    rw [hmake] at hundef
    cases hundef
  · intro hloose
    refine ⟨?_, fun hno => ?_⟩
    · rintro n rfl hvalid
      obtain ⟨xs, hreads, -, hargs⟩ := h.reads n
      obtain ⟨v, hmake, hparts⟩ := make_accepted error ⟨h.length n, hreads, hargs, hvalid⟩
      exact ⟨v, by rw [hmake], hparts⟩
    · have hrejected : ∀ xs a, ¬Accepted format sample str xs a := by
        rintro xs a ⟨hsize, hreads, hargs, hvalid⟩
        by_cases hexact : List.Forall₂ Directive.Exact format xs
        · obtain ⟨n, hstr, hargs'⟩ := h.exact hsize hreads hexact
          obtain rfl : a = n.args := Option.some.inj (hargs.symm.trans hargs')
          exact hno n hstr hvalid
        · exact hloose ⟨xs, hsize, hreads, ⟨a, hargs, hvalid⟩, hexact⟩
      rw [make_rejected h.regular h.stored hrejected]
      exact ⟨rfl, List.cons_ne_nil _ _⟩

end Describes

theorem extended_dash (n : Numerals) : n.extended.getD 4 0 = 45 := by
  have hyear : n.year.length = 4 := (List.forall₂_cons.mp n.fills).1.length
  simp only [Numerals.extended, List.append_assoc]
  rw [List.getD_append_right _ _ _ _ hyear.le, hyear]
  rfl

theorem basic_digit (n : Numerals) : n.basic.getD 4 0 ≠ 45 := by
  obtain ⟨hyear, hrest⟩ := List.forall₂_cons.mp n.fills
  obtain ⟨hmonth, -⟩ := List.forall₂_cons.mp hrest
  obtain ⟨c, month, hcons, hdigit⟩ := hmonth.cons
  simp only [Numerals.basic, List.append_assoc]
  rw [List.getD_append_right _ _ _ _ hyear.length.le, hyear.length, hcons]
  rintro rfl
  cases hdigit

theorem faithful_congr {P Q : Numerals → Prop} (h : ∀ n, P n ↔ Q n) {result : Dyn × Bytes} :
    Faithful P result ↔ Faithful Q result := by
  have hsame : P = Q := funext fun n => propext (h n)
  rw [hsame]

/-- Texts are read as they should be unless they are read loosely, or are too short to be looked
into. -/
theorem date_texts_iff (str error : Bytes) :
    (Faithful (fun n => str = n.default) (dateTimeFromDefault str error) ↔
      ¬∃ xs, LooselyReads defaultFormat defaultExample str xs) ∧
    ((∃ result, dateTimeFromISO8601 str error = some result ∧
        Faithful (fun n => str = n.extended ∨ str = n.basic) result) ↔
      4 ≤ str.length ∧ ¬∃ xs, if str.getD 4 0 = 45 then LooselyReads format1 example1 str xs
        else LooselyReads format2 example2 str xs) := by
  refine ⟨describes_default.faithful_iff str error, ?_⟩
  by_cases hsize : 4 ≤ str.length
  · rw [and_iff_right hsize]
    by_cases hdash : str.getD 4 0 = 45
    · have hrun : dateTimeFromISO8601 str error =
          some (makeDateTimeFromString str example1 format1 .undef error).2 := by
        rw [dateTimeFromISO8601, subscript, if_pos hsize, hdash]
        rfl
      have hform : ∀ n : Numerals, (str = n.extended ∨ str = n.basic) ↔ str = n.extended :=
        fun n => or_iff_left fun h => basic_digit n (h ▸ hdash)
      simp only [hrun, Option.some.injEq, exists_eq_left', if_pos hdash]
      rw [faithful_congr hform]
      exact describes_extended.faithful_iff str error
    · have hrun : dateTimeFromISO8601 str error =
          some (makeDateTimeFromString str example2 format2 .undef error).2 := by
        rw [dateTimeFromISO8601, subscript, if_pos hsize]
        exact if_neg hdash
      have hform : ∀ n : Numerals, (str = n.extended ∨ str = n.basic) ↔ str = n.basic :=
        fun n => or_iff_right fun h => hdash (h ▸ extended_dash n)
      simp only [hrun, Option.some.injEq, exists_eq_left', if_neg hdash]
      rw [faithful_congr hform]
      exact describes_basic.faithful_iff str error
  · have hrun : dateTimeFromISO8601 str error = none := by
      rw [dateTimeFromISO8601, subscript, if_neg hsize]
      rfl
    simp only [hrun, hsize, false_and, reduceCtorEq, exists_false]

/-- A year of three digits after a blank. -/
theorem blank_before_year :
    ¬Faithful (fun n => ascii " 998-07-17 14:08:55" = n.default)
      (dateTimeFromDefault (ascii " 998-07-17 14:08:55") []) := by
  intro h
  have hno : ∀ n : Numerals, ascii " 998-07-17 14:08:55" = n.default → ¬n.args.Valid := by
    intro n hn
    obtain ⟨c, year, hcons, hdigit⟩ := (List.forall₂_cons.mp n.fills).1.cons
    have hhead := congrArg (fun s => s.getD 0 0) hn
    simp only [Numerals.default, List.append_assoc] at hhead
    rw [hcons] at hhead
    have hblank : (32 : UInt8) = c := hhead
    rw [← hblank] at hdigit
    cases hdigit
  exact absurd (h.rejects hno).1 (by decide)

end Nkit.DateTime
