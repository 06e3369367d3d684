import Nkit.Dynamic.DateTime
import Nkit.Dynamic.Integers

/-! Moving a date by days, hours, minutes or seconds (`AddDays`, `AddSeconds`). -/

namespace Nkit.DateTime
open Calendar

/-- The fields of `struct tm` that count. -/
structure Tm where
  year : ℤ
  mon : ℤ
  mday : ℤ
  hour : ℤ
  min : ℤ
  sec : ℤ

def Tm.instant (t : Tm) : ℤ :=
  let first : Date := ⟨1900 + t.year + t.mon / 12, (t.mon % 12).toNat + 1, 1⟩
  86400 * (first.dayNumber + (t.mday - 1)) + 3600 * t.hour + 60 * t.min + t.sec

def Tm.ofInstant (s : ℤ) : Tm :=
  let d := date (s / 86400)
  ⟨d.year - 1900, d.month - 1, d.day, s % 86400 / 3600, s % 3600 / 60, s % 60⟩

/-- `mktime`, which brings the fields into their ranges. -/
def mktime (t : Tm) : Tm := .ofInstant t.instant

/-- `Set` from a `struct tm`, which has no microseconds. -/
def setTm (t : Tm) : Option (BitVec 64) :=
  let conv := BitVec.ofInt 64
  set ⟨conv (t.year + 1900), conv (t.mon + 1), conv t.mday, conv t.hour, conv t.min, conv t.sec, 0⟩

/-- Adds to the fields of day and second.  The sums are unsigned ones and become `int` again. -/
def shift (v : BitVec 64) (days_count ss : BitVec 32) : BitVec 64 :=
  let timeinfo : Tm :=
    { year := (year v - 1900).toInt, mon := (month v - 1).toInt, mday := (day v + days_count).toInt,
      hour := (hours v).toInt, min := (minutes v).toInt, sec := (seconds v + ss).toInt }
  (setTm (mktime timeinfo)).getD 0

/-- `Impl<DATE_TIME>::AddDays`. -/
def addDays (v : BitVec 64) (days_count : BitVec 32) : BitVec 64 := shift v days_count 0

/-- `Impl<DATE_TIME>::AddSeconds`. -/
def addSeconds (v : BitVec 64) (ss : BitVec 32) : BitVec 64 := shift v 0 ss

/-- A product of two `int`. -/
def signedMul (n : BitVec 32) (k : ℤ) : Except Fault (BitVec 32) :=
  if -2 ^ 31 ≤ n.toInt * k ∧ n.toInt * k < 2 ^ 31 then .ok (BitVec.ofInt 32 (n.toInt * k))
    else .error .signed

/-- `Dynamic::AddHours`. -/
def addHours (v : BitVec 64) (hh : BitVec 32) : Except Fault (BitVec 64) := do
  return addSeconds v (← signedMul hh 3600)

/-- `Dynamic::AddMinutes`. -/
def addMinutes (v : BitVec 64) (mm : BitVec 32) : Except Fault (BitVec 64) := do
  return addSeconds v (← signedMul mm 60)

inductive Period where
  | days
  | hours
  | minutes
  | seconds
deriving DecidableEq

namespace Period

/-- Its length in seconds. -/
def length : Period → ℤ
  | days => 86400
  | hours => 3600
  | minutes => 60
  | seconds => 1

def add : Period → BitVec 64 → BitVec 32 → Except Fault (BitVec 64)
  | days, v, n => .ok (addDays v n)
  | hours, v, n => addHours v n
  | minutes, v, n => addMinutes v n
  | seconds, v, n => .ok (addSeconds v n)

end Period

/-- A word that `Set` makes. -/
def Packed (v : BitVec 64) : Prop := ∃ a, set a = some v

def instant (v : BitVec 64) : ℤ :=
  86400 * (⟨(year v).toNat, (month v).toNat, (day v).toNat⟩ : Date).dayNumber + 3600 *
    (hours v).toNat +
    60 * (minutes v).toNat + (seconds v).toNat

section Words
variable {v w : BitVec 64}

structure Ranges (v : BitVec 64) : Prop where
  year : (year v).toNat ≤ 65535
  date : (⟨(DateTime.year v).toNat, (month v).toNat, (day v).toNat⟩ : Date).Valid
  hours : (hours v).toNat ≤ 23
  minutes : (minutes v).toNat ≤ 59
  seconds : (seconds v).toNat ≤ 59

theorem Packed.ranges (h : Packed v) : Ranges v := by
  obtain ⟨a, ha⟩ := h
  have hparts := parts_set ha
  simp only [parts, Args.parts, List.cons.injEq] at hparts
  obtain ⟨hy, hm, hd, hh, hmm, hss, -⟩ := hparts
  obtain ⟨hyear, hmonth, hday, hhour, hmin, hsec, -⟩ := (set_some ha).1
  refine ⟨hy ▸ hyear, ⟨?_, ?_⟩, hh ▸ hhour, hmm ▸ hmin, hss ▸ hsec⟩
  · rw [hm]
    exact hmonth
  · simp only [hy, hm, hd]
    exact hday

theorem Packed.ext_parts (hv : Packed v) (hw : Packed w) (h : parts v = parts w) : v = w := by
  obtain ⟨a, ha⟩ := hv
  obtain ⟨b, hb⟩ := hw
  rw [parts_set ha, parts_set hb] at h
  simp only [Args.parts, List.cons.injEq, BitVec.toNat_inj, and_true] at h
  obtain ⟨hy, hm, hd, hh, hmm, hss, hus⟩ := h
  have hargs : a = b := by
    cases a
    cases b
    simp only at hy hm hd hh hmm hss hus
    simp only [hy, hm, hd, hh, hmm, hss, hus]
  rw [hargs] at ha
  exact Option.some.inj (ha.symm.trans hb)

theorem Packed.instant_split (h : Packed v) :
    (date (instant v / 86400) = ⟨(year v).toNat, (month v).toNat, (day v).toNat⟩) ∧
      instant v % 86400 = 3600 * (hours v).toNat + 60 * (minutes v).toNat + (seconds v).toNat := by
  obtain ⟨-, hdate, hh, hmm, hss⟩ := h.ranges
  have hday : instant v / 86400 =
      (⟨(year v).toNat, (month v).toNat, (day v).toNat⟩ : Date).dayNumber := by
    unfold instant
    omega
  refine ⟨by rw [hday, date_dayNumber hdate], ?_⟩
  unfold instant
  omega

theorem Packed.ext_instant (hv : Packed v) (hw : Packed w) (h : instant v = instant w)
    (hus : microseconds v = microseconds w) : v = w := by
  obtain ⟨hdate, htime⟩ := hv.instant_split
  obtain ⟨hdate', htime'⟩ := hw.instant_split
  have hr := hv.ranges
  have hr' := hw.ranges
  have hh := hr.hours
  have hh' := hr'.hours
  have hmm := hr.minutes
  have hmm' := hr'.minutes
  have hss := hr.seconds
  have hss' := hr'.seconds
  rw [h] at hdate htime
  have hsame := hdate.symm.trans hdate'
  rw [Date.mk.injEq] at hsame
  refine hv.ext_parts hw ?_
  simp only [parts, List.cons.injEq, hus, and_true]
  omega

theorem Packed.seconds_eq (h : Packed v) : ((seconds v).toNat : ℤ) = instant v % 60 := by
  have hss := h.ranges.seconds
  unfold instant
  omega

end Words

section Normal
variable {v : BitVec 64}

theorem dayNumber_bounds {d : Date} (hd : d.Valid) {n : ℤ} (hn : 0 ≤ n)
    (hyear : -n ≤ d.year ∧ d.year ≤ n) :
    -366 * n - 1000000 ≤ d.dayNumber ∧ d.dayNumber ≤ 366 * n + 1000000 := by
  have hmonth := hd.month
  have hday := hd.day.2.trans (monthLength_le _ _)
  unfold Date.dayNumber marchDays
  split_ifs <;> omega

theorem date_year_bounds {s n : ℤ} (hs : -n ≤ s ∧ s ≤ n) :
    -n - 4000 ≤ (date s).year ∧ (date s).year ≤ n + 4000 := by
  have hyear : (date s).year = 2000 + (marchYear (s - 11017)).1 ∨
      (date s).year = 2001 + (marchYear (s - 11017)).1 := by
    rw [date_eq, fromMarch]
    split
    · exact .inl rfl
    · exact .inr rfl
  simp only [marchYear] at hyear
  omega

theorem toNat_conv {x : ℤ} (h : 0 ≤ x ∧ x < 2 ^ 64) : ((BitVec.ofInt 64 x).toNat : ℤ) = x := by
  rw [BitVec.toNat_ofInt]
  omega

/-- `Set` takes the date of a second when its year fits. -/
theorem setTm_ofInstant {s : ℤ}
    (hyear : 0 ≤ (date (s / 86400)).year ∧ (date (s / 86400)).year ≤ 65535) :
    ∃ w, setTm (.ofInstant s) = some w ∧ Packed w ∧ instant w = s ∧ microseconds w = 0 := by
  have hdate := dayNumber_date (s / 86400)
  obtain ⟨⟨hm, hm'⟩, hd, hd'⟩ := date_valid (s / 86400)
  have hday : (date (s / 86400)).day < 100 := (date_bounds _).2
  obtain ⟨⟨y, m, d⟩, hdef⟩ : ∃ found, date (s / 86400) = found := ⟨_, rfl⟩
  rw [hdef] at hdate hm hm' hd hd' hday hyear
  simp only at hm hm' hd hd' hday hyear
  have hy : ((BitVec.ofInt 64 (y - 1900 + 1900)).toNat : ℤ) = y := by
    rw [toNat_conv (by omega)]
    omega
  have hmon : (BitVec.ofInt 64 ((m : ℤ) - 1 + 1)).toNat = m := by
    have := toNat_conv (x := (m : ℤ) - 1 + 1) (by omega)
    omega
  have hmday : (BitVec.ofInt 64 (d : ℤ)).toNat = d := by
    have := toNat_conv (x := (d : ℤ)) (by omega)
    omega
  have hhour : ((BitVec.ofInt 64 (s % 86400 / 3600)).toNat : ℤ) = s % 86400 / 3600 :=
    toNat_conv (by omega)
  have hmin : ((BitVec.ofInt 64 (s % 3600 / 60)).toNat : ℤ) = s % 3600 / 60 := toNat_conv (by omega)
  have hsec : ((BitVec.ofInt 64 (s % 60)).toNat : ℤ) = s % 60 := toNat_conv (by omega)
  have htm : Tm.ofInstant s =
      ⟨y - 1900, (m : ℤ) - 1, d, s % 86400 / 3600, s % 3600 / 60, s % 60⟩ := by
    rw [Tm.ofInstant, hdef]
  rw [htm, setTm]
  simp only
  generalize hargs : Args.mk _ _ _ _ _ _ _ = a
  have hvalid : a.Valid := by
    subst hargs
    refine ⟨?_, ?_, ?_, ?_, ?_, ?_, Nat.zero_le _⟩ <;> simp only [hmon, hmday, hy]
    all_goals first
      | exact ⟨hm, hm'⟩
      | exact ⟨hd, hd'⟩
      | omega
  obtain ⟨w, hw, -⟩ := set_eq hvalid
  have hparts := parts_set hw
  subst hargs
  simp only [parts, Args.parts, List.cons.injEq, hmon, hmday] at hparts
  obtain ⟨hy', hm', hd', hh', hmm', hss', hus', -⟩ := hparts
  refine ⟨w, hw, ⟨_, hw⟩, ?_, BitVec.eq_of_toNat_eq hus'⟩
  rw [instant, hy', hm', hd', hh', hmm', hss', hhour, hmin, hsec, hy, hdate]
  omega

/-- A `Set` that succeeds has kept the second. -/
theorem setTm_some {s : ℤ} (hs : -2 ^ 60 ≤ s ∧ s ≤ 2 ^ 60) (h : setTm (.ofInstant s) = some v) :
    instant v = s := by
  have hyear := date_year_bounds (s := s / 86400) (n := 2 ^ 60) (by omega)
  by_cases hfits : 0 ≤ (date (s / 86400)).year ∧ (date (s / 86400)).year ≤ 65535
  · obtain ⟨w, hw, -, hinstant, -⟩ := setTm_ofInstant hfits
    rw [h] at hw
    cases hw
    exact hinstant
  · have hvalid := (set_some h).1.year
    have hconv : (BitVec.ofInt 64 ((date (s / 86400)).year - 1900 + 1900)).toNat ≤ 65535 := hvalid
    rw [BitVec.toNat_ofInt] at hconv
    omega

end Normal

section Shift
variable {v w : BitVec 64}

theorem not_packed_zero : ¬Packed 0 := by
  intro h
  have hmonth : 1 ≤ (month 0).toNat := h.ranges.date.month.1
  exact absurd hmonth (by decide)

theorem toInt_sub_small {x : BitVec 32} (hx : x.toNat < 2 ^ 31) {k : ℕ} (hk : k < 2 ^ 31) :
    (x - BitVec.ofNat 32 k).toInt = x.toNat - k := by
  have hk' : (BitVec.ofNat 32 k).toNat = k := by
    rw [BitVec.toNat_ofNat, Nat.mod_eq_of_lt]
    omega
  rw [BitVec.toInt_sub, BitVec.toInt_eq_toNat_of_lt (by omega),
    BitVec.toInt_eq_toNat_of_lt (by omega), hk', Int.bmod_eq_of_le (by omega) (by omega)]

theorem dayNumber_day (y : ℤ) (m d : ℕ) :
    (⟨y, m, d⟩ : Date).dayNumber = (⟨y, m, 1⟩ : Date).dayNumber + (d - 1) := by
  unfold Date.dayNumber
  simp only
  split_ifs <;> omega

/-- The second that `timeinfo` denotes, with the sums of its two fields as they wrap around. -/
theorem shift_eq (hv : Packed v) (days_count ss : BitVec 32) :
    shift v days_count ss =
      (setTm (.ofInstant (instant v + 86400 * ((day v + days_count).toInt - (day v).toNat) +
      ((seconds v + ss).toInt - (seconds v).toNat)))).getD 0 := by
  obtain ⟨hy, ⟨⟨hm, hm'⟩, hd, hd'⟩, hh, hmm, hss⟩ := hv.ranges
  simp only at hm hm' hd hd'
  have hyear : (year v - 1900).toInt = (year v).toNat - 1900 :=
    toInt_sub_small (by omega) (by decide)
  have hmonth : (month v - 1).toInt = (month v).toNat - 1 := toInt_sub_small (by omega) (by decide)
  have hhours : (hours v).toInt = (hours v).toNat := BitVec.toInt_eq_toNat_of_lt (by omega)
  have hminutes : (minutes v).toInt = (minutes v).toNat := BitVec.toInt_eq_toNat_of_lt (by omega)
  have hfirst :
    (⟨1900 + ((year v).toNat - 1900) + ((month v).toNat - 1) / 12,
      (((month v).toNat - 1 : ℤ) % 12).toNat + 1, 1⟩ : Date) =
      ⟨(year v).toNat, (month v).toNat, 1⟩ := by
    rw [Date.mk.injEq]
    omega
  rw [shift, mktime, Tm.instant]
  simp only [hyear, hmonth, hhours, hminutes, hfirst]
  congr 3
  rw [instant, dayNumber_day _ _ (day v).toNat]
  omega

theorem toInt_add_small {x n : BitVec 32} (hx : x.toNat < 2 ^ 31) (h : x.toNat + n.toInt < 2 ^ 31) :
    (x + n).toInt = x.toNat + n.toInt := by
  have hn := BitVec.le_toInt n
  rw [BitVec.toInt_add, BitVec.toInt_eq_toNat_of_lt (by omega),
    Int.bmod_eq_of_le (by omega) (by omega)]

theorem toInt_add_wrap {x n : BitVec 32} (hx : x.toNat < 2 ^ 31)
    (h : ¬(x.toNat + n.toInt < 2 ^ 31)) :
    (x + n).toInt = x.toNat + n.toInt - 2 ^ 32 := by
  have hn := BitVec.toInt_lt (x := n)
  rw [BitVec.toInt_add, BitVec.toInt_eq_toNat_of_lt (by omega), Int.bmod_def]
  omega

theorem Packed.day_bounds (h : Packed v) :
    -26000000 ≤ instant v / 86400 ∧ instant v / 86400 ≤ 26000000 := by
  have hdays :=
    dayNumber_bounds h.ranges.date (n := 65535) (by decide)
      ⟨by simp only; omega, by have := h.ranges.year; simp only; omega⟩
  rw [← h.instant_split.1, dayNumber_date] at hdays
  omega

/-- The second lies in a year that fits. -/
def YearFits (s : ℤ) : Prop := 0 ≤ (date (s / 86400)).year ∧ (date (s / 86400)).year ≤ 65535

theorem YearFits.bounds {s : ℤ} (h : YearFits s) :
    -26000000 ≤ s / 86400 ∧ s / 86400 ≤ 26000000 := by
  have hdays :=
    dayNumber_bounds (date_valid (s / 86400)) (n := 65535) (by decide) ⟨by have := h.1; omega, h.2⟩
  rw [dayNumber_date] at hdays
  omega

theorem Packed.yearFits (h : Packed v) : YearFits (instant v) := by
  have hyear := h.ranges.year
  rw [YearFits, h.instant_split.1]
  simp only
  omega

structure Lands (s : ℤ) (w : BitVec 64) : Prop where
  packed : Packed w
  instant : instant w = s
  microseconds : microseconds w = 0

theorem lands_getD {s : ℤ} (h : YearFits s) : Lands s ((setTm (.ofInstant s)).getD 0) := by
  obtain ⟨w, hw, hpacked, hinstant, hus⟩ := setTm_ofInstant h
  rw [hw]
  exact ⟨hpacked, hinstant, hus⟩

theorem lands_addDays (hv : Packed v) {n : BitVec 32} (h : YearFits (instant v + n.toInt * 86400)) :
    Lands (instant v + n.toInt * 86400) (addDays v n) := by
  have hbefore := hv.day_bounds
  have hafter := h.bounds
  have hday : (day v).toNat ≤ 31 := hv.ranges.date.day.2.trans (monthLength_le _ _)
  rw [addDays, shift_eq hv, toInt_add_small (by omega) (by omega), BitVec.ofNat_eq_ofNat,
    BitVec.add_zero,
    BitVec.toInt_eq_toNat_of_lt (x := seconds v) (by have := hv.ranges.seconds; omega)]
  have hsum : instant v + 86400 * ((day v).toNat + n.toInt - (day v).toNat) +
    ((seconds v).toNat - (seconds v).toNat) =
      instant v + n.toInt * 86400 := by omega
  rw [hsum]
  exact lands_getD h

theorem addSeconds_eq (hv : Packed v) (ss : BitVec 32) :
    addSeconds v ss =
      (setTm (.ofInstant (instant v + ((seconds v + ss).toInt - (seconds v).toNat)))).getD 0 := by
  have hday : (day v).toNat ≤ 31 := hv.ranges.date.day.2.trans (monthLength_le _ _)
  rw [addSeconds, shift_eq hv, BitVec.ofNat_eq_ofNat, BitVec.add_zero,
    BitVec.toInt_eq_toNat_of_lt (x := day v) (by omega), Int.sub_self, Int.mul_zero, Int.add_zero]

theorem lands_addSeconds (hv : Packed v) (ss : BitVec 32)
    (hsum : (seconds v).toNat + ss.toInt < 2 ^ 31) (h : YearFits (instant v + ss.toInt)) :
    Lands (instant v + ss.toInt) (addSeconds v ss) := by
  have hsec := hv.ranges.seconds
  rw [addSeconds_eq hv, toInt_add_small (by omega) hsum]
  have hss : instant v + ((seconds v).toNat + ss.toInt - (seconds v).toNat) =
    instant v + ss.toInt := by omega
  rw [hss]
  exact lands_getD h

theorem addSeconds_wraps (hv : Packed v) {ss : BitVec 32}
    (hsum : ¬((seconds v).toNat + ss.toInt < 2 ^ 31)) (hw : Packed (addSeconds v ss)) :
    instant (addSeconds v ss) ≠ instant v + ss.toInt := by
  have hbefore := hv.day_bounds
  have hss := BitVec.toInt_lt (x := ss)
  have hsec := hv.ranges.seconds
  rw [addSeconds_eq hv, toInt_add_wrap (by omega) hsum] at hw ⊢
  cases hset : setTm
      (.ofInstant (instant v + ((seconds v).toNat + ss.toInt - 2 ^ 32 - (seconds v).toNat))) with
  | none =>
    rw [hset] at hw
    exact absurd hw not_packed_zero
  | some w =>
    have hinstant := setTm_some (by omega) hset
    simp only [Option.getD_some]
    omega

end Shift

namespace Period
variable {p : Period} {v w : BitVec 64}

/-- The fields hold a shift by `n` from a date-time whose seconds are `s`: `int` holds the shift in
seconds and its sum with `s`.  Days are added to the day itself. -/
def Held (p : Period) (s n : ℤ) : Prop :=
  p = days ∨ (-2 ^ 31 ≤ n * p.length ∧ s + n * p.length < 2 ^ 31)

theorem signedMul_seconds (v : BitVec 64) (n : BitVec 32) (k : ℤ) :
    (do return addSeconds v (← signedMul n k)) =
      if -2 ^ 31 ≤ n.toInt * k ∧ n.toInt * k < 2 ^ 31 then
        .ok (addSeconds v (BitVec.ofInt 32 (n.toInt * k)))
      else .error .signed := by
  unfold signedMul
  by_cases h : -2 ^ 31 ≤ n.toInt * k ∧ n.toInt * k < 2 ^ 31
  · rw [if_pos h, if_pos h]
    rfl
  · rw [if_neg h, if_neg h]
    rfl

theorem add_eq_seconds (hp : p ≠ days) (n : BitVec 32) :
    p.add v n = if -2 ^ 31 ≤ n.toInt * p.length ∧ n.toInt * p.length < 2 ^ 31 then
      .ok (addSeconds v (BitVec.ofInt 32 (n.toInt * p.length))) else .error .signed := by
  cases p with
  | days => exact absurd rfl hp
  | hours => exact signedMul_seconds v n 3600
  | minutes => exact signedMul_seconds v n 60
  | seconds =>
    have hlow := BitVec.le_toInt n
    have hhigh := BitVec.toInt_lt (x := n)
    simp only [add, length, Int.mul_one]
    rw [if_pos (by omega), BitVec.ofInt_toInt]

theorem toInt_product {x : ℤ} (h : -2 ^ 31 ≤ x ∧ x < 2 ^ 31) : (BitVec.ofInt 32 x).toInt = x := by
  rw [BitVec.toInt_ofInt, Int.bmod_eq_of_le (by omega) (by omega)]

theorem add_held (hv : Packed v) {n : BitVec 32} (hheld : p.Held (DateTime.seconds v).toNat n.toInt)
    (hyear : YearFits (instant v + n.toInt * p.length)) :
    ∃ w, p.add v n = .ok w ∧ Lands (instant v + n.toInt * p.length) w := by
  by_cases hp : p = days
  · subst hp
    exact ⟨_, rfl, lands_addDays hv hyear⟩
  · obtain ⟨hlow, hsum⟩ := hheld.resolve_left hp
    have hrange : -2 ^ 31 ≤ n.toInt * p.length ∧ n.toInt * p.length < 2 ^ 31 := by omega
    have hint := toInt_product hrange
    have hlands :=
      lands_addSeconds hv (BitVec.ofInt 32 (n.toInt * p.length)) (by rw [hint]; exact hsum)
      (by rw [hint]; exact hyear)
    rw [hint] at hlands
    exact ⟨_, by rw [add_eq_seconds hp, if_pos hrange], hlands⟩

theorem held_of_add (hv : Packed v) (hw : Packed w) {n : BitVec 32} (h : p.add v n = .ok w)
    (hinstant : instant w = instant v + n.toInt * p.length) :
    p.Held (DateTime.seconds v).toNat n.toInt := by
  by_cases hp : p = days
  · exact .inl hp
  refine .inr ?_
  rw [add_eq_seconds hp] at h
  split_ifs at h with hrange
  refine ⟨hrange.1, ?_⟩
  -- a sum that wraps around leaves another instant
  by_contra hsum
  rw [Except.ok.injEq] at h
  subst h
  have hint := toInt_product hrange
  exact addSeconds_wraps hv (by rw [hint]; exact hsum) hw (by rw [hint]; exact hinstant)

/-- `w` is the date-time of `v` moved by `n` periods. -/
structure Moves (p : Period) (n : ℤ) (v w : BitVec 64) : Prop where
  packed : Packed w
  instant : instant w = DateTime.instant v + n * p.length
  microseconds : microseconds w = DateTime.microseconds v

/-- The shift moves the date-time, and the opposite one moves it back. -/
structure Exact (p : Period) (v : BitVec 64) (n : BitVec 32) : Prop where
  moves : ∃ w, p.add v n = .ok w ∧ p.Moves n.toInt v w
  restores : ∀ m : BitVec 32, m.toInt = -n.toInt → (p.add v n >>= fun w => p.add w m) = .ok v

/-- There are no microseconds, and the fields hold the shift and the one back, where `int` has its
number. -/
structure Kept (p : Period) (v : BitVec 64) (n : ℤ) : Prop where
  microseconds : microseconds v = 0
  there : p.Held (DateTime.seconds v).toNat n
  back : n = -2 ^ 31 ∨ p.Held (((DateTime.seconds v).toNat + n * p.length) % 60) (-n)

theorem seconds_moved (hv : Packed v) (hw : Packed w) {x : ℤ} (h : instant w = instant v + x) :
    ((DateTime.seconds w).toNat : ℤ) = ((DateTime.seconds v).toNat + x) % 60 := by
  rw [hw.seconds_eq, h, hv.seconds_eq]
  omega

/-- A shift is exact when there are no microseconds to lose and every sum fits into its field. -/
theorem shift_exact_iff (p : Period) (hv : Packed v) (n : BitVec 32)
    (hyear : YearFits (instant v + n.toInt * p.length)) :
    p.Exact v n ↔ p.Kept v n.toInt := by
  constructor
  · rintro ⟨⟨w, hadd, hw⟩, hback⟩
    have hheld := held_of_add hv hw.packed hadd hw.instant
    obtain ⟨w', hadd', hlands⟩ := add_held hv hheld hyear
    obtain rfl : w = w' := Except.ok.inj (hadd.symm.trans hadd')
    refine ⟨hw.microseconds.symm.trans hlands.microseconds, hheld, ?_⟩
    -- the least number has no opposite to shift back by
    by_cases hleast : n.toInt = -2 ^ 31
    · exact .inl hleast
    · refine .inr ?_
      have hneg : (-n).toInt = -n.toInt := by
        have hlow := BitVec.le_toInt n
        have hhigh := BitVec.toInt_lt (x := n)
        rw [BitVec.toInt_neg, Int.bmod_eq_of_le (by omega) (by omega)]
      have hrestored := hback (-n) hneg
      rw [hadd] at hrestored
      have hheld' :=
        held_of_add hw.packed hv hrestored (by rw [hneg, hw.instant, Int.neg_mul]; omega)
      rwa [hneg, seconds_moved hv hw.packed hw.instant] at hheld'
  · rintro ⟨hus, hheld, hback⟩
    obtain ⟨w, hadd, hlands⟩ := add_held hv hheld hyear
    refine ⟨⟨w, hadd, hlands.packed, hlands.instant, hlands.microseconds.trans hus.symm⟩,
      fun m hm => ?_⟩
    have hmlow := BitVec.le_toInt m
    have hmhigh := BitVec.toInt_lt (x := m)
    have hreturn : instant w + m.toInt * p.length = instant v := by
      rw [hm, hlands.instant, Int.neg_mul]
      omega
    have hheld' : p.Held (DateTime.seconds w).toNat m.toInt := by
      rw [hm, seconds_moved hv hlands.packed hlands.instant]
      exact hback.resolve_left (by omega)
    obtain ⟨w', hadd', hlands'⟩ := add_held hlands.packed hheld' (hreturn ▸ hv.yearFits)
    rw [hadd]
    show p.add w m = _
    rw [hadd',
      hlands'.packed.ext_instant hv (hlands'.instant.trans hreturn)
      (hlands'.microseconds.trans hus.symm)]

theorem shift_exact_leap_day :
    ∃ v, set ⟨2024, 2, 28, 12, 0, 0, 0⟩ = some v ∧ YearFits (DateTime.instant v + 86400) ∧
      days.Exact v 1 := by
  refine ⟨_, rfl, ⟨by decide, by decide⟩, ?_⟩
  exact (shift_exact_iff days ⟨⟨2024, 2, 28, 12, 0, 0, 0⟩, rfl⟩ 1 ⟨by decide, by decide⟩).mpr
    ⟨by decide, .inl rfl, .inr (.inl rfl)⟩

/-- `struct tm` has no microseconds. -/
theorem microseconds_lost :
    ∃ v, set ⟨2024, 2, 28, 12, 0, 0, 500⟩ = some v ∧ YearFits (DateTime.instant v + 86400) ∧
      ¬days.Exact v 1 := by
  refine ⟨_, rfl, ⟨by decide, by decide⟩, fun h => ?_⟩
  obtain ⟨w, hadd, hw⟩ := h.moves
  cases hadd
  exact absurd hw.microseconds (by decide)

end Period

end Nkit.DateTime
