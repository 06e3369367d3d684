import Mathlib.Data.Int.Init
import Mathlib.Tactic.Common
import Mathlib.Tactic.IntervalCases

/-! The Gregorian calendar, before and after its introduction: dates, their day numbers, and the
date of a day. -/

namespace Calendar

@[ext]
structure Date where
  year : ℤ
  month : ℕ
  day : ℕ
  deriving DecidableEq

def IsLeap (year : ℤ) : Prop := year % 4 = 0 ∧ (year % 100 = 0 → year % 400 = 0)

instance (year : ℤ) : Decidable (IsLeap year) := inferInstanceAs (Decidable (_ ∧ (_ → _)))

def monthLength (year : ℤ) : ℕ → ℕ
  | 2 => if IsLeap year then 29 else 28
  | 4 | 6 | 9 | 11 => 30
  | _ => 31

/-- There is such a day. -/
structure Date.Valid (d : Date) : Prop where
  month : 1 ≤ d.month ∧ d.month ≤ 12
  day : 1 ≤ d.day ∧ d.day ≤ monthLength d.year d.month

def marchDays (year : ℤ) : ℤ := 365 * year + year / 4 - year / 100 + year / 400

def Date.dayNumber (d : Date) : ℤ :=
  if d.month < 3 then marchDays (d.year - 2001) + (153 * (d.month + 9) + 2) / 5 + d.day + 11016
  else marchDays (d.year - 2000) + (153 * (d.month - 3) + 2) / 5 + d.day + 11016

def marchYear (days : ℤ) : ℤ × ℤ :=
  let inCycle := days % 146097
  let centuries := min (inCycle / 36524) 3
  let inCentury := inCycle - centuries * 36524
  let fours := min (inCentury / 1461) 24
  let inFour := inCentury - fours * 1461
  let years := min (inFour / 365) 3
  (400 * (days / 146097) + 100 * centuries + 4 * fours + years, inFour - years * 365)

def date (days : ℤ) : Date :=
  let (year, inYear) := marchYear (days - 11017)
  let month := (5 * inYear + 2) / 153
  let day := inYear - (153 * month + 2) / 5 + 1
  if month < 10 then ⟨2000 + year, (month + 3).toNat, day.toNat⟩
  else ⟨2001 + year, (month - 9).toNat, day.toNat⟩

theorem marchYear_day (days : ℤ) : 0 ≤ (marchYear days).2 ∧ (marchYear days).2 ≤ 365 := by
  simp only [marchYear]
  omega

theorem date_bounds (days : ℤ) : (date days).month < 100 ∧ (date days).day < 100 := by
  have hday := marchYear_day (days - 11017)
  simp only [date]
  split <;> simp only <;> omega

theorem marchYear_cycles (days : ℤ) :
    ∃ q c f k : ℤ, (marchYear days).1 = 400 * q + 100 * c + 4 * f + k ∧ 0 ≤ c ∧ c ≤ 3 ∧ 0 ≤ f ∧
      f ≤ 24 ∧ 0 ≤ k ∧ k ≤ 3 ∧
      days = 146097 * q + 36524 * c + 1461 * f + 365 * k + (marchYear days).2 ∧
      ((marchYear days).2 = 365 → k = 3 ∧ (f = 24 → c = 3)) := by
  refine ⟨days / 146097, min (days % 146097 / 36524) 3, _, _, rfl, ?_⟩
  simp only [marchYear]
  omega

theorem marchDays_cycles {q c f k : ℤ} (hc : 0 ≤ c ∧ c ≤ 3) (hf : 0 ≤ f ∧ f ≤ 24)
    (hk : 0 ≤ k ∧ k ≤ 3) :
    marchDays (400 * q + 100 * c + 4 * f + k) = 146097 * q + 36524 * c + 1461 * f + 365 * k := by
  have h4 : (400 * q + 100 * c + 4 * f + k) / 4 = 100 * q + 25 * c + f := by omega
  have h100 : (400 * q + 100 * c + 4 * f + k) / 100 = 4 * q + c := by omega
  have h400 : (400 * q + 100 * c + 4 * f + k) / 400 = q := by omega
  rw [marchDays, h4, h100, h400]
  omega

theorem marchYear_spec (days : ℤ) :
    marchDays (marchYear days).1 + (marchYear days).2 = days ∧
      ((marchYear days).2 = 365 → IsLeap ((marchYear days).1 + 1)) := by
  obtain ⟨q, c, f, k, hyear, hc, hc', hf, hf', hk, hk', hdays, hlast⟩ := marchYear_cycles days
  rw [hyear, marchDays_cycles ⟨hc, hc'⟩ ⟨hf, hf'⟩ ⟨hk, hk'⟩]
  refine ⟨hdays.symm, fun h => ?_⟩
  obtain ⟨rfl, hcentury⟩ := hlast h
  unfold IsLeap
  omega

def fromMarch (year inYear : ℤ) : Date :=
  let month := (5 * inYear + 2) / 153
  let day := inYear - (153 * month + 2) / 5 + 1
  if month < 10 then ⟨2000 + year, (month + 3).toNat, day.toNat⟩
  else ⟨2001 + year, (month - 9).toNat, day.toNat⟩

theorem date_eq (days : ℤ) :
    date days = fromMarch (marchYear (days - 11017)).1 (marchYear (days - 11017)).2 := rfl

theorem dayNumber_fromMarch {year inYear : ℤ} (h : 0 ≤ inYear ∧ inYear ≤ 365) :
    (fromMarch year inYear).dayNumber = marchDays year + inYear + 11017 := by
  unfold fromMarch Date.dayNumber
  by_cases hmonth : (5 * inYear + 2) / 153 < 10
  · simp only [if_pos hmonth]
    rw [if_neg (by omega), show 2000 + year - 2000 = year by omega]
    omega
  · simp only [if_neg hmonth]
    rw [if_pos (by omega), show 2001 + year - 2001 = year by omega]
    omega

theorem monthLength_leap {year : ℤ} (h : IsLeap year) : monthLength year 2 = 29 := if_pos h

theorem monthLength_common {year : ℤ} (h : ¬IsLeap year) : monthLength year 2 = 28 := if_neg h

theorem monthLength_span (year : ℤ) (month : ℕ) (h : 1 ≤ month ∧ month ≤ 12) (hne : month ≠ 2) :
    (monthLength year month : ℤ) =
      if month < 3 then (153 * ((month : ℤ) + 10) + 2) / 5 - (153 * ((month : ℤ) + 9) + 2) / 5
      else (153 * ((month : ℤ) - 2) + 2) / 5 - (153 * ((month : ℤ) - 3) + 2) / 5 := by
  obtain ⟨h1, h12⟩ := h
  interval_cases month
  all_goals first
    | exact absurd rfl hne
    | rfl

theorem fromMarch_valid {year inYear : ℤ} (h : 0 ≤ inYear ∧ inYear ≤ 365)
    (hleap : inYear = 365 → IsLeap (year + 1)) :
    (fromMarch year inYear).Valid := by
  unfold fromMarch
  obtain ⟨month, hmonth⟩ : ∃ month, (5 * inYear + 2) / 153 = month := ⟨_, rfl⟩
  have hrange : 0 ≤ month ∧ month ≤ 11 := by omega
  simp only [hmonth]
  by_cases hearly : month < 10
  · rw [if_pos hearly]
    have hspan := monthLength_span (2000 + year) (month + 3).toNat (by omega) (by omega)
    rw [if_neg (by omega), Int.toNat_of_nonneg (by omega), show month + 3 - 2 = month + 1 by omega,
      show month + 3 - 3 = month by omega] at hspan
    refine ⟨?_, ?_, ?_⟩ <;> simp only <;> omega
  · rw [if_neg hearly]
    by_cases hlast : month = 11
    · subst hlast
      have hyear : inYear = 365 → IsLeap (2001 + year) := by
        intro hday
        have := hleap hday
        unfold IsLeap at this ⊢
        omega
      refine ⟨⟨Nat.le_succ 1, Nat.le_add_left 2 10⟩, ?_, ?_⟩
      · simp only
        omega
      · show (inYear - (153 * 11 + 2) / 5 + 1).toNat ≤ monthLength (2001 + year) 2
        by_cases hl : IsLeap (2001 + year)
        · rw [monthLength_leap hl]
          omega
        · rw [monthLength_common hl]
          have : inYear ≠ 365 := fun hday => hl (hyear hday)
          omega
    · have hspan := monthLength_span (2001 + year) (month - 9).toNat (by omega) (by omega)
      rw [if_pos (by omega), Int.toNat_of_nonneg (by omega),
        show month - 9 + 10 = month + 1 by omega, show month - 9 + 9 = month by omega] at hspan
      refine ⟨?_, ?_, ?_⟩ <;> simp only <;> omega

theorem dayNumber_date (days : ℤ) : (date days).dayNumber = days := by
  obtain ⟨hsum, -⟩ := marchYear_spec (days - 11017)
  rw [date_eq, dayNumber_fromMarch (marchYear_day _), hsum]
  omega

theorem date_injective : Function.Injective date := Function.LeftInverse.injective dayNumber_date

theorem date_valid (days : ℤ) : (date days).Valid := by
  rw [date_eq]
  exact fromMarch_valid (marchYear_day _) (marchYear_spec _).2

theorem monthLength_le (year : ℤ) (month : ℕ) : monthLength year month ≤ 31 := by
  unfold monthLength
  split <;> first | split_ifs <;> decide | decide

theorem marchDays_succ (year : ℤ) :
    marchDays (year + 1) = marchDays year + monthLength (year + 2001) 2 + 337 := by
  have hleap : IsLeap (year + 2001) ↔
      ((year + 1) % 4 = 0 ∧ ((year + 1) % 100 = 0 → (year + 1) % 400 = 0)) := by
    unfold IsLeap
    omega
  unfold marchDays
  by_cases hl : IsLeap (year + 2001)
  · rw [monthLength_leap hl]
    rw [hleap] at hl
    omega
  · rw [monthLength_common hl]
    rw [hleap] at hl
    omega

theorem marchDays_mono {a b : ℤ} (h : a ≤ b) : marchDays a ≤ marchDays b := by
  unfold marchDays
  omega

theorem march_unique {year year' r r' : ℤ} (hr : 0 ≤ r ∧ r ≤ 365)
    (hleap : r = 365 → IsLeap (year + 1)) (hr' : 0 ≤ r')
    (h : marchDays year + r = marchDays year' + r') : year' ≤ year := by
  by_contra hlt
  have hmono := marchDays_mono (show year + 1 ≤ year' by omega)
  have hsucc := marchDays_succ year
  have hleap' : r = 365 → IsLeap (year + 2001) := by
    intro hday
    have := hleap hday
    unfold IsLeap at this ⊢
    omega
  by_cases hl : IsLeap (year + 2001)
  · rw [monthLength_leap hl] at hsucc
    omega
  · rw [monthLength_common hl] at hsucc
    have : r ≠ 365 := fun hday => hl (hleap' hday)
    omega

theorem exists_fromMarch {d : Date} (h : d.Valid) :
    ∃ year r, (0 ≤ r ∧ r ≤ 365) ∧ (r = 365 → IsLeap (year + 1)) ∧ fromMarch year r = d := by
  obtain ⟨y, m, day⟩ := d
  obtain ⟨⟨hm, hm'⟩, hd, hd'⟩ := h
  simp only at hm hm' hd hd'
  by_cases hearly : m < 3
  · have hlength : (monthLength y m : ℤ) = if m = 1 then 31 else if IsLeap y then 29 else 28 := by
      obtain rfl | rfl : m = 1 ∨ m = 2 := by omega
      · rfl
      · show ((if IsLeap y then 29 else 28 : ℕ) : ℤ) = if IsLeap y then 29 else 28
        split_ifs <;> rfl
    have hleap : IsLeap y ↔ IsLeap (y - 2001 + 1) := by
      unfold IsLeap
      omega
    refine ⟨y - 2001, (153 * ((m : ℤ) + 9) + 2) / 5 + day - 1, ?_, fun hlast => ?_, ?_⟩
    · split_ifs at hlength <;> omega
    · rw [← hleap]
      by_contra hl
      split_ifs at hlength <;> omega
    · have hmonth : (5 * ((153 * ((m : ℤ) + 9) + 2) / 5 + day - 1) + 2) / 153 = m + 9 := by
        split_ifs at hlength <;> omega
      simp only [fromMarch, hmonth]
      rw [if_neg (by omega)]
      refine Date.ext ?_ ?_ ?_ <;> simp only <;> omega
  · have hspan := monthLength_span y _ ⟨hm, hm'⟩ (by omega)
    rw [if_neg hearly] at hspan
    have hmonth : (5 * ((153 * ((m : ℤ) - 3) + 2) / 5 + day - 1) + 2) / 153 = m - 3 := by omega
    refine ⟨y - 2000, (153 * ((m : ℤ) - 3) + 2) / 5 + day - 1, by omega, by omega, ?_⟩
    simp only [fromMarch, hmonth]
    rw [if_pos (by omega)]
    refine Date.ext ?_ ?_ ?_ <;> simp only <;> omega

theorem date_dayNumber {d : Date} (h : d.Valid) : date d.dayNumber = d := by
  obtain ⟨year, r, hr, hleap, rfl⟩ := exists_fromMarch h
  obtain ⟨hsum, hleap'⟩ := marchYear_spec ((fromMarch year r).dayNumber - 11017)
  have hr' := marchYear_day ((fromMarch year r).dayNumber - 11017)
  rw [date_eq]
  generalize marchYear ((fromMarch year r).dayNumber - 11017) = found at hsum hleap' hr'
  rw [dayNumber_fromMarch hr] at hsum
  have hsame : marchDays year + r = marchDays found.1 + found.2 := by omega
  have h1 := march_unique hr hleap hr'.1 hsame
  have h2 := march_unique hr' hleap' hr.1 hsame.symm
  obtain rfl : year = found.1 := by omega
  obtain rfl : r = found.2 := by omega
  rfl

example : (⟨2024, 3, 1⟩ : Date).dayNumber = (⟨2024, 2, 29⟩ : Date).dayNumber + 1 := by decide

end Calendar
