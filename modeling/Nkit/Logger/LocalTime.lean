import Nkit.Base.Calendar
import Nkit.Json.Decimal

/-! Local time as the logger asks the C library for it, with the calendar of UTC as an
instance. -/

namespace Nkit

/-- What the logger asks for: `localtime_r` with `strftime` in the format `%Y-%m-%dT%H%M%S`
(`none` where `strftime` returns 0), and `mktime` of the midnight that begins the local day. -/
structure LocalTime where
  isoTime : ℤ → Option Bytes
  dayStart : ℤ → ℤ

/-- The texts of the times are whole and tell the seconds apart. -/
structure LocalTime.Distinguishes (lt : LocalTime) : Prop where
  -- `%H%M%S` are six characters, and none of them is a `T`
  shape : ∀ t, ∃ date clock, lt.isoTime t = some (date ++ 84 :: clock) ∧ clock.length = 6 ∧
    84 ∉ clock
  injective : Function.Injective lt.isoTime

namespace Utc

open Calendar

def twoDigits (n : ℕ) : Bytes := [UInt8.ofNat (48 + n / 10), UInt8.ofNat (48 + n % 10)]

theorem twoDigits_toNat {n : ℕ} (h : n < 100) : ∀ c ∈ twoDigits n, 48 ≤ c.toNat ∧ c.toNat ≤ 57 := by
  intro c hc
  simp only [twoDigits, List.mem_cons, List.not_mem_nil, or_false] at hc
  obtain rfl | rfl := hc <;> rw [UInt8.toNat_ofNat'] <;> omega

theorem twoDigits_inj {n k : ℕ} (hn : n < 100) (hk : k < 100) (h : twoDigits n = twoDigits k) :
    n = k := by
  have hnat : ∀ i j : ℕ, i < 10 → j < 10 → UInt8.ofNat (48 + i) = UInt8.ofNat (48 + j) → i = j := by
    intro i j hi hj he
    have := congrArg UInt8.toNat he
    rw [UInt8.toNat_ofNat', UInt8.toNat_ofNat'] at this
    omega
  simp only [twoDigits, List.cons.injEq, and_true] at h
  have htens := hnat _ _ (by omega) (by omega) h.1
  have hones := hnat _ _ (by omega) (by omega) h.2
  omega

def dateText (d : Date) : Bytes :=
  stringCast d.year ++ (45 :: twoDigits d.month ++ 45 :: twoDigits d.day)

/-- `%H%M%S` of a second of the day. -/
def clockText (second : ℕ) : Bytes :=
  twoDigits (second / 3600) ++ (twoDigits (second / 60 % 60) ++ twoDigits (second % 60))

theorem dateText_inj {a b : ℤ} (h : dateText (date a) = dateText (date b)) : a = b := by
  refine date_injective ?_
  obtain ⟨hyear, hrest⟩ := List.append_inj' h rfl
  obtain ⟨hmonth, hday⟩ := List.append_inj (List.cons.inj hrest).2 rfl
  have ha := date_bounds a
  have hb := date_bounds b
  exact Date.ext (stringCast_injective hyear) (twoDigits_inj ha.1 hb.1 hmonth)
    (twoDigits_inj ha.2 hb.2 (List.cons.inj hday).2)

theorem clockText_inj {i j : ℕ} (hi : i < 86400) (hj : j < 86400) (h : clockText i = clockText j) :
    i = j := by
  obtain ⟨hhour, hrest⟩ := List.append_inj h rfl
  obtain ⟨hminute, hsecond⟩ := List.append_inj hrest rfl
  have h1 := twoDigits_inj (by omega) (by omega) hhour
  have h2 := twoDigits_inj (by omega) (by omega) hminute
  have h3 := twoDigits_inj (by omega) (by omega) hsecond
  omega

theorem clockText_no_T {i : ℕ} (hi : i < 86400) : 84 ∉ clockText i := by
  intro hmem
  simp only [clockText, List.mem_append] at hmem
  obtain hmem | hmem | hmem := hmem <;>
    exact absurd (twoDigits_toNat (by omega) _ hmem).2 (by decide)

def isoTime (t : ℤ) : Bytes := dateText (date (t / 86400)) ++ 84 :: clockText (t % 86400).toNat

theorem isoTime_inj {s t : ℤ} (h : isoTime s = isoTime t) : s = t := by
  obtain ⟨hdate, hclock⟩ := List.append_inj' h rfl
  have hday := dateText_inj hdate
  have hsecond := clockText_inj (by omega) (by omega) (List.cons.inj hclock).2
  omega

def localTime : LocalTime where
  isoTime t := some (isoTime t)
  dayStart t := t - t % 86400

theorem localTime_distinguishes : localTime.Distinguishes where
  shape _ := ⟨_, _, rfl, rfl, clockText_no_T (by omega)⟩
  injective _ _ h := isoTime_inj (Option.some.inj h)

example : isoTime 1709251199 = ascii "2024-02-29T235959" := by decide +kernel

end Utc

end Nkit
