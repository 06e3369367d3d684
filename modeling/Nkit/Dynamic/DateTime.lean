import Nkit.Base.BitFields
import Nkit.Base.Calendar
import Mathlib.Data.List.Lex
import Mathlib.Order.Defs.LinearOrder

/-! Dates packed into a word (`Impl<DATE_TIME>`). -/

namespace Nkit.DateTime
open BitFields

/-- The constants of one field: `.._SIZE`, `.._POS` and `.._SHIFT`. -/
structure Field where
  size : ℕ
  pos : ℕ
  shift : ℕ

def maxVal : BitVec 64 := 0xFFFFFFFF

def totalSize : ℕ := 64

/-- `.._MASK`. -/
def Field.mask (f : Field) : BitVec 64 := (maxVal <<< (totalSize - f.size)) >>> f.pos

def Field.next (f : Field) (size : ℕ) : Field := ⟨size, f.pos + f.size, f.shift - size⟩

def yearField : Field := ⟨16, 0, totalSize - 16⟩
def monthField : Field := yearField.next 4
def dayField : Field := monthField.next 5
def hhField : Field := dayField.next 5
def mmField : Field := hhField.next 6
def ssField : Field := mmField.next 6
def microsecField : Field := ssField.next 20

def yearMax : BitVec 64 :=
  (maxVal <<< (totalSize - yearField.size)) >>> (totalSize - yearField.size)

def microsecMax : BitVec 64 := 999999

/-- `uint32_t((v.ui64_ & .._MASK) >> .._SHIFT)`. -/
def Field.get (f : Field) (v : BitVec 64) : BitVec 32 := ((v &&& f.mask) >>> f.shift).setWidth 32

def year : BitVec 64 → BitVec 32 := yearField.get
def month : BitVec 64 → BitVec 32 := monthField.get
def day : BitVec 64 → BitVec 32 := dayField.get
def hours : BitVec 64 → BitVec 32 := hhField.get
def minutes : BitVec 64 → BitVec 32 := mmField.get
def seconds : BitVec 64 → BitVec 32 := ssField.get
def microseconds : BitVec 64 → BitVec 32 := microsecField.get

/-- `IsLeap`. -/
def isLeap (y : BitVec 64) : Bool :=
  if y % 4 ≠ 0 then false else if y % 100 ≠ 0 then true else if y % 400 ≠ 0 then false else true

def daysInMonth : List (BitVec 64) := [31, 28, 31, 30, 31, 30, 31, 31, 30, 31, 30, 31]

/-- The seven arguments of `Set`. -/
structure Args where
  year : BitVec 64
  month : BitVec 64
  day : BitVec 64
  hh : BitVec 64
  mm : BitVec 64
  ss : BitVec 64
  microsec : BitVec 64

/-- `Set`; `none` is the result `false`. -/
def set (a : Args) : Option (BitVec 64) :=
  if a.year ≤ yearMax ∧ 0 < a.month ∧ a.month ≤ 12 ∧ 0 < a.day ∧
      (a.day ≤ daysInMonth.getD (a.month - 1).toNat 0 ∨
        (a.month = 2 ∧ a.day = 29 ∧ isLeap a.year = true)) ∧
      a.hh ≤ 23 ∧ a.mm ≤ 59 ∧ a.ss ≤ 59 ∧ a.microsec ≤ microsecMax then
    some ((a.year <<< yearField.shift) + (a.month <<< monthField.shift) +
      (a.day <<< dayField.shift) +
      (a.hh <<< hhField.shift) + (a.mm <<< mmField.shift) + (a.ss <<< ssField.shift) +
      (a.microsec <<< microsecField.shift))
  else none

/-- `SetHour` and its siblings, which leave the word alone on failure. -/
def Field.put (f : Field) (max : BitVec 64) (v x : BitVec 64) : BitVec 64 × Bool :=
  if x > max then (v, false) else ((v &&& ~~~f.mask) + (x <<< f.shift), true)

def setHour : BitVec 64 → BitVec 64 → BitVec 64 × Bool := hhField.put 23
def setMinute : BitVec 64 → BitVec 64 → BitVec 64 × Bool := mmField.put 59
def setSecond : BitVec 64 → BitVec 64 → BitVec 64 × Bool := ssField.put 59

/-- The mask covers the field, and the field fits into a word and into what an accessor returns. -/
structure Field.Laid (f : Field) : Prop where
  mask : f.mask = BitFields.mask 64 f.size f.shift
  fits : f.size + f.shift ≤ 64
  small : f.size ≤ 32

theorem year_laid : yearField.Laid := ⟨by decide, by decide, by decide⟩
theorem month_laid : monthField.Laid := ⟨by decide, by decide, by decide⟩
theorem day_laid : dayField.Laid := ⟨by decide, by decide, by decide⟩
theorem hh_laid : hhField.Laid := ⟨by decide, by decide, by decide⟩
theorem mm_laid : mmField.Laid := ⟨by decide, by decide, by decide⟩
theorem ss_laid : ssField.Laid := ⟨by decide, by decide, by decide⟩
theorem microsec_laid : microsecField.Laid := ⟨by decide, by decide, by decide⟩

theorem Field.Laid.get {f : Field} (h : f.Laid) (v : BitVec 64) :
    (f.get v).toNat = read f.size f.shift v.toNat := by
  have hlt : read f.size f.shift v.toNat < 2 ^ 32 :=
    (read_lt ..).trans_le (Nat.pow_le_pow_right Nat.zero_lt_two h.small)
  rw [Field.get, BitVec.toNat_setWidth, h.mask, toNat_read h.fits, Nat.mod_eq_of_lt hlt]

def parts (v : BitVec 64) : List ℕ :=
  [(year v).toNat, (month v).toNat, (day v).toNat, (hours v).toNat, (minutes v).toNat,
    (seconds v).toNat, (microseconds v).toNat]

def Args.parts (a : Args) : List ℕ :=
  [a.year.toNat, a.month.toNat, a.day.toNat, a.hh.toNat, a.mm.toNat, a.ss.toNat, a.microsec.toNat]

/-- A day and a time of the Gregorian calendar. -/
structure Args.Valid (a : Args) : Prop where
  year : a.year.toNat ≤ 65535
  month : 1 ≤ a.month.toNat ∧ a.month.toNat ≤ 12
  day : 1 ≤ a.day.toNat ∧ a.day.toNat ≤ Calendar.monthLength a.year.toNat a.month.toNat
  hh : a.hh.toNat ≤ 23
  mm : a.mm.toNat ≤ 59
  ss : a.ss.toNat ≤ 59
  microsec : a.microsec.toNat ≤ 999999

section Set
variable {a b : Args} {v w : BitVec 64}

theorem isLeap_iff (y : BitVec 64) : isLeap y = true ↔ Calendar.IsLeap y.toNat := by
  have hmod : ∀ k : BitVec 64, y % k ≠ 0 ↔ y.toNat % k.toNat ≠ 0 := by
    intro k
    rw [ne_eq, ne_eq, ← BitVec.toNat_inj, BitVec.toNat_umod]
    rfl
  have h4 : y % 4 ≠ 0 ↔ y.toNat % 4 ≠ 0 := hmod 4
  have h100 : y % 100 ≠ 0 ↔ y.toNat % 100 ≠ 0 := hmod 100
  have h400 : y % 400 ≠ 0 ↔ y.toNat % 400 ≠ 0 := hmod 400
  unfold isLeap Calendar.IsLeap
  rw [if_congr h4 rfl (if_congr h100 rfl (if_congr h400 rfl rfl))]
  split_ifs <;> simp only [false_iff, true_iff] <;> omega

theorem daysInMonth_iff (year day : BitVec 64) {month : BitVec 64}
    (h : 1 ≤ month.toNat ∧ month.toNat ≤ 12) :
    (day ≤ daysInMonth.getD (month - 1).toNat 0 ∨ (month = 2 ∧ day = 29 ∧ isLeap year = true)) ↔
      day.toNat ≤ Calendar.monthLength year.toNat month.toNat := by
  have hle : ∀ k : BitVec 64, day ≤ k ↔ day.toNat ≤ k.toNat := fun k => BitVec.le_def
  obtain ⟨m, hm⟩ : ∃ m, month.toNat = m := ⟨_, rfl⟩
  obtain rfl : month = BitVec.ofNat 64 m := by
    rw [← hm]
    exact BitVec.eq_of_toNat_eq (by rw [BitVec.toNat_ofNat, Nat.mod_eq_of_lt month.isLt])
  rw [hm] at h ⊢
  by_cases hfeb : m = 2
  · subst hfeb
    have h29 : day = 29 ↔ day.toNat = 29 := (BitVec.toNat_inj (y := 29)).symm
    show (day ≤ 28 ∨ (2 = 2 ∧ day = 29 ∧ isLeap year = true)) ↔ _
    rw [hle, h29, isLeap_iff]
    show (day.toNat ≤ 28 ∨ (2#64 = 2#64 ∧ day.toNat = 29 ∧ _)) ↔ _
    by_cases hl : Calendar.IsLeap year.toNat
    · rw [Calendar.monthLength_leap hl]
      simp only [hl, and_true, true_and]
      omega
    · rw [Calendar.monthLength_common hl]
      simp only [hl, and_false, or_false]
  · have hno : BitVec.ofNat 64 m ≠ 2 := by
      intro h2
      rw [h2] at hm
      exact hfeb hm.symm
    simp only [hno, false_and, or_false, hle]
    obtain ⟨h1, h12⟩ := h
    interval_cases m
    all_goals first
      | exact absurd rfl hfeb
      | exact Iff.rfl

theorem accepts_iff :
    (a.year ≤ yearMax ∧ 0 < a.month ∧ a.month ≤ 12 ∧ 0 < a.day ∧
      (a.day ≤ daysInMonth.getD (a.month - 1).toNat 0 ∨
        (a.month = 2 ∧ a.day = 29 ∧ isLeap a.year = true)) ∧
      a.hh ≤ 23 ∧ a.mm ≤ 59 ∧ a.ss ≤ 59 ∧ a.microsec ≤ microsecMax) ↔ a.Valid := by
  constructor
  · rintro ⟨hy, hm, hm', hd, hd', hh, hmm, hss, hus⟩
    have hmonth : 1 ≤ a.month.toNat ∧ a.month.toNat ≤ 12 := ⟨hm, hm'⟩
    exact ⟨hy, hmonth, ⟨hd, (daysInMonth_iff _ _ hmonth).mp hd'⟩, hh, hmm, hss, hus⟩
  · rintro ⟨hy, hmonth, ⟨hd, hd'⟩, hh, hmm, hss, hus⟩
    exact ⟨hy, hmonth.1, hmonth.2, hd, (daysInMonth_iff _ _ hmonth).mpr hd', hh, hmm, hss, hus⟩

def Args.packed (a : Args) : ℕ :=
  ((((((a.year.toNat * 2 ^ 4 + a.month.toNat) * 2 ^ 5 + a.day.toNat) * 2 ^ 5 + a.hh.toNat) * 2 ^ 6 +
    a.mm.toNat) * 2 ^ 6 +
    a.ss.toNat) * 2 ^ 20 + a.microsec.toNat) * 2 ^ 2

theorem day_le (h : a.Valid) : a.day.toNat ≤ 31 := h.day.2.trans (Calendar.monthLength_le _ _)

theorem set_eq (h : a.Valid) : ∃ v, set a = some v ∧ v.toNat = a.packed := by
  refine ⟨_, if_pos (accepts_iff.mpr h), ?_⟩
  have hday := day_le h
  obtain ⟨hy, ⟨-, hm⟩, -, hh, hmm, hss, hus⟩ := h
  simp only [BitVec.toNat_add, BitVec.toNat_shiftLeft, Nat.shiftLeft_eq, yearField, monthField,
    dayField, hhField, mmField, ssField, microsecField, Field.next, totalSize, Args.packed]
  omega

theorem set_eq_none (h : ¬a.Valid) : set a = none := if_neg fun hacc => h (accepts_iff.mp hacc)

theorem set_some (h : set a = some v) : a.Valid ∧ v.toNat = a.packed := by
  by_cases ha : a.Valid
  · obtain ⟨u, hu, hnum⟩ := set_eq ha
    obtain rfl : u = v := Option.some.inj (hu.symm.trans h)
    exact ⟨ha, hnum⟩
  · rw [set_eq_none ha] at h
    cases h

def layout : List (ℕ × ℕ) := [(16, 48), (4, 44), (5, 39), (5, 34), (6, 28), (6, 22), (20, 2)]

theorem parts_eq (v : BitVec 64) : parts v = layout.map fun l => read l.1 l.2 v.toNat := by
  simp only [parts, year, month, day, hours, minutes, seconds, microseconds, year_laid.get,
    month_laid.get, day_laid.get, hh_laid.get, mm_laid.get, ss_laid.get, microsec_laid.get]
  rfl

theorem parts_set (hset : set a = some v) : parts v = a.parts := by
  obtain ⟨h, hv⟩ := set_some hset
  have hday := day_le h
  obtain ⟨hy, ⟨-, hm⟩, -, hh, hmm, hss, hus⟩ := h
  rw [parts_eq, Args.parts, hv, Args.packed]
  simp only [layout, List.map_cons, List.map_nil, BitFields.read, List.cons.injEq, and_true]
  omega

theorem packed_lt_iff (ha : a.Valid) (hb : b.Valid) : a.packed < b.packed ↔ a.parts < b.parts := by
  have hda := day_le ha
  have hdb := day_le hb
  obtain ⟨-, ⟨-, hma⟩, -, hha, hmma, hssa, husa⟩ := ha
  obtain ⟨-, ⟨-, hmb⟩, -, hhb, hmmb, hssb, husb⟩ := hb
  have hpacked : ∀ c : Args, c.packed =
    pack c.year.toNat [2 ^ 4, 2 ^ 5, 2 ^ 5, 2 ^ 6, 2 ^ 6, 2 ^ 20]
      [c.month.toNat, c.day.toNat, c.hh.toNat, c.mm.toNat, c.ss.toNat, c.microsec.toNat] * 2 ^ 2 :=
        fun _ => rfl
  rw [hpacked, hpacked, Nat.mul_lt_mul_right (by decide)]
  refine pack_lt_iff ?_ ?_ _ _
  · simp only [List.forall₂_cons, List.forall₂_nil_left_iff, and_true]
    omega
  · simp only [List.forall₂_cons, List.forall₂_nil_left_iff, and_true]
    omega

theorem layout_apart :
    ∀ i j : Fin layout.length, i ≠ j →
      layout[i].2 + layout[i].1 ≤ layout[j].2 ∨ layout[j].2 + layout[j].1 ≤ layout[i].2 := by
  decide

theorem layout_above : ∀ i : Fin layout.length, 0 + 2 ≤ layout[i].2 := by decide

theorem parts_write (i : Fin layout.length) {x : ℕ} (hx : x < 2 ^ layout[i].1)
    (hw : w.toNat = write layout[i].1 layout[i].2 x v.toNat) : parts w = (parts v).set i x := by
  rw [parts_eq, parts_eq]
  refine List.ext_getElem ?_ fun j hj hj' => ?_
  · rw [List.length_set, List.length_map, List.length_map]
  rw [List.length_map] at hj
  rw [List.getElem_map, List.getElem_set, hw]
  split_ifs with hij
  · subst hij
    exact read_write hx _
  · rw [List.getElem_map]
    exact read_write_other hx (layout_apart i ⟨j, hj⟩ fun h => hij (congrArg Fin.val h)) _

theorem spare_write (i : Fin layout.length) {x : ℕ} (hx : x < 2 ^ layout[i].1)
    (hw : w.toNat = write layout[i].1 layout[i].2 x v.toNat) :
    w.toNat % 2 ^ 2 = v.toNat % 2 ^ 2 := by
  have hread : ∀ n, read 2 0 n = n % 2 ^ 2 := fun n => by
    rw [BitFields.read, Nat.pow_zero, Nat.div_one]
  rw [← hread, ← hread, hw]
  exact read_write_other hx (.inr (layout_above i)) _

/-- The part at `i` is changed, up to a largest number, and nothing else. -/
structure ChangesPart (put : BitVec 64 → BitVec 64 → BitVec 64 × Bool) (i max : ℕ) : Prop where
  accepts : ∀ v x, (put v x).2 = true ↔ x.toNat ≤ max
  changes : ∀ v x, x.toNat ≤ max →
    parts (put v x).1 = (parts v).set i x.toNat ∧ (put v x).1.toNat % 2 ^ 2 = v.toNat % 2 ^ 2
  keeps : ∀ v x, ¬x.toNat ≤ max → (put v x).1 = v

theorem put_accepted {f : Field} (hf : f.Laid) {max x : BitVec 64} (hmax : max.toNat < 2 ^ f.size)
    (hx : x.toNat ≤ max.toNat) :
    (f.put max v x).2 = true ∧ (f.put max v x).1.toNat = write f.size f.shift x.toNat v.toNat := by
  have hnot : ¬x > max := Nat.not_lt_of_le hx
  rw [Field.put, if_neg hnot, hf.mask]
  exact ⟨rfl, toNat_write hf.fits v x (hx.trans_lt hmax)⟩

theorem put_refused {f : Field} {max x : BitVec 64} (hx : ¬x.toNat ≤ max.toNat) :
    f.put max v x = (v, false) :=
  if_pos (Nat.lt_of_not_le hx)

theorem changesPart_put {f : Field} (hf : f.Laid) (i : Fin layout.length)
    (hi : layout[i] = (f.size, f.shift)) (max : BitVec 64) (hmax : max.toNat < 2 ^ f.size) :
    ChangesPart (f.put max) i max.toNat := by
  have hsize : layout[i].1 = f.size := congrArg Prod.fst hi
  have hshift : layout[i].2 = f.shift := congrArg Prod.snd hi
  refine ⟨fun v x => ⟨fun h => ?_, fun hx => (put_accepted hf hmax hx).1⟩, fun v x hx => ?_,
    fun v x hx => ?_⟩
  · by_contra hx
    rw [put_refused hx] at h
    cases h
  · have hlt : x.toNat < 2 ^ layout[i].1 := hsize ▸ hx.trans_lt hmax
    have hw : (f.put max v x).1.toNat = write layout[i].1 layout[i].2 x.toNat v.toNat := by
      rw [hsize, hshift]
      exact (put_accepted hf hmax hx).2
    exact ⟨parts_write i hlt hw, spare_write i hlt hw⟩
  · rw [put_refused hx]

theorem setHour_changes :
    ChangesPart setHour 3 23 := changesPart_put hh_laid ⟨3, by decide⟩ rfl 23 (by decide)
theorem setMinute_changes :
    ChangesPart setMinute 4 59 := changesPart_put mm_laid ⟨4, by decide⟩ rfl 59 (by decide)
theorem setSecond_changes :
    ChangesPart setSecond 5 59 := changesPart_put ss_laid ⟨5, by decide⟩ rfl 59 (by decide)

end Set

/-- `Set` takes the days and times of the calendar, the accessors read the arguments back, packed
words are ordered as their parts are, and the setters change one part. -/
theorem packed_date_times :
    (∀ a, (set a).isSome ↔ a.Valid) ∧
      (∀ a v, set a = some v → parts v = a.parts) ∧
      (∀ a b v w, set a = some v → set b = some w → (v.toNat < w.toNat ↔ a.parts < b.parts)) ∧
      ChangesPart setHour 3 23 ∧ ChangesPart setMinute 4 59 ∧ ChangesPart setSecond 5 59 := by
  refine ⟨fun a => ⟨fun h => ?_, fun h => ?_⟩, fun a v h => ?_, fun a b v w ha hb => ?_,
    setHour_changes, setMinute_changes, setSecond_changes⟩
  · obtain ⟨v, hv⟩ := Option.isSome_iff_exists.mp h
    exact (set_some hv).1
  · obtain ⟨v, hv, -⟩ := set_eq h
    rw [hv]
    rfl
  · exact parts_set h
  · rw [(set_some ha).2, (set_some hb).2]
    exact packed_lt_iff (set_some ha).1 (set_some hb).1

end Nkit.DateTime
