import Nkit.Tools
import Nkit.Base.Continuation

/-! The conversions between UTF-8, UTF-16 and UCS-4 (`transcode.cpp`).  A number that is passed
through a `uint32_t *` is in ℕ, and a character is a byte. -/

namespace Nkit

/-- `0x80 + ((ucs4 >> shift) & 0x3F)`. -/
def tailByte (ucs4 shift : ℕ) : UInt8 := UInt8.ofNat (0x80 + ((ucs4 >>> shift) &&& 0x3F))

/-- `ucs4_to_utf8`: the bytes stored, and `bytes_written`. -/
def ucs4ToUtf8 (ucs4 : ℕ) : Option (Bytes × ℕ) :=
  if ucs4 < 0x00000080 then some ([UInt8.ofNat ucs4], 1)
  else if ucs4 < 0x00000800 then some ([UInt8.ofNat (0xc0 + (ucs4 >>> 6)), tailByte ucs4 0], 2)
  else if ucs4 < 0x00010000 then
    some ([UInt8.ofNat (0xe0 + (ucs4 >>> 12)), tailByte ucs4 6, tailByte ucs4 0], 3)
  else if ucs4 < 0x00200000 then
    some ([UInt8.ofNat (0xf0 + (ucs4 >>> 18)), tailByte ucs4 12, tailByte ucs4 6, tailByte ucs4 0],
      4)
  else if ucs4 < 0x04000000 then
    some ([UInt8.ofNat (0xf8 + (ucs4 >>> 24)), tailByte ucs4 18, tailByte ucs4 12, tailByte ucs4 6,
      tailByte ucs4 0], 5)
  else if ucs4 < 0x80000000 then
    some ([UInt8.ofNat (0xfc + (ucs4 >>> 30)), tailByte ucs4 24, tailByte ucs4 18, tailByte ucs4 12,
      tailByte ucs4 6, tailByte ucs4 0], 6)
  else none

/-- `utf8_to_ucs4`: the number, and `bytes_read`.  What is read behind the string is the
terminating NUL. -/
def utf8ToUcs4 (utf8 : Bytes) : Option (ℕ × ℕ) :=
  let utf (i : ℕ) : UInt8 := utf8.getD i 0
  let bits (i mark shift : ℕ) : ℕ := ((utf i).toNat - mark) <<< shift
  if utf 0 != 0 && utf 0 &&& 0xC0 != 0x80 then
    if utf 0 < 0xC0 then some ((utf 0).toNat, 1)
    else if utf 1 &&& 0xC0 == 0x80 then
      if utf 0 < 0xE0 then some (bits 0 0xC0 6 + bits 1 0x80 0, 2)
      else if utf 2 &&& 0xC0 == 0x80 then
        if utf 0 < 0xF0 then some (bits 0 0xE0 12 + bits 1 0x80 6 + bits 2 0x80 0, 3)
        else if utf 3 &&& 0xC0 == 0x80 then
          if utf 0 < 0xF8
            then some (bits 0 0xF0 18 + bits 1 0x80 12 + bits 2 0x80 6 + bits 3 0x80 0, 4)
          else if utf 4 &&& 0xC0 == 0x80 then
            if utf 0 < 0xFC then
              some (bits 0 0xF8 24 + bits 1 0x80 18 + bits 2 0x80 12 + bits 3 0x80 6 +
                bits 4 0x80 0, 4)
            else if utf 5 &&& 0xC0 == 0x80 then
              if utf 0 < 0xFE then
                some (bits 0 0xFC 30 + bits 1 0x80 24 + bits 2 0x80 18 + bits 3 0x80 12 +
                  bits 4 0x80 6 +
                  bits 5 0x80 0, 5)
              else none
            else none
          else none
        else none
      else none
    else none
  else none

def utf8Size (first : UInt8) : ℕ :=
  if first < 0x80 then 1
  else if first < 0xC0 then 0
  else if first < 0xE0 then 2
  else if first < 0xF0 then 3
  else if first < 0xF8 then 4
  else if first < 0xFC then 5
  else if first < 0xFE then 6
  else 0

/-- `utf16_to_ucs4` of two units: the number, and `shorts_read`. -/
def utf16ToUcs4 (utf16 : UInt16 × UInt16) : Option (ℕ × ℕ) :=
  if utf16.1 < 0xD800 then some (utf16.1.toNat, 1)
  else if utf16.1 < 0xDC00 then
    if utf16.2 ≥ 0xDC00 && utf16.2 < 0xE000 then
      some (((utf16.1.toNat - 0xD800) <<< 10) + (utf16.2.toNat - 0xDC00) + 0x00010000, 2)
    else none
  else if utf16.1 < 0xFFFE then some (utf16.1.toNat, 1)
  else none

/-- `ucs4_to_utf16`: the units stored, of which the second one is optional. -/
def ucs4ToUtf16 (ucs4 : ℕ) : Option (UInt16 × Option UInt16) :=
  if ucs4 ≤ 0x0000FFFD then some (UInt16.ofNat ucs4, none)
  else if ucs4 ≥ 0x00010000 && ucs4 ≤ 0x0010FFFF then
    some (UInt16.ofNat (((ucs4 - 0x00010000) >>> 10) + 0xD800),
      some (UInt16.ofNat (((ucs4 - 0x00010000) &&& 0x3FF) + 0xDC00)))
  else none

/-- `utf8_to_utf16`, with the number of bytes read. -/
def utf8ToUtf16 (utf8 : Bytes) : Option ((UInt16 × Option UInt16) × ℕ) :=
  match utf8ToUcs4 utf8 with
  | none => none
  | some (character, bytesRead) => (ucs4ToUtf16 character).map (·, bytesRead)

/-- `utf16_to_utf8`, with the number of bytes written. -/
def utf16ToUtf8 (utf16 : UInt16 × UInt16) : Option (Bytes × ℕ) :=
  match utf16ToUcs4 utf16 with
  | none => none
  | some (character, _) => ucs4ToUtf8 character

def leadMark : ℕ → ℕ
  | 2 => 0xC0 | 3 => 0xE0 | 4 => 0xF0 | 5 => 0xF8 | 6 => 0xFC
  | _ => 0

/-- The form that `ucs4_to_utf8` chooses. -/
def formOf (ucs4 : ℕ) : ℕ :=
  if ucs4 < 0x80 then 1 else if ucs4 < 0x800 then 2 else if ucs4 < 0x10000 then 3
    else if ucs4 < 0x200000 then 4
  else if ucs4 < 0x4000000 then 5 else 6

/-- The number in the form of `size` bytes. -/
def encodeForm (size ucs4 : ℕ) : Bytes :=
  UInt8.ofNat (leadMark size + ucs4 / 64 ^ (size - 1)) ::
    (Continuation.digits 64 (size - 1) ucs4).map fun d => UInt8.ofNat (0x80 + d)

def decodeForm (size : ℕ) (utf8 : Bytes) : ℕ :=
  Continuation.value 64 ((utf8.getD 0 0).toNat - leadMark size)
    ((List.range (size - 1)).map fun i => (utf8.getD (i + 1) 0).toNat - 0x80)

/-- `bytes_read` of the long forms is one short. -/
def bytesRead (size : ℕ) : ℕ := if size ≤ 4 then size else size - 1

def isTailByte (b : UInt8) : Bool := 0x80 ≤ b && b < 0xC0

def WellFormed (utf8 : Bytes) : Prop :=
  utf8.getD 0 0 ≠ 0 ∧ 0 < utf8Size (utf8.getD 0 0) ∧
    ∀ i, 0 < i → i < utf8Size (utf8.getD 0 0) → isTailByte (utf8.getD i 0) = true

theorem isTailByte_eq (b : UInt8) : isTailByte b = (b &&& 0xC0 == 0x80) := by
  have hall : ∀ n : Fin 256, isTailByte (.ofNat n) = (UInt8.ofNat n &&& 0xC0 == 0x80) := by
    decide +kernel
  have h := hall ⟨b.toNat, b.toNat_lt⟩
  rwa [UInt8.ofNat_toNat] at h

theorem isTailByte_iff {b : UInt8} : isTailByte b = true ↔ 0x80 ≤ b.toNat ∧ b.toNat < 0xC0 := by
  simp only [isTailByte, Bool.and_eq_true, decide_eq_true_eq, UInt8.le_iff_toNat_le,
    UInt8.lt_iff_toNat_lt]
  exact Iff.rfl

theorem utf8Size_cases (b : UInt8) :
    (utf8Size b = 0 ∧ (0x80 ≤ b.toNat ∧ b.toNat < 0xC0 ∨ 0xFE ≤ b.toNat)) ∨
      (utf8Size b = 1 ∧ b.toNat < 0x80) ∨
      (utf8Size b = 2 ∧ 0xC0 ≤ b.toNat ∧ b.toNat < 0xE0) ∨
        (utf8Size b = 3 ∧ 0xE0 ≤ b.toNat ∧ b.toNat < 0xF0) ∨
      (utf8Size b = 4 ∧ 0xF0 ≤ b.toNat ∧ b.toNat < 0xF8) ∨
        (utf8Size b = 5 ∧ 0xF8 ≤ b.toNat ∧ b.toNat < 0xFC) ∨
      (utf8Size b = 6 ∧ 0xFC ≤ b.toNat ∧ b.toNat < 0xFE) := by
  have hlt : ∀ n : UInt8, b < n ↔ b.toNat < n.toNat := fun n => UInt8.lt_iff_toNat_lt
  rw [utf8Size]
  simp only [hlt, UInt8.reduceToNat]
  generalize b.toNat = n
  split_ifs
  all_goals omega

theorem lead_iff {b : UInt8} :
    (b != 0 && b &&& 0xC0 != 0x80) = true ↔ b ≠ 0 ∧ ¬(0x80 ≤ b.toNat ∧ b.toNat < 0xC0) := by
  rw [Bool.and_eq_true, bne_iff_ne, ← isTailByte_iff, isTailByte_eq, bne, Bool.not_eq_true',
    Bool.not_eq_true]

theorem utf8ToUcs4_wellFormed {utf8 : Bytes} (h : WellFormed utf8) :
    utf8ToUcs4 utf8 =
      some (decodeForm (utf8Size (utf8.getD 0 0)) utf8, bytesRead (utf8Size (utf8.getD 0 0))) := by
  obtain ⟨hne, hpos, htail⟩ := h
  have hlead : (utf8.getD 0 0 != 0 && utf8.getD 0 0 &&& 0xC0 != 0x80) = true := by
    refine lead_iff.mpr ⟨hne, ?_⟩
    have := utf8Size_cases (utf8.getD 0 0)
    omega
  rw [utf8ToUcs4]
  simp only [hlead, if_true, UInt8.lt_iff_toNat_lt, UInt8.reduceToNat, ← isTailByte_eq, decodeForm,
    bytesRead]
  rcases utf8Size_cases (utf8.getD 0 0) with ⟨h, hb⟩ | ⟨h, hb⟩ | ⟨h, hb⟩ | ⟨h, hb⟩ | ⟨h, hb⟩
    | ⟨h, hb⟩ | ⟨h, hb⟩
  · omega
  · rw [if_pos (by omega), h]
    rfl
  · rw [h] at htail ⊢
    rw [if_neg (by omega), if_pos (htail 1 (by omega) (by omega)), if_pos (by omega)]
    simp [Continuation.value, leadMark, List.range_succ, Nat.shiftLeft_eq]
  · rw [h] at htail ⊢
    rw [if_neg (by omega), if_pos (htail 1 (by omega) (by omega)), if_neg (by omega),
      if_pos (htail 2 (by omega) (by omega)), if_pos (by omega)]
    simp [Continuation.value, leadMark, List.range_succ, Nat.shiftLeft_eq]
    omega
  · rw [h] at htail ⊢
    rw [if_neg (by omega), if_pos (htail 1 (by omega) (by omega)), if_neg (by omega),
      if_pos (htail 2 (by omega) (by omega)), if_neg (by omega),
      if_pos (htail 3 (by omega) (by omega)), if_pos (by omega)]
    simp [Continuation.value, leadMark, List.range_succ, Nat.shiftLeft_eq]
    omega
  · rw [h] at htail ⊢
    rw [if_neg (by omega), if_pos (htail 1 (by omega) (by omega)), if_neg (by omega),
      if_pos (htail 2 (by omega) (by omega)), if_neg (by omega),
      if_pos (htail 3 (by omega) (by omega)), if_neg (by omega),
      if_pos (htail 4 (by omega) (by omega)), if_pos (by omega)]
    simp [Continuation.value, leadMark, List.range_succ, Nat.shiftLeft_eq]
    omega
  · rw [h] at htail ⊢
    rw [if_neg (by omega), if_pos (htail 1 (by omega) (by omega)), if_neg (by omega),
      if_pos (htail 2 (by omega) (by omega)), if_neg (by omega),
      if_pos (htail 3 (by omega) (by omega)), if_neg (by omega),
      if_pos (htail 4 (by omega) (by omega)), if_neg (by omega),
      if_pos (htail 5 (by omega) (by omega)), if_pos (by omega)]
    simp [Continuation.value, leadMark, List.range_succ, Nat.shiftLeft_eq]
    omega

theorem isSome_ite {A : Type} {c : Prop} [Decidable c] {x y : Option A} :
    (if c then x else y).isSome = true ↔ (c ∧ x.isSome = true) ∨ (¬c ∧ y.isSome = true) := by
  split_ifs with h
  · simp [h]
  · simp [h]

theorem wellFormed_of_utf8ToUcs4 {utf8 : Bytes} (h : (utf8ToUcs4 utf8).isSome) :
    WellFormed utf8 := by
  simp only [utf8ToUcs4, isSome_ite, lead_iff, UInt8.lt_iff_toNat_lt, UInt8.reduceToNat,
    ← isTailByte_eq, Option.isSome_some, Option.isSome_none, Bool.false_eq_true, and_true,
    and_false, or_false] at h
  obtain ⟨⟨hne, hnot⟩, h⟩ := h
  have hsize := utf8Size_cases (utf8.getD 0 0)
  refine ⟨hne, by omega, fun i hi hlt => ?_⟩
  obtain rfl | rfl | rfl | rfl | rfl : i = 1 ∨ i = 2 ∨ i = 3 ∨ i = 4 ∨ i = 5 := by omega
  all_goals
    by_contra htail
    simp only [htail, and_false, or_false, false_and] at h
    omega

theorem utf8ToUcs4_append {utf8 : Bytes} (hne : utf8 ≠ [])
    (h : utf8Size (utf8.getD 0 0) ≤ utf8.length) (rest : Bytes) :
    utf8ToUcs4 (utf8 ++ rest) = utf8ToUcs4 utf8 := by
  have hget : ∀ i, i < utf8.length → (utf8 ++ rest).getD i 0 = utf8.getD i 0 := by
    intro i hi
    rw [List.getD_eq_getElem?_getD, List.getD_eq_getElem?_getD, List.getElem?_append_left hi]
  have hfirst := hget 0 (List.length_pos_iff.mpr hne)
  have hwell : WellFormed (utf8 ++ rest) ↔ WellFormed utf8 := by
    rw [WellFormed, WellFormed, hfirst]
    refine and_congr_right fun _ => and_congr_right fun _ => forall_congr' fun i =>
      forall_congr' fun _ => ?_
    exact ⟨fun hall hlt => hget i (hlt.trans_le h) ▸ hall hlt,
      fun hall hlt => (hget i (hlt.trans_le h)).symm ▸ hall hlt⟩
  by_cases hw : WellFormed utf8
  · have htail :
      ((List.range (utf8Size (utf8.getD 0 0) - 1)).map fun i =>
        ((utf8 ++ rest).getD (i + 1) 0).toNat - 0x80) =
        (List.range (utf8Size (utf8.getD 0 0) - 1)).map fun i =>
          (utf8.getD (i + 1) 0).toNat - 0x80 := by
      refine List.map_congr_left fun i hi => ?_
      have := List.mem_range.mp hi
      rw [hget (i + 1) (by omega)]
    rw [utf8ToUcs4_wellFormed hw, utf8ToUcs4_wellFormed (hwell.mpr hw), decodeForm, decodeForm,
      hfirst, htail]
  · have hnone : ∀ s, ¬WellFormed s → utf8ToUcs4 s = none := fun s hs =>
      Option.not_isSome_iff_eq_none.mp fun hsome => hs (wellFormed_of_utf8ToUcs4 hsome)
    rw [hnone _ hw, hnone _ (hwell.not.mpr hw)]

theorem ucs4ToUtf8_eq {ucs4 : ℕ} (h : ucs4 < 2 ^ 31) :
    ucs4ToUtf8 ucs4 = some (encodeForm (formOf ucs4) ucs4, formOf ucs4) := by
  have htail : ∀ shift, tailByte ucs4 shift = UInt8.ofNat (0x80 + ucs4 / 2 ^ shift % 64) := by
    intro shift
    rw [tailByte, Nat.shiftRight_eq_div_pow, show 0x3F = 2 ^ 6 - 1 from rfl,
      Nat.and_two_pow_sub_one_eq_mod]
  simp only [ucs4ToUtf8, formOf, htail, Nat.shiftRight_eq_div_pow]
  split_ifs
  all_goals first | omega | simp [encodeForm, leadMark, Continuation.digits]

theorem formOf_cases {u : ℕ} (h : u < 2 ^ 31) :
    (formOf u = 1 ∧ u < 0x80) ∨ (formOf u = 2 ∧ u < 0x800) ∨ (formOf u = 3 ∧ u < 0x10000) ∨
      (formOf u = 4 ∧ u < 0x200000) ∨ (formOf u = 5 ∧ u < 0x4000000 ∧ 0x200000 ≤ u) ∨
        (formOf u = 6 ∧ 0x4000000 ≤ u ∧ u < 2 ^ 31) := by
  rw [formOf]
  split_ifs
  all_goals omega

theorem lead_encodeForm {ucs4 : ℕ} (h : ucs4 < 2 ^ 31) (rest : Bytes) :
    ((encodeForm (formOf ucs4) ucs4 ++ rest).getD 0 0).toNat = leadMark (formOf ucs4) + ucs4 /
      64 ^ (formOf ucs4 - 1) ∧
      utf8Size ((encodeForm (formOf ucs4) ucs4 ++ rest).getD 0 0) = formOf ucs4 := by
  rw [encodeForm, List.cons_append, List.getD_cons_zero]
  have hsize :=
    utf8Size_cases (UInt8.ofNat (leadMark (formOf ucs4) + ucs4 / 64 ^ (formOf ucs4 - 1)))
  rw [UInt8.toNat_ofNat'] at hsize ⊢
  rcases formOf_cases h with ⟨hf, hb⟩ | ⟨hf, hb⟩ | ⟨hf, hb⟩ | ⟨hf, hb⟩ | ⟨hf, hb⟩ | ⟨hf, hb⟩
  all_goals
    simp only [hf, leadMark] at hsize ⊢
    omega

theorem tail_encodeForm (size ucs4 i : ℕ) (rest : Bytes) (hi : i < size - 1) :
    ((encodeForm size ucs4 ++ rest).getD (i + 1) 0).toNat =
      0x80 + (Continuation.digits 64 (size - 1) ucs4).getD i 0 := by
  have hlen : i < (Continuation.digits 64 (size - 1) ucs4).length := by simpa using hi
  have hlt := Continuation.lt_of_mem_digits (by decide) (List.getElem_mem hlen)
  rw [encodeForm, List.cons_append, List.getD_cons_succ, List.getD_eq_getElem?_getD,
    List.getElem?_append_left (by simpa using hi), List.getElem?_map, List.getD_eq_getElem?_getD,
    List.getElem?_eq_getElem hlen, Option.map_some, Option.getD_some, Option.getD_some,
    UInt8.toNat_ofNat']
  omega

theorem wellFormed_encodeForm {ucs4 : ℕ} (hpos : 0 < ucs4) (h : ucs4 < 2 ^ 31) (rest : Bytes) :
    WellFormed (encodeForm (formOf ucs4) ucs4 ++ rest) := by
  obtain ⟨hlead, hsize⟩ := lead_encodeForm h rest
  have hform := formOf_cases h
  refine ⟨fun hzero => ?_, by omega, fun i hi hlt => ?_⟩
  · rw [hzero] at hlead
    rcases hform with ⟨hf, hb⟩ | ⟨hf, hb⟩ | ⟨hf, hb⟩ | ⟨hf, hb⟩ | ⟨hf, hb⟩ | ⟨hf, hb⟩
    all_goals
      simp only [hf, leadMark, UInt8.toNat_zero] at hlead
      omega
  · obtain ⟨i, rfl⟩ : ∃ j, i = j + 1 := ⟨i - 1, by omega⟩
    rw [hsize] at hlt
    have hi : i < (Continuation.digits 64 (formOf ucs4 - 1) ucs4).length := by
      rw [Continuation.length_digits]
      omega
    have hdigit := Continuation.lt_of_mem_digits (by decide) (List.getElem_mem hi)
    rw [isTailByte_iff, tail_encodeForm _ _ _ _ (by omega), List.getD_eq_getElem?_getD,
      List.getElem?_eq_getElem hi, Option.getD_some]
    omega

theorem decodeForm_encodeForm {ucs4 : ℕ} (h : ucs4 < 2 ^ 31) (rest : Bytes) :
    decodeForm (formOf ucs4) (encodeForm (formOf ucs4) ucs4 ++ rest) = ucs4 := by
  have hdigits :
    ((List.range (formOf ucs4 - 1)).map fun i =>
      ((encodeForm (formOf ucs4) ucs4 ++ rest).getD (i + 1) 0).toNat - 0x80) =
      Continuation.digits 64 (formOf ucs4 - 1) ucs4 := by
    apply List.ext_getElem
    · simp
    · intro i hi hi'
      rw [List.getElem_map, List.getElem_range, tail_encodeForm _ _ _ _ (by simpa using hi),
        List.getD_eq_getElem?_getD, List.getElem?_eq_getElem hi', Option.getD_some,
        Nat.add_sub_cancel_left]
  rw [decodeForm, (lead_encodeForm h rest).1, hdigits, Nat.add_sub_cancel_left,
    Continuation.value_digits]

theorem utf8ToUcs4_ucs4ToUtf8 {ucs4 : ℕ} (hpos : 0 < ucs4) (h : ucs4 < 2 ^ 31) :
    ∃ utf8, ucs4ToUtf8 ucs4 = some (utf8, utf8.length) ∧ utf8Size (utf8.getD 0 0) = utf8.length ∧
      ∀ rest, utf8ToUcs4 (utf8 ++ rest) = some (ucs4, bytesRead utf8.length) := by
  have hlen : (encodeForm (formOf ucs4) ucs4).length = formOf ucs4 := by
    have := formOf_cases h
    rw [encodeForm, List.length_cons, List.length_map, Continuation.length_digits]
    omega
  refine ⟨encodeForm (formOf ucs4) ucs4, ?_, ?_, fun rest => ?_⟩
  · rw [ucs4ToUtf8_eq h, hlen]
  · have hsize := (lead_encodeForm h []).2
    rw [List.append_nil] at hsize
    exact hsize.trans hlen.symm
  · have hsize := (lead_encodeForm h rest).2
    rw [utf8ToUcs4_wellFormed (wellFormed_encodeForm hpos h rest), hsize, decodeForm_encodeForm h,
      hlen]

/-- The number comes back, and the encoder, the decoder and `utf8_size` count the same bytes. -/
def RoundTrips (ucs4 : ℕ) : Prop :=
  ∃ utf8 size, ucs4ToUtf8 ucs4 = some (utf8, size) ∧ utf8.length = size ∧ utf8Size (utf8.getD 0 0) =
    size ∧
    ∀ rest, utf8ToUcs4 (utf8 ++ rest) = some (ucs4, size)

/-- Forms of five and six bytes are reported one byte short. -/
theorem round_trips_iff (ucs4 : ℕ) (hpos : 1 ≤ ucs4) (h : ucs4 < 2 ^ 31) :
    RoundTrips ucs4 ↔ ucs4 < 2 ^ 21 := by
  obtain ⟨utf8, hwrite, hsize, hread⟩ := utf8ToUcs4_ucs4ToUtf8 hpos h
  have hform : utf8.length = formOf ucs4 := by
    rw [ucs4ToUtf8_eq h] at hwrite
    exact (congrArg Prod.snd (Option.some.inj hwrite)).symm
  have hcases := formOf_cases h
  rw [← hform] at hcases
  constructor
  · rintro ⟨utf8', size, hwrite', -, -, hread'⟩
    obtain ⟨rfl, rfl⟩ := Prod.mk.inj (Option.some.inj (hwrite.symm.trans hwrite'))
    have hcount := congrArg Prod.snd (Option.some.inj ((hread []).symm.trans (hread' [])))
    rw [bytesRead] at hcount
    simp only at hcount
    split_ifs at hcount
    all_goals omega
  · intro hlt
    have hcount : bytesRead utf8.length = utf8.length := by
      rw [bytesRead, if_pos (by omega)]
    exact ⟨utf8, utf8.length, hwrite, rfl, hsize, fun rest => hcount ▸ hread rest⟩

theorem round_trips_iff_euro :
    (1 ≤ 0x20AC ∧ 0x20AC < 2 ^ 31) ∧ (RoundTrips 0x20AC ↔ 0x20AC < 2 ^ 21) :=
  ⟨by decide, round_trips_iff 0x20AC (by decide) (by decide)⟩

theorem five_bytes_read_as_four : 1 ≤ 0x200000 ∧ 0x200000 < 2 ^ 31 ∧ ¬RoundTrips 0x200000 := by
  refine ⟨by decide, by decide, ?_⟩
  rintro ⟨utf8, size, hwrite, -, -, hread⟩
  have hread := hread []
  obtain ⟨rfl, rfl⟩ :=
    Prod.mk.inj
      (Option.some.inj
        (hwrite.symm.trans
          (by decide : ucs4ToUtf8 0x200000 = some ([0xF8, 0x88, 0x80, 0x80, 0x80], 5))))
  exact absurd hread (by decide)

end Nkit
