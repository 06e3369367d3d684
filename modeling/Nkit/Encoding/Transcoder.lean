import Nkit.Base.Scan
import Nkit.Base.OrderedMap
import Nkit.Encoding.Utf8Codec
import Mathlib.Logic.Function.Basic

/-! Texts in a code page of 256 characters and in UTF-8 (`Transcoder` in `transcode.cpp`).  What a
function returns stands before what it appends to `out`. -/

namespace Nkit
open OrderedMap

abbrev SingleUtf16ToCharMap := List (UInt16 × UInt8)

def unitLt (a b : UInt16) : Bool := decide (a < b)

def allCharsLen : ℕ := 0x100

/-- `AddMapping`, on `single_utf16_to_char_hash_table_`. -/
def addMapping (unit : UInt16) (c : UInt8) (table : ℕ → SingleUtf16ToCharMap) : ℕ →
    SingleUtf16ToCharMap :=
  Function.update table (unit.toNat % allCharsLen)
    (update unitLt unit 0 (fun _ => c) (table (unit.toNat % allCharsLen)))

def addMappings (map : UInt8 → UInt16) (chars : List ℕ) (table : ℕ → SingleUtf16ToCharMap) : ℕ →
    SingleUtf16ToCharMap :=
  chars.foldl (fun table i => addMapping (map (UInt8.ofNat i)) (UInt8.ofNat i) table) table

structure Transcoder where
  charToSingleUtf16Map : UInt8 → UInt16
  singleUtf16ToCharHashTable : ℕ → SingleUtf16ToCharMap
  built : singleUtf16ToCharHashTable = addMappings charToSingleUtf16Map (List.range allCharsLen)
    fun _ => []

namespace Transcoder

def new (charToSingleUtf16Map : UInt8 → UInt16) : Transcoder := ⟨charToSingleUtf16Map, _, rfl⟩

def getChar (unit : UInt16) (t : Transcoder) : Option UInt8 :=
  get? unitLt unit (t.singleUtf16ToCharHashTable (unit.toNat % allCharsLen))

/-- `FromUtf8` of one symbol: the character, and the length by which `src` moves on. -/
def fromUtf8Symbol (t : Transcoder) (src : Bytes) (bytesLeft : ℕ) : Option (UInt8 × ℕ) :=
  let symbolLength := utf8Size (src.getD 0 0)
  if symbolLength > bytesLeft then none
  else
    match utf8ToUtf16 src with
    | none => none
    | some ((unit, _), _) => (t.getChar unit).map (·, symbolLength)

/-- A round of the loop in `FromUtf8` of a string. -/
def symbolStep (t : Transcoder) (src : Bytes) : Option (Bytes × ℕ) :=
  (t.fromUtf8Symbol src src.length).map fun (c, n) => ([c], n)

def callbackStep (t : Transcoder) (cb : UInt8 → Option Bytes) (src : Bytes) : Option (Bytes × ℕ) :=
  match cb (src.getD 0 0) with
  | some text => some (text, 1)
  | none => t.symbolStep src

/-- `FromUtf8` of a string. -/
def fromUtf8 (t : Transcoder) (src : Bytes) : Bool × Bytes := Scan.run t.symbolStep src

/-- `FromUtf8` of a string with a callback for special characters. -/
def fromUtf8With (t : Transcoder) (cb : UInt8 → Option Bytes) (src : Bytes) : Bool × Bytes :=
  Scan.run (t.callbackStep cb) src

/-- `FromUtf8` of a pointer and a size.  The arguments are passed on by their addresses, which is
the overload for one symbol. -/
def fromUtf8Pointer (t : Transcoder) (src : Bytes) (size : ℕ) : Bool × Bytes :=
  match t.fromUtf8Symbol src size with
  | none => (false, [])
  | some (c, _) => (true, [c])

def toUtf8 (t : Transcoder) : Bytes → Bool × Bytes
  | [] => (true, [])
  | ch :: src =>
    match utf16ToUtf8 (t.charToSingleUtf16Map ch, 0) with
    | none => (false, [])
    | some (utf8, bytesWritten) =>
      let (ok, out) := t.toUtf8 src
      (ok, utf8.take bytesWritten ++ out)

/-- `Transcode`. -/
def transcode (t outTranscoder : Transcoder) : Bytes → Bool × Bytes
  | [] => (true, [])
  | ch :: src =>
    match outTranscoder.getChar (t.charToSingleUtf16Map ch) with
    | none => (false, [])
    | some c =>
      let (ok, out) := t.transcode outTranscoder src
      (ok, c :: out)

theorem unitLt_strictWeak : StrictWeak unitLt := strictWeak_lt

theorem equiv_unitLt {unit unit' : UInt16} :
    equiv unitLt unit unit' = true ↔ unit = unit' := equiv_lt_iff

theorem get?_addMapping (unit unit' : UInt16) (c : UInt8) (table : ℕ → SingleUtf16ToCharMap) :
    get? unitLt unit' (addMapping unit c table (unit'.toNat % allCharsLen)) =
      if unit = unit' then some c else get? unitLt unit' (table (unit'.toNat % allCharsLen)) := by
  by_cases hunit : unit = unit'
  · subst hunit
    rw [addMapping, Function.update_self, get?_update unitLt_strictWeak,
      if_pos (unitLt_strictWeak.equiv_refl _), if_pos rfl]
  · rw [if_neg hunit]
    by_cases hbucket : unit'.toNat % allCharsLen = unit.toNat % allCharsLen
    · rw [addMapping, hbucket, Function.update_self, get?_update unitLt_strictWeak,
        if_neg fun h => hunit (equiv_unitLt.mp h)]
    · rw [addMapping, Function.update_of_ne hbucket]

theorem get?_addMappings (map : UInt8 → UInt16) (chars : List ℕ) (unit : UInt16)
    (table : ℕ → SingleUtf16ToCharMap) :
    get? unitLt unit (addMappings map chars table (unit.toNat % allCharsLen)) =
      ((chars.reverse.find? fun i => map (UInt8.ofNat i) == unit).map UInt8.ofNat).or
        (get? unitLt unit (table (unit.toNat % allCharsLen))) := by
  induction chars using List.reverseRecOn with
  | nil => rfl
  | append_singleton chars i ih =>
    rw [addMappings, List.foldl_append, List.foldl_cons, List.foldl_nil, get?_addMapping,
      List.reverse_append, List.reverse_singleton, List.singleton_append, List.find?_cons]
    by_cases hi : map (UInt8.ofNat i) = unit
    · simp [hi]
    · rw [if_neg hi, beq_false_of_ne hi]
      exact ih

variable {t t' : Transcoder} {unit : UInt16} {c : UInt8} {s src : Bytes}

theorem getChar_eq (t : Transcoder) (unit : UInt16) :
    t.getChar unit =
      ((List.range allCharsLen).reverse.find? fun i => t.charToSingleUtf16Map (UInt8.ofNat i) ==
        unit).map UInt8.ofNat := by
  rw [getChar, t.built, get?_addMappings, get?_nil, Option.or_none]

theorem unit_of_getChar (h : t.getChar unit = some c) : t.charToSingleUtf16Map c = unit := by
  rw [getChar_eq, Option.map_eq_some_iff] at h
  obtain ⟨i, hi, rfl⟩ := h
  have hunit := List.find?_some hi
  exact beq_iff_eq.mp hunit

theorem exists_getChar (t : Transcoder) (c : UInt8) :
    ∃ c', t.getChar (t.charToSingleUtf16Map c) = some c' ∧ t.charToSingleUtf16Map c' =
      t.charToSingleUtf16Map c := by
  cases h : t.getChar (t.charToSingleUtf16Map c) with
  | some c' => exact ⟨c', rfl, unit_of_getChar h⟩
  | none =>
    rw [getChar_eq, Option.map_eq_none_iff, List.find?_eq_none] at h
    have hmem : c.toNat ∈ (List.range allCharsLen).reverse := by
      rw [List.mem_reverse, List.mem_range]
      exact c.toNat_lt
    refine absurd ?_ (h _ hmem)
    rw [UInt8.ofNat_toNat]
    exact beq_self_eq_true _

theorem symbol_cases {n k : ℕ} (h : t.fromUtf8Symbol src k = some (c, n)) :
    WellFormed src ∧ n = utf8Size (src.getD 0 0) ∧ n ≤ k := by
  rw [fromUtf8Symbol] at h
  split_ifs at h with hlen
  · cases hread : utf8ToUtf16 src with
    | none =>
      rw [hread] at h
      cases h
    | some r =>
      obtain ⟨⟨unit, low⟩, bytes⟩ := r
      rw [hread, Option.map_eq_some_iff] at h
      obtain ⟨c', -, heq⟩ := h
      obtain ⟨rfl, rfl⟩ := Prod.mk.inj heq
      refine ⟨wellFormed_of_utf8ToUcs4 ?_, rfl, Nat.le_of_not_lt hlen⟩
      cases hucs4 : utf8ToUcs4 src with
      | none =>
        rw [utf8ToUtf16, hucs4] at hread
        cases hread
      | some => rfl

theorem symbolStep_progress (t : Transcoder) : Scan.Progress t.symbolStep := by
  intro src out n h
  rw [symbolStep, Option.map_eq_some_iff] at h
  obtain ⟨⟨c, n'⟩, hsymbol, heq⟩ := h
  obtain ⟨-, rfl⟩ := Prod.mk.inj heq
  obtain ⟨hwell, rfl, -⟩ := symbol_cases hsymbol
  exact hwell.2.1

theorem callbackStep_progress (t : Transcoder) (cb : UInt8 → Option Bytes) :
    Scan.Progress (t.callbackStep cb) := by
  intro src out n h
  rw [callbackStep] at h
  split at h
  · cases h
    exact Nat.one_pos
  · exact t.symbolStep_progress src out n h

theorem fromUtf8Symbol_zero (t : Transcoder) (src : Bytes) : t.fromUtf8Symbol src 0 = none := by
  cases h : t.fromUtf8Symbol src 0 with
  | none => rfl
  | some r =>
    obtain ⟨hwell, hn, hle⟩ := symbol_cases h
    have := hwell.2.1
    omega

theorem fromUtf8Symbol_append (t : Transcoder) (src rest : Bytes) :
    t.fromUtf8Symbol (src ++ rest) src.length = t.fromUtf8Symbol src src.length := by
  cases src with
  | nil => rw [List.nil_append, List.length_nil, fromUtf8Symbol_zero, fromUtf8Symbol_zero]
  | cons b src =>
    rw [fromUtf8Symbol, fromUtf8Symbol]
    simp only [List.cons_append, List.getD_cons_zero]
    split_ifs with hlen
    · rfl
    · have hread := utf8ToUcs4_append (List.cons_ne_nil b src) (Nat.le_of_not_lt hlen) rest
      rw [List.cons_append] at hread
      rw [utf8ToUtf16, utf8ToUtf16, hread]

theorem fromUtf8_cons (hne : src ≠ []) :
    t.fromUtf8 src =
      match t.fromUtf8Symbol src src.length with
      | none => (false, [])
      | some (c, n) => ((t.fromUtf8 (src.drop n)).1, c :: (t.fromUtf8 (src.drop n)).2) := by
  cases h : t.fromUtf8Symbol src src.length with
  | none => exact Scan.run_none hne (by rw [symbolStep, h, Option.map_none])
  | some r => exact Scan.run_some t.symbolStep_progress hne (by rw [symbolStep, h, Option.map_some])

theorem fromUtf8_eq_nil : t.fromUtf8 src = (true, []) ↔ src = [] := by
  by_cases hne : src = []
  · subst hne
    exact ⟨fun _ => rfl, fun _ => Scan.run_nil⟩
  · rw [fromUtf8_cons hne]
    cases t.fromUtf8Symbol src src.length with
    | none => simp [hne]
    | some r => simp [hne]

theorem fromUtf8_eq_singleton {n : ℕ} (h : t.fromUtf8Symbol src src.length = some (c, n)) :
    t.fromUtf8 src = (true, [c]) ↔ n = src.length := by
  obtain ⟨hwell, hn, hle⟩ := symbol_cases h
  have hpos : 0 < n := hn ▸ hwell.2.1
  have hne : src ≠ [] := by
    rintro rfl
    exact absurd hpos (Nat.not_lt.mpr hle)
  have hrest : t.fromUtf8 (src.drop n) = (true, []) ↔ n = src.length := by
    rw [fromUtf8_eq_nil, List.drop_eq_nil_iff]
    exact ⟨fun hlen => Nat.le_antisymm hle hlen, fun heq => heq.ge⟩
  rw [fromUtf8_cons hne, h, ← hrest, Prod.ext_iff, Prod.ext_iff]
  simp only [List.cons.injEq, true_and]

/-- The overload for a pointer and a size does what the one for a string does. -/
def PointerAgrees (t : Transcoder) (s : Bytes) : Prop :=
  ∀ rest, t.fromUtf8Pointer (s ++ rest) s.length = t.fromUtf8 s

/-- The overload for a pointer stops after one symbol, and fails where there is none. -/
theorem pointer_agrees_iff (t : Transcoder) (s : Bytes) :
    t.PointerAgrees s ↔ s ≠ [] ∧ ∀ c n, t.fromUtf8Symbol s s.length = some (c, n) →
      n = s.length := by
  have hpointer : ∀ rest, t.fromUtf8Pointer (s ++ rest) s.length =
      match t.fromUtf8Symbol s s.length with
      | none => (false, [])
      | some (c, _) => (true, [c]) := fun rest => by
    rw [fromUtf8Pointer, fromUtf8Symbol_append]
  simp only [PointerAgrees, hpointer, forall_const]
  by_cases hne : s = []
  · subst hne
    rw [List.length_nil, fromUtf8Symbol_zero]
    simp [fromUtf8]
  · cases h : t.fromUtf8Symbol s s.length with
    | none =>
      rw [fromUtf8_cons hne, h]
      simp [hne]
    | some r =>
      obtain ⟨c, n⟩ := r
      have hsame := fromUtf8_eq_singleton h
      simp only [ne_eq, hne, not_false_eq_true, true_and, Option.some.injEq, Prod.mk.injEq]
      constructor
      · rintro heq c' n' ⟨rfl, rfl⟩
        exact hsame.mp heq.symm
      · intro hall
        exact (hsame.mpr (hall c n ⟨rfl, rfl⟩)).symm

/-- The code page 28591, named `l1`: every byte is the number of its character. -/
def latin1 : Transcoder := new UInt8.toUInt16

theorem getChar_of_injective (hinj : Function.Injective t.charToSingleUtf16Map) (c : UInt8) :
    t.getChar (t.charToSingleUtf16Map c) = some c := by
  obtain ⟨c', hget, hunit⟩ := t.exists_getChar c
  rw [hget, hinj hunit]

theorem latin1_injective : Function.Injective latin1.charToSingleUtf16Map := by
  intro c c' h
  have hnat := congrArg UInt16.toNat h
  exact UInt8.toNat_inj.mp hnat

theorem latin1_symbol {utf8 : Bytes} {n k : ℕ} (c : UInt8) (hsize : utf8Size (utf8.getD 0 0) = n)
    (hle : n ≤ k) (hread : utf8ToUtf16 utf8 = some ((c.toUInt16, none), n)) :
    latin1.fromUtf8Symbol utf8 k = some (c, n) := by
  have hget : latin1.getChar c.toUInt16 = some c := getChar_of_injective latin1_injective c
  rw [fromUtf8Symbol, hsize, if_neg (Nat.not_lt.mpr hle), hread]
  simp only [hget, Option.map_some]

/-- The second symbol is lost. -/
theorem pointer_stops_early : ¬latin1.PointerAgrees (ascii "ab") := by
  have hfirst : latin1.fromUtf8Symbol (ascii "ab") 2 = some (97, 1) :=
    latin1_symbol 97 rfl (by decide) (by decide)
  have hsecond : latin1.fromUtf8Symbol [98] 1 = some (98, 1) :=
    latin1_symbol 98 rfl (by decide) (by decide)
  intro h
  have hout := congrArg Prod.snd (h [])
  rw [List.append_nil, fromUtf8Pointer, fromUtf8_cons (by decide)] at hout
  simp only [show (ascii "ab").length = 2 from rfl, hfirst] at hout
  rw [show (ascii "ab").drop 1 = [98] from rfl, fromUtf8_cons (by decide)] at hout
  simp only [List.length_singleton, hsecond] at hout
  cases hout

theorem utf16ToUtf8_cases {utf8 : Bytes} {n : ℕ} (h : utf16ToUtf8 (unit, 0) = some (utf8, n))
    (hzero : unit ≠ 0) :
    n = utf8.length ∧ utf8Size (utf8.getD 0 0) = utf8.length ∧ 0 < utf8.length ∧
      ∀ rest, (utf8ToUtf16 (utf8 ++ rest)).map Prod.fst = some (unit, none) := by
  have hlow : unit.toNat ≤ 0xFFFD ∧ ucs4ToUtf8 unit.toNat = some (utf8, n) := by
    have hlt : ∀ {k}, unit < k → unit.toNat < k.toNat := UInt16.lt_iff_toNat_lt.mp
    rw [utf16ToUtf8, utf16ToUcs4] at h
    split_ifs at h with hbelow hhigh hpair htop
    · exact ⟨(hlt hbelow).le.trans (by decide), h⟩
    · exact absurd hpair (show ¬(decide ((0 : UInt16) ≥ 0xDC00) && decide ((0 : UInt16) < 0xE000)) =
        true by decide)
    · exact ⟨Nat.le_of_lt_succ (hlt htop), h⟩
  have hpos : 0 < unit.toNat := Nat.pos_of_ne_zero fun h0 => hzero (UInt16.toNat_inj.mp h0)
  obtain ⟨utf8', hwrite, hsize, hread⟩ := utf8ToUcs4_ucs4ToUtf8 hpos (by omega)
  obtain ⟨rfl, rfl⟩ := Prod.mk.inj (Option.some.inj (hwrite.symm.trans hlow.2))
  refine ⟨rfl, hsize, ?_, fun rest => ?_⟩
  · have hwell := wellFormed_of_utf8ToUcs4 (Option.isSome_of_eq_some (hread []))
    rw [List.append_nil] at hwell
    exact hsize ▸ hwell.2.1
  · have hunit : ucs4ToUtf16 unit.toNat = some (unit, none) := by
      rw [ucs4ToUtf16, if_pos hlow.1, UInt16.ofNat_toNat]
    rw [utf8ToUtf16, hread]
    simp only [hunit]
    rfl

/-- The loop of `FromUtf8` behind a symbol that `ToUtf8` has written. -/
theorem fromUtf8_unit {utf8 : Bytes} {n : ℕ} (h : utf16ToUtf8 (unit, 0) = some (utf8, n))
    (hzero : unit ≠ 0) (rest : Bytes) :
    t'.fromUtf8 (utf8.take n ++ rest) =
      match t'.getChar unit with
      | none => (false, [])
      | some c => ((t'.fromUtf8 rest).1, c :: (t'.fromUtf8 rest).2) := by
  obtain ⟨rfl, hsize, hpos, hread⟩ := utf16ToUtf8_cases h hzero
  have hne : utf8 ++ rest ≠ [] :=
    List.append_ne_nil_of_left_ne_nil (List.length_pos_iff.mp hpos) rest
  have hfirst : (utf8 ++ rest).getD 0 0 = utf8.getD 0 0 := by
    rw [List.getD_eq_getElem?_getD, List.getD_eq_getElem?_getD, List.getElem?_append_left hpos]
  have hsymbol : t'.fromUtf8Symbol (utf8 ++ rest) (utf8 ++ rest).length =
      (t'.getChar unit).map (·, utf8.length) := by
    obtain ⟨⟨⟨u, low⟩, k⟩, hr, heq⟩ := Option.map_eq_some_iff.mp (hread rest)
    obtain ⟨rfl, rfl⟩ := Prod.mk.inj heq
    rw [fromUtf8Symbol, hfirst, hsize, if_neg (by simp), hr]
  rw [List.take_length, fromUtf8_cons hne, hsymbol]
  cases t'.getChar unit with
  | none => rfl
  | some c => simp only [Option.map_some, List.drop_left]

theorem fromUtf8_toUtf8 (hzero : ∀ ch ∈ s, t.charToSingleUtf16Map ch ≠ 0)
    (hok : (t.toUtf8 s).1 = true) :
    t'.fromUtf8 (t.toUtf8 s).2 = t.transcode t' s := by
  induction s with
  | nil => rfl
  | cons ch s ih =>
    have hrest := ih fun c hc => hzero c (List.mem_cons_of_mem _ hc)
    cases h : utf16ToUtf8 (t.charToSingleUtf16Map ch, 0) with
    | none =>
      rw [toUtf8, h] at hok
      cases hok
    | some r =>
      obtain ⟨utf8, n⟩ := r
      rw [toUtf8, h] at hok ⊢
      rw [fromUtf8_unit h (hzero ch List.mem_cons_self), hrest hok, transcode]

theorem transcode_self (t : Transcoder) (s : Bytes) :
    ∃ r, t.transcode t s = (true, r) ∧ r.map t.charToSingleUtf16Map =
      s.map t.charToSingleUtf16Map := by
  induction s with
  | nil => exact ⟨[], rfl, rfl⟩
  | cons ch s ih =>
    obtain ⟨r, htranscode, hunits⟩ := ih
    obtain ⟨c, hget, hunit⟩ := t.exists_getChar ch
    refine ⟨c :: r, ?_, by rw [List.map_cons, List.map_cons, hunits, hunit]⟩
    rw [transcode, hget, htranscode]

/-- A text that `ToUtf8` accepts comes back, up to characters of the same unit, and on the way
through UTF-8 it becomes in another code page what `Transcode` makes of it. -/
theorem utf8_round_trip (t t' : Transcoder) (s : Bytes)
    (hzero : ∀ ch ∈ s, t.charToSingleUtf16Map ch ≠ 0) (hok : (t.toUtf8 s).1 = true) :
    (∃ r, t.fromUtf8 (t.toUtf8 s).2 = (true, r) ∧ r.length = s.length ∧
      r.map t.charToSingleUtf16Map = s.map t.charToSingleUtf16Map ∧
      (Function.Injective t.charToSingleUtf16Map → r = s)) ∧
    t.transcode t' s = t'.fromUtf8 (t.toUtf8 s).2 := by
  obtain ⟨r, htranscode, hunits⟩ := t.transcode_self s
  refine ⟨⟨r, (fromUtf8_toUtf8 hzero hok).trans htranscode, ?_, hunits, fun hinj => ?_⟩,
    (fromUtf8_toUtf8 hzero hok).symm⟩
  · have hlen := congrArg List.length hunits
    rwa [List.length_map, List.length_map] at hlen
  · exact List.map_injective_iff.mpr hinj hunits

theorem utf8_round_trip_latin1 :
    (latin1.toUtf8 [0x61, 0xE9]).2 = [0x61, 0xC3, 0xA9] ∧ latin1.fromUtf8 [0x61, 0xC3, 0xA9] =
      (true, [0x61, 0xE9]) := by
  refine ⟨by decide, ?_⟩
  have hzero : ∀ ch ∈ [(0x61 : UInt8), 0xE9], latin1.charToSingleUtf16Map ch ≠ 0 :=
    List.forall_mem_cons.mpr ⟨by decide, List.forall_mem_singleton.mpr (by decide)⟩
  obtain ⟨⟨r, hread, -, -, hsame⟩, -⟩ :=
    utf8_round_trip latin1 latin1 [0x61, 0xE9] hzero (by decide)
  rw [hsame latin1_injective] at hread
  exact hread

end Transcoder
end Nkit
