import Nkit.Dynamic.Ordering
import Mathlib.Data.Set.Finite.Basic

/-! When the comparison operators form an order.  Values of one type do, lists, dicts and tables
apart, and so do the values of a few types together; any other two types have values
on which the operators contradict each other. -/

namespace Nkit
open OrderedMap

/-- `is_hex_lower`. -/
def isHexLower (s : Bytes) : Bool := s.all fun c => (48 ≤ c && c ≤ 57) || (97 ≤ c && c ≤ 102)

def CellTree.type : CellTree → DynamicType
  | plain type _ => type.toDynamic
  | string _ => .string

namespace DynTree

/-- What every value of its type satisfies, NaN apart: truth values are zero or one, object
identifiers are 24 hexadecimal digits, and the cells of a table have the types of its columns. -/
def Proper : DynTree → Prop
  | plain .float w => Double.isNaN w = false
  | plain .bool w => w = 0 ∨ w = 1
  | oid s => s.length = 24 ∧ isHexLower s = true
  | table columns rows =>
    ∀ row ∈ rows, row.map CellTree.type = columns.map fun c => c.type.toDynamic
  | _ => True

/-- What an ordered container and the derived operators rely on. -/
structure Laws (lib : CLib) (a b c : DynTree) : Prop where
  asymm : ¬(a.lt lib b = true ∧ b.lt lib a = true)
  eq_symm : a.eq lib b = b.eq lib a
  gt_eq : a.gt lib b = b.lt lib a
  le_eq : a.le lib b = !b.lt lib a
  trans : a.lt lib b = true → b.lt lib c = true → a.lt lib c = true

/-- The laws hold for all values of these types. -/
def Lawful (lib : CLib) (S : Set DynamicType) : Prop :=
  ∀ a b c : DynTree, a.Proper → b.Proper → c.Proper → a.type ∈ S → b.type ∈ S → c.type ∈ S →
    Laws lib a b c

def families : List (List DynamicType) :=
  [[.undef, .none, .mongodbOid], [.string, .mongodbOid], [.integer, .unsignedInteger],
    [.integer, .bool], [.unsignedInteger, .dateTime], [.float]]

section Key
variable {K : Type*} [LT K] [LE K] [Std.IsLinearOrder K] [Std.LawfulOrderLT K] [DecidableLT K]
  [DecidableEq K]

theorem Laws.of_key (lib : CLib) (key : DynTree → K) {a b c : DynTree}
    (hlt : ∀ x ∈ [a, b, c], ∀ y ∈ [a, b, c], x.lt lib y = decide (key x < key y))
    (heq : ∀ x ∈ [a, b, c], ∀ y ∈ [a, b, c], x.eq lib y = decide (key x = key y)) :
    Laws lib a b c := by
  have hab := hlt a (by simp) b (by simp)
  have hba := hlt b (by simp) a (by simp)
  have hweak : StrictWeak fun x y : K => decide (x < y) := strictWeak_lt
  have hle : a.le lib b = !b.lt lib a := by
    rw [le, hab, hba, heq a (by simp) b (by simp)]
    cases h : decide (key b < key a) with
    | true =>
      have hne : key a ≠ key b := by
        intro heq
        rw [heq, hweak.irrefl] at h
        cases h
      simp [hweak.asymm h, hne]
    | false =>
      cases h' : decide (key a < key b) with
      | true => rfl
      | false =>
        have heq : key a = key b := equiv_lt_iff.mp (by simp [equiv, h, h'])
        simp [heq]
  refine ⟨fun h => ?_, ?_, ?_, hle, ?_⟩
  · rw [hab, hba] at h
    rw [hweak.asymm h.1] at h
    exact absurd h.2 Bool.false_ne_true
  · rw [heq a (by simp) b (by simp), heq b (by simp) a (by simp)]
    exact decide_eq_decide.mpr eq_comm
  · rw [gt, hle, Bool.not_not]
  · rw [hab, hlt b (by simp) c (by simp), hlt a (by simp) c (by simp)]
    exact hweak.trans

theorem lawful_of_key (lib : CLib) (key : DynTree → K) {S : Set DynamicType}
    (hlt : ∀ x y : DynTree, x.Proper → y.Proper → x.type ∈ S → y.type ∈ S →
      x.lt lib y = decide (key x < key y))
    (heq : ∀ x y : DynTree, x.Proper → y.Proper → x.type ∈ S → y.type ∈ S →
      x.eq lib y = decide (key x = key y)) :
    Lawful lib S := by
  intro a b c ha hb hc hat hbt hct
  have hall : ∀ x ∈ [a, b, c], x.Proper ∧ x.type ∈ S := by
    intro x hx
    simp only [List.mem_cons, List.not_mem_nil, or_false] at hx
    rcases hx with rfl | rfl | rfl
    · exact ⟨ha, hat⟩
    · exact ⟨hb, hbt⟩
    · exact ⟨hc, hct⟩
  exact Laws.of_key lib key
    (fun x hx y hy => hlt x y (hall x hx).1 (hall y hy).1 (hall x hx).2 (hall y hy).2)
    fun x hx y hy => heq x y (hall x hx).1 (hall y hy).1 (hall x hx).2 (hall y hy).2

end Key

def intKey : DynTree → ℤ
  | plain .unsignedInteger w => w.toNat
  | plain _ w => w.toInt
  | _ => 0

def wordKey : DynTree → ℕ
  | plain _ w => w.toNat
  | _ => 0

def textKey : DynTree → Bytes
  | string s | oid s => s
  | _ => []

/-- Undefined values come first, then `NONE`, then object identifiers. -/
def rankKey : DynTree → Bytes
  | plain .undef _ => [0]
  | plain .none _ => [1]
  | oid s => 2 :: s
  | _ => []

def doubleKey : DynTree → ℤ
  | plain _ w => Double.key w
  | _ => 0

theorem toInt_cases (w : BitVec 64) :
    w.toInt = w.toNat ∧ w.toNat < 2 ^ 63 ∨ w.toInt = w.toNat - 2 ^ 64 ∧ 2 ^ 63 ≤ w.toNat := by
  have := w.isLt
  rw [BitVec.toInt_eq_toNat_cond]
  split_ifs <;> omega

theorem eq_plain {x : DynTree} (t : PlainType) (h : x.type = t.toDynamic) : ∃ w, x = plain t w := by
  cases x with
  | plain type data =>
    obtain rfl : type = t := by cases type <;> cases t <;> first | rfl | cases h
    exact ⟨data, rfl⟩
  | string | oid | list | dict | table => cases t <;> cases h

theorem eq_string {x : DynTree} (h : x.type = .string) : ∃ s, x = string s := by
  cases x with
  | plain type data => cases type <;> cases h
  | string s => exact ⟨s, rfl⟩
  | oid | list | dict | table => cases h

theorem eq_oid {x : DynTree} (h : x.type = .mongodbOid) : ∃ s, x = oid s := by
  cases x with
  | plain type data => cases type <;> cases h
  | oid s => exact ⟨s, rfl⟩
  | string | list | dict | table => cases h

/-- A signed or an unsigned integer. -/
def IsInteger (x : DynTree) : Prop := x.type = .integer ∨ x.type = .unsignedInteger

theorem IsInteger.cases {x : DynTree} (h : x.IsInteger) :
    (∃ w, x = plain .integer w) ∨ ∃ w, x = plain .unsignedInteger w :=
  h.imp (eq_plain .integer) (eq_plain .unsignedInteger)

theorem lt_integers (lib : CLib) {x y : DynTree} (hx : x.IsInteger) (hy : y.IsInteger) :
    x.lt lib y = decide (x.intKey < y.intKey) := by
  rcases hx.cases with ⟨v, rfl⟩ | ⟨v, rfl⟩ <;> rcases hy.cases with ⟨w, rfl⟩ | ⟨w, rfl⟩ <;>
    have hv := toInt_cases v <;> have hw := toInt_cases w <;>
    simp only [lt, intKey, ← Bool.decide_or,
      ← Bool.decide_and] <;> refine decide_eq_decide.mpr ?_ <;> omega

theorem eq_integers (lib : CLib) {x y : DynTree} (hx : x.IsInteger) (hy : y.IsInteger) :
    x.eq lib y = decide (x.intKey = y.intKey) := by
  rcases hx.cases with ⟨v, rfl⟩ | ⟨v, rfl⟩ <;> rcases hy.cases with ⟨w, rfl⟩ | ⟨w, rfl⟩ <;>
    have hv := toInt_cases v <;> have hw := toInt_cases w <;>
    simp only [eq, eqPlain, intKey, beq_eq_decide,
      ← Bool.decide_and] <;> refine decide_eq_decide.mpr ?_ <;> omega

/-- All six operators compare the numbers two integers denote, whatever their types. -/
theorem integer_operators_exact (lib : CLib) {x y : DynTree} (hx : x.IsInteger) (hy : y.IsInteger) :
    x.lt lib y = decide (x.intKey < y.intKey) ∧ x.eq lib y = decide (x.intKey = y.intKey) ∧
    x.ne lib y = decide (x.intKey ≠ y.intKey) ∧ x.le lib y = decide (x.intKey ≤ y.intKey) ∧
    x.gt lib y = decide (x.intKey > y.intKey) ∧ x.ge lib y = decide (x.intKey ≥ y.intKey) := by
  have hlt := lt_integers lib hx hy
  have heq := eq_integers lib hx hy
  have hle : x.le lib y = decide (x.intKey ≤ y.intKey) := by
    rw [le, hlt, heq, ← Bool.decide_or]
    exact decide_eq_decide.mpr le_iff_lt_or_eq.symm
  refine ⟨hlt, heq, ?_, hle, ?_, ?_⟩
  · rw [ne, heq, ← decide_not]
  · rw [gt, hle, ← decide_not]
    exact decide_eq_decide.mpr not_le
  · rw [ge, hlt, ← decide_not]
    exact decide_eq_decide.mpr not_lt

theorem integer_operators_minus_one :
    (plain .integer (-1)).IsInteger ∧ (plain .unsignedInteger (-1)).IsInteger ∧
    (plain .integer (-1)).lt ⟨fun _ => 0, fun _ => [], fun _ => [], fun _ => 0, fun _ => 0⟩
      (plain .unsignedInteger (-1)) = true ∧
    (plain .unsignedInteger (-1)).eq ⟨fun _ => 0, fun _ => [], fun _ => [], fun _ => 0, fun _ => 0⟩
      (plain .integer (-1)) = false :=
  ⟨.inl rfl, .inr rfl, (integer_operators_exact _ (.inl rfl) (.inr rfl)).1.trans (by decide),
    (integer_operators_exact _ (.inr rfl) (.inl rfl)).2.1.trans (by decide)⟩

theorem lawful_integers (lib : CLib) : Lawful lib {.integer, .unsignedInteger} :=
  lawful_of_key lib intKey (fun _ _ _ _ => lt_integers lib) fun _ _ _ _ => eq_integers lib

theorem lawful_truth (lib : CLib) : Lawful lib {.integer, .bool} := by
  have hx : ∀ x : DynTree, x.type ∈ ({.integer, .bool} : Set DynamicType) →
      (∃ w, x = plain .integer w) ∨ ∃ w, x = plain .bool w := by
    rintro x (h | h)
    · exact .inl (eq_plain .integer h)
    · exact .inr (eq_plain .bool h)
  refine lawful_of_key lib intKey (fun x y _ _ htx hty => ?_) fun x y _ _ htx hty => ?_
  · rcases hx x htx with ⟨v, rfl⟩ | ⟨v, rfl⟩ <;> rcases hx y hty with ⟨w, rfl⟩ | ⟨w, rfl⟩ <;> rfl
  · rcases hx x htx with ⟨v, rfl⟩ | ⟨v, rfl⟩ <;> rcases hx y hty with ⟨w, rfl⟩ | ⟨w, rfl⟩ <;>
      exact beq_eq_decide _ _

theorem lawful_words (lib : CLib) : Lawful lib {.unsignedInteger, .dateTime} := by
  have hx : ∀ x : DynTree, x.type ∈ ({.unsignedInteger, .dateTime} : Set DynamicType) →
      (∃ w, x = plain .unsignedInteger w) ∨ ∃ w, x = plain .dateTime w := by
    rintro x (h | h)
    · exact .inl (eq_plain .unsignedInteger h)
    · exact .inr (eq_plain .dateTime h)
  refine lawful_of_key lib wordKey (fun x y _ _ htx hty => ?_) fun x y _ _ htx hty => ?_
  · rcases hx x htx with ⟨v, rfl⟩ | ⟨v, rfl⟩ <;> rcases hx y hty with ⟨w, rfl⟩ | ⟨w, rfl⟩ <;> rfl
  · rcases hx x htx with ⟨v, rfl⟩ | ⟨v, rfl⟩ <;> rcases hx y hty with ⟨w, rfl⟩ | ⟨w, rfl⟩ <;>
      exact beq_eq_decide _ _

theorem lawful_texts (lib : CLib) : Lawful lib {.string, .mongodbOid} := by
  have hx : ∀ x : DynTree, x.type ∈ ({.string, .mongodbOid} : Set DynamicType) →
      (∃ s, x = string s) ∨ ∃ s, x = oid s := by
    rintro x (h | h)
    · exact .inl (eq_string h)
    · exact .inr (eq_oid h)
  refine lawful_of_key lib textKey (fun x y _ _ htx hty => ?_) fun x y _ _ htx hty => ?_
  · rcases hx x htx with ⟨v, rfl⟩ | ⟨v, rfl⟩ <;> rcases hx y hty with ⟨w, rfl⟩ | ⟨w, rfl⟩ <;>
      exact decide_eq_decide.mpr Iff.rfl
  · rcases hx x htx with ⟨v, rfl⟩ | ⟨v, rfl⟩ <;> rcases hx y hty with ⟨w, rfl⟩ | ⟨w, rfl⟩ <;>
      exact beq_eq_decide _ _

theorem lawful_floats (lib : CLib) : Lawful lib {.float} := by
  refine lawful_of_key lib doubleKey (fun x y hpx hpy htx hty => ?_) fun x y hpx hpy htx hty => ?_
  · obtain ⟨v, rfl⟩ := eq_plain .float htx
    obtain ⟨w, rfl⟩ := eq_plain .float hty
    have hv : Double.isNaN v = false := hpx
    have hw : Double.isNaN w = false := hpy
    simp only [lt, getDouble, Double.lt, hv, hw, Bool.not_false, Bool.true_and]
    exact decide_eq_decide.mpr Iff.rfl
  · obtain ⟨v, rfl⟩ := eq_plain .float htx
    obtain ⟨w, rfl⟩ := eq_plain .float hty
    have hv : Double.isNaN v = false := hpx
    have hw : Double.isNaN w = false := hpy
    simp only [eq, eqPlain, getDouble, Double.eq, hv, hw, Bool.not_false, Bool.true_and]
    exact decide_eq_decide.mpr Iff.rfl

theorem lawful_ranks (lib : CLib) : Lawful lib {.undef, .none, .mongodbOid} := by
  have hx : ∀ x : DynTree, x.Proper → x.type ∈ ({.undef, .none, .mongodbOid} : Set DynamicType) →
      (∃ w, x = plain .undef w) ∨ (∃ w, x = plain .none w) ∨ ∃ s, x = oid s ∧ s ≠ [] := by
    rintro x hp (h | h | h)
    · exact .inl (eq_plain .undef h)
    · exact .inr (.inl (eq_plain .none h))
    · obtain ⟨s, rfl⟩ := eq_oid h
      refine .inr (.inr ⟨s, rfl, ?_⟩)
      rintro rfl
      exact absurd hp.1 (by decide)
  refine lawful_of_key lib rankKey (fun x y hpx hpy htx hty => ?_) fun x y hpx hpy htx hty => ?_
  · rcases hx x hpx htx with ⟨v, rfl⟩ | ⟨v, rfl⟩ | ⟨v, rfl, hv⟩ <;>
      rcases hx y hpy hty with ⟨w, rfl⟩ | ⟨w, rfl⟩ | ⟨w, rfl, hw⟩ <;>
      simp [lt, rankKey, getString, type, PlainType.toDynamic, DynamicType.code,
        List.cons_lt_cons_iff]
    -- two object identifiers are left
    exact decide_eq_decide.mpr Iff.rfl
  · rcases hx x hpx htx with ⟨v, rfl⟩ | ⟨v, rfl⟩ | ⟨v, rfl, hv⟩ <;>
      rcases hx y hpy hty with ⟨w, rfl⟩ | ⟨w, rfl⟩ | ⟨w, rfl, hw⟩ <;>
      simp_all [eq, eqPlain, rankKey, getString, type, PlainType.toDynamic, beq_eq_decide]

section Clash
variable {lib : CLib} {S : Set DynamicType} {a b : DynTree}

theorem Lawful.excludes (h : Lawful lib S) (ha : a.Proper) (hb : b.Proper) (hno : ¬Laws lib a b b)
    (hat : a.type ∈ S) :
    b.type ∉ S := fun hbt => hno (h a b b ha hb hb hat hbt hbt)

theorem not_laws_of_eq (h : a.eq lib b = true) (h' : b.eq lib a = false) : ¬Laws lib a b b := by
  intro hlaws
  rw [hlaws.eq_symm, h'] at h
  cases h

theorem not_laws_of_le (hlt : a.lt lib b = false) (heq : a.eq lib b = false)
    (h : b.lt lib a = false) :
    ¬Laws lib a b b := by
  intro hlaws
  have hle := hlaws.le_eq
  rw [le, hlt, heq, h] at hle
  cases hle

def zero : DynamicType → DynTree
  | .undef => plain .undef 0 | .none => plain .none 0 | .integer => plain .integer 0
  | .unsignedInteger =>
    plain .unsignedInteger 0 | .bool => plain .bool 0 | .dateTime => plain .dateTime 0
  | .float => plain .float 0 | .string => string [] | .mongodbOid => oid (List.replicate 24 48)
  | .list => list [] | .dict => dict [] | .table => table [] []

theorem zero_proper (t : DynamicType) : (zero t).Proper := by
  cases t with
  | mongodbOid => exact ⟨List.length_replicate, by decide⟩
  | bool => exact .inl rfl
  | float => exact (by decide : Double.isNaN 0 = false)
  | table => exact fun row hrow => absurd hrow List.not_mem_nil
  | undef | none | integer | unsignedInteger | dateTime | string | list | dict => trivial

theorem zero_type (t : DynamicType) : (zero t).type = t := by
  cases t <;> rfl

def zeroClashes : List (DynamicType × DynamicType) :=
  [(.undef, .string), (.undef, .integer), (.undef, .unsignedInteger), (.undef, .bool),
    (.undef, .dateTime),
    (.undef, .float), (.none, .string), (.none, .integer), (.none, .unsignedInteger),
    (.none, .bool), (.none, .dateTime),
    (.none, .float), (.mongodbOid, .integer), (.mongodbOid, .unsignedInteger), (.mongodbOid, .bool),
    (.string, .integer), (.string, .unsignedInteger), (.string, .bool)]

theorem zero_clash (lib : CLib) {p : DynamicType × DynamicType} (hp : p ∈ zeroClashes) :
    (zero p.2).eq lib (zero p.1) = true ∧ (zero p.1).eq lib (zero p.2) = false := by
  simp only [zeroClashes, List.mem_cons, List.not_mem_nil, or_false] at hp
  rcases hp with rfl | rfl | rfl | rfl | rfl | rfl | rfl | rfl | rfl | rfl | rfl | rfl | rfl | rfl
    | rfl | rfl | rfl |
    rfl <;> first | exact ⟨rfl, rfl⟩ | exact ⟨(by decide : Double.eq 0 0 = true), rfl⟩

def half : DynTree := plain .float 0x3FE0000000000000

theorem half_getInt (lib : CLib) : half.getInt lib = 0 ∧ half.getUInt lib = 0 := by
  have htrunc : Double.trunc 0x3FE0000000000000 = some 0 := by decide
  rw [half, getInt, getUInt, htrunc]
  exact ⟨rfl, rfl⟩

theorem half_clash (lib : CLib) {t : DynamicType}
    (ht : t ∈ [DynamicType.integer, .unsignedInteger, .bool, .dateTime]) :
    (zero t).eq lib half = true ∧ half.eq lib (zero t) = false := by
  have hne : Double.eq 0x3FE0000000000000 (Double.ofInt 0) = false := by decide
  obtain ⟨hint, huint⟩ := half_getInt lib
  simp only [List.mem_cons, List.not_mem_nil, or_false] at ht
  rcases ht with rfl | rfl | rfl | rfl
  · exact ⟨beq_iff_eq.mpr hint.symm, hne⟩
  · exact ⟨beq_iff_eq.mpr huint.symm, hne⟩
  · exact ⟨beq_iff_eq.mpr hint.symm, hne⟩
  · exact ⟨beq_iff_eq.mpr huint.symm, hne⟩

theorem text_clash (lib : CLib) (x : DynTree) (s s' : Bytes) (f : Bytes → DynTree) (hs : s ≠ s')
    (hx : ∀ s, (f s).eq lib x = (s == x.getString lib)) (h : x.eq lib (f s) = true)
    (h' : x.eq lib (f s') = true) :
    ¬Laws lib x (f s) (f s) ∨ ¬Laws lib x (f s') (f s') := by
  by_cases heq : s = x.getString lib
  · refine .inr (not_laws_of_eq h' ?_)
    rw [hx, ← heq]
    exact beq_false_of_ne hs.symm
  · exact .inl (not_laws_of_eq h ((hx s).trans (beq_false_of_ne heq)))

theorem float_string_clash (lib : CLib) :
    ∃ w s, Double.isNaN w = false ∧ ¬Laws lib (plain .float w) (string s) (string s) := by
  set p := lib.printFloat 0
  have hfinite : Finite (BitVec 64) := Finite.of_injective BitVec.toFin fun _ _ =>
    BitVec.eq_of_toFin_eq
  have hinj : Function.Injective fun n : ℕ => p ++ List.replicate n 48 := by
    intro n n' h
    simpa using List.append_cancel_left h
  obtain ⟨s, ⟨n, rfl⟩, hs⟩ : ∃ s ∈ Set.range fun n : ℕ => p ++ List.replicate n 48, s ∉
      Set.range lib.printFloat :=
    (Set.infinite_range_of_injective hinj).exists_notMem_finite (Set.finite_range _)
  set s := p ++ List.replicate n 48
  by_cases hnan : Double.isNaN (lib.strtod (Tools.cStr s)) = true
  · -- no double equals it or comes before it, and zero does not come after it either
    refine ⟨0, s, by decide, not_laws_of_le ?_ ?_ ?_⟩
    · simp only [lt, getDouble, Double.lt, hnan, Bool.not_true, Bool.and_false, Bool.false_and]
    · simp only [eq, eqPlain, getDouble, Double.eq, hnan, Bool.not_true, Bool.and_false,
        Bool.false_and]
    · exact decide_eq_false (List.not_lt.mpr List.le_append_left)
  · refine ⟨lib.strtod (Tools.cStr s), s, Bool.eq_false_of_not_eq_true hnan, not_laws_of_eq ?_ ?_⟩
    · simp only [eq, eqPlain, getDouble, Double.eq, Bool.eq_false_of_not_eq_true hnan,
        Bool.not_false, Bool.true_and, decide_true]
    · exact beq_false_of_ne fun h => hs ⟨_, h.symm⟩

theorem container_clash (lib : CLib) {t : DynamicType}
    (ht : t ∈ [DynamicType.list, .dict, .table]) :
    ∃ b : DynTree, b.Proper ∧ b.type = t ∧ ¬Laws lib (zero t) b b := by
  simp only [List.mem_cons, List.not_mem_nil, or_false] at ht
  rcases ht with rfl | rfl | rfl
  · exact ⟨list [plain .undef 0], trivial, rfl, not_laws_of_le rfl rfl rfl⟩
  · exact ⟨dict [([], plain .undef 0)], trivial, rfl, not_laws_of_le rfl rfl rfl⟩
  · refine ⟨table [⟨ascii "n", .integer⟩] [[.plain .integer 0]], fun row hrow => ?_, rfl,
      not_laws_of_le rfl rfl rfl⟩
    rw [List.mem_singleton.mp hrow]
    rfl

def together (t t' : DynamicType) : Bool := families.any fun f => f.contains t && f.contains t'

theorem sign_clash (lib : CLib) :
    ¬Laws lib (plain .integer (-1)) (plain .dateTime 0) (plain .dateTime 0) ∧
    ¬Laws lib (plain .bool 1) (plain .unsignedInteger 0x8000000000000000)
      (plain .unsignedInteger 0x8000000000000000) ∧
    -- the first day of the year 40000
    ¬Laws lib (plain .bool 1) (plain .dateTime 0x9C40108000000000)
      (plain .dateTime 0x9C40108000000000) := by
  refine ⟨fun h => h.asymm ⟨?_, ?_⟩, not_laws_of_le ?_ ?_ ?_, not_laws_of_le ?_ ?_ ?_⟩ <;>
    simp only [lt, eq, eqPlain, getInt, getUInt] <;>
    first | exact decide_eq_true (by decide) | exact decide_eq_false (by decide)

theorem Lawful.not_float_text (h : Lawful lib S) (hf : .float ∈ S) :
    .string ∉ S ∧ .mongodbOid ∉ S := by
  refine ⟨?_, fun ho => ?_⟩
  · obtain ⟨w, s, hw, hno⟩ := float_string_clash lib
    exact h.excludes (a := plain .float w) (b := string s) hw trivial hno hf
  · have hzero : Double.eq 0 0 = true := by decide
    rcases text_clash lib (plain .float 0) (List.replicate 24 48) (List.replicate 24 102) oid
      (by decide)
      (fun _ => rfl) hzero hzero with hno | hno
    · exact h.excludes (b := oid _) (zero_proper .float) ⟨List.length_replicate, by decide⟩ hno
        hf ho
    · exact h.excludes (b := oid _) (zero_proper .float) ⟨List.length_replicate, by decide⟩ hno
        hf ho

theorem Lawful.not_date_text (h : Lawful lib S) (hd : .dateTime ∈ S) :
    .string ∉ S ∧ .mongodbOid ∉ S := by
  refine ⟨fun hs => ?_, fun ho => ?_⟩
  · rcases text_clash lib (plain .dateTime 0) [] [48] string (by decide) (fun _ => rfl) rfl rfl
      with hno | hno
    · exact h.excludes (a := plain .dateTime 0) (b := string _) trivial trivial hno hd hs
    · exact h.excludes (a := plain .dateTime 0) (b := string _) trivial trivial hno hd hs
  · rcases text_clash lib (plain .dateTime 0) (List.replicate 24 48) (List.replicate 24 102) oid
      (by decide)
      (fun _ => rfl) rfl rfl with hno | hno
    · exact h.excludes (a := plain .dateTime 0) (b := oid _) trivial
        ⟨List.length_replicate, by decide⟩ hno hd ho
    · exact h.excludes (a := plain .dateTime 0) (b := oid _) trivial
        ⟨List.length_replicate, by decide⟩ hno hd ho

def clashes : List (DynamicType × DynamicType) :=
  zeroClashes ++ [(.integer, .float), (.unsignedInteger, .float), (.bool, .float),
    (.dateTime, .float), (.float, .string),
    (.float, .mongodbOid), (.dateTime, .string), (.dateTime, .mongodbOid), (.integer, .dateTime),
    (.bool, .unsignedInteger), (.bool, .dateTime)]

theorem Lawful.not_clash (h : Lawful lib S) {p : DynamicType × DynamicType} (hp : p ∈ clashes)
    (h1 : p.1 ∈ S) : p.2 ∉ S := by
  intro h2
  rcases List.mem_append.mp hp with hp | hp
  · obtain ⟨heq, hne⟩ := zero_clash lib hp
    exact h.excludes (zero_proper _) (zero_proper _) (not_laws_of_eq heq hne)
      ((zero_type _).symm ▸ h2)
      ((zero_type _).symm ▸ h1)
  have hhalf : ∀ c ∈ [DynamicType.integer, .unsignedInteger, .bool, .dateTime], c ∈ S →
      .float ∉ S := by
    intro c hc hin
    obtain ⟨heq, hne⟩ := half_clash lib hc
    exact h.excludes (b := half) (zero_proper _) (by decide : Double.isNaN _ = false)
      (not_laws_of_eq heq hne)
      ((zero_type _).symm ▸ hin)
  obtain ⟨hdate, hunsigned, hbool⟩ := sign_clash lib
  simp only [List.mem_cons, List.not_mem_nil, or_false] at hp
  rcases hp with rfl | rfl | rfl | rfl | rfl | rfl | rfl | rfl | rfl | rfl | rfl
  · exact hhalf .integer (by decide) h1 h2
  · exact hhalf .unsignedInteger (by decide) h1 h2
  · exact hhalf .bool (by decide) h1 h2
  · exact hhalf .dateTime (by decide) h1 h2
  · exact (h.not_float_text h1).1 h2
  · exact (h.not_float_text h1).2 h2
  · exact (h.not_date_text h1).1 h2
  · exact (h.not_date_text h1).2 h2
  · exact h.excludes (a := plain .integer (-1)) (b := plain .dateTime 0) trivial trivial hdate h1 h2
  · exact h.excludes (a := plain .bool 1) (b := plain .unsignedInteger _) (.inr rfl) trivial
      hunsigned h1 h2
  · exact h.excludes (a := plain .bool 1) (b := plain .dateTime _) (.inr rfl) trivial hbool h1 h2

theorem Lawful.together (h : Lawful lib S) {t t' : DynamicType} (ht : t ∈ S) (ht' : t' ∈ S) :
    together t t' = true := by
  have hcontainer : ∀ c ∈ [DynamicType.list, .dict, .table], c ∉ S := by
    intro c hc hin
    obtain ⟨b, hb, rfl, hno⟩ := container_clash lib hc
    exact h.excludes (zero_proper _) hb hno ((zero_type _).symm ▸ hin) hin
  have hcases : DynTree.together t t' = true ∨ t ∈ [DynamicType.list, .dict, .table] ∨
    t' ∈ [DynamicType.list, .dict, .table] ∨
      (t, t') ∈ clashes ∨ (t', t) ∈ clashes := by
    cases t <;> cases t' <;> decide
  rcases hcases with htogether | hc | hc | hc | hc
  · exact htogether
  · exact absurd ht (hcontainer t hc)
  · exact absurd ht' (hcontainer t' hc)
  · exact absurd ht' (h.not_clash hc ht)
  · exact absurd ht (h.not_clash hc ht')

end Clash

/-- The operators obey the laws on all values of some types exactly if the types are all in one of
the families. -/
theorem lawful_iff_family (lib : CLib) (S : Set DynamicType) :
    Lawful lib S ↔ ∃ f ∈ families, ∀ t ∈ S, t ∈ f := by
  constructor
  · intro h
    have honly : ∀ {t₀ : DynamicType} (f : List DynamicType), t₀ ∈ S →
        (∀ t, together t₀ t = true → t ∈ f) → ∀ t ∈ S, t ∈ f :=
      fun f h₀ hf t ht => hf t (h.together h₀ ht)
    by_cases hfloat : .float ∈ S
    · exact ⟨[.float], by decide, honly _ hfloat (by intro t; cases t <;> decide)⟩
    by_cases hstring : .string ∈ S
    · exact ⟨[.string, .mongodbOid], by decide, honly _ hstring (by intro t; cases t <;> decide)⟩
    by_cases hdate : .dateTime ∈ S
    · exact ⟨[.unsignedInteger, .dateTime], by decide,
        honly _ hdate (by intro t; cases t <;> decide)⟩
    by_cases hbool : .bool ∈ S
    · exact ⟨[.integer, .bool], by decide, honly _ hbool (by intro t; cases t <;> decide)⟩
    by_cases hnumber : .integer ∈ S ∨ .unsignedInteger ∈ S
    · refine ⟨[.integer, .unsignedInteger], by decide, fun t ht => ?_⟩
      have hor : together .integer t = true ∨ together .unsignedInteger t = true :=
        hnumber.imp (fun h' => h.together h' ht) fun h' => h.together h' ht
      cases t <;> first | decide | exact absurd ht ‹_› | (revert hor; decide)
    · refine ⟨[.undef, .none, .mongodbOid], by decide, fun t ht => ?_⟩
      have hself := h.together ht ht
      obtain ⟨hinteger, hunsigned⟩ := not_or.mp hnumber
      cases t <;> first | decide | exact absurd ht ‹_› | exact absurd hself (by decide)
  · rintro ⟨f, hf, hS⟩
    have hmono : ∀ {T : Set DynamicType}, Lawful lib T → (∀ t ∈ f, t ∈ T) → Lawful lib S :=
      fun hT hsub a b c ha hb hc hat hbt hct =>
        hT a b c ha hb hc (hsub _ (hS _ hat)) (hsub _ (hS _ hbt)) (hsub _ (hS _ hct))
    simp only [families, List.mem_cons, List.not_mem_nil, or_false] at hf
    rcases hf with rfl | rfl | rfl | rfl | rfl | rfl
    · exact hmono (lawful_ranks lib) (by simp)
    · exact hmono (lawful_texts lib) (by simp)
    · exact hmono (lawful_integers lib) (by simp)
    · exact hmono (lawful_truth lib) (by simp)
    · exact hmono (lawful_words lib) (by simp)
    · exact hmono (lawful_floats lib) (by simp)

/-- The text `10` is before the number 9 as a text, and 9 is before `10` as a number. -/
theorem not_lawful_text_number :
    ¬∃ lib : CLib, ∀ a b c : DynTree, a.Proper → b.Proper → c.Proper → Laws lib a b c := by
  rintro ⟨lib, h⟩
  have hlaws := h (string (ascii "10")) (plain .integer 9) (plain .integer 9) trivial trivial
    trivial
  have hlt : (string (ascii "10")).lt lib (plain .integer 9) = true := by
    simp only [lt, getString]
    exact decide_eq_true (by decide)
  have hgt : (plain .integer 9).lt lib (string (ascii "10")) = true := by
    simp only [lt, getInt]
    exact decide_eq_true (by decide)
  exact hlaws.asymm ⟨hlt, hgt⟩

end DynTree

end Nkit
