import Nkit.Dynamic.Clone
import Nkit.Dynamic.Integers

/-! The arithmetic operators of values.  The left type alone picks the implementation, which changes
its operand in place; the operators without assignment work on a clone. -/

namespace Nkit

inductive Operator where
  | add | sub | mul | div
deriving DecidableEq, Repr

/-- The largest sizes `reserve` can provide. -/
structure Limits where
  vector : ℕ
  string : ℕ

/-- `Impl<FLOAT>::OP_ADD` and the other three. -/
def floatOperation (op : Operator) (v rv : BitVec 64) : Option (BitVec 64) :=
  let lv := (Data.word v).f
  let d := (Data.word rv).f
  match op with
  | .add => some (Data.ofFloat (lv + d)).bits
  | .sub => some (Data.ofFloat (lv - d)).bits
  | .mul => some (Data.ofFloat (lv * d)).bits
  | .div => if Double.eq rv 0 then none else some (Data.ofFloat (lv / d)).bits

/-- `Impl<INTEGER>::OP_ADD` and the other three; `none` is the result `false`. -/
def intOperation (lib : CLib) (op : Operator) (lv : BitVec 64) (rv : DynTree) :
    Except Fault (Option (BitVec 64)) :=
  match op with
  | .add => .ok (some (IntOperations.addInt lib lv rv))
  | .sub => .ok (some (IntOperations.subInt lib lv rv))
  | .mul => .ok (IntOperations.mulInt lib lv rv)
  | .div => IntOperations.divInt lib lv rv

/-- `Impl<UNSIGNED_INTEGER>::OP_ADD` and the other three. -/
def uintOperation (lib : CLib) (op : Operator) (lv : BitVec 64) (rv : DynTree) :
    Option (BitVec 64) :=
  match op with
  | .add => some (IntOperations.addUInt lib lv rv)
  | .sub => some (IntOperations.subUInt lib lv rv)
  | .mul => IntOperations.mulUInt lib lv rv
  | .div => IntOperations.divUInt lib lv rv

/-- `OP_GET_SIZE` of a string or a list. -/
def DynTree.size : DynTree → ℕ
  | string s => s.length
  | list ts => ts.length
  | _ => 0

/-- `new_size` of `OP_SUB`. -/
def truncatedSize (oldSize truncateBy : ℕ) : ℕ :=
  if oldSize ≤ truncateBy then 0 else oldSize - truncateBy

/-- `new_size` of `OP_DIV`. -/
def dividedSize (oldSize divideBy : ℕ) : ℕ := (oldSize - oldSize % divideBy) / divideBy

/-- `int32_t repeat_count = (uint32_t) ..`. -/
def repeatCount (count : BitVec 64) : ℤ := (count.setWidth 32).toInt

/-- `reserve(old.size() * repeat_count)`: the product is a `size_t`. -/
def reserve (limit oldSize : ℕ) (count : ℤ) : Except Fault Unit :=
  if limit < (oldSize * count % 2 ^ 64).toNat then .error .length else .ok ()

/-- The loop of `OP_MUL`. -/
def repeated {α : Type*} (old : List α) (count : ℤ) : List α :=
  (List.range count.toNat).foldl (fun tmp _ => tmp ++ old) []

namespace Store
variable (lib : CLib) (limits : Limits)

def view (d : Dyn) (m : Store) : DynTree :=
  match d with
  | .plain type data => .plain type data
  | .shared a =>
    match m.objs a with
    | none => .undef
    | some (.string s) => .string s
    | some (.oid s) => .oid s
    | some (.vector _) => .list []
    | some (.map _) => .dict []
    | some (.table columns _) => .table columns []

/-- `Impl<STRING>::GetString`: `shared_string_` with what it points to. -/
def getString (d : Dyn) (m : Store) : Except Fault (ℕ × Bytes) :=
  match d, m.get d with
  | .shared a, some (.string s) => .ok (a, s)
  | _, _ => .error .member

/-- `Impl<LIST>::GetVector`: `shared_vector_` with what it points to. -/
def getVector (d : Dyn) (m : Store) : Except Fault (ℕ × List Dyn) :=
  match d, m.get d with
  | .shared a, some (.vector items) => .ok (a, items)
  | _, _ => .error .member

/-- `Impl<STRING>::OP_ADD` and the other three. -/
def stringOperation (op : Operator) (v rv : Dyn) (m : Store) :
    Except Fault (Option (Dyn × Store)) := do
  let (a, old) ← m.getString v
  match op with
  | .add => pure (some (v, m.put a (.string (old ++ (m.view rv).getString lib))))
  | .sub =>
    pure (some (v,
      m.put a (.string (old.take (truncatedSize old.length ((m.view rv).getUInt lib))))))
  | .mul =>
    let count := repeatCount (BitVec.ofNat 64 ((m.view rv).getUInt lib))
    reserve limits.string old.length count
    pure (some (v, m.put a (.string (repeated old count))))
  | .div =>
    let divideBy := (m.view rv).getUInt lib
    if divideBy = 0 then pure none
    else pure (some (v, m.put a (.string (old.take (dividedSize old.length divideBy)))))

/-- `Impl<LIST>::Extend`, with both operands read as vectors. -/
def extend (v rv : Dyn) (m : Store) : Except Fault (Dyn × Store) := do
  let (a, target) ← m.getVector v
  let (b, source) ← m.getVector rv
  -- the range `[from.begin(), from.end())` is of the vector that grows
  if a = b ∧ source ≠ [] then throw .iterator
  else pure (v, m.put a (.vector (target ++ source)))

/-- `Impl<LIST>::OP_ADD` and the other three. -/
def listOperation (op : Operator) (v rv : Dyn) (m : Store) : Except Fault (Option (Dyn × Store)) :=
  match op with
  | .add => some <$> m.extend v rv
  | .sub => do
    let (a, old) ← m.getVector v
    pure (some (v,
      m.put a (.vector (old.take (truncatedSize old.length ((m.view rv).getUInt lib))))))
  | .mul => do
    let (a, old) ← m.getVector v
    let count := repeatCount (BitVec.ofInt 64 ((m.view rv).getInt lib))
    reserve limits.vector old.length count
    pure (some (v, m.put a (.vector (repeated old count))))
  | .div => do
    let divideBy := (m.view rv).getUInt lib
    if divideBy = 0 then pure none
    else
      let (a, old) ← m.getVector v
      pure (some (v, m.put a (.vector (old.take (dividedSize old.length divideBy)))))

/-- `Operation<..>::farray[type_][v.type_](data_, v.data_)`; `none` is the result `false`. -/
def operation (op : Operator) (v rv : Dyn) (m : Store) : Except Fault (Option (Dyn × Store)) :=
  match m.view v with
  | .plain .integer lv => do
    let w ← intOperation lib op lv (m.view rv)
    pure (w.map fun w => (.plain .integer w, m))
  | .plain .unsignedInteger lv =>
    .ok ((uintOperation lib op lv (m.view rv)).map fun w => (.plain .unsignedInteger w, m))
  | .plain .float lv =>
    .ok ((floatOperation op lv ((m.view rv).getDouble lib)).map fun w => (.plain .float w, m))
  | .string _ => m.stringOperation lib limits op v rv
  | .list _ => m.listOperation lib limits op v rv
  -- `ImplDefault`
  | .plain .undef _ | .plain .bool _ | .plain .dateTime _ | .plain .none _ | .oid _ | .dict _
      | .table .. => .ok (some (v, m))

/-- `detail::is_ref_counted(type_) ? Clone() : *this`. -/
def leftCopy (fuel : ℕ) (v : Dyn) (m : Store) : Except Fault (Dyn × Store) :=
  if v.isRefCounted then (m.clone fuel v).elim (.error .nesting) .ok else .ok (v, m)

/-- `Dynamic::operator +` and the other three. -/
def binary (fuel : ℕ) (op : Operator) (v rv : Dyn) (m : Store) : Except Fault (Dyn × Store) := do
  let (result, m) ← m.leftCopy fuel v
  let done ← m.operation lib limits op result rv
  pure (done.getD (.undef, m))

/-- `Dynamic::operator +=` and the other three, with what they leave in the left operand. -/
def assignment (op : Operator) (v rv : Dyn) (m : Store) : Except Fault (Dyn × Store) := do
  let done ← m.operation lib limits op v rv
  pure (done.getD (.undef, m))

end Store

section Whole
variable (lib : CLib) (limits : Limits) (fuel : ℕ) (m : Store) (op : Operator)

theorem binary_plain (type : PlainType) (v : BitVec 64) (rv : Dyn) :
    m.binary lib limits fuel op (.plain type v) rv = m.assignment lib limits op (.plain type v)
      rv := rfl

/-- The word stands for the number modulo `2 ^ 64`, and for the number itself where there is a word
for it. -/
def WholeType.Approximates (t : WholeType) (w : BitVec 64) (n : ℤ) : Prop :=
  t.value w ≡ n [ZMOD 2 ^ 64] ∧ (t.Holds n → t.value w = n)

theorem WholeType.approximates {t : WholeType} {w : BitVec 64} {n : ℤ}
    (h : t.value w ≡ n [ZMOD 2 ^ 64]) :
    t.Approximates w n := ⟨h, t.value_eq h⟩

variable (t t' : WholeType) (v w : BitVec 64)

theorem assignment_add :
    m.assignment lib limits .add (.plain t v) (.plain t' w) = .ok (.plain t (v + w), m) := by
  cases t with
  | integer =>
    show Except.ok (Dyn.plain .integer (IntOperations.addInt lib v (.plain t' w)), m) = _
    rw [IntOperations.addInt_whole]
    rfl
  | unsignedInteger =>
    show Except.ok (Dyn.plain .unsignedInteger (IntOperations.addUInt lib v (.plain t' w)), m) = _
    rw [IntOperations.addUInt_whole]
    rfl

theorem assignment_sub :
    m.assignment lib limits .sub (.plain t v) (.plain t' w) = .ok (.plain t (v - w), m) := by
  cases t with
  | integer =>
    show Except.ok (Dyn.plain .integer (IntOperations.subInt lib v (.plain t' w)), m) = _
    rw [IntOperations.subInt_whole]
    rfl
  | unsignedInteger =>
    show Except.ok (Dyn.plain .unsignedInteger (IntOperations.subUInt lib v (.plain t' w)), m) = _
    rw [IntOperations.subUInt_whole]
    rfl

theorem assignment_mul :
    m.assignment lib limits .mul (.plain t v) (.plain t' w) =
      .ok (if t = .unsignedInteger ∧ t'.value w < 0 then .undef else .plain t (v * w), m) := by
  cases t with
  | integer =>
    have hint : ¬(WholeType.integer = .unsignedInteger ∧ t'.value w < 0) := fun h => nomatch h.1
    show Except.ok
      (((IntOperations.mulInt lib v (.plain t' w)).map fun w => (Dyn.plain .integer w, m)).getD
        (.undef, m)) = _
    rw [IntOperations.mulInt_whole, if_neg hint]
    rfl
  | unsignedInteger =>
    show Except.ok
      (((IntOperations.mulUInt lib v (.plain t' w)).map fun w =>
        (Dyn.plain .unsignedInteger w, m)).getD
      (.undef, m)) = _
    rw [IntOperations.mulUInt_whole]
    by_cases hneg : t'.value w < 0
    · rw [if_pos hneg, if_pos ⟨rfl, hneg⟩]
      rfl
    · rw [if_neg hneg, if_neg fun h => hneg h.2]
      rfl

/-- Sums, differences and products of whole numbers have the left type and are exact modulo `2 ^
64`, except that an unsigned number times a negative one is undefined. -/
theorem arithmetic_exact :
    (∃ s, m.binary lib limits fuel .add (.plain t v) (.plain t' w) = .ok (.plain t s, m) ∧
      t.Approximates s (t.value v + t'.value w)) ∧
    (∃ d, m.binary lib limits fuel .sub (.plain t v) (.plain t' w) = .ok (.plain t d, m) ∧
      t.Approximates d (t.value v - t'.value w)) ∧
    (if t = .unsignedInteger ∧ t'.value w < 0 then
      m.binary lib limits fuel .mul (.plain t v) (.plain t' w) = .ok (.undef, m)
    else ∃ p, m.binary lib limits fuel .mul (.plain t v) (.plain t' w) = .ok (.plain t p, m) ∧
      t.Approximates p (t.value v * t'.value w)) ∧
    ∀ op ∈ [Operator.add, .sub, .mul],
      m.assignment lib limits op (.plain t v) (.plain t' w) =
        m.binary lib limits fuel op (.plain t v) (.plain t' w) := by
  refine ⟨⟨v + w, assignment_add .., WholeType.approximates (t.value_add t' v w)⟩,
    ⟨v - w, assignment_sub .., WholeType.approximates (t.value_sub t' v w)⟩, ?_, fun op _ => rfl⟩
  rw [binary_plain, assignment_mul]
  split_ifs with h
  · rfl
  · exact ⟨v * w, rfl, WholeType.approximates (t.value_mul t' v w)⟩

def WholeType.Refuses : Prop := t'.value w = 0 ∨ (t = .unsignedInteger ∧ t'.value w < 0)

/-- The result of a division: the quotient rounded toward zero, in the left type. -/
structure WholeType.IsQuotient (r : Dyn) : Prop where
  refused : WholeType.Refuses t t' w → r = .undef
  exact : ¬WholeType.Refuses t t' w → ∃ q, r = .plain t q ∧
    t.value q = (t.value v).tdiv (t'.value w)

theorem assignment_div_integer (v : BitVec 64) (type : PlainType) (w : BitVec 64) :
    m.assignment lib limits .div (.plain .integer v) (.plain type w) =
      (IntOperations.divInt lib v (.plain type w)).map fun q =>
        ((q.map (Dyn.plain .integer)).getD .undef, m) := by
  show (IntOperations.divInt lib v (.plain type w) >>= fun w =>
    pure (w.map fun w => (Dyn.plain .integer w, m))) >>= _ = _
  cases IntOperations.divInt lib v (.plain type w) with
  | error e => rfl
  | ok q => cases q <;> rfl

theorem assignment_div_unsigned (v : BitVec 64) (type : PlainType) (w : BitVec 64) :
    m.assignment lib limits .div (.plain .unsignedInteger v) (.plain type w) =
      .ok (((IntOperations.divUInt lib v (.plain type w)).map (Dyn.plain .unsignedInteger)).getD
        .undef, m) := by
  show Except.ok
    (((IntOperations.divUInt lib v (.plain type w)).map fun w =>
      (Dyn.plain .unsignedInteger w, m)).getD (.undef, m)) = _
  cases IntOperations.divUInt lib v (.plain type w) <;> rfl

theorem assignment_div_overflow {v w : BitVec 64} {t' : WholeType}
    (h : IntOperations.Overflows v t' w) :
    m.assignment lib limits .div (.plain .integer v) (.plain t' w) = .error .signed := by
  refine (assignment_div_integer ..).trans ?_
  rw [IntOperations.divInt_overflow lib h]
  rfl

theorem WholeType.value_eq_zero {t : WholeType} {w : BitVec 64} : t.value w = 0 ↔ w = 0 := by
  cases t with
  | integer => exact BitVec.toInt_inj (y := 0)
  | unsignedInteger =>
    show ((w.toNat : ℤ) = 0) ↔ _
    rw [Int.natCast_eq_zero]
    exact BitVec.toNat_inj (y := 0)

theorem assignment_div {v w : BitVec 64} {t t' : WholeType}
    (h : ¬(t = .integer ∧ IntOperations.Overflows v t' w)) :
    ∃ r, m.assignment lib limits .div (.plain t v) (.plain t' w) = .ok (r, m) ∧
      WholeType.IsQuotient t t' v w r := by
  cases t with
  | integer =>
    by_cases hw : w = 0
    · subst hw
      have hrefused : WholeType.Refuses .integer t' 0 := .inl (WholeType.value_eq_zero.mpr rfl)
      refine ⟨.undef, ?_, fun _ => rfl, fun hno => absurd hrefused hno⟩
      refine (assignment_div_integer ..).trans ?_
      rw [IntOperations.divInt_zero]
      rfl
    · obtain ⟨q, hq, hvalue⟩ := IntOperations.divInt_exact lib (fun ho => h ⟨rfl, ho⟩) hw
      refine ⟨.plain .integer q, ?_, ?_, fun _ => ⟨q, rfl, hvalue⟩⟩
      · refine (assignment_div_integer ..).trans ?_
        rw [hq]
        rfl
      · rintro (hz | ⟨hu, -⟩)
        · exact absurd (WholeType.value_eq_zero.mp hz) hw
        · cases hu
  | unsignedInteger =>
    by_cases hpos : 0 < t'.value w
    · obtain ⟨q, hq, hvalue⟩ := IntOperations.divUInt_exact lib v hpos
      refine ⟨.plain .unsignedInteger q, ?_, ?_, fun _ => ⟨q, rfl, hvalue⟩⟩
      · refine (assignment_div_unsigned ..).trans ?_
        rw [hq]
        rfl
      · rintro (hz | ⟨-, hneg⟩) <;> omega
    · have hrefused : WholeType.Refuses .unsignedInteger t' w := by
        rcases Int.lt_or_eq_of_le (Int.not_lt.mp hpos) with hneg | hz
        · exact .inr ⟨rfl, hneg⟩
        · exact .inl hz
      refine ⟨.undef, ?_, fun _ => rfl, fun hno => absurd hrefused hno⟩
      refine (assignment_div_unsigned ..).trans ?_
      rw [IntOperations.divUInt_refused lib (Int.not_lt.mp hpos)]
      rfl

theorem overflows_iff :
    (t = .integer ∧ IntOperations.Overflows v t' w) ↔
      t = .integer ∧ t.value v = minInt64 ∧
        (t'.value w = -1 ∨ (t' = .unsignedInteger ∧ t'.value w ≠ 0)) := by
  refine and_congr_right fun ht => ?_
  subst ht
  have hmin : v = BitVec.intMin 64 ↔ WholeType.integer.value v = minInt64 :=
    (BitVec.toInt_inj (y := BitVec.intMin 64)).symm
  refine and_congr hmin ?_
  cases t' with
  | integer =>
    have hone : w = -1 ↔ WholeType.integer.value w = -1 := (BitVec.toInt_inj (y := -1)).symm
    refine hone.trans ⟨.inl, ?_⟩
    rintro (h | ⟨h, -⟩)
    · exact h
    · cases h
  | unsignedInteger =>
    refine (not_congr WholeType.value_eq_zero.symm).trans ⟨fun h => .inr ⟨rfl, h⟩, ?_⟩
    rintro (h | ⟨-, h⟩)
    · have := WholeType.unsignedInteger.value_holds w
      simp only [WholeType.Holds] at this
      omega
    · exact h

/-- A division has the exact result unless the least signed number is divided by minus one or by an
unsigned number. -/
theorem division_exact_iff :
    (∃ r, m.binary lib limits fuel .div (.plain t v) (.plain t' w) = .ok (r, m) ∧
      m.assignment lib limits .div (.plain t v) (.plain t' w) = .ok (r, m) ∧
      WholeType.IsQuotient t t' v w r) ↔
    ¬(t = .integer ∧ t.value v = minInt64 ∧
      (t'.value w = -1 ∨ (t' = .unsignedInteger ∧ t'.value w ≠ 0))) := by
  rw [← overflows_iff]
  constructor
  · rintro ⟨r, -, hr, -⟩ ⟨rfl, ho⟩
    rw [show (WholeType.integer : PlainType) = .integer from rfl,
      assignment_div_overflow lib limits m ho] at hr
    cases hr
  · intro h
    obtain ⟨r, hr, hq⟩ := assignment_div lib limits m h
    exact ⟨r, hr, hr, hq⟩

def noConversions : CLib := ⟨fun _ => 0, fun _ => [], fun _ => [], fun _ => 0, fun _ => 0⟩

/-- The least number has no quotient by minus one. -/
theorem division_least :
    ¬∃ r, (⟨0, fun _ => none⟩ : Store).binary noConversions ⟨0, 0⟩ 0 .div
        (.plain WholeType.integer (BitVec.intMin 64)) (.plain WholeType.integer (-1)) =
          .ok (r, ⟨0, fun _ => none⟩) ∧
      (⟨0, fun _ => none⟩ : Store).assignment noConversions ⟨0, 0⟩ .div
        (.plain WholeType.integer (BitVec.intMin 64)) (.plain WholeType.integer (-1)) =
          .ok (r, ⟨0, fun _ => none⟩) ∧
      WholeType.IsQuotient .integer .integer (BitVec.intMin 64) (-1) r := by
  rintro ⟨r, -, hr, -⟩
  have hfault := assignment_div_overflow noConversions ⟨0, 0⟩
    ⟨0, fun _ => none⟩ (show IntOperations.Overflows (BitVec.intMin 64) .integer (-1)
      from ⟨rfl, rfl⟩)
  cases hfault.symm.trans hr

end Whole

end Nkit
