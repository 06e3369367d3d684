import Nkit.Table.Compare

/-! What the assembled comparators mean: keys are ordered lexicographically, each column
read by its own type and in its declared direction, wherever the boundaries between the
precompiled parts fall. -/

namespace Nkit
open OrderedMap

inductive KeyValue where
  | int (i : ℤ)
  | nat (n : ℕ)
  | text (s : Bytes)
deriving DecidableEq, Repr

def readKey : ColumnType → Data → KeyValue
  | .integer, d => .int d.i64
  | .string, d => .text d.text
  | _, d => .nat d.ui64

def KeyValue.before : KeyValue → KeyValue → Bool
  | int a, int b => a < b
  | nat a, nat b => a < b
  | text a, text b => a < b
  | _, _ => false

def valueBefore (descending : Bool) (a b : KeyValue) : Bool :=
  if descending then b.before a else a.before b

def lexBefore : List Bool → List KeyValue → List KeyValue → Bool
  | d :: ds, a :: as, b :: bs => valueBefore d a b || (!valueBefore d b a && lexBefore ds as bs)
  | _, _, _ => false

def readKeys : List ColumnType → IndexKey → List KeyValue
  | [], _ => []
  | t :: ts, key => readKey t (keyItem key) :: readKeys ts key.tail

def Orderable (type : ColumnType) : Prop := type ≠ .float ∧ type ≠ .bool

instance (type : ColumnType) : Decidable (Orderable type) := inferInstanceAs (Decidable (_ ∧ _))

theorem readKey_affinity (type : ColumnType) (d : Data) :
    readKey (getDynamicTypeAffinity type) d = readKey type d := by
  cases type <;> rfl

theorem readKeys_affinity (ts : List ColumnType) (key : IndexKey) :
    readKeys (ts.map getDynamicTypeAffinity) key = readKeys ts key := by
  induction ts generalizing key with
  | nil => rfl
  | cons t ts ih => simp only [List.map_cons, readKeys, readKey_affinity, ih]

def itemBefore (o : ItemOrder) (a b : KeyItem) : Bool :=
  valueBefore o.descending (readKey o.type a) (readKey o.type b)

theorem readKey_before_strictWeak (type : ColumnType) :
    StrictWeak fun a b : KeyItem => (readKey type a).before (readKey type b) := by
  cases type
  case integer => exact strictWeak_lt.comap Data.i64
  case string => exact strictWeak_lt.comap Data.text
  all_goals exact strictWeak_lt.comap Data.ui64

theorem readKey_before_equiv (type : ColumnType) (a b : KeyItem) :
    equiv (fun a b : KeyItem => (readKey type a).before (readKey type b)) a b = true ↔
      readKey type a = readKey type b := by
  cases type
  case integer => exact equiv_lt_iff.trans (by simp [readKey])
  case string => exact equiv_lt_iff.trans (by simp [readKey])
  all_goals exact equiv_lt_iff.trans (by simp [readKey])

theorem itemBefore_strictWeak (o : ItemOrder) : StrictWeak (itemBefore o) := by
  obtain ⟨type, descending⟩ := o
  cases descending with
  | false => exact readKey_before_strictWeak type
  | true => exact (readKey_before_strictWeak type).swap

theorem itemBefore_equiv (o : ItemOrder) (a b : KeyItem) :
    equiv (itemBefore o) a b = true ↔ readKey o.type a = readKey o.type b := by
  obtain ⟨type, descending⟩ := o
  cases descending with
  | false => exact readKey_before_equiv type a b
  | true =>
    rw [equiv_comm]
    exact readKey_before_equiv type a b

theorem threeWay_neg (less greater : Bool) : threeWay less greater < 0 ↔ less = true := by
  cases less <;> cases greater <;> decide

theorem neg_textCompare (a b : Bytes) : -textCompare a b = threeWay (b < a) (a < b) := by
  unfold textCompare
  by_cases hab : a < b
  · have hba : ¬ b < a := Std.not_lt.mpr (Std.le_of_lt hab)
    simp [threeWay, hab, hba]
  · by_cases hba : b < a <;> simp [threeWay, hab, hba]

/-- The compiled comparator of an orderable type decides by `itemBefore`. -/
theorem keyItemCompare_eq {o : ItemOrder} (ho : Orderable o.type) (a b : KeyItem) :
    keyItemCompare o a b = threeWay (itemBefore o a b) (itemBefore o b a) := by
  obtain ⟨type, descending⟩ := o
  cases type <;> cases descending
  case string.true => exact neg_textCompare a.text b.text
  case float.false => exact absurd rfl ho.1
  case float.true => exact absurd rfl ho.1
  case bool.false => exact absurd rfl ho.2
  case bool.true => exact absurd rfl ho.2
  all_goals rfl

/-- `compareItems` as an order. -/
def itemsBefore : List ItemOrder → IndexKey → IndexKey → Bool
  | [], _, _ => false
  | o :: os, a, b => itemBefore o (keyItem a) (keyItem b) ||
      (!itemBefore o (keyItem b) (keyItem a) && itemsBefore os a.tail b.tail)

theorem itemsBefore_eq_lex (os : List ItemOrder) (a b : IndexKey) :
    itemsBefore os a b = lexBefore (os.map ItemOrder.descending)
      (readKeys (os.map ItemOrder.type) a) (readKeys (os.map ItemOrder.type) b) := by
  induction os generalizing a b with
  | nil => rfl
  | cons o os ih => simp only [itemsBefore, List.map_cons, readKeys, lexBefore, itemBefore, ih]

theorem itemsBefore_strictWeak (os : List ItemOrder) : StrictWeak (itemsBefore os) := by
  induction os with
  | nil => exact strictWeak_false
  | cons o os ih => exact ((itemBefore_strictWeak o).comap keyItem).lex (ih.comap List.tail)

theorem itemsBefore_equiv (os : List ItemOrder) (a b : IndexKey) :
    equiv (itemsBefore os) a b = true ↔
      readKeys (os.map ItemOrder.type) a = readKeys (os.map ItemOrder.type) b := by
  induction os generalizing a b with
  | nil => simp [equiv, itemsBefore, readKeys]
  | cons o os ih =>
    rw [List.map_cons, readKeys, readKeys, List.cons.injEq, ← itemBefore_equiv, ← ih]
    simp only [equiv, itemsBefore]
    cases itemBefore o (keyItem a) (keyItem b) <;> cases itemBefore o (keyItem b) (keyItem a) <;>
      simp

theorem compareItems_eq {os : List ItemOrder} (ho : ∀ o ∈ os, Orderable o.type) (a b : IndexKey) :
    compareItems os a b = threeWay (itemsBefore os a b) (itemsBefore os b a) := by
  induction os generalizing a b with
  | nil => rfl
  | cons o os ih =>
    have hos := ih (fun o' h' => ho o' (List.mem_cons_of_mem _ h')) a.tail b.tail
    rw [compareItems, keyItemCompare_eq (ho o List.mem_cons_self), hos]
    have hasymm := (itemBefore_strictWeak o).asymm (a := keyItem a) (b := keyItem b)
    simp only [itemsBefore]
    cases hab : itemBefore o (keyItem a) (keyItem b) <;>
      cases hba : itemBefore o (keyItem b) (keyItem a) <;> simp_all [threeWay]

theorem compareItems_append (os os' : List ItemOrder) (a b : IndexKey) :
    compareItems (os ++ os') a b =
      if compareItems os a b ≠ 0 then compareItems os a b
      else compareItems os' (a.drop os.length) (b.drop os.length) := by
  induction os generalizing a b with
  | nil => simp [compareItems]
  | cons o os ih =>
    simp only [List.cons_append, compareItems, ih, List.length_cons, List.drop_tail]
    split_ifs <;> simp_all

theorem compareParts_eq (fs : List KeyCompare) (a b : IndexKey)
    (hfull : ∀ f ∈ fs.dropLast, f.items.length = tableIndexPartSize) :
    IndexCompare.compareParts fs a b = compareItems (fs.flatMap KeyCompare.items) a b := by
  induction fs generalizing a b with
  | nil => rfl
  | cons f fs ih =>
    rw [IndexCompare.compareParts, List.flatMap_cons, compareItems_append]
    cases fs with
    | nil =>
      simp only [List.flatMap_nil, compareItems]
      rfl
    | cons g gs =>
      have hf : f.items.length = tableIndexPartSize := hfull f (by simp)
      have hrest : ∀ f' ∈ (g :: gs).dropLast, f'.items.length = tableIndexPartSize :=
        fun f' h' => hfull f' (by simpa using Or.inr h')
      rw [ih _ _ hrest, hf]
      rfl

def typeDigit : ColumnType → UInt8
  | .integer => 49 | .unsignedInteger => 50 | .float => 51 | .bool => 52 | .dateTime => 53
  | .string => 55

theorem ItemOrder.text_eq (o : ItemOrder) :
    o.text = if o.descending then [45, typeDigit o.type] else [typeDigit o.type] := by
  obtain ⟨type, descending⟩ := o
  cases type <;> cases descending <;> rfl

theorem typeDigit_injective : Function.Injective typeDigit := by
  intro t t' h
  cases t <;> cases t' <;> first | rfl | exact absurd h (by decide)

theorem typeDigit_ne_minus (t : ColumnType) : typeDigit t ≠ 45 := by
  cases t <;> decide

theorem text_append_inj {o o' : ItemOrder} {r r' : Bytes} (h : o.text ++ r = o'.text ++ r') :
    o = o' ∧ r = r' := by
  obtain ⟨type, descending⟩ := o
  obtain ⟨type', descending'⟩ := o'
  simp only [ItemOrder.text_eq] at h
  cases descending <;> cases descending' <;>
    simp only [Bool.false_eq_true, if_true, if_false, List.cons_append, List.nil_append,
      List.cons.injEq, true_and] at h
  · exact ⟨by rw [typeDigit_injective h.1], h.2⟩
  · exact absurd h.1 (typeDigit_ne_minus _)
  · exact absurd h.1.symm (typeDigit_ne_minus _)
  · exact ⟨by rw [typeDigit_injective h.1], h.2⟩

theorem text_ne_nil (o : ItemOrder) : o.text ≠ [] := by
  rw [ItemOrder.text_eq]
  split_ifs <;> simp

theorem maskText_injective : Function.Injective maskText := by
  intro os
  induction os with
  | nil =>
    intro os' h
    cases os' with
    | nil => rfl
    | cons o' os' => simp [maskText, text_ne_nil] at h
  | cons o os ih =>
    intro os' h
    cases os' with
    | nil => simp [maskText, text_ne_nil] at h
    | cons o' os' =>
      simp only [maskText, List.flatMap_cons] at h
      obtain ⟨rfl, hr⟩ := text_append_inj h
      rw [ih hr]

theorem lookup_map_mk {l : List (List ItemOrder)} {s : Bytes} {f : KeyCompare}
    (h : (l.map fun os => (maskText os, KeyCompare.mk os)).lookup s = some f) :
    s = maskText f.items := by
  induction l with
  | nil => cases h
  | cons os l ih =>
    rw [List.map_cons, List.lookup_cons] at h
    cases hs : s == maskText os with
    | true =>
      rw [hs] at h
      rw [← Option.some.inj h]
      exact eq_of_beq hs
    | false =>
      rw [hs] at h
      exact ih h

theorem appendPart_ok {result result' : IndexCompare} {os : List ItemOrder}
    (h : result.appendPart (maskText os) = .ok result') :
    result'.fcomp = result.fcomp ++ [⟨os⟩] := by
  unfold IndexCompare.appendPart at h
  cases hl : comparatorsMap.lookup (maskText os) with
  | none => simp [hl] at h
  | some f =>
    obtain ⟨items⟩ := f
    obtain rfl : os = items := maskText_injective (lookup_map_mk hl)
    simp only [hl, IndexCompare.appendPartCompare] at h
    split at h
    · cases h
    next hap =>
      split_ifs at hap with hmax
      cases h
      rw [← Option.some.inj hap]

theorem maskText_slice (os : List ItemOrder) (i n : ℕ) :
    (((os.map ItemOrder.text).drop i).take n).flatten = maskText ((os.drop i).take n) := by
  rw [maskText, List.flatMap_def, List.map_take, List.map_drop]

/-- The parts assembled by the loop of `GetComparator`. -/
theorem appendFullParts_ok {os : List ItemOrder} {n : ℕ} {result : IndexCompare}
    (h : appendFullParts (os.map ItemOrder.text) n = .ok result) :
    result.fcomp = (List.range n).map fun i =>
      ⟨(os.drop (i * tableIndexPartSize)).take tableIndexPartSize⟩ := by
  induction n generalizing result with
  | zero =>
    cases h
    rfl
  | succ n ih =>
    rw [appendFullParts, List.range_succ, List.foldlM_append] at h
    cases hn : appendFullParts (os.map ItemOrder.text) n with
    | error e =>
      rw [← appendFullParts, hn] at h
      cases h
    | ok r =>
      rw [← appendFullParts, hn] at h
      have hstep : r.appendPart (maskText
          ((os.drop (n * tableIndexPartSize)).take tableIndexPartSize)) = .ok result := by
        simp only [List.foldlM_cons, List.foldlM_nil, bind_pure, maskText_slice] at h
        exact h
      rw [appendPart_ok hstep, ih hn, List.range_succ, List.map_append]
      rfl

theorem slices_flatten (os : List ItemOrder) (p n : ℕ) :
    ((List.range n).flatMap fun i => (os.drop (i * p)).take p) = os.take (n * p) := by
  induction n with
  | zero => simp
  | succ n ih =>
    rw [List.range_succ, List.flatMap_append, ih, Nat.succ_mul, List.take_add]
    simp

theorem getComparator_parts {os : List ItemOrder} {c : IndexCompare}
    (h : getComparator (os.map ItemOrder.text) = .ok c) :
    (∀ f ∈ c.fcomp.dropLast, f.items.length = tableIndexPartSize) ∧
      c.fcomp.flatMap KeyCompare.items = os := by
  unfold getComparator at h
  simp only [List.length_map] at h
  set n := os.length / tableIndexPartSize with hn
  have hfull : ∀ i < n, ((os.drop (i * tableIndexPartSize)).take tableIndexPartSize).length =
      tableIndexPartSize := by
    intro i hi
    have hle : (i + 1) * tableIndexPartSize ≤ os.length :=
      (Nat.mul_le_mul_right _ hi).trans (Nat.div_mul_le_self _ _)
    rw [List.length_take, List.length_drop]
    rw [Nat.succ_mul] at hle
    omega
  cases hr : appendFullParts (os.map ItemOrder.text) n with
  | error e =>
    rw [hr] at h
    cases h
  | ok r =>
    rw [hr] at h
    have hparts := appendFullParts_ok hr
    have hitems : r.fcomp.flatMap KeyCompare.items = os.take (n * tableIndexPartSize) := by
      rw [hparts, List.flatMap_map]
      exact slices_flatten os _ n
    have hlen : ∀ f ∈ r.fcomp, f.items.length = tableIndexPartSize := by
      intro f hf
      rw [hparts, List.mem_map] at hf
      obtain ⟨i, hi, rfl⟩ := hf
      exact hfull i (List.mem_range.mp hi)
    simp only [bind, Except.bind] at h
    -- the columns that do not fill a part make one more, shorter part
    split_ifs at h with hlast
    · rw [maskText_slice] at h
      have hc := appendPart_ok h
      rw [hc, List.dropLast_concat, List.flatMap_append, hitems]
      refine ⟨hlen, ?_⟩
      have hrest : os.length % tableIndexPartSize = (os.drop (n * tableIndexPartSize)).length := by
        rw [List.length_drop, hn]
        have := Nat.div_add_mod' os.length tableIndexPartSize
        omega
      rw [hrest, List.take_length]
      simp
    · cases h
      refine ⟨fun f hf => hlen f (List.dropLast_subset _ hf), ?_⟩
      rw [hitems, List.take_of_length_le]
      have := Nat.div_add_mod' os.length tableIndexPartSize
      rw [hn]
      omega

theorem getComparator_lt {os : List ItemOrder} (ho : ∀ o ∈ os, Orderable o.type) {c : IndexCompare}
    (h : getComparator (os.map ItemOrder.text) = .ok c) : c.lt = itemsBefore os := by
  obtain ⟨hparts, hitems⟩ := getComparator_parts h
  funext a b
  rw [IndexCompare.lt, compareParts_eq _ _ _ hparts, hitems, compareItems_eq ho]
  rw [Bool.eq_iff_iff, decide_eq_true_eq, threeWay_neg]

end Nkit
