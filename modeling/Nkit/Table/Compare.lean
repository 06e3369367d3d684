import Nkit.Dynamic.Data
import Nkit.Base.OrderedMap
import Mathlib.Data.List.Lex
import Mathlib.Order.Defs.LinearOrder

/-! Comparison of index keys (`dynamic_table_index_comparators.cpp`).  The comparator of an
index is put together from precompiled comparators of up to three key items, each looked
up by the text of its piece of the mask. -/

namespace Nkit

/-- `NKIT_TABLE_INDEX_PART_SIZE`. -/
def tableIndexPartSize : ℕ := 3

/-- `IndexKey::MAX_SIZE`. -/
def indexKeyMaxSize : ℕ := tableIndexPartSize * 21

/-- The items written so far, `size_` of them. -/
abbrev IndexKey := List KeyItem

structure ItemOrder where
  type : ColumnType
  descending : Bool
deriving DecidableEq, Repr

def ItemOrder.code (o : ItemOrder) : ℤ :=
  if o.descending then -(o.type.toDynamic.code : ℤ) else o.type.toDynamic.code

/-- `string_cast(int64_t)`. -/
def stringCast (i : ℤ) : Bytes :=
  let digits := (Nat.toDigits 10 i.natAbs).map fun c => UInt8.ofNat c.toNat
  if i < 0 then 45 :: digits else digits

def ItemOrder.text (o : ItemOrder) : Bytes := stringCast o.code

def maskText (os : List ItemOrder) : Bytes := os.flatMap ItemOrder.text

def threeWay (less greater : Bool) : ℤ := if less then -1 else if greater then 1 else 0

/-- `std::string::compare`, up to the size of its result. -/
def textCompare (a b : Bytes) : ℤ := threeWay (a < b) (b < a)

/-- `KeyItemComparator<T>::Compare`.  There is no specialisation for `BOOL`. -/
def keyItemCompare (o : ItemOrder) (a1 a2 : KeyItem) : ℤ :=
  match o.type, o.descending with
  | .integer, false => threeWay (a1.i64 < a2.i64) (a1.i64 > a2.i64)
  | .integer, true => threeWay (a1.i64 > a2.i64) (a1.i64 < a2.i64)
  | .unsignedInteger, false => threeWay (a1.ui64 < a2.ui64) (a1.ui64 > a2.ui64)
  | .unsignedInteger, true => threeWay (a1.ui64 > a2.ui64) (a1.ui64 < a2.ui64)
  | .dateTime, false => threeWay (a1.ui64 < a2.ui64) (a1.ui64 > a2.ui64)
  | .dateTime, true => threeWay (a1.ui64 > a2.ui64) (a1.ui64 < a2.ui64)
  | .float, false => threeWay (a1.f < a2.f) (a1.f > a2.f)
  | .float, true => threeWay (a1.f > a2.f) (a1.f < a2.f)
  | .string, false => textCompare a1.text a2.text
  | .string, true => -textCompare a1.text a2.text
  | .bool, _ => 0

/-- A compiled comparator `Comparator1` to `Comparator3`, by its template arguments. -/
structure KeyCompare where
  items : List ItemOrder
deriving DecidableEq, Repr

def keyItem (key : IndexKey) : KeyItem := key.headD (.word 0)

def compareItems : List ItemOrder → IndexKey → IndexKey → ℤ
  | [], _, _ => 0
  | o :: os, a1, a2 =>
    let result := keyItemCompare o (keyItem a1) (keyItem a2)
    if result ≠ 0 then result else compareItems os a1.tail a2.tail

def KeyCompare.compare (c : KeyCompare) : IndexKey → IndexKey → ℤ := compareItems c.items

/-- `IndexCompare`: the part comparators set so far. -/
structure IndexCompare where
  fcomp : List KeyCompare
deriving DecidableEq, Repr

namespace IndexCompare

/-- `IndexCompare::MAX_SIZE`. -/
def maxSize : ℕ := indexKeyMaxSize / tableIndexPartSize + 1

def appendPartCompare (c : IndexCompare) (fcomp : KeyCompare) : Option IndexCompare :=
  if c.fcomp.length = maxSize then none else some ⟨c.fcomp ++ [fcomp]⟩

def compareParts : List KeyCompare → IndexKey → IndexKey → ℤ
  | [], _, _ => 0
  | f :: fs, pk1, pk2 =>
    let result := f.compare pk1 pk2
    if result ≠ 0 then result
    else compareParts fs (pk1.drop tableIndexPartSize) (pk2.drop tableIndexPartSize)

/-- `IndexCompare::operator()`. -/
def lt (c : IndexCompare) (k1 k2 : IndexKey) : Bool := compareParts c.fcomp k1 k2 < 0

end IndexCompare

/-- The chain `IndexedDynamicType<...>::next`. -/
def indexedTypes : List ColumnType := [.string, .float, .unsignedInteger, .integer]

def signs1 (v : ColumnType) : List (List ItemOrder) := [[⟨v, false⟩], [⟨v, true⟩]]

/-- `CompareFunctionSetter2::_set`. -/
def signs2 (v1 v2 : ColumnType) : List (List ItemOrder) :=
  [[⟨v1, false⟩, ⟨v2, false⟩], [⟨v1, false⟩, ⟨v2, true⟩],
    [⟨v1, true⟩, ⟨v2, false⟩], [⟨v1, true⟩, ⟨v2, true⟩]]

/-- `CompareFunctionSetter3::_set`. -/
def signs3 (v1 v2 v3 : ColumnType) : List (List ItemOrder) :=
  [[⟨v1, false⟩, ⟨v2, false⟩, ⟨v3, false⟩], [⟨v1, false⟩, ⟨v2, true⟩, ⟨v3, false⟩],
    [⟨v1, true⟩, ⟨v2, false⟩, ⟨v3, false⟩], [⟨v1, true⟩, ⟨v2, true⟩, ⟨v3, false⟩],
    [⟨v1, false⟩, ⟨v2, false⟩, ⟨v3, true⟩], [⟨v1, false⟩, ⟨v2, true⟩, ⟨v3, true⟩],
    [⟨v1, true⟩, ⟨v2, false⟩, ⟨v3, true⟩], [⟨v1, true⟩, ⟨v2, true⟩, ⟨v3, true⟩]]

-- A template argument is the chain of types still to come; `UNDEF` is its end.
def setter1 : List ColumnType → List (List ItemOrder)
  | [] => []
  | v :: next => signs1 v ++ setter1 next

def setter2₂ (v1 : ColumnType) : List ColumnType → List (List ItemOrder)
  | [] => []
  | v2 :: next2 => signs2 v1 v2 ++ setter2₂ v1 next2

def setter2 : List ColumnType → List ColumnType → List (List ItemOrder)
  | [], _ => []
  | _, [] => []
  | v1 :: next1, v2 :: next2 =>
    signs2 v1 v2 ++ setter2 next1 (v2 :: next2) ++ setter2₂ v1 next2

def setter3₃ (v1 v2 : ColumnType) : List ColumnType → List (List ItemOrder)
  | [] => []
  | v3 :: next3 => signs3 v1 v2 v3 ++ setter3₃ v1 v2 next3

def setter3₂ (v1 : ColumnType) : List ColumnType → List ColumnType → List (List ItemOrder)
  | [], _ => []
  | _, [] => []
  | v2 :: next2, v3 :: next3 =>
    signs3 v1 v2 v3 ++ setter3₂ v1 next2 (v3 :: next3) ++ setter3₃ v1 v2 next3

def setter3 : List ColumnType → List ColumnType → List ColumnType → List (List ItemOrder)
  | [], _, _ => []
  | _, [], _ => []
  | _, _, [] => []
  | v1 :: next1, v2 :: next2, v3 :: next3 =>
    signs3 v1 v2 v3 ++ setter3 next1 (v2 :: next2) (v3 :: next3) ++
      setter3₂ v1 next2 (v3 :: next3) ++ setter3₃ v1 v2 next3

/-- `InitComparators`: every comparator stands under the text of its template arguments. -/
def comparatorsMap : List (Bytes × KeyCompare) :=
  (setter1 indexedTypes ++ setter2 indexedTypes indexedTypes ++
    setter3 indexedTypes indexedTypes indexedTypes).map fun os => (maskText os, ⟨os⟩)

def comparatorError (subMask : Bytes) : Bytes :=
  ascii "Comparator does not defined for mask '" ++ subMask ++ ascii "'"

/-- Lookup of one part and `AppendPartCompare`. -/
def IndexCompare.appendPart (result : IndexCompare) (subMask : Bytes) : Except Bytes IndexCompare :=
  match comparatorsMap.lookup subMask with
  | none => .error (comparatorError subMask)
  | some f =>
    match result.appendPartCompare f with
    | none => .error (comparatorError subMask)
    | some result => .ok result

/-- The loop of `GetComparator` over the parts of full size. -/
def appendFullParts (mask : List Bytes) (count : ℕ) : Except Bytes IndexCompare :=
  (List.range count).foldlM (fun result i =>
    result.appendPart
      ((mask.drop (i * tableIndexPartSize)).take tableIndexPartSize).flatten) ⟨[]⟩

def getComparator (mask : List Bytes) : Except Bytes IndexCompare := do
  let fullPartsCount := mask.length / tableIndexPartSize
  let lastPartSize := mask.length % tableIndexPartSize
  let result ← appendFullParts mask fullPartsCount
  if lastPartSize ≠ 0 then
    result.appendPart ((mask.drop (fullPartsCount * tableIndexPartSize)).take lastPartSize).flatten
  else pure result

end Nkit
