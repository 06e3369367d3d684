import Nkit.Base.BitSubsets
import Nkit.Base.OrderedMap

/-! The generator of item combinations (`tools.h`).  Its counter runs down through the numbers whose
bits select the items. -/

namespace Nkit
open OrderedMap BitSubsets

structure UniqueCombinationGenerator (T : Type*) where
  items : List T
  counter : ℤ
  deriving DecidableEq, Repr

namespace UniqueCombinationGenerator
variable {T : Type*}

/-- `MAX_INT_COUNT`. -/
def maxIntCount : ℕ := 64

/-- `power_of_2_` as `Filler` leaves it. -/
def powerOf2 : ℕ → BitVec 64
  | 0 => 1
  | i + 1 => powerOf2 i * 2

/-- `max_int_` as `Filler` leaves it. -/
def maxInt : ℕ → BitVec 64
  | 0 => 1
  | i + 1 => powerOf2 (i + 1) - 1

/-- An entry of one of the tables; `none` is a read behind its end. -/
def entry (table : ℕ → BitVec 64) (i : ℕ) : Option (BitVec 64) :=
  if i < maxIntCount then some (table i) else none

def create (items : List T) : Option (UniqueCombinationGenerator T) :=
  (entry maxInt items.length).map fun max => ⟨items, max.toInt⟩

section
variable (lt : T → T → Bool) (items : List T) (counter : ℤ)

/-- `if (counter_ & mask) combination->insert(items_[index])`. -/
def insertItem (mask : BitVec 64) (index : ℕ) (combination : List (T × Unit)) :
    Option (List (T × Unit)) :=
  if BitVec.ofInt 64 counter &&& mask ≠ 0 then (items[index]?).map fun item =>
    update lt item () id combination
  else some combination

/-- The loop of `Get`. -/
def getLoop : BitVec 64 → ℕ → List (T × Unit) → Option (List (T × Unit))
  -- behind the halving of the mask the index is found to be 0
  | mask, 0, combination => insertItem lt items counter mask 0 combination
  | mask, index + 1, combination => do
    let combination ← insertItem lt items counter mask (index + 1) combination
    if mask = 1 then some combination else getLoop (mask / 2) index combination

end

section
variable (lt : T → T → Bool)

def get (combination : List (T × Unit)) (g : UniqueCombinationGenerator T) :
    Option (List (T × Unit)) :=
  match g.items.length with
  -- `items_.size() - 1` wraps around
  | 0 => none
  | n + 1 => (entry powerOf2 n).bind fun mask => getLoop lt g.items g.counter mask n combination

/-- `GetNext`; besides reads outside of the tables, `none` is a counter that can not be decremented.
-/
def getNext (combination : List (T × Unit)) (g : UniqueCombinationGenerator T) :
    Option (Bool × List (T × Unit) × UniqueCombinationGenerator T) := do
  let combination ← g.get lt combination
  if g.counter = -2 ^ 63 then none
  else some (0 < g.counter, combination, { g with counter := g.counter - 1 })

/-- Calls of `GetNext` in a row, each with a set of its own. -/
def calls : ℕ → UniqueCombinationGenerator T →
    Option (List (Bool × List (T × Unit)) × UniqueCombinationGenerator T)
  | 0, g => some ([], g)
  | n + 1, g => do
    let (result, combination, g) ← g.getNext lt []
    let (results, g) ← calls n g
    some ((result, combination) :: results, g)

end

theorem powerOf2_eq (i : ℕ) : powerOf2 i = BitVec.twoPow 64 i := by
  induction i with
  | zero => rfl
  | succ i ih =>
    rw [powerOf2, ih, show (2 : BitVec 64) = BitVec.twoPow 64 1 from rfl,
      BitVec.twoPow_mul_twoPow_eq]

theorem maxInt_toInt {n : ℕ} (hpos : 1 ≤ n) (hmax : n ≤ 63) : (maxInt n).toInt = 2 ^ n - 1 := by
  obtain ⟨i, rfl⟩ := Nat.exists_eq_add_of_le' hpos
  have hpow : 2 ^ (i + 1) ≤ 2 ^ 63 := Nat.pow_le_pow_right Nat.two_pos hmax
  have hone : 1 ≤ 2 ^ (i + 1) := Nat.one_le_two_pow
  have hnat : (maxInt (i + 1)).toNat = 2 ^ (i + 1) - 1 := by
    rw [maxInt, powerOf2_eq, BitVec.toNat_sub, BitVec.toNat_twoPow_of_lt (by omega)]
    simp
    omega
  rw [BitVec.toInt_eq_toNat_of_lt (by omega), hnat, Int.ofNat_sub hone, Int.natCast_pow]
  rfl

theorem entry_eq (table : ℕ → BitVec 64) {i : ℕ} (hi : i ≤ 63) :
    entry table i = some (table i) := if_pos (Nat.lt_succ_of_le hi)

section Loop
variable {lt : T → T → Bool} {items : List T} {counter : ℤ} {i : ℕ} {s : List (T × Unit)}

theorem mask_succ_ne_one (hi : i + 1 < 64) : BitVec.twoPow 64 (i + 1) ≠ 1 := by
  intro h
  have hnat := congrArg BitVec.toNat h
  rw [BitVec.toNat_twoPow_of_lt hi, Nat.pow_succ] at hnat
  have hpos := Nat.two_pow_pos i
  have hone : (1 : BitVec 64).toNat = 1 := rfl
  omega

theorem mask_half (hi : i + 1 < 64) : BitVec.twoPow 64 (i + 1) / 2 = BitVec.twoPow 64 i := by
  apply BitVec.eq_of_toNat_eq
  rw [BitVec.toNat_udiv, BitVec.toNat_twoPow_of_lt hi,
    BitVec.toNat_twoPow_of_lt (Nat.lt_of_succ_lt hi), Nat.pow_succ]
  exact Nat.mul_div_cancel _ Nat.two_pos

theorem insertItem_eq (hi : i < 64) (hlen : i < items.length) :
    insertItem lt items counter (BitVec.twoPow 64 i) i s =
      some (if (BitVec.ofInt 64 counter).getLsbD i then update lt items[i] () id s else s) := by
  have hne : BitVec.twoPow 64 i ≠ 0 := by
    intro h
    have hbit := congrArg (fun x => BitVec.getLsbD x i) h
    simp [hi] at hbit
  rw [insertItem, BitVec.and_twoPow, List.getElem?_eq_getElem hlen, Option.map_some]
  by_cases hbit : (BitVec.ofInt 64 counter).getLsbD i = true
  · rw [if_pos hbit, if_pos hbit, if_pos hne]
  · rw [if_neg hbit, if_neg hbit]
    exact if_neg fun h => h rfl

section
variable (hlt : StrictWeak lt) (hdistinct : items.Pairwise fun a b => equiv lt a b = false)
include hlt hdistinct

theorem insertItem_picks (counter : ℤ) (hi : i < 64) (hlen : i < items.length) (hs : Sorted lt s)
    (habove : ∀ e ∈ s, ∃ j, i < j ∧ items[j]? = some e.1) :
    ∃ s', insertItem lt items counter (BitVec.twoPow 64 i) i s = some s' ∧ Sorted lt s' ∧
      ∀ e, e ∈ s' ↔ e ∈ s ∨ items[i]? = some e.1 ∧ (BitVec.ofInt 64 counter).getLsbD i = true := by
  have hnew : ∀ e ∈ s, equiv lt e.1 items[i] = false := by
    intro e he
    obtain ⟨j, hij, hj⟩ := habove e he
    obtain ⟨hlt', heq⟩ := List.getElem?_eq_some_iff.mp hj
    rw [← heq, equiv_comm]
    exact List.pairwise_iff_getElem.mp hdistinct i j hlen hlt' hij
  refine ⟨_, insertItem_eq hi hlen, ?_, fun e => ?_⟩
  · split_ifs
    · exact update_sorted hlt hs ..
    · exact hs
  · rw [List.getElem?_eq_getElem hlen, Option.some.injEq]
    split_ifs with hbit
    · rw [mem_update_new hnew, and_iff_left hbit, or_comm, Prod.ext_iff, and_iff_left rfl, eq_comm]
    · rw [or_iff_left fun h => hbit h.2]

theorem getLoop_picks (counter : ℤ) (hi : i < 64) (hlen : i < items.length) (hs : Sorted lt s)
    (habove : ∀ e ∈ s, ∃ j, i < j ∧ items[j]? = some e.1) :
    ∃ s', getLoop lt items counter (BitVec.twoPow 64 i) i s = some s' ∧ Sorted lt s' ∧
      ∀ e, e ∈ s' ↔ e ∈ s ∨ ∃ j ≤ i, items[j]? = some e.1 ∧ (BitVec.ofInt 64 counter).getLsbD j =
        true := by
  induction i generalizing s with
  | zero =>
    obtain ⟨s', hrun, hs', hmem⟩ := insertItem_picks hlt hdistinct counter hi hlen hs habove
    refine ⟨s', hrun, hs', fun e => ?_⟩
    rw [hmem]
    simp only [Nat.le_zero, exists_eq_left]
  | succ i ih =>
    obtain ⟨s₁, hrun₁, hs₁, hmem₁⟩ := insertItem_picks hlt hdistinct counter hi hlen hs habove
    have habove₁ : ∀ e ∈ s₁, ∃ j, i < j ∧ items[j]? = some e.1 := by
      intro e he
      rcases (hmem₁ e).mp he with he | ⟨he, -⟩
      · obtain ⟨j, hij, hj⟩ := habove e he
        exact ⟨j, Nat.lt_of_succ_lt hij, hj⟩
      · exact ⟨i + 1, Nat.lt_succ_self i, he⟩
    obtain ⟨s', hrun, hs', hmem⟩ := ih (Nat.lt_of_succ_lt hi) (Nat.lt_of_succ_lt hlen) hs₁ habove₁
    refine ⟨s', ?_, hs', fun e => ?_⟩
    · rw [getLoop, hrun₁, Option.bind_eq_bind, Option.bind_some, if_neg (mask_succ_ne_one hi),
        mask_half hi]
      exact hrun
    · rw [hmem, hmem₁, or_assoc]
      refine or_congr_right ⟨?_, ?_⟩
      · rintro (h | ⟨j, hj, h⟩)
        · exact ⟨i + 1, le_rfl, h⟩
        · exact ⟨j, hj.trans (Nat.le_succ i), h⟩
      · rintro ⟨j, hj, h⟩
        rcases Nat.le_succ_iff.mp hj with hj | rfl
        · exact .inr ⟨j, hj, h⟩
        · exact .inl h

end

end Loop

/-- What `Get` leaves in a set that was empty. -/
def combination (lt : T → T → Bool) (items : List T) (counter : ℤ) : List (T × Unit) :=
  (get lt [] ⟨items, counter⟩).getD []

def combinations (lt : T → T → Bool) (items : List T) : List (List (T × Unit)) :=
  (List.range (2 ^ items.length - 1)).map fun k =>
    combination lt items ((2 ^ items.length - 1 - k : ℕ) : ℤ)

theorem nodup_of_distinct {lt : T → T → Bool} {items : List T} (hlt : StrictWeak lt)
    (hdistinct : items.Pairwise fun a b => equiv lt a b = false) : items.Nodup :=
  hdistinct.imp fun hab heq => by
    rw [heq, hlt.equiv_refl] at hab
    cases hab

section
variable {lt : T → T → Bool} {items : List T} (hlt : StrictWeak lt)
  (hdistinct : items.Pairwise fun a b => equiv lt a b = false) (hpos : 1 ≤ items.length)
    (hmax : items.length ≤ 63)
include hlt hdistinct hpos hmax

theorem get_picks (counter : ℤ) :
    get lt [] ⟨items, counter⟩ = some (combination lt items counter) ∧
      Sorted lt (combination lt items counter) ∧
      ∀ e, e ∈ combination lt items counter ↔
        ∃ j, items[j]? = some e.1 ∧ (BitVec.ofInt 64 counter).getLsbD j = true := by
  obtain ⟨n, hn⟩ := Nat.exists_eq_add_of_le' hpos
  have hget : get lt [] ⟨items, counter⟩ = getLoop lt items counter (BitVec.twoPow 64 n) n [] := by
    rw [get, hn]
    show (entry powerOf2 n).bind _ = _
    rw [entry_eq powerOf2 (by omega), powerOf2_eq]
    rfl
  obtain ⟨s, hrun, hs, hmem⟩ :=
    getLoop_picks hlt hdistinct counter (by omega : n < 64) (by omega : n < items.length)
    (sorted_nil lt) (fun e he => absurd he List.not_mem_nil)
  rw [combination, hget, hrun]
  refine ⟨rfl, hs, fun e => (hmem e).trans ⟨?_, ?_⟩⟩
  · rintro (he | ⟨j, -, h⟩)
    · cases he
    · exact ⟨j, h⟩
  · rintro ⟨j, hj, hbit⟩
    obtain ⟨hlen, -⟩ := List.getElem?_eq_some_iff.mp hj
    exact .inr ⟨j, by omega, hj, hbit⟩

theorem mem_combination (c : ℕ) (e : T × Unit) :
    e ∈ combination lt items c ↔ Picks items c e.1 := by
  rw [(get_picks hlt hdistinct hpos hmax c).2.2]
  refine exists_congr fun j => and_congr_right fun hj => ?_
  obtain ⟨hlen, -⟩ := List.getElem?_eq_some_iff.mp hj
  rw [BitVec.ofInt_natCast, BitVec.getLsbD_ofNat, decide_eq_true (by omega), Bool.true_and]

theorem getNext_eq {counter : ℤ} (hmin : -2 ^ 63 < counter) :
    getNext lt [] ⟨items, counter⟩ =
      some (decide (0 < counter), combination lt items counter, ⟨items, counter - 1⟩) := by
  rw [getNext, (get_picks hlt hdistinct hpos hmax counter).1]
  exact if_neg hmin.ne'

theorem calls_eq (n : ℕ) {counter : ℤ} (hmin : -2 ^ 63 ≤ counter - n) :
    calls lt n ⟨items, counter⟩ =
      some ((List.range n).map fun k : ℕ =>
        (decide (0 < counter - k), combination lt items (counter - k)), ⟨items, counter - n⟩) := by
  induction n generalizing counter with
  | zero =>
    rw [calls, Int.natCast_zero, Int.sub_zero]
    rfl
  | succ n ih =>
    have hnext : counter - 1 - n = counter - (n + 1 : ℕ) := by omega
    have hk : ∀ k : ℕ, counter - 1 - k = counter - (k + 1 : ℕ) := fun k => by omega
    rw [calls, getNext_eq hlt hdistinct hpos hmax (by omega)]
    simp only [Option.bind_eq_bind, Option.bind_some]
    rw [ih (hnext ▸ hmin), hnext, Option.bind_some, List.range_succ_eq_map, List.map_cons,
      List.map_map]
    simp only [hk, Int.natCast_zero, Int.sub_zero]
    rfl

/-- The numbers from `2 ^ n - 1` down to 1 give the sets of items that are not empty. -/
theorem mem_combinations_iff {s : List (T × Unit)} :
    s ∈ combinations lt items ↔ s ≠ [] ∧ Sorted lt s ∧ ∀ e ∈ s, e.1 ∈ items := by
  have hmem := mem_combination hlt hdistinct hpos hmax
  have hnodup := nodup_of_distinct hlt hdistinct
  rw [combinations, List.mem_map]
  constructor
  · rintro ⟨k, hk, rfl⟩
    have hlt' := List.mem_range.mp hk
    refine ⟨fun hnil => ?_, (get_picks hlt hdistinct hpos hmax _).2.1,
      fun e he => ((hmem _ e).mp he).mem⟩
    obtain ⟨a, ha⟩ := (exists_picks_iff hnodup (c := 2 ^ items.length - 1 - k) (by omega)).mpr
      (by omega)
    have hin := (hmem _ (a, ())).mpr ha
    rw [hnil] at hin
    cases hin
  · rintro ⟨hne, hs, hitems⟩
    obtain ⟨c, hc, hpicks⟩ := exists_picks hnodup fun a => (a, ()) ∈ s
    obtain ⟨e, he⟩ := List.exists_mem_of_ne_nil s hne
    have hpositive : c ≠ 0 :=
      (exists_picks_iff hnodup hc).mp ⟨e.1, (hpicks e.1).mpr ⟨hitems e he, he⟩⟩
    refine ⟨2 ^ items.length - 1 - c, List.mem_range.mpr (by omega), ?_⟩
    rw [show 2 ^ items.length - 1 - (2 ^ items.length - 1 - c) = c by omega]
    refine Sorted.ext hlt (get_picks hlt hdistinct hpos hmax _).2.1 hs fun e => ?_
    rw [hmem, hpicks]
    exact ⟨fun h => h.2, fun h => ⟨hitems e h, h⟩⟩

theorem combinations_nodup : (combinations lt items).Nodup := by
  have hnodup := nodup_of_distinct hlt hdistinct
  refine List.Nodup.map_on (fun j hj k hk heq => ?_) List.nodup_range
  have hj' := List.mem_range.mp hj
  have hk' := List.mem_range.mp hk
  have hsame : 2 ^ items.length - 1 - j = 2 ^ items.length - 1 - k := by
    refine picks_injective hnodup (by omega) (by omega) fun a => ?_
    rw [← mem_combination hlt hdistinct hpos hmax _ (a, ()), heq,
      mem_combination hlt hdistinct hpos hmax _ (a, ())]
  omega

/-- The calls of `GetNext` that return true give every set of items but the empty one, each once;
after them the calls return false. -/
theorem generates_every_subset :
    ∃ (g : UniqueCombinationGenerator T) (sets : List (List (T × Unit))), create items = some g ∧
      sets.length = 2 ^ items.length - 1 ∧ sets.Nodup ∧
      (∀ s, s ∈ sets ↔ s ≠ [] ∧ Sorted lt s ∧ ∀ e ∈ s, e.1 ∈ items) ∧
      ∀ m ≤ 2 ^ 63, ∃ later, later.length = m ∧ (∀ r ∈ later, r.1 = false) ∧
        (g.calls lt (2 ^ items.length - 1 + m)).map Prod.fst =
          some (sets.map (fun s => (true, s)) ++ later) := by
  have hone : 1 ≤ 2 ^ items.length := Nat.one_le_two_pow
  have hcreate : create items = some ⟨items, ((2 ^ items.length - 1 : ℕ) : ℤ)⟩ := by
    rw [create, entry_eq maxInt hmax, Option.map_some, maxInt_toInt hpos hmax, Int.ofNat_sub hone,
      Int.natCast_pow]
    rfl
  refine ⟨_, combinations lt items, hcreate, ?_, combinations_nodup hlt hdistinct hpos hmax,
    fun s => mem_combinations_iff hlt hdistinct hpos hmax, fun m hm => ?_⟩
  · rw [combinations, List.length_map, List.length_range]
  · set N := 2 ^ items.length - 1
    refine ⟨(List.range m).map fun k :
      ℕ => (decide (0 < (N : ℤ) - (N + k : ℕ)), combination lt items ((N : ℤ) - (N + k : ℕ))), ?_,
        ?_, ?_⟩
    · rw [List.length_map, List.length_range]
    · rintro r hr
      obtain ⟨k, -, rfl⟩ := List.mem_map.mp hr
      exact decide_eq_false (by omega)
    · rw [calls_eq hlt hdistinct hpos hmax (N + m) (by omega), Option.map_some, List.range_add,
        List.map_append, List.map_map, combinations, List.map_map]
      refine congrArg some (congrArg₂ _ (List.map_congr_left fun k hk => ?_) rfl)
      have hk' := List.mem_range.mp hk
      rw [Function.comp_apply, Int.ofNat_sub hk'.le, decide_eq_true (by omega)]

end

theorem generates_every_subset_two :
    ∃ (g : UniqueCombinationGenerator ℕ) (sets : List (List (ℕ × Unit))), create [1, 2] = some g ∧
      sets.length = 3 ∧ sets.Nodup ∧
      (∀ s, s ∈ sets ↔ s ≠ [] ∧ Sorted (fun a b => decide (a < b)) s ∧ ∀ e ∈ s, e.1 ∈ [1, 2]) ∧
      ∀ m ≤ 2 ^ 63, ∃ later, later.length = m ∧ (∀ r ∈ later, r.1 = false) ∧
        (g.calls (fun a b => decide (a < b)) (3 + m)).map Prod.fst =
          some (sets.map (fun s => (true, s)) ++ later) :=
  @generates_every_subset ℕ _ [1, 2] strictWeak_lt (by decide) (by decide) (by decide)

example :
    ((create [1, 2]).bind (calls (fun a b : ℕ => decide (a < b)) 4)).map
      (fun r => r.1.map fun c => (c.1, c.2.map Prod.fst)) =
    some [(true, [1, 2]), (true, [2]), (true, [1]), (false, [])] := by decide

end UniqueCombinationGenerator

end Nkit
