import Nkit.Table.KeyOrder

/-! Which masks have a comparator.  The template recursion registers every list of up to
three items over the indexed types; a mask is accepted if its items are of these types and
its parts fit into `IndexCompare`, which has room for one part more than a key has. -/

namespace Nkit
open OrderedMap

variable {v v1 v2 v3 : ColumnType} {l l1 l2 l3 : List ColumnType} {os : List ItemOrder}

theorem mem_signs1 : os ∈ signs1 v ↔ ∃ d, os = [⟨v, d⟩] := by
  simp [signs1, Bool.exists_bool]

theorem mem_signs2 : os ∈ signs2 v1 v2 ↔ ∃ d1 d2, os = [⟨v1, d1⟩, ⟨v2, d2⟩] := by
  simp [signs2, Bool.exists_bool, or_assoc]

theorem mem_signs3 : os ∈ signs3 v1 v2 v3 ↔ ∃ d1 d2 d3, os = [⟨v1, d1⟩, ⟨v2, d2⟩, ⟨v3, d3⟩] := by
  simp only [signs3, List.mem_cons, List.not_mem_nil, or_false, Bool.exists_bool]
  tauto

theorem mem_setter1 : os ∈ setter1 l ↔ ∃ v ∈ l, os ∈ signs1 v := by
  induction l with
  | nil => simp [setter1]
  | cons v l ih => simp [setter1, ih]

theorem mem_setter2₂ : os ∈ setter2₂ v1 l ↔ ∃ v2 ∈ l, os ∈ signs2 v1 v2 := by
  induction l with
  | nil => simp [setter2₂]
  | cons v l ih => simp [setter2₂, ih]

theorem mem_setter2 : os ∈ setter2 l1 l2 ↔ ∃ v1 ∈ l1, ∃ v2 ∈ l2, os ∈ signs2 v1 v2 := by
  induction l1 with
  | nil => simp [setter2]
  | cons v1 l1 ih =>
    cases l2 with
    | nil => simp [setter2]
    | cons v2 l2 =>
      simp only [setter2, List.mem_append, ih, mem_setter2₂, List.mem_cons, exists_eq_or_imp]
      exact or_right_comm

theorem mem_setter3₃ : os ∈ setter3₃ v1 v2 l ↔ ∃ v3 ∈ l, os ∈ signs3 v1 v2 v3 := by
  induction l with
  | nil => simp [setter3₃]
  | cons v l ih => simp [setter3₃, ih]

theorem mem_setter3₂ : os ∈ setter3₂ v1 l2 l3 ↔ ∃ v2 ∈ l2, ∃ v3 ∈ l3, os ∈ signs3 v1 v2 v3 := by
  induction l2 with
  | nil => simp [setter3₂]
  | cons v2 l2 ih =>
    cases l3 with
    | nil => simp [setter3₂]
    | cons v3 l3 =>
      simp only [setter3₂, List.mem_append, ih, mem_setter3₃, List.mem_cons, exists_eq_or_imp]
      exact or_right_comm

theorem mem_setter3 :
    os ∈ setter3 l1 l2 l3 ↔ ∃ v1 ∈ l1, ∃ v2 ∈ l2, ∃ v3 ∈ l3, os ∈ signs3 v1 v2 v3 := by
  induction l1 with
  | nil => simp [setter3]
  | cons v1 l1 ih =>
    cases l2 with
    | nil => simp [setter3]
    | cons v2 l2 =>
      cases l3 with
      | nil => simp [setter3]
      | cons v3 l3 =>
        simp only [setter3, List.mem_append, ih, mem_setter3₂, mem_setter3₃, List.mem_cons,
          exists_eq_or_imp]
        exact iff_of_eq (by ac_rfl)

theorem registered_iff :
    os ∈ setter1 indexedTypes ++ setter2 indexedTypes indexedTypes ++
        setter3 indexedTypes indexedTypes indexedTypes ↔
      os ≠ [] ∧ os.length ≤ tableIndexPartSize ∧ ∀ o ∈ os, o.type ∈ indexedTypes := by
  simp only [List.mem_append, mem_setter1, mem_setter2, mem_setter3, mem_signs1, mem_signs2,
    mem_signs3]
  constructor
  · rintro ((⟨v, hv, d, rfl⟩ | ⟨v1, h1, v2, h2, d1, d2, rfl⟩)
      | ⟨v1, h1, v2, h2, v3, h3, d1, d2, d3, rfl⟩)
    · exact ⟨by simp, by simp [tableIndexPartSize], by simpa using hv⟩
    · exact ⟨by simp, by simp [tableIndexPartSize], by simpa using ⟨h1, h2⟩⟩
    · exact ⟨by simp, by simp [tableIndexPartSize], by simpa using ⟨h1, h2, h3⟩⟩
  · rintro ⟨hne, hlen, htypes⟩
    match os, hne, hlen, htypes with
    | [⟨v, d⟩], _, _, htypes =>
      exact .inl (.inl ⟨v, htypes ⟨v, d⟩ (by simp), d, rfl⟩)
    | [⟨v1, d1⟩, ⟨v2, d2⟩], _, _, htypes =>
      exact .inl (.inr ⟨v1, htypes ⟨v1, d1⟩ (by simp), v2, htypes ⟨v2, d2⟩ (by simp), d1, d2, rfl⟩)
    | [⟨v1, d1⟩, ⟨v2, d2⟩, ⟨v3, d3⟩], _, _, htypes =>
      exact .inr ⟨v1, htypes ⟨v1, d1⟩ (by simp), v2, htypes ⟨v2, d2⟩ (by simp),
        v3, htypes ⟨v3, d3⟩ (by simp), d1, d2, d3, rfl⟩
    | _ :: _ :: _ :: _ :: _, _, hlen, _ =>
      simp only [List.length_cons, tableIndexPartSize] at hlen
      omega

theorem lookup_map_mk_iff {l : List (List ItemOrder)} :
    (∃ f, (l.map fun os => (maskText os, KeyCompare.mk os)).lookup (maskText os) = some f) ↔
      os ∈ l := by
  induction l with
  | nil => simp
  | cons os' l ih =>
    rw [List.map_cons, List.lookup_cons, List.mem_cons]
    by_cases heq : os = os'
    · subst heq
      simp
    · have hne : (maskText os == maskText os') = false := beq_false_of_ne fun h =>
        heq (maskText_injective h)
      rw [hne, ih, or_iff_right heq]

def HasPart (os : List ItemOrder) : Prop :=
  os ≠ [] ∧ os.length ≤ tableIndexPartSize ∧ ∀ o ∈ os, o.type ∈ indexedTypes

theorem appendPart_ok_iff {result : IndexCompare} :
    (∃ c, result.appendPart (maskText os) = .ok c) ↔
      HasPart os ∧ result.fcomp.length ≠ IndexCompare.maxSize := by
  have hlookup : (∃ f, comparatorsMap.lookup (maskText os) = some f) ↔ HasPart os :=
    lookup_map_mk_iff.trans registered_iff
  rw [← hlookup]
  unfold IndexCompare.appendPart IndexCompare.appendPartCompare
  cases comparatorsMap.lookup (maskText os) with
  | none => simp
  | some f =>
    by_cases hfull : result.fcomp.length = IndexCompare.maxSize
    · simp [hfull]
    · simp [hfull]

/-- The `i`-th full part of a mask. -/
def partAt (os : List ItemOrder) (i : ℕ) : List ItemOrder :=
  (os.drop (i * tableIndexPartSize)).take tableIndexPartSize

theorem appendFullParts_succ (n : ℕ) :
    appendFullParts (os.map ItemOrder.text) (n + 1) =
      (appendFullParts (os.map ItemOrder.text) n).bind fun r =>
        r.appendPart (maskText (partAt os n)) := by
  simp only [appendFullParts, List.range_succ, List.foldlM_append, List.foldlM_cons,
    List.foldlM_nil, bind_pure, maskText_slice]
  rfl

theorem exists_bind_ok_iff {ε α β : Type} {m : Except ε α} {f : α → Except ε β} :
    (∃ b, m.bind f = .ok b) ↔ ∃ a, m = .ok a ∧ ∃ b, f a = .ok b := by
  cases m <;> simp [Except.bind]

theorem appendFullParts_ok_iff (n : ℕ) :
    (∃ c, appendFullParts (os.map ItemOrder.text) n = .ok c) ↔
      (∀ i < n, HasPart (partAt os i)) ∧ n ≤ IndexCompare.maxSize := by
  induction n with
  | zero => simp [appendFullParts, pure, Except.pure]
  | succ n ih =>
    have hcount : ∀ r, appendFullParts (os.map ItemOrder.text) n = .ok r →
        ((∃ c, r.appendPart (maskText (partAt os n)) = .ok c) ↔
          HasPart (partAt os n) ∧ n ≠ IndexCompare.maxSize) := by
      intro r hr
      rw [appendPart_ok_iff, appendFullParts_ok hr, List.length_map, List.length_range]
    rw [appendFullParts_succ, exists_bind_ok_iff]
    constructor
    · rintro ⟨r, hr, hc⟩
      obtain ⟨hparts, hle⟩ := ih.mp ⟨r, hr⟩
      obtain ⟨hpart, hne⟩ := (hcount r hr).mp hc
      refine ⟨fun i hi => ?_, by omega⟩
      obtain hlt | rfl := Nat.lt_succ_iff_lt_or_eq.mp hi
      · exact hparts i hlt
      · exact hpart
    · rintro ⟨hparts, hle⟩
      obtain ⟨r, hr⟩ := ih.mpr ⟨fun i hi => hparts i (by omega), by omega⟩
      exact ⟨r, hr, (hcount r hr).mpr ⟨hparts n (by omega), by omega⟩⟩

theorem forall_partAt_iff {n : ℕ} {P : ItemOrder → Prop} :
    (∀ i < n, ∀ o ∈ partAt os i, P o) ↔ ∀ o ∈ os.take (n * tableIndexPartSize), P o := by
  rw [← slices_flatten]
  simp only [List.mem_flatMap, List.mem_range]
  exact ⟨fun h o ⟨i, hi, ho⟩ => h i hi o ho, fun h i hi o ho => h o ⟨i, hi, ho⟩⟩

theorem hasPart_of_full {i : ℕ} (hi : (i + 1) * tableIndexPartSize ≤ os.length) :
    HasPart (partAt os i) ↔ ∀ o ∈ partAt os i, o.type ∈ indexedTypes := by
  have hlen : (partAt os i).length = tableIndexPartSize := by
    rw [Nat.succ_mul] at hi
    rw [partAt, List.length_take, List.length_drop]
    omega
  refine ⟨fun h => h.2.2, fun h => ⟨?_, hlen.le, h⟩⟩
  rintro hnil
  rw [hnil] at hlen
  exact absurd hlen (by decide)

/-- **A mask has a comparator exactly if its items are of indexed types and its parts are no
more than `IndexCompare` has room for.** -/
theorem getComparator_ok_iff :
    (∃ c, getComparator (os.map ItemOrder.text) = .ok c) ↔
      (∀ o ∈ os, o.type ∈ indexedTypes) ∧
        os.length ≤ IndexCompare.maxSize * tableIndexPartSize := by
  set n := os.length / tableIndexPartSize with hn
  have hdiv : n * tableIndexPartSize + os.length % tableIndexPartSize = os.length :=
    Nat.div_add_mod' os.length tableIndexPartSize
  have hsmall : os.length % tableIndexPartSize < tableIndexPartSize := Nat.mod_lt _ (by decide)
  have hfull : (∃ c, appendFullParts (os.map ItemOrder.text) n = .ok c) ↔
      (∀ o ∈ os.take (n * tableIndexPartSize), o.type ∈ indexedTypes) ∧
        n ≤ IndexCompare.maxSize := by
    rw [appendFullParts_ok_iff, ← forall_partAt_iff]
    refine and_congr_left fun _ => forall₂_congr fun i hi => hasPart_of_full ?_
    have hle : (i + 1) * tableIndexPartSize ≤ n * tableIndexPartSize := Nat.mul_le_mul_right _ hi
    omega
  have hget : getComparator (os.map ItemOrder.text) =
      (appendFullParts (os.map ItemOrder.text) n).bind fun r =>
        if os.length % tableIndexPartSize ≠ 0 then
          r.appendPart
            (maskText ((os.drop (n * tableIndexPartSize)).take (os.length % tableIndexPartSize)))
        else .ok r := by
    unfold getComparator
    simp only [List.length_map, ← hn, maskText_slice]
    rfl
  have hrest : (os.drop (n * tableIndexPartSize)).length = os.length % tableIndexPartSize := by
    rw [List.length_drop]
    omega
  have hsplit : (∀ o ∈ os, o.type ∈ indexedTypes) ↔
      (∀ o ∈ os.take (n * tableIndexPartSize), o.type ∈ indexedTypes) ∧
        ∀ o ∈ os.drop (n * tableIndexPartSize), o.type ∈ indexedTypes := by
    rw [← List.forall_mem_append, List.take_append_drop]
  have hroom : IndexCompare.maxSize = 22 ∧ IndexCompare.maxSize * tableIndexPartSize = 66 :=
    ⟨rfl, rfl⟩
  -- three columns fill a part, and the last part may have fewer
  have hthree : n * 3 + (os.drop (n * tableIndexPartSize)).length = os.length := hrest ▸ hdiv
  rw [hget, exists_bind_ok_iff, hsplit, ← hrest, List.take_length]
  by_cases hlast : os.drop (n * tableIndexPartSize) = []
  · have hcount : n ≤ IndexCompare.maxSize ↔
        os.length ≤ IndexCompare.maxSize * tableIndexPartSize := by
      rw [hlast, List.length_nil] at hthree
      omega
    rw [← hcount, and_right_comm, ← hfull, hlast]
    simp
  · have hpos : (os.drop (n * tableIndexPartSize)).length ≠ 0 := fun h0 =>
      hlast (List.length_eq_zero_iff.mp h0)
    have hpart : HasPart (os.drop (n * tableIndexPartSize)) ↔
        ∀ o ∈ os.drop (n * tableIndexPartSize), o.type ∈ indexedTypes :=
      ⟨fun h => h.2.2, fun h => ⟨hlast, hrest ▸ hsmall.le, h⟩⟩
    have hcount : n ≤ IndexCompare.maxSize ∧ n ≠ IndexCompare.maxSize ↔
        os.length ≤ IndexCompare.maxSize * tableIndexPartSize := by
      have hshort : (os.drop (n * tableIndexPartSize)).length < 3 := hrest ▸ hsmall
      omega
    have hstep : ∀ r, appendFullParts (os.map ItemOrder.text) n = .ok r →
        ((∃ c, r.appendPart (maskText (os.drop (n * tableIndexPartSize))) = .ok c) ↔
          (∀ o ∈ os.drop (n * tableIndexPartSize), o.type ∈ indexedTypes) ∧
          n ≠ IndexCompare.maxSize) := by
      intro r hr
      rw [appendPart_ok_iff, hpart, appendFullParts_ok hr, List.length_map, List.length_range]
    simp only [if_pos hpos]
    constructor
    · rintro ⟨r, hr, hc⟩
      obtain ⟨htake, hle⟩ := hfull.mp ⟨r, hr⟩
      obtain ⟨hdrop, hne⟩ := (hstep r hr).mp hc
      exact ⟨⟨htake, hdrop⟩, hcount.mp ⟨hle, hne⟩⟩
    · rintro ⟨⟨htake, hdrop⟩, hlen⟩
      obtain ⟨hle, hne⟩ := hcount.mpr hlen
      obtain ⟨r, hr⟩ := hfull.mpr ⟨htake, hle⟩
      exact ⟨r, hr, (hstep r hr).mpr ⟨hdrop, hne⟩⟩

/-- **Every mask of up to 63 integer and string items has a comparator, and it is the
lexicographic order of the items**, each read by its type and reversed where the mask says
so; keys tie exactly when all their items agree. -/
theorem comparator_lexicographic (os : List ItemOrder) (hlen : os.length ≤ indexKeyMaxSize)
    (htypes : ∀ o ∈ os, o.type = .integer ∨ o.type = .unsignedInteger ∨ o.type = .string) :
    ∃ c, getComparator (os.map ItemOrder.text) = .ok c ∧
      (∀ a b, c.lt a b = lexBefore (os.map ItemOrder.descending)
        (readKeys (os.map ItemOrder.type) a)
        (readKeys (os.map ItemOrder.type) b)) ∧
      StrictWeak c.lt ∧
      ∀ a b, equiv c.lt a b = true ↔
        readKeys (os.map ItemOrder.type) a = readKeys (os.map ItemOrder.type) b := by
  have hindexed : ∀ o ∈ os, o.type ∈ indexedTypes := by
    intro o ho
    rcases htypes o ho with h | h | h <;> rw [h] <;> decide
  have horderable : ∀ o ∈ os, Orderable o.type := by
    intro o ho
    rcases htypes o ho with h | h | h <;> rw [h] <;> decide
  obtain ⟨c, hc⟩ := getComparator_ok_iff.mpr ⟨hindexed, hlen.trans (by decide)⟩
  have hlt := getComparator_lt horderable hc
  refine ⟨c, hc, fun a b => ?_, ?_, fun a b => ?_⟩
  · rw [hlt, itemsBefore_eq_lex]
  · rw [hlt]
    exact itemsBefore_strictWeak os
  · rw [hlt, itemsBefore_equiv]

theorem comparator_lexicographic_four :
    ∃ c, getComparator [ascii "-1", ascii "7", ascii "2", ascii "-7"] = .ok c ∧
      c.lt [.word 5, .str ⟨0, ascii "a"⟩, .word 1, .str ⟨0, ascii "b"⟩]
        [.word 5, .str ⟨1, ascii "a"⟩, .word 1, .str ⟨1, ascii "a"⟩] = true := by
  obtain ⟨c, hc, hlt, -⟩ := comparator_lexicographic
    [⟨.integer, true⟩, ⟨.string, false⟩, ⟨.unsignedInteger, false⟩, ⟨.string, true⟩] (by decide)
      (by decide)
  exact ⟨c, hc, (hlt _ _).trans (by decide)⟩

end Nkit
