import Nkit.Dynamic.OperandReads

/-! Strings and lists times a number.  The number is cut down to 32 bits on its way to the loop, and
the size of the result is reserved before it. -/

namespace Nkit

section Repeated
variable {α β : Type*} (xs : List α)

/-- `ys` is `xs` over and over, `n` times. -/
def Repeats (n : ℤ) (xs ys : List α) : Prop :=
  ys.length = xs.length * n.toNat ∧ ∀ i < ys.length, ys[i]? = xs[i % xs.length]?

theorem repeated_succ (n : ℕ) : repeated xs (n + 1 : ℕ) = repeated xs n ++ xs := by
  simp only [repeated, Int.toNat_natCast, List.range_succ, List.foldl_append, List.foldl_cons,
    List.foldl_nil]

theorem repeated_toNat (count : ℤ) : repeated xs count = repeated xs count.toNat := rfl

theorem length_repeated (n : ℕ) : (repeated xs n).length = xs.length * n := by
  induction n with
  | zero => rfl
  | succ n ih => rw [repeated_succ, List.length_append, ih, Nat.mul_succ]

theorem getElem?_repeated (n : ℕ) {i : ℕ} (hi : i < xs.length * n) :
    (repeated xs n)[i]? = xs[i % xs.length]? := by
  induction n with
  | zero => exact absurd hi (Nat.not_lt_zero i)
  | succ n ih =>
    rw [repeated_succ]
    by_cases hlt : i < xs.length * n
    · rw [List.getElem?_append_left (by rwa [length_repeated]), ih hlt]
    · obtain ⟨j, rfl⟩ := Nat.exists_eq_add_of_le (Nat.le_of_not_lt hlt)
      have hj : j < xs.length := by
        rw [Nat.mul_succ] at hi
        omega
      rw [List.getElem?_append_right (by rw [length_repeated]; omega), length_repeated,
        Nat.add_sub_cancel_left, Nat.mul_add_mod, Nat.mod_eq_of_lt hj]

theorem repeats_repeated_iff (n count : ℤ) :
    Repeats n xs (repeated xs count) ↔ xs.length * count.toNat = xs.length * n.toNat := by
  unfold Repeats
  rw [repeated_toNat, length_repeated]
  exact ⟨And.left, fun h => ⟨h, fun i hi => getElem?_repeated xs _ hi⟩⟩

theorem forall₂_repeated {R : α → β → Prop} {ys : List β} (h : List.Forall₂ R xs ys) (count : ℤ) :
    List.Forall₂ R (repeated xs count) (repeated ys count) := by
  rw [repeated_toNat, repeated_toNat ys]
  induction count.toNat with
  | zero => exact .nil
  | succ n ih =>
    rw [repeated_succ, repeated_succ]
    exact List.rel_append ih h

end Repeated

theorem repeatCount_eq (w : BitVec 64) :
    repeatCount w = if w.toInt % 2 ^ 32 < 2 ^ 31 then w.toInt % 2 ^ 32
      else w.toInt % 2 ^ 32 - 2 ^ 32 := by
  have hlt := w.isLt
  have hmod : w.toInt % 2 ^ 32 = ((w.toNat % 2 ^ 32 : ℕ) : ℤ) := by
    rw [BitVec.toInt_eq_toNat_cond]
    split_ifs <;> omega
  rw [hmod, repeatCount, BitVec.toInt_eq_toNat_cond, BitVec.toNat_setWidth]
  split_ifs <;> omega

/-- The counts that come through: those that keep their value in 32 bits, and the negative ones that
become zero or a negative number small enough for `reserve`. -/
def CountKept (limit size : ℕ) (n : ℤ) : Prop :=
  size = 0 ∨ (0 ≤ n ∧ n < 2 ^ 31) ∨
    (n < 0 ∧
      (n % 2 ^ 32 = 0 ∨ (2 ^ 31 ≤ n % 2 ^ 32 ∧ size * (n % 2 ^ 32 - 2 ^ 32) % 2 ^ 64 ≤ limit)))

theorem countKept_iff {limit size : ℕ} (n : BitVec 64) (hfits : size * n.toInt.toNat ≤ limit) :
    (¬limit < (size * repeatCount n % 2 ^ 64).toNat ∧ size * (repeatCount n).toNat =
      size * n.toInt.toNat) ↔
      CountKept limit size n.toInt := by
  by_cases hsize : size = 0
  · subst hsize
    simp [CountKept]
  have hinj : size * (repeatCount n).toNat = size * n.toInt.toNat ↔
      (repeatCount n).toNat = n.toInt.toNat :=
    Nat.mul_right_inj hsize
  have hcount := repeatCount_eq n
  rw [hinj]
  unfold CountKept
  by_cases hneg : n.toInt < 0
  · -- the claim is for an empty result
    by_cases hzero : n.toInt % 2 ^ 32 = 0
    · rw [if_pos (by omega), hzero] at hcount
      rw [hcount, Int.mul_zero]
      refine ⟨fun _ => .inr (.inr ⟨hneg, .inl hzero⟩), fun _ => ⟨Nat.not_lt_zero limit, ?_⟩⟩
      omega
    · -- the low half is the count that `repeatCount` sees; its top bit is the sign
      by_cases hlow : n.toInt % 2 ^ 32 < 2 ^ 31
      · rw [if_pos hlow] at hcount
        constructor
        · rintro ⟨-, h⟩
          omega
        · rintro (h | ⟨h, -⟩ | ⟨-, h | ⟨h, -⟩⟩) <;> omega
      · rw [if_neg hlow] at hcount
        have hnonneg :=
          Int.emod_nonneg (size * (n.toInt % 2 ^ 32 - 2 ^ 32)) (show (2 ^ 64 : ℤ) ≠ 0 by decide)
        rw [hcount]
        constructor
        · rintro ⟨h, -⟩
          exact .inr (.inr ⟨hneg, .inr ⟨by omega, by omega⟩⟩)
        · rintro (h | ⟨h, -⟩ | ⟨-, h | ⟨-, h⟩⟩)
          · exact absurd h hsize
          · omega
          · exact absurd h hzero
          · exact ⟨by omega, by omega⟩
  · by_cases hsmall : n.toInt < 2 ^ 31
    · have hkept : repeatCount n = n.toInt := by
        rw [hcount, Int.emod_eq_of_lt (by omega) (by omega), if_pos hsmall]
      have hproduct : ((size * n.toInt.toNat : ℕ) : ℤ) = size * n.toInt := by
        rw [Nat.cast_mul, Int.toNat_of_nonneg (by omega)]
      have hmod : (size * n.toInt % 2 ^ 64).toNat ≤ limit := by
        rw [← hproduct]
        omega
      rw [hkept]
      exact ⟨fun _ => .inr (.inl ⟨by omega, hsmall⟩), fun _ => ⟨Nat.not_lt_of_le hmod, rfl⟩⟩
    · constructor
      · rintro ⟨-, h⟩
        split_ifs at hcount <;> omega
      · rintro (h | ⟨-, h⟩ | ⟨h, -⟩) <;> omega

/-- The sequence over and over, `n` times. -/
def DynTree.Repeated (n : ℤ) : DynTree → DynTree → Prop
  | string s, string s' => Repeats n s s'
  | list ts, list ts' => Repeats n ts ts'
  | _, _ => False

/-- The size `reserve` provides to values of the type. -/
def Limits.of (limits : Limits) : DynTree → ℕ
  | .list _ => limits.vector
  | _ => limits.string

section Acyclic
variable {m : Store} {P : Set ℕ} {d : Dyn} {t : DynTree}

theorem Shows.without {a : ℕ} {ts : List DynTree} (h : Shows m P d t)
    (ha : Shows m P (.shared a) (.list ts)) (hsize : sizeOf t < sizeOf (DynTree.list ts)) :
    Shows m (P \ {a}) d t := by
  obtain ⟨_, items, heq, hvector, -⟩ := ha.getVector_list rfl
  cases heq
  have hkind : ∀ {b : ℕ} {o : StoreObject}, m.objs b = some o → (∀ items, o ≠ .vector items) →
      b ∈ P → b ∈ P \ {a} := by
    rintro b o hobj hother hb
    refine ⟨hb, ?_⟩
    rintro rfl
    rw [hvector] at hobj
    exact hother items (Option.some.inj hobj).symm
  induction h with
  | plain type data => exact .plain type data
  | string hobj hb => exact .string hobj (hkind hobj (fun _ h => nomatch h) hb)
  | oid hobj hb => exact .oid hobj (hkind hobj (fun _ h => nomatch h) hb)
  | @list b items' ts' hobj hb hlen hitems ih =>
    have hself : Shows m P (.shared b) (.list ts') := .list hobj hb hlen hitems
    refine .list hobj ⟨hb, ?_⟩ hlen fun i x t hx ht => ih i x t hx ht ?_
    · rintro rfl
      rw [hself.unique ha] at hsize
      exact Nat.lt_irrefl _ hsize
    · exact (sizeOf_lt_list (List.mem_of_getElem? ht)).trans hsize
  | @dict b entries tes hobj hb hsorted hkeys hvalues ih =>
    refine .dict hobj (hkind hobj (fun _ h => nomatch h) hb) hsorted hkeys fun k x t hx ht =>
      ih k x t hx ht ?_
    exact (sizeOf_lt_dict ht).trans hsize
  | table hobj hb hrows =>
    refine .table hobj (hkind hobj (fun _ h => nomatch h) hb)
      (hrows.imp fun _ _ hrow => hrow.imp fun _ _ hc => ?_)
    cases hc with
    | plain type data => exact .plain type data
    | string hobj hb => exact .string hobj (hkind hobj (fun _ h => nomatch h) hb)

end Acyclic

section Repetition
variable {lib : CLib} {limits : Limits} {m : Store} {P : Set ℕ} {v : Dyn} {t : DynTree}
  {n : BitVec 64}

theorem Shows.shared_of_sequence (h : Shows m P v t) (hseq : t.type = .string ∨ t.type = .list) :
    ∃ a, v = .shared a := by
  cases h with
  | plain type data => cases type <;> rcases hseq with h | h <;> cases h
  | string | oid | list | dict | table => exact ⟨_, rfl⟩

/-- A count that `reserve` refuses. -/
theorem repetition_too_long (hv : Shows m P v t) (hseq : t.type = .string ∨ t.type = .list)
    (h : limits.of t < (t.size * repeatCount n % 2 ^ 64).toNat) :
    m.assignment lib limits .mul v (.plain .integer n) = .error .length := by
  refine assignment_error.mpr (operation_refused hv (.plain .integer n) ⟨rfl, ?_⟩)
  cases t with
  | string s =>
    refine .inl ⟨rfl, ?_⟩
    rw [DynTree.getUInt, BitVec.ofNat_toNat, BitVec.setWidth_eq]
    exact h
  | list ts =>
    refine .inr ⟨rfl, ?_⟩
    rw [DynTree.getInt, BitVec.ofInt_toInt]
    exact h
  | plain type data => cases type <;> rcases hseq with h | h <;> cases h
  | oid | dict | table => rcases hseq with h | h <;> cases h

/-- A count that `reserve` accepts. -/
theorem reserve_at (lib : CLib) (hfits : ¬limits.of t < (t.size * repeatCount n % 2 ^ 64).toNat)
    (a : ℕ) (hv : Shows m P (.shared a) t) (hseq : t.type = .string ∨ t.type = .list) :
    ∃ m' u, m.assignment lib limits .mul (.shared a) (.plain .integer n) = .ok (.shared a, m') ∧
      (∀ b ≠ a, m'.objs b = m.objs b) ∧ Shows m' P (.shared a) u ∧
      (DynTree.Repeated n.toInt t u ↔ t.size * (repeatCount n).toNat = t.size * n.toInt.toNat) := by
  cases hv with
  | @string _ s hobj ha =>
    refine ⟨m.put a (.string (repeated s (repeatCount n))), .string (repeated s (repeatCount n)),
      ?_, fun b hb => Store.put_same _ hb, .string (Store.put_self ..) ha,
        repeats_repeated_iff s _ _⟩
    have hlimit : ¬limits.string < (s.length * repeatCount n % 2 ^ 64).toNat := hfits
    unfold Store.assignment
    rw [operation_string hobj, stringMul_eq (n := n.toNat) hobj rfl, BitVec.ofNat_toNat,
      BitVec.setWidth_eq, if_neg hlimit]
    rfl
  | @list _ items ts hobj ha hlen hitems =>
    have hself : Shows m P (.shared a) (.list ts) := .list hobj ha hlen hitems
    have hput : ∀ b ≠ a, (m.put a (.vector (repeated items (repeatCount n)))).objs b = m.objs b :=
      fun b hb => Store.put_same _ hb
    have hpairs : List.Forall₂ (Shows (m.put a (.vector (repeated items (repeatCount n)))) P) items
        ts := by
      refine List.forall₂_iff_get.mpr ⟨hlen, fun i hi hi' => ?_⟩
      have hitem := hitems i _ _ (List.getElem?_eq_getElem hi) (List.getElem?_eq_getElem hi')
      exact (hitem.without hself (sizeOf_lt_list (List.getElem_mem hi'))).frame
        (fun b hb => hput b hb.2) Set.sdiff_subset
    obtain ⟨hlen', hshows⟩ :=
      List.forall₂_iff_get.mp (forall₂_repeated items hpairs (repeatCount n))
    refine ⟨m.put a (.vector (repeated items (repeatCount n))), .list (repeated ts (repeatCount n)),
      ?_, hput, .list (Store.put_self ..) ha hlen' fun i x t hx ht => ?_,
        repeats_repeated_iff ts _ _⟩
    · have hlimit : ¬limits.vector < (ts.length * repeatCount n % 2 ^ 64).toNat := hfits
      unfold Store.assignment
      rw [operation_list hobj, listMul_eq (n := n.toInt) hobj rfl, BitVec.ofInt_toInt, hlen,
        if_neg hlimit]
      rfl
    · obtain ⟨hi, rfl⟩ := List.getElem?_eq_some_iff.mp hx
      obtain ⟨hi', rfl⟩ := List.getElem?_eq_some_iff.mp ht
      exact hshows i hi hi'
  | oid | dict | table => rcases hseq with h | h <;> cases h

end Repetition

/-- A string or a list times a number is the sequence repeated as often, exactly for the counts that
come through, if the result can be held at all. -/
theorem repetition_exact_iff (lib : CLib) (limits : Limits) (fuel : ℕ) (m : Store) (s : Dyn)
    (t : DynTree) (n : BitVec 64) (hb : m.Bounded) (hs : Shows m Set.univ s t)
    (hseq : t.type = .string ∨ t.type = .list) (ht : t.Storable) (hfuel : sizeOf t < fuel)
    (hfits : t.size * n.toInt.toNat ≤ limits.of t) :
    (∃ r m' u, m.binary lib limits fuel .mul s (.plain .integer n) = .ok (r, m') ∧
      Shows m' Set.univ r u ∧
      DynTree.Repeated n.toInt t u ∧ Shows m' Set.univ s t) ↔
        CountKept (limits.of t) t.size n.toInt := by
  rw [← countKept_iff n hfits]
  obtain ⟨v', m', hcopy, hgrown, hv', hnew⟩ := leftCopy_shows hb hs ht hfuel
  obtain ⟨a, rfl⟩ := hv'.shared_of_sequence hseq
  rw [binary_eq hcopy]
  by_cases hlimit : limits.of t < (t.size * repeatCount n % 2 ^ 64).toNat
  · rw [repetition_too_long hv' hseq hlimit]
    constructor
    · rintro ⟨r, m₂, u, hr, -⟩
      cases hr
    · rintro ⟨h, -⟩
      exact absurd hlimit h
  · obtain ⟨m₂, u, hrun, hsame, hu, hrepeated⟩ := reserve_at lib hlimit a hv' hseq
    rw [hrun, and_iff_right hlimit, ← hrepeated]
    constructor
    · rintro ⟨r, m₃, u', hr, hu', hrep, -⟩
      cases hr
      rwa [hu.unique hu']
    · intro hrep
      have hold : Shows m' (Set.Iio m.next) s t :=
        (hs.allocated hb).frame (fun b hb => hgrown.same b hb) subset_rfl
      refine ⟨_, _, u, rfl, hu, hrep, hold.frame (fun b hb => hsame b ?_) (Set.subset_univ _)⟩
      exact (Nat.lt_of_lt_of_le hb (hnew a rfl)).ne

theorem repetition_exact_iff_three :
    ∃ r m' u, singletonStore.binary noConversions ⟨9, 9⟩ 20 .mul (.shared 0) (.plain .integer 3) =
      .ok (r, m') ∧
      Shows m' Set.univ r u ∧ DynTree.Repeated 3 (.list [.plain .integer 7]) u ∧
      Shows m' Set.univ (.shared 0) (.list [.plain .integer 7]) :=
  (repetition_exact_iff noConversions ⟨9, 9⟩ 20 singletonStore (.shared 0)
    (.list [.plain .integer 7]) 3
    singletonStore_bounded shows_singletonStore (.inr rfl) storable_singleton (by decide)
    (by decide)).mpr
    (.inr (.inl ⟨by decide, by decide⟩))

/-- Minus one is an error instead of an empty list. -/
theorem repetition_minus_one :
    ¬∃ r m' u, singletonStore.binary noConversions ⟨9, 9⟩ 20 .mul (.shared 0)
      (.plain .integer (-1)) = .ok (r, m') ∧
      Shows m' Set.univ r u ∧ DynTree.Repeated (-1) (.list [.plain .integer 7]) u ∧
      Shows m' Set.univ (.shared 0) (.list [.plain .integer 7]) := by
  rintro ⟨r, m', u, hr, -⟩
  obtain ⟨v', m₂, hcopy, -, hv', -⟩ :=
    leftCopy_shows singletonStore_bounded shows_singletonStore storable_singleton
    (show sizeOf (DynTree.list [.plain .integer 7]) < 20 by decide)
  rw [binary_eq hcopy, repetition_too_long hv' (.inr rfl) (by decide)] at hr
  cases hr

end Nkit
