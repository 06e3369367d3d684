import Nkit.Dynamic.Operators
import Nkit.Dynamic.Separation

/-! Which operands the arithmetic operators have a result for.  The right operand is read through
conversions that its own type picks, except that appending to a list takes it for a list. -/

namespace Nkit

structure SameOperand (lib : CLib) (x t : DynTree) : Prop where
  type : x.type = t.type
  getInt : x.getInt lib = t.getInt lib
  getUInt : x.getUInt lib = t.getUInt lib

section Shows
variable {lib : CLib} {m : Store} {P : Set ℕ} {d : Dyn} {t : DynTree}

theorem Shows.view (lib : CLib) (h : Shows m P d t) : SameOperand lib (m.view d) t := by
  cases h with
  | plain type data => exact ⟨rfl, rfl, rfl⟩
  | string hobj | oid hobj | list hobj | dict hobj | table hobj =>
    simp only [Store.view, hobj]
    exact ⟨rfl, rfl, rfl⟩

theorem Store.getString_shared {a : ℕ} {s : Bytes} (hobj : m.objs a = some (.string s)) :
    m.getString (.shared a) = .ok (a, s) := by
  simp only [Store.getString, Store.get, hobj]

theorem Store.getVector_shared {a : ℕ} {items : List Dyn} (hobj : m.objs a = some (.vector items)) :
    m.getVector (.shared a) = .ok (a, items) := by
  simp only [Store.getVector, Store.get, hobj]

theorem Shows.getVector_other (h : Shows m P d t) (hother : t.type ≠ .list) :
    m.getVector d = .error .member := by
  cases h with
  | list => exact absurd rfl hother
  | plain type data => rfl
  | string hobj | oid hobj | dict hobj | table hobj => simp only [Store.getVector, Store.get, hobj]

theorem Shows.getVector_list (h : Shows m P d t) (hlist : t.type = .list) :
    ∃ a items, d = .shared a ∧ m.objs a = some (.vector items) ∧ t.size = items.length := by
  cases h with
  | list hobj _ hlen => exact ⟨_, _, rfl, hobj, hlen.symm⟩
  | plain type data => cases type <;> cases hlist
  | string | oid | dict | table => cases hlist

end Shows

/-- A list is appended to with something else. -/
def Mismatched (op : Operator) (t t' : DynTree) : Prop :=
  op = .add ∧ t.type = .list ∧ t'.type ≠ .list

/-- A signed quotient that overflows. -/
def QuotientOverflows (lib : CLib) (op : Operator) (t t' : DynTree) : Prop :=
  op = .div ∧ t = .plain .integer (BitVec.intMin 64) ∧
    if t'.type = .unsignedInteger then t'.getUInt lib ≠ 0 else BitVec.ofInt 64 (t'.getInt lib) = -1

/-- A repetition that `reserve` refuses. -/
def RepetitionRefused (lib : CLib) (limits : Limits) (op : Operator) (t t' : DynTree) : Prop :=
  op = .mul ∧
    ((t.type = .string ∧
      limits.string < (t.size * repeatCount (BitVec.ofNat 64 (t'.getUInt lib)) % 2 ^ 64).toNat) ∨
      (t.type = .list ∧
        limits.vector < (t.size * repeatCount (BitVec.ofInt 64 (t'.getInt lib)) % 2 ^ 64).toNat))

/-- A list that is not empty is appended to itself. -/
def AppendsItself (op : Operator) (v rv : Dyn) (t : DynTree) : Prop :=
  op = .add ∧ t.type = .list ∧ t.size ≠ 0 ∧ v = rv

section Operation
variable {lib : CLib} {limits : Limits} {m : Store} {P : Set ℕ} {v rv : Dyn} {t t' : DynTree}
  {op : Operator}

theorem operation_list {a : ℕ} {items : List Dyn} (hobj : m.objs a = some (.vector items)) :
    m.operation lib limits op (.shared a) rv = m.listOperation lib limits op (.shared a) rv := by
  simp only [Store.operation, Store.view, hobj]

theorem operation_string {a : ℕ} {s : Bytes} (hobj : m.objs a = some (.string s)) :
    m.operation lib limits op (.shared a) rv = m.stringOperation lib limits op (.shared a) rv := by
  simp only [Store.operation, Store.view, hobj]

theorem operation_mismatched (hv : Shows m P v t) (hrv : Shows m P rv t') (h : Mismatched op t t') :
    m.operation lib limits op v rv = .error .member := by
  obtain ⟨rfl, hlist, hother⟩ := h
  obtain ⟨a, items, rfl, hobj, -⟩ := hv.getVector_list hlist
  rw [operation_list hobj]
  simp only [Store.listOperation, Store.extend, Store.getVector_shared hobj,
    hrv.getVector_other hother]
  rfl

theorem extend_lists {a b : ℕ} {items source : List Dyn} (ha : m.objs a = some (.vector items))
    (hb : m.objs b = some (.vector source)) :
    m.extend (.shared a) (.shared b) =
      if a = b ∧ source ≠ [] then .error .iterator
        else .ok (.shared a, m.put a (.vector (items ++ source))) := by
  simp only [Store.extend, Store.getVector_shared ha, Store.getVector_shared hb]
  rfl

theorem operation_itself (hv : Shows m P v t) (h : AppendsItself op v rv t) :
    m.operation lib limits op v rv = .error .iterator := by
  obtain ⟨rfl, hlist, hsize, rfl⟩ := h
  obtain ⟨a, items, rfl, hobj, hlen⟩ := hv.getVector_list hlist
  have hitems : items ≠ [] := fun hnil => hsize (by rw [hlen, hnil]; rfl)
  rw [operation_list hobj]
  show some <$> m.extend (.shared a) (.shared a) = _
  rw [extend_lists hobj hobj, if_pos ⟨rfl, hitems⟩]
  rfl

theorem stringMul_eq {a : ℕ} {s : Bytes} (hobj : m.objs a = some (.string s)) {n : ℕ}
    (hn : (m.view rv).getUInt lib = n) :
    m.stringOperation lib limits .mul (.shared a) rv =
      if limits.string < (s.length * repeatCount (BitVec.ofNat 64 n) % 2 ^ 64).toNat
        then .error .length
      else .ok
        (some (.shared a, m.put a (.string (repeated s (repeatCount (BitVec.ofNat 64 n)))))) := by
  subst hn
  simp only [Store.stringOperation, Store.getString_shared hobj, bind, Except.bind, reserve]
  split_ifs <;> rfl

theorem listMul_eq {a : ℕ} {items : List Dyn} (hobj : m.objs a = some (.vector items)) {n : ℤ}
    (hn : (m.view rv).getInt lib = n) :
    m.listOperation lib limits .mul (.shared a) rv =
      if limits.vector < (items.length * repeatCount (BitVec.ofInt 64 n) % 2 ^ 64).toNat
        then .error .length
      else .ok
        (some (.shared a,
          m.put a (.vector (repeated items (repeatCount (BitVec.ofInt 64 n)))))) := by
  subst hn
  simp only [Store.listOperation, Store.getVector_shared hobj, bind, Except.bind, reserve]
  split_ifs <;> rfl

theorem operation_refused (hv : Shows m P v t) (hrv : Shows m P rv t')
    (h : RepetitionRefused lib limits op t t') :
    m.operation lib limits op v rv = .error .length := by
  have hsame := hrv.view lib
  obtain ⟨rfl, ⟨htype, hlimit⟩ | ⟨htype, hlimit⟩⟩ := h
  · cases hv with
    | string hobj =>
      rw [operation_string hobj, stringMul_eq hobj hsame.getUInt]
      exact if_pos hlimit
    | plain type data => cases type <;> cases htype
    | oid | list | dict | table => cases htype
  · obtain ⟨a, items, rfl, hobj, hlen⟩ := hv.getVector_list htype
    rw [operation_list hobj, listMul_eq hobj hsame.getInt]
    exact if_pos (by rwa [hlen] at hlimit)

theorem divInt_signed (lv : BitVec 64) {x : DynTree} (hx : x.type ≠ .unsignedInteger) :
    IntOperations.divInt lib lv x =
      if BitVec.ofInt 64 (x.getInt lib) = 0 then .ok none
        else some <$> signedDiv lv (BitVec.ofInt 64 (x.getInt lib)) := by
  cases x with
  | plain type w =>
    cases type with
    | unsignedInteger => exact absurd rfl hx
    | integer =>
      simp only [IntOperations.divInt, DynTree.getInt, BitVec.ofInt_toInt]
    | undef | float | bool | dateTime | none => rfl
  | string | oid | list | dict | table => rfl

theorem divInt_overflows {lv : BitVec 64} {x : DynTree}
    (h : QuotientOverflows lib .div (.plain .integer lv) x) :
    IntOperations.divInt lib lv x = .error .signed := by
  obtain ⟨-, hlv, hx⟩ := h
  obtain rfl : lv = BitVec.intMin 64 := by
    cases hlv
    rfl
  by_cases hu : x.type = .unsignedInteger
  · rw [if_pos hu] at hx
    obtain ⟨ui, rfl⟩ := DynTree.eq_plain .unsignedInteger hu
    refine IntOperations.divInt_overflow lib (t := .unsignedInteger) ⟨rfl, ?_⟩
    rintro rfl
    exact hx rfl
  · rw [if_neg hu] at hx
    rw [divInt_signed _ hu, hx]
    rfl

theorem divInt_ok {lv : BitVec 64} {x : DynTree}
    (h : ¬QuotientOverflows lib .div (.plain .integer lv) x) :
    ∃ w, IntOperations.divInt lib lv x = .ok w := by
  by_cases hu : x.type = .unsignedInteger
  · obtain ⟨ui, rfl⟩ := DynTree.eq_plain .unsignedInteger hu
    by_cases hui : ui = 0
    · subst hui
      exact ⟨_, IntOperations.divInt_zero lib .unsignedInteger lv⟩
    · have hno : ¬IntOperations.Overflows lv .unsignedInteger ui := by
        rintro ⟨rfl, -⟩
        refine h ⟨rfl, rfl, (if_pos hu).mpr fun hzero => hui ?_⟩
        exact BitVec.eq_of_toNat_eq hzero
      obtain ⟨q, hq, -⟩ := IntOperations.divInt_exact lib hno hui
      exact ⟨_, hq⟩
  · rw [divInt_signed _ hu]
    by_cases hzero : BitVec.ofInt 64 (x.getInt lib) = 0
    · exact ⟨_, if_pos hzero⟩
    · rw [if_neg hzero, signedDiv, if_neg]
      · exact ⟨_, rfl⟩
      · rintro ⟨rfl, hone⟩
        exact h ⟨rfl, rfl, (if_neg hu).mpr hone⟩

theorem operation_overflows (hv : Shows m P v t) (hrv : Shows m P rv t')
    (h : QuotientOverflows lib op t t') :
    m.operation lib limits op v rv = .error .signed := by
  have hsame := hrv.view lib
  obtain ⟨rfl, rfl, hquot⟩ := h
  cases hv with
  | plain =>
    have hdiv : IntOperations.divInt lib (BitVec.intMin 64) (m.view rv) = .error .signed := by
      refine divInt_overflows ⟨rfl, rfl, ?_⟩
      rwa [hsame.type, hsame.getUInt, hsame.getInt]
    exact congrArg (Except.bind · fun w => .ok (w.map fun w => (Dyn.plain .integer w, m))) hdiv

theorem operation_ok (hv : Shows m P v t) (hrv : Shows m P rv t') (hmis : ¬Mismatched op t t')
    (hover : ¬QuotientOverflows lib op t t') (hrep : ¬RepetitionRefused lib limits op t t')
    (hself : ¬AppendsItself op v rv t) :
    ∃ r, m.operation lib limits op v rv = .ok r := by
  have hsame := hrv.view lib
  cases hv with
  | plain type data =>
    cases type with
    | integer =>
      cases op with
      | add | sub | mul => exact ⟨_, rfl⟩
      | div =>
        -- of the operations on integers only the division can fail
        have hno : ¬QuotientOverflows lib .div (.plain .integer data) (m.view rv) := by
          intro ⟨_, hlv, hx⟩
          refine hover ⟨rfl, hlv, ?_⟩
          rwa [hsame.type, hsame.getUInt, hsame.getInt] at hx
        obtain ⟨w, hw⟩ := divInt_ok hno
        refine ⟨w.map fun w => (Dyn.plain .integer w, m), ?_⟩
        exact congrArg (Except.bind · fun w => .ok (w.map fun w => (Dyn.plain .integer w, m))) hw
    | undef | unsignedInteger | float | bool | dateTime | none => exact ⟨_, rfl⟩
  | @string a s hobj =>
    rw [operation_string hobj]
    cases op with
    | add | sub =>
      simp only [Store.stringOperation, Store.getString_shared hobj]
      exact ⟨_, rfl⟩
    | mul =>
      rw [stringMul_eq hobj hsame.getUInt]
      exact ⟨_, if_neg fun h => hrep ⟨rfl, .inl ⟨rfl, h⟩⟩⟩
    | div =>
      simp only [Store.stringOperation, Store.getString_shared hobj]
      by_cases hzero : (m.view rv).getUInt lib = 0
      · exact ⟨_, if_pos hzero⟩
      · exact ⟨_, if_neg hzero⟩
  | @list a items ts hobj _ hlen =>
    rw [operation_list hobj]
    cases op with
    | add =>
      obtain ⟨b, source, rfl, hobj', -⟩ :=
        hrv.getVector_list (by_contra fun hother => hmis ⟨rfl, rfl, hother⟩)
      show ∃ r, some <$> m.extend (.shared a) (.shared b) = _
      rw [extend_lists hobj hobj', if_neg]
      · exact ⟨_, rfl⟩
      · -- the list would be inserted into itself
        rintro ⟨rfl, hsource⟩
        obtain rfl : items = source := by
          rw [hobj] at hobj'
          cases hobj'
          rfl
        refine hself ⟨rfl, rfl, fun hsize => hsource (List.eq_nil_of_length_eq_zero ?_), rfl⟩
        exact hlen.trans hsize
    | sub =>
      simp only [Store.listOperation, Store.getVector_shared hobj]
      exact ⟨_, rfl⟩
    | mul =>
      rw [listMul_eq hobj hsame.getInt, hlen]
      exact ⟨_, if_neg fun h => hrep ⟨rfl, .inr ⟨rfl, h⟩⟩⟩
    | div =>
      simp only [Store.listOperation, Store.getVector_shared hobj]
      by_cases hzero : (m.view rv).getUInt lib = 0
      · exact ⟨_, if_pos hzero⟩
      · exact ⟨_, if_neg hzero⟩
  | oid hobj | dict hobj | table hobj =>
    simp only [Store.operation, Store.view, hobj]
    exact ⟨_, rfl⟩

theorem assignment_ok :
    (∃ r, m.assignment lib limits op v rv = .ok r) ↔ ∃ r, m.operation lib limits op v rv =
      .ok r := by
  unfold Store.assignment
  cases m.operation lib limits op v rv with
  | ok r => exact ⟨fun _ => ⟨r, rfl⟩, fun _ => ⟨_, rfl⟩⟩
  | error f =>
    constructor
    · rintro ⟨r, hr⟩
      cases hr
    · rintro ⟨r, hr⟩
      cases hr

theorem assignment_error {f : Fault} :
    m.assignment lib limits op v rv = .error f ↔ m.operation lib limits op v rv = .error f := by
  unfold Store.assignment
  cases m.operation lib limits op v rv with
  | ok r => exact ⟨fun h => (nomatch h), fun h => (nomatch h)⟩
  | error g =>
    constructor
    · intro h
      cases h
      rfl
    · intro h
      cases h
      rfl

theorem assignment_member_iff (hv : Shows m P v t) (hrv : Shows m P rv t') :
    m.assignment lib limits op v rv = .error .member ↔ Mismatched op t t' := by
  rw [assignment_error]
  constructor
  · intro h
    by_contra hmis
    by_cases hover : QuotientOverflows lib op t t'
    · rw [operation_overflows hv hrv hover] at h
      cases h
    by_cases hrep : RepetitionRefused lib limits op t t'
    · rw [operation_refused hv hrv hrep] at h
      cases h
    by_cases hself : AppendsItself op v rv t
    · rw [operation_itself hv hself] at h
      cases h
    obtain ⟨r, hr⟩ := operation_ok hv hrv hmis hover hrep hself
    rw [hr] at h
    cases h
  · exact operation_mismatched hv hrv

theorem assignment_result_iff (hv : Shows m P v t) (hrv : Shows m P rv t') :
    (∃ r, m.assignment lib limits op v rv = .ok r) ↔
      ¬Mismatched op t t' ∧ ¬QuotientOverflows lib op t t' ∧ ¬RepetitionRefused lib limits op t t' ∧
        ¬AppendsItself op v rv t := by
  rw [assignment_ok]
  constructor
  · rintro ⟨r, hr⟩
    refine ⟨fun h => ?_, fun h => ?_, fun h => ?_, fun h => ?_⟩
    · cases (operation_mismatched hv hrv h).symm.trans hr
    · cases (operation_overflows hv hrv h).symm.trans hr
    · cases (operation_refused hv hrv h).symm.trans hr
    · cases (operation_itself hv h).symm.trans hr
  · rintro ⟨hmis, hover, hrep, hself⟩
    exact operation_ok hv hrv hmis hover hrep hself

end Operation

section LeftCopy
variable {m : Store} {P : Set ℕ} {v rv : Dyn} {t t' : DynTree} {fuel : ℕ}

theorem Shows.addr_mem {a : ℕ} (h : Shows m P (.shared a) t) : a ∈ P := by
  cases h <;> assumption

theorem leftCopy_shows (hb : m.Bounded) (hv : Shows m P v t) (ht : t.Storable)
    (hfuel : sizeOf t < fuel) :
    ∃ v' m', m.leftCopy fuel v = .ok (v', m') ∧ m.Grown m' ∧ Shows m' Set.univ v' t ∧
      ∀ a, v' = .shared a → m.next ≤ a := by
  cases v with
  | plain type data =>
    exact ⟨_, m, rfl, .refl hb, hv.mono (Set.subset_univ P), fun a h => (nomatch h)⟩
  | shared a =>
    obtain ⟨v', m', hclone, hgrown, hshows⟩ := copies_storable hv ht hfuel m hb fun _ _ ha => ha
    refine ⟨v', m', ?_, hgrown, hshows.mono (Set.subset_univ _), ?_⟩
    · show (m.clone fuel (.shared a)).elim _ _ = _
      rw [hclone]
      rfl
    · rintro b rfl
      exact hshows.addr_mem.1

theorem binary_eq {lib : CLib} {limits : Limits} {op : Operator} {v' : Dyn} {m' : Store}
    (h : m.leftCopy fuel v = .ok (v', m')) :
    m.binary lib limits fuel op v rv = m'.assignment lib limits op v' rv := by
  unfold Store.binary
  rw [h]
  rfl

theorem Shows.allocated (h : Shows m P v t) (hb : m.Bounded) : Shows m (Set.Iio m.next) v t :=
  h.reachable.mono fun a ha => by
    obtain ⟨o, ho⟩ := Option.ne_none_iff_exists'.mp ha.2
    exact hb.lt ho

theorem Shows.grown {m' : Store} (h : Shows m P v t) (hb : m.Bounded) (hgrown : m.Grown m') :
    Shows m' Set.univ v t :=
  (h.allocated hb).frame (fun a ha => hgrown.same a ha) (Set.subset_univ _)

end LeftCopy

/-- Every operator reads its operands through the members their types select unless something else
is appended to a list.  Apart from that it has a result, unless a signed quotient overflows, a
repetition is too long, or a list is appended to itself in place. -/
theorem operators_read_own_members_iff (lib : CLib) (limits : Limits) (fuel : ℕ) (op : Operator)
    (m : Store) (v rv : Dyn) (t t' : DynTree) (hb : m.Bounded) (hv : Shows m Set.univ v t)
    (hrv : Shows m Set.univ rv t') (ht : t.Storable) (hfuel : sizeOf t < fuel) :
    (m.binary lib limits fuel op v rv ≠ .error .member ∧ m.assignment lib limits op v rv ≠
      .error .member ↔
      ¬Mismatched op t t') ∧
    ((∃ r, m.binary lib limits fuel op v rv = .ok r) ↔
      ¬Mismatched op t t' ∧ ¬QuotientOverflows lib op t t' ∧
      ¬RepetitionRefused lib limits op t t') ∧
    ((∃ r, m.assignment lib limits op v rv = .ok r) ↔
      ¬Mismatched op t t' ∧ ¬QuotientOverflows lib op t t' ∧ ¬RepetitionRefused lib limits op t t' ∧
        ¬AppendsItself op v rv t) := by
  obtain ⟨v', m', hcopy, hgrown, hv', hnew⟩ := leftCopy_shows hb hv ht hfuel
  have hrv' := hrv.grown hb hgrown
  have hself : ¬AppendsItself op v' rv t := by
    rintro ⟨-, hlist, -, rfl⟩
    obtain ⟨a, items, rfl, -, -⟩ := hv'.getVector_list hlist
    have hold := (hrv.allocated hb).addr_mem
    exact absurd (hnew a rfl) (Nat.not_le_of_lt hold)
  refine ⟨?_, ?_, assignment_result_iff hv hrv⟩
  · rw [binary_eq hcopy, ne_eq, ne_eq, assignment_member_iff hv' hrv', assignment_member_iff hv hrv,
      and_self]
  · rw [binary_eq hcopy, assignment_result_iff hv' hrv']
    exact ⟨fun ⟨h₁, h₂, h₃, _⟩ => ⟨h₁, h₂, h₃⟩, fun ⟨h₁, h₂, h₃⟩ => ⟨h₁, h₂, h₃, hself⟩⟩

def singletonStore : Store :=
  ⟨1, fun a => if a = 0 then some (.vector [.plain .integer 7]) else none⟩

theorem singletonStore_bounded : singletonStore.Bounded := by
  intro a ha
  exact if_neg (Nat.ne_of_gt ha)

theorem shows_singletonStore :
    Shows singletonStore Set.univ (.shared 0) (.list [.plain .integer 7]) := by
  refine .list rfl trivial rfl fun i x t hx ht => ?_
  match i with
  | 0 =>
    cases hx
    cases ht
    exact .plain _ _
  | i + 1 => cases hx

theorem storable_singleton : (DynTree.list [.plain .integer 7]).Storable := by
  refine .list fun t ht => ?_
  rw [List.mem_singleton.mp ht]
  exact .plain trivial

theorem operators_read_own_members_iff_sub :
    (singletonStore.binary noConversions ⟨9, 9⟩ 20 .sub (.shared 0)
        (.plain .integer 1) ≠ .error .member) ∧
    ∃ r, singletonStore.assignment noConversions ⟨9, 9⟩ .sub (.shared 0)
      (.plain .integer 1) = .ok r := by
  have h := operators_read_own_members_iff noConversions ⟨9, 9⟩ 20 .sub
    singletonStore (.shared 0) (.plain .integer 1) _ _ singletonStore_bounded shows_singletonStore
      (.plain _ _)
    storable_singleton (by decide)
  refine ⟨(h.1.mpr fun hmis => ?_).1,
    h.2.2.mpr ⟨fun hmis => ?_, fun hover => ?_, fun hrep => ?_, fun hself => ?_⟩⟩
  · cases hmis.1
  · cases hmis.1
  · cases hover.1
  · cases hrep.1
  · cases hself.1

/-- A list plus a number takes the number for a pointer to a vector. -/
theorem list_plus_number :
    ¬(singletonStore.binary noConversions ⟨9, 9⟩ 20 .add (.shared 0)
        (.plain .integer 1) ≠ .error .member ∧
      singletonStore.assignment noConversions ⟨9, 9⟩ .add (.shared 0)
        (.plain .integer 1) ≠ .error .member) := by
  rintro ⟨-, h⟩
  exact h ((assignment_member_iff shows_singletonStore (.plain _ _)).mpr
    ⟨rfl, rfl, fun h => nomatch h⟩)

end Nkit
