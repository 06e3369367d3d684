import Nkit.Mapping.Clearing

/-! A run that goes on after an earlier one, beside a run of the same events from the start. -/

namespace Nkit
namespace Xml2Var
open OrderedMap

section
variable (c : Compiled) (st₀ : ℕ → TargetState)

def Used : Set ℕ := {i | (st₀ i).current ≠ (c.group.states i).current}

inductive SameVar : Var → Var → Prop
  | value (v : DynTree) : SameVar (.value v) (.value v)
  | made {j n : ℕ} (h : j ∈ Used c st₀ → 0 < n) :
      SameVar (.made j n) (.made j ((st₀ j).past.length + n))

inductive SameContent : Content → Content → Prop
  | list {items items' : List Var} (h : List.Forall₂ (SameVar c st₀) items items') :
      SameContent (.list items) (.list items')
  | dict {entries entries' : List (Bytes × Var)}
      (h : List.Forall₂ (fun e e' => e.1 = e'.1 ∧ SameVar c st₀ e.2 e'.2) entries entries') :
      SameContent (.dict entries) (.dict entries')

/-- The state `t` of the fresh run and the state `s` of the later one, but for lists and dicts. -/
structure SameFields (m : Marks) (i : ℕ) (t s : TargetState) : Prop where
  key : (m.attrs i).isSome = true ∨ (st₀ i).actualKeyName = (c.group.items i).keyName →
    s.actualKeyName = t.actualKeyName
  value : (c.group.items i).target.isScalar = true → s.value = t.value
  mustUse : c.dropped i = false ∨ (m.attrs i).isSome = true →
    s.mustUseDefaultValue (c.group.items i).target = t.mustUseDefaultValue (c.group.items i).target
  var : (c.group.items i).target.isScalar = true → i ∈ m.exited → i ∉ m.busy →
    t.mustUseDefaultValue (c.group.items i).target = false → s.var = t.var
  entered : i ∈ m.busy → (m.attrs i).isSome = true
  past : (m.attrs i).isSome = true → (∃ its, (c.group.items i).target = .object its) → t.past ≠ []

structure SameContents (m : Marks) (i : ℕ) (t s : TargetState) : Prop where
  length : s.past.length = (st₀ i).past.length + t.past.length
  past : ∀ n a, t.past[n]? = some a → (i ∈ Used c st₀ → 0 < n) →
    ∃ b, s.past[(st₀ i).past.length + n]? = some b ∧ SameContent c st₀ a b
  current : (i ∈ Used c st₀ → t.past ≠ []) → SameContent c st₀ t.current s.current
  kept : (st₀ i).past <+: s.past
  dropped : c.dropped i = true →
    (s.past = (st₀ i).past ∧ s.current = (st₀ i).current ∧
      ((∃ its, (c.group.items i).target = .object its) → i ∉ m.busy)) ∨
    (st₀ i).past ++ [(st₀ i).current] <+: s.past ∨
    ((∃ its, (c.group.items i).target = .list its) ∧ (i ∈ m.busy ∨ i ∈ m.exited))

def SameRoot (t s : TargetState) : Prop :=
  ∃ earlier items items', (st₀ 0).current = .list earlier ∧ t.current = .list items ∧
    s.current = .list (earlier ++ items') ∧
    List.Forall₂ (SameVar c st₀) items items'

/-- The states `t` of a fresh run, and the states `s` of one that started from `st₀`. -/
structure Same (m : Marks) (t s : ℕ → TargetState) : Prop where
  fields : ∀ i ∈ c.order, SameFields c st₀ m i (t i) (s i)
  contents : ∀ i ∈ c.order, i ≠ 0 → (c.group.items i).target.isScalar = false →
    SameContents c st₀ m i (t i) (s i)
  root : SameRoot c st₀ (t 0) (s 0)

end

section
variable {c : Compiled} {st₀ : ℕ → TargetState} {m m' : Marks} {i : ℕ} {t s : TargetState}

namespace SameContent
variable {a b : Content} {v w : Var}

theorem setKey (h : SameContent c st₀ a b) (hvw : SameVar c st₀ v w) (key : Bytes) :
    SameContent c st₀ (a.setKey key v) (b.setKey key w) := by
  cases h with
  | list h => exact .list h
  | dict h => exact .dict (forall₂_update h key v w hvw)

theorem append (h : SameContent c st₀ a b) (hvw : SameVar c st₀ v w) :
    SameContent c st₀ (a.append v) (b.append w) := by
  cases h with
  | list h => exact .list (List.rel_append h (.cons hvw .nil))
  | dict h => exact .dict h

theorem opened (o : StructOptions) (attrs : List (Bytes × Bytes)) :
    SameContent c st₀ (TargetState.opened o attrs) (TargetState.opened o attrs) := by
  rw [TargetState.opened]
  split_ifs
  · exact .dict (.cons ⟨rfl, .value _⟩ .nil)
  · exact .dict .nil

end SameContent

theorem SameVar.read {target : Target}
    (hmust : s.mustUseDefaultValue target = t.mustUseDefaultValue target)
    (hvar : target.isScalar = true → t.mustUseDefaultValue target = false → s.var = t.var)
    (hlength : target.isScalar = false → s.past.length = (st₀ i).past.length + t.past.length)
    (hused : target.isScalar = false → i ∈ Used c st₀ → t.past ≠ []) :
    SameVar c st₀ (t.read i target) (s.read i target) := by
  cases target with
  | scalar target =>
    rw [TargetState.read, TargetState.read, hmust]
    cases h : t.mustUseDefaultValue (.scalar target) with
    | true => exact .value _
    | false =>
      rw [if_neg Bool.false_ne_true, if_neg Bool.false_ne_true, hvar rfl h]
      exact .value _
  | object its =>
    show SameVar c st₀ (.made i t.past.length) (.made i s.past.length)
    rw [hlength rfl]
    exact .made fun hin => List.length_pos_iff.mpr (hused rfl hin)
  | list its =>
    show SameVar c st₀ (.made i t.past.length) (.made i s.past.length)
    rw [hlength rfl]
    exact .made fun hin => List.length_pos_iff.mpr (hused rfl hin)

theorem TargetState.Clean.mustUse_eq {target : Target} (ht : t.Clean target) (hs : s.Clean target) :
    s.mustUseDefaultValue target = t.mustUseDefaultValue target := by
  cases target with
  | object => rfl
  | list => rfl
  | scalar target =>
    rw [mustUseDefaultValue, mustUseDefaultValue]
    cases h : target.defaultValue.isSome with
    | false => rfl
    | true => rw [ht h, hs h]

/-- `OnExit` of a target in two states that agree on its text. -/
theorem TargetState.converted_same (lib : ScalarLib) (o : StructOptions) {target : Target}
    (hmust : s.mustUseDefaultValue target = t.mustUseDefaultValue target)
    (hvalue : target.isScalar = true → s.value = t.value) :
    (s.converted lib o target).mustUseDefaultValue target =
      (t.converted lib o target).mustUseDefaultValue target ∧
      (target.isScalar = true → (s.converted lib o target).value =
        (t.converted lib o target).value) ∧
      (target.isScalar = true → (t.converted lib o target).mustUseDefaultValue target = false →
        (s.converted lib o target).var = (t.converted lib o target).var) := by
  cases target with
  | object its =>
    exact ⟨rfl, fun h => absurd h Bool.false_ne_true, fun h => absurd h Bool.false_ne_true⟩
  | list its =>
    exact ⟨rfl, fun h => absurd h Bool.false_ne_true, fun h => absurd h Bool.false_ne_true⟩
  | scalar target =>
    rw [converted, converted, hmust, hvalue rfl]
    cases hm : t.mustUseDefaultValue (.scalar target) with
    | false => exact ⟨hmust, fun _ => rfl, fun _ _ => rfl⟩
    | true =>
      refine ⟨hmust, fun _ => rfl, fun _ hfalse => ?_⟩
      have htrue : ({ t with value := [] } : TargetState).mustUseDefaultValue (.scalar target) =
        true := hm
      rw [if_pos rfl, htrue] at hfalse
      cases hfalse

namespace SameFields
variable {o : StructOptions} {lib : ScalarLib} {attrs : List (Bytes × Bytes)}

theorem marks (h : SameFields c st₀ m i t s) (hattrs : m'.attrs i = m.attrs i)
    (hexited : i ∈ m'.exited → i ∈ m.exited) (hbusy : i ∈ m'.busy ↔ i ∈ m.busy) :
    SameFields c st₀ m' i t s where
  key := hattrs ▸ h.key
  value := h.value
  mustUse := hattrs ▸ h.mustUse
  var := fun hscalar hin hnot => h.var hscalar (hexited hin) (hbusy.not.mp hnot)
  entered := fun hin => hattrs ▸ h.entered (hbusy.mp hin)
  past := hattrs ▸ h.past

theorem current (h : SameFields c st₀ m i t s) (a b : Content) :
    SameFields c st₀ m i { t with current := a } { s with current := b } := by
  have hmust : ∀ (s : TargetState) (a : Content) (target : Target),
      ({ s with current := a } : TargetState).mustUseDefaultValue target =
        s.mustUseDefaultValue target := by
    intro s a target
    cases target <;> rfl
  refine ⟨h.key, h.value, fun hor => ?_, fun hscalar hin hnot hfalse => ?_, h.entered, h.past⟩
  · rw [hmust, hmust]
    exact h.mustUse hor
  · rw [hmust] at hfalse
    exact h.var hscalar hin hnot hfalse

theorem enter (h : SameFields c st₀ m i t s)
    (hkey : (c.group.items i).keyNameIsAttribute = false →
      (st₀ i).actualKeyName = (c.group.items i).keyName) :
    SameFields c st₀ (m.note (.enter attrs i)) i (t.onEnter o attrs (c.group.items i))
      (s.onEnter o attrs (c.group.items i)) := by
  have hsome : ((m.note (.enter attrs i)).attrs i).isSome = true := by simp [Marks.note]
  refine ⟨fun _ => ?_, fun hscalar => ?_, fun _ => ?_,
    fun _ _ hnot => absurd (Set.mem_insert i m.busy) hnot, fun _ => hsome, fun _ hobj => ?_⟩
  · rw [TargetState.onEnter_key, TargetState.onEnter_key, TargetState.enteredKey,
      TargetState.enteredKey]
    split_ifs with hattr
    · rfl
    · exact h.key (.inr (hkey (Bool.not_eq_true _ ▸ hattr)))
  · have hvalue := h.value hscalar
    cases ht : (c.group.items i).target with
    | scalar target => rw [TargetState.onEnter_scalar ht, TargetState.onEnter_scalar ht, hvalue]
    | object its => rw [ht] at hscalar; cases hscalar
    | list its => rw [ht] at hscalar; cases hscalar
  · cases ht : (c.group.items i).target with
    | scalar target =>
      rw [TargetState.onEnter_scalar ht, TargetState.onEnter_scalar ht]
      rfl
    | object its => rfl
    | list its => rfl
  · obtain ⟨its, ht⟩ := hobj
    rw [TargetState.onEnter_object ht]
    exact List.append_ne_nil_of_right_ne_nil _ (List.cons_ne_nil _ _)

theorem text (h : SameFields c st₀ m i t s) (hbusy : i ∈ m.busy) (text : Bytes) :
    SameFields c st₀ m i (t.onText (c.group.items i).target text)
      (s.onText (c.group.items i).target text) := by
  cases ht : (c.group.items i).target with
  | object its => exact h
  | list its => exact h
  | scalar target =>
    refine ⟨h.key, fun hscalar => ?_, fun _ => ?_, fun _ _ hnot => absurd hbusy hnot, h.entered,
      h.past⟩
    · exact congrArg (· ++ text) (h.value hscalar)
    · rw [ht]
      rfl

theorem clear (h : SameFields c st₀ m i t s) :
    SameFields c st₀ m i (t.clear (c.group.items i).target) (s.clear (c.group.items i).target) := by
  obtain ⟨hkeyt, hvart, hscalart, hmadet⟩ := t.clear_fields (c.group.items i).target
  obtain ⟨hkeys, hvars, -, -⟩ := s.clear_fields (c.group.items i).target
  refine ⟨?_, fun hscalar => ?_,
    fun _ => TargetState.clean_clear.mustUse_eq TargetState.clean_clear, ?_, h.entered, ?_⟩
  · rw [hkeyt, hkeys]
    exact h.key
  · cases ht : (c.group.items i).target with
    | scalar target => rfl
    | object its => rw [ht] at hscalar; cases hscalar
    | list its => rw [ht] at hscalar; cases hscalar
  · intro hscalar hin hnot hfalse
    rw [hvart, hvars]
    refine h.var hscalar hin hnot ?_
    cases ht : (c.group.items i).target with
    | object its => rfl
    | list its => rfl
    | scalar target =>
      rw [ht] at hfalse
      -- a cleared scalar with a default would use it
      have hnone : target.defaultValue.isSome = false := by
        simpa [TargetState.mustUseDefaultValue, TargetState.clear] using hfalse
      rw [TargetState.mustUseDefaultValue, hnone, Bool.false_and]
  · rintro hsome ⟨its, ht⟩
    have hpast := (hmadet (by rw [ht]; rfl)).1
    rw [hpast]
    exact List.append_ne_nil_of_right_ne_nil _ (List.cons_ne_nil _ _)

/-- `OnExit` of the target. -/
theorem converted (h : SameFields c st₀ m i t s) (hbusy : i ∈ m.busy) (el : Bytes) :
    SameFields c st₀ (m.note (.leave el i)) i (t.converted lib o (c.group.items i).target)
      (s.converted lib o (c.group.items i).target) := by
  have hsome := h.entered hbusy
  obtain ⟨hmust, hvalue, hvar⟩ := TargetState.converted_same lib o (h.mustUse (.inr hsome)) h.value
  obtain ⟨hkeyt, hpastt, -⟩ := TargetState.converted_fields lib o (c.group.items i).target t
  obtain ⟨hkeys, -, -⟩ := TargetState.converted_fields lib o (c.group.items i).target s
  refine ⟨fun _ => ?_, hvalue, fun _ => hmust, fun hscalar _ _ => hvar hscalar,
    fun hin => absurd rfl hin.2, ?_⟩
  · rw [hkeyt, hkeys]
    exact h.key (.inl hsome)
  · rw [hpastt]
    exact h.past

end SameFields

namespace SameContents

theorem renew {a b : Content} (h : SameContents c st₀ m i t s) (hab : SameContent c st₀ a b)
    (hlist : c.dropped i = true → ∀ its, (c.group.items i).target ≠ .list its) {t' s' : TargetState}
    (ht : t'.past = t.past ++ [t.current]) (ht' : t'.current = a)
    (hs : s'.past = s.past ++ [s.current]) (hs' : s'.current = b) :
    SameContents c st₀ m' i t' s' where
  length := by
    rw [ht, hs, List.length_append, List.length_append, h.length, List.length_singleton,
      List.length_singleton, Nat.add_assoc]
  past := by
    intro n a hn hused
    rw [ht, List.getElem?_append] at hn
    rw [hs, List.getElem?_append]
    split_ifs at hn with hlt
    · obtain ⟨b, hb, hab⟩ := h.past n a hn hused
      have hlt' : (st₀ i).past.length + n < s.past.length := h.length ▸ Nat.add_lt_add_left hlt _
      exact ⟨b, (if_pos hlt').trans hb, hab⟩
    · -- the content that was current
      have heq : n = t.past.length := by
        have hlen := (List.getElem?_eq_some_iff.mp hn).1
        rw [List.length_singleton] at hlen
        omega
      subst heq
      rw [Nat.sub_self] at hn
      obtain rfl : t.current = a := Option.some.inj hn
      refine ⟨s.current, ?_, h.current fun hin heq => ?_⟩
      · rw [← h.length, if_neg (Nat.lt_irrefl _), Nat.sub_self]
        rfl
      · have hpos := hused hin
        rw [heq] at hpos
        exact absurd hpos (Nat.lt_irrefl _)
  current := fun _ => ht'.symm ▸ hs'.symm ▸ hab
  kept := h.kept.trans (hs ▸ List.prefix_append _ _)
  dropped := by
    intro hd
    rcases h.dropped hd with ⟨hp, hc, -⟩ | hpre | ⟨⟨its, hl⟩, -⟩
    · rw [hs, hp, hc]
      exact .inr (.inl (List.prefix_refl _))
    · exact .inr (.inl (hpre.trans (hs ▸ List.prefix_append _ _)))
    · exact absurd hl (hlist hd its)

theorem write {a b : Content} (h : SameContents c st₀ m i t s) (hbusy : i ∈ m.busy)
    (hscalar : (c.group.items i).target.isScalar = false)
    (hab : SameContent c st₀ t.current s.current → SameContent c st₀ a b) :
    SameContents c st₀ m i { t with current := a } { s with current := b } where
  length := h.length
  past := h.past
  current := fun hused => hab (h.current hused)
  kept := h.kept
  dropped := by
    intro hd
    rcases h.dropped hd with ⟨-, -, hnot⟩ | hpre | hlist
    · cases ht : (c.group.items i).target with
      | scalar => rw [ht] at hscalar; cases hscalar
      | object its => exact absurd hbusy (hnot ⟨its, ht⟩)
      | list its => exact .inr (.inr ⟨⟨its, rfl⟩, .inl hbusy⟩)
    · exact .inr (.inl hpre)
    · exact .inr (.inr hlist)

theorem keep (h : SameContents c st₀ m i t s) {t' s' : TargetState}
    (ht : t'.past = t.past ∧ t'.current = t.current)
    (hs : s'.past = s.past ∧ s'.current = s.current)
    (hbusy : (∃ its, (c.group.items i).target = .object its) → i ∈ m'.busy → i ∈ m.busy)
    (hlist : i ∈ m.busy ∨ i ∈ m.exited → i ∈ m'.busy ∨ i ∈ m'.exited) :
    SameContents c st₀ m' i t' s' where
  length := by
    rw [ht.1, hs.1]
    exact h.length
  past := by
    rw [ht.1, hs.1]
    exact h.past
  current := by
    rw [ht.1, ht.2, hs.2]
    exact h.current
  kept := hs.1 ▸ h.kept
  dropped := by
    intro hd
    rw [hs.1, hs.2]
    rcases h.dropped hd with ⟨hp, hc, hnot⟩ | hpre | ⟨hl, hor⟩
    · exact .inl ⟨hp, hc, fun hobj hin => hnot hobj (hbusy hobj hin)⟩
    · exact .inr (.inl hpre)
    · exact .inr (.inr ⟨hl, hlist hor⟩)

end SameContents

end

structure Leftover (c : Compiled) (st₀ : ℕ → TargetState) : Prop where
  key : ∀ i ∈ c.order, (c.group.items i).keyNameIsAttribute = false →
    (st₀ i).actualKeyName = (c.group.items i).keyName
  value : ∀ i ∈ c.order, (c.group.items i).target.isScalar = true → (st₀ i).value = []
  clean : ∀ i ∈ c.order, i ≠ 0 → c.dropped i = false → (st₀ i).Clean (c.group.items i).target

def Fair (c : Compiled) (st₀ : ℕ → TargetState) (m : Marks) : Move → Prop
  | .collect _ i k =>
    (∃ its, (c.group.items i).target = .object its) → ∀ t, (c.group.items k).target = .scalar t →
      t.defaultValue.isSome = true →
      (m.attrs k).isSome = true ∨ (st₀ k).actualKeyName = (c.group.items k).keyName
  | .leave _ i => i ≠ 0 → (∃ its, (c.group.items i).target = .list its) → i ∉ Used c st₀
  | _ => True

section
variable {c : Compiled} {st₀ : ℕ → TargetState} {m m' : Marks} {i : ℕ} {t s : TargetState}

theorem Leftover.of_tidy (hw : Hanging c) {ts : List Tag} (h : Tidy c m st₀) (hm : m.At c [] ts) :
    Leftover c st₀ where
  key := fun i hi hattr => (h.fields i hi).key.trans (TargetItem.keyFor_of_not_attribute hattr _)
  value := fun i hi hscalar =>
    (h.fields i hi).value (fun hin => hw.not_within_nil hi ((hm.busy i).mp hin).2) hscalar
  clean := by
    intro i hi hne hnot
    have hclosed : ∀ j ∈ c.order, j ∉ m.busy := fun j hj hin =>
      hw.not_within_nil hj ((hm.busy j).mp hin).2
    rcases hw.forest.parent i hi with rfl | ⟨p, hp, hfit⟩
    · exact absurd rfl hne
    · have hchild : i ∈ (c.group.items p).target.children := by
        by_contra hnotin
        rw [(Compiled.dropped_iff hfit.parentTarget).mpr hnotin] at hnot
        cases hnot
      exact (h.fields i hi).clean (hm.neat p hp (hclosed p hp) i hchild (hclosed i hi))
        (hclosed i hi)

theorem Leftover.not_used (hw : Hanging c) (h : Leftover c st₀) (hi : i ∈ c.order) (hne : i ≠ 0)
    (hnot : c.dropped i = false) (hscalar : (c.group.items i).target.isScalar = false) :
    i ∉ Used c st₀ := by
  refine fun hused => hused ?_
  have hclean := h.clean i hi hne hnot
  have hfresh := hw.clean_fresh i
  cases ht : (c.group.items i).target with
  | scalar => rw [ht] at hscalar; cases hscalar
  | object its =>
    rw [ht] at hclean hfresh
    exact Eq.trans hclean (Eq.symm hfresh)
  | list its =>
    rw [ht] at hclean hfresh
    exact Eq.trans hclean (Eq.symm hfresh)

theorem Hanging.root_not_child (hw : Hanging c) {p : ℕ} (hp : p ∈ c.order) {k : ℕ}
    (hk : k ∈ (c.group.items p).target.children) : k ≠ 0 ∧ c.dropped k = false := by
  obtain ⟨-, hparent⟩ := hw.forest.children p hp k hk
  refine ⟨fun heq => ?_, Bool.eq_false_iff.mpr fun hd => (Compiled.dropped_iff hparent).mp hd hk⟩
  rw [heq, hw.noParent] at hparent
  cases hparent

theorem update_rel {S : Type} {R : ℕ → S → S → Prop} {f f' : ℕ → S} {a b : S} (hself : R i a b)
    (hother : ∀ j ≠ i, R j (f j) (f' j)) (j : ℕ) :
    R j (Function.update f i a j) (Function.update f' i b j) := by
  by_cases hji : j = i
  · subst hji
    rw [Function.update_self, Function.update_self]
    exact hself
  · rw [Function.update_of_ne hji, Function.update_of_ne hji]
    exact hother j hji

namespace Same
open Marks
variable {g g' : TargetGroup Bytes} {lib : ScalarLib} {o : StructOptions}

theorem enter (hl : Leftover c st₀) (h : Same c st₀ m g.states g'.states)
    (hg : g.items = c.group.items) (hg' : g'.items = c.group.items)
    (hroot : ∃ its, (c.group.items 0).target = .list its) {attrs : List (Bytes × Bytes)} {i : ℕ}
    (hv : Legal c m (.enter attrs i)) :
    Same c st₀ (m.note (.enter attrs i)) (g.move lib o (.enter attrs i)).states
      (g'.move lib o (.enter attrs i)).states := by
  obtain ⟨hi, hbusy⟩ := hv
  rw [TargetGroup.enter_states, TargetGroup.enter_states, hg, hg']
  have hother : ∀ j ≠ i, (j ∈ (m.note (.enter attrs i)).busy ↔ j ∈ m.busy) := fun j hji =>
    ⟨fun hin => hin.resolve_left hji, .inr⟩
  constructor
  · refine update_rel (R := fun j t s => j ∈ c.order → SameFields c st₀ _ j t s) (fun hj => ?_)
      fun j hji hj => ?_
    · exact (h.fields i hj).enter (hl.key i hj)
    · exact (h.fields j hj).marks (Function.update_of_ne hji ..) id (hother j hji)
  · refine update_rel (R := fun j t s => j ∈ c.order → j ≠ 0 → (c.group.items j).target.isScalar =
      false →
      SameContents c st₀ _ j t s) (fun hj hne hscalar => ?_) fun j hji hj hne hscalar => ?_
    · have hcontents := h.contents i hj hne hscalar
      cases ht : (c.group.items i).target with
      | scalar => rw [ht] at hscalar; cases hscalar
      | object its =>
        refine hcontents.renew (SameContent.opened o attrs) (fun _ its hlist => ?_) ?_ ?_ ?_ ?_
        · rw [ht] at hlist
          cases hlist
        all_goals rw [TargetState.onEnter_object ht]
      | list its =>
        rw [TargetState.onEnter_list ht, TargetState.onEnter_list ht]
        have hnot : ¬∃ its, (c.group.items i).target = .object its := by
          rintro ⟨its, hobj⟩
          rw [ht] at hobj
          cases hobj
        exact hcontents.keep ⟨rfl, rfl⟩ ⟨rfl, rfl⟩ (fun hobj => absurd hobj hnot) (Or.imp_left .inr)
    · exact (h.contents j hj hne hscalar).keep ⟨rfl, rfl⟩ ⟨rfl, rfl⟩ (fun _ => (hother j hji).mp)
        (Or.imp_left (hother j hji).mpr)
  · obtain ⟨earlier, items, items', h₀, ht, hs, hitems⟩ := h.root
    obtain ⟨its, hlist⟩ := hroot
    refine ⟨earlier, items, items', h₀, ?_, ?_, hitems⟩
    all_goals
      by_cases h0i : (0 : ℕ) = i
      · subst h0i
        rw [Function.update_self, TargetState.onEnter_list hlist]
        assumption
      · rw [Function.update_of_ne h0i]
        assumption

theorem text (h : Same c st₀ m g.states g'.states) (hg : g.items = c.group.items)
    (hg' : g'.items = c.group.items) {text : Bytes} {i : ℕ} (hv : Legal c m (.text text i)) :
    Same c st₀ m (g.move lib o (.text text i)).states (g'.move lib o (.text text i)).states := by
  obtain ⟨hi, hbusy⟩ := hv
  rw [TargetGroup.text_states, TargetGroup.text_states, hg, hg']
  split_ifs
  · have hkeep : ∀ s : TargetState, (s.onText (c.group.items i).target text).past = s.past ∧
        (s.onText (c.group.items i).target text).current = s.current := by
      intro s
      cases (c.group.items i).target <;> exact ⟨rfl, rfl⟩
    have hupdate := fun st : ℕ → TargetState => TargetState.update_contents (hkeep (st i))
    constructor
    · exact update_rel (R := fun j t s => j ∈ c.order → SameFields c st₀ m j t s)
        (fun hj => (h.fields i hj).text hbusy text) fun j _ hj => h.fields j hj
    · intro j hj hne hscalar
      exact (h.contents j hj hne hscalar).keep (hupdate _ j) (hupdate _ j) (fun _ => id) id
    · obtain ⟨earlier, items, items', h₀, ht, hs, hitems⟩ := h.root
      exact ⟨earlier, items, items', h₀, (hupdate _ 0).2.trans ht, (hupdate _ 0).2.trans hs, hitems⟩
  · rw [Function.update_eq_self, Function.update_eq_self]
    exact h

theorem collected (hw : Hanging c) (h : Same c st₀ m g.states g'.states) {el : Bytes} {i k : ℕ}
    (hv : Legal c m (.collect el i k)) (hfields : SameFields c st₀ m i t s)
    (hcontents : i ≠ 0 → (c.group.items i).target.isScalar = false → SameContents c st₀ m i t s)
    (hroot : i = 0 → SameRoot c st₀ t s) :
    Same c st₀ (m.note (.collect el i k))
      (Function.update (Function.update g.states i t) k
        ((g.states k).clear (c.group.items k).target))
      (Function.update (Function.update g'.states i s) k
        ((g'.states k).clear (c.group.items k).target)) := by
  obtain ⟨hi, -, hk, -⟩ := hv
  obtain ⟨hk0, hkd⟩ := hw.root_not_child hi hk
  constructor
  · have hparents :=
      update_rel (R := fun j t s => j ∈ c.order → SameFields c st₀ m j t s) (fun _ => hfields)
      fun j _ hj => h.fields j hj
    have hmarks := update_rel (R := fun j t s => j ∈ c.order → SameFields c st₀ m j t s)
      (fun hj => (h.fields k hj).clear) fun j _ => hparents j
    exact fun j hj => (hmarks j hj).marks rfl id Iff.rfl
  · have hparents :=
      update_rel (R := fun j t s => j ∈ c.order → j ≠ 0 → (c.group.items j).target.isScalar =
        false →
      SameContents c st₀ m j t s) (fun _ => hcontents) fun j _ => h.contents j
    refine update_rel (R := fun j t s => j ∈ c.order → j ≠ 0 → (c.group.items j).target.isScalar =
      false →
      SameContents c st₀ _ j t s) (fun hj hne hscalar => ?_) fun j _ hj hne hscalar => ?_
    · have hcontentsk := h.contents k hj hne hscalar
      cases ht : (c.group.items k).target with
      | scalar => rw [ht] at hscalar; cases hscalar
      | object its =>
        exact hcontentsk.renew (.dict .nil) (fun hd => by rw [hkd] at hd; cases hd) rfl rfl rfl rfl
      | list its =>
        exact hcontentsk.renew (.list .nil) (fun hd => by rw [hkd] at hd; cases hd) rfl rfl rfl rfl
    · exact (hparents j hj hne hscalar).keep ⟨rfl, rfl⟩ ⟨rfl, rfl⟩ (fun _ => id) id
  · rw [Function.update_of_ne hk0.symm, Function.update_of_ne hk0.symm]
    by_cases h0i : (0 : ℕ) = i
    · subst h0i
      rw [Function.update_self, Function.update_self]
      exact hroot rfl
    · rw [Function.update_of_ne h0i, Function.update_of_ne h0i]
      exact h.root

theorem collect (hw : Hanging c) (hl : Leftover c st₀) (h : Same c st₀ m g.states g'.states)
    (hg : g.items = c.group.items) (hg' : g'.items = c.group.items)
    (hroot : ∃ its, (c.group.items 0).target = .list its) {el : Bytes} {i k : ℕ}
    (hv : Legal c m (.collect el i k)) (hf : Fair c st₀ m (.collect el i k)) :
    Same c st₀ (m.note (.collect el i k)) (g.move lib o (.collect el i k)).states
      (g'.move lib o (.collect el i k)).states := by
  obtain ⟨hi, hbusy, hk, hkbusy, hexited⟩ := hv
  obtain ⟨hkin, -⟩ := hw.forest.children i hi k hk
  obtain ⟨hk0, hkd⟩ := hw.root_not_child hi hk
  have hki := hw.child_ne hi hk
  have hkfields := h.fields k hkin
  have hmust := hkfields.mustUse (.inl hkd)
  have hlength := h.contents k hkin hk0
  cases ht : (c.group.items i).target with
  | scalar t =>
    rw [ht] at hk
    exact absurd hk List.not_mem_nil
  | object its =>
    have hscalar : (c.group.items i).target.isScalar = false := by rw [ht]; rfl
    have hi0 : i ≠ 0 := by
      rintro rfl
      obtain ⟨its', hlist⟩ := hroot
      rw [ht] at hlist
      cases hlist
    rw [TargetGroup.collect_object_states (hg ▸ ht) hki,
      TargetGroup.collect_object_states (hg' ▸ ht) hki, TargetGroup.mustUseDefaultValue,
      TargetGroup.mustUseDefaultValue, TargetGroup.var, TargetGroup.var, hg, hg', hmust]
    cases hm : (g.states k).mustUseDefaultValue (c.group.items k).target with
    | false =>
      exact h.collected hw ⟨hi, hbusy, hk, hkbusy, hexited⟩ (h.fields i hi)
        (fun _ _ => h.contents i hi hi0 hscalar)
        fun heq => absurd heq hi0
    | true =>
      -- only scalars with a default use it
      have hkey : (m.attrs k).isSome = true ∨ (st₀ k).actualKeyName =
          (c.group.items k).keyName := by
        cases htk : (c.group.items k).target with
        | object its => rw [htk] at hm; cases hm
        | list its => rw [htk] at hm; cases hm
        | scalar t =>
          rw [htk] at hm
          exact hf ⟨its, ht⟩ t htk (Bool.and_eq_true _ _ ▸ hm).1
      have hsame : TargetGroup.defaultKey el (g'.states k) =
          TargetGroup.defaultKey el (g.states k) := by
        rw [TargetGroup.defaultKey, TargetGroup.defaultKey, hkfields.key hkey]
      have hvar : SameVar c st₀ ((g.states k).read k (c.group.items k).target)
          ((g'.states k).read k (c.group.items k).target) :=
        .read hmust (fun _ hfalse => by rw [hm] at hfalse; cases hfalse)
          (fun hs => (hlength hs).length)
          fun hs hin => absurd hin (hl.not_used hw hkin hk0 hkd hs)
      rw [hsame]
      exact h.collected hw ⟨hi, hbusy, hk, hkbusy, hexited⟩ ((h.fields i hi).current _ _)
        (fun _ _ => (h.contents i hi hi0 hscalar).write hbusy hscalar fun hc => hc.setKey hvar _)
          fun heq => absurd heq hi0
  | list its =>
    have hscalar : (c.group.items i).target.isScalar = false := by rw [ht]; rfl
    have hvar : SameVar c st₀ ((g.states k).read k (c.group.items k).target)
        ((g'.states k).read k (c.group.items k).target) := by
      refine .read hmust (fun hs hfalse => ?_) (fun hs => (hlength hs).length)
        fun hs hin => absurd hin (hl.not_used hw hkin hk0 hkd hs)
      cases htk : (c.group.items k).target with
      | object its => rw [htk] at hs; cases hs
      | list its => rw [htk] at hs; cases hs
      | scalar t => exact hkfields.var hs (hexited its t ht htk) hkbusy hfalse
    rw [TargetGroup.collect_list_states (hg ▸ ht) hki,
      TargetGroup.collect_list_states (hg' ▸ ht) hki, TargetGroup.var, TargetGroup.var, hg, hg']
    refine h.collected hw ⟨hi, hbusy, hk, hkbusy, hexited⟩ ((h.fields i hi).current _ _)
      (fun hi0 _ => ?_) fun hi0 => ?_
    · exact (h.contents i hi hi0 hscalar).write hbusy hscalar fun hc => hc.append hvar
    · subst hi0
      obtain ⟨earlier, items, items', h₀, hti, hsi, hitems⟩ := h.root
      refine ⟨earlier, items ++ [(g.states k).read k (c.group.items k).target],
        items' ++ [(g'.states k).read k (c.group.items k).target], h₀, ?_, ?_,
        List.rel_append hitems (.cons hvar .nil)⟩
      · simp only [hti, Content.append]
      · simp only [hsi, Content.append, List.append_assoc]

theorem written {st st' : ℕ → TargetState} (h : Same c st₀ m st st') {p : ℕ} (hbusy : p ∈ m.busy)
    (hp0 : p ≠ 0) {v w : Var} (hvw : SameVar c st₀ v w) (key : Bytes) :
    Same c st₀ m (Function.update st p { st p with current := (st p).current.setKey key v })
      (Function.update st' p { st' p with current := (st' p).current.setKey key w }) := by
  constructor
  · exact update_rel (R := fun j t s => j ∈ c.order → SameFields c st₀ m j t s)
      (fun hj => (h.fields p hj).current _ _) fun j _ => h.fields j
  · refine update_rel (R := fun j t s => j ∈ c.order → j ≠ 0 → (c.group.items j).target.isScalar =
      false →
      SameContents c st₀ m j t s) (fun hj hne hscalar => ?_) fun j _ => h.contents j
    exact (h.contents p hj hne hscalar).write hbusy hscalar fun hc => hc.setKey hvw key
  · rw [Function.update_of_ne hp0.symm, Function.update_of_ne hp0.symm]
    exact h.root

theorem converted (lib : ScalarLib) (o : StructOptions) (h : Same c st₀ m g.states g'.states)
    (el : Bytes) {i : ℕ} (hbusy : i ∈ m.busy) :
    Same c st₀ (m.note (.leave el i))
      (Function.update g.states i ((g.states i).converted lib o (c.group.items i).target))
      (Function.update g'.states i ((g'.states i).converted lib o (c.group.items i).target)) := by
  have hupdate := fun st : ℕ → TargetState =>
    TargetState.update_contents
      (TargetState.converted_fields lib o (c.group.items i).target (st i)).2
  constructor
  · refine update_rel (R := fun j t s => j ∈ c.order → SameFields c st₀ _ j t s) (fun hj => ?_)
      fun j hji hj => ?_
    · exact (h.fields i hj).converted hbusy el
    · exact (h.fields j hj).marks rfl (fun hin => hin.resolve_left hji)
        ⟨fun hin => hin.1, fun hin => ⟨hin, hji⟩⟩
  · intro j hj hne hscalar
    refine (h.contents j hj hne hscalar).keep (hupdate _ j) (hupdate _ j) (fun _ hin => hin.1) ?_
    rintro (hin | hin)
    · by_cases hji : j = i
      · exact .inr (.inl hji)
      · exact .inl ⟨hin, hji⟩
    · exact .inr (.inr hin)
  · obtain ⟨earlier, items, items', h₀, ht, hs, hitems⟩ := h.root
    exact ⟨earlier, items, items', h₀, (hupdate _ 0).2.trans ht, (hupdate _ 0).2.trans hs, hitems⟩

theorem leave (hw : Hanging c) (h : Same c st₀ m g.states g'.states) (ht : Tidy c m g.states)
    (hg : g.items = c.group.items) (hg' : g'.items = c.group.items)
    (hroot : ∃ its, (c.group.items 0).target = .list its) {el : Bytes} {i : ℕ}
    (hv : Legal c m (.leave el i)) (hf : Fair c st₀ m (.leave el i)) :
    Same c st₀ (m.note (.leave el i)) (g.move lib o (.leave el i)).states
      (g'.move lib o (.leave el i)).states := by
  obtain ⟨hi, hbusy, hparents, -⟩ := hv
  have hself := hw.forest.irrefl i hi
  have hfields := h.fields i hi
  have hsome := hfields.entered hbusy
  have hkey : (g'.states i).actualKeyName = (g.states i).actualKeyName := hfields.key (.inl hsome)
  have hexit : TargetGroup.exitKey el (g'.states i) = TargetGroup.exitKey el (g.states i) := by
    rw [TargetGroup.exitKey, TargetGroup.exitKey, hkey]
  have hleft := TargetGroup.leave_states lib o el (hg ▸ hself : (g.items i).parentTarget ≠ some i)
  have hleft' :=
    TargetGroup.leave_states lib o el (hg' ▸ hself : (g'.items i).parentTarget ≠ some i)
  dsimp only at hleft hleft'
  rw [hg] at hleft
  rw [hg', hkey, hexit] at hleft'
  have hconverted := h.converted lib o el hbusy
  rcases hleft with ⟨hnone, heq⟩ | ⟨p, hp, hne, heq⟩
  · rcases hleft' with ⟨-, heq'⟩ | ⟨p', hp', hne', -⟩
    · rw [heq, heq']
      exact hconverted
    · rcases hnone with hnone | hnone
      · rw [hnone] at hp'
        cases hp'
      · exact absurd hnone hne'
  · rcases hleft' with ⟨hnone', -⟩ | ⟨p', hp', -, heq'⟩
    · rcases hnone' with hnone' | hnone'
      · rw [hnone'] at hp
        cases hp
      · exact absurd hnone' hne
    · obtain rfl : p = p' := Option.some.inj (hp.symm.trans hp')
      obtain ⟨-, hfit⟩ := hw.fit hi hp
      have hpi : p ≠ i := fun heq => hself (heq ▸ hp)
      have hi0 : i ≠ 0 := by
        rintro rfl
        rw [hw.noParent] at hp
        cases hp
      have hp0 : p ≠ 0 := by
        -- the children of the root list have no key
        rintro rfl
        obtain ⟨its, hlist⟩ := hroot
        obtain ⟨-, hname, hattr, -⟩ := hfit.list hlist
        exact hne
          ((ht.fields i hi).key.trans ((TargetItem.keyFor_of_not_attribute hattr _).trans hname))
      have hpast := fun st : TargetState =>
        (TargetState.converted_fields lib o (c.group.items i).target st).2.1
      obtain ⟨hmust, -, hvar⟩ :=
        TargetState.converted_same lib o (hfields.mustUse (.inr hsome)) hfields.value
      have hread : SameVar c st₀
          (((g.states i).converted lib o (c.group.items i).target).read i (c.group.items i).target)
          (((g'.states i).converted lib o (c.group.items i).target).read i
            (c.group.items i).target) := by
        refine .read hmust hvar (fun hs => ?_) fun hs hin => ?_
        · rw [hpast, hpast]
          exact (h.contents i hi hi0 hs).length
        · rw [hpast]
          cases hti : (c.group.items i).target with
          | scalar => rw [hti] at hs; cases hs
          | object its => exact hfields.past hsome ⟨its, hti⟩
          | list its => exact absurd hin (hf hi0 ⟨its, hti⟩)
      have hwritten :=
        hconverted.written (show p ∈ (m.note (.leave el i)).busy from ⟨hparents p hp, hpi⟩) hp0
          hread
        (TargetGroup.exitKey el (g.states i))
      rw [Function.update_of_ne hpi, Function.update_of_ne hpi] at hwritten
      rw [heq, heq']
      exact hwritten

theorem move (hw : Hanging c) (hl : Leftover c st₀)
    (hroot : ∃ its, (c.group.items 0).target = .list its) {v : Move} (hv : Legal c m v)
    (hf : Fair c st₀ m v) (h : Same c st₀ m g.states g'.states) (ht : Tidy c m g.states)
    (hg : g.items = c.group.items) (hg' : g'.items = c.group.items) :
    Same c st₀ (m.note v) (g.move lib o v).states (g'.move lib o v).states := by
  cases v with
  | enter attrs i => exact h.enter hl hg hg' hroot hv
  | text text i => exact h.text hg hg' hv
  | collect el i k => exact h.collect hw hl hg hg' hroot hv hf
  | leave el i => exact h.leave hw ht hg hg' hroot hv hf

theorem start (hw : Hanging c) (hl : Leftover c st₀)
    (hroot : ∃ earlier, (st₀ 0).current = .list earlier)
    (hlist : ∃ its, (c.group.items 0).target = .list its) :
    Same c st₀ Marks.start c.group.states st₀ := by
  have hfresh : ∀ i, (c.group.states i).Clean (c.group.items i).target ∧ (c.group.states i).past =
    [] ∧
      (c.group.states i).actualKeyName = (c.group.items i).keyName ∧ (c.group.states i).value =
        [] := by
    intro i
    refine ⟨hw.clean_fresh i, ?_⟩
    rw [hw.fresh i]
    exact ⟨rfl, rfl, rfl⟩
  constructor
  · intro i hi
    obtain ⟨hclean, hpast, hkey, hvalue⟩ := hfresh i
    refine ⟨fun hor => ?_, fun hscalar => (hl.value i hi hscalar).trans hvalue.symm, fun hor => ?_,
      fun _ hin => absurd hin (Set.notMem_empty i), fun hin => absurd hin (Set.notMem_empty i),
      fun hsome => ?_⟩
    · exact (hor.resolve_left Bool.false_ne_true).trans hkey.symm
    · by_cases hi0 : i = 0
      · subst hi0
        obtain ⟨its, hlist⟩ := hlist
        rw [hlist]
        rfl
      · exact hclean.mustUse_eq (hl.clean i hi hi0 (hor.resolve_right Bool.false_ne_true))
    · exact absurd hsome Bool.false_ne_true
  · intro i hi hne hscalar
    obtain ⟨hclean, hpast, -, -⟩ := hfresh i
    refine ⟨?_, fun n a hn => ?_, fun hused => ?_, List.prefix_refl _,
      fun _ => .inl ⟨rfl, rfl, fun _ => Set.notMem_empty i⟩⟩
    · rw [hpast]
      rfl
    · rw [hpast] at hn
      cases hn
    · have hsame : (st₀ i).current = (c.group.states i).current := by
        by_contra hin
        exact hused hin hpast
      rw [hsame]
      cases ht : (c.group.items i).target with
      | scalar => rw [ht] at hscalar; cases hscalar
      | object its =>
        rw [ht] at hclean
        rw [show (c.group.states i).current = .dict [] from hclean]
        exact .dict .nil
      | list its =>
        rw [ht] at hclean
        rw [show (c.group.states i).current = .list [] from hclean]
        exact .list .nil
  · obtain ⟨earlier, h₀⟩ := hroot
    obtain ⟨its, hlist⟩ := hlist
    have hclean := (hfresh 0).1
    rw [hlist] at hclean
    exact ⟨earlier, [], [], h₀, hclean, by rw [h₀, List.append_nil], .nil⟩

end Same

end

end Xml2Var
end Nkit
