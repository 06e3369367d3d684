import Nkit.Mapping.MoveOrder

/-! What the targets hold when none of their elements is open, and which of the lists and dicts they
made will not be written to any more. -/

namespace Nkit
namespace Xml2Var
open OrderedMap

def Content.vars : Content → List Var
  | .list items => items
  | .dict entries => entries.map Prod.snd

namespace Content
variable {content : Content} {v w : Var}

theorem mem_vars_setKey {key : Bytes} (h : w ∈ (content.setKey key v).vars) :
    w = v ∨ w ∈ content.vars := by
  cases content with
  | list items => exact .inr h
  | dict entries =>
    obtain ⟨e, he, rfl⟩ := List.mem_map.mp h
    rcases value_of_mem_update he with hin | hv | ⟨e', -, hv⟩
    · exact .inr (List.mem_map_of_mem hin)
    · exact .inl hv
    · exact .inl hv

theorem mem_vars_append (h : w ∈ (content.append v).vars) : w = v ∨ w ∈ content.vars := by
  cases content with
  | dict entries => exact .inr h
  | list items => exact (List.mem_append.mp h).symm.imp List.mem_singleton.mp id

end Content

def Target.isScalar : Target → Bool
  | .scalar _ => true
  | _ => false

def TargetItem.keyFor (attrs : Option (List (Bytes × Bytes))) (item : TargetItem Bytes) : Bytes :=
  match attrs with
  | some attrs =>
    if item.keyNameIsAttribute then (findAttributeValue attrs item.keyName).getD item.keyName
      else item.keyName
  | none => item.keyName

def Compiled.dropped (c : Compiled) (j : ℕ) : Bool :=
  match (c.group.items j).parentTarget with
  | some p => !(c.group.items p).target.children.contains j
  | none => false

theorem Compiled.dropped_iff {c : Compiled} {j p : ℕ}
    (h : (c.group.items j).parentTarget = some p) :
    c.dropped j = true ↔ j ∉ (c.group.items p).target.children := by
  simp [dropped, h]

namespace TargetState
variable {s : TargetState} {target : Target}

/-- The state that `Clear` leaves. -/
def Clean (target : Target) (s : TargetState) : Prop :=
  match target with
  | .object _ => s.current = .dict []
  | .list _ => s.current = .list []
  | .scalar t => t.defaultValue.isSome → s.useDefaultValue = true

theorem clean_clear : (s.clear target).Clean target := by
  cases target with
  | object => rfl
  | list => rfl
  | scalar => exact fun _ => rfl

theorem clean_new : (new target).Clean target := by
  cases target with
  | object => rfl
  | list => rfl
  | scalar => exact id

theorem Clean.vars (h : s.Clean target) (hscalar : target.isScalar = false) :
    s.current.vars = [] := by
  cases target with
  | object => exact congrArg Content.vars h
  | list => exact congrArg Content.vars h
  | scalar => cases hscalar

theorem Clean.list {its : List ℕ} (h : s.Clean (.list its)) : s.current = .list [] := h

theorem clear_fields (s : TargetState) (target : Target) :
    (s.clear target).actualKeyName = s.actualKeyName ∧ (s.clear target).var = s.var ∧
    (target.isScalar = true → (s.clear target).past = s.past ∧ (s.clear target).current =
      s.current) ∧
    (target.isScalar = false → (s.clear target).past = s.past ++ [s.current] ∧
      (s.clear target).value = s.value) := by
  cases target with
  | object => exact ⟨rfl, rfl, fun h => absurd h Bool.false_ne_true, fun _ => ⟨rfl, rfl⟩⟩
  | list => exact ⟨rfl, rfl, fun h => absurd h Bool.false_ne_true, fun _ => ⟨rfl, rfl⟩⟩
  | scalar => exact ⟨rfl, rfl, fun _ => ⟨rfl, rfl⟩, fun h => absurd h.symm Bool.false_ne_true⟩

theorem read_made {i j n : ℕ} (h : s.read i target = .made j n) :
    j = i ∧ n = s.past.length ∧ target.isScalar = false := by
  cases target with
  | scalar t => cases h
  | object its =>
    obtain ⟨rfl, rfl⟩ := Var.made.inj h
    exact ⟨rfl, rfl, rfl⟩
  | list its =>
    obtain ⟨rfl, rfl⟩ := Var.made.inj h
    exact ⟨rfl, rfl, rfl⟩

def opened (o : StructOptions) (attrs : List (Bytes × Bytes)) : Content :=
  if !o.attrkey.isEmpty && !attrs.isEmpty then .dict [(o.attrkey, .value (.dict (attrDict attrs)))]
    else .dict []

def enteredKey {E : Type} (attrs : List (Bytes × Bytes)) (item : TargetItem E) (s : TargetState) :
    Bytes :=
  if item.keyNameIsAttribute then (findAttributeValue attrs item.keyName).getD item.keyName
    else s.actualKeyName

def enteredText {E : Type} (attrs : List (Bytes × Bytes)) (item : TargetItem E) : Option Bytes :=
  if item.path.attributeName.isEmpty then none else findAttributeValue attrs item.path.attributeName

variable {E : Type} {o : StructOptions} {attrs : List (Bytes × Bytes)} {item : TargetItem E}

theorem onEnter_object {its : List ℕ} (h : item.target = .object its) :
    s.onEnter o attrs item =
      { s with
        actualKeyName := enteredKey attrs item s, current := opened o attrs,
        past := s.past ++ [s.current] } := by
  rw [onEnter, enteredKey, opened, setAttrKey]
  simp only [h]
  cases item.path.attributeName.isEmpty <;>
    cases findAttributeValue attrs item.path.attributeName <;>
    cases item.keyNameIsAttribute <;> cases (!o.attrkey.isEmpty && !attrs.isEmpty) <;> rfl

theorem onEnter_list {its : List ℕ} (h : item.target = .list its) :
    s.onEnter o attrs item = { s with actualKeyName := enteredKey attrs item s } := by
  rw [onEnter, enteredKey]
  simp only [h]
  cases item.path.attributeName.isEmpty <;>
    cases findAttributeValue attrs item.path.attributeName <;>
    cases item.keyNameIsAttribute <;> rfl

theorem onEnter_scalar {t : ScalarTarget} (h : item.target = .scalar t) :
    s.onEnter o attrs item =
      { s with
        actualKeyName := enteredKey attrs item s
        useDefaultValue := (enteredText attrs item).isNone
        value := s.value ++ (enteredText attrs item).getD [] } := by
  rw [onEnter, enteredKey, enteredText]
  simp only [h]
  cases item.path.attributeName.isEmpty with
  | true => cases item.keyNameIsAttribute <;> simp
  | false =>
    cases findAttributeValue attrs item.path.attributeName <;> cases item.keyNameIsAttribute <;>
      simp [onText]

theorem onEnter_key : (s.onEnter o attrs item).actualKeyName = enteredKey attrs item s := by
  cases h : item.target with
  | object its => rw [onEnter_object h]
  | list its => rw [onEnter_list h]
  | scalar t => rw [onEnter_scalar h]

theorem onEnter_contents (s : TargetState) (o : StructOptions) (attrs : List (Bytes × Bytes))
    (item : TargetItem Bytes) :
    (item.target.isScalar = false ∧ (s.onEnter o attrs item).past = s.past ++ [s.current] ∧
        ∀ j n, .made j n ∉ (s.onEnter o attrs item).current.vars) ∨
      ((s.onEnter o attrs item).past = s.past ∧ (s.onEnter o attrs item).current = s.current) := by
  cases h : item.target with
  | object its =>
    rw [onEnter_object h]
    refine .inl ⟨rfl, rfl, fun j n => ?_⟩
    dsimp only [opened]
    split_ifs <;> simp [Content.vars]
  | list its =>
    rw [onEnter_list h]
    exact .inr ⟨rfl, rfl⟩
  | scalar t =>
    rw [onEnter_scalar h]
    exact .inr ⟨rfl, rfl⟩

end TargetState

theorem TargetItem.keyFor_of_not_attribute {item : TargetItem Bytes}
    (h : item.keyNameIsAttribute = false) (last : Option (List (Bytes × Bytes))) :
    item.keyFor last = item.keyName := by
  cases last <;> simp [keyFor, h]

theorem TargetItem.keyFor_enter {item : TargetItem Bytes} {s : TargetState}
    {last : Option (List (Bytes × Bytes))} (h : s.actualKeyName = item.keyFor last)
    (attrs : List (Bytes × Bytes)) :
    TargetState.enteredKey attrs item s = item.keyFor (some attrs) := by
  rw [TargetState.enteredKey, h]
  cases hattr : item.keyNameIsAttribute with
  | true => simp [keyFor, hattr]
  | false =>
    rw [keyFor_of_not_attribute hattr, keyFor_of_not_attribute hattr, if_neg Bool.false_ne_true]

section
variable (c : Compiled) (m : Marks) (st : ℕ → TargetState)

/-- List or dict number `n` of target `j` is not written to before the target is entered again. -/
def Settled (j n : ℕ) : Prop :=
  n < (st j).past.length ∨ (n = (st j).past.length ∧ j ∈ m.exited ∧ c.dropped j = true)

def Made (j n : ℕ) : Prop :=
  n ≤ (st j).past.length ∧ (j ∈ m.tidy → n < (st j).past.length) ∧
    (n = (st j).past.length → j ∈ m.exited)

/-- The lists and dicts in the content of target `i` are those of its children. -/
def RefersTo (R : ℕ → ℕ → Prop) (i : ℕ) (content : Content) : Prop :=
  ∀ j n, .made j n ∈ content.vars →
    j ∈ c.order ∧ (c.group.items j).parentTarget = some i ∧ (c.group.items j).target.isScalar =
      false ∧ R j n

end

section
variable {c : Compiled} {m m' : Marks} {st st' : ℕ → TargetState} {i j n : ℕ}

theorem RefersTo.imp {R R' : ℕ → ℕ → Prop} {content : Content} (h : RefersTo c R i content)
    (hR : ∀ j n, (c.group.items j).target.isScalar = false → R j n → R' j n) :
    RefersTo c R' i content := by
  intro j n hin
  obtain ⟨hj, hparent, hscalar, hr⟩ := h j n hin
  exact ⟨hj, hparent, hscalar, hR j n hscalar hr⟩

structure Later (c : Compiled) (m : Marks) (st : ℕ → TargetState) (m' : Marks)
    (st' : ℕ → TargetState) : Prop where
  past : ∀ j, (st j).past.length ≤ (st' j).past.length
  exited : m.exited ⊆ m'.exited
  tidy : ∀ j ∈ m'.tidy, (c.group.items j).target.isScalar = false →
    j ∈ m.tidy ∨ (st j).past.length < (st' j).past.length

theorem Settled.later (h : Settled c m st j n) (hl : Later c m st m' st') :
    Settled c m' st' j n := by
  have hle := hl.past j
  rcases h with h | ⟨rfl, hexited, hdropped⟩
  · exact .inl (h.trans_le hle)
  · rcases hle.lt_or_eq with hlt | heq
    · exact .inl hlt
    · exact .inr ⟨heq, hl.exited hexited, hdropped⟩

theorem Made.later (h : Made m st j n) (hscalar : (c.group.items j).target.isScalar = false)
    (hl : Later c m st m' st') :
    Made m' st' j n := by
  obtain ⟨hn, htidy, hexited⟩ := h
  have hle := hl.past j
  refine ⟨hn.trans hle, fun hin => ?_, fun heq => ?_⟩
  · rcases hl.tidy j hin hscalar with hin | hlt
    · exact (htidy hin).trans_le hle
    · exact hn.trans_lt hlt
  · exact hl.exited (hexited (Nat.le_antisymm hn (heq ▸ hle)))

end

structure FieldsAt (c : Compiled) (m : Marks) (i : ℕ) (s : TargetState) : Prop where
  key : s.actualKeyName = (c.group.items i).keyFor (m.attrs i)
  value : i ∉ m.busy → (c.group.items i).target.isScalar = true → s.value = []
  clean : i ∈ m.tidy → i ∉ m.busy → s.Clean (c.group.items i).target
  unused : i ∉ m.exited → i ∉ m.busy → ∀ its, (c.group.items i).target = .list its →
    s.current = .list []

structure RefsAt (c : Compiled) (m : Marks) (st : ℕ → TargetState) (i : ℕ) : Prop where
  past : ∀ content ∈ (st i).past, RefersTo c (Settled c m st) i content
  current : RefersTo c (Made m st) i (st i).current
  settled : (i ∉ m.busy ∨ ∃ its, (c.group.items i).target = .list its) →
    RefersTo c (Settled c m st) i (st i).current

structure Tidy (c : Compiled) (m : Marks) (st : ℕ → TargetState) : Prop where
  fields : ∀ i ∈ c.order, FieldsAt c m i (st i)
  refs : ∀ i ∈ c.order, (c.group.items i).target.isScalar = false → RefsAt c m st i

section
variable {c : Compiled} {m m' : Marks} {st st' : ℕ → TargetState} {i : ℕ}

theorem RefsAt.later (h : RefsAt c m st i) (hl : Later c m st m' st')
    (hpast : (st' i).past = (st i).past) (hcurrent : (st' i).current = (st i).current)
    (hbusy : i ∉ m'.busy → i ∉ m.busy) : RefsAt c m' st' i where
  past := fun content hin => (h.past content (hpast ▸ hin)).imp fun _ _ _ hs => hs.later hl
  current := hcurrent ▸ h.current.imp fun _ _ hscalar hmade => hmade.later hscalar hl
  settled := fun hi => hcurrent ▸ (h.settled (hi.imp_left hbusy)).imp fun _ _ _ hs => hs.later hl

theorem RefsAt.renew (h : RefsAt c m st i) (hl : Later c m st m' st') (hbusy : i ∉ m.busy)
    (hpast : (st' i).past = (st i).past ++ [(st i).current])
    (hcurrent : ∀ j n, .made j n ∉ (st' i).current.vars) :
    RefsAt c m' st' i where
  past := by
    intro content hin
    rw [hpast] at hin
    rcases List.mem_append.mp hin with hin | hin
    · exact (h.past content hin).imp fun _ _ _ hs => hs.later hl
    · exact List.mem_singleton.mp hin ▸ (h.settled (.inl hbusy)).imp fun _ _ _ hs => hs.later hl
  current := fun j n hin => absurd hin (hcurrent j n)
  settled := fun _ j n hin => absurd hin (hcurrent j n)

end

theorem FieldsAt.of_busy {c : Compiled} {m : Marks} {i : ℕ} {s : TargetState} (hbusy : i ∈ m.busy)
    (hkey : s.actualKeyName = (c.group.items i).keyFor (m.attrs i)) : FieldsAt c m i s :=
  ⟨hkey, fun h => absurd hbusy h, fun _ h => absurd hbusy h, fun _ h => absurd hbusy h⟩

theorem Hanging.clean_fresh {c : Compiled} (h : Hanging c) (i : ℕ) :
    (c.group.states i).Clean (c.group.items i).target := by
  rw [h.fresh i]
  exact TargetState.clean_new

theorem TargetState.update_contents {st : ℕ → TargetState} {i : ℕ} {s : TargetState}
    (h : s.past = (st i).past ∧ s.current = (st i).current) (j : ℕ) :
    (Function.update st i s j).past = (st j).past ∧ (Function.update st i s j).current =
      (st j).current :=
  (Function.forall_update_iff st fun j s => s.past = (st j).past ∧ s.current = (st j).current).mpr
    ⟨h, fun _ _ => ⟨rfl, rfl⟩⟩ j

namespace Tidy
open Marks Ledger
variable {c : Compiled} {m : Marks} {lib : ScalarLib} {o : StructOptions} {g : TargetGroup Bytes}

theorem enter (h : Tidy c m g.states) (hitems : g.items = c.group.items)
    {attrs : List (Bytes × Bytes)} {i : ℕ} (hv : Legal c m (.enter attrs i)) :
    Tidy c (m.note (.enter attrs i)) (g.move lib o (.enter attrs i)).states := by
  obtain ⟨hi, hbusy⟩ := hv
  rw [TargetGroup.enter_states, hitems]
  set s := g.states i with hs
  set s' := s.onEnter o attrs (c.group.items i) with hs'
  have hfields := h.fields i hi
  have hother : ∀ j, j ≠ i → Function.update g.states i s' j = g.states j := fun j hj =>
    Function.update_of_ne hj ..
  have hself : Function.update g.states i s' i = s' := Function.update_self ..
  have hcontents := s.onEnter_contents o attrs (c.group.items i)
  rw [← hs'] at hcontents
  have hkey : s'.actualKeyName = (c.group.items i).keyFor (some attrs) :=
    TargetState.onEnter_key.trans (TargetItem.keyFor_enter hfields.key attrs)
  have hl : Later c m g.states (m.note (.enter attrs i)) (Function.update g.states i s') := by
    refine ⟨fun j => ?_, Set.Subset.refl _, fun j hj _ => .inl hj⟩
    by_cases hji : j = i
    · rw [hji, hself]
      rcases hcontents with ⟨-, hp, -⟩ | ⟨hp, -⟩
      · simp [hp, hs]
      · rw [hp]
    · rw [hother j hji]
  constructor
  · intro j hj
    by_cases hji : j = i
    · subst hji
      rw [hself]
      exact .of_busy (Set.mem_insert j m.busy) (by simp [hkey, note])
    · rw [hother j hji]
      obtain ⟨hkey, hvalue, hclean, hunused⟩ := h.fields j hj
      refine ⟨?_, fun hnot => hvalue fun hin => hnot (.inr hin),
        fun hin hnot => hclean hin fun hin => hnot (.inr hin), fun hin hnot =>
          hunused hin fun hin => hnot (.inr hin)⟩
      simp [hkey, note, hji]
  · intro j hj hscalar
    have hrefs := h.refs j hj hscalar
    by_cases hji : j = i
    · subst hji
      rcases hcontents with ⟨-, hp, hc⟩ | ⟨hp, hc⟩
      · exact hrefs.renew hl hbusy (hself.symm ▸ hp) (hself.symm ▸ hc)
      · exact hrefs.later hl (hself.symm ▸ hp) (hself.symm ▸ hc) fun hnot hin => hnot (.inr hin)
    · exact hrefs.later hl (by rw [hother j hji]) (by rw [hother j hji]) fun hnot hin =>
        hnot (.inr hin)

theorem text (h : Tidy c m g.states) {text : Bytes} {i : ℕ} (hv : Legal c m (.text text i)) :
    Tidy c m (g.move lib o (.text text i)).states := by
  obtain ⟨hi, hbusy⟩ := hv
  rw [TargetGroup.text_states]
  set s' := if (g.items i).path.attributeName.isEmpty then (g.states i).onText (g.items i).target
    text else g.states i with hs'
  have hsame : s'.actualKeyName = (g.states i).actualKeyName ∧ s'.past = (g.states i).past ∧
      s'.current = (g.states i).current := by
    rw [hs']
    split_ifs
    · cases (g.items i).target <;> exact ⟨rfl, rfl, rfl⟩
    · exact ⟨rfl, rfl, rfl⟩
  have hcontents := TargetState.update_contents hsame.2
  have hl : Later c m g.states m (Function.update g.states i s') :=
    ⟨fun j => (congrArg List.length (hcontents j).1).ge, Set.Subset.refl _, fun j hj _ => .inl hj⟩
  constructor
  · intro j hj
    by_cases hji : j = i
    · subst hji
      rw [Function.update_self]
      exact .of_busy hbusy (hsame.1.trans (h.fields j hj).key)
    · rw [Function.update_of_ne hji]
      exact h.fields j hj
  · exact fun j hj hscalar => (h.refs j hj hscalar).later hl (hcontents j).1 (hcontents j).2 id

theorem collected (hw : Hanging c) (h : Tidy c m g.states) {el : Bytes} {i k : ℕ}
    (hv : Legal c m (.collect el i k)) {s : TargetState}
    (hkey : s.actualKeyName = (g.states i).actualKeyName) (hpast : s.past = (g.states i).past)
    (hscalar : (c.group.items i).target.isScalar = false)
    (hcurrent : ∀ j n, .made j n ∈ s.current.vars → .made j n ∈ (g.states i).current.vars ∨
      (j = k ∧ n = (g.states k).past.length ∧ (c.group.items k).target.isScalar = false)) :
    Tidy c (m.note (.collect el i k))
      (Function.update (Function.update g.states i s) k
        ((g.states k).clear (c.group.items k).target)) := by
  obtain ⟨hi, hbusy, hk, hkbusy, -⟩ := hv
  obtain ⟨hkin, hparent⟩ := hw.forest.children i hi k hk
  have hki := hw.child_ne hi hk
  set st' :=
    Function.update (Function.update g.states i s) k ((g.states k).clear (c.group.items k).target)
      with hst'
  have hstk : st' k = (g.states k).clear (c.group.items k).target := Function.update_self ..
  have hsti : st' i = s := by rw [hst', Function.update_of_ne hki.symm, Function.update_self]
  have hother : ∀ j, j ≠ i → j ≠ k → st' j = g.states j := by
    intro j hji hjk
    rw [hst', Function.update_of_ne hjk, Function.update_of_ne hji]
  obtain ⟨hclearKey, -, hclearScalar, hclearMade⟩ :=
    (g.states k).clear_fields (c.group.items k).target
  have hpastk : (c.group.items k).target.isScalar = false →
      (st' k).past.length = (g.states k).past.length + 1 := by
    intro hs
    rw [hstk, (hclearMade hs).1, List.length_append]
    rfl
  have hl : Later c m g.states (m.note (.collect el i k)) st' := by
    refine ⟨fun j => ?_, Set.Subset.refl _, fun j hj hs => ?_⟩
    · by_cases hjk : j = k
      · subst hjk
        cases hs : (c.group.items j).target.isScalar with
        | true => rw [hstk, (hclearScalar hs).1]
        | false => exact (Nat.le_succ _).trans (hpastk hs).ge
      · by_cases hji : j = i
        · rw [hji, hsti, hpast]
        · rw [hother j hji hjk]
    · rcases Set.mem_insert_iff.mp hj with rfl | hj
      · exact .inr ((Nat.lt_succ_self _).trans_eq (hpastk hs).symm)
      · exact .inl hj
  constructor
  · intro j hj
    obtain ⟨hkeyj, hvalue, hclean, hunused⟩ := h.fields j hj
    by_cases hjk : j = k
    · subst hjk
      rw [hstk]
      refine ⟨hclearKey.trans hkeyj, fun _ hs => ?_, fun _ _ => TargetState.clean_clear,
        fun _ _ its ht => ?_⟩
      · cases ht : (c.group.items j).target with
        | scalar t => rfl
        | object its => rw [ht] at hs; cases hs
        | list its => rw [ht] at hs; cases hs
      · rw [ht]
        rfl
    · by_cases hji : j = i
      · subst hji
        exact .of_busy hbusy (by rw [hsti, hkey, hkeyj]; rfl)
      · rw [hother j hji hjk]
        exact ⟨hkeyj, hvalue, fun hin hnot => hclean (Set.mem_of_mem_insert_of_ne hin hjk) hnot,
          hunused⟩
  · intro j hj hs
    have hrefs := h.refs j hj hs
    by_cases hjk : j = k
    · subst hjk
      refine hrefs.renew hl hkbusy (by rw [hstk, (hclearMade hs).1]) fun _ _ hin => ?_
      rw [hstk, TargetState.clean_clear.vars hs] at hin
      exact absurd hin List.not_mem_nil
    · by_cases hji : j = i
      · subst hji
        have hnew : ∀ {R R' : ℕ → ℕ → Prop}, RefersTo c R j (g.states j).current →
            (∀ j n, (c.group.items j).target.isScalar = false → R j n → R' j n) →
            ((c.group.items k).target.isScalar = false → R' k (g.states k).past.length) →
              RefersTo c R' j (st' j).current := by
          intro R R' hR himp hk' j' n hin
          rw [hsti] at hin
          rcases hcurrent j' n hin with hin | ⟨rfl, rfl, hsk⟩
          · exact hR.imp himp j' n hin
          · exact ⟨hkin, hparent, hsk, hk' hsk⟩
        refine ⟨fun content hin => ?_, ?_, fun hor => ?_⟩
        · rw [hsti, hpast] at hin
          exact (hrefs.past content hin).imp fun _ _ _ hs => hs.later hl
        · refine hnew hrefs.current (fun _ _ hs hm => hm.later hs hl) fun hsk => ?_
          have hlt : (g.states k).past.length < (st' k).past.length :=
            (Nat.lt_succ_self _).trans_eq (hpastk hsk).symm
          exact ⟨hlt.le, fun _ => hlt, fun heq => absurd heq hlt.ne⟩
        · exact hnew (hrefs.settled hor) (fun _ _ _ hs => hs.later hl) fun hsk =>
            .inl ((Nat.lt_succ_self _).trans_eq (hpastk hsk).symm)
      · exact hrefs.later hl (by rw [hother j hji hjk]) (by rw [hother j hji hjk]) id

theorem collect (hw : Hanging c) (h : Tidy c m g.states) (hitems : g.items = c.group.items)
    {el : Bytes} {i k : ℕ} (hv : Legal c m (.collect el i k)) :
    Tidy c (m.note (.collect el i k)) (g.move lib o (.collect el i k)).states := by
  have hk : k ∈ (c.group.items i).target.children := hv.2.2.1
  have hki := hw.child_ne hv.1 hk
  have hread : ∀ j n, g.var k = .made j n → j = k ∧ n = (g.states k).past.length ∧
      (c.group.items k).target.isScalar = false :=
    fun j n hmade => hitems ▸ TargetState.read_made hmade
  cases ht : (c.group.items i).target with
  | scalar t =>
    rw [ht] at hk
    exact absurd hk List.not_mem_nil
  | object its =>
    rw [TargetGroup.collect_object_states (hitems ▸ ht) hki, hitems]
    cases hmust : g.mustUseDefaultValue k with
    | false => exact h.collected hw hv rfl rfl (by rw [ht]; rfl) fun j n hin => .inl hin
    | true =>
      refine h.collected hw hv rfl rfl (by rw [ht]; rfl) fun j n hin => ?_
      rcases Content.mem_vars_setKey hin with heq | hin
      · exact .inr (hread j n heq.symm)
      · exact .inl hin
  | list its =>
    rw [TargetGroup.collect_list_states (hitems ▸ ht) hki, hitems]
    refine h.collected hw hv rfl rfl (by rw [ht]; rfl) fun j n hin => ?_
    rcases Content.mem_vars_append hin with heq | hin
    · exact .inr (hread j n heq.symm)
    · exact .inl hin

theorem leave (hw : Hanging c) (h : Tidy c m g.states) (hitems : g.items = c.group.items)
    {el : Bytes} {i : ℕ} (hv : Legal c m (.leave el i)) :
    Tidy c (m.note (.leave el i)) (g.move lib o (.leave el i)).states := by
  obtain ⟨hi, hbusy, hparents, hchildren⟩ := hv
  have hself : (g.items i).parentTarget ≠ some i := hitems ▸ hw.forest.irrefl i hi
  set s := (g.states i).converted lib o (g.items i).target with hs
  set st' := (g.move lib o (.leave el i)).states with hst'
  obtain ⟨hkeys, hpasts, hcurrents⟩ :=
    TargetState.converted_fields lib o (g.items i).target (g.states i)
  rw [← hs] at hkeys hpasts hcurrents
  have hvalue : (c.group.items i).target.isScalar = true → s.value = [] := by
    rw [hs, hitems]
    cases (c.group.items i).target with
    | scalar t =>
      rw [TargetState.converted]
      split_ifs <;> exact fun _ => rfl
    | object its => exact fun h => absurd h Bool.false_ne_true
    | list its => exact fun h => absurd h Bool.false_ne_true
  have hkeyi : (c.group.items i).keyFor (m.attrs i) = (g.states i).actualKeyName :=
    (h.fields i hi).key.symm
  -- what happens to the target, its parent and the others
  have hsti : st' i = s := by
    rcases TargetGroup.leave_states lib o el hself with ⟨-, heq⟩ | ⟨p, hp, -, heq⟩
    · rw [hst', heq, Function.update_self]
    · have hip : i ≠ p := fun heq => hself (heq ▸ hp)
      rw [hst', heq, Function.update_of_ne hip, Function.update_self]
  have hother : ∀ j, j ≠ i → st' j = g.states j ∨
      ∃ v, (c.group.items i).parentTarget = some j ∧ (∀ its, (c.group.items j).target ≠ .list its) ∧
        st' j = { g.states j with current := v } ∧ ∀ j' n, .made j' n ∈ v.vars →
          .made j' n ∈ (g.states j).current.vars ∨
          (j' = i ∧ n = (g.states i).past.length ∧ (c.group.items i).target.isScalar = false) := by
    intro j hji
    rcases TargetGroup.leave_states lib o el hself with ⟨-, heq⟩ | ⟨p, hp, hkey, heq⟩
    · exact .inl (by rw [hst', heq, Function.update_of_ne hji])
    · by_cases hjp : j = p
      · subst hjp
        rw [hitems] at hp
        refine .inr ⟨_, hp, fun its hlist => hkey ?_, by rw [hst', heq, Function.update_self],
          fun j' n hin => ?_⟩
        · -- the child of a list has no key
          obtain ⟨-, hname, hattr, -⟩ := (hw.fit hi hp).2.list hlist
          rw [← hkeyi, TargetItem.keyFor_of_not_attribute hattr, hname]
        · rcases Content.mem_vars_setKey hin with hv | hin
          · obtain ⟨rfl, rfl, hscalar⟩ := TargetState.read_made hv.symm
            exact .inr ⟨rfl, congrArg List.length hpasts, hitems ▸ hscalar⟩
          · exact .inl hin
      · exact .inl (by rw [hst', heq, Function.update_of_ne hjp, Function.update_of_ne hji])
  have hpast : ∀ j, (st' j).past = (g.states j).past := by
    intro j
    by_cases hji : j = i
    · rw [hji, hsti, hpasts]
    · rcases hother j hji with heq | ⟨v, -, -, heq, -⟩ <;> rw [heq]
  have hl : Later c m g.states (m.note (.leave el i)) st' :=
    ⟨fun j => (congrArg List.length (hpast j)).ge, Set.subset_insert i m.exited,
      fun j hj _ => .inl hj.1⟩
  constructor
  · intro j hj
    obtain ⟨hkeyj, hvaluej, hclean, hunused⟩ := h.fields j hj
    by_cases hji : j = i
    · subst hji
      rw [hsti]
      exact ⟨hkeys.trans hkeyj, fun _ hs => hvalue hs, fun hin => absurd rfl hin.2,
        fun hnot => absurd (Set.mem_insert j _) hnot⟩
    · rcases hother j hji with heq | ⟨v, hp, -, heq, -⟩
      · rw [heq]
        exact ⟨hkeyj, fun hnot => hvaluej fun hin => hnot ⟨hin, hji⟩,
          fun hin hnot => hclean hin.1 fun hin => hnot ⟨hin, hji⟩, fun hin hnot =>
            hunused (fun hin' => hin (.inr hin')) fun hin' => hnot ⟨hin', hji⟩⟩
      · exact .of_busy ⟨hparents j hp, hji⟩ (by rw [heq]; exact hkeyj)
  · intro j hj hscalar
    have hrefs := h.refs j hj hscalar
    by_cases hji : j = i
    · subst hji
      have hcurrent : (st' j).current = (g.states j).current := by rw [hsti, hcurrents]
      refine ⟨fun content hin => (hrefs.past content (hpast j ▸ hin)).imp fun _ _ _ hs =>
        hs.later hl, hcurrent ▸ hrefs.current.imp fun _ _ hs hm => hm.later hs hl, fun _ => ?_⟩
      -- all children were cleared
      rw [hcurrent]
      intro k n hin
      obtain ⟨hk, hparent, hs, hn, htidy, hexited⟩ := hrefs.current k n hin
      refine ⟨hk, hparent, hs, Settled.later ?_ hl⟩
      by_cases hchild : k ∈ (c.group.items j).target.children
      · exact .inl (htidy (hchildren k hchild))
      · rcases hn.lt_or_eq with hlt | heq
        · exact .inl hlt
        · exact .inr ⟨heq, hexited heq, (Compiled.dropped_iff hparent).mpr hchild⟩
    · rcases hother j hji with heq | ⟨v, hp, hlist, heq, hnew⟩
      · exact hrefs.later hl (hpast j) (by rw [heq]) fun hnot hin => hnot ⟨hin, hji⟩
      · refine ⟨fun content hin => (hrefs.past content (hpast j ▸ hin)).imp fun _ _ _ hs =>
          hs.later hl, ?_, ?_⟩
        · rw [heq]
          intro k n hin
          rcases hnew k n hin with hin | ⟨rfl, rfl, hs⟩
          · exact hrefs.current.imp (fun _ _ hs hm => hm.later hs hl) k n hin
          · refine ⟨hi, hp, hs, ?_⟩
            rw [Made, hpast]
            exact ⟨le_rfl, fun hin => absurd rfl hin.2, fun _ => Set.mem_insert k _⟩
        · rintro (hnot | ⟨its, ht⟩)
          · exact absurd ⟨hparents j hp, hji⟩ hnot
          · exact absurd ht (hlist its)

theorem start (hw : Hanging c) : Tidy c Marks.start c.group.states := by
  have hclean := hw.clean_fresh
  constructor
  · intro i hi
    refine ⟨?_, fun _ _ => ?_, fun _ _ => hclean i,
      fun _ _ its ht => (ht ▸ hclean i : TargetState.Clean (.list its) _).list⟩
    all_goals
      rw [hw.fresh i]
      rfl
  · intro i hi hscalar
    have hnone : ∀ j n, .made j n ∉ (c.group.states i).current.vars := by
      intro j n
      rw [(hclean i).vars hscalar]
      exact List.not_mem_nil
    have hpast : (c.group.states i).past = [] := by
      rw [hw.fresh i]
      rfl
    refine ⟨fun content hin => ?_, fun j n hin => absurd hin (hnone j n),
      fun _ j n hin => absurd hin (hnone j n)⟩
    rw [hpast] at hin
    exact absurd hin List.not_mem_nil

theorem move (hw : Hanging c) {v : Move} (hv : Legal c m v) (h : Tidy c m g.states)
    (hitems : g.items = c.group.items) :
    Tidy c (m.note v) (g.move lib o v).states := by
  cases v with
  | enter attrs i => exact h.enter hitems hv
  | text text i => exact h.text hv
  | collect el i k => exact h.collect hw hitems hv
  | leave el i => exact h.leave hw hitems hv

end Tidy

end Xml2Var
end Nkit
