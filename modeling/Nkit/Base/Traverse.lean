import Mathlib.Data.List.Forall2
import Mathlib.Tactic.Common

/-! Traversals that may stop early succeed exactly when every element does. -/

namespace Traverse

variable {α β ε : Type*}

theorem mapM_some_iff {f : α → Option β} {as : List α} {bs : List β} :
    as.mapM f = some bs ↔ List.Forall₂ (fun a b => f a = some b) as bs := by
  induction as generalizing bs with
  | nil => cases bs <;> simp
  | cons a as ih =>
    rw [List.mapM_cons]
    cases ha : f a with
    | none => cases bs <;> simp [ha]
    | some b =>
      cases has : as.mapM f with
      | none =>
        have hnone : ∀ bs, ¬ List.Forall₂ (fun a b => f a = some b) as bs := by
          intro bs hbs
          rw [← ih, has] at hbs
          cases hbs
        cases bs <;> simp [hnone]
      | some bs' =>
        cases bs with
        | nil => simp
        | cons c bs => simp [ha, ← ih, has]

theorem mapM_ok_iff {f : α → Except ε β} {as : List α} {bs : List β} :
    as.mapM f = .ok bs ↔ List.Forall₂ (fun a b => f a = .ok b) as bs := by
  induction as generalizing bs with
  | nil => cases bs <;> simp [pure, Except.pure]
  | cons a as ih =>
    rw [List.mapM_cons]
    cases ha : f a with
    | error e => cases bs <;> simp [ha, bind, Except.bind]
    | ok b =>
      cases has : as.mapM f with
      | error e =>
        have hnone : ∀ bs, ¬ List.Forall₂ (fun a b => f a = .ok b) as bs := by
          intro bs hbs
          rw [← ih, has] at hbs
          cases hbs
        cases bs <;> simp [hnone, bind, Except.bind]
      | ok bs' =>
        cases bs with
        | nil => simp [bind, Except.bind, pure, Except.pure]
        | cons c bs => simp [ha, ← ih, has, bind, Except.bind, pure, Except.pure]

theorem exists_of_forall₂ {R : α → β → Prop} {as : List α} {bs : List β} (h : List.Forall₂ R as bs)
    {b : β} (hb : b ∈ bs) :
    ∃ a ∈ as, R a b := by
  induction h with
  | nil => cases hb
  | cons hab _ ih =>
    rcases List.mem_cons.mp hb with rfl | hb
    · exact ⟨_, List.mem_cons_self, hab⟩
    · obtain ⟨a, ha, hab⟩ := ih hb
      exact ⟨a, List.mem_cons_of_mem _ ha, hab⟩

theorem exists_of_mapM_ok {f : α → Except ε β} {as : List α} {bs : List β} (h : as.mapM f = .ok bs)
    {b : β} (hb : b ∈ bs) : ∃ a ∈ as, f a = .ok b := by
  rw [mapM_ok_iff] at h
  exact exists_of_forall₂ h hb

theorem exists_of_mapM_some {f : α → Option β} {as : List α} {bs : List β} (h : as.mapM f = some bs)
    {b : β} (hb : b ∈ bs) : ∃ a ∈ as, f a = some b := by
  rw [mapM_some_iff] at h
  exact exists_of_forall₂ h hb

theorem mapM_congr {f g : α → Option β} {as : List α} (h : ∀ a ∈ as, f a = g a) :
    as.mapM f = as.mapM g := by
  induction as with
  | nil => rfl
  | cons a as ih =>
    rw [List.mapM_cons, List.mapM_cons, h a List.mem_cons_self,
      ih fun a' h' => h a' (List.mem_cons_of_mem _ h')]

theorem mapM_of_forall {f : α → Option β} {P : β → Prop} {as : List α}
    (h : ∀ a ∈ as, ∃ b, f a = some b ∧ P b) : ∃ bs, as.mapM f = some bs ∧ ∀ b ∈ bs, P b := by
  induction as with
  | nil => exact ⟨[], rfl, by simp⟩
  | cons a as ih =>
    obtain ⟨b, hb, hP⟩ := h a List.mem_cons_self
    obtain ⟨bs, hbs, hPs⟩ := ih fun a' h' => h a' (List.mem_cons_of_mem _ h')
    refine ⟨b :: bs, ?_, by simpa [hP] using hPs⟩
    rw [List.mapM_cons, hb, hbs]
    rfl

theorem forall₂_mapM {f : α → Option β} {R : α → β → Prop} {as : List α}
    (h : ∀ a ∈ as, ∃ b, f a = some b ∧ R a b) :
    ∃ bs, as.mapM f = some bs ∧ List.Forall₂ R as bs := by
  induction as with
  | nil => exact ⟨[], rfl, .nil⟩
  | cons a as ih =>
    obtain ⟨b, hb, hab⟩ := h a List.mem_cons_self
    obtain ⟨bs, hbs, hrest⟩ := ih fun a' ha' => h a' (List.mem_cons_of_mem a ha')
    refine ⟨b :: bs, ?_, .cons hab hrest⟩
    rw [List.mapM_cons, hb, hbs]
    rfl

theorem forall₂_mapM_right {γ : Type*} {R : γ → α → Prop} {S : γ → β → Prop} {f : α → Option β}
    {cs : List γ} {as : List α} (h : List.Forall₂ R cs as)
    (hstep : ∀ c a, R c a → ∃ b, f a = some b ∧ S c b) :
    ∃ bs, as.mapM f = some bs ∧ List.Forall₂ S cs bs := by
  induction h with
  | nil => exact ⟨[], rfl, .nil⟩
  | cons hhead _ ih =>
    obtain ⟨b, hb, hS⟩ := hstep _ _ hhead
    obtain ⟨bs, hbs, hrest⟩ := ih
    exact ⟨b :: bs, by rw [List.mapM_cons, hb, hbs]; rfl, .cons hS hrest⟩

theorem exists_mapM_iff {f : α → Option β} {as : List α} :
    (∃ bs, as.mapM f = some bs) ↔ ∀ a ∈ as, ∃ b, f a = some b := by
  constructor
  · rintro ⟨bs, hbs⟩ a ha
    rw [mapM_some_iff] at hbs
    induction hbs with
    | nil => cases ha
    | @cons a' b' as' bs' hab _ ih =>
      rcases List.mem_cons.mp ha with rfl | ha
      · exact ⟨b', hab⟩
      · exact ih ha
  · intro h
    obtain ⟨bs, hbs, -⟩ := mapM_of_forall (P := fun _ => True) fun a ha => by
      obtain ⟨b, hb⟩ := h a ha
      exact ⟨b, hb, trivial⟩
    exact ⟨bs, hbs⟩

theorem exists_mapM_ok_iff {f : α → Except ε β} {P : β → Prop} {as : List α} :
    (∃ bs, as.mapM f = .ok bs ∧ ∀ b ∈ bs, P b) ↔ ∀ a ∈ as, ∃ b, f a = .ok b ∧ P b := by
  simp only [mapM_ok_iff]
  induction as with
  | nil => simp
  | cons a as ih =>
    rw [List.forall_mem_cons, ← ih]
    constructor
    · rintro ⟨bs, hbs, hP⟩
      cases hbs with
      | cons hab hrest =>
        rw [List.forall_mem_cons] at hP
        exact ⟨⟨_, hab, hP.1⟩, _, hrest, hP.2⟩
    · rintro ⟨⟨b, hab, hb⟩, bs, hbs, hP⟩
      exact ⟨b :: bs, .cons hab hbs, List.forall_mem_cons.mpr ⟨hb, hP⟩⟩

theorem mapM_mapM_of_forall {γ : Type*} {f : α → Option β} {g : β → Option γ} {P : γ → Prop}
    {as : List α} (h : ∀ a ∈ as, ∃ b, f a = some b ∧ ∃ c, g b = some c ∧ P c) :
    ∃ bs, as.mapM f = some bs ∧ ∃ cs, bs.mapM g = some cs ∧ ∀ c ∈ cs, P c := by
  obtain ⟨bs, hbs, hnext⟩ := mapM_of_forall h
  exact ⟨bs, hbs, mapM_of_forall hnext⟩

end Traverse
