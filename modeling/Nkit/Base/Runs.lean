import Mathlib.Tactic.Common

/-! Runs of a system whose steps return a result and may fail. -/

namespace Runs

variable {A B S T : Type*}

/-- Performs the actions in order and collects their results; `none` once a step fails. -/
def run (perform : A → S → Option (B × S)) : List A → S → Option (List B × S)
  | [], s => some ([], s)
  | a :: as, s => do
    let (b, s) ← perform a s
    let (bs, s) ← run perform as s
    some (b :: bs, s)

/-- Every step of the run meets `C` in the state it is taken from. -/
def AllSteps (perform : A → S → Option (B × S)) (C : A → S → Prop) : List A → S → Prop
  | [], _ => True
  | a :: as, s => C a s ∧ ∀ b s', perform a s = some (b, s') → AllSteps perform C as s'

/-- Every step of the run meets `C` in the state it leads to. -/
def AfterSteps (perform : A → S → Option (B × S)) (C : A → S → Prop) : List A → S → Prop
  | [], _ => True
  | a :: as, s => ∀ b s', perform a s = some (b, s') → C a s' ∧ AfterSteps perform C as s'

section
variable {perform : A → S → Option (B × S)}

theorem run_cons {a : A} {as : List A} {s s' s'' : S} {b : B} {bs : List B}
    (ha : perform a s = some (b, s')) (has : run perform as s' = some (bs, s'')) :
    run perform (a :: as) s = some (b :: bs, s'') := by
  rw [run, ha]
  simp only [Option.bind_eq_bind, Option.bind_some, has]

theorem run_cons_inv {a : A} {as : List A} {s s'' : S} {bs : List B}
    (h : run perform (a :: as) s = some (bs, s'')) :
    ∃ b bs' s', perform a s = some (b, s') ∧ run perform as s' = some (bs', s'') ∧
      bs = b :: bs' := by
  rw [run] at h
  cases ha : perform a s with
  | none => simp [ha] at h
  | some p =>
    obtain ⟨b, s'⟩ := p
    simp only [ha, Option.bind_eq_bind, Option.bind_some] at h
    cases has : run perform as s' with
    | none => simp [has] at h
    | some q =>
      obtain ⟨bs', s₁⟩ := q
      simp only [has, Option.bind_some, Option.some.injEq, Prod.mk.injEq] at h
      obtain ⟨rfl, rfl⟩ := h
      exact ⟨b, bs', s', rfl, has, rfl⟩

/-- An invariant that steps meeting `C` keep, and from which they never fail, holds at the
end of every run of such steps. -/
theorem run_of_allSteps {C : A → S → Prop} {P : S → Prop}
    (hstep : ∀ a s, P s → C a s → ∃ b s', perform a s = some (b, s') ∧ P s') :
    ∀ {as : List A} {s : S}, P s → AllSteps perform C as s →
      ∃ bs s', run perform as s = some (bs, s') ∧ P s' := by
  intro as
  induction as with
  | nil => exact fun {s} hs _ => ⟨[], s, rfl, hs⟩
  | cons a as ih =>
    intro s hs hall
    obtain ⟨hC, hrest⟩ := hall
    obtain ⟨b, s', ha, hs'⟩ := hstep a s hs hC
    obtain ⟨bs, s'', has, hs''⟩ := ih hs' (hrest b s' ha)
    exact ⟨b :: bs, s'', run_cons ha has, hs''⟩

/-- An invariant that every step meeting `C` keeps holds at the end of a run. -/
theorem invariant_of_run {C : A → S → Prop} {P : S → Prop}
    (hstep : ∀ a s b s', P s → C a s → perform a s = some (b, s') → P s') :
    ∀ {as : List A} {s s' : S} {bs : List B}, P s → AllSteps perform C as s →
      run perform as s = some (bs, s') → P s' := by
  intro as
  induction as with
  | nil =>
    intro s s' bs hs _ hrun
    cases hrun
    exact hs
  | cons a as ih =>
    intro s s' bs hs hall hrun
    obtain ⟨b, bs', s₁, ha, has, -⟩ := run_cons_inv hrun
    exact ih (hstep a s b s₁ hs hall.1 ha) (hall.2 b s₁ ha) has

theorem AllSteps.cons {C : A → S → Prop} {a : A} {as : List A} {s s' : S} {b : B}
    (hC : C a s) (ha : perform a s = some (b, s')) (has : AllSteps perform C as s') :
    AllSteps perform C (a :: as) s := by
  refine ⟨hC, fun b' s'' h => ?_⟩
  rw [ha] at h
  cases h
  exact has

theorem AllSteps.and {C D : A → S → Prop} {as : List A} {s : S} (hC : AllSteps perform C as s)
    (hD : AllSteps perform D as s) : AllSteps perform (fun a s => C a s ∧ D a s) as s := by
  induction as generalizing s with
  | nil => trivial
  | cons a as ih =>
    exact ⟨⟨hC.1, hD.1⟩, fun b s' ha => ih (hC.2 b s' ha) (hD.2 b s' ha)⟩

theorem allSteps_of_forall {C : A → Prop} :
    ∀ {as : List A} {s : S}, (∀ a ∈ as, C a) → AllSteps perform (fun a _ => C a) as s := by
  intro as
  induction as with
  | nil => exact fun _ => trivial
  | cons a as ih =>
    intro s h
    exact ⟨h a List.mem_cons_self, fun _ _ _ => ih fun a' h' => h a' (List.mem_cons_of_mem _ h')⟩

/-- Two systems that match each other's steps meeting `C`, with the same results, match
each other's runs. -/
theorem simulate_run {perform' : A → T → Option (B × T)} {C : A → S → Prop} {R : S → T → Prop}
    (hsim : ∀ a s t, R s t → C a s →
      ∃ b s' t', perform a s = some (b, s') ∧ perform' a t = some (b, t') ∧ R s' t') :
    ∀ {as : List A} {s : S} {t : T}, R s t → AllSteps perform C as s →
      ∃ bs s' t', run perform as s = some (bs, s') ∧ run perform' as t = some (bs, t') ∧
        R s' t' := by
  intro as
  induction as with
  | nil => exact fun {s t} hR _ => ⟨[], s, t, rfl, rfl, hR⟩
  | cons a as ih =>
    intro s t hR hall
    obtain ⟨b, s₁, t₁, hs, ht, hR₁⟩ := hsim a s t hR hall.1
    obtain ⟨bs, s', t', hs', ht', hR'⟩ := ih hR₁ (hall.2 b s₁ hs)
    exact ⟨b :: bs, s', t', run_cons hs hs', run_cons ht ht', hR'⟩

end

section
variable {A' B' : Type*}

theorem rel_bind {R : A → A' → Prop} {Q : B → B' → Prop} {x : Option A} {y : Option A'}
    (h : Option.Rel R x y) {f : A → Option B} {g : A' → Option B'}
    (hfg : ∀ a b, R a b → Option.Rel Q (f a) (g b)) :
    Option.Rel Q (x.bind f) (y.bind g) := by
  cases h with
  | none => exact .none
  | some hab => exact hfg _ _ hab

theorem rel_foldlM {E : A → A' → Prop} {R : S → T → Prop} {f : S → A → Option S}
    {g : T → A' → Option T} (hstep : ∀ s t a b, R s t → E a b → Option.Rel R (f s a) (g t b))
    {as : List A} {bs : List A'} (has : List.Forall₂ E as bs) {s : S} {t : T} (hst : R s t) :
    Option.Rel R (as.foldlM f s) (bs.foldlM g t) := by
  induction has generalizing s t with
  | nil => exact .some hst
  | cons hab _ ih =>
    rw [List.foldlM_cons, List.foldlM_cons]
    exact rel_bind (hstep s t _ _ hst hab) fun s' t' hst' => ih hst'

end

end Runs
