import Nkit.Getter.DynamicGetter

/-! Which outputs of `Get` are as they were when it fails. -/

namespace Nkit
open OrderedMap Collect

section
variable (vars : Variables)

def DynamicGetter.listElement {T : Type} (create : Create T) (g : DynamicGetter)
    (subPath : DynamicPath) (items : List DynTree) (counter : ℕ) : Errors → Option T × Errors :=
  (g.below subPath (.list items)).getElement vars create (.index counter)

def DynamicGetter.dictElement {T : Type} (create : Create T) (g : DynamicGetter)
    (subPath : DynamicPath) (entries : List (Bytes × DynTree)) (pair : Bytes × DynTree) :
    Errors → Option T × Errors :=
  (g.below subPath (.dict entries)).getElement vars create (.text (g.delimiter :: pair.1))

def objectMap {K T : Type} (lt : K → K → Bool) (readKey : Bytes → K)
    (entries : List (Bytes × DynTree)) (objs : List (Option T)) :
    List (K × Option T) :=
  fill (fun tmp pair o => update lt (readKey pair.1) none (fun _ => o) tmp) [] entries objs

/-- The calls whose failure leaves the output alone: an output that the failing call would clear is
empty already, and one that it would fill with what was built so far has just that in it. -/
def Output.Kept {A : Type} (output : Output A) (g : DynamicGetter) (subPath : SubPath) (out : A) :
    Prop :=
  let path := subPath.toPath g.delimiter
  subPath.rejected g.delimiter = true ∨
    match output with
    | .string =>
      out = [] ∨ ∃ v, path.find vars g.data = some v ∧ (v.isString = true ∨ v.toBool = true)
    | .map .. => out = [] ∨ ∃ entries, path.find vars g.data = some (.dict entries)
    | .sharedSequence create => ∀ items, path.find vars g.data = some (.list items) → ∀ objs,
        Leaves (g.listElement vars create path items) (List.range items.length) objs → objs = out
    | .sharedMap lt readKey create =>
      ∀ entries, path.find vars g.data = some (.dict entries) → ∀ objs,
        Leaves (g.dictElement vars create path entries) entries objs →
          objectMap lt readKey entries objs = out
    | .scalar _ | .getter | .sequence _ | .set .. | .shared _ => True

variable {vars} {lib : CLib} {g : DynamicGetter} {subPath : SubPath} {A : Type} {output : Output A}
  {out : A}

namespace DynamicGetter

theorem get_of_rejected (h : subPath.rejected g.delimiter = true) :
    (g.get vars lib output subPath out []).1 = out := by
  rw [get, checked, if_neg (not_not.mpr rfl), if_pos h]

theorem get_of_accepted (h : ¬subPath.rejected g.delimiter = true) :
    g.get vars lib output subPath out [] = g.getPath vars lib output (subPath.toPath g.delimiter)
      out [] := by
  rw [get, checked, if_neg (not_not.mpr rfl), if_neg h]

variable {path : DynamicPath}

theorem sub_found {data : DynTree} (h : path.find vars g.data = some data) (errors : Errors) :
    g.sub vars path errors = (g.below path data, errors) := by
  rw [sub, h]

theorem sub_missing (h : path.find vars g.data = none) (errors : Errors) :
    g.sub vars path errors =
      (g.below path .undef, couldNotFind vars (g.dynamicPath.append path) g.path :: errors) := by
  rw [sub, h]

theorem getShared_keeps {T : Type} (create : Create T) (out : Option T) :
    (g.getShared vars create path out []).2 ≠ [] → (g.getShared vars create path out []).1 =
      out := by
  unfold getShared
  split
  · split
    · exact fun h => absurd rfl h
    · exact fun _ => rfl
  · exact fun _ => rfl

end DynamicGetter

theorem collect_keeps_iff {B C E : Type} {A : Type} {step : A → List E → B × List E}
    {put : C → A → B → C} {as : List A} {c out : C} :
    ((collect step put as c []).2 ≠ [] → (collect step put as c []).1 = out) ↔
      ∀ bs, Leaves step as bs → fill put c as bs = out := by
  constructor
  · rintro h bs ⟨before, a, after, rfl, hbuilds, ha⟩
    rw [collect_of_leaves hbuilds ha] at h
    rw [fill_append hbuilds.length_eq]
    exact h ha
  · intro h herrors
    obtain ⟨bs, hbuilds⟩ | ⟨bs, hleaves⟩ := builds_or_leaves step as
    · exact absurd (by rw [collect_of_builds hbuilds]) herrors
    · have hfill := h bs hleaves
      obtain ⟨before, a, after, rfl, hbuilds, ha⟩ := hleaves
      rw [collect_of_leaves hbuilds ha]
      rwa [fill_append hbuilds.length_eq] at hfill

/-- A call that fails and leaves `c`. -/
theorem failed_iff {E : Type} {c out : A} {e : E} {errors : List E} {Q : Prop} (hQ : ¬Q) :
    ((c, e :: errors).2 ≠ [] → (c, e :: errors).1 = out) ↔ out = c ∨ Q :=
  ⟨fun h => .inl (h (List.cons_ne_nil e errors)).symm, fun h _ => (h.resolve_right hQ).symm⟩

/-- `Get` leaves its output alone, if it fails, in exactly these calls. -/
theorem output_kept_iff (vars : Variables) (lib : CLib) {A : Type} (output : Output A)
    (g : DynamicGetter) (subPath : SubPath) (out : A) :
    ((g.get vars lib output subPath out []).2 ≠ [] → (g.get vars lib output subPath out []).1 =
      out) ↔
      output.Kept vars g subPath out := by
  by_cases hrejected : subPath.rejected g.delimiter = true
  · exact iff_of_true (fun _ => DynamicGetter.get_of_rejected hrejected) (.inl hrejected)
  rw [DynamicGetter.get_of_accepted hrejected]
  unfold Output.Kept
  rw [or_iff_right hrejected]
  generalize subPath.toPath g.delimiter = path
  cases output with
  | string =>
    -- a string that is not found, or found without a value, comes back empty
    dsimp only [DynamicGetter.getPath, DynamicGetter.getSubString]
    cases path.find vars g.data with
    | none => exact failed_iff (by simp)
    | some v =>
      by_cases hempty : (!v.isString && !v.toBool) = true
      · dsimp only
        rw [if_pos hempty]
        exact failed_iff (by simpa using hempty)
      · dsimp only
        rw [if_neg hempty]
        exact iff_of_true (fun h => absurd rfl h)
          (.inr ⟨v, rfl, by simpa [or_iff_not_imp_left] using hempty⟩)
  | scalar convert =>
    refine iff_of_true ?_ trivial
    dsimp only [DynamicGetter.getPath, DynamicGetter.getSubScalar]
    cases path.find vars g.data with
    | none => exact fun _ => rfl
    | some v => exact fun h => absurd rfl h
  | getter =>
    refine iff_of_true ?_ trivial
    dsimp only [DynamicGetter.getPath]
    split
    · exact fun h => absurd rfl h
    · exact fun _ => rfl
  | sequence | set =>
    refine iff_of_true ?_ trivial
    dsimp only [DynamicGetter.getPath]
    cases hfind : path.find vars g.data with
    | none =>
      rw [DynamicGetter.sub_missing hfind]
      exact fun _ => rfl
    | some v =>
      rw [DynamicGetter.sub_found hfind]
      cases v with
      | list items => exact fun h => absurd rfl h
      | _ => exact fun _ => rfl
  | shared create => exact iff_of_true (DynamicGetter.getShared_keeps create out) trivial
  | sharedSequence create =>
    dsimp only [DynamicGetter.getPath]
    cases hfind : path.find vars g.data with
    | none =>
      rw [DynamicGetter.sub_missing hfind]
      exact iff_of_true (fun _ => rfl) nofun
    | some v =>
      rw [DynamicGetter.sub_found hfind]
      cases v with
      | list items =>
        -- the objects built before the failure are what the caller gets
        have hfill : ∀ objs, Leaves (g.listElement vars create path items) (List.range items.length)
          objs →
            fill (fun tmp _ o => tmp ++ [o]) [] (List.range items.length) objs = objs := by
          rintro objs ⟨before, a, after, hrange, hbuilds, -⟩
          rw [hrange, fill_append hbuilds.length_eq, fill_snoc _ _ hbuilds.length_eq,
            List.nil_append]
        refine collect_keeps_iff.trans ⟨?_, ?_⟩
        · rintro h _ ⟨⟩ objs hleaves
          exact (hfill objs hleaves).symm.trans (h objs hleaves)
        · exact fun h objs hleaves => (hfill objs hleaves).trans (h items rfl objs hleaves)
      | _ => exact iff_of_true (fun _ => rfl) nofun
  | sharedMap lt readKey create =>
    dsimp only [DynamicGetter.getPath]
    cases hfind : path.find vars g.data with
    | none =>
      rw [DynamicGetter.sub_missing hfind]
      exact iff_of_true (fun _ => rfl) nofun
    | some v =>
      rw [DynamicGetter.sub_found hfind]
      cases v with
      | dict entries =>
        refine collect_keeps_iff.trans ⟨?_, ?_⟩
        · rintro h _ ⟨⟩
          exact h
        · exact fun h => h entries rfl
      | _ => exact iff_of_true (fun _ => rfl) nofun
  | map lt readKey read =>
    dsimp only [DynamicGetter.getPath]
    cases hfind : path.find vars g.data with
    | none =>
      rw [DynamicGetter.sub_missing hfind]
      exact failed_iff nofun
    | some v =>
      rw [DynamicGetter.sub_found hfind]
      cases v with
      | dict entries => exact iff_of_true (fun h => absurd rfl h) (.inr ⟨entries, rfl⟩)
      | _ => exact failed_iff nofun

end

/-- A string that is not found comes back empty. -/
theorem missing_string_cleared :
    ¬∃ (vars : Variables) (lib : CLib),
      ∀ {A : Type} (output : Output A) (g : DynamicGetter) (subPath : SubPath) (out : A),
      (g.get vars lib output subPath out []).2 ≠ [] → (g.get vars lib output subPath out []).1 =
        out := by
  rintro ⟨vars, lib, h⟩
  let g : DynamicGetter := ⟨ascii "-", 46, ⟨46, [], []⟩, .dict [(ascii "a", .plain .integer 1)]⟩
  have hget : g.get vars lib .string (.text (ascii ".b")) (ascii "x") [] =
      ([], [DynamicGetter.couldNotFind vars ⟨46, [.key (ascii "b")], []⟩ (ascii "-")]) := by
    rw [DynamicGetter.get_of_accepted (by decide)]
    have hpath : SubPath.toPath 46 (.text (ascii ".b")) = ⟨46, [.key (ascii "b")], []⟩ := by decide
    rw [hpath]
    rfl
  have hkept := h .string g (.text (ascii ".b")) (ascii "x")
  rw [hget] at hkept
  cases hkept (List.cons_ne_nil _ _)

end Nkit
