import Nkit.Getter.Options

/-! What the errors of a getter say about the value it was made for. -/

namespace Nkit
open OrderedMap Collect

section
variable (vars : Variables) (root : DynTree) (location : Bytes)

/-- What the value has at the path that is written so. -/
def ValueAt (text : Bytes) (v : DynTree) : Prop :=
  ∃ p : DynamicPath, p.Named ∧ p.print vars = text ∧ p.find vars root = some v

/-- An error that is so. A string is not found either where there is a value that is no string and
counts as false. -/
inductive ErrorHolds : Bytes → Prop where
  | notFound (p : DynamicPath) (hp : p.Named)
      (h : ∀ v, ValueAt vars root (p.print vars) v → v.isString = false ∧ v.toBool = false) :
      ErrorHolds (DynamicGetter.couldNotFind vars p location)
  | noList (p : DynamicPath) (hp : p.Named)
      (h : ∀ items, ¬ValueAt vars root (p.print vars) (.list items)) :
      ErrorHolds (DynamicGetter.mustBe vars "LIST" p location)
  | noDict (p : DynamicPath) (hp : p.Named)
      (h : ∀ entries, ¬ValueAt vars root (p.print vars) (.dict entries)) :
      ErrorHolds (DynamicGetter.mustBe vars "DICT" p location)
  | wrongPath (p : DynamicPath) (hp : p.Named) (path : Bytes)
      (h : (DynamicPath.create 46 path []).ok = false) :
      ErrorHolds
        (DynamicGetter.wrongPath vars (p.append (.create 46 path []))
          (DynamicPath.create 46 path []).error)

def AllHold (errors : Errors) : Prop := ∀ e ∈ errors, ErrorHolds vars root location e

structure DynamicGetter.Placed (g : DynamicGetter) : Prop where
  path : g.path = location
  delimiter : g.delimiter = 46
  named : g.dynamicPath.Named
  find : ∀ (p : DynamicPath) (v : DynTree), (g.dynamicPath.append p).find vars root = some v →
    p.find vars g.data = some v

def Create.Truthful {T : Type} (create : Create T) : Prop :=
  ∀ (g : DynamicGetter) (errors : Errors), g.Placed vars root location →
    AllHold vars root location errors →
    AllHold vars root location (create g errors).2

def Output.Truthful {A : Type} : Output A → Prop
  | .shared create | .sharedSequence create | .sharedMap _ _ create =>
    create.Truthful vars root location
  | .string | .scalar _ | .getter | .sequence _ | .set .. | .map .. => True

end

section
variable {vars : Variables} {lib : CLib} {root : DynTree} {location : Bytes} {g : DynamicGetter}
  {path : DynamicPath} {T A : Type} {errors : Errors}

theorem AllHold.nil : AllHold vars root location [] := nofun

theorem AllHold.cons {e : Bytes} (he : ErrorHolds vars root location e)
    (h : AllHold vars root location errors) :
    AllHold vars root location (e :: errors) := List.forall_mem_cons.mpr ⟨he, h⟩

theorem DynamicPath.find_append (p q : DynamicPath) (root : DynTree) :
    (p.append q).find vars root = (p.find vars root).bind (q.find vars) := List.foldlM_append ..

theorem DynamicPath.Named.append {p q : DynamicPath} (hp : p.Named) (hq : q.Named) :
    (p.append q).Named :=
  ⟨hp.delimiter, fun item hitem => (List.mem_append.mp hitem).elim (hp.items item) (hq.items item)⟩

theorem valueAt_iff {p : DynamicPath} (hp : p.Named) {v : DynTree} :
    ValueAt vars root (p.print vars) v ↔ p.find vars root = some v := by
  constructor
  · rintro ⟨q, hq, hprint, hfind⟩
    rwa [DynamicPath.find, ← hq.eq_of_print hp hprint]
  · exact fun hfind => ⟨p, hp, rfl, hfind⟩

theorem SubPath.named {subPath : SubPath} (h : subPath.rejected 46 = false) :
    (subPath.toPath 46).Named := by
  cases subPath with
  | text path => exact DynamicPath.create_named (by simpa [SubPath.rejected] using h)
  | index i =>
    rw [toPath_index isDelimiter_dot]
    exact ⟨rfl, fun item hitem => List.mem_singleton.mp hitem ▸ trivial⟩

namespace DynamicGetter

theorem Placed.below (h : g.Placed vars root location) {path : DynamicPath} (hpath : path.Named)
    {data : DynTree} (hdata : ∀ v, path.find vars g.data = some v → v = data) :
    (g.below path data).Placed vars root location := by
  refine ⟨h.path, h.delimiter, h.named.append hpath, fun p v hv => ?_⟩
  have happend : ((g.below path data).dynamicPath.append p).pathItems =
      (g.dynamicPath.append (path.append p)).pathItems :=
    List.append_assoc ..
  have hfind : (g.dynamicPath.append (path.append p)).find vars root = some v := by
    rw [← hv, DynamicPath.find, DynamicPath.find, happend]
  have hinside := h.find _ _ hfind
  rw [DynamicPath.find_append] at hinside
  obtain ⟨w, hw, hp⟩ := Option.bind_eq_some_iff.mp hinside
  rw [hdata w hw] at hp
  exact hp

theorem Placed.notFound (h : g.Placed vars root location) (hnamed : path.Named)
    (hpath : ∀ v, path.find vars g.data = some v → v.isString = false ∧ v.toBool = false) :
    ErrorHolds vars root location (couldNotFind vars (g.dynamicPath.append path) g.path) := by
  rw [h.path]
  have hall := h.named.append hnamed
  exact .notFound _ hall fun v hv => hpath v (h.find path v ((valueAt_iff hall).mp hv))

theorem Placed.noList (h : g.Placed vars root location) (hnamed : path.Named)
    (hpath : ∀ items, path.find vars g.data ≠ some (.list items)) :
    ErrorHolds vars root location (mustBe vars "LIST" (g.dynamicPath.append path) g.path) := by
  rw [h.path]
  have hall := h.named.append hnamed
  exact .noList _ hall fun items hv => hpath items (h.find path _ ((valueAt_iff hall).mp hv))

theorem Placed.noDict (h : g.Placed vars root location) (hnamed : path.Named)
    (hpath : ∀ entries, path.find vars g.data ≠ some (.dict entries)) :
    ErrorHolds vars root location (mustBe vars "DICT" (g.dynamicPath.append path) g.path) := by
  rw [h.path]
  have hall := h.named.append hnamed
  exact .noDict _ hall fun entries hv => hpath entries (h.find path _ ((valueAt_iff hall).mp hv))

theorem Placed.sub (h : g.Placed vars root location) (hnamed : path.Named)
    (herrors : AllHold vars root location errors) :
    (g.sub vars path errors).1.Placed vars root location ∧
      AllHold vars root location (g.sub vars path errors).2 ∧
      ∀ v, path.find vars g.data = some v → v = (g.sub vars path errors).1.data := by
  cases hfind : path.find vars g.data with
  | some data =>
    rw [sub_found hfind]
    exact ⟨h.below hnamed fun v hv => Option.some.inj (hv.symm.trans hfind), herrors,
      fun v hv => (Option.some.inj hv).symm⟩
  | none =>
    rw [sub_missing hfind]
    have hnone : ∀ v, path.find vars g.data = some v → False := fun v hv => by
      cases hfind.symm.trans hv
    exact ⟨h.below hnamed fun v hv => (hnone v hv).elim,
      herrors.cons (h.notFound hnamed fun v hv => (hnone v hv).elim), nofun⟩

theorem checked_holds {subPath : SubPath} {out : A} {get : DynamicPath → A → Errors → A × Errors}
    (h : g.Placed vars root location) (herrors : AllHold vars root location errors)
    (hget : ∀ path out, path.Named → AllHold vars root location (get path out []).2) :
    AllHold vars root location (g.checked vars subPath out errors get).2 := by
  rw [checked, h.delimiter]
  split_ifs with hne hrejected
  · exact herrors
  · cases subPath with
    | text path =>
      exact herrors.cons (.wrongPath _ h.named _ (by simpa [SubPath.rejected] using hrejected))
    | index i => cases hrejected
  · rw [not_not.mp hne]
    exact hget _ _ (SubPath.named (Bool.eq_false_iff.mpr hrejected))

theorem getShared_holds {create : Create T} (hcreate : create.Truthful vars root location)
    (h : g.Placed vars root location) (hnamed : path.Named) (out : Option T)
    (herrors : AllHold vars root location errors) :
    AllHold vars root location (g.getShared vars create path out errors).2 := by
  obtain ⟨hsub, hall, -⟩ := h.sub hnamed herrors
  rw [getShared]
  split
  · rename_i subLoader heq
    rw [heq] at hsub
    have hcreated := hcreate subLoader [] hsub .nil
    split
    · exact .nil
    · rename_i hresult
      rwa [hresult] at hcreated
  · rename_i heq
    rwa [heq] at hall

theorem getElement_holds {create : Create T} (hcreate : create.Truthful vars root location)
    (h : g.Placed vars root location) (subPath : SubPath)
    (herrors : AllHold vars root location errors) :
    AllHold vars root location (g.getElement vars create subPath errors).2 :=
  checked_holds h herrors fun _ out hnamed => getShared_holds hcreate h hnamed out .nil

theorem getPath_holds (lib : CLib) {output : Output A}
    (houtput : output.Truthful vars root location) (h : g.Placed vars root location)
    (hnamed : path.Named) (out : A) :
    AllHold vars root location (g.getPath vars lib output path out []).2 := by
  obtain ⟨hsub, hall, hdata⟩ := h.sub hnamed .nil
  unfold getPath
  cases output with
  | string =>
    simp only [getSubString]
    cases hfind : path.find vars g.data with
    | none => exact AllHold.nil.cons (h.notFound hnamed fun v hv => by cases hfind.symm.trans hv)
    | some v =>
      by_cases hempty : (!v.isString && !v.toBool) = true
      · simp only [if_pos hempty]
        refine AllHold.nil.cons (h.notFound hnamed fun w hw => ?_)
        cases hfind.symm.trans hw
        simpa using hempty
      · simp only [if_neg hempty]
        exact .nil
  | scalar convert =>
    simp only [getSubScalar]
    cases hfind : path.find vars g.data with
    | none => exact AllHold.nil.cons (h.notFound hnamed fun v hv => by cases hfind.symm.trans hv)
    | some v => exact .nil
  | getter =>
    cases hfind : path.find vars g.data with
    | none =>
      have hnotFound :
          ErrorHolds vars root location (couldNotFind vars (g.dynamicPath.append path) g.path) :=
        h.notFound hnamed fun v hv => by cases hfind.symm.trans hv
      simp only [sub_missing hfind]
      exact (AllHold.nil.cons hnotFound).cons hnotFound
    | some v =>
      simp only [sub_found hfind]
      exact .nil
  | sequence | set =>
    dsimp only
    split
    · exact hall
    · rename_i hno
      exact hall.cons (h.noList hnamed fun items hv => hno items (hdata _ hv).symm)
  | shared create => exact getShared_holds houtput h hnamed out .nil
  | sharedSequence create =>
    dsimp only
    split
    · exact collect_keeps (fun i errors herrors => getElement_holds houtput hsub (.index i) herrors)
        hall []
    · rename_i hno
      exact hall.cons (h.noList hnamed fun items hv => hno items (hdata _ hv).symm)
  | sharedMap lt readKey create =>
    dsimp only
    split
    · exact collect_keeps (fun pair errors herrors => getElement_holds houtput hsub _ herrors) hall
        []
    · rename_i hno
      exact hall.cons (h.noDict hnamed fun entries hv => hno entries (hdata _ hv).symm)
  | map lt readKey read =>
    dsimp only
    split
    · exact hall
    · rename_i hno
      exact hall.cons (h.noDict hnamed fun entries hv => hno entries (hdata _ hv).symm)

theorem getOption_holds {default : Option A} {initial : A} {option : Bytes}
    {get : DynamicPath → A → Errors → A × Errors} (h : g.Placed vars root location)
    (herrors : AllHold vars root location errors)
    (hget : ∀ path out, path.Named → AllHold vars root location (get path out []).2) :
    AllHold vars root location (g.getOption vars default initial option get errors).2 := by
  cases default with
  | none => exact checked_holds h herrors hget
  | some d =>
    refine checked_holds h herrors fun path out _ => ?_
    split <;> exact .nil

end DynamicGetter

theorem created_errors {result : T × Errors} : (created result).2 = result.2 := by
  obtain ⟨object, errors⟩ := result
  cases errors <;> rfl

theorem created_none_iff {result : T × Errors} :
    (created result).1 = none ↔ (created result).2 ≠ [] := by
  obtain ⟨object, errors⟩ := result
  cases errors <;> simp [created]

mutual

theorem OptionType.getPath_truthful (lib : CLib) {A : Type} (type : OptionType A)
    (g : DynamicGetter) (h : g.Placed vars root location) {path : DynamicPath} (hnamed : path.Named)
    (out : A) :
    AllHold vars root location (type.getPath vars lib g path out []).2 := by
  match A, type, out with
  | _, .scalar type, out =>
    refine DynamicGetter.getPath_holds lib ?_ h hnamed out
    rcases type with (_ | _) | _ | _ <;> trivial
  | _, .sequence _, out | _, .set _, out | _, .map _, out =>
    refine DynamicGetter.getPath_holds lib ?_ h hnamed out
    trivial
  | _, .shared options, out | _, .sharedSequence options, out | _, .sharedMap options, out =>
    refine DynamicGetter.getPath_holds lib ?_ h hnamed out
    intro g errors h herrors
    rw [created_errors]
    exact options.init_truthful lib g h errors herrors
termination_by structural type

theorem OptionsClass.init_truthful (lib : CLib) {T : Type} (options : OptionsClass T)
    (g : DynamicGetter) (h : g.Placed vars root location) (errors : Errors)
    (herrors : AllHold vars root location errors) :
    AllHold vars root location (options.init vars lib g errors).2 := by
  match T, options with
  | _, .begin => exact herrors
  | _, .option base type option default =>
    exact base.init_truthful lib g h _
      (DynamicGetter.getOption_holds h herrors fun _ out hnamed => type.getPath_truthful lib g h
        hnamed out)
termination_by structural options

end

end

theorem DynamicGetter.ofData_placed (vars : Variables) (data : DynTree) :
    (ofData data).Placed vars data (ascii "-") :=
  ⟨rfl, rfl, ⟨rfl, fun _ hitem => absurd hitem List.not_mem_nil⟩, fun _ _ hv => hv⟩

/-- No object is created exactly if there are errors, and each of them is so of the value. -/
theorem options_errors_hold (vars : Variables) (lib : CLib) {T : Type} (options : OptionsClass T)
    (data : DynTree) :
    ((options.create vars lib (.ofData data) []).1 = none ↔
      (options.create vars lib (.ofData data) []).2 ≠ []) ∧
      AllHold vars data (ascii "-") (options.create vars lib (.ofData data) []).2 := by
  refine ⟨created_none_iff, ?_⟩
  rw [OptionsClass.create, created_errors]
  exact options.init_truthful lib _ (DynamicGetter.ofData_placed vars data) [] .nil

end Nkit
