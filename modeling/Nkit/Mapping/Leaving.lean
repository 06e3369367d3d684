import Nkit.Mapping.Tallied

/-! Target items that are left: what `OnExit` does to all targets, and that they hold what the tally
says after it. -/

namespace Nkit
namespace Xml2Var
open OrderedMap

namespace TargetGroup
variable {lib : ScalarLib} {o : StructOptions} {g : TargetGroup Bytes} {el : Bytes} {i k : ℕ}

/-- What a target has after it collected child `k`. -/
def collected (target kTarget : Target) (el : Bytes) (k : ℕ) (s : TargetState) (content : Content) :
    Content :=
  match target with
  | .object _ =>
    if s.mustUseDefaultValue kTarget then content.setKey (defaultKey el s) (s.read k kTarget)
      else content
  | .list _ => content.append (s.read k kTarget)
  | .scalar _ => content

variable (lib o el) in
theorem collect_states (hne : k ≠ i) (hscalar : (g.items i).target.isScalar = false) :
    (g.move lib o (.collect el i k)).states = Function.update (Function.update g.states i
      { g.states i with
        current :=
          collected (g.items i).target (g.items k).target el k (g.states k) (g.states i).current })
      k ((g.states k).clear (g.items k).target) := by
  cases ht : (g.items i).target with
  | scalar t => rw [ht] at hscalar; cases hscalar
  | list its => exact collect_list_states ht hne
  | object its =>
    rw [collect_object_states ht hne, collected, mustUseDefaultValue, var]
    split_ifs <;> rfl

variable (lib o el) in
/-- The loop of `OnExit`: every child is cleared. -/
theorem collects_states {ks : List ℕ} (hnodup : ks.Nodup) (hne : ∀ k ∈ ks, k ≠ i)
    (hscalar : (g.items i).target.isScalar = false) (j : ℕ) :
    ((ks.map (.collect el i)).foldl (fun g v => g.move lib o v) g).states j =
      if j ∈ ks then (g.states j).clear (g.items j).target
      else if j = i then
        { g.states i with
          current :=
            ks.foldl
            (fun content k => collected (g.items i).target (g.items k).target el k (g.states k)
              content)
            (g.states i).current }
      else g.states j := by
  induction ks generalizing g with
  | nil =>
    by_cases hj : j = i
    · subst hj
      simp
    · simp [hj]
  | cons k ks ih =>
    obtain ⟨hknot, hnodup⟩ := List.nodup_cons.mp hnodup
    obtain ⟨hki, hne⟩ := List.forall_mem_cons.mp hne
    have hitems : (g.move lib o (.collect el i k)).items = g.items := (move_sameItems _).1
    have hstates := collect_states lib o el hki hscalar
    rw [List.map_cons, List.foldl_cons, ih hnodup hne (hitems ▸ hscalar), hitems, hstates]
    set s₁ : TargetState := { g.states i with
      current :=
        collected (g.items i).target (g.items k).target el k (g.states k) (g.states i).current }
          with hs₁
    set st₁ :=
      Function.update (Function.update g.states i s₁) k ((g.states k).clear (g.items k).target)
        with hst₁
    have hstk : st₁ k = (g.states k).clear (g.items k).target := Function.update_self ..
    have hsti : st₁ i = s₁ := by rw [hst₁, Function.update_of_ne hki.symm, Function.update_self]
    have hother : ∀ j, j ≠ i → j ≠ k → st₁ j = g.states j := by
      intro j hji hjk
      rw [hst₁, Function.update_of_ne hjk, Function.update_of_ne hji]
    by_cases hjk : j = k
    · rw [if_neg (hjk ▸ hknot), if_neg (hjk ▸ hki), if_pos (hjk ▸ List.mem_cons_self), hjk, hstk]
    by_cases hjks : j ∈ ks
    · rw [if_pos hjks, if_pos (List.mem_cons_of_mem k hjks), hother j (hne j hjks) hjk]
    have hjks' : j ∉ k :: ks := fun hin => (List.mem_cons.mp hin).elim hjk hjks
    rw [if_neg hjks, if_neg hjks']
    by_cases hji : j = i
    · -- the other children are as they were
      have hfold : ∀ content : Content,
          ks.foldl (fun content k => collected (g.items i).target (g.items k).target el k (st₁ k)
            content) content =
            ks.foldl
              (fun content k => collected (g.items i).target (g.items k).target el k (g.states k)
                content) content := by
        refine fun content => List.foldl_ext _ _ _ fun content k' hk' => ?_
        rw [hother k' (hne k' hk') fun heq => hknot (heq ▸ hk')]
      rw [if_pos hji, if_pos hji, hfold, hsti, List.foldl_cons]
    · rw [if_neg hji, if_neg hji, hother j hji hjk]

/-- The states after `OnExit` of target item `i`. -/
structure Exited (lib : ScalarLib) (o : StructOptions) (I : ℕ → TargetItem Bytes) (el : Bytes)
    (i : ℕ)
    (st st' : ℕ → TargetState) : Prop where
  child : ∀ k ∈ (I i).target.children, st' k = (st k).clear (I k).target
  self : st' i = ({ st i with
    current := (I i).target.children.foldl
      (fun content k => collected (I i).target (I k).target el k (st k) content) (st i).current } :
        TargetState).converted
    lib o (I i).target
  parent : ∀ p, (I i).parentTarget = some p → st' p = if (st i).actualKeyName = [] then st p else
    { st p with current := (st p).current.setKey (exitKey el (st i)) ((st' i).read i (I i).target) }
  other : ∀ j, j ∉ (I i).target.children → j ≠ i → (I i).parentTarget ≠ some j → st' j = st j

variable (lib o el) in
theorem exited (hnodup : (g.items i).target.children.Nodup)
    (hne : ∀ k ∈ (g.items i).target.children, k ≠ i) (hself : (g.items i).parentTarget ≠ some i)
    (hparent : ∀ p, (g.items i).parentTarget = some p → p ∉ (g.items i).target.children) :
    Exited lib o g.items el i g.states (g.onExit lib o el i).states := by
  have hcollected :
    ∀ j, (((g.items i).target.children.map (.collect el i)).foldl (fun g v => g.move lib o v)
      g).states j =
      if j ∈ (g.items i).target.children then (g.states j).clear (g.items j).target
      else if j = i then
        { g.states i with
          current := (g.items i).target.children.foldl (fun content k =>
            collected (g.items i).target (g.items k).target el k (g.states k) content)
              (g.states i).current }
      else g.states j := by
    intro j
    cases ht : (g.items i).target with
    | scalar t =>
      by_cases hj : j = i
      · subst hj
        simp [Target.children]
      · simp [Target.children, hj]
    | object its =>
      rw [ht] at hnodup hne
      have h := collects_states lib o el hnodup hne (by rw [ht]; rfl) j
      rw [ht] at h
      exact h
    | list its =>
      rw [ht] at hnodup hne
      have h := collects_states lib o el hnodup hne (by rw [ht]; rfl) j
      rw [ht] at h
      exact h
  have hitems :
      (((g.items i).target.children.map (.collect el i)).foldl (fun g v => g.move lib o v)
        g).items = g.items :=
    (moves_sameItems _ g).1
  rw [onExit_eq, exitMoves, List.foldl_append, List.foldl_cons, List.foldl_nil]
  set g₁ := ((g.items i).target.children.map (.collect el i)).foldl (fun g v => g.move lib o v) g
    with hg₁
  have hinot : i ∉ (g.items i).target.children := fun hin => hne i hin rfl
  have hi := hcollected i
  rw [if_neg hinot, if_pos rfl] at hi
  have hkey : (g₁.states i).actualKeyName = (g.states i).actualKeyName := by rw [hi]
  have hleave := leave_states (g := g₁) lib o el (by rw [hitems]; exact hself)
  have hexit : exitKey el (g₁.states i) = exitKey el (g.states i) := by rw [exitKey, exitKey, hkey]
  rw [hitems, hkey, hexit, hi] at hleave
  set s := ({ g.states i with
    current := (g.items i).target.children.foldl (fun content k =>
      collected (g.items i).target (g.items k).target el k (g.states k) content)
        (g.states i).current } :
        TargetState).converted lib o (g.items i).target with hs
  rcases hleave with ⟨hnone, hst⟩ | ⟨p, hp, hne', hst⟩
  · rw [hst]
    have hstates : ∀ j, j ≠ i → Function.update g₁.states i s j = g₁.states j := fun j hj =>
      Function.update_of_ne hj ..
    refine ⟨fun k hk => ?_, Function.update_self .., fun p hp => ?_, fun j hj hji _ => ?_⟩
    · rw [hstates k (hne k hk), hcollected, if_pos hk]
    · have hpi : p ≠ i := fun heq => hself (heq ▸ hp)
      have hp' := hp
      rcases hnone with hnone | hnone
      · rw [hnone] at hp
        cases hp
      · rw [hstates p hpi, hcollected, if_neg (hparent p hp'), if_neg hpi, if_pos hnone]
    · rw [hstates j hji, hcollected, if_neg hj, if_neg hji]
  · rw [hst]
    have hpi : p ≠ i := fun heq => hself (heq ▸ hp)
    have hstp : g₁.states p = g.states p := by rw [hcollected, if_neg (hparent p hp), if_neg hpi]
    rw [hstp]
    set s₂ : TargetState := { g.states p with
      current := (g.states p).current.setKey (exitKey el (g.states i)) (s.read i (g.items i).target)
        } with hs₂
    have hstates : ∀ j, j ≠ i → j ≠ p → Function.update (Function.update g₁.states i s) p s₂ j =
        g₁.states j := by
      intro j hji hjp
      rw [Function.update_of_ne hjp, Function.update_of_ne hji]
    have hsti : Function.update (Function.update g₁.states i s) p s₂ i = s := by
      rw [Function.update_of_ne hpi.symm, Function.update_self]
    refine ⟨fun k hk => ?_, hsti, fun p' hp' => ?_, fun j hj hji hjp => ?_⟩
    · rw [hstates k (hne k hk) fun heq => hparent p hp (heq ▸ hk), hcollected, if_pos hk]
    · obtain rfl : p = p' := Option.some.inj (hp.symm.trans hp')
      rw [if_neg hne', hsti]
      exact Function.update_self ..
    · rw [hstates j hji fun heq => hjp (heq ▸ hp), hcollected, if_neg hj, if_neg hji]

end TargetGroup

def TargetState.fallback (target : Target) (s : TargetState) : Option DynTree :=
  match target with
  | .scalar t => if s.mustUseDefaultValue target then t.defaultValue else none
  | _ => none

theorem TargetState.converted_read (lib : ScalarLib) (o : StructOptions) (i : ℕ) {t : ScalarTarget}
    {s : TargetState} {text : Option Bytes} (hvalue : s.value = text.getD [])
    (hmust : s.mustUseDefaultValue (.scalar t) = (t.defaultValue.isSome && text.isNone)) :
    (s.converted lib o (.scalar t)).read i (.scalar t) = .value (t.eval lib o text) ∧
      (s.converted lib o (.scalar t)).value = [] := by
  rw [converted, hmust]
  cases hb : t.defaultValue.isSome && text.isNone with
  | true =>
    obtain ⟨hd, hnone⟩ := (Bool.and_eq_true _ _).mp hb
    obtain ⟨d, hd⟩ := Option.isSome_iff_exists.mp hd
    have hread : ({ s with value := [] } : TargetState).mustUseDefaultValue (.scalar t) = true :=
      hmust.trans hb
    refine ⟨?_, rfl⟩
    rw [if_pos rfl, read, hread, if_pos rfl, ScalarTarget.eval, if_pos hnone, hd]
    rfl
  | false =>
    refine ⟨?_, rfl⟩
    have hread : ({ s with
        var := t.type.convert lib o t.format (o.toOptions.trimmed s.value), value := [] } :
          TargetState).mustUseDefaultValue
        (.scalar t) = false := hmust.trans hb
    have hnone : (if text.isNone then t.defaultValue else none) = none := by
      cases htext : text.isNone with
      | true => simpa [htext] using hb
      | false => rfl
    rw [if_neg Bool.false_ne_true, read, hread, if_neg Bool.false_ne_true, ScalarTarget.eval, hnone,
      hvalue]

namespace Content.Shows
variable {R : Bytes → Var → DynTree → Prop} {content : Content} {I : ℕ → TargetItem Bytes}
  {st : ℕ → TargetState} {el : Bytes} {its ks : List ℕ}

theorem collected_list {vs : List DynTree} {f : ℕ → DynTree} (h : content.Shows R (.list vs))
    (hks : ∀ k ∈ ks, R [] ((st k).read k (I k).target) (f k)) :
    (ks.foldl (fun content k => TargetGroup.collected (.list its) (I k).target el k (st k) content)
      content).Shows R
      (.list (vs ++ ks.map f)) := by
  induction ks generalizing content vs with
  | nil =>
    rw [List.map_nil, List.append_nil]
    exact h
  | cons k ks ih =>
    obtain ⟨hk, hks⟩ := List.forall_mem_cons.mp hks
    rw [List.foldl_cons, List.map_cons, List.append_cons]
    exact ih (h.append hk) hks

variable (el its) in
theorem collected_object {d : List (Bytes × DynTree)} (h : content.Shows R (.dict d))
    (hs : Sorted bytesLt d) (hR : ∀ key t, R key (.value t) t)
    (hks : ∀ k ∈ ks, (st k).actualKeyName = (I k).keyName ∧ (I k).keyName ≠ star) :
    (ks.foldl (fun content k => TargetGroup.collected (.object its) (I k).target el k (st k)
      content) content).Shows R
      (.dict (overlay bytesLt (ks.map fun k => ((I k).keyName, (st k).fallback (I k).target))
        d)) := by
  induction ks generalizing content d with
  | nil => exact h
  | cons k ks ih =>
    obtain ⟨⟨hkey, hstar⟩, hks⟩ := List.forall_mem_cons.mp hks
    rw [List.foldl_cons, List.map_cons, overlay_cons]
    refine ih ?_ (put_sorted bytesLt_strictWeak hs _ _) hks
    have hdefault : TargetGroup.defaultKey el (st k) = (I k).keyName := by
      rw [TargetGroup.defaultKey, hkey, if_neg hstar]
    rw [TargetGroup.collected, hdefault]
    cases ht : (I k).target with
    | object => exact h
    | list => exact h
    | scalar t =>
      cases hmust : (st k).mustUseDefaultValue (.scalar t) with
      | false =>
        rw [if_neg Bool.false_ne_true, TargetState.fallback, hmust, if_neg Bool.false_ne_true]
        exact h
      | true =>
        have hsome : t.defaultValue.isSome = true := by
          rw [TargetState.mustUseDefaultValue, Bool.and_eq_true] at hmust
          exact hmust.1
        obtain ⟨v, hv⟩ := Option.isSome_iff_exists.mp hsome
        rw [if_pos rfl, TargetState.fallback, hmust, if_pos rfl, TargetState.read, hmust,
          if_pos rfl, hv]
        exact h.setKey hs (fun _ _ _ _ hvw => hvw) (hR _ _)

end Content.Shows

section
variable {c : Compiled} {m : Phase} {st st' : ℕ → TargetState} {T : Tally} {i k : ℕ}

theorem ItemTallied.read (hw : Wired c) (h : ItemTallied c m st T k) (hk : k ∈ c.order)
    (hp : (c.group.items k).parentTarget = some i) (hidle : k ∉ m.busy)
    (hleft : (∀ its, (c.group.items k).target ≠ .list its) → T.done k ≠ [])
    (hpast : ∀ j, (st j).past <+: (st' j).past)
    (hnew : (c.group.items k).target.isScalar = false →
      (st k).past ++ [(st k).current] <+: (st' k).past) :
    Frozen st' (c.depth i) ((st k).read k (c.group.items k).target)
      ((c.group.items k).target.item (T.done k)) := by
  cases ht : (c.group.items k).target with
  | list its => exact .renewed hw hk hp hpast (hnew (by rw [ht]; rfl)) (h.list its ht)
  | object its =>
    obtain ⟨v, hv⟩ :=
      Option.ne_none_iff_exists'.mp (mt List.getLast?_eq_none_iff.mp (hleft (by simp [ht])))
    show Frozen st' _ _ ((T.done k).getLast?.getD .undef)
    rw [hv]
    exact .renewed hw hk hp hpast (hnew (by rw [ht]; rfl)) (h.closed its ht hidle v hv)
  | scalar t =>
    obtain ⟨v, hv⟩ :=
      Option.ne_none_iff_exists'.mp (mt List.getLast?_eq_none_iff.mp (hleft (by simp [ht])))
    show Frozen st' _ _ ((T.done k).getLast?.getD .undef)
    rw [hv, (h.scalar t ht).last hidle v hv]
    exact .value _ _ _

theorem ItemTallied.fallback_or (h : ItemTallied c m st T k) (hidle : k ∉ m.busy) :
    ((st k).fallback (c.group.items k).target).or ((c.group.items k).target.seen (T.done k)) =
      (c.group.items k).target.shown (T.done k) := by
  cases ht : (c.group.items k).target with
  | list its => rfl
  | object its => rfl
  | scalar t =>
    obtain ⟨-, -, -, hunused, hlast⟩ := h.scalar t ht
    show (if (st k).mustUseDefaultValue (.scalar t) then t.defaultValue else none).or
      (T.done k).getLast? =
      (T.done k).getLast?.or t.defaultValue
    cases hv : (T.done k).getLast? with
    | none =>
      rw [hunused hidle (List.getLast?_eq_none_iff.mp hv), Option.none_or]
      cases t.defaultValue <;> rfl
    | some v =>
      have hread := hlast hidle v hv
      rw [TargetState.read] at hread
      cases hmust : (st k).mustUseDefaultValue (.scalar t) with
      | false => rfl
      | true =>
        have hsome : t.defaultValue.isSome = true := by
          rw [TargetState.mustUseDefaultValue, Bool.and_eq_true] at hmust
          exact hmust.1
        obtain ⟨d, hd⟩ := Option.isSome_iff_exists.mp hsome
        rw [hmust, if_pos rfl, hd] at hread
        obtain rfl : d = v := Var.value.inj hread
        rw [if_pos rfl, hd]

end

namespace Tally
variable {lib : ScalarLib} {o : StructOptions} {I : ℕ → TargetItem Bytes} {T : Tally} {el : Bytes}
  {i j : ℕ}

theorem done_child (h : j ∈ (I i).target.children) :
    (T.call lib o I (.exit el i)).done j = [] := if_pos h

theorem done_self (h : i ∉ (I i).target.children) :
    (T.call lib o I (.exit el i)).done i = T.done i ++ T.made lib o I i :=
      (if_neg h).trans (if_pos rfl)

theorem done_other (h : j ∉ (I i).target.children) (hji : j ≠ i) :
    (T.call lib o I (.exit el i)).done j = T.done j := (if_neg h).trans (if_neg hji)

end Tally

section
variable {c : Compiled} {m : Phase} {T : Tally} {lib : ScalarLib} {o : StructOptions} {el : Bytes}
  {i : ℕ}
variable {st st' : ℕ → TargetState}

inductive Relative (c : Compiled) (i j : ℕ) : Prop
  | child (h : j ∈ (c.group.items i).target.children)
  | self (h : j = i)
  | parent (hp : (c.group.items i).parentTarget = some j)
      (hchild : j ∉ (c.group.items i).target.children) (hne : j ≠ i)
  | other (hchild : j ∉ (c.group.items i).target.children) (hne : j ≠ i)
      (hp : (c.group.items i).parentTarget ≠ some j)

theorem relative (c : Compiled) (i j : ℕ) : Relative c i j := by
  by_cases hchild : j ∈ (c.group.items i).target.children
  · exact .child hchild
  by_cases hji : j = i
  · exact .self hji
  by_cases hp : (c.group.items i).parentTarget = some j
  · exact .parent hp hchild hji
  · exact .other hchild hji hp

theorem TargetGroup.Exited.past (hex : TargetGroup.Exited lib o c.group.items el i st st') (j : ℕ) :
    (st j).past <+: (st' j).past := by
  cases relative c i j with
  | child h =>
    rw [hex.child j h]
    cases hs : (c.group.items j).target.isScalar with
    | true => rw [(((st j).clear_fields _).2.2.1 hs).1]
    | false =>
      rw [(((st j).clear_fields _).2.2.2 hs).1]
      exact List.prefix_append _ _
  | self h =>
    rw [h, hex.self, (TargetState.converted_fields lib o _ _).2.1]
  | parent hp hchild hne =>
    rw [hex.parent j hp]
    split_ifs <;> exact List.prefix_refl _
  | other hchild hne hp => rw [hex.other j hchild hne hp]

theorem TargetGroup.Exited.renewed (hex : TargetGroup.Exited lib o c.group.items el i st st')
    {k : ℕ} (hk : k ∈ (c.group.items i).target.children)
    (hs : (c.group.items k).target.isScalar = false) :
    (st k).past ++ [(st k).current] <+: (st' k).past := by
  rw [hex.child k hk, (((st k).clear_fields _).2.2.2 hs).1]

theorem plainKey_spec {key : Bytes} {keyIsAttribute : Bool}
    (h : plainKey key keyIsAttribute = true) :
    keyIsAttribute = false ∧ key ≠ [] ∧ key ≠ star ∧ Tools.cStr key = key := by
  simp only [plainKey, Bool.and_eq_true, Bool.not_eq_true', List.isEmpty_eq_false_iff, bne_iff_ne,
    ne_eq, List.contains_eq_mem, decide_eq_false_iff_not] at h
  obtain ⟨⟨⟨hattr, hne⟩, hstar⟩, hzero⟩ := h
  refine ⟨hattr, hne, hstar, ?_⟩
  rw [Tools.cStr, List.takeWhile_eq_self_iff]
  exact fun b hb => by simpa using fun heq : b = 0 => hzero (heq ▸ hb)

variable (hw : Wired c) (hplain : c.Plain) (h : Tallied c m st T)
  (hv : Phase.Legal c m (.exit el i)) (hex : TargetGroup.Exited lib o c.group.items el i st st')
include hw hplain h hv hex

theorem Tallied.left_object {its : List ℕ} (ht : (c.group.items i).target = .object its) :
    (st' i).current.Shows (fun _ => Frozen st' (c.depth i))
      (.dict (T.entries c.group.items Target.shown i)) := by
  obtain ⟨hi, hbusy, -, hchildren⟩ := hv
  have hits : (c.group.items i).target.children = its := by rw [ht]; rfl
  have hin : ∀ k ∈ its, k ∈ c.order ∧ (c.group.items k).parentTarget = some i ∧ k ∉ m.busy :=
    fun k hk =>
    ⟨(hw.forest.children i hi k (hits ▸ hk)).1, (hw.forest.children i hi k (hits ▸ hk)).2,
      (hchildren k (hits ▸ hk)).1⟩
  have hsorted : Sorted bytesLt (T.entries c.group.items Target.seen i) :=
    overlay_sorted bytesLt_strictWeak (h.sorted i) _
  have hkeys : ∀ k ∈ its, (st k).actualKeyName = (c.group.items k).keyName ∧
      (c.group.items k).keyName ≠ star := fun k hk =>
    ⟨(h.items k (hin k hk).1).key,
      (plainKey_spec (hplain.key k (hin k hk).1 i its (hin k hk).2.1 ht)).2.2.1⟩
  have hopened := ((h.items i hi).opened its ht hbusy).collected_object el its hsorted
    (fun _ _ => .inl (.value _ _ _)) hkeys
  have hentries :
    overlay bytesLt
      (its.map fun k => ((c.group.items k).keyName, (st k).fallback (c.group.items k).target))
      (T.entries c.group.items Target.seen i) = T.entries c.group.items Target.shown i := by
    rw [Tally.entries, Tally.entries, hits,
      overlay_overlay bytesLt_strictWeak (fun heq => equiv_bytesLt.mp heq) (hplain.keys i hi its ht)
      (h.sorted i)]
    congr 1
    exact List.map_congr_left fun k hk => by
      rw [(h.items k (hin k hk).1).fallback_or (hin k hk).2.2]
  rw [hentries] at hopened
  have hcurrent : (st' i).current = its.foldl (fun content k =>
      TargetGroup.collected (.object its) (c.group.items k).target el k (st k) content)
        (st i).current := by
    rw [hex.self, (TargetState.converted_fields lib o _ _).2.2, ht]
    rfl
  rw [hcurrent]
  -- the children are cleared
  refine hopened.imp fun key v t hvt => ?_
  rcases hvt with hvt | ⟨k, hk, rfl, hp, -, hscalar, -, hc⟩
  · exact hvt.later hex.past
  · exact .renewed hw hk hp hex.past (hex.renewed (hplain.child k hk i hp) hscalar) hc

omit hplain in
theorem Tallied.left_list {its : List ℕ} (ht : (c.group.items i).target = .list its) :
    (st' i).current.Shows (fun _ => Frozen st' (c.depth i))
      (.list (T.done i ++ T.made lib o c.group.items i)) := by
  obtain ⟨hi, hbusy, -, hchildren⟩ := hv
  have hits : (c.group.items i).target.children = its := by rw [ht]; rfl
  have hcurrent : (st' i).current = its.foldl (fun content k =>
      TargetGroup.collected (.list its) (c.group.items k).target el k (st k) content)
        (st i).current := by
    rw [hex.self, (TargetState.converted_fields lib o _ _).2.2, ht]
    rfl
  have hmade : T.made lib o c.group.items i = its.map fun k =>
      (c.group.items k).target.item (T.done k) := by
    rw [Tally.made, ht]
  rw [hcurrent, hmade]
  refine (((h.items i hi).list its ht).later hex.past).collected_list fun k hk => ?_
  obtain ⟨hkin, hparent⟩ := hw.forest.children i hi k (hits ▸ hk)
  obtain ⟨hidle, hleft⟩ := hchildren k (hits ▸ hk)
  exact (h.items k hkin).read hw hkin hparent hidle (fun hne => h.left k (hleft ⟨its, ht⟩ hne) hne)
    hex.past
    (hex.renewed (hits ▸ hk))

theorem Tallied.left_value {p : ℕ} (hp : (c.group.items i).parentTarget = some p) :
    ∃ w, (c.group.items i).target.seen ((T.call lib o c.group.items (.exit el i)).done i) = some w ∧
      Stands c (m.note c (.exit el i)) st' p (c.group.items i).keyName
        ((st' i).read i (c.group.items i).target) w := by
  have hi := hv.1
  have hnot : i ∉ (c.group.items i).target.children := fun hin => hw.child_ne hi hin rfl
  rw [Tally.done_self hnot]
  cases ht : (c.group.items i).target with
  | scalar t =>
    obtain ⟨hvalue, -, hmust, -⟩ := (h.items i hi).scalar t ht
    have hread := TargetState.converted_read lib o i (hvalue hv.2.1) (hmust hv.2.1)
    have hself := hex.self
    rw [ht, Target.children] at hself
    refine ⟨t.eval lib o (T.text i), ?_, ?_⟩
    · show (T.done i ++ T.made lib o c.group.items i).getLast? = _
      rw [Tally.made, ht, List.getLast?_concat]
    · rw [hself]
      exact .inl (hread.1 ▸ .value _ _ _)
  | object its =>
    refine ⟨.dict (T.entries c.group.items Target.shown i), ?_,
      .inr ⟨i, hi, rfl, hp, rfl, by rw [ht]; rfl, fun hin => absurd rfl hin.2,
        h.left_object hw hplain hv hex ht⟩⟩
    show (T.done i ++ T.made lib o c.group.items i).getLast? = _
    rw [Tally.made, ht, List.getLast?_concat]
  | list its =>
    refine ⟨.list (T.done i ++ T.made lib o c.group.items i), ?_,
      .inr ⟨i, hi, rfl, hp, rfl, by rw [ht]; rfl, fun hin => absurd rfl hin.2,
        h.left_list hw hv hex ht⟩⟩
    have hne : T.made lib o c.group.items i ≠ [] := by
      rw [Tally.made, ht]
      exact fun heq => hplain.listed i hi its ht (List.map_eq_nil_iff.mp heq)
    rw [Target.seen, if_neg]
    simp [hne]

theorem Tallied.left_self :
    ItemTallied c (m.note c (.exit el i)) st' (T.call lib o c.group.items (.exit el i)) i := by
  have hi := hv.1
  have hitem := h.items i hi
  have hnot : i ∉ (c.group.items i).target.children := fun hin => hw.child_ne hi hin rfl
  have hidle : i ∉ (m.note c (.exit el i)).busy := fun hin => hin.2 rfl
  have hdone : (T.call lib o c.group.items (.exit el i)).done i =
      T.done i ++ T.made lib o c.group.items i :=
    Tally.done_self hnot
  refine ⟨?_, fun t ht => ?_, fun its ht => ?_, fun its ht hin => absurd hin hidle,
    fun its ht _ v hlast => ?_, fun _ k hk => Tally.done_child hk⟩
  · rw [hex.self, (TargetState.converted_fields lib o _ _).1]
    exact hitem.key
  · obtain ⟨hvalue, -, hmust, -⟩ := hitem.scalar t ht
    obtain ⟨hread, hempty⟩ := TargetState.converted_read lib o i (hvalue hv.2.1) (hmust hv.2.1)
    have hself := hex.self
    rw [ht, Target.children] at hself
    have hmade : T.made lib o c.group.items i = [t.eval lib o (T.text i)] := by rw [Tally.made, ht]
    refine ⟨fun hin => absurd hin hidle, fun _ => hself ▸ hempty, fun hin => absurd hin hidle,
      fun _ hnil => ?_, fun _ v hlast => ?_⟩
    · rw [hdone, hmade] at hnil
      exact absurd hnil (List.append_ne_nil_of_right_ne_nil _ (List.cons_ne_nil _ _))
    · rw [hdone, hmade, List.getLast?_concat] at hlast
      rw [← Option.some.inj hlast, hself]
      exact hread
  · rw [hdone]
    exact h.left_list hw hv hex ht
  · rw [hdone, Tally.made, ht, List.getLast?_concat] at hlast
    rw [← Option.some.inj hlast]
    exact h.left_object hw hplain hv hex ht

omit hplain in
theorem Tallied.left_child {j : ℕ} (hj : j ∈ (c.group.items i).target.children) :
    ItemTallied c (m.note c (.exit el i)) st' (T.call lib o c.group.items (.exit el i)) j := by
  obtain ⟨hi, -, -, hchildren⟩ := hv
  obtain ⟨hjin, hparent⟩ := hw.forest.children i hi j hj
  have hitem := h.items j hjin
  have hidle : j ∉ (m.note c (.exit el i)).busy := fun hin => (hchildren j hj).1 hin.1
  have hdone : (T.call lib o c.group.items (.exit el i)).done j = [] := Tally.done_child hj
  have hstate := hex.child j hj
  have hclean : (st' j).Clean (c.group.items j).target := hstate ▸ TargetState.clean_clear
  refine ⟨?_, fun t ht => ⟨fun hin => absurd hin hidle, fun _ => ?_, fun hin => absurd hin hidle,
    fun _ _ => ?_, fun _ v hv => ?_⟩, fun its ht => ?_, fun _ _ hin => absurd hin hidle,
      fun _ _ _ v hv => ?_, fun _ k hk => ?_⟩
  · rw [hstate, ((st j).clear_fields _).1]
    exact hitem.key
  · rw [hstate, ht]
    rfl
  · rw [hstate, ht, TargetState.mustUseDefaultValue, TargetState.clear, Bool.and_true]
  · rw [hdone] at hv
    cases hv
  · rw [ht] at hclean
    rw [hclean.list, hdone]
    exact .list .nil
  · rw [hdone] at hv
    cases hv
  · obtain ⟨hkin, hkparent⟩ := hw.forest.children j hjin k hk
    by_cases hki : k ∈ (c.group.items i).target.children
    · exact Tally.done_child hki
    · have hne : k ≠ i := by
        rintro rfl
        exact absurd ((hw.depth_lt hkin hkparent).trans (hw.depth_lt hjin hparent)) (lt_irrefl _)
      rw [Tally.done_other hki hne]
      exact hitem.clean (hchildren j hj).1 k hk

theorem Tallied.left_parent {p : ℕ} (hp : (c.group.items i).parentTarget = some p) :
    ItemTallied c (m.note c (.exit el i)) st' (T.call lib o c.group.items (.exit el i)) p := by
  obtain ⟨w, hw', hstands⟩ := h.left_value hw hplain hv hex hp
  obtain ⟨hi, hbusy, hparents, hchildren⟩ := hv
  obtain ⟨hpin, hfit⟩ := hw.fit hi hp
  have hitem := h.items p hpin
  have hlt := hw.depth_lt hi hp
  have hpi : p ≠ i := fun heq => lt_irrefl _ (heq ▸ hlt)
  have hnot : p ∉ (c.group.items i).target.children := fun hin =>
    lt_irrefl _ (hlt.trans (hw.depth_lt hpin (hw.forest.children i hi p hin).2))
  have hpbusy : p ∈ (m.note c (.exit el i)).busy := ⟨hparents p hp, hpi⟩
  have hstate := hex.parent p hp
  have hchild := hplain.child i hi p hp
  cases ht : (c.group.items p).target with
  | scalar t =>
    rw [ht] at hchild
    cases hchild
  | list its =>
    have hkey : (st i).actualKeyName = [] := (h.items i hi).key.trans (hfit.list ht).2.1
    rw [if_pos hkey] at hstate
    refine ⟨hstate ▸ hitem.key, fun t ht' => ?_, fun its' ht' => ?_, fun its' ht' => ?_,
      fun _ _ hin => absurd hpbusy hin, fun hin => absurd hpbusy hin⟩
    · rw [ht] at ht'
      cases ht'
    · rw [hstate, Tally.done_other hnot hpi]
      exact (hitem.list its' ht').later hex.past
    · rw [ht] at ht'
      cases ht'
  | object its =>
    obtain ⟨-, hne, hstar, hstr⟩ := plainKey_spec (hplain.key i hi p its hp ht)
    have hkey : (st i).actualKeyName = (c.group.items i).keyName := (h.items i hi).key
    have hexit : TargetGroup.exitKey el (st i) = (c.group.items i).keyName := by
      rw [TargetGroup.exitKey, hkey, if_neg hstar, hstr]
    rw [if_neg (hkey ▸ hne), hexit] at hstate
    have hits : (c.group.items p).target.children = its := by rw [ht]; rfl
    refine ⟨hstate ▸ hitem.key, fun t ht' => ?_, fun its' ht' => ?_, fun its' ht' _ => ?_,
      fun _ _ hin => absurd hpbusy hin, fun hin => absurd hpbusy hin⟩
    · rw [ht] at ht'
      cases ht'
    · rw [ht] at ht'
      cases ht'
    · have hentries : (T.call lib o c.group.items (.exit el i)).entries c.group.items Target.seen
        p =
          update bytesLt (c.group.items i).keyName w (fun _ => w)
            (T.entries c.group.items Target.seen p) := by
        have hput :=
          put_overlay bytesLt_strictWeak (fun heq => equiv_bytesLt.mp heq)
            (hplain.keys p hpin its ht)
          (h.sorted p) (hits ▸ hchild) (fun k => (c.group.items k).target.seen (T.done k)) w
        rw [Tally.entries, Tally.entries, hits]
        refine Eq.trans ?_ hput.symm
        congr 1
        refine List.map_congr_left fun k hk => ?_
        by_cases hki : k = i
        · rw [hki, Function.update_self, hw']
        · have hkc : k ∉ (c.group.items i).target.children := fun hin => by
            have hkp := (hw.forest.children p hpin k (hits.symm ▸ hk)).2
            rw [(hw.forest.children i hi k hin).2] at hkp
            exact hpi (Option.some.inj hkp).symm
          rw [Function.update_of_ne hki, Tally.done_other hkc hki]
      rw [hstate, hentries]
      refine (hitem.opened its ht (hparents p hp)).setKey
        (overlay_sorted bytesLt_strictWeak (h.sorted p) _)
        (fun key v t hkey' hvt => hvt.later hw hex.past fun k hk hkp hkk hscalar hlist => ?_)
          hstands
      -- the other children keep their current lists and dicts
      have hki : k ≠ i := fun heq => hkey' (hkk.symm.trans (heq ▸ rfl))
      have hkc : k ∉ (c.group.items i).target.children := fun hin => by
        rw [(hw.forest.children i hi k hin).2] at hkp
        exact hpi (Option.some.inj hkp).symm
      have hpk : (c.group.items i).parentTarget ≠ some k := by
        rw [hp]
        exact fun heq => lt_irrefl _ (Option.some.inj heq ▸ hw.depth_lt hk hkp)
      rw [Keeps, hex.other k hkc hki hpk]
      exact .inr ⟨rfl, rfl, fun hin => hlist hin.1⟩

omit hplain in
theorem Tallied.left_other {j : ℕ} (hj : j ∈ c.order) (hnot : j ∉ (c.group.items i).target.children)
    (hji : j ≠ i) (hp : (c.group.items i).parentTarget ≠ some j) :
    ItemTallied c (m.note c (.exit el i)) st' (T.call lib o c.group.items (.exit el i)) j := by
  obtain ⟨hi, -, hparents, -⟩ := hv
  have hchild : ∀ k ∈ c.order, (c.group.items k).parentTarget = some j →
      k ∉ (c.group.items i).target.children ∧ k ≠ i := by
    intro k hk hkj
    refine ⟨fun hin => ?_, fun heq => hp (heq ▸ hkj)⟩
    rw [(hw.forest.children i hi k hin).2] at hkj
    exact hji (Option.some.inj hkj).symm
  refine (h.items j hj).frame hw hex.past (hex.other j hnot hji hp)
    ⟨fun hin => hin.1, fun hin => ⟨hin, hji⟩⟩ rfl
    (Tally.done_other hnot hji) rfl (fun k hk => ?_) fun k hk hkj hscalar hlist => ?_
  · obtain ⟨hkin, hkj⟩ := hw.forest.children j hj k hk
    exact Tally.done_other (hchild k hkin hkj).1 (hchild k hkin hkj).2
  · obtain ⟨hkc, hki⟩ := hchild k hk hkj
    by_cases hkp : (c.group.items i).parentTarget = some k
    · -- a dict that is open is not referred to, and a list is not written to
      obtain ⟨its, ht⟩ := hlist (hparents k hkp)
      have hkey : (st i).actualKeyName = [] :=
        (h.items i hi).key.trans ((hw.fit hi hkp).2.list ht).2.1
      rw [Keeps, hex.parent k hkp, if_pos hkey]
      exact .inr ⟨rfl, rfl, fun _ => ⟨its, ht⟩⟩
    · rw [Keeps, hex.other k hkc hki hkp]
      exact .inr ⟨rfl, rfl, fun hin => hlist hin.1⟩

end

namespace Tallied
open Ledger
variable {c : Compiled} {m : Phase} {T : Tally} {lib : ScalarLib} {o : StructOptions}
  {g : TargetGroup Bytes}

theorem exit (hw : Wired c) (hplain : c.Plain) (h : Tallied c m g.states T)
    (hitems : g.items = c.group.items) {el : Bytes} {i : ℕ} (hv : Phase.Legal c m (.exit el i)) :
    Tallied c (m.note c (.exit el i)) (g.call lib o (.exit el i)).states
      (T.call lib o c.group.items (.exit el i)) := by
  have hi := hv.1
  have hnot : i ∉ (c.group.items i).target.children := fun hin => hw.child_ne hi hin rfl
  have hex : TargetGroup.Exited lib o c.group.items el i g.states
      (g.call lib o (.exit el i)).states := by
    have hex := @TargetGroup.exited lib o g el i
    rw [hitems] at hex
    refine hex (hplain.nodup i hi) (fun k hk => hw.child_ne hi hk) (hw.forest.irrefl i hi)
      fun p hp hin => ?_
    exact lt_irrefl _
      ((hw.depth_lt hi hp).trans (hw.depth_lt (hw.fit hi hp).1 (hw.forest.children i hi p hin).2))
  refine ⟨fun j hj => ?_, fun k hk hlist => ?_, h.sorted⟩
  · cases relative c i j with
    | child hj => exact h.left_child hw hv hex hj
    | self hji =>
      subst hji
      exact h.left_self hw hplain hv hex
    | parent hp => exact h.left_parent hw hplain hv hex hp
    | other hchild hne hp => exact h.left_other hw hv hex hj hchild hne hp
  · rcases hk with rfl | ⟨hk, hkc⟩
    · rw [Tally.done_self hnot]
      refine List.append_ne_nil_of_right_ne_nil _ ?_
      rw [Tally.made]
      cases ht : (c.group.items k).target with
      | scalar t => exact List.cons_ne_nil _ _
      | object its => exact List.cons_ne_nil _ _
      | list its => exact absurd ht (hlist its)
    · by_cases hki : k = i
      · subst hki
        rw [Tally.done_self hnot]
        exact List.append_ne_nil_of_left_ne_nil (h.left k hk hlist) _
      · rw [Tally.done_other hkc hki]
        exact h.left k hk hlist

variable (lib o) in
theorem run (hw : Wired c) (hplain : c.Plain) {vs : List Call}
    (hallowed : Allowed (Phase.note c) (Phase.Legal c) m vs) (h : Tallied c m g.states T)
    (hitems : g.items = c.group.items) :
    Tallied c (after (Phase.note c) m vs) (vs.foldl (fun g v => g.call lib o v) g).states
      (vs.foldl (fun T v => T.call lib o c.group.items v) T) := by
  refine (hallowed.lockstep (fun v (g : TargetGroup Bytes) => g.call lib o v)
    (fun v T => T.call lib o c.group.items v)
    (fun m g T => Tallied c m g.states T ∧ g.items = c.group.items) (fun m v g T hv h => ?_)
    ⟨h, hitems⟩).1
  refine ⟨?_, (TargetGroup.call_sameItems lib o v g).1.trans h.2⟩
  cases v with
  | enter attrs i => exact h.1.enter hw hplain h.2 hv
  | text text i => exact h.1.text hw h.2 hv
  | exit el i => exact h.1.exit hw hplain h.2 hv

theorem start (hw : Wired c) : Tallied c ⟨Phase.openAt c [], ∅⟩ c.group.states .start := by
  refine ⟨fun i hi => ?_, fun k hk => absurd hk (Set.notMem_empty k), fun _ => List.Pairwise.nil⟩
  have hfresh := hw.fresh i
  have hclean : (c.group.states i).Clean (c.group.items i).target := by
    rw [hfresh]
    exact TargetState.clean_new
  refine ⟨by rw [hfresh], fun t ht => ?_, fun its ht => ?_, fun its ht _ => ?_,
    fun _ _ _ v hv => absurd hv (by simp [Tally.start]), fun _ _ _ => rfl⟩
  · have hmust : (c.group.states i).mustUseDefaultValue (.scalar t) = t.defaultValue.isSome := by
      rw [hfresh, ht, TargetState.mustUseDefaultValue, TargetState.new, Bool.and_self]
    refine ⟨fun _ => by rw [hfresh]; rfl, fun _ => by rw [hfresh]; rfl, fun _ => ?_,
      fun _ _ => hmust, fun _ v hv => absurd hv (by simp [Tally.start])⟩
    rw [hmust]
    exact (Bool.and_true _).symm
  · rw [ht] at hclean
    rw [hclean.list]
    exact .list .nil
  · rw [ht] at hclean
    rw [Tally.entries_of_clean Target.seen_nil fun _ _ => rfl,
      show (c.group.states i).current = .dict [] from hclean]
    exact .dict .nil

end Tallied

end Xml2Var
end Nkit
