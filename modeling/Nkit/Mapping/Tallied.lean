import Nkit.Mapping.Tally

/-! The targets hold what the tally says, through any calls of a document.  A list or dict that was
handed over is written to only until its target hands it over again, so that nobody sees it change.
-/

namespace Nkit
namespace Xml2Var
open OrderedMap

structure Compiled.Plain (c : Compiled) : Prop where
  fixed : ∀ i ∈ c.order, (c.group.items i).keyNameIsAttribute = false
  nodup : ∀ i ∈ c.order, (c.group.items i).target.children.Nodup
  child : ∀ k ∈ c.order, ∀ i, (c.group.items k).parentTarget = some i →
    k ∈ (c.group.items i).target.children
  listed : ∀ i ∈ c.order, ∀ its, (c.group.items i).target = .list its → its ≠ []
  keys : ∀ i ∈ c.order, ∀ its, (c.group.items i).target = .object its →
    (its.map fun k => (c.group.items k).keyName).Nodup
  key : ∀ k ∈ c.order, ∀ i its, (c.group.items k).parentTarget = some i →
    (c.group.items i).target = .object its →
    plainKey (c.group.items k).keyName false = true

section
variable (c : Compiled) (m : Phase) (st : ℕ → TargetState) (T : Tally)

/-- What an open target `p` has of a child: it does not change before the child hands over the next.
-/
def Stands (p : ℕ) (key : Bytes) (v : Var) (t : DynTree) : Prop :=
  Frozen st (c.depth p) v t ∨
    ∃ k ∈ c.order, v = .made k (st k).past.length ∧ (c.group.items k).parentTarget = some p ∧
      (c.group.items k).keyName = key ∧ (c.group.items k).target.isScalar = false ∧
      (k ∈ m.busy → ∃ its, (c.group.items k).target = .list its) ∧
        (st k).current.Shows (fun _ => Frozen st (c.depth k)) t

structure ScalarHolds (i : ℕ) (t : ScalarTarget) (s : TargetState) : Prop where
  value : i ∈ m.busy → s.value = (T.text i).getD []
  empty : i ∉ m.busy → s.value = []
  mustUse : i ∈ m.busy → s.mustUseDefaultValue (.scalar t) =
    (t.defaultValue.isSome && (T.text i).isNone)
  unused : i ∉ m.busy → T.done i = [] → s.mustUseDefaultValue (.scalar t) = t.defaultValue.isSome
  last : i ∉ m.busy → ∀ v, (T.done i).getLast? = some v → s.read i (.scalar t) = .value v

/-- Target `i` holds what the tally says of it. -/
structure ItemTallied (i : ℕ) : Prop where
  key : (st i).actualKeyName = (c.group.items i).keyName
  scalar : ∀ t, (c.group.items i).target = .scalar t → ScalarHolds m T i t (st i)
  list : ∀ its, (c.group.items i).target = .list its →
    (st i).current.Shows (fun _ => Frozen st (c.depth i)) (.list (T.done i))
  opened : ∀ its, (c.group.items i).target = .object its → i ∈ m.busy →
    (st i).current.Shows (Stands c m st i) (.dict (T.entries c.group.items Target.seen i))
  closed : ∀ its, (c.group.items i).target = .object its → i ∉ m.busy →
    ∀ v, (T.done i).getLast? = some v → (st i).current.Shows (fun _ => Frozen st (c.depth i)) v
  clean : i ∉ m.busy → ∀ k ∈ (c.group.items i).target.children, T.done k = []

structure Tallied : Prop where
  items : ∀ i ∈ c.order, ItemTallied c m st T i
  left : ∀ k ∈ m.left, (∀ its, (c.group.items k).target ≠ .list its) → T.done k ≠ []
  sorted : ∀ i, Sorted bytesLt (T.opened i)

end

section
variable {c : Compiled} {m m' : Phase} {st st' : ℕ → TargetState} {T T' : Tally}

/-- Child `k` of an open target made a new list or dict, or kept its current one. -/
def Keeps (c : Compiled) (m' : Phase) (st st' : ℕ → TargetState) (k : ℕ) : Prop :=
  (st k).past ++ [(st k).current] <+: (st' k).past ∨
    ((st' k).past = (st k).past ∧ (st' k).current = (st k).current ∧
      (k ∈ m'.busy → ∃ its, (c.group.items k).target = .list its))

theorem Content.Shows.later {content : Content} {t : DynTree} {d : ℕ}
    (hpast : ∀ j, (st j).past <+: (st' j).past) (h : content.Shows (fun _ => Frozen st d) t) :
    content.Shows (fun _ => Frozen st' d) t := h.imp fun _ _ _ hv => hv.later hpast

theorem Frozen.renewed (hw : Wired c) {k p : ℕ} (hk : k ∈ c.order)
    (hp : (c.group.items k).parentTarget = some p) (hpast : ∀ j, (st j).past <+: (st' j).past)
    (hnew : (st k).past ++ [(st k).current] <+: (st' k).past) {t : DynTree}
    (h : (st k).current.Shows (fun _ => Frozen st (c.depth k)) t) :
    Frozen st' (c.depth p) (.made k (st k).past.length) t := by
  have hsome : (st' k).past[(st k).past.length]? = some (st k).current := by
    rw [getElem?_kept hnew (by simp), List.getElem?_append_right le_rfl, Nat.sub_self]
    rfl
  exact .of_past hsome (h.later hpast) (hw.depth_lt hk hp)

theorem Stands.later (hw : Wired c) {p : ℕ} {key : Bytes} {v : Var} {t : DynTree}
    (h : Stands c m st p key v t) (hpast : ∀ j, (st j).past <+: (st' j).past)
    (hkeeps : ∀ k ∈ c.order, (c.group.items k).parentTarget = some p → (c.group.items k).keyName =
      key → (c.group.items k).target.isScalar = false →
      (k ∈ m.busy → ∃ its, (c.group.items k).target = .list its) → Keeps c m' st st' k) :
    Stands c m' st' p key v t := by
  rcases h with h | ⟨k, hk, rfl, hp, hkey, hscalar, hbusy, hc⟩
  · exact .inl (h.later hpast)
  · rcases hkeeps k hk hp hkey hscalar hbusy with hnew | ⟨hkept, hcurrent, hlist⟩
    · exact .inl (.renewed hw hk hp hpast hnew hc)
    · exact .inr ⟨k, hk, by rw [hkept], hp, hkey, hscalar, hlist, hcurrent ▸ hc.later hpast⟩

theorem Tally.entries_of_clean {i : ℕ} {f : Target → List DynTree → Option DynTree}
    (hf : ∀ target, f target [] = none)
    (h : ∀ k ∈ (c.group.items i).target.children, T.done k = []) :
    T.entries c.group.items f i = T.opened i := by
  rw [Tally.entries]
  generalize (c.group.items i).target.children = ks at h
  induction ks with
  | nil => rfl
  | cons k ks ih =>
    obtain ⟨hk, hks⟩ := List.forall_mem_cons.mp h
    rw [List.map_cons, overlay_cons, hk, hf]
    exact ih hks

theorem Target.seen_nil (target : Target) : target.seen [] = none := by
  cases target <;> rfl

theorem Tally.entries_congr {i : ℕ} (f : Target → List DynTree → Option DynTree)
    (hdone : ∀ k ∈ (c.group.items i).target.children, T'.done k = T.done k)
    (hopened : T'.opened i = T.opened i) :
    T'.entries c.group.items f i = T.entries c.group.items f i := by
  rw [Tally.entries, Tally.entries, hopened]
  congr 1
  exact List.map_congr_left fun k hk => by rw [hdone k hk]

theorem ItemTallied.frame (hw : Wired c) {i : ℕ} (h : ItemTallied c m st T i)
    (hpast : ∀ j, (st j).past <+: (st' j).past) (hstate : st' i = st i)
    (hbusy : i ∈ m'.busy ↔ i ∈ m.busy) (htext : T'.text i = T.text i) (hdone : T'.done i = T.done i)
    (hopened : T'.opened i = T.opened i)
    (hchildren : ∀ k ∈ (c.group.items i).target.children, T'.done k = T.done k)
    (hkeeps : ∀ k ∈ c.order, (c.group.items k).parentTarget = some i →
      (c.group.items k).target.isScalar = false →
      (k ∈ m.busy → ∃ its, (c.group.items k).target = .list its) → Keeps c m' st st' k) :
    ItemTallied c m' st' T' i where
  key := hstate ▸ h.key
  scalar := by
    intro t ht
    obtain ⟨hvalue, hempty, hmust, hunused, hlast⟩ := h.scalar t ht
    refine ⟨?_, ?_, ?_, ?_, ?_⟩
    all_goals rw [hbusy, hstate]
    · rw [htext]
      exact hvalue
    · exact hempty
    · rw [htext]
      exact hmust
    · rw [hdone]
      exact hunused
    · rw [hdone]
      exact hlast
  list := by
    intro its ht
    rw [hstate, hdone]
    exact (h.list its ht).later hpast
  opened := by
    intro its ht hin
    rw [hstate, Tally.entries_congr _ hchildren hopened]
    exact (h.opened its ht (hbusy.mp hin)).imp fun _ _ _ hvt => hvt.later hw hpast fun k hk hp _ =>
      hkeeps k hk hp
  closed := by
    intro its ht hnot v hv
    rw [hdone] at hv
    rw [hstate]
    exact (h.closed its ht (hbusy.not.mp hnot) v hv).later hpast
  clean := by
    intro hnot k hk
    rw [hchildren k hk]
    exact h.clean (hbusy.not.mp hnot) k hk

namespace Tallied
variable {lib : ScalarLib} {o : StructOptions} {g : TargetGroup Bytes}

theorem sorted_attrEntries (o : StructOptions) (attrs : List (Bytes × Bytes)) :
    Sorted bytesLt (attrEntries o attrs) := by
  rw [attrEntries]
  split_ifs
  · exact List.pairwise_singleton _ _
  · exact List.Pairwise.nil

theorem opened_shows (R : Bytes → Var → DynTree → Prop) (hR : ∀ key t, R key (.value t) t)
    (o : StructOptions) (attrs : List (Bytes × Bytes)) :
    (TargetState.opened o attrs).Shows R (.dict (attrEntries o attrs)) := by
  rw [TargetState.opened, attrEntries]
  split_ifs
  · exact .dict (.cons ⟨rfl, hR _ _⟩ .nil)
  · exact .dict .nil

theorem enter (hw : Wired c) (hplain : c.Plain) (h : Tallied c m g.states T)
    (hitems : g.items = c.group.items) {attrs : List (Bytes × Bytes)} {i : ℕ}
    (hv : Phase.Legal c m (.enter attrs i)) :
    Tallied c (m.note c (.enter attrs i)) (g.call lib o (.enter attrs i)).states
      (T.call lib o c.group.items (.enter attrs i)) := by
  obtain ⟨hi, hbusy⟩ := hv
  show Tallied c _ (Function.update g.states i ((g.states i).onEnter o attrs (g.items i))) _
  rw [hitems]
  set s' := (g.states i).onEnter o attrs (c.group.items i) with hs'
  have hother : ∀ j, j ≠ i → Function.update g.states i s' j = g.states j := fun j hj =>
    Function.update_of_ne hj ..
  have hself : Function.update g.states i s' i = s' := Function.update_self ..
  -- an object makes a new dict
  have hcases :
    ((∃ its, (c.group.items i).target = .object its) ∧
      s'.past = (g.states i).past ++ [(g.states i).current] ∧
        s'.current = TargetState.opened o attrs) ∨
      ((∀ its, (c.group.items i).target ≠ .object its) ∧ s'.past = (g.states i).past ∧
        s'.current = (g.states i).current) := by
    cases ht : (c.group.items i).target with
    | object its =>
      rw [hs', TargetState.onEnter_object ht]
      exact .inl ⟨⟨its, rfl⟩, rfl, rfl⟩
    | list its =>
      rw [hs', TargetState.onEnter_list ht]
      exact .inr ⟨by simp, rfl, rfl⟩
    | scalar t =>
      rw [hs', TargetState.onEnter_scalar ht]
      exact .inr ⟨by simp, rfl, rfl⟩
  have hpast : ∀ j, (g.states j).past <+: (Function.update g.states i s' j).past := by
    intro j
    by_cases hji : j = i
    · rw [hji, hself]
      rcases hcases with ⟨-, hp, -⟩ | ⟨-, hp, -⟩
      · rw [hp]
        exact List.prefix_append _ _
      · rw [hp]
    · rw [hother j hji]
  have hbusy' : ∀ j, j ≠ i → (j ∈ (m.note c (.enter attrs i)).busy ↔ j ∈ m.busy) :=
    fun j hj => Set.mem_insert_iff.trans (or_iff_right hj)
  have hkeeps : ∀ k, (c.group.items k).target.isScalar = false →
      (k ∈ m.busy → ∃ its, (c.group.items k).target = .list its) →
      Keeps c (m.note c (.enter attrs i)) g.states (Function.update g.states i s') k := by
    intro k hscalar hlist
    by_cases hki : k = i
    · subst hki
      rw [Keeps, hself]
      rcases hcases with ⟨-, hp, -⟩ | ⟨hne, hp, hc⟩
      · exact .inl (hp ▸ List.prefix_refl _)
      · refine .inr ⟨hp, hc, fun _ => ?_⟩
        cases ht : (c.group.items k).target with
        | object its => exact absurd ht (hne its)
        | list its => exact ⟨its, rfl⟩
        | scalar t => rw [ht] at hscalar; cases hscalar
    · rw [Keeps, hother k hki]
      exact .inr ⟨rfl, rfl, fun hin => hlist ((hbusy' k hki).mp hin)⟩
  have htext : (T.call lib o c.group.items (.enter attrs i)).text i =
      TargetState.enteredText attrs (c.group.items i) :=
    Function.update_self ..
  have hopened : (T.call lib o c.group.items (.enter attrs i)).opened i = attrEntries o attrs :=
    Function.update_self ..
  have hin : i ∈ (m.note c (.enter attrs i)).busy := Set.mem_insert i m.busy
  refine ⟨fun j hj => ?_, h.left, fun j => ?_⟩
  · have hitem := h.items j hj
    by_cases hji : j = i
    · subst hji
      refine ⟨?_, fun t ht => ?_, fun its ht => ?_, fun its ht _ => ?_,
        fun _ _ hnot => absurd hin hnot, fun hnot => absurd hin hnot⟩
      · rw [hself, hs', TargetState.onEnter_key, TargetState.enteredKey, hplain.fixed j hj,
          if_neg Bool.false_ne_true]
        exact hitem.key
      · rw [hself, hs', TargetState.onEnter_scalar ht]
        refine ⟨fun _ => ?_, fun hnot => absurd hin hnot, fun _ => ?_, fun hnot => absurd hin hnot,
          fun hnot => absurd hin hnot⟩
        · rw [htext]
          show (g.states j).value ++ _ = _
          rw [(hitem.scalar t ht).empty hbusy, List.nil_append]
        · rw [htext]
          rfl
      · rcases hcases with ⟨⟨its', hobj⟩, -⟩ | ⟨-, -, hc⟩
        · rw [ht] at hobj
          cases hobj
        · rw [hself, hc]
          exact (hitem.list its ht).later hpast
      · rcases hcases with ⟨-, -, hc⟩ | ⟨hne, -⟩
        · have hentries : (T.call lib o c.group.items (.enter attrs j)).entries c.group.items
            Target.seen j =
              attrEntries o attrs :=
            (Tally.entries_of_clean (T := T.call lib o c.group.items (.enter attrs j))
              Target.seen_nil
              (hitem.clean hbusy)).trans hopened
          rw [hself, hc, hentries]
          exact opened_shows _ (fun _ t => .inl (.value _ _ t)) o attrs
        · exact absurd ht (hne its)
    · exact hitem.frame hw hpast (hother j hji) (hbusy' j hji) (Function.update_of_ne hji ..) rfl
        (Function.update_of_ne hji ..) (fun _ _ => rfl) fun k _ _ hscalar hlist =>
          hkeeps k hscalar hlist
  · by_cases hji : j = i
    · rw [hji, hopened]
      exact sorted_attrEntries o attrs
    · rw [show (T.call lib o c.group.items (.enter attrs i)).opened j = T.opened j
        from Function.update_of_ne hji ..]
      exact h.sorted j

theorem text (hw : Wired c) (h : Tallied c m g.states T) (hitems : g.items = c.group.items)
    {text : Bytes} {i : ℕ} (hv : Phase.Legal c m (.text text i)) :
    Tallied c m (g.call lib o (.text text i)).states
      (T.call lib o c.group.items (.text text i)) := by
  obtain ⟨hi, hbusy⟩ := hv
  show Tallied c m (g.move lib o (.text text i)).states _
  rw [TargetGroup.text_states, hitems, Tally.call]
  split_ifs with hattr
  · set s' := (g.states i).onText (c.group.items i).target text with hs'
    have hother : ∀ j, j ≠ i → Function.update g.states i s' j = g.states j := fun j hj =>
      Function.update_of_ne hj ..
    have hself : Function.update g.states i s' i = s' := Function.update_self ..
    have hsame : s'.actualKeyName = (g.states i).actualKeyName ∧ s'.past = (g.states i).past ∧
        s'.current = (g.states i).current := by
      rw [hs']
      cases (c.group.items i).target <;> exact ⟨rfl, rfl, rfl⟩
    have hcontents := TargetState.update_contents hsame.2
    have hpast : ∀ j, (g.states j).past <+: (Function.update g.states i s' j).past :=
      fun j => (hcontents j).1 ▸ List.prefix_refl _
    have hkeeps : ∀ k, (k ∈ m.busy → ∃ its, (c.group.items k).target = .list its) →
        Keeps c m g.states (Function.update g.states i s') k :=
      fun k hlist => .inr ⟨(hcontents k).1, (hcontents k).2, hlist⟩
    refine ⟨fun j hj => ?_, h.left, h.sorted⟩
    have hitem := h.items j hj
    by_cases hji : j = i
    · subst hji
      refine ⟨?_, fun t ht => ?_, fun its ht => ?_, fun its ht hin => ?_,
        fun _ _ hnot => absurd hbusy hnot, fun hnot => absurd hbusy hnot⟩
      · rw [hself, hsame.1]
        exact hitem.key
      · refine ⟨fun _ => ?_, fun hnot => absurd hbusy hnot, fun _ => ?_,
          fun hnot => absurd hbusy hnot, fun hnot => absurd hbusy hnot⟩
        · show _ = (Function.update T.text j _ j).getD []
          rw [hself, hs', ht, Function.update_self]
          exact congrArg (· ++ text) ((hitem.scalar t ht).value hbusy)
        · show _ = (t.defaultValue.isSome && (Function.update T.text j _ j).isNone)
          rw [hself, hs', ht, Function.update_self]
          rfl
      · rw [(hcontents j).2]
        exact (hitem.list its ht).later hpast
      · rw [(hcontents j).2]
        exact (hitem.opened its ht hin).imp fun _ _ _ hvt => hvt.later hw hpast fun k _ _ _ _ =>
          hkeeps k
    · exact hitem.frame hw hpast (hother j hji) Iff.rfl (Function.update_of_ne hji ..) rfl rfl
        (fun _ _ => rfl)
        fun k _ _ _ => hkeeps k
  · rw [Function.update_eq_self]
    exact h

end Tallied

end

end Xml2Var
end Nkit
