import Nkit.Xml.StackMachine

/-! A machine that is used for one document after another.  Builders are recycled through
`var_builder_cache_`, and each refers to the options object that was current when it was
constructed.  `Clear` with new options replaces that object, and nothing else keeps it: a
recycled builder that looks at its options then looks at a freed object. -/

namespace Nkit
open OrderedMap AnyXml2VarBuilder

namespace Objects.Bounded

variable {m : Objects} {h : Handle}

theorem get_lt (hb : m.Bounded) {a : ℕ} {o : Obj} (hget : m.get (some a) = some o) :
    a < m.next := hb.lt hget

theorem editString (hb : m.Bounded) (f : Bytes → Bytes) (h : Handle) :
    (m.editString f h).Bounded := by
  unfold Objects.editString
  split
  next hget => exact hb.put (hb.get_lt hget) _
  next => exact hb

theorem pushBack (hb : m.Bounded) (item h : Handle) : (m.pushBack item h).Bounded := by
  unfold Objects.pushBack
  split
  next hget => exact hb.put (hb.get_lt hget) _
  next => exact hb

theorem dictSet (hb : m.Bounded) (key : Bytes) (value h : Handle) :
    (m.dictSet key value h).Bounded := by
  unfold Objects.dictSet
  split
  next hget => exact hb.put (hb.get_lt hget) _
  next => exact hb

theorem dlist (hb : m.Bounded) (item : Handle) :
    (m.dlist item).2.Bounded := (hb.alloc _).pushBack item _

theorem setDictKeyText (hb : m.Bounded) (key text : Bytes) (b : VarBuilder) :
    (b.setDictKeyText key text m).2.Bounded :=
  (hb.alloc _).dictSet key _ _

theorem setAttrKey (hb : m.Bounded) {o : Options} {attrs : List (Bytes × Bytes)} {b b' : VarBuilder}
    {m' : Objects} (hset : b.setAttrKey o attrs m = some (b', m')) : m'.Bounded := by
  have hattrs : ∀ (attrs : List (Bytes × Bytes)) (ab : VarBuilder) (m : Objects), m.Bounded →
      (attrs.foldl (fun r attr => VarBuilder.setDictKeyText attr.1 attr.2 r.2 r.1)
        (ab, m)).2.Bounded := by
    intro attrs
    induction attrs with
    | nil => exact fun _ _ hb => hb
    | cons attr attrs ih => exact fun ab m hb => ih _ _ (hb.setDictKeyText attr.1 attr.2 ab)
  unfold VarBuilder.setAttrKey VarBuilder.setDictKeyValue at hset
  split_ifs at hset with hread
  · simp only [Option.bind_eq_bind] at hset
    split_ifs at hset with hdict
    · cases hset
      exact (hattrs attrs _ _ (hb.alloc _)).dictSet o.attrkey _ _
    · cases hset
  · cases hset
    exact hb

theorem appendToDictKeyList (hb : m.Bounded) (o : Options) (key : Bytes) (value : Handle)
    (b : VarBuilder) :
    (b.appendToDictKeyList o key value m).Bounded := by
  unfold VarBuilder.appendToDictKeyList
  split
  · split_ifs
    · exact hb.pushBack value _
    · exact ((hb.dlist _).dictSet key _ _).pushBack value _
  · split_ifs
    · exact (hb.dlist _).dictSet key _ _
    · exact hb.dictSet key value _

theorem pushEmptyString (hb : m.Bounded) (t : StringStack) : (t.pushEmptyString m).2.Bounded := by
  unfold StringStack.pushEmptyString
  split
  · exact hb.alloc _
  · exact hb.editString _ _

end Objects.Bounded

namespace AnyXml2VarBuilder

structure Sane (s : AnyXml2VarBuilder) : Prop where
  bounded : s.objects.Bounded
  pool : (s.varBuilderStack ++ s.varBuilderCache).Nodup
  known : ∀ b ∈ s.varBuilderStack ++ s.varBuilderCache, b < s.nextBuilder
  root : s.rootVarBuilder < s.nextBuilder

structure Recycles (s s' : AnyXml2VarBuilder) : Prop where
  next : s.nextBuilder ≤ s'.nextBuilder
  pool : ∀ b ∈ s'.varBuilderStack ++ s'.varBuilderCache,
    b ∈ s.varBuilderStack ++ s.varBuilderCache ∨ s.nextBuilder ≤ b
  root : s'.rootVarBuilder = s.rootVarBuilder

variable {o : Options} {s s' : AnyXml2VarBuilder} {e : XmlEvent}

theorem sane_create :
    Sane create := ⟨fresh_create.bounded, fresh_create.pool, fresh_create.known, Nat.zero_lt_one⟩

theorem newVarBuilder_cases (s : AnyXml2VarBuilder) :
    (s.varBuilderCache = [] ∧ s.newVarBuilder = (s.nextBuilder, { s with
      builders := Function.update s.builders s.nextBuilder .new, nextBuilder := s.nextBuilder + 1
        })) ∨
    ∃ b cache, s.varBuilderCache = b :: cache ∧
      s.newVarBuilder = (b, { s with varBuilderCache := cache }) := by
  rw [newVarBuilder]
  cases hcache : s.varBuilderCache with
  | nil => exact .inl ⟨rfl, rfl⟩
  | cons b cache => exact .inr ⟨b, cache, rfl, rfl⟩

theorem newVarBuilder_sane (hs : Sane s) :
    let s' := { s.newVarBuilder.2 with varBuilderStack := s.newVarBuilder.1 :: s.varBuilderStack }
    Sane s' ∧ Recycles s s' := by
  obtain ⟨hcache, hnew⟩ | ⟨b, cache, hcache, hnew⟩ := s.newVarBuilder_cases
  · have hknown := hs.known
    have hpool := hs.pool
    rw [hcache, List.append_nil] at hknown hpool
    rw [hnew]
    refine ⟨⟨hs.bounded, ?_, ?_, hs.root.trans (Nat.lt_succ_self _)⟩, Nat.le_succ _, ?_, rfl⟩
    · rw [hcache, List.append_nil, List.nodup_cons]
      exact ⟨fun hin => absurd (hknown _ hin) (Nat.lt_irrefl _), hpool⟩
    · intro b hb
      rw [hcache, List.append_nil] at hb
      rcases List.mem_cons.mp hb with rfl | hb
      · exact Nat.lt_succ_self _
      · exact (hknown b hb).trans (Nat.lt_succ_self _)
    · intro b hb
      rcases List.mem_cons.mp hb with rfl | hb
      · exact .inr le_rfl
      · exact .inl hb
  · have hknown := hs.known
    have hpool := hs.pool
    rw [hcache] at hknown hpool
    rw [hnew]
    refine ⟨⟨hs.bounded, List.perm_middle.nodup_iff.mp hpool, ?_, hs.root⟩, le_rfl, ?_, rfl⟩
    · exact fun b' hb' => hknown b' (List.perm_middle.mem_iff.mpr hb')
    · intro b' hb'
      rw [hcache]
      exact .inl (List.perm_middle.mem_iff.mpr hb')

theorem onStartElement_sane (hs : Sane s) {el : Bytes} {attrs : List (Bytes × Bytes)}
    (hstep : s.onStartElement o el attrs = some s') : Sane s' ∧ Recycles s s' := by
  unfold onStartElement at hstep
  split_ifs at hstep with hfirst
  · cases hattrs : (s.builders s.rootVarBuilder).setAttrKey o attrs s.objects with
    | none => simp [hattrs] at hstep
    | some r =>
      simp only [hattrs, Option.bind_eq_bind, Option.bind_some, Option.some.injEq] at hstep
      subst hstep
      exact ⟨⟨hs.bounded.setAttrKey hattrs, hs.pool, hs.known, hs.root⟩, le_rfl, fun _ => .inl, rfl⟩
  · cases hflags : s.isSimpleElementStack with
    | nil => simp [hflags] at hstep
    | cons flag flags =>
      obtain ⟨hsane, hrec⟩ := newVarBuilder_sane hs
      simp only [hflags] at hstep
      generalize hnew : s.newVarBuilder = x at hstep hsane hrec
      obtain ⟨b, s₁⟩ := x
      have hstack : s₁.varBuilderStack = s.varBuilderStack := by
        obtain ⟨-, h⟩ | ⟨_, _, -, h⟩ := s.newVarBuilder_cases <;> cases hnew.symm.trans h <;> rfl
      cases hattrs : ((s₁.builders b).initAsDict s₁.objects).1.setAttrKey o attrs
          ((s₁.builders b).initAsDict s₁.objects).2 with
      | none => simp [hattrs] at hstep
      | some r =>
        simp only [hattrs, Option.bind_eq_bind, Option.bind_some, Option.some.injEq] at hstep
        subst hstep
        have hbounded := (hsane.bounded.alloc (.dict [])).setAttrKey hattrs
        refine ⟨⟨hbounded.pushEmptyString _, ?_, ?_, hsane.root⟩, hrec.next, ?_, hrec.root⟩
        · simpa only [setBuilder, hstack] using hsane.pool
        · simpa only [setBuilder, hstack] using hsane.known
        · simpa only [setBuilder, hstack] using hrec.pool

theorem trimmed_sane (hs : Sane s) (o : Options) :
    Sane (if o.trim then { s with objects := s.objects.trim o.whiteSpaces s.currentTextStack.top }
      else s) := by
  split_ifs
  · exact ⟨hs.bounded.editString _ _, hs.pool, hs.known, hs.root⟩
  · exact hs

theorem popVarBuilderStack_sane (hs : Sane s) (hpop : s.popVarBuilderStack = some s') :
    Sane s' ∧ Recycles s s' := by
  unfold popVarBuilderStack at hpop
  split at hpop
  · cases hpop
  next b stack hstack =>
    cases hpop
    have hknown := hs.known
    have hpool := hs.pool
    rw [hstack] at hknown hpool
    refine ⟨⟨hs.bounded, List.perm_middle.nodup_iff.mpr hpool, ?_, hs.root⟩, le_rfl, ?_, rfl⟩
    · exact fun b' hb' => hknown b' (List.perm_middle.mem_iff.mp hb')
    · intro b' hb'
      rw [hstack]
      exact .inl (List.perm_middle.mem_iff.mp hb')

theorem popElement_sane (hs : Sane s) (hpop : s.popElement = some s') :
    Sane s' ∧ Recycles s s' := by
  unfold popElement at hpop
  cases htexts : s.currentTextStack.pop with
  | none => simp [htexts] at hpop
  | some texts =>
    simp only [htexts, Option.bind_eq_bind, Option.bind_some, Option.some.injEq] at hpop
    subst hpop
    exact ⟨⟨hs.bounded, hs.pool, hs.known, hs.root⟩, le_rfl, fun _ => .inl, rfl⟩

theorem Recycles.trans {s₁ s₂ s₃ : AnyXml2VarBuilder} (h : Recycles s₁ s₂) (h' : Recycles s₂ s₃) :
    Recycles s₁ s₃ := by
  refine ⟨h.next.trans h'.next, fun b hb => ?_, h'.root.trans h.root⟩
  obtain hold | hnew := h'.pool b hb
  · exact h.pool b hold
  · exact .inr (h.next.trans hnew)

theorem Sane.rewrite (hs : Sane s) {m : Objects} (hm : m.Bounded) (builders : ℕ → VarBuilder) :
    Sane { s with objects := m, builders } ∧ Recycles s { s with objects := m, builders } :=
  ⟨⟨hm, hs.pool, hs.known, hs.root⟩, le_rfl, fun _ => .inl, rfl⟩

theorem adopt_sane (hs : Sane s) {el : Bytes} {last : ℕ}
    (hstep : (s.popVarBuilderStack.bind fun s => match s.varBuilderStack with
      | [] => s.popElement
      | parent :: _ =>
        popElement
        { s with
          objects := (s.builders parent).appendToDictKeyList o el (s.builders last).object s.objects
            }) =
      some s') : Sane s' ∧ Recycles s s' := by
  obtain ⟨s₁, hpop, hrest⟩ := Option.bind_eq_some_iff.mp hstep
  obtain ⟨hs₁, hrec₁⟩ := popVarBuilderStack_sane hs hpop
  split at hrest
  · obtain ⟨hs₂, hrec₂⟩ := popElement_sane hs₁ hrest
    exact ⟨hs₂, hrec₁.trans hrec₂⟩
  next parent _ _ =>
    obtain ⟨hs₂, hrec₂⟩ :=
      hs₁.rewrite (hs₁.bounded.appendToDictKeyList o el (s₁.builders last).object
      (s₁.builders parent)) s₁.builders
    obtain ⟨hs₃, hrec₃⟩ := popElement_sane hs₂ hrest
    exact ⟨hs₃, hrec₁.trans (hrec₂.trans hrec₃)⟩

theorem onEndElement_sane (hs : Sane s) {el : Bytes} (hstep : s.onEndElement o el = some s') :
    Sane s' ∧ Recycles s s' := by
  unfold onEndElement at hstep
  have hs₀ := trimmed_sane hs o
  have hrec₀ : Recycles s (if o.trim then
      { s with objects := s.objects.trim o.whiteSpaces s.currentTextStack.top } else s) := by
    split_ifs <;> exact ⟨le_rfl, fun _ => .inl, rfl⟩
  generalize (if o.trim then
    { s with objects := s.objects.trim o.whiteSpaces s.currentTextStack.top } else s) = s₀
      at hstep hs₀ hrec₀
  simp only [Option.bind_eq_bind, Option.bind_eq_some_iff] at hstep
  obtain ⟨text, -, simple, -, hstep⟩ := hstep
  split_ifs at hstep with hsimple hempty
  · simp only [Option.bind_eq_some_iff] at hstep
    obtain ⟨s₁, hpop, parent, -, hpop'⟩ := hstep
    obtain ⟨hs₁, hrec₁⟩ := popVarBuilderStack_sane hs₀ hpop
    obtain ⟨hs₂, hrec₂⟩ :=
      hs₁.rewrite ((hs₁.bounded.alloc (.str text)).appendToDictKeyList o el _ _) _
    obtain ⟨hs₃, hrec₃⟩ := popElement_sane hs₂ hpop'
    exact ⟨hs₃, hrec₀.trans (hrec₁.trans (hrec₂.trans hrec₃))⟩
  · simp only [Option.bind_eq_some_iff] at hstep
    obtain ⟨last, -, hstep⟩ := hstep
    obtain ⟨hs₁, hrec₁⟩ := adopt_sane hs₀ (Option.bind_eq_some_iff.mpr hstep)
    exact ⟨hs₁, hrec₀.trans hrec₁⟩
  · simp only [Option.bind_eq_some_iff] at hstep
    obtain ⟨last, -, hstep⟩ := hstep
    obtain ⟨hs₁, hrec₁⟩ :=
      hs₀.rewrite (hs₀.bounded.setDictKeyText o.textkey text (s₀.builders last)) _
    obtain ⟨hs₂, hrec₂⟩ := adopt_sane hs₁ (Option.bind_eq_some_iff.mpr hstep)
    exact ⟨hs₂, hrec₀.trans (hrec₁.trans hrec₂)⟩

theorem step_sane (hs : Sane s) (hstep : s.step o e = some s') : Sane s' ∧ Recycles s s' := by
  cases e with
  | startElement el attrs => exact onStartElement_sane hs hstep
  | text text =>
    cases hstep
    exact hs.rewrite (hs.bounded.editString _ _) s.builders
  | endElement el => exact onEndElement_sane hs hstep

/-- After `Clear` the machine is as before its first element, and its root is the next builder. -/
theorem clear_fresh (hs : Sane s) : ∃ dict textAddr, Fresh s.clear dict textAddr := by
  obtain ⟨b, builders, next, cache, hnew, -, hpool, hknown⟩ := newVarBuilder_eq hs.pool hs.known
  have hsub : ([b] ++ cache).Sublist (b :: s.varBuilderStack ++ cache) := by simp
  have htext := s.objects.alloc_objs (.str [])
  refine ⟨s.objects.next + 1, s.objects.next, ?_⟩
  rw [clear, hnew]
  exact {
    varBuilders := rfl
    simple := rfl
    texts := rfl
    object := congrArg VarBuilder.object (Function.update_self b _ builders)
    dict := Objects.alloc_objs (s.objects.alloc (.str [])).2 (.dict [])
    text := (Function.update_of_ne (Nat.lt_succ_self _).ne _ _).trans htext
    bounded := (hs.bounded.alloc _).alloc _
    pool := hpool.sublist hsub
    known := fun b' hb' => hknown b' (hsub.mem hb')
    first := rfl }

theorem sane_of_fresh {dict textAddr : ℕ} (h : Fresh s dict textAddr) : Sane s :=
  ⟨h.bounded, h.pool, h.known, h.known _ (by rw [h.varBuilders]; exact List.mem_cons_self)⟩

end AnyXml2VarBuilder

/-- A machine with the object `options_` points at.  Options objects are numbered in the order
of their creation; `optionsOf` is the object a builder was constructed with. -/
structure RecycledBuilder where
  machine : AnyXml2VarBuilder
  options : Options
  current : ℕ
  optionsOf : ℕ → ℕ

/-- The builder that looks at its options in an event: at `attrkey_` for attributes, at
`explicit_array_` for the first child of a name. -/
def AnyXml2VarBuilder.readsOptions (s : AnyXml2VarBuilder) : XmlEvent → Option ℕ
  | .startElement _ attrs =>
    if attrs.isEmpty then none
    else if s.first then some s.rootVarBuilder
    else some s.newVarBuilder.1
  | .text _ => none
  | .endElement el =>
    match s.varBuilderStack with
    | _ :: parent :: _ =>
      if (s.objects.dictGet el (s.builders parent).object).isNone then some parent else none
    | _ => none

namespace RecycledBuilder

/-- The options object of a builder; one that is constructed now gets the current object. -/
def optionsAt (s : RecycledBuilder) (b : ℕ) : ℕ :=
  if b < s.machine.nextBuilder then s.optionsOf b else s.current

def follow (s : RecycledBuilder) (m : AnyXml2VarBuilder) : RecycledBuilder :=
  { s with machine := m, optionsOf := s.optionsAt }

def create (o : Options) : RecycledBuilder := ⟨.create, o.withDefaultKeys, 0, fun _ => 0⟩

/-- An event; `none` also when a builder looks at options that are gone. -/
def step (s : RecycledBuilder) (e : XmlEvent) : Option RecycledBuilder :=
  if (s.machine.readsOptions e).all fun b => s.optionsAt b == s.current then
    (s.machine.step s.options e).map s.follow
  else none

def feed (events : List XmlEvent) (s : RecycledBuilder) : Option RecycledBuilder :=
  events.foldlM step s

/-- `Clear()`, which keeps the options. -/
def clear (s : RecycledBuilder) : RecycledBuilder :=
  { s.follow s.machine.clear with options := s.options.withDefaultKeys }

/-- `Clear(options)`: the options object is replaced and the old one is gone. -/
def clearWith (o : Options) (s : RecycledBuilder) : RecycledBuilder :=
  clear { s with options := o, current := s.current + 1 }

end RecycledBuilder

inductive Use where
  | event (e : XmlEvent)
  | clear
  | clearWith (o : Options)

def Use.perform (s : RecycledBuilder) : Use → Option RecycledBuilder
  | event e => s.step e
  | clear => some s.clear
  | clearWith o => some (s.clearWith o)

/-- The states a machine comes to. -/
def RecycledBuilder.Reached (s : RecycledBuilder) : Prop :=
  ∃ o uses, List.foldlM Use.perform (create o) uses = some s

namespace RecycledBuilder

variable {s s' : RecycledBuilder} {o : Options} {e : XmlEvent} {events : List XmlEvent}

/-- No builder refers to an options object that is still to come. -/
structure Kept (s : RecycledBuilder) : Prop where
  sane : s.machine.Sane
  past : ∀ b, s.optionsOf b ≤ s.current

theorem Kept.optionsAt_le (hs : Kept s) (b : ℕ) : s.optionsAt b ≤ s.current := by
  unfold optionsAt
  split_ifs
  · exact hs.past b
  · exact le_rfl

theorem step_inv (hstep : s.step e = some s') :
    (∀ b, s.machine.readsOptions e = some b → s.optionsAt b = s.current) ∧
      ∃ m, s.machine.step s.options e = some m ∧ s' = s.follow m := by
  unfold step at hstep
  split_ifs at hstep with hread
  · obtain ⟨m, hm, rfl⟩ := Option.map_eq_some_iff.mp hstep
    refine ⟨fun b hb => ?_, m, hm, rfl⟩
    rw [hb] at hread
    exact beq_iff_eq.mp hread

theorem Kept.step (hs : Kept s) (hstep : s.step e = some s') : Kept s' := by
  obtain ⟨-, m, hm, rfl⟩ := step_inv hstep
  exact ⟨(step_sane hs.sane hm).1, hs.optionsAt_le⟩

theorem Kept.clear (hs : Kept s) : Kept s.clear := by
  obtain ⟨_, _, hfresh⟩ := clear_fresh hs.sane
  exact ⟨sane_of_fresh hfresh, hs.optionsAt_le⟩

theorem Kept.clearWith (hs : Kept s) (o : Options) : Kept (s.clearWith o) :=
  Kept.clear ⟨hs.sane, fun b => (hs.past b).trans (Nat.le_succ _)⟩

theorem Reached.kept (hs : s.Reached) : Kept s := by
  obtain ⟨o, uses, hrun⟩ := hs
  have hcreate : Kept (create o) := ⟨sane_create, fun _ => le_rfl⟩
  generalize create o = s₀ at hrun hcreate
  induction uses generalizing s₀ with
  | nil =>
    cases hrun
    exact hcreate
  | cons use uses ih =>
    obtain ⟨s₁, huse, hrest⟩ := Option.bind_eq_some_iff.mp hrun
    refine ih s₁ hrest ?_
    cases use with
    | event e => exact hcreate.step huse
    | clear =>
      cases huse
      exact hcreate.clear
    | clearWith o =>
      cases huse
      exact hcreate.clearWith o

theorem feed_cons (e : XmlEvent) (events : List XmlEvent) (s : RecycledBuilder) :
    s.feed (e :: events) = (s.step e).bind (feed events) := List.foldlM_cons

theorem feed_append (xs ys : List XmlEvent) (s : RecycledBuilder) :
    s.feed (xs ++ ys) = (s.feed xs).bind (feed ys) := List.foldlM_append

theorem feed_inv (hs : s.machine.Sane) (hfeed : s.feed events = some s') :
    s.machine.feed s.options events = some s'.machine ∧ s'.options = s.options ∧
      s'.current = s.current ∧
      s.machine.nextBuilder ≤ s'.machine.nextBuilder ∧ ∀ b < s.machine.nextBuilder, s'.optionsOf b =
        s.optionsOf b := by
  induction events generalizing s with
  | nil =>
    cases hfeed
    exact ⟨rfl, rfl, rfl, le_rfl, fun _ _ => rfl⟩
  | cons e events ih =>
    rw [feed_cons] at hfeed
    obtain ⟨s₁, hstep, hrest⟩ := Option.bind_eq_some_iff.mp hfeed
    obtain ⟨-, m, hm, rfl⟩ := step_inv hstep
    obtain ⟨hsane, hrec⟩ := step_sane hs hm
    obtain ⟨hfed, hoptions, hcurrent, hnext, hold⟩ := ih hsane hrest
    refine ⟨?_, hoptions, hcurrent, hrec.next.trans hnext, fun b hb => ?_⟩
    · rw [AnyXml2VarBuilder.feed, List.foldlM_cons]
      exact Option.bind_eq_some_iff.mpr ⟨m, hm, hfed⟩
    · exact (hold b (hb.trans_le hrec.next)).trans (if_pos hb)

def Live (s : RecycledBuilder) : Prop :=
  ∀ b, b = s.machine.rootVarBuilder ∨ b ∈ s.machine.varBuilderStack ++ s.machine.varBuilderCache →
    s.optionsAt b = s.current

theorem Live.reads (hl : Live s) {b : ℕ} (hread : s.machine.readsOptions e = some b) :
    s.optionsAt b = s.current := by
  cases e with
  | startElement el attrs =>
    simp only [readsOptions] at hread
    split_ifs at hread
    · cases hread
      exact hl _ (.inl rfl)
    · cases hread
      obtain ⟨hcache, hnew⟩ | ⟨b, cache, hcache, hnew⟩ := s.machine.newVarBuilder_cases
      · rw [hnew]
        exact if_neg (Nat.lt_irrefl _)
      · rw [hnew]
        exact hl b (.inr (by rw [hcache]; exact List.mem_append_right _ List.mem_cons_self))
  | text text => cases hread
  | endElement el =>
    simp only [readsOptions] at hread
    split at hread
    next last parent rest hstack =>
      split_ifs at hread
      cases hread
      exact hl b (.inr (by rw [hstack]; simp))
    next => cases hread

theorem Live.step (hl : Live s) (hs : s.machine.Sane) {m : AnyXml2VarBuilder}
    (hm : s.machine.step s.options e = some m) :
    s.step e = some (s.follow m) ∧ Live (s.follow m) := by
  obtain ⟨hsane, hrec⟩ := step_sane hs hm
  refine ⟨?_, fun b hb => ?_⟩
  · unfold RecycledBuilder.step
    rw [if_pos, hm]
    · rfl
    · cases hread : s.machine.readsOptions e with
      | none => rfl
      | some b => exact beq_iff_eq.mpr (hl.reads hread)
  · have hseen : s.optionsAt b = s.current := by
      obtain rfl | hb := hb
      · exact hl _ (.inl hrec.root)
      · obtain hold | hnew := hrec.pool b hb
        · exact hl b (.inr hold)
        · exact if_neg (Nat.not_lt.mpr hnew)
    change (if b < m.nextBuilder then s.optionsAt b else s.current) = s.current
    split_ifs
    · exact hseen
    · rfl

theorem Live.feed (hl : Live s) (hs : s.machine.Sane) {m : AnyXml2VarBuilder}
    (hfeed : s.machine.feed s.options events = some m) :
    ∃ s', s.feed events = some s' ∧ s'.machine = m := by
  induction events generalizing s with
  | nil =>
    cases hfeed
    exact ⟨s, rfl, rfl⟩
  | cons e events ih =>
    rw [AnyXml2VarBuilder.feed, List.foldlM_cons] at hfeed
    obtain ⟨m₁, hm₁, hrest⟩ := Option.bind_eq_some_iff.mp hfeed
    obtain ⟨hstep, hl₁⟩ := hl.step hs hm₁
    obtain ⟨s', hs', hmachine⟩ := ih hl₁ (step_sane hs hm₁).1 hrest
    refine ⟨s', ?_, hmachine⟩
    rw [feed_cons, hstep]
    exact hs'

theorem Kept.fresh (hs : Kept s) (o : Options) :
    ∃ dict textAddr, Fresh (s.clearWith o).machine dict textAddr :=
  clear_fresh hs.sane

theorem clearWith_live (hcache : s.machine.varBuilderCache = []) (o : Options) :
    Live (s.clearWith o) := by
  obtain ⟨-, hnew⟩ | ⟨b, cache, hcons, -⟩ := s.machine.newVarBuilder_cases
  case inr => cases hcache.symm.trans hcons
  have hroot : (s.clearWith o).machine.rootVarBuilder = s.machine.nextBuilder := by
    change s.machine.clear.rootVarBuilder = _
    rw [AnyXml2VarBuilder.clear, hnew]
  have hpool : (s.clearWith o).machine.varBuilderStack ++ (s.clearWith o).machine.varBuilderCache =
      [s.machine.nextBuilder] := by
    change s.machine.clear.varBuilderStack ++ s.machine.clear.varBuilderCache = _
    rw [AnyXml2VarBuilder.clear, hnew]
    change [s.machine.nextBuilder] ++ s.machine.varBuilderCache = _
    rw [hcache]
    rfl
  intro b hb
  have hb' : b = s.machine.nextBuilder := by
    obtain rfl | hb := hb
    · exact hroot
    · rw [hpool] at hb
      exact List.mem_singleton.mp hb
  subst hb'
  change (if _ then (if s.machine.nextBuilder < s.machine.nextBuilder then _ else s.current + 1)
    else s.current + 1) = _
  rw [if_neg (Nat.lt_irrefl _), ite_self]
  rfl

theorem Kept.stale (hs : Kept s) {b : ℕ} {cache : List ℕ}
    (hcache : s.machine.varBuilderCache = b :: cache) (o : Options) :
    (s.clearWith o).machine.rootVarBuilder = b ∧
      (s.clearWith o).optionsOf b ≠ (s.clearWith o).current := by
  have hb : b < s.machine.nextBuilder := hs.sane.known b (by rw [hcache]; simp)
  refine ⟨?_, ?_⟩
  · change s.machine.clear.rootVarBuilder = b
    rw [AnyXml2VarBuilder.clear, newVarBuilder, hcache]
  · change (if b < s.machine.nextBuilder then s.optionsOf b else s.current + 1) ≠ s.current + 1
    rw [if_pos hb]
    exact (Nat.lt_succ_of_le (hs.past b)).ne

theorem step_silent (hread : s.machine.readsOptions e = none) {m : AnyXml2VarBuilder}
    (hm : s.machine.step s.options e = some m) : s.step e = some (s.follow m) := by
  rw [step, hread, hm]
  rfl

theorem feed_texts {c : XmlContent} (hc : c.hasElements = false) (s : RecycledBuilder) :
    ∃ s', s.feed c.events = some s' ∧ s'.machine.varBuilderStack = s.machine.varBuilderStack ∧
      s'.options = s.options := by
  induction c generalizing s with
  | nil => exact ⟨s, rfl, rfl, rfl⟩
  | text t rest ih =>
    obtain ⟨s', hs', hstack, hoptions⟩ := ih hc (s.follow (s.machine.onText t))
    refine ⟨s', ?_, hstack, hoptions⟩
    rw [XmlContent.events, feed_cons, step_silent rfl rfl]
    exact hs'
  | element => cases hc

theorem feed_flat {dict textAddr : ℕ} (hfresh : Fresh s.machine dict textAddr)
    (hkey : s.options.attrkey ≠ []) {d : XmlDocument} (hattrs : d.attrs = [])
    (hbody : d.body.hasElements = false) {m : AnyXml2VarBuilder}
    (hfeed : s.machine.feed s.options d.events = some m) :
    ∃ s', s.feed d.events = some s' ∧ s'.machine = m := by
  obtain ⟨m₁, f, hstart, htop, -⟩ := hfresh.start hkey d.name d.attrs
  obtain ⟨s₂, hs₂, hstack, hoptions⟩ := feed_texts hbody (s.follow m₁)
  have hsane := (onStartElement_sane (sane_of_fresh hfresh) hstart).1
  obtain ⟨hfed, -⟩ := feed_inv (s := s.follow m₁) hsane hs₂
  have hend : s₂.machine.step s₂.options (.endElement d.name) = some m := by
    have hfed' : m₁.feed s.options d.body.events = some s₂.machine := hfed
    rw [XmlDocument.events, Nkit.feed_cons, AnyXml2VarBuilder.step, hstart, Option.bind_some,
      Nkit.feed_append, hfed', Option.bind_some, Nkit.feed_cons] at hfeed
    obtain ⟨m₂, hm₂, hnil⟩ := Option.bind_eq_some_iff.mp hfeed
    cases hnil
    rw [hoptions]
    exact hm₂
  have hsilent : s₂.machine.readsOptions (.endElement d.name) = none := by
    rw [readsOptions, hstack]
    change (match m₁.varBuilderStack with | _ :: parent :: _ => _ | _ => none) = none
    rw [htop.varBuilders]
  refine ⟨s₂.follow m, ?_, rfl⟩
  have hfirst : s.machine.readsOptions (.startElement d.name d.attrs) = none := by
    rw [readsOptions, hattrs]; rfl
  rw [XmlDocument.events, feed_cons, step_silent hfirst hstart, Option.bind_some, feed_append, hs₂,
    Option.bind_some, feed_cons, step_silent hsilent hend]
  rfl

theorem feed_stale {c : XmlContent} (hc : c.hasElements = true) {below : Below} {f : Frame}
    {spares : List ℕ} (htop : Top s.machine below f spares) (hsane : s.machine.Sane)
    (hkey : s.options.attrkey ≠ []) (hempty : f.entries = [])
    (hstale : s.optionsOf f.builder ≠ s.current) (post : List XmlEvent) :
    s.feed (c.events ++ post) = none := by
  have hb : ∀ {m : AnyXml2VarBuilder} {f : Frame}, Top m below f spares →
      f.builder < m.nextBuilder :=
    fun h => h.known _ (by rw [h.varBuilders]; exact List.mem_cons_self)
  induction c generalizing s f with
  | nil => cases hc
  | text t rest ih =>
    have hl := onText_leads htop t
    rw [XmlContent.events, List.cons_append, feed_cons, step_silent rfl rfl, Option.bind_some]
    refine ih hc hl.top (step_sane (o := s.options) (e := .text t) hsane rfl).1 hkey hempty ?_
    change s.optionsAt f.builder ≠ s.current
    rw [optionsAt, if_pos (hb htop)]
    exact hstale
  | element name attrs body rest =>
    rw [← Option.not_isSome_iff_eq_none, Option.isSome_iff_exists]
    rintro ⟨s', hfeed⟩
    rw [XmlContent.events, List.cons_append, feed_cons] at hfeed
    obtain ⟨s₁, hstep, hfeed⟩ := Option.bind_eq_some_iff.mp hfeed
    rw [List.append_assoc, feed_append] at hfeed
    obtain ⟨s₂, hbody, hfeed⟩ := Option.bind_eq_some_iff.mp hfeed
    rw [List.cons_append, feed_cons] at hfeed
    obtain ⟨s₃, hend, -⟩ := Option.bind_eq_some_iff.mp hfeed
    -- the machine before the end of the child: its parent still has an empty dict
    have hto : s.feed (.startElement name attrs :: body.events) = some s₂ := by
      rw [feed_cons, hstep]
      exact hbody
    obtain ⟨hmachine, hoptions, hcurrent, hnext, hold⟩ := feed_inv hsane hto
    obtain ⟨m₁, f₁, spares₁, hstart, htop₁, hheld, -⟩ := onStartElement_top hkey htop name attrs
    obtain ⟨m₂, f₂, spares₂, hreached⟩ := feed_content hkey body htop₁
    have hm₂ : m₂ = s₂.machine := by
      rw [Nkit.feed_cons, AnyXml2VarBuilder.step, hstart, Option.bind_some,
        hreached.fed] at hmachine
      exact Option.some.inj hmachine
    subst hm₂
    have hparent := hreached.leads.outer htop₁ hheld
    have hlookup : s₂.machine.objects.dictGet name (s₂.machine.builders f.builder).object =
        none := by
      rw [hparent.object]
      obtain ⟨hnone, -⟩ | ⟨_, _, -, hsome, -⟩ := hparent.dict.dictGet name
      · exact hnone
      · rw [hempty] at hsome
        cases hsome
    have hread : s₂.machine.readsOptions (.endElement name) = some f.builder := by
      rw [readsOptions, hreached.leads.top.varBuilders]
      change (if (s₂.machine.objects.dictGet name (s₂.machine.builders f.builder).object).isNone =
        true then
        some f.builder else none) = _
      rw [hlookup]
      rfl
    have hseen := (step_inv hend).1 f.builder hread
    have hlt := hb htop
    rw [optionsAt, if_pos (hlt.trans_le hnext), hold _ hlt, hcurrent] at hseen
    exact hstale hseen

theorem Kept.feed_none (hs : Kept s) (hcache : s.machine.varBuilderCache ≠ []) (o : Options)
    {d : XmlDocument} (hd : d.attrs ≠ [] ∨ d.body.hasElements = true) :
    (s.clearWith o).feed d.events = none := by
  obtain ⟨b, cache, hcache⟩ := List.exists_cons_of_ne_nil hcache
  obtain ⟨hroot, hstale⟩ := hs.stale hcache o
  obtain ⟨dict, textAddr, hfresh⟩ := hs.fresh o
  have hb : b < (s.clearWith o).machine.nextBuilder := by
    rw [← hroot]
    exact (sane_of_fresh hfresh).root
  have hkey : (s.clearWith o).options.attrkey ≠ [] := withDefaultKeys_attrkey o
  rw [XmlDocument.events, feed_cons]
  by_cases hattrs : d.attrs = []
  · obtain ⟨m, f, hstart, htop, -, hbuilder, -, -, -, hentries⟩ := hfresh.start hkey d.name d.attrs
    have hempty : f.entries = [] := by
      rw [hattrs] at hentries
      exact List.map_eq_nil_iff.mp hentries
    have hfirst : (s.clearWith o).machine.readsOptions (.startElement d.name d.attrs) = none := by
      rw [readsOptions, hattrs]
      rfl
    rw [step_silent hfirst hstart, Option.bind_some]
    refine feed_stale (s := (s.clearWith o).follow m) (hd.resolve_left (not_not_intro hattrs)) htop
      (onStartElement_sane (sane_of_fresh hfresh) hstart).1 hkey hempty ?_ _
    rw [hbuilder, hroot]
    change (s.clearWith o).optionsAt b ≠ (s.clearWith o).current
    rwa [optionsAt, if_pos hb]
  · have hread : (s.clearWith o).machine.readsOptions (.startElement d.name d.attrs) = some b := by
      rw [readsOptions, if_neg (by simpa using hattrs), if_pos hfresh.first, hroot]
    have hnone : (s.clearWith o).step (.startElement d.name d.attrs) = none := by
      rw [RecycledBuilder.step, hread]
      refine if_neg ?_
      rw [Option.all_some, beq_iff_eq, optionsAt, if_pos hb]
      exact hstale
    rw [hnone]
    rfl

/-- A document read after `Clear(o)` is read as by a new machine with `o`. -/
def ReadsAfresh (s : RecycledBuilder) (o : Options) (d : XmlDocument) : Prop :=
  ∃ s' s₀, (s.clearWith o).feed d.events = some s' ∧ (create o).feed d.events = some s₀ ∧
    s'.machine.rootName = s₀.machine.rootName ∧
    ∀ v, Reads s'.machine.objects ∅ s'.machine.var v ↔ Reads s₀.machine.objects ∅ s₀.machine.var v

theorem create_live (o : Options) : Live (create o) := fun _ _ => ite_self _

end RecycledBuilder

open RecycledBuilder in
/-- **A machine reads a document after `Clear(o)` as a new one does**, exactly if there is no
builder to recycle or the root of the document has neither attributes nor child elements. -/
theorem reads_afresh_iff {s : RecycledBuilder} (hs : s.Reached) (o : Options) (d : XmlDocument) :
    s.ReadsAfresh o d ↔ s.machine.varBuilderCache = [] ∨ d.attrs = [] ∧ d.body.hasElements =
      false := by
  have hkept := hs.kept
  constructor
  · rintro ⟨s', s₀, hfeed, -⟩
    by_contra hcond
    rw [not_or, not_and_or, Bool.not_eq_false] at hcond
    rw [hkept.feed_none hcond.1 o hcond.2] at hfeed
    cases hfeed
  · intro hcond
    have hkey := withDefaultKeys_attrkey o
    obtain ⟨dict, textAddr, hfresh⟩ := hkept.fresh o
    obtain ⟨m, hm, hname, hreads⟩ := hfresh.feed hkey d
    obtain ⟨m₀, hm₀, hname₀, hreads₀⟩ := fresh_create.feed hkey d
    obtain ⟨s₀, hs₀, rfl⟩ : ∃ s₀, (create o).feed d.events = some s₀ ∧ s₀.machine = m₀ :=
      (create_live o).feed sane_create hm₀
    obtain ⟨s', hs', rfl⟩ : ∃ s', (s.clearWith o).feed d.events = some s' ∧ s'.machine = m := by
      obtain hcache | ⟨hattrs, hbody⟩ := hcond
      · exact (clearWith_live hcache o).feed (sane_of_fresh hfresh) hm
      · exact feed_flat hfresh hkey hattrs hbody hm
    refine ⟨s', s₀, hs', hs₀, hname.trans hname₀.symm, fun v => ?_⟩
    constructor
    · intro hv
      rwa [hv.unique hreads]
    · intro hv
      rwa [hv.unique hreads₀]

/-- One document has been read, and `Clear()` has given its builder to the root of the next. -/
theorem reads_afresh_cleared :
    ∃ s : RecycledBuilder, s.Reached ∧ s.machine.nextBuilder = 1 ∧
      s.ReadsAfresh sampleOptions sampleDocument := by
  have hrun : List.foldlM Use.perform (RecycledBuilder.create sampleOptions)
      [.event (.startElement (ascii "a") []), .event (.endElement (ascii "a")), .clear] = some _ :=
        rfl
  exact ⟨_, ⟨sampleOptions, _, hrun⟩, rfl,
    (reads_afresh_iff ⟨sampleOptions, _, hrun⟩ _ _).mpr (.inl rfl)⟩

/-- After one document the builder of its root is recycled, with the options that were dropped. -/
theorem recycled_root_reads_freed_options :
    ∃ s : RecycledBuilder, s.Reached ∧ (s.clearWith sampleOptions).feed sampleDocument.events =
      none ∧
      ∃ s₀, (RecycledBuilder.create sampleOptions).feed sampleDocument.events = some s₀ := by
  have hrun : List.foldlM Use.perform (RecycledBuilder.create sampleOptions)
      (sampleDocument.events.map .event) = some _ := rfl
  exact ⟨_, ⟨sampleOptions, _, hrun⟩, rfl, _, rfl⟩

end Nkit
