import Nkit.Xml.Reading

/-! The stack machine against the reading.  The three stacks stay in step; each open element
owns its dict, the lists in it and its text, and a recycled builder or text belongs to nobody
else. -/

namespace Nkit
open OrderedMap AnyXml2VarBuilder

structure Frame where
  builder : ℕ
  dict : ℕ
  textAddr : ℕ
  entries : List (Bytes × Slot)
  text : Bytes
  simple : Bool

def Frame.addrs (f : Frame) : List ℕ := f.textAddr :: f.dict :: ownedLists f.entries

structure Frame.Holds (f : Frame) (m : Objects) (builders : ℕ → VarBuilder) (O : Set ℕ) : Prop where
  object : (builders f.builder).object = some f.dict
  dict : OpenDict m O f.dict f.entries
  text : m.objs f.textAddr = some (.str f.text)

structure Below where
  builders : List ℕ
  flags : List Bool
  texts : List Handle
  addrs : Set ℕ

def owned (R : Set ℕ) (l : List ℕ) : Set ℕ := {a | a ∈ R ∨ a ∈ l}

/-- The machine is inside the element `f`; `spares` are texts of closed elements. -/
structure Top (s : AnyXml2VarBuilder) (below : Below) (f : Frame) (spares : List ℕ) : Prop where
  varBuilders : s.varBuilderStack = f.builder :: below.builders
  simple : s.isSimpleElementStack = f.simple :: below.flags
  texts : s.currentTextStack = ⟨some f.textAddr, some f.textAddr :: below.texts, spares.map some⟩
  frame : f.Holds s.objects s.builders (owned below.addrs (f.addrs ++ spares))
  spare : ∀ a ∈ spares, ∃ t, s.objects.objs a = some (.str t)
  tracks : Tracks s.objects (owned below.addrs (f.addrs ++ spares))
  nodup : (f.addrs ++ spares).Nodup
  apart : ∀ a ∈ f.addrs ++ spares, a ∉ below.addrs
  pool : (s.varBuilderStack ++ s.varBuilderCache).Nodup
  known : ∀ b ∈ s.varBuilderStack ++ s.varBuilderCache, b < s.nextBuilder
  started : s.first = false

/-- From inside `f` to inside `f'`, the same element later on. -/
structure Leads (below : Below) (s : AnyXml2VarBuilder) (f : Frame) (spares : List ℕ)
    (s' : AnyXml2VarBuilder)
    (f' : Frame) (spares' : List ℕ) : Prop where
  top : Top s' below f' spares'
  touches : Touches {a | a ∈ f.addrs ++ spares} s.objects s'.objects
  within : Within s.objects {a | a ∈ f.addrs ++ spares} {a | a ∈ f'.addrs ++ spares'}
  builder : f'.builder = f.builder
  builders : ∀ b ∈ below.builders, s'.builders b = s.builders b
  root : s'.rootVarBuilder = s.rootVarBuilder
  name : s'.rootName = s.rootName

section Leads
variable {below : Below} {s s' s'' : AnyXml2VarBuilder} {f f' f'' : Frame}
  {spares spares' spares'' : List ℕ}

theorem Leads.refl (h : Top s below f spares) : Leads below s f spares s f spares :=
  ⟨h, Touches.refl _ _, Within.of_subset subset_rfl, rfl, fun _ _ => rfl, rfl, rfl⟩

theorem Leads.trans (h : Leads below s f spares s' f' spares')
    (h' : Leads below s' f' spares' s'' f'' spares'') :
    Leads below s f spares s'' f'' spares'' := by
  refine ⟨h'.top, h.touches.trans h'.touches h.within, ?_, h'.builder.trans h.builder, ?_,
    h'.root.trans h.root, h'.name.trans h.name⟩
  · intro a ha
    rcases h'.within a ha with hin | hge
    · exact h.within a hin
    · exact .inr (h.touches.next.trans hge)
  · exact fun b hb => (h'.builders b hb).trans (h.builders b hb)

theorem Frame.Holds.evolve {m m' : Objects} {O O' T : Set ℕ} {builders builders' : ℕ → VarBuilder}
    (h : f.Holds m builders O) (hm : Tracks m O) (ht : Touches T m m') (hT : T ⊆ O)
    (hw : Within m O O') (hown : ∀ a ∈ f.addrs, a ∈ O ∧ a ∉ T ∧ a ∈ O')
    (hbuilder : (builders' f.builder).object = (builders f.builder).object) :
    f.Holds m' builders' O' := by
  have hsame : ∀ a ∈ f.addrs, m'.objs a = m.objs a :=
    fun a ha => ht.same a (hm.live a (hown a ha).1) (hown a ha).2.1
  refine ⟨hbuilder.trans h.object, ?_, (hsame _ List.mem_cons_self).trans h.text⟩
  refine h.dict.evolve hm.bounded (ht.mono hT) hw fun a ha => ?_
  have hin : a ∈ f.addrs := List.mem_cons_of_mem _ ha
  exact ⟨hsame a hin, (hown a hin).2.2⟩

theorem editText_leads (h : Top s below f spares) (g : Bytes → Bytes) :
    Leads below s f spares { s with objects := s.objects.editString g s.currentTextStack.top }
      { f with text := g f.text } spares := by
  have hmem : f.textAddr ∈ f.addrs ++ spares := List.mem_cons_self
  have hO : f.textAddr ∈ owned below.addrs (f.addrs ++ spares) := .inr hmem
  have hlt := h.tracks.live _ hO
  rw [h.texts, editString_eq h.frame.text]
  have ht : Touches {f.textAddr} s.objects (s.objects.put f.textAddr (.str (g f.text))) :=
    touches_put (Set.mem_singleton _) _
  have hne : ∀ a ∈ f.dict :: ownedLists f.entries ++ spares, a ≠ f.textAddr := by
    rintro a ha rfl
    exact (List.nodup_cons.mp h.nodup).1 ha
  have hsub : ({f.textAddr} : Set ℕ) ⊆ {a | a ∈ f.addrs ++ spares} := by
    rintro a rfl
    exact hmem
  refine ⟨⟨h.varBuilders, h.simple, rfl, ⟨h.frame.object, ?_, Objects.put_objs ..⟩, ?_, ?_, h.nodup,
    h.apart, h.pool, h.known, h.started⟩, ht.mono hsub, Within.of_subset subset_rfl, rfl,
      fun _ _ => rfl, rfl, rfl⟩
  · refine h.frame.dict.evolve h.tracks.bounded (ht.mono ?_) (Within.of_subset subset_rfl)
      fun a ha => ?_
    · rintro a rfl
      exact hO
    · exact ⟨Objects.put_objs_ne (hne a (List.mem_append_left _ ha)) _, h.frame.dict.owned a ha⟩
  · intro a ha
    obtain ⟨t, hobj⟩ := h.spare a ha
    exact ⟨t, (Objects.put_objs_ne (hne a (List.mem_append_right _ ha)) _).trans hobj⟩
  · exact ⟨h.tracks.bounded.put hlt _, h.tracks.live⟩

theorem onText_leads (h : Top s below f spares) (text : Bytes) :
    Leads below s f spares (s.onText text) { f with text := f.text ++ text } spares :=
  editText_leads h (· ++ text)

theorem pushEmptyString_eq {m : Objects} {O : Set ℕ} (hm : Tracks m O) (top : Handle)
    (stack : List Handle) (hnodup : spares.Nodup)
    (hspare : ∀ a ∈ spares, a ∈ O ∧ ∃ t, m.objs a = some (.str t)) :
    ∃ a m' spares', StringStack.pushEmptyString m ⟨top, stack, spares.map some⟩ =
        (⟨some a, some a :: stack, spares'.map some⟩, m') ∧
      (a :: spares').Nodup ∧ (∀ x ∈ a :: spares', x ∈ spares ∨ m.next ≤ x) ∧
      m'.objs a = some (.str []) ∧ (∀ x ∈ a :: spares', ∃ t, m'.objs x = some (.str t)) ∧
      Touches {x | x ∈ spares} m m' ∧ m'.Bounded := by
  cases spares with
  | nil =>
    have hobj := m.alloc_objs (.str [])
    refine ⟨m.next, _, [], rfl, List.nodup_singleton _, fun x hx => ?_, hobj, fun x hx => ?_,
      touches_alloc _ m _, hm.bounded.alloc _⟩
    · exact .inr (List.mem_singleton.mp hx).ge
    · obtain rfl := List.mem_singleton.mp hx
      exact ⟨[], hobj⟩
  | cons a spares' =>
    obtain ⟨hO, t, hobj⟩ := hspare a List.mem_cons_self
    have hclear : m.clear (some a) = m.put a (.str []) := editString_eq hobj _
    refine ⟨a, m.put a (.str []), spares', ?_, hnodup, fun x hx => .inl hx, Objects.put_objs ..,
      fun x hx => ?_, touches_put List.mem_cons_self _, hm.bounded.put (hm.live a hO) _⟩
    · simp only [StringStack.pushEmptyString, List.map_cons, hclear]
    · by_cases hxa : x = a
      · subst hxa
        exact ⟨[], Objects.put_objs ..⟩
      · obtain ⟨t', hx'⟩ := (hspare x hx).2
        exact ⟨t', (Objects.put_objs_ne hxa _).trans hx'⟩

def Below.push (below : Below) (f : Frame) : Below :=
  ⟨f.builder :: below.builders, false :: below.flags, some f.textAddr :: below.texts,
    owned below.addrs f.addrs⟩

theorem newVarBuilder_eq (hpool : (s.varBuilderStack ++ s.varBuilderCache).Nodup)
    (hknown : ∀ b ∈ s.varBuilderStack ++ s.varBuilderCache, b < s.nextBuilder) :
    ∃ b builders next cache,
      s.newVarBuilder =
        (b, { s with builders := builders, nextBuilder := next, varBuilderCache := cache }) ∧
      (∀ b' ∈ s.varBuilderStack, builders b' = s.builders b') ∧
        (b :: s.varBuilderStack ++ cache).Nodup ∧
      ∀ b' ∈ b :: s.varBuilderStack ++ cache, b' < next := by
  rw [newVarBuilder]
  cases hcache : s.varBuilderCache with
  | nil =>
    rw [hcache, List.append_nil] at hpool hknown
    refine ⟨s.nextBuilder, Function.update s.builders s.nextBuilder .new, s.nextBuilder + 1, [], ?_,
      fun b' hb' => ?_, ?_, fun b' hb' => ?_⟩
    · rfl
    · exact Function.update_of_ne (hknown b' hb').ne _ _
    · rw [List.append_nil, List.nodup_cons]
      exact ⟨fun hin => absurd (hknown _ hin) (Nat.lt_irrefl _), hpool⟩
    · rw [List.append_nil] at hb'
      rcases List.mem_cons.mp hb' with rfl | hb'
      · exact Nat.lt_succ_self _
      · exact (hknown b' hb').trans (Nat.lt_succ_self _)
  | cons b cache =>
    rw [hcache] at hpool hknown
    refine ⟨b, s.builders, s.nextBuilder, cache, rfl, fun _ _ => rfl, ?_,
      fun b' hb' => hknown b' ?_⟩
    · exact (List.perm_middle.nodup_iff).mp hpool
    · exact List.perm_middle.symm.mem_iff.mp hb'

theorem onStartElement_top {o : Options} (hkey : o.attrkey ≠ []) (h : Top s below f spares)
    (el : Bytes) (attrs : List (Bytes × Bytes)) :
    ∃ s' f' spares', s.onStartElement o el attrs = some s' ∧ Top s' (below.push f) f' spares' ∧
      Frame.Holds f s'.objects s'.builders (owned (below.push f).addrs (f'.addrs ++ spares')) ∧
      Touches {a | a ∈ spares} s.objects s'.objects ∧
      Within s.objects {a | a ∈ spares} {a | a ∈ f'.addrs ++ spares'} ∧
      (∀ b ∈ s.varBuilderStack, s'.builders b = s.builders b) ∧
      s'.rootVarBuilder = s.rootVarBuilder ∧ s'.rootName = s.rootName ∧
      f'.simple = attrs.isEmpty ∧ f'.text = [] ∧ values f'.entries = storeAttrs o attrs [] := by
  obtain ⟨b, builders, next, cache, hnew, hbuilders, hpool, hknown⟩ :=
    newVarBuilder_eq h.pool h.known
  obtain ⟨hdict₁, hm₁⟩ := openDict_alloc h.tracks
  obtain ⟨builder, m₂, es, hattrs, hobj, hstep, hval⟩ := setAttrKey_step hkey attrs hdict₁ hm₁
    (b := ((builders b).initAsDict s.objects).1) rfl
  have ht₂ : Touches ∅ s.objects m₂ := by
    refine (touches_alloc ∅ s.objects _).trans hstep.touches fun a ha => ?_
    exact .inr (List.mem_singleton.mp ha).ge
  have hspare₂ : ∀ a ∈ spares, a ∈ owned below.addrs (f.addrs ++ spares) ∧
      ∃ t, m₂.objs a = some (.str t) := by
    intro a ha
    have hO : a ∈ owned below.addrs (f.addrs ++ spares) := .inr (List.mem_append_right _ ha)
    obtain ⟨t, hobj⟩ := h.spare a ha
    exact ⟨hO, t, (ht₂.same a (h.tracks.live a hO) (Set.notMem_empty a)).trans hobj⟩
  have hm₂ : Tracks m₂ (owned below.addrs (f.addrs ++ spares)) :=
    h.tracks.fresh ht₂ hstep.tracks.bounded
  have hnodup := (List.nodup_append.mp h.nodup).2.1
  obtain ⟨t, m₃, spares', hpush, hnodup', hmem, htext, hspare₃, ht₃, hb₃⟩ :=
    pushEmptyString_eq hm₂ (some f.textAddr) (some f.textAddr :: below.texts) hnodup hspare₂
  -- old addresses, those of the new dict, and those of the new text lie apart
  have hold : ∀ a ∈ owned below.addrs (f.addrs ++ spares), a < s.objects.next := h.tracks.live
  have hnew₂ : ∀ a ∈ s.objects.next :: ownedLists es, s.objects.next ≤ a ∧ a < m₂.next := by
    intro a ha
    refine ⟨?_, hstep.tracks.live a ?_⟩
    · rcases List.mem_cons.mp ha with rfl | ha
      · exact le_rfl
      · exact ((hstep.lists a ha).resolve_left List.not_mem_nil).trans' (Nat.le_succ _)
    · exact hstep.dict.owned a ha
  have hcases : ∀ a ∈ t :: s.objects.next :: ownedLists es ++ spares',
      a ∈ s.objects.next :: ownedLists es ∨ a ∈ t :: spares' := by
    intro a ha
    simp only [List.cons_append, List.mem_cons, List.mem_append] at ha ⊢
    tauto
  have hsep : ∀ a ∈ t :: spares', a ∉ owned below.addrs f.addrs ∧
      a ∉ s.objects.next :: ownedLists es := by
    intro a ha
    rcases hmem a ha with hspare | hge
    · refine ⟨?_, fun hin => absurd (hold a (.inr (List.mem_append_right _ hspare)))
        (Nat.not_lt.mpr (hnew₂ a hin).1)⟩
      rintro (hin | hin)
      · exact h.apart a (List.mem_append_right _ hspare) hin
      · exact (List.nodup_append.mp h.nodup).2.2 a hin a hspare rfl
    · refine ⟨fun hin => ?_, fun hin => absurd (hnew₂ a hin).2 (Nat.not_lt.mpr hge)⟩
      have hlt : a < s.objects.next := hold a (hin.imp_right (List.mem_append_left _))
      exact absurd (hlt.trans_le ht₂.next) (Nat.not_lt.mpr hge)
  have hapart : ∀ a ∈ t :: s.objects.next :: ownedLists es ++ spares', a ∉
      owned below.addrs f.addrs := by
    intro a ha
    rcases hcases a ha with hdict | htexts
    · exact fun hin =>
        absurd (hold a (hin.imp_right (List.mem_append_left _))) (Nat.not_lt.mpr (hnew₂ a hdict).1)
    · exact (hsep a htexts).1
  have hlive : ∀ a ∈ t :: s.objects.next :: ownedLists es ++ spares', a < m₃.next := by
    intro a ha
    rcases hcases a ha with hdict | htexts
    · exact (hnew₂ a hdict).2.trans_le ht₃.next
    · obtain ⟨t', ht'⟩ := hspare₃ a htexts
      exact hb₃.lt ht'
  have hnodup₃ : (t :: s.objects.next :: ownedLists es ++ spares').Nodup := by
    have happend : (s.objects.next :: ownedLists es ++ t :: spares').Nodup :=
      List.nodup_append.mpr ⟨hstep.dict.nodup, hnodup',
        fun a ha x hx hax => (hsep x hx).2 (hax ▸ ha)⟩
    exact List.perm_middle.nodup_iff.mp happend
  have ht : Touches {a | a ∈ spares} s.objects m₃ :=
    (ht₂.mono (Set.empty_subset _)).trans ht₃ (Within.of_subset subset_rfl)
  have hw : ∀ a ∈ t :: s.objects.next :: ownedLists es ++ spares', a ∈ spares ∨
      s.objects.next ≤ a := by
    intro a ha
    rcases hcases a ha with hdict | htexts
    · exact .inr (hnew₂ a hdict).1
    · exact (hmem a htexts).imp_right ht₂.next.trans
  have hne : ∀ b' ∈ s.varBuilderStack, b' ≠ b := by
    rintro b' hb' rfl
    exact (List.nodup_cons.mp hpool).1 (List.mem_append_left _ hb')
  have hbuilders' : ∀ b' ∈ s.varBuilderStack, Function.update builders b builder b' =
      s.builders b' :=
    fun b' hb' => (Function.update_of_ne (hne b' hb') _ _).trans (hbuilders b' hb')
  refine ⟨{ s with
      objects := m₃, builders := Function.update builders b builder, nextBuilder := next
      varBuilderCache := cache, isSimpleElementStack := attrs.isEmpty :: false :: below.flags
      varBuilderStack := b :: s.varBuilderStack
      currentTextStack := ⟨some t, some t :: some f.textAddr :: below.texts, spares'.map some⟩ },
    ⟨b, s.objects.next, t, es, [], attrs.isEmpty⟩, spares', ?_, ?_, ?_, ht, hw, hbuilders', rfl,
    rfl, rfl, rfl, hval⟩
  · have hinit : ((builders b).initAsDict s.objects).2 = (s.objects.alloc (.dict [])).2 := rfl
    simp [onStartElement, h.started, h.simple, hnew, hinit, hattrs, h.texts, hpush, setBuilder]
  · refine ⟨congrArg (b :: ·) h.varBuilders, rfl, rfl, ⟨?_, ?_, htext⟩,
      fun a ha => hspare₃ a (List.mem_cons_of_mem _ ha), ⟨hb₃, ?_⟩, hnodup₃, hapart, hpool, hknown,
        h.started⟩
    · show (Function.update builders b builder b).object = _
      rw [Function.update_self, hobj]
    · refine hstep.dict.evolve hstep.tracks.bounded (ht₃.mono fun a ha => ?_) ?_ fun a ha =>
        ⟨?_, ?_⟩
      · exact .inl (.inl (.inr (List.mem_append_right _ ha)))
      · rintro a (ha | ha)
        · exact .inl (.inl (.inl (ha.imp_right (List.mem_append_left _))))
        · rcases hcases a ha with hdict | htexts
          · exact .inl (hstep.dict.owned a hdict)
          · exact (hmem a htexts).imp_left fun hin =>
              .inl (.inl (.inr (List.mem_append_right _ hin)))
      · refine ht₃.same a (hnew₂ a ha).2 fun hin => ?_
        exact absurd (hold a (.inr (List.mem_append_right _ hin))) (Nat.not_lt.mpr (hnew₂ a ha).1)
      · exact .inr (List.mem_cons_of_mem _ (List.mem_append_left _ ha))
    · rintro a (ha | ha)
      · exact (hold a (ha.imp_right (List.mem_append_left _))).trans_le ht.next
      · exact hlive a ha
  · refine h.frame.evolve h.tracks ht (fun a ha => .inr (List.mem_append_right _ ha)) ?_
      (fun a ha => ⟨?_, ?_, ?_⟩) ?_
    · rintro a (ha | ha)
      · exact .inl (ha.imp_right (List.mem_append_left _))
      · exact (hw a ha).imp_left fun hin => .inr (List.mem_append_right _ hin)
    · exact .inr (List.mem_append_left _ ha)
    · exact fun hin => (List.nodup_append.mp h.nodup).2.2 a ha a hin rfl
    · exact .inl (.inr ha)
    · show (Function.update builders b builder f.builder).object = _
      rw [hbuilders' f.builder (by rw [h.varBuilders]; exact List.mem_cons_self)]

theorem Leads.outer (h : Top s (below.push f) f' spares)
    (hl : Leads (below.push f) s f' spares s' f'' spares')
    (hf : f.Holds s.objects s.builders (owned (below.push f).addrs (f'.addrs ++ spares))) :
    f.Holds s'.objects s'.builders (owned (below.push f).addrs (f''.addrs ++ spares')) := by
  refine hf.evolve h.tracks hl.touches (fun a ha => .inr ha) ?_
    (fun a ha => ⟨.inl (.inr ha), ?_, .inl (.inr ha)⟩) ?_
  · rintro a (ha | ha)
    · exact .inl (.inl ha)
    · exact (hl.within a ha).imp_left .inr
  · exact fun hin => h.apart a hin (.inr ha)
  · rw [hl.builders f.builder List.mem_cons_self]

theorem trim_leads (o : Options) (h : Top s below f spares) :
    Leads below s f spares
      (if o.trim then { s with objects := s.objects.trim o.whiteSpaces s.currentTextStack.top }
        else s)
      { f with text := o.trimmed f.text } spares := by
  unfold Options.trimmed
  split_ifs
  · exact editText_leads h _
  · exact Leads.refl h

theorem onEndElement_simple {o : Options} {s₁ : AnyXml2VarBuilder} {flags : List Bool}
    {texts : StringStack} {last parent : ℕ} {rest : List ℕ} {text : Bytes}
    (htrim :
      (if o.trim then { s with objects := s.objects.trim o.whiteSpaces s.currentTextStack.top }
      else s) = s₁) (htext : s₁.objects.string s₁.currentTextStack.top = some text)
    (hflags : s₁.isSimpleElementStack = true :: flags)
    (hstack : s₁.varBuilderStack = last :: parent :: rest)
    (hpop : s₁.currentTextStack.pop = some texts) (el : Bytes) :
    s.onEndElement o el = some { s₁ with
      objects := ((s₁.builders parent).appendTextToDictKeyList o el text s₁.objects).2
      builders := Function.update s₁.builders parent
        ((s₁.builders parent).appendTextToDictKeyList o el text s₁.objects).1
      varBuilderStack := parent :: rest, varBuilderCache := last :: s₁.varBuilderCache
      isSimpleElementStack := flags, currentTextStack := texts } := by
  simp [onEndElement, htrim, htext, hflags, popVarBuilderStack, hstack, popElement, setBuilder,
    hpop]

theorem onEndElement_dict {o : Options} {s₁ : AnyXml2VarBuilder} {flags : List Bool}
    {texts : StringStack} {last : ℕ} {rest : List ℕ} {text : Bytes} {m : Objects}
    {builders : ℕ → VarBuilder}
    (htrim :
      (if o.trim then { s with objects := s.objects.trim o.whiteSpaces s.currentTextStack.top }
      else s) = s₁) (htext : s₁.objects.string s₁.currentTextStack.top = some text)
    (hflags : s₁.isSimpleElementStack = false :: flags) (hstack : s₁.varBuilderStack = last :: rest)
    (hpop : s₁.currentTextStack.pop = some texts)
    (hset : (if text.isEmpty then (s₁.builders, s₁.objects)
      else (Function.update s₁.builders last
      ((s₁.builders last).setDictKeyText o.textkey text s₁.objects).1,
      ((s₁.builders last).setDictKeyText o.textkey text s₁.objects).2)) = (builders, m))
    (el : Bytes) :
    s.onEndElement o el = some { s₁ with
      objects := match rest with
        | [] => m
        | parent :: _ => (builders parent).appendToDictKeyList o el (builders last).object m
      builders := builders
      varBuilderStack := rest, varBuilderCache := last :: s₁.varBuilderCache
      isSimpleElementStack := flags, currentTextStack := texts } := by
  by_cases hempty : text = []
  · subst hempty
    cases hset
    cases rest <;>
      simp [onEndElement, htrim, htext, hflags, popVarBuilderStack, hstack, popElement, hpop]
  · rw [if_neg (by simpa using hempty)] at hset
    cases hset
    cases rest <;>
      simp [onEndElement, htrim, htext, hflags, popVarBuilderStack, hstack, popElement, setBuilder,
        hempty, hpop]

/-- The text of an element goes under `textkey` of its own dict. -/
theorem storeText_step {o : Options} (h : Top s below f spares) :
    ∃ builders m es, (if f.text.isEmpty then (s.builders, s.objects)
      else (Function.update s.builders f.builder
          ((s.builders f.builder).setDictKeyText o.textkey f.text s.objects).1,
        ((s.builders f.builder).setDictKeyText o.textkey f.text s.objects).2)) = (builders, m) ∧
      (builders f.builder).object = some f.dict ∧ (∀ b, b ≠ f.builder → builders b = s.builders b) ∧
      DictStep s.objects (owned below.addrs (f.addrs ++ spares)) f.dict f.entries m es ∧
      values es = if f.text.isEmpty then values f.entries
        else store o.textkey (.str f.text) (values f.entries) := by
  by_cases hempty : f.text.isEmpty = true
  · simp only [if_pos hempty]
    exact ⟨_, _, f.entries, rfl, h.frame.object, fun _ _ => rfl, .refl h.frame.dict h.tracks, rfl⟩
  · simp only [if_neg hempty]
    obtain ⟨b, m, es, heq, hobj, hstep, hval⟩ :=
      setDictKeyText_step h.frame.dict h.tracks h.frame.object o.textkey f.text
    rw [heq]
    refine ⟨_, _, es, rfl, ?_, fun b' hb' => Function.update_of_ne hb' _ _, hstep, hval⟩
    rw [Function.update_self]
    exact hobj

theorem adopt_top {m : Objects} {t : ℕ} {es : List (Bytes × Slot)}
    (hf : f.Holds m s.builders (owned (owned below.addrs f.addrs) (t :: spares)))
    (hnodup : (f.addrs ++ t :: spares).Nodup)
    (hapart : ∀ a ∈ f.addrs ++ t :: spares, a ∉ below.addrs)
    (hspare : ∀ a ∈ t :: spares, ∃ t, m.objs a = some (.str t))
    (hm : Tracks m (owned (owned below.addrs f.addrs) (t :: spares)))
    (hstep : DictStep m (owned (owned below.addrs f.addrs) (t :: spares)) f.dict f.entries s.objects
      es) (hvarBuilders : s.varBuilderStack = f.builder :: below.builders)
    (hsimple : s.isSimpleElementStack = false :: below.flags)
    (htexts : s.currentTextStack =
      ⟨some f.textAddr, some f.textAddr :: below.texts, (t :: spares).map some⟩)
    (hpool : (s.varBuilderStack ++ s.varBuilderCache).Nodup)
    (hknown : ∀ b ∈ s.varBuilderStack ++ s.varBuilderCache, b < s.nextBuilder)
    (hfirst : s.first = false) :
    Top s below { f with entries := es, simple := false } (t :: spares) := by
  have hlive : ∀ a ∈ f.addrs ++ t :: spares, a < m.next := by
    intro a ha
    refine hm.live a ?_
    rcases List.mem_append.mp ha with ha | ha
    · exact .inl (.inr ha)
    · exact .inr ha
  have hnodup' := List.nodup_append.mp hnodup
  have hold : ∀ a ∈ f.dict :: ownedLists f.entries, ∀ x ∈ f.textAddr :: t :: spares, a ≠ x := by
    rintro a ha x hx rfl
    rcases List.mem_cons.mp hx with rfl | hx
    · exact (List.nodup_cons.mp hnodup'.1).1 ha
    · exact hnodup'.2.2 a (List.mem_cons_of_mem _ ha) a hx rfl
  -- the step may have started a list of its own, at a new address
  have hmem : ∀ a ∈ f.dict :: ownedLists es, a ∈ f.dict :: ownedLists f.entries ∨ m.next ≤ a := by
    intro a ha
    rcases List.mem_cons.mp ha with rfl | ha
    · exact .inl List.mem_cons_self
    · exact (hstep.lists a ha).imp_left (List.mem_cons_of_mem _)
  have hlow : ∀ x ∈ f.textAddr :: t :: spares, x < m.next := by
    intro x hx
    refine hlive x ?_
    rcases List.mem_cons.mp hx with rfl | hx
    · exact List.mem_cons_self
    · exact List.mem_append_right _ hx
  have hsep : ∀ a ∈ f.dict :: ownedLists es, ∀ x ∈ f.textAddr :: t :: spares, a ≠ x := by
    rintro a ha x hx rfl
    rcases hmem a ha with hin | hge
    · exact hold a hin a hx rfl
    · exact absurd (hlow a hx) (Nat.not_lt.mpr hge)
  -- the texts are below the new addresses and apart from the old ones
  have hsame : ∀ x ∈ f.textAddr :: t :: spares, s.objects.objs x = m.objs x :=
    fun x hx => hstep.touches.same x (hlow x hx) fun hin => hold x hin x hx rfl
  have hsub : owned below.addrs (f.textAddr :: f.dict :: ownedLists es ++ t :: spares) ⊆
      owned (owned below.addrs f.addrs) (t :: spares) ∪ {a | a ∈ ownedLists es} := by
    rintro a (ha | ha)
    · exact .inl (.inl (.inl ha))
    · simp only [List.cons_append, List.mem_cons, List.mem_append] at ha
      rcases ha with rfl | rfl | ha | ha
      · exact .inl (.inl (.inr List.mem_cons_self))
      · exact .inl (.inl (.inr (List.mem_cons_of_mem _ List.mem_cons_self)))
      · exact .inr ha
      · exact .inl (.inr (List.mem_cons.mpr ha))
  refine ⟨hvarBuilders, hsimple, htexts, ⟨hf.object, ?_, ?_⟩, ?_, ?_, ?_, ?_, hpool, hknown, hfirst⟩
  · refine hstep.dict.shrink hstep.tracks.bounded hsub fun a ha => ?_
    exact .inr (List.mem_cons_of_mem _ (List.mem_append_left _ ha))
  · exact (hsame _ List.mem_cons_self).trans hf.text
  · intro a ha
    obtain ⟨t', ht'⟩ := hspare a ha
    exact ⟨t', (hsame a (List.mem_cons_of_mem _ ha)).trans ht'⟩
  · exact ⟨hstep.tracks.bounded, fun a ha => hstep.tracks.live a (hsub ha)⟩
  · refine List.nodup_append.mpr ⟨List.nodup_cons.mpr ⟨?_, hstep.dict.nodup⟩, hnodup'.2.1, ?_⟩
    · exact fun hin => hsep _ hin _ List.mem_cons_self rfl
    · intro a ha x hx
      rcases List.mem_cons.mp ha with rfl | ha
      · exact hnodup'.2.2 _ List.mem_cons_self x hx
      · exact hsep a ha x (List.mem_cons_of_mem _ hx)
  · intro a ha hbelow
    rcases List.mem_append.mp ha with ha | ha
    · rcases List.mem_cons.mp ha with rfl | ha
      · exact hapart _ List.mem_cons_self hbelow
      · rcases hmem a ha with hin | hge
        · exact hapart a (List.mem_append_left _ (List.mem_cons_of_mem _ hin)) hbelow
        · exact absurd (hm.live a (.inl (.inl hbelow))) (Nat.not_lt.mpr hge)
    · exact hapart a (List.mem_append_right _ ha) hbelow

def Below.rest (below : Below) (f : Frame) (t : ℕ) (spares : List ℕ) : Set ℕ :=
  owned (owned below.addrs f.addrs) (t :: spares)

theorem Below.rest_subset :
    below.rest f f'.textAddr spares ⊆ owned (below.push f).addrs (f'.addrs ++ spares) := by
  rintro a (ha | ha)
  · exact .inl ha
  · rcases List.mem_cons.mp ha with rfl | ha
    · exact .inr List.mem_cons_self
    · exact .inr (List.mem_append_right _ ha)

theorem Top.not_mem_rest (h : Top s (below.push f) f' spares) {a : ℕ}
    (ha : a ∈ f'.dict :: ownedLists f'.entries) :
    a ∉ below.rest f f'.textAddr spares := by
  obtain ⟨htext, hrest⟩ := List.nodup_cons.mp (show (f'.textAddr :: _).Nodup from h.nodup)
  rintro (hin | hin)
  · exact h.apart a (List.mem_append_left _ (List.mem_cons_of_mem _ ha)) hin
  · rcases List.mem_cons.mp hin with rfl | hin
    · exact htext (List.mem_append_left _ ha)
    · exact (List.nodup_append.mp hrest).2.2 a ha a hin rfl

theorem finish_top {o : Options} {m : Objects} {builders : ℕ → VarBuilder} {b : VarBuilder}
    {r : Handle} {v : Value} (h : Top s (below.push f) f' spares) (hnodup : f.addrs.Nodup)
    (hapart : ∀ a ∈ f.addrs, a ∉ below.addrs)
    (ht : Touches {a | a ∈ f'.dict :: ownedLists f'.entries} s.objects m) (hb : m.Bounded)
    (hf : f.Holds m builders (below.rest f f'.textAddr spares))
    (hr : Reads m (below.rest f f'.textAddr spares) r v) (hv : v.isList = false)
    (hobj : b.object = some f.dict) (el : Bytes) :
    ∃ es, values es = addChild o.explicitArray el v (values f.entries) ∧
      Top { s with
        objects := b.appendToDictKeyList o el r m, builders := builders
        varBuilderStack := f.builder :: below.builders,
        varBuilderCache := f'.builder :: s.varBuilderCache
        isSimpleElementStack := false :: below.flags
        currentTextStack :=
          ⟨some f.textAddr, some f.textAddr :: below.texts, (f'.textAddr :: spares).map some⟩ }
        below { f with entries := es, simple := false } (f'.textAddr :: spares) ∧
      Touches {a | a ∈ f.addrs ++ (f'.addrs ++ spares)} s.objects (b.appendToDictKeyList o el r m) ∧
      ∀ a ∈ ownedLists es, a ∈ ownedLists f.entries ∨ s.objects.next ≤ a := by
  have hsub : ∀ a ∈ f'.textAddr :: spares, a ∈ f'.addrs ++ spares := by
    intro a ha
    rcases List.mem_cons.mp ha with rfl | ha
    · exact List.mem_cons_self
    · exact List.mem_append_right _ ha
  have hm : Tracks m (below.rest f f'.textAddr spares) :=
    ⟨hb, fun a ha => (h.tracks.live a (Below.rest_subset ha)).trans_le ht.next⟩
  obtain ⟨es, hstep, hval⟩ := appendToDictKeyList_step hf.dict hm hobj hr hv el
  obtain ⟨htextNot, hdictNodup⟩ := List.nodup_cons.mp (show (f'.textAddr :: _).Nodup from h.nodup)
  refine ⟨es, hval, ?_, ?_, fun a ha => (hstep.lists a ha).imp_right ht.next.trans⟩
  · -- the text of the element that ended becomes a spare of the one around it
    refine adopt_top hf ?_ ?_ ?_ hm hstep rfl rfl rfl ?_ ?_ h.started
    · refine List.nodup_append.mpr ⟨hnodup, List.nodup_cons.mpr ⟨?_, ?_⟩, ?_⟩
      · exact fun hin => htextNot (List.mem_append_right _ hin)
      · exact (List.nodup_append.mp hdictNodup).2.1
      · rintro a ha x hx rfl
        exact h.apart a (hsub a hx) (.inr ha)
    · intro a ha hbelow
      rcases List.mem_append.mp ha with ha | ha
      · exact hapart a ha hbelow
      · exact h.apart a (hsub a ha) (.inl hbelow)
    · intro a ha
      have hobjs : m.objs a = s.objects.objs a :=
        ht.same a (h.tracks.live a (.inr (hsub a ha))) fun hin => h.not_mem_rest hin (.inr ha)
      rw [hobjs]
      rcases List.mem_cons.mp ha with rfl | ha
      · exact ⟨f'.text, h.frame.text⟩
      · exact h.spare a ha
    · have hpool := h.pool
      rw [h.varBuilders] at hpool
      exact List.perm_middle.nodup_iff.mpr hpool
    · intro b' hb'
      refine h.known b' ?_
      rw [h.varBuilders]
      exact List.perm_middle.mem_iff.mp hb'
  · refine (ht.mono fun a ha => ?_).trans hstep.touches fun a ha => .inl ?_
    · exact List.mem_append_right _ (List.mem_append_left _ (List.mem_cons_of_mem _ ha))
    · exact List.mem_append_left _ (List.mem_cons_of_mem _ ha)

theorem Frame.Holds.rest {m : Objects} (builders : ℕ → VarBuilder)
    (h : Top s (below.push f) f' spares)
    (hf : f.Holds s.objects s.builders (owned (below.push f).addrs (f'.addrs ++ spares)))
    (ht : Touches {a | a ∈ f'.dict :: ownedLists f'.entries} s.objects m)
    (hobj : (builders f.builder).object = (s.builders f.builder).object) :
    f.Holds m builders (below.rest f f'.textAddr spares) := by
  refine hf.evolve h.tracks ht
    (fun a ha => .inr (List.mem_append_left _ (List.mem_cons_of_mem _ ha))) ?_
    (fun a ha => ⟨.inl (.inr ha), fun hin => ?_, .inl (.inr ha)⟩) hobj
  · rintro a (ha | ha)
    · exact .inl (.inl ha)
    · rcases List.mem_cons.mp ha with rfl | ha
      · exact .inl (.inr List.mem_cons_self)
      · exact .inl (.inr (List.mem_append_right _ ha))
  · exact h.apart a (List.mem_append_left _ (List.mem_cons_of_mem _ hin)) (.inr ha)

theorem endSimple_top {o : Options} (h : Top s (below.push f) f' spares)
    (hf : f.Holds s.objects s.builders (owned (below.push f).addrs (f'.addrs ++ spares)))
    (hnodup : f.addrs.Nodup) (hapart : ∀ a ∈ f.addrs, a ∉ below.addrs) (el : Bytes) :
    ∃ es, values es = addChild o.explicitArray el (.str f'.text) (values f.entries) ∧
      Top { s with
        objects := ((s.builders f.builder).appendTextToDictKeyList o el f'.text s.objects).2
        builders := Function.update s.builders f.builder
          ((s.builders f.builder).appendTextToDictKeyList o el f'.text s.objects).1
        varBuilderStack := f.builder :: below.builders,
        varBuilderCache := f'.builder :: s.varBuilderCache
        isSimpleElementStack := false :: below.flags
        currentTextStack :=
          ⟨some f.textAddr, some f.textAddr :: below.texts, (f'.textAddr :: spares).map some⟩ }
        below { f with entries := es, simple := false } (f'.textAddr :: spares) ∧
      Touches {a | a ∈ f.addrs ++ (f'.addrs ++ spares)} s.objects
        ((s.builders f.builder).appendTextToDictKeyList o el f'.text s.objects).2 ∧
      ∀ a ∈ ownedLists es, a ∈ ownedLists f.entries ∨ s.objects.next ≤ a := by
  obtain ⟨hread, ht, hm⟩ :=
    initAsString_reads h.tracks f'.text ((s.builders f.builder).stringBuilder.getD .new)
  have ht' := ht.mono (Set.empty_subset {a | a ∈ f'.dict :: ownedLists f'.entries})
  have hf' := Frame.Holds.rest (Function.update s.builders f.builder
    ((s.builders f.builder).appendTextToDictKeyList o el f'.text s.objects).1) h hf ht' (by
      rw [Function.update_self]
      rfl)
  have hread' := hread.evolve hm.bounded (Touches.refl _ _) (Within.of_subset Below.rest_subset)
  exact finish_top h hnodup hapart ht' hm.bounded hf' hread' rfl hf.object el

theorem endDict_top {o : Options} {builders : ℕ → VarBuilder} {m : Objects}
    {es' : List (Bytes × Slot)} (h : Top s (below.push f) f' spares)
    (hf : f.Holds s.objects s.builders (owned (below.push f).addrs (f'.addrs ++ spares)))
    (hnodup : f.addrs.Nodup) (hapart : ∀ a ∈ f.addrs, a ∉ below.addrs)
    (hbuilders : builders f.builder = s.builders f.builder)
    (hstep : DictStep s.objects (owned (below.push f).addrs (f'.addrs ++ spares)) f'.dict f'.entries
      m es') (el : Bytes) :
    ∃ es, values es = addChild o.explicitArray el (.dict (values es')) (values f.entries) ∧
      Top { s with
        objects := (builders f.builder).appendToDictKeyList o el (some f'.dict) m,
        builders := builders
        varBuilderStack := f.builder :: below.builders,
        varBuilderCache := f'.builder :: s.varBuilderCache
        isSimpleElementStack := false :: below.flags
        currentTextStack :=
          ⟨some f.textAddr, some f.textAddr :: below.texts, (f'.textAddr :: spares).map some⟩ }
        below { f with entries := es, simple := false } (f'.textAddr :: spares) ∧
      Touches {a | a ∈ f.addrs ++ (f'.addrs ++ spares)} s.objects
        ((builders f.builder).appendToDictKeyList o el (some f'.dict) m) ∧
      ∀ a ∈ ownedLists es, a ∈ ownedLists f.entries ∨ s.objects.next ≤ a := by
  have hf' := Frame.Holds.rest builders h hf hstep.touches (by rw [hbuilders])
  refine finish_top h hnodup hapart hstep.touches hstep.tracks.bounded hf' ?_ rfl hf'.object el
  refine hstep.dict.close hstep.tracks.bounded
    (Within.of_subset fun a ha => .inl (Below.rest_subset ha)) ?_
  intro a ha hin
  have hold : a ∈ f'.dict :: ownedLists f'.entries ∨ s.objects.next ≤ a := by
    rcases List.mem_cons.mp ha with rfl | ha
    · exact .inl List.mem_cons_self
    · exact (hstep.lists a ha).imp_left (List.mem_cons_of_mem _)
  rcases hold with hold | hge
  · exact h.not_mem_rest hold hin
  · exact absurd (h.tracks.live a (Below.rest_subset hin)) (Nat.not_lt.mpr hge)

def elementValue (o : Options) (f : Frame) : Value :=
  if f.simple then .str (o.trimmed f.text) else .dict (storeText o f.text (values f.entries))

theorem onEndElement_top {o : Options} (h : Top s (below.push f) f' spares)
    (hf : f.Holds s.objects s.builders (owned (below.push f).addrs (f'.addrs ++ spares)))
    (hnodup : f.addrs.Nodup) (hapart : ∀ a ∈ f.addrs, a ∉ below.addrs) (el : Bytes) :
    ∃ s' es, s.onEndElement o el = some s' ∧
      values es = addChild o.explicitArray el (elementValue o f') (values f.entries) ∧
      Top s' below { f with entries := es, simple := false } (f'.textAddr :: spares) ∧
      Touches {a | a ∈ f.addrs ++ (f'.addrs ++ spares)} s.objects s'.objects ∧
      (∀ a ∈ ownedLists es, a ∈ ownedLists f.entries ∨ s.objects.next ≤ a) ∧
      (∀ b ∈ below.builders, s'.builders b = s.builders b) ∧
      s'.rootVarBuilder = s.rootVarBuilder ∧ s'.rootName = s.rootName := by
  have hl := trim_leads o h
  have hf₁ := hl.outer h hf
  have h₁ := hl.top
  generalize htrim : (if o.trim then
    { s with objects := s.objects.trim o.whiteSpaces s.currentTextStack.top } else s) = s₁
      at hl hf₁ h₁
  have htext : s₁.objects.string s₁.currentTextStack.top = some (o.trimmed f'.text) := by
    rw [h₁.texts]
    simp only [Objects.string, Objects.get, Option.bind_some, h₁.frame.text]
  have hpop : s₁.currentTextStack.pop =
      some ⟨some f.textAddr, some f.textAddr :: below.texts, (f'.textAddr :: spares).map some⟩ := by
    rw [h₁.texts]
    rfl
  have hpool : (f'.builder :: f.builder :: below.builders ++ s₁.varBuilderCache).Nodup := by
    have hpool := h₁.pool
    rw [h₁.varBuilders] at hpool
    exact hpool
  have hkept : ∀ b ∈ below.builders, b ≠ f.builder ∧ b ≠ f'.builder := by
    intro b hb
    obtain ⟨hnot', hpool⟩ := List.nodup_cons.mp hpool
    obtain ⟨hnot, -⟩ := List.nodup_cons.mp hpool
    refine ⟨?_, ?_⟩
    · rintro rfl
      exact hnot (List.mem_append_left _ hb)
    · rintro rfl
      exact hnot' (List.mem_cons_of_mem _ (List.mem_append_left _ hb))
  have hinner : f.builder ≠ f'.builder := by
    intro heq
    exact (List.nodup_cons.mp hpool).1 (heq ▸ List.mem_cons_self)
  -- what the rest of the step touches was owned by the two elements before
  have htrans : ∀ {m : Objects}, Touches {a | a ∈ f.addrs ++ (f'.addrs ++ spares)} s₁.objects m →
      Touches {a | a ∈ f.addrs ++ (f'.addrs ++ spares)} s.objects m := by
    intro m ht
    refine (hl.touches.mono fun a ha => List.mem_append_right _ ha).trans ht
      (Within.of_subset subset_rfl)
  cases hsimple : f'.simple with
  | true =>
    have heq := onEndElement_simple htrim htext (h₁.simple.trans (by rw [hsimple])) h₁.varBuilders
      hpop el
    obtain ⟨es, hval, htop, ht, hlists⟩ := endSimple_top h₁ hf₁ hnodup hapart el
    refine ⟨_, es, heq, ?_, htop, htrans ht,
      fun a ha => (hlists a ha).imp_right hl.touches.next.trans, ?_, hl.root, hl.name⟩
    · rw [hval, elementValue, if_pos hsimple]
    · intro b hb
      refine (Function.update_of_ne (hkept b hb).1 _ _).trans (hl.builders b ?_)
      exact List.mem_cons_of_mem _ hb
  | false =>
    obtain ⟨builders, m, es', hset, hobj, hbuilders, hstep, hval'⟩ := storeText_step (o := o) h₁
    have heq := onEndElement_dict htrim htext (h₁.simple.trans (by rw [hsimple])) h₁.varBuilders
      hpop hset el
    rw [hobj] at heq
    obtain ⟨es, hval, htop, ht, hlists⟩ :=
      endDict_top (o := o) h₁ hf₁ hnodup hapart (hbuilders f.builder hinner) hstep el
    refine ⟨_, es, heq, ?_, htop, htrans ht,
      fun a ha => (hlists a ha).imp_right hl.touches.next.trans, ?_, hl.root, hl.name⟩
    · rw [hval, elementValue, if_neg (by rw [hsimple]; exact Bool.false_ne_true), hval']
      rfl
    · intro b hb
      exact (hbuilders b (hkept b hb).2).trans (hl.builders b (List.mem_cons_of_mem _ hb))

theorem feed_append (o : Options) (xs ys : List XmlEvent) (s : AnyXml2VarBuilder) :
    s.feed o (xs ++ ys) = (s.feed o xs).bind (feed o ys) := List.foldlM_append

theorem feed_cons (o : Options) (x : XmlEvent) (xs : List XmlEvent) (s : AnyXml2VarBuilder) :
    s.feed o (x :: xs) = (s.step o x).bind (feed o xs) := List.foldlM_cons

/-- What the machine makes of a content inside an element. -/
structure Reached (o : Options) (c : XmlContent) (below : Below) (s : AnyXml2VarBuilder) (f : Frame)
    (spares : List ℕ) (s' : AnyXml2VarBuilder) (f' : Frame) (spares' : List ℕ) : Prop where
  leads : Leads below s f spares s' f' spares'
  fed : s.feed o c.events = some s'
  entries : values f'.entries = c.addTo o (values f.entries)
  text : f'.text = f.text ++ c.characters
  simple : f'.simple = (f.simple && !c.hasElements)

theorem element_leads {o : Options} (hkey : o.attrkey ≠ []) (h : Top s below f spares)
    (name : Bytes) (attrs : List (Bytes × Bytes)) (body : XmlContent)
    (ih : ∀ {below : Below} {s : AnyXml2VarBuilder} {f : Frame} {spares : List ℕ},
      Top s below f spares → ∃ s' f' spares', Reached o body below s f spares s' f' spares') :
    ∃ s' es spares', s.feed o (.startElement name attrs :: (body.events ++ [.endElement name])) =
      some s' ∧
      Leads below s f spares s' { f with entries := es, simple := false } spares' ∧
      values es = addChild o.explicitArray name
        (if attrs.isEmpty && !body.hasElements then .str (o.trimmed body.characters)
          else .dict (storeText o body.characters (body.addTo o (storeAttrs o attrs []))))
            (values f.entries) := by
  obtain ⟨s₁, f₁, spares₁, hstart, h₁, hf₁, ht₁, hw₁, hb₁, hroot₁, hname₁, hsimple₁, htext₁,
      hval₁⟩ :=
    onStartElement_top hkey h name attrs
  obtain ⟨s₂, f₂, spares₂, hbody⟩ := ih h₁
  have hf₂ := hbody.leads.outer h₁ hf₁
  obtain ⟨hnodup, -⟩ := List.nodup_append.mp h.nodup
  obtain ⟨s₃, es, hend, hval₃, h₃, ht₃, hlists₃, hb₃, hroot₃, hname₃⟩ :=
    onEndElement_top (o := o) hbody.leads.top hf₂ hnodup
    (fun a ha => h.apart a (List.mem_append_left _ ha)) name
  -- start and body write to the spares of `s` only; the end gives the value to `f`
  have ht₂ : Touches {a | a ∈ spares} s.objects s₂.objects := ht₁.trans hbody.leads.touches hw₁
  have hw₂ : Within s.objects {a | a ∈ spares} {a | a ∈ f₂.addrs ++ spares₂} := by
    intro a ha
    rcases hbody.leads.within a ha with hin | hge
    · exact hw₁ a hin
    · exact .inr (ht₁.next.trans hge)
  refine ⟨s₃, es, _, ?_, ⟨h₃, ?_, ?_, rfl, ?_, ?_, ?_⟩, ?_⟩
  · rw [feed_cons, step, hstart, Option.bind_some, feed_append, hbody.fed, Option.bind_some,
      feed_cons, step, hend]
    rfl
  · refine (ht₂.mono fun a ha => List.mem_append_right _ ha).trans ht₃ fun a ha => ?_
    rcases List.mem_append.mp ha with ha | ha
    · exact .inl (List.mem_append_left _ ha)
    · exact (hw₂ a ha).imp_left (List.mem_append_right _)
  · intro a ha
    rcases List.mem_append.mp ha with ha | ha
    · rcases List.mem_cons.mp ha with rfl | ha
      · exact .inl List.mem_cons_self
      · rcases List.mem_cons.mp ha with rfl | ha
        · exact .inl (List.mem_cons_of_mem _ List.mem_cons_self)
        · refine (hlists₃ a ha).imp (fun hin => ?_) ht₂.next.trans
          exact List.mem_append_left _ (List.mem_cons_of_mem _ (List.mem_cons_of_mem _ hin))
    · refine (hw₂ a ?_).imp_left (List.mem_append_right _)
      rcases List.mem_cons.mp ha with rfl | ha
      · exact List.mem_cons_self
      · exact List.mem_append_right _ ha
  · intro b hb
    have hb' : b ∈ s.varBuilderStack := by
      rw [h.varBuilders]
      exact List.mem_cons_of_mem _ hb
    rw [hb₃ b hb, hbody.leads.builders b (List.mem_cons_of_mem _ hb), hb₁ b hb']
  · rw [hroot₃, hbody.leads.root, hroot₁]
  · rw [hname₃, hbody.leads.name, hname₁]
  · rw [hval₃, elementValue, hbody.simple, hbody.text, hbody.entries, hval₁, htext₁, hsimple₁]
    rfl

theorem feed_content {o : Options} (hkey : o.attrkey ≠ []) (c : XmlContent)
    (h : Top s below f spares) :
    ∃ s' f' spares', Reached o c below s f spares s' f' spares' := by
  induction c generalizing below s f spares with
  | nil =>
    refine ⟨s, f, spares, Leads.refl h, rfl, rfl, ?_, ?_⟩
    · exact (List.append_nil _).symm
    · exact (Bool.and_true _).symm
  | text t rest ih =>
    have hl := onText_leads h t
    obtain ⟨s', f', spares', hrest⟩ := ih hl.top
    refine ⟨s', f', spares', hl.trans hrest.leads, ?_, hrest.entries, ?_, hrest.simple⟩
    · rw [XmlContent.events, feed_cons]
      exact hrest.fed
    · rw [hrest.text, XmlContent.characters, List.append_assoc]
  | element name attrs body rest ihbody ihrest =>
    obtain ⟨s₁, es, spares₁, hfed, hl, hval⟩ := element_leads hkey h name attrs body ihbody
    obtain ⟨s', f', spares', hrest⟩ := ihrest hl.top
    refine ⟨s', f', spares', hl.trans hrest.leads, ?_, ?_, hrest.text, ?_⟩
    · have hevents : (XmlContent.element name attrs body rest).events =
          (.startElement name attrs :: (body.events ++ [.endElement name])) ++ rest.events := by
        simp [XmlContent.events]
      rw [hevents, feed_append, hfed, Option.bind_some, hrest.fed]
    · rw [hrest.entries, XmlContent.addTo, hval]
    · rw [hrest.simple, XmlContent.hasElements, Bool.false_and, Bool.not_true, Bool.and_false]

end Leads

structure Fresh (s : AnyXml2VarBuilder) (dict textAddr : ℕ) : Prop where
  varBuilders : s.varBuilderStack = [s.rootVarBuilder]
  simple : s.isSimpleElementStack = [false]
  texts : s.currentTextStack = ⟨some textAddr, [some textAddr], []⟩
  object : (s.builders s.rootVarBuilder).object = some dict
  dict : s.objects.objs dict = some (.dict [])
  text : s.objects.objs textAddr = some (.str [])
  bounded : s.objects.Bounded
  pool : (s.varBuilderStack ++ s.varBuilderCache).Nodup
  known : ∀ b ∈ s.varBuilderStack ++ s.varBuilderCache, b < s.nextBuilder
  first : s.first = true

theorem fresh_create : Fresh create 0 1 where
  varBuilders := rfl
  simple := rfl
  texts := rfl
  object := rfl
  dict := rfl
  text := rfl
  bounded := (Objects.Bounded.alloc (m := Objects.empty) (fun _ _ => rfl) _).alloc _
  pool := List.nodup_singleton 0
  known b hb := by
    obtain rfl := List.mem_singleton.mp hb
    exact Nat.zero_lt_one
  first := rfl

section Fresh
variable {o : Options} {s : AnyXml2VarBuilder} {dict textAddr : ℕ}

theorem Fresh.start (hs : Fresh s dict textAddr) (hkey : o.attrkey ≠ []) (el : Bytes)
    (attrs : List (Bytes × Bytes)) :
    ∃ s' f, s.onStartElement o el attrs = some s' ∧ Top s' ⟨[], [], [], ∅⟩ f [] ∧
      s'.rootVarBuilder = s.rootVarBuilder ∧ f.builder = s.rootVarBuilder ∧ s'.rootName = el ∧
        f.simple = false ∧
      f.text = [] ∧ values f.entries = storeAttrs o attrs [] := by
  have hlive := hs.bounded.lt hs.dict
  have hliveText := hs.bounded.lt hs.text
  have hne : textAddr ≠ dict := by
    rintro rfl
    cases hs.dict.symm.trans hs.text
  have hm : Tracks s.objects (owned ∅ [textAddr, dict]) := by
    refine ⟨hs.bounded, ?_⟩
    rintro a (ha | ha)
    · cases ha
    · rcases List.mem_cons.mp ha with rfl | ha
      · exact hliveText
      · obtain rfl := List.mem_singleton.mp ha
        exact hlive
  have hdict : OpenDict s.objects (owned ∅ [textAddr, dict]) dict [] := by
    refine ⟨⟨[], hs.dict, .nil⟩, sorted_nil _, ?_, List.nodup_singleton _⟩
    intro a ha
    exact .inr (List.mem_cons_of_mem _ ha)
  obtain ⟨b, m, es, hattrs, hobj, hstep, hval⟩ :=
    setAttrKey_step hkey attrs hdict hm (b := s.builders s.rootVarBuilder) hs.object
  have hlists : ∀ a ∈ ownedLists es, s.objects.next ≤ a :=
    fun a ha => (hstep.lists a ha).resolve_left List.not_mem_nil
  have htext : textAddr ∉ dict :: ownedLists es := by
    intro hin
    rcases List.mem_cons.mp hin with hin | hin
    · exact hne hin
    · exact absurd hliveText (Nat.not_lt.mpr (hlists textAddr hin))
  have hsub : owned ∅ (textAddr :: dict :: ownedLists es ++ []) ⊆
      owned ∅ [textAddr, dict] ∪ {a | a ∈ ownedLists es} := by
    rintro a (ha | ha)
    · cases ha
    · simp only [List.append_nil, List.mem_cons] at ha
      rcases ha with rfl | rfl | ha
      · exact .inl (.inr List.mem_cons_self)
      · exact .inl (.inr (List.mem_cons_of_mem _ List.mem_cons_self))
      · exact .inr ha
  refine ⟨{ s.setBuilder s.rootVarBuilder b m with rootName := el, first := false },
    ⟨s.rootVarBuilder, dict, textAddr, es, [], false⟩, ?_, ?_, rfl, rfl, rfl, rfl, rfl, hval⟩
  · rw [onStartElement, if_pos hs.first, hattrs]
    rfl
  · refine ⟨hs.varBuilders, hs.simple, hs.texts, ⟨?_, ?_, ?_⟩,
      fun a ha => absurd ha List.not_mem_nil, ?_, ?_, fun a _ => id, hs.pool, hs.known, rfl⟩
    · show (Function.update s.builders s.rootVarBuilder b s.rootVarBuilder).object = _
      rw [Function.update_self, hobj]
    · refine hstep.dict.shrink hstep.tracks.bounded hsub fun a ha => ?_
      exact .inr (List.mem_append_left _ (List.mem_cons_of_mem _ ha))
    · refine (hstep.touches.same textAddr hliveText fun hin => ?_).trans hs.text
      exact hne (by simpa [ownedLists] using hin)
    · exact ⟨hstep.tracks.bounded, fun a ha => hstep.tracks.live a (hsub ha)⟩
    · rw [List.append_nil]
      exact List.nodup_cons.mpr ⟨htext, hstep.dict.nodup⟩

end Fresh

theorem end_root {o : Options} {s : AnyXml2VarBuilder} {f : Frame} {spares : List ℕ}
    (h : Top s ⟨[], [], [], ∅⟩ f spares) (hsimple : f.simple = false)
    (hroot : s.rootVarBuilder = f.builder) (el : Bytes) :
    ∃ s', s.onEndElement o el = some s' ∧ s'.rootName = s.rootName ∧
      Reads s'.objects ∅ s'.var (.dict (storeText o f.text (values f.entries))) := by
  have hl := trim_leads o h
  have h₁ := hl.top
  generalize htrim : (if o.trim then
    { s with objects := s.objects.trim o.whiteSpaces s.currentTextStack.top } else s) = s₁ at hl h₁
  have htext : s₁.objects.string s₁.currentTextStack.top = some (o.trimmed f.text) := by
    rw [h₁.texts]
    simp only [Objects.string, Objects.get, Option.bind_some, h₁.frame.text]
  have hpop : s₁.currentTextStack.pop =
      some ⟨some f.textAddr, [], (f.textAddr :: spares).map some⟩ := by
    rw [h₁.texts]
    rfl
  obtain ⟨builders, m, es, hset, hobj, -, hstep, hval⟩ := storeText_step (o := o) h₁
  refine ⟨_, onEndElement_dict htrim htext (h₁.simple.trans (by rw [hsimple])) h₁.varBuilders hpop
    hset el, hl.name, ?_⟩
  have hvar : (builders s₁.rootVarBuilder).object = some f.dict := by
    rw [hl.root, hroot]
    exact hobj
  show Reads m ∅ (builders s₁.rootVarBuilder).object _
  rw [hvar, storeText, ← hval]
  exact hstep.dict.close hstep.tracks.bounded (Within.of_subset (Set.empty_subset _)) fun a _ =>
    Set.notMem_empty a

theorem Fresh.feed {o : Options} {s : AnyXml2VarBuilder} {dict textAddr : ℕ}
    (hs : Fresh s dict textAddr) (hkey : o.attrkey ≠ []) (d : XmlDocument) :
    ∃ s', s.feed o d.events = some s' ∧ s'.rootName = d.name ∧
      Reads s'.objects ∅ s'.var (d.read o) := by
  obtain ⟨s₁, f₁, hstart, h₁, hroot₁, hbuilder₁, hname₁, hsimple₁, htext₁, hval₁⟩ :=
    hs.start hkey d.name d.attrs
  obtain ⟨s₂, f₂, spares₂, hbody⟩ := feed_content hkey d.body h₁
  have hsimple₂ : f₂.simple = false := by rw [hbody.simple, hsimple₁, Bool.false_and]
  have hroot₂ : s₂.rootVarBuilder = f₂.builder := by
    rw [hbody.leads.root, hroot₁, hbody.leads.builder, hbuilder₁]
  obtain ⟨s₃, hend, hname₃, hreads⟩ := end_root (o := o) hbody.leads.top hsimple₂ hroot₂ d.name
  refine ⟨s₃, ?_, ?_, ?_⟩
  · rw [XmlDocument.events, feed_cons, step, hstart, Option.bind_some, feed_append, hbody.fed,
      Option.bind_some, feed_cons, step, hend]
    rfl
  · rw [hname₃, hbody.leads.name, hname₁]
  · rw [hbody.entries, hbody.text, htext₁, hval₁] at hreads
    exact hreads

theorem withDefaultKeys_attrkey (o : Options) : o.withDefaultKeys.attrkey ≠ [] := by
  rw [Options.withDefaultKeys]
  dsimp only
  split
  · decide
  · rename_i h
    simpa using h

/-- The machine builds the reading of the document. -/
theorem parse_builds_reading (o : Options) (hattr : o.attrkey ≠ []) (htext : o.textkey ≠ [])
    (d : XmlDocument) :
    ∃ s, parse o d.events = some s ∧ s.rootName = d.name ∧
      ∀ v, Reads s.objects ∅ s.var v ↔ v = d.read o := by
  have hkeys : o.withDefaultKeys = o := by
    simp [Options.withDefaultKeys, hattr, htext]
  obtain ⟨s, hfeed, hname, hreads⟩ := fresh_create.feed hattr d
  refine ⟨s, ?_, hname, fun v => ⟨fun h => h.unique hreads, ?_⟩⟩
  · rw [parse, hkeys]
    exact hfeed
  · rintro rfl
    exact hreads

def sampleOptions : Options := ⟨true, ascii " ", false, ascii "$", ascii "_"⟩

/-- `<a k="v"> x <b> 1 </b><b/>y</a>` -/
def sampleDocument : XmlDocument :=
  ⟨ascii "a", [(ascii "k", ascii "v")],
    .text (ascii " x ") (.element (ascii "b") [] (.text (ascii " 1 ") .nil)
    (.element (ascii "b") [] .nil (.text (ascii "y") .nil)))⟩

theorem parse_builds_reading_sample :
    (sampleDocument.read sampleOptions = .dict [(ascii "$", .dict [(ascii "k", .str (ascii "v"))]),
      (ascii "_", .str (ascii "x y")), (ascii "b", .list [.str (ascii "1"), .str []])]) ∧
    ∃ s, parse sampleOptions sampleDocument.events = some s ∧ s.rootName = ascii "a" ∧
      ∀ v, Reads s.objects ∅ s.var v ↔ v = sampleDocument.read sampleOptions :=
  ⟨rfl, parse_builds_reading sampleOptions (by decide) (by decide) sampleDocument⟩

end Nkit
