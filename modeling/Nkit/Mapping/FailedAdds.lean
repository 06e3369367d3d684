import Nkit.Mapping.Verdicts

/-! Builders on which `AddMapping` may have failed any number of times, before, between and after
the documents that they have read. -/

namespace Nkit
namespace Xml2Var
open OrderedMap

theorem NamedRun.step_compiled {lib : ScalarLib} {o : StructOptions} {r : NamedRun}
    (h : r.compiled.order = []) (e : XmlEvent) : (r.step lib o e).compiled = r.compiled := by
  have hmasks : ∀ path, r.compiled.masksAt path = [] := fun path => by
    rw [Compiled.masksAt, h, List.filter_nil]
  have hnode : ∀ path, r.compiled.nodeAt path = [] := fun path => by
    rw [Compiled.nodeAt, h, List.filter_nil]
  cases e with
  | startElement el attrs =>
    rw [step, onStartElement]
    split_ifs
    · rfl
    · simp only [hmasks, hnode]
      rfl
  | text text =>
    rw [step, onText, hmasks, hnode]
    rfl
  | endElement el =>
    rw [step, onEndElement, hmasks, hnode]
    rfl

namespace StructXml2VarBuilder
variable {b b' : StructXml2VarBuilder} {created : List ItemId} {lib : ScalarLib} {o : StructOptions}

/-- `mapping_names()`. -/
def mappingNames (b : StructXml2VarBuilder) : List Bytes := b.rootTargets.map Prod.fst

/-- A target item that is in the tree or among the masks.  These own their targets, and nothing else
keeps a target once the call of `AddMapping` that made it is over. -/
def Hangs (b : StructXml2VarBuilder) (i : ItemId) : Prop :=
  i ∈ b.maskTargetItems ∨ ∃ path, i ∈ b.pathTree path

def NoOrphans (b : StructXml2VarBuilder) : Prop :=
  ∀ i, b.Hangs i → ∀ parent, (b.itemAt i).parentTarget = some parent → b.Hangs (i.1, parent)

/-- What a call that fails should leave. -/
structure AsBefore (lib : ScalarLib) (b b' : StructXml2VarBuilder) : Prop where
  mappingNames : b'.mappingNames = b.mappingNames
  var : ∀ events name, (b'.feed lib events).var name = (b.feed lib events).var name
  noOrphans : b'.NoOrphans

/-- The builders that calls of `AddMapping` and events lead to, with the mappings that were passed,
accepted or not. -/
inductive Run (lib : ScalarLib) (o : StructOptions) :
    List (Bytes × DynTree) → StructXml2VarBuilder → Prop
  | create : Run lib o [] (create o)
  | addMapping {passed b} (name : Bytes) (mapping : DynTree) : Run lib o passed b →
      (b.addMapping lib name mapping).1 ≠ .error .assertion →
      Run lib o (passed ++ [(name, mapping)]) (b.addMapping lib name mapping).2
  | event {passed b} (e : XmlEvent) : Run lib o passed b → Run lib o passed (b.step lib e)

theorem Hung.hangs (h : b.Hung created) {i : ItemId} : b.Hangs i ↔ i ∈ created := by
  rw [Hangs, h.masks, List.mem_filter]
  constructor
  · rintro (⟨hi, -⟩ | ⟨path, hi⟩)
    · exact hi
    · rw [h.nodes, List.mem_filter] at hi
      exact hi.1
  · intro hi
    by_cases hmask : (b.itemAt i).path.isMask = true
    · exact .inl ⟨hi, hmask⟩
    · refine .inr ⟨(b.itemAt i).path.elements, ?_⟩
      rw [h.nodes, List.mem_filter]
      refine ⟨hi, ?_⟩
      simp [inNode, hmask]

theorem Hung.noOrphans (h : b.Hung created) :
    b.NoOrphans ↔ ∀ i ∈ created, ∀ parent, (b.itemAt i).parentTarget = some parent →
      (i.1, parent) ∈ created := by
  simp only [NoOrphans, h.hangs]

/-- A builder that has been built and fed in any way; `created` has the target items in its tree,
also those that a failure left there. -/
structure Kept (b : StructXml2VarBuilder) (created : List ItemId) : Prop where
  sane : b.str2id.Sane
  hung : b.Hung created
  older : ∀ i ∈ created, i.1 < b.groupCount
  nodup : created.Nodup
  unused : ∀ k, b.groupCount ≤ k → TargetGroup.Names b.str2id (b.groups k) .empty
  named : ∀ k, ∃ g, TargetGroup.Names b.str2id (b.groups k) g
  currentPath : ∃ q, Path.Names b.str2id b.currentPath q
  roots : ∀ {name k root}, get? bytesLt name b.rootTargets = some (k, root) → k < b.groupCount

theorem kept_create : (create o).Kept [] where
  sane := String2IdMap.sane_create
  hung := ⟨rfl, fun _ => rfl⟩
  older := fun _ hi => nomatch hi
  nodup := List.nodup_nil
  unused := fun _ _ => TargetGroup.names_empty
  named := fun _ => ⟨_, TargetGroup.names_empty⟩
  currentPath := ⟨_, Path.names_empty⟩
  roots := fun h => nomatch h

theorem Kept.runs (h : b.Kept created) {k : ℕ} {g : TargetGroup Bytes}
    (hg : TargetGroup.Names b.str2id (b.groups k) g) {q : Path Bytes}
    (hq : Path.Names b.str2id b.currentPath q) :
    b.Runs created k ⟨⟨g, (created.filter fun i => i.1 == k).map Prod.snd⟩, b.firstNode, q⟩ := by
  refine ⟨h.sane, h.hung, ?_, hg, rfl, hq⟩
  rw [List.map_map]
  refine (List.map_id _).symm.trans (List.map_congr_left fun i hi => ?_)
  have hk : i.1 = k := by simpa using (List.mem_filter.mp hi).2
  exact Prod.ext hk rfl

theorem step_groupCount (b : StructXml2VarBuilder) (e : XmlEvent) :
    (b.step lib e).groupCount = b.groupCount := by
  cases e with
  | startElement el attrs =>
    rw [step, StructXml2VarBuilder.onStartElement]
    simp only
    split_ifs
    · rfl
    · rw [fire_frame, fire_frame]
  | text text => rw [step, StructXml2VarBuilder.onText, fire_frame, fire_frame]
  | endElement el => rw [step, StructXml2VarBuilder.onEndElement, fire_frame, fire_frame]

theorem step_itemAt (b : StructXml2VarBuilder) (e : XmlEvent) (i : ItemId) :
    (b.step lib e).itemAt i = b.itemAt i := by
  cases e with
  | startElement el attrs =>
    rw [step, StructXml2VarBuilder.onStartElement]
    simp only
    split_ifs
    · rfl
    · rw [fire_itemAt fun i g => TargetGroup.onEnter_sameItems b.options g i attrs,
        fire_itemAt fun i g => TargetGroup.onEnter_sameItems b.options g i attrs]
      rfl
  | text text =>
    rw [step, StructXml2VarBuilder.onText,
      fire_itemAt fun i g => TargetGroup.onText_sameItems g i text,
      fire_itemAt fun i g => TargetGroup.onText_sameItems g i text]
  | endElement el =>
    have hboth : ∀ items items', (((b.fire (fun i g => g.onExit lib b.options el i) items).fire
        (fun i g => g.onExit lib b.options el i) items').itemAt i) = b.itemAt i := by
      intro items items'
      rw [fire_itemAt fun i g => TargetGroup.onExit_sameItems lib b.options g el i,
        fire_itemAt fun i g => TargetGroup.onExit_sameItems lib b.options g el i]
    exact hboth _ _

theorem Kept.step (h : b.Kept created) (e : XmlEvent) : (b.step lib e).Kept created := by
  obtain ⟨q, hq⟩ := h.currentPath
  have hruns : ∀ {k g}, TargetGroup.Names b.str2id (b.groups k) g →
      (b.step lib e).Runs created k (NamedRun.step lib b.options
        ⟨⟨g, (created.filter fun i => i.1 == k).map Prod.snd⟩, b.firstNode, q⟩ e) :=
    fun hg => (h.runs hg hq).feed [e]
  obtain ⟨g₀, hg₀⟩ := h.named 0
  have hrun := hruns hg₀
  refine ⟨hrun.sane, hrun.hung, ?_, h.nodup, fun k hk => ?_, fun k => ?_, ⟨_, hrun.currentPath⟩,
    fun {name k root} hroot => ?_⟩
  · rw [step_groupCount]
    exact h.older
  · rw [step_groupCount] at hk
    -- no target item belongs to a group that is not in use yet
    have hnone : created.filter (fun i => i.1 == k) = [] :=
      List.filter_eq_nil_iff.mpr fun i hi => by simpa using ((h.older i hi).trans_le hk).ne
    have hnames := (hruns (h.unused k hk)).names
    rw [NamedRun.step_compiled (by rw [hnone, List.map_nil])] at hnames
    exact hnames
  · obtain ⟨g, hg⟩ := h.named k
    exact ⟨_, (hruns hg).names⟩
  · rw [(step_options b e).2] at hroot
    rw [step_groupCount]
    exact h.roots hroot

theorem Kept.step_noOrphans (h : b.Kept created) (e : XmlEvent) :
    (b.step lib e).NoOrphans ↔ b.NoOrphans := by
  have hstep : (b.step lib e).Kept created := h.step e
  rw [hstep.hung.noOrphans, h.hung.noOrphans]
  simp only [step_itemAt]

theorem Kept.mirrors (h : b.Kept created) : b.Mirrors created .empty where
  sane := h.sane
  names := h.unused _ le_rfl
  hung := h.hung
  older := fun i hi => (h.older i hi).le
  mine := List.filter_eq_nil_iff.mpr fun i hi => by simpa using (h.older i hi).ne
  below := fun _ hi => nomatch hi

/-- The end of `AddMapping`. -/
def finish (rootTargets : List (Bytes × ItemId)) (b : StructXml2VarBuilder) :
    StructXml2VarBuilder :=
  { b with groupCount := b.groupCount + 1, rootTargets }

variable {new : List ℕ} {c : Compiled} {rootTargets : List (Bytes × ItemId)}

theorem Kept.finish (h : b.Kept created) (hl : b.Leaves created .empty b' new c)
    (hroots : ∀ {name k root}, get? bytesLt name rootTargets = some (k, root) → k ≤ b.groupCount) :
    (b'.finish rootTargets).Kept (created ++ new.map fun i => (b.groupCount, i)) where
  sane := hl.mirrors.sane
  hung := ⟨hl.mirrors.hung.masks, hl.mirrors.hung.nodes⟩
  older := fun i hi => Nat.lt_succ_of_le (hl.mirrors.older i hi)
  nodup := by
    apply h.nodup.append (hl.nodup.map fun _ _ heq => congrArg Prod.snd heq)
    intro i hi hi'
    obtain ⟨j, -, rfl⟩ := List.mem_map.mp hi'
    exact Nat.lt_irrefl _ (h.older _ hi)
  unused := by
    intro k hk
    have hlt : b.groupCount < k := hl.extends_.groupCount ▸ Nat.lt_of_succ_le hk
    show TargetGroup.Names b'.str2id (b'.groups k) .empty
    rw [hl.extends_.groups k hlt.ne']
    exact (h.unused k hlt.le).grows hl.extends_.grows
  named := by
    intro k
    by_cases hk : k = b.groupCount
    · exact ⟨c.group, hk ▸ hl.extends_.groupCount ▸ hl.mirrors.names⟩
    · obtain ⟨g, hg⟩ := h.named k
      refine ⟨g, ?_⟩
      show TargetGroup.Names b'.str2id (b'.groups k) g
      rw [hl.extends_.groups k hk]
      exact hg.grows hl.extends_.grows
  currentPath := by
    obtain ⟨q, hq⟩ := h.currentPath
    refine ⟨q, ?_⟩
    show Path.Names b'.str2id b'.currentPath q
    rw [hl.extends_.currentPath]
    exact hq.grows hl.extends_.grows
  roots := fun hroot => Nat.lt_succ_of_le (hl.extends_.groupCount ▸ hroots hroot)

theorem Kept.finish_noOrphans (h : b.Kept created) (hl : b.Leaves created .empty b' new c)
    (hroots : ∀ {name k root}, get? bytesLt name rootTargets = some (k, root) → k ≤ b.groupCount) :
    (b'.finish rootTargets).NoOrphans ↔ b.NoOrphans ∧ ¬c.Orphaned := by
  rw [(h.finish hl hroots).hung.noOrphans, h.hung.noOrphans]
  have horder : c.order = new := hl.order
  have hold : ∀ i ∈ created, (b'.finish rootTargets).itemAt i = b.itemAt i := fun i hi => by
    show (b'.groups i.1).items i.2 = (b.groups i.1).items i.2
    rw [hl.extends_.groups i.1 (h.older i hi).ne]
  have hnew : ∀ i, ((b'.finish rootTargets).itemAt (b.groupCount, i)).parentTarget =
      (c.group.items i).parentTarget := by
    intro i
    have hnames := (hl.mirrors.names.items i).parentTarget
    rw [group, hl.extends_.groupCount] at hnames
    exact hnames
  have hmem : ∀ i, (b.groupCount, i) ∈ created ++ new.map (fun i => (b.groupCount, i)) ↔
      i ∈ c.order := fun i => by
    rw [List.mem_append, or_iff_right fun hi => Nat.lt_irrefl _ (h.older _ hi), horder]
    simp
  constructor
  · refine fun hall => ⟨fun i hi parent hparent => ?_, ?_⟩
    · have hin := hall i (List.mem_append_left _ hi) parent (by rw [hold i hi, hparent])
      -- the parent of an old item is in its own group, so it is old as well
      refine (List.mem_append.mp hin).resolve_right fun hin => ?_
      obtain ⟨j, -, hj⟩ := List.mem_map.mp hin
      exact (h.older i hi).ne (congrArg Prod.fst hj).symm
    · rintro ⟨i, hi, parent, hparent, hnot⟩
      have hin := hall (b.groupCount, i) ((hmem i).mpr hi) parent ((hnew i).trans hparent)
      exact hnot ((hmem parent).mp hin)
  · rintro ⟨hall, horphaned⟩ i hi parent hparent
    rcases List.mem_append.mp hi with hi | hi
    · rw [hold i hi] at hparent
      exact List.mem_append_left _ (hall i hi parent hparent)
    · obtain ⟨j, hj, rfl⟩ := List.mem_map.mp hi
      rw [hnew] at hparent
      exact (hmem parent).mpr
        (by_contra fun hnot => horphaned ⟨j, horder ▸ hj, parent, hparent, hnot⟩)

theorem Kept.finish_var (h : b.Kept created) (hl : b.Leaves created .empty b' new c)
    (events : List XmlEvent) (name : Bytes) :
    ((b'.finish b.rootTargets).feed lib events).var name = (b.feed lib events).var name := by
  have hsame : get? bytesLt name (b'.finish b.rootTargets).rootTargets =
    get? bytesLt name b.rootTargets := rfl
  cases hroot : get? bytesLt name b.rootTargets with
  | none => rw [var, var, feed_rootTargets, feed_rootTargets, hsame, hroot]
  | some target =>
    obtain ⟨k, root⟩ := target
    have hlt := h.roots hroot
    obtain ⟨g, hg⟩ := h.named k
    obtain ⟨q, hq⟩ := h.currentPath
    have hrun := h.runs hg hq
    -- the new target items do not touch the group of this name
    have hnone : (new.map fun i => (b.groupCount, i)).filter (fun i => i.1 == k) = [] := by
      refine List.filter_eq_nil_iff.mpr fun i hi => ?_
      obtain ⟨j, -, rfl⟩ := List.mem_map.mp hi
      simpa using hlt.ne'
    have hrun' : (b'.finish b.rootTargets).Runs (created ++ new.map fun i => (b.groupCount, i)) k
        ⟨⟨g, (created.filter fun i => i.1 == k).map Prod.snd⟩, b.firstNode, q⟩ := by
      refine ⟨hl.mirrors.sane, ⟨hl.mirrors.hung.masks, hl.mirrors.hung.nodes⟩, ?_, ?_,
        hl.extends_.firstNode, ?_⟩
      · rw [List.filter_append, hnone, List.append_nil]
        exact hrun.mine
      · show TargetGroup.Names b'.str2id (b'.groups k) g
        rw [hl.extends_.groups k hlt.ne]
        exact hg.grows hl.extends_.grows
      · show Path.Names b'.str2id b'.currentPath q
        rw [hl.extends_.currentPath]
        exact hq.grows hl.extends_.grows
    have hoptions : (b'.finish b.rootTargets).options = b.options := hl.extends_.options
    have hafter : ((b'.finish b.rootTargets).feed lib events).Runs _ k _ := hrun'.feed events
    rw [hoptions] at hafter
    rw [hafter.var ((congrArg _ (feed_rootTargets events _)).trans (hsame.trans hroot)),
      (hrun.feed events).var ((congrArg _ (feed_rootTargets events b)).trans hroot)]

/-- A call of `AddMapping` that returns leaves what its parsing leaves, and the root target if there
is one. -/
theorem Kept.addMapping (h : b.Kept created) (name : Bytes) (mapping : DynTree)
    (hreturns : (b.addMapping lib name mapping).1 ≠ .error .assertion) :
    ∃ b' new c rootTargets, b.Leaves created .empty b' new c ∧
      (¬c.Orphaned ↔ RejectedFirst b.options mapping) ∧
      (b.addMapping lib name mapping).2 = b'.finish rootTargets ∧
      (∀ {name k root}, get? bytesLt name rootTargets = some (k, root) → k ≤ b.groupCount) ∧
      ∀ e, (b.addMapping lib name mapping).1 = .error e → rootTargets = b.rootTargets := by
  rw [StructXml2VarBuilder.addMapping] at hreturns ⊢
  have hleaves : (parseMapping lib mapping b).1 ≠ .error .assertion → _ :=
    parseMapping_leaves mapping h.mirrors
  generalize parseMapping lib mapping b = r at hleaves hreturns ⊢
  obtain ⟨e | root, b'⟩ := r
  · obtain ⟨new, c, hl, horphaned⟩ := hleaves (by simpa using hreturns)
    refine ⟨b', new, c, b.rootTargets, hl, horphaned, ?_, fun hroot => (h.roots hroot).le,
      fun _ _ => rfl⟩
    have hroots : b'.rootTargets = b.rootTargets := hl.extends_.rootTargets
    rw [StructXml2VarBuilder.finish, ← hroots]
  · obtain ⟨new, c, hl, horphaned⟩ := hleaves (by simp)
    refine ⟨b', new, c, _, hl, horphaned, rfl, fun {n k root'} hroot => ?_, fun e he => ?_⟩
    · rw [get?_update_bytes, hl.extends_.rootTargets, hl.extends_.groupCount] at hroot
      split_ifs at hroot
      · exact (congrArg Prod.fst (Option.some.inj hroot)).ge
      · exact (h.roots hroot).le
    · cases he

theorem Run.kept {passed : List (Bytes × DynTree)} (h : Run lib o passed b) :
    b.options = o ∧ ∃ created, b.Kept created ∧
      (b.NoOrphans ↔ ∀ m ∈ passed, RejectedFirst o m.2) := by
  induction h with
  | create =>
    refine ⟨rfl, [], kept_create, ?_⟩
    rw [kept_create.hung.noOrphans]
    simp
  | @addMapping passed b name mapping _ hreturns ih =>
    obtain ⟨hoptions, created, hkept, horphans⟩ := ih
    obtain ⟨b', new, c, rootTargets, hl, horphaned, heq, hroots, -⟩ :=
      hkept.addMapping name mapping hreturns
    rw [heq]
    refine ⟨hl.extends_.options.trans hoptions, _, hkept.finish hl hroots, ?_⟩
    rw [hkept.finish_noOrphans hl hroots, horphaned, horphans, hoptions]
    simp [or_imp, forall_and]
  | event e _ ih =>
    obtain ⟨hoptions, created, hkept, horphans⟩ := ih
    exact ⟨(step_options _ e).1.trans hoptions, created, hkept.step e,
      (hkept.step_noOrphans e).trans horphans⟩

/-- A call of `AddMapping` that fails leaves the builder as it was exactly when no call so far,
itself included, has rejected a mapping after its first target item. -/
theorem failed_add_iff {passed : List (Bytes × DynTree)} (h : Run lib o passed b) (name : Bytes)
    (mapping : DynTree) {text : Bytes}
    (hfail : (b.addMapping lib name mapping).1 = .error (.error text)) :
    AsBefore lib b (b.addMapping lib name mapping).2 ↔ ∀ m ∈ passed ++ [(name, mapping)],
      RejectedFirst o m.2 := by
  have hreturns : (b.addMapping lib name mapping).1 ≠ .error .assertion := by
    rw [hfail]
    simp
  obtain ⟨-, created, hkept, -⟩ := h.kept
  obtain ⟨b', new, c, rootTargets, hl, -, heq, hroots, hsame⟩ :=
    hkept.addMapping name mapping hreturns
  obtain rfl := hsame _ hfail
  obtain ⟨-, -, -, horphans⟩ := (h.addMapping name mapping hreturns).kept
  rw [← horphans]
  refine ⟨fun hbefore => hbefore.noOrphans, fun hno => ⟨?_, fun events n => ?_, hno⟩⟩
  · rw [heq]
    rfl
  · rw [heq]
    exact hkept.finish_var hl events n

def sampleMapping : DynTree := .dict [(ascii "a", .string (ascii "string"))]

def rejectedMapping (first : Bool) : DynTree :=
  .dict [(ascii "a", .string (ascii (if first then "text" else "string"))),
    (ascii "b", .string (ascii "text"))]

theorem failed_add_iff_first :
    ∃ b, b = ((create sampleOptions).addMapping sampleLib (ascii "m") sampleMapping).2.step
      sampleLib
        (.startElement (ascii "root") []) ∧
      AsBefore sampleLib b (b.addMapping sampleLib (ascii "n") (rejectedMapping true)).2 := by
  have hrun : Run sampleLib sampleOptions [(ascii "m", sampleMapping)]
      (((create sampleOptions).addMapping sampleLib (ascii "m") sampleMapping).2.step sampleLib
        (.startElement (ascii "root") [])) := by
    refine .event _ (Run.create.addMapping (ascii "m") sampleMapping ?_)
    rw [show ((create sampleOptions).addMapping sampleLib (ascii "m") sampleMapping).1 = .ok ()
      from rfl]
    simp
  exact ⟨_, rfl, (failed_add_iff hrun (ascii "n") (rejectedMapping true) rfl).mpr (by decide)⟩

/-- The item of `a` stays in the tree, and its parent is gone. -/
theorem orphan_left :
    ∃ text, ((create sampleOptions).addMapping sampleLib (ascii "m") (rejectedMapping false)).1 =
      .error (.error text) ∧
      ¬AsBefore sampleLib (create sampleOptions)
        ((create sampleOptions).addMapping sampleLib (ascii "m") (rejectedMapping false)).2 := by
  have hfail : ((create sampleOptions).addMapping sampleLib (ascii "m") (rejectedMapping false)).1 =
      .error (.error (ascii "Scalar does not support type 'text'")) := rfl
  refine ⟨_, hfail, fun hbefore => ?_⟩
  have hrun : Run sampleLib sampleOptions [(ascii "m", rejectedMapping false)] _ :=
    Run.create.addMapping (ascii "m") (rejectedMapping false) (by rw [hfail]; simp)
  obtain ⟨-, -, -, horphans⟩ := hrun.kept
  exact absurd (horphans.mp hbefore.noOrphans _ (List.mem_singleton_self _)) (by decide)

end StructXml2VarBuilder

end Xml2Var
end Nkit
