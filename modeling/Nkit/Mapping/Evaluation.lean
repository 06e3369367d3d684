import Nkit.Mapping.Leaving
import Nkit.Mapping.SpecCompiled

/-! A mapping gives the values that it says: what the tally counts at an element is the evaluation
of the mapping there. -/

namespace Nkit
namespace Xml2Var
open OrderedMap

/-- Item `k` is a child of `p`, under a key that is the same for every element. -/
structure PlainChild (I : ℕ → TargetItem Bytes) (k p : ℕ) : Prop where
  parentTarget : (I k).parentTarget = some p
  child : k ∈ (I p).target.children
  fixed : (I k).keyNameIsAttribute = false
  key : ∀ its, (I p).target = .object its → plainKey (I k).keyName false = true

section
variable {I : ℕ → TargetItem Bytes}

def Specified (I : ℕ → TargetItem Bytes) (i : ℕ) : Prop :=
  ∃ (s : TargetSpec) (items : List ℕ), s.CompiledTo I i items ∧ s.plain = true

mutual

theorem TargetSpec.CompiledTo.each :
    ∀ {s : TargetSpec} {i : ℕ} {items : List ℕ}, s.CompiledTo I i items → s.plain = true →
    ∀ j ∈ items, Specified I j ∧ (j = i ∨ ∃ p, PlainChild I j p)
  | .scalar t attr, i, items, h, hplain, j, hj => by
    have hitems := h
    rw [TargetSpec.CompiledTo] at hitems
    rw [hitems.1, List.mem_singleton] at hj
    subst hj
    exact ⟨⟨_, _, h, hplain⟩, .inl rfl⟩
  | .list path item, i, items, h, hplain, j, hj => by
    have hitems := h
    rw [TargetSpec.CompiledTo] at hitems
    obtain ⟨k, below, rfl, htarget, hitem, hparent, hattr, -⟩ := hitems
    rcases List.mem_append.mp hj with hj | hj
    · obtain ⟨hspec, rfl | hchild⟩ :=
        hitem.each (by rw [TargetSpec.plain] at hplain; exact hplain) j hj
      · refine ⟨hspec, .inr ⟨i, hparent, ?_, hattr, fun its hobj => ?_⟩⟩
        · rw [htarget]
          exact List.mem_singleton_self _
        · rw [htarget] at hobj
          cases hobj
      · exact ⟨hspec, .inr hchild⟩
    · obtain rfl := List.mem_singleton.mp hj
      exact ⟨⟨_, _, h, hplain⟩, .inl rfl⟩
  | .object entries, i, items, h, hplain, j, hj => by
    have hitems := h
    rw [TargetSpec.CompiledTo] at hitems
    obtain ⟨its, ks, below, rfl, htarget, hperm, hentries⟩ := hitems
    rcases List.mem_append.mp hj with hj | hj
    · have hin : ∀ k ∈ ks, k ∈ (I i).target.children := fun k hk => htarget ▸ hperm.mem_iff.mpr hk
      have hbelow := hentries.each (by rw [TargetSpec.plain] at hplain; exact hplain) hin j hj
      exact ⟨hbelow.1, .inr hbelow.2⟩
    · obtain rfl := List.mem_singleton.mp hj
      exact ⟨⟨_, _, h, hplain⟩, .inl rfl⟩

theorem EntrySpecs.CompiledTo.each :
    ∀ {entries : EntrySpecs} {i : ℕ} {base : List Bytes} {ks below : List ℕ},
    entries.CompiledTo I i base ks below → entries.plain = true →
      (∀ k ∈ ks, k ∈ (I i).target.children) →
      ∀ j ∈ below, Specified I j ∧ ∃ p, PlainChild I j p
  | .nil, i, base, ks, below, h, _, _, j, hj => by
    rw [EntrySpecs.CompiledTo] at h
    rw [h.2] at hj
    cases hj
  | .cons key keyIsAttribute path target rest, i, base, ks, below, h, hplain, hin, j, hj => by
    rw [EntrySpecs.CompiledTo] at h
    obtain ⟨k, ks', items, below', rfl, rfl, htarget, hparent, hkey, hattr, -, hrest⟩ := h
    rw [EntrySpecs.plain, Bool.and_eq_true, Bool.and_eq_true, Bool.and_eq_true] at hplain
    obtain ⟨⟨⟨hplainKey, -⟩, htargetPlain⟩, hrestPlain⟩ := hplain
    have hfixed : keyIsAttribute = false := (plainKey_spec hplainKey).1
    rcases List.mem_append.mp hj with hj | hj
    · obtain ⟨hspec, rfl | hchild⟩ := htarget.each htargetPlain j hj
      · exact ⟨hspec, i, hparent, hin j List.mem_cons_self, hattr.trans hfixed,
          fun _ _ => by rw [hkey, ← hfixed]; exact hplainKey⟩
      · exact ⟨hspec, hchild⟩
    · exact hrest.each hrestPlain (fun k' hk' => hin k' (List.mem_cons_of_mem k hk')) j hj

end

theorem EntrySpecs.CompiledTo.keys :
    ∀ {entries : EntrySpecs} {i : ℕ} {base : List Bytes} {ks below : List ℕ},
    entries.CompiledTo I i base ks below → ks.map (fun k => (I k).keyName) = entries.keys
  | .nil, i, base, ks, below, h => by
    rw [EntrySpecs.CompiledTo] at h
    rw [h.1]
    rfl
  | .cons key keyIsAttribute path target rest, i, base, ks, below, h => by
    rw [EntrySpecs.CompiledTo] at h
    obtain ⟨k, ks', items, below', rfl, -, -, -, hkey, -, -, hrest⟩ := h
    rw [List.map_cons, hkey, hrest.keys]
    rfl

theorem EntrySpecs.keys_nodup : ∀ {entries : EntrySpecs}, entries.plain = true → entries.keys.Nodup
  | .nil, _ => List.nodup_nil
  | .cons key _ _ _ rest, h => by
    rw [EntrySpecs.plain, Bool.and_eq_true, Bool.and_eq_true, Bool.and_eq_true,
      Bool.not_eq_true'] at h
    refine List.nodup_cons.mpr ⟨fun hin => ?_, EntrySpecs.keys_nodup h.2⟩
    have hnot := h.1.1.2
    rw [List.contains_eq_mem, decide_eq_false_iff_not] at hnot
    exact hnot hin

theorem Specified.object {i : ℕ} (h : Specified I i) {its : List ℕ}
    (ht : (I i).target = .object its) :
    (its.map fun k => (I k).keyName).Nodup := by
  obtain ⟨s, items, hs, hplain⟩ := h
  cases s with
  | scalar t attr =>
    rw [TargetSpec.CompiledTo, ht] at hs
    cases hs.2.1
  | list path item =>
    rw [TargetSpec.CompiledTo, ht] at hs
    obtain ⟨k, below, -, heq, -⟩ := hs
    cases heq
  | object entries =>
    rw [TargetSpec.CompiledTo, ht] at hs
    obtain ⟨its', ks, below, -, heq, hperm, hentries⟩ := hs
    obtain rfl := Target.object.inj heq
    rw [(hperm.map _).nodup_iff, hentries.keys]
    exact EntrySpecs.keys_nodup (by rw [TargetSpec.plain] at hplain; exact hplain)

theorem Specified.list {i : ℕ} (h : Specified I i) {its : List ℕ} (ht : (I i).target = .list its) :
    ∃ k, its = [k] := by
  obtain ⟨s, items, hs, -⟩ := h
  cases s with
  | scalar t attr =>
    rw [TargetSpec.CompiledTo, ht] at hs
    cases hs.2.1
  | list path item =>
    rw [TargetSpec.CompiledTo, ht] at hs
    obtain ⟨k, below, -, heq, -⟩ := hs
    exact ⟨k, Target.list.inj heq⟩
  | object entries =>
    rw [TargetSpec.CompiledTo, ht] at hs
    obtain ⟨its', ks, below, -, heq, -⟩ := hs
    cases heq

end

theorem compiledTo_plain {c : Compiled} {s : TargetSpec} (hw : Wired c)
    (h : s.CompiledTo c.group.items 0 c.order) (hplain : s.plain = true)
    (hroot : (c.group.items 0).keyNameIsAttribute = false) :
    c.Plain ∧ ∀ i ∈ c.order, Specified c.group.items i := by
  have heach := h.each hplain
  have hchild : ∀ k ∈ c.order, ∀ p, (c.group.items k).parentTarget = some p →
      PlainChild c.group.items k p := by
    intro k hk p hp
    rcases (heach k hk).2 with rfl | ⟨p', hp'⟩
    · rw [hw.noParent] at hp
      cases hp
    · obtain rfl : p = p' := Option.some.inj (hp.symm.trans hp'.parentTarget)
      exact hp'
  refine ⟨⟨fun i hi => ?_, fun i hi => ?_, fun k hk p hp => (hchild k hk p hp).child,
    fun i hi its ht heq => ?_, fun i hi its ht => (heach i hi).1.object ht, fun k hk p its hp ht =>
      (hchild k hk p hp).key its ht⟩, fun i hi => (heach i hi).1⟩
  · rcases (heach i hi).2 with rfl | ⟨p, hp⟩
    · exact hroot
    · exact hp.fixed
  · cases ht : (c.group.items i).target with
    | scalar => exact List.nodup_nil
    | object its => exact List.Nodup.of_map _ ((heach i hi).1.object ht)
    | list its =>
      obtain ⟨k, rfl⟩ := (heach i hi).1.list ht
      exact List.nodup_singleton k
  · obtain ⟨k, hk⟩ := (heach i hi).1.list ht
    rw [heq] at hk
    cases hk

/-- What a target is at every element where it is left. A list is left at its items. -/
def TargetSpec.unit : TargetSpec → TargetSpec
  | .list _ item => item
  | .scalar t attr => .scalar t attr
  | .object entries => .object entries

/-- Target item `i` makes these values of elements. -/
def Gives (lib : ScalarLib) (o : StructOptions) (I : ℕ → TargetItem Bytes) (i : ℕ)
    (f : XmlElement → DynTree) : Prop :=
  ∃ (s : TargetSpec) (items : List ℕ), s.CompiledTo I i items ∧ s.plain = true ∧
    f = s.unit.eval lib o

theorem select_nil (es : List XmlElement) : es.flatMap (·.select []) = es := by
  induction es with
  | nil => rfl
  | cons e es ih => exact congrArg (e :: ·) ih

theorem select_append (path rel : List Bytes) (e : XmlElement) :
    e.select (path ++ rel) = (e.select path).flatMap (·.select rel) := by
  induction path generalizing e with
  | nil => exact (List.append_nil _).symm
  | cons n path ih =>
    rw [List.cons_append, XmlElement.select, XmlElement.select, List.flatMap_assoc]
    exact List.flatMap_congr fun c _ => ih c.2

section
variable {lib : ScalarLib} {o : StructOptions} {I : ℕ → TargetItem Bytes} {i : ℕ} {items : List ℕ}

theorem TargetSpec.CompiledTo.item {s : TargetSpec} (h : s.CompiledTo I i items) (e : XmlElement) :
    (I i).target.item ((e.select s.head).map (s.unit.eval lib o)) = s.eval lib o e := by
  cases s with
  | scalar t attr =>
    rw [TargetSpec.CompiledTo] at h
    rw [h.2.1]
    rfl
  | list path item =>
    rw [TargetSpec.CompiledTo] at h
    obtain ⟨k, below, -, htarget, -⟩ := h
    rw [htarget, TargetSpec.eval]
    rfl
  | object entries =>
    rw [TargetSpec.CompiledTo] at h
    obtain ⟨its, ks, below, -, htarget, -⟩ := h
    rw [htarget]
    rfl

theorem TargetSpec.CompiledTo.shown {s : TargetSpec} (h : s.CompiledTo I i items)
    (es : List XmlElement) :
    (I i).target.shown ((es.flatMap (·.select s.head)).map (s.unit.eval lib o)) =
      s.shown lib o es := by
  cases s with
  | scalar t attr =>
    rw [TargetSpec.CompiledTo] at h
    rw [h.2.1, TargetSpec.head, select_nil, TargetSpec.unit, TargetSpec.shown]
    simp only [Target.shown, List.getLast?_map]
    cases es.getLast? with
    | none => rfl
    | some e =>
      rw [Option.map_some, TargetSpec.eval]
      rfl
  | list path item =>
    rw [TargetSpec.CompiledTo] at h
    obtain ⟨k, below, -, htarget, -⟩ := h
    rw [htarget, TargetSpec.head, TargetSpec.unit, TargetSpec.shown]
    simp only [Target.shown, Target.seen, List.isEmpty_map]
  | object entries =>
    rw [TargetSpec.CompiledTo] at h
    obtain ⟨its, ks, below, -, htarget, -⟩ := h
    rw [htarget, TargetSpec.head, select_nil, TargetSpec.unit, TargetSpec.shown]
    simp only [Target.shown, Target.seen, List.getLast?_map]
    refine Option.map_congr fun e _ => ?_
    rw [TargetSpec.eval]

theorem EntrySpecs.CompiledTo.shown {e : XmlElement} {done : ℕ → List DynTree} :
    ∀ {entries : EntrySpecs} {base : List Bytes} {ks below : List ℕ}, entries.CompiledTo I i base ks
      below →
      entries.plain = true →
      (∀ k ∈ ks, ∀ rel, (I k).path.elements = base ++ rel → ∀ f, Gives lib o I k f →
        done k = (e.select rel).map f) →
      ks.map (fun k => ((I k).keyName, (I k).target.shown (done k))) = entries.shown lib o e
  | .nil, base, ks, below, h, _, _ => by
    rw [EntrySpecs.CompiledTo] at h
    rw [h.1, EntrySpecs.shown]
    rfl
  | .cons key keyIsAttribute path target rest, base, ks, below, h, hplain, hdone => by
    rw [EntrySpecs.CompiledTo] at h
    obtain ⟨k, ks', items, below', rfl, -, htarget, -, hkey, -, helements, hrest⟩ := h
    rw [EntrySpecs.plain, Bool.and_eq_true, Bool.and_eq_true] at hplain
    have hk := hdone k List.mem_cons_self _ helements _ ⟨target, items, htarget, hplain.1.2, rfl⟩
    have hks := hrest.shown hplain.2 fun k' hk' => hdone k' (List.mem_cons_of_mem k hk')
    rw [List.map_cons, EntrySpecs.shown, hks, hk, hkey, select_append, htarget.shown]

/-- What target item `i` makes of the element where it is left. -/
theorem Gives.made {T : Tally} {e : XmlElement} {f : XmlElement → DynTree} (h : Gives lib o I i f)
    (htext : T.text i = textFor (I i).path.attributeName e)
    (hopened : T.opened i = attrEntries o e.attrs)
    (hdone : ∀ k ∈ (I i).target.children, ∀ rel, (I k).path.elements = (I i).path.elements ++ rel →
      ∀ f, Gives lib o I k f → T.done k = (e.select rel).map f) : T.made lib o I i = [f e] := by
  obtain ⟨s, items, hs, hplain, rfl⟩ := h
  have hcompiled := hs
  cases s with
  | scalar t attr =>
    rw [TargetSpec.CompiledTo] at hs
    obtain ⟨-, htarget, rfl⟩ := hs
    rw [Tally.made, htarget, TargetSpec.unit, TargetSpec.eval, ← htext]
  | list path item =>
    rw [TargetSpec.CompiledTo] at hs
    obtain ⟨k, below, -, htarget, hitem, -, -, helements⟩ := hs
    rw [TargetSpec.plain] at hplain
    have hk :=
      hdone k (htarget ▸ List.mem_singleton_self k) _ helements _ ⟨item, below, hitem, hplain, rfl⟩
    simp only [Tally.made, htarget, List.map_singleton, hk, hitem.item]
    rfl
  | object entries =>
    have hspec : Specified I i := ⟨_, _, hcompiled, hplain⟩
    rw [TargetSpec.CompiledTo] at hs
    obtain ⟨its, ks, below, -, htarget, hperm, hentries⟩ := hs
    rw [TargetSpec.plain] at hplain
    have hks : ∀ k ∈ ks, k ∈ (I i).target.children := fun k hk => htarget ▸ hperm.mem_iff.mpr hk
    have hshown := hentries.shown hplain fun k hk => hdone k (hks k hk)
    -- the children were sorted, by the lengths of their paths
    have hover : T.entries I Target.shown i = overlay bytesLt (entries.shown lib o e)
        (attrEntries o e.attrs) := by
      rw [Tally.entries, htarget, hopened, ← hshown]
      refine overlay_perm bytesLt_strictWeak (fun heq => equiv_bytesLt.mp heq) ?_ (hperm.map _)
        (Tallied.sorted_attrEntries o e.attrs)
      rw [List.map_map]
      exact hspec.object htarget
    simp only [Tally.made, htarget, hover, TargetSpec.unit, TargetSpec.eval]

end

end Xml2Var
end Nkit
