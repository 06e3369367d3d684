import Nkit.Mapping.Meaning
import Nkit.Mapping.Wiring

/-! A mapping is read and compiled in the same way: the target items of a compiled mapping are laid
out as what was read of it. -/

namespace Nkit
namespace Xml2Var

/-- The path at the start of a target. -/
def TargetSpec.head : TargetSpec → List Bytes
  | .list path _ => path
  | .scalar _ _ | .object _ => []

mutual

/-- Target item `i` and those below it, in the order of their creation, make the target. -/
def TargetSpec.CompiledTo (I : ℕ → TargetItem Bytes) : TargetSpec → ℕ → List ℕ → Prop
  | .scalar t attr, i, items =>
    items = [i] ∧ (I i).target = .scalar t ∧ (I i).path.attributeName = attr
  | .list _ item, i, items =>
    ∃ k below, items = below ++ [i] ∧ (I i).target = .list [k] ∧ item.CompiledTo I k below ∧
      (I k).parentTarget = some i ∧ (I k).keyNameIsAttribute = false ∧
      (I k).path.elements = (I i).path.elements ++ item.head
  | .object entries, i, items =>
    ∃ its ks below, items = below ++ [i] ∧ (I i).target = .object its ∧ its.Perm ks ∧
      entries.CompiledTo I i (I i).path.elements ks below

/-- The children `ks` of object `i`, which is at the path `base`. -/
def EntrySpecs.CompiledTo (I : ℕ → TargetItem Bytes) (i : ℕ) (base : List Bytes) : EntrySpecs →
    List ℕ → List ℕ → Prop
  | .nil, ks, below => ks = [] ∧ below = []
  | .cons key keyIsAttribute path target rest, ks, below =>
    ∃ k ks' items below', ks = k :: ks' ∧ below = items ++ below' ∧ target.CompiledTo I k items ∧
      (I k).parentTarget = some i ∧ (I k).keyName = key ∧ (I k).keyNameIsAttribute =
        keyIsAttribute ∧
      (I k).path.elements = base ++ (path ++ target.head) ∧ rest.CompiledTo I i base ks' below'

end

section
variable {I I' : ℕ → TargetItem Bytes}

theorem TargetSpec.CompiledTo.mem :
    ∀ {s : TargetSpec} {i : ℕ} {items : List ℕ}, s.CompiledTo I i items → i ∈ items
  | .scalar _ _, i, items, h => by
    rw [TargetSpec.CompiledTo] at h
    exact h.1 ▸ List.mem_singleton_self i
  | .list _ _, i, items, h => by
    rw [TargetSpec.CompiledTo] at h
    obtain ⟨k, below, rfl, -⟩ := h
    exact List.mem_append_right _ (List.mem_singleton_self i)
  | .object _, i, items, h => by
    rw [TargetSpec.CompiledTo] at h
    obtain ⟨its, ks, below, rfl, -⟩ := h
    exact List.mem_append_right _ (List.mem_singleton_self i)

def SameSite (x y : TargetItem Bytes) : Prop :=
  x.path = y.path ∧ x.target = y.target ∧ x.parentTarget = y.parentTarget

mutual

theorem TargetSpec.CompiledTo.congr :
    ∀ {s : TargetSpec} {i : ℕ} {items : List ℕ}, s.CompiledTo I i items → items.Nodup →
    (∀ j ∈ items, SameSite (I' j) (I j)) → (∀ j ∈ items, j ≠ i → I' j = I j) →
      s.CompiledTo I' i items
  | .scalar t attr, i, items, h, hnodup, hsite, hkey => by
    rw [TargetSpec.CompiledTo] at h ⊢
    obtain ⟨hitems, htarget, hattr⟩ := h
    obtain ⟨hpath, htarget', -⟩ := hsite i (hitems ▸ List.mem_singleton_self i)
    exact ⟨hitems, htarget'.trans htarget, hpath ▸ hattr⟩
  | .list path item, i, items, h, hnodup, hsite, hkey => by
    rw [TargetSpec.CompiledTo] at h ⊢
    obtain ⟨k, below, rfl, htarget, hitem, hparent, hattr, helements⟩ := h
    have hnot : ∀ j ∈ below, j ≠ i := fun j hj heq =>
      List.disjoint_of_nodup_append hnodup hj (heq ▸ List.mem_singleton_self i)
    have hin : ∀ j ∈ below, I' j = I j := fun j hj => hkey j (List.mem_append_left _ hj) (hnot j hj)
    obtain ⟨hpath, htarget', -⟩ := hsite i (List.mem_append_right _ (List.mem_singleton_self i))
    have hk := hin k hitem.mem
    refine ⟨k, below, rfl, htarget'.trans htarget, ?_, hk ▸ hparent, hk ▸ hattr, ?_⟩
    · exact hitem.congr (List.Nodup.of_append_left hnodup)
        (fun j hj => by rw [hin j hj]; exact ⟨rfl, rfl, rfl⟩)
        fun j hj _ => hin j hj
    · rw [hk, hpath]
      exact helements
  | .object entries, i, items, h, hnodup, hsite, hkey => by
    rw [TargetSpec.CompiledTo] at h ⊢
    obtain ⟨its, ks, below, rfl, htarget, hperm, hentries⟩ := h
    have hnot : ∀ j ∈ below, j ≠ i := fun j hj heq =>
      List.disjoint_of_nodup_append hnodup hj (heq ▸ List.mem_singleton_self i)
    obtain ⟨hpath, htarget', -⟩ := hsite i (List.mem_append_right _ (List.mem_singleton_self i))
    refine ⟨its, ks, below, rfl, htarget'.trans htarget, hperm, ?_⟩
    rw [hpath]
    exact hentries.congr (List.Nodup.of_append_left hnodup) fun j hj =>
      hkey j (List.mem_append_left _ hj) (hnot j hj)

theorem EntrySpecs.CompiledTo.congr :
    ∀ {entries : EntrySpecs} {i : ℕ} {base : List Bytes} {ks below : List ℕ},
    entries.CompiledTo I i base ks below → below.Nodup → (∀ j ∈ below, I' j = I j) →
      entries.CompiledTo I' i base ks below
  | .nil, i, base, ks, below, h, _, _ => by
    rw [EntrySpecs.CompiledTo] at h ⊢
    exact h
  | .cons key keyIsAttribute path target rest, i, base, ks, below, h, hnodup, hin => by
    rw [EntrySpecs.CompiledTo] at h ⊢
    obtain ⟨k, ks', items, below', rfl, rfl, htarget, hparent, hkey, hattr, helements, hrest⟩ := h
    have hleft : ∀ j ∈ items, I' j = I j := fun j hj => hin j (List.mem_append_left _ hj)
    have hk := hleft k htarget.mem
    refine ⟨k, ks', items, below', rfl, rfl, ?_, hk ▸ hparent, hk ▸ hkey, hk ▸ hattr,
      hk ▸ helements, ?_⟩
    · exact htarget.congr (List.Nodup.of_append_left hnodup)
        (fun j hj => by rw [hleft j hj]; exact ⟨rfl, rfl, rfl⟩)
        fun j hj _ => hleft j hj
    · exact hrest.congr (List.Nodup.of_append_right hnodup) fun j hj =>
        hin j (List.mem_append_right _ hj)

end

end

theorem insertBySize_perm {A : Type} (size : A → ℕ) (x : A) (l : List A) :
    (insertBySize size x l).Perm (x :: l) := by
  induction l with
  | nil => exact List.Perm.refl _
  | cons y ys ih =>
    rw [insertBySize]
    split_ifs
    · exact List.Perm.refl _
    · exact (ih.cons y).trans (List.Perm.swap x y ys)

structure Built (path : Path Bytes) (c : Compiled) (s : TargetSpec) (i : ℕ) (c' : Compiled) :
    Prop where
  elements : (c'.group.items i).path.elements = path.elements ++ s.head
  block : s.plain = true → ∃ items, c'.order = c.order ++ items ∧
    s.CompiledTo c'.group.items i items

structure LoopBuilt (target : ℕ) (path : Path Bytes) (targetItems : List ℕ) (c : Compiled)
    (entries : EntrySpecs)
    (targetItems' : List ℕ) (c' : Compiled) : Prop where
  block : entries.plain = true →
    (∀ j ∈ targetItems, j < c.group.count ∧ (c.group.items j).keyName ∉ entries.keys) →
    ∃ ks below, c'.order = c.order ++ below ∧ targetItems'.Perm (targetItems ++ ks) ∧
      entries.CompiledTo c'.group.items target path.elements ks below

variable {lib : ScalarLib} {o : StructOptions} {parent : Option ℕ} {path : Path Bytes}
  {c c' : Compiled} {i : ℕ}

theorem compileScalar_built {mapping : Bytes}
    (h : Compiled.compileScalar lib o parent path mapping c = .ok (i, c')) :
    ∃ t, parseScalarTarget lib o mapping = .ok t ∧
      Built path c (.scalar t path.attributeName) i c' := by
  rw [Compiled.compileScalar] at h
  cases hparse : parseScalarTarget lib o mapping with
  | error e =>
    rw [hparse] at h
    cases h
  | ok t =>
    rw [hparse] at h
    obtain ⟨rfl, rfl⟩ := Prod.mk.inj (Except.ok.inj h)
    have hself :
      (c.allocate.create c.group.count (TargetGroup.item path (.scalar t) parent)).group.items
        c.group.count =
        TargetGroup.item path (.scalar t) parent := Function.update_self ..
    refine ⟨t, rfl, ?_, fun _ => ⟨[c.group.count], rfl, ?_⟩⟩
    · rw [hself]
      exact (List.append_nil _).symm
    · rw [TargetSpec.CompiledTo, hself]
      exact ⟨rfl, rfl, rfl⟩

theorem Built.object {its : List ℕ} {entries : EntrySpecs}
    (hgrows : LoopGrows c.group.count path [] c.allocate its c')
    (h : LoopBuilt c.group.count path [] c.allocate entries its c') :
    Built path c (.object entries) c.group.count
      (c'.create c.group.count (TargetGroup.item path (.object its) parent)) := by
  have hself : (c'.create c.group.count (TargetGroup.item path (.object its) parent)).group.items
    c.group.count =
      TargetGroup.item path (.object its) parent := Function.update_self ..
  refine ⟨?_, fun hplain => ?_⟩
  · rw [hself]
    exact (List.append_nil _).symm
  · obtain ⟨ks, below, horder, hperm, hentries⟩ := h.block hplain (by simp)
    obtain ⟨new, horder', hnew, hforest, -⟩ := hgrows.order
    obtain rfl : below = new := List.append_cancel_left (horder.symm.trans horder')
    refine ⟨below ++ [c.group.count], ?_, ?_⟩
    · rw [Compiled.create, horder, List.append_assoc]
      rfl
    · rw [TargetSpec.CompiledTo, hself]
      refine ⟨its, ks, below, rfl, rfl, hperm, hentries.congr hforest.nodup fun j hj =>
        Function.update_of_ne ?_ ..⟩
      exact Nat.ne_of_gt (Nat.lt_of_succ_le (hnew j hj).1)

theorem Built.list {rel : List Bytes} {foolPath : Path Bytes} {s : TargetSpec} {child : ℕ}
    (hrel : foolPath.elements = path.elements ++ rel)
    (hgrows : Grows (some c.group.count) foolPath c.allocate child c')
    (h : Built foolPath c.allocate s child c') :
    Built path c (.list rel s) c.group.count
      (c'.create c.group.count (TargetGroup.item foolPath (.list [child]) parent)) := by
  have hself :
    (c'.create c.group.count (TargetGroup.item foolPath (.list [child]) parent)).group.items
      c.group.count =
      TargetGroup.item foolPath (.list [child]) parent := Function.update_self ..
  have hlt : c.group.count < child := hgrows.index ▸ Nat.lt_succ_self _
  refine ⟨?_, fun hplain => ?_⟩
  · rw [hself]
    exact hrel
  · obtain ⟨items, horder, hitems⟩ := h.block hplain
    obtain ⟨new, horder', hnew, hforest⟩ := hgrows.order
    obtain rfl : items = new ++ [child] := List.append_cancel_left (horder.symm.trans horder')
    have hother : ∀ j ∈ new ++ [child],
        (c'.create c.group.count (TargetGroup.item foolPath (.list [child]) parent)).group.items j =
          c'.group.items j := by
      intro j hj
      refine Function.update_of_ne (Nat.ne_of_gt ?_) ..
      rcases List.mem_append.mp hj with hj | hj
      · exact hlt.trans (hnew j hj).1
      · exact List.mem_singleton.mp hj ▸ hlt
    have hchild := hother child (List.mem_append_right _ (List.mem_singleton_self _))
    refine ⟨(new ++ [child]) ++ [c.group.count], ?_, ?_⟩
    · rw [Compiled.create, horder, List.append_assoc]
      rfl
    · rw [TargetSpec.CompiledTo, hself]
      refine ⟨child, new ++ [child], rfl, rfl, ?_, hchild ▸ hgrows.parentTarget,
        hchild ▸ hgrows.keyNameIsAttribute, hchild ▸ h.elements⟩
      exact hitems.congr hforest.nodup (fun j hj => by rw [hother j hj]; exact ⟨rfl, rfl, rfl⟩)
        fun j hj _ => hother j hj

theorem LoopBuilt.nil {target : ℕ} {targetItems : List ℕ} :
    LoopBuilt target path targetItems c .nil targetItems c := by
  refine ⟨fun _ _ => ⟨[], [], (List.append_nil _).symm, by rw [List.append_nil], ?_⟩⟩
  rw [EntrySpecs.CompiledTo]
  exact ⟨rfl, rfl⟩

theorem LoopBuilt.cons {target child : ℕ} {foolPath : Path Bytes} {key : Bytes}
    {keyIsAttribute : Bool} {rel : List Bytes} {targetItems targetItems' : List ℕ} {c₁ : Compiled}
    {s : TargetSpec} {rest : EntrySpecs} (hrel : foolPath.elements = path.elements ++ rel)
    (hgrows : Grows (some target) foolPath c child c₁) (h : Built foolPath c s child c₁)
    (hgrows' :
      LoopGrows target path
      ((c₁.setKey key keyIsAttribute child).group.appendTargetItem targetItems child)
      (c₁.setKey key keyIsAttribute child) targetItems' c')
    (h' : LoopBuilt target path
      ((c₁.setKey key keyIsAttribute child).group.appendTargetItem targetItems child)
      (c₁.setKey key keyIsAttribute child) rest targetItems' c') :
    LoopBuilt target path targetItems c (.cons key keyIsAttribute rel s rest) targetItems' c' := by
  refine ⟨fun hplain htargets => ?_⟩
  rw [EntrySpecs.plain, Bool.and_eq_true, Bool.and_eq_true, Bool.and_eq_true,
    Bool.not_eq_true'] at hplain
  obtain ⟨⟨⟨-, hnew⟩, hs⟩, hrest⟩ := hplain
  set c₂ := c₁.setKey key keyIsAttribute child with hc₂
  have hindex := hgrows.index
  have hsite : ∀ j, SameSite (c₂.group.items j) (c₁.group.items j) :=
    fun j => Compiled.setKey_items key keyIsAttribute c₁ child j
  have hother : ∀ j, j ≠ child → c₂.group.items j = c₁.group.items j := fun j hj =>
    Function.update_of_ne hj ..
  have hkey : (c₂.group.items child).keyName = key ∧ (c₂.group.items child).keyNameIsAttribute =
      keyIsAttribute := by
    rw [hc₂, Compiled.setKey, TargetGroup.setKey]
    simp
  have hold : ∀ j ∈ targetItems, j ≠ child ∧ (c₂.group.items j).keyName =
      (c.group.items j).keyName := by
    intro j hj
    have hlt := (htargets j hj).1
    have hne : j ≠ child := hindex ▸ hlt.ne
    exact ⟨hne, by rw [hother j hne, hgrows.kept j hlt]⟩
  -- the key of the new child is a new one
  have happend : c₂.group.appendTargetItem targetItems child =
      insertBySize (fun i => (c₂.group.items i).path.elements.length) child targetItems := by
    rw [TargetGroup.appendTargetItem, if_neg]
    rw [List.any_eq_true]
    rintro ⟨j, hj, heq⟩
    rw [beq_iff_eq, (hold j hj).2, hkey.1] at heq
    exact (htargets j hj).2 (heq ▸ List.mem_cons_self)
  have hperm := insertBySize_perm (fun i => (c₂.group.items i).path.elements.length) child
    targetItems
  rw [← happend] at hperm
  have htargets' : ∀ j ∈ c₂.group.appendTargetItem targetItems child,
      j < c₂.group.count ∧ (c₂.group.items j).keyName ∉ rest.keys := by
    intro j hj
    rcases List.mem_cons.mp (hperm.mem_iff.mp hj) with rfl | hj
    · refine ⟨hgrows.count, hkey.1 ▸ fun hin => ?_⟩
      rw [List.contains_eq_mem, decide_eq_false_iff_not] at hnew
      exact hnew hin
    · refine ⟨(htargets j hj).1.trans (hindex ▸ hgrows.count), ?_⟩
      rw [(hold j hj).2]
      exact fun hin => (htargets j hj).2 (List.mem_cons_of_mem _ hin)
  obtain ⟨items, horder, hitems⟩ := h.block hs
  obtain ⟨ks, below, horder', hperm', hentries⟩ := h'.block hrest htargets'
  obtain ⟨new, hneworder, hnewitems, hforest⟩ := hgrows.order
  obtain rfl : items = new ++ [child] := List.append_cancel_left (horder.symm.trans hneworder)
  have hblock : ∀ j ∈ new ++ [child], j < c₁.group.count := by
    intro j hj
    rcases List.mem_append.mp hj with hj | hj
    · exact (hnewitems j hj).2
    · exact List.mem_singleton.mp hj ▸ hgrows.count
  have hkept : ∀ j ∈ new ++ [child], c'.group.items j = c₂.group.items j := fun j hj =>
    hgrows'.kept j (hblock j hj)
  have hchild := hkept child (List.mem_append_right _ (List.mem_singleton_self _))
  refine ⟨child :: ks, (new ++ [child]) ++ below, ?_, ?_, ?_⟩
  · rw [horder', ← List.append_assoc]
    exact congrArg (· ++ below) horder
  · exact hperm'.trans ((hperm.append_right ks).trans List.perm_middle.symm)
  · rw [EntrySpecs.CompiledTo]
    refine ⟨child, ks, new ++ [child], below, rfl, rfl, ?_, ?_, ?_, ?_, ?_, hentries⟩
    · refine hitems.congr hforest.nodup (fun j hj => hkept j hj ▸ hsite j) fun j hj hne => ?_
      exact (hkept j hj).trans (hother j hne)
    · rw [hchild, (hsite child).2.2]
      exact hgrows.parentTarget
    · rw [hchild]
      exact hkey.1
    · rw [hchild]
      exact hkey.2
    · rw [hchild, (hsite child).1, h.elements, hrel, List.append_assoc]

theorem Path.append_ok {p tail q : Path Bytes} (h : p.append star tail = some q) :
    p.attributeName.isEmpty = true ∧ q.attributeName = tail.attributeName := by
  rw [Path.append] at h
  split_ifs at h with hattr
  obtain rfl := Option.some.inj h
  exact ⟨hattr, rfl⟩

mutual

theorem compileTarget_built :
    (mapping : DynTree) → ∀ {parent : Option ℕ} {path : Path Bytes} {c c' : Compiled} {i : ℕ},
      path.MaskOk →
      (∀ p, parent = some p → p < c.group.count) →
      Compiled.compileTarget lib o parent path mapping c = .ok (i, c') →
      ∃ s, parseTarget lib o path.attributeName mapping = .ok s ∧ Built path c s i c'
  | .list mapping, parent, path, c, c', i, hmask, hparent, h => by
    rw [Compiled.compileTarget] at h
    rw [parseTarget]
    exact compileList_built mapping hmask hparent h
  | .dict mapping, parent, path, c, c', i, hmask, hparent, h => by
    rw [Compiled.compileTarget, Compiled.compileObject] at h
    rw [parseTarget]
    cases hres : Compiled.compileEntries lib o c.group.count path mapping [] c.allocate with
    | error e =>
      rw [hres] at h
      cases h
    | ok res =>
      obtain ⟨its, c₁⟩ := res
      rw [hres] at h
      obtain ⟨rfl, rfl⟩ := Prod.mk.inj (Except.ok.inj h)
      obtain ⟨entries, hparse, hbuilt⟩ :=
        compileEntries_built mapping hmask (Nat.lt_succ_self _) hres
      rw [hparse]
      exact ⟨_, rfl, .object (compileEntries_grows mapping hmask (Nat.lt_succ_self _) hres) hbuilt⟩
  | .string mapping, parent, path, c, c', i, hmask, hparent, h => by
    rw [Compiled.compileTarget] at h
    rw [parseTarget]
    obtain ⟨t, hparse, hbuilt⟩ := compileScalar_built h
    rw [hparse]
    exact ⟨_, rfl, hbuilt⟩
  | .plain .., _, _, _, _, _, _, _, h => by
    simp [Compiled.compileTarget] at h
  | .oid _, _, _, _, _, _, _, _, h => by
    simp [Compiled.compileTarget] at h
  | .table .., _, _, _, _, _, _, _, h => by
    simp [Compiled.compileTarget] at h

theorem compileList_built :
    (mapping : List DynTree) → ∀ {parent : Option ℕ} {path : Path Bytes} {c c' : Compiled} {i : ℕ},
      path.MaskOk →
      (∀ p, parent = some p → p < c.group.count) →
      Compiled.compileList lib o parent path mapping c = .ok (i, c') →
      ∃ s, parseList lib o path.attributeName mapping = .ok s ∧ Built path c s i c'
  | [pathSpec, sumMapping], parent, path, c, c', i, hmask, hparent, h => by
    rw [Compiled.compileList] at h
    rw [parseList]
    cases happend : path.append star (Path.named (pathSpec.getString lib.toCLib)) with
    | none =>
      rw [happend] at h
      cases h
    | some foolPath =>
      obtain ⟨hmask', helems⟩ := Path.append_spec hmask happend
      obtain ⟨hattr, hattr'⟩ := Path.append_ok happend
      rw [happend] at h
      cases hres : Compiled.compileTarget lib o (some c.group.count) foolPath sumMapping
        c.allocate with
      | error e =>
        simp only [hres] at h
        cases h
      | ok res =>
        obtain ⟨child, c₁⟩ := res
        simp only [hres] at h
        obtain ⟨rfl, rfl⟩ := Prod.mk.inj (Except.ok.inj h)
        have hparent' : ∀ p, some c.group.count = some p → p < c.allocate.group.count :=
          fun p hp => Option.some.inj hp ▸ Nat.lt_succ_self _
        obtain ⟨s, hparse, hbuilt⟩ := compileTarget_built sumMapping hmask' hparent' hres
        rw [hattr'] at hparse
        simp only [if_pos hattr, hparse]
        exact ⟨_, rfl, .list helems (compileTarget_grows sumMapping hmask' hparent' hres) hbuilt⟩
  | [], _, _, _, _, _, _, _, h => by
    simp [Compiled.compileList] at h
  | [_], _, _, _, _, _, _, _, h => by
    simp [Compiled.compileList] at h
  | _ :: _ :: _ :: _, _, _, _, _, _, _, _, h => by
    simp [Compiled.compileList] at h

theorem compileEntries_built :
    (mapping : List (Bytes × DynTree)) →
      ∀ {target : ℕ} {path : Path Bytes} {targetItems targetItems' : List ℕ}
      {c c' : Compiled}, path.MaskOk → target < c.group.count →
      Compiled.compileEntries lib o target path mapping targetItems c = .ok (targetItems', c') →
      ∃ entries, parseEntries lib o path.attributeName mapping = .ok entries ∧
        LoopBuilt target path targetItems c entries targetItems' c'
  | [], target, path, targetItems, targetItems', c, c', hmask, htarget, h => by
    rw [Compiled.compileEntries] at h
    obtain ⟨rfl, rfl⟩ := Prod.mk.inj (Except.ok.inj h)
    rw [parseEntries]
    exact ⟨_, rfl, .nil⟩
  | (spec, mapping) :: rest, target, path, targetItems, targetItems', c, c', hmask, htarget, h => by
    rw [Compiled.compileEntries] at h
    rw [parseEntries]
    simp only at h ⊢
    cases hkey :
      entryKey
        (Path.named (Tools.simpleSplitPair spec (ascii "->") Tools.whiteSpaces).2.1).lastElementName
        (Path.named (Tools.simpleSplitPair spec (ascii "->") Tools.whiteSpaces).2.1).attributeName
        (Tools.simpleSplitPair spec (ascii "->") Tools.whiteSpaces).2.2 with
    | error e =>
      simp only [hkey] at h
      cases h
    | ok named =>
      obtain ⟨key, keyIsAttribute⟩ := named
      simp only [hkey] at h ⊢
      cases happend :
        path.append star
          (Path.named (Tools.simpleSplitPair spec (ascii "->") Tools.whiteSpaces).2.1) with
      | none =>
        rw [happend] at h
        cases h
      | some foolPath =>
        obtain ⟨hmask', helems⟩ := Path.append_spec hmask happend
        obtain ⟨hattr, hattr'⟩ := Path.append_ok happend
        rw [happend] at h
        cases hres : Compiled.compileTarget lib o (some target) foolPath mapping c with
        | error e =>
          simp only [hres] at h
          cases h
        | ok res =>
          obtain ⟨child, c₁⟩ := res
          simp only [hres] at h
          have hparent' : ∀ p, some target = some p → p < c.group.count := fun p hp =>
            Option.some.inj hp ▸ htarget
          have hchild := compileTarget_grows mapping hmask' hparent' hres
          have hcount : target < (c₁.setKey key keyIsAttribute child).group.count :=
            htarget.trans (hchild.index ▸ hchild.count)
          obtain ⟨s, hparse, hbuilt⟩ := compileTarget_built mapping hmask' hparent' hres
          obtain ⟨entries, hparse', hbuilt'⟩ := compileEntries_built rest hmask hcount h
          rw [hattr'] at hparse
          simp only [if_pos hattr, hparse, hparse']
          exact ⟨_, rfl, .cons helems hchild hbuilt (compileEntries_grows rest hmask hcount h)
            hbuilt'⟩

end

theorem compile_built {mapping : DynTree} {root : ℕ}
    (h : Compiled.compile lib o mapping = .ok (root, c)) :
    ∃ s, TargetSpec.parse lib o mapping = .ok s ∧ Built .empty .empty s root c := by
  cases mapping with
  | list mapping => exact compileList_built mapping Path.maskOk_empty (by simp) h
  | dict mapping =>
    have hcompile : Compiled.compileTarget lib o none .empty (.dict mapping) .empty =
        .ok (root, c) := by
      rw [Compiled.compileTarget]
      exact h
    obtain ⟨s, hparse, hbuilt⟩ :=
      compileTarget_built (.dict mapping) Path.maskOk_empty (by simp) hcompile
    rw [parseTarget] at hparse
    exact ⟨s, hparse, hbuilt⟩
  | plain | string | oid | table => cases h

section
variable {lib : ScalarLib} {o : StructOptions}

theorem Path.append_some {p : Path Bytes} (h : p.attributeName.isEmpty = true) (tail : Path Bytes) :
    ∃ q, p.append star tail = some q ∧ q.attributeName = tail.attributeName := by
  rw [Path.append, if_pos h]
  exact ⟨_, rfl, rfl⟩

mutual

theorem parseTarget_compiles :
    (mapping : DynTree) → ∀ {path : Path Bytes} {s : TargetSpec} (parent : Option ℕ) (c : Compiled),
    parseTarget lib o path.attributeName mapping = .ok s →
      ∃ res, Compiled.compileTarget lib o parent path mapping c = .ok res
  | .list mapping, path, s, parent, c, h => by
    rw [parseTarget] at h
    rw [Compiled.compileTarget]
    exact parseList_compiles mapping parent c h
  | .dict mapping, path, s, parent, c, h => by
    rw [parseTarget] at h
    rw [Compiled.compileTarget, Compiled.compileObject]
    cases hentries : parseEntries lib o path.attributeName mapping with
    | error e =>
      rw [hentries] at h
      cases h
    | ok entries =>
      obtain ⟨⟨its, c'⟩, hc'⟩ := parseEntries_compiles mapping c.group.count [] c.allocate hentries
      rw [hc']
      exact ⟨_, rfl⟩
  | .string mapping, path, s, parent, c, h => by
    rw [parseTarget] at h
    rw [Compiled.compileTarget, Compiled.compileScalar]
    cases ht : parseScalarTarget lib o mapping with
    | error e =>
      rw [ht] at h
      cases h
    | ok t => exact ⟨_, rfl⟩
  | .plain .., _, _, _, _, h => by
    rw [parseTarget] at h
    · cases h
    all_goals simp
  | .oid _, _, _, _, _, h => by
    rw [parseTarget] at h
    · cases h
    all_goals simp
  | .table .., _, _, _, _, h => by
    rw [parseTarget] at h
    · cases h
    all_goals simp

theorem parseList_compiles : (mapping : List DynTree) → ∀ {path : Path Bytes} {s : TargetSpec}
    (parent : Option ℕ) (c : Compiled),
    parseList lib o path.attributeName mapping = .ok s →
      ∃ res, Compiled.compileList lib o parent path mapping c = .ok res
  | [pathSpec, sumMapping], path, s, parent, c, h => by
    rw [parseList] at h
    rw [Compiled.compileList]
    by_cases hattr : path.attributeName.isEmpty = true
    · rw [if_pos hattr] at h
      obtain ⟨foolPath, happend, hname⟩ :=
        Path.append_some hattr (Path.named (pathSpec.getString lib.toCLib))
      cases htarget : parseTarget lib o (Path.named (pathSpec.getString lib.toCLib)).attributeName
        sumMapping with
      | error e =>
        rw [htarget] at h
        cases h
      | ok t =>
        have htarget' : parseTarget lib o foolPath.attributeName sumMapping = .ok t :=
          hname ▸ htarget
        obtain ⟨⟨child, c'⟩, hc'⟩ :=
          parseTarget_compiles sumMapping (some c.group.count) c.allocate htarget'
        simp only [happend, hc']
        exact ⟨_, rfl⟩
    · rw [if_neg hattr] at h
      cases h
  | [], _, _, _, _, h => by simp [parseList] at h
  | [_], _, _, _, _, h => by simp [parseList] at h
  | _ :: _ :: _ :: _, _, _, _, _, h => by simp [parseList] at h

theorem parseEntries_compiles :
    (mapping : List (Bytes × DynTree)) → ∀ {path : Path Bytes} {entries : EntrySpecs} (target : ℕ)
    (targetItems : List ℕ) (c : Compiled), parseEntries lib o path.attributeName mapping =
      .ok entries →
      ∃ res, Compiled.compileEntries lib o target path mapping targetItems c = .ok res
  | [], path, entries, target, targetItems, c, h => by
    rw [Compiled.compileEntries]
    exact ⟨_, rfl⟩
  | (spec, mapping) :: rest, path, entries, target, targetItems, c, h => by
    rw [parseEntries] at h
    rw [Compiled.compileEntries]
    simp only at h ⊢
    cases hkey :
      entryKey
        (Path.named (Tools.simpleSplitPair spec (ascii "->") Tools.whiteSpaces).2.1).lastElementName
        (Path.named (Tools.simpleSplitPair spec (ascii "->") Tools.whiteSpaces).2.1).attributeName
        (Tools.simpleSplitPair spec (ascii "->") Tools.whiteSpaces).2.2 with
    | error e =>
      simp only [hkey] at h
      cases h
    | ok named =>
      simp only [hkey] at h ⊢
      by_cases hattr : path.attributeName.isEmpty = true
      · rw [if_pos hattr] at h
        obtain ⟨foolPath, happend, hname⟩ := Path.append_some hattr
          (Path.named (Tools.simpleSplitPair spec (ascii "->") Tools.whiteSpaces).2.1)
        cases htarget : parseTarget lib o
            (Path.named (Tools.simpleSplitPair spec (ascii "->")
              Tools.whiteSpaces).2.1).attributeName mapping with
        | error e =>
          simp only [htarget] at h
          cases h
        | ok t =>
          simp only [htarget] at h
          cases hrest : parseEntries lib o path.attributeName rest with
          | error e =>
            rw [hrest] at h
            cases h
          | ok entries' =>
            have htarget' : parseTarget lib o foolPath.attributeName mapping = .ok t :=
              hname ▸ htarget
            obtain ⟨⟨child, c'⟩, hc'⟩ := parseTarget_compiles mapping (some target) c htarget'
            simp only [happend, hc']
            exact parseEntries_compiles rest target _ _ hrest
      · rw [if_neg hattr] at h
        cases h

end

end

end Xml2Var
end Nkit
