import Nkit.Mapping.Independence

/-! How the target items of a compiled mapping hang together: children come before their parents
and have paths that extend those of their parents, and an object or a list has no other children
than target items with it as their parent. -/

namespace Nkit
namespace Xml2Var

def Target.children : Target → List ℕ
  | .object targetItems | .list targetItems => targetItems
  | .scalar _ => []

/-- The parent of item `j` is `p`. -/
structure Fit (I : ℕ → TargetItem Bytes) (j p : ℕ) : Prop where
  parentTarget : (I j).parentTarget = some p
  extends_ : (I p).path.elements <+: (I j).path.elements
  list : ∀ {targetItems}, (I p).target = .list targetItems → j ∈ targetItems ∧ (I j).keyName = [] ∧
    (I j).keyNameIsAttribute = false ∧
      ((∀ items, (I j).target ≠ .list items) → (I j).path.elements = (I p).path.elements)

/-- Target items in the order of their creation; those with the property `top` need no parent among
them. -/
structure Forest (I : ℕ → TargetItem Bytes) (items : List ℕ) (top : ℕ → Prop) : Prop where
  parent : ∀ j ∈ items, top j ∨ ∃ p ∈ items, Fit I j p
  children : ∀ p ∈ items, ∀ c ∈ (I p).target.children, c ∈ items ∧ (I c).parentTarget = some p
  pairwise : items.Pairwise fun a b => (I b).parentTarget ≠ some a
  irrefl : ∀ j ∈ items, (I j).parentTarget ≠ some j
  nodup : items.Nodup
  isMask : ∀ j ∈ items, (I j).path.isMask = (I j).path.elements.contains star

namespace Forest
variable {I I' : ℕ → TargetItem Bytes} {items items' : List ℕ} {top top' : ℕ → Prop}

theorem nil : Forest I [] top :=
  ⟨by simp, by simp, List.Pairwise.nil, by simp, List.nodup_nil, by simp⟩

theorem congr (h : Forest I items top)
    (hI : ∀ j ∈ items, (I' j).path = (I j).path ∧ (I' j).target = (I j).target ∧
      (I' j).parentTarget = (I j).parentTarget)
    (hkey : ∀ j ∈ items, top' j ∨
      ((I' j).keyName = (I j).keyName ∧ (I' j).keyNameIsAttribute = (I j).keyNameIsAttribute))
    (htop : ∀ j ∈ items, top j → top' j) : Forest I' items top' where
  parent := by
    intro j hj
    rcases hkey j hj with ht | ⟨hname, hattr⟩
    · exact .inl ht
    · rcases h.parent j hj with ht | ⟨p, hp, hfit⟩
      · exact .inl (htop j hj ht)
      · obtain ⟨hpath, htarget, hparent⟩ := hI j hj
        obtain ⟨hpath', htarget', -⟩ := hI p hp
        refine .inr ⟨p, hp, hparent.trans hfit.parentTarget, ?_, ?_⟩
        · rw [hpath, hpath']
          exact hfit.extends_
        · rw [hpath, hpath', htarget, htarget', hname, hattr]
          exact hfit.list
  children := by
    intro p hp c hc
    rw [(hI p hp).2.1] at hc
    obtain ⟨hin, hparent⟩ := h.children p hp c hc
    exact ⟨hin, (hI c hin).2.2.trans hparent⟩
  pairwise := h.pairwise.imp_of_mem fun _ hb hne => by
    rw [(hI _ hb).2.2]
    exact hne
  irrefl := fun j hj => (hI j hj).2.2 ▸ h.irrefl j hj
  nodup := h.nodup
  isMask := by
    intro j hj
    rw [(hI j hj).1]
    exact h.isMask j hj

theorem frame (h : Forest I items top) (hI : ∀ j ∈ items, I' j = I j)
    (htop : ∀ j ∈ items, top j → top' j) :
    Forest I' items top' := by
  refine h.congr (fun j hj => ?_) (fun j hj => .inr ?_) htop
  · rw [hI j hj]
    exact ⟨rfl, rfl, rfl⟩
  · rw [hI j hj]
    exact ⟨rfl, rfl⟩

theorem append (h : Forest I items top) (h' : Forest I items' top) (hdisj : items.Disjoint items')
    (htop : ∀ a ∈ items, ∀ b ∈ items', top b → (I b).parentTarget ≠ some a) :
    Forest I (items ++ items') top where
  parent := by
    intro j hj
    rcases List.mem_append.mp hj with hj | hj
    · exact (h.parent j hj).imp id fun ⟨p, hp, hfit⟩ => ⟨p, List.mem_append_left _ hp, hfit⟩
    · exact (h'.parent j hj).imp id fun ⟨p, hp, hfit⟩ => ⟨p, List.mem_append_right _ hp, hfit⟩
  children := by
    intro p hp c hc
    rcases List.mem_append.mp hp with hp | hp
    · exact (h.children p hp c hc).imp (List.mem_append_left _) id
    · exact (h'.children p hp c hc).imp (List.mem_append_right _) id
  pairwise := by
    refine List.pairwise_append.mpr ⟨h.pairwise, h'.pairwise, fun a ha b hb => ?_⟩
    rcases h'.parent b hb with ht | ⟨p, hp, hfit⟩
    · exact htop a ha b hb ht
    · rw [hfit.parentTarget]
      intro heq
      exact hdisj ha (Option.some.inj heq ▸ hp)
  irrefl := fun j hj => (List.mem_append.mp hj).elim (h.irrefl j) (h'.irrefl j)
  nodup := h.nodup.append h'.nodup hdisj
  isMask := by
    intro j hj
    rcases List.mem_append.mp hj with hj | hj
    · exact h.isMask j hj
    · exact h'.isMask j hj

theorem close {i : ℕ} (h : Forest I items top) (hi : i ∉ items)
    (hfit : ∀ j ∈ items, top j → Fit I j i)
    (hchildren : ∀ c ∈ (I i).target.children, c ∈ items ∧ (I c).parentTarget = some i)
    (hparent : ∀ j ∈ items ++ [i], (I i).parentTarget ≠ some j)
    (hmask : (I i).path.isMask = (I i).path.elements.contains star) :
    Forest I (items ++ [i]) (· = i) where
  parent := by
    intro j hj
    rcases List.mem_append.mp hj with hj | hj
    · rcases h.parent j hj with ht | ⟨p, hp, hfit'⟩
      · exact .inr ⟨i, by simp, hfit j hj ht⟩
      · exact .inr ⟨p, List.mem_append_left _ hp, hfit'⟩
    · exact .inl (List.mem_singleton.mp hj)
  children := by
    intro p hp c hc
    rcases List.mem_append.mp hp with hp | hp
    · exact (h.children p hp c hc).imp (List.mem_append_left _) id
    · rw [List.mem_singleton.mp hp] at hc ⊢
      exact (hchildren c hc).imp (List.mem_append_left _) id
  pairwise := by
    refine List.pairwise_append.mpr ⟨h.pairwise, List.pairwise_singleton _ _, fun a ha b hb => ?_⟩
    rw [List.mem_singleton.mp hb]
    exact hparent a (List.mem_append_left _ ha)
  irrefl := by
    intro j hj
    rcases List.mem_append.mp hj with hin | hin
    · exact h.irrefl j hin
    · exact List.mem_singleton.mp hin ▸ hparent i
        (List.mem_append_right _ (List.mem_singleton_self i))
  nodup := h.nodup.append (List.nodup_singleton i) (List.disjoint_singleton.mpr hi)
  isMask := by
    intro j hj
    rcases List.mem_append.mp hj with hj | hj
    · exact h.isMask j hj
    · exact List.mem_singleton.mp hj ▸ hmask

end Forest

def TargetGroup.Fresh (g : TargetGroup Bytes) : Prop :=
  ∀ i, g.states i = { TargetState.new (g.items i).target with actualKeyName := (g.items i).keyName }

theorem TargetGroup.Fresh.put {g : TargetGroup Bytes} (h : g.Fresh) (i : ℕ) (path : Path Bytes)
    (target : Target) (parent : Option ℕ) :
    (g.put i (TargetGroup.item path target parent)).Fresh := by
  intro j
  by_cases hj : j = i
  · subst hj
    simp [TargetGroup.put, TargetGroup.item, TargetState.new]
  · simpa [TargetGroup.put, hj] using h j

theorem TargetGroup.Fresh.setKey {g : TargetGroup Bytes} (h : g.Fresh) (key : Bytes)
    (isAttribute : Bool) (i : ℕ) :
    (g.setKey key isAttribute i).Fresh := by
  intro j
  by_cases hj : j = i
  · subst hj
    simp [TargetGroup.setKey, h j]
  · simpa [TargetGroup.setKey, hj] using h j

def Path.MaskOk (p : Path Bytes) : Prop := p.isMask = p.elements.contains star

theorem Path.maskOk_empty : (Path.empty : Path Bytes).MaskOk := rfl

theorem Path.MaskOk.push {p : Path Bytes} (h : p.MaskOk) (name : Bytes) :
    (p.push star name).MaskOk := by
  rw [Path.MaskOk, Path.push, h]
  simp [List.contains_eq_mem, eq_comm, Bool.beq_eq_decide_eq]

theorem Path.append_spec {p tail q : Path Bytes} (h : p.MaskOk) (hq : p.append star tail = some q) :
    q.MaskOk ∧ q.elements = p.elements ++ tail.elements := by
  have hfold : ∀ (names : List Bytes) {p : Path Bytes}, p.MaskOk →
      (names.foldl (fun p id => p.push star id) p).MaskOk ∧
        (names.foldl (fun p id => p.push star id) p).elements = p.elements ++ names := by
    intro names
    induction names with
    | nil => exact fun h => ⟨h, (List.append_nil _).symm⟩
    | cons name names ih =>
      intro p h
      obtain ⟨hm, he⟩ := ih (h.push name)
      refine ⟨hm, he.trans ?_⟩
      rw [Path.push, List.append_assoc]
      rfl
  rw [Path.append] at hq
  split_ifs at hq
  obtain rfl := Option.some.inj hq
  exact hfold tail.elements h

theorem mem_insertBySize {A : Type} {size : A → ℕ} {x y : A} {l : List A} :
    y ∈ insertBySize size x l ↔ y = x ∨ y ∈ l := by
  induction l with
  | nil => simp [insertBySize]
  | cons z l ih =>
    rw [insertBySize]
    split_ifs
    · simp
    · simp only [List.mem_cons, ih]
      tauto

theorem mem_appendTargetItem {g : TargetGroup Bytes} {targetItems : List ℕ} {c j : ℕ}
    (h : j ∈ g.appendTargetItem targetItems c) : j = c ∨ j ∈ targetItems := by
  rw [TargetGroup.appendTargetItem] at h
  split_ifs at h
  · exact .inr h
  · exact mem_insertBySize.mp h

structure Grows (parent : Option ℕ) (path : Path Bytes) (c : Compiled) (i : ℕ) (c' : Compiled) :
    Prop where
  index : i = c.group.count
  count : i < c'.group.count
  kept : ∀ j < c.group.count, c'.group.items j = c.group.items j
  fresh : c.group.Fresh → c'.group.Fresh
  order : ∃ new, c'.order = c.order ++ (new ++ [i]) ∧ (∀ j ∈ new, i < j ∧ j < c'.group.count) ∧
    Forest c'.group.items (new ++ [i]) (· = i)
  parentTarget : (c'.group.items i).parentTarget = parent
  keyName : (c'.group.items i).keyName = []
  keyNameIsAttribute : (c'.group.items i).keyNameIsAttribute = false
  extends_ : path.elements <+: (c'.group.items i).path.elements
  elements : (∀ items, (c'.group.items i).target ≠ .list items) → (c'.group.items i).path.elements =
    path.elements

structure LoopGrows (target : ℕ) (path : Path Bytes) (targetItems : List ℕ) (c : Compiled)
    (targetItems' : List ℕ)
    (c' : Compiled) : Prop where
  count : c.group.count ≤ c'.group.count
  kept : ∀ j < c.group.count, c'.group.items j = c.group.items j
  fresh : c.group.Fresh → c'.group.Fresh
  order : ∃ new, c'.order = c.order ++ new ∧ (∀ j ∈ new, c.group.count ≤ j ∧ j < c'.group.count) ∧
    Forest c'.group.items new
      (fun j => (c'.group.items j).parentTarget = some target ∧
        path.elements <+: (c'.group.items j).path.elements) ∧
    ∀ j ∈ targetItems', j ∈ targetItems ∨ (j ∈ new ∧ (c'.group.items j).parentTarget = some target)

variable {lib : ScalarLib} {o : StructOptions} {parent : Option ℕ} {path : Path Bytes}
  {c c' : Compiled} {i : ℕ}

theorem Grows.create {target : Target} {path' : Path Bytes}
    (hcount : c.group.count < c'.group.count)
    (hkept : ∀ j < c.group.count, c'.group.items j = c.group.items j)
    (hfresh : c.group.Fresh → c'.group.Fresh) {new : List ℕ} (horder : c'.order = c.order ++ new)
    (hnew : ∀ j ∈ new, c.group.count < j ∧ j < c'.group.count) {top : ℕ → Prop}
    (hforest : Forest c'.group.items new top)
    (hfit : ∀ j ∈ new, top j → (c'.group.items j).parentTarget = some c.group.count ∧
      path'.elements <+: (c'.group.items j).path.elements ∧ ∀ {targetItems},
      target = .list targetItems → j ∈ targetItems ∧ (c'.group.items j).keyName = [] ∧
      (c'.group.items j).keyNameIsAttribute = false ∧
      ((∀ items, (c'.group.items j).target ≠ .list items) → (c'.group.items j).path.elements =
      path'.elements))
    (hchildren : ∀ j ∈ target.children, j ∈ new ∧ (c'.group.items j).parentTarget =
      some c.group.count) (hparent : ∀ p, parent = some p → p < c.group.count)
    (hmask : path'.MaskOk) (hext : path.elements <+: path'.elements)
    (helements : (∀ items, target ≠ .list items) → path'.elements = path.elements) :
    Grows parent path c c.group.count
      (c'.create c.group.count (TargetGroup.item path' target parent)) := by
  set i := c.group.count with hi
  have hself : (c'.create i (TargetGroup.item path' target parent)).group.items i =
      TargetGroup.item path' target parent :=
    Function.update_self ..
  have hother : ∀ j, j ≠ i → (c'.create i (TargetGroup.item path' target parent)).group.items j =
      c'.group.items j :=
    fun j hj => Function.update_of_ne hj ..
  have hne : ∀ j ∈ new, j ≠ i := fun j hj => (hnew j hj).1.ne'
  refine ⟨hi.symm ▸ rfl, hcount, fun j hj => (hother j hj.ne).trans (hkept j hj),
    fun h => (hfresh h).put i path' target parent, ⟨new, ?_, hnew, ?_⟩, ?_, ?_, ?_, ?_, ?_⟩
  · rw [Compiled.create, horder, List.append_assoc]
  · refine Forest.close
      (show Forest _ new top from hforest.frame (fun j hj => hother j (hne j hj)) fun _ _ ht => ht)
        ?_ ?_ ?_ ?_ ?_
    · exact fun hin => hne i hin rfl
    · intro j hj ht
      obtain ⟨hpar, hpre, hlist⟩ := hfit j hj ht
      refine ⟨?_, ?_, ?_⟩
      · rw [hother j (hne j hj)]
        exact hpar
      · rw [hother j (hne j hj), hself]
        exact hpre
      · rw [hother j (hne j hj), hself]
        exact hlist
    · intro j hj
      rw [hself] at hj
      obtain ⟨hin, hpar⟩ := hchildren j hj
      exact ⟨hin, (congrArg _ (hother j (hne j hin))).trans hpar⟩
    · intro j hj hpar
      rw [hself] at hpar
      rcases List.mem_append.mp hj with hj | hj
      · exact absurd (hnew j hj).1 (Nat.not_lt.mpr (hparent j hpar).le)
      · exact absurd (hparent j hpar) (List.mem_singleton.mp hj ▸ Nat.lt_irrefl _)
    · rw [hself]
      exact hmask
  · rw [hself]
    rfl
  · rw [hself]
    rfl
  · rw [hself]
    rfl
  · rw [hself]
    exact hext
  · rw [hself]
    exact helements

theorem compileScalar_grows {mapping : Bytes} (hmask : path.MaskOk)
    (hparent : ∀ p, parent = some p → p < c.group.count)
    (h : Compiled.compileScalar lib o parent path mapping c = .ok (i, c')) :
    Grows parent path c i c' := by
  rw [Compiled.compileScalar] at h
  cases hparse : parseScalarTarget lib o mapping with
  | error e =>
    rw [hparse] at h
    cases h
  | ok t =>
    rw [hparse] at h
    obtain ⟨rfl, rfl⟩ := Prod.mk.inj (Except.ok.inj h)
    exact Grows.create (Nat.lt_succ_self _) (fun _ _ => rfl) (fun hf => hf) (List.append_nil _).symm
      (by simp)
      (show Forest _ [] (fun _ => False) from Forest.nil) (by simp) (by simp [Target.children])
        hparent hmask (List.prefix_refl _)
      fun _ => rfl

theorem compileObject_grows {loop : ℕ → Compiled → Except ParseFailure (List ℕ × Compiled)}
    (hmask : path.MaskOk) (hparent : ∀ p, parent = some p → p < c.group.count)
    (hloop : ∀ {targetItems c'}, loop c.group.count c.allocate = .ok (targetItems, c') →
      LoopGrows c.group.count path [] c.allocate targetItems c')
    (h : Compiled.compileObject parent path loop c = .ok (i, c')) : Grows parent path c i c' := by
  rw [Compiled.compileObject] at h
  cases hres : loop c.group.count c.allocate with
  | error e =>
    rw [hres] at h
    cases h
  | ok res =>
    obtain ⟨targetItems, c₁⟩ := res
    rw [hres] at h
    obtain ⟨rfl, rfl⟩ := Prod.mk.inj (Except.ok.inj h)
    obtain ⟨hcount, hkept, hfresh, new, horder, hnew, hforest, htargets⟩ := hloop hres
    refine Grows.create hcount (fun j hj => hkept j (Nat.lt_succ_of_lt hj)) hfresh horder hnew
      hforest ?_ ?_ hparent hmask
      (List.prefix_refl _) fun _ => rfl
    · refine fun j _ ht => ⟨ht.1, ht.2, fun heq => ?_⟩
      cases heq
    · exact fun j hj => (htargets j hj).resolve_left (List.not_mem_nil)

theorem Compiled.setKey_items (key : Bytes) (isAttribute : Bool) (c : Compiled) (i j : ℕ) :
    ((c.setKey key isAttribute i).group.items j).path = (c.group.items j).path ∧
      ((c.setKey key isAttribute i).group.items j).target = (c.group.items j).target ∧
      ((c.setKey key isAttribute i).group.items j).parentTarget =
        (c.group.items j).parentTarget := by
  by_cases hj : j = i
  · subst hj
    simp [Compiled.setKey, TargetGroup.setKey]
  · simp [Compiled.setKey, TargetGroup.setKey, hj]

theorem LoopGrows.cons {target child : ℕ} {foolPath : Path Bytes} {key : Bytes} {isAttribute : Bool}
    {targetItems targetItems' : List ℕ} {c₁ : Compiled} (htarget : target < c.group.count)
    (hpath : path.elements <+: foolPath.elements) (hchild : Grows (some target) foolPath c child c₁)
    (hrest :
      LoopGrows target path
      ((c₁.setKey key isAttribute child).group.appendTargetItem targetItems child)
      (c₁.setKey key isAttribute child) targetItems' c') :
    LoopGrows target path targetItems c targetItems' c' := by
  obtain ⟨new₁, horder₁, hnew₁, hforest₁⟩ := hchild.order
  obtain ⟨hcount, hkept, hfresh, new₂, horder₂, hnew₂, hforest₂, htargets⟩ := hrest
  have hcount₁ : c₁.group.count ≤ c'.group.count := hcount
  have hindex := hchild.index
  have hlt := hchild.count
  have hblock : ∀ j ∈ new₁ ++ [child], child ≤ j ∧ j < c₁.group.count := by
    intro j hj
    rcases List.mem_append.mp hj with hj | hj
    · exact ⟨(hnew₁ j hj).1.le, (hnew₁ j hj).2⟩
    · rw [List.mem_singleton.mp hj]
      exact ⟨le_rfl, hlt⟩
  have hitems : ∀ j ∈ new₁ ++ [child], (c'.group.items j).path = (c₁.group.items j).path ∧
      (c'.group.items j).target = (c₁.group.items j).target ∧
      (c'.group.items j).parentTarget = (c₁.group.items j).parentTarget := by
    intro j hj
    rw [hkept j (hblock j hj).2]
    exact Compiled.setKey_items key isAttribute c₁ child j
  have hmem : child ∈ new₁ ++ [child] := List.mem_append_right _ (List.mem_singleton_self _)
  have htop : (c'.group.items child).parentTarget = some target ∧
      path.elements <+: (c'.group.items child).path.elements := by
    obtain ⟨hp, -, hpar⟩ := hitems child hmem
    rw [hp, hpar]
    exact ⟨hchild.parentTarget, hpath.trans hchild.extends_⟩
  refine ⟨(hindex ▸ hlt.le).trans hcount₁, fun j hj => ?_,
    fun h => hfresh ((hchild.fresh h).setKey key isAttribute child), (new₁ ++ [child]) ++ new₂, ?_,
      fun j hj => ?_, ?_, fun j hj => ?_⟩
  · have hne : j ≠ child := hindex ▸ hj.ne
    have hkey : (c₁.setKey key isAttribute child).group.items j = c₁.group.items j :=
      Function.update_of_ne hne ..
    have hlt' : j < c₁.group.count := hj.trans (hindex ▸ hlt)
    exact (hkept j hlt').trans (hkey.trans (hchild.kept j hj))
  · rw [horder₂, ← List.append_assoc]
    exact congrArg (· ++ new₂) horder₁
  · rcases List.mem_append.mp hj with hj | hj
    · exact ⟨hindex ▸ (hblock j hj).1, (hblock j hj).2.trans_le hcount₁⟩
    · exact ⟨(hindex ▸ hlt.le).trans (hnew₂ j hj).1, (hnew₂ j hj).2⟩
  · refine Forest.append ?_ hforest₂ ?_ ?_
    · refine hforest₁.congr hitems (fun j hj => ?_) fun j _ hj => hj ▸ htop
      by_cases hne : j = child
      · exact .inl (hne ▸ htop)
      · have hkey : (c₁.setKey key isAttribute child).group.items j = c₁.group.items j :=
          Function.update_of_ne hne ..
        rw [hkept j (hblock j hj).2, hkey]
        exact .inr ⟨rfl, rfl⟩
    · intro j hj hj'
      exact absurd (hblock j hj).2 (Nat.not_lt.mpr (hnew₂ j hj').1)
    · intro a ha b _ hb heq
      have hta : target = a := Option.some.inj (hb.1.symm.trans heq)
      exact absurd (hblock a ha).1 (Nat.not_le.mpr (hta ▸ hindex ▸ htarget))
  · rcases htargets j hj with hj | ⟨hj, hpar⟩
    · rcases mem_appendTargetItem hj with rfl | hj
      · exact .inr ⟨List.mem_append_left _ hmem, htop.1⟩
      · exact .inl hj
    · exact .inr ⟨List.mem_append_right _ hj, hpar⟩

mutual

theorem compileTarget_grows :
    (mapping : DynTree) → ∀ {parent : Option ℕ} {path : Path Bytes} {c c' : Compiled} {i : ℕ},
      path.MaskOk →
      (∀ p, parent = some p → p < c.group.count) →
      Compiled.compileTarget lib o parent path mapping c = .ok (i, c') → Grows parent path c i c'
  | .list mapping, parent, path, c, c', i, hmask, hparent, h => by
    rw [Compiled.compileTarget] at h
    exact compileList_grows mapping hmask hparent h
  | .dict mapping, parent, path, c, c', i, hmask, hparent, h => by
    rw [Compiled.compileTarget] at h
    exact compileObject_grows hmask hparent
      (fun hres => compileEntries_grows mapping hmask (Nat.lt_succ_self _) hres) h
  | .string mapping, parent, path, c, c', i, hmask, hparent, h => by
    rw [Compiled.compileTarget] at h
    exact compileScalar_grows hmask hparent h
  | .plain .., _, _, _, _, _, _, _, h => by
    simp [Compiled.compileTarget] at h
  | .oid _, _, _, _, _, _, _, _, h => by
    simp [Compiled.compileTarget] at h
  | .table .., _, _, _, _, _, _, _, h => by
    simp [Compiled.compileTarget] at h

theorem compileList_grows :
    (mapping : List DynTree) → ∀ {parent : Option ℕ} {path : Path Bytes} {c c' : Compiled} {i : ℕ},
      path.MaskOk →
      (∀ p, parent = some p → p < c.group.count) →
      Compiled.compileList lib o parent path mapping c = .ok (i, c') → Grows parent path c i c'
  | [pathSpec, sumMapping], parent, path, c, c', i, hmask, hparent, h => by
    rw [Compiled.compileList] at h
    cases happend : path.append star (Path.named (pathSpec.getString lib.toCLib)) with
    | none =>
      rw [happend] at h
      cases h
    | some foolPath =>
      obtain ⟨hmask', helems⟩ := Path.append_spec hmask happend
      rw [happend] at h
      cases hres : Compiled.compileTarget lib o (some c.group.count) foolPath sumMapping
        c.allocate with
      | error e =>
        simp only [hres] at h
        cases h
      | ok res =>
        obtain ⟨child, c₁⟩ := res
        simp only [hres] at h
        obtain ⟨rfl, rfl⟩ := Prod.mk.inj (Except.ok.inj h)
        have hchild :=
          compileTarget_grows sumMapping hmask'
            (fun p hp => Option.some.inj hp ▸ Nat.lt_succ_self _) hres
        obtain ⟨new, horder, hnew, hforest⟩ := hchild.order
        have hlt : c.group.count < child := hchild.index ▸ Nat.lt_succ_self _
        refine Grows.create (hlt.trans hchild.count)
          (fun j hj => hchild.kept j (Nat.lt_succ_of_lt hj)) hchild.fresh horder ?_
          hforest ?_ ?_ hparent hmask' (helems ▸ List.prefix_append _ _) fun hnot =>
            absurd rfl (hnot [child])
        · intro j hj
          rcases List.mem_append.mp hj with hj | hj
          · exact ⟨hlt.trans (hnew j hj).1, (hnew j hj).2⟩
          · exact List.mem_singleton.mp hj ▸ ⟨hlt, hchild.count⟩
        · rintro j - rfl
          refine ⟨hchild.parentTarget, hchild.extends_, fun heq => ?_⟩
          obtain rfl := Target.list.inj heq
          exact ⟨List.mem_singleton_self _, hchild.keyName, hchild.keyNameIsAttribute,
            hchild.elements⟩
        · intro j hj
          obtain rfl := List.mem_singleton.mp hj
          exact ⟨List.mem_append_right _ (List.mem_singleton_self _), hchild.parentTarget⟩
  | [], _, _, _, _, _, _, _, h => by
    simp [Compiled.compileList] at h
  | [_], _, _, _, _, _, _, _, h => by
    simp [Compiled.compileList] at h
  | _ :: _ :: _ :: _, _, _, _, _, _, _, _, h => by
    simp [Compiled.compileList] at h

theorem compileEntries_grows :
    (mapping : List (Bytes × DynTree)) →
      ∀ {target : ℕ} {path : Path Bytes} {targetItems targetItems' : List ℕ}
      {c c' : Compiled}, path.MaskOk → target < c.group.count →
      Compiled.compileEntries lib o target path mapping targetItems c = .ok (targetItems', c') →
      LoopGrows target path targetItems c targetItems' c'
  | [], target, path, targetItems, targetItems', c, c', hmask, htarget, h => by
    rw [Compiled.compileEntries] at h
    obtain ⟨rfl, rfl⟩ := Prod.mk.inj (Except.ok.inj h)
    exact ⟨le_rfl, fun _ _ => rfl, fun h => h, [], (List.append_nil _).symm, by simp, .nil,
      fun j hj => .inl hj⟩
  | (spec, mapping) :: rest, target, path, targetItems, targetItems', c, c', hmask, htarget, h => by
    rw [Compiled.compileEntries] at h
    simp only at h
    split at h
    · cases h
    · rename_i key isAttribute hkey
      cases happend :
        path.append star
          (Path.named (Tools.simpleSplitPair spec (ascii "->") Tools.whiteSpaces).2.1) with
      | none =>
        rw [happend] at h
        cases h
      | some foolPath =>
        obtain ⟨hmask', helems⟩ := Path.append_spec hmask happend
        rw [happend] at h
        cases hres : Compiled.compileTarget lib o (some target) foolPath mapping c with
        | error e =>
          simp only [hres] at h
          cases h
        | ok res =>
          obtain ⟨child, c₁⟩ := res
          simp only [hres] at h
          have hchild :=
            compileTarget_grows mapping hmask' (fun p hp => Option.some.inj hp ▸ htarget) hres
          have hcount : target < c₁.group.count := htarget.trans (hchild.index ▸ hchild.count)
          exact .cons htarget (helems ▸ List.prefix_append _ _) hchild
            (compileEntries_grows rest hmask hcount h)

end

/-- A compiled mapping: all its target items descend from the root, which is number 0. -/
structure Wired (c : Compiled) : Prop where
  forest : Forest c.group.items c.order (· = 0)
  fresh : c.group.Fresh
  root : 0 ∈ c.order
  noParent : (c.group.items 0).parentTarget = none
  below : ∀ i ∈ c.order, i < c.group.count

theorem fresh_empty : Compiled.empty.group.Fresh := fun _ => rfl

theorem Grows.wired (h : Grows none .empty .empty i c) : i = 0 ∧ Wired c := by
  obtain rfl : i = 0 := h.index
  obtain ⟨new, horder, hnew, hforest⟩ := h.order
  rw [Compiled.empty, List.nil_append] at horder
  refine ⟨rfl, horder ▸ hforest, h.fresh fresh_empty, ?_, h.parentTarget, fun j hj => ?_⟩
  · rw [horder]
    exact List.mem_append_right _ (List.mem_singleton_self _)
  · rw [horder] at hj
    rcases List.mem_append.mp hj with hj | hj
    · exact (hnew j hj).2
    · exact List.mem_singleton.mp hj ▸ h.count

theorem compile_grows {mapping : DynTree} {root : ℕ}
    (h : Compiled.compile lib o mapping = .ok (root, c)) :
    Grows none .empty .empty root c := by
  cases mapping with
  | list mapping => exact compileList_grows mapping Path.maskOk_empty (by simp) h
  | dict mapping =>
    rw [Compiled.compile] at h
    refine compileObject_grows Path.maskOk_empty (by simp) (fun hres => ?_) h
    exact compileEntries_grows mapping Path.maskOk_empty (Nat.lt_succ_self _) hres
  | plain | string | oid | table => cases h

theorem compile_wired {mapping : DynTree} {root : ℕ}
    (h : Compiled.compile lib o mapping = .ok (root, c)) :
    root = 0 ∧ Wired c := (compile_grows h).wired

end Xml2Var
end Nkit
