import Nkit.Mapping.Compiled

/-! A builder hangs the target items of every mapping into one tree and one list of masks, in the
order in which it creates them; for each mapping these are the ones that it compiles to on its
own. -/

namespace Nkit
namespace Xml2Var
open OrderedMap

theorem insertBySize_eq_append {A : Type} {size : A → ℕ} {x : A} {l : List A}
    (h : ∀ y ∈ l, size y = size x) :
    insertBySize size x l = l ++ [x] := by
  induction l with
  | nil => rfl
  | cons y ys ih =>
    rw [insertBySize, h y List.mem_cons_self, if_neg (Nat.lt_irrefl _),
      ih fun z hz => h z (List.mem_cons_of_mem y hz)]
    rfl

namespace StructXml2VarBuilder

def itemAt (b : StructXml2VarBuilder) (i : ItemId) : TargetItem ℕ := (b.groups i.1).items i.2

def inNode (b : StructXml2VarBuilder) (p : List ℕ) (i : ItemId) : Bool :=
  !(b.itemAt i).path.isMask && (b.itemAt i).path.elements == p

structure Hung (b : StructXml2VarBuilder) (created : List ItemId) : Prop where
  masks : b.maskTargetItems = created.filter fun i => (b.itemAt i).path.isMask
  nodes : ∀ p, b.pathTree p = created.filter (b.inNode p)

structure Extends (b b' : StructXml2VarBuilder) : Prop where
  options : b'.options = b.options
  groupCount : b'.groupCount = b.groupCount
  rootTargets : b'.rootTargets = b.rootTargets
  firstNode : b'.firstNode = b.firstNode
  currentPath : b'.currentPath = b.currentPath
  groups : ∀ k, k ≠ b.groupCount → b'.groups k = b.groups k
  grows : b.str2id.Grows b'.str2id

/-- The mapping that is being parsed is compiled to `c` so far. -/
structure Mirrors (b : StructXml2VarBuilder) (created : List ItemId) (c : Compiled) : Prop where
  sane : b.str2id.Sane
  names : TargetGroup.Names b.str2id b.group c.group
  hung : b.Hung created
  older : ∀ i ∈ created, i.1 ≤ b.groupCount
  mine : created.filter (fun i => i.1 == b.groupCount) = c.order.map fun i => (b.groupCount, i)
  below : ∀ i ∈ c.order, i < c.group.count

variable {b b' b'' : StructXml2VarBuilder} {created : List ItemId} {c : Compiled}

theorem Extends.refl : b.Extends b := ⟨rfl, rfl, rfl, rfl, rfl, fun _ _ => rfl, .refl⟩

theorem Extends.trans (h : b.Extends b') (h' : b'.Extends b'') : b.Extends b'' where
  options := h'.options.trans h.options
  groupCount := h'.groupCount.trans h.groupCount
  rootTargets := h'.rootTargets.trans h.rootTargets
  firstNode := h'.firstNode.trans h.firstNode
  currentPath := h'.currentPath.trans h.currentPath
  groups := fun k hk => (h'.groups k (h.groupCount ▸ hk)).trans (h.groups k hk)
  grows := h.grows.trans h'.grows

theorem groups_setGroup (g : TargetGroup ℕ) (b : StructXml2VarBuilder) :
    (b.setGroup g).groups b.groupCount = g :=
  Function.update_self ..

theorem setGroup_extends (g : TargetGroup ℕ) (b : StructXml2VarBuilder) :
    b.Extends (b.setGroup g) :=
  ⟨rfl, rfl, rfl, rfl, rfl, fun _ hk => Function.update_of_ne hk .., .refl⟩

theorem Hung.setGroup (h : b.Hung created) (g : TargetGroup ℕ)
    (hsame : ∀ i ∈ created, ((b.setGroup g).itemAt i).path = (b.itemAt i).path) :
    (b.setGroup g).Hung created where
  masks := h.masks.trans (List.filter_congr fun i hi => by rw [hsame i hi])
  nodes :=
    fun p => (h.nodes p).trans (List.filter_congr fun i hi => by rw [inNode, inNode, hsame i hi])

theorem Mirrors.mem_order (h : b.Mirrors created c) {i : ItemId} (hi : i ∈ created)
    (hk : i.1 = b.groupCount) :
    i.2 ∈ c.order := by
  have hmem : i ∈ created.filter fun i => i.1 == b.groupCount :=
    List.mem_filter.mpr ⟨hi, by simpa using hk⟩
  rw [h.mine] at hmem
  obtain ⟨j, hj, rfl⟩ := List.mem_map.mp hmem
  exact hj

theorem Mirrors.setGroup (h : b.Mirrors created c) {g : TargetGroup ℕ} {g' : TargetGroup Bytes}
    (hn : TargetGroup.Names b.str2id g g') (hcount : c.group.count ≤ g'.count)
    (hpath : ∀ i ∈ c.order, (g.items i).path = (b.group.items i).path) :
    (b.setGroup g).Mirrors created { c with group := g' } where
  sane := h.sane
  names := by
    rw [group, (setGroup_extends g b).groupCount, groups_setGroup]
    exact hn
  hung := by
    refine h.hung.setGroup g fun i hi => ?_
    by_cases hk : i.1 = b.groupCount
    · have hg : (b.setGroup g).itemAt i = g.items i.2 := by
        rw [itemAt, hk, groups_setGroup]
      rw [hg, hpath i.2 (h.mem_order hi hk), itemAt, hk]
      rfl
    · rw [itemAt, (setGroup_extends g b).groups _ hk, itemAt]
  older := h.older
  mine := h.mine
  below := fun i hi => (h.below i hi).trans_le hcount

theorem Mirrors.allocate (h : b.Mirrors created c) :
    (b.setGroup b.group.allocate.2).Mirrors created c.allocate :=
  h.setGroup h.names.allocate (Nat.le_succ _) fun _ _ => rfl

theorem Mirrors.setKey (h : b.Mirrors created c) (key : Bytes) (isAttribute : Bool) (i : ℕ) :
    (b.setGroup (b.group.setKey key isAttribute i)).Mirrors created
      (c.setKey key isAttribute i) := by
  refine h.setGroup (h.names.setKey key isAttribute i) le_rfl fun j _ => ?_
  by_cases hj : j = i
  · subst hj
    simp [TargetGroup.setKey]
  · simp [TargetGroup.setKey, hj]

theorem Mirrors.read (h : b.Mirrors created c) {str2id : String2IdMap} (hs : str2id.Sane)
    (hg : b.str2id.Grows str2id) :
    (b.setStr2id str2id).Mirrors created c ∧ b.Extends (b.setStr2id str2id) :=
  ⟨⟨hs, h.names.grows hg, ⟨h.hung.masks, h.hung.nodes⟩, h.older, h.mine, h.below⟩,
    ⟨rfl, rfl, rfl, rfl, rfl, fun _ _ => rfl, hg⟩⟩

theorem Mirrors.create (h : b.Mirrors created c) {i : ℕ} {x : TargetItem ℕ} {y : TargetItem Bytes}
    (hi : i < c.group.count) (hnew : i ∉ c.order) (hx : TargetItem.Names b.str2id x y) :
    (b.createTargetItem i x).Mirrors (created ++ [(b.groupCount, i)]) (c.create i y) ∧
      b.Extends (b.createTargetItem i x) := by
  have hset := h.setGroup (h.names.put i hx) le_rfl fun j hj => by
    have hji : j ≠ i := fun heq => hnew (heq ▸ hj)
    simp [TargetGroup.put, hji]
  set b₁ := b.setGroup (b.group.put i x) with hb₁
  have hat : b₁.itemAt (b.groupCount, i) = x := by
    simp [b₁, itemAt, StructXml2VarBuilder.setGroup, TargetGroup.put]
  have hmine : (created ++ [(b.groupCount, i)]).filter (fun i => i.1 == b.groupCount) =
      (c.order ++ [i]).map fun i => (b.groupCount, i) := by
    rw [List.filter_append, h.mine, List.map_append]
    simp
  have holder : ∀ j ∈ created ++ [(b.groupCount, i)], j.1 ≤ b.groupCount := by
    intro j hj
    rcases List.mem_append.mp hj with hj | hj
    · exact h.older j hj
    · rw [List.mem_singleton.mp hj]
  have hbelow : ∀ j ∈ c.order ++ [i], j < c.group.count := by
    intro j hj
    rcases List.mem_append.mp hj with hj | hj
    · exact h.below j hj
    · exact List.mem_singleton.mp hj ▸ hi
  have hext : b.Extends b₁ := setGroup_extends _ b
  by_cases hmask : x.path.isMask = true
  · have heq : b.createTargetItem i x =
        { b₁ with maskTargetItems := b₁.maskTargetItems ++ [(b.groupCount, i)] } := by
      rw [createTargetItem, if_pos hmask]
      rfl
    rw [heq]
    refine ⟨⟨h.sane, hset.names, ⟨?_, fun p => ?_⟩, holder, hmine, hbelow⟩,
      ⟨rfl, rfl, rfl, rfl, rfl, hext.groups, .refl⟩⟩
    · show b₁.maskTargetItems ++ _ = (created ++ _).filter fun i => (b₁.itemAt i).path.isMask
      rw [List.filter_append, ← hset.hung.masks]
      simp [hat, hmask]
    · show b₁.pathTree p = (created ++ _).filter (b₁.inNode p)
      rw [List.filter_append, ← hset.hung.nodes]
      simp [inNode, hat, hmask]
  · -- the items of one node have paths of one length, so the insertion goes to the end
    have hsize : ∀ j ∈ b₁.pathTree x.path.elements,
        (b₁.itemAt j).path.elements.length =
          (b₁.itemAt (b.groupCount, i)).path.elements.length := by
      intro j hj
      rw [hset.hung.nodes] at hj
      obtain ⟨-, hj⟩ := List.mem_filter.mp hj
      simp only [inNode, Bool.and_eq_true, beq_iff_eq] at hj
      rw [hj.2, hat]
    have heq : b.createTargetItem i x = { b₁ with
        pathTree :=
          Function.update b₁.pathTree x.path.elements
          (b₁.pathTree x.path.elements ++ [(b.groupCount, i)]) } := by
      rw [createTargetItem, if_neg hmask, putTargetItem, ← insertBySize_eq_append hsize]
      rfl
    rw [heq]
    refine ⟨⟨h.sane, hset.names, ⟨?_, fun p => ?_⟩, holder, hmine, hbelow⟩,
      ⟨rfl, rfl, rfl, rfl, rfl, hext.groups, .refl⟩⟩
    · show b₁.maskTargetItems = (created ++ _).filter fun i => (b₁.itemAt i).path.isMask
      rw [List.filter_append, ← hset.hung.masks]
      simp [hat, hmask]
    · show Function.update b₁.pathTree _ _ p = (created ++ _).filter (b₁.inNode p)
      rw [List.filter_append, ← hset.hung.nodes]
      by_cases hp : p = x.path.elements
      · subst hp
        simp [inNode, hat, hmask]
      · rw [Function.update_of_ne hp]
        simp [inNode, hat, hmask, Ne.symm hp]

def Parses {A : Type} (b : StructXml2VarBuilder) (created : List ItemId) (n : ℕ)
    (r : Except ParseFailure A × StructXml2VarBuilder) : Except ParseFailure (A × Compiled) → Prop
  | .error e => r.1 = .error e
  | .ok (a, c) =>
    r.1 = .ok a ∧ b.Extends r.2 ∧ n ≤ c.group.count ∧
      ∃ new, r.2.Mirrors (created ++ new) c ∧ ∀ i ∈ new, i.1 = b.groupCount ∧ n ≤ i.2

theorem Parses.cases {A : Type} {n : ℕ} {r : Except ParseFailure A × StructXml2VarBuilder}
    {r' : Except ParseFailure (A × Compiled)} (h : b.Parses created n r r') :
    (∃ e b', r = (.error e, b') ∧ r' = .error e) ∨
      ∃ a b' c', r = (.ok a, b') ∧ r' = .ok (a, c') ∧
        b.Parses created n (.ok a, b') (.ok (a, c')) := by
  obtain ⟨r, b'⟩ := r
  match r', h with
  | .error e, h =>
    obtain rfl : r = .error e := h
    exact .inl ⟨e, b', rfl, rfl⟩
  | .ok (a, c'), h =>
    obtain rfl : r = .ok a := h.1
    exact .inr ⟨a, b', c', rfl, rfl, h⟩

variable {lib : ScalarLib}

theorem Parses.create {A : Type} {b₀ : StructXml2VarBuilder}
    {r : Except ParseFailure A × StructXml2VarBuilder} {a : A} (h₀ : b₀.Mirrors created c)
    (hext : b₀.Extends b) {c' : Compiled} (h : b.Parses created (c.group.count + 1) r (.ok (a, c')))
    {x : TargetItem ℕ} {y : TargetItem Bytes} (hx : TargetItem.Names r.2.str2id x y) :
    b₀.Parses created c.group.count (.ok c.group.count, r.2.createTargetItem c.group.count x)
      (.ok (c.group.count, c'.create c.group.count y)) := by
  obtain ⟨-, hext', hcount, new, hm, hnew⟩ := h
  have hgroup : r.2.groupCount = b₀.groupCount := hext'.groupCount.trans hext.groupCount
  have hfresh : c.group.count ∉ c'.order := by
    intro hin
    have hmem : (r.2.groupCount, c.group.count) ∈ (created ++ new).filter fun i =>
        i.1 == r.2.groupCount := by
      rw [hm.mine]
      exact List.mem_map.mpr ⟨_, hin, rfl⟩
    rcases List.mem_append.mp (List.mem_filter.mp hmem).1 with hold | hnew'
    · exact absurd (h₀.below _ (h₀.mem_order hold hgroup)) (Nat.lt_irrefl _)
    · exact absurd (hnew _ hnew').2 (Nat.not_succ_le_self _)
  obtain ⟨hm', hext''⟩ := hm.create hcount hfresh hx
  refine ⟨rfl, (hext.trans hext').trans hext'', (Nat.le_succ _).trans hcount,
    new ++ [(r.2.groupCount, c.group.count)], ?_, fun i hi => ?_⟩
  · rw [← List.append_assoc]
    exact hm'
  · rcases List.mem_append.mp hi with hi | hi
    · exact ⟨(hnew i hi).1.trans hext.groupCount, (Nat.le_succ _).trans (hnew i hi).2⟩
    · rw [List.mem_singleton.mp hi]
      exact ⟨hgroup, le_rfl⟩

theorem parseScalarTargetSpec_parses {p : Path ℕ} {q : Path Bytes} (parent : Option ℕ)
    (mapping : Bytes) (h : b.Mirrors created c) (hp : Path.Names b.str2id p q) :
    b.Parses created c.group.count (parseScalarTargetSpec lib parent p mapping b)
      (Compiled.compileScalar lib b.options parent q mapping c) := by
  rw [parseScalarTargetSpec, Compiled.compileScalar]
  cases parseScalarTarget lib b.options mapping with
  | error e => exact rfl
  | ok t =>
    have hcount : b.group.count = c.group.count := h.names.count
    have hstart : (b.setGroup b.group.allocate.2).Parses created (c.group.count + 1)
        (.ok (), b.setGroup b.group.allocate.2) (.ok ((), c.allocate)) := by
      refine ⟨rfl, .refl, le_rfl, [], ?_, by simp⟩
      rw [List.append_nil]
      exact h.allocate
    have hres := Parses.create h (setGroup_extends b.group.allocate.2 b) hstart
      (x := TargetGroup.item p (.scalar t) parent) (y := TargetGroup.item q (.scalar t) parent)
        ⟨hp, rfl, rfl, rfl, rfl⟩
    simp only [TargetGroup.allocate, hcount] at hres ⊢
    exact hres

theorem parseObjectTargetSpec_parses {p : Path ℕ} {q : Path Bytes} (parent : Option ℕ)
    {loop : ℕ → StructXml2VarBuilder → Except ParseFailure (List ℕ) × StructXml2VarBuilder}
    {loop' : ℕ → Compiled → Except ParseFailure (List ℕ × Compiled)}
    (h : b.Mirrors created c) (hp : Path.Names b.str2id p q)
    (hloop : ∀ target b₁, b.Extends b₁ → b₁.Mirrors created c.allocate →
      b₁.Parses created (c.group.count + 1) (loop target b₁) (loop' target c.allocate)) :
    b.Parses created c.group.count (parseObjectTargetSpec parent p loop b)
      (Compiled.compileObject parent q loop' c) := by
  have hcount : b.group.count = c.group.count := h.names.count
  have hres := hloop c.group.count _ (setGroup_extends b.group.allocate.2 b) h.allocate
  rw [parseObjectTargetSpec, Compiled.compileObject]
  simp only [TargetGroup.allocate, hcount] at hres ⊢
  obtain ⟨e, b', hr, hr'⟩ | ⟨targetItems, b', c', hr, hr', hres⟩ := hres.cases
  · simp only [hr, hr']
    rfl
  · simp only [hr, hr']
    refine Parses.create h (setGroup_extends _ b) hres ⟨hp.grows ?_, rfl, rfl, rfl, rfl⟩
    exact ((setGroup_extends _ b).trans hres.2.1).grows

theorem Parses.after {A : Type} {n n₁ : ℕ} {new : List ItemId}
    {r : Except ParseFailure A × StructXml2VarBuilder} {r' : Except ParseFailure (A × Compiled)}
    (hext : b.Extends b') (hnew : ∀ i ∈ new, i.1 = b.groupCount ∧ n ≤ i.2) (hn : n ≤ n₁)
    (h : b'.Parses (created ++ new) n₁ r r') :
    b.Parses created n r r' := by
  match r', h with
  | .error e, h => exact h
  | .ok (a, c), ⟨ha, hext', hcount, new', hm, hnew'⟩ =>
    refine ⟨ha, hext.trans hext', hn.trans hcount, new ++ new', ?_, fun i hi => ?_⟩
    · rw [← List.append_assoc]
      exact hm
    · rcases List.mem_append.mp hi with hi | hi
      · exact hnew i hi
      · exact ⟨(hnew' i hi).1.trans hext.groupCount, hn.trans (hnew' i hi).2⟩

mutual

theorem parseTargetSpec_parses (parent : Option ℕ) {p : Path ℕ} {q : Path Bytes} :
    (mapping : DynTree) → ∀ {b : StructXml2VarBuilder} {created : List ItemId} {c : Compiled},
      b.Mirrors created c → Path.Names b.str2id p q →
      b.Parses created c.group.count (parseTargetSpec lib parent p mapping b)
        (Compiled.compileTarget lib b.options parent q mapping c)
  | .list mapping, b, created, c, h, hp => by
    rw [parseTargetSpec, Compiled.compileTarget]
    exact parseListTargetSpec_parses parent mapping h hp
  | .dict mapping, b, created, c, h, hp => by
    rw [parseTargetSpec, Compiled.compileTarget]
    refine parseObjectTargetSpec_parses parent h hp fun target b₁ hext hm => ?_
    rw [← hext.options]
    exact parseEntries_parses target mapping [] hm (hp.grows hext.grows)
  | .string mapping, b, created, c, h, hp => by
    rw [parseTargetSpec, Compiled.compileTarget]
    exact parseScalarTargetSpec_parses parent mapping h hp
  | .plain .., b, created, c, h, hp => by
    rw [parseTargetSpec, Compiled.compileTarget]
    all_goals first | rfl | simp
  | .oid _, b, created, c, h, hp => by
    rw [parseTargetSpec, Compiled.compileTarget]
    all_goals first | rfl | simp
  | .table .., b, created, c, h, hp => by
    rw [parseTargetSpec, Compiled.compileTarget]
    all_goals first | rfl | simp

theorem parseListTargetSpec_parses (parent : Option ℕ) {p : Path ℕ} {q : Path Bytes} :
    (mapping : List DynTree) → ∀ {b : StructXml2VarBuilder} {created : List ItemId} {c : Compiled},
      b.Mirrors created c → Path.Names b.str2id p q →
      b.Parses created c.group.count (parseListTargetSpec lib parent p mapping b)
        (Compiled.compileList lib b.options parent q mapping c)
  | [pathSpec, sumMapping], b, created, c, h, hp => by
    rw [parseListTargetSpec, Compiled.compileList]
    have hcount : b.group.count = c.group.count := h.names.count
    obtain ⟨hs, hg, hn⟩ := Path.parse_names h.sane (pathSpec.getString lib.toCLib)
    obtain ⟨hm₁, hext₁⟩ := h.allocate.read hs hg
    have happend := (hp.grows hg).append hs hn
    replace hext₁ := (setGroup_extends b.group.allocate.2 b).trans hext₁
    simp only [TargetGroup.allocate, hcount] at hm₁ hext₁ ⊢
    generalize p.append String2IdMap.starId _ = fp, q.append star _ = fq at happend ⊢
    cases happend with
    | none => rfl
    | @some foolPath foolPath' hfool =>
      have hres := parseTargetSpec_parses (some c.group.count) sumMapping hm₁ hfool
      rw [hext₁.options] at hres
      obtain ⟨e, b', hr, hr'⟩ | ⟨child, b', c', hr, hr', hres⟩ := hres.cases
      · simp only [hr, hr']
        rfl
      · simp only [hr, hr']
        exact Parses.create h hext₁ hres ⟨hfool.grows hres.2.1.grows, rfl, rfl, rfl, rfl⟩
  | [], b, created, c, h, hp => by
    rw [parseListTargetSpec, Compiled.compileList]
    all_goals first | rfl | simp
  | [_], b, created, c, h, hp => by
    rw [parseListTargetSpec, Compiled.compileList]
    all_goals first | rfl | simp
  | _ :: _ :: _ :: _, b, created, c, h, hp => by
    rw [parseListTargetSpec, Compiled.compileList]
    all_goals first | rfl | simp

theorem parseEntries_parses (target : ℕ) {p : Path ℕ} {q : Path Bytes} :
    (mapping : List (Bytes × DynTree)) →
      ∀ (targetItems : List ℕ) {b : StructXml2VarBuilder} {created : List ItemId}
      {c : Compiled}, b.Mirrors created c → Path.Names b.str2id p q →
      b.Parses created c.group.count (parseEntries lib target p mapping targetItems b)
        (Compiled.compileEntries lib b.options target q mapping targetItems c)
  | [], targetItems, b, created, c, h, hp => by
    rw [parseEntries, Compiled.compileEntries]
    refine ⟨rfl, .refl, le_rfl, [], ?_, by simp⟩
    rw [List.append_nil]
    exact h
  | (spec, mapping) :: rest, targetItems, b, created, c, h, hp => by
    rw [parseEntries, Compiled.compileEntries]
    obtain ⟨hs, hg, hn⟩ :=
      Path.parse_names h.sane (Tools.simpleSplitPair spec (ascii "->") Tools.whiteSpaces).2.1
    obtain ⟨hm₁, hext₁⟩ := h.read hs hg
    have happend := (hp.grows hg).append hs hn
    simp only [hn.getLastElementName hs, hn.attributeName]
    cases entryKey _ _ (Tools.simpleSplitPair spec (ascii "->") Tools.whiteSpaces).2.2 with
    | error e => rfl
    | ok key =>
      obtain ⟨key, keyIsAttribute⟩ := key
      simp only
      generalize p.append String2IdMap.starId _ = fp, q.append star _ = fq at happend ⊢
      cases happend with
      | none => rfl
      | @some foolPath foolPath' hfool =>
        have hres := parseTargetSpec_parses (some target) mapping hm₁ hfool
        rw [hext₁.options] at hres
        obtain ⟨e, b', hr, hr'⟩ | ⟨child, b', c', hr, hr', -, hext, hcount, new, hm, hnew⟩ :=
          hres.cases
        · simp only [hr, hr']
          rfl
        · simp only [hr, hr']
          have hkey := hm.setKey key keyIsAttribute child
          have hext' :=
            (hext₁.trans hext).trans
              (setGroup_extends (b'.group.setKey key keyIsAttribute child) b')
          have hrest :=
            parseEntries_parses target rest
              ((c'.setKey key keyIsAttribute child).group.appendTargetItem
            targetItems child) hkey (hp.grows hext'.grows)
          rw [hext'.options] at hrest
          rw [hkey.names.appendTargetItem]
          exact hrest.after hext' hnew hcount

end

theorem parseMapping_parses (mapping : DynTree) (h : b.Mirrors created .empty) :
    b.Parses created 0 (parseMapping lib mapping b) (Compiled.compile lib b.options mapping) := by
  cases mapping with
  | list mapping =>
    rw [parseMapping, Compiled.compile]
    exact parseListTargetSpec_parses none mapping h Path.names_empty
  | dict mapping =>
    rw [parseMapping, Compiled.compile]
    refine parseObjectTargetSpec_parses none h Path.names_empty fun target b₁ hext hm => ?_
    rw [← hext.options]
    exact parseEntries_parses target mapping [] hm Path.names_empty
  | plain | string | oid | table => rfl

end StructXml2VarBuilder

end Xml2Var
end Nkit
