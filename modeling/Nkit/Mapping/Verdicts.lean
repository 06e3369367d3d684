import Nkit.Mapping.Wiring

/-! What parsing leaves in a builder when it rejects a mapping.  Target items are hung into the tree
while the mapping is still being parsed; those that were hung before the failure stay there, and
the target that was to be the parent of the last of them is gone. -/

namespace Nkit
namespace Xml2Var
open OrderedMap

/-- No type of `ParseScalarTargetSpec`, or a default value that is none of the boolean variants. -/
def scalarRejected (o : StructOptions) (mapping : Bytes) : Bool :=
  match Tools.simpleSplit mapping (ascii "|") Tools.whiteSpaces with
  | [] => true
  | type :: rest =>
    if type = ascii "boolean" then
      match rest with
      | [] => false
      | booleanDefault :: _ =>
        o.useCustomBoolVariants && !o.trueVariants.contains booleanDefault &&
          !o.falseVariants.contains booleanDefault
    else
      !([ascii "string", ascii "integer", ascii "number", ascii "datetime"].contains type)

/-- The key of an entry is `@`, or it would be the attribute name `*`. -/
def keyRejected (spec : Bytes) : Bool :=
  let (_, pathSpec, key) := Tools.simpleSplitPair spec (ascii "->") Tools.whiteSpaces
  key == ascii "@" || (key.isEmpty && (splitPath pathSpec).2 == star)

mutual

/-- The target items of a mapping in the order in which they would be hung into the tree, with
`false` in the place of each one that is rejected. -/
def verdicts (o : StructOptions) : DynTree → List Bool
  | .list mapping => listVerdicts o mapping
  | .dict mapping => entriesVerdicts o mapping ++ [true]
  | .string mapping => [!scalarRejected o mapping]
  | _ => [false]

def listVerdicts (o : StructOptions) : List DynTree → List Bool
  | [_, sumMapping] => verdicts o sumMapping ++ [true]
  | _ => [false]

def entriesVerdicts (o : StructOptions) : List (Bytes × DynTree) → List Bool
  | [] => []
  | (spec, mapping) :: rest =>
    (if keyRejected spec then [false] else verdicts o mapping) ++ entriesVerdicts o rest

end

def mappingVerdicts (o : StructOptions) : DynTree → List Bool
  | .list mapping => verdicts o (.list mapping)
  | .dict mapping => verdicts o (.dict mapping)
  | _ => [false]

/-- Nothing is rejected, or the very first target item is. -/
def RejectedFirst (o : StructOptions) (mapping : DynTree) : Prop :=
  false ∈ mappingVerdicts o mapping → (mappingVerdicts o mapping).head? = some false

instance (o : StructOptions) (mapping : DynTree) :
    Decidable (RejectedFirst o mapping) := inferInstanceAs (Decidable (_ → _))

theorem parseScalarTarget_cases (lib : ScalarLib) (o : StructOptions) (mapping : Bytes) :
    (∃ t, parseScalarTarget lib o mapping = .ok t ∧ scalarRejected o mapping = false) ∨
      ∃ text, parseScalarTarget lib o mapping = .error (.error text) ∧ scalarRejected o mapping =
        true ∧ text ≠ [] := by
  rw [parseScalarTarget, scalarRejected]
  cases Tools.simpleSplit mapping (ascii "|") Tools.whiteSpaces with
  | nil => exact .inr ⟨_, rfl, rfl, ascii_ne_nil (by decide)⟩
  | cons type rest =>
    simp only
    by_cases hboolean : type = ascii "boolean"
    · subst hboolean
      cases rest with
      | nil => exact .inl ⟨_, rfl, rfl⟩
      | cons booleanDefault rest =>
        by_cases hcustom : (o.useCustomBoolVariants && !o.trueVariants.contains booleanDefault &&
            !o.falseVariants.contains booleanDefault) = true
        · refine .inr ⟨booleanDefaultError o booleanDefault, ?_, ?_,
            by simp [booleanDefaultError, ascii_ne_nil]⟩
          · simp only [hcustom, if_true]
            rfl
          · rw [if_pos rfl]
            exact hcustom
        · refine .inl ⟨createScalar lib o .boolean [booleanDefault], ?_, ?_⟩
          · simp only [hcustom, Bool.false_eq_true, if_false]
            rfl
          · rw [if_pos rfl]
            exact Bool.eq_false_iff.mpr hcustom
    · simp only [if_neg hboolean]
      split_ifs with hstring hinteger hnumber hdatetime
      · exact .inl ⟨_, rfl, by simp [hstring]⟩
      · exact .inl ⟨_, rfl, by simp [hinteger]⟩
      · exact .inl ⟨_, rfl, by simp [hnumber]⟩
      · exact .inl ⟨_, rfl, by simp [hdatetime]⟩
      · exact .inr ⟨_, rfl, by simp [hstring, hinteger, hnumber, hdatetime], by simp [ascii_ne_nil]⟩

theorem entryKey_cases (lastElementName spec : Bytes) :
    let key := (Tools.simpleSplitPair spec (ascii "->") Tools.whiteSpaces).2.2
    let path := Path.named (Tools.simpleSplitPair spec (ascii "->") Tools.whiteSpaces).2.1
    (∃ k, entryKey lastElementName path.attributeName key = .ok k ∧ keyRejected spec = false) ∨
      ∃ text, entryKey lastElementName path.attributeName key = .error (.error text) ∧
        keyRejected spec = true ∧
        text ≠ [] := by
  rw [keyRejected]
  obtain ⟨found, pathSpec, key⟩ := Tools.simpleSplitPair spec (ascii "->") Tools.whiteSpaces
  simp only
  have hattr : (Path.named pathSpec).attributeName = (splitPath pathSpec).2 := rfl
  rw [entryKey, hattr]
  cases key with
  | nil =>
    simp only [List.isEmpty_nil, if_true]
    split_ifs with hempty hstar
    · refine .inl ⟨_, rfl, ?_⟩
      rw [List.isEmpty_iff.mp hempty]
      rfl
    · refine .inr ⟨_, rfl, ?_, ascii_ne_nil (by decide)⟩
      rw [hstar]
      rfl
    · refine .inl ⟨_, rfl, ?_⟩
      simpa [ascii] using hstar
  | cons c key =>
    simp only [List.isEmpty_cons, Bool.false_eq_true, if_false, Bool.false_and, Bool.or_false]
    have hkey : (c :: key == ascii "@") =
        ((ascii "@").isPrefixOf (c :: key) && ((c :: key).drop 1).isEmpty) := by
      rw [List.drop_one, List.tail_cons]
      cases key with
      | nil => simp [ascii, List.isPrefixOf, eq_comm]
      | cons => simp [ascii, List.isPrefixOf]
    split_ifs with hat hdrop
    · exact .inr ⟨_, rfl, by rw [hkey, hat, hdrop, Bool.and_self], ascii_ne_nil (by decide)⟩
    · exact .inl ⟨_, rfl, by rw [hkey, Bool.eq_false_iff.mpr hdrop, Bool.and_false]⟩
    · exact .inl ⟨_, rfl, by rw [hkey, Bool.eq_false_iff.mpr hat, Bool.false_and]⟩

def Decided {A : Type} (v : List Bool) : Except ParseFailure A → Prop
  | .ok _ => false ∉ v
  | .error (.error _) => false ∈ v
  | .error .assertion => True

namespace Decided
variable {A B : Type} {v w : List Bool}

theorem error {e : ParseFailure} (h : Decided v (.error e : Except ParseFailure A)) :
    Decided (v ++ w) (.error e : Except ParseFailure B) := by
  cases e with
  | error text => exact List.mem_append_left w h
  | assertion => trivial

theorem ok {a : A} (h : Decided v (.ok a)) {r : Except ParseFailure B} (h' : Decided w r) :
    Decided (v ++ w) r := by
  match r, h' with
  | .ok _, h' => exact List.mem_append.not.mpr (not_or.mpr ⟨h, h'⟩)
  | .error (.error _), h' => exact List.mem_append_right v h'
  | .error .assertion, _ => trivial

theorem create {a : A} {b : B} (h : Decided v (.ok a)) : Decided (v ++ [true]) (.ok b) :=
  h.ok (w := [true]) (by simp [Decided])

end Decided

namespace Compiled
variable {lib : ScalarLib} {o : StructOptions}

theorem compileScalar_decided (parent : Option ℕ) (path : Path Bytes) (mapping : Bytes)
    (c : Compiled) :
    Decided [!scalarRejected o mapping] (compileScalar lib o parent path mapping c) := by
  rw [compileScalar]
  obtain ⟨t, hparse, hrej⟩ | ⟨text, hparse, hrej, -⟩ := parseScalarTarget_cases lib o mapping
  · rw [hparse, hrej]
    simp [Decided]
  · rw [hparse, hrej]
    simp [Decided]

theorem compileObject_decided {v : List Bool}
    {loop : ℕ → Compiled → Except ParseFailure (List ℕ × Compiled)} (parent : Option ℕ)
    (path : Path Bytes) (c : Compiled) (hloop : Decided v (loop c.group.count c.allocate)) :
    Decided (v ++ [true]) (compileObject parent path loop c) := by
  rw [compileObject]
  cases hres : loop c.group.count c.allocate with
  | error e => exact Decided.error (hres ▸ hloop)
  | ok res => exact Decided.create (hres ▸ hloop)

mutual

theorem compileTarget_decided :
    (mapping : DynTree) → ∀ (parent : Option ℕ) (path : Path Bytes) (c : Compiled),
      Decided (verdicts o mapping) (compileTarget lib o parent path mapping c)
  | .list mapping, parent, path, c => by
    rw [compileTarget, verdicts]
    exact compileList_decided mapping parent path c
  | .dict mapping, parent, path, c => by
    rw [compileTarget, verdicts]
    exact compileObject_decided parent path c (compileEntries_decided mapping _ path [] _)
  | .string mapping, parent, path, c => by
    rw [compileTarget, verdicts]
    exact compileScalar_decided parent path mapping c
  | .plain .., _, _, _ => by
    simp [compileTarget, verdicts, Decided]
  | .oid _, _, _, _ => by
    simp [compileTarget, verdicts, Decided]
  | .table .., _, _, _ => by
    simp [compileTarget, verdicts, Decided]

theorem compileList_decided :
    (mapping : List DynTree) → ∀ (parent : Option ℕ) (path : Path Bytes) (c : Compiled),
      Decided (listVerdicts o mapping) (compileList lib o parent path mapping c)
  | [pathSpec, sumMapping], parent, path, c => by
    rw [compileList, listVerdicts]
    cases path.append star (Path.named (pathSpec.getString lib.toCLib)) with
    | none => trivial
    | some foolPath =>
      have hsub := compileTarget_decided sumMapping (some c.group.count) foolPath c.allocate
      simp only
      cases hres : compileTarget lib o (some c.group.count) foolPath sumMapping c.allocate with
      | error e => exact Decided.error (hres ▸ hsub)
      | ok res => exact Decided.create (hres ▸ hsub)
  | [], _, _, _ => by
    simp [compileList, listVerdicts, Decided]
  | [_], _, _, _ => by
    simp [compileList, listVerdicts, Decided]
  | _ :: _ :: _ :: _, _, _, _ => by
    simp [compileList, listVerdicts, Decided]

theorem compileEntries_decided :
    (mapping : List (Bytes × DynTree)) →
      ∀ (target : ℕ) (path : Path Bytes) (targetItems : List ℕ) (c : Compiled),
      Decided (entriesVerdicts o mapping) (compileEntries lib o target path mapping targetItems c)
  | [], _, _, _, _ => by
    simp [compileEntries, entriesVerdicts, Decided]
  | (spec, mapping) :: rest, target, path, targetItems, c => by
    rw [compileEntries, entriesVerdicts]
    obtain ⟨⟨key, isAttribute⟩, hkey, hrej⟩ | ⟨text, hkey, hrej, -⟩ := entryKey_cases
      (Path.named (Tools.simpleSplitPair spec (ascii "->") Tools.whiteSpaces).2.1).lastElementName
        spec
    · simp only [hkey, hrej, Bool.false_eq_true, if_false]
      cases path.append star
        (Path.named (Tools.simpleSplitPair spec (ascii "->") Tools.whiteSpaces).2.1) with
      | none => trivial
      | some foolPath =>
        have hsub := compileTarget_decided mapping (some target) foolPath c
        simp only
        cases hres : compileTarget lib o (some target) foolPath mapping c with
        | error e => exact Decided.error (hres ▸ hsub)
        | ok res => exact Decided.ok (hres ▸ hsub) (compileEntries_decided rest target path _ _)
    · simp [hkey, hrej, Decided]

end

theorem compile_decided (mapping : DynTree) :
    Decided (mappingVerdicts o mapping) (compile lib o mapping) := by
  cases mapping with
  | list mapping =>
    rw [compile, mappingVerdicts, verdicts]
    exact compileList_decided mapping none .empty .empty
  | dict mapping =>
    rw [compile, mappingVerdicts, verdicts]
    exact compileObject_decided none .empty .empty (compileEntries_decided mapping _ .empty [] _)
  | plain | string | oid | table => exact List.mem_singleton_self false

end Compiled

def Compiled.Orphaned (c : Compiled) : Prop :=
  ∃ i ∈ c.order, ∃ parent, (c.group.items i).parentTarget = some parent ∧ parent ∉ c.order

namespace StructXml2VarBuilder
variable {b b' b'' : StructXml2VarBuilder} {created : List ItemId} {c c' c'' : Compiled}
  {new new' : List ℕ}
variable {lib : ScalarLib}

/-- The target items `new` are hung, those of `c` still have their parents. -/
structure Leaves (b : StructXml2VarBuilder) (created : List ItemId) (c : Compiled)
    (b' : StructXml2VarBuilder)
    (new : List ℕ) (c' : Compiled) : Prop where
  extends_ : b.Extends b'
  mirrors : b'.Mirrors (created ++ new.map fun i => (b.groupCount, i)) c'
  order : c'.order = c.order ++ new
  nodup : new.Nodup
  fresh : ∀ i ∈ new, c.group.count ≤ i
  count : c.group.count ≤ c'.group.count
  parentTarget : ∀ i < c.group.count, (c'.group.items i).parentTarget =
    (c.group.items i).parentTarget

theorem Leaves.start (h : b'.Mirrors created c') (hext : b.Extends b') (horder : c'.order = c.order)
    (hcount : c.group.count ≤ c'.group.count)
    (hparent : ∀ i, (c'.group.items i).parentTarget = (c.group.items i).parentTarget) :
    b.Leaves created c b' [] c' := by
  refine ⟨hext, ?_, ?_, List.nodup_nil, by simp, hcount, fun i _ => hparent i⟩
  · rw [List.map_nil, List.append_nil]
    exact h
  · rw [List.append_nil]
    exact horder

theorem Leaves.trans (h : b.Leaves created c b' new c')
    (h' : b'.Leaves (created ++ new.map fun i => (b.groupCount, i)) c' b'' new' c'') :
    b.Leaves created c b'' (new ++ new') c'' where
  extends_ := h.extends_.trans h'.extends_
  mirrors := by
    have hm := h'.mirrors
    rw [h.extends_.groupCount, List.append_assoc, ← List.map_append] at hm
    exact hm
  order := by rw [h'.order, h.order, List.append_assoc]
  nodup := by
    apply h.nodup.append h'.nodup
    -- the later ones got higher numbers
    intro i hi hi'
    have hbelow := h.mirrors.below i (h.order ▸ List.mem_append_right _ hi)
    exact Nat.not_lt.mpr (h'.fresh i hi') hbelow
  fresh := by
    intro i hi
    rcases List.mem_append.mp hi with hi | hi
    · exact h.fresh i hi
    · exact h.count.trans (h'.fresh i hi)
  count := h.count.trans h'.count
  parentTarget := fun i hi => (h'.parentTarget i (hi.trans_le h.count)).trans (h.parentTarget i hi)

theorem Parses.leaves {A : Type} {n : ℕ} {r : Except ParseFailure A × StructXml2VarBuilder} {a : A}
    (h : b.Mirrors created c) (hres : b.Parses created n r (.ok (a, c')))
    (horder : c'.order = c.order ++ new) (hnodup : new.Nodup)
    (hfresh : ∀ i ∈ new, c.group.count ≤ i) (hcount : c.group.count ≤ c'.group.count)
    (hparent : ∀ i < c.group.count, (c'.group.items i).parentTarget =
      (c.group.items i).parentTarget) :
    b.Leaves created c r.2 new c' := by
  obtain ⟨-, hext, -, items, hm, hitems⟩ := hres
  refine ⟨hext, ?_, horder, hnodup, hfresh, hcount, hparent⟩
  have hall : items.filter (fun i => i.1 == b.groupCount) = items :=
    List.filter_eq_self.mpr fun i hi => by simpa using (hitems i hi).1
  have hmine := hm.mine
  rw [hext.groupCount, List.filter_append, h.mine, hall, horder, List.map_append] at hmine
  rw [← List.append_cancel_left hmine]
  exact hm

theorem leaves_of_grows {A : Type} {n i : ℕ} {parent : Option ℕ} {path : Path Bytes}
    (hgrows : Grows parent path c i c') {r : Except ParseFailure A × StructXml2VarBuilder} {a : A}
    (h : b.Mirrors created c) (hres : b.Parses created n r (.ok (a, c'))) :
    ∃ new, b.Leaves created c r.2 (new ++ [i]) c' := by
  obtain ⟨new, horder, hnew, hforest⟩ := hgrows.order
  refine ⟨new, hres.leaves h horder hforest.nodup (fun j hj => ?_) (hgrows.index ▸ hgrows.count.le)
    fun j hj => ?_⟩
  · rcases List.mem_append.mp hj with hj | hj
    · exact hgrows.index ▸ (hnew j hj).1.le
    · exact (List.mem_singleton.mp hj).trans hgrows.index |>.ge
  · rw [hgrows.kept j hj]

def Fails {A : Type} (b : StructXml2VarBuilder) (created : List ItemId) (c : Compiled)
    (v : List Bool) (r : Except ParseFailure A × StructXml2VarBuilder) : Prop :=
  ∀ e b', r = (.error e, b') → ∃ new c', b.Leaves created c b' new c' ∧ (new ≠ [] → c'.Orphaned) ∧
    ∀ text, e = .error text → (new = [] ↔ v.head? = some false)

theorem Fails.after {A : Type} {v : List Bool} {r : Except ParseFailure A × StructXml2VarBuilder}
    (hl : b.Leaves created c b' [] c') (h : b'.Fails created c' v r) : b.Fails created c v r := by
  intro e b₁ hr
  obtain ⟨new, c₁, hleaves, horphan, hfirst⟩ := h e b₁ hr
  have hl' : b'.Leaves (created ++ [].map fun i => (b.groupCount, i)) c' b₁ new c₁ := by
    rw [List.map_nil, List.append_nil]
    exact hleaves
  exact ⟨new, c₁, hl.trans hl', horphan, hfirst⟩

theorem Fails.create {A B : Type} {v : List Bool} {r : Except ParseFailure A × StructXml2VarBuilder}
    {r' : Except ParseFailure B × StructXml2VarBuilder} (h : b.Fails created c v r)
    (hr : ∀ e b', r' = (.error e, b') → r = (.error e, b')) :
    b.Fails created c (v ++ [true]) r' := by
  intro e b₁ hr'
  obtain ⟨new, c₁, hleaves, horphan, hfirst⟩ := h e b₁ (hr e b₁ hr')
  refine ⟨new, c₁, hleaves, horphan, fun text he => (hfirst text he).trans ?_⟩
  cases v with
  | nil => simp
  | cons => simp

theorem fails_first {A : Type} {v : List Bool} {e : ParseFailure} (h : b.Leaves created c b' [] c')
    (hv : ∀ text, e = .error text → v.head? = some false) :
    b.Fails created c v ((.error e, b') : Except ParseFailure A × StructXml2VarBuilder) := by
  intro e' b₁ hr
  obtain ⟨rfl, rfl⟩ : e = e' ∧ b' = b₁ := by simpa using hr
  exact ⟨[], c', h, fun hne => absurd rfl hne, fun text he => iff_of_true rfl (hv text he)⟩

theorem Fails.error {A B : Type} {v w : List Bool} {e : ParseFailure}
    (h : b.Fails created c v ((.error e, b') : Except ParseFailure A × StructXml2VarBuilder))
    (hv : v ≠ []) :
    b.Fails created c (v ++ w) ((.error e, b') : Except ParseFailure B × StructXml2VarBuilder) := by
  intro e' b₁ hr
  obtain ⟨rfl, rfl⟩ : e = e' ∧ b' = b₁ := by simpa using hr
  obtain ⟨new, c₁, hleaves, horphan, hfirst⟩ := h e b' rfl
  refine ⟨new, c₁, hleaves, horphan, fun text he => (hfirst text he).trans ?_⟩
  rw [List.head?_append_of_ne_nil v hv]

theorem fails_ok {A : Type} {v : List Bool} {a : A} :
    b.Fails created c v ((.ok a, b') : Except ParseFailure A × StructXml2VarBuilder) := by
  intro e b₁ hr
  simp at hr

theorem leaves_refl (h : b.Mirrors created c) :
    b.Leaves created c b [] c := .start h .refl rfl le_rfl fun _ => rfl

theorem leaves_allocate (h : b.Mirrors created c) :
    b.Leaves created c (b.setGroup b.group.allocate.2) [] c.allocate :=
  .start h.allocate (setGroup_extends _ b) rfl (Nat.le_succ _) fun _ => rfl

theorem leaves_read (h : b.Mirrors created c) {str2id : String2IdMap} (hs : str2id.Sane)
    (hg : b.str2id.Grows str2id) :
    b.Leaves created c (b.setStr2id str2id) [] c :=
  .start (h.read hs hg).1 (h.read hs hg).2 rfl le_rfl fun _ => rfl

theorem parseScalarTargetSpec_fails {p : Path ℕ} (parent : Option ℕ) (mapping : Bytes)
    (h : b.Mirrors created c) :
    b.Fails created c [!scalarRejected b.options mapping]
      (parseScalarTargetSpec lib parent p mapping b) := by
  rw [parseScalarTargetSpec]
  obtain ⟨t, hparse, -⟩ | ⟨text, hparse, hrej, -⟩ := parseScalarTarget_cases lib b.options mapping
  · rw [hparse]
    exact fails_ok
  · rw [hparse]
    exact fails_first (leaves_refl h) fun _ _ => by rw [hrej]; rfl

theorem parseObjectTargetSpec_fails {p : Path ℕ} {v : List Bool} (parent : Option ℕ)
    {loop : ℕ → StructXml2VarBuilder → Except ParseFailure (List ℕ) × StructXml2VarBuilder}
    (h : b.Mirrors created c)
    (hloop : ∀ b₁, b.Extends b₁ → b₁.Mirrors created c.allocate →
      b₁.Fails created c.allocate v (loop c.group.count b₁)) :
    b.Fails created c (v ++ [true]) (parseObjectTargetSpec parent p loop b) := by
  have hcount : b.group.allocate.1 = c.group.count := h.names.count
  have hfails := (hloop _ (setGroup_extends _ b) h.allocate).after (leaves_allocate h)
  refine hfails.create fun e b' hr => ?_
  rw [parseObjectTargetSpec] at hr
  simp only [hcount] at hr
  generalize loop c.group.count (b.setGroup b.group.allocate.2) = r at hr ⊢
  obtain ⟨e' | targetItems, b₁⟩ := r
  · simpa using hr
  · simp at hr

theorem listVerdicts_ne_nil (o : StructOptions) (mapping : List DynTree) :
    listVerdicts o mapping ≠ [] := by
  match mapping with
  | [_, sumMapping] => simp [listVerdicts]
  | [] | [_] | _ :: _ :: _ :: _ => simp [listVerdicts]

theorem verdicts_ne_nil (o : StructOptions) (mapping : DynTree) : verdicts o mapping ≠ [] := by
  cases mapping with
  | list mapping =>
    rw [verdicts]
    exact listVerdicts_ne_nil o mapping
  | dict | string | plain | oid | table => simp [verdicts]

theorem append_cases {m : String2IdMap} {p p' : Path ℕ} {q q' : Path Bytes} (hm : m.Sane)
    (hp : Path.Names m p q) (hp' : Path.Names m p' q') (hmask : q.MaskOk) :
    p.append String2IdMap.starId p' = none ∨ ∃ foolPath foolPath', p.append String2IdMap.starId p' =
      some foolPath ∧
      q.append star q' = some foolPath' ∧ Path.Names m foolPath foolPath' ∧ foolPath'.MaskOk := by
  have happend := hp.append hm hp'
  cases hpa : p.append String2IdMap.starId p' with
  | none => exact .inl rfl
  | some foolPath =>
    cases hqa : q.append star q' with
    | none =>
      rw [hpa, hqa] at happend
      cases happend
    | some foolPath' =>
      rw [hpa, hqa] at happend
      obtain ⟨hfool⟩ : Option.Rel _ (some foolPath) (some foolPath') := happend
      exact .inr ⟨foolPath, foolPath', rfl, rfl, hfool, (Path.append_spec hmask hqa).1⟩

theorem fails_after_child {A : Type} {v w : List Bool} {target child : ℕ} {path : Path Bytes}
    (key : Bytes) (isAttribute : Bool) {r : Except ParseFailure A × StructXml2VarBuilder}
    (hm : b.Mirrors created c) (htarget : target < c.group.count) (hunfinished : target ∉ c.order)
    (hgrows : Grows (some target) path c child c')
    (hres : b.Parses created c.group.count (.ok child, b') (.ok (child, c'))) (hv : v ≠ [])
    (hok : false ∉ v)
    (hrest : ∀ {new}, b.Leaves created c (b'.setGroup (b'.group.setKey key isAttribute child)) new
      (c'.setKey key isAttribute child) → target ∉ (c'.setKey key isAttribute child).order →
      (b'.setGroup (b'.group.setKey key isAttribute child)).Fails
      (created ++ new.map fun i => (b.groupCount, i)) (c'.setKey key isAttribute child) w r) :
    b.Fails created c (v ++ w) r := by
  obtain ⟨new, hchild⟩ := leaves_of_grows hgrows hm hres
  have hkey : b'.Leaves (created ++ (new ++ [child]).map fun i => (b.groupCount, i)) c'
      (b'.setGroup (b'.group.setKey key isAttribute child)) [] (c'.setKey key isAttribute child) :=
    .start (hchild.mirrors.setKey key isAttribute child) (setGroup_extends _ b') rfl le_rfl
      fun i => (Compiled.setKey_items key isAttribute c' child i).2.2
  have hboth := hchild.trans hkey
  rw [List.append_nil] at hboth
  -- the object hangs its own target item last, so whatever is left after a failure does not have it
  have hnot : ∀ {b'' new' c''}, b.Leaves created c b'' new' c'' → target ∉ c''.order := by
    intro b'' new' c'' hl hin
    rw [hl.order] at hin
    rcases List.mem_append.mp hin with hin | hin
    · exact hunfinished hin
    · exact Nat.not_lt.mpr (hl.fresh target hin) htarget
  intro e b₁ hr
  obtain ⟨new', c₁, hl, -, -⟩ := hrest hboth (hnot hboth) e b₁ hr
  have hall := hboth.trans hl
  refine ⟨(new ++ [child]) ++ new', c₁, hall, fun _ => ⟨child, ?_, target, ?_, hnot hall⟩,
    fun text _ => iff_of_false (by simp) ?_⟩
  · rw [hall.order]
    simp
  · exact (hl.parentTarget child hgrows.count).trans
      ((Compiled.setKey_items key isAttribute c' child child).2.2.trans hgrows.parentTarget)
  · intro hfirst
    obtain ⟨verdict, v, rfl⟩ := List.exists_cons_of_ne_nil hv
    rw [List.cons_append, List.head?_cons, Option.some.injEq] at hfirst
    exact hok (hfirst ▸ List.mem_cons_self)

mutual

theorem parseTargetSpec_fails (parent : Option ℕ) {p : Path ℕ} {q : Path Bytes} :
    (mapping : DynTree) → ∀ {b : StructXml2VarBuilder} {created : List ItemId} {c : Compiled},
      b.Mirrors created c →
      Path.Names b.str2id p q → q.MaskOk →
      b.Fails created c (verdicts b.options mapping) (parseTargetSpec lib parent p mapping b)
  | .list mapping, b, created, c, h, hp, hmask => by
    rw [parseTargetSpec, verdicts]
    exact parseListTargetSpec_fails parent mapping h hp hmask
  | .dict mapping, b, created, c, h, hp, hmask => by
    rw [parseTargetSpec, verdicts]
    refine parseObjectTargetSpec_fails parent h fun b₁ hext hm => ?_
    rw [← hext.options]
    -- its own number is new, so no target item has it
    exact parseEntries_fails c.group.count mapping [] hm (hp.grows hext.grows) hmask
      (Nat.lt_succ_self _)
      fun hin => Nat.lt_irrefl _ (h.below _ hin)
  | .string mapping, b, created, c, h, hp, hmask => by
    rw [parseTargetSpec, verdicts]
    exact parseScalarTargetSpec_fails parent mapping h
  | .plain .., b, created, c, h, hp, hmask => by
    rw [parseTargetSpec, verdicts]
    · exact fails_first (leaves_refl h) fun _ _ => rfl
    all_goals simp
  | .oid _, b, created, c, h, hp, hmask => by
    rw [parseTargetSpec, verdicts]
    · exact fails_first (leaves_refl h) fun _ _ => rfl
    all_goals simp
  | .table .., b, created, c, h, hp, hmask => by
    rw [parseTargetSpec, verdicts]
    · exact fails_first (leaves_refl h) fun _ _ => rfl
    all_goals simp

theorem parseListTargetSpec_fails (parent : Option ℕ) {p : Path ℕ} {q : Path Bytes} :
    (mapping : List DynTree) → ∀ {b : StructXml2VarBuilder} {created : List ItemId} {c : Compiled},
      b.Mirrors created c →
      Path.Names b.str2id p q → q.MaskOk →
      b.Fails created c (listVerdicts b.options mapping)
        (parseListTargetSpec lib parent p mapping b)
  | [pathSpec, sumMapping], b, created, c, h, hp, hmask => by
    rw [parseListTargetSpec, listVerdicts]
    obtain ⟨hs, hg, hn⟩ := Path.parse_names h.sane (pathSpec.getString lib.toCLib)
    have hleaves : b.Leaves created c ((b.setGroup b.group.allocate.2).setStr2id
        (Path.parse (pathSpec.getString lib.toCLib) b.str2id).2) [] c.allocate := by
      have hm₁ := h.allocate.read hs hg
      exact .start hm₁.1 ((setGroup_extends _ b).trans hm₁.2) rfl (Nat.le_succ _) fun _ => rfl
    simp only
    obtain hpa | ⟨foolPath, foolPath', hpa, -, hfool, hmask'⟩ :=
      append_cases hs (hp.grows hg) hn hmask
    · rw [hpa]
      exact fails_first hleaves fun _ he => nomatch he
    · have hfails :=
        (parseTargetSpec_fails (some b.group.allocate.1) sumMapping (by simpa using hleaves.mirrors)
          hfool
        hmask').after hleaves
      rw [hleaves.extends_.options] at hfails
      refine hfails.create fun e b' hr => ?_
      rw [hpa] at hr
      simp only at hr
      generalize parseTargetSpec lib (some b.group.allocate.1) foolPath sumMapping _ = r at hr ⊢
      obtain ⟨e' | child, b₁⟩ := r
      · simpa using hr
      · simp at hr
  | [], b, created, c, h, hp, hmask => by
    rw [parseListTargetSpec, listVerdicts]
    · exact fails_first (leaves_refl h) fun _ _ => rfl
    all_goals simp
  | [_], b, created, c, h, hp, hmask => by
    rw [parseListTargetSpec, listVerdicts]
    · exact fails_first (leaves_refl h) fun _ _ => rfl
    all_goals simp
  | _ :: _ :: _ :: _, b, created, c, h, hp, hmask => by
    rw [parseListTargetSpec, listVerdicts]
    · exact fails_first (leaves_refl h) fun _ _ => rfl
    all_goals simp

theorem parseEntries_fails (target : ℕ) {p : Path ℕ} {q : Path Bytes} :
    (mapping : List (Bytes × DynTree)) →
      ∀ (targetItems : List ℕ) {b : StructXml2VarBuilder} {created : List ItemId}
      {c : Compiled}, b.Mirrors created c → Path.Names b.str2id p q → q.MaskOk →
        target < c.group.count →
      target ∉ c.order →
        b.Fails created c (entriesVerdicts b.options mapping)
          (parseEntries lib target p mapping targetItems b)
  | [], targetItems, b, created, c, h, hp, hmask, htarget, hunfinished => by
    rw [parseEntries]
    exact fails_ok
  | (spec, mapping) :: rest, targetItems, b, created, c, h, hp, hmask, htarget, hunfinished => by
    rw [parseEntries, entriesVerdicts]
    obtain ⟨hs, hg, hn⟩ :=
      Path.parse_names h.sane (Tools.simpleSplitPair spec (ascii "->") Tools.whiteSpaces).2.1
    have hleaves := leaves_read h hs hg
    obtain ⟨hm₁, hext₁⟩ := h.read hs hg
    simp only [hn.getLastElementName hs, hn.attributeName]
    obtain ⟨⟨key, isAttribute⟩, hkey, hrej⟩ | ⟨text, hkey, hrej, -⟩ := entryKey_cases
      (Path.named (Tools.simpleSplitPair spec (ascii "->") Tools.whiteSpaces).2.1).lastElementName
        spec
    · simp only [hkey, hrej, Bool.false_eq_true, if_false]
      obtain hpa | ⟨foolPath, foolPath', hpa, hqa, hfool, hmask'⟩ :=
        append_cases hs (hp.grows hg) hn hmask
      · rw [hpa]
        exact fails_first hleaves fun _ he => nomatch he
      · rw [hpa]
        have hres :
            Parses _ created c.group.count (parseTargetSpec lib (some target) foolPath mapping _)
              _ :=
          parseTargetSpec_parses (some target) mapping hm₁ hfool
        have hfails := (parseTargetSpec_fails (some target) mapping hm₁ hfool hmask').after hleaves
        rw [hext₁.options] at hres hfails
        simp only
        obtain ⟨e, b', hr, hr'⟩ | ⟨child, b', c', hr, hr', hres⟩ := hres.cases
        · rw [hr] at hfails
          simp only [hr]
          exact hfails.error (verdicts_ne_nil _ mapping)
        · simp only [hr]
          have hok : Decided (verdicts b.options mapping) (.ok (child, c')) :=
            hr' ▸ Compiled.compileTarget_decided mapping (some target) foolPath' c
          have hgrows :=
            compileTarget_grows mapping hmask' (fun t ht => Option.some.inj ht ▸ htarget) hr'
          refine Fails.after hleaves
            (fails_after_child key isAttribute hm₁ htarget hunfinished hgrows hres
            (verdicts_ne_nil _ mapping) hok ?_)
          intro new hboth hnot
          have hext := hext₁.trans hboth.extends_
          have hrest := parseEntries_fails target rest
            ((b'.setGroup (b'.group.setKey key isAttribute child)).group.appendTargetItem
              targetItems child)
            hboth.mirrors (hp.grows hext.grows) hmask (htarget.trans_le hboth.count) hnot
          rw [hext.options] at hrest
          exact hrest
    · simp only [hkey, hrej, if_true]
      exact fails_first hleaves fun _ _ => rfl

end

theorem parseMapping_fails (mapping : DynTree) (h : b.Mirrors created .empty) :
    b.Fails created .empty (mappingVerdicts b.options mapping) (parseMapping lib mapping b) := by
  cases mapping with
  | list mapping =>
    rw [parseMapping, mappingVerdicts, verdicts]
    exact parseListTargetSpec_fails none mapping h Path.names_empty Path.maskOk_empty
  | dict mapping =>
    rw [parseMapping, mappingVerdicts, verdicts]
    refine parseObjectTargetSpec_fails none h fun b₁ hext hm => ?_
    rw [← hext.options]
    exact parseEntries_fails 0 mapping [] hm Path.names_empty Path.maskOk_empty (Nat.lt_succ_self _)
      (List.not_mem_nil)
  | plain | string | oid | table => exact fails_first (leaves_refl h) fun _ _ => rfl

theorem not_orphaned_of_wired (h : Wired c) : ¬c.Orphaned := by
  rintro ⟨i, hi, parent, hparent, hnot⟩
  rcases h.forest.parent i hi with rfl | ⟨p, hp, hfit⟩
  · rw [h.noParent] at hparent
    cases hparent
  · exact hnot (Option.some.inj (hparent.symm.trans hfit.parentTarget) ▸ hp)

theorem parseMapping_leaves (mapping : DynTree) (h : b.Mirrors created .empty)
    (hreturns : (parseMapping lib mapping b).1 ≠ .error .assertion) :
    ∃ new c', b.Leaves created .empty (parseMapping lib mapping b).2 new c' ∧
      (¬c'.Orphaned ↔ RejectedFirst b.options mapping) := by
  have hdecided : Decided (mappingVerdicts b.options mapping)
      (Compiled.compile lib b.options mapping) :=
    Compiled.compile_decided mapping
  have hparses : b.Parses created 0 (parseMapping lib mapping b)
      (Compiled.compile lib b.options mapping) :=
    parseMapping_parses mapping h
  obtain ⟨e, b', hr, hr'⟩ | ⟨root, b', c', hr, hr', hres⟩ := hparses.cases
  · obtain ⟨new, c', hleaves, horphaned, hfirst⟩ := parseMapping_fails mapping h e b' hr
    rw [hr] at hreturns ⊢
    rw [hr'] at hdecided
    refine ⟨new, c', hleaves, ?_⟩
    cases e with
    | assertion => exact absurd rfl hreturns
    | error text =>
      have hin : false ∈ mappingVerdicts b.options mapping := hdecided
      rw [RejectedFirst, forall_prop_of_true hin, ← hfirst text rfl]
      refine ⟨fun hno => by_contra fun hne => hno (horphaned hne), ?_⟩
      -- where nothing was hung there are no orphans
      rintro rfl ⟨i, hi, -⟩
      rw [hleaves.order] at hi
      cases hi
  · rw [hr'] at hdecided
    rw [hr]
    have hwired := (compile_wired hr').2
    have hleaves := hres.leaves h rfl hwired.forest.nodup (fun _ _ => Nat.zero_le _) (Nat.zero_le _)
      fun i hi => absurd hi (Nat.not_lt_zero i)
    exact ⟨c'.order, c', hleaves, iff_of_true (not_orphaned_of_wired hwired) fun hin =>
      absurd hin hdecided⟩

end StructXml2VarBuilder

end Xml2Var
end Nkit
