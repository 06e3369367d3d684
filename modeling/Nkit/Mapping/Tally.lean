import Nkit.Mapping.ItemCalls
import Nkit.Mapping.Meaning

/-! What the targets stand for, apart from the lists and dicts that they share and write to: for
every target item the values of the elements that it was left at since its parent was left. -/

namespace Nkit
namespace Xml2Var
open OrderedMap

/-- The content is that of the value, if its parts are; those of a dict may be told apart by their
keys. -/
inductive Content.Shows (R : Bytes → Var → DynTree → Prop) : Content → DynTree → Prop
  | list {items : List Var} {vs : List DynTree} (h : List.Forall₂ (R []) items vs) :
      Shows R (.list items) (.list vs)
  | dict {entries : List (Bytes × Var)} {d : List (Bytes × DynTree)}
      (h : List.Forall₂ (fun e e' => e.1 = e'.1 ∧ R e.1 e.2 e'.2) entries d) :
        Shows R (.dict entries) (.dict d)

namespace Content.Shows
variable {R R' : Bytes → Var → DynTree → Prop} {content : Content} {t : DynTree}

theorem imp (hR : ∀ key v t, R key v t → R' key v t) (h : content.Shows R t) :
    content.Shows R' t := by
  cases h with
  | list h => exact .list (h.imp (hR []))
  | dict h => exact .dict (h.imp fun _ _ he => ⟨he.1, hR _ _ _ he.2⟩)

theorem setKey {d : List (Bytes × DynTree)} {key : Bytes} {v : Var} {w : DynTree}
    (h : content.Shows R (.dict d)) (hs : Sorted bytesLt d)
    (hR : ∀ key' v w, key' ≠ key → R key' v w → R' key' v w) (hvw : R' key v w) :
    (content.setKey key v).Shows R' (.dict (update bytesLt key w (fun _ => w) d)) := by
  cases h with
  | dict h =>
    refine .dict (forall₂_update_keyed bytesLt_strictWeak h hs (fun hne => hR _ _ _ fun heq => ?_)
      (fun heq => ?_) v w)
    · rw [heq, bytesLt_strictWeak.equiv_refl] at hne
      cases hne
    · exact equiv_bytesLt.mp heq ▸ hvw

theorem append {vs : List DynTree} {v : Var} {w : DynTree} (h : content.Shows R (.list vs))
    (hvw : R [] v w) :
    (content.append v).Shows R (.list (vs ++ [w])) := by
  cases h with
  | list h => exact .list (List.rel_append h (.cons hvw .nil))

theorem tree {g : TargetGroup Bytes} {d j n : ℕ} (hR : ∀ key v t, R key v t → g.tree d v = t)
    (hn : (g.states j).version n = some content) (h : content.Shows R t) :
    g.tree (d + 1) (.made j n) = t := by
  rw [TargetGroup.tree_made, hn]
  cases h with
  | list h =>
    have hsame : ∀ {v : Var} {t : DynTree}, R [] v t → id t = g.tree d v := fun hvt =>
      (hR _ _ _ hvt).symm
    have heq := map_eq_of_forall₂ h fun _ _ _ hvt => hsame hvt
    exact congrArg DynTree.list (heq.symm.trans (List.map_id _))
  | dict h =>
    have hsame : ∀ {e : Bytes × Var} {e' : Bytes × DynTree}, e.1 = e'.1 ∧ R e.1 e.2 e'.2 →
        id e' = (e.1, g.tree d e.2) :=
      fun hee' => Prod.ext hee'.1.symm (hR _ _ _ hee'.2).symm
    have heq := map_eq_of_forall₂ h fun _ _ _ hee' => hsame hee'
    exact congrArg DynTree.dict (heq.symm.trans (List.map_id _))

end Content.Shows

def Frozen (st : ℕ → TargetState) : ℕ → Var → DynTree → Prop
  | _, .value v, t => t = v
  | 0, .made _ _, _ => False
  | d + 1, .made j n, t =>
    ∃ content, (st j).past[n]? = some content ∧ content.Shows (fun _ => Frozen st d) t

namespace Frozen
variable {st st' : ℕ → TargetState} {d d' j n : ℕ} {v : Var} {t : DynTree}

theorem value (st : ℕ → TargetState) (d : ℕ) (t : DynTree) : Frozen st d (.value t) t := by
  cases d <;> exact rfl

theorem mono (h : Frozen st d v t) (hd : d ≤ d') : Frozen st d' v t := by
  induction d generalizing d' v t with
  | zero =>
    cases v with
    | value v =>
      obtain rfl : t = v := h
      exact value st d' t
    | made => exact h.elim
  | succ d ih =>
    cases v with
    | value v =>
      obtain rfl : t = v := h
      exact value st d' t
    | made j n =>
      obtain ⟨content, hn, hc⟩ := h
      cases d' with
      | zero => cases hd
      | succ d' => exact ⟨content, hn, hc.imp fun _ _ _ hv => ih hv (Nat.le_of_succ_le_succ hd)⟩

theorem of_past {content : Content} (hn : (st j).past[n]? = some content)
    (h : content.Shows (fun _ => Frozen st d') t) (hd : d' < d) :
    Frozen st d (.made j n) t := by
  cases d with
  | zero => cases hd
  | succ d => exact ⟨content, hn, h.imp fun _ _ _ hv => hv.mono (Nat.le_of_lt_succ hd)⟩

theorem later (hpast : ∀ j, (st j).past <+: (st' j).past) (h : Frozen st d v t) :
    Frozen st' d v t := by
  induction d generalizing v t with
  | zero =>
    cases v with
    | value => exact h
    | made => exact h.elim
  | succ d ih =>
    cases v with
    | value => exact h
    | made j n =>
      obtain ⟨content, hn, hc⟩ := h
      have hlt := (List.getElem?_eq_some_iff.mp hn).1
      exact ⟨content, (getElem?_kept (hpast j) hlt).trans hn, hc.imp fun _ _ _ => ih⟩

theorem tree {g : TargetGroup Bytes} (h : Frozen g.states d v t) : g.tree d v = t := by
  induction d generalizing v t with
  | zero =>
    cases v with
    | value v =>
      obtain rfl : t = v := h
      rfl
    | made => exact h.elim
  | succ d ih =>
    cases v with
    | value v =>
      obtain rfl : t = v := h
      rfl
    | made j n =>
      obtain ⟨content, hn, hc⟩ := h
      have hlt := (List.getElem?_eq_some_iff.mp hn).1
      exact hc.tree (fun _ _ _ hvt => ih hvt) ((TargetState.version_past hlt).trans hn)

theorem tree_current {g : TargetGroup Bytes} {fuel : ℕ}
    (h : (g.states j).current.Shows (fun _ => Frozen g.states d) t) (hd : d < fuel) :
    g.tree fuel (.made j (g.states j).past.length) = t := by
  cases fuel with
  | zero => cases hd
  | succ fuel =>
    exact h.tree (fun _ _ _ hvt => (hvt.mono (Nat.le_of_lt_succ hd)).tree)
      (TargetState.version_current _)

end Frozen

def Target.seen : Target → List DynTree → Option DynTree
  | .list _, vs => if vs.isEmpty then none else some (.list vs)
  | _, vs => vs.getLast?

def Target.shown (target : Target) (vs : List DynTree) : Option DynTree :=
  match target with
  | .scalar t => vs.getLast?.or t.defaultValue
  | _ => target.seen vs

def Target.item : Target → List DynTree → DynTree
  | .list _, vs => .list vs
  | _, vs => vs.getLast?.getD .undef

structure Tally where
  opened : ℕ → List (Bytes × DynTree)
  text : ℕ → Option Bytes
  done : ℕ → List DynTree

namespace Tally

def start : Tally := ⟨fun _ => [], fun _ => none, fun _ => []⟩

variable (lib : ScalarLib) (o : StructOptions) (I : ℕ → TargetItem Bytes)

def entries (f : Target → List DynTree → Option DynTree) (i : ℕ) (T : Tally) :
    List (Bytes × DynTree) :=
  overlay bytesLt ((I i).target.children.map fun k => ((I k).keyName, f (I k).target (T.done k)))
    (T.opened i)

/-- What target item `i` makes of an element that it is left at. -/
def made (i : ℕ) (T : Tally) : List DynTree :=
  match (I i).target with
  | .scalar t => [t.eval lib o (T.text i)]
  | .list targetItems => targetItems.map fun k => (I k).target.item (T.done k)
  | .object _ => [.dict (T.entries I Target.shown i)]

def call (v : Call) (T : Tally) : Tally :=
  match v with
  | .enter attrs i =>
    { T with
      opened := Function.update T.opened i (attrEntries o attrs)
      text := Function.update T.text i (TargetState.enteredText attrs (I i)) }
  | .text text i =>
    if (I i).path.attributeName.isEmpty then
      { T with text := Function.update T.text i (some ((T.text i).getD [] ++ text)) }
    else T
  | .exit _ i =>
    { T with
      done := fun j =>
        if j ∈ (I i).target.children then [] else if j = i then T.done i ++ T.made lib o I i
        else T.done j }

end Tally

def Compiled.depth (i : ℕ) (c : Compiled) : ℕ := c.order.idxOf i

theorem Wired.depth_lt {c : Compiled} (h : Wired c) {k p : ℕ} (hk : k ∈ c.order)
    (hp : (c.group.items k).parentTarget = some p) : c.depth k < c.depth p := by
  have hpin := (h.fit hk hp).1
  refine lt_of_le_of_ne (Nat.le_of_not_lt fun hlt => ?_) fun heq => ?_
  · have hpair := List.pairwise_iff_getElem.mp h.forest.pairwise (c.depth p) (c.depth k)
      (List.idxOf_lt_length_of_mem hpin)
      (List.idxOf_lt_length_of_mem hk) hlt
    simp only [Compiled.depth, List.getElem_idxOf] at hpair
    exact hpair hp
  · have hkp : k = p := (List.idxOf_inj hk).mp heq
    exact h.forest.irrefl k hk (hkp ▸ hp)

theorem Wired.depth_le {c : Compiled} (h : Wired c) {i : ℕ} (hi : i ∈ c.order) :
    c.depth i < c.group.count := by
  refine (List.idxOf_lt_length_of_mem hi).trans_le ?_
  have hsub : c.order ⊆ List.range c.group.count := fun j hj => List.mem_range.mpr (h.below j hj)
  have hle := (List.subperm_of_subset h.forest.nodup hsub).length_le
  rwa [List.length_range] at hle

end Xml2Var
end Nkit
