import Mathlib.Algebra.GroupWithZero.Nat
import Mathlib.Data.List.Perm.Basic
import Mathlib.Tactic.Common

/-! Ordered forests with a label at each node, and the order of siblings left open. -/

inductive Forest (L : Type*) where
  | nil
  | node (label : L) (children rest : Forest L)

namespace Forest
variable {L E : Type*}

def append : Forest L → Forest L → Forest L
  | nil, g => g
  | node label children rest, g => node label children (rest.append g)

def isNil : Forest L → Bool
  | nil => true
  | node .. => false

def concat (fs : List (Forest L)) : Forest L := fs.foldr append nil

@[simp] theorem nil_append (f : Forest L) : nil.append f = f := rfl

@[simp] theorem append_nil (f : Forest L) : f.append nil = f := by
  induction f with
  | nil => rfl
  | node label children rest _ ih => rw [append, ih]

theorem append_assoc (f g h : Forest L) : (f.append g).append h = f.append (g.append h) := by
  induction f with
  | nil => rfl
  | node label children rest _ ih => rw [append, append, append, ih]

@[simp] theorem isNil_append (f g : Forest L) : (f.append g).isNil = (f.isNil && g.isNil) := by
  cases f <;> rfl

@[simp] theorem concat_nil : concat ([] : List (Forest L)) = nil := rfl

@[simp] theorem concat_cons (f : Forest L) (fs : List (Forest L)) :
    concat (f :: fs) = f.append (concat fs) := rfl

theorem isNil_concat (fs : List (Forest L)) : (concat fs).isNil = fs.all isNil := by
  induction fs with
  | nil => rfl
  | cons f fs ih => rw [concat_cons, isNil_append, ih, List.all_cons]

def Each (P : L → Prop) : Forest L → Prop
  | nil => True
  | node label children rest => P label ∧ children.Each P ∧ rest.Each P

@[simp] theorem each_append {P : L → Prop} (f g : Forest L) :
    (f.append g).Each P ↔ f.Each P ∧ g.Each P := by
  induction f with
  | nil => exact (and_iff_right trivial).symm
  | node label children rest _ ih => rw [append, Each, Each, ih, and_assoc, and_assoc]

theorem each_concat {P : L → Prop} (fs : List (Forest L)) :
    (concat fs).Each P ↔ ∀ f ∈ fs, f.Each P := by
  induction fs with
  | nil => exact iff_of_true trivial fun _ h => absurd h List.not_mem_nil
  | cons f fs ih => rw [concat_cons, each_append, ih, List.forall_mem_cons]

/-- The same nodes below the same nodes, with siblings in another order. -/
inductive Perm : Forest L → Forest L → Prop
  | nil : Perm nil nil
  | node (label : L) {children children' rest rest' : Forest L}
      (hchildren : Perm children children') (hrest : Perm rest rest') :
      Perm (node label children rest) (node label children' rest')
  | swap (label label' : L) (children children' rest : Forest L) :
      Perm (node label children (node label' children' rest))
        (node label' children' (node label children rest))
  | trans {f g h : Forest L} (hfg : Perm f g) (hgh : Perm g h) : Perm f h

namespace Perm
variable {f f' g g' : Forest L}

theorem refl (f : Forest L) : Perm f f := by
  induction f with
  | nil => exact nil
  | node label children rest ihc ihr => exact node label ihc ihr

theorem append_right (h : Perm f f') (g : Forest L) : Perm (f.append g) (f'.append g) := by
  induction h with
  | nil => exact refl g
  | node label hchildren _ _ ih => exact node label hchildren ih
  | swap label label' children children' rest =>
    exact swap label label' children children' (rest.append g)
  | trans _ _ ih ih' => exact trans ih ih'

theorem append_left (f : Forest L) (h : Perm g g') : Perm (f.append g) (f.append g') := by
  induction f with
  | nil => exact h
  | node label children rest _ ih => exact node label (refl children) ih

theorem append (h : Perm f f') (h' : Perm g g') : Perm (f.append g) (f'.append g') :=
  trans (append_right h g) (append_left f' h')

theorem middle (f : Forest L) (label : L) (children rest : Forest L) :
    Perm (f.append (Forest.node label children rest))
      (Forest.node label children (f.append rest)) := by
  induction f with
  | nil => exact refl _
  | node label' children' rest' _ ih =>
    exact trans (node label' (refl children') ih) (swap label' label children' children _)

theorem append_comm (f g : Forest L) : Perm (f.append g) (g.append f) := by
  induction g with
  | nil =>
    rw [append_nil]
    exact refl f
  | node label children rest _ ih =>
    exact trans (middle f label children rest) (node label (refl children) ih)

theorem concat_of_perm {fs gs : List (Forest L)} (h : fs.Perm gs) :
    Perm (concat fs) (concat gs) := by
  induction h with
  | nil => exact nil
  | cons f _ ih => exact append_left f ih
  | swap f g fs =>
    rw [concat_cons, concat_cons, concat_cons, concat_cons, ← append_assoc, ← append_assoc]
    exact append_right (append_comm g f) _
  | trans _ _ ih ih' => exact trans ih ih'

theorem isNil_eq (h : Perm f g) : f.isNil = g.isNil := by
  induction h with
  | nil => rfl
  | node => rfl
  | swap => rfl
  | trans _ _ ih ih' => exact ih.trans ih'

end Perm

def weight (down : E → E) (w : E → L → ℕ) : E → Forest L → ℕ
  | _, nil => 0
  | e, node label children rest =>
    w e label + weight down w (down e) children + weight down w e rest

section
variable {down : E → E} {w : E → L → ℕ}

theorem weight_append (e : E) (f g : Forest L) :
    weight down w e (f.append g) = weight down w e f + weight down w e g := by
  induction f with
  | nil => exact (Nat.zero_add _).symm
  | node label children rest _ ih => rw [append, weight, weight, ih, Nat.add_assoc (_ + _)]

theorem weight_concat (e : E) (fs : List (Forest L)) :
    weight down w e (concat fs) = (fs.map (weight down w e)).sum := by
  induction fs with
  | nil => rfl
  | cons f fs ih => rw [concat_cons, weight_append, ih, List.map_cons, List.sum_cons]

theorem weight_eq_zero (hw : ∀ e label, 0 < w e label) {e : E} {f : Forest L} :
    weight down w e f = 0 ↔ f = nil := by
  cases f with
  | nil => exact ⟨fun _ => rfl, fun _ => rfl⟩
  | node label children rest =>
    have := hw e label
    rw [weight]
    constructor
    · intro h
      omega
    · intro h
      cases h

end

end Forest
