import Nkit.Dynamic.Memory

/-! When an assignment between two handles does what it says.  Releasing the old value of the
left-hand side may delete the container in which the right-hand side is stored, and the
right-hand side is read after that. -/

namespace Nkit
open RefGraph Relation SharedObject

inductive ObjectShape where
  | string (value : Bytes)
  | list
  | dict (keys : List Bytes)
deriving DecidableEq, Repr

def SharedObject.shape : SharedObject → ObjectShape
  | .string value => .string value
  | .vector _ => .list
  | .map entries => .dict (entries.map Prod.fst)

inductive DynValue where
  | plain (type : PlainType) (data : BitVec 64)
  | shared (shape : ObjectShape) (elements : List DynValue)

inductive Denotes (h : Heap ℕ SharedObject) : Dyn → DynValue → Prop where
  | plain (type : PlainType) (data : BitVec 64) : Denotes h (.plain type data) (.plain type data)
  | shared {a : ℕ} {c : Cell SharedObject} (vs : List DynValue) (hobj : h a = some c)
      (hlen : c.body.handles.length = vs.length)
      (helems : ∀ (i : ℕ) (d : Dyn) (v : DynValue), c.body.handles[i]? = some d → vs[i]? = some v →
        Denotes h d v) :
      Denotes h (.shared a) (.shared c.body.shape vs)

namespace Memory

def roots (m : Memory) : List ℕ := m.locals.flatMap Dyn.targets

/-- Every count is the number of handles; `extra` are handles in neither a variable nor an object.
-/
def Counted (m : Memory) (extra : List ℕ) : Prop :=
  Counts refs (Finset.range m.next) m.heap (extra ++ m.roots)

structure Sound (m : Memory) : Prop where
  counted : m.Counted []
  acyclic : Acyclic refs m.heap

/-- The assignment reads nothing that is freed, `x` then has the value `y` had, and counts are
exact again. -/
def Assigns (m : Memory) (x y : Place) : Prop :=
  ∃ m' d d', m.assign x y = some m' ∧ m.load y = some d ∧ m'.load x = some d' ∧
    (∃ v, Denotes m.heap d v) ∧ (∀ v, Denotes m.heap d v → Denotes m'.heap d' v) ∧ m'.Counted []

/-- The place `y` is in a variable, or in a container to which a variable leads without the handle
`x`. -/
def Survives (m : Memory) (x : Place) : Place → Prop
  | .var _ => True
  | .elem a _ => Reach refs (m.put x .undef).heap (m.put x .undef).roots a

/-- The handle `x` is a part of the value of `d`. -/
def Inside (m : Memory) (d : Dyn) : Place → Prop
  | .var _ => False
  | .elem a _ => Reach refs m.heap d.targets a

end Memory

theorem handles_setHandle (i : ℕ) (d : Dyn) (o : SharedObject) :
    (o.setHandle i d).handles = o.handles.set i d := by
  cases o with
  | string value => rfl
  | vector items => rfl
  | map entries =>
    show (entries.modify i fun e => (e.1, d)).map Prod.snd = (entries.map Prod.snd).set i d
    induction entries generalizing i with
    | nil => simp
    | cons e entries ih => cases i <;> simp [ih]

theorem setHandle_setHandle (i : ℕ) (d e : Dyn) (o : SharedObject) :
    (o.setHandle i e).setHandle i d = o.setHandle i d := by
  cases o with
  | string value => rfl
  | vector items => exact congrArg SharedObject.vector (List.set_set ..)
  | map entries => exact congrArg SharedObject.map (List.modify_modify_eq ..)

theorem setHandle_self {i : ℕ} {d : Dyn} {o : SharedObject} (h : o.handles[i]? = some d) :
    o.setHandle i d = o := by
  cases o with
  | string value => rfl
  | vector items =>
    obtain ⟨hi, rfl⟩ := List.getElem?_eq_some_iff.mp h
    exact congrArg SharedObject.vector (List.set_getElem_self hi)
  | map entries =>
    refine congrArg SharedObject.map ?_
    replace h : (entries.map Prod.snd)[i]? = some d := h
    induction entries generalizing i with
    | nil => simp
    | cons e entries ih =>
      cases i with
      | zero =>
        rw [List.modify_zero_cons, ← Option.some.inj h]
      | succ i => rw [List.modify_succ_cons, ih h]

theorem targets_set (f : List ℕ → ℕ) (hf : ∀ l l', f (l ++ l') = f l + f l') {l : List Dyn} {i : ℕ}
    {e : Dyn} (h : l[i]? = some e) (d : Dyn) :
    f ((l.set i d).flatMap Dyn.targets) + f e.targets = f (l.flatMap Dyn.targets) +
      f d.targets := by
  induction l generalizing i with
  | nil => cases h
  | cons e' l ih =>
    cases i with
    | zero =>
      cases h
      simp only [List.set_cons_zero, List.flatMap_cons, hf]
      omega
    | succ i =>
      have hrest := ih h
      simp only [List.set_cons_succ, List.flatMap_cons, hf]
      omega

theorem Denotes.edge {h : Heap ℕ SharedObject} {a b : ℕ} {v : DynValue}
    (hv : Denotes h (.shared a) v) (he : Edge refs h a b) :
    ∃ v', Denotes h (.shared b) v' ∧ sizeOf v' < sizeOf v := by
  cases hv with
  | @shared _ c vs hobj hlen helems =>
    rw [Edge, stored_of_some hobj] at he
    obtain ⟨d, hd, hb⟩ := List.mem_flatMap.mp he
    obtain rfl : d = .shared b := by
      cases d with
      | plain type data => cases hb
      | shared b' => rw [List.mem_singleton.mp hb]
    obtain ⟨i, hi, hget⟩ := List.getElem_of_mem hd
    have hi' : i < vs.length := hlen ▸ hi
    refine ⟨vs[i], helems i _ _ (List.getElem?_eq_some_iff.mpr ⟨hi, hget⟩)
      (List.getElem?_eq_getElem hi'), ?_⟩
    have hlt := List.sizeOf_lt_of_mem (List.getElem_mem hi')
    simp only [DynValue.shared.sizeOf_spec]
    omega

theorem Denotes.path {h : Heap ℕ SharedObject} {a b : ℕ} {v : DynValue}
    (hv : Denotes h (.shared a) v) (hpath : TransGen (Edge refs h) a b) :
    ∃ v', Denotes h (.shared b) v' ∧ sizeOf v' < sizeOf v := by
  induction hpath with
  | single he => exact hv.edge he
  | tail _ he ih =>
    obtain ⟨v', hv', hlt⟩ := ih
    obtain ⟨v'', hv'', hlt'⟩ := hv'.edge he
    exact ⟨v'', hv'', hlt'.trans hlt⟩

theorem not_denotes_of_cycle {h : Heap ℕ SharedObject} {a : ℕ} (hcycle : TransGen (Edge refs h) a a)
    (v : DynValue) :
    ¬Denotes h (.shared a) v := by
  induction hn : sizeOf v using Nat.strong_induction_on generalizing v with
  | _ n ih =>
    intro hv
    obtain ⟨v', hv', hlt⟩ := hv.path hcycle
    exact ih (sizeOf v') (hn ▸ hlt) v' rfl hv'

namespace Memory
variable {m m' : Memory} {x y : Place} {d e : Dyn}

theorem put_put (x : Place) (d e : Dyn) (m : Memory) : (m.put x e).put x d = m.put x d := by
  cases x with
  | var i => simp only [put, List.set_set]
  | elem a i =>
    simp only [put, setBody, Function.update_self, Function.update_idem, Option.map_map]
    congr 3
    funext c
    simp only [Function.comp_apply, setHandle_setHandle]

theorem put_self (hx : m.load x = some d) : m.put x d = m := by
  cases x with
  | var i =>
    obtain ⟨hi, rfl⟩ := List.getElem?_eq_some_iff.mp hx
    simp only [put, List.set_getElem_self hi]
  | elem a i =>
    obtain ⟨c, hc, hd⟩ := Option.bind_eq_some_iff.mp hx
    simp only [put, setBody, hc, Option.map_some, setHandle_self hd]
    rw [← hc, Function.update_eq_self]

theorem load_put (hx : m.load x = some e) (d : Dyn) : (m.put x d).load x = some d := by
  cases x with
  | var i =>
    obtain ⟨hi, rfl⟩ := List.getElem?_eq_some_iff.mp hx
    exact List.getElem?_set_self hi
  | elem a i =>
    obtain ⟨c, hc, he⟩ := Option.bind_eq_some_iff.mp hx
    obtain ⟨hi, rfl⟩ := List.getElem?_eq_some_iff.mp he
    simp only [load, put, setBody_self _ hc, Option.bind_some, handles_setHandle]
    exact List.getElem?_set_self hi

theorem load_put_of_ne (hne : y ≠ x) (d : Dyn) : (m.put x d).load y = m.load y := by
  cases x with
  | var i =>
    cases y with
    | var j => exact List.getElem?_set_ne (fun h => hne (congrArg Place.var h.symm))
    | elem b j => rfl
  | elem a i =>
    cases y with
    | var j => rfl
    | elem b j =>
      by_cases hab : b = a
      · subst hab
        have hij : i ≠ j := fun h => hne (congrArg (Place.elem b) h.symm)
        cases hc : m.heap b with
        | none =>
          simp only [load, put, setBody, Function.update_self, hc, Option.map_none,
            Option.bind_none]
        | some c =>
          simp only [load, put, setBody_self _ hc, Option.bind_some, handles_setHandle, hc]
          exact List.getElem?_set_ne hij
      · simp only [load, put, setBody_of_ne _ hab]

@[simp] theorem put_next (x : Place) (d : Dyn) (m : Memory) : (m.put x d).next = m.next := by
  cases x <;> rfl

theorem count_put (x : Place) (d : Dyn) (m : Memory) (a : ℕ) :
    count (m.put x d).heap a = count m.heap a := by
  cases x with
  | var i => rfl
  | elem b i =>
    simp only [put, setBody, count_update]
    split_ifs with hab
    · subst hab
      cases hb : m.heap a <;> simp [count, hb]
    · rfl

theorem put_eq_none (x : Place) (d : Dyn) (m : Memory) (a : ℕ) :
    (m.put x d).heap a = none ↔ m.heap a = none := by
  cases x with
  | var i => rfl
  | elem b i =>
    simp only [put, setBody, Function.update_apply]
    split_ifs with hab
    · subst hab
      exact Option.map_eq_none_iff
    · rfl

/-- Only the container of `x` is written. -/
theorem put_heap_of_ne {a : ℕ} (hne : ∀ i, x ≠ .elem a i) : (m.put x d).heap a = m.heap a := by
  cases x with
  | var i => rfl
  | elem b i =>
    have hab : a ≠ b := by
      rintro rfl
      exact hne i rfl
    exact setBody_of_ne _ hab

theorem total_put (extra : List ℕ) (hsupport : ∀ a ∉ Finset.range m.next, m.heap a = none)
    (hx : m.load x = some e) (d : Dyn) (a : ℕ) :
    total refs (Finset.range m.next) (m.put x d).heap (extra ++ (m.put x d).roots) a +
      e.targets.count a =
      total refs (Finset.range m.next) m.heap (extra ++ m.roots) a + d.targets.count a := by
  cases x with
  | var i =>
    have hset := targets_set (List.count a) (fun _ _ => List.count_append) hx d
    simp only [total, List.count_append, put, roots]
    omega
  | elem b i =>
    obtain ⟨c, hc, he⟩ := Option.bind_eq_some_iff.mp hx
    have hb : b ∈ Finset.range m.next := by
      by_contra hnot
      rw [hsupport b hnot] at hc
      cases hc
    have hset := targets_set (List.count a) (fun _ _ => List.count_append) he d
    have hsum := sum_stored_update refs m.heap (fun l => l.count a) hb
      (some { c with body := c.body.setHandle i d })
    simp only [stored_of_some hc, Option.map_some, Option.getD_some, refs,
      handles_setHandle] at hsum
    simp only [total, List.count_append, put, roots, setBody, hc, Option.map_some]
    omega

theorem Counted.put (extra : List ℕ) (hc : m.Counted (d.targets ++ extra))
    (hx : m.load x = some e) :
    (m.put x d).Counted (e.targets ++ extra) := by
  refine ⟨fun a ha => ?_, fun a => ?_, fun a c ha => ?_⟩
  · rw [put_next] at ha
    exact (put_eq_none x d m a).mpr (hc.support a ha)
  · have htotal := total_put extra hc.support hx d a
    have htally := hc.tally a
    rw [count_put, put_next]
    simp only [total, List.count_append] at htotal htally ⊢
    omega
  · have hpos : 0 < count m.heap a := by
      have hlive : m.heap a ≠ none := by
        rw [Ne, ← put_eq_none x d m a, ha]
        exact Option.some_ne_none c
      obtain ⟨c', hc'⟩ := Option.ne_none_iff_exists'.mp hlive
      rw [count, hc']
      exact hc.positive a c' hc'
    rw [← count_put x d m a, count, ha] at hpos
    exact hpos

/-- The same objects with the same contents. -/
structure Alike (m m' : Memory) : Prop where
  locals : m'.locals = m.locals
  next : m'.next = m.next
  shrinks : Shrinks m.heap m'.heap
  grows : Shrinks m'.heap m.heap

theorem Alike.load (h : m.Alike m') : m'.load x = m.load x := by
  cases x with
  | var i => rw [Memory.load, Memory.load, h.locals]
  | elem a i =>
    cases ha : m.heap a with
    | none =>
      cases ha' : m'.heap a with
      | none => simp only [Memory.load, ha, ha']
      | some c' =>
        obtain ⟨c, hc, -⟩ := h.shrinks a c' ha'
        rw [ha] at hc
        cases hc
    | some c =>
      obtain ⟨c', hc', hbody⟩ := h.grows a c ha
      simp only [Memory.load, ha, hc', Option.bind_some, hbody]

theorem put_shrinks (x : Place) (d : Dyn) (hs : Shrinks m.heap m'.heap) :
    Shrinks (m.put x d).heap (m'.put x d).heap := by
  cases x with
  | var i => exact hs
  | elem b i =>
    intro a c' hc'
    by_cases hab : a = b
    · subst hab
      obtain ⟨c₁, hc₁, rfl⟩ : ∃ c₁, m'.heap a = some c₁ ∧
          { c₁ with body := setHandle i d c₁.body } = c' := by
        simp only [put, setBody, Function.update_self] at hc'
        exact Option.map_eq_some_iff.mp hc'
      obtain ⟨c, hc, hbody⟩ := hs a c₁ hc₁
      exact ⟨_, setBody_self _ hc, congrArg (setHandle i d) hbody⟩
    · simp only [put, setBody_of_ne _ hab] at hc'
      obtain ⟨c, hc, hbody⟩ := hs a c' hc'
      exact ⟨c, (setBody_of_ne _ hab).trans hc, hbody⟩

theorem incRef_spec {extra : List ℕ} (hc : m.Counted extra)
    (hd : ∀ a ∈ d.targets, m.heap a ≠ none) :
    ∃ m', m.incRef d = some m' ∧ m'.Counted (d.targets ++ extra) ∧ m.Alike m' := by
  cases d with
  | plain type data => exact ⟨m, rfl, hc, rfl, rfl, Shrinks.refl _, Shrinks.refl _⟩
  | shared a =>
    obtain ⟨c, ha⟩ := Option.ne_none_iff_exists'.mp (hd a (List.mem_singleton_self a))
    refine ⟨{ m with heap := Function.update m.heap a (some { c with count := c.count + 1 }) }, ?_,
      ?_, rfl, rfl, Shrinks.setCount ha _, Shrinks.of_setCount ha _⟩
    · simp only [incRef, ha, Option.map_some]
    · exact hc.increment ha

theorem mem_targets_set_undef {l : List Dyn} {i a : ℕ}
    (h : a ∈ (l.set i .undef).flatMap Dyn.targets) :
    a ∈ l.flatMap Dyn.targets := by
  obtain ⟨d, hd, ha⟩ := List.mem_flatMap.mp h
  rcases List.mem_or_eq_of_mem_set hd with hd | rfl
  · exact List.mem_flatMap.mpr ⟨d, hd, ha⟩
  · cases ha

/-- Without the handle `x` there are only fewer references. -/
theorem edge_of_put_undef {a b : ℕ} (he : Edge refs (m.put x .undef).heap a b) :
    Edge refs m.heap a b := by
  cases x with
  | var i => exact he
  | elem c i =>
    by_cases hac : a = c
    · subst hac
      cases ha : m.heap a with
      | none =>
        rw [Edge, stored_of_none ((put_eq_none _ _ _ _).mpr ha)] at he
        cases he
      | some cell =>
        rw [Edge, stored_of_some ha]
        rw [Edge, put, stored_of_some (setBody_self _ ha), refs, handles_setHandle] at he
        exact mem_targets_set_undef he
    · simp only [Edge, stored, put, setBody_of_ne _ hac] at he
      exact he

theorem size_put_undef (hsupport : ∀ a ∉ Finset.range m.next, m.heap a = none)
    (hx : m.load x = some e) (pending : List ℕ) :
    size refs (Finset.range m.next) (m.put x .undef).heap pending ≤
      size refs (Finset.range m.next) m.heap pending := by
  cases x with
  | var i => exact le_rfl
  | elem b i =>
    obtain ⟨c, hc, he⟩ := Option.bind_eq_some_iff.mp hx
    have hb : b ∈ Finset.range m.next := by
      by_contra hnot
      rw [hsupport b hnot] at hc
      cases hc
    have hset := targets_set List.length (fun _ _ => List.length_append) he .undef
    have hsum :=
      sum_stored_update refs m.heap List.length hb
        (some { c with body := c.body.setHandle i .undef })
    simp only [stored_of_some hc, Option.map_some, Option.getD_some, refs,
      handles_setHandle] at hsum
    simp only [size, put, setBody, hc, Option.map_some, Dyn.undef, Dyn.targets,
      List.length_nil] at hset hsum ⊢
    omega

/-- The container of `x` is reached without the handle `x`. -/
theorem reach_container {b i : ℕ} {extra : List ℕ} (hc : m.Counted extra)
    (hacyc : Acyclic refs m.heap) (hx : m.load (.elem b i) = some e) :
    Reach refs (m.put (.elem b i) .undef).heap (extra ++ (m.put (.elem b i) .undef).roots) b := by
  obtain ⟨c, hlive, -⟩ := Option.bind_eq_some_iff.mp hx
  have hreach := Counts.reach_of_live hc hacyc (by rw [hlive]; exact Option.some_ne_none c)
  refine Reach.avoid hacyc (fun a ha => ?_) hreach
  simp only [stored, put, setBody_of_ne _ ha]

theorem load_of_shrinks (hlocals : m'.locals = m.locals) (hs : Shrinks m.heap m'.heap)
    (hlive : ∀ a i, y = .elem a i → m'.heap a ≠ none) : m'.load y = m.load y := by
  cases y with
  | var i => rw [load, load, hlocals]
  | elem a i =>
    obtain ⟨c', hc'⟩ := Option.ne_none_iff_exists'.mp (hlive a i rfl)
    obtain ⟨c, hc, hbody⟩ := hs a c' hc'
    simp only [load, hc, hc', Option.bind_some, hbody]

/-- Releasing the object of `x` on the heap as it is, and on the heap without the handle `x`. -/
theorem decRef_put {a : ℕ} {h' : Heap ℕ SharedObject} (hx : m.load x = some (.shared a))
    (hrun : release refs (size refs (Finset.range m.next) m.heap [a]) [a] (m.put x .undef).heap =
      some h') (hlive : ∀ b i, x = .elem b i → h' b ≠ none) :
    m.decRef (.shared a) =
      some (Memory.put x (.shared a) ⟨(m.put x .undef).locals, m.next, h'⟩) := by
  have hback : (m.put x .undef).put x (.shared a) = m := by rw [put_put, put_self hx]
  cases x with
  | var i =>
    have hlocals : (m.locals.set i .undef).set i (.shared a) = m.locals :=
      congrArg Memory.locals hback
    rw [put] at hrun
    rw [decRef, hrun]
    simp only [put, hlocals, Option.map_some]
  | elem b i =>
    have hheap : setBody b (setHandle i (.shared a)) (m.put (.elem b i) .undef).heap = m.heap :=
      congrArg Memory.heap hback
    have hstale := release_setBody (setHandle i (.shared a)) hrun (hlive b i rfl)
    rw [hheap] at hstale
    rw [decRef, hstale]
    rfl

/-- What the release leaves of the memory without the handle `x`; the handle is then reset or
left as it was. -/
theorem decRefDynamic_spec {a : ℕ} {extra : List ℕ} (hc : m.Counted extra)
    (hacyc : Acyclic refs m.heap) (hx : m.load x = some (.shared a)) :
    ∃ (m₀ : Memory) (d : Dyn), m.decRefDynamic x = some (m₀.put x d) ∧ m₀.Counted extra ∧
      m₀.locals = (m.put x .undef).locals ∧ Shrinks (m.put x .undef).heap m₀.heap ∧
        m₀.load x = some .undef := by
  have hclear : (m.put x .undef).Counted ([a] ++ extra) := Counted.put (d := .undef) extra hc hx
  have hpending : Counts refs (Finset.range m.next) (m.put x .undef).heap
      ([a] ++ (extra ++ (m.put x .undef).roots)) := by
    rw [← List.append_assoc, ← put_next x .undef m]
    exact hclear
  obtain ⟨h', hrun, hc', hs⟩ := release_spec hpending (size_put_undef hc.support hx [a])
  have hacyc₀ : Acyclic refs (m.put x .undef).heap := hacyc.mono fun _ _ => edge_of_put_undef
  have hlive : ∀ b i, x = .elem b i → h' b ≠ none := by
    rintro b i rfl
    exact (live_iff_reach hc' hs hacyc₀).mpr (reach_container hc hacyc hx)
  have hdec := decRef_put hx hrun hlive
  obtain ⟨m₀, hm₀⟩ : ∃ m₀ : Memory, m₀ = ⟨(m.put x .undef).locals, m.next, h'⟩ := ⟨_, rfl⟩
  have hlocals : m₀.locals = (m.put x .undef).locals := by rw [hm₀]
  have hheap : m₀.heap = h' := by rw [hm₀]
  have hcounted : m₀.Counted extra := by
    rw [hm₀]
    exact hc'
  rw [← hheap] at hs hlive
  have hload : m₀.load x = some .undef :=
    (load_of_shrinks hlocals hs hlive).trans (load_put hx .undef)
  rw [← hm₀] at hdec
  simp only [decRefDynamic, hx, Option.bind_eq_bind, Option.bind_some, hdec]
  split_ifs
  · refine ⟨m₀, .undef, ?_, hcounted, hlocals, hs, hload⟩
    rw [store, load_put hload, Option.map_some, put_put]
  · exact ⟨m₀, .shared a, rfl, hcounted, hlocals, hs, hload⟩

theorem decRef_incRef {extra : List ℕ} (hc : m.Counted extra) (hinc : m.incRef d = some m') :
    m'.decRef d = some m := by
  cases d with
  | plain type data =>
    cases hinc
    rfl
  | shared a =>
    obtain ⟨c, ha, rfl⟩ := Option.map_eq_some_iff.mp hinc
    obtain ⟨n, hn⟩ : ∃ n, c.count = n + 1 := Nat.exists_eq_succ_of_ne_zero (hc.positive a c ha).ne'
    have hsize : ∀ h : Heap ℕ SharedObject, size refs (Finset.range m.next) h [a] =
        (∑ b ∈ Finset.range m.next, (stored refs h b).length) + 1 := fun h => Nat.add_comm ..
    have hcell : (some { c with count := n + 1 } : Option (Cell SharedObject)) = m.heap a := by
      rw [ha, ← hn]
    simp only [decRef, hsize, release, Function.update_self, hn, Function.update_idem, hcell,
      Function.update_eq_self, Option.map_some]

theorem incRef_put (x : Place) (d : Dyn) (hinc : m.incRef e = some m') :
    (m.put x d).incRef e = some (m'.put x d) := by
  cases e with
  | plain type data =>
    cases hinc
    rfl
  | shared a =>
    obtain ⟨c, ha, rfl⟩ := Option.map_eq_some_iff.mp hinc
    cases x with
    | var i => simp only [incRef, put, ha, Option.map_some]
    | elem b i =>
      by_cases hab : a = b
      · subst hab
        simp only [incRef, put, setBody_self _ ha, Option.map_some]
        simp only [setBody, Function.update_self, Function.update_idem, Option.map_some]
      · simp only [incRef, put, setBody_of_ne _ hab, ha, Option.map_some, setBody_update _ hab]

theorem Counted.live_of_load {extra : List ℕ} (hc : m.Counted extra) (hx : m.load x = some d)
    {a : ℕ} (ha : a ∈ d.targets) : m.heap a ≠ none := by
  cases x with
  | var i =>
    refine Counts.live_of_root hc (List.mem_append_right _ ?_)
    exact List.mem_flatMap.mpr ⟨d, List.mem_of_getElem? hx, ha⟩
  | elem b i =>
    obtain ⟨c, hb, hd⟩ := Option.bind_eq_some_iff.mp hx
    refine Counts.live_of_edge hc (a := b) ?_
    rw [Edge, stored_of_some hb]
    exact List.mem_flatMap.mpr ⟨d, List.mem_of_getElem? hd, ha⟩

/-- `m₀` is what is left of `m` when the old value of `x` is gone and the new one is held. -/
structure Ready (m m₀ : Memory) (x : Place) (d : Dyn) : Prop where
  counted : m₀.Counted d.targets
  cleared : ∃ e, m₀.load x = some e ∧ e.targets = []
  bodies : ∀ a c', (∀ i, x ≠ .elem a i) → m₀.heap a = some c' → ∃ c, m.heap a = some c ∧
    c'.body = c.body

section Ready
variable {m₀ : Memory}

theorem Ready.counted_put (h : m.Ready m₀ x d) : (m₀.put x d).Counted [] := by
  obtain ⟨e, he, hnone⟩ := h.cleared
  have hput : (m₀.put x d).Counted (e.targets ++ []) := Counted.put [] (by
    rw [List.append_nil]
    exact h.counted) he
  rw [hnone] at hput
  exact hput

theorem Ready.load_put (h : m.Ready m₀ x d) : (m₀.put x d).load x = some d := by
  obtain ⟨e, he, -⟩ := h.cleared
  exact Memory.load_put he d

/-- Away from the container of `x` contents are as before. -/
theorem Ready.bodies_put (h : m.Ready m₀ x d) {a : ℕ} (hne : ∀ i, x ≠ .elem a i)
    (hlive : (m₀.put x d).heap a ≠ none) :
    ∃ c c', m.heap a = some c ∧ (m₀.put x d).heap a = some c' ∧ c'.body = c.body := by
  rw [put_heap_of_ne hne] at hlive ⊢
  obtain ⟨c', hc'⟩ := Option.ne_none_iff_exists'.mp hlive
  obtain ⟨c, hc, hbody⟩ := h.bodies a c' hne hc'
  exact ⟨c, c', hc, hc', hbody⟩

theorem Sound.denotes (hm : m.Sound) (hx : m.load x = some d) : ∃ v, Denotes m.heap d v := by
  have hobj : ∀ a, m.heap a ≠ none → ∃ v, Denotes m.heap (.shared a) v := by
    intro a
    induction a using (Counts.wellFounded hm.counted hm.acyclic).2.induction with
    | _ a ih =>
      intro hlive
      obtain ⟨c, hc⟩ := Option.ne_none_iff_exists'.mp hlive
      have helem : ∀ d ∈ c.body.handles, ∃ v, Denotes m.heap d v := by
        intro d hd
        cases d with
        | plain type data => exact ⟨_, .plain type data⟩
        | shared b =>
          have he : Edge refs m.heap a b := by
            rw [Edge, stored_of_some hc]
            exact List.mem_flatMap.mpr ⟨_, hd, List.mem_singleton_self b⟩
          exact ih b he (Counts.live_of_edge hm.counted he)
      have : Nonempty DynValue := ⟨.plain .undef 0⟩
      choose! value hvalue using helem
      refine ⟨_, .shared (c.body.handles.map value) hc (List.length_map _).symm
        fun i d v hd hv => ?_⟩
      rw [List.getElem?_map, hd] at hv
      cases hv
      exact hvalue d (List.mem_of_getElem? hd)
  cases d with
  | plain type data => exact ⟨_, .plain type data⟩
  | shared a => exact hobj a (hm.counted.live_of_load hx (List.mem_singleton_self a))

/-- A value is the same afterwards, unless `x` is a part of it. -/
theorem Ready.denotes (h : m.Ready m₀ x d) {e : Dyn} {v : DynValue} (hv : Denotes m.heap e v)
    (hlive : ∀ a ∈ e.targets, (m₀.put x d).heap a ≠ none) (hout : ¬m.Inside e x) :
    Denotes (m₀.put x d).heap e v := by
  induction hv with
  | plain type data => exact .plain type data
  | @shared a c vs hobj hlen _ ih =>
    have hne : ∀ i, x ≠ .elem a i := by
      rintro i rfl
      exact hout ⟨a, List.mem_singleton_self a, .refl⟩
    obtain ⟨c₁, c', hc, hc', hbody⟩ := h.bodies_put hne (hlive a (List.mem_singleton_self a))
    obtain rfl : c₁ = c := Option.some.inj (hc.symm.trans hobj)
    rw [← hbody] at hlen ih ⊢
    refine .shared vs hc' hlen fun i d' v hd hv => ih i d' v hd hv (fun b hb => ?_) fun hin =>
      hout ?_
    · refine Counts.live_of_edge h.counted_put (a := a) ?_
      rw [Edge, stored_of_some hc']
      exact List.mem_flatMap.mpr ⟨d', List.mem_of_getElem? hd, hb⟩
    · cases x with
      | var j => exact hin
      | elem b j =>
        obtain ⟨r, hr, hpath⟩ := hin
        have he : Edge refs m.heap a r := by
          rw [Edge, stored_of_some hc, ← hbody]
          exact List.mem_flatMap.mpr ⟨d', List.mem_of_getElem? hd, hr⟩
        exact ⟨a, List.mem_singleton_self a, .head he hpath⟩

/-- If `x` is a part of the new value, the assignment ties a cycle. -/
theorem Ready.cycle (h : m.Ready m₀ x d) (hacyc : Acyclic refs m.heap) (hin : m.Inside d x)
    (v : DynValue) :
    ¬Denotes (m₀.put x d).heap d v := by
  cases x with
  | var i => exact absurd hin id
  | elem b i =>
    obtain ⟨t, ht, hpath⟩ := hin
    obtain rfl : d = .shared t := by
      cases d with
      | plain type data => cases ht
      | shared a => rw [List.mem_singleton.mp ht]
    have hload := h.load_put
    have hcounted := h.counted_put
    generalize hm' : m₀.put (.elem b i) (.shared t) = m' at hload hcounted
    have hlive : ∀ {a}, ReflTransGen (Edge refs m'.heap) t a → m'.heap a ≠ none := by
      intro a ha
      induction ha with
      | refl => exact hcounted.live_of_load hload (List.mem_singleton_self t)
      | tail _ he _ => exact Counts.live_of_edge hcounted he
    -- a path in `m` is one in `m'` as long as it does not leave the container of `x`
    have hcases : ∀ {a}, ReflTransGen (Edge refs m.heap) t a →
        ReflTransGen (Edge refs m'.heap) t a ∨ TransGen (Edge refs m.heap) b a := by
      intro a ha
      induction ha with
      | refl => exact .inl .refl
      | @tail a a' _ he ih =>
        by_cases hab : a = b
        · subst hab
          exact .inr (.single he)
        · rcases ih with hfound | hbelow
          · have hne : ∀ j, Place.elem b i ≠ .elem a j := by
              rintro j heq
              cases heq
              exact hab rfl
            obtain ⟨c, c', hc, hc', hbody⟩ := h.bodies_put hne (by rw [hm']; exact hlive hfound)
            refine .inl (hfound.tail ?_)
            rw [hm'] at hc'
            have hstored : stored refs m.heap a = refs c.body := stored_of_some hc
            rw [Edge, stored_of_some hc', hbody, ← hstored]
            exact he
          · exact .inr (hbelow.tail he)
    rcases hcases hpath with hfound | hcycle
    · refine not_denotes_of_cycle (TransGen.tail' hfound ?_) v
      obtain ⟨c, hc, hd⟩ := Option.bind_eq_some_iff.mp hload
      rw [Edge, stored_of_some hc]
      exact List.mem_flatMap.mpr ⟨_, List.mem_of_getElem? hd, List.mem_singleton_self t⟩
    · exact absurd hcycle (hacyc b)

end Ready

theorem assign_plain (hm : m.Sound) (hne : x ≠ y) (hx : m.load x = some e) (hy : m.load y = some d)
    (hplain : e.isRefCounted = false) (hnone : e.isNone = false) :
    ∃ m₀, m.Ready m₀ x d ∧ m.assign x y = some (m₀.put x d) := by
  obtain ⟨m₀, hinc, hcounted, halike⟩ := incRef_spec hm.counted fun a ha =>
    hm.counted.live_of_load hy ha
  have hload : m₀.load x = some e := halike.load.trans hx
  have htargets : e.targets = [] := by
    cases e with
    | plain type data => rfl
    | shared a => cases hplain
  rw [List.append_nil] at hcounted
  refine ⟨m₀, ⟨hcounted, ⟨e, hload, htargets⟩, fun a c' _ ha => halike.shrinks a c' ha⟩, ?_⟩
  rw [assign, if_neg hne]
  simp only [hx, hy, hplain, hnone, Option.bind_eq_bind, Option.bind_some, Bool.false_eq_true,
    if_false, store, Option.map_some, load_put hx, incRef_put x d hinc]

theorem assign_shared {a : ℕ} (hm : m.Sound) (hne : x ≠ y) (hx : m.load x = some (.shared a))
    (hy : m.load y = some d) :
    ∃ m₀ : Memory, m.Ready m₀ x d ∧ m₀.locals = (m.put x .undef).locals ∧
      Shrinks (m.put x .undef).heap m₀.heap ∧
      (m₀.load y = some d → m.assign x y = some (m₀.put x d)) ∧
        (m₀.load y = none → m.assign x y = none) := by
  obtain ⟨m₁, hinc, hcounted, halike⟩ := incRef_spec hm.counted fun a ha =>
    hm.counted.live_of_load hy ha
  rw [List.append_nil] at hcounted
  obtain ⟨m₀, d₀, hdec, hcounted₀, hlocals, hs, hload⟩ :=
    decRefDynamic_spec hcounted (hm.acyclic.shrinks halike.shrinks) (halike.load.trans hx)
  have hs₀ : Shrinks (m.put x .undef).heap m₀.heap := (put_shrinks x .undef halike.shrinks).trans hs
  have hlocals₀ : m₀.locals = (m.put x .undef).locals := by
    rw [hlocals]
    cases x with
    | var i => rw [put, put, halike.locals]
    | elem b i => exact halike.locals
  have hbodies : ∀ b c', (∀ i, x ≠ .elem b i) → m₀.heap b = some c' → ∃ c, m.heap b = some c ∧
      c'.body = c.body := by
    intro b c' hb hc'
    obtain ⟨c, hc, hbody⟩ := hs₀ b c' hc'
    rw [put_heap_of_ne hb] at hc
    exact ⟨c, hc, hbody⟩
  have hready : m.Ready m₀ x d := ⟨hcounted₀, ⟨.undef, hload, rfl⟩, hbodies⟩
  have hassign : m.assign x y = (m₀.load y).bind fun source =>
      ((m₀.put x d₀).store x source).bind fun m₂ =>
      (m₂.incRef source).bind fun m₃ => m₃.decRef d := by
    rw [assign, if_neg hne]
    simp only [hx, hy, hinc, hdec, Option.bind_eq_bind, Option.bind_some, Dyn.isRefCounted, if_true,
      load_put_of_ne (Ne.symm hne)]
  refine ⟨m₀, hready, hlocals₀, hs₀, fun hsource => ?_, fun hsource => ?_⟩
  · obtain ⟨m₃, hinc₃, -, -⟩ := incRef_spec hready.counted_put
      fun a ha => hready.counted_put.live_of_load hready.load_put ha
    rw [hassign]
    simp only [hsource, Option.bind_some, store, load_put hload, Option.map_some, put_put, hinc₃,
      decRef_incRef hready.counted_put hinc₃]
  · rw [hassign, hsource]
    rfl

/-- The place `y` is still there after the release exactly if something else leads to it. -/
theorem load_after_release {m₀ : Memory} (hm : m.Sound) (hne : x ≠ y) (hy : m.load y = some d)
    (hready : m.Ready m₀ x d) (hlocals : m₀.locals = (m.put x .undef).locals)
    (hs : Shrinks (m.put x .undef).heap m₀.heap) :
    (m.Survives x y → m₀.load y = some d) ∧ (¬m.Survives x y → m₀.load y = none) := by
  have hclear : (m.put x .undef).load y = some d := (load_put_of_ne (Ne.symm hne) _).trans hy
  cases y with
  | var j =>
    refine ⟨fun _ => ?_, fun hnot => absurd trivial hnot⟩
    exact (load_of_shrinks hlocals hs fun a i h => by cases h).trans hclear
  | elem c j =>
    have hroots : m₀.roots = (m.put x .undef).roots := by rw [roots, hlocals, roots]
    have hlive : m₀.heap c ≠ none ↔
        Reach refs (m.put x .undef).heap (d.targets ++ (m.put x .undef).roots) c := by
      rw [← hroots]
      exact live_iff_reach hready.counted hs (hm.acyclic.mono fun _ _ => edge_of_put_undef)
    constructor
    · rintro ⟨r, hr, hpath⟩
      refine (load_of_shrinks hlocals hs fun a i h => ?_).trans hclear
      cases h
      exact hlive.mpr ⟨r, List.mem_append_right _ hr, hpath⟩
    · intro hnot
      have hfreed : m₀.heap c = none := by
        by_contra hc
        obtain ⟨r, hr, hpath⟩ := hlive.mp hc
        rcases List.mem_append.mp hr with hr | hr
        · -- the saved copy cannot lead back to the container it was taken from
          obtain ⟨cell, hcell, hd⟩ := Option.bind_eq_some_iff.mp hy
          have he : Edge refs m.heap c r := by
            rw [Edge, stored_of_some hcell]
            exact List.mem_flatMap.mpr ⟨d, List.mem_of_getElem? hd, hr⟩
          have hback : ReflTransGen (Edge refs m.heap) r c := hpath.lift id fun _ _ =>
            edge_of_put_undef
          exact hm.acyclic c (TransGen.head' he hback)
        · exact hnot ⟨r, hr, hpath⟩
      rw [load, hfreed]
      rfl

/-- Once the value of `x` may be written, the assignment is right unless it ties a cycle. -/
theorem Ready.assigns {m₀ : Memory} (hready : m.Ready m₀ x d) (hm : m.Sound)
    (hy : m.load y = some d) (hassign : m.assign x y = some (m₀.put x d)) :
    m.Assigns x y ↔ ¬m.Inside d x := by
  constructor
  · rintro ⟨m', d₁, d', hassign', hy', hload, ⟨v, hv⟩, hvalue, -⟩ hin
    obtain rfl : d₁ = d := Option.some.inj (hy'.symm.trans hy)
    obtain rfl : m₀.put x d₁ = m' := Option.some.inj (hassign.symm.trans hassign')
    obtain rfl : d₁ = d' := Option.some.inj (hready.load_put.symm.trans hload)
    exact hready.cycle hm.acyclic hin v (hvalue v hv)
  · intro hout
    refine ⟨_, d, d, hassign, hy, hready.load_put, hm.denotes hy, fun v hv => ?_,
      hready.counted_put⟩
    exact hready.denotes hv (fun a ha => hready.counted_put.live_of_load hready.load_put ha) hout

/-- An assignment is right exactly if the right-hand side is not stored in something that only
the old value of the left-hand side keeps alive, and the left-hand side is not a part of it. -/
theorem assigns_iff (m : Memory) (hm : m.Sound) (x y : Place) (e d : Dyn) (hx : m.load x = some e)
    (hy : m.load y = some d) (hnone : e.isNone = false) :
    m.Assigns x y ↔ x = y ∨ (e.isRefCounted = false ∨ m.Survives x y) ∧ ¬m.Inside d x := by
  by_cases hxy : x = y
  · subst hxy
    refine ⟨fun _ => .inl rfl, fun _ => ?_⟩
    refine ⟨m, d, d, if_pos rfl, hy, hy, hm.denotes hy, fun v hv => hv, hm.counted⟩
  · simp only [hxy, false_or]
    cases e with
    | plain type data =>
      obtain ⟨m₀, hready, hassign⟩ := assign_plain hm hxy hx hy rfl hnone
      rw [hready.assigns hm hy hassign]
      simp only [Dyn.isRefCounted, true_or, true_and]
    | shared a =>
      obtain ⟨m₀, hready, hlocals, hs, hkept, hfreed⟩ := assign_shared hm hxy hx hy
      obtain ⟨hthere, hgone⟩ := load_after_release hm hxy hy hready hlocals hs
      simp only [Dyn.isRefCounted, Bool.true_eq_false, false_or]
      by_cases hsurvives : m.Survives x y
      · rw [hready.assigns hm hy (hkept (hthere hsurvives))]
        simp only [hsurvives, true_and]
      · refine ⟨?_, fun h => absurd h.1 hsurvives⟩
        rintro ⟨m', -, -, hassign, -⟩
        rw [hfreed (hgone hsurvives)] at hassign
        cases hassign

def sample : Memory where
  locals := [.shared 0, .shared 1]
  next := 2
  heap
    | 0 => some ⟨1, .vector [.shared 1]⟩
    | 1 => some ⟨2, .string (ascii "s")⟩
    | _ => none

theorem sample_sound : sample.Sound := by
  have hedge : ∀ a b, Edge refs sample.heap a b → a < b := by
    intro a b he
    rcases a with _ | _ | n
    · exact (List.mem_singleton.mp he).symm ▸ Nat.zero_lt_one
    · cases he
    · cases he
  refine ⟨⟨fun a ha => ?_, fun a => ?_, fun a c hc => ?_⟩, fun a hcycle => ?_⟩
  · rcases a with _ | _ | n
    · exact absurd (Finset.mem_range.mpr (by decide)) ha
    · exact absurd (Finset.mem_range.mpr (by decide)) ha
    · rfl
  · rcases a with _ | _ | n
    · decide
    · decide
    · simp [count, total, sample, stored, refs, handles, Finset.sum_range_succ, roots, Dyn.targets]
  · rcases a with _ | _ | n
    · cases hc
      decide
    · cases hc
      decide
    · cases hc
  · have hlt : ∀ b, TransGen (Edge refs sample.heap) a b → a < b := by
      intro b hpath
      induction hpath with
      | single he => exact hedge _ _ he
      | tail _ he ih => exact ih.trans (hedge _ _ he)
    exact absurd (hlt a hcycle) (Nat.lt_irrefl a)

theorem assigns_iff_sample : sample.Assigns (.var 0) (.var 1) :=
  (assigns_iff sample sample_sound (.var 0) (.var 1) (.shared 0) (.shared 1) rfl rfl rfl).mpr
    (.inr ⟨.inr trivial, id⟩)

/-- Overwriting the list with its own element reads the element in the deleted list. -/
theorem assign_reads_freed : sample.Sound ∧ sample.load (.var 0) = some (.shared 0) ∧
    sample.load (.elem 0 0) = some (.shared 1) ∧ sample.assign (.var 0) (.elem 0 0) = none ∧
    ¬sample.Assigns (.var 0) (.elem 0 0) := by
  have hassign : sample.assign (.var 0) (.elem 0 0) = none := rfl
  refine ⟨sample_sound, rfl, rfl, hassign, ?_⟩
  rintro ⟨m', -, -, hsome, -⟩
  rw [hassign] at hsome
  cases hsome

end Memory

end Nkit
