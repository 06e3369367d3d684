import Mathlib.Algebra.Order.BigOperators.Group.Finset
import Mathlib.Logic.Relation
import Mathlib.Order.WellFoundedSet

/-! Reference-counted objects.  Dropping a reference deletes an object when its count reaches
zero, and with it the references it holds.  With exact counts and no cycles, what is left is
what can be reached. -/

namespace RefGraph
open Relation
variable {A P : Type*}

structure Cell (P : Type*) where
  count : ℕ
  body : P

abbrev Heap (A P : Type*) := A → Option (Cell P)

section Defs
variable (refs : P → List A)

def release [DecidableEq A] : ℕ → List A → Heap A P → Option (Heap A P)
  | _, [], h => some h
  | 0, _ :: _, _ => none
  | fuel + 1, a :: pending, h =>
    match h a with
    | none => none
    | some c =>
      match c.count with
      | 0 => none
      | 1 => release fuel (refs c.body ++ pending) (Function.update h a none)
      | n + 2 => release fuel pending (Function.update h a (some { c with count := n + 1 }))

def count (h : Heap A P) (a : A) : ℕ := ((h a).map Cell.count).getD 0

def stored (h : Heap A P) (a : A) : List A := ((h a).map fun c => refs c.body).getD []

def total [DecidableEq A] (S : Finset A) (h : Heap A P) (roots : List A) (a : A) : ℕ :=
  roots.count a + ∑ b ∈ S, (stored refs h b).count a

def size (S : Finset A) (h : Heap A P) (pending : List A) : ℕ :=
  pending.length + ∑ b ∈ S, (stored refs h b).length

structure Counts [DecidableEq A] (S : Finset A) (h : Heap A P) (roots : List A) : Prop where
  support : ∀ a ∉ S, h a = none
  tally : ∀ a, count h a = total refs S h roots a
  positive : ∀ a c, h a = some c → 0 < c.count

def Edge (h : Heap A P) (a b : A) : Prop := b ∈ stored refs h a

def Reach (h : Heap A P) (roots : List A) (a : A) : Prop :=
  ∃ r ∈ roots, ReflTransGen (Edge refs h) r a

def Acyclic (h : Heap A P) : Prop := ∀ a, ¬TransGen (Edge refs h) a a

end Defs

/-- `h'` has some of the objects of `h`, perhaps with other counts. -/
def Shrinks (h h' : Heap A P) : Prop :=
  ∀ a c', h' a = some c' → ∃ c, h a = some c ∧ c'.body = c.body

theorem Shrinks.refl (h : Heap A P) : Shrinks h h := fun _ c hc => ⟨c, hc, rfl⟩

theorem Shrinks.trans {h h' h'' : Heap A P} (hs : Shrinks h h') (hs' : Shrinks h' h'') :
    Shrinks h h'' := by
  intro a c'' hc''
  obtain ⟨c', hc', hbody'⟩ := hs' a c'' hc''
  obtain ⟨c, hc, hbody⟩ := hs a c' hc'
  exact ⟨c, hc, hbody'.trans hbody⟩

section Stored
variable {refs : P → List A} {h h' : Heap A P} {a b : A}

theorem stored_of_some {c : Cell P} (hc : h a = some c) : stored refs h a = refs c.body := by
  rw [stored, hc]
  rfl

theorem stored_of_none (hn : h a = none) : stored refs h a = [] := by
  rw [stored, hn]
  rfl

theorem Shrinks.stored_eq (hs : Shrinks h h') (hlive : h' a ≠ none) :
    stored refs h' a = stored refs h a := by
  obtain ⟨c', hc'⟩ := Option.ne_none_iff_exists'.mp hlive
  obtain ⟨c, hc, hbody⟩ := hs a c' hc'
  rw [stored_of_some hc', stored_of_some hc, hbody]

theorem Shrinks.edge (hs : Shrinks h h') (he : Edge refs h' a b) : Edge refs h a b := by
  have hlive : h' a ≠ none := by
    intro hn
    rw [Edge, stored_of_none hn] at he
    cases he
  rw [Edge, hs.stored_eq hlive] at he
  exact he

theorem Acyclic.mono (hacyc : Acyclic refs h) (hsub : ∀ a b, Edge refs h' a b → Edge refs h a b) :
    Acyclic refs h' :=
  fun a ha => hacyc a (ha.lift id hsub)

theorem Acyclic.shrinks (hacyc : Acyclic refs h) (hs : Shrinks h h') : Acyclic refs h' :=
  hacyc.mono fun _ _ => hs.edge

theorem Reach.avoid {roots : List A} (hacyc : Acyclic refs h)
    (hother : ∀ a, a ≠ b → stored refs h' a = stored refs h a) (hreach : Reach refs h roots b) :
    Reach refs h' roots b := by
  obtain ⟨r, hr, hpath⟩ := hreach
  have hcases : ∀ {a}, ReflTransGen (Edge refs h) r a → Reach refs h' roots a ∨
      TransGen (Edge refs h) b a := by
    intro a ha
    induction ha with
    | refl => exact .inl ⟨r, hr, .refl⟩
    | @tail c d _ he ih =>
      by_cases hcb : c = b
      · subst hcb
        exact .inr (.single he)
      · rcases ih with ⟨r', hr', hpath'⟩ | hbelow
        · refine .inl ⟨r', hr', hpath'.tail ?_⟩
          rw [Edge, hother c hcb]
          exact he
        · exact .inr (hbelow.tail he)
  rcases hcases hpath with hfound | hcycle
  · exact hfound
  · exact absurd hcycle (hacyc b)

end Stored

section Counts
variable [DecidableEq A] {refs : P → List A} {S : Finset A} {h h' : Heap A P} {roots : List A}
  {a b : A}

namespace Counts

theorem live (hc : Counts refs S h roots) (hpos : 0 < total refs S h roots a) :
    ∃ c, h a = some c ∧ c.count = total refs S h roots a := by
  have htally := hc.tally a
  cases ha : h a with
  | none =>
    rw [count, ha] at htally
    exact absurd htally hpos.ne
  | some c =>
    rw [count, ha] at htally
    exact ⟨c, rfl, htally⟩

theorem mem_of_some (hc : Counts refs S h roots) {c : Cell P} (ha : h a = some c) : a ∈ S := by
  by_contra hnot
  rw [hc.support a hnot] at ha
  cases ha

theorem mem_of_edge (hc : Counts refs S h roots) (he : Edge refs h a b) : a ∈ S := by
  by_contra hnot
  rw [Edge, stored_of_none (hc.support a hnot)] at he
  cases he

theorem live_of_root (hc : Counts refs S h roots) (ha : a ∈ roots) : h a ≠ none := by
  have hpos : 0 < total refs S h roots a := Nat.add_pos_left (List.count_pos_iff.mpr ha) _
  obtain ⟨c, hlive, -⟩ := hc.live hpos
  rw [hlive]
  exact Option.some_ne_none c

theorem live_of_edge (hc : Counts refs S h roots) (he : Edge refs h a b) : h b ≠ none := by
  have hpos : 0 < total refs S h roots b := by
    refine Nat.add_pos_right _
      (Finset.sum_pos' (fun _ _ => Nat.zero_le _) ⟨a, hc.mem_of_edge he, ?_⟩)
    exact List.count_pos_iff.mpr he
  obtain ⟨c, hlive, -⟩ := hc.live hpos
  rw [hlive]
  exact Option.some_ne_none c

theorem referred (hc : Counts refs S h roots) (ha : h a ≠ none) :
    a ∈ roots ∨ ∃ b, Edge refs h b a := by
  obtain ⟨c, hlive⟩ := Option.ne_none_iff_exists'.mp ha
  have htally := hc.tally a
  rw [count, hlive] at htally
  have hpos : 0 < total refs S h roots a := htally ▸ hc.positive a c hlive
  by_contra hnot
  push Not at hnot
  have hroots : roots.count a = 0 := List.count_eq_zero.mpr hnot.1
  have hsum : ∑ b ∈ S, (stored refs h b).count a = 0 :=
    Finset.sum_eq_zero fun b _ => List.count_eq_zero.mpr (hnot.2 b)
  rw [total, hroots, hsum] at hpos
  exact absurd hpos (Nat.lt_irrefl 0)

theorem wellFounded (hc : Counts refs S h roots) (hacyc : Acyclic refs h) :
    WellFounded (Edge refs h) ∧ WellFounded (fun a b => Edge refs h b a) := by
  have : IsStrictOrder A (TransGen (Edge refs h)) :=
    { irrefl := hacyc, trans := fun _ _ _ => TransGen.trans }
  have hmem : ∀ {a b : A}, Edge refs h a b → a ∈ S ∧ b ∈ S := by
    intro a b he
    obtain ⟨c, hlive⟩ := Option.ne_none_iff_exists'.mp (hc.live_of_edge he)
    exact ⟨hc.mem_of_edge he, hc.mem_of_some hlive⟩
  have hup := Set.wellFoundedOn_iff.mp (S.finite_toSet.wellFoundedOn (r := TransGen (Edge refs h)))
  have hdown :=
    Set.wellFoundedOn_iff.mp
      (S.finite_toSet.wellFoundedOn (r := Function.swap (TransGen (Edge refs h))))
  refine ⟨Subrelation.wf (fun {a b} he => ?_) hup, Subrelation.wf (fun {a b} he => ?_) hdown⟩
  · exact ⟨.single he, (hmem he).1, (hmem he).2⟩
  · exact ⟨.single he, (hmem he).2, (hmem he).1⟩

theorem reach_of_live (hc : Counts refs S h roots) (hacyc : Acyclic refs h) (ha : h a ≠ none) :
    Reach refs h roots a := by
  induction a using (hc.wellFounded hacyc).1.induction with
  | _ a ih =>
    rcases hc.referred ha with hroot | ⟨b, he⟩
    · exact ⟨a, hroot, .refl⟩
    · have hb : h b ≠ none := by
        intro hn
        rw [Edge, stored_of_none hn] at he
        cases he
      obtain ⟨r, hr, hpath⟩ := ih b he hb
      exact ⟨r, hr, hpath.tail he⟩

end Counts

theorem sum_stored_update (refs : P → List A) (h : Heap A P) (f : List A → ℕ) (ha : a ∈ S)
    (x : Option (Cell P)) :
    ∑ b ∈ S, f (stored refs (Function.update h a x) b) + f (stored refs h a) =
      ∑ b ∈ S, f (stored refs h b) + f ((x.map fun c => refs c.body).getD []) := by
  have hself : stored refs (Function.update h a x) a = (x.map fun c => refs c.body).getD [] := by
    rw [stored, Function.update_self]
  have hother : ∀ b ∈ S.erase a, f (stored refs (Function.update h a x) b) =
      f (stored refs h b) := by
    intro b hb
    rw [stored, Function.update_of_ne (Finset.ne_of_mem_erase hb)]
    rfl
  rw [← Finset.add_sum_erase S _ ha, ← Finset.add_sum_erase S (fun b => f (stored refs h b)) ha,
    Finset.sum_congr rfl hother, hself]
  omega

theorem count_update (x : Option (Cell P)) :
    count (Function.update h a x) b = if b = a then (x.map Cell.count).getD 0 else count h b := by
  rw [count, Function.update_apply]
  split_ifs <;> rfl

theorem Counts.delete {c : Cell P} {pending : List A} (hc : Counts refs S h (a :: pending))
    (ha : h a = some c) (hlast : c.count = 1) :
    Counts refs S (Function.update h a none) (refs c.body ++ pending) := by
  have hmem := hc.mem_of_some ha
  have hstored : stored refs h a = refs c.body := stored_of_some ha
  refine ⟨fun b hb => ?_, fun b => ?_, fun b c' hb => ?_⟩
  · rw [Function.update_apply]
    split_ifs
    · rfl
    · exact hc.support b hb
  · have htally := hc.tally b
    have hsum := sum_stored_update refs h (fun l => l.count b) hmem none
    simp only [total, List.count_append, List.count_cons, Option.map_none, Option.getD_none,
      List.count_nil, hstored, count_update, beq_iff_eq] at htally hsum ⊢
    by_cases hab : b = a
    · subst hab
      have hone : count h b = 1 := by rw [count, ha, ← hlast]; rfl
      rw [if_pos rfl] at htally ⊢
      omega
    · rw [if_neg (Ne.symm hab)] at htally
      rw [if_neg hab]
      omega
  · rw [Function.update_apply] at hb
    split_ifs at hb
    exact hc.positive b c' hb

theorem Counts.setCount {c : Cell P} {n : ℕ} {roots' : List A} (hc : Counts refs S h roots)
    (ha : h a = some c) (hn : 0 < n) (hself : n + roots.count a = c.count + roots'.count a)
    (hother : ∀ b, b ≠ a → roots.count b = roots'.count b) :
    Counts refs S (Function.update h a (some { c with count := n })) roots' := by
  have hmem := hc.mem_of_some ha
  have hstored : stored refs h a = refs c.body := stored_of_some ha
  refine ⟨fun b hb => ?_, fun b => ?_, fun b c' hb => ?_⟩
  · rw [Function.update_of_ne]
    · exact hc.support b hb
    · rintro rfl
      exact hb hmem
  · have htally := hc.tally b
    have hsum := sum_stored_update refs h (fun l => l.count b) hmem (some { c with count := n })
    simp only [total, Option.map_some, Option.getD_some, hstored, count_update] at htally hsum ⊢
    by_cases hab : b = a
    · subst hab
      have hcount : count h b = c.count := by rw [count, ha]; rfl
      rw [if_pos rfl]
      omega
    · have hroots := hother b hab
      rw [if_neg hab]
      omega
  · rw [Function.update_apply] at hb
    split_ifs at hb
    · cases hb
      exact hn
    · exact hc.positive b c' hb

theorem Counts.increment {c : Cell P} (hc : Counts refs S h roots) (ha : h a = some c) :
    Counts refs S (Function.update h a (some { c with count := c.count + 1 })) (a :: roots) := by
  refine hc.setCount ha (Nat.succ_pos _) ?_ fun b hb => ?_
  · rw [List.count_cons_self]
    omega
  · rw [List.count_cons_of_ne (Ne.symm hb)]

theorem Counts.decrement {c : Cell P} {pending : List A} {n : ℕ}
    (hc : Counts refs S h (a :: pending)) (ha : h a = some c) (hmore : c.count = n + 2) :
    Counts refs S (Function.update h a (some { c with count := n + 1 })) pending := by
  refine hc.setCount ha (Nat.succ_pos _) ?_ fun b hb => ?_
  · rw [List.count_cons_self, hmore]
    omega
  · rw [List.count_cons_of_ne (Ne.symm hb)]

theorem Shrinks.delete (h : Heap A P) (a : A) : Shrinks h (Function.update h a none) := by
  intro b c' hb
  rw [Function.update_apply] at hb
  split_ifs at hb
  exact ⟨c', hb, rfl⟩

theorem Shrinks.setCount {c : Cell P} (ha : h a = some c) (n : ℕ) :
    Shrinks h (Function.update h a (some { c with count := n })) := by
  intro b c' hb
  rw [Function.update_apply] at hb
  split_ifs at hb with hab
  · subst hab
    cases hb
    exact ⟨c, ha, rfl⟩
  · exact ⟨c', hb, rfl⟩

theorem Shrinks.of_setCount {c : Cell P} (ha : h a = some c) (n : ℕ) :
    Shrinks (Function.update h a (some { c with count := n })) h := by
  intro b c' hb
  rw [Function.update_apply]
  split_ifs with hab
  · subst hab
    rw [ha] at hb
    cases hb
    exact ⟨_, rfl, rfl⟩
  · exact ⟨c', hb, rfl⟩

theorem release_spec {fuel : ℕ} {pending : List A} (hc : Counts refs S h (pending ++ roots))
    (hfuel : size refs S h pending ≤ fuel) :
    ∃ h', release refs fuel pending h = some h' ∧ Counts refs S h' roots ∧ Shrinks h h' := by
  induction fuel generalizing h pending with
  | zero =>
    have hnil : pending = [] := by
      rw [← List.length_eq_zero_iff]
      exact Nat.eq_zero_of_le_zero ((Nat.le_add_right _ _).trans hfuel)
    subst hnil
    exact ⟨h, rfl, hc, Shrinks.refl h⟩
  | succ fuel ih =>
    cases pending with
    | nil => exact ⟨h, rfl, hc, Shrinks.refl h⟩
    | cons a pending =>
      have hlive : h a ≠ none := hc.live_of_root (List.mem_append_left _ List.mem_cons_self)
      obtain ⟨c, ha⟩ := Option.ne_none_iff_exists'.mp hlive
      have hpos := hc.positive a c ha
      have hmem := hc.mem_of_some ha
      rw [release, ha]
      rw [size, List.length_cons] at hfuel
      -- the last reference deletes the cell and adds its own references to the pending ones
      match hcount : c.count with
      | 0 => exact absurd hcount hpos.ne'
      | 1 =>
        have hnext : Counts refs S (Function.update h a none)
            ((refs c.body ++ pending) ++ roots) := by
          rw [List.append_assoc]
          exact hc.delete ha hcount
        obtain ⟨h', hrun, hc', hs⟩ := ih hnext (by
          have hsum := sum_stored_update refs h List.length hmem none
          rw [stored_of_some ha, Option.map_none, Option.getD_none, List.length_nil] at hsum
          rw [size, List.length_append]
          omega)
        refine ⟨h', ?_, hc', (Shrinks.delete h a).trans hs⟩
        simpa only [hcount] using hrun
      | n + 2 =>
        obtain ⟨h', hrun, hc', hs⟩ := ih (hc.decrement ha hcount) (by
          have hsum := sum_stored_update refs h List.length hmem (some { c with count := n + 1 })
          simp only [stored_of_some ha, Option.map_some, Option.getD_some] at hsum
          rw [size]
          omega)
        refine ⟨h', ?_, hc', (Shrinks.setCount ha _).trans hs⟩
        simpa only [hcount] using hrun

theorem live_iff_reach (hc : Counts refs S h' roots) (hs : Shrinks h h') (hacyc : Acyclic refs h) :
    h' a ≠ none ↔ Reach refs h roots a := by
  constructor
  · intro hlive
    obtain ⟨r, hr, hpath⟩ := hc.reach_of_live (hacyc.shrinks hs) hlive
    exact ⟨r, hr, hpath.lift id fun _ _ => hs.edge⟩
  · rintro ⟨r, hr, hpath⟩
    induction hpath with
    | refl => exact hc.live_of_root hr
    | tail _ he ih =>
      rw [Edge, ← hs.stored_eq ih] at he
      exact hc.live_of_edge he

def setBody (a : A) (f : P → P) (h : Heap A P) : Heap A P :=
  Function.update h a ((h a).map fun c => { c with body := f c.body })

theorem release_none {fuel : ℕ} {pending : List A} (hrun : release refs fuel pending h = some h')
    (ha : h a = none) : h' a = none := by
  induction fuel generalizing h pending with
  | zero =>
    cases pending with
    | nil => cases hrun; exact ha
    | cons b pending => cases hrun
  | succ fuel ih =>
    cases pending with
    | nil => cases hrun; exact ha
    | cons b pending =>
      rw [release] at hrun
      have hne : ∀ x, h b = some x → a ≠ b := by
        rintro x hx rfl
        rw [ha] at hx
        cases hx
      split at hrun
      · cases hrun
      · rename_i c hb
        split at hrun
        · cases hrun
        · exact ih hrun ((Function.update_of_ne (hne c hb) _ _).trans ha)
        · exact ih hrun ((Function.update_of_ne (hne c hb) _ _).trans ha)

theorem setBody_self {c : Cell P} (f : P → P) (ha : h a = some c) :
    setBody a f h a = some { c with body := f c.body } := by
  rw [setBody, Function.update_self, ha]
  rfl

theorem setBody_of_ne (f : P → P) (hne : b ≠ a) :
    setBody a f h b = h b := Function.update_of_ne hne ..

theorem setBody_update (f : P → P) (hne : b ≠ a) (x : Option (Cell P)) :
    setBody a f (Function.update h b x) = Function.update (setBody a f h) b x := by
  rw [setBody, setBody, Function.update_of_ne (Ne.symm hne), Function.update_comm hne]

theorem release_setBody {fuel : ℕ} {pending : List A} (f : P → P)
    (hrun : release refs fuel pending h = some h') (hlive : h' a ≠ none) :
    release refs fuel pending (setBody a f h) = some (setBody a f h') := by
  induction fuel generalizing h pending with
  | zero =>
    cases pending with
    | nil => cases hrun; rfl
    | cons b pending => cases hrun
  | succ fuel ih =>
    cases pending with
    | nil => cases hrun; rfl
    | cons b pending =>
      rw [release] at hrun ⊢
      by_cases hab : b = a
      · subst hab
        split at hrun
        · cases hrun
        · rename_i c hb
          rw [setBody_self f hb]
          split at hrun
          · cases hrun
          · exact absurd (release_none hrun (Function.update_self ..)) hlive
          · rename_i n hn
            have hset : setBody b f (Function.update h b (some { c with count := n + 1 })) =
                Function.update (setBody b f h) b (some ⟨n + 1, f c.body⟩) := by
              rw [setBody, setBody, Function.update_self, Function.update_idem,
                Function.update_idem]
              rfl
            simp only [hn, ← hset]
            exact ih hrun
      · rw [setBody_of_ne f hab]
        split at hrun
        · cases hrun
        · rename_i c hb
          split at hrun
          · cases hrun
          · simp only [← setBody_update f hab]
            exact ih hrun
          · simp only [← setBody_update f hab]
            exact ih hrun

end Counts

end RefGraph
