import Mathlib.Logic.Relation
import Mathlib.Logic.Function.Basic
import Mathlib.Data.Set.Function

/-! Sets of heap objects that keep to themselves.  What is written inside such a set, with
references into it, is not seen from anywhere else. -/

namespace Region
open Relation

section Defs
variable {A O : Type*} (refs : O → List A)

def Edge (h : A → Option O) (a b : A) : Prop := ∃ o, h a = some o ∧ b ∈ refs o

def Reach (h : A → Option O) (roots : List A) (a : A) : Prop :=
  ∃ r ∈ roots, ReflTransGen (Edge refs h) r a

def Closed (h : A → Option O) (Q : Set A) : Prop := ∀ a ∈ Q, ∀ b, Edge refs h a b → b ∈ Q

structure Confined (Q : Set A) (h h' : A → Option O) : Prop where
  closed : Closed refs h' Q
  same : ∀ a ∉ Q, h' a = h a

end Defs

section Lemmas
variable {A O : Type*} {refs : O → List A} {h h' h'' : A → Option O} {Q : Set A}
  {roots roots' : List A} {a : A}

theorem Closed.mem_of_path (hc : Closed refs h Q) {r : A} (hr : r ∈ Q)
    (hpath : ReflTransGen (Edge refs h) r a) : a ∈ Q := by
  induction hpath with
  | refl => exact hr
  | tail _ he ih => exact hc _ ih _ he

theorem Closed.mem_of_reach (hc : Closed refs h Q) (hroots : ∀ r ∈ roots, r ∈ Q)
    (ha : Reach refs h roots a) : a ∈ Q := by
  obtain ⟨r, hr, hpath⟩ := ha
  exact hc.mem_of_path (hroots r hr) hpath

theorem reach_closed (h : A → Option O) (roots : List A) :
    Closed refs h {a | Reach refs h roots a} := by
  rintro a ⟨r, hr, hpath⟩ b he
  exact ⟨r, hr, hpath.tail he⟩

theorem reach_root {r : A} (hr : r ∈ roots) : Reach refs h roots r := ⟨r, hr, .refl⟩

theorem reach_append :
    Reach refs h (roots ++ roots') a ↔ Reach refs h roots a ∨ Reach refs h roots' a := by
  constructor
  · rintro ⟨r, hr, hpath⟩
    exact (List.mem_append.mp hr).imp (fun h => ⟨r, h, hpath⟩) fun h => ⟨r, h, hpath⟩
  · rintro (⟨r, hr, hpath⟩ | ⟨r, hr, hpath⟩)
    · exact ⟨r, List.mem_append_left _ hr, hpath⟩
    · exact ⟨r, List.mem_append_right _ hr, hpath⟩

theorem reach_head {o : O} (ho : h a = some o) {b : A} (hb : Reach refs h [a] b) :
    b = a ∨ Reach refs h (refs o) b := by
  obtain ⟨r, hr, hpath⟩ := hb
  obtain rfl := List.mem_singleton.mp hr
  rcases ReflTransGen.cases_head hpath with rfl | ⟨c, ⟨o', ho', hc⟩, hpath⟩
  · exact .inl rfl
  · rw [ho] at ho'
    cases ho'
    exact .inr ⟨c, hc, hpath⟩

theorem reach_empty : ¬Reach refs h [] a := by
  rintro ⟨r, hr, -⟩
  cases hr

theorem reach_congr (hsame : ∀ a, Reach refs h roots a → h' a = h a) :
    Reach refs h' roots a ↔ Reach refs h roots a := by
  constructor
  · rintro ⟨r, hr, hpath⟩
    induction hpath with
    | refl => exact reach_root hr
    | tail _ he ih =>
      obtain ⟨o, ho, hb⟩ := he
      obtain ⟨r', hr', hpath'⟩ := ih
      exact ⟨r', hr', hpath'.tail ⟨o, (hsame _ ⟨r', hr', hpath'⟩).symm.trans ho, hb⟩⟩
  · rintro ⟨r, hr, hpath⟩
    refine ⟨r, hr, ?_⟩
    induction hpath with
    | refl => exact .refl
    | tail hpath he ih =>
      obtain ⟨o, ho, hb⟩ := he
      exact ih.tail ⟨o, (hsame _ ⟨r, hr, hpath⟩).trans ho, hb⟩

theorem Confined.refl (hc : Closed refs h Q) : Confined refs Q h h := ⟨hc, fun _ _ => rfl⟩

theorem Confined.trans (hc : Confined refs Q h h') (hc' : Confined refs Q h' h'') :
    Confined refs Q h h'' :=
  ⟨hc'.closed, fun a ha => (hc'.same a ha).trans (hc.same a ha)⟩

theorem confined_update [DecidableEq A] (hc : Closed refs h Q) (ha : a ∈ Q) {o : O}
    (ho : ∀ b ∈ refs o, b ∈ Q) :
    Confined refs Q h (Function.update h a (some o)) := by
  refine ⟨fun b hb c hbc => ?_,
    fun b hb => Function.update_of_ne (fun (hab : b = a) => hb (hab ▸ ha)) _ _⟩
  obtain ⟨o', ho', hc'⟩ := hbc
  by_cases hab : b = a
  · rw [hab, Function.update_self] at ho'
    cases ho'
    exact ho c hc'
  · rw [Function.update_of_ne hab] at ho'
    exact hc b hb c ⟨o', ho', hc'⟩

theorem Confined.apart (hc : Confined refs Q h h') (hroots : ∀ r ∈ roots, r ∈ Q)
    (hout : ∀ a, Reach refs h roots' a → a ∉ Q) (ha : Reach refs h' roots a) :
    ¬Reach refs h' roots' a := by
  intro ha'
  exact hout a ((reach_congr fun b hb => hc.same b (hout b hb)).mp ha')
    (hc.closed.mem_of_reach hroots ha)

end Lemmas

end Region
