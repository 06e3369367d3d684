import Mathlib.Data.List.DropRight

/-! A list without what satisfies a predicate at its two ends. -/

namespace Strip
variable {A : Type*} {p q : A → Bool} {l t u v : List A}

def strip (p : A → Bool) (l : List A) : List A := (l.dropWhile p).rdropWhile p

def Bare (p : A → Bool) (l : List A) : Prop :=
  (∀ a ∈ l.head?, p a = false) ∧ ∀ a ∈ l.getLast?, p a = false

theorem rdropWhile_append_of_pos (hv : ∀ a ∈ v, p a = true) (l : List A) :
    (l ++ v).rdropWhile p = l.rdropWhile p := by
  rw [List.rdropWhile, List.reverse_append,
    List.dropWhile_append_of_pos fun a ha => hv a (List.mem_reverse.mp ha), List.rdropWhile]

theorem rdropWhile_of_last (h : ∀ a ∈ l.getLast?, p a = false) : l.rdropWhile p = l := by
  rw [List.rdropWhile_eq_self_iff]
  intro hne hlast
  rw [h _ (List.getLast?_eq_some_getLast hne)] at hlast
  cases hlast

theorem dropWhile_of_head (h : ∀ a ∈ l.head?, p a = false) : l.dropWhile p = l := by
  cases l with
  | nil => rfl
  | cons a l => rw [List.dropWhile_cons_of_neg (by simp [h a rfl])]

theorem last_rdropWhile (p : A → Bool) (l : List A) :
    ∀ a ∈ (l.rdropWhile p).getLast?, p a = false := by
  intro a ha
  obtain ⟨hne, rfl⟩ := List.mem_getLast?_eq_getLast ha
  exact Bool.eq_false_iff.mpr (List.rdropWhile_last_not p _ hne)

theorem strip_bare (p : A → Bool) (l : List A) : Bare p (strip p l) := by
  refine ⟨fun a ha => ?_, last_rdropWhile p _⟩
  obtain ⟨w, hw⟩ := List.rdropWhile_prefix p (l.dropWhile p)
  have hhead : a ∈ (l.dropWhile p).head? := by
    rw [← hw]
    exact List.mem_head?_append_of_mem_head? ha
  have hnot := List.head?_dropWhile_not p l
  rwa [Option.mem_def.mp hhead] at hnot

theorem strip_of_bare (h : Bare p l) :
    strip p l = l := by rw [strip, dropWhile_of_head h.1, rdropWhile_of_last h.2]

theorem strip_eq_self_iff : strip p l = l ↔ Bare p l := ⟨fun h => h ▸ strip_bare p l, strip_of_bare⟩

theorem strip_eq_nil_iff : strip p l = [] ↔ ∀ a ∈ l, p a = true := by
  rw [strip, List.rdropWhile_eq_nil_iff]
  constructor
  · intro h
    refine List.dropWhile_eq_nil_iff.mp ?_
    by_contra hne
    have hhead := List.head_dropWhile_not p hne
    rw [h _ (List.head_mem hne)] at hhead
    cases hhead
  · intro h a ha
    exact h a ((List.dropWhile_suffix p).subset ha)

theorem strip_append (hu : ∀ a ∈ u, p a = true) (hv : ∀ a ∈ v, p a = true) (l : List A) :
    strip p (u ++ l ++ v) = strip p l := by
  rw [strip, List.append_assoc, List.dropWhile_append_of_pos hu]
  by_cases hl : ∀ a ∈ l, p a = true
  · rw [List.dropWhile_append_of_pos hl, List.dropWhile_eq_nil_iff.mpr hv, strip_eq_nil_iff.mpr hl,
      List.rdropWhile_nil]
  · have hne : l.dropWhile p ≠ [] := fun h => hl (List.dropWhile_eq_nil_iff.mp h)
    rw [List.dropWhile_append, if_neg (by simpa using hne), rdropWhile_append_of_pos hv, strip]

theorem exists_parts (p : A → Bool) (l : List A) :
    ∃ u v, l = u ++ strip p l ++ v ∧ (∀ a ∈ u, p a = true) ∧ ∀ a ∈ v, p a = true := by
  refine ⟨l.takeWhile p, (l.dropWhile p).rtakeWhile p, ?_, fun a => List.mem_takeWhile_imp,
    fun a => List.mem_rtakeWhile_imp⟩
  rw [strip, List.append_assoc, List.rdropWhile_append_rtakeWhile, List.takeWhile_append_dropWhile]

theorem dropWhile_parts (hu : ∀ a ∈ u, p a = true) (hhead : ∀ a ∈ t.head?, p a = false)
    (hne : t ≠ []) (v : List A) :
    (u ++ t ++ v).dropWhile p = t ++ v := by
  rw [List.append_assoc, List.dropWhile_append_of_pos hu]
  refine dropWhile_of_head fun a ha => hhead a ?_
  rwa [List.head?_append_of_ne_nil t hne] at ha

theorem takeWhile_parts (hu : ∀ a ∈ u, p a = true) (hhead : ∀ a ∈ t.head?, p a = false)
    (hne : t ≠ []) (v : List A) :
    (u ++ t ++ v).takeWhile p = u := by
  have hall : (u ++ t ++ v).takeWhile p ++ (u ++ t ++ v).dropWhile p = u ++ t ++ v :=
    List.takeWhile_append_dropWhile
  rw [dropWhile_parts hu hhead hne] at hall
  exact List.append_cancel_right (hall.trans (List.append_assoc u t v))

theorem rdropWhile_parts (hv : ∀ a ∈ v, p a = true) (hlast : ∀ a ∈ t.getLast?, p a = false)
    (hne : t ≠ []) (u : List A) :
    (u ++ t ++ v).rdropWhile p = u ++ t := by
  rw [rdropWhile_append_of_pos hv, rdropWhile_of_last]
  intro a ha
  rw [List.getLast?_append_of_ne_nil u hne] at ha
  exact hlast a ha

theorem dropWhile_congr (h : ∀ a ∈ l, p a = q a) : l.dropWhile p = l.dropWhile q := by
  induction l with
  | nil => rfl
  | cons a l ih =>
    obtain ⟨ha, hl⟩ := List.forall_mem_cons.mp h
    rw [List.dropWhile_cons, List.dropWhile_cons, ha, ih hl]

theorem rdropWhile_congr (h : ∀ a ∈ l, p a = q a) : l.rdropWhile p = l.rdropWhile q := by
  rw [List.rdropWhile, List.rdropWhile, dropWhile_congr fun a ha => h a (List.mem_reverse.mp ha)]

theorem strip_congr (h : ∀ a ∈ l, p a = q a) : strip p l = strip q l := by
  rw [strip, strip, dropWhile_congr h,
    rdropWhile_congr fun a ha => h a ((List.dropWhile_suffix q).subset ha)]

section
variable (hpq : ∀ a, p a = true → q a = true)
include hpq

theorem strip_strip (l : List A) : strip q (strip p l) = strip q l := by
  obtain ⟨u, v, hl, hu, hv⟩ := exists_parts p l
  conv_rhs => rw [hl]
  rw [strip_append (fun a ha => hpq a (hu a ha)) (fun a ha => hpq a (hv a ha))]

theorem strip_eq_strip_iff :
    strip q l = strip p l ↔ Bare q (strip p l) := by rw [← strip_strip hpq, strip_eq_self_iff]

theorem dropWhile_eq_strip_iff : l.dropWhile q = strip p l ↔
    (∀ a ∈ l, p a = true) ∨ (∀ a ∈ (strip p l).head?, q a = false) ∧ ∀ a ∈ l.getLast?, p a =
      false := by
  by_cases hnil : strip p l = []
  · have hall := strip_eq_nil_iff.mp hnil
    refine iff_of_true ?_ (.inl hall)
    rw [hnil, List.dropWhile_eq_nil_iff]
    exact fun a ha => hpq a (hall a ha)
  · rw [or_iff_right fun hall => hnil (strip_eq_nil_iff.mpr hall)]
    obtain ⟨u, v, hl, hu, hv⟩ := exists_parts p l
    have hbare := strip_bare p l
    generalize strip p l = t at hl hnil hbare
    subst hl
    by_cases hhead : ∀ a ∈ t.head?, q a = false
    · rw [dropWhile_parts (fun a ha => hpq a (hu a ha)) hhead hnil, and_iff_right hhead,
        List.append_right_eq_self]
      constructor
      · rintro rfl a ha
        rw [List.append_nil, List.getLast?_append_of_ne_nil u hnil] at ha
        exact hbare.2 a ha
      · intro hlast
        by_contra hv'
        have hin : v.getLast hv' ∈ (u ++ t ++ v).getLast? := by
          rw [List.getLast?_append_of_ne_nil _ hv']
          exact List.getLast?_eq_some_getLast hv'
        have hlast' := hlast _ hin
        rw [hv _ (List.getLast_mem hv')] at hlast'
        cases hlast'
    · refine iff_of_false (fun heq => hhead fun a ha => ?_) fun h => hhead h.1
      have hnot := List.head?_dropWhile_not q (u ++ t ++ v)
      rw [heq, Option.mem_def.mp ha] at hnot
      exact hnot

end

end Strip
