import Mathlib.Data.List.Nodup
import Mathlib.Tactic.Common

/-! Events of which some are pieces of a text, and what reads them without seeing where the text was
cut. -/

namespace Chunks
variable {A E S I : Type*}

/-- Runs of pieces are cut in other places, and no piece is empty. -/
inductive Rechunked (text : List A → E) : List E → List E → Prop
  | nil : Rechunked text [] []
  | event (e : E) {es es' : List E} (h : Rechunked text es es') :
      Rechunked text (e :: es) (e :: es')
  | texts {pieces pieces' : List (List A)} {es es' : List E} (hne : ∀ p ∈ pieces, p ≠ [])
      (hne' : ∀ p ∈ pieces', p ≠ [])
      (hflatten : pieces.flatten = pieces'.flatten) (h : Rechunked text es es') :
      Rechunked text (pieces.map text ++ es) (pieces'.map text ++ es')

theorem flatten_eq_nil_iff {pieces : List (List A)} (hne : ∀ p ∈ pieces, p ≠ []) :
    pieces.flatten = [] ↔ pieces = [] := by
  rw [List.flatten_eq_nil_iff]
  constructor
  · intro hall
    apply List.eq_nil_iff_forall_not_mem.mpr
    exact fun p hp => hne p hp (hall p hp)
  · rintro rfl p hp
    cases hp

section
variable {text : List A → E} {step : S → E → S} {P : S → Prop} (hstep : ∀ s e, P s → P (step s e))
variable (happend : ∀ s p q, P s → step (step s (text p)) (text q) = step s (text (p ++ q)))
include happend

theorem foldl_texts (p : List A) (pieces : List (List A)) {s : S} (hs : P s) :
    ((p :: pieces).map text).foldl step s = step s (text (p :: pieces).flatten) := by
  induction pieces generalizing p with
  | nil =>
    rw [List.flatten_cons, List.flatten_nil, List.append_nil, List.map_singleton, List.foldl_cons,
      List.foldl_nil]
  | cons q pieces ih =>
    have hjoin := ih (p ++ q)
    rw [List.map_cons, List.foldl_cons, ← happend s p q hs] at hjoin
    rw [List.map_cons, List.map_cons, List.foldl_cons, List.foldl_cons, hjoin, List.flatten_cons,
      List.flatten_cons, List.flatten_cons, List.append_assoc]

include hstep

theorem Rechunked.foldl_eq {es es' : List E} (h : Rechunked text es es') {s : S} (hs : P s) :
    es.foldl step s = es'.foldl step s := by
  induction h generalizing s with
  | nil => rfl
  | event e _ ih => exact ih (hstep s e hs)
  | @texts pieces pieces' es es' hne hne' hflatten _ ih =>
    rw [List.foldl_append, List.foldl_append]
    have hnil : pieces = [] ↔ pieces' = [] := by
      rw [← flatten_eq_nil_iff hne, hflatten, flatten_eq_nil_iff hne']
    cases pieces with
    | nil =>
      obtain rfl := hnil.mp rfl
      exact ih hs
    | cons p pieces =>
      obtain ⟨p', pieces', rfl⟩ := List.exists_cons_of_ne_nil fun h =>
        List.cons_ne_nil p pieces (hnil.mpr h)
      rw [foldl_texts happend p pieces hs, foldl_texts happend p' pieces' hs, hflatten]
      exact ih (hstep _ _ hs)

end

theorem foldlM_eq_foldl (step : S → E → Option S) (es : List E) (r : Option S) :
    (r.bind fun s => es.foldlM step s) = es.foldl (fun r e => r.bind fun s => step s e) r := by
  induction es generalizing r with
  | nil => cases r <;> rfl
  | cons e es ih =>
    rw [List.foldl_cons, ← ih, Option.bind_assoc]
    rfl

theorem foldl_foldl {f f' g : S → I → S} (hswap : ∀ s i j, i ≠ j → f' (f s j) i = f (f' s i) j)
    (hboth : ∀ s i, f' (f s i) i = g s i) {places : List I} (h : places.Nodup) (s : S) :
    places.foldl f' (places.foldl f s) = places.foldl g s := by
  induction places generalizing s with
  | nil => rfl
  | cons i places ih =>
    obtain ⟨hi, hplaces⟩ := List.nodup_cons.mp h
    have hfirst : ∀ (js : List I) s, i ∉ js → f' (js.foldl f s) i = js.foldl f (f' s i) := by
      intro js
      induction js with
      | nil => exact fun _ _ => rfl
      | cons j js ihj =>
        intro s hnot
        rw [List.foldl_cons, List.foldl_cons, ihj _ fun hin => hnot (List.mem_cons_of_mem j hin),
          hswap s i j fun heq => hnot (heq ▸ List.mem_cons_self)]
    rw [List.foldl_cons, List.foldl_cons, List.foldl_cons, hfirst places _ hi, hboth, ih hplaces]

end Chunks
