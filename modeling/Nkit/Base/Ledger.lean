import Mathlib.Tactic.Common

/-! A run of actions beside a ledger that is kept of it.  The ledger says which action may come
next, and what an action may rely on. -/

namespace Ledger
variable {A M S T : Type*} (note : A → M → M)

def after (m : M) (as : List A) : M := as.foldl (fun m a => note a m) m

/-- Every action is in order by what the ledger says before it. -/
def Allowed (ok : M → A → Prop) : M → List A → Prop
  | _, [] => True
  | m, a :: as => ok m a ∧ Allowed ok (note a m) as

variable {note} {ok ok' : M → A → Prop} {m : M} {as bs : List A}

@[simp] theorem after_nil : after note m [] = m := rfl

@[simp] theorem after_cons (a : A) : after note m (a :: as) = after note (note a m) as := rfl

@[simp] theorem after_append : after note m (as ++ bs) = after note (after note m as) bs :=
  List.foldl_append

theorem allowed_append :
    Allowed note ok m (as ++ bs) ↔ Allowed note ok m as ∧ Allowed note ok (after note m as) bs := by
  induction as generalizing m with
  | nil => simp [Allowed]
  | cons a as ih => rw [List.cons_append, Allowed, Allowed, ih, after_cons, and_assoc]

theorem Allowed.imp (hok : ∀ m a, ok m a → ok' m a) (h : Allowed note ok m as) :
    Allowed note ok' m as := by
  induction as generalizing m with
  | nil => trivial
  | cons a as ih => exact ⟨hok m a h.1, ih h.2⟩

theorem Allowed.and {P : A → Prop} {I : M → Prop} (h : Allowed note ok m as) (hP : ∀ a ∈ as, P a)
    (hI : ∀ m a, P a → I m → I (note a m)) (hm : I m) (hok : ∀ m a, ok m a → P a → I m → ok' m a) :
    Allowed note ok' m as := by
  induction as generalizing m with
  | nil => trivial
  | cons a as ih =>
    obtain ⟨ha, has⟩ := List.forall_mem_cons.mp hP
    exact ⟨hok m a h.1 ha hm, ih h.2 has (hI m a ha hm)⟩

theorem Allowed.invariant (act : A → S → S) (P : M → S → Prop)
    (hstep : ∀ m a s, ok m a → P m s → P (note a m) (act a s)) (h : Allowed note ok m as) {s : S}
    (hs : P m s) : P (after note m as) (as.foldl (fun s a => act a s) s) := by
  induction as generalizing m s with
  | nil => exact hs
  | cons a as ih => exact ih h.2 (hstep m a s h.1 hs)

theorem Allowed.lockstep (act : A → S → S) (act' : A → T → T) (R : M → S → T → Prop)
    (hstep : ∀ m a s t, ok m a → R m s t → R (note a m) (act a s) (act' a t))
    (h : Allowed note ok m as) {s : S} {t : T} (hst : R m s t) :
    R (after note m as) (as.foldl (fun s a => act a s) s) (as.foldl (fun t a => act' a t) t) := by
  induction as generalizing m s t with
  | nil => exact hst
  | cons a as ih => exact ih h.2 (hstep m a s t h.1 hst)

end Ledger
