import Nkit.Base.Interleaving
import Nkit.Logger.LogFiles

/-! The threads that log (`logger.h`).  What one accessor streams between the locking and the
unlocking of its logger becomes one line of that logger, whatever the other threads do meanwhile. -/

namespace Nkit
open Interleaving

variable {T L : Type}

inductive LogOperand (L : Type) where
  | logger (l : L)
  | text (v : Bytes)
  deriving DecidableEq, Repr

structure LogStatement (L : Type) where
  level : LogLevel
  now : ℤ
  operands : List (LogOperand L)
  deriving DecidableEq, Repr

/-- What a call of `WriteLine` gets. -/
structure LogLine where
  level : LogLevel
  now : ℤ
  putHeader : Bool
  text : Bytes
  deriving DecidableEq, Repr

/-- The console logger, and the instance that `Initialize` has set. -/
structure Loggers (L : Type) where
  console : L
  instance? : Option L
  deriving DecidableEq, Repr

structure LoggerAccessor (L : Type) where
  level : LogLevel
  now : ℤ
  putHeader : Bool
  logger : Option L
  deriving DecidableEq, Repr

namespace LoggerAccessor
variable (env : Loggers L)

def create (level : LogLevel) (now : ℤ) : LoggerAccessor L := ⟨level, now, false, none⟩

def setLogger [DecidableEq L] (l : L) (a : LoggerAccessor L) : LoggerAccessor L :=
  { a with logger := some l, putHeader := decide (l ≠ env.console) }

def setDefault (a : LoggerAccessor L) : LoggerAccessor L :=
  match env.instance? with
  | some l => { a with logger := some l }
  | none => { a with logger := some env.console, putHeader := true }

theorem setDefault_isSome (a : LoggerAccessor L) : (a.setDefault env).logger.isSome := by
  unfold setDefault
  cases env.instance? with
  | none => rfl
  | some l => rfl

/-- The call of `WriteLine` when this text was streamed. -/
def line (text : Bytes) (a : LoggerAccessor L) : LogLine := ⟨a.level, a.now, a.putHeader, text⟩

/-- The line that ends when the accessor turns to another logger or is destroyed. -/
def endLine (text : Bytes) (a : LoggerAccessor L) : List (L × LogLine) :=
  a.logger.toList.map fun l => (l, a.line text)

def streamLines [DecidableEq L] (a : LoggerAccessor L) (text : Bytes) : List (LogOperand L) →
    List (L × LogLine)
  | [] => a.endLine text
  | .logger l :: operands => a.endLine text ++ streamLines (a.setLogger env l) [] operands
  | .text v :: operands =>
    if a.logger = none then streamLines (a.setDefault env) v operands
      else streamLines a (text ++ v) operands

end LoggerAccessor

def LogStatement.lines [DecidableEq L] (env : Loggers L) (s : LogStatement L) :
    List (L × LogLine) :=
  (LoggerAccessor.create s.level s.now).streamLines env [] s.operands

inductive AccessorPoint (L : Type) where
  | next
  | append (v : Bytes)
  | writeLine (logger : Option L)
  | clearStream (logger : Option L)
  | unlock (logger : Option L)
  | setLogger (l : L)
  | setDefault (v : Bytes)
  | lock (v : Option Bytes)
  deriving DecidableEq, Repr

inductive LogThread (L : Type) where
  | between (statements : List (LogStatement L))
  | inside (accessor : LoggerAccessor L) (point : AccessorPoint L) (operands : List (LogOperand L))
      (statements : List (LogStatement L))
  deriving DecidableEq, Repr

structure SharedLogger (T : Type) where
  mutex : Option T
  stream : Bytes
  deriving DecidableEq, Repr

structure LogSystem (T L : Type) where
  loggers : L → SharedLogger T
  threads : T → LogThread L
  -- the calls of `WriteLine` in the order they were made
  history : List (T × L × LogLine)

namespace LogSystem
variable [DecidableEq T] [DecidableEq L]

def start (scripts : T → List (LogStatement L)) : LogSystem T L where
  loggers _ := ⟨none, []⟩
  threads t := .between (scripts t)
  history := []

def setThread (t : T) (thread : LogThread L) (s : LogSystem T L) : LogSystem T L :=
  { s with threads := Function.update s.threads t thread }

def updateLogger (l : L) (logger : SharedLogger T) (s : LogSystem T L) : LogSystem T L :=
  { s with loggers := Function.update s.loggers l logger }

def record (t : T) (lines : List (L × LogLine)) (s : LogSystem T L) : LogSystem T L :=
  { s with history := s.history ++ lines.map fun p => (t, p) }

/-- `none` when the thread has ended, waits for a mutex or uses a null pointer. -/
def stepInside (env : Loggers L) (t : T) (a : LoggerAccessor L) (operands : List (LogOperand L))
    (statements : List (LogStatement L)) (s : LogSystem T L) :
    AccessorPoint L → Option (LogSystem T L)
  | .next =>
    match operands with
    | .logger l :: operands =>
      some (s.setThread t
        (.inside a (if a.logger.isSome then .writeLine (some l) else .setLogger l) operands
          statements))
    | .text v :: operands =>
      some (s.setThread t
        (.inside a (if a.logger.isSome then .append v else .setDefault v) operands statements))
    | [] => some (s.setThread t (if a.logger.isSome then .inside a (.writeLine none) [] statements
        else .between statements))
  | .append v => a.logger.map fun l =>
    (s.updateLogger l { s.loggers l with stream := (s.loggers l).stream ++ v }).setThread t
      (.inside a .next operands statements)
  | .writeLine logger => a.logger.map fun l =>
    (s.setThread t (.inside a (.clearStream logger) operands statements)).record t
      [(l, a.line (s.loggers l).stream)]
  | .clearStream logger => a.logger.map fun l =>
    (s.updateLogger l { s.loggers l with stream := [] }).setThread t
      (.inside a (.unlock logger) operands statements)
  | .unlock logger => a.logger.map fun l =>
    (s.updateLogger l { s.loggers l with mutex := none }).setThread t
      (match logger with
        | some l => .inside a (.setLogger l) operands statements
        | none => .between statements)
  | .setLogger l =>
    some (s.setThread t (.inside (a.setLogger env l) (.lock none) operands statements))
  | .setDefault v =>
    some (s.setThread t (.inside (a.setDefault env) (.lock (some v)) operands statements))
  | .lock v => a.logger.bind fun l =>
    if (s.loggers l).mutex = none then
      some ((s.updateLogger l { s.loggers l with mutex := some t }).setThread t
        (.inside a (match v with | some v => .append v | none => .next) operands statements))
    else none

def step (env : Loggers L) (t : T) (s : LogSystem T L) : Option (LogSystem T L) :=
  match s.threads t with
  | .between [] => none
  | .between (statement :: statements) =>
    some (s.setThread t
      (.inside (.create statement.level statement.now) .next statement.operands statements))
  | .inside a point operands statements => s.stepInside env t a operands statements point

def linesOf (t : T) (s : LogSystem T L) : List (L × LogLine) :=
  (s.history.filter fun p => p.1 = t).map Prod.snd

/-- No thread has anything left to log. -/
def Finished (s : LogSystem T L) : Prop := ∀ t, s.threads t = .between []

end LogSystem

namespace LogThread

def holds : LogThread L → Option L
  | .between _ => none
  | .inside a point _ _ =>
    match point with
    | .next | .append _ | .writeLine _ | .clearStream _ | .unlock _ => a.logger
    | .setLogger _ | .setDefault _ | .lock _ => none

def waits : LogThread L → Option L
  | .inside a (.lock _) _ _ => a.logger
  | _ => none

theorem waits_of_holds {thread : LogThread L} {l : L} (h : thread.holds = some l) :
    thread.waits = none := by
  cases thread with
  | between statements => rfl
  | inside a point operands statements =>
    cases point with
    | lock v => cases h
    | _ => rfl

def Placed (text : Bytes) : LogThread L → Prop
  | .between _ => True
  | .inside a point _ _ =>
    match point with
    | .next | .setLogger _ | .setDefault _ => True
    | .append _ | .writeLine _ | .clearStream _ | .lock _ => a.logger.isSome
    | .unlock _ => a.logger.isSome ∧ text = []

end LogThread

section
variable [DecidableEq L] (env : Loggers L)

def LoggerAccessor.afterLine (a : LoggerAccessor L) (operands : List (LogOperand L)) : Option L →
    List (L × LogLine)
  | none => []
  | some l => (a.setLogger env l).streamLines env [] operands

def LoggerAccessor.pending (a : LoggerAccessor L) (text : Bytes) (operands : List (LogOperand L)) :
    AccessorPoint L → List (L × LogLine)
  | .next => a.streamLines env text operands
  | .append v => a.streamLines env (text ++ v) operands
  | .writeLine logger => a.endLine text ++ a.afterLine env operands logger
  | .clearStream logger => a.afterLine env operands logger
  | .unlock logger => a.afterLine env operands logger
  | .setLogger l => (a.setLogger env l).streamLines env [] operands
  | .setDefault v => (a.setDefault env).streamLines env v operands
  | .lock v => a.streamLines env (v.getD []) operands

namespace LogThread

def pending (text : Bytes) : LogThread L → List (L × LogLine)
  | .between statements => statements.flatMap (·.lines env)
  | .inside a point operands statements =>
    a.pending env text operands point ++ statements.flatMap (·.lines env)

end LogThread

namespace LogSystem

def text (s : LogSystem T L) (t : T) : Bytes :=
  match (s.threads t).holds with
  | some l => (s.loggers l).stream
  | none => []

structure Inv [DecidableEq T] (scripts : T → List (LogStatement L)) (s : LogSystem T L) : Prop where
  owner : ∀ t l, (s.loggers l).mutex = some t ↔ (s.threads t).holds = some l
  free : ∀ l, (s.loggers l).mutex = none → (s.loggers l).stream = []
  placed : ∀ t, (s.threads t).Placed (s.text t)
  lines : ∀ t, s.linesOf t ++ (s.threads t).pending env (s.text t) =
    (scripts t).flatMap (·.lines env)

end LogSystem
end

namespace LogSystem
variable {s s' : LogSystem T L} {t : T} {l : L} {thread : LogThread L}

theorem text_of_holds (h : (s.threads t).holds = some l) : s.text t = (s.loggers l).stream := by
  rw [text, h]

theorem text_of_holds_none (h : (s.threads t).holds = none) : s.text t = [] := by
  rw [text, h]

theorem record_nil (s : LogSystem T L) : s.record t [] = s := by
  rw [record, List.map_nil, List.append_nil]

@[simp] theorem record_threads (s : LogSystem T L) (lines : List (L × LogLine)) :
    (s.record t lines).threads = s.threads :=
  rfl

variable [DecidableEq T]

theorem linesOf_record (s : LogSystem T L) (lines : List (L × LogLine)) (u : T) :
    linesOf u (s.record t lines) = s.linesOf u ++ if t = u then lines else [] := by
  have hown : ((lines.map fun p => (t, p)).filter fun p => p.1 = u).map Prod.snd =
      if t = u then lines else [] := by
    rw [List.filter_map, List.map_map]
    by_cases h : t = u
    · simp [h, Function.comp_def]
    · simp [h, Function.comp_def]
  rw [linesOf, record, List.filter_append, List.map_append, hown, linesOf]

@[simp] theorem setThread_self (s : LogSystem T L) (thread : LogThread L) :
    (s.setThread t thread).threads t = thread :=
  Function.update_self ..

theorem setThread_of_ne {u : T} (h : u ≠ t) (s : LogSystem T L) (thread : LogThread L) :
    (s.setThread t thread).threads u = s.threads u := Function.update_of_ne h ..

variable [DecidableEq L] {env : Loggers L} {scripts : T → List (LogStatement L)}

theorem inv_start : Inv env scripts (start scripts) where
  owner _ _ :=
    ⟨fun h => absurd h.symm (Option.some_ne_none _), fun h => absurd h.symm (Option.some_ne_none _)⟩
  free _ _ := rfl
  placed _ := trivial
  lines _ := rfl

theorem Inv.record (h : Inv env scripts s) (lines : List (L × LogLine))
    (hholds : thread.holds = (s.threads t).holds) (hplaced : thread.Placed (s.text t))
    (hlines : lines ++ thread.pending env (s.text t) = (s.threads t).pending env (s.text t)) :
    Inv env scripts ((s.setThread t thread).record t lines) := by
  have hthread : ∀ u, ((s.setThread t thread).threads u).holds = (s.threads u).holds := by
    intro u
    by_cases hu : u = t
    · rw [hu, setThread_self, hholds]
    · rw [setThread_of_ne hu]
  have htext : ∀ u, ((s.setThread t thread).record t lines).text u = s.text u := by
    intro u
    change (s.setThread t thread).text u = _
    rw [text, text, hthread]
    rfl
  refine ⟨fun u l => ?_, h.free, fun u => ?_, fun u => ?_⟩
  · rw [record_threads, hthread]
    exact h.owner u l
  all_goals rw [htext, record_threads]
  · by_cases hu : u = t
    · rw [hu, setThread_self]
      exact hplaced
    · rw [setThread_of_ne hu]
      exact h.placed u
  · rw [← h.lines u, linesOf_record]
    by_cases hu : u = t
    · rw [hu, setThread_self, if_pos rfl, List.append_assoc, hlines]
      rfl
    · rw [setThread_of_ne hu, if_neg (Ne.symm hu), List.append_nil]
      rfl

theorem Inv.setThread (h : Inv env scripts s) (hholds : thread.holds = (s.threads t).holds)
    (hplaced : thread.Placed (s.text t))
    (hlines : thread.pending env (s.text t) = (s.threads t).pending env (s.text t)) :
    Inv env scripts (s.setThread t thread) := by
  have hrecord := h.record [] hholds hplaced hlines
  rwa [record_nil] at hrecord

theorem Inv.update (h : Inv env scripts s) {logger : SharedLogger T}
    (hmine : (s.loggers l).mutex = none ∨ (s.loggers l).mutex = some t)
    (hbefore : ∀ l', (s.threads t).holds = some l' → l' = l)
    (hafter : ∀ l', thread.holds = some l' → l' = l)
    (howner : ∀ u, logger.mutex = some u ↔ u = t ∧ thread.holds = some l)
    (hfree : logger.mutex = none → logger.stream = [])
    (hplaced : thread.Placed ((s.updateLogger l logger).setThread t thread |>.text t))
    (hlines : thread.pending env ((s.updateLogger l logger).setThread t thread |>.text t) =
      (s.threads t).pending env (s.text t)) :
    Inv env scripts ((s.updateLogger l logger).setThread t thread) := by
  have hother : ∀ {u}, u ≠ t → ((s.updateLogger l logger).setThread t thread).threads u =
      s.threads u :=
    fun hu => setThread_of_ne hu ..
  have hself : ((s.updateLogger l logger).setThread t thread).threads t = thread :=
    Function.update_self ..
  have hfar : ∀ {u}, u ≠ t → (s.threads u).holds ≠ some l := by
    intro u hu hheld
    have hmutex := (h.owner u l).mpr hheld
    rcases hmine with hnone | hmine
    · cases hnone.symm.trans hmutex
    · exact hu (Option.some.inj (hmutex.symm.trans hmine))
  have hloggers : ∀ {l'}, l' ≠ l → ((s.updateLogger l logger).setThread t thread).loggers l' =
      s.loggers l' :=
    fun hl => Function.update_of_ne hl ..
  have hlogger : ((s.updateLogger l logger).setThread t thread).loggers l = logger :=
    Function.update_self ..
  have htext : ∀ {u}, u ≠ t → ((s.updateLogger l logger).setThread t thread).text u = s.text u := by
    intro u hu
    rw [text, text, hother hu]
    cases hheld : (s.threads u).holds with
    | none => rfl
    | some l' =>
      have hl : l' ≠ l := fun heq => hfar hu (heq ▸ hheld)
      simp only [hloggers hl]
  refine ⟨fun u l' => ?_, fun l' hnone => ?_, fun u => ?_, fun u => ?_⟩
  · by_cases hl : l' = l
    · rw [hl, hlogger, howner]
      by_cases hu : u = t
      · rw [hu, hself]
        exact and_iff_right rfl
      · rw [hother hu]
        exact ⟨fun hx => absurd hx.1 hu, fun hx => absurd hx (hfar hu)⟩
    · rw [hloggers hl, h.owner]
      by_cases hu : u = t
      · rw [hu, hself]
        exact ⟨fun hx => absurd (hbefore l' hx) hl, fun hx => absurd (hafter l' hx) hl⟩
      · rw [hother hu]
  · by_cases hl : l' = l
    · rw [hl, hlogger] at hnone ⊢
      exact hfree hnone
    · rw [hloggers hl] at hnone ⊢
      exact h.free l' hnone
  · by_cases hu : u = t
    · rw [hu, hself]
      exact hplaced
    · rw [htext hu, hother hu]
      exact h.placed u
  · by_cases hu : u = t
    · rw [hu, hself, hlines]
      exact h.lines t
    · rw [htext hu, hother hu]
      exact h.lines u

theorem text_update (h : thread.holds = some l) (s : LogSystem T L) (logger : SharedLogger T) :
    ((s.updateLogger l logger).setThread t thread).text t = logger.stream := by
  rw [text_of_holds ((congrArg LogThread.holds (setThread_self _ thread)).trans h)]
  exact congrArg SharedLogger.stream (Function.update_self ..)

theorem text_update_none (h : thread.holds = none) (s : LogSystem T L) (logger : SharedLogger T) :
    ((s.updateLogger l logger).setThread t thread).text t = [] :=
  text_of_holds_none ((congrArg LogThread.holds (setThread_self _ thread)).trans h)

theorem Inv.stream (h : Inv env scripts s) (hbefore : (s.threads t).holds = some l)
    (hafter : thread.holds = some l) {text : Bytes} (hplaced : thread.Placed text)
    (hlines : thread.pending env text = (s.threads t).pending env (s.loggers l).stream) :
    Inv env scripts
      ((s.updateLogger l { s.loggers l with stream := text }).setThread t thread) := by
  have hmutex := (h.owner t l).mpr hbefore
  refine h.update (.inr hmutex) (fun l' hl => ?_) (fun l' hl => ?_) (fun u => ?_) (fun hnone => ?_)
    ?_ ?_
  · exact Option.some.inj (hl.symm.trans hbefore)
  · exact Option.some.inj (hl.symm.trans hafter)
  · change (s.loggers l).mutex = some u ↔ _
    rw [hmutex, hafter, Option.some.injEq]
    exact ⟨fun hu => ⟨hu.symm, rfl⟩, fun hu => hu.1.symm⟩
  · cases hmutex.symm.trans hnone
  · rw [text_update hafter]
    exact hplaced
  · rw [text_update hafter, text_of_holds hbefore]
    exact hlines

theorem Inv.unlock (h : Inv env scripts s) (hbefore : (s.threads t).holds = some l)
    (hafter : thread.holds = none) (hempty : (s.loggers l).stream = []) (hplaced : thread.Placed [])
    (hlines : thread.pending env [] = (s.threads t).pending env []) :
    Inv env scripts ((s.updateLogger l { s.loggers l with mutex := none }).setThread t thread) := by
  refine h.update (.inr ((h.owner t l).mpr hbefore)) (fun l' hl => ?_) (fun l' hl => ?_)
    (fun u => ?_)
    (fun _ => hempty) ?_ ?_
  · exact Option.some.inj (hl.symm.trans hbefore)
  · cases hafter.symm.trans hl
  · rw [hafter]
    exact ⟨fun hu => absurd hu.symm (Option.some_ne_none u),
      fun hu => absurd hu.2.symm (Option.some_ne_none l)⟩
  · rw [text_update_none hafter]
    exact hplaced
  · rw [text_update_none hafter, text_of_holds hbefore, hempty]
    exact hlines

theorem Inv.lock (h : Inv env scripts s) (hfree : (s.loggers l).mutex = none)
    (hbefore : (s.threads t).holds = none) (hafter : thread.holds = some l)
    (hplaced : thread.Placed []) (hlines : thread.pending env [] = (s.threads t).pending env []) :
    Inv env scripts
      ((s.updateLogger l { s.loggers l with mutex := some t }).setThread t thread) := by
  refine h.update (.inl hfree) (fun l' hl => ?_) (fun l' hl => ?_) (fun u => ?_) (fun hnone => ?_)
    ?_ ?_
  · cases hbefore.symm.trans hl
  · exact Option.some.inj (hl.symm.trans hafter)
  · rw [hafter, Option.some.injEq]
    exact ⟨fun hu => ⟨hu.symm, rfl⟩, fun hu => hu.1.symm⟩
  · cases hnone
  · rw [text_update hafter]
    exact (h.free l hfree).symm ▸ hplaced
  · rw [text_update hafter, text_of_holds_none hbefore]
    exact (h.free l hfree).symm ▸ hlines

theorem Inv.stepInside (h : Inv env scripts s) {a : LoggerAccessor L} {point : AccessorPoint L}
    {operands : List (LogOperand L)} {statements : List (LogStatement L)}
    (hthread : s.threads t = .inside a point operands statements)
    (hstep : s.stepInside env t a operands statements point = some s') : Inv env scripts s' := by
  have hplaced := h.placed t
  have hbefore := congrArg LogThread.holds hthread
  rw [hthread] at hplaced
  cases point with
  | next =>
    cases operands with
    | nil =>
      cases ha : a.logger with
      | none =>
        simp only [LogSystem.stepInside, ha] at hstep
        cases hstep
        refine h.setThread (hbefore.trans ha).symm trivial ?_
        rw [hthread, text_of_holds_none (hbefore.trans ha)]
        simp [LogThread.pending, LoggerAccessor.pending, LoggerAccessor.streamLines,
          LoggerAccessor.endLine, ha]
      | some l =>
        simp only [LogSystem.stepInside, ha] at hstep
        cases hstep
        refine h.setThread hbefore.symm ?_ ?_
        · exact Option.isSome_of_eq_some ha
        · rw [hthread]
          simp [LogThread.pending, LoggerAccessor.pending, LoggerAccessor.streamLines,
            LoggerAccessor.afterLine]
    | cons operand operands =>
      cases operand with
      | logger l =>
        cases ha : a.logger with
        | none =>
          simp only [LogSystem.stepInside, ha] at hstep
          cases hstep
          refine h.setThread (hbefore.trans ha).symm trivial ?_
          rw [hthread, text_of_holds_none (hbefore.trans ha)]
          simp [LogThread.pending, LoggerAccessor.pending, LoggerAccessor.streamLines,
            LoggerAccessor.endLine, ha]
        | some l' =>
          simp only [LogSystem.stepInside, ha] at hstep
          cases hstep
          refine h.setThread hbefore.symm ?_ ?_
          · exact Option.isSome_of_eq_some ha
          · rw [hthread]
            simp [LogThread.pending, LoggerAccessor.pending, LoggerAccessor.streamLines,
              LoggerAccessor.afterLine]
      | text v =>
        cases ha : a.logger with
        | none =>
          simp only [LogSystem.stepInside, ha] at hstep
          cases hstep
          refine h.setThread (hbefore.trans ha).symm trivial ?_
          rw [hthread, text_of_holds_none (hbefore.trans ha)]
          simp [LogThread.pending, LoggerAccessor.pending, LoggerAccessor.streamLines, ha]
        | some l' =>
          simp only [LogSystem.stepInside, ha] at hstep
          cases hstep
          refine h.setThread hbefore.symm ?_ ?_
          · exact Option.isSome_of_eq_some ha
          · rw [hthread]
            simp [LogThread.pending, LoggerAccessor.pending, LoggerAccessor.streamLines, ha]
  | append v =>
    obtain ⟨l, ha⟩ := Option.isSome_iff_exists.mp hplaced
    simp only [LogSystem.stepInside, ha, Option.map_some] at hstep
    cases hstep
    refine h.stream (hbefore.trans ha) ?_ ?_ ?_
    · exact ha
    · trivial
    · rw [hthread]
      rfl
  | writeLine logger =>
    obtain ⟨l, ha⟩ := Option.isSome_iff_exists.mp hplaced
    simp only [LogSystem.stepInside, ha, Option.map_some] at hstep
    cases hstep
    refine h.record _ hbefore.symm hplaced ?_
    rw [hthread, text_of_holds (hbefore.trans ha)]
    simp [LogThread.pending, LoggerAccessor.pending, LoggerAccessor.endLine, ha]
  | clearStream logger =>
    obtain ⟨l, ha⟩ := Option.isSome_iff_exists.mp hplaced
    simp only [LogSystem.stepInside, ha, Option.map_some] at hstep
    cases hstep
    refine h.stream (hbefore.trans ha) ?_ ?_ ?_
    · exact ha
    · exact ⟨hplaced, rfl⟩
    · rw [hthread]
      rfl
  | unlock logger =>
    obtain ⟨hsome, hempty⟩ := hplaced
    obtain ⟨l, ha⟩ := Option.isSome_iff_exists.mp hsome
    rw [text_of_holds (hbefore.trans ha)] at hempty
    simp only [LogSystem.stepInside, ha, Option.map_some] at hstep
    cases hstep
    cases logger with
    | none =>
      refine h.unlock (hbefore.trans ha) rfl hempty trivial ?_
      rw [hthread]
      rfl
    | some l' =>
      refine h.unlock (hbefore.trans ha) rfl hempty trivial ?_
      rw [hthread]
      rfl
  | setLogger l =>
    simp only [LogSystem.stepInside] at hstep
    cases hstep
    refine h.setThread hbefore.symm rfl ?_
    rw [hthread]
    rfl
  | setDefault v =>
    simp only [LogSystem.stepInside] at hstep
    cases hstep
    refine h.setThread hbefore.symm (LoggerAccessor.setDefault_isSome ..) ?_
    rw [hthread]
    rfl
  | lock v =>
    obtain ⟨l, ha⟩ := Option.isSome_iff_exists.mp hplaced
    simp only [LogSystem.stepInside, ha, Option.bind_some] at hstep
    split_ifs at hstep with hfree
    cases hstep
    cases v with
    | none =>
      refine h.lock hfree hbefore ha trivial ?_
      rw [hthread]
      rfl
    | some v =>
      refine h.lock hfree hbefore ha hplaced ?_
      rw [hthread]
      rfl

theorem Inv.step (h : Inv env scripts s) (hstep : step env t s = some s') : Inv env scripts s' := by
  unfold LogSystem.step at hstep
  cases hthread : s.threads t with
  | between statements =>
    have hbefore := congrArg LogThread.holds hthread
    cases statements with
    | nil => simp [hthread] at hstep
    | cons statement statements =>
      simp only [hthread] at hstep
      cases hstep
      refine h.setThread hbefore.symm trivial ?_
      rw [hthread, text_of_holds_none hbefore]
      rfl
  | inside a point operands statements =>
    simp only [hthread] at hstep
    exact h.stepInside hthread hstep

end LogSystem

def AccessorPoint.work (rest : ℕ) : AccessorPoint L → ℕ
  | .next => rest
  | .append _ => rest + 1
  | .lock _ => rest + 2
  | .setLogger _ => rest + 3
  | .setDefault _ => rest + 3
  | .unlock logger => if logger.isSome then rest + 4 else 1
  | .clearStream logger => if logger.isSome then rest + 5 else 2
  | .writeLine logger => if logger.isSome then rest + 6 else 3

def LogStatement.work (s : LogStatement L) : ℕ := 7 * s.operands.length + 5

def LogThread.work : LogThread L → ℕ
  | .between statements => (statements.map LogStatement.work).sum
  | .inside _ point operands statements =>
    point.work (7 * operands.length + 4) + (statements.map LogStatement.work).sum

namespace LogSystem
variable [DecidableEq T] [DecidableEq L] {env : Loggers L} {scripts : T → List (LogStatement L)}
  {s s' : LogSystem T L} {t : T}

theorem step_work (h : step env t s = some s') :
    ∃ thread : LogThread L, s'.threads = Function.update s.threads t thread ∧
      thread.work < (s.threads t).work := by
  unfold LogSystem.step at h
  cases hthread : s.threads t with
  | between statements =>
    cases statements with
    | nil => simp [hthread] at h
    | cons statement statements =>
      simp only [hthread] at h
      cases h
      refine ⟨_, rfl, ?_⟩
      simp [LogThread.work, AccessorPoint.work, LogStatement.work]
  | inside a point operands statements =>
    simp only [hthread] at h
    cases point with
    | next =>
      cases operands with
      | nil =>
        cases h
        refine ⟨_, rfl, ?_⟩
        cases a.logger <;> simp [LogThread.work, AccessorPoint.work]
      | cons operand operands =>
        cases operand with
        | logger l =>
          cases h
          refine ⟨_, rfl, ?_⟩
          cases a.logger <;> simp [LogThread.work, AccessorPoint.work] <;> omega
        | text v =>
          cases h
          refine ⟨_, rfl, ?_⟩
          cases a.logger <;> simp [LogThread.work, AccessorPoint.work] <;> omega
    | append v =>
      obtain ⟨l, -, rfl⟩ := Option.map_eq_some_iff.mp h
      refine ⟨_, rfl, ?_⟩
      simp [LogThread.work, AccessorPoint.work]
    | writeLine logger =>
      obtain ⟨l, -, rfl⟩ := Option.map_eq_some_iff.mp h
      refine ⟨_, rfl, ?_⟩
      cases logger <;> simp [LogThread.work, AccessorPoint.work]
    | clearStream logger =>
      obtain ⟨l, -, rfl⟩ := Option.map_eq_some_iff.mp h
      refine ⟨_, rfl, ?_⟩
      cases logger <;> simp [LogThread.work, AccessorPoint.work]
    | unlock logger =>
      obtain ⟨l, -, rfl⟩ := Option.map_eq_some_iff.mp h
      refine ⟨_, rfl, ?_⟩
      cases logger <;> simp [LogThread.work, AccessorPoint.work]
    | setLogger l =>
      cases h
      refine ⟨_, rfl, ?_⟩
      simp [LogThread.work, AccessorPoint.work]
    | setDefault v =>
      cases h
      refine ⟨_, rfl, ?_⟩
      simp [LogThread.work, AccessorPoint.work]
    | lock v =>
      obtain ⟨l, -, hlock⟩ := Option.bind_eq_some_iff.mp h
      split_ifs at hlock
      cases hlock
      refine ⟨_, rfl, ?_⟩
      cases v <;> simp [LogThread.work, AccessorPoint.work]

theorem Inv.ready (h : Inv env scripts s) (hwork : s.threads t ≠ .between [])
    (hwaits : ∀ l, (s.threads t).waits = some l → (s.loggers l).mutex = none) :
    (LogSystem.step env t s).isSome := by
  have hplaced := h.placed t
  unfold LogSystem.step
  cases hthread : s.threads t with
  | between statements =>
    cases statements with
    | nil => exact absurd hthread hwork
    | cons statement statements => rfl
  | inside a point operands statements =>
    rw [hthread] at hplaced hwaits
    cases point with
    | next =>
      cases operands with
      | nil => rfl
      | cons operand operands =>
        cases operand with
        | logger l => rfl
        | text v => rfl
    | setLogger l => rfl
    | setDefault v => rfl
    | append v => exact Option.isSome_map.trans hplaced
    | writeLine logger => exact Option.isSome_map.trans hplaced
    | clearStream logger => exact Option.isSome_map.trans hplaced
    | unlock logger => exact Option.isSome_map.trans hplaced.1
    | lock v =>
      obtain ⟨l, ha⟩ := Option.isSome_iff_exists.mp hplaced
      simp [LogSystem.stepInside, ha, hwaits l ha]

theorem Inv.progress (h : Inv env scripts s) (hwork : ¬ s.Finished) :
    ∃ t, (LogSystem.step env t s).isSome := by
  obtain ⟨t, ht⟩ := not_forall.mp hwork
  by_cases hwaits : ∀ l, (s.threads t).waits = some l → (s.loggers l).mutex = none
  · exact ⟨t, h.ready ht hwaits⟩
  · push Not at hwaits
    obtain ⟨l, -, hmutex⟩ := hwaits
    obtain ⟨u, hu⟩ := Option.ne_none_iff_exists'.mp hmutex
    have hheld := (h.owner u l).mp hu
    have hnone := LogThread.waits_of_holds hheld
    refine ⟨u, h.ready (fun hdone => ?_) fun l' hl => ?_⟩
    · rw [hdone] at hheld
      cases hheld
    · cases hnone.symm.trans hl

theorem Inv.exec (schedule : List T) :
    Inv env scripts (Interleaving.exec (LogSystem.step env) schedule (start scripts)) :=
  exec_invariant (fun _ _ _ hs => hs.step) schedule inv_start

end LogSystem

open LogSystem

variable [DecidableEq T] [DecidableEq L]

/-- However the threads take turns, each of them writes the lines of its statements whole and in
their order. -/
theorem lines_never_mixed (env : Loggers L) (scripts : T → List (LogStatement L))
    (schedule : List T) (t : T) :
    (exec (step env) schedule (start scripts)).linesOf t <+: (scripts t).flatMap (·.lines env) ∧
      ((exec (step env) schedule (start scripts)).threads t = .between [] →
        (exec (step env) schedule (start scripts)).linesOf t =
        (scripts t).flatMap (·.lines env)) := by
  have hinv : Inv env scripts (exec (step env) schedule (start scripts)) := Inv.exec schedule
  have hlines := hinv.lines t
  refine ⟨⟨_, hlines⟩, fun hdone => ?_⟩
  rw [hdone] at hlines
  exact (List.append_nil _).symm.trans hlines

/-- The threads never block each other for good: from every state that they reach they can go on
until each has written all its lines. -/
theorem threads_finish [Fintype T] (env : Loggers L) (scripts : T → List (LogStatement L))
    (schedule : List T) :
    ∃ schedule', (exec (step env) (schedule ++ schedule') (start scripts)).Finished := by
  have hless : ∀ t s s', Inv env scripts s → step env t s = some s' →
      ∑ u, (s'.threads u).work < ∑ u, (s.threads u).work := by
    intro t s s' _ hstep
    obtain ⟨thread, hthreads, hless⟩ := step_work hstep
    simp only [hthreads]
    exact sum_update_lt LogThread.work s.threads hless
  obtain ⟨schedule', hdone⟩ :=
    exec_finishes (D := Finished) (fun _ _ _ hs => hs.step) hless (fun _ hs => hs.progress)
    (Inv.exec schedule)
  exact ⟨schedule', (exec_append schedule schedule' _).symm ▸ hdone⟩

end Nkit
