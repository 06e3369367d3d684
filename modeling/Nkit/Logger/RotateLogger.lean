import Nkit.Logger.LocalTime
import Nkit.Base.Runs

/-! The rotating log file (`rotate_logger.cpp`).  A call that finds the interval over, or the
file full, moves the file to an archive before it writes its line. -/

namespace Nkit
open Runs

inductive RotateInterval where
  | disabled
  | oneSecond
  | twoSeconds
  | fiveSeconds
  | oneHour
  | oneDay
  deriving DecidableEq, Repr

def RotateInterval.seconds : RotateInterval → ℤ
  | disabled => 0
  | oneSecond => 1
  | twoSeconds => 2
  | fiveSeconds => 5
  | oneHour => 60 * 60
  | oneDay => 60 * 60 * 24

inductive RotateCause where
  | byTime
  | bySize
  deriving DecidableEq, Repr

/-- A rotation: the arguments `Rotate` was called with, and why. -/
structure Archive where
  cause : RotateCause
  time : ℤ
  suffix : BitVec 64
  deriving DecidableEq, Repr

structure RotateLogger where
  filePath : Bytes
  rotateSize : ℤ
  rotateInterval : RotateInterval
  prevRotateTime : ℤ
  nextRotateTime : ℤ
  rotateBySizeCounter : BitVec 64
  fileSize : ℕ
  -- position of the stream, which is at the end of the file only after a write
  tellp : ℕ
  -- the rotations so far, the last one first
  archives : List Archive
  deriving DecidableEq, Repr

/-- A call of `WriteLine`: the time of the line, what the system clock shows meanwhile, and
how many bytes the line has with its header and line end. -/
structure WriteCall where
  now : ℤ
  clock : ℤ
  line : ℕ
  deriving DecidableEq, Repr

namespace RotateLogger

/-- `ROTATE_SIZE_DISABLED`. -/
def rotateSizeDisabled : ℤ := -1

/-- Name of the file that `Rotate(now, suffix)` moves the log to. -/
def archiveName (lt : LocalTime) (filePath : Bytes) (now : ℤ) (suffix : BitVec 64) : Bytes :=
  match lt.isoTime now with
  | none => filePath ++ ascii "." ++ stringCast (now % 2 ^ 64)
  | some isoTime =>
    filePath ++ ascii "." ++ isoTime ++ if suffix ≠ 0 then ascii "-" ++ stringCast suffix.toNat
      else []

def archiveNames (lt : LocalTime) (s : RotateLogger) : List Bytes :=
  s.archives.map fun a => archiveName lt s.filePath a.time a.suffix

/-- The start of the window that follows; a time of 0 stands for no window yet. -/
def followingStart (lt : LocalTime) (clock : ℤ) (s : RotateLogger) : ℤ :=
  if s.prevRotateTime = 0 then lt.dayStart clock else s.nextRotateTime

def updateRotateTimes (lt : LocalTime) (clock : ℤ) (s : RotateLogger) : RotateLogger :=
  if s.rotateInterval = .disabled then s
  else
    let prev := s.followingStart lt clock
    { s with prevRotateTime := prev, nextRotateTime := prev + s.rotateInterval.seconds }

/-- The constructor; where the stream stands after opening an existing file for appending is left to
the library. -/
def create (lt : LocalTime) (clock : ℤ) (filePath : Bytes) (interval : RotateInterval) (size : ℤ)
    (fileSize tellp : ℕ) : RotateLogger :=
  updateRotateTimes lt clock ⟨filePath, size, interval, 0, 0, -1, fileSize, tellp, []⟩

def rotate (cause : RotateCause) (now : ℤ) (suffix : BitVec 64) (s : RotateLogger) : RotateLogger :=
  { s with fileSize := 0, tellp := 0, archives := ⟨cause, now, suffix⟩ :: s.archives }

def rotatesBySize (s : RotateLogger) : Bool :=
  s.rotateSize ≠ rotateSizeDisabled && s.rotateSize ≤ s.tellp

def rotatesByTime (now : ℤ) (s : RotateLogger) : Bool :=
  s.rotateInterval ≠ .disabled && s.nextRotateTime ≤ now

/-- `++rotate_by_size_counter_`. -/
def countUp (s : RotateLogger) : RotateLogger :=
  { s with rotateBySizeCounter := s.rotateBySizeCounter + 1 }

/-- `Rotate(prev_rotate_time_, ++rotate_by_size_counter_)`. -/
def rotateWindow (cause : RotateCause) (s : RotateLogger) : RotateLogger :=
  rotate cause s.prevRotateTime s.countUp.rotateBySizeCounter s.countUp

def rotateIfDue (lt : LocalTime) (c : WriteCall) (s : RotateLogger) : RotateLogger :=
  if s.rotatesByTime c.now then
    { (s.rotateWindow .byTime).updateRotateTimes lt c.clock with rotateBySizeCounter := -1 }
  else if s.rotatesBySize then
    if s.rotateInterval = .disabled then s.rotate .bySize c.now 0
    else s.rotateWindow .bySize
  else s

def appendLine (line : ℕ) (s : RotateLogger) : RotateLogger :=
  { s with fileSize := s.fileSize + line, tellp := s.fileSize + line }

def writeLine (lt : LocalTime) (c : WriteCall) (s : RotateLogger) : Option (Bool × RotateLogger) :=
  some (true, (s.rotateIfDue lt c).appendLine c.line)

variable {lt : LocalTime} {c : WriteCall} {s s' : RotateLogger}

theorem seconds_pos {interval : RotateInterval} (h : interval ≠ .disabled) :
    0 < interval.seconds := by
  cases interval with
  | disabled => exact absurd rfl h
  | oneSecond | twoSeconds | fiveSeconds | oneHour | oneDay => decide

theorem rotatesByTime_iff :
    s.rotatesByTime c.now = true ↔ s.rotateInterval ≠ .disabled ∧ s.nextRotateTime ≤ c.now := by
  simp [rotatesByTime]

/-- What a call does to everything but the file itself. -/
inductive Step (lt : LocalTime) (c : WriteCall) (s s' : RotateLogger) : Prop where
  | byTime (hdue : s.rotatesByTime c.now = true)
      (hprev : s'.prevRotateTime = s.followingStart lt c.clock)
      (hnext : s'.nextRotateTime = s.followingStart lt c.clock + s.rotateInterval.seconds)
      (hcounter : s'.rotateBySizeCounter = -1)
      (harchives : s'.archives = ⟨.byTime, s.prevRotateTime, s.rotateBySizeCounter + 1⟩ ::
        s.archives)
  | bySize (hdue : s.rotatesByTime c.now = false) (hfull : s.rotatesBySize = true)
      (henabled : s.rotateInterval ≠ .disabled)
      (hprev : s'.prevRotateTime = s.prevRotateTime) (hnext : s'.nextRotateTime = s.nextRotateTime)
      (hcounter : s'.rotateBySizeCounter = s.rotateBySizeCounter + 1)
      (harchives : s'.archives = ⟨.bySize, s.prevRotateTime, s.rotateBySizeCounter + 1⟩ ::
        s.archives)
  | bySizeOnly (hdue : s.rotatesByTime c.now = false) (hfull : s.rotatesBySize = true)
      (hdisabled : s.rotateInterval = .disabled)
      (hprev : s'.prevRotateTime = s.prevRotateTime) (hnext : s'.nextRotateTime = s.nextRotateTime)
      (hcounter : s'.rotateBySizeCounter = s.rotateBySizeCounter)
      (harchives : s'.archives = ⟨.bySize, c.now, 0⟩ :: s.archives)
  | none (hdue : s.rotatesByTime c.now = false) (hroom : s.rotatesBySize = false)
      (hprev : s'.prevRotateTime = s.prevRotateTime) (hnext : s'.nextRotateTime = s.nextRotateTime)
      (hcounter : s'.rotateBySizeCounter = s.rotateBySizeCounter)
        (harchives : s'.archives = s.archives)

theorem writeLine_config {b : Bool} (h : writeLine lt c s = some (b, s')) :
    s'.filePath = s.filePath ∧ s'.rotateInterval = s.rotateInterval := by
  obtain ⟨-, rfl⟩ := Prod.mk.inj (Option.some.inj h)
  unfold rotateIfDue updateRotateTimes
  split
  · split <;> exact ⟨rfl, rfl⟩
  · split
    · split <;> exact ⟨rfl, rfl⟩
    · exact ⟨rfl, rfl⟩

theorem writeLine_step {b : Bool} (h : writeLine lt c s = some (b, s')) : Step lt c s s' := by
  obtain ⟨-, rfl⟩ := Prod.mk.inj (Option.some.inj h)
  unfold rotateIfDue
  cases hdue : s.rotatesByTime c.now with
  | true =>
    have henabled : (s.rotateWindow .byTime).rotateInterval ≠ .disabled :=
      (rotatesByTime_iff.mp hdue).1
    rw [if_pos rfl, updateRotateTimes, if_neg henabled]
    exact .byTime hdue rfl rfl rfl rfl
  | false =>
    rw [if_neg (by decide)]
    cases hfull : s.rotatesBySize with
    | false => exact .none hdue hfull rfl rfl rfl rfl
    | true =>
      rw [if_pos rfl]
      split
      next hdisabled => exact .bySizeOnly hdue hfull hdisabled rfl rfl rfl rfl
      next henabled => exact .bySize hdue hfull henabled rfl rfl rfl rfl

section Window

/-- The time of the line lies in the window of the file it was written to. -/
def InWindow (c : WriteCall) (s : RotateLogger) : Prop :=
  s.prevRotateTime ≤ c.now ∧ c.now < s.nextRotateTime

/-- A call that finds the window over comes less than one interval after its end.  After a
window that starts at time 0 it is the current day whose first interval has to last. -/
def InTime (lt : LocalTime) (c : WriteCall) (s : RotateLogger) : Prop :=
  s.nextRotateTime ≤ c.now →
    if s.prevRotateTime = 0 then
      lt.dayStart c.clock ≤ c.now ∧ c.now < lt.dayStart c.clock + s.rotateInterval.seconds
    else c.now < s.nextRotateTime + s.rotateInterval.seconds

def windowsEnded (s : RotateLogger) : List ℤ :=
  (s.archives.filter fun a => a.cause = .byTime).map Archive.time

theorem followingStart_eq (lt : LocalTime) (clock : ℤ) (s : RotateLogger) :
    s.followingStart lt clock = if s.prevRotateTime = 0 then lt.dayStart clock
      else s.nextRotateTime :=
  rfl

theorem inWindow_iff (henabled : s.rotateInterval ≠ .disabled) (hprev : s.prevRotateTime ≤ c.now)
    {b : Bool} (h : writeLine lt c s = some (b, s')) : InWindow c s' ↔ InTime lt c s := by
  have hrest : s.rotatesByTime c.now = false → s'.prevRotateTime = s.prevRotateTime →
      s'.nextRotateTime = s.nextRotateTime → (InWindow c s' ↔ InTime lt c s) := by
    intro hdue hprev' hnext'
    have hbefore : c.now < s.nextRotateTime := by
      by_contra hlate
      exact absurd (rotatesByTime_iff.mpr ⟨henabled, not_lt.mp hlate⟩) (by simp [hdue])
    rw [InWindow, hprev', hnext']
    exact iff_of_true ⟨hprev, hbefore⟩ fun hlate => absurd hbefore (not_lt.mpr hlate)
  cases writeLine_step h with
  | byTime hdue hprev' hnext' =>
    have hlate := (rotatesByTime_iff.mp hdue).2
    rw [InWindow, InTime, hprev', hnext', followingStart_eq]
    split
    · exact ⟨fun hin _ => hin, fun htime => htime hlate⟩
    · exact ⟨fun hin _ => hin.2, fun htime => ⟨hlate, htime hlate⟩⟩
  | bySize hdue _ _ hprev' hnext' => exact hrest hdue hprev' hnext'
  | bySizeOnly hdue _ _ hprev' hnext' => exact hrest hdue hprev' hnext'
  | none hdue _ hprev' hnext' => exact hrest hdue hprev' hnext'

theorem afterSteps_inWindow_iff {calls : List WriteCall} {t : ℤ}
    (henabled : s.rotateInterval ≠ .disabled) (hprev : s.prevRotateTime ≤ t)
    (hsorted : (t :: calls.map WriteCall.now).Pairwise (· ≤ ·)) :
    AfterSteps (writeLine lt) InWindow calls s ↔ AllSteps (writeLine lt) (InTime lt) calls s := by
  induction calls generalizing s t with
  | nil => exact Iff.rfl
  | cons c calls ih =>
    obtain ⟨hfirst, hrest⟩ := List.pairwise_cons.mp hsorted
    have hnow : s.prevRotateTime ≤ c.now := hprev.trans (hfirst _ List.mem_cons_self)
    have hone : ∀ {b s'}, writeLine lt c s = some (b, s') → (InWindow c s' ↔ InTime lt c s) :=
      fun h => inWindow_iff henabled hnow h
    have hmore : ∀ {b s'}, writeLine lt c s = some (b, s') → InWindow c s' →
        (AfterSteps (writeLine lt) InWindow calls s' ↔
          AllSteps (writeLine lt) (InTime lt) calls s') :=
      fun h hin => ih ((writeLine_config h).2 ▸ henabled) hin.1 hrest
    constructor
    · intro hafter
      refine ⟨(hone rfl).mp (hafter _ _ rfl).1, fun b s' h => ?_⟩
      obtain ⟨hin, hafter'⟩ := hafter b s' h
      exact (hmore h hin).mp hafter'
    · intro hall b s' h
      have hin := (hone h).mpr hall.1
      exact ⟨hin, (hmore h hin).mpr (hall.2 b s' h)⟩

theorem prev_le_of_inWindow (hnext : s.nextRotateTime = s.prevRotateTime + s.rotateInterval.seconds)
    {b : Bool} (h : writeLine lt c s = some (b, s')) (hin : InWindow c s') :
    s.prevRotateTime ≤ c.now := by
  cases writeLine_step h with
  | byTime hdue =>
    obtain ⟨henabled, hlate⟩ := rotatesByTime_iff.mp hdue
    have hpos := seconds_pos henabled
    omega
  | bySize _ _ _ hprev' => exact hprev' ▸ hin.1
  | bySizeOnly _ _ _ hprev' => exact hprev' ▸ hin.1
  | none _ _ hprev' => exact hprev' ▸ hin.1

structure WindowsBehind (s : RotateLogger) : Prop where
  next : s.nextRotateTime = s.prevRotateTime + s.rotateInterval.seconds
  behind : ∀ t ∈ s.windowsEnded, t < s.prevRotateTime
  falling : s.windowsEnded.Pairwise (· > ·)

theorem WindowsBehind.writeLine (hs : WindowsBehind s) (hdisabled : s.rotateInterval ≠ .disabled)
    (htime : InTime lt c s) {b : Bool} (h : writeLine lt c s = some (b, s')) :
    WindowsBehind s' := by
  obtain ⟨hnext, hbehind, hfalling⟩ := hs
  have hinterval := (writeLine_config h).2
  have hsame : s'.prevRotateTime = s.prevRotateTime → s'.nextRotateTime = s.nextRotateTime →
      s'.windowsEnded = s.windowsEnded → WindowsBehind s' := by
    intro hprev' hnext' hended
    refine ⟨?_, ?_, ?_⟩
    · rw [hnext', hprev', hinterval, hnext]
    · rw [hended, hprev']
      exact hbehind
    · rwa [hended]
  cases writeLine_step h with
  | byTime hdue hprev' hnext' _ harchives =>
    have hlate := (rotatesByTime_iff.mp hdue).2
    have hpos := seconds_pos hdisabled
    have hmoves : s.prevRotateTime < s.followingStart lt c.clock := by
      have hstep := htime hlate
      rw [followingStart_eq]
      split at hstep <;> omega
    have hended : s'.windowsEnded = s.prevRotateTime :: s.windowsEnded := by
      rw [windowsEnded, harchives]
      rfl
    refine ⟨?_, ?_, ?_⟩
    · rw [hnext', hprev', hinterval]
    · rw [hended, hprev']
      intro t ht
      obtain rfl | ht := List.mem_cons.mp ht
      · exact hmoves
      · exact (hbehind t ht).trans hmoves
    · rw [hended]
      exact List.pairwise_cons.mpr ⟨hbehind, hfalling⟩
  | bySize _ _ _ hprev' hnext' _ harchives =>
    exact hsame hprev' hnext' (by rw [windowsEnded, harchives]; rfl)
  | bySizeOnly _ _ _ hprev' hnext' _ harchives =>
    exact hsame hprev' hnext' (by rw [windowsEnded, harchives]; rfl)
  | none _ _ hprev' hnext' _ harchives =>
    exact hsame hprev' hnext' (by rw [windowsEnded, harchives]; rfl)

variable {interval : RotateInterval} {path : Bytes} {size : ℤ} {fileSize tellp : ℕ} {t : ℤ}

theorem create_interval :
    (create lt t path interval size fileSize tellp).rotateInterval = interval := by
  unfold create updateRotateTimes
  split <;> rfl

theorem create_archives : (create lt t path interval size fileSize tellp).archives = [] := by
  unfold create updateRotateTimes
  split <;> rfl

theorem create_window (henabled : interval ≠ .disabled) :
    (create lt t path interval size fileSize tellp).prevRotateTime = lt.dayStart t ∧
      (create lt t path interval size fileSize tellp).nextRotateTime =
        lt.dayStart t + interval.seconds := by
  unfold create updateRotateTimes
  rw [if_neg henabled]
  exact ⟨rfl, rfl⟩

theorem WindowsBehind.create (henabled : interval ≠ .disabled) :
    WindowsBehind (create lt t path interval size fileSize tellp) := by
  refine ⟨?_, ?_, ?_⟩
  · rw [(create_window henabled).2, (create_window henabled).1, create_interval]
  all_goals rw [windowsEnded, create_archives]
  · exact fun _ hmem => absurd hmem List.not_mem_nil
  · exact .nil

end Window

end RotateLogger

open RotateLogger

/-- Every line of the run is written to the file of the window that contains its time exactly
if no line is earlier than the day of the creation and every call comes in time; the rotations
by time then end each window at most once. -/
theorem lines_in_window_iff (lt : LocalTime) (t₀ : ℤ) (path : Bytes) (interval : RotateInterval)
    (henabled : interval ≠ .disabled) (size : ℤ) (fileSize tellp : ℕ) (calls : List WriteCall)
    (hsorted : (t₀ :: calls.map WriteCall.now).Pairwise (· ≤ ·)) :
    (AfterSteps (writeLine lt) InWindow calls (create lt t₀ path interval size fileSize tellp) ↔
      (∀ c ∈ calls, lt.dayStart t₀ ≤ c.now) ∧
        AllSteps (writeLine lt) (InTime lt) calls
        (create lt t₀ path interval size fileSize tellp)) ∧
    (AllSteps (writeLine lt) (InTime lt) calls (create lt t₀ path interval size fileSize tellp) →
      ∃ bs s', run (writeLine lt) calls (create lt t₀ path interval size fileSize tellp) =
      some (bs, s') ∧
        s'.windowsEnded.Pairwise (· > ·)) := by
  have henabled' : (create lt t₀ path interval size fileSize tellp).rotateInterval ≠ .disabled := by
    rwa [create_interval]
  have hprev : (create lt t₀ path interval size fileSize tellp).prevRotateTime = lt.dayStart t₀ :=
    (create_window henabled).1
  have hnows := (List.pairwise_cons.mp hsorted).2
  have hiff : (∀ c ∈ calls, lt.dayStart t₀ ≤ c.now) →
      (AfterSteps (writeLine lt) InWindow calls (create lt t₀ path interval size fileSize tellp) ↔
        AllSteps (writeLine lt) (InTime lt) calls
        (create lt t₀ path interval size fileSize tellp)) := by
    intro hday
    refine afterSteps_inWindow_iff henabled' hprev.le
      (List.pairwise_cons.mpr ⟨fun now hnow => ?_, hnows⟩)
    obtain ⟨c, hc, rfl⟩ := List.mem_map.mp hnow
    exact hday c hc
  -- the first line decides for all
  have hday : AfterSteps (writeLine lt) InWindow calls
    (create lt t₀ path interval size fileSize tellp) →
      ∀ c ∈ calls, lt.dayStart t₀ ≤ c.now := by
    intro hafter
    cases calls with
    | nil => exact fun _ hc => absurd hc List.not_mem_nil
    | cons first calls =>
      have hfirst : lt.dayStart t₀ ≤ first.now := by
        rw [← hprev]
        refine prev_le_of_inWindow ?_ rfl (hafter _ _ rfl).1
        rw [(create_window henabled).2, hprev, create_interval]
      refine List.forall_mem_cons.mpr ⟨hfirst, fun c hc => hfirst.trans ?_⟩
      exact (List.pairwise_cons.mp hnows).1 _ (List.mem_map_of_mem hc)
  refine ⟨⟨fun hafter => ⟨hday hafter, (hiff (hday hafter)).mp hafter⟩,
    fun h => (hiff h.1).mpr h.2⟩, fun hall => ?_⟩
  have hstep : ∀ (c : WriteCall) (s : RotateLogger),
    (WindowsBehind s ∧ s.rotateInterval ≠ .disabled) →
      InTime lt c s → ∃ b s', writeLine lt c s = some (b, s') ∧
        (WindowsBehind s' ∧ s'.rotateInterval ≠ .disabled) := by
    intro c s hs htime
    have hline : writeLine lt c s = some (true, (s.rotateIfDue lt c).appendLine c.line) := rfl
    refine ⟨_, _, hline, hs.1.writeLine hs.2 htime hline, ?_⟩
    rw [(writeLine_config hline).2]
    exact hs.2
  obtain ⟨bs, s', hrun, hs', -⟩ :=
    run_of_allSteps hstep ⟨WindowsBehind.create henabled, henabled'⟩ hall
  exact ⟨bs, s', hrun, hs'.falling⟩

theorem lines_in_window_first_hours :
    AfterSteps (writeLine Utc.localTime) InWindow
      [⟨1709251800, 1709251800, 80⟩, ⟨1709256600, 1709256600, 80⟩, ⟨1709260200, 1709260201, 80⟩]
      (create Utc.localTime 1709251260 (ascii "main.log") .oneHour rotateSizeDisabled 0 0) := by
  refine (lines_in_window_iff _ _ _ _ (by decide) _ _ _ _ (by decide)).1.mpr ⟨by decide, ?_⟩
  refine .cons ?_ rfl (.cons ?_ rfl (.cons ?_ rfl trivial))
  all_goals
    unfold InTime
    decide

/-- A logger created at noon goes through the hours since midnight, one with each line. -/
theorem noon_line_not_in_window :
    ¬ AfterSteps (writeLine Utc.localTime) InWindow [⟨1709294400, 1709294400, 80⟩]
      (create Utc.localTime 1709294400 (ascii "main.log") .oneHour rotateSizeDisabled 0 0) := by
  intro h
  have hnext := (h _ _ rfl).1.2
  exact absurd hnext (by decide)

end Nkit
