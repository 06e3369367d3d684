import Nkit.Logger.ArchiveNames

/-! The files that a rotating log writes to (`rotate_logger.cpp`, `move_file` of `tools.cpp`).
Every line is in one of them, and only an archive of the same name takes it away. -/

namespace Nkit
open Runs

abbrev Files := Bytes → Option Bytes

structure MoveAnswer where
  rename : Bool
  copy : Bool
  remove : Bool
  deriving DecidableEq, Repr

def MoveAnswer.works (answer : MoveAnswer) : Bool := answer.rename || answer.copy && answer.remove

namespace Tools
variable (works : Bool) (answer : MoveAnswer) (source target : Bytes) (files : Files)

def renameFile : Option Files :=
  match files source with
  | none => none
  | some content =>
    if works then some (Function.update (Function.update files source none) target (some content))
      else none

def copyFile : Option Files :=
  match files source with
  | none => none
  | some content => if works then some (Function.update files target (some content)) else none

def deleteFile : Option Files :=
  match files source with
  | none => none
  | some _ => if works then some (Function.update files source none) else none

/-- What is left behind when it fails does not matter: its caller aborts. -/
def moveFile : Option Files :=
  match renameFile answer.rename source target files with
  | some files => some files
  | none => (copyFile answer.copy source target files).bind (deleteFile answer.remove source)

variable {works answer source target files}

theorem moveFile_eq (hne : source ≠ target) {content : Bytes} (h : files source = some content) :
    moveFile answer source target files =
      if answer.works = true
        then some (Function.update (Function.update files source none) target (some content))
      else none := by
  have hcopied : Function.update files target (some content) source = some content := by
    rw [Function.update_of_ne hne, h]
  obtain ⟨rename, copy, remove⟩ := answer
  simp only [moveFile, renameFile, copyFile, h, MoveAnswer.works]
  cases rename with
  | true => rfl
  | false =>
    cases copy with
    | false => rfl
    | true =>
      rw [if_neg Bool.false_ne_true, if_pos rfl, Function.update_comm hne]
      simp only [Option.bind_some, deleteFile, hcopied]
      rfl

end Tools

inductive LogLevel where
  | error
  | warn
  | info
  | debug
  deriving DecidableEq, Repr

def getLogLevelName : LogLevel → Bytes
  | .info => ascii "[Info]"
  | .warn => ascii "[Warning]"
  | .error => ascii "[Error]"
  | .debug => ascii "[Debug]"

/-- What a logger finds out about its process, and the `ctime` of the system. -/
structure LogOrigin where
  ctime : ℤ → Bytes
  processId : Bytes
  host : Bytes
  user : Bytes

/-- The text of `ctime` without the day of the week and the line end. -/
def LogOrigin.getHeader (w : LogOrigin) (level : LogLevel) (now : ℤ) : Bytes :=
  ((w.ctime now).drop 4).dropLast ++ ascii " " ++ w.host ++ ascii " " ++ w.user ++ w.processId ++
    ascii ": " ++
    getLogLevelName level ++ [9, 32]

/-- A call of `WriteLine` with the text that was streamed, and how the calls of the system go
meanwhile. -/
structure LogCall where
  level : LogLevel
  now : ℤ
  clock : ℤ
  text : Bytes
  move : MoveAnswer
  deriving DecidableEq, Repr

def LogOrigin.line (w : LogOrigin) (c : LogCall) : Bytes :=
  w.getHeader c.level c.now ++ c.text ++ [10]

def LogCall.toWriteCall (w : LogOrigin) (c : LogCall) : WriteCall :=
  ⟨c.now, c.clock, (w.line c).length⟩

structure RotatedFiles where
  logger : RotateLogger
  files : Files

namespace RotatedFiles

/-- `std::fstream::app`. -/
def openAppend (path : Bytes) (files : Files) : Files :=
  Function.update files path (some ((files path).getD []))

def create (lt : LocalTime) (clock : ℤ) (filePath : Bytes) (interval : RotateInterval) (size : ℤ)
    (tellp : ℕ) (files : Files) : RotatedFiles where
  logger := .create lt clock filePath interval size ((files filePath).getD []).length tellp
  files := openAppend filePath files

/-- `none` is an abort. -/
def rotate (lt : LocalTime) (move : MoveAnswer) (cause : RotateCause) (now : ℤ) (suffix : BitVec 64)
    (s : RotatedFiles) :
    Option RotatedFiles :=
  (Tools.moveFile move s.logger.filePath (RotateLogger.archiveName lt s.logger.filePath now suffix)
    s.files).map fun files =>
    ⟨s.logger.rotate cause now suffix, openAppend s.logger.filePath files⟩

def rotateWindow (lt : LocalTime) (move : MoveAnswer) (cause : RotateCause) (s : RotatedFiles) :
    Option RotatedFiles :=
  rotate lt move cause s.logger.prevRotateTime s.logger.countUp.rotateBySizeCounter
    { s with logger := s.logger.countUp }

def rotateIfDue (lt : LocalTime) (c : LogCall) (s : RotatedFiles) : Option RotatedFiles :=
  if s.logger.rotatesByTime c.now then
    (s.rotateWindow lt c.move .byTime).map fun s =>
      { s with logger := { s.logger.updateRotateTimes lt c.clock with rotateBySizeCounter := -1 } }
  else if s.logger.rotatesBySize then
    if s.logger.rotateInterval = .disabled then s.rotate lt c.move .bySize c.now 0
    else s.rotateWindow lt c.move .bySize
  else some s

def appendLine (line : Bytes) (s : RotatedFiles) : RotatedFiles where
  logger := s.logger.appendLine line.length
  files :=
    Function.update s.files s.logger.filePath (some ((s.files s.logger.filePath).getD [] ++ line))

def writeLine (lt : LocalTime) (w : LogOrigin) (c : LogCall) (s : RotatedFiles) :
    Option (Bool × RotatedFiles) := do
  let s ← s.rotateIfDue lt c
  some (true, s.appendLine (w.line c))

variable {lt : LocalTime} {w : LogOrigin} {c : LogCall} {s s' : RotatedFiles}

theorem archiveName_ne (lt : LocalTime) (path : Bytes) (now : ℤ) (suffix : BitVec 64) :
    path ≠ RotateLogger.archiveName lt path now suffix := by
  intro heq
  have hlen := congrArg List.length heq
  rw [RotateLogger.archiveName] at hlen
  cases hiso : lt.isoTime now with
  | none => simp [hiso, ascii] at hlen
  | some isoTime => simp [hiso, ascii] at hlen

def moved (path name content : Bytes) (files : Files) : Files :=
  Function.update (Function.update files name (some content)) path (some [])

theorem rotate_eq (cause : RotateCause) (now : ℤ) (suffix : BitVec 64) {move : MoveAnswer}
    (hworks : move.works = true) {content : Bytes} (h : s.files s.logger.filePath = some content) :
    s.rotate lt move cause now suffix = some ⟨s.logger.rotate cause now suffix,
      moved s.logger.filePath (RotateLogger.archiveName lt s.logger.filePath now suffix) content
      s.files⟩ := by
  have hne := archiveName_ne lt s.logger.filePath now suffix
  rw [rotate, moved, Tools.moveFile_eq hne h, if_pos hworks, Option.map_some, openAppend,
    Function.update_of_ne hne, Function.update_self, Function.update_comm hne, Function.update_idem,
    Option.getD_none]

/-- What a call does to the files: it appends to the current one, after it may have moved it to an
archive. -/
inductive FileStep (lt : LocalTime) (line content : Bytes) (s s' : RotatedFiles) : Prop
  | stays (hroom : s.logger.rotatesBySize = false)
      (harchives : s'.logger.archives = s.logger.archives)
      (hsize : s'.logger.fileSize = s.logger.fileSize + line.length)
      (hfiles : s'.files = Function.update s.files s.logger.filePath (some (content ++ line)))
  | moves (a : Archive) (hcause : a.cause = .bySize → s.logger.rotatesBySize = true)
      (harchives : s'.logger.archives = a :: s.logger.archives)
        (hsize : s'.logger.fileSize = line.length)
      (hfiles : s'.files = Function.update (Function.update s.files
        (RotateLogger.archiveName lt s.logger.filePath a.time a.suffix) (some content))
          s.logger.filePath (some line))

theorem updateRotateTimes_size (lt : LocalTime) (clock : ℤ) (s : RotateLogger) :
    (s.updateRotateTimes lt clock).fileSize = s.fileSize ∧
      (s.updateRotateTimes lt clock).rotateSize = s.rotateSize := by
  rw [RotateLogger.updateRotateTimes]
  split_ifs <;> exact ⟨rfl, rfl⟩

theorem rotateIfDue_rotateSize (lt : LocalTime) (c : WriteCall) (s : RotateLogger) :
    (s.rotateIfDue lt c).rotateSize = s.rotateSize := by
  rw [RotateLogger.rotateIfDue]
  split_ifs
  · exact (updateRotateTimes_size lt c.clock _).2
  · rfl
  · rfl
  · rfl

theorem rotateIfDue_path (lt : LocalTime) (c : WriteCall) (s : RotateLogger) :
    (s.rotateIfDue lt c).filePath = s.filePath := by
  have hwrite : RotateLogger.writeLine lt c s =
    some (true, (s.rotateIfDue lt c).appendLine c.line) := rfl
  exact (RotateLogger.writeLine_config hwrite).1

theorem writeLine_rotated {files : Files}
    (h : s.rotateIfDue lt c = some ⟨s.logger.rotateIfDue lt (c.toWriteCall w), files⟩) :
    writeLine lt w c s =
      some (true, ⟨(s.logger.rotateIfDue lt (c.toWriteCall w)).appendLine (w.line c).length,
      Function.update files s.logger.filePath
      (some ((files s.logger.filePath).getD [] ++ w.line c))⟩) := by
  have hpath := rotateIfDue_path lt (c.toWriteCall w) s.logger
  rw [writeLine, h]
  simp only [Option.bind_eq_bind, Option.bind_some, appendLine, hpath]

theorem writeLine_eq (hworks : c.move.works = true) {content : Bytes}
    (h : s.files s.logger.filePath = some content) :
    ∃ s', writeLine lt w c s = some (true, s') ∧
      RotateLogger.writeLine lt (c.toWriteCall w) s.logger = some (true, s'.logger) ∧
      FileStep lt (w.line c) content s s' := by
  have hstep : RotateLogger.writeLine lt (c.toWriteCall w) s.logger =
      some (true, (s.logger.rotateIfDue lt (c.toWriteCall w)).appendLine (w.line c).length) := rfl
  have hmoved : ∀ name, Function.update (moved s.logger.filePath name content s.files)
    s.logger.filePath
      (some (((moved s.logger.filePath name content s.files) s.logger.filePath).getD [] ++
        w.line c)) =
      Function.update (Function.update s.files name (some content)) s.logger.filePath
        (some (w.line c)) := by
    intro name
    rw [moved, Function.update_idem, Function.update_self]
    rfl
  have hmove : ∀ a, s.rotateIfDue lt c =
    some ⟨s.logger.rotateIfDue lt (c.toWriteCall w), moved s.logger.filePath
      (RotateLogger.archiveName lt s.logger.filePath a.time a.suffix) content s.files⟩ →
      (a.cause = .bySize → s.logger.rotatesBySize = true) →
        (s.logger.rotateIfDue lt (c.toWriteCall w)).fileSize = 0 →
      ((s.logger.rotateIfDue lt (c.toWriteCall w)).appendLine (w.line c).length).archives =
        a :: s.logger.archives →
      ∃ s', writeLine lt w c s = some (true, s') ∧
        RotateLogger.writeLine lt (c.toWriteCall w) s.logger = some (true, s'.logger) ∧
        FileStep lt (w.line c) content s s' := by
    intro a hdisk hcause hsize harchives
    refine ⟨_, writeLine_rotated hdisk, hstep, .moves a hcause harchives ?_ (hmoved _)⟩
    show (s.logger.rotateIfDue lt (c.toWriteCall w)).fileSize + (w.line c).length = _
    rw [hsize, Nat.zero_add]
  have hwindow : ∀ cause, s.rotateWindow lt c.move cause =
    some ⟨s.logger.rotateWindow cause, moved s.logger.filePath
      (RotateLogger.archiveName lt s.logger.filePath s.logger.prevRotateTime
        (s.logger.rotateBySizeCounter + 1)) content
      s.files⟩ :=
    fun cause => rotate_eq cause _ _ hworks h
  have hlogger : ∀ {b : Bool}, s.logger.rotatesByTime (c.toWriteCall w).now = b →
    s.logger.rotatesByTime c.now = b := id
  cases RotateLogger.writeLine_step hstep with
  | byTime hdue _ _ _ harchives =>
    refine hmove _ ?_ (fun hcause => by cases hcause) ?_ harchives
    · rw [rotateIfDue, RotateLogger.rotateIfDue, if_pos (hlogger hdue), if_pos hdue, hwindow]
      rfl
    · rw [RotateLogger.rotateIfDue, if_pos hdue]
      exact (updateRotateTimes_size lt _ _).1
  | bySize hdue hfull henabled _ _ _ harchives =>
    refine hmove _ ?_ (fun _ => hfull) ?_ harchives
    · rw [rotateIfDue, RotateLogger.rotateIfDue, hlogger hdue, hdue, hfull,
        if_neg Bool.false_ne_true, if_neg Bool.false_ne_true, if_pos rfl, if_pos rfl,
        if_neg henabled, if_neg henabled, hwindow]
    · rw [RotateLogger.rotateIfDue, hdue, hfull, if_neg Bool.false_ne_true, if_pos rfl,
        if_neg henabled]
      rfl
  | bySizeOnly hdue hfull hdisabled _ _ _ harchives =>
    refine hmove _ ?_ (fun _ => hfull) ?_ harchives
    · rw [rotateIfDue, RotateLogger.rotateIfDue, hlogger hdue, hdue, hfull,
        if_neg Bool.false_ne_true, if_neg Bool.false_ne_true, if_pos rfl, if_pos rfl,
        if_pos hdisabled, if_pos hdisabled, rotate_eq _ _ _ hworks h]
      rfl
    · rw [RotateLogger.rotateIfDue, hdue, hfull, if_neg Bool.false_ne_true, if_pos rfl,
        if_pos hdisabled]
      rfl
  | none hdue hroom _ _ _ harchives =>
    have hsame : s.logger.rotateIfDue lt (c.toWriteCall w) = s.logger := by
      rw [RotateLogger.rotateIfDue, hdue, hroom, if_neg Bool.false_ne_true,
        if_neg Bool.false_ne_true]
    have hdisk : s.rotateIfDue lt c =
        some ⟨s.logger.rotateIfDue lt (c.toWriteCall w), s.files⟩ := by
      rw [rotateIfDue, hlogger hdue, hroom, if_neg Bool.false_ne_true, if_neg Bool.false_ne_true,
        hsame]
    refine ⟨_, writeLine_rotated hdisk, hstep, .stays hroom harchives ?_ ?_⟩
    · rw [hsame]
      rfl
    · rw [h]
      rfl

/-- The disk after some calls: the archives `pieces`, the last one first, and the current file hold
the log.  All other files are as they were before. -/
structure Holds (lt : LocalTime) (before : Files) (path log : Bytes) (s : RotatedFiles)
    (pieces : List (Bytes × Bytes))
    (rest : Bytes) : Prop where
  filePath : s.logger.filePath = path
  names : pieces.map Prod.fst = s.logger.archiveNames lt
  current : s.files path = some rest
  content : (pieces.reverse.map Prod.snd).flatten ++ rest = log
  stored : ∀ name, name ≠ path →
    s.files name = ((pieces.find? fun p => p.1 == name).map Prod.snd).or (before name)

/-- Nothing, or what was below the limit before its last line. -/
def Capped (n : ℕ) (lines : List Bytes) (content : Bytes) : Prop :=
  content = [] ∨ ∃ text, ∃ line ∈ lines, content = text ++ line ∧ text.length < n

/-- No file has grown beyond the limit, and none was full too early. -/
structure Sized (n : ℕ) (lines : List Bytes) (s : RotatedFiles) (pieces : List (Bytes × Bytes))
    (rest : Bytes) : Prop where
  limit : s.logger.rotateSize = n
  position : s.logger.tellp = s.logger.fileSize
  size : s.logger.fileSize = rest.length
  capped : ∀ content ∈ rest :: pieces.map Prod.snd, Capped n lines content
  full : List.Forall₂ (fun a p => a.cause = .bySize → n ≤ p.2.length) s.logger.archives pieces

variable {before : Files} {path log rest : Bytes} {pieces : List (Bytes × Bytes)} {n : ℕ}
  {lines : List Bytes}

theorem Capped.mono {lines' : List Bytes} {content : Bytes} (hsub : lines ⊆ lines')
    (h : Capped n lines content) :
    Capped n lines' content := by
  rcases h with h | ⟨text, line, hline, heq, hlt⟩
  · exact .inl h
  · exact .inr ⟨text, line, hsub hline, heq, hlt⟩

theorem rotatesBySize_iff {s : RotateLogger} (hlimit : s.rotateSize = n) :
    s.rotatesBySize = true ↔ n ≤ s.tellp := by
  have hne : s.rotateSize ≠ RotateLogger.rotateSizeDisabled := by
    rw [hlimit, RotateLogger.rotateSizeDisabled]
    omega
  simp only [RotateLogger.rotatesBySize, hlimit, Bool.and_eq_true, decide_eq_true_eq, Nat.cast_le]
  exact and_iff_right (hlimit ▸ hne)

theorem writeLine_sizes {line : WriteCall} {l l' : RotateLogger}
    (h : RotateLogger.writeLine lt line l = some (true, l')) :
    l'.tellp = l'.fileSize ∧ l'.rotateSize = l.rotateSize := by
  obtain ⟨-, rfl⟩ := Prod.mk.inj (Option.some.inj h)
  exact ⟨rfl, rotateIfDue_rotateSize lt line l⟩

theorem Holds.writeLine (h : Holds lt before path log s pieces rest)
    (hworks : c.move.works = true) :
    ∃ s' pieces' rest', RotatedFiles.writeLine lt w c s = some (true, s') ∧
      RotateLogger.writeLine lt (c.toWriteCall w) s.logger = some (true, s'.logger) ∧
      Holds lt before path (log ++ w.line c) s' pieces' rest' ∧
      ∀ n lines, 0 < n → Sized n lines s pieces rest →
        Sized n (lines ++ [w.line c]) s' pieces' rest' := by
  obtain ⟨rfl, hnames, hcurrent, hcontent, hstored⟩ := h
  obtain ⟨s', hwrite, hlogger, hstep⟩ := writeLine_eq hworks hcurrent
  obtain ⟨hposition, hlimit⟩ := writeLine_sizes hlogger
  have hpath : s'.logger.filePath = s.logger.filePath := (RotateLogger.writeLine_config hlogger).1
  have hsub : ∀ lines : List Bytes, lines ⊆ lines ++ [w.line c] :=
    fun _ => List.subset_append_left _ _
  have hin : ∀ lines : List Bytes, w.line c ∈ lines ++ [w.line c] := fun _ =>
    List.mem_append_right _ (List.mem_singleton_self _)
  cases hstep with
  | stays hroom harchives hsize hfiles =>
    refine ⟨s', pieces, rest ++ w.line c, hwrite, hlogger, ⟨hpath, ?_, ?_, ?_, fun name hne => ?_⟩,
      fun n lines hn hs => ?_⟩
    · rw [hnames, RotateLogger.archiveNames, RotateLogger.archiveNames, harchives, hpath]
    · rw [hfiles, Function.update_self]
    · rw [← List.append_assoc, hcontent]
    · rw [hfiles, Function.update_of_ne hne, hstored name hne]
    · have hlt : rest.length < n := by
        rw [← hs.size, ← hs.position]
        exact lt_of_not_ge fun hfull =>
          Bool.false_ne_true (hroom.symm.trans ((rotatesBySize_iff hs.limit).mpr hfull))
      obtain ⟨-, hcapped⟩ := List.forall_mem_cons.mp hs.capped
      refine ⟨hlimit.trans hs.limit, hposition, by rw [hsize, hs.size, List.length_append],
        List.forall_mem_cons.mpr ⟨.inr ⟨rest, _, hin _, rfl, hlt⟩, fun content hcontent =>
          (hcapped content hcontent).mono (hsub _)⟩,
        harchives ▸ hs.full⟩
  | moves a hcause harchives hsize hfiles =>
    refine ⟨s', (RotateLogger.archiveName lt s.logger.filePath a.time a.suffix, rest) :: pieces,
      w.line c, hwrite, hlogger, ⟨hpath, ?_, ?_, ?_, fun name hne => ?_⟩, fun n lines hn hs => ?_⟩
    · rw [List.map_cons, hnames, RotateLogger.archiveNames, RotateLogger.archiveNames, harchives,
        hpath]
      rfl
    · rw [hfiles, Function.update_self]
    · rw [List.reverse_cons, List.map_append, List.flatten_append, ← hcontent]
      simp
    · rw [hfiles, Function.update_of_ne hne, List.find?_cons]
      by_cases hname : name = RotateLogger.archiveName lt s.logger.filePath a.time a.suffix
      · subst hname
        rw [Function.update_self, beq_self_eq_true]
        rfl
      · rw [Function.update_of_ne hname, hstored name hne, beq_eq_false_iff_ne.mpr (Ne.symm hname)]
    · refine ⟨hlimit.trans hs.limit, hposition, hsize, ?_, ?_⟩
      · refine List.forall_mem_cons.mpr ⟨.inr ⟨[], _, hin _, rfl, hn⟩, fun content hcontent => ?_⟩
        exact (hs.capped content hcontent).mono (hsub _)
      · rw [harchives]
        refine .cons (fun hsizeCause => ?_) hs.full
        have hfull := (rotatesBySize_iff hs.limit).mp (hcause hsizeCause)
        rwa [hs.position, hs.size] at hfull

theorem Holds.run (h : Holds lt before path log s pieces rest) {calls : List LogCall}
    (hworks : ∀ c ∈ calls, c.move.works = true) :
    ∃ bs s' pieces' rest', Runs.run (RotatedFiles.writeLine lt w) calls s = some (bs, s') ∧
      Runs.run (RotateLogger.writeLine lt) (calls.map (·.toWriteCall w)) s.logger =
        some (bs, s'.logger) ∧
      Holds lt before path (log ++ (calls.map w.line).flatten) s' pieces' rest' ∧
      ∀ n lines, 0 < n → Sized n lines s pieces rest →
        Sized n (lines ++ calls.map w.line) s' pieces' rest' := by
  induction calls generalizing s log pieces rest with
  | nil =>
    refine ⟨[], s, pieces, rest, rfl, rfl, ?_, fun n lines _ hs => ?_⟩
    · rw [List.map_nil, List.flatten_nil, List.append_nil]
      exact h
    · rw [List.map_nil, List.append_nil]
      exact hs
  | cons c calls ih =>
    obtain ⟨hc, hcalls⟩ := List.forall_mem_cons.mp hworks
    obtain ⟨s₁, pieces₁, rest₁, hwrite, hlogger, hholds, hsized⟩ := h.writeLine (w := w) hc
    obtain ⟨bs, s', pieces', rest', hrun, hruns, hholds', hsized'⟩ := ih hholds hcalls
    refine ⟨true :: bs, s', pieces', rest', run_cons hwrite hrun, run_cons hlogger hruns, ?_,
      fun n lines hn hs => ?_⟩
    · rw [List.map_cons, List.flatten_cons, ← List.append_assoc]
      exact hholds'
    · rw [List.map_cons, ← List.singleton_append, ← List.append_assoc]
      exact hsized' n _ hn (hsized n lines hn hs)

theorem Holds.create (lt : LocalTime) (clock : ℤ) (path : Bytes) (interval : RotateInterval)
    (size : ℤ) (tellp : ℕ) (before : Files) :
    Holds lt before path ((before path).getD []) (create lt clock path interval size tellp before)
      []
      ((before path).getD []) := by
  have hlogger :
    ∀ fileSize, (RotateLogger.create lt clock path interval size fileSize tellp).filePath = path ∧
      (RotateLogger.create lt clock path interval size fileSize tellp).archives = [] := by
    intro fileSize
    rw [RotateLogger.create, RotateLogger.updateRotateTimes]
    split_ifs <;> exact ⟨rfl, rfl⟩
  refine ⟨(hlogger _).1, ?_, Function.update_self .., rfl,
    fun name hne => Function.update_of_ne hne ..⟩
  rw [RotateLogger.archiveNames, RotatedFiles.create, (hlogger _).2]
  rfl

theorem Holds.archived (h : Holds lt before path log s pieces rest)
    (hnodup : (s.logger.archiveNames lt).Nodup) {p : Bytes × Bytes} (hp : p ∈ pieces) :
    s.files p.1 = some p.2 := by
  have hname : p.1 ∈ s.logger.archiveNames lt := h.names ▸ List.mem_map_of_mem hp
  obtain ⟨a, -, ha⟩ := List.mem_map.mp hname
  have hne : p.1 ≠ path := by
    rw [← ha, h.filePath]
    exact (archiveName_ne lt path a.time a.suffix).symm
  rw [← h.names] at hnodup
  cases hfind : pieces.find? fun q => q.1 == p.1 with
  | none => exact absurd (beq_self_eq_true p.1) (List.find?_eq_none.mp hfind p hp)
  | some q =>
    have hq := List.mem_of_find?_eq_some hfind
    have hsame : q.1 = p.1 := by simpa using List.find?_some hfind
    rw [h.stored p.1 hne, hfind, List.inj_on_of_nodup_map hnodup hq hp hsame]
    rfl

theorem Sized.create {size : ℤ} (hsize : size = n) (hnone : before path = none) (clock : ℤ)
    (interval : RotateInterval) :
    Sized n [] (create lt clock path interval size 0 before) [] [] := by
  have hlogger :
    ∀ fileSize, (RotateLogger.create lt clock path interval size fileSize 0).rotateSize = size ∧
      (RotateLogger.create lt clock path interval size fileSize 0).tellp = 0 ∧
      (RotateLogger.create lt clock path interval size fileSize 0).fileSize = fileSize ∧
      (RotateLogger.create lt clock path interval size fileSize 0).archives = [] := by
    intro fileSize
    rw [RotateLogger.create, RotateLogger.updateRotateTimes]
    split_ifs <;> exact ⟨rfl, rfl, rfl, rfl⟩
  obtain ⟨hlimit, hposition, hfile, harchives⟩ := hlogger ((before path).getD []).length
  have hempty : ((before path).getD []).length = 0 := by
    rw [hnone]
    rfl
  refine ⟨hlimit.trans hsize, hposition.trans (hfile.trans hempty).symm, hfile.trans hempty,
    fun content hcontent => ?_, ?_⟩
  · exact .inl (List.mem_singleton.mp hcontent)
  · rw [RotatedFiles.create, harchives]
    exact .nil

end RotatedFiles

open RotatedFiles

/-- Every line is kept, in order: in the archives of the run and the current file, after what the
log had before.  An archive keeps its lines as long as no later one gets the same name. -/
theorem lines_kept (lt : LocalTime) (w : LogOrigin) (t₀ : ℤ) (path : Bytes)
    (interval : RotateInterval) (size : ℤ) (tellp : ℕ) (before : Files) (calls : List LogCall)
    (hworks : ∀ c ∈ calls, c.move.works = true) :
    ∃ bs s' pieces rest,
      run (RotatedFiles.writeLine lt w) calls (.create lt t₀ path interval size tellp before) =
        some (bs, s') ∧
      Holds lt before path ((before path).getD [] ++ (calls.map w.line).flatten) s' pieces rest ∧
      ((s'.logger.archiveNames lt).Nodup → ∀ p ∈ pieces, s'.files p.1 = some p.2) := by
  obtain ⟨bs, s', pieces, rest, hrun, -, hholds, -⟩ :=
    (Holds.create lt t₀ path interval size tellp before).run (w := w) hworks
  exact ⟨bs, s', pieces, rest, hrun, hholds, fun hnodup _ hp => hholds.archived hnodup hp⟩

def lastWeek : Files := fun name => if name = ascii "main.log.2024-02-23T000000" then some [65, 10]
    else none

def hourlyCalls : List LogCall :=
  [⟨.info, 1709251200, 1709251200, ascii "a", ⟨true, true, true⟩⟩,
    ⟨.warn, 1709251200, 1709251200, ascii "b", ⟨true, true, true⟩⟩,
    ⟨.error, 1709254800, 1709254800, ascii "c", ⟨false, true, true⟩⟩]

def unnamedOrigin : LogOrigin :=
  ⟨fun _ => ascii "Fri Mar  1 00:00:00 2024\n", ascii "1", ascii "h", ascii "u"⟩

theorem lines_kept_hourly :
    ∃ bs s' pieces rest, run (RotatedFiles.writeLine Utc.localTime unnamedOrigin) hourlyCalls
        (.create Utc.localTime 1709251200 (ascii "main.log") .oneHour 16 0 lastWeek) =
          some (bs, s') ∧
      Holds Utc.localTime lastWeek (ascii "main.log") ((lastWeek (ascii "main.log")).getD [] ++
        (hourlyCalls.map unnamedOrigin.line).flatten) s' pieces rest ∧
      ∀ p ∈ pieces, s'.files p.1 = some p.2 := by
  obtain ⟨bs, s', pieces, rest, hrun, hholds, harchived⟩ :=
    lines_kept Utc.localTime unnamedOrigin 1709251200
    (ascii "main.log") .oneHour 16 0 lastWeek hourlyCalls (by decide)
  have hnames : (run (RotatedFiles.writeLine Utc.localTime unnamedOrigin) hourlyCalls
      (.create Utc.localTime 1709251200 (ascii "main.log") .oneHour 16 0 lastWeek)).map
        (fun p => p.2.logger.archiveNames Utc.localTime) =
      some [ascii "main.log.2024-03-01T000000-1", ascii "main.log.2024-03-01T000000"] := by
    decide +kernel
  rw [hrun] at hnames
  have harchives : s'.logger.archiveNames Utc.localTime =
      [ascii "main.log.2024-03-01T000000-1", ascii "main.log.2024-03-01T000000"] :=
        Option.some.inj hnames
  refine ⟨bs, s', pieces, rest, hrun, hholds, harchived ?_⟩
  rw [harchives]
  decide

/-- With a limit on the size every file of a new log, without its last line, is below the limit, and
what was archived for its size has reached it. -/
theorem file_sizes (lt : LocalTime) (w : LogOrigin) (t₀ : ℤ) (path : Bytes)
    (interval : RotateInterval) (n : ℕ) (hn : 0 < n) (before : Files) (hnew : before path = none)
    (calls : List LogCall) (hworks : ∀ c ∈ calls, c.move.works = true) :
    ∃ bs s' pieces rest,
      run (RotatedFiles.writeLine lt w) calls (.create lt t₀ path interval n 0 before) =
        some (bs, s') ∧
      Holds lt before path (calls.map w.line).flatten s' pieces rest ∧
        Sized n (calls.map w.line) s' pieces rest := by
  have hholds := Holds.create lt t₀ path interval n 0 before
  rw [hnew] at hholds
  obtain ⟨bs, s', pieces, rest, hrun, -, hholds, hsized⟩ := hholds.run (w := w) hworks
  exact ⟨bs, s', pieces, rest, hrun, hholds, hsized n [] hn (.create rfl hnew t₀ interval)⟩

theorem file_sizes_hourly :
    ∃ bs s' pieces rest, run (RotatedFiles.writeLine Utc.localTime unnamedOrigin) hourlyCalls
        (.create Utc.localTime 1709251200 (ascii "main.log") .oneHour (16 : ℕ) 0 lastWeek) =
          some (bs, s') ∧
      Holds Utc.localTime lastWeek (ascii "main.log") (hourlyCalls.map unnamedOrigin.line).flatten
        s' pieces rest ∧
      Sized 16 (hourlyCalls.map unnamedOrigin.line) s' pieces rest :=
  file_sizes Utc.localTime unnamedOrigin 1709251200 (ascii "main.log") .oneHour 16 (by decide)
    lastWeek (by decide)
    hourlyCalls (by decide)

end Nkit
