import Nkit.Base.AnsweredLoop
import Mathlib.Algebra.BigOperators.Intervals
import Mathlib.Algebra.Order.BigOperators.Group.Finset
import Mathlib.Tactic.Linarith
import Mathlib.Tactic.Ring

/-! The loop that sends a line to the remote log (`rsyslog_logger.cpp`).  Its `sent` adds up the
answers, errors included, and in every round all of `sent` is taken from `len` again. -/

namespace Nkit
open AnsweredLoop Finset

/-- What a call of `send` returns, and `errno` after it. -/
structure SendAnswer where
  count : ℤ
  errno : ℤ
  deriving DecidableEq, Repr

structure SendLoop where
  sockfd : ℤ
  sent : ℤ
  len : ℤ
  -- the loop has been left by its `break`
  broken : Bool
  deriving DecidableEq, Repr

namespace SendLoop

/-- `CLOSED_SOCKET`. -/
def closedSocket : ℤ := -1

def closeConnection (s : SendLoop) : SendLoop := { s with sockfd := closedSocket }

def start (sockfd : ℤ) (n : ℕ) : SendLoop := ⟨sockfd, 0, n, false⟩

def running (s : SendLoop) : Bool := !s.broken && s.sent < s.len

/-- A round of the loop, in which `send` was asked for `len` bytes from `buf + sent` on. -/
def sendOnce (answer : SendAnswer) (s : SendLoop) : SendLoop :=
  let s := { s with sent := s.sent + answer.count }
  if s.sent = -1 ∧ answer.errno ≠ 0 then
    let s := s.closeConnection
    { s with len := s.len - s.sent }
  else if s.sent = 0 then { s with broken := true }
  else { s with len := s.len - s.sent }

theorem running_iff {s : SendLoop} : s.running = true ↔ s.broken = false ∧ s.sent < s.len := by
  rw [running, Bool.and_eq_true, Bool.not_eq_true', decide_eq_true_iff]

@[simp] theorem sendOnce_sent (answer : SendAnswer) (s : SendLoop) :
    (sendOnce answer s).sent = s.sent + answer.count := by
  unfold sendOnce closeConnection
  dsimp only
  split
  · rfl
  · split <;> rfl

theorem sendOnce_cases (answer : SendAnswer) (s : SendLoop) :
    (s.sent + answer.count = 0 ∧ (sendOnce answer s).broken = true ∧ (sendOnce answer s).len =
      s.len) ∨
    (s.sent + answer.count ≠ 0 ∧ (sendOnce answer s).broken = s.broken ∧
      (sendOnce answer s).len = s.len - (s.sent + answer.count)) := by
  unfold sendOnce closeConnection
  dsimp only
  split
  next herr =>
    -- the sum is -1 here, so it is not 0
    right
    exact ⟨by rw [herr.1]; decide, rfl, rfl⟩
  next =>
    split
    next hzero => exact .inl ⟨hzero, rfl, rfl⟩
    next hzero => exact .inr ⟨hzero, rfl, rfl⟩

/-- The answers to the first `k` calls added up. -/
def total (answers : ℕ → SendAnswer) (k : ℕ) : ℤ := ∑ i ∈ range k, (answers i).count

section
variable (sockfd : ℤ) (n : ℕ) (answers : ℕ → SendAnswer)

/-- State in which call `k` of `send` is made, or at the exit if there are fewer calls. -/
def atCall (k : ℕ) : SendLoop := after running sendOnce answers (start sockfd n) k

/-- Call `k` is made. -/
def calls (k : ℕ) : Bool := (atCall sockfd n answers k).running

/-- Places in the buffer of the bytes that the first `k` calls have sent. -/
def sentBytes : ℕ → List ℤ
  | 0 => []
  | k + 1 => sentBytes k ++ if calls sockfd n answers k then
      (List.range (answers k).count.toNat).map fun i : ℕ => (atCall sockfd n answers k).sent + i
    else []

/-- Every call is answered with -1 or with a count up to the length it asked for. -/
def Answered : Prop := ∀ k, calls sockfd n answers k = true →
  (answers k).count = -1 ∨ 0 ≤ (answers k).count ∧ (answers k).count ≤
    (atCall sockfd n answers k).len

structure SendsLine : Prop where
  exits : ((∃ k, (answers k).count = 0 ∨ (answers k).count = -1) ∨ ∃ k, total answers k = n) →
    ∃ k, calls sockfd n answers k = false
  inside : ∀ k, calls sockfd n answers k = true →
    0 ≤ (atCall sockfd n answers k).sent ∧ 0 ≤ (atCall sockfd n answers k).len ∧
      (atCall sockfd n answers k).sent + (atCall sockfd n answers k).len ≤ n
  whole : ∀ k, calls sockfd n answers k = false →
    (∀ i, calls sockfd n answers i = true → 0 < (answers i).count) →
      sentBytes sockfd n answers k = (List.range n).map Nat.cast

end

/-- The sum that the loop compares with the length of the line: the answers before call `k`, each
with the number of rounds since and one more. -/
def delayed (answers : ℕ → SendAnswer) (k : ℕ) : ℤ :=
  ∑ i ∈ range k, ((k : ℤ) + 1 - i) * (answers i).count

/-- Nothing is to be sent, or `send` takes nothing at first or all at once, or less than half of the
line and then the rest, or one of its answers is 0 or -1 before the loop is left. -/
def EndsWell (n : ℕ) (answers : ℕ → SendAnswer) : Prop :=
  n = 0 ∨ (answers 0).count = 0 ∨ (answers 0).count = n ∨
    0 < (answers 0).count ∧
      (2 * (answers 0).count < n ∧ (answers 1).count = n - (answers 0).count ∨
        ∃ k, (answers k).count ≤ 0 ∧ (∀ i < k, 0 < (answers i).count) ∧ delayed answers k < n)

section
variable {sockfd : ℤ} {n : ℕ} {answers : ℕ → SendAnswer}

@[simp] theorem atCall_zero : atCall sockfd n answers 0 = start sockfd n := rfl

theorem atCall_succ {k : ℕ} (h : calls sockfd n answers k = true) :
    atCall sockfd n answers (k + 1) = sendOnce (answers k) (atCall sockfd n answers k) :=
      after_running h

theorem atCall_of_left {k j : ℕ} (h : calls sockfd n answers k = false) (hle : k ≤ j) :
    atCall sockfd n answers j = atCall sockfd n answers k := after_of_left h hle

theorem calls_of_le {k j : ℕ} (h : calls sockfd n answers j = true) (hle : k ≤ j) :
    calls sockfd n answers k = true := running_of_le h hle

theorem calls_iff {k : ℕ} : calls sockfd n answers k = true ↔
    (atCall sockfd n answers k).broken = false ∧ (atCall sockfd n answers k).sent <
      (atCall sockfd n answers k).len :=
  running_iff

theorem calls_zero : calls sockfd n answers 0 = true ↔ 0 < n := by
  rw [calls_iff, atCall_zero, start]
  simp

@[simp] theorem total_succ (k : ℕ) : total answers (k + 1) = total answers k + (answers k).count :=
  sum_range_succ _ _

@[simp] theorem delayed_succ (k : ℕ) :
    delayed answers (k + 1) = delayed answers k + total answers k + 2 * (answers k).count := by
  have hshift : ∑ i ∈ range k, (((k + 1 : ℕ) : ℤ) + 1 - i) * (answers i).count =
      delayed answers k + total answers k := by
    rw [delayed, total, ← sum_add_distrib]
    apply sum_congr rfl
    intro i _
    push_cast
    ring
  rw [delayed, sum_range_succ, hshift]
  push_cast
  ring

@[simp] theorem total_zero : total answers 0 = 0 := rfl

@[simp] theorem delayed_zero : delayed answers 0 = 0 := rfl

theorem total_nonneg {k : ℕ} (hpos : ∀ i < k, 0 < (answers i).count) : 0 ≤ total answers k :=
  sum_nonneg fun i hi => (hpos i (mem_range.mp hi)).le

theorem atCall_of_pos {k : ℕ} (hpos : ∀ i < k, 0 < (answers i).count)
    (hcalls : ∀ i < k, calls sockfd n answers i = true) :
    (atCall sockfd n answers k).broken = false ∧ (atCall sockfd n answers k).sent =
      total answers k ∧
      (atCall sockfd n answers k).len = n + total answers k - delayed answers k := by
  induction k with
  | zero => simp [start]
  | succ k ih =>
    obtain ⟨hbroken, hsent, hlen⟩ := ih (fun i hi => hpos i (by omega)) fun i hi =>
      hcalls i (by omega)
    have hnonneg := total_nonneg fun i hi => hpos i (Nat.lt_succ_of_lt hi)
    have hk := hpos k k.lt_succ_self
    rw [atCall_succ (hcalls k k.lt_succ_self), sendOnce_sent, hsent]
    rcases sendOnce_cases (answers k) (atCall sockfd n answers k) with ⟨hzero, -, -⟩
      | ⟨-, hbroken', hlen'⟩
    · omega
    · refine ⟨hbroken'.trans hbroken, (total_succ k).symm, ?_⟩
      rw [hlen', hlen, hsent, total_succ, delayed_succ]
      ring

theorem calls_iff_delayed {k : ℕ} (hpos : ∀ i < k, 0 < (answers i).count) :
    calls sockfd n answers k = true ↔ delayed answers k < n := by
  induction k with
  | zero =>
    rw [calls_zero, delayed_zero]
    omega
  | succ k ih =>
    have hk := ih fun i hi => hpos i (Nat.lt_succ_of_lt hi)
    have hall : calls sockfd n answers k = true → ∀ i < k + 1, calls sockfd n answers i = true :=
      fun h i hi => calls_of_le h (Nat.le_of_lt_succ hi)
    constructor
    · intro h
      obtain ⟨-, hsent, hlen⟩ := atCall_of_pos hpos (hall (calls_of_le h k.le_succ))
      have hlt := (calls_iff.mp h).2
      rw [hsent, hlen] at hlt
      linarith
    · intro h
      -- the sums grow, so the call before was made as well
      have hnonneg := total_nonneg fun i hi => hpos i (Nat.lt_succ_of_lt hi)
      have hlast := hpos k k.lt_succ_self
      rw [delayed_succ] at h
      obtain ⟨hbroken, hsent, hlen⟩ := atCall_of_pos hpos (hall (hk.mpr (by linarith)))
      rw [calls_iff, hsent, hlen, delayed_succ]
      exact ⟨hbroken, by linarith⟩

theorem two_total_le {k : ℕ} (hpos : ∀ i < k, 0 < (answers i).count) :
    2 * total answers k ≤ delayed answers k := by
  induction k with
  | zero => exact le_rfl
  | succ k ih =>
    have hnonneg := total_nonneg fun i hi => hpos i (Nat.lt_succ_of_lt hi)
    have hle := ih fun i hi => hpos i (Nat.lt_succ_of_lt hi)
    rw [total_succ, delayed_succ]
    linarith

theorem first_le_total {k : ℕ} (hpos : ∀ i < k + 1, 0 < (answers i).count) :
    (answers 0).count ≤ total answers (k + 1) := by
  induction k with
  | zero => simp
  | succ k ih =>
    have hle := ih fun i hi => hpos i (Nat.lt_succ_of_lt hi)
    have hlast := hpos (k + 1) (k + 1).lt_succ_self
    rw [total_succ]
    linarith

theorem first_add_two_total_le {k : ℕ} (hpos : ∀ i < k + 2, 0 < (answers i).count) :
    (answers 0).count + 2 * total answers (k + 2) ≤ delayed answers (k + 2) := by
  have hfirst := first_le_total fun i hi => hpos i (Nat.lt_succ_of_lt hi)
  have hle := two_total_le fun i hi => hpos i (Nat.lt_succ_of_lt hi)
  rw [total_succ (k + 1), delayed_succ (k + 1)]
  linarith

theorem map_range_append (m c : ℕ) :
    (List.range m).map (Nat.cast : ℕ → ℤ) ++ (List.range c).map (fun i : ℕ => (m : ℤ) + i) =
      (List.range (m + c)).map Nat.cast := by
  rw [List.range_add, List.map_append, List.map_map]
  congr 1

theorem sentBytes_eq {k : ℕ} (hpos : ∀ i < k, 0 < (answers i).count)
    (hcalls : ∀ i < k, calls sockfd n answers i = true) :
    sentBytes sockfd n answers k = (List.range (total answers k).toNat).map Nat.cast := by
  induction k with
  | zero => rfl
  | succ k ih =>
    have hnonneg := total_nonneg fun i hi => hpos i (Nat.lt_succ_of_lt hi)
    have hk := hpos k k.lt_succ_self
    obtain ⟨-, hsent, -⟩ := atCall_of_pos (fun i hi => hpos i (Nat.lt_succ_of_lt hi))
      fun i hi => hcalls i (Nat.lt_succ_of_lt hi)
    rw [sentBytes,
      ih (fun i hi => hpos i (Nat.lt_succ_of_lt hi)) fun i hi => hcalls i (Nat.lt_succ_of_lt hi),
      if_pos (hcalls k k.lt_succ_self), hsent, total_succ, Int.toNat_add hnonneg hk.le,
      ← map_range_append, Int.toNat_of_nonneg hnonneg]

theorem sentBytes_of_left {k j : ℕ} (h : calls sockfd n answers k = false) (hle : k ≤ j) :
    sentBytes sockfd n answers j = sentBytes sockfd n answers k := by
  induction j, hle using Nat.le_induction with
  | base => rfl
  | succ j hle ih =>
    have hj : calls sockfd n answers j = false := by rw [calls, atCall_of_left h hle]; exact h
    rw [sentBytes, ih, hj, if_neg Bool.false_ne_true, List.append_nil]

/-- Once something was sent, `sent` stays positive while the loop runs, and never shows an error.
Neither number leaves the range between minus and plus the length of the line. -/
structure Within (n : ℕ) (k : ℕ) (s : SendLoop) : Prop where
  sent_nonneg : 0 ≤ s.sent
  sent_le : s.sent ≤ n
  neg_le_len : -n ≤ s.len
  sent_add_len : s.sent + s.len ≤ n
  sent_pos : 0 < k → s.running = true → 0 < s.sent

theorem within (hans : Answered sockfd n answers) (hfirst : 0 < (answers 0).count) (k : ℕ) :
    Within n k (atCall sockfd n answers k) := by
  apply invariant (P := Within n)
  · exact ⟨le_rfl, by simp [start], by simp [start], by simp [start],
      fun h => absurd h (lt_irrefl 0)⟩
  · intro k s hrun hs hin
    have ⟨hnonneg, _, hlow, hsum, _⟩ := hin
    have hanswer := hans k (by rw [calls, atCall, hs]; exact hrun)
    rw [atCall, hs] at hanswer
    have hlt := (running_iff.mp hrun).2
    have hsent : 0 ≤ s.sent + (answers k).count := by
      cases k with
      | zero => exact add_nonneg hnonneg hfirst.le
      | succ k =>
        -- -1 only takes one from what is positive
        have := hin.sent_pos k.succ_pos hrun
        omega
    rcases sendOnce_cases (answers k) s with ⟨hzero, hleft, hlen⟩ | ⟨hne, -, hlen⟩
    all_goals
      refine ⟨?_, ?_, ?_, ?_, fun _ h => ?_⟩
      · rwa [sendOnce_sent]
      · rw [sendOnce_sent]
        omega
      · rw [hlen]
        omega
      · rw [sendOnce_sent, hlen]
        omega
    · rw [running, hleft] at h
      cases h
    · rw [sendOnce_sent]
      omega
  · intro k s hrun hin
    refine ⟨hin.sent_nonneg, hin.sent_le, hin.neg_le_len, hin.sent_add_len, fun _ h => ?_⟩
    rw [hrun] at h
    cases h

theorem exists_left (hans : Answered sockfd n answers) (hfirst : 0 < (answers 0).count) :
    ∃ k, calls sockfd n answers k = false ∧ ∀ i < k, calls sockfd n answers i = true := by
  apply exists_exit
  apply exits_of_variant fun s => if s.broken then 0 else s.len.toNat + 1
  intro k hrun
  have hlt := running_iff.mp hrun
  have hin := within hans hfirst k
  have hnext := within hans hfirst (k + 1)
  have hsent := hnext.sent_nonneg
  have hnonneg := hin.sent_nonneg
  rw [atCall_succ hrun, sendOnce_sent] at hsent
  change (if (atCall sockfd n answers (k + 1)).broken then 0
    else (atCall sockfd n answers (k + 1)).len.toNat + 1) <
    if (atCall sockfd n answers k).broken then 0 else (atCall sockfd n answers k).len.toNat + 1
  rw [atCall_succ hrun]
  change (atCall sockfd n answers k).broken = false ∧ (atCall sockfd n answers k).sent <
    (atCall sockfd n answers k).len at hlt
  rw [hlt.1, if_neg Bool.false_ne_true]
  rcases sendOnce_cases (answers k) (atCall sockfd n answers k) with ⟨-, hleft, -⟩
    | ⟨hne, hleft, hlen⟩
  · rw [if_pos hleft]
    omega
  · rw [hleft, hlt.1, if_neg Bool.false_ne_true, hlen]
    omega

theorem total_eq_of_whole {k : ℕ} (hn : 0 < n) (hans : Answered sockfd n answers)
    (hpos : ∀ i < k, 0 < (answers i).count) (hcalls : ∀ i < k, calls sockfd n answers i = true)
    (htotal : total answers k = n) (hfirst : (answers 0).count ≠ n) :
    2 * (answers 0).count < n ∧ (answers 1).count = n - (answers 0).count := by
  match k with
  | 0 =>
    rw [total_zero] at htotal
    omega
  | 1 =>
    rw [total_succ, total_zero, zero_add] at htotal
    exact absurd htotal hfirst
  | 2 =>
    have hlt :=
      (calls_iff_delayed fun i hi => hpos i (Nat.lt_succ_of_lt hi)).mp (hcalls 1 (by decide))
    simp only [total_succ, delayed_succ, total_zero, delayed_zero, zero_add] at htotal hlt
    exact ⟨hlt, by linarith⟩
  | k + 3 =>
    have hlast := hpos (k + 2) (Nat.lt_succ_self _)
    have hhead := hpos 0 (Nat.succ_pos _)
    have hlate := first_add_two_total_le (k := k) fun i hi => hpos i (Nat.lt_succ_of_lt hi)
    obtain ⟨-, -, hlen⟩ := atCall_of_pos (k := k + 2) (fun i hi => hpos i (Nat.lt_succ_of_lt hi))
      fun i hi => hcalls i (Nat.lt_succ_of_lt hi)
    have hlast := hans (k + 2) (hcalls (k + 2) (Nat.lt_succ_self _))
    rw [total_succ] at htotal
    omega

theorem left_of_first_zero (hfirst : (answers 0).count = 0) : calls sockfd n answers 1 = false := by
  cases h : calls sockfd n answers 0 with
  | false =>
    rw [calls, atCall_of_left h (Nat.zero_le 1)]
    exact h
  | true =>
    rw [calls, atCall_succ h, running]
    rcases sendOnce_cases (answers 0) (start sockfd n) with ⟨-, hleft, -⟩ | ⟨hne, -, -⟩
    · rw [atCall_zero, hleft]
      rfl
    · exact absurd hfirst (by simpa [start] using hne)

theorem whole_of_total {m : ℕ} (hpos : ∀ i < m, 0 < (answers i).count)
    (hcalls : ∀ i < m, calls sockfd n answers i = true) (hleft : calls sockfd n answers m = false)
    (htotal : total answers m = n) {k : ℕ} (hk : calls sockfd n answers k = false) :
    sentBytes sockfd n answers k = (List.range n).map Nat.cast := by
  have hle : m ≤ k := by
    by_contra hlt
    rw [hcalls k (not_le.mp hlt)] at hk
    cases hk
  rw [sentBytes_of_left hleft hle, sentBytes_eq hpos hcalls, htotal, Int.toNat_natCast]

theorem left_iff_delayed {k : ℕ} (hpos : ∀ i < k, 0 < (answers i).count) :
    calls sockfd n answers k = false ↔ (n : ℤ) ≤ delayed answers k := by
  rw [← Bool.not_eq_true, calls_iff_delayed hpos, not_lt]

theorem sendsLine_of_pos (hans : Answered sockfd n answers) (hfirst : 0 < (answers 0).count)
    (hwhole : ∀ k, calls sockfd n answers k = false →
      (∀ i, calls sockfd n answers i = true → 0 < (answers i).count) →
      sentBytes sockfd n answers k = (List.range n).map Nat.cast) : SendsLine sockfd n answers := by
  refine ⟨fun _ => (exists_left hans hfirst).imp fun _ => And.left, fun k hk => ?_, hwhole⟩
  have hin := within hans hfirst k
  have hlt := (calls_iff.mp hk).2
  have hnonneg := hin.sent_nonneg
  exact ⟨hnonneg, by omega, hin.sent_add_len⟩

theorem sendsLine_of_first_zero (hn : 0 < n) (hfirst : (answers 0).count = 0) :
    SendsLine sockfd n answers := by
  have hleft : calls sockfd n answers 1 = false := left_of_first_zero hfirst
  refine ⟨fun _ => ⟨1, hleft⟩, fun k hk => ?_, fun k _ hpos => ?_⟩
  · cases k with
    | zero => simp [start]
    | succ k =>
      rw [calls_of_le hk (Nat.le_add_left 1 k)] at hleft
      cases hleft
  · exact absurd (hpos 0 (calls_zero.mpr hn)) (by rw [hfirst]; exact lt_irrefl 0)

theorem sendsLine_of_endsWell (hans : Answered sockfd n answers) (h : EndsWell n answers) :
    SendsLine sockfd n answers := by
  rcases n.eq_zero_or_pos with rfl | hn
  · -- there is no round at all
    have hleft : calls sockfd 0 answers 0 = false := rfl
    refine ⟨fun _ => ⟨0, hleft⟩, fun k hk => ?_, fun k _ _ => ?_⟩
    · rw [calls_of_le hk k.zero_le] at hleft
      cases hleft
    · rw [sentBytes_of_left hleft k.zero_le]
      rfl
  · have hcall : calls sockfd n answers 0 = true := calls_zero.mpr hn
    rcases h.resolve_left hn.ne' with hzero | hall
      | ⟨hfirst, ⟨hhalf, hrest⟩ | ⟨j, hj, hbefore, hreached⟩⟩
    · exact sendsLine_of_first_zero hn hzero
    · have hfirst : 0 < (answers 0).count := by omega
      apply sendsLine_of_pos hans hfirst
      intro k hk _
      have hpos : ∀ i < 1, 0 < (answers i).count := by
        intro i hi
        obtain rfl := Nat.lt_one_iff.mp hi
        exact hfirst
      refine whole_of_total hpos (fun i hi => ?_) ((left_iff_delayed hpos).mpr ?_) ?_ hk
      · rwa [Nat.lt_one_iff.mp hi]
      · simp only [delayed_succ, delayed_zero, total_zero]
        omega
      · simpa using hall
    · apply sendsLine_of_pos hans hfirst
      intro k hk _
      have hpos : ∀ i < 2, 0 < (answers i).count := by
        intro i hi
        match i with
        | 0 => exact hfirst
        | 1 => omega
      -- the second `send` is reached, and it ends the loop
      have hsecond : calls sockfd n answers 1 = true := by
        rw [calls_iff_delayed fun i hi => hpos i (Nat.lt_succ_of_lt hi)]
        simpa using hhalf
      refine whole_of_total hpos (fun i hi => calls_of_le hsecond (Nat.le_of_lt_succ hi))
        ((left_iff_delayed hpos).mpr ?_) ?_ hk
      · simp only [delayed_succ, delayed_zero, total_succ, total_zero]
        omega
      · simp only [total_succ, total_zero]
        omega
    · apply sendsLine_of_pos hans hfirst
      intro k _ hpos
      exact absurd (hpos j ((calls_iff_delayed hbefore).mpr hreached)) (not_lt.mpr hj)

theorem before_line_of_error (hn : 0 < n) (hfirst : (answers 0).count = -1) :
    calls sockfd n answers 1 = true ∧ (atCall sockfd n answers 1).sent = -1 := by
  have hsent : (start sockfd n).sent + (answers 0).count = -1 := by
    rw [hfirst]
    rfl
  rw [calls_iff, atCall_succ (calls_zero.mpr hn), atCall_zero, sendOnce_sent, hsent]
  rcases sendOnce_cases (answers 0) (start sockfd n) with ⟨hzero, -, -⟩ | ⟨-, hbroken, hlen⟩
  · omega
  · have hlonger : (-1 : ℤ) < (n : ℤ) - -1 := by omega
    rw [hbroken, hlen, hsent]
    exact ⟨⟨rfl, hlonger⟩, rfl⟩

/-- A line is sent as it should be in just these cases. -/
theorem sendsLine_iff (sockfd : ℤ) (n : ℕ) (answers : ℕ → SendAnswer)
    (hans : Answered sockfd n answers) :
    SendsLine sockfd n answers ↔ EndsWell n answers := by
  refine ⟨fun h => ?_, sendsLine_of_endsWell hans⟩
  rcases n.eq_zero_or_pos with hn | hn
  · exact .inl hn
  right
  rcases hans 0 (calls_zero.mpr hn) with herr | ⟨hnonneg, -⟩
  · have hnext : calls sockfd n answers 1 = true ∧ (atCall sockfd n answers 1).sent = -1 :=
      before_line_of_error hn herr
    obtain ⟨hcall, hsent⟩ := hnext
    have := (h.inside 1 hcall).1
    omega
  by_cases hzero : (answers 0).count = 0
  · exact .inl hzero
  by_cases hall : (answers 0).count = n
  · exact .inr (.inl hall)
  have hfirst : 0 < (answers 0).count := by omega
  refine .inr (.inr ⟨hfirst, or_iff_not_imp_right.mpr fun hnone => ?_⟩)
  -- so no answer says that nothing was sent, and the line is whole
  have hpos : ∀ i, calls sockfd n answers i = true → 0 < (answers i).count := by
    intro i
    induction i using Nat.strong_induction_on with
    | _ i ih =>
      intro hcall
      have hbefore : ∀ j < i, 0 < (answers j).count := fun j hj => ih j hj (calls_of_le hcall hj.le)
      by_contra hle
      exact hnone ⟨i, not_lt.mp hle, hbefore, (calls_iff_delayed hbefore).mp hcall⟩
  obtain ⟨k, hleft, hcalls⟩ := exists_left hans hfirst
  have hwhole := h.whole k hleft hpos
  have hsums : ∀ i < k, 0 < (answers i).count := fun i hi => hpos i (hcalls i hi)
  rw [sentBytes_eq hsums hcalls] at hwhole
  have hlength := congrArg List.length hwhole
  simp only [List.length_map, List.length_range] at hlength
  have htotal : total answers k = n := by
    have := total_nonneg hsums
    omega
  exact total_eq_of_whole hn hans hsums hcalls htotal hall

end

theorem answered_of_left {sockfd : ℤ} {n m : ℕ} {answers : ℕ → SendAnswer}
    (hleft : calls sockfd n answers m = false)
    (h : ∀ k < m, (answers k).count = -1 ∨ 0 ≤ (answers k).count ∧ (answers k).count ≤
      (atCall sockfd n answers k).len) :
    Answered sockfd n answers := by
  intro k hk
  apply h k
  by_contra hle
  rw [calls_of_le hk (not_lt.mp hle)] at hleft
  cases hleft

def answersOf (first rest : ℤ) (k : ℕ) : SendAnswer := ⟨if k = 0 then first else rest, 0⟩

theorem sendsLine_iff_two_parts : SendsLine 3 41 (answersOf 3 38) :=
  (sendsLine_iff 3 41 (answersOf 3 38) (answered_of_left (m := 2) rfl (by decide))).mpr
    (.inr (.inr (.inr ⟨by decide, .inl ⟨by decide, rfl⟩⟩)))

/-- The loop is left with 21 of 41 bytes sent. -/
theorem half_line_lost : Answered 3 41 (answersOf 20 1) ∧ ¬ SendsLine 3 41 (answersOf 20 1) := by
  refine ⟨answered_of_left (m := 2) rfl (by decide), fun h => ?_⟩
  have hpos : ∀ k, 0 < (answersOf 20 1 k).count := by
    intro k
    unfold answersOf
    split <;> decide
  have hwhole := h.whole 2 rfl fun k _ => hpos k
  exact absurd (congrArg List.length hwhole) (by decide)

end SendLoop
end Nkit
