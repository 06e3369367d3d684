import Nkit.Base.Spans
import Nkit.Logger.RotateLogger

/-! The names of the archives.  Within a window the archives are numbered in the order they
are made; without an interval only the second of the rotation tells them apart. -/

namespace Nkit
open Runs

namespace RotateLogger

variable {lt : LocalTime} {c : WriteCall} {s s' : RotateLogger}

def suffixText (suffix : BitVec 64) : Bytes :=
  if suffix ≠ 0 then ascii "-" ++ stringCast suffix.toNat else []

theorem suffixText_inj {m n : BitVec 64} (h : suffixText m = suffixText n) : m = n := by
  have hempty : ∀ k : BitVec 64, ascii "-" ++ stringCast k.toNat ≠ [] :=
    fun _ hnil => absurd (List.append_eq_nil_iff.mp hnil).1 (by decide)
  unfold suffixText at h
  by_cases hm : m = 0 <;> by_cases hn : n = 0
  · rw [hm, hn]
  · rw [if_neg (not_not_intro hm), if_pos hn] at h
    exact absurd h.symm (hempty n)
  · rw [if_pos hm, if_neg (not_not_intro hn)] at h
    exact absurd h (hempty m)
  · rw [if_pos hm, if_pos hn] at h
    have hnum := stringCast_injective (List.append_cancel_left h)
    exact BitVec.eq_of_toNat_eq (Int.ofNat.inj hnum)

theorem suffixText_no_T (suffix : BitVec 64) : 84 ∉ suffixText suffix := by
  intro hmem
  unfold suffixText at hmem
  split at hmem
  · obtain hmem | hmem := List.mem_append.mp hmem
    · exact absurd hmem (by decide)
    · obtain hdigit | hminus := stringCast_chars hmem
      · exact absurd hdigit (by decide)
      · exact absurd hminus (by decide)
  · exact absurd hmem List.not_mem_nil

/-- Two texts that agree have their last `T` at the same place. -/
theorem split_at_T {p q p' q' : Bytes} (hq : 84 ∉ q) (hq' : 84 ∉ q')
    (h : p ++ 84 :: q = p' ++ 84 :: q') :
    p = p' ∧ q = q' := by
  have hbreak : ∀ {p q : Bytes}, 84 ∉ q → (p ++ 84 :: q).reverse.takeWhile (· ≠ 84) =
      q.reverse := by
    intro p q hq
    rw [List.reverse_append, List.reverse_cons, List.append_assoc]
    refine Spans.takeWhile_append_stop (fun a ha => ?_) (by rintro a ⟨⟩; decide)
    have hne : a ≠ 84 := fun he => hq (he ▸ List.mem_reverse.mp ha)
    simpa using hne
  have hqs : q = q' := by
    have hrev := hbreak (p := p) hq
    rw [h, hbreak hq'] at hrev
    exact List.reverse_injective hrev.symm
  subst hqs
  exact ⟨List.append_cancel_right h, rfl⟩

theorem archiveName_inj (hlt : lt.Distinguishes) {path : Bytes} {t t' : ℤ} {n n' : BitVec 64}
    (h : archiveName lt path t n = archiveName lt path t' n') : t = t' ∧ n = n' := by
  obtain ⟨date, clock, hiso, hlen, hclock⟩ := hlt.shape t
  obtain ⟨date', clock', hiso', hlen', hclock'⟩ := hlt.shape t'
  have hname : ∀ {t n date clock}, lt.isoTime t = some (date ++ 84 :: clock) →
      archiveName lt path t n = (path ++ ascii ".") ++ (date ++ 84 :: (clock ++ suffixText n)) := by
    intro t n date clock hiso
    simp only [archiveName, hiso, suffixText, List.append_assoc, List.cons_append]
  rw [hname hiso, hname hiso'] at h
  have hnoT : ∀ {clock : Bytes} {n}, 84 ∉ clock → 84 ∉ clock ++ suffixText n :=
    fun hclock hmem => (List.mem_append.mp hmem).elim hclock (suffixText_no_T _)
  obtain ⟨hdate, hrest⟩ := split_at_T (hnoT hclock) (hnoT hclock') (List.append_cancel_left h)
  obtain ⟨hclocks, hsuffix⟩ := List.append_inj hrest (hlen.trans hlen'.symm)
  refine ⟨hlt.injective ?_, suffixText_inj hsuffix⟩
  rw [hiso, hiso', hdate, hclocks]

def SameName (a b : Archive) : Prop := a.time = b.time ∧ a.suffix = b.suffix

theorem archiveNames_nodup (hlt : lt.Distinguishes)
    (h : s.archives.Pairwise fun a b => ¬ SameName a b) :
    (s.archiveNames lt).Nodup := by
  refine List.pairwise_map.mpr (h.imp fun hne hname => hne ?_)
  exact archiveName_inj hlt hname

def windowCount (s : RotateLogger) : ℕ := s.archives.countP fun a => a.time = s.prevRotateTime

/-- No name is used again: without an interval, a rotation comes in a later second than the
ones before it; with one, the 64-bit counter has not run through all its values, and a window
that starts at time 0 is followed by a day that starts after it. -/
def NameFree (lt : LocalTime) (c : WriteCall) (s : RotateLogger) : Prop :=
  if s.rotateInterval = .disabled then s.rotatesBySize = true → ∀ a ∈ s.archives, a.time ≠ c.now
  else (s.rotatesByTime c.now = true ∨ s.rotatesBySize = true → s.windowCount < 2 ^ 64) ∧
    (s.rotatesByTime c.now = true → s.prevRotateTime = 0 → 0 < lt.dayStart c.clock)

structure Numbered (s : RotateLogger) : Prop where
  next : s.nextRotateTime = s.prevRotateTime + s.rotateInterval.seconds
  before : ∀ a ∈ s.archives, a.time ≤ s.prevRotateTime
  below : ∀ a ∈ s.archives, a.time = s.prevRotateTime → a.suffix.toNat < s.windowCount
  counter : s.rotateBySizeCounter + 1 = BitVec.ofNat 64 s.windowCount
  distinct : s.archives.Pairwise fun a b => ¬ SameName a b

theorem Numbered.number (hs : Numbered s) (hcount : s.windowCount < 2 ^ 64) :
    (s.rotateBySizeCounter + 1).toNat = s.windowCount := by
  rw [hs.counter, BitVec.toNat_ofNat]
  exact Nat.mod_eq_of_lt hcount

theorem Numbered.distinct_cons (hs : Numbered s) (hcount : s.windowCount < 2 ^ 64)
    (cause : RotateCause) :
    (⟨cause, s.prevRotateTime, s.rotateBySizeCounter + 1⟩ :: s.archives).Pairwise fun a b =>
      ¬ SameName a b := by
  refine List.pairwise_cons.mpr ⟨fun a ha hsame => ?_, hs.distinct⟩
  have hlt := hs.below a ha hsame.1.symm
  rw [← hsame.2, hs.number hcount] at hlt
  exact lt_irrefl _ hlt

theorem Numbered.writeLine (hs : Numbered s) (henabled : s.rotateInterval ≠ .disabled)
    (hfree : NameFree lt c s) {b : Bool} (h : writeLine lt c s = some (b, s')) : Numbered s' := by
  rw [NameFree, if_neg henabled] at hfree
  obtain ⟨hcount, hzero⟩ := hfree
  have hinterval := (writeLine_config h).2
  cases writeLine_step h with
  | byTime hdue hprev' hnext' hcounter' harchives' =>
    have hmoves : s.prevRotateTime < s.followingStart lt c.clock := by
      have hpos := seconds_pos henabled
      have hnext := hs.next
      rw [followingStart_eq]
      split
      next h0 => exact h0 ▸ hzero hdue h0
      next => omega
    -- the new window is later than every archive
    have hall : ∀ a ∈ s'.archives, a.time < s'.prevRotateTime := by
      rw [harchives', hprev']
      intro a ha
      obtain rfl | ha := List.mem_cons.mp ha
      · exact hmoves
      · exact (hs.before a ha).trans_lt hmoves
    have hnone : s'.windowCount = 0 := by
      refine List.countP_eq_zero.mpr fun a ha => ?_
      simpa using (hall a ha).ne
    refine ⟨?_, fun a ha => (hall a ha).le, fun a ha heq => absurd heq (hall a ha).ne, ?_, ?_⟩
    · rw [hnext', hprev', hinterval]
    · rw [hcounter', hnone]
      decide
    · rw [harchives']
      exact hs.distinct_cons (hcount (.inl hdue)) _
  | bySize _ hfull _ hprev' hnext' hcounter' harchives' =>
    have hlt := hcount (.inr hfull)
    have hone : s'.windowCount = s.windowCount + 1 := by
      rw [windowCount, harchives', hprev']
      exact List.countP_cons_of_pos (by simp)
    refine ⟨?_, ?_, ?_, ?_, ?_⟩
    · rw [hnext', hprev', hinterval, hs.next]
    · rw [harchives', hprev']
      intro a ha
      obtain rfl | ha := List.mem_cons.mp ha
      · exact le_rfl
      · exact hs.before a ha
    · rw [harchives', hprev', hone]
      intro a ha heq
      obtain rfl | ha := List.mem_cons.mp ha
      · exact (hs.number hlt).trans_lt (Nat.lt_succ_self _)
      · exact (hs.below a ha heq).trans (Nat.lt_succ_self _)
    · rw [hcounter', hs.counter, hone]
      exact (BitVec.ofNat_add _ _).symm
    · rw [harchives']
      exact hs.distinct_cons hlt _
  | bySizeOnly _ _ hdisabled => exact absurd hdisabled henabled
  | none _ _ hprev' hnext' hcounter' harchives' =>
    have hcount' : s'.windowCount = s.windowCount := by
      rw [windowCount, windowCount, harchives', hprev']
    refine ⟨?_, ?_, ?_, ?_, ?_⟩
    · rw [hnext', hprev', hinterval, hs.next]
    · rw [harchives', hprev']
      exact hs.before
    · rw [harchives', hprev', hcount']
      exact hs.below
    · rw [hcounter', hcount', hs.counter]
    · rw [harchives']
      exact hs.distinct

theorem distinct_writeLine (hs : s.archives.Pairwise fun a b => ¬ SameName a b)
    (hdisabled : s.rotateInterval = .disabled) (hfree : NameFree lt c s) {b : Bool}
    (h : writeLine lt c s = some (b, s')) : s'.archives.Pairwise fun a b => ¬ SameName a b := by
  rw [NameFree, if_pos hdisabled] at hfree
  cases writeLine_step h with
  | byTime hdue => exact absurd hdisabled (rotatesByTime_iff.mp hdue).1
  | bySize _ _ henabled => exact absurd hdisabled henabled
  | bySizeOnly _ hfull _ _ _ _ harchives' =>
    rw [harchives']
    exact List.pairwise_cons.mpr ⟨fun a ha hsame => hfree hfull a ha hsame.1.symm, hs⟩
  | none _ _ _ _ _ harchives' =>
    rwa [harchives']

theorem Numbered.create {interval : RotateInterval} {path : Bytes} {size t : ℤ} {fileSize tellp : ℕ}
    (henabled : interval ≠ .disabled) :
    Numbered (create lt t path interval size fileSize tellp) := by
  have hnone : (RotateLogger.create lt t path interval size fileSize tellp).windowCount = 0 := by
    rw [windowCount, create_archives]
    rfl
  refine ⟨?_, ?_, ?_, ?_, ?_⟩
  · rw [(create_window henabled).2, (create_window henabled).1, create_interval]
  · rw [create_archives]
    exact fun _ ha => absurd ha List.not_mem_nil
  · rw [create_archives]
    exact fun _ ha => absurd ha List.not_mem_nil
  · rw [hnone, RotateLogger.create, updateRotateTimes, if_neg henabled]
    change (-1 : BitVec 64) + 1 = 0
    decide
  · rw [create_archives]
    exact .nil

/-- What holds of the archives between calls. -/
def WellNamed (s : RotateLogger) : Prop :=
  if s.rotateInterval = .disabled then s.archives.Pairwise fun a b => ¬ SameName a b else Numbered s

theorem WellNamed.distinct (hs : WellNamed s) : s.archives.Pairwise fun a b => ¬ SameName a b := by
  unfold WellNamed at hs
  split at hs
  next => exact hs
  next => exact Numbered.distinct hs

theorem WellNamed.create (lt : LocalTime) (t : ℤ) (path : Bytes) (interval : RotateInterval)
    (size : ℤ) (fileSize tellp : ℕ) :
    WellNamed (create lt t path interval size fileSize tellp) := by
  rw [WellNamed, create_interval]
  split
  next =>
    rw [create_archives]
    exact .nil
  next henabled => exact .create henabled

theorem WellNamed.writeLine (hs : WellNamed s) (hfree : NameFree lt c s) {b : Bool}
    (h : writeLine lt c s = some (b, s')) : WellNamed s' := by
  rw [WellNamed, (writeLine_config h).2]
  unfold WellNamed at hs
  split at hs
  next hdisabled =>
    rw [if_pos hdisabled]
    exact distinct_writeLine hs hdisabled hfree h
  next henabled =>
    rw [if_neg henabled]
    exact Numbered.writeLine hs henabled hfree h

end RotateLogger

open RotateLogger

/-- In every run that never meets a name in use the archives have pairwise distinct names. -/
theorem archive_names_distinct (lt : LocalTime) (hlt : lt.Distinguishes) (t₀ : ℤ) (path : Bytes)
    (interval : RotateInterval) (size : ℤ) (fileSize tellp : ℕ) (calls : List WriteCall)
    (hfree : AllSteps (writeLine lt) (NameFree lt) calls
      (create lt t₀ path interval size fileSize tellp)) :
    ∃ bs s', run (writeLine lt) calls (create lt t₀ path interval size fileSize tellp) =
      some (bs, s') ∧
      (s'.archiveNames lt).Nodup := by
  obtain ⟨bs, s', hrun, hs'⟩ :=
    run_of_allSteps (fun _ _ hs hname => ⟨_, _, rfl, hs.writeLine hname rfl⟩)
    (WellNamed.create lt t₀ path interval size fileSize tellp) hfree
  exact ⟨bs, s', hrun, archiveNames_nodup hlt hs'.distinct⟩

theorem archive_names_distinct_hourly :
    ∃ bs s', run (writeLine Utc.localTime)
        [⟨1709251200, 1709251200, 2000⟩, ⟨1709251200, 1709251200, 2000⟩,
          ⟨1709251200, 1709251200, 2000⟩,
          ⟨1709254800, 1709254800, 2000⟩, ⟨1709254800, 1709254800, 2000⟩]
        (create Utc.localTime 1709251200 (ascii "main.log") .oneHour 1024 0 0) = some (bs, s') ∧
      (s'.archiveNames Utc.localTime).Nodup := by
  refine archive_names_distinct _ Utc.localTime_distinguishes _ _ _ _ _ _ _ ?_
  refine .cons ?_ rfl (.cons ?_ rfl (.cons ?_ rfl (.cons ?_ rfl (.cons ?_ rfl trivial))))
  all_goals
    unfold NameFree
    decide

/-- Three lines of one second: the second archive replaces the first. -/
theorem archive_replaced_in_one_second :
    ∃ bs s', run (writeLine Utc.localTime)
        [⟨1709251200, 1709251200, 2000⟩, ⟨1709251200, 1709251200, 2000⟩,
          ⟨1709251200, 1709251200, 2000⟩]
        (create Utc.localTime 1709251200 (ascii "main.log") .disabled 1024 0 0) = some (bs, s') ∧
      s'.archiveNames Utc.localTime =
        [ascii "main.log.2024-03-01T000000", ascii "main.log.2024-03-01T000000"] ∧
      ¬ (s'.archiveNames Utc.localTime).Nodup :=
  ⟨_, _, rfl, by decide, by decide +kernel⟩

end Nkit
