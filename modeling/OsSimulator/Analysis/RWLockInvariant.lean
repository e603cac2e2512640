import OsSimulator.Model.RWLock
import OsSimulator.Library.Census
import OsSimulator.Library.CondQueue

/-!
# The reader-writer lock is exclusive, prefers writers and is never stuck

`RWCensus` says that the counters and the queues of an `RWLock` count the threads, and `RWLockInv`
adds why nobody is left asleep: a reader sleeps only while a writer is active or waiting, and where
a writer waits for a free lock, a writer has been woken.
-/

set_option autoImplicit false

namespace OsSimulator.Analysis

open Model Library

section RWLock

variable {T : Type*}

/-! ## The specification -/

/-- Inside `Lock`, not granted yet. -/
def WaitsToWrite (pc : RWPc) : Prop := pc = .writeParked ∨ pc = .writeWoken

/-- Inside `RLock`, not granted yet. -/
def WaitsToRead (pc : RWPc) : Prop := pc = .readParked ∨ pc = .readWoken

/-- No reader and no writer is active. -/
def LockFree (s : RWLockSystem T) : Prop := ∀ t, s.pc t ≠ .reading ∧ s.pc t ≠ .writing

/-- What the lock promises in one state. -/
structure RWLockSound (s : RWLockSystem T) : Prop where
  exclusive : s.writerActive = true → s.readersCount = 0
  /-- whether a writer is active is what the flag says, and there is at most one -/
  writer : HasCount (fun t => s.pc t = .writing) (if s.writerActive then 1 else 0)
  readers : ∃ n : ℕ, HasCount (fun t => s.pc t = .reading) n ∧ s.readersCount = n
  writers : ∃ n : ℕ, HasCount (fun t => WaitsToWrite (s.pc t)) n ∧ s.writerWaiters = n
  /-- where the lock is free and somebody waits, somebody has been woken -/
  not_stuck : LockFree s → ∀ t, WaitsToRead (s.pc t) ∨ WaitsToWrite (s.pc t) →
    ∃ u, s.pc u = .readWoken ∨ s.pc u = .writeWoken

/-! ## The counters and the queues -/

structure RWCensus (s : RWLockSystem T) : Prop where
  readers : ∃ n : ℕ, HasCount (fun t => s.pc t = .reading) n ∧ s.readersCount = n
  writers : ∃ n : ℕ, HasCount (fun t => WaitsToWrite (s.pc t)) n ∧ s.writerWaiters = n
  writer : HasCount (fun t => s.pc t = .writing) (if s.writerActive then 1 else 0)
  readQueue : Enqueued s.readOK fun t => s.pc t = .readParked
  writeQueue : Enqueued s.writeOK fun t => s.pc t = .writeParked

structure RWLockInv (s : RWLockSystem T) : Prop extends RWCensus s where
  exclusive : s.writerActive = true → s.readersCount = 0
  readers_wait : s.readOK ≠ [] → s.writerActive = true ∨ s.writerWaiters > 0
  writer_woken : s.writerActive = false → s.readersCount = 0 → s.writerWaiters > 0 →
    ∃ t, s.pc t = .writeWoken

variable {s : RWLockSystem T}

theorem RWCensus.reading_pos (h : RWCensus s) {t : T} (ht : s.pc t = .reading) :
    0 < s.readersCount := by
  obtain ⟨n, hn, heq⟩ := h.readers
  have := hn.pos ht
  omega

theorem RWCensus.waiting_pos (h : RWCensus s) {t : T} (ht : WaitsToWrite (s.pc t)) :
    0 < s.writerWaiters := by
  obtain ⟨n, hn, heq⟩ := h.writers
  have := hn.pos ht
  omega

theorem RWCensus.exists_waiting (h : RWCensus s) (hw : 0 < s.writerWaiters) :
    ∃ t, WaitsToWrite (s.pc t) := by
  obtain ⟨n, hn, heq⟩ := h.writers
  exact hn.exists_of_pos (by omega)

theorem RWCensus.writing_active (h : RWCensus s) {t : T} (ht : s.pc t = .writing) :
    s.writerActive = true := by
  by_contra hactive
  have hpos := h.writer.pos ht
  simp [hactive] at hpos

theorem rwLockInv_init : RWLockInv (newRWLockSystem T) where
  readers := ⟨0, hasCount_zero fun t => by simp [newRWLockSystem], rfl⟩
  writers := ⟨0, hasCount_zero fun t => by simp [newRWLockSystem, WaitsToWrite], rfl⟩
  writer := hasCount_zero fun t => by simp [newRWLockSystem]
  readQueue := enqueued_nil fun t => by simp [newRWLockSystem]
  writeQueue := enqueued_nil fun t => by simp [newRWLockSystem]
  exclusive := fun h => by cases h
  readers_wait := fun h => absurd rfl h
  writer_woken := fun _ _ h => absurd h (lt_irrefl 0)

variable [DecidableEq T] {s s' : RWLockSystem T} {t : T} {x : RWPc}

instance : DecidablePred WaitsToWrite := fun _ => inferInstanceAs (Decidable (_ ∨ _))

theorem not_waitsToWrite (hparked : x ≠ .writeParked) (hwoken : x ≠ .writeWoken) :
    ¬ WaitsToWrite x := by
  rintro (hx | hx)
  · exact hparked hx
  · exact hwoken hx

/-- One thread moves, and the counters follow it. -/
theorem RWCensus.move (h : RWCensus s) (hpc : s'.pc = Function.update s.pc t x)
    (hreaders : s'.readersCount = s.readersCount - (if s.pc t = .reading then 1 else 0) +
      (if x = .reading then 1 else 0))
    (hwriters : s'.writerWaiters = s.writerWaiters - (if WaitsToWrite (s.pc t) then 1 else 0) +
      (if WaitsToWrite x then 1 else 0))
    (hactive : s'.writerActive.toInt = s.writerActive.toInt - (if s.pc t = .writing then 1 else 0) +
      (if x = .writing then 1 else 0))
    (hreadQueue : Enqueued s'.readOK fun u => Function.update s.pc t x u = .readParked)
    (hwriteQueue : Enqueued s'.writeOK fun u => Function.update s.pc t x u = .writeParked) :
    RWCensus s' := by
  obtain ⟨n, hn, hncount⟩ := h.readers
  obtain ⟨m, hm, hmcount⟩ := h.writers
  obtain ⟨n', hn', hn'count⟩ := HasCount.update (R := (· = RWPc.reading)) hn t x
  obtain ⟨m', hm', hm'count⟩ := HasCount.update (R := WaitsToWrite) hm t x
  obtain ⟨k', hk', hk'count⟩ := HasCount.update (R := (· = RWPc.writing)) h.writer t x
  constructor
  · refine ⟨n', hpc ▸ hn', ?_⟩
    rw [hreaders, hncount, hn'count]
  · refine ⟨m', hpc ▸ hm', ?_⟩
    rw [hwriters, hmcount, hm'count]
  · have hk : k' = if s'.writerActive then 1 else 0 := by
      have htoInt : ∀ b : Bool, ((if b then 1 else 0 : ℕ) : ℤ) = b.toInt := by
        intro b
        cases b <;> rfl
      rw [← Int.natCast_inj, hk'count, htoInt, htoInt, hactive]
    rw [hpc, ← hk]
    exact hk'
  · rw [hpc]
    exact hreadQueue
  · rw [hpc]
    exact hwriteQueue

/-! ## Wake-ups -/

/-- `Signal` keeps the books, and leaves nobody waiting to write without a wake-up. -/
theorem RWCensus.signalWriter (h : RWCensus s) (pick : ℕ → ℕ) :
    RWCensus (s.signalWriter pick) ∧
      (s.writerWaiters > 0 → ∃ t, (s.signalWriter pick).pc t = .writeWoken) := by
  obtain ⟨hempty, hsignal⟩ | ⟨pre, u, post, hqueue, hsignal⟩ := signalWaiters_cases pick s.writeOK
  · have heq : s.signalWriter pick = s := by
      unfold RWLockSystem.signalWriter
      simp only [hsignal, wakeThreads_nil]
      rw [← hempty]
    rw [heq]
    refine ⟨h, fun hpos => ?_⟩
    obtain ⟨t, ht | ht⟩ := h.exists_waiting hpos
    · exact absurd ht (h.writeQueue.eq_nil_iff.mp hempty t)
    · exact ⟨t, ht⟩
  · have hu : s.pc u = .writeParked := (h.writeQueue.mem_iff u).mp (by simp [hqueue])
    have hpc : (s.signalWriter pick).pc = Function.update s.pc u .writeWoken := by
      funext v
      simp only [RWLockSystem.signalWriter, hsignal, wakeThreads, List.mem_singleton]
      by_cases hv : v = u
      · rw [hv, if_pos rfl, hu, Function.update_self]
        rfl
      · rw [if_neg hv, Function.update_of_ne hv]
    have hrest : (s.signalWriter pick).writeOK = pre ++ post := by
      simp only [RWLockSystem.signalWriter, hsignal]
    constructor
    · apply h.move hpc
      · simp [hu, RWLockSystem.signalWriter]
      · simp [hu, RWLockSystem.signalWriter, WaitsToWrite]
      · simp [hu, RWLockSystem.signalWriter]
      · exact h.readQueue.update_same (by simp [hu]) (by simp)
      · rw [hrest]
        exact (hqueue ▸ h.writeQueue).update_leave (by simp)
    · intro _
      exact ⟨u, by rw [hpc, Function.update_self]⟩

/-- `Broadcast` keeps the books. -/
theorem RWCensus.broadcastReaders (h : RWCensus s) : RWCensus s.broadcastReaders := by
  have hparked : ∀ u ∈ s.readOK, s.pc u = .readParked := fun u hu => (h.readQueue.mem_iff u).mp hu
  obtain ⟨n, hn, hreaders⟩ := h.readers
  obtain ⟨m, hm, hwriters⟩ := h.writers
  constructor
  · refine ⟨n, hn.congr fun u => ?_, hreaders⟩
    exact wakeThreads_iff (· = RWPc.reading) fun v hv => by simp [hparked v hv, RWPc.wake]
  · refine ⟨m, hm.congr fun u => ?_, hwriters⟩
    exact wakeThreads_iff WaitsToWrite fun v hv => by simp [hparked v hv, RWPc.wake, WaitsToWrite]
  · refine h.writer.congr fun u => ?_
    exact wakeThreads_iff (· = RWPc.writing) fun v hv => by simp [hparked v hv, RWPc.wake]
  · refine enqueued_nil fun u hu => ?_
    by_cases hmem : u ∈ s.readOK
    · have hwoken : s.broadcastReaders.pc u = .readWoken := by
        simp only [RWLockSystem.broadcastReaders]
        rw [wakeThreads_of_mem hmem, hparked u hmem]
        rfl
      simp [hwoken] at hu
    · have hsame : s.broadcastReaders.pc u = s.pc u := wakeThreads_of_notMem hmem
      exact hmem ((h.readQueue.mem_iff u).mpr (hsame ▸ hu))
  · refine h.writeQueue.congr fun u => ?_
    exact wakeThreads_iff (· = RWPc.writeParked) fun v hv => by simp [hparked v hv, RWPc.wake]

/-! ## The critical sections -/

/-- The loop of `RLock`, entered by a thread that holds nothing. -/
theorem RWLockInv.rLock (h : RWLockInv s) (ht : s.pc t = .idle ∨ s.pc t = .readWoken) :
    RWLockInv (s.rLock t) := by
  have hread : s.pc t ≠ .reading := by rcases ht with ht | ht <;> simp [ht]
  have hwrite : s.pc t ≠ .writing := by rcases ht with ht | ht <;> simp [ht]
  have hwait : ¬ WaitsToWrite (s.pc t) := by rcases ht with ht | ht <;> simp [ht, WaitsToWrite]
  have hreadParked : s.pc t ≠ .readParked := by rcases ht with ht | ht <;> simp [ht]
  have hwriteParked : s.pc t ≠ .writeParked := by rcases ht with ht | ht <;> simp [ht]
  unfold RWLockSystem.rLock
  by_cases hblocked : s.writerActive = true ∨ s.writerWaiters > 0
  · rw [if_pos hblocked]
    refine ⟨h.move rfl (by simp [hread]) (by simp [hwait, not_waitsToWrite]) (by simp [hwrite])
      (h.readQueue.update_join hreadParked) (h.writeQueue.update_same hwriteParked (by simp)),
      h.exclusive, fun _ => hblocked, fun hactive hreaders hwriters => ?_⟩
    obtain ⟨u, hu⟩ := h.writer_woken hactive hreaders hwriters
    have hut : u ≠ t := fun hut => hwait (.inr (hut ▸ hu))
    exact ⟨u, (Function.update_of_ne hut _ _).trans hu⟩
  · rw [if_neg hblocked]
    rw [not_or, Bool.not_eq_true] at hblocked
    refine ⟨h.move rfl (by simp [hread]) (by simp [hwait, not_waitsToWrite]) (by simp [hwrite])
      (h.readQueue.update_same hreadParked (by simp))
      (h.writeQueue.update_same hwriteParked (by simp)), fun hactive => ?_, h.readers_wait,
      fun _ _ hwriters => absurd hwriters hblocked.2⟩
    exact absurd (hblocked.1.symm.trans hactive) (by decide)

/-- The loop of `Lock`, entered by a thread that `s` counts as waiting to write. -/
theorem RWLockInv.lockLoop_woken (h : RWLockInv s) (ht : s.pc t = .writeWoken) :
    RWLockInv (s.lockLoop t) := by
  unfold RWLockSystem.lockLoop
  by_cases hblocked : s.writerActive = true ∨ s.readersCount > 0
  · rw [if_pos hblocked]
    refine ⟨h.move rfl (by simp [ht]) (by simp [ht, WaitsToWrite]) (by simp [ht])
      (h.readQueue.update_same (by simp [ht]) (by simp)) (h.writeQueue.update_join (by simp [ht])),
      h.exclusive, h.readers_wait, fun hactive hreaders _ => ?_⟩
    rcases hblocked with hwriter | hreader
    · exact absurd (hactive.symm.trans hwriter) (by decide)
    · exact absurd hreaders hreader.ne'
  · rw [if_neg hblocked]
    rw [not_or, Bool.not_eq_true] at hblocked
    obtain ⟨n, -, hreaders⟩ := h.readers
    refine ⟨h.move rfl (by simp [ht]) (by simp [ht, WaitsToWrite]) (by simp [ht, hblocked.1])
      (h.readQueue.update_same (by simp [ht]) (by simp))
      (h.writeQueue.update_same (by simp [ht]) (by simp)), fun _ => ?_, fun _ => .inl rfl,
      fun hactive => by cases hactive⟩
    simp only
    omega

/-- A thread enters `Lock`. -/
theorem RWLockInv.enter (h : RWLockInv s) (ht : s.pc t = .idle) :
    RWLockInv { s with
      writerWaiters := s.writerWaiters + 1, pc := Function.update s.pc t .writeWoken } := by
  obtain ⟨n, -, hwriters⟩ := h.writers
  refine ⟨h.move rfl (by simp [ht]) (by simp [ht, WaitsToWrite]) (by simp [ht])
    (h.readQueue.update_same (by simp [ht]) (by simp))
    (h.writeQueue.update_same (by simp [ht]) (by simp)), h.exclusive, fun _ => .inr ?_,
    fun _ _ _ => ⟨t, Function.update_self _ _ _⟩⟩
  simp only
  omega

/-- `Lock`, called by a thread that holds nothing: it counts itself and then does what a woken
writer does. -/
theorem RWLockInv.lock (h : RWLockInv s) (ht : s.pc t = .idle) : RWLockInv (s.lock t) := by
  have heq : s.lock t = RWLockSystem.lockLoop t { s with
      writerWaiters := s.writerWaiters + 1, pc := Function.update s.pc t .writeWoken } := by
    simp only [RWLockSystem.lock, RWLockSystem.lockLoop, Function.update_idem]
  rw [heq]
  exact (h.enter ht).lockLoop_woken (Function.update_self _ _ _)

/-- An active reader leaves. -/
theorem RWCensus.release_read (h : RWCensus s) (ht : s.pc t = .reading) :
    RWCensus
      { s with readersCount := s.readersCount - 1, pc := Function.update s.pc t .idle } := by
  apply h.move rfl
  · simp [ht]
  · simp [ht, WaitsToWrite]
  · simp [ht]
  · exact h.readQueue.update_same (by simp [ht]) (by simp)
  · exact h.writeQueue.update_same (by simp [ht]) (by simp)

/-- The active writer leaves. -/
theorem RWCensus.release_write (h : RWCensus s) (ht : s.pc t = .writing) :
    RWCensus { s with writerActive := false, pc := Function.update s.pc t .idle } := by
  apply h.move rfl
  · simp [ht]
  · simp [ht, WaitsToWrite]
  · simp [ht, h.writing_active ht]
  · exact h.readQueue.update_same (by simp [ht]) (by simp)
  · exact h.writeQueue.update_same (by simp [ht]) (by simp)

/-- A woken writer stays woken when another thread goes idle. -/
theorem exists_woken_update {pc : T → RWPc} (ht : pc t ≠ .writeWoken)
    (h : ∃ u, pc u = .writeWoken) : ∃ u, Function.update pc t x u = .writeWoken := by
  obtain ⟨u, hu⟩ := h
  have hut : u ≠ t := fun hut => ht (hut ▸ hu)
  exact ⟨u, (Function.update_of_ne hut _ _).trans hu⟩

/-- `RUnlock` by an active reader. -/
theorem RWLockInv.rUnlock (h : RWLockInv s) (pick : ℕ → ℕ) (ht : s.pc t = .reading) :
    RWLockInv (s.rUnlock pick t) := by
  have hpos := h.reading_pos ht
  have hactive : s.writerActive = false := by
    by_contra hactive
    rw [Bool.not_eq_false] at hactive
    have := h.exclusive hactive
    omega
  by_cases hzero : s.readersCount - 1 = 0
  · have heq : s.rUnlock pick t = { s.signalWriter pick with
        readersCount := s.readersCount - 1
        pc := Function.update (s.signalWriter pick).pc t .idle } := by
      simp only [RWLockSystem.rUnlock, if_pos hzero]
      rfl
    rw [heq]
    obtain ⟨hcensus, hwoken⟩ := h.signalWriter pick
    have hkeep : (s.signalWriter pick).pc t = .reading :=
      (wakeThreads_of_fixed (by rw [ht]; rfl)).trans ht
    refine ⟨hcensus.release_read hkeep, fun hwriter => ?_, h.readers_wait, fun _ _ hwriters => ?_⟩
    · exact absurd (hactive.symm.trans hwriter) (by decide)
    · exact exists_woken_update (by simp [hkeep]) (hwoken hwriters)
  · have heq : s.rUnlock pick t = { s with
        readersCount := s.readersCount - 1, pc := Function.update s.pc t .idle } := by
      simp only [RWLockSystem.rUnlock, if_neg hzero]
    rw [heq]
    refine ⟨h.toRWCensus.release_read ht, fun hwriter => ?_, h.readers_wait,
      fun _ hreaders => absurd hreaders hzero⟩
    exact absurd (hactive.symm.trans hwriter) (by decide)

/-- `Unlock` by the active writer. -/
theorem RWLockInv.unlock (h : RWLockInv s) (pick : ℕ → ℕ) (ht : s.pc t = .writing) :
    RWLockInv (s.unlock pick t) := by
  by_cases hwaiting : s.writerWaiters > 0
  · have heq : s.unlock pick t = { s.signalWriter pick with
        writerActive := false, pc := Function.update (s.signalWriter pick).pc t .idle } := by
      simp only [RWLockSystem.unlock, if_pos hwaiting]
      rfl
    rw [heq]
    obtain ⟨hcensus, hwoken⟩ := h.signalWriter pick
    have hkeep : (s.signalWriter pick).pc t = .writing :=
      (wakeThreads_of_fixed (by rw [ht]; rfl)).trans ht
    refine ⟨hcensus.release_write hkeep, fun hactive => (by cases hactive),
      fun _ => .inr hwaiting, fun _ _ hwriters => ?_⟩
    exact exists_woken_update (by simp [hkeep]) (hwoken hwriters)
  · have heq : s.unlock pick t = { s.broadcastReaders with
        writerActive := false, pc := Function.update s.broadcastReaders.pc t .idle } := by
      simp only [RWLockSystem.unlock, if_neg hwaiting]
      rfl
    rw [heq]
    have hkeep : s.broadcastReaders.pc t = .writing :=
      (wakeThreads_of_fixed (by rw [ht]; rfl)).trans ht
    exact ⟨h.broadcastReaders.release_write hkeep, fun hactive => (by cases hactive),
      fun hqueue => absurd rfl hqueue, fun _ _ hwriters => absurd hwriters hwaiting⟩

/-! ## Whole runs -/

theorem RWLockInv.step (h : RWLockInv s) (t : T) (action : RWAction) (pick : ℕ → ℕ) :
    RWLockInv (s.step t action pick) := by
  unfold RWLockSystem.step
  split
  · rename_i hpc
    exact h.rLock (.inl hpc)
  · rename_i hpc
    exact h.rLock (.inr hpc)
  · rename_i hpc
    exact h.rUnlock pick hpc
  · rename_i hpc
    exact h.lock hpc
  · rename_i hpc
    exact h.lockLoop_woken hpc
  · rename_i hpc
    exact h.unlock pick hpc
  · exact h

theorem rwLockInv_run (schedule : List (T × RWAction × (ℕ → ℕ))) :
    RWLockInv (runRWLock schedule) := by
  unfold runRWLock
  exact List.foldlRecOn schedule _ rwLockInv_init fun s hs m _ => hs.step m.1 m.2.1 m.2.2

omit [DecidableEq T] in
theorem RWLockInv.not_stuck (h : RWLockInv s) (hfree : LockFree s)
    (ht : WaitsToRead (s.pc t) ∨ WaitsToWrite (s.pc t)) :
    ∃ u, s.pc u = .readWoken ∨ s.pc u = .writeWoken := by
  have hactive : s.writerActive = false := by
    by_contra hactive
    have hwriter := h.writer
    rw [if_pos (by simpa using hactive)] at hwriter
    obtain ⟨u, hu⟩ := hwriter.exists_of_pos (Nat.succ_pos 0)
    exact (hfree u).2 hu
  have hreaders : s.readersCount = 0 := by
    obtain ⟨n, hn, heq⟩ := h.readers
    by_contra hne
    obtain ⟨u, hu⟩ := hn.exists_of_pos (by omega)
    exact (hfree u).1 hu
  by_cases hwriters : s.writerWaiters > 0
  · obtain ⟨u, hu⟩ := h.writer_woken hactive hreaders hwriters
    exact ⟨u, .inr hu⟩
  · -- no writer waits, so no reader sleeps
    rcases ht with (ht | ht) | ht
    · have hqueue : s.readOK ≠ [] := fun hnil => h.readQueue.eq_nil_iff.mp hnil t ht
      rcases h.readers_wait hqueue with hwriter | hwriter
      · exact absurd (hactive.symm.trans hwriter) (by decide)
      · exact absurd hwriter hwriters
    · exact ⟨t, .inl ht⟩
    · exact absurd (h.waiting_pos ht) hwriters

/-- A step that lets its thread start reading finds the loop condition of `RLock` false. -/
theorem rLock_of_granted (action : RWAction) (pick : ℕ → ℕ) (hbefore : s.pc t ≠ .reading)
    (hafter : (s.step t action pick).pc t = .reading) :
    ¬ (s.writerActive = true ∨ s.writerWaiters > 0) := by
  intro hblocked
  unfold RWLockSystem.step at hafter
  split at hafter
  · simp [RWLockSystem.rLock, hblocked] at hafter
  · simp [RWLockSystem.rLock, hblocked] at hafter
  · rename_i hpc
    exact hbefore hpc
  · unfold RWLockSystem.lock RWLockSystem.lockLoop at hafter
    split at hafter <;> simp at hafter
  · unfold RWLockSystem.lockLoop at hafter
    split at hafter <;> simp at hafter
  · simp [RWLockSystem.unlock] at hafter
  · exact hbefore hafter

/-- **The reader-writer lock is exclusive, prefers writers and is never stuck.**  After any steps
of any threads, at most one writer is active and then no reader is, the counters count, and a free
lock for which threads wait has a woken one among them; and a thread is granted a read lock only
where no thread is inside `Lock`. -/
theorem rwLock_sound (schedule : List (T × RWAction × (ℕ → ℕ))) :
    RWLockSound (runRWLock schedule) ∧
      ∀ t action pick, (runRWLock schedule).pc t ≠ .reading →
        ((runRWLock schedule).step t action pick).pc t = .reading →
        ∀ u, ¬ WaitsToWrite ((runRWLock schedule).pc u) := by
  have hinv := rwLockInv_run schedule
  refine ⟨⟨hinv.exclusive, hinv.writer, hinv.readers, hinv.writers,
    fun hfree t ht => hinv.not_stuck hfree ht⟩, fun t action pick hbefore hafter u hu => ?_⟩
  have hopen := rLock_of_granted action pick hbefore hafter
  exact hopen (.inr (hinv.waiting_pos hu))

end RWLock

end OsSimulator.Analysis
