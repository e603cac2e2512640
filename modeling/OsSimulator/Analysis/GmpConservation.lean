import OsSimulator.Interface.GmpRounds

/-!
# No goroutine is lost or duplicated

The invariant `GmpInv` holds of a new runtime, because `newGMPRuntime` adds processors and
threads in pairs, and all calls keep it: `SpawnGoroutine` puts a new goroutine into one queue,
and `Step` is made of rounds that keep it.  It says that every goroutine is at one place, with
the status that fits (`goroutines_kept`); and the goroutines of the runtime are those that the
calls of `SpawnGoroutine` have returned (`spawnedGs_eq`).
-/

set_option autoImplicit false

namespace OsSimulator.Analysis

open Model Interface Library

section Calls

variable {rt : GMPRuntime}

/-! ## A new runtime -/

theorem gmpInv_empty (gomaxprocs : ℤ) (rng : Rand) : GmpInv { gomaxprocs, rng } := by
  refine ⟨⟨?_, ?_, ?_, ?_⟩, ?_, ?_, ?_, ?_, ?_, ?_⟩
  · intro g
    simp only [Set.mem_ofPred_eq, Nat.not_lt_zero, false_iff, not_exists]
    rintro (p | _ | m | _) <;> simp [held]
  · rintro g (p | _ | m | _) <;> simp [held]
  · rintro (p | _ | m | _) <;> simp [held]
  · rintro (p | _ | m | _) g <;> simp [held]
  · intro p hp
    cases hp
  · simp
  · exact fun m => ⟨by simp, by simp⟩
  · simp
  · simp
  · simp

section AddP

theorem addP_ms (rt : GMPRuntime) : (rt.addP rt.numPs).ms =
    Function.update rt.ms rt.numMs { mid := rt.numPs, boundP := some rt.numPs } := rfl

theorem addP_ps (rt : GMPRuntime) : (rt.addP rt.numPs).ps =
    Function.update rt.ps rt.numPs { pid := rt.numPs, boundM := some rt.numMs } := rfl

/-- The new processor and the new thread have no goroutines. -/
theorem GmpInv.addP_empty (hrt : GmpInv rt) :
    (∀ q, ((rt.addP rt.numPs).ps q).localQueue = (rt.ps q).localQueue) ∧
      ∀ n, ((rt.addP rt.numPs).ms n).curG = (rt.ms n).curG := by
  constructor
  · intro q
    by_cases hq : q = rt.numPs
    · simp [addP_ps, hq, hrt.no_processor rt.numPs le_rfl]
    · simp [addP_ps, hq]
  · intro n
    by_cases hn : n = rt.numMs
    · simp [addP_ms, hn, hrt.no_thread rt.numMs le_rfl]
    · simp [addP_ms, hn]

/-- They are bound to each other. -/
theorem GmpInv.addP_bindings (hrt : GmpInv rt) :
    (∀ q < rt.numPs + 1, ProcessorOk (rt.addP rt.numPs) q) ∧
      ∀ n q, ((rt.addP rt.numPs).ms n).boundP = some q → n < rt.numMs + 1 ∧ q < rt.numPs + 1 ∧
        ((rt.addP rt.numPs).ps q).boundM = some n := by
  constructor
  · intro q hq
    by_cases hqp : q = rt.numPs
    · subst hqp
      exact ⟨by simp [addP_ps], by simp [addP_ps], rt.numMs, by simp [addP_ps], by simp [addP_ms]⟩
    · obtain ⟨hpid, hnext, n, hn, hnq⟩ := hrt.processor q (by omega)
      have hne : n ≠ rt.numMs := (hrt.bound n q hnq).1.ne
      exact ⟨by simpa [addP_ps, hqp] using hpid, by simpa [addP_ps, hqp] using hnext, n,
        by simpa [addP_ps, hqp] using hn, by simpa [addP_ms, hne] using hnq⟩
  · intro n q hnq
    by_cases hn : n = rt.numMs
    · rw [addP_ms, hn, Function.update_self] at hnq
      obtain rfl := Option.some.inj hnq
      exact ⟨by omega, by omega, by simp [addP_ps, hn]⟩
    · rw [addP_ms, Function.update_of_ne hn] at hnq
      obtain ⟨hnlt, hqlt, hbound⟩ := hrt.bound n q hnq
      exact ⟨by omega, by omega, by simpa [addP_ps, hqlt.ne] using hbound⟩

theorem GmpInv.addP (hrt : GmpInv rt) : GmpInv (rt.addP rt.numPs) := by
  obtain ⟨hqueue, hcurG⟩ := GmpInv.addP_empty hrt
  obtain ⟨hprocessor, hbound⟩ := GmpInv.addP_bindings hrt
  refine ⟨?_, hprocessor, hbound, ?_, ?_, ?_, ?_⟩
  · rw [held_congr hqueue rfl hcurG rfl]
    refine hrt.custody.mono fun c g hg => suits_mono rfl fun n hc => ?_
    subst hc
    rw [addP_ms, Function.update_of_ne (hrt.lt_numMs (mem_curG.mp hg)).ne]
  · intro n
    by_cases hn : n = rt.numMs
    · rw [addP_ms, hn, Function.update_self]
      exact ⟨by simp, by simp⟩
    · rw [addP_ms, Function.update_of_ne hn]
      exact hrt.thread n
  · simpa only [hqueue] using hrt.queue_le
  · intro q hq
    rw [hqueue]
    exact hrt.no_processor q (Nat.le_of_succ_le hq)
  · intro n hn
    rw [hcurG]
    exact hrt.no_thread n (Nat.le_of_succ_le hn)

end AddP

theorem gmpInv_addPs (hrt : GmpInv rt) (hnone : rt.numPs = 0) (n : ℕ) :
    GmpInv ((List.range n).foldl GMPRuntime.addP rt) ∧
      ((List.range n).foldl GMPRuntime.addP rt).numPs = n ∧
      ((List.range n).foldl GMPRuntime.addP rt).gCount = rt.gCount := by
  induction n with
  | zero => exact ⟨hrt, hnone, rfl⟩
  | succ n ih =>
    obtain ⟨hinv, hnum, hcount⟩ := ih
    rw [List.range_succ, List.foldl_append, List.foldl_cons, List.foldl_nil]
    have hadd := GmpInv.addP hinv
    rw [hnum] at hadd
    exact ⟨hadd, congrArg Nat.succ hnum, hcount⟩

/-- A new runtime has at least one processor and no goroutine. -/
theorem gmpInv_new (gomaxprocs : ℤ) (rng : Rand) :
    GmpInv (newGMPRuntime gomaxprocs rng) ∧ 0 < (newGMPRuntime gomaxprocs rng).numPs ∧
      (newGMPRuntime gomaxprocs rng).gCount = 0 := by
  unfold newGMPRuntime
  obtain ⟨hinv, hnum, hcount⟩ := gmpInv_addPs
    (gmpInv_empty (if gomaxprocs ≤ 0 then 2 else gomaxprocs) rng) rfl
    (if gomaxprocs ≤ 0 then 2 else gomaxprocs).toNat
  refine ⟨hinv, ?_, hcount⟩
  rw [hnum]
  split_ifs <;> omega

/-! ## Calls -/

/-- A new goroutine enters the queue `d`. -/
theorem GmpInv.enters {rt' : GMPRuntime} (hrt : GmpInv rt) {d : GmpPlace}
    (hbindings : SameBindings rt rt') (hms : rt'.ms = rt.ms)
    (hgCount : rt'.gCount = rt.gCount + 1) (hgs : ∀ x, x ≠ rt.gCount → rt'.gs x = rt.gs x)
    (hto : held rt' d = held rt d ++ [rt.gCount]) (hother : ∀ c, c ≠ d → held rt' c = held rt c)
    (hok : Suits rt' d rt.gCount) (hle : ∀ p, (rt'.ps p).localQueue.length ≤ 256)
    (hnoP : ∀ p, rt.numPs ≤ p → (rt'.ps p).localQueue = []) : GmpInv rt' := by
  refine hrt.of_bindings hbindings ?_ (hms ▸ hrt.thread) hle hnoP (hms ▸ hrt.no_thread)
  have hlive : {g | g < rt'.gCount} = insert rt.gCount {g | g < rt.gCount} := by
    ext g
    simp only [Set.mem_ofPred_eq, Set.mem_insert_iff, hgCount]
    omega
  rw [hlive]
  have hold : Custody (held rt) {g | g < rt.gCount} (Suits rt') :=
    hrt.custody.mono fun c g hg => suits_mono (hgs g (hrt.custody.mem_live hg).ne) fun _ _ => by
      rw [hms]
  refine hold.put (d := d) (by simp) ?_ hother hok
  rw [hto]
  exact List.perm_append_singleton _ _

/-- The new goroutine enters the queue of one processor or the global queue. -/
theorem GmpInv.spawnGoroutine (hrt : GmpInv rt) (hn : 0 < rt.numPs) (name : String)
    (workUnits : Int64) (isSyscall : Bool) :
    GmpInv (rt.spawnGoroutine name workUnits isSyscall).2 := by
  have htarget : (rt.gCount + 1) % rt.numPs < rt.numPs := Nat.mod_lt _ hn
  unfold GMPRuntime.spawnGoroutine
  dsimp only
  generalize (rt.gCount + 1) % rt.numPs = target at htarget
  split_ifs with hroom
  · refine GmpInv.enters hrt (d := .localQueue target) ?_ rfl rfl ?_ ?_ ?_ ?_ ?_ ?_
    · exact { (sameThreads_queue rt target fun p => p.localQueue ++ [rt.gCount]).toSameBindings with }
    · exact fun x hx => by simp [GMPRuntime.modifyP, hx]
    · simp [held, GMPRuntime.modifyP]
    · intro c hc
      rw [held_modifyP hc]
      cases c <;> rfl
    · simp [Suits, SyscallAhead, GMPRuntime.modifyP]
    · intro p
      by_cases hp : p = target
      · subst hp
        simp only [GMPRuntime.modifyP, Function.update_self, List.length_append,
          List.length_singleton]
        omega
      · simpa [GMPRuntime.modifyP, hp] using hrt.queue_le p
    · intro p hp
      have hne : p ≠ target := by omega
      simpa [GMPRuntime.modifyP, hne] using hrt.no_processor p hp
  · refine GmpInv.enters hrt (d := .globalRunQueue) { SameBindings.refl rt with } rfl rfl ?_ rfl ?_
      ?_ hrt.queue_le hrt.no_processor
    · exact fun x hx => by simp [hx]
    · rintro (p | _ | m | _) hc <;> first | rfl | exact absurd rfl hc
    · simp [Suits, SyscallAhead]

/-- A step adds no processor and no goroutine. -/
structure SameCounts (rt rt' : GMPRuntime) : Prop where
  numPs_eq : rt'.numPs = rt.numPs
  gCount_eq : rt'.gCount = rt.gCount

theorem SameCounts.trans {rt₁ rt₂ : GMPRuntime} (h : SameCounts rt rt₁) (h' : SameCounts rt₁ rt₂) :
    SameCounts rt rt₂ :=
  ⟨h'.numPs_eq.trans h.numPs_eq, h'.gCount_eq.trans h.gCount_eq⟩

theorem Moved.sameCounts {rt' : GMPRuntime} {g : ℕ} (h : Moved rt rt' g) : SameCounts rt rt' :=
  ⟨h.numPs_eq, h.gCount_eq⟩

theorem Round.sameCounts {rt' : GMPRuntime} {p : ℕ} (h : Round rt p rt') : SameCounts rt rt' := by
  cases h with
  | idle hstill _ _ => exact ⟨hstill.numPs_eq, hstill.gCount_eq⟩
  | handedOff m g hmoved _ => exact Moved.sameCounts hmoved
  | progress hprogress =>
    induction hprogress with
    | single h =>
      obtain ⟨g, hmoved, -⟩ := h
      exact Moved.sameCounts hmoved
    | tail _ h ih =>
      obtain ⟨g, hmoved, -⟩ := h
      exact ih.trans (Moved.sameCounts hmoved)

/-- The loop over the processors. -/
theorem gmpInv_stepPs (tick : ℤ) {procs : List ℕ} (hrt : GmpInv rt)
    (hprocs : ∀ p ∈ procs, p < rt.numPs) :
    GmpInv (procs.foldl (GMPRuntime.stepP tick) rt) ∧
      SameCounts rt (procs.foldl (GMPRuntime.stepP tick) rt) := by
  induction procs generalizing rt with
  | nil => exact ⟨hrt, rfl, rfl⟩
  | cons p procs ih =>
    obtain ⟨hinv, hround, -⟩ := stepP_spec hrt (hprocs p List.mem_cons_self) tick
    have hcounts := Round.sameCounts hround
    obtain ⟨hinv', hcounts'⟩ := ih hinv fun q hq => by
      rw [hcounts.numPs_eq]
      exact hprocs q (List.mem_cons_of_mem p hq)
    exact ⟨hinv', hcounts.trans hcounts'⟩

/-- The loop over the threads. -/
theorem gmpInv_wakes {threads : List ℕ} (hrt : GmpInv rt) :
    GmpInv (threads.foldl GMPRuntime.wake rt) ∧
      SameCounts rt (threads.foldl GMPRuntime.wake rt) := by
  induction threads generalizing rt with
  | nil => exact ⟨hrt, rfl, rfl⟩
  | cons m threads ih =>
    rw [List.foldl_cons]
    by_cases hblocked : (rt.ms m).isBlocked = true
    · obtain ⟨g, hinv, hmoved, -⟩ := wake_spec hrt hblocked
      obtain ⟨hinv', hcounts⟩ := ih hinv
      exact ⟨hinv', (Moved.sameCounts hmoved).trans hcounts⟩
    · rw [wake_idle (by simpa using hblocked)]
      exact ih hrt

/-- **One step keeps the invariant.** -/
theorem GmpInv.step (hrt : GmpInv rt) (tick : ℤ) :
    GmpInv (rt.step tick) ∧ SameCounts rt (rt.step tick) := by
  obtain ⟨hinv, hcounts⟩ := gmpInv_stepPs tick hrt fun p hp => List.mem_range.mp hp
  obtain ⟨hinv', hcounts'⟩ := gmpInv_wakes hinv
  exact ⟨hinv', hcounts.trans hcounts'⟩

/-- What `SpawnGoroutine` returns and does, but for the queues. -/
structure Spawned (rt : GMPRuntime) (name : String) (workUnits : Int64) (isSyscall : Bool)
    (r : ℕ × GMPRuntime) : Prop where
  pointer_eq : r.1 = rt.gCount
  gCount_eq : r.2.gCount = rt.gCount + 1
  gs_eq : r.2.gs = Function.update rt.gs rt.gCount
    { gid := rt.gCount + 1, name, status := .runnable, stackSize := 2048
      remainingWork := workUnits, assignedM := -1, assignedP := -1, isSyscall }
  numPs_eq : r.2.numPs = rt.numPs
  numMs_eq : r.2.numMs = rt.numMs
  ms_eq : r.2.ms = rt.ms

theorem spawnGoroutine_spawned (rt : GMPRuntime) (name : String) (workUnits : Int64)
    (isSyscall : Bool) :
    Spawned rt name workUnits isSyscall (rt.spawnGoroutine name workUnits isSyscall) := by
  unfold GMPRuntime.spawnGoroutine
  dsimp only
  split_ifs <;> exact ⟨rfl, rfl, rfl, rfl, rfl, rfl⟩

/-- A runtime that calls can be made on. -/
def GmpReady (rt : GMPRuntime) : Prop := GmpInv rt ∧ 0 < rt.numPs

/-- Every call keeps the invariant. -/
theorem GmpReady.call (hrt : GmpReady rt) (c : GmpCall) : GmpReady (rt.call c) := by
  obtain ⟨hinv, hn⟩ := hrt
  cases c with
  | spawnGoroutine name workUnits isSyscall =>
    refine ⟨GmpInv.spawnGoroutine hinv hn name workUnits isSyscall, ?_⟩
    exact (spawnGoroutine_spawned rt name workUnits isSyscall).numPs_eq.symm ▸ hn
  | step tick =>
    obtain ⟨hinv', hcounts⟩ := GmpInv.step hinv tick
    exact ⟨hinv', hcounts.numPs_eq.symm ▸ hn⟩

theorem GmpReady.run (hrt : GmpReady rt) (calls : List GmpCall) : GmpReady (rt.run calls) := by
  induction calls generalizing rt with
  | nil => exact hrt
  | cons c calls ih => exact ih (hrt.call c)

/-- The pointers that the calls of `SpawnGoroutine` return. -/
def spawnedGs (rt : GMPRuntime) : List GmpCall → List ℕ
  | [] => []
  | .spawnGoroutine name workUnits isSyscall :: calls =>
    let r := rt.spawnGoroutine name workUnits isSyscall
    r.1 :: spawnedGs r.2 calls
  | .step tick :: calls => spawnedGs (rt.step tick) calls

/-- How many of the calls are calls of `SpawnGoroutine`. -/
def numSpawns (calls : List GmpCall) : ℕ :=
  calls.countP fun
    | .spawnGoroutine .. => true
    | .step _ => false

/-- Every call of `SpawnGoroutine` adds one goroutine, and returns it; `Step` adds none. -/
theorem spawnedGs_eq (hrt : GmpReady rt) (calls : List GmpCall) :
    (rt.run calls).gCount = rt.gCount + numSpawns calls ∧
      spawnedGs rt calls = List.range' rt.gCount (numSpawns calls) := by
  induction calls generalizing rt with
  | nil => exact ⟨rfl, rfl⟩
  | cons c calls ih =>
    obtain ⟨hcount, hpointers⟩ := ih (hrt.call c)
    cases c with
    | spawnGoroutine name workUnits isSyscall =>
      have hspawn := spawnGoroutine_spawned rt name workUnits isSyscall
      have hnum : numSpawns (.spawnGoroutine name workUnits isSyscall :: calls) =
          numSpawns calls + 1 := List.countP_cons_of_pos rfl
      have hcall : (rt.call (.spawnGoroutine name workUnits isSyscall)).gCount =
          rt.gCount + 1 := hspawn.gCount_eq
      rw [hcall] at hcount hpointers
      rw [hnum, List.range'_succ]
      refine ⟨hcount.trans (by omega), ?_⟩
      exact congrArg₂ List.cons hspawn.pointer_eq hpointers
    | step tick =>
      have hcall : (rt.call (.step tick)).gCount = rt.gCount :=
        (GmpInv.step hrt.1 tick).2.gCount_eq
      rw [hcall] at hcount hpointers
      exact ⟨hcount, hpointers⟩

end Calls

/-! ## Conservation -/

/-- Each spawned goroutine is at one place, with the status that fits; processors and threads are
bound in pairs; and the local queues are bounded. -/
structure GoroutinesKept (spawned : List ℕ) (rt : GMPRuntime) : Prop where
  one_place : ∀ g ∈ spawned, ∃ c, (held rt c).count g = 1 ∧ ∀ d, d ≠ c → g ∉ held rt d
  only_spawned : ∀ c, ∀ g ∈ held rt c, g ∈ spawned
  in_localQueue : ∀ p, ∀ g ∈ (rt.ps p).localQueue, p < rt.numPs ∧ (rt.gs g).status = .runnable
  in_globalRunQueue : ∀ g ∈ rt.globalRunQueue, (rt.gs g).status = .runnable
  at_thread : ∀ m g, (rt.ms m).curG = some g → m < rt.numMs ∧
    ((rt.gs g).status = .running ∧ (∃ p < rt.numPs, (rt.ms m).boundP = some p) ∨
      (rt.gs g).status = .syscall ∧ (rt.ms m).isBlocked = true ∧ (rt.ms m).boundP = none)
  in_completedGs : ∀ g ∈ rt.completedGs, (rt.gs g).status = .dead
  bound_in_pairs : ∀ p < rt.numPs, ∃ m < rt.numMs, (rt.ps p).boundM = some m ∧
    ∀ n < rt.numMs, (rt.ms n).boundP = some p ↔ n = m
  localQueue_le : ∀ p < rt.numPs, (rt.ps p).localQueue.length ≤ 256

theorem GmpInv.goroutinesKept {rt : GMPRuntime} (hrt : GmpInv rt) :
    GoroutinesKept (List.range rt.gCount) rt := by
  have hknown := hrt.custody.known
  constructor
  · intro g hg
    obtain ⟨c, hc⟩ := (hrt.custody.mem_iff g).mp (List.mem_range.mp hg)
    exact ⟨c, List.count_eq_one_of_mem (hrt.custody.nodup c) hc,
      fun d hd hmem => hd (hrt.custody.unique g d c hmem hc)⟩
  · exact fun c g hg => List.mem_range.mpr (hrt.custody.mem_live hg)
  · intro p g hg
    refine ⟨?_, (hknown (.localQueue p) g hg).1⟩
    by_contra hp
    rw [hrt.no_processor p (by omega)] at hg
    cases hg
  · exact fun g hg => (hknown .globalRunQueue g hg).1
  · intro m g hg
    refine ⟨hrt.lt_numMs hg, ?_⟩
    cases hbound : (rt.ms m).boundP with
    | none =>
      have hblocked := ((hrt.thread m).blocked_iff (by simp [hg])).mpr hbound
      exact .inr ⟨(hrt.blocked hblocked hg).1, hblocked, rfl⟩
    | some p => exact .inl ⟨(hrt.running hbound hg).1, p, (hrt.bound m p hbound).2.1, rfl⟩
  · exact fun g hg => hknown .completedGs g hg
  · intro p hp
    obtain ⟨-, -, m, hm, hmp⟩ := hrt.processor p hp
    refine ⟨m, (hrt.bound m p hmp).1, hm, fun n hn => ⟨fun hnp => ?_, fun h => h ▸ hmp⟩⟩
    exact Option.some.inj ((hrt.bound n p hnp).2.2.symm.trans hm)
  · exact fun p _ => hrt.queue_le p

/-- **No goroutine is lost or duplicated**, for every number of processors, every interleaving
of calls and every random choice of victims.  The calls of `SpawnGoroutine` return different
goroutines, as many as there are calls; each of these is at one place, and no other is anywhere. -/
theorem goroutines_kept (gomaxprocs : ℤ) (rng : Rand) (calls : List GmpCall) :
    let start := newGMPRuntime gomaxprocs rng
    spawnedGs start calls = List.range (numSpawns calls) ∧
      (start.run calls).gCount = numSpawns calls ∧
      GoroutinesKept (spawnedGs start calls) (start.run calls) := by
  intro start
  obtain ⟨hinv, hn, hempty⟩ := gmpInv_new gomaxprocs rng
  have hready : GmpReady start := ⟨hinv, hn⟩
  obtain ⟨hcount, hpointers⟩ := spawnedGs_eq hready calls
  rw [hempty, ← List.range_eq_range'] at hpointers
  rw [hempty, Nat.zero_add] at hcount
  refine ⟨hpointers, hcount, ?_⟩
  rw [hpointers, ← hcount]
  exact GmpInv.goroutinesKept (hready.run calls).1

end OsSimulator.Analysis
