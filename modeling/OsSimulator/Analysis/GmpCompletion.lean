import OsSimulator.Analysis.GmpConservation
import Mathlib.Algebra.BigOperators.Group.Finset.Basic
import Mathlib.Algebra.GroupWithZero.Nat
import Mathlib.Algebra.Order.BigOperators.Group.Finset
import Mathlib.Algebra.Ring.Int.Defs

/-!
# All goroutines finish

`fuel` bounds the number of transitions that a goroutine still has to make, where the hand-off
of a processor is not counted.  All other transitions use up fuel.  A step makes one of them
unless all goroutines are completed:

* a goroutine on a processor works, or hands off, in which case its thread is blocked when the
  loop over the threads comes to it;
* a blocked goroutine counts a tick of its system call;
* otherwise all goroutines are queued, and the search for work of the first processor finds
  one, in its own queue, in the global queue or in the queue of a victim.

So the fuel of all goroutines bounds the number of steps (`goroutines_complete`).
-/

set_option autoImplicit false

namespace OsSimulator.Analysis

open Model Interface Library

/-! ## Fuel -/

/-- The ticks until `RemainingWork` is not positive after a decrement.  The smallest `int` wraps
around to the largest. -/
def ticksNeeded (w : Int64) : ℕ :=
  if w.toInt = -2 ^ 63 then 2 ^ 63 else (max w.toInt 1).toNat

theorem ticksNeeded_pos (w : Int64) : 1 ≤ ticksNeeded w := by
  unfold ticksNeeded
  split
  · exact Nat.one_le_two_pow
  · omega

theorem ticksNeeded_sub_one {w : Int64} (hmore : ¬ w - 1 ≤ 0) :
    ticksNeeded (w - 1) < ticksNeeded w := by
  have hlt := w.toInt_lt
  have hge := w.le_toInt
  rw [Int64.le_iff_toInt_le, Int64.toInt_zero] at hmore
  unfold ticksNeeded
  by_cases hmin : w.toInt = -2 ^ 63
  · have hwrap : (w - 1).toInt = 2 ^ 63 - 1 := by
      rw [Int64.toInt_sub, Int64.toInt_one, hmin]
      decide
    rw [if_pos hmin, hwrap]
    decide
  · have hsub : (w - 1).toInt = w.toInt - 1 := by
      rw [Int64.toInt_sub, Int64.toInt_one, Int.bmod_eq_of_le] <;> omega
    rw [if_neg hmin, if_neg (by omega), hsub]
    omega

/-- What is left of the life of a goroutine. -/
def fuel (g : Goroutine) : ℕ :=
  match g.status with
  | .dead => 0
  | .running => if g.isSyscall then ticksNeeded g.remainingWork + 4 else ticksNeeded g.remainingWork
  | .syscall => ticksNeeded g.remainingWork + (4 - g.syscallTicks)
  | _ => if g.isSyscall then ticksNeeded g.remainingWork + 5 else ticksNeeded g.remainingWork + 1

theorem fuel_pos {g : Goroutine} (h : g.status ≠ .dead) : 0 < fuel g := by
  have hpos := ticksNeeded_pos g.remainingWork
  unfold fuel
  split
  · exact absurd ‹_› h
  all_goals (try split) <;> omega

/-- All transitions but the hand-off use up fuel. -/
theorem fuel_lives {g g' : Goroutine} (h : Lives g g') :
    fuel g' < fuel g ∨ fuel g' = fuel g ∧ g.status = .running ∧ g'.status = .syscall := by
  have hpos := ticksNeeded_pos g.remainingWork
  cases h with
  | dispatched m p hstatus =>
    left
    simp only [fuel, hstatus]
    split <;> omega
  | worked hstatus hsyscall hmore =>
    have hless := ticksNeeded_sub_one hmore
    simp only [fuel, hstatus, hsyscall, Bool.false_eq_true, if_false]
    exact .inl hless
  | finished hstatus hsyscall hlast =>
    left
    simp only [fuel, hstatus, hsyscall, Bool.false_eq_true, if_false]
    omega
  | handedOff hstatus hsyscall hticks =>
    right
    simp [fuel, hstatus, hsyscall, hticks]
  | waited hstatus hmore =>
    left
    simp only [fuel, hstatus]
    omega
  | woken hstatus hsyscall hticks =>
    left
    simp only [fuel, hstatus, hticks, Bool.false_eq_true, if_false]
    omega

def fuelLeft (rt : GMPRuntime) : ℕ := ∑ g ∈ Finset.range rt.gCount, fuel (rt.gs g)

section Steps

variable {rt rt' : GMPRuntime} {g p m : ℕ}

theorem fuelLeft_moved (h : Moved rt rt' g) :
    fuelLeft rt' + fuel (rt.gs g) = fuelLeft rt + fuel (rt'.gs g) := by
  have hg : g ∈ Finset.range rt.gCount := Finset.mem_range.mpr h.lt_gCount
  have hothers : ∑ x ∈ (Finset.range rt.gCount).erase g, fuel (rt'.gs x) =
      ∑ x ∈ (Finset.range rt.gCount).erase g, fuel (rt.gs x) :=
    Finset.sum_congr rfl fun x hx => by rw [h.others x (Finset.ne_of_mem_erase hx)]
  unfold fuelLeft
  rw [h.gCount_eq, ← Finset.sum_erase_add _ _ hg, ← Finset.sum_erase_add _ (fun x => fuel (rt.gs x)) hg,
    hothers]
  omega

theorem fuelLeft_le (h : Moved rt rt' g) : fuelLeft rt' ≤ fuelLeft rt := by
  have hsum := fuelLeft_moved h
  rcases fuel_lives h.lives with hlt | ⟨heq, -⟩ <;> omega

theorem fuelLeft_lt (h : Progress rt rt') : fuelLeft rt' < fuelLeft rt := by
  obtain ⟨g, hmoved, hstays⟩ := h
  have hsum := fuelLeft_moved hmoved
  rcases fuel_lives hmoved.lives with hlt | ⟨-, hrunning, hsyscall⟩
  · omega
  · exact absurd hsyscall (hstays hrunning)

theorem fuelLeft_lt_trans (h : Relation.TransGen Progress rt rt') : fuelLeft rt' < fuelLeft rt := by
  induction h with
  | single h => exact fuelLeft_lt h
  | tail _ h ih => exact (fuelLeft_lt h).trans ih

theorem fuelLeft_still (h : Still rt rt') : fuelLeft rt' = fuelLeft rt := by
  unfold fuelLeft
  rw [h.gCount_eq, h.gs_eq]

theorem fuelLeft_round (h : Round rt p rt') : fuelLeft rt' ≤ fuelLeft rt := by
  cases h with
  | idle hstill _ _ => exact (fuelLeft_still hstill).le
  | handedOff m g hmoved _ => exact fuelLeft_le hmoved
  | progress hprogress => exact (fuelLeft_lt_trans hprogress).le

/-! ## Steps -/

/-- Nobody runs on the processors `procs`, and nobody waits for one. -/
def NothingToRun (rt : GMPRuntime) (procs : List ℕ) : Prop :=
  ∀ p ∈ procs, QueuesEmpty rt ∧ ∀ m, (rt.ps p).boundM = some m → (rt.ms m).curG = none

/-- **The loop over the processors** uses up fuel, or leaves a blocked thread behind, or has
nothing to run. -/
theorem stepPs_progress (tick : ℤ) {procs : List ℕ} (hrt : GmpInv rt)
    (hprocs : ∀ p ∈ procs, p < rt.numPs) :
    let rt' := procs.foldl (GMPRuntime.stepP tick) rt
    fuelLeft rt' ≤ fuelLeft rt ∧
      (∀ n, (rt.ms n).isBlocked = true → (rt'.ms n).isBlocked = true) ∧
      (fuelLeft rt' < fuelLeft rt ∨ (∃ n, (rt'.ms n).isBlocked = true) ∨
        NothingToRun rt procs) := by
  induction procs generalizing rt with
  | nil => exact ⟨le_rfl, fun _ h => h, .inr (.inr (by simp [NothingToRun]))⟩
  | cons p procs ih =>
    obtain ⟨hinv, hround, hblocked⟩ := stepP_spec hrt (hprocs p List.mem_cons_self) tick
    obtain ⟨hle, hblocked', hprogress⟩ := ih hinv fun q hq => by
      rw [(Round.sameCounts hround).numPs_eq]
      exact hprocs q (List.mem_cons_of_mem p hq)
    have hless := fuelLeft_round hround
    refine ⟨hle.trans hless, fun n hn => hblocked' n (hblocked n hn), ?_⟩
    cases hround with
    | handedOff m g hmoved hself => exact .inr (.inl ⟨m, hblocked' m hself⟩)
    | progress hmoves => exact .inl (hle.trans_lt (fuelLeft_lt_trans hmoves))
    | idle hstill hidle hempty =>
      rcases hprogress with hlt | hexists | hnothing
      · exact .inl (hlt.trans_le hless)
      · exact .inr (.inl hexists)
      · refine .inr (.inr fun q hq => ?_)
        rcases List.mem_cons.mp hq with rfl | hq
        · exact ⟨hempty, hidle⟩
        · have hq' := (hnothing q hq).2
          simp only [hstill.boundM_eq, hstill.ms_eq] at hq'
          exact ⟨hempty, hq'⟩

/-- **The loop over the threads** uses up fuel if one of them is blocked. -/
theorem wakes_progress (hrt : GmpInv rt) (threads : List ℕ) :
    fuelLeft (threads.foldl GMPRuntime.wake rt) ≤ fuelLeft rt ∧
      ((∃ m ∈ threads, (rt.ms m).isBlocked = true) →
        fuelLeft (threads.foldl GMPRuntime.wake rt) < fuelLeft rt) := by
  induction threads generalizing rt with
  | nil => simp
  | cons m threads ih =>
    rw [List.foldl_cons]
    by_cases hblocked : (rt.ms m).isBlocked = true
    · obtain ⟨g, hinv, hmoved, hstatus⟩ := wake_spec hrt hblocked
      have hlt := fuelLeft_lt ⟨g, hmoved, by simp [hstatus]⟩
      have hle := (ih hinv).1
      exact ⟨hle.trans hlt.le, fun _ => hle.trans_lt hlt⟩
    · rw [wake_idle (by simpa using hblocked)]
      obtain ⟨hle, hlt⟩ := ih hrt
      refine ⟨hle, ?_⟩
      rintro ⟨n, hn, hnb⟩
      rcases List.mem_cons.mp hn with rfl | hn
      · exact absurd hnb hblocked
      · exact hlt ⟨n, hn, hnb⟩

/-- All goroutines are dead when no thread is blocked and no processor has anything to run. -/
theorem fuelLeft_eq_zero (hrt : GmpInv rt) (hn : 0 < rt.numPs)
    (hnone : ∀ n, (rt.ms n).isBlocked = false)
    (hnothing : NothingToRun rt (List.range rt.numPs)) : fuelLeft rt = 0 := by
  refine Finset.sum_eq_zero fun g hg => ?_
  obtain ⟨c, hc⟩ := (hrt.custody.mem_iff g).mp (Finset.mem_range.mp hg)
  obtain ⟨hglobal, hlocal⟩ := (hnothing 0 (List.mem_range.mpr hn)).1
  cases c with
  | localQueue p => simp [held, hlocal p] at hc
  | globalRunQueue => simp [held, hglobal] at hc
  | completedGs =>
    have hdead : (rt.gs g).status = .dead := hrt.custody.known _ g hc
    simp [fuel, hdead]
  | curG m =>
    -- a thread with a goroutine has a processor, which is idle
    have hcur := mem_curG.mp hc
    have hbound : (rt.ms m).boundP ≠ none := fun h => by
      have hblocked := ((hrt.thread m).blocked_iff (by simp [hcur])).mpr h
      rw [hnone m] at hblocked
      cases hblocked
    obtain ⟨p, hp⟩ := Option.ne_none_iff_exists'.mp hbound
    obtain ⟨-, hlt, hm⟩ := hrt.bound m p hp
    rw [(hnothing p (List.mem_range.mpr hlt)).2 m hm] at hcur
    cases hcur

/-- **Every step uses up fuel** as long as there is some. -/
theorem fuelLeft_step (hrt : GmpInv rt) (hn : 0 < rt.numPs) (tick : ℤ) :
    fuelLeft (rt.step tick) ≤ fuelLeft rt - 1 := by
  have hrange : ∀ p ∈ List.range rt.numPs, p < rt.numPs := fun p hp => List.mem_range.mp hp
  obtain ⟨hle, hkeeps, hprogress⟩ := stepPs_progress tick hrt hrange
  obtain ⟨hinv, -⟩ := gmpInv_stepPs tick hrt hrange
  unfold GMPRuntime.step
  dsimp only at hle hkeeps hprogress ⊢
  generalize (List.range rt.numPs).foldl (GMPRuntime.stepP tick) rt = rt₁ at *
  obtain ⟨hle', hlt'⟩ := wakes_progress hinv (List.range rt₁.numMs)
  have hcases : fuelLeft rt₁ < fuelLeft rt ∨ (∃ n, (rt₁.ms n).isBlocked = true) ∨
      fuelLeft rt = 0 := by
    rcases hprogress with hlt | hblocked | hnothing
    · exact .inl hlt
    · exact .inr (.inl hblocked)
    · by_cases hsome : ∃ n, (rt.ms n).isBlocked = true
      · obtain ⟨n, hblocked⟩ := hsome
        exact .inr (.inl ⟨n, hkeeps n hblocked⟩)
      · exact .inr (.inr (fuelLeft_eq_zero hrt hn (by simpa using hsome) hnothing))
  rcases hcases with hlt | ⟨n, hblocked⟩ | hzero
  · omega
  · obtain ⟨x, hx⟩ := Option.ne_none_iff_exists'.mp ((hinv.thread n).busy hblocked)
    have hlt := hlt' ⟨n, List.mem_range.mpr (hinv.lt_numMs hx), hblocked⟩
    omega
  · omega

/-! ## Runs -/

/-- Without fuel all goroutines are completed. -/
theorem completed_of_fuelLeft (hrt : GmpInv rt) (hzero : fuelLeft rt = 0) :
    rt.completedGs.Perm (List.range rt.gCount) := by
  refine (List.perm_ext_iff_of_nodup (hrt.custody.nodup .completedGs) List.nodup_range).mpr ?_
  intro g
  rw [List.mem_range]
  refine ⟨fun hg => hrt.custody.mem_live (c := .completedGs) hg, fun hg => ?_⟩
  have hdead : (rt.gs g).status = .dead := by
    by_contra halive
    have hnone := Finset.sum_eq_zero_iff.mp hzero g (Finset.mem_range.mpr hg)
    have hpos := fuel_pos halive
    omega
  obtain ⟨c, hc⟩ := (hrt.custody.mem_iff g).mp hg
  have hknown := hrt.custody.known c g hc
  cases c with
  | completedGs => exact hc
  | curG m =>
    simp only [Suits, hdead] at hknown
    split at hknown <;> simp at hknown
  | _ => simp [Suits, hdead] at hknown

theorem fuelLeft_steps (hrt : GmpReady rt) (ticks : List ℤ) :
    fuelLeft (rt.run (ticks.map .step)) ≤ fuelLeft rt - ticks.length ∧
      (rt.run (ticks.map .step)).gCount = rt.gCount := by
  induction ticks generalizing rt with
  | nil => exact ⟨le_rfl, rfl⟩
  | cons tick ticks ih =>
    obtain ⟨hle, hcount⟩ := ih (GmpReady.call hrt (.step tick))
    have hstep := fuelLeft_step hrt.1 hrt.2 tick
    have hcounts := (GmpInv.step hrt.1 tick).2
    refine ⟨?_, hcount.trans hcounts.gCount_eq⟩
    rw [List.length_cons]
    exact hle.trans (by simp only [GMPRuntime.call]; omega)

/-- A new goroutine brings its fuel. -/
theorem fuelLeft_spawnGoroutine (rt : GMPRuntime) (name : String) (workUnits : Int64) (isSyscall : Bool) :
    (rt.spawnGoroutine name workUnits isSyscall).2.gCount = rt.gCount + 1 ∧
      fuelLeft (rt.spawnGoroutine name workUnits isSyscall).2 ≤
        fuelLeft rt + (ticksNeeded workUnits + 5) := by
  obtain ⟨-, hcount, hgs, -⟩ := spawnGoroutine_spawned rt name workUnits isSyscall
  refine ⟨hcount, ?_⟩
  unfold fuelLeft
  rw [hcount, Finset.sum_range_succ, hgs, Function.update_self]
  have hold : ∑ g ∈ Finset.range rt.gCount, fuel (Function.update rt.gs rt.gCount
      { gid := rt.gCount + 1, name, status := .runnable, stackSize := 2048
        remainingWork := workUnits, assignedM := -1, assignedP := -1, isSyscall } g) =
      ∑ g ∈ Finset.range rt.gCount, fuel (rt.gs g) :=
    Finset.sum_congr rfl fun g hg => by
      rw [Function.update_of_ne (Finset.mem_range.mp hg).ne]
  rw [hold]
  refine Nat.add_le_add_left ?_ _
  simp only [fuel]
  split <;> omega

end Steps

/-- The arguments of a `SpawnGoroutine`. -/
structure SpawnArgs where
  name : String
  workUnits : Int64
  isSyscall : Bool

def SpawnArgs.call (s : SpawnArgs) : GmpCall :=
  .spawnGoroutine s.name s.workUnits s.isSyscall

theorem fuelLeft_spawns (rt : GMPRuntime) (spawns : List SpawnArgs) :
    (rt.run (spawns.map SpawnArgs.call)).gCount = rt.gCount + spawns.length ∧
      fuelLeft (rt.run (spawns.map SpawnArgs.call)) ≤
        fuelLeft rt + (spawns.map fun s => ticksNeeded s.workUnits + 5).sum := by
  induction spawns generalizing rt with
  | nil => exact ⟨rfl, le_rfl⟩
  | cons s spawns ih =>
    obtain ⟨hcount, hfuel⟩ := fuelLeft_spawnGoroutine rt s.name s.workUnits s.isSyscall
    obtain ⟨hcount', hfuel'⟩ := ih (rt.call s.call)
    simp only [List.map_cons, List.length_cons, List.sum_cons]
    have hcall : rt.call s.call = (rt.spawnGoroutine s.name s.workUnits s.isSyscall).2 := rfl
    rw [hcall] at hcount' hfuel'
    constructor
    · refine hcount'.trans ?_
      rw [hcount]
      omega
    · refine hfuel'.trans ?_
      omega

theorem ticksNeeded_eq {w : Int64} (hw : -2 ^ 63 < w.toInt) :
    (ticksNeeded w : ℤ) = max w.toInt 1 := by
  unfold ticksNeeded
  rw [if_neg (by omega)]
  omega

theorem sum_ticksNeeded_le {spawns : List SpawnArgs}
    (hwork : ∀ s ∈ spawns, -2 ^ 63 < s.workUnits.toInt) :
    (((spawns.map fun s => ticksNeeded s.workUnits + 5).sum : ℕ) : ℤ) ≤
      (spawns.map fun s => max s.workUnits.toInt 1 + 6).sum := by
  induction spawns with
  | nil => simp
  | cons s spawns ih =>
    have hs := ticksNeeded_eq (hwork s List.mem_cons_self)
    have hrest := ih fun x hx => hwork x (List.mem_cons_of_mem s hx)
    simp only [List.map_cons, List.sum_cons]
    push_cast at hrest ⊢
    omega

/-- **All goroutines finish**: once the number of steps has reached the sum of their work, with
six more for each of them, each goroutine has been completed exactly once. -/
theorem goroutines_complete (gomaxprocs : ℤ) (rng : Rand) (spawns : List SpawnArgs)
    (hwork : ∀ s ∈ spawns, -2 ^ 63 < s.workUnits.toInt) (ticks : List ℤ)
    (hsteps : (spawns.map fun s => max s.workUnits.toInt 1 + 6).sum ≤ (ticks.length : ℤ)) :
    ((newGMPRuntime gomaxprocs rng).run
      (spawns.map SpawnArgs.call ++ ticks.map .step)).completedGs.Perm
        (List.range spawns.length) := by
  obtain ⟨hinv, hn, hempty⟩ := gmpInv_new gomaxprocs rng
  have hnofuel : fuelLeft (newGMPRuntime gomaxprocs rng) = 0 := by simp [fuelLeft, hempty]
  obtain ⟨hcount, hfuel⟩ := fuelLeft_spawns (newGMPRuntime gomaxprocs rng) spawns
  have hspawned := GmpReady.run ⟨hinv, hn⟩ (spawns.map SpawnArgs.call)
  obtain ⟨hleft, hcount'⟩ := fuelLeft_steps hspawned ticks
  have hbound := sum_ticksNeeded_le hwork
  have hdone := GmpReady.run hspawned (ticks.map .step)
  have hzero : fuelLeft (((newGMPRuntime gomaxprocs rng).run (spawns.map SpawnArgs.call)).run
      (ticks.map .step)) = 0 := by omega
  have hperm := completed_of_fuelLeft hdone.1 hzero
  rw [hcount', hcount, hempty, Nat.zero_add] at hperm
  simpa only [GMPRuntime.run, List.foldl_append] using hperm

/-- The random source that always draws 0. -/
def firstRand : Rand where
  intn := fun _ _ => 0
  intn_mem := fun _ _ h => ⟨le_rfl, h⟩

/-- Two goroutines on two processors, one with a system call. -/
theorem goroutines_complete_two :
    ((newGMPRuntime 2 firstRand).run
      ([⟨"worker", 2, false⟩, ⟨"reader", 1, true⟩].map SpawnArgs.call ++
        (List.replicate 15 0).map .step)).completedGs.Perm (List.range 2) :=
  goroutines_complete 2 firstRand [⟨"worker", 2, false⟩, ⟨"reader", 1, true⟩] (by decide)
    (List.replicate 15 0) (by decide)

/-- The work of a goroutine with the smallest `int` wraps around to the largest. -/
theorem goroutine_wraps :
    ([⟨"g", Int64.minValue, false⟩].map fun s : SpawnArgs =>
        max s.workUnits.toInt 1 + 6).sum = 7 ∧
      ((newGMPRuntime 1 firstRand).run ([⟨"g", Int64.minValue, false⟩].map SpawnArgs.call ++
        (List.replicate 7 0).map .step)).completedGs = [] := by
  decide

end OsSimulator.Analysis
