import OsSimulator.Analysis.MlfqAccounts
import OsSimulator.Analysis.SchedInvariant
import OsSimulator.Library.UnitSchedule

/-!
# Levels and allotments of MLFQ

Runs of the MLFQ scheduler with any boost period and any processes.

* `mlfqOk_run`: the accounts are in order after every tick.
* `mlfq_bookkeeping`: hence the queues agree with the levels, levels decrease in boosts only, and a
  process cannot stay on a level for longer than its allotment, however its execution is split.
-/

set_option autoImplicit false

namespace OsSimulator.Analysis

open Model Interface Library

section Run

variable (b : ℤ) (procs : List Process)

/-- The MLFQ scheduler with boost period `b` after the ticks before `n`. -/
def mlfqAt (n : ℕ) : MLFQScheduler :=
  match ((SchedulerKind.mlfq b).load procs).run n with
  | .mlfq s => s
  | _ => newMLFQScheduler b

theorem run_mlfq (n : ℕ) :
    ((SchedulerKind.mlfq b).load procs).run n = .mlfq (mlfqAt b procs n) := by
  obtain ⟨s, hs⟩ := run_discipline (C := .mlfq) (k := .mlfq b) ⟨_, rfl⟩ (fun _ _ => ⟨_, rfl⟩)
    (fun _ _ => ⟨_, rfl⟩) procs n
  unfold mlfqAt
  rw [hs]

theorem mlfqAt_succ (n : ℕ) : mlfqAt b procs (n + 1) = (mlfqAt b procs n).tick n := by
  have hnext : ((SchedulerKind.mlfq b).load procs).run (n + 1) =
      (((SchedulerKind.mlfq b).load procs).run n).tick n := rfl
  rw [run_mlfq, run_mlfq] at hnext
  exact Scheduler.mlfq.inj hnext

theorem executedAt_mlfq (n : ℕ) : ((SchedulerKind.mlfq b).load procs).executedAt n =
    ((mlfqAt b procs n).schedule n).running := by
  unfold Scheduler.executedAt
  rw [run_mlfq]
  rfl

/-- No tick changes the configuration. -/
theorem mlfqAt_setup (n : ℕ) :
    (mlfqAt b procs n).numQueues = 3 ∧ (mlfqAt b procs n).configs = mlfqConfigs := by
  have hrun := run_induction (k := .mlfq b)
    (P := fun s => ∀ m, s = .mlfq m → m.numQueues = 3 ∧ m.configs = mlfqConfigs)
    (fun m hm => by
      obtain rfl := Scheduler.mlfq.inj hm
      exact ⟨rfl, rfl⟩)
    (fun p s hs m hm => by
      cases s with
      | mlfq s =>
        obtain rfl := Scheduler.mlfq.inj hm
        exact hs s rfl
      | _ => cases hm)
    (fun t s hs m hm => by
      cases s with
      | mlfq s =>
        obtain rfl := Scheduler.mlfq.inj hm
        obtain ⟨hnum, hconfigs, -⟩ := boost_tick_sameSetup t s
        obtain ⟨hconfigs', hnum'⟩ := boost_configs t s
        rw [hnum, hconfigs, hconfigs', hnum']
        exact hs s rfl
      | _ => cases hm) procs n
  exact hrun _ (run_mlfq b procs n)

/-- A run starts with the clones and empty queues. -/
theorem mlfqAt_zero :
    (mlfqAt b procs 0).toSchedBase = { allProcesses := procs.map Process.clone } ∧
      (mlfqAt b procs 0).queues.flatten = [] ∧ LevelsOk (mlfqAt b procs 0) := by
  have hload := load_spec (.mlfq b) procs
  have hrun : (SchedulerKind.mlfq b).load procs = .mlfq (mlfqAt b procs 0) := run_mlfq b procs 0
  rwa [hrun] at hload

theorem mlfqOk_zero : MlfqOk (mlfqAt b procs 0) := by
  obtain ⟨hbase, hready, hlevels⟩ := mlfqAt_zero b procs
  obtain ⟨hnum, hconfigs⟩ := mlfqAt_setup b procs 0
  have hplaces : places (baseView (mlfqAt b procs 0).toSchedBase
      (mlfqAt b procs 0).queues.flatten) = [] := by
    rw [hbase, hready]
    rfl
  have htop : 0 ≤ allotmentAt mlfqConfigs 0 := by decide
  refine ⟨hlevels, ⟨?_, ?_, ?_⟩, ?_, ?_, ?_⟩
  · rw [hplaces]
    exact List.nodup_nil
  · rw [hplaces]
    exact fun i hi => absurd hi List.not_mem_nil
  · rw [hplaces]
    exact fun i hi => absurd hi List.not_mem_nil
  · rw [hnum, hconfigs]
    decide
  · intro i
    rw [hconfigs, hbase, SchedBase.proc, List.getD_eq_getElem?_getD, List.getElem?_map]
    cases procs[i]? with
    | none => exact accountOk_of_zero rfl htop fun _ => rfl
    | some p => exact accountOk_of_zero rfl htop fun _ => rfl
  · intro q i hi
    have hi := mem_flatten_of_getD hi
    rw [hready] at hi
    cases hi

/-- **The accounts are in order after every tick.** -/
theorem mlfqOk_run (n : ℕ) : MlfqOk (mlfqAt b procs n) := by
  induction n with
  | zero => exact mlfqOk_zero b procs
  | succ n ih =>
    rw [mlfqAt_succ]
    exact ih.tick n

theorem length_mlfqAt (n : ℕ) : (mlfqAt b procs n).allProcesses.length = procs.length := by
  induction n with
  | zero =>
    rw [(mlfqAt_zero b procs).1]
    exact List.length_map ..
  | succ n ih => rw [mlfqAt_succ, length_tick, ih]

/-- A boost is recorded with its tick. -/
theorem mem_boostEvents {n : ℕ} (hb : boosts (mlfqAt b procs n)) :
    (n : ℤ) ∈ (mlfqAt b procs (n + 1)).boostEvents := by
  rw [mlfqAt_succ, (boost_tick_sameSetup _ _).boostEvents_eq, boost_of_boosts hb]
  exact List.mem_append_right _ (List.mem_singleton_self _)

/-- What a tick of a run does to an account when no boost is recorded for it. -/
theorem account_run {n i : ℕ} (hi : i < procs.length)
    (hb : (n : ℤ) ∉ (mlfqAt b procs (n + 1)).boostEvents) :
    let s := mlfqAt b procs
    let counted : ℤ := if ((SchedulerKind.mlfq b).load procs).executedAt n = some i then 1 else 0
    account ((s (n + 1)).proc i) =
        (((s n).proc i).currentQueue, ((s n).proc i).allotmentUsed + counted) ∨
      account ((s (n + 1)).proc i) =
        ((MLFQScheduler.demote 3 ((s n).proc i)).currentQueue, counted) := by
  intro s counted
  have htick := (mlfqOk_run b procs n).account_tick (i := i) (by rw [length_mlfqAt]; exact hi) n
  rw [← mlfqAt_succ, ← executedAt_mlfq, (mlfqAt_setup b procs n).1] at htick
  rcases htick with hsame | ⟨-, -, hdemoted⟩ | ⟨hboost, -⟩
  · exact .inl hsame
  · exact .inr hdemoted
  · exact absurd (mem_boostEvents b procs hboost) hb

theorem cast_served_succ (h : ℕ → Option ℕ) (i n : ℕ) :
    (served h i (n + 1) : ℤ) = served h i n + if h n = some i then 1 else 0 := by
  rw [served_succ]
  split <;> omega

/-- The executions since tick `a` are counted in the allotment as long as the level stays. -/
theorem executions_le_used {a m i q : ℕ} (hi : i < procs.length) (hq : q + 1 < 3)
    (hlevel : ∀ u, a ≤ u → u ≤ a + m → ((mlfqAt b procs (u + 1)).proc i).currentQueue = q)
    (hboost : ∀ u, a < u → u ≤ a + m → (u : ℤ) ∉ (mlfqAt b procs (u + 1)).boostEvents) :
    let h := ((SchedulerKind.mlfq b).load procs).executedAt
    (served h i (a + m + 1) : ℤ) ≤
      served h i a + ((mlfqAt b procs (a + m + 1)).proc i).allotmentUsed := by
  intro h
  induction m with
  | zero =>
    have htick := (mlfqOk_run b procs a).account_tick (i := i) (by rw [length_mlfqAt]; exact hi) a
    rw [← mlfqAt_succ, ← executedAt_mlfq] at htick
    have hnonneg := ((mlfqOk_run b procs a).accounts i).nonneg
    have hcounted : (if h a = some i then 1 else 0) ≤
        ((mlfqAt b procs (a + 1)).proc i).allotmentUsed := by
      rcases htick with htick | ⟨-, -, htick⟩ | ⟨-, htick⟩
      · rw [(Prod.mk.inj htick).2]
        exact le_add_of_nonneg_left hnonneg
      · rw [(Prod.mk.inj htick).2]
      · rw [(Prod.mk.inj htick).2]
    rw [Nat.add_zero, cast_served_succ]
    omega
  | succ m ih =>
    have hbefore := ih (fun u hu hle => hlevel u hu (by omega))
      fun u hu hle => hboost u hu (by omega)
    have hold := hlevel (a + m) (by omega) (by omega)
    have hnew := hlevel (a + m + 1) (by omega) (by omega)
    rw [show a + (m + 1) + 1 = a + m + 1 + 1 by omega, cast_served_succ]
    rcases account_run b procs hi (hboost (a + m + 1) (by omega) (by omega)) with hsame | hdown
    · have hcounted : ((mlfqAt b procs (a + m + 1 + 1)).proc i).allotmentUsed =
          ((mlfqAt b procs (a + m + 1)).proc i).allotmentUsed +
            if h (a + m + 1) = some i then 1 else 0 := (Prod.mk.inj hsame).2
      omega
    · -- a demotion would change the level, which is not the last one
      rw [(Prod.mk.inj hdown).1] at hnew
      unfold MLFQScheduler.demote at hnew
      dsimp only at hnew
      rw [hold, if_pos (by omega)] at hnew
      omega

end Run

/-- **Levels and allotments of MLFQ.**  After every tick the queue of a level holds processes of
that level with some allotment left, and the running process keeps within the allotment of its
level.  The level of a process decreases in a boost only.  While a process stays on a level other
than the last one, no boost in between, it is executed for no longer than the allotment of that
level.
SOURCE: pkg/cpu/sched_mlfq.go:77-196, pkg/cpu/sched_mlfq.go:41-67 -/
theorem mlfq_bookkeeping (b : ℤ) (procs : List Process) :
    let s := mlfqAt b procs
    let h := ((SchedulerKind.mlfq b).load procs).executedAt
    (∀ n q, ∀ i ∈ (s n).queues.getD q [], ((s n).proc i).currentQueue = q ∧
      ((s n).proc i).allotmentUsed < allotmentAt (s n).configs q) ∧
    (∀ n i, (s n).running = some i →
      ((s n).proc i).allotmentUsed ≤ allotmentAt (s n).configs ((s n).proc i).currentQueue) ∧
    (∀ n, ∀ i < procs.length, (n : ℤ) ∉ (s (n + 1)).boostEvents →
      ((s n).proc i).currentQueue ≤ ((s (n + 1)).proc i).currentQueue) ∧
    ∀ a c q, ∀ i < procs.length, a ≤ c → q + 1 < (s c).numQueues →
      (∀ u, a ≤ u → u < c → ((s (u + 1)).proc i).currentQueue = q) →
      (∀ u, a < u → u < c → (u : ℤ) ∉ (s (u + 1)).boostEvents) →
      (served h i c : ℤ) ≤ served h i a + allotmentAt (s c).configs q := by
  intro s h
  refine ⟨fun n => (mlfqOk_run b procs n).queued,
    fun n i _ => ((mlfqOk_run b procs n).accounts i).le_allotment, ?_, ?_⟩
  · intro n i hi hboost
    rcases account_run b procs hi hboost with hsame | hdown
    · rw [(Prod.mk.inj hsame).1]
    · show ((mlfqAt b procs n).proc i).currentQueue ≤ _
      rw [(Prod.mk.inj hdown).1]
      unfold MLFQScheduler.demote
      dsimp only
      split <;> omega
  · intro a c q i hi hac hq hlevel hboost
    rw [(mlfqAt_setup b procs c).1] at hq
    rcases Nat.eq_or_lt_of_le hac with rfl | hlt
    · have hpos := (mlfqOk_run b procs a).allotment_pos q
        (by rw [(mlfqAt_setup b procs a).1]; omega)
      exact le_add_of_nonneg_right hpos.le
    · obtain ⟨m, rfl⟩ : ∃ m, c = a + m + 1 := ⟨c - a - 1, by omega⟩
      have hused : (served h i (a + m + 1) : ℤ) ≤
          served h i a + ((s (a + m + 1)).proc i).allotmentUsed :=
        executions_le_used b procs hi hq (fun u hu hle => hlevel u hu (by omega))
          fun u hu hle => hboost u hu (by omega)
      have hallot : ((s (a + m + 1)).proc i).allotmentUsed ≤
          allotmentAt (s (a + m + 1)).configs ((s (a + m + 1)).proc i).currentQueue :=
        ((mlfqOk_run b procs (a + m + 1)).accounts i).le_allotment
      rw [hlevel (a + m) (by omega) (by omega)] at hallot
      exact le_trans hused (Int.add_le_add_left hallot _)

end OsSimulator.Analysis
