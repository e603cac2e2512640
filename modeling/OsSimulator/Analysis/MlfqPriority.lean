import OsSimulator.Analysis.ContextSwitches
import OsSimulator.Analysis.MlfqLevels

/-!
# Priorities of MLFQ

A tick that dispatches takes a process from the first queue that is not empty, so it follows Rule 1:
no process runs while one of a higher priority is ready.  A tick that does not dispatch lets the
running process go on, whatever has arrived in the top queue in the meantime
(`MlfqOk.schedule_cases`).

* `mlfq_rule_one_iff`: Rule 1 holds in a tick exactly when the executed process is on the top level
  or no process has arrived since it was dispatched.
* `mlfq_rule_one_fails_longShort`: a process arrives in the middle of a slice on the second level.
-/

set_option autoImplicit false

namespace OsSimulator.Analysis

open Model Interface

/-- Rule 1 in the state that a tick executes: no waiting process is on a higher level than the
running one. -/
def RuleOne (s : MLFQScheduler) : Prop := ∀ i, s.running = some i → ∀ j ∈ s.queues.flatten,
  (s.proc i).currentQueue ≤ (s.proc j).currentQueue

section Tick

variable {s : MLFQScheduler} {i j : ℕ} {t : ℤ}

/-- A process that leaves the slot is in a queue. -/
theorem MlfqOk.expire_cases (hs : MlfqOk s) :
    s.expire = s ∨ s.expire.running = none ∧ s.expire.queues.flatten ≠ [] := by
  have hback : ∀ q < s.queues.length, ∀ j, (s.queues.modify q (· ++ [j])).flatten ≠ [] := by
    intro q hq j hnil
    have hperm := flatten_modify_append hq [j]
    rw [hnil] at hperm
    simpa using hperm.length_eq
  unfold MLFQScheduler.expire
  split
  · rename_i j hrun
    dsimp only
    split
    · refine .inr ⟨rfl, hback _ ?_ j⟩
      rw [hs.levels.length_eq]
      exact (hs.demote hrun).levels.level_lt j
    · split
      · refine .inr ⟨rfl, hback _ ?_ j⟩
        rw [hs.levels.length_eq]
        exact hs.levels.level_lt j
      · exact .inl rfl
  · exact .inl rfl

/-- **Two kinds of ticks.**  Either nothing happens after the arrivals, and the slot is empty only
if nothing is ready, or a process is dispatched and Rule 1 holds. -/
theorem MlfqOk.schedule_cases (hs : MlfqOk s) (t : ℤ) :
    s.schedule t = (s.boost t).arrive t ∧
        (s.running = none → ((s.boost t).arrive t).queues.flatten = []) ∨
      (s.schedule t).contextSwitches = s.contextSwitches + 1 ∧ RuleOne (s.schedule t) := by
  have ha := (hs.boost t).arrive t
  have hmid := (hs.schedule t).1
  have hslot : ((s.boost t).arrive t).running = s.running := boost_running t s
  rcases pick_cases t ((s.boost t).arrive t).expire with
    ⟨hstay, hempty⟩ | ⟨-, q, i, rest, hqueue, hbefore, hpick⟩
  · rcases ha.expire_cases with hkeep | ⟨hnone, hne⟩
    · refine .inl ⟨hstay.trans hkeep, fun hrun => ?_⟩
      rw [hkeep] at hempty
      exact hempty (hslot.trans hrun)
    · exact absurd (hempty hnone) hne
  · have hpick : s.schedule t = _ := hpick
    have hexpire := ha.expire.1
    have hhead : i ∈ ((s.boost t).arrive t).expire.queues.getD q [] := by
      rw [hqueue]
      exact List.mem_cons_self
    have hlevel : ((s.schedule t).proc i).currentQueue = q := by
      have haccount := account_pick (t := t) (hexpire.lt_length (mem_flatten_of_getD hhead))
      exact (account_eq_iff.mp haccount).1.trans (hexpire.queued q i hhead).1
    refine .inr ⟨?_, fun k hk j hj => ?_⟩
    · rw [hpick]
      exact congrArg (· + 1) (mlfq_gaveUp t s).counter
    · have hki : i = k := by
        rw [hpick] at hk
        exact Option.some.inj hk
      obtain ⟨r, -, hr⟩ := exists_getD_of_mem_flatten hj
      rw [← hki, hlevel, (hmid.queued r j hr).1]
      by_contra hlt
      have hqr : r < q := not_le.mp hlt
      have hq : q < ((s.boost t).arrive t).expire.queues.length := by
        by_contra hge
        rw [List.getD_eq_default _ _ (Nat.not_lt.mp hge)] at hhead
        cases hhead
      rw [hpick] at hr
      have hr : j ∈ (((s.boost t).arrive t).expire.queues.modify q List.tail).getD r [] := hr
      rw [getD_modify_queue _ hq, if_neg (Nat.ne_of_lt hqr), hbefore r hqr] at hr
      cases hr

theorem MlfqOk.mem_top_boost (hs : MlfqOk s) (hj : j ∈ s.queues.getD 0 []) :
    j ∈ (s.boost t).queues.getD 0 [] := by
  by_cases hb : boosts s
  · rw [boost_of_boosts hb]
    have hlen : 0 < (List.replicate s.numQueues ([] : List ℕ)).length := by
      rw [List.length_replicate]
      exact hs.levels.pos
    exact (mem_getD_append _ hlen).mpr (.inr ⟨rfl, mem_flatten_of_getD hj⟩)
  · rw [boost_of_not_boosts hb]
    exact hj

/-- A boost does not touch what the arrival loop looks at. -/
theorem arrivals_boost (t : ℤ) (s : MLFQScheduler) :
    arrivals t (s.boost t).allProcesses = arrivals t s.allProcesses := by
  unfold arrivals
  rw [length_boost]
  refine List.filter_congr fun i hi => ?_
  have hi := List.mem_range.mp hi
  by_cases hb : boosts s
  · rw [boost_of_boosts hb]
    dsimp only
    rw [getD_mapIdx _ hi]
    split <;> rfl
  · rw [boost_of_not_boosts hb]

end Tick

/-! ## Runs -/

section Run

variable (b : ℤ) (procs : List Process)

/-- The state in which tick `t` executes. -/
def chosenAt (t : ℕ) : MLFQScheduler := (mlfqAt b procs t).schedule t

/-- Tick `t` dispatches a process. -/
def dispatches (t : ℕ) : Prop :=
  (mlfqAt b procs (t + 1)).contextSwitches ≠ (mlfqAt b procs t).contextSwitches

theorem mlfqOk_chosenAt (t : ℕ) : MlfqOk (chosenAt b procs t) :=
  ((mlfqOk_run b procs t).schedule t).1

theorem quiet_or_ruleOne (t : ℕ) :
    (¬ dispatches b procs t ∧
        chosenAt b procs t = ((mlfqAt b procs t).boost t).arrive t) ∨
      dispatches b procs t ∧ RuleOne (chosenAt b procs t) := by
  have hcount : (mlfqAt b procs (t + 1)).contextSwitches =
      (chosenAt b procs t).contextSwitches := by
    rw [mlfqAt_succ]
    exact tick_contextSwitches t (.mlfq (mlfqAt b procs t))
  unfold dispatches
  rw [hcount]
  rcases (mlfqOk_run b procs t).schedule_cases t with ⟨hquiet, -⟩ | ⟨hmore, hrule⟩
  · refine .inl ⟨fun hne => hne ?_, hquiet⟩
    rw [show chosenAt b procs t = _ from hquiet]
    exact boost_contextSwitches t _
  · refine .inr ⟨?_, hrule⟩
    rw [show (chosenAt b procs t).contextSwitches = _ from hmore]
    omega

/-- A tick after the choice keeps the queues and the levels, and whoever is in the slot then was
chosen. -/
theorem mlfqAt_succ_of_chosen (t : ℕ) :
    (mlfqAt b procs (t + 1)).queues = (chosenAt b procs t).queues ∧
      (∀ i < procs.length, ((mlfqAt b procs (t + 1)).proc i).currentQueue =
        ((chosenAt b procs t).proc i).currentQueue) ∧
      ∀ i, (mlfqAt b procs (t + 1)).running = some i → (chosenAt b procs t).running = some i := by
  refine ⟨?_, fun i hi => ?_, fun i hi => ?_⟩
  · rw [mlfqAt_succ]
    exact tick_queues t _
  · rw [mlfqAt_succ]
    refine (Prod.mk.inj (account_counted ?_)).1
    rw [length_schedule, length_mlfqAt]
    exact hi
  · unfold chosenAt
    rw [← executedAt_mlfq]
    apply executedAt_of_running
    rw [run_mlfq]
    exact hi

end Run

section Workload

variable {b : ℤ} {W : Workload} {i j t : ℕ}

theorem mem_arrivals_mlfqAt : j ∈ arrivals t (mlfqAt b W.procs t).allProcesses ↔
    j < W.procs.length ∧ (W.proc j).arrivalTime = t := by
  have hinv := (schedInv_run (.mlfq b) W t).1
  rw [run_mlfq] at hinv
  have harrivals : arrivals t (mlfqAt b W.procs t).allProcesses = arrivingAt W t :=
    hinv.arrivals_eq
  rw [harrivals, arrivingAt, List.mem_filter, List.mem_range, decide_eq_true_iff]

/-- The running process is not boosted in a quiet tick that leaves it below the top level. -/
theorem not_boosts_of_pos (hrun : (mlfqAt b W.procs t).running = some i)
    (hpos : 0 < (((((mlfqAt b W.procs t).boost t).arrive t)).proc i).currentQueue) :
    ¬ boosts (mlfqAt b W.procs t) := by
  intro hb
  have hs := mlfqOk_run b W.procs t
  have hi := hs.running_lt_length hrun
  have harrive := (hs.boost t).account_arrive (t := t) (by rw [length_boost]; exact hi)
  rcases account_boost (t := t) hi with ⟨-, hnot⟩ | ⟨-, htop⟩
  · exact hnot hb hrun
  · rw [(Prod.mk.inj (harrive.trans htop)).1] at hpos
    exact lt_irrefl 0 hpos

/-- A waiting process of a higher priority was ready before the tick, or it arrives in it. -/
theorem inversion_step (hrun : (chosenAt b W.procs t).running = some i)
    (hj : j ∈ (chosenAt b W.procs t).queues.flatten)
    (hlt : ((chosenAt b W.procs t).proc j).currentQueue <
      ((chosenAt b W.procs t).proc i).currentQueue) :
    ¬ dispatches b W.procs t ∧ ((W.proc j).arrivalTime = t ∨
      (mlfqAt b W.procs t).running = some i ∧ j ∈ (mlfqAt b W.procs t).queues.flatten ∧
        ((mlfqAt b W.procs t).proc j).currentQueue <
          ((mlfqAt b W.procs t).proc i).currentQueue) := by
  have hs := mlfqOk_run b W.procs t
  have hjlen := (mlfqOk_chosenAt b W.procs t).lt_length hj
  rcases quiet_or_ruleOne b W.procs t with ⟨hquiet, hchosen⟩ | ⟨-, hrule⟩
  · refine ⟨hquiet, ?_⟩
    rw [hchosen] at hrun hj hlt hjlen
    rw [length_arrive, length_boost] at hjlen
    have hslot : (mlfqAt b W.procs t).running = some i := (boost_running _ _).symm.trans hrun
    have hb := not_boosts_of_pos hslot (Nat.zero_lt_of_lt hlt)
    have hlevel : ∀ k < (mlfqAt b W.procs t).allProcesses.length,
        ((((mlfqAt b W.procs t).boost t).arrive t).proc k).currentQueue =
          ((mlfqAt b W.procs t).proc k).currentQueue := by
      intro k hk
      have harrive := (hs.boost t).account_arrive (t := t) (by rw [length_boost]; exact hk)
      rcases account_boost (t := t) hk with ⟨hsame, -⟩ | ⟨hboosts, -⟩
      · exact (account_eq_iff.mp (harrive.trans hsame)).1
      · exact absurd hboosts hb
    rw [hlevel j hjlen, hlevel i (hs.running_lt_length hslot)] at hlt
    have hqueue := (hs.boost t).queues_length_pos
    have hj := (flatten_modify_append hqueue _).mem_iff.mp hj
    rw [boost_of_not_boosts hb] at hj
    rcases List.mem_append.mp hj with hold | hnew
    · exact .inr ⟨hslot, hold, hlt⟩
    · exact .inl (mem_arrivals_mlfqAt.mp hnew).2
  · exact absurd hlt (not_lt.mpr (hrule i hrun j hj))

/-- A waiting process of a higher priority has arrived since the last dispatch. -/
theorem arrived_since_dispatch (hrun : (chosenAt b W.procs t).running = some i)
    (hj : j ∈ (chosenAt b W.procs t).queues.flatten)
    (hlt : ((chosenAt b W.procs t).proc j).currentQueue <
      ((chosenAt b W.procs t).proc i).currentQueue) :
    (W.proc j).arrivalTime ≤ t ∧ ∀ u : ℕ, (W.proc j).arrivalTime ≤ u → u ≤ t →
      ¬ dispatches b W.procs u := by
  induction t with
  | zero =>
    obtain ⟨hquiet, harr | ⟨-, hold, -⟩⟩ := inversion_step hrun hj hlt
    · refine ⟨harr.le, fun u _ hu => ?_⟩
      obtain rfl : u = 0 := Nat.le_zero.mp hu
      exact hquiet
    · rw [(mlfqAt_zero b W.procs).2.1] at hold
      cases hold
  | succ t ih =>
    obtain ⟨hquiet, harr | ⟨hslot, hold, hbelow⟩⟩ := inversion_step hrun hj hlt
    · refine ⟨harr.le, fun u hu hle => ?_⟩
      obtain rfl : u = t + 1 := by omega
      exact hquiet
    · obtain ⟨hqueues, hlevels, hrunning⟩ := mlfqAt_succ_of_chosen b W.procs t
      have hs := mlfqOk_run b W.procs (t + 1)
      have hilen := hs.running_lt_length hslot
      have hjlen := hs.lt_length hold
      rw [length_mlfqAt] at hilen hjlen
      rw [hlevels j hjlen, hlevels i hilen] at hbelow
      rw [hqueues] at hold
      obtain ⟨harr, hbefore⟩ := ih (hrunning i hslot) hold hbelow
      refine ⟨by omega, fun u hu hle => ?_⟩
      rcases Nat.eq_or_lt_of_le hle with rfl | hlt'
      · exact hquiet
      · exact hbefore u hu (by omega)

/-- In a tick that does not dispatch the top queue loses nobody and gets the arrivals. -/
theorem mem_top_of_quiet (hquiet : ¬ dispatches b W.procs t)
    (hj : j ∈ (mlfqAt b W.procs t).queues.getD 0 [] ∨
      j < W.procs.length ∧ (W.proc j).arrivalTime = t) :
    j ∈ (chosenAt b W.procs t).queues.getD 0 [] := by
  have hs := mlfqOk_run b W.procs t
  rcases quiet_or_ruleOne b W.procs t with ⟨-, hchosen⟩ | ⟨hdis, -⟩
  · rw [hchosen]
    have hqueue := (hs.boost t).queues_length_pos
    refine (mem_getD_append _ hqueue).mpr ?_
    rcases hj with hold | hnew
    · exact .inl (hs.mem_top_boost hold)
    · refine .inr ⟨rfl, ?_⟩
      rw [arrivals_boost]
      exact mem_arrivals_mlfqAt.mpr hnew
  · exact absurd hdis hquiet

theorem waits_since_arrival (hj : j < W.procs.length) (harr : (W.proc j).arrivalTime ≤ t)
    (hquiet : ∀ u : ℕ, (W.proc j).arrivalTime ≤ u → u ≤ t → ¬ dispatches b W.procs u) :
    j ∈ (chosenAt b W.procs t).queues.getD 0 [] := by
  have hnonneg := W.arrival_nonneg _ (W.proc_mem hj)
  induction t with
  | zero => exact mem_top_of_quiet (hquiet 0 harr le_rfl) (.inr ⟨hj, by omega⟩)
  | succ t ih =>
    have hnow := hquiet (t + 1) harr le_rfl
    by_cases hbefore : (W.proc j).arrivalTime ≤ t
    · have hold := ih hbefore fun u hu hle => hquiet u hu (by omega)
      rw [← (mlfqAt_succ_of_chosen b W.procs t).1] at hold
      exact mem_top_of_quiet hnow (.inl hold)
    · exact mem_top_of_quiet hnow (.inr ⟨hj, by omega⟩)

end Workload

/-- **Rule 1, unless a process arrives in the middle of a slice.**  No waiting process has a higher
priority than the executed one exactly when that one is on the top level or no process has arrived
since the last dispatch.
SOURCE: pkg/cpu/sched_mlfq.go:77-196, pkg/cpu/sched_mlfq.go:15-21, README.md:354-360 -/
theorem mlfq_rule_one_iff (b : ℤ) (W : Workload) (t : ℕ) :
    RuleOne (chosenAt b W.procs t) ↔
      ∀ i, (chosenAt b W.procs t).running = some i →
        ((chosenAt b W.procs t).proc i).currentQueue = 0 ∨
          ∀ j < W.procs.length, (W.proc j).arrivalTime ≤ t →
            ∃ u : ℕ, (W.proc j).arrivalTime ≤ u ∧ u ≤ t ∧ dispatches b W.procs u := by
  constructor
  · intro hrule i hrun
    by_contra hnot
    obtain ⟨hpos, hlate⟩ := not_or.mp hnot
    apply hlate
    intro j hj harr
    by_contra hnone
    have hwaits := waits_since_arrival hj harr fun u hu hle hdis => hnone ⟨u, hu, hle, hdis⟩
    have hle := hrule i hrun j (mem_flatten_of_getD hwaits)
    rw [((mlfqOk_chosenAt b W.procs t).queued 0 j hwaits).1] at hle
    exact hpos (Nat.le_zero.mp hle)
  · intro hlate i hrun j hj
    by_contra hlt
    have hlt := not_le.mp hlt
    obtain ⟨harr, hquiet⟩ := arrived_since_dispatch hrun hj hlt
    have hjlen := (mlfqOk_chosenAt b W.procs t).lt_length hj
    rw [chosenAt, length_schedule, length_mlfqAt] at hjlen
    rcases hlate i hrun with htop | hdispatched
    · omega
    · obtain ⟨u, hu, hle, hdis⟩ := hdispatched j hjlen harr
      exact hquiet u hu hle hdis

/-- A long process alone, and one that arrives when the first is on the second level. -/
def longShort : Workload where
  procs := [newProcess 1 "P1" 0 20, newProcess 2 "P2" 5 1]
  fresh := by decide
  arrival_nonneg := by decide
  burst_pos := by decide

/-- The arrival in tick `5` waits on the top level while the long process goes on below it. -/
theorem mlfq_rule_one_fails_longShort :
    (chosenAt 50 longShort.procs 5).running = some 0 ∧
      ((chosenAt 50 longShort.procs 5).proc 0).currentQueue = 1 ∧
      (chosenAt 50 longShort.procs 5).queues = [[1], [], []] ∧
      ((chosenAt 50 longShort.procs 5).proc 1).currentQueue = 0 ∧
      ¬ RuleOne (chosenAt 50 longShort.procs 5) := by
  refine ⟨by decide, by decide, by decide, by decide, fun hrule => ?_⟩
  exact absurd (hrule 0 (by decide) 1 (by decide)) (by decide)

end OsSimulator.Analysis
