import OsSimulator.Analysis.Places

/-!
# Accounts of MLFQ

The account of a process is its level and what it has used of the level's allotment.  `MlfqOk` says
that the queue of a level holds the processes of that level that have some of its allotment left,
and that no process exceeds the allotment of its level.  All phases of a tick keep this, for any
processes and any boost period; an exhausted allotment demotes the process before it can be chosen
again.

What a tick does to one account is one of three things (`MlfqOk.account_tick`): it counts an
execution, alone or after a demotion of the process that was running or a boost.
-/

set_option autoImplicit false

namespace OsSimulator.Analysis

open Model Interface

/-! ## Queues by level -/

section Queues

variable {queues : List (List ℕ)} {i q k : ℕ}

theorem mem_flatten_of_getD (hi : i ∈ queues.getD q []) : i ∈ queues.flatten := by
  by_cases hq : q < queues.length
  · rw [List.getD_eq_getElem _ _ hq] at hi
    exact List.mem_flatten.mpr ⟨_, List.getElem_mem hq, hi⟩
  · rw [List.getD_eq_default _ _ (Nat.not_lt.mp hq)] at hi
    cases hi

theorem exists_getD_of_mem_flatten (hi : i ∈ queues.flatten) :
    ∃ q < queues.length, i ∈ queues.getD q [] := by
  obtain ⟨queue, hqueue, hi⟩ := List.mem_flatten.mp hi
  obtain ⟨q, hq, rfl⟩ := List.getElem_of_mem hqueue
  exact ⟨q, hq, by rwa [List.getD_eq_getElem _ _ hq]⟩

theorem getD_modify_queue (f : List ℕ → List ℕ) (hk : k < queues.length) :
    (queues.modify k f).getD q [] = if q = k then f (queues.getD q []) else queues.getD q [] := by
  simp only [List.getD_eq_getElem?_getD, List.getElem?_modify]
  by_cases hqk : k = q
  · subst hqk
    simp [List.getElem?_eq_getElem hk]
  · simp [hqk, Ne.symm hqk]

theorem mem_getD_append (l : List ℕ) (hk : k < queues.length) :
    i ∈ (queues.modify k (· ++ l)).getD q [] ↔ i ∈ queues.getD q [] ∨ q = k ∧ i ∈ l := by
  rw [getD_modify_queue _ hk]
  split
  · rename_i hqk
    simp [hqk]
  · rename_i hqk
    simp [hqk]

end Queues

/-! ## Accounts -/

/-- `Configs[q].Allotment`. -/
def allotmentAt (configs : List MLFQQueueConfig) (q : ℕ) : ℤ :=
  (configs.getD q ⟨0, 0, 0⟩).allotment

/-- The level of a process and the ticks it was executed on it. -/
def account (p : Process) : ℕ × ℤ := (p.currentQueue, p.allotmentUsed)

@[simp] theorem account_preempt (p : Process) : account p.preempt = account p := rfl

@[simp] theorem account_execute (p : Process) : account p.execute = account p := rfl

@[simp] theorem account_terminate (t : ℤ) (p : Process) : account (p.terminate t) = account p := rfl

@[simp] theorem account_dispatch (t : ℤ) (p : Process) : account (p.dispatch t) = account p := by
  unfold Process.dispatch
  split <;> rfl

/-- A process keeps within the allotment of its level and starts on the top level. -/
structure AccountOk (configs : List MLFQQueueConfig) (p : Process) : Prop where
  nonneg : 0 ≤ p.allotmentUsed
  le_allotment : p.allotmentUsed ≤ allotmentAt configs p.currentQueue
  fresh : p.state = .new → account p = (0, 0)

section Account

variable {configs : List MLFQQueueConfig} {p p' : Process}

theorem account_eq_iff : account p' = account p ↔
    p'.currentQueue = p.currentQueue ∧ p'.allotmentUsed = p.allotmentUsed :=
  Prod.mk.injEq .. ▸ Iff.rfl

theorem AccountOk.of_account_eq (hp : AccountOk configs p) (haccount : account p' = account p)
    (hstate : p'.state = .new → p.state = .new) : AccountOk configs p' := by
  obtain ⟨hlevel, hused⟩ := account_eq_iff.mp haccount
  refine ⟨?_, ?_, fun hnew => haccount.trans (hp.fresh (hstate hnew))⟩
  · rw [hused]
    exact hp.nonneg
  · rw [hused, hlevel]
    exact hp.le_allotment

theorem accountOk_of_zero (hp : p.allotmentUsed = 0)
    (hallot : 0 ≤ allotmentAt configs p.currentQueue)
    (hfresh : p.state = .new → p.currentQueue = 0) : AccountOk configs p := by
  refine ⟨hp.symm.le, hp.trans_le hallot, fun hnew => ?_⟩
  unfold account
  rw [hfresh hnew, hp]

/-- Entering does not change the account: a process that has not arrived is on the top level. -/
theorem AccountOk.account_enter (hp : AccountOk configs p) (t : ℤ) :
    account (MLFQScheduler.enter t p) = account p := by
  unfold MLFQScheduler.enter
  split
  · rename_i harr
    simp only [Process.arrives, Bool.and_eq_true, beq_iff_eq] at harr
    exact (hp.fresh harr.2).symm
  · rfl

end Account

/-! ## The invariant -/

structure MlfqOk (s : MLFQScheduler) : Prop where
  levels : LevelsOk s
  placed : Placed (baseView s.toSchedBase s.queues.flatten)
  allotment_pos : ∀ q < s.numQueues, 0 < allotmentAt s.configs q
  accounts : ∀ i, AccountOk s.configs (s.proc i)
  queued : ∀ q, ∀ i ∈ s.queues.getD q [],
    (s.proc i).currentQueue = q ∧ (s.proc i).allotmentUsed < allotmentAt s.configs q

section Phases

variable {s : MLFQScheduler} {i j : ℕ} {t : ℤ}

theorem MlfqOk.queues_length_pos (hs : MlfqOk s) : 0 < s.queues.length := by
  rw [hs.levels.length_eq]
  exact hs.levels.pos

theorem MlfqOk.lt_length (hs : MlfqOk s) (hi : i ∈ s.queues.flatten) :
    i < s.allProcesses.length :=
  hs.placed.lt_size i (mem_places_of_ready hi)

theorem MlfqOk.running_lt_length (hs : MlfqOk s) (hi : s.running = some i) :
    i < s.allProcesses.length :=
  hs.placed.lt_size i (mem_places_of_running hi)

theorem MlfqOk.ne_running (hs : MlfqOk s) (hi : i ∈ s.queues.flatten)
    (hj : s.running = some j) : i ≠ j := by
  rintro rfl
  exact not_ready_of_running hs.placed.nodup hj hi

/-- The tick starts with a boost. -/
def boosts (s : MLFQScheduler) : Prop := s.ticksSinceBoost + 1 ≥ s.boostPeriod

instance (s : MLFQScheduler) : Decidable (boosts s) := by
  unfold boosts
  infer_instance

theorem boost_of_boosts (hb : boosts s) : s.boost t =
    { s with
      totalTime := t + 1
      boostEvents := s.boostEvents ++ [t]
      ticksSinceBoost := 0
      allProcesses := s.allProcesses.mapIdx fun i p =>
        if i ∈ s.queues.flatten ∨ s.running = some i then MLFQScheduler.toTop p else p
      queues := (List.replicate s.numQueues []).modify 0 (· ++ s.queues.flatten) } :=
  if_pos hb

theorem boost_of_not_boosts (hb : ¬ boosts s) : s.boost t =
    { s with totalTime := t + 1, ticksSinceBoost := s.ticksSinceBoost + 1 } :=
  if_neg hb

theorem MlfqOk.boost (hs : MlfqOk s) (t : ℤ) : MlfqOk (s.boost t) := by
  have hlevels := hs.levels.boost t
  have hplaced := hs.placed.reordered (mlfq_boost_reordered t s hs.levels)
  by_cases hb : boosts s
  · rw [boost_of_boosts hb] at hlevels hplaced ⊢
    have htop := hs.allotment_pos 0 hs.levels.pos
    refine ⟨hlevels, hplaced, hs.allotment_pos, ?_, ?_⟩
    · refine forall_getD_mapIdx (P := AccountOk s.configs) (fun i p hp => ?_) hs.accounts
      split
      · exact accountOk_of_zero rfl htop.le fun _ => rfl
      · exact hp
    · intro q i hi
      have hlen : 0 < (List.replicate s.numQueues ([] : List ℕ)).length := by
        rw [List.length_replicate]
        exact hs.levels.pos
      rcases (mem_getD_append s.queues.flatten hlen).mp hi with hold | ⟨rfl, hready⟩
      · have := mem_flatten_of_getD hold
        simp at this
      · have hproc : (s.allProcesses.mapIdx fun i p =>
            if i ∈ s.queues.flatten ∨ s.running = some i then MLFQScheduler.toTop p else p).getD i
              default = MLFQScheduler.toTop (s.proc i) := by
          rw [getD_mapIdx _ (hs.lt_length hready), if_pos (.inl hready)]
          rfl
        unfold SchedBase.proc
        rw [hproc]
        exact ⟨rfl, htop⟩
  · rw [boost_of_not_boosts hb] at hlevels hplaced ⊢
    exact ⟨hlevels, hplaced, hs.allotment_pos, hs.accounts, hs.queued⟩

theorem MlfqOk.account_arrive (hs : MlfqOk s) (hi : i < s.allProcesses.length) :
    account ((s.arrive t).proc i) = account (s.proc i) := by
  unfold MLFQScheduler.arrive addWaiting SchedBase.proc
  rw [getD_mapIdx _ (by simpa using hi), getD_map _ hi]
  exact (hs.accounts i).account_enter t

theorem MlfqOk.arrive (hs : MlfqOk s) (t : ℤ) : MlfqOk (s.arrive t) := by
  refine ⟨hs.levels.arrive t, hs.placed.arrived (mlfq_arrived t s hs.levels), hs.allotment_pos,
    ?_, ?_⟩
  · refine forall_getD_mapIdx (P := AccountOk s.configs) (fun _ p hp => ?_) ?_
    · exact hp.of_account_eq rfl id
    · refine forall_getD_map (P := AccountOk s.configs) (fun p hp => ?_) hs.accounts
      refine hp.of_account_eq (hp.account_enter t) ?_
      unfold MLFQScheduler.enter
      split
      · intro hnew
        cases hnew
      · exact id
  · intro q i hi
    rcases (mem_getD_append (arrivals t s.allProcesses) hs.queues_length_pos).mp hi with
      hold | ⟨rfl, hnew⟩
    · obtain ⟨hlevel, hused⟩ := account_eq_iff.mp
        (hs.account_arrive (t := t) (hs.lt_length (mem_flatten_of_getD hold)))
      rw [hlevel, hused]
      exact hs.queued q i hold
    · obtain ⟨hlt, harr⟩ := List.mem_filter.mp hnew
      have hlt := List.mem_range.mp hlt
      simp only [Process.arrives, Bool.and_eq_true, beq_iff_eq] at harr
      have hfresh := (hs.account_arrive (t := t) hlt).trans ((hs.accounts i).fresh harr.2)
      obtain ⟨hlevel, hused⟩ := Prod.mk.inj hfresh
      rw [hlevel, hused]
      exact ⟨rfl, hs.allotment_pos 0 hs.levels.pos⟩

/-- A modification that keeps all accounts. -/
theorem account_modify {l : List Process} {f : Process → Process}
    (hf : ∀ p, account (f p) = account p) (hi : i < l.length) :
    account ((l.modify j f).getD i default) = account (l.getD i default) := by
  rw [getD_modify f hi]
  split
  · exact hf _
  · rfl

theorem MlfqOk.requeue (hs : MlfqOk s) (hrun : s.running = some j)
    (hleft : (s.proc j).allotmentUsed < allotmentAt s.configs (s.proc j).currentQueue) :
    MlfqOk (MLFQScheduler.requeue j s) := by
  have hq : (s.proc j).currentQueue < s.queues.length := by
    rw [hs.levels.length_eq]
    exact hs.levels.level_lt j
  have hpre : Preempted (baseView s.toSchedBase s.queues.flatten)
      (baseView (MLFQScheduler.requeue j s).toSchedBase
        (MLFQScheduler.requeue j s).queues.flatten) :=
    preempted_preempt s.toSchedBase _ j Process.preempt hrun rfl rfl rfl (fun _ => rfl)
      ((flatten_modify_append hq [j]).trans (List.perm_append_singleton j _))
  have haccount : ∀ i < s.allProcesses.length,
      account ((MLFQScheduler.requeue j s).proc i) = account (s.proc i) := fun i hi =>
    account_modify account_preempt hi
  refine ⟨hs.levels.requeue j, hs.placed.preempted hpre, hs.allotment_pos, ?_, ?_⟩
  · refine forall_getD_modify_at ?_ hs.accounts
    exact (hs.accounts j).of_account_eq rfl fun hnew => by cases hnew
  · intro q i hi
    rcases (mem_getD_append [j] hq).mp hi with hold | ⟨rfl, hlast⟩
    · obtain ⟨hlevel, hused⟩ := account_eq_iff.mp
        (haccount i (hs.lt_length (mem_flatten_of_getD hold)))
      rw [hlevel, hused]
      exact hs.queued q i hold
    · obtain rfl := List.mem_singleton.mp hlast
      obtain ⟨hlevel, hused⟩ := account_eq_iff.mp (haccount i (hs.running_lt_length hrun))
      rw [hlevel, hused]
      exact ⟨rfl, hleft⟩

theorem MlfqOk.demote (hs : MlfqOk s) (hrun : s.running = some j) :
    MlfqOk
      { s with allProcesses := s.allProcesses.modify j (MLFQScheduler.demote s.numQueues) } := by
  have hstate : (s.proc j).state ≠ .new := hs.placed.entered j (mem_places_of_running hrun)
  have hlevel : (MLFQScheduler.demote s.numQueues (s.proc j)).currentQueue < s.numQueues :=
    demote_level_lt (hs.levels.level_lt j)
  refine ⟨⟨hs.levels.pos, hs.levels.length_eq, ?_⟩, ?_, hs.allotment_pos, ?_, ?_⟩
  · exact forall_getD_modify_at (P := fun p => p.currentQueue < s.numQueues) hlevel
      hs.levels.level_lt
  · -- the level and the allotment are invisible in the view
    have hplaced := hs.placed
    rwa [← baseView_modify s.toSchedBase s.queues.flatten j (MLFQScheduler.demote s.numQueues)
      fun _ => rfl] at hplaced
  · refine forall_getD_modify_at ?_ hs.accounts
    exact accountOk_of_zero rfl (hs.allotment_pos _ hlevel).le fun hnew => absurd hnew hstate
  · intro q i hi
    have hready := mem_flatten_of_getD hi
    unfold SchedBase.proc
    rw [getD_modify _ (hs.lt_length hready), if_neg (hs.ne_running hready hrun)]
    exact hs.queued q i hi

/-- The process in the slot has some of its allotment left. -/
def Runnable (s : MLFQScheduler) : Prop := ∀ j, s.running = some j →
  (s.proc j).allotmentUsed < allotmentAt s.configs (s.proc j).currentQueue

theorem MlfqOk.expire (hs : MlfqOk s) : MlfqOk s.expire ∧ Runnable s.expire := by
  unfold MLFQScheduler.expire
  split
  · rename_i j hrun
    dsimp only
    split
    · have hdemoted := hs.demote hrun
      have hproc : (s.allProcesses.modify j (MLFQScheduler.demote s.numQueues)).getD j default =
          MLFQScheduler.demote s.numQueues (s.proc j) := by
        rw [getD_modify _ (hs.running_lt_length hrun), if_pos rfl]
        rfl
      refine ⟨hdemoted.requeue hrun ?_, fun k hk => by cases hk⟩
      unfold SchedBase.proc
      rw [hproc]
      exact hs.allotment_pos _ (demote_level_lt (hs.levels.level_lt j))
    · rename_i hleft
      split
      · exact ⟨hs.requeue hrun (not_le.mp hleft), fun k hk => by cases hk⟩
      · refine ⟨hs, fun k hk => ?_⟩
        obtain rfl : j = k := Option.some.inj (hrun.symm.trans hk)
        exact not_le.mp hleft
  · rename_i hrun
    exact ⟨hs, fun k hk => by rw [hrun] at hk; cases hk⟩

theorem account_expire (hi : i < s.allProcesses.length) :
    account (s.expire.proc i) = account (s.proc i) ∨
      s.running = some i ∧
        allotmentAt s.configs (s.proc i).currentQueue ≤ (s.proc i).allotmentUsed ∧
        account (s.expire.proc i) = account (MLFQScheduler.demote s.numQueues (s.proc i)) := by
  unfold MLFQScheduler.expire
  split
  · rename_i j hrun
    dsimp only
    split
    · rename_i hused
      have hback : account ((MLFQScheduler.requeue j
          { s with
            allProcesses := s.allProcesses.modify j (MLFQScheduler.demote s.numQueues) }).proc i) =
          account ((s.allProcesses.modify j (MLFQScheduler.demote s.numQueues)).getD i default) :=
        account_modify account_preempt (by simpa using hi)
      rw [hback, getD_modify _ hi]
      by_cases hij : i = j
      · subst hij
        rw [if_pos rfl]
        exact .inr ⟨hrun, hused, rfl⟩
      · rw [if_neg hij]
        exact .inl rfl
    · split
      · exact .inl (account_modify account_preempt hi)
      · exact .inl rfl
  · exact .inl rfl

theorem account_pick (hi : i < s.allProcesses.length) :
    account ((s.pick t).proc i) = account (s.proc i) := by
  unfold MLFQScheduler.pick
  split
  · rfl
  · split
    · rfl
    · exact account_modify (account_dispatch t) hi

/-- The process that is picked comes from the first queue that is not empty. -/
theorem pick_cases (t : ℤ) (s : MLFQScheduler) :
    s.pick t = s ∧ (s.running = none → s.queues.flatten = []) ∨
      s.running = none ∧ ∃ q i rest, s.queues.getD q [] = i :: rest ∧
        (∀ r < q, s.queues.getD r [] = []) ∧ s.pick t = { s with
          toSchedBase := s.toSchedBase.dispatch t i
          queues := s.queues.modify q List.tail
          currentSlice := 0 } := by
  unfold MLFQScheduler.pick
  split
  · rename_i j hrun
    exact .inl ⟨rfl, fun hnone => by rw [hrun] at hnone; cases hnone⟩
  · rename_i hrun
    split
    · rename_i hfind
      refine .inl ⟨rfl, fun _ => List.flatten_eq_nil_iff.mpr fun queue hqueue => ?_⟩
      simpa using List.findIdx?_eq_none_iff.mp hfind queue hqueue
    · rename_i q hfind
      obtain ⟨hq, hne, hbefore⟩ := List.findIdx?_eq_some_iff_getElem.mp hfind
      have hget : s.queues.getD q [] = s.queues[q] := List.getD_eq_getElem _ _ hq
      obtain ⟨i, rest, hqueue⟩ := List.exists_cons_of_length_pos (of_decide_eq_true hne)
      refine .inr ⟨hrun, q, i, rest, hget.trans hqueue, fun r hr => ?_, ?_⟩
      · rw [List.getD_eq_getElem _ _ (hr.trans hq)]
        simpa using hbefore r hr
      · rw [hget, hqueue]
        rfl

theorem MlfqOk.pick (hs : MlfqOk s) (hready : Runnable s) (t : ℤ) :
    MlfqOk (s.pick t) ∧ Runnable (s.pick t) := by
  have hlevels := hs.levels.pick t
  have hplaced := hs.placed.dispatched (mlfq_dispatched t s)
  have haccount : ∀ i < s.allProcesses.length,
      account ((s.pick t).proc i) = account (s.proc i) := fun i hi => account_pick hi
  rcases pick_cases t s with ⟨hstay, -⟩ | ⟨hrun, q, i, rest, hqueue, -, hpick⟩
  · rw [hstay]
    exact ⟨hs, hready⟩
  · have hhead : i ∈ s.queues.getD q [] := by
      rw [hqueue]
      exact List.mem_cons_self
    have hi := hs.lt_length (mem_flatten_of_getD hhead)
    have hq : q < s.queues.length := by
      by_contra hge
      rw [List.getD_eq_default _ _ (Nat.not_lt.mp hge)] at hhead
      cases hhead
    rw [hpick] at hlevels hplaced haccount ⊢
    refine ⟨⟨hlevels, hplaced, hs.allotment_pos, ?_, ?_⟩, ?_⟩
    · refine forall_getD_modify_at ?_ hs.accounts
      refine (hs.accounts i).of_account_eq (account_dispatch t _) fun hnew => ?_
      unfold Process.dispatch at hnew
      split at hnew <;> cases hnew
    · intro r k hk
      have hold : k ∈ s.queues.getD r [] := by
        have hk : k ∈ (s.queues.modify q List.tail).getD r [] := hk
        rw [getD_modify_queue _ hq] at hk
        split at hk
        · exact List.mem_of_mem_tail hk
        · exact hk
      obtain ⟨hlevel, hused⟩ := account_eq_iff.mp
        (haccount k (hs.lt_length (mem_flatten_of_getD hold)))
      rw [hlevel, hused]
      exact hs.queued r k hold
    · intro k hk
      obtain rfl : i = k := Option.some.inj hk
      obtain ⟨hlevel, hused⟩ := account_eq_iff.mp (haccount i hi)
      obtain ⟨hq', hlt⟩ := hs.queued q i hhead
      rw [hlevel, hused, hq']
      exact hlt

theorem MlfqOk.schedule (hs : MlfqOk s) (t : ℤ) :
    MlfqOk (s.schedule t) ∧ Runnable (s.schedule t) := by
  obtain ⟨hexpire, hready⟩ := ((hs.boost t).arrive t).expire
  exact hexpire.pick hready t

/-- A step that leaves the set-up and the record of the boosts alone. -/
structure SameSetup (s s' : MLFQScheduler) : Prop where
  numQueues_eq : s'.numQueues = s.numQueues
  configs_eq : s'.configs = s.configs
  boostEvents_eq : s'.boostEvents = s.boostEvents

theorem SameSetup.trans {s₁ s₂ s₃ : MLFQScheduler} (h : SameSetup s₁ s₂) (h' : SameSetup s₂ s₃) :
    SameSetup s₁ s₃ :=
  ⟨h'.numQueues_eq.trans h.numQueues_eq, h'.configs_eq.trans h.configs_eq,
    h'.boostEvents_eq.trans h.boostEvents_eq⟩

theorem expire_sameSetup (s : MLFQScheduler) : SameSetup s s.expire := by
  unfold MLFQScheduler.expire
  split
  · dsimp only
    split
    · exact ⟨rfl, rfl, rfl⟩
    · split <;> exact ⟨rfl, rfl, rfl⟩
  · exact ⟨rfl, rfl, rfl⟩

theorem pick_sameSetup (t : ℤ) (s : MLFQScheduler) : SameSetup s (s.pick t) := by
  rcases pick_cases t s with ⟨hstay, -⟩ | ⟨-, q, i, rest, -, -, hpick⟩
  · rw [hstay]
    exact ⟨rfl, rfl, rfl⟩
  · rw [hpick]
    exact ⟨rfl, rfl, rfl⟩

theorem tick_queues (t : ℤ) (s : MLFQScheduler) : (s.tick t).queues = (s.schedule t).queues := by
  unfold MLFQScheduler.tick
  dsimp only
  split <;> rfl

theorem tick_sameSetup (t : ℤ) (s : MLFQScheduler) : SameSetup (s.schedule t) (s.tick t) := by
  unfold MLFQScheduler.tick
  dsimp only
  split <;> exact ⟨rfl, rfl, rfl⟩

/-- Only the boost of a tick is recorded. -/
theorem boost_tick_sameSetup (t : ℤ) (s : MLFQScheduler) : SameSetup (s.boost t) (s.tick t) := by
  have harrive : SameSetup (s.boost t) ((s.boost t).arrive t) := ⟨rfl, rfl, rfl⟩
  exact ((harrive.trans (expire_sameSetup _)).trans (pick_sameSetup t _)).trans (tick_sameSetup t s)

theorem account_executed (label : Process → String) (t : ℤ) (b : SchedBase)
    (hi : i < b.allProcesses.length) :
    account ((b.execute label t).proc i) = account (b.proc i) := by
  unfold SchedBase.execute
  split
  · rename_i j _
    have hexe : account ((b.allProcesses.modify j Process.execute).getD i default) =
        account (b.proc i) := account_modify account_execute hi
    dsimp only
    split
    · exact (account_modify (account_terminate t) (by simpa using hi)).trans hexe
    · exact hexe
  · rfl

/-- The execution half counts the tick for the process in the slot. -/
theorem account_counted (hi : i < (s.schedule t).allProcesses.length) :
    account ((s.tick t).proc i) = (((s.schedule t).proc i).currentQueue,
      ((s.schedule t).proc i).allotmentUsed +
        if (s.schedule t).running = some i then 1 else 0) := by
  unfold MLFQScheduler.tick
  generalize s.schedule t = a at hi ⊢
  dsimp only
  cases hrun : a.running with
  | none =>
    dsimp only
    rw [account_executed _ t _ hi, if_neg (by simp), Int.add_zero]
    rfl
  | some j =>
    dsimp only
    rw [account_executed _ t _ (by simpa using hi)]
    unfold SchedBase.proc
    rw [getD_modify _ hi]
    by_cases hij : i = j
    · rw [if_pos hij, if_pos (by rw [hij])]
      rfl
    · rw [if_neg hij, if_neg (by simpa using Ne.symm hij), Int.add_zero]
      rfl

theorem MlfqOk.tick (hs : MlfqOk s) (t : ℤ) : MlfqOk (s.tick t) := by
  obtain ⟨hmid, hready⟩ := hs.schedule t
  have hplaced := hmid.placed.executed (executed_tick t (.mlfq s) hmid.placed.inRange)
  obtain ⟨hnum, hconfigs, -⟩ := tick_sameSetup t s
  refine ⟨hs.levels.tick t, hplaced, ?_, ?_, ?_⟩
  · rw [hnum, hconfigs]
    exact hmid.allotment_pos
  · rw [hconfigs]
    unfold MLFQScheduler.tick
    generalize s.schedule t = a at hmid hready
    have hkept : ∀ b : SchedBase, (∀ i, AccountOk a.configs (b.proc i)) →
        ∀ i, AccountOk a.configs ((b.execute MLFQScheduler.label t).proc i) := fun b hb =>
      forall_proc_execute _ t b (fun p hp => hp.of_account_eq rfl id)
        (fun p hp => hp.of_account_eq rfl fun hnew => by cases hnew) hb
    dsimp only
    split
    · exact hkept _ hmid.accounts
    · rename_i j hrun
      have hj := hmid.accounts j
      have hstate : (a.proc j).state ≠ .new := hmid.placed.entered j (mem_places_of_running hrun)
      refine hkept _ (forall_getD_modify_at ⟨?_, hready j hrun, fun hnew => absurd hnew hstate⟩
        hmid.accounts)
      exact le_trans hj.nonneg (Int.le_add_one le_rfl)
  · intro q i hi
    rw [tick_queues] at hi
    have hmem := mem_flatten_of_getD hi
    have hne : (s.schedule t).running ≠ some i := fun hrun => hmid.ne_running hmem hrun rfl
    have hcount := account_counted (hmid.lt_length hmem)
    rw [if_neg hne, Int.add_zero] at hcount
    obtain ⟨hlevel, hused⟩ := Prod.mk.inj hcount
    rw [hlevel, hused, hconfigs]
    exact hmid.queued q i hi

theorem length_boost (t : ℤ) (s : MLFQScheduler) :
    (s.boost t).allProcesses.length = s.allProcesses.length := by
  unfold MLFQScheduler.boost
  dsimp only
  split
  · exact List.length_mapIdx
  · rfl

theorem length_arrive (t : ℤ) (s : MLFQScheduler) :
    (s.arrive t).allProcesses.length = s.allProcesses.length := by
  unfold MLFQScheduler.arrive addWaiting
  rw [List.length_mapIdx, List.length_map]

theorem length_expire (s : MLFQScheduler) :
    s.expire.allProcesses.length = s.allProcesses.length := by
  unfold MLFQScheduler.expire MLFQScheduler.requeue
  split
  · dsimp only
    split
    · rw [List.length_modify, List.length_modify]
    · split
      · rw [List.length_modify]
      · rfl
  · rfl

theorem length_pick (t : ℤ) (s : MLFQScheduler) :
    (s.pick t).allProcesses.length = s.allProcesses.length := by
  rcases pick_cases t s with ⟨hstay, -⟩ | ⟨-, q, i, rest, -, -, hpick⟩
  · rw [hstay]
  · rw [hpick]
    exact List.length_modify ..

theorem length_execute (label : Process → String) (t : ℤ) (b : SchedBase) :
    (b.execute label t).allProcesses.length = b.allProcesses.length := by
  unfold SchedBase.execute
  split
  · dsimp only
    split
    · rw [List.length_modify, List.length_modify]
    · rw [List.length_modify]
  · rfl

theorem length_schedule (t : ℤ) (s : MLFQScheduler) :
    (s.schedule t).allProcesses.length = s.allProcesses.length := by
  unfold MLFQScheduler.schedule
  rw [length_pick, length_expire, length_arrive, length_boost]

theorem length_tick (t : ℤ) (s : MLFQScheduler) :
    (s.tick t).allProcesses.length = s.allProcesses.length := by
  rw [← length_schedule t s]
  unfold MLFQScheduler.tick
  dsimp only
  split
  · exact length_execute _ _ _
  · exact (length_execute _ _ _).trans (List.length_modify ..)

/-- A boost clears the accounts of the processes in the queues and in the slot. -/
theorem account_boost (hi : i < s.allProcesses.length) :
    account ((s.boost t).proc i) = account (s.proc i) ∧ (boosts s → s.running ≠ some i) ∨
      boosts s ∧ account ((s.boost t).proc i) = (0, 0) := by
  by_cases hb : boosts s
  · rw [boost_of_boosts hb]
    unfold SchedBase.proc
    rw [getD_mapIdx _ hi]
    split
    · exact .inr ⟨hb, rfl⟩
    · rename_i hout
      exact .inl ⟨rfl, fun _ hrun => hout (.inr hrun)⟩
  · rw [boost_of_not_boosts hb]
    exact .inl ⟨rfl, fun hb' => absurd hb' hb⟩

theorem boost_configs (t : ℤ) (s : MLFQScheduler) :
    (s.boost t).configs = s.configs ∧ (s.boost t).numQueues = s.numQueues := by
  unfold MLFQScheduler.boost
  dsimp only
  split <;> exact ⟨rfl, rfl⟩

theorem account_demote_congr {n : ℕ} {p p' : Process} (h : account p' = account p) :
    account (MLFQScheduler.demote n p') = account (MLFQScheduler.demote n p) := by
  unfold account MLFQScheduler.demote
  rw [(account_eq_iff.mp h).1]

/-- The choice of a process keeps an account, demotes the running process that has used up its
allotment, or starts with a boost. -/
theorem MlfqOk.account_schedule (hs : MlfqOk s) (hi : i < s.allProcesses.length) (t : ℤ) :
    account ((s.schedule t).proc i) = account (s.proc i) ∨
      (s.running = some i ∧
        allotmentAt s.configs (s.proc i).currentQueue ≤ (s.proc i).allotmentUsed ∧
        account ((s.schedule t).proc i) =
          account (MLFQScheduler.demote s.numQueues (s.proc i))) ∨
      boosts s ∧ account ((s.schedule t).proc i) = (0, 0) := by
  have hboost := hs.boost t
  have hlen : i < (s.boost t).allProcesses.length := by
    rw [length_boost]
    exact hi
  have hlen' : i < ((s.boost t).arrive t).allProcesses.length := by
    rw [length_arrive]
    exact hlen
  have harrive := hboost.account_arrive (t := t) hlen
  have hpick : account ((s.schedule t).proc i) =
      account (((s.boost t).arrive t).expire.proc i) :=
    account_pick (by rw [length_expire]; exact hlen')
  obtain ⟨hconfigs, hnum⟩ := boost_configs t s
  rw [hpick]
  rcases account_expire hlen' with hkeep | ⟨hrun, hused, hdemoted⟩
  · rw [hkeep, harrive]
    rcases account_boost (t := t) hi with ⟨hsame, -⟩ | htop
    · exact .inl hsame
    · exact .inr (.inr htop)
  · have hrun : (s.boost t).running = some i := hrun
    rw [boost_running] at hrun
    have hused : allotmentAt (s.boost t).configs (((s.boost t).arrive t).proc i).currentQueue ≤
        (((s.boost t).arrive t).proc i).allotmentUsed := hused
    rw [(account_eq_iff.mp harrive).1, (account_eq_iff.mp harrive).2, hconfigs] at hused
    rcases account_boost (t := t) hi with ⟨hsame, -⟩ | ⟨-, htop⟩
    · rw [(account_eq_iff.mp hsame).1, (account_eq_iff.mp hsame).2] at hused
      refine .inr (.inl ⟨hrun, hused, ?_⟩)
      rw [hdemoted, account_demote_congr (harrive.trans hsame), ← hnum]
      rfl
    · -- a boosted process has its whole allotment left
      obtain ⟨hlevel, hzero⟩ := Prod.mk.inj htop
      rw [hlevel, hzero] at hused
      exact absurd hused (not_le.mpr (hs.allotment_pos 0 hs.levels.pos))

/-- **What one tick does to an account**: it counts the execution, after a demotion or a boost if
there is one. -/
theorem MlfqOk.account_tick (hs : MlfqOk s) (hi : i < s.allProcesses.length) (t : ℤ) :
    let counted : ℤ := if (s.schedule t).running = some i then 1 else 0
    account ((s.tick t).proc i) =
        ((s.proc i).currentQueue, (s.proc i).allotmentUsed + counted) ∨
      (s.running = some i ∧
        allotmentAt s.configs (s.proc i).currentQueue ≤ (s.proc i).allotmentUsed ∧
        account ((s.tick t).proc i) =
          ((MLFQScheduler.demote s.numQueues (s.proc i)).currentQueue, counted)) ∨
      boosts s ∧ account ((s.tick t).proc i) = (0, counted) := by
  intro counted
  have hcount : account ((s.tick t).proc i) = (((s.schedule t).proc i).currentQueue,
      ((s.schedule t).proc i).allotmentUsed + counted) := by
    apply account_counted
    rw [length_schedule]
    exact hi
  rw [hcount]
  rcases hs.account_schedule hi t with hsame | ⟨hrun, hused, hdemoted⟩ | ⟨hb, htop⟩
  · rw [(account_eq_iff.mp hsame).1, (account_eq_iff.mp hsame).2]
    exact .inl rfl
  · rw [(account_eq_iff.mp hdemoted).1, (account_eq_iff.mp hdemoted).2]
    exact .inr (.inl ⟨hrun, hused, Prod.ext rfl (Int.zero_add counted)⟩)
  · obtain ⟨hlevel, hzero⟩ := Prod.mk.inj htop
    rw [hlevel, hzero]
    exact .inr (.inr ⟨hb, Prod.ext rfl (Int.zero_add counted)⟩)

end Phases

end OsSimulator.Analysis
