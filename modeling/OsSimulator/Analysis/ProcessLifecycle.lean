import OsSimulator.Interface.ProcessTree
import Mathlib.Data.List.Induction

/-!
# Process lifecycle

Runs of `Fork`, `Exec`, `Exit` and `Wait` on a new process manager, in any order and with any
PIDs.  A call that panics is part of a run: it leaves the state behind that it had reached.

* After every run the table is a tree rooted at init (`processTable_rooted`).
* A zombie has no children, so that its parent is alive, and when all processes but init are
  zombies they are the children of init.  Init then reaps them one by one
  (`zombies_reaped_once`).
* `Fork` and `Exec` read the address space of the process, and `Exit` has taken it away from
  a zombie.  These are the only calls that panic (`call_returns_iff`).
-/

set_option autoImplicit false

namespace OsSimulator.Analysis

open Model Interface Library

variable {pm : ProcessManager}

/-! ## Runs -/

theorem processes_new (pid : ℤ) :
    newProcessManager.processes pid = if pid = 1 then some initProc else none := rfl

theorem tree_new : (familyOf newProcessManager.processes).IsTree 1 := by
  have hparent : ∀ pid, (familyOf newProcessManager.processes).parent pid =
      if pid = 1 then some 0 else none := by
    intro pid
    by_cases h : pid = 1 <;> simp [familyOf, processes_new, h, initProc]
  have hchildren : ∀ pid, (familyOf newProcessManager.processes).children pid = [] := by
    intro pid
    by_cases h : pid = 1 <;> simp [familyOf, processes_new, h, initProc]
  constructor <;> simp [hparent, hchildren]
  omega

theorem tableOk_new : TableOk newProcessManager := by
  refine ⟨rfl, tree_new, ?_, fun pid hpid => absurd rfl hpid⟩
  intro pid p hp
  rw [processes_new] at hp
  split at hp
  · rename_i h
    obtain rfl := Option.some.inj hp
    constructor <;> simp [initProc, newProcessManager, newPageTable, h]
  · cases hp

theorem runCalls_concat (calls : List ProcCall) (c : ProcCall) (pm : ProcessManager) :
    pm.runCalls (calls ++ [c]) =
      ((pm.runCalls calls).1 ++ [((pm.runCalls calls).2.call c).1],
        ((pm.runCalls calls).2.call c).2) := by
  induction calls generalizing pm with
  | nil => rfl
  | cons d calls ih => simp [ProcessManager.runCalls, ih]

/-- **The rule for runs**: what holds at the start and is kept by one more call holds after
every run. -/
theorem runCalls_induction {P : List ProcCall → List (Outcome ProcReply) → ProcessManager → Prop}
    (hnew : P [] [] newProcessManager)
    (hcall : ∀ calls outs pm c o pm', newProcessManager.runCalls calls = (outs, pm) →
      TableOk pm → P calls outs pm → CallEffect pm c o pm' → P (calls ++ [c]) (outs ++ [o]) pm')
    (calls : List ProcCall) :
    TableOk (newProcessManager.runCalls calls).2 ∧
      P calls (newProcessManager.runCalls calls).1 (newProcessManager.runCalls calls).2 := by
  induction calls using List.reverseRecOn with
  | nil => exact ⟨tableOk_new, hnew⟩
  | append_singleton calls c ih =>
    obtain ⟨hok, hP⟩ := ih
    rw [runCalls_concat]
    have heffect := call_effect hok c
    exact ⟨hok.effect heffect, hcall _ _ _ _ _ _ rfl hok hP heffect⟩

theorem tableOk_run (calls : List ProcCall) : TableOk (newProcessManager.runCalls calls).2 :=
  (runCalls_induction (P := fun _ _ _ => True) trivial (fun _ _ _ _ _ _ _ _ _ _ => trivial)
    calls).1

/-! ## The tree -/

/-- The process table is a tree rooted at init, and the two records of parenthood agree. -/
structure RootedAtInit (pm : ProcessManager) : Prop where
  init_live : ∃ init, pm.processes 1 = some init ∧ init.state ≠ .zombie
  parent_present : ∀ pid p, pm.processes pid = some p → pid ≠ 1 →
    p.ppid < pid ∧ ∃ parent, pm.processes p.ppid = some parent ∧ parent.children.count pid = 1
  parent_unique : ∀ pid p, pm.processes pid = some p → pid ≠ 1 →
    ∀ other q, pm.processes other = some q → pid ∈ q.children → other = p.ppid
  children_present : ∀ pid p, pm.processes pid = some p →
    ∀ childPID ∈ p.children, pm.processes childPID ≠ none
  zombies_childless : ∀ pid p, pm.processes pid = some p → p.state = .zombie → p.children = []

theorem TableOk.rootedAtInit (hpm : TableOk pm) : RootedAtInit pm := by
  have hmem : ∀ pid p, pm.processes pid = some p → pid ≠ 1 →
      pid ∈ (familyOf pm.processes).children p.ppid := by
    intro pid p hp hne
    exact (hpm.tree.mem_children p.ppid pid).mpr ⟨hne, familyOf_parent hp⟩
  constructor
  · obtain ⟨init, hinit⟩ := hpm.init_present
    exact ⟨init, hinit, (hpm.procs 1 init hinit).init_live rfl⟩
  · intro pid p hp hne
    obtain ⟨hpresent, hlt⟩ := hpm.tree.parent_lt pid p.ppid (familyOf_parent hp) hne
    rw [Ne, familyOf_parent_eq_none] at hpresent
    obtain ⟨parent, hparent⟩ := Option.ne_none_iff_exists'.mp hpresent
    refine ⟨hlt, parent, hparent, List.count_eq_one_of_mem (hpm.children_nodup hparent) ?_⟩
    rw [← familyOf_children hparent]
    exact hmem pid p hp hne
  · intro pid p hp hne other q hq hc
    rw [← familyOf_children hq] at hc
    exact hpm.tree.parent_unique hc (hmem pid p hp hne)
  · intro pid p hp childPID hc
    obtain ⟨child, hchild, -, -⟩ := hpm.child_present hp hc
    simp [hchild]
  · exact fun pid p hp hz => (hpm.procs pid p hp).childless hz

/-- The PIDs that the process manager has given away so far. -/
def IssuedBelow (outs : List (Outcome ProcReply)) (pm : ProcessManager) : Prop :=
  1 < pm.nextPID ∧ ∀ pid, .ok (.forked pid) ∈ outs → pid < pm.nextPID

variable {o : Outcome ProcReply} {pm' : ProcessManager} {c : ProcCall}

theorem nextPID_le_of_effect (h : CallEffect pm c o pm') : pm.nextPID ≤ pm'.nextPID := by
  cases h <;> first | exact le_rfl | exact (Int.lt_succ _).le

/-- The child gets the next PID, which is then used up. -/
theorem forked_lt_nextPID {pid : ℤ} (h : CallEffect pm c (.ok (.forked pid)) pm') :
    pid < pm'.nextPID := by
  cases h
  exact Int.lt_succ _

theorem eq_of_error {e : ProcError} (h : CallEffect pm c (.error e) pm') : pm' = pm := by
  cases h
  rfl

theorem issuedBelow_run (calls : List ProcCall) :
    IssuedBelow (newProcessManager.runCalls calls).1 (newProcessManager.runCalls calls).2 := by
  refine (runCalls_induction (P := fun _ => IssuedBelow) ?_ ?_ calls).2
  · exact ⟨by decide, by simp⟩
  · rintro - outs pm c o pm' - - ⟨hone, hout⟩ heffect
    have hmono := nextPID_le_of_effect heffect
    refine ⟨by omega, fun pid hpid => ?_⟩
    rcases List.mem_append.mp hpid with hold | hnew
    · exact (hout pid hold).trans_le hmono
    · rw [← List.mem_singleton.mp hnew] at heffect
      exact forked_lt_nextPID heffect

/-- **The process table is a tree rooted at init** after every run; the next PID is one that
was never issued; and a call that returns an error changes nothing. -/
theorem processTable_rooted (calls : List ProcCall) :
    RootedAtInit (newProcessManager.runCalls calls).2 ∧
      IssuedBelow (newProcessManager.runCalls calls).1 (newProcessManager.runCalls calls).2 ∧
      ∀ c e, ((newProcessManager.runCalls calls).2.call c).1 = .error e →
        ((newProcessManager.runCalls calls).2.call c).2 = (newProcessManager.runCalls calls).2 := by
  have hpm := tableOk_run calls
  refine ⟨TableOk.rootedAtInit hpm, issuedBelow_run calls, ?_⟩
  intro c e he
  have heffect := call_effect hpm c
  rw [he] at heffect
  exact eq_of_error heffect

/-! ## Reaping -/

/-- The PID that a `Wait` has reaped. -/
def reapedPID : Outcome ProcReply → Option ℤ
  | .ok (.reaped pid _) => some pid
  | _ => none

/-- What `Wait` has returned so far is pairwise different and out of the table. -/
def ReapedOnce (outs : List (Outcome ProcReply)) (pm : ProcessManager) : Prop :=
  (outs.filterMap reapedPID).Nodup ∧ ∀ pid ∈ outs.filterMap reapedPID, pm.reaped pid ≠ none

theorem reaped_of_effect (hpm : TableOk pm) (h : CallEffect pm c o pm') :
    (∀ pid, pm.reaped pid ≠ none → pm'.reaped pid ≠ none) ∧
      ∀ pid, reapedPID o = some pid → pm.reaped pid = none ∧ pm'.reaped pid ≠ none := by
  cases h with
  | reaped log hp hc hchild hz =>
    rename_i parentPID childPID parent child
    have hnew : pm.reaped childPID = none := by
      by_contra hold
      have hgone := (hpm.reaped_gone childPID hold).1
      rw [hchild] at hgone
      cases hgone
    constructor
    · intro pid hpid
      by_cases hx : pid = childPID
      · simp [hx]
      · simpa [Function.update_of_ne hx] using hpid
    · rintro pid ⟨⟩
      exact ⟨hnew, by simp⟩
  | _ => exact ⟨fun _ h => h, fun pid h => by simp [reapedPID] at h⟩

theorem reapedOnce_run (calls : List ProcCall) :
    ReapedOnce (newProcessManager.runCalls calls).1 (newProcessManager.runCalls calls).2 := by
  refine (runCalls_induction (P := fun _ => ReapedOnce) ?_ ?_ calls).2
  · simp [ReapedOnce]
  · rintro - outs pm c o pm' - hpm ⟨hnodup, hmem⟩ heffect
    obtain ⟨hkeep, hnew⟩ := reaped_of_effect hpm heffect
    unfold ReapedOnce
    rw [List.filterMap_append]
    cases ho : reapedPID o with
    | none =>
      simp only [List.filterMap_cons, ho, List.filterMap_nil, List.append_nil]
      exact ⟨hnodup, fun pid hpid => hkeep pid (hmem pid hpid)⟩
    | some childPID =>
      obtain ⟨hfresh, hgone⟩ := hnew childPID ho
      simp only [List.filterMap_cons, ho, List.filterMap_nil]
      constructor
      · refine List.nodup_append.mpr ⟨hnodup, List.nodup_singleton _, ?_⟩
        rintro pid hpid _ hc rfl
        rw [List.mem_singleton.mp hc] at hpid
        exact hmem childPID hpid hfresh
      · intro pid hpid
        rcases List.mem_append.mp hpid with hold | hc
        · exact hkeep pid (hmem pid hold)
        · rwa [List.mem_singleton.mp hc]

/-- The exit code in the PCB of a process. -/
def exitCodeOf (pm : ProcessManager) (pid : ℤ) : ℤ :=
  (pm.processes pid).elim 0 UnixProcess.exitCode

/-- One `Wait` of init whose first child is a zombie. -/
theorem wait_init_reaps (hpm : TableOk pm) {init p : UnixProcess} {z : ℤ} {zombies : List ℤ}
    (hinit : pm.processes 1 = some init) (hchildren : init.children = z :: zombies)
    (hp : pm.processes z = some p) (hz : p.state = .zombie) :
    ∃ pm₁ init₁, pm.call (.wait 1) = (.ok (.reaped z p.exitCode), pm₁) ∧ TableOk pm₁ ∧
      pm₁.processes 1 = some init₁ ∧ init₁.children = zombies ∧
      ∀ pid, pid ≠ 1 → pm₁.processes pid = if pid = z then none else pm.processes pid := by
  have hmem : z ∈ init.children := by simp [hchildren]
  obtain ⟨log, hwait⟩ := wait_zombie hpm [] hinit hchildren (by simp) hp hz
  refine ⟨_, { init with children := init.children.erase z }, ?_, hpm.reaped log hinit hmem hp hz,
    ?_, by simp [hchildren], ?_⟩
  · simp only [ProcessManager.call, hwait]
    rfl
  · simp [reapTable]
  · intro pid hpid
    simp [reapTable, hpid, Function.update_apply]

/-- **Init reaps its zombies in the order of its child list**, one with each `Wait`, and the
rest of the table stays as it is. -/
theorem wait_init_drains (zombies : List ℤ) {pm : ProcessManager} {init : UnixProcess}
    (hpm : TableOk pm) (hinit : pm.processes 1 = some init) (hchildren : init.children = zombies)
    (hz : ∀ z ∈ zombies, ∃ p, pm.processes z = some p ∧ p.state = .zombie) :
    let r := pm.runCalls (List.replicate zombies.length (.wait 1))
    r.1 = zombies.map (fun z => .ok (.reaped z (exitCodeOf pm z))) ∧
      (∃ init', r.2.processes 1 = some init' ∧ init'.children = []) ∧
      ∀ pid, pid ≠ 1 → r.2.processes pid = if pid ∈ zombies then none else pm.processes pid := by
  induction zombies generalizing pm init with
  | nil => exact ⟨rfl, ⟨init, hinit, hchildren⟩, by simp [ProcessManager.runCalls]⟩
  | cons z zombies ih =>
    obtain ⟨p, hp, hpz⟩ := hz z List.mem_cons_self
    have hnodup := hpm.children_nodup hinit
    rw [hchildren, List.nodup_cons] at hnodup
    have hne1 : ∀ z' ∈ z :: zombies, z' ≠ 1 := by
      intro z' hz'
      obtain ⟨-, -, -, h⟩ := hpm.child_present hinit (hchildren ▸ hz')
      exact h
    obtain ⟨pm₁, init₁, hcall, hok, hinit₁, hchildren₁, hothers⟩ :=
      wait_init_reaps hpm hinit hchildren hp hpz
    -- the other zombies are still there
    have hkept : ∀ z' ∈ zombies, pm₁.processes z' = pm.processes z' := by
      intro z' hz'
      rw [hothers z' (hne1 z' (List.mem_cons_of_mem z hz')), if_neg]
      rintro rfl
      exact hnodup.1 hz'
    have hcodes : ∀ z' ∈ zombies, exitCodeOf pm₁ z' = exitCodeOf pm z' := by
      intro z' hz'
      simp only [exitCodeOf, hkept z' hz']
    obtain ⟨houts, hlast, hrest⟩ := ih hok hinit₁ hchildren₁ fun z' hz' => by
      rw [hkept z' hz']
      exact hz z' (List.mem_cons_of_mem z hz')
    simp only [List.length_cons, List.replicate_succ, ProcessManager.runCalls, hcall]
    refine ⟨?_, hlast, ?_⟩
    · rw [houts, List.map_cons]
      congr 1
      · simp [exitCodeOf, hp]
      · exact List.map_congr_left fun z' hz' => by rw [hcodes z' hz']
    · intro pid hpid
      rw [hrest pid hpid, hothers pid hpid]
      by_cases hpz : pid = z <;> by_cases hpzs : pid ∈ zombies <;> simp [hpz, hpzs]

/-- All processes other than init have exited. -/
def AllExited (pm : ProcessManager) : Prop :=
  ∀ pid p, pm.processes pid = some p → pid ≠ 1 → p.state = .zombie

theorem children_init_of_allExited (hpm : TableOk pm) (hall : AllExited pm) {init : UnixProcess}
    (hinit : pm.processes 1 = some init) (pid : ℤ) :
    pid ∈ init.children ↔ pid ≠ 1 ∧ pm.processes pid ≠ none := by
  constructor
  · intro hc
    obtain ⟨child, hchild, -, hne⟩ := hpm.child_present hinit hc
    exact ⟨hne, by simp [hchild]⟩
  · rintro ⟨hne, hpresent⟩
    -- zombies have no children, so that nobody but init can be the parent
    have hchildless : ∀ q, q ≠ 1 → (familyOf pm.processes).children q = [] := by
      intro q hq
      cases hproc : pm.processes q with
      | none => exact hpm.tree.children_of_absent (familyOf_parent_eq_none.mpr hproc)
      | some p =>
        rw [familyOf_children hproc]
        exact (hpm.procs q p hproc).childless (hall q p hproc hq)
    have hparent := hpm.tree.parent_eq_root hchildless
      (mt familyOf_parent_eq_none.mp hpresent) hne
    rw [← familyOf_children hinit, hpm.tree.mem_children]
    exact ⟨hne, hparent⟩

/-- **No zombie is leaked**: over a whole run no PID is reaped twice, and once all processes
other than init have exited, they are the children of init, which reaps each of them with one
`Wait` and is then alone. -/
theorem zombies_reaped_once (calls : List ProcCall) :
    ((newProcessManager.runCalls calls).1.filterMap reapedPID).Nodup ∧
      (AllExited (newProcessManager.runCalls calls).2 →
        ∃ zombies : List ℤ, zombies.Nodup ∧
          (∀ pid, pid ∈ zombies ↔
            pid ≠ 1 ∧ (newProcessManager.runCalls calls).2.processes pid ≠ none) ∧
          ((newProcessManager.runCalls calls).2.processes 1).map UnixProcess.children =
            some zombies ∧
          let r := (newProcessManager.runCalls calls).2.runCalls
            (List.replicate zombies.length (.wait 1))
          r.1 = zombies.map (fun z =>
              .ok (.reaped z (exitCodeOf (newProcessManager.runCalls calls).2 z))) ∧
            (∀ pid, r.2.processes pid ≠ none ↔ pid = 1) ∧
            (r.2.call (.wait 1)).1 = .error (.noChild 1)) := by
  refine ⟨(reapedOnce_run calls).1, fun hall => ?_⟩
  have hpm := tableOk_run calls
  set pm := (newProcessManager.runCalls calls).2
  obtain ⟨init, hinit⟩ := hpm.init_present
  have hmem := children_init_of_allExited hpm hall hinit
  have hz : ∀ z ∈ init.children, ∃ p, pm.processes z = some p ∧ p.state = .zombie := by
    intro z hz
    obtain ⟨p, hp, -, hne⟩ := hpm.child_present hinit hz
    exact ⟨p, hp, hall z p hp hne⟩
  obtain ⟨houts, ⟨init', hinit', hnil⟩, hrest⟩ := wait_init_drains init.children hpm hinit rfl hz
  refine ⟨init.children, hpm.children_nodup hinit, hmem, by simp [hinit], houts, ?_, ?_⟩
  · intro pid
    by_cases hpid : pid = 1
    · simp [hpid, hinit']
    · rw [hrest pid hpid]
      have := hmem pid
      split <;> simp_all
  · simp only [ProcessManager.call, wait_childless hinit' hnil]
    rfl

/-- Process 3 is a child of process 2; both exit, the parent first, and init reaps the two. -/
theorem zombies_reaped_once_orphan :
    let pm := (newProcessManager.runCalls [.fork 1, .fork 2, .exit 2 7, .exit 3 9]).2
    AllExited pm ∧ (pm.runCalls [.wait 1, .wait 1]).1 = [.ok (.reaped 2 7), .ok (.reaped 3 9)] := by
  have hall : AllExited
      (newProcessManager.runCalls [.fork 1, .fork 2, .exit 2 7, .exit 3 9]).2 := by
    have hpm := tableOk_run [.fork 1, .fork 2, .exit 2 7, .exit 3 9]
    intro pid p hp hne
    have hlt : pid < 4 := (hpm.procs pid p hp).lt_next
    have hgt : 1 < pid := hpm.tree.root_lt pid (by simp [familyOf_parent hp]) hne
    have hstate : ((newProcessManager.runCalls
        [.fork 1, .fork 2, .exit 2 7, .exit 3 9]).2.processes pid).map UnixProcess.state =
          some .zombie := by
      obtain rfl | rfl : pid = 2 ∨ pid = 3 := by omega
      · rfl
      · rfl
    rw [hp] at hstate
    exact Option.some.inj hstate
  obtain ⟨zombies, -, -, hchildren, houts, -, -⟩ := (zombies_reaped_once _).2 hall
  obtain rfl : [2, 3] = zombies := Option.some.inj hchildren
  exact ⟨hall, houts⟩

/-! ## Panics -/

/-- `Fork` or `Exec` of a process that has exited. -/
def onZombie (pm : ProcessManager) : ProcCall → Bool
  | .fork parentPID => (pm.zombieAt parentPID).isSome
  | .exec pid _ _ => (pm.zombieAt pid).isSome
  | .exit _ _ => false
  | .wait _ => false

theorem zombieAt_eq_none {pid : ℤ} {p : UnixProcess} (hp : pm.processes pid = some p) :
    pm.zombieAt pid = none ↔ p.state ≠ .zombie := by
  simp [ProcessManager.zombieAt, hp]

theorem returns_iff_of_effect (hpm : TableOk pm) (h : CallEffect pm c o pm') :
    ((∃ reply, o = .ok reply) ∨ ∃ e, o = .error e ∧ pm' = pm) ↔ onZombie pm c = false := by
  cases h with
  | error e hc =>
    have hlive : onZombie pm c = false := by
      cases c <;> simp_all [onZombie, unserved, ProcessManager.zombieAt]
    simp [hlive]
  | forked log hp has =>
    simpa [onZombie, zombieAt_eq_none hp] using hpm.live_of_space hp has
  | forkPanic hp has =>
    simpa [onZombie, zombieAt_eq_none hp] using (hpm.procs _ _ hp).space.mp has
  | execed log hp has =>
    simpa [onZombie, zombieAt_eq_none hp] using hpm.live_of_space hp has
  | execPanic hp has =>
    simpa [onZombie, zombieAt_eq_none hp] using (hpm.procs _ _ hp).space.mp has
  | exited => simp [onZombie]
  | reaped => simp [onZombie]

/-- **A call returns unless it forks or executes a zombie**: in every reachable state a call
succeeds, or returns an error and changes nothing, exactly when it is not `Fork` or `Exec` of
a process that has exited. -/
theorem call_returns_iff (calls : List ProcCall) (c : ProcCall) :
    let pm := (newProcessManager.runCalls calls).2
    ((∃ reply, (pm.call c).1 = .ok reply) ∨ ∃ e, (pm.call c).1 = .error e ∧ (pm.call c).2 = pm) ↔
      onZombie pm c = false :=
  returns_iff_of_effect (tableOk_run calls) (call_effect (tableOk_run calls) c)

/-- A process that is killed and then forked, as in the debugger, takes the kernel down. -/
theorem call_panics_on_zombie :
    let pm := (newProcessManager.runCalls [.fork 1, .exit 2 0]).2
    (pm.call (.fork 2)).1 = .panic ∧ (pm.call (.exec 2 "sh" [])).1 = .panic := by
  exact ⟨rfl, rfl⟩

end OsSimulator.Analysis
