import OsSimulator.Analysis.ProcessLifecycle
import OsSimulator.Library.EventRun

/-!
# Exit statuses

What `Wait` returns about a process, next to the codes that were passed to the successful
`Exit`s of that process along the run (`exitCodes`).  `Exit` does not look at the state of the
process: on a zombie it succeeds again and stores the new code.  So `Wait` returns the code of
the last `Exit` (`exitRecord_run`), which is the first one exactly where no zombie exits again
(`exitStatus_first_iff`).
-/

set_option autoImplicit false

namespace OsSimulator.Analysis

open Model Interface Library

/-! ## The codes of a run -/

/-- The code of a successful `Exit` of the process. -/
def exitedWith (pid : ℤ) : ProcCall × Outcome ProcReply → Option ℤ
  | (.exit x exitCode, .ok _) => if x = pid then some exitCode else none
  | _ => none

/-- The codes of the successful `Exit`s of the process, in the order of the run. -/
def exitCodes (calls : List ProcCall) (pid : ℤ) : List ℤ :=
  (calls.zip (newProcessManager.runCalls calls).1).filterMap (exitedWith pid)

theorem length_runCalls (calls : List ProcCall) (pm : ProcessManager) :
    (pm.runCalls calls).1.length = calls.length := by
  induction calls generalizing pm with
  | nil => rfl
  | cons c calls ih => simp [ProcessManager.runCalls, ih]

theorem exitCodes_concat (calls : List ProcCall) (c : ProcCall) (pid : ℤ) :
    exitCodes (calls ++ [c]) pid =
      exitCodes calls pid ++
        (exitedWith pid (c, ((newProcessManager.runCalls calls).2.call c).1)).toList := by
  unfold exitCodes
  rw [runCalls_concat, List.zip_append (length_runCalls calls _).symm, List.filterMap_append]
  congr 1

/-! ## One call -/

/-- **What a call can do to the exit status of one process**: `q` is the PCB of `x` after the
call. -/
inductive StatusChange (pm : ProcessManager) (x : ℤ) (q : UnixProcess) : Option ℤ → Prop
  | kept {p : UnixProcess} (hp : pm.processes x = some p) (hstate : q.state = p.state)
      (hcode : q.exitCode = p.exitCode) : StatusChange pm x q none
  | forked (hx : x = pm.nextPID) (hlive : q.state ≠ .zombie) : StatusChange pm x q none
  | exited {p : UnixProcess} (hp : pm.processes x = some p) (hz : q.state = .zombie) :
      StatusChange pm x q (some q.exitCode)

section Step

variable {pm pm' : ProcessManager} {c : ProcCall} {o : Outcome ProcReply}

theorem statusChange_of_effect (h : CallEffect pm c o pm') {x : ℤ} {q : UnixProcess}
    (hx : pm'.processes x = some q) : StatusChange pm x q (exitedWith x (c, o)) := by
  cases h with
  | error e hc =>
    have hnone : exitedWith x (c, .error e) = none := by cases c <;> rfl
    rw [hnone]
    exact .kept hx rfl rfl
  | forked log hp has =>
    rcases eq_some_of_update hx with ⟨hnext, hq⟩ | ⟨-, hx⟩
    · obtain rfl := Option.some.inj hq
      exact .forked hnext (by simp [childOf, ProcessManager.forkedChild])
    · rcases eq_some_of_update hx with ⟨rfl, hq⟩ | ⟨-, hx⟩
      · obtain rfl := Option.some.inj hq
        exact .kept hp rfl rfl
      · exact .kept hx rfl rfl
  | forkPanic hp has => exact .kept hx rfl rfl
  | execed log hp has =>
    rcases eq_some_of_update hx with ⟨rfl, hq⟩ | ⟨-, hx⟩
    · obtain rfl := Option.some.inj hq
      exact .kept hp rfl rfl
    · exact .kept hx rfl rfl
  | execPanic hp has =>
    rcases eq_some_of_update hx with ⟨rfl, hq⟩ | ⟨-, hx⟩
    · obtain rfl := Option.some.inj hq
      exact .kept hp rfl rfl
    · exact .kept hx rfl rfl
  | exited log hp hne =>
    rcases eq_some_of_update hx with ⟨rfl, hq⟩ | ⟨hne, hx⟩
    · obtain rfl := Option.some.inj hq
      simp only [exitedWith, if_pos]
      exact .exited hp rfl
    · obtain ⟨p, _, _, hp, rfl⟩ := eq_some_of_adoptTable hx
      simp only [exitedWith, if_neg hne.symm]
      exact .kept hp rfl rfl
  | reaped log hp hc hchild hz =>
    rcases eq_some_of_update hx with ⟨rfl, hq⟩ | ⟨-, hx⟩
    · obtain rfl := Option.some.inj hq
      exact .kept hp rfl rfl
    · rcases eq_some_of_update hx with ⟨-, hq⟩ | ⟨-, hx⟩
      · cases hq
      · exact .kept hx rfl rfl

/-- Only a process in the table can exit. -/
theorem present_of_exitedWith (h : CallEffect pm c o pm') {x exitCode : ℤ}
    (hexit : exitedWith x (c, o) = some exitCode) :
    c = .exit x exitCode ∧ ∃ p, pm.processes x = some p := by
  cases h with
  | exited log hp hne =>
    simp only [exitedWith] at hexit
    split at hexit
    · next heq =>
        subst heq
        obtain rfl := Option.some.inj hexit
        exact ⟨rfl, _, hp⟩
    · cases hexit
  | error e hc => cases c <;> cases hexit
  | _ => cases hexit

end Step

/-! ## All runs -/

/-- The zombies hold the last codes; a process that has not exited has no code, and neither has
a PID that is still to be issued. -/
structure ExitRecord (calls : List ProcCall) (pm : ProcessManager) : Prop where
  zombie : ∀ pid p, pm.processes pid = some p → p.state = .zombie →
    (exitCodes calls pid).getLast? = some p.exitCode
  live : ∀ pid p, pm.processes pid = some p → p.state ≠ .zombie → exitCodes calls pid = []
  fresh : ∀ pid, pm.nextPID ≤ pid → exitCodes calls pid = []

theorem exitRecord_new : ExitRecord [] newProcessManager := by
  refine ⟨?_, fun _ _ _ _ => rfl, fun _ _ => rfl⟩
  intro pid p hp hz
  rw [processes_new] at hp
  split at hp
  · obtain rfl := Option.some.inj hp
    cases hz
  · cases hp

variable {calls : List ProcCall}

theorem ExitRecord.concat (h : ExitRecord calls (newProcessManager.runCalls calls).2)
    (c : ProcCall) : ExitRecord (calls ++ [c]) (newProcessManager.runCalls (calls ++ [c])).2 := by
  have hpm := tableOk_run calls
  have heffect := call_effect hpm c
  have hcodes := exitCodes_concat calls c
  rw [runCalls_concat]
  set pm := (newProcessManager.runCalls calls).2
  constructor
  · intro pid q hq hz
    have hchange := statusChange_of_effect heffect hq
    rw [hcodes pid]
    generalize exitedWith pid (c, (pm.call c).1) = code at hchange
    cases hchange with
    | kept hp hstate hcode =>
      rw [Option.toList_none, List.append_nil, hcode]
      exact h.zombie pid _ hp (hstate ▸ hz)
    | forked hx hlive => exact absurd hz hlive
    | exited hp _ => rw [Option.toList_some, List.getLast?_concat]
  · intro pid q hq hlive
    have hchange := statusChange_of_effect heffect hq
    rw [hcodes pid]
    generalize exitedWith pid (c, (pm.call c).1) = code at hchange
    cases hchange with
    | kept hp hstate hcode =>
      rw [Option.toList_none, List.append_nil]
      exact h.live pid _ hp (hstate ▸ hlive)
    | forked hx _ =>
      rw [Option.toList_none, List.append_nil]
      exact h.fresh pid hx.ge
    | exited hp hz => exact absurd hz hlive
  · intro pid hpid
    have hle : pm.nextPID ≤ pid := (nextPID_le_of_effect heffect).trans hpid
    rw [hcodes pid, h.fresh pid hle]
    cases hexit : exitedWith pid (c, (pm.call c).1) with
    | none => rfl
    | some exitCode =>
      obtain ⟨-, p, hp⟩ := present_of_exitedWith heffect hexit
      exact absurd (hpm.procs pid p hp).lt_next (not_lt.mpr hle)

theorem exitRecord_run (calls : List ProcCall) :
    ExitRecord calls (newProcessManager.runCalls calls).2 := by
  induction calls using List.reverseRecOn with
  | nil => exact exitRecord_new
  | append_singleton calls c ih => exact ih.concat c

/-- `Wait` returns the code of the last `Exit`. -/
theorem reaped_last {parentPID pid exitCode : ℤ}
    (hwait : ((newProcessManager.runCalls calls).2.call (.wait parentPID)).1 =
      .ok (.reaped pid exitCode)) :
    (exitCodes calls pid).getLast? = some exitCode := by
  have heffect := call_effect (tableOk_run calls) (.wait parentPID)
  rw [hwait] at heffect
  generalize ((newProcessManager.runCalls calls).2.call (.wait parentPID)).2 = pm' at heffect
  cases heffect with
  | reaped log hp hc hchild hz => exact (exitRecord_run calls).zombie pid _ hchild hz

/-! ## One exit for each process -/

/-- `Exit` on a zombie returns an error and changes nothing. -/
def ExitsOnce (calls : List ProcCall) : Prop :=
  ∀ done pid exitCode, done ++ [.exit pid exitCode] <+: calls →
    let pm := (newProcessManager.runCalls done).2
    pm.zombieAt pid ≠ none → ∃ e, pm.call (.exit pid exitCode) = (.error e, pm)

/-- Whatever `Wait` returns about a process is the code of its first `Exit`. -/
def ReapsFirst (calls : List ProcCall) : Prop :=
  ∀ done parentPID pid exitCode, done ++ [.wait parentPID] <+: calls →
    ((newProcessManager.runCalls done).2.call (.wait parentPID)).1 = .ok (.reaped pid exitCode) →
      (exitCodes done pid).head? = some exitCode

/-- No `Exit` is called on a zombie. -/
def NoSecondExit (calls : List ProcCall) : Prop :=
  ∀ done pid exitCode, done ++ [.exit pid exitCode] <+: calls →
    (newProcessManager.runCalls done).2.zombieAt pid = none

/-- `Exit` on a zombie succeeds. -/
theorem exit_zombie_ok {pm : ProcessManager} (hpm : TableOk pm) {pid : ℤ} (exitCode : ℤ)
    (hz : pm.zombieAt pid ≠ none) : (pm.call (.exit pid exitCode)).1 = .ok .done := by
  obtain ⟨p, hp⟩ := Option.ne_none_iff_exists'.mp hz
  obtain ⟨hp, hstate⟩ := zombieAt_eq_some.mp hp
  have hne : pid ≠ 1 := fun h => (hpm.procs pid p hp).init_live h hstate
  obtain ⟨log, hexit⟩ := exit_live hpm exitCode hp hne
  simp only [ProcessManager.call, hexit]
  rfl

theorem exitsOnce_iff (calls : List ProcCall) : ExitsOnce calls ↔ NoSecondExit calls := by
  constructor
  · intro h done pid exitCode hpre
    by_contra hz
    obtain ⟨e, herr⟩ := h done pid exitCode hpre hz
    have hok := exit_zombie_ok (tableOk_run done) exitCode hz
    rw [herr] at hok
    cases hok
  · intro h done pid exitCode hpre pm hz
    exact absurd (h done pid exitCode hpre) hz

/-- A process that exits for the first time was live, and had no code before. -/
theorem exitCodes_length_le (h : NoSecondExit calls) (pid : ℤ) :
    (exitCodes calls pid).length ≤ 1 := by
  induction calls using List.reverseRecOn with
  | nil => exact Nat.zero_le _
  | append_singleton calls c ih =>
    have hbefore : NoSecondExit calls := fun done x exitCode hpre =>
      h done x exitCode (hpre.trans (List.prefix_append ..))
    rw [exitCodes_concat]
    cases hexit : exitedWith pid (c, ((newProcessManager.runCalls calls).2.call c).1) with
    | none =>
      rw [Option.toList_none, List.append_nil]
      exact ih hbefore
    | some exitCode =>
      have heffect := call_effect (tableOk_run calls) c
      obtain ⟨rfl, p, hp⟩ := present_of_exitedWith heffect hexit
      have hlive := (zombieAt_eq_none hp).mp (h calls pid exitCode (List.prefix_refl _))
      rw [(exitRecord_run calls).live pid p hp hlive]
      exact Nat.le_refl 1

theorem reapsFirst_of_noSecondExit (h : NoSecondExit calls) : ReapsFirst calls := by
  intro done parentPID pid exitCode hpre hwait
  have hdone : NoSecondExit done := fun before x code hbefore =>
    h before x code (hbefore.trans ((List.prefix_append ..).trans hpre))
  have hlast := reaped_last hwait
  have hlen := exitCodes_length_le hdone pid
  cases hcodes : exitCodes done pid with
  | nil =>
    rw [hcodes] at hlast
    cases hlast
  | cons first rest =>
    rw [hcodes, List.length_cons] at hlen
    obtain rfl : rest = [] := List.length_eq_zero_iff.mp (by omega)
    rwa [hcodes] at hlast

/-- **A reaped exit status is that of the first exit exactly when no process exits twice.**
After every run, `Wait` returns the code that was passed to the last successful `Exit` of the
process.  Every `Exit` on a zombie is refused, and every status is that of the first `Exit`,
exactly when the run has no `Exit` on a zombie: such a call succeeds and stores its code. -/
theorem exitStatus_first_iff (calls : List ProcCall) :
    (∀ parentPID pid exitCode,
      ((newProcessManager.runCalls calls).2.call (.wait parentPID)).1 =
          .ok (.reaped pid exitCode) →
        (exitCodes calls pid).getLast? = some exitCode) ∧
      (ExitsOnce calls ∧ ReapsFirst calls ↔ NoSecondExit calls) := by
  refine ⟨fun parentPID pid exitCode => reaped_last, ?_, ?_⟩
  · intro h
    exact (exitsOnce_iff calls).mp h.1
  · intro h
    exact ⟨(exitsOnce_iff calls).mpr h, reapsFirst_of_noSecondExit h⟩

/-- A process that has exited with 7 exits again with 9; its parent is told 9. -/
theorem exitStatus_overwritten :
    let calls : List ProcCall := [.fork 1, .exit 2 7, .exit 2 9]
    ((newProcessManager.runCalls calls).2.call (.wait 1)).1 = .ok (.reaped 2 9) ∧
      exitCodes calls 2 = [7, 9] := by
  exact ⟨rfl, rfl⟩

end OsSimulator.Analysis
