import OsSimulator.Interface.GmpRounds

/-!
# What a round does to threads and goroutines

The parts of a round of `Step` with all that they write to the threads and the goroutines:
which thread takes or loses which goroutine, and what is entered in the goroutine.  A round
for a processor is made of calm parts, which neither block nor add a thread, or is a hand-off
(`stepP_cases`); a round for a thread lets its goroutine wait on or wakes it up
(`wake_cases`).
-/

set_option autoImplicit false

namespace OsSimulator.Interface

open Model Library

/-- One goroutine and one thread have changed. -/
structure Turn (rt rt' : GMPRuntime) (g : ℕ) (newG : Goroutine) (m : ℕ) (newM : OSThread) : Prop
    extends SameBindings rt rt' where
  gCount_eq : rt'.gCount = rt.gCount
  gs_eq : rt'.gs = Function.update rt.gs g newG
  ms_eq : rt'.ms = Function.update rt.ms m newM

/-- **A calm part of a round.** -/
inductive CalmMove (rt rt' : GMPRuntime) : Prop
  | queues (h : SameThreads rt rt')
  | dispatched {p m g : ℕ} (hm : m < rt.numMs) (hpid : (rt.ps p).pid = p)
      (hbound : (rt.ms m).boundP = some p) (hlt : g < rt.gCount)
      (hqueued : ∀ n, (rt.ms n).curG ≠ some g)
      (h : Turn rt rt' g
        { rt.gs g with
          status := .running
          assignedM := (rt.ms m).mid
          assignedP := (rt.ps p).pid }
        m { rt.ms m with curG := some g })
  | worked {p m g : ℕ} (hbound : (rt.ms m).boundP = some p) (hcur : (rt.ms m).curG = some g)
      (hstatus : (rt.gs g).status = .running)
      (h : Turn rt rt' g { rt.gs g with remainingWork := (rt.gs g).remainingWork - 1 }
        m (rt.ms m))
  | finished {p m g : ℕ} (hbound : (rt.ms m).boundP = some p) (hcur : (rt.ms m).curG = some g)
      (hstatus : (rt.gs g).status = .running)
      (h : Turn rt rt' g
        { rt.gs g with remainingWork := (rt.gs g).remainingWork - 1, status := .dead }
        m { rt.ms m with curG := none })

section Parts

variable {rt : GMPRuntime} {p m g : ℕ}

/-- A runnable goroutine is at no thread. -/
theorem GmpInv.not_curG (hrt : GmpInv rt) (hstatus : (rt.gs g).status = .runnable) (n : ℕ) :
    (rt.ms n).curG ≠ some g := by
  intro hcur
  have hknown := hrt.custody.known _ g (mem_curG.mpr hcur)
  simp only [Suits, hstatus] at hknown
  split at hknown
  · cases hknown.1
  · cases hknown.1

/-- The choice of a goroutine is calm. -/
theorem dispatch_calm (hrt : GmpInv rt) (hp : p < rt.numPs) (tick : ℤ) :
    CalmMove rt (rt.dispatch tick p) := by
  obtain ⟨hpid, -, m, hm, hmp⟩ := hrt.processor p hp
  unfold GMPRuntime.dispatch
  simp only [hm]
  split_ifs with hidle
  · rcases hfind : rt.findRunnableG p tick with ⟨next, rt₁⟩
    have hspec := findRunnableG_spec hrt hp tick
    simp only [hfind] at hspec
    rcases hspec with ⟨g, rfl, htakes⟩ | ⟨rfl, hstill, -⟩
    · refine .dispatched (hrt.bound m p hmp).1 hpid hmp htakes.lt_gCount
        (hrt.not_curG htakes.runnable.1) ?_
      refine ⟨⟨htakes.numMs_eq, htakes.numPs_eq, htakes.pid_eq, htakes.runNext_eq,
        htakes.boundM_eq, fun n => ?_⟩, htakes.gCount_eq, ?_, ?_⟩
      · by_cases hn : n = m <;>
          simp [GMPRuntime.modifyG, GMPRuntime.modifyM, hn, htakes.ms_eq]
      · simp [GMPRuntime.modifyG, GMPRuntime.modifyM, htakes.gs_eq, htakes.ms_eq, htakes.pid_eq]
      · simp [GMPRuntime.modifyG, GMPRuntime.modifyM, htakes.ms_eq]
    · exact .queues hstill.toSameThreads
  · exact .queues (SameThreads.refl rt)

/-- The work of a goroutine is calm. -/
theorem work_calm (hrt : GmpInv rt) (hbound : (rt.ms m).boundP = some p)
    (hcur : (rt.ms m).curG = some g) : CalmMove rt (rt.work m g) := by
  obtain ⟨hstatus, -⟩ := hrt.running hbound hcur
  by_cases hlast : (rt.gs g).remainingWork - 1 ≤ 0
  · rw [work_last hstatus hlast]
    refine .finished hbound hcur hstatus
      ⟨{ SameBindings.refl rt with boundP_eq := fun n => ?_ }, rfl, rfl, rfl⟩
    by_cases hn : n = m <;> simp [hn]
  · rw [work_more hstatus hlast]
    exact .worked hbound hcur hstatus ⟨{ SameBindings.refl rt with }, rfl, rfl,
      (Function.update_eq_self ..).symm⟩

/-- The goroutine on processor `p` is at its system call. -/
def MakesSyscall (rt : GMPRuntime) (p : ℕ) : Prop :=
  ∃ m g, (rt.ps p).boundM = some m ∧ (rt.ms m).curG = some g ∧ (rt.gs g).isSyscall ∧
    (rt.gs g).status = .running ∧ (rt.gs g).syscallTicks = 0

theorem Still.makesSyscall_iff {rt' : GMPRuntime} (h : Still rt rt') (p : ℕ) :
    MakesSyscall rt' p ↔ MakesSyscall rt p := by
  unfold MakesSyscall
  rw [h.gs_eq, h.ms_eq, h.boundM_eq]

/-- **A round for a processor** is a hand-off if its goroutine is at a system call, and calm if
not. -/
theorem stepP_cases (hrt : GmpInv rt) (hp : p < rt.numPs) (tick : ℤ) :
    (¬ MakesSyscall rt p ∧ Relation.ReflTransGen CalmMove rt (GMPRuntime.stepP tick rt p)) ∨
      MakesSyscall rt p ∧ ∃ rt₀ m g, Still rt rt₀ ∧ GmpInv rt₀ ∧ (rt₀.ps p).boundM = some m ∧
        (rt₀.ms m).boundP = some p ∧ (rt₀.ms m).curG = some g ∧
        HandedOff rt₀ p m g (GMPRuntime.stepP tick rt p) := by
  have htick := still_tickCount rt p
  unfold GMPRuntime.stepP
  dsimp only
  generalize (rt.modifyP p fun p => { p with tickCount := p.tickCount + 1 }) = rt₀ at htick
  have hinv := hrt.still htick
  rw [← htick.makesSyscall_iff]
  have hp₀ : p < rt₀.numPs := by rwa [htick.numPs_eq]
  have hstart : Relation.ReflTransGen CalmMove rt rt₀ := .single (.queues htick.toSameThreads)
  rw [hinv.bindM_eq hp₀]
  obtain ⟨-, -, m, hm, hmp⟩ := hinv.processor p hp₀
  simp only [hm]
  cases hg : (rt₀.ms m).curG with
  | none =>
    refine .inl ⟨?_, hstart.tail (dispatch_calm hinv hp₀ tick)⟩
    rintro ⟨m', g, hm', hg', -⟩
    obtain rfl := Option.some.inj (hm.symm.trans hm')
    cases hg.symm.trans hg'
  | some g =>
    dsimp only
    split_ifs with hcall
    · exact .inr ⟨⟨m, g, hm, hg, hcall⟩, rt₀, m, g, htick, hinv, hm, hmp, hg,
        handoff_handedOff (hinv.bound m p hmp).1⟩
    · have hahead := (hinv.running hmp hg).2
      have hsyscall : (rt₀.gs g).isSyscall = false := by
        by_contra htrue
        have htrue : (rt₀.gs g).isSyscall = true := by simpa using htrue
        exact hcall ⟨htrue, (hinv.running hmp hg).1, hahead htrue⟩
      obtain ⟨hinv', hmoved, -⟩ := work_spec hinv hmp hg hsyscall
      have hp' : p < (rt₀.work m g).numPs := by rwa [hmoved.numPs_eq]
      refine .inl ⟨?_, (hstart.tail (work_calm hinv hmp hg)).tail (dispatch_calm hinv' hp' tick)⟩
      rintro ⟨m', g', hm', hg', hcall'⟩
      obtain rfl := Option.some.inj (hm.symm.trans hm')
      obtain rfl := Option.some.inj (hg.symm.trans hg')
      exact hcall hcall'

/-- **A round for a thread.** -/
inductive WakeMove (rt : GMPRuntime) (m : ℕ) (rt' : GMPRuntime) : Prop
  | idle (h : rt' = rt)
  | waited {g : ℕ} (hblocked : (rt.ms m).isBlocked = true) (hcur : (rt.ms m).curG = some g)
      (hmore : (rt.gs g).syscallTicks + 1 < 3)
      (h : Turn rt rt' g { rt.gs g with syscallTicks := (rt.gs g).syscallTicks + 1 }
        m (rt.ms m))
  | woken {g : ℕ} (hblocked : (rt.ms m).isBlocked = true) (hcur : (rt.ms m).curG = some g)
      (h : Turn rt rt' g
        { rt.gs g with syscallTicks := 3, status := .runnable, isSyscall := false }
        m { rt.ms m with curG := none, isBlocked := false })

/-- **A wake-up does one of these.** -/
theorem wake_cases (hrt : GmpInv rt) (m : ℕ) : WakeMove rt m (rt.wake m) := by
  by_cases hblocked : (rt.ms m).isBlocked = true
  · obtain ⟨g, hcur⟩ := Option.ne_none_iff_exists'.mp ((hrt.thread m).busy hblocked)
    obtain ⟨-, -, hticks⟩ := hrt.blocked hblocked hcur
    by_cases hlast : (rt.gs g).syscallTicks = 2
    · rw [wake_last hcur hblocked hlast]
      refine .woken hblocked hcur
        ⟨{ SameBindings.refl rt with boundP_eq := fun n => ?_ }, rfl, rfl, rfl⟩
      by_cases hn : n = m <;> simp [hn]
    · rw [wake_more hcur hblocked (by omega)]
      exact .waited hblocked hcur (by omega) ⟨{ SameBindings.refl rt with }, rfl, rfl,
        (Function.update_eq_self ..).symm⟩
  · exact .idle (wake_idle (by simpa using hblocked))

end Parts

end OsSimulator.Interface
