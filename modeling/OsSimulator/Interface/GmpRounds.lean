import OsSimulator.Interface.GmpPlaces

/-!
# The rounds of `Step`

`Lives` is the life of a goroutine as a transition relation: it is dispatched, works and
finishes, and once in its life it may hand off its processor, wait in a system call and wake
up.  Every part of a round of the loops of `Step` keeps the invariant and is one transition of
one goroutine (`Moved`), or nothing happens.
-/

set_option autoImplicit false

namespace OsSimulator.Interface

open Model Library

/-- **One transition in the life of a goroutine.** -/
inductive Lives (g : Goroutine) : Goroutine → Prop
  | dispatched (m p : ℤ) (hstatus : g.status = .runnable) :
      Lives g { g with status := .running, assignedM := m, assignedP := p }
  | worked (hstatus : g.status = .running) (hsyscall : g.isSyscall = false)
      (hmore : ¬ g.remainingWork - 1 ≤ 0) :
      Lives g { g with remainingWork := g.remainingWork - 1 }
  | finished (hstatus : g.status = .running) (hsyscall : g.isSyscall = false)
      (hlast : g.remainingWork - 1 ≤ 0) :
      Lives g { g with remainingWork := g.remainingWork - 1, status := .dead }
  | handedOff (hstatus : g.status = .running) (hsyscall : g.isSyscall = true)
      (hticks : g.syscallTicks = 0) :
      Lives g { g with status := .syscall }
  | waited (hstatus : g.status = .syscall) (hmore : g.syscallTicks + 1 < 3) :
      Lives g { g with syscallTicks := g.syscallTicks + 1 }
  | woken (hstatus : g.status = .syscall) (hsyscall : g.isSyscall = true)
      (hticks : g.syscallTicks = 2) :
      Lives g { g with syscallTicks := 3, status := .runnable, isSyscall := false }

/-- One goroutine has moved on. -/
structure Moved (rt rt' : GMPRuntime) (g : ℕ) : Prop where
  gCount_eq : rt'.gCount = rt.gCount
  numPs_eq : rt'.numPs = rt.numPs
  lt_gCount : g < rt.gCount
  others : ∀ x, x ≠ g → rt'.gs x = rt.gs x
  lives : Lives (rt.gs g) (rt'.gs g)

section Parts

variable {rt rt' : GMPRuntime} {p m g : ℕ} {tick : ℤ}

/-- A change of one goroutine `g` and its thread leaves the others alone. -/
theorem suits_mono {c : GmpPlace} {x : ℕ} (hgs : rt'.gs x = rt.gs x)
    (hblocked : ∀ n, c = .curG n → (rt'.ms n).isBlocked = (rt.ms n).isBlocked)
    (h : Suits rt c x) : Suits rt' c x := by
  cases c with
  | curG n => simpa only [Suits, hgs, hblocked n rfl] using h
  | _ => simpa only [Suits, hgs] using h

theorem mem_curG : g ∈ held rt (.curG m) ↔ (rt.ms m).curG = some g := by
  simp [held]

theorem GmpInv.lt_gCount (hrt : GmpInv rt) (hg : (rt.ms m).curG = some g) : g < rt.gCount :=
  hrt.custody.mem_live (mem_curG.mpr hg)

theorem GmpInv.lt_numMs (hrt : GmpInv rt) (hg : (rt.ms m).curG = some g) : m < rt.numMs := by
  by_contra hm
  rw [hrt.no_thread m (by omega)] at hg
  cases hg

/-- A thread with a processor is not blocked. -/
theorem GmpInv.not_blocked (hrt : GmpInv rt) (hbound : (rt.ms m).boundP = some p) :
    (rt.ms m).isBlocked = false := by
  by_contra hblocked
  have hblocked : (rt.ms m).isBlocked = true := by simpa using hblocked
  have hthread := hrt.thread m
  have hnone := (hthread.blocked_iff (hthread.busy hblocked)).mp hblocked
  rw [hbound] at hnone
  cases hnone

/-- What is known of a goroutine that a thread with a processor runs. -/
theorem GmpInv.running (hrt : GmpInv rt) (hbound : (rt.ms m).boundP = some p)
    (hg : (rt.ms m).curG = some g) :
    (rt.gs g).status = .running ∧ SyscallAhead (rt.gs g) := by
  have hknown := hrt.custody.known _ g (mem_curG.mpr hg)
  simpa only [Suits, hrt.not_blocked hbound, Bool.false_eq_true, if_false] using hknown

/-- What is known of a goroutine in a system call. -/
theorem GmpInv.blocked (hrt : GmpInv rt) (hblocked : (rt.ms m).isBlocked = true)
    (hg : (rt.ms m).curG = some g) :
    (rt.gs g).status = .syscall ∧ (rt.gs g).isSyscall = true ∧ (rt.gs g).syscallTicks < 3 := by
  have hknown := hrt.custody.known _ g (mem_curG.mpr hg)
  simpa only [Suits, hblocked, if_true] using hknown

/-- An update of the goroutine of a thread that does not move it. -/
theorem GmpInv.modifyG (hrt : GmpInv rt) {f : Goroutine → Goroutine}
    (hg : (rt.ms m).curG = some g) (hok : Suits (rt.modifyG g f) (.curG m) g) :
    GmpInv (rt.modifyG g f) := by
  refine hrt.of_bindings { SameBindings.refl rt with } ?_ hrt.thread hrt.queue_le
    hrt.no_processor hrt.no_thread
  have hcustody : Custody (held rt) {g | g < rt.gCount} (Suits (rt.modifyG g f)) := by
    refine hrt.custody.revise (mem_curG.mpr hg) (fun c x hx _ => ?_) hok
    exact suits_mono (by simp [GMPRuntime.modifyG, hx]) fun _ _ => rfl
  exact { hcustody with }

/-- A goroutine leaves its thread, which is then free. -/
theorem GmpInv.leaves (hrt : GmpInv rt) (hg : (rt.ms m).curG = some g) {d : GmpPlace}
    (hd : d = .globalRunQueue ∨ d = .completedGs) (hgCount : rt'.gCount = rt.gCount)
    (hgs : ∀ x, x ≠ g → rt'.gs x = rt.gs x)
    (hms : rt'.ms = Function.update rt.ms m { rt.ms m with curG := none, isBlocked := false })
    (hnumMs : rt'.numMs = rt.numMs) (hps : rt'.ps = rt.ps) (hnumPs : rt'.numPs = rt.numPs)
    (hto : held rt' d = held rt d ++ [g])
    (hother : ∀ c, c ≠ .curG m → c ≠ d → held rt' c = held rt c) (hok : Suits rt' d g) :
    GmpInv rt' := by
  have hcur : ∀ n, n ≠ m → rt'.ms n = rt.ms n := fun n hn => by simp [hms, hn]
  refine hrt.of_bindings ?_ ?_ ?_ ?_ ?_ ?_
  · constructor <;> first | assumption | (intro n; simp only [hps]) | skip
    intro n
    by_cases hn : n = m
    · simp [hms, hn]
    · rw [hcur n hn]
  · rw [hgCount]
    refine hrt.custody.handOver (c := .curG m) (d := d) (x := g) ?_ ?_ ?_ hother ?_ hok
    · rcases hd with rfl | rfl <;> simp
    · simp [held, hg, hms]
    · rw [hto]
      exact List.perm_append_singleton g _
    · intro c x hx hmem
      refine suits_mono (hgs x hx) fun n hc => ?_
      subst hc
      have hn : n ≠ m := by
        rintro rfl
        rw [mem_curG, hg] at hmem
        exact hx (Option.some.inj hmem).symm
      rw [hcur n hn]
  · intro n
    by_cases hn : n = m
    · subst hn
      rw [hms, Function.update_self]
      exact ⟨fun h => absurd rfl h, fun h => by cases h⟩
    · rw [hcur n hn]
      exact hrt.thread n
  · rw [hps]
    exact hrt.queue_le
  · rw [hps]
    exact hrt.no_processor
  · intro n hn
    by_cases hnm : n = m
    · simp [hms, hnm]
    · rw [hcur n hnm]
      exact hrt.no_thread n hn

/-- The state after the last tick of work. -/
theorem work_last (hstatus : (rt.gs g).status = .running)
    (hlast : (rt.gs g).remainingWork - 1 ≤ 0) :
    rt.work m g = { rt with
      gs := Function.update rt.gs g { rt.gs g with
        remainingWork := (rt.gs g).remainingWork - 1, status := .dead }
      ms := Function.update rt.ms m { rt.ms m with curG := none }
      completedGs := rt.completedGs ++ [g] } := by
  simp [GMPRuntime.work, GMPRuntime.modifyG, GMPRuntime.modifyM, hstatus, hlast]

theorem work_more (hstatus : (rt.gs g).status = .running)
    (hmore : ¬ (rt.gs g).remainingWork - 1 ≤ 0) :
    rt.work m g = rt.modifyG g fun g => { g with remainingWork := g.remainingWork - 1 } := by
  simp [GMPRuntime.work, GMPRuntime.modifyG, hstatus, hmore]

/-- **Work.**  The goroutine stays with its thread or completes. -/
theorem work_spec (hrt : GmpInv rt) (hbound : (rt.ms m).boundP = some p)
    (hg : (rt.ms m).curG = some g) (hsyscall : (rt.gs g).isSyscall = false) :
    GmpInv (rt.work m g) ∧ Moved rt (rt.work m g) g ∧
      ∀ n, ((rt.work m g).ms n).isBlocked = (rt.ms n).isBlocked := by
  obtain ⟨hstatus, -⟩ := hrt.running hbound hg
  have hblocked := hrt.not_blocked hbound
  by_cases hlast : (rt.gs g).remainingWork - 1 ≤ 0
  · rw [work_last hstatus hlast]
    refine ⟨hrt.leaves hg (.inr rfl) rfl ?_ ?_ rfl rfl rfl rfl ?_ ?_,
      ⟨rfl, rfl, hrt.lt_gCount hg, ?_, ?_⟩, ?_⟩
    · exact fun x hx => by simp [hx]
    · simp [← hblocked]
    · rintro (q | _ | n | _) hc hd
      · rfl
      · rfl
      · have hn : n ≠ m := fun h => hc (congrArg _ h)
        simp [held, hn]
      · exact absurd rfl hd
    · simp [Suits]
    · exact fun x hx => by simp [hx]
    · simpa using Lives.finished hstatus hsyscall hlast
    · intro n
      by_cases hn : n = m <;> simp [hn]
  · rw [work_more hstatus hlast]
    refine ⟨hrt.modifyG hg ?_, ⟨rfl, rfl, hrt.lt_gCount hg, ?_, ?_⟩, fun _ => rfl⟩
    · simpa [Suits, GMPRuntime.modifyG, hblocked, SyscallAhead, hsyscall] using hstatus
    · exact fun x hx => by simp [GMPRuntime.modifyG, hx]
    · simpa [GMPRuntime.modifyG] using Lives.worked hstatus hsyscall hlast

variable {rt₁ : GMPRuntime}

/-- A goroutine that has left its queue is put at an idle thread. -/
theorem Takes.custody_placed (htakes : Takes rt g rt₁) (hidle : (rt.ms m).curG = none)
    (hgs : ∀ x, x ≠ g → rt'.gs x = rt.gs x)
    (hms : rt'.ms = Function.update rt.ms m { rt.ms m with curG := some g })
    (hps : rt'.ps = rt₁.ps) (hglobal : rt'.globalRunQueue = rt₁.globalRunQueue)
    (hdone : rt'.completedGs = rt₁.completedGs) (hok : Suits rt' (.curG m) g) :
    Custody (held rt') {g | g < rt.gCount} (Suits rt') := by
  have hothers : Custody (held rt₁) ({g | g < rt.gCount} \ {g}) (Suits rt') := by
    refine htakes.custody.mono fun c x hx => suits_mono (hgs x (htakes.custody.mem_live hx).2) ?_
    intro n _
    by_cases hn : n = m <;> simp [hms, hn]
  have hput : Custody (held rt') (insert g ({g | g < rt.gCount} \ {g})) (Suits rt') := by
    refine hothers.put (d := .curG m) (by simp) ?_ ?_ hok
    · simp [held, hms, htakes.ms_eq, hidle]
    · rintro (q | _ | n | _) hc
      · simp only [held, hps]
      · exact hglobal
      · have hn : n ≠ m := fun h => hc (congrArg _ h)
        simp [held, hms, hn, htakes.ms_eq]
      · exact hdone
  have hlive : g ∈ {g | g < rt.gCount} := htakes.lt_gCount
  rwa [Set.insert_sdiff_singleton, Set.insert_eq_of_mem hlive] at hput

/-- The invariant when the thread has a processor. -/
theorem GmpInv.arrives (hrt : GmpInv rt) (htakes : Takes rt g rt₁) (hidle : (rt.ms m).curG = none)
    (hbound : (rt.ms m).boundP = some p) (hgCount : rt'.gCount = rt.gCount)
    (hgs : ∀ x, x ≠ g → rt'.gs x = rt.gs x)
    (hms : rt'.ms = Function.update rt.ms m { rt.ms m with curG := some g })
    (hnumMs : rt'.numMs = rt.numMs) (hps : rt'.ps = rt₁.ps) (hnumPs : rt'.numPs = rt.numPs)
    (hglobal : rt'.globalRunQueue = rt₁.globalRunQueue)
    (hdone : rt'.completedGs = rt₁.completedGs)
    (hrun : (rt'.gs g).status = .running ∧ SyscallAhead (rt'.gs g)) : GmpInv rt' := by
  have hblocked := hrt.not_blocked hbound
  have hself : rt'.ms m = { rt.ms m with curG := some g } := by simp [hms]
  have hcur : ∀ n, n ≠ m → rt'.ms n = rt.ms n := fun n hn => by simp [hms, hn]
  refine hrt.of_bindings ?_ ?_ ?_ (hps ▸ htakes.queue_le) (hps ▸ htakes.no_processor) ?_
  · refine ⟨hnumMs, hnumPs, hps ▸ htakes.pid_eq, hps ▸ htakes.runNext_eq, hps ▸ htakes.boundM_eq,
      fun n => ?_⟩
    by_cases hn : n = m
    · rw [hn, hself]
    · rw [hcur n hn]
  · rw [hgCount]
    refine htakes.custody_placed hidle hgs hms hps hglobal hdone ?_
    simpa only [Suits, hself, hblocked, Bool.false_eq_true, if_false] using hrun
  · intro n
    by_cases hn : n = m
    · rw [hn, hself]
      exact ⟨by simp [hbound, hblocked], by simp⟩
    · rw [hcur n hn]
      exact hrt.thread n
  · intro n hn
    have hlt := (hrt.bound m p hbound).1
    rw [hcur n (by omega)]
    exact hrt.no_thread n hn

/-- **Dispatch.**  An idle thread gets a goroutine unless all queues are empty. -/
theorem dispatch_spec (hrt : GmpInv rt) (hp : p < rt.numPs) (tick : ℤ) :
    (∃ g, GmpInv (rt.dispatch tick p) ∧ Moved rt (rt.dispatch tick p) g ∧
        (rt.gs g).status = .runnable ∧
        ∀ n, ((rt.dispatch tick p).ms n).isBlocked = (rt.ms n).isBlocked) ∨
      (Still rt (rt.dispatch tick p) ∧
        ∀ m, (rt.ps p).boundM = some m → (rt.ms m).curG = none → QueuesEmpty rt) := by
  obtain ⟨-, -, m, hm, hmp⟩ := hrt.processor p hp
  unfold GMPRuntime.dispatch
  simp only [hm]
  split_ifs with hidle
  · rcases hfind : rt.findRunnableG p tick with ⟨next, rt₁⟩
    have hspec := findRunnableG_spec hrt hp tick
    simp only [hfind] at hspec
    rcases hspec with ⟨g, rfl, htakes⟩ | ⟨rfl, hstill, hempty⟩
    · obtain ⟨hstatus, hahead⟩ := htakes.runnable
      left
      refine ⟨g, ?_, ⟨htakes.gCount_eq, htakes.numPs_eq, htakes.lt_gCount, ?_, ?_⟩, hstatus, ?_⟩
      · refine hrt.arrives htakes hidle hmp htakes.gCount_eq ?_ ?_ htakes.numMs_eq rfl
          htakes.numPs_eq rfl rfl ?_
        · exact fun x hx => by simp [GMPRuntime.modifyG, GMPRuntime.modifyM, hx, htakes.gs_eq]
        · simp [GMPRuntime.modifyG, GMPRuntime.modifyM, htakes.ms_eq]
        · simpa [GMPRuntime.modifyG, GMPRuntime.modifyM, htakes.gs_eq, SyscallAhead] using hahead
      · exact fun x hx => by simp [GMPRuntime.modifyG, GMPRuntime.modifyM, hx, htakes.gs_eq]
      · simpa [GMPRuntime.modifyG, GMPRuntime.modifyM, htakes.gs_eq] using
          Lives.dispatched _ _ hstatus
      · intro n
        by_cases hn : n = m <;> simp [GMPRuntime.modifyG, GMPRuntime.modifyM, hn, htakes.ms_eq]
    · exact .inr ⟨hstill, fun _ _ _ => hempty⟩
  · refine .inr ⟨Still.refl rt, ?_⟩
    rintro n ⟨⟩ hn
    exact absurd hn hidle

/-- The state after the thread `m` of `p` has blocked with `g`. -/
structure HandedOff (rt : GMPRuntime) (p m g : ℕ) (rt' : GMPRuntime) : Prop where
  gCount_eq : rt'.gCount = rt.gCount
  numPs_eq : rt'.numPs = rt.numPs
  numMs_eq : rt'.numMs = rt.numMs + 1
  gs_eq : rt'.gs = Function.update rt.gs g { rt.gs g with status := .syscall }
  old_thread : rt'.ms m = { rt.ms m with isBlocked := true, boundP := none }
  new_thread : rt'.ms rt.numMs = { mid := rt.numMs, boundP := some p }
  other_threads : ∀ n, n ≠ m → n ≠ rt.numMs → rt'.ms n = rt.ms n
  ps_eq : rt'.ps = Function.update rt.ps p { rt.ps p with boundM := some rt.numMs }
  globalRunQueue_eq : rt'.globalRunQueue = rt.globalRunQueue
  completedGs_eq : rt'.completedGs = rt.completedGs

theorem handoff_handedOff (hm : m < rt.numMs) : HandedOff rt p m g (rt.handoff tick p m g) := by
  constructor
  all_goals
    simp +contextual [GMPRuntime.handoff, GMPRuntime.appendM, GMPRuntime.modifyG,
      GMPRuntime.modifyM, GMPRuntime.modifyP, hm.ne]

theorem HandedOff.localQueue_eq (h : HandedOff rt p m g rt') (q : ℕ) :
    (rt'.ps q).localQueue = (rt.ps q).localQueue := by
  by_cases hq : q = p
  · subst hq
    simp [h.ps_eq]
  · simp [h.ps_eq, hq]

/-- The new thread has no goroutine, and the blocked one keeps its own. -/
theorem HandedOff.curG_eq (h : HandedOff rt p m g rt') (hrt : GmpInv rt) (n : ℕ) :
    (rt'.ms n).curG = (rt.ms n).curG := by
  by_cases hn : n = m
  · rw [hn, h.old_thread]
  · by_cases hne : n = rt.numMs
    · rw [hne, h.new_thread, hrt.no_thread _ le_rfl]
    · rw [h.other_threads n hn hne]

theorem HandedOff.custody (h : HandedOff rt p m g rt') (hrt : GmpInv rt)
    (hg : (rt.ms m).curG = some g) (hsyscall : (rt.gs g).isSyscall = true)
    (hticks : (rt.gs g).syscallTicks = 0) :
    Custody (held rt') {g | g < rt'.gCount} (Suits rt') := by
  rw [held_congr h.localQueue_eq h.globalRunQueue_eq (h.curG_eq hrt) h.completedGs_eq, h.gCount_eq]
  refine hrt.custody.revise (mem_curG.mpr hg) ?_ ?_
  · intro c x hx hmem
    refine suits_mono (by simp [h.gs_eq, hx]) fun n hc => ?_
    subst hc
    rw [mem_curG] at hmem
    rw [h.other_threads n _ (hrt.lt_numMs hmem).ne]
    rintro rfl
    exact hx (Option.some.inj (hmem.symm.trans hg))
  · simp [Suits, h.old_thread, h.gs_eq, hsyscall, hticks]

/-- `p` and the new thread are bound to each other, and the old thread is unbound. -/
theorem HandedOff.bindings (h : HandedOff rt p m g rt') (hrt : GmpInv rt)
    (hm : (rt.ps p).boundM = some m) (hmp : (rt.ms m).boundP = some p) :
    (∀ q < rt'.numPs, ProcessorOk rt' q) ∧
      ∀ n q, (rt'.ms n).boundP = some q → n < rt'.numMs ∧ q < rt'.numPs ∧
        (rt'.ps q).boundM = some n := by
  have hpsElse : ∀ q, q ≠ p → rt'.ps q = rt.ps q := fun q hq => by simp [h.ps_eq, hq]
  have hpsSelf : rt'.ps p = { rt.ps p with boundM := some rt.numMs } := by simp [h.ps_eq]
  rw [h.numPs_eq, h.numMs_eq]
  constructor
  · intro q hq
    obtain ⟨hpid, hnext, n, hn, hnq⟩ := hrt.processor q hq
    by_cases hqp : q = p
    · subst hqp
      exact ⟨by rw [hpsSelf]; exact hpid, by rw [hpsSelf]; exact hnext, rt.numMs,
        by rw [hpsSelf], by rw [h.new_thread]⟩
    · have hnm : n ≠ m := by
        rintro rfl
        exact hqp (Option.some.inj (hnq.symm.trans hmp))
      have hold := h.other_threads n hnm (hrt.bound n q hnq).1.ne
      rw [← hpsElse q hqp] at hpid hnext hn
      exact ⟨hpid, hnext, n, hn, by rw [hold, hnq]⟩
  · intro n q hnq
    by_cases hnm : n = m
    · rw [hnm, h.old_thread] at hnq
      cases hnq
    · by_cases hnN : n = rt.numMs
      · rw [hnN, h.new_thread] at hnq
        obtain rfl := Option.some.inj hnq
        exact ⟨by omega, (hrt.bound m p hmp).2.1, by rw [hpsSelf, hnN]⟩
      · rw [h.other_threads n hnm hnN] at hnq
        obtain ⟨hnlt, hqlt, hbound⟩ := hrt.bound n q hnq
        have hqp : q ≠ p := by
          rintro rfl
          exact hnm (Option.some.inj (hbound.symm.trans hm))
        exact ⟨by omega, hqlt, by rw [hpsElse q hqp, hbound]⟩

theorem HandedOff.thread (h : HandedOff rt p m g rt') (hrt : GmpInv rt)
    (hg : (rt.ms m).curG = some g) (n : ℕ) : ThreadOk (rt'.ms n) := by
  by_cases hnm : n = m
  · rw [hnm, h.old_thread]
    exact ⟨by simp, by simp [hg]⟩
  · by_cases hnN : n = rt.numMs
    · rw [hnN, h.new_thread]
      exact ⟨by simp, by simp⟩
    · rw [h.other_threads n hnm hnN]
      exact hrt.thread n

/-- **Hand-off.**  The thread blocks with its goroutine, and the processor gets a new thread. -/
theorem handoff_spec (hrt : GmpInv rt) (hm : (rt.ps p).boundM = some m)
    (hmp : (rt.ms m).boundP = some p) (hg : (rt.ms m).curG = some g)
    (hsyscall : (rt.gs g).isSyscall = true) (tick : ℤ) :
    GmpInv (rt.handoff tick p m g) ∧ Moved rt (rt.handoff tick p m g) g ∧
      ((rt.handoff tick p m g).ms m).isBlocked = true ∧
      ∀ n, (rt.ms n).isBlocked = true → ((rt.handoff tick p m g).ms n).isBlocked = true := by
  obtain ⟨hstatus, hahead⟩ := hrt.running hmp hg
  have h : HandedOff rt p m g (rt.handoff tick p m g) := handoff_handedOff (hrt.bound m p hmp).1
  obtain ⟨hprocessor, hbound⟩ := h.bindings hrt hm hmp
  refine ⟨⟨h.custody hrt hg hsyscall (hahead hsyscall), hprocessor, hbound, h.thread hrt hg,
    ?_, ?_, ?_⟩, ⟨h.gCount_eq, h.numPs_eq, hrt.lt_gCount hg, ?_, ?_⟩, ?_, ?_⟩
  · simpa only [h.localQueue_eq] using hrt.queue_le
  · rw [h.numPs_eq]
    simpa only [h.localQueue_eq] using hrt.no_processor
  · rw [h.numMs_eq]
    intro n hn
    rw [h.curG_eq hrt]
    exact hrt.no_thread n (by omega)
  · exact fun x hx => by simp [h.gs_eq, hx]
  · simpa [h.gs_eq] using Lives.handedOff hstatus hsyscall (hahead hsyscall)
  · rw [h.old_thread]
  · intro n hn
    by_cases hnm : n = m
    · rw [hnm, h.old_thread]
    · obtain ⟨x, hx⟩ := Option.ne_none_iff_exists'.mp ((hrt.thread n).busy hn)
      rwa [h.other_threads n hnm (hrt.lt_numMs hx).ne]

/-! ## The loop over the processors -/

/-- A goroutine has moved on, and not by handing off its processor. -/
def Progress (rt rt' : GMPRuntime) : Prop :=
  ∃ g, Moved rt rt' g ∧ ((rt.gs g).status = .running → (rt'.gs g).status ≠ .syscall)

theorem Moved.still_left (hstill : Still rt rt₁) (h : Moved rt₁ rt' g) : Moved rt rt' g := by
  obtain ⟨hgCount, hnumPs, hlt, hothers, hlives⟩ := h
  rw [hstill.gs_eq] at hothers hlives
  rw [hstill.gCount_eq] at hgCount hlt
  exact ⟨hgCount, hnumPs.trans hstill.numPs_eq, hlt, hothers, hlives⟩

theorem Moved.still_right (h : Moved rt rt₁ g) (hstill : Still rt₁ rt') : Moved rt rt' g := by
  obtain ⟨hgCount, hnumPs, hlt, hothers, hlives⟩ := h
  rw [← hstill.gs_eq] at hothers hlives
  exact ⟨hstill.gCount_eq.trans hgCount, hstill.numPs_eq.trans hnumPs, hlt, hothers, hlives⟩

/-- **What a round for the processor `p` can do.** -/
inductive Round (rt : GMPRuntime) (p : ℕ) (rt' : GMPRuntime) : Prop
  | idle (hstill : Still rt rt') (hidle : ∀ m, (rt.ps p).boundM = some m → (rt.ms m).curG = none)
      (hempty : QueuesEmpty rt)
  | handedOff (m g : ℕ) (hmoved : Moved rt rt' g) (hblocked : (rt'.ms m).isBlocked = true)
  | progress (hprogress : Relation.TransGen Progress rt rt')

theorem still_tickCount (rt : GMPRuntime) (p : ℕ) :
    Still rt (rt.modifyP p fun p => { p with tickCount := p.tickCount + 1 }) := by
  refine { Still.refl rt with pid_eq := ?_, runNext_eq := ?_, boundM_eq := ?_, localQueue_eq := ?_ }
  all_goals
    intro q
    by_cases hq : q = p
    · subst hq
      simp [GMPRuntime.modifyP]
    · simp [GMPRuntime.modifyP, hq]

/-- A processor always has a thread. -/
theorem GmpInv.bindM_eq (hrt : GmpInv rt) (hp : p < rt.numPs) : rt.bindM p = rt := by
  obtain ⟨-, -, m, hm, -⟩ := hrt.processor p hp
  simp [GMPRuntime.bindM, hm]

/-- A round in which the thread has no goroutine to run. -/
theorem round_of_dispatch (hrt : GmpInv rt) (hp : p < rt.numPs) (hm : (rt.ps p).boundM = some m)
    (hidle : (rt.ms m).curG = none) (tick : ℤ) :
    GmpInv (rt.dispatch tick p) ∧ Round rt p (rt.dispatch tick p) ∧
      ∀ n, ((rt.dispatch tick p).ms n).isBlocked = (rt.ms n).isBlocked := by
  rcases dispatch_spec hrt hp tick with ⟨g, hinv, hmoved, hstatus, hblocked⟩ | ⟨hstill, hempty⟩
  · exact ⟨hinv, .progress (.single ⟨g, hmoved, by simp [hstatus]⟩), hblocked⟩
  · refine ⟨hrt.still hstill, .idle hstill ?_ (hempty m hm hidle), fun n => by rw [hstill.ms_eq]⟩
    intro n hn
    rwa [← Option.some.inj (hm.symm.trans hn)]

/-- Without a system call ahead, a running goroutine does not hand off. -/
theorem Lives.not_syscall {x y : Goroutine} (h : Lives x y) (hstatus : x.status = .running)
    (hsyscall : x.isSyscall = false) : y.status ≠ .syscall := by
  cases h with
  | dispatched m p hrunnable => simp
  | worked _ _ _ => simp [hstatus]
  | finished _ _ _ => simp
  | handedOff _ htrue _ => simp [hsyscall] at htrue
  | waited hblocked _ => simp [hstatus] at hblocked
  | woken _ _ _ => simp

/-- A round in which the goroutine of the thread works. -/
theorem round_of_work (hrt : GmpInv rt) (hp : p < rt.numPs) (hmp : (rt.ms m).boundP = some p)
    (hg : (rt.ms m).curG = some g) (hsyscall : (rt.gs g).isSyscall = false) (tick : ℤ) :
    GmpInv ((rt.work m g).dispatch tick p) ∧ Round rt p ((rt.work m g).dispatch tick p) ∧
      ∀ n, (((rt.work m g).dispatch tick p).ms n).isBlocked = (rt.ms n).isBlocked := by
  obtain ⟨hinv, hmoved, hblocked⟩ := work_spec hrt hmp hg hsyscall
  have hstays : (rt.gs g).status = .running → ((rt.work m g).gs g).status ≠ .syscall := fun h =>
    hmoved.lives.not_syscall h hsyscall
  have hp' : p < (rt.work m g).numPs := by rwa [hmoved.numPs_eq]
  rcases dispatch_spec hinv hp' tick with ⟨x, hinv', hmoved', hstatus, hblocked'⟩ | ⟨hstill, -⟩
  · refine ⟨hinv', .progress (.tail (.single ⟨g, hmoved, hstays⟩) ⟨x, hmoved', by simp [hstatus]⟩),
      fun n => (hblocked' n).trans (hblocked n)⟩
  · refine ⟨hinv.still hstill, .progress (.single ⟨g, hmoved.still_right hstill, ?_⟩), fun n => ?_⟩
    · rwa [hstill.gs_eq]
    · rw [hstill.ms_eq]
      exact hblocked n

theorem Progress.still_left (hstill : Still rt rt₁) (h : Progress rt₁ rt') : Progress rt rt' := by
  obtain ⟨g, hmoved, hstays⟩ := h
  rw [hstill.gs_eq] at hstays
  exact ⟨g, hmoved.still_left hstill, hstays⟩

theorem Round.still_left (hstill : Still rt rt₁) (h : Round rt₁ p rt') : Round rt p rt' := by
  cases h with
  | idle hstill' hidle hempty =>
    rw [QueuesEmpty, hstill.globalRunQueue_eq] at hempty
    simp only [hstill.boundM_eq, hstill.ms_eq] at hidle
    simp only [hstill.localQueue_eq] at hempty
    exact .idle (hstill.trans hstill') hidle hempty
  | handedOff m g hmoved hblocked => exact .handedOff m g (hmoved.still_left hstill) hblocked
  | progress hprogress =>
    refine .progress ?_
    induction hprogress with
    | single h => exact .single (h.still_left hstill)
    | tail _ h ih => exact .tail ih h

/-- **A round keeps the invariant**, and is idle only if there is nothing to run. -/
theorem stepP_spec (hrt : GmpInv rt) (hp : p < rt.numPs) (tick : ℤ) :
    GmpInv (GMPRuntime.stepP tick rt p) ∧ Round rt p (GMPRuntime.stepP tick rt p) ∧
      ∀ n, (rt.ms n).isBlocked = true →
        ((GMPRuntime.stepP tick rt p).ms n).isBlocked = true := by
  have htick := still_tickCount rt p
  unfold GMPRuntime.stepP
  dsimp only
  generalize hrt₀ : (rt.modifyP p fun p => { p with tickCount := p.tickCount + 1 }) = rt₀ at htick
  have hinv := hrt.still htick
  have hp₀ : p < rt₀.numPs := by rwa [htick.numPs_eq]
  rw [hinv.bindM_eq hp₀, ← htick.ms_eq]
  obtain ⟨-, -, m, hm, hmp⟩ := hinv.processor p hp₀
  simp only [hm]
  cases hg : (rt₀.ms m).curG with
  | none =>
    obtain ⟨hinv', hround, hblocked⟩ := round_of_dispatch hinv hp₀ hm hg tick
    exact ⟨hinv', hround.still_left htick, fun n hn => (hblocked n).trans hn⟩
  | some g =>
    dsimp only
    obtain ⟨hstatus, hahead⟩ := hinv.running hmp hg
    split_ifs with hcall
    · obtain ⟨hinv', hmoved, hself, hblocked⟩ := handoff_spec hinv hm hmp hg hcall.1 tick
      exact ⟨hinv', .handedOff m g (hmoved.still_left htick) hself, hblocked⟩
    · have hsyscall : (rt₀.gs g).isSyscall = false := by
        by_contra htrue
        have htrue : (rt₀.gs g).isSyscall = true := by simpa using htrue
        exact hcall ⟨htrue, hstatus, hahead htrue⟩
      obtain ⟨hinv', hround, hblocked⟩ := round_of_work hinv hp₀ hmp hg hsyscall tick
      exact ⟨hinv', hround.still_left htick, fun n hn => (hblocked n).trans hn⟩

/-! ## The loop over the threads -/

theorem wake_idle (h : (rt.ms m).isBlocked = false) : rt.wake m = rt := by
  unfold GMPRuntime.wake
  cases (rt.ms m).curG <;> simp [h]

/-- The state after the third tick of a system call. -/
theorem wake_last (hg : (rt.ms m).curG = some g) (hblocked : (rt.ms m).isBlocked = true)
    (hticks : (rt.gs g).syscallTicks = 2) :
    rt.wake m = { rt with
      gs := Function.update rt.gs g { rt.gs g with
        syscallTicks := 3, status := .runnable, isSyscall := false }
      ms := Function.update rt.ms m { rt.ms m with curG := none, isBlocked := false }
      globalRunQueue := rt.globalRunQueue ++ [g] } := by
  simp [GMPRuntime.wake, GMPRuntime.modifyG, GMPRuntime.modifyM, hg, hblocked, hticks]

theorem wake_more (hg : (rt.ms m).curG = some g) (hblocked : (rt.ms m).isBlocked = true)
    (hticks : (rt.gs g).syscallTicks < 2) :
    rt.wake m = rt.modifyG g fun g => { g with syscallTicks := g.syscallTicks + 1 } := by
  have hmore : ¬ 3 ≤ (rt.gs g).syscallTicks + 1 := by omega
  simp [GMPRuntime.wake, GMPRuntime.modifyG, hg, hblocked, hmore]

/-- **Waking up.**  A blocked goroutine waits for another tick or goes to the global queue. -/
theorem wake_spec (hrt : GmpInv rt) (hblocked : (rt.ms m).isBlocked = true) :
    ∃ g, GmpInv (rt.wake m) ∧ Moved rt (rt.wake m) g ∧ (rt.gs g).status = .syscall := by
  obtain ⟨g, hg⟩ := Option.ne_none_iff_exists'.mp ((hrt.thread m).busy hblocked)
  obtain ⟨hstatus, hsyscall, hticks⟩ := hrt.blocked hblocked hg
  refine ⟨g, ?_⟩
  by_cases hlast : (rt.gs g).syscallTicks = 2
  · rw [wake_last hg hblocked hlast]
    refine ⟨hrt.leaves hg (.inl rfl) rfl ?_ rfl rfl rfl rfl rfl ?_ ?_,
      ⟨rfl, rfl, hrt.lt_gCount hg, ?_, ?_⟩, hstatus⟩
    · exact fun x hx => by simp [hx]
    · rintro (q | _ | n | _) hc hd
      · rfl
      · exact absurd rfl hd
      · have hn : n ≠ m := fun h => hc (congrArg _ h)
        simp [held, hn]
      · rfl
    · simp [Suits, SyscallAhead]
    · exact fun x hx => by simp [hx]
    · simpa using Lives.woken hstatus hsyscall hlast
  · rw [wake_more hg hblocked (by omega)]
    refine ⟨hrt.modifyG hg ?_, ⟨rfl, rfl, hrt.lt_gCount hg, ?_, ?_⟩, hstatus⟩
    · have hmore : (rt.gs g).syscallTicks + 1 < 3 := by omega
      simp [Suits, GMPRuntime.modifyG, hblocked, hstatus, hsyscall, hmore]
    · exact fun x hx => by simp [GMPRuntime.modifyG, hx]
    · simpa [GMPRuntime.modifyG] using Lives.waited hstatus (by omega)

end Parts

end OsSimulator.Interface
