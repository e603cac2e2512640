import OsSimulator.Model.TrapTable
import OsSimulator.Model.Syscall
import OsSimulator.Analysis.CpuPrivilege

/-!
# What a trap leaves behind

`DispatchTrap` saves the program counter in the context of the trap, but does not read it
back, and it always returns to user mode, whatever mode the trap came from.  So a trap is
transparent to the interrupted code exactly when this was in user mode and the handler that is
called, with all traps that it dispatches, leaves the program counter as it was
(`traps_transparent`).  It does if no handler of the table moves the program counter; the handlers
may still dispatch further traps, to any depth, and register handlers.

A trap from kernel mode ends in user mode, in particular a trap that a handler dispatches:
the rest of the handler runs in user mode and its privileged instructions fault
(`traps_not_transparent`).

The depth up to which traps may be nested is a parameter of the model.  `dispatchTrap_mono`
says that what a trap does, once it returns, does not depend on it.
-/

set_option autoImplicit false

namespace OsSimulator.Analysis

open Model

/-! ## The nesting depth -/

variable {r : TrapContext × TrapMachine} {desc : TrapDescriptor} {m : TrapMachine}

section Depth

/-- The nested `DispatchTrap` of a handler. -/
abbrev NestedDispatch : Type := ℤ → ℤ → Vector UInt64 6 → TrapMachine → Option TrapReturn

/-- Where `dispatch` returns, so does `dispatch'`, with the same result. -/
def Extends (dispatch dispatch' : NestedDispatch) : Prop :=
  ∀ vector syscallNum args m r, dispatch vector syscallNum args m = some r →
    dispatch' vector syscallNum args m = some r

/-- A handler that ends does so with every larger dispatch. -/
theorem run_mono {dispatch dispatch' : NestedDispatch} (hext : Extends dispatch dispatch')
    (body : HandlerBody) (ctx : TrapContext) (m : TrapMachine)
    (hrun : body.run dispatch ctx m = some r) : body.run dispatch' ctx m = some r := by
  induction body generalizing ctx m with
  | finish status err => exact hrun
  | call c next ih => exact ih _ _ _ _ hrun
  | assign update next ih => exact ih _ _ _ hrun
  | assignContext ctx next ih => exact ih _ _ hrun
  | registerHandler vector name type handler next _ ih => exact ih _ _ hrun
  | dispatchTrap vector syscallNum args next ih =>
    simp only [HandlerBody.run] at hrun ⊢
    cases hnested : dispatch vector syscallNum args m with
    | none =>
      rw [hnested] at hrun
      cases hrun
    | some nested =>
      rw [hnested] at hrun
      rw [hext _ _ _ _ _ hnested]
      exact ih _ _ _ _ hrun

/-- The handler's part of `DispatchTrap`. -/
def handled (dispatch : NestedDispatch) (desc : TrapDescriptor) (ctx : TrapContext)
    (m : TrapMachine) : Option (TrapContext × TrapMachine) :=
  match desc.handler with
  | none => some (ctx, m)
  | some handler => (handler m.cpu ctx).run dispatch ctx m

/-- **What `DispatchTrap` does** with a registered vector: entry, handler, return. -/
theorem dispatchTrap_registered {vector : ℤ} (hdesc : m.traps.descriptors vector = some desc)
    (depth : ℕ) (syscallNum : ℤ) (args : Vector UInt64 6) :
    m.dispatchTrap (depth + 1) vector syscallNum args =
      (handled (TrapMachine.dispatchTrap depth) desc
        (TrapMachine.savedContext desc vector syscallNum args m.cpu)
        (m.enter desc vector)).map fun r => (.ok r.1, r.2.leave r.1) := by
  simp only [TrapMachine.dispatchTrap, hdesc]
  rfl

theorem handled_mono {dispatch dispatch' : NestedDispatch} (hext : Extends dispatch dispatch')
    (desc : TrapDescriptor) (ctx : TrapContext) (m : TrapMachine)
    (hrun : handled dispatch desc ctx m = some r) : handled dispatch' desc ctx m = some r := by
  unfold handled at hrun ⊢
  cases hh : desc.handler with
  | none =>
    rw [hh] at hrun
    exact hrun
  | some handler =>
    rw [hh] at hrun
    exact run_mono hext _ _ _ hrun

/-- More nesting changes no result. -/
theorem extends_succ (depth : ℕ) :
    Extends (TrapMachine.dispatchTrap depth) (TrapMachine.dispatchTrap (depth + 1)) := by
  induction depth with
  | zero =>
    intro vector syscallNum args m r hr
    cases hr
  | succ depth ih =>
    intro vector syscallNum args m r hr
    cases hdesc : m.traps.descriptors vector with
    | none =>
      simp only [TrapMachine.dispatchTrap, hdesc] at hr ⊢
      exact hr
    | some desc =>
      rw [dispatchTrap_registered hdesc] at hr ⊢
      obtain ⟨last, hlast, rfl⟩ := Option.map_eq_some_iff.mp hr
      rw [handled_mono ih _ _ _ hlast]
      rfl

/-- A trap that returns does the same whatever depth is allowed. -/
theorem dispatchTrap_mono {depth depth' : ℕ} (hle : depth ≤ depth') :
    Extends (TrapMachine.dispatchTrap depth) (TrapMachine.dispatchTrap depth') := by
  induction hle with
  | refl => exact fun _ _ _ _ _ hr => hr
  | step _ ih => exact fun _ _ _ _ _ hr => extends_succ _ _ _ _ _ _ (ih _ _ _ _ _ hr)

end Depth

/-! ## Handlers that leave the program counter alone -/

/-- The handler executes no instruction and does not assign to the program counter, and
neither does a handler that it registers.  It may do everything else. -/
def QuietBody : HandlerBody → Prop
  | .finish _ _ => True
  | .call c next => (∀ inst, c ≠ .executeInstruction inst) ∧ ∀ err cpu, QuietBody (next err cpu)
  | .assign update next =>
    (∀ cpu, (update cpu).programCounter = cpu.programCounter) ∧ ∀ cpu, QuietBody (next cpu)
  | .assignContext _ next => QuietBody next
  | .dispatchTrap _ _ _ next => ∀ r cpu, QuietBody (next r cpu)
  | .registerHandler _ _ _ handler next => (∀ cpu ctx, QuietBody (handler cpu ctx)) ∧ QuietBody next

/-- All handlers of the table are quiet. -/
def QuietTable (tt : TrapTable) : Prop :=
  ∀ vector desc handler, tt.descriptors vector = some desc → desc.handler = some handler →
    ∀ cpu ctx, QuietBody (handler cpu ctx)

theorem QuietTable.registerHandler {tt : TrapTable} (htt : QuietTable tt) (vector : ℤ)
    (name : String) (type : TrapType) {handler : TrapHandlerFunc}
    (hquiet : ∀ cpu ctx, QuietBody (handler cpu ctx)) :
    QuietTable (tt.registerHandler vector name type (some handler)) := by
  intro v desc h hdesc hh
  by_cases hv : v = vector
  · simp only [TrapTable.registerHandler, if_pos hv, Option.some.injEq] at hdesc
    subst hdesc
    obtain rfl := Option.some.inj hh
    exact hquiet
  · simp only [TrapTable.registerHandler, if_neg hv] at hdesc
    exact htt v desc h hdesc hh

theorem QuietTable.enter (hm : QuietTable m.traps) {vector : ℤ}
    (hdesc : m.traps.descriptors vector = some desc) : QuietTable (m.enter desc vector).traps := by
  intro v desc' handler hdesc' hh
  by_cases hv : v = vector
  · simp only [TrapMachine.enter, if_pos hv, Option.some.injEq] at hdesc'
    subst hdesc'
    exact hm vector desc handler hdesc hh
  · simp only [TrapMachine.enter, if_neg hv] at hdesc'
    exact hm v desc' handler hdesc' hh

/-- The machine is still quiet and its program counter is where it was. -/
structure KeepsPC (m m' : TrapMachine) : Prop where
  quiet : QuietTable m'.traps
  pc_eq : m'.cpu.programCounter = m.cpu.programCounter

theorem KeepsPC.trans {m₁ m₂ m₃ : TrapMachine} (h₁ : KeepsPC m₁ m₂) (h₂ : KeepsPC m₂ m₃) :
    KeepsPC m₁ m₃ :=
  ⟨h₂.quiet, h₂.pc_eq.trans h₁.pc_eq⟩

/-- On quiet machines `dispatch` keeps the program counter. -/
def QuietDispatch (dispatch : NestedDispatch) : Prop :=
  ∀ vector syscallNum args m r, QuietTable m.traps →
    dispatch vector syscallNum args m = some r → KeepsPC m r.2

/-- Only an instruction moves the program counter. -/
theorem call_pc {c : CPUCall} (hc : ∀ inst, c ≠ .executeInstruction inst) (cpu : HardwareCPU) :
    (cpu.call c).2.programCounter = cpu.programCounter := by
  cases c with
  | executeInstruction inst => exact absurd rfl (hc inst)
  | switchToKernelMode vector => exact (switchToKernelMode_registers cpu vector).1
  | returnToUserMode => exact (returnToUserMode_registers cpu).1

/-- **A quiet handler** keeps the program counter if the traps it dispatches do. -/
theorem QuietBody.run {dispatch : NestedDispatch} (hdispatch : QuietDispatch dispatch)
    {body : HandlerBody} (hbody : QuietBody body) (ctx : TrapContext) (m : TrapMachine)
    (hm : QuietTable m.traps) (hrun : body.run dispatch ctx m = some r) : KeepsPC m r.2 := by
  induction body generalizing ctx m with
  | finish status err =>
    obtain rfl := Option.some.inj hrun
    exact ⟨hm, rfl⟩
  | call c next ih =>
    have hstep : KeepsPC m { m with cpu := (m.cpu.call c).2 } := ⟨hm, call_pc hbody.1 m.cpu⟩
    exact hstep.trans (ih _ _ (hbody.2 _ _) _ _ hm hrun)
  | assign update next ih =>
    have hstep : KeepsPC m { m with cpu := update m.cpu } := ⟨hm, hbody.1 m.cpu⟩
    exact hstep.trans (ih _ (hbody.2 _) _ _ hm hrun)
  | assignContext ctx next ih => exact ih hbody _ _ hm hrun
  | registerHandler vector name type handler next _ ih =>
    have hnext := hm.registerHandler vector name type hbody.1
    have hstep : KeepsPC m
        { m with traps := m.traps.registerHandler vector name type (some handler) } :=
      ⟨hnext, rfl⟩
    exact hstep.trans (ih hbody.2 _ _ hnext hrun)
  | dispatchTrap vector syscallNum args next ih =>
    simp only [HandlerBody.run] at hrun
    cases hnested : dispatch vector syscallNum args m with
    | none =>
      rw [hnested] at hrun
      cases hrun
    | some nested =>
      rw [hnested] at hrun
      have hstep := hdispatch _ _ _ _ _ hm hnested
      exact hstep.trans (ih _ _ (hbody _ _) _ _ hstep.quiet hrun)

/-- **A trap of a quiet machine** keeps the program counter, by induction on the depth. -/
theorem quietDispatch (depth : ℕ) : QuietDispatch (TrapMachine.dispatchTrap depth) := by
  induction depth with
  | zero =>
    intro vector syscallNum args m r _ hr
    cases hr
  | succ depth ih =>
    intro vector syscallNum args m r hm hr
    cases hdesc : m.traps.descriptors vector with
    | none =>
      simp only [TrapMachine.dispatchTrap, hdesc, Option.some.injEq] at hr
      subst hr
      exact ⟨hm, rfl⟩
    | some desc =>
      rw [dispatchTrap_registered hdesc] at hr
      obtain ⟨last, hlast, rfl⟩ := Option.map_eq_some_iff.mp hr
      have henter : KeepsPC m (m.enter desc vector) :=
        ⟨hm.enter hdesc, (switchToKernelMode_registers m.cpu vector).1⟩
      have hhandler : KeepsPC (m.enter desc vector) last.2 := by
        unfold handled at hlast
        cases hh : desc.handler with
        | none =>
          rw [hh] at hlast
          obtain rfl := Option.some.inj hlast
          exact ⟨henter.quiet, rfl⟩
        | some handler =>
          rw [hh] at hlast
          exact (hm vector desc handler hdesc hh _ _).run ih _ _ henter.quiet hlast
      have hleave : KeepsPC last.2 (last.2.leave last.1) :=
        ⟨hhandler.quiet, (returnToUserMode_registers last.2.cpu).1⟩
      exact (henter.trans hhandler).trans hleave

/-! ## Transparency -/

/-- The interrupted code finds the CPU in its mode and at its instruction. -/
structure Transparent (cpu cpu' : HardwareCPU) : Prop where
  mode_eq : cpu'.currentMode = cpu.currentMode
  pc_eq : cpu'.programCounter = cpu.programCounter

/-- A trap of a registered vector returns to user mode. -/
theorem dispatchTrap_mode {vector syscallNum : ℤ} {args : Vector UInt64 6} {depth : ℕ}
    {r : TrapReturn} (hreg : m.traps.descriptors vector ≠ none)
    (hr : m.dispatchTrap depth vector syscallNum args = some r) : r.2.cpu.currentMode = .user := by
  obtain ⟨desc, hdesc⟩ := Option.ne_none_iff_exists'.mp hreg
  cases depth with
  | zero => cases hr
  | succ depth =>
    rw [dispatchTrap_registered hdesc] at hr
    obtain ⟨last, -, rfl⟩ := Option.map_eq_some_iff.mp hr
    exact returnToUserMode_mode last.2.cpu

/-- The handler that the trap calls, with the traps that it dispatches, returns with the program
counter as it was before the trap. -/
def HandlerKeepsPC (depth : ℕ) (desc : TrapDescriptor) (vector syscallNum : ℤ)
    (args : Vector UInt64 6) (m : TrapMachine) : Prop :=
  ∀ last, handled (TrapMachine.dispatchTrap depth) desc
      (TrapMachine.savedContext desc vector syscallNum args m.cpu) (m.enter desc vector) =
    some last → last.2.cpu.programCounter = m.cpu.programCounter

/-- What the trap does around its handler does not move the program counter. -/
theorem dispatchTrap_pc_iff {vector syscallNum : ℤ} {args : Vector UInt64 6} {depth : ℕ}
    {r : TrapReturn} (hdesc : m.traps.descriptors vector = some desc)
    (hr : m.dispatchTrap (depth + 1) vector syscallNum args = some r) :
    r.2.cpu.programCounter = m.cpu.programCounter ↔
      HandlerKeepsPC depth desc vector syscallNum args m := by
  rw [dispatchTrap_registered hdesc] at hr
  obtain ⟨last, hlast, rfl⟩ := Option.map_eq_some_iff.mp hr
  have hleave : (last.2.leave last.1).cpu.programCounter = last.2.cpu.programCounter :=
    (returnToUserMode_registers last.2.cpu).1
  unfold HandlerKeepsPC
  simp only [hlast, hleave, Option.some.injEq, forall_eq']

theorem triggerSyscall_cpu (pid syscallNum : Int64) (args : Vector UInt64 6) (k : SyscallKernel) :
    (k.triggerSyscall pid syscallNum args).2.cpu =
      (k.cpu.switchToKernelMode 0x80).returnToUserMode := rfl

/-- **When traps and system calls are transparent.**  A trap of a registered vector that returns,
with traps nested to any depth, ends in user mode.  It is transparent exactly when it was taken in
user mode and the handler that it calls keeps the program counter, as it does in a table of quiet
handlers.  A system call through the kernel keeps the mode exactly when it is made in user mode.
SOURCE: pkg/kernel/trap_table.go:86-121, pkg/kernel/os_kernel.go:90-122 -/
theorem traps_transparent (args : Vector UInt64 6) (m : TrapMachine) (vector num : ℤ)
    (k : SyscallKernel) (pid syscallNum : Int64) :
    (∀ desc, m.traps.descriptors vector = some desc → ∀ (depth : ℕ) (r : TrapReturn),
      m.dispatchTrap (depth + 1) vector num args = some r →
        r.2.cpu.currentMode = .user ∧
          (Transparent m.cpu r.2.cpu ↔
            m.cpu.currentMode = .user ∧ HandlerKeepsPC depth desc vector num args m) ∧
          (QuietTable m.traps → HandlerKeepsPC depth desc vector num args m)) ∧
      let k' := (k.triggerSyscall pid syscallNum args).2
      k'.cpu.programCounter = k.cpu.programCounter ∧ k'.cpu.currentMode = .user ∧
        (k'.cpu.currentMode = k.cpu.currentMode ↔ k.cpu.currentMode = .user) := by
  constructor
  · intro desc hdesc depth r hr
    have hmode := dispatchTrap_mode (by simp [hdesc]) hr
    have hpc := dispatchTrap_pc_iff hdesc hr
    refine ⟨hmode, ⟨fun h => ?_, fun ⟨huser, hkeeps⟩ => ?_⟩, fun hquiet => ?_⟩
    · exact ⟨h.mode_eq.symm.trans hmode, hpc.mp h.pc_eq⟩
    · exact ⟨hmode.trans huser.symm, hpc.mpr hkeeps⟩
    · exact hpc.mp (quietDispatch _ _ _ _ _ _ hquiet hr).pc_eq
  · intro k'
    have hcpu : k'.cpu = (k.cpu.switchToKernelMode 0x80).returnToUserMode :=
      triggerSyscall_cpu pid syscallNum args k
    have hmode : k'.cpu.currentMode = .user := by
      rw [hcpu]
      exact returnToUserMode_mode _
    refine ⟨?_, hmode, ?_⟩
    · rw [hcpu, (returnToUserMode_registers _).1, (switchToKernelMode_registers _ _).1]
    · rw [hmode]
      exact eq_comm

/-- A keyboard handler that executes one instruction and goes back to the saved one. -/
def restoresPC : TrapHandlerFunc := fun _ ctx =>
  .call (.executeInstruction ⟨.userArithmetic, "ADD EAX, EBX", false⟩) fun _ _ =>
    .assign (fun cpu => { cpu with programCounter := ctx.savedPC }) fun _ => .finish 0 none

/-- The trap of this handler, taken on a new CPU. -/
theorem traps_transparent_restored :
    let m : TrapMachine := ⟨newHardwareCPU, newTrapTable.registerHandler 33
      "Keyboard Controller (IRQ 1)" .interrupt (some restoresPC)⟩
    ∃ r, m.dispatchTrap 1 33 0 (Vector.replicate 6 0) = some r ∧
      Transparent newHardwareCPU r.2.cpu := by
  intro m
  have htrap := (traps_transparent (Vector.replicate 6 0) m 33 0
    { toOSKernel := newOSKernel none } 1 sysGetPID).1 _ rfl 0
  refine ⟨_, rfl, (htrap _ rfl).2.1.mpr ⟨rfl, ?_⟩⟩
  intro last hlast
  obtain rfl := Option.some.inj hlast
  rfl

/-! ## Traps that are not transparent -/

/-- A timer handler that executes one instruction. -/
def oneInstruction : TrapHandlerFunc := fun _ _ =>
  .call (.executeInstruction ⟨.userArithmetic, "ADD EAX, EBX", false⟩) fun _ _ => .finish 0 none

/-- A disk handler that dispatches the timer trap and then disables the interrupts. -/
def nestedTimer : TrapHandlerFunc := fun _ _ =>
  .dispatchTrap 32 0 (Vector.replicate 6 0) fun _ _ =>
    .call (.executeInstruction ⟨.privilegedCLI, "CLI", true⟩) fun err _ =>
      .finish 0 (err.map CPUError.message)

def busyTable : TrapTable :=
  (newTrapTable.registerHandler 32 "PIT Timer Interrupt (IRQ 0)" .interrupt
    (some oneInstruction)).registerHandler 46 "Disk Controller (IRQ 14)" .interrupt
    (some nestedTimer)

/-- The default timer trap taken in kernel mode ends in user mode; a timer trap whose handler
executes one instruction moves the program counter by four; after a nested trap the outer
handler is in user mode, where its `CLI` faults; and a system call made in kernel mode ends
in user mode. -/
theorem traps_not_transparent :
    let noArgs : Vector UInt64 6 := Vector.replicate 6 0
    let inKernel := newHardwareCPU.switchToKernelMode 0x80
    let k : SyscallKernel := { toOSKernel := { newOSKernel none with cpu := inKernel } }
    inKernel.currentMode = .kernel ∧
      ((TrapMachine.mk inKernel newTrapTable).dispatchTrap 1 32 0 noArgs).map
        (fun r => r.2.cpu.currentMode) = some .user ∧
      newHardwareCPU.programCounter = 0x400000 ∧
      ((TrapMachine.mk newHardwareCPU busyTable).dispatchTrap 1 32 0 noArgs).map
        (fun r => r.2.cpu.programCounter) = some 0x400004 ∧
      ((TrapMachine.mk newHardwareCPU busyTable).dispatchTrap 2 46 0 noArgs).map
        (fun r => r.2.cpu.interruptsOn) = some true ∧
      (k.triggerSyscall 1 sysGetPID noArgs).2.cpu.currentMode = .user := by
  refine ⟨rfl, rfl, rfl, rfl, rfl, ?_⟩
  rfl

end OsSimulator.Analysis
