import OsSimulator.Model.CpuMode
import OsSimulator.Library.EventRun

/-!
# Privileged effects and the mode of the CPU

The interrupt flag and the page table base are the protected registers.  A step of the CPU
is `Guarded` when it changes them only by an instruction that starts in kernel mode, and when
in user mode every `PRIV_` opcode faults and changes nothing.

`ExecuteInstruction` asks the flag of the instruction, not its opcode, whether the
instruction is privileged.  So a step is guarded exactly when a `PRIV_` opcode that is executed
in user mode carries the flag (`guarded_iff_flagged`); an instruction that lacks it disables
the interrupts from user mode (`unflagged_cli_in_user_mode`).
-/

set_option autoImplicit false

namespace OsSimulator.Analysis

open Model Library

/-! ## What the methods change -/

section Methods

variable (cpu : HardwareCPU)

@[simp] theorem switchToKernelMode_mode (vector : ℤ) :
    (cpu.switchToKernelMode vector).currentMode = .kernel := by
  unfold HardwareCPU.switchToKernelMode
  split
  · assumption
  · rfl

@[simp] theorem returnToUserMode_mode : cpu.returnToUserMode.currentMode = .user := by
  unfold HardwareCPU.returnToUserMode
  split
  · assumption
  · rfl

/-- The mode switches leave all other registers alone. -/
theorem switchToKernelMode_registers (vector : ℤ) :
    (cpu.switchToKernelMode vector).programCounter = cpu.programCounter ∧
      (cpu.switchToKernelMode vector).interruptsOn = cpu.interruptsOn ∧
      (cpu.switchToKernelMode vector).cr3 = cpu.cr3 := by
  unfold HardwareCPU.switchToKernelMode
  split <;> exact ⟨rfl, rfl, rfl⟩

theorem returnToUserMode_registers :
    cpu.returnToUserMode.programCounter = cpu.programCounter ∧
      cpu.returnToUserMode.interruptsOn = cpu.interruptsOn ∧
      cpu.returnToUserMode.cr3 = cpu.cr3 := by
  unfold HardwareCPU.returnToUserMode
  split <;> exact ⟨rfl, rfl, rfl⟩

variable {cpu}

/-- Only the opcodes `PRIV_CLI`, `PRIV_STI` and `PRIV_MOV_CR3` touch the protected registers. -/
theorem effect_protected {opcode : InstructionType} (hop : opcode.isPriv = false) :
    (cpu.effect opcode).interruptsOn = cpu.interruptsOn ∧ (cpu.effect opcode).cr3 = cpu.cr3 := by
  cases opcode with
  | syscall => exact (switchToKernelMode_registers cpu 0x80).2
  | userArithmetic | userBranch | other => exact ⟨rfl, rfl⟩
  | _ => simp [InstructionType.isPriv] at hop

/-- Only `SYSCALL_TRAP` touches the mode. -/
theorem effect_mode {opcode : InstructionType} (hop : opcode ≠ .syscall) :
    (cpu.effect opcode).currentMode = cpu.currentMode := by
  cases opcode with
  | syscall => exact absurd rfl hop
  | _ => rfl

/-- **What an instruction does**: a flagged one faults in user mode and is only logged, any
other has the effect of its opcode and advances the program counter. -/
theorem executeInstruction_cases (inst : CPUInstruction) (cpu : HardwareCPU) :
    (inst.isPrivileged = true ∧ cpu.currentMode = .user ∧
      ∃ line, cpu.executeInstruction inst =
        (some (.privilegeViolation inst.opcode), cpu.log line)) ∨
    (¬ (inst.isPrivileged = true ∧ cpu.currentMode = .user) ∧
      ∃ line, cpu.executeInstruction inst =
        (none, { cpu.effect inst.opcode with
          programCounter := (cpu.effect inst.opcode).programCounter + 4 }.log line)) := by
  unfold HardwareCPU.executeInstruction
  by_cases hfault : inst.isPrivileged = true ∧ cpu.currentMode = .user
  · exact .inl ⟨hfault.1, hfault.2, _, if_pos hfault⟩
  · exact .inr ⟨hfault, _, if_neg hfault⟩

end Methods

/-! ## One step -/

/-- The call changes a protected register. -/
def ChangesProtected (cpu : HardwareCPU) (c : CPUCall) : Prop :=
  ¬ ((cpu.call c).2.interruptsOn = cpu.interruptsOn ∧ (cpu.call c).2.cr3 = cpu.cr3)

/-- The call fails with the privilege violation and changes nothing but the log. -/
structure PrivilegeFault (cpu : HardwareCPU) (inst : CPUInstruction) : Prop where
  error_eq : (cpu.executeInstruction inst).1 = some (.privilegeViolation inst.opcode)
  mode_eq : (cpu.executeInstruction inst).2.currentMode = cpu.currentMode
  pc_eq : (cpu.executeInstruction inst).2.programCounter = cpu.programCounter
  interrupts_eq : (cpu.executeInstruction inst).2.interruptsOn = cpu.interruptsOn
  cr3_eq : (cpu.executeInstruction inst).2.cr3 = cpu.cr3

structure Guarded (cpu : HardwareCPU) (c : CPUCall) : Prop where
  kernel_only : ChangesProtected cpu c →
    cpu.currentMode = .kernel ∧ ∃ inst, c = .executeInstruction inst
  user_faults : ∀ inst, c = .executeInstruction inst → inst.opcode.isPriv = true →
    cpu.currentMode = .user → PrivilegeFault cpu inst

/-- A `PRIV_` opcode that the call executes in user mode carries the flag. -/
def Flagged (cpu : HardwareCPU) (c : CPUCall) : Prop :=
  ∀ inst, c = .executeInstruction inst → inst.opcode.isPriv = true →
    cpu.currentMode = .user → inst.isPrivileged = true

/-- In user mode an instruction faults exactly when it carries the flag. -/
theorem privilegeFault_iff {cpu : HardwareCPU} (hmode : cpu.currentMode = .user)
    (inst : CPUInstruction) :
    PrivilegeFault cpu inst ↔ inst.isPrivileged = true := by
  rcases executeInstruction_cases inst cpu with ⟨hpriv, -, line, heq⟩ | ⟨hnot, line, heq⟩
  · refine ⟨fun _ => hpriv, fun _ => ?_⟩
    constructor <;> rw [heq] <;> rfl
  · constructor
    · intro hf
      have herr := hf.error_eq
      rw [heq] at herr
      cases herr
    · exact fun hpriv => absurd ⟨hpriv, hmode⟩ hnot

/-- Without a `PRIV_` opcode there is no protected effect. -/
theorem not_changesProtected {cpu : HardwareCPU} {inst : CPUInstruction}
    (hop : inst.opcode.isPriv = false) : ¬ ChangesProtected cpu (.executeInstruction inst) := by
  apply not_not.mpr
  show (cpu.executeInstruction inst).2.interruptsOn = cpu.interruptsOn ∧
    (cpu.executeInstruction inst).2.cr3 = cpu.cr3
  rcases executeInstruction_cases inst cpu with ⟨-, -, line, heq⟩ | ⟨-, line, heq⟩
  · rw [heq]
    exact ⟨rfl, rfl⟩
  · rw [heq]
    exact effect_protected hop

theorem mode_eq_kernel_or_user (cpu : HardwareCPU) :
    cpu.currentMode = .kernel ∨ cpu.currentMode = .user := by
  cases cpu.currentMode <;> simp

/-- **One step** is guarded exactly when it is flagged. -/
theorem guarded_iff_flagged (cpu : HardwareCPU) (c : CPUCall) : Guarded cpu c ↔ Flagged cpu c := by
  constructor
  · intro h inst hc hop hmode
    exact (privilegeFault_iff hmode inst).mp (h.user_faults inst hc hop hmode)
  · intro h
    refine ⟨fun hchange => ?_, fun inst hc hop hmode => ?_⟩
    · cases c with
      | executeInstruction inst =>
        refine ⟨?_, inst, rfl⟩
        rcases mode_eq_kernel_or_user cpu with hmode | hmode
        · exact hmode
        · exfalso
          cases hop : inst.opcode.isPriv with
          | true =>
            have hf := (privilegeFault_iff hmode inst).mpr (h inst rfl hop hmode)
            exact hchange ⟨hf.interrupts_eq, hf.cr3_eq⟩
          | false => exact not_changesProtected hop hchange
      | switchToKernelMode vector =>
        exact absurd (switchToKernelMode_registers cpu vector).2 hchange
      | returnToUserMode => exact absurd (returnToUserMode_registers cpu).2 hchange
    · exact (privilegeFault_iff hmode inst).mpr (h inst hc hop hmode)

/-! ## Sequences of calls -/

/-- **Privileged effects.**  All steps of a sequence of calls are guarded exactly when every
`PRIV_` instruction that it executes in user mode carries the flag; so they are in every
sequence whose `PRIV_` instructions carry it.
SOURCE: pkg/kernel/cpu_mode.go:75-123 -/
theorem privileged_effects (cpu : HardwareCPU) (calls : List CPUCall) :
    ((∀ done c, done ++ [c] <+: calls → Guarded (cpu.run done) c) ↔
      ∀ done c, done ++ [c] <+: calls → Flagged (cpu.run done) c) ∧
    ((∀ inst, .executeInstruction inst ∈ calls → inst.opcode.isPriv = true →
        inst.isPrivileged = true) →
      ∀ done c, done ++ [c] <+: calls → Guarded (cpu.run done) c) := by
  refine ⟨?_, fun hflags done c hpre => ?_⟩
  · simp only [guarded_iff_flagged]
  · rw [guarded_iff_flagged]
    intro inst hc hop _
    apply hflags inst _ hop
    have hmem : c ∈ done ++ [c] := by simp
    exact hc ▸ hpre.subset hmem

/-- `CLI` without the flag. -/
def unflaggedCLI : CPUInstruction := ⟨.privilegedCLI, "CLI", false⟩

/-- Executed on a new CPU, which is in user mode, it succeeds and disables the interrupts. -/
theorem unflagged_cli_in_user_mode :
    newHardwareCPU.currentMode = .user ∧ unflaggedCLI.opcode.isPriv = true ∧
      (newHardwareCPU.executeInstruction unflaggedCLI).1 = none ∧
      newHardwareCPU.interruptsOn = true ∧
      (newHardwareCPU.executeInstruction unflaggedCLI).2.interruptsOn = false ∧
      ¬ Guarded newHardwareCPU (.executeInstruction unflaggedCLI) := by
  refine ⟨rfl, rfl, rfl, rfl, rfl, fun h => ?_⟩
  have herr := (h.user_faults unflaggedCLI rfl rfl rfl).error_eq
  cases herr

/-- The calls by which user mode can be left. -/
def EntersKernel : CPUCall → Prop
  | .executeInstruction inst => inst.opcode = .syscall
  | .switchToKernelMode _ => True
  | .returnToUserMode => False

theorem call_keeps_user {cpu : HardwareCPU} {c : CPUCall} (hmode : cpu.currentMode = .user)
    (hc : ¬ EntersKernel c) : (cpu.call c).2.currentMode = .user := by
  cases c with
  | executeInstruction inst =>
    show (cpu.executeInstruction inst).2.currentMode = .user
    rcases executeInstruction_cases inst cpu with ⟨-, -, line, heq⟩ | ⟨-, line, heq⟩
    · rw [heq]
      exact hmode
    · rw [heq]
      exact (effect_mode hc).trans hmode
  | switchToKernelMode vector => exact absurd trivial hc
  | returnToUserMode => exact returnToUserMode_mode cpu

/-- Code that stays in user mode and carries its flags leaves the protected registers as it
found them, however long it runs. -/
theorem user_run_keeps_protected (cpu : HardwareCPU) (calls : List CPUCall)
    (hmode : cpu.currentMode = .user) (henter : ∀ c ∈ calls, ¬ EntersKernel c)
    (hflags : ∀ inst, .executeInstruction inst ∈ calls → inst.opcode.isPriv = true →
      inst.isPrivileged = true) :
    (cpu.run calls).currentMode = .user ∧ (cpu.run calls).interruptsOn = cpu.interruptsOn ∧
      (cpu.run calls).cr3 = cpu.cr3 := by
  induction calls using List.reverseRecOn with
  | nil => exact ⟨hmode, rfl, rfl⟩
  | append_singleton done c ih =>
    obtain ⟨hm, hi, hr⟩ := ih (fun c hc => henter c (List.mem_append_left _ hc))
      fun inst hc => hflags inst (List.mem_append_left _ hc)
    have hrun : cpu.run (done ++ [c]) = ((cpu.run done).call c).2 := by
      simp [HardwareCPU.run, List.foldl_append]
    have hlast : c ∈ done ++ [c] := by simp
    have hguarded : Guarded (cpu.run done) c := by
      rw [guarded_iff_flagged]
      intro inst hc hop _
      exact hflags inst (hc ▸ hlast) hop
    have hsame : ¬ ChangesProtected (cpu.run done) c := by
      intro hchange
      have hkernel := (hguarded.kernel_only hchange).1
      rw [hm] at hkernel
      cases hkernel
    have hsame := not_not.mp hsame
    rw [hrun]
    exact ⟨call_keeps_user hm (henter c hlast), hsame.1.trans hi, hsame.2.trans hr⟩

end OsSimulator.Analysis
