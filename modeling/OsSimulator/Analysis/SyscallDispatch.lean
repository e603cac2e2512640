import OsSimulator.Model.Syscall

/-!
# Pointers, results and registers of the system calls

Three facts about the dispatcher, each with the inputs on which it fails.

* `validateUserPointer_exact`: the check adds two 64-bit words, so a range whose end wraps
  around is accepted; all other ranges are judged rightly.
* `transfer_exact`: `read` and `write` do not use this check but compare the start of the
  buffer only, so a buffer that starts below the kernel and ends in it is accepted.
* `syscall_registers`: `RAX` is `-EINVAL` after every failed handler while the returned value
  is the handler's own, and a count of `2 ^ 63` or more is returned as a negative number
  without an error.
-/

set_option autoImplicit false

namespace OsSimulator.Analysis

open Model

/-- The whole range of `size` bytes at `ptr` lies below the kernel, and so does its start. -/
def BelowKernel (kernelBase ptr size : UInt64) : Prop :=
  ptr.toNat < kernelBase.toNat ∧ ptr.toNat + size.toNat ≤ kernelBase.toNat

/-! ## The pointer check -/

theorem validateUserPointer_eq_none_iff (sd : SyscallDispatcher) (vAddr size : UInt64) :
    sd.validateUserPointer vAddr size = none ↔
      vAddr.toNat < sd.kernelBase.toNat ∧
        (vAddr.toNat + size.toNat) % UInt64.size ≤ sd.kernelBase.toNat := by
  have hsum : (vAddr + size).toNat = (vAddr.toNat + size.toNat) % UInt64.size :=
    UInt64.toNat_add vAddr size
  rw [← hsum, ← UInt64.le_iff_toNat_le, ← UInt64.lt_iff_toNat_lt]
  unfold SyscallDispatcher.validateUserPointer
  split
  · rename_i hbad
    refine iff_of_false (by simp) fun hgood => ?_
    rcases hbad with hbad | hbad
    · exact absurd hgood.2 (UInt64.not_le.mpr hbad)
    · exact absurd hgood.1 (UInt64.not_lt.mpr hbad)
  · rename_i hgood
    rw [not_or] at hgood
    exact iff_of_true rfl ⟨UInt64.not_le.mp hgood.2, UInt64.not_lt.mp hgood.1⟩

/-- **The pointer check.**  A pointer passes if its range lies below the kernel, or if it
starts there and its end wraps around; so the check is exact on all inputs but the latter.
SOURCE: pkg/kernel/syscall.go:104-109 -/
theorem validateUserPointer_exact (sd : SyscallDispatcher) (vAddr size : UInt64) :
    (sd.validateUserPointer vAddr size = none ↔
      BelowKernel sd.kernelBase vAddr size ∨
        vAddr.toNat < sd.kernelBase.toNat ∧ UInt64.size ≤ vAddr.toNat + size.toNat) ∧
    ((sd.validateUserPointer vAddr size = none ↔ BelowKernel sd.kernelBase vAddr size) ↔
      ¬ (vAddr.toNat < sd.kernelBase.toNat ∧ UInt64.size ≤ vAddr.toNat + size.toNat)) := by
  rw [validateUserPointer_eq_none_iff]
  unfold BelowKernel
  have hv := vAddr.toNat_lt_size
  have hs := size.toNat_lt_size
  have hb := sd.kernelBase.toNat_lt_size
  by_cases hwrap : UInt64.size ≤ vAddr.toNat + size.toNat
  · -- the wrapped end lies before the start of the range
    have hmod : (vAddr.toNat + size.toNat) % UInt64.size =
        vAddr.toNat + size.toNat - UInt64.size := by
      rw [Nat.mod_eq_sub_mod hwrap, Nat.mod_eq_of_lt (by omega)]
    rw [hmod]
    omega
  · rw [Nat.mod_eq_of_lt (by omega)]
    omega

/-- From the first page, a range of `2 ^ 64 - 4096` bytes wraps around to address `0`. -/
theorem validateUserPointer_wraps :
    newSyscallDispatcher.validateUserPointer 0x1000 0xFFFFFFFFFFFFF000 = none ∧
      ¬ BelowKernel newSyscallDispatcher.kernelBase 0x1000 0xFFFFFFFFFFFFF000 := by
  refine ⟨rfl, ?_⟩
  unfold BelowKernel
  decide

/-! ## What a dispatch does -/

section Dispatch

variable {sd : SyscallDispatcher} {pid ret : Int64} {regs regs' : SyscallRegisters}

/-- The value and error of a dispatch, and `RAX` after it. -/
def callOutcome (pid : Int64) (regs : SyscallRegisters) (sd : SyscallDispatcher) :
    (Int64 × Option SyscallError) × UInt64 :=
  let r := sd.dispatch pid regs
  (r.1, r.2.1.rax)

theorem callOutcome_unknown (htable : sd.table regs.rax.toInt64 = none) :
    callOutcome pid regs sd = ((-1, some (.invalidSyscall regs.rax.toInt64)), toErrno 1) := by
  simp only [callOutcome, SyscallDispatcher.dispatch, htable]

theorem callOutcome_ok {entry : SyscallEntry} (htable : sd.table regs.rax.toInt64 = some entry)
    (hhandler : entry.handler pid regs = ((ret, none), regs')) :
    callOutcome pid regs sd = ((ret, none), ret.toUInt64) := by
  simp only [callOutcome, SyscallDispatcher.dispatch, htable, hhandler]

theorem callOutcome_error {entry : SyscallEntry} {err : SyscallError}
    (htable : sd.table regs.rax.toInt64 = some entry)
    (hhandler : entry.handler pid regs = ((ret, some err), regs')) :
    callOutcome pid regs sd = ((ret, some err), toErrno 22) := by
  simp only [callOutcome, SyscallDispatcher.dispatch, htable, hhandler]

end Dispatch

/-! ## The default table -/

/-- `read` and `write`. -/
def IsTransfer (num : Int64) : Prop := num = sysRead ∨ num = sysWrite

/-- For a PID that is not negative the handler succeeds with a value that is not negative. -/
def Succeeds (handler : SyscallHandlerFunc) : Prop :=
  ∀ pid regs, 0 ≤ pid → ∃ ret, 0 ≤ ret ∧ handler pid regs = ((ret, none), regs)

/-- What the default table has at a number. -/
def DefaultHandler (num : Int64) (handler : SyscallHandlerFunc) : Prop :=
  (IsTransfer num ∧ handler = bufferHandler) ∨ (¬ IsTransfer num ∧ Succeeds handler)

/-- A property of all handlers of a table survives the registration of one that has it. -/
theorem register_handlers {P : Int64 → SyscallHandlerFunc → Prop} {sd : SyscallDispatcher}
    (hsd : ∀ n entry, sd.table n = some entry → P n entry.handler) (num : Int64) (name : String)
    {handler : SyscallHandlerFunc} (hnew : P num handler) (n : Int64) (entry : SyscallEntry)
    (hentry : (sd.register num name handler).table n = some entry) : P n entry.handler := by
  by_cases hn : n = num
  · simp only [SyscallDispatcher.register, if_pos hn, Option.some.injEq] at hentry
    subst hentry
    rw [hn]
    exact hnew
  · simp only [SyscallDispatcher.register, if_neg hn] at hentry
    exact hsd n entry hentry

theorem succeeds_constant {ret : Int64} (hret : 0 ≤ ret) : Succeeds (constantHandler ret) :=
  fun _ _ _ => ⟨ret, hret, rfl⟩

/-- **The default table**: `read` and `write` share a handler, all others succeed. -/
theorem newSyscallDispatcher_handlers (num : Int64) (entry : SyscallEntry)
    (hentry : newSyscallDispatcher.table num = some entry) : DefaultHandler num entry.handler := by
  have hconst : ∀ {num ret : Int64}, num ≠ sysRead → num ≠ sysWrite → 0 ≤ ret →
      DefaultHandler num (constantHandler ret) := fun hread hwrite hret =>
    .inr ⟨fun h => h.elim hread hwrite, succeeds_constant hret⟩
  revert num entry
  unfold newSyscallDispatcher
  iterate 8 refine register_handlers ?_ _ _ (hconst (by decide) (by decide) (by decide))
  refine register_handlers ?_ _ _ (.inl ⟨.inl rfl, rfl⟩)
  refine register_handlers ?_ _ _ (.inl ⟨.inr rfl, rfl⟩)
  refine register_handlers ?_ _ _ (hconst (by decide) (by decide) (by decide))
  refine register_handlers ?_ _ _ (.inr ⟨by unfold IsTransfer; decide, ?_⟩)
  · exact fun _ _ hentry => by cases hentry
  · exact fun pid regs hpid => ⟨pid, hpid, rfl⟩

theorem exists_transfer_entry {num : Int64} (hnum : IsTransfer num) :
    ∃ entry, newSyscallDispatcher.table num = some entry ∧ entry.handler = bufferHandler := by
  rcases hnum with rfl | rfl
  · exact ⟨_, rfl, rfl⟩
  · exact ⟨_, rfl, rfl⟩

/-! ## Reads and writes -/

/-- **What `read` and `write` do**: they look at the start of the buffer only. -/
theorem callOutcome_transfer (pid : Int64) {regs : SyscallRegisters}
    (hnum : IsTransfer regs.rax.toInt64) :
    (newSyscallDispatcher.kernelBase ≤ regs.rsi ∧
      callOutcome pid regs newSyscallDispatcher =
        ((-14, some (.badBuffer regs.rsi)), toErrno 22)) ∨
    (regs.rsi < newSyscallDispatcher.kernelBase ∧
      callOutcome pid regs newSyscallDispatcher =
        ((regs.rdx.toInt64, none), regs.rdx.toInt64.toUInt64)) := by
  obtain ⟨entry, htable, hhandler⟩ := exists_transfer_entry hnum
  by_cases hbad : newSyscallDispatcher.kernelBase ≤ regs.rsi
  · have hret : entry.handler pid regs = ((-14, some (.badBuffer regs.rsi)), regs) := by
      rw [hhandler]
      exact if_pos hbad
    exact .inl ⟨hbad, callOutcome_error htable hret⟩
  · have hret : entry.handler pid regs = ((regs.rdx.toInt64, none), regs) := by
      rw [hhandler]
      exact if_neg hbad
    exact .inr ⟨UInt64.not_le.mp hbad, callOutcome_ok htable hret⟩

/-- **Buffers of `read` and `write`.**  A call succeeds exactly when the buffer starts below
the kernel, and fails with the error for a bad pointer otherwise; so it succeeds exactly on
the buffers that lie below the kernel, but for those that start below it and end in it.
SOURCE: pkg/kernel/syscall.go:189-210 -/
theorem transfer_exact (pid : Int64) (regs : SyscallRegisters)
    (hnum : IsTransfer regs.rax.toInt64) :
    let base := newSyscallDispatcher.kernelBase
    let err := (newSyscallDispatcher.dispatch pid regs).1.2
    (err = none ↔ regs.rsi < base) ∧
      (∀ e, err = some e → e.isBadUserPointer = true) ∧
      ((err = none ↔ BelowKernel base regs.rsi regs.rdx) ↔
        ¬ (regs.rsi.toNat < base.toNat ∧ base.toNat < regs.rsi.toNat + regs.rdx.toNat)) := by
  intro base err
  have herr : err = (callOutcome pid regs newSyscallDispatcher).1.2 := rfl
  unfold BelowKernel
  rcases callOutcome_transfer pid hnum with ⟨hbad, hout⟩ | ⟨hgood, hout⟩
  · rw [hout] at herr
    have hle : base.toNat ≤ regs.rsi.toNat := UInt64.le_iff_toNat_le.mp hbad
    have hfails : ¬ err = none := by
      rw [herr]
      simp
    refine ⟨iff_of_false hfails (UInt64.not_lt.mpr hbad), ?_, ?_⟩
    · intro e he
      obtain rfl := Option.some.inj (herr.symm.trans he)
      rfl
    · exact iff_of_true (iff_of_false hfails (by omega)) (by omega)
  · rw [hout] at herr
    have hlt : regs.rsi.toNat < base.toNat := UInt64.lt_iff_toNat_lt.mp hgood
    refine ⟨iff_of_true herr hgood, ?_, ?_⟩
    · intro e he
      rw [herr] at he
      cases he
    · simp only [herr, true_iff]
      omega

/-- A write of two bytes at the last address below the kernel. -/
def straddlingWrite : SyscallRegisters := { rax := 6, rdi := 1, rsi := 0xBFFFFFFF, rdx := 2 }

theorem transfer_exact_straddling :
    IsTransfer straddlingWrite.rax.toInt64 ∧
      (newSyscallDispatcher.dispatch 42 straddlingWrite).1.2 = none := by
  have hnum : IsTransfer straddlingWrite.rax.toInt64 := .inr rfl
  exact ⟨hnum, (transfer_exact 42 straddlingWrite hnum).1.mpr (by decide)⟩

/-- It succeeds although its second byte is the first one of the kernel. -/
theorem write_reaches_into_kernel :
    (newSyscallDispatcher.dispatch 42 straddlingWrite).1 = (2, none) ∧
      ¬ BelowKernel newSyscallDispatcher.kernelBase straddlingWrite.rsi straddlingWrite.rdx := by
  refine ⟨rfl, ?_⟩
  unfold BelowKernel
  decide

/-! ## Registers -/

/-- A word is negative as an `int64` from `2 ^ 63` on. -/
theorem toInt64_neg_iff (x : UInt64) : x.toInt64 < 0 ↔ 0x8000000000000000 ≤ x := by
  rw [Int64.lt_iff_toInt_lt, UInt64.le_iff_toNat_le]
  show x.toBitVec.toInt < 0 ↔ 0x8000000000000000 ≤ x.toBitVec.toNat
  rw [BitVec.toInt_neg_iff]
  omega

/-- **The register and the result.**  For a PID that is not negative: `RAX` is the returned
value, unless a `read` or `write` has failed; and the value is negative exactly in case of an
error, unless a `read` or `write` succeeds with a count of `2 ^ 63` or more.
SOURCE: pkg/kernel/syscall.go:112-138 -/
theorem syscall_registers (pid : Int64) (regs : SyscallRegisters) (hpid : 0 ≤ pid) :
    let r := newSyscallDispatcher.dispatch pid regs
    let transfer := IsTransfer regs.rax.toInt64
    let base := newSyscallDispatcher.kernelBase
    (r.2.1.rax = r.1.1.toUInt64 ↔ ¬ (transfer ∧ base ≤ regs.rsi)) ∧
      ((r.1.1 < 0 ↔ r.1.2 ≠ none) ↔
        ¬ (transfer ∧ regs.rsi < base ∧ 0x8000000000000000 ≤ regs.rdx)) := by
  intro r transfer base
  have hrax : r.2.1.rax = (callOutcome pid regs newSyscallDispatcher).2 := rfl
  have hret : r.1 = (callOutcome pid regs newSyscallDispatcher).1 := rfl
  rw [hrax, hret]
  by_cases hnum : transfer
  · rcases callOutcome_transfer pid hnum with ⟨hbad, hout⟩ | ⟨hgood, hout⟩
    · -- the value is `-EFAULT`, the register `-EINVAL`
      rw [hout]
      have hne : toErrno 22 ≠ (-14 : Int64).toUInt64 := by decide
      refine ⟨iff_of_false hne (not_not.mpr ⟨hnum, hbad⟩), ?_⟩
      exact iff_of_true (iff_of_true (show (-14 : Int64) < 0 by decide) (by simp))
        fun h => UInt64.not_le.mpr h.2.1 hbad
    · rw [hout]
      refine ⟨iff_of_true rfl fun h => UInt64.not_le.mpr hgood h.2, ?_⟩
      simp only [ne_eq, not_true_eq_false, iff_false, hnum, true_and, not_and]
      rw [toInt64_neg_iff]
      exact ⟨fun h _ => h, fun h => h hgood⟩
  · cases htable : newSyscallDispatcher.table regs.rax.toInt64 with
    | none =>
      rw [callOutcome_unknown htable]
      exact ⟨iff_of_true rfl fun h => hnum h.1,
        iff_of_true (iff_of_true (show (-1 : Int64) < 0 by decide) (by simp)) fun h => hnum h.1⟩
    | some entry =>
      have hsucceeds : Succeeds entry.handler :=
        (newSyscallDispatcher_handlers _ entry htable).elim (fun h => absurd h.1 hnum) And.right
      obtain ⟨ret, hnonneg, hhandler⟩ := hsucceeds pid regs hpid
      rw [callOutcome_ok htable hhandler]
      exact ⟨iff_of_true rfl fun h => hnum h.1,
        iff_of_true (iff_of_false (Int64.not_lt.mpr hnonneg) (by simp)) fun h => hnum h.1⟩

/-- `getpid` for process `42`. -/
def getpidCall : SyscallRegisters := { rax := 13 }

theorem syscall_registers_getpid :
    (0 : Int64) ≤ 42 ∧ (newSyscallDispatcher.dispatch 42 getpidCall).2.1.rax =
      (newSyscallDispatcher.dispatch 42 getpidCall).1.1.toUInt64 := by
  refine ⟨by decide, (syscall_registers 42 getpidCall (by decide)).1.mpr ?_⟩
  unfold IsTransfer
  decide

/-- A write from a kernel address returns `-14` and leaves `-22` in `RAX`; a write of `2 ^ 63`
bytes returns a negative count without an error. -/
theorem registers_disagree :
    let bad : SyscallRegisters := { rax := 6, rdi := 1, rsi := 0xC0001000, rdx := 64 }
    let huge : SyscallRegisters :=
      { rax := 6, rdi := 1, rsi := 0x00405000, rdx := 0x8000000000000000 }
    (newSyscallDispatcher.dispatch 42 bad).1.1 = -14 ∧
      (newSyscallDispatcher.dispatch 42 bad).2.1.rax = (-22 : Int64).toUInt64 ∧
      (newSyscallDispatcher.dispatch 42 bad).2.1.rax ≠
        (newSyscallDispatcher.dispatch 42 bad).1.1.toUInt64 ∧
      (newSyscallDispatcher.dispatch 42 huge).1.1 < 0 ∧
      (newSyscallDispatcher.dispatch 42 huge).1.2 = none := by
  decide

end OsSimulator.Analysis
