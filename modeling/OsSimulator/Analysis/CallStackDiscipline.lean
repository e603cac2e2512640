import OsSimulator.Model.CallStack
import OsSimulator.Library.EventRun
import Mathlib.Combinatorics.Enumerative.DyckWord

/-!
# The discipline of the call stack

The stack grows down from its base, so the pointers of a well-nested stack are determined by
its frames: the stack pointer lies below the base by the bytes of the live frames, the base
pointer by the bytes of the frames under the top one, and each frame has saved the base
pointer of the frames under it.  Every call keeps this (`stackOk_call`).  Since the pointers
follow from the frames, a balanced run only has to bring the frames back
(`frames_of_nesting`).
-/

set_option autoImplicit false

namespace OsSimulator.Analysis

open Library
open Model
open DyckStep

variable {V : Type}

/-! ## Pointers and frames -/

/-- The bytes of frames, as an unbounded number. -/
def liveBytes (frames : List (StackFrame V)) : ℕ :=
  (frames.map fun f => f.frameSizeBytes.toNat).sum

@[simp] theorem liveBytes_concat (frames : List (StackFrame V)) (f : StackFrame V) :
    liveBytes (frames ++ [f]) = liveBytes frames + f.frameSizeBytes.toNat := by
  simp [liveBytes]

/-- The frame `f` has been pushed on the frames `below`: it has saved the base pointer of its
caller, which lies under the base by all frames but the caller's, and its own stack pointer
lies under the base by all frames and itself. -/
structure PushedOn (base : UInt64) (below : List (StackFrame V)) (f : StackFrame V) : Prop where
  framePointer : f.framePointer.toNat + liveBytes below.dropLast = base.toNat
  stackPointer : f.stackPointer.toNat + liveBytes (below ++ [f]) = base.toNat

/-- The state of a stack made with `base` and `total`. -/
structure StackOk (base total : UInt64) (cs : CallStack V) : Prop where
  base_eq : cs.baseAddress = base
  total_eq : cs.totalSizeBytes = total
  maxDepth_eq : cs.maxDepth = 256
  depth : cs.frames.length ≤ 256
  fits : liveBytes cs.frames ≤ total.toNat
  sp : cs.currentSP.toNat + liveBytes cs.frames = base.toNat
  bp : cs.currentBP.toNat + liveBytes cs.frames.dropLast = base.toNat
  pushed : ∀ below f above, cs.frames = below ++ f :: above → PushedOn base below f

theorem stackOk_new (base total : UInt64) : StackOk base total (newCallStack V base total) where
  base_eq := rfl
  total_eq := rfl
  maxDepth_eq := rfl
  depth := Nat.zero_le _
  fits := Nat.zero_le _
  sp := rfl
  bp := rfl
  pushed := by
    intro below f above h
    simp [newCallStack] at h

/-! ## One call -/

/-- The frame that a push would enter. -/
def frameOf (cs : CallStack V) (funcName : String) (retAddr frameSize : UInt64)
    (locals : String → Option V) : StackFrame V where
  functionName := funcName
  returnAddress := retAddr
  framePointer := cs.currentBP
  stackPointer := cs.currentSP - frameSize
  localVariables := locals
  frameSizeBytes := frameSize

/-- What a call can do. -/
inductive StackEffect (cs : CallStack V) :
    StackCall V → Except StackError (StackFrame V) × CallStack V → Prop where
  | error (c : StackCall V) (e : StackError) : StackEffect cs c (.error e, cs)
  | pushed (funcName : String) (retAddr frameSize : UInt64) (locals : String → Option V)
      (hdepth : (cs.frames.length : ℤ) < cs.maxDepth)
      (hsp : cs.currentSP - frameSize ≤ cs.currentSP)
      (hfits : cs.baseAddress - (cs.currentSP - frameSize) ≤ cs.totalSizeBytes) :
      StackEffect cs (.push funcName retAddr frameSize locals)
        (.ok (frameOf cs funcName retAddr frameSize locals),
          { cs with
            currentBP := cs.currentSP
            currentSP := cs.currentSP - frameSize
            frames := cs.frames ++ [frameOf cs funcName retAddr frameSize locals] })
  | popped (below : List (StackFrame V)) (f : StackFrame V) (hframes : cs.frames = below ++ [f]) :
      StackEffect cs .pop
        (.ok f,
          { cs with
            frames := below
            currentSP := cs.currentSP + f.frameSizeBytes
            currentBP := f.framePointer })

/-- Every call has one of these effects. -/
theorem call_stackEffect (cs : CallStack V) (c : StackCall V) : StackEffect cs c (cs.call c) := by
  cases c with
  | push funcName retAddr frameSize locals =>
    unfold CallStack.call CallStack.pushFrame
    dsimp only
    split
    · exact .error _ _
    · next hdepth =>
        split
        · exact .error _ _
        · next hroom =>
            obtain ⟨hsp, hfits⟩ := not_or.mp hroom
            exact .pushed funcName retAddr frameSize locals (not_le.mp hdepth)
              (UInt64.not_lt.mp hsp) (UInt64.not_lt.mp hfits)
  | pop =>
    rcases List.eq_nil_or_concat' cs.frames with hnil | ⟨below, f, hframes⟩
    · have hcall : cs.call .pop = (.error .underflow, cs) := by
        simp [CallStack.call, CallStack.popFrame, hnil]
      rw [hcall]
      exact .error _ _
    · have hcall : cs.call .pop =
          (.ok f, { cs with
            frames := below
            currentSP := cs.currentSP + f.frameSizeBytes
            currentBP := f.framePointer }) := by
        simp [CallStack.call, CallStack.popFrame, hframes]
      rw [hcall]
      exact .popped below f hframes

variable {base total : UInt64} {cs : CallStack V}

/-- The two comparisons of a push, as unbounded numbers: the frame has to fit between address
zero and the stack pointer, and all frames into the size of the stack. -/
theorem room_iff (h : StackOk base total cs) (frameSize : UInt64) :
    (cs.currentSP - frameSize ≤ cs.currentSP ∧
        cs.baseAddress - (cs.currentSP - frameSize) ≤ cs.totalSizeBytes) ↔
      liveBytes cs.frames + frameSize.toNat ≤ total.toNat ∧
        liveBytes cs.frames + frameSize.toNat ≤ base.toNat := by
  have hsp := h.sp
  have hbase := base.toNat_lt
  have hsize := frameSize.toNat_lt
  rw [h.base_eq, h.total_eq, UInt64.le_iff_toNat_le, UInt64.le_iff_toNat_le]
  by_cases hle : frameSize ≤ cs.currentSP
  · have hnew := UInt64.toNat_sub_of_le _ _ hle
    have hle' := UInt64.le_iff_toNat_le.mp hle
    have hused : (base - (cs.currentSP - frameSize)).toNat =
        base.toNat - (cs.currentSP - frameSize).toNat :=
      UInt64.toNat_sub_of_le _ _ (UInt64.le_iff_toNat_le.mpr (by omega))
    omega
  · -- the subtraction wraps, and the new stack pointer is above the old one
    have hlt : cs.currentSP.toNat < frameSize.toNat :=
      Nat.lt_of_not_le fun hle' => hle (UInt64.le_iff_toNat_le.mpr hle')
    have hwrap : (cs.currentSP - frameSize).toNat =
        2 ^ 64 - frameSize.toNat + cs.currentSP.toNat := by
      rw [UInt64.toNat_sub, Nat.mod_eq_of_lt (by omega)]
    omega

section Step

variable {base total : UInt64} {cs : CallStack V}

theorem StackOk.push (h : StackOk base total cs) (funcName : String) (retAddr : UInt64)
    {frameSize : UInt64} (locals : String → Option V) (hdepth : (cs.frames.length : ℤ) < cs.maxDepth)
    (htotal : liveBytes cs.frames + frameSize.toNat ≤ total.toNat)
    (hbase : liveBytes cs.frames + frameSize.toNat ≤ base.toNat) :
    StackOk base total { cs with
      currentBP := cs.currentSP
      currentSP := cs.currentSP - frameSize
      frames := cs.frames ++ [frameOf cs funcName retAddr frameSize locals] } := by
  have hsp := h.sp
  have hlive : liveBytes (cs.frames ++ [frameOf cs funcName retAddr frameSize locals]) =
      liveBytes cs.frames + frameSize.toNat := liveBytes_concat _ _
  have hnew : (cs.currentSP - frameSize).toNat +
      liveBytes (cs.frames ++ [frameOf cs funcName retAddr frameSize locals]) = base.toNat := by
    rw [hlive, UInt64.toNat_sub_of_le _ _ (UInt64.le_iff_toNat_le.mpr (by omega))]
    omega
  refine ⟨h.base_eq, h.total_eq, h.maxDepth_eq, ?_, ?_, hnew, ?_, ?_⟩
  · rw [h.maxDepth_eq] at hdepth
    rw [List.length_append, List.length_singleton]
    omega
  · rwa [hlive]
  · rw [List.dropLast_concat]
    exact hsp
  · intro below f above hsplit
    rcases List.eq_nil_or_concat' above with rfl | ⟨above, top, rfl⟩
    · obtain ⟨rfl, hf⟩ := List.append_inj' hsplit rfl
      obtain rfl := List.singleton_inj.mp hf
      exact ⟨h.bp, hnew⟩
    · rw [← List.cons_append, ← List.append_assoc] at hsplit
      exact h.pushed below f above (List.append_inj' hsplit rfl).1

theorem StackOk.pop (h : StackOk base total cs) {below : List (StackFrame V)} {f : StackFrame V}
    (hframes : cs.frames = below ++ [f]) :
    StackOk base total { cs with
      frames := below
      currentSP := cs.currentSP + f.frameSizeBytes
      currentBP := f.framePointer } := by
  have hf := h.pushed below f [] hframes
  have hsp := h.sp
  have hfits := h.fits
  have hdepth := h.depth
  rw [hframes, liveBytes_concat] at hsp hfits
  rw [hframes, List.length_append, List.length_singleton] at hdepth
  have hbase := base.toNat_lt
  refine ⟨h.base_eq, h.total_eq, h.maxDepth_eq, ?_, ?_, ?_, hf.framePointer, ?_⟩
  · exact Nat.le_of_succ_le hdepth
  · exact Nat.le_of_add_right_le hfits
  · change (cs.currentSP + f.frameSizeBytes).toNat + liveBytes below = base.toNat
    rw [UInt64.toNat_add, Nat.mod_eq_of_lt (by omega)]
    omega
  · intro below' g above hsplit
    refine h.pushed below' g (above ++ [f]) ?_
    change below = below' ++ g :: above at hsplit
    rw [hframes, hsplit, List.append_assoc, List.cons_append]

/-- Every call keeps the stack in order. -/
theorem stackOk_call (h : StackOk base total cs) (c : StackCall V) :
    StackOk base total (cs.call c).2 := by
  have heff := call_stackEffect cs c
  generalize cs.call c = r at heff ⊢
  cases heff with
  | error => exact h
  | pushed funcName retAddr frameSize locals hdepth hle hfits =>
    obtain ⟨htotal, hbase⟩ := (room_iff h frameSize).mp ⟨hle, hfits⟩
    exact h.push funcName retAddr locals hdepth htotal hbase
  | popped below f hframes => exact h.pop hframes

end Step

theorem stackOk_run (h : StackOk base total cs) (calls : List (StackCall V)) :
    StackOk base total (cs.run calls) := by
  unfold CallStack.run
  induction calls using List.reverseRecOn with
  | nil => exact h
  | append_singleton calls c ih =>
    rw [List.foldl_concat]
    exact stackOk_call ih c

/-! ## Balanced runs -/

/-- A call with the step that it takes: up for a frame that is entered, down for one that is
left, none for a call that fails. -/
def nestCall (c : StackCall V) (cs : CallStack V) : CallStack V × List DyckStep :=
  ((cs.call c).2,
    match c, (cs.call c).1 with
    | _, .error _ => []
    | .push .., .ok _ => [U]
    | .pop, .ok _ => [D])

/-- The steps of a run, in order. -/
def nesting (cs : CallStack V) (calls : List (StackCall V)) : List DyckStep :=
  (eventRun nestCall cs calls).2

theorem eventRun_nestCall (cs : CallStack V) (calls : List (StackCall V)) :
    (eventRun nestCall cs calls).1 = cs.run calls := by
  unfold CallStack.run
  induction calls using List.reverseRecOn with
  | nil => rfl
  | append_singleton calls c ih =>
    rw [eventRun_concat, List.foldl_concat, ih]
    rfl

theorem nesting_concat (cs : CallStack V) (calls : List (StackCall V)) (c : StackCall V) :
    nesting cs (calls ++ [c]) = nesting cs calls ++ (nestCall c (cs.run calls)).2 := by
  unfold nesting
  rw [eventRun_concat, eventRun_nestCall]

/-- Along a run that leaves no frame from before it, these frames stay where they are, under
one frame for each step up that has no step down. -/
theorem frames_of_nesting (cs : CallStack V) (calls : List (StackCall V))
    (hnest : ∀ word, word <+: nesting cs calls → word.count D ≤ word.count U) :
    ∃ entered, (cs.run calls).frames = cs.frames ++ entered ∧
      entered.length + (nesting cs calls).count D = (nesting cs calls).count U := by
  induction calls using List.reverseRecOn with
  | nil => exact ⟨[], (List.append_nil _).symm, rfl⟩
  | append_singleton calls c ih =>
    have hconcat := nesting_concat cs calls c
    have hlast := hnest _ (List.prefix_refl _)
    obtain ⟨entered, hframes, hcount⟩ := ih fun word hword =>
      hnest word (hword.trans (hconcat ▸ List.prefix_append ..))
    have hrun : cs.run (calls ++ [c]) = ((cs.run calls).call c).2 := List.foldl_concat ..
    have heff := call_stackEffect (cs.run calls) c
    rw [hconcat] at hlast ⊢
    rw [hrun]
    unfold nestCall at hlast ⊢
    generalize (cs.run calls).call c = r at heff hlast ⊢
    cases heff with
    | error => exact ⟨entered, hframes, by simpa using hcount⟩
    | pushed funcName retAddr frameSize locals =>
      refine ⟨entered ++ [frameOf (cs.run calls) funcName retAddr frameSize locals], ?_, ?_⟩
      · change (cs.run calls).frames ++ _ = _
        rw [hframes, List.append_assoc]
      · simp only [List.count_append, List.length_append, List.length_singleton,
          List.count_singleton]
        simp
        omega
    | popped below f htop =>
      simp only [List.count_append, List.count_singleton] at hlast ⊢
      simp at hlast
      -- some frame entered by the run is still there, so the one that goes is of the run
      rcases List.eq_nil_or_concat' entered with rfl | ⟨entered, g, rfl⟩
      · simp at hcount
        omega
      · rw [htop, ← List.append_assoc] at hframes
        refine ⟨entered, (List.append_inj' hframes rfl).1, ?_⟩
        simp at hcount ⊢
        omega

/-- The pointers of a stack follow from its frames. -/
theorem stackOk_ext {cs cs' : CallStack V} (h : StackOk base total cs)
    (h' : StackOk base total cs') (hframes : cs'.frames = cs.frames) : cs' = cs := by
  have hsp : cs'.currentSP.toNat = cs.currentSP.toNat := by
    apply Nat.add_right_cancel
    rw [h.sp, ← hframes, h'.sp]
  have hbp : cs'.currentBP.toNat = cs.currentBP.toNat := by
    apply Nat.add_right_cancel
    rw [h.bp, ← hframes, h'.bp]
  exact CallStack.ext (h'.base_eq.trans h.base_eq.symm) (UInt64.toNat_inj.mp hsp)
    (UInt64.toNat_inj.mp hbp) hframes (h'.maxDepth_eq.trans h.maxDepth_eq.symm)
    (h'.total_eq.trans h.total_eq.symm)

/-- A run with balanced pushes and pops ends where it began. -/
theorem run_balanced (h : StackOk base total cs) (calls : List (StackCall V)) (word : DyckWord)
    (hword : nesting cs calls = word.toList) : cs.run calls = cs := by
  have hnest : ∀ before, before <+: nesting cs calls → before.count D ≤ before.count U := by
    intro before hpre
    rw [hword, List.prefix_iff_eq_take] at hpre
    rw [hpre]
    exact word.count_D_le_count_U _
  obtain ⟨entered, hframes, hcount⟩ := frames_of_nesting cs calls hnest
  rw [hword, word.count_U_eq_count_D, Nat.add_eq_right, List.length_eq_zero_iff] at hcount
  rw [hcount, List.append_nil] at hframes
  exact stackOk_ext h (stackOk_run h calls) hframes

/-! ## All runs -/

/-- A push that succeeds has room, puts its frame on the live frames, and changes none of them. -/
theorem pushFrame_effect (cs : CallStack V) (funcName : String) (retAddr frameSize : UInt64)
    (locals : String → Option V) {frame : StackFrame V}
    (hok : (cs.pushFrame funcName retAddr frameSize locals).1 = .ok frame) :
    ((cs.frames.length : ℤ) < cs.maxDepth ∧ cs.currentSP - frameSize ≤ cs.currentSP ∧
        cs.baseAddress - (cs.currentSP - frameSize) ≤ cs.totalSizeBytes) ∧
      frame = frameOf cs funcName retAddr frameSize locals ∧
      (cs.pushFrame funcName retAddr frameSize locals).2.frames = cs.frames ++ [frame] := by
  have heff := call_stackEffect cs (.push funcName retAddr frameSize locals)
  change StackEffect cs _ (cs.pushFrame funcName retAddr frameSize locals) at heff
  generalize cs.pushFrame funcName retAddr frameSize locals = r at heff hok
  cases heff with
  | error => cases hok
  | pushed _ _ _ _ hdepth hsp hfits =>
    cases hok
    exact ⟨⟨hdepth, hsp, hfits⟩, rfl, rfl⟩

/-- A push succeeds where depth, size and addresses leave room. -/
theorem pushFrame_ok_iff (h : StackOk base total cs) (funcName : String)
    (retAddr frameSize : UInt64) (locals : String → Option V) :
    (∃ frame, (cs.pushFrame funcName retAddr frameSize locals).1 = .ok frame) ↔
      cs.frames.length < 256 ∧ liveBytes cs.frames + frameSize.toNat ≤ total.toNat ∧
        liveBytes cs.frames + frameSize.toNat ≤ base.toNat := by
  rw [← room_iff h frameSize]
  constructor
  · rintro ⟨frame, hok⟩
    obtain ⟨⟨hdepth, hsp, hfits⟩, -⟩ := pushFrame_effect cs funcName retAddr frameSize locals hok
    rw [h.maxDepth_eq] at hdepth
    exact ⟨by omega, hsp, hfits⟩
  · rintro ⟨hdepth, hsp, hfits⟩
    refine ⟨frameOf cs funcName retAddr frameSize locals, ?_⟩
    have hdepth' : ¬ (cs.frames.length : ℤ) ≥ cs.maxDepth := by
      rw [h.maxDepth_eq]
      omega
    have hroom : ¬ (cs.currentSP - frameSize > cs.currentSP ∨
        cs.baseAddress - (cs.currentSP - frameSize) > cs.totalSizeBytes) :=
      not_or.mpr ⟨UInt64.not_lt.mpr hsp, UInt64.not_lt.mpr hfits⟩
    unfold CallStack.pushFrame
    rw [if_neg hdepth', if_neg hroom]
    rfl

/-- A pop that succeeds removes the top frame, and returns it. -/
theorem popFrame_effect (cs : CallStack V) {f : StackFrame V} (hok : cs.popFrame.1 = .ok f) :
    cs.frames = cs.popFrame.2.frames ++ [f] := by
  have heff := call_stackEffect cs .pop
  change StackEffect cs _ cs.popFrame at heff
  generalize cs.popFrame = r at heff hok
  cases heff with
  | error => cases hok
  | popped below g hframes =>
    cases hok
    exact hframes

/-- A pop fails on the empty stack only. -/
theorem popFrame_ok_iff (cs : CallStack V) : (∃ f, cs.popFrame.1 = .ok f) ↔ cs.frames ≠ [] := by
  constructor
  · rintro ⟨f, hok⟩ hnil
    simp [CallStack.popFrame, hnil] at hok
  · intro hne
    refine ⟨cs.frames.getLast hne, ?_⟩
    simp [CallStack.popFrame, List.getLast?_eq_some_getLast hne]

/-- **The call stack is exact and well nested.**  After any calls on a new stack, the stack
pointer lies below the base by exactly the bytes of the live frames, of which there are at
most 256.  A push succeeds exactly when the depth and the bytes leave room for it, and puts its
frame on the live ones; a pop succeeds exactly when a frame is live, and removes the top one.  The
base pointer is the stack pointer from before the top frame (the base of an empty stack), and the
frame pointer of each frame is the base pointer of the frames below it.  Further calls that
nest bring the stack back exactly as it was, and a call that fails changes nothing. -/
theorem callStack_exact (base total : UInt64) (calls : List (StackCall V)) :
    let cs := (newCallStack V base total).run calls
    cs.currentSP.toNat + liveBytes cs.frames = base.toNat ∧
    cs.frames.length ≤ 256 ∧
    (∀ funcName retAddr frameSize locals,
      (∃ frame, (cs.pushFrame funcName retAddr frameSize locals).1 = .ok frame) ↔
        cs.frames.length < 256 ∧ liveBytes cs.frames + frameSize.toNat ≤ total.toNat ∧
          liveBytes cs.frames + frameSize.toNat ≤ base.toNat) ∧
    (∀ funcName retAddr frameSize locals frame,
      (cs.pushFrame funcName retAddr frameSize locals).1 = .ok frame →
        frame = frameOf cs funcName retAddr frameSize locals ∧
          (cs.pushFrame funcName retAddr frameSize locals).2.frames = cs.frames ++ [frame]) ∧
    ((∃ f, cs.popFrame.1 = .ok f) ↔ cs.frames ≠ []) ∧
    (∀ f, cs.popFrame.1 = .ok f → cs.frames = cs.popFrame.2.frames ++ [f]) ∧
    cs.currentBP.toNat + liveBytes cs.frames.dropLast = base.toNat ∧
    (∀ below f above, cs.frames = below ++ f :: above →
      f.framePointer.toNat + liveBytes below.dropLast = base.toNat) ∧
    (∀ more (word : DyckWord), nesting cs more = word.toList → cs.run more = cs) ∧
    (∀ c e, (cs.call c).1 = .error e → (cs.call c).2 = cs) := by
  intro cs
  have h : StackOk base total cs := stackOk_run (stackOk_new base total) calls
  refine ⟨h.sp, h.depth, pushFrame_ok_iff h,
    fun funcName retAddr frameSize locals _ hok =>
      (pushFrame_effect cs funcName retAddr frameSize locals hok).2,
    popFrame_ok_iff cs, fun _ => popFrame_effect cs, h.bp, ?_, run_balanced h, ?_⟩
  · intro below f above hframes
    exact (h.pushed below f above hframes).framePointer
  · intro c e herr
    have heff := call_stackEffect cs c
    generalize cs.call c = r at heff herr ⊢
    cases heff with
    | error => rfl
    | pushed => cases herr
    | popped => cases herr

/-- The base pointer goes with the frames: two nested calls of 16 and 32 bytes, and a return. -/
example :
    let call size : StackCall ℕ := .push "f" 0 size fun _ => none
    let cs := (newCallStack ℕ 4096 1024).run [call 16, call 32]
    (cs.currentSP, cs.currentBP) = (4048, 4080) ∧
      ((cs.run [.pop]).currentSP, (cs.run [.pop]).currentBP) = (4080, 4096) := by
  decide

end OsSimulator.Analysis
