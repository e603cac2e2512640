import OsSimulator.Library.Custody
import OsSimulator.Model.Gmp

/-!
# Where the goroutines are

The runtime keeps its goroutines in local queues, in the global queue, at the threads and in
the list of completed goroutines.  These are the containers of `Library.Custody`, and `Suits`
is what the runtime knows of a goroutine at its place: its status, and that a goroutine that
has yet to make its system call has not counted ticks of it.

`GmpInv` adds that processors and threads are bound in pairs and that the local queues are
bounded.  It holds between two calls and also between two rounds of the loops of `Step`.

The search for work only moves goroutines between queues: it takes a runnable one out
(`Takes`), from the global queue, from the queue of the processor or from the last half of
the queue of a victim, or all queues are empty (`findRunnableG_spec`).
-/

set_option autoImplicit false

namespace OsSimulator.Interface

open Model Library

/-! ## Places -/

/-- Where a goroutine can be. -/
inductive GmpPlace where
  | localQueue (p : ℕ)
  | globalRunQueue
  | curG (m : ℕ)
  | completedGs
deriving DecidableEq, Repr

/-- The goroutines at a place. -/
def held (rt : GMPRuntime) : GmpPlace → List ℕ
  | .localQueue p => (rt.ps p).localQueue
  | .globalRunQueue => rt.globalRunQueue
  | .curG m => (rt.ms m).curG.toList
  | .completedGs => rt.completedGs

section Held

variable {rt : GMPRuntime} {c : GmpPlace}

theorem held_modifyP {p : ℕ} {f : LogicalProcessor → LogicalProcessor} (hc : c ≠ .localQueue p) :
    held (rt.modifyP p f) c = held rt c := by
  cases c with
  | localQueue q =>
    have hq : q ≠ p := fun h => hc (congrArg _ h)
    simp [held, GMPRuntime.modifyP, hq]
  | _ => rfl

/-- The places are determined by the queues, the threads and the completed goroutines. -/
theorem held_congr {rt' : GMPRuntime}
    (hlocal : ∀ p, (rt'.ps p).localQueue = (rt.ps p).localQueue)
    (hglobal : rt'.globalRunQueue = rt.globalRunQueue)
    (hcurG : ∀ m, (rt'.ms m).curG = (rt.ms m).curG) (hdone : rt'.completedGs = rt.completedGs) :
    held rt' = held rt := by
  funext c
  cases c with
  | localQueue p => exact hlocal p
  | globalRunQueue => exact hglobal
  | curG m => simp only [held, hcurG]
  | completedGs => exact hdone

end Held

/-- The system call of the goroutine, if it has one, is still to come. -/
def SyscallAhead (g : Goroutine) : Prop := g.isSyscall = true → g.syscallTicks = 0

/-- The status that a goroutine at the place has. -/
def Suits (rt : GMPRuntime) : GmpPlace → ℕ → Prop
  | .localQueue _, g => (rt.gs g).status = .runnable ∧ SyscallAhead (rt.gs g)
  | .globalRunQueue, g => (rt.gs g).status = .runnable ∧ SyscallAhead (rt.gs g)
  | .curG m, g =>
    if (rt.ms m).isBlocked then
      (rt.gs g).status = .syscall ∧ (rt.gs g).isSyscall = true ∧ (rt.gs g).syscallTicks < 3
    else (rt.gs g).status = .running ∧ SyscallAhead (rt.gs g)
  | .completedGs, g => (rt.gs g).status = .dead

/-- A processor is bound to a thread that is bound to it. -/
structure ProcessorOk (rt : GMPRuntime) (p : ℕ) : Prop where
  pid_eq : (rt.ps p).pid = p
  runNext_eq : (rt.ps p).runNext = none
  bound : ∃ m, (rt.ps p).boundM = some m ∧ (rt.ms m).boundP = some p

/-- A thread with a goroutine is blocked or has a processor, and only such a thread is
blocked. -/
structure ThreadOk (m : OSThread) : Prop where
  blocked_iff : m.curG ≠ none → (m.isBlocked = true ↔ m.boundP = none)
  busy : m.isBlocked = true → m.curG ≠ none

/-- Every goroutine is at one place, and threads and processors are bound both ways. -/
structure GmpInv (rt : GMPRuntime) : Prop where
  custody : Custody (held rt) {g | g < rt.gCount} (Suits rt)
  processor : ∀ p < rt.numPs, ProcessorOk rt p
  bound : ∀ m p, (rt.ms m).boundP = some p → m < rt.numMs ∧ p < rt.numPs ∧
    (rt.ps p).boundM = some m
  thread : ∀ m, ThreadOk (rt.ms m)
  queue_le : ∀ p, (rt.ps p).localQueue.length ≤ 256
  no_processor : ∀ p, rt.numPs ≤ p → (rt.ps p).localQueue = []
  no_thread : ∀ m, rt.numMs ≤ m → (rt.ms m).curG = none

/-! ## What stays the same -/

/-- The runtimes have the same processors and threads, bound in the same way. -/
structure SameBindings (rt rt' : GMPRuntime) : Prop where
  numMs_eq : rt'.numMs = rt.numMs
  numPs_eq : rt'.numPs = rt.numPs
  pid_eq : ∀ p, (rt'.ps p).pid = (rt.ps p).pid
  runNext_eq : ∀ p, (rt'.ps p).runNext = (rt.ps p).runNext
  boundM_eq : ∀ p, (rt'.ps p).boundM = (rt.ps p).boundM
  boundP_eq : ∀ m, (rt'.ms m).boundP = (rt.ms m).boundP

/-- The runtimes differ at most in the queues, the counters and the logs. -/
structure SameThreads (rt rt' : GMPRuntime) : Prop extends SameBindings rt rt' where
  gCount_eq : rt'.gCount = rt.gCount
  gs_eq : rt'.gs = rt.gs
  ms_eq : rt'.ms = rt.ms
  completedGs_eq : rt'.completedGs = rt.completedGs

/-- The runtimes differ at most in the counters and the logs. -/
structure Still (rt rt' : GMPRuntime) : Prop extends SameThreads rt rt' where
  localQueue_eq : ∀ p, (rt'.ps p).localQueue = (rt.ps p).localQueue
  globalRunQueue_eq : rt'.globalRunQueue = rt.globalRunQueue

section Frames

variable {rt rt' : GMPRuntime}

theorem SameBindings.refl (rt : GMPRuntime) : SameBindings rt rt := by
  constructor <;> intros <;> rfl

theorem SameBindings.trans {rt₁ : GMPRuntime} (h : SameBindings rt rt₁)
    (h' : SameBindings rt₁ rt') : SameBindings rt rt' where
  numMs_eq := h'.numMs_eq.trans h.numMs_eq
  numPs_eq := h'.numPs_eq.trans h.numPs_eq
  pid_eq := fun p => (h'.pid_eq p).trans (h.pid_eq p)
  runNext_eq := fun p => (h'.runNext_eq p).trans (h.runNext_eq p)
  boundM_eq := fun p => (h'.boundM_eq p).trans (h.boundM_eq p)
  boundP_eq := fun m => (h'.boundP_eq m).trans (h.boundP_eq m)

theorem SameThreads.refl (rt : GMPRuntime) : SameThreads rt rt :=
  { SameBindings.refl rt with gCount_eq := rfl, gs_eq := rfl, ms_eq := rfl, completedGs_eq := rfl }

theorem Still.refl (rt : GMPRuntime) : Still rt rt :=
  { SameThreads.refl rt with localQueue_eq := fun _ => rfl, globalRunQueue_eq := rfl }

theorem SameThreads.trans {rt₁ : GMPRuntime} (h : SameThreads rt rt₁) (h' : SameThreads rt₁ rt') :
    SameThreads rt rt' where
  toSameBindings := h.toSameBindings.trans h'.toSameBindings
  gCount_eq := h'.gCount_eq.trans h.gCount_eq
  gs_eq := h'.gs_eq.trans h.gs_eq
  ms_eq := h'.ms_eq.trans h.ms_eq
  completedGs_eq := h'.completedGs_eq.trans h.completedGs_eq

theorem Still.trans {rt₁ : GMPRuntime} (h : Still rt rt₁) (h' : Still rt₁ rt') : Still rt rt' where
  toSameThreads := h.toSameThreads.trans h'.toSameThreads
  localQueue_eq := fun p => (h'.localQueue_eq p).trans (h.localQueue_eq p)
  globalRunQueue_eq := h'.globalRunQueue_eq.trans h.globalRunQueue_eq

theorem sameThreads_queue (rt : GMPRuntime) (p : ℕ) (queue : LogicalProcessor → List ℕ) :
    SameThreads rt (rt.modifyP p fun q => { q with localQueue := queue q }) := by
  refine { SameThreads.refl rt with pid_eq := ?_, runNext_eq := ?_, boundM_eq := ?_ }
  all_goals
    intro q
    by_cases hq : q = p
    · subst hq
      simp [GMPRuntime.modifyP]
    · simp [GMPRuntime.modifyP, hq]

theorem SameThreads.suits_eq (h : SameThreads rt rt') : Suits rt' = Suits rt := by
  funext c g
  cases c <;> simp only [Suits, h.gs_eq, h.ms_eq]

/-- The invariant where the bindings stay. -/
theorem GmpInv.of_bindings (hrt : GmpInv rt) (h : SameBindings rt rt')
    (hcustody : Custody (held rt') {g | g < rt'.gCount} (Suits rt'))
    (hthread : ∀ m, ThreadOk (rt'.ms m)) (hle : ∀ p, (rt'.ps p).localQueue.length ≤ 256)
    (hnoP : ∀ p, rt.numPs ≤ p → (rt'.ps p).localQueue = [])
    (hnoM : ∀ m, rt.numMs ≤ m → (rt'.ms m).curG = none) : GmpInv rt' := by
  refine ⟨hcustody, ?_, ?_, hthread, hle, h.numPs_eq ▸ hnoP, h.numMs_eq ▸ hnoM⟩
  · rw [h.numPs_eq]
    intro p hp
    obtain ⟨hpid, hnext, m, hm, hmp⟩ := hrt.processor p hp
    exact ⟨(h.pid_eq p).trans hpid, (h.runNext_eq p).trans hnext, m, (h.boundM_eq p).trans hm,
      (h.boundP_eq m).trans hmp⟩
  · intro m p hm
    rw [h.boundP_eq] at hm
    rw [h.numMs_eq, h.numPs_eq, h.boundM_eq]
    exact hrt.bound m p hm

/-- The invariant after a change of the queues. -/
theorem GmpInv.of_queues (hrt : GmpInv rt) (h : SameThreads rt rt')
    (hcustody : Custody (held rt') {g | g < rt.gCount} (Suits rt))
    (hle : ∀ p, (rt'.ps p).localQueue.length ≤ 256)
    (hnoP : ∀ p, rt.numPs ≤ p → (rt'.ps p).localQueue = []) : GmpInv rt' := by
  refine hrt.of_bindings h.toSameBindings ?_ ?_ hle hnoP ?_
  · rw [h.gCount_eq, h.suits_eq]
    exact hcustody
  · rw [h.ms_eq]
    exact hrt.thread
  · rw [h.ms_eq]
    exact hrt.no_thread

theorem Still.held_eq (h : Still rt rt') : held rt' = held rt :=
  held_congr h.localQueue_eq h.globalRunQueue_eq (fun m => by rw [h.ms_eq]) h.completedGs_eq

theorem GmpInv.still (hrt : GmpInv rt) (h : Still rt rt') : GmpInv rt' := by
  refine hrt.of_queues h.toSameThreads ?_ ?_ ?_
  · rw [h.held_eq]
    exact hrt.custody
  · simpa only [h.localQueue_eq] using hrt.queue_le
  · simpa only [h.localQueue_eq] using hrt.no_processor

end Frames

/-! ## The search for work -/

/-- Nobody waits for a processor. -/
def QueuesEmpty (rt : GMPRuntime) : Prop :=
  rt.globalRunQueue = [] ∧ ∀ p, (rt.ps p).localQueue = []

/-- The goroutine `g` has left its queue, and others may have changed theirs. -/
structure Takes (rt : GMPRuntime) (g : ℕ) (rt' : GMPRuntime) : Prop extends SameThreads rt rt' where
  lt_gCount : g < rt.gCount
  runnable : (rt.gs g).status = .runnable ∧ SyscallAhead (rt.gs g)
  custody : Custody (held rt') ({g | g < rt.gCount} \ {g}) (Suits rt)
  queue_le : ∀ p, (rt'.ps p).localQueue.length ≤ 256
  no_processor : ∀ p, rt.numPs ≤ p → (rt'.ps p).localQueue = []

section Search

variable {rt : GMPRuntime} {p g : ℕ} {tick : ℤ}

theorem takes_global {rest : List ℕ} (hrt : GmpInv rt) (hq : rt.globalRunQueue = g :: rest) :
    Takes rt g { rt with globalRunQueue := rest } := by
  have hg : g ∈ held rt .globalRunQueue := by simp [held, hq]
  refine ⟨{ SameThreads.refl rt with }, hrt.custody.mem_live hg, hrt.custody.known _ g hg, ?_,
    hrt.queue_le, hrt.no_processor⟩
  refine hrt.custody.take (c := .globalRunQueue) (by simp [held, hq]) fun c hc => ?_
  cases c <;> first | rfl | exact absurd rfl hc

theorem takes_local {rest : List ℕ} (hrt : GmpInv rt) (hp : p < rt.numPs)
    (hq : (rt.ps p).localQueue = g :: rest) :
    Takes rt g (rt.modifyP p fun q => { q with localQueue := rest }) := by
  have hg : g ∈ held rt (.localQueue p) := by simp [held, hq]
  refine ⟨?_, hrt.custody.mem_live hg, hrt.custody.known _ g hg, ?_, fun q => ?_, fun q hq' => ?_⟩
  · exact sameThreads_queue rt p _
  · exact hrt.custody.take (c := .localQueue p) (by simp [held, hq, GMPRuntime.modifyP])
      fun c hc => held_modifyP hc
  · have hle := hrt.queue_le q
    by_cases hqp : q = p
    · subst hqp
      simp only [hq, List.length_cons, GMPRuntime.modifyP, Function.update_self] at hle ⊢
      omega
    · simpa [GMPRuntime.modifyP, hqp] using hle
  · have hqp : q ≠ p := by omega
    simpa [GMPRuntime.modifyP, hqp] using hrt.no_processor q hq'

/-- The last half of a queue starts with some goroutine. -/
theorem exists_stolen {queue : List ℕ} (h : 0 < queue.length) :
    ∃ kept g rest, queue = kept ++ g :: rest ∧
      kept.length = queue.length - (queue.length + 1) / 2 := by
  have hlt : queue.length - (queue.length + 1) / 2 < queue.length := by omega
  refine ⟨queue.take (queue.length - (queue.length + 1) / 2),
    queue.get ⟨queue.length - (queue.length + 1) / 2, hlt⟩,
    queue.drop (queue.length - (queue.length + 1) / 2 + 1), ?_, ?_⟩
  · rw [List.get_eq_getElem, ← List.drop_eq_getElem_cons hlt, List.take_append_drop]
  · rw [List.length_take]
    omega

theorem stealFrom_eq (p : ℕ) (tick : ℤ) {victim : ℕ} {kept rest : List ℕ}
    (hq : (rt.ps victim).localQueue = kept ++ g :: rest)
    (hlen : kept.length = (rt.ps victim).localQueue.length -
      ((rt.ps victim).localQueue.length + 1) / 2) :
    ∃ events, rt.stealFrom p tick victim = (some g, { ((rt.modifyP victim fun v =>
      { v with localQueue := kept }).modifyP p fun p =>
        { p with localQueue := p.localQueue ++ rest }) with workStealEvents := events }) := by
  refine ⟨(rt.stealFrom p tick victim).2.workStealEvents, ?_⟩
  unfold GMPRuntime.stealFrom
  simp only [← hlen]
  rw [hq, List.take_left, List.drop_left]
  rfl

/-- The stolen half without its first goroutine goes to the queue of `p`, which is empty. -/
theorem takes_stolen {victim : ℕ} (hrt : GmpInv rt) (hp : p < rt.numPs) (hv : victim < rt.numPs)
    (hne : victim ≠ p) (hempty : (rt.ps p).localQueue = [])
    (hqueue : 0 < (rt.ps victim).localQueue.length) :
    ∃ g, (rt.stealFrom p tick victim).1 = some g ∧
      Takes rt g (rt.stealFrom p tick victim).2 := by
  obtain ⟨kept, g, rest, hq, hlen⟩ := exists_stolen hqueue
  obtain ⟨events, hsteal⟩ := stealFrom_eq p tick hq hlen
  refine ⟨g, by rw [hsteal], ?_⟩
  rw [hsteal]
  have hg : g ∈ held rt (.localQueue victim) := by simp [held, hq]
  have hle := hrt.queue_le victim
  rw [hq, List.length_append, List.length_cons] at hle
  refine ⟨?_, hrt.custody.mem_live hg, hrt.custody.known _ g hg, ?_, fun q => ?_, fun q hq' => ?_⟩
  · have hframe : SameThreads rt ((rt.modifyP victim fun v => { v with localQueue := kept }).modifyP
        p fun p => { p with localQueue := p.localQueue ++ rest }) :=
      (sameThreads_queue rt victim fun _ => kept).trans
        (sameThreads_queue _ p fun q => q.localQueue ++ rest)
    exact { hframe with }
  · -- first `g` leaves the victim, then the rest of the stolen half
    have htaken : Custody (Function.update (held rt) (.localQueue victim) (kept ++ rest))
        ({g | g < rt.gCount} \ {g}) (Suits rt) :=
      hrt.custody.take (c := .localQueue victim)
        (by simp [held, hq]) fun c hc => by simp [hc]
    refine htaken.shift (c := .localQueue victim) (d := .localQueue p) (by simpa using hne) rest
      ?_ ?_ ?_ fun x hx => hx
    · simpa [held, GMPRuntime.modifyP, hne] using List.perm_append_comm
    · simp [held, GMPRuntime.modifyP, hne.symm, hempty]
    · intro c hcv hcp
      have hheld : held ((rt.modifyP victim fun v => { v with localQueue := kept }).modifyP
          p fun p => { p with localQueue := p.localQueue ++ rest }) c = held rt c := by
        rw [held_modifyP hcp, held_modifyP hcv]
      rw [Function.update_of_ne hcv]
      exact hheld
  · by_cases hqp : q = p
    · subst hqp
      simp only [GMPRuntime.modifyP, Function.update_self, Function.update_of_ne hne.symm, hempty,
        List.nil_append]
      omega
    · by_cases hqv : q = victim
      · subst hqv
        simp only [GMPRuntime.modifyP, Function.update_self, Function.update_of_ne hne]
        omega
      · simpa [GMPRuntime.modifyP, hqp, hqv] using hrt.queue_le q
  · have hqp : q ≠ p := by omega
    have hqv : q ≠ victim := by omega
    simpa [GMPRuntime.modifyP, hqp, hqv] using hrt.no_processor q hq'

/-- The search for a victim looks at every processor. -/
theorem findVictim_eq_none {startIdx : ℕ} (h : rt.findVictim p startIdx = none) {v : ℕ}
    (hv : v < rt.numPs) :
    (rt.ps v).pid = (rt.ps p).pid ∨ (rt.ps v).localQueue = [] := by
  have hn : 0 < rt.numPs := by omega
  have hmem : v ∈ (List.range rt.numPs).map fun i => (startIdx + i) % rt.numPs := by
    -- the distance from the start to `v` in the circle
    refine List.mem_map.mpr ⟨(v + (rt.numPs - startIdx % rt.numPs)) % rt.numPs,
      List.mem_range.mpr (Nat.mod_lt _ hn), ?_⟩
    have hstart := Nat.mod_lt startIdx hn
    rw [Nat.add_mod, Nat.mod_mod, ← Nat.add_mod, ← Nat.mod_add_mod]
    rw [show startIdx % rt.numPs + (v + (rt.numPs - startIdx % rt.numPs)) = v + rt.numPs by omega,
      Nat.add_mod_right, Nat.mod_eq_of_lt hv]
  have hnot := List.find?_eq_none.mp h v hmem
  simp only [decide_eq_true_eq, not_and, not_lt, Nat.le_zero, List.length_eq_zero_iff] at hnot
  exact or_iff_not_imp_left.mpr hnot

theorem findVictim_eq_some {startIdx v : ℕ} (h : rt.findVictim p startIdx = some v) :
    v < rt.numPs ∧ (rt.ps v).pid ≠ (rt.ps p).pid ∧ 0 < (rt.ps v).localQueue.length := by
  have hmem := List.mem_of_find?_eq_some h
  have hv := List.find?_some h
  obtain ⟨i, hi, rfl⟩ := List.mem_map.mp hmem
  have hlt := List.mem_range.mp hi
  exact ⟨Nat.mod_lt _ (by omega), by simpa using hv⟩

/-- The last resort of the search, when neither `p` nor the global queue has work. -/
theorem steal_spec (hrt : GmpInv rt) (hp : p < rt.numPs) (hempty : (rt.ps p).localQueue = [])
    (hnone : rt.globalRunQueue = []) (tick : ℤ) (startIdx : ℕ) :
    (∃ victim g, rt.findVictim p startIdx = some victim ∧
        (rt.stealFrom p tick victim).1 = some g ∧ Takes rt g (rt.stealFrom p tick victim).2) ∨
      (rt.findVictim p startIdx = none ∧ QueuesEmpty rt) := by
  cases hvictim : rt.findVictim p startIdx with
  | some victim =>
    obtain ⟨hv, hne, hqueue⟩ := findVictim_eq_some hvictim
    have hvp : victim ≠ p := by
      rintro rfl
      exact hne rfl
    obtain ⟨g, hg, htakes⟩ := takes_stolen hrt hp hv hvp hempty hqueue
    exact .inl ⟨victim, g, rfl, hg, htakes⟩
  | none =>
    refine .inr ⟨rfl, hnone, fun q => ?_⟩
    by_cases hq : q < rt.numPs
    · rcases findVictim_eq_none hvictim hq with hpid | hnil
      · have hqp : q = p := by
          rw [← (hrt.processor q hq).pid_eq, hpid, (hrt.processor p hp).pid_eq]
        rw [hqp, hempty]
      · exact hnil
    · exact hrt.no_processor q (by omega)

/-- **The search for work** takes a goroutine out of a queue, or all queues are empty. -/
theorem findRunnableG_spec (hrt : GmpInv rt) (hp : p < rt.numPs) (tick : ℤ) :
    (∃ g, (rt.findRunnableG p tick).1 = some g ∧ Takes rt g (rt.findRunnableG p tick).2) ∨
      ((rt.findRunnableG p tick).1 = none ∧ Still rt (rt.findRunnableG p tick).2 ∧
        QueuesEmpty rt) := by
  unfold GMPRuntime.findRunnableG
  split_ifs with hsixty hnext hlocal hglobal hmany
  · obtain ⟨g, rest, hq⟩ := List.exists_cons_of_length_pos hsixty.2
    simp only [hq]
    exact .inl ⟨g, rfl, takes_global hrt hq⟩
  · exact absurd (hrt.processor p hp).runNext_eq hnext
  · obtain ⟨g, rest, hq⟩ := List.exists_cons_of_length_pos hlocal
    have htakes := takes_local hrt hp hq
    simp only [GMPRuntime.modifyP, hq, List.head?_cons, List.tail_cons] at htakes ⊢
    exact .inl ⟨g, rfl, htakes⟩
  · obtain ⟨g, rest, hq⟩ := List.exists_cons_of_length_pos hglobal
    simp only [hq]
    exact .inl ⟨g, rfl, takes_global hrt hq⟩
  all_goals
    have hempty : (rt.ps p).localQueue = [] := List.length_eq_zero_iff.mp (by omega)
    have hnone : rt.globalRunQueue = [] := List.length_eq_zero_iff.mp (by omega)
  · have hdraw : Still rt { rt with draws := rt.draws + 1 } := { Still.refl rt with }
    rcases steal_spec (hrt.still hdraw) hp hempty hnone tick
        (rt.rng.intn rt.draws rt.numPs).toNat with ⟨victim, g, hvictim, hg, htakes⟩ | ⟨hvictim, hq⟩
    · simp only [hvictim]
      exact .inl ⟨g, hg, { htakes with }⟩
    · simp only [hvictim]
      exact .inr ⟨trivial, hdraw, hq⟩
  · -- the only processor is `p`
    refine .inr ⟨rfl, Still.refl rt, hnone, fun q => ?_⟩
    by_cases hq : q < rt.numPs
    · obtain rfl : q = p := by omega
      exact hempty
    · exact hrt.no_processor q (by omega)

end Search

end OsSimulator.Interface
