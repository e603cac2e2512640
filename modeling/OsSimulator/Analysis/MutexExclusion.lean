import OsSimulator.Analysis.MutexWakeup

/-!
# Mutual exclusion of the blocking mutex

A thread owns the lock from the moment it is handed over: by the CAS of `Lock`, or by the
critical section of `Unlock` that pops its node, even though the channel of that node is
closed only later.  `Owns` says so of a state.

The lock word does not say who the owner is, and after an enqueue on a free lock it does
not even say that there is one.  What every interleaving keeps is weaker and enough
(`Exclusive`): there is at most one owner, and as long as there is one the lock word is not
zero.  Only the owner can reset the word, and it is no longer the owner when it does.
-/

set_option autoImplicit false

namespace OsSimulator.Analysis

open Model Library

variable {T : Type*} [DecidableEq T] {s s' : MutexSystem T} {t u : T} {n : ℕ}

/-- The thread holds the lock, or its node is popped and about to be closed. -/
def Owns (s : MutexSystem T) (t : T) : Prop :=
  Holds s t ∨ ∃ n, s.pc t = .waiting n ∧ SomeAt s.pc (.waking n)

/-- At most one owner, and none of a lock word that is zero. -/
structure Exclusive (s : MutexSystem T) : Prop where
  unique : ∀ t u, Owns s t → Owns s u → t = u
  flagged : ∀ t, Owns s t → s.state ≠ .unlocked

/-! ## Owners other than the thread that moves -/

/-- A node that is being woken after a step was being woken before it, unless the step has
popped it. -/
theorem someAt_waking_of_update {pc : T → ThreadPc} {p : ThreadPc} (hp : p ≠ .waking n)
    (h : SomeAt (Function.update pc t p) (.waking n)) : SomeAt pc (.waking n) := by
  obtain ⟨v, hv⟩ := h
  exact ⟨v, (eq_of_update hv hp).2⟩

/-- A step that pops no node and closes no channel makes no other thread the owner. -/
theorem Owns.of_update (h : Owns s' u) {p : ThreadPc} (hpc : s'.pc = Function.update s.pc t p)
    (hclosed : s'.closed = s.closed) (hp : ∀ n, p ≠ .waking n) (hut : u ≠ t) : Owns s u := by
  have hpcu : s'.pc u = s.pc u := by rw [hpc, Function.update_of_ne hut]
  rcases h with h | ⟨m, hwait, hwake⟩
  · left
    rwa [Holds, hpcu, hclosed] at h
  · right
    rw [hpc] at hwake
    exact ⟨m, hpcu ▸ hwait, someAt_waking_of_update (hp m) hwake⟩

omit [DecidableEq T] in
/-- A thread owns the lock only where it holds it or waits for it. -/
theorem not_owns_of_pc (hh : s.pc t ≠ .holding) (hw : ∀ n, s.pc t ≠ .waiting n) : ¬ Owns s t := by
  rintro ((h | ⟨n, -, h⟩) | ⟨n, h, -⟩)
  · exact hh h
  · exact hw n h
  · exact hw n h

/-- A step after which its thread owns nothing, and which leaves the lock word alone or
marks it as taken, keeps the exclusion. -/
theorem Exclusive.of_update (hs : Exclusive s) {p : ThreadPc}
    (hpc : s'.pc = Function.update s.pc t p) (hclosed : s'.closed = s.closed)
    (hp : ∀ n, p ≠ .waking n) (hself : ¬ Owns s' t)
    (hword : s.state ≠ .unlocked → s'.state ≠ .unlocked) : Exclusive s' := by
  have hold : ∀ v, Owns s' v → Owns s v := by
    intro v hv
    have hvt : v ≠ t := fun heq => hself (heq ▸ hv)
    exact hv.of_update hpc hclosed hp hvt
  constructor
  · exact fun v w hv hw => hs.unique v w (hold v hv) (hold w hw)
  · exact fun v hv => hword (hs.flagged v (hold v hv))

/-! ## One step -/

theorem Exclusive.compareAndSwap (hs : Exclusive s) : Exclusive (s.compareAndSwap t) := by
  unfold MutexSystem.compareAndSwap
  split
  · -- the lock word was zero, so that `t` is the only owner afterwards
    rename_i hfree
    have honly : ∀ v, Owns { s with
        state := .locked, pc := Function.update s.pc t .holding } v → v = t := by
      intro v hv
      by_contra hvt
      exact hs.flagged v (hv.of_update rfl rfl (by simp) hvt) hfree
    constructor
    · exact fun v w hv hw => (honly v hv).trans (honly w hw).symm
    · simp
  · exact hs.of_update rfl rfl (by simp) (not_owns_of_pc (by simp) (by simp)) id

theorem Exclusive.enqueue (hs : Exclusive s) (hnodes : NodesOk s) (hpc : s.pc t = .failed n) :
    Exclusive (s.enqueue t n) := by
  refine hs.of_update (p := .waiting n) rfl rfl (by simp) ?_ (by simp [MutexSystem.enqueue])
  -- the node has just been queued: nobody has popped or closed it
  have hself : (s.enqueue t n).pc t = .waiting n := Function.update_self t _ _
  rintro ((h | ⟨m, hm, h⟩) | ⟨m, h, hwake⟩)
  · rw [hself] at h
    cases h
  · obtain rfl : n = m := by simpa [hself] using h
    exact hnodes.failed_open t n hpc hm
  · obtain rfl : n = m := by simpa [hself] using h
    obtain ⟨v, hv⟩ := someAt_waking_of_update (by simp) hwake
    exact hnodes.not_waiting_of_failed hpc (hnodes.popped v n hv).2.2

theorem Exclusive.receive (hs : Exclusive s) (hpc : s.pc t = .waiting n) (hn : n ∈ s.closed) :
    Exclusive { s with pc := Function.update s.pc t .holding } := by
  have hself : Owns s t := .inl (.inr ⟨n, hn, hpc⟩)
  have hold : ∀ v, Owns { s with pc := Function.update s.pc t .holding } v → Owns s v := by
    intro v hv
    by_cases hvt : v = t
    · exact hvt ▸ hself
    · exact hv.of_update rfl rfl (by simp) hvt
  constructor
  · exact fun v w hv hw => hs.unique v w (hold v hv) (hold w hw)
  · exact fun v hv => hs.flagged v (hold v hv)

theorem Exclusive.release (hs : Exclusive s) (hnodes : NodesOk s) (hpc : s.pc t = .holding) :
    Exclusive (s.release t) := by
  have hself : Owns s t := .inl (.inl hpc)
  unfold MutexSystem.release
  split
  · rename_i next rest hq
    have hnext : ∀ v, Owns { s with
        waiters := rest
        state := if rest.length = 0 then .locked else s.state
        pc := Function.update s.pc t (.waking next) } v → s.pc v = .waiting next := by
      intro v hv
      have hvt : v ≠ t := by
        rintro rfl
        exact not_owns_of_pc (by simp) (by simp) hv
      by_contra hne
      -- any other owner would have been one next to `t`
      refine hvt (hs.unique v t ?_ hself)
      rcases hv with hv | ⟨m, hwait, hwake⟩
      · left
        simpa [Holds, Function.update_of_ne hvt] using hv
      · simp only [Function.update_of_ne hvt] at hwait
        have hm : ThreadPc.waking next ≠ .waking m := by
          rintro ⟨⟩
          exact hne hwait
        exact .inr ⟨m, hwait, someAt_waking_of_update hm hwake⟩
    constructor
    · intro v w hv hw
      exact hnodes.owner_unique v w next (by rw [hnext v hv]; rfl) (by rw [hnext w hw]; rfl)
    · intro v _
      show (if rest.length = 0 then LockState.locked else s.state) ≠ .unlocked
      split
      · simp
      · exact hs.flagged t hself
  · -- nobody is left to own the lock
    have hnone : ∀ v, ¬ Owns { s with
        state := .unlocked, pc := Function.update s.pc t .outside } v := by
      intro v hv
      by_cases hvt : v = t
      · subst hvt
        exact not_owns_of_pc (by simp) (by simp) hv
      · exact hvt (hs.unique v t (hv.of_update rfl rfl (by simp) hvt) hself)
    exact ⟨fun v _ hv => absurd hv (hnone v), fun v hv => absurd hv (hnone v)⟩

theorem Exclusive.wake (hs : Exclusive s) (hnodes : NodesOk s) (hpc : s.pc t = .waking n) :
    Exclusive (s.wake t n) := by
  rw [hnodes.wake_eq hpc]
  have hold : ∀ v, Owns { s with
      closed := insert n s.closed, pc := Function.update s.pc t .outside } v → Owns s v := by
    intro v hv
    have hvt : v ≠ t := by
      rintro rfl
      exact not_owns_of_pc (by simp) (by simp) hv
    rcases hv with (hv | ⟨m, hm, hv⟩) | ⟨m, hwait, hwake⟩
    · exact .inl (.inl (by simpa [Function.update_of_ne hvt] using hv))
    · have hwait : s.pc v = .waiting m := by simpa [Function.update_of_ne hvt] using hv
      rcases Finset.mem_insert.mp hm with rfl | hm
      · -- the closed node was being woken
        exact .inr ⟨m, hwait, t, hpc⟩
      · exact .inl (.inr ⟨m, hm, hwait⟩)
    · have hwait : s.pc v = .waiting m := by simpa [Function.update_of_ne hvt] using hwait
      exact .inr ⟨m, hwait, someAt_waking_of_update (by simp) hwake⟩
  constructor
  · exact fun v w hv hw => hs.unique v w (hold v hv) (hold w hw)
  · exact fun v hv => hs.flagged v (hold v hv)

theorem Exclusive.step (hs : Exclusive s) (hnodes : NodesOk s) (hstep : s.step t = some s') :
    Exclusive s' := by
  apply step_cases hstep
  · exact fun _ => hs.compareAndSwap
  · exact fun node hpc => hs.enqueue hnodes hpc
  · exact fun node hpc hclosed => hs.receive hpc hclosed
  · exact fun hpc => hs.release hnodes hpc
  · exact fun node hpc => hs.wake hnodes hpc

/-! ## Every interleaving -/

theorem exclusive_of_reachable {allowed : MutexSystem T → T → Prop}
    (hs : MutexReachable allowed s) : Exclusive s := by
  induction hs with
  | refl =>
    have hnone : ∀ v, ¬ Owns (newMutexSystem T) v := fun v =>
      not_owns_of_pc (by simp [newMutexSystem]) (by simp [newMutexSystem])
    exact ⟨fun v _ hv => absurd hv (hnone v), fun v hv => absurd hv (hnone v)⟩
  | tail hreach hstep ih =>
    obtain ⟨t, -, hstep⟩ := hstep
    exact ih.step (nodesOk_of_reachable hreach) hstep

/-- **Mutual exclusion**: whatever the interleaving, at most one thread is between the
hand-over of the lock and its release. -/
theorem mutex_exclusive (hs : MutexReachable anyStep s) (ht : Owns s t) (hu : Owns s u) : t = u :=
  (exclusive_of_reachable hs).unique t u ht hu

/-- Thread `1` is queued when thread `0` unlocks: it is the owner before its channel is
closed, and the only one. -/
theorem mutex_exclusive_handover : ∃ s : MutexSystem (Fin 2),
    (newMutexSystem (Fin 2)).run [0, 1, 1, 0] = some s ∧ Parked s 1 ∧ Owns s 1 ∧
      ∀ u, Owns s u → u = 1 := by
  have hreach := reachable_of_run [(0 : Fin 2), 1, 1, 0] .refl rfl
  refine ⟨_, rfl, ⟨0, Finset.notMem_empty 0, rfl⟩, .inr ⟨0, rfl, 0, rfl⟩, fun u hu => ?_⟩
  exact mutex_exclusive hreach hu (.inr ⟨0, rfl, 0, rfl⟩)

end OsSimulator.Analysis
