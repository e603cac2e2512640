import OsSimulator.Library.WeightedDraw
import OsSimulator.Analysis.WorkConservation

/-!
# Lottery draws are proportional

The drawing loop of the lottery adds up the tickets along the ready queue until the sum exceeds
the winning ticket.  As long as the tickets of the queue fit in a Go `int` no sum wraps around, and
the loop ends at the position that holds the winning ticket (`winnerIdx_eq_holder`); its default,
the head of the queue, is not used.

* `lottery_proportional`: of the `T` values of the winning ticket, as many as it has tickets select
  a process, and the others keep their order in the queue.
* `lottery_draws_nothing_twoRich`: tickets that do not fit.
-/

set_option autoImplicit false

namespace OsSimulator.Analysis

open Model Interface Library

/-! ## The drawing loop -/

theorem winnerIdx_eq_holder {tickets : ℕ → ℤ} {queue : List ℕ}
    (hnonneg : ∀ i ∈ queue, 0 ≤ tickets i) {w sum : ℤ} (hsum : 0 ≤ sum) (hle : sum ≤ w)
    (hlt : w < sum + (queue.map tickets).sum) (hfit : sum + (queue.map tickets).sum < 2 ^ 63)
    (i : ℕ) : winnerIdx tickets w queue sum i = i + holder (queue.map tickets) (w - sum) := by
  induction queue generalizing sum i with
  | nil =>
    rw [List.map_nil, List.sum_nil] at hlt
    omega
  | cons p queue ih =>
    rw [List.forall_mem_cons] at hnonneg
    rw [List.map_cons, List.sum_cons] at hlt hfit
    have hrest : 0 ≤ (queue.map tickets).sum := by
      refine List.sum_nonneg fun x hx => ?_
      obtain ⟨j, hj, rfl⟩ := List.mem_map.mp hx
      exact hnonneg.2 j hj
    have hp := hnonneg.1
    rw [winnerIdx, wrap64_of_lt (by omega) (by omega), List.map_cons, holder]
    by_cases hwin : sum + tickets p > w
    · rw [if_pos hwin, if_pos (by omega), Nat.add_zero]
    · rw [if_neg hwin, if_neg (by omega),
        ih hnonneg.2 (by omega) (by omega) (by omega) (by omega)]
      have hshift : w - (sum + tickets p) = w - sum - tickets p := by omega
      rw [hshift]
      omega

/-! ## One tick -/

/-- The tickets along the ready queue. -/
def queueTickets (s : LotteryScheduler) : List ℤ := s.readyQueue.map fun i => (s.proc i).tickets

/-- The scheduler at the moment of the draw, after arrivals and the end of a slice. -/
def atDraw (t : ℤ) (s : LotteryScheduler) : LotteryScheduler :=
  { s with toSliceBase := { s.toSliceBase with toReadyBase := s.toReadyBase.arrive t }.expire }

/-- A generator that returns `w` whenever it may. -/
def alwaysDraws (w : ℤ) : Rand where
  intn := fun _ n => if 0 ≤ w ∧ w < n then w else 0
  intn_mem := by
    intro k n hn
    split
    · assumption
    · omega

/-- The scheduler whose next winning ticket is `w`. -/
def drawing (w : ℤ) (s : LotteryScheduler) : LotteryScheduler := { s with rng := alwaysDraws w }

section Draw

variable {s : LotteryScheduler} {t : ℤ}

@[simp] theorem length_queueTickets (s : LotteryScheduler) :
    (queueTickets s).length = s.readyQueue.length :=
  List.length_map ..

theorem getD_queueTickets {k : ℕ} (hk : k < s.readyQueue.length) :
    (queueTickets s).getD k 0 = (s.proc (s.readyQueue.getD k 0)).tickets := by
  rw [List.getD_eq_getElem _ _ (by rw [length_queueTickets]; exact hk),
    List.getD_eq_getElem _ _ hk]
  exact List.getElem_map ..

theorem schedule_eq_draw (t : ℤ) (s : LotteryScheduler) : s.schedule t = (atDraw t s).draw t := rfl

/-- **What a draw does**: the process that holds the winning ticket leaves the queue. -/
theorem draw_spec (hfree : s.running = none) (hnonneg : ∀ x ∈ queueTickets s, 0 ≤ x)
    (hpos : 0 < (queueTickets s).sum) (hfit : (queueTickets s).sum < 2 ^ 63) {w : ℤ}
    (hw : s.rng.intn s.draws (queueTickets s).sum = w) :
    0 ≤ w ∧ w < (queueTickets s).sum ∧
      winnerIdx (fun i => (s.proc i).tickets) w s.readyQueue 0 0 = holder (queueTickets s) w ∧
      (s.draw t).running = some (s.readyQueue.getD (holder (queueTickets s) w) 0) ∧
      (s.draw t).readyQueue = s.readyQueue.eraseIdx (holder (queueTickets s) w) := by
  obtain ⟨hw0, hwT⟩ := s.rng.intn_mem s.draws (queueTickets s).sum hpos
  rw [hw] at hw0 hwT
  have htickets : ∀ i ∈ s.readyQueue, 0 ≤ (s.proc i).tickets := fun i hi =>
    hnonneg _ (List.mem_map_of_mem hi)
  have htotal : totalTickets (fun i => (s.proc i).tickets) s.readyQueue = (queueTickets s).sum :=
    totalTickets_eq htickets hfit
  have hlen : 0 < s.readyQueue.length := by
    by_contra hzero
    have hnil : s.readyQueue = [] := List.length_eq_zero_iff.mp (by omega)
    rw [queueTickets, hnil] at hpos
    exact lt_irrefl _ hpos
  have hwinner : winnerIdx (fun i => (s.proc i).tickets) w s.readyQueue 0 0 =
      holder (queueTickets s) w := by
    have hlt : w < 0 + (queueTickets s).sum := by
      rw [zero_add]
      exact hwT
    have hidx := winnerIdx_eq_holder htickets le_rfl hw0 hlt (by rw [zero_add]; exact hfit) 0
    rwa [Nat.zero_add, sub_zero] at hidx
  refine ⟨hw0, hwT, hwinner, ?_⟩
  unfold LotteryScheduler.draw
  simp only [htotal, hw, hwinner]
  rw [if_pos ⟨by rw [hfree]; rfl, hlen, hpos⟩]
  exact ⟨rfl, rfl⟩

/-- Nobody is drawn without a ticket. -/
theorem tickets_pos_of_draw (hfree : s.running = none) (hnonneg : ∀ x ∈ queueTickets s, 0 ≤ x)
    (hfit : (queueTickets s).sum < 2 ^ 63) {i : ℕ} (hrun : (s.draw t).running = some i) :
    0 < (s.proc i).tickets := by
  have htotal : totalTickets (fun i => (s.proc i).tickets) s.readyQueue = (queueTickets s).sum :=
    totalTickets_eq (fun i hi => hnonneg _ (List.mem_map_of_mem hi)) hfit
  by_cases hpos : 0 < (queueTickets s).sum
  · obtain ⟨hw, hlt, -, hslot, -⟩ := draw_spec (t := t) hfree hnonneg hpos hfit rfl
    have hholds := getD_holder_pos hnonneg hw hlt
    have hlen := holder_lt_length hnonneg hw hlt
    rw [length_queueTickets] at hlen
    rw [getD_queueTickets hlen] at hholds
    obtain rfl := Option.some.inj (hslot.symm.trans hrun)
    exact hholds
  · -- without a positive total there is no draw
    have hstay : s.draw t = s := by
      unfold LotteryScheduler.draw
      dsimp only
      rw [htotal]
      exact if_neg fun hcond => hpos hcond.2.2
    rw [hstay, hfree] at hrun
    cases hrun

/-- What a draw does with a given winning ticket. -/
theorem draw_drawing (hfree : s.running = none) (hnonneg : ∀ x ∈ queueTickets s, 0 ≤ x)
    (hfit : (queueTickets s).sum < 2 ^ 63) {w : ℤ} (hw : 0 ≤ w) (hlt : w < (queueTickets s).sum) :
    winnerIdx (fun i => (s.proc i).tickets) w s.readyQueue 0 0 = holder (queueTickets s) w ∧
      ((drawing w s).draw t).running = some (s.readyQueue.getD (holder (queueTickets s) w) 0) ∧
      ((drawing w s).draw t).readyQueue =
        s.readyQueue.eraseIdx (holder (queueTickets s) w) := by
  have hpos : 0 < (queueTickets s).sum := lt_of_le_of_lt hw hlt
  have hdraw : (alwaysDraws w).intn s.draws (queueTickets s).sum = w := if_pos ⟨hw, hlt⟩
  exact (draw_spec (s := drawing w s) hfree hnonneg hpos hfit hdraw).2.2

theorem getD_inj_of_nodup {queue : List ℕ} (hnodup : queue.Nodup) {k l : ℕ} (hk : k < queue.length)
    (hl : l < queue.length) : queue.getD k 0 = queue.getD l 0 ↔ k = l := by
  rw [List.getD_eq_getElem _ _ hk, List.getD_eq_getElem _ _ hl]
  exact hnodup.getElem_inj_iff

/-- A position in the queue is selected by as many winning tickets as its process has tickets. -/
theorem card_selecting (hnonneg : ∀ x ∈ queueTickets s, 0 ≤ x) {k : ℕ}
    (hk : k < s.readyQueue.length) {P : ℤ → Prop} [DecidablePred P]
    (hP : ∀ w, 0 ≤ w → w < (queueTickets s).sum → (P w ↔ holder (queueTickets s) w = k)) :
    (((Finset.Ico 0 (queueTickets s).sum).filter P).card : ℤ) =
      (s.proc (s.readyQueue.getD k 0)).tickets := by
  rw [← getD_queueTickets hk, ← card_holder hnonneg k]
  refine congrArg (fun S : Finset ℤ => (S.card : ℤ)) (Finset.filter_congr fun w hw => ?_)
  obtain ⟨hw, hlt⟩ := Finset.mem_Ico.mp hw
  exact hP w hw hlt

end Draw

/-- **Lottery draws are proportional.**  When a tick draws from a queue whose tickets fit in an
`int`, exactly as many values of the winning ticket end the loop at a position as the process there
has tickets, that process takes the slot, and the queue loses it and nothing else.  For a queue
without repetitions this counts the values that select a process.
SOURCE: pkg/cpu/sched_lottery.go:68-100 -/
theorem lottery_proportional (t : ℤ) (s : LotteryScheduler)
    (hfree : (atDraw t s).running = none) (hnonneg : ∀ x ∈ queueTickets (atDraw t s), 0 ≤ x)
    (hpos : 0 < (queueTickets (atDraw t s)).sum)
    (hfit : (queueTickets (atDraw t s)).sum < 2 ^ 63) :
    let queue := (atDraw t s).readyQueue
    let tickets := fun i => ((atDraw t s).proc i).tickets
    let T := (queueTickets (atDraw t s)).sum
    let w₀ := s.rng.intn s.draws T
    (0 ≤ w₀ ∧ w₀ < T ∧ (s.schedule t).running = ((drawing w₀ s).schedule t).running ∧
      (s.tick t).readyQueue = ((drawing w₀ s).tick t).readyQueue) ∧
    (∀ w, 0 ≤ w → w < T → winnerIdx tickets w queue 0 0 < queue.length ∧
      ((drawing w s).schedule t).running = some (queue.getD (winnerIdx tickets w queue 0 0) 0) ∧
      ((drawing w s).tick t).readyQueue = queue.eraseIdx (winnerIdx tickets w queue 0 0)) ∧
    (∀ k < queue.length,
      (((Finset.Ico 0 T).filter fun w => winnerIdx tickets w queue 0 0 = k).card : ℤ) =
        tickets (queue.getD k 0)) ∧
    (queue.Nodup → ∀ i ∈ queue,
      (((Finset.Ico 0 T).filter fun w => ((drawing w s).schedule t).running = some i).card : ℤ) =
        tickets i) := by
  intro queue tickets T w₀
  have hone : ∀ w, 0 ≤ w → w < T →
      winnerIdx tickets w queue 0 0 = holder (queueTickets (atDraw t s)) w ∧
      ((drawing w s).schedule t).running =
        some (queue.getD (holder (queueTickets (atDraw t s)) w) 0) ∧
      ((drawing w s).tick t).readyQueue =
        queue.eraseIdx (holder (queueTickets (atDraw t s)) w) := fun w hw hlt =>
    draw_drawing (s := atDraw t s) (t := t) hfree hnonneg hfit hw hlt
  have hholds : ∀ w, 0 ≤ w → w < T → holder (queueTickets (atDraw t s)) w < queue.length := by
    intro w hw hlt
    have hlen := holder_lt_length hnonneg hw hlt
    rwa [length_queueTickets] at hlen
  refine ⟨?_, ?_, ?_, ?_⟩
  · obtain ⟨hw, hlt, -, hrun, hready⟩ :=
      draw_spec (s := atDraw t s) (t := t) hfree hnonneg hpos hfit (w := w₀) rfl
    obtain ⟨-, hrun', hready'⟩ := hone w₀ hw hlt
    exact ⟨hw, hlt, hrun.trans hrun'.symm, Eq.trans hready hready'.symm⟩
  · intro w hw hlt
    obtain ⟨hwinner, hrun, hready⟩ := hone w hw hlt
    rw [hwinner]
    exact ⟨hholds w hw hlt, hrun, hready⟩
  · intro k hk
    refine card_selecting hnonneg hk fun w hw hlt => ?_
    rw [(hone w hw hlt).1]
  · intro hnodup i hi
    obtain ⟨k, hk, rfl⟩ := List.getElem_of_mem hi
    have hget : queue.getD k 0 = queue[k] := List.getD_eq_getElem _ _ hk
    rw [← hget]
    refine card_selecting hnonneg hk fun w hw hlt => ?_
    rw [(hone w hw hlt).2.1, Option.some_inj]
    exact getD_inj_of_nodup hnodup (hholds w hw hlt) hk

/-- Tickets `0`, `3` and `7`. -/
def threeHolders : LotteryScheduler where
  quantum := 2
  rng := alwaysDraws 0
  allProcesses := [{ newProcess 1 "P1" 0 1 with tickets := 0 },
    { newProcess 2 "P2" 0 1 with tickets := 3 }, { newProcess 3 "P3" 0 1 with tickets := 7 }]

theorem lottery_proportional_threeHolders :
    (((Finset.Ico (0 : ℤ) 10).filter fun w =>
        ((drawing w threeHolders).schedule 0).running = some 0).card : ℤ) = 0 ∧
      (((Finset.Ico (0 : ℤ) 10).filter fun w =>
        ((drawing w threeHolders).schedule 0).running = some 1).card : ℤ) = 3 := by
  obtain ⟨-, -, -, hcount⟩ := lottery_proportional 0 threeHolders (by decide) (by decide)
    (by decide) (by decide)
  exact ⟨hcount (by decide) 0 (by decide), hcount (by decide) 1 (by decide)⟩

/-- The scheduler of `twoRich` at its first tick. -/
def richHolders : LotteryScheduler where
  quantum := 2
  rng := alwaysDraws 0
  allProcesses := twoRich.procs

/-- The tickets of both processes add up to `2 ^ 63`, and no winning ticket selects either. -/
theorem lottery_draws_nothing_twoRich :
    (atDraw 0 richHolders).running = none ∧ (∀ x ∈ queueTickets (atDraw 0 richHolders), 0 ≤ x) ∧
      (queueTickets (atDraw 0 richHolders)).sum = 2 ^ 63 ∧
      0 ∈ (atDraw 0 richHolders).readyQueue ∧ ((atDraw 0 richHolders).proc 0).tickets = 2 ^ 62 ∧
      ((Finset.Ico (0 : ℤ) (2 ^ 63)).filter fun w =>
        ((drawing w richHolders).schedule 0).running = some 0).card = 0 := by
  refine ⟨rfl, by decide, by decide, by decide, by decide, ?_⟩
  rw [Finset.card_eq_zero, Finset.filter_eq_empty_iff]
  intro w _ hrun
  have hidle : ((drawing w richHolders).schedule 0).running = none := rfl
  rw [hidle] at hrun
  cases hrun

end OsSimulator.Analysis
