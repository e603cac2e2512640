import OsSimulator.Library.ShortestRemaining
import Mathlib.Data.List.Sort
import Mathlib.Algebra.GroupWithZero.Nat

/-!
# Jobs that are served one after the other

A schedule that serves the jobs in a fixed order, each to its end, and does not idle while there
is work (`InOrder`).  Its completion times follow the recurrence of a first-come queue: a job
starts at its arrival or when the job before it is done, whichever is later, and is served
without interruption (`InOrder.servedFrom`, `InOrder.completesAt`).

`serial` is such a schedule for jobs that are all there from the start: one after the other, with
nothing in between.  An order of arrival is a stable sort by the time of arrival; the last section
has what a queue needs of it: those who come at one time join behind those who came before
(`filter_le_insertionSort`).
-/

set_option autoImplicit false

namespace OsSimulator.Library

variable {ι : Type*} [DecidableEq ι]

/-! ## Service in one interval -/

section Interval

variable {J : JobSet ι} {h : ℕ → Option ι} {i : ι} {start : ℕ}

/-- Job `i` is served in the ticks from `start` on until it has its burst, and in no others. -/
def ServedFrom (J : JobSet ι) (h : ℕ → Option ι) (i : ι) (start : ℕ) : Prop :=
  ∀ n, h n = some i ↔ start ≤ n ∧ n < start + J.burst i

/-- If whether tick `n` serves the job follows from the interval as long as the count does, the
count follows from the interval. -/
theorem served_eq_min {b : ℕ}
    (hs : ∀ n, served h i n = min (n - start) b → (h n = some i ↔ start ≤ n ∧ n < start + b))
    (n : ℕ) : served h i n = min (n - start) b := by
  induction n with
  | zero => simp [served_zero]
  | succ n ih =>
    have hn := hs n ih
    rw [served_succ, ih]
    by_cases hin : h n = some i
    · have := hn.mp hin
      rw [if_pos hin]
      omega
    · have : ¬ (start ≤ n ∧ n < start + b) := fun h => hin (hn.mpr h)
      rw [if_neg hin]
      omega

theorem ServedFrom.served_eq (hs : ServedFrom J h i start) (n : ℕ) :
    served h i n = min (n - start) (J.burst i) :=
  served_eq_min (fun n _ => hs n) n

theorem ServedFrom.completesAt (hs : ServedFrom J h i start) (hpos : 0 < J.burst i) :
    J.CompletesAt h i (start + J.burst i) := by
  intro n
  rw [hs.served_eq]
  omega

/-- A job that is served from `start` on as long as it is unfinished. -/
theorem servedFrom_of_iff (hs : ∀ n, h n = some i ↔ start ≤ n ∧ served h i n < J.burst i) :
    ServedFrom J h i start := by
  have hserved : ∀ n, served h i n = min (n - start) (J.burst i) := by
    refine served_eq_min fun n hn => ?_
    rw [hs n, hn]
    omega
  intro n
  rw [hs n, hserved n]
  omega

end Interval

variable {before after : List ι} {i : ι}

namespace JobSet

/-- Completion times are unique. -/
theorem CompletesAt.unique {J : JobSet ι} {h : ℕ → Option ι} {c c' : ℕ} (hc : J.CompletesAt h i c)
    (hc' : J.CompletesAt h i c') : c = c' := by
  have hle := (hc' c).symm.trans (hc c)
  have hge := (hc' c').symm.trans (hc c')
  omega

/-! ## First come, first served -/

structure InOrder (J : JobSet ι) (h : ℕ → Option ι) (order : List ι) : Prop
    extends WorkConserving J h where
  mem_order : ∀ i, i ∈ order ↔ i ∈ J.jobs
  earlier_done : ∀ {before after : List ι} {i : ι}, order = before ++ i :: after →
    ∀ {n}, h n = some i → ∀ j ∈ before, J.left h n j = 0

/-- When a server that is free from `c` on is done with the jobs of the list. -/
def doneAt (J : JobSet ι) : ℕ → List ι → ℕ
  | c, [] => c
  | c, i :: rest => doneAt J (max c (J.arrival i) + J.burst i) rest

omit [DecidableEq ι] in
theorem doneAt_concat (J : JobSet ι) (c : ℕ) (l : List ι) (i : ι) :
    J.doneAt c (l ++ [i]) = max (J.doneAt c l) (J.arrival i) + J.burst i := by
  induction l generalizing c with
  | nil => rfl
  | cons a l ih => exact ih _

variable {J : JobSet ι} {h : ℕ → Option ι} {order : List ι}

/-- Once the jobs before it are done, a job that is there and unfinished is served. -/
theorem InOrder.serves_of_done (ho : InOrder J h order) (hsplit : order = before ++ i :: after)
    {n : ℕ} (hdone : ∀ j ∈ before, J.left h n j = 0) (harr : J.arrival i ≤ n)
    (hun : served h i n < J.burst i) : h n = some i := by
  have hi : i ∈ J.jobs := (ho.mem_order i).mp (by simp [hsplit])
  cases hn : h n with
  | none =>
    have hidle := ho.idle hn i hi
    have hpos : 0 < J.present h n i := present_pos_iff.mpr ⟨harr, hun⟩
    omega
  | some j =>
    have hj := (ho.mem_order j).mpr (ho.mem hn)
    rw [hsplit] at hj
    rcases List.mem_append.mp hj with hbefore | hafter
    · -- a job before it is done
      have hleft := hdone j hbefore
      have := ho.unfinished hn
      unfold left at hleft
      omega
    · rcases List.mem_cons.mp hafter with rfl | hafter
      · rfl
      · -- a job behind it waits for it
        obtain ⟨l, r, hlr⟩ := List.append_of_mem hafter
        have hsplit' : order = (before ++ i :: l) ++ j :: r := by
          rw [hsplit, hlr]
          simp
        have hleft := ho.earlier_done hsplit' hn i (by simp)
        unfold left at hleft
        omega

/-- The jobs of the list are all done from tick `c` on, and not before. -/
def DoneFrom (J : JobSet ι) (h : ℕ → Option ι) (jobs : List ι) (c : ℕ) : Prop :=
  ∀ n, (∀ j ∈ jobs, J.left h n j = 0) ↔ c ≤ n

theorem InOrder.servedFrom_of_doneFrom (ho : InOrder J h order)
    (hsplit : order = before ++ i :: after) {c : ℕ} (hc : DoneFrom J h before c) :
    ServedFrom J h i (max c (J.arrival i)) := by
  apply servedFrom_of_iff
  intro n
  constructor
  · intro hn
    have hdone := (hc n).mp (ho.earlier_done hsplit hn)
    exact ⟨max_le hdone (ho.arrived hn), ho.unfinished hn⟩
  · rintro ⟨hstart, hun⟩
    have hdone := (hc n).mpr ((le_max_left _ _).trans hstart)
    exact ho.serves_of_done hsplit hdone ((le_max_right _ _).trans hstart) hun

variable (ho : InOrder J h order) (hpos : ∀ i ∈ J.jobs, 0 < J.burst i)
include ho hpos

/-- **The recurrence**, along the order of service. -/
theorem InOrder.doneFrom (hsplit : order = before ++ after) :
    DoneFrom J h before (J.doneAt 0 before) := by
  induction before using List.reverseRecOn generalizing after with
  | nil => exact fun n => ⟨fun _ => Nat.zero_le n, fun _ j hj => absurd hj List.not_mem_nil⟩
  | append_singleton before i ih =>
    have hsplit' : order = before ++ i :: after := by
      rw [hsplit]
      simp
    have hprev := ih hsplit'
    have hi : i ∈ J.jobs := (ho.mem_order i).mp (by simp [hsplit])
    have hserved := ho.servedFrom_of_doneFrom hsplit' hprev
    have hcomplete := hserved.completesAt (hpos i hi)
    intro n
    have hleft : J.left h n i = 0 ↔ J.doneAt 0 (before ++ [i]) ≤ n := by
      have := hcomplete n
      rw [doneAt_concat]
      unfold left
      omega
    rw [← hleft]
    constructor
    · intro hall
      exact hall i (by simp)
    · intro hdone j hj
      rcases List.mem_append.mp hj with hj | hj
      · refine (hprev n).mpr ?_ j hj
        have := hleft.mp hdone
        rw [doneAt_concat] at this
        omega
      · rwa [List.mem_singleton.mp hj]

/-- A job is served without interruption from its arrival or the end of the job before it. -/
theorem InOrder.servedFrom (hsplit : order = before ++ i :: after) :
    ServedFrom J h i (max (J.doneAt 0 before) (J.arrival i)) :=
  ho.servedFrom_of_doneFrom hsplit (ho.doneFrom hpos hsplit)

theorem InOrder.completesAt (hsplit : order = before ++ i :: after) :
    J.CompletesAt h i (J.doneAt 0 (before ++ [i])) := by
  have hi : i ∈ J.jobs := (ho.mem_order i).mp (by simp [hsplit])
  rw [doneAt_concat]
  exact (ho.servedFrom hpos hsplit).completesAt (hpos i hi)

end JobSet

/-! ## One after the other -/

/-- The jobs of the list are served from tick `0` on with nothing in between. -/
def serial (burst : ι → ℕ) : List ι → ℕ → Option ι
  | [], _ => none
  | i :: rest, n => if n < burst i then some i else serial burst rest (n - burst i)

section Serial

variable {J : JobSet ι} {order : List ι}

omit [DecidableEq ι] in
theorem mem_of_serial {burst : ι → ℕ} {l : List ι} {n : ℕ} (hn : serial burst l n = some i) :
    i ∈ l := by
  induction l generalizing n with
  | nil => cases hn
  | cons a l ih =>
    rw [serial] at hn
    split at hn
    · obtain rfl := Option.some.inj hn
      exact List.mem_cons_self
    · exact List.mem_cons_of_mem a (ih hn)

omit [DecidableEq ι] in
theorem servedFrom_serial (hnd : (before ++ i :: after).Nodup) :
    ServedFrom J (serial J.burst (before ++ i :: after)) i (before.map J.burst).sum := by
  induction before with
  | nil =>
    intro n
    have hi : i ∉ after := (List.nodup_cons.mp hnd).1
    simp only [List.nil_append, serial, List.map_nil, List.sum_nil, Nat.zero_le, Nat.zero_add,
      true_and]
    split
    · simpa
    · rename_i hge
      exact iff_of_false (fun hn => hi (mem_of_serial hn)) hge
  | cons a before ih =>
    intro n
    obtain ⟨ha, hnd'⟩ := List.nodup_cons.mp hnd
    have hne : a ≠ i := fun heq => ha (by simp [heq])
    simp only [List.cons_append, serial, List.map_cons, List.sum_cons]
    split
    · exact iff_of_false (by simpa using hne) (by omega)
    · rw [ih hnd' (n - J.burst a)]
      omega

variable (hnd : order.Nodup)
include hnd

theorem completesAt_serial (hsplit : order = before ++ i :: after) (hpos : 0 < J.burst i) :
    J.CompletesAt (serial J.burst order) i ((before.map J.burst).sum + J.burst i) := by
  subst hsplit
  exact (servedFrom_serial hnd).completesAt hpos

/-- Jobs that are there from the start may be served in any order. -/
theorem feasible_serial (hmem : ∀ i ∈ order, i ∈ J.jobs) (harr : ∀ i ∈ order, J.arrival i = 0) :
    J.Feasible (serial J.burst order) := by
  refine ⟨fun hn => hmem _ (mem_of_serial hn), fun hn => ?_, fun {n i} hn => ?_⟩
  · rw [harr _ (mem_of_serial hn)]
    exact Nat.zero_le _
  · obtain ⟨before, after, hsplit⟩ := List.append_of_mem (mem_of_serial hn)
    subst hsplit
    have hserved := servedFrom_serial (J := J) hnd
    have hin := (hserved n).mp hn
    rw [hserved.served_eq]
    omega

end Serial

/-! ## The order of arrival -/

section Arrival

variable {α : Type*} {β : Type*} [LinearOrder β] (key : α → β)

instance total_key : Std.Total fun x y : α => key x ≤ key y :=
  ⟨fun x y => le_total (key x) (key y)⟩

instance trans_key : IsTrans α fun x y : α => key x ≤ key y := ⟨fun _ _ _ => le_trans⟩

/-- An inserted element passes elements of smaller keys only. -/
theorem filter_orderedInsert (a : α) (l : List α) (t : β) :
    (l.orderedInsert (fun x y => key x ≤ key y) a).filter (fun x => key x = t) =
      (a :: l).filter fun x => key x = t := by
  induction l with
  | nil => rfl
  | cons b l ih =>
    rw [List.orderedInsert_cons]
    split
    · rfl
    · rename_i hlt
      have hne : key a = t → key b ≠ t := fun ha hb => hlt (ha.trans hb.symm).le
      rw [List.filter_cons, ih]
      by_cases ha : key a = t
      · simp [ha, hne ha]
      · simp [ha, List.filter_cons]

/-- **Stability**: elements of one key stay in the order in which they were. -/
theorem filter_insertionSort (l : List α) (t : β) :
    (l.insertionSort fun x y => key x ≤ key y).filter (fun x => key x = t) =
      l.filter fun x => key x = t := by
  induction l with
  | nil => rfl
  | cons a l ih =>
    rw [List.insertionSort_cons, filter_orderedInsert, List.filter_cons, ih, List.filter_cons]

/-- A sorted list has the elements of key `t` right behind the smaller ones. -/
theorem filter_le_of_pairwise {l : List α} (hsorted : l.Pairwise fun x y => key x ≤ key y) (t : β) :
    l.filter (fun x => key x ≤ t) =
      l.filter (fun x => key x < t) ++ l.filter fun x => key x = t := by
  induction l with
  | nil => rfl
  | cons a l ih =>
    obtain ⟨hhead, htail⟩ := List.pairwise_cons.mp hsorted
    have ih := ih htail
    rcases lt_trichotomy (key a) t with hlt | heq | hgt
    · simp [hlt, hlt.le, hlt.ne, ih]
    · -- nothing behind `a` has a smaller key
      have hnone : l.filter (fun x => key x < t) = [] := by
        rw [List.filter_eq_nil_iff]
        intro x hx
        have := hhead x hx
        simpa [heq] using this
      rw [hnone, List.nil_append] at ih
      simp [heq, ih, hnone]
    · simp [hgt.not_ge, hgt.not_gt, hgt.ne', ih]

theorem filter_le_insertionSort (l : List α) (t : β) :
    (l.insertionSort fun x y => key x ≤ key y).filter (fun x => key x ≤ t) =
      (l.insertionSort fun x y => key x ≤ key y).filter (fun x => key x < t) ++
        l.filter fun x => key x = t := by
  rw [filter_le_of_pairwise key (List.pairwise_insertionSort _ l), filter_insertionSort]

end Arrival

end OsSimulator.Library
