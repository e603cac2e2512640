import OsSimulator.Interface.PageTableView
import OsSimulator.Library.RingArc
import OsSimulator.Library.StickyPager
import Mathlib.Data.List.GetD

/-!
# Pages and frames

`pagingView` reads a paging system as the two maps of a pager: the translations of the
page tables (`tableFrame`) and the contents of the frame table (`framePages`).  The TLB is
not part of the view: its entries agree with the page tables (`TLBAgrees`).

The operations on the TLB, the frame table and the page tables are stated in these terms.
The sweep of the clock is given exactly (`clockSweep_spec`).
-/

set_option autoImplicit false

namespace OsSimulator.Interface

open Model Library

/-- A virtual page: the PID and the VPN. -/
abbrev Page := ℤ × UInt64

def entryFrame (e : PageTableEntry) : Option ℕ :=
  if e.valid && e.present then some e.pfn.toNat else none

def framePage (f : FrameInfo) : Option Page := if f.isOccupied then some (f.pid, f.vpn) else none

def tableFrame (tables : ℤ → PageTable) (p : Page) : Option ℕ :=
  ((tables p.1).entries[p.2.toNat]?).bind entryFrame

def framePages (frames : List FrameInfo) (f : ℕ) : Option Page := (frames[f]?).bind framePage

def pagingView (s : PagingSystem) : PagerView Page where
  frameOf := tableFrame s.tables
  pageAt := framePages s.mm.frames

/-! ## The TLB -/

/-- Every valid entry satisfies `P`, in terms of its page and its frame. -/
def TLBEach (P : Page → UInt64 → Prop) (tlb : TLB) : Prop :=
  ∀ e ∈ tlb.entries, e.valid = true → P (e.asid, e.vpn) e.pfn

/-- Every valid entry is a translation of `tr`. -/
def TLBAgrees (tr : Page → Option ℕ) (tlb : TLB) : Prop :=
  ∀ e ∈ tlb.entries, e.valid = true → tr (e.asid, e.vpn) = some e.pfn.toNat

section TLB

variable {P : Page → UInt64 → Prop} {tr tr' : Page → Option ℕ} {tlb : TLB} {pid : ℤ}
  {vpn pfn : UInt64}

theorem TLBEach.of_lookup (h : TLBEach P tlb) (hhit : (tlb.lookup pid vpn).1 = some pfn) :
    P (pid, vpn) pfn := by
  unfold TLB.lookup at hhit
  dsimp only at hhit
  split at hhit
  · rename_i i hfind
    obtain ⟨hi, hfor, -⟩ := List.findIdx?_eq_some_iff_getElem.mp hfind
    simp only [List.getElem?_eq_getElem hi, Option.map_some, Option.some.injEq] at hhit
    simp only [TLB.isFor, Bool.and_eq_true, beq_iff_eq] at hfor
    have hentry := h _ (List.getElem_mem hi) hfor.1.1
    rw [hfor.1.2, hfor.2, hhit] at hentry
    exact hentry
  · simp at hhit

/-- A miss means that no valid entry is for the page. -/
theorem tlbEach_ne_of_miss (hmiss : (tlb.lookup pid vpn).1 = none) :
    TLBEach (fun p _ => p ≠ (pid, vpn)) tlb := by
  intro e he hv heq
  obtain ⟨rfl, rfl⟩ := Prod.mk.inj heq
  unfold TLB.lookup at hmiss
  dsimp only at hmiss
  split at hmiss
  · rename_i i hfind
    obtain ⟨hi, -⟩ := List.findIdx?_eq_some_iff_getElem.mp hfind
    simp [List.getElem?_eq_getElem hi] at hmiss
  · rename_i hfind
    have hnot := List.findIdx?_eq_none_iff.mp hfind e he
    simp [TLB.isFor, hv] at hnot

theorem TLBEach.lookup (h : TLBEach P tlb) (pid : ℤ) (vpn : UInt64) :
    TLBEach P (tlb.lookup pid vpn).2 := by
  unfold TLB.lookup
  dsimp only
  split
  · intro e he hv
    obtain ⟨j, hj, rfl⟩ := List.mem_iff_getElem.mp he
    simp only [List.getElem_modify] at hv ⊢
    have hj' : j < tlb.entries.length := by simpa using hj
    split at hv
    · rename_i heq
      rw [if_pos heq]
      exact h tlb.entries[j] (List.getElem_mem hj') hv
    · rename_i hne
      rw [if_neg hne]
      exact h _ (List.getElem_mem hj') hv
  · exact h

theorem TLBEach.insert (h : TLBEach P tlb) (hp : P (pid, vpn) pfn) (writable : Bool) :
    TLBEach P (tlb.insert pid vpn pfn writable) := by
  intro e he hv
  unfold TLB.insert at he
  rcases List.mem_or_eq_of_mem_set he with he | rfl
  · exact h e he hv
  · exact hp

theorem TLBAgrees.mono (h : TLBAgrees tr tlb) (hle : ∀ p f, tr p = some f → tr' p = some f) :
    TLBAgrees tr' tlb :=
  fun e he hv => hle _ _ (h e he hv)

theorem lookup_eq_some (hhit : (tlb.lookup pid vpn).1 = some pfn) (h : TLBAgrees tr tlb) :
    tr (pid, vpn) = some pfn.toNat :=
  TLBEach.of_lookup (P := fun p pfn => tr p = some pfn.toNat) h hhit

theorem TLBAgrees.lookup (h : TLBAgrees tr tlb) (pid : ℤ) (vpn : UInt64) :
    TLBAgrees tr (tlb.lookup pid vpn).2 :=
  TLBEach.lookup (P := fun p pfn => tr p = some pfn.toNat) h pid vpn

theorem TLBAgrees.insert (h : TLBAgrees tr tlb) (htr : tr (pid, vpn) = some pfn.toNat)
    (writable : Bool) : TLBAgrees tr (tlb.insert pid vpn pfn writable) :=
  TLBEach.insert (P := fun p pfn => tr p = some pfn.toNat) h htr writable

end TLB

/-! ## The frame table -/

section Frames

variable {frames : List FrameInfo} {i : ℕ}

theorem framePages_set (hi : i < frames.length) (f : FrameInfo) :
    framePages (frames.set i f) = Function.update (framePages frames) i (framePage f) := by
  funext j
  unfold framePages
  by_cases hj : j = i
  · rw [hj, Function.update_self, List.getElem?_set_self hi]
    rfl
  · rw [Function.update_of_ne hj, List.getElem?_set_ne (Ne.symm hj)]

theorem framePages_modify {g : FrameInfo → FrameInfo} (hg : ∀ f, framePage (g f) = framePage f) :
    framePages (frames.modify i g) = framePages frames := by
  funext j
  unfold framePages
  rw [List.getElem?_modify]
  split
  · cases frames[j]? with
    | none => rfl
    | some f => exact hg f
  · simp

theorem scanOldest_lt {key : FrameInfo → ℤ} {n victimIdx : ℕ} {oldest : ℤ}
    (hi : i + frames.length ≤ n) (hv : victimIdx < n) :
    scanOldest key frames i victimIdx oldest < n := by
  induction frames generalizing i victimIdx oldest with
  | nil => exact hv
  | cons f frames ih =>
    simp only [List.length_cons] at hi
    unfold scanOldest
    split
    · exact ih (by omega) (by omega)
    · exact ih (by omega) hv

theorem oldestFrame_lt (key : FrameInfo → ℤ) (hpos : 0 < frames.length) :
    oldestFrame key frames < frames.length := by
  cases frames with
  | nil => simp at hpos
  | cons f frames =>
    apply scanOldest_lt
    · simp only [List.length_cons]
      omega
    · simp

/-! ### The clock -/

/-- A frame when the hand has passed it. -/
def passed (f : FrameInfo) : FrameInfo := { f with useBit := false }

def useBitAt (frames : List FrameInfo) (i : ℕ) : Option Bool := (frames[i]?).map FrameInfo.useBit

/-- The hand stops at a frame whose use bit is clear. -/
theorem clockSweep_of_clear {n hand : ℕ} (hbit : useBitAt frames hand = some false) (rounds : ℕ) :
    clockSweep n (rounds + 1) hand frames = some (hand, (hand + 1) % n, frames) := by
  obtain ⟨f, hget, hclear⟩ := Option.map_eq_some_iff.mp hbit
  unfold clockSweep
  rw [hget]
  simp only [hclear, Bool.not_false, if_true]

/-- It clears a bit that is set and moves on. -/
theorem clockSweep_of_set {n hand : ℕ} {f : FrameInfo} (hget : frames[hand]? = some f)
    (hset : f.useBit = true) (rounds : ℕ) :
    clockSweep n (rounds + 1) hand frames =
      clockSweep n rounds ((hand + 1) % n) (frames.set hand (passed f)) := by
  rw [clockSweep, hget]
  simp only [hset, Bool.not_true, Bool.false_eq_true, if_false]
  rfl

/-- The rounds in which the hand passes frames. -/
theorem clockSweep_of_passed {hand d : ℕ} (hhand : hand < frames.length) (hd : d ≤ frames.length)
    (hset : ∀ j < d, useBitAt frames ((hand + j) % frames.length) = some true) (rounds : ℕ) :
    clockSweep frames.length (rounds + d) hand frames =
      clockSweep frames.length rounds ((hand + d) % frames.length)
        (mapArc passed hand d frames) := by
  induction d generalizing rounds with
  | zero => rw [mapArc_zero, Nat.add_zero, Nat.add_zero, Nat.mod_eq_of_lt hhand]
  | succ d ih =>
    obtain ⟨f, hget, hbit⟩ := Option.map_eq_some_iff.mp (hset d (Nat.lt_succ_self d))
    have hnext : (mapArc passed hand d frames)[(hand + d) % frames.length]? = some f :=
      (getElem?_mapArc_next hhand hd).trans hget
    rw [show rounds + (d + 1) = rounds + 1 + d by omega,
      ih (Nat.le_of_succ_le hd) (fun j hj => hset j (Nat.lt_succ_of_lt hj)),
      clockSweep_of_set hnext hbit, mapArc_succ hhand hd hget, Nat.mod_add_mod, Nat.add_assoc]

/-- The bit under the hand is clear when it has passed `d` frames. -/
theorem useBitAt_mapArc {hand d : ℕ} (hhand : hand < frames.length) (hd : d ≤ frames.length)
    (hclear : d < frames.length → useBitAt frames ((hand + d) % frames.length) = some false) :
    useBitAt (mapArc passed hand d frames) ((hand + d) % frames.length) = some false := by
  unfold useBitAt at hclear ⊢
  rcases Nat.lt_or_eq_of_le hd with hlt | rfl
  · rw [getElem?_mapArc_next hhand hlt]
    exact hclear hlt
  · -- it has gone round, and has cleared the bit where it started
    rw [mapArc_length, Nat.add_mod_right, Nat.mod_eq_of_lt hhand, List.getElem?_map,
      List.getElem?_eq_getElem hhand]
    rfl

/-- **The sweep of the clock.**  The hand passes `d` frames whose use bit is set, at most all of
them, and stops in the round after these.
SOURCE: pkg/memory/page_replacement.go:170-184 -/
theorem clockSweep_spec {hand : ℕ} (hhand : hand < frames.length) :
    ∃ d ≤ frames.length,
      (∀ j < d, useBitAt frames ((hand + j) % frames.length) = some true) ∧
      (d < frames.length → useBitAt frames ((hand + d) % frames.length) = some false) ∧
      ∀ rounds, clockSweep frames.length rounds hand frames =
        if d < rounds then
          some ((hand + d) % frames.length, ((hand + d) % frames.length + 1) % frames.length,
            mapArc passed hand d frames)
        else none := by
  obtain ⟨d, hd, hbefore, hstop⟩ :=
    exists_firstStop frames.length hand fun i => useBitAt frames i == some false
  have hset : ∀ j < d, useBitAt frames ((hand + j) % frames.length) = some true := by
    intro j hj
    have hlt : (hand + j) % frames.length < frames.length := Nat.mod_lt _ (by omega)
    have hnot := hbefore j hj
    rw [useBitAt, List.getElem?_eq_getElem hlt] at hnot ⊢
    simpa using hnot
  have hclear : d < frames.length → useBitAt frames ((hand + d) % frames.length) = some false :=
    fun hlt => beq_iff_eq.mp (hstop hlt)
  refine ⟨d, hd, hset, hclear, fun rounds => ?_⟩
  split_ifs with hlt
  · obtain ⟨more, rfl⟩ : ∃ more, rounds = more + 1 + d := ⟨rounds - 1 - d, by omega⟩
    rw [clockSweep_of_passed hhand hd hset,
      clockSweep_of_clear (useBitAt_mapArc hhand hd hclear)]
  · -- with fewer rounds the hand is still passing
    have hrounds : rounds ≤ d := Nat.not_lt.mp hlt
    have hpass := clockSweep_of_passed hhand (Nat.le_trans hrounds hd)
      (fun j hj => hset j (Nat.lt_of_lt_of_le hj hrounds)) 0
    rw [Nat.zero_add] at hpass
    exact hpass

theorem framePages_mapArc {hand d : ℕ} :
    framePages (mapArc passed hand d frames) = framePages frames := by
  have hjoin : ∀ frames i, framePages frames i = ((frames.map framePage)[i]?).join := by
    intro frames i
    rw [framePages, List.getElem?_map]
    cases frames[i]? <;> rfl
  funext i
  rw [hjoin, hjoin, map_mapArc (g := passed) fun _ => rfl]

end Frames

/-! ## The memory manager -/

/-- The frame table has its size, and the clock hand points into it. -/
structure ManagerOk (mm : MemoryManager) : Prop where
  length_eq : mm.frames.length = mm.numFrames
  pos : 0 < mm.numFrames
  lt_word : mm.numFrames < 2 ^ 64
  hand_lt : mm.clockHand < mm.numFrames

theorem managerOk_new (numFrames : Int64) (policy : ReplacementPolicy) (tlbCapacity : Int64) :
    ManagerOk (newMemoryManager numFrames policy tlbCapacity) := by
  have hpos : 0 < (if numFrames ≤ 0 then 4 else numFrames).toInt := by
    split
    · decide
    · rename_i h
      rw [Int64.le_iff_toInt_le] at h
      simpa using h
  have hlt : (if numFrames ≤ 0 then 4 else numFrames).toInt < 2 ^ 63 := Int64.toInt_lt _
  unfold newMemoryManager
  refine ⟨by simp, ?_, ?_, ?_⟩
  · dsimp only
    omega
  · dsimp only
    omega
  · dsimp only
    omega

theorem toNat_ofNat_of_lt {mm : MemoryManager} {i : ℕ} (hmm : ManagerOk mm)
    (hi : i < mm.numFrames) : (UInt64.ofNat i).toNat = i := by
  have := hmm.lt_word
  exact UInt64.toNat_ofNat_of_lt (by simp [UInt64.size]; omega)

/-! ## Page tables -/

variable {tables : ℤ → PageTable}

/-- What a new table has in common with the old one is the same for all tables. -/
theorem field_update {β : Type*} (g : PageTable → β) {pid : ℤ} {pt : PageTable}
    (hpt : g pt = g (tables pid)) (q : ℤ) : g (Function.update tables pid pt q) = g (tables q) := by
  by_cases hq : q = pid
  · rw [hq, Function.update_self, hpt]
  · rw [Function.update_of_ne hq]

/-- A write to one entry leaves the entries of other pages alone. -/
theorem entry_of_ne {pid : ℤ} {vpn : UInt64} {p : Page} (hne : p ≠ (pid, vpn))
    (pte : PageTableEntry) :
    (Function.update tables pid
        { tables pid with entries := (tables pid).entries.set vpn.toNat pte } p.1).entries[p.2.toNat]? =
      (tables p.1).entries[p.2.toNat]? := by
  by_cases hpid : p.1 = pid
  · have hvpn : vpn.toNat ≠ p.2.toNat := fun heq =>
      hne (Prod.ext hpid (UInt64.toNat_inj.mp heq.symm))
    rw [hpid, Function.update_self]
    exact List.getElem?_set_ne hvpn
  · rw [Function.update_of_ne hpid]

theorem entry_self {pid : ℤ} {vpn : UInt64} {pte : PageTableEntry}
    (hget : (tables pid).entries[vpn.toNat]? = some pte) (pte' : PageTableEntry) :
    (Function.update tables pid
        { tables pid with entries := (tables pid).entries.set vpn.toNat pte' } pid).entries[vpn.toNat]? =
      some pte' := by
  obtain ⟨hlt, -⟩ := List.getElem?_eq_some_iff.mp hget
  rw [Function.update_self]
  exact List.getElem?_set_self hlt

/-- Writing an entry of one table changes the translation of one page. -/
theorem tableFrame_set (tables : ℤ → PageTable) (pid : ℤ) {vpn : UInt64}
    (hvpn : vpn.toNat < (tables pid).entries.length) (e : PageTableEntry) :
    tableFrame (Function.update tables pid
        { tables pid with entries := (tables pid).entries.set vpn.toNat e }) =
      Function.update (tableFrame tables) (pid, vpn) (entryFrame e) := by
  funext p
  unfold tableFrame
  by_cases hp : p = (pid, vpn)
  · subst hp
    rw [entry_self (List.getElem?_eq_getElem hvpn), Function.update_self]
    rfl
  · rw [entry_of_ne hp, Function.update_of_ne hp]

end OsSimulator.Interface
