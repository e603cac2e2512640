import OsSimulator.Interface.FrameTable

/-!
# The clock gives every frame a second chance

The loop of the CLOCK policy has no bound of its own and changes the bits that it tests.  From any
setting of the use bits and of the hand it stops: it passes the frames in circular order as long as
their use bit is set, and when it has gone round it finds its own work under the hand
(`SecondChance`).

`allocateFrame_clock` gives the complete result of `allocateFrame` in terms of the number of frames
that the hand passes.
-/

set_option autoImplicit false

namespace OsSimulator.Analysis

open Model Interface Library

section Clock

variable (mm : MemoryManager)

/-- Where the hand is after `j` steps. -/
def handAfter (j : ℕ) : ℕ := (mm.clockHand + j) % mm.numFrames

/-- The first frame in circular order from the hand whose use bit is clear is `d` steps away;
`d` is the number of frames if there is none. -/
structure SecondChance (d : ℕ) : Prop where
  le : d ≤ mm.numFrames
  passes : ∀ j < d, useBitAt mm.frames (handAfter mm j) = some true
  stops : d < mm.numFrames → useBitAt mm.frames (handAfter mm d) = some false

/-- The memory manager when the hand has passed `d` frames, before the victim is overwritten. -/
def afterSweep (d : ℕ) : MemoryManager :=
  { mm with
    frames := mapArc passed mm.clockHand d mm.frames
    clockHand := (handAfter mm d + 1) % mm.numFrames }

end Clock

/-- **CLOCK terminates and is second chance.**  The loop looks at `d + 1` frames, evicts the last
of them, clears the use bits of the `d` before it and of no other frame, and leaves the hand one
past the victim.
SOURCE: pkg/memory/page_replacement.go:126-204 -/
theorem allocateFrame_clock (mm : MemoryManager) (hpolicy : mm.policy = .clock)
    (hpos : 1 ≤ mm.numFrames) (hlen : mm.frames.length = mm.numFrames)
    (hfull : ∀ f ∈ mm.frames, f.isOccupied = true) (hhand : mm.clockHand < mm.numFrames)
    (pid : ℤ) (vpn : UInt64) :
    ∃ d victim, SecondChance mm d ∧
      (∀ rounds, (clockSweep mm.numFrames rounds mm.clockHand mm.frames).isSome ↔ d + 1 ≤ rounds) ∧
      mm.frames[handAfter mm d]? = some victim ∧
      mm.allocateFrame pid vpn =
        some (UInt64.ofNat (handAfter mm d), victim.vpn, true,
          MemoryManager.loadFrame (handAfter mm d) pid vpn
            { afterSweep mm d with
              pageEvictions := mm.pageEvictions + 1
              swapWrites := mm.swapWrites + victim.isDirty.toNat }) ∧
      (handAfter mm d + 1) % mm.numFrames < mm.numFrames := by
  obtain ⟨d, hd, hpasses, hstops, hsweep⟩ := clockSweep_spec (hlen.symm ▸ hhand)
  rw [hlen] at hd hpasses hstops hsweep
  have hlt : handAfter mm d < mm.frames.length := hlen ▸ Nat.mod_lt _ hpos
  refine ⟨d, mm.frames[handAfter mm d], ⟨hd, hpasses, hstops⟩, fun rounds => ?_,
    List.getElem?_eq_getElem hlt, ?_, Nat.mod_lt _ hpos⟩
  · rw [hsweep]
    split_ifs with h
    · exact iff_of_true rfl h
    · exact iff_of_false Bool.false_ne_true h
  · have hvictim : victimOf mm.policy mm.numFrames mm.clockHand mm.frames =
        some (handAfter mm d, (handAfter mm d + 1) % mm.numFrames,
          mapArc passed mm.clockHand d mm.frames) := by
      rw [hpolicy, victimOf, hsweep, if_pos (by omega)]
      rfl
    have hget : ∃ f, (mapArc passed mm.clockHand d mm.frames)[handAfter mm d]? = some f ∧
        f.vpn = mm.frames[handAfter mm d].vpn ∧ f.isDirty = mm.frames[handAfter mm d].isDirty := by
      rw [getElem?_mapArc, List.getElem?_eq_getElem hlt, Option.map_some]
      refine ⟨_, rfl, ?_⟩
      split_ifs <;> exact ⟨rfl, rfl⟩
    obtain ⟨f, hf, hvpn, hdirty⟩ := hget
    rw [allocateFrame_of_full hfull hvictim hf, hvpn, hdirty]
    rfl

/-- Three frames, the hand at the last one; only the first has a clear use bit. -/
def threeFrames : MemoryManager :=
  { numFrames := 3
    frames := [
      { pfn := 0, pid := 1, vpn := 5, isOccupied := true },
      { pfn := 1, pid := 1, vpn := 6, isOccupied := true, useBit := true },
      { pfn := 2, pid := 1, vpn := 7, isOccupied := true, useBit := true }]
    clockHand := 2
    policy := .clock
    tlb := newTLB 1 }

/-- The hand passes the last frame and takes the first. -/
theorem allocateFrame_threeFrames :
    ∃ d victim, SecondChance threeFrames d ∧
      (∀ rounds, (clockSweep 3 rounds 2 threeFrames.frames).isSome ↔ d + 1 ≤ rounds) ∧
      threeFrames.frames[handAfter threeFrames d]? = some victim ∧
      threeFrames.allocateFrame 1 8 =
        some (UInt64.ofNat (handAfter threeFrames d), victim.vpn, true,
          MemoryManager.loadFrame (handAfter threeFrames d) 1 8
            { afterSweep threeFrames d with
              pageEvictions := threeFrames.pageEvictions + 1
              swapWrites := threeFrames.swapWrites + victim.isDirty.toNat }) ∧
      (handAfter threeFrames d + 1) % 3 < 3 :=
  allocateFrame_clock threeFrames rfl (by decide) rfl (by decide) (by decide) 1 8

example : SecondChance threeFrames 1 ∧ handAfter threeFrames 1 = 0 := by
  refine ⟨⟨by decide, ?_, fun _ => by decide⟩, by decide⟩
  decide

end OsSimulator.Analysis
