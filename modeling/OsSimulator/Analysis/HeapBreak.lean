import Mathlib.Algebra.Group.Nat.Defs
import Mathlib.Algebra.Ring.Int.Defs
import Mathlib.Data.List.Induction
import OsSimulator.Model.AddressSpace

/-!
# The program break

`Sbrk` adds its increment to the break as a signed 64-bit word and compares the result, read
as an unsigned one, with the start of the heap and the stack pointer.  The break therefore
stays between the two whatever the increments (`sbrk_between`), and it moves by exactly the
increment as long as the sum as an unbounded number is a 64-bit word; a sum below zero or from
`2 ^ 64` on is taken for another one (`sbrk_exact_iff`).
-/

set_option autoImplicit false

namespace OsSimulator.Analysis

open Model

/-! ## The break as a part of the address space -/

/-- The address space with another break: the limit of the heap segment goes with it. -/
def setBreak (newBreak : UInt64) (as : AddressSpace) : AddressSpace :=
  { as with
    heapBreak := newBreak
    segments := Function.update as.segments .heap
      { as.segments .heap with limit := newBreak - as.heapStart } }

theorem setBreak_setBreak (x y : UInt64) (as : AddressSpace) :
    setBreak y (setBreak x as) = setBreak y as := by
  simp [setBreak]

theorem setBreak_self {as : AddressSpace}
    (hlimit : (as.segments .heap).limit = as.heapBreak - as.heapStart) :
    setBreak as.heapBreak as = as := by
  have hheap : { as.segments .heap with limit := as.heapBreak - as.heapStart } =
      as.segments .heap := by
    rw [← hlimit]
  unfold setBreak
  rw [hheap, Function.update_eq_self]

/-- The sum that `Sbrk` has in mind. -/
def wantedBreak (increment : Int64) (as : AddressSpace) : ℤ :=
  as.heapBreak.toNat + increment.toInt

/-- The sum that `Sbrk` computes. -/
def computedBreak (increment : Int64) (as : AddressSpace) : UInt64 :=
  (as.heapBreak.toInt64 + increment).toUInt64

theorem computedBreak_emod (increment : Int64) (as : AddressSpace) :
    ((computedBreak increment as).toNat : ℤ) = wantedBreak increment as % 2 ^ 64 := by
  have hsum : computedBreak increment as = as.heapBreak + increment.toUInt64 := by
    simp [computedBreak]
  have hinc : (increment.toUInt64.toNat : ℤ) = increment.toInt % 2 ^ 64 := by
    have hlt := increment.toUInt64.toNat_lt
    have hint : increment.toInt =
        if 2 * increment.toUInt64.toNat < 2 ^ 64 then (increment.toUInt64.toNat : ℤ)
        else increment.toUInt64.toNat - 2 ^ 64 := BitVec.toInt_eq_toNat_cond _
    rw [hint]
    split <;> omega
  rw [hsum, UInt64.toNat_add, wantedBreak]
  omega

/-! ## One call -/

/-- What a call can do. -/
inductive SbrkEffect (increment : Int64) (as : AddressSpace) :
    Except SbrkError UInt64 × AddressSpace → Prop where
  | contracted (h : computedBreak increment as < as.heapStart) :
      SbrkEffect increment as (.error (.belowHeapStart as.heapStart), as)
  | collided (hstart : as.heapStart ≤ computedBreak increment as)
      (hstack : as.stackPtr ≤ computedBreak increment as) :
      SbrkEffect increment as
        (.error (.stackOverflow (computedBreak increment as) as.stackPtr), as)
  | moved (hstart : as.heapStart ≤ computedBreak increment as)
      (hstack : computedBreak increment as < as.stackPtr) :
      SbrkEffect increment as (.ok as.heapBreak, setBreak (computedBreak increment as) as)

theorem sbrk_effect (increment : Int64) (as : AddressSpace) :
    SbrkEffect increment as (as.sbrk increment) := by
  unfold AddressSpace.sbrk
  dsimp only
  split
  · next h => exact .contracted h
  · next hstart =>
      split
      · next hstack => exact .collided (UInt64.not_lt.mp hstart) hstack
      · next hstack => exact .moved (UInt64.not_lt.mp hstart) (UInt64.not_le.mp hstack)

/-- The break lies between the start of the heap and the stack pointer, and the heap segment
ends with it. -/
structure BreakOk (as : AddressSpace) : Prop where
  start_le : as.heapStart ≤ as.heapBreak
  lt_stack : as.heapBreak < as.stackPtr
  limit : (as.segments .heap).limit = as.heapBreak - as.heapStart

theorem breakOk_new (pid : ℤ) (total base : UInt64) (htotal : 16 * 1024 ≤ total) :
    BreakOk (newAddressSpace pid total base) := by
  have hlarge : 16 * 1024 ≤ total.toNat := UInt64.le_iff_toNat_le.mp htotal
  have hne : total ≠ 0 := by
    rintro rfl
    exact absurd hlarge (by decide)
  have hstack : (newAddressSpace pid total base).stackPtr = total - 1 := by
    simp [newAddressSpace, hne]
  have hbelow : (1 : UInt64) ≤ total := UInt64.le_iff_toNat_le.mpr (by simp; omega)
  refine ⟨UInt64.le_refl _, ?_, by simp [newAddressSpace]⟩
  rw [hstack, UInt64.lt_iff_toNat_lt, UInt64.toNat_sub_of_le _ _ hbelow]
  change 12288 < total.toNat - 1
  omega

theorem breakOk_sbrk {as : AddressSpace} (h : BreakOk as) (increment : Int64) :
    BreakOk (as.sbrk increment).2 := by
  have heff := sbrk_effect increment as
  generalize as.sbrk increment = r at heff ⊢
  cases heff with
  | contracted => exact h
  | collided => exact h
  | moved hstart hstack => exact ⟨hstart, hstack, by simp [setBreak]⟩

theorem breakOk_runSbrk {as : AddressSpace} (h : BreakOk as) (increments : List Int64) :
    BreakOk (as.runSbrk increments) := by
  unfold AddressSpace.runSbrk
  induction increments using List.reverseRecOn with
  | nil => exact h
  | append_singleton increments increment ih =>
    rw [List.foldl_concat]
    exact breakOk_sbrk ih increment

/-! ## All increments -/

/-- The call is right about the wanted break: it moves the break there exactly when that lies
between the start of the heap and the stack pointer, and otherwise says on which side it lies
and changes nothing. -/
structure ExactSbrk (increment : Int64) (as : AddressSpace) : Prop where
  moved_iff :
    (∃ newBreak : UInt64, newBreak.toNat = wantedBreak increment as ∧
        (((setBreak newBreak as).segments .heap).limit.toNat : ℤ) =
          wantedBreak increment as - as.heapStart.toNat ∧
        as.sbrk increment = (.ok as.heapBreak, setBreak newBreak as)) ↔
      as.heapStart.toNat ≤ wantedBreak increment as ∧
        wantedBreak increment as < as.stackPtr.toNat
  contracted : wantedBreak increment as < as.heapStart.toNat →
    as.sbrk increment = (.error (.belowHeapStart as.heapStart), as)
  collided : as.stackPtr.toNat ≤ wantedBreak increment as →
    ∃ newBreak, as.sbrk increment = (.error (.stackOverflow newBreak as.stackPtr), as)

section Exactness

variable {as : AddressSpace} {increment : Int64}

/-- A sum that is a word is the computed one, and the comparisons are those of the sum. -/
theorem exactSbrk_of_word (h : BreakOk as) (hzero : 0 ≤ wantedBreak increment as)
    (hword : wantedBreak increment as < 2 ^ 64) : ExactSbrk increment as := by
  have hcomputed : ((computedBreak increment as).toNat : ℤ) = wantedBreak increment as := by
    rw [computedBreak_emod, Int.emod_eq_of_lt hzero hword]
  have hbetween := UInt64.lt_iff_toNat_lt.mp (UInt64.lt_of_le_of_lt h.start_le h.lt_stack)
  have heff := sbrk_effect increment as
  generalize hr : as.sbrk increment = r at heff
  cases heff with
  | contracted hlt =>
    rw [UInt64.lt_iff_toNat_lt] at hlt
    refine ⟨⟨?_, ?_⟩, fun _ => hr, fun _ => by omega⟩
    · rintro ⟨newBreak, -, -, hmoved⟩
      rw [hr] at hmoved
      cases congrArg Prod.fst hmoved
    · omega
  | collided hstart hstack =>
    rw [UInt64.le_iff_toNat_le] at hstart hstack
    refine ⟨⟨?_, ?_⟩, fun _ => by omega, fun _ => ⟨_, hr⟩⟩
    · rintro ⟨newBreak, -, -, hmoved⟩
      rw [hr] at hmoved
      cases congrArg Prod.fst hmoved
    · omega
  | moved hstart hstack =>
    have hlimit : ((setBreak (computedBreak increment as) as).segments .heap).limit.toNat =
        (computedBreak increment as).toNat - as.heapStart.toNat := by
      rw [← UInt64.toNat_sub_of_le _ _ hstart]
      simp [setBreak]
    rw [UInt64.le_iff_toNat_le] at hstart
    rw [UInt64.lt_iff_toNat_lt] at hstack
    refine ⟨⟨fun _ => by omega, fun _ => ?_⟩, fun _ => by omega, fun _ => by omega⟩
    exact ⟨_, hcomputed, by omega, hr⟩

/-- A sum below zero is computed as one from the start of the heap on. -/
theorem not_exactSbrk_of_neg (h : BreakOk as) (hneg : wantedBreak increment as < 0) :
    ¬ ExactSbrk increment as := by
  intro hexact
  have hstart := UInt64.le_iff_toNat_le.mp h.start_le
  have hinc := increment.le_toInt
  have hcomputed := computedBreak_emod increment as
  have hcontracted := hexact.contracted (by omega)
  have heff := sbrk_effect increment as
  rw [hcontracted] at heff
  cases heff with
  | contracted hlt =>
    rw [UInt64.lt_iff_toNat_lt] at hlt
    unfold wantedBreak at hneg hcomputed
    omega

/-- A sum from `2 ^ 64` on is computed as one below the old break. -/
theorem not_exactSbrk_of_overflow (h : BreakOk as) (hover : 2 ^ 64 ≤ wantedBreak increment as) :
    ¬ ExactSbrk increment as := by
  intro hexact
  have hstack := UInt64.lt_iff_toNat_lt.mp h.lt_stack
  have hinc := increment.toInt_lt
  have hcomputed := computedBreak_emod increment as
  have hword := as.stackPtr.toNat_lt
  obtain ⟨newBreak, hcollided⟩ := hexact.collided (by omega)
  have heff := sbrk_effect increment as
  rw [hcollided] at heff
  cases heff with
  | collided _ hle =>
    rw [UInt64.le_iff_toNat_le] at hle
    unfold wantedBreak at hover hcomputed
    omega

end Exactness

/-- **The break moves exactly as long as the sum is a word.**  Whatever calls have been made on
an address space of at least 16 KB, the break lies between the start of the heap and the stack
pointer.  The next call is right about the wanted break exactly when the break plus the
increment, as an unbounded number, is a 64-bit word: with a sum below zero it never gives the
contraction error, and with one from `2 ^ 64` on it never gives `ErrStackOverflow`. -/
theorem sbrk_exact_iff (pid : ℤ) (total base : UInt64) (htotal : 16 * 1024 ≤ total)
    (increments : List Int64) (increment : Int64) :
    let as := (newAddressSpace pid total base).runSbrk increments
    as.heapStart ≤ as.heapBreak ∧ as.heapBreak < as.stackPtr ∧
      (ExactSbrk increment as ↔
        0 ≤ wantedBreak increment as ∧ wantedBreak increment as < 2 ^ 64) := by
  intro as
  have h : BreakOk as := breakOk_runSbrk (breakOk_new pid total base htotal) increments
  refine ⟨h.start_le, h.lt_stack, ?_, fun hword => exactSbrk_of_word h hword.1 hword.2⟩
  intro hexact
  constructor
  · by_contra hneg
    exact not_exactSbrk_of_neg h (Int.not_le.mp hneg) hexact
  · by_contra hover
    exact not_exactSbrk_of_overflow h (Int.not_lt.mp hover) hexact

theorem sbrk_exact_iff_page :
    (16 * 1024 : UInt64) ≤ 64 * 1024 ∧
      ExactSbrk 4096 ((newAddressSpace 1 (64 * 1024) 0).runSbrk [4096]) :=
  ⟨by decide,
    (sbrk_exact_iff 1 (64 * 1024) 0 (by decide) [4096] 4096).2.2.mpr ⟨by decide, by decide⟩⟩

/-- In an address space of 64 KB, a contraction by 20000 bytes is below the start of the heap
and is reported as a stack overflow. -/
theorem sbrk_contraction_overflow :
    let as := newAddressSpace 1 (64 * 1024) 0
    wantedBreak (-20000) as < as.heapStart.toNat ∧
      as.sbrk (-20000) =
        (.error (.stackOverflow (computedBreak (-20000) as) as.stackPtr), as) := by
  refine ⟨by decide, ?_⟩
  rfl

end OsSimulator.Analysis
