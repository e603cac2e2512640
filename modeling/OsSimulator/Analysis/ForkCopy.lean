import OsSimulator.Analysis.HeapBreak
import OsSimulator.Analysis.ProcessLifecycle

/-!
# What `Fork` copies

`Fork` gives the child a new address space of the parent's size, a page table with copies of
the parent's valid entries, and the parent's registers.  The layout of an address space is
determined by its size and by the break, which `Sbrk` moves (`LaidOut`).  A new address space
has its break at the start of the heap, so the child has the layout of its parent exactly when
the parent's break is there too (`fork_copies_layout_iff`).
-/

set_option autoImplicit false

namespace OsSimulator.Analysis

open Model Interface

/-! ## The layout of an address space -/

/-- An address space of 64 KB whose break has been moved. -/
structure LaidOut (pid : ℤ) (as : AddressSpace) : Prop where
  between : BreakOk as
  layout : as = setBreak as.heapBreak (newAddressSpace pid (64 * 1024) as.physicalBase)

theorem laidOut_new (pid : ℤ) (base : UInt64) :
    LaidOut pid (newAddressSpace pid (64 * 1024) base) where
  between := breakOk_new pid _ base (by decide)
  layout := (setBreak_self (breakOk_new pid _ base (by decide)).limit).symm

variable {pm : ProcessManager} {as : AddressSpace}

theorem LaidOut.totalSize {pid : ℤ} (h : LaidOut pid as) : as.totalSize = 64 * 1024 := by
  rw [h.layout]
  rfl

theorem LaidOut.sbrk {pid : ℤ} (h : LaidOut pid as) (increment : Int64) :
    LaidOut pid (as.sbrk increment).2 := by
  refine ⟨breakOk_sbrk h.between increment, ?_⟩
  have heff := sbrk_effect increment as
  generalize as.sbrk increment = r at heff ⊢
  cases heff with
  | contracted => exact h.layout
  | collided => exact h.layout
  | moved hstart hstack =>
    change setBreak _ as = setBreak _ (newAddressSpace pid (64 * 1024) as.physicalBase)
    conv_lhs => rw [h.layout]
    rw [setBreak_setBreak]
    rfl

/-- The two address spaces have the same boundaries, break, stack pointer and segment
limits. -/
structure CopiedLayout (as as' : AddressSpace) : Prop where
  codeStart : as'.codeStart = as.codeStart
  codeEnd : as'.codeEnd = as.codeEnd
  dataStart : as'.dataStart = as.dataStart
  dataEnd : as'.dataEnd = as.dataEnd
  heapStart : as'.heapStart = as.heapStart
  heapBreak : as'.heapBreak = as.heapBreak
  stackTop : as'.stackTop = as.stackTop
  stackPtr : as'.stackPtr = as.stackPtr
  guardPage : as'.guardPage = as.guardPage
  limits : ∀ t, (as'.segments t).limit = (as.segments t).limit

theorem copiedLayout_new_iff {pid : ℤ} (h : LaidOut pid as) (childPID : ℤ) (base : UInt64) :
    CopiedLayout as (newAddressSpace childPID as.totalSize base) ↔ as.heapBreak = as.heapStart := by
  rw [h.totalSize]
  constructor
  · intro hsame
    exact hsame.heapBreak.symm.trans hsame.heapStart
  · intro hbreak
    have hstart : as.heapStart = (newAddressSpace pid (64 * 1024) as.physicalBase).heapStart := by
      rw [h.layout]
      rfl
    have hlimit : (as.segments .heap).limit = 0 := by
      rw [h.between.limit, hbreak, UInt64.sub_self]
    -- the other fields have not changed since the address space was made
    rw [h.layout] at hlimit ⊢
    refine ⟨rfl, rfl, rfl, rfl, rfl, (hbreak.trans hstart).symm, rfl, rfl, rfl, ?_⟩
    intro t
    cases t with
    | heap => exact hlimit.symm
    | code => rfl
    | data => rfl
    | stack => rfl

/-! ## All runs -/

/-- All address spaces are laid out. -/
def SpacesOk (pm : ProcessManager) : Prop :=
  ∀ pid p as, pm.processes pid = some p → p.addressSpace = some as → LaidOut pid as

theorem spacesOk_new : SpacesOk newProcessManager := by
  intro pid p as hp has
  rw [processes_new] at hp
  split at hp
  · next heq =>
      obtain rfl := Option.some.inj hp
      obtain rfl := Option.some.inj has
      rw [heq]
      exact laidOut_new 1 _
  · cases hp

theorem SpacesOk.call (hpm : TableOk pm) (h : SpacesOk pm) (c : ProcCall) :
    SpacesOk (pm.call c).2 := by
  intro x q as hq has
  have heffect := call_effect hpm c
  cases procChange_of_effect hpm heffect hq with
  | kept hp hbody _ => exact h x _ as hp (hbody.addressSpace ▸ has)
  | forked hc hx hp hparent hchild =>
    subst hchild
    obtain rfl := Option.some.inj has
    rw [(h _ _ _ hp hparent).totalSize]
    exact laidOut_new x _
  | execed hc hp hold hq =>
    subst hq
    obtain rfl := Option.some.inj has
    exact laidOut_new x _
  | dead hz =>
    have hnone := ((hpm.effect heffect).procs x q hq).space.mpr hz
    rw [hnone] at has
    cases has

theorem tableOk_sbrk (hpm : TableOk pm) (pid : ℤ) (increment : Int64) :
    TableOk (pm.sbrk pid increment) := by
  unfold ProcessManager.sbrk ProcessManager.modifyProcess
  cases hp : pm.processes pid with
  | none =>
    rw [Option.map_none, ← hp, Function.update_eq_self]
    exact hpm
  | some proc =>
    have hproc := hpm.procs pid proc hp
    exact hpm.replace pm.lifecycleLog hp { hproc with space := by simpa using hproc.space } rfl rfl

theorem SpacesOk.sbrk (h : SpacesOk pm) (pid : ℤ) (increment : Int64) :
    SpacesOk (pm.sbrk pid increment) := by
  intro x q as hq has
  rcases eq_some_of_update hq with ⟨rfl, hq⟩ | ⟨-, hq⟩
  · obtain ⟨p, hp, rfl⟩ := Option.map_eq_some_iff.mp hq
    obtain ⟨as₀, has₀, rfl⟩ := Option.map_eq_some_iff.mp has
    exact (h x p as₀ hp has₀).sbrk increment
  · exact h x q as hq has

theorem spaces_run (calls : List SpaceCall) :
    TableOk (newProcessManager.runSpaceCalls calls) ∧
      SpacesOk (newProcessManager.runSpaceCalls calls) := by
  unfold ProcessManager.runSpaceCalls
  induction calls using List.reverseRecOn with
  | nil => exact ⟨tableOk_new, spacesOk_new⟩
  | append_singleton calls c ih =>
    obtain ⟨hpm, hspaces⟩ := ih
    rw [List.foldl_concat]
    cases c with
    | proc c => exact ⟨hpm.effect (call_effect hpm c), hspaces.call hpm c⟩
    | sbrk pid increment => exact ⟨tableOk_sbrk hpm pid increment, hspaces.sbrk pid increment⟩

/-! ## Fork -/

/-- The valid pages of a page table, with their permission to write. -/
def pagePermissions (pt : PageTable) : List (Option Bool) :=
  pt.entries.map fun e => if e.valid then some e.readWrite else none

theorem pagePermissions_clone (childPID : ℤ) (pt : PageTable) :
    pagePermissions ⟨childPID, 4096, pt.entries.map (cloneEntry childPID)⟩ =
      pagePermissions pt := by
  unfold pagePermissions
  rw [List.map_map]
  refine List.map_congr_left fun e _ => ?_
  by_cases hv : e.valid = true <;> simp [cloneEntry, hv]

/-- A successful `Fork` is that of a live process, which has an address space. -/
theorem fork_ok_cases {pm pm' : ProcessManager} (hpm : TableOk pm) {parentPID childPID : ℤ}
    (hfork : pm.fork parentPID = (.ok childPID, pm')) :
    ∃ parent as, pm.processes parentPID = some parent ∧ parent.addressSpace = some as ∧
      childPID = pm.nextPID ∧
      pm'.processes = forkTable pm.processes childPID parentPID parent
        (childOf childPID parentPID parent as) := by
  cases hp : pm.processes parentPID with
  | none =>
    rw [fork_absent hp] at hfork
    cases congrArg Prod.fst hfork
  | some parent =>
    cases has : parent.addressSpace with
    | none =>
      rw [fork_zombie hp has] at hfork
      cases congrArg Prod.fst hfork
    | some as =>
      obtain ⟨log, hlive⟩ := fork_live hp has (hpm.procs _ _ hp).pages
      rw [hlive] at hfork
      cases hfork
      exact ⟨parent, as, rfl, has, rfl, rfl⟩

/-- **What `Fork` copies.**  In every state that calls on the process manager and `Sbrk` on
the address spaces can reach, a successful `Fork` gives the child the valid pages of its
parent with their permissions, and its registers with `RAX = 0`; the parent gets the PID of
the child in `RAX` and the child in its list, and no other process changes.  The layout of the
address space is copied exactly when the break of the parent is at the start of its heap. -/
theorem fork_copies_layout_iff (calls : List SpaceCall) (parentPID childPID : ℤ)
    (pm pm' : ProcessManager) (hpm : pm = newProcessManager.runSpaceCalls calls)
    (hfork : pm.fork parentPID = (.ok childPID, pm')) :
    ∃ parent as child as', pm.processes parentPID = some parent ∧
      parent.addressSpace = some as ∧ pm'.processes childPID = some child ∧
      child.addressSpace = some as' ∧
      pagePermissions child.pageTable = pagePermissions parent.pageTable ∧
      child.registers = { parent.registers with rax := 0 } ∧
      pm'.processes parentPID = some { parent with
        registers := { parent.registers with rax := UInt64.ofInt childPID }
        children := parent.children ++ [childPID] } ∧
      (∀ x, x ≠ parentPID → x ≠ childPID → pm'.processes x = pm.processes x) ∧
      (CopiedLayout as as' ↔ as.heapBreak = as.heapStart) := by
  obtain ⟨htable, hspaces⟩ := spaces_run calls
  rw [← hpm] at htable hspaces
  obtain ⟨parent, as, hp, has, hchild, hprocs⟩ := fork_ok_cases htable hfork
  have hne : parentPID ≠ childPID := by
    rw [hchild]
    exact (htable.procs _ _ hp).lt_next.ne
  refine ⟨parent, as, childOf childPID parentPID parent as, _, hp, has, ?_, rfl,
    pagePermissions_clone childPID parent.pageTable, rfl, ?_, ?_,
    copiedLayout_new_iff (hspaces _ _ _ hp has) childPID _⟩
  · rw [hprocs]
    exact Function.update_self ..
  · rw [hprocs]
    exact (Function.update_of_ne hne ..).trans (Function.update_self ..)
  · intro x hparent hx
    rw [hprocs]
    exact (Function.update_of_ne hx ..).trans (Function.update_of_ne hparent ..)

theorem fork_copies_layout_iff_init :
    let pm := newProcessManager.runSpaceCalls [.sbrk 1 4096, .sbrk 1 (-4096)]
    (pm.fork 1).1 = .ok 2 ∧
      ∃ parent as child as', pm.processes 1 = some parent ∧ parent.addressSpace = some as ∧
        (pm.fork 1).2.processes 2 = some child ∧ child.addressSpace = some as' ∧
        (CopiedLayout as as' ↔ as.heapBreak = as.heapStart) := by
  refine ⟨rfl, ?_⟩
  obtain ⟨parent, as, child, as', hp, has, hchild, has', -, -, -, -, hlayout⟩ :=
    fork_copies_layout_iff [.sbrk 1 4096, .sbrk 1 (-4096)] 1 2 _ _ rfl rfl
  exact ⟨parent, as, child, as', hp, has, hchild, has', hlayout⟩

/-- Init moves its break by a page and forks: the child has its break at the start of the
heap. -/
theorem fork_forgets_break :
    let pm := newProcessManager.runSpaceCalls [.sbrk 1 4096]
    let breakOf (p : UnixProcess) := p.addressSpace.map AddressSpace.heapBreak
    (pm.fork 1).1 = .ok 2 ∧ (pm.processes 1).bind breakOf = some 16384 ∧
      ((pm.fork 1).2.processes 2).bind breakOf = some 12288 := by
  exact ⟨rfl, rfl, rfl⟩

end OsSimulator.Analysis
