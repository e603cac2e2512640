import OsSimulator.Library.RootedTree
import OsSimulator.Interface.PageTableView
import OsSimulator.Model.ProcessLifecycle
import Mathlib.Data.Int.Order.Basic

/-!
# What the process calls do to the table

The process table read as a tree (`familyOf`), and each of the four calls as an update of
the table (`CallEffect`): which PCB is added, changed or removed, and with what outcome.
`call_effect` derives this from the code once; the analyses argue about effects only and
never unfold a call again.

* the page copy of `Fork` maps every entry (`clonePages_eq`)
* the loop of `Exit` as one update of the whole table (`foldl_reparent`)
* the loop of `Wait` splits the child list at the first zombie (`wait_eq`)
-/

set_option autoImplicit false

namespace OsSimulator.Interface

open Model Library

/-! ## The page copy of `Fork` -/

/-- The copy of an entry in the page table of a child. -/
def cloneEntry (childPID : ℤ) (e : PageTableEntry) : PageTableEntry :=
  if e.valid then
    { valid := true, present := true, readWrite := e.readWrite
      pfn := e.pfn + UInt64.ofInt (childPID * 10) }
  else {}

theorem mapPage_ofNat (pt : PageTable) {i : ℕ} (hi : i < pt.entries.length)
    (hlen : pt.entries.length < 2 ^ 63) (pfn : UInt64) (w : Bool) :
    pt.mapPage (UInt64.ofNat i) pfn w = some { pt with
      entries := pt.entries.set i { valid := true, present := true, readWrite := w, pfn } } := by
  have hnat : (UInt64.ofNat i).toNat = i := UInt64.toNat_ofNat_of_lt' (by simp [UInt64.size]; omega)
  rw [mapPage_of_lt (by rw [hnat]; exact hi), hnat]
  rfl

/-- A page table in which the pages `done` are copied and `left` pages are still blank. -/
def partialCopy (childPID : ℤ) (done : List PageTableEntry) (left : ℕ) : PageTable where
  pid := childPID
  pageSize := 4096
  entries := done.map (cloneEntry childPID) ++ List.replicate left {}

theorem clonePage_partialCopy (childPID : ℤ) (done : List PageTableEntry) (e : PageTableEntry)
    (left : ℕ) (hlen : done.length + (left + 1) < 2 ^ 63) :
    clonePage childPID (partialCopy childPID done (left + 1)) (e, done.length) =
      some (partialCopy childPID (done ++ [e]) left) := by
  unfold clonePage
  by_cases hv : e.valid = true
  · simp only [if_pos hv]
    rw [mapPage_ofNat _ (by simp [partialCopy]) (by simpa [partialCopy] using hlen)]
    simp [partialCopy, cloneEntry, hv, List.replicate_succ]
  · simp only [if_neg hv]
    simp [partialCopy, cloneEntry, hv, List.replicate_succ]

theorem foldlM_clonePage (childPID : ℤ) (done todo : List PageTableEntry)
    (hlen : done.length + todo.length < 2 ^ 63) :
    (todo.zipIdx done.length).foldlM (clonePage childPID)
        (partialCopy childPID done todo.length) =
      some (partialCopy childPID (done ++ todo) 0) := by
  induction todo generalizing done with
  | nil => simp
  | cons e todo ih =>
    have hlen' : (done ++ [e]).length + todo.length < 2 ^ 63 := by
      simp only [List.length_append, List.length_cons, List.length_nil] at hlen ⊢
      omega
    have hnext := ih (done ++ [e]) hlen'
    rw [List.zipIdx_cons, List.foldlM_cons, List.length_cons,
      clonePage_partialCopy childPID done e todo.length hlen, Option.bind_eq_bind,
      Option.bind_some]
    simpa using hnext

/-- The page table of the child, for a parent with as many entries. -/
theorem clonePages_eq (childPID : ℤ) (entries : List PageTableEntry) (hlen : entries.length = 16) :
    clonePages childPID entries (newPageTable childPID 16 4096) =
      some ⟨childPID, 4096, entries.map (cloneEntry childPID)⟩ := by
  have h := foldlM_clonePage childPID [] entries (by simp [hlen])
  simpa [hlen, newPageTable, clonePages, partialCopy] using h

/-! ## The table as a tree -/

/-- The parent pointers and child lists of a process table. -/
def familyOf (procs : ℤ → Option UnixProcess) : Family ℤ where
  parent := fun pid => (procs pid).map UnixProcess.ppid
  children := fun pid => (procs pid).elim [] UnixProcess.children

variable {procs : ℤ → Option UnixProcess}

theorem familyOf_parent {pid : ℤ} {p : UnixProcess} (h : procs pid = some p) :
    (familyOf procs).parent pid = some p.ppid := by
  simp [familyOf, h]

theorem familyOf_children {pid : ℤ} {p : UnixProcess} (h : procs pid = some p) :
    (familyOf procs).children pid = p.children := by
  simp [familyOf, h]

theorem familyOf_parent_eq_none {pid : ℤ} :
    (familyOf procs).parent pid = none ↔ procs pid = none := by
  simp [familyOf]

/-- What holds of the PCB of every process. -/
structure ProcOk (nextPID pid : ℤ) (p : UnixProcess) : Prop where
  pid_eq : p.pid = pid
  lt_next : pid < nextPID
  init_live : pid = 1 → p.state ≠ .zombie
  childless : p.state = .zombie → p.children = []
  space : p.addressSpace = none ↔ p.state = .zombie
  pages : p.pageTable.entries.length = 16

/-- What holds of the process table between two calls. -/
structure TableOk (pm : ProcessManager) : Prop where
  initPID : pm.initPID = 1
  tree : (familyOf pm.processes).IsTree 1
  procs : ∀ pid p, pm.processes pid = some p → ProcOk pm.nextPID pid p
  reaped_gone : ∀ pid, pm.reaped pid ≠ none → pm.processes pid = none ∧ pid < pm.nextPID

section Children

variable {pm : ProcessManager} {pid childPID : ℤ} {p : UnixProcess}

theorem TableOk.init_present (hpm : TableOk pm) : ∃ p, pm.processes 1 = some p := by
  have h := hpm.tree.root_mem
  rwa [Ne, familyOf_parent_eq_none, ← Ne, Option.ne_none_iff_exists'] at h

/-- A child is in the table, with its parent's PID, and is not init. -/
theorem TableOk.child_present (hpm : TableOk pm) (hp : pm.processes pid = some p)
    (hc : childPID ∈ p.children) :
    ∃ child, pm.processes childPID = some child ∧ child.ppid = pid ∧ childPID ≠ 1 := by
  rw [← familyOf_children hp, hpm.tree.mem_children] at hc
  obtain ⟨hne, hparent⟩ := hc
  obtain ⟨child, hchild, hppid⟩ := Option.map_eq_some_iff.mp hparent
  exact ⟨child, hchild, hppid, hne⟩

theorem TableOk.lt_child (hpm : TableOk pm) (hp : pm.processes pid = some p)
    (hc : childPID ∈ p.children) : pid < childPID := by
  obtain ⟨child, hchild, hppid, hne⟩ := hpm.child_present hp hc
  rw [← hppid]
  exact (hpm.tree.parent_lt childPID child.ppid (familyOf_parent hchild) hne).2

theorem TableOk.children_nodup (hpm : TableOk pm) (hp : pm.processes pid = some p) :
    p.children.Nodup := by
  rw [← familyOf_children hp]
  exact hpm.tree.nodup pid

end Children

/-! ## The tables that the calls leave behind -/

/-- `Fork`: the new child, and the parent that has it. -/
def forkTable (procs : ℤ → Option UnixProcess) (childPID parentPID : ℤ)
    (parent child : UnixProcess) : ℤ → Option UnixProcess :=
  Function.update
    (Function.update procs parentPID (some { parent with
      registers := { parent.registers with rax := UInt64.ofInt childPID }
      children := parent.children ++ [childPID] }))
    childPID (some child)

/-- The child of `Fork`, with all pages of the parent. -/
def childOf (childPID parentPID : ℤ) (parent : UnixProcess) (parentAS : AddressSpace) :
    UnixProcess :=
  ProcessManager.forkedChild childPID parentPID parent parentAS
    ⟨childPID, 4096, parent.pageTable.entries.map (cloneEntry childPID)⟩

/-- The process after `Exec`. -/
def execedProc (pid : ℤ) (binaryName : String) (args : List String) (proc : UnixProcess)
    (oldAS : AddressSpace) : UnixProcess :=
  { proc with
    name := binaryName
    addressSpace := some (newAddressSpace pid (64 * 1024) oldAS.physicalBase)
    pageTable := ⟨pid, 4096,
      { valid := true, present := true, readWrite := true, pfn := UInt64.ofInt (pid * 20) } ::
        List.replicate 15 {}⟩
    registers := { proc.registers with
      rax := 0
      rdi := UInt64.ofNat args.length
      rsi := 0x00408000 } }

/-- The processes `orphans` become children of `init`. -/
def adoptTable (procs : ℤ → Option UnixProcess) (init : ℤ) (orphans : List ℤ) :
    ℤ → Option UnixProcess := fun x =>
  if x = init then (procs x).map fun p => { p with children := p.children ++ orphans }
  else if x ∈ orphans then (procs x).map fun p => { p with ppid := init }
  else procs x

/-- `Exit`: the zombie, and its children with init. -/
def exitTable (procs : ℤ → Option UnixProcess) (pid exitCode : ℤ) (proc : UnixProcess) :
    ℤ → Option UnixProcess :=
  Function.update (adoptTable procs 1 proc.children) pid
    (some { proc with state := .zombie, exitCode, addressSpace := none, children := [] })

/-- `Wait`: without the child, which its parent has forgotten. -/
def reapTable (procs : ℤ → Option UnixProcess) (parentPID childPID : ℤ) (parent : UnixProcess) :
    ℤ → Option UnixProcess :=
  Function.update (Function.update procs childPID none) parentPID
    (some { parent with children := parent.children.erase childPID })

/-- A call with no process to serve: `Fork` or `Exec` of a PID that is not in the table. -/
def unserved (pm : ProcessManager) : ProcCall → Prop
  | .fork parentPID => pm.processes parentPID = none
  | .exec pid _ _ => pm.processes pid = none
  | .exit _ _ => True
  | .wait _ => True

/-- **What a call can do**: the outcome and the state it leaves behind, up to the log. -/
inductive CallEffect (pm : ProcessManager) :
    ProcCall → Outcome ProcReply → ProcessManager → Prop
  | error {c : ProcCall} (e : ProcError) (hc : unserved pm c) :
      CallEffect pm c (.error e) pm
  | forked {parentPID : ℤ} {parent : UnixProcess} {parentAS : AddressSpace} (log : List String)
      (hp : pm.processes parentPID = some parent) (has : parent.addressSpace = some parentAS) :
      CallEffect pm (.fork parentPID) (.ok (.forked pm.nextPID)) { pm with
        processes := forkTable pm.processes pm.nextPID parentPID parent
          (childOf pm.nextPID parentPID parent parentAS)
        nextPID := pm.nextPID + 1
        lifecycleLog := log }
  | forkPanic {parentPID : ℤ} {parent : UnixProcess}
      (hp : pm.processes parentPID = some parent) (has : parent.addressSpace = none) :
      CallEffect pm (.fork parentPID) .panic { pm with nextPID := pm.nextPID + 1 }
  | execed {pid : ℤ} {binaryName : String} {args : List String} {proc : UnixProcess}
      {oldAS : AddressSpace} (log : List String) (hp : pm.processes pid = some proc)
      (has : proc.addressSpace = some oldAS) :
      CallEffect pm (.exec pid binaryName args) (.ok .done) { pm with
        processes := Function.update pm.processes pid
          (some (execedProc pid binaryName args proc oldAS))
        lifecycleLog := log }
  | execPanic {pid : ℤ} {binaryName : String} {args : List String} {proc : UnixProcess}
      (hp : pm.processes pid = some proc) (has : proc.addressSpace = none) :
      CallEffect pm (.exec pid binaryName args) .panic { pm with
        processes := Function.update pm.processes pid (some { proc with name := binaryName }) }
  | exited {pid exitCode : ℤ} {proc : UnixProcess} (log : List String)
      (hp : pm.processes pid = some proc) (hne : pid ≠ 1) :
      CallEffect pm (.exit pid exitCode) (.ok .done) { pm with
        processes := exitTable pm.processes pid exitCode proc
        lifecycleLog := log }
  | reaped {parentPID childPID : ℤ} {parent child : UnixProcess} (log : List String)
      (hp : pm.processes parentPID = some parent) (hc : childPID ∈ parent.children)
      (hchild : pm.processes childPID = some child) (hz : child.state = .zombie) :
      CallEffect pm (.wait parentPID) (.ok (.reaped childPID child.exitCode)) { pm with
        processes := reapTable pm.processes parentPID childPID parent
        reaped := Function.update pm.reaped childPID (some { child with state := .reaped })
        lifecycleLog := log }

/-! ## The calls have these effects -/

section Effects

variable {pm : ProcessManager} {pid parentPID childPID exitCode : ℤ} {proc parent : UnixProcess}

theorem fork_absent (h : pm.processes parentPID = none) :
    pm.fork parentPID = (.error (.noSuchProcess parentPID), pm) := by
  simp only [ProcessManager.fork, h]

theorem fork_zombie (hp : pm.processes parentPID = some parent)
    (has : parent.addressSpace = none) :
    pm.fork parentPID = (.panic, { pm with nextPID := pm.nextPID + 1 }) := by
  simp only [ProcessManager.fork, hp, has]

theorem fork_live {parentAS : AddressSpace} (hp : pm.processes parentPID = some parent)
    (has : parent.addressSpace = some parentAS) (hlen : parent.pageTable.entries.length = 16) :
    ∃ log, pm.fork parentPID = (.ok pm.nextPID, { pm with
      processes := forkTable pm.processes pm.nextPID parentPID parent
        (childOf pm.nextPID parentPID parent parentAS)
      nextPID := pm.nextPID + 1
      lifecycleLog := log }) := by
  have hclone := clonePages_eq pm.nextPID parent.pageTable.entries hlen
  refine ⟨(pm.fork parentPID).2.lifecycleLog, ?_⟩
  simp only [ProcessManager.fork, hp, has, hclone, ProcessManager.modifyProcess, Option.map_some,
    ProcessManager.log, forkTable, childOf]

theorem exec_absent (binaryName : String) (args : List String) (h : pm.processes pid = none) :
    pm.exec pid binaryName args = (.error (.noSuchProcess pid), pm) := by
  simp only [ProcessManager.exec, h]

theorem exec_zombie (binaryName : String) (args : List String) (hp : pm.processes pid = some proc)
    (has : proc.addressSpace = none) :
    pm.exec pid binaryName args = (.panic, { pm with
      processes := Function.update pm.processes pid (some { proc with name := binaryName }) }) := by
  simp only [ProcessManager.exec, hp, has, ProcessManager.modifyProcess, Option.map_some]

/-- Mapping page 0 of a new page table. -/
theorem mapPage_newPageTable (pid : ℤ) (pfn : UInt64) :
    (newPageTable pid 16 4096).mapPage 0 pfn true = some ⟨pid, 4096,
      { valid := true, present := true, readWrite := true, pfn } :: List.replicate 15 {}⟩ :=
  mapPage_ofNat (newPageTable pid 16 4096) (i := 0) (by simp [newPageTable])
    (by simp [newPageTable]) pfn true

theorem exec_live (binaryName : String) (args : List String) {oldAS : AddressSpace}
    (hp : pm.processes pid = some proc) (has : proc.addressSpace = some oldAS) :
    ∃ log, pm.exec pid binaryName args = (.ok (), { pm with
      processes := Function.update pm.processes pid
        (some (execedProc pid binaryName args proc oldAS))
      lifecycleLog := log }) := by
  refine ⟨(pm.exec pid binaryName args).2.lifecycleLog, ?_⟩
  simp only [ProcessManager.exec, hp, has, mapPage_newPageTable, ProcessManager.modifyProcess,
    Option.map_some, Function.update_self, Function.update_idem, ProcessManager.log, execedProc]

theorem adoptTable_nil (procs : ℤ → Option UnixProcess) (init : ℤ) :
    adoptTable procs init [] = procs := by
  funext x
  simp [adoptTable]

theorem adoptTable_cons (procs : ℤ → Option UnixProcess) {init c : ℤ} (hc : c ≠ init)
    (orphans : List ℤ) :
    adoptTable (adoptTable procs init [c]) init orphans = adoptTable procs init (c :: orphans) := by
  funext x
  by_cases hx : x = init
  · simp [adoptTable, hx, Function.comp_def]
  · by_cases hxc : x = c
    · subst hxc
      by_cases hxo : x ∈ orphans <;> simp [adoptTable, hc, hxo, Function.comp_def]
    · by_cases hxo : x ∈ orphans <;> simp [adoptTable, hx, hxc, hxo]

/-- A process that neither adopts nor is adopted can be changed before or after. -/
theorem adoptTable_update (procs : ℤ → Option UnixProcess) {init pid : ℤ} {orphans : List ℤ}
    (hinit : pid ≠ init) (horphan : pid ∉ orphans) (p : Option UnixProcess) :
    adoptTable (Function.update procs pid p) init orphans =
      Function.update (adoptTable procs init orphans) pid p := by
  funext x
  by_cases hx : x = pid
  · subst hx
    simp [adoptTable, hinit, horphan]
  · simp [adoptTable, Function.update_of_ne hx]

/-- Adoption changes at most the parent and the children of a process. -/
theorem eq_some_of_adoptTable {init x : ℤ} {orphans : List ℤ} {q : UnixProcess}
    (hx : adoptTable procs init orphans x = some q) :
    ∃ p ppid children, procs x = some p ∧ q = { p with ppid, children } := by
  unfold adoptTable at hx
  split at hx
  · obtain ⟨p, hp, rfl⟩ := Option.map_eq_some_iff.mp hx
    exact ⟨p, _, _, hp, rfl⟩
  · split at hx
    · obtain ⟨p, hp, rfl⟩ := Option.map_eq_some_iff.mp hx
      exact ⟨p, _, _, hp, rfl⟩
    · exact ⟨q, _, _, hx, rfl⟩

theorem adoptTable_eq_none {init x : ℤ} {orphans : List ℤ} :
    adoptTable procs init orphans x = none ↔ procs x = none := by
  unfold adoptTable
  split
  · simp
  · split <;> simp

theorem reparent_eq (pid : ℤ) {c : ℤ} (hpresent : pm.processes c ≠ none) (hc : c ≠ pm.initPID) :
    ∃ log, ProcessManager.reparent pid pm c = { pm with
      processes := adoptTable pm.processes pm.initPID [c]
      lifecycleLog := log } := by
  obtain ⟨child, hchild⟩ := Option.ne_none_iff_exists'.mp hpresent
  refine ⟨(ProcessManager.reparent pid pm c).lifecycleLog, ?_⟩
  simp only [ProcessManager.reparent, hchild, ProcessManager.log, ProcessManager.modifyProcess,
    Function.update_of_ne hc.symm]
  congr 1
  funext x
  by_cases hx : x = pm.initPID
  · simp [adoptTable, hx]
  · by_cases hxc : x = c <;> simp [adoptTable, hx, hxc, hc, hchild]

/-- **The loop of `Exit`** as one update of the table. -/
theorem foldl_reparent (pid : ℤ) (children : List ℤ) (pm : ProcessManager)
    (hpresent : ∀ c ∈ children, pm.processes c ≠ none) (hinit : ∀ c ∈ children, c ≠ pm.initPID) :
    ∃ log, children.foldl (ProcessManager.reparent pid) pm = { pm with
      processes := adoptTable pm.processes pm.initPID children
      lifecycleLog := log } := by
  induction children generalizing pm with
  | nil => exact ⟨pm.lifecycleLog, by rw [adoptTable_nil]; rfl⟩
  | cons c children ih =>
    have hc : c ≠ pm.initPID := hinit c List.mem_cons_self
    obtain ⟨log, hstep⟩ := reparent_eq pid (hpresent c List.mem_cons_self) hc
    rw [List.foldl_cons, hstep]
    obtain ⟨log', hrest⟩ := ih { pm with
        processes := adoptTable pm.processes pm.initPID [c]
        lifecycleLog := log }
      (fun d hd h => hpresent d (List.mem_cons_of_mem c hd) (adoptTable_eq_none.mp h))
      (fun d hd => hinit d (List.mem_cons_of_mem c hd))
    rw [hrest]
    exact ⟨log', by simp only [adoptTable_cons pm.processes hc]⟩

theorem exit_absent (exitCode : ℤ) (h : pm.processes pid = none) :
    pm.exit pid exitCode = (.error (.noSuchProcess pid), pm) := by
  simp only [ProcessManager.exit, h]

theorem exit_init (exitCode : ℤ) (hp : pm.processes pm.initPID = some proc) :
    pm.exit pm.initPID exitCode = (.error .terminateInit, pm) := by
  simp only [ProcessManager.exit, hp, if_true]

theorem exit_live (hpm : TableOk pm) (exitCode : ℤ) (hp : pm.processes pid = some proc)
    (hne : pid ≠ 1) :
    ∃ log, pm.exit pid exitCode = (.ok (), { pm with
      processes := exitTable pm.processes pid exitCode proc
      lifecycleLog := log }) := by
  have hself : pid ∉ proc.children := fun h => lt_irrefl pid (hpm.lt_child hp h)
  -- the loop runs on the table in which `pid` is a zombie already
  let zombie : UnixProcess := { proc with state := .zombie, exitCode, addressSpace := none }
  let pm₀ : ProcessManager := { pm with processes := Function.update pm.processes pid (some zombie) }
  have hpresent : ∀ c ∈ proc.children, pm₀.processes c ≠ none := by
    intro c hc
    obtain ⟨child, hchild, -, -⟩ := hpm.child_present hp hc
    have hcp : c ≠ pid := fun heq => hself (heq ▸ hc)
    simp [pm₀, Function.update_of_ne hcp, hchild]
  have hinit : ∀ c ∈ proc.children, c ≠ pm₀.initPID := by
    intro c hc
    obtain ⟨child, -, -, hne⟩ := hpm.child_present hp hc
    simpa [pm₀, hpm.initPID] using hne
  obtain ⟨log, hloop⟩ := foldl_reparent pid proc.children pm₀ hpresent hinit
  refine ⟨(pm.exit pid exitCode).2.lifecycleLog, ?_⟩
  have hstart : pm.modifyProcess pid
      (fun proc => { proc with state := .zombie, exitCode, addressSpace := none }) = pm₀ := by
    simp only [ProcessManager.modifyProcess, hp, Option.map_some, pm₀, zombie]
  simp only [ProcessManager.exit, hp, hpm.initPID, if_neg hne, hstart, hloop, exitTable]
  by_cases hnil : proc.children = []
  · simp only [hnil, List.length_nil, gt_iff_lt, Nat.lt_irrefl, if_false, adoptTable_nil,
      ProcessManager.log, pm₀, zombie, hpm.initPID]
  · have hpos : proc.children.length > 0 := List.length_pos_iff.mpr hnil
    simp only [if_pos hpos, ProcessManager.modifyProcess, ProcessManager.log, pm₀, zombie,
      hpm.initPID, adoptTable_update pm.processes hne hself, Function.update_self,
      Function.update_idem, Option.map_some]

theorem zombieAt_eq_some {childPID : ℤ} {child : UnixProcess} :
    pm.zombieAt childPID = some child ↔
      pm.processes childPID = some child ∧ child.state = .zombie := by
  simp [ProcessManager.zombieAt, Option.filter_eq_some_iff]

theorem wait_absent (h : pm.processes parentPID = none) :
    pm.wait parentPID = (.error (.noSuchProcess parentPID), pm) := by
  simp only [ProcessManager.wait, h]

theorem wait_childless (hp : pm.processes parentPID = some parent) (hnil : parent.children = []) :
    pm.wait parentPID = (.error (.noChild parentPID), pm) := by
  simp only [ProcessManager.wait, hp, hnil, List.length_nil, if_true]

theorem wait_blocked (hp : pm.processes parentPID = some parent) (hnil : parent.children ≠ [])
    (hno : ∀ c ∈ parent.children, pm.zombieAt c = none) :
    pm.wait parentPID = (.error .wouldBlock, pm) := by
  have hfind : (parent.children.findSome? fun pid =>
      (pm.zombieAt pid).map fun child => (pid, child)) = none := by
    rw [List.findSome?_eq_none_iff]
    intro c hc
    rw [hno c hc, Option.map_none]
  have hlen : parent.children.length ≠ 0 := fun h => hnil (List.length_eq_zero_iff.mp h)
  simp only [ProcessManager.wait, hp, if_neg hlen, hfind]

/-- `Wait` reaps the first zombie of the child list. -/
theorem wait_zombie (hpm : TableOk pm) {child : UnixProcess} (before : List ℤ) {after : List ℤ}
    (hp : pm.processes parentPID = some parent)
    (hsplit : parent.children = before ++ childPID :: after)
    (hbefore : ∀ c ∈ before, pm.zombieAt c = none) (hchild : pm.processes childPID = some child)
    (hz : child.state = .zombie) :
    ∃ log, pm.wait parentPID = (.ok (childPID, child.exitCode), { pm with
      processes := reapTable pm.processes parentPID childPID parent
      reaped := Function.update pm.reaped childPID (some { child with state := .reaped })
      lifecycleLog := log }) := by
  have hzombie : pm.zombieAt childPID = some child := zombieAt_eq_some.mpr ⟨hchild, hz⟩
  have hfind : (parent.children.findSome? fun pid =>
      (pm.zombieAt pid).map fun child => (pid, child)) = some (childPID, child) := by
    rw [List.findSome?_eq_some_iff]
    refine ⟨before, childPID, after, hsplit, ?_, ?_⟩
    · rw [hzombie, Option.map_some]
    · intro c hc
      rw [hbefore c hc, Option.map_none]
  have hlen : parent.children.length ≠ 0 := by simp [hsplit]
  have hnodup := hpm.children_nodup hp
  have hmem : childPID ∈ parent.children := by simp [hsplit]
  have hne : parentPID ≠ childPID := (hpm.lt_child hp hmem).ne
  -- the list has no duplicates, so that the position found is that of the PID
  have herase : parent.children.eraseP (fun pid => (pm.zombieAt pid).isSome) =
      parent.children.erase childPID := by
    have hnot : childPID ∉ before := by
      rw [hsplit] at hnodup
      exact fun h => (List.nodup_append.mp hnodup).2.2 childPID h childPID List.mem_cons_self rfl
    rw [hsplit, List.eraseP_append_right, List.erase_append_right _ hnot]
    · simp [hzombie]
    · intro c hc
      simp [hbefore c hc]
  refine ⟨(pm.wait parentPID).2.lifecycleLog, ?_⟩
  simp only [ProcessManager.wait, hp, if_neg hlen, hfind, herase, ProcessManager.modifyProcess,
    Function.update_of_ne hne, Option.map_some, ProcessManager.log, reapTable]

/-- `Fork` has one of the effects listed. -/
theorem fork_effect (hpm : TableOk pm) (parentPID : ℤ) :
    CallEffect pm (.fork parentPID) ((pm.fork parentPID).1.map .forked) (pm.fork parentPID).2 := by
  cases hp : pm.processes parentPID with
  | none =>
    rw [fork_absent hp]
    exact .error _ hp
  | some parent =>
    cases has : parent.addressSpace with
    | none =>
      rw [fork_zombie hp has]
      exact .forkPanic hp has
    | some parentAS =>
      obtain ⟨log, h⟩ := fork_live hp has (hpm.procs _ _ hp).pages
      rw [h]
      exact .forked log hp has

/-- `Exec` has one of the effects listed. -/
theorem exec_effect (pid : ℤ) (binaryName : String) (args : List String) :
    CallEffect pm (.exec pid binaryName args) ((pm.exec pid binaryName args).1.map fun _ => .done)
      (pm.exec pid binaryName args).2 := by
  cases hp : pm.processes pid with
  | none =>
    rw [exec_absent binaryName args hp]
    exact .error _ hp
  | some proc =>
    cases has : proc.addressSpace with
    | none =>
      rw [exec_zombie binaryName args hp has]
      exact .execPanic hp has
    | some oldAS =>
      obtain ⟨log, h⟩ := exec_live binaryName args hp has
      rw [h]
      exact .execed log hp has

/-- `Exit` has one of the effects listed. -/
theorem exit_effect (hpm : TableOk pm) (pid exitCode : ℤ) :
    CallEffect pm (.exit pid exitCode) ((pm.exit pid exitCode).1.map fun _ => .done)
      (pm.exit pid exitCode).2 := by
  cases hp : pm.processes pid with
  | none =>
    rw [exit_absent exitCode hp]
    exact .error _ trivial
  | some proc =>
    by_cases hinit : pid = 1
    · have heq : pid = pm.initPID := hinit.trans hpm.initPID.symm
      subst heq
      rw [exit_init exitCode hp]
      exact .error _ trivial
    · obtain ⟨log, h⟩ := exit_live hpm exitCode hp hinit
      rw [h]
      exact .exited log hp hinit

/-- `Wait` has one of the effects listed. -/
theorem wait_effect (hpm : TableOk pm) (parentPID : ℤ) :
    CallEffect pm (.wait parentPID) ((pm.wait parentPID).1.map fun r => .reaped r.1 r.2)
      (pm.wait parentPID).2 := by
  cases hp : pm.processes parentPID with
  | none =>
    rw [wait_absent hp]
    exact .error _ trivial
  | some parent =>
    by_cases hnil : parent.children = []
    · rw [wait_childless hp hnil]
      exact .error _ trivial
    · cases hfind : parent.children.find? fun c => (pm.zombieAt c).isSome with
      | none =>
        have hno : ∀ c ∈ parent.children, pm.zombieAt c = none := by
          simpa using List.find?_eq_none.mp hfind
        rw [wait_blocked hp hnil hno]
        exact .error _ trivial
      | some childPID =>
        obtain ⟨hsome, before, after, hsplit, hbefore⟩ :=
          List.find?_eq_some_iff_append.mp hfind
        obtain ⟨child, hzombie⟩ := Option.isSome_iff_exists.mp hsome
        obtain ⟨hchild, hz⟩ := zombieAt_eq_some.mp hzombie
        obtain ⟨log, h⟩ := wait_zombie hpm before hp hsplit (by simpa using hbefore) hchild hz
        rw [h]
        exact .reaped log hp (by simp [hsplit]) hchild hz

/-- **Every call has one of the effects.** -/
theorem call_effect (hpm : TableOk pm) (c : ProcCall) :
    CallEffect pm c (pm.call c).1 (pm.call c).2 := by
  cases c with
  | fork parentPID => exact fork_effect hpm parentPID
  | exec pid binaryName args => exact exec_effect pid binaryName args
  | exit pid exitCode => exact exit_effect hpm pid exitCode
  | wait parentPID => exact wait_effect hpm parentPID

end Effects

end OsSimulator.Interface
