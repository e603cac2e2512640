import OsSimulator.Interface.ProcessTable

/-!
# The process table as a tree

Parenthood is stored twice in the table, as `PPID` and in the `Children` lists.  Each call is
an operation on rooted trees: `Fork` adds a leaf, `Exit` hands the children of a node to the
root, `Wait` removes a leaf, and `Exec` leaves the tree alone.  So every call keeps the table
in order (`TableOk.effect`), also a call that panics.
-/

set_option autoImplicit false

namespace OsSimulator.Interface

open Model Library

/-! ## The tables as trees -/

variable {procs : ℤ → Option UnixProcess} {p q : UnixProcess}

section Trees

variable {pm : ProcessManager} {pid parentPID childPID exitCode : ℤ} {proc parent : UnixProcess}

theorem ne_of_absent {pid x : ℤ} (hp : procs pid = some p) (hx : procs x = none) : x ≠ pid := by
  rintro rfl
  rw [hp] at hx
  cases hx

/-- `Fork` adds a leaf. -/
theorem familyOf_forkTable (hp : pm.processes parentPID = some parent)
    (hfresh : pm.processes childPID = none) (parentAS : AddressSpace) :
    familyOf (forkTable pm.processes childPID parentPID parent
      (childOf childPID parentPID parent parentAS)) =
        (familyOf pm.processes).addLeaf parentPID childPID := by
  have hne := (ne_of_absent hp hfresh).symm
  ext1 <;> funext x
  · by_cases hx : x = childPID
    · simp [familyOf, forkTable, Family.addLeaf, hx, childOf, ProcessManager.forkedChild]
    · by_cases hxp : x = parentPID <;>
        simp [familyOf, forkTable, Family.addLeaf, hx, hxp, hp, hne]
  · by_cases hx : x = childPID
    · simp [familyOf, forkTable, Family.addLeaf, hx, hne.symm, hfresh, childOf,
        ProcessManager.forkedChild]
    · by_cases hxp : x = parentPID <;>
        simp [familyOf, forkTable, Family.addLeaf, hx, hxp, hp, hne]

/-- A PCB with the same relatives leaves the tree alone. -/
theorem familyOf_update (hp : procs pid = some proc) (hppid : q.ppid = proc.ppid)
    (hchildren : q.children = proc.children) :
    familyOf (Function.update procs pid (some q)) = familyOf procs := by
  ext1 <;> funext x <;> by_cases hx : x = pid <;> simp [familyOf, hx, hp, hppid, hchildren]

/-- `Exit` hands the children to init. -/
theorem familyOf_exitTable (hpm : TableOk pm) (hp : pm.processes pid = some proc)
    (exitCode : ℤ) :
    familyOf (exitTable pm.processes pid exitCode proc) =
      (familyOf pm.processes).adopt 1 pid := by
  have hself : pid ∉ proc.children := fun h => lt_irrefl pid (hpm.lt_child hp h)
  have hinit : 1 ∉ proc.children := by
    intro h
    obtain ⟨child, -, -, hne1⟩ := hpm.child_present hp h
    exact hne1 rfl
  ext1 <;> funext x
  · by_cases hx : x = pid
    · simp [familyOf, exitTable, Family.adopt, hx, hp, hself]
    · by_cases hx1 : x = 1
      · subst hx1
        simp [familyOf, exitTable, Family.adopt, adoptTable, hx, hp, hinit, Function.comp_def]
      · by_cases hxc : x ∈ proc.children
        · obtain ⟨child, hchild, -, -⟩ := hpm.child_present hp hxc
          simp [familyOf, exitTable, Family.adopt, adoptTable, hx, hx1, hxc, hp, hchild]
        · simp [familyOf, exitTable, Family.adopt, adoptTable, hx, hx1, hxc, hp]
  · by_cases hx : x = pid
    · simp [familyOf, exitTable, Family.adopt, hx]
    · by_cases hx1 : x = 1
      · obtain ⟨init, hinit'⟩ := hpm.init_present
        subst hx1
        simp [familyOf, exitTable, Family.adopt, adoptTable, hx, hp, hinit']
      · by_cases hxc : x ∈ proc.children
        · obtain ⟨child, hchild, -, -⟩ := hpm.child_present hp hxc
          simp [familyOf, exitTable, Family.adopt, adoptTable, hx, hx1, hxc, hchild]
        · simp [familyOf, exitTable, Family.adopt, adoptTable, hx, hx1, hxc]

/-- `Wait` removes a leaf. -/
theorem familyOf_reapTable (hpm : TableOk pm) (hp : pm.processes parentPID = some parent)
    (hc : childPID ∈ parent.children) {child : UnixProcess}
    (hchild : pm.processes childPID = some child) (hz : child.state = .zombie) :
    familyOf (reapTable pm.processes parentPID childPID parent) =
      (familyOf pm.processes).removeLeaf parentPID childPID := by
  have hne : childPID ≠ parentPID := (hpm.lt_child hp hc).ne'
  have hnil : child.children = [] := (hpm.procs _ _ hchild).childless hz
  ext1 <;> funext x
  · by_cases hx : x = childPID
    · simp [familyOf, reapTable, Family.removeLeaf, hx, hne]
    · by_cases hxp : x = parentPID <;>
        simp [familyOf, reapTable, Family.removeLeaf, hx, hxp, hp, hne.symm]
  · by_cases hx : x = childPID
    · simp [familyOf, reapTable, Family.removeLeaf, hx, hne, hchild, hnil]
    · by_cases hxp : x = parentPID <;>
        simp [familyOf, reapTable, Family.removeLeaf, hx, hxp, hp]

end Trees

/-! ## Tables of well-formed PCBs -/

section Procs

variable {procs : ℤ → Option UnixProcess} {n m pid init : ℤ} {p q : UnixProcess}

theorem eq_some_of_update {pid x : ℤ} {v : Option UnixProcess}
    (h : Function.update procs pid v x = some q) :
    x = pid ∧ v = some q ∨ x ≠ pid ∧ procs x = some q := by
  by_cases hx : x = pid
  · subst hx
    rw [Function.update_self] at h
    exact .inl ⟨rfl, h⟩
  · rw [Function.update_of_ne hx] at h
    exact .inr ⟨hx, h⟩

/-- Every process in the table is well formed. -/
def ProcsOk (n : ℤ) (procs : ℤ → Option UnixProcess) : Prop :=
  ∀ pid p, procs pid = some p → ProcOk n pid p

theorem ProcsOk.mono (h : ProcsOk n procs) (hnm : n ≤ m) : ProcsOk m procs := by
  intro pid p hp
  exact { h pid p hp with lt_next := (h pid p hp).lt_next.trans_le hnm }

theorem ProcsOk.update (h : ProcsOk n procs) {v : Option UnixProcess}
    (hv : ∀ q, v = some q → ProcOk n pid q) : ProcsOk n (Function.update procs pid v) := by
  intro x p hx
  rcases eq_some_of_update hx with ⟨rfl, hp⟩ | ⟨-, hx⟩
  · exact hv p hp
  · exact h x p hx

/-- New relatives, new registers or a new name do not matter, as long as a zombie gets no
children. -/
theorem ProcOk.relate (h : ProcOk n pid p) (hpid : q.pid = p.pid) (hstate : q.state = p.state)
    (hspace : q.addressSpace = p.addressSpace) (hpages : q.pageTable = p.pageTable)
    (hchildren : q.state = .zombie → q.children = []) : ProcOk n pid q where
  pid_eq := hpid.trans h.pid_eq
  lt_next := h.lt_next
  init_live := fun hp => hstate ▸ h.init_live hp
  childless := hchildren
  space := by rw [hspace, hstate, h.space]
  pages := by rw [hpages, h.pages]

theorem ProcsOk.adopt (h : ProcsOk n procs) (orphans : List ℤ) :
    ProcsOk n (adoptTable procs 1 orphans) := by
  intro x p hx
  unfold adoptTable at hx
  split at hx
  · rename_i hinit
    obtain ⟨q, hq, rfl⟩ := Option.map_eq_some_iff.mp hx
    exact (h x q hq).relate rfl rfl rfl rfl fun hz => absurd hz ((h x q hq).init_live hinit)
  · split at hx
    · obtain ⟨q, hq, rfl⟩ := Option.map_eq_some_iff.mp hx
      exact (h x q hq).relate rfl rfl rfl rfl (h x q hq).childless
    · exact h x p hx

end Procs

/-! ## One call -/

section Step

variable {pm pm' : ProcessManager} {c : ProcCall} {o : Outcome ProcReply}
variable {pid parentPID childPID exitCode : ℤ} {proc parent child : UnixProcess}

/-- The next PID is free. -/
theorem TableOk.fresh (hpm : TableOk pm) : pm.processes pm.nextPID = none := by
  by_contra h
  obtain ⟨p, hp⟩ := Option.ne_none_iff_exists'.mp h
  exact lt_irrefl _ (hpm.procs _ _ hp).lt_next

/-- A process with an address space has not exited. -/
theorem TableOk.live_of_space (hpm : TableOk pm) {as : AddressSpace}
    (hp : pm.processes pid = some proc) (has : proc.addressSpace = some as) :
    proc.state ≠ .zombie := by
  intro hz
  rw [(hpm.procs _ _ hp).space.mpr hz] at has
  cases has

theorem TableOk.forked (hpm : TableOk pm) {parentAS : AddressSpace} (log : List String)
    (hp : pm.processes parentPID = some parent) (has : parent.addressSpace = some parentAS) :
    TableOk { pm with
      processes := forkTable pm.processes pm.nextPID parentPID parent
        (childOf pm.nextPID parentPID parent parentAS)
      nextPID := pm.nextPID + 1
      lifecycleLog := log } := by
  have hlt := (hpm.procs _ _ hp).lt_next
  have hlive := hpm.live_of_space hp has
  have hinit : pm.nextPID ≠ 1 := by
    obtain ⟨init, hinit⟩ := hpm.init_present
    exact (hpm.procs _ _ hinit).lt_next.ne'
  have hprocs : ProcsOk (pm.nextPID + 1) pm.processes := ProcsOk.mono hpm.procs (by omega)
  constructor
  · exact hpm.initPID
  · rw [familyOf_forkTable hp hpm.fresh]
    refine hpm.tree.addLeaf ?_ ?_ hlt
    · exact familyOf_parent_eq_none.mpr hpm.fresh
    · simp [familyOf_parent hp]
  · refine (hprocs.update ?_).update ?_
    · rintro q ⟨⟩
      exact (hprocs _ _ hp).relate rfl rfl rfl rfl fun hz => absurd hz hlive
    · rintro q ⟨⟩
      have hpages := (hpm.procs _ _ hp).pages
      refine ⟨rfl, Int.lt_succ pm.nextPID, fun h => absurd h hinit, ?_, ?_, ?_⟩ <;>
        simp [childOf, ProcessManager.forkedChild, hpages]
  · intro x hx
    obtain ⟨hgone, hx⟩ := hpm.reaped_gone x hx
    have hxn : x ≠ pm.nextPID := hx.ne
    have hxp := ne_of_absent hp hgone
    exact ⟨by simp [forkTable, hxn, hxp, hgone], by dsimp only; omega⟩

/-- A PCB can be replaced by one with the same relatives. -/
theorem TableOk.replace (hpm : TableOk pm) (log : List String) (hp : pm.processes pid = some proc)
    (hq : ProcOk pm.nextPID pid q) (hppid : q.ppid = proc.ppid)
    (hchildren : q.children = proc.children) :
    TableOk { pm with
      processes := Function.update pm.processes pid (some q)
      lifecycleLog := log } := by
  constructor
  · exact hpm.initPID
  · rw [familyOf_update hp hppid hchildren]
    exact hpm.tree
  · refine ProcsOk.update hpm.procs ?_
    rintro r ⟨⟩
    exact hq
  · intro x hx
    obtain ⟨hgone, hlt⟩ := hpm.reaped_gone x hx
    have hxp := ne_of_absent hp hgone
    exact ⟨by simp [hxp, hgone], hlt⟩

theorem TableOk.exited (hpm : TableOk pm) (log : List String) (exitCode : ℤ)
    (hp : pm.processes pid = some proc) (hne : pid ≠ 1) :
    TableOk { pm with
      processes := exitTable pm.processes pid exitCode proc
      lifecycleLog := log } := by
  constructor
  · exact hpm.initPID
  · rw [familyOf_exitTable hpm hp]
    exact hpm.tree.adopt hne
  · refine (ProcsOk.adopt hpm.procs proc.children).update ?_
    rintro q ⟨⟩
    have hproc := hpm.procs _ _ hp
    constructor <;> simp [hproc.pid_eq, hproc.lt_next, hproc.pages, hne]
  · intro x hx
    obtain ⟨hgone, hlt⟩ := hpm.reaped_gone x hx
    have hxp := ne_of_absent hp hgone
    exact ⟨by simp [exitTable, hxp, adoptTable_eq_none, hgone], hlt⟩

theorem TableOk.reaped (hpm : TableOk pm) (log : List String)
    (hp : pm.processes parentPID = some parent) (hc : childPID ∈ parent.children)
    (hchild : pm.processes childPID = some child) (hz : child.state = .zombie) :
    TableOk { pm with
      processes := reapTable pm.processes parentPID childPID parent
      reaped := Function.update pm.reaped childPID (some { child with state := .reaped })
      lifecycleLog := log } := by
  have hlive : parent.state ≠ .zombie := by
    intro hzp
    rw [(hpm.procs _ _ hp).childless hzp] at hc
    cases hc
  have hne : childPID ≠ parentPID := (hpm.lt_child hp hc).ne'
  constructor
  · exact hpm.initPID
  · rw [familyOf_reapTable hpm hp hc hchild hz]
    refine hpm.tree.removeLeaf ?_ ?_
    · rwa [familyOf_children hp]
    · rw [familyOf_children hchild]
      exact (hpm.procs _ _ hchild).childless hz
  · refine (ProcsOk.update hpm.procs ?_).update ?_
    · rintro q ⟨⟩
    · rintro q ⟨⟩
      exact (hpm.procs _ _ hp).relate rfl rfl rfl rfl fun hzp => absurd hzp hlive
  · intro x hx
    by_cases hxc : x = childPID
    · subst hxc
      exact ⟨by simp [reapTable, hne], (hpm.procs _ _ hchild).lt_next⟩
    · replace hx : pm.reaped x ≠ none := by simpa [hxc] using hx
      obtain ⟨hgone, hlt⟩ := hpm.reaped_gone x hx
      have hxp := ne_of_absent hp hgone
      exact ⟨by simp [reapTable, hxp, hxc, hgone], hlt⟩

/-- **Every call keeps the table in order**, also one that panics. -/
theorem TableOk.effect (hpm : TableOk pm) (h : CallEffect pm c o pm') : TableOk pm' := by
  cases h with
  | error => exact hpm
  | forked log hp has => exact hpm.forked log hp has
  | forkPanic =>
    refine ⟨hpm.initPID, hpm.tree, ProcsOk.mono hpm.procs (by dsimp only; omega), fun x hx => ?_⟩
    obtain ⟨hgone, hlt⟩ := hpm.reaped_gone x hx
    exact ⟨hgone, by dsimp only; omega⟩
  | execed log hp has =>
    refine hpm.replace log hp ?_ rfl rfl
    have hlive := hpm.live_of_space hp has
    have hproc := hpm.procs _ _ hp
    constructor <;> simp [execedProc, hproc.pid_eq, hproc.lt_next, hlive]
  | execPanic hp has =>
    exact hpm.replace _ hp ((hpm.procs _ _ hp).relate rfl rfl rfl rfl
      (hpm.procs _ _ hp).childless) rfl rfl
  | exited log hp hne => exact hpm.exited log _ hp hne
  | reaped log hp hc hchild hz => exact hpm.reaped log hp hc hchild hz

end Step

/-! ## One process -/

/-- The two PCBs differ at most in their relatives and registers. -/
structure SameBody (p q : UnixProcess) : Prop where
  state : q.state = p.state
  addressSpace : q.addressSpace = p.addressSpace
  pageTable : q.pageTable = p.pageTable

theorem SameBody.refl (p : UnixProcess) : SameBody p p := ⟨rfl, rfl, rfl⟩

/-- **What a call can do to one process**: `q` is the PCB of `x` after the call. -/
inductive ProcChange (pm : ProcessManager) (c : ProcCall) (x : ℤ) (q : UnixProcess) : Prop
  | kept {p : UnixProcess} (hp : pm.processes x = some p) (hbody : SameBody p q)
      (hc : ∀ binaryName args, c ≠ .exec x binaryName args)
  | forked {parentPID : ℤ} {parent : UnixProcess} {parentAS : AddressSpace}
      (hc : c = .fork parentPID) (hx : x = pm.nextPID)
      (hp : pm.processes parentPID = some parent) (has : parent.addressSpace = some parentAS)
      (hq : q = childOf x parentPID parent parentAS)
  | execed {binaryName : String} {args : List String} {p : UnixProcess} {oldAS : AddressSpace}
      (hc : c = .exec x binaryName args) (hp : pm.processes x = some p)
      (has : p.addressSpace = some oldAS) (hq : q = execedProc x binaryName args p oldAS)
  | dead (hz : q.state = .zombie)

/-- Every effect of a call changes one process in these ways. -/
theorem procChange_of_effect {pm pm' : ProcessManager} {c : ProcCall} {o : Outcome ProcReply}
    (hpm : TableOk pm) (h : CallEffect pm c o pm') {x : ℤ} (hx : pm'.processes x = some q) :
    ProcChange pm c x q := by
  cases h with
  | error e hc =>
    refine .kept hx (SameBody.refl q) ?_
    rintro binaryName args rfl
    have hnone : pm.processes x = none := hc
    rw [hx] at hnone
    cases hnone
  | forked log hp has =>
    rcases eq_some_of_update hx with ⟨rfl, hq⟩ | ⟨-, hx⟩
    · exact .forked rfl rfl hp has (Option.some.inj hq).symm
    · rcases eq_some_of_update hx with ⟨rfl, hq⟩ | ⟨-, hx⟩
      · obtain rfl := Option.some.inj hq
        exact .kept hp ⟨rfl, rfl, rfl⟩ (by simp)
      · exact .kept hx (SameBody.refl q) (by simp)
  | forkPanic hp has => exact .kept hx (SameBody.refl q) (by simp)
  | execed log hp has =>
    rcases eq_some_of_update hx with ⟨rfl, hq⟩ | ⟨hne, hx⟩
    · exact .execed rfl hp has (Option.some.inj hq).symm
    · exact .kept hx (SameBody.refl q) (by simp [hne.symm])
  | execPanic hp has =>
    rcases eq_some_of_update hx with ⟨rfl, hq⟩ | ⟨hne, hx⟩
    · obtain rfl := Option.some.inj hq
      exact .dead ((hpm.procs _ _ hp).space.mp has)
    · exact .kept hx (SameBody.refl q) (by simp [hne.symm])
  | exited log hp hne =>
    rcases eq_some_of_update hx with ⟨rfl, hq⟩ | ⟨-, hx⟩
    · obtain rfl := Option.some.inj hq
      exact .dead rfl
    · obtain ⟨p, _, _, hp, rfl⟩ := eq_some_of_adoptTable hx
      exact .kept hp ⟨rfl, rfl, rfl⟩ (by simp)
  | reaped log hp hc hchild hz =>
    rcases eq_some_of_update hx with ⟨rfl, hq⟩ | ⟨-, hx⟩
    · obtain rfl := Option.some.inj hq
      exact .kept hp ⟨rfl, rfl, rfl⟩ (by simp)
    · rcases eq_some_of_update hx with ⟨-, hq⟩ | ⟨-, hx⟩
      · cases hq
      · exact .kept hx (SameBody.refl q) (by simp)

/-- A process that has not exited. -/
def Live (pm : ProcessManager) (pid : ℤ) (p : UnixProcess) : Prop :=
  pm.processes pid = some p ∧ p.state ≠ .zombie

theorem live_adoptTable (init : ℤ) (orphans : List ℤ) {x : ℤ} (hp : procs x = some p) :
    ∃ q, adoptTable procs init orphans x = some q ∧ q.state = p.state := by
  unfold adoptTable
  split
  · exact ⟨_, congrArg _ hp, rfl⟩
  · split
    · exact ⟨_, congrArg _ hp, rfl⟩
    · exact ⟨p, hp, rfl⟩

/-- **A live process stays live until its own `Exit`.** -/
theorem Live.effect {pm pm' : ProcessManager} {c : ProcCall} {o : Outcome ProcReply} {x : ℤ}
    (hx : Live pm x p) (hpm : TableOk pm) (h : CallEffect pm c o pm')
    (hc : ∀ exitCode, c = .exit x exitCode → x = 1) : ∃ q, Live pm' x q := by
  obtain ⟨hp, hlive⟩ := hx
  cases h with
  | error e _ => exact ⟨p, hp, hlive⟩
  | forked log hparent has =>
    rename_i parentPID parent parentAS
    have hne : x ≠ pm.nextPID := (ne_of_absent hp hpm.fresh).symm
    by_cases hxp : x = parentPID
    · subst hxp
      obtain rfl : p = parent := Option.some.inj (hp.symm.trans hparent)
      refine ⟨{ p with
        registers := { p.registers with rax := UInt64.ofInt pm.nextPID }
        children := p.children ++ [pm.nextPID] }, by simp [forkTable, hne], hlive⟩
    · exact ⟨p, by simpa [forkTable, hne, hxp] using hp, hlive⟩
  | forkPanic _ _ => exact ⟨p, hp, hlive⟩
  | execed log hproc has =>
    rename_i pid binaryName args proc oldAS
    by_cases hxp : x = pid
    · subst hxp
      obtain rfl : p = proc := Option.some.inj (hp.symm.trans hproc)
      exact ⟨execedProc x binaryName args p oldAS, by simp, hlive⟩
    · exact ⟨p, by simpa [hxp] using hp, hlive⟩
  | execPanic hproc has =>
    rename_i pid binaryName args proc
    have hne : x ≠ pid := by
      rintro rfl
      obtain rfl : p = proc := Option.some.inj (hp.symm.trans hproc)
      exact hlive ((hpm.procs _ _ hp).space.mp has)
    exact ⟨p, by simpa [hne] using hp, hlive⟩
  | exited log hproc hne =>
    rename_i pid exitCode proc
    have hxp : x ≠ pid := by
      rintro rfl
      exact hne (hc exitCode rfl)
    obtain ⟨q, hq, hstate⟩ := live_adoptTable 1 proc.children hp
    exact ⟨q, by simpa [exitTable, hxp] using hq, by rwa [hstate]⟩
  | reaped log hparent hchildren hchild hz =>
    rename_i parentPID childPID parent child
    have hne : x ≠ childPID := by
      rintro rfl
      obtain rfl : p = child := Option.some.inj (hp.symm.trans hchild)
      exact hlive hz
    by_cases hxp : x = parentPID
    · subst hxp
      obtain rfl : p = parent := Option.some.inj (hp.symm.trans hparent)
      exact ⟨{ p with children := p.children.erase childPID }, by simp [reapTable], hlive⟩
    · exact ⟨p, by simpa [reapTable, hne, hxp] using hp, hlive⟩

end OsSimulator.Interface
