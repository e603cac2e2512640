import OsSimulator.Model.Paging
import Mathlib.Tactic.SplitIfs

/-!
# Page tables as arrays of checked entries

What `MapPage` and `Translate` do depends on one entry: `checkEntry` finds the fault of an
access, `entryOutcome` what the translation comes to and `entryAfter` the entry it leaves
behind.  The linear page table applies them to the entry of the page number
(`PageTable.translate_of_entry`).
-/

set_option autoImplicit false

namespace OsSimulator.Interface

open Model

theorem goInt_le (v : UInt64) : goInt v ≤ v.toNat := by
  unfold goInt
  rw [Int.bmod_def]
  split <;> omega

/-- **The signed comparison** of a page number out of range with the number of pages. -/
theorem le_goInt_iff {n : ℕ} (hn : n < 2 ^ 63) {v : UInt64} (hv : n ≤ v.toNat) :
    goInt v ≥ n ↔ v.toNat < 2 ^ 63 := by
  have hword : v.toNat < 2 ^ 64 := v.toNat_lt
  unfold goInt
  rw [Int.bmod_def]
  split <;> omega

/-- The entry that `MapPage` writes. -/
def mappedEntry (pfn : UInt64) (writable : Bool) : PageTableEntry :=
  { valid := true, present := true, readWrite := writable, pfn }

/-- `MapPage` in range writes one entry. -/
theorem mapPage_of_lt {pt : PageTable} {vpn : UInt64} (hvpn : vpn.toNat < pt.entries.length)
    (pfn : UInt64) (writable : Bool) :
    pt.mapPage vpn pfn writable =
      some { pt with entries := pt.entries.set vpn.toNat (mappedEntry pfn writable) } := by
  have hint : goInt vpn < pt.entries.length := by
    have := goInt_le vpn
    omega
  unfold PageTable.mapPage
  rw [if_pos hint, if_pos hvpn]
  rfl

/-- Out of range it does nothing, or panics when the number does not fit an `int`. -/
theorem mapPage_of_ge {pt : PageTable} {vpn : UInt64} (hlen : pt.entries.length < 2 ^ 63)
    (hge : pt.entries.length ≤ vpn.toNat) (pfn : UInt64) (writable : Bool) :
    pt.mapPage vpn pfn writable = if vpn.toNat < 2 ^ 63 then some pt else none := by
  have hcheck := le_goInt_iff hlen hge
  unfold PageTable.mapPage
  rw [if_neg (Nat.not_lt.mpr hge)]
  by_cases hlt : vpn.toNat < 2 ^ 63
  · rw [if_pos hlt, if_neg (Int.not_lt.mpr (hcheck.mpr hlt))]
  · rw [if_neg hlt, if_pos (Int.not_le.mp fun hle => hlt (hcheck.mp hle))]

/-! ## Checked entries -/

/-- What a translation comes to. -/
inductive TranslateOutcome where
  | address (pAddr : UInt64)
  | fault (kind : PagingFault)
deriving DecidableEq, Repr

/-- The outcome of a translation. -/
def outcome (t : Translation) : TranslateOutcome :=
  match t.err with
  | some e => .fault e.kind
  | none => .address t.pAddr

/-- The fault of an access through the entry, if any. -/
def checkEntry (isWrite : Bool) (e : PageTableEntry) : Option PagingFault :=
  if !e.valid then some .invalidPage
  else if !e.present then some .pageFault
  else if isWrite && !e.readWrite then some .protectionFault
  else none

/-- The outcome of an access through the entry. -/
def entryOutcome (pageSize offset : UInt64) (isWrite : Bool) (e : PageTableEntry) :
    TranslateOutcome :=
  match checkEntry isWrite e with
  | some kind => .fault kind
  | none => .address (e.pfn * pageSize + offset)

/-- The entry after the access. -/
def entryAfter (isWrite : Bool) (e : PageTableEntry) : PageTableEntry :=
  if (checkEntry isWrite e).isNone then e.track isWrite else e

variable {e : PageTableEntry}

theorem entryOutcome_of_fault {isWrite : Bool} {kind : PagingFault}
    (h : checkEntry isWrite e = some kind) (pageSize offset : UInt64) :
    entryOutcome pageSize offset isWrite e = .fault kind ∧ entryAfter isWrite e = e := by
  unfold entryOutcome entryAfter
  rw [h]
  exact ⟨rfl, rfl⟩

theorem entryOutcome_of_ok {isWrite : Bool} (h : checkEntry isWrite e = none)
    (pageSize offset : UInt64) :
    entryOutcome pageSize offset isWrite e = .address (e.pfn * pageSize + offset) ∧
      entryAfter isWrite e = e.track isWrite := by
  unfold entryOutcome entryAfter
  rw [h]
  exact ⟨rfl, rfl⟩

/-- Only an entry that is not valid is reported as such. -/
theorem entryOutcome_eq_invalid_iff {isWrite : Bool} (pageSize offset : UInt64) :
    entryOutcome pageSize offset isWrite e = .fault .invalidPage ↔ e.valid = false := by
  unfold entryOutcome checkEntry
  cases e.valid with
  | false => exact iff_of_true rfl rfl
  | true =>
    refine iff_of_false ?_ (by simp)
    cases e.present <;> cases isWrite && !e.readWrite <;> simp

theorem valid_entryAfter (isWrite : Bool) (e : PageTableEntry) :
    (entryAfter isWrite e).valid = e.valid := by
  unfold entryAfter
  split <;> rfl

theorem checkEntry_of_present {pte : PageTableEntry} (hvalid : pte.valid = true) (hpresent : pte.present = true)
    (isWrite : Bool) :
    checkEntry isWrite pte = if isWrite && !pte.readWrite then some .protectionFault else none := by
  unfold checkEntry
  rw [hvalid, hpresent]
  rfl

theorem set_self {entries : List PageTableEntry} {i : ℕ} (hget : entries[i]? = some e) :
    entries.set i e = entries := by
  obtain ⟨hlt, rfl⟩ := List.getElem?_eq_some_iff.mp hget
  exact List.set_getElem_self hlt

section Translate

variable {pt : PageTable} {vAddr : UInt64} {e : PageTableEntry} {isWrite : Bool}

theorem not_goInt_ge (hget : pt.entries[(vAddr / pt.pageSize).toNat]? = some e) :
    ¬ goInt (vAddr / pt.pageSize) ≥ pt.entries.length := by
  obtain ⟨hlt, -⟩ := List.getElem?_eq_some_iff.mp hget
  have := goInt_le (vAddr / pt.pageSize)
  omega

/-- A check that fails leaves the table alone. -/
theorem translate_of_fault {kind : PagingFault} (hsize : pt.pageSize ≠ 0)
    (hget : pt.entries[(vAddr / pt.pageSize).toNat]? = some e)
    (hcheck : checkEntry isWrite e = some kind) :
    ∃ t, pt.translate vAddr isWrite = some (t, pt) ∧ outcome t = .fault kind := by
  unfold PageTable.translate
  simp only [if_neg hsize, if_neg (not_goInt_ge hget), hget]
  unfold checkEntry at hcheck
  split_ifs at hcheck ⊢ <;> (cases hcheck; exact ⟨_, rfl, rfl⟩)

theorem translate_of_ok (hsize : pt.pageSize ≠ 0)
    (hget : pt.entries[(vAddr / pt.pageSize).toNat]? = some e)
    (hcheck : checkEntry isWrite e = none) :
    ∃ t, pt.translate vAddr isWrite = some (t, { pt with
        entries := pt.entries.set (vAddr / pt.pageSize).toNat (e.track isWrite) }) ∧
      outcome t = .address (e.pfn * pt.pageSize + vAddr % pt.pageSize) := by
  unfold PageTable.translate
  simp only [if_neg hsize, if_neg (not_goInt_ge hget), hget]
  unfold checkEntry at hcheck
  split_ifs at hcheck ⊢
  exact ⟨_, rfl, rfl⟩

theorem translate_of_ge (hsize : pt.pageSize ≠ 0)
    (hint : goInt (vAddr / pt.pageSize) ≥ pt.entries.length) (isWrite : Bool) :
    ∃ t, pt.translate vAddr isWrite = some (t, pt) ∧ outcome t = .fault .invalidPage := by
  unfold PageTable.translate
  simp only [if_neg hsize, if_pos hint]
  exact ⟨_, rfl, rfl⟩

/-- **The linear table** translates through the entry of the page number. -/
theorem translate_of_entry (hsize : pt.pageSize ≠ 0)
    (hget : pt.entries[(vAddr / pt.pageSize).toNat]? = some e) (isWrite : Bool) :
    ∃ t, pt.translate vAddr isWrite = some (t, { pt with
        entries := pt.entries.set (vAddr / pt.pageSize).toNat (entryAfter isWrite e) }) ∧
      outcome t = entryOutcome pt.pageSize (vAddr % pt.pageSize) isWrite e := by
  cases hcheck : checkEntry isWrite e with
  | some kind =>
    obtain ⟨houtcome, hafter⟩ := entryOutcome_of_fault hcheck pt.pageSize (vAddr % pt.pageSize)
    rw [houtcome, hafter, set_self hget]
    exact translate_of_fault hsize hget hcheck
  | none =>
    obtain ⟨houtcome, hafter⟩ := entryOutcome_of_ok hcheck pt.pageSize (vAddr % pt.pageSize)
    rw [houtcome, hafter]
    exact translate_of_ok hsize hget hcheck

/-- What a translation can do to a table: it sets the bits of one entry, or nothing. -/
theorem translate_cases {t : Translation} {pt' : PageTable}
    (h : pt.translate vAddr isWrite = some (t, pt')) :
    pt' = pt ∨ ∃ i e, pt.entries[i]? = some e ∧
      pt' = { pt with entries := pt.entries.set i (e.track isWrite) } := by
  have hsize : pt.pageSize ≠ 0 := by
    intro hzero
    unfold PageTable.translate at h
    rw [if_pos hzero] at h
    cases h
  cases hget : pt.entries[(vAddr / pt.pageSize).toNat]? with
  | none =>
    unfold PageTable.translate at h
    simp only [if_neg hsize, hget] at h
    split at h
    · cases h
      exact .inl rfl
    · cases h
  | some e =>
    cases hcheck : checkEntry isWrite e with
    | some kind =>
      obtain ⟨t', ht', -⟩ := translate_of_fault hsize hget hcheck
      cases ht'.symm.trans h
      exact .inl rfl
    | none =>
      obtain ⟨t', ht', -⟩ := translate_of_ok hsize hget hcheck
      cases ht'.symm.trans h
      exact .inr ⟨_, e, hget, rfl⟩

end Translate

end OsSimulator.Interface
