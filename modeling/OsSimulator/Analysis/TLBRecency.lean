import OsSimulator.Interface.TLBCache

/-!
# The TLB holds the most recently touched pages

`TLBHistory` runs a new TLB and writes down what its callers did: which keys were touched
since the last flush, newest first, and which frame was inserted last for each key.  A touch
is an insert or a lookup that hits.  `tlb_is_lru` says that the TLB is determined by these
notes: its valid entries are the first distinct keys, as many as there are slots, and a
lookup returns the latest frame.

The argument has two halves.  The slots of the TLB, read in the order of their time stamps,
are a cache of `OsSimulator.Library.Lru` (`OsSimulator.Interface.Caches`); and such a cache
follows its history (`Lru.Law`).  `Recorded` joins them along a run.

In a trace of references, each a lookup with an insert on a miss, the touched keys are the same for
every size.  So TLBs of different sizes hold the first keys of one list, and a larger one hits
whenever a smaller one does (`larger_tlb_hits`).
-/

set_option autoImplicit false

namespace OsSimulator.Analysis

open Model Interface Library

/-! ## The specification -/

structure TLBHistory where
  tlb : TLB
  /-- newest first, since the last flush -/
  touched : List Page
  inserted : Page → Option UInt64

def TLBHistory.call (h : TLBHistory) (c : TLBCall) : TLBHistory :=
  match c with
  | .lookup pid vpn =>
    { h with
      tlb := h.tlb.call c
      touched :=
        if (h.tlb.lookup pid vpn).1.isSome then (pid, vpn) :: h.touched else h.touched }
  | .insert pid vpn pfn _ =>
    { tlb := h.tlb.call c
      touched := (pid, vpn) :: h.touched
      inserted := Function.update h.inserted (pid, vpn) (some pfn) }
  | .flush => { h with tlb := h.tlb.call c, touched := [] }

/-- A new TLB after the given calls. -/
def tlbHistory (capacity : Int64) (calls : List TLBCall) : TLBHistory :=
  calls.foldl TLBHistory.call ⟨newTLB capacity, [], fun _ => none⟩

/-- The keys of the valid entries, slot by slot. -/
def validKeys (tlb : TLB) : List Page := (tlb.entries.filter TLBEntry.valid).map entryKey

/-- The TLB is a cache of `size` entries that evicts the least recently used. -/
structure IsLru (size : ℕ) (h : TLBHistory) : Prop where
  keys_nodup : (validKeys h.tlb).Nodup
  mem_keys_iff : ∀ k, k ∈ validKeys h.tlb ↔ k ∈ recent size h.touched
  hit_iff : ∀ pid vpn, (h.tlb.lookup pid vpn).1.isSome ↔ (pid, vpn) ∈ recent size h.touched
  hit_latest : ∀ pid vpn pfn, (h.tlb.lookup pid vpn).1 = some pfn →
    h.inserted (pid, vpn) = some pfn

/-! ## Runs -/

/-- The calls as operations of the abstract cache. -/
def cacheOp : TLBCall → Lru.Op Page UInt64
  | .lookup pid vpn => .lookup (pid, vpn)
  | .insert pid vpn pfn _ => .insert (pid, vpn) pfn
  | .flush => .flush

/-- The TLB holds the cache of `t`, and the notes are those of `t`. -/
structure Recorded (size : ℕ) (h : TLBHistory) (t : Lru.Tracked Page UInt64) : Prop where
  length_eq : h.tlb.entries.length = size
  caches : Caches h.tlb t.cache
  touched_eq : h.touched = t.touched
  inserted_eq : h.inserted = t.latest
  law : Lru.Law size t

section Runs

variable {size : ℕ} {h : TLBHistory} {t : Lru.Tracked Page UInt64}

theorem length_call (tlb : TLB) (c : TLBCall) : (tlb.call c).entries.length = tlb.entries.length := by
  cases c with
  | lookup pid vpn =>
    show (tlb.lookup pid vpn).2.entries.length = _
    rcases lookup_cases tlb pid vpn with ⟨pre, e, post, hsplit, -, heq⟩ | ⟨-, heq⟩
    · rw [heq, hsplit]
      simp
    · rw [heq]
  | insert pid vpn pfn writable => exact List.length_set
  | flush => exact List.length_map ..

theorem Recorded.call (hr : Recorded size h t) (hpos : 0 < size) (c : TLBCall) :
    Recorded size (h.call c) (t.step size (cacheOp c)) := by
  have hlaw := hr.law.step (cacheOp c)
  have hlen : (h.tlb.call c).entries.length = size := (length_call h.tlb c).trans hr.length_eq
  cases c with
  | lookup pid vpn =>
    obtain ⟨hhit, hcaches⟩ := hr.caches.lookup pid vpn
    refine ⟨hlen, hcaches, ?_, hr.inserted_eq, hlaw⟩
    show (if (h.tlb.lookup pid vpn).1.isSome then _ else _) = _
    rw [hhit, hr.touched_eq]
    rfl
  | insert pid vpn pfn writable =>
    have hne : h.tlb.entries ≠ [] := by
      rw [← List.length_pos_iff, hr.length_eq]
      exact hpos
    have hcaches := hr.caches.insert hne pid vpn pfn writable
    rw [hr.length_eq] at hcaches
    refine ⟨hlen, hcaches, ?_, ?_, hlaw⟩
    · exact congrArg ((pid, vpn) :: ·) hr.touched_eq
    · exact congrArg (Function.update · (pid, vpn) (some pfn)) hr.inserted_eq
  | flush => exact ⟨hlen, caches_flush h.tlb, rfl, hr.inserted_eq, hlaw⟩

theorem recorded_tlbHistory {capacity : Int64} (hcap : 1 ≤ capacity) (calls : List TLBCall) :
    ∃ t, Recorded capacity.toInt.toNat (tlbHistory capacity calls) t := by
  have hone : 1 ≤ capacity.toInt := Int64.le_iff_toInt_le.mp hcap
  unfold tlbHistory
  refine List.foldlRecOn calls _ (motive := fun h => ∃ t, Recorded capacity.toInt.toNat h t) ?_ ?_
  · refine ⟨.empty, ?_, caches_newTLB capacity, rfl, rfl, Lru.law_empty _⟩
    have hnot : ¬ capacity ≤ 0 := by
      rw [Int64.le_iff_toInt_le]
      show ¬ capacity.toInt ≤ 0
      omega
    simp [newTLB, hnot]
  · rintro h ⟨t, hr⟩ c -
    exact ⟨_, hr.call (by omega) c⟩

/-- The specification follows from the abstract cache. -/
theorem Recorded.isLru (hr : Recorded size h t) : IsLru size h := by
  have hperm : (recent size h.touched).Perm (validKeys h.tlb) := by
    rw [hr.touched_eq, ← hr.law.keys]
    exact hr.caches.keys_perm
  have hresult : ∀ pid vpn, (h.tlb.lookup pid vpn).1 = Lru.find (pid, vpn) t.cache := by
    intro pid vpn
    rw [(hr.caches.lookup pid vpn).1, Lru.lookup]
    cases Lru.find (pid, vpn) t.cache <;> rfl
  refine ⟨?_, ?_, ?_, ?_⟩
  · exact hperm.nodup_iff.mp (nodup_recent size h.touched)
  · exact fun k => hperm.mem_iff.symm
  · intro pid vpn
    rw [hresult, Lru.find_isSome_iff, hr.law.keys, hr.touched_eq]
  · intro pid vpn pfn hpfn
    rw [hresult, hr.law.find_eq] at hpfn
    rw [hr.inserted_eq]
    split at hpfn
    · exact hpfn
    · cases hpfn

end Runs

/-- **The TLB is exactly an LRU cache.**  After any calls on a new TLB, the valid entries are
the most recently touched distinct keys since the last flush, as many as fit, each once; a
lookup hits exactly these keys and returns the frame inserted last.
SOURCE: pkg/memory/tlb.go:42-118 -/
theorem tlb_is_lru (capacity : Int64) (hcap : 1 ≤ capacity) (calls : List TLBCall) :
    IsLru capacity.toInt.toNat (tlbHistory capacity calls) := by
  obtain ⟨t, hr⟩ := recorded_tlbHistory hcap calls
  exact hr.isLru

/-- Two slots and three pages: the hit on page `1` saves it, and page `2` is evicted. -/
theorem tlb_is_lru_two_slots :
    let h := tlbHistory 2 [.insert 1 1 7 true, .insert 1 2 8 true, .lookup 1 1, .insert 1 3 9 true]
    IsLru 2 h ∧ (h.tlb.lookup 1 1).1 = some 7 ∧ (h.tlb.lookup 1 2).1 = none :=
  ⟨tlb_is_lru 2 (by decide) _, by decide, by decide⟩

/-! ## TLBs of different sizes -/

/-- An item of a trace: a reference to a page with its translation, or a flush. -/
inductive TLBRef where
  | reference (pid : ℤ) (vpn pfn : UInt64) (writable : Bool)
  | flush
deriving DecidableEq, Repr

/-- A reference is a lookup, and an insert if it misses.  The result is whether it hits. -/
def refer (tlb : TLB) : TLBRef → Bool × TLB
  | .reference pid vpn pfn writable =>
    let (found, tlb) := tlb.lookup pid vpn
    if found.isSome then (true, tlb) else (false, tlb.insert pid vpn pfn writable)
  | .flush => (false, tlb.flush)

/-- The hits of a trace, item by item. -/
def traceHits (tlb : TLB) : List TLBRef → List Bool
  | [] => []
  | ref :: refs => (refer tlb ref).1 :: traceHits (refer tlb ref).2 refs

/-- The keys touched when the item is done. -/
def touchedAfter (touched : List Page) : TLBRef → List Page
  | .reference pid vpn _ _ => (pid, vpn) :: touched
  | .flush => []

section Trace

variable {size : ℕ} {h : TLBHistory} {t : Lru.Tracked Page UInt64}

theorem refer_of_hit {tlb : TLB} {pid : ℤ} {vpn found : UInt64}
    (hhit : (tlb.lookup pid vpn).1 = some found) (pfn : UInt64) (writable : Bool) :
    refer tlb (.reference pid vpn pfn writable) = (true, (tlb.lookup pid vpn).2) := by
  simp only [refer, hhit, Option.isSome_some, if_true]

theorem refer_of_miss {tlb : TLB} {pid : ℤ} {vpn : UInt64}
    (hmiss : (tlb.lookup pid vpn).1 = none) (pfn : UInt64) (writable : Bool) :
    refer tlb (.reference pid vpn pfn writable) =
      (false, (tlb.lookup pid vpn).2.insert pid vpn pfn writable) := by
  simp only [refer, hmiss, Option.isSome_none, Bool.false_eq_true, if_false]

/-- **One item.**  The keys touched do not depend on whether it hits; it does exactly if it is a
reference to a recent key. -/
theorem Recorded.refer (hr : Recorded size h t) (hpos : 0 < size) (ref : TLBRef) :
    (∃ h' t', h'.tlb = (refer h.tlb ref).2 ∧ h'.touched = touchedAfter h.touched ref ∧
      Recorded size h' t') ∧
    ((Analysis.refer h.tlb ref).1 = true ↔
      ∃ pid vpn pfn writable, ref = .reference pid vpn pfn writable ∧
        (pid, vpn) ∈ recent size h.touched) := by
  cases ref with
  | reference pid vpn pfn writable =>
    have hiff := hr.isLru.hit_iff pid vpn
    have hlookup := hr.call hpos (.lookup pid vpn)
    cases hfound : (h.tlb.lookup pid vpn).1 with
    | some found =>
      rw [refer_of_hit hfound]
      have hmem : (pid, vpn) ∈ recent size h.touched := hiff.mp (by rw [hfound]; rfl)
      refine ⟨⟨_, _, rfl, ?_, hlookup⟩, iff_of_true rfl ⟨pid, vpn, pfn, writable, rfl, hmem⟩⟩
      show (if (h.tlb.lookup pid vpn).1.isSome then _ else _) = _
      rw [hfound]
      rfl
    | none =>
      rw [refer_of_miss hfound]
      have hnot : (pid, vpn) ∉ recent size h.touched := by
        rw [← hiff, hfound]
        exact Bool.false_ne_true
      refine ⟨⟨_, _, rfl, ?_, hlookup.call hpos (.insert pid vpn pfn writable)⟩,
        iff_of_false Bool.false_ne_true ?_⟩
      · show (pid, vpn) :: (if (h.tlb.lookup pid vpn).1.isSome then _ else _) = _
        rw [hfound]
        rfl
      · rintro ⟨pid', vpn', _, _, heq, hmem⟩
        cases heq
        exact hnot hmem
  | flush =>
    refine ⟨⟨_, _, rfl, rfl, hr.call hpos .flush⟩, iff_of_false Bool.false_ne_true ?_⟩
    rintro ⟨pid, vpn, pfn, writable, heq, -⟩
    cases heq

/-- Two TLBs with the same touched keys. -/
theorem traceHits_mono {size' : ℕ} {h' : TLBHistory} {t' : Lru.Tracked Page UInt64}
    (hle : size ≤ size') (hpos : 0 < size) (hr : Recorded size h t) (hr' : Recorded size' h' t')
    (htouched : h'.touched = h.touched) (refs : List TLBRef) :
    List.Forall₂ (fun a b => a = true → b = true) (traceHits h.tlb refs) (traceHits h'.tlb refs) := by
  induction refs generalizing h t h' t' with
  | nil => exact .nil
  | cons ref refs ih =>
    obtain ⟨⟨h₁, t₁, htlb, hafter, hr₁⟩, hhit⟩ := hr.refer hpos ref
    obtain ⟨⟨h₁', t₁', htlb', hafter', hr₁'⟩, hhit'⟩ := hr'.refer (by omega) ref
    rw [traceHits, traceHits, ← htlb, ← htlb']
    refine .cons ?_ (ih hr₁ hr₁' (by rw [hafter, hafter', htouched]))
    rw [hhit, hhit', htouched]
    rintro ⟨pid, vpn, pfn, writable, heq, hmem⟩
    exact ⟨pid, vpn, pfn, writable, heq, recent_subset hle _ hmem⟩

end Trace

/-- **A larger TLB never hits less**: on every trace, each reference that hits in the smaller TLB
hits in the larger one.
SOURCE: pkg/memory/tlb.go:42-118 -/
theorem larger_tlb_hits (c₁ c₂ : Int64) (hone : 1 ≤ c₁) (hle : c₁ ≤ c₂) (refs : List TLBRef) :
    List.Forall₂ (fun a b => a = true → b = true)
      (traceHits (newTLB c₁) refs) (traceHits (newTLB c₂) refs) := by
  have hone' : 1 ≤ c₁.toInt := Int64.le_iff_toInt_le.mp hone
  have hle' := Int64.le_iff_toInt_le.mp hle
  have hone₂ : 1 ≤ c₂ := Int64.le_iff_toInt_le.mpr (Int.le_trans hone' hle')
  obtain ⟨t₁, hr₁⟩ := recorded_tlbHistory hone []
  obtain ⟨t₂, hr₂⟩ := recorded_tlbHistory hone₂ []
  have hstart : ∀ capacity, tlbHistory capacity [] = ⟨newTLB capacity, [], fun _ => none⟩ :=
    fun _ => rfl
  rw [hstart] at hr₁ hr₂
  exact traceHits_mono (Int.toNat_le_toNat hle') (by omega) hr₁ hr₂ rfl refs

/-- Two pages in turns: one slot never hits, two slots do. -/
theorem larger_tlb_hits_two_pages :
    let refs : List TLBRef := [.reference 1 1 7 true, .reference 1 2 8 true, .reference 1 1 7 true]
    List.Forall₂ (fun a b => a = true → b = true)
        (traceHits (newTLB 1) refs) (traceHits (newTLB 2) refs) ∧
      traceHits (newTLB 1) refs = [false, false, false] ∧
      traceHits (newTLB 2) refs = [false, false, true] :=
  ⟨larger_tlb_hits 1 2 (by decide) (by decide) _, by decide, by decide⟩

end OsSimulator.Analysis
