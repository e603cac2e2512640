import OsSimulator.Interface.PagingView
import OsSimulator.Library.LruCache
import OsSimulator.Library.StampedSlots

/-!
# The TLB as a cache

`Ordered` reads the slots of a TLB as slots with time stamps, and says that the valid slots
stand before the empty ones.  That, and the fact that no key is in two slots, make the scans
of `Lookup` and `Insert` exact although they stop early: `Insert` takes the first empty slot
without looking for the key in the slots behind it.

`Caches` reads the ordered entries as a cache in the sense of `OsSimulator.Library.Lru`.  The
three operations of the TLB are the three operations of that cache (`Caches.lookup`,
`Caches.insert`, `caches_flush`).
-/

set_option autoImplicit false

namespace OsSimulator.Interface

open Model Library

/-- The key of an entry: address space and page. -/
def entryKey (e : TLBEntry) : Page := (e.asid, e.vpn)

/-- A slot, with the key, the frame and the last access of a valid entry. -/
def slotOf (e : TLBEntry) : Option (Stamped Page UInt64) :=
  if e.valid then some ⟨entryKey e, e.pfn, e.lastAccess⟩ else none

variable {vpn : UInt64} {e : TLBEntry} {pid : ℤ}

theorem isFor_iff : TLB.isFor pid vpn e = true ↔ e.valid = true ∧ entryKey e = (pid, vpn) := by
  simp only [TLB.isFor, entryKey, Bool.and_eq_true, beq_iff_eq, Prod.mk.injEq, and_assoc]

theorem isFor_eq_false_iff :
    TLB.isFor pid vpn e = false ↔ (e.valid = true → entryKey e ≠ (pid, vpn)) := by
  rw [← Bool.not_eq_true, isFor_iff, not_and]

/-! ## What the scans find -/

section Scans

variable {tlb : TLB} {pid : ℤ} {vpn : UInt64}

theorem set_length_append {α : Type*} (pre : List α) (e e' : α) (post : List α) :
    (pre ++ e :: post).set pre.length e' = pre ++ e' :: post := by
  simp

/-- A lookup refreshes an entry of its key, or there is none. -/
theorem lookup_cases (tlb : TLB) (pid : ℤ) (vpn : UInt64) :
    (∃ pre e post, tlb.entries = pre ++ e :: post ∧ TLB.isFor pid vpn e = true ∧
      tlb.lookup pid vpn = (some e.pfn,
        { tlb with
          accessTick := tlb.accessTick + 1
          entries := pre ++ { e with lastAccess := tlb.accessTick + 1 } :: post
          hits := tlb.hits + 1 })) ∨
    ((∀ e ∈ tlb.entries, TLB.isFor pid vpn e = false) ∧
      tlb.lookup pid vpn = (none,
        { tlb with accessTick := tlb.accessTick + 1, misses := tlb.misses + 1 })) := by
  unfold TLB.lookup
  dsimp only
  cases hfind : tlb.entries.findIdx? (TLB.isFor pid vpn) with
  | none => exact .inr ⟨List.findIdx?_eq_none_iff.mp hfind, rfl⟩
  | some i =>
    obtain ⟨hi, hfor, -⟩ := List.findIdx?_eq_some_iff_getElem.mp hfind
    refine .inl ⟨tlb.entries.take i, tlb.entries[i], tlb.entries.drop (i + 1), ?_, hfor, ?_⟩
    · rw [List.getElem_cons_drop, List.take_append_drop]
    · dsimp only
      rw [List.getElem?_eq_getElem hi, List.modify_eq_take_cons_drop hi]
      rfl

/-- An insert may take the slot of this entry at once: it is empty or holds the key. -/
def opens (pid : ℤ) (vpn : UInt64) (e : TLBEntry) : Bool := !e.valid || TLB.isFor pid vpn e

theorem opens_eq_false_iff :
    opens pid vpn e = false ↔ e.valid = true ∧ TLB.isFor pid vpn e = false := by
  simp [opens]

theorem opens_iff : opens pid vpn e = true ↔ e.valid = false ∨ TLB.isFor pid vpn e = true := by
  simp [opens]

theorem insertSlot_cons (e : TLBEntry) (entries : List TLBEntry) (i lruIdx : ℕ) (oldest : ℤ) :
    TLB.insertSlot pid vpn (e :: entries) i lruIdx oldest =
      if opens pid vpn e then i
      else if e.lastAccess < oldest then TLB.insertSlot pid vpn entries (i + 1) i e.lastAccess
      else TLB.insertSlot pid vpn entries (i + 1) lruIdx oldest := by
  rw [TLB.insertSlot, opens]
  cases e.valid <;> cases TLB.isFor pid vpn e <;> rfl

/-- An insert takes the first slot that opens. -/
theorem insertSlot_of_opens {pre post : List TLBEntry} (hpre : ∀ x ∈ pre, opens pid vpn x = false)
    (he : opens pid vpn e = true) (i lruIdx : ℕ) (oldest : ℤ) :
    TLB.insertSlot pid vpn (pre ++ e :: post) i lruIdx oldest = i + pre.length := by
  induction pre generalizing i lruIdx oldest with
  | nil =>
    rw [List.nil_append, insertSlot_cons, if_pos he]
    rfl
  | cons x pre ih =>
    obtain ⟨hx, hpre⟩ := List.forall_mem_cons.mp hpre
    rw [List.cons_append, insertSlot_cons, hx, if_neg Bool.false_ne_true, ih hpre, ih hpre,
      ite_self, List.length_cons]
    omega

/-- When no slot opens, an insert scans for the least time stamp. -/
theorem insertSlot_of_full {entries : List TLBEntry}
    (hfull : ∀ x ∈ entries, opens pid vpn x = false) (i lruIdx : ℕ) (oldest : ℤ) :
    TLB.insertSlot pid vpn entries i lruIdx oldest =
      scanLeast TLBEntry.lastAccess entries i lruIdx oldest := by
  induction entries generalizing i lruIdx oldest with
  | nil => rfl
  | cons x entries ih =>
    obtain ⟨hx, hfull⟩ := List.forall_mem_cons.mp hfull
    rw [insertSlot_cons, hx, if_neg Bool.false_ne_true, scanLeast, ih hfull, ih hfull]

/-- The entry that an insert writes. -/
def freshEntry (tlb : TLB) (pid : ℤ) (vpn pfn : UInt64) (writable : Bool) : TLBEntry :=
  { vpn, pfn, asid := pid, valid := true, readWrite := writable, lastAccess := tlb.accessTick + 1 }

/-- An insert replaces the first entry that is empty or has its key; without one, an entry
with the least time stamp. -/
theorem insert_cases (pid : ℤ) (vpn pfn : UInt64) (writable : Bool) (hpos : tlb.entries ≠ [])
    (hpast : ∀ e ∈ tlb.entries, e.valid = true → e.lastAccess ≤ tlb.accessTick) :
    ∃ pre e post, tlb.entries = pre ++ e :: post ∧
      tlb.insert pid vpn pfn writable =
        { tlb with
          accessTick := tlb.accessTick + 1
          entries := pre ++ freshEntry tlb pid vpn pfn writable :: post } ∧
      (((∀ x ∈ pre, x.valid = true ∧ TLB.isFor pid vpn x = false) ∧
          (e.valid = false ∨ TLB.isFor pid vpn e = true)) ∨
        (∀ x ∈ tlb.entries, x.valid = true ∧ TLB.isFor pid vpn x = false) ∧
          ∀ x ∈ tlb.entries, e.lastAccess ≤ x.lastAccess) := by
  have hset : ∀ pre e post, tlb.entries = pre ++ e :: post →
      TLB.insertSlot pid vpn tlb.entries 0 0 (tlb.accessTick + 1 + 1) = 0 + pre.length →
      tlb.insert pid vpn pfn writable =
        { tlb with
          accessTick := tlb.accessTick + 1
          entries := pre ++ freshEntry tlb pid vpn pfn writable :: post } := by
    intro pre e post hsplit hslot
    unfold TLB.insert
    dsimp only
    rw [hslot, Nat.zero_add, hsplit, set_length_append]
    rfl
  cases hfind : tlb.entries.find? (opens pid vpn) with
  | some e =>
    obtain ⟨he, pre, post, hsplit, hpre⟩ := List.find?_eq_some_iff_append.mp hfind
    have hbusy : ∀ x ∈ pre, opens pid vpn x = false := by simpa using hpre
    refine ⟨pre, e, post, hsplit, hset pre e post hsplit ?_, .inl ⟨?_, opens_iff.mp he⟩⟩
    · rw [hsplit]
      exact insertSlot_of_opens hbusy he ..
    · exact fun x hx => opens_eq_false_iff.mp (hbusy x hx)
  | none =>
    have hfull : ∀ x ∈ tlb.entries, opens pid vpn x = false := by
      simpa using List.find?_eq_none.mp hfind
    have hslot := insertSlot_of_full hfull 0 0 (tlb.accessTick + 1 + 1)
    have hall := fun x hx => opens_eq_false_iff.mp (hfull x hx)
    rcases scanLeast_spec TLBEntry.lastAccess tlb.entries 0 0 (tlb.accessTick + 1 + 1) with
      ⟨-, hle⟩ | ⟨pre, e, post, hsplit, hscan, -, hle⟩
    · -- every time stamp is in the past
      obtain ⟨e, he⟩ := List.exists_mem_of_ne_nil _ hpos
      have := hle e he
      have := hpast e he (hall e he).1
      omega
    · exact ⟨pre, e, post, hsplit, hset pre e post hsplit (hslot.trans hscan), .inr ⟨hall, hle⟩⟩

end Scans

/-! ## Entries in the order of their last access -/

theorem slotOf_of_valid (he : e.valid = true) : slotOf e = some ⟨entryKey e, e.pfn, e.lastAccess⟩ :=
  if_pos he

theorem slotOf_eq_some_iff {x : Stamped Page UInt64} :
    slotOf e = some x ↔ e.valid = true ∧ x = ⟨entryKey e, e.pfn, e.lastAccess⟩ := by
  unfold slotOf
  cases e.valid <;> simp [eq_comm]

/-- `order` lists the valid entries, newest first. -/
structure Ordered (entries : List TLBEntry) (tick : ℤ) (order : List (Stamped Page UInt64)) :
    Prop where
  stamps : ByStamp (entries.map slotOf) tick order
  packed : (entries.map TLBEntry.valid).Pairwise fun a b => b = true → a = true

section Ordered

variable {entries pre post : List TLBEntry} {e e' : TLBEntry} {tick : ℤ}
  {order : List (Stamped Page UInt64)}

theorem Ordered.mem_iff (h : Ordered entries tick order) {x : Stamped Page UInt64} :
    x ∈ order ↔ ∃ e ∈ entries, e.valid = true ∧ x = ⟨entryKey e, e.pfn, e.lastAccess⟩ := by
  rw [h.stamps.mem_iff, List.mem_map]
  simp only [slotOf_eq_some_iff]

theorem Ordered.length_le (h : Ordered entries tick order) : order.length ≤ entries.length := by
  have := h.stamps.length_le
  rwa [List.length_map] at this

theorem Ordered.length_eq (h : Ordered entries tick order)
    (hall : ∀ x ∈ entries, x.valid = true) : order.length = entries.length := by
  have hnone : none ∉ entries.map slotOf := by
    intro hmem
    obtain ⟨x, hx, hxn⟩ := List.mem_map.mp hmem
    rw [slotOf_of_valid (hall x hx)] at hxn
    cases hxn
  have := h.stamps.length_eq hnone
  rwa [List.length_map] at this

/-- A page that no valid entry is for is not listed. -/
theorem Ordered.key_ne (h : Ordered entries tick order)
    (hno : ∀ y ∈ entries, y.valid = true → TLB.isFor pid vpn y = false) :
    ∀ x ∈ order, x.key ≠ (pid, vpn) := by
  intro x hx
  obtain ⟨y, hy, hvalid, rfl⟩ := h.mem_iff.mp hx
  exact isFor_eq_false_iff.mp (hno y hy hvalid) hvalid

theorem slots_split (pre : List TLBEntry) (e : TLBEntry) (post : List TLBEntry) :
    (pre ++ e :: post).map slotOf = pre.map slotOf ++ slotOf e :: post.map slotOf := by
  rw [List.map_append, List.map_cons]

/-- Behind an empty slot all slots are empty. -/
theorem Ordered.mem_pre (h : Ordered (pre ++ e :: post) tick order) (he : e.valid = false)
    {x : TLBEntry} (hx : x ∈ pre ++ e :: post) (hvalid : x.valid = true) : x ∈ pre := by
  have hpacked := h.packed
  rw [List.map_append, List.map_cons, List.pairwise_append, List.pairwise_cons] at hpacked
  rcases List.mem_append.mp hx with hx | hx
  · exact hx
  · exfalso
    rcases List.mem_cons.mp hx with rfl | hx
    · rw [he] at hvalid
      cases hvalid
    · have := hpacked.2.1.1 x.valid (List.mem_map_of_mem hx) hvalid
      rw [he] at this
      cases this

/-- An entry is replaced by a newer one with the same key. -/
theorem Ordered.refresh (h : Ordered (pre ++ e :: post) tick order) (he : e.valid = true)
    (he' : e'.valid = true) (hkey : entryKey e' = entryKey e) (hnew : e'.lastAccess = tick + 1) :
    Ordered (pre ++ e' :: post) (tick + 1)
      (⟨entryKey e', e'.pfn, e'.lastAccess⟩ :: order.filter fun x => x.key ≠ entryKey e) := by
  have hstamps := h.stamps
  rw [slots_split, slotOf_of_valid he] at hstamps
  constructor
  · rw [slots_split, slotOf_of_valid he']
    exact hstamps.renew hkey hnew
  · have hmap : (pre ++ e' :: post).map TLBEntry.valid = (pre ++ e :: post).map TLBEntry.valid := by
      simp [he, he']
    rw [hmap]
    exact h.packed

/-- The first empty slot is filled. -/
theorem Ordered.fill (h : Ordered (pre ++ e :: post) tick order)
    (hpre : ∀ x ∈ pre, x.valid = true) (he : e.valid = false) (he' : e'.valid = true)
    (hkey : ∀ x ∈ order, x.key ≠ entryKey e') (hnew : e'.lastAccess = tick + 1) :
    Ordered (pre ++ e' :: post) (tick + 1) (⟨entryKey e', e'.pfn, e'.lastAccess⟩ :: order) := by
  have hempty : slotOf e = none := if_neg (by simp [he])
  have hstamps := h.stamps
  rw [slots_split, hempty] at hstamps
  have hpacked := h.packed
  rw [List.map_append, List.map_cons, List.pairwise_append, List.pairwise_cons] at hpacked
  obtain ⟨hpackPre, ⟨-, hpackPost⟩, -⟩ := hpacked
  constructor
  · rw [slots_split, slotOf_of_valid he']
    exact hstamps.fill hkey hnew
  · rw [List.map_append, List.map_cons, List.pairwise_append, List.pairwise_cons]
    refine ⟨hpackPre, ⟨fun _ _ _ => he', hpackPost⟩, ?_⟩
    intro a ha _ _ _
    obtain ⟨x, hx, rfl⟩ := List.mem_map.mp ha
    exact hpre x hx

/-- When all slots are full, the oldest entry makes room. -/
theorem Ordered.evict (h : Ordered (pre ++ e :: post) tick order)
    (hall : ∀ x ∈ pre ++ e :: post, x.valid = true)
    (hmin : ∀ x ∈ pre ++ e :: post, e.lastAccess ≤ x.lastAccess) (he' : e'.valid = true)
    (hkey : ∀ x ∈ order, x.key ≠ entryKey e') (hnew : e'.lastAccess = tick + 1) :
    Ordered (pre ++ e' :: post) (tick + 1)
      (⟨entryKey e', e'.pfn, e'.lastAccess⟩ :: order.dropLast) := by
  have he : e.valid = true := hall e (by simp)
  have hstamps := h.stamps
  have hleast : ∀ y, some y ∈ (pre ++ e :: post).map slotOf → e.lastAccess ≤ y.stamp := by
    intro y hy
    obtain ⟨x, hx, hxy⟩ := List.mem_map.mp hy
    rw [(slotOf_eq_some_iff.mp hxy).2]
    exact hmin x hx
  rw [slots_split, slotOf_of_valid he] at hstamps hleast
  constructor
  · rw [slots_split, slotOf_of_valid he']
    exact hstamps.evict hleast hkey hnew
  · have hall' : ∀ x ∈ pre ++ e' :: post, x.valid = true := by
      intro x hx
      rcases List.mem_append.mp hx with hx | hx
      · exact hall x (by simp [hx])
      · rcases List.mem_cons.mp hx with rfl | hx
        · exact he'
        · exact hall x (by simp [hx])
    rw [List.pairwise_map]
    exact List.pairwise_of_forall_mem_list fun x hx _ _ _ => hall' x hx

end Ordered

/-! ## The TLB as a cache -/

/-- The valid entries, read as keys and values, are the given cache. -/
def Caches (tlb : TLB) (cache : List (Page × UInt64)) : Prop :=
  ∃ order, Ordered tlb.entries tlb.accessTick order ∧
    order.map (fun x => (x.key, x.value)) = cache

section Caches

variable {tlb : TLB} {cache : List (Page × UInt64)}

theorem keys_map_order (order : List (Stamped Page UInt64)) :
    (order.map fun x => (x.key, x.value)).map Prod.fst = order.map Stamped.key := by
  rw [List.map_map]
  rfl

theorem Caches.keys_nodup (h : Caches tlb cache) : (cache.map Prod.fst).Nodup := by
  obtain ⟨order, hord, rfl⟩ := h
  rw [keys_map_order]
  exact hord.stamps.keys

/-- The keys of the cache are the keys of the valid entries. -/
theorem Caches.keys_perm (h : Caches tlb cache) :
    (cache.map Prod.fst).Perm ((tlb.entries.filter TLBEntry.valid).map entryKey) := by
  obtain ⟨order, hord, rfl⟩ := h
  rw [keys_map_order]
  have hslots : (tlb.entries.map slotOf).reduceOption.map Stamped.key =
      (tlb.entries.filter TLBEntry.valid).map entryKey := by
    induction tlb.entries with
    | nil => rfl
    | cons e entries ih =>
      rw [List.map_cons]
      cases he : e.valid with
      | false =>
        rw [slotOf, he, if_neg (by simp), List.reduceOption_cons_of_none,
          List.filter_cons_of_neg (by simp [he])]
        exact ih
      | true =>
        rw [slotOf_of_valid he, List.reduceOption_cons_of_some, List.filter_cons_of_pos he,
          List.map_cons, List.map_cons, ih]
  rw [← hslots]
  exact hord.stamps.perm.map Stamped.key

theorem Caches.find_of_mem (h : Caches tlb cache) (he : e ∈ tlb.entries)
    (hfor : TLB.isFor pid vpn e = true) : Lru.find (pid, vpn) cache = some e.pfn := by
  obtain ⟨hvalid, hkey⟩ := isFor_iff.mp hfor
  have hnodup := h.keys_nodup
  obtain ⟨order, hord, rfl⟩ := h
  apply Lru.find_eq_some_of_mem hnodup
  rw [← hkey]
  exact List.mem_map.mpr ⟨_, hord.mem_iff.mpr ⟨e, he, hvalid, rfl⟩, rfl⟩

theorem Caches.find_eq_none (h : Caches tlb cache)
    (hno : ∀ e ∈ tlb.entries, TLB.isFor pid vpn e = false) : Lru.find (pid, vpn) cache = none := by
  rw [← Option.not_isSome_iff_eq_none, Lru.find_isSome_iff, h.keys_perm.mem_iff]
  intro hmem
  obtain ⟨e, he, hkey⟩ := List.mem_map.mp hmem
  obtain ⟨he, hvalid⟩ := List.mem_filter.mp he
  exact isFor_eq_false_iff.mp (hno e he) hvalid hkey

theorem touch_map_order (order : List (Stamped Page UInt64)) (x : Stamped Page UInt64) :
    Lru.touch x.key x.value (order.map fun x => (x.key, x.value)) =
      (x :: order.filter fun y => y.key ≠ x.key).map fun x => (x.key, x.value) := by
  rw [Lru.touch, List.map_cons, List.filter_map]
  rfl

/-- **`Lookup` is the lookup of the cache.** -/
theorem Caches.lookup (h : Caches tlb cache) (pid : ℤ) (vpn : UInt64) :
    (tlb.lookup pid vpn).1 = (Lru.lookup (pid, vpn) cache).1 ∧
      Caches (tlb.lookup pid vpn).2 (Lru.lookup (pid, vpn) cache).2 := by
  unfold Lru.lookup
  rcases lookup_cases tlb pid vpn with ⟨pre, e, post, hsplit, hfor, heq⟩ | ⟨hno, heq⟩
  · rw [heq, h.find_of_mem (hsplit ▸ by simp) hfor]
    refine ⟨rfl, ?_⟩
    obtain ⟨hvalid, hkey⟩ := isFor_iff.mp hfor
    obtain ⟨order, hord, rfl⟩ := h
    rw [hsplit] at hord
    let e' : TLBEntry := { e with lastAccess := tlb.accessTick + 1 }
    have hord' : Ordered (pre ++ e' :: post) (tlb.accessTick + 1) _ :=
      hord.refresh hvalid hvalid rfl rfl
    refine ⟨_, hord', ?_⟩
    rw [← hkey]
    exact (touch_map_order order ⟨entryKey e, e.pfn, e'.lastAccess⟩).symm
  · rw [heq, h.find_eq_none hno]
    obtain ⟨order, hord, rfl⟩ := h
    exact ⟨rfl, order, ⟨hord.stamps.later, hord.packed⟩, rfl⟩

/-- **`Insert` is the insert of the cache**, bounded by the number of slots. -/
theorem Caches.insert (h : Caches tlb cache) (hpos : tlb.entries ≠ []) (pid : ℤ)
    (vpn pfn : UInt64) (writable : Bool) :
    Caches (tlb.insert pid vpn pfn writable)
      (Lru.insert tlb.entries.length (pid, vpn) pfn cache) := by
  obtain ⟨order, hord, rfl⟩ := h
  have hpast : ∀ e ∈ tlb.entries, e.valid = true → e.lastAccess ≤ tlb.accessTick :=
    fun e he hvalid => hord.stamps.past _ (hord.mem_iff.mpr ⟨e, he, hvalid, rfl⟩)
  obtain ⟨pre, e, post, hsplit, hins, hcase⟩ := insert_cases pid vpn pfn writable hpos hpast
  let x' : Stamped Page UInt64 := ⟨(pid, vpn), pfn, tlb.accessTick + 1⟩
  rw [hins, Lru.insert, touch_map_order order x', ← List.map_take]
  -- when no item has the key, nothing is filtered out
  have hfresh : (∀ x ∈ order, x.key ≠ (pid, vpn)) → (order.filter fun x => x.key ≠ x'.key) = order :=
    fun hkeys => List.filter_eq_self.mpr fun x hx => by simpa using hkeys x hx
  have hfits : ∀ order', Ordered (pre ++ freshEntry tlb pid vpn pfn writable :: post)
      (tlb.accessTick + 1) order' → order'.take tlb.entries.length = order' := by
    intro order' hord'
    apply List.take_of_length_le
    have := hord'.length_le
    rw [hsplit]
    simpa using this
  rw [hsplit] at hord hcase
  rcases hcase with ⟨hpre, hempty | hfor⟩ | ⟨hall, hmin⟩
  · have hkeys := hord.key_ne fun y hy hvalid => (hpre y (hord.mem_pre hempty hy hvalid)).2
    have hord' : Ordered (pre ++ freshEntry tlb pid vpn pfn writable :: post) (tlb.accessTick + 1)
        (x' :: order) := hord.fill (fun x hx => (hpre x hx).1) hempty rfl hkeys rfl
    rw [hfresh hkeys, hfits _ hord']
    exact ⟨_, hord', rfl⟩
  · obtain ⟨hvalid, hkey⟩ := isFor_iff.mp hfor
    have hord' : Ordered (pre ++ freshEntry tlb pid vpn pfn writable :: post) (tlb.accessTick + 1)
        (x' :: order.filter fun x => x.key ≠ entryKey e) := hord.refresh hvalid rfl hkey.symm rfl
    rw [hkey] at hord'
    rw [hfits _ hord']
    exact ⟨_, hord', rfl⟩
  · have hkeys := hord.key_ne fun y hy _ => (hall y hy).2
    have hfull : order.length = tlb.entries.length := by
      rw [hsplit]
      exact hord.length_eq fun x hx => (hall x hx).1
    have hdrop : (x' :: order).take tlb.entries.length = x' :: order.dropLast := by
      obtain ⟨m, hm⟩ := Nat.exists_eq_succ_of_ne_zero (List.length_pos_iff.mpr hpos).ne'
      rw [List.dropLast_eq_take, hfull, hm, List.take_succ_cons]
      rfl
    rw [hfresh hkeys, hdrop]
    exact ⟨_, hord.evict (fun x hx => (hall x hx).1) hmin rfl hkeys rfl, rfl⟩

theorem caches_of_invalid {tlb : TLB} (h : ∀ e ∈ tlb.entries, e.valid = false) : Caches tlb [] := by
  refine ⟨[], ⟨ByStamp.of_empty _ ?_, ?_⟩, rfl⟩
  · intro x hx
    obtain ⟨e, he, rfl⟩ := List.mem_map.mp hx
    exact if_neg (by simp [h e he])
  · rw [List.pairwise_map]
    refine List.pairwise_of_forall_mem_list fun a _ b hb hvalid => ?_
    rw [h b hb] at hvalid
    cases hvalid

theorem caches_flush (tlb : TLB) : Caches tlb.flush [] := by
  apply caches_of_invalid
  intro e he
  obtain ⟨x, -, rfl⟩ := List.mem_map.mp he
  rfl

theorem caches_newTLB (capacity : Int64) : Caches (newTLB capacity) [] := by
  apply caches_of_invalid
  intro e he
  rw [List.eq_of_mem_replicate he]

end Caches

end OsSimulator.Interface
