import OsSimulator.Interface.FrameTable
import OsSimulator.Library.DemandPager
import OsSimulator.Library.StampedSlots
import Mathlib.Data.List.Rotate

/-!
# The frame table as a demand pager

`Follows` relates a frame table to the state of the textbook pager of the same policy.  Under
FIFO and LRU the resident pages are listed in the order of their time stamps (`ByAge`), under
CLOCK in the order in which the hand meets the frames (`OnClock`).

For each policy there are three steps: a touched frame (`Follows.touch`), a page loaded into
the first free frame (`Follows.loadFree`), and a page loaded over the victim of the policy
(`Follows.loadVictim`).
-/

set_option autoImplicit false

namespace OsSimulator.Interface

open Model Library

/-- A frame with the stamp that the policy reads. -/
def stampedFrame (key : FrameInfo → ℤ) (f : FrameInfo) : Option (Stamped Page Unit) :=
  (framePage f).map fun p => ⟨p, (), key f⟩

/-- The pages from the oldest stamp to the newest. -/
def ByAge (key : FrameInfo → ℤ) (frames : List FrameInfo) (tick : ℤ) (q : List (Page × Bool)) :
    Prop :=
  ∃ order, ByStamp (frames.map (stampedFrame key)) tick order ∧
    DemandPager.pages q = (order.map Stamped.key).reverse

/-- A frame as the clock sees it. -/
def frameBit (f : FrameInfo) : Option (Page × Bool) := (framePage f).map fun p => (p, f.useBit)

/-- The pages in the order of the hand.  The hand leaves frame `0` only when all frames are
occupied, and until then the frames are filled in order. -/
structure OnClock (frames : List FrameInfo) (hand : ℕ) (q : List (Page × Bool)) : Prop where
  ring : q = (frames.rotate hand).filterMap frameBit
  packed : (frames.map FrameInfo.isOccupied).Pairwise fun a b => b = true → a = true
  turned : hand ≠ 0 → ∀ f ∈ frames, f.isOccupied = true

/-- The frame table is in the state `q` of the pager of policy `R`. -/
def Follows (R : Replacement) (frames : List FrameInfo) (hand : ℕ) (tick : ℤ)
    (q : List (Page × Bool)) : Prop :=
  match R with
  | .fifo => ByAge FrameInfo.loadedTick frames tick q
  | .lru => ByAge FrameInfo.lastUsedTick frames tick q
  | .clock => OnClock frames hand q

/-! ## By age -/

section ByAge

variable {key : FrameInfo → ℤ} {frames pre post : List FrameInfo} {tick : ℤ}
  {q : List (Page × Bool)} {f f' : FrameInfo} {p : Page}

theorem slots_frames (pre : List FrameInfo) (f : FrameInfo) (post : List FrameInfo) :
    (pre ++ f :: post).map (stampedFrame key) =
      pre.map (stampedFrame key) ++ stampedFrame key f :: post.map (stampedFrame key) := by
  rw [List.map_append, List.map_cons]

theorem stampedFrame_of_page (hf : framePage f = some p) :
    stampedFrame key f = some ⟨p, (), key f⟩ := by
  rw [stampedFrame, hf]
  rfl

theorem ByAge.mem_pages (h : ByAge key frames tick q) :
    p ∈ DemandPager.pages q ↔ ∃ f ∈ frames, framePage f = some p := by
  obtain ⟨order, hord, hq⟩ := h
  rw [hq, List.mem_reverse, List.mem_map]
  constructor
  · rintro ⟨x, hx, rfl⟩
    obtain ⟨f, hf, hfx⟩ := List.mem_map.mp (hord.mem_iff.mp hx)
    obtain ⟨p, hp, rfl⟩ := Option.map_eq_some_iff.mp hfx
    exact ⟨f, hf, hp⟩
  · rintro ⟨f, hf, hp⟩
    exact ⟨⟨p, (), key f⟩,
      hord.mem_iff.mpr (List.mem_map.mpr ⟨f, hf, stampedFrame_of_page hp⟩), rfl⟩

theorem length_pages (q : List (Page × Bool)) : (DemandPager.pages q).length = q.length :=
  List.length_map ..

theorem ByAge.length_lt (h : ByAge key frames tick q) (hf : f ∈ frames) (hfree : framePage f = none) :
    q.length < frames.length := by
  obtain ⟨order, hord, hq⟩ := h
  have hnone : none ∈ frames.map (stampedFrame key) :=
    List.mem_map.mpr ⟨f, hf, by rw [stampedFrame, hfree]; rfl⟩
  have := hord.length_lt hnone
  rw [← length_pages, hq]
  simpa using this

theorem ByAge.length_eq (h : ByAge key frames tick q)
    (hfull : ∀ f ∈ frames, framePage f ≠ none) : q.length = frames.length := by
  obtain ⟨order, hord, hq⟩ := h
  have hsome : none ∉ frames.map (stampedFrame key) := by
    intro hmem
    obtain ⟨f, hf, hfn⟩ := List.mem_map.mp hmem
    exact hfull f hf (Option.map_eq_none_iff.mp hfn)
  have := hord.length_eq hsome
  rw [← length_pages, hq]
  simpa using this

/-- Frames that keep their pages and their stamps. -/
theorem ByAge.congr {frames' : List FrameInfo} (h : ByAge key frames tick q)
    (hsame : frames'.map (stampedFrame key) = frames.map (stampedFrame key)) :
    ByAge key frames' (tick + 1) q := by
  obtain ⟨order, hord, hq⟩ := h
  refine ⟨order, ?_, hq⟩
  rw [hsame]
  exact hord.later

/-- A page that gets a new stamp becomes the youngest. -/
theorem ByAge.renew (h : ByAge key (pre ++ f :: post) tick q) (hf : framePage f = some p)
    (hf' : framePage f' = some p) (hkey : key f' = tick + 1) :
    ByAge key (pre ++ f' :: post) (tick + 1) (DemandPager.use .lru p q) := by
  obtain ⟨order, hord, hq⟩ := h
  rw [slots_frames, stampedFrame_of_page hf] at hord
  refine ⟨⟨p, (), key f'⟩ :: order.filter fun x => x.key ≠ p, ?_, ?_⟩
  · rw [slots_frames, stampedFrame_of_page hf']
    exact hord.renew rfl hkey
  · have hpages : DemandPager.pages (DemandPager.use .lru p q) =
        (DemandPager.pages q).filter (· ≠ p) ++ [p] := by
      unfold DemandPager.pages DemandPager.use
      rw [List.map_append, List.filter_map]
      rfl
    rw [hpages, hq, List.map_cons, List.reverse_cons, List.filter_reverse, List.filter_map]
    rfl

/-- A page is loaded into a free frame. -/
theorem ByAge.fill (h : ByAge key (pre ++ f :: post) tick q) (hf : framePage f = none)
    (hf' : framePage f' = some p) (hkey : key f' = tick + 1) (hp : p ∉ DemandPager.pages q) :
    ByAge key (pre ++ f' :: post) (tick + 1) (q ++ [(p, true)]) := by
  obtain ⟨order, hord, hq⟩ := h
  have hfree : stampedFrame key f = none := by rw [stampedFrame, hf]; rfl
  rw [slots_frames, hfree] at hord
  refine ⟨⟨p, (), key f'⟩ :: order, ?_, ?_⟩
  · rw [slots_frames, stampedFrame_of_page hf']
    refine hord.fill (fun y hy heq => hp ?_) hkey
    rw [hq, List.mem_reverse]
    exact List.mem_map.mpr ⟨y, hy, heq⟩
  · rw [DemandPager.pages_append, hq, List.map_cons, List.reverse_cons]
    rfl

/-- The page with the oldest stamp is the first of the pager. -/
theorem ByAge.evict (h : ByAge key (pre ++ f :: post) tick q)
    (hfull : ∀ x ∈ pre ++ f :: post, framePage x ≠ none)
    (hmin : ∀ x ∈ pre ++ f :: post, key f ≤ key x) (hf' : framePage f' = some p)
    (hkey : key f' = tick + 1) (hp : p ∉ DemandPager.pages q) :
    ∃ v b rest, framePage f = some v ∧ q = (v, b) :: rest ∧
      ByAge key (pre ++ f' :: post) (tick + 1) (rest ++ [(p, true)]) := by
  obtain ⟨v, hv⟩ := Option.ne_none_iff_exists'.mp (hfull f (by simp))
  obtain ⟨order, hord, hq⟩ := h
  have hleast : ∀ y, some y ∈ (pre ++ f :: post).map (stampedFrame key) → key f ≤ y.stamp := by
    intro y hy
    obtain ⟨x, hx, hxy⟩ := List.mem_map.mp hy
    obtain ⟨-, -, rfl⟩ := Option.map_eq_some_iff.mp hxy
    exact hmin x hx
  rw [slots_frames, stampedFrame_of_page hv] at hord hleast
  have hlast := hord.eq_concat_oldest (List.mem_append_right _ List.mem_cons_self) hleast
  have hpages : DemandPager.pages q = v :: (order.dropLast.map Stamped.key).reverse := by
    rw [hq]
    conv_lhs => rw [hlast]
    rw [List.map_append, List.reverse_append]
    rfl
  cases q with
  | nil => cases hpages
  | cons x rest =>
    obtain ⟨hxv, hrest⟩ := List.cons.inj hpages
    refine ⟨x.1, x.2, rest, hv.trans (congrArg some hxv.symm), rfl,
      ⟨p, (), key f'⟩ :: order.dropLast, ?_, ?_⟩
    · rw [slots_frames, stampedFrame_of_page hf']
      refine hord.evict hleast (fun y hy heq => hp ?_) hkey
      rw [hq, List.mem_reverse]
      exact List.mem_map.mpr ⟨y, hy, heq⟩
    · rw [DemandPager.pages_append, List.map_cons, List.reverse_cons]
      exact congrArg (· ++ [p]) hrest

theorem scanOldest_eq_scanLeast (frames : List FrameInfo) (i victimIdx : ℕ) (oldest : ℤ) :
    scanOldest key frames i victimIdx oldest = scanLeast key frames i victimIdx oldest := by
  induction frames generalizing i victimIdx oldest with
  | nil => rfl
  | cons f frames ih => rw [scanOldest, scanLeast, ih, ih]

theorem oldestFrame_spec (key : FrameInfo → ℤ) (hne : frames ≠ []) :
    ∃ pre f post, frames = pre ++ f :: post ∧ oldestFrame key frames = pre.length ∧
      ∀ x ∈ frames, key f ≤ key x := by
  obtain ⟨f, frames, rfl⟩ := List.exists_cons_of_ne_nil hne
  show ∃ pre g post, _ ∧ scanOldest key frames 1 0 (key f) = _ ∧ _
  rw [scanOldest_eq_scanLeast]
  rcases scanLeast_spec key frames 1 0 (key f) with
    ⟨hscan, hle⟩ | ⟨pre, g, post, rfl, hscan, hg, hle⟩
  · exact ⟨[], f, frames, rfl, hscan, List.forall_mem_cons.mpr ⟨Int.le_refl _, hle⟩⟩
  · refine ⟨f :: pre, g, post, rfl, ?_, List.forall_mem_cons.mpr ⟨Int.le_of_lt hg, hle⟩⟩
    rw [hscan, List.length_cons]
    omega

end ByAge

/-! ## On the clock -/

section OnClock

variable {frames pre post : List FrameInfo} {hand : ℕ} {q : List (Page × Bool)}
  {f f' : FrameInfo} {p : Page}

theorem framePage_ne_none_iff : framePage f ≠ none ↔ f.isOccupied = true := by
  unfold framePage
  cases f.isOccupied <;> simp

theorem frameBit_of_page (hf : framePage f = some p) : frameBit f = some (p, f.useBit) := by
  rw [frameBit, hf]
  rfl

theorem OnClock.mem_pages (h : OnClock frames hand q) :
    p ∈ DemandPager.pages q ↔ ∃ f ∈ frames, framePage f = some p := by
  rw [h.ring, DemandPager.pages, List.mem_map]
  constructor
  · rintro ⟨x, hx, rfl⟩
    obtain ⟨f, hf, hfx⟩ := List.mem_filterMap.mp hx
    obtain ⟨p, hp, rfl⟩ := Option.map_eq_some_iff.mp hfx
    exact ⟨f, List.mem_rotate.mp hf, hp⟩
  · rintro ⟨f, hf, hp⟩
    exact ⟨(p, f.useBit),
      List.mem_filterMap.mpr ⟨f, List.mem_rotate.mpr hf, frameBit_of_page hp⟩, rfl⟩

/-- When all frames are occupied, the ring is the list of frames from the hand on. -/
theorem length_ring (hfull : ∀ f ∈ frames, f.isOccupied = true) :
    ((frames.rotate hand).filterMap frameBit).length = frames.length := by
  rw [List.length_filterMap_eq_countP, List.countP_eq_length.mpr, List.length_rotate]
  intro f hf
  obtain ⟨p, hp⟩ := Option.ne_none_iff_exists'.mp
    (framePage_ne_none_iff.mpr (hfull f (List.mem_rotate.mp hf)))
  rw [frameBit_of_page hp]
  rfl

theorem length_ring_lt (hf : f ∈ frames) (hfree : framePage f = none) :
    ((frames.rotate hand).filterMap frameBit).length < frames.length := by
  rw [List.length_filterMap_eq_countP, ← List.length_rotate frames hand]
  refine lt_of_le_of_ne List.countP_le_length fun heq => ?_
  have := List.countP_eq_length.mp heq f (List.mem_rotate.mpr hf)
  rw [frameBit, hfree] at this
  cases this

/-- A change to the frames that keeps them occupied or free changes the ring frame by frame. -/
theorem OnClock.map (h : OnClock frames hand q) {g : FrameInfo → FrameInfo}
    {k : Page × Bool → Page × Bool} (hocc : ∀ x, (g x).isOccupied = x.isOccupied)
    (hbit : ∀ x, frameBit (g x) = (frameBit x).map k) : OnClock (frames.map g) hand (q.map k) := by
  refine ⟨?_, ?_, fun hhand x hx => ?_⟩
  · rw [h.ring, ← List.map_rotate, List.filterMap_map, List.map_filterMap]
    exact List.filterMap_congr fun x _ => (hbit x).symm
  · rw [List.map_map, show FrameInfo.isOccupied ∘ g = FrameInfo.isOccupied from funext hocc]
    exact h.packed
  · obtain ⟨y, hy, rfl⟩ := List.mem_map.mp hx
    rw [hocc]
    exact h.turned hhand y hy

/-- A frame is touched whose page is in no other frame. -/
theorem OnClock.touch (h : OnClock (pre ++ f :: post) hand q) (hf : framePage f = some p)
    (hf' : framePage f' = some p) (huse : f'.useBit = true)
    (hother : ∀ x ∈ pre ++ post, framePage x ≠ some p) :
    OnClock (pre ++ f' :: post) hand (DemandPager.use .clock p q) := by
  let g : FrameInfo → FrameInfo := fun x => if framePage x = some p then f' else x
  have hkeep : ∀ l : List FrameInfo, (∀ x ∈ l, framePage x ≠ some p) → l.map g = l := by
    intro l hl
    conv_rhs => rw [← List.map_id l]
    exact List.map_congr_left fun x hx => if_neg (hl x hx)
  have hmap : pre ++ f' :: post = (pre ++ f :: post).map g := by
    rw [List.map_append, List.map_cons, hkeep pre fun x hx => hother x (List.mem_append_left _ hx),
      hkeep post fun x hx => hother x (List.mem_append_right _ hx)]
    simp [g, hf]
  have hocc : ∀ {x : FrameInfo}, framePage x = some p → x.isOccupied = true := fun hx =>
    framePage_ne_none_iff.mp (by simp [hx])
  rw [hmap]
  refine h.map (fun x => ?_) fun x => ?_
  · by_cases hx : framePage x = some p
    · rw [show g x = f' from if_pos hx, hocc hf', hocc hx]
    · rw [show g x = x from if_neg hx]
  · by_cases hx : framePage x = some p
    · rw [show g x = f' from if_pos hx, frameBit_of_page hf', frameBit_of_page hx, huse]
      simp
    · rw [show g x = x from if_neg hx, frameBit]
      cases hxp : framePage x with
      | none => rfl
      | some y =>
        have hyp : y ≠ p := fun heq => hx (heq ▸ hxp)
        simp [hyp]

/-- A page is loaded into the first free frame. -/
theorem OnClock.fill (h : OnClock (pre ++ f :: post) hand q) (hpre : ∀ x ∈ pre, x.isOccupied = true)
    (hf : f.isOccupied = false) (hf' : framePage f' = some p) (huse : f'.useBit = true) :
    OnClock (pre ++ f' :: post) hand (q ++ [(p, true)]) := by
  have hocc' : f'.isOccupied = true := framePage_ne_none_iff.mp (by rw [hf']; simp)
  have hhand : hand = 0 := by
    by_contra hne
    have := h.turned hne f (by simp)
    rw [hf] at this
    cases this
  have hpacked := h.packed
  rw [List.map_append, List.map_cons, List.pairwise_append, List.pairwise_cons] at hpacked
  obtain ⟨hpackPre, ⟨hpost, hpackPost⟩, -⟩ := hpacked
  -- behind a free frame all frames are free
  have hfree : ∀ x ∈ f :: post, frameBit x = none := by
    intro x hx
    have hnot : x.isOccupied = false := by
      rcases List.mem_cons.mp hx with rfl | hx
      · exact hf
      · by_contra hocc
        rw [Bool.not_eq_false] at hocc
        have := hpost x.isOccupied (List.mem_map_of_mem hx) hocc
        rw [hf] at this
        cases this
    rw [frameBit, framePage, hnot]
    rfl
  have hnil : ∀ l : List FrameInfo, (∀ x ∈ l, frameBit x = none) → l.filterMap frameBit = [] :=
    fun l hl => List.filterMap_eq_nil_iff.mpr hl
  refine ⟨?_, ?_, fun hne => absurd hhand hne⟩
  · rw [h.ring, hhand, List.rotate_zero, List.rotate_zero, List.filterMap_append,
      List.filterMap_append, hnil _ hfree, List.filterMap_cons_some (frameBit_of_page hf'), huse,
      hnil post fun x hx => hfree x (List.mem_cons_of_mem f hx), List.append_nil]
  · rw [List.map_append, List.map_cons, List.pairwise_append, List.pairwise_cons]
    refine ⟨hpackPre, ⟨fun _ _ _ => hocc', hpackPost⟩, ?_⟩
    intro a ha _ _ _
    obtain ⟨x, hx, rfl⟩ := List.mem_map.mp ha
    exact hpre x hx

/-- The frame under the hand is the first of the ring.  Writing it and moving on puts it at the
end. -/
theorem ring_at_hand (hget : frames[hand]? = some f) (hf : framePage f = some p) :
    ∃ rest, (frames.rotate hand).filterMap frameBit = (p, f.useBit) :: rest ∧
      ∀ {f' : FrameInfo} {v : Page}, framePage f' = some v →
        ((frames.set hand f').rotate ((hand + 1) % frames.length)).filterMap frameBit =
          rest ++ [(v, f'.useBit)] := by
  obtain ⟨hlt, rfl⟩ := List.getElem?_eq_some_iff.mp hget
  refine ⟨(frames.drop (hand + 1) ++ frames.take hand).filterMap frameBit, ?_, fun {f' v} hv => ?_⟩
  · rw [List.rotate_eq_drop_append_take hlt.le, List.drop_eq_getElem_cons hlt, List.cons_append,
      List.filterMap_cons_some (frameBit_of_page hf)]
  · have hset : frames.set hand f' = (frames.take hand ++ [f']) ++ frames.drop (hand + 1) := by
      rw [List.set_eq_take_append_cons_drop, if_pos hlt, List.append_assoc]
      rfl
    have hlen : hand + 1 = (frames.take hand ++ [f']).length := by
      rw [List.length_append, List.length_take_of_le hlt.le]
      rfl
    have hsize : (frames.set hand f').length = frames.length := List.length_set
    have hrotate : (frames.set hand f').rotate ((hand + 1) % frames.length) =
        frames.drop (hand + 1) ++ frames.take hand ++ [f'] := by
      rw [← hsize, List.rotate_mod, hset]
      nth_rewrite 2 [hlen]
      rw [List.rotate_append_length_eq, List.append_assoc]
    rw [hrotate, List.filterMap_append, List.filterMap_cons_some (frameBit_of_page hv)]
    rfl

/-- **The sweep of the code is the sweep of the textbook clock.** -/
theorem clockSweep_ring {rounds i hand' : ℕ} {frames' : List FrameInfo}
    (hhand : hand < frames.length) (hfull : ∀ f ∈ frames, f.isOccupied = true)
    (h : clockSweep frames.length rounds hand frames = some (i, hand', frames'))
    (hf' : framePage f' = some p) (huse : f'.useBit = true) :
    ∃ v rest, DemandPager.sweep ((frames.rotate hand).filterMap frameBit) = some (v, rest) ∧
      ((frames'.set i f').rotate hand').filterMap frameBit = rest ++ [(p, true)] ∧
      ∀ x ∈ frames', x.isOccupied = true := by
  induction rounds generalizing hand frames with
  | zero => cases h
  | succ rounds ih =>
    have hget := List.getElem?_eq_getElem hhand
    have hocc := hfull _ (List.getElem_mem hhand)
    obtain ⟨v, hv⟩ := Option.ne_none_iff_exists'.mp (framePage_ne_none_iff.mpr hocc)
    obtain ⟨ring, hring, hwrite⟩ := ring_at_hand hget hv
    rw [hring]
    cases hbit : frames[hand].useBit with
    | false =>
      have hclear : useBitAt frames hand = some false := by rw [useBitAt, hget, ← hbit]; rfl
      rw [clockSweep_of_clear hclear] at h
      obtain ⟨rfl, rfl, rfl⟩ := by simpa only [Option.some.injEq, Prod.mk.injEq] using h
      refine ⟨v, ring, DemandPager.sweep_of_unused .., ?_, hfull⟩
      rw [hwrite hf', huse]
    | true =>
      -- the hand clears the bit and the frame goes to the end of the ring
      have hlen : (frames.set hand (passed frames[hand])).length = frames.length :=
        List.length_set
      have hfull' : ∀ x ∈ frames.set hand (passed frames[hand]), x.isOccupied = true := by
        intro x hx
        rcases List.mem_or_eq_of_mem_set hx with hx | rfl
        · exact hfull x hx
        · exact hocc
      rw [clockSweep_of_set hget hbit, ← hlen] at h
      obtain ⟨w, rest, hsweep, hrest⟩ :=
        ih (by rw [hlen]; exact Nat.mod_lt _ (by omega)) hfull' h
      rw [hlen, @hwrite (passed frames[hand]) v hv, passed, ← DemandPager.sweep_of_used]
        at hsweep
      exact ⟨w, rest, hsweep, hrest⟩

end OnClock

/-! ## The three steps -/

/-- The policy of the source. -/
def modelPolicy : Replacement → ReplacementPolicy
  | .fifo => .fifo
  | .lru => .lru
  | .clock => .clock

section Steps

variable {R : Replacement} {frames : List FrameInfo} {hand : ℕ} {tick : ℤ}
  {q : List (Page × Bool)} {p : Page}

theorem Follows.mem_pages (h : Follows R frames hand tick q) :
    p ∈ DemandPager.pages q ↔ ∃ f ∈ frames, framePage f = some p := by
  cases R with
  | fifo => exact ByAge.mem_pages h
  | lru => exact ByAge.mem_pages h
  | clock => exact OnClock.mem_pages h

theorem Follows.length_lt (h : Follows R frames hand tick q) {f : FrameInfo} (hf : f ∈ frames)
    (hfree : f.isOccupied = false) : q.length < frames.length := by
  have hnone : framePage f = none := by
    rw [framePage, hfree]
    rfl
  cases R with
  | fifo => exact ByAge.length_lt h hf hnone
  | lru => exact ByAge.length_lt h hf hnone
  | clock =>
    rw [OnClock.ring h]
    exact length_ring_lt hf hnone

theorem Follows.length_eq (h : Follows R frames hand tick q)
    (hfull : ∀ f ∈ frames, f.isOccupied = true) : q.length = frames.length := by
  have hsome : ∀ f ∈ frames, framePage f ≠ none := fun f hf => framePage_ne_none_iff.mpr (hfull f hf)
  cases R with
  | fifo => exact ByAge.length_eq h hsome
  | lru => exact ByAge.length_eq h hsome
  | clock =>
    rw [OnClock.ring h]
    exact length_ring hfull

/-- A frame as it stands in the table, between those before and those behind it. -/
theorem split_at {i : ℕ} {f : FrameInfo} (hi : frames[i]? = some f) (g : FrameInfo) :
    ∃ pre post, frames = pre ++ f :: post ∧ frames.set i g = pre ++ g :: post ∧
      (∀ x ∈ pre, ∃ j < i, frames[j]? = some x) ∧ ∀ x ∈ post, ∃ j > i, frames[j]? = some x := by
  obtain ⟨hlt, rfl⟩ := List.getElem?_eq_some_iff.mp hi
  refine ⟨frames.take i, frames.drop (i + 1), ?_, ?_, ?_, ?_⟩
  · rw [List.getElem_cons_drop, List.take_append_drop]
  · rw [List.set_eq_take_append_cons_drop, if_pos hlt]
  · intro x hx
    obtain ⟨j, hj, rfl⟩ := List.mem_take_iff_getElem.mp hx
    exact ⟨j, by omega, List.getElem?_eq_getElem _⟩
  · intro x hx
    obtain ⟨j, hj, rfl⟩ := List.mem_drop_iff_getElem.mp hx
    exact ⟨i + 1 + j, by omega, List.getElem?_eq_getElem _⟩

/-- **A resident page is accessed.** -/
theorem Follows.touch (h : Follows R frames hand tick q) {i : ℕ} (isWrite : Bool)
    (hi : framePages frames i = some p)
    (hother : ∀ j, framePages frames j = some p → j = i) :
    Follows R (frames.modify i (touched (tick + 1) isWrite)) hand (tick + 1)
      (DemandPager.use R p q) := by
  obtain ⟨f, hget, hf⟩ := Option.bind_eq_some_iff.mp hi
  obtain ⟨pre, post, hsplit, hset, hbefore, hbehind⟩ :=
    split_at hget (touched (tick + 1) isWrite f)
  have hother' : ∀ x ∈ pre ++ post, framePage x ≠ some p := by
    intro x hx hxp
    have hpage : ∀ j, frames[j]? = some x → framePages frames j = some p := by
      intro j hj
      rw [framePages, hj]
      exact hxp
    rcases List.mem_append.mp hx with hx | hx
    · obtain ⟨j, hj, hjx⟩ := hbefore x hx
      exact absurd (hother j (hpage j hjx)) (by omega)
    · obtain ⟨j, hj, hjx⟩ := hbehind x hx
      exact absurd (hother j (hpage j hjx)) (by omega)
  rw [modify_eq_set hget, hset]
  rw [hsplit] at h
  cases R with
  | fifo =>
    refine ByAge.congr h ?_
    rw [slots_frames, slots_frames]
    rfl
  | lru => exact ByAge.renew h hf hf rfl
  | clock => exact OnClock.touch h hf hf rfl hother'

/-- **A page is loaded into the first free frame.** -/
theorem Follows.loadFree (h : Follows R frames hand tick q) {i : ℕ} (isWrite : Bool)
    (hfind : frames.findIdx? (fun f => !f.isOccupied) = some i) (hp : p ∉ DemandPager.pages q) :
    Follows R (frames.set i (loaded (tick + 1) isWrite i p)) hand (tick + 1) (q ++ [(p, true)]) := by
  obtain ⟨hlt, hfree, hearlier⟩ := List.findIdx?_eq_some_iff_getElem.mp hfind
  obtain ⟨pre, post, hsplit, hset, hbefore, -⟩ :=
    split_at (List.getElem?_eq_getElem hlt) (loaded (tick + 1) isWrite i p)
  have hfree' : frames[i].isOccupied = false := by simpa using hfree
  have hpre : ∀ x ∈ pre, x.isOccupied = true := by
    intro x hx
    obtain ⟨j, hj, hjx⟩ := hbefore x hx
    obtain ⟨-, rfl⟩ := List.getElem?_eq_some_iff.mp hjx
    simpa using hearlier j hj
  have hnone : framePage frames[i] = none := by
    rw [framePage, hfree']
    rfl
  rw [hset]
  generalize frames[i] = f at *
  rw [hsplit] at h
  cases R with
  | fifo => exact ByAge.fill h hnone rfl rfl hp
  | lru => exact ByAge.fill h hnone rfl rfl hp
  | clock => exact OnClock.fill h hpre hfree' rfl rfl

/-- The oldest frame under FIFO and LRU. -/
theorem ByAge.loadOldest {key : FrameInfo → ℤ} (h : ByAge key frames tick q) (hne : frames ≠ [])
    (hfull : ∀ f ∈ frames, framePage f ≠ none) (hp : p ∉ DemandPager.pages q) {f' : FrameInfo}
    (hf' : framePage f' = some p) (hkey : key f' = tick + 1) :
    ∃ v b rest, framePages frames (oldestFrame key frames) = some v ∧ q = (v, b) :: rest ∧
      ByAge key (frames.set (oldestFrame key frames) f') (tick + 1) (rest ++ [(p, true)]) := by
  obtain ⟨pre, f, post, rfl, hidx, hmin⟩ := oldestFrame_spec key hne
  have hset : (pre ++ f :: post).set pre.length f' = pre ++ f' :: post := by simp
  have hget : (pre ++ f :: post)[pre.length]? = some f := by simp
  rw [hidx, hset, framePages, hget]
  exact h.evict hfull hmin hf' hkey hp

/-- **A page is loaded over the victim of the policy.** -/
theorem Follows.loadVictim (h : Follows R frames hand tick q) (hhand : hand < frames.length)
    (hfull : ∀ f ∈ frames, f.isOccupied = true) {i hand' : ℕ} {frames' : List FrameInfo}
    (isWrite : Bool)
    (hvictim : victimOf (modelPolicy R) frames.length hand frames = some (i, hand', frames'))
    (hp : p ∉ DemandPager.pages q) :
    ∃ v rest, DemandPager.evict R q = some (v, rest) ∧
      Follows R (frames'.set i (loaded (tick + 1) isWrite i p)) hand' (tick + 1)
        (rest ++ [(p, true)]) := by
  have hne : frames ≠ [] := List.length_pos_iff.mp (by omega)
  have hsome : ∀ f ∈ frames, framePage f ≠ none := fun f hf => framePage_ne_none_iff.mpr (hfull f hf)
  have hpage : framePage (loaded (tick + 1) isWrite i p) = some p := rfl
  cases R with
  | fifo =>
    simp only [modelPolicy, victimOf, Option.some.injEq, Prod.mk.injEq] at hvictim
    obtain ⟨rfl, rfl, rfl⟩ := hvictim
    obtain ⟨v, b, rest, -, rfl, hage⟩ := ByAge.loadOldest h hne hsome hp hpage rfl
    exact ⟨v, rest, rfl, hage⟩
  | lru =>
    simp only [modelPolicy, victimOf, Option.some.injEq, Prod.mk.injEq] at hvictim
    obtain ⟨rfl, rfl, rfl⟩ := hvictim
    obtain ⟨v, b, rest, -, rfl, hage⟩ := ByAge.loadOldest h hne hsome hp hpage rfl
    exact ⟨v, rest, rfl, hage⟩
  | clock =>
    obtain ⟨v, rest, hsweep, hring, hocc⟩ := clockSweep_ring hhand hfull hvictim hpage rfl
    have hall : ∀ x ∈ frames'.set i (loaded (tick + 1) isWrite i p), x.isOccupied = true := by
      intro x hx
      rcases List.mem_or_eq_of_mem_set hx with hx | rfl
      · exact hocc x hx
      · rfl
    rw [← OnClock.ring h] at hsweep
    refine ⟨v, rest, hsweep, hring.symm, ?_, fun _ => hall⟩
    rw [List.pairwise_map]
    exact List.pairwise_of_forall_mem_list fun x hx _ _ _ => hall x hx

end Steps

end OsSimulator.Interface
