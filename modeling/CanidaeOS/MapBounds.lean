-- The import of the memory map and the bounds of the bitmap. The number of
-- frames is the end of the last FREE entry in whole pages, rounded down. The
-- loop over an entry goes on to its last byte, and the loop over the first
-- 4 MiB always runs to its end.
import CanidaeOS.MemoryMap

open Program Machine Outcome

namespace lobo

/-- The import never stops at an index that is outside of the bitmap. `init`
makes the length of the bitmap the number of frames that it was given, so the
index of every `set`, `free` and `test` is below that number. -/
def StaysInBitmap (map : List awd_physmemmap_t) (fresh : Nat → U8) (g : Globals) : Prop :=
  ∀ fuel e, init_memory fuel map fresh g = .stop e → ¬ bitset.BoundsStop e

/-- The heap has the block of a bitmap for `num` frames: the test that
`kmalloc` makes. -/
def BitmapFits (num : U64) (g : Globals) : Prop :=
  blockAt g 8 + (num / 8 + 1) ≤ g.earlyAllocLimit

instance (num : U64) (g : Globals) : Decidable (BitmapFits num g) :=
  inferInstanceAs (Decidable (_ ≤ _))

/-! ## More fuel -/

theorem free_entries_mono {n m : Nat} (hnm : n ≤ m) {map : List awd_physmemmap_t} {p : pmm}
    (h : free_entries n map p ≠ .spin) : free_entries m map p = free_entries n map p := by
  induction map generalizing p with
  | nil => rfl
  | cons e map ih =>
    unfold free_entries at h ⊢
    split
    · rename_i hfree
      rw [if_pos hfree] at h
      have hturn : loop (freeTurn e.endAddress) n (e.startAddress, p) ≠ .spin := by
        intro hspin
        rw [hspin] at h
        exact h rfl
      rw [loop_mono hnm hturn]
      cases hloop : loop (freeTurn e.endAddress) n (e.startAddress, p) with
      | ok q =>
        rw [hloop] at h
        exact ih h
      | stop why => rfl
      | spin => exact absurd hloop hturn
    · rename_i hother
      rw [if_neg hother] at h
      exact ih h

/-- More fuel keeps a stop of the import. -/
theorem init_memory_mono {n m : Nat} (hnm : n ≤ m) {map : List awd_physmemmap_t} {fresh : Nat → U8}
    {g : Globals} {e : Stop} (h : init_memory n map fresh g = .stop e) :
    init_memory m map fresh g = .stop e := by
  unfold init_memory at h ⊢
  cases hinit : pmm.init (mem_end_address map / 0x1000) fresh g with
  | ok g' =>
    rw [hinit, bind_ok] at h
    have hne : free_entries n map g'.kernel_pmm ≠ .spin := by
      intro hspin
      rw [hspin] at h
      cases h
    rw [bind_ok, free_entries_mono hnm hne]
    exact h
  | stop why =>
    rw [hinit] at h
    exact h
  | spin =>
    rw [hinit] at h
    cases h

/-! ## What the import can stop at -/

theorem steps_lt (e : awd_physmemmap_t) : e.steps < 2 ^ 53 := by
  have := e.endAddress.isLt
  unfold awd_physmemmap_t.steps
  omega

/-- The loop over the pages of an entry ends, at the latest where it leaves the
bitmap. -/
theorem freeTurn.stops {p : pmm} {fuel : Nat} {e : awd_physmemmap_t} (hp : p.Ready)
    (hfuel : 2 ^ 53 ≤ fuel) :
    (loop (freeTurn e.endAddress) fuel (e.startAddress, p)).Meets bitset.BoundsStop
      fun _ => True := by
  have hsteps := steps_lt e
  have hN := hp.pages
  refine loop_meets (I := fun s : U64 × pmm => s.2.Ready ∧ s.2.m_numPages = p.m_numPages ∧
      ∃ k ≤ e.steps, s.1.toNat = e.startAddress.toNat + k * 0x1000)
    (fun s => e.steps - (s.1.toNat - e.startAddress.toNat) / 0x1000) ?_
    ⟨hp, rfl, 0, Nat.zero_le _, by simp⟩ (by omega)
  rintro ⟨i, q⟩ ⟨hq, hqN, k, hk, hi⟩
  dsimp only at hq hqN hi
  unfold freeTurn
  dsimp only
  split
  · rename_i hlt
    have hlt' : i.toNat < e.endAddress.toNat := hlt
    refine ((pmm.free.stops q i).of_ok fun q' hq' => pmm.free.spec hq hq').bind ?_
    rintro q' ⟨hframe, hm⟩
    have hnext := freeTurn.next hq.pages hframe
    have hk' : k < e.steps := by
      unfold awd_physmemmap_t.steps
      omega
    refine Meets.ok ⟨⟨hm.ready hq, hm.numPages.trans hqN, k + 1, hk', ?_⟩, ?_⟩
    · rw [hnext, hi]
      ring
    · rw [hnext, hi]
      omega
  · exact Meets.ok trivial

theorem free_entries.stops {fuel : Nat} {map : List awd_physmemmap_t} {p : pmm} (hp : p.Ready)
    (hfuel : 2 ^ 53 ≤ fuel) :
    (free_entries fuel map p).Meets bitset.BoundsStop fun _ => True := by
  induction map generalizing p with
  | nil => exact Meets.ok trivial
  | cons e map ih =>
    unfold free_entries
    split
    · refine ((freeTurn.stops hp hfuel).of_ok fun q hq => freeTurn.spec hp hq).bind ?_
      rintro q ⟨-, hm⟩
      exact ih (hm.ready hp)
    · exact ih hp

/-- Once the bitmap has its block, the import ends as `Imported` says, at the
latest where it leaves the bitmap. -/
theorem init_memory.stops {fuel : Nat} {map : List awd_physmemmap_t} {fresh : Nat → U8}
    {g g' : Globals} (hinit : g.kernel_pmm.m_initialised = false) (hfuel : 2 ^ 53 ≤ fuel)
    (hg : pmm.init (mem_end_address map / 0x1000) fresh g = ok g') :
    (init_memory fuel map fresh g).Meets bitset.BoundsStop (Imported map g) := by
  have hready := (pmm.init.spec hinit (numPages_lt map) hg).1
  refine Meets.of_ok (P := fun _ => True) ?_ fun _ h => init_memory.spec hinit h
  unfold init_memory
  rw [hg, bind_ok]
  refine ((free_entries.stops hready hfuel).of_ok fun p hp => free_entries.spec hready hp).bind ?_
  rintro p ⟨-, hm⟩
  have hset : (forRange 0x400 (fun i p => p.set (BitVec.ofNat 64 i * 0x1000)) p).Meets
      bitset.BoundsStop fun _ => True :=
    forRange_meets (fun _ _ => True) (fun _ _ _ _ => pmm.set.stops _ _) trivial
  refine (hset.of_ok fun q hq => pmm.set_all (hm.ready hready) (by norm_num) hq).bind ?_
  rintro q ⟨-, hm'⟩
  obtain ⟨r, hr⟩ := pmm.set_free_memory.total (hm'.ready (hm.ready hready))
  rw [hr, bind_ok]
  exact Meets.ok trivial

/-- What `kmalloc` does with the block of a bitmap. -/
theorem kmalloc_bitmap (num : U64) {g : Globals} (hmode : g.currentMode = .EarlyBoot) :
    kmalloc (num / 8 + 1) { g with kernel_pmm := { g.kernel_pmm with m_numPages := num } } =
      if blockAt g 8 + (num / 8 + 1) > g.earlyAllocLimit then
        panic "kmalloc(early): Ran out of memory!"
      else ok (blockAt g 8, { g with
        kernel_pmm := { g.kernel_pmm with m_numPages := num }
        earlyAllocBase := blockAt g 8 + (num / 8 + 1) }) :=
  kmalloc_aligned.early hmode (by decide)

theorem pmm.init.room {num : U64} (fresh : Nat → U8) {g : Globals}
    (hinit : g.kernel_pmm.m_initialised = false) (hnum : num.toNat < 2 ^ 52)
    (hmode : g.currentMode = .EarlyBoot) (hfit : BitmapFits num g) :
    ∃ g', pmm.init num fresh g = ok g' := by
  have hle : ¬ blockAt g 8 + (num / 8 + 1) > g.earlyAllocLimit := BitVec.not_lt.mpr hfit
  apply pmm.init.total_of_kmalloc fresh hinit hnum
  rw [kmalloc_bitmap num hmode, if_neg hle]

theorem pmm.init.no_room {num : U64} (fresh : Nat → U8) {g : Globals}
    (hinit : g.kernel_pmm.m_initialised = false) (hmode : g.currentMode = .EarlyBoot)
    (hfit : ¬ BitmapFits num g) :
    pmm.init num fresh g = panic "kmalloc(early): Ran out of memory!" := by
  have hgt : blockAt g 8 + (num / 8 + 1) > g.earlyAllocLimit := BitVec.not_le.mp hfit
  unfold pmm.init
  rw [hinit, if_neg (by decide)]
  dsimp only
  rw [kmalloc_bitmap num hmode, if_pos hgt]
  rfl

/-- An import that has room stays in the bitmap if and only if the bitmap has
the first 4 MiB and every frame under a step of a FREE entry. -/
theorem staysInBitmap_iff_listed {map : List awd_physmemmap_t} {fresh : Nat → U8} {g : Globals}
    (hinit : g.kernel_pmm.m_initialised = false) (hmode : g.currentMode = .EarlyBoot)
    (hfit : BitmapFits (mem_end_address map / 0x1000) g) :
    StaysInBitmap map fresh g ↔ 0x400 ≤ (mem_end_address map / 0x1000).toNat ∧
      ∀ f, Listed map f → f < (mem_end_address map / 0x1000).toNat := by
  obtain ⟨gi, hgi⟩ := pmm.init.room fresh hinit (numPages_lt map) hmode hfit
  constructor
  · intro hstays
    obtain ⟨g', -, himported⟩ :=
      (init_memory.stops hinit (Nat.le_refl _) hgi).yields (hstays (2 ^ 53))
    rw [← himported.pages]
    exact ⟨himported.low, himported.listed⟩
  · rintro ⟨hlow, hin⟩ fuel e he
    have hmore := init_memory_mono (Nat.le_max_left fuel (2 ^ 53)) he
    obtain ⟨g', hg'⟩ := init_memory.total_of_init hinit hgi hlow hin
      fun e _ => Nat.lt_of_lt_of_le (steps_lt e) (Nat.le_max_right _ _)
    rw [hg'] at hmore
    cases hmore

/-! ## The end of the memory -/

theorem endAddress_toNat {e : awd_physmemmap_t}
    (hwrap : e.startAddress.toNat + e.size.toNat < 2 ^ 64) :
    e.endAddress.toNat = e.startAddress.toNat + e.size.toNat := by
  rw [awd_physmemmap_t.endAddress, BitVec.toNat_add, Nat.mod_eq_of_lt hwrap]

/-- One turn of the discovery: the later end stays. -/
def laterEnd (mem_end : U64) (e : awd_physmemmap_t) : U64 :=
  if e.type = AWD_MEMMAP_FREE then if mem_end < e.endAddress then e.endAddress else mem_end
  else mem_end

theorem mem_end_address_eq (map : List awd_physmemmap_t) :
    mem_end_address map = map.foldl laterEnd 0 := rfl

theorem laterEnd_ge (mem_end : U64) (e : awd_physmemmap_t) :
    mem_end.toNat ≤ (laterEnd mem_end e).toNat ∧
      (e.type = AWD_MEMMAP_FREE → e.endAddress.toNat ≤ (laterEnd mem_end e).toNat) := by
  unfold laterEnd
  split
  · split
    · rename_i hlt
      have : mem_end.toNat < e.endAddress.toNat := hlt
      exact ⟨by omega, fun _ => Nat.le_refl _⟩
    · rename_i hge
      have : ¬ mem_end.toNat < e.endAddress.toNat := hge
      exact ⟨Nat.le_refl _, fun _ => by omega⟩
  · rename_i hother
    exact ⟨Nat.le_refl _, fun h => absurd h hother⟩

theorem foldl_laterEnd_ge (map : List awd_physmemmap_t) (start : U64) :
    start.toNat ≤ (map.foldl laterEnd start).toNat ∧
      ∀ e ∈ map, e.type = AWD_MEMMAP_FREE →
        e.endAddress.toNat ≤ (map.foldl laterEnd start).toNat := by
  induction map generalizing start with
  | nil => simp
  | cons e map ih =>
    obtain ⟨hstart, hall⟩ := ih (laterEnd start e)
    obtain ⟨hge, hend⟩ := laterEnd_ge start e
    simp only [List.foldl_cons]
    refine ⟨Nat.le_trans hge hstart, fun e' he' htype => ?_⟩
    rcases List.mem_cons.mp he' with rfl | hin
    · exact Nat.le_trans (hend htype) hstart
    · exact hall e' hin htype

theorem foldl_laterEnd_mem (map : List awd_physmemmap_t) (start : U64) :
    map.foldl laterEnd start = start ∨
      ∃ e ∈ map, e.type = AWD_MEMMAP_FREE ∧ map.foldl laterEnd start = e.endAddress := by
  induction map generalizing start with
  | nil => simp
  | cons e map ih =>
    simp only [List.foldl_cons]
    rcases ih (laterEnd start e) with h | ⟨e', he', h⟩
    · rw [h]
      unfold laterEnd
      split
      · rename_i htype
        split
        · exact Or.inr ⟨e, List.mem_cons_self, htype, rfl⟩
        · exact Or.inl rfl
      · exact Or.inl rfl
    · exact Or.inr ⟨e', List.mem_cons_of_mem _ he', h⟩

/-! ## The law -/

/-- Some FREE entry ends at `a` or higher. -/
def FreeUpTo (map : List awd_physmemmap_t) (a : Nat) : Prop :=
  ∃ e ∈ map, e.type = AWD_MEMMAP_FREE ∧ a ≤ e.startAddress.toNat + e.size.toNat

/-- The exact condition on a map: FREE memory goes up to 4 MiB, and to the end
of every FREE region once that is widened to whole pages. -/
def WidensInside (map : List awd_physmemmap_t) : Prop :=
  FreeUpTo map 0x400000 ∧ ∀ e ∈ map, e.type = AWD_MEMMAP_FREE → 0 < e.size.toNat →
    FreeUpTo map
      (e.startAddress.toNat / 0x1000 * 0x1000 + (e.size.toNat + 0xFFF) / 0x1000 * 0x1000)

/-- The end of the memory is at `a` or higher when some FREE entry ends there. -/
theorem le_mem_end_address {map : List awd_physmemmap_t} {a : Nat}
    (hwrap : ∀ e ∈ map, e.startAddress.toNat + e.size.toNat < 2 ^ 64) (ha : 0 < a) :
    a ≤ (mem_end_address map).toNat ↔ FreeUpTo map a := by
  rw [mem_end_address_eq]
  constructor
  · intro hle
    rcases foldl_laterEnd_mem map 0 with h | ⟨e, he, htype, h⟩
    · rw [h] at hle
      exact absurd hle (Nat.not_le.mpr ha)
    · rw [h, endAddress_toNat (hwrap e he)] at hle
      exact ⟨e, he, htype, hle⟩
  · rintro ⟨e, he, htype, hle⟩
    rw [← endAddress_toNat (hwrap e he)] at hle
    exact Nat.le_trans hle ((foldl_laterEnd_ge map 0).2 e he htype)

/-- The frames under the steps of an entry are below the number of frames when
the widened region ends with the memory or before. -/
theorem touches_lt_iff {e : awd_physmemmap_t}
    (hwrap : e.startAddress.toNat + e.size.toNat < 2 ^ 64) (hsize : 0 < e.size.toNat) (mem_end : U64) :
    (∀ f, e.Touches f → f < (mem_end / 0x1000).toNat) ↔
      e.startAddress.toNat / 0x1000 * 0x1000 + (e.size.toNat + 0xFFF) / 0x1000 * 0x1000 ≤
        mem_end.toNat := by
  have hend := endAddress_toNat hwrap
  have hsteps : e.steps = (e.size.toNat + 0xFFF) / 0x1000 := by
    rw [awd_physmemmap_t.steps, hend, Nat.add_sub_cancel_left]
  unfold awd_physmemmap_t.Touches pmm.frameOf
  rw [hsteps, BitVec.toNat_udiv, show (0x1000 : U64).toNat = 0x1000 from rfl]
  constructor
  · intro h
    have := h (e.startAddress.toNat / 0x1000 + ((e.size.toNat + 0xFFF) / 0x1000 - 1))
      ⟨by omega, by omega⟩
    omega
  · rintro hle f ⟨-, hlt⟩
    omega

theorem widensInside_iff_listed {map : List awd_physmemmap_t}
    (hwrap : ∀ e ∈ map, e.startAddress.toNat + e.size.toNat < 2 ^ 64) :
    WidensInside map ↔ 0x400 ≤ (mem_end_address map / 0x1000).toNat ∧
      ∀ f, Listed map f → f < (mem_end_address map / 0x1000).toNat := by
  have hlow : 0x400 ≤ (mem_end_address map / 0x1000).toNat ↔ FreeUpTo map 0x400000 := by
    rw [← le_mem_end_address hwrap (by norm_num)]
    simp only [BitVec.toNat_udiv, BitVec.reduceToNat]
    omega
  have hwiden : ∀ e ∈ map, 0 < e.size.toNat →
      ((∀ f, e.Touches f → f < (mem_end_address map / 0x1000).toNat) ↔ FreeUpTo map
        (e.startAddress.toNat / 0x1000 * 0x1000 + (e.size.toNat + 0xFFF) / 0x1000 * 0x1000)) := by
    intro e he hsize
    rw [touches_lt_iff (hwrap e he) hsize, le_mem_end_address hwrap (by omega)]
  rw [WidensInside, hlow]
  refine and_congr_right fun _ => ⟨?_, ?_⟩
  · rintro h f ⟨e, he, htype, htouch⟩
    have hsize : 0 < e.size.toNat := by
      have hend := endAddress_toNat (hwrap e he)
      obtain ⟨h1, h2⟩ := htouch
      unfold awd_physmemmap_t.steps at h2
      omega
    exact (hwiden e he hsize).mpr (h e he htype hsize) f htouch
  · intro h e he htype hsize
    exact (hwiden e he hsize).mp fun f htouch => h f ⟨e, he, htype, htouch⟩

/-- The import of a map stays in the bitmap if and only if the heap has no room
for a bitmap at all, or the map is in `WidensInside`. -/
theorem an_import_stays_in_the_bitmap {map : List awd_physmemmap_t} {fresh : Nat → U8}
    {g : Globals} (hinit : g.kernel_pmm.m_initialised = false) (hmode : g.currentMode = .EarlyBoot)
    (hwrap : ∀ e ∈ map, e.startAddress.toNat + e.size.toNat < 2 ^ 64) :
    StaysInBitmap map fresh g ↔
      ¬ BitmapFits (mem_end_address map / 0x1000) g ∨ WidensInside map := by
  by_cases hfit : BitmapFits (mem_end_address map / 0x1000) g
  · rw [staysInBitmap_iff_listed hinit hmode hfit, widensInside_iff_listed hwrap]
    exact ⟨Or.inr, fun h => h.resolve_left fun hno => hno hfit⟩
  · refine iff_of_true (fun fuel e he => ?_) (Or.inl hfit)
    -- the stop is the panic of `kmalloc`
    rw [init_memory, pmm.init.no_room fresh hinit hmode hfit] at he
    cases he
    rintro (h | h) <;> cases h

theorem an_import_stays_in_the_bitmap_of_two_MiB : StaysInBitmap twoMiB (fun _ => 0) lowHeap ↔
    ¬ BitmapFits (mem_end_address twoMiB / 0x1000) lowHeap ∨ WidensInside twoMiB :=
  an_import_stays_in_the_bitmap rfl rfl (by decide)

/-- FREE memory from 4 MiB, of 2 MiB and half a page. -/
def halfAPageMore : List awd_physmemmap_t := [⟨AWD_MEMMAP_FREE, 0, 0x400000, 0, 0x200800⟩]

/-- The last half page is not counted as a frame, but freed as one. -/
theorem half_a_page_leaves_the_bitmap : ¬ StaysInBitmap halfAPageMore (fun _ => 0) lowHeap := by
  rw [staysInBitmap_iff_listed rfl rfl (by decide)]
  rintro ⟨-, hin⟩
  have := hin 0x600 ⟨_, List.mem_cons_self, rfl, by decide, by decide⟩
  revert this
  decide

/-! ## The frames that a map offers -/

/-- Frame `f` lies wholly in the region of the entry. -/
def awd_physmemmap_t.HoldsFrame (e : awd_physmemmap_t) (f : Nat) : Prop :=
  ∀ a, f * 0x1000 ≤ a → a < f * 0x1000 + 0x1000 → e.Holds a

/-- Wherever the region starts in its first page, a step lies in every whole
frame of it. -/
theorem touches_of_holdsFrame {e : awd_physmemmap_t}
    (hwrap : e.startAddress.toNat + e.size.toNat < 2 ^ 64) {f : Nat} (h : e.HoldsFrame f) :
    e.Touches f := by
  have hfirst := h (f * 0x1000) (Nat.le_refl _) (by omega)
  have hlast := h (f * 0x1000 + 0xFFF) (by omega) (by omega)
  refine (touches_iff_spans hwrap (Nat.le_refl _) (by omega)).mpr ?_
  unfold awd_physmemmap_t.Holds at hfirst hlast
  unfold awd_physmemmap_t.Spans
  omega

/-- Every frame from 4 MiB on that lies wholly in a FREE region is reported
free. -/
def ReportsUsable (map : List awd_physmemmap_t) (p : pmm) : Prop :=
  ∀ e ∈ map, e.type = AWD_MEMMAP_FREE → ∀ f, 0x400000 ≤ f * 0x1000 → e.HoldsFrame f →
    p.test (BitVec.ofNat 64 f * 0x1000) = ok false

/-- An import that returns loses no usable frame. -/
theorem an_import_loses_no_usable_frame {fuel : Nat} {map : List awd_physmemmap_t}
    {fresh : Nat → U8} {g g' : Globals} (hinit : g.kernel_pmm.m_initialised = false)
    (hwrap : ∀ e ∈ map, e.startAddress.toNat + e.size.toNat < 2 ^ 64)
    (h : init_memory fuel map fresh g = ok g') : ReportsUsable map g'.kernel_pmm := by
  have himported := init_memory.spec hinit h
  intro e he htype f hlow hholds
  have hfree : g'.kernel_pmm.Free f := (himported.free f).mpr
    ⟨by omega, e, he, htype, touches_of_holdsFrame (hwrap e he) hholds⟩
  have hpages := himported.ready.pages
  have hframe : pmm.frameOf (BitVec.ofNat 64 f * 0x1000) = f :=
    pmm.frameOf_turn (Nat.lt_trans hfree.1 hpages)
  have htest := pmm.test.total himported.ready (a := BitVec.ofNat 64 f * 0x1000) (by
    rw [hframe]
    exact hfree.1)
  rw [htest, hframe, decide_eq_false hfree.2]

theorem an_import_loses_no_usable_frame_of_two_MiB : ∃ g',
    init_memory 0x201 twoMiB (fun _ => 0) lowHeap = ok g' ∧ ReportsUsable twoMiB g'.kernel_pmm := by
  obtain ⟨g', h⟩ : ∃ g', init_memory 0x201 twoMiB (fun _ => 0) lowHeap = ok g' :=
    init_memory.total _ rfl rfl (by decide) (by decide) (listed_lt (by decide)) (by decide)
  exact ⟨g', h, an_import_loses_no_usable_frame rfl (by decide) h⟩

end lobo
