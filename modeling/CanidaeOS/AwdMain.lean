-- The boot loader up to the kernel's entry (`main.c`): the kernel is loaded
-- into the heap behind its module, five regions are queued (`paging_init`) and
-- committed, and what is left of the heap is handed over in two 32-bit fields.
import CanidaeOS.AwdMultiboot
import CanidaeOS.AwdStale

open Program Machine Outcome Paging

namespace awd

open multiboot_module_t elf64_pheader_t

/-! ## The code -/

def PAGING_ATTRIBUTE_READWRITE : U8 := 0b11

def kernel_mem_base : U64 := 0xFFFFFFFF80000000

/-- The regions that `paging_init` queues, in its order. -/
def paging_regions (mem : mem_info) (kernel : kernel_loaded_info_t) : List awd_mapped_region_t :=
  [⟨mem.region_low_memory.start, mem.region_low_memory.last,
      mem.region_low_memory.start, mem.region_low_memory.last, PAGING_ATTRIBUTE_READWRITE⟩,
    ⟨mem.region_awd_image.start, mem.region_awd_image.last,
      mem.region_awd_image.start, mem.region_awd_image.last, PAGING_ATTRIBUTE_READWRITE⟩,
    ⟨mem.region_awd_malloc.start, mem.region_awd_malloc.last,
      mem.region_awd_malloc.start, mem.region_awd_malloc.last, PAGING_ATTRIBUTE_READWRITE⟩,
    ⟨0, 0x200000, 0x0 + kernel_mem_base, 0x200000 + kernel_mem_base, PAGING_ATTRIBUTE_READWRITE⟩,
    ⟨kernel.memory_image.start, kernel.memory_image.start + kernel.memory_image.size,
      kernel.virt.start, kernel.virt.start + kernel.memory_image.size, PAGING_ATTRIBUTE_READWRITE⟩]

def paging_init (mem : mem_info) (kernel : kernel_loaded_info_t) (s : paging) :
    Outcome Stop paging := paging_queue_all (paging_regions mem kernel) s

/-- The static queue, over the heap and the memory of the loader. -/
def paging.static (s : loader) : paging :=
  { paging_queue_num := 0, paging_queue := fun _ => ⟨0, 0, 0, 0, 0⟩, alloc := s.alloc, mem := s.mem }

/-- What the kernel is entered with. -/
structure Entered where
  kernel_info : kernel_info_t
  kernel : kernel_loaded_info_t
  loader : loader
  paging : paging
  /-- the fields of `awd_info` -/
  ptr_malloc_current : U32
  ptr_malloc_limit : U32

/-- `awd_main` from `memory_init` to `kernel_enter`. -/
def awd_main (fuel : Nat) (sym : Symbols) (mb_struct : U32) (m : Memory) : Outcome Stop Entered := do
  let (kernel_info, mem, s) ← awd_main_heap sym mb_struct m
  let (kernel, s) ← kernel_load fuel kernel_info s
  let p ← paging_init mem kernel (paging.static s)
  let p ← paging_commit fuel sym.paging_pml4 p
  ok { kernel_info, kernel, loader := s, paging := p
       ptr_malloc_current := p.alloc.heap_phys_current.setWidth 32
       ptr_malloc_limit := p.alloc.heap_phys_limit.setWidth 32 }

/-! ## The last call on a way -/

theorem sameWay_iff {x v : U64} :
    SameWay x v ↔ x.toNat / 0x1000 % 2 ^ 36 = v.toNat / 0x1000 % 2 ^ 36 := path_eq_iff

/-- What is drawn is what one of the calls wrote. -/
theorem drawn_mem {cs : List PageCall} {x : U64} {l : U64 × U64} (h : drawn cs x = some l) :
    ∃ c ∈ cs, SameWay x c.virt ∧ leaf (c.phys ||| c.page_attr.setWidth 64) = some l := by
  unfold drawn at h
  obtain ⟨c, hc, hleaf⟩ := Option.bind_eq_some_iff.mp h
  have hmem := List.mem_of_find?_eq_some hc
  have hway := List.find?_some hc
  exact ⟨c, List.mem_reverse.mp hmem, of_decide_eq_true hway, hleaf⟩

/-- A region with no page on the way changes nothing. -/
theorem drawn_skip {cs : List PageCall} {r : awd_mapped_region_t} {x : U64}
    (h : ∀ k < r.count, ¬ SameWay x (pageAt r.virt_start k)) :
    drawn (cs ++ r.calls) x = drawn cs x := by
  have hnone : r.calls.reverse.find? (fun c => SameWay x c.virt) = none := by
    refine List.find?_eq_none.mpr ?_
    intro c hc
    obtain ⟨k, hk, rfl⟩ := awd_mapped_region_t.mem_calls.mp (List.mem_reverse.mp hc)
    rw [decide_eq_true_eq]
    exact h k hk
  unfold drawn
  rw [List.reverse_append, List.find?_append, hnone, Option.none_or]

/-- A region with one page on the way decides. -/
theorem drawn_last {cs : List PageCall} {r : awd_mapped_region_t} {x : U64} {k : Nat}
    (hk : k < r.count) (hway : SameWay x (pageAt r.virt_start k))
    (hone : ∀ j < r.count, SameWay x (pageAt r.virt_start j) → j = k) :
    drawn (cs ++ r.calls) x = leaf (pageAt r.phys_start k ||| r.attr.setWidth 64) := by
  have hfind : r.calls.reverse.find? (fun c => SameWay x c.virt) =
      some ⟨pageAt r.phys_start k, pageAt r.virt_start k, r.attr⟩ := by
    cases hf : r.calls.reverse.find? fun c => SameWay x c.virt with
    | none =>
      have := List.find?_eq_none.mp hf ⟨pageAt r.phys_start k, pageAt r.virt_start k, r.attr⟩
        (List.mem_reverse.mpr (awd_mapped_region_t.mem_calls.mpr ⟨k, hk, rfl⟩))
      rw [decide_eq_true_eq] at this
      exact absurd hway this
    | some c =>
      obtain ⟨j, hj, rfl⟩ := awd_mapped_region_t.mem_calls.mp
        (List.mem_reverse.mp (List.mem_of_find?_eq_some hf))
      have hsame := List.find?_some hf
      rw [hone j hj (of_decide_eq_true hsame)]
  unfold drawn
  rw [List.reverse_append, List.find?_append, hfind]
  rfl

/-- Where the tables below `paging_pml4` lead `v`: the frame, and the offset of
`v` in its page. -/
def physicalAt (m : Memory) (paging_pml4 : U32) (v : U64) : Option Nat :=
  (translate id m (paging_pml4.setWidth 64) v).map fun l => l.1.toNat + v.toNat % 0x1000

/-! ## The steps of a run -/

/-- The steps that a run from the module at `k` has made. -/
structure Steps (fuel : Nat) (sym : Symbols) (m : Memory) (k : U32) (w : Entered) (s : loader)
    (mem : mem_info) (q : paging) : Prop where
  memory : s.mem = m
  heap : s.alloc = alloc_init (heapBase m k)
  copies : s.copies = []
  low_memory : mem.region_low_memory = ⟨0, 0x100000 - 1⟩
  awd_image : mem.region_awd_image = ⟨sym.awd_phys_start.setWidth 64,
    PAGE_ROUND_UP (sym.awd_phys_end.setWidth 64) - 1⟩
  awd_malloc : mem.region_awd_malloc = ⟨heapBase m k, heapBase m k + AWD_ALLOC_SIZE - 1⟩
  info : w.kernel_info = analysed (moduleInfo m k) m
  load : kernel_load fuel (analysed (moduleInfo m k) m) s = ok (w.kernel, w.loader)
  queue : Holds q (paging_regions mem w.kernel)
  queue_heap : q.alloc = w.loader.alloc
  queue_memory : q.mem = w.loader.mem
  commit : paging_commit fuel sym.paging_pml4 q = ok w.paging
  current : w.ptr_malloc_current = w.paging.alloc.heap_phys_current.setWidth 32
  limit : w.ptr_malloc_limit = w.paging.alloc.heap_phys_limit.setWidth 32

/-- The queue holds the regions, over the heap and the memory of the loader. -/
theorem paging_init.spec (mem : mem_info) (kernel : kernel_loaded_info_t) (s : loader) :
    ∃ q, paging_init mem kernel (paging.static s) = ok q ∧ Holds q (paging_regions mem kernel) ∧
      q.alloc = s.alloc ∧ q.mem = s.mem := by
  have hlength : (paging_regions mem kernel).length ≤ PAGING_QUEUE_MAX := by
    show 5 ≤ 10
    decide
  obtain ⟨q, hinit, hqueued⟩ : ∃ q, paging_queue_all (paging_regions mem kernel) (paging.static s) =
      ok q ∧ Queued (paging.static s) 0 (paging_regions mem kernel) q :=
    paging_queue_all.spec rfl (by rwa [Nat.zero_add])
  refine ⟨q, hinit, ⟨hlength, ?_, ?_⟩, hqueued.alloc, hqueued.mem⟩
  · rw [hqueued.num, Nat.zero_add]
  · intro i hi
    rw [← hqueued.behind i hi, Nat.zero_add]

theorem awd_main.spec {fuel : Nat} {sym : Symbols} {mb_struct k : U32} {m : Memory} {w : Entered}
    (hk : multiboot_find_kernel m mb_struct = ok k) (h : awd_main fuel sym mb_struct m = ok w) :
    ∃ s mem q, Steps fuel sym m k w s mem q := by
  obtain ⟨⟨info, mem, s⟩, hheap, h⟩ := bind_eq_ok.mp h
  obtain ⟨⟨kernel, s'⟩, hload, h⟩ := bind_eq_ok.mp h
  obtain ⟨q, hinit, h⟩ := bind_eq_ok.mp h
  obtain ⟨p, hcommit, h⟩ := bind_eq_ok.mp h
  cases h
  obtain ⟨rfl, hmem, halloc, hcopies, hlow, hawd, hmalloc⟩ := awd_main_heap.spec hk hheap
  obtain ⟨q', hinit', hqueue, hqalloc, hqmem⟩ := paging_init.spec mem kernel s'
  obtain rfl : q' = q := ok.inj (hinit'.symm.trans hinit)
  exact ⟨s, mem, q', hmem, halloc, hcopies, hlow, hawd, hmalloc, rfl, hload, hqueue, hqalloc, hqmem,
    hcommit, rfl, rfl⟩

/-! ## The heap of a run -/

theorem segment_alloc (s : loader) (m : Memory) (info : kernel_info_t) (img h : U32) :
    (s.segment m info img h).alloc = s.alloc := by
  by_cases htype : p_type m h = 1
  · rw [segment_of_load htype]
  · rw [segment_of_other htype]

/-- `kernel_load` takes one block, and then leaves the heap alone. -/
theorem kernel_load.heap {fuel : Nat} {info : kernel_info_t} {s s' : loader}
    {r : kernel_loaded_info_t} (h : kernel_load fuel info s = ok (r, s')) :
    ∃ img, malloc_aligned (info.phys.size.setWidth 32) 0x1000 s.alloc = ok (img, s'.alloc) ∧
      r.memory_image = ⟨img.setWidth 64, info.phys.size⟩ ∧ r.virt = info.virt := by
  obtain ⟨⟨img, a⟩, hcall, h⟩ := bind_eq_ok.mp h
  obtain ⟨t, hloop, h⟩ := bind_eq_ok.mp h
  cases h
  have halloc : s'.alloc = a := by
    refine loop_inv (I := fun t : Nat × loader => t.2.alloc = a) (Q := fun t => t.alloc = a) ?_ ?_
      rfl hloop
    · rintro ⟨i, s⟩ ⟨j, s'⟩ hs hturn
      simp only [loadTurn] at hturn
      split at hturn
      · cases hturn
        exact (segment_alloc _ _ _ _ _).trans hs
      · cases hturn
    · rintro ⟨i, s⟩ s' hs hturn
      simp only [loadTurn] at hturn
      split at hturn
      · cases hturn
      · cases hturn
        exact hs
  exact ⟨img, halloc ▸ hcall, rfl, rfl⟩

section run

variable {fuel : Nat} {sym : Symbols} {m : Memory} {k : U32} {w : Entered} {s : loader}
  {mem : mem_info} {q : paging}

/-- The first page behind the module has an address of 32 bits, or the one behind
those. -/
theorem mod_end_rounded (m : Memory) (k : U32) : pageRounded (mod_end m k).toNat ≤ 2 ^ 32 := by
  have hend := (mod_end m k).isLt
  unfold pageRounded
  omega

/-- The block of the image: whole pages behind the module, as many as the size
has in 32 bits. -/
theorem Steps.block (hs : Steps fuel sym m k w s mem q) : ∃ b : Page,
    w.kernel.memory_image = ⟨((pageAddr b).setWidth 32).setWidth 64,
      (analysed (moduleInfo m k) m).phys.size⟩ ∧
      w.kernel.virt = (analysed (moduleInfo m k) m).virt ∧
      pageRounded (mod_end m k).toNat ≤ (pageAddr b).toNat ∧
      w.loader.alloc.heap_phys_current.toNat =
        (pageAddr b).toNat + imageSize m (mod_start m k) % 2 ^ 32 ∧
      w.loader.alloc.heap_phys_current.toNat < pageRounded (mod_end m k).toNat + 0x40000 ∧
      w.loader.alloc.heap_phys_limit.toNat = pageRounded (mod_end m k).toNat + 0x40000 := by
  obtain ⟨hcur, hlimit⟩ := heapBase_toNat m k
  have hround := mod_end_rounded m k
  obtain ⟨img, hcall, himage, hvirt⟩ := kernel_load.heap hs.load
  rw [hs.heap] at hcall
  have hasked := (BitVec.toNat_setWidth 32 (analysed (moduleInfo m k) m).phys.size).trans
    (congrArg (· % 2 ^ 32) (extentOf_spec m (mod_start m k)).2)
  have hsize := ((analysed (moduleInfo m k) m).phys.size.setWidth 32).isLt
  obtain ⟨b, rfl, hge, -, hnext, hfit, hsame⟩ := malloc_block.spec (by omega) (by omega) hcall
  rw [hlimit] at hfit
  refine ⟨b, himage, hvirt, hcur ▸ hge, ?_, hfit, ?_⟩
  · rw [hnext, hasked]
  · rw [hsame, hlimit]

theorem Steps.ready (hs : Steps fuel sym m k w s mem q) : q.alloc.Ready := by
  obtain ⟨b, -, -, -, -, hcur, hlimit⟩ := hs.block
  have hround := mod_end_rounded m k
  rw [hs.queue_heap]
  exact ⟨by omega, by omega⟩

/-- The pages that the commit took from the heap read as zero before it. -/
def FreshTables (sym : Symbols) (w : Entered) : Prop :=
  ReadsZero (rootOf sym.paging_pml4) w.loader.mem w.loader.alloc.heap_phys_current
    w.paging.alloc.heap_phys_current

/-- Over fresh tables, the calls of the five regions say what is translated, and
each of their tables took a page. -/
theorem Steps.tables (hs : Steps fuel sym m k w s mem q) (hfresh : FreshTables sym w) :
    Opened (rootOf sym.paging_pml4) w.loader.alloc.heap_phys_current w.paging
        (tablesOf (callsOf (paging_regions mem w.kernel))) ∧
      ∀ v, translate id w.paging.mem (sym.paging_pml4.setWidth 64) v =
        drawn (callsOf (paging_regions mem w.kernel)) v := by
  have hroot : (pageAddr (rootOf sym.paging_pml4)).toNat < 2 ^ 32 := by
    rw [rootOf_toNat sym.aligned]
    exact sym.paging_pml4.isLt
  have hcommit := hs.commit
  rw [← ptr_rootOf sym.aligned] at hcommit
  have hzero : ZeroFor (rootOf sym.paging_pml4) q.mem q.alloc.heap_phys_current
      w.paging.alloc.heap_phys_current (tablesOf (callsOf (paging_regions mem w.kernel))).card := by
    rw [hs.queue_memory, hs.queue_heap]
    exact ReadsZero.zeroFor hfresh _
  obtain ⟨hopened, htranslate⟩ := paging_commit.spec hroot hs.ready hs.queue hcommit hzero
  rw [hs.queue_heap] at hopened
  refine ⟨hopened, fun v => ?_⟩
  rw [← htranslate v, paging.translate, rootOf, pageAddr_pageOf sym.aligned]

/-- The heap only moved up, and its limit stays. -/
theorem Steps.later (hs : Steps fuel sym m k w s mem q) :
    w.loader.alloc.heap_phys_current.toNat ≤ w.paging.alloc.heap_phys_current.toNat ∧
      w.paging.alloc.heap_phys_limit = w.loader.alloc.heap_phys_limit ∧
      w.paging.alloc.heap_phys_current.toNat ≤ w.paging.alloc.heap_phys_limit.toNat := by
  have hlater := paging_commit.later hs.ready hs.queue hs.commit
  rw [← hs.queue_heap]
  exact ⟨hlater.le, hlater.limit, hlater.ready.below⟩

/-- The region of the kernel's image, the last one of the queue. -/
def imageRegion (kernel : kernel_loaded_info_t) : awd_mapped_region_t :=
  ⟨kernel.memory_image.start, kernel.memory_image.start + kernel.memory_image.size,
    kernel.virt.start, kernel.virt.start + kernel.memory_image.size, PAGING_ATTRIBUTE_READWRITE⟩

theorem Steps.image_count (hs : Steps fuel sym m k w s mem q) :
    (imageRegion w.kernel).count * 0x1000 = imageSize m (mod_start m k) := by
  obtain ⟨b, himage, -⟩ := hs.block
  have hsize : w.kernel.memory_image.size.toNat = imageSize m (mod_start m k) := by
    rw [himage]
    exact (extentOf_spec m (mod_start m k)).2
  have hmod := imageSize_mod m (mod_start m k)
  have hlength : w.kernel.virt.start + w.kernel.memory_image.size - w.kernel.virt.start =
      w.kernel.memory_image.size := by
    rw [BitVec.add_comm, BitVec.add_sub_cancel]
  rw [awd_mapped_region_t.count, imageRegion]
  dsimp only
  rw [hlength, pages, hsize]
  omega

/-- An image of 4 GiB or more, whose size the heap sees in 32 bits, needs more
tables than the heap has pages. -/
theorem Steps.size_lt (hs : Steps fuel sym m k w s mem q) (hfresh : FreshTables sym w) :
    imageSize m (mod_start m k) < 2 ^ 32 := by
  by_contra hlarge
  obtain ⟨b, -, -, hge, hcur, -, hlimit⟩ := hs.block
  obtain ⟨hle, hsame, hbelow⟩ := hs.later
  have hpages := (hs.tables hfresh).1.pages
  have hcount := hs.image_count
  have hmany : 65 ≤ (tablesOf (imageRegion w.kernel).calls).card :=
    (imageRegion w.kernel).tables_le (n := 64) (by decide) (by omega)
  have hsubset : (tablesOf (imageRegion w.kernel).calls).card ≤
      (tablesOf (callsOf (paging_regions mem w.kernel))).card := by
    refine Finset.card_le_card (tablesOf_mono fun c hc => mem_callsOf.mpr ⟨_, ?_, hc⟩)
    simp [paging_regions, imageRegion]
  have hround := le_pageRounded w.loader.alloc.heap_phys_current.toNat
  have hmod := pageRounded_mod (mod_end m k).toNat
  rw [hsame, hlimit] at hbelow
  have htop : pageRounded w.paging.alloc.heap_phys_current.toNat ≤
      pageRounded (mod_end m k).toNat + 0x40000 := by
    generalize pageRounded (mod_end m k).toNat = base at *
    unfold pageRounded
    omega
  omega

/-- The calls of the image's region come last. -/
theorem callsOf_regions (mem : mem_info) (kernel : kernel_loaded_info_t) :
    callsOf (paging_regions mem kernel) =
      callsOf ((paging_regions mem kernel).take 4) ++ (imageRegion kernel).calls := by
  have hsplit : paging_regions mem kernel = (paging_regions mem kernel).take 4 ++ [imageRegion kernel] :=
    rfl
  conv_lhs => rw [hsplit]
  rw [callsOf, List.flatMap_append, List.flatMap_singleton, callsOf]

/-- The first page of low memory takes tables, so the heap was below 4 GiB when
the commit started. -/
theorem Steps.low (hs : Steps fuel sym m k w s mem q) (hfresh : FreshTables sym w) :
    w.loader.alloc.heap_phys_current.toNat < 2 ^ 32 := by
  have hpages := (hs.tables hfresh).1.pages
  obtain ⟨b, -, -, -, -, hcur, -⟩ := hs.block
  have hend := (mod_end m k).isLt
  have hfirst : (⟨pageAt 0 0, pageAt 0 0, PAGING_ATTRIBUTE_READWRITE⟩ : PageCall) ∈
      callsOf (paging_regions mem w.kernel) := by
    refine mem_callsOf.mpr ⟨⟨0, 0x100000 - 1, 0, 0x100000 - 1, PAGING_ATTRIBUTE_READWRITE⟩, ?_, ?_⟩
    · simp [paging_regions, hs.low_memory]
    · exact awd_mapped_region_t.mem_calls.mpr ⟨0, by decide, rfl⟩
  have htables : 2 ≤ (tablesOf (callsOf (paging_regions mem w.kernel))).card := by
    have hin : ∀ p ∈ tablesTo (pageAt 0 0), p ∈ tablesOf (callsOf (paging_regions mem w.kernel)) :=
      fun p hp => mem_tablesOf.mpr ⟨_, hfirst, hp⟩
    refine Finset.one_lt_card.mpr ⟨path (pageAt 0 0), hin _ ?_, [(pageAt 0 0).extractLsb' 39 9], hin _ ?_, ?_⟩
    · simp [tablesTo]
    · simp [tablesTo]
    · simp [path]
  -- the first page that the commit took
  have hround := le_pageRounded w.loader.alloc.heap_phys_current.toNat
  have hmod := pageRounded_mod w.loader.alloc.heap_phys_current.toNat
  have hbound : pageRounded w.loader.alloc.heap_phys_current.toNat < 2 ^ 33 := by
    unfold pageRounded at *
    omega
  have haddr : (pageAddr (pageOf (BitVec.ofNat 64
      (pageRounded w.loader.alloc.heap_phys_current.toNat)))).toNat =
      pageRounded w.loader.alloc.heap_phys_current.toNat := by
    rw [pageAddr_toNat, pageOf_toNat, BitVec.toNat_ofNat]
    omega
  have hpage := (hfresh (pageOf (BitVec.ofNat 64
    (pageRounded w.loader.alloc.heap_phys_current.toNat))) ⟨by omega, ?_⟩).1
  · omega
  · rw [haddr]
    generalize pageRounded w.loader.alloc.heap_phys_current.toNat = first at *
    unfold pageRounded at hpages
    omega

end run

end awd
