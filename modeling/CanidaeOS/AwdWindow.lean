-- The heap that the kernel takes over. The kernel reaches physical memory
-- through a window of 2 MiB, so that the window holds the heap only where the
-- module ends early.
import CanidaeOS.AwdEntered
import CanidaeOS.Kernel

open Program Machine Outcome Paging
open lobo (KERNEL_VMB MEM_PHYS_TO_VIRT)

namespace awd

open multiboot_module_t elf64_pheader_t

variable {fuel : Nat} {sym : Symbols} {mb_struct : U32} {m : Memory} {k : U32} {w : Entered}
  {s : loader} {mem : mem_info} {q : paging}

/-! ## The position of the heap -/

/-- A block ends before the limit, so something is left. -/
theorem malloc_aligned.below {size alignment p : U32} {a a' : alloc}
    (h : malloc_aligned size alignment a = ok (p, a')) :
    a'.heap_phys_current < a'.heap_phys_limit := by
  rcases malloc_aligned.returned h with ⟨-, hfit, -, rfl⟩
  exact hfit

theorem createOrLoad.below {table index p : U32} {s s' : paging}
    (hs : s.alloc.heap_phys_current < s.alloc.heap_phys_limit)
    (h : createOrLoad table index s = ok (p, s')) :
    s'.alloc.heap_phys_current < s'.alloc.heap_phys_limit := by
  rcases createOrLoad.returned h with ⟨a, hcall, rfl⟩ | rfl
  · exact malloc_aligned.below hcall
  · exact hs

theorem mapPages.below {paging_pml4 : U32} {cs : List PageCall} {s s' : paging}
    (hs : s.alloc.heap_phys_current < s.alloc.heap_phys_limit)
    (h : mapPages paging_pml4 cs s = ok s') :
    s'.alloc.heap_phys_current < s'.alloc.heap_phys_limit := by
  induction cs generalizing s with
  | nil =>
    cases h
    exact hs
  | cons c cs ih =>
    obtain ⟨t, hcall, h⟩ := bind_eq_ok.mp h
    rcases paging_map_page.returned hcall with ⟨p3, s₁, p2, s₂, p1, s₃, h1, h2, h3, rfl⟩
    apply ih _ h
    show s₃.alloc.heap_phys_current < s₃.alloc.heap_phys_limit
    exact createOrLoad.below (createOrLoad.below (createOrLoad.below hs h1) h2) h3

/-- At the kernel's entry the heap has something left. -/
theorem Steps.below (hs : Steps fuel sym m k w s mem q) :
    w.paging.alloc.heap_phys_current.toNat < w.paging.alloc.heap_phys_limit.toNat := by
  obtain ⟨b, -, -, -, -, hcur, hlimit⟩ := hs.block
  have hcalls := (paging_commit.returned hs.ready hs.queue hs.commit).2
  apply mapPages.below _ hcalls
  show q.alloc.heap_phys_current.toNat < q.alloc.heap_phys_limit.toNat
  rw [hs.queue_heap]
  omega

/-! ## The window -/

/-- What the kernel takes over as its heap, `MEM_PHYS_TO_VIRT` leads to. -/
def HeapMapped (sym : Symbols) (w : Entered) : Prop :=
  ∀ a : U32, w.ptr_malloc_current ≤ a → a < w.ptr_malloc_limit →
    physicalAt w.paging.mem sym.paging_pml4 (MEM_PHYS_TO_VIRT (a.setWidth 64)) = some a.toNat

theorem MEM_PHYS_TO_VIRT_low (a : U32) : (MEM_PHYS_TO_VIRT (a.setWidth 64)).toNat =
    (2 ^ 64 - 2 ^ 31 + a.toNat) % 2 ^ 64 := by
  have ha := a.isLt
  rw [MEM_PHYS_TO_VIRT, BitVec.toNat_add, BitVec.toNat_setWidth, KERNEL_VMB]
  simp only [BitVec.reduceToNat]
  omega

theorem MEM_PHYS_TO_VIRT_place (a : U32) :
    (MEM_PHYS_TO_VIRT (a.setWidth 64)).toNat % 0x1000 = a.toNat % 0x1000 := by
  rw [MEM_PHYS_TO_VIRT_low]
  omega

/-- A call maps a page to itself, or is one of the window, or of the image. -/
theorem regions_call (mem : mem_info) (kernel : kernel_loaded_info_t) {c : PageCall}
    (hc : c ∈ callsOf (paging_regions mem kernel)) :
    c.virt = c.phys ∨ c.phys.toNat < 0x200000 ∨ c ∈ (imageRegion kernel).calls := by
  obtain ⟨r, hr, hc⟩ := mem_callsOf.mp hc
  have hsame : ∀ r : awd_mapped_region_t, r.virt_start = r.phys_start → c ∈ r.calls →
      c.virt = c.phys := by
    intro r hstart hc
    obtain ⟨j, -, rfl⟩ := awd_mapped_region_t.mem_calls.mp hc
    dsimp only
    rw [hstart]
  simp only [paging_regions, List.mem_cons, List.not_mem_nil, or_false] at hr
  rcases hr with rfl | rfl | rfl | rfl | rfl
  · exact Or.inl (hsame _ rfl hc)
  · exact Or.inl (hsame _ rfl hc)
  · exact Or.inl (hsame _ rfl hc)
  · obtain ⟨j, hj, rfl⟩ := awd_mapped_region_t.mem_calls.mp hc
    have hcount : j < 512 := hj
    refine Or.inr (Or.inl ?_)
    dsimp only
    rw [pageAt, BitVec.toNat_add, BitVec.toNat_mul, BitVec.toNat_ofNat]
    simp only [BitVec.reduceToNat]
    omega
  · exact Or.inr (Or.inr hc)

/-- The image is below the heap that is left. -/
theorem Steps.image_call (hs : Steps fuel sym m k w s mem q) (hfresh : FreshTables sym w) {c : PageCall}
    (hc : c ∈ (imageRegion w.kernel).calls) :
    c.phys.toNat / 0x1000 * 0x1000 + 0x1000 ≤ w.paging.alloc.heap_phys_current.toNat := by
  obtain ⟨b, himage, -, hge, hcur, -, -⟩ := hs.block
  have hsize := hs.size_lt hfresh
  have hlow := hs.low hfresh
  have hle := hs.later.1
  have hcount := hs.image_count
  have hb := pageAddr_aligned b
  unfold PageAligned at hb
  rw [Nat.mod_eq_of_lt hsize] at hcur
  obtain ⟨j, hj, rfl⟩ := awd_mapped_region_t.mem_calls.mp hc
  have hstart : (imageRegion w.kernel).phys_start = pageAddr b := by
    show w.kernel.memory_image.start = _
    rw [himage]
    exact block_ptr (by omega)
  dsimp only
  rw [hstart, pageAt, BitVec.toNat_add, BitVec.toNat_mul, BitVec.toNat_ofNat]
  simp only [BitVec.reduceToNat]
  omega

/-- Above the window, what is left of the heap is not reached. -/
theorem Steps.not_reached (hs : Steps fuel sym m k w s mem q) (hfresh : FreshTables sym w) {a : U32}
    (hwindow : 0x200000 ≤ a.toNat) (hcur : w.paging.alloc.heap_phys_current.toNat ≤ a.toNat) :
    physicalAt w.paging.mem sym.paging_pml4 (MEM_PHYS_TO_VIRT (a.setWidth 64)) ≠ some a.toNat := by
  intro h
  unfold physicalAt at h
  obtain ⟨l, hl, hplace⟩ := Option.map_eq_some_iff.mp h
  rw [(hs.tables hfresh).2] at hl
  obtain ⟨c, hc, hway, hleaf⟩ := drawn_mem hl
  have ha := a.isLt
  rw [sameWay_iff, MEM_PHYS_TO_VIRT_low] at hway
  rw [leaf_frame (byte_flags c.page_attr) hleaf, MEM_PHYS_TO_VIRT_low] at hplace
  rcases regions_call mem w.kernel hc with hsame | hlow | himage
  · rw [hsame] at hway
    omega
  · omega
  · have := hs.image_call hfresh himage
    omega

/-- The window, the region before the image. -/
def windowRegion : awd_mapped_region_t :=
  ⟨0, 0x200000, 0x0 + kernel_mem_base, 0x200000 + kernel_mem_base, PAGING_ATTRIBUTE_READWRITE⟩

theorem callsOf_window (mem : mem_info) (kernel : kernel_loaded_info_t) :
    callsOf ((paging_regions mem kernel).take 4) =
      callsOf ((paging_regions mem kernel).take 3) ++ windowRegion.calls := by
  have hsplit : (paging_regions mem kernel).take 4 =
      (paging_regions mem kernel).take 3 ++ [windowRegion] := rfl
  rw [hsplit, callsOf, List.flatMap_append, List.flatMap_singleton, callsOf]

/-- In the window, with the image behind it, an address is reached. -/
theorem Steps.reached (hs : Steps fuel sym m k w s mem q) (hfresh : FreshTables sym w)
    (hlow : KERNEL_VMB.toNat + 0x200000 ≤ lowest m (mod_start m k)) {a : U32}
    (ha : a.toNat < 0x200000) :
    physicalAt w.paging.mem sym.paging_pml4 (MEM_PHYS_TO_VIRT (a.setWidth 64)) = some a.toNat := by
  obtain ⟨b, -, hvirt, -, hcur, hfit, -⟩ := hs.block
  have hsize := hs.size_lt hfresh
  have hcount := hs.image_count
  have hstart : w.kernel.virt.start.toNat = lowest m (mod_start m k) := by
    rw [hvirt]
    exact (extentOf_spec m (mod_start m k)).1
  have hvlt := w.kernel.virt.start.isLt
  rw [show KERNEL_VMB.toNat = 2 ^ 64 - 2 ^ 31 from rfl] at hlow
  -- the image's pages lie behind the window
  have hskip : ∀ j < (imageRegion w.kernel).count,
      ¬ SameWay (MEM_PHYS_TO_VIRT (a.setWidth 64)) (pageAt (imageRegion w.kernel).virt_start j) := by
    intro j hj hway
    have hat : (pageAt (imageRegion w.kernel).virt_start j).toNat =
        (lowest m (mod_start m k) + j * 0x1000) % 2 ^ 64 := by
      show (w.kernel.virt.start + BitVec.ofNat 64 j * 0x1000).toNat = _
      rw [BitVec.toNat_add, BitVec.toNat_mul, BitVec.toNat_ofNat, hstart]
      simp only [BitVec.reduceToNat]
      omega
    rw [sameWay_iff, MEM_PHYS_TO_VIRT_low, hat] at hway
    omega
  have hat : ∀ j < windowRegion.count, (pageAt windowRegion.virt_start j).toNat =
      2 ^ 64 - 2 ^ 31 + j * 0x1000 := by
    intro j (hj : j < 512)
    show (0 + kernel_mem_base + BitVec.ofNat 64 j * 0x1000).toNat = _
    rw [BitVec.toNat_add, BitVec.toNat_mul, BitVec.toNat_ofNat, kernel_mem_base]
    simp only [BitVec.reduceAdd, BitVec.reduceToNat]
    omega
  have hin : a.toNat / 0x1000 < windowRegion.count := by
    show _ < 512
    omega
  have hframe : PageAligned (pageAt 0 (a.toNat / 0x1000)) := pageAt_aligned (by decide) _
  have hplace : (pageAt 0 (a.toNat / 0x1000)).toNat = a.toNat / 0x1000 * 0x1000 := by
    rw [pageAt, BitVec.toNat_add, BitVec.toNat_mul, BitVec.toNat_ofNat]
    simp only [BitVec.reduceToNat]
    omega
  have hdrawn : drawn (callsOf (paging_regions mem w.kernel)) (MEM_PHYS_TO_VIRT (a.setWidth 64)) =
      some (pageAt 0 (a.toNat / 0x1000), 3) := by
    rw [callsOf_regions, drawn_skip hskip, callsOf_window, drawn_last hin]
    · exact leaf_or hframe (by decide) (by decide)
    · rw [sameWay_iff, MEM_PHYS_TO_VIRT_low, hat _ hin]
      omega
    · intro j hj hway
      have hcount : j < 512 := hj
      rw [sameWay_iff, MEM_PHYS_TO_VIRT_low, hat j hj] at hway
      omega
  rw [physicalAt, (hs.tables hfresh).2, hdrawn, Option.map_some, hplace, MEM_PHYS_TO_VIRT_place,
    Nat.div_add_mod']

/-- The two fields of `awd_info`, for a heap below 4 GiB. -/
theorem Steps.fields (hs : Steps fuel sym m k w s mem q)
    (hheap : pageRounded (mod_end m k).toNat + 0x40000 ≤ 2 ^ 32) :
    w.ptr_malloc_current.toNat = w.paging.alloc.heap_phys_current.toNat ∧
      w.ptr_malloc_limit.toNat = (pageRounded (mod_end m k).toNat + 0x40000) % 2 ^ 32 ∧
      w.paging.alloc.heap_phys_current.toNat < pageRounded (mod_end m k).toNat + 0x40000 := by
  obtain ⟨b, -, -, -, -, -, hend⟩ := hs.block
  have hbelow := hs.below
  have hlimit : w.paging.alloc.heap_phys_limit.toNat = pageRounded (mod_end m k).toNat + 0x40000 := by
    rw [hs.later.2.1, hend]
  rw [hlimit] at hbelow
  refine ⟨?_, ?_, hbelow⟩
  · rw [hs.current, BitVec.toNat_setWidth]
    omega
  · rw [hs.limit, BitVec.toNat_setWidth, hlimit]

/-- A heap that is mapped ends in the window, or has no end in 32 bits. -/
theorem Steps.mapped_end (hs : Steps fuel sym m k w s mem q) (hfresh : FreshTables sym w)
    (hheap : pageRounded (mod_end m k).toNat + 0x40000 ≤ 2 ^ 32) (hmapped : HeapMapped sym w) :
    pageRounded (mod_end m k).toNat + 0x40000 ≤ 0x200000 ∨
      pageRounded (mod_end m k).toNat + 0x40000 = 2 ^ 32 := by
  obtain ⟨hcur, hlimit, hbelow⟩ := hs.fields hheap
  by_contra hnot
  push Not at hnot
  -- the last byte of the heap
  have hlast : (BitVec.ofNat 32 (pageRounded (mod_end m k).toNat + 0x3FFFF)).toNat =
      pageRounded (mod_end m k).toNat + 0x3FFFF := by
    rw [BitVec.toNat_ofNat]
    omega
  refine hs.not_reached hfresh ?_ ?_
    (hmapped (BitVec.ofNat 32 (pageRounded (mod_end m k).toNat + 0x3FFFF)) ?_ ?_)
  · omega
  · omega
  · rw [BitVec.le_def]
    omega
  · rw [BitVec.lt_def]
    omega

/-- For a heap below 4 GiB and a kernel behind the window, the kernel reaches
the heap that it takes over if and only if the boot loader's heap ends in the
window, or with the 4 GiB: then the limit, in 32 bits, is zero. -/
theorem the_heap_that_is_handed_over_is_mapped (hk : multiboot_find_kernel m mb_struct = ok k)
    (hheap : pageRounded (mod_end m k).toNat + 0x40000 ≤ 2 ^ 32)
    (hlow : KERNEL_VMB.toNat + 0x200000 ≤ lowest m (mod_start m k))
    (h : awd_main fuel sym mb_struct m = ok w) (hfresh : FreshTables sym w) :
    HeapMapped sym w ↔ pageRounded (mod_end m k).toNat + 0x40000 ≤ 0x200000 ∨
      pageRounded (mod_end m k).toNat + 0x40000 = 2 ^ 32 := by
  obtain ⟨s, mem, q, hs⟩ := awd_main.spec hk h
  obtain ⟨-, hlimit, -⟩ := hs.fields hheap
  constructor
  · intro hmapped
    exact hs.mapped_end hfresh hheap hmapped
  · rintro (hwindow | htop) a hge hlt
    · rw [BitVec.lt_def] at hlt
      exact hs.reached hfresh hlow (by omega)
    · rw [BitVec.lt_def] at hlt
      omega

theorem onPages_end : pageRounded (mod_end onPages 0x9100).toNat = 0x202000 := by
  rw [onPages_listed.place.2]
  decide

theorem onPages_behind_window : KERNEL_VMB.toNat + 0x200000 ≤
    lowest onPages (mod_start onPages 0x9100) := by
  rw [onPages_listed.place.1, onPages_loads.lowest]
  decide

theorem the_heap_that_is_handed_over_is_mapped_behind_two_pages : ∃ w,
    awd_main (2 ^ 53) symbolsAt1M 0x9000 onPages = ok w ∧ (HeapMapped symbolsAt1M w ↔
      pageRounded (mod_end onPages 0x9100).toNat + 0x40000 ≤ 0x200000 ∨
        pageRounded (mod_end onPages 0x9100).toNat + 0x40000 = 2 ^ 32) := by
  obtain ⟨w, hrun, hfresh⟩ := onPages_boots
  refine ⟨w, hrun, the_heap_that_is_handed_over_is_mapped onPages_listed.find ?_
    onPages_behind_window hrun hfresh⟩
  rw [onPages_end]
  norm_num

/-- Behind a module that ends at 2 MiB and two pages, the heap is not mapped. -/
theorem the_heap_behind_the_window_is_not_mapped :
    mod_start onPages 0x9100 < mod_end onPages 0x9100 ∧
      pageRounded (mod_end onPages 0x9100).toNat + 0x40000 ≤ 2 ^ 32 ∧
      KERNEL_VMB.toNat + 0x200000 ≤ lowest onPages (mod_start onPages 0x9100) ∧
      ∃ w, awd_main (2 ^ 53) symbolsAt1M 0x9000 onPages = ok w ∧ FreshTables symbolsAt1M w ∧
        ¬ HeapMapped symbolsAt1M w := by
  obtain ⟨w, hrun, hfresh⟩ := onPages_boots
  obtain ⟨s, mem, q, hs⟩ := awd_main.spec onPages_listed.find hrun
  have hend := onPages_end
  refine ⟨?_, by omega, onPages_behind_window, w, hrun, hfresh, fun hmapped => ?_⟩
  · rw [onPages_listed.place.1, onPages_listed.place.2]
    decide
  · have := hs.mapped_end hfresh (by omega) hmapped
    omega

end awd
