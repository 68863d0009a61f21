-- A boot that returns. Behind the kernel's image the heap is zero to its limit,
-- and the commit stops only where the tables that it needs take more pages than
-- the heap has there.
import CanidaeOS.AwdMain
import CanidaeOS.AwdTotal

open Program Machine Outcome Paging RadixTree

namespace awd

variable {root : Page} {s : paging}

/-! ## The boot -/

open multiboot_module_t elf64_pheader_t

/-- The regions that the boot loader keeps track of. -/
def regionsOf (sym : Symbols) (m : Memory) (k : U32) : mem_info :=
  { region_low_memory := ⟨0, 0x100000 - 1⟩
    region_awd_image := ⟨sym.awd_phys_start.setWidth 64,
      PAGE_ROUND_UP (sym.awd_phys_end.setWidth 64) - 1⟩
    region_multiboot_files := ⟨PAGE_ROUND_UP ((mod_start m k).setWidth 64), heapBase m k - 1⟩
    region_awd_malloc := ⟨heapBase m k, heapBase m k + AWD_ALLOC_SIZE - 1⟩ }

theorem awd_main_heap.total {sym : Symbols} {mb_struct k : U32} {m : Memory}
    (hk : multiboot_find_kernel m mb_struct = ok k) (hcheck : elf_check m (mod_start m k) = true) :
    ∃ s, awd_main_heap sym mb_struct m = ok (analysed (moduleInfo m k) m, regionsOf sym m k, s) ∧
      s.mem = m ∧ s.alloc = alloc_init (heapBase m k) ∧ s.copies = [] := by
  have hlast := PAGE_ROUND_UP_last (mod_end m k)
  have hanalyse : kernel_analyse ⟨mod_start m k, mod_end m k, ⟨0, 0⟩, ⟨0, 0⟩⟩
      ⟨alloc.static, m, [], []⟩ = ok (analysed (moduleInfo m k) m, ⟨alloc.static, m,
        [] ++ (headers m (mod_start m k)).flatMap (analyseReads m), []⟩) := by
    rw [kernel_analyse.spec, if_neg (by simpa using hcheck)]
    rfl
  refine ⟨⟨alloc_init (heapBase m k), m,
    [] ++ (headers m (mod_start m k)).flatMap (analyseReads m), []⟩, ?_, rfl, rfl, rfl⟩
  simp only [awd_main_heap, multiboot_analyse, hk, bind_ok, hanalyse, memory_heap_init, memory_init,
    hlast]
  rfl

/-- The kernel at the start of the heap. -/
def kernelOf (m : Memory) (k : U32) : kernel_loaded_info_t :=
  let info := analysed (moduleInfo m k) m
  ⟨⟨heapBase m k, info.phys.size⟩, info.virt, elf64_header_t.e_entry m (mod_start m k)⟩

/-- What a boot needs to return: a heap below 4 GiB that does not hold the page
of `paging_pml4`, and behind the image reads as zero, with a page for every
table. -/
structure BootRoom (fuel : Nat) (sym : Symbols) (m : Memory) (k : U32) : Prop where
  fuel : 2 ^ 52 < fuel
  low : pageRounded (mod_end m k).toNat + 0x40000 ≤ 2 ^ 32
  apart : sym.paging_pml4.toNat + 0x1000 ≤ pageRounded (mod_end m k).toNat ∨
    pageRounded (mod_end m k).toNat + 0x40000 ≤ sym.paging_pml4.toNat
  zero : ∀ x : U64, pageRounded (mod_end m k).toNat + imageSize m (mod_start m k) ≤ x.toNat →
    x.toNat < pageRounded (mod_end m k).toNat + 0x40000 → m x = 0
  pages : imageSize m (mod_start m k) +
    0x1000 * (tablesOf (callsOf (paging_regions (regionsOf sym m k) (kernelOf m k)))).card < 0x40000

/-- The block of the image is the first page of the heap. -/
theorem Image.at_base {m : Memory} {k : U32} {s s' : loader} {r : kernel_loaded_info_t} {b : Page}
    (h : Image m (moduleInfo m k) s s' r b) (hheap : s.alloc = alloc_init (heapBase m k)) :
    (pageAddr b).toNat = pageRounded (mod_end m k).toNat := by
  have hbehind := h.behind
  have hnear := h.near
  have hb := pageAddr_toNat b
  have hmod := pageRounded_mod (mod_end m k).toNat
  rw [hheap, (heapBase_toNat m k).1] at hbehind hnear
  omega

/-- Behind the image, memory is as it was. -/
theorem Image.behind_kept {m : Memory} {k : U32} {s s' : loader} {r : kernel_loaded_info_t} {b : Page}
    (h : Image m (moduleInfo m k) s s' r b)
    (hin : ∀ h ∈ loads m (mod_start m k), InExtent m (mod_start m k) h)
    (hb : (pageAddr b).toNat + imageSize m (mod_start m k) < 2 ^ 32) {x : U64}
    (hx : (pageAddr b).toNat + imageSize m (mod_start m k) ≤ x.toNat) : s'.mem x = m x := by
  apply h.frame
  rintro hdr hhdr i hi rfl
  have hdest : (dest_address (analysed (moduleInfo m k) m) ((pageAddr b).setWidth 32) m hdr).toNat =
      (pageAddr b).toNat + ((p_vaddr m hdr).toNat - lowest m (mod_start m k)) :=
    h.dest hdr hhdr
  have hcopied := copied_le m hdr
  have hend := hin hdr hhdr
  have hle : lowest m (mod_start m k) ≤ (p_vaddr m hdr).toNat := lowest_le hhdr
  unfold InExtent at hend
  rw [BitVec.toNat_setWidth, BitVec.toNat_add, BitVec.toNat_ofNat, hdest] at hx
  omega

theorem Room.of_zero (hready : s.alloc.Ready) (hlow : s.alloc.heap_phys_limit.toNat ≤ 2 ^ 32)
    (henabled : s.alloc.alloc_enabled = true)
    (hapart : (pageAddr root).toNat < s.alloc.heap_phys_current.toNat ∨
      s.alloc.heap_phys_limit.toNat ≤ (pageAddr root).toNat)
    (hzero : ∀ x : U64, s.alloc.heap_phys_current.toNat ≤ x.toNat →
      x.toNat < s.alloc.heap_phys_limit.toNat → s.mem x = 0) :
    Room root s.mem s.alloc.heap_phys_current s := by
  refine ⟨?_, henabled, hready⟩
  rintro f ⟨hfirst, hend⟩
  refine ⟨by omega, ?_, fun x hx => ?_⟩
  · rintro rfl
    omega
  · have hpage := pageOf_toNat x
    have haddr := pageAddr_toNat f
    rw [hx] at hpage
    apply hzero
    · omega
    · omega

/-- The regions do not depend on the entry of the kernel. -/
theorem paging_regions_congr {mem : mem_info} {r r' : kernel_loaded_info_t}
    (himage : r.memory_image = r'.memory_image) (hvirt : r.virt = r'.virt) :
    paging_regions mem r = paging_regions mem r' := by
  unfold paging_regions
  rw [himage, hvirt]

/-- A boot with room returns, over fresh tables. -/
theorem awd_main.total {fuel : Nat} {sym : Symbols} {mb_struct k : U32} {m : Memory}
    (hk : multiboot_find_kernel m mb_struct = ok k) (hfile : KernelFile m (moduleInfo m k))
    (hin : ∀ h ∈ loads m (mod_start m k), InExtent m (mod_start m k) h)
    (hroom : BootRoom fuel sym m k) :
    ∃ w, awd_main fuel sym mb_struct m = ok w ∧ FreshTables sym w := by
  obtain ⟨hcur, hlimit⟩ := heapBase_toNat m k
  obtain ⟨s, hheap, hmem, halloc, hcopies⟩ := @awd_main_heap.total sym mb_struct k m hk hfile.check
  have hpages := hroom.pages
  have hlow := hroom.low
  have happart := hroom.apart
  have hbase := pageRounded_mod (mod_end m k).toNat
  have hwhole := imageSize_mod m (mod_start m k)
  have hbehind : HeapBehind s.alloc (moduleInfo m k) := by
    rw [halloc]
    exact ⟨by rw [hcur]; exact le_pageRounded _, by omega, by omega⟩
  have hsize : imageSize m (mod_start m k) < 2 ^ 32 := by omega
  have hfuel : (elf64_header_t.e_phnum m (mod_start m k)).toNat < fuel := by
    have := (elf64_header_t.e_phnum m (mod_start m k)).isLt
    have := hroom.fuel
    omega
  subst hmem
  -- the image takes the first pages of the heap
  obtain ⟨⟨kernel, s'⟩, hload⟩ := kernel_load.total hfile hbehind hin (by rw [halloc]; rfl) (by
    rw [halloc, hcur, hlimit]
    show pageRounded (pageRounded (mod_end s.mem k).toNat) + imageSize s.mem (mod_start s.mem k) < _
    generalize pageRounded (mod_end s.mem k).toNat = base at *
    unfold pageRounded
    omega) hfuel
  obtain ⟨b, himage⟩ := kernel_load.spec hfile hbehind hsize hin hload
  have hb := himage.at_base halloc
  obtain ⟨img, hcall, hplace, hvirt⟩ := kernel_load.heap hload
  have hregions : paging_regions (regionsOf sym s.mem k) kernel =
      paging_regions (regionsOf sym s.mem k) (kernelOf s.mem k) := by
    have hstart : pageAddr b = heapBase s.mem k := BitVec.eq_of_toNat_eq (hb.trans hcur.symm)
    refine paging_regions_congr ?_ hvirt
    rw [show kernel.memory_image = ⟨kernel.memory_image.start, _⟩ from
      congrArg (kernel_region_t.mk _) (congrArg kernel_region_t.size hplace), himage.start, hstart]
    rfl
  -- the tables take the next ones
  obtain ⟨q, hinit, hqueue, hqalloc, hqmem⟩ := paging_init.spec (regionsOf sym s.mem k) kernel s'
  rw [hregions] at hqueue
  have hqcur : q.alloc.heap_phys_current.toNat =
      pageRounded (mod_end s.mem k).toNat + imageSize s.mem (mod_start s.mem k) := by
    rw [hqalloc, himage.current, hb]
    rfl
  have hqlimit : q.alloc.heap_phys_limit.toNat = pageRounded (mod_end s.mem k).toNat + 0x40000 := by
    rw [hqalloc, himage.limit, halloc, hlimit]
  have hroot := rootOf_toNat sym.aligned
  have hroomOf : Room (rootOf sym.paging_pml4) q.mem q.alloc.heap_phys_current q := by
    refine Room.of_zero ⟨by omega, by omega⟩ (by omega) (hqalloc ▸ malloc_aligned.enabled hcall) (by omega) ?_
    intro x hge hlt
    rw [hqmem, himage.behind_kept hin (by omega) (by omega)]
    exact hroom.zero x (by omega) (by omega)
  have hfit : pageRounded q.alloc.heap_phys_current.toNat + 0x1000 *
      (tablesOf (callsOf (paging_regions (regionsOf sym s.mem k) (kernelOf s.mem k)))).card <
      q.alloc.heap_phys_limit.toNat := by
    rw [hqlimit, hqcur]
    generalize pageRounded (mod_end s.mem k).toNat = base at *
    unfold pageRounded
    omega
  obtain ⟨p, hcommit⟩ := paging_commit.total (hroot.trans_lt sym.paging_pml4.isLt) hqueue
    (count_lt_of_tables (by omega)) hroom.fuel hroomOf hfit
  have hlater := paging_commit.later hroomOf.ready hqueue hcommit
  have hfresh := hroomOf.zero.mono (hlater.limit ▸ hlater.ready.below)
  rw [hqmem, hqalloc] at hfresh
  rw [ptr_rootOf sym.aligned] at hcommit
  refine ⟨⟨analysed (moduleInfo s.mem k) s.mem, kernel, s', p, p.alloc.heap_phys_current.setWidth 32,
    p.alloc.heap_phys_limit.setWidth 32⟩, ?_, hfresh⟩
  rw [awd_main, hheap, bind_ok]
  simp only [hload, bind_ok, hinit, hcommit]

/-! ## A boot from a list -/

theorem written_frame {ws : List (U64 × Nat × Nat)} {m : Memory} {x : U64}
    (h : ∀ w ∈ ws, ¬ InRange w.1 w.2.1 x) : written ws m x = m x := by
  induction ws with
  | nil => rfl
  | cons w ws ih =>
    have hw := h w List.mem_cons_self
    have ih := ih fun w hw => h w (List.mem_cons_of_mem _ hw)
    rw [written, List.foldr_cons, storeBytes, if_neg hw]
    exact ih

/-- What lies below `a` does not reach it. -/
theorem written_above {ws : List (U64 × Nat × Nat)} {m : Memory} {a : Nat}
    (hws : ∀ w ∈ ws, w.1.toNat + w.2.1 ≤ a) {x : U64} (hx : a ≤ x.toNat) : written ws m x = m x := by
  apply written_frame
  intro w hw hin
  have := hws w hw
  unfold InRange at hin
  have := x.isLt
  bv_omega

/-- The kernel at 2 MiB, as the one module of a list. -/
@[irreducible] def listed (m : Memory) : Memory :=
  written [(0x9014, 4, 1), (0x9018, 4, 0x9100), (0x9100, 4, 0x200000), (0x9104, 4, 0x202000),
    (0x9108, 4, 0x9200), (0x9200, 7, 0x6c656e72656b)] m

/-- What the boot loader sees of the list. -/
structure ListedAt2M (m : Memory) : Prop where
  find : multiboot_find_kernel m 0x9000 = ok 0x9100
  place : mod_start m 0x9100 = 0x200000 ∧ mod_end m 0x9100 = 0x202000
  zero : ∀ x : U64, 0x202000 ≤ x.toNat → m x = 0

theorem ListedAt2M.info {m : Memory} (h : ListedAt2M m) : moduleInfo m 0x9100 = moduleAt2M := by
  rw [moduleInfo, h.place.1, h.place.2]
  rfl

theorem ListedAt2M.regions {m : Memory} (h : ListedAt2M m) (hsize : imageSize m 0x200000 = 0x2000)
    (hplace : lowest m 0x200000 / 0x1000 % 512 + 2 ≤ 512) :
    ∀ r ∈ paging_regions (regionsOf symbolsAt1M m 0x9100) (kernelOf m 0x9100), r.InOneTable := by
  have hbase : heapBase m 0x9100 = 0x202000 := by
    rw [heapBase, h.place.2]
    rfl
  have hinfo := h.info
  obtain ⟨hlow, himage⟩ := extentOf_spec m 0x200000
  have hsize' : (extentOf m 0x200000).phys_size = 0x2000 := BitVec.eq_of_toNat_eq (himage.trans hsize)
  simp only [paging_regions, regionsOf, kernelOf, hbase, hinfo, analysed, List.forall_mem_cons]
  refine ⟨by decide, by decide, by decide, by decide, ?_, by simp⟩
  show (extentOf m 0x200000).virt_start.toNat / 0x1000 % 512 + pages _ ≤ 512
  show _ + pages ((extentOf m 0x200000).virt_start + (extentOf m 0x200000).phys_size -
    (extentOf m 0x200000).virt_start) ≤ _
  rw [BitVec.add_comm, BitVec.add_sub_cancel, hsize', hlow]
  exact hplace

/-- A kernel of two pages on the list boots, with all its pages below one table. -/
theorem ListedAt2M.boots {m : Memory} (h : ListedAt2M m) (hfile : KernelFile m moduleAt2M)
    (hin : ∀ h ∈ loads m 0x200000, InExtent m 0x200000 h) (hsize : imageSize m 0x200000 = 0x2000)
    (hplace : lowest m 0x200000 / 0x1000 % 512 + 2 ≤ 512) :
    ∃ w, awd_main (2 ^ 53) symbolsAt1M 0x9000 m = ok w ∧ FreshTables symbolsAt1M w := by
  have hinfo := h.info
  have hbase : pageRounded (mod_end m 0x9100).toNat = 0x202000 := by
    rw [h.place.2]
    decide
  have htables := tables_card_le (h.regions hsize hplace)
  have hlength : (paging_regions (regionsOf symbolsAt1M m 0x9100) (kernelOf m 0x9100)).length = 5 := rfl
  rw [hlength] at htables
  rw [← h.place.1] at hin hsize
  refine awd_main.total h.find (hinfo ▸ hfile) hin ⟨by norm_num, ?_, ?_, ?_, ?_⟩
  · rw [hbase]
    norm_num
  · rw [hbase]
    decide
  · intro x hge hlt
    apply h.zero
    omega
  · rw [hsize]
    omega

/-- Two LOAD segments in the one module of a list, and zero elsewhere. -/
def listedLoads (v₁ f₁ s₁ v₂ f₂ s₂ : Nat) : Memory := listed (twoLoads 0 v₁ f₁ s₁ v₂ f₂ s₂)

theorem listedLoads_zero (v₁ f₁ s₁ v₂ f₂ s₂ : Nat) {x : U64} (hx : 0x202000 ≤ x.toNat) :
    listedLoads v₁ f₁ s₁ v₂ f₂ s₂ x = 0 := by
  unfold listedLoads listed twoLoads
  rw [written_above (a := 0x202000) (by decide) hx, written_above (a := 0x202000) ?_ hx]
  simp [ehdr, phdr]

end awd
