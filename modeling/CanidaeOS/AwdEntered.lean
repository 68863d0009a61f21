-- What the tables say where the kernel is entered. The image is mapped in whole
-- pages from its lowest address, and the kernel reaches physical memory through
-- a window of 2 MiB, so both fit only some kernels and some places of the heap.
import CanidaeOS.AwdRoom

open Program Machine Outcome Paging

namespace awd

open multiboot_module_t elf64_pheader_t

variable {fuel : Nat} {sym : Symbols} {mb_struct : U32} {m : Memory} {k : U32} {w : Entered}
  {s : loader} {mem : mem_info} {q : paging}

/-! ## The image -/

/-- Every LOAD segment, byte by byte, is translated to where its copy went. -/
def ImageAgrees (sym : Symbols) (m : Memory) (k : U32) (w : Entered) : Prop :=
  List.Forall₂ (fun h c => ∀ i < (p_filesz m h).toNat,
      physicalAt w.paging.mem sym.paging_pml4 (p_vaddr m h + BitVec.ofNat 64 i) =
        some (c.1 + BitVec.ofNat 32 i).toNat)
    (loads m (mod_start m k)) w.loader.copies

/-- For a kernel whose segments lie in its extent, the log of the copies and the
place of each. -/
theorem Steps.image (hs : Steps fuel sym m k w s mem q) (hfresh : FreshTables sym w)
    (hfile : KernelFile m (moduleInfo m k))
    (hin : ∀ h ∈ loads m (mod_start m k), InExtent m (mod_start m k) h) :
    ∃ b : Page, w.kernel.memory_image.start = pageAddr b ∧
      w.kernel.virt.start.toNat = lowest m (mod_start m k) ∧
      (pageAddr b).toNat + imageSize m (mod_start m k) < 2 ^ 32 ∧
      w.loader.copies = (loads m (mod_start m k)).map fun h =>
        (dest_address (analysed (moduleInfo m k) m) ((pageAddr b).setWidth 32) m h, copied m h) := by
  obtain ⟨b, himage, hvirt, hge, hcur, -, -⟩ := hs.block
  have hsize := hs.size_lt hfresh
  have hlow := hs.low hfresh
  rw [Nat.mod_eq_of_lt hsize] at hcur
  have hb : (pageAddr b).toNat + imageSize m (mod_start m k) < 2 ^ 32 := by omega
  obtain ⟨⟨img, a⟩, hcall, h⟩ := bind_eq_ok.mp hs.load
  obtain ⟨t, hloop, h⟩ := bind_eq_ok.mp h
  obtain ⟨hkernel, hloader⟩ := Prod.mk.inj (ok.inj h)
  have himg : img = (pageAddr b).setWidth 32 := by
    have hstart := congrArg (fun r => r.memory_image.start.setWidth 32) hkernel
    rw [himage] at hstart
    simpa using hstart
  subst himg
  obtain rfl := hs.memory
  have hend : (mod_end s.mem k).toNat ≤ (pageAddr b).toNat :=
    (le_pageRounded _).trans hge
  have hsep := undisturbed_behind hfile hin hend hb
  have ht := kernel_load.loop_eq (s := { s with alloc := a }) hsep hloop
  have hcopies : t.copies = s.copies ++ (loads s.mem (mod_start s.mem k)).map fun h =>
      (dest_address (analysed (moduleInfo s.mem k) s.mem) ((pageAddr b).setWidth 32) s.mem h,
        copied s.mem h) := by
    rw [ht]
    exact (segments_logs (headers s.mem (mod_start s.mem k))).2.2
  refine ⟨b, ?_, ?_, hb, ?_⟩
  · rw [himage]
    exact block_ptr (by omega)
  · rw [hvirt]
    exact (extentOf_spec s.mem (mod_start s.mem k)).1
  · rw [← hloader, hcopies, hs.copies, List.nil_append]

/-- The image's region translates its bytes when it starts with a page. -/
theorem Steps.image_byte (hs : Steps fuel sym m k w s mem q) (hfresh : FreshTables sym w) {b : Page}
    (hstart : w.kernel.memory_image.start = pageAddr b)
    (hvirt : w.kernel.virt.start.toNat = lowest m (mod_start m k))
    (hb : (pageAddr b).toNat + imageSize m (mod_start m k) < 2 ^ 32)
    (hpage : lowest m (mod_start m k) % 0x1000 = 0) {v : U64} {d : Nat}
    (hv : v.toNat = (lowest m (mod_start m k) + d) % 2 ^ 64)
    (hd : d < imageSize m (mod_start m k)) :
    physicalAt w.paging.mem sym.paging_pml4 v = some ((pageAddr b).toNat + d) := by
  have hsize := hs.size_lt hfresh
  have hcount := hs.image_count
  have hmod := imageSize_mod m (mod_start m k)
  have hvlt := v.isLt
  have hstart_lt := w.kernel.virt.start.isLt
  have hat : ∀ j < (imageRegion w.kernel).count,
      (pageAt (imageRegion w.kernel).virt_start j).toNat =
        (lowest m (mod_start m k) + j * 0x1000) % 2 ^ 64 := by
    intro j hj
    show (w.kernel.virt.start + BitVec.ofNat 64 j * 0x1000).toNat = _
    rw [BitVec.toNat_add, BitVec.toNat_mul, BitVec.toNat_ofNat, hvirt]
    simp only [BitVec.reduceToNat]
    omega
  have hin : d / 0x1000 < (imageRegion w.kernel).count := by omega
  have hway : SameWay v (pageAt (imageRegion w.kernel).virt_start (d / 0x1000)) := by
    rw [sameWay_iff, hat _ hin, hv]
    omega
  have hone : ∀ j < (imageRegion w.kernel).count,
      SameWay v (pageAt (imageRegion w.kernel).virt_start j) → j = d / 0x1000 := by
    intro j hj hsame
    rw [sameWay_iff, hat j hj, hv] at hsame
    omega
  have hframe : PageAligned (pageAt (pageAddr b) (d / 0x1000)) := pageAt_aligned (pageAddr_aligned b) _
  have hleaf : leaf (pageAt (pageAddr b) (d / 0x1000) ||| PAGING_ATTRIBUTE_READWRITE.setWidth 64) =
      some (pageAt (pageAddr b) (d / 0x1000), 3) := leaf_or hframe (by decide) (by decide)
  have hdrawn : drawn (callsOf (paging_regions mem w.kernel)) v =
      some (pageAt (pageAddr b) (d / 0x1000), 3) := by
    rw [callsOf_regions, drawn_last hin hway hone, ← hleaf, ← hstart]
    rfl
  have hplace : (pageAt (pageAddr b) (d / 0x1000)).toNat = (pageAddr b).toNat + d / 0x1000 * 0x1000 := by
    rw [pageAt, BitVec.toNat_add, BitVec.toNat_mul, BitVec.toNat_ofNat]
    simp only [BitVec.reduceToNat]
    omega
  rw [physicalAt, (hs.tables hfresh).2 v, hdrawn, Option.map_some, hplace]
  congr 1
  omega

/-- A translation keeps the place in the page. -/
theorem Steps.place_in_page (hs : Steps fuel sym m k w s mem q) (hfresh : FreshTables sym w) {v : U64}
    {a : Nat} (h : physicalAt w.paging.mem sym.paging_pml4 v = some a) : a % 0x1000 = v.toNat % 0x1000 := by
  unfold physicalAt at h
  obtain ⟨l, hl, rfl⟩ := Option.map_eq_some_iff.mp h
  rw [(hs.tables hfresh).2 v] at hl
  obtain ⟨c, -, -, hleaf⟩ := drawn_mem hl
  rw [leaf_frame (byte_flags c.page_attr) hleaf]
  omega

/-- The copies of the segments, byte by byte. -/
theorem dest_byte {b : Page} (hb : (pageAddr b).toNat + imageSize m (mod_start m k) < 2 ^ 32) {h : U32}
    (hh : h ∈ loads m (mod_start m k)) (hend : InExtent m (mod_start m k) h) {i : Nat}
    (hi : i < (p_filesz m h).toNat) :
    (dest_address (analysed (moduleInfo m k) m) ((pageAddr b).setWidth 32) m h +
      BitVec.ofNat 32 i).toNat =
        (pageAddr b).toNat + ((p_vaddr m h).toNat - lowest m (mod_start m k)) + i := by
  have hle := lowest_le hh
  have hplace := @dest_toNat m (moduleInfo m k) b h hh hend hb
  unfold InExtent span at hend
  rw [BitVec.toNat_add, hplace, BitVec.toNat_ofNat]
  show (_ + ((p_vaddr m h).toNat - lowest m (mod_start m k)) + _) % _ = _
  omega

/-- Where the two agree on a byte of the file, the image starts with a page:
the block of the copies does. -/
theorem Steps.agrees_page (hs : Steps fuel sym m k w s mem q) (hfresh : FreshTables sym w)
    (hfile : KernelFile m (moduleInfo m k))
    (hin : ∀ h ∈ loads m (mod_start m k), InExtent m (mod_start m k) h)
    (hagree : ImageAgrees sym m k w) {h : U32} (hh : h ∈ loads m (mod_start m k))
    (hpos : 0 < (p_filesz m h).toNat) : lowest m (mod_start m k) % 0x1000 = 0 := by
  obtain ⟨b, hstart, hvirt, hb, hcopies⟩ := hs.image hfresh hfile hin
  rw [ImageAgrees, hcopies, List.forall₂_map_right_iff, List.forall₂_same] at hagree
  have hplace := hs.place_in_page hfresh (hagree h hh 0 hpos)
  have hle := lowest_le hh
  have haligned := pageAddr_aligned b
  unfold PageAligned at haligned
  dsimp only at hplace
  rw [dest_byte hb hh (hin h hh) hpos] at hplace
  simp only [BitVec.add_zero] at hplace
  omega

/-- For a kernel whose segments lie in its extent, the loader and the tables
agree on every byte if and only if the lowest address is that of a page, or no
segment has a byte in the file. -/
theorem the_image_is_where_the_tables_say (hk : multiboot_find_kernel m mb_struct = ok k)
    (hfile : KernelFile m (moduleInfo m k))
    (hin : ∀ h ∈ loads m (mod_start m k), InExtent m (mod_start m k) h)
    (h : awd_main fuel sym mb_struct m = ok w) (hfresh : FreshTables sym w) :
    ImageAgrees sym m k w ↔ lowest m (mod_start m k) % 0x1000 = 0 ∨
      ∀ h ∈ loads m (mod_start m k), p_filesz m h = 0 := by
  obtain ⟨s, mem, q, hs⟩ := awd_main.spec hk h
  constructor
  · intro hagree
    by_contra hnot
    push Not at hnot
    obtain ⟨hoff, h, hh, hsome⟩ := hnot
    have hpos : 0 < (p_filesz m h).toNat := by
      rcases Nat.eq_zero_or_pos (p_filesz m h).toNat with hz | hpos
      · exact absurd (BitVec.eq_of_toNat_eq hz) hsome
      · exact hpos
    exact hoff (hs.agrees_page hfresh hfile hin hagree hh hpos)
  · obtain ⟨b, hstart, hvirt, hb, hcopies⟩ := hs.image hfresh hfile hin
    rw [ImageAgrees, hcopies, List.forall₂_map_right_iff, List.forall₂_same]
    rintro (hpage | hnone) h hh i hi
    · have hend := hin h hh
      have hle := lowest_le hh
      unfold InExtent span at hend
      have hv : (p_vaddr m h + BitVec.ofNat 64 i).toNat = (lowest m (mod_start m k) +
          ((p_vaddr m h).toNat - lowest m (mod_start m k) + i)) % 2 ^ 64 := by
        rw [BitVec.toNat_add, BitVec.toNat_ofNat]
        omega
      rw [hs.image_byte hfresh hstart hvirt hb hpage hv (by omega)]
      dsimp only
      rw [dest_byte hb hh (hin h hh) hi, Nat.add_assoc]
    · rw [hnone h hh] at hi
      exact absurd hi (Nat.not_lt_zero i)

/-- Two segments on neighbouring pages. -/
def onPages : Memory := listedLoads 0xffffffff80200000 0x800 0x1000 0xffffffff80201000 0x400 0x1000

theorem onPages_loads : TwoLoads onPages 0xffffffff80200000 0x800 0x1000 0xffffffff80201000 0x400
    0x1000 := by
  refine ⟨?_, ?_, ?_, ?_, ?_⟩
  all_goals with_unfolding_all decide

theorem onPages_listed : ListedAt2M onPages := by
  refine ⟨?_, ?_, fun x hx => listedLoads_zero _ _ _ _ _ _ hx⟩
  · with_unfolding_all decide
  · with_unfolding_all decide

theorem onPages_boots :
    ∃ w, awd_main (2 ^ 53) symbolsAt1M 0x9000 onPages = ok w ∧ FreshTables symbolsAt1M w := by
  have hm := onPages_loads
  refine onPages_listed.boots hm.file (twoPages_inExtent hm) (twoPages_size hm) ?_
  rw [hm.lowest]
  decide

theorem the_image_is_where_the_tables_say_on_two_pages : ∃ w,
    awd_main (2 ^ 53) symbolsAt1M 0x9000 onPages = ok w ∧
      (ImageAgrees symbolsAt1M onPages 0x9100 w ↔
        lowest onPages (mod_start onPages 0x9100) % 0x1000 = 0 ∨
          ∀ h ∈ loads onPages (mod_start onPages 0x9100), p_filesz onPages h = 0) := by
  have hm := onPages_loads
  have hl := onPages_listed
  obtain ⟨w, hrun, hfresh⟩ := onPages_boots
  have hin : ∀ h ∈ loads onPages (mod_start onPages 0x9100), InExtent onPages
      (mod_start onPages 0x9100) h := by
    rw [hl.place.1]
    exact twoPages_inExtent hm
  exact ⟨w, hrun, the_image_is_where_the_tables_say hl.find (hl.info ▸ hm.file) hin hrun hfresh⟩

/-- The first segment in the middle of a page. -/
def offPages : Memory := listedLoads 0xffffffff80200800 0x400 0x400 0xffffffff80201000 0x400 0x1000

theorem offPages_loads : TwoLoads offPages 0xffffffff80200800 0x400 0x400 0xffffffff80201000 0x400
    0x1000 := by
  refine ⟨?_, ?_, ?_, ?_, ?_⟩
  all_goals with_unfolding_all decide

theorem offPages_listed : ListedAt2M offPages := by
  refine ⟨?_, ?_, fun x hx => listedLoads_zero _ _ _ _ _ _ hx⟩
  · with_unfolding_all decide
  · with_unfolding_all decide

/-- The tables lead a kernel off the pages to other bytes than its own. -/
theorem an_image_off_the_pages_is_elsewhere :
    KernelFile offPages (moduleInfo offPages 0x9100) ∧
      (∀ h ∈ loads offPages (mod_start offPages 0x9100),
        InExtent offPages (mod_start offPages 0x9100) h) ∧
      ∃ w, awd_main (2 ^ 53) symbolsAt1M 0x9000 offPages = ok w ∧ FreshTables symbolsAt1M w ∧
        ¬ ImageAgrees symbolsAt1M offPages 0x9100 w := by
  have hm := offPages_loads
  have hl := offPages_listed
  have hin : ∀ h ∈ loads offPages 0x200000, InExtent offPages 0x200000 h := by
    refine hm.forall_loads ?_ ?_
    · rw [InExtent, span, hm.lowest, hm.imageSize, hm.first.1, hm.first.2.1, hm.first.2.2]
      decide
    · rw [InExtent, span, hm.lowest, hm.imageSize, hm.second.1, hm.second.2.1, hm.second.2.2]
      decide
  have hfile : KernelFile offPages (moduleInfo offPages 0x9100) := hl.info ▸ hm.file
  obtain ⟨w, hrun, hfresh⟩ := hl.boots hm.file hin (hm.imageSize.trans (by decide)) (by
    rw [hm.lowest]
    decide)
  have hstart := hl.place.1
  refine ⟨hfile, hstart ▸ hin, w, hrun, hfresh, fun hagree => ?_⟩
  obtain ⟨s, mem, q, hs⟩ := awd_main.spec hl.find hrun
  have hfirst : (0x200040 : U32) ∈ loads offPages (mod_start offPages 0x9100) := by
    rw [hstart, hm.loads]
    exact List.mem_cons_self
  have hpage := hs.agrees_page hfresh hfile (hstart ▸ hin) hagree hfirst (by
    rw [hm.first.2.1]
    decide)
  rw [hstart, hm.lowest] at hpage
  exact absurd hpage (by decide)

end awd
