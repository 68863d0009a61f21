-- Whether the memory image holds its segments, and whether their uninitialised
-- data starts as zero. Both depend on what no code looks at: the gaps between
-- the segments, and what the block held before.
import CanidaeOS.AwdImage

open Program Machine Outcome Paging

namespace awd

open elf64_header_t elf64_pheader_t

/-! ## The extent -/

/-- The memory of every LOAD segment lies in the region. -/
def CoversSegments (m : Memory) (image_start : U32) (virt : kernel_region_t) : Prop :=
  ∀ h ∈ loads m image_start, virt.start.toNat ≤ (p_vaddr m h).toNat ∧
    (p_vaddr m h).toNat + (p_memsz m h).toNat ≤ virt.start.toNat + virt.size.toNat

/-- Every byte that is copied lands in the region. -/
def CopiesInside (copies : List (U32 × Nat)) (image : kernel_region_t) : Prop :=
  ∀ c ∈ copies, ∀ k < c.2, image.start.toNat ≤ (c.1 + BitVec.ofNat 32 k).toNat ∧
    (c.1 + BitVec.ofNat 32 k).toNat < image.start.toNat + image.size.toNat

/-- The extent that the first pass finds covers the segments, and with any
heap behind the module, what the second pass copies lands in its block. -/
def ExtentSuffices (info : kernel_info_t) (s : loader) : Prop :=
  ∀ info' t, kernel_analyse info s = ok (info', t) →
    CoversSegments s.mem info.image_start info'.virt ∧
      ∀ fuel a r u, HeapBehind a info →
        kernel_load fuel info' { t with alloc := a, copies := [] } = ok (r, u) →
        CopiesInside u.copies r.memory_image

/-- The exact condition on the segments: from the lowest address to the
highest end it is no further than their sizes in whole pages add up to. -/
def FewGaps (m : Memory) (image_start : U32) : Prop :=
  ∀ h ∈ loads m image_start, (p_vaddr m h).toNat + (p_memsz m h).toNat ≤
    lowest m image_start + imageSize m image_start

theorem kernel_analyse.of_file {info : kernel_info_t} {s : loader} (hfile : KernelFile s.mem info) :
    kernel_analyse info s = ok (analysed info s.mem, { s with
      reads := s.reads ++ (headers s.mem info.image_start).flatMap (analyseReads s.mem) }) := by
  rw [kernel_analyse.spec, if_neg (by rw [hfile.check]; decide)]

theorem covers_iff (info : kernel_info_t) (m : Memory) :
    CoversSegments m info.image_start (analysed info m).virt ↔ FewGaps m info.image_start := by
  obtain ⟨hlow, hsize⟩ := extentOf_spec m info.image_start
  have hstart : (analysed info m).virt.start.toNat = lowest m info.image_start := hlow
  have hsize' : (analysed info m).virt.size.toNat = imageSize m info.image_start := hsize
  unfold CoversSegments FewGaps
  rw [hstart, hsize']
  exact forall₂_congr fun h hh => and_iff_right (lowest_le hh)

/-- For a kernel whose sizes fit 32 bits, the extent suffices if and only if
the segments leave few gaps. -/
theorem an_extent_suffices {info : kernel_info_t} {s : loader} (hfile : KernelFile s.mem info)
    (hfilesz : ∀ h ∈ loads s.mem info.image_start, (p_filesz s.mem h).toNat ≤ (p_memsz s.mem h).toNat)
    (hsize : imageSize s.mem info.image_start < 2 ^ 32) :
    ExtentSuffices info s ↔ FewGaps s.mem info.image_start := by
  have hcall := kernel_analyse.of_file hfile
  constructor
  · intro h
    exact (covers_iff info s.mem).mp (h _ _ hcall).1
  · intro hgaps info' t ht
    rw [hcall] at ht
    cases ht
    refine ⟨(covers_iff info s.mem).mpr hgaps, fun fuel a r u ha hload => ?_⟩
    have hspan : ∀ h ∈ loads s.mem info.image_start, InExtent s.mem info.image_start h := by
      intro h hh
      rw [InExtent, span, Nat.max_eq_right (hfilesz h hh)]
      exact hgaps h hh
    obtain ⟨b, himage⟩ := kernel_load.spec (s := { s with
      alloc := a, copies := []
      reads := s.reads ++ (headers s.mem info.image_start).flatMap (analyseReads s.mem) })
      hfile ha hsize hspan hload
    intro c hc k hk
    rw [himage.copies, List.nil_append] at hc
    obtain ⟨h, hh, rfl⟩ := List.mem_map.mp hc
    have hd : _ = (pageAddr b).toNat +
      ((p_vaddr s.mem h).toNat - lowest s.mem info.image_start) := himage.dest h hh
    have hend := hspan h hh
    have hcopied := copied_le s.mem h
    have hle : lowest s.mem info.image_start ≤ (p_vaddr s.mem h).toNat := lowest_le hh
    have hfits : _ < a.heap_phys_limit.toNat := himage.fits
    have hcur : _ = (pageAddr b).toNat + imageSize s.mem info.image_start := himage.current
    have hsz : _ = imageSize s.mem info.image_start := himage.size
    have hlimit := ha.limit
    dsimp only at hk
    unfold InExtent at hend
    rw [himage.start, hsz, BitVec.toNat_add, BitVec.toNat_ofNat, hd]
    omega

theorem an_extent_suffices_for_two_pages :
    ExtentSuffices moduleAt2M (loaderOver (twoPages 0)) ↔ FewGaps (twoPages 0) 0x200000 := by
  have hm := twoPages_clean
  have hfilesz : ∀ h ∈ loads (twoPages 0) 0x200000,
      (p_filesz (twoPages 0) h).toNat ≤ (p_memsz (twoPages 0) h).toNat := by
    refine hm.forall_loads ?_ ?_
    · rw [hm.first.2.1, hm.first.2.2]
      decide
    · rw [hm.second.2.1, hm.second.2.2]
      decide
  have hsize : imageSize (twoPages 0) 0x200000 < 2 ^ 32 := by
    rw [hm.imageSize]
    decide
  exact an_extent_suffices (s := loaderOver (twoPages 0)) hm.file hfilesz hsize

/-- Two segments of a page, 1 MiB apart. -/
def farApart : Memory := twoLoads 0 0xffffffff80200000 0x800 0x1000 0xffffffff80300000 0x400 0x1000

theorem farApart_loads : TwoLoads farApart 0xffffffff80200000 0x800 0x1000 0xffffffff80300000 0x400
    0x1000 := by
  refine ⟨?_, ?_, ?_, ?_, ?_⟩
  all_goals with_unfolding_all decide

/-- The extent of two pages does not cover a segment 1 MiB up. -/
theorem an_extent_misses_a_far_segment :
    KernelFile farApart moduleAt2M ∧
      (∀ h ∈ loads farApart 0x200000, (p_filesz farApart h).toNat ≤ (p_memsz farApart h).toNat) ∧
      imageSize farApart 0x200000 = 0x2000 ∧
      ¬ ExtentSuffices moduleAt2M (loaderOver farApart) := by
  have hm := farApart_loads
  have hsize : imageSize farApart 0x200000 = 0x2000 := hm.imageSize.trans (by decide)
  refine ⟨hm.file, hm.forall_loads ?_ ?_, hsize, fun h => ?_⟩
  · rw [hm.first.2.1, hm.first.2.2]
    decide
  · rw [hm.second.2.1, hm.second.2.2]
    decide
  · have hgaps := (covers_iff moduleAt2M farApart).mp
      (h _ _ (kernel_analyse.of_file (s := loaderOver farApart) hm.file)).1
    have hfar : (p_vaddr farApart 0x200078).toNat + (p_memsz farApart 0x200078).toNat ≤
        lowest farApart 0x200000 + imageSize farApart 0x200000 :=
      hgaps 0x200078 (by rw [show moduleAt2M.image_start = 0x200000 from rfl, hm.loads]; simp)
    rw [hm.lowest, hsize, hm.second.1, hm.second.2.2] at hfar
    revert hfar
    decide

/-! ## Uninitialised data -/

/-- Byte `k` of a segment, in an image that starts at `start`. -/
def imageByte (m : Memory) (image_start : U32) (start : Nat) (h : U32) (k : Nat) : U64 :=
  BitVec.ofNat 64 (start + ((p_vaddr m h).toNat - lowest m image_start) + k)

/-- In `m'`, every byte of the image that is in a segment's memory and not in
its file is zero. -/
def BssZero (m : Memory) (image_start : U32) (start : Nat) (m' : Memory) : Prop :=
  ∀ h ∈ loads m image_start, ∀ k, (p_filesz m h).toNat ≤ k → k < (p_memsz m h).toNat →
    m' (imageByte m image_start start h k) = 0

/-- The memory of two segments shares no address. -/
def SpansApart (m : Memory) (h h' : U32) : Prop :=
  (p_vaddr m h).toNat + span m h ≤ (p_vaddr m h').toNat ∨
    (p_vaddr m h').toNat + span m h' ≤ (p_vaddr m h).toNat

instance (m : Memory) : Std.Symm (SpansApart m) := ⟨fun _ _ => Or.symm⟩

/-- No copy reaches the uninitialised data of a segment. -/
theorem Image.bss_kept {m : Memory} {info : kernel_info_t} {s s' : loader} {r : kernel_loaded_info_t}
    {b : Page} (himage : Image m info s s' r b)
    (hb : (pageAddr b).toNat + imageSize m info.image_start < 2 ^ 32)
    (hin : ∀ h ∈ loads m info.image_start, InExtent m info.image_start h)
    (hapart : (loads m info.image_start).Pairwise (SpansApart m)) {h : U32}
    (hh : h ∈ loads m info.image_start) {k : Nat} (hfile : (p_filesz m h).toNat ≤ k)
    (hmem : k < (p_memsz m h).toNat) :
    s'.mem (imageByte m info.image_start (pageAddr b).toNat h k) =
      m (imageByte m info.image_start (pageAddr b).toNat h k) := by
  refine himage.frame _ fun h' hh' j hj heq => ?_
  have hd := himage.dest h' hh'
  have hend := hin h hh
  have hend' := hin h' hh'
  have hle := lowest_le hh
  have hle' := lowest_le hh'
  have hc' := copied_le m h'
  have hspan : (p_memsz m h).toNat ≤ span m h := Nat.le_max_right _ _
  unfold InExtent at hend hend'
  have hvalue := congrArg BitVec.toNat heq
  rw [imageByte, BitVec.toNat_ofNat, BitVec.toNat_setWidth, BitVec.toNat_add, hd,
    BitVec.toNat_ofNat] at hvalue
  by_cases hsame : h' = h
  · subst hsame
    have hcopied : copied m h' ≤ (p_filesz m h').toNat := by
      rw [copied, BitVec.toNat_setWidth]
      exact Nat.mod_le _ _
    omega
  · have hsep := hapart.forall hh hh' fun heq => hsame heq.symm
    unfold SpansApart at hsep
    omega

/-- After `kernel_load`, the uninitialised data of a kernel is zero if and only
if the block of the image, the first whole pages of the heap, was zero there
before. -/
theorem the_uninitialised_data_is_what_was_there {fuel : Nat} {info info' : kernel_info_t}
    {s t u : loader} {a : alloc} {r : kernel_loaded_info_t} (hfile : KernelFile s.mem info)
    (hheap : HeapBehind a info) (hsize : imageSize s.mem info.image_start < 2 ^ 32)
    (hin : ∀ h ∈ loads s.mem info.image_start, InExtent s.mem info.image_start h)
    (hapart : (loads s.mem info.image_start).Pairwise (SpansApart s.mem))
    (hanalyse : kernel_analyse info s = ok (info', t))
    (hload : kernel_load fuel info' { t with alloc := a } = ok (r, u)) :
    BssZero s.mem info.image_start r.memory_image.start.toNat u.mem ↔
      BssZero s.mem info.image_start (pageRounded a.heap_phys_current.toNat) s.mem := by
  rw [kernel_analyse.of_file hfile] at hanalyse
  cases hanalyse
  obtain ⟨b, himage⟩ := kernel_load.spec (s := { s with
    alloc := a
    reads := s.reads ++ (headers s.mem info.image_start).flatMap (analyseReads s.mem) })
    hfile hheap hsize hin hload
  have hbehind : a.heap_phys_current.toNat ≤ (pageAddr b).toNat := himage.behind
  have hnear : (pageAddr b).toNat < a.heap_phys_current.toNat + 0x1000 := himage.near
  have hcur : _ = (pageAddr b).toNat + imageSize s.mem info.image_start := himage.current
  have hfits : _ < a.heap_phys_limit.toNat := himage.fits
  have hlimit := hheap.limit
  have hblock : pageRounded a.heap_phys_current.toNat = (pageAddr b).toNat := by
    have := pageAddr_toNat b
    unfold pageRounded
    omega
  rw [himage.start, hblock]
  refine forall₅_congr fun h hh k hk hk' => ?_
  have hkept := himage.bss_kept (by dsimp only; omega) hin hapart hh hk hk'
  rw [show u.mem _ = s.mem _ from hkept]

theorem twoPages_apart {m : Memory} (hm : TwoLoads m 0xffffffff80200000 0x800 0x1000
    0xffffffff80201000 0x400 0x1000) : (loads m 0x200000).Pairwise (SpansApart m) := by
  rw [hm.loads]
  refine List.pairwise_pair.mpr (Or.inl ?_)
  rw [span, hm.first.1, hm.first.2.1, hm.first.2.2, hm.second.1]
  decide

/-- The run of the two passes on two neighbouring pages. -/
theorem twoPages_run {m : Memory} (hm : TwoLoads m 0xffffffff80200000 0x800 0x1000
    0xffffffff80201000 0x400 0x1000) :
    ∃ t r u b, kernel_analyse moduleAt2M (loaderOver m) = ok (analysed moduleAt2M m, t) ∧
      kernel_load (2 ^ 16) (analysed moduleAt2M m) { t with alloc := alloc_init 0x202000 } =
        ok (r, u) ∧
      Image m moduleAt2M { t with alloc := alloc_init 0x202000 } u r b ∧
      (pageAddr b).toNat = 0x202000 := by
  have hlayout := twoPages_inExtent hm
  let t : loader := { loaderOver m with
    reads := [] ++ (headers m 0x200000).flatMap (analyseReads m) }
  obtain ⟨⟨r, u⟩, hload⟩ := kernel_load.total
    (s := { t with alloc := alloc_init 0x202000 }) hm.file heapBehind_2M hlayout rfl (by
      show pageRounded 0x202000 + imageSize m 0x200000 < (alloc_init 0x202000).heap_phys_limit.toNat
      rw [twoPages_size hm]
      decide) (e_phnum m 0x200000).isLt
  obtain ⟨b, himage⟩ := kernel_load.spec (s := { t with alloc := alloc_init 0x202000 }) hm.file
    heapBehind_2M (by show imageSize m 0x200000 < _; rw [twoPages_size hm]; decide) hlayout hload
  refine ⟨t, r, u, b, kernel_analyse.of_file (s := loaderOver m) hm.file, hload, himage, ?_⟩
  have hbehind : 0x202000 ≤ (pageAddr b).toNat := himage.behind
  have hnear : (pageAddr b).toNat < 0x202000 + 0x1000 := himage.near
  have := pageAddr_toNat b
  omega

theorem the_uninitialised_data_is_what_was_there_on_two_pages : ∃ info' t r u,
    kernel_analyse moduleAt2M (loaderOver (twoPages 0)) = ok (info', t) ∧
      kernel_load (2 ^ 16) info' { t with alloc := alloc_init 0x202000 } = ok (r, u) ∧
      (BssZero (twoPages 0) 0x200000 r.memory_image.start.toNat u.mem ↔
        BssZero (twoPages 0) 0x200000
          (pageRounded (alloc_init 0x202000).heap_phys_current.toNat) (twoPages 0)) := by
  have hm := twoPages_clean
  obtain ⟨t, r, u, -, hanalyse, hload, -, -⟩ := twoPages_run hm
  have hsize : imageSize (twoPages 0) 0x200000 < 2 ^ 32 := by
    rw [twoPages_size hm]
    decide
  exact ⟨analysed moduleAt2M (twoPages 0), t, r, u, hanalyse, hload,
    the_uninitialised_data_is_what_was_there (s := loaderOver (twoPages 0)) hm.file
      heapBehind_2M hsize (twoPages_inExtent hm) (twoPages_apart hm) hanalyse hload⟩

theorem twoPages_stale : TwoLoads (twoPages 0xFF) 0xffffffff80200000 0x800 0x1000
    0xffffffff80201000 0x400 0x1000 := by
  refine ⟨?_, ?_, ?_, ?_, ?_⟩
  all_goals with_unfolding_all decide

/-- Over memory that was not zero, neither is the data. -/
theorem stale_memory_shows_in_the_data : ∃ info' t r u,
    kernel_analyse moduleAt2M (loaderOver (twoPages 0xFF)) = ok (info', t) ∧
      kernel_load (2 ^ 16) info' { t with alloc := alloc_init 0x202000 } = ok (r, u) ∧
      ¬ BssZero (twoPages 0xFF) 0x200000 r.memory_image.start.toNat u.mem := by
  have hm := twoPages_stale
  have hin := twoPages_inExtent hm
  have hapart := twoPages_apart hm
  obtain ⟨t, r, u, b, hanalyse, hload, himage, hb⟩ := twoPages_run hm
  refine ⟨_, t, r, u, hanalyse, hload, fun hzero => ?_⟩
  have hfirst : (0x200040 : U32) ∈ loads (twoPages 0xFF) 0x200000 := by
    rw [hm.loads]
    exact List.mem_cons_self
  have hfile : (p_filesz (twoPages 0xFF) 0x200040).toNat ≤ 0x800 := by
    rw [hm.first.2.1]
    decide
  have hmem : 0x800 < (p_memsz (twoPages 0xFF) 0x200040).toNat := by
    rw [hm.first.2.2]
    decide
  have hkept := himage.bss_kept (by
    show _ + imageSize (twoPages 0xFF) 0x200000 < _
    rw [hb, twoPages_size hm]
    decide) hin hapart hfirst hfile hmem
  have hbyte := hzero 0x200040 hfirst 0x800 hfile hmem
  rw [himage.start] at hbyte
  have haddr : imageByte (twoPages 0xFF) 0x200000 (pageAddr b).toNat 0x200040 0x800 = 0x202800 := by
    rw [imageByte, hm.lowest, hm.first.1, hb]
    decide
  have hstale := hkept.symm.trans hbyte
  rw [show moduleAt2M.image_start = 0x200000 from rfl, haddr] at hstale
  revert hstale
  with_unfolding_all decide

end awd
