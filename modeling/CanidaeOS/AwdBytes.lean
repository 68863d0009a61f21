-- The bytes of the memory image. Segments that share no address are copied to
-- places of their own in the block, and the block shares no address with the
-- module, so each byte of the image is the byte of the file that it comes from.
import CanidaeOS.AwdSegments

open Program Machine Outcome Paging

namespace awd

open elf64_header_t elf64_pheader_t

/-! ## Copies -/

/-- A copy that writes to no byte that it reads. -/
theorem memcpy_byte {dest src : U32} {m : Memory} {n : Nat} (hn : n < 2 ^ 32)
    (happart : ∀ i < n, ∀ j < n, src + BitVec.ofNat 32 j ≠ dest + BitVec.ofNat 32 i) {k : Nat}
    (hk : k < n) :
    loadByte (memcpy dest src n m) (dest + BitVec.ofNat 32 k) = loadByte m (src + BitVec.ofNat 32 k) := by
  induction n with
  | zero => exact absurd hk (Nat.not_lt_zero k)
  | succ n ih =>
    rw [memcpy, loadByte_storeByte]
    by_cases hlast : k = n
    · subst hlast
      rw [if_pos rfl]
      apply memcpy_frame
      intro i hi heq
      exact happart i (by omega) k hk (widened_inj heq)
    · have hne : dest + BitVec.ofNat 32 k ≠ dest + BitVec.ofNat 32 n := by
        intro heq
        have := congrArg BitVec.toNat heq
        rw [BitVec.toNat_add, BitVec.toNat_add, BitVec.toNat_ofNat, BitVec.toNat_ofNat] at this
        have := dest.isLt
        omega
      rw [if_neg hne]
      refine ih (by omega) (fun i hi j hj => happart i (by omega) j (by omega)) (by omega)

/-- Byte `k` of the place that a segment is copied to. -/
def destByte (info : kernel_info_t) (img : U32) (m : Memory) (h : U32) (k : Nat) : U32 :=
  dest_address info img m h + BitVec.ofNat 32 k

/-- Byte `k` of a segment in the file. -/
def fileByte (info : kernel_info_t) (m : Memory) (h : U32) (k : Nat) : U32 :=
  file_address info m h + BitVec.ofNat 32 k

/-- No copy writes to a byte of another copy, and none to a byte that one reads. -/
structure CopiesApart (m : Memory) (info : kernel_info_t) (img : U32) (hs : List U32) : Prop where
  dests : hs.Pairwise fun h h' => ∀ i < copied m h, ∀ j < copied m h',
    destByte info img m h i ≠ destByte info img m h' j
  sources : ∀ h ∈ hs, ∀ h' ∈ hs, ∀ i < copied m h, ∀ j < copied m h',
    fileByte info m h i ≠ destByte info img m h' j

variable {m : Memory} {info : kernel_info_t} {img : U32} {s : loader}

theorem loadByte_segments_frame {hs : List U32} {a : U32}
    (ha : ∀ h ∈ hs, p_type m h = 1 → ∀ k < copied m h, a ≠ destByte info img m h k) :
    loadByte (s.segments m info img hs).mem a = loadByte s.mem a := by
  apply segments_frame
  intro h hh htype k hk heq
  exact ha h hh htype k hk (widened_inj heq)

/-- Copies that are apart leave every byte of every segment in its place. -/
theorem segments_bytes {hs : List U32} (happart : CopiesApart m info img (hs.filter fun h => p_type m h = 1))
    {h : U32} (hh : h ∈ hs) (htype : p_type m h = 1) {k : Nat} (hk : k < copied m h) :
    loadByte (s.segments m info img hs).mem (destByte info img m h k) =
      loadByte s.mem (fileByte info m h k) := by
  induction hs using List.reverseRecOn with
  | nil => exact absurd hh List.not_mem_nil
  | append_singleton hs g ih =>
    rw [segments_snoc]
    rw [List.filter_append] at happart
    have hbefore : CopiesApart m info img (hs.filter fun h => p_type m h = 1) := by
      refine ⟨(List.pairwise_append.mp happart.dests).1, fun h hh h' hh' => ?_⟩
      exact happart.sources h (List.mem_append_left _ hh) h' (List.mem_append_left _ hh')
    by_cases hg : p_type m g = 1
    · have hlast : [g].filter (fun h => p_type m h = 1) = [g] :=
        List.filter_cons_of_pos (by simpa using hg)
      rw [hlast] at happart
      have hmem : ∀ h ∈ hs, p_type m h = 1 → h ∈ hs.filter (fun h => p_type m h = 1) ++ [g] :=
        fun h hh ht => List.mem_append_left _ (List.mem_filter.mpr ⟨hh, decide_eq_true ht⟩)
      rw [segment_of_load hg]
      dsimp only
      rcases List.mem_append.mp hh with hh | hh
      · -- an earlier segment, which the last copy spares
        rw [← ih hbefore hh]
        apply memcpy_frame
        intro i hi heq
        refine (List.pairwise_append.mp happart.dests).2.2 h ?_ g (List.mem_singleton_self g) k hk i hi
          (widened_inj heq)
        exact List.mem_filter.mpr ⟨hh, decide_eq_true htype⟩
      · -- the last segment, whose source the earlier copies have spared
        obtain rfl := List.mem_singleton.mp hh
        have hself : h ∈ hs.filter (fun h => p_type m h = 1) ++ [h] :=
          List.mem_append_right _ (List.mem_singleton_self h)
        refine (memcpy_byte ((p_filesz m h).setWidth 32).isLt ?_ hk).trans ?_
        · intro i hi j hj
          exact happart.sources h hself h hself j hj i hi
        · apply loadByte_segments_frame
          intro h' hh' ht i hi
          exact happart.sources h hself h' (hmem h' hh' ht) k hk i hi
    · have hlast : [g].filter (fun h => p_type m h = 1) = [] :=
        List.filter_cons_of_neg (by simpa using hg)
      rw [hlast, List.append_nil] at happart
      rw [segment_of_other hg]
      rcases List.mem_append.mp hh with hh | hh
      · exact ih happart hh
      · obtain rfl := List.mem_singleton.mp hh
        exact absurd htype hg

/-! ## Segments that can be loaded -/

/-- The module and the rest of the heap share no address. -/
structure HeapClear (a : alloc) (info : kernel_info_t) : Prop where
  apart : info.image_end.toNat ≤ a.heap_phys_current.toNat ∨
    a.heap_phys_limit.toNat ≤ info.image_start.toNat
  below : a.heap_phys_current.toNat ≤ a.heap_phys_limit.toNat
  limit : a.heap_phys_limit.toNat ≤ 2 ^ 32

/-- A kernel whose segments lie in the module and in the extent, and share no
address. The size of the image, which the heap is asked for, fits 32 bits. -/
structure Loadable (m : Memory) (info : kernel_info_t) : Prop where
  file : KernelFile m info
  inside : ∀ h ∈ loads m info.image_start, ∀ k < (p_filesz m h).toNat,
    info.image_start.toNat + (p_offset m h).toNat + k < info.image_end.toNat
  extent : ∀ h ∈ loads m info.image_start, ∀ k < (p_filesz m h).toNat,
    (p_vaddr m h).toNat + k < lowest m info.image_start + imageSize m info.image_start
  apart : (loads m info.image_start).Pairwise fun h h' =>
    ∀ i < (p_filesz m h).toNat, ∀ j < (p_filesz m h').toNat,
      (p_vaddr m h).toNat + i ≠ (p_vaddr m h').toNat + j
  size : imageSize m info.image_start < 2 ^ 32

/-- What `kernel_load` leaves: every byte of every segment in its place, and
no byte but those of the segments changed. -/
structure Loaded (m : Memory) (info info' : kernel_info_t) (s s' : loader) (r : kernel_loaded_info_t) :
    Prop where
  bytes : ∀ h ∈ loads m info.image_start, ∀ k < (p_filesz m h).toNat,
    s'.mem (r.memory_image.start + (p_vaddr m h - info'.virt.start) + BitVec.ofNat 64 k) =
      m (info.image_start.setWidth 64 + p_offset m h + BitVec.ofNat 64 k)
  module : ∀ x : U64, info.image_start.toNat ≤ x.toNat → x.toNat < info.image_end.toNat →
    s'.mem x = m x
  others : ∀ x, (∀ h ∈ loads m info.image_start, ∀ k < (p_filesz m h).toNat,
    x ≠ r.memory_image.start + (p_vaddr m h - info'.virt.start) + BitVec.ofNat 64 k) → s'.mem x = m x
  copies : s'.copies = s.copies ++ (loads m info.image_start).map fun h =>
    (dest_address info' (r.memory_image.start.setWidth 32) m h, copied m h)

theorem KernelFile.le_headerByte (hfile : KernelFile m info) {a : U32}
    (ha : HeaderByte m info.image_start a) : info.image_start.toNat ≤ a.toNat := by
  have hend := info.image_end.isLt
  have hheader := hfile.header
  rcases ha with ha | ⟨h, hh, ha⟩
  · exact ((among_iff (by omega)).mp ha).1
  · have hin := hfile.headers h hh
    have := (among_iff (by omega)).mp ha
    omega

namespace Loadable

variable {h : U32} {b : Page} (hl : Loadable m info)
include hl

theorem copied_eq (hh : h ∈ loads m info.image_start) : copied m h = (p_filesz m h).toNat := by
  have hend := info.image_end.isLt
  rw [copied, BitVec.toNat_setWidth]
  by_cases hzero : (p_filesz m h).toNat = 0
  · rw [hzero]
  · have := hl.inside h hh ((p_filesz m h).toNat - 1) (by omega)
    exact Nat.mod_eq_of_lt (by omega)

/-- The byte of the file, as an address of 64 bits. -/
theorem fileByte_eq (hh : h ∈ loads m info.image_start) {k : Nat} (hk : k < (p_filesz m h).toNat) :
    (fileByte (analysed info m) m h k).toNat = info.image_start.toNat + (p_offset m h).toNat + k ∧
      ((fileByte (analysed info m) m h k).setWidth 64 : U64) =
        info.image_start.setWidth 64 + p_offset m h + BitVec.ofNat 64 k := by
  have hend := info.image_end.isLt
  have hstart : (analysed info m).image_start = info.image_start := rfl
  have hin := hl.inside h hh k hk
  have hbyte : (fileByte (analysed info m) m h k).toNat =
      info.image_start.toNat + (p_offset m h).toNat + k := by
    rw [fileByte, file_address, hstart, BitVec.toNat_add, BitVec.toNat_setWidth, BitVec.toNat_add,
      BitVec.toNat_setWidth, BitVec.toNat_ofNat]
    omega
  refine ⟨hbyte, BitVec.eq_of_toNat_eq ?_⟩
  rw [BitVec.toNat_setWidth, hbyte, BitVec.toNat_add, BitVec.toNat_add, BitVec.toNat_setWidth,
    BitVec.toNat_ofNat]
  omega

/-- The byte of the image, as an address of 64 bits. -/
theorem destByte_eq (hb : (pageAddr b).toNat + imageSize m info.image_start < 2 ^ 32)
    (hh : h ∈ loads m info.image_start) {k : Nat} (hk : k < (p_filesz m h).toNat) :
    (destByte (analysed info m) ((pageAddr b).setWidth 32) m h k).toNat =
        (pageAddr b).toNat + ((p_vaddr m h).toNat - lowest m info.image_start) + k ∧
      ((destByte (analysed info m) ((pageAddr b).setWidth 32) m h k).setWidth 64 : U64) =
        pageAddr b + (p_vaddr m h - (analysed info m).virt.start) + BitVec.ofNat 64 k := by
  have hle := lowest_le hh
  have hin := hl.extent h hh k hk
  have hoff := @segment_offset m info h hh
  have hbyte : (destByte (analysed info m) ((pageAddr b).setWidth 32) m h k).toNat =
      (pageAddr b).toNat + ((p_vaddr m h).toNat - lowest m info.image_start) + k := by
    rw [destByte, dest_address, block_ptr (by omega), BitVec.toNat_add, BitVec.toNat_setWidth,
      BitVec.toNat_add, hoff, BitVec.toNat_ofNat]
    omega
  refine ⟨hbyte, BitVec.eq_of_toNat_eq ?_⟩
  rw [BitVec.toNat_setWidth, hbyte, BitVec.toNat_add, BitVec.toNat_add, hoff, BitVec.toNat_ofNat]
  omega

/-- Copies into a block of a heap apart from the module write to no header. -/
theorem undisturbed_apart (hb : (pageAddr b).toNat + imageSize m info.image_start < 2 ^ 32)
    (hsides : info.image_end.toNat ≤ (pageAddr b).toNat ∨
      (pageAddr b).toNat + imageSize m info.image_start ≤ info.image_start.toNat) :
    Undisturbed m (analysed info m) ((pageAddr b).setWidth 32) := by
  intro h (hh : h ∈ loads m info.image_start) x ⟨k, hk, hx⟩ hbyte
  rw [hl.copied_eq hh] at hk
  have hd := (hl.destByte_eq hb hh hk).1
  have hin := hl.extent h hh k hk
  have hle := lowest_le hh
  have hge := hl.file.le_headerByte hbyte
  have hlt := hl.file.headerByte_lt hbyte
  have hx' : x.toNat = (pageAddr b).toNat + ((p_vaddr m h).toNat - lowest m info.image_start) + k := by
    rw [hx]
    exact hd
  omega

/-- The copies of segments that share no address are apart. -/
theorem copiesApart (hb : (pageAddr b).toNat + imageSize m info.image_start < 2 ^ 32)
    (hsides : info.image_end.toNat ≤ (pageAddr b).toNat ∨
      (pageAddr b).toNat + imageSize m info.image_start ≤ info.image_start.toNat) :
    CopiesApart m (analysed info m) ((pageAddr b).setWidth 32) (loads m info.image_start) := by
  constructor
  · refine List.Pairwise.imp_of_mem ?_ hl.apart
    intro h h' hh hh' hne i hi j hj heq
    rw [hl.copied_eq hh] at hi
    rw [hl.copied_eq hh'] at hj
    have hd := (hl.destByte_eq hb hh hi).1
    have hd' := (hl.destByte_eq hb hh' hj).1
    have hle := lowest_le hh
    have hle' := lowest_le hh'
    rw [heq, hd'] at hd
    exact hne i hi j hj (by omega)
  · intro h hh h' hh' i hi j hj heq
    rw [hl.copied_eq hh] at hi
    rw [hl.copied_eq hh'] at hj
    have hf := (hl.fileByte_eq hh hi).1
    have hd := (hl.destByte_eq hb hh' hj).1
    have hin := hl.inside h hh i hi
    have hext := hl.extent h' hh' j hj
    have hle := lowest_le hh'
    rw [heq, hd] at hf
    omega

end Loadable

/-- All the copies together, into such a block. -/
theorem Loadable.loaded {b : Page} (hl : Loadable s.mem info)
    (hb : (pageAddr b).toNat + imageSize s.mem info.image_start < 2 ^ 32)
    (hsides : info.image_end.toNat ≤ (pageAddr b).toNat ∨
      (pageAddr b).toNat + imageSize s.mem info.image_start ≤ info.image_start.toNat)
    {r : kernel_loaded_info_t} (hr : r.memory_image.start = pageAddr b) :
    Loaded s.mem info (analysed info s.mem) s (s.segments s.mem (analysed info s.mem)
      ((pageAddr b).setWidth 32) (headers s.mem info.image_start)) r := by
  have hframe : ∀ x, (∀ h ∈ loads s.mem info.image_start, ∀ k < (p_filesz s.mem h).toNat,
      x ≠ pageAddr b + (p_vaddr s.mem h - (analysed info s.mem).virt.start) + BitVec.ofNat 64 k) →
      (s.segments s.mem (analysed info s.mem) ((pageAddr b).setWidth 32)
        (headers s.mem info.image_start)).mem x = s.mem x := by
    intro x hx
    apply segments_frame
    intro h hh htype k hk heq
    have hload := mem_loads.mpr ⟨hh, htype⟩
    rw [hl.copied_eq hload] at hk
    exact hx h hload k hk (heq.trans (hl.destByte_eq hb hload hk).2)
  constructor
  · intro h hh k hk
    have hcopied : k < copied s.mem h := by
      rw [hl.copied_eq hh]
      exact hk
    have hbyte := segments_bytes (s := s) (hl.copiesApart hb hsides) (mem_loads.mp hh).1
      (mem_loads.mp hh).2 hcopied
    unfold loadByte at hbyte
    rw [(hl.destByte_eq hb hh hk).2, (hl.fileByte_eq hh hk).2] at hbyte
    rw [hr]
    exact hbyte
  · intro x hge hlt
    apply hframe
    intro h hh k hk heq
    have hd := hl.destByte_eq hb hh hk
    have hext := hl.extent h hh k hk
    have hle := lowest_le hh
    have hx : x.toNat = (pageAddr b).toNat + ((p_vaddr s.mem h).toNat -
        lowest s.mem info.image_start) + k := by
      rw [heq, ← hd.2, BitVec.toNat_setWidth, hd.1]
      omega
    omega
  · rw [hr]
    exact hframe
  · rw [hr, (segments_logs _).2.2]
    rfl

/-- After the two passes over a kernel whose segments share no address, every
byte of every LOAD segment is in its place, the module is as it was, and no
other header has changed a byte. The second pass stops for want of heap only. -/
theorem every_segment_byte_is_loaded {fuel : Nat} {info' : kernel_info_t} {t : loader} {a : alloc}
    (hl : Loadable s.mem info) (hheap : HeapClear a info)
    (hanalyse : kernel_analyse info s = ok (info', t))
    (hfuel : (e_phnum s.mem info.image_start).toNat < fuel) :
    (kernel_load fuel info' { t with alloc := a }).Meets HeapStop fun p =>
      Loaded s.mem info info' s p.2 p.1 := by
  have hbelow := hheap.below
  have hlimit := hheap.limit
  have hapart := hheap.apart
  have hsize := hl.size
  have hasked := asked_toNat hsize
  rw [kernel_analyse.of_file hl.file] at hanalyse
  cases hanalyse
  unfold kernel_load
  rcases malloc_aligned.stops ((analysed info s.mem).phys.size.setWidth 32) 0x1000 a with
    ⟨e, hstop, he⟩ | ⟨⟨img, a'⟩, hcall, -⟩
  · simp only [hstop, bind_stop]
    exact Meets.stop he
  · obtain ⟨b, rfl, hge, hnear, hcur, hfit, -⟩ :=
      malloc_block.spec (by omega) (by rw [hasked]; omega) hcall
    rw [hasked] at hcur
    have hb : (pageAddr b).toNat + imageSize s.mem info.image_start < 2 ^ 32 := by omega
    have hsides : info.image_end.toNat ≤ (pageAddr b).toNat ∨
        (pageAddr b).toNat + imageSize s.mem info.image_start ≤ info.image_start.toNat := by omega
    let u : loader := { s with
      alloc := a'
      reads := s.reads ++ (headers s.mem info.image_start).flatMap (analyseReads s.mem) }
    have hloop := loadTurn.spec (s := u) (hl.undisturbed_apart hb hsides) hfuel
    simp only [hcall, bind_ok]
    rw [show loop (loadTurn (analysed info s.mem) ((pageAddr b).setWidth 32)) fuel (0, _) = _ from hloop]
    apply Meets.ok
    have hl' : Loadable u.mem info := hl
    have hloaded := hl'.loaded hb hsides (r := ⟨⟨((pageAddr b).setWidth 32).setWidth 64,
      (analysed info s.mem).phys.size⟩, (analysed info s.mem).virt, 0⟩) (block_ptr (by omega))
    exact ⟨hloaded.bytes, hloaded.module, hloaded.others, hloaded.copies⟩

/-- The segments of the two pages share no address. -/
theorem twoPages_loadable : Loadable (twoPages 0) moduleAt2M := by
  have hm := twoPages_clean
  have hfirst := hm.first
  have hsecond := hm.second
  have hlow : lowest (twoPages 0) moduleAt2M.image_start = 0xffffffff80200000 := by
    refine hm.lowest.trans ?_
    decide
  have hsize := twoPages_size hm
  have hoffsets : p_offset (twoPages 0) 0x200040 = 0x1000 ∧ p_offset (twoPages 0) 0x200078 = 0x1800 := by
    constructor
    all_goals with_unfolding_all decide
  have hstart : moduleAt2M.image_start.toNat = 0x200000 := rfl
  have hend : moduleAt2M.image_end.toNat = 0x202000 := rfl
  refine ⟨hm.file, hm.forall_loads ?_ ?_, hm.forall_loads ?_ ?_, ?_, ?_⟩
  · rw [hfirst.2.1, hoffsets.1, hstart, hend]
    simp only [BitVec.reduceToNat]
    omega
  · rw [hsecond.2.1, hoffsets.2, hstart, hend]
    simp only [BitVec.reduceToNat]
    omega
  · rw [hfirst.1, hfirst.2.1, hlow, show moduleAt2M.image_start = 0x200000 from rfl, hsize]
    simp only [BitVec.reduceToNat]
    omega
  · rw [hsecond.1, hsecond.2.1, hlow, show moduleAt2M.image_start = 0x200000 from rfl, hsize]
    simp only [BitVec.reduceToNat]
    omega
  · rw [show moduleAt2M.image_start = 0x200000 from rfl, hm.loads, List.pairwise_pair, hfirst.1,
      hfirst.2.1, hsecond.1, hsecond.2.1]
    simp only [BitVec.reduceToNat]
    intro i hi j hj
    omega
  · rw [show moduleAt2M.image_start = 0x200000 from rfl, hsize]
    decide

theorem every_segment_byte_is_loaded_of_two_pages : ∃ info' t r u,
    kernel_analyse moduleAt2M (loaderOver (twoPages 0)) = ok (info', t) ∧
      kernel_load (2 ^ 16) info' { t with alloc := alloc_init 0x202000 } = ok (r, u) ∧
      Loaded (twoPages 0) moduleAt2M info' (loaderOver (twoPages 0)) u r := by
  have hm := twoPages_clean
  obtain ⟨t, r, u, -, hanalyse, hload, -, -⟩ := twoPages_run hm
  refine ⟨_, t, r, u, hanalyse, hload, ?_⟩
  have hheap : HeapClear (alloc_init 0x202000) moduleAt2M := ⟨Or.inl (by decide), by decide, by decide⟩
  have hmeets := every_segment_byte_is_loaded (s := loaderOver (twoPages 0)) twoPages_loadable hheap
    hanalyse (e_phnum (twoPages 0) 0x200000).isLt
  exact hmeets.of_value hload

end awd
