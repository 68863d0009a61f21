-- Where the loader reads. Both passes take the place of a header and of a
-- segment's bytes from the file, in 32 bits, and compare neither with the end
-- of the module.
import CanidaeOS.AwdImage

open Program Machine Outcome Paging

namespace awd

open elf64_header_t elf64_pheader_t

/-- The `n` bytes from `a` on are in the module. -/
def Within (info : kernel_info_t) (a : U32) (n : Nat) : Prop :=
  ∀ k < n, info.image_start.toNat ≤ (a + BitVec.ofNat 32 k).toNat ∧
    (a + BitVec.ofNat 32 k).toNat < info.image_end.toNat

def ReadsWithin (info : kernel_info_t) (reads : List (U32 × Nat)) : Prop :=
  ∀ r ∈ reads, Within info r.1 r.2

/-- The heap that `awd_main` sets up behind the module. -/
def heapBehind (info : kernel_info_t) : alloc :=
  alloc_init (PAGE_ROUND_UP (PAGE_ROUND_UP (info.image_end.setWidth 64) - 1))

/-- All that the two passes read of program headers and of segments is in the
module. A pass that panics does so before its first read. -/
def ReadsStayInside (info : kernel_info_t) (s : loader) : Prop :=
  ∀ info' t, kernel_analyse info s = ok (info', t) → ReadsWithin info t.reads ∧
    ∀ fuel r u, kernel_load fuel info' { t with alloc := heapBehind info } = ok (r, u) →
      ReadsWithin info u.reads

/-! ## The block of the image -/

/-- The first page behind the module, where the image goes. -/
def blockBehind (info : kernel_info_t) : U32 := (PAGE_ROUND_UP (info.image_end.setWidth 64)).setWidth 32

/-- A heap at a page has a block for every size below its own, and none for
another. -/
theorem malloc_at_page {a : alloc} {n : Nat} (henabled : a.alloc_enabled = true)
    (hpage : a.heap_phys_current.toNat % 0x1000 = 0) (hlow : a.heap_phys_current.toNat < 2 ^ 33)
    (hlimit : a.heap_phys_limit.toNat = a.heap_phys_current.toNat + n) (size : U32) :
    (size.toNat < n → ∃ a', malloc_aligned size 0x1000 a =
      ok (a.heap_phys_current.setWidth 32, a')) ∧
    (¬ size.toNat < n → ∃ e, malloc_aligned size 0x1000 a = .stop e) := by
  have hsize := size.isLt
  constructor
  · intro hfit
    have hroom : (a.heap_phys_current.toNat + 0xFFF) / 0x1000 * 0x1000 + size.toNat <
        a.heap_phys_limit.toNat := by omega
    obtain ⟨⟨p, a'⟩, hcall⟩ := malloc_block.total henabled (by omega) hroom
    obtain ⟨b, rfl, hge, hnear, -⟩ := malloc_block.spec (by omega) (by omega) hcall
    have hb : pageAddr b = a.heap_phys_current := by
      have := pageAddr_toNat b
      apply BitVec.eq_of_toNat_eq
      omega
    rw [← hb]
    exact ⟨a', hcall⟩
  · intro hlarge
    rcases malloc_aligned.stops size 0x1000 a with ⟨e, he, -⟩ | ⟨⟨p, a'⟩, hcall, -⟩
    · exact ⟨e, he⟩
    · obtain ⟨b, rfl, hge, -, hcur', hfit, -⟩ := malloc_block.spec (by omega) (by omega) hcall
      omega

theorem malloc_behind (info : kernel_info_t) (size : U32) :
    (size.toNat < 0x40000 → ∃ a, malloc_aligned size 0x1000 (heapBehind info) =
      ok (blockBehind info, a)) ∧
    (¬ size.toNat < 0x40000 → ∃ e, malloc_aligned size 0x1000 (heapBehind info) = .stop e) := by
  have hend := info.image_end.isLt
  obtain ⟨hcur, hlimit⟩ := alloc_init_behind info.image_end
  have hmod := pageRounded_mod info.image_end.toNat
  have hbound : pageRounded info.image_end.toNat < 2 ^ 33 := by
    unfold pageRounded
    omega
  rw [heapBehind, PAGE_ROUND_UP_last]
  rw [← hcur] at hmod hbound hlimit
  exact malloc_at_page rfl hmod hbound hlimit size

/-! ## The law -/

/-- The fields that the first pass reads are in the module: the type of every
header, and three more of a LOAD header. -/
def HeadersWithin (info : kernel_info_t) (m : Memory) : Prop :=
  ∀ h ∈ headers m info.image_start, Within info h 4 ∧
    (p_type m h = 1 → Within info (h + 16) 8 ∧ Within info (h + 8) 8 ∧ Within info (h + 40) 8)

/-- So are the size in the file and the bytes of every LOAD segment. -/
def SegmentsWithin (info : kernel_info_t) (m : Memory) : Prop :=
  ∀ h ∈ loads m info.image_start, Within info (h + 32) 8 ∧
    Within info (file_address info m h) (copied m h)

/-- The image fits the heap, as `malloc_aligned` sees its size. -/
def ImageFits (info : kernel_info_t) (m : Memory) : Prop :=
  imageSize m info.image_start % 2 ^ 32 < 0x40000

theorem readsWithin_append {info : kernel_info_t} {l l' : List (U32 × Nat)} :
    ReadsWithin info (l ++ l') ↔ ReadsWithin info l ∧ ReadsWithin info l' :=
  List.forall_mem_append

theorem readsWithin_flatMap {info : kernel_info_t} {hs : List U32} {f : U32 → List (U32 × Nat)} :
    ReadsWithin info (hs.flatMap f) ↔ ∀ h ∈ hs, ReadsWithin info (f h) :=
  List.forall_mem_flatMap

theorem analyseReads_within {info : kernel_info_t} {m : Memory} :
    ReadsWithin info ((headers m info.image_start).flatMap (analyseReads m)) ↔
      HeadersWithin info m := by
  rw [readsWithin_flatMap]
  refine forall₂_congr fun h hh => ?_
  by_cases htype : p_type m h = 1
  · rw [analyseReads, if_neg (not_not.mpr htype)]
    simp only [ReadsWithin, List.forall_mem_cons, List.not_mem_nil, htype]
    simp
  · rw [analyseReads, if_pos htype]
    simp only [ReadsWithin, List.forall_mem_singleton, htype, false_imp_iff, and_true]

/-- Behind headers in the module, the second pass adds what it reads of each
segment. -/
theorem loadReads_within {info : kernel_info_t} {m : Memory} (hheaders : HeadersWithin info m) :
    ReadsWithin info ((headers m info.image_start).flatMap (loadReads m (analysed info m))) ↔
      SegmentsWithin info m := by
  rw [readsWithin_flatMap]
  constructor
  · intro h ph hload
    obtain ⟨hh, htype⟩ := mem_loads.mp hload
    have hreads := h ph hh
    rw [loadReads, if_neg (not_not.mpr htype)] at hreads
    simp only [ReadsWithin, List.forall_mem_cons] at hreads
    exact ⟨hreads.2.2.2.1, hreads.2.2.2.2.1⟩
  · intro h ph hh
    obtain ⟨htypeAt, hfields⟩ := hheaders ph hh
    by_cases htype : p_type m ph = 1
    · obtain ⟨hvaddr, hoffset, -⟩ := hfields htype
      obtain ⟨hfilesz, hfile⟩ := h ph (mem_loads.mpr ⟨hh, htype⟩)
      rw [loadReads, if_neg (not_not.mpr htype)]
      simp only [ReadsWithin, List.forall_mem_cons, List.not_mem_nil, false_imp_iff, implies_true,
        and_true]
      exact ⟨htypeAt, hoffset, hvaddr, hfilesz, hfile⟩
    · rw [loadReads, if_pos htype]
      exact List.forall_mem_singleton.mpr htypeAt

/-- With its block at hand, `kernel_load` returns, and has read what the headers
say. -/
theorem kernel_load.reads {info : kernel_info_t} {img : U32} {a : alloc} {s : loader}
    (hcall : malloc_aligned (info.phys.size.setWidth 32) 0x1000 s.alloc = ok (img, a))
    (hsep : Undisturbed s.mem info img) :
    (∃ r u, kernel_load (2 ^ 16) info s = ok (r, u)) ∧
      ∀ fuel r u, kernel_load fuel info s = ok (r, u) →
        u.reads = s.reads ++ (headers s.mem info.image_start).flatMap (loadReads s.mem info) := by
  constructor
  · have hloop := loadTurn.spec (s := { s with alloc := a }) hsep
      (e_phnum s.mem info.image_start).isLt
    simp only [kernel_load, hcall, bind_ok, hloop]
    exact ⟨_, _, rfl⟩
  · intro fuel r u h
    simp only [kernel_load, hcall, bind_ok] at h
    obtain ⟨t, hloop, h⟩ := bind_eq_ok.mp h
    cases h
    rw [kernel_load.loop_eq (s := { s with alloc := a }) hsep hloop]
    exact (segments_logs _).2.1

/-- The state after the first pass. -/
def loader.analysed (s : loader) (info : kernel_info_t) : loader :=
  { s with reads := s.reads ++ (headers s.mem info.image_start).flatMap (analyseReads s.mem) }

theorem analysed_eq {info : kernel_info_t} {s : loader}
    (hcheck : ¬ elf_check s.mem info.image_start = false) :
    kernel_analyse info s = ok (analysed info s.mem, s.analysed info) := by
  rw [kernel_analyse.spec, if_neg hcheck]
  rfl

section passes

variable {info : kernel_info_t} {s : loader} (hreads : s.reads = [])
include hreads

theorem analysed_reads_within :
    ReadsWithin info (s.analysed info).reads ↔ HeadersWithin info s.mem := by
  rw [← analyseReads_within, loader.analysed, hreads, List.nil_append]

/-- What the second pass adds to the reads of the first. -/
theorem loaded_reads_within {img : U32} {a : alloc}
    (hcall : malloc_aligned ((analysed info s.mem).phys.size.setWidth 32) 0x1000
      (heapBehind info) = ok (img, a))
    (hsep : Undisturbed s.mem (analysed info s.mem) img) (hheaders : HeadersWithin info s.mem)
    {fuel : Nat} {r : kernel_loaded_info_t} {u : loader}
    (h : kernel_load fuel (analysed info s.mem)
      { s.analysed info with alloc := heapBehind info } = ok (r, u)) :
    ReadsWithin info u.reads ↔ SegmentsWithin info s.mem := by
  have hlog : u.reads = (s.analysed info).reads ++
      (headers s.mem info.image_start).flatMap (loadReads s.mem (analysed info s.mem)) :=
    (kernel_load.reads (s := { s.analysed info with alloc := heapBehind info }) hcall hsep).2 fuel r u h
  rw [hlog, readsWithin_append, analysed_reads_within hreads, loadReads_within hheaders]
  exact and_iff_right hheaders

end passes

/-- The size that `malloc_aligned` is asked for. -/
theorem asked_mod (info : kernel_info_t) (m : Memory) :
    ((analysed info m).phys.size.setWidth 32).toNat = imageSize m info.image_start % 2 ^ 32 := by
  rw [BitVec.toNat_setWidth]
  exact congrArg (· % 2 ^ 32) (extentOf_spec m info.image_start).2

/-- The segments of a kernel that fits are read in the module only if they lie
in it. -/
theorem ReadsStayInside.segments {info : kernel_info_t} {s : loader}
    (hinside : ReadsStayInside info s) (hcheck : ¬ elf_check s.mem info.image_start = false)
    (hreads : s.reads = []) (hfits : ImageFits info s.mem)
    (hsep : Undisturbed s.mem (analysed info s.mem) (blockBehind info)) :
    HeadersWithin info s.mem ∧ SegmentsWithin info s.mem := by
  obtain ⟨hfirst, hsecond⟩ := hinside _ _ (analysed_eq hcheck)
  have hheaders := (analysed_reads_within hreads).mp hfirst
  obtain ⟨a, hcall⟩ := (malloc_behind info _).1 ((asked_mod info s.mem).trans_lt hfits)
  obtain ⟨r, u, hload⟩ := (kernel_load.reads
    (s := { s.analysed info with alloc := heapBehind info }) hcall hsep).1
  exact ⟨hheaders, (loaded_reads_within hreads hcall hsep hheaders hload).mp
    (hsecond _ r u hload)⟩

/-- The exact condition on a module: it is no ELF executable, or its headers
lie in it, and so do its segments in the file where the image fits the heap. -/
def ReadableKernel (info : kernel_info_t) (m : Memory) : Prop :=
  elf_check m info.image_start = false ∨
    HeadersWithin info m ∧ (ImageFits info m → SegmentsWithin info m)

/-- Unless a segment is copied over the headers, which the second pass reads
again, the passes read in the module if and only if it is a `ReadableKernel`. -/
theorem reads_stay_inside_of_readable_kernels {info : kernel_info_t} {s : loader}
    (hreads : s.reads = [])
    (hsep : ImageFits info s.mem → Undisturbed s.mem (analysed info s.mem) (blockBehind info)) :
    ReadsStayInside info s ↔ ReadableKernel info s.mem := by
  by_cases hcheck : elf_check s.mem info.image_start = false
  · refine iff_of_true (fun info' t ht => ?_) (Or.inl hcheck)
    rw [kernel_analyse.spec, if_pos hcheck] at ht
    cases ht
  have hanalyse := analysed_eq hcheck
  constructor
  · intro hinside
    have hheaders := (analysed_reads_within hreads).mp (hinside _ _ hanalyse).1
    exact Or.inr ⟨hheaders, fun hfits =>
      (hinside.segments hcheck hreads hfits (hsep hfits)).2⟩
  · rintro (hno | ⟨hheaders, hsegments⟩) info' t ht
    · exact absurd hno hcheck
    rw [hanalyse] at ht
    cases ht
    refine ⟨(analysed_reads_within hreads).mpr hheaders, fun fuel r u hload => ?_⟩
    -- a heap with no room panics before the first read
    obtain ⟨hroom, hnoroom⟩ := malloc_behind info ((analysed info s.mem).phys.size.setWidth 32)
    by_cases hfits : ImageFits info s.mem
    · obtain ⟨a, hcall⟩ := hroom ((asked_mod info s.mem).trans_lt hfits)
      exact (loaded_reads_within hreads hcall (hsep hfits) hheaders hload).mpr
        (hsegments hfits)
    · obtain ⟨e, he⟩ := hnoroom fun h => hfits ((asked_mod info s.mem).symm.trans_lt h)
      obtain ⟨p, hp, -⟩ := bind_eq_ok.mp hload
      exact absurd (he.symm.trans hp) (by simp)

/-- The image of a kernel with two LOAD headers goes behind the module. -/
theorem undisturbed_of_twoLoads {m : Memory} {v₁ f₁ s₁ v₂ f₂ s₂ : U64}
    (hm : TwoLoads m v₁ f₁ s₁ v₂ f₂ s₂)
    (hin : ∀ h ∈ loads m 0x200000, InExtent m 0x200000 h)
    (hsize : imageSize m 0x200000 < 0x40000) :
    Undisturbed m (analysed moduleAt2M m) (blockBehind moduleAt2M) := by
  have hblock : blockBehind moduleAt2M = (pageAddr 0x202).setWidth 32 := by decide
  have haddr : (pageAddr 0x202).toNat = 0x202000 := by decide
  rw [hblock]
  refine undisturbed_behind hm.file hin (by rw [haddr]; decide) ?_
  rw [haddr]
  exact Nat.lt_trans (Nat.add_lt_add_left hsize _) (by decide)

theorem reads_stay_inside_of_two_pages :
    ReadsStayInside moduleAt2M (loaderOver (twoPages 0)) ↔ ReadableKernel moduleAt2M (twoPages 0) :=
  reads_stay_inside_of_readable_kernels (s := loaderOver (twoPages 0)) rfl fun _ =>
    undisturbed_of_twoLoads twoPages_clean (twoPages_inExtent twoPages_clean)
      ((twoPages_size twoPages_clean).trans_lt (by decide))

/-- A kernel whose second segment goes on past the end of the module. -/
def pastTheEnd : Memory :=
  twoLoads 0 0xffffffff80200000 0x800 0x1000 0xffffffff80201000 0x1000 0x1000

theorem pastTheEnd_loads : TwoLoads pastTheEnd 0xffffffff80200000 0x800 0x1000 0xffffffff80201000
    0x1000 0x1000 := by
  refine ⟨?_, ?_, ?_, ?_, ?_⟩
  all_goals with_unfolding_all decide

/-- Its last half page is read from behind the module. -/
theorem a_segment_past_the_end_is_read : ¬ ReadsStayInside moduleAt2M (loaderOver pastTheEnd) := by
  have hm := pastTheEnd_loads
  have hsize : imageSize pastTheEnd 0x200000 = 0x2000 := hm.imageSize.trans (by decide)
  have hin : ∀ h ∈ loads pastTheEnd 0x200000, InExtent pastTheEnd 0x200000 h := by
    refine hm.forall_loads ?_ ?_
    · rw [InExtent, span, hm.lowest, hsize, hm.first.1, hm.first.2.1, hm.first.2.2]
      decide
    · rw [InExtent, span, hm.lowest, hsize, hm.second.1, hm.second.2.1, hm.second.2.2]
      decide
  intro hinside
  have hsegments := (hinside.segments (s := loaderOver pastTheEnd)
    (by show ¬ elf_check pastTheEnd 0x200000 = false; rw [hm.check]; decide) rfl
    (by show imageSize pastTheEnd 0x200000 % 2 ^ 32 < 0x40000; rw [hsize]; decide)
    (undisturbed_of_twoLoads hm hin (hsize.trans_lt (by decide)))).2
  have hlast : (0x200078 : U32) ∈ loads pastTheEnd 0x200000 := by
    rw [hm.loads]
    simp
  have hfile : file_address moduleAt2M pastTheEnd 0x200078 = 0x201800 := by with_unfolding_all decide
  have hcopied : copied pastTheEnd 0x200078 = 0x1000 := by
    rw [copied, hm.second.2.1]
    decide
  have hbyte := (hsegments 0x200078 hlast).2
  rw [show (loaderOver pastTheEnd).mem = pastTheEnd from rfl, hfile, hcopied] at hbyte
  have := (hbyte 0x800 (by decide)).2
  revert this
  decide

end awd
