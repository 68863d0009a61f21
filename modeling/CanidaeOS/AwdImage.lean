-- The memory image of the kernel. Its start is the lowest LOAD address, its
-- size the sum of the segments in whole pages, and a segment is copied to its
-- distance from the start. So the image holds the segments when they leave
-- few gaps, and what no copy writes is what memory held before.
import CanidaeOS.AwdKernel
import CanidaeOS.AwdMemory

open Program Machine Outcome Paging

namespace awd

open elf64_header_t elf64_pheader_t

/-! ## The extent in numbers -/

/-- The lowest address of a LOAD segment, where one is below the last 256
bytes. -/
def lowest (m : Memory) (image_start : U32) : Nat :=
  (loads m image_start).foldl (fun a h => min a (p_vaddr m h).toNat) 0xFFFFFFFFFFFFFF00

/-- The sizes of the LOAD segments in whole pages, each taken as 32 bits. -/
def imageSize (m : Memory) (image_start : U32) : Nat :=
  ((loads m image_start).map fun h => pageRounded ((p_memsz m h).toNat % 2 ^ 32)).sum

theorem page_up_toNat {size : U64} (h : size.toNat < 2 ^ 63) :
    (page_up size).toNat = pageRounded size.toNat := by
  have hmod : (size % 0x1000).toNat = size.toNat % 0x1000 := by
    rw [BitVec.toNat_umod]
    rfl
  have hzero : size % 0x1000 = 0 ↔ size.toNat % 0x1000 = 0 := by
    rw [← BitVec.toNat_inj, hmod]
    rfl
  unfold page_up pageRounded
  split
  · rename_i hne
    have hpos : size.toNat % 0x1000 ≠ 0 := fun h0 => hne (hzero.mpr h0)
    have hlow : (size.setWidth 32 % 0x1000).toNat = size.toNat % 0x1000 := by
      rw [BitVec.toNat_umod, BitVec.toNat_setWidth]
      simp only [BitVec.reduceToNat]
      omega
    have hle : size.setWidth 32 % 0x1000 ≤ (0x1000 : U32) := by
      rw [BitVec.le_def, hlow]
      simp only [BitVec.reduceToNat]
      omega
    have hrest : ((0x1000 - size.setWidth 32 % 0x1000 : U32).setWidth 64).toNat =
        0x1000 - size.toNat % 0x1000 := by
      rw [BitVec.toNat_setWidth, BitVec.toNat_sub_of_le hle, hlow]
      simp only [BitVec.reduceToNat]
      omega
    rw [BitVec.toNat_add, hrest]
    omega
  · rename_i hzero'
    rw [not_not, hzero] at hzero'
    omega

/-- The pass over the LOAD headers, in numbers. -/
theorem extent_fold (m : Memory) (image_start : U32) (hs : List U32) (x : extent)
    (hx : x.phys_size.toNat % 0x1000 = 0)
    (hbound : x.phys_size.toNat + hs.length * 2 ^ 32 < 2 ^ 62) :
    let y := hs.foldl (fun x h => x.add m image_start h) x
    y.virt_start.toNat = hs.foldl (fun a h => min a (p_vaddr m h).toNat) x.virt_start.toNat ∧
      y.phys_size.toNat = x.phys_size.toNat +
        (hs.map fun h => pageRounded ((p_memsz m h).toNat % 2 ^ 32)).sum := by
  induction hs generalizing x with
  | nil => simp
  | cons h hs ih =>
    rw [List.length_cons] at hbound
    have hmem : (((p_memsz m h).setWidth 32).setWidth 64 : U64).toNat =
        (p_memsz m h).toNat % 2 ^ 32 := by
      rw [BitVec.toNat_setWidth, BitVec.toNat_setWidth]
      omega
    have hsum : (x.phys_size + ((p_memsz m h).setWidth 32).setWidth 64).toNat =
        x.phys_size.toNat + (p_memsz m h).toNat % 2 ^ 32 := by
      rw [BitVec.toNat_add, hmem]
      omega
    have hstart : (x.add m image_start h).virt_start.toNat =
        min x.virt_start.toNat (p_vaddr m h).toNat := by
      show (if x.virt_start > p_vaddr m h then p_vaddr m h else x.virt_start).toNat = _
      split
      · rename_i hgt
        have : (p_vaddr m h).toNat < x.virt_start.toNat := hgt
        omega
      · rename_i hle
        have : ¬ (p_vaddr m h).toNat < x.virt_start.toNat := hle
        omega
    have hsize : (x.add m image_start h).phys_size.toNat =
        x.phys_size.toNat + pageRounded ((p_memsz m h).toNat % 2 ^ 32) := by
      show (page_up _).toNat = _
      rw [page_up_toNat (by rw [hsum]; omega), hsum, pageRounded_add hx]
    have hpage := pageRounded_mod ((p_memsz m h).toNat % 2 ^ 32)
    have hle : pageRounded ((p_memsz m h).toNat % 2 ^ 32) ≤ 2 ^ 32 := by
      unfold pageRounded
      omega
    obtain ⟨hv, hp⟩ := ih (x.add m image_start h) (by omega) (by omega)
    simp only [List.foldl_cons, List.map_cons, List.sum_cons]
    rw [hv, hp, hstart, hsize]
    exact ⟨rfl, by omega⟩

theorem loads_length (m : Memory) (image_start : U32) : (loads m image_start).length < 2 ^ 16 := by
  have hle : (loads m image_start).length ≤ (headers m image_start).length :=
    List.length_filter_le _ _
  have := (e_phnum m image_start).isLt
  rw [headers_length] at hle
  omega

theorem extentOf_spec (m : Memory) (image_start : U32) :
    (extentOf m image_start).virt_start.toNat = lowest m image_start ∧
      (extentOf m image_start).phys_size.toNat = imageSize m image_start := by
  have hlen := loads_length m image_start
  obtain ⟨hv, hp⟩ := extent_fold m image_start (loads m image_start) extent.initial rfl (by
    show 0 + _ < _
    omega)
  refine ⟨hv, hp.trans ?_⟩
  show 0 + _ = _
  rw [Nat.zero_add, imageSize]

theorem imageSize_mod (m : Memory) (image_start : U32) : imageSize m image_start % 0x1000 = 0 := by
  unfold imageSize
  generalize loads m image_start = hs
  induction hs with
  | nil => rfl
  | cons h hs ih =>
    have := pageRounded_mod ((p_memsz m h).toNat % 2 ^ 32)
    rw [List.map_cons, List.sum_cons]
    omega

theorem foldl_min_le (m : Memory) (hs : List U32) (start : Nat) :
    hs.foldl (fun a h => min a (p_vaddr m h).toNat) start ≤ start ∧
      ∀ h ∈ hs, hs.foldl (fun a h => min a (p_vaddr m h).toNat) start ≤ (p_vaddr m h).toNat := by
  induction hs generalizing start with
  | nil => simp
  | cons h hs ih =>
    obtain ⟨hle, hall⟩ := ih (min start (p_vaddr m h).toNat)
    simp only [List.foldl_cons]
    refine ⟨by omega, fun h' hh' => ?_⟩
    rcases List.mem_cons.mp hh' with rfl | hin
    · omega
    · exact hall h' hin

/-- No LOAD segment starts below the lowest. -/
theorem lowest_le {m : Memory} {image_start h : U32} (hh : h ∈ loads m image_start) :
    lowest m image_start ≤ (p_vaddr m h).toNat :=
  (foldl_min_le m (loads m image_start) 0xFFFFFFFFFFFFFF00).2 h hh

/-! ## Kernels and heaps -/

/-- An x86_64 executable whose headers lie in its module. -/
structure KernelFile (m : Memory) (info : kernel_info_t) : Prop where
  check : elf_check m info.image_start = true
  header : info.image_start.toNat + elf64_header_t.size ≤ info.image_end.toNat
  headers : ∀ h ∈ headers m info.image_start,
    info.image_start.toNat ≤ h.toNat ∧ h.toNat + elf64_pheader_t.size ≤ info.image_end.toNat

/-- A heap that starts behind the module, and ends below 4 GiB. -/
structure HeapBehind (a : alloc) (info : kernel_info_t) : Prop where
  behind : info.image_end.toNat ≤ a.heap_phys_current.toNat
  below : a.heap_phys_current.toNat ≤ a.heap_phys_limit.toNat
  limit : a.heap_phys_limit.toNat ≤ 2 ^ 32

theorem among_iff {h a : U32} {n : Nat} (hn : h.toNat + n ≤ 2 ^ 32) :
    Among h n a ↔ h.toNat ≤ a.toNat ∧ a.toNat < h.toNat + n := by
  constructor
  · rintro ⟨k, hk, rfl⟩
    rw [BitVec.toNat_add, BitVec.toNat_ofNat]
    omega
  · rintro ⟨h1, h2⟩
    refine ⟨a.toNat - h.toNat, by omega, BitVec.eq_of_toNat_eq ?_⟩
    have := a.isLt
    rw [BitVec.toNat_add, BitVec.toNat_ofNat]
    omega

theorem KernelFile.headerByte_lt {m : Memory} {info : kernel_info_t} (hfile : KernelFile m info)
    {a : U32} (ha : HeaderByte m info.image_start a) : a.toNat < info.image_end.toNat := by
  have hend := info.image_end.isLt
  have hheader := hfile.header
  rcases ha with ha | ⟨h, hh, ha⟩
  · have := (among_iff (by omega)).mp ha
    omega
  · have hin := hfile.headers h hh
    have := (among_iff (by omega)).mp ha
    omega

/-- The memory that a segment takes: its size there, and in any case every
byte that is copied. -/
def span (m : Memory) (h : U32) : Nat := max (p_filesz m h).toNat (p_memsz m h).toNat

theorem copied_le (m : Memory) (h : U32) : copied m h ≤ span m h := by
  unfold copied span
  rw [BitVec.toNat_setWidth]
  omega

/-- The segment lies in the extent. -/
def InExtent (m : Memory) (image_start h : U32) : Prop :=
  (p_vaddr m h).toNat + span m h ≤ lowest m image_start + imageSize m image_start

/-- What `kernel_load` has done for a kernel whose segments lie in its extent:
a block of whole pages from the heap, and each segment at its distance from
the start. -/
structure Image (m : Memory) (info : kernel_info_t) (s s' : loader) (r : kernel_loaded_info_t)
    (b : Page) : Prop where
  start : r.memory_image.start = pageAddr b
  size : r.memory_image.size.toNat = imageSize m info.image_start
  virt : r.virt = (analysed info m).virt
  behind : s.alloc.heap_phys_current.toNat ≤ (pageAddr b).toNat
  near : (pageAddr b).toNat < s.alloc.heap_phys_current.toNat + 0x1000
  current : s'.alloc.heap_phys_current.toNat = (pageAddr b).toNat + imageSize m info.image_start
  fits : s'.alloc.heap_phys_current.toNat < s.alloc.heap_phys_limit.toNat
  limit : s'.alloc.heap_phys_limit = s.alloc.heap_phys_limit
  dest : ∀ h ∈ loads m info.image_start,
    (dest_address (analysed info m) ((pageAddr b).setWidth 32) m h).toNat =
      (pageAddr b).toNat + ((p_vaddr m h).toNat - lowest m info.image_start)
  frame : ∀ x, (∀ h ∈ loads m info.image_start, ∀ k < copied m h,
    x ≠ (dest_address (analysed info m) ((pageAddr b).setWidth 32) m h +
      BitVec.ofNat 32 k).setWidth 64) → s'.mem x = m x
  copies : s'.copies = s.copies ++ (loads m info.image_start).map fun h =>
    (dest_address (analysed info m) ((pageAddr b).setWidth 32) m h, copied m h)
  reads : s'.reads = s.reads ++
    (headers m info.image_start).flatMap (loadReads m (analysed info m))

/-- A loop that returns, with no fuel named. -/
theorem kernel_load.loop_eq {info : kernel_info_t} {img : U32} {s s' : loader} {fuel : Nat}
    (hsep : Undisturbed s.mem info img) (h : loop (loadTurn info img) fuel (0, s) = ok s') :
    s' = s.segments s.mem info img (headers s.mem info.image_start) := by
  have hspec := loadTurn.spec hsep (Nat.lt_of_lt_of_le
    (Nat.lt_succ_self (e_phnum s.mem info.image_start).toNat) (Nat.le_max_right fuel _))
  have hmore := loop_mono (Nat.le_max_left fuel ((e_phnum s.mem info.image_start).toNat + 1))
    (by rw [h]; simp)
  rw [hspec, h] at hmore
  cases hmore
  rfl

section placed

variable {m : Memory} {info : kernel_info_t} {b : Page}

theorem block_ptr (hb : (pageAddr b).toNat < 2 ^ 32) :
    (((pageAddr b).setWidth 32 : U32).setWidth 64 : U64) = pageAddr b := by
  apply BitVec.eq_of_toNat_eq
  rw [BitVec.toNat_setWidth, BitVec.toNat_setWidth]
  omega

/-- The distance of a segment from the start of the extent. -/
theorem segment_offset {h : U32} (hh : h ∈ loads m info.image_start) :
    (p_vaddr m h - (analysed info m).virt.start).toNat =
      (p_vaddr m h).toNat - lowest m info.image_start := by
  have hlow := (extentOf_spec m info.image_start).1
  rw [BitVec.toNat_sub_of_le]
  · exact congrArg _ hlow
  · rw [BitVec.le_def]
    exact hlow.trans_le (lowest_le hh)

/-- In a block below 4 GiB, a segment of the extent goes to its distance from
the start. -/
theorem dest_toNat {h : U32} (hh : h ∈ loads m info.image_start)
    (hend : InExtent m info.image_start h)
    (hb : (pageAddr b).toNat + imageSize m info.image_start < 2 ^ 32) :
    (dest_address (analysed info m) ((pageAddr b).setWidth 32) m h).toNat =
      (pageAddr b).toNat + ((p_vaddr m h).toNat - lowest m info.image_start) := by
  have hle := lowest_le hh
  unfold InExtent at hend
  rw [dest_address, block_ptr (by omega), BitVec.toNat_setWidth, BitVec.toNat_add, segment_offset hh]
  omega

/-- Copies into a block behind the module write to no header. -/
theorem undisturbed_behind (hfile : KernelFile m info)
    (hin : ∀ h ∈ loads m info.image_start, InExtent m info.image_start h)
    (hbehind : info.image_end.toNat ≤ (pageAddr b).toNat)
    (hb : (pageAddr b).toNat + imageSize m info.image_start < 2 ^ 32) :
    Undisturbed m (analysed info m) ((pageAddr b).setWidth 32) := by
  intro h (hh : h ∈ loads m info.image_start) x hx hbyte
  have hd := dest_toNat hh (hin h hh) hb
  have hend := hin h hh
  have hc := copied_le m h
  have hle := lowest_le hh
  unfold InExtent at hend
  have hx' := (among_iff (by omega)).mp hx
  have hlt := hfile.headerByte_lt hbyte
  omega

/-- What `malloc_aligned` is asked for. -/
theorem asked_toNat (hsize : imageSize m info.image_start < 2 ^ 32) :
    ((analysed info m).phys.size.setWidth 32).toNat = imageSize m info.image_start := by
  rw [BitVec.toNat_setWidth]
  exact (congrArg (· % 2 ^ 32) (extentOf_spec m info.image_start).2).trans (Nat.mod_eq_of_lt hsize)

end placed

theorem kernel_load.spec {fuel : Nat} {info : kernel_info_t} {s s' : loader}
    {r : kernel_loaded_info_t} (hfile : KernelFile s.mem info) (hheap : HeapBehind s.alloc info)
    (hsize : imageSize s.mem info.image_start < 2 ^ 32)
    (hin : ∀ h ∈ loads s.mem info.image_start, InExtent s.mem info.image_start h)
    (h : kernel_load fuel (analysed info s.mem) s = ok (r, s')) : ∃ b, Image s.mem info s s' r b := by
  obtain ⟨⟨img, a⟩, hcall, h⟩ := bind_eq_ok.mp h
  obtain ⟨t, hloop, h⟩ := bind_eq_ok.mp h
  cases h
  have hbelow := hheap.below
  have hlimit := hheap.limit
  have hasked := asked_toNat hsize
  obtain ⟨b, rfl, hge, hnear, hcur, hfit, hsame⟩ :=
    malloc_block.spec (by omega) (by rw [hasked]; omega) hcall
  rw [hasked] at hcur
  have hb : (pageAddr b).toNat + imageSize s.mem info.image_start < 2 ^ 32 := by omega
  have hsep := undisturbed_behind hfile hin (Nat.le_trans hheap.behind hge) hb
  have ht : s' = loader.segments { s with alloc := a } s.mem (analysed info s.mem)
      ((pageAddr b).setWidth 32) (headers s.mem info.image_start) := kernel_load.loop_eq hsep hloop
  subst ht
  obtain ⟨ha, hreads, hcopies⟩ := segments_logs (s := { s with alloc := a }) (m := s.mem)
    (headers s.mem info.image_start)
  refine ⟨b, block_ptr (by omega), (extentOf_spec s.mem info.image_start).2, rfl, hge, hnear, ?_, ?_,
    ?_, fun h hh => dest_toNat hh (hin h hh) hb, fun x hx => ?_, hcopies, hreads⟩
  · rw [ha]
    exact hcur
  · rw [ha]
    exact hfit
  · rw [ha]
    exact hsame
  · exact segments_frame fun h hh htype => hx h (mem_loads.mpr ⟨hh, htype⟩)

/-- `kernel_load` returns when the heap has room for the image. -/
theorem kernel_load.total {fuel : Nat} {info : kernel_info_t} {s : loader}
    (hfile : KernelFile s.mem info) (hheap : HeapBehind s.alloc info)
    (hin : ∀ h ∈ loads s.mem info.image_start, InExtent s.mem info.image_start h)
    (henabled : s.alloc.alloc_enabled = true)
    (hroom : pageRounded s.alloc.heap_phys_current.toNat + imageSize s.mem info.image_start <
      s.alloc.heap_phys_limit.toNat)
    (hfuel : (e_phnum s.mem info.image_start).toNat < fuel) :
    ∃ r, kernel_load fuel (analysed info s.mem) s = ok r := by
  have hbelow := hheap.below
  have hlimit := hheap.limit
  have hsize : imageSize s.mem info.image_start < 2 ^ 32 := by omega
  have hasked := asked_toNat hsize
  obtain ⟨⟨img, a⟩, hcall⟩ := malloc_block.total henabled (by omega) (by rw [hasked]; exact hroom)
  obtain ⟨b, rfl, hge, -, hcur, hfit, -⟩ :=
    malloc_block.spec (by omega) (by rw [hasked]; omega) hcall
  rw [hasked] at hcur
  have hsep := undisturbed_behind hfile hin (Nat.le_trans hheap.behind hge) (by omega)
  have hloop := loadTurn.spec (s := { s with alloc := a }) hsep hfuel
  simp only [kernel_load, hcall, bind_ok, hloop]
  exact ⟨_, rfl⟩

/-! ## Kernels in memory -/

/-- The numbers at their places, and `m` elsewhere. -/
def written (ws : List (U64 × Nat × Nat)) (m : Memory) : Memory :=
  ws.foldr (fun w m => storeBytes m w.1 w.2.1 w.2.2) m

/-- An ELF header at `a`, with `n` program headers behind it. -/
def ehdr (a : U64) (n : Nat) : List (U64 × Nat × Nat) :=
  [(a, 4, 0x464C457F), (a + 16, 2, 2), (a + 18, 2, 0x3E), (a + 32, 8, 64), (a + 54, 2, 56),
    (a + 56, 2, n)]

/-- A LOAD header at `a`. -/
def phdr (a : U64) (offset vaddr filesz memsz : Nat) : List (U64 × Nat × Nat) :=
  [(a, 4, 1), (a + 8, 8, offset), (a + 16, 8, vaddr), (a + 32, 8, filesz), (a + 40, 8, memsz)]

/-- A module from 2 MiB on, of two pages. -/
def moduleAt2M : kernel_info_t :=
  { image_start := 0x200000, image_end := 0x202000, phys := ⟨0, 0⟩, virt := ⟨0, 0⟩ }

/-- A boot loader over memory `m`, with a heap behind the module. -/
def loaderOver (m : Memory) : loader :=
  { alloc := alloc_init 0x202000, mem := m, reads := [], copies := [] }

/-- A kernel at 2 MiB with two LOAD headers behind its ELF header, and the
address, the size in the file and the size in memory that each names. -/
structure TwoLoads (m : Memory) (v₁ f₁ s₁ v₂ f₂ s₂ : U64) : Prop where
  check : elf_check m 0x200000 = true
  headers : headers m 0x200000 = [0x200040, 0x200078]
  types : p_type m 0x200040 = 1 ∧ p_type m 0x200078 = 1
  first : p_vaddr m 0x200040 = v₁ ∧ p_filesz m 0x200040 = f₁ ∧ p_memsz m 0x200040 = s₁
  second : p_vaddr m 0x200078 = v₂ ∧ p_filesz m 0x200078 = f₂ ∧ p_memsz m 0x200078 = s₂

namespace TwoLoads

variable {m : Memory} {v₁ f₁ s₁ v₂ f₂ s₂ : U64} (hm : TwoLoads m v₁ f₁ s₁ v₂ f₂ s₂)
include hm

theorem loads : loads m 0x200000 = [0x200040, 0x200078] := by
  rw [awd.loads, hm.headers]
  refine List.filter_eq_self.mpr (List.forall_mem_cons.mpr ⟨decide_eq_true hm.types.1, ?_⟩)
  exact List.forall_mem_singleton.mpr (decide_eq_true hm.types.2)

theorem file : KernelFile m moduleAt2M := by
  refine ⟨hm.check, by decide, ?_⟩
  show ∀ h ∈ awd.headers m 0x200000, _
  rw [hm.headers]
  exact List.forall_mem_cons.mpr ⟨by decide, List.forall_mem_singleton.mpr (by decide)⟩

/-- What holds of both segments holds of every one. -/
theorem forall_loads {P : U32 → Prop} (h₁ : P 0x200040) (h₂ : P 0x200078) :
    ∀ h ∈ awd.loads m 0x200000, P h := by
  rw [hm.loads]
  exact List.forall_mem_cons.mpr ⟨h₁, List.forall_mem_singleton.mpr h₂⟩

theorem lowest : lowest m 0x200000 = min (min 0xFFFFFFFFFFFFFF00 v₁.toNat) v₂.toNat := by
  rw [awd.lowest, hm.loads]
  simp only [List.foldl_cons, List.foldl_nil, hm.first.1, hm.second.1]

theorem imageSize : imageSize m 0x200000 =
    pageRounded (s₁.toNat % 2 ^ 32) + pageRounded (s₂.toNat % 2 ^ 32) := by
  rw [awd.imageSize, hm.loads]
  simp only [List.map_cons, List.map_nil, List.sum_cons, List.sum_nil, hm.first.2.2, hm.second.2.2,
    Nat.add_zero]

end TwoLoads

/-- A memory with such a kernel, and `fill` in every byte that is not named. -/
@[irreducible] def twoLoads (fill : U8) (v₁ f₁ s₁ v₂ f₂ s₂ : Nat) : Memory :=
  written (ehdr 0x200000 2 ++ phdr 0x200040 0x1000 v₁ f₁ s₁ ++ phdr 0x200078 0x1800 v₂ f₂ s₂)
    fun _ => fill

/-- Two segments on neighbouring pages. -/
def twoPages (fill : U8) : Memory :=
  twoLoads fill 0xffffffff80200000 0x800 0x1000 0xffffffff80201000 0x400 0x1000

theorem twoPages_clean : TwoLoads (twoPages 0) 0xffffffff80200000 0x800 0x1000 0xffffffff80201000
    0x400 0x1000 := by
  refine ⟨?_, ?_, ?_, ?_, ?_⟩
  all_goals with_unfolding_all decide

theorem twoPages_size {m : Memory} (hm : TwoLoads m 0xffffffff80200000 0x800 0x1000
    0xffffffff80201000 0x400 0x1000) : imageSize m 0x200000 = 0x2000 := hm.imageSize.trans (by decide)

theorem twoPages_inExtent {m : Memory} (hm : TwoLoads m 0xffffffff80200000 0x800 0x1000
    0xffffffff80201000 0x400 0x1000) : ∀ h ∈ loads m 0x200000, InExtent m 0x200000 h := by
  refine hm.forall_loads ?_ ?_
  · rw [InExtent, span, hm.lowest, hm.imageSize, hm.first.1, hm.first.2.1, hm.first.2.2]
    decide
  · rw [InExtent, span, hm.lowest, hm.imageSize, hm.second.1, hm.second.2.1, hm.second.2.2]
    decide

/-- A heap from 2 MiB and two pages on is behind the module. -/
theorem heapBehind_2M : HeapBehind (alloc_init 0x202000) moduleAt2M := ⟨by decide, by decide, by decide⟩

end awd
