-- The kernel as the boot loader takes it apart and loads it (`kernel.c`). One
-- pass over the program headers measures the LOAD segments, a second one
-- copies them into a block of that size. Nothing clears the block, and the
-- second pass reads the headers again from memory.
import CanidaeOS.AwdElf

open Program Machine Outcome

namespace awd

open elf64_header_t elf64_pheader_t

structure kernel_region_t where
  start : U64
  size : U64

structure kernel_info_t where
  image_start : U32
  image_end : U32
  phys : kernel_region_t
  virt : kernel_region_t

structure kernel_loaded_info_t where
  memory_image : kernel_region_t
  virt : kernel_region_t
  virtual_entry : U64

/-- The heap and memory, with what was read of program headers and of segments
and what was copied, oldest first: the first byte and the number of bytes. -/
structure loader where
  alloc : alloc
  mem : Memory
  reads : List (U32 × Nat)
  copies : List (U32 × Nat)

def loader.read (s : loader) (a : U32) (n : Nat) : loader := { s with reads := s.reads ++ [(a, n)] }

def loader.copy (s : loader) (dest src : U32) (n : Nat) : loader :=
  { s with mem := memcpy dest src n s.mem, reads := s.reads ++ [(src, n)]
           copies := s.copies ++ [(dest, n)] }

/-! ## The code -/

/-- The locals `virt.start`, `phys.start` and `phys.size` of `kernel_analyse`. -/
structure extent where
  virt_start : U64
  phys_start : U64
  phys_size : U64

def extent.initial : extent :=
  { virt_start := 0xFFFFFFFFFFFFFF00, phys_start := 0xFFFFFFFFFFFFFF00, phys_size := 0 }

/-- The next multiple of a page, as `kernel_analyse` computes it. -/
def page_up (size : U64) : U64 :=
  if size % 0x1000 ≠ 0 then size + (0x1000 - size.setWidth 32 % 0x1000 : U32).setWidth 64 else size

/-- A LOAD header in `kernel_analyse`. -/
def extent.add (x : extent) (m : Memory) (image_start prog_header : U32) : extent :=
  let virt_start := if x.virt_start > p_vaddr m prog_header then p_vaddr m prog_header
    else x.virt_start
  let ph_file_address : U32 := (image_start.setWidth 64 + p_offset m prog_header).setWidth 32
  let phys_start := if x.phys_start > ph_file_address.setWidth 64 then ph_file_address.setWidth 64
    else x.phys_start
  let phys_size := page_up (x.phys_size + ((p_memsz m prog_header).setWidth 32).setWidth 64)
  { virt_start, phys_start, phys_size }

/-- One turn of the loop of `kernel_analyse`. -/
def analyseTurn (image_start : U32) (t : extent × loader) (i : Nat) : extent × loader :=
  let (x, s) := t
  let prog_header := prog_header s.mem image_start i
  let s := s.read prog_header 4
  -- ignore non-LOAD headers
  if p_type s.mem prog_header ≠ 1 then (x, s)
  else
    (x.add s.mem image_start prog_header,
      ((s.read (prog_header + 16) 8).read (prog_header + 8) 8).read (prog_header + 40) 8)

def kernel_analyse (info : kernel_info_t) (s : loader) : Outcome Stop (kernel_info_t × loader) :=
  if elf_check s.mem info.image_start = false then
    panic "kernel error: Kernel is not a ELF executable."
  else
    let (x, s) := (List.range (e_phnum s.mem info.image_start).toNat).foldl
      (analyseTurn info.image_start) (extent.initial, s)
    -- size in physical memory is size in virtual
    ok ({ info with phys := ⟨x.phys_start, x.phys_size⟩, virt := ⟨x.virt_start, x.phys_size⟩ }, s)

/-- Where `kernel_load` copies a segment to. -/
def dest_address (info : kernel_info_t) (kernel_phys_image : U32) (m : Memory) (prog_header : U32) :
    U32 :=
  (kernel_phys_image.setWidth 64 + (p_vaddr m prog_header - info.virt.start)).setWidth 32

/-- Where `kernel_load` copies a segment from. -/
def file_address (info : kernel_info_t) (m : Memory) (prog_header : U32) : U32 :=
  (info.image_start.setWidth 64 + p_offset m prog_header).setWidth 32

/-- The bytes that `memcpy` is asked for, in a `size_t`. -/
def copied (m : Memory) (prog_header : U32) : Nat := ((p_filesz m prog_header).setWidth 32).toNat

/-- A program header in `kernel_load`, with the fields that `m` has. -/
def loader.segment (s : loader) (m : Memory) (info : kernel_info_t)
    (kernel_phys_image prog_header : U32) : loader :=
  let s := s.read prog_header 4
  if p_type m prog_header ≠ 1 then s
  else
    (((s.read (prog_header + 8) 8).read (prog_header + 16) 8).read (prog_header + 32) 8).copy
      (dest_address info kernel_phys_image m prog_header) (file_address info m prog_header)
      (copied m prog_header)

/-- One turn of the loop of `kernel_load`. -/
def loadTurn (info : kernel_info_t) (kernel_phys_image : U32) (t : Nat × loader) :
    Outcome Stop (Turn (Nat × loader) loader) :=
  let (i, s) := t
  if i < (e_phnum s.mem info.image_start).toNat then
    ok (.next (i + 1,
      s.segment s.mem info kernel_phys_image (prog_header s.mem info.image_start i)))
  else ok (.leave s)

def kernel_load (fuel : Nat) (info : kernel_info_t) (s : loader) :
    Outcome Stop (kernel_loaded_info_t × loader) := do
  let (kernel_phys_image, alloc) ← malloc_aligned (info.phys.size.setWidth 32) 0x1000 s.alloc
  let s ← loop (loadTurn info kernel_phys_image) fuel (0, { s with alloc })
  ok (⟨⟨kernel_phys_image.setWidth 64, info.phys.size⟩, info.virt,
    e_entry s.mem info.image_start⟩, s)

/-! ## The headers of a kernel -/

/-- The program headers, in order. -/
def headers (m : Memory) (image_start : U32) : List U32 :=
  (List.range (e_phnum m image_start).toNat).map (prog_header m image_start)

/-- The LOAD headers, in order. -/
def loads (m : Memory) (image_start : U32) : List U32 :=
  (headers m image_start).filter fun h => p_type m h = 1

theorem mem_loads {m : Memory} {image_start h : U32} :
    h ∈ loads m image_start ↔ h ∈ headers m image_start ∧ p_type m h = 1 := by
  simp [loads]

theorem headers_length (m : Memory) (image_start : U32) :
    (headers m image_start).length = (e_phnum m image_start).toNat := by
  simp [headers]

theorem headers_getElem (m : Memory) (image_start : U32) {i : Nat}
    (hi : i < (headers m image_start).length) :
    (headers m image_start)[i] = prog_header m image_start i := by
  simp [headers]

/-! ## The spec of `kernel_analyse` -/

/-- What the first pass reads of a header. -/
def analyseReads (m : Memory) (h : U32) : List (U32 × Nat) :=
  if p_type m h ≠ 1 then [(h, 4)] else [(h, 4), (h + 16, 8), (h + 8, 8), (h + 40, 8)]

/-- What the first pass finds. -/
def extentOf (m : Memory) (image_start : U32) : extent :=
  (loads m image_start).foldl (fun x h => x.add m image_start h) extent.initial

theorem analyse_fold (m : Memory) (image_start : U32) (is : List Nat) (x : extent) (s : loader)
    (hm : s.mem = m) :
    is.foldl (analyseTurn image_start) (x, s) =
      (((is.map (prog_header m image_start)).filter fun h => p_type m h = 1).foldl
          (fun x h => x.add m image_start h) x,
        { s with reads := s.reads ++ (is.map (prog_header m image_start)).flatMap (analyseReads m) }) := by
  induction is generalizing x s with
  | nil => simp
  | cons i is ih =>
    subst hm
    simp only [List.foldl_cons, List.map_cons, List.flatMap_cons]
    by_cases htype : p_type s.mem (prog_header s.mem image_start i) = 1
    · have hturn : analyseTurn image_start (x, s) i =
          (x.add s.mem image_start (prog_header s.mem image_start i),
            { s with reads := s.reads ++ analyseReads s.mem (prog_header s.mem image_start i) }) := by
        simp [analyseTurn, loader.read, analyseReads, htype]
      rw [hturn, ih _ { s with
          reads := s.reads ++ analyseReads s.mem (prog_header s.mem image_start i) } rfl,
        List.filter_cons_of_pos (by simpa using htype)]
      simp
    · have hturn : analyseTurn image_start (x, s) i =
          (x, { s with reads := s.reads ++ analyseReads s.mem (prog_header s.mem image_start i) }) := by
        simp only [analyseTurn, loader.read, analyseReads, ne_eq, htype, not_false_eq_true, if_true]
      rw [hturn, ih _ { s with
          reads := s.reads ++ analyseReads s.mem (prog_header s.mem image_start i) } rfl,
        List.filter_cons_of_neg (by simpa using htype)]
      simp

/-- The information that `kernel_analyse` returns. -/
def analysed (info : kernel_info_t) (m : Memory) : kernel_info_t :=
  let x := extentOf m info.image_start
  { info with phys := ⟨x.phys_start, x.phys_size⟩, virt := ⟨x.virt_start, x.phys_size⟩ }

/-- `kernel_analyse` panics on what is no ELF executable, and returns the
extent of the LOAD segments otherwise. -/
theorem kernel_analyse.spec (info : kernel_info_t) (s : loader) :
    kernel_analyse info s =
      if elf_check s.mem info.image_start = false then
        panic "kernel error: Kernel is not a ELF executable."
      else ok (analysed info s.mem, { s with
        reads := s.reads ++ (headers s.mem info.image_start).flatMap (analyseReads s.mem) }) := by
  unfold kernel_analyse
  rw [analyse_fold s.mem info.image_start _ _ s rfl]
  rfl

/-! ## The spec of `kernel_load` -/

/-- Address `a` is in the ELF header or in a program header. -/
def HeaderByte (m : Memory) (image_start a : U32) : Prop :=
  Among image_start elf64_header_t.size a ∨
    ∃ h ∈ headers m image_start, Among h elf64_pheader_t.size a

/-- No copy of a LOAD segment writes to a header. -/
def Undisturbed (m : Memory) (info : kernel_info_t) (kernel_phys_image : U32) : Prop :=
  ∀ h ∈ loads m info.image_start, ∀ a,
    Among (dest_address info kernel_phys_image m h) (copied m h) a →
      ¬ HeaderByte m info.image_start a

/-- The headers are in `m'` as in `m`. -/
def HeadersKept (m m' : Memory) (image_start : U32) : Prop :=
  ∀ a, HeaderByte m image_start a → loadByte m' a = loadByte m a

variable {m m' : Memory} {info : kernel_info_t} {img h : U32} {s : loader}

theorem HeadersKept.header (hk : HeadersKept m m' info.image_start) :
    Agree m m' info.image_start elf64_header_t.size := fun a ha => hk a (Or.inl ha)

theorem HeadersKept.pheader (hk : HeadersKept m m' info.image_start)
    (hh : h ∈ headers m info.image_start) : Agree m m' h elf64_pheader_t.size :=
  fun a ha => hk a (Or.inr ⟨h, hh, ha⟩)

/-- The fields of a program header are those of its 56 bytes. -/
theorem segment_congr (hagree : Agree m m' h elf64_pheader_t.size) :
    s.segment m' info img h = s.segment m info img h := by
  have htype : p_type m' h = p_type m h :=
    congrArg (BitVec.ofNat 32) (by simpa using number_congr hagree 0 (k := 4) (by decide))
  have hoffset : p_offset m' h = p_offset m h :=
    congrArg (BitVec.ofNat 64) (number_congr hagree 8 (by decide))
  have hvaddr : p_vaddr m' h = p_vaddr m h :=
    congrArg (BitVec.ofNat 64) (number_congr hagree 16 (by decide))
  have hfilesz : p_filesz m' h = p_filesz m h :=
    congrArg (BitVec.ofNat 64) (number_congr hagree 32 (by decide))
  simp only [loader.segment, dest_address, file_address, copied, htype, hoffset, hvaddr, hfilesz]

/-- What the second pass reads of a header and copies. -/
def loadReads (m : Memory) (info : kernel_info_t) (h : U32) : List (U32 × Nat) :=
  if p_type m h ≠ 1 then [(h, 4)]
  else [(h, 4), (h + 8, 8), (h + 16, 8), (h + 32, 8), (file_address info m h, copied m h)]

theorem segment_of_load (htype : p_type m h = 1) : s.segment m info img h =
    { s with
      mem := memcpy (dest_address info img m h) (file_address info m h) (copied m h) s.mem
      reads := s.reads ++ loadReads m info h
      copies := s.copies ++ [(dest_address info img m h, copied m h)] } := by
  simp [loader.segment, loader.read, loader.copy, loadReads, htype]

theorem segment_of_other (htype : ¬ p_type m h = 1) : s.segment m info img h =
    { s with reads := s.reads ++ loadReads m info h } := by
  simp only [loader.segment, loader.read, loadReads, ne_eq, htype, not_false_eq_true, if_true]

/-- The second pass over the headers of `m`. -/
def loader.segments (s : loader) (m : Memory) (info : kernel_info_t) (img : U32) (hs : List U32) :
    loader := hs.foldl (fun s h => s.segment m info img h) s

theorem segments_snoc (hs : List U32) :
    s.segments m info img (hs ++ [h]) = (s.segments m info img hs).segment m info img h := by
  simp [loader.segments]

/-- A byte outside of every destination stays. -/
theorem segments_frame {hs : List U32} {x : U64}
    (hx : ∀ h ∈ hs, p_type m h = 1 → ∀ k < copied m h,
      x ≠ (dest_address info img m h + BitVec.ofNat 32 k).setWidth 64) :
    (s.segments m info img hs).mem x = s.mem x := by
  induction hs using List.reverseRecOn with
  | nil => rfl
  | append_singleton hs h ih =>
    have hrest := ih fun h' hh' => hx h' (List.mem_append_left _ hh')
    rw [segments_snoc]
    by_cases htype : p_type m h = 1
    · rw [segment_of_load htype, ← hrest]
      exact memcpy_frame _ _ _ (hx h (List.mem_append_right _ (List.mem_singleton_self h)) htype)
    · rw [segment_of_other htype]
      exact hrest

/-- Copies that write to no header keep the headers. -/
theorem segments_kept (hsep : Undisturbed s.mem info img) {hs : List U32}
    (hhs : ∀ h ∈ hs, h ∈ headers s.mem info.image_start) :
    HeadersKept s.mem (s.segments s.mem info img hs).mem info.image_start := by
  intro a ha
  refine segments_frame fun h hh htype k hk heq => ?_
  exact hsep h (mem_loads.mpr ⟨hhs h hh, htype⟩) a ⟨k, hk, widened_inj heq⟩ ha

theorem segments_logs (hs : List U32) :
    (s.segments m info img hs).alloc = s.alloc ∧
      (s.segments m info img hs).reads = s.reads ++ hs.flatMap (loadReads m info) ∧
      (s.segments m info img hs).copies = s.copies ++
        (hs.filter fun h => p_type m h = 1).map fun h => (dest_address info img m h, copied m h) := by
  induction hs using List.reverseRecOn with
  | nil => simp [loader.segments]
  | append_singleton hs h ih =>
    obtain ⟨ha, hr, hc⟩ := ih
    rw [segments_snoc]
    by_cases htype : p_type m h = 1
    · rw [segment_of_load htype]
      simp [ha, hr, hc, htype]
    · have hskip : [h].filter (fun h => p_type m h = 1) = [] :=
        List.filter_cons_of_neg (by simpa using htype)
      rw [segment_of_other htype, List.filter_append, hskip]
      simp [ha, hr, hc]

/-- The loop of `kernel_load` takes the headers as they were before it. -/
theorem loadTurn.spec (hsep : Undisturbed s.mem info img) {fuel : Nat}
    (hfuel : (e_phnum s.mem info.image_start).toNat < fuel) :
    loop (loadTurn info img) fuel (0, s) =
      ok (s.segments s.mem info img (headers s.mem info.image_start)) := by
  have hlen := headers_length s.mem info.image_start
  -- the state before turn `i`
  let t : Nat → Nat × loader := fun i =>
    (i, s.segments s.mem info img ((headers s.mem info.image_start).take i))
  have hkept : ∀ i, HeadersKept s.mem (t i).2.mem info.image_start := fun i =>
    segments_kept hsep fun h hh => List.mem_of_mem_take hh
  have hturn : ∀ i < (e_phnum s.mem info.image_start).toNat,
      loadTurn info img (t i) = ok (.next (t (i + 1))) := by
    intro i hi
    have hi' : i < (headers s.mem info.image_start).length := by omega
    have hheader : prog_header s.mem info.image_start i ∈ headers s.mem info.image_start := by
      rw [← headers_getElem _ _ hi']
      exact List.getElem_mem hi'
    have hnum := e_phnum_congr (hkept i).header
    have hptr := prog_header_congr (hkept i).header i
    have hseg : (t i).2.segment (t i).2.mem info img _ = (t i).2.segment s.mem info img _ :=
      segment_congr ((hkept i).pheader hheader)
    show (if i < (e_phnum (t i).2.mem info.image_start).toNat then _ else _) = _
    rw [if_pos (by rw [hnum]; exact hi), hptr, hseg]
    show ok (Turn.next (i + 1, _)) = ok (Turn.next (i + 1, _))
    rw [List.take_succ_eq_append_getElem hi', segments_snoc, headers_getElem]
  have hend : loadTurn info img (t (e_phnum s.mem info.image_start).toNat) =
      ok (.leave (s.segments s.mem info img (headers s.mem info.image_start))) := by
    have hnum := e_phnum_congr (hkept (e_phnum s.mem info.image_start).toNat).header
    show (if _ < (e_phnum (t _).2.mem info.image_start).toNat then _ else _) = _
    rw [if_neg (by rw [hnum]; exact Nat.lt_irrefl _)]
    show ok (Turn.leave (s.segments s.mem info img _)) = _
    rw [← hlen, List.take_length]
  obtain ⟨k, rfl⟩ : ∃ k, fuel = (k + 1) + (e_phnum s.mem info.image_start).toNat :=
    ⟨fuel - 1 - (e_phnum s.mem info.image_start).toNat, by omega⟩
  exact (loop_skip (loadTurn info img) t _ (k + 1) hturn).trans (loop_leave hend)

end awd
