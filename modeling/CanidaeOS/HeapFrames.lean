-- The kernel heap beside the frame allocator. The only frames that are kept
-- from `allocate` on the heap's behalf are those below 4 MiB and those that
-- no FREE entry of the memory map lists, so a heap anywhere else is handed
-- out a second time as frames.
import CanidaeOS.MemoryMap
import CanidaeOS.PmmRuns

open Program Machine Outcome Runs

namespace lobo

/-! ## Runs of the two allocators -/

/-- The globals, with every block that `kmalloc` returned (address and size)
and every run of frames that `allocate` returned (first frame and length). -/
structure Memories where
  globals : Globals
  blocks : List (U64 × U64)
  frames : List (Nat × Nat)

inductive MemoryEvent where
  | kmalloc_aligned (sz alignment : U64)
  | heap_init_full
  | init_memory (map : List awd_physmemmap_t)
  | allocate (numContiguous : U64)

/-- A call that returns. The memory map is imported once. `allocate` takes one
frame for zero pages too. -/
inductive MemoryStep : Memories → MemoryEvent → Memories → Prop
  | kmalloc_aligned {w : Memories} {g : Globals} {sz alignment block : U64} :
      lobo.kmalloc_aligned sz alignment w.globals = ok (block, g) →
      MemoryStep w (.kmalloc_aligned sz alignment) ⟨g, (block, sz) :: w.blocks, w.frames⟩
  | heap_init_full {w : Memories} :
      MemoryStep w .heap_init_full ⟨lobo.heap_init_full w.globals, w.blocks, w.frames⟩
  | init_memory {w : Memories} {g : Globals} {fuel : Nat} {map : List awd_physmemmap_t}
      {fresh : Nat → U8} : w.globals.kernel_pmm.m_initialised = false →
      lobo.init_memory fuel map fresh w.globals = ok g →
      MemoryStep w (.init_memory map)
        ⟨g, (g.kernel_pmm.bitmap.m_ptr.addr, mem_end_address map / 0x1000 / 8 + 1) :: w.blocks,
          w.frames⟩
  | allocate {w : Memories} {p : pmm} {fuel : Nat} {numContiguous a : U64} :
      w.globals.kernel_pmm.allocate fuel numContiguous = ok (a, p) →
      MemoryStep w (.allocate numContiguous)
        ⟨{ w.globals with kernel_pmm := p }, w.blocks,
          (pmm.frameOf a, max numContiguous.toNat 1) :: w.frames⟩

/-- The block has a byte in the frame. -/
def Occupies (block : U64 × U64) (f : Nat) : Prop :=
  ∃ x, InRange block.1 block.2.toNat x ∧ pmm.frameOf (MEM_VIRT_TO_PHYS x) = f

/-- No returned frame holds a byte of a returned block. -/
def Memories.Separate (w : Memories) : Prop :=
  ∀ r ∈ w.frames, ∀ f, r.1 ≤ f → f < r.1 + r.2 → ∀ b ∈ w.blocks, ¬ Occupies b f

/-! ## The heap's frames -/

/-- Frame `f` holds a byte of the heap between `base` and `limit`. -/
def HeapFrame (base limit : U64) (f : Nat) : Prop :=
  ∃ x : U64, base.toNat ≤ x.toNat ∧ x.toNat < limit.toNat ∧ pmm.frameOf (MEM_VIRT_TO_PHYS x) = f

/-- The heap's frames are below 4 MiB or listed by no FREE entry. -/
def HeapReserved (base limit : U64) (map : List awd_physmemmap_t) : Prop :=
  ∀ f, HeapFrame base limit f → f < 0x400 ∨ ¬ Listed map f

/-- The guard of a step: sizes and counts that do not wrap, and a memory map
whose import leaves the heap's frames used. -/
def heapReserved (base limit : U64) (w : Memories) : MemoryEvent → Prop
  | .kmalloc_aligned sz alignment => NoWrap w.globals sz alignment
  | .heap_init_full => True
  | .init_memory map => HeapReserved base limit map ∧
      NoWrap w.globals (mem_end_address map / 0x1000 / 8 + 1) 8
  | .allocate numContiguous =>
      numContiguous.toNat + w.globals.kernel_pmm.m_numPages.toNat ≤ 2 ^ 64

/-- What every step keeps: blocks are cut from the heap, and no frame of the
heap is ever free. -/
structure HeapKept (base limit : U64) (w : Memories) : Prop where
  limit_eq : w.globals.earlyAllocLimit = limit
  base_le : base.toNat ≤ w.globals.earlyAllocBase.toNat
  ready : w.globals.kernel_pmm.Ready
  unfree : ∀ f, HeapFrame base limit f → ¬ w.globals.kernel_pmm.Free f
  blocks : ∀ b ∈ w.blocks, ∀ f, Occupies b f → HeapFrame base limit f
  frames : ∀ r ∈ w.frames, ∀ f, r.1 ≤ f → f < r.1 + r.2 → ¬ HeapFrame base limit f

/-- A block that ends at the new position lies in the heap. -/
theorem Allocated.inHeap {g g' : Globals} {sz alignment block base : U64}
    (h : Allocated g g' sz alignment block) (hw : NoWrap g sz alignment)
    (hbase : base.toNat ≤ g.earlyAllocBase.toNat) {f : Nat} (hf : Occupies (block, sz) f) :
    HeapFrame base g.earlyAllocLimit f := by
  obtain ⟨x, hx, hxf⟩ := hf
  obtain ⟨hge, hend⟩ := h.exact hw
  have hle : g'.earlyAllocBase.toNat ≤ g.earlyAllocLimit.toNat := h.base_le
  have hlt := g'.earlyAllocBase.isLt
  obtain ⟨h1, h2⟩ := (inRange_iff (by dsimp only; omega)).mp hx
  exact ⟨x, by dsimp only at h1; omega, by dsimp only at h2; omega, hxf⟩

/-- Marking frames frees none. -/
theorem pmm.Marks.not_free {p p' : pmm} {U : Nat → Prop}
    (h : pmm.Marks p p' fun f => U f ∨ p.Used f) {f : Nat} (hf : ¬ p.Free f) : ¬ p'.Free f := by
  rintro ⟨hlt, hnot⟩
  rw [h.used, not_or] at hnot
  exact hf ⟨by rw [← h.numPages]; exact hlt, hnot.2⟩

theorem kept_kmalloc {base limit : U64} {w : Memories} {g : Globals} {sz alignment block : U64}
    (hk : HeapKept base limit w) (hw : NoWrap w.globals sz alignment)
    (h : kmalloc_aligned sz alignment w.globals = ok (block, g)) :
    HeapKept base limit ⟨g, (block, sz) :: w.blocks, w.frames⟩ := by
  have halloc := kmalloc_aligned.spec h
  obtain ⟨hge, hend⟩ := halloc.exact hw
  obtain ⟨U, hm⟩ := halloc.marks hk.ready
  have hbase := hk.base_le
  refine ⟨halloc.limit_eq.trans hk.limit_eq, by dsimp only; omega, hm.ready hk.ready,
    fun f hf => hm.not_free (hk.unfree f hf), ?_, hk.frames⟩
  intro b hb f hf
  rcases List.mem_cons.mp hb with rfl | hb
  · rw [← hk.limit_eq]
    exact halloc.inHeap hw hbase hf
  · exact hk.blocks b hb f hf

theorem kept_init_memory {base limit : U64} {w : Memories} {g : Globals} {fuel : Nat}
    {map : List awd_physmemmap_t} {fresh : Nat → U8} (hk : HeapKept base limit w)
    (hreserved : HeapReserved base limit map)
    (hw : NoWrap w.globals (mem_end_address map / 0x1000 / 8 + 1) 8)
    (hinit : w.globals.kernel_pmm.m_initialised = false)
    (h : init_memory fuel map fresh w.globals = ok g) :
    HeapKept base limit
      ⟨g, (g.kernel_pmm.bitmap.m_ptr.addr, mem_end_address map / 0x1000 / 8 + 1) :: w.blocks,
        w.frames⟩ := by
  have himported := init_memory.spec hinit h
  obtain ⟨g₁, g₂, hg₁, hg₂, halloc⟩ := himported.block
  have hw₁ : NoWrap g₁ (mem_end_address map / 0x1000 / 8 + 1) 8 := by
    rw [NoWrap, hg₁.base]
    exact hw
  obtain ⟨hge, hend⟩ := halloc.exact hw₁
  have hbase := hk.base_le
  refine ⟨?_, ?_, himported.ready, fun f hf => ?_, ?_, hk.frames⟩
  · dsimp only
    rw [hg₂.limit, halloc.limit_eq, hg₁.limit, hk.limit_eq]
  · dsimp only
    rw [hg₂.base]
    rw [hg₁.base] at hge
    omega
  · rcases hreserved f hf with hlt | hunlisted
    · intro hfree
      have := ((himported.free f).mp hfree).1
      omega
    · exact fun hfree => hunlisted ((himported.free f).mp hfree).2
  · intro b hb f hf
    rcases List.mem_cons.mp hb with rfl | hb
    · rw [← hk.limit_eq, ← hg₁.limit]
      exact halloc.inHeap hw₁ (by rw [hg₁.base]; exact hbase) hf
    · exact hk.blocks b hb f hf

/-- A run of frames that `allocate` returns holds no frame of a heap below
4 GiB: the look-ahead tests every frame there that the run has. -/
theorem kept_allocate {base limit : U64} {w : Memories} {p : pmm} {fuel : Nat} {n a : U64}
    (hk : HeapKept base limit w) (hsmall : ∀ f, HeapFrame base limit f → f < 2 ^ 20)
    (hw : n.toNat + w.globals.kernel_pmm.m_numPages.toNat ≤ 2 ^ 64)
    (h : w.globals.kernel_pmm.allocate fuel n = ok (a, p)) :
    HeapKept base limit ⟨{ w.globals with kernel_pmm := p }, w.blocks,
      (pmm.frameOf a, max n.toNat 1) :: w.frames⟩ := by
  obtain ⟨idx, ha, hfound⟩ := pmm.allocate.spec hk.ready h
  obtain ⟨U, hm⟩ := hfound.marks
  have hidx : pmm.frameOf a = idx := by
    unfold pmm.frameOf
    omega
  have hin := hfound.free.1
  refine ⟨hk.limit_eq, hk.base_le, hm.ready hk.ready,
    fun f hf => hm.not_free (hk.unfree f hf), hk.blocks, ?_⟩
  intro r hr f h1 h2 hf
  rcases List.mem_cons.mp hr with rfl | hr
  · dsimp only at h1 h2
    rw [hidx] at h1 h2
    have hf20 := hsmall f hf
    rcases Nat.eq_or_lt_of_le h1 with rfl | hlt
    · exact hk.unfree _ hf hfound.free
    · have := hfound.ahead (by omega) (by omega) (f - idx) (by omega) (by omega)
      rw [show idx + (f - idx) = f by omega, Nat.mod_eq_of_lt hf20] at this
      exact hk.unfree f hf this
  · exact hk.frames r hr f h1 h2 hf

/-! ## The laws -/

theorem kept_step {base limit : U64} (hsmall : ∀ f, HeapFrame base limit f → f < 2 ^ 20)
    {w w' : Memories} {e : MemoryEvent} (hk : HeapKept base limit w)
    (h : Guarded (heapReserved base limit) MemoryStep w e w') : HeapKept base limit w' := by
  obtain ⟨hguard, hstep⟩ := h
  cases hstep with
  | kmalloc_aligned hcall => exact kept_kmalloc hk hguard hcall
  | heap_init_full =>
    exact ⟨hk.limit_eq, hk.base_le, hk.ready, hk.unfree, hk.blocks, hk.frames⟩
  | init_memory hinit hcall => exact kept_init_memory hk hguard.1 hguard.2 hinit hcall
  | allocate hcall => exact kept_allocate hk hsmall hguard hcall

/-- The boot loader's heap ends below 4 GiB. -/
theorem heapFrame_lt {cur lim : U32} (hle : cur ≤ lim) {f : Nat}
    (hf : HeapFrame (cur.setWidth 64 + KERNEL_VMB) (lim.setWidth 64 + KERNEL_VMB) f) :
    f < 2 ^ 20 := by
  obtain ⟨x, h1, h2, rfl⟩ := hf
  have hcur := cur.isLt
  have hlim := lim.isLt
  have hle' : cur.toNat ≤ lim.toNat := hle
  have hbase := phys_to_virt_toNat (cur.setWidth 64)
  have hlimit := phys_to_virt_toNat (lim.setWidth 64)
  have hx := phys_to_virt_toNat (MEM_VIRT_TO_PHYS x)
  rw [BitVec.toNat_setWidth, Nat.mod_eq_of_lt (by omega)] at hbase hlimit
  rw [virt_to_phys_to_virt] at hx
  rw [← MEM_PHYS_TO_VIRT, hbase] at h1
  rw [← MEM_PHYS_TO_VIRT, hlimit] at h2
  have hlow : (MEM_VIRT_TO_PHYS x).toNat < 2 ^ 32 := by
    split at h1 <;> split at h2 <;> split at hx <;> omega
  unfold pmm.frameOf
  omega

/-- The state in which `kernel_early` starts the two allocators. -/
def kernelEarly (cur lim : U32) : Memories := ⟨kernel_early_heap cur lim, [], []⟩

/-- While the heap's frames are reserved, no frame that `allocate` ever
returned holds a byte of a block that `kmalloc` ever returned. -/
theorem a_reserved_heap_is_never_handed_out {cur lim : U32} (hle : cur ≤ lim)
    {es : List MemoryEvent} {w : Memories}
    (run : Run (Guarded (heapReserved (cur.setWidth 64 + KERNEL_VMB) (lim.setWidth 64 + KERNEL_VMB))
      MemoryStep) (kernelEarly cur lim) es w) : w.Separate := by
  have hstart : HeapKept (cur.setWidth 64 + KERNEL_VMB) (lim.setWidth 64 + KERNEL_VMB)
      (kernelEarly cur lim) := by
    refine ⟨rfl, Nat.le_refl _, pmm.static_ready, ?_, by simp [kernelEarly], by simp [kernelEarly]⟩
    rintro f - ⟨hlt, -⟩
    exact absurd hlt (Nat.not_lt_zero f)
  have hk := run.inv (HeapKept _ _) (fun _ _ _ => kept_step fun _ => heapFrame_lt hle) hstart
  intro r hr f h1 h2 b hb hocc
  exact hk.frames r hr f h1 h2 (hk.blocks b hb f hocc)

/-- The heap from 0x110000 to 0x120000 is below 4 MiB. -/
theorem lowHeap_reserved (map : List awd_physmemmap_t) :
    HeapReserved ((0x110000 : U32).setWidth 64 + KERNEL_VMB)
      ((0x120000 : U32).setWidth 64 + KERNEL_VMB) map := by
  rintro f ⟨x, h1, h2, rfl⟩
  refine Or.inl ?_
  have hx := x.isLt
  unfold pmm.frameOf MEM_VIRT_TO_PHYS
  simp only [KERNEL_VMB, BitVec.toNat_sub, BitVec.reduceAdd, BitVec.reduceSetWidth,
    BitVec.reduceToNat] at h1 h2 ⊢
  omega

/-- FREE memory from 1 MiB to 8 MiB. -/
def heapInside : List awd_physmemmap_t := [⟨AWD_MEMMAP_FREE, 0, 0x100000, 0, 0x700000⟩]

/-- The frames of the first two pages that an import of it leaves free. -/
theorem heapInside_free {g g' : Globals} (h : Imported heapInside g g') :
    g'.kernel_pmm.Free 0x400 ∧ g'.kernel_pmm.Free 0x401 ∧ ∀ f < 0x400, g'.kernel_pmm.Used f := by
  have hfree : g'.kernel_pmm.Free 0x400 :=
    (h.free _).mpr ⟨Nat.le_refl _, _, List.mem_cons_self, rfl, by decide, by decide⟩
  refine ⟨hfree, (h.free _).mpr ⟨by decide, _, List.mem_cons_self, rfl, by decide, by decide⟩, ?_⟩
  intro f hf
  by_contra hno
  have := ((h.free f).mp ⟨Nat.lt_trans hf hfree.1, hno⟩).1
  omega

/-- `lowHeap` with its first 32 bytes handed out. -/
def lowHeapUsed : Globals := { lowHeap with earlyAllocBase := 0xffffffff80110020 }

/-- The position behind the bitmap of `heapInside`. -/
theorem lowHeapUsed_imported {g : Globals} (h : Imported heapInside lowHeapUsed g) :
    g.earlyAllocBase = 0xffffffff80110121 ∧ g.earlyAllocLimit = 0xffffffff80120000 := by
  obtain ⟨g₁, g₂, hg₁, hg₂, halloc⟩ := h.block
  have hblock : g.kernel_pmm.bitmap.m_ptr.addr = 0xffffffff80110020 := by
    apply BitVec.eq_of_toNat_eq
    rw [halloc.block_eq, hg₁.base]
    decide
  refine ⟨?_, ?_⟩
  · rw [hg₂.base, halloc.base_eq, hblock]
    decide
  · rw [hg₂.limit, halloc.limit_eq, hg₁.limit]
    rfl

/-- Both allocators at work on a heap below 4 MiB, inside of a FREE entry: a block, then
the import with the block of its bitmap, two frames (the second by a call for none), and
a stack in full mode. -/
theorem a_reserved_heap_is_never_handed_out_at_one_MiB : ∃ w,
    Run (Guarded (heapReserved ((0x110000 : U32).setWidth 64 + KERNEL_VMB)
      ((0x120000 : U32).setWidth 64 + KERNEL_VMB)) MemoryStep) (kernelEarly 0x110000 0x120000)
      [.kmalloc_aligned 0x20 8, .init_memory heapInside, .allocate 1, .allocate 0, .heap_init_full,
        .kmalloc_aligned 0x4000 8] w ∧
    w.frames = [(0x401, 1), (0x400, 1)] ∧ w.blocks.length = 3 ∧
    (0xffffffff80110000, 0x20) ∈ w.blocks ∧ (0xffffffff80110128, 0x4000) ∈ w.blocks ∧ w.Separate := by
  have hfirst : kmalloc_aligned 0x20 8 lowHeap = ok (0xffffffff80110000, lowHeapUsed) := rfl
  obtain ⟨g, hg⟩ : ∃ g, init_memory 0x701 heapInside (fun _ => 0) lowHeapUsed = ok g :=
    init_memory.total _ rfl rfl (by decide) (by decide) (listed_lt (by decide)) (by decide)
  have himported := init_memory.spec rfl hg
  obtain ⟨hbase, hlimit⟩ := lowHeapUsed_imported himported
  obtain ⟨hfree₁, hfree₂, hused⟩ := heapInside_free himported
  have hpages : g.kernel_pmm.m_numPages = 0x800 := himported.pages
  -- the call for one page takes frame 0x400, the call for none takes frame 0x401
  obtain ⟨p₁, h₁, hm₁⟩ :=
    pmm.allocate_one himported.ready (BitVec.le_refl 1) hfree₁ hused (Nat.lt_succ_self _)
  have hready₁ := hm₁.ready himported.ready
  have hfree₂' : p₁.Free 0x401 := by
    refine ⟨by rw [hm₁.numPages]; exact hfree₂.1, ?_⟩
    rw [hm₁.used]
    exact not_or.mpr ⟨by decide, hfree₂.2⟩
  have hused' : ∀ f < 0x401, p₁.Used f := by
    intro f hf
    rw [hm₁.used]
    rcases Nat.lt_or_ge f 0x400 with h | h
    · exact Or.inr (hused f h)
    · exact Or.inl (by omega)
  obtain ⟨p₂, h₂, hm₂⟩ :=
    pmm.allocate_one (n := 0) hready₁ (by decide) hfree₂' hused' (Nat.lt_succ_self _)
  -- the stack starts at the next multiple of 8
  have hstart : blockAt { g with currentMode := .Full, kernel_pmm := p₂ } 8 = 0xffffffff80110128 := by
    unfold blockAt
    dsimp only
    rw [hbase]
    decide
  obtain ⟨⟨block, g₃⟩, h₃⟩ : ∃ r,
      kmalloc_aligned 0x4000 8 { g with currentMode := .Full, kernel_pmm := p₂ } = ok r := by
    refine kmalloc_aligned.total_full rfl (by decide) (hm₂.ready hready₁) ?_ ?_
    · dsimp only
      rw [hbase, hlimit]
      decide
    · rw [hstart, hm₂.numPages, hm₁.numPages, hpages]
      decide
  obtain rfl : block = 0xffffffff80110128 := by
    apply BitVec.eq_of_toNat_eq
    rw [(kmalloc_aligned.spec h₃).block_eq, ← hstart, blockAt, BitVec.toNat_ofNat]
  have hnowrap : NoWrap { g with currentMode := .Full, kernel_pmm := p₂ } 0x4000 8 := by
    unfold NoWrap
    dsimp only
    rw [hbase]
    decide
  have hcount₁ : (1 : U64).toNat + g.kernel_pmm.m_numPages.toNat ≤ 2 ^ 64 := by
    rw [hpages]
    decide
  have hcount₂ : (0 : U64).toNat + p₁.m_numPages.toNat ≤ 2 ^ 64 := by
    rw [hm₁.numPages, hpages]
    decide
  have hnowrap₀ : NoWrap lowHeap 0x20 8 := by decide
  have hnowrap₁ : NoWrap lowHeapUsed (mem_end_address heapInside / 0x1000 / 8 + 1) 8 := by decide
  obtain ⟨w, run, hframes, hblocks⟩ : ∃ w,
      Run (Guarded (heapReserved ((0x110000 : U32).setWidth 64 + KERNEL_VMB)
        ((0x120000 : U32).setWidth 64 + KERNEL_VMB)) MemoryStep) (kernelEarly 0x110000 0x120000)
        [.kmalloc_aligned 0x20 8, .init_memory heapInside, .allocate 1, .allocate 0, .heap_init_full,
          .kmalloc_aligned 0x4000 8] w ∧
      w.frames = [(0x401, 1), (0x400, 1)] ∧
      w.blocks = [(0xffffffff80110128, 0x4000), (g.kernel_pmm.bitmap.m_ptr.addr, 0x101),
        (0xffffffff80110000, 0x20)] := by
    refine ⟨_, .snoc (.snoc (.snoc (.snoc (.snoc (.snoc (.nil _) ⟨?_, .kmalloc_aligned hfirst⟩)
      ⟨⟨lowHeap_reserved _, ?_⟩, .init_memory rfl hg⟩) ⟨?_, .allocate h₁⟩) ⟨?_, .allocate h₂⟩)
      ⟨trivial, .heap_init_full⟩) ⟨?_, .kmalloc_aligned h₃⟩, rfl, rfl⟩
    · exact hnowrap
    · exact hnowrap₀
    · exact hnowrap₁
    · exact hcount₁
    · exact hcount₂
  refine ⟨w, run, hframes, ?_, ?_, ?_, a_reserved_heap_is_never_handed_out (by decide) run⟩
  all_goals
    rw [hblocks]
    simp

/-- The first frame that `allocate` returns is the one that the bitmap of the
frames themselves lies in. -/
theorem a_heap_in_free_memory_is_handed_out : ∃ w,
    Run MemoryStep (kernelEarly 0x400000 0x410000) [.init_memory heapInside, .allocate 1] w ∧
      ¬ w.Separate := by
  obtain ⟨g, hg⟩ : ∃ g, init_memory 0x701 heapInside (fun _ => 0)
      (kernel_early_heap 0x400000 0x410000) = ok g :=
    init_memory.total _ rfl rfl (by decide) (by decide) (listed_lt (by decide)) (by decide)
  have himported := init_memory.spec rfl hg
  obtain ⟨hfree, -, hused⟩ := heapInside_free himported
  obtain ⟨p, hp, -⟩ :=
    pmm.allocate_one himported.ready (BitVec.le_refl 1) hfree hused (Nat.lt_succ_self _)
  refine ⟨_, .snoc (.snoc (.nil _) (.init_memory rfl hg)) (.allocate hp), fun hsep => ?_⟩
  -- the bitmap starts where the heap does
  obtain ⟨g₁, g₂, hg₁, -, halloc⟩ := himported.block
  have haddr : g.kernel_pmm.bitmap.m_ptr.addr = 0xffffffff80400000 := by
    apply BitVec.eq_of_toNat_eq
    rw [halloc.block_eq, hg₁.base]
    decide
  refine hsep _ List.mem_cons_self 0x400 (by decide) (by decide) _ List.mem_cons_self
    ⟨0xffffffff80400000, ?_, by decide⟩
  rw [haddr]
  decide

end lobo
