-- One region of memory under two heaps. The boot loader stacks its blocks from
-- the bottom, the kernel image and the page tables among them, and hands what
-- is left to the kernel's heap through fields of 32 bits. The kernel stacks its
-- blocks on top.
import CanidaeOS.AwdAlloc
import CanidaeOS.HeapBlocks

open Program Machine Outcome Runs

/-! ## Stretches of memory -/

/-- A stretch of physical memory. -/
structure Extent where
  start : Nat
  size : Nat

namespace Extent

def Holds (e : Extent) (x : Nat) : Prop := e.start ≤ x ∧ x < e.start + e.size

def Apart (e f : Extent) : Prop := ∀ x, ¬ (e.Holds x ∧ f.Holds x)

/-- The extents lie from `base` to `top`, and no two share an address. -/
structure Packed (base top : Nat) (es : List Extent) : Prop where
  apart : es.Pairwise Apart
  inside : ∀ e ∈ es, base ≤ e.start ∧ e.start + e.size ≤ top

variable {base mid top : Nat} {es fs : List Extent}

theorem packed_nil : Packed base top [] := by
  refine ⟨List.Pairwise.nil, ?_⟩
  intro e he
  cases he

/-- What is packed above `mid` shares no address with what is packed below. -/
theorem Packed.append (hfs : Packed mid top fs) (hes : Packed base mid es) (hbase : base ≤ mid)
    (htop : mid ≤ top) : Packed base top (fs ++ es) := by
  refine ⟨List.pairwise_append.mpr ⟨hfs.apart, hes.apart, ?_⟩, ?_⟩
  · rintro f hf e he x ⟨⟨hx, -⟩, -, hx'⟩
    have hlow := (hfs.inside f hf).1
    have hhigh := (hes.inside e he).2
    omega
  · intro e he
    rcases List.mem_append.mp he with he | he
    · obtain ⟨hlow, hhigh⟩ := hfs.inside e he
      exact ⟨by omega, hhigh⟩
    · obtain ⟨hlow, hhigh⟩ := hes.inside e he
      exact ⟨hlow, by omega⟩

theorem Packed.cons {e : Extent} (hes : Packed base mid es) (hbase : base ≤ mid)
    (he : mid ≤ e.start) (htop : e.start + e.size ≤ top) : Packed base top (e :: es) := by
  have hone : Packed mid top [e] := by
    refine ⟨List.pairwise_singleton _ _, ?_⟩
    intro f hf
    obtain rfl := List.mem_singleton.mp hf
    exact ⟨he, htop⟩
  exact hone.append hes hbase (by omega)

end Extent

/-! ## The boot loader's heap -/

namespace awd

def malloc (size : U32) (a : alloc) : Outcome Stop (U32 × alloc) := malloc_aligned size 0 a

/-- A heap in the low 2 GiB. -/
def alloc.Low (a : alloc) : Prop :=
  a.heap_phys_current.toNat ≤ a.heap_phys_limit.toNat ∧ a.heap_phys_limit.toNat < 2 ^ 31

theorem alignmentOf_toNat (alignment : U32) : (alignmentOf alignment).toNat = max alignment.toNat 8 := by
  have h8 : AWD_ALLOC_MIN_ALIGNMENT.toNat = 8 := rfl
  unfold alignmentOf
  split
  · rename_i h
    rw [ge_iff_le, BitVec.le_def, h8] at h
    omega
  · rename_i h
    rw [ge_iff_le, BitVec.le_def, h8] at h
    rw [h8]
    omega

/-- The align-up of a low position does not wrap. -/
theorem alloc.align_toNat {a : alloc} (h : a.Low) {alignment : U32} (hpos : 0 < alignment.toNat) :
    (a.align alignment).heap_phys_current.toNat =
        lobo.alignedUp a.heap_phys_current.toNat alignment.toNat ∧
      (a.align alignment).heap_phys_limit = a.heap_phys_limit := by
  have hcur : a.heap_phys_current.toNat < 2 ^ 31 := Nat.lt_of_le_of_lt h.1 h.2
  have halign := alignment.isLt
  have hwide : (alignment.setWidth 64 : U64).toNat = alignment.toNat := by
    rw [BitVec.toNat_setWidth]
    omega
  have hmod : (a.heap_phys_current % alignment.setWidth 64).toNat =
      a.heap_phys_current.toNat % alignment.toNat := by
    rw [BitVec.toNat_umod, hwide]
  have hrest := Nat.mod_lt a.heap_phys_current.toNat hpos
  unfold alloc.align lobo.alignedUp
  by_cases hzero : a.heap_phys_current.toNat % alignment.toNat = 0
  · have hnot : ¬ a.heap_phys_current % alignment.setWidth 64 ≠ 0 := by
      rw [not_not, ← BitVec.toNat_inj, hmod, hzero]
      rfl
    rw [if_neg (not_not.mpr hzero)]
    simp only [if_neg hnot, and_self]
  · have hne : a.heap_phys_current % alignment.setWidth 64 ≠ 0 := by
      intro he
      rw [he] at hmod
      exact hzero hmod.symm
    have hle : a.heap_phys_current % alignment.setWidth 64 ≤ alignment.setWidth 64 := by
      rw [BitVec.le_def, hmod, hwide]
      exact hrest.le
    rw [if_pos hzero]
    simp only [if_pos hne, and_true]
    rw [BitVec.toNat_add, BitVec.toNat_sub_of_le hle, hmod, hwide, Nat.mod_eq_of_lt (by omega)]

/-- A call that returns, on a low heap: the first multiple of the alignment from
the position on, in a block that ends below the limit. -/
theorem malloc_aligned.spec {size alignment p : U32} {a a' : alloc} (ha : a.Low)
    (h : malloc_aligned size alignment a = ok (p, a')) :
    max alignment.toNat 8 ∣ p.toNat ∧ a.heap_phys_current.toNat ≤ p.toNat ∧
      a'.heap_phys_current.toNat = p.toNat + size.toNat ∧
      a'.heap_phys_limit = a.heap_phys_limit ∧ a'.heap_phys_limit.toNat < 2 ^ 31 ∧
      a'.heap_phys_current.toNat < a.heap_phys_limit.toNat := by
  have hpos : 0 < (alignmentOf alignment).toNat := by
    rw [alignmentOf_toNat]
    omega
  obtain ⟨hup, hlimit⟩ := alloc.align_toNat ha hpos
  have hge := lobo.alignedUp_ge a.heap_phys_current.toNat (alignmentOf alignment).toNat
  have hdvd := lobo.alignedUp_dvd a.heap_phys_current.toNat hpos
  have hcur := ha.1
  have hbound := ha.2
  have hsize := size.isLt
  have hwide : (size.setWidth 64 : U64).toNat = size.toNat := by
    rw [BitVec.toNat_setWidth]
    omega
  rcases malloc_aligned.returned h with ⟨-, hfit, rfl, rfl⟩
  -- the align-up adds less than 2 ^ 32, so neither sum leaves 64 bits
  have hless := lobo.alignedUp_lt a.heap_phys_current.toNat hpos
  have halign := (alignmentOf alignment).isLt
  have hsum : ((a.align (alignmentOf alignment)).heap_phys_current + size.setWidth 64).toNat =
      lobo.alignedUp a.heap_phys_current.toNat (alignmentOf alignment).toNat + size.toNat := by
    rw [BitVec.toNat_add, hup, hwide, Nat.mod_eq_of_lt (by omega)]
  rw [BitVec.lt_def, hsum, hlimit] at hfit
  have hptr : ((a.align (alignmentOf alignment)).heap_phys_current.setWidth 32).toNat =
      lobo.alignedUp a.heap_phys_current.toNat (alignmentOf alignment).toNat := by
    rw [BitVec.toNat_setWidth, hup, Nat.mod_eq_of_lt (by omega)]
  dsimp only
  rw [hptr, hsum, ← alignmentOf_toNat]
  refine ⟨hdvd, hge, rfl, hlimit, ?_, hfit⟩
  rw [hlimit]
  exact hbound

/-- A block that a call of the boot loader returned, with what it asked for. -/
structure Block where
  addr : U32
  size : U32
  alignment : U32

/-- The heap with every block so far, the newest first. -/
structure HeapRun where
  heap : alloc
  blocks : List Block

/-- The state after a call that returned a block. -/
def HeapRun.hand (r : HeapRun) (a : alloc) (b : Block) : HeapRun := ⟨a, b :: r.blocks⟩

/-- The place of a block. -/
def Block.extent (b : Block) : Extent := ⟨b.addr.toNat, b.size.toNat⟩

/-- The block is aligned, and lies from `base` to below `limit`. -/
structure Block.Sound (base limit : Nat) (b : Block) : Prop where
  aligned : max b.alignment.toNat 8 ∣ b.addr.toNat
  base_le : base ≤ b.addr.toNat
  lt_limit : b.addr.toNat + b.size.toNat < limit

/-- The blocks are sound, and packed from `base` to the position. -/
structure HeapRun.Stacked (base : U64) (r : HeapRun) : Prop where
  limit_eq : r.heap.heap_phys_limit = base + AWD_ALLOC_SIZE
  low : r.heap.Low
  base_le : base.toNat ≤ r.heap.heap_phys_current.toNat
  sound : ∀ b ∈ r.blocks, b.Sound base.toNat (base + AWD_ALLOC_SIZE).toNat
  packed : Extent.Packed base.toNat r.heap.heap_phys_current.toNat (r.blocks.map Block.extent)

theorem HeapRun.Stacked.hand {base : U64} {r : HeapRun} {a : alloc} {size alignment p : U32}
    (hr : r.Stacked base) (h : malloc_aligned size alignment r.heap = ok (p, a)) :
    (r.hand a ⟨p, size, alignment⟩).Stacked base := by
  obtain ⟨hdvd, hge, hend, hlimit, hlow, hfit⟩ := malloc_aligned.spec hr.low h
  have hbase := hr.base_le
  refine ⟨hlimit.trans hr.limit_eq, ⟨?_, hlow⟩, ?_, ?_, ?_⟩
  · show a.heap_phys_current.toNat ≤ a.heap_phys_limit.toNat
    rw [hlimit]
    exact hfit.le
  · show base.toNat ≤ a.heap_phys_current.toNat
    omega
  · intro b hb
    rcases List.mem_cons.mp hb with rfl | hb
    · refine ⟨hdvd, hbase.trans hge, ?_⟩
      rw [← hr.limit_eq]
      exact Nat.lt_of_le_of_lt hend.symm.le hfit
    · exact hr.sound b hb
  · show Extent.Packed base.toNat a.heap_phys_current.toNat (_ :: _)
    exact hr.packed.cons hbase hge hend.symm.le

end awd

/-! ## One region, two heaps -/

namespace Boot

/-- The boot loader runs first. Its blocks stay when the kernel takes over. -/
inductive World where
  | loader (r : awd.HeapRun)
  | kernel (blocks : List awd.Block) (w : lobo.HeapRun)

inductive Event where
  | malloc (size : U32)
  | malloc_aligned (size alignment : U32)
  | kernel_enter
  | kernel (e : lobo.HeapEvent)

/-- The kernel's heap, from the fields `ptr_malloc_current` and
`ptr_malloc_limit` of the boot loader. -/
def handOver (a : awd.alloc) : lobo.HeapRun :=
  let g := lobo.kernel_early_heap (a.heap_phys_current.setWidth 32) (a.heap_phys_limit.setWidth 32)
  ⟨g, [], [g.earlyAllocBase]⟩

/-- A call that returns. One that panics ends the run. -/
inductive Step : World → Event → World → Prop
  | malloc {r : awd.HeapRun} {a : awd.alloc} {size p : U32} :
      awd.malloc size r.heap = ok (p, a) →
      Step (.loader r) (.malloc size) (.loader (r.hand a ⟨p, size, 0⟩))
  | malloc_aligned {r : awd.HeapRun} {a : awd.alloc} {size alignment p : U32} :
      awd.malloc_aligned size alignment r.heap = ok (p, a) →
      Step (.loader r) (.malloc_aligned size alignment) (.loader (r.hand a ⟨p, size, alignment⟩))
  | kernel_enter {r : awd.HeapRun} :
      Step (.loader r) .kernel_enter (.kernel r.blocks (handOver r.heap))
  | kernel {blocks : List awd.Block} {w w' : lobo.HeapRun} {e : lobo.HeapEvent} :
      lobo.HeapStep w e w' → Step (.kernel blocks w) (.kernel e) (.kernel blocks w')

/-- The guard of a step: where the kernel allocates, neither the align-up nor
the end of the block wraps. -/
def noWrap : World → Event → Prop
  | .kernel _ w, .kernel e =>
      ∀ sz alignment, e.request = some (sz, alignment) → lobo.NoWrap w.globals sz alignment
  | _, _ => True

/-- The boot loader after `alloc_init`. -/
def start (phys_base : U64) : World := .loader ⟨awd.alloc_init phys_base, []⟩

namespace World

/-- What the boot loader's calls returned. -/
def loaded : World → List awd.Block
  | loader r => r.blocks
  | kernel blocks _ => blocks

/-- What the kernel's calls returned. -/
def taken : World → List lobo.Block
  | loader _ => []
  | kernel _ w => w.blocks

end World

/-- The physical place of a block of the kernel. -/
def ofKernel (b : lobo.Block) : Extent := ⟨(b.addr - lobo.KERNEL_VMB).toNat, b.size.toNat⟩

/-- The blocks of the whole run, by their physical place. -/
def World.extents (w : World) : List Extent := w.taken.map ofKernel ++ w.loaded.map awd.Block.extent

/-! ## What every step keeps -/

theorem KERNEL_VMB_toNat : lobo.KERNEL_VMB.toNat = 2 ^ 64 - 2 ^ 31 := rfl

/-- A low address keeps its value through the 32 bits of a field, and the sum
with `KERNEL_VMB` does not wrap. -/
theorem handOver_toNat {x : U64} (hx : x.toNat < 2 ^ 31) :
    ((x.setWidth 32).setWidth 64 + lobo.KERNEL_VMB).toNat = lobo.KERNEL_VMB.toNat + x.toNat := by
  have hfield : (x.setWidth 32).toNat = x.toNat := by
    rw [BitVec.toNat_setWidth, Nat.mod_eq_of_lt (by omega)]
  have hwide : ((x.setWidth 32).setWidth 64).toNat = x.toNat := by
    rw [BitVec.toNat_setWidth, hfield, Nat.mod_eq_of_lt (by omega)]
  rw [BitVec.toNat_add, hwide, KERNEL_VMB_toNat, Nat.mod_eq_of_lt (by omega), Nat.add_comm]

/-- The blocks of a kernel heap above `mid`, by their physical place. -/
theorem packed_kernel {mid limit : Nat} {base top : U64} {w : lobo.HeapRun} (hw : w.Sound base top)
    (hbase : base.toNat = lobo.KERNEL_VMB.toNat + mid)
    (htop : top.toNat = lobo.KERNEL_VMB.toNat + limit) :
    Extent.Packed mid limit (w.blocks.map ofKernel) := by
  have hplace : ∀ b ∈ w.blocks, b.addr.toNat = lobo.KERNEL_VMB.toNat + (ofKernel b).start := by
    intro b hb
    have hlow := (hw.inside b hb).1
    have hle : lobo.KERNEL_VMB ≤ b.addr := by
      rw [BitVec.le_def]
      omega
    show _ = _ + (b.addr - lobo.KERNEL_VMB).toNat
    rw [BitVec.toNat_sub_of_le hle]
    rw [BitVec.le_def] at hle
    omega
  refine ⟨?_, ?_⟩
  · refine List.pairwise_map.mpr (hw.disjoint.imp_of_mem ?_)
    rintro b c hb hc hdisjoint x ⟨⟨hbx, hxb⟩, hcx, hxc⟩
    have hb' := hplace b hb
    have hc' := hplace c hc
    -- the two blocks would share the address that `x` has in the kernel
    apply hdisjoint (lobo.KERNEL_VMB.toNat + x)
    refine ⟨⟨by omega, ?_⟩, by omega, ?_⟩
    · rw [hb', Nat.add_assoc]
      exact Nat.add_lt_add_left hxb _
    · rw [hc', Nat.add_assoc]
      exact Nat.add_lt_add_left hxc _
  · intro e he
    obtain ⟨b, hb, rfl⟩ := List.mem_map.mp he
    have hb' := hplace b hb
    obtain ⟨hlow, hhigh⟩ := hw.inside b hb
    refine ⟨by omega, ?_⟩
    show (ofKernel b).start + b.size.toNat ≤ limit
    omega

/-- The boot loader's blocks lie from `phys_base` to the position. The kernel's
lie from the position that it took over to the limit. -/
def Intact (phys_base : U64) : World → Prop
  | .loader r => r.Stacked phys_base
  | .kernel blocks w => ∃ (r : awd.HeapRun) (base top : U64),
      r.Stacked phys_base ∧ r.blocks = blocks ∧ w.Stacked base top ∧
      base.toNat = lobo.KERNEL_VMB.toNat + r.heap.heap_phys_current.toNat ∧
      top.toNat = lobo.KERNEL_VMB.toNat + (phys_base + awd.AWD_ALLOC_SIZE).toNat

theorem intact_start {phys_base : U64}
    (h : phys_base.toNat + awd.AWD_ALLOC_SIZE.toNat < 2 ^ 31) : Intact phys_base (start phys_base) := by
  have hlimit : (phys_base + awd.AWD_ALLOC_SIZE).toNat =
      phys_base.toNat + awd.AWD_ALLOC_SIZE.toNat := by
    rw [BitVec.toNat_add, Nat.mod_eq_of_lt (by omega)]
  refine ⟨rfl, ⟨?_, ?_⟩, Nat.le_refl _, ?_, Extent.packed_nil⟩
  · show phys_base.toNat ≤ (phys_base + awd.AWD_ALLOC_SIZE).toNat
    omega
  · show (phys_base + awd.AWD_ALLOC_SIZE).toNat < 2 ^ 31
    omega
  · intro b hb
    cases hb

theorem intact_step {phys_base : U64} {w w' : World} {e : Event} (hw : Intact phys_base w)
    (h : Guarded noWrap Step w e w') : Intact phys_base w' := by
  obtain ⟨hguard, hstep⟩ := h
  cases hstep with
  | malloc hcall => exact awd.HeapRun.Stacked.hand hw hcall
  | malloc_aligned hcall => exact awd.HeapRun.Stacked.hand hw hcall
  | @kernel_enter r =>
    have hr : r.Stacked phys_base := hw
    have hlow := hr.low
    refine ⟨r, _, _, hr, rfl, lobo.stacked_start, ?_, ?_⟩
    · exact handOver_toNat (Nat.lt_of_le_of_lt hlow.1 hlow.2)
    · rw [← hr.limit_eq]
      exact handOver_toNat hlow.2
  | kernel hcall =>
    obtain ⟨r, base, top, hr, hblocks, hk, hbase, htop⟩ := hw
    refine ⟨r, base, top, hr, hblocks, lobo.stacked_step hk ⟨?_, hcall⟩, hbase, htop⟩
    rintro sz alignment hrequest ⟨hwrap, -⟩
    have hfit : lobo.NoWrap _ sz alignment := hguard sz alignment hrequest
    unfold lobo.NoWrap at hfit
    omega

/-! ## The law -/

theorem Intact.law {phys_base : U64} {w : World} (hw : Intact phys_base w) :
    (∀ b ∈ w.loaded, b.Sound phys_base.toNat (phys_base + awd.AWD_ALLOC_SIZE).toNat) ∧
      Extent.Packed phys_base.toNat (phys_base + awd.AWD_ALLOC_SIZE).toNat w.extents := by
  cases w with
  | loader r =>
    have hr : r.Stacked phys_base := hw
    refine ⟨hr.sound, Extent.packed_nil.append hr.packed hr.base_le ?_⟩
    rw [← hr.limit_eq]
    exact hr.low.1
  | kernel blocks w =>
    obtain ⟨r, base, top, hr, rfl, hk, hbase, htop⟩ := hw
    refine ⟨hr.sound, (packed_kernel hk.sound hbase htop).append hr.packed hr.base_le ?_⟩
    rw [← hr.limit_eq]
    exact hr.low.1

/-- In every run, the boot loader's blocks are aligned and below the limit, and
no block of either heap shares an address with another block of the run. -/
theorem blocks_stay_intact_across_the_hand_over {phys_base : U64} {es : List Event} {w : World}
    (hbase : phys_base.toNat + awd.AWD_ALLOC_SIZE.toNat < 2 ^ 31)
    (run : Run (Guarded noWrap Step) (start phys_base) es w) :
    (∀ b ∈ w.loaded, b.Sound phys_base.toNat (phys_base + awd.AWD_ALLOC_SIZE).toNat) ∧
      Extent.Packed phys_base.toNat (phys_base + awd.AWD_ALLOC_SIZE).toNat w.extents :=
  (run.inv (Intact phys_base) (fun _ _ _ => intact_step) (intact_start hbase)).law

/-- Two blocks of the boot loader, then two of the kernel. -/
theorem blocks_stay_intact_across_a_hand_over : ∃ w,
    Run (Guarded noWrap Step) (start 0x110000)
      [.malloc 0x14, .malloc_aligned 0x2000 0x1000, .kernel_enter,
        .kernel (.kmalloc 0x20), .kernel (.kmalloc_page 0x1000)] w ∧
      w.extents.length = 4 ∧
      (∀ b ∈ w.loaded, b.Sound 0x110000 (0x110000 + awd.AWD_ALLOC_SIZE).toNat) ∧
      Extent.Packed 0x110000 (0x110000 + awd.AWD_ALLOC_SIZE).toNat w.extents := by
  obtain ⟨w, run, hlength⟩ : ∃ w, Run (Guarded noWrap Step) (start 0x110000)
      [.malloc 0x14, .malloc_aligned 0x2000 0x1000, .kernel_enter,
        .kernel (.kmalloc 0x20), .kernel (.kmalloc_page 0x1000)] w ∧ w.extents.length = 4 := by
    refine ⟨_, .snoc (.snoc (.snoc (.snoc (.snoc (.nil _) ⟨trivial, .malloc rfl⟩)
      ⟨trivial, .malloc_aligned rfl⟩) ⟨trivial, .kernel_enter⟩) ⟨?_, .kernel (.kmalloc rfl)⟩)
      ⟨?_, .kernel (.kmalloc_page rfl)⟩, rfl⟩
    all_goals
      intro sz alignment h
      cases h
    all_goals decide
  exact ⟨w, run, hlength, blocks_stay_intact_across_the_hand_over (by decide) run⟩

end Boot
