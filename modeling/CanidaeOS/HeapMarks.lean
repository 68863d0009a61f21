-- What full mode reserves. A call marks one frame at most, the one that the
-- new position lies in, so that a block of more than two frames, or one that
-- the align-up puts behind frames, has frames that nothing marks.
import CanidaeOS.HeapFrames
import CanidaeOS.PageWalk

open Program Machine Outcome Paging

namespace lobo

/-! ## The frame of a position -/

/-- The frame under an address of the linear window. -/
def windowFrame (x : U64) : Nat := pmm.frameOf (MEM_VIRT_TO_PHYS x)

/-- The mask takes an address to the start of its page, in the same frame. -/
theorem windowFrame_mask (x : U64) :
    pmm.frameOf ((x &&& 0xFFFFFFFFFFFFF000) - KERNEL_VMB) = windowFrame x := by
  have hmask : (x &&& 0xFFFFFFFFFFFFF000).toNat = x.toNat - x.toNat % 0x1000 :=
    and_high_toNat x 12 (by norm_num)
  have hx := x.isLt
  unfold windowFrame MEM_VIRT_TO_PHYS pmm.frameOf
  rw [BitVec.toNat_sub, BitVec.toNat_sub, hmask, KERNEL_VMB]
  simp only [BitVec.reduceToNat]
  omega

/-- Positions in one page lie in one frame. -/
theorem windowFrame_congr {x y : U64} (h : x &&& 0xFFFFFFFFFFFFF000 = y &&& 0xFFFFFFFFFFFFF000) :
    windowFrame x = windowFrame y := by
  rw [← windowFrame_mask, ← windowFrame_mask, h]

/-! ## The spec of full mode -/

/-- With the frame of the old position used, the page-crossing test leaves the
frame of the new one used, and no other that was not. -/
theorem mark_crossing.spec {old new : U64} {p p' : pmm} (hp : p.Ready)
    (hold : p.Used (windowFrame old)) (h : mark_crossing old new p = ok p') :
    pmm.Marks p p' fun f => f = windowFrame new ∨ p.Used f := by
  unfold mark_crossing at h
  split at h
  · have hm := (pmm.set.spec hp h).2
    rw [windowFrame_mask] at hm
    exact hm
  · rename_i hsame
    cases h
    rw [windowFrame_congr (not_not.mp hsame)] at hold
    refine (pmm.Marks.refl p).congr fun f => ⟨Or.inr, ?_⟩
    rintro (rfl | hu)
    · exact hold
    · exact hu

theorem kmalloc_aligned.full {g g' : Globals} {sz alignment block : U64}
    (hmode : g.currentMode = .Full) (hready : g.kernel_pmm.Ready)
    (hold : g.kernel_pmm.Used (windowFrame g.earlyAllocBase))
    (h : kmalloc_aligned sz alignment g = ok (block, g')) :
    block = blockAt g alignment ∧ pmm.Marks g.kernel_pmm g'.kernel_pmm fun f =>
      f = windowFrame (blockAt g alignment + sz) ∨ g.kernel_pmm.Used f := by
  have hblock : block = blockAt g alignment := by
    apply BitVec.eq_of_toNat_eq
    rw [(kmalloc_aligned.spec h).block_eq, blockAt, BitVec.toNat_ofNat]
  unfold kmalloc_aligned at h
  simp only [hmode] at h
  obtain ⟨b, hb, h⟩ := bind_eq_ok.mp h
  split at h
  · cases h
  obtain ⟨p, hp, h⟩ := bind_eq_ok.mp h
  cases h
  rw [← hblock]
  exact ⟨rfl, mark_crossing.spec hready hold hp⟩

/-! ## The law -/

/-- Every frame of the block is used. -/
def Reserves (p : pmm) (block sz : U64) : Prop := ∀ f, Occupies (block, sz) f → p.Used f

/-- Every frame of the block that neither the old position nor its end lies in
is used. -/
def InnerFramesUsed (g : Globals) (sz alignment : U64) : Prop :=
  ∀ f, Occupies (blockAt g alignment, sz) f → f ≠ windowFrame g.earlyAllocBase →
    f ≠ windowFrame (blockAt g alignment + sz) → g.kernel_pmm.Used f

/-- In full mode, with the frame of its position used, the heap reserves a block
if and only if the inner frames of the block were used before. -/
theorem a_block_is_reserved_around_its_inner_frames {g g' : Globals} {sz alignment block : U64}
    (hmode : g.currentMode = .Full) (hready : g.kernel_pmm.Ready)
    (hold : g.kernel_pmm.Used (windowFrame g.earlyAllocBase))
    (h : kmalloc_aligned sz alignment g = ok (block, g')) :
    Reserves g'.kernel_pmm block sz ↔ InnerFramesUsed g sz alignment := by
  obtain ⟨rfl, hm⟩ := kmalloc_aligned.full hmode hready hold h
  constructor
  · intro hall f hf _ hend
    rcases (hm.used f).mp (hall f hf) with heq | hu
    · exact absurd heq hend
    · exact hu
  · intro hinner f hf
    refine (hm.used f).mpr ?_
    by_cases hend : f = windowFrame (blockAt g alignment + sz)
    · exact Or.inl hend
    refine Or.inr ?_
    by_cases hfirst : f = windowFrame g.earlyAllocBase
    · rw [hfirst]
      exact hold
    · exact hinner f hf hfirst hend

/-- A heap in full mode, from the middle of frame 0 on. The other seven frames
are free. -/
def inFrameZero : Globals :=
  { earlyAllocBase := 0xffffffff80000800, earlyAllocLimit := 0xffffffff80008000, currentMode := .Full
    kernel_pmm := { pmm.eightFrames with
      bitmap := ⟨⟨KERNEL_VMB, 2, fun i => if i = 0 then 1 else 0⟩, 8⟩ } }

theorem inFrameZero_ready : inFrameZero.kernel_pmm.Ready :=
  ⟨rfl, by simp [bitset.Fits, inFrameZero], by decide⟩

theorem a_block_is_reserved_around_its_inner_frames_of_two : ∃ block g',
    kmalloc_aligned 0x1000 8 inFrameZero = ok (block, g') ∧
      (Reserves g'.kernel_pmm block 0x1000 ↔ InnerFramesUsed inFrameZero 0x1000 8) := by
  obtain ⟨block, g', h⟩ : ∃ block g', kmalloc_aligned 0x1000 8 inFrameZero = ok (block, g') :=
    ⟨_, _, rfl⟩
  exact ⟨block, g', h, a_block_is_reserved_around_its_inner_frames rfl inFrameZero_ready
    (by decide) h⟩

/-- The stack of a thread takes five frames there. The three in the middle stay
free. -/
theorem a_stack_is_not_reserved : ∃ block g', kmalloc_aligned 0x4000 8 inFrameZero = ok (block, g') ∧
    inFrameZero.kernel_pmm.Used (windowFrame inFrameZero.earlyAllocBase) ∧
      ¬ Reserves g'.kernel_pmm block 0x4000 := by
  obtain ⟨block, g', h⟩ : ∃ block g', kmalloc_aligned 0x4000 8 inFrameZero = ok (block, g') :=
    ⟨_, _, rfl⟩
  obtain ⟨rfl, hm⟩ := kmalloc_aligned.full rfl inFrameZero_ready (by decide) h
  refine ⟨_, g', h, by decide, fun hall => ?_⟩
  have hused := hall 1 ⟨0xffffffff80001000, by decide, by decide⟩
  rw [hm.used] at hused
  revert hused
  decide

end lobo
