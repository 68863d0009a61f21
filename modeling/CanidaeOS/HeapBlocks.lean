-- The blocks of the kernel heap. A call compares the end of its block with the
-- limit in 64 bits, so the blocks of a run stay apart while no such end wraps
-- to a place at or below the limit.
import CanidaeOS.Heap
import CanidaeOS.Runs

open Program Machine Outcome Runs

namespace lobo

/-! ## Runs of the heap -/

/-- A block that a call returned, with what the call asked for. -/
structure Block where
  addr : U64
  size : U64
  alignment : U64

namespace Block

/-- Address `x` is in the block, with no wrap. -/
def Holds (b : Block) (x : Nat) : Prop := b.addr.toNat ≤ x ∧ x < b.addr.toNat + b.size.toNat

def Disjoint (b c : Block) : Prop := ∀ x, ¬ (b.Holds x ∧ c.Holds x)

end Block

/-- The globals, with every block so far and every position of the heap so
far, the newest first. -/
structure HeapRun where
  globals : Globals
  blocks : List Block
  positions : List U64

inductive HeapEvent where
  | kmalloc (sz : U64)
  | kmalloc_page (sz : U64)
  | kmalloc_aligned (sz alignment : U64)
  | heap_init_full
  /-- other code changes the frame allocator -/
  | pmm (p : lobo.pmm)

/-- The size and the alignment that a call asks for. -/
def HeapEvent.request : HeapEvent → Option (U64 × U64)
  | kmalloc sz => some (sz, 8)
  | kmalloc_page sz => some (sz, 0x1000)
  | kmalloc_aligned sz alignment => some (sz, alignment)
  | heap_init_full => none
  | pmm _ => none

/-- The state after a call that returned a block. -/
def HeapRun.hand (w : HeapRun) (g : Globals) (b : Block) : HeapRun :=
  ⟨g, b :: w.blocks, g.earlyAllocBase :: w.positions⟩

/-- A call that returns. One that panics ends the run. -/
inductive HeapStep : HeapRun → HeapEvent → HeapRun → Prop
  | kmalloc {w : HeapRun} {g : Globals} {sz block : U64} :
      lobo.kmalloc sz w.globals = ok (block, g) →
      HeapStep w (.kmalloc sz) (w.hand g ⟨block, sz, 8⟩)
  | kmalloc_page {w : HeapRun} {g : Globals} {sz block : U64} :
      lobo.kmalloc_page sz w.globals = ok (block, g) →
      HeapStep w (.kmalloc_page sz) (w.hand g ⟨block, sz, 0x1000⟩)
  | kmalloc_aligned {w : HeapRun} {g : Globals} {sz alignment block : U64} :
      lobo.kmalloc_aligned sz alignment w.globals = ok (block, g) →
      HeapStep w (.kmalloc_aligned sz alignment) (w.hand g ⟨block, sz, alignment⟩)
  | heap_init_full {w : HeapRun} :
      HeapStep w .heap_init_full { w with globals := lobo.heap_init_full w.globals }
  | pmm {w : HeapRun} {p : lobo.pmm} :
      HeapStep w (.pmm p) { w with globals := { w.globals with kernel_pmm := p } }

/-- The heap as `heap_early_init` leaves it, with no block yet. -/
def heapStart (base limit : U64) (g : Globals) : HeapRun :=
  ⟨heap_early_init base limit g, [], [base]⟩

/-! ## What is said of a run -/

/-- Every block is aligned and lies from `base` to `limit`, no two share an
address, and no position is below an earlier one. -/
structure HeapRun.Sound (base limit : U64) (w : HeapRun) : Prop where
  aligned : ∀ b ∈ w.blocks, b.alignment.toNat ∣ b.addr.toNat
  inside : ∀ b ∈ w.blocks, base.toNat ≤ b.addr.toNat ∧
    b.addr.toNat + b.size.toNat ≤ limit.toNat
  disjoint : w.blocks.Pairwise Block.Disjoint
  monotone : w.positions.Pairwise fun later earlier => earlier.toNat ≤ later.toNat

/-- The end of the block is past 64 bits, and what is left of it in 64 bits is
at or below the limit. -/
def WrapsBelowLimit (g : Globals) (sz alignment : U64) : Prop :=
  2 ^ 64 ≤ alignedUp g.earlyAllocBase.toNat alignment.toNat + sz.toNat ∧
    (alignedUp g.earlyAllocBase.toNat alignment.toNat + sz.toNat) % 2 ^ 64 ≤ g.earlyAllocLimit.toNat

instance (g : Globals) (sz alignment : U64) : Decidable (WrapsBelowLimit g sz alignment) :=
  inferInstanceAs (Decidable (_ ∧ _))

/-- The guard of a step: the end of its block does not wrap below the limit. -/
def noWrapBelowLimit (w : HeapRun) (e : HeapEvent) : Prop :=
  ∀ sz alignment, e.request = some (sz, alignment) → ¬ WrapsBelowLimit w.globals sz alignment

/-! ## One call -/

/-- A call that returns has its end at or below the limit, so where it does not
wrap below the limit it does not wrap at all. -/
theorem Allocated.noWrap {g g' : Globals} {sz alignment block : U64}
    (h : Allocated g g' sz alignment block) (hguard : ¬ WrapsBelowLimit g sz alignment) :
    NoWrap g sz alignment := by
  have hle : g'.earlyAllocBase.toNat ≤ g.earlyAllocLimit.toNat := h.base_le
  rw [h.base_eq, BitVec.toNat_add, h.block_eq, Nat.mod_add_mod] at hle
  unfold NoWrap
  by_contra hge
  exact hguard ⟨by omega, hle⟩

theorem alignedUp_dvd (base : Nat) {alignment : Nat} (h : 0 < alignment) :
    alignment ∣ alignedUp base alignment := by
  have hmod := Nat.mod_lt base h
  unfold alignedUp
  split
  · have hsum := Nat.div_add_mod base alignment
    refine ⟨base / alignment + 1, ?_⟩
    rw [Nat.mul_add, Nat.mul_one]
    omega
  · rename_i hzero
    exact Nat.dvd_of_mod_eq_zero (not_not.mp hzero)

/-- What every step keeps: the blocks are stacked from `base` to the position,
which is the newest of the positions. -/
structure HeapRun.Stacked (base limit : U64) (w : HeapRun) : Prop where
  limit_eq : w.globals.earlyAllocLimit = limit
  base_le : base.toNat ≤ w.globals.earlyAllocBase.toNat
  below : ∀ b ∈ w.blocks, b.addr.toNat + b.size.toNat ≤ w.globals.earlyAllocBase.toNat
  newest : ∀ a ∈ w.positions, a.toNat ≤ w.globals.earlyAllocBase.toNat
  sound : w.Sound base limit

theorem stacked_hand {base limit : U64} {w : HeapRun} {g : Globals} {sz alignment block : U64}
    (hw : w.Stacked base limit) (hguard : ¬ WrapsBelowLimit w.globals sz alignment)
    (h : kmalloc_aligned sz alignment w.globals = ok (block, g)) :
    (w.hand g ⟨block, sz, alignment⟩).Stacked base limit := by
  have halloc := kmalloc_aligned.spec h
  have hnowrap := halloc.noWrap hguard
  obtain ⟨hge, hend⟩ := halloc.exact hnowrap
  have hbase := hw.base_le
  have hle : g.earlyAllocBase.toNat ≤ limit.toNat := by
    rw [← hw.limit_eq]
    exact halloc.base_le
  have hup : block.toNat = alignedUp w.globals.earlyAllocBase.toNat alignment.toNat := by
    unfold NoWrap at hnowrap
    rw [halloc.block_eq, Nat.mod_eq_of_lt (by omega)]
  have hpos : 0 < alignment.toNat := by
    rcases Nat.eq_zero_or_pos alignment.toNat with hz | hz
    · exact absurd (BitVec.eq_of_toNat_eq hz) halloc.alignment_ne
    · exact hz
  refine ⟨halloc.limit_eq.trans hw.limit_eq, ?_, ?_, ?_, ?_, ?_, ?_, ?_⟩
  · show base.toNat ≤ g.earlyAllocBase.toNat
    omega
  · intro b hb
    show _ ≤ g.earlyAllocBase.toNat
    rcases List.mem_cons.mp hb with rfl | hb
    · exact Nat.le_of_eq hend.symm
    · have := hw.below b hb
      omega
  · intro a ha
    show _ ≤ g.earlyAllocBase.toNat
    rcases List.mem_cons.mp ha with rfl | ha
    · exact Nat.le_refl _
    · have := hw.newest a ha
      omega
  · intro b hb
    rcases List.mem_cons.mp hb with rfl | hb
    · dsimp only
      rw [hup]
      exact alignedUp_dvd _ hpos
    · exact hw.sound.aligned b hb
  · intro b hb
    rcases List.mem_cons.mp hb with rfl | hb
    · dsimp only
      exact ⟨by omega, by omega⟩
    · exact hw.sound.inside b hb
  · refine List.Pairwise.cons ?_ hw.sound.disjoint
    rintro b hb x ⟨⟨hx, -⟩, -, hx'⟩
    -- the new block starts where no earlier one goes on
    have := hw.below b hb
    dsimp only at hx
    omega
  · refine List.Pairwise.cons ?_ hw.sound.monotone
    intro a ha
    have := hw.newest a ha
    omega

theorem stacked_step {base limit : U64} {w w' : HeapRun} {e : HeapEvent}
    (hw : w.Stacked base limit) (h : Guarded noWrapBelowLimit HeapStep w e w') :
    w'.Stacked base limit := by
  obtain ⟨hguard, hstep⟩ := h
  cases hstep with
  | kmalloc hcall => exact stacked_hand hw (hguard _ _ rfl) hcall
  | kmalloc_page hcall => exact stacked_hand hw (hguard _ _ rfl) hcall
  | kmalloc_aligned hcall => exact stacked_hand hw (hguard _ _ rfl) hcall
  | heap_init_full => exact ⟨hw.limit_eq, hw.base_le, hw.below, hw.newest, ⟨hw.sound.1, hw.sound.2, hw.sound.3, hw.sound.4⟩⟩
  | pmm => exact ⟨hw.limit_eq, hw.base_le, hw.below, hw.newest, ⟨hw.sound.1, hw.sound.2, hw.sound.3, hw.sound.4⟩⟩

theorem stacked_start {base limit : U64} {g : Globals} :
    (heapStart base limit g).Stacked base limit := by
  refine ⟨rfl, Nat.le_refl _, by simp [heapStart], ?_, ⟨by simp [heapStart], by simp [heapStart],
    List.Pairwise.nil, List.pairwise_singleton _ _⟩⟩
  intro a ha
  obtain rfl := List.mem_singleton.mp ha
  exact Nat.le_refl _

/-! ## The law -/

/-- In every run with no end that wraps below the limit, the blocks are aligned,
inside of the heap and apart, and the position only goes up. -/
theorem the_blocks_of_a_heap_are_sound {base limit : U64} {g : Globals} {es : List HeapEvent}
    {w : HeapRun} (run : Run (Guarded noWrapBelowLimit HeapStep) (heapStart base limit g) es w) :
    w.Sound base limit :=
  (run.inv (HeapRun.Stacked base limit) (fun _ _ _ => stacked_step) stacked_start).sound

/-- A heap of 64 KiB. -/
def heap64K : HeapRun := heapStart 0xffffffff80110000 0xffffffff80120000 Globals.static

theorem the_blocks_of_a_heap_are_sound_in_both_modes : ∃ w,
    Run (Guarded noWrapBelowLimit HeapStep) heap64K
      [.kmalloc 0x20, .kmalloc_page 0x1000, .heap_init_full, .kmalloc_aligned 0x18 0x10] w ∧
      w.Sound 0xffffffff80110000 0xffffffff80120000 := by
  obtain ⟨w, run⟩ : ∃ w, Run (Guarded noWrapBelowLimit HeapStep) heap64K
      [.kmalloc 0x20, .kmalloc_page 0x1000, .heap_init_full, .kmalloc_aligned 0x18 0x10] w := by
    refine ⟨_, .snoc (.snoc (.snoc (.snoc (.nil _) ⟨?_, .kmalloc rfl⟩) ⟨?_, .kmalloc_page rfl⟩)
      ⟨?_, .heap_init_full⟩) ⟨?_, .kmalloc_aligned rfl⟩⟩
    all_goals
      intro sz alignment h
      cases h
    all_goals decide
  exact ⟨w, run, the_blocks_of_a_heap_are_sound run⟩

/-- A size that moves the position 64 KiB down passes the test of the limit. -/
theorem a_wrapping_size_moves_the_heap_down : ∃ w,
    Run HeapStep heap64K [.kmalloc 0xffffffffffff0000] w ∧
      ¬ w.Sound 0xffffffff80110000 0xffffffff80120000 := by
  refine ⟨_, .single (.kmalloc rfl), fun hsound => ?_⟩
  have := (hsound.inside _ List.mem_cons_self).2
  revert this
  decide

end lobo
