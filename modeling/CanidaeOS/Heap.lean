-- The kernel heap (`heap.cpp`), which only moves a position up, and
-- `pmm::init`, which takes its bitmap from the heap. In full mode the heap
-- marks the frame that its new position lies in.
import CanidaeOS.Pmm

open Program Machine Outcome

namespace lobo

inductive AllocMode where
  | Uninitialised
  | EarlyBoot
  | Full
deriving DecidableEq, Repr

/-- The globals of `heap.cpp`, and the one PMM that its code reaches. -/
structure Globals where
  earlyAllocBase : U64
  earlyAllocLimit : U64
  currentMode : AllocMode
  kernel_pmm : pmm

/-- The static `kernel_pmm` before its `init`. -/
def pmm.static : pmm :=
  { bitmap := ⟨⟨0, 0, fun _ => 0⟩, 0⟩, m_initialised := false, m_numPages := 0,
    m_maxFreePages := 0, m_nonMemoryBackedPages := 0 }

theorem pmm.static_ready : pmm.static.Ready :=
  ⟨rfl, by simp [bitset.Fits, pmm.static], by decide⟩

/-- The globals before any code has run. -/
def Globals.static : Globals :=
  { earlyAllocBase := 0, earlyAllocLimit := 0, currentMode := .Uninitialised,
    kernel_pmm := pmm.static }

/-! ## The code -/

def heap_early_init (base limit : U64) (g : Globals) : Globals :=
  { g with earlyAllocBase := base, earlyAllocLimit := limit, currentMode := .EarlyBoot }

/-- The heap that `kernel_early` starts with, from what the boot loader left of
its own heap. -/
def kernel_early_heap (ptr_malloc_current ptr_malloc_limit : U32) : Globals :=
  heap_early_init (ptr_malloc_current.setWidth 64 + KERNEL_VMB)
    (ptr_malloc_limit.setWidth 64 + KERNEL_VMB) Globals.static

def heap_init_full (g : Globals) : Globals := { g with currentMode := .Full }

/-- `if ((base % alignment) != 0) { base += alignment - (base % alignment); }` -/
def align_up (base alignment : U64) : Outcome Stop U64 :=
  if alignment = 0 then .stop .divide
  else if base % alignment ≠ 0 then ok (base + (alignment - base % alignment))
  else ok base

/-- The page-crossing test of full mode: the frame of the new position is
marked when the old position lies in another one. -/
def mark_crossing (old_base new_current : U64) (p : pmm) : Outcome Stop pmm :=
  if old_base &&& 0xFFFFFFFFFFFFF000 ≠ new_current &&& 0xFFFFFFFFFFFFF000 then
    p.set ((new_current &&& 0xFFFFFFFFFFFFF000) - KERNEL_VMB)
  else ok p

def kmalloc_aligned (sz alignment : U64) (g : Globals) : Outcome Stop (U64 × Globals) :=
  match g.currentMode with
  | .Full => do
    let old_base := g.earlyAllocBase
    let block ← align_up g.earlyAllocBase alignment
    let new_current := block + sz
    if new_current > g.earlyAllocLimit then panic "kmalloc(early): Ran out of memory!"
    else do
      let kernel_pmm ← mark_crossing old_base new_current g.kernel_pmm
      ok (block, { g with earlyAllocBase := new_current, kernel_pmm })
  | .EarlyBoot => do
    let block ← align_up g.earlyAllocBase alignment
    let new_current := block + sz
    if new_current > g.earlyAllocLimit then panic "kmalloc(early): Ran out of memory!"
    else ok (block, { g with earlyAllocBase := new_current })
  | .Uninitialised => panic "Attempted a memory allocation before heap was initialised!"

def kmalloc (sz : U64) (g : Globals) : Outcome Stop (U64 × Globals) := kmalloc_aligned sz 8 g

def kmalloc_page (sz : U64) (g : Globals) : Outcome Stop (U64 × Globals) :=
  kmalloc_aligned sz 0x1000 g

/-- `pmm::init` with a bitmap that starts with the bytes of `fresh`, which are
whatever the block held before. -/
def pmm.init (num : U64) (fresh : Nat → U8) (g : Globals) : Outcome Stop Globals :=
  if g.kernel_pmm.m_initialised = true then ok g
  else do
    let g := { g with kernel_pmm := { g.kernel_pmm with m_numPages := num } }
    let (ptr, g) ← kmalloc (num / 8 + 1) g
    let p := { g.kernel_pmm with bitmap := ⟨⟨ptr, (num / 8 + 1).toNat, fresh⟩, num⟩ }
    let p ← forRange num.toNat (fun i p => p.set (BitVec.ofNat 64 i * 0x1000)) p
    ok { g with kernel_pmm := { p with m_initialised := true } }

/-! ## The spec of `kmalloc_aligned` -/

/-- The next multiple of `alignment`, from `base` on. -/
def alignedUp (base alignment : Nat) : Nat :=
  if base % alignment ≠ 0 then base + (alignment - base % alignment) else base

theorem alignedUp_ge (base alignment : Nat) : base ≤ alignedUp base alignment := by
  unfold alignedUp
  split <;> omega

theorem alignedUp_page (base : Nat) : alignedUp base 0x1000 % 0x1000 = 0 ∧
    base ≤ alignedUp base 0x1000 ∧ alignedUp base 0x1000 < base + 0x1000 := by
  unfold alignedUp
  split <;> omega

theorem alignedUp_lt (base : Nat) {alignment : Nat} (h : 0 < alignment) :
    alignedUp base alignment < base + alignment := by
  have hmod := Nat.mod_lt base h
  unfold alignedUp
  split <;> omega

/-- The align-up and the sum of block and size fit in 64 bits. -/
def NoWrap (g : Globals) (sz alignment : U64) : Prop :=
  alignedUp g.earlyAllocBase.toNat alignment.toNat + sz.toNat < 2 ^ 64

instance (g : Globals) (sz alignment : U64) : Decidable (NoWrap g sz alignment) :=
  inferInstanceAs (Decidable (_ < _))

theorem align_up.spec {base alignment block : U64} (h : align_up base alignment = ok block) :
    alignment ≠ 0 ∧ block.toNat = alignedUp base.toNat alignment.toNat % 2 ^ 64 := by
  unfold align_up at h
  split at h
  · cases h
  rename_i h0
  refine ⟨h0, ?_⟩
  have hpos : 0 < alignment.toNat := by
    rcases Nat.eq_zero_or_pos alignment.toNat with hz | hz
    · exact absurd (BitVec.eq_of_toNat_eq hz) h0
    · exact hz
  have hmod := Nat.mod_lt base.toNat hpos
  have hb := base.isLt
  have hzero : base % alignment = 0 ↔ base.toNat % alignment.toNat = 0 := by
    rw [← BitVec.toNat_inj]
    simp
  unfold alignedUp
  split at h
  · rename_i hne
    cases h
    have hle : base % alignment ≤ alignment := by
      rw [BitVec.le_def, BitVec.toNat_umod]
      omega
    rw [if_pos (fun h => hne (hzero.mpr h)), BitVec.toNat_add, BitVec.toNat_sub_of_le hle,
      BitVec.toNat_umod]
  · rename_i heq
    cases h
    rw [if_neg (by rw [not_not] at heq ⊢; exact hzero.mp heq), Nat.mod_eq_of_lt hb]

/-- What a call of `kmalloc_aligned` that returns has done. In full mode it
may mark one frame, in early boot none. -/
structure Allocated (g g' : Globals) (sz alignment block : U64) : Prop where
  alignment_ne : alignment ≠ 0
  block_eq : block.toNat = alignedUp g.earlyAllocBase.toNat alignment.toNat % 2 ^ 64
  base_eq : g'.earlyAllocBase = block + sz
  base_le : g'.earlyAllocBase ≤ g.earlyAllocLimit
  limit_eq : g'.earlyAllocLimit = g.earlyAllocLimit
  mode_eq : g'.currentMode = g.currentMode
  pmm_eq : g.currentMode = .EarlyBoot → g'.kernel_pmm = g.kernel_pmm
  rest : g'.kernel_pmm = { g.kernel_pmm with bitmap := g'.kernel_pmm.bitmap }
  marks : g.kernel_pmm.Ready →
    ∃ U : Nat → Prop, pmm.Marks g.kernel_pmm g'.kernel_pmm fun f => U f ∨ g.kernel_pmm.Used f

theorem kmalloc_aligned.spec {g g' : Globals} {sz alignment block : U64}
    (h : kmalloc_aligned sz alignment g = ok (block, g')) : Allocated g g' sz alignment block := by
  unfold kmalloc_aligned at h
  cases hmode : g.currentMode with
  | Uninitialised => rw [hmode] at h; cases h
  | EarlyBoot =>
    simp only [hmode] at h
    obtain ⟨b, hb, h⟩ := bind_eq_ok.mp h
    obtain ⟨h0, hval⟩ := align_up.spec hb
    split at h
    · cases h
    · rename_i hle
      cases h
      refine ⟨h0, hval, rfl, ?_, rfl, hmode.symm, fun _ => rfl, rfl,
        fun _ => ⟨fun _ => False, ?_⟩⟩
      · simpa [BitVec.le_def, BitVec.lt_def] using hle
      · exact (pmm.Marks.refl _).congr fun f => by simp
  | Full =>
    simp only [hmode] at h
    obtain ⟨b, hb, h⟩ := bind_eq_ok.mp h
    obtain ⟨h0, hval⟩ := align_up.spec hb
    split at h
    · cases h
    · rename_i hle
      obtain ⟨p, hp, h⟩ := bind_eq_ok.mp h
      cases h
      refine ⟨h0, hval, rfl, ?_, rfl, hmode.symm, fun he => (by simp [hmode] at he), ?_,
        fun hr => ?_⟩
      · simpa [BitVec.le_def, BitVec.lt_def] using hle
      · unfold mark_crossing at hp
        split at hp
        · obtain ⟨b', _, he⟩ := bind_eq_ok.mp hp
          cases he
          rfl
        · cases hp
          rfl
      · unfold mark_crossing at hp
        split at hp
        · exact ⟨_, (pmm.set.spec hr hp).2⟩
        · cases hp
          exact ⟨fun _ => False, (pmm.Marks.refl _).congr fun f => by simp⟩

/-- Where nothing wraps, the block starts at or above the old position and
ends at the new one. -/
theorem Allocated.exact {g g' : Globals} {sz alignment block : U64}
    (h : Allocated g g' sz alignment block) (hw : NoWrap g sz alignment) :
    g.earlyAllocBase.toNat ≤ block.toNat ∧
      g'.earlyAllocBase.toNat = block.toNat + sz.toNat := by
  have hge := alignedUp_ge g.earlyAllocBase.toNat alignment.toNat
  have hb := h.block_eq
  unfold NoWrap at hw
  rw [Nat.mod_eq_of_lt (by omega)] at hb
  refine ⟨by omega, ?_⟩
  rw [h.base_eq, BitVec.toNat_add, Nat.mod_eq_of_lt (by omega)]

/-- Where the block of a call starts. -/
def blockAt (g : Globals) (alignment : U64) : U64 :=
  BitVec.ofNat 64 (alignedUp g.earlyAllocBase.toNat alignment.toNat)

theorem align_up.total {g : Globals} {alignment : U64} (h0 : alignment ≠ 0) :
    align_up g.earlyAllocBase alignment = ok (blockAt g alignment) := by
  obtain ⟨b, hb⟩ : ∃ b, align_up g.earlyAllocBase alignment = ok b := by
    unfold align_up
    rw [if_neg h0]
    split <;> exact ⟨_, rfl⟩
  obtain ⟨_, hval⟩ := align_up.spec hb
  have hblock : b = blockAt g alignment := by
    apply BitVec.eq_of_toNat_eq
    rw [hval, blockAt, BitVec.toNat_ofNat]
  rw [hb, hblock]

/-- In early boot a call only asks whether the end of the block, in 64 bits, is
above the limit. -/
theorem kmalloc_aligned.early {g : Globals} {sz alignment : U64}
    (hmode : g.currentMode = .EarlyBoot) (h0 : alignment ≠ 0) :
    kmalloc_aligned sz alignment g =
      if blockAt g alignment + sz > g.earlyAllocLimit then
        panic "kmalloc(early): Ran out of memory!"
      else ok (blockAt g alignment, { g with earlyAllocBase := blockAt g alignment + sz }) := by
  simp only [kmalloc_aligned, hmode, align_up.total h0, bind_ok]

/-- A block that fits ends at or below the limit in 64 bits too. -/
theorem blockAt_end {g : Globals} {sz alignment : U64}
    (hfit : alignedUp g.earlyAllocBase.toNat alignment.toNat + sz.toNat ≤ g.earlyAllocLimit.toNat) :
    ¬ blockAt g alignment + sz > g.earlyAllocLimit := by
  show ¬ g.earlyAllocLimit.toNat < (blockAt g alignment + sz).toNat
  rw [BitVec.toNat_add, blockAt, BitVec.toNat_ofNat]
  omega

/-- In early boot a block that fits below the limit is handed out. -/
theorem kmalloc_aligned.total {g : Globals} {sz alignment : U64}
    (hmode : g.currentMode = .EarlyBoot) (h0 : alignment ≠ 0)
    (hfit : alignedUp g.earlyAllocBase.toNat alignment.toNat + sz.toNat ≤ g.earlyAllocLimit.toNat) :
    ∃ r, kmalloc_aligned sz alignment g = ok r := by
  rw [kmalloc_aligned.early hmode h0, if_neg (blockAt_end hfit)]
  exact ⟨_, rfl⟩

/-- In full mode it is, too, when the PMM has the frame that it ends in. -/
theorem kmalloc_aligned.total_full {g : Globals} {sz alignment : U64}
    (hmode : g.currentMode = .Full) (h0 : alignment ≠ 0) (hready : g.kernel_pmm.Ready)
    (hfit : alignedUp g.earlyAllocBase.toNat alignment.toNat + sz.toNat ≤ g.earlyAllocLimit.toNat)
    (hframe : pmm.frameOf (((blockAt g alignment + sz) &&& 0xFFFFFFFFFFFFF000) - KERNEL_VMB) <
      g.kernel_pmm.m_numPages.toNat) :
    ∃ r, kmalloc_aligned sz alignment g = ok r := by
  obtain ⟨p, hp⟩ : ∃ p, mark_crossing g.earlyAllocBase (blockAt g alignment + sz) g.kernel_pmm =
      ok p := by
    unfold mark_crossing
    split
    · exact pmm.set.total hready hframe
    · exact ⟨_, rfl⟩
  refine ⟨(blockAt g alignment, { g with earlyAllocBase := blockAt g alignment + sz, kernel_pmm := p }), ?_⟩
  simp only [kmalloc_aligned, hmode, align_up.total h0, if_neg (blockAt_end hfit), hp, bind_ok]

/-! ## The spec of `pmm::init` -/

/-- The same heap, whatever the PMM is. -/
structure SameHeap (g g' : Globals) : Prop where
  base : g'.earlyAllocBase = g.earlyAllocBase
  limit : g'.earlyAllocLimit = g.earlyAllocLimit
  mode : g'.currentMode = g.currentMode

/-- Marking every frame from the first on. -/
theorem pmm.set_all {p p' : pmm} (hp : p.Ready) {n : Nat} (hn : n < 2 ^ 52)
    (h : forRange n (fun i p => p.set (BitVec.ofNat 64 i * 0x1000)) p = ok p') :
    n ≤ p.m_numPages.toNat ∧ pmm.Marks p p' fun f => f < n ∨ p.Used f := by
  refine forRange_inv (fun i q => i ≤ p.m_numPages.toNat ∧ pmm.Marks p q fun f => f < i ∨ p.Used f)
    ?_ ⟨Nat.zero_le _, (Marks.refl p).congr fun f => by simp⟩ h
  rintro i q q' hi ⟨_, hq⟩ hset
  have hframe := frameOf_turn (i := i) (by omega)
  obtain ⟨hlt, hm⟩ := pmm.set.spec (hq.ready hp) hset
  rw [hframe] at hlt hm
  rw [hq.numPages] at hlt
  refine ⟨hlt, (hq.trans hm).congr fun f => ?_⟩
  rw [hq.used]
  constructor
  · rintro (rfl | hf | hu)
    · exact Or.inl (Nat.lt_succ_self _)
    · exact Or.inl (by omega)
    · exact Or.inr hu
  · rintro (hf | hu)
    · rcases Nat.lt_or_ge f i with h1 | h1
      · exact Or.inr (Or.inl h1)
      · exact Or.inl (by omega)
    · exact Or.inr (Or.inr hu)

theorem pmm.set_all_total {p : pmm} (hp : p.Ready) {n : Nat} (hn : n ≤ p.m_numPages.toNat) :
    ∃ p', forRange n (fun i p => p.set (BitVec.ofNat 64 i * 0x1000)) p = ok p' := by
  have hN := hp.pages
  have hturn : ∀ i (q : pmm), i < n → q.Ready ∧ q.m_numPages = p.m_numPages →
      ∃ q', q.set (BitVec.ofNat 64 i * 0x1000) = ok q' ∧
        q'.Ready ∧ q'.m_numPages = p.m_numPages := by
    rintro i q hi ⟨hq, hqN⟩
    have hframe := frameOf_turn (i := i) (by omega)
    obtain ⟨q', hq'⟩ := pmm.set.total hq (by rw [hframe, hqN]; omega)
    obtain ⟨_, hm⟩ := pmm.set.spec hq hq'
    exact ⟨q', hq', hm.ready hq, by rw [hm.numPages, hqN]⟩
  obtain ⟨p', h, _⟩ := forRange_ok (fun _ (q : pmm) => q.Ready ∧ q.m_numPages = p.m_numPages) hturn
    ⟨hp, rfl⟩
  exact ⟨p', h⟩

/-- The bitmap that `init` makes has a bit for every frame. -/
theorem pmm.init.ready {p : pmm} {num : U64} (ptr : U64) (fresh : Nat → U8)
    (hN : p.m_numPages = num) (hnum : num.toNat < 2 ^ 52) :
    pmm.Ready { p with bitmap := ⟨⟨ptr, (num / 8 + 1).toNat, fresh⟩, num⟩ } := by
  refine ⟨hN.symm, ?_, by rw [hN]; exact hnum⟩
  simp only [bitset.Fits, BitVec.toNat_add, BitVec.toNat_udiv, BitVec.reduceToNat]
  omega

/-- `init` of a PMM that has none yet: a block for the bitmap, and every frame
used. -/
theorem pmm.init.spec {num : U64} {fresh : Nat → U8} {g g' : Globals}
    (hinit : g.kernel_pmm.m_initialised = false) (hnum : num.toNat < 2 ^ 52)
    (h : pmm.init num fresh g = ok g') :
    g'.kernel_pmm.Ready ∧ g'.kernel_pmm.m_numPages = num ∧
      (∀ f < num.toNat, g'.kernel_pmm.Used f) ∧
      g'.kernel_pmm.bitmap.m_ptr.size = (num / 8 + 1).toNat ∧
      ∃ g₁ g₂, SameHeap g g₁ ∧ SameHeap g₂ g' ∧
        Allocated g₁ g₂ (num / 8 + 1) 8 g'.kernel_pmm.bitmap.m_ptr.addr := by
  unfold pmm.init at h
  rw [hinit] at h
  obtain ⟨⟨ptr, g₂⟩, hk, h⟩ := bind_eq_ok.mp h
  obtain ⟨p, hp, h⟩ := bind_eq_ok.mp h
  cases h
  have halloc := kmalloc_aligned.spec hk
  have hN : g₂.kernel_pmm.m_numPages = num := by rw [halloc.rest]
  have hready := pmm.init.ready ptr fresh hN hnum
  obtain ⟨_, hm⟩ := pmm.set_all hready hnum hp
  have hpr := hm.ready hready
  refine ⟨⟨hpr.length, hpr.fits, hpr.pages⟩, ?_, fun f hf => (hm.used f).mpr (Or.inl hf), ?_,
    { g with kernel_pmm := { g.kernel_pmm with m_numPages := num } }, g₂, ⟨rfl, rfl, rfl⟩, ⟨rfl, rfl, rfl⟩, ?_⟩
  · rw [hm.numPages, hN]
  · rw [hm.shape.size]
  · rw [hm.shape.addr]
    exact halloc

/-- `init` returns when the block of the bitmap is handed out. -/
theorem pmm.init.total_of_kmalloc {num : U64} (fresh : Nat → U8) {g : Globals}
    (hinit : g.kernel_pmm.m_initialised = false) (hnum : num.toNat < 2 ^ 52) {r : U64 × Globals}
    (hk : kmalloc (num / 8 + 1) { g with kernel_pmm := { g.kernel_pmm with m_numPages := num } } =
      ok r) : ∃ g', pmm.init num fresh g = ok g' := by
  obtain ⟨ptr, g₂⟩ := r
  have hN : g₂.kernel_pmm.m_numPages = num := by rw [(kmalloc_aligned.spec hk).rest]
  have hready := pmm.init.ready ptr fresh hN hnum
  obtain ⟨p, hp⟩ := pmm.set_all_total hready (n := num.toNat) (by rw [hN])
  refine ⟨{ g₂ with kernel_pmm := { p with m_initialised := true } }, ?_⟩
  unfold pmm.init
  rw [hinit]
  simp only [hk, hp, bind_ok, Bool.false_eq_true, if_false]

/-- In early boot, `init` returns when the bitmap fits below the limit. -/
theorem pmm.init.total {num : U64} (fresh : Nat → U8) {g : Globals}
    (hinit : g.kernel_pmm.m_initialised = false) (hnum : num.toNat < 2 ^ 52)
    (hmode : g.currentMode = .EarlyBoot)
    (hfit : alignedUp g.earlyAllocBase.toNat 8 + (num.toNat / 8 + 1) ≤ g.earlyAllocLimit.toNat) :
    ∃ g', pmm.init num fresh g = ok g' := by
  have hsz : (num / 8 + 1).toNat = num.toNat / 8 + 1 := by
    simp only [BitVec.toNat_add, BitVec.toNat_udiv, BitVec.reduceToNat]
    omega
  obtain ⟨r, hk⟩ := kmalloc_aligned.total
    (g := { g with kernel_pmm := { g.kernel_pmm with m_numPages := num } })
    hmode (by decide : (8 : U64) ≠ 0) (by rw [hsz]; exact hfit)
  exact pmm.init.total_of_kmalloc fresh hinit hnum hk

end lobo
