-- The boot loader's heap (`alloc.c`): a position that only moves up, below a
-- limit that a block may not reach. The position has 64 bits, and the pointer
-- that a caller gets has 32.
import CanidaeOS.Outcome
import CanidaeOS.PageWalk

open Program Machine Outcome Paging

namespace awd

/-- A stop of the boot loader. -/
inductive Stop where
  /-- `panic(fmt, ...)`, which halts -/
  | panic (fmt : String)
  /-- an access outside of an array -/
  | outside
deriving DecidableEq, Repr

def panic {α : Type} (fmt : String) : Outcome Stop α := .stop (.panic fmt)

def AWD_ALLOC_SIZE : U64 := 64 * 0x1000

def AWD_ALLOC_MIN_ALIGNMENT : U32 := 8

/-- The globals of `alloc.c`. -/
structure alloc where
  heap_phys_base : U64
  heap_phys_current : U64
  heap_phys_limit : U64
  alloc_enabled : Bool

def alloc_init (phys_base : U64) : alloc :=
  { heap_phys_base := phys_base, heap_phys_current := phys_base
    heap_phys_limit := phys_base + AWD_ALLOC_SIZE, alloc_enabled := true }

/-- `if ((heap_phys_current % alignment) != 0) { heap_phys_current += ...; }` -/
def alloc.align (a : alloc) (alignment : U32) : alloc :=
  let rest := a.heap_phys_current % alignment.setWidth 64
  if rest ≠ 0 then
    { a with heap_phys_current := a.heap_phys_current + (alignment.setWidth 64 - rest) }
  else a

/-- `alignment >= AWD_ALLOC_MIN_ALIGNMENT ? alignment : AWD_ALLOC_MIN_ALIGNMENT` -/
def alignmentOf (alignment : U32) : U32 :=
  if alignment ≥ AWD_ALLOC_MIN_ALIGNMENT then alignment else AWD_ALLOC_MIN_ALIGNMENT

def malloc_aligned (size alignment : U32) (a : alloc) : Outcome Stop (U32 × alloc) :=
  if a.alloc_enabled = false then
    panic "malloc: Allocation not enabled! (sz: 0x%x, align: 0x%x)\n"
  else
    let a := a.align (alignmentOf alignment)
    if a.heap_phys_current + size.setWidth 64 ≥ a.heap_phys_limit then
      panic "malloc: Allocation hit limit (sz: 0x%x, align: 0x%x)\n"
    else
      ok (a.heap_phys_current.setWidth 32,
        { a with heap_phys_current := a.heap_phys_current + size.setWidth 64 })

/-! ## The spec of `malloc_aligned` -/

/-- A stop of the heap. -/
def HeapStop (e : Stop) : Prop :=
  e = .panic "malloc: Allocation not enabled! (sz: 0x%x, align: 0x%x)\n" ∨
    e = .panic "malloc: Allocation hit limit (sz: 0x%x, align: 0x%x)\n"

theorem malloc_aligned.stops (size alignment : U32) (a : alloc) :
    (malloc_aligned size alignment a).Meets HeapStop fun _ => True := by
  unfold malloc_aligned
  split
  · exact Meets.stop (Or.inl rfl)
  · dsimp only
    split
    · exact Meets.stop (Or.inr rfl)
    · exact Meets.ok trivial

/-- All that a call that returns does: the heap is enabled, the block ends below
the limit, and the position moves behind the block. -/
theorem malloc_aligned.returned {size alignment p : U32} {a a' : alloc}
    (h : malloc_aligned size alignment a = ok (p, a')) :
    a.alloc_enabled = true ∧
      (a.align (alignmentOf alignment)).heap_phys_current + size.setWidth 64 <
        (a.align (alignmentOf alignment)).heap_phys_limit ∧
      p = (a.align (alignmentOf alignment)).heap_phys_current.setWidth 32 ∧
      a' = { a.align (alignmentOf alignment) with
        heap_phys_current :=
          (a.align (alignmentOf alignment)).heap_phys_current + size.setWidth 64 } := by
  unfold malloc_aligned at h
  split at h
  · cases h
  · rename_i henabled
    dsimp only at h
    split at h
    · cases h
    · rename_i hfit
      cases h
      exact ⟨by simpa using henabled, BitVec.not_le.mp hfit, rfl, rfl⟩

theorem alloc.align_enabled (a : alloc) (alignment : U32) :
    (a.align alignment).alloc_enabled = a.alloc_enabled := by
  unfold alloc.align
  dsimp only
  split <;> rfl

/-- A call that returns found the heap enabled, and leaves it so. -/
theorem malloc_aligned.enabled {size alignment p : U32} {a a' : alloc}
    (h : malloc_aligned size alignment a = ok (p, a')) : a'.alloc_enabled = true := by
  rcases malloc_aligned.returned h with ⟨henabled, -, -, rfl⟩
  exact (alloc.align_enabled a _).trans henabled

/-- A heap whose limit leaves the last two pages of the address space out, so
that no sum of its wraps for a page. -/
structure alloc.Ready (a : alloc) : Prop where
  below : a.heap_phys_current.toNat ≤ a.heap_phys_limit.toNat
  limit : a.heap_phys_limit.toNat ≤ 2 ^ 64 - 0x2000

theorem alloc.align_page {a : alloc} (h : a.heap_phys_current.toNat ≤ 2 ^ 64 - 0x2000) :
    PageAligned (a.align 0x1000).heap_phys_current ∧
      a.heap_phys_current.toNat ≤ (a.align 0x1000).heap_phys_current.toNat ∧
      (a.align 0x1000).heap_phys_current.toNat < a.heap_phys_current.toNat + 0x1000 ∧
      (a.align 0x1000).heap_phys_limit = a.heap_phys_limit := by
  have hmod : (a.heap_phys_current % 0x1000).toNat = a.heap_phys_current.toNat % 0x1000 := by
    rw [BitVec.toNat_umod]
    rfl
  have hwidth : (0x1000 : U32).setWidth 64 = (0x1000 : U64) := rfl
  unfold alloc.align PageAligned
  simp only [hwidth]
  split
  · rename_i hne
    have hpos : a.heap_phys_current.toNat % 0x1000 ≠ 0 := by
      rw [← hmod]
      exact fun h0 => hne (BitVec.eq_of_toNat_eq h0)
    have hlt := Nat.mod_lt a.heap_phys_current.toNat (show 0 < 0x1000 by decide)
    have hrest : (0x1000 - a.heap_phys_current % 0x1000).toNat =
        0x1000 - a.heap_phys_current.toNat % 0x1000 := by
      rw [BitVec.toNat_sub_of_le (by rw [BitVec.le_def, hmod]; exact hlt.le), hmod]
      rfl
    have hsum : (a.heap_phys_current + (0x1000 - a.heap_phys_current % 0x1000)).toNat =
        a.heap_phys_current.toNat + (0x1000 - a.heap_phys_current.toNat % 0x1000) := by
      rw [BitVec.toNat_add, hrest, Nat.mod_eq_of_lt (by omega)]
    dsimp only
    rw [hsum]
    exact ⟨by omega, by omega, by omega, rfl⟩
  · rename_i hzero
    have hzero' : a.heap_phys_current.toNat % 0x1000 = 0 := by
      rw [← hmod, not_not.mp hzero]
      rfl
    exact ⟨hzero', Nat.le_refl _, by omega, rfl⟩

/-- A block of whole pages starts with the first page from the position on, and
its last byte stays below the limit. -/
theorem malloc_block.spec {a a' : alloc} {size p : U32}
    (hpos : a.heap_phys_current.toNat ≤ 2 ^ 64 - 0x2000)
    (hbound : a.heap_phys_current.toNat + 0x1000 + size.toNat ≤ 2 ^ 64)
    (h : malloc_aligned size 0x1000 a = ok (p, a')) :
    ∃ b : Page, p = (pageAddr b).setWidth 32 ∧
      a.heap_phys_current.toNat ≤ (pageAddr b).toNat ∧
      (pageAddr b).toNat < a.heap_phys_current.toNat + 0x1000 ∧
      a'.heap_phys_current.toNat = (pageAddr b).toNat + size.toNat ∧
      a'.heap_phys_current.toNat < a.heap_phys_limit.toNat ∧
      a'.heap_phys_limit = a.heap_phys_limit := by
  have hpage : alignmentOf 0x1000 = 0x1000 := rfl
  have hsize : (size.setWidth 64 : U64).toNat = size.toNat := by
    rw [BitVec.toNat_setWidth]
    omega
  obtain ⟨haligned, hge, hlt, hsame⟩ := alloc.align_page hpos
  have hend : ((a.align 0x1000).heap_phys_current + size.setWidth 64).toNat =
      (a.align 0x1000).heap_phys_current.toNat + size.toNat := by
    rw [BitVec.toNat_add, hsize, Nat.mod_eq_of_lt (by omega)]
  rcases malloc_aligned.returned h with ⟨-, hfit, rfl, rfl⟩
  rw [hpage] at hfit ⊢
  refine ⟨pageOf (a.align 0x1000).heap_phys_current, ?_⟩
  rw [pageAddr_pageOf haligned]
  refine ⟨rfl, hge, hlt, hend, ?_, hsame⟩
  rw [hsame] at hfit
  exact hfit

/-- The same block is handed out when it ends below the limit. -/
theorem malloc_block.total {a : alloc} {size : U32} (henabled : a.alloc_enabled = true)
    (hpos : a.heap_phys_current.toNat ≤ 2 ^ 64 - 0x2000)
    (hfit : (a.heap_phys_current.toNat + 0xFFF) / 0x1000 * 0x1000 + size.toNat <
      a.heap_phys_limit.toNat) : ∃ r, malloc_aligned size 0x1000 a = ok r := by
  have hpage : alignmentOf 0x1000 = 0x1000 := rfl
  have hsize : (size.setWidth 64 : U64).toNat = size.toNat := by
    rw [BitVec.toNat_setWidth]
    omega
  have hlimit := a.heap_phys_limit.isLt
  obtain ⟨haligned, hge, hlt, hsame⟩ := alloc.align_page hpos
  unfold PageAligned at haligned
  have hnot : ¬ (a.align 0x1000).heap_phys_current + size.setWidth 64 ≥
      (a.align 0x1000).heap_phys_limit := by
    rw [hsame, ge_iff_le, BitVec.not_le, BitVec.lt_def, BitVec.toNat_add, hsize]
    omega
  simp only [malloc_aligned, henabled, hpage, if_neg hnot]
  exact ⟨_, rfl⟩

/-- A page from the heap: the first one from the position on. -/
theorem malloc_page.spec {a a' : alloc} {p : U32} (hready : a.Ready)
    (h : malloc_aligned 0x1000 0x1000 a = ok (p, a')) :
    ∃ b : Page, p = (pageAddr b).setWidth 32 ∧
      a.heap_phys_current.toNat ≤ (pageAddr b).toNat ∧
      (pageAddr b).toNat < a.heap_phys_current.toNat + 0x1000 ∧
      a'.heap_phys_current.toNat = (pageAddr b).toNat + 0x1000 ∧ a'.Ready ∧
      a'.heap_phys_limit = a.heap_phys_limit := by
  have hbelow := hready.below
  have hlimit := hready.limit
  have hsize : (0x1000 : U32).toNat = 0x1000 := rfl
  obtain ⟨b, hp, hge, hlt, hcur, hfit, hsame⟩ :=
    malloc_block.spec (by omega) (by rw [hsize]; omega) h
  exact ⟨b, hp, hge, hlt, hcur, ⟨Nat.le_of_lt (by rw [hsame]; exact hfit), by rw [hsame]; exact hlimit⟩,
    hsame⟩

end awd
