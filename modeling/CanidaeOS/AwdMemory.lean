-- The boot loader's map of memory (`memory.c`): the regions that it keeps
-- track of, each with its last byte, and where it puts its heap.
import CanidaeOS.AwdAlloc

open Program Machine Outcome Paging

namespace awd

/-- `PAGE_ROUND_UP(x)` of an `x` that is taken as 64 bits. -/
def PAGE_ROUND_UP (x : U64) : U64 := (x + 0x1000 - 1) &&& ~~~(0x1000 - 1)

/-- A region, with `last` for the field `end`, its last byte. -/
structure mem_region where
  start : U64
  last : U64

/-- The regions that the code reads again. -/
structure mem_info where
  region_low_memory : mem_region
  region_awd_image : mem_region
  region_multiboot_files : mem_region
  region_awd_malloc : mem_region

/-- `mem` before any code has run. -/
def mem_info.static : mem_info := ⟨⟨0, 0⟩, ⟨0, 0⟩, ⟨0, 0⟩, ⟨0, 0⟩⟩

/-- `memory_init`, with the addresses of the linker's symbols. -/
def memory_init (awd_phys_start awd_phys_end : U32) (mem : mem_info) : mem_info :=
  { mem with
    region_low_memory := ⟨0, 0x100000 - 1⟩
    region_awd_image := ⟨awd_phys_start.setWidth 64, PAGE_ROUND_UP (awd_phys_end.setWidth 64) - 1⟩ }

def memory_heap_init (heap_base : U64) (mem : mem_info) : mem_info × alloc :=
  ({ mem with region_awd_malloc := ⟨heap_base, heap_base + AWD_ALLOC_SIZE - 1⟩ },
    alloc_init heap_base)

/-! ## Rounding -/

/-- The next multiple of a page. -/
def pageRounded (n : Nat) : Nat := (n + 0xFFF) / 0x1000 * 0x1000

theorem pageRounded_mod (n : Nat) : pageRounded n % 0x1000 = 0 := Nat.mul_mod_left _ _

theorem le_pageRounded (n : Nat) : n ≤ pageRounded n := by
  unfold pageRounded
  omega

theorem pageRounded_add {a : Nat} (h : a % 0x1000 = 0) (b : Nat) :
    pageRounded (a + b) = a + pageRounded b := by
  unfold pageRounded
  omega

theorem PAGE_ROUND_UP_toNat {x : U64} (h : x.toNat < 2 ^ 63) :
    (PAGE_ROUND_UP x).toNat = pageRounded x.toNat := by
  have hsum : (x + 0x1000 - 1).toNat = x.toNat + 0xFFF := by bv_omega
  have hhigh : (PAGE_ROUND_UP x).toNat = (x + 0x1000 - 1).toNat - (x + 0x1000 - 1).toNat % 0x1000 :=
    and_high_toNat (x + 0x1000 - 1) 12 (by norm_num)
  rw [hhigh, hsum]
  unfold pageRounded
  omega

/-- The page behind the last byte of whole pages. -/
theorem PAGE_ROUND_UP_last (x : U32) :
    PAGE_ROUND_UP (PAGE_ROUND_UP (x.setWidth 64) - 1) = PAGE_ROUND_UP (x.setWidth 64) := by
  have hx := x.isLt
  have hwide : (x.setWidth 64 : U64).toNat = x.toNat := by
    rw [BitVec.toNat_setWidth]
    omega
  have hup := PAGE_ROUND_UP_toNat (x := x.setWidth 64) (by omega)
  rw [hwide] at hup
  by_cases hzero : x.toNat = 0
  · have : x = 0 := BitVec.eq_of_toNat_eq hzero
    subst this
    rfl
  · have hpos : 1 ≤ pageRounded x.toNat := Nat.le_trans (by omega) (le_pageRounded x.toNat)
    have hmod := pageRounded_mod x.toNat
    have hbound : pageRounded x.toNat ≤ 2 ^ 32 + 0x1000 := by
      unfold pageRounded
      omega
    have hlast : (PAGE_ROUND_UP (x.setWidth 64) - 1).toNat = pageRounded x.toNat - 1 := by
      rw [BitVec.toNat_sub_of_le (by rw [BitVec.le_def, hup]; exact hpos), hup]
      rfl
    apply BitVec.eq_of_toNat_eq
    rw [PAGE_ROUND_UP_toNat (by omega), hlast, hup]
    unfold pageRounded at hmod hpos hbound ⊢
    omega

/-- The heap as `awd_main` sets it up behind a module that ends at `image_end`. -/
theorem alloc_init_behind (image_end : U32) :
    let a := alloc_init (PAGE_ROUND_UP (image_end.setWidth 64))
    a.heap_phys_current.toNat = pageRounded image_end.toNat ∧
      a.heap_phys_limit.toNat = pageRounded image_end.toNat + 0x40000 := by
  have hx := image_end.isLt
  have hwide : (image_end.setWidth 64 : U64).toNat = image_end.toNat := by
    rw [BitVec.toNat_setWidth]
    omega
  have hup := PAGE_ROUND_UP_toNat (x := image_end.setWidth 64) (by omega)
  rw [hwide] at hup
  have hbound : pageRounded image_end.toNat ≤ 2 ^ 32 + 0x1000 := by
    unfold pageRounded
    omega
  refine ⟨hup, ?_⟩
  show (PAGE_ROUND_UP (image_end.setWidth 64) + AWD_ALLOC_SIZE).toNat = _
  rw [BitVec.toNat_add, hup, show AWD_ALLOC_SIZE.toNat = 0x40000 from rfl]
  omega

end awd
