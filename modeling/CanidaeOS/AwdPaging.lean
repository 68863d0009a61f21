-- The boot loader's page tables (`paging.c`): regions are queued, and a commit
-- maps the pages of each into tables from the heap. Pointers have 32 bits and
-- entries 64, and nothing clears a new table.
import CanidaeOS.AwdAlloc
import CanidaeOS.PageMap

open Program Machine Outcome Paging RadixTree

namespace awd

structure awd_mapped_region_t where
  phys_start : U64
  phys_end : U64
  virt_start : U64
  virt_end : U64
  attr : U8

def PAGING_QUEUE_MAX : Nat := 10

/-- The queue of `paging.c`, the heap, and memory before paging is on. -/
structure paging where
  paging_queue_num : U32
  paging_queue : Nat → awd_mapped_region_t
  alloc : alloc
  mem : Memory

/-! ## The code -/

def paging_queue_mapping (r : awd_mapped_region_t) (s : paging) : Outcome Stop paging :=
  if s.paging_queue_num.toNat < PAGING_QUEUE_MAX then
    ok { s with
      paging_queue := fun i => if i = s.paging_queue_num.toNat then r else s.paging_queue i
      paging_queue_num := s.paging_queue_num + 1 }
  else .stop .outside

/-- `const uint8_t attribute = 0b11;` -/
def table_attr : U8 := 0b11

def attribute_mask : U32 := ~~~(table_attr.setWidth 32)

/-- `&table[index]` of a table of 64-bit entries. -/
def entryPtr (table index : U32) : U64 := (table + 8 * index).setWidth 64

/-- The table behind an entry, made when the entry is zero. -/
def createOrLoad (table index : U32) (s : paging) : Outcome Stop (U32 × paging) :=
  let entry := load64 s.mem (entryPtr table index)
  if entry = 0 then do
    let (pg, alloc) ← malloc_aligned 0x1000 0x1000 s.alloc
    let entry := (pg ||| table_attr.setWidth 32).setWidth 64
    ok (pg, { s with alloc, mem := store64 s.mem (entryPtr table index) entry })
  else ok (entry.setWidth 32 &&& attribute_mask, s)

def paging_map_page (paging_pml4 : U32) (phys virt : U64) (page_attr : U8) (s : paging) :
    Outcome Stop paging :=
  let index_p4 := ((virt >>> 39) &&& 511).setWidth 32
  let index_p3 := ((virt >>> 30) &&& 511).setWidth 32
  let index_p2 := ((virt >>> 21) &&& 511).setWidth 32
  let index_p1 := ((virt >>> 12) &&& 511).setWidth 32
  do
    let (pg_p3, s) ← createOrLoad paging_pml4 index_p4 s
    let (pg_p2, s) ← createOrLoad pg_p3 index_p3 s
    let (pg_p1, s) ← createOrLoad pg_p2 index_p2 s
    let entry := phys ||| page_attr.setWidth 64
    ok { s with mem := store64 s.mem (entryPtr pg_p1 index_p1) entry }

/-- `for (i = 0; i < 512; i++) { paging_pml4[i] = 0; }` -/
def clear (paging_pml4 : U32) : Nat → Memory → Memory
  | 0, m => m
  | i + 1, m => store64 (clear paging_pml4 i m) (entryPtr paging_pml4 (BitVec.ofNat 32 i)) 0

/-- The pages of one region. -/
def commitRegion (fuel : Nat) (paging_pml4 : U32) (region : awd_mapped_region_t) (s : paging) :
    Outcome Stop paging :=
  let sz := region.virt_end - region.virt_start
  forStep 0x1000 sz (fun j => paging_map_page paging_pml4 (region.phys_start + j)
    (region.virt_start + j) region.attr) fuel 0 s

def paging_commit (fuel : Nat) (paging_pml4 : U32) (s : paging) : Outcome Stop paging :=
  forRange s.paging_queue_num.toNat
    (fun i s => if i < PAGING_QUEUE_MAX then commitRegion fuel paging_pml4 (s.paging_queue i) s
      else .stop .outside)
    { s with mem := clear paging_pml4 512 s.mem }

/-! ## What the code meets in an entry -/

/-- The table that the code takes a nonzero entry to name. -/
def named (e : U64) : Option Page :=
  if e = 0 then none else some (pageOf ((e.setWidth 32 &&& attribute_mask).setWidth 64))

@[simp] theorem named_zero : named 0 = none := rfl

/-- An entry above the last level that is in use: present, below 4 GiB, and the
address of a page once the mask is off. -/
structure Link (e : U64) : Prop where
  present : ¬ e &&& 1 = 0
  low : e.toNat < 2 ^ 32
  aligned : PageAligned ((e.setWidth 32 &&& attribute_mask).setWidth 64)

def Inner (e : U64) : Prop := e = 0 ∨ Link e

theorem Link.ne_zero {e : U64} (h : Link e) : e ≠ 0 := by
  rintro rfl
  exact h.present rfl

/-- A page that a 32-bit pointer names. -/
def ptr (t : Page) : U32 := (pageAddr t).setWidth 32

theorem ptr_toNat {t : Page} (h : (pageAddr t).toNat < 2 ^ 32) : (ptr t).toNat = (pageAddr t).toNat := by
  rw [ptr, BitVec.toNat_setWidth, Nat.mod_eq_of_lt h]

theorem mask_toNat (e : U32) : (e &&& attribute_mask).toNat = e.toNat - e.toNat % 4 :=
  and_high_toNat e 2 (by norm_num)

/-- The address behind an entry that fits a pointer. -/
theorem masked_toNat {e : U64} (h : e.toNat < 2 ^ 32) :
    ((e.setWidth 32 &&& attribute_mask).setWidth 64).toNat = e.toNat - e.toNat % 4 := by
  have hptr : (e.setWidth 32).toNat = e.toNat := by
    rw [BitVec.toNat_setWidth, Nat.mod_eq_of_lt h]
  rw [BitVec.toNat_setWidth, mask_toNat, hptr, Nat.mod_eq_of_lt (by omega)]

/-- The pointer behind an entry that is in use. -/
theorem Link.ptr_eq {e : U64} (h : Link e) : e.setWidth 32 &&& attribute_mask =
    ptr (pageOf ((e.setWidth 32 &&& attribute_mask).setWidth 64)) := by
  rw [ptr, pageAddr_pageOf h.aligned, BitVec.setWidth_setWidth_of_le _ (by decide), BitVec.setWidth_eq]

/-- Behind an entry that is in use, the processor and the code find the same
table. -/
theorem Inner.seen {e : U64} (h : Inner e) : Seen id named e := by
  rcases h with rfl | h
  · rfl
  have hmask : e &&& ~~~0xFFF = (e.setWidth 32 &&& attribute_mask).setWidth 64 := by
    apply BitVec.eq_of_toNat_eq
    have hhigh : (e &&& ~~~0xFFF).toNat = e.toNat - e.toNat % 0x1000 :=
      and_high_toNat e 12 (by norm_num)
    have haligned := h.aligned
    unfold PageAligned at haligned
    rw [masked_toNat h.low] at haligned ⊢
    rw [hhigh]
    omega
  rw [Seen, leaf, if_neg h.present, named, if_neg h.ne_zero, hmask, Option.map_some, Option.map_some,
    pageAddr_pageOf h.aligned]
  rfl

/-- The entry that links a new table in. -/
def linkTo (t : Page) : U64 := (ptr t ||| table_attr.setWidth 32).setWidth 64

theorem linkTo_toNat {t : Page} (h : (pageAddr t).toNat < 2 ^ 32) :
    (linkTo t).toNat = (pageAddr t).toNat + 3 := by
  have hp := ptr_toNat h
  have hsum : (ptr t ||| table_attr.setWidth 32).toNat = (ptr t).toNat + 3 := by
    rw [BitVec.toNat_or, hp, pageAddr_toNat, Nat.mul_comm]
    exact (Nat.two_pow_add_eq_or_of_lt (i := 12) (by decide) _).symm
  have := pageAddr_toNat t
  rw [linkTo, BitVec.toNat_setWidth, hsum, hp]
  omega

theorem linkTo_link {t : Page} (h : (pageAddr t).toNat < 2 ^ 32) : Link (linkTo t) := by
  have hsum := linkTo_toNat h
  have haddr := pageAddr_toNat t
  have hlow : (linkTo t).toNat < 2 ^ 32 := by omega
  refine ⟨?_, hlow, ?_⟩
  · rw [present_iff, hsum]
    omega
  · unfold PageAligned
    rw [masked_toNat hlow, hsum]
    omega

theorem named_linkTo {t : Page} (h : (pageAddr t).toNat < 2 ^ 32) : named (linkTo t) = some t := by
  have hlink := linkTo_link h
  have haddr : ((linkTo t).setWidth 32 &&& attribute_mask).setWidth 64 = pageAddr t := by
    apply BitVec.eq_of_toNat_eq
    have := pageAddr_toNat t
    rw [masked_toNat hlink.low, linkTo_toNat h]
    omega
  rw [named, if_neg hlink.ne_zero, haddr, pageOf_pageAddr]

/-- A 32-bit pointer reaches the entries of its page. -/
theorem entryPtr_eq {t : Page} (h : (pageAddr t).toNat < 2 ^ 32) (i : Index) :
    entryPtr (ptr t) (i.setWidth 32) = slot (pageAddr t) (i.setWidth 64) := by
  apply BitVec.eq_of_toNat_eq
  have haddr := pageAddr_toNat t
  have := i.isLt
  have hmul : ((8 : U32) * i.setWidth 32).toNat = 8 * i.toNat := by
    rw [BitVec.toNat_mul, BitVec.toNat_setWidth]
    simp only [BitVec.reduceToNat]
    omega
  rw [slot_toNat, entryPtr, BitVec.toNat_setWidth, BitVec.toNat_add, ptr_toNat h, hmul]
  omega

/-- The code's indices are those of the processor. -/
theorem index_eq (v : U64) (k : Nat) :
    ((v >>> k) &&& 511).setWidth 32 = (v.extractLsb' k 9).setWidth 32 := by
  rw [Paging.index_eq, BitVec.setWidth_setWidth_of_le _ (by decide)]

end awd
