-- What the boot loader reads of a kernel: bytes and numbers behind 32-bit
-- pointers, and the two headers of `elf64.h`, each field at its place. The
-- addresses of the bytes wrap at 4 GiB.
import CanidaeOS.AwdAlloc

open Program Machine Outcome

namespace awd

/-! ## Memory behind pointers -/

def loadByte (m : Memory) (a : U32) : U8 := m (a.setWidth 64)

def storeByte (m : Memory) (a : U32) (v : U8) : Memory := fun x => if x = a.setWidth 64 then v else m x

/-- The number in the `k` bytes from `a` on, low byte first. -/
def number (m : Memory) (a : U32) : Nat → Nat
  | 0 => 0
  | k + 1 => number m a k + 256 ^ k * (loadByte m (a + BitVec.ofNat 32 k)).toNat

/-- `memcpy`, from the first byte to the last. -/
def memcpy (dest src : U32) : Nat → Memory → Memory
  | 0, m => m
  | n + 1, m =>
    let m := memcpy dest src n m
    storeByte m (dest + BitVec.ofNat 32 n) (loadByte m (src + BitVec.ofNat 32 n))

/-! ## The headers -/

namespace elf64_header_t

def e_ident (m : Memory) (h : U32) (i : Nat) : U8 := loadByte m (h + BitVec.ofNat 32 i)
def e_type (m : Memory) (h : U32) : U16 := BitVec.ofNat 16 (number m (h + 16) 2)
def e_machine (m : Memory) (h : U32) : U16 := BitVec.ofNat 16 (number m (h + 18) 2)
def e_entry (m : Memory) (h : U32) : U64 := BitVec.ofNat 64 (number m (h + 24) 8)
def e_phoff (m : Memory) (h : U32) : U64 := BitVec.ofNat 64 (number m (h + 32) 8)
def e_phentsize (m : Memory) (h : U32) : U16 := BitVec.ofNat 16 (number m (h + 54) 2)
def e_phnum (m : Memory) (h : U32) : U16 := BitVec.ofNat 16 (number m (h + 56) 2)

/-- `sizeof(elf64_header_t)` -/
def size : Nat := 64

end elf64_header_t

namespace elf64_pheader_t

def p_type (m : Memory) (h : U32) : U32 := BitVec.ofNat 32 (number m h 4)
def p_offset (m : Memory) (h : U32) : U64 := BitVec.ofNat 64 (number m (h + 8) 8)
def p_vaddr (m : Memory) (h : U32) : U64 := BitVec.ofNat 64 (number m (h + 16) 8)
def p_filesz (m : Memory) (h : U32) : U64 := BitVec.ofNat 64 (number m (h + 32) 8)
def p_memsz (m : Memory) (h : U32) : U64 := BitVec.ofNat 64 (number m (h + 40) 8)

/-- `sizeof(elf64_pheader_t)` -/
def size : Nat := 56

end elf64_pheader_t

open elf64_header_t elf64_pheader_t

def elf_check (m : Memory) (elf_header : U32) : Bool :=
  if e_ident m elf_header 0 ≠ 0x7F then false
  else if e_ident m elf_header 1 ≠ 0x45 then false
  else if e_ident m elf_header 2 ≠ 0x4C then false
  else if e_ident m elf_header 3 ≠ 0x46 then false
  -- the machine is AMD64, and the type executable
  else if e_machine m elf_header ≠ 0x3E then false
  else if e_type m elf_header ≠ 2 then false
  else true

/-- A pointer to the program header with index `i`. -/
def prog_header (m : Memory) (image_start : U32) (i : Nat) : U32 :=
  let offset : U32 := (e_phoff m image_start +
    ((e_phentsize m image_start).setWidth 32 * BitVec.ofNat 32 i).setWidth 64).setWidth 32
  image_start + offset

/-! ## Bytes that are read and written -/

/-- Address `a` is one of the `n` bytes from `h` on. -/
def Among (h : U32) (n : Nat) (a : U32) : Prop := ∃ k < n, a = h + BitVec.ofNat 32 k

/-- The two memories have the same bytes from `h` on. -/
def Agree (m m' : Memory) (h : U32) (n : Nat) : Prop :=
  ∀ a, Among h n a → loadByte m' a = loadByte m a

theorem number_congr {m m' : Memory} {h : U32} {n : Nat} (hagree : Agree m m' h n) (off : Nat) {k : Nat}
    (hk : off + k ≤ n) :
    number m' (h + BitVec.ofNat 32 off) k = number m (h + BitVec.ofNat 32 off) k := by
  induction k with
  | zero => rfl
  | succ k ih =>
    have hlast := hagree (h + BitVec.ofNat 32 off + BitVec.ofNat 32 k)
      ⟨off + k, by omega, by rw [BitVec.add_assoc, ← BitVec.ofNat_add]⟩
    rw [number, number, ih (by omega), hlast]

theorem widened_inj {a b : U32} (h : (a.setWidth 64 : U64) = b.setWidth 64) : a = b := by
  have := congrArg (BitVec.setWidth 32) h
  simpa using this

theorem loadByte_storeByte (m : Memory) (a b : U32) (v : U8) :
    loadByte (storeByte m a v) b = if b = a then v else loadByte m b := by
  have hinj : b.setWidth 64 = a.setWidth 64 ↔ b = a := by
    constructor
    · exact widened_inj
    · rintro rfl
      rfl
  simp only [loadByte, storeByte, hinj]

/-- A copy changes no byte outside of its destination. -/
theorem memcpy_frame (dest src : U32) (m : Memory) {n : Nat} {x : U64}
    (h : ∀ k < n, x ≠ (dest + BitVec.ofNat 32 k).setWidth 64) : memcpy dest src n m x = m x := by
  induction n with
  | zero => rfl
  | succ n ih =>
    rw [memcpy, storeByte, if_neg (h n (Nat.lt_succ_self n))]
    exact ih fun k hk => h k (by omega)

/-- The fields of an ELF header are those of its 64 bytes. -/
theorem prog_header_congr {m m' : Memory} {image_start : U32}
    (h : Agree m m' image_start elf64_header_t.size) (i : Nat) :
    prog_header m' image_start i = prog_header m image_start i := by
  have hoff : e_phoff m' image_start = e_phoff m image_start :=
    congrArg (BitVec.ofNat 64) (number_congr h 32 (by decide))
  have hsize : e_phentsize m' image_start = e_phentsize m image_start :=
    congrArg (BitVec.ofNat 16) (number_congr h 54 (by decide))
  rw [prog_header, prog_header, hoff, hsize]

theorem e_phnum_congr {m m' : Memory} {image_start : U32}
    (h : Agree m m' image_start elf64_header_t.size) :
    e_phnum m' image_start = e_phnum m image_start :=
  congrArg (BitVec.ofNat 16) (number_congr h 56 (by decide))

end awd
