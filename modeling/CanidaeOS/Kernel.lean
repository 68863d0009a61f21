-- What all of the kernel shares: how its code can stop (`panic.cpp`,
-- `assert.h`), the linear window of physical memory (`kernel.h`), and the
-- buffers that `kmalloc` hands out.
import CanidaeOS.Outcome
import CanidaeOS.Memory

open Program Machine

namespace lobo

/-- A stop of the kernel. `panic` ends in `hlt` with interrupts off, and a
failed `assert` ends in `panic`. -/
inductive Stop where
  /-- `panic(fmt, ...)` -/
  | panic (fmt : String)
  /-- `assert(expression)` with a false expression -/
  | assertion (expression : String)
  /-- a divide by zero, exception 0 -/
  | divide
  /-- an access outside of the buffer that a pointer points into -/
  | outside
deriving DecidableEq, Repr

def panic {α : Type} (fmt : String) : Outcome Stop α := .stop (.panic fmt)

def assert (cond : Prop) [Decidable cond] (expression : String) : Outcome Stop Unit :=
  Outcome.ensure cond (.assertion expression)

@[simp] theorem assert_eq_ok {cond : Prop} [Decidable cond] {expression : String} {u : Unit} :
    assert cond expression = .ok u ↔ cond := Outcome.ensure_eq_ok

theorem assert_ok {cond : Prop} [Decidable cond] (expression : String) (h : cond) :
    assert cond expression = .ok () := assert_eq_ok.mpr h

/-! ## The linear window -/

def KERNEL_VMB : U64 := 0xffffffff80000000

def PAGE_SIZE : U64 := 0x1000

def MEM_VIRT_TO_PHYS (a : U64) : U64 := a - KERNEL_VMB

def MEM_PHYS_TO_VIRT (a : U64) : U64 := a + KERNEL_VMB

@[simp] theorem virt_to_phys_to_virt (a : U64) : MEM_PHYS_TO_VIRT (MEM_VIRT_TO_PHYS a) = a := by
  simp [MEM_PHYS_TO_VIRT, MEM_VIRT_TO_PHYS]

@[simp] theorem phys_to_virt_to_phys (a : U64) : MEM_VIRT_TO_PHYS (MEM_PHYS_TO_VIRT a) = a := by
  simp [MEM_PHYS_TO_VIRT, MEM_VIRT_TO_PHYS]

/-- The window wraps: from 2 GiB on, a physical address shows at the bottom of
the address space. -/
theorem phys_to_virt_toNat (a : U64) : (MEM_PHYS_TO_VIRT a).toNat =
    if a.toNat < 0x80000000 then a.toNat + 0xffffffff80000000 else a.toNat - 0x80000000 := by
  have := a.isLt
  rw [MEM_PHYS_TO_VIRT, BitVec.toNat_add, KERNEL_VMB]
  simp only [BitVec.reduceToNat]
  split <;> omega

/-! ## Buffers -/

/-- `size` bytes at `addr`. A pointer into them is the offset in the buffer. -/
structure Buffer where
  addr : U64
  size : Nat
  byte : Nat → U8

def Buffer.load (b : Buffer) (i : U64) : Outcome Stop U8 :=
  if i.toNat < b.size then .ok (b.byte i.toNat) else .stop .outside

def Buffer.store (b : Buffer) (i : U64) (v : U8) : Outcome Stop Buffer :=
  if i.toNat < b.size then
    .ok { b with byte := fun j => if j = i.toNat then v else b.byte j }
  else .stop .outside

theorem Buffer.load.stops (b : Buffer) (i : U64) :
    (b.load i).Meets (· = .outside) fun _ => True := by
  unfold Buffer.load
  split
  · exact Outcome.Meets.ok trivial
  · exact Outcome.Meets.stop rfl

theorem Buffer.store.stops (b : Buffer) (i : U64) (v : U8) :
    (b.store i v).Meets (· = .outside) fun _ => True := by
  unfold Buffer.store
  split
  · exact Outcome.Meets.ok trivial
  · exact Outcome.Meets.stop rfl

theorem Buffer.load_eq_ok {b : Buffer} {i : U64} {v : U8} :
    b.load i = .ok v ↔ i.toNat < b.size ∧ v = b.byte i.toNat := by
  unfold Buffer.load
  split <;> simp_all [eq_comm]

theorem Buffer.store_eq_ok {b b' : Buffer} {i : U64} {v : U8} :
    b.store i v = .ok b' ↔ i.toNat < b.size ∧
      b' = { b with byte := fun j => if j = i.toNat then v else b.byte j } := by
  unfold Buffer.store
  split <;> simp_all [eq_comm]

end lobo
