-- A serial controller, the 16550: the divisor latch behind its bit of the line
-- control, the transmitter, and the bit of the line status that tells when it
-- takes a byte.
import CanidaeOS.Memory

open Machine

namespace Uart16550

/-- A byte on the line, with the rate and the frame that it goes out in. -/
structure Frame where
  divisor : U16
  control : U8
  byte : U8
deriving DecidableEq, Repr

/-- A controller. The line is as slow as it likes: `pace n` is how many reads of
the status find the transmitter at work on byte `n`. -/
structure Uart where
  ier : U8
  fcr : U8
  lcr : U8
  mcr : U8
  divisor : U16
  /-- the bits of the line status that tell of other things -/
  status : U8
  /-- the reads that still find the transmitter at work -/
  busy : Nat
  pace : Nat → Nat
  sent : List Frame
  /-- the bytes that came while the transmitter was at work -/
  lost : List U8

namespace Uart

/-- The latch is at the first two ports. -/
def latch (u : Uart) : Bool := u.lcr.getLsbD 7

def transmit (u : Uart) (v : U8) : Uart :=
  if u.busy = 0 then
    { u with sent := u.sent ++ [⟨u.divisor, u.lcr, v⟩], busy := u.pace u.sent.length }
  else { u with lost := u.lost ++ [v] }

/-- The divisor with its low byte as `v`. -/
def withLow (divisor : U16) (v : U8) : U16 := ((divisor >>> 8).setWidth 8 ++ v : BitVec 16)

/-- The divisor with its high byte as `v`. -/
def withHigh (divisor : U16) (v : U8) : U16 := (v ++ divisor.setWidth 8 : BitVec 16)

/-- A write to the port at an offset from the first one. -/
def write (u : Uart) (offset : U16) (v : U8) : Uart :=
  match offset.toNat with
  | 0 => if u.latch then { u with divisor := withLow u.divisor v } else u.transmit v
  | 1 =>
    if u.latch then { u with divisor := withHigh u.divisor v } else { u with ier := v }
  | 2 => { u with fcr := v }
  | 3 => { u with lcr := v }
  | 4 => { u with mcr := v }
  | _ => u

/-- A read of the line status, at offset 5. Bit 5 tells that the transmitter
takes a byte. -/
def lineStatus (u : Uart) : U8 × Uart :=
  if u.busy = 0 then (u.status ||| 0x20, u)
  else (u.status &&& 0xDF, { u with busy := u.busy - 1 })

/-- A write to the second port, whatever it is at that time. -/
theorem write_second (u : Uart) (v : U8) :
    ∃ ier divisor, u.write 1 v = { u with ier, divisor } := by
  cases hlatch : u.latch <;> simp [write, hlatch]

/-- Both halves of the divisor. -/
theorem write_divisor {u : Uart} (h : u.latch = true) (low high : U8) :
    (u.write 0 low).write 1 high = { u with divisor := (high ++ low : BitVec 16) } := by
  have hfirst : u.write 0 low = { u with divisor := withLow u.divisor low } := if_pos h
  have hsecond : ∀ divisor, { u with divisor }.write 1 high =
      { u with divisor := withHigh divisor high } := fun _ => if_pos h
  have hboth : withHigh (withLow u.divisor low) high = (high ++ low : BitVec 16) := by
    rw [withHigh, withLow, BitVec.setWidth_append_eq_right]
  rw [hfirst, hsecond, hboth]

/-- The settings of the line, with the transmitter at its ports. -/
def Runs (u : Uart) (divisor : U16) (control : U8) : Prop :=
  u.divisor = divisor ∧ u.lcr = control ∧ u.latch = false

theorem lineStatus_ready {u : Uart} (h : u.busy = 0) : u.lineStatus.1 &&& 0x20 ≠ 0 ∧ u.lineStatus.2 = u := by
  unfold lineStatus
  rw [if_pos h]
  refine ⟨fun hzero => ?_, rfl⟩
  have hbit : ((u.status ||| 0x20) &&& 0x20).getLsbD 5 = (0 : U8).getLsbD 5 := by rw [hzero]
  simp at hbit

theorem lineStatus_busy {u : Uart} (h : u.busy ≠ 0) :
    u.lineStatus.1 &&& 0x20 = 0 ∧ u.lineStatus.2 = { u with busy := u.busy - 1 } := by
  unfold lineStatus
  rw [if_neg h]
  refine ⟨?_, rfl⟩
  show u.status &&& 0xDF &&& 0x20 = 0
  rw [BitVec.and_assoc]
  simp

/-- A transmitter that takes a byte loses none. -/
theorem write_data {u : Uart} {divisor : U16} {control : U8} (hruns : u.Runs divisor control)
    (h : u.busy = 0) (v : U8) : u.write 0 v =
      { u with sent := u.sent ++ [⟨divisor, control, v⟩], busy := u.pace u.sent.length } := by
  rcases hruns with ⟨rfl, rfl, hlatch⟩
  simp [write, transmit, hlatch, h]

end Uart
end Uart16550
