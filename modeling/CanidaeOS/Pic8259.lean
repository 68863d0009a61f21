-- A pair of 8259 interrupt controllers, the slave on a line of the master:
-- the initialisation words, the mask, the end of an interrupt, and which line
-- an acknowledge is answered for. Line 0 goes first, and a line in service
-- holds back itself and the lines after it.
import CanidaeOS.Memory

open Machine

namespace Pic8259

/-- The word that a controller expects at its data port. -/
inductive Phase where
  | icw2
  | icw3
  | icw4
  | ready
deriving DecidableEq, Repr

/-- A controller. Its request lines belong to the devices, which raise and
drop them at any time. -/
structure Pic where
  isr : U8
  imr : U8
  base : U8
  cascade : U8
  mode : U8
  phase : Phase
  single : Bool
  needs4 : Bool
deriving DecidableEq, Repr

namespace Pic

/-- The first line in service is no longer. -/
def eoi (p : Pic) : Pic := { p with isr := p.isr &&& (p.isr - 1) }

/-- A write to the command port: the first word of an initialisation, or the
end of an interrupt. The commands that rotate the priorities, or name the line
that ends, are not here. -/
def command (p : Pic) (v : U8) : Pic :=
  if v.getLsbD 4 then
    { p with imr := 0, mode := 0, phase := .icw2, single := v.getLsbD 1, needs4 := v.getLsbD 0 }
  else if v = 0x20 then p.eoi
  else p

def afterIcw3 (p : Pic) : Phase := if p.needs4 then .icw4 else .ready

/-- A write to the data port. -/
def data (p : Pic) (v : U8) : Pic :=
  match p.phase with
  | .icw2 => { p with base := v &&& 0xF8, phase := if p.single then p.afterIcw3 else .icw3 }
  | .icw3 => { p with cascade := v, phase := p.afterIcw3 }
  | .icw4 => { p with mode := v, phase := .ready }
  | .ready => { p with imr := v }

/-- The first line that is in service, or requested and not masked. -/
def first (p : Pic) (irr : U8) : Option Nat :=
  (List.range 8).find? fun i => p.isr.getLsbD i || (irr.getLsbD i && !p.imr.getLsbD i)

/-- The line that the controller asks for. -/
def request (p : Pic) (irr : U8) : Option Nat := (p.first irr).filter fun i => !p.isr.getLsbD i

/-- The line goes into service, unless the mode ends interrupts by itself. -/
def serve (p : Pic) (i : Nat) : Pic :=
  if p.mode.getLsbD 1 then p else { p with isr := p.isr ||| BitVec.twoPow 8 i }

/-- What the controller answers with for a line. In the other mode that is the
code of a call, and no vector. -/
def vector (p : Pic) (i : Nat) : Option U8 :=
  if p.mode.getLsbD 0 then some (p.base + BitVec.ofNat 8 i) else none

end Pic

structure Pair where
  master : Pic
  slave : Pic
deriving DecidableEq, Repr

namespace Pair

/-- A write to a port. -/
def outb (c : Pair) (port : U16) (value : U8) : Pair :=
  if port = 0x20 then { c with master := c.master.command value }
  else if port = 0x21 then { c with master := c.master.data value }
  else if port = 0xA0 then { c with slave := c.slave.command value }
  else if port = 0xA1 then { c with slave := c.slave.data value }
  else c

def outs (c : Pair) (ws : List (U16 × U8)) : Pair := ws.foldl (fun c w => c.outb w.1 w.2) c

/-- The answer to an acknowledge, for what the devices request then: a
controller that asks for nothing answers for its last line. The third word of
the slave is the line that it listens for, and none answers for another. -/
def acknowledge (c : Pair) (irr irr' : U8) : Pair × Option U8 :=
  match c.master.request irr with
  | none => (c, c.master.vector 7)
  | some i =>
    if c.master.cascade.getLsbD i then
      if c.slave.cascade &&& 7 = BitVec.ofNat 8 i then
        match c.slave.request irr' with
        | none => ({ c with master := c.master.serve i }, c.slave.vector 7)
        | some j => (⟨c.master.serve i, c.slave.serve j⟩, c.slave.vector j)
      else ({ c with master := c.master.serve i }, none)
    else ({ c with master := c.master.serve i }, c.master.vector i)

end Pair

/-! ## An idle controller -/

theorem request_lt {p : Pic} {irr : U8} {i : Nat} (h : p.request irr = some i) : i < 8 := by
  have hfirst := (Option.filter_eq_some_iff.mp h).1
  have hmem := List.mem_of_find?_eq_some hfirst
  simpa using hmem

/-- Line `i` is the first one that is requested. -/
structure First (irr : U8) (i : Nat) : Prop where
  lt : i < 8
  requested : irr.getLsbD i = true
  none_before : ∀ j < i, irr.getLsbD j = false

/-- With nothing in service and nothing masked, the first requested line is
asked for. -/
theorem request_of_idle {p : Pic} {irr : U8} (hisr : p.isr = 0) (himr : p.imr = 0) {i : Nat}
    (h : First irr i) : p.request irr = some i := by
  have hfirst : p.first irr = some i := by
    rw [Pic.first, List.find?_range_eq_some]
    refine ⟨by simp [hisr, himr, h.requested], by simpa using h.lt, fun j hj => ?_⟩
    simp [hisr, h.none_before j hj]
  simp [Pic.request, hfirst, hisr]

theorem eoi_idle {p : Pic} (hisr : p.isr = 0) : p.eoi = p := by
  unfold Pic.eoi
  rw [hisr]
  cases p
  exact congrArg (Pic.mk · _ _ _ _ _ _ _) hisr.symm

/-- A line that is served on its own is the one that the next end is for. -/
theorem eoi_serve {p : Pic} (hisr : p.isr = 0) {i : Nat} (hi : i < 8) : (p.serve i).eoi = p := by
  unfold Pic.serve
  split
  · exact eoi_idle hisr
  · have hclear : ∀ n < 8, (0 ||| BitVec.twoPow 8 n) &&& ((0 ||| BitVec.twoPow 8 n) - 1) = (0 : U8) := by
      decide
    unfold Pic.eoi
    dsimp only
    rw [hisr, hclear i hi]
    cases p
    exact congrArg (Pic.mk · _ _ _ _ _ _ _) hisr.symm

end Pic8259
