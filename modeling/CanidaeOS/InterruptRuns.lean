-- Threads that are interrupted at any point, handlers that are interrupted
-- themselves, and a switch to another thread in the middle of a handler, as
-- the timer's does. Every interrupted state is kept on its thread's stack
-- until its handler returns.
import CanidaeOS.InterruptStubs

open Machine X86 Runs

namespace lobo.interrupts

/-- An interrupt whose handler has not returned, with the state that it pushed. -/
structure Pending where
  core : Core
  vector : Nat
  err : U64

/-- The bytes of the frame, and of the return address below it. -/
def Pending.Bytes (p : Pending) (x : U64) : Prop := InRange (frameBase p.core - 8) 184 x

/-- `back f` is the address of the code after the call of handler `f`. -/
def Pending.Kept (back : Handler → U64) (p : Pending) (m : Memory) : Prop :=
  Framed m p.core p.vector p.err (back (handlerOf p.vector))

variable {ι : Type} [DecidableEq ι]

/-- The processor, the thread that runs on it, where each other thread called
`switch_thread`, and the interrupts that each thread has to come back from,
the last one first. -/
structure World (ι : Type) where
  core : Core
  current : ι
  contexts : ι → Option Context
  pending : ι → List Pending

def World.threads (w : World ι) : Threads ι := ⟨w.core.cpu, w.current, w.contexts⟩

inductive Event (ι : Type) where
  | work
  | interrupt (v : Nat) (a : Arrival)
  | switch (new : ι)
  | done

/-- The `n` bytes below the stack pointer are on the running thread's stack,
below the frames that it has to come back to. -/
def Free (l : Layout ι) (w : World ι) (n : Nat) : Prop :=
  ∀ x, InRange (w.core.regs .rsp - BitVec.ofNat 64 n) n x →
    InRange (l.stack w.current) (l.size w.current) x ∧
      ∀ p ∈ w.pending w.current, ¬ p.Bytes x

/-- After the `ret` of a handler. -/
def ret (k : Core) : Core := { k.set .rsp (k.regs .rsp + 8) with rip := k.cpu.top }

/-- The compiled code of a thread or of a handler does what it likes but for
the stacks of other threads, where their stacks end, and the frames on its own
stack that are not its own. -/
inductive Step (l : Layout ι) (back : Handler → U64) : World ι → Event ι → World ι → Prop
  | work {w : World ι} {k : Core} :
      (∀ t, t ≠ w.current → ∀ x, InRange (l.stack t) (l.size t) x → k.mem x = w.core.mem x) →
      (∀ t, t ≠ w.current → ∀ x, InRange (l.tcb t) 8 x → k.mem x = w.core.mem x) →
      (∀ p ∈ w.pending w.current, ∀ x, p.Bytes x → k.mem x = w.core.mem x) →
      Step l back w .work { w with core := k }
  | interrupt {w : World ι} {v : Nat} {a : Arrival} {cs rip : U64} {rest : List StubInstr}
      {k : Core} : v < 48 → a.err.isSome = decide (v ∈ errorStubs) →
      (32 ≤ v → w.core.rflags.getLsbD 9 = true) → Free l w 199 →
      Core.run (back (handlerOf v)) (stub v) (w.core.deliver cs rip a) =
        some (.called (handlerOf v) rest k) →
      Step l back w (.interrupt v a)
        { w with
          core := k
          pending := fun t => if t = w.current then ⟨w.core.pushed a, v, a.err.getD 0⟩ :: w.pending t
            else w.pending t }
  | switch {w : World ι} {new : ι} {rip : U64} {c : Cpu} : Calls l w.threads new → Free l w 120 →
      X86.run 0 switch_thread w.core.cpu = some (rip, c) →
      Step l back w (.switch new)
        { core := { w.core.after c with rip := rip }
          current := new
          contexts := fun t => if t = w.current then some (contextOf w.core.cpu) else w.contexts t
          pending := w.pending }
  | done {w : World ι} {p : Pending} {ps : List Pending} {k : Core} : w.pending w.current = p :: ps →
      w.core.regs .rsp = frameBase p.core - 8 → (ret w.core).rip = back (handlerOf p.vector) →
      Core.run (back (handlerOf p.vector)) leave (ret w.core) = some (.returned k) →
      Step l back w .done
        { w with core := k, pending := fun t => if t = w.current then ps else w.pending t }

/-! ## What every step keeps -/

/-- A thread on the first of two stacks, with interrupts on. -/
def running : World Bool where
  core := ⟨callRegs false, 0x1000, fun _ => 0, 0x100000, 0x08, 0x10, 0x202⟩
  current := false
  contexts _ := none
  pending _ := []

end lobo.interrupts
