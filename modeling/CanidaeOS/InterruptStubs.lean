-- The stubs that every interrupt and exception enters the kernel by
-- (`interrupt_asm.s`), and what the processor does before the first and after
-- the last of their instructions. A handler is called with a pointer to an
-- `InterruptContext`, which is made of the words on the stack.
import CanidaeOS.SwitchThread
import CanidaeOS.PageWalk

open Machine

namespace X86

/-! ## A processor that can be interrupted -/

/-- What an interrupt saves and `iretq` brings back, and the rest of a
routine's state. -/
structure Core where
  regs : Reg → U64
  cr3 : U64
  mem : Memory
  rip : U64
  cs : U64
  ss : U64
  rflags : U64

namespace Core

/-- What the instructions of a routine see. -/
def cpu (k : Core) : Cpu := ⟨k.regs, k.cr3, k.rflags.getLsbD 6, k.mem⟩

/-- After instructions that set no flag. -/
def after (k : Core) (c : Cpu) : Core := { k with regs := c.regs, cr3 := c.cr3, mem := c.mem }

@[simp] theorem after_cpu (k : Core) : k.after k.cpu = k := rfl

@[simp] theorem after_after (k : Core) (c c' : Cpu) : (k.after c).after c' = k.after c' := rfl

theorem cpu_after {k : Core} {c : Cpu} (h : c.zf = k.cpu.zf) : (k.after c).cpu = c := by
  cases c
  exact congrArg (Cpu.mk _ _ · _) h.symm

def set (k : Core) (r : Reg) (v : U64) : Core := k.after (k.cpu.set r v)

@[simp] theorem set_mem (k : Core) (r : Reg) (v : U64) : (k.set r v).mem = k.mem := rfl

@[simp] theorem set_rflags (k : Core) (r : Reg) (v : U64) : (k.set r v).rflags = k.rflags := rfl

@[simp] theorem set_same (k : Core) (r : Reg) (v : U64) : (k.set r v).regs r = v := k.cpu.set_same r v

theorem set_other (k : Core) {r q : Reg} (v : U64) (h : q ≠ r) : (k.set r v).regs q = k.regs q :=
  k.cpu.set_other v h

def push (k : Core) (v : U64) : Core := k.after (k.cpu.push v)

end Core

/-- `w` with bit `i` as given. -/
def withBit (w : U64) (i : Nat) (b : Bool) : U64 :=
  if b then w ||| BitVec.twoPow 64 i else w &&& ~~~ BitVec.twoPow 64 i

@[simp] theorem getLsbD_withBit (w : U64) {i : Nat} (hi : i < 64) (b : Bool) (j : Nat) :
    (withBit w i b).getLsbD j = if j = i then b else w.getLsbD j := by
  unfold withBit
  by_cases hj : j < 64
  · by_cases hji : j = i
    · cases b <;> simp [hji, hi]
    · cases b <;> simp [hj, hji]
  · have h := BitVec.getLsbD_of_ge w j (by omega)
    have hji : ¬ i = j := by omega
    cases b <;> simp [hj, hji, Ne.symm hji, h]

/-! ## Rows of words -/

/-- Words pushed one after the other, the first one highest. -/
def pushWords (ws : List U64) (c : Cpu) : Cpu := ws.foldl Cpu.push c

structure PushedWords (ws : List U64) (c c' : Cpu) : Prop where
  rsp : c'.regs .rsp = below (c.regs .rsp) ws.length
  others : ∀ q, q ≠ .rsp → c'.regs q = c.regs q
  cr3 : c'.cr3 = c.cr3
  words : ∀ i (h : i < ws.length), load64 c'.mem (below (c.regs .rsp) (i + 1)) = ws[i]
  frame : ∀ x, ¬ InRange (below (c.regs .rsp) ws.length) (8 * ws.length) x → c'.mem x = c.mem x

theorem pushWords.spec {ws : List U64} (hlen : 8 * ws.length < 2 ^ 62) (c : Cpu) :
    PushedWords ws c (pushWords ws c) := by
  induction ws generalizing c with
  | nil => exact ⟨by simp [pushWords], fun _ _ => rfl, rfl, by simp, fun _ _ => rfl⟩
  | cons w ws ih =>
    rw [List.length_cons] at hlen
    obtain ⟨hrsp, hothers, hcr3, hwords, hframe⟩ := ih (by omega) (c.push w)
    have hsp : (c.push w).regs .rsp = c.regs .rsp - 8 := by simp [Cpu.push]
    rw [hsp] at hrsp hwords hframe
    refine ⟨?_, fun q hq => ?_, hcr3, fun i hi => ?_, fun x hx => ?_⟩
    · rw [List.length_cons, below_succ]
      exact hrsp
    · exact (hothers q hq).trans (c.set_other _ hq)
    · rw [below_succ]
      cases i with
      | zero =>
        -- the later words are below the first one
        have hkeep : load64 (pushWords ws (c.push w)).mem (c.regs .rsp - 8) =
            load64 (c.push w).mem (c.regs .rsp - 8) := by
          refine load64_congr fun x hx => hframe x ?_
          unfold InRange below at *
          bv_omega
        rw [below_zero]
        exact hkeep.trans (load64_store64 _ _ _)
      | succ i =>
        have hi' : i < ws.length := by simpa using hi
        exact hwords i hi'
    · rw [List.length_cons] at hx
      have hrest : ¬ InRange (below (c.regs .rsp - 8) ws.length) (8 * ws.length) x := by
        unfold InRange below at *
        bv_omega
      have hfirst : ¬ InRange (c.regs .rsp - 8) 8 x := by
        unfold InRange below at *
        bv_omega
      exact (hframe x hrest).trans (store64_frame _ _ _ hfirst)

theorem pushWords_append (ws vs : List U64) (c : Cpu) :
    pushWords (ws ++ vs) c = pushWords vs (pushWords ws c) := List.foldl_append

theorem pushWords_zf (ws : List U64) (c : Cpu) : (pushWords ws c).zf = c.zf := by
  induction ws generalizing c with
  | nil => rfl
  | cons w ws ih => exact ih (c.push w)

/-- A row of pushed registers is a row of their words. -/
theorem pushAll_eq {rs : List Reg} (hrs : .rsp ∉ rs) (c : Cpu) :
    pushAll rs c = pushWords (rs.map c.regs) c := by
  induction rs generalizing c with
  | nil => rfl
  | cons r rs ih =>
    have hr : Reg.rsp ∉ rs := fun hm => hrs (List.mem_cons_of_mem _ hm)
    have hsame : rs.map (c.push (c.regs r)).regs = rs.map c.regs := by
      refine List.map_congr_left fun q hq => c.set_other _ ?_
      intro he
      exact hr (he ▸ hq)
    change pushAll rs (c.push (c.regs r)) = pushWords (rs.map c.regs) (c.push (c.regs r))
    rw [ih hr, hsame]

/-! ## Entry and return -/

/-- The stack pointer that the processor starts from: aligned to 16 bytes. -/
def aligned (sp : U64) : U64 := sp &&& ~~~ 15

theorem aligned_toNat (sp : U64) : (aligned sp).toNat = sp.toNat - sp.toNat % 16 :=
  Paging.and_high_toNat sp 4 (by norm_num)

/-- The exceptions that the processor pushes an error code for: #DF, #TS, #NP, #SS,
#GP, #PF, #AC, #CP, #VC and #SX. -/
def errorVectors : List Nat := [8, 10, 11, 12, 13, 14, 17, 21, 29, 30]

/-- The exceptions that are always faults: #DE, #BR, #UD, #NM, #TS, #NP, #SS, #GP,
#PF, #MF, #AC, #XM, #VE, #CP and #VC. -/
def faultVectors : List Nat := [0, 5, 6, 7, 10, 11, 12, 13, 14, 16, 17, 19, 20, 21, 29]

/-- How an interrupt or an exception comes: its error code, if it has one, and
whether `RF` is set in the flags that the processor pushes. -/
structure Arrival where
  err : Option U64
  resume : Bool

/-- What comes on vector `v`. A fault sets `RF`. An interrupt does when it comes
in the middle of a repeated string instruction. -/
structure Arrival.On (a : Arrival) (v : Nat) : Prop where
  err : a.err.isSome = decide (v ∈ errorVectors)
  resume : v ∈ faultVectors → a.resume = true

/-- A device's interrupt comes without an error code. -/
theorem Arrival.on_line (resume : Bool) {v : Nat} (hv : 32 ≤ v) : (⟨none, resume⟩ : Arrival).On v := by
  have hnot : ∀ vectors : List Nat, (∀ n ∈ vectors, n < 32) → v ∉ vectors := by
    intro vectors hall hm
    exact absurd (hall v hm) (Nat.not_lt.mpr hv)
  refine ⟨?_, fun hm => absurd hm (hnot _ (by decide))⟩
  rw [decide_eq_false (hnot _ (by decide))]
  rfl

/-- The flags that the processor pushes. -/
def Arrival.flags (a : Arrival) (rflags : U64) : U64 :=
  if a.resume then withBit rflags 16 true else rflags

theorem Arrival.flags_resume {a : Arrival} (h : a.resume = true) (rflags : U64) :
    (a.flags rflags).getLsbD 16 = true := by
  rw [flags, if_pos h, getLsbD_withBit _ (by decide), if_pos rfl]

/-- An interrupt gate clears `IF`, and `TF`, `NT`, `RF` and `VM`. -/
def gateFlags (rflags : U64) : U64 :=
  withBit (withBit (withBit (withBit (withBit rflags 9 false) 8 false) 14 false) 16 false) 17 false

theorem gateFlags_bit (rflags : U64) {i : Nat} (hi : i ∉ [9, 8, 14, 16, 17]) :
    (gateFlags rflags).getLsbD i = rflags.getLsbD i := by
  simp only [List.mem_cons, List.not_mem_nil, or_false, not_or] at hi
  simp [gateFlags, hi]

theorem gateFlags_interrupts (rflags : U64) : (gateFlags rflags).getLsbD 9 = false := by
  unfold gateFlags
  iterate 4 rw [getLsbD_withBit _ (by decide), if_neg (by decide)]
  rw [getLsbD_withBit _ (by decide), if_pos rfl]

namespace Core

/-- The words that the processor pushes, with the error code of those
exceptions that have one. -/
def entryWords (k : Core) (err : Option U64) : List U64 :=
  [k.ss, k.regs .rsp, k.rflags, k.cs, k.rip] ++ err.toList

/-- The entry through an interrupt gate of the kernel's own privilege, which
names no other stack, with the flags of `k` as they are pushed. -/
def enter (k : Core) (cs rip : U64) (err : Option U64) : Core :=
  { (k.set .rsp (aligned (k.regs .rsp))).after
      (pushWords (k.entryWords err) (k.cpu.set .rsp (aligned (k.regs .rsp)))) with
    rip := rip, cs := cs, rflags := gateFlags k.rflags }

/-- The state that is pushed, and that `iretq` brings back. -/
def pushed (k : Core) (a : Arrival) : Core := { k with rflags := a.flags k.rflags }

/-- What the processor does when an interrupt or an exception comes. -/
def deliver (k : Core) (cs rip : U64) (a : Arrival) : Core := (k.pushed a).enter cs rip a.err

/-- `iretq` takes five words from the stack. -/
def iretq (k : Core) : Core :=
  let word i := load64 k.mem (k.regs .rsp + BitVec.ofNat 64 (8 * i))
  { k.set .rsp (word 3) with rip := word 0, cs := word 1, rflags := word 2, ss := word 4 }

end Core

/-! ## Stubs -/

inductive Handler where
  | fault_handler
  | interrupt_handler
deriving DecidableEq, Repr

inductive StubInstr where
  | push (r : Reg)
  | pop (r : Reg)
  /-- `push byte n`, which widens `n` with its sign -/
  | pushByte (n : U8)
  | mov (dst src : Reg)
  | movImm (dst : Reg) (v : U64)
  | addImm (dst : Reg) (v : U64)
  | cld
  | call (f : Handler)
  | iretq
deriving DecidableEq, Repr

/-- The flags that `add` sets, for operands `a` and `b`. -/
def addFlags (rflags a b : U64) : U64 :=
  let sum := a + b
  let parity := ((List.range 8).countP fun i => sum.getLsbD i) % 2 == 0
  let carry := decide (2 ^ 64 ≤ a.toNat + b.toNat)
  let adjust := decide (16 ≤ a.toNat % 16 + b.toNat % 16)
  let overflow := a.msb == b.msb && sum.msb != a.msb
  withBit (withBit (withBit (withBit (withBit (withBit rflags 0 carry) 2 parity) 4 adjust) 6
    (sum == 0)) 7 sum.msb) 11 overflow

/-- An instruction that stays in the stub. `rip` is not followed there. -/
def Core.exec (k : Core) : StubInstr → Core
  | .push r => k.push (k.regs r)
  | .pop r => k.after (k.cpu.pop r)
  | .pushByte n => k.push (n.signExtend 64)
  | .mov dst src => k.set dst (k.regs src)
  | .movImm dst v => k.set dst v
  | .addImm dst v => { k.set dst (k.regs dst + v) with rflags := addFlags k.rflags (k.regs dst) v }
  | .cld => { k with rflags := withBit k.rflags 10 false }
  | .call _ | .iretq => k

/-- How a stub is left: for a handler, with the code after the call, or for
the code that was interrupted. -/
inductive Exit where
  | called (f : Handler) (rest : List StubInstr) (k : Core)
  | returned (k : Core)

/-- The run of a stub's code. `back` is the address of the code after the
call, which the call pushes. -/
def Core.run (back : U64) : List StubInstr → Core → Option Exit
  | [], _ => none
  | .call f :: rest, k => some (.called f rest (k.push back))
  | .iretq :: _, k => some (.returned k.iretq)
  | i :: rest, k => Core.run back rest (k.exec i)

end X86

open X86

namespace lobo

def interrupt_saveregs : List StubInstr :=
  [.push .rax, .push .rcx, .push .rdx, .push .rbx, .push .rbp, .push .rsi, .push .rdi,
   .push .r8, .push .r9, .push .r10, .push .r11, .push .r12, .push .r13, .push .r14, .push .r15]

def interrupt_loadregs : List StubInstr :=
  [.pop .r15, .pop .r14, .pop .r13, .pop .r12, .pop .r11, .pop .r10, .pop .r9, .pop .r8,
   .pop .rdi, .pop .rsi, .pop .rbp, .pop .rbx, .pop .rdx, .pop .rcx, .pop .rax]

/-- What both common parts do after the call. -/
def leave : List StubInstr := interrupt_loadregs ++ [.addImm .rsp 16, .iretq]

def isr_common : List StubInstr :=
  interrupt_saveregs ++ [.mov .rdi .rsp, .movImm .rbp 0, .cld, .call .fault_handler] ++ leave

def irq_common : List StubInstr :=
  interrupt_saveregs ++ [.mov .rdi .rsp, .movImm .rbp 0, .cld, .call .interrupt_handler] ++ leave

def isr_handler (n : U8) : List StubInstr := [.pushByte 0, .pushByte n] ++ isr_common

/-- The processor has pushed an error code. -/
def isr_handler_error (n : U8) : List StubInstr := [.pushByte n] ++ isr_common

def irq_handler (n : U8) : List StubInstr := [.pushByte 0, .pushByte n] ++ irq_common

/-- `interrupt_isr0` to `interrupt_isr31`, then `interrupt_irq0` to
`interrupt_irq15`. -/
def stubs : List (List StubInstr) :=
  [isr_handler 0, isr_handler 1, isr_handler 2, isr_handler 3, isr_handler 4, isr_handler 5,
   isr_handler 6, isr_handler 7, isr_handler_error 8, isr_handler 9, isr_handler_error 10,
   isr_handler_error 11, isr_handler_error 12, isr_handler_error 13, isr_handler_error 14,
   isr_handler 15, isr_handler 16, isr_handler_error 17, isr_handler 18, isr_handler 19,
   isr_handler 20, isr_handler_error 21, isr_handler 22, isr_handler 23, isr_handler 24,
   isr_handler 25, isr_handler 26, isr_handler 27, isr_handler 28, isr_handler 29,
   isr_handler_error 30, isr_handler 31,
   irq_handler 32, irq_handler 33, irq_handler 34, irq_handler 35, irq_handler 36, irq_handler 37,
   irq_handler 38, irq_handler 39, irq_handler 40, irq_handler 41, irq_handler 42, irq_handler 43,
   irq_handler 44, irq_handler 45, irq_handler 46, irq_handler 47]

def stub (v : Nat) : List StubInstr := stubs.getD v []

/-- The exceptions whose stubs leave the error code to the processor. -/
def errorStubs : List Nat := [8, 10, 11, 12, 13, 14, 17, 21, 30]

/-- The stubs know all of the processor's but #VC, where they push a second error
code. -/
theorem mem_errorStubs_iff {v : Nat} (hv : v ≠ 29) : v ∈ errorStubs ↔ v ∈ errorVectors := by
  simp [errorStubs, errorVectors, hv]

def handlerOf (v : Nat) : Handler := if v < 32 then .fault_handler else .interrupt_handler

/-- `InterruptContext` (`interrupts.h`). -/
structure InterruptContext where
  r15 : U64
  r14 : U64
  r13 : U64
  r12 : U64
  r11 : U64
  r10 : U64
  r9 : U64
  r8 : U64
  rdi : U64
  rsi : U64
  rbp : U64
  rbx : U64
  rdx : U64
  rcx : U64
  rax : U64
  int_no : U64
  err_code : U64
  rip : U64
  cs : U64
  eflags : U64
  userrsp : U64
  ss : U64
deriving DecidableEq

/-- The structure at an address: its fields are 22 words, in order. -/
def InterruptContext.read (m : Memory) (r : U64) : InterruptContext :=
  let word i := load64 m (r + BitVec.ofNat 64 (8 * i))
  ⟨word 0, word 1, word 2, word 3, word 4, word 5, word 6, word 7, word 8, word 9, word 10, word 11,
   word 12, word 13, word 14, word 15, word 16, word 17, word 18, word 19, word 20, word 21⟩

/-- What the handler of interrupt `v` should be told of the state that was
interrupted. -/
def interruptContext (k : Core) (v : Nat) (err : U64) : InterruptContext where
  r15 := k.regs .r15
  r14 := k.regs .r14
  r13 := k.regs .r13
  r12 := k.regs .r12
  r11 := k.regs .r11
  r10 := k.regs .r10
  r9 := k.regs .r9
  r8 := k.regs .r8
  rdi := k.regs .rdi
  rsi := k.regs .rsi
  rbp := k.regs .rbp
  rbx := k.regs .rbx
  rdx := k.regs .rdx
  rcx := k.regs .rcx
  rax := k.regs .rax
  int_no := BitVec.ofNat 64 v
  err_code := err
  rip := k.rip
  cs := k.cs
  eflags := k.rflags
  userrsp := k.regs .rsp
  ss := k.ss

/-! ## The way in -/

theorem run_pushes (rs : List Reg) (back : U64) (code : List StubInstr) (k : Core) :
    Core.run back (rs.map .push ++ code) k = Core.run back code (k.after (pushAll rs k.cpu)) := by
  induction rs generalizing k with
  | nil => rfl
  | cons r rs ih =>
    have hcpu : (k.push (k.regs r)).cpu = k.cpu.push (k.regs r) := Core.cpu_after rfl
    change Core.run back (rs.map .push ++ code) (k.push (k.regs r)) = _
    rw [ih, hcpu]
    rfl

theorem run_pops (rs : List Reg) (back : U64) (code : List StubInstr) (k : Core) :
    Core.run back (rs.map .pop ++ code) k = Core.run back code (k.after (popAll rs k.cpu)) := by
  induction rs generalizing k with
  | nil => rfl
  | cons r rs ih =>
    have hcpu : (k.after (k.cpu.pop r)).cpu = k.cpu.pop r := Core.cpu_after rfl
    change Core.run back (rs.map .pop ++ code) (k.after (k.cpu.pop r)) = _
    rw [ih, hcpu]
    rfl

/-- The two common parts, and what comes before them. -/
theorem stub_eq {v : Nat} (hv : v < 48) : stub v =
    (if v ∈ errorStubs then [] else [.pushByte 0]) ++ .pushByte (BitVec.ofNat 8 v) ::
      (savedRegs.map .push ++ [.mov .rdi .rsp, .movImm .rbp 0, .cld, .call (handlerOf v)] ++
        (savedRegs.reverse.map .pop ++ [.addImm .rsp 16, .iretq])) := by
  revert v
  decide

/-- The words of an `InterruptContext`, the last field first. -/
def frameWords (k : Core) (v : Nat) (err : U64) : List U64 :=
  [k.ss, k.regs .rsp, k.rflags, k.cs, k.rip, err, BitVec.ofNat 64 v] ++ savedRegs.map k.regs

/-- Where the `InterruptContext` of an interrupted state is put. -/
def frameBase (k : Core) : U64 := below (aligned (k.regs .rsp)) 22

/-- The frame of an interrupt, with the handler's return address below it. -/
structure Framed (m : Memory) (k : Core) (v : Nat) (err back : U64) : Prop where
  words : ∀ i < 22, load64 m (frameBase k + BitVec.ofNat 64 (8 * i)) =
    (frameWords k v err).reverse.getD i 0
  back : load64 m (frameBase k - 8) = back

/-- The state that the handler of interrupt `v` starts in. -/
structure Entered (k : Core) (v : Nat) (err back : U64) (k' : Core) : Prop where
  rdi : k'.regs .rdi = frameBase k
  rsp : k'.regs .rsp = frameBase k - 8
  rbp : k'.regs .rbp = 0
  cr3 : k'.cr3 = k.cr3
  framed : Framed k'.mem k v err back
  interrupts : k'.rflags.getLsbD 9 = false
  direction : k'.rflags.getLsbD 10 = false
  frame : ∀ x, ¬ InRange (frameBase k - 8) 184 x → k'.mem x = k.mem x

theorem frameWords_length (k : Core) (v : Nat) (err : U64) : (frameWords k v err).length = 22 := rfl

/-- A gate clears no flag that `je` looks at. -/
theorem enter_cpu (k : Core) (cs rip : U64) (err : Option U64) : (k.enter cs rip err).cpu =
    pushWords (k.entryWords err) (k.cpu.set .rsp (aligned (k.regs .rsp))) := by
  have hzf := pushWords_zf (k.entryWords err) (k.cpu.set .rsp (aligned (k.regs .rsp)))
  unfold Core.enter
  generalize pushWords (k.entryWords err) (k.cpu.set .rsp (aligned (k.regs .rsp))) = c at *
  cases c
  exact congrArg (Cpu.mk _ _ · _) ((gateFlags_bit _ (by decide)).trans hzf.symm)

/-- The stub's own words: an error code where the processor pushes none, and
the number. -/
theorem run_numbers {v : Nat} (hv : v < 48) {err : Option U64}
    (herr : err.isSome = decide (v ∈ errorStubs)) (back cs rip : U64) (code : List StubInstr)
    (k : Core) :
    Core.run back ((if v ∈ errorStubs then [] else [.pushByte 0]) ++
      .pushByte (BitVec.ofNat 8 v) :: code) (k.enter cs rip err) =
    Core.run back code ((k.enter cs rip err).after
      (pushWords [k.ss, k.regs .rsp, k.rflags, k.cs, k.rip, err.getD 0, BitVec.ofNat 64 v]
        (k.cpu.set .rsp (aligned (k.regs .rsp))))) := by
  have hwide : ∀ n < 48, (BitVec.ofNat 8 n).signExtend 64 = BitVec.ofNat 64 n := by decide
  have hcpu := enter_cpu k cs rip err
  have hpush : ∀ w, (k.enter cs rip err).push w = (k.enter cs rip err).after
      (pushWords (k.entryWords err ++ [w]) (k.cpu.set .rsp (aligned (k.regs .rsp)))) := by
    intro w
    rw [pushWords_append, ← hcpu]
    rfl
  cases err with
  | some e =>
    have hmem : v ∈ errorStubs := by simpa using herr
    rw [if_pos hmem]
    change Core.run back code ((k.enter cs rip (some e)).push _) = _
    rw [hpush, hwide v hv]
    rfl
  | none =>
    have hmem : v ∉ errorStubs := by simpa using herr
    have hcpu' : ((k.enter cs rip none).push 0).cpu =
        pushWords (k.entryWords none ++ [0]) (k.cpu.set .rsp (aligned (k.regs .rsp))) := by
      rw [hpush]
      exact Core.cpu_after ((pushWords_zf _ _).trans (by rw [hcpu, pushWords_zf]))
    rw [if_neg hmem]
    change Core.run back code (((k.enter cs rip none).push 0).push _) = _
    rw [Core.push, hcpu', hwide v hv, hpush]
    rfl

/-- The words below the aligned stack pointer. -/
def pushedFrame (k : Core) (v : Nat) (err : U64) : Cpu :=
  pushWords (frameWords k v err) (k.cpu.set .rsp (aligned (k.regs .rsp)))

theorem pushedFrame.spec (k : Core) (v : Nat) (err : U64) :
    PushedWords (frameWords k v err) (k.cpu.set .rsp (aligned (k.regs .rsp))) (pushedFrame k v err) :=
  pushWords.spec (by rw [frameWords_length]; norm_num) _

/-- Every register but the stack pointer is pushed as it was. -/
theorem pushed_registers (k : Core) (v : Nat) (err : U64) :
    pushAll savedRegs (pushWords [k.ss, k.regs .rsp, k.rflags, k.cs, k.rip, err, BitVec.ofNat 64 v]
      (k.cpu.set .rsp (aligned (k.regs .rsp)))) = pushedFrame k v err := by
  rw [pushAll_eq (by decide), pushedFrame, frameWords, pushWords_append]
  rfl

/-- What is left to do after the registers are pushed. -/
def callHandler (back : U64) (k : Core) : Core :=
  (((k.exec (.mov .rdi .rsp)).exec (.movImm .rbp 0)).exec .cld).push back

theorem callHandler.spec {k₀ k : Core} {v : Nat} {err back : U64}
    (hregs : k.regs = (pushedFrame k₀ v err).regs) (hmem : k.mem = (pushedFrame k₀ v err).mem)
    (hcr3 : k.cr3 = k₀.cr3) (hflags : k.rflags = gateFlags k₀.rflags) : Entered k₀ v err back (callHandler back k) := by
  have hpushed := pushedFrame.spec k₀ v err
  have hsp : k.regs .rsp = frameBase k₀ := by
    rw [hregs, hpushed.rsp, Cpu.set_same]
    rfl
  have hmem' : (callHandler back k).mem = store64 k.mem (frameBase k₀ - 8) back := by
    rw [← hsp]
    rfl
  have hframe := hpushed.frame
  rw [Cpu.set_same, frameWords_length] at hframe
  refine ⟨hsp, ?_, rfl, hcr3, ⟨fun i hi => ?_, ?_⟩, ?_, ?_, fun x hx => ?_⟩
  · rw [← hsp]
    rfl
  · have hplace : frameBase k₀ + BitVec.ofNat 64 (8 * i) =
        below (aligned (k₀.regs .rsp)) (21 - i + 1) := by
      unfold frameBase below
      bv_omega
    have hword := hpushed.words (21 - i) (by rw [frameWords_length]; omega)
    rw [Cpu.set_same] at hword
    -- the return address is below the frame
    rw [hplace, hmem', load64_store64_apart _ _ fun x hx hx' => ?_, hmem, hword, List.getD_eq_getElem,
      List.getElem_reverse]
    · rfl
    · rw [List.length_reverse]
      exact hi
    · unfold InRange frameBase below at *
      bv_omega
  · rw [hmem', load64_store64]
  · have hbit : (callHandler back k).rflags.getLsbD 9 = k.rflags.getLsbD 9 := by
      change (withBit k.rflags 10 false).getLsbD 9 = _
      rw [getLsbD_withBit _ (by decide), if_neg (by decide)]
    rw [hbit, hflags]
    exact gateFlags_interrupts _
  · change (withBit k.rflags 10 false).getLsbD 10 = false
    rw [getLsbD_withBit _ (by decide), if_pos rfl]
  · rw [hmem', store64_frame _ _ _ fun hx' => ?_, hmem, hframe x fun hx' => ?_]
    · rfl
    · apply hx
      unfold InRange frameBase below at *
      bv_omega
    · apply hx
      unfold InRange frameBase below at *
      bv_omega

theorem stub.spec (k : Core) {v : Nat} (hv : v < 48) {err : Option U64}
    (herr : err.isSome = decide (v ∈ errorStubs)) (cs rip back : U64) :
    ∃ k', Core.run back (stub v) (k.enter cs rip err) = some (.called (handlerOf v) leave k') ∧
      Entered k v (err.getD 0) back k' := by
  have hrow := pushed_registers k v (err.getD 0)
  generalize hc : pushWords [k.ss, k.regs .rsp, k.rflags, k.cs, k.rip, err.getD 0,
    BitVec.ofNat 64 v] (k.cpu.set .rsp (aligned (k.regs .rsp))) = c at hrow
  have hcpu : ((k.enter cs rip err).after c).cpu = c := by
    apply Core.cpu_after
    rw [← hc, pushWords_zf, enter_cpu, pushWords_zf]
  have hcr3 : (pushedFrame k v (err.getD 0)).cr3 = k.cr3 := (pushedFrame.spec k v (err.getD 0)).cr3
  refine ⟨callHandler back ((k.enter cs rip err).after (pushedFrame k v (err.getD 0))), ?_,
    callHandler.spec rfl rfl hcr3 rfl⟩
  rw [stub_eq hv, run_numbers hv herr, hc, List.append_assoc, run_pushes, hcpu, hrow]
  rfl

/-! ## The way out -/

/-- The structure that the handler reads is the state that was interrupted. -/
theorem Framed.read {m : Memory} {k : Core} {v : Nat} {err back : U64} (h : Framed m k v err back) :
    InterruptContext.read m (frameBase k) = interruptContext k v err := by
  simp (disch := decide) only [InterruptContext.read, h.words]
  rfl

/-- Popping the registers of a frame gives them all back but the stack
pointer, which is left at the number. -/
theorem Framed.popped {m : Memory} {k₀ : Core} {v : Nat} {err back : U64}
    (h : Framed m k₀ v err back) {c c' : Cpu} (hmem : c.mem = m) (hsp : c.regs .rsp = frameBase k₀)
    (hpop : Popped savedRegs.reverse c c') :
    c'.regs .rsp = frameBase k₀ + 120 ∧ ∀ q, q ≠ .rsp → c'.regs q = k₀.regs q := by
  refine ⟨?_, fun q hq => ?_⟩
  · rw [hpop.rsp, hsp]
    rfl
  · obtain ⟨i, hi, hqi⟩ := List.getElem_of_mem (List.mem_reverse.mpr (mem_savedRegs hq))
    have hi15 : i < 15 := hi
    have hrev : (frameWords k₀ v err).reverse = savedRegs.reverse.map k₀.regs ++
        [BitVec.ofNat 64 v, err, k₀.rip, k₀.cs, k₀.rflags, k₀.regs .rsp, k₀.ss] := rfl
    have hword := hpop.regs i hi
    rw [hqi, hsp, hmem, h.words i (by omega), hrev, List.getD_append _ _ _ _ (by simpa using hi),
      List.getD_eq_getElem _ _ (by simpa using hi), List.getElem_map, hqi] at hword
    exact hword

/-- The common part puts back everything that was interrupted. Only memory and
the page directory are the handler's. -/
theorem leave.spec {k k₀ : Core} {v : Nat} {err back : U64} (h : Framed k.mem k₀ v err back)
    (hsp : k.regs .rsp = frameBase k₀) (back' : U64) :
    Core.run back' leave k = some (.returned { k₀ with cr3 := k.cr3, mem := k.mem }) := by
  have hpop : Popped savedRegs.reverse k.cpu (popAll savedRegs.reverse k.cpu) :=
    popAll.spec (by decide) (by decide) k.cpu
  obtain ⟨hrsp, hregs⟩ := h.popped rfl hsp hpop
  generalize hc : popAll savedRegs.reverse k.cpu = c at *
  obtain ⟨k', hk'⟩ : ∃ k', k' = (k.after c).exec (.addImm .rsp 16) := ⟨_, rfl⟩
  have hmem : k'.mem = k.mem := by
    rw [hk']
    exact hpop.mem
  have hsp' : k'.regs .rsp = frameBase k₀ + 136 := by
    have : k'.regs .rsp = c.regs .rsp + 16 := by
      rw [hk']
      exact (k.after c).set_same .rsp _
    rw [this, hrsp]
    bv_omega
  have hword : ∀ i < 5, load64 k'.mem (k'.regs .rsp + BitVec.ofNat 64 (8 * i)) =
      [k₀.rip, k₀.cs, k₀.rflags, k₀.regs .rsp, k₀.ss].getD i 0 := by
    intro i hi
    have hplace : frameBase k₀ + 136 + BitVec.ofNat 64 (8 * i) =
        frameBase k₀ + BitVec.ofNat 64 (8 * (17 + i)) := by
      bv_omega
    rw [hmem, hsp', hplace, h.words _ (by omega)]
    interval_cases i <;> rfl
  have hrun : Core.run back' leave k = some (.returned k'.iretq) := by
    have hleave : leave = savedRegs.reverse.map .pop ++ [.addImm .rsp 16, .iretq] := rfl
    rw [hleave, run_pops, hc, hk']
    rfl
  have hothers : ∀ q, q ≠ .rsp → k'.regs q = k₀.regs q := by
    intro q hq
    rw [hk', ← hregs q hq]
    exact (k.after c).set_other _ hq
  have hcr3 : k'.cr3 = k.cr3 := by
    rw [hk']
    exact hpop.cr3
  have hback : (k'.iretq).regs = k₀.regs := by
    funext q
    by_cases hq : q = .rsp
    · subst hq
      exact (k'.set_same .rsp _).trans (hword 3 (by omega))
    · exact (k'.set_other _ hq).trans (hothers q hq)
  have h0 := hword 0 (by omega)
  have h1 := hword 1 (by omega)
  have h2 := hword 2 (by omega)
  have h4 := hword 4 (by omega)
  rw [hrun, ← hback, ← hcr3, ← hmem]
  simp only [Core.iretq, h0, h1, h2, h4]
  rfl

/-! ## The law of an entry -/

/-- The stub of what comes on vector `v`. -/
theorem stub.delivered (k : Core) {v : Nat} (hv : v < 48) (hvc : v ≠ 29) {a : Arrival} (ha : a.On v)
    (cs rip back : U64) :
    ∃ k', Core.run back (stub v) (k.deliver cs rip a) = some (.called (handlerOf v) leave k') ∧
      Entered (k.pushed a) v (a.err.getD 0) back k' := by
  have herr : a.err.isSome = decide (v ∈ errorStubs) :=
    ha.err.trans (decide_eq_decide.mpr (mem_errorStubs_iff hvc).symm)
  exact stub.spec (k.pushed a) hv herr cs rip back

/-- An interrupt or exception that comes through its stub, whatever it
interrupts, calls its handler with the address of a structure that holds the
interrupted registers and instruction, the flags, in which a fault has set
`RF`, its number, and its error code if it has one. The stack is aligned as
the handler expects, string instructions go up, interrupts are off, and no
byte has changed but some of the 199 below the interrupted stack pointer. The
stub of #VC is the one that does not know of its error code. -/
theorem the_handler_is_told_what_was_interrupted (k : Core) {v : Nat} (hv : v < 48) (hvc : v ≠ 29)
    {a : Arrival} (ha : a.On v) (cs rip back : U64) :
    ∃ k', Core.run back (stub v) (k.deliver cs rip a) = some (.called (handlerOf v) leave k') ∧
      InterruptContext.read k'.mem (k'.regs .rdi) =
        { interruptContext k v (a.err.getD 0) with eflags := a.flags k.rflags } ∧
      (v ∈ faultVectors → (a.flags k.rflags).getLsbD 16 = true) ∧
      (k'.regs .rsp + 8).toNat % 16 = 0 ∧ k'.regs .rbp = 0 ∧ k'.cr3 = k.cr3 ∧
      k'.rflags.getLsbD 9 = false ∧ k'.rflags.getLsbD 10 = false ∧
      ∀ x, ¬ InRange (k.regs .rsp - 199) 199 x → k'.mem x = k.mem x := by
  obtain ⟨k', hrun, h⟩ := stub.delivered k hv hvc ha cs rip back
  have hrsp : (k.pushed a).regs .rsp = k.regs .rsp := rfl
  have halign := aligned_toNat (k.regs .rsp)
  refine ⟨k', hrun, ?_, fun hfault => Arrival.flags_resume (ha.resume hfault) _, ?_, h.rbp, h.cr3,
    h.interrupts, h.direction, fun x hx => h.frame x ?_⟩
  · rw [h.rdi]
    exact h.framed.read
  · rw [h.rsp]
    unfold frameBase below
    rw [hrsp]
    bv_omega
  · intro hx'
    apply hx
    unfold frameBase below at hx'
    rw [hrsp] at hx'
    unfold InRange at *
    bv_omega

/-- A write to a page that is not there, with `RF` clear. -/
def faulting : Core := ⟨fun _ => 0x7008, 0x1000, fun _ => 0, 0x100123, 0x08, 0x10, 0x602⟩

def pageFault : Arrival := ⟨some 2, true⟩

theorem pageFault_on : pageFault.On 14 := ⟨rfl, fun _ => rfl⟩

theorem the_handler_is_told_what_was_interrupted_of_a_page_fault :
    ∃ k', Core.run 0x200000 (stub 14) (faulting.deliver 0x08 0x300000 pageFault) =
        some (.called .fault_handler leave k') ∧
      InterruptContext.read k'.mem (k'.regs .rdi) =
        { interruptContext faulting 14 2 with eflags := 0x10602 } ∧
      (14 ∈ faultVectors → (pageFault.flags 0x602).getLsbD 16 = true) ∧
      (k'.regs .rsp + 8).toNat % 16 = 0 ∧ k'.regs .rbp = 0 ∧ k'.cr3 = faulting.cr3 ∧
      k'.rflags.getLsbD 9 = false ∧ k'.rflags.getLsbD 10 = false ∧
      ∀ x, ¬ InRange (faulting.regs .rsp - 199) 199 x → k'.mem x = faulting.mem x :=
  the_handler_is_told_what_was_interrupted faulting (by decide) (by decide) pageFault_on 0x08 0x300000
    0x200000

end lobo
