-- The x86-64 instructions that a switch routine is made of, over registers,
-- flags, `cr3` and a flat memory. A routine is a list of instructions that
-- ends in `ret`, and its jumps go forward.
import CanidaeOS.Memory

open Machine

namespace X86

inductive Reg where
  | rax | rcx | rdx | rbx | rsp | rbp | rsi | rdi
  | r8 | r9 | r10 | r11 | r12 | r13 | r14 | r15
deriving DecidableEq, Repr

structure Cpu where
  regs : Reg → U64
  cr3 : U64
  zf : Bool
  mem : Memory

inductive Instr where
  | push (r : Reg)
  | pop (r : Reg)
  /-- `mov [base + offset], src` -/
  | store (base : Reg) (offset : U64) (src : Reg)
  /-- `mov dst, [base + offset]` -/
  | load (dst base : Reg) (offset : U64)
  /-- `mov dst, cr3` -/
  | readCr3 (dst : Reg)
  /-- `mov cr3, src` -/
  | writeCr3 (src : Reg)
  | cmp (a b : Reg)
  /-- a jump over the next `n` instructions when the last `cmp` was equal -/
  | je (n : Nat)
  | ret
deriving DecidableEq, Repr

namespace Cpu

def set (c : Cpu) (r : Reg) (v : U64) : Cpu :=
  { c with regs := fun q => if q = r then v else c.regs q }

@[simp] theorem set_mem (c : Cpu) (r : Reg) (v : U64) : (c.set r v).mem = c.mem := rfl

@[simp] theorem set_cr3 (c : Cpu) (r : Reg) (v : U64) : (c.set r v).cr3 = c.cr3 := rfl

@[simp] theorem set_same (c : Cpu) (r : Reg) (v : U64) : (c.set r v).regs r = v := by simp [set]

theorem set_other (c : Cpu) {r q : Reg} (v : U64) (h : q ≠ r) : (c.set r v).regs q = c.regs q := by
  simp [set, h]

/-- The word at the top of the stack. -/
def top (c : Cpu) : U64 := load64 c.mem (c.regs .rsp)

def push (c : Cpu) (v : U64) : Cpu :=
  { c.set .rsp (c.regs .rsp - 8) with mem := store64 c.mem (c.regs .rsp - 8) v }

def pop (c : Cpu) (r : Reg) : Cpu := (c.set .rsp (c.regs .rsp + 8)).set r c.top

/-- An instruction that does not jump. -/
def exec (c : Cpu) : Instr → Cpu
  | .push r => c.push (c.regs r)
  | .pop r => c.pop r
  | .store base offset src => { c with mem := store64 c.mem (c.regs base + offset) (c.regs src) }
  | .load dst base offset => c.set dst (load64 c.mem (c.regs base + offset))
  | .readCr3 dst => c.set dst c.cr3
  | .writeCr3 src => { c with cr3 := c.regs src }
  | .cmp a b => { c with zf := c.regs a == c.regs b }
  | .je _ | .ret => c

end Cpu

/-- The run of a routine: the address that its `ret` goes to, and the state
then. The first `skip` instructions are jumped over. -/
def run (skip : Nat) : List Instr → Cpu → Option (U64 × Cpu)
  | [], _ => none
  | i :: code, c =>
    match skip with
    | n + 1 => run n code c
    | 0 =>
      match i with
      | .ret => some (c.top, c.set .rsp (c.regs .rsp + 8))
      | .je n => run (if c.zf = true then n else 0) code c
      | i => run 0 code (c.exec i)

/-! ## Rows of pushes and pops -/

def pushAll (rs : List Reg) (c : Cpu) : Cpu := rs.foldl (fun c r => c.exec (.push r)) c

def popAll (rs : List Reg) (c : Cpu) : Cpu := rs.foldl (fun c r => c.exec (.pop r)) c

theorem run_pushes (rs : List Reg) (code : List Instr) (c : Cpu) :
    run 0 (rs.map .push ++ code) c = run 0 code (pushAll rs c) := by
  induction rs generalizing c with
  | nil => rfl
  | cons r rs ih => exact ih _

theorem run_pops (rs : List Reg) (code : List Instr) (c : Cpu) :
    run 0 (rs.map .pop ++ code) c = run 0 code (popAll rs c) := by
  induction rs generalizing c with
  | nil => rfl
  | cons r rs ih => exact ih _

/-- The word `n` words below `a`. -/
def below (a : U64) (n : Nat) : U64 := a - BitVec.ofNat 64 (8 * n)

@[simp] theorem below_zero (a : U64) : below a 0 = a := by simp [below]

theorem below_succ (a : U64) (n : Nat) : below a (n + 1) = below (a - 8) n := by
  unfold below
  rw [show 8 * (n + 1) = 8 + 8 * n by ring, BitVec.ofNat_add]
  bv_omega

/-- What a row of pushes does: a word for each register, the first one
highest, and nothing else. -/
structure Pushed (rs : List Reg) (c c' : Cpu) : Prop where
  regs : ∀ q, c'.regs q = if q = .rsp then below (c.regs .rsp) rs.length else c.regs q
  cr3 : c'.cr3 = c.cr3
  words : ∀ i (h : i < rs.length), load64 c'.mem (below (c.regs .rsp) (i + 1)) = c.regs rs[i]
  frame : ∀ x, ¬ InRange (below (c.regs .rsp) rs.length) (8 * rs.length) x → c'.mem x = c.mem x

theorem pushAll.spec {rs : List Reg} (hrs : .rsp ∉ rs) (hlen : 8 * rs.length < 2 ^ 62) (c : Cpu) :
    Pushed rs c (pushAll rs c) := by
  induction rs generalizing c with
  | nil => exact ⟨fun q => by by_cases hq : q = .rsp <;> simp [pushAll, hq], rfl, by simp, fun _ _ => rfl⟩
  | cons r rs ih =>
    have hr : Reg.rsp ∉ rs := fun hm => hrs (List.mem_cons_of_mem _ hm)
    rw [List.length_cons] at hlen
    obtain ⟨hregs, hcr3, hwords, hframe⟩ := ih hr (by omega) (c.push (c.regs r))
    have hsp : (c.push (c.regs r)).regs .rsp = c.regs .rsp - 8 := by simp [Cpu.push]
    have hother : ∀ q, q ≠ .rsp → (c.push (c.regs r)).regs q = c.regs q := fun q hq =>
      c.set_other _ hq
    rw [hsp] at hregs hwords hframe
    refine ⟨fun q => ?_, hcr3, fun i hi => ?_, fun x hx => ?_⟩
    · change (pushAll rs (c.push (c.regs r))).regs q = _
      rw [hregs, List.length_cons, below_succ]
      by_cases hq : q = .rsp
      · simp [hq]
      · rw [if_neg hq, if_neg hq, hother q hq]
    · change load64 (pushAll rs (c.push (c.regs r))).mem _ = _
      rw [below_succ]
      cases i with
      | zero =>
        -- the later pushes are below the first word
        have hkeep : load64 (pushAll rs (c.push (c.regs r))).mem (c.regs .rsp - 8) =
            load64 (c.push (c.regs r)).mem (c.regs .rsp - 8) := by
          refine load64_congr fun x hx => hframe x ?_
          unfold InRange below at *
          bv_omega
        rw [below_zero, hkeep]
        exact load64_store64 _ _ _
      | succ i =>
        have hi' : i < rs.length := by simpa using hi
        have hne : rs[i] ≠ .rsp := fun he => hr (he ▸ List.getElem_mem hi')
        rw [hwords i hi', hother _ hne]
        rfl
    · change (pushAll rs (c.push (c.regs r))).mem x = _
      rw [List.length_cons] at hx
      have hrest : ¬ InRange (below (c.regs .rsp - 8) rs.length) (8 * rs.length) x := by
        unfold InRange below at *
        bv_omega
      have hfirst : ¬ InRange (c.regs .rsp - 8) 8 x := by
        unfold InRange below at *
        bv_omega
      rw [hframe x hrest]
      exact store64_frame _ _ _ hfirst

/-- What a row of pops does: each register gets a word, the first one the
lowest. -/
structure Popped (rs : List Reg) (c c' : Cpu) : Prop where
  rsp : c'.regs .rsp = c.regs .rsp + BitVec.ofNat 64 (8 * rs.length)
  regs : ∀ i (h : i < rs.length),
    c'.regs rs[i] = load64 c.mem (c.regs .rsp + BitVec.ofNat 64 (8 * i))
  others : ∀ q, q ≠ .rsp → q ∉ rs → c'.regs q = c.regs q
  cr3 : c'.cr3 = c.cr3
  mem : c'.mem = c.mem

theorem popAll.spec {rs : List Reg} (hrs : .rsp ∉ rs) (hnodup : rs.Nodup) (c : Cpu) :
    Popped rs c (popAll rs c) := by
  induction rs generalizing c with
  | nil => exact ⟨by simp [popAll], by simp, fun _ _ _ => rfl, rfl, rfl⟩
  | cons r rs ih =>
    have hne : r ≠ .rsp := fun he => hrs (he ▸ List.mem_cons_self)
    obtain ⟨hnot, hnodup⟩ := List.nodup_cons.mp hnodup
    obtain ⟨hrsp, hregs, hothers, hcr3, hmem⟩ := ih (fun hm => hrs (List.mem_cons_of_mem _ hm)) hnodup
      (c.pop r)
    have hsp : (c.pop r).regs .rsp = c.regs .rsp + 8 := by
      rw [Cpu.pop, Cpu.set_other _ _ hne.symm, Cpu.set_same]
    have hwords : ∀ n, c.regs .rsp + 8 + BitVec.ofNat 64 (8 * n) =
        c.regs .rsp + BitVec.ofNat 64 (8 * (n + 1)) := by
      intro n
      rw [show 8 * (n + 1) = 8 + 8 * n by ring, BitVec.ofNat_add, BitVec.add_assoc]
      rfl
    rw [hsp] at hrsp hregs
    refine ⟨?_, fun i hi => ?_, fun q hq hqm => ?_, hcr3, hmem⟩
    · change (popAll rs (c.pop r)).regs .rsp = _
      rw [hrsp, hwords, List.length_cons]
    · change (popAll rs (c.pop r)).regs _ = _
      cases i with
      | zero =>
        change (popAll rs (c.pop r)).regs r = _
        rw [hothers r hne hnot, Cpu.pop, Cpu.set_same]
        simp [Cpu.top]
      | succ i =>
        have hi' : i < rs.length := by simpa using hi
        change (popAll rs (c.pop r)).regs rs[i] = _
        rw [hregs i hi', hwords]
        rfl
    · change (popAll rs (c.pop r)).regs q = _
      rw [hothers q hq fun hm => hqm (List.mem_cons_of_mem _ hm)]
      have hqr : q ≠ r := fun he => hqm (he ▸ List.mem_cons_self)
      rw [Cpu.pop, Cpu.set_other _ _ hqr, Cpu.set_other _ _ hq]

end X86
