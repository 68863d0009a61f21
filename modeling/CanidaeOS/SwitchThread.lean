-- `switch_thread` (`switch_thread.s`), and any number of threads that switch
-- to one another with it. Each thread keeps its registers on its own stack,
-- and the place of them in its control block.
import CanidaeOS.X86
import CanidaeOS.Runs

open Machine X86 Runs

namespace lobo

/-! ## The routine -/

/-- `rdi` is the address of the new thread's control block, `rsi` that of the
current one's. -/
def switch_thread : List Instr :=
  [ -- Save current thread state
   .push .rax, .push .rcx, .push .rdx, .push .rbx, .push .rbp, .push .rsi, .push .rdi,
   .push .r8, .push .r9, .push .r10, .push .r11, .push .r12, .push .r13, .push .r14, .push .r15,
   .store .rsi 0 .rsp,
   -- Load next thread state
   .load .rsp .rdi 0,
   .pop .r15, .pop .r14, .pop .r13, .pop .r12, .pop .r11, .pop .r10, .pop .r9, .pop .r8,
   .pop .rdi, .pop .rsi, .pop .rbp, .pop .rbx, .pop .rdx, .pop .rcx, .pop .rax,
   .ret]

/-- The registers that are saved, in the order of the pushes. -/
def savedRegs : List Reg :=
  [.rax, .rcx, .rdx, .rbx, .rbp, .rsi, .rdi, .r8, .r9, .r10, .r11, .r12, .r13, .r14, .r15]

theorem switch_thread_eq : switch_thread =
    savedRegs.map .push ++ (.store .rsi 0 .rsp :: .load .rsp .rdi 0 ::
      (savedRegs.reverse.map .pop ++ [.ret])) := rfl

theorem mem_savedRegs {q : Reg} (h : q ≠ .rsp) : q ∈ savedRegs := by
  cases q <;> first | decide | exact absurd rfl h

/-- What a thread holds when it calls `switch_thread`: the return address at
the top of its stack, and its registers. -/
structure Context where
  rip : U64
  regs : Reg → U64

def contextOf (c : Cpu) : Context := ⟨c.top, c.regs⟩

/-- The context is saved in memory: its return address at the top of its
stack, its registers below that, and `top` is the place of the last one. -/
structure Saved (m : Memory) (x : Context) (top : U64) : Prop where
  top_eq : top = below (x.regs .rsp) 15
  rip : load64 m (x.regs .rsp) = x.rip
  words : ∀ i (h : i < savedRegs.length),
    load64 m (below (x.regs .rsp) (i + 1)) = x.regs savedRegs[i]

/-- A return to the context: where `ret` goes, with the registers as they
were, and only the return address taken off the stack. -/
structure Resumed (x : Context) (rip : U64) (regs : Reg → U64) : Prop where
  rip_eq : rip = x.rip
  rsp_eq : regs .rsp = x.regs .rsp + 8
  regs_eq : ∀ q, q ≠ .rsp → regs q = x.regs q

/-- What the routine does: it saves the context that calls it, changes no
memory but the 15 words below the stack pointer and the outgoing control
block's `stack_top`, and resumes the context that the new control block
holds. -/
structure Switched (c : Cpu) (rip : U64) (c' : Cpu) : Prop where
  saved : Apart (c.regs .rsi) 8 (below (c.regs .rsp) 15) 128 →
    Saved c'.mem (contextOf c) (load64 c'.mem (c.regs .rsi))
  frame : ∀ x, ¬ InRange (below (c.regs .rsp) 15) 120 x → ¬ InRange (c.regs .rsi) 8 x →
    c'.mem x = c.mem x
  resumed : ∀ x, Saved c'.mem x (load64 c'.mem (c.regs .rdi)) → Resumed x rip c'.regs

/-- Popping a saved context gives back its registers. -/
theorem popped_saved {c c' : Cpu} {x : Context} (h : Popped savedRegs.reverse c c')
    (hx : Saved c.mem x (c.regs .rsp)) :
    c'.regs .rsp = x.regs .rsp ∧ ∀ q, q ≠ .rsp → c'.regs q = x.regs q := by
  have hlen : savedRegs.reverse.length = 15 := rfl
  refine ⟨?_, fun q hq => ?_⟩
  · rw [h.rsp, hx.top_eq, hlen]
    unfold below
    bv_omega
  · obtain ⟨i, hi, hqi⟩ := List.getElem_of_mem (mem_savedRegs hq)
    have hi15 : i < 15 := hi
    -- the last register pushed is the first one popped
    have hrev : savedRegs.reverse[14 - i] = q := by
      rw [List.getElem_reverse, ← hqi]
      congr 1
      change 15 - 1 - (14 - i) = i
      omega
    have hpopped := h.regs (14 - i) (by omega)
    have hpushed := hx.words i hi
    rw [hrev, hx.top_eq] at hpopped
    rw [hqi] at hpushed
    rw [hpopped, ← hpushed]
    congr 1
    unfold below
    bv_omega

theorem switch_thread.spec (c : Cpu) :
    ∃ rip c', run 0 switch_thread c = some (rip, c') ∧ Switched c rip c' := by
  have hpush : Pushed savedRegs c (pushAll savedRegs c) := pushAll.spec (by decide) (by decide) c
  generalize hc₁ : pushAll savedRegs c = c₁ at hpush
  have hlen : savedRegs.length = 15 := rfl
  have hrsi : c₁.regs .rsi = c.regs .rsi := hpush.regs .rsi
  have hrdi : c₁.regs .rdi = c.regs .rdi := hpush.regs .rdi
  have hrsp : c₁.regs .rsp = below (c.regs .rsp) 15 := hpush.regs .rsp
  have hframe := hpush.frame
  rw [hlen] at hframe
  obtain ⟨c₃, hc₃⟩ : ∃ c₃, c₃ = (c₁.exec (.store .rsi 0 .rsp)).exec (.load .rsp .rdi 0) := ⟨_, rfl⟩
  have hmem : c₃.mem = store64 c₁.mem (c.regs .rsi) (below (c.regs .rsp) 15) := by
    subst hc₃
    simp [Cpu.exec, hrsi, hrsp]
  have htop : c₃.regs .rsp = load64 c₃.mem (c.regs .rdi) := by
    rw [hmem]
    subst hc₃
    simp [Cpu.exec, hrsi, hrsp, hrdi]
  have hpop : Popped savedRegs.reverse c₃ (popAll savedRegs.reverse c₃) :=
    popAll.spec (by decide) (by decide) c₃
  generalize hc₄ : popAll savedRegs.reverse c₃ = c₄ at hpop
  refine ⟨c₄.top, c₄.set .rsp (c₄.regs .rsp + 8), ?_, fun hapart => ?_, fun x hx hx' => ?_,
    fun x hx => ?_⟩
  · rw [switch_thread_eq, run_pushes, hc₁]
    change run 0 (savedRegs.reverse.map .pop ++ [.ret])
      ((c₁.exec (.store .rsi 0 .rsp)).exec (.load .rsp .rdi 0)) = _
    rw [← hc₃, run_pops, hc₄]
    rfl
  · -- the control block is outside of the saved words
    have hkeep : ∀ i ≤ 15, load64 c₄.mem (below (c.regs .rsp) i) =
        load64 c₁.mem (below (c.regs .rsp) i) := by
      intro i hi
      rw [hpop.mem, hmem]
      refine load64_store64_apart _ _ fun y hy hy' => hapart y hy' ?_
      unfold InRange below at *
      bv_omega
    rw [Cpu.set_mem]
    refine ⟨?_, ?_, fun i hi => ?_⟩
    · rw [hpop.mem, hmem, load64_store64]
      rfl
    · have h0 := hkeep 0 (by omega)
      rw [below_zero] at h0
      change load64 c₄.mem (c.regs .rsp) = load64 c.mem (c.regs .rsp)
      rw [h0]
      refine load64_congr fun y hy => hframe y ?_
      unfold InRange below at *
      bv_omega
    · have hi15 : i < 15 := hi
      exact (hkeep (i + 1) (by omega)).trans (hpush.words i hi)
  · rw [Cpu.set_mem, hpop.mem, hmem, store64_frame _ _ _ hx']
    exact hframe x hx
  · rw [Cpu.set_mem, hpop.mem, ← htop] at hx
    obtain ⟨hsp, hregs⟩ := popped_saved hpop hx
    refine ⟨?_, ?_, fun q hq => ?_⟩
    · rw [Cpu.top, hpop.mem, hsp]
      exact hx.rip
    · rw [Cpu.set_same, hsp]
    · rw [Cpu.set_other _ _ hq]
      exact hregs q hq

/-! ## Runs of threads that switch -/

/-- Where the threads keep their contexts: no stack shares a byte with another
one, or with the `stack_top` of a control block, its first word. -/
structure Layout (ι : Type) where
  tcb : ι → U64
  stack : ι → U64
  size : ι → Nat
  stacks_apart : ∀ i j, i ≠ j → Apart (stack i) (size i) (stack j) (size j)
  blocks_apart : ∀ i j, i ≠ j → Apart (tcb i) 8 (tcb j) 8
  block_stack : ∀ i j, Apart (tcb i) 8 (stack j) (size j)

variable {ι : Type}

/-- The processor, the thread that runs on it, and the context that each
thread had when it last called `switch_thread`. -/
structure Threads (ι : Type) where
  cpu : Cpu
  current : ι
  contexts : ι → Option Context

inductive SwitchEvent (ι : Type) where
  | work
  | switch (new : ι)

/-- The return address and 15 free words below it are on the thread's stack. -/
def Layout.Room (l : Layout ι) (t : ι) (rsp : U64) : Prop :=
  ∀ x, InRange (below rsp 15) 128 x → InRange (l.stack t) (l.size t) x

/-- The running thread is about to execute `switch_thread(new, current)`. -/
structure Calls (l : Layout ι) (w : Threads ι) (new : ι) : Prop where
  rdi : w.cpu.regs .rdi = l.tcb new
  rsi : w.cpu.regs .rsi = l.tcb w.current
  room : l.Room w.current (w.cpu.regs .rsp)

/-- A saved context is made of the 16 words on the stack and `stack_top`. -/
theorem Saved.congr {m m' : Memory} {x : Context} {a : U64} (h : Saved m x (load64 m a))
    (hstack : ∀ y, InRange (below (x.regs .rsp) 15) 128 y → m' y = m y)
    (hblock : ∀ y, InRange a 8 y → m' y = m y) : Saved m' x (load64 m' a) := by
  have hword : ∀ i ≤ 15, load64 m' (below (x.regs .rsp) i) = load64 m (below (x.regs .rsp) i) := by
    intro i hi
    refine load64_congr fun y hy => hstack y ?_
    unfold InRange below at *
    bv_omega
  have h0 := hword 0 (by omega)
  rw [below_zero] at h0
  refine ⟨?_, h0.trans h.rip, fun i hi => ?_⟩
  · rw [load64_congr hblock]
    exact h.top_eq
  · have hi15 : i < 15 := hi
    rw [hword (i + 1) (by omega)]
    exact h.words i hi

/-- A switch keeps the words of every thread that is apart from the one it
leaves. -/
theorem switched_congr {l : Layout ι} {w : Threads ι} {new t : ι} {rip : U64} {c : Cpu}
    (hcalls : Calls l w new) (h : Switched w.cpu rip c) (ht : t ≠ w.current) :
    (∀ x, InRange (l.stack t) (l.size t) x → c.mem x = w.cpu.mem x) ∧
      ∀ x, InRange (l.tcb t) 8 x → c.mem x = w.cpu.mem x := by
  have hframe := h.frame
  rw [hcalls.rsi] at hframe
  have hinside : ∀ x, InRange (below (w.cpu.regs .rsp) 15) 120 x →
      InRange (l.stack w.current) (l.size w.current) x := fun x hx =>
    hcalls.room x (Nat.lt_trans hx (by norm_num))
  refine ⟨fun x hx => hframe x (fun hx' => ?_) fun hx' => ?_,
    fun x hx => hframe x (fun hx' => ?_) fun hx' => ?_⟩
  · exact l.stacks_apart t w.current ht x hx (hinside x hx')
  · exact l.block_stack w.current t x hx' hx
  · exact l.block_stack t w.current x hx (hinside x hx')
  · exact l.blocks_apart t w.current ht x hx hx'

/-- A switch saves the context of the thread that it leaves. -/
theorem switched_saves {l : Layout ι} {w : Threads ι} {new : ι} {rip : U64} {c : Cpu}
    (hcalls : Calls l w new) (h : Switched w.cpu rip c) :
    Saved c.mem (contextOf w.cpu) (load64 c.mem (l.tcb w.current)) := by
  have hsaved := h.saved
  rw [hcalls.rsi] at hsaved
  exact hsaved fun x hx hx' => l.block_stack w.current w.current x hx (hcalls.room x hx')

variable [DecidableEq ι]

/-- The threads after a switch. -/
def Threads.switched (w : Threads ι) (c : Cpu) (new : ι) : Threads ι :=
  { cpu := c
    current := new
    contexts := fun t => if t = w.current then some (contextOf w.cpu) else w.contexts t }

/-- Between two switches a thread does what it likes with the registers and
with memory, but for the stacks and the `stack_top`s of other threads. -/
inductive SwitchStep (l : Layout ι) : Threads ι → SwitchEvent ι → Threads ι → Prop
  | work {w : Threads ι} {c : Cpu} :
      (∀ t, t ≠ w.current → ∀ x, InRange (l.stack t) (l.size t) x → c.mem x = w.cpu.mem x) →
      (∀ t, t ≠ w.current → ∀ x, InRange (l.tcb t) 8 x → c.mem x = w.cpu.mem x) →
      SwitchStep l w .work { w with cpu := c }
  | switch {w : Threads ι} {new : ι} {rip : U64} {c : Cpu} : Calls l w new →
      X86.run 0 switch_thread w.cpu = some (rip, c) →
      SwitchStep l w (.switch new) (w.switched c new)

/-- What every step keeps: the context of a thread that does not run is saved
on its stack and in its control block. -/
def Suspended (l : Layout ι) (w : Threads ι) : Prop :=
  ∀ t, t ≠ w.current → ∀ x, w.contexts t = some x →
    Saved w.cpu.mem x (load64 w.cpu.mem (l.tcb t)) ∧ l.Room t (x.regs .rsp)

theorem suspended_step {l : Layout ι} {w w' : Threads ι} {e : SwitchEvent ι} (hw : Suspended l w)
    (h : SwitchStep l w e w') : Suspended l w' := by
  cases h with
  | work hstacks hblocks =>
    intro t ht x hx
    obtain ⟨hsaved, hroom⟩ := hw t ht x hx
    exact ⟨hsaved.congr (fun y hy => hstacks t ht y (hroom y hy)) (hblocks t ht), hroom⟩
  | @switch new rip c hcalls hrun =>
    obtain ⟨rip', c', hrun', hswitched⟩ := switch_thread.spec w.cpu
    rw [hrun] at hrun'
    cases hrun'
    intro t ht x hx
    by_cases htc : t = w.current
    · subst htc
      have hx' : contextOf w.cpu = x := by simpa [Threads.switched] using hx
      subst hx'
      exact ⟨switched_saves hcalls hswitched, hcalls.room⟩
    · have hx' : w.contexts t = some x := by simpa [Threads.switched, htc] using hx
      obtain ⟨hsaved, hroom⟩ := hw t htc x hx'
      obtain ⟨hstack, hblock⟩ := switched_congr hcalls hswitched htc
      exact ⟨hsaved.congr (fun y hy => hstack y (hroom y hy)) hblock, hroom⟩

/-! ## The laws -/

/-- However the threads switched before, a call of `switch_thread(new,
current)` returns in `new`. A `new` that called it before, or calls it now,
finds its return address, stack pointer and registers as they were then. Only
the 15 words below the stack pointer and the current `stack_top` change. -/
theorem a_thread_comes_back_as_it_left (l : Layout ι) {w₀ w : Threads ι}
    {es : List (SwitchEvent ι)} (hfresh : ∀ t, w₀.contexts t = none)
    (run : Run (SwitchStep l) w₀ es w) {new : ι} (hcalls : Calls l w new) :
    ∃ rip c, X86.run 0 switch_thread w.cpu = some (rip, c) ∧
      (∀ x, (w.switched c new).contexts new = some x → Resumed x rip c.regs) ∧
      ∀ x, ¬ InRange (below (w.cpu.regs .rsp) 15) 120 x → ¬ InRange (l.tcb w.current) 8 x →
        c.mem x = w.cpu.mem x := by
  have hw : Suspended l w := run.inv (Suspended l) (fun _ _ _ => suspended_step) fun t _ x hx => by
    rw [hfresh t] at hx
    cases hx
  obtain ⟨rip, c, hrun, hswitched⟩ := switch_thread.spec w.cpu
  have hframe := hswitched.frame
  have hresumed := hswitched.resumed
  rw [hcalls.rsi] at hframe
  rw [hcalls.rdi] at hresumed
  refine ⟨rip, c, hrun, fun x hx => hresumed x ?_, hframe⟩
  by_cases hself : new = w.current
  · have hx' : contextOf w.cpu = x := by simpa [Threads.switched, hself] using hx
    subst hx' hself
    exact switched_saves hcalls hswitched
  · have hx' : w.contexts new = some x := by simpa [Threads.switched, hself] using hx
    obtain ⟨hsaved, hroom⟩ := hw new hself x hx'
    obtain ⟨hstack, hblock⟩ := switched_congr hcalls hswitched hself
    exact hsaved.congr (fun y hy => hstack y (hroom y hy)) hblock

/-- Two threads, with a page of stack each. -/
def twoStacks : Layout Bool where
  tcb t := if t then 0x2000 else 0x1000
  stack t := if t then 0x20000 else 0x10000
  size _ := 0x1000
  stacks_apart := by
    rintro (_ | _) (_ | _) h
    · exact absurd rfl h
    · exact apart_of_le (by decide) (by decide)
    · exact (apart_of_le (by decide) (by decide)).symm
    · exact absurd rfl h
  blocks_apart := by
    rintro (_ | _) (_ | _) h
    · exact absurd rfl h
    · exact apart_of_le (by decide) (by decide)
    · exact (apart_of_le (by decide) (by decide)).symm
    · exact absurd rfl h
  block_stack := by
    rintro (_ | _) (_ | _) <;> exact apart_of_le (by decide) (by decide)

/-- The registers of a thread `t` that calls `switch_thread` for the other. -/
def callRegs (t : Bool) : Reg → U64
  | .rdi => twoStacks.tcb (!t)
  | .rsi => twoStacks.tcb t
  | .rsp => twoStacks.stack t + 0x800
  | _ => 0

theorem callRegs_room (t : Bool) : twoStacks.Room t (callRegs t .rsp) := by
  intro x hx
  cases t <;>
    · rw [inRange_iff (by decide)] at hx ⊢
      simp [callRegs, twoStacks, below] at hx ⊢
      omega

/-- One thread switches to another, which switches back. -/
theorem a_thread_comes_back_as_it_left_of_two : ∃ w : Threads Bool,
    Run (SwitchStep twoStacks) ⟨⟨callRegs false, 0, false, fun _ => 0⟩, false, fun _ => none⟩
      [.switch true, .work] w ∧ w.current = true ∧
    ∃ rip c, X86.run 0 switch_thread w.cpu = some (rip, c) ∧
      (∀ x, (w.switched c false).contexts false = some x → Resumed x rip c.regs) ∧
      ∀ x, ¬ InRange (below (w.cpu.regs .rsp) 15) 120 x →
        ¬ InRange (twoStacks.tcb w.current) 8 x → c.mem x = w.cpu.mem x := by
  obtain ⟨w₀, hw₀⟩ : ∃ w₀ : Threads Bool, w₀ =
    ⟨⟨callRegs false, 0, false, fun _ => 0⟩, false, fun _ => none⟩ := ⟨_, rfl⟩
  have hcalls : Calls twoStacks w₀ true := by
    subst hw₀
    exact ⟨rfl, rfl, callRegs_room false⟩
  obtain ⟨rip, c, hrun, -⟩ := a_thread_comes_back_as_it_left twoStacks (by subst hw₀; simp)
    (.nil w₀) hcalls
  obtain ⟨w, hw⟩ : ∃ w : Threads Bool, w =
    { w₀.switched c true with cpu := ⟨callRegs true, 0, false, c.mem⟩ } := ⟨_, rfl⟩
  have run : Run (SwitchStep twoStacks) w₀ [.switch true, .work] w := by
    rw [hw]
    exact .snoc (.snoc (.nil _) (.switch hcalls hrun)) (.work (fun _ _ _ _ => rfl) fun _ _ _ _ => rfl)
  have hcalls' : Calls twoStacks w false := by
    rw [hw]
    exact ⟨rfl, rfl, callRegs_room true⟩
  rw [← hw₀]
  exact ⟨w, run, by rw [hw]; rfl,
    a_thread_comes_back_as_it_left twoStacks (by subst hw₀; simp) run hcalls'⟩

end lobo
