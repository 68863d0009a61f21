-- Threads that are created one after the other, between calls of the heap and
-- switches of the threads that run. The blocks of a new thread are the newest
-- of the heap, so nothing that runs holds them until the thread starts.
import CanidaeOS.CreateThread

open Program Machine X86 Outcome Runs

namespace lobo

/-- The kernel, the threads that were created, the newest first, and the
control blocks that were switched to since then. -/
structure ThreadRun where
  code : Threading
  created : List NewThread
  started : List U64

inductive ThreadEvent where
  | CreateThread (name function : U64)
  /-- a further node of the list, as `Init` adds the idle thread's -/
  | push_back (val : U64)
  | kmalloc_aligned (sz alignment : U64)
  | heap_init_full
  /-- other code changes the frame allocator -/
  | pmm (p : lobo.pmm)
  /-- other code runs -/
  | work
  | switch_thread (new : U64)

/-- The size and the alignment that a call asks for. -/
def ThreadEvent.request : ThreadEvent → Option (U64 × U64)
  | CreateThread _ _ => some (createSize, 8)
  | push_back _ => some (16, 8)
  | kmalloc_aligned sz alignment => some (sz, alignment)
  | _ => none

/-- What calls `switch_thread`: a thread that has started, on its own stack, or
one that has its stack and its control block outside of the heap. -/
inductive Caller (base limit : U64) (w : ThreadRun) (c : Cpu) : Prop
  | created (th : NewThread) : th ∈ w.created → th.tcb ∈ w.started → c.regs .rsi = th.tcb →
      (∀ x, InRange (below (c.regs .rsp) 15) 128 x → InRange th.stack 0x4000 x) →
      Caller base limit w c
  | outside : (∀ x, InRange (c.regs .rsi) 8 x ∨ InRange (below (c.regs .rsp) 15) 128 x →
      ¬ (base.toNat ≤ x.toNat ∧ x.toNat < limit.toNat)) → Caller base limit w c

/-- The processor is about to execute `switch_thread(new, current)`. -/
structure Switches (base limit : U64) (w : ThreadRun) (c : Cpu) (new : U64) : Prop where
  mem : c.mem = w.code.mem
  rdi : c.regs .rdi = new
  caller : Caller base limit w c

/-- A call that returns. Other code has no pointer into a thread that has not
started, but for the fields behind `stack_top` in its control block. -/
inductive ThreadStep (base limit : U64) : ThreadRun → ThreadEvent → ThreadRun → Prop
  | CreateThread {w : ThreadRun} {th : NewThread} {name toCreate : U64} {g₁ g₂ : Globals}
      {s : Threading} : kmalloc 40 w.code.globals = ok (th.tcb, g₁) →
      kmalloc Scheduler.THREAD_STACK_SIZE g₁ = ok (th.stack, g₂) →
      w.code.CreateThread name th.function = ok (toCreate, s) →
      ThreadStep base limit w (.CreateThread name th.function)
        ⟨s, th :: w.created, w.started.filter (· ≠ th.tcb)⟩
  | push_back {w : ThreadRun} {val : U64} {s : Threading} : w.code.push_back val = ok s →
      ThreadStep base limit w (.push_back val) { w with code := s }
  | kmalloc_aligned {w : ThreadRun} {sz alignment block : U64} {g : Globals} :
      lobo.kmalloc_aligned sz alignment w.code.globals = ok (block, g) →
      ThreadStep base limit w (.kmalloc_aligned sz alignment)
        { w with code := { w.code with globals := g } }
  | heap_init_full {w : ThreadRun} : ThreadStep base limit w .heap_init_full
      { w with code := { w.code with globals := lobo.heap_init_full w.code.globals } }
  | pmm {w : ThreadRun} {p : lobo.pmm} : ThreadStep base limit w (.pmm p)
      { w with code := { w.code with globals := { w.code.globals with kernel_pmm := p } } }
  | work {w : ThreadRun} {m : Memory} {currentTask : U64} :
      (∀ th ∈ w.created, th.tcb ∉ w.started → ∀ x,
        InRange th.tcb 8 x ∨ InRange th.stack 0x4000 x → m x = w.code.mem x) →
      ThreadStep base limit w .work { w with code := { w.code with mem := m, currentTask } }
  | switch_thread {w : ThreadRun} {c c' : Cpu} {new rip : U64} : Switches base limit w c new →
      X86.run 0 switch_thread c = some (rip, c') →
      ThreadStep base limit w (.switch_thread new)
        { w with code := { w.code with mem := c'.mem }, started := new :: w.started }

/-- The guard of a step: the end of its blocks does not wrap below the limit. -/
def requestsFit (w : ThreadRun) (e : ThreadEvent) : Prop :=
  ∀ sz alignment, e.request = some (sz, alignment) →
    ¬ WrapsBelowLimit w.code.globals sz alignment

/-- The kernel with a heap and no thread yet. -/
def threadStart (base limit : U64) (s : Threading) : ThreadRun :=
  ⟨{ s with globals := heap_early_init base limit s.globals, m_head := 0 }, [], []⟩

/-! ## Where the threads are -/

/-- What every step keeps of the heap: the threads lie one above the other
below the position, and the last node of the list is in none of them. -/
structure Arranged (base limit : U64) (w : ThreadRun) : Prop where
  limit_eq : w.code.globals.earlyAllocLimit = limit
  base_le : base.toNat ≤ w.code.globals.earlyAllocBase.toNat
  stack_eq : ∀ th ∈ w.created, th.stack.toNat = th.tcb.toNat + 40
  inside : ∀ th ∈ w.created, base.toNat ≤ th.tcb.toNat ∧
    th.tcb.toNat + 0x4028 ≤ w.code.globals.earlyAllocBase.toNat ∧
    th.tcb.toNat + 0x4028 ≤ limit.toNat
  apart : w.created.Pairwise fun later earlier =>
    earlier.tcb.toNat + 0x4028 ≤ later.tcb.toNat
  link : w.code.m_head ≠ 0 →
    w.code.m_tail.toNat + 16 ≤ w.code.globals.earlyAllocBase.toNat ∧
    ∀ th ∈ w.created, w.code.m_tail.toNat + 16 ≤ th.tcb.toNat ∨
      th.tcb.toNat + 0x4028 ≤ w.code.m_tail.toNat

/-- What every step keeps of memory: a thread that has not started looks like
one that has called `switch_thread`. -/
def Intact (w : ThreadRun) : Prop :=
  ∀ th ∈ w.created, th.tcb ∉ w.started → Saved w.code.mem th.context (load64 w.code.mem th.tcb)

namespace Arranged

variable {base limit : U64} {w : ThreadRun} (h : Arranged base limit w)
include h

/-- The blocks of a thread, as two bounds. -/
theorem holds_iff {th : NewThread} (hth : th ∈ w.created) {x : U64} :
    th.Holds x ↔ th.tcb.toNat ≤ x.toNat ∧ x.toNat < th.tcb.toNat + 0x4028 := by
  have hstack := h.stack_eq th hth
  have hlimit := limit.isLt
  obtain ⟨-, -, hin⟩ := h.inside th hth
  rw [NewThread.Holds, inRange_iff (by omega), inRange_iff (by omega)]
  omega

/-- No two threads share an address. -/
theorem disjoint {th th' : NewThread} (hth : th ∈ w.created) (hth' : th' ∈ w.created)
    (hne : th.tcb ≠ th'.tcb) {x : U64} (hx : th.Holds x) : ¬ th'.Holds x := by
  have hapart := List.Pairwise.forall_of_forall_of_flip
    (R := fun a b : NewThread => a.tcb ≠ b.tcb →
      a.tcb.toNat + 0x4028 ≤ b.tcb.toNat ∨ b.tcb.toNat + 0x4028 ≤ a.tcb.toNat)
    (fun _ _ hself => absurd rfl hself) (h.apart.imp fun hle _ => Or.inr hle)
    (h.apart.imp fun hle _ => Or.inl hle) hth hth' hne
  rw [h.holds_iff hth] at hx
  rw [h.holds_iff hth']
  omega

/-- The link of the list is in no thread. -/
theorem link_apart (hhead : w.code.m_head ≠ 0) {th : NewThread} (hth : th ∈ w.created) {x : U64}
    (hx : th.Holds x) : ¬ InRange (w.code.m_tail + 8) 8 x := by
  have hposition := w.code.globals.earlyAllocBase.isLt
  obtain ⟨hle, hlink⟩ := h.link hhead
  have hout := hlink th hth
  rw [h.holds_iff hth] at hx
  have hnext : (w.code.m_tail + 8).toNat = w.code.m_tail.toNat + 8 := by bv_omega
  rw [inRange_iff (by omega)]
  omega

/-- A further thread leaves those that are there as they are. -/
theorem made_keeps {s : Threading} {th old : NewThread} {node : U64} (hmade : Made w.code s th node)
    (hold : old ∈ w.created) {x : U64} (hx : old.Holds x) : s.mem x = w.code.mem x := by
  have hplaced := hmade.placed
  have hfits := hplaced.fits
  have habove := hplaced.above
  have hstack := hplaced.stack
  have hnode := hplaced.node
  have hin := (h.holds_iff hold).mp hx
  have hbelow := (h.inside old hold).2.1
  apply hmade.frame
  · rw [inRange_iff (by omega)]
    omega
  · intro htop
    have hx' := th.stack_top_inside htop
    rw [inRange_iff (by omega)] at hx'
    omega
  · rw [inRange_iff (by omega)]
    omega
  · exact fun hhead => h.link_apart hhead hold hx

theorem tcb_ne {s : Threading} {th old : NewThread} {node : U64} (hmade : Made w.code s th node)
    (hold : old ∈ w.created) : old.tcb ≠ th.tcb := by
  have hbelow := (h.inside old hold).2.1
  have habove := hmade.placed.above
  intro heq
  rw [heq] at hbelow
  omega

/-- A further node leaves the threads as they are. -/
theorem pushed_keeps {s : Threading} {old : NewThread} {node : U64}
    (hpushed : PushedBack w.code s node) (habove : w.code.globals.earlyAllocBase.toNat ≤ node.toNat)
    (hend : s.globals.earlyAllocBase.toNat = node.toNat + 16) (hold : old ∈ w.created) {x : U64}
    (hx : old.Holds x) : s.mem x = w.code.mem x := by
  have hin := (h.holds_iff hold).mp hx
  have hbelow := (h.inside old hold).2.1
  have hposition := s.globals.earlyAllocBase.isLt
  apply hpushed.frame
  · rw [inRange_iff (by omega)]
    omega
  · exact fun hhead => h.link_apart hhead hold hx

/-- The blocks and the node of a further thread are the newest of the heap. -/
theorem create {s : Threading} {th : NewThread} {node : U64} {started : List U64}
    (hmade : Made w.code s th node) : Arranged base limit ⟨s, th :: w.created, started⟩ := by
  have hplaced := hmade.placed
  have habove := hplaced.above
  have hstack := hplaced.stack
  have hnode := hplaced.node
  have hposition := hplaced.position
  have hle := hplaced.le_limit
  have hbase := h.base_le
  have hlimit := h.limit_eq
  rw [hlimit] at hle
  refine ⟨hplaced.limit.trans hlimit, ?_, ?_, ?_, ?_, ?_⟩
  · show base.toNat ≤ s.globals.earlyAllocBase.toNat
    omega
  · intro t ht
    rcases List.mem_cons.mp ht with rfl | ht
    · exact hstack
    · exact h.stack_eq t ht
  · intro t ht
    show _ ∧ _ ≤ s.globals.earlyAllocBase.toNat ∧ _
    rcases List.mem_cons.mp ht with rfl | ht
    · omega
    · have := h.inside t ht
      omega
  · refine List.Pairwise.cons ?_ h.apart
    intro t ht
    have := h.inside t ht
    omega
  · intro _
    show s.m_tail.toNat + 16 ≤ s.globals.earlyAllocBase.toNat ∧
      ∀ t ∈ th :: w.created, s.m_tail.toNat + 16 ≤ _ ∨ _ ≤ s.m_tail.toNat
    rw [hmade.tail]
    refine ⟨by omega, fun t ht => Or.inr ?_⟩
    rcases List.mem_cons.mp ht with rfl | ht
    · omega
    · have := h.inside t ht
      omega

/-- The heap goes up, and the list ends where it did or in a new node. -/
theorem grow {s : Threading} {started : List U64}
    (hlimit : s.globals.earlyAllocLimit = w.code.globals.earlyAllocLimit)
    (hle : w.code.globals.earlyAllocBase.toNat ≤ s.globals.earlyAllocBase.toNat)
    (hlink : s.m_head = w.code.m_head ∧ s.m_tail = w.code.m_tail ∨
      w.code.globals.earlyAllocBase.toNat ≤ s.m_tail.toNat ∧
        s.m_tail.toNat + 16 ≤ s.globals.earlyAllocBase.toNat) :
    Arranged base limit ⟨s, w.created, started⟩ := by
  refine ⟨hlimit.trans h.limit_eq, Nat.le_trans h.base_le hle, h.stack_eq, ?_, h.apart, ?_⟩
  · intro t ht
    obtain ⟨hlow, hhigh, hin⟩ := h.inside t ht
    exact ⟨hlow, Nat.le_trans hhigh hle, hin⟩
  · intro hhead
    rcases hlink with ⟨hsame, htail⟩ | ⟨habove, hnode⟩
    · obtain ⟨hold, hout⟩ := h.link (hsame ▸ hhead)
      show s.m_tail.toNat + 16 ≤ s.globals.earlyAllocBase.toNat ∧
        ∀ t ∈ w.created, s.m_tail.toNat + 16 ≤ _ ∨ _ ≤ s.m_tail.toNat
      rw [htail]
      exact ⟨Nat.le_trans hold hle, hout⟩
    · refine ⟨hnode, fun t ht => Or.inr ?_⟩
      exact Nat.le_trans (h.inside t ht).2.1 habove

/-- What a guarded call of `CreateThread` has done. -/
theorem made {s : Threading} {th : NewThread} {name toCreate : U64} {g₁ g₂ : Globals}
    (htcb : kmalloc 40 w.code.globals = ok (th.tcb, g₁))
    (hstack : kmalloc Scheduler.THREAD_STACK_SIZE g₁ = ok (th.stack, g₂))
    (hcall : w.code.CreateThread name th.function = ok (toCreate, s))
    (hguard : ¬ WrapsBelowLimit w.code.globals createSize 8) : ∃ node, Made w.code s th node := by
  refine (Threading.CreateThread.spec htcb hstack hcall hguard ?_).2
  intro g node hplaced hhead x hx
  have hfits := hplaced.fits
  have habove := hplaced.above
  have hplace := hplaced.stack
  have hbelow := (h.link hhead).1
  have hnext : (w.code.m_tail + 8).toNat = w.code.m_tail.toNat + 8 := by bv_omega
  rw [NewThread.Holds, inRange_iff (by omega), inRange_iff (by omega)] at hx
  rw [inRange_iff (by omega)]
  omega

end Arranged

/-! ## What a switch keeps -/

/-- A switch writes to the stack and the control block of its caller, and to
nothing of a thread that has not started. -/
theorem switched_keeps {base limit : U64} {w : ThreadRun} (h : Arranged base limit w) {c c' : Cpu}
    {new rip : U64} (hcall : Switches base limit w c new) (hswitched : Switched c rip c')
    {th : NewThread} (hth : th ∈ w.created) (hnew : th.tcb ∉ w.started) {x : U64}
    (hx : th.Holds x) : c'.mem x = w.code.mem x := by
  rw [← hcall.mem]
  have hin := (h.holds_iff hth).mp hx
  obtain ⟨hlow, -, hhigh⟩ := h.inside th hth
  have hframe := hswitched.frame x
  cases hcall.caller with
  | created t ht hstarted hrsi hroom =>
    have hne : th.tcb ≠ t.tcb := by
      intro heq
      rw [heq] at hnew
      exact hnew hstarted
    have hout := h.disjoint hth ht hne hx
    apply hframe
    · exact fun hpush => hout (Or.inr (hroom x (Nat.lt_trans hpush (by decide))))
    · rw [hrsi]
      exact fun hblock => hout (Or.inl (Nat.lt_trans hblock (by decide)))
  | outside hout =>
    apply hframe
    · exact fun hpush => hout x (Or.inr (Nat.lt_trans hpush (by decide))) ⟨by omega, by omega⟩
    · exact fun hblock => hout x (Or.inl hblock) ⟨by omega, by omega⟩

/-- The words of a thread, and so its context, in another memory. -/
theorem saved_keeps {th : NewThread} {m m' : Memory}
    (h : Saved m th.context (load64 m th.tcb))
    (hsame : ∀ x, InRange th.tcb 8 x ∨ InRange th.stack 0x4000 x → m' x = m x) :
    Saved m' th.context (load64 m' th.tcb) := by
  apply h.congr
  · rw [th.below_context]
    exact fun x hx => hsame x (Or.inr (th.stack_top_inside hx))
  · exact fun x hx => hsame x (Or.inl hx)

theorem holds_of_top {th : NewThread} {x : U64}
    (hx : InRange th.tcb 8 x ∨ InRange th.stack 0x4000 x) : th.Holds x :=
  hx.imp (fun htop => Nat.lt_trans htop (by decide)) id

/-! ## Steps -/

structure Formed (base limit : U64) (w : ThreadRun) : Prop where
  arranged : Arranged base limit w
  intact : Intact w

theorem formed_step {base limit : U64} {w w' : ThreadRun} {e : ThreadEvent}
    (hw : Formed base limit w) (h : Guarded requestsFit (ThreadStep base limit) w e w') :
    Formed base limit w' := by
  obtain ⟨hguard, hstep⟩ := h
  obtain ⟨harranged, hintact⟩ := hw
  cases hstep with
  | CreateThread htcb hstack hcall =>
    obtain ⟨node, hmade⟩ := harranged.made htcb hstack hcall (hguard _ _ rfl)
    refine ⟨harranged.create hmade, fun t ht hnew => ?_⟩
    rcases List.mem_cons.mp ht with rfl | ht
    · exact hmade.saved
    · -- an earlier thread lies below, so it has another control block
      have hne : t.tcb ≠ _ := harranged.tcb_ne hmade ht
      have hold : t.tcb ∉ w.started := fun hmem =>
        hnew (List.mem_filter.mpr ⟨hmem, decide_eq_true hne⟩)
      exact saved_keeps (hintact t ht hold) fun x hx =>
        harranged.made_keeps hmade ht (holds_of_top hx)
  | push_back hcall =>
    obtain ⟨node, hpushed⟩ := Threading.push_back.spec hcall
    obtain ⟨hge, hend⟩ := hpushed.alloc.exact (hpushed.alloc.noWrap (hguard _ _ rfl))
    have hsize : (16 : U64).toNat = 16 := rfl
    rw [hsize] at hend
    have htail := hpushed.tail
    refine ⟨harranged.grow hpushed.alloc.limit_eq (by omega) (Or.inr ?_), fun t ht hnew => ?_⟩
    · rw [htail]
      omega
    · exact saved_keeps (hintact t ht hnew) fun x hx =>
        harranged.pushed_keeps hpushed hge hend ht (holds_of_top hx)
  | kmalloc_aligned hcall =>
    have halloc := kmalloc_aligned.spec hcall
    obtain ⟨hge, hend⟩ := halloc.exact (halloc.noWrap (hguard _ _ rfl))
    exact ⟨harranged.grow halloc.limit_eq (Nat.le_trans hge (Nat.le.intro hend.symm))
      (Or.inl ⟨rfl, rfl⟩), hintact⟩
  | heap_init_full =>
    exact ⟨harranged.grow rfl (Nat.le_refl _) (Or.inl ⟨rfl, rfl⟩), hintact⟩
  | pmm => exact ⟨harranged.grow rfl (Nat.le_refl _) (Or.inl ⟨rfl, rfl⟩), hintact⟩
  | work hkeeps =>
    refine ⟨harranged.grow rfl (Nat.le_refl _) (Or.inl ⟨rfl, rfl⟩), fun t ht hnew => ?_⟩
    exact saved_keeps (hintact t ht hnew) (hkeeps t ht hnew)
  | switch_thread hcall hrun =>
    obtain ⟨rip, c', hrun', hswitched⟩ := switch_thread.spec _
    rw [hrun] at hrun'
    cases hrun'
    refine ⟨harranged.grow rfl (Nat.le_refl _) (Or.inl ⟨rfl, rfl⟩), fun t ht hnew => ?_⟩
    have hold : t.tcb ∉ w.started := fun hmem => hnew (List.mem_cons_of_mem _ hmem)
    exact saved_keeps (hintact t ht hold) fun x hx =>
      switched_keeps harranged hcall hswitched ht hold (holds_of_top hx)

theorem formed_start {base limit : U64} {s : Threading} :
    Formed base limit (threadStart base limit s) := by
  refine ⟨⟨rfl, Nat.le_refl _, by simp [threadStart], by simp [threadStart], List.Pairwise.nil, ?_⟩,
    by simp [Intact, threadStart]⟩
  intro hhead
  exact absurd rfl hhead

theorem formed_run {base limit : U64} {s : Threading} {es : List ThreadEvent} {w : ThreadRun}
    (run : Run (Guarded requestsFit (ThreadStep base limit)) (threadStart base limit s) es w) :
    Formed base limit w :=
  run.inv (Formed base limit) (fun _ _ _ => formed_step) formed_start

/-! ## The law -/

/-- Where `ret` goes and what the registers are when a thread starts. -/
structure NewThread.StartsAt (th : NewThread) (rip : U64) (regs : Reg → U64) : Prop where
  rip_eq : rip = th.function
  rsp_eq : regs .rsp = th.stack + Scheduler.THREAD_STACK_SIZE
  rbp_eq : regs .rbp = th.stack_top
  zero : ∀ q, q ≠ .rsp → q ≠ .rbp → regs q = 0

theorem starts_of_resumed {th : NewThread} {rip : U64} {regs : Reg → U64}
    (h : Resumed th.context rip regs) : th.StartsAt rip regs := by
  refine ⟨h.rip_eq, ?_, ?_, fun q hq hq' => ?_⟩
  · rw [h.rsp_eq]
    show th.stack_top + 0x78 + 8 = _
    unfold NewThread.stack_top
    bv_omega
  · rw [h.regs_eq .rbp (by decide)]
    rfl
  · rw [h.regs_eq q hq]
    cases q <;> first | contradiction | rfl

/-- The first switch to a thread starts it. -/
def FirstSwitchesStart (base limit : U64) (w : ThreadRun) : Prop :=
  ∀ th ∈ w.created, th.tcb ∉ w.started → ∀ c, Switches base limit w c th.tcb →
    ∃ rip c', X86.run 0 switch_thread c = some (rip, c') ∧ th.StartsAt rip c'.regs

theorem Formed.starts {base limit : U64} {w : ThreadRun} (h : Formed base limit w) :
    FirstSwitchesStart base limit w := by
  intro th hth hnew c hcall
  obtain ⟨rip, c', hrun, hswitched⟩ := switch_thread.spec c
  refine ⟨rip, c', hrun, starts_of_resumed (hswitched.resumed _ ?_)⟩
  rw [hcall.rdi]
  exact saved_keeps (h.intact th hth hnew) fun x hx =>
    switched_keeps h.arranged hcall hswitched hth hnew (holds_of_top hx)

/-- What a call of `CreateThread` does to the threads: a new one with blocks of
its own, its words on its own stack, and nothing to the others. -/
structure Creates (w w' : ThreadRun) (function : U64) (th : NewThread) : Prop where
  function_eq : th.function = function
  blocks : ∃ g₁ g₂, kmalloc 40 w.code.globals = ok (th.tcb, g₁) ∧
    kmalloc Scheduler.THREAD_STACK_SIZE g₁ = ok (th.stack, g₂)
  created : w'.created = th :: w.created
  waits : th.tcb ∉ w'.started
  inside : ∀ x, InRange th.stack_top 128 x → InRange th.stack 0x4000 x
  writes : ∀ x, w'.code.mem x ≠ w.code.mem x →
    InRange th.tcb 40 x ∨ InRange th.stack_top 128 x ∨ InRange w'.code.m_tail 16 x ∨
      w.code.m_head ≠ 0 ∧ InRange (w.code.m_tail + 8) 8 x
  others : ∀ old ∈ w.created, ∀ x, old.Holds x → w'.code.mem x = w.code.mem x

theorem Formed.creates {base limit : U64} {w w' : ThreadRun} {name function : U64}
    (h : Formed base limit w)
    (hstep : Guarded requestsFit (ThreadStep base limit) w (.CreateThread name function) w') :
    ∃ th, Creates w w' function th := by
  obtain ⟨hguard, hstep⟩ := hstep
  cases hstep with
  | @CreateThread th _ _ g₁ g₂ _ htcb hstack hcall =>
    obtain ⟨node, hmade⟩ := h.arranged.made htcb hstack hcall (hguard _ _ rfl)
    refine ⟨th, rfl, ⟨g₁, g₂, htcb, hstack⟩, rfl, ?_, fun x => th.stack_top_inside, ?_, ?_⟩
    · simp
    · intro x hx
      by_contra hnot
      rw [not_or, not_or, not_or, not_and, hmade.tail] at hnot
      exact hx (hmade.frame x hnot.1 hnot.2.1 hnot.2.2.1 hnot.2.2.2)
    · exact fun old hold x hx => h.arranged.made_keeps hmade hold hx

/-- Where no request wraps below the limit, the first switch to every thread
continues at its function, with the end of its own stack in `rsp`, and a
further thread leaves those that are there as they are. -/
theorem a_new_thread_starts_at_its_function {base limit : U64} {s : Threading}
    {es : List ThreadEvent} {w : ThreadRun}
    (run : Run (Guarded requestsFit (ThreadStep base limit)) (threadStart base limit s) es w) :
    FirstSwitchesStart base limit w ∧ ∀ name function w',
      Guarded requestsFit (ThreadStep base limit) w (.CreateThread name function) w' →
      ∃ th, Creates w w' function th ∧ FirstSwitchesStart base limit w' := by
  have hw := formed_run run
  refine ⟨hw.starts, fun name function w' hstep => ?_⟩
  obtain ⟨th, hcreates⟩ := hw.creates hstep
  exact ⟨th, hcreates, (formed_step hw hstep).starts⟩

/-- A kernel whose memory is zero. -/
def blankKernel : Threading := ⟨Globals.static, fun _ => 0, 1, 0, 0, 0, 0⟩

/-- 64 KiB of heap. -/
def smallHeap : ThreadRun := threadStart 0xffffffff80110000 0xffffffff80120000 blankKernel

/-- The first thread that is created there. -/
def firstThread (function : U64) : NewThread :=
  ⟨0xffffffff80110000, 0xffffffff80110028, function⟩

theorem firstThread_created {s : Threading} (hs : s.globals = smallHeap.code.globals)
    (hlink : s.m_head ≠ 0 → s.m_tail = 0xffffffff80114028) (created : List NewThread)
    (function : U64) : ∃ s' node,
      ThreadStep 0xffffffff80110000 0xffffffff80120000 ⟨s, created, []⟩ (.CreateThread 0 function)
        ⟨s', firstThread function :: created, []⟩ ∧
      Made s s' (firstThread function) node ∧ s'.m_tail = 0xffffffff80114028 ∧
      s'.globals = { smallHeap.code.globals with earlyAllocBase := 0xffffffff80114038 } := by
  obtain ⟨g₁, htcb⟩ : ∃ g₁, kmalloc 40 s.globals = ok (0xffffffff80110000, g₁) ∧
      g₁ = { smallHeap.code.globals with earlyAllocBase := 0xffffffff80110028 } := by
    rw [hs]
    exact ⟨_, rfl, rfl⟩
  obtain ⟨htcb, rfl⟩ := htcb
  obtain ⟨s', hcall, hglobals, htail⟩ :=
    @Threading.CreateThread.total s 0 function _ _ _ _ _ _ htcb rfl rfl
  have hguard : ¬ WrapsBelowLimit s.globals createSize 8 := by
    rw [hs]
    decide
  obtain ⟨-, node, hmade⟩ := @Threading.CreateThread.spec s s' (firstThread function) _ _ _ _
    htcb rfl hcall hguard fun {g node} hplaced hhead x hx hin => by
      have hblocks : InRange 0xffffffff80110000 40 x ∨ InRange 0xffffffff80110028 0x4000 x := hx
      rw [hlink hhead, inRange_iff (by decide)] at hin
      rw [inRange_iff (by decide), inRange_iff (by decide)] at hblocks
      simp at hblocks hin
      omega
  exact ⟨s', node, @ThreadStep.CreateThread _ _ _ (firstThread function) _ _ _ _ _ htcb rfl hcall,
    hmade, htail, hglobals⟩

/-- The idle thread calls `switch_thread` for the first thread. -/
def idleRegs : Reg → U64
  | .rdi => 0xffffffff80110000
  | .rsi => 0xffffffff80108000
  | .rsp => 0xffffffff8010a000
  | _ => 7

theorem idle_outside (w : ThreadRun) (m : Memory) :
    Caller 0xffffffff80110000 0xffffffff80120000 w ⟨idleRegs, 0, false, m⟩ := by
  apply Caller.outside
  intro x hx
  have hrsi : InRange 0xffffffff80108000 8 x ∨ InRange (below 0xffffffff8010a000 15) 128 x := hx
  unfold below at hrsi
  rw [inRange_iff (by decide), inRange_iff (by decide)] at hrsi
  simp at hrsi ⊢
  omega

/-- The thread that is created behind it. -/
def secondThread (function : U64) : NewThread :=
  ⟨0xffffffff80114038, 0xffffffff80114060, function⟩

/-- The first thread runs, and calls `switch_thread` for the second. -/
def firstRegs : Reg → U64
  | .rdi => 0xffffffff80114038
  | .rsi => 0xffffffff80110000
  | .rsp => 0xffffffff80113000
  | _ => 5

theorem firstRegs_inside {x : U64} (hx : InRange (below (firstRegs .rsp) 15) 128 x) :
    InRange (0xffffffff80110028 : U64) 0x4000 x := by
  have hrsp : below (firstRegs .rsp) 15 = 0xffffffff80112f88 := by decide
  rw [hrsp, inRange_iff (by decide)] at hx
  rw [inRange_iff (by decide)]
  simp at hx ⊢
  omega

theorem secondThread_created {s : Threading} (created : List NewThread) (function : U64)
    (hs : s.globals = { smallHeap.code.globals with earlyAllocBase := 0xffffffff80114038 }) : ∃ s',
      ThreadStep 0xffffffff80110000 0xffffffff80120000 ⟨s, created, []⟩ (.CreateThread 0 function)
        ⟨s', secondThread function :: created, []⟩ := by
  obtain ⟨g₁, htcb⟩ : ∃ g₁, kmalloc 40 s.globals = ok (0xffffffff80114038, g₁) ∧
      g₁ = { smallHeap.code.globals with earlyAllocBase := 0xffffffff80114060 } := by
    rw [hs]
    exact ⟨_, rfl, rfl⟩
  obtain ⟨htcb, rfl⟩ := htcb
  obtain ⟨s', hcall, -, -⟩ :=
    @Threading.CreateThread.total s 0 function _ _ _ _ _ _ htcb rfl rfl
  exact ⟨s', @ThreadStep.CreateThread _ _ _ (secondThread function) _ _ _ _ _ htcb rfl hcall⟩

def twoThreads : List NewThread :=
  [secondThread 0xffffffff80106000, firstThread 0xffffffff80105000]

/-- The idle thread switches to the first thread, the first to the second. -/
theorem a_new_thread_starts_at_its_function_of_two : ∃ w c,
    Run (Guarded requestsFit (ThreadStep 0xffffffff80110000 0xffffffff80120000)) smallHeap
      [.CreateThread 0 0xffffffff80105000, .CreateThread 0 0xffffffff80106000,
        .switch_thread 0xffffffff80110000] w ∧
    Switches 0xffffffff80110000 0xffffffff80120000 w c 0xffffffff80114038 ∧
    ∃ rip c', X86.run 0 switch_thread c = some (rip, c') ∧
      (secondThread 0xffffffff80106000).StartsAt rip c'.regs := by
  obtain ⟨s₁, -, hstep₁, -, -, hglobals⟩ :=
    @firstThread_created smallHeap.code rfl (absurd rfl) [] 0xffffffff80105000
  obtain ⟨s₂, hstep₂⟩ :=
    secondThread_created [firstThread 0xffffffff80105000] 0xffffffff80106000 hglobals
  have hfits₁ : requestsFit smallHeap (.CreateThread 0 0xffffffff80105000) := by
    rintro sz alignment h
    cases h
    decide
  have hfits₂ : requestsFit ⟨s₁, [firstThread 0xffffffff80105000], []⟩
      (.CreateThread 0 0xffffffff80106000) := by
    rintro sz alignment h
    cases h
    change ¬ WrapsBelowLimit s₁.globals createSize 8
    rw [hglobals]
    decide
  have run₁ : Run (Guarded requestsFit (ThreadStep _ _)) _ _ _ := .single ⟨hfits₁, hstep₁⟩
  have run₂ := run₁.snoc ⟨hfits₂, hstep₂⟩
  -- the idle thread starts the first
  have hidle : Switches 0xffffffff80110000 0xffffffff80120000 ⟨s₂, twoThreads, []⟩
      ⟨idleRegs, 0, false, s₂.mem⟩ 0xffffffff80110000 := ⟨rfl, rfl, idle_outside _ _⟩
  obtain ⟨rip, c₁, hrun₁, -⟩ := switch_thread.spec ⟨idleRegs, 0, false, s₂.mem⟩
  have hfits₃ : requestsFit ⟨s₂, twoThreads, []⟩ (.switch_thread 0xffffffff80110000) := by
    rintro sz alignment h
    cases h
  have run := run₂.snoc ⟨hfits₃, ThreadStep.switch_thread hidle hrun₁⟩
  -- and that is what calls for the second
  have hfirst : firstThread 0xffffffff80105000 ∈ twoThreads := by simp [twoThreads]
  have hswitches : Switches 0xffffffff80110000 0xffffffff80120000
      ⟨{ s₂ with mem := c₁.mem }, twoThreads, [0xffffffff80110000]⟩
      ⟨firstRegs, 0, false, c₁.mem⟩ 0xffffffff80114038 :=
    ⟨rfl, rfl, .created _ hfirst List.mem_cons_self rfl fun _ => firstRegs_inside⟩
  have hnew : (secondThread 0xffffffff80106000).tcb ∉ [(0xffffffff80110000 : U64)] := by
    decide
  exact ⟨_, _, run, hswitches, (a_new_thread_starts_at_its_function run).1 _ List.mem_cons_self hnew _
    hswitches⟩

/-- A request that moves the heap down to the first thread, and a second one. -/
theorem a_new_thread_is_laid_over_another : ∃ w w',
    Run (ThreadStep 0xffffffff80110000 0xffffffff80120000) smallHeap
      [.CreateThread 0 0xffffffff80105000, .kmalloc_aligned 0xffffffffffffbfc8 8] w ∧
    ThreadStep 0xffffffff80110000 0xffffffff80120000 w (.CreateThread 0 0xffffffff80106000) w' ∧
    ¬ ∃ th, Creates w w' 0xffffffff80106000 th := by
  obtain ⟨s, node, hstep, hmade, htail, hglobals⟩ :=
    @firstThread_created smallHeap.code rfl (absurd rfl) [] 0xffffffff80105000
  have hmove : kmalloc_aligned 0xffffffffffffbfc8 8 s.globals =
      ok (0xffffffff80114038, smallHeap.code.globals) := by
    rw [hglobals]
    rfl
  have hagain : ThreadStep 0xffffffff80110000 0xffffffff80120000
      ⟨s, [firstThread 0xffffffff80105000], []⟩ (.kmalloc_aligned 0xffffffffffffbfc8 8)
      ⟨{ s with globals := smallHeap.code.globals }, [firstThread 0xffffffff80105000], []⟩ :=
    .kmalloc_aligned hmove
  obtain ⟨s', node', hstep', hmade', -, -⟩ :=
    @firstThread_created { s with globals := smallHeap.code.globals } rfl (fun _ => htail)
      [firstThread 0xffffffff80105000] 0xffffffff80106000
  refine ⟨_, _, .snoc (.single hstep) hagain, hstep', ?_⟩
  rintro ⟨th, hcreates⟩
  -- the return address of the first thread is that of the second now
  have hsame : load64 s'.mem ((firstThread 0xffffffff80105000).stack_top + 0x78) =
      load64 s.mem ((firstThread 0xffffffff80105000).stack_top + 0x78) := by
    refine load64_congr fun x hx => hcreates.others _ List.mem_cons_self x (Or.inr ?_)
    apply NewThread.stack_top_inside
    unfold InRange at *
    bv_omega
  have hfirst : load64 s.mem ((firstThread 0xffffffff80105000).stack_top + 0x78) =
      0xffffffff80105000 := hmade.saved.rip
  have hsecond : load64 s'.mem ((firstThread 0xffffffff80106000).stack_top + 0x78) =
      0xffffffff80106000 := hmade'.saved.rip
  rw [hfirst] at hsame
  exact absurd (hsecond.symm.trans hsame) (by decide)

end lobo
