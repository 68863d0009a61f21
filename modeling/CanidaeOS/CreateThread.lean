-- `CreateThread` (`scheduler.cpp`) on the bytes of memory. It lays out by hand
-- what `switch_thread` pops: a new thread looks like one that has called it,
-- with the function as the return address.
import CanidaeOS.HeapBlocks
import CanidaeOS.SwitchThread
import CanidaeOS.Scheduler

open Program Machine X86 Outcome

namespace lobo

/-! ## The code -/

/-- The heap, memory, and what `CreateThread` uses of the scheduler: the list
of threads is its head, tail and size, with the nodes in memory. -/
structure Threading where
  globals : Globals
  mem : Memory
  next_tid : U32
  currentTask : U64
  m_head : U64
  m_tail : U64
  m_size : U64

/-- Store words from `a` on, the first one lowest. -/
def storeWords (m : Memory) (a : U64) : List U64 → Memory
  | [] => m
  | v :: vs => storeWords (store64 m a v) (a + 8) vs

/-- The fields of the control block. `Ready` is 0. -/
def fill_block (toCreate stack_top name threadID currentTask : U64) (m : Memory) : Memory :=
  let m := store64 m (toCreate + 16) name
  let m := store64 m toCreate stack_top
  let m := store64 m (toCreate + 24) threadID
  let m := storeBytes m (toCreate + 8) 4 0
  store64 m (toCreate + 32) (load64 m (currentTask + 8))

/-- The words of `newStack`. -/
def fill_stack (toCreate function : U64) (m : Memory) : Memory :=
  let newStack := load64 m toCreate
  -- r15 to r8, rdi and rsi
  let m := storeWords m newStack [0, 0, 0, 0, 0, 0, 0, 0, 0, 0]
  -- rbp, rbx, rdx, rcx, rax and rip
  storeWords m (newStack + 0x8 * 0x0A) [load64 m toCreate, 0, 0, 0, 0, function]

namespace Threading

/-- `threads.push_back(val)`, with `create_head` for the empty list. -/
def push_back (val : U64) (s : Threading) : Outcome Stop Threading := do
  let (new_node, globals) ← kmalloc 16 s.globals
  let mem := store64 (store64 s.mem new_node val) (new_node + 8) 0
  if s.m_head = 0 then
    ok { s with globals, mem, m_head := new_node, m_tail := new_node, m_size := 1 }
  else
    let mem := store64 mem (s.m_tail + 8) new_node
    ok { s with globals, mem, m_tail := new_node, m_size := s.m_size + 1 }

def CreateThread (name function : U64) (s : Threading) : Outcome Stop (U64 × Threading) := do
  let (toCreate, globals) ← kmalloc 40 s.globals
  let (stack, globals) ← kmalloc Scheduler.THREAD_STACK_SIZE globals
  let stackAddr := stack + Scheduler.THREAD_STACK_SIZE
  let mem := fill_block toCreate (stackAddr - 0x8 * 0x10) name (s.next_tid.signExtend 64)
    s.currentTask s.mem
  let mem := fill_stack toCreate function mem
  let s ← push_back toCreate { s with globals, mem, next_tid := s.next_tid + 1 }
  ok (toCreate, s)

end Threading

/-! ## Rows of words -/

theorem storeWords_append (m : Memory) (a : U64) (vs vs' : List U64) :
    storeWords m a (vs ++ vs') =
      storeWords (storeWords m a vs) (a + BitVec.ofNat 64 (8 * vs.length)) vs' := by
  induction vs generalizing m a with
  | nil => simp [storeWords]
  | cons v vs ih =>
    have hnext : a + BitVec.ofNat 64 (8 * (v :: vs).length) =
        a + 8 + BitVec.ofNat 64 (8 * vs.length) := by
      rw [List.length_cons, show 8 * (vs.length + 1) = 8 + 8 * vs.length by ring, BitVec.ofNat_add,
        BitVec.add_assoc]
      rfl
    rw [hnext]
    exact ih _ _

/-- What a row of stores does: its words, and nothing else. -/
structure Stored (m m' : Memory) (a : U64) (vs : List U64) : Prop where
  words : ∀ i (h : i < vs.length), load64 m' (a + BitVec.ofNat 64 (8 * i)) = vs[i]
  frame : ∀ x, ¬ InRange a (8 * vs.length) x → m' x = m x

theorem storeWords.spec (m : Memory) (a : U64) {vs : List U64} (hlen : 8 * vs.length < 2 ^ 62) :
    Stored m (storeWords m a vs) a vs := by
  induction vs generalizing m a with
  | nil => exact ⟨by simp, fun _ _ => rfl⟩
  | cons v vs ih =>
    rw [List.length_cons] at hlen
    obtain ⟨hwords, hframe⟩ := ih (store64 m a v) (a + 8) (by omega)
    refine ⟨fun i hi => ?_, fun x hx => ?_⟩
    · cases i with
      | zero =>
        -- the later words are above the first one
        have hkeep : load64 (storeWords (store64 m a v) (a + 8) vs) a =
            load64 (store64 m a v) a := by
          refine load64_congr fun x hx => hframe x ?_
          unfold InRange at *
          bv_omega
        rw [Nat.mul_zero, show a + BitVec.ofNat 64 0 = a from BitVec.add_zero a]
        exact hkeep.trans (load64_store64 m a v)
      | succ i =>
        have hnext : a + BitVec.ofNat 64 (8 * (i + 1)) = a + 8 + BitVec.ofNat 64 (8 * i) := by
          rw [show 8 * (i + 1) = 8 + 8 * i by ring, BitVec.ofNat_add, BitVec.add_assoc]
          rfl
        rw [hnext]
        exact hwords i (by simpa using hi)
    · rw [List.length_cons] at hx
      have hlength : 8 + 8 * vs.length = 8 * (vs.length + 1) := by omega
      have hrest : ¬ InRange (a + 8) (8 * vs.length) x := fun hin =>
        hx (inRange_of_part hlength.le hin)
      have hfirst : ¬ InRange a 8 x := fun hin => hx (Nat.lt_of_lt_of_le hin (by omega))
      exact (hframe x hrest).trans (store64_frame _ _ _ hfirst)

/-! ## What is laid out -/

/-- A thread that `CreateThread` has made, with the blocks that it got. -/
structure NewThread where
  tcb : U64
  stack : U64
  function : U64

namespace NewThread

/-- The address is in one of the blocks of the thread. -/
def Holds (th : NewThread) (x : U64) : Prop := InRange th.tcb 40 x ∨ InRange th.stack 0x4000 x

def stack_top (th : NewThread) : U64 := th.stack + Scheduler.THREAD_STACK_SIZE - 0x8 * 0x10

/-- The context that the words stand for. -/
def context (th : NewThread) : Context where
  rip := th.function
  regs
    | .rsp => th.stack_top + 0x78
    | .rbp => th.stack_top
    | _ => 0

/-- The 16 words from `stack_top` on. -/
def words (th : NewThread) : List U64 :=
  [0, 0, 0, 0, 0, 0, 0, 0, 0, 0, th.stack_top, 0, 0, 0, 0, th.function]

/-- The place of the context, from the lowest of the saved registers on. -/
theorem below_context (th : NewThread) : below (th.context.regs .rsp) 15 = th.stack_top := by
  show below (th.stack_top + 0x78) 15 = th.stack_top
  unfold below
  bv_omega

theorem stack_top_inside (th : NewThread) {x : U64} (hx : InRange th.stack_top 128 x) :
    InRange th.stack 0x4000 x := by
  unfold stack_top Scheduler.THREAD_STACK_SIZE PAGE_SIZE InRange at *
  bv_omega

/-- The scheduler's own model of the call has the same `stack_top`. -/
theorem stack_top_of_scheduler (th : NewThread) (name : String) (s : Scheduler) :
    ((s.CreateThread name th.stack).2.thread (s.CreateThread name th.stack).1).stack_top =
      th.stack_top := by
  simp [Scheduler.CreateThread, Scheduler.set_thread, stack_top]

/-- The words are a saved context. -/
theorem saved {th : NewThread} {m m' : Memory} (h : Stored m m' th.stack_top th.words)
    (htop : load64 m' th.tcb = th.stack_top) : Saved m' th.context (load64 m' th.tcb) := by
  have hlength : th.words.length = 16 := rfl
  refine ⟨?_, ?_, fun i hi => ?_⟩
  · rw [below_context]
    exact htop
  · have hrip := h.words 15 (by omega)
    rw [show th.context.regs .rsp = th.stack_top + BitVec.ofNat 64 (8 * 15) from rfl]
    exact hrip
  · have hi15 : i < 15 := hi
    have hplace : below (th.context.regs .rsp) (i + 1) =
        th.stack_top + BitVec.ofNat 64 (8 * (14 - i)) := by
      show below (th.stack_top + 0x78) (i + 1) = _
      unfold below
      bv_omega
    rw [hplace, h.words (14 - i) (by omega)]
    -- the first register pushed is the last word below the return address
    interval_cases i <;> rfl

end NewThread

/-! ## The specs -/

theorem fill_block.spec (toCreate stack_top name threadID currentTask : U64) (m : Memory) :
    load64 (fill_block toCreate stack_top name threadID currentTask m) toCreate = stack_top ∧
      ∀ x, ¬ InRange toCreate 40 x →
        fill_block toCreate stack_top name threadID currentTask m x = m x := by
  constructor
  · refine (load64_congr fun x hx => ?_).trans
      (load64_store64 (store64 m (toCreate + 16) name) toCreate stack_top)
    -- the later fields are above the first one
    have habove : ∀ i : U64, 8 ≤ i.toNat → i.toNat ≤ 32 → ¬ InRange (toCreate + i) 8 x := by
      intro i hlow hhigh
      unfold InRange at *
      bv_omega
    have hstate : ¬ InRange (toCreate + 8) 4 x := fun hin =>
      habove 8 (by decide) (by decide) (Nat.lt_trans hin (by decide))
    unfold fill_block
    rw [store64_frame _ _ _ (habove 32 (by decide) (by decide)), storeBytes_frame hstate,
      store64_frame _ _ _ (habove 24 (by decide) (by decide))]
  · intro x hx
    have hfirst : ¬ InRange toCreate 8 x := fun hin => hx (Nat.lt_trans hin (by decide))
    have hfield : ∀ (i : U64) k, i.toNat + k ≤ 40 → ¬ InRange (toCreate + i) k x :=
      fun i k hle hin => hx (inRange_of_part hle hin)
    unfold fill_block
    rw [store64_frame _ _ _ (hfield 32 8 (by decide)), storeBytes_frame (hfield 8 4 (by decide)),
      store64_frame _ _ _ (hfield 24 8 (by decide)), store64_frame _ _ _ hfirst,
      store64_frame _ _ _ (hfield 16 8 (by decide))]

theorem fill_stack.spec {th : NewThread} {m : Memory} (htop : load64 m th.tcb = th.stack_top)
    (hapart : Apart th.tcb 8 th.stack_top 128) :
    Stored m (fill_stack th.tcb th.function m) th.stack_top th.words := by
  have hlength : 8 * [(0 : U64), 0, 0, 0, 0, 0, 0, 0, 0, 0].length < 2 ^ 62 := by decide
  have hfirst := storeWords.spec m th.stack_top hlength
  -- the words so far leave the control block as it is
  have hkeep : load64 (storeWords m th.stack_top [0, 0, 0, 0, 0, 0, 0, 0, 0, 0]) th.tcb =
      th.stack_top := by
    refine (load64_congr fun x hx => hfirst.frame x ?_).trans htop
    have hout := hapart x hx
    intro hin
    exact hout (Nat.lt_trans hin (by decide))
  have hwords : fill_stack th.tcb th.function m = storeWords m th.stack_top th.words := by
    unfold fill_stack
    dsimp only
    rw [htop, hkeep]
    exact (storeWords_append m th.stack_top [0, 0, 0, 0, 0, 0, 0, 0, 0, 0] _).symm
  rw [hwords]
  exact storeWords.spec m th.stack_top (by decide : 8 * 16 < 2 ^ 62)

/-- What a push that returns has done. -/
structure PushedBack (s s' : Threading) (node : U64) : Prop where
  alloc : Allocated s.globals s'.globals 16 8 node
  tail : s'.m_tail = node
  frame : ∀ x, ¬ InRange node 16 x → (s.m_head ≠ 0 → ¬ InRange (s.m_tail + 8) 8 x) →
    s'.mem x = s.mem x

theorem Threading.push_back.spec {s s' : Threading} {val : U64} (h : s.push_back val = ok s') :
    ∃ node, PushedBack s s' node := by
  obtain ⟨⟨node, g⟩, hnode, h⟩ := bind_eq_ok.mp h
  have halloc := kmalloc_aligned.spec hnode
  have hfilled : ∀ x, ¬ InRange node 16 x →
      store64 (store64 s.mem node val) (node + 8) 0 x = s.mem x := by
    intro x hx
    have hval : ¬ InRange node 8 x := fun hin => hx (Nat.lt_trans hin (by decide))
    have hnext : ¬ InRange (node + 8) 8 x := fun hin =>
      hx (inRange_of_part (by decide) hin)
    rw [store64_frame _ _ _ hnext, store64_frame _ _ _ hval]
  dsimp only at h
  split at h
  · cases h
    exact ⟨node, halloc, rfl, fun x hx _ => hfilled x hx⟩
  · rename_i hhead
    cases h
    exact ⟨node, halloc, rfl, fun x hx hlink =>
      (store64_frame _ _ _ (hlink hhead)).trans (hfilled x hx)⟩

/-- The three blocks of a call, one behind the other. -/
structure Placed (g g' : Globals) (th : NewThread) (node : U64) : Prop where
  above : g.earlyAllocBase.toNat ≤ th.tcb.toNat
  stack : th.stack.toNat = th.tcb.toNat + 40
  node : node.toNat = th.tcb.toNat + 0x4028
  position : g'.earlyAllocBase.toNat = th.tcb.toNat + 0x4038
  limit : g'.earlyAllocLimit = g.earlyAllocLimit
  le_limit : g'.earlyAllocBase.toNat ≤ g.earlyAllocLimit.toNat

/-- A block is handed out at a position that is aligned. -/
theorem Allocated.at_position {g g' : Globals} {sz block : U64} (h : Allocated g g' sz 8 block)
    (hdvd : 8 ∣ g.earlyAllocBase.toNat) : block = g.earlyAllocBase := by
  apply BitVec.eq_of_toNat_eq
  have hisLt := g.earlyAllocBase.isLt
  have hmod : g.earlyAllocBase.toNat % 8 = 0 := Nat.mod_eq_zero_of_dvd hdvd
  have hup : alignedUp g.earlyAllocBase.toNat 8 = g.earlyAllocBase.toNat := by
    rw [alignedUp, hmod]
    exact if_neg (not_not.mpr rfl)
  have hblock : block.toNat = alignedUp g.earlyAllocBase.toNat 8 % 2 ^ 64 := h.block_eq
  rw [hblock, hup, Nat.mod_eq_of_lt hisLt]

theorem Allocated.dvd {g g' : Globals} {sz block : U64} (h : Allocated g g' sz 8 block) :
    8 ∣ block.toNat := by
  have hblock : block.toNat = alignedUp g.earlyAllocBase.toNat 8 % 2 ^ 64 := h.block_eq
  have hdvd : 8 ∣ alignedUp g.earlyAllocBase.toNat 8 := alignedUp_dvd _ (by decide)
  omega

/-- What the three requests of `CreateThread` add up to. -/
def createSize : U64 := 40 + Scheduler.THREAD_STACK_SIZE + 16

theorem placed {g g₁ g₂ g₃ : Globals} {th : NewThread} {node : U64}
    (h₁ : Allocated g g₁ 40 8 th.tcb) (h₂ : Allocated g₁ g₂ Scheduler.THREAD_STACK_SIZE 8 th.stack)
    (h₃ : Allocated g₂ g₃ 16 8 node) (hguard : ¬ WrapsBelowLimit g createSize 8) :
    Placed g g₃ th node := by
  have hsize : Scheduler.THREAD_STACK_SIZE = 0x4000 := rfl
  have hbase₁ := h₁.base_eq
  have hbase₂ := h₂.base_eq
  have hbase₃ := h₃.base_eq
  rw [hsize] at hbase₂
  have hdvd := h₁.dvd
  have hstack : th.stack = th.tcb + 40 := by
    rw [← hbase₁]
    apply h₂.at_position
    rw [hbase₁]
    bv_omega
  have hnode : node = th.tcb + 0x4028 := by
    have hposition : g₂.earlyAllocBase = th.tcb + 0x4028 := by
      rw [hbase₂, hstack, BitVec.add_assoc]
      rfl
    rw [← hposition]
    apply h₃.at_position
    rw [hposition]
    bv_omega
  have hlimit : g₃.earlyAllocLimit = g.earlyAllocLimit :=
    (h₃.limit_eq.trans h₂.limit_eq).trans h₁.limit_eq
  have hle : g₃.earlyAllocBase.toNat ≤ g.earlyAllocLimit.toNat := by
    rw [← hlimit, h₃.limit_eq]
    exact h₃.base_le
  have htcb : th.tcb.toNat = alignedUp g.earlyAllocBase.toNat 8 % 2 ^ 64 := h₁.block_eq
  have hge := alignedUp_ge g.earlyAllocBase.toNat 8
  -- the end of the last block did not wrap, so none of them did
  have hnowrap : alignedUp g.earlyAllocBase.toNat 8 + 0x4038 < 2 ^ 64 := by
    by_contra hwraps
    have hend : g₃.earlyAllocBase.toNat =
        (alignedUp g.earlyAllocBase.toNat 8 + 0x4038) % 2 ^ 64 := by
      rw [hbase₃, hnode]
      bv_omega
    have hsum : createSize.toNat = 0x4038 := rfl
    apply hguard
    unfold WrapsBelowLimit
    rw [hsum, show (8 : U64).toNat = 8 from rfl, ← hend]
    exact ⟨by omega, hle⟩
  have hfits : th.tcb.toNat + 0x4038 < 2 ^ 64 := by omega
  refine ⟨by omega, ?_, ?_, ?_, hlimit, hle⟩
  · rw [hstack]
    bv_omega
  · rw [hnode]
    bv_omega
  · rw [hbase₃, hnode]
    bv_omega

namespace Placed

variable {g g' : Globals} {th : NewThread} {node : U64} (h : Placed g g' th node)
include h

theorem fits : th.tcb.toNat + 0x4038 < 2 ^ 64 := by
  rw [← h.position]
  exact g'.earlyAllocBase.isLt

theorem tcb_stack : Apart th.tcb 40 th.stack 0x4000 := by
  have := h.fits
  have := h.stack
  exact apart_of_le (by omega) (by omega)

theorem tcb_node : Apart th.tcb 40 node 16 := by
  have := h.fits
  have := h.node
  exact apart_of_le (by omega) (by omega)

theorem stack_node : Apart th.stack 0x4000 node 16 := by
  have := h.fits
  have := h.stack
  have := h.node
  exact apart_of_le (by omega) (by omega)

end Placed

/-- What a call of `CreateThread` that returns has done. -/
structure Made (s s' : Threading) (th : NewThread) (node : U64) : Prop where
  placed : Placed s.globals s'.globals th node
  tail : s'.m_tail = node
  frame : ∀ x, ¬ InRange th.tcb 40 x → ¬ InRange th.stack_top 128 x → ¬ InRange node 16 x →
    (s.m_head ≠ 0 → ¬ InRange (s.m_tail + 8) 8 x) → s'.mem x = s.mem x
  saved : Saved s'.mem th.context (load64 s'.mem th.tcb)

theorem Threading.CreateThread.spec {s s' : Threading} {th : NewThread} {name toCreate : U64}
    {g₁ g₂ : Globals} (htcb : kmalloc 40 s.globals = ok (th.tcb, g₁))
    (hstack : kmalloc Scheduler.THREAD_STACK_SIZE g₁ = ok (th.stack, g₂))
    (h : s.CreateThread name th.function = ok (toCreate, s'))
    (hguard : ¬ WrapsBelowLimit s.globals createSize 8)
    (hlink : ∀ {g node}, Placed s.globals g th node → s.m_head ≠ 0 →
      ∀ x, th.Holds x → ¬ InRange (s.m_tail + 8) 8 x) :
    toCreate = th.tcb ∧ ∃ node, Made s s' th node := by
  rw [CreateThread, htcb, bind_ok] at h
  dsimp only at h
  rw [hstack, bind_ok] at h
  obtain ⟨s₁, hpush, hret⟩ := bind_eq_ok.mp h
  cases hret
  obtain ⟨node, hpushed⟩ := push_back.spec hpush
  have hplaced : Placed s.globals s'.globals th node :=
    placed (kmalloc_aligned.spec htcb) (kmalloc_aligned.spec hstack) hpushed.alloc hguard
  obtain ⟨htop, hblock⟩ := fill_block.spec th.tcb th.stack_top name (s.next_tid.signExtend 64)
    s.currentTask s.mem
  have hin : ∀ x, InRange th.tcb 8 x → InRange th.tcb 40 x := fun x hx =>
    Nat.lt_trans hx (by decide)
  have hstored := fill_stack.spec htop fun x hx hx' =>
    hplaced.tcb_stack x (hin x hx) (th.stack_top_inside hx')
  generalize hm : fill_stack th.tcb th.function (fill_block th.tcb th.stack_top name
    (s.next_tid.signExtend 64) s.currentTask s.mem) = m at hstored
  have hframe : ∀ x, ¬ InRange node 16 x → (s.m_head ≠ 0 → ¬ InRange (s.m_tail + 8) 8 x) →
      s'.mem x = m x := by
    rw [← hm]
    exact hpushed.frame
  have hlaid : load64 m th.tcb = th.stack_top := by
    refine (load64_congr fun x hx => hstored.frame x fun hx' => ?_).trans htop
    exact hplaced.tcb_stack x (hin x hx) (th.stack_top_inside hx')
  refine ⟨rfl, node, hplaced, hpushed.tail, fun x hx hx' hx'' hlinked => ?_, ?_⟩
  · rw [hframe x hx'' hlinked]
    exact (hstored.frame x hx').trans (hblock x hx)
  · -- the node and the link to it are in none of the thread's blocks
    apply (NewThread.saved hstored hlaid).congr
    · rw [th.below_context]
      intro x hx
      have hx' := th.stack_top_inside hx
      exact hframe x (hplaced.stack_node x hx') fun hhead => hlink hplaced hhead x (Or.inr hx')
    · intro x hx
      have hx' := hin x hx
      exact hframe x (hplaced.tcb_node x hx') fun hhead => hlink hplaced hhead x (Or.inl hx')

/-- The call returns when its blocks are handed out. -/
theorem Threading.CreateThread.total {s : Threading} {name function tcb stack node : U64}
    {g₁ g₂ g₃ : Globals} (htcb : kmalloc 40 s.globals = ok (tcb, g₁))
    (hstack : kmalloc Scheduler.THREAD_STACK_SIZE g₁ = ok (stack, g₂))
    (hnode : kmalloc 16 g₂ = ok (node, g₃)) : ∃ s', s.CreateThread name function = ok (tcb, s') ∧
      s'.globals = g₃ ∧ s'.m_tail = node := by
  rw [CreateThread, htcb, bind_ok]
  dsimp only
  rw [hstack, bind_ok]
  dsimp only
  rw [push_back, hnode, bind_ok]
  dsimp only
  split
  · exact ⟨_, rfl, rfl, rfl⟩
  · exact ⟨_, rfl, rfl, rfl⟩

end lobo
