-- The scheduler (`scheduler.cpp`): a list of threads, a position in it, and
-- the search for the next Ready thread. A pointer to a control block is a
-- number, zero for `nullptr`, and the blocks that pointers lead to are part
-- of the state.
import CanidaeOS.Kernel

open Program Machine Outcome

namespace lobo

inductive TCBState where
  | Ready
  | Running
  | Waiting
  | Dead
deriving DecidableEq, Repr

structure ThreadControlBlock where
  stack_top : U64
  state : TCBState
  threadName : String
  threadID : U64
  taskID : U64

structure TaskControlBlock where
  vas : U64
  taskID : U64
  state : TCBState
  taskName : String

abbrev ThreadPtr := Nat

abbrev TaskPtr := Nat

def nullptr : Nat := 0

/-- `&idleThread` -/
def idleThread : ThreadPtr := 1

/-- `&kernelTask` -/
def kernelTask : TaskPtr := 1

/-- The scheduler, the control blocks and `next_tid`. `nextThread` is the
pointer that the next `kmalloc` of a control block returns. -/
structure Scheduler where
  schedulingEnabled : Bool
  currentThread : ThreadPtr
  threads : List ThreadPtr
  tasks : List TaskPtr
  currentTask : TaskPtr
  currentThreadIndex : Nat
  thread : ThreadPtr → ThreadControlBlock
  task : TaskPtr → TaskControlBlock
  next_tid : U32
  nextThread : ThreadPtr

namespace Scheduler

/-! ## The code -/

/-- `kernel_sched` before any code has run. -/
def static : Scheduler where
  schedulingEnabled := false
  currentThread := nullptr
  threads := []
  tasks := []
  currentTask := nullptr
  currentThreadIndex := 0
  thread := fun _ => ⟨0, .Ready, "", 0, 0⟩
  task := fun _ => ⟨0, 0, .Ready, ""⟩
  next_tid := 1
  nextThread := 2

/-- `threads.at(index)` -/
def threads_at (s : Scheduler) (index : Nat) : ThreadPtr := s.threads.getD index nullptr

/-- The block that a pointer leads to. -/
def deref (s : Scheduler) (t : ThreadPtr) : Outcome Stop ThreadControlBlock :=
  if t = nullptr then .stop .outside else ok (s.thread t)

def set_thread (s : Scheduler) (t : ThreadPtr) (tcb : ThreadControlBlock) : Scheduler :=
  { s with thread := fun u => if u = t then tcb else s.thread u }

def with_state (s : Scheduler) (t : ThreadPtr) (state : TCBState) : Scheduler :=
  s.set_thread t { s.thread t with state }

/-- `t->state = state;` -/
def set_state (s : Scheduler) (t : ThreadPtr) (state : TCBState) : Outcome Stop Scheduler :=
  if t = nullptr then .stop .outside else ok (s.with_state t state)

/-- What `SwitchThread` does to the scheduler. The switch itself is
`switch_thread`. -/
def SwitchThread (s : Scheduler) (newThread : ThreadPtr) : Outcome Stop Scheduler := do
  assert (newThread ≠ nullptr) "newThread != nullptr"
  ok { s with currentThread := newThread }

/-- What `SwitchTask` does to the scheduler. The switch itself is
`switch_task_vas`. -/
def SwitchTask (s : Scheduler) (task : TaskPtr) : Outcome Stop Scheduler := do
  assert (task ≠ nullptr) "task != nullptr"
  ok { s with currentTask := task }

/-- `Init` with the address of the kernel's page directory. -/
def Init (pdir_kernel : U64) (s : Scheduler) : Outcome Stop Scheduler := do
  let task : TaskControlBlock := ⟨MEM_VIRT_TO_PHYS pdir_kernel, 0, .Running, "Lobo Kernel"⟩
  let s := { s with task := fun u => if u = kernelTask then task else s.task u }
  let s := { s with tasks := s.tasks ++ [kernelTask] }
  let idle := s.thread idleThread
  let s := s.set_thread idleThread { idle with stack_top := 0, threadName := "k/idle", taskID := 0 }
  let s := { s with currentThread := idleThread, currentTask := kernelTask }
  let s ← s.SwitchTask kernelTask
  let s ← s.SwitchThread idleThread
  ok { s with threads := s.threads ++ [idleThread] }

def THREAD_STACK_SIZE : U64 := 4 * PAGE_SIZE

/-- `CreateThread` with the stack that `kmalloc` returns. -/
def CreateThread (name : String) (stack : U64) (s : Scheduler) : ThreadPtr × Scheduler :=
  let toCreate := s.nextThread
  let stackAddr := stack + THREAD_STACK_SIZE
  let tcb : ThreadControlBlock :=
    { threadName := name, stack_top := stackAddr - 0x8 * 0x10, threadID := s.next_tid.setWidth 64,
      state := .Ready, taskID := (s.task s.currentTask).taskID }
  let s := s.set_thread toCreate tcb
  (toCreate, { s with
    next_tid := s.next_tid + 1, nextThread := s.nextThread + 1, threads := s.threads ++ [toCreate] })

def EnableScheduling (s : Scheduler) : Scheduler := { s with schedulingEnabled := true }

def DisableScheduling (s : Scheduler) : Scheduler := { s with schedulingEnabled := false }

def maxTries : Nat := 500

/-- `if (++currentThreadIndex >= threads.size()) { currentThreadIndex = 0; }` -/
def advance (s : Scheduler) : Scheduler :=
  { s with currentThreadIndex :=
      if s.currentThreadIndex + 1 ≥ s.threads.length then 0 else s.currentThreadIndex + 1 }

/-- One turn of the search in `Schedule`, with the tries so far. The result is
the thread that was switched to, if any. -/
def scheduleTurn (t : Nat × Scheduler) :
    Outcome Stop (Turn (Nat × Scheduler) (Option ThreadPtr × Scheduler)) := do
  let s := t.2.advance
  let new_thread := s.threads_at s.currentThreadIndex
  let tcb ← s.deref new_thread
  if tcb.state ≠ .Ready then
    let tries := t.1 + 1
    if tries > maxTries then ok (.leave (none, s)) else ok (.next (tries, s))
  else do
    let s ← s.set_state s.currentThread .Ready
    let s ← s.set_state new_thread .Running
    let s ← s.SwitchThread (s.threads_at s.currentThreadIndex)
    ok (.leave (some s.currentThread, s))

/-- At most `maxTries + 1` turns look for a thread. -/
def Schedule (s : Scheduler) : Outcome Stop (Option ThreadPtr × Scheduler) :=
  if s.schedulingEnabled = false then ok (none, s)
  else loop scheduleTurn (maxTries + 1) (0, s)

def Yield (s : Scheduler) : Outcome Stop (Option ThreadPtr × Scheduler) := s.Schedule

/-! ## The spec of `Schedule` -/

/-- The scheduler after `k` advances. -/
def advanced (s : Scheduler) : Nat → Scheduler
  | 0 => s
  | k + 1 => (s.advanced k).advance

/-- The thread that turn `k` looks at. -/
def candidate (s : Scheduler) (k : Nat) : ThreadPtr :=
  s.threads_at (s.advanced k).currentThreadIndex

def ReadyAt (s : Scheduler) (k : Nat) : Prop := (s.thread (s.candidate k)).state = .Ready

/-- The scheduler after a switch to `t`: the outgoing thread Ready, then `t`
Running. -/
def switchedTo (s : Scheduler) (t : ThreadPtr) : Scheduler :=
  { (s.with_state s.currentThread .Ready).with_state t .Running with currentThread := t }

theorem with_state_state (s : Scheduler) (t u : ThreadPtr) (state : TCBState) :
    ((s.with_state t state).thread u).state = if u = t then state else (s.thread u).state := by
  unfold with_state set_thread
  dsimp only
  split <;> rfl

theorem switchedTo_state (s : Scheduler) (t u : ThreadPtr) :
    ((s.switchedTo t).thread u).state =
      if u = t then .Running else if u = s.currentThread then .Ready else (s.thread u).state := by
  change (((s.with_state s.currentThread .Ready).with_state t .Running).thread u).state = _
  rw [with_state_state, with_state_state]

theorem advanced_eq (s : Scheduler) (k : Nat) :
    s.advanced k = { s with currentThreadIndex := (s.advanced k).currentThreadIndex } := by
  induction k with
  | zero => rfl
  | succ k ih =>
    rw [advanced, advance, ih]

theorem candidate_mem {s : Scheduler} {k : Nat} (h : s.candidate k ≠ nullptr) :
    s.candidate k ∈ s.threads := by
  unfold candidate threads_at at *
  by_cases hlt : (s.advanced k).currentThreadIndex < s.threads.length
  · rw [List.getD_eq_getElem _ _ hlt]
    exact List.getElem_mem hlt
  · rw [List.getD_eq_default _ _ (Nat.le_of_not_lt hlt)] at h
    exact absurd rfl h

theorem deref_eq_ok {s : Scheduler} {t : ThreadPtr} {tcb : ThreadControlBlock} :
    s.deref t = ok tcb ↔ t ≠ nullptr ∧ tcb = s.thread t := by
  unfold deref
  split <;> simp_all [eq_comm]

@[simp] theorem advanced_thread (s : Scheduler) (k : Nat) : (s.advanced k).thread = s.thread := by
  rw [advanced_eq]

@[simp] theorem advanced_threads (s : Scheduler) (k : Nat) :
    (s.advanced k).threads = s.threads := by
  rw [advanced_eq]

@[simp] theorem advanced_currentThread (s : Scheduler) (k : Nat) :
    (s.advanced k).currentThread = s.currentThread := by
  rw [advanced_eq]

theorem advanced_candidate (s : Scheduler) (k : Nat) :
    (s.advanced k).threads_at (s.advanced k).currentThreadIndex = s.candidate k := by
  rw [candidate, threads_at, advanced_threads]
  rfl

theorem set_state_eq_ok {s s' : Scheduler} {t : ThreadPtr} {state : TCBState} :
    s.set_state t state = ok s' ↔ t ≠ nullptr ∧ s' = s.with_state t state := by
  unfold set_state
  split <;> simp_all [eq_comm]

/-- What one turn decides. -/
theorem scheduleTurn_eq {s : Scheduler} {k tries : Nat}
    {r : Turn (Nat × Scheduler) (Option ThreadPtr × Scheduler)}
    (h : scheduleTurn (tries, s.advanced k) = ok r) :
    s.candidate (k + 1) ≠ nullptr ∧
    ((¬ s.ReadyAt (k + 1) ∧ tries < maxTries ∧ r = .next (tries + 1, s.advanced (k + 1))) ∨
    (¬ s.ReadyAt (k + 1) ∧ maxTries ≤ tries ∧ r = .leave (none, s.advanced (k + 1))) ∨
    (s.ReadyAt (k + 1) ∧ s.currentThread ≠ nullptr ∧
      r = .leave (some (s.candidate (k + 1)),
        (s.advanced (k + 1)).switchedTo (s.candidate (k + 1))))) := by
  have hcand := advanced_candidate s (k + 1)
  have hadv : (s.advanced k).advance = s.advanced (k + 1) := rfl
  simp only [scheduleTurn, hadv, hcand] at h
  obtain ⟨tcb, htcb, h⟩ := bind_eq_ok.mp h
  obtain ⟨hne, rfl⟩ := deref_eq_ok.mp htcb
  refine ⟨hne, ?_⟩
  rw [advanced_thread] at h
  split at h
  · rename_i hready
    split at h
    · rename_i htries
      cases h
      exact Or.inr (Or.inl ⟨hready, by omega, rfl⟩)
    · rename_i htries
      cases h
      exact Or.inl ⟨hready, by omega, rfl⟩
  · rename_i hready
    rw [not_not] at hready
    obtain ⟨s₁, h₁, h⟩ := bind_eq_ok.mp h
    obtain ⟨s₂, h₂, h⟩ := bind_eq_ok.mp h
    obtain ⟨s₃, h₃, h⟩ := bind_eq_ok.mp h
    obtain ⟨hcur, rfl⟩ := set_state_eq_ok.mp h₁
    obtain ⟨-, rfl⟩ := set_state_eq_ok.mp h₂
    obtain ⟨_, _, h₃⟩ := bind_eq_ok.mp h₃
    cases h₃
    cases h
    rw [advanced_currentThread] at hcur
    refine Or.inr (Or.inr ⟨hready, hcur, ?_⟩)
    have hsame : (((s.advanced (k + 1)).with_state (s.advanced (k + 1)).currentThread .Ready).with_state
        (s.candidate (k + 1)) .Running).threads_at (((s.advanced (k + 1)).with_state
        (s.advanced (k + 1)).currentThread .Ready).with_state
        (s.candidate (k + 1)) .Running).currentThreadIndex = s.candidate (k + 1) := hcand
    rw [hsame]
    rfl

/-- What a call of `Schedule` that returns has done: nothing while scheduling
is disabled; with no Ready thread in `maxTries + 1` positions, only moved the
position; otherwise switched to the first Ready thread. -/
theorem Schedule.spec {s s' : Scheduler} {r : Option ThreadPtr} (h : s.Schedule = ok (r, s')) :
    (s.schedulingEnabled = false ∧ r = none ∧ s' = s) ∨
    (s.schedulingEnabled = true ∧ (∀ k, 1 ≤ k → k ≤ maxTries + 1 → ¬ s.ReadyAt k) ∧
      r = none ∧ s' = s.advanced (maxTries + 1)) ∨
    (s.schedulingEnabled = true ∧ ∃ k, 1 ≤ k ∧ k ≤ maxTries + 1 ∧
      (∀ j, 1 ≤ j → j < k → ¬ s.ReadyAt j) ∧ s.ReadyAt k ∧ s.candidate k ∈ s.threads ∧
      s.currentThread ≠ nullptr ∧ r = some (s.candidate k) ∧
      s' = (s.advanced k).switchedTo (s.candidate k)) := by
  unfold Schedule at h
  split at h
  · rename_i hdis
    cases h
    exact Or.inl ⟨hdis, rfl, rfl⟩
  · rename_i hen
    rw [Bool.not_eq_false] at hen
    refine Or.inr ?_
    -- after `k` turns, the first `k` candidates are not Ready
    refine loop_inv (I := fun t : Nat × Scheduler => t.1 ≤ maxTries ∧ t.2 = s.advanced t.1 ∧
        ∀ j, 1 ≤ j → j ≤ t.1 → ¬ s.ReadyAt j)
      (Q := fun b : Option ThreadPtr × Scheduler =>
        (s.schedulingEnabled = true ∧ (∀ k, 1 ≤ k → k ≤ maxTries + 1 → ¬ s.ReadyAt k) ∧
          b.1 = none ∧ b.2 = s.advanced (maxTries + 1)) ∨
        (s.schedulingEnabled = true ∧ ∃ k, 1 ≤ k ∧ k ≤ maxTries + 1 ∧
          (∀ j, 1 ≤ j → j < k → ¬ s.ReadyAt j) ∧ s.ReadyAt k ∧ s.candidate k ∈ s.threads ∧
          s.currentThread ≠ nullptr ∧ b.1 = some (s.candidate k) ∧
          b.2 = (s.advanced k).switchedTo (s.candidate k))) ?_ ?_
      ⟨Nat.zero_le _, rfl, fun j h1 h2 => by dsimp only at h2; omega⟩ h
    · rintro ⟨k, q⟩ t' ⟨hk, hq, hnot⟩ hturn
      dsimp only at hk hq hnot
      subst hq
      obtain ⟨_, ⟨hnr, htries, he⟩ | ⟨_, _, he⟩ | ⟨_, _, he⟩⟩ := scheduleTurn_eq hturn
      · cases he
        refine ⟨htries, rfl, fun j h1 h2 => ?_⟩
        rcases Nat.eq_or_lt_of_le h2 with rfl | hlt
        · exact hnr
        · exact hnot j h1 (by dsimp only at hlt; omega)
      · cases he
      · cases he
    · rintro ⟨k, q⟩ b ⟨hk, hq, hnot⟩ hturn
      dsimp only at hk hq hnot
      subst hq
      obtain ⟨hne, ⟨_, _, he⟩ | ⟨hnr, htries, he⟩ | ⟨hr, hcur, he⟩⟩ := scheduleTurn_eq hturn
      · cases he
      · cases he
        obtain rfl : k = maxTries := Nat.le_antisymm hk htries
        refine Or.inl ⟨hen, fun j h1 h2 => ?_, rfl, rfl⟩
        rcases Nat.eq_or_lt_of_le h2 with rfl | hlt
        · exact hnr
        · exact hnot j h1 (by omega)
      · cases he
        exact Or.inr ⟨hen, k + 1, by omega, by omega, fun j h1 h2 => hnot j h1 (by omega), hr,
          candidate_mem hne, hcur, rfl, rfl⟩

end Scheduler
end lobo
