-- Threads and the tasks that own them. A thread belongs to the task that was
-- current when it was created, and keeps that owner. `Schedule` picks a thread
-- by its state alone and leaves the current task as it was.
import CanidaeOS.SchedulerRuns

open Program Machine Outcome Runs

namespace lobo.Scheduler

/-! ## Runs over several tasks -/

/-- The scheduler, and for each thread the task that was current when the
thread was created. -/
structure Tasks where
  kernel : Kernel
  creator : ThreadPtr → TaskPtr

inductive TaskEvent where
  | call (e : SchedEvent)
  | SwitchTask (task : TaskPtr)

/-- The creators after a call: a new thread's is the current task. -/
def creatorAfter (w : Tasks) : SchedEvent → ThreadPtr → TaskPtr
  | .CreateThread _ _ => fun t =>
    if t = w.kernel.sched.nextThread then w.kernel.sched.currentTask else w.creator t
  | _ => w.creator

inductive TaskStep : Tasks → TaskEvent → Tasks → Prop
  | call {w : Tasks} {e : SchedEvent} {k : Kernel} :
      SchedStep w.kernel e k → TaskStep w (.call e) ⟨k, creatorAfter w e⟩
  | SwitchTask {w : Tasks} {task : TaskPtr} {s : Scheduler} :
      w.kernel.sched.SwitchTask task = ok s →
      TaskStep w (.SwitchTask task) ⟨⟨s, w.kernel.switches⟩, w.creator⟩

/-- The state after `Init`, which makes the idle thread the kernel task's. -/
def started (s : Scheduler) : Tasks := ⟨⟨s, []⟩, fun _ => kernelTask⟩

/-- The task that is current is the owner of the thread that is current. -/
def OwnerRuns (s : Scheduler) : Prop :=
  (s.task s.currentTask).taskID = (s.thread s.currentThread).taskID

/-- Turn `k` of the search is the first to find a Ready thread. -/
def FirstReady (s : Scheduler) (k : Nat) : Prop :=
  1 ≤ k ∧ k ≤ maxTries + 1 ∧ (∀ j, 1 ≤ j → j < k → ¬ s.ReadyAt j) ∧ s.ReadyAt k

/-- The first Ready thread was created while a task with the current task's ID
was current. -/
def nextIsOurs (w : Tasks) : Prop :=
  ∀ k, w.kernel.sched.FirstReady k →
    (w.kernel.sched.task (w.creator (w.kernel.sched.candidate k))).taskID =
      (w.kernel.sched.task w.kernel.sched.currentTask).taskID

/-! ## Steps -/

/-- What every step keeps: each thread's owner is the task that created it. -/
structure Belongs (w : Tasks) : Prop where
  formed : w.kernel.sched.Formed
  owner : ∀ t ∈ w.kernel.sched.threads,
    (w.kernel.sched.thread t).taskID = (w.kernel.sched.task (w.creator t)).taskID

theorem with_state_taskID (s : Scheduler) (t u : ThreadPtr) (state : TCBState) :
    ((s.with_state t state).thread u).taskID = (s.thread u).taskID := by
  simp only [with_state, set_thread]
  split
  · rename_i h
    rw [h]
  · rfl

theorem switchedTo_taskID (s : Scheduler) (t u : ThreadPtr) :
    ((s.switchedTo t).thread u).taskID = (s.thread u).taskID := by
  change (((s.with_state s.currentThread .Ready).with_state t .Running).thread u).taskID = _
  rw [with_state_taskID, with_state_taskID]

/-- `Schedule` changes no owner, no task, and not which task is current. -/
theorem Schedule.keeps_tasks {s s' : Scheduler} {r : Option ThreadPtr}
    (h : s.Schedule = ok (r, s')) : s'.task = s.task ∧ s'.currentTask = s.currentTask ∧
      ∀ t, (s'.thread t).taskID = (s.thread t).taskID := by
  rcases Schedule.spec h with ⟨_, _, rfl⟩ | ⟨_, _, _, rfl⟩ | ⟨_, k, _, _, _, _, _, _, _, rfl⟩
  · exact ⟨rfl, rfl, fun _ => rfl⟩
  · rw [advanced_eq]
    exact ⟨rfl, rfl, fun _ => rfl⟩
  · refine ⟨?_, ?_, fun t => ?_⟩
    · rw [advanced_eq]
      rfl
    · rw [advanced_eq]
      rfl
    · rw [switchedTo_taskID, advanced_thread]

theorem belongs_call {w : Tasks} {e : SchedEvent} {k : Kernel} (hw : Belongs w)
    (h : SchedStep w.kernel e k) : Belongs ⟨k, creatorAfter w e⟩ := by
  have hformed := formed_step hw.formed h
  cases h with
  | CreateThread =>
    refine ⟨hformed, fun t ht => ?_⟩
    rcases List.mem_append.mp ht with ht | ht
    · have hne : t ≠ w.kernel.sched.nextThread := Nat.ne_of_lt (hw.formed.old t ht)
      simp only [Scheduler.CreateThread, set_thread, creatorAfter, if_neg hne]
      exact hw.owner t ht
    · obtain rfl := List.mem_singleton.mp ht
      simp [Scheduler.CreateThread, set_thread, creatorAfter]
  | EnableScheduling => exact ⟨hformed, hw.owner⟩
  | DisableScheduling => exact ⟨hformed, hw.owner⟩
  | Schedule hcall =>
    obtain ⟨htask, _, howner⟩ := Schedule.keeps_tasks hcall
    obtain ⟨_, hthreads⟩ := formed_schedule hw.formed hcall
    refine ⟨hformed, fun t ht => ?_⟩
    dsimp only at ht ⊢
    rw [hthreads] at ht
    rw [howner, htask]
    exact hw.owner t ht
  | write =>
    refine ⟨hformed, fun t ht => ?_⟩
    dsimp only
    rw [with_state_taskID]
    exact hw.owner t ht

theorem belongs_step {w w' : Tasks} {e : TaskEvent} (hw : Belongs w) (h : TaskStep w e w') :
    Belongs w' := by
  cases h with
  | call hstep => exact belongs_call hw hstep
  | SwitchTask hswitch =>
    obtain ⟨_, _, he⟩ := bind_eq_ok.mp hswitch
    cases he
    exact ⟨⟨hw.formed.current, hw.formed.old⟩, hw.owner⟩

/-- `Init` makes the idle thread the kernel task's, and both current. -/
theorem Init.spec {pdir_kernel : U64} {s s' : Scheduler} (h : Init pdir_kernel s = ok s') :
    s'.threads = s.threads ++ [idleThread] ∧ s'.nextThread = s.nextThread ∧
      s'.currentThread = idleThread ∧ s'.currentTask = kernelTask ∧
      (s'.thread idleThread).taskID = 0 ∧ (s'.task kernelTask).taskID = 0 := by
  cases h
  exact ⟨rfl, rfl, rfl, rfl, rfl, rfl⟩

theorem belongs_started {pdir_kernel : U64} {task : TaskPtr → TaskControlBlock} {s : Scheduler}
    (h : Init pdir_kernel { static with task } = ok s) : Belongs (started s) := by
  obtain ⟨hthreads, hnext, hthread, _, howner, htask⟩ := Init.spec h
  have hidle : ∀ t ∈ s.threads, t = idleThread := by
    intro t ht
    rw [hthreads] at ht
    exact List.mem_singleton.mp ht
  refine ⟨⟨?_, ?_⟩, ?_⟩
  · change s.currentThread ∈ s.threads
    rw [hthread, hthreads]
    exact List.mem_append_right _ (List.mem_singleton.mpr rfl)
  · intro t ht
    change t < s.nextThread
    rw [hidle t ht, hnext]
    exact Nat.lt_succ_self _
  · intro t ht
    change (s.thread t).taskID = (s.task kernelTask).taskID
    rw [hidle t ht, howner, htask]

/-! ## The law -/

/-- In every run over any tasks, a call of `Schedule` that switches leaves the
owner of the new thread current if and only if the first Ready thread was
created while a task with the current task's ID was current. -/
theorem a_thread_runs_in_its_task {pdir_kernel : U64} {task : TaskPtr → TaskControlBlock}
    {s₀ : Scheduler} (hinit : Init pdir_kernel { static with task } = ok s₀)
    {es : List TaskEvent} {w : Tasks} (run : Run TaskStep (started s₀) es w) {t : ThreadPtr}
    {s' : Scheduler} (hcall : w.kernel.sched.Schedule = ok (some t, s')) :
    OwnerRuns s' ↔ nextIsOurs w := by
  have hw : Belongs w := run.inv Belongs (fun _ _ _ => belongs_step) (belongs_started hinit)
  obtain ⟨htask, hcurrent, howner⟩ := Schedule.keeps_tasks hcall
  rcases Schedule.spec hcall with ⟨_, hr, _⟩ | ⟨_, _, hr, _⟩ |
    ⟨_, k, hk1, hk2, hfirst, hready, hmem, _, hr, hs'⟩
  · cases hr
  · cases hr
  · have hthread : s'.currentThread = w.kernel.sched.candidate k := by
      rw [hs']
      rfl
    have howns : OwnerRuns s' ↔ (w.kernel.sched.task w.kernel.sched.currentTask).taskID =
        (w.kernel.sched.task (w.creator (w.kernel.sched.candidate k))).taskID := by
      unfold OwnerRuns
      rw [htask, hcurrent, hthread, howner, hw.owner _ hmem]
    rw [howns]
    constructor
    · intro h j ⟨hj1, _, hjfirst, hjready⟩
      -- no other turn is the first to find a Ready thread
      obtain rfl : j = k := by
        rcases Nat.lt_trichotomy j k with hlt | heq | hgt
        · exact absurd hjready (hfirst j hj1 hlt)
        · exact heq
        · exact absurd hready (hjfirst k hk1 hgt)
      exact h.symm
    · intro h
      exact (h k ⟨hk1, hk2, hfirst, hready⟩).symm

/-- The kernel task, and a second task at 2. -/
def twoTasks (t : TaskPtr) : TaskControlBlock :=
  ⟨0, if t = 2 then 1 else 0, .Running, ""⟩

/-- The scheduler after its `Init` with a second task at hand. -/
def bootedTwo : Scheduler :=
  match Init KERNEL_VMB { static with task := twoTasks } with
  | ok s => s
  | _ => static

theorem bootedTwo_init : Init KERNEL_VMB { static with task := twoTasks } = ok bootedTwo := rfl

/-- The second task creates a thread, and `Schedule` switches to it. -/
theorem a_thread_runs_in_its_task_after_a_switch : ∃ w t s',
    Run TaskStep (started bootedTwo) [.SwitchTask 2, .call (.CreateThread "k/test2" 0),
      .call .EnableScheduling] w ∧
    w.kernel.sched.Schedule = ok (some t, s') ∧ (OwnerRuns s' ↔ nextIsOurs w) := by
  have run : Run TaskStep (started bootedTwo) [.SwitchTask 2, .call (.CreateThread "k/test2" 0),
      .call .EnableScheduling] _ :=
    .snoc (.snoc (.snoc (.nil _) (.SwitchTask rfl)) (.call .CreateThread)) (.call .EnableScheduling)
  exact ⟨_, 2, _, run, rfl, a_thread_runs_in_its_task bootedTwo_init run rfl⟩

/-- The kernel task creates a thread, and another task is current when
`Schedule` switches to it. -/
theorem a_thread_runs_in_a_foreign_task : ∃ w t s',
    Run TaskStep (started bootedTwo) [.call (.CreateThread "k/test2" 0), .SwitchTask 2,
      .call .EnableScheduling] w ∧
    w.kernel.sched.Schedule = ok (some t, s') ∧ ¬ OwnerRuns s' := by
  refine ⟨_, 2, _, .snoc (.snoc (.snoc (.nil _) (.call .CreateThread)) (.SwitchTask rfl))
    (.call .EnableScheduling), rfl, ?_⟩
  unfold OwnerRuns
  decide

end lobo.Scheduler
