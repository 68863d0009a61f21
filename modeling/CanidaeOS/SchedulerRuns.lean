-- The laws of `Schedule` over whole runs. A thread that is Waiting or Dead is
-- passed over by the search, but the thread that control leaves is made Ready
-- whatever it was.
import CanidaeOS.Scheduler
import CanidaeOS.Runs

open Program Machine Outcome Runs

namespace lobo.Scheduler

/-! ## Runs of the scheduler -/

/-- The scheduler, and every thread that `Schedule` switched to, the last one
first. -/
structure Kernel where
  sched : Scheduler
  switches : List ThreadPtr

/-- A call of the scheduler, or a write of a thread's state from outside. -/
inductive SchedEvent where
  | CreateThread (name : String) (stack : U64)
  | EnableScheduling
  | DisableScheduling
  | Schedule
  | write (t : ThreadPtr) (state : TCBState)

/-- `Yield` is a call of `Schedule`. No write from outside makes a thread
Running. -/
inductive SchedStep : Kernel → SchedEvent → Kernel → Prop
  | CreateThread {w : Kernel} {name : String} {stack : U64} :
      SchedStep w (.CreateThread name stack) ⟨(w.sched.CreateThread name stack).2, w.switches⟩
  | EnableScheduling {w : Kernel} :
      SchedStep w .EnableScheduling ⟨w.sched.EnableScheduling, w.switches⟩
  | DisableScheduling {w : Kernel} :
      SchedStep w .DisableScheduling ⟨w.sched.DisableScheduling, w.switches⟩
  | Schedule {w : Kernel} {r : Option ThreadPtr} {s : Scheduler} :
      w.sched.Schedule = ok (r, s) → SchedStep w .Schedule ⟨s, r.toList ++ w.switches⟩
  | write {w : Kernel} {t : ThreadPtr} {state : TCBState} : t ∈ w.sched.threads →
      state ≠ .Running → SchedStep w (.write t state) ⟨w.sched.with_state t state, w.switches⟩

/-- The thread is Waiting or Dead. -/
def Asleep (s : Scheduler) (t : ThreadPtr) : Prop :=
  (s.thread t).state = .Waiting ∨ (s.thread t).state = .Dead

instance (s : Scheduler) (t : ThreadPtr) : Decidable (s.Asleep t) :=
  inferInstanceAs (Decidable (_ ∨ _))

/-- A call of `Schedule` left every sleeping thread as it was, and switched to
none. -/
def Respects (s : Scheduler) (r : Option ThreadPtr) (s' : Scheduler) : Prop :=
  ∀ t ∈ s.threads, s.Asleep t → (s'.thread t).state = (s.thread t).state ∧ r ≠ some t

/-- The guard of a step: a `Schedule` call that will find a Ready thread is
not made by a sleeping one. -/
def currentAwake (w : Kernel) : SchedEvent → Prop
  | .Schedule => w.sched.schedulingEnabled = true →
      (∃ k, 1 ≤ k ∧ k ≤ maxTries + 1 ∧ w.sched.ReadyAt k) → ¬ w.sched.Asleep w.sched.currentThread
  | _ => True

/-- What every step keeps: the list holds blocks that were handed out, the
current thread's among them. -/
structure Formed (s : Scheduler) : Prop where
  current : s.currentThread ∈ s.threads
  old : ∀ t ∈ s.threads, t < s.nextThread

/-! ## One call of `Schedule` -/

theorem respects_of_awake {s s' : Scheduler} {r : Option ThreadPtr} (h : s.Schedule = ok (r, s'))
    (hawake : s.schedulingEnabled = true →
      (∃ k, 1 ≤ k ∧ k ≤ maxTries + 1 ∧ s.ReadyAt k) → ¬ s.Asleep s.currentThread) :
    Respects s r s' := by
  intro t _ hsleep
  rcases Schedule.spec h with ⟨_, rfl, rfl⟩ | ⟨_, _, rfl, rfl⟩ |
    ⟨hen, k, hk1, hk2, _, hready, _, _, rfl, rfl⟩
  · exact ⟨rfl, by simp⟩
  · exact ⟨by simp, by simp⟩
  · -- neither the thread switched to nor the one left is asleep
    have hnew : t ≠ s.candidate k := by
      rintro rfl
      unfold Asleep at hsleep
      rw [hready] at hsleep
      simp at hsleep
    have hcur : t ≠ s.currentThread := by
      rintro rfl
      exact hawake hen ⟨k, hk1, hk2, hready⟩ hsleep
    refine ⟨?_, fun he => hnew (Option.some.inj he).symm⟩
    rw [switchedTo_state, if_neg hnew, advanced_currentThread, if_neg hcur, advanced_thread]

/-- A call that returns respects sleeping threads if and only if the one that
makes it is awake, or no other thread is found. -/
theorem respects_iff_awake {w : Kernel} (hw : w.sched.Formed) {s' : Scheduler}
    {r : Option ThreadPtr} (h : w.sched.Schedule = ok (r, s')) :
    Respects w.sched r s' ↔ currentAwake w .Schedule := by
  refine ⟨fun hresp hen hfound hsleep => ?_, respects_of_awake h⟩
  obtain ⟨hsame, _⟩ := hresp _ hw.current hsleep
  rcases Schedule.spec h with ⟨hdis, _, _⟩ | ⟨_, hnone, _, _⟩ |
    ⟨_, k, _, _, _, hready, _, _, _, rfl⟩
  · rw [hdis] at hen
    cases hen
  · obtain ⟨k, hk1, hk2, hready⟩ := hfound
    exact hnone k hk1 hk2 hready
  · rw [switchedTo_state, advanced_currentThread, if_pos rfl] at hsame
    unfold Asleep at hsleep
    rw [← hsame] at hsleep
    split at hsleep <;> simp at hsleep

theorem formed_schedule {s s' : Scheduler} {r : Option ThreadPtr} (hs : s.Formed)
    (h : s.Schedule = ok (r, s')) : s'.Formed ∧ s'.threads = s.threads := by
  rcases Schedule.spec h with ⟨_, _, rfl⟩ | ⟨_, _, _, rfl⟩ | ⟨_, k, _, _, _, _, hmem, _, _, rfl⟩
  · exact ⟨hs, rfl⟩
  · rw [advanced_eq]
    exact ⟨⟨hs.current, hs.old⟩, rfl⟩
  · rw [advanced_eq]
    exact ⟨⟨hmem, hs.old⟩, rfl⟩

/-! ## Steps -/

/-- The event is a write of thread `t`'s state. -/
def SchedEvent.Writes (e : SchedEvent) (t : ThreadPtr) : Prop := ∃ state, e = .write t state

/-- What a step leaves of a sleeping thread that it does not write. -/
theorem asleep_step {w w' : Kernel} {e : SchedEvent} {t : ThreadPtr} (hw : w.sched.Formed)
    (ht : t ∈ w.sched.threads) (hsleep : w.sched.Asleep t) (hno : ¬ e.Writes t)
    (h : Guarded currentAwake SchedStep w e w') :
    t ∈ w'.sched.threads ∧ (w'.sched.thread t).state = (w.sched.thread t).state ∧
      w'.switches.count t = w.switches.count t := by
  obtain ⟨hguard, hstep⟩ := h
  cases hstep with
  | CreateThread =>
    have hne : t ≠ w.sched.nextThread := Nat.ne_of_lt (hw.old t ht)
    refine ⟨List.mem_append_left _ ht, ?_, rfl⟩
    simp [Scheduler.CreateThread, set_thread, hne]
  | EnableScheduling => exact ⟨ht, rfl, rfl⟩
  | DisableScheduling => exact ⟨ht, rfl, rfl⟩
  | @Schedule r s' hcall =>
    obtain ⟨_, hthreads⟩ := formed_schedule hw hcall
    obtain ⟨hsame, hr⟩ := respects_of_awake hcall hguard t ht hsleep
    refine ⟨by rw [hthreads]; exact ht, hsame, ?_⟩
    cases r with
    | none => rfl
    | some u =>
      have hne : u ≠ t := fun he => hr (congrArg some he)
      simp [hne]
  | @write u state hmem _ =>
    have hne : t ≠ u := by
      rintro rfl
      exact hno ⟨state, rfl⟩
    refine ⟨ht, ?_, rfl⟩
    rw [with_state_state, if_neg hne]

theorem formed_step {w w' : Kernel} {e : SchedEvent} (hw : w.sched.Formed)
    (h : SchedStep w e w') : w'.sched.Formed := by
  cases h with
  | CreateThread =>
    refine ⟨List.mem_append_left _ hw.current, fun t ht => ?_⟩
    rcases List.mem_append.mp ht with ht | ht
    · exact Nat.lt_succ_of_lt (hw.old t ht)
    · rw [List.mem_singleton.mp ht]
      exact Nat.lt_succ_self _
  | EnableScheduling => exact ⟨hw.current, hw.old⟩
  | DisableScheduling => exact ⟨hw.current, hw.old⟩
  | Schedule hcall => exact (formed_schedule hw hcall).1
  | write => exact ⟨hw.current, hw.old⟩

theorem formed_init {pdir_kernel : U64} {s : Scheduler} (h : static.Init pdir_kernel = ok s) :
    s.Formed := by
  cases h
  refine ⟨List.mem_singleton.mpr rfl, fun t ht => ?_⟩
  obtain rfl : t = idleThread := List.mem_singleton.mp ht
  exact Nat.lt_succ_self _

/-! ## The laws -/

/-- In a run whose `Schedule` calls are all made by threads that are awake, a
sleeping thread keeps its state, and is not switched to, until a write from
outside. The next call respects sleeping threads if and only if its caller is
awake too. -/
theorem a_sleeping_thread_is_left_alone {pdir_kernel : U64} {s₀ : Scheduler}
    (hinit : static.Init pdir_kernel = ok s₀) {es : List SchedEvent} {w : Kernel}
    (run : Run (Guarded currentAwake SchedStep) ⟨s₀, []⟩ es w) :
    (∀ t ∈ w.sched.threads, w.sched.Asleep t → ∀ es' w',
      Run (Guarded currentAwake SchedStep) w es' w' → (∀ e ∈ es', ¬ e.Writes t) →
      (w'.sched.thread t).state = (w.sched.thread t).state ∧
        w'.switches.count t = w.switches.count t) ∧
    ∀ r s', w.sched.Schedule = ok (r, s') →
      (Respects w.sched r s' ↔ currentAwake w .Schedule) := by
  have hw : w.sched.Formed := run.inv (fun w => w.sched.Formed)
    (fun _ _ _ hw h => formed_step hw h.2) (formed_init hinit)
  refine ⟨fun t ht hsleep es' w' run' hno => ?_, fun r s' h => respects_iff_awake hw h⟩
  have hkept := run'.inv_events (fun es w' => (∀ e ∈ es, ¬ e.Writes t) → w'.sched.Formed ∧
    t ∈ w'.sched.threads ∧ (w'.sched.thread t).state = (w.sched.thread t).state ∧
    w'.switches.count t = w.switches.count t) ?_ (fun _ => ⟨hw, ht, rfl, rfl⟩) hno
  · exact hkept.2.2
  · intro es u e u' ih hstep hno
    obtain ⟨hu, hmem, hstate, hcount⟩ := ih fun e' he' => hno e' (List.mem_append_left _ he')
    have hsleep' : u.sched.Asleep t := by
      unfold Asleep
      rw [hstate]
      exact hsleep
    obtain ⟨hmem', hstate', hcount'⟩ := asleep_step hu hmem hsleep'
      (hno e (List.mem_append_right _ (List.mem_singleton.mpr rfl))) hstep
    exact ⟨formed_step hu hstep.2, hmem', hstate'.trans hstate, hcount'.trans hcount⟩

/-- The scheduler after its `Init`, for a page directory at `KERNEL_VMB`. -/
def booted : Scheduler :=
  match static.Init KERNEL_VMB with
  | ok s => s
  | _ => static

theorem booted_init : static.Init KERNEL_VMB = ok booted := rfl

/-- Threads 2 and 3 beside the idle thread, and thread 2 waits. -/
def oneWaiting : Kernel :=
  ⟨((booted.CreateThread "k/test2" 0).2.CreateThread "k/test3" 0).2.EnableScheduling.with_state 2
    .Waiting, []⟩

/-- Two calls pass thread 2 over, on the way to thread 3 and on the way back. -/
theorem a_sleeping_thread_is_left_alone_of_two : ∃ w,
    Run (Guarded currentAwake SchedStep) ⟨booted, []⟩
      [.CreateThread "k/test2" 0, .CreateThread "k/test3" 0, .EnableScheduling, .write 2 .Waiting]
      oneWaiting ∧
    2 ∈ oneWaiting.sched.threads ∧ oneWaiting.sched.Asleep 2 ∧
    Run (Guarded currentAwake SchedStep) oneWaiting [.Schedule, .Schedule] w ∧
    w.switches = [idleThread, 3] ∧
    (w.sched.thread 2).state = (oneWaiting.sched.thread 2).state ∧
    w.switches.count 2 = oneWaiting.switches.count 2 ∧
    ∀ r s', w.sched.Schedule = ok (r, s') → (Respects w.sched r s' ↔ currentAwake w .Schedule) := by
  have run : Run (Guarded currentAwake SchedStep) ⟨booted, []⟩
      [.CreateThread "k/test2" 0, .CreateThread "k/test3" 0, .EnableScheduling, .write 2 .Waiting]
      oneWaiting :=
    .snoc (.snoc (.snoc (.snoc (.nil _) ⟨trivial, .CreateThread⟩) ⟨trivial, .CreateThread⟩)
      ⟨trivial, .EnableScheduling⟩) ⟨trivial, .write (by decide) (by decide)⟩
  have run' : Run (Guarded currentAwake SchedStep) oneWaiting [.Schedule, .Schedule] _ :=
    .snoc (.snoc (.nil oneWaiting) ⟨fun _ _ => by decide, .Schedule (r := some 3) rfl⟩)
      ⟨fun _ _ => by decide, .Schedule (r := some idleThread) rfl⟩
  have hno : ∀ e ∈ [SchedEvent.Schedule, .Schedule], ¬ e.Writes 2 := by
    rintro e he ⟨state, rfl⟩
    simp at he
  obtain ⟨hstate, hcount⟩ := (a_sleeping_thread_is_left_alone booted_init run).1 2 (by decide)
    (by decide) _ _ run' hno
  exact ⟨_, run, by decide, by decide, run', rfl, hstate, hcount,
    (a_sleeping_thread_is_left_alone booted_init (run.trans run')).2⟩

/-- The idle thread marks itself Dead while another thread is Ready, and the
next tick makes it Ready. -/
theorem a_dead_thread_is_made_ready : ∃ w r s',
    Run SchedStep ⟨booted, []⟩
      [.CreateThread "k/test2" 0, .EnableScheduling, .write idleThread .Dead] w ∧
    w.sched.Schedule = ok (r, s') ∧ ¬ Respects w.sched r s' := by
  refine ⟨_, _, _, .snoc (.snoc (.snoc (.nil _) .CreateThread) .EnableScheduling)
    (.write (by decide) (by decide)), rfl, fun hresp => ?_⟩
  obtain ⟨hsame, _⟩ := hresp idleThread (by decide) (by decide)
  exact absurd hsame (by decide)

end lobo.Scheduler
