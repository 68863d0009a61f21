-- The invariant of the scheduler. Its position stays inside the list, the
-- current thread stays in the list, and no other thread is Running. With it
-- the search of `Schedule` meets no null pointer, and every call returns.
import CanidaeOS.SchedulerRuns

open Program Machine Outcome Runs

namespace lobo.Scheduler

/-- What holds of the scheduler in every state of a run. -/
structure Coherent (s : Scheduler) : Prop where
  formed : s.Formed
  real : nullptr ∉ s.threads
  index : s.currentThreadIndex < s.threads.length
  running : ∀ t, (s.thread t).state = .Running → t = s.currentThread

/-! ## The search meets no null pointer -/

theorem Coherent.current_ne_null {s : Scheduler} (hs : s.Coherent) :
    s.currentThread ≠ nullptr := by
  intro hnull
  apply hs.real
  rw [← hnull]
  exact hs.formed.current

theorem advance_index_lt {s : Scheduler} (h : s.threads ≠ []) :
    s.advance.currentThreadIndex < s.threads.length := by
  have hpos : 0 < s.threads.length := List.length_pos_iff.mpr h
  unfold advance
  dsimp only
  split <;> omega

theorem advanced_index_lt {s : Scheduler} (hs : s.currentThreadIndex < s.threads.length)
    (k : Nat) : (s.advanced k).currentThreadIndex < s.threads.length := by
  cases k with
  | zero => exact hs
  | succ k =>
    have hne : (s.advanced k).threads ≠ [] := by
      intro h
      rw [advanced_threads] at h
      simp [h] at hs
    have hlt := advance_index_lt hne
    rw [advanced_threads] at hlt
    exact hlt

/-- `at` gives an element of the list in every turn. -/
theorem candidate_ne_null {s : Scheduler} (hreal : nullptr ∉ s.threads)
    (hs : s.currentThreadIndex < s.threads.length) (k : Nat) : s.candidate k ≠ nullptr := by
  intro hnull
  apply hreal
  rw [← hnull, candidate, threads_at, List.getD_eq_getElem _ _ (advanced_index_lt hs k)]
  exact List.getElem_mem _

/-! ## Every call returns -/

theorem scheduleTurn.total {s : Scheduler} {k : Nat} (tries : Nat)
    (hcand : s.candidate (k + 1) ≠ nullptr) (hcur : s.currentThread ≠ nullptr) :
    ∃ r, scheduleTurn (tries, s.advanced k) = ok r := by
  have hadv : (s.advanced k).advance = s.advanced (k + 1) := rfl
  have hat := advanced_candidate s (k + 1)
  have hderef : (s.advanced (k + 1)).deref (s.candidate (k + 1)) =
      ok (s.thread (s.candidate (k + 1))) := by
    rw [deref, if_neg hcand, advanced_thread]
  have hcur' : (s.advanced (k + 1)).currentThread ≠ nullptr := by
    rw [advanced_currentThread]
    exact hcur
  simp only [scheduleTurn, hadv, hat, hderef, bind_ok]
  split
  · split
    · exact ⟨_, rfl⟩
    · exact ⟨_, rfl⟩
  · have hsame : (((s.advanced (k + 1)).with_state (s.advanced (k + 1)).currentThread
        .Ready).with_state (s.candidate (k + 1)) .Running).threads_at
        (((s.advanced (k + 1)).with_state (s.advanced (k + 1)).currentThread
        .Ready).with_state (s.candidate (k + 1)) .Running).currentThreadIndex =
        s.candidate (k + 1) := hat
    simp only [set_state, if_neg hcur', if_neg hcand, bind_ok, SwitchThread, hsame,
      assert_ok _ hcand]
    exact ⟨_, rfl⟩

/-- Without a null pointer on its way the search ends, at the latest with its last
try. -/
theorem Schedule.total_of_candidates {s : Scheduler} (hcand : ∀ k, s.candidate (k + 1) ≠ nullptr)
    (hcur : s.currentThread ≠ nullptr) : ∃ r s', s.Schedule = ok (r, s') := by
  unfold Schedule
  split
  · exact ⟨none, s, rfl⟩
  · have hturns : ∀ t : Nat × Scheduler, (t.1 ≤ maxTries ∧ t.2 = s.advanced t.1) →
        (∃ t', scheduleTurn t = ok (.next t') ∧ (t'.1 ≤ maxTries ∧ t'.2 = s.advanced t'.1) ∧
          maxTries - t'.1 < maxTries - t.1) ∨ ∃ b, scheduleTurn t = ok (.leave b) := by
      rintro ⟨k, q⟩ ⟨hk, hq⟩
      dsimp only at hk hq
      subst hq
      obtain ⟨r, hr⟩ := scheduleTurn.total k (hcand k) hcur
      obtain ⟨_, ⟨_, hlt, rfl⟩ | ⟨_, _, rfl⟩ | ⟨_, _, rfl⟩⟩ := scheduleTurn_eq hr
      · exact Or.inl ⟨(k + 1, s.advanced (k + 1)), hr, ⟨hlt, rfl⟩, Nat.sub_succ_lt_self _ _ hlt⟩
      · exact Or.inr ⟨_, hr⟩
      · exact Or.inr ⟨_, hr⟩
    obtain ⟨⟨r, s'⟩, h⟩ := loop_ok (fun t : Nat × Scheduler => maxTries - t.1) hturns
      (s := (0, s)) ⟨Nat.zero_le _, rfl⟩ (Nat.lt_succ_self maxTries)
    exact ⟨r, s', h⟩

theorem Schedule.total {s : Scheduler} (hreal : nullptr ∉ s.threads)
    (hindex : s.currentThreadIndex < s.threads.length) (hcur : s.currentThread ≠ nullptr) :
    ∃ r s', s.Schedule = ok (r, s') :=
  Schedule.total_of_candidates (fun k => candidate_ne_null hreal hindex (k + 1)) hcur

/-! ## Steps -/

/-- The guard of a step: a write from outside is to a thread that is not the
current one. -/
def sparesCurrent (w : Kernel) : SchedEvent → Prop
  | .write t _ => t ≠ w.sched.currentThread
  | _ => True

theorem coherent_schedule {s s' : Scheduler} {r : Option ThreadPtr} (hs : s.Coherent)
    (h : s.Schedule = ok (r, s')) : s'.Coherent := by
  obtain ⟨hformed, hthreads⟩ := formed_schedule hs.formed h
  rcases Schedule.spec h with ⟨_, _, rfl⟩ | ⟨_, _, _, rfl⟩ | ⟨_, k, _, _, _, hready, _, _, _, rfl⟩
  · exact hs
  · -- the call gave up: only the position moved
    refine ⟨hformed, by simpa using hs.real, ?_, by simpa using hs.running⟩
    rw [advanced_threads]
    exact advanced_index_lt hs.index _
  · refine ⟨hformed, ?_, ?_, ?_⟩
    · rw [hthreads]
      exact hs.real
    · rw [hthreads]
      exact advanced_index_lt hs.index _
    · intro t ht
      rw [switchedTo_state, advanced_currentThread, advanced_thread] at ht
      split at ht
      · rename_i hnew
        exact hnew
      · split at ht
        · cases ht
        · -- the one thread that could run was made Ready
          rename_i hold
          exact absurd (hs.running t ht) hold

theorem coherent_step {w w' : Kernel} {e : SchedEvent} (hw : w.sched.Coherent)
    (h : Guarded sparesCurrent SchedStep w e w') : w'.sched.Coherent := by
  obtain ⟨hguard, hstep⟩ := h
  have hformed := formed_step hw.formed hstep
  cases hstep with
  | CreateThread =>
    have hcurrent : w.sched.currentThread < w.sched.nextThread :=
      hw.formed.old _ hw.formed.current
    refine ⟨hformed, ?_, ?_, ?_⟩
    · intro hmem
      rcases List.mem_append.mp hmem with hmem | hmem
      · exact hw.real hmem
      · have hnull : nullptr = w.sched.nextThread := List.mem_singleton.mp hmem
        rw [← hnull] at hcurrent
        exact absurd hcurrent (Nat.not_lt_zero _)
    · have hlt := hw.index
      change w.sched.currentThreadIndex < (w.sched.threads ++ [w.sched.nextThread]).length
      rw [List.length_append]
      exact Nat.lt_add_right _ hlt
    · intro t ht
      -- the new block is Ready, and the other blocks are as they were
      by_cases hnew : t = w.sched.nextThread
      · simp [Scheduler.CreateThread, set_thread, hnew] at ht
      · simp only [Scheduler.CreateThread, set_thread, if_neg hnew] at ht
        exact hw.running t ht
  | EnableScheduling => exact ⟨hformed, hw.real, hw.index, hw.running⟩
  | DisableScheduling => exact ⟨hformed, hw.real, hw.index, hw.running⟩
  | Schedule hcall => exact coherent_schedule hw hcall
  | @write u state _ hstate =>
    refine ⟨hformed, hw.real, hw.index, fun t ht => ?_⟩
    rw [with_state_state] at ht
    split at ht
    · exact absurd ht hstate
    · exact hw.running t ht

theorem coherent_init {pdir_kernel : U64} {s : Scheduler} (h : static.Init pdir_kernel = ok s) :
    s.Coherent := by
  have hformed := formed_init h
  cases h
  refine ⟨hformed, ?_, Nat.zero_lt_one, fun t ht => ?_⟩
  · intro hmem
    have hnull : nullptr = idleThread := List.mem_singleton.mp hmem
    cases hnull
  -- no block is Running after `Init`, the idle thread's included
  simp only [set_thread, static] at ht
  split at ht <;> cases ht

/-! ## The law -/

/-- In a run whose writes from outside spare the current thread, at most one
thread is Running and it is the current one, which is in the list; the position
is inside the list, so no turn of `Schedule` gets a null pointer from `at`, and
the call returns. -/
theorem the_running_thread_is_the_current_one {pdir_kernel : U64} {s₀ : Scheduler}
    (hinit : static.Init pdir_kernel = ok s₀) {es : List SchedEvent} {w : Kernel}
    (run : Run (Guarded sparesCurrent SchedStep) ⟨s₀, []⟩ es w) :
    (∀ t u, (w.sched.thread t).state = .Running → (w.sched.thread u).state = .Running → t = u) ∧
    (∀ t, (w.sched.thread t).state = .Running → t = w.sched.currentThread) ∧
    w.sched.currentThread ∈ w.sched.threads ∧
    w.sched.currentThreadIndex < w.sched.threads.length ∧
    (∀ k, w.sched.candidate k ≠ nullptr) ∧
    ∃ r s', w.sched.Schedule = ok (r, s') := by
  have hw : w.sched.Coherent := run.inv (fun w => w.sched.Coherent)
    (fun _ _ _ hw h => coherent_step hw h) (coherent_init hinit)
  refine ⟨fun t u ht hu => ?_, hw.running, hw.formed.current, hw.index,
    candidate_ne_null hw.real hw.index, Schedule.total hw.real hw.index hw.current_ne_null⟩
  rw [hw.running t ht, hw.running u hu]

theorem the_running_thread_is_the_current_one_of_two : ∃ w,
    Run (Guarded sparesCurrent SchedStep) ⟨booted, []⟩
      [.CreateThread "k/test2" 0, .write 2 .Waiting, .EnableScheduling, .Schedule] w ∧
    (∀ t u, (w.sched.thread t).state = .Running → (w.sched.thread u).state = .Running → t = u) ∧
    (∀ t, (w.sched.thread t).state = .Running → t = w.sched.currentThread) ∧
    w.sched.currentThread ∈ w.sched.threads ∧
    w.sched.currentThreadIndex < w.sched.threads.length ∧
    (∀ k, w.sched.candidate k ≠ nullptr) ∧
    ∃ r s', w.sched.Schedule = ok (r, s') := by
  have run : Run (Guarded sparesCurrent SchedStep) ⟨booted, []⟩
      [.CreateThread "k/test2" 0, .write 2 .Waiting, .EnableScheduling, .Schedule] _ :=
    .snoc (.snoc (.snoc (.snoc (.nil _) ⟨trivial, .CreateThread⟩)
      ⟨(by decide : (2 : ThreadPtr) ≠ idleThread), .write (by decide) (by decide)⟩) ⟨trivial, .EnableScheduling⟩)
      ⟨trivial, .Schedule rfl⟩
  exact ⟨_, run, the_running_thread_is_the_current_one booted_init run⟩

end lobo.Scheduler
