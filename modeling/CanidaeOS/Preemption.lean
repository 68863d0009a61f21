-- `Schedule` under the timer: every statement of it is a step, and a tick
-- between two steps calls it again on the interrupted thread's behalf. Each
-- thread keeps the calls it is in while other threads run. A tick inside the
-- critical section leaves a thread marked Running that does not run.
import CanidaeOS.Scheduler
import CanidaeOS.Runs

open Program Machine Outcome Runs

namespace lobo.Scheduler

/-! ## The statements of `Schedule` -/

/-- A call of `Schedule`, by the statement that it executes next. -/
inductive Frame where
  /-- the search at lines 114 to 120, after so many tries -/
  | select (tries : Nat)
  /-- `currentThread->state = TCBState::Ready;` -/
  | writeOld (new_thread : ThreadPtr)
  /-- `new_thread->state = TCBState::Running;` -/
  | writeNew (new_thread : ThreadPtr)
  /-- `SwitchThread(threads.at(currentThreadIndex));` -/
  | switch
  /-- control is back from `SwitchThread` -/
  | done
deriving DecidableEq, Repr

/-- The call is past its search and not switched yet. -/
def Frame.Critical : Frame → Prop
  | .writeOld _ | .writeNew _ | .switch => True
  | _ => False

/-- The scheduler, and the calls of `Schedule` that each thread is in, the
innermost one first. -/
structure Preempted where
  sched : Scheduler
  frames : ThreadPtr → List Frame

namespace Preempted

/-- The calls of the thread that runs. -/
def running (w : Preempted) : List Frame := w.frames w.sched.currentThread

/-- The running thread's calls are replaced. -/
def set_running (w : Preempted) (fs : List Frame) : Preempted :=
  { w with frames := fun t => if t = w.sched.currentThread then fs else w.frames t }

/-- A call of `Schedule` by the running thread. -/
def enter (w : Preempted) : Preempted :=
  if w.sched.schedulingEnabled = false then w else w.set_running (.select 0 :: w.running)

/-- The next statement of a call, with the calls `rest` around it. -/
def execute (w : Preempted) (rest : List Frame) : Frame → Outcome Stop Preempted
  | .select tries => do
    let s := w.sched.advance
    let new_thread := s.threads_at s.currentThreadIndex
    let tcb ← s.deref new_thread
    let w := { w with sched := s }
    if tcb.state ≠ .Ready then
      if tries + 1 > maxTries then ok (w.set_running rest)
      else ok (w.set_running (.select (tries + 1) :: rest))
    else ok (w.set_running (.writeOld new_thread :: rest))
  | .writeOld new_thread => do
    let s ← w.sched.set_state w.sched.currentThread .Ready
    ok ({ w with sched := s }.set_running (.writeNew new_thread :: rest))
  | .writeNew new_thread => do
    let s ← w.sched.set_state new_thread .Running
    ok ({ w with sched := s }.set_running (.switch :: rest))
  | .switch => do
    let w := w.set_running (.done :: rest)
    let s ← w.sched.SwitchThread (w.sched.threads_at w.sched.currentThreadIndex)
    ok { w with sched := s }
  | .done => ok (w.set_running rest)

inductive Action where
  /-- the running thread calls `Yield` -/
  | yield
  /-- the timer interrupts the running thread -/
  | tick
  /-- the running thread executes a statement of `Schedule` -/
  | run
deriving DecidableEq, Repr

/-- A thread calls `Yield` from outside `Schedule` only. An action that is not
possible changes nothing. -/
def act (w : Preempted) : Action → Outcome Stop Preempted
  | .yield => if w.running = [] then ok w.enter else ok w
  | .tick => ok w.enter
  | .run =>
    match w.running with
    | [] => ok w
    | f :: rest => w.execute rest f

def ActStep (w : Preempted) (a : Action) (w' : Preempted) : Prop := w.act a = ok w'

/-! ## The critical section -/

/-- The guard of a step: no tick while the running thread is in the critical
section. -/
def noTickInside (w : Preempted) : Action → Prop
  | .tick => ∀ f ∈ w.running.head?, ¬ Frame.Critical f
  | _ => True

/-- Outside `Schedule`, only the current thread is marked Running. -/
def OnlyCurrent (w : Preempted) : Prop :=
  w.running = [] → ∀ t ∈ w.sched.threads, (w.sched.thread t).state = .Running →
    t = w.sched.currentThread

/-- The current thread is Running and every other one Ready. -/
def Settled (s : Scheduler) : Prop :=
  (s.thread s.currentThread).state = .Running ∧
    ∀ t ∈ s.threads, t ≠ s.currentThread → (s.thread t).state = .Ready

/-- What the states are while the running thread is at `f`. -/
def Between (s : Scheduler) : Option Frame → Prop
  | some (.writeOld new_thread) => Settled s ∧
      new_thread = s.threads_at s.currentThreadIndex ∧ (s.thread new_thread).state = .Ready
  | some (.writeNew new_thread) => new_thread = s.threads_at s.currentThreadIndex ∧
      ∀ t ∈ s.threads, (s.thread t).state = .Ready
  | some .switch => Settled { s with currentThread := s.threads_at s.currentThreadIndex }
  | _ => Settled s

/-- What every step keeps: calls in the critical section are innermost, and of
the running thread only. -/
structure Orderly (w : Preempted) : Prop where
  states : Between w.sched w.running.head?
  inner : ∀ f ∈ w.running.tail, ¬ f.Critical
  others : ∀ t, t ≠ w.sched.currentThread → ∀ f ∈ w.frames t, ¬ f.Critical

theorem between_iff {s : Scheduler} {o : Option Frame} (h : ∀ f ∈ o, ¬ f.Critical) :
    Between s o ↔ Settled s := by
  cases o with
  | none => exact Iff.rfl
  | some f =>
    have hf := h f rfl
    cases f with
    | select | done => exact Iff.rfl
    | writeOld | writeNew | switch => exact absurd trivial hf

@[simp] theorem set_running_running (w : Preempted) (fs : List Frame) :
    (w.set_running fs).running = fs := by
  simp [running, set_running]

@[simp] theorem set_running_sched (w : Preempted) (fs : List Frame) :
    (w.set_running fs).sched = w.sched := rfl

theorem set_running_other (w : Preempted) (fs : List Frame) {t : ThreadPtr}
    (h : t ≠ w.sched.currentThread) : (w.set_running fs).frames t = w.frames t := by
  simp [set_running, h]

/-- The running thread's calls may change while no other thread's do. -/
theorem Orderly.set_running {w : Preempted} (hw : Orderly w) {s : Scheduler} {fs : List Frame}
    (hcur : s.currentThread = w.sched.currentThread) (hstates : Between s fs.head?)
    (hinner : ∀ f ∈ fs.tail, ¬ f.Critical) :
    Orderly ({ w with sched := s }.set_running fs) := by
  refine ⟨by simpa using hstates, by simpa using hinner, fun t ht f hf => ?_⟩
  have ht' : t ≠ s.currentThread := ht
  rw [set_running_other _ _ ht'] at hf
  exact hw.others t (hcur ▸ ht') f hf

/-- A call that is over is taken off. -/
theorem Orderly.pop {w : Preempted} (hw : Orderly w) {s : Scheduler} {f : Frame}
    {rest : List Frame} (hfs : w.running = f :: rest)
    (hcur : s.currentThread = w.sched.currentThread) (hs : Settled s) :
    Orderly ({ w with sched := s }.set_running rest) := by
  have hrest : ∀ g ∈ rest, ¬ g.Critical := by
    have := hw.inner
    rwa [hfs] at this
  refine hw.set_running hcur ?_ fun g hg => hrest g (List.mem_of_mem_tail hg)
  exact (between_iff fun g hg => hrest g (List.mem_of_mem_head? hg)).mpr hs

theorem orderly_enter {w : Preempted} (hw : Orderly w)
    (hout : ∀ f ∈ w.running.head?, ¬ f.Critical) : Orderly w.enter := by
  unfold enter
  split
  · exact hw
  · have hs := (between_iff hout).mp hw.states
    have hinner := hw.inner
    refine hw.set_running rfl hs fun f hf => ?_
    change f ∈ w.running at hf
    cases hfs : w.running with
    | nil => simp [hfs] at hf
    | cons g rest =>
      rw [hfs] at hf hinner hout
      rcases List.mem_cons.mp hf with rfl | hf
      · exact hout _ rfl
      · exact hinner f hf

theorem orderly_execute {w w' : Preempted} (hw : Orderly w) {f : Frame} {rest : List Frame}
    (hfs : w.running = f :: rest) (h : w.execute rest f = ok w') : Orderly w' := by
  have hstates := hw.states
  have hinner := hw.inner
  rw [hfs] at hstates hinner
  cases f with
  | select tries =>
    obtain ⟨tcb, htcb, h⟩ := bind_eq_ok.mp h
    obtain ⟨hne, rfl⟩ := deref_eq_ok.mp htcb
    split at h
    · split at h
      · cases h
        exact hw.pop hfs rfl hstates
      · cases h
        exact hw.set_running rfl hstates hinner
    · rename_i hready
      cases h
      exact hw.set_running rfl ⟨hstates, rfl, not_not.mp hready⟩ hinner
  | writeOld new_thread =>
    obtain ⟨s, hs, h⟩ := bind_eq_ok.mp h
    obtain ⟨_, rfl⟩ := set_state_eq_ok.mp hs
    cases h
    obtain ⟨⟨hcur, hothers⟩, hnew, _⟩ := hstates
    refine hw.set_running rfl ⟨hnew, fun t ht => ?_⟩ hinner
    rw [with_state_state]
    split
    · rfl
    · rename_i hne
      exact hothers t ht hne
  | writeNew new_thread =>
    obtain ⟨s, hs, h⟩ := bind_eq_ok.mp h
    obtain ⟨_, rfl⟩ := set_state_eq_ok.mp hs
    cases h
    obtain ⟨hnew, hall⟩ := hstates
    have hsame : (w.sched.with_state new_thread .Running).threads_at
        (w.sched.with_state new_thread .Running).currentThreadIndex = new_thread := hnew.symm
    refine hw.set_running rfl ⟨?_, fun t ht hne => ?_⟩ hinner
    · change ((w.sched.with_state new_thread .Running).thread _).state = _
      rw [hsame, with_state_state, if_pos rfl]
    · change ((w.sched.with_state new_thread .Running).thread t).state = _
      have hne' : t ≠ new_thread := fun he => hne (he.trans hsame.symm)
      rw [with_state_state, if_neg hne']
      exact hall t ht
  | switch =>
    obtain ⟨s, hs, h⟩ := bind_eq_ok.mp h
    obtain ⟨_, _, he⟩ := bind_eq_ok.mp hs
    cases he
    cases h
    -- no thread is in the critical section any more
    have hnone : ∀ t, ∀ g ∈ (w.set_running (.done :: rest)).frames t, ¬ g.Critical := by
      intro t g hg
      by_cases ht : t = w.sched.currentThread
      · subst ht
        have hg' : g ∈ Frame.done :: rest := set_running_running w (.done :: rest) ▸ hg
        rcases List.mem_cons.mp hg' with rfl | hg'
        · exact id
        · exact hinner g hg'
      · rw [set_running_other _ _ ht] at hg
        exact hw.others t ht g hg
    refine ⟨(between_iff fun g hg => hnone _ g (List.mem_of_mem_head? hg)).mpr hstates,
      fun g hg => hnone _ g (List.mem_of_mem_tail hg), fun t _ => hnone t⟩
  | done =>
    cases h
    exact hw.pop hfs rfl hstates

theorem orderly_step {w w' : Preempted} {a : Action} (hw : Orderly w)
    (h : Guarded noTickInside ActStep w a w') : Orderly w' := by
  obtain ⟨hguard, hstep⟩ := h
  cases a with
  | yield =>
    unfold ActStep act at hstep
    dsimp only at hstep
    split at hstep
    · rename_i hnil
      cases hstep
      exact orderly_enter hw (by simp [hnil])
    · cases hstep
      exact hw
  | tick =>
    cases hstep
    exact orderly_enter hw hguard
  | run =>
    unfold ActStep act at hstep
    dsimp only at hstep
    split at hstep
    · cases hstep
      exact hw
    · rename_i hfs
      exact orderly_execute hw hfs hstep

/-! ## The laws -/

/-- While no tick comes inside the critical section, a thread outside of
`Schedule` is the only one that is marked Running. -/
theorem only_the_current_thread_is_running {s : Scheduler} (hs : Settled s) {as : List Action}
    {w : Preempted} (run : Run (Guarded noTickInside ActStep) ⟨s, fun _ => []⟩ as w) :
    OnlyCurrent w := by
  have hstart : Orderly ⟨s, fun _ => []⟩ := ⟨hs, by simp [running], by simp⟩
  have hw := run.inv Orderly (fun _ _ _ => orderly_step) hstart
  intro hout t ht hrunning
  have hsettled : Settled w.sched := by
    have := hw.states
    rwa [hout] at this
  by_contra hne
  rw [hsettled.2 t ht hne] at hrunning
  cases hrunning

/-- Threads 2 and 3, the first of them running. -/
def twoThreads : Scheduler :=
  { static with
    schedulingEnabled := true, currentThread := 2, threads := [2, 3]
    thread := fun t => { static.thread t with state := if t = 2 then .Running else .Ready } }

instance (f : Frame) : Decidable f.Critical :=
  match f with
  | .writeOld _ | .writeNew _ | .switch => isTrue trivial
  | .select _ | .done => isFalse id

instance (w : Preempted) (a : Action) : Decidable (noTickInside w a) :=
  match a with
  | .tick => inferInstanceAs (Decidable (∀ f ∈ w.running.head?, ¬ Frame.Critical f))
  | .yield | .run => isTrue trivial

/-- The run that an action list leads to, if every action is possible and no tick comes
inside the critical section. -/
def quietActs (w : Preempted) : List Action → Outcome Stop Preempted
  | [] => ok w
  | a :: as => do
    assert (noTickInside w a) "a tick inside"
    (← w.act a).quietActs as

theorem quietActs_run {w w' : Preempted} {as : List Action} (h : w.quietActs as = ok w') :
    Run (Guarded noTickInside ActStep) w as w' := by
  induction as generalizing w with
  | nil =>
    cases h
    exact .nil _
  | cons a as ih =>
    obtain ⟨_, hquiet, h⟩ := bind_eq_ok.mp h
    obtain ⟨u, hu, h⟩ := bind_eq_ok.mp h
    exact (Run.single ⟨assert_eq_ok.mp hquiet, hu⟩).trans (ih h)

/-- Thread 2 yields, and a tick comes before its search: the call inside switches to
thread 3. A tick there switches back, and thread 2 goes on with its own call, which
switches to thread 3 again. -/
def ticksOutside : List Action :=
  [.yield, .tick, .run, .run, .run, .run, .tick, .run, .run, .run, .run, .run, .run, .run, .run, .run,
    .run]

theorem only_the_current_thread_is_running_of_two : ∃ w,
    Run (Guarded noTickInside ActStep) ⟨twoThreads, fun _ => []⟩ ticksOutside w ∧
      w.running = [] ∧ w.sched.currentThread = 3 ∧ w.frames 2 = [.done] ∧
      OnlyCurrent w := by
  have hsettled : Settled twoThreads := ⟨rfl, by decide⟩
  have hacts : ((Preempted.mk twoThreads fun _ => []).quietActs ticksOutside).Yields
      fun w => w.running = [] ∧ w.sched.currentThread = 3 ∧ w.frames 2 = [.done] := by decide
  obtain ⟨w, hw, hout, hcur, hdone⟩ := hacts
  have run := quietActs_run hw
  exact ⟨w, run, hout, hcur, hdone, only_the_current_thread_is_running hsettled run⟩

/-- The run that an action list leads to, if every action is possible. -/
def acts (w : Preempted) : List Action → Outcome Stop Preempted
  | [] => ok w
  | a :: as => w.act a >>= fun w' => w'.acts as

theorem acts_run {w w' : Preempted} {as : List Action} (h : w.acts as = ok w') :
    Run ActStep w as w' := by
  induction as generalizing w with
  | nil =>
    cases h
    exact .nil _
  | cons a as ih =>
    obtain ⟨u, hu, h⟩ := bind_eq_ok.mp h
    exact (Run.single hu).trans (ih h)

/-- Thread 2 selects thread 3 and is interrupted. The tick switches to thread
3, which yields back, and thread 2 goes on where it was. -/
def tickInside : List Action :=
  [.yield, .run, .tick, .run, .run, .run, .run, .run, .yield,
    .run, .run, .run, .run, .run, .run, .run, .run, .run]

/-- It marks thread 3 Running then, and switches to itself. -/
theorem a_tick_inside_leaves_two_threads_running : ∃ w,
    Run ActStep ⟨twoThreads, fun _ => []⟩ tickInside w ∧ ¬ OnlyCurrent w := by
  have hacts : ((Preempted.mk twoThreads fun _ => []).acts tickInside).Yields
      fun w => w.running = [] ∧ 3 ∈ w.sched.threads ∧ (w.sched.thread 3).state = .Running ∧
        3 ≠ w.sched.currentThread := by decide
  obtain ⟨w, hw, hout, hmem, hrunning, hne⟩ := hacts
  exact ⟨w, acts_run hw, fun honly => hne (honly hout 3 hmem hrunning)⟩

end Preempted
end lobo.Scheduler
