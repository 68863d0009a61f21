-- The rotation of `Schedule`. Read from behind the position and round to it,
-- the schedulable threads form a queue. A call switches to the head of the
-- queue and moves it to the end, and as many calls as the queue is long serve
-- every thread in it once.
import CanidaeOS.SchedulerInvariant

open Program Machine Outcome Runs

namespace lobo.Scheduler

/-- The thread is Ready or Running. -/
def Schedulable (s : Scheduler) (t : ThreadPtr) : Prop :=
  (s.thread t).state = .Ready ∨ (s.thread t).state = .Running

instance (s : Scheduler) (t : ThreadPtr) : Decidable (s.Schedulable t) :=
  inferInstanceAs (Decidable (_ ∨ _))

theorem schedulable_iff_not_asleep (s : Scheduler) (t : ThreadPtr) :
    s.Schedulable t ↔ ¬ s.Asleep t := by
  unfold Schedulable Asleep
  cases (s.thread t).state <;> simp

/-- A state that the rotation starts from. -/
structure Rotating (s : Scheduler) : Prop where
  enabled : s.schedulingEnabled = true
  real : nullptr ∉ s.threads
  nodup : s.threads.Nodup
  index : s.currentThreadIndex < s.threads.length
  current : s.threads_at s.currentThreadIndex = s.currentThread
  runs : (s.thread s.currentThread).state = .Running
  running : ∀ t ∈ s.threads, (s.thread t).state = .Running → t = s.currentThread

/-- At most `maxTries` threads are passed over between a schedulable thread
and the next one. -/
def ShortGaps (s : Scheduler) : Prop :=
  ∀ i gap, i < s.threads.length → s.Schedulable (s.threads_at i) →
    s.Schedulable (s.threads_at ((i + gap + 1) % s.threads.length)) →
    (∀ j < gap, s.Asleep (s.threads_at ((i + j + 1) % s.threads.length))) → gap ≤ maxTries

/-! ## The queue -/

/-- The list from behind the position on, the thread at the position last. -/
def behind (s : Scheduler) : List ThreadPtr := s.threads.rotate (s.currentThreadIndex + 1)

/-- The schedulable threads in cyclic list order, from behind the position. -/
def queue (s : Scheduler) : List ThreadPtr := s.behind.filter (s.Schedulable ·)

theorem queue_perm (s : Scheduler) : s.queue.Perm (s.threads.filter (s.Schedulable ·)) :=
  (List.rotate_perm _ _).filter _

theorem advance_index {s : Scheduler} (h : s.currentThreadIndex < s.threads.length) :
    s.advance.currentThreadIndex = (s.currentThreadIndex + 1) % s.threads.length := by
  unfold advance
  dsimp only
  split
  · rw [show s.currentThreadIndex + 1 = s.threads.length by omega, Nat.mod_self]
  · rw [Nat.mod_eq_of_lt (by omega)]

theorem advanced_index {s : Scheduler} (h : s.currentThreadIndex < s.threads.length) (k : Nat) :
    (s.advanced k).currentThreadIndex = (s.currentThreadIndex + k) % s.threads.length := by
  induction k with
  | zero => exact (Nat.mod_eq_of_lt h).symm
  | succ k ih =>
    have hlt : (s.advanced k).currentThreadIndex < (s.advanced k).threads.length := by
      rw [advanced_threads]
      exact advanced_index_lt h k
    rw [advanced, advance_index hlt, ih, advanced_threads, Nat.mod_add_mod, Nat.add_assoc]

theorem candidate_eq {s : Scheduler} (h : s.currentThreadIndex < s.threads.length) (k : Nat) :
    s.candidate k = s.threads_at ((s.currentThreadIndex + k) % s.threads.length) := by
  rw [candidate, advanced_index h]

/-- Turn `j + 1` of the search looks at element `j` of the rotated list. -/
theorem behind_getElem {s : Scheduler} (h : s.currentThreadIndex < s.threads.length) {j : Nat}
    (hj : j < s.threads.length) : s.behind[j]? = some (s.candidate (j + 1)) := by
  have hmod : (s.currentThreadIndex + (j + 1)) % s.threads.length < s.threads.length :=
    Nat.mod_lt _ (by omega)
  rw [behind, List.getElem?_rotate hj, candidate_eq h, threads_at, List.getD_eq_getElem _ _ hmod,
    ← List.getElem?_eq_getElem hmod]
  congr 2
  omega

/-- The thread at the position ends the rotated list. -/
theorem behind_eq {s : Scheduler} (hs : s.Rotating) :
    ∃ front, s.behind = front ++ [s.currentThread] := by
  have hat := hs.current
  have hi := hs.index
  rw [threads_at, List.getD_eq_getElem _ _ hi] at hat
  refine ⟨s.threads.drop (s.currentThreadIndex + 1) ++ s.threads.take s.currentThreadIndex, ?_⟩
  rw [behind, List.rotate_eq_drop_append_take (by omega), List.take_succ_eq_append_getElem hi, hat,
    List.append_assoc]

/-- The current thread ends the queue. -/
theorem queue_eq {s : Scheduler} (hs : s.Rotating) :
    ∃ front, s.queue = front ++ [s.currentThread] := by
  obtain ⟨front, hfront⟩ := behind_eq hs
  have hcurrent : s.Schedulable s.currentThread := Or.inr hs.runs
  refine ⟨front.filter (s.Schedulable ·), ?_⟩
  rw [queue, hfront, List.filter_append]
  simp [hcurrent]

/-- The head of a queue of at least two threads: only sleeping threads stand
before it, and it is not the current thread. -/
theorem queue_head {s : Scheduler} (hs : s.Rotating) {t : ThreadPtr} {rest : List ThreadPtr}
    (hq : s.queue = t :: rest) (hrest : rest ≠ []) :
    ∃ asleep back, s.behind = asleep ++ t :: back ∧ (∀ u ∈ asleep, s.Asleep u) ∧
      s.Schedulable t ∧ rest = back.filter (s.Schedulable ·) ∧ t ≠ s.currentThread := by
  obtain ⟨asleep, back, hbehind, hasleep, ht, hback⟩ := List.filter_eq_cons_iff.mp hq
  refine ⟨asleep, back, hbehind, ?_, by simpa using ht, hback.symm, ?_⟩
  · intro u hu
    have := hasleep u hu
    simpa [schedulable_iff_not_asleep] using this
  · -- the queue has no duplicates and ends with the current thread
    rintro rfl
    obtain ⟨front, hfront⟩ := queue_eq hs
    have hnodup : s.queue.Nodup := (List.nodup_rotate.mpr hs.nodup).filter _
    have hlast : s.currentThread ∈ rest := by
      rw [hq] at hfront
      cases front with
      | nil =>
        rw [List.nil_append, List.cons.injEq] at hfront
        exact absurd hfront.2 hrest
      | cons u front =>
        rw [List.cons_append, List.cons.injEq] at hfront
        rw [hfront.2]
        simp
    rw [hq] at hnodup
    exact (List.nodup_cons.mp hnodup).1 hlast

/-! ## One call -/

/-- What the calls leave as it was. -/
structure Kept (s s' : Scheduler) : Prop where
  threads : s'.threads = s.threads
  schedulable : ∀ u, s'.Schedulable u ↔ s.Schedulable u
  asleep : ∀ u, s.Asleep u → (s'.thread u).state = (s.thread u).state

theorem Kept.refl (s : Scheduler) : Kept s s := ⟨rfl, fun _ => Iff.rfl, fun _ _ => rfl⟩

theorem Kept.sleeps {s s' : Scheduler} (h : Kept s s') (u : ThreadPtr) :
    s'.Asleep u ↔ s.Asleep u := by
  have := h.schedulable u
  simp only [schedulable_iff_not_asleep] at this
  exact not_iff_not.mp this

theorem Kept.trans {s s' s'' : Scheduler} (h : Kept s s') (h' : Kept s' s'') : Kept s s'' := by
  refine ⟨h'.threads.trans h.threads, fun u => (h'.schedulable u).trans (h.schedulable u), ?_⟩
  intro u hu
  rw [h'.asleep u ((h.sleeps u).mpr hu), h.asleep u hu]

theorem Kept.shortGaps {s s' : Scheduler} (h : Kept s s') (hgaps : s.ShortGaps) :
    s'.ShortGaps := by
  intro i gap hi hfrom hto hbetween
  have hat : ∀ j, s'.threads_at j = s.threads_at j := by
    intro j
    unfold threads_at
    rw [h.threads]
  simp only [h.threads, hat, h.schedulable, h.sleeps] at hi hfrom hto hbetween
  exact hgaps i gap hi hfrom hto hbetween

/-- A switch from the current thread to a schedulable one. -/
theorem kept_switch {s : Scheduler} (hs : s.Rotating) {t : ThreadPtr} (ht : s.Schedulable t)
    (k : Nat) : Kept s ((s.advanced k).switchedTo t) := by
  have hstate : ∀ u, (((s.advanced k).switchedTo t).thread u).state =
      if u = t then .Running else if u = s.currentThread then .Ready else (s.thread u).state := by
    intro u
    rw [switchedTo_state, advanced_currentThread, advanced_thread]
  refine ⟨advanced_threads s k, ?_, ?_⟩
  · intro u
    unfold Schedulable at ht ⊢
    rw [hstate]
    by_cases hu : u = t
    · rw [if_pos hu, hu]
      simp [ht]
    · rw [if_neg hu]
      by_cases hc : u = s.currentThread
      · rw [if_pos hc, hc, hs.runs]
        simp
      · rw [if_neg hc]
  · intro u hu
    have hawake : ∀ v, s.Schedulable v → u ≠ v := by
      rintro v hv rfl
      exact (schedulable_iff_not_asleep s u).mp hv hu
    rw [hstate, if_neg (hawake t ht), if_neg (hawake s.currentThread (Or.inr hs.runs))]

/-- A call that passes over `gap` sleeping threads to a Ready one. -/
theorem Schedule.finds {s : Scheduler} (hs : s.Rotating) {gap : Nat} (hgap : gap ≤ maxTries)
    (hbefore : ∀ j < gap, s.Asleep (s.candidate (j + 1))) (hready : s.ReadyAt (gap + 1)) :
    s.Schedule = ok (some (s.candidate (gap + 1)),
      (s.advanced (gap + 1)).switchedTo (s.candidate (gap + 1))) := by
  have hnull : s.currentThread ≠ nullptr := by
    intro h
    apply hs.real
    rw [← h, ← hs.current, threads_at, List.getD_eq_getElem _ _ hs.index]
    exact List.getElem_mem _
  obtain ⟨r, s', hcall⟩ := Schedule.total hs.real hs.index hnull
  rcases Schedule.spec hcall with ⟨hdis, _, _⟩ | ⟨_, hnone, _, _⟩ |
    ⟨_, k, hk1, _, hfirst, hk, _, _, rfl, rfl⟩
  · rw [hs.enabled] at hdis
    cases hdis
  · exact absurd hready (hnone _ (by omega) (by omega))
  · rcases Nat.lt_trichotomy k (gap + 1) with hlt | rfl | hgt
    · have hsleep := hbefore (k - 1) (by omega)
      rw [show k - 1 + 1 = k by omega] at hsleep
      unfold Asleep at hsleep
      rw [hk] at hsleep
      simp at hsleep
    · exact hcall
    · exact absurd hready (hfirst _ (by omega) hgt)

/-- The turns of the search, read off the rotated list. -/
theorem candidate_behind {s : Scheduler} (hindex : s.currentThreadIndex < s.threads.length)
    {asleep back : List ThreadPtr} {t : ThreadPtr} (hbehind : s.behind = asleep ++ t :: back) :
    s.candidate (asleep.length + 1) = t ∧
      ∀ j < asleep.length, s.candidate (j + 1) ∈ asleep := by
  have hlen : s.behind.length = s.threads.length := List.length_rotate _ _
  rw [hbehind, List.length_append, List.length_cons] at hlen
  constructor
  · have h := behind_getElem hindex (j := asleep.length) (by omega)
    rw [hbehind] at h
    simpa using h.symm
  · intro j hj
    have h := behind_getElem hindex (j := j) (by omega)
    rw [hbehind, List.getElem?_append_left hj] at h
    exact List.mem_of_getElem? h

/-- After a move of the position past the head, the rotated list starts behind
the head. -/
theorem behind_advanced {s : Scheduler} (hindex : s.currentThreadIndex < s.threads.length)
    {asleep back : List ThreadPtr} {t : ThreadPtr} (hbehind : s.behind = asleep ++ t :: back) :
    (s.advanced (asleep.length + 1)).behind = back ++ (asleep ++ [t]) := by
  have hsplit : asleep ++ t :: back = (asleep ++ [t]) ++ back := by simp
  have hlen : (asleep ++ [t]).length = asleep.length + 1 := by simp
  calc (s.advanced (asleep.length + 1)).behind
      = s.threads.rotate ((s.currentThreadIndex + (asleep.length + 1)) % s.threads.length + 1) := by
        rw [behind, advanced_threads, advanced_index hindex]
    _ = s.behind.rotate (asleep.length + 1) := by
        rw [behind, List.rotate_rotate, ← List.rotate_rotate, List.rotate_mod, List.rotate_rotate]
        congr 1
        omega
    _ = back ++ (asleep ++ [t]) := by
        rw [hbehind, hsplit, ← hlen, List.rotate_append_length_eq]

/-- One call switches to the head of the queue and moves it to the end. -/
theorem Schedule.rotates {s : Scheduler} (hs : s.Rotating) (hgaps : s.ShortGaps) {t : ThreadPtr}
    {rest : List ThreadPtr} (hq : s.queue = t :: rest) (hrest : rest ≠ []) :
    ∃ s', s.Schedule = ok (some t, s') ∧ s'.Rotating ∧ Kept s s' ∧ s'.queue = rest ++ [t] := by
  obtain ⟨asleep, back, hbehind, hasleep, ht, hback, hne⟩ := queue_head hs hq hrest
  obtain ⟨hfound, hbefore⟩ := candidate_behind hs.index hbehind
  have hmem : t ∈ s.threads := by
    have h : t ∈ s.behind := by simp [hbehind]
    exact List.mem_rotate.mp h
  have hgap : asleep.length ≤ maxTries := by
    apply hgaps s.currentThreadIndex asleep.length hs.index
    · rw [hs.current]
      exact Or.inr hs.runs
    · rw [Nat.add_assoc, ← candidate_eq hs.index, hfound]
      exact ht
    · intro j hj
      rw [Nat.add_assoc, ← candidate_eq hs.index]
      exact hasleep _ (hbefore j hj)
  have hready : s.ReadyAt (asleep.length + 1) := by
    unfold ReadyAt
    rw [hfound]
    exact ht.resolve_right fun hrun => hne (hs.running t hmem hrun)
  have hcall := Schedule.finds hs hgap (fun j hj => hasleep _ (hbefore j hj)) hready
  rw [hfound] at hcall
  have hkept := kept_switch hs ht (asleep.length + 1)
  have hindex := advanced_index_lt hs.index (asleep.length + 1)
  refine ⟨_, hcall, ?_, hkept, ?_⟩
  · have hrun : (((s.advanced (asleep.length + 1)).switchedTo t).thread t).state = .Running := by
      rw [switchedTo_state, if_pos rfl]
    refine ⟨?_, ?_, ?_, ?_, ?_, hrun, ?_⟩
    · have h := hs.enabled
      rw [advanced_eq]
      exact h
    · rw [hkept.threads]
      exact hs.real
    · rw [hkept.threads]
      exact hs.nodup
    · rw [hkept.threads]
      exact hindex
    · exact (advanced_candidate s _).trans hfound
    · intro u hu hstate
      rw [hkept.threads] at hu
      rw [switchedTo_state, advanced_currentThread, advanced_thread] at hstate
      split at hstate
      · rename_i hnew
        exact hnew
      · split at hstate
        · cases hstate
        · rename_i hold
          exact absurd (hs.running u hu hstate) hold
  · have hafter : ((s.advanced (asleep.length + 1)).switchedTo t).behind =
        back ++ (asleep ++ [t]) := behind_advanced hs.index hbehind
    have hnone : asleep.filter (s.Schedulable ·) = [] := by
      rw [List.filter_eq_nil_iff]
      intro u hu
      simpa [schedulable_iff_not_asleep] using hasleep u hu
    simp only [queue, hafter, hkept.schedulable, List.filter_append, hnone, hback]
    simp [ht]

/-! ## Calls one after the other -/

/-- `count` calls, and the threads that they switched to. -/
def calls : Nat → Scheduler → Outcome Stop (List (Option ThreadPtr) × Scheduler)
  | 0, s => ok ([], s)
  | count + 1, s => do
    let (r, s) ← s.Schedule
    let (rs, s) ← calls count s
    ok (r :: rs, s)

/-- As many calls as the queue is long at most serve it in its order, and
rotate it. -/
theorem calls.rotate {s : Scheduler} (hs : s.Rotating) (hgaps : s.ShortGaps)
    (htwo : 2 ≤ s.queue.length) (count : Nat) (hcount : count ≤ s.queue.length) :
    ∃ s', calls count s = ok ((s.queue.take count).map some, s') ∧ s'.Rotating ∧ Kept s s' ∧
      s'.queue = s.queue.rotate count := by
  induction count generalizing s with
  | zero => exact ⟨s, rfl, hs, .refl s, (List.rotate_zero _).symm⟩
  | succ count ih =>
    obtain ⟨t, rest, hq⟩ : ∃ t rest, s.queue = t :: rest := by
      cases hq : s.queue with
      | nil => simp [hq] at htwo
      | cons t rest => exact ⟨t, rest, rfl⟩
    rw [hq, List.length_cons] at htwo hcount
    have hrest : rest ≠ [] := by
      rintro rfl
      simp at htwo
    obtain ⟨s₁, hcall, hs₁, hkept, hq₁⟩ := Schedule.rotates hs hgaps hq hrest
    have hlen : s₁.queue.length = rest.length + 1 := by simp [hq₁]
    obtain ⟨s', hcalls, hs', hkept', hq'⟩ :=
      ih hs₁ (hkept.shortGaps hgaps) (by omega) (by omega)
    refine ⟨s', ?_, hs', hkept.trans hkept', ?_⟩
    · rw [calls, hcall, bind_ok]
      simp only [hcalls, bind_ok]
      rw [hq, hq₁, List.take_append_of_le_length (by omega), List.take_succ_cons, List.map_cons]
    · rw [hq', hq₁, hq, List.rotate_cons_succ]

/-! ## The law -/

/-- With `k ≥ 2` schedulable threads and short gaps between them, `k` calls
switch to the schedulable threads, each once, in cyclic list order; they end at
the thread they started from, and leave every sleeping thread's state. -/
theorem k_calls_serve_every_schedulable_thread_once {s : Scheduler} (hs : s.Rotating)
    (hgaps : s.ShortGaps) {k : Nat} (hk : (s.threads.filter (s.Schedulable ·)).length = k)
    (htwo : 2 ≤ k) : ∃ s', calls k s = ok (s.queue.map some, s') ∧
      s.queue.Nodup ∧ (∀ t, t ∈ s.queue ↔ t ∈ s.threads ∧ s.Schedulable t) ∧
      s'.currentThread = s.currentThread ∧
      ∀ t ∈ s.threads, s.Asleep t → (s'.thread t).state = (s.thread t).state := by
  have hlen : s.queue.length = k := (queue_perm s).length_eq.trans hk
  obtain ⟨s', hcalls, hs', hkept, hq⟩ := calls.rotate hs hgaps (by omega) k (by omega)
  refine ⟨s', ?_, (List.nodup_rotate.mpr hs.nodup).filter _, ?_, ?_, fun t _ => hkept.asleep t⟩
  · rw [hcalls, ← hlen, List.take_length]
  · intro t
    rw [(queue_perm s).mem_iff]
    simp
  · -- the same queue ends with the same thread
    obtain ⟨front, hfront⟩ := queue_eq hs
    obtain ⟨front', hfront'⟩ := queue_eq hs'
    rw [← hlen, List.rotate_length, hfront', hfront] at hq
    exact List.singleton_inj.mp (List.append_inj' hq rfl).2

/-- The idle thread runs, thread 2 waits, thread 3 is Ready. -/
def twoOfThree : Scheduler :=
  { static with
    schedulingEnabled := true, currentThread := idleThread, threads := [idleThread, 2, 3],
    thread := fun t =>
      ⟨0, if t = idleThread then .Running else if t = 2 then .Waiting else .Ready, "", 0, 0⟩ }

theorem twoOfThree_shortGaps : twoOfThree.ShortGaps := by
  intro i gap hi _ _ hbetween
  change i < 3 at hi
  by_contra hlong
  -- a gap of three threads holds the idle thread
  have hlt : 2 - i < gap := by
    unfold maxTries at hlong
    omega
  have h : twoOfThree.Asleep (twoOfThree.threads_at ((i + (2 - i) + 1) % 3)) :=
    hbetween (2 - i) hlt
  rw [show (i + (2 - i) + 1) % 3 = 0 by omega] at h
  exact absurd h (by decide)

theorem two_calls_serve_two_of_three : ∃ s', calls 2 twoOfThree = ok ([some 3, some 1], s') ∧
    s'.currentThread = idleThread ∧ (s'.thread 2).state = .Waiting := by
  have hs : twoOfThree.Rotating :=
    ⟨rfl, by decide, by decide, by decide, rfl, rfl, by decide⟩
  obtain ⟨s', hcalls, _, _, hcurrent, hasleep⟩ :=
    k_calls_serve_every_schedulable_thread_once hs twoOfThree_shortGaps rfl (by decide)
  exact ⟨s', hcalls, hcurrent, hasleep 2 (by decide) (by decide)⟩

end lobo.Scheduler
