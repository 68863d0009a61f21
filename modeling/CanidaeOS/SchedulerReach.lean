-- The reach of `Schedule`. A call looks at the `maxTries + 1` threads behind
-- the position, whatever the length of the list, so that it can miss a Ready
-- thread of a longer one. Where it gives up, it leaves the position where the
-- search has ended.
import CanidaeOS.SchedulerRotation

open Program Machine Outcome Runs

namespace lobo.Scheduler

/-! ## The threads that a call looks at -/

/-- The threads in reach: from the position that the first turn moves to, round
the list, as many as there are turns. -/
def searched (s : Scheduler) : List ThreadPtr :=
  (s.threads.rotate s.advance.currentThreadIndex).take (maxTries + 1)

def Ready (s : Scheduler) (t : ThreadPtr) : Prop := (s.thread t).state = .Ready

instance (s : Scheduler) (t : ThreadPtr) : Decidable (s.Ready t) := inferInstanceAs (Decidable (_ = _))

theorem advanced_succ (s : Scheduler) (k : Nat) : s.advanced (k + 1) = s.advance.advanced k := by
  induction k with
  | zero => rfl
  | succ k ih => rw [advanced, ih, advanced]

/-- The first turn puts the position into the list, wherever it was. -/
theorem candidate_succ {s : Scheduler} (hne : s.threads ≠ []) (k : Nat) : s.candidate (k + 1) =
    s.threads_at ((s.advance.currentThreadIndex + k) % s.threads.length) := by
  have hlt : s.advance.currentThreadIndex < s.advance.threads.length := advance_index_lt hne
  rw [candidate, advanced_succ, advanced_index hlt]
  rfl

theorem candidate_succ_mem {s : Scheduler} (hne : s.threads ≠ []) (k : Nat) :
    s.candidate (k + 1) ∈ s.threads := by
  have hpos : 0 < s.threads.length := List.length_pos_iff.mpr hne
  rw [candidate_succ hne, threads_at, List.getD_eq_getElem _ _ (Nat.mod_lt _ hpos)]
  exact List.getElem_mem _

theorem rotated_getElem {s : Scheduler} (hne : s.threads ≠ []) {j : Nat} (hj : j < s.threads.length) :
    (s.threads.rotate s.advance.currentThreadIndex)[j]? = some (s.candidate (j + 1)) := by
  have hmod : (j + s.advance.currentThreadIndex) % s.threads.length < s.threads.length :=
    Nat.mod_lt _ (by omega)
  rw [List.getElem?_rotate hj, candidate_succ hne, threads_at, Nat.add_comm, List.getD_eq_getElem?_getD]
  rw [Nat.add_comm j] at hmod
  rw [List.getElem?_eq_getElem hmod, Option.getD_some]

/-- The turns of the search look at the threads in reach, and at no others. -/
theorem mem_searched {s : Scheduler} (hne : s.threads ≠ []) {t : ThreadPtr} :
    t ∈ s.searched ↔ ∃ k, 1 ≤ k ∧ k ≤ maxTries + 1 ∧ s.candidate k = t := by
  have hpos : 0 < s.threads.length := List.length_pos_iff.mpr hne
  unfold searched
  rw [List.mem_iff_getElem?]
  constructor
  · rintro ⟨j, hj⟩
    rw [List.getElem?_take] at hj
    split at hj
    · rename_i hlt
      have hlen : j < s.threads.length := by
        have := (List.getElem?_eq_some_iff.mp hj).1
        rwa [List.length_rotate] at this
      rw [rotated_getElem hne hlen] at hj
      exact ⟨j + 1, by omega, hlt, Option.some.inj hj⟩
    · cases hj
  · rintro ⟨k, hk1, hk, rfl⟩
    have hmod : (k - 1) % s.threads.length < s.threads.length := Nat.mod_lt _ hpos
    have hle : (k - 1) % s.threads.length ≤ k - 1 := Nat.mod_le _ _
    refine ⟨(k - 1) % s.threads.length, ?_⟩
    rw [List.getElem?_take, if_pos (by omega), rotated_getElem hne hmod, candidate_succ hne,
      Nat.add_mod_mod, ← candidate_succ hne, Nat.sub_add_cancel hk1]

/-! ## The outcomes of a call -/

/-- A state whose pointers lead to control blocks. -/
structure Callable (s : Scheduler) : Prop where
  enabled : s.schedulingEnabled = true
  nonempty : s.threads ≠ []
  real : nullptr ∉ s.threads
  current : s.currentThread ≠ nullptr

theorem Callable.returns {s : Scheduler} (hs : s.Callable) : ∃ r s', s.Schedule = ok (r, s') := by
  apply Schedule.total_of_candidates
  · intro k hnull
    apply hs.real
    rw [← hnull]
    exact candidate_succ_mem hs.nonempty k
  · exact hs.current

/-- A call with a Ready thread in reach switches to one. -/
theorem Schedule.reaches {s : Scheduler} (hs : s.Callable) (h : ∃ t ∈ s.searched, s.Ready t) :
    ∃ t ∈ s.threads, s.Ready t ∧ ∃ s', s.Schedule = ok (some t, s') ∧ s'.currentThread = t := by
  obtain ⟨r, s', hcall⟩ := hs.returns
  rcases Schedule.spec hcall with ⟨hdis, _, _⟩ | ⟨_, hnone, _, _⟩ |
    ⟨_, k, _, _, _, hready, hmem, _, rfl, rfl⟩
  · rw [hs.enabled] at hdis
    cases hdis
  · obtain ⟨t, ht, hready⟩ := h
    obtain ⟨k, hk1, hk, rfl⟩ := (mem_searched hs.nonempty).mp ht
    exact absurd hready (hnone k hk1 hk)
  · exact ⟨s.candidate k, hmem, hready, _, hcall, rfl⟩

/-- A call with none gives up, with its position as many threads on as there
are turns. -/
theorem Schedule.gives_up {s : Scheduler} (hs : s.Callable) (h : ∀ t ∈ s.searched, ¬ s.Ready t) :
    s.Schedule = ok (none, s.advanced (maxTries + 1)) := by
  obtain ⟨r, s', hcall⟩ := hs.returns
  rcases Schedule.spec hcall with ⟨hdis, _, _⟩ | ⟨_, _, rfl, rfl⟩ | ⟨_, k, hk1, hk, _, hready, _⟩
  · rw [hs.enabled] at hdis
    cases hdis
  · exact hcall
  · exact absurd hready (h _ ((mem_searched hs.nonempty).mpr ⟨k, hk1, hk, rfl⟩))

/-! ## The laws -/

/-- The call returns, switches to a Ready thread when there is one, and returns
without a switch only when there is none. -/
def FindsReady (s : Scheduler) : Prop :=
  ∃ r s', s.Schedule = ok (r, s') ∧
    ((∃ t ∈ s.threads, s.Ready t) → ∃ t ∈ s.threads, s.Ready t ∧ r = some t ∧ s'.currentThread = t) ∧
    (r = none → ∀ t ∈ s.threads, ¬ s.Ready t)

/-- With a Ready thread in the list, there is one in reach. -/
def ReadyInReach (s : Scheduler) : Prop :=
  (∃ t ∈ s.threads, s.Ready t) → ∃ t ∈ s.searched, s.Ready t

theorem a_ready_thread_in_reach_is_found {s : Scheduler} (hs : s.Callable) :
    s.FindsReady ↔ s.ReadyInReach := by
  constructor
  · rintro ⟨r, s', hcall, hfinds, -⟩ hsome
    by_contra hnone
    push Not at hnone
    obtain ⟨t, -, -, rfl, -⟩ := hfinds hsome
    rw [Schedule.gives_up hs hnone] at hcall
    cases hcall
  · intro hreach
    by_cases hsome : ∃ t ∈ s.searched, s.Ready t
    · obtain ⟨t, ht, hready, s', hcall, hcurrent⟩ := Schedule.reaches hs hsome
      refine ⟨some t, s', hcall, fun _ => ⟨t, ht, hready, rfl, hcurrent⟩, fun h => ?_⟩
      cases h
    · have hno : ¬ ∃ t ∈ s.threads, s.Ready t := fun h => hsome (hreach h)
      push Not at hsome hno
      refine ⟨none, _, Schedule.gives_up hs hsome, fun ⟨t, ht, hready⟩ => ?_, fun _ => hno⟩
      exact absurd hready (hno t ht)

theorem a_ready_thread_in_reach_is_found_of_three : twoOfThree.FindsReady ↔ twoOfThree.ReadyInReach :=
  a_ready_thread_in_reach_is_found ⟨rfl, by decide, by decide, by decide⟩

/-- Of 503 threads the first one runs, the last one is Ready and the others
wait. -/
def farReady : Scheduler :=
  { static with
    schedulingEnabled := true, currentThread := idleThread, threads := List.range' 1 503,
    thread := fun t =>
      ⟨0, if t = idleThread then .Running else if t = 503 then .Ready else .Waiting, "", 0, 0⟩ }

theorem a_far_ready_thread_is_missed : farReady.Callable ∧ ¬ farReady.FindsReady := by
  have hs : farReady.Callable := ⟨rfl, by decide +kernel, by decide +kernel, by decide⟩
  have hnone : ∀ t ∈ farReady.searched, ¬ farReady.Ready t := by
    decide +kernel
  refine ⟨hs, ?_⟩
  rintro ⟨r, s', hcall, -, hgives⟩
  rw [Schedule.gives_up hs hnone] at hcall
  cases hcall
  refine hgives rfl 503 ?_ ?_
  · decide +kernel
  · decide

/-- A call that returns without a switch leaves the scheduler as it was. -/
def GivesUpUnchanged (s : Scheduler) : Prop := ∀ s', s.Schedule = ok (none, s') → s' = s

/-- The search ends on the position that it started from if and only if its turns
go round the list a whole number of times. -/
theorem advanced_eq_self {s : Scheduler} (hindex : s.currentThreadIndex < s.threads.length) (k : Nat) :
    s.advanced k = s ↔ s.threads.length ∣ k := by
  constructor
  · intro h
    have hsame := congrArg Scheduler.currentThreadIndex h
    rw [advanced_index hindex] at hsame
    have hmod : s.currentThreadIndex + k ≡ s.currentThreadIndex + 0 [MOD s.threads.length] := by
      unfold Nat.ModEq
      rw [hsame, Nat.add_zero, Nat.mod_eq_of_lt hindex]
    exact (Nat.modEq_zero_iff_dvd).mp (Nat.ModEq.add_left_cancel' _ hmod)
  · intro hdvd
    have hsame : (s.advanced k).currentThreadIndex = s.currentThreadIndex := by
      rw [advanced_index hindex, Nat.add_mod, Nat.mod_eq_zero_of_dvd hdvd, Nat.add_zero, Nat.mod_mod,
        Nat.mod_eq_of_lt hindex]
    rw [advanced_eq, hsame]

/-- A call that gives up changes nothing if and only if its turns go round the
list a whole number of times. -/
theorem a_call_gives_up_unchanged_after_whole_rounds {s : Scheduler} (hs : s.Callable)
    (hindex : s.currentThreadIndex < s.threads.length) : s.GivesUpUnchanged ↔
      (∃ t ∈ s.searched, s.Ready t) ∨ s.threads.length ∣ maxTries + 1 := by
  by_cases hsome : ∃ t ∈ s.searched, s.Ready t
  · obtain ⟨t, -, -, s', hcall, -⟩ := Schedule.reaches hs hsome
    refine iff_of_true (fun s'' h => ?_) (Or.inl hsome)
    rw [hcall] at h
    cases h
  · have hnone : ∀ t ∈ s.searched, ¬ s.Ready t := by
      push Not at hsome
      exact hsome
    have hgives := Schedule.gives_up hs hnone
    rw [← advanced_eq_self hindex]
    constructor
    · intro hkeeps
      exact Or.inr (hkeeps _ hgives)
    · rintro (hsome' | hsame) s' h
      · exact absurd hsome' hsome
      · rw [hgives] at h
        rw [← (Prod.mk.inj (ok.inj h)).2]
        exact hsame

/-- The idle thread alone, and with a thread that waits. -/
def idleAnd (waiting : List ThreadPtr) : Scheduler :=
  { static with
    schedulingEnabled := true, currentThread := idleThread, threads := idleThread :: waiting,
    thread := fun t => ⟨0, if t = idleThread then .Running else .Waiting, "", 0, 0⟩ }

/-- 501 turns are 167 rounds of three threads, and no whole rounds of four. -/
theorem a_call_gives_up_unchanged_after_whole_rounds_of_three :
    (idleAnd [2, 3]).GivesUpUnchanged ∧ ¬ (idleAnd [2, 3, 4]).GivesUpUnchanged := by
  constructor
  · apply (a_call_gives_up_unchanged_after_whole_rounds ⟨rfl, by decide, by decide, by decide⟩
      (by decide)).mpr
    exact Or.inr ⟨167, rfl⟩
  · intro hkeeps
    have hrounds := (a_call_gives_up_unchanged_after_whole_rounds
      ⟨rfl, by decide, by decide, by decide⟩ (by decide)).mp hkeeps
    have hnone : ¬ ∃ t ∈ (idleAnd [2, 3, 4]).searched, (idleAnd [2, 3, 4]).Ready t := by
      decide
    rcases hrounds with hsome | hdvd
    · exact hnone hsome
    · exact absurd hdvd (by decide)

/-- With the idle thread and one that waits, the position moves off the current
thread. -/
theorem a_call_that_gives_up_moves_the_position :
    (idleAnd [2]).Callable ∧ (idleAnd [2]).currentThreadIndex < (idleAnd [2]).threads.length ∧
      ¬ (idleAnd [2]).GivesUpUnchanged := by
  have hs : (idleAnd [2]).Callable := ⟨rfl, by decide, by decide, by decide⟩
  have hindex : (idleAnd [2]).currentThreadIndex < (idleAnd [2]).threads.length := by
    decide
  have hnone : ∀ t ∈ (idleAnd [2]).searched, ¬ (idleAnd [2]).Ready t := by
    decide
  refine ⟨hs, hindex, fun hkeeps => ?_⟩
  have hsame := (advanced_eq_self hindex _).mp (hkeeps _ (Schedule.gives_up hs hnone))
  revert hsame
  decide

end lobo.Scheduler
