-- `pmm::allocate` below 4 GiB. A frame index fits the 32-bit counters, and
-- the look-ahead stops at the end of the memory at the latest. It meets the
-- end only where all the frames behind its start are free and too few, so no
-- run is missed.
import CanidaeOS.PmmRuns

open Program Machine Outcome

namespace lobo.pmm

/-! ## The state that a stop leaves -/

/-- `markTurn`, a stop with the PMM it leaves. -/
def markTurnLeaving (idx numContiguous : U64) (s : U32 × pmm) :
    Outcome (Stop × pmm) (Turn (U32 × pmm) pmm) :=
  if s.1.setWidth 64 < idx + numContiguous then do
    let p ← (s.2.set ((s.1 * 0x1000).setWidth 64)).leaving s.2
    ok (.next (s.1 + 1, p))
  else ok (.leave s.2)

/-- `allocateTurn`, a stop with the PMM it leaves. -/
def allocateTurnLeaving (fuel : Nat) (p : pmm) (numContiguous idx : U64) :
    Outcome (Stop × pmm) (Turn U64 (U64 × pmm)) :=
  if idx < p.m_numPages then do
    let init_address := idx * 0x1000
    let used ← (p.test init_address).leaving p
    if used = false then
      if numContiguous ≤ 1 then do
        let p ← (p.set init_address).leaving p
        ok (.leave (init_address, p))
      else do
        let allWasFree ←
          (loop (p.checkTurn idx numContiguous) fuel ((idx + 1).setWidth 32)).leaving p
        if allWasFree = true then do
          let p ← loop (markTurnLeaving idx numContiguous) fuel (idx.setWidth 32, p)
          ok (.leave (init_address, p))
        else ok (.next (idx + 1))
    else ok (.next (idx + 1))
  else (panic "PMM Out of Memory").leaving p

/-- `allocate`, a stop with the PMM it leaves. -/
def allocateLeaving (fuel : Nat) (p : pmm) (numContiguous : U64) :
    Outcome (Stop × pmm) (U64 × pmm) :=
  loop (p.allocateTurnLeaving fuel numContiguous) fuel 0

theorem markTurnLeaving_forgetting (idx n : U64) (s : U32 × pmm) :
    (markTurnLeaving idx n s).forgetting = markTurn idx n s := by
  unfold markTurnLeaving markTurn
  split
  · simp
  · rfl

theorem allocateTurnLeaving_forgetting (fuel : Nat) (p : pmm) (n idx : U64) :
    (p.allocateTurnLeaving fuel n idx).forgetting = p.allocateTurn fuel n idx := by
  unfold allocateTurnLeaving allocateTurn
  split
  · simp only [forgetting_bind, forgetting_leaving]
    congr 1
    funext used
    split
    · split
      · simp
      · simp only [forgetting_bind, forgetting_leaving]
        congr 1
        funext allWasFree
        split
        · simp only [forgetting_bind, loop_forgetting, markTurnLeaving_forgetting, forgetting_ok]
        · rfl
    · rfl
  · simp

/-- It is `allocate`. -/
theorem allocateLeaving_forgetting (fuel : Nat) (p : pmm) (n : U64) :
    (p.allocateLeaving fuel n).forgetting = p.allocate fuel n := by
  simp only [allocateLeaving, allocate, loop_forgetting, allocateTurnLeaving_forgetting]

/-! ## The look-ahead -/

/-- A test past the last frame fails its bounds assertion. -/
theorem test.outside {p : pmm} {a : U64} (hp : p.Ready) (h : p.m_numPages.toNat ≤ frameOf a) :
    p.test a = .stop (.assertion "bit < m_length") := by
  have hnot : ¬ a / 0x1000 < p.bitmap.m_length := by
    rw [hp.length, BitVec.lt_def, frame_index]
    omega
  simp only [test, bitmap_test, bitset.test, assert, ensure, if_neg hnot, bind_stop]

section

variable {p : pmm} (idx n : U64) {c : Nat}

theorem counter_toNat (h : c < 2 ^ 20) : (BitVec.ofNat 32 c).toNat = c := by
  rw [BitVec.toNat_ofNat, Nat.mod_eq_of_lt (by omega)]

theorem counter_frame (h : c < 2 ^ 20) :
    frameOf ((BitVec.ofNat 32 c * 0x1000).setWidth 64) = c := by
  rw [frameOf_counter, counter_toNat h, Nat.mod_eq_of_lt h]

theorem counter_below {idx n : U64} (h : c < 2 ^ 20) (hc : c < (idx + n).toNat) :
    (BitVec.ofNat 32 c).setWidth 64 < idx + n := by
  rw [counter_lt, counter_toNat h]
  exact hc

theorem counter_next (c : Nat) : BitVec.ofNat 32 c + 1 = BitVec.ofNat 32 (c + 1) :=
  (BitVec.ofNat_add c 1).symm

theorem checkTurn_free (hp : p.Ready) (h : c < 2 ^ 20) (hc : c < (idx + n).toNat)
    (hfree : p.Free c) :
    p.checkTurn idx n (BitVec.ofNat 32 c) = ok (.next (BitVec.ofNat 32 (c + 1))) := by
  have hframe := counter_frame h
  have htest := test.total hp (a := (BitVec.ofNat 32 c * 0x1000).setWidth 64)
    (by rw [hframe]; exact hfree.1)
  rw [hframe, decide_eq_false hfree.2] at htest
  simp only [checkTurn, if_pos (counter_below h hc), htest, bind_ok, Bool.false_eq_true, if_false,
    counter_next]

theorem checkTurn_used (hp : p.Ready) (h : c < 2 ^ 20) (hc : c < (idx + n).toNat)
    (hin : c < p.m_numPages.toNat) (hused : p.Used c) :
    p.checkTurn idx n (BitVec.ofNat 32 c) = ok (.leave false) := by
  have hframe := counter_frame h
  have htest := test.total hp (a := (BitVec.ofNat 32 c * 0x1000).setWidth 64)
    (by rw [hframe]; exact hin)
  rw [hframe, decide_eq_true hused] at htest
  simp only [checkTurn, if_pos (counter_below h hc), htest, bind_ok, if_true]

theorem checkTurn_outside (hp : p.Ready) (h : c < 2 ^ 20) (hc : c < (idx + n).toNat)
    (hout : p.m_numPages.toNat ≤ c) :
    p.checkTurn idx n (BitVec.ofNat 32 c) = .stop (.assertion "bit < m_length") := by
  have htest := test.outside hp (a := (BitVec.ofNat 32 c * 0x1000).setWidth 64)
    (by rw [counter_frame h]; exact hout)
  simp only [checkTurn, if_pos (counter_below h hc), htest, bind_stop]

theorem checkTurn_end (h : c < 2 ^ 20) (hc : (idx + n).toNat ≤ c) :
    p.checkTurn idx n (BitVec.ofNat 32 c) = ok (.leave true) := by
  have hnot : ¬ (BitVec.ofNat 32 c).setWidth 64 < idx + n := by
    rw [counter_lt, counter_toNat h]
    omega
  simp only [checkTurn, if_neg hnot]

/-- The look-ahead goes over free frames, to the first turn that ends it. -/
theorem check_skip (hp : p.Ready) (hN : p.m_numPages.toNat < 2 ^ 20) {f : Nat} (fuel : Nat) (hfc : f < c)
    (hc : c ≤ (idx + n).toNat) (hfuel : c ≤ f + fuel)
    (hfree : ∀ g, f < g → g < c → p.Free g) :
    ∃ left, loop (p.checkTurn idx n) fuel (BitVec.ofNat 32 (f + 1)) =
      loop (p.checkTurn idx n) (left + 1) (BitVec.ofNat 32 c) := by
  have hturns : ∀ i < c - (f + 1), p.checkTurn idx n (BitVec.ofNat 32 (f + 1 + i)) =
      ok (.next (BitVec.ofNat 32 (f + 1 + (i + 1)))) := by
    intro i hi
    have hg := hfree (f + 1 + i) (by omega) (by omega)
    have := hg.1
    exact checkTurn_free idx n hp (by omega) (by omega) hg
  have hskip := loop_skip (p.checkTurn idx n) (fun i => BitVec.ofNat 32 (f + 1 + i))
    (c - (f + 1)) (f + fuel - c + 1) hturns
  refine ⟨f + fuel - c, ?_⟩
  rw [show f + fuel - c + 1 + (c - (f + 1)) = fuel by omega] at hskip
  rw [show f + 1 + (c - (f + 1)) = c by omega] at hskip
  exact hskip

end

/-! ## One turn of the search -/

section

variable {p : pmm} {n : U64} {f fuel : Nat}

/-- A frame of a memory below 4 GiB, as the 64-bit index of a turn. -/
theorem index_toNat (h : f < 2 ^ 20) : (BitVec.ofNat 64 f).toNat = f := by
  rw [BitVec.toNat_ofNat, Nat.mod_eq_of_lt (by omega)]

theorem index_end (h : f < 2 ^ 20) (hn : n.toNat < 2 ^ 32) :
    (BitVec.ofNat 64 f + n).toNat = f + n.toNat := by
  rw [BitVec.toNat_add, index_toNat h, Nat.mod_eq_of_lt (by omega)]

theorem index_counter (f : Nat) : (BitVec.ofNat 64 f).setWidth 32 = BitVec.ofNat 32 f := by
  apply BitVec.eq_of_toNat_eq
  simp

theorem index_next (f : Nat) : BitVec.ofNat 64 f + 1 = BitVec.ofNat 64 (f + 1) :=
  (BitVec.ofNat_add f 1).symm

/-- What a turn inside the memory begins with. -/
theorem allocateTurnLeaving_test (hp : p.Ready) (hin : f < p.m_numPages.toNat) :
    BitVec.ofNat 64 f < p.m_numPages ∧ frameOf (BitVec.ofNat 64 f * 0x1000) = f ∧
      p.test (BitVec.ofNat 64 f * 0x1000) = ok (decide (p.Used f)) := by
  have hN := hp.pages
  have hframe : frameOf (BitVec.ofNat 64 f * 0x1000) = f := frameOf_turn (by omega)
  refine ⟨?_, hframe, ?_⟩
  · rw [BitVec.lt_def, BitVec.toNat_ofNat, Nat.mod_eq_of_lt (by omega)]
    exact hin
  · rw [test.total hp (by rw [hframe]; exact hin), hframe]

theorem allocateTurnLeaving_used (hp : p.Ready) (hin : f < p.m_numPages.toNat)
    (hused : p.Used f) :
    p.allocateTurnLeaving fuel n (BitVec.ofNat 64 f) = ok (.next (BitVec.ofNat 64 (f + 1))) := by
  obtain ⟨hlt, _, htest⟩ := allocateTurnLeaving_test hp hin
  rw [decide_eq_true hused] at htest
  simp only [allocateTurnLeaving, if_pos hlt, htest, leaving_ok, bind_ok, Bool.true_eq_false,
    if_false, index_next]

/-- The turn at a free frame, for more than one page. -/
theorem allocateTurnLeaving_free (hp : p.Ready) (hfree : p.Free f) (hn : 1 < n.toNat) :
    p.allocateTurnLeaving fuel n (BitVec.ofNat 64 f) =
      ((loop (p.checkTurn (BitVec.ofNat 64 f) n) fuel (BitVec.ofNat 32 (f + 1))).leaving p >>=
        fun allWasFree =>
          if allWasFree = true then do
            let p ← loop (markTurnLeaving (BitVec.ofNat 64 f) n) fuel (BitVec.ofNat 32 f, p)
            ok (.leave (BitVec.ofNat 64 f * 0x1000, p))
          else ok (.next (BitVec.ofNat 64 (f + 1)))) := by
  obtain ⟨hlt, _, htest⟩ := allocateTurnLeaving_test hp hfree.1
  rw [decide_eq_false hfree.2] at htest
  have hmany : ¬ n ≤ 1 := by
    rw [BitVec.le_def]
    simpa using hn
  simp only [allocateTurnLeaving, if_pos hlt, htest, leaving_ok, bind_ok, if_true, if_neg hmany,
    index_next, index_counter]

/-- The search goes on past a start with a used frame in its run. -/
theorem allocateTurnLeaving_next (hp : p.Ready) (hN : p.m_numPages.toNat < 2 ^ 20)
    (hn : 1 ≤ n.toNat) (hn32 : n.toNat < 2 ^ 32) (hfuel : p.m_numPages.toNat < fuel) {u : Nat}
    (hfu : f ≤ u) (hu : u < f + n.toNat) (huN : u < p.m_numPages.toNat) (hused : p.Used u) :
    p.allocateTurnLeaving fuel n (BitVec.ofNat 64 f) = ok (.next (BitVec.ofNat 64 (f + 1))) := by
  by_cases hfirst : p.Used f
  · exact allocateTurnLeaving_used hp (by omega) hfirst
  have hfree : p.Free f := ⟨by omega, hfirst⟩
  have hlater : f < u := by
    rcases Nat.eq_or_lt_of_le hfu with rfl | hlt
    · exact absurd hused hfirst
    · exact hlt
  -- the look-ahead ends at the first used frame behind `f`
  obtain ⟨c, ⟨hfc, hcused⟩, hmin⟩ :=
    Nat.findX (⟨u, hlater, hused⟩ : ∃ c, f < c ∧ p.Used c)
  have hcu : c ≤ u := by
    by_contra hgt
    exact hmin u (by omega) ⟨hlater, hused⟩
  have hbetween : ∀ g, f < g → g < c → p.Free g := by
    intro g hfg hgc
    exact ⟨by omega, fun hg => hmin g hgc ⟨hfg, hg⟩⟩
  have hend := index_end (f := f) (n := n) (by omega) hn32
  obtain ⟨left, hskip⟩ := check_skip (BitVec.ofNat 64 f) n hp hN fuel hfc (by rw [hend]; omega)
    (by omega) hbetween
  have hlast := checkTurn_used (BitVec.ofNat 64 f) n hp (c := c) (by omega)
    (by rw [hend]; omega) (by omega) hcused
  rw [allocateTurnLeaving_free hp hfree (by omega), hskip, loop_leave hlast]
  rfl

/-- The look-ahead fails at the end of the memory where every frame up to it is
free, and they are too few. -/
theorem allocateTurnLeaving_stops (hp : p.Ready) (hN : p.m_numPages.toNat < 2 ^ 20)
    (hn32 : n.toNat < 2 ^ 32) (hfuel : p.m_numPages.toNat < fuel)
    (hin : f < p.m_numPages.toNat) (hfree : ∀ g, f ≤ g → g < p.m_numPages.toNat → ¬ p.Used g)
    (hshort : p.m_numPages.toNat < f + n.toNat) :
    p.allocateTurnLeaving fuel n (BitVec.ofNat 64 f) =
      .stop (.assertion "bit < m_length", p) := by
  have hend := index_end (f := f) (n := n) (by omega) hn32
  obtain ⟨left, hskip⟩ := check_skip (BitVec.ofNat 64 f) n hp hN fuel hin
    (by rw [hend]; omega) (by omega) fun g hfg hgN => ⟨hgN, hfree g (by omega) hgN⟩
  have hlast := checkTurn_outside (BitVec.ofNat 64 f) n hp (c := p.m_numPages.toNat) (by omega)
    (by rw [hend]; omega) (Nat.le_refl _)
  have hloop : loop (p.checkTurn (BitVec.ofNat 64 f) n) (left + 1)
      (BitVec.ofNat 32 p.m_numPages.toNat) = .stop (.assertion "bit < m_length") := by
    simp only [loop, hlast]
  rw [allocateTurnLeaving_free hp ⟨hin, hfree f (Nat.le_refl _) hin⟩ (by omega), hskip, hloop]
  rfl

/-- Marking a run of the memory returns. -/
theorem markLeaving.total (hp : p.Ready) (hN : p.m_numPages.toNat < 2 ^ 20)
    (hin : f + n.toNat ≤ p.m_numPages.toNat) (hfuel : p.m_numPages.toNat < fuel) :
    ∃ p', loop (markTurnLeaving (BitVec.ofNat 64 f) n) fuel (BitVec.ofNat 32 f, p) = ok p' := by
  have hend : (BitVec.ofNat 64 f + n).toNat = f + n.toNat := by
    rcases Nat.eq_zero_or_pos n.toNat with h | h
    · rw [BitVec.toNat_add, BitVec.toNat_ofNat]
      omega
    · exact index_end (by omega) (by omega)
  refine loop_ok (I := fun s : U32 × pmm => s.2.Ready ∧ s.2.m_numPages = p.m_numPages ∧
    s.1.toNat ≤ f + n.toNat) (fun s => f + n.toNat - s.1.toNat) ?_ ?_ ?_
  · rintro ⟨k, q⟩ ⟨hq, hpages, hk⟩
    dsimp only at hq hpages hk
    by_cases hlt : k.toNat < f + n.toNat
    · have hcond : k.setWidth 64 < BitVec.ofNat 64 f + n := by
        rw [counter_lt, hend]
        exact hlt
      obtain ⟨q', hq'⟩ := set.total hq (a := (k * 0x1000).setWidth 64) (by
        rw [frameOf_counter, hpages, Nat.mod_eq_of_lt (by omega)]
        omega)
      obtain ⟨_, hmarks⟩ := set.spec hq hq'
      have hsucc := counter_succ k hlt (by omega)
      refine Or.inl ⟨(k + 1, q'), ?_, ⟨hmarks.ready hq, ?_, ?_⟩, ?_⟩
      · simp only [markTurnLeaving, if_pos hcond, hq', leaving_ok, bind_ok]
      · exact hmarks.numPages.trans hpages
      · dsimp only
        omega
      · dsimp only
        omega
    · have hcond : ¬ k.setWidth 64 < BitVec.ofNat 64 f + n := by
        rw [counter_lt, hend]
        exact hlt
      exact Or.inr ⟨q, by simp only [markTurnLeaving, if_neg hcond]⟩
  · refine ⟨hp, rfl, ?_⟩
    dsimp only
    rw [BitVec.toNat_ofNat]
    omega
  · dsimp only
    rw [BitVec.toNat_ofNat]
    omega

/-- The search ends at the start of a free run. -/
theorem allocateTurnLeaving_found (hp : p.Ready) (hN : p.m_numPages.toNat < 2 ^ 20)
    (hn : 1 ≤ n.toNat) (hfuel : p.m_numPages.toNat < fuel) (hrun : p.FreeRun f n.toNat) :
    ∃ p', p.allocateTurnLeaving fuel n (BitVec.ofNat 64 f) =
      ok (.leave (BitVec.ofNat 64 f * 0x1000, p')) := by
  have hfree := hrun f (Nat.le_refl _) (by omega)
  have hlast := (hrun (f + n.toNat - 1) (by omega) (by omega)).1
  rcases Nat.eq_or_lt_of_le hn with hone | hmany
  · obtain ⟨hlt, hframe, htest⟩ := allocateTurnLeaving_test hp hfree.1
    rw [decide_eq_false hfree.2] at htest
    obtain ⟨p', hp'⟩ := set.total hp (a := BitVec.ofNat 64 f * 0x1000)
      (by rw [hframe]; exact hfree.1)
    have hle : n ≤ 1 := by
      rw [BitVec.le_def]
      simp [← hone]
    refine ⟨p', ?_⟩
    simp only [allocateTurnLeaving, if_pos hlt, htest, leaving_ok, bind_ok, if_true, if_pos hle,
      hp']
  · have hend := index_end (f := f) (n := n) (by omega) (by omega)
    obtain ⟨left, hskip⟩ := check_skip (BitVec.ofNat 64 f) n hp hN (f := f)
      (c := f + n.toNat) fuel (by omega) (by rw [hend]) (by omega) fun g hfg hg => hrun g (by omega) (by omega)
    have htrue := checkTurn_end (p := p) (BitVec.ofNat 64 f) n (c := f + n.toNat) (by omega)
      (by rw [hend])
    obtain ⟨p', hp'⟩ := markLeaving.total (f := f) (n := n) hp hN (by omega) hfuel
    refine ⟨p', ?_⟩
    rw [allocateTurnLeaving_free hp hfree hmany, hskip, loop_leave htrue, leaving_ok, bind_ok,
      if_pos rfl, hp', bind_ok]

theorem allocateTurnLeaving_end (p : pmm) :
    p.allocateTurnLeaving fuel n p.m_numPages = .stop (.panic "PMM Out of Memory", p) := by
  have hnot : ¬ p.m_numPages < p.m_numPages := by simp
  simp only [allocateTurnLeaving, if_neg hnot]
  rfl

end

/-! ## The law -/

variable {p : pmm} {n : U64} {fuel : Nat}

/-- The search goes on over the frames that start no run and have a used frame
behind them. -/
theorem allocateLeaving_skip (hp : p.Ready) (hN : p.m_numPages.toNat < 2 ^ 20)
    (hn : 1 ≤ n.toNat) (hn32 : n.toNat < 2 ^ 32) (hfuel : p.m_numPages.toNat < fuel) {i : Nat}
    (hi : i ≤ p.m_numPages.toNat) (hno : ∀ j < i, ¬ p.FreeRun j n.toNat)
    (hused : ∀ j < i, ∃ u, j ≤ u ∧ u < p.m_numPages.toNat ∧ p.Used u) :
    ∃ left, p.allocateLeaving fuel n =
      loop (p.allocateTurnLeaving fuel n) (left + 1) (BitVec.ofNat 64 i) := by
  have hturns : ∀ j < i, p.allocateTurnLeaving fuel n (BitVec.ofNat 64 j) =
      ok (.next (BitVec.ofNat 64 (j + 1))) := by
    intro j hj
    by_cases hrun : j + n.toNat ≤ p.m_numPages.toNat
    · -- the run from `j` fits the memory, so one of its frames is used
      obtain ⟨u, hju, hun, hu⟩ : ∃ u, j ≤ u ∧ u < j + n.toNat ∧ p.Used u := by
        by_contra hall
        push Not at hall
        exact hno j hj fun g hg hgn => ⟨by omega, hall g hg hgn⟩
      exact allocateTurnLeaving_next hp hN hn hn32 hfuel hju hun (by omega) hu
    · obtain ⟨u, hju, huN, hu⟩ := hused j hj
      exact allocateTurnLeaving_next hp hN hn hn32 hfuel hju (by omega) huN hu
  have hskip := loop_skip (p.allocateTurnLeaving fuel n) (fun j => BitVec.ofNat 64 j) i
    (fuel - i) hturns
  refine ⟨fuel - i - 1, ?_⟩
  rw [Nat.sub_add_cancel (by omega)] at hskip
  rw [Nat.sub_add_cancel (by omega)]
  exact hskip

/-- With a free run, a call returns the address of the first one. -/
theorem allocate_finds_the_first_run (hp : p.Ready) (hN : p.m_numPages.toNat < 2 ^ 20)
    (hn : 1 ≤ n.toNat) (hn32 : n.toNat < 2 ^ 32) (hfuel : p.m_numPages.toNat < fuel) {i : Nat}
    (hrun : p.FreeRun i n.toNat) (hfirst : ∀ j < i, ¬ p.FreeRun j n.toNat) :
    ∃ p', p.allocate fuel n = ok (BitVec.ofNat 64 i * 0x1000, p') := by
  have hend := (hrun (i + n.toNat - 1) (by omega) (by omega)).1
  have hused : ∀ j < i, ∃ u, j ≤ u ∧ u < p.m_numPages.toNat ∧ p.Used u := by
    intro j hj
    by_contra hall
    push Not at hall
    exact hfirst j hj fun g hg hgn => ⟨by omega, hall g hg (by omega)⟩
  obtain ⟨left, hskip⟩ := allocateLeaving_skip hp hN hn hn32 hfuel (by omega) hfirst hused
  obtain ⟨p', hlast⟩ := allocateTurnLeaving_found hp hN hn hfuel hrun
  refine ⟨p', ?_⟩
  rw [← allocateLeaving_forgetting, hskip, loop_leave hlast]
  rfl

/-- With no free run, a call stops and leaves the PMM as it was. -/
theorem allocate_stops_without_a_run (hp : p.Ready) (hN : p.m_numPages.toNat < 2 ^ 20)
    (hn : 1 ≤ n.toNat) (hn32 : n.toNat < 2 ^ 32) (hfuel : p.m_numPages.toNat < fuel)
    (hno : ∀ i, ¬ p.FreeRun i n.toNat) :
    ∃ e, (e = .panic "PMM Out of Memory" ∨ e = .assertion "bit < m_length") ∧
      p.allocateLeaving fuel n = .stop (e, p) := by
  -- the last used frame ends just before `m`
  obtain ⟨m, ⟨hmN, hfree⟩, hmin⟩ := Nat.findX (⟨p.m_numPages.toNat, Nat.le_refl _,
    fun g hg hgN => absurd hgN (Nat.not_lt_of_le hg)⟩ : ∃ m, m ≤ p.m_numPages.toNat ∧
      ∀ g, m ≤ g → g < p.m_numPages.toNat → ¬ p.Used g)
  have hused : ∀ j < m, ∃ u, j ≤ u ∧ u < p.m_numPages.toNat ∧ p.Used u := by
    intro j hj
    by_contra hall
    push Not at hall
    exact hmin j hj ⟨by omega, hall⟩
  obtain ⟨left, hskip⟩ := allocateLeaving_skip hp hN hn hn32 hfuel hmN (fun j _ => hno j) hused
  rcases Nat.eq_or_lt_of_le hmN with hlast | hlt
  · refine ⟨_, Or.inl rfl, ?_⟩
    have hindex : BitVec.ofNat 64 m = p.m_numPages := by
      rw [hlast, BitVec.ofNat_toNat, BitVec.setWidth_eq]
    rw [hskip, hindex]
    simp only [loop, allocateTurnLeaving_end]
  · refine ⟨_, Or.inr rfl, ?_⟩
    have hshort : p.m_numPages.toNat < m + n.toNat := by
      by_contra hfits
      exact hno m fun g hg hgn => ⟨by omega, hfree g hg (by omega)⟩
    rw [hskip]
    simp only [loop, allocateTurnLeaving_stops hp hN hn32 hfuel hlt hfree hshort]

/-- In a memory below 4 GiB, a call for `n` pages returns the address of the
first run of `n` free frames; where there is none, it stops, out of memory or at
a bounds assertion, and leaves the PMM as it was. -/
theorem allocate_is_first_fit_below_four_gigabytes (hp : p.Ready)
    (hN : p.m_numPages.toNat < 2 ^ 20) (hn : 1 ≤ n.toNat) (hn32 : n.toNat < 2 ^ 32)
    (hfuel : p.m_numPages.toNat < fuel) :
    ((∃ i, p.FreeRun i n.toNat) → ∃ i p', p.FreeRun i n.toNat ∧
      (∀ j < i, ¬ p.FreeRun j n.toNat) ∧
      p.allocate fuel n = ok (BitVec.ofNat 64 i * 0x1000, p')) ∧
    ((∀ i, ¬ p.FreeRun i n.toNat) → ∃ e,
      (e = .panic "PMM Out of Memory" ∨ e = .assertion "bit < m_length") ∧
      p.allocate fuel n = .stop e ∧ p.allocateLeaving fuel n = .stop (e, p)) := by
  constructor
  · rintro hsome
    classical
    obtain ⟨i, hrun, hfirst⟩ := Nat.findX hsome
    obtain ⟨p', hcall⟩ := allocate_finds_the_first_run hp hN hn hn32 hfuel hrun hfirst
    exact ⟨i, p', hrun, hfirst, hcall⟩
  · intro hno
    obtain ⟨e, he, hstop⟩ := allocate_stops_without_a_run hp hN hn hn32 hfuel hno
    refine ⟨e, he, ?_, hstop⟩
    rw [← allocateLeaving_forgetting, hstop]
    rfl

/-- Two of eight free frames. -/
theorem allocate_is_first_fit_of_eight : ∃ i p', eightFrames.FreeRun i 2 ∧
    (∀ j < i, ¬ eightFrames.FreeRun j 2) ∧
    eightFrames.allocate 9 2 = ok (BitVec.ofNat 64 i * 0x1000, p') := by
  have hfit := allocate_is_first_fit_below_four_gigabytes eightFrames_ready (by decide)
    (n := 2) (by decide) (by decide) (Nat.lt_succ_self 8)
  exact hfit.1 ⟨0, fun f _ h => eightFrames_free f (Nat.lt_of_lt_of_le h (by decide))⟩

end lobo.pmm
