-- The laws of `pmm::allocate` over whole runs. A run of frames that ends at
-- or below frame 2^20 is handed out whole. The 32-bit counters lose a run
-- that goes past that frame: it is neither tested nor marked there.
import CanidaeOS.Pmm
import CanidaeOS.Runs

open Program Machine Outcome Runs

namespace lobo.pmm

/-! ## The loops of `allocate` -/

/-- The frame that a 32-bit counter names. -/
theorem frameOf_counter (c : U32) : frameOf ((c * 0x1000).setWidth 64) = c.toNat % 2 ^ 20 := by
  have := c.isLt
  simp only [frameOf, BitVec.toNat_setWidth, BitVec.toNat_mul, BitVec.reduceToNat]
  omega

theorem counter_lt (c : U32) (e : U64) : c.setWidth 64 < e ↔ c.toNat < e.toNat := by
  have := c.isLt
  simp only [BitVec.lt_def, BitVec.toNat_setWidth]
  omega

theorem counter_succ (c : U32) {e : Nat} (h : c.toNat < e) (he : e < 2 ^ 32) :
    (c + 1).toNat = c.toNat + 1 := by
  simp only [BitVec.toNat_add, BitVec.reduceToNat]
  omega

/-- A look-ahead that finds no used frame has tested every frame that its
counter names, up to an end that fits the counter. -/
theorem check_free {p : pmm} {idx n : U64} {c₀ : U32} {fuel : Nat} (hp : p.Ready)
    (h : loop (p.checkTurn idx n) fuel c₀ = ok true) :
    (idx + n).toNat ≤ c₀.toNat ∨ ((idx + n).toNat < 2 ^ 32 ∧
      ∀ c, c₀.toNat ≤ c → c < (idx + n).toNat → p.Free (c % 2 ^ 20)) := by
  generalize he : (idx + n).toNat = e
  have hinv : ∀ b, loop (p.checkTurn idx n) fuel c₀ = ok b → b = true →
      e ≤ c₀.toNat ∨ (e < 2 ^ 32 ∧ ∀ c, c₀.toNat ≤ c → c < e → p.Free (c % 2 ^ 20)) := by
    intro b hb
    refine loop_inv (I := fun k : U32 => e ≤ c₀.toNat ∨ 2 ^ 32 ≤ e ∨
      ∀ c, c₀.toNat ≤ c → c < k.toNat → p.Free (c % 2 ^ 20))
      (Q := fun b => b = true → _) ?_ ?_ (Or.inr (Or.inr fun c h1 h2 => by omega)) hb
    · rintro k k' (hI | hI | hI) hk
      · exact Or.inl hI
      · exact Or.inr (Or.inl hI)
      · by_cases hbig : 2 ^ 32 ≤ e
        · exact Or.inr (Or.inl hbig)
        unfold checkTurn at hk
        split at hk
        · rename_i hlt
          rw [counter_lt, he] at hlt
          obtain ⟨v, hv, hk⟩ := bind_eq_ok.mp hk
          obtain ⟨hin, hused⟩ := test.spec hp hv
          rw [frameOf_counter] at hin hused
          split at hk
          · cases hk
          · rename_i hfree
            cases hk
            refine Or.inr (Or.inr fun c h1 h2 => ?_)
            rw [counter_succ k hlt (by omega)] at h2
            rcases Nat.lt_or_ge c k.toNat with hck | hck
            · exact hI c h1 hck
            · obtain rfl : c = k.toNat := by omega
              exact ⟨hin, fun hu => hfree (hused.mpr hu)⟩
        · cases hk
    · rintro k b hI hk rfl
      unfold checkTurn at hk
      split at hk
      · obtain ⟨v, hv, hk⟩ := bind_eq_ok.mp hk
        split at hk <;> cases hk
      · rename_i hge
        rw [counter_lt, he] at hge
        have := k.isLt
        rcases hI with hI | hI | hI
        · exact Or.inl hI
        · omega
        · exact Or.inr ⟨by omega, fun c h1 h2 => hI c h1 (by omega)⟩
  exact hinv true h rfl

/-- A look-ahead that gives up has seen a used frame. -/
theorem check_used {p : pmm} {idx n : U64} {c₀ : U32} {fuel : Nat} (hp : p.Ready)
    (he : (idx + n).toNat < 2 ^ 32) (h : loop (p.checkTurn idx n) fuel c₀ = ok false) :
    ∃ c, c₀.toNat ≤ c ∧ c < (idx + n).toNat ∧ p.Used (c % 2 ^ 20) := by
  have hinv : ∀ b, loop (p.checkTurn idx n) fuel c₀ = ok b → b = false →
      ∃ c, c₀.toNat ≤ c ∧ c < (idx + n).toNat ∧ p.Used (c % 2 ^ 20) := by
    intro b hb
    refine loop_inv (I := fun k : U32 => c₀.toNat ≤ k.toNat) (Q := fun b => b = false → _)
      ?_ ?_ (Nat.le_refl _) hb
    · intro k k' hI hk
      unfold checkTurn at hk
      split at hk
      · rename_i hlt
        rw [counter_lt] at hlt
        obtain ⟨v, hv, hk⟩ := bind_eq_ok.mp hk
        split at hk
        · cases hk
        · cases hk
          rw [counter_succ k hlt he]
          omega
      · cases hk
    · rintro k b hI hk rfl
      unfold checkTurn at hk
      split at hk
      · rename_i hlt
        rw [counter_lt] at hlt
        obtain ⟨v, hv, hk⟩ := bind_eq_ok.mp hk
        split at hk
        · rename_i hu
          refine ⟨k.toNat, hI, hlt, ?_⟩
          rw [← frameOf_counter]
          exact (test.spec hp hv).2.mp hu
        · cases hk
      · cases hk
  exact hinv false h rfl

/-- Marking uses the frames that its counter names. -/
theorem mark.spec {p p' : pmm} {idx n : U64} {k₀ : U32} {fuel : Nat} (hp : p.Ready)
    (h : loop (markTurn idx n) fuel (k₀, p) = ok p') :
    Marks p p' fun g =>
      p.Used g ∨ ∃ c, k₀.toNat ≤ c ∧ c < (idx + n).toNat ∧ c % 2 ^ 20 = g := by
  generalize he : (idx + n).toNat = e
  refine loop_inv (I := fun s : U32 × pmm => 2 ^ 32 ≤ e ∨
    ((s.1.toNat ≤ e ∨ s.1 = k₀) ∧ k₀.toNat ≤ s.1.toNat ∧ s.2.Ready ∧ Marks p s.2 fun g =>
      p.Used g ∨ ∃ c, k₀.toNat ≤ c ∧ c < s.1.toNat ∧ c % 2 ^ 20 = g))
    (Q := fun q => Marks p q fun g =>
      p.Used g ∨ ∃ c, k₀.toNat ≤ c ∧ c < e ∧ c % 2 ^ 20 = g) ?_ ?_ ?_ h
  · rintro ⟨k, q⟩ s' hI hk
    by_cases hbig : 2 ^ 32 ≤ e
    · exact Or.inl hbig
    obtain ⟨_, hk₀, hq, hm⟩ := hI.resolve_left hbig
    unfold markTurn at hk
    split at hk
    · rename_i hlt
      rw [counter_lt, he] at hlt
      obtain ⟨q', hq', hk⟩ := bind_eq_ok.mp hk
      cases hk
      obtain ⟨_, hset⟩ := set.spec hq hq'
      rw [frameOf_counter] at hset
      have hk' := counter_succ k hlt (by omega)
      dsimp only at hlt hk₀ hm
      refine Or.inr ⟨Or.inl (by dsimp only; omega), by dsimp only; omega, hset.ready hq,
        (hm.trans hset).congr fun g => ?_⟩
      rw [hm.used, hk']
      constructor
      · rintro (rfl | hu | ⟨c, h1, h2, h3⟩)
        · exact Or.inr ⟨k.toNat, hk₀, Nat.lt_succ_self _, rfl⟩
        · exact Or.inl hu
        · exact Or.inr ⟨c, h1, by omega, h3⟩
      · rintro (hu | ⟨c, h1, h2, h3⟩)
        · exact Or.inr (Or.inl hu)
        · rcases Nat.lt_or_ge c k.toNat with hck | hck
          · exact Or.inr (Or.inr ⟨c, h1, hck, h3⟩)
          · obtain rfl : c = k.toNat := by omega
            exact Or.inl h3.symm
    · cases hk
  · rintro ⟨k, q⟩ b hI hk
    unfold markTurn at hk
    split at hk
    · obtain ⟨q', hq', hk⟩ := bind_eq_ok.mp hk
      cases hk
    · rename_i hge
      rw [counter_lt, he] at hge
      cases hk
      have := k.isLt
      dsimp only at hge
      rcases hI with hI | ⟨hke, hk₀, _, hm⟩
      · omega
      · refine hm.congr fun g => ?_
        dsimp only at hke hk₀ ⊢
        rcases hke with hke | rfl
        · rw [show k.toNat = e by omega]
        · refine or_congr Iff.rfl ⟨?_, ?_⟩ <;> rintro ⟨c, h1, h2, h3⟩ <;> omega
  · exact Or.inr ⟨Or.inr rfl, Nat.le_refl _, hp, (Marks.refl p).congr fun g =>
      ⟨Or.inl, fun hu => hu.elim id fun ⟨c, h1, h2, _⟩ => by dsimp only at h2; omega⟩⟩

/-! ## One call of `allocate` -/

/-- The `n` frames from `i` on are all free. -/
def FreeRun (p : pmm) (i n : Nat) : Prop := ∀ f, i ≤ f → f < i + n → p.Free f

/-- The frames that the 32-bit counters can name. -/
def LowRun (p : pmm) (i n : Nat) : Prop := i + n ≤ 2 ^ 20 ∧ p.FreeRun i n

/-- What `allocate` did for `n` pages when it returned the address of frame
`idx`. -/
structure Found (p p' : pmm) (n idx : Nat) : Prop where
  free : p.Free idx
  single : n ≤ 1 → Marks p p' fun g => g = idx ∨ p.Used g
  low : 1 < n → idx + n ≤ 2 ^ 20 →
    p.FreeRun idx n ∧ Marks p p' fun g => (idx ≤ g ∧ g < idx + n) ∨ p.Used g
  high : 1 < n → 2 ^ 20 < idx + n → ∀ g, p'.Used g → p.Used g ∨ g < 2 ^ 20
  marks : ∃ U : Nat → Prop, Marks p p' fun g => U g ∨ p.Used g
  ahead : 1 < n → idx + n < 2 ^ 64 → ∀ j, 0 < j → j < n → p.Free ((idx + j) % 2 ^ 20)
  first : 0 < n → ∀ j < idx, ¬ p.LowRun j n

/-- The address of a frame of a memory of fewer than 2^52 frames. -/
theorem address_of_frame {p : pmm} (hp : p.Ready) {idx : U64} (h : idx < p.m_numPages) :
    (idx * 0x1000).toNat = idx.toNat * 0x1000 ∧ frameOf (idx * 0x1000) = idx.toNat := by
  have hlt : idx.toNat < p.m_numPages.toNat := h
  have hN := hp.pages
  have hmul : (idx * 0x1000).toNat = idx.toNat * 0x1000 := by
    simp only [BitVec.toNat_mul, BitVec.reduceToNat]
    omega
  refine ⟨hmul, ?_⟩
  rw [frameOf, hmul]
  omega

/-- The index behind a frame does not wrap. -/
theorem index_succ {p : pmm} (hp : p.Ready) {idx : U64} (h : idx < p.m_numPages) :
    (idx + 1).toNat = idx.toNat + 1 := by
  have hlt : idx.toNat < p.m_numPages.toNat := h
  have hN := hp.pages
  simp only [BitVec.toNat_add, BitVec.reduceToNat]
  omega

/-- The search goes on past a used frame. -/
theorem allocateTurn_used {p : pmm} (hp : p.Ready) (fuel : Nat) (n : U64) {f : Nat}
    (hf : f < p.m_numPages.toNat) (hu : p.Used f) :
    p.allocateTurn fuel n (BitVec.ofNat 64 f) = ok (.next (BitVec.ofNat 64 (f + 1))) := by
  have hN := hp.pages
  have hidx : (BitVec.ofNat 64 f).toNat = f := by
    rw [BitVec.toNat_ofNat, Nat.mod_eq_of_lt (by omega)]
  have hlt : BitVec.ofNat 64 f < p.m_numPages := by
    rw [BitVec.lt_def, hidx]
    exact hf
  obtain ⟨_, hframe⟩ := address_of_frame hp hlt
  rw [hidx] at hframe
  have htest : p.test (BitVec.ofNat 64 f * 0x1000) = ok true := by
    rw [test.total hp (by rw [hframe]; exact hf), hframe, decide_eq_true hu]
  simp only [allocateTurn, if_pos hlt, htest, bind_ok, Bool.true_eq_false, if_false]
  simp [BitVec.ofNat_add]

/-- A turn that goes on leaves a frame that starts no low run. -/
theorem allocateTurn_next {p : pmm} {n idx idx' : U64} {fuel : Nat} (hp : p.Ready)
    (h : p.allocateTurn fuel n idx = ok (.next idx')) :
    idx'.toNat = idx.toNat + 1 ∧ (0 < n.toNat → ¬ p.LowRun idx.toNat n.toNat) := by
  unfold allocateTurn at h
  split at h
  · rename_i hlt
    obtain ⟨_, hframe⟩ := address_of_frame hp hlt
    have hidx : idx.toNat < p.m_numPages.toNat := hlt
    have hN := hp.pages
    have hsucc := index_succ hp hlt
    obtain ⟨v, hv, h⟩ := bind_eq_ok.mp h
    obtain ⟨_, hused⟩ := test.spec hp hv
    rw [hframe] at hused
    split at h
    · rename_i hfree
      split at h
      · obtain ⟨q, _, h⟩ := bind_eq_ok.mp h
        cases h
      · rename_i hn
        have hn1 : 1 < n.toNat := by simpa [BitVec.le_def] using hn
        obtain ⟨b, hb, h⟩ := bind_eq_ok.mp h
        split at h
        · obtain ⟨q, _, h⟩ := bind_eq_ok.mp h
          cases h
        · rename_i hbf
          cases h
          refine ⟨hsucc, ?_⟩
          rintro - ⟨hend, hrun⟩
          -- the look-ahead saw a used frame of the run itself
          have hsum : (idx + n).toNat = idx.toNat + n.toNat := by
            simp only [BitVec.toNat_add]
            omega
          rw [Bool.not_eq_true] at hbf
          subst hbf
          obtain ⟨c, hc1, hc2, hc3⟩ := check_used hp (by omega) hb
          rw [BitVec.toNat_setWidth, hsucc] at hc1
          rw [Nat.mod_eq_of_lt (by omega)] at hc1 hc3
          exact (hrun c (by omega) (by omega)).2 hc3
    · rename_i hv1
      cases h
      rw [Bool.not_eq_false] at hv1
      refine ⟨hsucc, fun hn ⟨_, hrun⟩ => ?_⟩
      exact (hrun idx.toNat (Nat.le_refl _) (by omega)).2 (hused.mp hv1)
  · cases h

/-- What a turn that returns has called. -/
theorem allocateTurn_left {p p' : pmm} {n idx a : U64} {fuel : Nat}
    (h : p.allocateTurn fuel n idx = ok (.leave (a, p'))) :
    idx < p.m_numPages ∧ a = idx * 0x1000 ∧ p.test (idx * 0x1000) = ok false ∧
      ((n.toNat ≤ 1 ∧ p.set (idx * 0x1000) = ok p') ∨
        (1 < n.toNat ∧ loop (p.checkTurn idx n) fuel ((idx + 1).setWidth 32) = ok true ∧
          loop (markTurn idx n) fuel (idx.setWidth 32, p) = ok p')) := by
  unfold allocateTurn at h
  split at h
  swap
  · cases h
  rename_i hlt
  obtain ⟨v, hv, h⟩ := bind_eq_ok.mp h
  split at h
  swap
  · cases h
  rename_i hfree
  subst hfree
  split at h
  · rename_i hn
    obtain ⟨q, hq, h⟩ := bind_eq_ok.mp h
    cases h
    exact ⟨hlt, rfl, hv, Or.inl ⟨by simpa [BitVec.le_def] using hn, hq⟩⟩
  · rename_i hn
    obtain ⟨b, hb, h⟩ := bind_eq_ok.mp h
    split at h
    swap
    · cases h
    rename_i hbt
    subst hbt
    obtain ⟨q, hq, h⟩ := bind_eq_ok.mp h
    cases h
    exact ⟨hlt, rfl, hv, Or.inr ⟨by simpa [BitVec.le_def] using hn, hb, hq⟩⟩

/-- A turn that returns has found its frames. -/
theorem allocateTurn_leave {p p' : pmm} {n idx a : U64} {fuel : Nat} (hp : p.Ready)
    (hfirst : 0 < n.toNat → ∀ j < idx.toNat, ¬ p.LowRun j n.toNat)
    (h : p.allocateTurn fuel n idx = ok (.leave (a, p'))) :
    a.toNat = idx.toNat * 0x1000 ∧ Found p p' n.toNat idx.toNat := by
  obtain ⟨hlt, rfl, hv, hcases⟩ := allocateTurn_left h
  obtain ⟨haddr, hframe⟩ := address_of_frame hp hlt
  have hidx : idx.toNat < p.m_numPages.toNat := hlt
  have hN := hp.pages
  have hsucc := index_succ hp hlt
  obtain ⟨_, hused⟩ := test.spec hp hv
  rw [hframe] at hused
  have hidxFree : p.Free idx.toNat := ⟨hidx, fun hu => by simpa using hused.mpr hu⟩
  rcases hcases with ⟨hn1, hq⟩ | ⟨hn1, hb, hq⟩
  · obtain ⟨_, hset⟩ := set.spec hp hq
    rw [hframe] at hset
    exact ⟨haddr, hidxFree, fun _ => hset, fun h => absurd h (by omega),
      fun h => absurd h (by omega), ⟨_, hset⟩, fun h => absurd h (by omega), hfirst⟩
  · have hcheck := check_free hp hb
    have hmark := mark.spec hp hq
    rw [BitVec.toNat_setWidth, hsucc] at hcheck
    rw [BitVec.toNat_setWidth] at hmark
    refine ⟨haddr, hidxFree, fun h => absurd h (by omega), ?_, ?_,
      ⟨_, hmark.congr fun g => or_comm⟩, ?_, hfirst⟩
    · intro _ hend
      -- nothing wraps: the counters run over the frames of the run
      have hsum : (idx + n).toNat = idx.toNat + n.toNat := by
        simp only [BitVec.toNat_add]
        omega
      rw [hsum, Nat.mod_eq_of_lt (by omega)] at hcheck hmark
      have hrest := (hcheck.resolve_left (by omega)).2
      refine ⟨fun f h1 h2 => ?_, hmark.congr fun g => ?_⟩
      · rcases Nat.eq_or_lt_of_le h1 with rfl | h1
        · exact hidxFree
        · have := hrest f h1 h2
          rwa [Nat.mod_eq_of_lt (by omega)] at this
      · constructor
        · rintro (hu | ⟨c, h1, h2, h3⟩)
          · exact Or.inr hu
          · exact Or.inl (by omega)
        · rintro (⟨h1, h2⟩ | hu)
          · exact Or.inr ⟨g, h1, h2, by omega⟩
          · exact Or.inl hu
    · intro _ _ g hg
      rcases (hmark.used g).mp hg with hu | ⟨c, _, _, rfl⟩
      · exact Or.inl hu
      · exact Or.inr (Nat.mod_lt _ (by norm_num))
    · intro _ hn64 j hj hjn
      have hsum : (idx + n).toNat = idx.toNat + n.toNat := by
        rw [BitVec.toNat_add, Nat.mod_eq_of_lt hn64]
      rw [hsum] at hcheck
      rcases hcheck with hcheck | ⟨hend, hrest⟩
      · have := Nat.mod_le (idx.toNat + 1) (2 ^ 32)
        omega
      · rw [Nat.mod_eq_of_lt (by omega)] at hrest
        exact hrest _ (by omega) (by omega)

theorem allocate.spec {p p' : pmm} {n a : U64} {fuel : Nat} (hp : p.Ready)
    (h : p.allocate fuel n = ok (a, p')) :
    ∃ idx, a.toNat = idx * 0x1000 ∧ Found p p' n.toNat idx := by
  refine loop_inv (I := fun idx : U64 => 0 < n.toNat → ∀ j < idx.toNat, ¬ p.LowRun j n.toNat)
    (Q := fun r : U64 × pmm => ∃ idx, r.1.toNat = idx * 0x1000 ∧ Found p r.2 n.toNat idx)
    ?_ ?_ ?_ h
  · intro idx idx' hI hturn hn j hj
    obtain ⟨hsucc, hthis⟩ := allocateTurn_next hp hturn
    rcases Nat.lt_or_ge j idx.toNat with hlt | hge
    · exact hI hn j hlt
    · obtain rfl : j = idx.toNat := by omega
      exact hthis hn
  · rintro idx ⟨a, q⟩ hI hturn
    exact ⟨idx.toNat, allocateTurn_leave hp hI hturn⟩
  · intro _ j hj
    simp at hj

/-- A call for one page, or for none, finds the first free frame. -/
theorem allocate_one {p : pmm} (hp : p.Ready) {n : U64} (hn : n ≤ 1) {k fuel : Nat} (hk : p.Free k)
    (hused : ∀ f < k, p.Used f) (hfuel : k < fuel) :
    ∃ p', p.allocate fuel n = ok (BitVec.ofNat 64 k * 0x1000, p') ∧
      Marks p p' fun g => g = k ∨ p.Used g := by
  have hN := hp.pages
  have hin := hk.1
  have hframe : frameOf (BitVec.ofNat 64 k * 0x1000) = k := frameOf_turn (by omega)
  obtain ⟨p', hp'⟩ := set.total hp (a := BitVec.ofNat 64 k * 0x1000) (by rw [hframe]; exact hin)
  have hlast : p.allocateTurn fuel n (BitVec.ofNat 64 k) =
      ok (.leave (BitVec.ofNat 64 k * 0x1000, p')) := by
    have hlt : BitVec.ofNat 64 k < p.m_numPages := by
      rw [BitVec.lt_def, BitVec.toNat_ofNat, Nat.mod_eq_of_lt (by omega)]
      exact hin
    have htest : p.test (BitVec.ofNat 64 k * 0x1000) = ok false := by
      rw [test.total hp (by rw [hframe]; exact hin), hframe, decide_eq_false hk.2]
    simp only [allocateTurn, if_pos hlt, htest, bind_ok, if_true, if_pos hn, hp']
  have hskip := loop_skip (p.allocateTurn fuel n) (fun i => BitVec.ofNat 64 i) k (fuel - k)
    fun i hi => allocateTurn_used hp fuel n (by omega) (hused i hi)
  obtain ⟨m, hm⟩ : ∃ m, fuel - k = m + 1 := ⟨fuel - k - 1, by omega⟩
  rw [Nat.sub_add_cancel (by omega), hm, loop_leave hlast] at hskip
  have hmarks := (set.spec hp hp').2
  rw [hframe] at hmarks
  exact ⟨p', hskip, hmarks⟩

/-- What the caller of `allocate(n)` may rely on: the address of `n` frames of
the memory that were free, are used now, and are all that changed. -/
structure HandsOut (p p' : pmm) (a : U64) (n : Nat) : Prop where
  aligned : a.toNat % 0x1000 = 0
  fresh : ∀ f, frameOf a ≤ f → f < frameOf a + n → p.Free f ∧ p'.Used f
  frame : ∀ f, ¬ (frameOf a ≤ f ∧ f < frameOf a + n) → (p'.Used f ↔ p.Used f)

/-- The exact condition for a call that returns: one page, or a run of free
frames that ends at or below frame 2^20. -/
def Served (p : pmm) (n : Nat) : Prop := n = 1 ∨ ∃ i, p.LowRun i n

/-- A call that returns hands out its frames if and only if it is `Served`. -/
theorem handsOut_iff_served {p p' : pmm} {n a : U64} {fuel : Nat} (hp : p.Ready)
    (hn : 1 ≤ n.toNat) (h : p.allocate fuel n = ok (a, p')) :
    HandsOut p p' a n.toNat ↔ p.Served n.toNat := by
  obtain ⟨idx, ha, hf⟩ := allocate.spec hp h
  have hframe : frameOf a = idx := by unfold frameOf; omega
  rcases Nat.eq_or_lt_of_le hn with hn1 | hn1
  · have hm := hf.single (by omega)
    refine ⟨fun _ => Or.inl hn1.symm, fun _ => ⟨by omega, fun f h1 h2 => ?_, fun f hne => ?_⟩⟩
    · obtain rfl : f = idx := by omega
      exact ⟨hf.free, (hm.used f).mpr (Or.inl rfl)⟩
    · rw [hm.used]
      exact or_iff_right (by omega)
  rcases Nat.lt_or_ge (2 ^ 20) (idx + n.toNat) with hend | hend
  · constructor
    · intro hout
      -- the last frame of the run is past what the marking can name
      obtain ⟨hlast, hlast'⟩ := hout.fresh (idx + n.toNat - 1) (by omega) (by omega)
      rcases hf.high hn1 hend _ hlast' with hu | hlow
      · exact absurd hu hlast.2
      · omega
    · rintro (h1 | ⟨i, hi⟩)
      · omega
      · rcases Nat.lt_or_ge i idx with hlt | hge
        · exact absurd hi (hf.first (by omega) i hlt)
        · have := hi.1
          omega
  · obtain ⟨hrun, hm⟩ := hf.low hn1 hend
    refine ⟨fun _ => Or.inr ⟨idx, hend, hrun⟩, fun _ => ⟨by omega, fun f h1 h2 => ?_, fun f hne => ?_⟩⟩
    · rw [hframe] at h1 h2
      exact ⟨hrun f h1 h2, (hm.used f).mpr (Or.inl ⟨h1, h2⟩)⟩
    · rw [hframe] at hne
      rw [hm.used]
      exact or_iff_right hne

/-! ## Runs of `allocate` and `free` -/

/-- The PMM, and the frames that each live allocation still holds. -/
structure World where
  frames : pmm
  live : List (List Nat)

inductive Event where
  | allocate (n : U64)
  | free (physAddress : U64)

/-- A call that returns. A call of `free` names a frame of a live allocation. -/
inductive Step : World → Event → World → Prop
  | allocate {w : World} {p : lobo.pmm} {n a : U64} {fuel : Nat} : 1 ≤ n.toNat →
      w.frames.allocate fuel n = ok (a, p) →
      Step w (.allocate n) ⟨p, List.range' (frameOf a) n.toNat :: w.live⟩
  | free {w : World} {p : lobo.pmm} {a : U64} {l : List Nat} : l ∈ w.live → frameOf a ∈ l →
      w.frames.free a = ok p →
      Step w (.free a) ⟨p, w.live.map fun l => l.filter (· ≠ frameOf a)⟩

/-- The guard of a step: `allocate` is only called where it is `Served`. -/
def servedOnly (w : World) : Event → Prop
  | .allocate n => w.frames.Served n.toNat
  | .free _ => True

/-- Each live allocation holds used frames, and shares none with another. -/
structure Owned (w : World) : Prop where
  ready : w.frames.Ready
  used : ∀ l ∈ w.live, ∀ f ∈ l, w.frames.Used f
  apart : w.live.Pairwise List.Disjoint

theorem owned_allocate {w : World} {p : lobo.pmm} {n a : U64} {fuel : Nat} (hw : Owned w)
    (hn : 1 ≤ n.toNat) (h : w.frames.allocate fuel n = ok (a, p)) (hs : w.frames.Served n.toNat) :
    Owned ⟨p, List.range' (frameOf a) n.toNat :: w.live⟩ := by
  obtain ⟨hready, hused, hapart⟩ := hw
  have hout := (handsOut_iff_served hready hn h).mpr hs
  obtain ⟨idx, _, hf⟩ := allocate.spec hready h
  obtain ⟨U, hU⟩ := hf.marks
  have hmem : ∀ f, f ∈ List.range' (frameOf a) n.toNat ↔
      frameOf a ≤ f ∧ f < frameOf a + n.toNat := by
    intro f
    rw [List.mem_range'_1]
  refine ⟨hU.ready hready, ?_, ?_⟩
  · intro l hl f hfl
    rcases List.mem_cons.mp hl with rfl | hl
    · obtain ⟨h1, h2⟩ := (hmem f).mp hfl
      exact (hout.fresh f h1 h2).2
    · by_cases hin : frameOf a ≤ f ∧ f < frameOf a + n.toNat
      · exact (hout.fresh f hin.1 hin.2).2
      · exact (hout.frame f hin).mpr (hused l hl f hfl)
  · refine List.pairwise_cons.mpr ⟨fun l hl f hf1 hf2 => ?_, hapart⟩
    obtain ⟨h1, h2⟩ := (hmem f).mp hf1
    exact (hout.fresh f h1 h2).1.2 (hused l hl f hf2)

theorem owned_free {w : World} {p : lobo.pmm} {a : U64} (hw : Owned w)
    (h : w.frames.free a = ok p) :
    Owned ⟨p, w.live.map fun l => l.filter (· ≠ frameOf a)⟩ := by
  obtain ⟨hready, hused, hapart⟩ := hw
  obtain ⟨_, hm⟩ := free.spec hready h
  refine ⟨hm.ready hready, ?_, ?_⟩
  · intro l' hl' f hf
    obtain ⟨l, hl, rfl⟩ := List.mem_map.mp hl'
    obtain ⟨hfl, hne⟩ := List.mem_filter.mp hf
    exact (hm.used f).mpr ⟨by simpa using hne, hused l hl f hfl⟩
  · refine List.pairwise_map.mpr (hapart.imp fun hd f h1 h2 => ?_)
    exact hd (List.mem_filter.mp h1).1 (List.mem_filter.mp h2).1

theorem owned_step {w w' : World} {e : Event} (hw : Owned w)
    (h : Guarded servedOnly Step w e w') : Owned w' := by
  obtain ⟨hguard, hstep⟩ := h
  cases hstep with
  | allocate hn hcall => exact owned_allocate hw hn hcall hguard
  | free hl ha hcall => exact owned_free hw hcall

/-! ## The laws -/

/-- In a run whose calls of `allocate` are all `Served`, no frame belongs to
two live allocations, and the next call that returns hands out its frames if
and only if it is `Served`. -/
theorem a_served_run_shares_no_frame {p : lobo.pmm} (hp : p.Ready) {es : List Event} {w : World}
    (run : Run (Guarded servedOnly Step) ⟨p, []⟩ es w) :
    w.live.Pairwise List.Disjoint ∧
      ∀ (fuel : Nat) (n a : U64) (p' : lobo.pmm), 1 ≤ n.toNat →
        w.frames.allocate fuel n = ok (a, p') →
        (HandsOut w.frames p' a n.toNat ↔ w.frames.Served n.toNat) := by
  have hw : Owned w := run.inv Owned (fun _ _ _ => owned_step) ⟨hp, by simp, by simp⟩
  exact ⟨hw.apart, fun _ _ _ _ hn h => handsOut_iff_served hw.ready hn h⟩

/-- Eight free frames. -/
def eightFrames : lobo.pmm :=
  { bitmap := ⟨⟨KERNEL_VMB, 2, fun _ => 0⟩, 8⟩, m_initialised := true, m_numPages := 8,
    m_maxFreePages := 0, m_nonMemoryBackedPages := 0 }

theorem eightFrames_ready : eightFrames.Ready :=
  ⟨rfl, by simp [bitset.Fits, eightFrames], by decide⟩

theorem eightFrames_free (f : Nat) (h : f < 8) : eightFrames.Free f :=
  ⟨h, by simp [Used, eightFrames, bitset.has]⟩

/-- Two frames, three frames, then the second of the first two back and one
more frame. -/
def fourCalls : List Event := [.allocate 2, .allocate 3, .free 0x1000, .allocate 1]

theorem fourCalls_return : ∃ p₁ p₂ p₃ p₄,
    eightFrames.allocate 4 2 = ok (0, p₁) ∧ p₁.allocate 6 3 = ok (0x2000, p₂) ∧
    p₂.free 0x1000 = ok p₃ ∧ p₃.allocate 4 1 = ok (0x1000, p₄) ∧
    p₁.m_numPages = 8 ∧ ¬ p₁.Used 2 ∧ ¬ p₁.Used 3 ∧ ¬ p₁.Used 4 :=
  ⟨_, _, _, _, rfl, rfl, rfl, rfl, rfl, by decide, by decide, by decide⟩

theorem a_served_run_shares_no_frame_of_four : ∃ p : lobo.pmm,
    let w : World := ⟨p, [[1], [2, 3, 4], [0]]⟩
    Run (Guarded servedOnly Step) ⟨eightFrames, []⟩ fourCalls w ∧
    w.live.Pairwise List.Disjoint ∧
      ∀ (fuel : Nat) (n a : U64) (p' : lobo.pmm), 1 ≤ n.toNat →
        w.frames.allocate fuel n = ok (a, p') →
        (HandsOut w.frames p' a n.toNat ↔ w.frames.Served n.toNat) := by
  obtain ⟨p₁, p₂, p₃, p₄, h₁, h₂, h₃, h₄, hpages, hfree2, hfree3, hfree4⟩ := fourCalls_return
  have hserved₁ : servedOnly ⟨eightFrames, []⟩ (.allocate 2) := by
    refine Or.inr ⟨0, by decide, fun f _ h => ?_⟩
    exact eightFrames_free f (Nat.lt_of_lt_of_le h (by decide))
  have hserved₂ : servedOnly ⟨p₁, [[0, 1]]⟩ (.allocate 3) := by
    refine Or.inr ⟨2, by decide, fun f hle h => ⟨?_, ?_⟩⟩
    · rw [hpages]
      exact Nat.lt_of_lt_of_le h (by decide)
    · have hf : f = 2 ∨ f = 3 ∨ f = 4 := by
        change f < 5 at h
        omega
      rcases hf with rfl | rfl | rfl
      · exact hfree2
      · exact hfree3
      · exact hfree4
  have hone₁ : 1 ≤ (2 : U64).toNat := by decide
  have run₁ : Run (Guarded servedOnly Step) ⟨eightFrames, []⟩ [.allocate 2] ⟨p₁, [[0, 1]]⟩ :=
    .single ⟨hserved₁, .allocate (a := 0) hone₁ h₁⟩
  have hone₂ : 1 ≤ (3 : U64).toNat := by decide
  have run₂ : Run (Guarded servedOnly Step) ⟨eightFrames, []⟩ [.allocate 2, .allocate 3]
      ⟨p₂, [[2, 3, 4], [0, 1]]⟩ :=
    run₁.snoc ⟨hserved₂, .allocate (a := 0x2000) hone₂ h₂⟩
  have hlive : [0, 1] ∈ [[2, 3, 4], [0, 1]] := by decide
  have hframe : frameOf 0x1000 ∈ [0, 1] := by decide
  have run₃ : Run (Guarded servedOnly Step) ⟨eightFrames, []⟩
      [.allocate 2, .allocate 3, .free 0x1000] ⟨p₃, [[2, 3, 4], [0]]⟩ :=
    run₂.snoc ⟨trivial, .free hlive hframe h₃⟩
  have hone₄ : 1 ≤ (1 : U64).toNat := by decide
  have run : Run (Guarded servedOnly Step) ⟨eightFrames, []⟩ fourCalls
      ⟨p₄, [[1], [2, 3, 4], [0]]⟩ :=
    run₃.snoc ⟨Or.inl rfl, .allocate (a := 0x1000) hone₄ h₄⟩
  exact ⟨p₄, run, a_served_run_shares_no_frame eightFrames_ready run⟩

/-! ## Past four gigabytes -/

/-- A memory of 2^20 + 2 frames. Frame 1 and the last two are free. -/
def pastFourGiB : lobo.pmm :=
  { bitmap := ⟨⟨KERNEL_VMB, 0x20001, fun i =>
      if i = 0 then 0xFD else if i = 0x20000 then 0xFC else 0xFF⟩, 0x100002⟩,
    m_initialised := true, m_numPages := 0x100002, m_maxFreePages := 0,
    m_nonMemoryBackedPages := 0 }

theorem pastFourGiB_ready : pastFourGiB.Ready :=
  ⟨rfl, by simp [bitset.Fits, pastFourGiB], by decide⟩

theorem pastFourGiB_used {f : Nat} (h : f < 2 ^ 20) (h1 : f ≠ 1) : pastFourGiB.Used f := by
  simp only [Used, bitset.has, pastFourGiB]
  by_cases h0 : f / 8 = 0
  · have h8 : f < 8 := by omega
    interval_cases f <;> first | rfl | exact absurd rfl h1
  · rw [if_neg h0, if_neg (by omega)]
    have : f % 8 < 8 := Nat.mod_lt _ (by norm_num)
    generalize f % 8 = k at this
    interval_cases k <;> rfl

theorem pastFourGiB_skips {i : Nat} (hi : i < 2 ^ 20) :
    pastFourGiB.allocateTurn (2 ^ 20 + 1) 2 (BitVec.ofNat 64 i) =
      ok (.next (BitVec.ofNat 64 (i + 1))) := by
  by_cases h1 : i = 1
  · subst h1
    rfl
  · exact allocateTurn_used pastFourGiB_ready _ _ (Nat.lt_trans hi (by decide))
      (pastFourGiB_used hi h1)

/-- A call for two pages that returns the address of frame 2^20, but tests
frame 1 and marks frames 0 and 1. -/
theorem a_run_past_four_gigabytes_is_not_handed_out : ∃ a p',
    pastFourGiB.allocate (2 ^ 20 + 1) 2 = ok (a, p') ∧ ¬ HandsOut pastFourGiB p' a 2 := by
  obtain ⟨a, p', hlast⟩ : ∃ a p', pastFourGiB.allocateTurn (2 ^ 20 + 1) 2 (BitVec.ofNat 64 (2 ^ 20)) =
      ok (.leave (a, p')) := ⟨_, _, rfl⟩
  have hcall : pastFourGiB.allocate (2 ^ 20 + 1) 2 = ok (a, p') := by
    have hskip := loop_skip (pastFourGiB.allocateTurn (2 ^ 20 + 1) 2) (fun i => BitVec.ofNat 64 i)
      (2 ^ 20) 1 fun i hi => pastFourGiB_skips hi
    rw [loop_leave hlast, Nat.add_comm] at hskip
    exact hskip
  refine ⟨a, p', hcall, fun hout => ?_⟩
  rcases (handsOut_iff_served pastFourGiB_ready (by decide) hcall).mp hout with h | ⟨i, hend, hrun⟩
  · exact absurd h (by decide)
  · -- of two frames in a row below frame 2^20, one is not frame 1
    rcases Nat.decEq i 1 with hi | rfl
    · exact (hrun i (Nat.le_refl _) (by simp)).2 (pastFourGiB_used (by simp at hend; omega) hi)
    · exact (hrun 2 (by norm_num) (by simp)).2 (pastFourGiB_used (by norm_num) (by norm_num))

end lobo.pmm
