-- The figures of `debug_print_free_memory`. `set_free_memory` counts the free
-- and the used frames once, after the import of the memory map, and the figures
-- compare a new count with those two. They are exact as long as no call asks
-- for more frames than there are: such a call can come back with no frame marked.
import CanidaeOS.MemoryMap
import CanidaeOS.PmmRuns

open Program Machine Outcome Runs

namespace lobo.pmm

/-! ## The code -/

/-- What is printed, in pages. -/
structure Figures where
  numFreePages : U64
  pagesUsed : U64
  pageLimit : U64

/-- One turn of the count. -/
def printTurn (p : pmm) (i : Nat) (numFreePages : U64) : Outcome Stop U64 := do
  let used ← p.test (BitVec.ofNat 64 i * 0x1000)
  if used = false then ok (numFreePages + 1) else ok numFreePages

def debug_print_free_memory (p : pmm) : Outcome Stop Figures := do
  let numFreePages ← forRange p.m_numPages.toNat p.printTurn 0
  let pagesUsed := p.m_numPages - numFreePages - p.m_nonMemoryBackedPages
  ok ⟨numFreePages, pagesUsed, p.m_maxFreePages⟩

/-! ## The counts -/

/-- How many of the first `n` frames are free. -/
def freeBelow (p : pmm) (n : Nat) : Nat := Nat.count (fun f => ¬ p.Used f) n

theorem freeBelow_succ (p : pmm) (n : Nat) :
    p.freeBelow (n + 1) = p.freeBelow n + if p.Used n then 0 else 1 := by
  rw [freeBelow, Nat.count_succ, ite_not]
  rfl

theorem freeBelow_le (p : pmm) (n : Nat) : p.freeBelow n ≤ n := Nat.count_le _

theorem freeBelow_congr {p p' : pmm} (h : p'.bitmap = p.bitmap) (n : Nat) :
    p'.freeBelow n = p.freeBelow n := by
  have hused : ∀ f, p'.Used f ↔ p.Used f := by
    intro f
    rw [Used, Used, h]
  simp only [freeBelow, hused]

/-- Free frames that become used are missing in the count. -/
theorem freeBelow_add {p p' : pmm} {n : Nat} {l : List Nat} (hnodup : l.Nodup)
    (hfresh : ∀ f ∈ l, f < n ∧ ¬ p.Used f) (hused : ∀ f, p'.Used f ↔ p.Used f ∨ f ∈ l) :
    p'.freeBelow n + l.length = p.freeBelow n := by
  have hsplit : (Finset.range n).filter (fun f => ¬ p.Used f) =
      (Finset.range n).filter (fun f => ¬ p'.Used f) ∪ l.toFinset := by
    ext f
    simp only [Finset.mem_union, Finset.mem_filter, Finset.mem_range, List.mem_toFinset, hused]
    have := hfresh f
    tauto
  have hapart : Disjoint ((Finset.range n).filter (fun f => ¬ p'.Used f)) l.toFinset := by
    rw [Finset.disjoint_left]
    intro f hf hl
    apply (Finset.mem_filter.mp hf).2
    exact (hused f).mpr (Or.inr (List.mem_toFinset.mp hl))
  rw [freeBelow, freeBelow, Nat.count_eq_card_filter_range, Nat.count_eq_card_filter_range, hsplit,
    Finset.card_union_of_disjoint hapart, List.toFinset_card_of_nodup hnodup]

theorem test_turn {p : pmm} (hp : p.Ready) {i : Nat} (hi : i < p.m_numPages.toNat) :
    p.test (BitVec.ofNat 64 i * 0x1000) = ok (decide (p.Used i)) := by
  have hN := hp.pages
  have hframe := frameOf_turn (show i < 2 ^ 52 by omega)
  rw [test.total hp (by rw [hframe]; exact hi), hframe]

theorem succ_toNat {c : U64} {k : Nat} (hc : c.toNat = k) (hk : k < 2 ^ 52) :
    (c + 1).toNat = k + 1 := by
  rw [BitVec.toNat_add, hc]
  simp only [BitVec.reduceToNat]
  omega

theorem debug_print_free_memory.spec {p : pmm} (hp : p.Ready) : ∃ c : U64,
    c.toNat = p.freeBelow p.m_numPages.toNat ∧ p.debug_print_free_memory =
      ok ⟨c, p.m_numPages - c - p.m_nonMemoryBackedPages, p.m_maxFreePages⟩ := by
  have hN := hp.pages
  have hturns : ∀ i (c : U64), i < p.m_numPages.toNat → c.toNat = p.freeBelow i →
      ∃ c', p.printTurn i c = ok c' ∧ c'.toNat = p.freeBelow (i + 1) := by
    intro i c hi hc
    have hle := p.freeBelow_le i
    rw [printTurn, test_turn hp hi, bind_ok, p.freeBelow_succ]
    by_cases hu : p.Used i
    · exact ⟨c, by simp [hu], by simp [hu, hc]⟩
    · refine ⟨c + 1, by simp [hu], ?_⟩
      rw [if_neg hu]
      exact succ_toNat hc (by omega)
  obtain ⟨c, hrun, hc⟩ := forRange_ok (fun i (c : U64) => c.toNat = p.freeBelow i) hturns
    (s := (0 : U64)) rfl
  exact ⟨c, hc, by simp only [debug_print_free_memory, hrun, bind_ok]⟩

/-- `set_free_memory` counts the free and the used frames. -/
theorem set_free_memory.counts {p p' : pmm} (hp : p.Ready) (hzero : p.m_nonMemoryBackedPages = 0)
    (h : p.set_free_memory = ok p') :
    p'.m_maxFreePages.toNat = p.freeBelow p.m_numPages.toNat ∧
      p'.m_nonMemoryBackedPages.toNat = p.m_numPages.toNat - p.freeBelow p.m_numPages.toNat := by
  have hN := hp.pages
  obtain ⟨s, hs, he⟩ := bind_eq_ok.mp h
  cases he
  have hinv := forRange_inv (fun i (t : U64 × pmm) => t.2.bitmap = p.bitmap ∧
    t.2.m_numPages = p.m_numPages ∧ i ≤ p.m_numPages.toNat ∧ t.1.toNat = p.freeBelow i ∧
    t.2.m_nonMemoryBackedPages.toNat = i - p.freeBelow i) ?_
    ⟨rfl, rfl, Nat.zero_le _, rfl, by rw [hzero]; rfl⟩ hs
  · exact ⟨hinv.2.2.2.1, hinv.2.2.2.2⟩
  · rintro i ⟨c, q⟩ t' hi ⟨hbitmap, hpages, -, hc, hback⟩ hturn
    have hle := p.freeBelow_le i
    have hq : q.Ready := by
      refine ⟨?_, ?_, ?_⟩
      · rw [hbitmap, hpages]
        exact hp.length
      · rw [hbitmap]
        exact hp.fits
      · rw [hpages]
        exact hp.pages
    have htest := test_turn hq (i := i) (by rw [hpages]; exact hi)
    have hsame : q.Used i ↔ p.Used i := by rw [Used, Used, hbitmap]
    rw [countTurn, htest, bind_ok] at hturn
    rw [p.freeBelow_succ]
    by_cases hu : p.Used i
    · rw [if_neg (by simp [hsame, hu])] at hturn
      cases hturn
      refine ⟨hbitmap, hpages, hi, by rw [if_pos hu]; exact hc, ?_⟩
      dsimp only at hback ⊢
      rw [succ_toNat hback (by omega), if_pos hu]
      omega
    · rw [if_pos (by simp [hsame, hu])] at hturn
      cases hturn
      refine ⟨hbitmap, hpages, hi, ?_, ?_⟩
      · rw [if_neg hu]
        exact succ_toNat hc (by omega)
      · dsimp only at hback ⊢
        rw [hback, if_neg hu]
        omega

/-! ## The counts after the import -/

/-- A loop of `set`s keeps the counters. -/
theorem set_all_keeps {p p' : pmm} {n : Nat}
    (h : forRange n (fun i p => p.set (BitVec.ofNat 64 i * 0x1000)) p = ok p') :
    p' = { p with bitmap := p'.bitmap } := by
  refine forRange_inv (fun _ q => q = { p with bitmap := q.bitmap }) ?_ rfl h
  intro i q q' _ hq hset
  obtain ⟨b, -, he⟩ := bind_eq_ok.mp hset
  cases he
  rw [hq]

theorem init_keeps_nonBacked {num : U64} {fresh : Nat → U8} {g g' : Globals}
    (h : pmm.init num fresh g = ok g') :
    g'.kernel_pmm.m_nonMemoryBackedPages = g.kernel_pmm.m_nonMemoryBackedPages := by
  unfold pmm.init at h
  split at h
  · cases h
    rfl
  · obtain ⟨⟨ptr, g₂⟩, hk, h⟩ := bind_eq_ok.mp h
    obtain ⟨p, hp, h⟩ := bind_eq_ok.mp h
    cases h
    have hrest := (kmalloc_aligned.spec hk).rest
    rw [set_all_keeps hp]
    show g₂.kernel_pmm.m_nonMemoryBackedPages = _
    rw [hrest]

/-- The counters after the import: all frames are free or counted as not backed. -/
structure Counted (p : pmm) : Prop where
  ready : p.Ready
  free : p.m_maxFreePages.toNat = p.freeBelow p.m_numPages.toNat
  rest : p.m_nonMemoryBackedPages.toNat = p.m_numPages.toNat - p.freeBelow p.m_numPages.toNat

theorem import_counted {fuel : Nat} {map : List awd_physmemmap_t} {fresh : Nat → U8}
    {g g' : Globals} (hstatic : g.kernel_pmm = pmm.static)
    (h : init_memory fuel map fresh g = ok g') : g'.kernel_pmm.Counted := by
  have hinit : g.kernel_pmm.m_initialised = false := by rw [hstatic]; rfl
  have hready' := (init_memory.spec hinit h).ready
  obtain ⟨gi, hgi, h⟩ := bind_eq_ok.mp h
  obtain ⟨p, hp, h⟩ := bind_eq_ok.mp h
  obtain ⟨p', hp', h⟩ := bind_eq_ok.mp h
  obtain ⟨p'', hp'', h⟩ := bind_eq_ok.mp h
  cases h
  obtain ⟨hready, -⟩ := pmm.init.spec hinit (numPages_lt map) hgi
  obtain ⟨-, hm⟩ := free_entries.spec hready hp
  obtain ⟨-, hm'⟩ := pmm.set_all (hm.ready hready) (by norm_num) hp'
  have hzero : p'.m_nonMemoryBackedPages = 0 := by
    rw [hm'.rest]
    show p.m_nonMemoryBackedPages = 0
    rw [hm.rest]
    show gi.kernel_pmm.m_nonMemoryBackedPages = 0
    rw [init_keeps_nonBacked hgi, hstatic]
    rfl
  obtain ⟨hfree, hrest⟩ := set_free_memory.counts (hm'.ready (hm.ready hready)) hzero hp''
  obtain ⟨hbitmap, hpages⟩ := set_free_memory.spec hp''
  have hcount := freeBelow_congr hbitmap
  refine ⟨hready', ?_, ?_⟩
  · rw [hcount, hpages]
    exact hfree
  · rw [hcount, hpages]
    exact hrest

/-! ## Runs -/

/-- The frames that are allocated. -/
def World.allocated (w : World) : List Nat := w.live.flatten

/-- The guard of a step: no call asks for more frames than there are. -/
def fittingOnly (w : World) : Event → Prop
  | .allocate n => n.toNat ≤ w.frames.m_numPages.toNat
  | .free _ => True

/-- Below 2^20 frames, a call that fits and returns is `Served`. -/
theorem served_of_fitting {p p' : pmm} {n a : U64} {fuel : Nat} (hp : p.Ready)
    (hsmall : p.m_numPages.toNat < 2 ^ 20) (hn : 1 ≤ n.toNat)
    (hfits : n.toNat ≤ p.m_numPages.toNat) (h : p.allocate fuel n = ok (a, p')) :
    p.Served n.toNat := by
  obtain ⟨idx, -, hf⟩ := allocate.spec hp h
  rcases Nat.eq_or_lt_of_le hn with hn1 | hn1
  · exact Or.inl hn1.symm
  · have hidx := hf.free.1
    refine Or.inr ⟨idx, ?_⟩
    have hend : idx + n.toNat ≤ 2 ^ 20 := by
      by_contra hpast
      -- the look-ahead would have tested frame 2^20 - 1, which is no frame
      have hlast := hf.ahead hn1 (by omega) (2 ^ 20 - 1 - idx) (by omega) (by omega)
      have hmod : (idx + (2 ^ 20 - 1 - idx)) % 2 ^ 20 = 2 ^ 20 - 1 := by omega
      have := hlast.1
      omega
    exact ⟨hend, (hf.low hn1 hend).1⟩

/-- The frames are those of `p`, but for the allocated ones. -/
structure Accounted (p : pmm) (w : World) : Prop where
  ready : w.frames.Ready
  rest : w.frames = { p with bitmap := w.frames.bitmap }
  nodup : w.allocated.Nodup
  fresh : ∀ f ∈ w.allocated, p.Free f
  used : ∀ f, w.frames.Used f ↔ p.Used f ∨ f ∈ w.allocated

theorem accounted_allocate {p : pmm} {w : World} {q : lobo.pmm} {n a : U64} {fuel : Nat}
    (hw : Accounted p w) (hn : 1 ≤ n.toNat) (h : w.frames.allocate fuel n = ok (a, q))
    (hserved : w.frames.Served n.toNat) :
    Accounted p ⟨q, List.range' (frameOf a) n.toNat :: w.live⟩ := by
  obtain ⟨hready, hrest, hnodup, hfresh, hused⟩ := hw
  have hout := (handsOut_iff_served hready hn h).mpr hserved
  obtain ⟨idx, -, hf⟩ := allocate.spec hready h
  obtain ⟨U, hU⟩ := hf.marks
  have hmem : ∀ f, f ∈ List.range' (frameOf a) n.toNat ↔
      frameOf a ≤ f ∧ f < frameOf a + n.toNat := by
    intro f
    rw [List.mem_range'_1]
  have hpages : w.frames.m_numPages = p.m_numPages := by rw [hrest]
  refine ⟨hU.ready hready, ?_, ?_, ?_, ?_⟩
  · have hq := hU.rest
    rw [hrest] at hq
    exact hq
  · refine List.nodup_append.mpr ⟨List.nodup_range', hnodup, ?_⟩
    rintro f hf1 _ hf2 rfl
    obtain ⟨h1, h2⟩ := (hmem f).mp hf1
    exact (hout.fresh f h1 h2).1.2 ((hused f).mpr (Or.inr hf2))
  · intro f hf
    rcases List.mem_append.mp hf with hf | hf
    · obtain ⟨h1, h2⟩ := (hmem f).mp hf
      obtain ⟨hlt, hnot⟩ := (hout.fresh f h1 h2).1
      rw [hpages] at hlt
      exact ⟨hlt, fun hu => hnot ((hused f).mpr (Or.inl hu))⟩
    · exact hfresh f hf
  · intro f
    show q.Used f ↔ p.Used f ∨ f ∈ List.range' (frameOf a) n.toNat ++ w.allocated
    rw [List.mem_append, hmem]
    by_cases hin : frameOf a ≤ f ∧ f < frameOf a + n.toNat
    · simp only [hin, and_self, true_or, or_true, iff_true]
      exact (hout.fresh f hin.1 hin.2).2
    · rw [hout.frame f hin, hused]
      tauto

theorem accounted_free {p : pmm} {w : World} {q : lobo.pmm} {a : U64} {l : List Nat}
    (hw : Accounted p w) (hl : l ∈ w.live) (ha : frameOf a ∈ l) (h : w.frames.free a = ok q) :
    Accounted p ⟨q, w.live.map fun l => l.filter (· ≠ frameOf a)⟩ := by
  obtain ⟨hready, hrest, hnodup, hfresh, hused⟩ := hw
  obtain ⟨-, hm⟩ := free.spec hready h
  have hheld : frameOf a ∈ w.allocated := List.mem_flatten.mpr ⟨l, hl, ha⟩
  have hallocated : (w.live.map fun l => l.filter (· ≠ frameOf a)).flatten =
      w.allocated.filter (· ≠ frameOf a) := List.filter_flatten.symm
  refine ⟨hm.ready hready, ?_, ?_, ?_, ?_⟩
  · have hq := hm.rest
    rw [hrest] at hq
    exact hq
  · rw [World.allocated, hallocated]
    exact hnodup.filter _
  · intro f hf
    rw [World.allocated, hallocated] at hf
    exact hfresh f (List.mem_filter.mp hf).1
  · intro f
    rw [World.allocated, hallocated, hm.used, hused, List.mem_filter, decide_eq_true_iff]
    have hnot := (hfresh (frameOf a) hheld).2
    constructor
    · rintro ⟨hne, hu | hmem⟩
      · exact Or.inl hu
      · exact Or.inr ⟨hmem, hne⟩
    · rintro (hu | ⟨hmem, hne⟩)
      · refine ⟨?_, Or.inl hu⟩
        rintro rfl
        exact hnot hu
      · exact ⟨hne, Or.inr hmem⟩

theorem accounted_step {p : pmm} (hsmall : p.m_numPages.toNat < 2 ^ 20) {w w' : World} {e : Event}
    (hw : Accounted p w) (h : Guarded fittingOnly Step w e w') : Accounted p w' := by
  obtain ⟨hguard, hstep⟩ := h
  cases hstep with
  | allocate hn hcall =>
    have hpages : w.frames.m_numPages = p.m_numPages := by rw [hw.rest]
    have hserved := served_of_fitting hw.ready (by rw [hpages]; exact hsmall) hn hguard hcall
    exact accounted_allocate hw hn hcall hserved
  | free hl ha hcall => exact accounted_free hw hl ha hcall

theorem accounted_first {p : pmm} (hp : p.Ready) : Accounted p ⟨p, []⟩ := by
  refine ⟨hp, rfl, List.nodup_nil, ?_, ?_⟩
  · intro f hf
    cases hf
  · intro f
    simp [World.allocated]

/-! ## The law -/

/-- The figures that are printed: the pages used are the allocated frames, each
counted once, and with the free pages they are the limit. -/
structure Exact (w : World) (fig : Figures) : Prop where
  nodup : w.allocated.Nodup
  no_underflow : fig.numFreePages.toNat + w.frames.m_nonMemoryBackedPages.toNat ≤
    w.frames.m_numPages.toNat
  pagesUsed : fig.pagesUsed.toNat = w.allocated.length
  pageLimit : fig.numFreePages.toNat + fig.pagesUsed.toNat = fig.pageLimit.toNat

theorem accounted_exact {p : pmm} (hp : p.Counted) {w : World} (hw : Accounted p w) :
    w.frames.debug_print_free_memory.Yields (Exact w) := by
  obtain ⟨hready, hfree, hrest⟩ := hp
  obtain ⟨c, hc, hrun⟩ := debug_print_free_memory.spec hw.ready
  have hpages : w.frames.m_numPages = p.m_numPages := by rw [hw.rest]
  have hback : w.frames.m_nonMemoryBackedPages = p.m_nonMemoryBackedPages := by rw [hw.rest]
  have hlimit : w.frames.m_maxFreePages = p.m_maxFreePages := by rw [hw.rest]
  have hcount := freeBelow_add hw.nodup hw.fresh hw.used
  have hle := p.freeBelow_le p.m_numPages.toNat
  rw [hpages] at hc
  have hused : (w.frames.m_numPages - c - w.frames.m_nonMemoryBackedPages).toNat =
      w.allocated.length := by
    rw [hpages, hback, BitVec.toNat_sub, BitVec.toNat_sub, hc, hrest]
    have := p.m_numPages.isLt
    omega
  refine ⟨_, hrun, hw.nodup, ?_, hused, ?_⟩
  · dsimp only
    rw [hpages, hback, hc, hrest]
    omega
  · dsimp only
    rw [hused, hlimit, hc, hfree]
    omega

/-- After the import of a map with fewer than 2^20 frames, in a run with no call
for more frames than there are, the figures are exact in every state. -/
theorem the_figures_are_exact {fuel : Nat} {map : List awd_physmemmap_t} {fresh : Nat → U8}
    {g g' : Globals} (hstatic : g.kernel_pmm = pmm.static)
    (hsmall : (mem_end_address map / 0x1000).toNat < 2 ^ 20)
    (h : init_memory fuel map fresh g = ok g') {es : List Event} {w : World}
    (run : Run (Guarded fittingOnly Step) ⟨g'.kernel_pmm, []⟩ es w) :
    w.frames.debug_print_free_memory.Yields (Exact w) := by
  have hcounted := import_counted hstatic h
  have hpages := (init_memory.spec (by rw [hstatic]; rfl) h).pages
  rw [← hpages] at hsmall
  have hw := run.inv (Accounted g'.kernel_pmm) (fun _ _ _ => accounted_step hsmall)
    (accounted_first hcounted.ready)
  exact accounted_exact hcounted hw

/-! ## Calls for more frames than there are -/

/-- A call whose end wraps tests and marks nothing. -/
theorem allocate_wrapped {p : pmm} (hp : p.Ready) {n : U64} {k fuel : Nat} (hk : p.Free k)
    (hused : ∀ f < k, p.Used f) (hfuel : k < fuel) (hlow : k + 1 < 2 ^ 32) (hn : 1 < n.toNat)
    (hwrap : 2 ^ 64 ≤ k + n.toNat) :
    p.allocate fuel n = ok (BitVec.ofNat 64 k * 0x1000, p) := by
  have hin := hk.1
  have hpages := hp.pages
  have hframe : frameOf (BitVec.ofNat 64 k * 0x1000) = k := frameOf_turn (by omega)
  have hidx : (BitVec.ofNat 64 k).toNat = k := by
    rw [BitVec.toNat_ofNat, Nat.mod_eq_of_lt (by omega)]
  have hend : (BitVec.ofNat 64 k + n).toNat < k := by
    have := n.isLt
    rw [BitVec.toNat_add, hidx]
    omega
  have hstart : ((BitVec.ofNat 64 k).setWidth 32 : U32).toNat = k := by
    rw [BitVec.toNat_setWidth, hidx, Nat.mod_eq_of_lt (by omega)]
  have hnext : ((BitVec.ofNat 64 k + 1).setWidth 32 : U32).toNat = k + 1 := by
    rw [BitVec.toNat_setWidth, BitVec.toNat_add, hidx]
    simp only [BitVec.reduceToNat]
    omega
  obtain ⟨m, rfl⟩ : ∃ m, fuel = m + 1 := ⟨fuel - 1, by omega⟩
  have hcheck : loop (p.checkTurn (BitVec.ofNat 64 k) n) (m + 1) ((BitVec.ofNat 64 k + 1).setWidth 32) =
      ok true := by
    apply loop_leave
    rw [checkTurn, if_neg]
    rw [counter_lt, hnext]
    omega
  have hmark : loop (markTurn (BitVec.ofNat 64 k) n) (m + 1) ((BitVec.ofNat 64 k).setWidth 32, p) =
      ok p := by
    apply loop_leave
    rw [markTurn, if_neg]
    rw [counter_lt, hstart]
    omega
  have hlast : p.allocateTurn (m + 1) n (BitVec.ofNat 64 k) =
      ok (.leave (BitVec.ofNat 64 k * 0x1000, p)) := by
    have hlt : BitVec.ofNat 64 k < p.m_numPages := by
      rw [BitVec.lt_def, hidx]
      exact hin
    have hmany : ¬ n ≤ 1 := by
      have hone : (1 : U64).toNat = 1 := rfl
      rw [BitVec.le_def, hone]
      omega
    have htest : p.test (BitVec.ofNat 64 k * 0x1000) = ok false := by
      rw [test.total hp (by rw [hframe]; exact hin), hframe, decide_eq_false hk.2]
    simp only [allocateTurn, if_pos hlt, htest, bind_ok, if_true, if_neg hmany, hcheck, hmark]
  have hskip := loop_skip (p.allocateTurn (m + 1) n) (fun i => BitVec.ofNat 64 i) k (m + 1 - k)
    fun i hi => allocateTurn_used hp (m + 1) n (by omega) (hused i hi)
  obtain ⟨j, hj⟩ : ∃ j, m + 1 - k = j + 1 := ⟨m - k, by omega⟩
  rw [Nat.sub_add_cancel (by omega), hj, loop_leave hlast] at hskip
  exact hskip

/-- The free frames of two MiB of memory from 4 MiB on. -/
theorem twoMiB_imported : ∃ g', init_memory 0x201 twoMiB (fun _ => 0) lowHeap = ok g' ∧
    (∀ f, 0x400 ≤ f → f < 0x600 → g'.kernel_pmm.Free f) ∧ ∀ f < 0x400, g'.kernel_pmm.Used f := by
  obtain ⟨g', h⟩ : ∃ g', init_memory 0x201 twoMiB (fun _ => 0) lowHeap = ok g' :=
    init_memory.total _ rfl rfl (by decide) (by decide) (listed_lt (by decide)) (by decide)
  have himported := init_memory.spec rfl h
  refine ⟨g', h, fun f hlow hhigh => ?_, fun f hf => ?_⟩
  · exact (himported.free _).mpr ⟨hlow, _, List.mem_cons_self, rfl, hlow, hhigh⟩
  · by_contra hnot
    have hfree := (himported.free f).mp ⟨Nat.lt_of_lt_of_le hf himported.low, hnot⟩
    omega

/-- Two calls for one frame each, then the first frame back. -/
theorem the_figures_are_exact_after_three_calls : ∃ g' p,
    let w : World := ⟨p, [[0x401], []]⟩
    init_memory 0x201 twoMiB (fun _ => 0) lowHeap = ok g' ∧
      Run (Guarded fittingOnly Step) ⟨g'.kernel_pmm, []⟩
        [.allocate 1, .allocate 1, .free 0x400000] w ∧
      w.frames.debug_print_free_memory.Yields (Exact w) := by
  obtain ⟨g', h, hfree, hused⟩ := twoMiB_imported
  have himported := init_memory.spec rfl h
  have hone : (1 : U64) ≤ 1 := BitVec.le_refl 1
  have hpos : 1 ≤ (1 : U64).toNat := by decide
  obtain ⟨p₁, h₁, hm₁⟩ := @allocate_one _ himported.ready 1 hone 0x400 0x401
    (hfree _ (by decide) (by decide)) hused (by decide)
  -- the second call passes over the frame of the first
  have hfree₁ : p₁.Free 0x401 := by
    obtain ⟨hin, hnot⟩ := hfree 0x401 (by decide) (by decide)
    refine ⟨by rw [hm₁.numPages]; exact hin, fun hu => ?_⟩
    rcases (hm₁.used _).mp hu with heq | hu
    · exact absurd heq (by decide)
    · exact hnot hu
  have hused₁ : ∀ f < 0x401, p₁.Used f := by
    intro f hf
    rcases Nat.lt_succ_iff_lt_or_eq.mp hf with hlt | heq
    · exact (hm₁.used f).mpr (Or.inr (hused f hlt))
    · exact (hm₁.used f).mpr (Or.inl heq)
  have hready₁ := hm₁.ready himported.ready
  obtain ⟨p₂, h₂, hm₂⟩ := @allocate_one _ hready₁ 1 hone 0x401 0x402 hfree₁ hused₁ (by decide)
  have hin₂ : frameOf 0x400000 < p₂.m_numPages.toNat := by
    rw [hm₂.numPages]
    exact Nat.lt_trans (by decide) hfree₁.1
  obtain ⟨p₃, h₃⟩ := free.total (hm₂.ready hready₁) hin₂
  have hlow : 0x400 ≤ g'.kernel_pmm.m_numPages.toNat := himported.low
  have hfits : fittingOnly ⟨g'.kernel_pmm, []⟩ (.allocate 1) := by
    change (1 : U64).toNat ≤ _
    exact Nat.le_trans (by decide) hlow
  have hfits₁ : fittingOnly ⟨p₁, [[0x400]]⟩ (.allocate 1) := by
    change (1 : U64).toNat ≤ p₁.m_numPages.toNat
    exact Nat.le_trans (by decide) (Nat.le_of_lt hfree₁.1)
  have run₁ : Run (Guarded fittingOnly Step) ⟨g'.kernel_pmm, []⟩ [.allocate 1]
      ⟨p₁, [[0x400]]⟩ :=
    .single ⟨hfits, .allocate (a := BitVec.ofNat 64 0x400 * 0x1000) hpos h₁⟩
  have run₂ : Run (Guarded fittingOnly Step) ⟨g'.kernel_pmm, []⟩ [.allocate 1, .allocate 1]
      ⟨p₂, [[0x401], [0x400]]⟩ :=
    run₁.snoc ⟨hfits₁, .allocate (a := BitVec.ofNat 64 0x401 * 0x1000) hpos h₂⟩
  have hheld : [0x400] ∈ [[0x401], [0x400]] := by decide
  have hframe : frameOf 0x400000 ∈ [0x400] := by decide
  have run : Run (Guarded fittingOnly Step) ⟨g'.kernel_pmm, []⟩
      [.allocate 1, .allocate 1, .free 0x400000] ⟨p₃, [[0x401], []]⟩ :=
    run₂.snoc ⟨trivial, .free hheld hframe h₃⟩
  exact ⟨g', p₃, h, run, the_figures_are_exact rfl (by decide) h run⟩

/-- A call for 2^64 - 1 frames returns, and the figures know none of them. -/
theorem a_call_for_all_frames_is_not_in_the_figures : ∃ g' w,
    init_memory 0x201 twoMiB (fun _ => 0) lowHeap = ok g' ∧
      Run Step ⟨g'.kernel_pmm, []⟩ [.allocate 0xFFFFFFFFFFFFFFFF] w ∧
      ¬ w.frames.debug_print_free_memory.Yields (Exact w) := by
  obtain ⟨g', h, hfree, hused⟩ := twoMiB_imported
  have himported := init_memory.spec rfl h
  have hcounted := import_counted (g := lowHeap) rfl h
  have hfuel : 0x400 < 0x401 := by decide
  have hcall := allocate_wrapped (n := 0xFFFFFFFFFFFFFFFF) himported.ready
    (hfree _ (by decide) (by decide)) hused hfuel (by decide) (by decide) (by decide)
  have run : Run Step ⟨g'.kernel_pmm, []⟩ [.allocate 0xFFFFFFFFFFFFFFFF] _ :=
    .single (.allocate (by decide) hcall)
  refine ⟨g', _, h, run, ?_⟩
  rintro ⟨fig, hrun, hexact⟩
  -- the frames are as the import left them
  obtain ⟨fig', hrun', hexact'⟩ := accounted_exact hcounted (accounted_first himported.ready)
  rw [hrun, ok.injEq] at hrun'
  subst hrun'
  have hnone : fig.pagesUsed.toNat = 0 := hexact'.pagesUsed
  have hall := hexact.pagesUsed
  simp only [World.allocated, List.flatten_cons, List.flatten_nil, List.append_nil,
    List.length_range', hnone] at hall
  revert hall
  decide

end lobo.pmm
