-- The frames behind the mappings of `vmm::map`. The PMM is asked for the whole
-- pages of the length, rounded down, and the loop maps them rounded up, so a
-- call that is longer than a page and not a number of pages maps a frame more
-- than it has reserved.
import CanidaeOS.VmmMap
import CanidaeOS.PmmRuns

open Program Machine Outcome Paging RadixTree Runs

namespace lobo

namespace pmm

/-! ## The calls of `allocate` -/

/-- A call for no page is one for a page. -/
theorem allocate_zero (p : pmm) (fuel : Nat) : p.allocate fuel 0 = p.allocate fuel 1 := by
  have hturn : p.allocateTurn fuel 0 = p.allocateTurn fuel 1 := by
    funext idx
    simp only [allocateTurn, if_pos (show (0 : U64) ≤ 1 by decide), if_pos (show (1 : U64) ≤ 1 by decide)]
  rw [allocate, allocate, hturn]

/-- How a call can stop. -/
theorem allocate.stops {p : pmm} {fuel : Nat} {n : U64} {e : Stop} (h : p.allocate fuel n = .stop e) :
    e = .panic "PMM Out of Memory" ∨ bitset.BoundsStop e := by
  have hcheck : ∀ idx s e, p.checkTurn idx n s = .stop e → bitset.BoundsStop e := by
    intro idx s e hturn
    unfold checkTurn at hturn
    split at hturn
    · rcases bind_eq_stop.mp hturn with hturn | ⟨used, -, hturn⟩
      · exact (bitset.test.stops _ _).of_stop hturn
      · split at hturn <;> cases hturn
    · cases hturn
  have hmark : ∀ idx s e, markTurn idx n s = .stop e → bitset.BoundsStop e := by
    intro idx s e hturn
    unfold markTurn at hturn
    split at hturn
    · rcases bind_eq_stop.mp hturn with hturn | ⟨q, -, hturn⟩
      · exact (set.stops _ _).of_stop hturn
      · cases hturn
    · cases hturn
  refine loop_stop (R := fun e => e = .panic "PMM Out of Memory" ∨ bitset.BoundsStop e) ?_ h
  intro idx e hturn
  unfold allocateTurn at hturn
  split at hturn
  swap
  · cases hturn
    exact Or.inl rfl
  rcases bind_eq_stop.mp hturn with hturn | ⟨used, -, hturn⟩
  · exact Or.inr ((bitset.test.stops _ _).of_stop hturn)
  split at hturn
  swap
  · cases hturn
  split at hturn
  · rcases bind_eq_stop.mp hturn with hturn | ⟨q, -, hturn⟩
    · exact Or.inr ((set.stops _ _).of_stop hturn)
    · cases hturn
  · rcases bind_eq_stop.mp hturn with hturn | ⟨b, -, hturn⟩
    · exact Or.inr (loop_stop (hcheck idx) hturn)
    · split at hturn
      · rcases bind_eq_stop.mp hturn with hturn | ⟨q, -, hturn⟩
        · exact Or.inr (loop_stop (hmark idx) hturn)
        · cases hturn
      · cases hturn

/-- Frame `f` was free and is used now. -/
def Takes (p p' : pmm) (f : Nat) : Prop := p.Free f ∧ p'.Used f

/-- The first free frame. -/
def FirstFree (p : pmm) (f : Nat) : Prop := p.Free f ∧ ∀ g < f, ¬ p.Free g

/-- From `p` to `p'` frames are only marked. -/
def OnlyMarks (p p' : pmm) : Prop := p.Ready → ∃ U : Nat → Prop, Marks p p' fun f => U f ∨ p.Used f

theorem OnlyMarks.refl (p : pmm) : OnlyMarks p p :=
  fun _ => ⟨fun _ => False, (Marks.refl p).congr fun f => by simp⟩

theorem OnlyMarks.trans {p q r : pmm} (h₁ : OnlyMarks p q) (h₂ : OnlyMarks q r) : OnlyMarks p r := by
  intro hp
  obtain ⟨U, hU⟩ := h₁ hp
  obtain ⟨V, hV⟩ := h₂ (hU.ready hp)
  refine ⟨fun f => V f ∨ U f, (hU.trans hV).congr fun f => ?_⟩
  rw [hU.used, or_assoc]

theorem OnlyMarks.not_free {p p' : pmm} (h : OnlyMarks p p') (hp : p.Ready) {f : Nat}
    (hf : p'.Free f) : p.Free f := by
  obtain ⟨U, hU⟩ := h hp
  refine ⟨?_, fun hu => hf.2 ((hU.used f).mpr (Or.inr hu))⟩
  rw [← hU.numPages]
  exact hf.1

theorem OnlyMarks.of_allocate (h : p.allocate fuel n = ok (a, p')) : OnlyMarks p p' := by
  intro hp
  obtain ⟨idx, -, hfound⟩ := allocate.spec hp h
  exact hfound.marks

theorem OnlyMarks.used (h : OnlyMarks p p') (hp : p.Ready) {f : Nat} (hf : p.Used f) : p'.Used f := by
  obtain ⟨U, hU⟩ := h hp
  exact (hU.used f).mpr (Or.inr hf)

theorem OnlyMarks.ready (h : OnlyMarks p p') (hp : p.Ready) : p'.Ready := by
  obtain ⟨U, hU⟩ := h hp
  exact hU.ready hp

end pmm

/-- The heap only marks frames when the page tables take pages from it. -/
theorem vmm.edit_keeps_frames : vmm.EditKeeps kmalloc_aligned fun s s' =>
    pmm.OnlyMarks s.heap.kernel_pmm s'.heap.kernel_pmm :=
  ⟨fun _ _ => pmm.OnlyMarks.refl _, fun _ h => (kmalloc_aligned.spec h).marks, fun h h' => h.trans h'⟩

/-- In early boot no edit marks a frame. -/
theorem vmm.edit_keeps_early : vmm.EditKeeps kmalloc_aligned fun s s' =>
    s.heap.currentMode = .EarlyBoot →
      s'.heap.currentMode = .EarlyBoot ∧ s'.heap.kernel_pmm = s.heap.kernel_pmm := by
  refine ⟨fun s mem hmode => ⟨hmode, rfl⟩, fun mem hcall hmode => ?_, fun h h' hmode => ?_⟩
  · have halloc := kmalloc_aligned.spec hcall
    exact ⟨halloc.mode_eq.trans hmode, halloc.pmm_eq hmode⟩
  · obtain ⟨hmode', heq⟩ := h hmode
    obtain ⟨hmode'', heq'⟩ := h' hmode'
    exact ⟨hmode'', heq'.trans heq⟩

/-! ## Linear addresses -/

/-- Where the window shows frame `f`. -/
def linear (f : Nat) : U64 := MEM_PHYS_TO_VIRT (BitVec.ofNat 64 f * 0x1000)

theorem pageAt_linear (f i : Nat) : pageAt (linear f) i = linear (f + i) := by
  unfold pageAt linear MEM_PHYS_TO_VIRT
  rw [BitVec.ofNat_add]
  ring

/-- Frames below 256 TiB have ways of their own. -/
theorem linear_inj {f g : Nat} (hf : f < 2 ^ 36) (hg : g < 2 ^ 36) (h : way (linear f) = way (linear g)) :
    f = g := by
  rw [way_eq_iff] at h
  have hvalue : ∀ f < 2 ^ 36, (linear f).toNat = (f * 0x1000 + 0xffffffff80000000) % 2 ^ 64 := by
    intro f hf
    rw [linear, MEM_PHYS_TO_VIRT, BitVec.toNat_add, BitVec.toNat_mul, BitVec.toNat_ofNat]
    simp only [KERNEL_VMB, BitVec.reduceToNat]
    omega
  rw [hvalue f hf, hvalue g hg] at h
  omega

/-! ## Whole pages -/

/-- The frames that are reserved for a call are those that it maps: a page, or a
shorter length whose frame is not the last of the window, or whole pages with a
free run that the PMM can hand out. -/
def WholeRequest (p : pmm) (length : U64) : Prop :=
  p.m_numPages.toNat ≤ 2 ^ 36 ∧
    (length.toNat = 0x1000 ∨ (length.toNat < 0x1000 ∧ ¬ p.FirstFree 0x7FFFF) ∨
      (length.toNat % 0x1000 = 0 ∧ ∃ i, p.LowRun i (length.toNat / 0x1000)))

/-- What the PMM has reserved for a call: a run of frames, one for each turn. -/
structure Counted (p p' : pmm) (a length : U64) (idx : Nat) : Prop where
  address : a = BitVec.ofNat 64 idx * 0x1000
  ends : Ends (linear idx) length
  frames : ∀ i < turns (linear idx) length, idx + i < 2 ^ 36 ∧ p.Takes p' (idx + i)

theorem linear_toNat {f : Nat} (h : f < 2 ^ 36) : (linear f).toNat =
    if f < 0x80000 then f * 0x1000 + 0xffffffff80000000 else f * 0x1000 - 0x80000000 := by
  rw [linear, phys_to_virt_toNat, BitVec.toNat_mul, BitVec.toNat_ofNat]
  simp only [BitVec.reduceToNat]
  split <;> split <;> omega

theorem address_of_toNat {a : U64} {idx : Nat} (ha : a.toNat = idx * 0x1000) :
    a = BitVec.ofNat 64 idx * 0x1000 := by
  apply BitVec.eq_of_toNat_eq
  rw [ha, BitVec.toNat_mul, BitVec.toNat_ofNat]
  simp only [BitVec.reduceToNat]
  omega

section

variable {p p' : pmm} {fuel : Nat} {a length : U64} (hp : p.Ready)
include hp

/-- For a page or less it is the first free frame. -/
theorem Counted.single (hN : p.m_numPages.toNat ≤ 2 ^ 36) (hpos : 0 < length.toNat)
    (hle : length.toNat ≤ 0x1000) (hlast : length.toNat < 0x1000 → ¬ p.FirstFree 0x7FFFF)
    (h : p.allocate fuel 1 = ok (a, p')) :
    ∃ idx, Counted p p' a length idx := by
  obtain ⟨idx, ha, hf⟩ := pmm.allocate.spec hp h
  have hone : (1 : U64).toNat = 1 := rfl
  have hfree := hf.free.1
  have hpages : pages length = 1 := by
    unfold pages
    omega
  have hvalue := linear_toNat (f := idx) (by omega)
  refine ⟨idx, address_of_toNat ha, fun hsum => ?_, fun i hi => ?_⟩
  · -- a part of a page ends below the top, unless its page is the last
    have hne : length.toNat < 0x1000 → idx ≠ 0x7FFFF := by
      rintro hshort rfl
      refine hlast hshort ⟨hf.free, fun g hg hgfree => ?_⟩
      refine hf.first (by decide) g hg ⟨by omega, fun f h1 h2 => ?_⟩
      obtain rfl : f = g := by omega
      exact hgfree
    rw [hpages]
    split at hvalue <;> omega
  · obtain rfl : i = 0 := by
      unfold turns at hi
      rw [hpages] at hi
      split at hi <;> omega
    exact ⟨by omega, hf.free, ((hf.single (Nat.le_refl 1)).used idx).mpr (Or.inl rfl)⟩

/-- For whole pages it is a run that ends at or below frame 2^20. -/
theorem Counted.run {n : U64} (hn : 1 < n.toNat) (hlen : length.toNat = n.toNat * 0x1000) {j : Nat}
    (hj : p.LowRun j n.toNat) (h : p.allocate fuel n = ok (a, p')) : ∃ idx, Counted p p' a length idx := by
  obtain ⟨idx, ha, hf⟩ := pmm.allocate.spec hp h
  have hle : idx ≤ j := by
    by_contra hgt
    exact hf.first (by omega) j (by omega) hj
  have hend := hj.1
  obtain ⟨hrun, hm⟩ := hf.low hn (by omega)
  have hpages : pages length = n.toNat := by
    unfold pages
    omega
  refine ⟨idx, address_of_toNat ha, fun hsum => ?_, fun i hi => ?_⟩
  · rw [hpages, ← hlen]
    exact hsum
  · have hlt : i < n.toNat := by
      unfold turns at hi
      rw [hpages] at hi
      split at hi <;> omega
    exact ⟨by omega, hrun _ (by omega) (by omega), (hm.used _).mpr (Or.inl ⟨by omega, by omega⟩)⟩

end

/-- The run that the PMM returns for whole pages is that of the call. -/
theorem WholeRequest.counted {p p' : pmm} {fuel : Nat} {a length : U64} (hp : p.Ready)
    (hpos : 0 < length.toNat) (hw : WholeRequest p length)
    (h : p.allocate fuel (length / 0x1000) = ok (a, p')) : ∃ idx, Counted p p' a length idx := by
  have hn : (length / 0x1000).toNat = length.toNat / 0x1000 := by simp
  have hone : length.toNat = 0x1000 → p.allocate fuel 1 = ok (a, p') := by
    intro hlen
    have hcount : length / 0x1000 = 1 := BitVec.eq_of_toNat_eq (hn.trans (by simp; omega))
    rwa [hcount] at h
  obtain ⟨hN, hcases⟩ := hw
  rcases hcases with hlen | ⟨hlt, hlast⟩ | ⟨hmod, j, hj⟩
  · exact Counted.single hp hN hpos hlen.le (fun hlt => absurd hlt (by omega)) (hone hlen)
  · have hzero : length / 0x1000 = 0 := BitVec.eq_of_toNat_eq (hn.trans (by simp; omega))
    rw [hzero, pmm.allocate_zero] at h
    exact Counted.single hp hN hpos hlt.le (fun _ => hlast) h
  · by_cases hlen : length.toNat = 0x1000
    · exact Counted.single hp hN hpos hlen.le (fun hlt => absurd hlt (by omega)) (hone hlen)
    · rw [← hn] at hj
      exact Counted.run hp (by omega) (by omega) hj h

/-! ## One call of `map` -/

namespace vmm

variable {s s' : vmm Globals} {p : pmm} {fuel : Nat} {length a r : U64} {perm : U32}

/-- The linear addresses of free frames are mapped by nobody. -/
def FreeUnmapped (s : vmm Globals) : Prop :=
  ∀ f < 2 ^ 36, s.heap.kernel_pmm.Free f → s.entryOf (linear f) &&& VMM_PAGE_PRESENT = 0

/-- Frame `f` is entered: an address is translated to it now, and was not. -/
def Enters (s s' : vmm Globals) (f : Nat) : Prop :=
  ∃ x l, s'.translate x = some l ∧ s.translate x ≠ some l ∧ pmm.frameOf l.1 = f

/-- The frames that a range enters are those of its turns. -/
theorem Enters.of_turn {t : vmm Globals} {v q : U64} {flags : U8} {n f : Nat}
    (hs : s.Sound HeapInWindow HeapFree)
    (hw : WroteRange HeapInWindow HeapFree s t v (mappedEntry q flags) n)
    (h : s.Enters (swap_page_directory t.pdir_current t) f) :
    ∃ j < n, f = pmm.frameOf (pageAt q j) := by
  obtain ⟨x, l, hnew, hold, rfl⟩ := h
  rw [(swap_sound hw.sound).translate_entryOf] at hnew
  rw [hs.translate_entryOf] at hold
  by_cases hx : ∃ i < n, way x = way (pageAt v i)
  · obtain ⟨i, hi, hway⟩ := hx
    obtain ⟨j, hj, -, hentry⟩ := hw.at_pages i hi x hway
    have hleaf : leaf (mappedEntry q flags j) = some l := by
      rw [← hentry]
      exact hnew
    have hframe := leaf_frame (byte_flags flags) hleaf
    refine ⟨j, hj, ?_⟩
    rw [pmm.frameOf, hframe, pmm.frameOf]
    omega
  · have hsame : (swap_page_directory t.pdir_current t).entryOf x = s.entryOf x :=
      hw.rest x fun i hi hway => hx ⟨i, hi, hway⟩
    rw [hsame] at hnew
    exact absurd hnew hold

/-- A page that was not mapped, and has its entry now, enters its frame. -/
theorem Enters.of_page {x q : U64} {flags : U8} {i : Nat} (hs : s.Sound HeapInWindow HeapFree)
    (hs' : s'.Sound HeapInWindow HeapFree) (hf : flags.setWidth 64 &&& VMM_PAGE_PRESENT ≠ 0)
    (hclear : s.entryOf x &&& VMM_PAGE_PRESENT = 0) (hentry : s'.entryOf x = mappedEntry q flags i) :
    s.Enters s' (pmm.frameOf (pageAt q i)) := by
  have hset : ¬ mappedEntry q flags i &&& 1 = 0 := entry_present _ hf
  obtain ⟨l, hleaf⟩ : ∃ l, leaf (mappedEntry q flags i) = some l := ⟨_, if_neg hset⟩
  have hframe := leaf_frame (byte_flags flags) hleaf
  refine ⟨x, l, ?_, ?_, ?_⟩
  · rw [hs'.translate_entryOf, hentry, hleaf]
  · rw [hs.translate_entryOf, show leaf (s.entryOf x) = none from if_pos hclear]
    exact (Option.some_ne_none l).symm
  · rw [pmm.frameOf, hframe, pmm.frameOf]
    omega

/-- A mapping of frames of the kernel region asks the PMM for them first. -/
theorem map.asks (fuel : Nat) (length : U64) (perm : U32) (s : vmm Globals) :
    map fuel 0 length perm VMM_MAP_REGION_KERNEL s =
      s.heap.kernel_pmm.allocate fuel (length / 0x1000) >>= fun r =>
        map_pages kmalloc_aligned fuel s.pdir_current (MEM_PHYS_TO_VIRT r.1) r.1 length
          (perm.setWidth 8) (s.withPmm r.2) >>= fun t =>
            ok (MEM_PHYS_TO_VIRT r.1, swap_page_directory t.pdir_current t) := by
  unfold map
  rw [map_addresses.backed (by decide) (by decide), bind_assoc]
  rfl

theorem map.backed (hcall : s.heap.kernel_pmm.allocate fuel (length / 0x1000) = ok (a, p)) :
    map fuel 0 length perm VMM_MAP_REGION_KERNEL s =
      map_pages kmalloc_aligned fuel s.pdir_current (MEM_PHYS_TO_VIRT a) a length (perm.setWidth 8)
        (s.withPmm p) >>= fun t => ok (MEM_PHYS_TO_VIRT a, swap_page_directory t.pdir_current t) := by
  rw [map.asks, hcall, bind_ok]

/-- The pages of the run are not mapped, each has a way of its own. -/
theorem clear_of_counted {idx : Nat} (hc : Counted s.heap.kernel_pmm p a length idx)
    (hfree : s.FreeUnmapped) : (s.withPmm p).ClearRange (linear idx) (turns (linear idx) length) := by
  constructor
  · intro i hi
    obtain ⟨hlt, htakes⟩ := hc.frames i hi
    rw [pageAt_linear]
    exact hfree _ hlt htakes.1
  · intro i hi j hj hway
    rw [pageAt_linear, pageAt_linear] at hway
    have := linear_inj (hc.frames i hi).1 (hc.frames j (by omega)).1 hway
    omega

/-- In early boot a call for one frame takes the first free one, and returns when
the heap has room for the tables. -/
theorem map.one {f n : Nat} (hs : s.Sound HeapInWindow HeapFree) (hp : s.heap.kernel_pmm.Ready)
    (hmode : s.heap.currentMode = .EarlyBoot) (hk : s.heap.kernel_pmm.Free f)
    (hused : ∀ g < f, s.heap.kernel_pmm.Used g) (hlen : length / 0x1000 = 1)
    (hends : Ends (linear f) length) (hclear : s.ClearRange (linear f) (turns (linear f) length))
    (hroom : Room kmalloc_aligned (3 * turns (linear f) length + n) s.heap) : ∃ p t,
      s.heap.kernel_pmm.allocate (2 ^ 52 + 1) (length / 0x1000) =
        ok (BitVec.ofNat 64 f * 0x1000, p) ∧
      pmm.Marks s.heap.kernel_pmm p (fun g => g = f ∨ s.heap.kernel_pmm.Used g) ∧
      map_pages kmalloc_aligned (2 ^ 52 + 1) s.pdir_current (linear f) (BitVec.ofNat 64 f * 0x1000)
        length 3 (s.withPmm p) = ok t ∧
      (t.heap.currentMode = .EarlyBoot ∧ t.heap.kernel_pmm = p ∧ Room kmalloc_aligned n t.heap) ∧
      s.map (2 ^ 52 + 1) 0 length 3 VMM_MAP_REGION_KERNEL =
        ok (linear f, swap_page_directory t.pdir_current t) := by
  have hpages := hp.pages
  have hin := hk.1
  obtain ⟨p, hcall, hmarks⟩ := @pmm.allocate_one _ hp 1 (BitVec.le_refl 1) f (2 ^ 52 + 1) hk hused
    (by omega)
  rw [← hlen] at hcall
  have hroom' := room_early_pmm hmode hroom p
  obtain ⟨t, ht, hleft⟩ := map_pages.total kmalloc_aligned.fresh_pages (hs.withPmm p) hends
    ⟨hclear.clear, hclear.apart⟩ hroom' (BitVec.ofNat 64 f * 0x1000) 3 (Nat.lt_succ_self _)
  obtain ⟨hmode', hsame⟩ := edit_keeps_early.map_pages ht hmode
  refine ⟨p, t, hcall, hmarks, ht, ⟨hmode', hsame, hleft⟩, ?_⟩
  have hflags : (3 : U32).setWidth 8 = (3 : U8) := rfl
  have hwindow : MEM_PHYS_TO_VIRT (BitVec.ofNat 64 f * 0x1000) = linear f := rfl
  rw [map.backed hcall, hwindow, hflags]
  exact bind_eq_ok.mpr ⟨t, ht, rfl⟩

/-- Pages that are not mapped are mapped without a remap. -/
theorem map_pages.not_remap {v q size : U64} {flags : U8} (hs : s.Sound HeapInWindow HeapFree)
    (hends : Ends v size) (hclear : s.ClearRange v (turns v size)) :
    map_pages kmalloc_aligned fuel s.pdir_current v q size flags s ≠ .stop remap := by
  have hk := kmalloc_aligned.fresh_pages
  intro hstop
  unfold map_pages at hstop
  rcases bind_eq_stop.mp hstop with hloop | ⟨w, -, hend⟩
  swap
  · cases hend
  have hmore : forStep PAGE_SIZE (v + size) (map_page kmalloc_aligned s.pdir_current flags)
      (fuel + (2 ^ 52 + 1)) v (q, s) = .stop remap := by
    unfold forStep at hloop ⊢
    rw [loop_mono (Nat.le_add_right fuel (2 ^ 52 + 1)) (by rw [hloop]; simp), hloop]
  rw [forStep_turns hends (by omega)] at hmore
  refine absurd rfl ((forRange_meets (R := fun e => e ≠ remap) (fun i (w : U64 × vmm Globals) =>
    WroteRange HeapInWindow HeapFree s w.2 v (fun i => mappedEntry q flags i) i ∧ w.1 = pageAt q i)
    ?_ ⟨WroteRange.refl hs v _, (pageAt_zero q).symm⟩).of_stop hmore)
  rintro i ⟨q', t⟩ hi ⟨ht, rfl⟩
  dsimp only at ht
  have hempty : t.entryOf (pageAt v i) &&& VMM_PAGE_PRESENT = 0 := by
    rw [ht.rest _ fun j hj => hclear.apart i hi j hj]
    exact hclear.clear i hi
  rw [← ht.pdir]
  refine (map_page.wrote hk ht.sound (pageAt v i) (pageAt q i) flags).mono ?_ ?_
  · rintro e (⟨g, hg, hcall⟩ | ⟨-, hset⟩)
    · exact hk.stop hg hcall
    · exact absurd hempty hset
  · rintro ⟨q', t'⟩ ⟨hq', -, hw⟩
    exact ⟨ht.succ hw, hq'.trans (pageAt_succ q i).symm⟩

/-- A call for whole pages is not refused as a remap. -/
theorem map.not_remap (hs : s.Sound HeapInWindow HeapFree) (hp : s.heap.kernel_pmm.Ready)
    (hfree : s.FreeUnmapped) (hpos : 0 < length.toNat) (hw : WholeRequest s.heap.kernel_pmm length) :
    map fuel 0 length perm VMM_MAP_REGION_KERNEL s ≠ .stop remap := by
  intro hstop
  rw [map.asks] at hstop
  rcases bind_eq_stop.mp hstop with hcall | ⟨⟨a, p⟩, hcall, hmap⟩
  · rcases pmm.allocate.stops hcall with h | h | h <;> exact absurd h (by decide)
  · obtain ⟨idx, hc⟩ := hw.counted hp hpos hcall
    rcases bind_eq_stop.mp hmap with hmap | ⟨t, -, hend⟩
    · rw [show MEM_PHYS_TO_VIRT a = linear idx by rw [hc.address]; rfl] at hmap
      exact map_pages.not_remap (hs.withPmm p) hc.ends (clear_of_counted hc hfree) hmap
    · cases hend

/-- What a call for whole pages leaves. -/
structure MapsFrames (s s' : vmm Globals) (p : pmm) : Prop where
  sound : s'.Sound HeapInWindow HeapFree
  ready : s'.heap.kernel_pmm.Ready
  entered : ∀ f, Enters s s' f → s.heap.kernel_pmm.Takes p f
  still : ∀ f, s'.heap.kernel_pmm.Free f → p.Free f
  before : ∀ f, p.Free f → s.heap.kernel_pmm.Free f
  unmapped : s'.FreeUnmapped

theorem map.frames (hs : s.Sound HeapInWindow HeapFree) (hp : s.heap.kernel_pmm.Ready)
    (hfree : s.FreeUnmapped) (hpos : 0 < length.toNat) (hperm : perm &&& 1 ≠ 0)
    (hw : WholeRequest s.heap.kernel_pmm length)
    (hcall : s.heap.kernel_pmm.allocate fuel (length / 0x1000) = ok (a, p))
    (h : map fuel 0 length perm VMM_MAP_REGION_KERNEL s = ok (r, s')) : MapsFrames s s' p := by
  have hpresent := perm_present hperm
  obtain ⟨idx, hc⟩ := hw.counted hp hpos hcall
  obtain ⟨U, hU⟩ := (pmm.allocate.spec hp hcall).choose_spec.2.marks
  have hpready := hU.ready hp
  rw [map.backed hcall] at h
  obtain ⟨t, ht, h⟩ := bind_eq_ok.mp h
  rw [ok.injEq, Prod.mk.injEq] at h
  obtain ⟨-, rfl⟩ := h
  have honly : pmm.OnlyMarks p t.heap.kernel_pmm := edit_keeps_frames.map_pages ht
  have hbefore : ∀ f, p.Free f → s.heap.kernel_pmm.Free f := fun f hf =>
    pmm.OnlyMarks.not_free (fun _ => ⟨U, hU⟩) hp hf
  rw [show MEM_PHYS_TO_VIRT a = linear idx by rw [hc.address]; rfl] at ht
  obtain ⟨-, hw', -⟩ := map_pages.returned kmalloc_aligned.fresh_pages (hs.withPmm p) hpresent ht
  have hsound := swap_sound hw'.sound
  obtain ⟨V, hV⟩ := honly hpready
  refine ⟨hsound, hV.ready hpready, ?_, fun f hf => honly.not_free hpready hf, hbefore, ?_⟩
  · intro f hf
    obtain ⟨j, hj, rfl⟩ := Enters.of_turn (hs.withPmm p) hw' hf
    obtain ⟨hlt, htakes⟩ := hc.frames j hj
    have hplace : pmm.frameOf (pageAt a j) = idx + j := by
      rw [pmm.frameOf, pageAt_toNat, hc.address, BitVec.toNat_mul, BitVec.toNat_ofNat]
      simp only [BitVec.reduceToNat]
      omega
    rw [hplace]
    exact htakes
  · intro f hf hfreef
    have hstill := honly.not_free hpready hfreef
    have hsame : (swap_page_directory t.pdir_current t).entryOf (linear f) = s.entryOf (linear f) := by
      refine hw'.rest _ fun i hi hway => ?_
      -- the frames of the call are used
      obtain ⟨hlt, htakes⟩ := hc.frames i hi
      rw [pageAt_linear] at hway
      have hfi := linear_inj hf hlt hway
      rw [hfi] at hstill
      exact hstill.2 htakes.2
    rw [hsame]
    exact hfree f hf (hbefore f hstill)

end vmm

/-! ## Runs of `map` -/

/-- The frames that the PMM reserved for a call, and those that the call
entered into the page tables. -/
structure Mapped where
  reserved : Nat → Prop
  entered : Nat → Prop

/-- The address space, with what each call so far did, the newest first. -/
structure Mappings where
  space : vmm Globals
  calls : List Mapped

/-- A call of `map(nullptr, length, perm, VMM_MAP_REGION_KERNEL)` that returns.
The event is the length and the permissions. -/
inductive MapStep : Mappings → U64 × U32 → Mappings → Prop
  | map {w : Mappings} {fuel : Nat} {length a r : U64} {perm : U32} {p : pmm} {s : vmm Globals} :
      0 < length.toNat → perm &&& 1 ≠ 0 →
      w.space.heap.kernel_pmm.allocate fuel (length / 0x1000) = ok (a, p) →
      w.space.map fuel 0 length perm VMM_MAP_REGION_KERNEL = ok (r, s) →
      MapStep w (length, perm)
        ⟨s, ⟨w.space.heap.kernel_pmm.Takes p, w.space.Enters s⟩ :: w.calls⟩

/-- The guard of a step: its length is one of whole pages. -/
def wholeRequest (w : Mappings) (e : U64 × U32) : Prop := WholeRequest w.space.heap.kernel_pmm e.1

/-- Every call entered frames that were reserved for it, and no two calls
entered the same. -/
structure Mappings.Agree (w : Mappings) : Prop where
  own : ∀ c ∈ w.calls, ∀ f, c.entered f → c.reserved f
  apart : w.calls.Pairwise fun c d => ∀ f, ¬ (c.entered f ∧ d.entered f)

/-- What every step keeps. -/
structure Mappings.Kept (w : Mappings) : Prop where
  sound : w.space.Sound HeapInWindow HeapFree
  ready : w.space.heap.kernel_pmm.Ready
  unmapped : w.space.FreeUnmapped
  past : ∀ c ∈ w.calls, ∀ f, c.entered f → ¬ w.space.heap.kernel_pmm.Free f
  agree : w.Agree

theorem mappings_step {w w' : Mappings} {e : U64 × U32} (hw : w.Kept)
    (h : Guarded wholeRequest MapStep w e w') : w'.Kept := by
  obtain ⟨hguard, hstep⟩ := h
  cases hstep with
  | @map fuel length a r perm p s hpos hperm hcall hmap =>
    have hf := vmm.map.frames hw.sound hw.ready hw.unmapped hpos hperm hguard hcall hmap
    refine ⟨hf.sound, hf.ready, hf.unmapped, ?_, ?_, ?_⟩
    · intro c hc f hcf hfree
      rcases List.mem_cons.mp hc with rfl | hc
      · exact (hf.still f hfree).2 (hf.entered f hcf).2
      · exact hw.past c hc f hcf (hf.before f (hf.still f hfree))
    · intro c hc
      rcases List.mem_cons.mp hc with rfl | hc
      · exact hf.entered
      · exact hw.agree.own c hc
    · refine List.Pairwise.cons ?_ hw.agree.apart
      rintro d hd f ⟨hnew, hold⟩
      exact hw.past d hd f hold (hf.entered f hnew).1

/-- In every run of calls for whole pages, each call enters frames that were
reserved for it, no two the same, and no call is refused as a remap. -/
theorem mapped_frames_are_reserved {s : vmm Globals} (hs : s.Sound HeapInWindow HeapFree)
    (hp : s.heap.kernel_pmm.Ready) (hfree : s.FreeUnmapped) {es : List (U64 × U32)} {w : Mappings}
    (run : Run (Guarded wholeRequest MapStep) ⟨s, []⟩ es w) :
    w.Agree ∧ ∀ fuel length perm, 0 < length.toNat → wholeRequest w (length, perm) →
      w.space.map fuel 0 length perm VMM_MAP_REGION_KERNEL ≠ .stop remap := by
  have hstart : Mappings.Kept ⟨s, []⟩ := by
    refine ⟨hs, hp, hfree, ?_, ?_, List.Pairwise.nil⟩
    · intro c hc
      cases hc
    · intro c hc
      cases hc
  have hw := run.inv Mappings.Kept (fun _ _ _ => mappings_step) hstart
  exact ⟨hw.agree, fun fuel length perm hpos hguard =>
    vmm.map.not_remap hw.sound hw.ready hw.unmapped hpos hguard⟩

/-- The empty directory over eight free frames. -/
def eightSpace : vmm Globals := emptySpace.withPmm pmm.eightFrames

theorem eightSpace_entry (x : U64) : eightSpace.entryOf x = 0 := emptySpace_entry x

theorem eightSpace_sound : eightSpace.Sound HeapInWindow HeapFree := emptySpace_sound.withPmm _

theorem eightSpace_unmapped : eightSpace.FreeUnmapped := by
  intro f _ _
  rw [eightSpace_entry]
  rfl

theorem eightSpace_room : Room kmalloc_aligned 15 eightSpace.heap := room_early rfl (by decide)

/-- A call for one frame, and what it maps, over the eight. -/
theorem eightSpace_map {length : U64} (hlen : length / 0x1000 = 1) (hends : Ends KERNEL_VMB length)
    (hturns : turns KERNEL_VMB length ≤ 3) : ∃ p t,
      eightSpace.heap.kernel_pmm.allocate (2 ^ 52 + 1) (length / 0x1000) = ok (0, p) ∧
      pmm.Marks pmm.eightFrames p (fun g => g = 0 ∨ pmm.eightFrames.Used g) ∧
      vmm.map_pages kmalloc_aligned (2 ^ 52 + 1) eightSpace.pdir_current KERNEL_VMB 0 length 3
        (eightSpace.withPmm p) = ok t ∧
      (t.heap.currentMode = .EarlyBoot ∧ t.heap.kernel_pmm = p ∧ Room kmalloc_aligned 6 t.heap) ∧
      eightSpace.map (2 ^ 52 + 1) 0 length 3 VMM_MAP_REGION_KERNEL =
        ok (KERNEL_VMB, vmm.swap_page_directory t.pdir_current t) := by
  have hstart : KERNEL_VMB = linear 0 := rfl
  have hclear : eightSpace.ClearRange KERNEL_VMB (turns KERNEL_VMB length) := by
    refine ⟨fun i _ => ?_, fun i hi j hj hway => ?_⟩
    · exact congrArg (· &&& VMM_PAGE_PRESENT) (eightSpace_entry (pageAt KERNEL_VMB i))
    · rw [hstart, pageAt_linear, pageAt_linear] at hway
      have := linear_inj (by omega) (by omega) hway
      omega
  exact vmm.map.one (f := 0) eightSpace_sound pmm.eightFrames_ready rfl
    (pmm.eightFrames_free 0 (by decide)) (fun g hg => absurd hg (Nat.not_lt_zero g)) hlen hends hclear
    (vmm.room_le (by rw [← hstart]; omega) eightSpace_room)

/-- The second call maps the second frame. -/
theorem mapped_frames_are_reserved_of_two_pages : ∃ w,
    Run (Guarded wholeRequest MapStep) ⟨eightSpace, []⟩ [(0x1000, 3), (0x1000, 3)] w ∧
      w.Agree ∧ ∀ fuel length perm, 0 < length.toNat → wholeRequest w (length, perm) →
        w.space.map fuel 0 length perm VMM_MAP_REGION_KERNEL ≠ .stop remap := by
  obtain ⟨p, t, hcall, hmarks, -, ⟨hmode, hsame, hroom⟩, hmap⟩ :=
    @eightSpace_map 0x1000 (by decide) (fun _ => by decide) (by decide)
  have hpos : 0 < (0x1000 : U64).toNat := by decide
  have hperm : (3 : U32) &&& 1 ≠ 0 := by decide
  have hfirst : wholeRequest ⟨eightSpace, []⟩ (0x1000, 3) := ⟨by decide, Or.inl rfl⟩
  have hf := vmm.map.frames eightSpace_sound pmm.eightFrames_ready eightSpace_unmapped hpos hperm hfirst
    hcall hmap
  have hpages : p.m_numPages = 8 := hmarks.numPages
  -- frame 0 is used now, frame 1 is still free
  have hused : ∀ g < 1, p.Used g := fun g hg => (hmarks.used g).mpr (Or.inl (Nat.lt_one_iff.mp hg))
  have hfree : p.Free 1 := by
    refine ⟨by rw [hpages]; decide, fun hu => ?_⟩
    rcases (hmarks.used 1).mp hu with heq | hu
    · exact absurd heq (by decide)
    · exact (pmm.eightFrames_free 1 (by decide)).2 hu
  rw [← hsame] at hused hfree
  have hone : turns (linear 1) 0x1000 = 1 := by decide
  have hclear : (vmm.swap_page_directory t.pdir_current t).ClearRange (linear 1)
      (turns (linear 1) 0x1000) := by
    rw [hone]
    refine ⟨fun i hi => ?_, fun i hi j hj => by omega⟩
    rw [Nat.lt_one_iff.mp hi, pageAt_zero]
    exact hf.unmapped 1 (by decide) hfree
  obtain ⟨p', t', hcall', -, -, -, hmap'⟩ := @vmm.map.one _ 0x1000 1 0 hf.sound hf.ready hmode hfree hused
    (by decide) (fun _ => by decide) hclear (vmm.room_le (by decide) hroom)
  have hsecond : WholeRequest t.heap.kernel_pmm 0x1000 := by
    refine ⟨?_, Or.inl rfl⟩
    rw [hsame, hpages]
    decide
  have run₁ : Run (Guarded wholeRequest MapStep) ⟨eightSpace, []⟩ [(0x1000, 3)] _ :=
    .single ⟨hfirst, .map hpos hperm hcall hmap⟩
  have run : Run (Guarded wholeRequest MapStep) ⟨eightSpace, []⟩ [(0x1000, 3), (0x1000, 3)] _ :=
    run₁.snoc ⟨hsecond, .map hpos hperm hcall' hmap'⟩
  exact ⟨_, run, mapped_frames_are_reserved eightSpace_sound pmm.eightFrames_ready eightSpace_unmapped
    run⟩

/-- For a page and a half, one frame is reserved and two are mapped. -/
theorem a_page_and_a_half_maps_a_frame_that_is_free : ∃ w,
    Run MapStep ⟨eightSpace, []⟩ [(0x1800, 3)] w ∧ ¬ w.Agree := by
  obtain ⟨p, t, hcall, -, ht, -, hmap⟩ :=
    @eightSpace_map 0x1800 (by decide) (fun _ => by decide) (by decide)
  refine ⟨_, .single (.map (by decide) (by decide) hcall hmap), fun hagree => ?_⟩
  obtain ⟨-, hw, hpages⟩ := vmm.map_pages.returned kmalloc_aligned.fresh_pages
    (eightSpace_sound.withPmm p) (by decide) ht
  obtain ⟨hclear, hentry⟩ := hpages 1 (by decide)
  have hentered : eightSpace.Enters (vmm.swap_page_directory t.pdir_current t) 1 :=
    vmm.Enters.of_page eightSpace_sound (vmm.swap_sound hw.sound) (by decide) hclear hentry
  have hused := (hagree.own _ List.mem_cons_self 1 hentered).2
  obtain ⟨idx, ha, hf⟩ := pmm.allocate.spec pmm.eightFrames_ready hcall
  rw [(hf.single (by decide)).used] at hused
  rcases hused with hidx | hused
  · rw [← hidx] at ha
    exact absurd ha (by decide)
  · exact (pmm.eightFrames_free 1 (by decide)).2 hused

end lobo
