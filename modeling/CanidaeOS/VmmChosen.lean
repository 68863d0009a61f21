-- RAM-backed mappings at an address that the caller chooses (`vmm.cpp`). The
-- frames behind them are those that the window shows there, and `map` does not
-- tell the PMM, so `allocate` spares only frames that were reserved before.
import CanidaeOS.VmmFrames

open Program Machine Outcome Paging RadixTree Runs

namespace lobo

namespace vmm

variable {fuel : Nat} {desired_addr length r : U64} {perm flags : U32} {s s' : vmm Globals}

/-! ## One call -/

/-- A RAM-backed call of the kernel region for a page-aligned address. -/
structure Chosen (desired_addr : U64) (flags : U32) : Prop where
  backed : flags &&& VMM_MAP_UNBACKED = 0
  region : flags &&& VMM_MAP_REGION_KERNEL ≠ 0
  address : desired_addr ≠ 0
  aligned : PageAligned desired_addr

/-- The frame behind the page of turn `i`. -/
def frameBehind (desired_addr : U64) (i : Nat) : Nat :=
  pmm.frameOf (pageAt (MEM_VIRT_TO_PHYS desired_addr) i)

/-- The frames that a call maps are used. -/
def Reserved (s : vmm Globals) (desired_addr length : U64) : Prop :=
  ∀ i < turns desired_addr length, s.heap.kernel_pmm.Used (frameBehind desired_addr i)

/-- A call that returns has only mapped. -/
theorem map.chosen (hc : Chosen desired_addr flags)
    (h : map fuel desired_addr length perm flags s = ok (r, s')) :
    ∃ t, map_pages kmalloc_aligned fuel s.pdir_current desired_addr (MEM_VIRT_TO_PHYS desired_addr)
        length (perm.setWidth 8) s = ok t ∧ s' = swap_page_directory t.pdir_current t := by
  obtain ⟨p_addr, u, t, haddr, ht, rfl⟩ := map.returned h
  simp only [map_addresses, hc.backed, hc.region, hc.address, decide_true, decide_not, decide_false,
    Bool.not_false, if_true, if_false] at haddr
  obtain ⟨-, -, haddr⟩ := bind_eq_ok.mp haddr
  rw [ok.injEq, Prod.mk.injEq, Prod.mk.injEq] at haddr
  obtain ⟨rfl, rfl, rfl⟩ := haddr
  exact ⟨t, ht, rfl⟩

theorem map.of_chosen (hc : Chosen desired_addr flags) (hhigh : desired_addr > KERNEL_VMB)
    {t : vmm Globals} (ht : map_pages kmalloc_aligned fuel s.pdir_current desired_addr
      (MEM_VIRT_TO_PHYS desired_addr) length (perm.setWidth 8) s = ok t) :
    map fuel desired_addr length perm flags s =
      ok (desired_addr, swap_page_directory t.pdir_current t) := by
  unfold map
  simp only [map_addresses, hc.backed, hc.region, hc.address, decide_true, decide_not, decide_false,
    Bool.not_false, if_true, if_false, assert_ok _ hhigh, bind_ok, ht]

/-- What a call for reserved frames leaves. -/
structure Backed (s s' : vmm Globals) : Prop where
  sound : s'.Sound HeapInWindow HeapFree
  marks : pmm.OnlyMarks s.heap.kernel_pmm s'.heap.kernel_pmm
  entered : ∀ f, Enters s s' f → s.heap.kernel_pmm.Used f

theorem map.backed_by (hs : s.Sound HeapInWindow HeapFree) (hc : Chosen desired_addr flags)
    (hused : s.Reserved desired_addr length)
    (h : map fuel desired_addr length perm flags s = ok (r, s')) : Backed s s' := by
  obtain ⟨t, ht, rfl⟩ := map.chosen hc h
  obtain ⟨-, hw, -⟩ := map_pages.wrote kmalloc_aligned.fresh_pages hs ht
  have hmarks : pmm.OnlyMarks s.heap.kernel_pmm t.heap.kernel_pmm := edit_keeps_frames.map_pages ht
  refine ⟨swap_sound hw.sound, hmarks, fun f hf => ?_⟩
  obtain ⟨j, hj, rfl⟩ := Enters.of_turn hs hw hf
  exact hused j hj

/-- In early boot a call owns its frames if and only if they were reserved. -/
theorem map.owns_iff (hs : s.Sound HeapInWindow HeapFree) (hmode : s.heap.currentMode = .EarlyBoot)
    (hperm : perm &&& 1 ≠ 0) (hc : Chosen desired_addr flags)
    (h : map fuel desired_addr length perm flags s = ok (r, s')) :
    (∀ f, Enters s s' f → s'.heap.kernel_pmm.Used f) ↔ s.Reserved desired_addr length := by
  obtain ⟨t, ht, rfl⟩ := map.chosen hc h
  have hpresent := perm_present hperm
  obtain ⟨-, hw, hpages⟩ := map_pages.returned kmalloc_aligned.fresh_pages hs hpresent ht
  have hsame : (swap_page_directory t.pdir_current t).heap.kernel_pmm = s.heap.kernel_pmm :=
    (edit_keeps_early.map_pages ht hmode).2
  rw [hsame]
  constructor
  · intro howns i hi
    obtain ⟨hclear, hentry⟩ := hpages i hi
    exact howns _ (Enters.of_page hs (swap_sound hw.sound) hpresent hclear hentry)
  · intro hused f hf
    obtain ⟨j, hj, rfl⟩ := Enters.of_turn hs hw hf
    exact hused j hj

/-! ## Runs of calls -/

end vmm

/-- The address space, and the frames that the calls so far have entered. -/
structure ChosenSpace where
  space : vmm Globals
  backs : Nat → Prop

inductive ChosenEvent where
  | map (desired_addr length : U64) (perm flags : U32)
  | allocate (n : U64)

/-- A call that returns. -/
inductive ChosenStep : ChosenSpace → ChosenEvent → ChosenSpace → Prop
  | map {w : ChosenSpace} {fuel : Nat} {desired_addr length r : U64} {perm flags : U32}
      {s : vmm Globals} : vmm.Chosen desired_addr flags →
      w.space.map fuel desired_addr length perm flags = ok (r, s) →
      ChosenStep w (.map desired_addr length perm flags) ⟨s, fun f => w.space.Enters s f ∨ w.backs f⟩
  | allocate {w : ChosenSpace} {fuel : Nat} {n a : U64} {p : pmm} :
      w.space.heap.kernel_pmm.allocate fuel n = ok (a, p) →
      ChosenStep w (.allocate n) ⟨w.space.withPmm p, w.backs⟩

/-- The guard of a step: a call maps frames that are used, and `allocate` is
only called where it is `Served`. No page counts as one. -/
def reserved (w : ChosenSpace) : ChosenEvent → Prop
  | .map desired_addr length _ _ => w.space.Reserved desired_addr length
  | .allocate n => w.space.heap.kernel_pmm.Served (max n.toNat 1)

/-- What every step keeps: the frames behind the mappings are used. -/
structure ChosenSpace.Kept (w : ChosenSpace) : Prop where
  sound : w.space.Sound HeapInWindow HeapFree
  ready : w.space.heap.kernel_pmm.Ready
  used : ∀ f, w.backs f → w.space.heap.kernel_pmm.Used f

theorem chosen_step {w w' : ChosenSpace} {e : ChosenEvent} (hw : w.Kept)
    (h : Guarded reserved ChosenStep w e w') : w'.Kept := by
  obtain ⟨hguard, hstep⟩ := h
  cases hstep with
  | map hc hcall =>
    have hb := vmm.map.backed_by hw.sound hc hguard hcall
    refine ⟨hb.sound, hb.marks.ready hw.ready, fun f hf => hb.marks.used hw.ready ?_⟩
    exact hf.elim (hb.entered f) (hw.used f)
  | allocate hcall =>
    have hmarks := pmm.OnlyMarks.of_allocate hcall
    exact ⟨hw.sound.withPmm _, hmarks.ready hw.ready, fun f hf => hmarks.used hw.ready (hw.used f hf)⟩

/-- A call that is served hands out no used frame. -/
theorem pmm.allocate_spares {p p' : pmm} {fuel : Nat} {n a : U64} (hp : p.Ready)
    (hserved : p.Served (max n.toNat 1)) (h : p.allocate fuel n = ok (a, p')) {f : Nat}
    (hf : p.Used f) : ¬ (frameOf a ≤ f ∧ f < frameOf a + max n.toNat 1) := by
  rintro ⟨hlow, hhigh⟩
  rcases Nat.eq_zero_or_pos n.toNat with h0 | hpos
  · obtain rfl : n = 0 := BitVec.eq_of_toNat_eq h0
    rw [allocate_zero] at h
    exact (((handsOut_iff_served hp (by decide) h).mpr (Or.inl rfl)).fresh f hlow hhigh).1.2 hf
  · rw [Nat.max_eq_left hpos] at hserved hhigh
    exact (((handsOut_iff_served hp hpos h).mpr hserved).fresh f hlow hhigh).1.2 hf

/-- Every frame behind the mappings is used, and no call of `allocate` that is
served hands it out. -/
structure ChosenSpace.Owns (w : ChosenSpace) : Prop where
  used : ∀ f, w.backs f → w.space.heap.kernel_pmm.Used f
  spared : ∀ fuel n a p, reserved w (.allocate n) →
    w.space.heap.kernel_pmm.allocate fuel n = ok (a, p) →
    ∀ f, w.backs f → ¬ (pmm.frameOf a ≤ f ∧ f < pmm.frameOf a + max n.toNat 1)

/-- In every run of calls for reserved frames, the mappings own their frames. In
early boot, a call in such a run owns the frames it enters if and only if they
were reserved. -/
theorem a_chosen_mapping_of_reserved_frames_is_spared {s : vmm Globals}
    (hs : s.Sound HeapInWindow HeapFree) (hp : s.heap.kernel_pmm.Ready) {es : List ChosenEvent}
    {w : ChosenSpace} (run : Run (Guarded reserved ChosenStep) ⟨s, fun _ => False⟩ es w) :
    w.Owns ∧ ∀ fuel desired_addr length r perm flags s', w.space.heap.currentMode = .EarlyBoot →
      perm &&& 1 ≠ 0 → vmm.Chosen desired_addr flags →
      w.space.map fuel desired_addr length perm flags = ok (r, s') →
      ((∀ f, w.space.Enters s' f → s'.heap.kernel_pmm.Used f) ↔
        reserved w (.map desired_addr length perm flags)) := by
  have hw := run.inv ChosenSpace.Kept (fun _ _ _ => chosen_step) ⟨hs, hp, fun _ hf => hf.elim⟩
  refine ⟨⟨hw.used, fun fuel n a p hserved hcall f hf => ?_⟩, ?_⟩
  · exact pmm.allocate_spares hw.ready hserved hcall (hw.used f hf)
  · intro fuel desired_addr length r perm flags s' hmode hperm hc hcall
    exact vmm.map.owns_iff hw.sound hmode hperm hc hcall

/-- A page at the second frame of the window is mapped over any PMM. -/
theorem eightSpace_chosen (p : pmm) : ∃ s', (eightSpace.withPmm p).map (2 ^ 52 + 1)
    0xffffffff80001000 0x1000 3 VMM_MAP_REGION_KERNEL = ok (0xffffffff80001000, s') := by
  have hclear : (eightSpace.withPmm p).ClearRange 0xffffffff80001000 (turns 0xffffffff80001000 0x1000) := by
    refine ⟨fun i _ => ?_, fun i hi j hj => ?_⟩
    · exact congrArg (· &&& VMM_PAGE_PRESENT) (eightSpace_entry (pageAt 0xffffffff80001000 i))
    · rw [show turns 0xffffffff80001000 0x1000 = 1 by decide] at hi
      omega
  have hends : Ends 0xffffffff80001000 0x1000 := fun _ => by decide
  have hroom : Room kmalloc_aligned (3 * turns 0xffffffff80001000 0x1000 + 0)
      (eightSpace.withPmm p).heap := vmm.room_le (by decide) (room_early_pmm rfl eightSpace_room p)
  obtain ⟨t, ht, -⟩ := vmm.map_pages.total kmalloc_aligned.fresh_pages (eightSpace_sound.withPmm p)
    hends hclear hroom (MEM_VIRT_TO_PHYS 0xffffffff80001000) 3 (Nat.lt_succ_self _)
  exact ⟨_, vmm.map.of_chosen ⟨by decide, by decide, by decide, by decide⟩ (by decide) ht⟩

/-- The frames of a call of `allocate` are mapped, and spared by the next. -/
theorem a_chosen_mapping_of_reserved_frames_is_spared_by_a_second_call : ∃ w,
    Run (Guarded reserved ChosenStep) ⟨eightSpace, fun _ => False⟩
      [.allocate 2, .map 0xffffffff80001000 0x1000 3 VMM_MAP_REGION_KERNEL] w ∧ w.Owns := by
  obtain ⟨p, hcall⟩ : ∃ p, pmm.eightFrames.allocate 4 2 = ok (0, p) := ⟨_, rfl⟩
  have hserved : pmm.eightFrames.Served 2 :=
    Or.inr ⟨0, by decide, fun f _ h => pmm.eightFrames_free f (Nat.lt_of_lt_of_le h (by decide))⟩
  have hout := (pmm.handsOut_iff_served pmm.eightFrames_ready (by decide) hcall).mpr hserved
  obtain ⟨s', hmap⟩ := eightSpace_chosen p
  have hused : (eightSpace.withPmm p).Reserved 0xffffffff80001000 0x1000 := by
    intro i hi
    obtain rfl : i = 0 := by
      rw [show turns 0xffffffff80001000 0x1000 = 1 by decide] at hi
      omega
    rw [show vmm.frameBehind 0xffffffff80001000 0 = 1 by decide]
    exact (hout.fresh 1 (by decide) (by decide)).2
  have hfirst : Guarded reserved ChosenStep ⟨eightSpace, fun _ => False⟩ (.allocate 2)
      ⟨eightSpace.withPmm p, fun _ => False⟩ := ⟨hserved, .allocate hcall⟩
  have hsecond : Guarded reserved ChosenStep ⟨eightSpace.withPmm p, fun _ => False⟩
      (.map 0xffffffff80001000 0x1000 3 VMM_MAP_REGION_KERNEL)
      ⟨s', fun f => (eightSpace.withPmm p).Enters s' f ∨ False⟩ :=
    ⟨hused, .map ⟨by decide, by decide, by decide, by decide⟩ hmap⟩
  have run := (Run.single hfirst).snoc hsecond
  exact ⟨_, run, (a_chosen_mapping_of_reserved_frames_is_spared eightSpace_sound pmm.eightFrames_ready
    run).1⟩

/-- A free frame is mapped at its place in the window, and the next call of
`allocate` hands it out. -/
theorem a_chosen_mapping_is_handed_out : ∃ w,
    Run ChosenStep ⟨eightSpace, fun _ => False⟩
      [.map 0xffffffff80001000 0x1000 3 VMM_MAP_REGION_KERNEL] w ∧
      w.backs 1 ∧ ¬ w.space.heap.kernel_pmm.Used 1 ∧
      ∃ a p, w.space.heap.kernel_pmm.allocate 4 2 = ok (a, p) ∧ pmm.frameOf a ≤ 1 ∧
        1 < pmm.frameOf a + 2 := by
  have hchosen : vmm.Chosen 0xffffffff80001000 VMM_MAP_REGION_KERNEL :=
    ⟨by decide, by decide, by decide, by decide⟩
  obtain ⟨s', hmap⟩ : ∃ s', eightSpace.map (2 ^ 52 + 1) 0xffffffff80001000 0x1000 3
    VMM_MAP_REGION_KERNEL = ok (0xffffffff80001000, s') := eightSpace_chosen pmm.eightFrames
  obtain ⟨t, ht, hs'⟩ := vmm.map.chosen hchosen hmap
  have hsame : s'.heap.kernel_pmm = pmm.eightFrames := by
    rw [hs']
    exact (vmm.edit_keeps_early.map_pages ht rfl).2
  obtain ⟨-, hw, hpages⟩ := vmm.map_pages.returned kmalloc_aligned.fresh_pages eightSpace_sound
    (vmm.perm_present (by decide)) ht
  obtain ⟨hclear, hentry⟩ := hpages 0 (by decide)
  have hentered : eightSpace.Enters s' 1 := by
    rw [hs']
    exact vmm.Enters.of_page eightSpace_sound (vmm.swap_sound hw.sound) (vmm.perm_present (by decide))
      hclear hentry
  refine ⟨⟨s', fun f => eightSpace.Enters s' f ∨ False⟩, .single (.map hchosen hmap), Or.inl hentered,
    ?_, ?_⟩
  · show ¬ s'.heap.kernel_pmm.Used 1
    rw [hsame]
    exact (pmm.eightFrames_free 1 (by decide)).2
  · obtain ⟨p, hcall⟩ : ∃ p, pmm.eightFrames.allocate 4 2 = ok (0, p) := ⟨_, rfl⟩
    refine ⟨0, p, ?_, by decide, by decide⟩
    show s'.heap.kernel_pmm.allocate 4 2 = ok (0, p)
    rw [hsame]
    exact hcall

end lobo
