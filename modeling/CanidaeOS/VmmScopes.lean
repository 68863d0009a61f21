-- A mapping that lives as long as its scope (`memmap.h`). The destructor unmaps
-- what the constructor mapped, so every address is translated as before, but
-- the frames stay used: its branch for RAM-backed memory is empty.
import CanidaeOS.VmmFrames

open Program Machine Outcome Paging RadixTree Runs

namespace lobo

/-! ## The code -/

structure memmap where
  m_ram_backed : Bool
  addr : U64
  sz : U64

namespace memmap

/-- Allocate some physically backed memory that is `size` long. -/
def construct (fuel : Nat) (size : U64) (perm flags : U32) (s : vmm Globals) :
    Outcome Stop (memmap × vmm Globals) := do
  let (virt_addr, s) ← s.map fuel 0 size perm flags
  ok ({ m_ram_backed := true, addr := virt_addr, sz := size }, s)

/-- Allocate some physically backed memory at `address` that is `size` long. -/
def construct_at (fuel : Nat) (address size : U64) (perm flags : U32) (s : vmm Globals) :
    Outcome Stop (memmap × vmm Globals) := do
  let (virt_addr, s) ← s.map fuel address size perm flags
  ok ({ m_ram_backed := true, addr := virt_addr, sz := size }, s)

/-- Map `p_addr` to `v_addr`. -/
def construct_direct (fuel : Nat) (p_addr v_addr size : U64) (perm flags : U32) (s : vmm Globals) :
    Outcome Stop (memmap × vmm Globals) := do
  let (_, s) ← vmm.map_direct kmalloc_aligned fuel v_addr p_addr size perm flags s
  ok ({ m_ram_backed := false, addr := v_addr, sz := size }, s)

/-- The branch for `m_ram_backed` does nothing. -/
def destruct (fuel : Nat) (m : memmap) (s : vmm Globals) : Outcome Stop (vmm Globals) := do
  let s := if m.m_ram_backed = true then s else s
  let (_, s) ← vmm.unmap kmalloc_aligned fuel m.addr m.sz s
  ok s

end memmap

/-! ## Frames that a call takes -/

namespace pmm

variable {p p' : pmm} {n idx a : U64} {fuel : Nat}

/-- A turn that returns a run has taken its second frame, as the counters name
it. -/
theorem allocateTurn_takes (hp : p.Ready) (hn : n.toNat < 2 ^ 52) (hn1 : 1 < n.toNat)
    (h : p.allocateTurn fuel n idx = ok (.leave (a, p'))) : ∃ f, p.Takes p' f := by
  obtain ⟨hlt, -, -, hcases⟩ := allocateTurn_left h
  obtain ⟨-, hb, hq⟩ := hcases.resolve_left fun hsingle => absurd hsingle.1 (Nat.not_le.mpr hn1)
  have hidx : idx.toNat < p.m_numPages.toNat := hlt
  have hN := hp.pages
  have hsucc := index_succ hp hlt
  have hsum : (idx + n).toNat = idx.toNat + n.toNat := by
    rw [BitVec.toNat_add, Nat.mod_eq_of_lt (by omega)]
  have hcheck := check_free hp hb
  have hmark := mark.spec hp hq
  rw [BitVec.toNat_setWidth, hsucc, hsum] at hcheck
  rw [BitVec.toNat_setWidth, hsum] at hmark
  have hlow := Nat.mod_le (idx.toNat + 1) (2 ^ 32)
  -- the look-ahead ended, so the end of the run fits its counter
  obtain ⟨hend, hrest⟩ := hcheck.resolve_left (by omega)
  refine ⟨(idx.toNat + 1) % 2 ^ 20, hrest _ hlow (by omega), ?_⟩
  refine (hmark.used _).mpr (Or.inr ⟨idx.toNat + 1, ?_, by omega, rfl⟩)
  exact (Nat.mod_le idx.toNat (2 ^ 32)).trans (Nat.le_succ _)

/-- Every call that returns has taken a frame. -/
theorem allocate_takes (hp : p.Ready) (hn : n.toNat < 2 ^ 52) (h : p.allocate fuel n = ok (a, p')) :
    ∃ f, p.Takes p' f := by
  by_cases hn1 : n.toNat ≤ 1
  · obtain ⟨idx, -, hfound⟩ := allocate.spec hp h
    exact ⟨idx, hfound.free, ((hfound.single hn1).used idx).mpr (Or.inl rfl)⟩
  · exact loop_inv (I := fun _ => True) (Q := fun r : U64 × pmm => ∃ f, p.Takes r.2 f)
      (fun _ _ _ _ => trivial)
      (fun _ _ _ hturn => allocateTurn_takes hp hn (Nat.lt_of_not_le hn1) hturn) trivial h

/-- The frames that are free. -/
def freeFrames (p : pmm) : Finset Nat := (Finset.range p.m_numPages.toNat).filter fun f => ¬ p.Used f

theorem mem_freeFrames {f : Nat} : f ∈ p.freeFrames ↔ p.Free f := by
  rw [freeFrames, Finset.mem_filter, Finset.mem_range, Free]

/-- A frame that is taken, and none given back: there are fewer. -/
theorem freeFrames_lt (h : OnlyMarks p p') (hp : p.Ready) {f : Nat} (hf : p.Takes p' f) :
    p'.freeFrames.card < p.freeFrames.card := by
  refine Finset.card_lt_card (Finset.ssubset_iff_of_subset ?_ |>.mpr ⟨f, ?_, ?_⟩)
  · intro g hg
    exact mem_freeFrames.mpr (h.not_free hp (mem_freeFrames.mp hg))
  · exact mem_freeFrames.mpr hf.1
  · exact fun hfree => (mem_freeFrames.mp hfree).2 hf.2

end pmm

/-! ## One scope -/

/-- The free frames, and the translation of every address, are as they were. -/
structure vmm.GivesBack (s s' : vmm Globals) : Prop where
  frames : ∀ f, s'.heap.kernel_pmm.Free f ↔ s.heap.kernel_pmm.Free f
  translates : ∀ x, s'.translate x = s.translate x

namespace memmap

variable {fuel fuel' : Nat} {size : U64} {perm : U32} {m : memmap} {s s₁ s₂ : vmm Globals}

/-- What a constructor that returns has called. -/
theorem construct.returned (h : construct fuel size perm VMM_MAP_REGION_KERNEL s = ok (m, s₁)) :
    ∃ a p t, s.heap.kernel_pmm.allocate fuel (size / 0x1000) = ok (a, p) ∧
      vmm.map_pages kmalloc_aligned fuel s.pdir_current (MEM_PHYS_TO_VIRT a) a size (perm.setWidth 8)
        (s.withPmm p) = ok t ∧
      m = ⟨true, MEM_PHYS_TO_VIRT a, size⟩ ∧ s₁ = vmm.swap_page_directory t.pdir_current t := by
  obtain ⟨⟨r, u⟩, hmap, h⟩ := bind_eq_ok.mp h
  rw [ok.injEq, Prod.mk.injEq] at h
  obtain ⟨rfl, rfl⟩ := h
  rw [vmm.map.asks] at hmap
  obtain ⟨⟨a, p⟩, hcall, hmap⟩ := bind_eq_ok.mp hmap
  obtain ⟨t, ht, hmap⟩ := bind_eq_ok.mp hmap
  rw [ok.injEq, Prod.mk.injEq] at hmap
  obtain ⟨rfl, rfl⟩ := hmap
  exact ⟨a, p, t, hcall, ht, rfl, rfl⟩

theorem destruct.returned (h : m.destruct fuel s₁ = ok s₂) :
    ∃ t, vmm.unmap_pages kmalloc_aligned fuel s₁.pdir_current m.addr m.sz s₁ = ok t ∧
      s₂ = vmm.swap_page_directory t.pdir_current t := by
  unfold destruct at h
  rw [ite_self] at h
  obtain ⟨⟨r, u⟩, hunmap, h⟩ := bind_eq_ok.mp h
  cases h
  exact vmm.unmap.returned hunmap

/-- The destructor returns when the loop over its pages does. -/
theorem destruct.of_pages {u : vmm Globals}
    (h : vmm.unmap_pages kmalloc_aligned fuel s.pdir_current m.addr m.sz s = ok u) :
    m.destruct fuel s = ok (vmm.swap_page_directory u.pdir_current u) := by
  unfold destruct vmm.unmap
  rw [ite_self]
  dsimp only
  rw [h]
  rfl

/-- The constructor takes a frame. -/
theorem construct.takes (hp : s.heap.kernel_pmm.Ready)
    (h : construct fuel size perm VMM_MAP_REGION_KERNEL s = ok (m, s₁)) :
    pmm.OnlyMarks s.heap.kernel_pmm s₁.heap.kernel_pmm ∧
      ∃ f, s.heap.kernel_pmm.Takes s₁.heap.kernel_pmm f := by
  obtain ⟨a, p, t, hcall, ht, -, rfl⟩ := construct.returned h
  have hn : (size / 0x1000).toNat < 2 ^ 52 := by
    have := size.isLt
    simp only [BitVec.toNat_udiv, BitVec.reduceToNat]
    omega
  obtain ⟨f, hfree, hused⟩ := pmm.allocate_takes hp hn hcall
  have hcalled := pmm.OnlyMarks.of_allocate hcall
  have hmapped : pmm.OnlyMarks p t.heap.kernel_pmm := vmm.edit_keeps_frames.map_pages ht
  exact ⟨hcalled.trans hmapped, f, hfree, hmapped.used (hcalled.ready hp) hused⟩

/-- The destructor gives none back. -/
theorem destruct.marks (h : m.destruct fuel s₁ = ok s₂) :
    pmm.OnlyMarks s₁.heap.kernel_pmm s₂.heap.kernel_pmm := by
  obtain ⟨t, ht, rfl⟩ := destruct.returned h
  have hmarks : pmm.OnlyMarks s₁.heap.kernel_pmm t.heap.kernel_pmm :=
    vmm.edit_keeps_frames.unmap_pages ht
  exact hmarks

/-- A mapping that one of the constructors made. -/
inductive Made (s : vmm Globals) : memmap → vmm Globals → Prop
  | ram {fuel : Nat} {size : U64} {perm flags : U32} {m : memmap} {s₁ : vmm Globals} :
      construct fuel size perm flags s = ok (m, s₁) → Made s m s₁
  | chosen {fuel : Nat} {address size : U64} {perm flags : U32} {m : memmap} {s₁ : vmm Globals} :
      construct_at fuel address size perm flags s = ok (m, s₁) → Made s m s₁
  | direct {fuel : Nat} {p_addr v_addr size : U64} {perm flags : U32} {m : memmap}
      {s₁ : vmm Globals} :
      construct_direct fuel p_addr v_addr size perm flags s = ok (m, s₁) → Made s m s₁

theorem construct_at.pages {address : U64} {flags : U32}
    (h : construct_at fuel address size perm flags s = ok (m, s₁)) :
    ∃ q p t, vmm.map_pages kmalloc_aligned fuel s.pdir_current m.addr q m.sz (perm.setWidth 8)
        (s.withPmm p) = ok t ∧ s₁ = vmm.swap_page_directory t.pdir_current t := by
  obtain ⟨⟨r, u⟩, hmap, h⟩ := bind_eq_ok.mp h
  rw [ok.injEq, Prod.mk.injEq] at h
  obtain ⟨rfl, rfl⟩ := h
  obtain ⟨q, t, v, haddr, hv, rfl⟩ := vmm.map.returned hmap
  obtain ⟨p, rfl⟩ := vmm.map_addresses.space haddr
  exact ⟨q, p, v, hv, rfl⟩

/-- Each has mapped the range of the object, over some PMM. -/
theorem Made.pages (h : Made s m s₁) : ∃ fuel q flags p t,
    vmm.map_pages kmalloc_aligned fuel s.pdir_current m.addr q m.sz flags (s.withPmm p) = ok t ∧
      s₁ = vmm.swap_page_directory t.pdir_current t := by
  cases h with
  | @ram fuel size perm flags _ _ hc =>
    obtain ⟨q, p, t, ht⟩ := @construct_at.pages fuel size perm m s s₁ 0 flags hc
    exact ⟨fuel, q, _, p, t, ht⟩
  | @chosen fuel address size perm flags _ _ hc =>
    obtain ⟨q, p, t, ht⟩ := construct_at.pages hc
    exact ⟨fuel, q, _, p, t, ht⟩
  | @direct fuel p_addr v_addr size perm flags _ _ hc =>
    obtain ⟨⟨r, u⟩, hmap, hc⟩ := bind_eq_ok.mp hc
    cases hc
    obtain ⟨t, ht, -, rfl⟩ := vmm.map_direct.returned hmap
    exact ⟨fuel, p_addr, _, s.heap.kernel_pmm, t, ht, rfl⟩

/-- Every scope gives its addresses back. -/
theorem destruct.translates (hs : s.Sound HeapInWindow HeapFree) (hc : Made s m s₁)
    (hd : m.destruct fuel' s₁ = ok s₂) :
    s₂.Sound HeapInWindow HeapFree ∧ ∀ x, s₂.translate x = s.translate x := by
  obtain ⟨fuel, q, flags, p, t, ht, rfl⟩ := hc.pages
  obtain ⟨u, hu, rfl⟩ := destruct.returned hd
  have hk := kmalloc_aligned.fresh_pages
  obtain ⟨-, hw, hclear⟩ := vmm.map_pages.wrote hk (hs.withPmm p) ht
  obtain ⟨-, hw'⟩ := vmm.unmap_pages.returned hk (vmm.swap_sound hw.sound) hu
  refine ⟨vmm.swap_sound hw'.sound, fun x => ?_⟩
  rw [(vmm.swap_sound hw'.sound).translate_entryOf, hs.translate_entryOf]
  by_cases hx : Reached m.addr m.sz x
  · -- a page of the range is not mapped after the scope, and was not before
    obtain ⟨i, hi, hway⟩ := hx
    obtain ⟨j, -, -, hentry⟩ := hw'.at_pages i hi x hway
    have hbefore : leaf (s.entryOf x) = none := by
      rw [vmm.entryOf_congr s hway]
      exact if_pos (hclear i hi)
    rw [hbefore]
    exact congrArg leaf hentry
  · have hother : ∀ i < turns m.addr m.sz, way x ≠ way (pageAt m.addr i) :=
      fun i hi hway => hx ⟨i, hi, hway⟩
    exact congrArg leaf ((hw'.rest x hother).trans (hw.rest x hother))

/-- A frame that the constructor took is used after the destructor. -/
theorem destruct.keeps (hp : s.heap.kernel_pmm.Ready)
    (hc : construct fuel size perm VMM_MAP_REGION_KERNEL s = ok (m, s₁))
    (hd : m.destruct fuel' s₁ = ok s₂) :
    pmm.OnlyMarks s.heap.kernel_pmm s₂.heap.kernel_pmm ∧
      ∃ f, s.heap.kernel_pmm.Takes s₂.heap.kernel_pmm f := by
  obtain ⟨hmarks, f, hfree, hused⟩ := construct.takes hp hc
  have hmarks' := destruct.marks hd
  exact ⟨hmarks.trans hmarks', f, hfree, hmarks'.used (hmarks.ready hp) hused⟩

/-- A scope keeps a frame, in every state: what it took is never all given back. -/
theorem a_scope_keeps_a_frame (hp : s.heap.kernel_pmm.Ready)
    (h : construct fuel size perm VMM_MAP_REGION_KERNEL s = ok (m, s₁)) (fuel' : Nat) :
    ¬ (m.destruct fuel' s₁).Yields s.GivesBack := by
  rintro ⟨s₂, hd, hback⟩
  obtain ⟨-, f, hfree, hused⟩ := destruct.keeps hp h hd
  exact ((hback.frames f).mpr hfree).2 hused

end memmap

/-- A scope of one page, over the empty directory and eight free frames. -/
theorem eightSpace_construct : ∃ a p t s₁,
    vmm.map_pages kmalloc_aligned (2 ^ 52 + 1) eightSpace.pdir_current KERNEL_VMB a 0x1000 3
      (eightSpace.withPmm p) = ok t ∧ s₁ = vmm.swap_page_directory t.pdir_current t ∧
    memmap.construct (2 ^ 52 + 1) 0x1000 3 VMM_MAP_REGION_KERNEL eightSpace =
      ok (⟨true, KERNEL_VMB, 0x1000⟩, s₁) := by
  obtain ⟨p, t, -, -, ht, -, hmap⟩ := @eightSpace_map 0x1000 (by decide) (fun _ => by decide) (by decide)
  refine ⟨0, p, t, _, ht, rfl, ?_⟩
  unfold memmap.construct
  rw [hmap, bind_ok]

theorem memmap.a_scope_keeps_a_frame_of_a_page : ∃ s₁,
    memmap.construct (2 ^ 52 + 1) 0x1000 3 VMM_MAP_REGION_KERNEL eightSpace =
      ok (⟨true, KERNEL_VMB, 0x1000⟩, s₁) ∧
    ∀ fuel, ¬ (memmap.destruct fuel ⟨true, KERNEL_VMB, 0x1000⟩ s₁).Yields eightSpace.GivesBack := by
  obtain ⟨-, -, -, s₁, -, -, hc⟩ := eightSpace_construct
  exact ⟨s₁, hc, memmap.a_scope_keeps_a_frame pmm.eightFrames_ready hc⟩

/-- Both calls return, and a frame is gone. -/
theorem memmap.a_page_is_not_given_back : ∃ s₁ s₂,
    memmap.construct (2 ^ 52 + 1) 0x1000 3 VMM_MAP_REGION_KERNEL eightSpace =
      ok (⟨true, KERNEL_VMB, 0x1000⟩, s₁) ∧
    memmap.destruct (2 ^ 52 + 1) ⟨true, KERNEL_VMB, 0x1000⟩ s₁ = ok s₂ ∧ ¬ eightSpace.GivesBack s₂ := by
  obtain ⟨a, p, t, s₁, ht, rfl, hc⟩ := eightSpace_construct
  obtain ⟨hends, hw, -⟩ := vmm.map_pages.wrote kmalloc_aligned.fresh_pages (eightSpace_sound.withPmm p)
    ht
  have hsound := vmm.swap_sound hw.sound
  obtain ⟨u, hu, -⟩ := @vmm.unmap_pages.found _ kmalloc_aligned _ _ _ hsound _ _ hends hw.table
    (2 ^ 52 + 1) (by omega)
  have hd := memmap.destruct.of_pages (m := ⟨true, KERNEL_VMB, 0x1000⟩) hu
  refine ⟨_, _, hc, hd, fun hback => ?_⟩
  obtain ⟨-, f, hfree, hused⟩ := memmap.destruct.keeps pmm.eightFrames_ready hc hd
  exact ((hback.frames f).mpr hfree).2 hused

/-! ## Runs of scopes -/

/-- A scope that is entered and left. The event is its size and permissions. -/
inductive ScopeStep : vmm Globals → U64 × U32 → vmm Globals → Prop
  | scope {s s₁ s₂ : vmm Globals} {fuel fuel' : Nat} {size : U64} {perm : U32} {m : memmap} :
      memmap.construct fuel size perm VMM_MAP_REGION_KERNEL s = ok (m, s₁) →
      m.destruct fuel' s₁ = ok s₂ → ScopeStep s (size, perm) s₂

/-- Scopes, one after another, use up the memory: there are no more of them
than frames that were free. Every address is translated as it was. -/
theorem scopes_use_up_the_frames {s s' : vmm Globals} {es : List (U64 × U32)}
    (hs : s.Sound HeapInWindow HeapFree) (hp : s.heap.kernel_pmm.Ready) (run : Run ScopeStep s es s') :
    es.length + s'.heap.kernel_pmm.freeFrames.card ≤ s.heap.kernel_pmm.freeFrames.card ∧
      ∀ x, s'.translate x = s.translate x := by
  have hrun := run.inv_events (fun es t => t.Sound HeapInWindow HeapFree ∧ t.heap.kernel_pmm.Ready ∧
    es.length + t.heap.kernel_pmm.freeFrames.card ≤ s.heap.kernel_pmm.freeFrames.card ∧
      ∀ x, t.translate x = s.translate x) ?_ ⟨hs, hp, by simp, fun _ => rfl⟩
  · exact hrun.2.2
  rintro es t e t' ⟨ht, htp, hcount, hsame⟩ (⟨hc, hd⟩ : ScopeStep _ _ _)
  obtain ⟨hmarks, f, hf⟩ := memmap.destruct.keeps htp hc hd
  obtain ⟨ht', hback⟩ := memmap.destruct.translates ht (.ram hc) hd
  have hfewer := pmm.freeFrames_lt hmarks htp hf
  refine ⟨ht', hmarks.ready htp, ?_, fun x => (hback x).trans (hsame x)⟩
  rw [List.length_append, List.length_singleton]
  omega

end lobo
