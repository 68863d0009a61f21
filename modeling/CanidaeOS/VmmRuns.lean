-- Runs of `map_direct` and `unmap`: whatever tables the calls make on the way,
-- what the processor translates is a map from pages to frames, to which the
-- one adds and from which the other takes.
import CanidaeOS.VmmTotal

open Program Machine Outcome Paging RadixTree

namespace lobo

/-! ## Calls -/

inductive VmmCall where
  | map_direct (v_addr p_addr length : U64) (perm : U8) (flags : U32)
  | unmap (address length : U64)

namespace vmm

variable {H : Type}

def call (kmalloc_aligned : U64 → U64 → H → Outcome Stop (U64 × H)) (fuel : Nat) :
    VmmCall → vmm H → Outcome Stop (vmm H)
  | .map_direct v_addr p_addr length perm flags, s => do
    let (_, s) ← map_direct kmalloc_aligned fuel v_addr p_addr length (perm.setWidth 32) flags s
    ok s
  | .unmap address length, s => do
    let (_, s) ← unmap kmalloc_aligned fuel address length s
    ok s

def calls (kmalloc_aligned : U64 → U64 → H → Outcome Stop (U64 × H)) (fuel : Nat) :
    List VmmCall → vmm H → Outcome Stop (vmm H)
  | [], s => ok s
  | c :: cs, s => call kmalloc_aligned fuel c s >>= calls kmalloc_aligned fuel cs

end vmm

/-- What a call is for. A map is refused when a page of it is mapped. -/
def VmmCall.apply : VmmCall → PageMap → Option PageMap
  | .map_direct v_addr p_addr length perm _, M =>
    M.addNew v_addr p_addr (perm.setWidth 64) (pages length)
  | .unmap address length, M => some (M.remove address (pages length))

def VmmCall.applyAll : List VmmCall → PageMap → Option PageMap
  | [], M => some M
  | c :: cs, M => (c.apply M).bind (VmmCall.applyAll cs)

/-- `n` pages that the processor walks, and that end below the top of the
address space. -/
structure CanonicalPages (v : U64) (n : Nat) : Prop where
  aligned : PageAligned v
  below : v.toNat + n * 0x1000 < 2 ^ 64
  canonical : ∀ k < n, Canonical (pageAt v k)

def VmmCall.Valid : VmmCall → Prop
  | .map_direct v_addr p_addr length perm _ =>
    CanonicalPages v_addr (pages length) ∧ PageAligned p_addr ∧
      perm.setWidth 64 &&& VMM_PAGE_PRESENT ≠ 0
  | .unmap address length => CanonicalPages address (pages length)

namespace vmm

variable {H : Type} {kmalloc_aligned : U64 → U64 → H → Outcome Stop (U64 × H)} {Inv : H → Prop}
  {Free : H → Page → Prop} {s s' : vmm H}

/-- Every page that the processor walks is translated as `M` says. -/
def Represents (s : vmm H) (M : PageMap) : Prop :=
  ∀ x, PageAligned x → Canonical x → s.translate x = M x

/-! ## One page -/

/-- The same directory, with another translation for the page at `a`. -/
structure Changed (Inv : H → Prop) (Free : H → Page → Prop) (s s' : vmm H) (a : U64)
    (l : Option (U64 × U64)) : Prop where
  sound : Sound Inv Free s'
  pdir : s'.pdir_current = s.pdir_current
  at_page : s'.translate a = l
  rest : ∀ x, PageAligned x → Canonical x → x ≠ a → s'.translate x = s.translate x

/-- A write of the entry of a page changes the translation of that page only. -/
theorem Wrote.changed {a e : U64} (h : Wrote Inv Free s s' a e) (hs : Sound Inv Free s)
    (ha : PageAligned a) (hc : Canonical a) : Changed Inv Free s s' a (leaf e) := by
  refine ⟨h.sound, h.pdir, ?_, fun x hx hcx hne => ?_⟩
  · rw [h.sound.translate_entryOf, h.at_page a rfl]
  · have hway : way x ≠ way a := by
      intro hway
      rw [way, way, Prod.mk.injEq] at hway
      exact hne (path_inj hx ha hcx hc hway.1 hway.2)
    rw [h.sound.translate_entryOf, hs.translate_entryOf, h.rest x hway]

/-- One more page of a run. -/
theorem Changed.added {M : PageMap} {v p flags : U64} {i : Nat}
    (h : Changed Inv Free s s' (pageAt v i) (some (pageAt p i, flags)))
    (hrep : s.Represents (M.add v p flags i)) (hv : PageAligned v) (hi : i < 2 ^ 52) :
    s'.Represents (M.add v p flags (i + 1)) := by
  intro x hx hcx
  rw [PageMap.add_succ M p _ hv hx hi]
  by_cases hxa : x = pageAt v i
  · rw [if_pos hxa, hxa]
    exact h.at_page
  · rw [if_neg hxa, ← hrep x hx hcx]
    exact h.rest x hx hcx hxa

theorem Changed.removed {M : PageMap} {v : U64} {i : Nat} (h : Changed Inv Free s s' (pageAt v i) none)
    (hrep : s.Represents (M.remove v i)) (hv : PageAligned v) (hi : i < 2 ^ 52) :
    s'.Represents (M.remove v (i + 1)) := by
  intro x hx hcx
  rw [PageMap.remove_succ M hv hx hi]
  by_cases hxa : x = pageAt v i
  · rw [if_pos hxa, hxa]
    exact h.at_page
  · rw [if_neg hxa, ← hrep x hx hcx]
    exact h.rest x hx hcx hxa

theorem map_page.spec (hk : FreshPages kmalloc_aligned Inv Free) (hs : Sound Inv Free s) {a : U64}
    (ha : PageAligned a) (hc : Canonical a) {p_addr : U64} (hp : PageAligned p_addr) {flags : U8}
    (hf : flags.setWidth 64 &&& VMM_PAGE_PRESENT ≠ 0) :
    (map_page kmalloc_aligned s.pdir_current flags a (p_addr, s)).Meets
      (fun e => HeapStop kmalloc_aligned Inv e ∨ e = remap ∧ s.translate a ≠ none)
      fun (p', s') => p' = p_addr + PAGE_SIZE ∧ s.translate a = none ∧
        Changed Inv Free s s' a (some (p_addr, flags.setWidth 64)) := by
  have hpresent : s.translate a = none ↔ s.entryOf a &&& VMM_PAGE_PRESENT = 0 := by
    rw [hs.translate_entryOf, leaf_eq_none]
    exact (present_iff _).symm
  have hodd : (flags.setWidth 64 : U64).toNat % 2 = 1 := by
    have := (present_iff (flags.setWidth 64)).not.mp hf
    omega
  refine (map_page.wrote hk hs a p_addr flags).mono ?_ ?_
  · rintro e (he | ⟨he, hset⟩)
    · exact Or.inl he
    · exact Or.inr ⟨he, fun hnone => hset (hpresent.mp hnone)⟩
  · rintro ⟨p', s'⟩ ⟨hp', hclear, hw⟩
    have hch := hw.changed hs ha hc
    rw [VMM_PAGE_CREATE_ENTRY, leaf_or hp (byte_flags flags) hodd] at hch
    exact ⟨hp', hpresent.mpr hclear, hch⟩

theorem unmap_page.spec (hk : FreshPages kmalloc_aligned Inv Free) (hs : Sound Inv Free s) {a : U64}
    (ha : PageAligned a) (hc : Canonical a) :
    (unmap_page kmalloc_aligned s.pdir_current a s).Meets (HeapStop kmalloc_aligned Inv)
      fun s' => Changed Inv Free s s' a none :=
  (unmap_page.wrote hk hs a).mono (fun _ he => he) fun _ hw => hw.changed hs ha hc

/-! ## Runs of pages -/

/-- The loops of `map_pages` and `unmap_pages` make one turn for each page. -/
theorem forStep_pages {σ : Type} {v length : U64} (hv : CanonicalPages v (pages length))
    {fuel : Nat} (hfuel : 2 ^ 52 < fuel) (body : U64 → σ → Outcome Stop σ) (w : σ) :
    forStep PAGE_SIZE (v + length) body fuel v w =
      forRange (pages length) (fun i => body (pageAt v i)) w := by
  have hlength := length_le length
  have hbelow := hv.below
  have hturns : turns v length = pages length := if_pos (by omega)
  rw [← hturns]
  exact forStep_turns (fun _ => hbelow) hfuel body w

theorem map_pages.spec (hk : FreshPages kmalloc_aligned Inv Free) {M : PageMap}
    (hs : Sound Inv Free s) (hM : s.Represents M) {v p size : U64}
    (hv : CanonicalPages v (pages size)) (hp : PageAligned p) {flags : U8}
    (hf : flags.setWidth 64 &&& VMM_PAGE_PRESENT ≠ 0) {fuel : Nat} (hfuel : 2 ^ 52 < fuel) :
    (map_pages kmalloc_aligned fuel s.pdir_current v p size flags s).Meets
      (fun e => HeapStop kmalloc_aligned Inv e ∨
        e = remap ∧ M.addNew v p (flags.setWidth 64) (pages size) = none)
      fun s' => Sound Inv Free s' ∧ s'.pdir_current = s.pdir_current ∧
        ∃ M', M.addNew v p (flags.setWidth 64) (pages size) = some M' ∧ s'.Represents M' := by
  have hle := pages_le size
  unfold map_pages
  rw [forStep_pages hv hfuel]
  -- after `i` turns: the next frame, and the first `i` pages added
  let I : Nat → U64 × vmm H → Prop := fun i w => w.1 = pageAt p i ∧ Sound Inv Free w.2 ∧
    w.2.pdir_current = s.pdir_current ∧ (∀ k < i, M (pageAt v k) = none) ∧
    w.2.Represents (M.add v p (flags.setWidth 64) i)
  refine Meets.bind (P := I (pages size)) ?_ ?_
  · refine forRange_meets I ?_ ?_
    · rintro i ⟨-, t⟩ hi ⟨rfl, ht, hpdir, hnone, hrep⟩
      have ha := pageAt_aligned hv.aligned i
      have hc := hv.canonical i hi
      dsimp only at ht hpdir hrep
      have hahead : t.translate (pageAt v i) = M (pageAt v i) := by
        rw [hrep _ ha hc, PageMap.add_ahead M _ _ (by omega) (Nat.le_refl i)]
      rw [← hpdir]
      refine (map_page.spec hk ht ha hc (pageAt_aligned hp i) hf).mono ?_ ?_
      · rintro e (he | ⟨he, hset⟩)
        · exact Or.inl he
        · refine Or.inr ⟨he, if_pos ⟨i, hi, ?_⟩⟩
          rw [← hahead]
          exact Option.isSome_iff_ne_none.mpr hset
      · rintro ⟨p', t'⟩ ⟨hp', hclear, hch⟩
        refine ⟨hp'.trans (pageAt_succ p i).symm, hch.sound, hch.pdir.trans hpdir, ?_, ?_⟩
        · intro k hk'
          rcases Nat.lt_succ_iff_lt_or_eq.mp hk' with h | rfl
          · exact hnone k h
          · rw [← hahead]
            exact hclear
        · exact hch.added hrep hv.aligned (by omega)
    · refine ⟨(pageAt_zero p).symm, hs, rfl, fun k hk' => absurd hk' (Nat.not_lt_zero k), ?_⟩
      rw [PageMap.add_zero]
      exact hM
  · rintro ⟨p', t⟩ ⟨-, ht, hpdir, hnone, hrep⟩
    refine Meets.ok ⟨ht, hpdir, _, if_neg ?_, hrep⟩
    rintro ⟨k, hk', hsome⟩
    rw [hnone k hk'] at hsome
    cases hsome

theorem unmap_pages.spec (hk : FreshPages kmalloc_aligned Inv Free) {M : PageMap}
    (hs : Sound Inv Free s) (hM : s.Represents M) {v size : U64}
    (hv : CanonicalPages v (pages size)) {fuel : Nat} (hfuel : 2 ^ 52 < fuel) :
    (unmap_pages kmalloc_aligned fuel s.pdir_current v size s).Meets (HeapStop kmalloc_aligned Inv)
      fun s' => Sound Inv Free s' ∧ s'.pdir_current = s.pdir_current ∧
        s'.Represents (M.remove v (pages size)) := by
  have hle := pages_le size
  unfold unmap_pages
  rw [forStep_pages hv hfuel]
  refine forRange_meets (fun i t => Sound Inv Free t ∧ t.pdir_current = s.pdir_current ∧
    t.Represents (M.remove v i)) ?_ ?_
  · rintro i t hi ⟨ht, hpdir, hrep⟩
    have ha := pageAt_aligned hv.aligned i
    have hc := hv.canonical i hi
    rw [← hpdir]
    refine (unmap_page.spec hk ht ha hc).mono (fun _ he => he) fun t' hch => ?_
    exact ⟨hch.sound, hch.pdir, hch.removed hrep hv.aligned (by omega)⟩
  · refine ⟨hs, rfl, ?_⟩
    rw [PageMap.remove_zero]
    exact hM

/-! ## Runs of calls -/

/-- How a call or a run of calls may stop: as a remap only where the map
refuses, and else in the heap. -/
def Stops (kmalloc_aligned : U64 → U64 → H → Outcome Stop (U64 × H)) (Inv : H → Prop)
    (M : Option PageMap) (e : Stop) : Prop :=
  if e = remap then M = none else HeapStop kmalloc_aligned Inv e

theorem stops_of (hk : FreshPages kmalloc_aligned Inv Free) {M : Option PageMap} {e : Stop}
    (h : HeapStop kmalloc_aligned Inv e ∨ e = remap ∧ M = none) :
    Stops kmalloc_aligned Inv M e := by
  unfold Stops
  rcases h with he | ⟨he, hM⟩
  · obtain ⟨g, hg, hcall⟩ := he
    rw [if_neg (hk.stop hg hcall)]
    exact ⟨g, hg, hcall⟩
  · rw [if_pos he]
    exact hM

theorem Stops.mono {M M' : Option PageMap} {e : Stop} (h : Stops kmalloc_aligned Inv M e)
    (hM : M = none → M' = none) : Stops kmalloc_aligned Inv M' e := by
  unfold Stops at *
  split at h
  · rename_i he
    rw [if_pos he]
    exact hM h
  · rename_i he
    rw [if_neg he]
    exact h

theorem swap_sound (hs : Sound Inv Free s) : Sound Inv Free (swap_page_directory s.pdir_current s) :=
  ⟨hs.top, hs.tree, hs.heap, hs.fresh⟩

theorem call.spec (hk : FreshPages kmalloc_aligned Inv Free) {M : PageMap}
    (hs : Sound Inv Free s) (hM : s.Represents M) {c : VmmCall} (hc : c.Valid) {fuel : Nat}
    (hfuel : 2 ^ 52 < fuel) :
    (call kmalloc_aligned fuel c s).Meets (Stops kmalloc_aligned Inv (c.apply M))
      fun s' => Sound Inv Free s' ∧ ∃ M', c.apply M = some M' ∧ s'.Represents M' := by
  have hperm : ∀ perm : U8, (perm.setWidth 32).setWidth 8 = perm := fun perm => by
    rw [BitVec.setWidth_setWidth_of_le _ (by decide), BitVec.setWidth_eq]
  cases c with
  | map_direct v_addr p_addr length perm flags =>
    obtain ⟨hv, hp, hf⟩ := hc
    simp only [call, map_direct, hperm, Outcome.bind_assoc, bind_ok]
    refine ((map_pages.spec hk hs hM hv hp hf hfuel).mono (fun e => stops_of hk) fun _ h => h).bind ?_
    rintro t ⟨ht, -, M', hM', hrep⟩
    exact Meets.ok ⟨swap_sound ht, M', hM', hrep⟩
  | unmap address length =>
    simp only [call, unmap, Outcome.bind_assoc, bind_ok]
    refine ((unmap_pages.spec hk hs hM hc hfuel).mono
      (fun e he => stops_of hk (Or.inl he)) fun _ h => h).bind ?_
    rintro t ⟨ht, -, hrep⟩
    exact Meets.ok ⟨swap_sound ht, _, rfl, hrep⟩

/-- From a sound address space on, every run of calls does to the translations
of the processor what the calls are for, and panics as a remap only where the
map refuses. -/
theorem the_page_tables_refine_the_page_map (hk : FreshPages kmalloc_aligned Inv Free)
    {fuel : Nat} (hfuel : 2 ^ 52 < fuel) {cs : List VmmCall} (hcs : ∀ c ∈ cs, c.Valid)
    {M : PageMap} (hs : Sound Inv Free s) (hM : s.Represents M) :
    (calls kmalloc_aligned fuel cs s).Meets (Stops kmalloc_aligned Inv (VmmCall.applyAll cs M))
      fun s' => Sound Inv Free s' ∧ ∃ M', VmmCall.applyAll cs M = some M' ∧ s'.Represents M' := by
  induction cs generalizing s M with
  | nil => exact Meets.ok ⟨hs, M, rfl, hM⟩
  | cons c cs ih =>
    have hc := call.spec hk hs hM (hcs c List.mem_cons_self) hfuel
    refine (hc.mono (fun e he => he.mono fun hnone => ?_) fun _ h => h).bind ?_
    · rw [VmmCall.applyAll, hnone]
      rfl
    · rintro t ⟨ht, M', hM', hrep⟩
      rw [VmmCall.applyAll, hM']
      exact ih (fun c hc => hcs c (List.mem_cons_of_mem _ hc)) ht hrep

end vmm

/-! ## The kernel's own heap -/

/-- `kmalloc_aligned` ends, and never as a remap. -/
theorem kmalloc_aligned.stops (sz : U64) (g : Globals) :
    (kmalloc_aligned sz 0x1000 g).Meets (· ≠ remap) fun _ => True := by
  have halign : (align_up g.earlyAllocBase 0x1000).Meets (· ≠ remap) fun _ => True := by
    unfold align_up
    rw [if_neg (by decide)]
    split <;> exact Meets.ok trivial
  have hmark : ∀ old new p, (mark_crossing old new p).Meets (· ≠ remap) fun _ => True := by
    intro old new p
    unfold mark_crossing
    split
    · refine Meets.bind (P := fun _ => True) ?_ fun _ _ => Meets.ok trivial
      refine (bitset.set.stops _ _).mono ?_ fun _ h => h
      rintro e (rfl | rfl) <;> decide
    · exact Meets.ok trivial
  unfold kmalloc_aligned
  split
  · refine halign.bind fun block _ => ?_
    dsimp only
    split
    · exact Meets.stop (by decide)
    · exact (hmark _ _ _).bind fun _ _ => Meets.ok trivial
  · refine halign.bind fun block _ => ?_
    dsimp only
    split
    · exact Meets.stop (by decide)
    · exact Meets.ok trivial
  · exact Meets.stop (by decide)

/-- A heap in the window whose limit leaves the last two pages of the address
space out, so that no sum of its wraps. -/
structure HeapInWindow (g : Globals) : Prop where
  window : KERNEL_VMB ≤ g.earlyAllocBase
  below : g.earlyAllocBase ≤ g.earlyAllocLimit
  limit : g.earlyAllocLimit.toNat ≤ 2 ^ 64 - 0x2000

/-- The pages ahead of the heap's position. -/
def HeapFree (g : Globals) (f : Page) : Prop := g.earlyAllocBase.toNat ≤ (pageAddr f).toNat

/-- The kernel's heap is one that the page tables can be taken from. -/
theorem kmalloc_aligned.fresh_pages : FreshPages kmalloc_aligned HeapInWindow HeapFree := by
  constructor
  case ok =>
    intro g g' a hg hcall
    have halloc := kmalloc_aligned.spec hcall
    obtain ⟨hmod, hge, hlt⟩ := alignedUp_page g.earlyAllocBase.toNat
    have hbelow : g.earlyAllocBase.toNat ≤ g.earlyAllocLimit.toNat := hg.below
    have hlimit := hg.limit
    have hwindow : KERNEL_VMB.toNat ≤ g.earlyAllocBase.toNat := hg.window
    have hsize : PAGE_SIZE.toNat = 0x1000 := rfl
    have hw : NoWrap g PAGE_SIZE 0x1000 := by
      unfold NoWrap
      rw [hsize]
      exact Nat.lt_of_lt_of_le (Nat.add_lt_add_right hlt _) (by omega)
    have hblock : a.toNat = alignedUp g.earlyAllocBase.toNat 0x1000 := by
      rw [halloc.block_eq]
      exact Nat.mod_eq_of_lt (Nat.lt_of_le_of_lt (Nat.le_add_right _ _) hw)
    obtain ⟨hba, hend⟩ := halloc.exact hw
    rw [hsize] at hend
    have ha : PageAligned a := by
      unfold PageAligned
      rw [hblock]
      exact hmod
    refine ⟨⟨?_, ?_, ?_⟩, ha, ?_, ?_, ?_, fun f hf => ?_⟩
    · rw [BitVec.le_def]
      omega
    · rw [halloc.limit_eq]
      exact halloc.base_le
    · rw [halloc.limit_eq]
      exact hlimit
    · rw [BitVec.le_def]
      omega
    · rw [HeapFree, pageAddr_pageOf ha]
      exact hba
    · rw [HeapFree, pageAddr_pageOf ha]
      omega
    · unfold HeapFree at *
      omega
  case stop =>
    intro g e _ hcall
    rcases kmalloc_aligned.stops PAGE_SIZE g with ⟨e', he, hne⟩ | ⟨r, hr, -⟩
    · rw [hcall] at he
      cases he
      exact hne
    · rw [hcall] at hr
      cases hr
  case spin =>
    intro g _ hcall
    rcases kmalloc_aligned.stops PAGE_SIZE g with ⟨e', he, -⟩ | ⟨r, hr, -⟩
    · rw [hcall] at he
      cases he
    · rw [hcall] at hr
      cases hr

/-- A heap from 1 MiB on, and an empty directory below it. -/
def emptySpace : vmm Globals :=
  { pdir_current := 0xffffffff80100000, mem := fun _ => 0, cr3 := 0x100000
    heap := kernel_early_heap 0x110000 0x120000 }

theorem emptySpace_sound : emptySpace.Sound HeapInWindow HeapFree := by
  have hzero : ∀ i, cells emptySpace.mem (pageOf emptySpace.pdir_current) i = 0 :=
    cells_zero fun _ _ => rfl
  refine ⟨by decide, Tree.blank hzero named_zero (Or.inl rfl), ⟨by decide, by decide, by decide⟩, ?_⟩
  intro p t _ hp
  obtain ⟨-, rfl⟩ := descend_blank (fun i => by rw [hzero, named_zero]) hp
  unfold HeapFree
  decide

theorem emptySpace_root (i : Index) : cells emptySpace.mem (pageOf emptySpace.pdir_current) i = 0 :=
  cells_zero (fun _ _ => rfl) i

theorem emptySpace_table (x : U64) : emptySpace.table (path x) = none := by
  rw [vmm.table, path, descend, emptySpace_root, named_zero]
  rfl

theorem emptySpace_entry (x : U64) : emptySpace.entryOf x = 0 :=
  entryAt_none (i := last x) (emptySpace_table x)

theorem emptySpace_represents : emptySpace.Represents fun _ => none := by
  intro x _ _
  rw [emptySpace_sound.translate_entryOf, emptySpace_entry, leaf_zero]

theorem emptySpace_room : Room kmalloc_aligned 15 emptySpace.heap := room_early rfl (by decide)

/-- Pages that are mapped from an empty directory, with room for `n` more tables. -/
theorem map_direct_from_empty {v length : U64} {n : Nat} (hends : Ends v length)
    (hturns : 3 * turns v length + n ≤ 15)
    (hapart : ∀ i < turns v length, ∀ j < i, way (pageAt v i) ≠ way (pageAt v j)) (p : U64)
    (perm flags : U32) : ∃ t,
      vmm.map_pages kmalloc_aligned (2 ^ 52 + 1) emptySpace.pdir_current v p length (perm.setWidth 8)
        emptySpace = ok t ∧ Room kmalloc_aligned n t.heap ∧
      vmm.map_direct kmalloc_aligned (2 ^ 52 + 1) v p length perm flags emptySpace =
        ok (v, vmm.swap_page_directory t.pdir_current t) := by
  have hclear : emptySpace.ClearRange v (turns v length) := by
    refine ⟨fun i _ => ?_, hapart⟩
    rw [emptySpace_entry]
    rfl
  have hroom : Room kmalloc_aligned (3 * turns v length + n) emptySpace.heap :=
    vmm.room_le hturns emptySpace_room
  obtain ⟨t, ht, hleft⟩ := vmm.map_pages.total kmalloc_aligned.fresh_pages emptySpace_sound hends
    hclear hroom p (perm.setWidth 8) (Nat.lt_succ_self _)
  refine ⟨t, ht, hleft, ?_⟩
  unfold vmm.map_direct
  rw [ht, bind_ok]

/-- Two pages mapped and one of them taken back, over the kernel's heap. -/
theorem the_page_tables_refine_the_page_map_from_empty : ∃ s',
    vmm.calls kmalloc_aligned (2 ^ 52 + 1)
      [.map_direct 0x400000 0x200000 0x1001 3 0, .unmap 0x401000 1] emptySpace = ok s' ∧
    s'.Sound HeapInWindow HeapFree ∧ s'.translate 0x400000 = some (0x200000, 3) ∧
    s'.translate 0x401000 = none := by
  have hends : Ends 0x400000 0x1001 := fun _ => by decide
  have hfuel : 2 ^ 52 < 2 ^ 52 + 1 := Nat.lt_succ_self _
  -- the tables of both pages are there for the second call
  obtain ⟨t, ht, -, hmap⟩ := @map_direct_from_empty 0x400000 0x1001 9 hends (by decide) (by decide)
    0x200000 3 0
  obtain ⟨-, hw, -⟩ := vmm.map_pages.wrote kmalloc_aligned.fresh_pages emptySpace_sound ht
  have hone : turns 0x401000 1 = 1 := by decide
  have htable : ∀ i < turns 0x401000 1,
      ((vmm.swap_page_directory t.pdir_current t).table (path (pageAt 0x401000 i))).isSome := by
    rw [hone]
    intro i hi
    rw [Nat.lt_one_iff.mp hi]
    exact hw.table 1 (by decide)
  obtain ⟨u, hu, -⟩ := @vmm.unmap_pages.found _ kmalloc_aligned _ _ _ (vmm.swap_sound hw.sound) _ _
    (fun _ => by decide) htable (2 ^ 52 + 1) hfuel
  have hcalls : vmm.calls kmalloc_aligned (2 ^ 52 + 1)
      [.map_direct 0x400000 0x200000 0x1001 3 0, .unmap 0x401000 1] emptySpace =
      ok (vmm.swap_page_directory u.pdir_current u) := by
    have hperm : (3 : U8).setWidth 32 = (3 : U32) := rfl
    simp only [vmm.calls, vmm.call, hperm, hmap, vmm.unmap, hu, bind_ok]
  have hvalid : ∀ c ∈ [VmmCall.map_direct 0x400000 0x200000 0x1001 3 0, .unmap 0x401000 1],
      c.Valid := by
    intro c hc
    simp only [List.mem_cons, List.not_mem_nil, or_false] at hc
    rcases hc with rfl | rfl
    · exact ⟨⟨by decide, by decide, by decide⟩, by decide, by decide⟩
    · exact ⟨by decide, by decide, by decide⟩
  obtain ⟨hsound, M, hM, hrep⟩ := (vmm.the_page_tables_refine_the_page_map
    kmalloc_aligned.fresh_pages hfuel hvalid emptySpace_sound emptySpace_represents).of_value hcalls
  have hadd : VmmCall.applyAll [.map_direct 0x400000 0x200000 0x1001 3 0, .unmap 0x401000 1]
      (fun _ => none) = some (((PageMap.add (fun _ => none) 0x400000 0x200000 3 2)).remove 0x401000 1) := by
    rw [VmmCall.applyAll, VmmCall.apply, PageMap.addNew, if_neg (by simp)]
    rfl
  rw [hadd] at hM
  cases hM
  refine ⟨_, hcalls, hsound, ?_, ?_⟩
  · rw [hrep 0x400000 (by decide) (by decide)]
    decide
  · rw [hrep 0x401000 (by decide) (by decide)]
    decide

end lobo
