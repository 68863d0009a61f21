-- Walks and loops that return. A walk through tables that are all there leaves
-- everything as it was, and one that makes tables needs a page of the heap for
-- each of the three at most.
import CanidaeOS.VmmLoops

open Program Machine Outcome Paging RadixTree

namespace lobo

/-- The heap has `n` more pages. -/
def Room {H : Type} (kmalloc_aligned : U64 → U64 → H → Outcome Stop (U64 × H)) : Nat → H → Prop
  | 0, _ => True
  | n + 1, h => ∃ a h', kmalloc_aligned PAGE_SIZE 0x1000 h = ok (a, h') ∧ Room kmalloc_aligned n h'

namespace vmm

variable {H : Type} {kmalloc_aligned : U64 → U64 → H → Outcome Stop (U64 × H)} {Inv : H → Prop}
  {Free : H → Page → Prop} {s s' : vmm H}

theorem room_le {n m : Nat} {h : H} (hnm : n ≤ m) (hroom : Room kmalloc_aligned m h) :
    Room kmalloc_aligned n h := by
  induction n generalizing m h with
  | zero => exact trivial
  | succ n ih =>
    obtain ⟨m, rfl⟩ : ∃ k, m = k + 1 := ⟨m - 1, by omega⟩
    obtain ⟨a, h', hcall, hrest⟩ := hroom
    exact ⟨a, h', hcall, ih (by omega) hrest⟩

/-! ## Tables that are there -/

theorem find_page_table.found (hs : Sound Inv Free s) {p : List Index} {t b : Page}
    (ht : s.table p = some t) (hp : p.length < 3) {i : Index} (hb : s.table (p ++ [i]) = some b)
    (create : Bool) :
    find_page_table kmalloc_aligned (pageAddr t) (i.setWidth 64) create s = ok (pageAddr b, s) := by
  rw [table, descend_snoc, ← table, ht, Option.bind_some] at hb
  rcases hs.inner ht hp i with hzero | hlink
  · rw [hzero, named_zero] at hb
    cases hb
  have hne : cells s.mem t i ≠ 0 := by
    intro hzero
    rw [hzero, named_zero] at hb
    cases hb
  rw [named, if_neg hne] at hb
  have hpage : MEM_PHYS_TO_VIRT (VMM_PAGE_ENTRY_ADDR (cells s.mem t i)) = pageAddr b := by
    rw [← Option.some.inj hb, pageAddr_pageOf hlink.aligned]
  rw [← hpage]
  rw [cells] at hne
  unfold find_page_table
  simp only [if_neg hne]
  rfl

/-- A table at the end of a way has tables before it. -/
theorem tables_before {a : U64} {t : Page} (ht : s.table (path a) = some t) :
    ∃ p3 p2, s.table ([] ++ [a.extractLsb' 39 9]) = some p3 ∧
      s.table ([a.extractLsb' 39 9] ++ [a.extractLsb' 30 9]) = some p2 := by
  have hsnoc : path a = ([a.extractLsb' 39 9] ++ [a.extractLsb' 30 9]) ++ [a.extractLsb' 21 9] := rfl
  rw [hsnoc, table, descend_snoc] at ht
  obtain ⟨p2, h2, -⟩ := Option.bind_eq_some_iff.mp ht
  have h3 := h2
  rw [descend_snoc] at h3
  obtain ⟨p3, h3, -⟩ := Option.bind_eq_some_iff.mp h3
  exact ⟨p3, p2, h3, h2⟩

/-- No table below the directory is at address 0. -/
theorem child_ne_zero (hs : Sound Inv Free s) {p : List Index} {u b : Page} {i : Index}
    (hu : s.table p = some u) (hp : p.length < 3) (hb : s.table (p ++ [i]) = some b) :
    pageAddr b ≠ 0 := by
  intro hzero
  rw [table, descend_snoc, ← table, hu, Option.bind_some] at hb
  have hne : cells s.mem u i ≠ 0 := by
    intro h0
    rw [h0, named_zero] at hb
    cases hb
  have hlink := (hs.inner hu hp i).resolve_left hne
  rw [named, if_neg hne] at hb
  have hpage := hlink.window
  rw [← pageAddr_pageOf hlink.aligned, Option.some.inj hb, hzero] at hpage
  exact absurd hpage (by decide)

theorem table_ne_zero (hs : Sound Inv Free s) {a : U64} {t : Page} (ht : s.table (path a) = some t) :
    pageAddr t ≠ 0 := by
  obtain ⟨p3, p2, -, h2⟩ := tables_before ht
  exact child_ne_zero hs h2 (by simp) ht

/-- A walk through tables that are there. -/
theorem find_page_entry.found (hs : Sound Inv Free s) {a : U64} {t : Page}
    (ht : s.table (path a) = some t) (create : Bool) :
    find_page_entry kmalloc_aligned s.pdir_current a create s =
      ok (slot (pageAddr t) ((last a).setWidth 64), s) := by
  obtain ⟨p3, p2, h3, h2⟩ := tables_before ht
  have htop : s.table [] = some (pageOf s.pdir_current) := rfl
  simp only [find_page_entry, index_eq]
  have hfirst := @find_page_table.found _ kmalloc_aligned _ _ _ hs _ _ _ htop (by decide) _ h3 create
  rw [pageAddr_pageOf hs.top] at hfirst
  rw [hfirst, bind_ok, if_neg (child_ne_zero hs htop (by simp) h3),
    find_page_table.found hs h3 (by simp) h2 create, bind_ok, if_neg (child_ne_zero hs h3 (by simp) h2),
    find_page_table.found hs h2 (by simp) ht create, bind_ok, if_neg (child_ne_zero hs h2 (by simp) ht)]
  rfl

/-- A page whose tables are there is unmapped without the heap. -/
theorem unmap_page.found (hs : Sound Inv Free s) {a : U64} (h : (s.table (path a)).isSome) :
    ∃ s', unmap_page kmalloc_aligned s.pdir_current a s = ok s' ∧
      Wrote Inv Free s s' a VMM_PAGE_WRITE ∧ s'.heap = s.heap ∧
      ∀ q, q.length ≤ 3 → s'.table q = s.table q := by
  obtain ⟨b, hb⟩ := Option.isSome_iff_exists.mp h
  have hwrote := hs.wrote (Grown.refl s) hb VMM_PAGE_WRITE
  have hsame := (hs.tree.store (fun _ => Inner.seen) hb VMM_PAGE_WRITE).2.1
  have hne : slot (pageAddr b) ((last a).setWidth 64) ≠ 0 := slot_ne_zero (table_ne_zero hs hb) _
  unfold unmap_page
  rw [find_page_entry.found hs hb, bind_ok]
  simp only [if_neg hne]
  exact ⟨_, rfl, hwrote, rfl, hsame⟩

/-- So is a range. -/
theorem unmap_pages.found (hs : Sound Inv Free s) {v size : U64} (hends : Ends v size)
    (h : ∀ i < turns v size, (s.table (path (pageAt v i))).isSome) {fuel : Nat} (hfuel : 2 ^ 52 < fuel) :
    ∃ s', unmap_pages kmalloc_aligned fuel s.pdir_current v size s = ok s' ∧
      WroteRange Inv Free s s' v (fun _ => VMM_PAGE_WRITE) (turns v size) ∧ s'.heap = s.heap ∧
      ∀ q, q.length ≤ 3 → s'.table q = s.table q := by
  have hturn : ∀ i t, i < turns v size →
      (WroteRange Inv Free s t v (fun _ => VMM_PAGE_WRITE) i ∧ t.heap = s.heap ∧
        ∀ q, q.length ≤ 3 → t.table q = s.table q) →
      ∃ t', unmap_page kmalloc_aligned s.pdir_current (pageAt v i) t = ok t' ∧
        WroteRange Inv Free s t' v (fun _ => VMM_PAGE_WRITE) (i + 1) ∧ t'.heap = s.heap ∧
        ∀ q, q.length ≤ 3 → t'.table q = s.table q := by
    rintro i t hi ⟨ht, hheap, htables⟩
    have htable : (t.table (path (pageAt v i))).isSome := by
      rw [htables _ (path_length _).le]
      exact h i hi
    obtain ⟨t', ht', hw, hheap', htables'⟩ := @unmap_page.found _ kmalloc_aligned _ _ _ ht.sound _ htable
    rw [ht.pdir] at ht'
    exact ⟨t', ht', ht.succ hw, hheap'.trans hheap, fun q hq => (htables' q hq).trans (htables q hq)⟩
  unfold unmap_pages
  rw [forStep_turns hends hfuel]
  exact forRange_ok (s := s) _ hturn ⟨WroteRange.refl hs v _, rfl, fun _ _ => rfl⟩

/-! ## Tables that are made -/

theorem find_page_table.total {n : Nat} (hroom : Room kmalloc_aligned (n + 1) s.heap)
    (pt index : U64) : ∃ a s', find_page_table kmalloc_aligned pt index true s = ok (a, s') ∧
      Room kmalloc_aligned n s'.heap := by
  unfold find_page_table
  by_cases hzero : load64 s.mem (slot pt index) = 0
  · obtain ⟨a, h', hcall, hrest⟩ := hroom
    simp only [hzero, hcall, if_true, Bool.true_eq_false, if_false, bind_ok]
    exact ⟨_, _, rfl, hrest⟩
  · simp only [hzero, if_false]
    exact ⟨_, _, rfl, room_le (Nat.le_succ n) hroom⟩

theorem find_page_entry.total {n : Nat} (hroom : Room kmalloc_aligned (n + 3) s.heap)
    (p4 a : U64) : ∃ e s', find_page_entry kmalloc_aligned p4 a true s = ok (e, s') ∧
      Room kmalloc_aligned n s'.heap := by
  unfold find_page_entry
  obtain ⟨p3, s₁, h3, hr₁⟩ := find_page_table.total hroom p4 ((a >>> 39) &&& 511)
  simp only [h3, bind_ok]
  split
  · exact ⟨_, _, rfl, room_le (by omega) hr₁⟩
  obtain ⟨p2, s₂, h2, hr₂⟩ := find_page_table.total hr₁ p3 ((a >>> 30) &&& 511)
  simp only [h2, bind_ok]
  split
  · exact ⟨_, _, rfl, room_le (by omega) hr₂⟩
  obtain ⟨p1, s₃, h1, hr₃⟩ := find_page_table.total hr₂ p2 ((a >>> 21) &&& 511)
  simp only [h1, bind_ok]
  split
  · exact ⟨_, _, rfl, hr₃⟩
  · exact ⟨_, _, rfl, hr₃⟩

theorem map_page.total (hk : FreshPages kmalloc_aligned Inv Free) (hs : Sound Inv Free s) {n : Nat}
    (hroom : Room kmalloc_aligned (n + 3) s.heap) {a : U64} (p_addr : U64) (flags : U8)
    (hclear : s.entryOf a &&& VMM_PAGE_PRESENT = 0) :
    ∃ w, map_page kmalloc_aligned s.pdir_current flags a (p_addr, s) = ok w ∧
      Room kmalloc_aligned n w.2.heap := by
  obtain ⟨e, s₁, hwalk, hroom₁⟩ := find_page_entry.total hroom s.pdir_current a
  obtain ⟨hne, -, hg, b, rfl, hb⟩ := (find_page_entry.spec hk hs a).of_value hwalk
  have hread : load64 s₁.mem (slot (pageAddr b) ((last a).setWidth 64)) = s.entryOf a :=
    (entryAt_some hb).symm.trans (hg.entry _ _ (path_length a))
  unfold map_page
  simp only [hwalk, bind_ok, if_neg hne, hread, hclear, ne_eq, not_true_eq_false, if_false]
  exact ⟨_, rfl, hroom₁⟩

/-- A range of pages that are not mapped, each with a way of its own. -/
structure ClearRange (s : vmm H) (v : U64) (n : Nat) : Prop where
  clear : ∀ i < n, s.entryOf (pageAt v i) &&& VMM_PAGE_PRESENT = 0
  apart : ∀ i < n, ∀ j < i, way (pageAt v i) ≠ way (pageAt v j)

theorem map_pages.total (hk : FreshPages kmalloc_aligned Inv Free) (hs : Sound Inv Free s)
    {v size : U64} (hends : Ends v size) (hclear : s.ClearRange v (turns v size)) {n : Nat}
    (hroom : Room kmalloc_aligned (3 * turns v size + n) s.heap) (p : U64) (flags : U8) {fuel : Nat}
    (hfuel : 2 ^ 52 < fuel) :
    ∃ s', map_pages kmalloc_aligned fuel s.pdir_current v p size flags s = ok s' ∧
      Room kmalloc_aligned n s'.heap := by
  have hturn : ∀ i (w : U64 × vmm H), i < turns v size → (w.1 = pageAt p i ∧
      WroteRange Inv Free s w.2 v (mappedEntry p flags) i ∧
      Room kmalloc_aligned (3 * (turns v size - i) + n) w.2.heap) →
      ∃ w', map_page kmalloc_aligned s.pdir_current flags (pageAt v i) w = ok w' ∧
        w'.1 = pageAt p (i + 1) ∧ WroteRange Inv Free s w'.2 v (mappedEntry p flags) (i + 1) ∧
        Room kmalloc_aligned (3 * (turns v size - (i + 1)) + n) w'.2.heap := by
    rintro i ⟨q, t⟩ hi ⟨rfl, ht, hr⟩
    dsimp only at ht hr ⊢
    rw [show 3 * (turns v size - i) + n = 3 * (turns v size - (i + 1)) + n + 3 by omega] at hr
    have hempty : t.entryOf (pageAt v i) &&& VMM_PAGE_PRESENT = 0 := by
      rw [ht.rest _ fun j hj => hclear.apart i hi j hj]
      exact hclear.clear i hi
    obtain ⟨w, hw, hr'⟩ := map_page.total hk ht.sound hr (pageAt p i) flags hempty
    have hspec := (map_page.wrote hk ht.sound (pageAt v i) (pageAt p i) flags).of_value hw
    rw [ht.pdir] at hw
    exact ⟨w, hw, hspec.1.trans (pageAt_succ p i).symm, ht.succ hspec.2.2, hr'⟩
  obtain ⟨w, hw, -, -, hleft⟩ := forRange_ok (s := (p, s)) _ hturn
    ⟨(pageAt_zero p).symm, WroteRange.refl hs v _, hroom⟩
  unfold map_pages
  rw [forStep_turns hends hfuel, hw, bind_ok]
  exact ⟨_, rfl, room_le (Nat.le_add_left _ _) hleft⟩

end vmm

/-- In early boot the heap has the pages below its limit. -/
theorem room_early {n : Nat} {g : Globals} (hmode : g.currentMode = .EarlyBoot)
    (hfit : alignedUp g.earlyAllocBase.toNat 0x1000 + n * 0x1000 ≤ g.earlyAllocLimit.toNat) :
    Room kmalloc_aligned n g := by
  have hsize : PAGE_SIZE.toNat = 0x1000 := rfl
  have halign : (0x1000 : U64).toNat = 0x1000 := rfl
  induction n generalizing g with
  | zero => exact trivial
  | succ n ih =>
    obtain ⟨⟨a, g'⟩, hcall⟩ := @kmalloc_aligned.total g PAGE_SIZE 0x1000 hmode (by decide)
      (by rw [hsize, halign]; omega)
    have halloc := kmalloc_aligned.spec hcall
    have hlimit := g.earlyAllocLimit.isLt
    have hw : NoWrap g PAGE_SIZE 0x1000 := by
      unfold NoWrap
      rw [hsize, halign]
      omega
    obtain ⟨-, hend⟩ := halloc.exact hw
    have hblock : a.toNat = alignedUp g.earlyAllocBase.toNat 0x1000 := by
      rw [halloc.block_eq, halign]
      exact Nat.mod_eq_of_lt (by omega)
    have hpage := (alignedUp_page g.earlyAllocBase.toNat).1
    refine ⟨a, g', hcall, ih (halloc.mode_eq.trans hmode) ?_⟩
    have hup : alignedUp g'.earlyAllocBase.toNat 0x1000 = g'.earlyAllocBase.toNat := by
      unfold alignedUp
      rw [if_neg]
      omega
    rw [hup, halloc.limit_eq]
    omega

/-- The PMM has no part in it. -/
theorem room_early_pmm {n : Nat} {g : Globals} (hmode : g.currentMode = .EarlyBoot)
    (hroom : Room kmalloc_aligned n g) (p : pmm) :
    Room kmalloc_aligned n { g with kernel_pmm := p } := by
  induction n generalizing g with
  | zero => exact trivial
  | succ n ih =>
    obtain ⟨a, g', hcall, hrest⟩ := hroom
    have hmode' := (kmalloc_aligned.spec hcall).mode_eq.trans hmode
    refine ⟨a, { g' with kernel_pmm := p }, ?_, ih hmode' hrest⟩
    have hne : (0x1000 : U64) ≠ 0 := by decide
    rw [kmalloc_aligned.early hmode hne] at hcall
    refine Eq.trans (kmalloc_aligned.early hmode hne) ?_
    split at hcall
    · cases hcall
    · rename_i hle
      cases hcall
      exact if_neg hle

end lobo
