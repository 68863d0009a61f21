-- A commit that returns. Over a heap that is zero to its limit, the calls of a
-- commit stop only where the tables that they need take more pages than the
-- heap has, and what they leave translates as the queue says.
import CanidaeOS.AwdStale

open Program Machine Outcome Paging RadixTree

namespace awd

variable {root : Page} {m : Memory} {first : U64} {s : paging} {p : List Index} {t : Page}
  {T : Finset (List Index)}

/-! ## Calls that find room -/

/-- All that is left of the heap reads as zero, and the heap can hand it out. -/
structure Room (root : Page) (m : Memory) (first : U64) (s : paging) : Prop where
  zero : ReadsZero root m first s.alloc.heap_phys_limit
  enabled : s.alloc.alloc_enabled = true
  ready : s.alloc.Ready

theorem Room.fresh (h : Room root m first s) (n : Nat) :
    ZeroFor root m first s.alloc.heap_phys_current n := (h.zero.mono h.ready.below).zeroFor n

/-- What a later state needs to have room. -/
theorem Room.later {s' : paging} (h : Room root m first s) (hl : Later s s')
    (henabled : s'.alloc.alloc_enabled = true) : Room root m first s' := by
  refine ⟨?_, henabled, hl.ready⟩
  rw [hl.limit]
  exact h.zero

theorem createOrLoad.total (hroot : (pageAddr root).toNat < 2 ^ 32) (hs : Built root m first s)
    (hT : Opened root first s T) (hr : Room root m first s) (hp : p.length < 3)
    (ht : s.table root p = some t) {i : Index}
    (hroom : pageRounded first.toNat + 0x1000 * (insert (p ++ [i]) T).card <
      s.alloc.heap_phys_limit.toNat) :
    ∃ q s', createOrLoad (ptr t) (i.setWidth 32) s = ok (q, s') ∧ Later s s' ∧
      Room root m first s' := by
  have hpi : (p ++ [i]).length ≤ 3 := by
    rw [List.length_append]
    exact hp
  have hlow : (pageAddr t).toNat < 2 ^ 32 :=
    hs.low hroot (hr.zero.mono hr.ready.below) hp.le ht
  have hsnoc : s.table root (p ++ [i]) = named (cells s.mem t i) := by
    rw [paging.table, descend_snoc, ← paging.table, ht, Option.bind_some]
  obtain ⟨q, s', hcall, henabled⟩ : ∃ q s', createOrLoad (ptr t) (i.setWidth 32) s = ok (q, s') ∧
      s'.alloc.alloc_enabled = true := by
    by_cases hempty : cells s.mem t i = 0
    · have hnew : p ++ [i] ∉ T := by
        rw [← hT.table _ (by simp) hpi, hsnoc, hempty, named_zero]
        simp
      rw [Finset.card_insert_of_notMem hnew] at hroom
      have hnext : pageRounded s.alloc.heap_phys_current.toNat + 0x1000 <
          s.alloc.heap_phys_limit.toNat := by
        rw [hT.pages, Nat.add_assoc, ← Nat.mul_succ]
        exact hroom
      obtain ⟨b, a, hcall, -, -, -, -, henabled⟩ := malloc_page.total hr.ready hr.enabled hnext
      exact ⟨_, _, createOrLoad.created hlow hempty hcall, henabled⟩
    · have hlink : Link (cells s.mem t i) := (hs.tree.inner p t i hp ht).resolve_left hempty
      exact ⟨_, _, createOrLoad.loaded hlow hempty hlink.ptr_eq, hr.enabled⟩
  have hlater := createOrLoad.later hr.ready hcall
  exact ⟨q, s', hcall, hlater, hr.later hlater henabled⟩

theorem paging_map_page.total (hroot : (pageAddr root).toNat < 2 ^ 32) (hs : Built root m first s)
    (hT : Opened root first s T) (hr : Room root m first s) (phys virt : U64) (page_attr : U8)
    (hroom : pageRounded first.toNat + 0x1000 * (T ∪ tablesTo virt).card <
      s.alloc.heap_phys_limit.toNat) :
    ∃ s', paging_map_page (ptr root) phys virt page_attr s = ok s' ∧ Room root m first s' := by
  let T₁ := insert ([] ++ [virt.extractLsb' 39 9]) T
  let T₂ := insert ([virt.extractLsb' 39 9] ++ [virt.extractLsb' 30 9]) T₁
  have hall : T ∪ tablesTo virt =
      insert ([virt.extractLsb' 39 9, virt.extractLsb' 30 9] ++ [virt.extractLsb' 21 9]) T₂ :=
    union_tablesTo T virt
  rw [hall] at hroom
  have hle₂ : T₂.card ≤ (insert ([virt.extractLsb' 39 9, virt.extractLsb' 30 9] ++
      [virt.extractLsb' 21 9]) T₂).card := Finset.card_le_card (Finset.subset_insert _ _)
  have hle₁ : T₁.card ≤ T₂.card := Finset.card_le_card (Finset.subset_insert _ _)
  have hfit : ∀ n, n ≤ (insert ([virt.extractLsb' 39 9, virt.extractLsb' 30 9] ++
      [virt.extractLsb' 21 9]) T₂).card →
      pageRounded first.toNat + 0x1000 * n < s.alloc.heap_phys_limit.toNat := by
    intro n hn
    have := Nat.mul_le_mul_left 0x1000 hn
    omega
  obtain ⟨q₃, s₁, h₁, l₁, r₁⟩ := createOrLoad.total hroot hs hT hr (p := []) (by simp) rfl
    (hfit _ (hle₁.trans hle₂))
  obtain ⟨b₁, o₁, ⟨t₃, rfl, ht₃⟩, -⟩ :=
    createOrLoad.spec hroot hs hT hr.ready (p := []) (by simp) rfl h₁ (r₁.fresh _)
  obtain ⟨q₂, s₂, h₂, l₂, r₂⟩ := createOrLoad.total hroot b₁ o₁ r₁ (by simp) ht₃
    (by rw [l₁.limit]; exact hfit _ hle₂)
  obtain ⟨b₂, o₂, ⟨t₂, rfl, ht₂⟩, -⟩ :=
    createOrLoad.spec hroot b₁ o₁ r₁.ready (by simp) ht₃ h₂ (r₂.fresh _)
  obtain ⟨q₁, s₃, h₃, l₃, r₃⟩ := createOrLoad.total hroot b₂ o₂ r₂ (by simp) ht₂
    (by rw [l₂.limit, l₁.limit]; exact hfit _ (Nat.le_refl _))
  let entry := phys ||| page_attr.setWidth 64
  let index : Index := virt.extractLsb' 12 9
  refine ⟨{ s₃ with mem := store64 s₃.mem (entryPtr q₁ (index.setWidth 32)) entry }, ?_,
    ⟨r₃.zero, r₃.enabled, r₃.ready⟩⟩
  simp only [paging_map_page, index_eq]
  rw [show createOrLoad (ptr root) _ s = _ from h₁, bind_ok]
  dsimp only
  rw [h₂, bind_ok]
  dsimp only
  rw [h₃, bind_ok]

theorem mapPages.total (hroot : (pageAddr root).toNat < 2 ^ 32) (hs : Built root m first s)
    (hT : Opened root first s ∅) (hnone : ∀ x, s.translate root x = none) (hr : Room root m first s)
    {cs : List PageCall} (hroom : pageRounded first.toNat + 0x1000 * (tablesOf cs).card <
      s.alloc.heap_phys_limit.toNat) :
    ∃ s', mapPages (ptr root) cs s = ok s' ∧ Room root m first s' := by
  induction cs using List.reverseRecOn with
  | nil => exact ⟨s, rfl, hr⟩
  | append_singleton cs c ih =>
    rw [tablesOf_snoc] at hroom
    have hle : (tablesOf cs).card ≤ (tablesOf cs ∪ tablesTo c.virt).card :=
      Finset.card_le_card Finset.subset_union_left
    have hbefore : pageRounded first.toNat + 0x1000 * (tablesOf cs).card <
        s.alloc.heap_phys_limit.toNat := by
      have := Nat.mul_le_mul_left 0x1000 hle
      omega
    obtain ⟨u, hcalls, hu⟩ := ih hbefore
    obtain ⟨hb, ho, -⟩ := mapPages.spec hroot hr.ready hs hT hnone hcalls (hu.fresh _)
    obtain ⟨s', hcall, hs'⟩ := paging_map_page.total hroot hb ho hu c.phys c.virt c.page_attr
      (by rw [(mapPages.later hr.ready hcalls).limit]; exact hroom)
    exact ⟨s', by rw [mapPages_snoc, hcalls, bind_ok, hcall], hs'⟩

/-- A commit returns when the heap has a page for every table. -/
theorem paging_commit.total {rs : List awd_mapped_region_t} (hroot : (pageAddr root).toNat < 2 ^ 32)
    (hrs : Holds s rs) (hcounts : ∀ r ∈ rs, r.count < 2 ^ 52) {fuel : Nat} (hfuel : 2 ^ 52 < fuel)
    (hr : Room root s.mem s.alloc.heap_phys_current s)
    (hroom : pageRounded s.alloc.heap_phys_current.toNat + 0x1000 * (tablesOf (callsOf rs)).card <
      s.alloc.heap_phys_limit.toNat) :
    ∃ s', paging_commit fuel (ptr root) s = ok s' := by
  obtain ⟨hbuilt, hopened, hnone⟩ := clear.built hroot s
  obtain ⟨s', hcalls, -⟩ := mapPages.total (s := { s with mem := clear (ptr root) 512 s.mem }) hroot
    hbuilt hopened hnone ⟨hr.zero, hr.enabled, hr.ready⟩ hroom
  exact ⟨s', (paging_commit_eq hr.ready hrs hcounts hfuel (ptr root)).trans hcalls⟩

/-! ## Regions below few tables -/

/-- The pages of a region lie below one table. -/
def awd_mapped_region_t.InOneTable (r : awd_mapped_region_t) : Prop :=
  r.virt_start.toNat / 0x1000 % 512 + r.count ≤ 512

instance (r : awd_mapped_region_t) : Decidable r.InOneTable := inferInstanceAs (Decidable (_ ≤ _))

theorem tablesTo_pageAt {v : U64} {k : Nat} (h : v.toNat / 0x1000 % 512 + k < 512) :
    tablesTo (pageAt v k) = tablesTo v := by
  have hv := v.isLt
  have hat : (pageAt v k).toNat = v.toNat + k * 0x1000 := by
    rw [pageAt, BitVec.toNat_add, BitVec.toNat_mul, BitVec.toNat_ofNat]
    simp only [BitVec.reduceToNat]
    omega
  have hindex : ∀ i, i = 21 ∨ i = 30 ∨ i = 39 →
      (pageAt v k).extractLsb' i 9 = v.extractLsb' i 9 := by
    intro i hi
    apply BitVec.eq_of_toNat_eq
    rw [BitVec.extractLsb'_toNat, BitVec.extractLsb'_toNat, hat, Nat.shiftRight_eq_div_pow,
      Nat.shiftRight_eq_div_pow]
    rcases hi with rfl | rfl | rfl
    · omega
    · omega
    · omega
  unfold tablesTo path
  rw [hindex 39 (by simp), hindex 30 (by simp), hindex 21 (by simp)]

theorem tablesTo_card (v : U64) : (tablesTo v).card ≤ 3 := Finset.card_le_three

/-- Such a region needs three tables. -/
theorem awd_mapped_region_t.InOneTable.card_le {r : awd_mapped_region_t} (h : r.InOneTable) :
    (tablesOf r.calls).card ≤ 3 := by
  refine (Finset.card_le_card ?_).trans (tablesTo_card r.virt_start)
  intro p hp
  obtain ⟨c, hc, hp⟩ := mem_tablesOf.mp hp
  obtain ⟨k, hk, rfl⟩ := awd_mapped_region_t.mem_calls.mp hc
  unfold InOneTable at h
  rwa [tablesTo_pageAt (by omega)] at hp

theorem tables_card_le {rs : List awd_mapped_region_t} (h : ∀ r ∈ rs, r.InOneTable) :
    (tablesOf (callsOf rs)).card ≤ 3 * rs.length := by
  induction rs with
  | nil => exact Nat.le_refl 0
  | cons r rs ih =>
    have hr := (h r List.mem_cons_self).card_le
    have hrs := ih fun r hr => h r (List.mem_cons_of_mem _ hr)
    have hunion := Finset.card_union_le (tablesOf r.calls) (tablesOf (callsOf rs))
    rw [callsOf, List.flatMap_cons, tablesOf_append, ← callsOf, List.length_cons]
    omega

/-! ## The law -/

/-- The heap suffices for the regions: it has a page for every table that their pages
need, and all that it has left reads as zero. -/
structure Suffices (root : Page) (rs : List awd_mapped_region_t) (s : paging) : Prop where
  room : Room root s.mem s.alloc.heap_phys_current s
  tables : pageRounded s.alloc.heap_phys_current.toNat + 0x1000 * (tablesOf (callsOf rs)).card <
    s.alloc.heap_phys_limit.toNat

/-- The processor translates every canonical address as the last region that holds it
says, and no other. -/
def Translates (root : Page) (rs : List awd_mapped_region_t) (m : Memory) : Prop :=
  ∀ v, Canonical v → translate id m (pageAddr root) v = lastRegion rs v

/-- The calls that queue the regions only fill the queue. -/
theorem queue_all_holds {rs : List awd_mapped_region_t} (hlen : rs.length ≤ PAGING_QUEUE_MAX)
    (hnum : s.paging_queue_num = 0) : ∃ t, paging_queue_all rs s = ok t ∧ Queued s 0 rs t ∧ Holds t rs := by
  obtain ⟨t, ht, hq⟩ : ∃ t, paging_queue_all rs s = ok t ∧ Queued s 0 rs t :=
    paging_queue_all.spec (by rw [hnum]; rfl) (by omega)
  exact ⟨t, ht, hq, hlen, by rw [hq.num, Nat.zero_add],
    fun i h => by rw [← hq.behind i h, Nat.zero_add]⟩

/-- A commit that returns, over tables that all read as zero, leaves the translation of
the regions. -/
theorem paging_commit.translates (hroot : (pageAddr root).toNat < 2 ^ 32)
    {rs : List awd_mapped_region_t} (hrs : ∀ r ∈ rs, r.Valid) (hready : s.alloc.Ready)
    (hholds : Holds s rs) {fuel : Nat} {s' : paging} (h : paging_commit fuel (ptr root) s = ok s')
    (hzero : ReadsZero root s.mem s.alloc.heap_phys_current s'.alloc.heap_phys_current) :
    Translates root rs s'.mem := by
  intro v hv
  have hdrawn := (paging_commit.spec hroot hready hholds h (hzero.zeroFor _)).2
  have hrep := (hdrawn (pageAddr (pageOf v))).trans
    (drawn_eq_overlay hrs (pageAddr_aligned _) (canonical_page hv))
  rw [paging.translate, overlay_eq (pageAddr_aligned _), lastRegion_page hrs, translate_page] at hrep
  exact hrep

/-- When the heap suffices, the commit returns, and the processor translates every
canonical address as the last region does that was queued over it, and no other. In any
case the commit returns or stops in the heap, and when it returns and every page that
was handed out for it reads as zero, the same holds. -/
theorem the_last_queued_region_is_translated {paging_pml4 : U32}
    (hpml4 : PageAligned (paging_pml4.setWidth 64)) {fuel : Nat} (hfuel : 2 ^ 52 < fuel)
    {rs : List awd_mapped_region_t} (hlen : rs.length ≤ PAGING_QUEUE_MAX) (hrs : ∀ r ∈ rs, r.Valid)
    {s : paging} (hnum : s.paging_queue_num = 0) (hready : s.alloc.Ready) :
    (Suffices (pageOf (paging_pml4.setWidth 64)) rs s →
      (paging_queue_all rs s >>= paging_commit fuel paging_pml4).Yields fun s' =>
        Translates (pageOf (paging_pml4.setWidth 64)) rs s'.mem) ∧
    (paging_queue_all rs s >>= paging_commit fuel paging_pml4).Meets HeapStop fun s' =>
      ReadsZero (pageOf (paging_pml4.setWidth 64)) s.mem s.alloc.heap_phys_current
        s'.alloc.heap_phys_current →
      Translates (pageOf (paging_pml4.setWidth 64)) rs s'.mem := by
  have hroot := pageAddr_pageOf hpml4
  have hlow : (pageAddr (pageOf (paging_pml4.setWidth 64))).toNat < 2 ^ 32 := by
    rw [hroot, BitVec.toNat_setWidth]
    exact Nat.lt_of_le_of_lt (Nat.mod_le _ _) paging_pml4.isLt
  have hptr : ptr (pageOf (paging_pml4.setWidth 64)) = paging_pml4 := by
    rw [ptr, hroot, BitVec.setWidth_setWidth_of_le _ (by decide), BitVec.setWidth_eq]
  obtain ⟨t, ht, hq, hholds⟩ := queue_all_holds hlen hnum
  rw [ht, bind_ok]
  have hready' : t.alloc.Ready := by
    rw [hq.alloc]
    exact hready
  have hcounts : ∀ r ∈ rs, r.count < 2 ^ 52 := fun r hr => (hrs r hr).count_lt
  refine ⟨fun hsuffices => ?_, ?_⟩
  · obtain ⟨⟨hzero, henabled, -⟩, htables⟩ := hsuffices
    rw [← hq.mem, ← hq.alloc] at hzero
    rw [← hq.alloc] at henabled htables
    obtain ⟨s', hs'⟩ := paging_commit.total hlow hholds hcounts hfuel
      ⟨hzero, henabled, hready'⟩ htables
    have hlater := paging_commit.later hready' hholds hs'
    refine ⟨s', by rw [← hs', hptr], paging_commit.translates hlow hrs hready' hholds hs' ?_⟩
    exact hzero.mono (hlater.limit ▸ hlater.ready.below)
  · have hstops := mapPages.stops paging_pml4 (callsOf rs) { t with mem := clear paging_pml4 512 t.mem }
    rw [← paging_commit_eq hready' hholds hcounts hfuel] at hstops
    refine hstops.of_ok fun s' hcommit hzero => ?_
    rw [← hptr] at hcommit
    rw [← hq.mem, ← hq.alloc] at hzero
    exact paging_commit.translates hlow hrs hready' hholds hcommit hzero

/-- A heap from 2 MiB on, over memory that is zero. -/
def freshBoot : paging :=
  { paging_queue_num := 0, paging_queue := fun _ => ⟨0, 0, 0, 0, 0⟩
    alloc := alloc_init 0x200000, mem := fun _ => 0 }

/-- Two pages of the kernel's window, the second of them queued again. -/
def windowTwice : List awd_mapped_region_t :=
  [⟨0x300000, 0x301001, 0xffffffff80000000, 0xffffffff80001001, 3⟩,
    ⟨0x500000, 0x501000, 0xffffffff80001000, 0xffffffff80002000, 1⟩]

theorem windowTwice_suffices : Suffices 0x101 windowTwice freshBoot := by
  refine ⟨⟨?_, rfl, by decide, by decide⟩, ?_⟩
  · rintro f ⟨hge, hle⟩
    simp only [freshBoot, alloc_init, AWD_ALLOC_SIZE, BitVec.reduceMul, BitVec.reduceAdd,
      BitVec.reduceToNat] at hge hle
    refine ⟨by omega, ?_, fun _ _ => rfl⟩
    rintro rfl
    exact absurd hge (by decide)
  · have htables : (tablesOf (callsOf windowTwice)).card ≤ 3 * windowTwice.length :=
      tables_card_le (by decide)
    have hlength : windowTwice.length = 2 := rfl
    have hfirst : pageRounded freshBoot.alloc.heap_phys_current.toNat = 0x200000 := by decide
    have hlimit : freshBoot.alloc.heap_phys_limit.toNat = 0x240000 := by decide
    omega

/-- The page at 0xffffffff80001000 is translated as it was queued last. -/
theorem the_last_queued_region_is_translated_in_the_window : ∃ s',
    (paging_queue_all windowTwice freshBoot >>= paging_commit (2 ^ 52 + 1) 0x101000) = ok s' ∧
      Translates 0x101 windowTwice s'.mem ∧
      translate id s'.mem 0x101000 0xffffffff80000123 = some (0x300000, 3) ∧
      translate id s'.mem 0x101000 0xffffffff80001000 = some (0x500000, 1) := by
  have hpml4 : PageAligned ((0x101000 : U32).setWidth 64) := by decide
  have hvalid : ∀ r ∈ windowTwice, r.Valid := by
    intro r hr
    simp only [windowTwice, List.mem_cons, List.not_mem_nil, or_false] at hr
    rcases hr with rfl | rfl
    · exact ⟨by decide, by decide, by decide, by decide, by decide⟩
    · exact ⟨by decide, by decide, by decide, by decide, by decide⟩
  obtain ⟨s', hs', htrans⟩ := (the_last_queued_region_is_translated hpml4 (Nat.lt_succ_self _)
    (by decide) hvalid rfl ⟨by decide, by decide⟩).1 windowTwice_suffices
  refine ⟨s', hs', htrans, ?_, ?_⟩
  · exact (htrans 0xffffffff80000123 (by decide)).trans (by decide)
  · exact (htrans 0xffffffff80001000 (by decide)).trans (by decide)

/-- One page where the lower half of the canonical addresses ends. -/
def aboveLowerHalf : awd_mapped_region_t := ⟨0x400000, 0x401000, 0x800000000000, 0x800000001000, 3⟩

/-- The page of a region that the processor cannot walk shows at the canonical
page with the same indices, which no region holds. -/
theorem a_page_off_the_canonical_ones_shows_at_one :
    PageAligned aboveLowerHalf.phys_start ∧ PageAligned aboveLowerHalf.virt_start ∧
      aboveLowerHalf.virt_start ≤ aboveLowerHalf.virt_end ∧
      ∃ s', (paging_queue_all [aboveLowerHalf] freshBoot >>= paging_commit 2 0x101000) = ok s' ∧
        ReadsZero 0x101 freshBoot.mem 0x200000 s'.alloc.heap_phys_current ∧
        Canonical 0xffff800000000000 ∧ lastRegion [aboveLowerHalf] 0xffff800000000000 = none ∧
        translate id s'.mem 0x101000 0xffff800000000000 = some (0x400000, 3) := by
  have hrun : (paging_queue_all [aboveLowerHalf] freshBoot >>= paging_commit 2 0x101000).Yields
      fun s' => s'.alloc.heap_phys_current = 0x203000 ∧
        translate id s'.mem 0x101000 0xffff800000000000 = some (0x400000, 3) := by
    decide +kernel
  obtain ⟨s', hs', hcur, htr⟩ := hrun
  refine ⟨by decide, by decide, by decide, s', hs', ?_, by decide, by decide, htr⟩
  rintro f ⟨hge, hle⟩
  rw [hcur] at hle
  simp only [BitVec.ofNat_eq_ofNat, BitVec.toNat_ofNat] at hge hle
  refine ⟨by omega, ?_, fun _ _ => rfl⟩
  rintro rfl
  exact absurd hge (by decide)

end awd
