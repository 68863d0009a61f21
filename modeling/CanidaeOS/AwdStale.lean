-- What the boot page tables keep of the memory before boot. A page of the heap
-- becomes a table as it is, so that a word left in it is taken as an entry:
-- by the code with its low 32 bits, by the processor with all of them.
import CanidaeOS.AwdCommit

open Program Machine Outcome Paging RadixTree

namespace awd

/-! ## Memory full of words -/

/-- Memory in which every word of page `f` is `e f`. -/
def filled (e : Page → U64) : Memory := fun x =>
  BitVec.ofNat 8 ((e (pageOf x)).toNat / 256 ^ (x.toNat % 8))

theorem cells_filled (e : Page → U64) (f : Page) (i : Index) : cells (filled e) f i = e f := by
  have hslot := slot_toNat f i
  rw [cells, ← load64_store64 (filled e) (slot (pageAddr f) (i.setWidth 64)) (e f)]
  refine load64_congr fun x hx => ?_
  have hpage : pageOf x = f := (inRange_page_iff f x).mp ((slot_inRange hx).mpr rfl)
  have hbyte : (x - slot (pageAddr f) (i.setWidth 64)).toNat = x.toNat % 8 := by
    unfold InRange at hx
    have := x.isLt
    bv_omega
  rw [filled, store64, storeBytes, if_pos hx, hpage, hbyte]

/-- The pointer that the code takes from a word. -/
theorem word_pointer {e : U64} {f : Page} (h : e.toNat % 2 ^ 32 / 4 = (pageAddr f).toNat / 4)
    (hlow : (pageAddr f).toNat < 2 ^ 32) : e.setWidth 32 &&& attribute_mask = ptr f := by
  have haddr := pageAddr_toNat f
  apply BitVec.eq_of_toNat_eq
  rw [mask_toNat, ptr_toNat hlow, BitVec.toNat_setWidth]
  omega

/-! ## A commit over words that lead out of the heap -/

/-- The next whole page of a heap with room for it. -/
theorem malloc_page.total {a : alloc} (hready : a.Ready) (henabled : a.alloc_enabled = true)
    (hroom : pageRounded a.heap_phys_current.toNat + 0x1000 < a.heap_phys_limit.toNat) :
    ∃ b a', malloc_aligned 0x1000 0x1000 a = ok (ptr b, a') ∧
      (pageAddr b).toNat = pageRounded a.heap_phys_current.toNat ∧
      a'.heap_phys_current.toNat = (pageAddr b).toNat + 0x1000 ∧ a'.Ready ∧
      a'.heap_phys_limit = a.heap_phys_limit ∧ a'.alloc_enabled = true := by
  have hbelow := hready.below
  have hlimit := hready.limit
  obtain ⟨⟨p, a'⟩, hcall⟩ : ∃ r, malloc_aligned 0x1000 0x1000 a = ok r :=
    malloc_block.total henabled (by omega) hroom
  obtain ⟨b, rfl, hge, hnear, hcur, hready', hsame⟩ := malloc_page.spec hready hcall
  refine ⟨b, a', hcall, ?_, hcur, hready', hsame, malloc_aligned.enabled hcall⟩
  have hb := pageAddr_aligned b
  unfold PageAligned at hb
  unfold pageRounded
  clear hroom hcall
  omega

variable {root outer inner : Page} {word : U64} {first : U64} {s s' : paging}

/-- The words in memory lead the code out of the heap, to `outer` and from there
to `inner`. -/
structure Words (root outer inner : Page) (word : U64) (base : U64) : Prop where
  root_low : (pageAddr root).toNat < 2 ^ 32
  outer_low : (pageAddr outer).toNat < 2 ^ 32
  inner_low : (pageAddr inner).toNat < 2 ^ 32
  apart : outer ≠ root ∧ inner ≠ root ∧ outer ≠ inner
  heap_low : base.toNat + 0x40000 ≤ 2 ^ 32
  outside : ∀ f, (f = root ∨ f = outer ∨ f = inner) →
    (pageAddr f).toNat + 0x1000 ≤ base.toNat ∨ base.toNat + 0x40000 ≤ (pageAddr f).toNat
  pointer : word.toNat % 2 ^ 32 / 4 = (pageAddr outer).toNat / 4
  marked : word.toNat % 4 ≠ 0

/-- The memory before boot. -/
def stale (outer inner : Page) (word : U64) : Memory :=
  filled fun f => if f = outer then pageAddr inner + 2 else word

/-- A commit has opened the entries `O` of the root, and has written nothing
else outside of `inner`. -/
structure Trapped (root outer inner : Page) (word : U64) (first : U64) (s : paging)
    (O : Finset Index) : Prop where
  old : ∀ f i, f ≠ root → f ≠ inner →
    cells s.mem f i = if f = outer then pageAddr inner + 2 else word
  shut : ∀ i, i ∉ O → cells s.mem root i = 0
  opened : ∀ i, i ∈ O → ∃ b, cells s.mem root i = linkTo b ∧ (pageAddr b).toNat < 2 ^ 32 ∧
    b ≠ root ∧ b ≠ outer ∧ b ≠ inner
  pages : pageRounded s.alloc.heap_phys_current.toNat = pageRounded first.toNat + 0x1000 * O.card
  ready : s.alloc.Ready
  enabled : s.alloc.alloc_enabled = true
  limit : s.alloc.heap_phys_limit.toNat = first.toNat + 0x40000

variable {O : Finset Index}

/-- A store into the root or into `inner` leaves the words where they are. -/
theorem Trapped.old_store (hs : Trapped root outer inner word first s O) {g : Page} (i : Index)
    (e : U64) (hg : g = root ∨ g = inner) (f : Page) (j : Index) (hr : f ≠ root) (hi : f ≠ inner) :
    cells (store64 s.mem (slot (pageAddr g) (i.setWidth 64)) e) f j =
      if f = outer then pageAddr inner + 2 else word := by
  rw [cells_store_ne _ _ (Or.inl ?_), hs.old f j hr hi]
  rcases hg with rfl | rfl
  · exact hr
  · exact hi

/-- The first table on the way is there, or takes a page of the heap. -/
theorem Trapped.open (hw : Words root outer inner word first)
    (hs : Trapped root outer inner word first s O) (i : Index)
    (hroom : pageRounded first.toNat + 0x1000 * (insert i O).card < first.toNat + 0x40000) :
    ∃ b s', createOrLoad (ptr root) (i.setWidth 32) s = ok (ptr b, s') ∧
      (pageAddr b).toNat < 2 ^ 32 ∧ b ≠ root ∧ b ≠ outer ∧ b ≠ inner ∧
      Trapped root outer inner word first s' (insert i O) := by
  by_cases hi : i ∈ O
  · obtain ⟨b, hentry, hlow, hr, ho, hn⟩ := hs.opened i hi
    have hlink := linkTo_link hlow
    have hnamed : pageOf (((linkTo b).setWidth 32 &&& attribute_mask).setWidth 64) = b := by
      have := named_linkTo hlow
      rw [named, if_neg hlink.ne_zero] at this
      exact Option.some.inj this
    have hptr := hlink.ptr_eq
    rw [hnamed] at hptr
    refine ⟨b, s, createOrLoad.loaded hw.root_low (hentry ▸ hlink.ne_zero) (hentry ▸ hptr), hlow, hr,
      ho, hn, ?_⟩
    rw [Finset.insert_eq_of_mem hi]
    exact hs
  · have hcard := Finset.card_insert_of_notMem hi
    have hpages := hs.pages
    have hlimit := hs.limit
    obtain ⟨b, a, hcall, haddr, hcur, hready, hsame, henabled⟩ :=
      malloc_page.total hs.ready hs.enabled (by omega)
    have hheap := hw.heap_low
    have hbase := le_pageRounded first.toNat
    have hout : ∀ f, (f = root ∨ f = outer ∨ f = inner) → b ≠ f := by
      rintro f hf rfl
      have := hw.outside b hf
      omega
    have hlow : (pageAddr b).toNat < 2 ^ 32 := by omega
    refine ⟨b, _, createOrLoad.created hw.root_low (hs.shut i hi) hcall, hlow, hout _ (Or.inl rfl),
      hout _ (Or.inr (Or.inl rfl)), hout _ (Or.inr (Or.inr rfl)), ?_⟩
    refine ⟨hs.old_store i _ (Or.inl rfl), fun j hj => ?_, fun j hj => ?_, ?_, hready, henabled, ?_⟩
    · rw [Finset.mem_insert, not_or] at hj
      rw [cells_store_ne _ _ (Or.inr hj.1)]
      exact hs.shut j hj.2
    · by_cases hji : j = i
      · rw [hji, cells_store_self]
        exact ⟨b, rfl, hlow, hout _ (Or.inl rfl), hout _ (Or.inr (Or.inl rfl)),
          hout _ (Or.inr (Or.inr rfl))⟩
      · rw [cells_store_ne _ _ (Or.inr hji)]
        exact hs.opened j ((Finset.mem_insert.mp hj).resolve_left hji)
    · show pageRounded a.heap_phys_current.toNat = _
      rw [hcur, haddr, hcard]
      have := pageRounded_mod s.alloc.heap_phys_current.toNat
      have hround := pageRounded_add this 0x1000
      rw [hround, hpages, Nat.mul_succ, ← Nat.add_assoc]
      rfl
    · show a.heap_phys_limit.toNat = _
      rw [hsame, hlimit]

/-- A call opens no more than the first table on its way, and writes its entry
into `inner`. -/
theorem Trapped.map_page (hw : Words root outer inner word first)
    (hs : Trapped root outer inner word first s O) (phys virt : U64) (page_attr : U8)
    (hroom : pageRounded first.toNat + 0x1000 * (insert (virt.extractLsb' 39 9) O).card <
      first.toNat + 0x40000) :
    ∃ s', paging_map_page (ptr root) phys virt page_attr s = ok s' ∧
      Trapped root outer inner word first s' (insert (virt.extractLsb' 39 9) O) := by
  obtain ⟨b, t, hopen, hlow, hr, ho, hi, ht⟩ := hs.open hw _ hroom
  obtain ⟨-, hir, hoi⟩ := hw.apart
  have hword : cells t.mem b (virt.extractLsb' 30 9) = word := by rw [ht.old _ _ hr hi, if_neg ho]
  have hnext : cells t.mem outer (virt.extractLsb' 21 9) = pageAddr inner + 2 := by
    rw [ht.old _ _ hw.apart.1 hoi, if_pos rfl]
  have hne : word ≠ 0 := by
    rintro rfl
    exact hw.marked rfl
  have hinner : (pageAddr inner + 2).toNat = (pageAddr inner).toNat + 2 := by
    have := hw.inner_low
    rw [BitVec.toNat_add]
    simp only [BitVec.reduceToNat]
    omega
  have haddr := pageAddr_aligned inner
  unfold PageAligned at haddr
  have hlow' := hw.inner_low
  have hne' : pageAddr inner + 2 ≠ 0 := by
    intro h0
    rw [h0] at hinner
    cases hinner
  have h2 : createOrLoad (ptr b) ((virt.extractLsb' 30 9).setWidth 32) t = ok (ptr outer, t) :=
    createOrLoad.loaded hlow (by rwa [hword])
      (by rw [hword, word_pointer hw.pointer hw.outer_low])
  have h3 : createOrLoad (ptr outer) ((virt.extractLsb' 21 9).setWidth 32) t = ok (ptr inner, t) :=
    createOrLoad.loaded hw.outer_low (by rwa [hnext])
      (by rw [hnext, word_pointer (by rw [hinner]; omega) hlow'])
  let mem := store64 t.mem (slot (pageAddr inner) ((last virt).setWidth 64))
    (phys ||| page_attr.setWidth 64)
  refine ⟨{ t with mem := mem }, ?_, ?_⟩
  · simp only [paging_map_page, index_eq, hopen, h2, h3, bind_ok, entryPtr_eq hw.inner_low]
    rfl
  · refine ⟨ht.old_store _ _ (Or.inr rfl), fun j hj => ?_, fun j hj => ?_, ht.pages, ht.ready,
      ht.enabled, ht.limit⟩
    · rw [cells_store_ne _ _ (Or.inl hir.symm)]
      exact ht.shut j hj
    · rw [cells_store_ne _ _ (Or.inl hir.symm)]
      exact ht.opened j hj

/-- The entries of the root that the calls need. -/
def topsOf : List PageCall → Finset Index
  | [] => ∅
  | c :: cs => insert (c.virt.extractLsb' 39 9) (topsOf cs)

theorem mem_topsOf {cs : List PageCall} {c : PageCall} (h : c ∈ cs) :
    c.virt.extractLsb' 39 9 ∈ topsOf cs := by
  induction cs with
  | nil => cases h
  | cons d cs ih =>
    rcases List.mem_cons.mp h with rfl | h
    · exact Finset.mem_insert_self _ _
    · exact Finset.mem_insert_of_mem (ih h)

/-- Each of these needs a table of its own. -/
theorem topsOf_card (cs : List PageCall) : (topsOf cs).card ≤ (tablesOf cs).card := by
  refine Finset.card_le_card_of_injOn (fun i => [i]) ?_ (fun i _ j _ hij => by simpa using hij)
  intro i hi
  induction cs with
  | nil => cases hi
  | cons c cs ih =>
    rw [Finset.mem_coe, tablesOf, Finset.mem_union]
    rcases Finset.mem_insert.mp hi with rfl | hi
    · exact Or.inl (by simp [tablesTo])
    · exact Or.inr (ih hi)

theorem Trapped.mapPages (hw : Words root outer inner word first)
    (hs : Trapped root outer inner word first s O) (cs : List PageCall)
    (hroom : pageRounded first.toNat + 0x1000 * (O ∪ topsOf cs).card < first.toNat + 0x40000) :
    ∃ s', awd.mapPages (ptr root) cs s = ok s' ∧
      Trapped root outer inner word first s' (O ∪ topsOf cs) := by
  induction cs generalizing s O with
  | nil => exact ⟨s, rfl, by rwa [topsOf, Finset.union_empty]⟩
  | cons c cs ih =>
    have hall : O ∪ topsOf (c :: cs) = insert (c.virt.extractLsb' 39 9) O ∪ topsOf cs := by
      rw [topsOf, Finset.union_insert, Finset.insert_union]
    rw [hall] at hroom ⊢
    have hle : (insert (c.virt.extractLsb' 39 9) O).card ≤
        (insert (c.virt.extractLsb' 39 9) O ∪ topsOf cs).card :=
      Finset.card_le_card Finset.subset_union_left
    obtain ⟨t, hcall, ht⟩ := hs.map_page hw c.phys c.virt c.page_attr (by omega)
    obtain ⟨s', hcalls, hs'⟩ := ih ht hroom
    exact ⟨s', by rw [awd.mapPages, hcall, bind_ok, hcalls], hs'⟩

/-- Below an open entry of the root, the processor follows the words. -/
theorem Trapped.walk_words (hs : Trapped root outer inner word first s O) {v : U64}
    (hv : v.extractLsb' 39 9 ∈ O) :
    ∃ b, cells s.mem b (v.extractLsb' 30 9) = word ∧ s.translate root v =
      ((leaf word).bind fun l => walk id s.mem l.1 [v.extractLsb' 21 9]).bind fun t =>
        leaf (load64 s.mem (slot t ((last v).setWidth 64))) := by
  obtain ⟨b, hentry, hlow, hr, ho, hi⟩ := hs.opened _ hv
  have hword : cells s.mem b (v.extractLsb' 30 9) = word := by rw [hs.old _ _ hr hi, if_neg ho]
  have hseen := Inner.seen (Or.inr (linkTo_link hlow))
  rw [Seen, named_linkTo hlow, Option.map_some] at hseen
  obtain ⟨l, hl, haddr⟩ := Option.map_eq_some_iff.mp hseen
  refine ⟨b, hword, ?_⟩
  have hfirst : leaf (load64 s.mem (slot (pageAddr root) ((v.extractLsb' 39 9).setWidth 64))) = some l :=
    (congrArg leaf hentry).trans hl
  have hsecond : load64 s.mem (slot (pageAddr b) ((v.extractLsb' 30 9).setWidth 64)) = word := hword
  rw [paging.translate, Paging.translate, path, walk, hfirst, Option.bind_some, haddr, walk, hsecond]
  rfl

/-- A word that is not present hides every page. -/
theorem Trapped.hidden (hs : Trapped root outer inner word first s O) {v : U64}
    (hv : v.extractLsb' 39 9 ∈ O) (hword : leaf word = none) : s.translate root v = none := by
  obtain ⟨-, -, htr⟩ := hs.walk_words hv
  rw [htr, hword]
  rfl

/-- A word that is present, and names another page full of it, shows that page. -/
theorem Trapped.shown (hs : Trapped root outer inner word first s O) {v : U64}
    (hv : v.extractLsb' 39 9 ∈ O) {f : Page} {flags : U64} (hword : leaf word = some (pageAddr f, flags))
    (hf : f ≠ root ∧ f ≠ outer ∧ f ≠ inner) : s.translate root v = some (pageAddr f, flags) := by
  obtain ⟨-, -, htr⟩ := hs.walk_words hv
  have hcell : ∀ i : Index, load64 s.mem (slot (pageAddr f) (i.setWidth 64)) = word := fun i =>
    (hs.old f i hf.1 hf.2.2).trans (if_neg hf.2.1)
  simp only [htr, hword, Option.bind_some, walk, hcell, id]

/-! ## The boot -/

/-- The regions queued and committed, over a heap at `base` and memory `m`. -/
def commitOver (fuel : Nat) (paging_pml4 : U32) (rs : List awd_mapped_region_t) (base : U64)
    (m : Memory) : Outcome Stop paging :=
  paging_queue_all rs { paging_queue_num := 0, paging_queue := fun _ => ⟨0, 0, 0, 0, 0⟩
                        alloc := alloc_init base, mem := m } >>= paging_commit fuel paging_pml4

/-- The heap lies below 4 GiB, and the page of `paging_pml4` outside of it. -/
structure HeapApart (paging_pml4 : U32) (base : U64) : Prop where
  pml4 : PageAligned (paging_pml4.setWidth 64)
  low : base.toNat + 0x40000 ≤ 2 ^ 32
  apart : paging_pml4.toNat + 0x1000 ≤ base.toNat ∨ base.toNat + 0x40000 ≤ paging_pml4.toNat

section boot

variable {paging_pml4 : U32} {base : U64} {rs : List awd_mapped_region_t}

/-- The page of `paging_pml4`. -/
def rootOf (paging_pml4 : U32) : Page := pageOf (paging_pml4.setWidth 64)

theorem rootOf_toNat (h : PageAligned (paging_pml4.setWidth 64)) :
    (pageAddr (rootOf paging_pml4)).toNat = paging_pml4.toNat := by
  rw [rootOf, pageAddr_pageOf h, BitVec.toNat_setWidth, Nat.mod_eq_of_lt]
  have := paging_pml4.isLt
  omega

theorem ptr_rootOf (h : PageAligned (paging_pml4.setWidth 64)) : ptr (rootOf paging_pml4) = paging_pml4 := by
  rw [ptr, rootOf, pageAddr_pageOf h, BitVec.setWidth_setWidth_of_le _ (by decide), BitVec.setWidth_eq]

theorem alloc_init_limit (h : base.toNat + 0x40000 ≤ 2 ^ 32) :
    (alloc_init base).heap_phys_limit.toNat = base.toNat + 0x40000 := by
  show (base + AWD_ALLOC_SIZE).toNat = _
  rw [BitVec.toNat_add, show AWD_ALLOC_SIZE.toNat = 0x40000 from rfl, Nat.mod_eq_of_lt (by omega)]

theorem alloc_init_ready (h : base.toNat + 0x40000 ≤ 2 ^ 32) : (alloc_init base).Ready := by
  have hlimit := alloc_init_limit h
  have hcur : (alloc_init base).heap_phys_current = base := rfl
  refine ⟨?_, ?_⟩
  · rw [hcur]
    omega
  · omega

/-- Behind the queue there is a commit. -/
theorem commitOver_eq (paging_pml4 : U32) (hlen : rs.length ≤ PAGING_QUEUE_MAX) (fuel : Nat) (m : Memory) :
    ∃ q, Holds q rs ∧ q.alloc = alloc_init base ∧ q.mem = m ∧
      commitOver fuel paging_pml4 rs base m = paging_commit fuel paging_pml4 q := by
  have hroom : 0 + rs.length ≤ PAGING_QUEUE_MAX := by omega
  obtain ⟨q, hq, hqueued⟩ := paging_queue_all.spec (k := 0)
    (s := { paging_queue_num := 0, paging_queue := fun _ => ⟨0, 0, 0, 0, 0⟩
            alloc := alloc_init base, mem := m }) rfl hroom
  refine ⟨q, ⟨hlen, by rw [hqueued.num, Nat.zero_add], fun i h => ?_⟩, hqueued.alloc, hqueued.mem, ?_⟩
  · rw [← hqueued.behind i h, Nat.zero_add]
  · rw [commitOver, hq, bind_ok]

/-- The pages that the tables of the queue take read as zero: the first whole
pages of the heap, as many as there are tables. -/
def ClearFor (rs : List awd_mapped_region_t) (base : U64) (m : Memory) : Prop :=
  ∀ x : U64, pageRounded base.toNat ≤ x.toNat →
    x.toNat < pageRounded base.toNat + 0x1000 * (tablesOf (callsOf rs)).card → m x = 0

theorem ClearFor.zeroFor (hheap : HeapApart paging_pml4 base) {m : Memory} (h : ClearFor rs base m)
    {cur : U64} (hcur : cur.toNat ≤ base.toNat + 0x40000) :
    ZeroFor (rootOf paging_pml4) m base cur (tablesOf (callsOf rs)).card := by
  rintro c hc hpages f ⟨hfirst, hend⟩
  have hround := le_pageRounded c.toNat
  have haddr := pageAddr_aligned f
  have hroot := rootOf_toNat hheap.pml4
  have hapart := hheap.apart
  have hlow := hheap.low
  unfold PageAligned at haddr
  refine ⟨by omega, ?_, fun x hx => h x ?_ ?_⟩
  · rintro rfl
    omega
  · have hpage := pageOf_toNat x
    rw [hx] at hpage
    rw [pageAddr_toNat, hpage] at hfirst
    clear hpages hc hend hcur hround hroot hapart
    unfold pageRounded
    omega
  · have hpage := pageOf_toNat x
    rw [hx] at hpage
    rw [pageAddr_toNat, hpage] at hend
    omega

/-- What a commit translates over clear pages. -/
theorem commitOver.spec (hheap : HeapApart paging_pml4 base) (hlen : rs.length ≤ PAGING_QUEUE_MAX)
    {m : Memory} (hclear : ClearFor rs base m) {fuel : Nat} {t : paging}
    (h : commitOver fuel paging_pml4 rs base m = ok t) :
    (∀ r ∈ rs, r.count < 2 ^ 52) ∧
      ∀ v, translate id t.mem (paging_pml4.setWidth 64) v = drawn (callsOf rs) v := by
  obtain ⟨q, hq, halloc, hmem, heq⟩ := commitOver_eq paging_pml4 hlen
    fuel m
  have hready : q.alloc.Ready := halloc ▸ alloc_init_ready hheap.low
  have hroot := rootOf_toNat hheap.pml4
  rw [heq, ← ptr_rootOf hheap.pml4] at h
  have hcounts := (paging_commit.returned hready hq h).1
  have hlater := paging_commit.later hready hq h
  have hlimit := hlater.ready.below
  rw [hlater.limit, halloc, alloc_init_limit hheap.low] at hlimit
  have hzero := hclear.zeroFor hheap hlimit
  have hspec := (paging_commit.spec (by rw [hroot]; exact paging_pml4.isLt) hready hq h
    (by rw [hmem, halloc]; exact hzero)).2
  refine ⟨hcounts, fun v => ?_⟩
  rw [← hspec v, paging.translate, rootOf, pageAddr_pageOf hheap.pml4]

/-- The heap has room for the tables of the queue. -/
def HasRoom (rs : List awd_mapped_region_t) (base : U64) : Prop :=
  pageRounded base.toNat + 0x1000 * (tablesOf (callsOf rs)).card < base.toNat + 0x40000

/-- The tables of all pages there are do not fit into 64 pages. -/
theorem count_lt_of_tables (htables : (tablesOf (callsOf rs)).card ≤ 64) : ∀ r ∈ rs, r.count < 2 ^ 52 := by
  intro r hr
  by_contra hcount
  have hmany : 65 ≤ (tablesOf r.calls).card := r.tables_le (n := 64) (by decide) (by omega)
  have hle : (tablesOf r.calls).card ≤ (tablesOf (callsOf rs)).card :=
    Finset.card_le_card (tablesOf_mono fun c hc => mem_callsOf.mpr ⟨r, hr, hc⟩)
  omega

theorem HasRoom.count_lt (hroom : HasRoom rs base) : ∀ r ∈ rs, r.count < 2 ^ 52 := by
  have hround := le_pageRounded base.toNat
  unfold HasRoom at hroom
  exact count_lt_of_tables (by omega)

/-- Over words that lead out of the heap a commit returns, trapped. -/
theorem commitOver.trapped {outer inner : Page} {word : U64} (hheap : HeapApart paging_pml4 base)
    (hlen : rs.length ≤ PAGING_QUEUE_MAX) (hroom : HasRoom rs base)
    (hw : Words (rootOf paging_pml4) outer inner word base) :
    ∃ t, commitOver (2 ^ 52 + 1) paging_pml4 rs base (stale outer inner word) = ok t ∧
      Trapped (rootOf paging_pml4) outer inner word base t (topsOf (callsOf rs)) := by
  obtain ⟨q, hq, halloc, hmem, heq⟩ := commitOver_eq paging_pml4 hlen
    (2 ^ 52 + 1) (stale outer inner word)
  have hready : q.alloc.Ready := halloc ▸ alloc_init_ready hheap.low
  have hptr := ptr_rootOf hheap.pml4
  obtain ⟨hzero, hrest⟩ := clear.spec hw.root_low q.mem (Nat.le_refl 512)
  have hstart : Trapped (rootOf paging_pml4) outer inner word base
      { q with mem := clear (ptr (rootOf paging_pml4)) 512 q.mem } ∅ := by
    refine ⟨fun f i hr _ => ?_, fun i _ => hzero i i.isLt, fun i hi => ?_, ?_, hready, ?_, ?_⟩
    · rw [cells_congr (f := rootOf paging_pml4) (fun x hx => hrest x fun h =>
        hx ((inRange_page_iff _ x).mpr h)) hr i, hmem, stale, cells_filled]
    · exact absurd hi (Finset.notMem_empty i)
    · show pageRounded q.alloc.heap_phys_current.toNat = _
      rw [halloc, Finset.card_empty, Nat.mul_zero, Nat.add_zero]
      rfl
    · show q.alloc.alloc_enabled = true
      rw [halloc]
      rfl
    · show q.alloc.heap_phys_limit.toNat = _
      rw [halloc, alloc_init_limit hheap.low]
  have htops := topsOf_card (callsOf rs)
  obtain ⟨t, hcalls, ht⟩ := hstart.mapPages hw (callsOf rs) (by
    rw [Finset.empty_union]
    unfold HasRoom at hroom
    omega)
  rw [Finset.empty_union] at ht
  refine ⟨t, ?_, ht⟩
  rw [heq, paging_commit_eq hready hq hroom.count_lt (by omega), ← hptr, hcalls]

/-- Two pages that are neither in the heap nor the root. -/
theorem two_pages_outside (root : Page) (base : U64) : ∃ outer inner : Page,
    outer ≠ root ∧ inner ≠ root ∧ outer ≠ inner ∧ ∀ f, f = outer ∨ f = inner →
      (pageAddr f).toNat < 2 ^ 31 ∧
      ((pageAddr f).toNat + 0x1000 ≤ base.toNat ∨ base.toNat + 0x40000 ≤ (pageAddr f).toNat) := by
  -- three pages below the heap, or three above a heap that is low
  obtain ⟨a, b, c, hab, hac, hbc, hout⟩ : ∃ a b c : Page, a ≠ b ∧ a ≠ c ∧ b ≠ c ∧
      ∀ f, f = a ∨ f = b ∨ f = c → (pageAddr f).toNat < 2 ^ 31 ∧
        ((pageAddr f).toNat + 0x1000 ≤ base.toNat ∨ base.toNat + 0x40000 ≤ (pageAddr f).toNat) := by
    by_cases hlow : base.toNat < 0x4000
    · refine ⟨0x1000, 0x1001, 0x1002, by decide, by decide, by decide, ?_⟩
      rintro f (rfl | rfl | rfl) <;> rw [pageAddr_toNat] <;> simp <;> omega
    · refine ⟨1, 2, 3, by decide, by decide, by decide, ?_⟩
      rintro f (rfl | rfl | rfl) <;> rw [pageAddr_toNat] <;> simp <;> omega
  by_cases ha : a = root
  · exact ⟨b, c, fun h => hab (ha.trans h.symm), fun h => hac (ha.trans h.symm), hbc,
      fun f hf => hout f (Or.inr hf)⟩
  · by_cases hb : b = root
    · exact ⟨a, c, ha, fun h => hbc (hb.trans h.symm), hac, fun f hf => hout f (by tauto)⟩
    · exact ⟨a, b, ha, hb, hab, fun f hf => hout f (by tauto)⟩

/-- With a page to map there are two memories whose tables differ: words that
hide every page, and words that show a page of themselves. -/
theorem stale_words_differ (hheap : HeapApart paging_pml4 base) (hlen : rs.length ≤ PAGING_QUEUE_MAX)
    (hroom : HasRoom rs base) {c : PageCall} (hc : c ∈ callsOf rs) :
    ∃ m₁ m₂ t₁ t₂ f, commitOver (2 ^ 52 + 1) paging_pml4 rs base m₁ = ok t₁ ∧
      commitOver (2 ^ 52 + 1) paging_pml4 rs base m₂ = ok t₂ ∧
      translate id t₁.mem (paging_pml4.setWidth 64) c.virt = none ∧
      translate id t₂.mem (paging_pml4.setWidth 64) c.virt = some (f, 3) := by
  obtain ⟨outer, inner, ho, hi, hoi, hout⟩ := two_pages_outside (rootOf paging_pml4) base
  have hroot := rootOf_toNat hheap.pml4
  have hpml4 := paging_pml4.isLt
  have hapart := hheap.apart
  have houter := (hout outer (Or.inl rfl)).1
  have hinner := (hout inner (Or.inr rfl)).1
  have haligned := pageAddr_aligned outer
  unfold PageAligned at haligned
  have hwords : ∀ word : U64, word.toNat % 2 ^ 32 / 4 = (pageAddr outer).toNat / 4 →
      word.toNat % 4 ≠ 0 → Words (rootOf paging_pml4) outer inner word base := by
    refine fun word hptr hmark => ⟨by omega, by omega, by omega, ⟨ho, hi, hoi⟩, hheap.low, ?_, hptr, hmark⟩
    rintro f (rfl | rfl | rfl)
    · rw [hroot]
      exact hapart
    · exact (hout f (Or.inl rfl)).2
    · exact (hout f (Or.inr rfl)).2
  have htop := mem_topsOf hc
  -- the same pointer for the code, 4 GiB further up for the processor
  let high : Page := outer + 0x100000
  have hnum := pageAddr_toNat outer
  have hhigh : (pageAddr high).toNat = (pageAddr outer).toNat + 2 ^ 32 := by
    rw [pageAddr_toNat, BitVec.toNat_add, hnum]
    simp only [BitVec.reduceToNat]
    omega
  have hpage := pageAddr_aligned high
  have htwo : (pageAddr outer ||| 2).toNat = (pageAddr outer).toNat + 2 :=
    frame_or_toNat (k := 12) haligned (by decide)
  have hthree : (pageAddr high ||| 3).toNat = (pageAddr high).toNat + 3 :=
    frame_or_toNat (k := 12) hpage (by decide)
  obtain ⟨t₁, hrun₁, ht₁⟩ := commitOver.trapped hheap hlen hroom
    (hwords (pageAddr outer ||| 2) (by rw [htwo]; omega) (by rw [htwo]; omega))
  obtain ⟨t₂, hrun₂, ht₂⟩ := commitOver.trapped hheap hlen hroom
    (hwords (pageAddr high ||| 3) (by rw [hthree]; omega) (by rw [hthree]; omega))
  have heq : ∀ t : paging, translate id t.mem (paging_pml4.setWidth 64) c.virt =
      t.translate (rootOf paging_pml4) c.virt := fun t => by
    rw [paging.translate, rootOf, pageAddr_pageOf hheap.pml4]
  refine ⟨_, _, t₁, t₂, pageAddr high, hrun₁, hrun₂, ?_, ?_⟩
  · rw [heq]
    exact ht₁.hidden htop (leaf_eq_none.mpr (by rw [htwo]; omega))
  · rw [heq]
    refine ht₂.shown htop (leaf_or hpage (by decide) (by decide)) ⟨?_, ?_, ?_⟩
    all_goals
      intro h
      have := congrArg (fun f => (pageAddr f).toNat) h
      simp only [hhigh] at this
      omega

/-! ## The law -/

/-- The tables of two boots, over memories `m₁` and `m₂`, translate every address
alike, and no address outside of the regions. -/
def SameTables (paging_pml4 : U32) (rs : List awd_mapped_region_t) (base : U64) (m₁ m₂ : Memory) :
    Prop :=
  ∀ fuel₁ fuel₂ t₁ t₂, commitOver fuel₁ paging_pml4 rs base m₁ = ok t₁ →
    commitOver fuel₂ paging_pml4 rs base m₂ = ok t₂ →
    ∀ v, translate id t₁.mem (paging_pml4.setWidth 64) v =
        translate id t₂.mem (paging_pml4.setWidth 64) v ∧
      ((∀ r ∈ rs, ∀ k < r.count, Canonical (pageAt r.virt_start k)) → Canonical v →
        (∀ r ∈ rs, ¬ r.Contains v) → translate id t₁.mem (paging_pml4.setWidth 64) v = none)

/-- Nothing is drawn outside of regions whose pages the processor all walks. -/
theorem drawn_outside (hrs : ∀ r ∈ rs, PageAligned r.virt_start)
    (hcounts : ∀ r ∈ rs, r.count < 2 ^ 52)
    (hcanonical : ∀ r ∈ rs, ∀ k < r.count, Canonical (pageAt r.virt_start k)) {v : U64}
    (hv : Canonical v) (hout : ∀ r ∈ rs, ¬ r.Contains v) : drawn (callsOf rs) v = none := by
  have hfind : (callsOf rs).reverse.find? (fun c => SameWay v c.virt) = none := by
    rw [List.find?_eq_none]
    intro c hc hway
    obtain ⟨r, hr, hcr⟩ := mem_callsOf.mp (List.mem_reverse.mp hc)
    obtain ⟨k, hk, rfl⟩ := awd_mapped_region_t.mem_calls.mp hcr
    have hway : SameWay v (pageAt r.virt_start k) := of_decide_eq_true hway
    have hsame := path_page v
    have heq := path_inj (pageAddr_aligned _) (pageAt_aligned (hrs r hr) k) (canonical_page hv)
      (hcanonical r hr k hk) (hsame.1.trans hway.1) (hsame.2.trans hway.2)
    refine hout r hr ((contains_page (hrs r hr) v).mp ?_)
    rw [heq]
    exact (inRange_pageAt _ (Nat.lt_trans hk (hcounts r hr))).mpr hk
  rw [drawn, hfind]
  rfl

theorem sameTables_of_clear (hheap : HeapApart paging_pml4 base)
    (hlen : rs.length ≤ PAGING_QUEUE_MAX) (hrs : ∀ r ∈ rs, PageAligned r.virt_start) {m₁ m₂ : Memory}
    (h₁ : ClearFor rs base m₁) (h₂ : ClearFor rs base m₂) : SameTables paging_pml4 rs base m₁ m₂ := by
  intro fuel₁ fuel₂ t₁ t₂ hrun₁ hrun₂ v
  obtain ⟨hcounts, htr₁⟩ := commitOver.spec hheap hlen h₁ hrun₁
  obtain ⟨-, htr₂⟩ := commitOver.spec hheap hlen h₂ hrun₂
  refine ⟨(htr₁ v).trans (htr₂ v).symm, fun hcanonical hv hout => ?_⟩
  rw [htr₁ v]
  exact drawn_outside hrs hcounts hcanonical hv hout

/-- Boots over pages that read as zero have the same tables. For boots over any
memory that holds of the queues that map no page, and of no other. -/
theorem tables_forget_memory_that_was_clear (hheap : HeapApart paging_pml4 base)
    (hlen : rs.length ≤ PAGING_QUEUE_MAX)
    (hrs : ∀ r ∈ rs, PageAligned r.phys_start ∧ PageAligned r.virt_start) :
    (∀ m₁ m₂, ClearFor rs base m₁ → ClearFor rs base m₂ → SameTables paging_pml4 rs base m₁ m₂) ∧
      (HasRoom rs base → ((∀ m₁ m₂, SameTables paging_pml4 rs base m₁ m₂) ↔ ∀ r ∈ rs, r.count = 0)) := by
  have hvirt : ∀ r ∈ rs, PageAligned r.virt_start := fun r hr => (hrs r hr).2
  refine ⟨fun m₁ m₂ h₁ h₂ => sameTables_of_clear hheap hlen hvirt h₁ h₂, fun hroom => ⟨?_, ?_⟩⟩
  · intro hsame r hr
    by_contra hcount
    have hc : (⟨pageAt r.phys_start 0, pageAt r.virt_start 0, r.attr⟩ : PageCall) ∈ callsOf rs :=
      mem_callsOf.mpr ⟨r, hr, awd_mapped_region_t.mem_calls.mpr ⟨0, Nat.pos_of_ne_zero hcount, rfl⟩⟩
    obtain ⟨m₁, m₂, t₁, t₂, f, hrun₁, hrun₂, hnone, hsome⟩ := stale_words_differ hheap hlen hroom hc
    have heq := (hsame m₁ m₂ _ _ t₁ t₂ hrun₁ hrun₂ (pageAt r.virt_start 0)).1
    rw [hnone, hsome] at heq
    cases heq
  · intro hempty m₁ m₂
    have hcalls : callsOf rs = [] := by
      refine List.flatMap_eq_nil_iff.mpr fun r hr => ?_
      rw [awd_mapped_region_t.calls, hempty r hr]
      rfl
    have hclear : ∀ m, ClearFor rs base m := by
      intro m x hge hlt
      rw [hcalls, tablesOf, Finset.card_empty] at hlt
      omega
    exact sameTables_of_clear hheap hlen hvirt (hclear m₁) (hclear m₂)

end boot

/-- One page of low memory. -/
def onePage : awd_mapped_region_t := ⟨0x300000, 0x301000, 0x300000, 0x301000, 3⟩

theorem tables_forget_memory_that_was_clear_for_one_page :
    (∀ m₁ m₂, ClearFor [onePage] 0x400000 m₁ → ClearFor [onePage] 0x400000 m₂ →
        SameTables 0x101000 [onePage] 0x400000 m₁ m₂) ∧
      (HasRoom [onePage] 0x400000 → ((∀ m₁ m₂, SameTables 0x101000 [onePage] 0x400000 m₁ m₂) ↔
        ∀ r ∈ [onePage], r.count = 0)) := by
  refine tables_forget_memory_that_was_clear ⟨by decide, by decide, by decide⟩ (by decide) ?_
  intro r hr
  rw [List.mem_singleton.mp hr]
  exact ⟨by decide, by decide⟩

/-- Over memory that is zero the page is translated, over words of 0x500002 it is
not. -/
theorem a_page_is_lost_over_stale_words :
    ¬ SameTables 0x101000 [onePage] 0x400000 (fun _ => 0) (filled fun _ => 0x500002) := by
  have hzero : (commitOver 2 0x101000 [onePage] 0x400000 fun _ => 0).Yields fun t =>
      translate id t.mem 0x101000 0x300000 = some (0x300000, 3) := by
    decide +kernel
  have hstale : (commitOver 2 0x101000 [onePage] 0x400000 (filled fun _ => 0x500002)).Yields fun t =>
      translate id t.mem 0x101000 0x300000 = none := by
    decide +kernel
  obtain ⟨t₁, hrun₁, htr₁⟩ := hzero
  obtain ⟨t₂, hrun₂, htr₂⟩ := hstale
  intro hsame
  have heq := (hsame _ _ t₁ t₂ hrun₁ hrun₂ 0x300000).1
  rw [show (0x101000 : U32).setWidth 64 = (0x101000 : U64) from rfl, htr₁, htr₂] at heq
  cases heq

end awd
