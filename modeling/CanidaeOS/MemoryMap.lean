-- The import of the boot loader's memory map (`init_memory` in
-- `kernel_early.cpp`). Each FREE entry is walked from its start to its end
-- in steps of a page, and the frame under every step is freed.
import CanidaeOS.Heap

open Program Machine Outcome

namespace lobo

def AWD_MEMMAP_FREE : U8 := 0
def AWD_MEMMAP_USED : U8 := 1

/-- One entry of the map. The list of all entries stands for the `next`
links. -/
structure awd_physmemmap_t where
  type : U8
  startAddress_hi : U32
  startAddress_lo : U32
  size_hi : U32
  size_lo : U32

namespace awd_physmemmap_t

def startAddress (e : awd_physmemmap_t) : U64 :=
  e.startAddress_hi.setWidth 64 <<< 32 ||| e.startAddress_lo.setWidth 64

def size (e : awd_physmemmap_t) : U64 := e.size_hi.setWidth 64 <<< 32 ||| e.size_lo.setWidth 64

def endAddress (e : awd_physmemmap_t) : U64 := e.startAddress + e.size

end awd_physmemmap_t

/-! ## The code -/

/-- Phase 1: the end of the last FREE entry. -/
def mem_end_address (map : List awd_physmemmap_t) : U64 :=
  map.foldl (fun mem_end e =>
    if e.type = AWD_MEMMAP_FREE then
      if mem_end < e.endAddress then e.endAddress else mem_end
    else mem_end) 0

/-- One turn of the loop over the pages of an entry. -/
def freeTurn (endAddress : U64) (s : U64 × pmm) : Outcome Stop (Turn (U64 × pmm) pmm) :=
  if s.1 < endAddress then do
    let p ← s.2.free s.1
    ok (.next (s.1 + 0x1000, p))
  else ok (.leave s.2)

/-- Phase 2: the loop over the entries. -/
def free_entries (fuel : Nat) : List awd_physmemmap_t → pmm → Outcome Stop pmm
  | [], p => ok p
  | e :: map, p =>
    if e.type = AWD_MEMMAP_FREE then do
      let p ← loop (freeTurn e.endAddress) fuel (e.startAddress, p)
      free_entries fuel map p
    else free_entries fuel map p

def init_memory (fuel : Nat) (map : List awd_physmemmap_t) (fresh : Nat → U8) (g : Globals) :
    Outcome Stop Globals := do
  let g ← pmm.init (mem_end_address map / 0x1000) fresh g
  let p ← free_entries fuel map g.kernel_pmm
  -- Forcibly mark the region below 4MB as used
  let p ← forRange 0x400 (fun i p => p.set (BitVec.ofNat 64 i * 0x1000)) p
  let p ← p.set_free_memory
  ok { g with kernel_pmm := p }

/-! ## The frames of an entry -/

/-- The steps that the loop over the pages of an entry takes. -/
def awd_physmemmap_t.steps (e : awd_physmemmap_t) : Nat :=
  (e.endAddress.toNat - e.startAddress.toNat + 0xFFF) / 0x1000

/-- Frame `f` lies under a step of the loop. -/
def awd_physmemmap_t.Touches (e : awd_physmemmap_t) (f : Nat) : Prop :=
  pmm.frameOf e.startAddress ≤ f ∧ f < pmm.frameOf e.startAddress + e.steps

/-- The step from a frame of the bitmap does not wrap. -/
theorem freeTurn.next {n : Nat} (hn : n < 2 ^ 52) {i : U64} (h : pmm.frameOf i < n) :
    (i + 0x1000).toNat = i.toNat + 0x1000 := by
  unfold pmm.frameOf at h
  rw [BitVec.toNat_add]
  simp only [BitVec.reduceToNat]
  omega

theorem freeTurn.spec {p p' : pmm} {fuel : Nat} {e : awd_physmemmap_t} (hp : p.Ready)
    (h : loop (freeTurn e.endAddress) fuel (e.startAddress, p) = ok p') :
    (∀ f, e.Touches f → f < p.m_numPages.toNat) ∧
      pmm.Marks p p' fun f => ¬ e.Touches f ∧ p.Used f := by
  have hN := hp.pages
  -- after `k` steps, the first `k` frames are free
  refine loop_inv (I := fun s : U64 × pmm => ∃ k ≤ e.steps,
      s.1.toNat = e.startAddress.toNat + k * 0x1000 ∧
      (∀ j < k, pmm.frameOf e.startAddress + j < p.m_numPages.toNat) ∧
      pmm.Marks p s.2 fun f => ¬ (pmm.frameOf e.startAddress ≤ f ∧
        f < pmm.frameOf e.startAddress + k) ∧ p.Used f)
    (Q := fun q => (∀ f, e.Touches f → f < p.m_numPages.toNat) ∧
      pmm.Marks p q fun f => ¬ e.Touches f ∧ p.Used f) ?_ ?_ ?_ h
  · rintro ⟨i, q⟩ s' ⟨k, hk, hi, hin, hm⟩ hturn
    unfold freeTurn at hturn
    split at hturn
    · rename_i hlt
      obtain ⟨q', hq', hturn⟩ := bind_eq_ok.mp hturn
      obtain rfl : (i + 0x1000, q') = s' := by simpa using hturn
      obtain ⟨hframe, hfree⟩ := pmm.free.spec (hm.ready hp) hq'
      have hlt' : i.toNat < e.endAddress.toNat := hlt
      rw [hm.numPages] at hframe
      dsimp only at hi hm hframe hfree ⊢
      have hf : pmm.frameOf i = pmm.frameOf e.startAddress + k := by
        unfold pmm.frameOf
        omega
      have hnext := freeTurn.next hN hframe
      refine ⟨k + 1, ?_, by rw [hnext, hi]; ring, ?_, (hm.trans hfree).congr fun f => ?_⟩
      · unfold awd_physmemmap_t.steps
        omega
      · intro j hj
        rcases Nat.lt_or_ge j k with hjk | hjk
        · exact hin j hjk
        · obtain rfl : j = k := by omega
          rw [← hf]
          exact hframe
      · rw [hm.used, hf]
        constructor
        · rintro ⟨hne, hout, hu⟩
          exact ⟨by omega, hu⟩
        · rintro ⟨hout, hu⟩
          exact ⟨by omega, by omega, hu⟩
    · cases hturn
  · rintro ⟨i, q⟩ b ⟨k, hk, hi, hin, hm⟩ hturn
    unfold freeTurn at hturn
    split at hturn
    · obtain ⟨q', _, hturn⟩ := bind_eq_ok.mp hturn
      cases hturn
    · rename_i hge
      cases hturn
      have hge' : ¬ i.toNat < e.endAddress.toNat := hge
      dsimp only at hi hm
      have hall : e.steps = k := by
        unfold awd_physmemmap_t.steps at hk ⊢
        omega
      refine ⟨fun f ⟨h1, h2⟩ => ?_, hm.congr fun f => ?_⟩
      · have := hin (f - pmm.frameOf e.startAddress) (by omega)
        rwa [show pmm.frameOf e.startAddress + (f - pmm.frameOf e.startAddress) = f by omega] at this
      · rw [awd_physmemmap_t.Touches, hall]
  · refine ⟨0, Nat.zero_le _, by simp, by simp, (pmm.Marks.refl p).congr fun f => ?_⟩
    constructor
    · exact fun hu => ⟨by omega, hu⟩
    · exact fun h => h.2

theorem freeTurn.total {p : pmm} {fuel : Nat} {e : awd_physmemmap_t} (hp : p.Ready)
    (hin : ∀ f, e.Touches f → f < p.m_numPages.toNat) (hfuel : e.steps < fuel) :
    ∃ p', loop (freeTurn e.endAddress) fuel (e.startAddress, p) = ok p' := by
  have hN := hp.pages
  refine loop_ok (I := fun s : U64 × pmm => s.2.Ready ∧ s.2.m_numPages = p.m_numPages ∧
      ∃ k ≤ e.steps, s.1.toNat = e.startAddress.toNat + k * 0x1000)
    (fun s => e.steps - (s.1.toNat - e.startAddress.toNat) / 0x1000) ?_
    ⟨hp, rfl, 0, Nat.zero_le _, by simp⟩ (by simpa using hfuel)
  rintro ⟨i, q⟩ ⟨hq, hqN, k, hk, hi⟩
  dsimp only at hq hqN hi ⊢
  by_cases hlt : i < e.endAddress
  · have hlt' : i.toNat < e.endAddress.toNat := hlt
    have hk' : k < e.steps := by
      unfold awd_physmemmap_t.steps
      omega
    have hf : pmm.frameOf i = pmm.frameOf e.startAddress + k := by
      unfold pmm.frameOf
      omega
    have hframe : pmm.frameOf i < q.m_numPages.toNat := by
      rw [hqN, hf]
      exact hin _ ⟨by omega, by omega⟩
    obtain ⟨q', hq'⟩ := pmm.free.total hq hframe
    obtain ⟨_, hm⟩ := pmm.free.spec hq hq'
    have hnext := freeTurn.next hq.pages hframe
    refine Or.inl ⟨(i + 0x1000, q'), ?_, ⟨hm.ready hq, hm.numPages.trans hqN, k + 1, hk', ?_⟩, ?_⟩
    · simp only [freeTurn, if_pos hlt, hq', bind_ok]
    · rw [hnext, hi]
      ring
    · rw [hnext, hi]
      omega
  · exact Or.inr ⟨q, by simp only [freeTurn, if_neg hlt]⟩

/-! ## The spec of `init_memory` -/

/-- Frame `f` lies under a step of a FREE entry. -/
def Listed (map : List awd_physmemmap_t) (f : Nat) : Prop :=
  ∃ e ∈ map, e.type = AWD_MEMMAP_FREE ∧ e.Touches f

theorem free_entries.spec {fuel : Nat} {map : List awd_physmemmap_t} {p p' : pmm} (hp : p.Ready)
    (h : free_entries fuel map p = ok p') :
    (∀ f, Listed map f → f < p.m_numPages.toNat) ∧
      pmm.Marks p p' fun f => ¬ Listed map f ∧ p.Used f := by
  induction map generalizing p with
  | nil =>
    cases h
    exact ⟨by simp [Listed], (pmm.Marks.refl _).congr fun f => by simp [Listed]⟩
  | cons e map ih =>
    unfold free_entries at h
    split at h
    · rename_i hfree
      obtain ⟨q, hq, h⟩ := bind_eq_ok.mp h
      obtain ⟨hin, hm⟩ := freeTurn.spec hp hq
      obtain ⟨hin', hm'⟩ := ih (hm.ready hp) h
      have hlisted : ∀ f, Listed (e :: map) f ↔ e.Touches f ∨ Listed map f := by
        simp [Listed, hfree]
      rw [hm.numPages] at hin'
      refine ⟨fun f hf => ((hlisted f).mp hf).elim (hin f) (hin' f), (hm.trans hm').congr fun f => ?_⟩
      rw [hm.used, hlisted, not_or]
      tauto
    · rename_i hother
      have hlisted : ∀ f, Listed (e :: map) f ↔ Listed map f := by simp [Listed, hother]
      obtain ⟨hin, hm⟩ := ih hp h
      exact ⟨fun f hf => hin f ((hlisted f).mp hf), hm.congr fun f => by rw [hlisted]⟩

theorem listed_lt {map : List awd_physmemmap_t} {n : Nat}
    (h : ∀ e ∈ map, pmm.frameOf e.startAddress + e.steps ≤ n) (f : Nat) (hf : Listed map f) :
    f < n := by
  obtain ⟨e, he, -, -, hlt⟩ := hf
  exact Nat.lt_of_lt_of_le hlt (h e he)

theorem free_entries.total {fuel : Nat} {map : List awd_physmemmap_t} {p : pmm} (hp : p.Ready)
    (hin : ∀ f, Listed map f → f < p.m_numPages.toNat) (hfuel : ∀ e ∈ map, e.steps < fuel) :
    ∃ p', free_entries fuel map p = ok p' := by
  induction map generalizing p with
  | nil => exact ⟨p, rfl⟩
  | cons e map ih =>
    have hrest : ∀ f, Listed map f → Listed (e :: map) f := fun f ⟨e', he', h⟩ =>
      ⟨e', List.mem_cons_of_mem _ he', h⟩
    have hfuel' := fun e' he' => hfuel e' (List.mem_cons_of_mem _ he')
    unfold free_entries
    split
    · rename_i hfree
      have hthis : ∀ f, e.Touches f → f < p.m_numPages.toNat := fun f hf =>
        hin f ⟨e, List.mem_cons_self, hfree, hf⟩
      obtain ⟨q, hq⟩ := freeTurn.total hp hthis (hfuel e List.mem_cons_self)
      obtain ⟨_, hm⟩ := freeTurn.spec hp hq
      rw [hq, bind_ok]
      exact ih (hm.ready hp) (fun f hf => by rw [hm.numPages]; exact hin f (hrest f hf)) hfuel'
    · exact ih hp (fun f hf => hin f (hrest f hf)) hfuel'

/-- What `init_memory` has done when it returns: a frame is free when a step
of a FREE entry lies in it, at or above 4 MiB. -/
structure Imported (map : List awd_physmemmap_t) (g g' : Globals) : Prop where
  ready : g'.kernel_pmm.Ready
  pages : g'.kernel_pmm.m_numPages = mem_end_address map / 0x1000
  low : 0x400 ≤ g'.kernel_pmm.m_numPages.toNat
  listed : ∀ f, Listed map f → f < g'.kernel_pmm.m_numPages.toNat
  free : ∀ f, g'.kernel_pmm.Free f ↔ 0x400 ≤ f ∧ Listed map f
  block : ∃ g₁ g₂, SameHeap g g₁ ∧ SameHeap g₂ g' ∧
    Allocated g₁ g₂ (mem_end_address map / 0x1000 / 8 + 1) 8 g'.kernel_pmm.bitmap.m_ptr.addr

theorem numPages_lt (map : List awd_physmemmap_t) :
    (mem_end_address map / 0x1000).toNat < 2 ^ 52 := by
  have := (mem_end_address map).isLt
  simp only [BitVec.toNat_udiv, BitVec.reduceToNat]
  omega

theorem init_memory.spec {fuel : Nat} {map : List awd_physmemmap_t} {fresh : Nat → U8}
    {g g' : Globals} (hinit : g.kernel_pmm.m_initialised = false)
    (h : init_memory fuel map fresh g = ok g') : Imported map g g' := by
  obtain ⟨gi, hgi, h⟩ := bind_eq_ok.mp h
  obtain ⟨p, hp, h⟩ := bind_eq_ok.mp h
  obtain ⟨p', hp', h⟩ := bind_eq_ok.mp h
  obtain ⟨p'', hp'', h⟩ := bind_eq_ok.mp h
  cases h
  obtain ⟨hready, hN, hused, hsize, g₁, g₂, hg₁, hg₂, hblock⟩ :=
    pmm.init.spec hinit (numPages_lt map) hgi
  obtain ⟨hin, hm⟩ := free_entries.spec hready hp
  obtain ⟨hlow, hm'⟩ := pmm.set_all (hm.ready hready) (by norm_num) hp'
  have hready' := hm'.ready (hm.ready hready)
  obtain ⟨hbitmap, hpages⟩ := pmm.set_free_memory.spec hp''
  have hN' : p'.m_numPages = gi.kernel_pmm.m_numPages := hm'.numPages.trans hm.numPages
  refine ⟨⟨?_, ?_, ?_⟩, ?_, ?_, ?_, fun f => ?_, g₁, g₂, hg₁, ⟨hg₂.base, hg₂.limit, hg₂.mode⟩, ?_⟩
  · dsimp only
    rw [hbitmap, hpages, hready'.length]
  · unfold bitset.Fits
    dsimp only
    rw [hbitmap]
    exact hready'.fits
  · dsimp only
    rw [hpages]
    exact hready'.pages
  · dsimp only
    rw [hpages, hN', hN]
  · dsimp only
    rw [hpages, hN', ← hm.numPages]
    exact hlow
  · dsimp only
    rw [hpages, hN']
    exact hin
  · have hsame : pmm.Used p'' f ↔ p'.Used f := by rw [pmm.Used, hbitmap, pmm.Used]
    unfold pmm.Free
    dsimp only
    rw [hpages, hN', hsame, hm'.used, hm.used]
    constructor
    · rintro ⟨hlt, hnot⟩
      obtain ⟨hge, hnot⟩ := not_or.mp hnot
      refine ⟨Nat.le_of_not_lt hge, ?_⟩
      by_contra hno
      exact hnot ⟨hno, hused f (by rw [← hN]; exact hlt)⟩
    · rintro ⟨hge, hl⟩
      exact ⟨hin f hl, by rintro (hlt | ⟨hno, _⟩); exacts [by omega, hno hl]⟩
  · dsimp only
    rw [hbitmap, hm'.shape.addr, hm.shape.addr]
    exact hblock

/-- Once `init` has its bitmap, `init_memory` returns when the memory ends past
4 MiB and past every step of a FREE entry. -/
theorem init_memory.total_of_init {fuel : Nat} {map : List awd_physmemmap_t} {fresh : Nat → U8}
    {g gi : Globals} (hinit : g.kernel_pmm.m_initialised = false)
    (hgi : pmm.init (mem_end_address map / 0x1000) fresh g = ok gi)
    (hlow : 0x400 ≤ (mem_end_address map / 0x1000).toNat)
    (hin : ∀ f, Listed map f → f < (mem_end_address map / 0x1000).toNat)
    (hfuel : ∀ e ∈ map, e.steps < fuel) : ∃ g', init_memory fuel map fresh g = ok g' := by
  obtain ⟨hready, hN, -⟩ := pmm.init.spec hinit (numPages_lt map) hgi
  obtain ⟨p, hp⟩ := free_entries.total hready (by rw [hN]; exact hin) hfuel
  obtain ⟨_, hm⟩ := free_entries.spec hready hp
  obtain ⟨p', hp'⟩ := pmm.set_all_total (hm.ready hready) (n := 0x400)
    (by rw [hm.numPages, hN]; exact hlow)
  obtain ⟨_, hm'⟩ := pmm.set_all (hm.ready hready) (by norm_num) hp'
  obtain ⟨p'', hp''⟩ := pmm.set_free_memory.total (hm'.ready (hm.ready hready))
  exact ⟨{ gi with kernel_pmm := p'' }, by simp only [init_memory, hgi, hp, hp', hp'', bind_ok]⟩

/-- In early boot, `init_memory` returns when the bitmap fits below the heap's
limit and the memory ends past 4 MiB and past every step of a FREE entry. -/
theorem init_memory.total {fuel : Nat} {map : List awd_physmemmap_t} (fresh : Nat → U8)
    {g : Globals} (hinit : g.kernel_pmm.m_initialised = false) (hmode : g.currentMode = .EarlyBoot)
    (hfit : alignedUp g.earlyAllocBase.toNat 8 + ((mem_end_address map / 0x1000).toNat / 8 + 1) ≤
      g.earlyAllocLimit.toNat)
    (hlow : 0x400 ≤ (mem_end_address map / 0x1000).toNat)
    (hin : ∀ f, Listed map f → f < (mem_end_address map / 0x1000).toNat)
    (hfuel : ∀ e ∈ map, e.steps < fuel) : ∃ g', init_memory fuel map fresh g = ok g' := by
  obtain ⟨gi, hgi⟩ := pmm.init.total fresh hinit (numPages_lt map) hmode hfit
  exact init_memory.total_of_init hinit hgi hlow hin hfuel

/-! ## The laws -/

/-- Address `a` is in the region of the entry. -/
def awd_physmemmap_t.Holds (e : awd_physmemmap_t) (a : Nat) : Prop :=
  e.startAddress.toNat ≤ a ∧ a < e.startAddress.toNat + e.size.toNat

instance (e : awd_physmemmap_t) (a : Nat) : Decidable (e.Holds a) :=
  inferInstanceAs (Decidable (_ ∧ _))

/-- Address `a` is in the region of the entry once that is widened to whole
pages: down to the page that it starts in, and up by as many pages as its
size needs. -/
def awd_physmemmap_t.Spans (e : awd_physmemmap_t) (a : Nat) : Prop :=
  e.startAddress.toNat / 0x1000 * 0x1000 ≤ a ∧
    a < e.startAddress.toNat / 0x1000 * 0x1000 + (e.size.toNat + 0xFFF) / 0x1000 * 0x1000

/-- Address `a` is in a FREE region, and in no region of another type. -/
def OnlyInFree (map : List awd_physmemmap_t) (a : Nat) : Prop :=
  (∃ e ∈ map, e.type = AWD_MEMMAP_FREE ∧ e.Holds a) ∧
    ∀ e ∈ map, e.type ≠ AWD_MEMMAP_FREE → ¬ e.Holds a

/-- Every free frame lies in FREE regions only, at or above 4 MiB. -/
def FreesOnlyFree (map : List awd_physmemmap_t) (p : pmm) : Prop :=
  ∀ f, p.Free f → 0x400000 ≤ f * 0x1000 ∧
    ∀ a, f * 0x1000 ≤ a → a < f * 0x1000 + 0x1000 → OnlyInFree map a

/-- The exact condition on a map: from 4 MiB on, what FREE entries gain by
being widened to whole pages is FREE memory too. -/
def WholePages (map : List awd_physmemmap_t) : Prop :=
  ∀ e ∈ map, e.type = AWD_MEMMAP_FREE → ∀ a, 0x400000 ≤ a → e.Spans a → OnlyInFree map a

/-- A step of an entry lies in a frame when the widened region holds it. -/
theorem touches_iff_spans {e : awd_physmemmap_t}
    (hwrap : e.startAddress.toNat + e.size.toNat < 2 ^ 64) {f a : Nat} (h1 : f * 0x1000 ≤ a)
    (h2 : a < f * 0x1000 + 0x1000) : e.Touches f ↔ e.Spans a := by
  have hend : e.endAddress.toNat = e.startAddress.toNat + e.size.toNat := by
    rw [awd_physmemmap_t.endAddress, BitVec.toNat_add, Nat.mod_eq_of_lt hwrap]
  unfold awd_physmemmap_t.Touches awd_physmemmap_t.Spans awd_physmemmap_t.steps pmm.frameOf
  rw [hend]
  omega

/-- An import that returns frees only FREE memory if and only if the map is in
`WholePages`. -/
theorem an_import_frees_only_free_memory {fuel : Nat} {map : List awd_physmemmap_t}
    {fresh : Nat → U8} {g g' : Globals} (hinit : g.kernel_pmm.m_initialised = false)
    (hwrap : ∀ e ∈ map, e.startAddress.toNat + e.size.toNat < 2 ^ 64)
    (h : init_memory fuel map fresh g = ok g') :
    FreesOnlyFree map g'.kernel_pmm ↔ WholePages map := by
  have hfree := (init_memory.spec hinit h).free
  constructor
  · intro honly e he htype a ha hspan
    have htouch := (touches_iff_spans (hwrap e he) (Nat.div_mul_le_self a 0x1000) (by omega)).mpr hspan
    have := (honly (a / 0x1000) ((hfree _).mpr ⟨by omega, e, he, htype, htouch⟩)).2
    exact this a (by omega) (by omega)
  · intro hwhole f hf
    obtain ⟨hlow, e, he, htype, htouch⟩ := (hfree f).mp hf
    refine ⟨by omega, fun a h1 h2 => ?_⟩
    exact hwhole e he htype a (by omega) ((touches_iff_spans (hwrap e he) h1 h2).mp htouch)

/-- A boot loader heap at 1 MiB and 64 KiB, of 64 KiB. -/
def lowHeap : Globals := kernel_early_heap 0x110000 0x120000

/-- FREE memory from 4 MiB to 6 MiB. -/
def twoMiB : List awd_physmemmap_t := [⟨AWD_MEMMAP_FREE, 0, 0x400000, 0, 0x200000⟩]

theorem an_import_frees_only_free_memory_of_two_MiB : ∃ g',
    init_memory 0x201 twoMiB (fun _ => 0) lowHeap = ok g' ∧
      (FreesOnlyFree twoMiB g'.kernel_pmm ↔ WholePages twoMiB) := by
  obtain ⟨g', h⟩ : ∃ g', init_memory 0x201 twoMiB (fun _ => 0) lowHeap = ok g' :=
    init_memory.total _ rfl rfl (by decide) (by decide) (listed_lt (by decide)) (by decide)
  exact ⟨g', h, an_import_frees_only_free_memory rfl (by decide) h⟩

/-- FREE memory that ends in the middle of a page, and more of it higher up. -/
def halfAPage : List awd_physmemmap_t :=
  [⟨AWD_MEMMAP_FREE, 0, 0x400000, 0, 0x800⟩, ⟨AWD_MEMMAP_FREE, 0, 0x500000, 0, 0x100000⟩]

/-- The frame of the half page is free, with its other half in no region. -/
theorem half_a_page_is_freed_whole : ∃ g',
    init_memory 0x201 halfAPage (fun _ => 0) lowHeap = ok g' ∧
      ¬ FreesOnlyFree halfAPage g'.kernel_pmm := by
  obtain ⟨g', h⟩ : ∃ g', init_memory 0x201 halfAPage (fun _ => 0) lowHeap = ok g' :=
    init_memory.total _ rfl rfl (by decide) (by decide) (listed_lt (by decide)) (by decide)
  refine ⟨g', h, fun honly => ?_⟩
  have hfree : g'.kernel_pmm.Free 0x400 := ((init_memory.spec rfl h).free _).mpr
    ⟨Nat.le_refl _, _, List.mem_cons_self, rfl, by decide, by decide⟩
  obtain ⟨⟨e, he, -, hin⟩, -⟩ := (honly _ hfree).2 0x400800 (by norm_num) (by norm_num)
  have hout : ∀ e ∈ halfAPage, ¬ e.Holds 0x400800 := by decide
  exact hout e he hin

end lobo
