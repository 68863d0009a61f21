-- The physical memory manager (`pmm.cpp`): a bitmap with a bit for every
-- frame, set for a used frame. `allocate` searches it for a run of frames.
-- The look-ahead and the marking of a run count with 32 bits, so the frame
-- they name is the counter modulo 2^20.
import CanidaeOS.Bitset

open Program Machine Outcome

namespace lobo

structure pmm where
  bitmap : bitset
  m_initialised : Bool
  m_numPages : U64
  m_maxFreePages : U64
  m_nonMemoryBackedPages : U64

namespace pmm

/-! ## The code -/

def bitmap_set (p : pmm) (physAddress : U64) : Outcome Stop pmm := do
  let bitmap ← p.bitmap.set (physAddress / 0x1000)
  ok { p with bitmap }

def bitmap_free (p : pmm) (physAddress : U64) : Outcome Stop pmm := do
  let bitmap ← p.bitmap.clear (physAddress / 0x1000)
  ok { p with bitmap }

def bitmap_test (p : pmm) (physAddress : U64) : Outcome Stop Bool :=
  p.bitmap.test (physAddress / 0x1000)

def set (p : pmm) (physAddress : U64) : Outcome Stop pmm := p.bitmap_set physAddress

def free (p : pmm) (physAddress : U64) : Outcome Stop pmm := p.bitmap_free physAddress

def test (p : pmm) (physAddress : U64) : Outcome Stop Bool := p.bitmap_test physAddress

/-- One turn of the loop over `checkIndex`, an `unsigned int`. -/
def checkTurn (p : pmm) (idx numContiguous : U64) (checkIndex : U32) :
    Outcome Stop (Turn U32 Bool) :=
  if checkIndex.setWidth 64 < idx + numContiguous then do
    let used ← p.test ((checkIndex * 0x1000).setWidth 64)
    if used = true then ok (.leave false) else ok (.next (checkIndex + 1))
  else ok (.leave true)

/-- One turn of the loop over `k`, an `unsigned int`. -/
def markTurn (idx numContiguous : U64) (s : U32 × pmm) : Outcome Stop (Turn (U32 × pmm) pmm) :=
  if s.1.setWidth 64 < idx + numContiguous then do
    let p ← s.2.set ((s.1 * 0x1000).setWidth 64)
    ok (.next (s.1 + 1, p))
  else ok (.leave s.2)

/-- One turn of the search over `idx`. -/
def allocateTurn (fuel : Nat) (p : pmm) (numContiguous idx : U64) :
    Outcome Stop (Turn U64 (U64 × pmm)) :=
  if idx < p.m_numPages then do
    let init_address := idx * 0x1000
    let used ← p.test init_address
    if used = false then
      if numContiguous ≤ 1 then do
        let p ← p.set init_address
        ok (.leave (init_address, p))
      else do
        let allWasFree ← loop (p.checkTurn idx numContiguous) fuel ((idx + 1).setWidth 32)
        if allWasFree = true then do
          let p ← loop (markTurn idx numContiguous) fuel (idx.setWidth 32, p)
          ok (.leave (init_address, p))
        else ok (.next (idx + 1))
    else ok (.next (idx + 1))
  else panic "PMM Out of Memory"

def allocate (fuel : Nat) (p : pmm) (numContiguous : U64) : Outcome Stop (U64 × pmm) :=
  loop (p.allocateTurn fuel numContiguous) fuel 0

/-- One turn of the count in `set_free_memory`: the free pages so far, and
the PMM with the pages that no memory backs. -/
def countTurn (i : Nat) (s : U64 × pmm) : Outcome Stop (U64 × pmm) := do
  let used ← s.2.test (BitVec.ofNat 64 i * 0x1000)
  if used = false then ok (s.1 + 1, s.2)
  else ok (s.1, { s.2 with m_nonMemoryBackedPages := s.2.m_nonMemoryBackedPages + 1 })

def set_free_memory (p : pmm) : Outcome Stop pmm := do
  let s ← forRange p.m_numPages.toNat countTurn (0, p)
  ok { s.2 with m_maxFreePages := s.1 }

/-! ## The frames -/

/-- The frame that holds an address. -/
def frameOf (physAddress : U64) : Nat := physAddress.toNat / 0x1000

def Used (p : pmm) (f : Nat) : Prop := p.bitmap.has f = true

instance (p : pmm) (f : Nat) : Decidable (p.Used f) := inferInstanceAs (Decidable (_ = _))

/-- A frame that `allocate` may hand out. -/
def Free (p : pmm) (f : Nat) : Prop := f < p.m_numPages.toNat ∧ ¬ p.Used f

/-- The state after `init`: a bit for every frame. The frames are those of
64-bit addresses, as `init_memory` divides an address by the page size. -/
structure Ready (p : pmm) : Prop where
  length : p.bitmap.m_length = p.m_numPages
  fits : p.bitmap.Fits
  pages : p.m_numPages.toNat < 2 ^ 52

/-- `p'` is `p` with the frames of `U` used, and nothing else changed. -/
structure Marks (p p' : pmm) (U : Nat → Prop) : Prop where
  rest : p' = { p with bitmap := p'.bitmap }
  shape : bitset.SameShape p.bitmap p'.bitmap
  used : ∀ g, p'.Used g ↔ U g

theorem Marks.numPages {p p' : pmm} {U : Nat → Prop} (h : Marks p p' U) :
    p'.m_numPages = p.m_numPages := by
  rw [h.rest]

theorem Marks.ready {p p' : pmm} {U : Nat → Prop} (h : Marks p p' U) (hp : p.Ready) :
    p'.Ready := by
  obtain ⟨h1, h2, h3⟩ := hp
  refine ⟨?_, ?_, ?_⟩
  · rw [h.shape.length, h1, h.numPages]
  · unfold bitset.Fits at *
    rw [h.shape.length, h.shape.size]
    exact h2
  · rw [h.numPages]
    exact h3

theorem Marks.refl (p : pmm) : Marks p p p.Used := ⟨rfl, ⟨rfl, rfl, rfl⟩, fun _ => Iff.rfl⟩

theorem Marks.trans {p p' p'' : pmm} {U V : Nat → Prop} (h : Marks p p' U) (h' : Marks p' p'' V) :
    Marks p p'' V := by
  refine ⟨?_, ⟨?_, ?_, ?_⟩, h'.used⟩
  · have h1 := h'.rest
    rw [h.rest] at h1
    exact h1
  · rw [h'.shape.length, h.shape.length]
  · rw [h'.shape.addr, h.shape.addr]
  · rw [h'.shape.size, h.shape.size]

theorem Marks.congr {p p' : pmm} {U V : Nat → Prop} (h : Marks p p' U) (hUV : ∀ g, U g ↔ V g) :
    Marks p p' V := ⟨h.rest, h.shape, fun g => (h.used g).trans (hUV g)⟩

/-! ## The specs of the bit operations -/

theorem frame_index (a : U64) : (a / 0x1000).toNat = frameOf a := by
  simp [frameOf]

theorem index_lt {p : pmm} {a : U64} (hp : p.Ready) (h : frameOf a < p.m_numPages.toNat) :
    a / 0x1000 < p.bitmap.m_length := by
  rw [hp.length, BitVec.lt_def, frame_index]
  exact h

/-- The frame that a loop over all frames names in turn `i`. -/
theorem frameOf_turn {i : Nat} (h : i < 2 ^ 52) : frameOf (BitVec.ofNat 64 i * 0x1000) = i := by
  simp only [frameOf, BitVec.toNat_mul, BitVec.toNat_ofNat, BitVec.reduceToNat]
  omega

theorem test.spec {p : pmm} {a : U64} {v : Bool} (hp : p.Ready) (h : p.test a = ok v) :
    frameOf a < p.m_numPages.toNat ∧ (v = true ↔ p.Used (frameOf a)) := by
  obtain ⟨hlt, rfl⟩ := bitset.test.spec h
  rw [hp.length] at hlt
  refine ⟨by rw [← frame_index]; exact hlt, ?_⟩
  rw [frame_index]
  rfl

theorem test.total {p : pmm} {a : U64} (hp : p.Ready) (h : frameOf a < p.m_numPages.toNat) :
    p.test a = ok (decide (p.Used (frameOf a))) := by
  have hlt := index_lt hp h
  have hbit : decide (p.Used (frameOf a)) = p.bitmap.has (frameOf a) := by
    rw [Bool.eq_iff_iff, decide_eq_true_iff]
    rfl
  rw [test, bitmap_test, bitset.test.total hp.fits hlt, frame_index, hbit]

theorem set.spec {p p' : pmm} {a : U64} (hp : p.Ready) (h : p.set a = ok p') :
    frameOf a < p.m_numPages.toNat ∧ Marks p p' fun g => g = frameOf a ∨ p.Used g := by
  obtain ⟨b, hb, he⟩ := bind_eq_ok.mp h
  cases he
  obtain ⟨hlt, hshape, hhas⟩ := bitset.set.spec hb
  rw [hp.length] at hlt
  refine ⟨by rw [← frame_index]; exact hlt, rfl, hshape, fun g => ?_⟩
  show b.has g = true ↔ _
  rw [hhas, frame_index]
  by_cases hg : g = frameOf a <;> simp [hg, Used]

theorem set.total {p : pmm} {a : U64} (hp : p.Ready) (h : frameOf a < p.m_numPages.toNat) :
    ∃ p', p.set a = ok p' := by
  have hlt := index_lt hp h
  obtain ⟨b, hb⟩ := bitset.set.total hp.fits hlt
  exact ⟨{ p with bitmap := b }, by simp only [set, bitmap_set, hb, bind_ok]⟩

theorem free.total {p : pmm} {a : U64} (hp : p.Ready) (h : frameOf a < p.m_numPages.toNat) :
    ∃ p', p.free a = ok p' := by
  have hlt := index_lt hp h
  obtain ⟨b, hb⟩ := bitset.clear.total hp.fits hlt
  exact ⟨{ p with bitmap := b }, by simp only [free, bitmap_free, hb, bind_ok]⟩

theorem free.spec {p p' : pmm} {a : U64} (hp : p.Ready) (h : p.free a = ok p') :
    frameOf a < p.m_numPages.toNat ∧ Marks p p' fun g => g ≠ frameOf a ∧ p.Used g := by
  obtain ⟨b, hb, he⟩ := bind_eq_ok.mp h
  cases he
  obtain ⟨hlt, hshape, hhas⟩ := bitset.clear.spec hb
  rw [hp.length] at hlt
  refine ⟨by rw [← frame_index]; exact hlt, rfl, hshape, fun g => ?_⟩
  show b.has g = true ↔ _
  rw [hhas, frame_index]
  by_cases hg : g = frameOf a <;> simp [hg, Used]

/-- The bit operations end, and stop only at an index out of bounds. -/
theorem set.stops (p : pmm) (a : U64) : (p.set a).Meets bitset.BoundsStop fun _ => True :=
  (bitset.set.stops _ _).bind fun _ _ => Meets.ok trivial

theorem free.stops (p : pmm) (a : U64) : (p.free a).Meets bitset.BoundsStop fun _ => True :=
  (bitset.clear.stops _ _).bind fun _ _ => Meets.ok trivial

/-- `set_free_memory` counts, and changes no frame. -/
theorem set_free_memory.spec {p p' : pmm} (h : p.set_free_memory = ok p') :
    p'.bitmap = p.bitmap ∧ p'.m_numPages = p.m_numPages := by
  obtain ⟨s, hs, he⟩ := bind_eq_ok.mp h
  cases he
  refine forRange_inv (fun _ (t : U64 × pmm) => t.2.bitmap = p.bitmap ∧
    t.2.m_numPages = p.m_numPages) ?_ ⟨rfl, rfl⟩ hs
  intro i t t' _ ht hb
  obtain ⟨u, _, hu⟩ := bind_eq_ok.mp hb
  split at hu <;> cases hu <;> exact ht

theorem set_free_memory.total {p : pmm} (hp : p.Ready) : ∃ p', p.set_free_memory = ok p' := by
  have hN := hp.pages
  have hturn : ∀ i (s : U64 × pmm), i < p.m_numPages.toNat →
      s.2.Ready ∧ s.2.m_numPages = p.m_numPages →
      ∃ s', countTurn i s = ok s' ∧ s'.2.Ready ∧ s'.2.m_numPages = p.m_numPages := by
    rintro i ⟨c, q⟩ hi ⟨hq, hqN⟩
    have hin : frameOf (BitVec.ofNat 64 i * 0x1000) < q.m_numPages.toNat := by
      rw [frameOf_turn (by omega), hqN]
      exact hi
    simp only [countTurn, test.total hq hin, bind_ok]
    split
    · exact ⟨_, rfl, hq, hqN⟩
    · exact ⟨_, rfl, ⟨hq.length, hq.fits, hq.pages⟩, hqN⟩
  obtain ⟨s, hs, _⟩ := forRange_ok (s := (0, p)) (fun _ (s : U64 × pmm) =>
    s.2.Ready ∧ s.2.m_numPages = p.m_numPages) hturn ⟨hp, rfl⟩
  exact ⟨{ s.2 with m_maxFreePages := s.1 }, by simp only [set_free_memory, hs, bind_ok]⟩

end pmm
end lobo
