-- What page tables are for: a map from pages to a frame and its flags, with
-- the runs of pages that are added to it and taken from it.
import CanidaeOS.PageWalk

open Machine

namespace Paging

/-- The frame and the flags of each page that is mapped, by its address. -/
abbrev PageMap := U64 → Option (U64 × U64)

/-- The address of the `k`-th page from `v` on. -/
def pageAt (v : U64) (k : Nat) : U64 := v + BitVec.ofNat 64 k * 0x1000

@[simp] theorem pageAt_zero (v : U64) : pageAt v 0 = v := by simp [pageAt]

theorem pageAt_aligned {v : U64} (hv : PageAligned v) (k : Nat) : PageAligned (pageAt v k) := by
  unfold PageAligned pageAt at *
  simp only [BitVec.toNat_add, BitVec.toNat_mul, BitVec.toNat_ofNat, BitVec.reduceToNat]
  omega

theorem pageAt_succ (v : U64) (k : Nat) : pageAt v (k + 1) = pageAt v k + 0x1000 := by
  rw [pageAt, pageAt, BitVec.ofNat_add, BitVec.add_mul, ← BitVec.add_assoc]
  rfl

theorem pageAt_sub (v : U64) {k : Nat} (hk : k < 2 ^ 52) : (pageAt v k - v).toNat = k * 0x1000 := by
  have hsub : pageAt v k - v = BitVec.ofNat 64 k * 0x1000 := by
    rw [pageAt]
    ring
  rw [hsub, BitVec.toNat_mul, BitVec.toNat_ofNat]
  simp only [BitVec.reduceToNat]
  omega

theorem pageAt_offset (v x : U64) {k : Nat} (hk : (x - v).toNat = k * 0x1000) : pageAt v k = x := by
  have hsub : BitVec.ofNat 64 k * 0x1000 = x - v := by
    apply BitVec.eq_of_toNat_eq
    have := (x - v).isLt
    rw [BitVec.toNat_mul, BitVec.toNat_ofNat]
    simp only [BitVec.reduceToNat]
    omega
  rw [pageAt, hsub]
  ring

theorem sub_aligned {v x : U64} (hv : PageAligned v) (hx : PageAligned x) : PageAligned (x - v) := by
  unfold PageAligned at *
  rw [BitVec.toNat_sub]
  have := v.isLt
  omega

/-- The last page of a run, or one of those before it. -/
theorem inRange_page {v x : U64} (hv : PageAligned v) (hx : PageAligned x) {n : Nat}
    (hn : n < 2 ^ 52) :
    InRange v ((n + 1) * 0x1000) x ↔ x = pageAt v n ∨ InRange v (n * 0x1000) x := by
  have ha := sub_aligned hv hx
  unfold PageAligned at ha
  unfold InRange
  constructor
  · intro h
    rcases Nat.lt_or_ge (x - v).toNat (n * 0x1000) with hlt | hge
    · exact Or.inr hlt
    · exact Or.inl (pageAt_offset v x (by omega)).symm
  · rintro (rfl | h)
    · rw [pageAt_sub v hn]
      omega
    · exact Nat.lt_of_lt_of_le h (Nat.mul_le_mul_right _ (Nat.le_succ n))

/-- A page of a run, by its number in it. -/
theorem inRange_pageAt (v : U64) {k n : Nat} (hk : k < 2 ^ 52) :
    InRange v (n * 0x1000) (pageAt v k) ↔ k < n := by
  unfold InRange
  rw [pageAt_sub v hk]
  omega

/-- The pages that `length` bytes take. -/
def pages (length : U64) : Nat := (length.toNat + 0xFFF) / 0x1000

theorem pages_le (length : U64) : pages length ≤ 2 ^ 52 := by
  have := length.isLt
  unfold pages
  omega

theorem page_starts_below {length : U64} {i : Nat} (hi : i < pages length) :
    i * 0x1000 < length.toNat := by
  unfold pages at hi
  omega

theorem length_le (length : U64) : length.toNat ≤ pages length * 0x1000 := by
  unfold pages
  omega

namespace PageMap

/-- `n` pages from `v` on, with the frames from `p` on. -/
def add (M : PageMap) (v p flags : U64) (n : Nat) : PageMap := fun x =>
  if InRange v (n * 0x1000) x then some (p + (x - v), flags) else M x

/-- The map without the `n` pages from `v` on. -/
def remove (M : PageMap) (v : U64) (n : Nat) : PageMap := fun x =>
  if InRange v (n * 0x1000) x then none else M x

/-- `add`, refused when one of the pages is mapped. -/
def addNew (M : PageMap) (v p flags : U64) (n : Nat) : Option PageMap :=
  if ∃ k < n, (M (pageAt v k)).isSome then none else some (M.add v p flags n)

@[simp] theorem add_zero (M : PageMap) (v p flags : U64) : M.add v p flags 0 = M := by
  funext x
  simp [add, InRange]

@[simp] theorem remove_zero (M : PageMap) (v : U64) : M.remove v 0 = M := by
  funext x
  simp [remove, InRange]

theorem add_succ (M : PageMap) {v x : U64} (p flags : U64) (hv : PageAligned v)
    (hx : PageAligned x) {n : Nat} (hn : n < 2 ^ 52) : M.add v p flags (n + 1) x =
      if x = pageAt v n then some (pageAt p n, flags) else M.add v p flags n x := by
  simp only [add, inRange_page hv hx hn]
  by_cases h : x = pageAt v n
  · have hsub : pageAt v n - v = BitVec.ofNat 64 n * 0x1000 := by
      rw [pageAt]
      ring
    rw [if_pos (Or.inl h), if_pos h, h, hsub, pageAt]
  · simp only [h, false_or, if_false]

theorem remove_succ (M : PageMap) {v x : U64} (hv : PageAligned v) (hx : PageAligned x) {n : Nat}
    (hn : n < 2 ^ 52) :
    M.remove v (n + 1) x = if x = pageAt v n then none else M.remove v n x := by
  simp only [remove, inRange_page hv hx hn]
  by_cases h : x = pageAt v n <;> simp [h]

/-- A page ahead of a run that is being added. -/
theorem add_ahead (M : PageMap) {v : U64} (p flags : U64) {k n : Nat} (hk : k < 2 ^ 52)
    (hn : n ≤ k) : M.add v p flags n (pageAt v k) = M (pageAt v k) := by
  rw [add, if_neg]
  rw [inRange_pageAt v hk]
  omega

theorem remove_ahead (M : PageMap) {v : U64} {k n : Nat} (hk : k < 2 ^ 52) (hn : n ≤ k) :
    M.remove v n (pageAt v k) = M (pageAt v k) := by
  rw [remove, if_neg]
  rw [inRange_pageAt v hk]
  omega

end PageMap

end Paging
