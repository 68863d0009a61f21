-- The kernel's own C library, as far as the kernel's code calls it. A pointer
-- is an address in a memory that records the addresses touched.
import CanidaeOS.Memory

open Machine

namespace libc

/-! ## memset -/

/-- `for (i = 0; i < num; i++) { *ptr_index = value; ptr_index++; }` -/
def fill (ptr : U64) (value : U8) : Nat → Memory → Memory
  | 0, m => m
  | i + 1, m => fun x => if x = ptr + BitVec.ofNat 64 i then value else fill ptr value i m x

def memset (ptr : U64) (value : U32) (num : U64) (m : Memory) : Memory :=
  fill ptr (value.setWidth 8) num.toNat m

theorem memset.spec (ptr : U64) (value : U32) (num : U64) (m : Memory) (x : U64) :
    memset ptr value num m x = if InRange ptr num.toNat x then value.setWidth 8 else m x := by
  have hfill : ∀ n, n ≤ 2 ^ 64 → fill ptr (value.setWidth 8) n m x =
      if InRange ptr n x then value.setWidth 8 else m x := by
    intro n hn
    induction n with
    | zero => simp [fill, InRange]
    | succ i ih =>
      simp only [fill, inRange_succ (show i < 2 ^ 64 by omega), ih (by omega)]
      by_cases hx : x = ptr + BitVec.ofNat 64 i <;> simp [hx]
  exact hfill num.toNat num.isLt.le

/-! ## memmove -/

/-- `for (i = 0; i < size; i++) dst[i] = src[i];` -/
def copyUp (dst src : U64) : Nat → Ram → Ram
  | 0, r => r
  | i + 1, r =>
    let (v, r) := (copyUp dst src i r).load (src + BitVec.ofNat 64 i)
    r.store (dst + BitVec.ofNat 64 i) v

/-- `for (i = size; i != 0; i--) dst[i - 1] = src[i - 1];` -/
def copyDown (dst src : U64) : Nat → Ram → Ram
  | 0, r => r
  | i + 1, r =>
    let (v, r) := r.load (src + BitVec.ofNat 64 i)
    copyDown dst src i (r.store (dst + BitVec.ofNat 64 i) v)

def memmove (dst src size : U64) (r : Ram) : Ram :=
  if dst < src then copyUp dst src size.toNat r else copyDown dst src size.toNat r

/-- The bytes of `r` with `n` of them moved from `src` to `dst`. -/
def Moved (dst src : U64) (n : Nat) (r r' : Ram) : Prop :=
  ∀ x, r'.byte x = if InRange dst n x then r.byte (src + (x - dst)) else r.byte x

theorem offset_toNat (a : U64) {i n : Nat} (hi : i < n) (hn : a.toNat + n ≤ 2 ^ 64) :
    (a + BitVec.ofNat 64 i).toNat = a.toNat + i := by
  rw [BitVec.toNat_add, BitVec.toNat_ofNat]
  omega

theorem copyUp.spec {dst src : U64} (hlt : dst < src) {n : Nat} (hd : dst.toNat + n ≤ 2 ^ 64)
    (hs : src.toNat + n ≤ 2 ^ 64) (r : Ram) : Moved dst src n r (copyUp dst src n r) := by
  induction n with
  | zero =>
    intro x
    simp [copyUp, InRange]
  | succ i ih =>
    intro x
    have ih := ih (by omega) (by omega)
    have hlt' : dst.toNat < src.toNat := hlt
    have hso := offset_toNat src (Nat.lt_succ_self i) hs
    -- the byte read in this turn is ahead of all that were written
    have hread : (copyUp dst src i r).byte (src + BitVec.ofNat 64 i) =
        r.byte (src + BitVec.ofNat 64 i) := by
      rw [ih, if_neg]
      rw [inRange_iff (by omega), hso]
      omega
    simp only [copyUp, Ram.store_byte, Ram.load_byte, Ram.load_fst, hread, inRange_succ (show i < 2 ^ 64 by omega)]
    by_cases hx : x = dst + BitVec.ofNat 64 i
    · subst hx
      simp
    · simp only [hx, if_false, false_or, ih x]

theorem copyDown.spec {dst src : U64} (hle : ¬ dst < src) {n : Nat} (hd : dst.toNat + n ≤ 2 ^ 64)
    (hs : src.toNat + n ≤ 2 ^ 64) (r : Ram) : Moved dst src n r (copyDown dst src n r) := by
  induction n generalizing r with
  | zero =>
    intro x
    simp [copyDown, InRange]
  | succ i ih =>
    intro x
    have hle' : ¬ dst.toNat < src.toNat := hle
    have hdo := offset_toNat dst (Nat.lt_succ_self i) hd
    simp only [copyDown, inRange_succ (show i < 2 ^ 64 by omega)]
    rw [ih (by omega) (by omega)]
    by_cases hin : InRange dst i x
    · -- the bytes still to be read are below the one written in this turn
      have hx := (inRange_iff (by omega)).mp hin
      have hxi : src + (x - dst) ≠ dst + BitVec.ofNat 64 i := by
        rw [Ne, ← BitVec.toNat_inj, hdo]
        bv_omega
      simp [hin, hxi]
    · by_cases hx : x = dst + BitVec.ofNat 64 i
      · subst hx
        simp [hin]
      · simp [hin, hx]

theorem memmove.spec {dst src size : U64} (hd : dst.toNat + size.toNat ≤ 2 ^ 64)
    (hs : src.toNat + size.toNat ≤ 2 ^ 64) (r : Ram) :
    Moved dst src size.toNat r (memmove dst src size r) := by
  unfold memmove
  split
  · rename_i hlt
    exact copyUp.spec hlt hd hs r
  · rename_i hle
    exact copyDown.spec hle hd hs r

/-- `memmove` leaves at `dst` what was at `src` before it, wherever the two
ranges meet, and no other byte changes. -/
theorem memmove_is_right_under_overlap {dst src size : U64}
    (hd : dst.toNat + size.toNat ≤ 2 ^ 64) (hs : src.toNat + size.toNat ≤ 2 ^ 64) (r : Ram) :
    (∀ i, i < size → (memmove dst src size r).byte (dst + i) = r.byte (src + i)) ∧
    ∀ x, ¬ InRange dst size.toNat x → (memmove dst src size r).byte x = r.byte x := by
  have hmoved := memmove.spec hd hs r
  refine ⟨fun i hi => ?_, fun x hx => ?_⟩
  · have hoff : dst + i - dst = i := by simp
    have hin : InRange dst size.toNat (dst + i) := by
      unfold InRange
      rw [hoff]
      exact hi
    rw [hmoved, if_pos hin, hoff]
  · rw [hmoved, if_neg hx]

/-- Every byte is the low byte of its address. -/
def lowBytes : Ram := ⟨fun x => x.setWidth 8, []⟩

/-- Three bytes moved up by two, and down by one. -/
theorem memmove_is_right_on_low_bytes : ((∀ i, i < 3 →
    (memmove 0x1002 0x1000 3 lowBytes).byte (0x1002 + i) = lowBytes.byte (0x1000 + i)) ∧
    ∀ x, ¬ InRange 0x1002 3 x → (memmove 0x1002 0x1000 3 lowBytes).byte x = lowBytes.byte x) ∧
    (∀ i, i < 3 →
      (memmove 0x1000 0x1001 3 lowBytes).byte (0x1000 + i) = lowBytes.byte (0x1001 + i)) ∧
    ∀ x, ¬ InRange 0x1000 3 x → (memmove 0x1000 0x1001 3 lowBytes).byte x = lowBytes.byte x :=
  ⟨memmove_is_right_under_overlap (by decide) (by decide) lowBytes,
    memmove_is_right_under_overlap (by decide) (by decide) lowBytes⟩

variable {dst src a : U64} {n : Nat}

theorem copyUp.touched (hn : n ≤ 2 ^ 64) {r : Ram} (h : a ∈ (copyUp dst src n r).touched) :
    a ∈ r.touched ∨ InRange dst n a ∨ InRange src n a := by
  induction n with
  | zero => exact Or.inl h
  | succ i ih =>
    rw [inRange_succ (by omega), inRange_succ (by omega)]
    simp only [copyUp, Ram.store_touched, Ram.load_touched, List.mem_append,
      List.mem_singleton] at h
    rcases h with (h | rfl) | rfl
    · rcases ih (by omega) h with h | h | h
      · exact Or.inl h
      · exact Or.inr (Or.inl (Or.inr h))
      · exact Or.inr (Or.inr (Or.inr h))
    · exact Or.inr (Or.inr (Or.inl rfl))
    · exact Or.inr (Or.inl (Or.inl rfl))

theorem copyDown.touched (hn : n ≤ 2 ^ 64) {r : Ram} (h : a ∈ (copyDown dst src n r).touched) :
    a ∈ r.touched ∨ InRange dst n a ∨ InRange src n a := by
  induction n generalizing r with
  | zero => exact Or.inl h
  | succ i ih =>
    rw [inRange_succ (by omega), inRange_succ (by omega)]
    unfold copyDown at h
    rcases ih (by omega) h with h | h | h
    · simp only [Ram.store_touched, List.mem_append, List.mem_singleton] at h
      rcases h with (h | rfl) | rfl
      · exact Or.inl h
      · exact Or.inr (Or.inr (Or.inl rfl))
      · exact Or.inr (Or.inl (Or.inl rfl))
    · exact Or.inr (Or.inl (Or.inr h))
    · exact Or.inr (Or.inr (Or.inr h))

/-- `memmove` touches its two ranges only. -/
theorem memmove.touched {dst src size : U64} (r : Ram) {a : U64}
    (h : a ∈ (memmove dst src size r).touched) :
    a ∈ r.touched ∨ InRange dst size.toNat a ∨ InRange src size.toNat a := by
  unfold memmove at h
  split at h
  · exact copyUp.touched size.isLt.le h
  · exact copyDown.touched size.isLt.le h

end libc
