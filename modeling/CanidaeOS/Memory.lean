-- Machine words, and memory as a byte for every 64-bit address. Words are
-- stored with the low byte first. Ranges of addresses wrap at the top of the
-- address space, so no rule here asks that a range ends below it.
import Mathlib

namespace Machine

abbrev U8 := BitVec 8
abbrev U16 := BitVec 16
abbrev U32 := BitVec 32
abbrev U64 := BitVec 64

abbrev Memory := U64 → U8

/-! ## Ranges of addresses -/

/-- `x` is one of the `n` bytes from `a` on. -/
def InRange (a : U64) (n : Nat) (x : U64) : Prop := (x - a).toNat < n

instance (a : U64) (n : Nat) (x : U64) : Decidable (InRange a n x) :=
  inferInstanceAs (Decidable (_ < _))

/-- The `n` bytes from `a` on and the `k` bytes from `b` on share no byte. -/
def Apart (a : U64) (n : Nat) (b : U64) (k : Nat) : Prop :=
  ∀ x, InRange a n x → ¬ InRange b k x

theorem Apart.symm {a b : U64} {n k : Nat} (h : Apart a n b k) : Apart b k a n :=
  fun x hb ha => h x ha hb

/-- A range that does not wrap, as two bounds. -/
theorem inRange_iff {a x : U64} {n : Nat} (h : a.toNat + n ≤ 2 ^ 64) :
    InRange a n x ↔ a.toNat ≤ x.toNat ∧ x.toNat < a.toNat + n := by
  unfold InRange
  bv_omega

/-- A range that ends where another starts, or below, is apart from it. -/
theorem apart_of_le {a b : U64} {n k : Nat} (h : a.toNat + n ≤ b.toNat)
    (hk : b.toNat + k ≤ 2 ^ 64) : Apart a n b k := by
  intro x hx hx'
  have := b.isLt
  rw [inRange_iff (by omega)] at hx
  rw [inRange_iff hk] at hx'
  omega

theorem inRange_offset (a : U64) {i n : Nat} (hi : i < n) (hn : n ≤ 2 ^ 64) :
    InRange a n (a + BitVec.ofNat 64 i) := by
  unfold InRange
  have : (a + BitVec.ofNat 64 i - a).toNat = i := by
    have := BitVec.toNat_ofNat i 64
    bv_omega
  omega

/-- A part of a range. -/
theorem inRange_of_part {a i x : U64} {k n : Nat} (hle : i.toNat + k ≤ n)
    (h : InRange (a + i) k x) : InRange a n x := by
  unfold InRange at *
  bv_omega

/-- The last byte of a range, or one of those before it. -/
theorem inRange_succ {a x : U64} {i : Nat} (hi : i < 2 ^ 64) :
    InRange a (i + 1) x ↔ x = a + BitVec.ofNat 64 i ∨ InRange a i x := by
  have hlast : x = a + BitVec.ofNat 64 i ↔ (x - a).toNat = i := by
    have := BitVec.toNat_ofNat i 64
    rw [Nat.mod_eq_of_lt hi] at this
    bv_omega
  rw [hlast]
  unfold InRange
  omega

/-! ## Words in memory -/

/-- The number in the `k` bytes from `a` on, low byte first. -/
def loadBytes (m : Memory) (a : U64) : Nat → Nat
  | 0 => 0
  | k + 1 => loadBytes m a k + 256 ^ k * (m (a + BitVec.ofNat 64 k)).toNat

def storeBytes (m : Memory) (a : U64) (k : Nat) (v : Nat) : Memory := fun x =>
  if InRange a k x then BitVec.ofNat 8 (v / 256 ^ (x - a).toNat) else m x

def load64 (m : Memory) (a : U64) : U64 := BitVec.ofNat 64 (loadBytes m a 8)

def store64 (m : Memory) (a v : U64) : Memory := storeBytes m a 8 v.toNat

theorem loadBytes_congr {m m' : Memory} {a : U64} {k : Nat} (hk : k ≤ 2 ^ 64)
    (h : ∀ x, InRange a k x → m x = m' x) : loadBytes m a k = loadBytes m' a k := by
  induction k with
  | zero => rfl
  | succ k ih =>
    have hlast := h _ (inRange_offset a (Nat.lt_succ_self k) hk)
    rw [loadBytes, loadBytes, hlast, ih (by omega) fun x hx => h x (by unfold InRange at *; omega)]

theorem loadBytes_storeBytes (m : Memory) (a : U64) (v : Nat) {j k : Nat} (hj : j ≤ k)
    (hk : k ≤ 2 ^ 64) : loadBytes (storeBytes m a k v) a j = v % 256 ^ j := by
  induction j with
  | zero => simp [loadBytes, Nat.mod_one]
  | succ j ih =>
    have hin : InRange a k (a + BitVec.ofNat 64 j) := inRange_offset a hj hk
    have hoff : (a + BitVec.ofNat 64 j - a).toNat = j := by
      have := BitVec.toNat_ofNat j 64
      bv_omega
    rw [loadBytes, ih (by omega), storeBytes, if_pos hin, hoff, BitVec.toNat_ofNat,
      show 2 ^ 8 = 256 by norm_num, Nat.mod_pow_succ]

theorem loadBytes_lt (m : Memory) (a : U64) (k : Nat) : loadBytes m a k < 256 ^ k := by
  induction k with
  | zero => simp [loadBytes]
  | succ k ih =>
    have hb := (m (a + BitVec.ofNat 64 k)).isLt
    have hmul : 256 ^ k * (m (a + BitVec.ofNat 64 k)).toNat ≤ 256 ^ k * 255 :=
      Nat.mul_le_mul_left _ (by omega)
    rw [loadBytes, pow_succ]
    omega

theorem load64_toNat (m : Memory) (a : U64) : (load64 m a).toNat = loadBytes m a 8 := by
  have := loadBytes_lt m a 8
  rw [load64, BitVec.toNat_ofNat, Nat.mod_eq_of_lt (by omega)]

@[simp] theorem load64_store64 (m : Memory) (a v : U64) : load64 (store64 m a v) a = v := by
  unfold load64 store64
  rw [loadBytes_storeBytes m a _ (Nat.le_refl 8) (by norm_num)]
  apply BitVec.eq_of_toNat_eq
  have := v.isLt
  rw [BitVec.toNat_ofNat]
  omega

theorem load64_congr {m m' : Memory} {a : U64} (h : ∀ x, InRange a 8 x → m x = m' x) :
    load64 m a = load64 m' a := by
  unfold load64
  rw [loadBytes_congr (by norm_num) h]

theorem storeBytes_frame {m : Memory} {a : U64} {k v : Nat} {x : U64} (h : ¬ InRange a k x) :
    storeBytes m a k v x = m x := if_neg h

/-- A store changes no byte outside its word. -/
theorem store64_frame (m : Memory) (a v : U64) {x : U64} (h : ¬ InRange a 8 x) :
    store64 m a v x = m x := storeBytes_frame h

theorem load64_store64_apart (m : Memory) {a b : U64} (v : U64) (h : Apart b 8 a 8) :
    load64 (store64 m a v) b = load64 m b :=
  load64_congr fun x hx => store64_frame m a v (h x hx)

theorem load64_zero {m : Memory} {a : U64} (h : ∀ x, InRange a 8 x → m x = 0) :
    load64 m a = 0 := by
  have hzero : load64 m a = load64 (fun _ => 0) a := load64_congr h
  rw [hzero]
  rfl

/-! ## Memory that keeps what was touched -/

/-- Memory with the addresses that were loaded or stored, oldest first. -/
structure Ram where
  byte : Memory
  touched : List U64

def Ram.load (r : Ram) (a : U64) : U8 × Ram :=
  (r.byte a, { r with touched := r.touched ++ [a] })

def Ram.store (r : Ram) (a : U64) (v : U8) : Ram :=
  { byte := fun x => if x = a then v else r.byte x, touched := r.touched ++ [a] }

@[simp] theorem Ram.load_fst (r : Ram) (a : U64) : (r.load a).1 = r.byte a := rfl

@[simp] theorem Ram.load_byte (r : Ram) (a : U64) : (r.load a).2.byte = r.byte := rfl

@[simp] theorem Ram.load_touched (r : Ram) (a : U64) :
    (r.load a).2.touched = r.touched ++ [a] := rfl

@[simp] theorem Ram.store_byte (r : Ram) (a : U64) (v : U8) (x : U64) :
    (r.store a v).byte x = if x = a then v else r.byte x := rfl

@[simp] theorem Ram.store_touched (r : Ram) (a : U64) (v : U8) :
    (r.store a v).touched = r.touched ++ [a] := rfl

end Machine
