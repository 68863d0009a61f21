-- `common::bitset`: a set of indices in the bits of a buffer. Each operation
-- checks its index against the length, and then changes the one bit it names.
import CanidaeOS.Kernel

open Program Machine Outcome

namespace lobo

structure bitset where
  m_ptr : Buffer
  m_length : U64

namespace bitset

def test (b : bitset) (bit : U64) : Outcome Stop Bool := do
  assert (bit < b.m_length) "bit < m_length"
  let byte ← b.m_ptr.load (bit / 8)
  ok (byte &&& (1#8 <<< (bit % 8)) != 0)

def set (b : bitset) (bit : U64) : Outcome Stop bitset := do
  assert (bit < b.m_length) "bit < m_length"
  let byte ← b.m_ptr.load (bit / 8)
  let m_ptr ← b.m_ptr.store (bit / 8) (byte ||| (1#8 <<< (bit % 8)))
  ok { b with m_ptr }

def clear (b : bitset) (bit : U64) : Outcome Stop bitset := do
  assert (bit < b.m_length) "bit < m_length"
  let byte ← b.m_ptr.load (bit / 8)
  let m_ptr ← b.m_ptr.store (bit / 8) (byte &&& ~~~(1#8 <<< (bit % 8)))
  ok { b with m_ptr }

def flip (b : bitset) (bit : U64) : Outcome Stop bitset := do
  assert (bit < b.m_length) "bit < m_length"
  let v ← b.test bit
  if v then b.clear bit else b.set bit

/-! ## The set of indices -/

/-- Index `i` is in the set. -/
def has (b : bitset) (i : Nat) : Bool := (b.m_ptr.byte (i / 8)).getLsbD (i % 8)

/-- The buffer holds a bit for every index below the length. -/
def Fits (b : bitset) : Prop := b.m_length.toNat ≤ 8 * b.m_ptr.size

/-- The same bits in the same place, but for what `has` says. -/
structure SameShape (b b' : bitset) : Prop where
  length : b'.m_length = b.m_length
  addr : b'.m_ptr.addr = b.m_ptr.addr
  size : b'.m_ptr.size = b.m_ptr.size

theorem and_bit (byte : U8) (k : Nat) : (byte &&& (1#8 <<< k) != 0) = byte.getLsbD k := by
  rw [← BitVec.twoPow_eq, BitVec.and_twoPow]
  by_cases hk : k < 8
  · cases h : byte.getLsbD k
    · simp
    · interval_cases k <;> simp <;> decide
  · simp [BitVec.getLsbD_of_ge byte k (by omega)]

theorem or_bit (byte : U8) {j : Nat} (k : Nat) (hj : j < 8) :
    (byte ||| (1#8 <<< k)).getLsbD j = (decide (j = k) || byte.getLsbD j) := by
  rw [← BitVec.twoPow_eq]
  simp [hj, Bool.or_comm]

theorem and_not_bit (byte : U8) {j : Nat} (k : Nat) (hj : j < 8) :
    (byte &&& ~~~(1#8 <<< k)).getLsbD j = (!decide (j = k) && byte.getLsbD j) := by
  rw [← BitVec.twoPow_eq]
  simp [hj, Bool.and_comm]

/-- The bits of a byte with the bit of an index set. -/
theorem set_bit (byte : U8) (bit : U64) {j : Nat} (hj : j < 8) :
    (byte ||| (1#8 <<< (bit % 8))).getLsbD j =
      if j = bit.toNat % 8 then true else byte.getLsbD j := by
  rw [BitVec.shiftLeft_eq', or_bit _ _ hj]
  by_cases hjk : j = bit.toNat % 8 <;> simp [hjk]

/-- The bits of a byte with the bit of an index cleared. -/
theorem clear_bit (byte : U8) (bit : U64) {j : Nat} (hj : j < 8) :
    (byte &&& ~~~(1#8 <<< (bit % 8))).getLsbD j =
      if j = bit.toNat % 8 then false else byte.getLsbD j := by
  rw [BitVec.shiftLeft_eq', and_not_bit _ _ hj]
  by_cases hjk : j = bit.toNat % 8 <;> simp [hjk]

theorem byte_index (bit : U64) : (bit / 8).toNat = bit.toNat / 8 := by simp

/-! ## One byte changed -/

/-- What `set` and `clear` share: `f` changes the byte of `bit`. -/
def update (b : bitset) (bit : U64) (f : U8 → U8) : Outcome Stop bitset := do
  assert (bit < b.m_length) "bit < m_length"
  let byte ← b.m_ptr.load (bit / 8)
  let m_ptr ← b.m_ptr.store (bit / 8) (f byte)
  ok { b with m_ptr }

theorem set_eq_update (b : bitset) (bit : U64) :
    b.set bit = b.update bit (· ||| (1#8 <<< (bit % 8))) := rfl

theorem clear_eq_update (b : bitset) (bit : U64) :
    b.clear bit = b.update bit (· &&& ~~~(1#8 <<< (bit % 8))) := rfl

/-- The bitset that `update` leaves. -/
def changed (b : bitset) (bit : U64) (f : U8 → U8) : bitset :=
  { b with m_ptr := { b.m_ptr with byte := fun j =>
      if j = (bit / 8).toNat then f (b.m_ptr.byte (bit / 8).toNat) else b.m_ptr.byte j } }

/-- What `f` does to other bytes does not count. -/
theorem changed_congr {b : bitset} {bit : U64} {f g : U8 → U8}
    (h : f (b.m_ptr.byte (bit / 8).toNat) = g (b.m_ptr.byte (bit / 8).toNat)) :
    b.changed bit f = b.changed bit g := by
  unfold changed
  rw [h]

theorem changed_shape (b : bitset) (bit : U64) (f : U8 → U8) : SameShape b (b.changed bit f) :=
  ⟨rfl, rfl, rfl⟩

/-- A change of the one bit of `bit` to `v`. -/
theorem changed_has {b : bitset} {bit : U64} {f : U8 → U8} (v : Bool)
    (hw : ∀ j < 8, (f (b.m_ptr.byte (bit / 8).toNat)).getLsbD j =
      if j = bit.toNat % 8 then v else (b.m_ptr.byte (bit / 8).toNat).getLsbD j) (i : Nat) :
    (b.changed bit f).has i = if i = bit.toNat then v else b.has i := by
  rw [byte_index] at hw
  unfold has
  simp only [changed, byte_index]
  by_cases hi : i / 8 = bit.toNat / 8
  · rw [if_pos hi, hw _ (Nat.mod_lt _ (by omega)), hi]
    by_cases hij : i = bit.toNat
    · simp [hij]
    · rw [if_neg hij, if_neg (by omega)]
  · rw [if_neg hi, if_neg (by rintro rfl; exact hi rfl)]

/-! ## The stops -/

/-- The index is not below the length, or its byte is not in the buffer. -/
def BoundsStop (e : Stop) : Prop := e = .assertion "bit < m_length" ∨ e = .outside

theorem assert_bounds (b : bitset) (bit : U64) :
    (assert (bit < b.m_length) "bit < m_length").Meets BoundsStop fun _ => True :=
  ensure_meets _ (Or.inl rfl)

theorem load_bounds (b : Buffer) (i : U64) : (b.load i).Meets BoundsStop fun _ => True :=
  (Buffer.load.stops b i).mono (fun _ h => Or.inr h) fun _ h => h

theorem store_bounds (b : Buffer) (i : U64) (v : U8) :
    (b.store i v).Meets BoundsStop fun _ => True :=
  (Buffer.store.stops b i v).mono (fun _ h => Or.inr h) fun _ h => h

theorem test.stops (b : bitset) (bit : U64) : (b.test bit).Meets BoundsStop fun _ => True :=
  (assert_bounds b bit).bind fun _ _ => (load_bounds _ _).bind fun _ _ => Meets.ok trivial

theorem update.stops (b : bitset) (bit : U64) (f : U8 → U8) :
    (b.update bit f).Meets BoundsStop fun _ => True :=
  (assert_bounds b bit).bind fun _ _ => (load_bounds _ _).bind fun _ _ =>
    (store_bounds _ _ _).bind fun _ _ => Meets.ok trivial

theorem set.stops (b : bitset) (bit : U64) : (b.set bit).Meets BoundsStop fun _ => True :=
  update.stops b bit _

theorem clear.stops (b : bitset) (bit : U64) : (b.clear bit).Meets BoundsStop fun _ => True :=
  update.stops b bit _

/-! ## The specs -/

theorem byte_index_lt {b : bitset} {bit : U64} (hf : b.Fits) (h : bit < b.m_length) :
    (bit / 8).toNat < b.m_ptr.size := by
  have : bit.toNat < b.m_length.toNat := h
  unfold Fits at hf
  rw [byte_index]
  omega

theorem test.spec {b : bitset} {bit : U64} {v : Bool} (h : b.test bit = ok v) :
    bit < b.m_length ∧ v = b.has bit.toNat := by
  simp only [test, bind_eq_ok, assert_eq_ok, Buffer.load_eq_ok, byte_index] at h
  obtain ⟨_, hlt, byte, ⟨_, rfl⟩, hv⟩ := h
  refine ⟨hlt, ?_⟩
  rw [BitVec.shiftLeft_eq', and_bit] at hv
  cases hv
  simp [has]

theorem test.total {b : bitset} {bit : U64} (hf : b.Fits) (h : bit < b.m_length) :
    b.test bit = ok (b.has bit.toNat) := by
  have hi := byte_index_lt hf h
  simp only [test, assert_ok _ h, Buffer.load, if_pos hi, bind_ok, BitVec.shiftLeft_eq', and_bit]
  simp [has]

theorem update.spec {b b' : bitset} {bit : U64} {f : U8 → U8} (h : b.update bit f = ok b') :
    bit < b.m_length ∧ b' = b.changed bit f := by
  simp only [update, bind_eq_ok, assert_eq_ok, Buffer.load_eq_ok, Buffer.store_eq_ok] at h
  obtain ⟨_, hlt, byte, ⟨_, rfl⟩, m_ptr, ⟨_, rfl⟩, hb⟩ := h
  cases hb
  exact ⟨hlt, rfl⟩

theorem update.total {b : bitset} {bit : U64} (hf : b.Fits) (h : bit < b.m_length)
    (f : U8 → U8) : b.update bit f = ok (b.changed bit f) := by
  have hi := byte_index_lt hf h
  simp only [update, assert_ok _ h, Buffer.load, Buffer.store, if_pos hi, bind_ok]
  rfl

/-- `set` puts one index in the set. -/
theorem set.spec {b b' : bitset} {bit : U64} (h : b.set bit = ok b') :
    bit < b.m_length ∧ SameShape b b' ∧
      ∀ i, b'.has i = if i = bit.toNat then true else b.has i := by
  rw [set_eq_update] at h
  rcases update.spec h with ⟨hlt, rfl⟩
  exact ⟨hlt, changed_shape b bit _, changed_has true fun j hj => set_bit _ bit hj⟩

theorem set.total {b : bitset} {bit : U64} (hf : b.Fits) (h : bit < b.m_length) :
    ∃ b', b.set bit = ok b' :=
  ⟨_, update.total hf h _⟩

/-- `clear` takes one index out of the set. -/
theorem clear.spec {b b' : bitset} {bit : U64} (h : b.clear bit = ok b') :
    bit < b.m_length ∧ SameShape b b' ∧
      ∀ i, b'.has i = if i = bit.toNat then false else b.has i := by
  rw [clear_eq_update] at h
  rcases update.spec h with ⟨hlt, rfl⟩
  exact ⟨hlt, changed_shape b bit _, changed_has false fun j hj => clear_bit _ bit hj⟩

theorem clear.total {b : bitset} {bit : U64} (hf : b.Fits) (h : bit < b.m_length) :
    ∃ b', b.clear bit = ok b' :=
  ⟨_, update.total hf h _⟩

end bitset
end lobo
