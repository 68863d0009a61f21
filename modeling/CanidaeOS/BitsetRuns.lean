-- Any number of calls of a bitset against a set of indices. The calls keep to
-- the bytes that the length has bits in, whatever else the buffer has room for.
import CanidaeOS.Bitset

open Program Machine Outcome

namespace lobo.bitset

/-! ## Calls -/

inductive Call where
  | set (bit : U64)
  | clear (bit : U64)
  | flip (bit : U64)

def Call.bit : Call → U64
  | set bit | clear bit | flip bit => bit

def call (b : bitset) : Call → Outcome Stop bitset
  | .set bit => b.set bit
  | .clear bit => b.clear bit
  | .flip bit => b.flip bit

def calls : List Call → bitset → Outcome Stop bitset
  | [], b => ok b
  | e :: es, b => do
    let b ← b.call e
    calls es b

/-- The indices that `test` finds. -/
def members (b : bitset) : Set U64 := fun j => b.test j = ok true

/-- What a call does to a set of indices. -/
def after (S : Set U64) : Call → Set U64
  | .set bit => insert bit S
  | .clear bit => S \ {bit}
  | .flip bit => symmDiff S {bit}

/-- The set after the calls. -/
def reference (S : Set U64) (es : List Call) : Set U64 := es.foldl after S

/-- The bytes that have a bit of an index: ⌈`m_length` / 8⌉. -/
def bytes (b : bitset) : Nat := (b.m_length.toNat + 7) / 8

/-- The bitset in a buffer of that many bytes, where every access behind them
stops. -/
def cut (b : bitset) : bitset := { b with m_ptr := { b.m_ptr with size := b.bytes } }

/-! ## One call -/

/-- The byte of a call, from the byte that was there. -/
def Call.byte (byte : U8) : Call → U8
  | set bit => byte ||| (1#8 <<< (bit % 8))
  | clear bit => byte &&& ~~~(1#8 <<< (bit % 8))
  | flip bit =>
    if byte.getLsbD (bit.toNat % 8) then byte &&& ~~~(1#8 <<< (bit % 8))
    else byte ||| (1#8 <<< (bit % 8))

/-- What becomes of the bit. -/
def Call.value (v : Bool) : Call → Bool
  | set _ => true
  | clear _ => false
  | flip _ => !v

/-- The bitset after a call: one byte is another. -/
def called (b : bitset) (e : Call) : bitset := b.changed e.bit e.byte

variable {b : bitset} {e : Call} {es : List Call}

theorem set_eq {bit : U64} (hf : b.Fits) (h : bit < b.m_length) :
    b.set bit = ok (b.called (.set bit)) :=
  update.total hf h _

theorem clear_eq {bit : U64} (hf : b.Fits) (h : bit < b.m_length) :
    b.clear bit = ok (b.called (.clear bit)) :=
  update.total hf h _

theorem flip_eq {bit : U64} (hf : b.Fits) (h : bit < b.m_length) :
    b.flip bit = ok (b.called (.flip bit)) := by
  rw [flip, assert_ok _ h, bind_ok, test.total hf h, bind_ok]
  have hhas : (b.m_ptr.byte (bit / 8).toNat).getLsbD (bit.toNat % 8) = b.has bit.toNat := by
    rw [byte_index]
    rfl
  by_cases hv : b.has bit.toNat = true
  · have hbyte : (Call.clear bit).byte (b.m_ptr.byte (bit / 8).toNat) =
        (Call.flip bit).byte (b.m_ptr.byte (bit / 8).toNat) := (if_pos (hhas.trans hv)).symm
    rw [if_pos hv, clear_eq hf h]
    exact congrArg ok (changed_congr hbyte)
  · have hbyte : (Call.set bit).byte (b.m_ptr.byte (bit / 8).toNat) =
        (Call.flip bit).byte (b.m_ptr.byte (bit / 8).toNat) := (if_neg (hhas ▸ hv)).symm
    rw [if_neg hv, set_eq hf h]
    exact congrArg ok (changed_congr hbyte)

theorem call_eq (hf : b.Fits) (h : e.bit < b.m_length) : b.call e = ok (b.called e) := by
  cases e with
  | set bit => exact set_eq hf h
  | clear bit => exact clear_eq hf h
  | flip bit => exact flip_eq hf h

/-- The bits of the byte of a call. -/
theorem Call.byte_bit (e : Call) (old : U8) {j : Nat} (hj : j < 8) : (e.byte old).getLsbD j =
    if j = e.bit.toNat % 8 then e.value (old.getLsbD j) else old.getLsbD j := by
  cases e with
  | set bit => exact set_bit old bit hj
  | clear bit => exact clear_bit old bit hj
  | flip bit =>
    rw [Call.byte]
    by_cases hv : old.getLsbD (bit.toNat % 8) = true
    · rw [if_pos hv, clear_bit old bit hj]
      by_cases hjk : j = bit.toNat % 8
      · simp [hjk, hv, Call.bit, value]
      · simp [hjk, Call.bit]
    · rw [if_neg hv, set_bit old bit hj]
      by_cases hjk : j = bit.toNat % 8
      · simp [hjk, hv, Call.bit, value]
      · simp [hjk, Call.bit]

/-- A call changes one index. -/
theorem called_has (i : Nat) : (b.called e).has i =
    if i = e.bit.toNat then e.value (b.has i) else b.has i := by
  have hchanged : (b.called e).has i =
      if i = e.bit.toNat then e.value (b.has e.bit.toNat) else b.has i := by
    apply changed_has
    intro j hj
    rw [Call.byte_bit e _ hj, byte_index]
    by_cases hjk : j = e.bit.toNat % 8
    · rw [if_pos hjk, if_pos hjk, hjk]
      rfl
    · rw [if_neg hjk, if_neg hjk]
  rw [hchanged]
  by_cases hi : i = e.bit.toNat
  · rw [if_pos hi, if_pos hi, hi]
  · rw [if_neg hi, if_neg hi]

/-! ## Runs of calls -/

/-- The bits below the length are the set. -/
def Holds (b : bitset) (S : Set U64) : Prop :=
  ∀ j, j < b.m_length → (b.has j.toNat = true ↔ j ∈ S)

theorem called_holds {S : Set U64} (h : b.Holds S) : (b.called e).Holds (after S e) := by
  intro j hj
  have hold := h j hj
  simp only [called_has, BitVec.toNat_inj]
  cases e with
  | set bit =>
    show _ ↔ j = bit ∨ j ∈ S
    by_cases hbit : j = bit
    · simp [hbit, Call.bit, Call.value]
    · simp [hbit, Call.bit, hold]
  | clear bit =>
    show _ ↔ j ∈ S ∧ ¬ j = bit
    by_cases hbit : j = bit
    · simp [hbit, Call.bit, Call.value]
    · simp [hbit, Call.bit, hold]
  | flip bit =>
    show _ ↔ j ∈ S ∧ ¬ j = bit ∨ j = bit ∧ ¬ j ∈ S
    by_cases hbit : j = bit
    · subst hbit
      simp [Call.bit, Call.value, ← hold]
    · simp [hbit, Call.bit, hold]

/-- The byte of an index is one of those with bits. -/
theorem bit_byte_lt (h : e.bit < b.m_length) : (e.bit / 8).toNat < b.bytes := by
  have hlt : e.bit.toNat < b.m_length.toNat := h
  rw [byte_index, bytes]
  omega

theorem called_behind (h : e.bit < b.m_length) {i : Nat} (hi : b.bytes ≤ i) :
    (b.called e).m_ptr.byte i = b.m_ptr.byte i := by
  have hlt := bit_byte_lt h
  exact if_neg (by omega)

theorem cut_fits (b : bitset) : b.cut.Fits := by
  show b.m_length.toNat ≤ 8 * ((b.m_length.toNat + 7) / 8)
  omega

/-- What a run of calls does to the buffer, and to its first bytes alone. -/
structure Ran (b b' : bitset) (es : List Call) (S : Set U64) : Prop where
  shape : SameShape b b'
  holds : b'.Holds (reference S es)
  behind : ∀ i, b.bytes ≤ i → b'.m_ptr.byte i = b.m_ptr.byte i
  cut : calls es b.cut = ok b'.cut

theorem calls.spec {S : Set U64} (hf : b.Fits) (hes : ∀ e ∈ es, e.bit < b.m_length)
    (h : b.Holds S) : ∃ b', calls es b = ok b' ∧ Ran b b' es S := by
  induction es generalizing b S with
  | nil => exact ⟨b, rfl, ⟨rfl, rfl, rfl⟩, h, fun _ _ => rfl, rfl⟩
  | cons e es ih =>
    have he := hes e List.mem_cons_self
    obtain ⟨b', hrun, hshape, hholds, hbehind, hcut⟩ := ih (b := b.called e) hf
      (fun e' he' => hes e' (List.mem_cons_of_mem _ he')) (called_holds h)
    refine ⟨b', ?_, ⟨hshape.length, hshape.addr, hshape.size⟩, hholds, fun i hi => ?_, ?_⟩
    · rw [calls, call_eq hf he]
      exact hrun
    · exact (hbehind i hi).trans (called_behind he hi)
    · -- the byte of the call is in front of the cut
      rw [calls, call_eq b.cut_fits he]
      exact hcut

theorem members_holds (hf : b.Fits) : b.Holds b.members := by
  intro j hj
  show _ ↔ b.test j = ok true
  rw [test.total hf hj, ok.injEq]

/-! ## The law -/

/-- After any calls of `set`, `clear` and `flip`, `test` finds the indices of
the set that the calls make of those it found before. The calls need no byte
behind the bits of the length, and change none. -/
theorem a_bitset_is_a_set_of_indices (b : bitset) (es : List Call)
    (hsize : b.bytes ≤ b.m_ptr.size) (hes : ∀ e ∈ es, e.bit < b.m_length) :
    ∃ b', calls es b = ok b' ∧
      (∀ j, j < b.m_length →
        (b'.test j).Yields fun v => v = true ↔ j ∈ reference b.members es) ∧
      (∀ i, b.bytes ≤ i → b'.m_ptr.byte i = b.m_ptr.byte i) ∧
      calls es b.cut = ok b'.cut ∧ ∀ j, j < b.m_length → b'.cut.test j = b'.test j := by
  have hf : b.Fits := by
    unfold Fits
    unfold bytes at hsize
    omega
  obtain ⟨b', hrun, hran⟩ := calls.spec hf hes (members_holds hf)
  have hlength : b'.m_length = b.m_length := hran.shape.length
  have hf' : b'.Fits := by
    unfold Fits
    rw [hlength, hran.shape.size]
    exact hf
  refine ⟨b', hrun, fun j hj => ?_, hran.behind, hran.cut, fun j hj => ?_⟩
  · rw [← hlength] at hj
    exact ⟨_, test.total hf' hj, hran.holds j hj⟩
  · rw [← hlength] at hj
    rw [test.total hf' hj, test.total b'.cut_fits hj]
    rfl

/-- Ten indices in a buffer of three bytes. -/
def tenBits : bitset := ⟨⟨0x1000, 3, fun _ => 0xFF⟩, 10⟩

theorem a_bitset_is_a_set_of_ten_indices : ∃ b', calls [.clear 9, .flip 3, .set 3] tenBits = ok b' ∧
    (∀ j, j < tenBits.m_length → (b'.test j).Yields fun v =>
      v = true ↔ j ∈ reference tenBits.members [.clear 9, .flip 3, .set 3]) ∧
    (∀ i, tenBits.bytes ≤ i → b'.m_ptr.byte i = tenBits.m_ptr.byte i) ∧
    calls [.clear 9, .flip 3, .set 3] tenBits.cut = ok b'.cut ∧
    ∀ j, j < tenBits.m_length → b'.cut.test j = b'.test j :=
  a_bitset_is_a_set_of_indices tenBits [.clear 9, .flip 3, .set 3] (by decide) (by decide)

end lobo.bitset
