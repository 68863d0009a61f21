-- The digits of a 64-bit number, in the kernel's `itoa` and in the boot
-- loader's `itoa64` (`itoa.c`). Both write backwards from an end mark. The
-- kernel's end mark has 49 bytes in front of it, and binary can take 64.
import CanidaeOS.VprintfPieces

open Program Machine Outcome printf

namespace libc

/-- `itoa`, with `char* buf_index = &buffer[49]`. -/
def itoa (n base : U64) (buffer : Vector U8 65) : Outcome printf.Stop (List U8 × Vector U8 65) :=
  itoaAt 49 n base buffer

end libc

namespace awd

/-- `itoa64`, with `char* buf_index = &buffer[sizeof(buffer) - 1]`. -/
def itoa64 (n base : U64) (buffer : Vector U8 65) : Outcome printf.Stop (List U8 × Vector U8 65) :=
  itoaAt 64 n base buffer

end awd

namespace printf

/-- The call keeps to its buffer, and what it returns is the string `str`. -/
def Returns {size : Nat} (str : List U8) (r : Outcome Stop (List U8 × Vector U8 size)) : Prop :=
  r.Yields fun (p, _) => ∃ tail, p = str ++ 0 :: tail

/-- The call returns the numeral where its buffer has a place for each figure. -/
theorem itoaAt.returns_iff {size last : Nat} {base n : U64} (hlow : 2 ≤ base.toNat)
    (hhigh : base.toNat ≤ 16) (hpos : 0 < last) (hsize : last < size) (buffer : Vector U8 size) :
    Returns (numeral base.toNat n.toNat) (itoaAt last n base buffer) ↔
      n.toNat < base.toNat ^ last := by
  constructor
  · rintro ⟨r, hrun, -⟩
    by_contra hn
    rw [itoaAt.stops hlow hhigh hsize (by omega)] at hrun
    cases hrun
  · intro hn
    obtain ⟨tail, buffer', hrun⟩ := itoaAt.spec hlow hhigh hpos hsize hn buffer
    exact ⟨_, hrun, tail, rfl⟩

theorem itoa64.returns (n base : U64) (hlow : 2 ≤ base.toNat) (hhigh : base.toNat ≤ 16)
    (buffer : Vector U8 65) : Returns (numeral base.toNat n.toNat) (awd.itoa64 n base buffer) := by
  apply (itoaAt.returns_iff hlow hhigh (by decide) (by decide) buffer).mpr
  exact Nat.lt_of_lt_of_le n.isLt (Nat.pow_le_pow_left hlow 64)

/-- From base 3 on, 49 figures are enough for 64 bits. -/
theorem forty_nine_figures {base n : U64} (hlow : 2 ≤ base.toNat) :
    n.toNat < base.toNat ^ 49 ↔ (base.toNat = 2 → n.toNat < 2 ^ 49) := by
  constructor
  · intro h hbase
    rw [hbase] at h
    exact h
  · intro h
    by_cases hbase : base.toNat = 2
    · rw [hbase]
      exact h hbase
    · have hpow : 3 ^ 49 ≤ base.toNat ^ 49 := Nat.pow_le_pow_left (by omega) 49
      have := n.isLt
      omega

/-- The two return one numeral, but for numbers in binary with 50 figures or
more. -/
theorem itoa_and_itoa64_return_the_numeral (n base : U64) (hlow : 2 ≤ base.toNat)
    (hhigh : base.toNat ≤ 16) (buffer buffer64 : Vector U8 65) :
    (Returns (numeral base.toNat n.toNat) (libc.itoa n base buffer) ∧
      Returns (numeral base.toNat n.toNat) (awd.itoa64 n base buffer64)) ↔
      (base.toNat = 2 → n.toNat < 2 ^ 49) := by
  rw [← forty_nine_figures hlow]
  constructor
  · rintro ⟨h, -⟩
    exact (itoaAt.returns_iff hlow hhigh (by decide) (by decide) buffer).mp h
  · intro h
    refine ⟨?_, itoa64.returns n base hlow hhigh buffer64⟩
    exact (itoaAt.returns_iff hlow hhigh (by decide) (by decide) buffer).mpr h

def zeros : Vector U8 65 := Vector.replicate 65 0

theorem itoa_and_itoa64_on_five :
    Returns (numeral (2 : U64).toNat (5 : U64).toNat) (libc.itoa 5 2 zeros) ∧
      Returns (numeral (2 : U64).toNat (5 : U64).toNat) (awd.itoa64 5 2 zeros) := by
  apply (itoa_and_itoa64_return_the_numeral 5 2 (by decide) (by decide) zeros zeros).mpr
  intro _
  decide

/-- The first number with 50 figures. -/
theorem itoa_writes_below_its_buffer : ¬ Returns
    (numeral (2 : U64).toNat (0x2000000000000 : U64).toNat) (libc.itoa 0x2000000000000 2 zeros) := by
  intro h
  have hn := (itoaAt.returns_iff (by decide) (by decide) (by decide) (by decide) zeros).mp h
  revert hn
  decide

end printf
