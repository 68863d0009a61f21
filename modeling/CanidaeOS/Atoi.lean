-- `atoi` against `itoa`. In the arithmetic of an `int`, which stops where it
-- overflows, it reads back what `itoa` writes of a number below 2³¹, and `itoa`
-- writes what it read without the leading zeros.
import CanidaeOS.Itoa

open Program Machine Outcome printf

namespace libc

/-! ## Numerals -/

/-- The figures of a number without its leading zeros, of which one is left
when there is no other figure. -/
def stripped (s : List U8) : List U8 :=
  let rest := s.dropWhile fun c => c = ascii '0'
  if rest = [] then [ascii '0'] else rest

theorem decimalFrom_append (n : Nat) (s : List U8) (c : U8) :
    decimalFrom n (s ++ [c]) = decimalFrom n s * 10 + (c.toNat - 48) := by
  simp [decimalFrom]

theorem figure_toNat : ∀ d < 10, (figure d).toNat = 48 + d := by decide

theorem figure_of_digit {c : U8} (h : isDigit c = true) : figure (c.toNat - 48) = c := by
  have hc := isDigit_iff.mp h
  apply BitVec.eq_of_toNat_eq
  rw [figure_toNat _ (by omega)]
  omega

theorem numeral_digits (n : Nat) : ∀ c ∈ numeral 10 n, isDigit c = true := by
  have hfigure : ∀ d < 10, isDigit (figure d) = true := by decide
  intro c hc
  unfold numeral at hc
  split at hc
  · rw [List.mem_singleton] at hc
    exact hc ▸ hfigure 0 (by omega)
  · simp only [List.mem_map, List.mem_reverse] at hc
    rcases hc with ⟨d, hd, rfl⟩
    exact hfigure d (Nat.digits_lt_base (by omega) hd)

/-- The value of a numeral, by its last figure. -/
theorem decimalFrom_numeral (n : Nat) : decimalFrom 0 (numeral 10 n) = n := by
  induction n using Nat.strong_induction_on with
  | _ n ih =>
    have hlast := figure_toNat (n % 10) (Nat.mod_lt n (by omega))
    by_cases hmore : 0 < n / 10
    · rw [numeral_more (by omega) hmore, decimalFrom_append, ih (n / 10) (by omega), hlast]
      omega
    · rw [numeral_last (by omega) (by omega)]
      show 0 * 10 + ((figure (n % 10)).toNat - 48) = n
      omega

/-- Only zeros have the value 0. -/
theorem dropWhile_eq_nil {s : List U8} (h : ∀ c ∈ s, isDigit c = true) :
    (s.dropWhile fun c => c = ascii '0') = [] ↔ decimalFrom 0 s = 0 := by
  induction s using List.reverseRecOn with
  | nil => simp [decimalFrom]
  | append_singleton s c ih =>
    have hc := isDigit_iff.mp (h c (by simp))
    have hs := ih fun c hc => h c (by simp [hc])
    have hzero : c = ascii '0' ↔ c.toNat - 48 = 0 := by
      rw [← BitVec.toNat_inj]
      show c.toNat = 48 ↔ _
      omega
    rw [decimalFrom_append, Nat.add_eq_zero_iff, ← hzero, Nat.mul_eq_zero, ← hs]
    simp only [List.dropWhile_eq_nil_iff, decide_eq_true_eq, List.forall_mem_append,
      List.forall_mem_singleton]
    simp

/-- The numeral of the value of some figures, by the last of them. -/
theorem numeral_decimalFrom {s : List U8} (hne : s ≠ []) (h : ∀ c ∈ s, isDigit c = true) :
    numeral 10 (decimalFrom 0 s) = stripped s := by
  induction s using List.reverseRecOn with
  | nil => exact absurd rfl hne
  | append_singleton s c ih =>
    have hdigits : ∀ c ∈ s, isDigit c = true := fun c hc => h c (by simp [hc])
    have hlast : isDigit c = true := h c (by simp)
    have hc := isDigit_iff.mp hlast
    have hdiv : (decimalFrom 0 s * 10 + (c.toNat - 48)) / 10 = decimalFrom 0 s := by omega
    have hmod : (decimalFrom 0 s * 10 + (c.toNat - 48)) % 10 = c.toNat - 48 := by omega
    rw [decimalFrom_append]
    by_cases hzero : decimalFrom 0 s = 0
    · -- zeros in front of the last figure are dropped
      have hdrop := (dropWhile_eq_nil hdigits).mpr hzero
      rw [numeral_last (by omega) (by omega), hmod, figure_of_digit hlast]
      unfold stripped
      rw [List.dropWhile_append, hdrop]
      by_cases hc0 : c = ascii '0' <;> simp [hc0]
    · have hdrop := mt (dropWhile_eq_nil hdigits).mp hzero
      have hs : s ≠ [] := by
        rintro rfl
        exact hzero rfl
      have hstrip : stripped s = s.dropWhile fun c => c = ascii '0' := if_neg hdrop
      rw [numeral_more (by omega) (by omega), hdiv, hmod, figure_of_digit hlast, ih hs hdigits,
        hstrip]
      unfold stripped
      simp [List.dropWhile_append, hdrop]

/-! ## The round trip -/

theorem itoa.decimal {n : U64} (hn : n.toNat < 10 ^ 49) (buffer : Vector U8 65) :
    ∃ tail buffer', itoa n 10 buffer = ok (numeral 10 n.toNat ++ 0 :: tail, buffer') :=
  itoaAt.spec (by decide) (by decide) (by decide) (by decide) hn buffer

/-- `atoi` reads what `itoa` wrote of an `int` that is not negative, and no
`int` overflows. What it reads of up to nine figures, `itoa` writes without the
leading zeros. -/
theorem atoi_and_itoa_are_a_round_trip (buffer : Vector U8 65) :
    (∀ n : U64, n.toNat < 2 ^ 31 → (itoa n 10 buffer).Yields fun (str, _) =>
      (atoi str).Yields fun v => v.toInt = n.toNat) ∧
    ∀ s tail : List U8, s ≠ [] → s.length ≤ 9 → (∀ c ∈ s, isDigit c = true) →
      (atoi (s ++ 0 :: tail)).Yields fun v =>
        Returns (stripped s) (itoa (v.signExtend 64) 10 buffer) := by
  constructor
  · intro n hn
    obtain ⟨tail, buffer', hitoa⟩ := itoa.decimal (Nat.lt_trans hn (by decide)) buffer
    refine ⟨_, hitoa, BitVec.ofNat 32 n.toNat, ?_, toInt_small hn⟩
    have hvalue := decimalFrom_numeral n.toNat
    have hatoi := atoi.spec (numeral_digits n.toNat) (by omega) tail
    rw [hatoi, hvalue]
  · intro s tail hne hlength hdigits
    have hvalue : decimalFrom 0 s < 10 ^ (0 + s.length) := decimalFrom_lt hdigits (by decide)
    have hpow : 10 ^ (0 + s.length) ≤ 10 ^ 9 := Nat.pow_le_pow_right (by decide) (by omega)
    have hfits : decimalFrom 0 s < 2 ^ 31 := by omega
    refine ⟨_, atoi.spec hdigits hfits tail, ?_⟩
    have hwide : ((BitVec.ofNat 32 (decimalFrom 0 s)).signExtend 64).toNat = decimalFrom 0 s := by
      rw [BitVec.signExtend_eq_setWidth_of_msb_false]
      · simp
        omega
      · rw [BitVec.msb_eq_false_iff_two_mul_lt, BitVec.toNat_ofNat]
        omega
    have hlong : ((BitVec.ofNat 32 (decimalFrom 0 s)).signExtend 64).toNat < 10 ^ 49 := by
      rw [hwide]
      exact Nat.lt_trans hfits (by decide)
    obtain ⟨rest, buffer', hitoa⟩ := itoa.decimal hlong buffer
    rw [hwide, numeral_decimalFrom hne hdigits] at hitoa
    exact ⟨_, hitoa, rest, rfl⟩

/-- The largest `int`, and a figure with zeros in front of it. -/
theorem atoi_and_itoa_on_the_largest_int :
    ((itoa 2147483647 10 zeros).Yields fun (str, _) =>
      (atoi str).Yields fun v => v.toInt = (2147483647 : U64).toNat) ∧
    (atoi ([48, 48, 55] ++ 0 :: [])).Yields fun v =>
      Returns (stripped [48, 48, 55]) (itoa (v.signExtend 64) 10 zeros) :=
  ⟨(atoi_and_itoa_are_a_round_trip zeros).1 2147483647 (by decide),
    (atoi_and_itoa_are_a_round_trip zeros).2 [48, 48, 55] [] (by decide) (by decide) (by decide)⟩

end libc
