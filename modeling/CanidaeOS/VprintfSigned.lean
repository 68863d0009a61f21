-- `%d` and `%i`. Both read an `int`, and both hand it to `itoa` as an unsigned
-- number with blanks as its padding. So the signed decimal numeral comes out
-- for no negative number, and zeros never fill a width.
import CanidaeOS.VprintfPieces

open Program Machine Outcome

namespace printf

/-! ## The signed numeral -/

def sign (n : U32) : List U8 := if n.toInt < 0 then [ascii '-'] else []

def magnitude (n : U32) : List U8 := numeral 10 n.toInt.natAbs

/-- The signed decimal numeral of `n`, padded to the larger of its length and
the width: blanks behind it for a `-`, zeros behind its sign for a width with a
leading zero, and blanks in front of it otherwise. -/
def signedText (left : Bool) (digits : List U8) (n : U32) : List U8 :=
  let length := (sign n ++ magnitude n).length
  let fill := max (decimalFrom 0 digits) length - length
  if left then sign n ++ magnitude n ++ List.replicate fill (ascii ' ')
  else if digits.head? = some (ascii '0') then
    sign n ++ List.replicate fill (ascii '0') ++ magnitude n
  else List.replicate fill (ascii ' ') ++ sign n ++ magnitude n

/-- The turn on the directive takes its arguments and prints `e`. -/
def Emits (port : Port) (d : Directive) (e fs : List U8) (more : List Arg) (st : port.Statics)
    (out : List U8) : Prop :=
  (turn port ⟨d.source ++ fs, d.conversion.args ++ more, st, out⟩).Yields fun t =>
    ∃ st', t = .next ⟨fs, more, st', out ++ e⟩

theorem emits_iff {port : Port} (hport : port.Lawful) {d : Directive} (e fs : List U8)
    (more : List Arg) (st : port.Statics) (out : List U8) : Emits port d e fs more st out ↔ d.printed = e := by
  obtain ⟨st', hturn⟩ := turn.prints hport (.directive d) fs more st out
  constructor
  · rintro ⟨t, ht, st'', rfl⟩
    have hnext := ht.symm.trans hturn
    simp only [ok.injEq, Turn.next.injEq, Scan.mk.injEq] at hnext
    exact (List.append_cancel_left hnext.2.2.2).symm
  · intro h
    subst h
    exact ⟨_, hturn, st', rfl⟩

/-! ## What the code prints -/

theorem padding_of_short {w l : Nat} (hw : w < 2 ^ 31) (hl : l < 2 ^ 31) :
    padding w l = w - l := by
  by_cases h : l ≤ w
  · exact padding_of_le hw h
  · have hnot : ¬ Overpads w l := by
      rintro ⟨-, hlt, hwrap⟩
      omega
    have := (padding_of_gt hw (show w < l by omega)).not.mpr hnot
    omega

section

variable {d : Directive} {n : U32}

theorem text_of_decimal (hconv : d.conversion = .d n ∨ d.conversion = .i n) :
    d.conversion.text = numeral 10 n.toNat := by
  rcases hconv with h | h <;> rw [h] <;> rfl

theorem decimal_short (hconv : d.conversion = .d n ∨ d.conversion = .i n) :
    d.conversion.text.length < 2 ^ 31 := by
  have hn := n.isLt
  have hbase : 1 < 10 := by decide
  have := numeral_length hbase (show n.toNat < 2 ^ 64 by omega)
  rw [text_of_decimal hconv]
  omega

theorem printed_of_decimal (hconv : d.conversion = .d n ∨ d.conversion = .i n) :
    d.printed =
      let fill := List.replicate (decimalFrom 0 d.digits - (numeral 10 n.toNat).length) (ascii ' ')
      if d.left then numeral 10 n.toNat ++ fill else fill ++ numeral 10 n.toNat := by
  have hwidth : d.width = decimalFrom 0 d.digits := by
    rcases hconv with h | h <;> simp [Directive.width, h, Conversion.padded]
  have hblank : d.zeropad = false := by
    rcases hconv with h | h <;> simp [Directive.zeropad, h, Conversion.hex]
  have hfill := padding_of_short d.digits_lt (decimal_short hconv)
  rw [text_of_decimal hconv] at hfill
  simp only [Directive.printed, Directive.withPadding, hblank, hwidth, text_of_decimal hconv, hfill]
  rfl

/-- No figure is a minus sign. -/
theorem minus_not_mem_numeral (m : Nat) : ascii '-' ∉ numeral 10 m := by
  have hall : ∀ d < 10, figure d ≠ ascii '-' := by decide
  unfold numeral
  split
  · simp [Ne.symm (hall 0 (by decide))]
  · intro h
    obtain ⟨d, hd, heq⟩ := List.mem_map.mp h
    exact hall d (Nat.digits_lt_base (by decide) (List.mem_reverse.mp hd)) heq

theorem minus_not_mem_printed (hconv : d.conversion = .d n ∨ d.conversion = .i n) :
    ascii '-' ∉ d.printed := by
  have hblank : ∀ k, ascii '-' ∉ List.replicate k (ascii ' ') := by
    intro k h
    exact absurd (List.eq_of_mem_replicate h) (by decide)
  rw [printed_of_decimal hconv]
  dsimp only
  split <;> simp only [List.mem_append, not_or]
  · exact ⟨minus_not_mem_numeral _, hblank _⟩
  · exact ⟨hblank _, minus_not_mem_numeral _⟩

theorem minus_mem_signedText (hn : n.toInt < 0) (left : Bool) (digits : List U8) :
    ascii '-' ∈ signedText left digits n := by
  have hsign : sign n = [ascii '-'] := if_pos hn
  unfold signedText
  split
  · simp [hsign]
  · split <;> simp [hsign]

/-- Of a number that is not negative, the code prints the numeral, and fills
the width with blanks. -/
theorem printed_eq_signedText (hconv : d.conversion = .d n ∨ d.conversion = .i n)
    (hn : 0 ≤ n.toInt) : d.printed = signedText d.left d.digits n ↔
      d.left = true ∨ d.digits.head? ≠ some (ascii '0') ∨
        decimalFrom 0 d.digits ≤ (numeral 10 n.toNat).length := by
  have hsign : sign n = [] := if_neg (by omega)
  have hmagnitude : magnitude n = numeral 10 n.toNat := by
    have hlt : 2 * n.toNat < 2 ^ 32 := by
      rw [BitVec.toInt_eq_toNat_cond] at hn
      split at hn <;> omega
    rw [magnitude, BitVec.toInt_eq_toNat_of_lt hlt, Int.natAbs_natCast]
  have hfill : ∀ w l : Nat, max w l - l = w - l := by
    intro w l
    omega
  rw [printed_of_decimal hconv]
  unfold signedText
  simp only [hsign, hmagnitude, List.nil_append, List.append_nil, hfill]
  by_cases hleft : d.left = true
  · simp [hleft]
  · by_cases hzero : d.digits.head? = some (ascii '0')
    · -- blanks on one side and zeros on the other
      have hne : ascii ' ' ≠ ascii '0' := by decide
      simp [hleft, hzero, List.replicate_inj, hne, Nat.sub_eq_zero_iff_le]
    · simp [hleft, hzero]

theorem printed_eq_signedText_iff (hconv : d.conversion = .d n ∨ d.conversion = .i n) :
    d.printed = signedText d.left d.digits n ↔ 0 ≤ n.toInt ∧
      (d.left = true ∨ d.digits.head? ≠ some (ascii '0') ∨
        decimalFrom 0 d.digits ≤ (numeral 10 n.toNat).length) := by
  by_cases hn : 0 ≤ n.toInt
  · rw [printed_eq_signedText hconv hn]
    simp [hn]
  · constructor
    · intro h
      exfalso
      apply minus_not_mem_printed hconv
      rw [h]
      exact minus_mem_signedText (by omega) d.left d.digits
    · rintro ⟨h, -⟩
      exact absurd h hn

end

/-! ## The law -/

/-- Both copies print the signed decimal of a number that is not negative, where
no zeros are asked for to fill the width. -/
theorem signed_decimals (d : Directive) (n : U32)
    (hconv : d.conversion = .d n ∨ d.conversion = .i n) (fs : List U8) (more : List Arg)
    (out : List U8) :
    (∀ st, Emits lobo.libk d (signedText d.left d.digits n) fs more st out ↔ 0 ≤ n.toInt ∧
      (d.left = true ∨ d.digits.head? ≠ some (ascii '0') ∨
        decimalFrom 0 d.digits ≤ (numeral 10 n.toNat).length)) ∧
    (∀ st, Emits awd.port d (signedText d.left d.digits n) fs more st out ↔ 0 ≤ n.toInt ∧
      (d.left = true ∨ d.digits.head? ≠ some (ascii '0') ∨
        decimalFrom 0 d.digits ≤ (numeral 10 n.toNat).length)) := by
  rw [← printed_eq_signedText_iff hconv]
  constructor
  · intro st
    exact emits_iff libk_lawful _ fs more st out
  · intro st
    exact emits_iff port_lawful _ fs more st out

/-- `%d` -/
def plainDecimal (n : U32) : Directive := ⟨false, [], .d n, by decide, by simp⟩

theorem seven_is_printed :
    Emits lobo.libk (plainDecimal 7) (signedText false [] 7) [] [] zeroBuffer [] := by
  apply ((signed_decimals (plainDecimal 7) 7 (Or.inl rfl) [] [] []).1 zeroBuffer).mpr
  decide

/-- `%d` of -1 -/
theorem minus_one_is_not_printed :
    ¬ Emits lobo.libk (plainDecimal (-1)) (signedText false [] (-1)) [] [] zeroBuffer [] := by
  intro h
  rw [emits_iff libk_lawful] at h
  have hsigned := (printed_eq_signedText_iff (d := plainDecimal (-1)) (n := -1) (Or.inl rfl)).mp h
  revert hsigned
  decide

end printf
