-- `strcmp` of the kernel's C library. The loop looks for the end of the first
-- string only. It never passes the end of the second one, since it goes on
-- where the two have the same byte, and that byte is no end mark.
import CanidaeOS.Libc
import CanidaeOS.Outcome

open Program Machine Outcome

namespace libc

/-! ## The code -/

/-- `str1` and `str2` on their way through the memory. -/
structure Strings where
  str1 : U64
  str2 : U64
  ram : Ram

/-- `while(*str1) { if (*str1 != *str2) { break; } str1++; str2++; }`, where a
`char` is signed. No read of it stops. -/
def strcmpTurn (s : Strings) : Outcome Empty (Turn Strings Strings) :=
  let (c, ram) := s.ram.load s.str1
  if c ≠ 0 then
    let (c, ram) := ram.load s.str1
    let (d, ram) := ram.load s.str2
    if c.signExtend 32 ≠ d.signExtend 32 then ok (.leave { s with ram })
    else ok (.next ⟨s.str1 + 1, s.str2 + 1, ram⟩)
  else ok (.leave { s with ram })

/-- `return *(const unsigned char*)str1 - *(const unsigned char*)str2;` -/
def strcmpReturn (s : Strings) : U32 × Ram :=
  let (c, ram) := s.ram.load s.str1
  let (d, ram) := ram.load s.str2
  (c.setWidth 32 - d.setWidth 32, ram)

def strcmp (fuel : Nat) (str1 str2 : U64) (r : Ram) : Outcome Empty (U32 × Ram) := do
  let s ← loop strcmpTurn fuel ⟨str1, str2, r⟩
  ok (strcmpReturn s)

/-! ## Strings -/

/-- The bytes from `p` on are the string `x` and its end mark. -/
def StringAt (m : Memory) (p : U64) : List U8 → Prop
  | [] => m p = 0
  | c :: x => c ≠ 0 ∧ m p = c ∧ StringAt m (p + 1) x

/-- The sign of `v` says how `x` and `y` lie in the lexicographic order of their
bytes, as numbers without a sign. -/
structure Decides (v : U32) (x y : List U8) : Prop where
  equal : v.toInt = 0 ↔ x = y
  less : v.toInt < 0 ↔ x < y
  more : 0 < v.toInt ↔ y < x

/-- What a call leaves: the memory as it was, and no access behind the ends of
two strings of the lengths `n` and `k`. -/
structure Reads (p q : U64) (n k : Nat) (r r' : Ram) : Prop where
  byte : r'.byte = r.byte
  touched : ∀ a ∈ r'.touched, a ∈ r.touched ∨ InRange p (n + 1) a ∨ InRange q (k + 1) a

theorem StringAt.first {m : Memory} {p : U64} {x : List U8} (h : StringAt m p x) :
    m p = x.headD 0 := by
  cases x with
  | nil => exact h
  | cons c x => exact h.2.1

theorem inRange_first (p : U64) (n : Nat) : InRange p (n + 1) p := by
  unfold InRange
  simp

theorem inRange_rest {p a : U64} {n : Nat} (h : InRange (p + 1) n a) : InRange p (n + 1) a :=
  inRange_of_part (by rw [Nat.add_comm]; rfl) h

/-! ## One turn -/

theorem byte_difference (c d : U8) :
    (c.setWidth 32 - d.setWidth 32).toInt = (c.toNat : Int) - d.toNat := by
  have hc := c.isLt
  have hd := d.isLt
  rw [BitVec.toInt_eq_toNat_cond, BitVec.toNat_sub, BitVec.toNat_setWidth, BitVec.toNat_setWidth]
  omega

theorem char_eq (c d : U8) : c.signExtend 32 = d.signExtend 32 ↔ c = d := by
  constructor
  · intro h
    apply BitVec.eq_of_toInt_eq
    have hint := congrArg BitVec.toInt h
    rw [BitVec.toInt_signExtend_of_le (by decide), BitVec.toInt_signExtend_of_le (by decide)] at hint
    exact hint
  · rintro rfl
    rfl

variable {p q : U64} {x y : List U8} {n k fuel : Nat} {r r' r'' : Ram}

/-- The accesses of a turn are to the two bytes. -/
theorem Reads.of_touched (hbyte : r'.byte = r.byte)
    (htouched : ∀ a ∈ r'.touched, a ∈ r.touched ∨ a = p ∨ a = q) : Reads p q n k r r' := by
  refine ⟨hbyte, fun a ha => ?_⟩
  rcases htouched a ha with hold | rfl | rfl
  · exact Or.inl hold
  · exact Or.inr (Or.inl (inRange_first a n))
  · exact Or.inr (Or.inr (inRange_first a k))

theorem Reads.next (h : Reads p q (n + 1) (k + 1) r r') (h' : Reads (p + 1) (q + 1) n k r' r'') :
    Reads p q (n + 1) (k + 1) r r'' := by
  refine ⟨h'.byte.trans h.byte, fun a ha => ?_⟩
  rcases h'.touched a ha with hold | hp | hq
  · exact h.touched a hold
  · exact Or.inr (Or.inl (inRange_rest hp))
  · exact Or.inr (Or.inr (inRange_rest hq))

theorem strcmpTurn.eq (p q : U64) (r : Ram) : strcmpTurn ⟨p, q, r⟩ =
    if r.byte p ≠ 0 then
      if (r.byte p).signExtend 32 ≠ (r.byte q).signExtend 32 then
        ok (.leave ⟨p, q, (((r.load p).2.load p).2.load q).2⟩)
      else ok (.next ⟨p + 1, q + 1, (((r.load p).2.load p).2.load q).2⟩)
    else ok (.leave ⟨p, q, (r.load p).2⟩) := rfl

/-- The loop is left at the first end or difference. -/
theorem strcmp.leave (n k fuel : Nat) (h : r.byte p = 0 ∨ r.byte p ≠ r.byte q) :
    ∃ r', strcmp (fuel + 1) p q r =
        ok ((r.byte p).setWidth 32 - (r.byte q).setWidth 32, r') ∧ Reads p q n k r r' := by
  by_cases hzero : r.byte p = 0
  · have hturn : strcmpTurn ⟨p, q, r⟩ = ok (.leave ⟨p, q, (r.load p).2⟩) := by
      simp [strcmpTurn, hzero]
    refine ⟨(strcmpReturn ⟨p, q, (r.load p).2⟩).2, ?_, Reads.of_touched rfl fun a ha => ?_⟩
    · rw [strcmp, loop_leave hturn]
      rfl
    · simp [strcmpReturn] at ha
      tauto
  · have hne := (char_eq _ _).not.mpr (h.resolve_left hzero)
    have hturn : strcmpTurn ⟨p, q, r⟩ =
        ok (.leave ⟨p, q, (((r.load p).2.load p).2.load q).2⟩) := by
      rw [strcmpTurn.eq, if_pos hzero, if_pos hne]
    refine ⟨(strcmpReturn ⟨p, q, (((r.load p).2.load p).2.load q).2⟩).2, ?_,
      Reads.of_touched rfl fun a ha => ?_⟩
    · rw [strcmp, loop_leave hturn]
      rfl
    · simp [strcmpReturn] at ha
      tauto

/-- The loop goes on after a byte that the two strings share. -/
theorem strcmp.next (n k fuel : Nat) (hzero : r.byte p ≠ 0) (heq : r.byte p = r.byte q) :
    ∃ r', strcmp (fuel + 1) p q r = strcmp fuel (p + 1) (q + 1) r' ∧ Reads p q n k r r' := by
  have hsame := (char_eq _ _).mpr heq
  have hturn : strcmpTurn ⟨p, q, r⟩ =
      ok (.next ⟨p + 1, q + 1, (((r.load p).2.load p).2.load q).2⟩) := by
    rw [strcmpTurn.eq, if_pos hzero, if_neg (not_not.mpr hsame)]
  refine ⟨(((r.load p).2.load p).2.load q).2, ?_, Reads.of_touched rfl fun a ha => ?_⟩
  · rw [strcmp, loop_next hturn]
    rfl
  · simp at ha
    tauto

/-! ## The result -/

/-- Two bytes that lie as the strings do. -/
theorem decides_of_bytes {c d : U8} (hequal : x = y ↔ c = d) (hless : x < y ↔ c < d)
    (hmore : y < x ↔ d < c) : Decides (c.setWidth 32 - d.setWidth 32) x y := by
  have hvalue := byte_difference c d
  constructor
  · rw [hequal, hvalue, ← BitVec.toNat_inj]
    omega
  · rw [hless, hvalue, BitVec.lt_def]
    omega
  · rw [hmore, hvalue, BitVec.lt_def]
    omega

/-- The first difference decides, and an end mark is less than any byte of a
string. -/
theorem decides_first {m : Memory} (hx : StringAt m p x) (hy : StringAt m q y)
    (h : m p = 0 ∨ m p ≠ m q) : Decides ((m p).setWidth 32 - (m q).setWidth 32) x y := by
  have hpos : ∀ c : U8, c ≠ 0#8 → 0#8 < c := fun c hc => (BitVec.pos_iff_ne_zero c).mpr hc
  rw [hx.first, hy.first] at *
  cases x with
  | nil =>
    cases y with
    | nil => apply decides_of_bytes <;> simp
    | cons d y =>
      have hd : d ≠ 0#8 := hy.1
      apply decides_of_bytes <;> simp [hpos d hd, hd.symm]
  | cons c x =>
    cases y with
    | nil =>
      have hc : c ≠ 0#8 := hx.1
      apply decides_of_bytes <;> simp [hpos c hc, hc]
    | cons d y =>
      have hne : c ≠ d := h.resolve_left hx.1
      apply decides_of_bytes <;> simp [List.cons_lt_cons_iff, hne, hne.symm]

theorem Decides.cons {v : U32} (h : Decides v x y) (c : U8) : Decides v (c :: x) (c :: y) := by
  constructor
  · rw [h.equal, List.cons_inj_right]
  · rw [h.less, List.cons_lt_cons_self]
  · rw [h.more, List.cons_lt_cons_self]

/-- By the first string, which has a byte for every turn of the loop. -/
theorem strcmp.spec (hx : StringAt r.byte p x) (hy : StringAt r.byte q y) (hfuel : x.length < fuel) :
    ∃ v r', strcmp fuel p q r = ok (v, r') ∧ Decides v x y ∧ Reads p q x.length y.length r r' := by
  induction x generalizing p q y fuel r with
  | nil =>
    obtain ⟨fuel, rfl⟩ := Nat.exists_eq_add_of_lt hfuel
    rcases strcmp.leave 0 y.length (0 + fuel) (Or.inl hx) with ⟨r', hrun, hreads⟩
    exact ⟨_, r', hrun, decides_first hx hy (Or.inl hx), hreads⟩
  | cons c x ih =>
    obtain ⟨fuel, rfl⟩ := Nat.exists_eq_add_of_lt hfuel
    have hzero : r.byte p ≠ 0 := by
      rw [hx.first]
      exact hx.1
    by_cases hsame : r.byte p = r.byte q
    · -- the second string goes on too
      cases y with
      | nil => exact absurd (hsame.trans hy) hzero
      | cons d y =>
        have hcd : c = d := by rw [← hx.2.1, hsame, hy.2.1]
        rcases strcmp.next (x.length + 1) (y.length + 1) (x.length + 1 + fuel) hzero hsame with
          ⟨r', hrun, hreads⟩
        have hx' : StringAt r'.byte (p + 1) x := hreads.byte ▸ hx.2.2
        have hy' : StringAt r'.byte (q + 1) y := hreads.byte ▸ hy.2.2
        rcases ih hx' hy' (show x.length < x.length + 1 + fuel by omega) with
          ⟨v, r'', hrest, hdecides, hreads'⟩
        exact ⟨v, r'', hrun.trans hrest, hcd ▸ hdecides.cons c, hreads.next hreads'⟩
    · rcases strcmp.leave (x.length + 1) y.length (x.length + 1 + fuel) (Or.inr hsame) with
        ⟨r', hrun, hreads⟩
      exact ⟨_, r', hrun, decides_first hx hy (Or.inr hsame), hreads⟩

/-- The signs of two results, one for each order of the strings. -/
theorem Decides.antisymm {v v' : U32} (h : Decides v x y) (h' : Decides v' y x) :
    v'.toInt.sign = -v.toInt.sign := by
  rcases Int.lt_trichotomy v.toInt 0 with hneg | hzero | hpos
  · have hpos' := h'.more.mpr (h.less.mp hneg)
    rw [Int.sign_eq_neg_one_of_neg hneg, Int.sign_eq_one_of_pos hpos']
    rfl
  · have hzero' := h'.equal.mpr (h.equal.mp hzero).symm
    rw [hzero, hzero']
    rfl
  · have hneg' := h'.less.mpr (h.more.mp hpos)
    rw [Int.sign_eq_one_of_pos hpos, Int.sign_eq_neg_one_of_neg hneg']

/-! ## The law -/

/-- `strcmp` decides the lexicographic order of two strings, wherever they lie
and with any bytes in them. It accesses neither of them behind its end mark,
and with the strings the other way round the sign is the other one. -/
theorem strcmp_is_the_lexicographic_order (hx : StringAt r.byte p x) (hy : StringAt r.byte q y)
    (hfuel : max x.length y.length < fuel) :
    ∃ v v' r' r'', strcmp fuel p q r = ok (v, r') ∧ strcmp fuel q p r = ok (v', r'') ∧
      Decides v x y ∧ Reads p q x.length y.length r r' ∧ v'.toInt.sign = -v.toInt.sign := by
  rcases strcmp.spec hx hy (show x.length < fuel by omega) with ⟨v, r', hrun, hdecides, hreads⟩
  rcases strcmp.spec hy hx (show y.length < fuel by omega) with ⟨v', r'', hrun', hdecides', -⟩
  exact ⟨v, v', r', r'', hrun, hrun', hdecides, hreads, hdecides.antisymm hdecides'⟩

/-- `"a"` and `"a\x80"`. -/
def twoStrings : Ram :=
  ⟨fun a => if a = 0x1000 ∨ a = 0x2000 then 0x61 else if a = 0x2001 then 0x80 else 0, []⟩

theorem strcmp_of_a_string_and_its_prefix : ∃ v v' r' r'',
    strcmp 3 0x1000 0x2000 twoStrings = ok (v, r') ∧
    strcmp 3 0x2000 0x1000 twoStrings = ok (v', r'') ∧ Decides v [0x61] [0x61, 0x80] ∧
    Reads 0x1000 0x2000 1 2 twoStrings r' ∧ v'.toInt.sign = -v.toInt.sign :=
  strcmp_is_the_lexicographic_order (x := [0x61]) (y := [0x61, 0x80])
    ⟨by decide, rfl, rfl⟩ ⟨by decide, rfl, by decide, rfl, rfl⟩ (by decide)

end libc
