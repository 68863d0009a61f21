-- The language of the formatter. A format is a list of pieces, and what it
-- prints is the texts of its pieces in their order. The code counts padding in
-- an `int`, so it keeps to that for all texts but some of 2 GiB and more.
import CanidaeOS.Vprintf

open Program Machine Outcome

namespace printf

/-! ## The language -/

/-- A string that ends, in a memory that goes on behind it. -/
structure CString where
  text : List U8
  tail : List U8
  nonzero : ∀ c ∈ text, c ≠ 0

def CString.memory (str : CString) : List U8 := str.text ++ 0 :: str.tail

/-- A specifier with its argument. -/
inductive Conversion where
  | percent
  | c (n : U32)
  | s (str : CString)
  | d (n : U32)
  | i (n : U32)
  | x (n : U32)
  | p (n : U64)

namespace Conversion

def specifier : Conversion → U8
  | percent => ascii '%'
  | c _ => ascii 'c'
  | s _ => ascii 's'
  | d _ => ascii 'd'
  | i _ => ascii 'i'
  | x _ => ascii 'x'
  | p _ => ascii 'p'

def args : Conversion → List Arg
  | percent => []
  | c n | d n | i n | x n => [.int n]
  | s str => [.str str.memory]
  | p n => [.long n]

/-- The text with no padding. -/
def text : Conversion → List U8
  | percent => [ascii '%']
  | c n => [n.setWidth 8]
  | s str => str.text
  | d n | i n => numeral 10 n.toNat
  | x n => numeral 16 n.toNat
  | p n => numeral 16 n.toNat

/-- `%%` and `%c` take no width. -/
def padded : Conversion → Bool
  | percent | c _ => false
  | _ => true

/-- `%x` and `%p` can have zeros as padding. -/
def hex : Conversion → Bool
  | x _ | p _ => true
  | _ => false

end Conversion

/-- `%[-][digits]specifier` -/
structure Directive where
  left : Bool
  digits : List U8
  conversion : Conversion
  digits_le : digits.length ≤ 7
  digit : ∀ c ∈ digits, isDigit c = true

namespace Directive

variable (d : Directive)

def source : List U8 :=
  ascii '%' :: ((if d.left then [ascii '-'] else []) ++ d.digits ++ [d.conversion.specifier])

def width : Nat := if d.conversion.padded then decimalFrom 0 d.digits else 0

def zeropad : Bool := d.conversion.hex && !d.left && d.digits.head? == some (ascii '0')

/-- The text with `n` characters of padding. -/
def withPadding (n : Nat) : List U8 :=
  let fill := List.replicate n (padCharacter d.zeropad)
  if d.left then d.conversion.text ++ fill else fill ++ d.conversion.text

/-- The text, padded to the larger of its length and the width. -/
def text : List U8 := d.withPadding (max d.width d.conversion.text.length - d.conversion.text.length)

end Directive

inductive Piece where
  | literal (c : U8) (nonzero : c ≠ 0) (plain : c ≠ ascii '%')
  | directive (d : Directive)

namespace Piece

def source : Piece → List U8
  | literal c _ _ => [c]
  | directive d => d.source

def args : Piece → List Arg
  | literal _ _ _ => []
  | directive d => d.conversion.args

def text : Piece → List U8
  | literal c _ _ => [c]
  | directive d => d.text

end Piece

/-- The format of the pieces, with the memory `rest` behind its end. -/
def format (ps : List Piece) (rest : List U8) : List U8 := ps.flatMap Piece.source ++ 0 :: rest

def arguments (ps : List Piece) (more : List Arg) : List Arg := ps.flatMap Piece.args ++ more

/-! ## What a port promises -/

/-- The port writes every string, and every number in its base. -/
structure Port.Lawful (port : Port) : Prop where
  word : 32 ≤ port.word
  print_string : ∀ (str : CString) out,
    port.print_string str.memory out = ok (out ++ str.text)
  itoa : ∀ (n : U32) (base : U64) st, base = 10 ∨ base = 16 →
    ∃ (str : CString) (st' : port.Statics), str.text = numeral base.toNat n.toNat ∧
      port.itoa n base st = ok (str.memory, st')
  itoa64 : ∀ (n : U64) st,
    ∃ (str : CString) (st' : port.Statics), str.text = numeral 16 n.toNat ∧
      port.itoa64 n 16 st = ok (str.memory, st')

theorem figure_ne_zero {d : Nat} (h : d < 16) : figure d ≠ 0 := by
  have hall : ∀ d < 16, figure d ≠ 0 := by decide
  exact hall d h

/-- A numeral is a short text with no end mark in it. -/
theorem numeral_nonzero {base : Nat} (hbase : 1 < base) (hbase' : base ≤ 16) (n : Nat) :
    ∀ c ∈ numeral base n, c ≠ 0 := by
  intro c hc
  unfold numeral at hc
  split at hc
  · obtain rfl := List.mem_singleton.mp hc
    exact figure_ne_zero (by omega)
  · obtain ⟨d, hd, rfl⟩ := List.mem_map.mp hc
    have := Nat.digits_lt_base hbase (List.mem_reverse.mp hd)
    exact figure_ne_zero (by omega)

theorem numeral_length {base n : Nat} (hbase : 1 < base) (hn : n < 2 ^ 64) :
    (numeral base n).length ≤ 64 := by
  unfold numeral
  split
  · simp
  · rw [List.length_map, List.length_reverse, Nat.digits_length_le_iff hbase]
    exact Nat.lt_of_lt_of_le hn (Nat.pow_le_pow_left hbase 64)

/-! ## One piece -/

namespace Directive

variable (d : Directive)

theorem digits_lt : decimalFrom 0 d.digits < 2 ^ 31 := digits_fit d.digit d.digits_le

theorem width_lt : d.width < 2 ^ 31 := by
  unfold width
  split
  · exact d.digits_lt
  · decide

theorem withPadding_length (n : Nat) :
    (d.withPadding n).length = d.conversion.text.length + n := by
  unfold withPadding
  split
  · simp
  · simp [Nat.add_comm]

/-- The padding that the code prints. -/
def printed : List U8 := d.withPadding (padding d.width d.conversion.text.length)

end Directive

/-- The result `r` of a step that prints `e`. -/
def Prints {port : Port} (s : Scan port) (arg : List Arg) (e : List U8)
    (r : Outcome Stop (Scan port)) : Prop :=
  ∃ st, r = ok { s with arg, statics := st, out := s.out ++ e }

variable {port : Port}

theorem print_padded.spec (hport : port.Lawful) (str : CString) {w : Nat} (hw : w < 2 ^ 31)
    (left zeropad : Bool) (out : List U8) :
    print_padded port left (BitVec.ofNat 32 w) zeropad str.memory out =
      ok (out ++
        if left then str.text ++ List.replicate (padding w str.text.length) (padCharacter zeropad)
        else List.replicate (padding w str.text.length) (padCharacter zeropad) ++ str.text) := by
  have hpadding := vprintf_print_padding_helper.spec port hport.word hw str.nonzero str.tail zeropad
  unfold print_padded
  cases left with
  | true =>
    rw [if_pos rfl, hport.print_string str, bind_ok, CString.memory, hpadding]
    simp
  | false =>
    rw [if_neg (by decide), CString.memory, hpadding, bind_ok, ← CString.memory,
      hport.print_string str]
    simp

/-- The last step of every case of the `switch` that pads. -/
theorem prints_padded (hport : port.Lawful) (d : Directive) (str : CString)
    (htext : d.conversion.text = str.text) (hpadded : d.conversion.padded = true)
    (s : Scan port) (arg : List Arg) (statics : port.Statics) :
    Prints s arg d.printed (do
      let out ← print_padded port d.left (BitVec.ofNat 32 (decimalFrom 0 d.digits)) d.zeropad
        str.memory s.out
      ok { s with arg, statics, out }) := by
  have hwidth : d.width = decimalFrom 0 d.digits := by rw [Directive.width, if_pos hpadded]
  rw [← hwidth]
  rw [print_padded.spec hport str d.width_lt d.left d.zeropad s.out]
  refine ⟨statics, ?_⟩
  simp [Directive.printed, Directive.withPadding, htext]

theorem printed_plain (d : Directive) (h : d.conversion.padded = false) :
    d.printed = d.conversion.text := by
  have hwidth : d.width = 0 := by rw [Directive.width, h]; rfl
  simp [Directive.printed, Directive.withPadding, hwidth, padding]

/-- The `switch`, on the specifier of a directive. -/
theorem convert.spec (hport : port.Lawful) (d : Directive) (fs : List U8) (more : List Arg)
    (st : port.Statics) (out : List U8) :
    Prints ⟨fs, d.conversion.args ++ more, st, out⟩ more d.printed
      (convert port d.left (BitVec.ofNat 32 (decimalFrom 0 d.digits))
        (if d.left then false else decide (d.digits.head? = some (ascii '0')))
        d.conversion.specifier ⟨fs, d.conversion.args ++ more, st, out⟩) := by
  have hplain : ∀ arg, d.conversion.padded = false →
      Prints ⟨fs, arg, st, out⟩ more d.printed (ok ⟨fs, more, st, out ++ d.conversion.text⟩) := by
    intro arg hpadded
    refine ⟨st, ?_⟩
    rw [printed_plain d hpadded]
  have hpadded := fun str htext hpadded arg statics =>
    prints_padded hport d str htext hpadded ⟨fs, arg, st, out⟩ more statics
  have hblank : d.conversion.hex = false → d.zeropad = false := by
    intro h
    simp [Directive.zeropad, h]
  have hzero : d.conversion.hex = true →
      (if d.left then false else decide (d.digits.head? = some (ascii '0'))) = d.zeropad := by
    intro h
    cases hleft : d.left <;> simp [Directive.zeropad, h, hleft, Bool.beq_eq_decide_eq]
  cases hconv : d.conversion with
  | percent =>
    rw [hconv] at hplain
    exact hplain _ rfl
  | c n =>
    rw [hconv] at hplain
    exact hplain _ rfl
  | s str =>
    rw [hconv] at hpadded hblank
    rw [hblank rfl] at hpadded
    exact hpadded str rfl rfl _ st
  | d n =>
    obtain ⟨str, st', htext, hitoa⟩ := hport.itoa n 10 st (Or.inl rfl)
    rw [hconv] at hpadded hblank
    rw [hblank rfl] at hpadded
    have := hpadded str htext.symm rfl (.int n :: more) st'
    show Prints _ _ _ (port.itoa n 10 st >>= _)
    rw [hitoa]
    exact this
  | i n =>
    obtain ⟨str, st', htext, hitoa⟩ := hport.itoa n 10 st (Or.inl rfl)
    rw [hconv] at hpadded hblank
    rw [hblank rfl] at hpadded
    have := hpadded str htext.symm rfl (.int n :: more) st'
    show Prints _ _ _ (port.itoa n 10 st >>= _)
    rw [hitoa]
    exact this
  | x n =>
    obtain ⟨str, st', htext, hitoa⟩ := hport.itoa n 16 st (Or.inr rfl)
    rw [hconv] at hpadded hzero
    rw [hzero rfl]
    have := hpadded str htext.symm rfl (.int n :: more) st'
    show Prints _ _ _ (port.itoa n 16 st >>= _)
    rw [hitoa]
    exact this
  | p n =>
    obtain ⟨str, st', htext, hitoa⟩ := hport.itoa64 n st
    rw [hconv] at hpadded hzero
    rw [hzero rfl]
    have := hpadded str htext.symm rfl (.long n :: more) st'
    show Prints _ _ _ (port.itoa64 n 16 st >>= _)
    rw [hitoa]
    exact this

/-! ## One turn -/

theorem specifier_plain (c : Conversion) :
    isDigit c.specifier = false ∧ c.specifier ≠ ascii '-' := by
  have hall : ∀ c ∈ ['%', 'c', 's', 'd', 'i', 'x', 'p'].map ascii, isDigit c = false ∧ c ≠ ascii '-' := by
    decide
  apply hall
  cases c <;> simp [Conversion.specifier]

/-- The scanner, from behind a `%` to the specifier `c`. Behind seven digits
the specifier can be an eighth one. -/
theorem directive.scans (port : Port) (left : Bool) {digits : List U8} (hle : digits.length ≤ 7)
    (hdigit : ∀ c ∈ digits, isDigit c = true) {c : U8}
    (hc : digits.length < 7 → isDigit c = false) (hminus : left = false → digits = [] → c ≠ ascii '-')
    (fs : List U8) (arg : List Arg) (st : port.Statics) (out : List U8) :
    directive port ⟨(if left then [ascii '-'] else []) ++ (digits ++ c :: fs), arg, st, out⟩ =
      convert port left (BitVec.ofNat 32 (decimalFrom 0 digits))
        (if left then false else decide (digits.head? = some (ascii '0'))) c
        ⟨c :: fs, arg, st, out⟩ := by
  have hjustify : scanJustify ((if left then [ascii '-'] else []) ++ (digits ++ c :: fs)) =
      ok (digits ++ c :: fs, left) := by
    cases hdigits : digits with
    | nil => exact scanJustify.spec left (fun h => hminus h hdigits) fs
    | cons a digits' =>
      have ha : a ≠ ascii '-' := by
        rintro rfl
        have := hdigit (ascii '-') (by rw [hdigits]; exact List.mem_cons_self)
        revert this
        decide
      exact scanJustify.spec left (fun _ => ha) _
  unfold directive
  simp only [hjustify, bind_ok, scanLength.spec hdigit hle hc fs, deref]

theorem directive.spec (hport : port.Lawful) (d : Directive) (fs : List U8) (more : List Arg)
    (st : port.Statics) (out : List U8) :
    Prints ⟨d.conversion.specifier :: fs, d.conversion.args ++ more, st, out⟩ more d.printed
      (directive port ⟨d.source.tail ++ fs, d.conversion.args ++ more, st, out⟩) := by
  obtain ⟨hspec, hminus⟩ := specifier_plain d.conversion
  have hsource : d.source.tail ++ fs = (if d.left then [ascii '-'] else []) ++
      (d.digits ++ d.conversion.specifier :: fs) := by
    simp [Directive.source]
  rw [hsource, directive.scans port d.left d.digits_le d.digit (fun _ => hspec) (fun _ _ => hminus)]
  exact convert.spec hport d _ more st out

theorem turn.literal (port : Port) {c : U8} (hzero : c ≠ 0) (hplain : c ≠ ascii '%') (fs : List U8)
    (arg : List Arg) (st : port.Statics) (out : List U8) :
    turn port ⟨c :: fs, arg, st, out⟩ = ok (.next ⟨fs, arg, st, out ++ [c]⟩) := by
  simp only [turn, deref, bind_ok, if_neg hzero, if_pos hplain, List.tail_cons]

theorem turn.end_mark (port : Port) (rest : List U8) (arg : List Arg) (st : port.Statics)
    (out : List U8) : turn port ⟨0 :: rest, arg, st, out⟩ = ok (.leave ⟨0 :: rest, arg, st, out⟩) :=
  rfl

/-- A turn on a directive is the directive, and a step past its specifier. -/
theorem turn.directive (port : Port) (d : Directive) (fs : List U8) (arg : List Arg)
    (st : port.Statics) (out : List U8) :
    turn port ⟨d.source ++ fs, arg, st, out⟩ =
      directive port ⟨d.source.tail ++ fs, arg, st, out⟩ >>=
        fun s => ok (.next { s with fmt_scan := s.fmt_scan.tail }) := rfl

namespace Piece

/-- What the code prints for a piece. -/
def printed : Piece → List U8
  | literal c _ _ => [c]
  | directive d => d.printed

/-- The text of the piece with no padding. -/
def bare : Piece → List U8
  | literal c _ _ => [c]
  | directive d => d.conversion.text

end Piece

theorem turn.prints (hport : port.Lawful) (p : Piece) (fs : List U8) (more : List Arg)
    (st : port.Statics) (out : List U8) : ∃ st',
    turn port ⟨p.source ++ fs, p.args ++ more, st, out⟩ =
      ok (.next ⟨fs, more, st', out ++ p.printed⟩) := by
  cases p with
  | literal c hzero hplain => exact ⟨st, turn.literal port hzero hplain fs more st out⟩
  | directive d =>
    obtain ⟨st', hrun⟩ := directive.spec hport d fs more st out
    refine ⟨st', ?_⟩
    show turn port ⟨d.source ++ fs, d.conversion.args ++ more, st, out⟩ = _
    rw [turn.directive, hrun]
    rfl

/-! ## All turns -/

theorem loop.prints (hport : port.Lawful) {ps : List Piece} (rest : List U8) (more : List Arg)
    (st : port.Statics) (out : List U8) {fuel : Nat} (hfuel : ps.length < fuel) : ∃ st',
    loop (turn port) fuel ⟨format ps rest, arguments ps more, st, out⟩ =
      ok ⟨0 :: rest, more, st', out ++ ps.flatMap Piece.printed⟩ := by
  induction ps generalizing st out fuel with
  | nil =>
    obtain ⟨fuel, rfl⟩ : ∃ k, fuel = k + 1 := ⟨fuel - 1, by omega⟩
    refine ⟨st, ?_⟩
    rw [List.flatMap_nil, List.append_nil]
    exact loop_leave (turn.end_mark port rest more st out)
  | cons p ps ih =>
    rw [List.length_cons] at hfuel
    obtain ⟨fuel, rfl⟩ : ∃ k, fuel = k + 1 := ⟨fuel - 1, by omega⟩
    obtain ⟨st', hturn⟩ := turn.prints hport p (format ps rest) (arguments ps more) st out
    obtain ⟨st'', hrun⟩ := ih st' (out ++ p.printed) (show ps.length < fuel by omega)
    refine ⟨st'', ?_⟩
    have hformat : format (p :: ps) rest = p.source ++ format ps rest := by simp [format]
    have harguments : arguments (p :: ps) more = p.args ++ arguments ps more := by simp [arguments]
    rw [hformat, harguments, loop_next hturn, hrun, List.flatMap_cons, List.append_assoc]

/-! ## The law -/

namespace Piece

/-- The code prints more padding for the piece than its width asks for. -/
def Overpads : Piece → Prop
  | literal _ _ _ => False
  | directive d => printf.Overpads d.width d.conversion.text.length

theorem length_le_printed (p : Piece) : p.text.length ≤ p.printed.length := by
  cases p with
  | literal c _ _ => exact Nat.le_refl _
  | directive d =>
    show (d.withPadding _).length ≤ (d.withPadding _).length
    rw [d.withPadding_length, d.withPadding_length]
    by_cases h : d.conversion.text.length ≤ d.width
    · rw [padding_of_le d.width_lt h]
      omega
    · omega

theorem printed_eq_iff (p : Piece) : p.printed = p.text ↔ ¬ p.Overpads := by
  cases p with
  | literal c _ _ => simp [printed, text, Overpads]
  | directive d =>
    show d.printed = d.text ↔ ¬ printf.Overpads d.width d.conversion.text.length
    by_cases h : d.conversion.text.length ≤ d.width
    · have hnot : ¬ printf.Overpads d.width d.conversion.text.length := by
        rintro ⟨-, hlt, -⟩
        omega
      have heq : d.printed = d.text := by
        rw [Directive.printed, Directive.text, padding_of_le d.width_lt h, Nat.max_eq_left h]
      exact ⟨fun _ => hnot, fun _ => heq⟩
    · rw [← padding_of_gt d.width_lt (by omega), Nat.not_lt, Nat.le_zero]
      rw [Directive.printed, Directive.text, Nat.max_eq_right (by omega), Nat.sub_self]
      refine ⟨fun heq => ?_, fun heq => by rw [heq]⟩
      have := congrArg List.length heq
      rw [d.withPadding_length, d.withPadding_length] at this
      omega

end Piece

/-- Two ways to print a list of pieces agree where they agree on each piece,
if one of them prints no less than the other for any. -/
theorem flatMap_eq_iff {α β : Type} {f g : α → List β} (h : ∀ a, (g a).length ≤ (f a).length)
    (l : List α) : l.flatMap f = l.flatMap g ↔ ∀ a ∈ l, f a = g a := by
  induction l with
  | nil => simp
  | cons a l ih =>
    have hrest : (l.flatMap g).length ≤ (l.flatMap f).length := by
      rw [List.length_flatMap, List.length_flatMap]
      exact List.sum_le_sum fun a _ => h a
    rw [List.flatMap_cons, List.flatMap_cons, List.forall_mem_cons, ← ih]
    constructor
    · intro heq
      have hlength := congrArg List.length heq
      rw [List.length_append, List.length_append] at hlength
      have ha := h a
      exact List.append_inj heq (by omega)
    · rintro ⟨ha, hl⟩
      rw [ha, hl]

/-- What the pieces print, in their order. -/
def text (ps : List Piece) : List U8 := ps.flatMap Piece.text

theorem Piece.source_length (p : Piece) : 1 ≤ p.source.length := by
  cases p with
  | literal c _ _ => exact Nat.le_refl 1
  | directive d => exact Nat.succ_le_succ (Nat.zero_le _)

theorem length_lt_format (ps : List Piece) (rest : List U8) :
    ps.length < (format ps rest).length := by
  induction ps with
  | nil => simp [format]
  | cons p ps ih =>
    have hp := p.source_length
    have hformat : format (p :: ps) rest = p.source ++ format ps rest := by simp [format]
    rw [hformat, List.length_append, List.length_cons]
    omega

theorem vprintf.spec (hport : port.Lawful) (ps : List Piece) (rest : List U8) (more : List Arg)
    (st : port.Statics) :
    (vprintf port (format ps rest) (arguments ps more) st).Yields (fun s => s.out = text ps) ↔
      ∀ p ∈ ps, ¬ p.Overpads := by
  obtain ⟨st', hrun⟩ := loop.prints hport rest more st []
    (Nat.lt_succ_of_lt (length_lt_format ps rest))
  have hyields : (vprintf port (format ps rest) (arguments ps more) st).Yields
      (fun s => s.out = text ps) ↔ ps.flatMap Piece.printed = text ps := by
    rw [vprintf, hrun]
    constructor
    · rintro ⟨s, hs, hout⟩
      cases hs
      simpa using hout
    · intro h
      exact ⟨_, rfl, by simpa using h⟩
  rw [hyields, text, flatMap_eq_iff Piece.length_le_printed]
  simp only [Piece.printed_eq_iff]

/-! ## The two copies -/

/-- The digits of a number, in a buffer with room for them. -/
theorem itoaAt.string {size last : Nat} {base n : U64} (hbase : base = 10 ∨ base = 16)
    (hpos : 0 < last) (hsize : last < size) (hn : n.toNat < 10 ^ last) (buffer : Vector U8 size) :
    ∃ (str : CString) (buffer' : Vector U8 size), str.text = numeral base.toNat n.toNat ∧
      itoaAt last n base buffer = ok (str.memory, buffer') := by
  obtain ⟨hlow, hhigh⟩ : 10 ≤ base.toNat ∧ base.toNat ≤ 16 := by
    rcases hbase with rfl | rfl <;> decide
  have hfits : n.toNat < base.toNat ^ last :=
    Nat.lt_of_lt_of_le hn (Nat.pow_le_pow_left hlow last)
  obtain ⟨tail, buffer', hrun⟩ := itoaAt.spec (by omega) hhigh hpos hsize hfits buffer
  exact ⟨⟨_, tail, numeral_nonzero (by omega) hhigh n.toNat⟩, buffer', rfl, hrun⟩

theorem setWidth_toNat (n : U32) : (n.setWidth 64).toNat = n.toNat := by
  have := n.isLt
  rw [BitVec.toNat_setWidth, Nat.mod_eq_of_lt (by omega)]

theorem libk_lawful : lobo.libk.Lawful where
  word := by decide
  print_string := fun str out => print_chars.spec str.nonzero str.tail out
  itoa := by
    intro n base st hbase
    have hn : (n.setWidth 64).toNat < 10 ^ 49 := Nat.lt_trans (BitVec.isLt _) (by decide)
    obtain ⟨str, st', htext, hrun⟩ := itoaAt.string hbase (by decide) (by decide) hn st
    exact ⟨str, st', htext.trans (by rw [setWidth_toNat]), hrun⟩
  itoa64 := by
    intro n st
    have hn : n.toNat < 10 ^ 49 := Nat.lt_trans n.isLt (by decide)
    exact itoaAt.string (Or.inr rfl) (by decide) (by decide) hn st

theorem port_lawful : awd.port.Lawful where
  word := Nat.le_refl _
  print_string := fun str out => print_chars.spec str.nonzero str.tail out
  itoa := by
    rintro n base ⟨buffer, buffer64⟩ hbase
    have hn : (n.setWidth 64).toNat < 10 ^ 32 := Nat.lt_trans (BitVec.isLt _) (by decide)
    obtain ⟨str, buffer', htext, hrun⟩ := itoaAt.string hbase (by decide) (by decide) hn buffer
    refine ⟨str, (buffer', buffer64), htext.trans (by rw [setWidth_toNat]), ?_⟩
    show itoaAt 32 (n.setWidth 64) base buffer >>= _ = _
    rw [hrun]
    rfl
  itoa64 := by
    rintro n ⟨buffer, buffer64⟩
    have hn : n.toNat < 10 ^ 64 := Nat.lt_trans n.isLt (by decide)
    obtain ⟨str, buffer64', htext, hrun⟩ :=
      itoaAt.string (Or.inr rfl) (by decide) (by decide) hn buffer64
    refine ⟨str, (buffer, buffer64'), htext, ?_⟩
    show itoaAt 64 n 16 buffer64 >>= _ = _
    rw [hrun]
    rfl

/-- A text of less than 2 GiB gets the padding that its width asks for. -/
theorem Piece.not_overpads_of_short {p : Piece} (h : p.bare.length < 2 ^ 31) : ¬ p.Overpads := by
  cases p with
  | literal c _ _ => exact fun h => h
  | directive d =>
    rintro ⟨-, hlt, hwrap⟩
    have hlength : d.conversion.text.length < 2 ^ 31 := h
    omega

/-- Both copies print the texts of the pieces if and only if no difference of a
width and a length is positive in an `int` by its wrap. -/
theorem vprintf_prints_the_texts_of_its_pieces (ps : List Piece) (rest : List U8) (more : List Arg) :
    (∀ st, (vprintf lobo.libk (format ps rest) (arguments ps more) st).Yields
        (fun s => s.out = text ps) ↔ ∀ p ∈ ps, ¬ p.Overpads) ∧
      ∀ st, (vprintf awd.port (format ps rest) (arguments ps more) st).Yields
        (fun s => s.out = text ps) ↔ ∀ p ∈ ps, ¬ p.Overpads :=
  ⟨vprintf.spec libk_lawful ps rest more, vprintf.spec port_lawful ps rest more⟩

/-- 4 GiB of one letter. -/
def longString : CString where
  text := List.replicate (2 ^ 32) (ascii 'a')
  tail := []
  nonzero := by
    intro c hc
    rw [List.eq_of_mem_replicate hc]
    decide

/-- `%1s` -/
def longPiece : Piece := .directive ⟨false, [ascii '1'], .s longString, by decide, by decide⟩

def zeroBuffer : lobo.libk.Statics := (Vector.replicate 65 0 : Vector U8 65)

/-- The kernel prints a space in front of a text that is 2 ^ 32 times as long
as its width. -/
theorem a_long_text_is_padded :
    ¬ (vprintf lobo.libk (format [longPiece] []) (arguments [longPiece] []) zeroBuffer).Yields
      (fun s => s.out = text [longPiece]) := by
  intro h
  apply (vprintf.spec libk_lawful [longPiece] [] [] zeroBuffer).mp h longPiece List.mem_cons_self
  have hwidth : decimalFrom 0 [ascii '1'] = 1 := by decide
  have hlength : longString.text.length = 2 ^ 32 := List.length_replicate
  show Overpads (decimalFrom 0 [ascii '1']) longString.text.length
  rw [hwidth, hlength]
  decide

end printf
