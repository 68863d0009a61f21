-- Where the scan of a format ends. The loop tests for the end mark in front of
-- a directive, and nothing tests for it inside of one. So a format that ends
-- inside of a directive has its end mark taken for the specifier, and the scan
-- goes on behind it.
import CanidaeOS.VprintfPieces

open Program Machine Outcome

namespace printf

/-! ## Places in a format -/

/-- Where the scan is: outside of a directive, or behind the `%`, the `-` or
some digits of one. -/
inductive Place where
  | text
  | percent
  | dash
  | digits (count : Nat)
deriving DecidableEq, Repr

def Place.next : Place → U8 → Place
  | text, c => if c = ascii '%' then percent else text
  | percent, c => if c = ascii '-' then dash else if isDigit c then digits 1 else text
  | dash, c => if isDigit c then digits 1 else text
  | digits count, c => if isDigit c ∧ count < 7 then digits (count + 1) else text

/-- The place behind the characters of a list. -/
def Place.behind (place : Place) (fmt : List U8) : Place := fmt.foldl Place.next place

/-- The characters that end a directive, in their order. -/
def specifiers : Place → List U8 → List U8
  | _, [] => []
  | place, c :: fmt =>
    if place ≠ .text ∧ place.next c = .text then c :: specifiers (place.next c) fmt
    else specifiers (place.next c) fmt

theorem Place.behind_append (place : Place) (fmt fmt' : List U8) :
    place.behind (fmt ++ fmt') = (place.behind fmt).behind fmt' := List.foldl_append

theorem specifiers_append (place : Place) (fmt fmt' : List U8) :
    specifiers place (fmt ++ fmt') = specifiers place fmt ++ specifiers (place.behind fmt) fmt' := by
  induction fmt generalizing place with
  | nil => rfl
  | cons c fmt ih =>
    rw [List.cons_append, specifiers, specifiers, ih]
    split <;> rfl

/-! ## The flags of a directive -/

/-- `[-][digits]` -/
structure Flags where
  left : Bool
  digits : List U8
  digits_le : digits.length ≤ 7
  digit : ∀ c ∈ digits, isDigit c = true

namespace Flags

def source (f : Flags) : List U8 := (if f.left then [ascii '-'] else []) ++ f.digits

/-- The scanner takes `c` for the specifier behind the flags. -/
def Ends (f : Flags) (c : U8) : Prop :=
  (f.digits.length < 7 → isDigit c = false) ∧ (f.left = false → f.digits = [] → c ≠ ascii '-')

end Flags

/-- The place behind a `%`, a `-` if there is one, and some digits. -/
def placeInside (left : Bool) (digits : List U8) : Place :=
  if digits = [] then if left then .dash else .percent else .digits digits.length

theorem placeInside_ne_text (left : Bool) (digits : List U8) : placeInside left digits ≠ .text := by
  unfold placeInside
  split
  · split <;> simp
  · simp

theorem placeInside_digit (left : Bool) {digits : List U8} (hlt : digits.length < 7) {a : U8}
    (ha : isDigit a = true) :
    (placeInside left digits).next a = placeInside left (digits ++ [a]) := by
  have hminus : a ≠ ascii '-' := by
    rintro rfl
    revert ha
    decide
  unfold placeInside
  by_cases hnil : digits = []
  · cases left <;> simp [hnil, Place.next, ha, hminus]
  · simp [hnil, Place.next, ha, hlt]

theorem Flags.place_next {f : Flags} {c : U8} (h : f.Ends c) :
    (placeInside f.left f.digits).next c = .text := by
  obtain ⟨hdigit, hminus⟩ := h
  unfold placeInside
  by_cases hnil : f.digits = []
  · have hc := hdigit (by simp [hnil])
    cases hleft : f.left with
    | true => simp [hnil, Place.next, hc]
    | false => simp [hnil, Place.next, hc, hminus hleft hnil]
  · have hc : ¬ (isDigit c = true ∧ f.digits.length < 7) := by
      rintro ⟨hyes, hlt⟩
      rw [hdigit hlt] at hyes
      cases hyes
    rw [if_neg hnil, Place.next, if_neg hc]

/-- The scan crosses the flags and meets no specifier in them. -/
theorem crosses (left : Bool) {digits : List U8} (hle : digits.length ≤ 7)
    (hdigit : ∀ c ∈ digits, isDigit c = true) :
    Place.percent.behind ((if left then [ascii '-'] else []) ++ digits) = placeInside left digits ∧
      specifiers .percent ((if left then [ascii '-'] else []) ++ digits) = [] := by
  induction digits using List.reverseRecOn with
  | nil => cases left <;> exact ⟨rfl, rfl⟩
  | append_singleton digits a ih =>
    rw [List.length_append, List.length_singleton] at hle
    obtain ⟨hplace, hnone⟩ := ih (by omega) fun c hc => hdigit c (List.mem_append_left _ hc)
    have hnext := placeInside_digit left hle (hdigit a (by simp))
    have hinside := placeInside_ne_text left (digits ++ [a])
    rw [← List.append_assoc, Place.behind_append, specifiers_append, hplace, hnone]
    refine ⟨hnext, ?_⟩
    simp [specifiers, hnext, hinside]

namespace Flags

variable (f : Flags)

theorem behind : Place.text.behind (ascii '%' :: f.source) = placeInside f.left f.digits :=
  (crosses f.left f.digits_le f.digit).1

theorem specifiers_source : specifiers .text (ascii '%' :: f.source) = [] :=
  (crosses f.left f.digits_le f.digit).2

/-- A directive with its specifier is behind the scan when the scan is back in
the text. -/
theorem behind_directive {c : U8} (h : f.Ends c) (fmt : List U8) :
    Place.text.behind (ascii '%' :: (f.source ++ c :: fmt)) = Place.text.behind fmt := by
  rw [← List.cons_append, Place.behind_append, f.behind]
  show Place.behind (Place.next _ c) fmt = _
  rw [f.place_next h]

theorem specifiers_directive {c : U8} (h : f.Ends c) (fmt : List U8) :
    specifiers .text (ascii '%' :: (f.source ++ c :: fmt)) = c :: specifiers .text fmt := by
  have hinside := placeInside_ne_text f.left f.digits
  rw [← List.cons_append, specifiers_append, f.behind, f.specifiers_source, specifiers,
    f.place_next h, if_pos ⟨hinside, rfl⟩]
  rfl

end Flags

/-! ## The shapes of a format -/

/-- The digits at the front of a list, as far as there is room for them. -/
theorem split_digits (room : Nat) (fmt : List U8) : ∃ digits rest, fmt = digits ++ rest ∧
    digits.length ≤ room ∧ (∀ c ∈ digits, isDigit c = true) ∧
    ∀ c ∈ rest.head?, digits.length < room → isDigit c = false := by
  induction room generalizing fmt with
  | zero => exact ⟨[], fmt, rfl, Nat.le_refl 0, by simp, fun _ _ h => absurd h (Nat.lt_irrefl 0)⟩
  | succ room ih =>
    cases fmt with
    | nil => exact ⟨[], [], rfl, Nat.zero_le _, by simp, by simp⟩
    | cons a fmt =>
      cases ha : isDigit a with
      | false => exact ⟨[], a :: fmt, rfl, Nat.zero_le _, by simp, by simpa using ha⟩
      | true =>
        obtain ⟨digits, rest, rfl, hle, hdigit, hrest⟩ := ih fmt
        refine ⟨a :: digits, rest, rfl, Nat.succ_le_succ hle, ?_, ?_⟩
        · intro c hc
          rcases List.mem_cons.mp hc with rfl | hc
          · exact ha
          · exact hdigit c hc
        · exact fun c hc hlt => hrest c hc (Nat.lt_of_succ_lt_succ hlt)

theorem split_flags (fmt : List U8) :
    ∃ (f : Flags) (rest : List U8), fmt = f.source ++ rest ∧ ∀ c ∈ rest.head?, f.Ends c := by
  by_cases hminus : fmt.head? = some (ascii '-')
  · obtain ⟨digits, rest, hfmt, hle, hdigit, hrest⟩ := split_digits 7 fmt.tail
    refine ⟨⟨true, digits, hle, hdigit⟩, rest, ?_, fun c hc => ⟨hrest c hc, by simp⟩⟩
    rw [List.eq_cons_of_mem_head? hminus, hfmt]
    rfl
  · obtain ⟨digits, rest, rfl, hle, hdigit, hrest⟩ := split_digits 7 fmt
    refine ⟨⟨false, digits, hle, hdigit⟩, rest, rfl, fun c hc => ⟨hrest c hc, ?_⟩⟩
    rintro - rfl rfl
    exact hminus hc

/-- Induction along a format: a plain character, a directive with its
specifier, or a directive that the end cuts off. -/
theorem format_induction {P : List U8 → Prop} (nil : P [])
    (plain : ∀ c fmt, c ≠ ascii '%' → P fmt → P (c :: fmt))
    (directive : ∀ (f : Flags) c fmt, f.Ends c → P fmt → P (ascii '%' :: (f.source ++ c :: fmt)))
    (cut : ∀ f : Flags, P (ascii '%' :: f.source)) (fmt : List U8) : P fmt := by
  generalize hn : fmt.length = n
  induction n using Nat.strong_induction_on generalizing fmt with
  | _ n ih =>
    cases fmt with
    | nil => exact nil
    | cons c fmt =>
      rw [List.length_cons] at hn
      by_cases hc : c = ascii '%'
      · obtain ⟨f, rest, rfl, hends⟩ := split_flags fmt
        rw [List.length_append] at hn
        cases rest with
        | nil =>
          rw [hc, List.append_nil]
          exact cut f
        | cons a rest =>
          rw [List.length_cons] at hn
          rw [hc]
          exact directive f a rest (hends a rfl) (ih _ (by omega) rest rfl)
      · exact plain c fmt hc (ih _ (by omega) fmt rfl)

/-! ## What a directive asks for -/

/-- The characters that the `switch` has a case for. -/
def caseLabels : List U8 := ['%', 's', 'c', 'i', 'd', 'x', 'p'].map ascii

/-- A specifier with its argument. The `switch` prints a character that it has
no case for. -/
inductive Request where
  | conversion (conv : Conversion)
  | other (c : U8) (h : c ∉ caseLabels)

namespace Request

def specifier : Request → U8
  | conversion conv => conv.specifier
  | other c _ => c

def args : Request → List Arg
  | conversion conv => conv.args
  | other _ _ => []

/-- The text with no padding. -/
def text : Request → List U8
  | conversion conv => conv.text
  | other c _ => [c]

/-- The end marks that the argument itself asks for. -/
def nuls : Request → Nat
  | conversion (.c n) => if n.setWidth 8 = (0 : U8) then 1 else 0
  | _ => 0

end Request

theorem convert.other (port : Port) (left : Bool) (length : U32) (zeropad : Bool) {c : U8}
    (hc : c ∉ caseLabels) (s : Scan port) :
    convert port left length zeropad c s = ok { s with out := s.out ++ [c] } := by
  simp only [caseLabels, List.map_cons, List.map_nil, List.mem_cons, List.not_mem_nil, or_false,
    not_or] at hc
  obtain ⟨hpercent, hs, hchar, hi, hd, hx, hp⟩ := hc
  simp only [convert, hpercent, hs, hchar, hi, hd, hx, hp, or_self, if_false]

section

variable {port : Port}

theorem turn.other (port : Port) (f : Flags) {c : U8} (hc : c ∉ caseLabels) (hends : f.Ends c)
    (fs : List U8) (arg : List Arg) (st : port.Statics) (out : List U8) :
    turn port ⟨ascii '%' :: (f.source ++ c :: fs), arg, st, out⟩ =
      ok (.next ⟨fs, arg, st, out ++ [c]⟩) := by
  have hdirective : printf.directive port ⟨f.source ++ c :: fs, arg, st, out⟩ =
      ok ⟨c :: fs, arg, st, out ++ [c]⟩ := by
    rw [Flags.source, List.append_assoc,
      directive.scans port f.left f.digits_le f.digit hends.1 hends.2, convert.other port _ _ _ hc]
  show printf.directive port ⟨f.source ++ c :: fs, arg, st, out⟩ >>= _ = _
  rw [hdirective]
  rfl

theorem count_text (conv : Conversion) : conv.text.count 0 = (Request.conversion conv).nuls := by
  have hnumeral : ∀ base n, 1 < base → base ≤ 16 → (numeral base n).count 0 = 0 := by
    intro base n hbase hbase'
    rw [List.count_eq_zero]
    exact fun h => numeral_nonzero hbase hbase' n 0 h rfl
  cases conv with
  | percent => rfl
  | c n => simp [Conversion.text, Request.nuls, List.count_singleton]
  | s str => exact List.count_eq_zero.mpr fun h => str.nonzero 0 h rfl
  | d n => exact hnumeral 10 n.toNat (by decide) (by decide)
  | i n => exact hnumeral 10 n.toNat (by decide) (by decide)
  | x n => exact hnumeral 16 n.toNat (by decide) (by decide)
  | p n => exact hnumeral 16 n.toNat (by decide) (by decide)

theorem count_printed (d : Directive) :
    d.printed.count 0 = (Request.conversion d.conversion).nuls := by
  have hfill : ∀ k, (List.replicate k (padCharacter d.zeropad)).count 0 = 0 := by
    intro k
    rw [List.count_eq_zero]
    intro h
    have hpad : (0 : U8) = padCharacter d.zeropad := List.eq_of_mem_replicate h
    revert hpad
    cases d.zeropad <;> decide
  unfold Directive.printed Directive.withPadding
  dsimp only
  split <;> rw [List.count_append, hfill, count_text] <;> omega

/-- A turn on a directive takes its argument, and prints no end mark of its own. -/
theorem turn.request (hport : port.Lawful) (f : Flags) (r : Request)
    (hends : f.Ends r.specifier) (hzero : r.specifier ≠ 0) (fs : List U8) (more : List Arg) (st : port.Statics) (out : List U8) :
    ∃ (st' : port.Statics) (e : List U8), e.count 0 = r.nuls ∧
      turn port ⟨ascii '%' :: (f.source ++ r.specifier :: fs), r.args ++ more, st, out⟩ =
        ok (.next ⟨fs, more, st', out ++ e⟩) := by
  cases r with
  | conversion conv =>
    let d : Directive := ⟨f.left, f.digits, conv, f.digits_le, f.digit⟩
    obtain ⟨st', hturn⟩ := turn.prints hport (.directive d) fs more st out
    refine ⟨st', d.printed, count_printed d, ?_⟩
    rw [← Piece.printed, ← hturn]
    simp [Piece.source, Directive.source, Flags.source, Piece.args, Request.args,
      Request.specifier, d]
  | other c hc =>
    refine ⟨st, [c], ?_, turn.other port f hc hends fs more st out⟩
    have hne : c ≠ 0 := hzero
    rw [List.count_singleton, if_neg (by simpa using hne)]
    rfl

/-- The end mark as the specifier of a directive: the scan goes on behind it. -/
theorem turn.cut (port : Port) (f : Flags) (rest : List U8) (arg : List Arg) (st : port.Statics)
    (out : List U8) : turn port ⟨ascii '%' :: (f.source ++ 0 :: rest), arg, st, out⟩ =
      ok (.next ⟨rest, arg, st, out ++ [0]⟩) := by
  apply turn.other port f (by decide)
  exact ⟨fun _ => by decide, fun _ _ => by decide⟩

/-! ## All turns -/

/-- The requests are those of the format, in its order. -/
def Asks (fmt : List U8) (requests : List Request) : Prop :=
  requests.map Request.specifier = specifiers .text fmt

theorem asks_nil {requests : List Request} (h : Asks [] requests) : requests = [] :=
  List.map_eq_nil_iff.mp h

theorem asks_plain {c : U8} {fmt : List U8} (hc : c ≠ ascii '%') {requests : List Request}
    (h : Asks (c :: fmt) requests) : Asks fmt requests := by
  have hnext : Place.text.next c = .text := if_neg hc
  unfold Asks at h
  rw [specifiers, hnext, if_neg (by simp)] at h
  exact h

theorem asks_directive {f : Flags} {c : U8} (hends : f.Ends c) {fmt : List U8}
    {requests : List Request} (h : Asks (ascii '%' :: (f.source ++ c :: fmt)) requests) :
    ∃ r rs, requests = r :: rs ∧ r.specifier = c ∧ Asks fmt rs := by
  unfold Asks at h
  rw [f.specifiers_directive hends] at h
  obtain ⟨r, rs, rfl, hr, hrs⟩ := List.map_eq_cons_iff.mp h
  exact ⟨r, rs, rfl, hr, hrs⟩

theorem behind_plain {c : U8} (hc : c ≠ ascii '%') (fmt : List U8) :
    Place.text.behind (c :: fmt) = Place.text.behind fmt := by
  show Place.behind (Place.next .text c) fmt = _
  rw [Place.next, if_neg hc]

/-- A format that ends outside of a directive: the scan ends on its end mark. -/
theorem loop.stays (hport : port.Lawful) (rest : List U8) (fmt : List U8) :
    (∀ c ∈ fmt, c ≠ 0) → Place.text.behind fmt = .text →
    ∀ requests : List Request, Asks fmt requests →
    ∀ (more : List Arg) (st : port.Statics) (out : List U8) (fuel : Nat), fmt.length < fuel →
    ∃ (st' : port.Statics) (e : List U8), e.count 0 = (requests.map Request.nuls).sum ∧
      loop (turn port) fuel ⟨fmt ++ 0 :: rest, requests.flatMap Request.args ++ more, st, out⟩ =
        ok ⟨0 :: rest, more, st', out ++ e⟩ := by
  induction fmt using format_induction with
  | nil =>
    intro _ _ requests hasks more st out fuel hfuel
    obtain ⟨fuel, rfl⟩ : ∃ k, fuel = k + 1 := ⟨fuel - 1, by omega⟩
    rw [asks_nil hasks]
    refine ⟨st, [], rfl, ?_⟩
    rw [List.append_nil]
    exact loop_leave (turn.end_mark port rest more st out)
  | plain c fmt hc ih =>
    intro hzero hbehind requests hasks more st out fuel hfuel
    rw [List.length_cons] at hfuel
    obtain ⟨fuel, rfl⟩ : ∃ k, fuel = k + 1 := ⟨fuel - 1, by omega⟩
    rw [behind_plain hc] at hbehind
    have hc0 := hzero c List.mem_cons_self
    have hturn := turn.literal port hc0 hc (fmt ++ 0 :: rest)
      (requests.flatMap Request.args ++ more) st out
    obtain ⟨st', e, hcount, hrun⟩ := ih (fun c hc => hzero c (List.mem_cons_of_mem _ hc)) hbehind
      requests (asks_plain hc hasks) more st (out ++ [c]) fuel (by omega)
    refine ⟨st', c :: e, ?_, ?_⟩
    · rw [List.count_cons_of_ne hc0, hcount]
    · rw [List.cons_append, loop_next hturn, hrun, List.append_assoc]
      rfl
  | directive f c fmt hends ih =>
    intro hzero hbehind requests hasks more st out fuel hfuel
    rw [List.length_cons, List.length_append, List.length_cons] at hfuel
    obtain ⟨fuel, rfl⟩ : ∃ k, fuel = k + 1 := ⟨fuel - 1, by omega⟩
    rw [f.behind_directive hends] at hbehind
    obtain ⟨r, rs, rfl, rfl, hrs⟩ := asks_directive hends hasks
    have hr := hzero r.specifier (by simp)
    obtain ⟨st', e, hcount, hturn⟩ := turn.request hport f r hends hr (fmt ++ 0 :: rest)
      (rs.flatMap Request.args ++ more) st out
    obtain ⟨st'', e', hcount', hrun⟩ := ih (fun c hc => hzero c (by simp [hc])) hbehind rs hrs
      more st' (out ++ e) fuel (by omega)
    refine ⟨st'', e ++ e', ?_, ?_⟩
    · rw [List.count_append, hcount, hcount', List.map_cons, List.sum_cons]
    · rw [List.flatMap_cons, List.append_assoc, List.cons_append, List.append_assoc,
        List.cons_append, loop_next hturn, hrun, List.append_assoc]
  | cut f =>
    intro _ hbehind
    rw [f.behind] at hbehind
    exact absurd hbehind (placeInside_ne_text f.left f.digits)

/-- Nothing is behind the end mark: the scan of a format that ends inside of a
directive has no result. -/
theorem loop.leaves (hport : port.Lawful) (fmt : List U8) :
    (∀ c ∈ fmt, c ≠ 0) → ∀ requests : List Request, Asks fmt requests →
    Place.text.behind fmt ≠ .text →
    ∀ (more : List Arg) (st : port.Statics) (out : List U8) (fuel : Nat) (s : Scan port),
      loop (turn port) fuel ⟨fmt ++ [0], requests.flatMap Request.args ++ more, st, out⟩ ≠ ok s := by
  induction fmt using format_induction with
  | nil =>
    intro _ requests hasks hnot
    exact absurd rfl hnot
  | plain c fmt hc ih =>
    intro hzero requests hasks hnot more st out fuel s
    rw [behind_plain hc] at hnot
    have hturn := turn.literal port (hzero c List.mem_cons_self) hc (fmt ++ [0])
      (requests.flatMap Request.args ++ more) st out
    cases fuel with
    | zero => simp
    | succ fuel =>
      rw [List.cons_append, loop_next hturn]
      exact ih (fun c hc => hzero c (List.mem_cons_of_mem _ hc)) requests (asks_plain hc hasks) hnot
        more st _ fuel s
  | directive f c fmt hends ih =>
    intro hzero requests hasks hnot more st out fuel s
    rw [f.behind_directive hends] at hnot
    obtain ⟨r, rs, rfl, rfl, hrs⟩ := asks_directive hends hasks
    have hr := hzero r.specifier (by simp)
    rw [List.flatMap_cons, List.append_assoc, List.cons_append, List.append_assoc, List.cons_append]
    cases fuel with
    | zero => simp
    | succ fuel =>
      obtain ⟨st', e, -, hturn⟩ := turn.request hport f r hends hr (fmt ++ [0])
        (rs.flatMap Request.args ++ more) st out
      rw [loop_next hturn]
      exact ih (fun c hc => hzero c (by simp [hc])) rs hrs hnot more st' _ fuel s
  | cut f =>
    intro _ requests _ _ more st out fuel s
    cases fuel with
    | zero => simp
    | succ fuel =>
      have hturn := turn.cut port f [] (requests.flatMap Request.args ++ more) st out
      rw [List.cons_append, loop_next hturn]
      -- the next turn reads behind the end mark
      cases fuel with
      | zero => simp
      | succ fuel =>
        intro h
        cases h

/-! ## The law -/

/-- Whatever the memory holds behind the end mark of the format, `vprintf`
returns with its scan on the end mark, and prints as many end marks as the `%c`
directives ask for. With no memory there, it reads nothing behind the mark. -/
def StaysInside (port : Port) (fmt : List U8) (requests : List Request) (more : List Arg)
    (st : port.Statics) : Prop :=
  ∀ rest, (vprintf port (fmt ++ 0 :: rest) (requests.flatMap Request.args ++ more) st).Yields fun s =>
    s.fmt_scan = 0 :: rest ∧ s.out.count 0 = (requests.map Request.nuls).sum

theorem staysInside_iff (hport : port.Lawful) {fmt : List U8} (hfmt : ∀ c ∈ fmt, c ≠ 0)
    {requests : List Request} (hasks : Asks fmt requests) (more : List Arg) (st : port.Statics) :
    StaysInside port fmt requests more st ↔ Place.text.behind fmt = .text := by
  constructor
  · intro h
    by_contra hnot
    obtain ⟨s, hrun, -⟩ := h []
    exact loop.leaves hport fmt hfmt requests hasks hnot more st [] _ s hrun
  · intro hbehind rest
    obtain ⟨st', e, hcount, hrun⟩ := loop.stays hport rest fmt hfmt hbehind requests hasks more
      st [] ((fmt ++ 0 :: rest).length + 1) (by simp)
    exact ⟨_, hrun, rfl, hcount⟩

end

/-- Both copies of `vprintf` keep to their format if and only if the format does not
end inside of a directive. -/
theorem vprintf_stays_inside_its_format (fmt : List U8) (hfmt : ∀ c ∈ fmt, c ≠ 0)
    (requests : List Request) (hasks : Asks fmt requests) (more : List Arg) :
    (∀ st, StaysInside lobo.libk fmt requests more st ↔ Place.text.behind fmt = .text) ∧
      ∀ st, StaysInside awd.port fmt requests more st ↔ Place.text.behind fmt = .text :=
  ⟨staysInside_iff libk_lawful hfmt hasks more, staysInside_iff port_lawful hfmt hasks more⟩

/-- `%d` of 7 -/
theorem a_decimal_stays_inside :
    StaysInside lobo.libk [ascii '%', ascii 'd'] [.conversion (.d 7)] [] zeroBuffer := by
  apply ((vprintf_stays_inside_its_format [ascii '%', ascii 'd'] (by decide) [.conversion (.d 7)]
    (by rfl) []).1 zeroBuffer).mpr
  decide

/-- The format `%` -/
theorem a_lone_percent_leaves_its_format : ¬ StaysInside lobo.libk [ascii '%'] [] [] zeroBuffer := by
  intro h
  have hbehind := (staysInside_iff libk_lawful (by decide) (by rfl) [] zeroBuffer).mp h
  revert hbehind
  decide

end printf
