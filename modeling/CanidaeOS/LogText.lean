-- The messages of the log (`log.cpp`) as their callers write them: plain text,
-- strings that the kernel holds somewhere, and numbers. Each piece with its
-- text, and what the formatter asks of it.
import CanidaeOS.Log

open Program Machine Outcome

namespace lobo.log

open printf (ascii figure numeral Arg CString Conversion Directive Piece isDigit)

/-! ## The pieces -/

/-- A text with no directive and no newline in it. -/
structure Plain where
  text : List U8
  nonzero : ∀ c ∈ text, c ≠ 0
  plain : ∀ c ∈ text, c ≠ ascii '%'
  line : ∀ c ∈ text, c ≠ 10

def isPlain (s : String) : Bool := (chars s).all fun c => c != 0 && c != ascii '%' && c != 10

theorem isPlain_iff {s : String} :
    isPlain s = true ↔ ∀ c ∈ chars s, (c ≠ 0 ∧ c ≠ ascii '%') ∧ c ≠ 10 := by
  simp [isPlain, and_assoc]

def plain (s : String) (h : isPlain s = true) : Plain where
  text := chars s
  nonzero c hc := (isPlain_iff.mp h c hc).1.1
  plain c hc := (isPlain_iff.mp h c hc).1.2
  line c hc := (isPlain_iff.mp h c hc).2

def Plain.pieces (s : Plain) : List Piece :=
  s.text.attach.map fun c => .literal c.1 (s.nonzero c.1 c.2) (s.plain c.1 c.2)

/-- The text with an end mark, as a literal. -/
def Plain.cstring (s : Plain) : CString := ⟨s.text, [], s.nonzero⟩

theorem newline_nonzero : (10 : U8) ≠ 0 := by decide

theorem newline_plain : (10 : U8) ≠ ascii '%' := by decide

def newline : Piece := .literal 10 newline_nonzero newline_plain

/-- `%s`, `%d` or `%p` -/
def bare (c : Conversion) : Piece := .directive ⟨false, [], c, no_digits_le, no_digits⟩

/-- The string that a memory with an end mark in it begins with. -/
def terminated (m : List U8) (_ : 0 ∈ m) : CString where
  text := m.takeWhile (· ≠ 0)
  tail := (m.dropWhile (· ≠ 0)).tail
  nonzero c hc := by simpa using List.mem_takeWhile_imp hc

theorem terminated_memory {m : List U8} (h : 0 ∈ m) : (terminated m h).memory = m := by
  show m.takeWhile (· ≠ 0) ++ 0 :: (m.dropWhile (· ≠ 0)).tail = m
  induction m with
  | nil => cases h
  | cons c m ih =>
    by_cases hc : c = 0
    · simp [hc]
    · rw [List.mem_cons] at h
      rw [List.takeWhile_cons_of_pos (by simpa using hc), List.dropWhile_cons_of_pos (by simpa using hc),
        List.cons_append, ih (h.resolve_left (Ne.symm hc))]

theorem mem_literal (s : String) : 0 ∈ literal s := by simp [literal]

/-- A literal as an argument. -/
def string (s : String) : CString := terminated (literal s) (mem_literal s)

@[simp] theorem string_memory (s : String) : (string s).memory = literal s :=
  terminated_memory (mem_literal s)

def say (category : CString) (ps : List Piece) : Call := .Log category ⟨ps, [], []⟩

theorem calls_cons_cons (fuel : Nat) (l : log) (c c' : Call) (cs : List Call) :
    l.calls fuel (c :: c' :: cs) = l.call fuel c >>= fun l => l.calls fuel (c' :: cs) := rfl

theorem calls_singleton (fuel : Nat) (l : log) (c : Call) : l.calls fuel [c] = l.call fuel c := by
  unfold calls
  cases l.call fuel c <;> rfl

/-! ## The texts -/

theorem text_append (ps qs : List Piece) : printf.text (ps ++ qs) = printf.text ps ++ printf.text qs :=
  List.flatMap_append

theorem text_cons (q : Piece) (qs : List Piece) : printf.text (q :: qs) = q.text ++ printf.text qs := rfl

theorem text_nil : printf.text [] = [] := rfl

theorem Plain.text_pieces (s : Plain) : printf.text s.pieces = s.text := by
  unfold pieces printf.text
  rw [List.flatMap_map]
  show s.text.attach.flatMap (fun c => [c.1]) = s.text
  rw [← List.map_eq_flatMap, List.attach_map_subtype_val]

theorem bare_width (c : Conversion) : Directive.width ⟨false, [], c, no_digits_le, no_digits⟩ = 0 := by
  unfold Directive.width
  split <;> rfl

theorem bare_text (c : Conversion) : (bare c).text = c.text := by
  simp [bare, Piece.text, Directive.text, Directive.withPadding, bare_width]

/-! ## The padding of the pieces -/

theorem Plain.fits (s : Plain) : ∀ q ∈ s.pieces, ¬ q.Overpads := by
  intro q hq
  rcases List.mem_map.mp hq with ⟨c, -, rfl⟩
  exact fun h => h

theorem bare_fits (c : Conversion) : ¬ (bare c).Overpads := by
  show ¬ printf.Overpads (Directive.width _) _
  rw [bare_width]
  exact fun h => h.1 rfl

theorem newline_fits : ¬ newline.Overpads := fun h => h

/-- The formatter prints each piece with its padding. -/
def Fit (ps : List Piece) : Prop := ∀ q ∈ ps, ¬ q.Overpads

@[simp] theorem fit_nil : Fit [] := fun q hq => by cases hq

@[simp] theorem fit_cons (q : Piece) (ps : List Piece) : Fit (q :: ps) ↔ ¬ q.Overpads ∧ Fit ps :=
  List.forall_mem_cons

@[simp] theorem fit_append (ps qs : List Piece) : Fit (ps ++ qs) ↔ Fit ps ∧ Fit qs :=
  List.forall_mem_append

@[simp] theorem Plain.fit (s : Plain) : Fit s.pieces := s.fits

theorem say_fits {category : CString} {ps : List Piece} (hcategory : category.text.length ≤ 8)
    (h : Fit ps) : (say category ps).Fits := by
  refine ⟨fun hpads => ?_, h⟩
  have hlt : 8 < category.text.length := hpads.2.1
  omega

/-- A number of 64 figures at most. -/
theorem numeral_fits {d : Directive} {base n : Nat} (hbase : 1 < base) (hn : n < 2 ^ 64)
    (htext : d.conversion.text = numeral base n) : ¬ (Piece.directive d).Overpads := by
  apply Piece.not_overpads_of_short
  have hlength := printf.numeral_length hbase hn
  show d.conversion.text.length < 2 ^ 31
  rw [htext]
  omega

/-! ## Texts without a newline -/

theorem onLine_flat {s : List U8} (h : ∀ c ∈ s, c ≠ 10) (left : Nat) : s.flatMap (onLine left) = s := by
  induction s with
  | nil => rfl
  | cons c s ih =>
    rw [List.flatMap_cons, ih fun c hc => h c (List.mem_cons_of_mem _ hc), onLine,
      if_neg (h c List.mem_cons_self)]
    rfl

theorem figure_ne_newline {d : Nat} (h : d < 16) : figure d ≠ 10 := by
  have hall : ∀ d < 16, figure d ≠ 10 := by decide
  exact hall d h

theorem numeral_ne_newline {base : Nat} (hbase : 1 < base) (hbase' : base ≤ 16) (n : Nat) :
    ∀ c ∈ numeral base n, c ≠ 10 := by
  intro c hc
  unfold numeral at hc
  split at hc
  · obtain rfl := List.mem_singleton.mp hc
    exact figure_ne_newline (by decide)
  · rcases List.mem_map.mp hc with ⟨d, hd, rfl⟩
    have hlt := Nat.digits_lt_base hbase (List.mem_reverse.mp hd)
    exact figure_ne_newline (by omega)

end lobo.log
