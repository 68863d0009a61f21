-- The handler of exceptions (`fault_handler` in `interrupts.cpp`): from the stub
-- of an exception to the report on the serial line. The report has every
-- general register of the code that was interrupted, digit by digit.
import CanidaeOS.InterruptStubs
import CanidaeOS.LogText

open Program Machine Outcome Uart16550 X86

namespace lobo

open log
open printf (ascii figure numeral Arg CString Conversion Directive Piece isDigit)

/-! ## The code -/

def exception_strings : List String :=
  ["Divide By Zero", "Debug", "NMI", "Breakpoint", "Overflow", "Bound Range Exceeded",
   "Invalid Opcode", "Device Not Avalable", "Double Falt", "Coprocessor Segment Overrun",
   "Invalid TSS", "Segment Not Present", "Stack-Segment Fault", "General Protection Fault",
   "Page Fault", "Reserved", "x87 Floating-Point Exception", "Alignment Check", "Machine Check",
   "SIMD Floating-Point Exception", "Virtualization Exception", "Reserved", "Reserved", "Reserved",
   "Reserved", "Reserved", "Reserved", "Reserved", "Reserved", "Security Exception", "Reserved"]

/-- `exception_strings[int_no]` -/
def exceptionString (int_no : U64) : Outcome log.Stop (List U8) :=
  match exception_strings[int_no.toNat]? with
  | some s => ok (literal s)
  | none => .stop (.device .outside)

/-- `fault_handler`, where `cr2` is the register of that name. A `%d` takes the low
half of a word. The result tells that the processor halts, with interrupts off. -/
def fault_handler (fuel : Nat) (r : InterruptContext) (cr2 : U64) (l : log) :
    Outcome log.Stop (log × Bool) := do
  let l ← l.Log fuel (literal "int") (literal "Caught an interrupt! %d, error %p")
    [.int (r.int_no.setWidth 32), .long r.err_code]
  if r.int_no < 32 then
    let l ← l.LogRaw fuel (literal "%35sException\n") [.str (literal "")]
    let name ← exceptionString r.int_no
    let l ← l.Log fuel (literal "fault") (literal "%s (int %d), Error Code: 0x%08x")
      [.str name, .int (r.int_no.setWidth 32), .int (r.err_code.setWidth 32)]
    let l ← l.Log fuel (literal "fault") (literal "RBP:0x%016p RSP:0x%016p RIP:0x%016p")
      [.long r.rbp, .long r.userrsp, .long r.rip]
    let l ← l.Log fuel (literal "fault") (literal "RAX:0x%016p RBX:0x%016p RCX:0x%016p")
      [.long r.rax, .long r.rbx, .long r.rcx]
    let l ← l.Log fuel (literal "fault") (literal "RDX:0x%016p RDI:0x%016p RSI:0x%016p")
      [.long r.rdx, .long r.rdi, .long r.rsi]
    let l ← l.Log fuel (literal "fault") (literal " R8:0x%016p  R9:0x%016p R10:0x%016p")
      [.long r.r8, .long r.r9, .long r.r10]
    let l ← l.Log fuel (literal "fault") (literal "R11:0x%016p R12:0x%016p R13:0x%016p")
      [.long r.r11, .long r.r12, .long r.r13]
    let l ← l.Log fuel (literal "fault") (literal "R14:0x%016p R15:0x%016p") [.long r.r14, .long r.r15]
    (if r.int_no = 14 then
      l.Log fuel (literal "fault") (literal "Faulting address: 0x%016p\n") [.long cr2]
    else ok l) >>= fun l => ok (l, true)
  else ok (l, false)

namespace fault_handler

/-! ## Digits -/

/-- The `k` last digits of `n`. -/
def hexDigits : Nat → Nat → List U8
  | 0, _ => []
  | k + 1, n => hexDigits k (n / 16) ++ [figure (n % 16)]

theorem hexDigits_zero (k : Nat) : hexDigits k 0 = List.replicate k (ascii '0') := by
  induction k with
  | zero => rfl
  | succ k ih =>
    rw [hexDigits, Nat.zero_div, ih, List.replicate_succ']
    rfl

/-- A numeral with zeros in front of it. -/
theorem hex_padded (k : Nat) {n : Nat} (h : n < 16 ^ (k + 1)) :
    List.replicate (k + 1 - (numeral 16 n).length) (ascii '0') ++ numeral 16 n = hexDigits (k + 1) n := by
  induction k generalizing n with
  | zero =>
    have hlast : n / 16 = 0 := by omega
    rw [printf.numeral_last (by decide) hlast, hexDigits, hlast]
    rfl
  | succ k ih =>
    by_cases hmore : 0 < n / 16
    · have hlt : n / 16 < 16 ^ (k + 1) := by
        rw [Nat.pow_succ] at h
        omega
      rw [printf.numeral_more (by decide) hmore, hexDigits, ← ih hlt, List.length_append,
        ← List.append_assoc, List.length_singleton, Nat.add_sub_add_right]
    · have hlast : n / 16 = 0 := by omega
      rw [printf.numeral_last (by decide) hlast, hexDigits, hlast, hexDigits_zero]
      rfl

/-- The low half of a word has its 8 last digits. -/
theorem hexDigits_half (n : U64) : hexDigits 8 (n.setWidth 32).toNat = hexDigits 8 n.toNat := by
  have hlow : ∀ k m, hexDigits k (m % 16 ^ k) = hexDigits k m := by
    intro k
    induction k with
    | zero => exact fun _ => rfl
    | succ k ih =>
      intro m
      have hdiv : m % 16 ^ (k + 1) / 16 = m / 16 % 16 ^ k := by
        rw [Nat.pow_succ, Nat.mul_comm, Nat.mod_mul_right_div_self]
      have hmod : m % 16 ^ (k + 1) % 16 = m % 16 :=
        Nat.mod_mod_of_dvd _ (Dvd.intro_left (16 ^ k) rfl)
      rw [hexDigits, hexDigits, hdiv, hmod, ih]
  rw [BitVec.toNat_setWidth]
  exact hlow 8 n.toNat

theorem length_hexDigits (k n : Nat) : (hexDigits k n).length = k := by
  induction k generalizing n with
  | zero => rfl
  | succ k ih => simp [hexDigits, ih]

/-! ## Messages -/

/-- `%016p` -/
def word (n : U64) : Piece :=
  .directive ⟨false, [ascii '0', ascii '1', ascii '6'], .p n, by decide, by decide⟩

/-- `%08x` -/
def half (n : U32) : Piece :=
  .directive ⟨false, [ascii '0', ascii '8'], .x n, by decide, by decide⟩

/-- `%35s`, for the empty string. -/
def margin : Piece :=
  .directive ⟨false, [ascii '3', ascii '5'], .s ⟨[], [], by simp⟩, by decide, by decide⟩

/-- Names, each with a word behind it. -/
def named (line : List (Plain × U64)) : List Piece := line.flatMap fun x => x.1.pieces ++ [word x.2]

def int : CString := ⟨chars "int", [], by decide⟩

def fault : CString := ⟨chars "fault", [], by decide⟩

def caught : Plain := plain "Caught an interrupt! " (by decide +kernel)

def error : Plain := plain ", error " (by decide +kernel)

def exception : Plain := plain "Exception" (by decide +kernel)

def number : Plain := plain " (int " (by decide +kernel)

def errorCode : Plain := plain "), Error Code: 0x" (by decide +kernel)

def faultingAddress : Plain := plain "Faulting address: 0x" (by decide +kernel)

/-- The registers, in the lines of the report. -/
def registers (r : InterruptContext) : List (List (Plain × U64)) :=
  [[(plain "RBP:0x" (by decide +kernel), r.rbp),
    (plain " RSP:0x" (by decide +kernel), r.userrsp),
    (plain " RIP:0x" (by decide +kernel), r.rip)],
   [(plain "RAX:0x" (by decide +kernel), r.rax),
    (plain " RBX:0x" (by decide +kernel), r.rbx),
    (plain " RCX:0x" (by decide +kernel), r.rcx)],
   [(plain "RDX:0x" (by decide +kernel), r.rdx),
    (plain " RDI:0x" (by decide +kernel), r.rdi),
    (plain " RSI:0x" (by decide +kernel), r.rsi)],
   [(plain " R8:0x" (by decide +kernel), r.r8),
    (plain "  R9:0x" (by decide +kernel), r.r9),
    (plain " R10:0x" (by decide +kernel), r.r10)],
   [(plain "R11:0x" (by decide +kernel), r.r11),
    (plain " R12:0x" (by decide +kernel), r.r12),
    (plain " R13:0x" (by decide +kernel), r.r13)],
   [(plain "R14:0x" (by decide +kernel), r.r14),
    (plain " R15:0x" (by decide +kernel), r.r15)]]

/-- The first calls of the log, where the exception has a name. -/
def heading (r : InterruptContext) (name : Plain) : List log.Call :=
  [say int (caught.pieces ++ bare (.d (r.int_no.setWidth 32)) :: error.pieces ++ [bare (.p r.err_code)]),
   .LogRaw ⟨margin :: exception.pieces ++ [newline], [], []⟩,
   say fault (bare (.s ⟨name.text, [], name.nonzero⟩) :: number.pieces ++
      bare (.d (r.int_no.setWidth 32)) :: errorCode.pieces ++ [half (r.err_code.setWidth 32)])]

def calls (r : InterruptContext) (name : Plain) (cr2 : U64) : List log.Call :=
  heading r name ++ (registers r).map (fun line => say fault (named line)) ++
    if r.int_no = 14 then [say fault (named [(faultingAddress, cr2)] ++ [newline])] else []

theorem eq (fuel : Nat) {r : InterruptContext} {name : Plain}
    (hname : exceptionString r.int_no = ok (name.text ++ [0])) (hlt : r.int_no < 32) (cr2 : U64)
    (l : log) :
    fault_handler fuel r cr2 l = l.calls fuel (calls r name cr2) >>= fun l => ok (l, true) := by
  unfold fault_handler calls heading registers
  simp only [if_pos hlt, hname, bind_ok, List.map_cons, List.map_nil]
  by_cases hpage : r.int_no = 14
  · simp only [if_pos hpage, List.cons_append, List.nil_append, log.calls, bind_assoc, bind_ok]
    rfl
  · simp only [if_neg hpage, List.append_nil, List.cons_append, List.nil_append, log.calls, bind_assoc,
      bind_ok]
    rfl

/-! ## The texts -/

/-- A directive for zeros and the figures of a number. -/
theorem zeros_text (d : Directive) {k n : Nat} (hn : n < 16 ^ (k + 1))
    (htext : d.conversion.text = numeral 16 n) (hleft : d.left = false) (hzero : d.zeropad = true)
    (hwidth : d.width = k + 1) : d.text = hexDigits (k + 1) n := by
  have hdigits := hex_padded k hn
  have hlength := congrArg List.length hdigits
  rw [length_hexDigits, List.length_append, List.length_replicate] at hlength
  unfold Directive.text Directive.withPadding
  rw [hleft, hzero, htext, hwidth, Nat.max_eq_left (by omega)]
  exact hdigits

theorem word_text (n : U64) : (word n).text = hexDigits 16 n.toNat :=
  zeros_text _ n.isLt rfl rfl rfl rfl

theorem half_text (n : U32) : (half n).text = hexDigits 8 n.toNat :=
  zeros_text _ n.isLt rfl rfl rfl rfl

theorem margin_text : margin.text = List.replicate 35 (ascii ' ') := by decide

theorem named_text (line : List (Plain × U64)) :
    printf.text (named line) = line.flatMap fun x => x.1.text ++ hexDigits 16 x.2.toNat := by
  induction line with
  | nil => rfl
  | cons x line ih =>
    show printf.text (x.1.pieces ++ [word x.2] ++ named line) = _
    rw [text_append, text_append, ih, Plain.text_pieces, text_cons, word_text, text_nil, List.append_nil]
    rfl

/-! ## The padding of the pieces -/

theorem word_fits (n : U64) : ¬ (word n).Overpads := by
  apply Piece.not_overpads_of_short
  have hlength := printf.numeral_length (show 1 < 16 by decide) n.isLt
  show (numeral 16 n.toNat).length < 2 ^ 31
  omega

theorem half_fits (n : U32) : ¬ (half n).Overpads := by
  apply Piece.not_overpads_of_short
  have hlength := printf.numeral_length (n := n.toNat) (show 1 < 16 by decide) (by omega)
  show (numeral 16 n.toNat).length < 2 ^ 31
  omega

theorem named_fits (line : List (Plain × U64)) : ∀ q ∈ named line, ¬ q.Overpads := by
  intro q hq
  rcases List.mem_flatMap.mp hq with ⟨x, -, hq⟩
  rcases List.mem_append.mp hq with hq | hq
  · exact x.1.fits q hq
  · obtain rfl := List.mem_singleton.mp hq
    exact word_fits x.2

theorem margin_fits : ¬ margin.Overpads := Piece.not_overpads_of_short (by decide)

theorem calls_fit (r : InterruptContext) (name : Plain) (cr2 : U64) : ∀ c ∈ calls r name cr2, c.Fits := by
  have hint : ¬ printf.Overpads 8 int.text.length := by decide
  have hfault : ¬ printf.Overpads 8 fault.text.length := by decide
  have hheading : ∀ c ∈ heading r name, c.Fits := by
    simp only [heading, List.forall_mem_cons, say, log.Call.Fits, Message.Fits, List.cons_append,
      List.forall_mem_append, List.not_mem_nil, IsEmpty.forall_iff, implies_true, and_true]
    exact ⟨⟨hint, ⟨caught.fits, bare_fits _, error.fits⟩, bare_fits _⟩,
      ⟨margin_fits, exception.fits, newline_fits⟩,
      hfault, bare_fits _, ⟨number.fits, bare_fits _, errorCode.fits⟩, half_fits _⟩
  intro c hc
  rcases List.mem_append.mp hc with hc | hc
  · rcases List.mem_append.mp hc with hc | hc
    · exact hheading c hc
    · rcases List.mem_map.mp hc with ⟨line, -, rfl⟩
      exact ⟨hfault, named_fits line⟩
  · split at hc
    · obtain rfl := List.mem_singleton.mp hc
      refine ⟨hfault, fun q hq => ?_⟩
      rcases List.mem_append.mp hq with hq | hq
      · exact named_fits _ q hq
      · obtain rfl := List.mem_singleton.mp hq
        exact newline_fits
    · cases hc

/-! ## The bytes -/

theorem hexDigits_ne_newline (k n : Nat) : ∀ c ∈ hexDigits k n, c ≠ 10 := by
  induction k generalizing n with
  | zero => exact fun c hc => by cases hc
  | succ k ih =>
    intro c hc
    rcases List.mem_append.mp hc with hc | hc
    · exact ih _ c hc
    · obtain rfl := List.mem_singleton.mp hc
      exact figure_ne_newline (Nat.mod_lt n (by decide))

theorem named_ne_newline (line : List (Plain × U64)) :
    ∀ c ∈ line.flatMap fun x => x.1.text ++ hexDigits 16 x.2.toNat, c ≠ 10 := by
  intro c hc
  rcases List.mem_flatMap.mp hc with ⟨x, -, hc⟩
  rcases List.mem_append.mp hc with hc | hc
  · exact x.1.line c hc
  · exact hexDigits_ne_newline 16 _ c hc

theorem int_tag : (log.tag int).text = chars "     int | " := (log.tag_text int).trans (by decide)

theorem fault_tag : (log.tag fault).text = chars "   fault | " := (log.tag_text fault).trans (by decide)

/-- A call with a text of one line. -/
theorem fault_line {ps : List Piece} {text : List U8} (htext : printf.text ps = text)
    (hline : ∀ c ∈ text, c ≠ 10) : (say fault ps).line = chars "   fault | " ++ text ++ [10, 13] := by
  subst htext
  show (log.tag fault).text.flatMap (onLine 0) ++ (printf.text ps).flatMap (onLine 13) ++ _ = _
  rw [fault_tag, onLine_flat (by decide), onLine_flat hline]

/-- The report of an exception, as the serial line carries it. A page fault has one
more line, and an empty one behind it. -/
def report (r : InterruptContext) (name : List U8) (cr2 : U64) : List U8 :=
  chars "     int | Caught an interrupt! " ++ numeral 10 r.int_no.toNat ++ chars ", error " ++
    numeral 16 r.err_code.toNat ++ [10, 13] ++
  List.replicate 35 (ascii ' ') ++ chars "Exception" ++ [10, 13] ++
  (chars "   fault | " ++ (name ++ chars " (int " ++ numeral 10 r.int_no.toNat ++
    chars "), Error Code: 0x" ++ hexDigits 8 r.err_code.toNat) ++ [10, 13]) ++
  ((registers r).flatMap fun line => chars "   fault | " ++
    (line.flatMap fun x => x.1.text ++ hexDigits 16 x.2.toNat) ++ [10, 13]) ++
  if r.int_no = 14 then
    chars "   fault | Faulting address: 0x" ++ hexDigits 16 cr2.toNat ++ [10, 13] ++
      List.replicate 13 (ascii ' ') ++ [10, 13]
  else []

theorem setWidth_int_no {r : InterruptContext} (h : r.int_no < 32) :
    (r.int_no.setWidth 32).toNat = r.int_no.toNat := by
  have hlt : r.int_no.toNat < 32 := h
  rw [BitVec.toNat_setWidth]
  omega

theorem caught_text {r : InterruptContext} (h : r.int_no < 32) :
    printf.text (caught.pieces ++ bare (.d (r.int_no.setWidth 32)) :: error.pieces ++
      [bare (.p r.err_code)]) =
    caught.text ++ numeral 10 r.int_no.toNat ++ error.text ++ numeral 16 r.err_code.toNat := by
  simp only [text_append, text_cons, text_nil, Plain.text_pieces, bare_text, setWidth_int_no h,
    Conversion.text, List.append_nil, List.append_assoc]

theorem name_text {r : InterruptContext} (h : r.int_no < 32) (name : Plain) :
    printf.text (bare (.s ⟨name.text, [], name.nonzero⟩) :: number.pieces ++
      bare (.d (r.int_no.setWidth 32)) :: errorCode.pieces ++ [half (r.err_code.setWidth 32)]) =
    name.text ++ number.text ++ numeral 10 r.int_no.toNat ++ errorCode.text ++
      hexDigits 8 r.err_code.toNat := by
  simp only [text_append, text_cons, text_nil, Plain.text_pieces, bare_text, half_text, setWidth_int_no h,
    Conversion.text, hexDigits_half, List.append_nil, List.append_assoc]

theorem exception_line : (log.Call.LogRaw ⟨margin :: exception.pieces ++ [newline], [], []⟩).line =
    List.replicate 35 (ascii ' ') ++ chars "Exception" ++ [10, 13] := by
  show (printf.text (margin :: exception.pieces ++ [newline])).flatMap (onLine 0) = _
  rw [text_append, text_cons, margin_text, Plain.text_pieces]
  decide

theorem heading_bytes (left : Nat) {r : InterruptContext} (h : r.int_no < 32) (name : Plain)
    (as : List VGAConsoleDevice.Call) :
    wire left ((heading r name).flatMap log.Call.acts ++ as) =
      chars "     int | Caught an interrupt! " ++ numeral 10 r.int_no.toNat ++ chars ", error " ++
        numeral 16 r.err_code.toNat ++ [10, 13] ++
      List.replicate 35 (ascii ' ') ++ chars "Exception" ++ [10, 13] ++
      (chars "   fault | " ++ (name.text ++ chars " (int " ++ numeral 10 r.int_no.toNat ++
        chars "), Error Code: 0x" ++ hexDigits 8 r.err_code.toNat) ++ [10, 13]) ++ wire 0 as := by
  have hcaught : ∀ c ∈ caught.text ++ numeral 10 r.int_no.toNat ++ error.text ++
      numeral 16 r.err_code.toNat, c ≠ 10 := by
    simp only [List.forall_mem_append]
    exact ⟨⟨⟨caught.line, numeral_ne_newline (by decide) (by decide) _⟩, error.line⟩,
      numeral_ne_newline (by decide) (by decide) _⟩
  have hname : ∀ c ∈ name.text ++ number.text ++ numeral 10 r.int_no.toNat ++ errorCode.text ++
      hexDigits 8 r.err_code.toNat, c ≠ 10 := by
    simp only [List.forall_mem_append]
    exact ⟨⟨⟨⟨name.line, number.line⟩, numeral_ne_newline (by decide) (by decide) _⟩, errorCode.line⟩,
      hexDigits_ne_newline _ _⟩
  have hint : chars "     int | Caught an interrupt! " = chars "     int | " ++ caught.text := by decide
  have hfirst : ∀ as, wire left ((say int (caught.pieces ++ bare (.d (r.int_no.setWidth 32)) ::
      error.pieces ++ [bare (.p r.err_code)])).acts ++ as) = chars "     int | " ++ (caught.text ++
        numeral 10 r.int_no.toNat ++ error.text ++ numeral 16 r.err_code.toNat) ++ [10, 13] ++ wire 0 as := by
    intro as
    rw [say, log.wire_Log, int_tag, onLine_flat (by decide), log.Message.text, caught_text h,
      onLine_flat hcaught]
  unfold heading
  rw [List.flatMap_cons, List.flatMap_cons, List.flatMap_cons, List.flatMap_nil, List.append_nil,
    List.append_assoc (log.Call.acts _), List.append_assoc (log.Call.acts _), hfirst, log.wire_acts,
    log.wire_acts, exception_line, fault_line (name_text h name) hname, hint]
  simp only [List.append_assoc]
  rfl

theorem calls_bytes (left : Nat) {r : InterruptContext} (h : r.int_no < 32) (name : Plain) (cr2 : U64) :
    wire left ((calls r name cr2).flatMap log.Call.acts) = report r name.text cr2 := by
  have hpage : ((if r.int_no = 14 then
      [say fault (named [(faultingAddress, cr2)] ++ [newline])] else [] : List log.Call)).flatMap
      log.Call.line = if r.int_no = 14 then
        chars "   fault | Faulting address: 0x" ++ hexDigits 16 cr2.toNat ++ [10, 13] ++
          List.replicate 13 (ascii ' ') ++ [10, 13]
      else [] := by
    split
    · have hquiet := named_ne_newline [(faultingAddress, cr2)]
      have haddress : chars "   fault | Faulting address: 0x" =
        chars "   fault | " ++ faultingAddress.text := by decide
      rw [List.flatMap_singleton]
      show (log.tag fault).text.flatMap (onLine 0) ++ (printf.text _).flatMap (onLine 13) ++ _ = _
      rw [fault_tag, onLine_flat (by decide), text_append, named_text, List.flatMap_append,
        onLine_flat hquiet, haddress]
      simp [text_cons, text_nil, newline, Piece.text, onLine, ascii]
    · rfl
  have hregisters : ((registers r).map fun line => say fault (named line)).flatMap log.Call.line =
      (registers r).flatMap fun line => chars "   fault | " ++
        (line.flatMap fun x => x.1.text ++ hexDigits 16 x.2.toNat) ++ [10, 13] := by
    rw [List.flatMap_map]
    congr 1
    funext line
    exact fault_line (named_text line) (named_ne_newline line)
  unfold calls report
  rw [List.append_assoc, List.flatMap_append, heading_bytes left h, log.wire_calls, List.flatMap_append,
    hpage, hregisters, ← List.append_assoc]

/-! ## The law -/

theorem names_plain : exception_strings.all isPlain = true := by decide

theorem exceptionString_spec {v : Nat} (hv : v < 31) : ∃ name, exception_strings[v]? = some name ∧
    ∃ p : Plain, p.text = chars name ∧ exceptionString (BitVec.ofNat 64 v) = ok (p.text ++ [0]) := by
  obtain ⟨name, hlookup⟩ : ∃ name, exception_strings[v]? = some name :=
    ⟨_, List.getElem?_eq_getElem (show v < exception_strings.length from hv)⟩
  have hplain := List.all_eq_true.mp names_plain _ (List.mem_of_getElem? hlookup)
  have hindex : (BitVec.ofNat 64 v).toNat = v := by
    rw [BitVec.toNat_ofNat]
    omega
  refine ⟨name, hlookup, plain _ hplain, rfl, ?_⟩
  unfold exceptionString
  rw [hindex, hlookup]
  rfl

/-- Without a name, the handler gets as far as its table. -/
theorem unnamed {u : Uart} {fuel : Nat} {o : log.Output} {l : log} (h : l.Gave u fuel o)
    {r : InterruptContext} (hlt : r.int_no < 32) {e : log.Stop}
    (hname : exceptionString r.int_no = .stop e) (cr2 : U64) : fault_handler fuel r cr2 l = .stop e := by
  have hfits := calls_fit r ⟨[], by simp, by simp, by simp⟩ cr2
  rcases log.call.spec h (hfits _ (List.mem_cons_self)) with ⟨l₁, h₁, hgave⟩
  rcases log.call.spec hgave (hfits _ (List.mem_cons_of_mem _ List.mem_cons_self)) with ⟨l₂, h₂, -⟩
  unfold fault_handler
  rw [show l.Log fuel (literal "int") (literal "Caught an interrupt! %d, error %p")
    [.int (r.int_no.setWidth 32), .long r.err_code] = ok l₁ from h₁, bind_ok, if_pos hlt,
    show l₁.LogRaw fuel (literal "%35sException\n") [.str (literal "")] = ok l₂ from h₂, bind_ok, hname]
  rfl

/-- From every state that an exception interrupts, and between any two characters of
the log: the stub calls `fault_handler`, and the report goes out on the line, with
the general registers and the instruction of the state that was interrupted. Then the
processor halts. The exception is called what the table calls it: the table has one
"Reserved" too few, so #SX, which is 30, is called reserved, and 31 has no name at
all, and the handler looks for one behind the table. The stub of #VC, which is 29,
does not know of its error code. -/
theorem the_report_tells_what_was_interrupted (k : Core) {v : Nat} (hv : v < 32) (hvc : v ≠ 29)
    {a : Arrival} (ha : a.On v) (cs rip back cr2 : U64) {u : Uart} {fuel : Nat} {o : log.Output}
    {l : log} (h : l.Gave u fuel o) :
    ∃ k', Core.run back (stub v) (k.deliver cs rip a) = some (.called .fault_handler leave k') ∧
      (v < 31 → ∃ l' s name, exception_strings[v]? = some name ∧
        (v = 30 → name = "Reserved" ∧ exception_strings[29]? = some "Security Exception") ∧
        fault_handler fuel (InterruptContext.read k'.mem (k'.regs .rdi)) cr2 l = ok (l', true) ∧
        l'.m_serialOutDevice = some s ∧ s.uart.lost = u.lost ∧
        s.uart.sent = u.sent ++ (o.bytes ++
          report (interruptContext k v (a.err.getD 0)) (chars name) cr2).map (Frame.mk 3 0x03)) ∧
      (v = 31 → fault_handler fuel (InterruptContext.read k'.mem (k'.regs .rdi)) cr2 l =
        .stop (.device .outside)) := by
  rcases stub.delivered k (show v < 48 by omega) hvc ha cs rip back with ⟨k', hrun, hentered⟩
  have hread : InterruptContext.read k'.mem (k'.regs .rdi) =
      interruptContext (k.pushed a) v (a.err.getD 0) := by
    rw [hentered.rdi]
    exact hentered.framed.read
  have hhandler : handlerOf v = .fault_handler := if_pos hv
  have hint_no : (interruptContext (k.pushed a) v (a.err.getD 0)).int_no < 32 := by
    show (BitVec.ofNat 64 v).toNat < 32
    rw [BitVec.toNat_ofNat]
    omega
  rw [hhandler] at hrun
  refine ⟨k', hrun, fun hlt => ?_, fun hlast => ?_⟩
  · rcases exceptionString_spec hlt with ⟨name, hname, p, htext, hstring⟩
    rcases log.calls.spec h (calls_fit (interruptContext (k.pushed a) v (a.err.getD 0)) _ cr2) with
      ⟨l', hcalls, ⟨s, hs, hsent, -⟩, -⟩
    rw [log.Output.acts_eq] at hsent
    refine ⟨l', s, name, hname, ?_, ?_, hs, hsent.lost, ?_⟩
    · rintro rfl
      exact ⟨(Option.some.inj hname).symm, rfl⟩
    · rw [hread, eq fuel hstring hint_no, hcalls, bind_ok]
    · rw [hsent.sent, calls_bytes o.page.left hint_no, htext]
      rfl
  · subst hlast
    rw [hread]
    exact unnamed h hint_no rfl cr2

/-- A write to a page that is not there. -/
theorem the_report_tells_what_was_interrupted_of_a_page_fault :
    ∃ k' l' s, Core.run 0x200000 (stub 14) (faulting.deliver 0x08 0x300000 pageFault) =
        some (.called .fault_handler leave k') ∧
      fault_handler 4 (InterruptContext.read k'.mem (k'.regs .rdi)) 0x1000 log.booting = ok (l', true) ∧
      l'.m_serialOutDevice = some s ∧ s.uart.lost = log.slowLine.lost ∧
      s.uart.sent = log.slowLine.sent ++ (report (interruptContext faulting 14 2) (chars "Page Fault")
        0x1000).map (Frame.mk 3 0x03) := by
  have hvector : 14 < 32 := by decide
  obtain ⟨k', hrun, hreport, -⟩ := the_report_tells_what_was_interrupted faulting hvector (by decide)
    pageFault_on 0x08 0x300000 0x200000 0x1000
    (log.booting_boots.gave (by decide) fun _ => Nat.lt_succ_self 3)
  obtain ⟨l', s, name, hname, -, hcall, hs, hlost, hsent⟩ := hreport (by decide)
  cases hname
  exact ⟨k', l', s, hrun, hcall, hs, hlost, hsent⟩

end fault_handler
end lobo
