-- The log of the kernel (`log.cpp`), the serial device (`uart.cpp`) and the
-- helpers that the formatter prints with (`libc_helpers.cpp`). Every character
-- goes to the serial device and then to the screen.
import CanidaeOS.Uart16550
import CanidaeOS.VgaConsole
import CanidaeOS.VprintfPieces

open Program Machine Outcome Uart16550

namespace lobo

/-! ## The serial device -/

/-- The device, with the controller that it drives. -/
structure UARTLoggingDevice where
  deviceInit : Bool
  leftColumn : Int
  uart : Uart

namespace UARTLoggingDevice

def port : U16 := 0x3f8

/-- `outb`, where the ports of the controller begin with `port`. -/
def outb (p : U16) (value : U8) (d : UARTLoggingDevice) : UARTLoggingDevice :=
  { d with uart := d.uart.write (p - port) value }

/-- One turn of `while ((inb(port + 5) & 0x20) == 0) {}`. -/
def waitTurn (uart : Uart) : Outcome Stop (Turn Uart Uart) :=
  let (status, uart) := uart.lineStatus
  if status &&& 0x20 = 0 then ok (.next uart) else ok (.leave uart)

/-- The part of `PrintChar` under `if (!deviceInit)`. -/
def setUp (d : UARTLoggingDevice) : UARTLoggingDevice :=
  if d.deviceInit then d
  else
    let d := d.outb (port + 1) 0x00
    let d := d.outb (port + 3) 0x80
    let d := d.outb (port + 0) 0x03
    let d := d.outb (port + 1) 0x00
    let d := d.outb (port + 3) 0x03
    let d := d.outb (port + 2) 0xC7
    let d := d.outb (port + 4) 0x0B
    { d with deviceInit := true }

/-- `PrintChar`, up to `outb(port, c);`. -/
def send (fuel : Nat) (c : U8) (d : UARTLoggingDevice) : Outcome Stop UARTLoggingDevice := do
  let d := d.setUp
  let uart ← loop waitTurn fuel d.uart
  ok ({ d with uart }.outb port c)

/-- It calls itself for a newline only, with characters that are none. -/
def PrintChar (fuel : Nat) (c : U8) (d : UARTLoggingDevice) : Outcome Stop UARTLoggingDevice := do
  let d ← d.send fuel c
  if c = 10 then
    let d ← PrintChar fuel 13 d
    forRange d.leftColumn.toNat (fun _ d => PrintChar fuel 0x20 d) d
  else ok d
termination_by if c = 10 then 1 else 0
decreasing_by all_goals simp_all

def FormatSetLeftColumn (column : Int) (d : UARTLoggingDevice) : UARTLoggingDevice :=
  { d with leftColumn := column }

end UARTLoggingDevice

/-! ## The log -/

/-- How a call of the log ends early. -/
inductive log.Stop where
  /-- in the formatter -/
  | format (why : printf.Stop)
  /-- in a device -/
  | device (why : lobo.Stop)

/-- The log with its devices, and the static buffer of `itoa` for its formatter. -/
structure log where
  m_serialOutDevice : Option UARTLoggingDevice
  m_terminalOutDevice : Option VGAConsoleDevice
  m_fmtLeftColumn : Int
  statics : libk.Statics

namespace log

open printf (ascii Arg)

def WriteChar (fuel : Nat) (c : U8) (l : log) : Outcome log.Stop log := do
  let m_serialOutDevice ← match l.m_serialOutDevice with
    | some d => (d.PrintChar fuel c).lift .device >>= fun d => ok (some d)
    | none => ok none
  let m_terminalOutDevice ← match l.m_terminalOutDevice with
    | some d => (d.PrintChar c).lift .device >>= fun d => ok (some d)
    | none => ok none
  ok { l with m_serialOutDevice, m_terminalOutDevice }

/-- `vprintf_print_helper` for each character of a text. -/
def WriteChars (fuel : Nat) : List U8 → log → Outcome log.Stop log
  | [], l => ok l
  | c :: cs, l => l.WriteChar fuel c >>= fun l => l.WriteChars fuel cs

/-- `vprintf`, with the helpers that write to the log. -/
def vprintf (fuel : Nat) (fmt : List U8) (arg : List Arg) (l : log) : Outcome log.Stop log := do
  let s ← (printf.vprintf libk fmt arg l.statics).lift .format
  { l with statics := s.statics }.WriteChars fuel s.out

/-- The call leaves the old column, which nothing here looks at. -/
def FormatSetLeftColumn (column : Int) (l : log) : log :=
  { l with
    m_fmtLeftColumn := column
    m_terminalOutDevice := l.m_terminalOutDevice.map (VGAConsoleDevice.FormatSetLeftColumn column)
    m_serialOutDevice := l.m_serialOutDevice.map (UARTLoggingDevice.FormatSetLeftColumn column) }

def chars (s : String) : List U8 := s.toList.map ascii

/-- A string literal, with its end mark. -/
def literal (s : String) : List U8 := chars s ++ [0]

/-- `Log`, and `LogArg` with the arguments that it takes. -/
def Log (fuel : Nat) (category fmt : List U8) (arg : List Arg) (l : log) : Outcome log.Stop log := do
  let l ← l.vprintf fuel (literal "%8s | ") [.str category]
  let l := l.FormatSetLeftColumn 13
  let l ← l.vprintf fuel fmt arg
  let l := l.FormatSetLeftColumn 0
  l.WriteChar fuel 10

def LogRaw (fuel : Nat) (fmt : List U8) (arg : List Arg) (l : log) : Outcome log.Stop log :=
  l.vprintf fuel fmt arg

end log

/-! ## The specs of the serial device -/

/-- The bytes for a character. Behind a newline the line gets the margin. -/
def onLine (left : Nat) (c : U8) : List U8 :=
  if c = 10 then 10 :: 13 :: List.replicate left 0x20 else [c]

namespace UARTLoggingDevice

/-- The device has put `bytes` on the line that `u` drove before, all at 38400 baud
in frames of 8 bits. -/
structure Sent (u : Uart) (fuel : Nat) (bytes : List U8) (d : UARTLoggingDevice) : Prop where
  fresh : d.deviceInit = false → d.uart = u ∧ bytes = []
  runs : d.deviceInit = true → d.uart.Runs 3 0x03
  sent : d.uart.sent = u.sent ++ bytes.map (Frame.mk 3 0x03)
  lost : d.uart.lost = u.lost
  pace : ∀ n, d.uart.pace n < fuel
  busy : d.uart.busy < fuel

variable {u : Uart} {fuel : Nat} {bytes : List U8} {d : UARTLoggingDevice}

/-- The seven writes, whatever was set before. -/
theorem setUp_uart (hd : d.deviceInit = false) : ∃ ier, d.setUp.uart =
    { d.uart with ier, fcr := 0xC7, lcr := 0x03, mcr := 0x0B, divisor := 3 } := by
  rcases d.uart.write_second 0x00 with ⟨ier, divisor, hfirst⟩
  have hlatch : ({ d.uart with ier, divisor, lcr := 0x80 } : Uart).latch = true := by
    simp [Uart.latch]
  have hdivisor := Uart.write_divisor hlatch 0x03 0x00
  refine ⟨ier, ?_⟩
  unfold setUp
  rw [if_neg (by simp [hd])]
  show ((((({ d.uart.write 1 0x00 with lcr := 0x80 } : Uart).write 0 0x03).write 1 0x00).write 3 0x03).write
    2 0xC7).write 4 0x0B = _
  rw [hfirst, hdivisor]
  rfl

theorem setUp.spec (h : d.Sent u fuel bytes) :
    d.setUp.Sent u fuel bytes ∧ d.setUp.deviceInit = true ∧ d.setUp.leftColumn = d.leftColumn := by
  cases hd : d.deviceInit with
  | true =>
    have hsame : d.setUp = d := if_pos hd
    rw [hsame]
    exact ⟨h, hd, rfl⟩
  | false =>
    have hinit : d.setUp.deviceInit = true ∧ d.setUp.leftColumn = d.leftColumn := by
      simp [setUp, hd, outb]
    rcases setUp_uart hd with ⟨ier, huart⟩
    refine ⟨⟨fun hfalse => ?_, fun _ => ?_, ?_, ?_, ?_, ?_⟩, hinit⟩
    · rw [hinit.1] at hfalse
      cases hfalse
    all_goals rw [huart]
    · exact ⟨rfl, rfl, by simp [Uart.latch]⟩
    · exact h.sent
    · exact h.lost
    · exact h.pace
    · exact h.busy

/-- The loop waits for the transmitter. -/
theorem wait.spec {fuel : Nat} {u : Uart} (h : u.busy < fuel) :
    (loop waitTurn fuel u : Outcome Stop Uart) = ok { u with busy := 0 } := by
  induction fuel generalizing u with
  | zero => omega
  | succ fuel ih =>
    by_cases hbusy : u.busy = 0
    · rcases Uart.lineStatus_ready hbusy with ⟨hbit, hsame⟩
      have hturn : waitTurn u = ok (.leave u) := by
        simp only [waitTurn, if_neg hbit, hsame]
      rw [loop_leave hturn, ← hbusy]
    · rcases Uart.lineStatus_busy hbusy with ⟨hbit, hnext⟩
      have hturn : waitTurn u = ok (.next { u with busy := u.busy - 1 }) := by
        simp only [waitTurn, if_pos hbit, hnext]
      rw [loop_next hturn, ih (show u.busy - 1 < fuel by omega)]

theorem send.spec (h : d.Sent u fuel bytes) (c : U8) : ∃ d', d.send fuel c = ok d' ∧
    d'.Sent u fuel (bytes ++ [c]) ∧ d'.leftColumn = d.leftColumn := by
  rcases setUp.spec h with ⟨hset, hinit, hleft⟩
  unfold send
  generalize d.setUp = e at *
  have hruns := hset.runs hinit
  have hready : ({ e.uart with busy := 0 } : Uart).Runs 3 0x03 := hruns
  have hwrite := Uart.write_data hready rfl c
  refine ⟨{ e with uart := { e.uart with
    sent := e.uart.sent ++ [⟨3, 0x03, c⟩], busy := e.uart.pace e.uart.sent.length } }, ?_,
    ⟨fun hfresh => ?_, fun _ => hruns, ?_, hset.lost, hset.pace, hset.pace _⟩, hleft⟩
  · dsimp only
    rw [wait.spec hset.busy, bind_ok, outb, sub_self, hwrite]
  · exact Bool.noConfusion (hinit.symm.trans hfresh)
  · dsimp only
    rw [hset.sent, List.map_append, List.append_assoc]
    rfl

/-- A character that is no newline. -/
theorem PrintChar.plain (h : d.Sent u fuel bytes) {c : U8} (hc : c ≠ 10) :
    ∃ d', d.PrintChar fuel c = ok d' ∧ d'.Sent u fuel (bytes ++ [c]) ∧
      d'.leftColumn = d.leftColumn := by
  rcases send.spec h c with ⟨d', hsend, hd'⟩
  refine ⟨d', ?_, hd'⟩
  rw [PrintChar, hsend, bind_ok, if_neg hc]

theorem PrintChar.spec (h : d.Sent u fuel bytes) (c : U8) :
    ∃ d', d.PrintChar fuel c = ok d' ∧ d'.Sent u fuel (bytes ++ onLine d.leftColumn.toNat c) ∧
      d'.leftColumn = d.leftColumn := by
  unfold onLine
  split
  · rename_i hc
    subst hc
    rcases send.spec h 10 with ⟨d₁, hsend, hd₁, hleft₁⟩
    rcases PrintChar.plain hd₁ (show (13 : U8) ≠ 10 by decide) with ⟨d₂, hreturn, hd₂, hleft₂⟩
    have hmargin : ∃ d', forRange d.leftColumn.toNat (fun _ d => PrintChar fuel 0x20 d) d₂ = ok d' ∧
        d'.Sent u fuel (bytes ++ [10] ++ [13] ++ List.replicate d.leftColumn.toNat 0x20) ∧
        d'.leftColumn = d.leftColumn := by
      apply forRange_ok fun i (d' : UARTLoggingDevice) =>
        d'.Sent u fuel (bytes ++ [10] ++ [13] ++ List.replicate i 0x20) ∧ d'.leftColumn = d.leftColumn
      · rintro i s hi ⟨hs, hleft⟩
        rcases PrintChar.plain hs (show (0x20 : U8) ≠ 10 by decide) with ⟨s', hspace, hs', hleft'⟩
        refine ⟨s', hspace, ?_, hleft'.trans hleft⟩
        rw [List.replicate_succ', ← List.append_assoc]
        exact hs'
      · refine ⟨?_, hleft₂.trans hleft₁⟩
        simpa using hd₂
    rcases hmargin with ⟨d', hrun, hd', hleft⟩
    refine ⟨d', ?_, ?_, hleft⟩
    · rw [PrintChar, hsend, bind_ok, if_pos rfl, hreturn, bind_ok, hleft₂, hleft₁, hrun]
    · simpa using hd'
  · rename_i hc
    exact PrintChar.plain h hc

end UARTLoggingDevice

/-! ## What the devices get -/

theorem PrintChar_left (p : VGAConsoleDevice.Page) (c : U8) : (p.PrintChar c).left = p.left := by
  unfold VGAConsoleDevice.Page.PrintChar
  split_ifs <;> rfl

/-- The bytes of the calls that a device gets, from the left column `left` on. -/
def wire : Nat → List VGAConsoleDevice.Call → List U8
  | _, [] => []
  | left, .PrintChar c :: as => onLine left c ++ wire left as
  | _, .FormatSetLeftColumn column :: as => wire column.toNat as

namespace log

open printf (ascii Arg CString Conversion Directive Piece)
open VGAConsoleDevice (Page Shows passed)

/-- The bytes on the line, and the page that the screen shows from row `top` on. -/
structure Output where
  bytes : List U8
  page : Page
  top : Nat

def Output.act (o : Output) : VGAConsoleDevice.Call → Output
  | .PrintChar c => ⟨o.bytes ++ onLine o.page.left c, o.page.PrintChar c,
      passed o.top (o.page.PrintChar c).row⟩
  | .FormatSetLeftColumn column => ⟨o.bytes, { o.page with left := column.toNat },
      passed o.top o.page.row⟩

def Output.acts (o : Output) (as : List VGAConsoleDevice.Call) : Output := as.foldl Output.act o

theorem Output.acts_eq (o : Output) (as : List VGAConsoleDevice.Call) :
    o.acts as = ⟨o.bytes ++ wire o.page.left as, (o.page.calls o.top as).1,
      (o.page.calls o.top as).2⟩ := by
  induction as generalizing o with
  | nil => simp [acts, wire, Page.calls]
  | cons a as ih =>
    show (o.act a).acts as = _
    rw [ih]
    cases a with
    | PrintChar c => simp [act, wire, Page.calls, Page.call, PrintChar_left]
    | FormatSetLeftColumn column => simp [act, wire, Page.calls, Page.call]

/-- Both devices are there, with one left column, and gave the output `o`. -/
structure Gave (u : Uart) (fuel : Nat) (o : Output) (l : log) : Prop where
  serial : ∃ s, l.m_serialOutDevice = some s ∧ s.Sent u fuel o.bytes ∧ s.leftColumn = o.page.left
  terminal : ∃ d, l.m_terminalOutDevice = some d ∧ Shows d o.page o.top ∧ d.y < 25

/-! ## The specs of the log -/

/-- The calls of the devices for a text. -/
def put (s : List U8) : List VGAConsoleDevice.Call := s.map .PrintChar

variable {u : Uart} {fuel : Nat} {o : Output} {l : log}

theorem WriteChar.spec (h : l.Gave u fuel o) (c : U8) :
    ∃ l', l.WriteChar fuel c = ok l' ∧ l'.Gave u fuel (o.act (.PrintChar c)) := by
  rcases h with ⟨⟨s, hserial, hsent, hleft⟩, d, hterminal, hshows, hy⟩
  rcases UARTLoggingDevice.PrintChar.spec hsent c with ⟨s', hs, hsent', hleft'⟩
  rcases VGAConsoleDevice.PrintChar.spec hshows hy c with ⟨d', hd, hshows', hy'⟩
  have hpage := PrintChar_left o.page c
  refine ⟨{ l with m_serialOutDevice := some s', m_terminalOutDevice := some d' }, ?_,
    ⟨s', rfl, ?_, ?_⟩, d', rfl, hshows', hy'⟩
  · simp [WriteChar, hserial, hterminal, hs, hd]
  · rw [hleft, Int.toNat_natCast] at hsent'
    exact hsent'
  · exact (hleft'.trans hleft).trans (congrArg Nat.cast hpage.symm)

theorem WriteChars.spec (h : l.Gave u fuel o) (cs : List U8) :
    ∃ l', l.WriteChars fuel cs = ok l' ∧ l'.Gave u fuel (o.acts (put cs)) := by
  induction cs generalizing l o with
  | nil => exact ⟨l, rfl, h⟩
  | cons c cs ih =>
    rcases WriteChar.spec h c with ⟨l₁, hwrite, h₁⟩
    rcases ih h₁ with ⟨l', hrest, h'⟩
    refine ⟨l', ?_, h'⟩
    rw [WriteChars, hwrite, bind_ok, hrest]

theorem FormatSetLeftColumn.spec (h : l.Gave u fuel o) {column : Int} (hlow : 0 ≤ column)
    (hhigh : column < 80) :
    (l.FormatSetLeftColumn column).Gave u fuel (o.act (.FormatSetLeftColumn column)) := by
  rcases h with ⟨⟨s, hserial, hsent, -⟩, d, hterminal, hshows, hy⟩
  rcases VGAConsoleDevice.call.spec hshows hy (c := .FormatSetLeftColumn column) ⟨hlow, hhigh⟩ with
    ⟨d', hd, hshows', hy'⟩
  cases hd
  refine ⟨⟨s.FormatSetLeftColumn column, ?_, ?_, ?_⟩, d.FormatSetLeftColumn column, ?_, hshows', hy'⟩
  · simp [FormatSetLeftColumn, hserial]
  · exact ⟨hsent.fresh, hsent.runs, hsent.sent, hsent.lost, hsent.pace, hsent.busy⟩
  · exact (Int.toNat_of_nonneg hlow).symm
  · simp [FormatSetLeftColumn, hterminal]

/-- A format and its arguments, with what is behind them. -/
structure Message where
  pieces : List Piece
  rest : List U8
  more : List Arg

namespace Message

variable (m : Message)

def fmt : List U8 := printf.format m.pieces m.rest

def args : List Arg := printf.arguments m.pieces m.more

def text : List U8 := printf.text m.pieces

/-- The formatter counts the padding of each piece in an `int`. -/
def Fits : Prop := ∀ q ∈ m.pieces, ¬ q.Overpads

end Message

theorem vprintf.spec (h : l.Gave u fuel o) {m : Message} (hm : m.Fits) :
    ∃ l', l.vprintf fuel m.fmt m.args = ok l' ∧ l'.Gave u fuel (o.acts (put m.text)) := by
  have hprints := (printf.vprintf.spec printf.libk_lawful m.pieces m.rest m.more l.statics).mpr hm
  rcases hprints with ⟨s, hrun, hout⟩
  rcases WriteChars.spec (l := { l with statics := s.statics }) ⟨h.serial, h.terminal⟩ m.text with
    ⟨l', hwrite, hl'⟩
  refine ⟨l', ?_, hl'⟩
  unfold vprintf
  rw [show printf.vprintf libk m.fmt m.args l.statics = ok s from hrun, lift_ok, bind_ok, hout]
  exact hwrite

/-- `"%8s | "`, with the category as its argument. -/
def tag (category : CString) : Message where
  pieces := [.directive ⟨false, [ascii '8'], .s category, by decide, by simp [printf.isDigit, ascii]⟩,
    .literal (ascii ' ') (by decide) (by decide), .literal (ascii '|') (by decide) (by decide),
    .literal (ascii ' ') (by decide) (by decide)]
  rest := []
  more := []

theorem tag_width : printf.decimalFrom 0 [ascii '8'] = 8 := by decide

/-- A category of less than 8 characters stands at the right of its column. -/
theorem tag_text (category : CString) : (tag category).text =
    List.replicate (8 - category.text.length) (ascii ' ') ++ category.text ++
      [ascii ' ', ascii '|', ascii ' '] := by
  simp [Message.text, tag, printf.text, Piece.text, Directive.text, Directive.withPadding,
    Directive.width, Directive.zeropad, Conversion.padded, Conversion.hex, Conversion.text,
    printf.padCharacter, tag_width]
  omega

theorem tag_fits {category : CString} (h : ¬ printf.Overpads 8 category.text.length) :
    (tag category).Fits := by
  intro q hq
  simp only [tag, List.mem_cons, List.not_mem_nil, or_false] at hq
  rcases hq with rfl | rfl | rfl | rfl
  · show ¬ printf.Overpads (Directive.width _) _
    simpa [Directive.width, Conversion.padded, Conversion.text, tag_width] using h
  all_goals exact fun h => h

inductive Call where
  | Log (category : CString) (m : Message)
  | LogRaw (m : Message)
  | WriteChar (c : U8)

namespace Call

def Fits : Call → Prop
  | Log category m => ¬ printf.Overpads 8 category.text.length ∧ m.Fits
  | LogRaw m => m.Fits
  | WriteChar _ => True

/-- What each device gets for the call. -/
def acts : Call → List VGAConsoleDevice.Call
  | Log category m => put (tag category).text ++ .FormatSetLeftColumn 13 :: put m.text ++
      [.FormatSetLeftColumn 0, .PrintChar 10]
  | LogRaw m => put m.text
  | WriteChar c => [.PrintChar c]

end Call

def call (fuel : Nat) (l : log) : Call → Outcome log.Stop log
  | .Log category m => l.Log fuel category.memory m.fmt m.args
  | .LogRaw m => l.LogRaw fuel m.fmt m.args
  | .WriteChar c => l.WriteChar fuel c

def calls (fuel : Nat) (l : log) : List Call → Outcome log.Stop log
  | [] => ok l
  | c :: cs => l.call fuel c >>= fun l => l.calls fuel cs

theorem Log.spec (h : l.Gave u fuel o) {category : CString} {m : Message}
    (hc : (Call.Log category m).Fits) : ∃ l', l.Log fuel category.memory m.fmt m.args = ok l' ∧
      l'.Gave u fuel (o.acts (Call.Log category m).acts) := by
  rcases vprintf.spec h (tag_fits hc.1) with ⟨l₁, hrun₁, h₁⟩
  have h₂ := FormatSetLeftColumn.spec h₁ (show 0 ≤ 13 by decide) (by decide)
  rcases vprintf.spec h₂ hc.2 with ⟨l₃, hrun₃, h₃⟩
  have h₄ := FormatSetLeftColumn.spec h₃ (Int.le_refl 0) (by decide)
  rcases WriteChar.spec h₄ 10 with ⟨l₅, hrun₅, h₅⟩
  refine ⟨l₅, ?_, ?_⟩
  · unfold Log
    rw [show l.vprintf fuel (literal "%8s | ") [.str category.memory] = ok l₁ from hrun₁, bind_ok]
    dsimp only
    rw [hrun₃, bind_ok]
    exact hrun₅
  · simpa [Call.acts, Output.acts] using h₅

theorem call.spec (h : l.Gave u fuel o) {c : Call} (hc : c.Fits) :
    ∃ l', l.call fuel c = ok l' ∧ l'.Gave u fuel (o.acts c.acts) := by
  cases c with
  | Log category m => exact Log.spec h hc
  | LogRaw m => exact vprintf.spec h hc
  | WriteChar c => exact WriteChar.spec h c

theorem calls.spec (h : l.Gave u fuel o) {cs : List Call} (hcs : ∀ c ∈ cs, c.Fits) :
    ∃ l', l.calls fuel cs = ok l' ∧ l'.Gave u fuel (o.acts (cs.flatMap Call.acts)) := by
  induction cs generalizing l o with
  | nil => exact ⟨l, rfl, h⟩
  | cons c cs ih =>
    rcases call.spec h (hcs c List.mem_cons_self) with ⟨l₁, hcall, h₁⟩
    rcases ih h₁ fun c hc => hcs c (List.mem_cons_of_mem _ hc) with ⟨l', hcalls, h'⟩
    refine ⟨l', ?_, ?_⟩
    · rw [calls, hcall, bind_ok, hcalls]
    · rw [List.flatMap_cons]
      simpa [Output.acts] using h'

/-! ## The line -/

theorem wire_put (left : Nat) (s : List U8) (as : List VGAConsoleDevice.Call) :
    wire left (put s ++ as) = s.flatMap (onLine left) ++ wire left as := by
  induction s with
  | nil => rfl
  | cons c s ih =>
    show onLine left c ++ wire left (put s ++ as) = _
    rw [ih, List.flatMap_cons, List.append_assoc]

/-- The bytes for a call. The text of `Log` has a margin of 13 columns. -/
def Call.line : Call → List U8
  | .Log category m => (tag category).text.flatMap (onLine 0) ++ m.text.flatMap (onLine 13) ++ [10, 13]
  | .LogRaw m => m.text.flatMap (onLine 0)
  | .WriteChar c => onLine 0 c

theorem wire_Log (left : Nat) (category : CString) (m : Message) (as : List VGAConsoleDevice.Call) :
    wire left ((Call.Log category m).acts ++ as) =
      (tag category).text.flatMap (onLine left) ++ m.text.flatMap (onLine 13) ++ [10, 13] ++ wire 0 as := by
  show wire left (put (tag category).text ++ _ ++ _ ++ as) = _
  rw [List.append_assoc, List.append_assoc, wire_put]
  show _ ++ wire 13 (put m.text ++ _) = _
  rw [wire_put]
  simp [wire, onLine]

theorem wire_LogRaw (left : Nat) (m : Message) (as : List VGAConsoleDevice.Call) :
    wire left ((Call.LogRaw m).acts ++ as) = m.text.flatMap (onLine left) ++ wire left as :=
  wire_put left m.text as

/-- A call leaves the left column that it found. -/
theorem wire_acts (c : Call) (as : List VGAConsoleDevice.Call) :
    wire 0 (c.acts ++ as) = c.line ++ wire 0 as := by
  cases c with
  | Log category m => exact wire_Log 0 category m as
  | LogRaw m => exact wire_LogRaw 0 m as
  | WriteChar c => rfl

theorem wire_calls (cs : List Call) : wire 0 (cs.flatMap Call.acts) = cs.flatMap Call.line := by
  induction cs with
  | nil => rfl
  | cons c cs ih => rw [List.flatMap_cons, wire_acts, ih, List.flatMap_cons]

/-! ## The laws -/

/-- The log at boot: the serial device is not set up, and the controller is as
the firmware left it. -/
structure Boots (l : log) (u : Uart) (d : VGAConsoleDevice) : Prop where
  serial : l.m_serialOutDevice = some ⟨false, 0, u⟩
  terminal : l.m_terminalOutDevice = some d
  onScreen : d.OnScreen
  left : d.leftColumn = 0

theorem Boots.gave {d : VGAConsoleDevice} (h : l.Boots u d) (hbusy : u.busy < fuel)
    (hpace : ∀ n, u.pace n < fuel) : l.Gave u fuel ⟨[], d.firstPage, 0⟩ := by
  refine ⟨⟨_, h.serial, ⟨fun _ => ⟨rfl, rfl⟩, fun hinit => Bool.noConfusion hinit, by simp, rfl, hpace,
    hbusy⟩, ?_⟩, d, h.terminal, h.onScreen.shows, h.onScreen.y.2⟩
  simp [VGAConsoleDevice.firstPage, h.left]

/-- What the devices have after all calls. -/
theorem Boots.calls {d : VGAConsoleDevice} (h : l.Boots u d) (hbusy : u.busy < fuel)
    (hpace : ∀ n, u.pace n < fuel) {cs : List Call} (hcs : ∀ c ∈ cs, c.Fits) :
    ∃ l' s d', l.calls fuel cs = ok l' ∧ l'.m_serialOutDevice = some s ∧
      l'.m_terminalOutDevice = some d' ∧ s.Sent u fuel (cs.flatMap Call.line) ∧
      Shows d' (d.firstPage.calls 0 (cs.flatMap Call.acts)).1
        (d.firstPage.calls 0 (cs.flatMap Call.acts)).2 ∧ d'.y < 25 := by
  have hleft : d.firstPage.left = 0 := by simp [VGAConsoleDevice.firstPage, h.left]
  rcases calls.spec (h.gave hbusy hpace) hcs with ⟨l', hrun, ⟨s, hs, hsent, -⟩, d', hd', hshows, hy⟩
  rw [Output.acts_eq] at hsent hshows
  dsimp only at hsent hshows
  rw [hleft, wire_calls, List.nil_append] at hsent
  exact ⟨l', s, d', hrun, hs, hd', hsent, hshows, hy⟩

/-- Over every sequence of calls, whatever the firmware set at the controller
and however slow the line is: each call returns, every byte goes out at 38400
baud in frames of 8 bits, in order, none comes while the transmitter is at work,
and the screen shows the last rows of the page of the same characters. -/
theorem no_byte_is_lost {d : VGAConsoleDevice} (h : l.Boots u d) (hbusy : u.busy < fuel)
    (hpace : ∀ n, u.pace n < fuel) {cs : List Call} (hcs : ∀ c ∈ cs, c.Fits) :
    ∃ l' s d' p top, l.calls fuel cs = ok l' ∧ l'.m_serialOutDevice = some s ∧
      l'.m_terminalOutDevice = some d' ∧
      s.uart.sent = u.sent ++ (cs.flatMap Call.line).map (Frame.mk 3 0x03) ∧ s.uart.lost = u.lost ∧
      (p, top) = d.firstPage.calls 0 (cs.flatMap Call.acts) ∧
      ∀ i j, i < 25 → j < 80 → VGAConsoleDevice.cell d'.buffer i j = p.cell (top + i) j := by
  rcases h.calls hbusy hpace hcs with ⟨l', s, d', hrun, hs, hd', hsent, hshows, -⟩
  exact ⟨l', s, d', _, _, hrun, hs, hd', hsent.sent, hsent.lost, rfl, hshows.cells⟩

/-- A line that the firmware left at work on a byte, at another rate. -/
def slowLine : Uart := ⟨1, 0, 0x83, 0, 12, 0x40, 2, fun _ => 3, [⟨12, 0x03, 0x2E⟩], []⟩

/-- A blank screen with the cursor in its third row. -/
def blankScreen : VGAConsoleDevice := ⟨⟨0xB8000, 4000, fun _ => 0x20⟩, 0, 3, 0, 0x0F⟩

def booting : log := ⟨some ⟨false, 0, slowLine⟩, some blankScreen, 0, printf.zeroBuffer⟩

theorem booting_boots : booting.Boots slowLine blankScreen :=
  ⟨rfl, rfl, ⟨rfl, by decide, by decide, by decide⟩, rfl⟩

theorem no_digits_le : ([] : List U8).length ≤ 7 := Nat.zero_le 7

theorem no_digits : ∀ c ∈ ([] : List U8), printf.isDigit c = true := by simp

/-- `Log("int", "ok\n%%")` -/
def twoLines : Call :=
  .Log ⟨[0x69, 0x6E, 0x74], [], by decide⟩ ⟨[.literal 0x6F (by decide) (by decide),
    .literal 0x6B (by decide) (by decide), .literal 10 (by decide) (by decide),
    .directive ⟨false, [], .percent, no_digits_le, no_digits⟩], [], []⟩

theorem twoLines_fits : ∀ c ∈ [twoLines], c.Fits := by
  intro c hc
  obtain rfl := List.mem_singleton.mp hc
  refine ⟨by decide, fun q hq => ?_⟩
  simp only [List.mem_cons, List.not_mem_nil, or_false] at hq
  rcases hq with rfl | rfl | rfl | rfl
  all_goals simp [Piece.Overpads, printf.Overpads, Directive.width, Conversion.padded]

theorem no_byte_is_lost_of_two_lines : ∃ l' s d' p top, booting.calls 4 [twoLines] = ok l' ∧
    l'.m_serialOutDevice = some s ∧ l'.m_terminalOutDevice = some d' ∧
    s.uart.sent = slowLine.sent ++ ([twoLines].flatMap Call.line).map (Frame.mk 3 0x03) ∧
    s.uart.lost = slowLine.lost ∧
    (p, top) = blankScreen.firstPage.calls 0 ([twoLines].flatMap Call.acts) ∧
    ∀ i j, i < 25 → j < 80 → VGAConsoleDevice.cell d'.buffer i j = p.cell (top + i) j :=
  no_byte_is_lost booting_boots (by decide) (fun _ => Nat.lt_succ_self 3) twoLines_fits

/-- A terminal at the other end, its page without a last row. -/
structure Terminal where
  cell : Nat → Nat → U8
  row : Nat
  col : Nat

def Terminal.receive (t : Terminal) (c : U8) : Terminal :=
  if c = 10 then { t with row := t.row + 1 }
  else if c = 13 then { t with col := 0 }
  else { t with
    cell := fun i j => if i = t.row ∧ j = t.col then c else t.cell i j
    col := t.col + 1 }

def Terminal.receives (t : Terminal) (bytes : List U8) : Terminal := bytes.foldl Terminal.receive t

/-- The characters are plain ones, and each line ends before the last column. -/
def InLines : (left col : Nat) → List VGAConsoleDevice.Call → Prop
  | _, _, [] => True
  | left, col, .PrintChar c :: as =>
    if c = 10 then InLines left left as
    else 0x20 ≤ c.toNat ∧ c.toNat < 0x7F ∧ col + 1 < 80 ∧ InLines left (col + 1) as
  | _, col, .FormatSetLeftColumn column :: as => InLines column.toNat col as

def decideInLines : (left col : Nat) → (as : List VGAConsoleDevice.Call) → Decidable (InLines left col as)
  | _, _, [] => isTrue trivial
  | left, col, .PrintChar c :: as =>
    have := decideInLines left left as
    have := decideInLines left (col + 1) as
    inferInstanceAs (Decidable (if c = 10 then InLines left left as
      else 0x20 ≤ c.toNat ∧ c.toNat < 0x7F ∧ col + 1 < 80 ∧ InLines left (col + 1) as))
  | _, col, .FormatSetLeftColumn column :: as => decideInLines column.toNat col as

instance (left col : Nat) (as : List VGAConsoleDevice.Call) : Decidable (InLines left col as) :=
  decideInLines left col as

/-- The terminal has the page, which is blank below the cursor. -/
structure Copies (p : Page) (t : Terminal) : Prop where
  cell : t.cell = p.cell
  row : t.row = p.row
  col : t.col = p.col
  blank : ∀ i j, p.row < i → p.cell i j = 0x20

/-- Spaces on a row that is blank. -/
theorem receives_margin {t : Terminal} (n : Nat) (h : ∀ j, t.cell t.row j = 0x20) :
    t.receives (List.replicate n 0x20) = { t with col := t.col + n } := by
  induction n generalizing t with
  | zero => rfl
  | succ n ih =>
    have hspace : t.receive 0x20 = { t with col := t.col + 1 } := by
      have hcell : (fun i j => if i = t.row ∧ j = t.col then (0x20 : U8) else t.cell i j) = t.cell := by
        funext i j
        split
        · rename_i hij
          rw [hij.1, h]
        · rfl
      rw [Terminal.receive, if_neg (by decide), if_neg (by decide), hcell]
    show (t.receive 0x20).receives (List.replicate n 0x20) = _
    rw [hspace, ih (t := { t with col := t.col + 1 }) h]
    simp only [Terminal.mk.injEq, true_and]
    omega

theorem Copies.newline {p : Page} {t : Terminal} (h : Copies p t) :
    Copies (p.PrintChar 10) (t.receives (onLine p.left 10)) := by
  rcases h with ⟨hcell, hrow, -, hblank⟩
  have hmargin : t.receives (onLine p.left 10) = { t with row := t.row + 1, col := p.left } := by
    show Terminal.receives { t with row := t.row + 1, col := 0 } (List.replicate p.left 0x20) = _
    rw [receives_margin]
    · simp
    · intro j
      show t.cell (t.row + 1) j = 0x20
      rw [hcell, hrow, hblank _ _ (Nat.lt_succ_self _)]
  rw [hmargin]
  exact ⟨hcell, congrArg Nat.succ hrow, rfl, fun i j hi => hblank i j (Nat.lt_of_succ_lt hi)⟩

theorem Copies.plain {p : Page} {t : Terminal} (h : Copies p t) {c : U8} (hlow : 0x20 ≤ c.toNat)
    (hcol : p.col + 1 < 80) :
    Copies (p.PrintChar c) (t.receives (onLine p.left c)) ∧ (p.PrintChar c).col = p.col + 1 := by
  rcases h with ⟨hcell, hrow, hcolumn, hblank⟩
  have hc : c ≠ 10 ∧ c ≠ 8 ∧ c ≠ 13 := by
    refine ⟨?_, ?_, ?_⟩ <;> (rintro rfl; revert hlow; decide)
  have hpage : p.PrintChar c = { p.put p.col c with col := p.col + 1 } := by
    rw [Page.PrintChar, if_neg hc.1, if_neg hc.2.1, if_neg (by omega)]
  have hline : t.receives (onLine p.left c) = t.receive c := by
    rw [onLine, if_neg hc.1]
    rfl
  rw [hpage, hline, Terminal.receive, if_neg hc.1, if_neg hc.2.2]
  refine ⟨⟨?_, hrow, ?_, fun i j hi => ?_⟩, rfl⟩
  · simp [Page.put, hcell, hrow, hcolumn]
  · exact congrArg Nat.succ hcolumn
  · show (if i = p.row ∧ j = p.col then c else p.cell i j) = 0x20
    have hi' : p.row < i := hi
    rw [if_neg (by omega), hblank i j hi']

/-- After the same calls, the terminal has what the screen has. -/
theorem Copies.calls {p : Page} {t : Terminal} (h : Copies p t) {as : List VGAConsoleDevice.Call}
    (has : InLines p.left p.col as) (top : Nat) :
    Copies (p.calls top as).1 (t.receives (wire p.left as)) := by
  induction as generalizing p t top with
  | nil => exact h
  | cons a as ih =>
    cases a with
    | FormatSetLeftColumn column =>
      exact ih (p := { p with left := column.toNat }) ⟨h.cell, h.row, h.col, h.blank⟩ has _
    | PrintChar c =>
      have hleft := PrintChar_left p c
      have hbytes : t.receives (wire p.left (.PrintChar c :: as)) =
          (t.receives (onLine p.left c)).receives (wire (p.PrintChar c).left as) := by
        rw [hleft]
        exact List.foldl_append
      rw [hbytes]
      by_cases hc : c = 10
      · subst hc
        exact ih h.newline has _
      · unfold InLines at has
        rw [if_neg hc] at has
        rcases has with ⟨hlow, -, hcol, hrest⟩
        rcases h.plain hlow hcol with ⟨hnext, hnextcol⟩
        refine ih hnext ?_ _
        rw [hleft, hnextcol]
        exact hrest

/-- Where every line of the log ends before the last column, and no character is
a control character but the newline: a terminal on the line that had what the
screen shows has it after all calls too, with the cursor in the same place. -/
theorem the_terminal_shows_what_the_screen_shows {d : VGAConsoleDevice} (h : l.Boots u d)
    (hbusy : u.busy < fuel) (hpace : ∀ n, u.pace n < fuel) {cs : List Call} (hcs : ∀ c ∈ cs, c.Fits)
    (hlines : InLines 0 d.x.toNat (cs.flatMap Call.acts))
    (hblank : ∀ i j : Nat, d.y < i → i < 25 → VGAConsoleDevice.cell d.buffer i j = 0x20) :
    ∃ l' s d' bytes t top, l.calls fuel cs = ok l' ∧ l'.m_serialOutDevice = some s ∧
      l'.m_terminalOutDevice = some d' ∧ s.uart.sent = u.sent ++ bytes.map (Frame.mk 3 0x03) ∧
      t = Terminal.receives ⟨d.firstPage.cell, d.y.toNat, d.x.toNat⟩ bytes ∧
      (∀ i j, i < 25 → j < 80 → VGAConsoleDevice.cell d'.buffer i j = t.cell (top + i) j) ∧
      d'.x = t.col ∧ d'.y = (t.row - top : Nat) := by
  rcases h.calls hbusy hpace hcs with ⟨l', s, d', hrun, hs, hd', hsent, hshows, -⟩
  have hy := h.onScreen.y
  have hleft : d.firstPage.left = 0 := by simp [VGAConsoleDevice.firstPage, h.left]
  have hfirst : Copies d.firstPage ⟨d.firstPage.cell, d.y.toNat, d.x.toNat⟩ := by
    refine ⟨rfl, rfl, rfl, fun i j hi => ?_⟩
    have hi' : d.y.toNat < i := hi
    show (if i < 25 then _ else 0x20) = _
    split
    · rename_i hlt
      exact hblank i j (by omega) hlt
    · rfl
  rw [← hleft] at hlines
  have hlast := hfirst.calls hlines 0
  rw [hleft, wire_calls] at hlast
  refine ⟨l', s, d', _, _, (d.firstPage.calls 0 (cs.flatMap Call.acts)).2, hrun, hs, hd', hsent.sent,
    rfl, ?_, ?_, ?_⟩
  · rw [hlast.cell]
    exact hshows.cells
  · rw [hlast.col]
    exact hshows.x
  · rw [hlast.row]
    exact hshows.y

theorem the_terminal_shows_what_the_screen_shows_of_two_lines :
    ∃ l' s d' bytes t top, booting.calls 4 [twoLines] = ok l' ∧ l'.m_serialOutDevice = some s ∧
      l'.m_terminalOutDevice = some d' ∧
      s.uart.sent = slowLine.sent ++ bytes.map (Frame.mk 3 0x03) ∧
      t = Terminal.receives ⟨blankScreen.firstPage.cell, blankScreen.y.toNat, blankScreen.x.toNat⟩
        bytes ∧
      (∀ i j, i < 25 → j < 80 → VGAConsoleDevice.cell d'.buffer i j = t.cell (top + i) j) ∧
      d'.x = t.col ∧ d'.y = (t.row - top : Nat) :=
  the_terminal_shows_what_the_screen_shows booting_boots (by decide) (fun _ => Nat.lt_succ_self 3) twoLines_fits
    (by decide) fun _ _ _ _ => rfl

end log
end lobo
