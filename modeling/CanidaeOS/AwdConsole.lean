-- The boot loader's console (`console.c`) beside the kernel's. The boot loader
-- takes the cursor back and then scrolls, the kernel scrolls and then takes it
-- back, and the boot loader's coordinates have no sign. Both show one page.
import CanidaeOS.VgaConsole
import CanidaeOS.Vprintf

open Program Machine Outcome

namespace awd

open lobo (Buffer VGAConsoleDevice)
open lobo.VGAConsoleDevice

/-! ## The code -/

/-- The console. `buffer` are the bytes at `buffer_addr`. -/
structure ConsoleData where
  x : U32
  y : U32
  color : U8
  width : U32
  height : U32
  buffer : Buffer

/-- `buffer_addr[pos]` -/
def buffer_load (buffer : Buffer) (pos : U32) : Outcome printf.Stop U8 :=
  if pos.toNat < buffer.size then ok (buffer.byte pos.toNat) else .stop .outside

/-- `buffer_addr[pos] = c;` -/
def buffer_store (buffer : Buffer) (pos : U32) (c : U8) : Outcome printf.Stop Buffer :=
  if pos.toNat < buffer.size then
    ok { buffer with byte := fun i => if i = pos.toNat then c else buffer.byte i }
  else .stop .outside

namespace ConsoleData

/-- `console_write_char`, which changes the buffer only. -/
def console_write_char (console : ConsoleData) (x y : U32) (c attr : U8) (buffer : Buffer) :
    Outcome printf.Stop Buffer := do
  let pos := ((y * console.width) + x) * 2
  let buffer ← buffer_store buffer pos c
  buffer_store buffer (pos + 1) attr

/-- One turn of the loop over `x` in the copy of the row below `line`. -/
def scrollTurn (console : ConsoleData) (line x : Nat) (buffer : Buffer) : Outcome printf.Stop Buffer := do
  let line : U32 := BitVec.ofNat 32 line
  let x : U32 := BitVec.ofNat 32 x
  let src := 2 * (((line + 1) * console.width) + x)
  let dest := 2 * ((line * console.width) + x)
  let c ← buffer_load buffer src
  let att ← buffer_load buffer (src + 1)
  let buffer ← buffer_store buffer dest c
  buffer_store buffer (dest + 1) att

/-- One turn of the loop that clears the last line. -/
def clearTurn (console : ConsoleData) (x : Nat) (buffer : Buffer) : Outcome printf.Stop Buffer :=
  console.console_write_char (BitVec.ofNat 32 x) (console.height - 1) 0x20 console.color buffer

def console_scroll (console : ConsoleData) : Outcome printf.Stop ConsoleData := do
  let buffer ← forRange (console.height - 1).toNat
    (fun line => forRange console.width.toNat (console.scrollTurn line)) console.buffer
  let buffer ← forRange console.width.toNat console.clearTurn buffer
  ok { console with buffer }

def console_newline (console : ConsoleData) : Outcome printf.Stop ConsoleData :=
  let console := { console with y := console.y + 1, x := 0 }
  if console.y ≥ console.height then
    console_scroll { console with y := console.height - 1 }
  else ok console

def console_print_char (console : ConsoleData) (c : U8) : Outcome printf.Stop ConsoleData :=
  if c = 10 then console.console_newline
  else do
    let buffer ← console.console_write_char console.x console.y c console.color console.buffer
    let console := { console with buffer, x := console.x + 1 }
    if console.x ≥ console.width then console.console_newline else ok console

def console_print_string (console : ConsoleData) (s : List U8) : Outcome printf.Stop ConsoleData :=
  awd.console_print_string (fun c console => console.console_print_char c) s console

/-! ## The characters on the screen -/

theorem pos_toNat {y x : U32} (hy : y.toNat < 25) (hx : x.toNat < 80) :
    (((y * 80) + x) * 2).toNat = 2 * (80 * y.toNat + x.toNat) := by
  have hrow : (y * 80).toNat = 80 * y.toNat := by
    rw [BitVec.toNat_mul]
    simp only [BitVec.reduceToNat]
    omega
  rw [BitVec.toNat_mul, BitVec.toNat_add, hrow]
  simp only [BitVec.reduceToNat]
  omega

section

variable {b : Buffer} (hsize : b.size = 4000) {pos : U32} {i j : Nat} (hi : i < 25) (hj : j < 80)
include hsize hi hj

theorem buffer_load.total (hpos : pos.toNat = 2 * (80 * i + j)) :
    buffer_load b pos = ok (cell b i j) := by
  rw [buffer_load, if_pos (by omega), hpos]
  rfl

theorem buffer_load_attribute.total (hpos : pos.toNat = 2 * (80 * i + j)) :
    ∃ a, buffer_load b (pos + 1) = ok a := by
  have hnext : (pos + 1).toNat = 2 * (80 * i + j) + 1 := by bv_omega
  exact ⟨_, if_pos (by omega)⟩

/-- A character and its attribute, stored at their place. -/
theorem buffer_store.spec (hpos : pos.toNat = 2 * (80 * i + j)) (c att : U8) : ∃ b₁ b₂,
    buffer_store b pos c = ok b₁ ∧ buffer_store b₁ (pos + 1) att = ok b₂ ∧ b₂.size = 4000 ∧
      ∀ k l, l < 80 → cell b₂ k l = if k = i ∧ l = j then c else cell b k l := by
  have hnext : (pos + 1).toNat = 2 * (80 * i + j) + 1 := by bv_omega
  refine ⟨_, _, if_pos (by omega), if_pos (by rw [hnext]; dsimp only; omega), hsize, ?_⟩
  intro k l hl
  have hplace : 2 * (80 * k + l) = 2 * (80 * i + j) ↔ k = i ∧ l = j := by omega
  have hodd : 2 * (80 * k + l) ≠ 2 * (80 * i + j) + 1 := by omega
  simp only [cell, hnext, hpos, hplace, if_neg hodd]

end

/-- The console has the size of the screen. -/
structure Sized (a : ConsoleData) : Prop where
  width : a.width = 80
  height : a.height = 25

theorem console_write_char.spec {a : ConsoleData} (ha : a.Sized) {b : Buffer} (hsize : b.size = 4000)
    {x y : U32} (hx : x.toNat < 80) (hy : y.toNat < 25) (c attr : U8) :
    ∃ b', a.console_write_char x y c attr b = ok b' ∧ b'.size = 4000 ∧
      ∀ k l, l < 80 → cell b' k l = if k = y.toNat ∧ l = x.toNat then c else cell b k l := by
  obtain ⟨b₁, b₂, h₁, h₂, hsize₂, hcells⟩ := buffer_store.spec hsize hy hx (pos_toNat hy hx) c attr
  refine ⟨b₂, ?_, hsize₂, hcells⟩
  simp only [console_write_char, ha.width, h₁, h₂, bind_ok]

/-! ## The scroll -/

theorem ofNat_toNat_small {n : Nat} (h : n < 80) : (BitVec.ofNat 32 n).toNat = n := by
  rw [BitVec.toNat_ofNat, Nat.mod_eq_of_lt (by omega)]

theorem scrollTurn.copies {a : ConsoleData} (ha : a.Sized) : Copies a.scrollTurn := by
  intro b i j hsize hi hj
  have hline := ofNat_toNat_small (show i < 80 by omega)
  have hx := ofNat_toNat_small hj
  have hbelow : (BitVec.ofNat 32 i + 1).toNat = i + 1 := by bv_omega
  have hdest := pos_toNat (show (BitVec.ofNat 32 i).toNat < 25 by omega) (show _ < 80 from hx ▸ hj)
  have hsrc := pos_toNat (show (BitVec.ofNat 32 i + 1).toNat < 25 by omega) (show _ < 80 from hx ▸ hj)
  rw [BitVec.mul_comm, hline, hx] at hdest
  rw [BitVec.mul_comm, hbelow, hx] at hsrc
  obtain ⟨att, hatt⟩ := buffer_load_attribute.total hsize (show i + 1 < 25 by omega) hj hsrc
  obtain ⟨b₁, b₂, h₁, h₂, hsize₂, hcells⟩ :=
    buffer_store.spec hsize (show i < 25 by omega) hj hdest (cell b (i + 1) j) att
  refine ⟨b₂, ?_, hsize₂, hcells⟩
  simp only [scrollTurn, ha.width, buffer_load.total hsize (show i + 1 < 25 by omega) hj hsrc, hatt,
    h₁, h₂, bind_ok]

theorem clearTurn.blanks {a : ConsoleData} (ha : a.Sized) : Blanks a.clearTurn := by
  intro b j hsize hj
  have hx := ofNat_toNat_small hj
  have hlast : (a.height - 1).toNat = 24 := by
    rw [ha.height]
    rfl
  obtain ⟨b', hrun, hsize', hcells⟩ :=
    console_write_char.spec ha hsize (show _ < 80 from hx ▸ hj) (show _ < 25 by rw [hlast]; decide)
      0x20 a.color
  rw [hx, hlast] at hcells
  exact ⟨b', hrun, hsize', hcells⟩

theorem console_scroll.spec {a : ConsoleData} (ha : a.Sized) (hsize : a.buffer.size = 4000) :
    ∃ b, a.console_scroll = ok { a with buffer := b } ∧ b.size = 4000 ∧
      ∀ k l, k < 25 → l < 80 → cell b k l = if k = 24 then 0x20 else cell a.buffer (k + 1) l := by
  obtain ⟨b₁, b₂, hcopy, hclear, hsize₂, hcells⟩ :=
    scrollRows.spec hsize (scrollTurn.copies ha) (clearTurn.blanks ha)
  have hrows : (a.height - 1).toNat = 24 := by
    rw [ha.height]
    rfl
  have hcols : a.width.toNat = 80 := by
    rw [ha.width]
    rfl
  refine ⟨b₂, ?_, hsize₂, hcells⟩
  simp only [console_scroll, hrows, hcols, hcopy, hclear, bind_ok]

/-! ## The page -/

/-- The kernel's device in the same state. -/
def device (a : ConsoleData) : VGAConsoleDevice := ⟨a.buffer, a.x.toNat, a.y.toNat, 0, a.color⟩

theorem console_newline.spec {a : ConsoleData} (ha : a.Sized) {p : Page} {top : Nat}
    (h : Shows { a.device with x := 0, y := a.device.y + 1 } p top) (hy : a.y.toNat < 25) :
    ∃ a', a.console_newline = ok a' ∧ a'.Sized ∧ Shows a'.device p (passed top p.row) ∧
      a'.y.toNat < 25 := by
  have hrow := h.row
  have hyrow : ((a.y.toNat : Int) + 1) = (p.row - top : Nat) := h.y
  have hnext : (a.y + 1).toNat = a.y.toNat + 1 := by bv_omega
  have hheight : a.height.toNat = 25 := by
    rw [ha.height]
    rfl
  have hzero : (((0 : U32).toNat : Nat) : Int) = 0 := rfl
  by_cases hpast : p.row = top + 25
  · have hbottom : a.y + 1 ≥ a.height := by
      rw [ge_iff_le, BitVec.le_def]
      omega
    have hlast : (a.height - 1).toNat = 24 := by
      rw [ha.height]
      rfl
    obtain ⟨b, hscroll, hsize, hcells⟩ := console_scroll.spec
      (a := { a with x := 0, y := a.height - 1 }) ⟨ha.width, ha.height⟩ h.size
    have hshows := h.scroll hpast hsize hcells
    refine ⟨{ a with x := 0, y := a.height - 1, buffer := b }, ?_, ⟨ha.width, ha.height⟩, ?_,
      by dsimp only; omega⟩
    · rw [console_newline, if_pos hbottom]
      exact hscroll
    · rw [passed, if_pos hpast]
      have hy24 : ((a.y.toNat : Int) + 1 - 1) = ((a.height - 1).toNat : Int) := by omega
      simpa only [device, hy24, hzero] using hshows
  · have hinside : ¬ a.y + 1 ≥ a.height := by
      rw [ge_iff_le, BitVec.le_def]
      omega
    refine ⟨{ a with y := a.y + 1, x := 0 }, ?_, ⟨ha.width, ha.height⟩, ?_, by dsimp only; omega⟩
    · rw [console_newline, if_neg hinside]
    · rw [passed, if_neg hpast]
      have hy' : (((a.y + 1).toNat : Nat) : Int) = (a.y.toNat : Int) + 1 := by omega
      simpa only [device, hy', hzero] using h

/-- The console shows a page with no left margin. -/
structure Console (a : ConsoleData) (p : Page) (top : Nat) : Prop where
  sized : a.Sized
  shows : Shows a.device p top
  y : a.y.toNat < 25

/-- A character that is not a backspace does to the page what it does in the
kernel's console. -/
theorem console_print_char.spec {a : ConsoleData} {p : Page} {top : Nat} (h : a.Console p top)
    {c : U8} (hback : c ≠ 8) : ∃ a', a.console_print_char c = ok a' ∧
      a'.Console (p.PrintChar c) (passed top (p.PrintChar c).row) := by
  obtain ⟨ha, hshows, hy⟩ := h
  have hrow := hshows.row
  have hcol := hshows.col
  have hleft : (0 : Int) = p.left := hshows.left
  have hx : (a.x.toNat : Int) = p.col := hshows.x
  have hyrow : (a.y.toNat : Int) = (p.row - top : Nat) := hshows.y
  have hdevice : a.device.y < 25 := by
    show (a.y.toNat : Int) < 25
    omega
  have hdown : p.row ≤ p.row + 1 ∧ p.row + 1 ≤ p.row + 1 := ⟨Nat.le_succ _, Nat.le_refl _⟩
  have hsame : p.row ≤ p.row ∧ p.row ≤ p.row + 1 := ⟨Nat.le_refl _, Nat.le_succ _⟩
  by_cases hnewline : c = 10
  · have hmoved := hshows.move hdevice hdown hshows.margin
    rw [← hleft, Nat.add_sub_cancel_left] at hmoved
    obtain ⟨a', hrun, ha', hshows', hy'⟩ := console_newline.spec ha hmoved hy
    refine ⟨a', ?_, ?_⟩
    · rw [console_print_char, if_pos hnewline]
      exact hrun
    · rw [Page.PrintChar, if_pos hnewline]
      exact ⟨ha', hshows', hy'⟩
  obtain ⟨b, hw, hsize, hcells⟩ := console_write_char.spec ha hshows.size
    (show a.x.toNat < 80 by omega) hy c a.color
  have hcell : ∀ k l, l < 80 →
      cell b k l = if k = p.row - top ∧ l = p.col then c else cell a.device.buffer k l := by
    intro k l hl
    rw [hcells k l hl, show a.y.toNat = p.row - top by omega, show a.x.toNat = p.col by omega]
  have hput := hshows.put_cell hdevice hsize hcell
  have hwidth : a.width.toNat = 80 := by
    rw [ha.width]
    rfl
  have hnext : (a.x + 1).toNat = a.x.toNat + 1 := by bv_omega
  have hcode : a.console_print_char c =
      if a.x + 1 ≥ a.width then console_newline { a with buffer := b, x := a.x + 1 }
      else ok { a with buffer := b, x := a.x + 1 } := by
    have hw : a.console_write_char a.x a.y c a.color a.buffer = ok b := hw
    simp only [console_print_char, if_neg hnewline, hw, bind_ok]
  rw [hcode, Page.PrintChar, if_neg hnewline, if_neg hback]
  by_cases hwrap : p.col + 1 = 80
  · have hpast : a.x + 1 ≥ a.width := by
      rw [ge_iff_le, BitVec.le_def]
      omega
    have hmoved := hput.move hdevice hdown hshows.margin
    have hone : p.row + 1 - (p.put p.col c).row = 1 := Nat.add_sub_cancel_left p.row 1
    rw [← hleft, hone] at hmoved
    obtain ⟨a', hrun, ha', hshows', hy'⟩ := console_newline.spec
      (a := { a with buffer := b, x := a.x + 1 }) ⟨ha.width, ha.height⟩ hmoved hy
    refine ⟨a', ?_, ?_⟩
    · rw [if_pos hpast]
      exact hrun
    · rw [if_pos hwrap]
      exact ⟨ha', hshows', hy'⟩
  · have hinside : ¬ a.x + 1 ≥ a.width := by
      rw [ge_iff_le, BitVec.le_def]
      omega
    have hmoved := hput.move hdevice hsame (show p.col + 1 < 80 by omega)
    refine ⟨{ a with buffer := b, x := a.x + 1 }, ?_, ?_⟩
    · rw [if_neg hinside]
    · have hpassed : passed top p.row = top := if_neg (by omega)
      have hx' : (((a.x + 1).toNat : Nat) : Int) = ((p.col + 1 : Nat) : Int) := by omega
      rw [if_neg hwrap]
      show Console _ _ (passed top p.row)
      rw [hpassed]
      refine ⟨⟨ha.width, ha.height⟩, ?_, hy⟩
      simpa only [device, hx', Page.put, Nat.sub_self, Nat.cast_zero, add_zero] using hmoved

/-! ## Strings -/

/-- The string is printed to its end. -/
theorem console_print_string.spec {a : ConsoleData} {p : Page} {top : Nat} (h : a.Console p top)
    {text : List U8} (hzero : ∀ c ∈ text, c ≠ 0) (hback : (8 : U8) ∉ text) (tail : List U8) :
    ∃ a', a.console_print_string (text ++ 0 :: tail) = ok a' ∧
      a'.Console (p.calls top (text.map .PrintChar)).1 (p.calls top (text.map .PrintChar)).2 := by
  induction text generalizing a p top with
  | nil => exact ⟨a, rfl, h⟩
  | cons c text ih =>
    have hc : c ≠ 0 := hzero c List.mem_cons_self
    rw [List.mem_cons, not_or] at hback
    obtain ⟨a₁, hrun, h₁⟩ := console_print_char.spec h (Ne.symm hback.1)
    obtain ⟨a', hrest, h'⟩ := ih h₁ (fun c hc => hzero c (List.mem_cons_of_mem _ hc)) hback.2
    refine ⟨a', ?_, h'⟩
    rw [List.cons_append, console_print_string, awd.console_print_string, printf.print_chars, if_pos hc,
      hrun, bind_ok]
    exact hrest

/-! ## The law -/

/-- The two consoles have the same characters and the same cursor. -/
structure Same (a : ConsoleData) (d : VGAConsoleDevice) : Prop where
  x : (a.x.toNat : Int) = d.x
  y : (a.y.toNat : Int) = d.y
  cells : ∀ i j, i < 25 → j < 80 → cell a.buffer i j = cell d.buffer i j

/-- Consoles of one page are the same. -/
theorem Console.same {a : ConsoleData} {d : VGAConsoleDevice} {p : Page} {top : Nat}
    (ha : a.Console p top) (hd : Shows d p top) : a.Same d := by
  refine ⟨?_, ?_, fun i j hi hj => ?_⟩
  · exact ha.shows.x.trans hd.x.symm
  · exact ha.shows.y.trans hd.y.symm
  · exact (ha.shows.cells i j hi hj).trans (hd.cells i j hi hj).symm

/-- A console that is the same as one on its screen shows the page of that. -/
theorem Same.console {a : ConsoleData} {d : VGAConsoleDevice} (h : a.Same d) (ha : a.Sized)
    (hsize : a.buffer.size = 4000) (hd : d.OnScreen) (hleft : d.leftColumn = 0) :
    a.Console d.firstPage 0 := by
  have hshows := hd.shows
  have hx := h.x
  have hy := h.y
  have hyd := hd.y
  refine ⟨ha, ?_, by omega⟩
  refine ⟨hsize, ?_, hshows.col, ?_, hshows.margin, hshows.row, ?_, ?_, hshows.blank⟩
  · exact hx.trans hshows.x
  · exact hleft.symm.trans hshows.left
  · exact hy.trans hshows.y
  · intro i j hi hj
    exact (h.cells i j hi hj).trans (hshows.cells i j hi hj)

/-- The two consoles on one screen of 80 by 25, with no left margin. -/
structure Twins (a : ConsoleData) (d : VGAConsoleDevice) : Prop where
  sized : a.Sized
  size : a.buffer.size = 4000
  onScreen : d.OnScreen
  leftColumn : d.leftColumn = 0
  same : a.Same d

/-- Both print the string, and are the same after it. -/
def Agree (a : ConsoleData) (d : VGAConsoleDevice) (text tail : List U8) : Prop :=
  ∃ a' d', a.console_print_string (text ++ 0 :: tail) = ok a' ∧
    d.calls (text.map .PrintChar) = ok d' ∧ a'.Same d'

/-- The two consoles agree on every string with no backspace. -/
theorem the_two_consoles_agree {a : ConsoleData} {d : VGAConsoleDevice} (h : Twins a d)
    {text : List U8} (hzero : ∀ c ∈ text, c ≠ 0) (hback : (8 : U8) ∉ text) (tail : List U8) :
    Agree a d text tail := by
  obtain ⟨a', hrun, ha'⟩ := console_print_string.spec
    (h.same.console h.sized h.size h.onScreen h.leftColumn) hzero hback tail
  have hcalls : ∀ c ∈ text.map Call.PrintChar, c.Fits := by
    intro c hc
    obtain ⟨c, -, rfl⟩ := List.mem_map.mp hc
    trivial
  obtain ⟨d', hrun', hd', -⟩ := calls.spec h.onScreen.shows h.onScreen.y.2 hcalls
  exact ⟨a', d', hrun, hrun', ha'.same hd'⟩

/-- An empty screen with the cursor in the last place. -/
def lastPlace : ConsoleData := ⟨79, 24, 0x0F, 80, 25, ⟨0xB8000, 4000, fun _ => 0x20⟩⟩

theorem lastPlace_twins : Twins lastPlace lobo.VGAConsoleDevice.lastPlace where
  sized := ⟨rfl, rfl⟩
  size := rfl
  onScreen := ⟨rfl, by decide, by decide, by decide⟩
  leftColumn := rfl
  same := ⟨rfl, rfl, fun _ _ _ _ => rfl⟩

/-- A character that wraps and scrolls, and a newline that scrolls. -/
theorem the_two_consoles_agree_in_the_last_place :
    Agree lastPlace lobo.VGAConsoleDevice.lastPlace [0x41, 10, 0x42] [] :=
  the_two_consoles_agree lastPlace_twins (by decide) (by decide) []

end ConsoleData

end awd
