-- The text console (`vga_console.cpp`). The device writes into a screen of 25
-- rows in place, and scrolls it by a copy of each row to the one above. What it
-- shows are the last rows of a page that only grows.
import CanidaeOS.Kernel

open Program Machine Outcome

namespace lobo

/-- The device. `buffer` is the text buffer at `bufferAddr`: two bytes for each
place, the character and its attribute. -/
structure VGAConsoleDevice where
  buffer : Buffer
  x : Int
  y : Int
  leftColumn : Int
  attr : U8

namespace VGAConsoleDevice

/-! ## The code -/

def width : Int := 80

def height : Int := 25

/-- `((y * width) + x) * 2`, an `unsigned int`. -/
def offset (y x : Int) : U32 := BitVec.ofInt 32 ((y * width + x) * 2)

/-- `buffer[offset]` -/
def read (buffer : Buffer) (offset : U32) : Outcome Stop U8 := buffer.load (offset.setWidth 64)

/-- `buffer[offset] = v;` -/
def write (buffer : Buffer) (offset : U32) (v : U8) : Outcome Stop Buffer :=
  buffer.store (offset.setWidth 64) v

/-- One turn of the loop over `xi` in the copy of row `yi`. -/
def copyTurn (yi xi : Nat) (buffer : Buffer) : Outcome Stop Buffer := do
  let offsetI := offset yi xi
  let offsetP := offset (yi - 1) xi
  let c ← read buffer offsetI
  let buffer ← write buffer offsetP c
  let a ← read buffer (offsetI + 1)
  write buffer (offsetP + 1) a

/-- One turn of the loop over `xi` that blanks the last row. -/
def blankTurn (xi : Nat) (buffer : Buffer) : Outcome Stop Buffer :=
  write buffer (offset (height - 1) xi) 0x20

def AttemptScroll (d : VGAConsoleDevice) : Outcome Stop VGAConsoleDevice :=
  let d := if d.x ≥ width then { d with y := d.y + 1, x := d.leftColumn } else d
  if d.y ≥ height then do
    let buffer ← forRange (height - 1).toNat
      (fun i => forRange width.toNat (copyTurn (i + 1))) d.buffer
    let buffer ← forRange width.toNat blankTurn buffer
    ok { d with y := d.y - 1, buffer }
  else ok d

def PrintChar (c : U8) (d : VGAConsoleDevice) : Outcome Stop VGAConsoleDevice := do
  let d ← if c = 10 then ok { d with x := d.leftColumn, y := d.y + 1 }
    else if c = 8 then do
      let x := if d.x - 1 < d.leftColumn then d.leftColumn else d.x - 1
      let buffer ← write d.buffer (offset d.y x) 0x20
      ok { d with x, buffer }
    else do
      let buffer ← write d.buffer (offset d.y d.x) c
      let buffer ← write buffer (offset d.y d.x + 1) d.attr
      ok { d with buffer, x := d.x + 1 }
  d.AttemptScroll

def FormatSetLeftColumn (column : Int) (d : VGAConsoleDevice) : VGAConsoleDevice :=
  { d with leftColumn := column }

/-! ## The characters on the screen -/

/-- The character at row `i`, column `j`. -/
def cell (b : Buffer) (i j : Nat) : U8 := b.byte (2 * (80 * i + j))

theorem offset_toNat {i j : Nat} (hi : i < 25) (hj : j < 80) :
    (offset i j).toNat = 2 * (80 * i + j) := by
  have hnat : (i * width + j) * 2 = ((2 * (80 * i + j) : Nat) : Int) := by
    unfold width
    push_cast
    ring
  rw [offset, hnat, BitVec.ofInt_natCast, BitVec.toNat_ofNat]
  omega

theorem offset_index {i j : Nat} (hi : i < 25) (hj : j < 80) :
    ((offset i j).setWidth 64).toNat = 2 * (80 * i + j) := by
  rw [BitVec.toNat_setWidth, offset_toNat hi hj]
  omega

theorem offset_next {i j : Nat} (hi : i < 25) (hj : j < 80) :
    ((offset i j + 1).setWidth 64).toNat = 2 * (80 * i + j) + 1 := by
  have h := offset_toNat hi hj
  rw [BitVec.toNat_setWidth, BitVec.toNat_add, h]
  simp only [BitVec.reduceToNat]
  omega

section

variable {b : Buffer} (hsize : b.size = 4000) {i j : Nat} (hi : i < 25) (hj : j < 80)
include hsize hi hj

theorem read.total : read b (offset i j) = ok (cell b i j) := by
  have hidx := offset_index hi hj
  rw [read, Buffer.load, if_pos (by omega), hidx]
  rfl

theorem read_attribute.total : ∃ a, read b (offset i j + 1) = ok a := by
  have hidx := offset_next hi hj
  exact ⟨_, if_pos (by omega)⟩

/-- A write of a character changes one place. -/
theorem write.spec (v : U8) : ∃ b', write b (offset i j) v = ok b' ∧ b'.size = 4000 ∧
    ∀ k l, l < 80 → cell b' k l = if k = i ∧ l = j then v else cell b k l := by
  have hidx := offset_index hi hj
  refine ⟨_, if_pos (by omega), hsize, fun k l hl => ?_⟩
  have hplace : 2 * (80 * k + l) = 2 * (80 * i + j) ↔ k = i ∧ l = j := by omega
  simp only [cell, hidx, hplace]

/-- A write of an attribute changes no character. -/
theorem write_attribute.spec (v : U8) : ∃ b', write b (offset i j + 1) v = ok b' ∧
    b'.size = 4000 ∧ ∀ k l, cell b' k l = cell b k l := by
  have hidx := offset_next hi hj
  refine ⟨_, if_pos (by omega), hsize, fun k l => ?_⟩
  have hplace : 2 * (80 * k + l) ≠ 2 * (80 * i + j) + 1 := by omega
  simp only [cell, hidx, if_neg hplace]

end

/-! ## The scroll -/

/-- A turn that copies a character from the row below. -/
def Copies {ε : Type} (turn : Nat → Nat → Buffer → Outcome ε Buffer) : Prop :=
  ∀ (b : Buffer) (i j : Nat), b.size = 4000 → i < 24 → j < 80 →
    ∃ b', turn i j b = ok b' ∧ b'.size = 4000 ∧
      ∀ k l, l < 80 → cell b' k l = if k = i ∧ l = j then cell b (i + 1) j else cell b k l

/-- A turn that blanks a character of the last row. -/
def Blanks {ε : Type} (turn : Nat → Buffer → Outcome ε Buffer) : Prop :=
  ∀ (b : Buffer) (j : Nat), b.size = 4000 → j < 80 →
    ∃ b', turn j b = ok b' ∧ b'.size = 4000 ∧
      ∀ k l, l < 80 → cell b' k l = if k = 24 ∧ l = j then 0x20 else cell b k l

section

variable {ε : Type} {b : Buffer} (hsize : b.size = 4000)
include hsize

/-- Row `i` becomes the row below it. -/
theorem copyRow.spec {turn : Nat → Nat → Buffer → Outcome ε Buffer} (hturn : Copies turn)
    {i : Nat} (hi : i < 24) :
    ∃ b', forRange 80 (turn i) b = ok b' ∧ b'.size = 4000 ∧
      ∀ k l, l < 80 → cell b' k l = if k = i then cell b (i + 1) l else cell b k l := by
  have hturns : ∀ n (c : Buffer), n < 80 → (c.size = 4000 ∧ ∀ k l, l < 80 →
      cell c k l = if k = i ∧ l < n then cell b (i + 1) l else cell b k l) →
      ∃ c', turn i n c = ok c' ∧ c'.size = 4000 ∧ ∀ k l, l < 80 →
        cell c' k l = if k = i ∧ l < n + 1 then cell b (i + 1) l else cell b k l := by
    rintro n c hn ⟨hc, hcells⟩
    obtain ⟨c', hrun, hc', hcells'⟩ := hturn c i n hc hi hn
    refine ⟨c', hrun, hc', fun k l hl => ?_⟩
    -- the row that is copied is not the one that is written
    have hbelow : cell c (i + 1) n = cell b (i + 1) n := by
      rw [hcells (i + 1) n hn, if_neg (by omega)]
    rw [hcells' k l hl, hbelow, hcells k l hl]
    by_cases hk : k = i
    · by_cases hln : l = n
      · simp [hk, hln]
      · have hlt : l < n + 1 ↔ l < n := by omega
        simp [hk, hln, hlt]
    · simp [hk]
  obtain ⟨b', hrun, hsize', hcells⟩ := forRange_ok
    (fun n (c : Buffer) => c.size = 4000 ∧ ∀ k l, l < 80 →
      cell c k l = if k = i ∧ l < n then cell b (i + 1) l else cell b k l)
    hturns ⟨hsize, fun k l _ => by simp⟩
  refine ⟨b', hrun, hsize', fun k l hl => ?_⟩
  rw [hcells k l hl]
  simp only [hl, and_true]

theorem copyRows.spec {turn : Nat → Nat → Buffer → Outcome ε Buffer} (hturn : Copies turn) :
    ∃ b', forRange 24 (fun i => forRange 80 (turn i)) b = ok b' ∧ b'.size = 4000 ∧
      ∀ k l, l < 80 → cell b' k l = if k < 24 then cell b (k + 1) l else cell b k l := by
  refine forRange_ok (fun n (c : Buffer) => c.size = 4000 ∧ ∀ k l, l < 80 →
    cell c k l = if k < n then cell b (k + 1) l else cell b k l) ?_ ⟨hsize, fun k l _ => by simp⟩
  rintro n c hn ⟨hc, hcells⟩
  obtain ⟨c', hrow, hc', hcells'⟩ := copyRow.spec hc hturn hn
  refine ⟨c', hrow, hc', fun k l hl => ?_⟩
  have hbelow : cell c (n + 1) l = cell b (n + 1) l := by
    rw [hcells (n + 1) l hl, if_neg (by omega)]
  rw [hcells' k l hl, hbelow, hcells k l hl]
  by_cases hk : k = n
  · simp [hk]
  · have hlt : k < n + 1 ↔ k < n := by omega
    simp [hk, hlt]

theorem blankRow.spec {turn : Nat → Buffer → Outcome ε Buffer} (hturn : Blanks turn) :
    ∃ b', forRange 80 turn b = ok b' ∧ b'.size = 4000 ∧
      ∀ k l, l < 80 → cell b' k l = if k = 24 then 0x20 else cell b k l := by
  have hturns : ∀ n (c : Buffer), n < 80 → (c.size = 4000 ∧ ∀ k l, l < 80 →
      cell c k l = if k = 24 ∧ l < n then 0x20 else cell b k l) →
      ∃ c', turn n c = ok c' ∧ c'.size = 4000 ∧ ∀ k l, l < 80 →
        cell c' k l = if k = 24 ∧ l < n + 1 then 0x20 else cell b k l := by
    rintro n c hn ⟨hc, hcells⟩
    obtain ⟨c', hrun, hc', hcells'⟩ := hturn c n hc hn
    refine ⟨c', hrun, hc', fun k l hl => ?_⟩
    rw [hcells' k l hl, hcells k l hl]
    by_cases hk : k = 24
    · by_cases hln : l = n
      · simp [hk, hln]
      · have hlt : l < n + 1 ↔ l < n := by omega
        simp [hk, hln, hlt]
    · simp [hk]
  obtain ⟨b', hrun, hsize', hcells⟩ := forRange_ok
    (fun n (c : Buffer) => c.size = 4000 ∧ ∀ k l, l < 80 →
      cell c k l = if k = 24 ∧ l < n then 0x20 else cell b k l)
    hturns ⟨hsize, fun k l _ => by simp⟩
  refine ⟨b', hrun, hsize', fun k l hl => ?_⟩
  rw [hcells k l hl]
  simp only [hl, and_true]

/-- The copies and the blanks move the rows up by one. -/
theorem scrollRows.spec {copy : Nat → Nat → Buffer → Outcome ε Buffer}
    {blank : Nat → Buffer → Outcome ε Buffer} (hcopy : Copies copy) (hblank : Blanks blank) :
    ∃ b₁ b₂, forRange 24 (fun i => forRange 80 (copy i)) b = ok b₁ ∧ forRange 80 blank b₁ = ok b₂ ∧
      b₂.size = 4000 ∧
      ∀ k l, k < 25 → l < 80 → cell b₂ k l = if k = 24 then 0x20 else cell b (k + 1) l := by
  obtain ⟨b₁, hrun₁, hsize₁, hcells₁⟩ := copyRows.spec hsize hcopy
  obtain ⟨b₂, hrun₂, hsize₂, hcells₂⟩ := blankRow.spec hsize₁ hblank
  refine ⟨b₁, b₂, hrun₁, hrun₂, hsize₂, fun k l hk hl => ?_⟩
  rw [hcells₂ k l hl]
  by_cases hlast : k = 24
  · rw [if_pos hlast, if_pos hlast]
  · rw [if_neg hlast, if_neg hlast, hcells₁ k l hl, if_pos (by omega)]

end

theorem copyTurn.copies : Copies fun i => copyTurn (i + 1) := by
  intro b i j hsize hi hj
  have hrow : offset (((i + 1 : Nat) : Int) - 1) j = offset i j := by
    congr 1
    push_cast
    ring
  obtain ⟨b₁, hw, hsize₁, hcell₁⟩ := write.spec hsize (show i < 25 by omega) hj (cell b (i + 1) j)
  obtain ⟨a, ha⟩ := read_attribute.total hsize₁ (show i + 1 < 25 by omega) hj
  obtain ⟨b₂, hw₂, hsize₂, hcell₂⟩ := write_attribute.spec hsize₁ (show i < 25 by omega) hj a
  refine ⟨b₂, ?_, hsize₂, fun k l hl => ?_⟩
  · simp only [copyTurn, hrow, read.total hsize (show i + 1 < 25 by omega) hj, bind_ok, hw, ha, hw₂]
  · rw [hcell₂, hcell₁ k l hl]

theorem blankTurn.blanks : Blanks blankTurn := by
  intro b j hsize hj
  exact write.spec hsize (show 24 < 25 by omega) hj 0x20

/-! ## The page -/

/-- A page of 80 columns without a last row, and a cursor on it. -/
structure Page where
  cell : Nat → Nat → U8
  row : Nat
  col : Nat
  left : Nat

def Page.put (p : Page) (col : Nat) (c : U8) : Page :=
  { p with cell := fun i j => if i = p.row ∧ j = col then c else p.cell i j }

def Page.PrintChar (c : U8) (p : Page) : Page :=
  if c = 10 then { p with row := p.row + 1, col := p.left }
  else if c = 8 then { p.put (max (p.col - 1) p.left) 0x20 with col := max (p.col - 1) p.left }
  else if p.col + 1 = 80 then { p.put p.col c with row := p.row + 1, col := p.left }
  else { p.put p.col c with col := p.col + 1 }

/-- The rows over the top edge of the screen, with the cursor in its new row: one
more where that is past the bottom row. -/
def passed (top row : Nat) : Nat := if row = top + 25 then top + 1 else top

/-- The screen shows the page from row `top` on. Below it the page is blank. The
cursor may be in the row below the screen. -/
structure Shows (d : VGAConsoleDevice) (p : Page) (top : Nat) : Prop where
  size : d.buffer.size = 4000
  x : d.x = p.col
  col : p.col < 80
  left : d.leftColumn = p.left
  margin : p.left < 80
  row : top ≤ p.row ∧ p.row ≤ top + 25
  y : d.y = (p.row - top : Nat)
  cells : ∀ i j, i < 25 → j < 80 → cell d.buffer i j = p.cell (top + i) j
  blank : ∀ i j, top + 25 ≤ i → p.cell i j = 0x20

theorem AttemptScroll.wrap {d : VGAConsoleDevice} (hx : d.x = 80) (hleft : d.leftColumn < 80) :
    d.AttemptScroll = AttemptScroll { d with y := d.y + 1, x := d.leftColumn } := by
  have hfirst : d.x ≥ width := by
    unfold width
    omega
  have hsecond : ¬ d.leftColumn ≥ width := by
    unfold width
    omega
  simp only [AttemptScroll, if_pos hfirst, if_neg hsecond]

/-- A screen that is scrolled shows the page from one row further down. -/
theorem Shows.scroll {d : VGAConsoleDevice} {p : Page} {top : Nat} (h : Shows d p top)
    (hpast : p.row = top + 25) {b : Buffer} (hsize : b.size = 4000)
    (hcells : ∀ k l, k < 25 → l < 80 →
      cell b k l = if k = 24 then 0x20 else cell d.buffer (k + 1) l) :
    Shows { d with y := d.y - 1, buffer := b } p (top + 1) := by
  have hy := h.y
  refine ⟨hsize, h.x, h.col, h.left, h.margin, ?_, ?_, ?_, ?_⟩
  · omega
  · dsimp only
    omega
  · intro i j hi hj
    dsimp only
    rw [hcells i j hi hj]
    by_cases hlast : i = 24
    · rw [if_pos hlast, h.blank _ _ (by omega)]
    · have hnext : top + (i + 1) = top + 1 + i := by omega
      rw [if_neg hlast, h.cells (i + 1) j (by omega) hj, hnext]
  · intro i j hi
    exact h.blank i j (by omega)

/-- A scroll moves the screen down the page, where the cursor left it. -/
theorem AttemptScroll.spec {d : VGAConsoleDevice} {p : Page} {top : Nat} (h : Shows d p top) :
    ∃ d', d.AttemptScroll = ok d' ∧ Shows d' p (passed top p.row) ∧ d'.y < 25 := by
  have hx : ¬ d.x ≥ width := by
    have := h.x
    have := h.col
    unfold width
    omega
  have hrow := h.row
  have hy := h.y
  by_cases hpast : p.row = top + 25
  · have hbottom : d.y ≥ height := by
      unfold height
      omega
    obtain ⟨b₁, b₂, hcopy, hblank, hsize₂, hcells₂⟩ :=
      scrollRows.spec h.size copyTurn.copies blankTurn.blanks
    have hcode : d.AttemptScroll = ok { d with y := d.y - 1, buffer := b₂ } := by
      have hrows : (height - 1).toNat = 24 := rfl
      have hcols : width.toNat = 80 := rfl
      simp only [AttemptScroll, if_neg hx, if_pos hbottom, hrows, hcols, hcopy, hblank, bind_ok]
    refine ⟨_, hcode, ?_, ?_⟩
    · rw [passed, if_pos hpast]
      exact h.scroll hpast hsize₂ hcells₂
    · dsimp only
      omega
  · have hinside : ¬ d.y ≥ height := by
      unfold height
      omega
    refine ⟨d, ?_, ?_, ?_⟩
    · simp only [AttemptScroll, if_neg hx, if_neg hinside]
    · rw [passed, if_neg hpast]
      exact h
    · unfold height at hinside
      omega

/-- A screen with another character in the row of the cursor shows a page with
that character. -/
theorem Shows.put_cell {d : VGAConsoleDevice} {p : Page} {top : Nat} (h : Shows d p top)
    (hy : d.y < 25) {col : Nat} {c : U8} {b : Buffer} (hsize : b.size = 4000)
    (hcells : ∀ k l, l < 80 → cell b k l = if k = p.row - top ∧ l = col then c else cell d.buffer k l) :
    Shows { d with buffer := b } (p.put col c) top := by
  have hrow := h.row
  have hyrow := h.y
  refine ⟨hsize, h.x, h.col, h.left, h.margin, hrow, hyrow, ?_, ?_⟩
  · intro i j hi hj
    have hplace : i = p.row - top ∧ j = col ↔ top + i = p.row ∧ j = col := by omega
    dsimp only [Page.put]
    rw [hcells i j hj, h.cells i j hi hj]
    simp only [hplace]
  · intro i j hi
    have hbelow : ¬ (i = p.row ∧ j = col) := by omega
    dsimp only [Page.put]
    rw [if_neg hbelow]
    exact h.blank i j hi

/-- A write of a character on the screen is a write on the page. -/
theorem Shows.put {d : VGAConsoleDevice} {p : Page} {top : Nat} (h : Shows d p top)
    (hy : d.y < 25) {col : Nat} (hcol : col < 80) (c : U8) :
    ∃ b, write d.buffer (offset d.y col) c = ok b ∧ Shows { d with buffer := b } (p.put col c) top := by
  have hrow := h.row
  have hyrow := h.y
  obtain ⟨b, hw, hsize, hcells⟩ := write.spec h.size (show p.row - top < 25 by omega) hcol c
  rw [← hyrow] at hw
  exact ⟨b, hw, h.put_cell hy hsize hcells⟩

/-- A write of an attribute shows the same page. -/
theorem Shows.put_attribute {d : VGAConsoleDevice} {p : Page} {top : Nat} (h : Shows d p top)
    (hy : d.y < 25) {col : Nat} (hcol : col < 80) (a : U8) :
    ∃ b, write d.buffer (offset d.y col + 1) a = ok b ∧ Shows { d with buffer := b } p top := by
  have hrow := h.row
  have hyrow := h.y
  obtain ⟨b, hw, hsize, hcells⟩ :=
    write_attribute.spec h.size (show p.row - top < 25 by omega) hcol a
  rw [← hyrow] at hw
  refine ⟨b, hw, hsize, h.x, h.col, h.left, h.margin, hrow, hyrow, ?_, h.blank⟩
  intro i j hi hj
  dsimp only
  rw [hcells, h.cells i j hi hj]

/-- A move of the cursor in its row, or to the next one. -/
theorem Shows.move {d : VGAConsoleDevice} {p : Page} {top : Nat} (h : Shows d p top)
    (hy : d.y < 25) {row col : Nat} (hrow : p.row ≤ row ∧ row ≤ p.row + 1) (hcol : col < 80) :
    Shows { d with x := col, y := d.y + (row - p.row : Nat) } { p with row, col } top := by
  have hrow' := h.row
  have hyrow := h.y
  refine ⟨h.size, rfl, hcol, h.left, h.margin, ?_, ?_, h.cells, h.blank⟩
  · dsimp only
    omega
  · dsimp only
    omega

theorem PrintChar.spec {d : VGAConsoleDevice} {p : Page} {top : Nat} (h : Shows d p top)
    (hy : d.y < 25) (c : U8) : ∃ d', d.PrintChar c = ok d' ∧
      Shows d' (p.PrintChar c) (passed top (p.PrintChar c).row) ∧ d'.y < 25 := by
  have hx := h.x
  have hcol := h.col
  have hleft := h.left
  have hmargin := h.margin
  have hdown : p.row ≤ p.row + 1 ∧ p.row + 1 ≤ p.row + 1 := ⟨Nat.le_succ _, Nat.le_refl _⟩
  have hsame : p.row ≤ p.row ∧ p.row ≤ p.row + 1 := ⟨Nat.le_refl _, Nat.le_succ _⟩
  by_cases hnewline : c = 10
  · have hmoved := h.move hy hdown hmargin
    rw [← hleft, Nat.add_sub_cancel_left] at hmoved
    obtain ⟨d', hscroll, hshows, hy'⟩ := AttemptScroll.spec hmoved
    refine ⟨d', ?_, ?_, hy'⟩
    · simp only [PrintChar, if_pos hnewline, bind_ok]
      exact hscroll
    · simp only [Page.PrintChar, if_pos hnewline]
      exact hshows
  by_cases hback : c = 8
  · have hnewcol : (if d.x - 1 < d.leftColumn then d.leftColumn else d.x - 1) =
        ((max (p.col - 1) p.left : Nat) : Int) := by
      rw [hx, hleft]
      split <;> omega
    obtain ⟨b, hw, hput⟩ := h.put hy (show max (p.col - 1) p.left < 80 by omega) 0x20
    have hmoved := hput.move hy hsame (show max (p.col - 1) p.left < 80 by omega)
    obtain ⟨d', hscroll, hshows, hy'⟩ := AttemptScroll.spec hmoved
    refine ⟨d', ?_, ?_, hy'⟩
    · simp only [PrintChar, if_neg hnewline, if_pos hback, hnewcol, hw, bind_ok]
      simpa [Page.put] using hscroll
    · simp only [Page.PrintChar, if_neg hnewline, if_pos hback]
      exact hshows
  obtain ⟨b₁, hw₁, hput₁⟩ := h.put hy hcol c
  obtain ⟨b₂, hw₂, hput₂⟩ := hput₁.put_attribute hy hcol d.attr
  rw [← hx] at hw₁ hw₂
  have hcode : d.PrintChar c = AttemptScroll { d with buffer := b₂, x := d.x + 1 } := by
    simp only [PrintChar, if_neg hnewline, if_neg hback, hw₁, hw₂, bind_ok]
  by_cases hwrap : p.col + 1 = 80
  · have hmoved := hput₂.move hy hdown hmargin
    obtain ⟨d', hscroll, hshows, hy'⟩ := AttemptScroll.spec hmoved
    refine ⟨d', ?_, ?_, hy'⟩
    · rw [hcode, AttemptScroll.wrap (by dsimp only; omega) (by dsimp only; omega)]
      simpa [Page.put, hleft] using hscroll
    · simp only [Page.PrintChar, if_neg hnewline, if_neg hback, if_pos hwrap]
      exact hshows
  · have hmoved := hput₂.move hy hsame (show p.col + 1 < 80 by omega)
    obtain ⟨d', hscroll, hshows, hy'⟩ := AttemptScroll.spec hmoved
    refine ⟨d', ?_, ?_, hy'⟩
    · rw [hcode, hx]
      simpa [Page.put] using hscroll
    · simp only [Page.PrintChar, if_neg hnewline, if_neg hback, if_neg hwrap]
      exact hshows

/-! ## Calls -/

inductive Call where
  | PrintChar (c : U8)
  | FormatSetLeftColumn (column : Int)

/-- A left column is on the screen. -/
def Call.Fits : Call → Prop
  | .PrintChar _ => True
  | .FormatSetLeftColumn column => 0 ≤ column ∧ column < 80

def call (d : VGAConsoleDevice) : Call → Outcome Stop VGAConsoleDevice
  | .PrintChar c => d.PrintChar c
  | .FormatSetLeftColumn column => ok (d.FormatSetLeftColumn column)

def calls (d : VGAConsoleDevice) : List Call → Outcome Stop VGAConsoleDevice
  | [] => ok d
  | c :: cs => d.call c >>= fun d => d.calls cs

def Page.call (p : Page) : Call → Page
  | .PrintChar c => p.PrintChar c
  | .FormatSetLeftColumn column => { p with left := column.toNat }

/-- The page after the calls, and how often the cursor moved past the bottom row
of the screen. -/
def Page.calls (p : Page) (top : Nat) : List Call → Page × Nat
  | [] => (p, top)
  | c :: cs => (p.call c).calls (passed top (p.call c).row) cs

theorem call.spec {d : VGAConsoleDevice} {p : Page} {top : Nat} (h : Shows d p top)
    (hy : d.y < 25) {c : Call} (hc : c.Fits) : ∃ d', d.call c = ok d' ∧
      Shows d' (p.call c) (passed top (p.call c).row) ∧ d'.y < 25 := by
  cases c with
  | PrintChar c => exact PrintChar.spec h hy c
  | FormatSetLeftColumn column =>
    obtain ⟨hlow, hhigh⟩ := hc
    have hrow := h.row
    have hyrow := h.y
    have hpassed : passed top p.row = top := if_neg (by omega)
    refine ⟨_, rfl, ?_, hy⟩
    change Shows _ { p with left := column.toNat } (passed top p.row)
    rw [hpassed]
    refine ⟨h.size, h.x, h.col, ?_, ?_, hrow, hyrow, h.cells, h.blank⟩
    · exact (Int.toNat_of_nonneg hlow).symm
    · dsimp only
      omega

theorem calls.spec {d : VGAConsoleDevice} {p : Page} {top : Nat} (h : Shows d p top)
    (hy : d.y < 25) {cs : List Call} (hcs : ∀ c ∈ cs, c.Fits) : ∃ d', d.calls cs = ok d' ∧
      Shows d' (p.calls top cs).1 (p.calls top cs).2 ∧ d'.y < 25 := by
  induction cs generalizing d p top with
  | nil => exact ⟨d, rfl, h, hy⟩
  | cons c cs ih =>
    obtain ⟨d₁, hcall, hshows, hy₁⟩ := call.spec h hy (hcs c List.mem_cons_self)
    obtain ⟨d', hcalls, hshows', hy'⟩ := ih hshows hy₁ fun c hc => hcs c (List.mem_cons_of_mem _ hc)
    refine ⟨d', ?_, hshows', hy'⟩
    rw [calls, hcall, bind_ok, hcalls]

/-! ## The law -/

/-- The device with its cursor on the screen. -/
structure OnScreen (d : VGAConsoleDevice) : Prop where
  size : d.buffer.size = 4000
  x : 0 ≤ d.x ∧ d.x < 80
  y : 0 ≤ d.y ∧ d.y < 25
  leftColumn : 0 ≤ d.leftColumn ∧ d.leftColumn < 80

/-- The page that starts with the screen, with blank rows behind it. -/
def firstPage (d : VGAConsoleDevice) : Page where
  cell i j := if i < 25 then cell d.buffer i j else 0x20
  row := d.y.toNat
  col := d.x.toNat
  left := d.leftColumn.toNat

theorem OnScreen.shows {d : VGAConsoleDevice} (hd : d.OnScreen) : Shows d d.firstPage 0 := by
  obtain ⟨hx, hx'⟩ := hd.x
  obtain ⟨hy, hy'⟩ := hd.y
  obtain ⟨hl, hl'⟩ := hd.leftColumn
  refine ⟨hd.size, (Int.toNat_of_nonneg hx).symm, ?_, (Int.toNat_of_nonneg hl).symm, ?_, ?_, ?_,
    ?_, ?_⟩
  · dsimp only [firstPage]
    omega
  · dsimp only [firstPage]
    omega
  · dsimp only [firstPage]
    omega
  · dsimp only [firstPage]
    omega
  · intro i j hi _
    dsimp only [firstPage]
    rw [Nat.zero_add, if_pos hi]
  · intro i j hi
    exact if_neg (by omega)

theorem Shows.onScreen {d : VGAConsoleDevice} {p : Page} {top : Nat} (h : Shows d p top)
    (hy : d.y < 25) : d.OnScreen := by
  obtain ⟨hsize, hx, hcol, hleft, hmargin, hrow, hyrow, _, _⟩ := h
  exact ⟨hsize, by omega, by omega, by omega⟩

/-- From every screen, and over every sequence of calls with left columns on the
screen: no access is outside of the buffer, the cursor stays on the screen, and
the screen shows 25 rows of the page, from as many rows down as the cursor moved
past the bottom row. -/
theorem the_console_shows_the_last_rows {d : VGAConsoleDevice} (hd : d.OnScreen) {cs : List Call}
    (hcs : ∀ c ∈ cs, c.Fits) : ∃ d' p top, (p, top) = d.firstPage.calls 0 cs ∧
      d.calls cs = ok d' ∧ d'.OnScreen ∧ d'.x = p.col ∧ d'.y = (p.row - top : Int) ∧
      ∀ i j, i < 25 → j < 80 → cell d'.buffer i j = p.cell (top + i) j := by
  obtain ⟨d', hcalls, hshows, hy⟩ := calls.spec hd.shows hd.y.2 hcs
  have hrow := hshows.row
  refine ⟨d', _, _, rfl, hcalls, hshows.onScreen hy, hshows.x, ?_, hshows.cells⟩
  rw [hshows.y]
  omega

/-- An empty screen with the cursor in the last place. -/
def lastPlace : VGAConsoleDevice := ⟨⟨0xB8000, 4000, fun _ => 0x20⟩, 79, 24, 0, 0x0F⟩

/-- A character in the last place scrolls the screen. -/
theorem the_console_shows_the_last_rows_after_a_scroll : ∃ d' p top,
    (p, top) = lastPlace.firstPage.calls 0 [.PrintChar 0x41, .FormatSetLeftColumn 13, .PrintChar 10] ∧
      lastPlace.calls [.PrintChar 0x41, .FormatSetLeftColumn 13, .PrintChar 10] = ok d' ∧
      d'.OnScreen ∧ d'.x = p.col ∧ d'.y = (p.row - top : Int) ∧
      ∀ i j, i < 25 → j < 80 → cell d'.buffer i j = p.cell (top + i) j := by
  refine the_console_shows_the_last_rows ⟨rfl, by decide, by decide, by decide⟩ ?_
  intro c hc
  simp only [List.mem_cons, List.not_mem_nil, or_false] at hc
  rcases hc with rfl | rfl | rfl
  · trivial
  · exact ⟨by decide, by decide⟩
  · trivial

end VGAConsoleDevice
end lobo
