-- The line of the debugger's prompt on the screen (`kernel_debugger.cpp`,
-- `vga_console.cpp`). The prompt starts in a blank row, since all that the debugger
-- shows before it ends with a newline. The row then shows the line that the keys leave.
-- Each backspace on an empty line takes one more character of the prompt off the row.
import CanidaeOS.Debugger

open Program Machine Outcome

namespace lobo.debugger

open log hiding newline
open VGAConsoleDevice (Page)

/-! ## The pure model -/

def promptText : List U8 := chars "  debug => "

/-- How many backspaces find the line empty. -/
def overruns (line : List U8) : List U8 → Nat
  | [] => 0
  | c :: keys => (if c = backspace ∧ line = [] then 1 else 0) + overruns (edit line c) keys

/-- The row behind the keys. -/
def row (keys : List U8) : List U8 := promptText.take (11 - overruns [] keys) ++ edited keys

/-- The row of the cursor shows a text, and the cursor is behind it. -/
structure RowShows (p : Page) (text : List U8) : Prop where
  left : p.left = 0
  col : p.col = text.length
  cells : ∀ j, p.cell p.row j = text.getD j 0x20

/-! ## One character -/

theorem RowShows.backspace {p : Page} {text : List U8} (h : RowShows p text) :
    RowShows (p.PrintChar backspace) text.dropLast ∧ (p.PrintChar backspace).row = p.row := by
  rcases h with ⟨hleft, hcol, hcells⟩
  have hpage : p.PrintChar debugger.backspace =
      { p.put (text.length - 1) 0x20 with col := text.length - 1 } := by
    unfold Page.PrintChar
    rw [if_neg (by decide), if_pos (show debugger.backspace = 8 from rfl), hleft, hcol, Nat.max_zero]
  rw [hpage]
  refine ⟨⟨hleft, by simp, fun j => ?_⟩, rfl⟩
  show (if p.row = p.row ∧ j = text.length - 1 then 0x20 else p.cell p.row j) = _
  rw [hcells, List.getD_eq_getElem?_getD, List.getD_eq_getElem?_getD, List.getElem?_dropLast]
  by_cases hj : j < text.length - 1
  · rw [if_neg (by omega), if_pos hj]
  · rw [if_neg hj]
    by_cases hlast : j = text.length - 1
    · simp [hlast]
    · rw [if_neg (by simp [hlast]), List.getElem?_eq_none (by omega)]

theorem RowShows.character {p : Page} {text : List U8} (h : RowShows p text) {c : U8} (hc : c ≠ newline)
    (hback : c ≠ debugger.backspace) (hroom : text.length + 1 < 80) :
    RowShows (p.PrintChar c) (text ++ [c]) ∧ (p.PrintChar c).row = p.row := by
  rcases h with ⟨hleft, hcol, hcells⟩
  have hpage : p.PrintChar c = { p.put text.length c with col := text.length + 1 } := by
    unfold Page.PrintChar
    rw [if_neg (show c ≠ 10 from hc), if_neg (show c ≠ 8 from hback), hcol, if_neg (by omega)]
  rw [hpage]
  refine ⟨⟨hleft, by simp, fun j => ?_⟩, rfl⟩
  show (if p.row = p.row ∧ j = text.length then c else p.cell p.row j) = _
  rw [hcells, List.getD_eq_getElem?_getD, List.getD_eq_getElem?_getD]
  rcases Nat.lt_trichotomy j text.length with hj | rfl | hj
  · rw [if_neg (by omega), List.getElem?_append_left hj]
  · simp
  · rw [if_neg (by omega), List.getElem?_eq_none (by omega), List.getElem?_eq_none]
    rw [List.length_append, List.length_singleton]
    omega

/-! ## The keys -/

variable {u : Uart16550.Uart} {fuel : Nat} {o : log.Output} {k : System}

/-- A text without a newline and a backspace. -/
theorem RowShows.text {s : List U8} (hs : ∀ c ∈ s, c ≠ newline ∧ c ≠ debugger.backspace) {text : List U8}
    (h : RowShows o.page text) (hroom : text.length + s.length < 80) :
    RowShows (o.acts (put s)).page (text ++ s) ∧ (o.acts (put s)).page.row = o.page.row := by
  induction s generalizing o text with
  | nil =>
    rw [List.append_nil]
    exact ⟨h, rfl⟩
  | cons c s ih =>
    rw [List.length_cons] at hroom
    rcases hs c List.mem_cons_self with ⟨hc, hback⟩
    rcases h.character hc hback (by omega) with ⟨h₁, hrow₁⟩
    have hrest := ih (o := o.act (.PrintChar c)) (fun c hc => hs c (List.mem_cons_of_mem _ hc)) h₁
      (by rw [List.length_append, List.length_singleton]; omega)
    rw [List.append_assoc] at hrest
    exact ⟨hrest.1, hrest.2.trans hrow₁⟩

theorem dropLast_take (n : Nat) (s : List U8) (h : n ≤ s.length) : (s.take n).dropLast = s.take (n - 1) := by
  rw [List.dropLast_eq_take, List.length_take, List.take_take]
  congr 1
  omega

/-- What the keys do to the row, from any line on. -/
theorem RowShows.keys {keys : List U8} (hkeys : newline ∉ keys) {n : Nat} {line : List U8}
    (h : RowShows o.page (promptText.take (11 - n) ++ line))
    (hroom : ∀ front, front <+: keys → (front.foldl edit line).length < 69) :
    RowShows (shows o (keys.flatMap echo)).page
      (promptText.take (11 - (n + overruns line keys)) ++ keys.foldl edit line) ∧
      (shows o (keys.flatMap echo)).page.row = o.page.row := by
  induction keys generalizing o n line with
  | nil => exact ⟨h, rfl⟩
  | cons c keys ih =>
    rw [List.mem_cons, not_or] at hkeys
    have hline : line.length < 69 := hroom [] (List.nil_prefix)
    have hnext : ∀ front, front <+: keys → (front.foldl edit (edit line c)).length < 69 := by
      intro front hfront
      exact hroom (c :: front) (List.cons_prefix_cons.mpr ⟨rfl, hfront⟩)
    -- the row behind the first key
    have hfirst : RowShows (shows o (echo c)).page
        (promptText.take (11 - (n + if c = debugger.backspace ∧ line = [] then 1 else 0)) ++ edit line c) ∧
        (shows o (echo c)).page.row = o.page.row := by
      by_cases hback : c = debugger.backspace
      · subst hback
        have hrow := h.backspace
        have hshown : (shows o (echo debugger.backspace)).page = o.page.PrintChar debugger.backspace := rfl
        rw [hshown]
        refine ⟨?_, hrow.2⟩
        rw [edit, if_pos rfl]
        by_cases hnil : line = []
        · subst hnil
          rw [if_pos ⟨rfl, rfl⟩, List.dropLast_nil, List.append_nil, ← Nat.sub_sub,
            ← dropLast_take _ _ (by show 11 - n ≤ 11; omega)]
          rw [List.append_nil] at hrow
          exact hrow.1
        · rw [if_neg (by simp [hnil]), ← List.dropLast_append_of_ne_nil hnil]
          exact hrow.1
      · rw [if_neg (by simp [hback]), edit, if_neg hback]
        by_cases hzero : c = 0
        · rw [if_pos hzero, echo, if_pos hzero]
          exact ⟨h, rfl⟩
        · have hedit : edit line c = line ++ [c] := by
            rw [edit, if_neg hback, if_neg hzero, if_pos (by omega)]
          have hlength : (promptText.take (11 - n) ++ line).length + 1 < 80 := by
            have hsecond := hnext [] List.nil_prefix
            rw [List.foldl_nil, hedit, List.length_append, List.length_singleton] at hsecond
            rw [List.length_append, List.length_take]
            omega
          rw [if_neg hzero, if_pos (by omega), echo, if_neg hzero, ← List.append_assoc]
          exact h.character (Ne.symm hkeys.1) hback hlength
    rcases ih hkeys.2 hfirst.1 hnext with ⟨hrest, hrow⟩
    rw [List.flatMap_cons, shows_append]
    rw [Nat.add_assoc] at hrest
    exact ⟨hrest, hrow.trans hfirst.2⟩

theorem prompt_acts : prompt.acts = put promptText := by
  show put (printf.text (plain "  debug => " _).pieces) = _
  rw [Plain.text_pieces]
  rfl

/-- A prompt in a blank row, and the keys behind it. -/
theorem RowShows.prompt (h : RowShows o.page []) {keys : List U8} (hkeys : newline ∉ keys)
    (hroom : ∀ front, front <+: keys → (edited front).length < 69) :
    RowShows (shows o (prompt :: keys.flatMap echo)).page (row keys) := by
  have hplain : ∀ c ∈ promptText, c ≠ newline ∧ c ≠ debugger.backspace := by decide
  have hprompt := (h.text hplain (by decide)).1
  rw [← prompt_acts, ← shows_singleton, List.nil_append] at hprompt
  have hstart : RowShows (shows o [debugger.prompt]).page (promptText.take (11 - 0) ++ []) := by
    rw [List.append_nil, List.take_of_length_le (by decide)]
    exact hprompt
  have hline := (hstart.keys hkeys hroom).1
  rw [← shows_append, List.singleton_append, Nat.zero_add] at hline
  exact hline

/-! ## The row of a prompt -/

/-- Below the row of the cursor the page is blank. -/
def BlankBelow (p : Page) : Prop := ∀ i j, p.row < i → p.cell i j = 0x20

theorem BlankBelow.act (h : BlankBelow o.page) (a : VGAConsoleDevice.Call) : BlankBelow (o.act a).page := by
  cases a with
  | FormatSetLeftColumn column => exact h
  | PrintChar c =>
    have hput : ∀ col c, BlankBelow (o.page.put col c) := by
      intro col c i j hi
      have hi' : o.page.row < i := hi
      show (if i = o.page.row ∧ j = col then c else o.page.cell i j) = 0x20
      rw [if_neg (by omega)]
      exact h i j hi'
    show BlankBelow (o.page.PrintChar c)
    unfold Page.PrintChar
    split_ifs
    · exact fun i j hi => h i j (Nat.lt_of_succ_lt hi)
    · exact hput _ _
    · exact fun i j hi => hput _ _ i j (Nat.lt_of_succ_lt hi)
    · exact hput _ _

theorem BlankBelow.acts (h : BlankBelow o.page) (as : List VGAConsoleDevice.Call) :
    BlankBelow (o.acts as).page := by
  induction as generalizing o with
  | nil => exact h
  | cons a as ih => exact ih (h.act a)

theorem acts_append (o : log.Output) (as bs : List VGAConsoleDevice.Call) :
    o.acts (as ++ bs) = (o.acts as).acts bs := List.foldl_append

theorem put_left (s : List U8) (o : log.Output) : (o.acts (put s)).page.left = o.page.left := by
  induction s generalizing o with
  | nil => rfl
  | cons c s ih => exact (ih _).trans (PrintChar_left o.page c)

/-- Outside of `Log` there is no left margin. -/
theorem shows_left (cs : List log.Call) (hleft : o.page.left = 0) : (shows o cs).page.left = 0 := by
  induction cs generalizing o with
  | nil => exact hleft
  | cons c cs ih =>
    rw [← List.singleton_append, shows_append, shows_singleton]
    refine ih ?_
    cases c with
    | Log category m =>
      rw [Call.acts, acts_append]
      exact PrintChar_left _ 10
    | LogRaw m => exact (put_left _ o).trans hleft
    | WriteChar c => exact (PrintChar_left o.page c).trans hleft

/-- A call that shows a newline last. -/
def EndsLine (c : log.Call) : Prop := ∃ as, c.acts = as ++ [.PrintChar newline]

/-- Behind it the cursor is at the start of a blank row. -/
theorem EndsLine.row {c : log.Call} (hc : EndsLine c) (cs : List log.Call) (hleft : o.page.left = 0)
    (hblank : BlankBelow o.page) : RowShows (shows o (cs ++ [c])).page [] := by
  obtain ⟨as, has⟩ := hc
  have hnone := shows_left (cs ++ [c]) hleft
  have hbelow : BlankBelow ((shows o cs).acts as).page := (hblank.acts _).acts as
  have hpage : shows o (cs ++ [c]) = ((shows o cs).acts as).act (.PrintChar newline) := by
    rw [shows_append, shows_singleton, has, acts_append]
    rfl
  rw [hpage] at hnone ⊢
  exact ⟨hnone, (PrintChar_left _ newline).symm.trans hnone, fun j => hbelow _ j (Nat.lt_succ_self _)⟩

theorem say_ends (category : printf.CString) (ps : List printf.Piece) : EndsLine (say category ps) :=
  ⟨put (tag category).text ++ .FormatSetLeftColumn 13 :: put (printf.text ps) ++
    [.FormatSetLeftColumn 0], by simp [say, Call.acts, Message.text, newline]⟩

/-- Calls that show a newline last. -/
def EndLine (cs : List log.Call) : Prop := ∃ front c, EndsLine c ∧ cs = front ++ [c]

theorem endLine_of_all {cs : List log.Call} (hne : cs ≠ []) (h : ∀ c ∈ cs, EndsLine c) : EndLine cs :=
  ⟨cs.dropLast, cs.getLast hne, h _ (List.getLast_mem hne), (List.dropLast_append_getLast hne).symm⟩

/-- So does every reply. -/
theorem reply_endLine (k : System) (command : printf.CString) : EndLine (reply k command) := by
  have hfigures : ∀ f, EndLine (figures f) := fun f => by
    refine endLine_of_all (by simp [figures]) ?_
    simp [figures, say_ends]
  have hthreads : EndLine (threadTable k.kernelSched) := by
    refine endLine_of_all (by simp [threadTable]) ?_
    simp [threadTable, threadRow, say_ends]
  unfold reply
  split_ifs
  · exact endLine_of_all (by simp [help]) (by simp [help, say_ends])
  · exact hfigures _
  · exact hfigures _
  · exact ⟨[], _, say_ends _ _, rfl⟩
  · exact ⟨_, _, ⟨[], rfl⟩, rfl⟩
  · exact hthreads
  · exact ⟨[], _, say_ends _ _, rfl⟩

theorem EndLine.append {cs : List log.Call} (h : EndLine cs) (front : List log.Call) :
    EndLine (front ++ cs) := by
  obtain ⟨cs, c, hc, rfl⟩ := h
  exact ⟨front ++ cs, c, hc, (List.append_assoc front cs [c]).symm⟩

/-- Where the keys have led into a line, the last prompt is behind a newline, and
behind the prompt are the keys of the line. -/
theorem Place.last_prompt (k : System) {keys line : List U8}
    (h : Place.outside.after keys = .inside line) : newline ∉ line ∧ ∃ cs, EndLine cs ∧
      Place.outside.transcript k keys = cs ++ prompt :: line.flatMap echo := by
  induction keys using List.reverseRecOn generalizing line with
  | nil => cases h
  | append_singleton keys c ih =>
    have hone : ∀ p : Place, p.transcript k [c] = p.calls k c := fun p => List.append_nil _
    rw [Place.after_append] at h
    rw [Place.transcript_append, hone]
    cases hp : Place.outside.after keys with
    | outside =>
      rw [hp] at h
      have h : (if c = tilde then Place.inside [] else .outside) = .inside line := h
      split_ifs at h with htilde
      cases h
      have hentry : EndLine [entry] := ⟨[], entry, say_ends _ _, rfl⟩
      refine ⟨List.not_mem_nil, _, hentry.append (Place.outside.transcript k keys), ?_⟩
      rw [Place.calls, if_pos htilde]
      simp
    | inside front =>
      rw [hp] at h
      obtain ⟨hfront, cs, hcs, htranscript⟩ := ih hp
      by_cases hnew : c = newline
      · subst hnew
        have h : (if newline = newline then if entered front = chars "exit" then Place.outside
          else .inside [] else .inside (front ++ [newline])) = .inside line := h
        rw [if_pos rfl] at h
        split_ifs at h with hexit
        cases h
        refine ⟨List.not_mem_nil, _, ((reply_endLine k (lineString front)).append [.WriteChar newline]).append
          (Place.outside.transcript k keys), ?_⟩
        rw [Place.calls, if_pos rfl, if_neg hexit]
        simp
      · have h : (if c = newline then if entered front = chars "exit" then Place.outside
          else .inside [] else .inside (front ++ [c])) = .inside line := h
        rw [if_neg hnew] at h
        cases h
        refine ⟨?_, cs, hcs, ?_⟩
        · rw [List.mem_append, List.mem_singleton, not_or]
          exact ⟨hfront, Ne.symm hnew⟩
        · rw [Place.calls, if_neg hnew, htranscript, List.flatMap_append, List.flatMap_singleton]
          simp

/-! ## The law -/

/-- Whatever keys have led the thread into a line of the debugger, from a log with
no margin and blank rows below its cursor: while the line leaves room in the row,
the row of the cursor is the prompt, the line that the keys make of it, and blanks,
with the cursor behind the line. Every backspace on an empty line has taken one
character off the prompt. -/
theorem the_screen_shows_the_line (hk : k.Sound) (hl : k.klog.Gave u fuel o) (hleft : o.page.left = 0)
    (hblank : BlankBelow o.page) {keys : List U8} {turns : Nat} (hturns : keys.length < turns)
    {line : List U8} (hinside : Place.outside.after keys = .inside line)
    (hroom : ∀ front, front <+: line → (edited front).length < 69) :
    ∃ k' d, thread_read_keyboard fuel turns keys k = ok k' ∧
      k'.klog.m_terminalOutDevice = some d ∧ d.x = (row line).length ∧
      ∀ j < 80, VGAConsoleDevice.cell d.buffer d.y.toNat j = (row line).getD j 0x20 := by
  rcases readTurn.run hk hturns hturns hl with ⟨l', hrun, -, d, hd, hshows, hbelow⟩
  obtain ⟨hline, cs, ⟨front, c, hc, rfl⟩, htranscript⟩ := Place.last_prompt k hinside
  have hrow := (hc.row front hleft hblank).prompt hline hroom
  rw [← shows_append, ← htranscript] at hrow
  have hy : d.y.toNat = (shows o (Place.outside.transcript k keys)).page.row -
      (shows o (Place.outside.transcript k keys)).top := by
    rw [hshows.y]
    rfl
  refine ⟨_, d, hrun, hd, ?_, fun j hj => ?_⟩
  · rw [hshows.x, hrow.col]
  · have hrows := hshows.row.1
    have hplace : (shows o (Place.outside.transcript k keys)).top + d.y.toNat =
        (shows o (Place.outside.transcript k keys)).page.row := by omega
    rw [hshows.cells _ j (by omega) hj, hplace, hrow.cells]

/-- `help`, one backspace too many, and `exit`. -/
def longLine : List U8 :=
  chars "help" ++ List.replicate 5 debugger.backspace ++ chars "exit"

/-- The line behind a letter, the key that enters and a command. -/
def longKeys : List U8 := chars "a~threads\n" ++ longLine

theorem the_screen_shows_the_line_behind_an_empty_one :
    ∃ k' d, thread_read_keyboard 4 40 longKeys typing = ok k' ∧
      k'.klog.m_terminalOutDevice = some d ∧ d.x = (row longLine).length ∧
      ∀ j < 80, VGAConsoleDevice.cell d.buffer d.y.toNat j = (row longLine).getD j 0x20 := by
  have hblank : BlankBelow log.blankScreen.firstPage := fun i j _ => ite_self 0x20
  refine the_screen_shows_the_line typing_sound
    (log.booting_boots.gave (by decide) fun _ => Nat.lt_succ_self 3) rfl hblank
    (by decide) (by rfl) fun front hfront => ?_
  have hall : ∀ n ≤ longLine.length, (edited (longLine.take n)).length < 69 := by decide
  rw [List.prefix_iff_eq_take.mp hfront]
  exact hall _ hfront.length_le

end lobo.debugger
