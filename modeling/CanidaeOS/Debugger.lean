-- The debugger (`kernel_debugger.cpp`) and the thread that enters it (`main.cpp`).
-- The loops over the keys are nested, three deep. Together they are a machine
-- that is outside of the debugger or in a line of it, and takes one key at a time.
import CanidaeOS.DebuggerCommands

open Program Machine Outcome

namespace lobo.debugger

open log hiding newline
open printf (ascii Arg CString Conversion Directive Piece)

/-! ## The code -/

/-- The input loop on the keys in their order, with the keys that it leaves behind
a newline. When the keys have run out, it is still waiting for one. -/
def inputLoop (fuel : Nat) : List U8 → Input → log → Outcome log.Stop (Option (List U8) × Input × log)
  | [], s, l => ok (none, s, l)
  | c :: keys, s, l =>
    if c = newline then do
      let l ← l.WriteChar fuel c
      ok (some keys, s, l)
    else if c = backspace then do
      let l ← l.WriteChar fuel backspace
      let s ← (s.key c).lift .device
      inputLoop fuel keys s l
    else if c = 0 then inputLoop fuel keys s l
    else do
      let s ← (s.key c).lift .device
      let l ← l.WriteChar fuel c
      inputLoop fuel keys s l

/-- One turn of the outer loop: a prompt, a line and its reply. -/
def promptTurn (fuel : Nat) (wasSchedulingEnabled : Bool) (t : System × List U8) :
    Outcome log.Stop (Turn (System × List U8) (Option (List U8) × System)) := do
  let (k, keys) := t
  let klog ← k.klog.LogRaw fuel (literal "  debug => ") []
  let (left, input, klog) ← inputLoop fuel keys Input.prompt klog
  let k := { k with klog }
  match left with
  | none => ok (.leave (none, k))
  | some keys =>
    let r ← strcmp input.input_buffer.toList (literal "exit")
    if r = 0 then
      let kernelSched := if wasSchedulingEnabled then k.kernelSched.EnableScheduling else k.kernelSched
      ok (.leave (some keys, { k with kernelSched }))
    else
      let klog ← process fuel input.input_buffer.toList k
      ok (.next ({ k with klog }, keys))

/-- `debugger::enter`, with at most `turns` prompts. -/
def enter (fuel turns : Nat) (keys : List U8) (k : System) :
    Outcome log.Stop (Option (List U8) × System) := do
  let wasSchedulingEnabled := k.kernelSched.schedulingEnabled
  let kernelSched := k.kernelSched.DisableScheduling
  let klog ← k.klog.Log fuel (literal "debug") (literal "Entered kernel debugger!") []
  loop (promptTurn fuel wasSchedulingEnabled) turns ({ k with klog, kernelSched }, keys)

def tilde : U8 := ascii '~'

/-- One turn of the loop in `thread_read_keyboard`. It is left where the thread waits
for a key, in the loop or in the debugger. -/
def readTurn (fuel turns : Nat) (t : System × List U8) :
    Outcome log.Stop (Turn (System × List U8) System) :=
  match t with
  | (k, []) => ok (.leave k)
  | (k, c :: keys) =>
    if c = tilde then do
      let (left, k) ← enter fuel turns keys k
      match left with
      | some keys => ok (.next (k, keys))
      | none => ok (.leave k)
    else if c ≠ 0 then do
      let klog ← k.klog.WriteChar fuel c
      ok (.next ({ k with klog }, keys))
    else ok (.next (k, keys))

def thread_read_keyboard (fuel turns : Nat) (keys : List U8) (k : System) : Outcome log.Stop System :=
  loop (readTurn fuel turns) turns (k, keys)

/-! ## The command of a line -/

/-- The string that the keys of a line leave in the buffer: a backspace at the end of
the line clears the end mark, and no character. -/
def entered (keys : List U8) : List U8 :=
  if (keys.filter (· ≠ 0)).getLast? = some backspace then edited (keys.filter (· ≠ 0)).dropLast
  else edited keys

theorem entered_snoc (keys : List U8) (c : U8) : entered (keys ++ [c]) =
    if c = backspace then edited keys else if c = 0 then entered keys else edited (keys ++ [c]) := by
  have hback : backspace ≠ 0 := by decide
  by_cases hc : c = backspace
  · subst hc
    rw [if_pos rfl]
    unfold entered
    rw [filter_snoc, if_neg hback, List.getLast?_concat, if_pos rfl, List.dropLast_concat, edited_filter]
  · rw [if_neg hc]
    by_cases hzero : c = 0
    · subst hzero
      rw [if_pos rfl]
      unfold entered
      rw [filter_snoc, if_pos rfl, List.append_nil, edited_snoc]
      rfl
    · rw [if_neg hzero]
      unfold entered
      rw [filter_snoc, if_neg hzero, List.getLast?_concat, if_neg]
      exact fun h => hc (Option.some.inj h)

/-- A key, with the command that the buffer then holds. -/
theorem key_entered {keys : List U8} {s : Input} (h : Follows keys s) (hs : s.command = entered keys)
    (c : U8) : ∃ s', s.key c = ok s' ∧ Follows (keys ++ [c]) s' ∧ s'.command = entered (keys ++ [c]) := by
  rcases key_follows h c with ⟨s', hrun, h'⟩
  refine ⟨s', hrun, h', ?_⟩
  rw [entered_snoc]
  by_cases hback : c = backspace
  · subst hback
    rcases h with ⟨l, ⟨hindex, hbuffer⟩, hheld, -⟩
    have hfits := l.fits
    rcases Input.store.spec s (i := l.held.length) (by omega) 0 with ⟨s₁, hstore, -, hbuffer₁⟩
    rw [Input.key, if_pos rfl, hindex, hstore, bind_ok] at hrun
    have hsame : s'.input_buffer = s₁.input_buffer := by rw [← ok.inj hrun]
    have hall : ∀ c ∈ l.held, decide (c ≠ 0) = true :=
      fun c hc => decide_eq_true (l.nonzero c (List.mem_append_left _ hc))
    rw [if_pos rfl, ← hheld, Input.command, hsame, hbuffer₁, hbuffer, l.cells_set,
      List.takeWhile_append_of_pos hall, List.takeWhile_cons_of_neg (by simp), List.append_nil]
  · rw [if_neg hback]
    by_cases hzero : c = 0
    · subst hzero
      rw [Input.key, if_neg hback, if_pos rfl] at hrun
      rw [if_pos rfl, ← ok.inj hrun, hs]
    · rcases h' with ⟨l, hl, hheld, hbehind⟩
      rw [if_neg hzero, command_of_holds hl, hheld, hbehind.mpr (removal_character keys hback hzero),
        List.append_nil]

/-- The buffer has an end mark. -/
theorem mem_buffer {keys : List U8} {s : Input} (h : Follows keys s) : 0 ∈ s.input_buffer.toList := by
  rcases h with ⟨l, ⟨-, hbuffer⟩, -, -⟩
  have hfits := l.fits
  rw [hbuffer]
  apply List.mem_append_right
  rw [List.mem_replicate]
  exact ⟨by omega, rfl⟩

/-! ## The machine -/

/-- Where the keys have led: outside of the debugger, or behind some keys of a line. -/
inductive Place where
  | outside
  | inside (line : List U8)

/-- What the kernel shows of a key that it takes. -/
def echo (c : U8) : List log.Call := if c = 0 then [] else [.WriteChar c]

def entry : log.Call := say debug (plain "Entered kernel debugger!" (by decide +kernel)).pieces

def prompt : log.Call := .LogRaw ⟨(plain "  debug => " (by decide +kernel)).pieces, [], []⟩

/-- The command of a line, as a string. -/
def lineString (line : List U8) : CString := terminated (entered line ++ [0]) (by simp)

namespace Place

def key : Place → U8 → Place
  | outside, c => if c = tilde then inside [] else outside
  | inside line, c =>
    if c = newline then if entered line = chars "exit" then outside else inside []
    else inside (line ++ [c])

/-- The calls of the log for a key. -/
def calls (k : System) : Place → U8 → List log.Call
  | outside, c => if c = tilde then [entry, prompt] else echo c
  | inside line, c =>
    if c = newline then
      .WriteChar newline ::
        if entered line = chars "exit" then [] else reply k (lineString line) ++ [prompt]
    else echo c

def after (p : Place) (keys : List U8) : Place := keys.foldl key p

def transcript (k : System) : Place → List U8 → List log.Call
  | _, [] => []
  | p, c :: keys => p.calls k c ++ transcript k (p.key c) keys

/-- Inside of the debugger, scheduling is disabled. -/
def sched : Place → Scheduler → Scheduler
  | outside, s => s
  | inside _, s => s.DisableScheduling

theorem transcript_append (k : System) (p : Place) (xs ys : List U8) :
    p.transcript k (xs ++ ys) = p.transcript k xs ++ (p.after xs).transcript k ys := by
  induction xs generalizing p with
  | nil => rfl
  | cons c xs ih =>
    rw [List.cons_append, transcript, transcript, ih, List.append_assoc]
    rfl

theorem after_append (p : Place) (xs ys : List U8) : p.after (xs ++ ys) = (p.after xs).after ys :=
  List.foldl_append

/-- The keys of a line, up to its newline. -/
theorem of_line {line : List U8} (h : newline ∉ line) (k : System) (front : List U8) :
    (inside front).after line = inside (front ++ line) ∧
      (inside front).transcript k line = line.flatMap echo := by
  induction line generalizing front with
  | nil =>
    rw [List.append_nil]
    exact ⟨rfl, rfl⟩
  | cons c line ih =>
    rw [List.mem_cons, not_or] at h
    have hkey : (inside front).key c = inside (front ++ [c]) := if_neg (Ne.symm h.1)
    have hcalls : (inside front).calls k c = echo c := if_neg (Ne.symm h.1)
    rcases ih h.2 (front ++ [c]) with ⟨hafter, htranscript⟩
    rw [List.append_assoc] at hafter
    constructor
    · show ((inside front).key c).after line = _
      rw [hkey]
      exact hafter
    · rw [transcript, hcalls, hkey, htranscript, List.flatMap_cons]

end Place

/-! ## The specs -/

/-- The output after some calls. -/
def shows (o : log.Output) (cs : List log.Call) : log.Output := o.acts (cs.flatMap Call.acts)

theorem shows_append (o : log.Output) (cs cs' : List log.Call) :
    shows o (cs ++ cs') = shows (shows o cs) cs' := by
  unfold shows log.Output.acts
  rw [List.flatMap_append, List.foldl_append]

theorem shows_singleton (o : log.Output) (c : log.Call) : shows o [c] = o.acts c.acts := by
  simp [shows]

variable {u : Uart16550.Uart} {fuel : Nat} {o : log.Output} {l : log} {k : System}

/-- The input loop on keys with no newline, whatever is behind them. -/
theorem inputLoop.spec {line : List U8} (hline : newline ∉ line) (more : List U8) {front : List U8}
    {s : Input} (hs : Follows front s) (hcommand : s.command = entered front) (hl : l.Gave u fuel o) :
    ∃ s' l', inputLoop fuel (line ++ more) s l = inputLoop fuel more s' l' ∧
      Follows (front ++ line) s' ∧ s'.command = entered (front ++ line) ∧
      l'.Gave u fuel (shows o (line.flatMap echo)) := by
  induction line generalizing front s l o with
  | nil =>
    rw [List.append_nil]
    exact ⟨s, l, rfl, hs, hcommand, hl⟩
  | cons c line ih =>
    rw [List.mem_cons, not_or] at hline
    rcases key_entered hs hcommand c with ⟨s₁, hkey, hs₁, hcommand₁⟩
    have hturn : ∃ l₁, inputLoop fuel (c :: line ++ more) s l = inputLoop fuel (line ++ more) s₁ l₁ ∧
        l₁.Gave u fuel (shows o (echo c)) := by
      rcases WriteChar.spec hl c with ⟨l₁, hwrite, hl₁⟩
      rw [List.cons_append, inputLoop, if_neg (Ne.symm hline.1)]
      by_cases hback : c = backspace
      · subst hback
        refine ⟨l₁, ?_, hl₁⟩
        rw [if_pos rfl, hwrite, bind_ok, hkey, lift_ok, bind_ok]
      · rw [if_neg hback]
        by_cases hzero : c = 0
        · subst hzero
          rw [Input.key, if_neg hback, if_pos rfl] at hkey
          refine ⟨l, ?_, hl⟩
          rw [if_pos rfl, ok.inj hkey]
        · refine ⟨l₁, ?_, ?_⟩
          · rw [if_neg hzero, hkey, lift_ok, bind_ok, hwrite, bind_ok]
          · rw [echo, if_neg hzero]
            exact hl₁
    rcases hturn with ⟨l₁, hturn, hl₁⟩
    rcases ih hline.2 hs₁ hcommand₁ hl₁ with ⟨s', l', hrun, hs', hcommand', hl'⟩
    refine ⟨s', l', hturn.trans hrun, ?_, ?_, ?_⟩
    · rw [List.append_assoc] at hs'
      exact hs'
    · rw [List.append_assoc] at hcommand'
      exact hcommand'
    · rw [List.flatMap_cons, shows_append]
      exact hl'

theorem command_lt {keys : List U8} {s : Input} (h : Follows keys s) : s.command.length < 100 := by
  rcases h with ⟨line, hline, -, -⟩
  have hfits := line.fits
  rw [command_of_holds hline, List.length_append]
  omega

theorem lineString_text {line : List U8} {s : Input} (h : s.command = entered line) :
    (lineString line).text = entered line := by
  have hall : ∀ c ∈ entered line, decide (c ≠ 0) = true := by
    rw [← h]
    intro c hc
    simpa using List.mem_takeWhile_imp hc
  show (entered line ++ [0]).takeWhile (· ≠ 0) = entered line
  rw [List.takeWhile_append_of_pos hall, List.takeWhile_cons_of_neg (by simp), List.append_nil]

/-- A reply shows nothing of what is behind the end mark of the command. -/
theorem shows_reply {command command' : CString} (h : command.text = command'.text) :
    shows o (reply k command) = shows o (reply k command') := by
  have hinvalid : ∀ s : Plain, (say debug (s.pieces ++ bare (.s command) :: quote.pieces)).acts =
      (say debug (s.pieces ++ bare (.s command') :: quote.pieces)).acts := by
    intro s
    simp [say, Call.acts, Message.text, text_append, text_cons, bare_text, Conversion.text, h]
  unfold reply shows
  rw [h]
  split_ifs
  all_goals first | rfl | simp [hinvalid]

theorem prompt_fits : prompt.Fits := Plain.fits _

theorem entry_fits : entry.Fits := say_fits (by decide) (Plain.fit _)

theorem promptTurn.eq (was : Bool) (keys : List U8) :
    promptTurn fuel was (k, keys) = k.klog.call fuel prompt >>= fun klog =>
      inputLoop fuel keys Input.prompt klog >>= fun r =>
      match r.1 with
      | none => ok (.leave (none, { k with klog := r.2.2 }))
      | some keys =>
        strcmp r.2.1.input_buffer.toList (literal "exit") >>= fun v =>
        if v = 0 then
          ok (.leave (some keys, { k with
            klog := r.2.2
            kernelSched := if was then k.kernelSched.EnableScheduling else k.kernelSched }))
        else process fuel r.2.1.input_buffer.toList { k with klog := r.2.2 } >>= fun klog =>
          ok (.next ({ k with klog }, keys)) := rfl

/-- A turn with no newline to come. -/
theorem promptTurn.waits (was : Bool) {line : List U8} (hline : newline ∉ line)
    (hl : k.klog.Gave u fuel o) : ∃ l', promptTurn fuel was (k, line) =
        ok (.leave (none, { k with klog := l' })) ∧
      l'.Gave u fuel (shows o (prompt :: line.flatMap echo)) := by
  rcases call.spec hl prompt_fits with ⟨l₁, hprompt, hl₁⟩
  rcases inputLoop.spec hline [] prompt_follows rfl hl₁ with ⟨s', l', hrun, -, -, hl'⟩
  refine ⟨l', ?_, ?_⟩
  · rw [List.append_nil] at hrun
    rw [promptTurn.eq, hprompt, bind_ok, hrun]
    rfl
  · rw [← List.singleton_append, shows_append, shows_singleton]
    exact hl'

/-- A turn with a line: the debugger is left, or the next turn is behind the reply. -/
theorem promptTurn.line (hk : k.Sound) (was : Bool) {line : List U8} (hline : newline ∉ line)
    (rest : List U8) (hl : k.klog.Gave u fuel o) :
    (entered line = chars "exit" → ∃ l', promptTurn fuel was (k, line ++ newline :: rest) =
        ok (.leave (some rest, { k with
          klog := l'
          kernelSched := if was then k.kernelSched.EnableScheduling else k.kernelSched })) ∧
      l'.Gave u fuel (shows o (prompt :: line.flatMap echo ++ [.WriteChar newline]))) ∧
    (entered line ≠ chars "exit" → ∃ l', promptTurn fuel was (k, line ++ newline :: rest) =
        ok (.next ({ k with klog := l' }, rest)) ∧
      l'.Gave u fuel (shows o (prompt :: line.flatMap echo ++
        .WriteChar newline :: reply k (lineString line)))) := by
  rcases call.spec hl prompt_fits with ⟨l₁, hprompt, hl₁⟩
  rcases inputLoop.spec hline (newline :: rest) prompt_follows rfl hl₁ with
    ⟨s', l₂, hrun, hs', hcommand, hl₂⟩
  rw [List.nil_append] at hs' hcommand
  rcases WriteChar.spec hl₂ newline with ⟨l₃, hwrite, hl₃⟩
  have hinput : inputLoop fuel (newline :: rest) s' l₂ = ok (some rest, s', l₃) := by
    rw [inputLoop, if_pos rfl, hwrite, bind_ok]
  have hshown : l₃.Gave u fuel (shows o (prompt :: line.flatMap echo ++ [.WriteChar newline])) := by
    rw [← List.singleton_append, shows_append, shows_append, shows_singleton, shows_singleton]
    exact hl₃
  -- the buffer as a string
  have hmark := mem_buffer hs'
  have htext : (terminated _ hmark).text = entered line := hcommand
  have hlt : (terminated _ hmark).text.length < 100 := command_lt hs'
  have hexit : isPlain "exit" = true ∧ "exit".length < 100 := by decide
  rcases strcmp.literal hlt hexit with ⟨v, hcompare, hv⟩
  rw [terminated_memory] at hcompare
  rw [htext] at hv
  rw [promptTurn.eq, hprompt, bind_ok, hrun, hinput, bind_ok]
  dsimp only
  rw [hcompare, bind_ok]
  constructor
  · intro h
    exact ⟨l₃, if_pos (hv.mpr h), hshown⟩
  · intro h
    have hsound : System.Sound { k with klog := l₃ } := ⟨hk.pmm, hk.drivers, hk.threads, hk.names⟩
    have hprocess := process.eq fuel hsound hlt
    rw [terminated_memory] at hprocess
    rcases calls.spec hshown (reply_fits hsound (terminated _ hmark)) with ⟨l', hreply, hl'⟩
    refine ⟨l', ?_, ?_⟩
    · rw [if_neg (hv.not.mpr h), hprocess, hreply, bind_ok]
    · have hsame := shows_reply (o := shows o (prompt :: line.flatMap echo ++ [.WriteChar newline])) (k := k)
        (htext.trans (lineString_text hcommand).symm)
      rw [List.append_cons, shows_append, ← hsame]
      exact hl'

/-! ## The loops -/

/-- The machine on a line and what is behind it. -/
theorem Place.of_newline {line : List U8} (h : newline ∉ line) (rest : List U8) (k : System) :
    (inside []).after (line ++ newline :: rest) = ((inside line).key newline).after rest ∧
      (inside []).transcript k (line ++ newline :: rest) =
        line.flatMap echo ++ ((inside line).calls k newline ++
          ((inside line).key newline).transcript k rest) := by
  rcases of_line h k [] with ⟨hafter, htranscript⟩
  rw [after_append, transcript_append, hafter, htranscript]
  exact ⟨rfl, rfl⟩

/-- The outer loop takes the keys up to the first newline behind `exit`, or all of them. -/
theorem session.spec (hk : k.Sound) (was : Bool) {keys : List U8} {turns : Nat}
    (hturns : keys.length < turns) (hl : l.Gave u fuel o) :
    (∃ used rest l', keys = used ++ rest ∧ (Place.inside []).after used = .outside ∧
      loop (promptTurn fuel was) turns ({ k with klog := l }, keys) = ok (some rest, { k with
        klog := l'
        kernelSched := if was then k.kernelSched.EnableScheduling else k.kernelSched }) ∧
      l'.Gave u fuel (shows o (prompt :: (Place.inside []).transcript k used))) ∨
    (∃ line l', (Place.inside []).after keys = .inside line ∧
      loop (promptTurn fuel was) turns ({ k with klog := l }, keys) = ok (none, { k with klog := l' }) ∧
      l'.Gave u fuel (shows o (prompt :: (Place.inside []).transcript k keys))) := by
  induction turns generalizing keys l o with
  | zero => omega
  | succ turns ih =>
    have hsound : System.Sound { k with klog := l } := ⟨hk.pmm, hk.drivers, hk.threads, hk.names⟩
    by_cases hmem : newline ∈ keys
    · rcases List.eq_append_cons_of_mem hmem with ⟨line, rest, rfl, hline⟩
      rcases promptTurn.line hsound was hline rest hl with ⟨hexit, hgoes⟩
      by_cases h : entered line = chars "exit"
      · rcases hexit h with ⟨l', hturn, hl'⟩
        rcases Place.of_newline hline [] k with ⟨hafter, htranscript⟩
        have hkey : (Place.inside line).key newline = .outside := by
          rw [Place.key, if_pos rfl, if_pos h]
        have hcalls : (Place.inside line).calls k newline = [.WriteChar newline] := by
          rw [Place.calls, if_pos rfl, if_pos h]
        refine Or.inl ⟨line ++ [newline], rest, l', by simp, ?_, loop_leave hturn, ?_⟩
        · rw [hafter, hkey]
          rfl
        · rw [htranscript, hkey, hcalls]
          exact hl'
      · rcases hgoes h with ⟨l₁, hturn, hl₁⟩
        rw [loop_next hturn]
        have hkey : (Place.inside line).key newline = .inside [] := by
          rw [Place.key, if_pos rfl, if_neg h]
        have hcalls : (Place.inside line).calls k newline =
            .WriteChar newline :: reply k (lineString line) ++ [prompt] := by
          rw [Place.calls, if_pos rfl, if_neg h]
          rfl
        -- the prompt of the next turn is what the machine shows behind the reply
        have hshows : ∀ keys, shows (shows o (prompt :: line.flatMap echo ++
              .WriteChar newline :: reply k (lineString line)))
              (prompt :: (Place.inside []).transcript k keys) =
            shows o (prompt :: (Place.inside []).transcript k (line ++ newline :: keys)) := by
          intro keys
          rw [(Place.of_newline hline keys k).2, hkey, hcalls, ← shows_append]
          simp
        rw [List.length_append, List.length_cons] at hturns
        rcases ih (show rest.length < turns by omega) hl₁ with
          ⟨used, rest', l', rfl, hafter, hrun, hl'⟩ | ⟨line', l', hafter, hrun, hl'⟩
        · refine Or.inl ⟨line ++ newline :: used, rest', l', by simp, ?_, hrun, ?_⟩
          · rw [(Place.of_newline hline used k).1, hkey, hafter]
          · rw [← hshows]
            exact hl'
        · refine Or.inr ⟨line', l', ?_, hrun, ?_⟩
          · rw [(Place.of_newline hline rest k).1, hkey, hafter]
          · rw [← hshows]
            exact hl'
    · rcases promptTurn.waits was hmem hl (k := { k with klog := l }) with ⟨l', hturn, hl'⟩
      rcases Place.of_line hmem k [] with ⟨hafter, htranscript⟩
      refine Or.inr ⟨_, l', hafter, loop_leave hturn, ?_⟩
      rw [htranscript]
      exact hl'

theorem Place.transcript_congr (j k : System) (h : ∀ command, reply j command = reply k command) (p : Place)
    (keys : List U8) : p.transcript j keys = p.transcript k keys := by
  induction keys generalizing p with
  | nil => rfl
  | cons c keys ih =>
    have hcalls : p.calls j c = p.calls k c := by
      unfold calls
      simp only [h]
    rw [transcript, transcript, hcalls, ih]

theorem enter.spec (hk : k.Sound) {keys : List U8} {turns : Nat} (hturns : keys.length < turns)
    (hl : k.klog.Gave u fuel o) :
    (∃ used rest l', keys = used ++ rest ∧ (Place.inside []).after used = .outside ∧
      enter fuel turns keys k = ok (some rest, { k with klog := l' }) ∧
      l'.Gave u fuel (shows o (entry :: prompt :: (Place.inside []).transcript k used))) ∨
    (∃ line l', (Place.inside []).after keys = .inside line ∧
      enter fuel turns keys k = ok (none, { k with
        klog := l'
        kernelSched := k.kernelSched.DisableScheduling }) ∧
      l'.Gave u fuel (shows o (entry :: prompt :: (Place.inside []).transcript k keys))) := by
  rcases call.spec hl entry_fits with ⟨l₁, hentry, hl₁⟩
  have hsound : System.Sound { k with kernelSched := k.kernelSched.DisableScheduling } :=
    ⟨hk.pmm, hk.drivers, hk.threads, hk.names⟩
  have hrun : enter fuel turns keys k = loop (promptTurn fuel k.kernelSched.schedulingEnabled) turns
      ({ k with klog := l₁, kernelSched := k.kernelSched.DisableScheduling }, keys) := by
    have hentry' : k.klog.Log fuel (literal "debug") (literal "Entered kernel debugger!") [] = ok l₁ := hentry
    unfold enter
    rw [hentry']
    rfl
  have hback : (if k.kernelSched.schedulingEnabled then k.kernelSched.DisableScheduling.EnableScheduling
      else k.kernelSched.DisableScheduling) = k.kernelSched := by
    rcases k with ⟨klog, kernelPmm, drivers, kernelSched⟩
    rcases kernelSched with ⟨enabled⟩
    cases enabled <;> rfl
  have hsame : ∀ keys, (Place.inside []).transcript
      { k with kernelSched := k.kernelSched.DisableScheduling } keys = (Place.inside []).transcript k keys :=
    Place.transcript_congr { k with kernelSched := k.kernelSched.DisableScheduling } k (fun _ => rfl) _
  have hshows : ∀ cs, shows (o.acts entry.acts) cs = shows o (entry :: cs) := by
    intro cs
    rw [← List.singleton_append, shows_append, shows_singleton]
  rcases session.spec hsound k.kernelSched.schedulingEnabled hturns hl₁ with
    ⟨used, rest, l', rfl, hafter, hloop, hl'⟩ | ⟨line, l', hafter, hloop, hl'⟩
  · refine Or.inl ⟨used, rest, l', rfl, hafter, ?_, ?_⟩
    · rw [hrun, hloop, hback]
    · rw [hshows, hsame] at hl'
      exact hl'
  · refine Or.inr ⟨line, l', hafter, ?_, ?_⟩
    · rw [hrun, hloop]
    · rw [hshows, hsame] at hl'
      exact hl'

theorem readTurn.run (hk : k.Sound) {keys : List U8} {n turns : Nat} (hn : keys.length < n)
    (hturns : keys.length < turns) (hl : l.Gave u fuel o) :
    ∃ l', loop (readTurn fuel turns) n ({ k with klog := l }, keys) = ok { k with
        klog := l'
        kernelSched := (Place.outside.after keys).sched k.kernelSched } ∧
      l'.Gave u fuel (shows o (Place.outside.transcript k keys)) := by
  induction n generalizing keys l o with
  | zero => omega
  | succ n ih =>
    cases keys with
    | nil => exact ⟨l, loop_leave rfl, hl⟩
    | cons c keys =>
      rw [List.length_cons] at hn hturns
      by_cases htilde : c = tilde
      · subst htilde
        have hkey : Place.outside.key tilde = .inside [] := by rw [Place.key, if_pos rfl]
        have hcalls : Place.outside.calls k tilde = [entry, prompt] := by rw [Place.calls, if_pos rfl]
        have hsound : System.Sound { k with klog := l } := ⟨hk.pmm, hk.drivers, hk.threads, hk.names⟩
        have hshows : ∀ keys, shows o (entry :: prompt :: (Place.inside []).transcript { k with klog := l } keys) =
            shows o (Place.outside.transcript k (tilde :: keys)) := by
          intro keys
          have hsame : (Place.inside []).transcript { k with klog := l } keys =
            (Place.inside []).transcript k keys := Place.transcript_congr { k with klog := l } k (fun _ => rfl) _ _
          rw [Place.transcript, hcalls, hkey, hsame]
          rfl
        have hafter : ∀ keys, Place.outside.after (tilde :: keys) = (Place.inside []).after keys := by
          intro keys
          show (Place.outside.key tilde).after keys = _
          rw [hkey]
        rcases enter.spec hsound (show keys.length < turns by omega) hl with
          ⟨used, rest, l₁, rfl, hplace, henter, hl₁⟩ | ⟨line, l', hplace, henter, hl'⟩
        · -- the debugger is left, and the thread goes on with the rest of the keys
          have hturn : readTurn fuel turns ({ k with klog := l }, tilde :: (used ++ rest)) =
              ok (.next ({ k with klog := l₁ }, rest)) := by
            unfold readTurn
            dsimp only
            rw [if_pos rfl, henter]
            rfl
          rw [List.length_append] at hn hturns
          rw [hshows] at hl₁
          rcases ih (show rest.length < n by omega) (by omega) hl₁ with ⟨l', hrun, hl'⟩
          refine ⟨l', ?_, ?_⟩
          · rw [loop_next hturn, hrun, hafter, Place.after_append, hplace]
          · rw [← List.cons_append, Place.transcript_append, hafter, hplace, shows_append]
            exact hl'
        · refine ⟨l', ?_, ?_⟩
          · have hturn : readTurn fuel turns ({ k with klog := l }, tilde :: keys) =
                ok (.leave { k with klog := l', kernelSched := k.kernelSched.DisableScheduling }) := by
              unfold readTurn
              dsimp only
              rw [if_pos rfl, henter]
              rfl
            rw [loop_leave hturn, hafter, hplace]
            rfl
          · rw [← hshows]
            exact hl'
      · have hkey : Place.outside.key c = .outside := if_neg htilde
        have hcalls : Place.outside.calls k c = echo c := if_neg htilde
        have hturn : ∃ l₁, readTurn fuel turns ({ k with klog := l }, c :: keys) =
            ok (.next ({ k with klog := l₁ }, keys)) ∧ l₁.Gave u fuel (shows o (echo c)) := by
          unfold readTurn echo
          dsimp only
          rw [if_neg htilde]
          by_cases hzero : c = 0
          · rw [if_neg (not_not.mpr hzero), if_pos hzero]
            exact ⟨l, rfl, hl⟩
          · rcases WriteChar.spec hl c with ⟨l₁, hwrite, hl₁⟩
            rw [if_pos hzero, if_neg hzero, hwrite]
            exact ⟨l₁, rfl, hl₁⟩
        rcases hturn with ⟨l₁, hturn, hl₁⟩
        rcases ih (show keys.length < n by omega) (by omega) hl₁ with ⟨l', hrun, hl'⟩
        refine ⟨l', ?_, ?_⟩
        · rw [loop_next hturn, hrun]
          show _ = ok { k with
            klog := l'
            kernelSched := ((Place.outside.key c).after keys).sched k.kernelSched }
          rw [hkey]
        · rw [Place.transcript, hcalls, hkey, shows_append]
          exact hl'

/-! ## The law -/

/-- Over all keys: the thread and the debugger are one machine that takes a key at a
time. Outside, a key is shown; `~` enters. Inside, a line is answered by its
command, and `exit` leaves. The line carries nothing else, no state but the flag of
the scheduler changes, and the flag is what it was whenever the debugger is left.
While it is not, no tick switches threads. -/
theorem the_keys_drive_one_machine (hk : k.Sound) (hl : k.klog.Gave u fuel o) (hleft : o.page.left = 0)
    {keys : List U8} {turns : Nat} (hturns : keys.length < turns) :
    ∃ k' s, thread_read_keyboard fuel turns keys k = ok k' ∧ k'.klog.m_serialOutDevice = some s ∧
      s.uart.lost = u.lost ∧
      s.uart.sent = u.sent ++ (o.bytes ++
        (Place.outside.transcript k keys).flatMap Call.line).map (Uart16550.Frame.mk 3 0x03) ∧
      k'.kernelPmm = k.kernelPmm ∧ k'.kernelDriverRegistry = k.kernelDriverRegistry ∧
      k'.kernelSched = (Place.outside.after keys).sched k.kernelSched ∧
      ∀ line, Place.outside.after keys = .inside line →
        k'.kernelSched.Schedule = ok (none, k'.kernelSched) := by
  rcases readTurn.run hk hturns hturns hl with ⟨l', hrun, ⟨s, hs, hsent, -⟩, -⟩
  unfold shows at hsent
  rw [log.Output.acts_eq] at hsent
  dsimp only at hsent
  rw [hleft, wire_calls] at hsent
  refine ⟨_, s, hrun, hs, hsent.lost, hsent.sent, rfl, rfl, rfl, fun line hinside => ?_⟩
  dsimp only
  rw [hinside]
  exact if_pos rfl

/-- Two threads, one of them Ready, with a driver and eight frames. -/
def typing : System where
  klog := log.booting
  kernelPmm := pmm.eightFrames
  kernelDriverRegistry := ⟨[some ⟨"ps2"⟩]⟩
  kernelSched := { Scheduler.static with
    schedulingEnabled := true
    currentThread := idleThread
    threads := [idleThread, 2]
    thread := fun t => ⟨0, if t = idleThread then .Running else .Ready, "k/keyboard", t, 0⟩ }

theorem typing_sound : typing.Sound := by
  refine ⟨pmm.eightFrames_ready, by simp [typing], by simp [typing, nullptr, idleThread], fun t _ => ?_⟩
  show (string "k/keyboard").text.length < 2 ^ 31
  decide

/-- `a`, `~`, `threads`, `exit`, and `b` behind it. -/
def typedKeys : List U8 := chars "a~threads\nexit\nb"

theorem the_keys_drive_one_machine_of_a_session :
    ∃ k' s, thread_read_keyboard 4 20 typedKeys typing = ok k' ∧ k'.klog.m_serialOutDevice = some s ∧
      s.uart.lost = log.slowLine.lost ∧
      s.uart.sent = log.slowLine.sent ++ ([] ++
        (Place.outside.transcript typing typedKeys).flatMap Call.line).map (Uart16550.Frame.mk 3 0x03) ∧
      k'.kernelPmm = typing.kernelPmm ∧ k'.kernelDriverRegistry = typing.kernelDriverRegistry ∧
      k'.kernelSched = (Place.outside.after typedKeys).sched typing.kernelSched ∧
      ∀ line, Place.outside.after typedKeys = .inside line →
        k'.kernelSched.Schedule = ok (none, k'.kernelSched) :=
  the_keys_drive_one_machine typing_sound (log.booting_boots.gave (by decide) fun _ => Nat.lt_succ_self 3) rfl
    (by decide)

end lobo.debugger
