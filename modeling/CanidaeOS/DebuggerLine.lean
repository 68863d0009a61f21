-- The line of the debugger's prompt (`kernel_debugger.cpp`). A backspace clears
-- the byte at the index and then takes the index back, so the character that
-- it removes stays in the buffer until the next key is typed over it.
import CanidaeOS.Kernel

open Program Machine Outcome

namespace lobo.debugger

/-! ## The code -/

def newline : U8 := 0x0A

def backspace : U8 := 0x08

/-- `input_buffer` and `input_index` of `debugger::enter`. -/
structure Input where
  input_buffer : Vector U8 100
  input_index : Int

/-- `memset(input_buffer, 0, 100)` -/
def Input.prompt : Input := ⟨Vector.replicate 100 0, 0⟩

/-- `input_buffer[i] = c` -/
def Input.store (s : Input) (i : Int) (c : U8) : Outcome Stop Input :=
  if h : 0 ≤ i ∧ i < 100 then
    ok { s with input_buffer := s.input_buffer.set i.toNat c (by omega) }
  else .stop .outside

/-- One turn of the input loop on a key that is not a newline. -/
def Input.key (s : Input) (c : U8) : Outcome Stop Input :=
  if c = backspace then do
    let s ← s.store s.input_index 0
    let input_index := s.input_index - 1
    ok { s with input_index := if input_index < 0 then 0 else input_index }
  else if c = 0 then ok s
  else do
    let input_index := if s.input_index > 98 then 98 else s.input_index
    let s ← s.store input_index c
    ok { s with input_index := input_index + 1 }

/-- The input loop on the keys in their order. It waits for a newline. -/
def gather (s : Input) : List U8 → Outcome Stop Input
  | [] => .spin
  | c :: keys =>
    if c = newline then ok s
    else do
      let s ← s.key c
      gather s keys

/-- The string that the commands are compared with. -/
def Input.command (s : Input) : List U8 := s.input_buffer.toList.takeWhile (· ≠ 0)

/-! ## The line editor -/

/-- What a key does to the line: 99 characters are the most, and a further one
replaces the last. -/
def edit (line : List U8) (c : U8) : List U8 :=
  if c = backspace then line.dropLast
  else if c = 0 then line
  else if line.length < 99 then line ++ [c]
  else line.dropLast ++ [c]

def edited (keys : List U8) : List U8 := keys.foldl edit []

/-- The last key, of those that are not 0, is a backspace that removes a
character. -/
def EndsInRemoval (keys : List U8) : Prop :=
  ∃ front, keys.filter (· ≠ 0) = front ++ [backspace] ∧ edited front ≠ []

/-! ## What the buffer holds -/

/-- The line, and the removed character that is still behind it. -/
structure Line where
  held : List U8
  behind : List U8
  behind_le : behind.length ≤ 1
  fits : held.length + behind.length ≤ 99
  nonzero : ∀ c ∈ held ++ behind, c ≠ 0

namespace Line

def empty : Line := ⟨[], [], by decide, by decide, by simp⟩

/-- A character behind others, and nothing behind it. -/
def typed (front : List U8) (c : U8) (hlength : front.length < 99) (hfront : ∀ a ∈ front, a ≠ 0)
    (hzero : c ≠ 0) : Line where
  held := front ++ [c]
  behind := []
  behind_le := by decide
  fits := by
    rw [List.length_append, List.length_singleton, List.length_nil]
    omega
  nonzero := by
    intro a ha
    rw [List.append_nil] at ha
    rcases List.mem_append.mp ha with ha | ha
    · exact hfront a ha
    · rw [List.mem_singleton.mp ha]
      exact hzero

/-- The bytes of the buffer. -/
def cells (l : Line) : List U8 :=
  l.held ++ l.behind ++ List.replicate (100 - (l.held.length + l.behind.length)) 0

/-- A byte stored behind the held characters. -/
theorem cells_set (l : Line) (c : U8) :
    l.cells.set l.held.length c = l.held ++ c :: List.replicate (99 - l.held.length) 0 := by
  obtain ⟨held, behind, hle, hfits, -⟩ := l
  unfold cells
  dsimp only at hle hfits ⊢
  rw [List.append_assoc, List.set_append_right _ _ (Nat.le_refl _), Nat.sub_self]
  cases behind with
  | nil =>
    rw [List.length_nil, Nat.add_zero] at *
    rw [show 100 - held.length = 99 - held.length + 1 by omega, List.replicate_succ]
    rfl
  | cons x behind =>
    obtain rfl : behind = [] := List.length_eq_zero_iff.mp (Nat.le_zero.mp (Nat.le_of_succ_le_succ hle))
    rw [List.length_singleton, show 100 - (held.length + 1) = 99 - held.length by omega]
    rfl

end Line

/-- The state of the loop with the line `l`. -/
def Holds (s : Input) (l : Line) : Prop :=
  s.input_index = l.held.length ∧ s.input_buffer.toList = l.cells

theorem prompt_holds : Holds Input.prompt Line.empty := by
  refine ⟨rfl, ?_⟩
  simp [Input.prompt, Line.cells, Line.empty]

theorem Input.store.spec (s : Input) {i : Nat} (hi : i < 100) (c : U8) :
    ∃ s', s.store i c = ok s' ∧ s'.input_index = s.input_index ∧
      s'.input_buffer.toList = s.input_buffer.toList.set i c := by
  have hin : 0 ≤ (i : Int) ∧ (i : Int) < 100 := by omega
  refine ⟨_, dif_pos hin, rfl, ?_⟩
  rw [Vector.toList_set, Int.toNat_natCast]

/-- A backspace: the last character is behind the line, and the byte behind it
is clear. -/
theorem key_backspace {s : Input} {l : Line} (h : Holds s l) : ∃ s' l',
    s.key backspace = ok s' ∧ Holds s' l' ∧ l'.held = l.held.dropLast ∧
      (l'.behind = [] ↔ l.held = []) := by
  obtain ⟨hindex, hbuffer⟩ := h
  have hfits := l.fits
  obtain ⟨s', hstore, hindex', hbuffer'⟩ := Input.store.spec s (i := l.held.length) (by omega) 0
  rw [hbuffer, l.cells_set] at hbuffer'
  rw [Input.key, if_pos rfl, hindex, hstore, bind_ok, hindex', hindex]
  rcases List.eq_nil_or_concat l.held with hnil | ⟨front, x, hheld⟩
  · refine ⟨_, Line.empty, rfl, ⟨?_, ?_⟩, ?_, ?_⟩
    · simp [hnil, Line.empty]
    · show s'.input_buffer.toList = _
      rw [hbuffer', hnil]
      rfl
    · simp [hnil, Line.empty]
    · simp [hnil, Line.empty]
  · rw [List.concat_eq_append] at hheld
    have hlength : l.held.length = front.length + 1 := by simp [hheld]
    refine ⟨_, ⟨front, [x], by simp, ?_, ?_⟩, rfl, ⟨?_, ?_⟩, ?_, ?_⟩
    · rw [List.length_singleton]
      omega
    · rw [← hheld]
      exact fun c hc => l.nonzero c (List.mem_append_left _ hc)
    · dsimp only
      split <;> omega
    · show s'.input_buffer.toList = front ++ [x] ++ List.replicate (100 - (front.length + 1)) 0
      rw [hbuffer', hheld, List.length_append, List.length_singleton,
        show 100 - (front.length + 1) = 99 - (front.length + 1) + 1 by omega, List.replicate_succ]
    · simp [hheld]
    · simp [hheld]

/-- A character: it ends the line, and nothing is behind it. -/
theorem key_character {s : Input} {l : Line} (h : Holds s l) {c : U8} (hback : c ≠ backspace)
    (hzero : c ≠ 0) : ∃ s' l',
    s.key c = ok s' ∧ Holds s' l' ∧ l'.held = edit l.held c ∧ l'.behind = [] := by
  obtain ⟨hindex, hbuffer⟩ := h
  have hfits := l.fits
  have hedit : edit l.held c =
      if l.held.length < 99 then l.held ++ [c] else l.held.dropLast ++ [c] := by
    rw [edit, if_neg hback, if_neg hzero]
  rw [Input.key, if_neg hback, if_neg hzero]
  by_cases hroom : l.held.length < 99
  · have hlow : ¬ (l.held.length : Int) > 98 := by omega
    obtain ⟨s', hstore, -, hbuffer'⟩ := Input.store.spec s (i := l.held.length) (by omega) c
    rw [hbuffer, l.cells_set] at hbuffer'
    rw [hindex, if_neg hlow]
    dsimp only
    rw [hstore, bind_ok]
    have hheld : ∀ a ∈ l.held, a ≠ 0 := fun a ha => l.nonzero a (List.mem_append_left _ ha)
    refine ⟨_, .typed l.held c hroom hheld hzero, rfl, ⟨?_, ?_⟩, ?_, rfl⟩
    · simp [Line.typed]
    · show s'.input_buffer.toList = _
      rw [hbuffer', Line.cells]
      simp [Line.typed, show 100 - (l.held.length + 1) = 99 - l.held.length by omega]
    · rw [hedit, if_pos hroom]
      rfl
  · -- the buffer is full, and its last character is replaced
    have hlength : l.held.length = 99 := by omega
    have hbehind : l.behind = [] := List.length_eq_zero_iff.mp (by omega)
    obtain ⟨front, x, hheld⟩ : ∃ front x, l.held = front ++ [x] := by
      rcases List.eq_nil_or_concat l.held with hnil | ⟨front, x, hheld⟩
      · rw [hnil] at hlength
        cases hlength
      · exact ⟨front, x, by rw [hheld, List.concat_eq_append]⟩
    have hfront : front.length = 98 := by
      rw [hheld, List.length_append, List.length_singleton] at hlength
      omega
    have hhigh : (l.held.length : Int) > 98 := by omega
    obtain ⟨s', hstore, -, hbuffer'⟩ := Input.store.spec s (i := 98) (by decide) c
    have hset : l.cells.set 98 c = front ++ c :: [0] := by
      rw [Line.cells, hbehind, List.length_nil, hlength, hheld, List.append_nil, List.append_assoc,
        List.set_append_right _ _ (by omega), hfront]
      rfl
    rw [hbuffer, hset] at hbuffer'
    rw [hindex, if_pos hhigh]
    dsimp only
    rw [show (98 : Int) = ((98 : Nat) : Int) from rfl, hstore, bind_ok]
    have hnonzero : ∀ a ∈ front, a ≠ 0 := fun a ha => l.nonzero a (by rw [hheld]; simp [ha])
    refine ⟨_, .typed front c (by omega) hnonzero hzero, rfl, ⟨?_, ?_⟩, ?_, rfl⟩
    · simp [Line.typed, hfront]
    · show s'.input_buffer.toList = _
      rw [hbuffer', Line.cells]
      simp [Line.typed, hfront]
    · rw [hedit, if_neg hroom, hheld, List.dropLast_concat]
      rfl

/-! ## All keys -/

theorem edited_snoc (keys : List U8) (c : U8) : edited (keys ++ [c]) = edit (edited keys) c := by
  simp [edited, List.foldl_append]

theorem filter_snoc (keys : List U8) (c : U8) :
    (keys ++ [c]).filter (· ≠ 0) = keys.filter (· ≠ 0) ++ if c = 0 then [] else [c] := by
  rw [List.filter_append]
  by_cases hc : c = 0
  · subst hc
    rfl
  · rw [if_neg hc, List.filter_cons_of_pos (by simpa using hc)]
    rfl

theorem edited_filter (keys : List U8) : edited (keys.filter (· ≠ 0)) = edited keys := by
  induction keys using List.reverseRecOn with
  | nil => rfl
  | append_singleton keys c ih =>
    rw [filter_snoc, edited_snoc]
    by_cases hc : c = 0
    · rw [if_pos hc, List.append_nil, ih, hc]
      rfl
    · rw [if_neg hc, edited_snoc, ih]

theorem removal_zero (keys : List U8) : EndsInRemoval (keys ++ [0]) ↔ EndsInRemoval keys := by
  rw [EndsInRemoval, filter_snoc, if_pos rfl, List.append_nil]
  rfl

theorem removal_backspace (keys : List U8) :
    EndsInRemoval (keys ++ [backspace]) ↔ edited keys ≠ [] := by
  have hne : backspace ≠ 0 := by decide
  unfold EndsInRemoval
  rw [filter_snoc, if_neg hne, ← edited_filter keys]
  constructor
  · rintro ⟨front, heq, hne⟩
    rw [List.append_cancel_right heq]
    exact hne
  · intro hne
    exact ⟨_, rfl, hne⟩

theorem removal_character (keys : List U8) {c : U8} (hback : c ≠ backspace) (hzero : c ≠ 0) :
    ¬ EndsInRemoval (keys ++ [c]) := by
  rintro ⟨front, heq, -⟩
  rw [filter_snoc, if_neg hzero] at heq
  have hlast := List.append_inj_right' heq rfl
  exact hback (List.cons.inj hlast).1

/-- The state of the loop behind the keys: the buffer holds the edited line,
and behind it nothing but a character that the last key removed. -/
def Follows (keys : List U8) (s : Input) : Prop :=
  ∃ l, Holds s l ∧ l.held = edited keys ∧ (l.behind = [] ↔ ¬ EndsInRemoval keys)

theorem prompt_follows : Follows [] Input.prompt := by
  refine ⟨Line.empty, prompt_holds, rfl, ?_⟩
  simp [Line.empty, EndsInRemoval]

theorem key_follows {keys : List U8} {s : Input} (h : Follows keys s) (c : U8) :
    ∃ s', s.key c = ok s' ∧ Follows (keys ++ [c]) s' := by
  obtain ⟨l, hs, hheld, hbehind⟩ := h
  unfold Follows
  rw [edited_snoc, ← hheld]
  by_cases hback : c = backspace
  · subst hback
    obtain ⟨s', l', hrun, hs', hheld', hbehind'⟩ := key_backspace hs
    refine ⟨s', hrun, l', hs', ?_, ?_⟩
    · rw [hheld', edit, if_pos rfl]
    · rw [hbehind', removal_backspace, not_not, hheld]
  · by_cases hzero : c = 0
    · subst hzero
      refine ⟨s, ?_, l, hs, ?_, ?_⟩
      · rw [Input.key, if_neg hback, if_pos rfl]
      · rw [edit, if_neg hback, if_pos rfl]
      · rw [hbehind, removal_zero]
    · obtain ⟨s', l', hrun, hs', hheld', hbehind'⟩ := key_character hs hback hzero
      refine ⟨s', hrun, l', hs', hheld', ?_⟩
      simp [hbehind', removal_character keys hback hzero]

theorem gather.spec {front keys : List U8} (hkeys : newline ∉ keys) (rest : List U8) {s : Input}
    (hs : Follows front s) :
    ∃ s', gather s (keys ++ newline :: rest) = ok s' ∧ Follows (front ++ keys) s' := by
  induction keys generalizing front s with
  | nil =>
    refine ⟨s, rfl, ?_⟩
    rw [List.append_nil]
    exact hs
  | cons c keys ih =>
    rw [List.mem_cons, not_or] at hkeys
    obtain ⟨t, hkey, ht⟩ := key_follows hs c
    obtain ⟨s', hrun, hs'⟩ := ih hkeys.2 ht
    refine ⟨s', ?_, ?_⟩
    · rw [List.cons_append, gather, if_neg (Ne.symm hkeys.1), hkey]
      exact hrun
    · rw [List.append_assoc] at hs'
      exact hs'

/-! ## The law -/

/-- The string in the buffer is the line and what is behind it. -/
theorem command_of_holds {s : Input} {l : Line} (h : Holds s l) :
    s.command = l.held ++ l.behind := by
  have hfits := l.fits
  obtain ⟨k, hk⟩ : ∃ k, 100 - (l.held.length + l.behind.length) = k + 1 :=
    ⟨99 - (l.held.length + l.behind.length), by omega⟩
  have hall : ∀ c ∈ l.held ++ l.behind, decide (c ≠ 0) = true :=
    fun c hc => decide_eq_true (l.nonzero c hc)
  rw [Input.command, h.2, Line.cells, hk, List.replicate_succ,
    List.takeWhile_append_of_pos hall, List.takeWhile_cons_of_neg (by simp), List.append_nil]

theorem gather.command {keys : List U8} (hkeys : newline ∉ keys) (rest : List U8) :
    ∃ s, gather Input.prompt (keys ++ newline :: rest) = ok s ∧
      s.command.length < 100 ∧ (s.command = edited keys ↔ ¬ EndsInRemoval keys) := by
  obtain ⟨s, hrun, l, hs, hheld, hbehind⟩ := gather.spec hkeys rest prompt_follows
  rw [List.nil_append] at hheld hbehind
  have hcommand := command_of_holds hs
  have hfits := l.fits
  refine ⟨s, hrun, ?_, ?_⟩
  · rw [hcommand, List.length_append]
    omega
  · rw [hcommand, ← hheld, ← hbehind, List.append_right_eq_self]

/-- No key takes the index out of the buffer, and the string that is compared
ends in it. It is the edited line unless the last key removed a character. -/
theorem the_command_is_the_edited_line (keys : List U8) (hkeys : newline ∉ keys)
    (rest : List U8) : ∃ s, gather Input.prompt (keys ++ newline :: rest) = ok s ∧
      s.command.length < 100 ∧ (s.command = edited keys ↔ ¬ EndsInRemoval keys) :=
  gather.command hkeys rest

/-- `exit` -/
def exitKeys : List U8 := [0x65, 0x78, 0x69, 0x74]

theorem exit_is_the_command : ∃ s, gather Input.prompt (exitKeys ++ newline :: []) = ok s ∧
    s.command.length < 100 ∧ (s.command = edited exitKeys ↔ ¬ EndsInRemoval exitKeys) :=
  the_command_is_the_edited_line exitKeys (by decide) []

/-- `exit`, one key too many, and a backspace. -/
theorem a_removed_key_stays_in_the_command :
    ¬ (gather Input.prompt (exitKeys ++ [0x74, backspace] ++ newline :: [])).Yields fun s =>
      s.command = edited (exitKeys ++ [0x74, backspace]) := by
  rintro ⟨s, hrun, heq⟩
  have hkeys : newline ∉ exitKeys ++ [0x74, backspace] := by decide
  obtain ⟨s', hrun', -, hiff⟩ := gather.command hkeys []
  rw [hrun', ok.injEq] at hrun
  subst hrun
  apply hiff.mp heq
  exact ⟨exitKeys ++ [0x74], by decide, by decide⟩

end lobo.debugger
