-- What the keyboard makes of its scancodes. `getchar_async` takes scancodes
-- until one is a key pressed down, and keeps the state of the shift key between
-- calls. Together the calls give the characters of the scancodes in their
-- order, however the calls and the interrupts fall.
import CanidaeOS.Keyboard

open Program Machine Outcome Runs

namespace lobo.keyboard

/-! ## The code -/

def code (c : Char) : U8 := BitVec.ofNat 8 c.toNat

def kbdus : List U8 :=
  [0, 27] ++ ['1', '2', '3', '4', '5', '6', '7', '8', '9', '0', '-', '='].map code ++ [8, 9] ++
  ['q', 'w', 'e', 'r', 't', 'y', 'u', 'i', 'o', 'p', '[', ']'].map code ++ [10, 0] ++
  ['a', 's', 'd', 'f', 'g', 'h', 'j', 'k', 'l', ';'].map code ++ [39, 96, 0, 92] ++
  ['z', 'x', 'c', 'v', 'b', 'n', 'm', ',', '.', '/'].map code ++ [0, code '*', 0, code ' '] ++
  List.replicate 16 0 ++ [code '-', 0, 0, 0, code '+'] ++ List.replicate 177 0

def kbdus_shift : List U8 :=
  [0, 27] ++ ['!', '@', '#', '$', '%', '^', '&', '*', '(', ')', '_', '+'].map code ++ [8, 9] ++
  ['Q', 'W', 'E', 'R', 'T', 'Y', 'U', 'I', 'O', 'P', '[', ']'].map code ++ [10, 0] ++
  ['A', 'S', 'D', 'F', 'G', 'H', 'J', 'K', 'L', ':'].map code ++ [34, code '~', 0, code '|'] ++
  ['Z', 'X', 'C', 'V', 'B', 'N', 'M', '<', '>', '?'].map code ++ [0, code '*', 0, code ' '] ++
  List.replicate 16 0 ++ [code '-', 0, 0, 0, code '+'] ++ List.replicate 177 0

/-- The offset of `mod_shift_set`. -/
def shiftOffset : U64 := 136

def mod_shift_set (k : keyboard) : Bool := k.object.byte shiftOffset != 0

def set_shift (k : keyboard) (v : Bool) : keyboard :=
  { object := { k.object with
      byte := fun x => if x = shiftOffset then (if v then 1 else 0) else k.object.byte x } }

def read_scancode (k : keyboard) : U8 × keyboard :=
  if k.queue_empty = true then (0, k) else k.scancode_queue_pop

/-- One turn of `getchar_async`. A `char` is its byte. -/
def getcharTurn (k : keyboard) : Outcome Stop (Turn keyboard (U8 × keyboard)) :=
  let (sc, k) := k.read_scancode
  if sc = 0 then ok (.leave (0, k))
  else
    let sc_is_up := sc &&& 0x80 ≠ 0
    let sc := if sc_is_up then sc &&& 0x7F else sc
    let k := if sc = 0x2A then k.set_shift (!sc_is_up) else k
    if ¬ sc_is_up then
      if k.mod_shift_set = true then ok (.leave (kbdus_shift.getD (sc.signExtend 32).toNat 0, k))
      else ok (.leave (kbdus.getD (sc.signExtend 32).toNat 0, k))
    else ok (.next k)

def getchar_async (fuel : Nat) (k : keyboard) : Outcome Stop (U8 × keyboard) :=
  loop getcharTurn fuel k

/-! ## The characters of the scancodes -/

/-- The character of a key, zero for a key without one. -/
def keyOf (shift : Bool) (sc : U8) : U8 := (if shift then kbdus_shift else kbdus).getD sc.toNat 0

/-- A character that is there. -/
def nonzero (c : U8) : List U8 := if c = 0 then [] else [c]

/-- Whether shift is down, and the characters so far, after one more scancode. -/
def keyStep (s : Bool × List U8) (sc : U8) : Bool × List U8 :=
  if sc = 0x2A then (true, s.2)
  else if sc = 0xAA then (false, s.2)
  else if sc = 0 ∨ 0x80 ≤ sc then s
  else (s.1, s.2 ++ nonzero (keyOf s.1 sc))

def decode (scancodes : List U8) : Bool × List U8 := scancodes.foldl keyStep (false, [])

/-! ## The queue and the shift key -/

/-- The queue's code leaves the bytes behind the size as they are. -/
theorem set_sz_behind (k : keyboard) (v : U64) {x : U64} (hx : 136 ≤ x.toNat) :
    (k.set_sz v).object.byte x = k.object.byte x := by
  refine store64_frame _ _ _ ?_
  rw [inRange_iff (by decide)]
  simp only [szOffset, BitVec.reduceToNat]
  omega

theorem store_behind (k : keyboard) (i : Nat) (v : U8) {x : U64} (hi : i < 128)
    (hx : 136 ≤ x.toNat) : (k.object.store (BitVec.ofNat 64 i) v).byte x = k.object.byte x := by
  have hne : x ≠ BitVec.ofNat 64 i := by
    rintro rfl
    rw [BitVec.toNat_ofNat] at hx
    omega
  simp [hne]

theorem recieve_scancode.behind {k k' : keyboard} {xs : List U8} {s : U8} (h : k.Holds xs)
    (hroom : xs.length < 128) (hcall : k.recieve_scancode s = ok k') {x : U64}
    (hx : 136 ≤ x.toNat) : k'.object.byte x = k.object.byte x := by
  obtain ⟨_, _, he⟩ := bind_eq_ok.mp hcall
  cases he
  rw [h.size]
  exact (store_behind (k.set_sz _) _ _ hroom hx).trans (set_sz_behind k _ hx)

theorem scancode_queue_pop.behind {k : keyboard} {y : U8} {xs : List U8} (h : k.Holds (y :: xs))
    (hroom : xs.length + 1 < 128) {x : U64} (hx : 136 ≤ x.toNat) :
    k.scancode_queue_pop.2.object.byte x = k.object.byte x := by
  have hne : ¬ k.queue_empty = true := by
    rw [queue_empty, beq_iff_eq, ← BitVec.toNat_inj, h.size_toNat]
    simp
  have hold : k.read_front.2.scancode_queue_sz = BitVec.ofNat 64 (xs.length + 1) := h.size
  obtain ⟨hsz, _, _⟩ := move_down.spec (by omega) hold
  rw [scancode_queue_pop, if_neg hne]
  refine (set_sz_behind _ _ hx).trans ?_
  rw [clear_slot, hsz, hold]
  exact (store_behind _ _ _ hroom hx).trans (move_down.frame (by omega) hold (by omega))

theorem set_shift_holds {k : keyboard} {xs : List U8} (h : k.Holds xs) (v : Bool) :
    (k.set_shift v).Holds xs := by
  have hbyte : ∀ x : U64, x.toNat < 136 → (k.set_shift v).object.byte x = k.object.byte x := by
    intro x hx
    have hne : x ≠ shiftOffset := by
      rintro rfl
      exact absurd hx (by decide)
    exact if_neg hne
  refine ⟨h.bound, ?_, fun i hi => ?_⟩
  · rw [← h.size]
    refine size_congr fun x hx => hbyte x ?_
    rw [inRange_iff (by decide)] at hx
    exact hx.2
  · have := h.bound
    rw [← h.items i hi]
    apply hbyte
    rw [BitVec.toNat_ofNat]
    omega

@[simp] theorem set_shift_mod (k : keyboard) (v : Bool) : (k.set_shift v).mod_shift_set = v := by
  cases v <;> simp [set_shift, mod_shift_set]

theorem recieve_scancode.shift {k k' : keyboard} {xs : List U8} {s : U8} (h : k.Holds xs)
    (hroom : xs.length < 128) (hcall : k.recieve_scancode s = ok k') :
    k'.mod_shift_set = k.mod_shift_set := by
  rw [mod_shift_set, mod_shift_set, recieve_scancode.behind h hroom hcall (by decide)]

/-! ## One turn -/

theorem up_iff : ∀ sc : U8, sc &&& 0x80 ≠ 0 ↔ 0x80 ≤ sc := by decide

theorem up_shift_iff : ∀ sc : U8, 0x80 ≤ sc → (sc &&& 0x7F = 0x2A ↔ sc = 0xAA) := by decide

theorem down_index : ∀ sc : U8, ¬ 0x80 ≤ sc → (sc.signExtend 32).toNat = sc.toNat := by decide

/-- A turn takes the front of the queue, and makes of it what `keyStep` does. -/
theorem getcharTurn.spec {k : keyboard} {sc : U8} {xs : List U8} (h : k.Holds (sc :: xs))
    (hroom : xs.length + 1 < 128) : ∃ k', k'.Holds xs ∧
      ((k.getcharTurn = ok (.next k') ∧
        ∀ out, keyStep (k.mod_shift_set, out) sc = (k'.mod_shift_set, out)) ∨
      ∃ c, k.getcharTurn = ok (.leave (c, k')) ∧
        ∀ out, keyStep (k.mod_shift_set, out) sc = (k'.mod_shift_set, out ++ nonzero c)) := by
  have hne : ¬ k.queue_empty = true := by
    rw [queue_empty, beq_iff_eq, ← BitVec.toNat_inj, h.size_toNat]
    simp
  obtain ⟨hsc, hholds, _⟩ := scancode_queue_pop.spec h hroom
  have hshift : k.scancode_queue_pop.2.mod_shift_set = k.mod_shift_set := by
    rw [mod_shift_set, mod_shift_set, scancode_queue_pop.behind h hroom (by decide)]
  have hread : k.read_scancode = (sc, k.scancode_queue_pop.2) := by
    rw [read_scancode, if_neg hne, ← hsc]
  generalize k.scancode_queue_pop.2 = q at hholds hshift hread
  by_cases hzero : sc = 0
  · refine ⟨q, hholds, Or.inr ⟨0, ?_, fun out => ?_⟩⟩
    · simp [getcharTurn, hread, hzero]
    · simp [keyStep, hzero, nonzero, hshift]
  by_cases hup : 0x80 ≤ sc
  · have hbit := (up_iff sc).mpr hup
    have hnot2A : sc ≠ 0x2A := by
      rintro rfl
      exact absurd hup (by decide)
    by_cases hAA : sc = 0xAA
    · refine ⟨q.set_shift false, set_shift_holds hholds false, Or.inl ⟨?_, fun out => ?_⟩⟩
      · simp [getcharTurn, hread, hAA]
      · simp [keyStep, hAA]
    · have hnot := (not_congr (up_shift_iff sc hup)).mpr hAA
      refine ⟨q, hholds, Or.inl ⟨?_, fun out => ?_⟩⟩
      · simp only [getcharTurn, hread, if_neg hzero, hbit, if_true, if_neg hnot, not_true_eq_false,
          if_false, ne_eq, not_false_eq_true]
      · simp only [keyStep, if_neg hnot2A, if_neg hAA, if_pos (Or.inr hup : sc = 0 ∨ 0x80 ≤ sc),
          hshift]
  · have hbit : ¬ sc &&& 0x80 ≠ 0 := (not_congr (up_iff sc)).mpr hup
    have hnotAA : sc ≠ 0xAA := by
      rintro rfl
      exact hup (by decide)
    have hdown : ¬ (sc = 0 ∨ 0x80 ≤ sc) := not_or.mpr ⟨hzero, hup⟩
    by_cases h2A : sc = 0x2A
    · -- the shift key itself has no character
      refine ⟨q.set_shift true, set_shift_holds hholds true,
        Or.inr ⟨0, ?_, fun out => ?_⟩⟩
      · have hkey : kbdus_shift.getD ((0x2A : U8).signExtend 32).toNat 0 = 0 := by decide
        subst h2A
        simp only [getcharTurn, hread, if_neg hzero, if_neg hbit, if_true, if_pos hbit,
          decide_eq_false hbit, Bool.not_false, set_shift_mod, hkey]
      · simp [keyStep, h2A, nonzero]
    · refine ⟨q, hholds, Or.inr ⟨keyOf q.mod_shift_set sc, ?_, fun out => ?_⟩⟩
      · simp only [getcharTurn, hread, if_neg hzero, if_neg hbit, if_neg h2A, down_index sc hup,
          keyOf]
        rw [if_pos hbit]
        split <;> simp_all
      · simp only [keyStep, if_neg h2A, if_neg hnotAA, if_neg hdown, hshift]

/-! ## One call -/

/-- A call takes scancodes off the front, at least one where there is one, and
makes of them what `decode` does. -/
theorem getchar_async.spec {k : keyboard} {xs : List U8} (h : k.Holds xs) (hroom : xs.length < 128)
    {fuel : Nat} (hfuel : xs.length < fuel) : ∃ c k' taken rest,
      k.getchar_async fuel = ok (c, k') ∧ xs = taken ++ rest ∧ k'.Holds rest ∧
      (xs ≠ [] → taken ≠ []) ∧ ∀ out, taken.foldl keyStep (k.mod_shift_set, out) =
        (k'.mod_shift_set, out ++ nonzero c) := by
  induction xs generalizing k fuel with
  | nil =>
    obtain ⟨fuel, rfl⟩ : ∃ m, fuel = m + 1 := ⟨fuel - 1, by omega⟩
    have hempty : k.queue_empty = true := by simp [queue_empty, h.size]
    have hturn : k.getcharTurn = ok (.leave (0, k)) := by
      simp [getcharTurn, read_scancode, hempty]
    exact ⟨0, k, [], [], loop_leave hturn, rfl, h, fun hne => hne, fun out => by simp [nonzero]⟩
  | cons sc xs ih =>
    obtain ⟨fuel, rfl⟩ : ∃ m, fuel = m + 1 := ⟨fuel - 1, by omega⟩
    rw [List.length_cons] at hroom hfuel
    obtain ⟨k₁, hholds, ⟨hturn, hkey⟩ | ⟨c, hturn, hkey⟩⟩ := getcharTurn.spec h hroom
    · have hleft : xs.length < fuel := by omega
      obtain ⟨c, k', taken, rest, hcall, rfl, hrest, _, hfold⟩ := ih hholds (by omega) hleft
      refine ⟨c, k', sc :: taken, rest, (loop_next hturn).trans hcall, rfl, hrest, by simp, ?_⟩
      intro out
      rw [List.foldl_cons, hkey, hfold]
    · exact ⟨c, k₁, [sc], xs, loop_leave hturn, rfl, hholds, by simp, hkey⟩

/-! ## Runs of interrupts and calls -/

/-- The keyboard, all scancodes it received and all characters that calls
returned. -/
structure Typing where
  kbd : keyboard
  received : List U8
  returned : List U8

inductive TypingEvent where
  | recieve (s : U8)
  | getchar

inductive TypingStep : Typing → TypingEvent → Typing → Prop
  | recieve {d : Typing} {s : U8} {k : keyboard} : d.kbd.recieve_scancode s = ok k →
      TypingStep d (.recieve s) ⟨k, d.received ++ [s], d.returned⟩
  | getchar {d : Typing} {fuel : Nat} {c : U8} {k : keyboard} :
      d.kbd.getchar_async fuel = ok (c, k) →
      TypingStep d .getchar ⟨k, d.received, d.returned ++ [c]⟩

/-- The guard of a step: at most 127 scancodes are queued after a receive. -/
def belowMax (d : Typing) : TypingEvent → Prop
  | .recieve _ => d.kbd.scancode_queue_sz.toNat < 127
  | .getchar => True

/-- What every step keeps: the scancodes taken off the queue, and what was made
of them. -/
structure Decoded (d : Typing) (taken queued : List U8) : Prop where
  holds : d.kbd.Holds queued
  bound : queued.length ≤ 127
  split : d.received = taken ++ queued
  made : decode taken = (d.kbd.mod_shift_set, d.returned.filter (· ≠ 0))

theorem nonzero_eq_filter (c : U8) : nonzero c = [c].filter (· ≠ 0) := by
  by_cases hc : c = 0
  · simp [nonzero, hc]
  · rw [nonzero, if_neg hc, List.filter_cons_of_pos (by simpa using hc), List.filter_nil]

theorem decoded_recieve {d : Typing} {taken queued : List U8} {s : U8} {k : keyboard}
    (h : Decoded d taken queued) (hroom : d.kbd.scancode_queue_sz.toNat < 127)
    (hcall : d.kbd.recieve_scancode s = ok k) :
    Decoded ⟨k, d.received ++ [s], d.returned⟩ taken (queued ++ [s]) := by
  rw [h.holds.size_toNat] at hroom
  obtain ⟨k', hk', hholds, _⟩ := recieve_scancode.spec h.holds (by omega) s
  have hshift := recieve_scancode.shift h.holds (by omega) hcall
  rw [hcall] at hk'
  cases hk'
  refine ⟨hholds, ?_, ?_, ?_⟩
  · rw [List.length_append, List.length_singleton]
    omega
  · simp [h.split]
  · rw [h.made, hshift]

/-- A call, whatever its fuel, if it returns. -/
theorem decoded_getchar {d : Typing} {taken queued : List U8} {fuel : Nat} {c : U8} {k : keyboard}
    (h : Decoded d taken queued) (hcall : d.kbd.getchar_async fuel = ok (c, k)) :
    ∃ more rest, Decoded ⟨k, d.received, d.returned ++ [c]⟩ (taken ++ more) rest ∧
      queued = more ++ rest ∧ (queued ≠ [] → more ≠ []) := by
  have hbound := h.bound
  obtain ⟨c', k', more, rest, hcall', rfl, hholds, hmore, hfold⟩ :=
    getchar_async.spec h.holds (by omega) (Nat.lt_of_lt_of_le (Nat.lt_succ_self _)
      (Nat.le_max_right fuel (queued.length + 1)))
  have hsame : d.kbd.getchar_async (max fuel ((more ++ rest).length + 1)) =
      d.kbd.getchar_async fuel :=
    loop_mono (Nat.le_max_left _ _) (by
      change d.kbd.getchar_async fuel ≠ .spin
      rw [hcall]
      simp)
  rw [hsame, hcall] at hcall'
  cases hcall'
  refine ⟨more, rest, ⟨hholds, ?_, ?_, ?_⟩, rfl, hmore⟩
  · rw [List.length_append] at hbound
    omega
  · simp [h.split]
  · rw [decode, List.foldl_append]
    change more.foldl keyStep (decode taken) = _
    rw [h.made, hfold, nonzero_eq_filter, ← List.filter_append]

theorem decoded_step {d d' : Typing} {e : TypingEvent} {taken queued : List U8}
    (h : Decoded d taken queued) (hstep : Guarded belowMax TypingStep d e d') :
    ∃ taken' queued', Decoded d' taken' queued' := by
  obtain ⟨hguard, hs⟩ := hstep
  cases hs with
  | recieve hcall => exact ⟨_, _, decoded_recieve h hguard hcall⟩
  | getchar hcall =>
    obtain ⟨more, rest, h', _, _⟩ := decoded_getchar h hcall
    exact ⟨_, _, h'⟩

/-- Calls of `getchar_async` empty the queue. -/
theorem drains {d : Typing} {taken queued : List U8} (h : Decoded d taken queued) :
    ∃ count d', Run (Guarded belowMax TypingStep) d (List.replicate count .getchar) d' ∧
      d'.received = d.received ∧ d'.kbd.queue_empty = true := by
  induction hlen : queued.length using Nat.strong_induction_on generalizing d taken queued with
  | _ m ih =>
    by_cases hempty : queued = []
    · subst hempty
      exact ⟨0, d, .nil d, rfl, by simp [queue_empty, h.holds.size]⟩
    · have hbound := h.bound
      obtain ⟨c, k, _, _, hcall, _⟩ := getchar_async.spec h.holds (by omega) (Nat.lt_succ_self _)
      obtain ⟨more, rest, h', hsplit, hmore⟩ := decoded_getchar h hcall
      have hshort : rest.length < m := by
        have hpos := List.length_pos_iff.mpr (hmore hempty)
        rw [← hlen, hsplit, List.length_append]
        omega
      obtain ⟨count, d', run, hrec, hdone⟩ := ih rest.length hshort h' rfl
      refine ⟨count + 1, d', ?_, hrec, hdone⟩
      have first : Run (Guarded belowMax TypingStep) d [.getchar] _ :=
        .single ⟨trivial, .getchar hcall⟩
      exact first.trans run

/-! ## The law -/

/-- However the interrupts and the calls fall, with at most 127 scancodes
queued: where the queue is empty, the characters returned are those that
`decode` makes of the scancodes in their order, and calls lead there from every
state. -/
theorem characters_do_not_depend_on_timing {es : List TypingEvent} {d : Typing}
    (run : Run (Guarded belowMax TypingStep) ⟨static, [], []⟩ es d) :
    (d.kbd.queue_empty = true → d.returned.filter (· ≠ 0) = (decode d.received).2) ∧
    ∃ count d', Run (Guarded belowMax TypingStep) d (List.replicate count .getchar) d' ∧
      d'.kbd.queue_empty = true ∧ d'.returned.filter (· ≠ 0) = (decode d.received).2 := by
  have hstart : Decoded ⟨static, [], []⟩ [] [] := ⟨static_holds, by simp, rfl, rfl⟩
  have hrun : ∀ {es' d'}, Run (Guarded belowMax TypingStep) ⟨static, [], []⟩ es' d' →
      ∃ taken queued, Decoded d' taken queued := fun run' =>
    run'.inv (fun d => ∃ taken queued, Decoded d taken queued)
      (fun _ _ _ ⟨_, _, h⟩ hstep => decoded_step h hstep) ⟨[], [], hstart⟩
  have hempty : ∀ {es' d'}, Run (Guarded belowMax TypingStep) ⟨static, [], []⟩ es' d' →
      d'.kbd.queue_empty = true → d'.returned.filter (· ≠ 0) = (decode d'.received).2 := by
    intro es' d' run' hdone
    obtain ⟨taken, queued, h⟩ := hrun run'
    have hnil : queued = [] := by
      rw [queue_empty, beq_iff_eq, ← BitVec.toNat_inj, h.holds.size_toNat] at hdone
      exact List.length_eq_zero_iff.mp hdone
    rw [h.split, hnil, List.append_nil, h.made]
  refine ⟨hempty run, ?_⟩
  obtain ⟨taken, queued, h⟩ := hrun run
  obtain ⟨count, d', run', hrec, hdone⟩ := drains h
  refine ⟨count, d', run', hdone, ?_⟩
  rw [← hrec]
  exact hempty (run.trans run') hdone

/-- The shift key and then the `a` key, pressed before any call. -/
theorem characters_do_not_depend_on_timing_of_two_keys : ∃ d,
    Run (Guarded belowMax TypingStep) ⟨static, [], []⟩ [.recieve 0x2A, .recieve 0x1E] d ∧
    ∃ count d', Run (Guarded belowMax TypingStep) d (List.replicate count .getchar) d' ∧
      d'.kbd.queue_empty = true ∧ d'.returned.filter (· ≠ 0) = [code 'A'] := by
  obtain ⟨k₁, hk₁, hholds₁, _⟩ := recieve_scancode.spec static_holds (by decide) 0x2A
  obtain ⟨k₂, hk₂, _, _⟩ := recieve_scancode.spec hholds₁ (by decide) 0x1E
  have hroom₁ : static.scancode_queue_sz.toNat < 127 := by
    rw [static_size]
    decide
  have hroom₂ : k₁.scancode_queue_sz.toNat < 127 := by
    rw [hholds₁.size_toNat]
    decide
  have first : Run (Guarded belowMax TypingStep) ⟨static, [], []⟩ [.recieve 0x2A]
      ⟨k₁, [0x2A], []⟩ := .single ⟨hroom₁, .recieve hk₁⟩
  have run : Run (Guarded belowMax TypingStep) ⟨static, [], []⟩ [.recieve 0x2A, .recieve 0x1E]
      ⟨k₂, [0x2A, 0x1E], []⟩ := .snoc first ⟨hroom₂, .recieve hk₂⟩
  have hmade : (decode [0x2A, 0x1E]).2 = [code 'A'] := by decide
  obtain ⟨_, count, d', run', hdone, hreturned⟩ := characters_do_not_depend_on_timing run
  rw [hmade] at hreturned
  exact ⟨_, run, count, d', run', hdone, hreturned⟩

end lobo.keyboard
