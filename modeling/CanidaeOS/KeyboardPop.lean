-- A pop of the scancode queue with keyboard interrupts between its statements.
-- A scancode that comes in behind the `memmove` lands one slot too far back,
-- and the last decrement drops the last slot of the queue.
import CanidaeOS.Keyboard

open Program Machine Outcome Runs

namespace lobo.keyboard

/-! ## The steps -/

/-- The statement of `scancode_queue_pop` that comes next. -/
inductive PopStatement where
  | read_front
  | move_down
  | clear_slot
  | shrink
  | done
deriving DecidableEq

/-- The keyboard in the middle of a pop, the scancode read, and all scancodes
that were queued before the pop or came in since. `moved` and `cleared` are the
numbers of them when the `memmove` ran and when the slot was cleared. -/
structure Popping where
  kbd : keyboard
  next : PopStatement
  val : U8
  received : List U8
  moved : Nat
  cleared : Nat

inductive PopEvent where
  | statement
  | recieve (s : U8)

/-- A statement of the pop, or an interrupt between two statements. -/
inductive PopStep : Popping → PopEvent → Popping → Prop
  | read_front {d : Popping} : d.next = .read_front →
      PopStep d .statement
        { d with kbd := d.kbd.read_front.2, val := d.kbd.read_front.1, next := .move_down }
  | move_down {d : Popping} : d.next = .move_down →
      PopStep d .statement
        { d with kbd := d.kbd.move_down, moved := d.received.length, next := .clear_slot }
  | clear_slot {d : Popping} : d.next = .clear_slot →
      PopStep d .statement
        { d with kbd := d.kbd.clear_slot, cleared := d.received.length, next := .shrink }
  | shrink {d : Popping} : d.next = .shrink →
      PopStep d .statement { d with kbd := d.kbd.shrink, next := .done }
  | recieve {d : Popping} {s : U8} {k : keyboard} : d.next ≠ .read_front → d.next ≠ .done →
      d.kbd.recieve_scancode s = ok k →
      PopStep d (.recieve s) { d with kbd := k, received := d.received ++ [s] }

/-- A pop of a queue that holds `xs`, before its first statement. -/
def popOf (k : keyboard) (xs : List U8) : Popping := ⟨k, .read_front, 0, xs, 0, 0⟩

/-- The scancode popped and those left in the queue are the received ones in
order. -/
def Intact (d : Popping) : Prop := ∃ left, d.kbd.Holds left ∧ d.received = d.val :: left

/-- The queue was not full when the slot was cleared, and every scancode that
came in behind the `memmove` is the same as the last one queued before it. -/
def Unharmed (d : Popping) : Prop :=
  d.cleared < 128 ∧ ∀ s ∈ d.received.drop d.moved, (d.received.take d.moved).getLast? = some s

/-! ## The queue between the statements -/

theorem Holds.unique {k : keyboard} {xs ys : List U8} (h : k.Holds xs) (h' : k.Holds ys) :
    xs = ys := by
  have hlen : xs.length = ys.length := by rw [← h.size_toNat, ← h'.size_toNat]
  refine List.ext_getElem hlen fun i hi hi' => ?_
  rw [← h.items i hi, ← h'.items i hi']

/-- After the `memmove` the last slot still holds the last scancode, behind the
others moved down. -/
theorem move_down.holds {k : keyboard} {x y : U8} {xs : List U8} (h : k.Holds (x :: xs))
    (hy : (x :: xs).getLast? = some y) : k.move_down.Holds (xs ++ [y]) := by
  have hbound := h.bound
  rw [List.length_cons] at hbound
  have hsz : k.scancode_queue_sz = BitVec.ofNat 64 (xs.length + 1) := h.size
  obtain ⟨hsize, hmoved, _⟩ := move_down.spec (by omega) hsz
  refine ⟨by simpa using hbound, ?_, fun i hi => ?_⟩
  · rw [hsize, hsz, List.length_append, List.length_singleton]
  · rw [List.length_append, List.length_singleton] at hi
    rcases Nat.lt_succ_iff_lt_or_eq.mp hi with hlt | rfl
    · rw [hmoved i hlt, h.items (i + 1) (by simpa using hlt), List.getElem_append_left hlt]
      rfl
    · have hlast : k.object.byte (BitVec.ofNat 64 xs.length) = (x :: xs)[xs.length] :=
        h.items xs.length (by simp)
      rw [List.getLast?_eq_getElem?, List.length_cons, Nat.add_sub_cancel,
        List.getElem?_eq_getElem (by simp), Option.some.injEq] at hy
      rw [move_down.frame (by omega) hsz (by rw [BitVec.toNat_ofNat]; omega), hlast, hy]
      simp

/-- The slot behind the queue is cleared. -/
theorem clear_slot.holds {k : keyboard} {xs : List U8} (h : k.Holds xs) (hroom : xs.length < 128) :
    k.clear_slot.Holds xs := by
  have hclear : k.clear_slot = ⟨k.object.store (BitVec.ofNat 64 xs.length) 0⟩ := by
    rw [clear_slot, h.size]
  obtain ⟨hsize, hslots, _⟩ := store_slot hroom hclear
  refine ⟨h.bound, hsize.trans h.size, fun i hi => ?_⟩
  rw [hslots i (by omega), if_neg (by omega), h.items i hi]

/-- The first byte of a size of 128 is all of it. -/
theorem cleared_size {k : keyboard} (h : k.scancode_queue_sz = 128) :
    k.clear_slot.scancode_queue_sz = 0 := by
  have hsum : loadBytes k.object.byte szOffset 8 = 128 := by
    rw [← load64_toNat]
    exact congrArg BitVec.toNat h
  have hzero : loadBytes k.clear_slot.object.byte szOffset 8 = 0 := by
    simp only [loadBytes, clear_slot, h, Ram.store_byte, szOffset] at hsum ⊢
    simp at hsum ⊢
    omega
  apply BitVec.eq_of_toNat_eq
  rw [scancode_queue_sz, load64_toNat, hzero]
  rfl

theorem clear_slot.full {k : keyboard} {xs : List U8} (h : k.Holds xs) (hfull : xs.length = 128) :
    k.clear_slot.Holds [] := by
  refine ⟨by simp, cleared_size ?_, by simp⟩
  rw [h.size, hfull]
  rfl

/-- The last slot is dropped. -/
theorem shrink.holds {k : keyboard} {xs : List U8} (h : k.Holds xs) (hne : xs ≠ []) :
    k.shrink.Holds xs.dropLast := by
  have hbound := h.bound
  have hpos := List.length_pos_iff.mpr hne
  refine ⟨by rw [List.length_dropLast]; omega, ?_, fun i hi => ?_⟩
  · rw [shrink, set_sz_size, h.size, List.length_dropLast, ← BitVec.toNat_inj]
    have h1 : (1 : U64).toNat = 1 := rfl
    rw [BitVec.toNat_sub_of_le]
    · simp only [BitVec.toNat_ofNat, h1]
      omega
    · rw [BitVec.le_def, h1, BitVec.toNat_ofNat]
      omega
  · rw [List.length_dropLast] at hi
    rw [shrink, set_sz_slot _ _ (by omega), h.items i (by omega), List.getElem_dropLast]

theorem shrink.empty {k : keyboard} (h : k.Holds []) :
    k.shrink.scancode_queue_sz = 0xFFFFFFFFFFFFFFFF := by
  rw [shrink, set_sz_size, h.size]
  rfl

/-! ## Steps -/

/-- The scancodes received: `x` and `xs` up to the `memmove`, `y` the last of
them, and `late` behind it. -/
structure Split (d : Popping) (x : U8) (xs : List U8) (y : U8) (late : List U8) : Prop where
  received : d.received = x :: xs ++ late
  moved : d.moved = xs.length + 1
  last : (x :: xs).getLast? = some y
  val : d.val = x

/-- What holds before each statement. -/
def Before (d : Popping) : PopStatement → Prop
  | .read_front => d.kbd.Holds d.received ∧ d.received ≠ []
  | .move_down => d.kbd.Holds d.received ∧ d.received.head? = some d.val
  | .clear_slot => ∃ x xs y late, Split d x xs y late ∧ d.kbd.Holds (xs ++ [y] ++ late)
  | .shrink => ∃ x xs y late, Split d x xs y late ∧
      ((d.cleared < 128 ∧ d.kbd.Holds (xs ++ [y] ++ late)) ∨
        d.cleared = 128 ∧ d.kbd.Holds (d.received.drop 128) ∧ 128 ≤ d.received.length)
  | .done => ∃ x xs y late, Split d x xs y late ∧
      ((d.cleared < 128 ∧ d.kbd.Holds (xs ++ [y] ++ late).dropLast) ∨
        d.cleared = 128 ∧ ∀ left, d.kbd.Holds left → left.length + 1 ≠ d.received.length)

theorem Split.length {d : Popping} {x y : U8} {xs late : List U8} (h : Split d x xs y late) :
    (xs ++ [y] ++ late).length = d.received.length := by
  simp only [h.received, List.length_append, List.length_cons, List.length_nil]

theorem Split.recieve {d d' : Popping} {x y : U8} {xs late : List U8} (h : Split d x xs y late)
    {s : U8} (hreceived : d'.received = d.received ++ [s]) (hmoved : d'.moved = d.moved)
    (hval : d'.val = d.val) : Split d' x xs y (late ++ [s]) := by
  refine ⟨?_, hmoved.trans h.moved, h.last, hval.trans h.val⟩
  rw [hreceived, h.received, List.append_assoc]

/-- A receive that returns had a free slot. -/
theorem recieve_scancode.holds {k k' : keyboard} {xs : List U8} {s : U8} (h : k.Holds xs)
    (hcall : k.recieve_scancode s = ok k') : k'.Holds (xs ++ [s]) := by
  have hroom : xs.length < 128 := by
    obtain ⟨_, hassert, _⟩ := bind_eq_ok.mp hcall
    have hlt := assert_eq_ok.mp hassert
    rw [BitVec.lt_def, h.size_toNat] at hlt
    exact hlt
  obtain ⟨k'', hk'', hholds, _⟩ := recieve_scancode.spec h hroom s
  rw [hcall] at hk''
  cases hk''
  exact hholds

theorem before_recieve {d : Popping} {s : U8} {k : keyboard} (h : Before d d.next)
    (hread : d.next ≠ .read_front) (hdone : d.next ≠ .done)
    (hcall : d.kbd.recieve_scancode s = ok k) :
    Before { d with kbd := k, received := d.received ++ [s] } d.next := by
  cases hnext : d.next with
  | read_front => exact absurd hnext hread
  | move_down =>
    rw [hnext] at h
    obtain ⟨hholds, hhead⟩ := h
    refine ⟨recieve_scancode.holds hholds hcall, ?_⟩
    simp [hhead]
  | clear_slot =>
    rw [hnext] at h
    obtain ⟨x, xs, y, late, hsplit, hholds⟩ := h
    refine ⟨x, xs, y, late ++ [s], hsplit.recieve rfl rfl rfl, ?_⟩
    have := recieve_scancode.holds hholds hcall
    rwa [List.append_assoc] at this
  | shrink =>
    rw [hnext] at h
    obtain ⟨x, xs, y, late, hsplit, ⟨hlt, hholds⟩ | ⟨hfull, hholds, hlen⟩⟩ := h
    · refine ⟨x, xs, y, late ++ [s], hsplit.recieve rfl rfl rfl, Or.inl ⟨hlt, ?_⟩⟩
      have := recieve_scancode.holds hholds hcall
      rwa [List.append_assoc] at this
    · refine ⟨x, xs, y, late ++ [s], hsplit.recieve rfl rfl rfl, Or.inr ⟨hfull, ?_, ?_⟩⟩
      · have := recieve_scancode.holds hholds hcall
        dsimp only
        rwa [List.drop_append_of_le_length hlen]
      · simp only [List.length_append]
        omega
  | done => exact absurd hnext hdone

theorem before_step {d d' : Popping} {e : PopEvent} (h : Before d d.next) (hs : PopStep d e d') :
    Before d' d'.next := by
  cases hs with
  | read_front hnext =>
    rw [hnext] at h
    obtain ⟨hholds, hne⟩ := h
    refine ⟨⟨hholds.bound, hholds.size, hholds.items⟩, ?_⟩
    have hpos := List.length_pos_iff.mpr hne
    have hfirst : d.kbd.object.byte (BitVec.ofNat 64 0) = d.received[0] := hholds.items 0 hpos
    dsimp only
    rw [List.head?_eq_getElem?, List.getElem?_eq_getElem hpos, ← hfirst]
    rfl
  | move_down hnext =>
    rw [hnext] at h
    obtain ⟨hholds, hhead⟩ := h
    obtain ⟨xs, hreceived⟩ := List.head?_eq_some_iff.mp hhead
    obtain ⟨y, hy⟩ : ∃ y, (d.val :: xs).getLast? = some y := ⟨_, List.getLast?_eq_some_getLast (by simp)⟩
    rw [hreceived] at hholds
    refine ⟨d.val, xs, y, [], ⟨?_, ?_, hy, rfl⟩, ?_⟩
    · simp [hreceived]
    · simp [hreceived]
    · rw [List.append_nil]
      exact move_down.holds hholds hy
  | clear_slot hnext =>
    rw [hnext] at h
    obtain ⟨x, xs, y, late, hsplit, hholds⟩ := h
    have hlen := hsplit.length
    have hbound := hholds.bound
    have hsplit' : Split { d with kbd := d.kbd.clear_slot, cleared := d.received.length,
                                  next := .shrink } x xs y late :=
      ⟨hsplit.received, hsplit.moved, hsplit.last, hsplit.val⟩
    refine ⟨x, xs, y, late, hsplit', ?_⟩
    rcases Nat.lt_or_ge d.received.length 128 with hlt | hge
    · exact Or.inl ⟨hlt, clear_slot.holds hholds (by omega)⟩
    · -- the slot behind a full array is the size
      have hfull : d.received.length = 128 := by omega
      refine Or.inr ⟨hfull, ?_, hge⟩
      dsimp only
      rw [List.drop_eq_nil_of_le (by omega)]
      exact clear_slot.full hholds (by omega)
  | shrink hnext =>
    rw [hnext] at h
    obtain ⟨x, xs, y, late, hsplit, h⟩ := h
    have hsplit' : Split { d with kbd := d.kbd.shrink, next := .done } x xs y late :=
      ⟨hsplit.received, hsplit.moved, hsplit.last, hsplit.val⟩
    refine ⟨x, xs, y, late, hsplit', ?_⟩
    rcases h with ⟨hlt, hholds⟩ | ⟨hfull, hholds, hlen⟩
    · exact Or.inl ⟨hlt, shrink.holds hholds (by simp)⟩
    · refine Or.inr ⟨hfull, fun left hleft => ?_⟩
      dsimp only at hleft ⊢
      by_cases hempty : d.received.drop 128 = []
      · -- the size wrapped below zero
        rw [hempty] at hholds
        have hsize := hleft.size_toNat
        rw [shrink.empty hholds] at hsize
        have hbound := hleft.bound
        rw [← hsize] at hbound
        exact absurd hbound (by decide)
      · rw [hleft.unique (shrink.holds hholds hempty), List.length_dropLast, List.length_drop]
        have := List.length_pos_iff.mpr hempty
        rw [List.length_drop] at this
        omega
  | recieve hread hdone hcall => exact before_recieve h hread hdone hcall

/-! ## The law -/

/-- A list is its own shift by one behind `y` where it holds nothing but `y`. -/
theorem dropLast_cons_eq_iff (y : U8) (late : List U8) :
    (y :: late).dropLast = late ↔ ∀ s ∈ late, y = s := by
  induction late generalizing y with
  | nil => simp
  | cons s late ih =>
    rw [List.dropLast_cons_cons, List.cons.injEq, ih, List.forall_mem_cons]
    constructor
    · rintro ⟨rfl, h⟩
      exact ⟨rfl, h⟩
    · rintro ⟨rfl, h⟩
      exact ⟨rfl, h⟩

theorem intact_iff_unharmed {d : Popping} (hdone : Before d .done) : Intact d ↔ Unharmed d := by
  obtain ⟨x, ys, y, late, hsplit, ⟨hlt, hholds⟩ | ⟨hfull, hno⟩⟩ := hdone
  · have hlate : d.received.drop d.moved = late := by
      rw [hsplit.received, hsplit.moved]
      simp
    have hearly : d.received.take d.moved = x :: ys := by
      rw [hsplit.received, hsplit.moved]
      simp
    have hunharmed : Unharmed d ↔ ∀ s ∈ late, y = s := by
      unfold Unharmed
      simp [hlt, hlate, hearly, hsplit.last]
    rw [hunharmed, ← dropLast_cons_eq_iff]
    have hdrop : (ys ++ [y] ++ late).dropLast = ys ++ (y :: late).dropLast := by
      rw [List.append_assoc, List.singleton_append, List.dropLast_append_of_ne_nil (by simp)]
    rw [hdrop] at hholds
    constructor
    · rintro ⟨left, hleft, hreceived⟩
      rw [hsplit.received, hsplit.val, List.cons_append, List.cons.injEq] at hreceived
      rw [hleft.unique hholds] at hreceived
      exact (List.append_cancel_left hreceived.2).symm
    · intro h
      rw [h] at hholds
      refine ⟨_, hholds, ?_⟩
      rw [hsplit.received, hsplit.val, List.cons_append]
  · constructor
    · rintro ⟨left, hleft, hreceived⟩
      refine absurd ?_ (hno left hleft)
      rw [hreceived, List.length_cons]
    · rintro ⟨hlt, _⟩
      omega

theorem before_run {k : keyboard} {xs : List U8} (hk : k.Holds xs) (hne : xs ≠ [])
    {es : List PopEvent} {d : Popping} (run : Run PopStep (popOf k xs) es d) : Before d d.next :=
  run.inv (fun d => Before d d.next) (fun _ _ _ h hs => before_step h hs) ⟨hk, hne⟩

/-- For every queue that is not empty and every order of its pop's statements
with interrupts between them: the scancodes popped and left are those received,
in order, if and only if the queue was not full when the slot was cleared and
what came in behind the `memmove` equals the last scancode queued before it. -/
theorem an_interrupted_pop_is_intact {k : keyboard} {xs : List U8} (hk : k.Holds xs)
    (hne : xs ≠ []) {es : List PopEvent} {d : Popping} (run : Run PopStep (popOf k xs) es d)
    (hdone : d.next = .done) : Intact d ↔ Unharmed d := by
  have hbefore := before_run hk hne run
  rw [hdone] at hbefore
  exact intact_iff_unharmed hbefore

/-- A pop with one interrupt, right behind the `memmove`. -/
theorem interrupted {k : keyboard} {x : U8} {xs : List U8} (hk : k.Holds (x :: xs))
    (hroom : xs.length + 1 < 128) (s : U8) : ∃ d,
    Run PopStep (popOf k (x :: xs))
      [.statement, .statement, .recieve s, .statement, .statement] d ∧ d.next = .done ∧
      d.received = x :: xs ++ [s] ∧ d.moved = xs.length + 1 ∧ d.cleared = xs.length + 2 := by
  have run : Run PopStep (popOf k (x :: xs)) [.statement, .statement] _ :=
    .snoc (.single (.read_front rfl)) (.move_down rfl)
  obtain ⟨_, ys, y, late, hsplit, hholds⟩ := before_run hk (by simp) run
  have hlen := hsplit.length
  obtain ⟨k', hk', _, _⟩ := recieve_scancode.spec hholds (by rw [hlen]; exact hroom) s
  have hread : PopStatement.clear_slot ≠ .read_front := by decide
  have hdone : PopStatement.clear_slot ≠ .done := by decide
  have hlate := Run.snoc run (.recieve hread hdone hk')
  refine ⟨_, .snoc (.snoc hlate (.clear_slot rfl)) (.shrink rfl), rfl, rfl, rfl, ?_⟩
  exact List.length_append

theorem two_queued : ∃ k : keyboard, k.Holds [0x1E, 0x30] := by
  obtain ⟨k₁, _, hholds₁, _⟩ := recieve_scancode.spec static_holds (by decide) 0x1E
  obtain ⟨k₂, _, hholds₂, _⟩ := recieve_scancode.spec hholds₁ (by decide) 0x30
  exact ⟨k₂, hholds₂⟩

/-- The last scancode queued comes in again behind the `memmove`. -/
theorem an_interrupted_pop_is_intact_for_a_repeat : ∃ k d,
    Run PopStep (popOf k [0x1E, 0x30])
      [.statement, .statement, .recieve 0x30, .statement, .statement] d ∧ Intact d := by
  obtain ⟨k, hk⟩ := two_queued
  obtain ⟨d, run, hdone, hreceived, hmoved, hcleared⟩ := interrupted hk (by decide) 0x30
  refine ⟨k, d, run, (an_interrupted_pop_is_intact hk (by simp) run hdone).mpr ⟨?_, ?_⟩⟩
  · rw [hcleared]
    decide
  · rw [hreceived, hmoved]
    decide

/-- Another scancode comes in behind the `memmove`, and the pop drops it. -/
theorem an_interrupted_pop_loses_a_scancode : ∃ k d, k.Holds [0x1E, 0x30] ∧
    Run PopStep (popOf k [0x1E, 0x30])
      [.statement, .statement, .recieve 0x9E, .statement, .statement] d ∧
    d.next = .done ∧ ¬ Intact d := by
  obtain ⟨k, hk⟩ := two_queued
  obtain ⟨d, run, hdone, hreceived, hmoved, _⟩ := interrupted hk (by decide) 0x9E
  have hbefore := before_run hk (by simp) run
  rw [hdone] at hbefore
  refine ⟨k, d, hk, run, hdone, fun hintact => ?_⟩
  have hsame := ((intact_iff_unharmed hbefore).mp hintact).2
  rw [hreceived, hmoved] at hsame
  exact absurd (hsame 0x9E (by decide)) (by decide)

end lobo.keyboard
