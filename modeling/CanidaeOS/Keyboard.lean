-- The scancode queue of `hal::keyboard`. A pop moves the array down by one
-- and then clears the slot at the old size. In a full queue that slot is the
-- first byte of the size itself.
import CanidaeOS.Kernel
import CanidaeOS.Libc
import CanidaeOS.Runs

open Program Machine Outcome Runs

namespace lobo

/-- The object's bytes, by their offset in it: `scancode_queue` from offset 0
on, `scancode_queue_sz` right behind it. The accesses to the array are
recorded. -/
structure keyboard where
  object : Ram

namespace keyboard

/-! ## The code -/

def scancode_queue_max : U64 := 128

/-- The offset of `scancode_queue_sz`. -/
def szOffset : U64 := 128

def scancode_queue_sz (k : keyboard) : U64 := load64 k.object.byte szOffset

def set_sz (k : keyboard) (v : U64) : keyboard :=
  { object := { k.object with byte := store64 k.object.byte szOffset v } }

def queue_empty (k : keyboard) : Bool := k.scancode_queue_sz == 0

def recieve_scancode (s : U8) (k : keyboard) : Outcome Stop keyboard := do
  assert (k.scancode_queue_sz < scancode_queue_max) "scancode_queue_sz < scancode_queue_max"
  let i := k.scancode_queue_sz
  let k := k.set_sz (i + 1)
  ok { object := k.object.store i s }

/-! The statements of `scancode_queue_pop`. -/

/-- `uint8_t val = scancode_queue[0];` -/
def read_front (k : keyboard) : U8 × keyboard :=
  ((k.object.load 0).1, { object := (k.object.load 0).2 })

/-- `memmove(&scancode_queue[0], &scancode_queue[1], (scancode_queue_sz - 1));` -/
def move_down (k : keyboard) : keyboard :=
  { object := libc.memmove 0 1 (k.scancode_queue_sz - 1) k.object }

/-- `scancode_queue[scancode_queue_sz] = 0;` -/
def clear_slot (k : keyboard) : keyboard := { object := k.object.store k.scancode_queue_sz 0 }

/-- `scancode_queue_sz--;` -/
def shrink (k : keyboard) : keyboard := k.set_sz (k.scancode_queue_sz - 1)

def scancode_queue_pop (k : keyboard) : U8 × keyboard :=
  if k.queue_empty = true then (0, k)
  else (k.read_front.1, k.read_front.2.move_down.clear_slot.shrink)

/-! ## The queue as a list -/

/-- The queue holds the scancodes `xs`, the oldest first. -/
structure Holds (k : keyboard) (xs : List U8) : Prop where
  bound : xs.length ≤ 128
  size : k.scancode_queue_sz = BitVec.ofNat 64 xs.length
  items : ∀ i (h : i < xs.length), k.object.byte (BitVec.ofNat 64 i) = xs[i]

theorem Holds.size_toNat {k : keyboard} {xs : List U8} (h : k.Holds xs) :
    k.scancode_queue_sz.toNat = xs.length := by
  have := h.bound
  rw [h.size, BitVec.toNat_ofNat, Nat.mod_eq_of_lt (by omega)]

/-- A slot of the array is not a byte of the size. -/
theorem slot_not_size {i : Nat} (hi : i < 128) : ¬ InRange szOffset 8 (BitVec.ofNat 64 i) := by
  rw [inRange_iff (by decide)]
  simp only [szOffset, BitVec.toNat_ofNat, BitVec.reduceToNat]
  omega

/-- A write outside of the size's bytes keeps the size. -/
theorem size_congr {k k' : keyboard}
    (h : ∀ x, InRange szOffset 8 x → k'.object.byte x = k.object.byte x) :
    k'.scancode_queue_sz = k.scancode_queue_sz := load64_congr h

@[simp] theorem set_sz_size (k : keyboard) (v : U64) : (k.set_sz v).scancode_queue_sz = v := by
  simp [set_sz, scancode_queue_sz]

@[simp] theorem set_sz_touched (k : keyboard) (v : U64) :
    (k.set_sz v).object.touched = k.object.touched := rfl

theorem set_sz_slot (k : keyboard) (v : U64) {i : Nat} (hi : i < 128) :
    (k.set_sz v).object.byte (BitVec.ofNat 64 i) = k.object.byte (BitVec.ofNat 64 i) :=
  store64_frame _ _ _ (slot_not_size hi)

/-- A write to a slot of the array. -/
theorem store_slot {k k' : keyboard} {i : Nat} {v : U8} (hi : i < 128)
    (hk : k' = { object := k.object.store (BitVec.ofNat 64 i) v }) :
    k'.scancode_queue_sz = k.scancode_queue_sz ∧
      (∀ j < 128, k'.object.byte (BitVec.ofNat 64 j) =
        if j = i then v else k.object.byte (BitVec.ofNat 64 j)) ∧
      k'.object.touched = k.object.touched ++ [BitVec.ofNat 64 i] := by
  subst hk
  refine ⟨size_congr fun x hx => ?_, fun j hj => ?_, rfl⟩
  · have hne : x ≠ BitVec.ofNat 64 i := fun he => slot_not_size hi (he ▸ hx)
    simp [hne]
  · by_cases hji : j = i
    · simp [hji]
    · have hne : BitVec.ofNat 64 j ≠ BitVec.ofNat 64 i := by
        intro he
        have := congrArg BitVec.toNat he
        rw [BitVec.toNat_ofNat, BitVec.toNat_ofNat] at this
        omega
      simp [hji, hne]

/-- A received scancode goes to the back, through one access to the array. -/
theorem recieve_scancode.spec {k : keyboard} {xs : List U8} (h : k.Holds xs)
    (hroom : xs.length < 128) (s : U8) :
    ∃ k', k.recieve_scancode s = ok k' ∧ k'.Holds (xs ++ [s]) ∧
      k'.object.touched = k.object.touched ++ [BitVec.ofNat 64 xs.length] := by
  have hassert : k.scancode_queue_sz < scancode_queue_max := by
    rw [BitVec.lt_def, h.size_toNat]
    exact hroom
  have hcall : k.recieve_scancode s = ok
      ⟨(k.set_sz (k.scancode_queue_sz + 1)).object.store (BitVec.ofNat 64 xs.length) s⟩ := by
    rw [recieve_scancode, assert_ok _ hassert, bind_ok, h.size]
  obtain ⟨hsz, hslots, htouched⟩ := store_slot (v := s) hroom
    (rfl : _ = keyboard.mk ((k.set_sz (k.scancode_queue_sz + 1)).object.store _ s))
  refine ⟨_, hcall, ⟨?_, ?_, ?_⟩, htouched⟩
  · simp
    omega
  · rw [hsz, set_sz_size, h.size, List.length_append, List.length_singleton, BitVec.ofNat_add]
    rfl
  · intro i hi
    have hi' : i < xs.length + 1 := by simpa using hi
    rw [hslots i (by omega)]
    by_cases hlast : i = xs.length
    · simp [hlast]
    · rw [if_neg hlast, set_sz_slot _ _ (by omega), h.items i (by omega),
        List.getElem_append_left (by omega)]

theorem scancode_queue_pop.empty {k : keyboard} (h : k.Holds []) :
    k.scancode_queue_pop = (0, k) := by
  have : k.queue_empty = true := by simp [queue_empty, h.size]
  simp [scancode_queue_pop, this]

/-- The scancodes behind the first. -/
theorem size_less_one {k : keyboard} {n : Nat} (hn : n < 128)
    (hsz : k.scancode_queue_sz = BitVec.ofNat 64 (n + 1)) : (k.scancode_queue_sz - 1).toNat = n := by
  rw [hsz, BitVec.ofNat_add, BitVec.ofNat_eq_ofNat, BitVec.add_sub_cancel, BitVec.toNat_ofNat]
  omega

/-- `memmove` on `n + 1` scancodes writes the first `n` slots. -/
theorem move_down.moved {k : keyboard} {n : Nat} (hn : n < 128)
    (hsz : k.scancode_queue_sz = BitVec.ofNat 64 (n + 1)) :
    libc.Moved 0 1 n k.object k.move_down.object := by
  have h0 : (0 : U64).toNat = 0 := rfl
  have h1 : (1 : U64).toNat = 1 := rfl
  have hlen := size_less_one hn hsz
  have hd : (0 : U64).toNat + (k.scancode_queue_sz - 1).toNat ≤ 2 ^ 64 := by omega
  have hs : (1 : U64).toNat + (k.scancode_queue_sz - 1).toNat ≤ 2 ^ 64 := by omega
  have hmoved := libc.memmove.spec hd hs k.object
  rw [hlen] at hmoved
  exact hmoved

/-- The bytes from slot `n` on stay. -/
theorem move_down.frame {k : keyboard} {n : Nat} (hn : n < 128)
    (hsz : k.scancode_queue_sz = BitVec.ofNat 64 (n + 1)) {x : U64} (hx : n ≤ x.toNat) :
    k.move_down.object.byte x = k.object.byte x := by
  have h0 : (0 : U64).toNat = 0 := rfl
  have hout : ¬ InRange 0 n x := by
    rw [inRange_iff (by omega)]
    omega
  exact (move_down.moved hn hsz x).trans (if_neg hout)

/-- `memmove` on `n + 1` scancodes moves all but the first, inside the array. -/
theorem move_down.spec {k : keyboard} {n : Nat} (hn : n < 128)
    (hsz : k.scancode_queue_sz = BitVec.ofNat 64 (n + 1)) :
    k.move_down.scancode_queue_sz = k.scancode_queue_sz ∧
      (∀ i < n, k.move_down.object.byte (BitVec.ofNat 64 i) =
        k.object.byte (BitVec.ofNat 64 (i + 1))) ∧
      ∀ a ∈ k.move_down.object.touched, a ∈ k.object.touched ∨ a.toNat < 128 := by
  have h0 : (0 : U64).toNat = 0 := rfl
  have h1 : (1 : U64).toNat = 1 := rfl
  refine ⟨size_congr fun x hx => ?_, fun i hi => ?_, fun a ha => ?_⟩
  · rw [inRange_iff (by decide)] at hx
    refine move_down.frame hn hsz ?_
    simp only [szOffset, BitVec.reduceToNat] at hx
    omega
  · have hin : InRange 0 n (BitVec.ofNat 64 i) := by
      rw [inRange_iff (by omega), BitVec.toNat_ofNat]
      omega
    have hnext : (1 : U64) + (BitVec.ofNat 64 i - 0) = BitVec.ofNat 64 (i + 1) := by
      simp [BitVec.ofNat_add, BitVec.add_comm]
    rw [← hnext]
    exact (move_down.moved hn hsz _).trans (if_pos hin)
  · have hlen := size_less_one hn hsz
    rcases libc.memmove.touched _ ha with ha | ha | ha
    · exact Or.inl ha
    · rw [inRange_iff (by omega)] at ha
      exact Or.inr (by omega)
    · rw [inRange_iff (by omega)] at ha
      exact Or.inr (by omega)

/-- A pop of a queue that is not full takes the front, inside the array. -/
theorem scancode_queue_pop.spec {k : keyboard} {x : U8} {xs : List U8} (h : k.Holds (x :: xs))
    (hroom : xs.length + 1 < 128) :
    k.scancode_queue_pop.1 = x ∧ k.scancode_queue_pop.2.Holds xs ∧
      ∀ a ∈ k.scancode_queue_pop.2.object.touched, a ∈ k.object.touched ∨ a.toNat < 128 := by
  have hne : ¬ k.queue_empty = true := by
    have := h.size_toNat
    rw [queue_empty, beq_iff_eq, ← BitVec.toNat_inj, this]
    simp
  have hold : k.read_front.2.scancode_queue_sz = BitVec.ofNat 64 (xs.length + 1) := h.size
  obtain ⟨hsz, hmoved, htouched⟩ := move_down.spec (by omega) hold
  have hclear : k.read_front.2.move_down.clear_slot =
      ⟨k.read_front.2.move_down.object.store (BitVec.ofNat 64 (xs.length + 1)) 0⟩ := by
    rw [clear_slot, hsz, hold]
  obtain ⟨hsz', hslots, htouched'⟩ := store_slot hroom hclear
  rw [scancode_queue_pop, if_neg hne]
  refine ⟨h.items 0 (by simp), ⟨by omega, ?_, fun i hi => ?_⟩, fun a ha => ?_⟩
  · rw [shrink, set_sz_size, hsz', hsz, hold, BitVec.ofNat_add, BitVec.ofNat_eq_ofNat, BitVec.add_sub_cancel]
  · rw [shrink, set_sz_slot _ _ (by omega), hslots i (by omega), if_neg (by omega), hmoved i hi]
    exact h.items (i + 1) (by simpa using hi)
  · rw [shrink, set_sz_touched, htouched'] at ha
    rcases List.mem_append.mp ha with ha | ha
    · rcases htouched a ha with ha | ha
      · rcases List.mem_append.mp ha with ha | ha
        · exact Or.inl ha
        · obtain rfl := List.mem_singleton.mp ha
          exact Or.inr (by decide)
      · exact Or.inr ha
    · obtain rfl := List.mem_singleton.mp ha
      refine Or.inr ?_
      rw [BitVec.toNat_ofNat]
      omega

/-! ## Runs of receives and pops -/

/-- The keyboard, all scancodes it received and all that were popped. -/
structure Desk where
  kbd : keyboard
  received : List U8
  popped : List U8

inductive QueueEvent where
  | recieve (s : U8)
  | pop

/-- A receive is only called with fewer than 128 scancodes queued. A pop of an
empty queue takes none. -/
inductive QueueStep : Desk → QueueEvent → Desk → Prop
  | recieve {d : Desk} {s : U8} {k : keyboard} :
      d.received.length < d.popped.length + 128 → d.kbd.recieve_scancode s = ok k →
      QueueStep d (.recieve s) ⟨k, d.received ++ [s], d.popped⟩
  | pop {d : Desk} :
      QueueStep d .pop ⟨d.kbd.scancode_queue_pop.2, d.received,
        if d.kbd.queue_empty = true then d.popped
        else d.popped ++ [d.kbd.scancode_queue_pop.1]⟩

/-- The guard of a step: a pop finds at least one slot free. -/
def notFull (d : Desk) : QueueEvent → Prop
  | .recieve _ => True
  | .pop => d.kbd.scancode_queue_sz ≠ scancode_queue_max

/-- A bounded FIFO: accesses inside the array, the size in step with the
counts, and the scancodes popped in the order they came in. -/
structure Fifo (d : Desk) : Prop where
  inside : ∀ a ∈ d.kbd.object.touched, a.toNat < 128
  size : d.kbd.scancode_queue_sz.toNat + d.popped.length = d.received.length
  bound : d.kbd.scancode_queue_sz.toNat ≤ 128
  order : d.popped = d.received.take d.popped.length

/-- What every step keeps. -/
structure Kept (d : Desk) (queued : List U8) : Prop where
  holds : d.kbd.Holds queued
  split : d.received = d.popped ++ queued
  inside : ∀ a ∈ d.kbd.object.touched, a.toNat < 128

theorem Kept.fifo {d : Desk} {queued : List U8} (h : Kept d queued) : Fifo d := by
  have hsize := h.holds.size_toNat
  refine ⟨h.inside, ?_, ?_, ?_⟩
  · rw [hsize, h.split, List.length_append, Nat.add_comm]
  · rw [hsize]
    exact h.holds.bound
  · rw [h.split, List.take_left]

theorem Kept.room {d : Desk} {queued : List U8} (h : Kept d queued)
    (hroom : d.received.length < d.popped.length + 128) : queued.length < 128 := by
  rw [h.split, List.length_append] at hroom
  omega

theorem kept_recieve {d : Desk} {queued : List U8} {s : U8} {k : keyboard} (h : Kept d queued)
    (hroom : d.received.length < d.popped.length + 128)
    (hcall : d.kbd.recieve_scancode s = ok k) :
    Kept ⟨k, d.received ++ [s], d.popped⟩ (queued ++ [s]) := by
  have hlen := h.room hroom
  obtain ⟨k', hk', hholds, htouched⟩ := recieve_scancode.spec h.holds hlen s
  rw [hcall] at hk'
  cases hk'
  refine ⟨hholds, by simp [h.split], fun a ha => ?_⟩
  dsimp only at ha
  rw [htouched] at ha
  rcases List.mem_append.mp ha with ha | ha
  · exact h.inside a ha
  · obtain rfl := List.mem_singleton.mp ha
    rw [BitVec.toNat_ofNat]
    omega

theorem kept_pop {d : Desk} {queued : List U8} (h : Kept d queued)
    (hroom : d.kbd.scancode_queue_sz ≠ scancode_queue_max) :
    ∃ queued', Kept ⟨d.kbd.scancode_queue_pop.2, d.received,
      if d.kbd.queue_empty = true then d.popped
      else d.popped ++ [d.kbd.scancode_queue_pop.1]⟩ queued' := by
  have hsize := h.holds.size_toNat
  cases queued with
  | nil =>
    have hempty : d.kbd.queue_empty = true := by simp [queue_empty, h.holds.size]
    rw [scancode_queue_pop.empty h.holds, if_pos hempty]
    exact ⟨[], h⟩
  | cons x xs =>
    have hbound : xs.length + 1 ≤ 128 := h.holds.bound
    have hlt : xs.length + 1 < 128 := by
      refine Nat.lt_of_le_of_ne hbound fun he => hroom (BitVec.eq_of_toNat_eq ?_)
      rw [hsize, List.length_cons, he]
      rfl
    have hne : ¬ d.kbd.queue_empty = true := by
      rw [queue_empty, beq_iff_eq, ← BitVec.toNat_inj, hsize]
      simp
    obtain ⟨hx, hholds, htouched⟩ := scancode_queue_pop.spec h.holds hlt
    refine ⟨xs, hholds, ?_, fun a ha => (htouched a ha).elim (h.inside a) id⟩
    simp [hne, hx, h.split]

/-! ## The laws -/

/-- A queue that is never popped while it holds 128 scancodes is a bounded
FIFO, and takes another scancode whenever it holds fewer. -/
theorem a_queue_not_popped_when_full_is_a_fifo {k : keyboard}
    (hempty : k.scancode_queue_sz = 0) (hfresh : k.object.touched = []) {es : List QueueEvent}
    {d : Desk} (run : Run (Guarded notFull QueueStep) ⟨k, [], []⟩ es d) :
    Fifo d ∧ (d.received.length < d.popped.length + 128 →
      ∀ s, ∃ k', d.kbd.recieve_scancode s = ok k') := by
  have hstart : ∃ queued, Kept ⟨k, [], []⟩ queued :=
    ⟨[], ⟨by simp, hempty, by simp⟩, rfl, by simp [hfresh]⟩
  have hstep : ∀ d e d', (∃ queued, Kept d queued) → Guarded notFull QueueStep d e d' →
      ∃ queued, Kept d' queued := by
    rintro d e d' ⟨queued, h⟩ ⟨hguard, hs⟩
    cases hs with
    | recieve hroom hcall => exact ⟨_, kept_recieve h hroom hcall⟩
    | pop => exact kept_pop h hguard
  obtain ⟨queued, h⟩ := run.inv (fun d => ∃ queued, Kept d queued) hstep hstart
  refine ⟨h.fifo, fun hroom s => ?_⟩
  obtain ⟨k', hk', -⟩ := recieve_scancode.spec h.holds (h.room hroom) s
  exact ⟨k', hk'⟩

/-- A keyboard as the kernel starts with it. -/
def static : keyboard := { object := { byte := fun _ => 0, touched := [] } }

theorem static_size : static.scancode_queue_sz = 0 := load64_zero fun _ _ => rfl

theorem static_holds : static.Holds [] := ⟨by simp, static_size, by simp⟩

/-- Two keys that come in, one that is popped, a third, and one more that is popped. -/
theorem a_queue_not_popped_when_full_is_a_fifo_of_three : ∃ d,
    Run (Guarded notFull QueueStep) ⟨static, [], []⟩
      [.recieve 0x1E, .recieve 0x9E, .pop, .recieve 0x1F, .pop] d ∧
    d.received = [0x1E, 0x9E, 0x1F] ∧ d.popped = [0x1E, 0x9E] ∧ Fifo d ∧
      (d.received.length < d.popped.length + 128 → ∀ s, ∃ k', d.kbd.recieve_scancode s = ok k') := by
  obtain ⟨d, run, hreceived, hpopped⟩ : ∃ d, Run (Guarded notFull QueueStep) ⟨static, [], []⟩
      [.recieve 0x1E, .recieve 0x9E, .pop, .recieve 0x1F, .pop] d ∧
      d.received = [0x1E, 0x9E, 0x1F] ∧ d.popped = [0x1E, 0x9E] := by
    refine ⟨_, .snoc (.snoc (.snoc (.snoc (.snoc (.nil _) ⟨trivial, .recieve ?_ rfl⟩)
      ⟨trivial, .recieve ?_ rfl⟩) ⟨?_, .pop⟩) ⟨trivial, .recieve ?_ rfl⟩) ⟨?_, .pop⟩, ?_, ?_⟩
    all_goals try unfold notFull
    all_goals decide
  exact ⟨d, run, hreceived, hpopped, a_queue_not_popped_when_full_is_a_fifo static_size rfl run⟩

/-- Any number of scancodes that the queue has room for can come in. -/
theorem filled (s : U8) (n : Nat) (hn : n ≤ 128) : ∃ k,
    Run QueueStep ⟨static, [], []⟩ (List.replicate n (.recieve s)) ⟨k, List.replicate n s, []⟩ ∧
      k.Holds (List.replicate n s) := by
  induction n with
  | zero => exact ⟨static, .nil _, static_holds⟩
  | succ n ih =>
    obtain ⟨k, run, hk⟩ := ih (by omega)
    obtain ⟨k', hk', hholds, -⟩ := recieve_scancode.spec hk (by simp; omega) s
    refine ⟨k', ?_, by rw [List.replicate_succ']; exact hholds⟩
    rw [List.replicate_succ', List.replicate_succ']
    exact .snoc run (.recieve (by simp; omega) hk')

/-- A pop of a full queue writes behind the array. -/
theorem a_full_queue_loses_its_size : ∃ d,
    Run QueueStep ⟨static, [], []⟩ (List.replicate 128 (.recieve 0x1E) ++ [.pop]) d ∧
      szOffset ∈ d.kbd.object.touched ∧ ¬ Fifo d := by
  obtain ⟨k, run, hholds⟩ := filled 0x1E 128 (Nat.le_refl _)
  have hsize := hholds.size
  rw [List.length_replicate] at hsize
  have hold : k.read_front.2.scancode_queue_sz = BitVec.ofNat 64 (127 + 1) := hsize
  have hne : ¬ k.queue_empty = true := by
    rw [queue_empty, beq_iff_eq, hsize]
    decide
  obtain ⟨hsz, -, -⟩ := move_down.spec (by decide) hold
  have htouched : szOffset ∈ k.scancode_queue_pop.2.object.touched := by
    rw [scancode_queue_pop, if_neg hne, shrink, set_sz_touched, clear_slot, hsz, hold]
    exact List.mem_append_right _ (List.mem_singleton_self _)
  refine ⟨_, .snoc run .pop, htouched, fun hfifo => ?_⟩
  exact absurd (hfifo.inside _ htouched) (by decide)

end keyboard
end lobo
