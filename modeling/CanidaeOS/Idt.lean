-- The interrupt descriptor table (`interrupts.h`, `interrupts.cpp`): its
-- entries in memory, and how `init_idt` fills it and sets up the interrupt
-- controllers.
import CanidaeOS.InterruptStubs
import CanidaeOS.Pic8259
import CanidaeOS.Libc

open Machine X86 Pic8259 libc

namespace lobo

/-! ## Entries -/

structure idt_table_entry_t where
  offset_low : U16
  cs_selector : U16
  ist : U8
  attributes : U8
  offset_mid : U16
  offset_hi : U32
  zero_2 : U32

def idt_populate_entry (entry : U64) (cs_selector : U16) (attributes : U8) : idt_table_entry_t where
  offset_low := (entry &&& 0xFFFF).setWidth 16
  cs_selector := cs_selector
  ist := 0
  attributes := attributes
  offset_mid := ((entry &&& 0xFFFF0000) >>> 16).setWidth 16
  offset_hi := ((entry &&& 0xFFFFFFFF00000000) >>> 32).setWidth 32
  zero_2 := 0

/-- The packed structure, as the number of its 16 bytes. -/
def idt_table_entry_t.packed (e : idt_table_entry_t) : Nat :=
  e.offset_low.toNat + 256 ^ 2 * (e.cs_selector.toNat + 256 ^ 2 * (e.ist.toNat +
    256 * (e.attributes.toNat + 256 * (e.offset_mid.toNat + 256 ^ 2 * (e.offset_hi.toNat +
      256 ^ 4 * e.zero_2.toNat)))))

def idt_table_entry_t.store (e : idt_table_entry_t) (m : Memory) (a : U64) : Memory :=
  storeBytes m a 16 e.packed

/-- An entry, as the processor understands it. -/
structure Gate where
  offset : U64
  selector : U16
  ist : BitVec 3
  kind : BitVec 4
  dpl : BitVec 2
  present : Bool
deriving DecidableEq

def Gate.read (m : Memory) (a : U64) : Gate :=
  let part i k := loadBytes m (a + BitVec.ofNat 64 i) k
  let attributes := BitVec.ofNat 8 (part 5 1)
  { offset := BitVec.ofNat 64 (part 0 2 + 2 ^ 16 * part 6 2 + 2 ^ 32 * part 8 4)
    selector := BitVec.ofNat 16 (part 2 2)
    ist := BitVec.ofNat 3 (part 4 1)
    kind := attributes.extractLsb' 0 4
    dpl := attributes.extractLsb' 5 2
    present := attributes.getLsbD 7 }

/-- A part of a number in memory. -/
theorem loadBytes_part (m : Memory) (a : U64) (v : Nat) {i k n : Nat} (h : i + k ≤ n)
    (hn : n ≤ 2 ^ 64) :
    loadBytes (storeBytes m a n v) (a + BitVec.ofNat 64 i) k = v / 256 ^ i % 256 ^ k := by
  induction k with
  | zero => simp [loadBytes, Nat.mod_one]
  | succ k ih =>
    have hplace : a + BitVec.ofNat 64 i + BitVec.ofNat 64 k = a + BitVec.ofNat 64 (i + k) := by
      rw [BitVec.ofNat_add, BitVec.add_assoc]
    have hoff : (a + BitVec.ofNat 64 (i + k) - a).toNat = i + k := by
      have := BitVec.toNat_ofNat (i + k) 64
      bv_omega
    rw [loadBytes, ih (by omega), hplace, storeBytes, if_pos (inRange_offset a (by omega) hn), hoff,
      BitVec.toNat_ofNat, show 2 ^ 8 = 256 by norm_num, Nat.pow_add, ← Nat.div_div_eq_div_mul,
      Nat.mod_pow_succ]

theorem Gate.read_congr {m m' : Memory} {a : U64} (h : ∀ x, InRange a 16 x → m' x = m x) :
    Gate.read m' a = Gate.read m a := by
  have hpart : ∀ i < 16, ∀ k, i + k ≤ 16 →
      loadBytes m' (a + BitVec.ofNat 64 i) k = loadBytes m (a + BitVec.ofNat 64 i) k := by
    intro i hi k hik
    refine loadBytes_congr (by omega) fun x hx => h x (inRange_of_part ?_ hx)
    rw [BitVec.toNat_ofNat]
    omega
  unfold Gate.read
  simp (disch := decide) only [hpart]

theorem low_toNat (entry : U64) : ((entry &&& 0xFFFF).setWidth 16 : U16).toNat =
    entry.toNat % 2 ^ 16 := by
  have hlow : (entry &&& 0xFFFF).toNat = entry.toNat % 2 ^ 16 := Paging.and_low_toNat entry 16 (by norm_num)
  rw [BitVec.toNat_setWidth, hlow, Nat.mod_mod]

theorem mid_toNat (entry : U64) : (((entry &&& 0xFFFF0000) >>> 16).setWidth 16 : U16).toNat =
    entry.toNat / 2 ^ 16 % 2 ^ 16 := by
  have hshift : (entry &&& 0xFFFF0000) >>> 16 = (entry >>> 16) &&& 0xFFFF :=
    BitVec.ushiftRight_and_distrib entry 0xFFFF0000 16
  rw [hshift, low_toNat, BitVec.toNat_ushiftRight, Nat.shiftRight_eq_div_pow]

theorem hi_toNat (entry : U64) : (((entry &&& 0xFFFFFFFF00000000) >>> 32).setWidth 32 : U32).toNat =
    entry.toNat / 2 ^ 32 := by
  have hshift : (entry &&& 0xFFFFFFFF00000000) >>> 32 = (entry >>> 32) &&& 0xFFFFFFFF :=
    BitVec.ushiftRight_and_distrib entry 0xFFFFFFFF00000000 32
  have hlow : ((entry >>> 32) &&& 0xFFFFFFFF).toNat = (entry >>> 32).toNat % 2 ^ 32 :=
    Paging.and_low_toNat (entry >>> 32) 32 (by norm_num)
  have := entry.isLt
  rw [BitVec.toNat_setWidth, hshift, hlow, BitVec.toNat_ushiftRight, Nat.shiftRight_eq_div_pow]
  omega

/-- An entry that is stored is the gate to its address. -/
theorem Gate.read_store (entry : U64) (m : Memory) (a : U64) :
    Gate.read ((idt_populate_entry entry 0x08 0x8E).store m a) a = ⟨entry, 0x08, 0, 0xE, 0, true⟩ := by
  have hentry := entry.isLt
  obtain ⟨low, hlow⟩ : ∃ n, n = entry.toNat % 2 ^ 16 := ⟨_, rfl⟩
  obtain ⟨mid, hmid⟩ : ∃ n, n = entry.toNat / 2 ^ 16 % 2 ^ 16 := ⟨_, rfl⟩
  obtain ⟨hi, hhi⟩ : ∃ n, n = entry.toNat / 2 ^ 32 := ⟨_, rfl⟩
  have hpacked : (idt_populate_entry entry 0x08 0x8E).packed =
      low + 2 ^ 16 * 8 + 2 ^ 40 * 0x8E + 2 ^ 48 * mid + 2 ^ 64 * hi := by
    unfold idt_table_entry_t.packed idt_populate_entry
    dsimp only
    rw [low_toNat, mid_toNat, hi_toNat, ← hlow, ← hmid, ← hhi]
    change _ + 256 ^ 2 * (8 + 256 ^ 2 * (0 + 256 * (0x8E + 256 * (_ + 256 ^ 2 * (_ + 256 ^ 4 * 0))))) = _
    ring
  generalize hv : (idt_populate_entry entry 0x08 0x8E).packed = v at hpacked
  have hoffset : low + 2 ^ 16 * mid + 2 ^ 32 * hi = entry.toNat := by omega
  obtain ⟨hlow', hmid', hhi'⟩ : low < 2 ^ 16 ∧ mid < 2 ^ 16 ∧ hi < 2 ^ 32 := by omega
  clear hlow hmid hhi
  have h48 : v / 256 ^ 6 = mid + 2 ^ 16 * hi := by omega
  have h64 : v / 256 ^ 8 = hi := by omega
  have h6 : v / 256 ^ 6 % 256 ^ 2 = mid := by omega
  have h8 : v / 256 ^ 8 % 256 ^ 4 = hi := by omega
  have hselector : v / 256 ^ 2 % 256 ^ 2 = 8 := by omega
  have hist : v / 256 ^ 4 % 256 ^ 1 = 0 := by omega
  have hattributes : v / 256 ^ 5 % 256 ^ 1 = 0x8E := by omega
  have h0 : v / 256 ^ 0 % 256 ^ 2 = low := by
    rw [pow_zero, Nat.div_one]
    omega
  unfold Gate.read idt_table_entry_t.store
  rw [hv]
  simp (disch := decide) only [loadBytes_part, h0, h6, h8, hoffset, hselector, hist,
    hattributes]
  rw [BitVec.ofNat_toNat, BitVec.setWidth_eq]
  rfl

/-! ## The table -/

/-- Where the linker puts the table, its pointer, and the stub of each
vector. -/
structure Symbols where
  table_idt : U64
  table_idt_ptr : U64
  stubAt : Nat → U64

structure Idtr where
  limit : U16
  base : U64
deriving DecidableEq

/-- The gate of a vector, if it is inside of the table. -/
def Idtr.gate (d : Idtr) (m : Memory) (v : Nat) : Option Gate :=
  if 16 * v + 15 ≤ d.limit.toNat then some (Gate.read m (d.base + BitVec.ofNat 64 (16 * v))) else none

/-- `table_idt[i] = idt_populate_entry(...)` for each of the first `n`. -/
def fillTable (s : Symbols) (m : Memory) : Nat → Memory
  | 0 => m
  | n + 1 => (idt_populate_entry (s.stubAt n) 0x08 0x8E).store (fillTable s m n)
      (s.table_idt + BitVec.ofNat 64 (16 * n))

/-- The writes that set up the interrupt controllers. -/
def picRemap : List (U16 × U8) :=
  [(0x20, 0x11), (0xA0, 0x11), (0x21, 0x20), (0xA1, 0x28), (0x21, 0x04), (0xA1, 0x02), (0x21, 0x01),
   (0xA1, 0x01), (0x21, 0x0), (0xA1, 0x0)]

structure Board where
  mem : Memory
  pics : Pair
  idtr : Idtr
  /-- `IF` -/
  interrupts : Bool

/-- `lidt [rdi]` -/
def interrupt_set_idt (idtr : U64) (b : Board) : Board :=
  { b with idtr := ⟨BitVec.ofNat 16 (loadBytes b.mem idtr 2), load64 b.mem (idtr + 2)⟩ }

/-- `init_idt`, but for its two lines of log. -/
def init_idt (s : Symbols) (b : Board) : Board :=
  let b := { b with mem := memset s.table_idt 0 (16 * 256) b.mem }
  let b := { b with pics := b.pics.outs picRemap }
  let b := { b with mem := fillTable s b.mem 48 }
  -- table_idt_ptr.address, then table_idt_ptr.limit
  let b := { b with mem := store64 b.mem (s.table_idt_ptr + 2) s.table_idt }
  let b := { b with mem := storeBytes b.mem s.table_idt_ptr 2 (16 * 256 - 1) }
  { interrupt_set_idt s.table_idt_ptr b with interrupts := true }

theorem entries_apart (s : Symbols) {i j : Nat} (hi : i < 256) (hj : j < 256) (hne : i ≠ j) :
    Apart (s.table_idt + BitVec.ofNat 64 (16 * i)) 16 (s.table_idt + BitVec.ofNat 64 (16 * j)) 16 := by
  intro x hx hx'
  unfold InRange at *
  bv_omega

theorem fillTable.spec (s : Symbols) (m : Memory) {n : Nat} (hn : n ≤ 256) {v : Nat} (hv : v < 256) :
    Gate.read (fillTable s m n) (s.table_idt + BitVec.ofNat 64 (16 * v)) =
      if v < n then ⟨s.stubAt v, 0x08, 0, 0xE, 0, true⟩
      else Gate.read m (s.table_idt + BitVec.ofNat 64 (16 * v)) := by
  induction n with
  | zero => rfl
  | succ n ih =>
    have ih := ih (by omega)
    by_cases hvn : v = n
    · subst hvn
      rw [if_pos (Nat.lt_succ_self v)]
      exact Gate.read_store _ _ _
    · have hkeep : Gate.read (fillTable s m (n + 1)) (s.table_idt + BitVec.ofNat 64 (16 * v)) =
          Gate.read (fillTable s m n) (s.table_idt + BitVec.ofNat 64 (16 * v)) :=
        Gate.read_congr fun x hx => storeBytes_frame (entries_apart s hv (by omega) hvn x hx)
      rw [hkeep, ih]
      by_cases hlt : v < n
      · rw [if_pos hlt, if_pos (by omega)]
      · rw [if_neg hlt, if_neg (by omega)]

/-- A gate that is not there. -/
def absent : Gate := ⟨0, 0, 0, 0, 0, false⟩

theorem memset_gate (s : Symbols) (m : Memory) {v : Nat} (hv : v < 256) :
    Gate.read (memset s.table_idt 0 (16 * 256) m) (s.table_idt + BitVec.ofNat 64 (16 * v)) = absent := by
  have hzero : Gate.read (fun _ => 0) (s.table_idt + BitVec.ofNat 64 (16 * v)) = absent := by
    simp [Gate.read, loadBytes, absent]
  rw [← hzero]
  refine Gate.read_congr fun x hx => ?_
  rw [memset.spec, if_pos]
  · rfl
  · change InRange s.table_idt 4096 x
    unfold InRange at *
    bv_omega

/-- Both controllers after the writes: nothing in service, nothing masked, the
master's lines from vector 32 on and the slave's, on line 2, from 40 on. -/
def idle : Pair where
  master := ⟨0, 0, 0x20, 0x04, 0x01, .ready, false, true⟩
  slave := ⟨0, 0, 0x28, 0x02, 0x01, .ready, false, true⟩

theorem picRemap.spec {c : Pair} (hmaster : c.master.isr = 0) (hslave : c.slave.isr = 0) :
    c.outs picRemap = idle := by
  rcases c with ⟨⟨isr, imr, base, cascade, mode, phase, single, needs4⟩,
    ⟨isr', imr', base', cascade', mode', phase', single', needs4'⟩⟩
  subst hmaster hslave
  rfl

/-- What `init_idt` leaves, wherever the linker put the table and its
pointer. -/
structure Initialised (s : Symbols) (b b' : Board) : Prop where
  idtr : b'.idtr = ⟨0xFFF, s.table_idt⟩
  gates : ∀ v < 256, b'.idtr.gate b'.mem v =
    some (if v < 48 then ⟨s.stubAt v, 0x08, 0, 0xE, 0, true⟩ else absent)
  pics : b'.pics = b.pics.outs picRemap
  interrupts : b'.interrupts = true
  frame : ∀ x, ¬ InRange s.table_idt 4096 x → ¬ InRange s.table_idt_ptr 10 x → b'.mem x = b.mem x

theorem fillTable_frame (s : Symbols) (m : Memory) {n : Nat} (hn : n ≤ 256) {x : U64}
    (hx : ¬ InRange s.table_idt 4096 x) : fillTable s m n x = m x := by
  induction n with
  | zero => rfl
  | succ n ih =>
    refine (storeBytes_frame fun hx' => hx ?_).trans (ih (by omega))
    unfold InRange at *
    bv_omega

theorem init_idt.spec {s : Symbols} (hapart : Apart s.table_idt_ptr 10 s.table_idt 4096) (b : Board) :
    Initialised s b (init_idt s b) := by
  obtain ⟨m₁, hm₁⟩ : ∃ m, m = memset s.table_idt 0 (16 * 256) b.mem := ⟨_, rfl⟩
  obtain ⟨m₂, hm₂⟩ : ∃ m, m = store64 (fillTable s m₁ 48) (s.table_idt_ptr + 2) s.table_idt := ⟨_, rfl⟩
  have hmem : (init_idt s b).mem = storeBytes m₂ s.table_idt_ptr 2 (16 * 256 - 1) := by
    rw [hm₂, hm₁]
    rfl
  have hptr : ∀ x, ¬ InRange s.table_idt_ptr 10 x → (init_idt s b).mem x = fillTable s m₁ 48 x := by
    intro x hx
    rw [hmem, storeBytes_frame, hm₂, store64_frame]
    · intro hx'
      exact hx (inRange_of_part (by decide) hx')
    · intro hx'
      exact hx (by unfold InRange at *; omega)
  have hlimit : BitVec.ofNat 16 (loadBytes (init_idt s b).mem s.table_idt_ptr 2) = 0xFFF := by
    rw [hmem, loadBytes_storeBytes _ _ _ (Nat.le_refl 2) (by norm_num)]
    rfl
  have hbase : load64 (init_idt s b).mem (s.table_idt_ptr + 2) = s.table_idt := by
    rw [hmem, ← load64_store64 (fillTable s m₁ 48) (s.table_idt_ptr + 2) s.table_idt, ← hm₂]
    refine load64_congr fun x hx => storeBytes_frame fun hx' => ?_
    unfold InRange at *
    bv_omega
  have hidtr : (init_idt s b).idtr = ⟨0xFFF, s.table_idt⟩ := by
    rw [← hlimit, ← hbase]
    rfl
  refine ⟨hidtr, fun v hv => ?_, rfl, rfl, fun x hx hx' => ?_⟩
  · have hgate : Gate.read (init_idt s b).mem (s.table_idt + BitVec.ofNat 64 (16 * v)) =
        Gate.read (fillTable s m₁ 48) (s.table_idt + BitVec.ofNat 64 (16 * v)) := by
      refine Gate.read_congr fun x hx => hptr x fun hx' => hapart x hx' ?_
      unfold InRange at *
      bv_omega
    rw [hidtr, Idtr.gate, if_pos (by change 16 * v + 15 ≤ 4095; omega), hgate,
      fillTable.spec s m₁ (by norm_num) hv, hm₁, memset_gate s b.mem hv]
  · rw [hptr x hx', fillTable_frame s m₁ (by norm_num) hx, hm₁, memset.spec, if_neg]
    exact hx

/-! ## From a line to its handler -/

/-- Of the sixteen lines, `line` is the one to go first: those of the slave
come in the place of line 2. -/
def FirstLine (irr irr' : U8) (line : Nat) : Prop :=
  if line < 8 then line ≠ 2 ∧ First irr line else First irr 2 ∧ First irr' (line - 8)

/-- Controllers with nothing in service answer for the first line, with its
own vector. -/
theorem acknowledge_idle {irr irr' : U8} {line : Nat} (h : FirstLine irr irr' line) :
    (idle.acknowledge irr irr').2 = some (BitVec.ofNat 8 (32 + line)) := by
  unfold FirstLine at h
  by_cases hline : line < 8
  · rw [if_pos hline] at h
    have hreq : idle.master.request irr = some line := request_of_idle rfl rfl h.2
    have hslave : idle.master.cascade.getLsbD line = false := by
      have hne := h.1
      revert hne hline
      clear h hreq
      revert line
      decide
    rw [Pair.acknowledge, hreq]
    dsimp only
    rw [if_neg (by rw [hslave]; decide), BitVec.ofNat_add]
    rfl
  · rw [if_neg hline] at h
    have hreq : idle.master.request irr = some 2 := request_of_idle rfl rfl h.1
    have hreq' : idle.slave.request irr' = some (line - 8) := request_of_idle rfl rfl h.2
    rw [Pair.acknowledge, hreq]
    dsimp only
    rw [if_pos (by decide), if_pos (by decide), hreq']
    dsimp only
    rw [show 32 + line = 40 + (line - 8) by omega, BitVec.ofNat_add]
    rfl

/-! ## The law -/

/-- Whatever the table and the controllers held before `init_idt`: after it,
exactly the 48 vectors that have a stub have a gate, to that stub, and none of
the others has one. The first of the lines that are requested is answered for
with a vector whose gate leads to a stub that tells `interrupt_handler` the
number of that line, plus 32. -/
theorem every_line_leads_to_its_handler {s : Symbols}
    (hapart : Apart s.table_idt_ptr 10 s.table_idt 4096) {b : Board}
    (hmaster : b.pics.master.isr = 0) (hslave : b.pics.slave.isr = 0) :
    (∀ v < 256, ∃ g, (init_idt s b).idtr.gate (init_idt s b).mem v = some g ∧
      (g.present = true ↔ v < 48) ∧ (v < 48 → g = ⟨s.stubAt v, 0x08, 0, 0xE, 0, true⟩)) ∧
    ∀ irr irr' line, line < 16 → FirstLine irr irr' line → ∀ (k : Core) (resume : Bool) (back : U64),
      ∃ v g k', ((init_idt s b).pics.acknowledge irr irr').2 = some v ∧
        (init_idt s b).idtr.gate (init_idt s b).mem v.toNat = some g ∧ g.offset = s.stubAt v.toNat ∧
        Core.run back (stub v.toNat) (k.deliver (g.selector.setWidth 64) g.offset ⟨none, resume⟩) =
          some (.called .interrupt_handler leave k') ∧
        (InterruptContext.read k'.mem (k'.regs .rdi)).int_no = BitVec.ofNat 64 (32 + line) := by
  have h := init_idt.spec hapart b
  refine ⟨fun v hv => ⟨_, h.gates v hv, ?_, ?_⟩, fun irr irr' line hline hfirst k resume back => ?_⟩
  · by_cases hlt : v < 48
    · simp [hlt]
    · simp [hlt, absent]
  · intro hlt
    rw [if_pos hlt]
  · have hv : ((init_idt s b).pics.acknowledge irr irr').2 = some (BitVec.ofNat 8 (32 + line)) := by
      rw [h.pics, picRemap.spec hmaster hslave, acknowledge_idle hfirst]
    have hnumber : (BitVec.ofNat 8 (32 + line)).toNat = 32 + line := by
      rw [BitVec.toNat_ofNat]
      omega
    have hgate := h.gates (32 + line) (by omega)
    rw [if_pos (by omega)] at hgate
    obtain ⟨k', hrun, hentered⟩ := stub.delivered k (v := 32 + line) (by omega) (by omega)
      (Arrival.on_line resume (Nat.le_add_right 32 line)) ((0x08 : U16).setWidth 64)
      (s.stubAt (32 + line)) back
    refine ⟨_, _, k', hv, by rw [hnumber]; exact hgate, by rw [hnumber], ?_, ?_⟩
    · rw [hnumber, hrun, handlerOf, if_neg (by omega)]
    · rw [hentered.rdi, hentered.framed.read]
      rfl

/-- A table and a pointer, and controllers as the firmware left them. -/
def symbols : Symbols := ⟨0x104000, 0x103000, fun v => 0x101000 + BitVec.ofNat 64 (16 * v)⟩

def board : Board where
  mem _ := 0xCC
  pics := ⟨⟨0, 0xB8, 0x08, 0x04, 0x01, .ready, false, true⟩, ⟨0, 0x8E, 0x70, 0x02, 0x01, .ready, false, true⟩⟩
  idtr := ⟨0x3FF, 0⟩
  interrupts := false

theorem every_line_leads_to_its_handler_of_firmware :
    (∀ v < 256, ∃ g, (init_idt symbols board).idtr.gate (init_idt symbols board).mem v = some g ∧
      (g.present = true ↔ v < 48) ∧ (v < 48 → g = ⟨symbols.stubAt v, 0x08, 0, 0xE, 0, true⟩)) ∧
    ∀ irr irr' line, line < 16 → FirstLine irr irr' line → ∀ (k : Core) (resume : Bool) (back : U64),
      ∃ v g k', ((init_idt symbols board).pics.acknowledge irr irr').2 = some v ∧
        (init_idt symbols board).idtr.gate (init_idt symbols board).mem v.toNat = some g ∧
        g.offset = symbols.stubAt v.toNat ∧
        Core.run back (stub v.toNat) (k.deliver (g.selector.setWidth 64) g.offset ⟨none, resume⟩) =
          some (.called .interrupt_handler leave k') ∧
        (InterruptContext.read k'.mem (k'.regs .rdi)).int_no = BitVec.ofNat 64 (32 + line) :=
  every_line_leads_to_its_handler (apart_of_le (by decide) (by decide)) rfl rfl

end lobo
