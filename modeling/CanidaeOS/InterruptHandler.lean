-- `interrupt_handler` (`interrupts.cpp`) and the interrupt controllers, over
-- runs of threads that are interrupted and switch. Only the timer's handler
-- turns interrupts on before it is over, and it has ended its interrupt by
-- then.
import CanidaeOS.Idt
import CanidaeOS.Runs

open Machine Pic8259 Runs

namespace lobo

/-! ## The handler -/

inductive Act where
  | outb (port : U16) (value : U8)
  | sti
  | Schedule
  /-- `kbd.on_interrupt()` -/
  | on_interrupt
  | Log (irq : U64)
deriving DecidableEq, Repr

/-- End of Interrupt to PIC (and slave) -/
def endOfInterrupt (int_no : U64) : List Act :=
  (if 40 ≤ int_no then [.outb 0xA0 0x20] else []) ++ [.outb 0x20 0x20]

/-- What the handler does, in order. `eoi_sent_early` is true in the first
branch only. -/
def interrupt_handler (int_no : U64) : List Act :=
  if int_no = 32 then endOfInterrupt int_no ++ [.sti, .Schedule]
  else if int_no = 33 then .on_interrupt :: endOfInterrupt int_no
  else .Log (int_no - 32) :: endOfInterrupt int_no

/-- The writes that are left to do. -/
def writes (as : List Act) : List (U16 × U8) :=
  as.filterMap fun
    | .outb port value => some (port, value)
    | _ => none

theorem writes_interrupt_handler (int_no : U64) : writes (interrupt_handler int_no) =
    (if 40 ≤ int_no then [(0xA0, 0x20)] else []) ++ [(0x20, 0x20)] := by
  have hend : writes (endOfInterrupt int_no) =
      (if 40 ≤ int_no then [(0xA0, 0x20)] else []) ++ [(0x20, 0x20)] := by
    unfold endOfInterrupt
    split <;> rfl
  unfold interrupt_handler
  split
  · rw [← hend, writes, List.filterMap_append]
    exact List.append_nil _
  · split <;> exact hend

/-- After `sti`, or a switch, nothing is written. -/
def Ordered : List Act → Prop
  | [] => True
  | a :: as => (a = .sti ∨ a = .Schedule → writes as = []) ∧ Ordered as

theorem interrupt_handler_ordered (int_no : U64) : Ordered (interrupt_handler int_no) := by
  unfold interrupt_handler endOfInterrupt
  split
  · split <;> simp [Ordered, writes]
  · split <;> split <;> simp [Ordered]

end lobo

namespace lobo.lines

/-! ## Threads, handlers and controllers -/

variable {ι : Type} [DecidableEq ι]

/-- What is left of each handler that a thread is in, the innermost first. -/
structure Lines (ι : Type) where
  pics : Pair
  interrupts : Bool
  current : ι
  handlers : ι → List (List Act)

def Lines.inner (w : Lines ι) : List Act := (w.handlers w.current).head?.getD []

def Lines.set_handlers (w : Lines ι) (hs : List (List Act)) : Lines ι :=
  { w with handlers := fun t => if t = w.current then hs else w.handlers t }

inductive Event (ι : Type) where
  /-- a thread executes `sti` or `cli` -/
  | code (on : Bool)
  /-- a thread calls `Yield` -/
  | yield (new : ι)
  /-- the processor acknowledges an interrupt, with these lines requested -/
  | interrupt (irr irr' : U8)
  /-- a handler does what it does next -/
  | act
  /-- a handler calls `Schedule` -/
  | schedule (new : ι)
  | iretq
deriving DecidableEq

/-- A switch changes no flag, and `iretq` brings back the flags that the
interrupt found. -/
inductive Step : Lines ι → Event ι → Lines ι → Prop
  | code {w : Lines ι} {on : Bool} : w.handlers w.current = [] →
      Step w (.code on) { w with interrupts := on }
  | yield {w : Lines ι} {new : ι} : w.handlers w.current = [] →
      Step w (.yield new) { w with current := new }
  | interrupt {w : Lines ι} {irr irr' v : U8} : w.interrupts = true →
      (w.pics.acknowledge irr irr').2 = some v →
      Step w (.interrupt irr irr')
        { w.set_handlers (interrupt_handler (v.setWidth 64) :: w.handlers w.current) with
          pics := (w.pics.acknowledge irr irr').1
          interrupts := false }
  | outb {w : Lines ι} {port : U16} {value : U8} {rest : List Act} {hs : List (List Act)} :
      w.handlers w.current = (.outb port value :: rest) :: hs →
      Step w .act { w.set_handlers (rest :: hs) with pics := w.pics.outb port value }
  | sti {w : Lines ι} {rest : List Act} {hs : List (List Act)} :
      w.handlers w.current = (.sti :: rest) :: hs →
      Step w .act { w.set_handlers (rest :: hs) with interrupts := true }
  | on_interrupt {w : Lines ι} {rest : List Act} {hs : List (List Act)} :
      w.handlers w.current = (.on_interrupt :: rest) :: hs →
      Step w .act (w.set_handlers (rest :: hs))
  | Log {w : Lines ι} {irq : U64} {rest : List Act} {hs : List (List Act)} :
      w.handlers w.current = (.Log irq :: rest) :: hs →
      Step w .act (w.set_handlers (rest :: hs))
  | schedule {w : Lines ι} {new : ι} {rest : List Act} {hs : List (List Act)} :
      w.handlers w.current = (.Schedule :: rest) :: hs →
      Step w (.schedule new) { w.set_handlers (rest :: hs) with current := new }
  | iretq {w : Lines ι} {hs : List (List Act)} : w.handlers w.current = [] :: hs →
      Step w .iretq { w.set_handlers hs with interrupts := true }

/-! ## What every step keeps -/

/-- The writes that the innermost handler still owes leave the controllers
idle. It owes some only while interrupts are off, and no other handler of any
thread owes one. -/
structure Paid (w : Lines ι) : Prop where
  owed : w.pics.outs (writes w.inner) = idle
  off : w.interrupts = true → writes w.inner = []
  outer : ∀ as ∈ (w.handlers w.current).tail, writes as = []
  others : ∀ t, t ≠ w.current → ∀ as ∈ w.handlers t, writes as = []
  ordered : ∀ t, ∀ as ∈ w.handlers t, Ordered as

/-- The writes of a handler end the interrupt that idle controllers
acknowledged for it, and one that they answered for without a request. -/
theorem acknowledge_paid {irr irr' v : U8} (h : (idle.acknowledge irr irr').2 = some v) :
    (idle.acknowledge irr irr').1.outs (writes (interrupt_handler (v.setWidth 64))) = idle := by
  have hmaster : ∀ n < 8, (40 : U64) ≤ (0x20 + BitVec.ofNat 8 n).setWidth 64 ↔ False := by decide
  have hslave : ∀ n < 8, (40 : U64) ≤ (0x28 + BitVec.ofNat 8 n).setWidth 64 ↔ True := by decide
  have hwrites : ∀ c : Pair, c.outs [(0x20, 0x20)] = { c with master := c.master.eoi } := fun _ => rfl
  have hboth : ∀ c : Pair, c.outs [(0xA0, 0x20), (0x20, 0x20)] = ⟨c.master.eoi, c.slave.eoi⟩ :=
    fun _ => rfl
  rw [writes_interrupt_handler]
  cases hreq : idle.master.request irr with
  | none =>
    simp only [Pair.acknowledge, hreq] at h ⊢
    obtain rfl : 0x27 = v := Option.some.inj h
    rfl
  | some i =>
    have hi := request_lt hreq
    have hserve : (idle.master.serve i).eoi = idle.master := eoi_serve rfl hi
    by_cases hcascade : idle.master.cascade.getLsbD i = true
    · have hlistens : idle.slave.cascade &&& 7 = BitVec.ofNat 8 i := by
        revert hcascade
        clear hserve hreq h
        revert i
        decide
      cases hreq' : idle.slave.request irr' with
      | none =>
        simp only [Pair.acknowledge, hreq, hreq', hcascade, hlistens, if_true] at h ⊢
        obtain rfl : 0x2F = v := Option.some.inj h
        change Pair.outs _ [(0xA0, 0x20), (0x20, 0x20)] = idle
        rw [hboth, hserve, eoi_idle rfl]
      | some j =>
        have hj := request_lt hreq'
        simp only [Pair.acknowledge, hreq, hreq', hcascade, hlistens, if_true] at h ⊢
        obtain rfl : 0x28 + BitVec.ofNat 8 j = v := Option.some.inj h
        simp only [hslave j hj, if_true]
        change Pair.outs _ [(0xA0, 0x20), (0x20, 0x20)] = idle
        rw [hboth, hserve, eoi_serve rfl hj]
    · simp only [Pair.acknowledge, hreq, hcascade, if_false, Bool.false_eq_true] at h ⊢
      obtain rfl : 0x20 + BitVec.ofNat 8 i = v := Option.some.inj h
      simp only [hmaster i hi, if_false]
      change Pair.outs _ [(0x20, 0x20)] = idle
      rw [hwrites, hserve]

@[simp] theorem set_handlers_current (w : Lines ι) (hs : List (List Act)) :
    (w.set_handlers hs).handlers w.current = hs := if_pos rfl

theorem set_handlers_other (w : Lines ι) (hs : List (List Act)) {t : ι} (ht : t ≠ w.current) :
    (w.set_handlers hs).handlers t = w.handlers t := if_neg ht

/-- The running thread's handlers change. -/
theorem Paid.set_handlers {w : Lines ι} (hw : Paid w) {hs : List (List Act)} {c : Pair} {on : Bool}
    (howed : c.outs (writes (hs.head?.getD [])) = idle)
    (hoff : on = true → writes (hs.head?.getD []) = []) (houter : ∀ as ∈ hs.tail, writes as = [])
    (hordered : ∀ as ∈ hs, Ordered as) :
    Paid { w.set_handlers hs with pics := c, interrupts := on } := by
  have hinner : ({ w.set_handlers hs with pics := c, interrupts := on } : Lines ι).inner =
      hs.head?.getD [] := by
    change ((w.set_handlers hs).handlers w.current).head?.getD [] = _
    rw [set_handlers_current]
  refine ⟨?_, ?_, ?_, fun t ht as has => ?_, fun t as has => ?_⟩
  · rw [hinner]
    exact howed
  · rw [hinner]
    exact hoff
  · change ∀ as ∈ ((w.set_handlers hs).handlers w.current).tail, writes as = []
    rw [set_handlers_current]
    exact houter
  · exact hw.others t ht as (by rwa [← set_handlers_other w hs ht])
  · by_cases ht : t = w.current
    · subst ht
      exact hordered as (by rwa [← set_handlers_current w hs])
    · exact hw.ordered t as (by rwa [← set_handlers_other w hs ht])

omit [DecidableEq ι] in
theorem inner_eq {w : Lines ι} {as : List Act} {hs : List (List Act)}
    (h : w.handlers w.current = as :: hs) : w.inner = as := by
  rw [Lines.inner, h]
  rfl

/-- The innermost handler does what it does next. -/
theorem Paid.advance {w : Lines ι} (hw : Paid w) {a : Act} {rest : List Act} {hs : List (List Act)}
    (hhs : w.handlers w.current = (a :: rest) :: hs) {c : Pair} {on : Bool}
    (howed : c.outs (writes rest) = idle) (hoff : on = true → writes rest = []) :
    Paid { w.set_handlers (rest :: hs) with pics := c, interrupts := on } := by
  have houter := hw.outer
  have hordered := hw.ordered w.current
  rw [hhs] at houter hordered
  refine hw.set_handlers howed hoff houter fun as has => ?_
  rcases List.mem_cons.mp has with rfl | has
  · exact (hordered _ List.mem_cons_self).2
  · exact hordered as (List.mem_cons_of_mem _ has)

omit [DecidableEq ι] in
/-- What follows `sti` or a switch owes nothing. -/
theorem Paid.nothing_after {w : Lines ι} (hw : Paid w) {a : Act} {rest : List Act}
    {hs : List (List Act)} (hhs : w.handlers w.current = (a :: rest) :: hs)
    (ha : a = .sti ∨ a = .Schedule) : writes rest = [] :=
  (hw.ordered w.current (a :: rest) (by simp [hhs])).1 ha

/-- Another thread runs on, with nothing owed. -/
theorem Paid.switch {w : Lines ι} (hw : Paid w) (hinner : writes w.inner = []) (new : ι) :
    Paid { w with current := new } := by
  have hall : ∀ t, ∀ as ∈ w.handlers t, writes as = [] := by
    intro t as has
    by_cases ht : t = w.current
    · subst ht
      rw [Lines.inner] at hinner
      cases hhs : w.handlers w.current with
      | nil =>
        rw [hhs] at has
        cases has
      | cons b bs =>
        have houter := hw.outer
        rw [hhs] at has hinner houter
        rcases List.mem_cons.mp has with rfl | has
        · exact hinner
        · exact houter as has
    · exact hw.others t ht as has
  have hnew : writes ({ w with current := new } : Lines ι).inner = [] := by
    change writes ((w.handlers new).head?.getD []) = []
    cases hhs : w.handlers new with
    | nil => rfl
    | cons b bs => exact hall new b (by simp [hhs])
  have howed := hw.owed
  rw [hinner] at howed
  refine ⟨?_, fun _ => hnew, fun as has => hall new as (List.mem_of_mem_tail has),
    fun t _ => hall t, hw.ordered⟩
  rw [hnew]
  exact howed

theorem paid_step {w w' : Lines ι} {e : Event ι} (hw : Paid w) (h : Step w e w') : Paid w' := by
  have howed := hw.owed
  have hoff := hw.off
  have houter := hw.outer
  have hordered := hw.ordered w.current
  cases h with
  | @code on hnone =>
    have hnothing : w.inner = [] := by
      rw [Lines.inner, hnone]
      rfl
    exact ⟨howed, fun _ => by change writes w.inner = []; rw [hnothing]; rfl, houter, hw.others, hw.ordered⟩
  | @yield new hnone =>
    refine hw.switch ?_ new
    rw [Lines.inner, hnone]
    rfl
  | @interrupt irr irr' v hif hvector =>
    rw [hoff hif] at howed
    have hidle : w.pics = idle := howed
    refine hw.set_handlers ?_ (fun h => absurd h (by decide)) (fun as has => ?_) fun as has => ?_
    · rw [hidle] at hvector ⊢
      exact acknowledge_paid hvector
    · change as ∈ w.handlers w.current at has
      cases hhs : w.handlers w.current with
      | nil =>
        rw [hhs] at has
        cases has
      | cons b bs =>
        have hb := hoff hif
        rw [inner_eq hhs] at hb
        rw [hhs] at has houter
        rcases List.mem_cons.mp has with rfl | has
        · exact hb
        · exact houter as has
    · rcases List.mem_cons.mp has with rfl | has
      · exact interrupt_handler_ordered _
      · exact hordered as has
  | @outb port value rest hs hhs =>
    rw [inner_eq hhs] at howed hoff
    exact hw.advance hhs howed fun hon => absurd (hoff hon) (by simp [writes])
  | @sti rest hs hhs =>
    rw [inner_eq hhs] at howed
    exact hw.advance hhs howed fun _ => hw.nothing_after hhs (.inl rfl)
  | @on_interrupt rest hs hhs =>
    rw [inner_eq hhs] at howed hoff
    exact hw.advance hhs howed hoff
  | @Log irq rest hs hhs =>
    rw [inner_eq hhs] at howed hoff
    exact hw.advance hhs howed hoff
  | @schedule new rest hs hhs =>
    have hnothing := hw.nothing_after hhs (.inr rfl)
    rw [inner_eq hhs] at howed
    have hrest : Paid (w.set_handlers (rest :: hs)) := hw.advance hhs howed fun _ => hnothing
    refine hrest.switch ?_ new
    rw [inner_eq (set_handlers_current w _)]
    exact hnothing
  | @iretq hs hhs =>
    rw [inner_eq hhs] at howed
    rw [hhs] at houter hordered
    have hhead : writes (hs.head?.getD []) = [] := by
      cases hs with
      | nil => rfl
      | cons b bs => exact houter b List.mem_cons_self
    refine hw.set_handlers ?_ (fun _ => hhead) (fun as has => ?_) fun as has => ?_
    · rw [hhead]
      exact howed
    · exact houter as (List.mem_of_mem_tail has)
    · exact hordered as (List.mem_cons_of_mem _ has)

/-! ## The law -/

/-- However threads are interrupted, their handlers are interrupted in turn
and switch, and threads turn interrupts off and on: as long as they are on,
neither controller has a line in service or masked. So the first of the lines
that are requested is the next one acknowledged, with its own vector, and none
waits for an interrupt that was not ended. -/
theorem no_line_waits_for_an_end {c : Pair} (hmaster : c.master.isr = 0) (hslave : c.slave.isr = 0)
    {t : ι} {w : Lines ι} {es : List (Event ι)}
    (run : Run Step ⟨c.outs picRemap, true, t, fun _ => []⟩ es w) (hif : w.interrupts = true) :
    w.pics = idle ∧ ∀ irr irr' line, FirstLine irr irr' line →
      (w.pics.acknowledge irr irr').2 = some (BitVec.ofNat 8 (32 + line)) := by
  have hstart : Paid (⟨c.outs picRemap, true, t, fun _ => []⟩ : Lines ι) :=
    ⟨picRemap.spec hmaster hslave, fun _ => rfl, by simp, by simp, by simp⟩
  have hw := run.inv Paid (fun _ _ _ => paid_step) hstart
  have howed := hw.owed
  rw [hw.off hif] at howed
  have hidle : w.pics = idle := howed
  refine ⟨hidle, fun irr irr' line hfirst => ?_⟩
  rw [hidle]
  exact acknowledge_idle hfirst

/-- The timer's handler ends its interrupt, turns interrupts on and switches
to a thread that runs with them on. -/
theorem no_line_waits_for_an_end_of_the_timer : ∃ w : Lines Bool,
    Run Step ⟨board.pics.outs picRemap, true, false, fun _ => []⟩
      [.interrupt 0x01 0, .act, .act, .schedule true] w ∧ w.interrupts = true ∧ w.pics = idle ∧
    ∀ irr irr' line, FirstLine irr irr' line →
      (w.pics.acknowledge irr irr').2 = some (BitVec.ofNat 8 (32 + line)) := by
  obtain ⟨w, run, hon⟩ : ∃ w : Lines Bool,
      Run Step ⟨board.pics.outs picRemap, true, false, fun _ => []⟩
        [.interrupt 0x01 0, .act, .act, .schedule true] w ∧ w.interrupts = true :=
    ⟨_, ((((Run.nil _).snoc (.interrupt rfl rfl)).snoc (.outb rfl)).snoc (.sti rfl)).snoc (.schedule rfl), rfl⟩
  exact ⟨w, run, hon, no_line_waits_for_an_end rfl rfl run hon⟩

end lobo.lines
