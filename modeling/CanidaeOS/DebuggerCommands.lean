-- The commands of the debugger (`kernel_debugger.cpp`), the figures of `pmm.cpp`
-- and the list of drivers (`driver_registry.cpp`) that they print. A command is
-- known by its string, and its reply is a list of calls of the log.
import CanidaeOS.DebuggerLine
import CanidaeOS.LogText
import CanidaeOS.PmmAccounting
import CanidaeOS.Scheduler
import CanidaeOS.Strcmp

open Program Machine Outcome

namespace lobo

open log
open printf (ascii figure numeral Arg CString Conversion Directive Piece isDigit)

/-! ## The code -/

/-- A driver, with what the debugger reads of it. -/
structure driver where
  m_name : String

/-- The drivers, where `none` is `nullptr`. -/
structure driver_registry where
  driver_list : List (Option driver)

def driver_registry.add (drv : Option driver) (r : driver_registry) : driver_registry :=
  { r with driver_list := r.driver_list ++ [drv] }

namespace pmm

/-- What `debug_print_free_pages` counts. Its limit is all pages. -/
def debug_print_free_pages (p : pmm) : Outcome Stop Figures := do
  let numFreePages ← forRange p.m_numPages.toNat p.printTurn 0
  let pagesUsed := p.m_numPages - numFreePages
  ok ⟨numFreePages, pagesUsed, p.m_numPages⟩

/-- The two lines that both functions print. A `%d` takes the low half of a word. -/
def Figures.print (fuel : Nat) (f : Figures) (l : log) : Outcome log.Stop log := do
  let l ← l.Log fuel (literal "pmm") (literal "%d/%d pages free")
    [.int (f.numFreePages.setWidth 32), .int (f.pageLimit.setWidth 32)]
  l.Log fuel (literal "pmm") (literal "Used %dKB / %dKB of memory (%dMB / %dMB)")
    [.int ((f.pagesUsed * 4).setWidth 32), .int ((f.pageLimit * 4).setWidth 32),
      .int ((f.pagesUsed * 4 / 1024).setWidth 32), .int ((f.pageLimit * 4 / 1024).setWidth 32)]

end pmm

namespace debugger

/-- The objects of the kernel that the debugger works with. -/
structure System where
  klog : log
  kernelPmm : pmm
  kernelDriverRegistry : driver_registry
  kernelSched : Scheduler

/-- A memory with two buffers. -/
def buffers (x y : List U8) : Ram :=
  ⟨fun a => if a.toNat < 0x2000 then x.getD (a.toNat - 0x1000) 0 else y.getD (a.toNat - 0x2000) 0, []⟩

/-- `strcmp(str1, str2)`, where `str1` has at most 100 bytes. -/
def strcmp (str1 str2 : List U8) : Outcome log.Stop U32 := do
  let (v, _) ← (libc.strcmp 100 0x1000 0x2000 (buffers str1 str2)).lift Empty.elim
  ok v

def drivers_count (fuel : Nat) (r : driver_registry) (l : log) : Outcome log.Stop log :=
  l.Log fuel (literal "drvreg") (literal "%d Drivers loaded")
    [.int (BitVec.ofNat 32 r.driver_list.length)]

/-- The loop over `drv_it`, and the newline behind it. -/
def drivers_list (fuel : Nat) : List (Option driver) → log → Outcome log.Stop log
  | [], l => l.LogRaw fuel (literal "\n") []
  | none :: _, _ => .stop (.device (.assertion "*drv_it != nullptr"))
  | some drv :: drv_it, l => do
    let l ← l.LogRaw fuel (literal "%s ") [.str (literal drv.m_name)]
    drivers_list fuel drv_it l

/-- The loop that counts `numSchedulable`. -/
def countSchedulable (kernelSched : Scheduler) : List ThreadPtr → U32 → Outcome Stop U32
  | [], numSchedulable => ok numSchedulable
  | itr :: itrs, numSchedulable => do
    let thread ← kernelSched.deref itr
    if thread.state = .Ready ∨ thread.state = .Running then
      countSchedulable kernelSched itrs (numSchedulable + 1)
    else countSchedulable kernelSched itrs numSchedulable

/-- The `switch` on the state of a thread. -/
def stateString : TCBState → String
  | .Dead => "Dead"
  | .Waiting => "Waiting"
  | .Ready => "Ready"
  | .Running => "Running"

/-- The loop that prints the threads. -/
def printThreads (fuel : Nat) (kernelSched : Scheduler) : List ThreadPtr → log → Outcome log.Stop log
  | [], l => ok l
  | itr :: itrs, l => do
    let thread ← (kernelSched.deref itr).lift .device
    let state := stateString thread.state
    let l ← l.Log fuel (literal "sched") (literal "| %7d | %7d | %-20s | %7s |")
      [.int (thread.taskID.setWidth 32), .int (thread.threadID.setWidth 32),
        .str (literal thread.threadName), .str (literal state)]
    printThreads fuel kernelSched itrs l

def threads (fuel : Nat) (kernelSched : Scheduler) (l : log) : Outcome log.Stop log := do
  let numSchedulable ← (countSchedulable kernelSched kernelSched.threads 0).lift .device
  let l ← l.Log fuel (literal "sched") (literal "%d threads, %d schedulable")
    [.int (BitVec.ofNat 32 kernelSched.threads.length), .int numSchedulable]
  let l ← l.Log fuel (literal "sched") (literal "| %7s | %7s | %-20s | %7s |")
    [.str (literal "Task ID"), .str (literal "TID"), .str (literal "Thread Name"), .str (literal "State")]
  printThreads fuel kernelSched kernelSched.threads l

structure debugger_func where
  cmd : String
  fn : System → Outcome log.Stop log

def commands (fuel : Nat) : List debugger_func :=
  [⟨"pmm/free", fun k => do
      let f ← k.kernelPmm.debug_print_free_memory.lift .device
      f.print fuel k.klog⟩,
   ⟨"pmm/freepages", fun k => do
      let f ← k.kernelPmm.debug_print_free_pages.lift .device
      f.print fuel k.klog⟩,
   ⟨"drivers/count", fun k => drivers_count fuel k.kernelDriverRegistry k.klog⟩,
   ⟨"drivers/list", fun k => drivers_list fuel k.kernelDriverRegistry.driver_list k.klog⟩,
   ⟨"threads", fun k => threads fuel k.kernelSched k.klog⟩]

/-- The loop over the commands: the first one with the string. -/
def search (input_buffer : List U8) : List debugger_func → Outcome log.Stop (Option debugger_func)
  | [] => ok none
  | func :: rest => do
    let r ← strcmp input_buffer (literal func.cmd)
    if r = 0 then ok (some func) else search input_buffer rest

/-- The processing of a line that is not `exit`. -/
def process (fuel : Nat) (input_buffer : List U8) (k : System) : Outcome log.Stop log := do
  let r ← strcmp input_buffer (literal "help")
  if r = 0 then
    let l ← k.klog.Log fuel (literal "debug") (literal "Command List:") []
    let l ← l.Log fuel (literal "debug") (literal "pmm: pmm/free, pmm/freepages,") []
    let l ← l.Log fuel (literal "debug") (literal "drivers: drivers/count, drivers/list") []
    let l ← l.Log fuel (literal "debug") (literal "scheduler: threads") []
    l.Log fuel (literal "debug") (literal "debugger: help, exit") []
  else
    match ← search input_buffer (commands fuel) with
    | some func => func.fn k
    | none => k.klog.Log fuel (literal "debug") (literal "Invalid command \"%s\"") [.str input_buffer]

/-! ## Strings -/

theorem stringAt_of_getD {m : Memory} {p : U64} (str : CString)
    (h : ∀ i : Nat, i ≤ str.text.length → m (p + BitVec.ofNat 64 i) = str.memory.getD i 0) :
    libc.StringAt m p str.text := by
  rcases str with ⟨text, tail, hnonzero⟩
  induction text generalizing p with
  | nil =>
    show m p = 0
    simpa [CString.memory] using h 0 (Nat.le_refl 0)
  | cons c text ih =>
    refine ⟨hnonzero c List.mem_cons_self, ?_, ih (fun c hc => hnonzero c (List.mem_cons_of_mem _ hc)) ?_⟩
    · simpa [CString.memory] using h 0 (Nat.zero_le _)
    · intro i hi
      have hnext := h (i + 1) (Nat.succ_le_succ hi)
      have hplace : p + BitVec.ofNat 64 (i + 1) = p + 1 + BitVec.ofNat 64 i := by
        rw [Nat.add_comm, BitVec.ofNat_add, ← BitVec.add_assoc]
        rfl
      rw [hplace] at hnext
      simpa [CString.memory] using hnext

theorem strcmp.spec {x y : CString} (hx : x.text.length < 100) (hy : y.text.length < 100) :
    ∃ v, strcmp x.memory y.memory = ok v ∧ (v = 0 ↔ x.text = y.text) := by
  have hfirst : libc.StringAt (buffers x.memory y.memory).byte 0x1000 x.text := by
    apply stringAt_of_getD
    intro i hi
    have hplace : (0x1000 + BitVec.ofNat 64 i : U64).toNat = 0x1000 + i := by
      rw [BitVec.toNat_add, BitVec.toNat_ofNat]
      simp only [BitVec.reduceToNat]
      omega
    simp only [buffers, hplace, if_pos (show 0x1000 + i < 0x2000 by omega), Nat.add_sub_cancel_left]
  have hsecond : libc.StringAt (buffers x.memory y.memory).byte 0x2000 y.text := by
    apply stringAt_of_getD
    intro i hi
    have hplace : (0x2000 + BitVec.ofNat 64 i : U64).toNat = 0x2000 + i := by
      rw [BitVec.toNat_add, BitVec.toNat_ofNat]
      simp only [BitVec.reduceToNat]
      omega
    simp only [buffers, hplace, if_neg (show ¬ 0x2000 + i < 0x2000 by omega), Nat.add_sub_cancel_left]
  rcases libc.strcmp.spec hfirst hsecond hx with ⟨v, r', hrun, hdecides, -⟩
  refine ⟨v, ?_, ?_⟩
  · unfold strcmp
    rw [hrun]
    rfl
  · rw [← hdecides.equal, ← BitVec.toInt_inj]
    rfl

theorem strcmp.literal {x : CString} (hx : x.text.length < 100) {s : String}
    (hs : isPlain s = true ∧ s.length < 100) :
    ∃ v, strcmp x.memory (literal s) = ok v ∧ (v = 0 ↔ x.text = chars s) := by
  have hlength : (plain s hs.1).cstring.text.length < 100 := by
    show (s.toList.map ascii).length < 100
    rw [List.length_map]
    exact hs.2
  have hspec := strcmp.spec hx hlength
  exact hspec

/-- The search finds the first command with the string. -/
theorem search.spec {x : CString} (hx : x.text.length < 100) {cmds : List debugger_func}
    (hcmds : ∀ f ∈ cmds, isPlain f.cmd = true ∧ f.cmd.length < 100) :
    search x.memory cmds = ok (cmds.find? fun f => x.text = chars f.cmd) := by
  induction cmds with
  | nil => rfl
  | cons f cmds ih =>
    rcases strcmp.literal hx (hcmds f List.mem_cons_self) with ⟨v, hrun, hv⟩
    unfold search
    rw [hrun, bind_ok]
    by_cases hsame : x.text = chars f.cmd
    · rw [if_pos (hv.mpr hsame), List.find?_cons_of_pos (by simpa using hsame)]
    · rw [if_neg (hv.not.mpr hsame), List.find?_cons_of_neg (by simpa using hsame)]
      exact ih fun g hg => hcmds g (List.mem_cons_of_mem _ hg)

/-! ## The replies -/

/-- `%7d` or `%7s` -/
def column (c : Conversion) : Piece := .directive ⟨false, [ascii '7'], c, by decide, by decide⟩

/-- `%-20s` -/
def wide (c : Conversion) : Piece :=
  .directive ⟨true, [ascii '2', ascii '0'], c, by decide, by decide⟩

def debug : CString := (plain "debug" (by decide +kernel)).cstring

def sched : CString := (plain "sched" (by decide +kernel)).cstring

def slash : Plain := plain "/" (by decide +kernel)

def edge : Plain := plain "| " (by decide +kernel)

def bar : Plain := plain " | " (by decide +kernel)

def quote : Plain := plain "\"" (by decide +kernel)

/-- The lines for figures in pages. -/
def figures (f : pmm.Figures) : List log.Call :=
  [say (plain "pmm" (by decide +kernel)).cstring (bare (.d (f.numFreePages.setWidth 32)) :: slash.pieces ++
      bare (.d (f.pageLimit.setWidth 32)) :: (plain " pages free" (by decide +kernel)).pieces),
   say (plain "pmm" (by decide +kernel)).cstring ((plain "Used " (by decide +kernel)).pieces ++
      bare (.d ((f.pagesUsed * 4).setWidth 32)) :: (plain "KB / " (by decide +kernel)).pieces ++
      bare (.d ((f.pageLimit * 4).setWidth 32)) :: (plain "KB of memory (" (by decide +kernel)).pieces ++
      bare (.d ((f.pagesUsed * 4 / 1024).setWidth 32)) :: (plain "MB / " (by decide +kernel)).pieces ++
      bare (.d ((f.pageLimit * 4 / 1024).setWidth 32)) :: (plain "MB)" (by decide +kernel)).pieces)]

def driverCount (drivers : List (Option driver)) : log.Call :=
  say (plain "drvreg" (by decide +kernel)).cstring
    (bare (.d (BitVec.ofNat 32 drivers.length)) :: (plain " Drivers loaded" (by decide +kernel)).pieces)

def driverName (drv : driver) : log.Call :=
  .LogRaw ⟨bare (.s (string drv.m_name)) :: (plain " " (by decide +kernel)).pieces, [], []⟩

/-- The names of the drivers in one line. -/
def driverNames (drivers : List (Option driver)) : List log.Call :=
  drivers.reduceOption.map driverName ++ [.LogRaw ⟨[log.newline], [], []⟩]

def Schedulable (kernelSched : Scheduler) (t : ThreadPtr) : Prop :=
  (kernelSched.thread t).state = .Ready ∨ (kernelSched.thread t).state = .Running

instance (kernelSched : Scheduler) : DecidablePred (Schedulable kernelSched) :=
  fun _ => inferInstanceAs (Decidable (_ ∨ _))

def threadRow (thread : ThreadControlBlock) : log.Call :=
  say sched (edge.pieces ++ column (.d (thread.taskID.setWidth 32)) :: bar.pieces ++
    column (.d (thread.threadID.setWidth 32)) :: bar.pieces ++ wide (.s (string thread.threadName)) ::
    bar.pieces ++ column (.s (string (stateString thread.state))) :: (plain " |" (by decide +kernel)).pieces)

/-- The table of the threads, a row for each. -/
def threadTable (kernelSched : Scheduler) : List log.Call :=
  say sched (bare (.d (BitVec.ofNat 32 kernelSched.threads.length)) ::
    (plain " threads, " (by decide +kernel)).pieces ++
    bare (.d (BitVec.ofNat 32 (kernelSched.threads.countP fun t => Schedulable kernelSched t))) ::
    (plain " schedulable" (by decide +kernel)).pieces) ::
  say sched (edge.pieces ++ column (.s (string "Task ID")) :: bar.pieces ++
    column (.s (string "TID")) :: bar.pieces ++ wide (.s (string "Thread Name")) :: bar.pieces ++
    column (.s (string "State")) :: (plain " |" (by decide +kernel)).pieces) ::
  kernelSched.threads.map fun t => threadRow (kernelSched.thread t)

def help : List log.Call :=
  [say debug (plain "Command List:" (by decide +kernel)).pieces,
   say debug (plain "pmm: pmm/free, pmm/freepages," (by decide +kernel)).pieces,
   say debug (plain "drivers: drivers/count, drivers/list" (by decide +kernel)).pieces,
   say debug (plain "scheduler: threads" (by decide +kernel)).pieces,
   say debug (plain "debugger: help, exit" (by decide +kernel)).pieces]

/-- What both functions for the free frames count. -/
def freeCount (p : pmm) : U64 := BitVec.ofNat 64 (p.freeBelow p.m_numPages.toNat)

/-- The reply to a command that is not `exit`. -/
def reply (k : System) (command : CString) : List log.Call :=
  if command.text = chars "help" then help
  else if command.text = chars "pmm/free" then
    figures ⟨freeCount k.kernelPmm, k.kernelPmm.m_numPages - freeCount k.kernelPmm -
      k.kernelPmm.m_nonMemoryBackedPages, k.kernelPmm.m_maxFreePages⟩
  else if command.text = chars "pmm/freepages" then
    figures ⟨freeCount k.kernelPmm, k.kernelPmm.m_numPages - freeCount k.kernelPmm, k.kernelPmm.m_numPages⟩
  else if command.text = chars "drivers/count" then [driverCount k.kernelDriverRegistry.driver_list]
  else if command.text = chars "drivers/list" then driverNames k.kernelDriverRegistry.driver_list
  else if command.text = chars "threads" then threadTable k.kernelSched
  else [say debug ((plain "Invalid command \"" (by decide +kernel)).pieces ++ bare (.s command) :: quote.pieces)]

/-! ## The specs -/

/-- The pointers that the debugger follows are real, and no name of a thread has
2 GiB. -/
structure System.Sound (k : System) : Prop where
  pmm : k.kernelPmm.Ready
  drivers : none ∉ k.kernelDriverRegistry.driver_list
  threads : nullptr ∉ k.kernelSched.threads
  names : ∀ t ∈ k.kernelSched.threads,
    (string (k.kernelSched.thread t).threadName).text.length < 2 ^ 31

variable (fuel : Nat) (l : log)

theorem figures.eq (f : pmm.Figures) : f.print fuel l = l.calls fuel (figures f) := by
  unfold pmm.Figures.print figures
  rw [log.calls]
  simp only [calls_singleton]
  rfl

theorem driverNames.eq {drivers : List (Option driver)} (h : none ∉ drivers) :
    drivers_list fuel drivers l = l.calls fuel (driverNames drivers) := by
  induction drivers generalizing l with
  | nil =>
    show l.LogRaw fuel (literal "\n") [] = l.calls fuel [.LogRaw ⟨[log.newline], [], []⟩]
    rw [calls_singleton]
    rfl
  | cons drv drivers ih =>
    rw [List.mem_cons, not_or] at h
    cases drv with
    | none => exact absurd rfl h.1
    | some drv =>
      have hname : l.LogRaw fuel (literal "%s ") [.str (literal drv.m_name)] =
          l.call fuel (driverName drv) := by
        rw [← string_memory drv.m_name]
        rfl
      unfold drivers_list
      simp only [hname, fun l => ih l h.2]
      rfl

theorem countSchedulable.spec {kernelSched : Scheduler} {ts : List ThreadPtr} (h : nullptr ∉ ts) (n : U32) :
    countSchedulable kernelSched ts n =
      ok (n + BitVec.ofNat 32 (ts.countP fun t => Schedulable kernelSched t)) := by
  induction ts generalizing n with
  | nil => simp [countSchedulable]
  | cons t ts ih =>
    rw [List.mem_cons, not_or] at h
    have hderef : kernelSched.deref t = ok (kernelSched.thread t) := if_neg (Ne.symm h.1)
    unfold countSchedulable
    rw [hderef, bind_ok]
    by_cases hs : Schedulable kernelSched t
    · have hcount := List.countP_cons_of_pos (p := fun t => Schedulable kernelSched t) (l := ts)
        (decide_eq_true hs)
      have hs' : (kernelSched.thread t).state = .Ready ∨ (kernelSched.thread t).state = .Running := hs
      rw [if_pos hs', ih h.2, hcount, BitVec.ofNat_add, BitVec.add_assoc, BitVec.add_comm (BitVec.ofNat 32 _)]
      rfl
    · have hcount := List.countP_cons_of_neg (p := fun t => Schedulable kernelSched t) (l := ts)
        (by simpa using hs)
      have hs' : ¬ ((kernelSched.thread t).state = .Ready ∨ (kernelSched.thread t).state = .Running) := hs
      rw [if_neg hs', ih h.2, hcount]

theorem printThreads.eq {kernelSched : Scheduler} {ts : List ThreadPtr} (h : nullptr ∉ ts) :
    printThreads fuel kernelSched ts l =
      l.calls fuel (ts.map fun t => threadRow (kernelSched.thread t)) := by
  induction ts generalizing l with
  | nil => rfl
  | cons t ts ih =>
    rw [List.mem_cons, not_or] at h
    have hderef : kernelSched.deref t = ok (kernelSched.thread t) := if_neg (Ne.symm h.1)
    have hrow : ∀ thread : ThreadControlBlock, l.Log fuel (literal "sched")
        (literal "| %7d | %7d | %-20s | %7s |") [.int (thread.taskID.setWidth 32),
          .int (thread.threadID.setWidth 32), .str (literal thread.threadName),
          .str (literal (stateString thread.state))] = l.call fuel (threadRow thread) := by
      intro thread
      rw [← string_memory thread.threadName, ← string_memory (stateString thread.state)]
      rfl
    unfold printThreads
    simp only [hderef, lift_ok, bind_ok, hrow, fun l => ih l h.2]
    rfl

theorem threadTable.eq {kernelSched : Scheduler} (h : nullptr ∉ kernelSched.threads) :
    threads fuel kernelSched l = l.calls fuel (threadTable kernelSched) := by
  unfold threads
  simp only [countSchedulable.spec h, lift_ok, bind_ok, printThreads.eq fuel _ h]
  rw [zero_add, ← string_memory "Task ID", ← string_memory "TID", ← string_memory "Thread Name",
    ← string_memory "State"]
  rfl

theorem freeCount_toNat (p : pmm) :
    (freeCount p).toNat = p.freeBelow p.m_numPages.toNat := by
  have hle := p.freeBelow_le p.m_numPages.toNat
  unfold freeCount
  rw [BitVec.toNat_ofNat]
  omega

theorem print_free_memory.eq {p : pmm} (hp : p.Ready) : p.debug_print_free_memory = ok ⟨freeCount p,
    p.m_numPages - freeCount p - p.m_nonMemoryBackedPages, p.m_maxFreePages⟩ := by
  rcases pmm.debug_print_free_memory.spec hp with ⟨c, hc, hrun⟩
  obtain rfl : c = freeCount p := BitVec.eq_of_toNat_eq (hc.trans (freeCount_toNat p).symm)
  exact hrun

/-- Both functions count in the same way. -/
theorem print_free_pages.eq {p : pmm} (hp : p.Ready) : p.debug_print_free_pages =
    ok ⟨freeCount p, p.m_numPages - freeCount p, p.m_numPages⟩ := by
  have hcount := print_free_memory.eq hp
  unfold pmm.debug_print_free_memory at hcount
  rcases bind_eq_ok.mp hcount with ⟨c, hc, hfigures⟩
  obtain rfl : c = freeCount p := by injection (ok.inj hfigures)
  unfold pmm.debug_print_free_pages
  rw [hc, bind_ok]

theorem commands_plain : ∀ f ∈ commands fuel, isPlain f.cmd = true ∧ f.cmd.length < 100 := by
  have hall : ∀ s ∈ ["pmm/free", "pmm/freepages", "drivers/count", "drivers/list", "threads"],
    isPlain s = true ∧ s.length < 100 := by decide
  have hcmd : (commands fuel).map debugger_func.cmd =
    ["pmm/free", "pmm/freepages", "drivers/count", "drivers/list", "threads"] := rfl
  intro f hf
  apply hall
  rw [← hcmd]
  exact List.mem_map_of_mem hf

/-- The reply to every command. -/
theorem process.eq {k : System} (hk : k.Sound) {command : CString} (hcommand : command.text.length < 100) :
    process fuel command.memory k = k.klog.calls fuel (reply k command) := by
  have hhelp : isPlain "help" = true ∧ "help".length < 100 := by decide
  rcases strcmp.literal hcommand hhelp with ⟨v, hrun, hv⟩
  unfold process reply
  rw [hrun, bind_ok]
  by_cases h : command.text = chars "help"
  · rw [if_pos (hv.mpr h), if_pos h]
    unfold help
    simp only [calls_cons_cons, calls_singleton]
    rfl
  rw [if_neg (hv.not.mpr h), if_neg h, search.spec hcommand (commands_plain fuel), bind_ok]
  unfold commands
  by_cases h₁ : command.text = chars "pmm/free"
  · rw [List.find?_cons_of_pos (by simpa using h₁), if_pos h₁]
    simp only [print_free_memory.eq hk.pmm, lift_ok, bind_ok, figures.eq]
  rw [List.find?_cons_of_neg (by simpa using h₁), if_neg h₁]
  by_cases h₂ : command.text = chars "pmm/freepages"
  · rw [List.find?_cons_of_pos (by simpa using h₂), if_pos h₂]
    simp only [print_free_pages.eq hk.pmm, lift_ok, bind_ok, figures.eq]
  rw [List.find?_cons_of_neg (by simpa using h₂), if_neg h₂]
  by_cases h₃ : command.text = chars "drivers/count"
  · rw [List.find?_cons_of_pos (by simpa using h₃), if_pos h₃, calls_singleton]
    rfl
  rw [List.find?_cons_of_neg (by simpa using h₃), if_neg h₃]
  by_cases h₄ : command.text = chars "drivers/list"
  · rw [List.find?_cons_of_pos (by simpa using h₄), if_pos h₄]
    exact driverNames.eq fuel k.klog hk.drivers
  rw [List.find?_cons_of_neg (by simpa using h₄), if_neg h₄]
  by_cases h₅ : command.text = chars "threads"
  · rw [List.find?_cons_of_pos (by simpa using h₅), if_pos h₅]
    exact threadTable.eq fuel k.klog hk.threads
  rw [List.find?_cons_of_neg (by simpa using h₅), if_neg h₅, calls_singleton]
  rfl

/-! ## The padding of the replies -/

theorem column_d_fits (n : U32) : ¬ (column (.d n)).Overpads :=
  numeral_fits (show 1 < 10 by decide) (show n.toNat < 2 ^ 64 by omega) rfl

theorem column_s_fits {str : CString} (h : str.text.length < 2 ^ 31) : ¬ (column (.s str)).Overpads :=
  Piece.not_overpads_of_short h

theorem wide_s_fits {str : CString} (h : str.text.length < 2 ^ 31) : ¬ (wide (.s str)).Overpads :=
  Piece.not_overpads_of_short h

theorem stateString_fits (state : TCBState) : (string (stateString state)).text.length < 2 ^ 31 := by
  cases state <;> decide

theorem reply_fits {k : System} (hk : k.Sound) (command : CString) : ∀ c ∈ reply k command, c.Fits := by
  have hfigures : ∀ f : pmm.Figures, ∀ c ∈ figures f, c.Fits := by
    intro f
    simp only [figures, List.forall_mem_cons, List.not_mem_nil, IsEmpty.forall_iff, implies_true, and_true]
    refine ⟨say_fits (by decide) ?_, say_fits (by decide) ?_⟩
    · simp [bare_fits]
    · simp [bare_fits]
  unfold reply
  split_ifs
  · simp only [help, List.forall_mem_cons, List.not_mem_nil, IsEmpty.forall_iff, implies_true, and_true]
    have hdebug : debug.text.length ≤ 8 := by decide
    exact ⟨say_fits hdebug (Plain.fit _), say_fits hdebug (Plain.fit _), say_fits hdebug (Plain.fit _),
      say_fits hdebug (Plain.fit _), say_fits hdebug (Plain.fit _)⟩
  · exact hfigures _
  · exact hfigures _
  · simp only [List.forall_mem_singleton]
    apply say_fits (by decide)
    simp [bare_fits]
  · intro c hc
    rcases List.mem_append.mp hc with hc | hc
    · rcases List.mem_map.mp hc with ⟨drv, -, rfl⟩
      exact (fit_cons _ _).mpr ⟨bare_fits _, Plain.fit _⟩
    · rw [List.mem_singleton.mp hc]
      exact (fit_cons _ _).mpr ⟨newline_fits, fit_nil⟩
  · have hsched : sched.text.length ≤ 8 := by decide
    have htitle : ∀ s ∈ ["Task ID", "TID", "Thread Name", "State"], (string s).text.length < 2 ^ 31 := by
      decide
    simp only [List.forall_mem_cons, List.not_mem_nil, IsEmpty.forall_iff, implies_true, and_true] at htitle
    unfold threadTable
    simp only [List.forall_mem_cons, List.forall_mem_map]
    refine ⟨say_fits hsched ?_, say_fits hsched ?_, fun t ht => say_fits hsched ?_⟩
    · simp [bare_fits]
    · simp [column_s_fits htitle.1, column_s_fits htitle.2.1, wide_s_fits htitle.2.2.1,
        column_s_fits htitle.2.2.2]
    · simp [column_d_fits, wide_s_fits (hk.names t ht), column_s_fits (stateString_fits _)]
  · simp only [List.forall_mem_singleton]
    apply say_fits (by decide)
    simp [bare_fits]

end debugger
end lobo
