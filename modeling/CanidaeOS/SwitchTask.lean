-- `Scheduler::SwitchTask` down to the processor: the bookkeeping in C++, then
-- `switch_task_vas` (`switch_thread.s`), which is to load the task's address
-- space. It compares with the right register and writes back the wrong one.
import CanidaeOS.Kernel
import CanidaeOS.X86

open Machine X86 Program Outcome

namespace lobo

/-! ## The code -/

/-- `rdi` is the address of the new task's control block. Its first word is
`vas`. -/
def switch_task_vas : List Instr :=
  [.load .rcx .rdi 0,  -- Load new tasks VAS physical address
   .readCr3 .rax,      -- Load current tasks VAS physical address
   .cmp .rax .rcx,     -- Check if New VAS == Old VAS
   .je 1,              -- Don't flush TLB if they are the same
   .writeCr3 .rax,     -- Switch to new thread's VAS, flush TLB
   .ret]

/-- The processor and the pointer `currentTask`. -/
structure TaskCpu where
  cpu : Cpu
  currentTask : U64

def TaskCpu.SwitchTask (w : TaskCpu) (task : U64) : Outcome Stop TaskCpu := do
  assert (task ≠ 0) "task != nullptr"
  let curTask := w.currentTask
  match X86.run 0 switch_task_vas ((w.cpu.set .rdi task).set .rsi curTask) with
  | some (_, cpu) => ok { cpu, currentTask := task }
  | none => .stop .outside

/-! ## The spec -/

/-- The address space of the task with the control block at `task`. -/
def vas (c : Cpu) (task : U64) : U64 := load64 c.mem task

/-- On both paths the routine leaves `cr3` and memory as they were. -/
theorem switch_task_vas.spec (c : Cpu) :
    ∃ rip c', X86.run 0 switch_task_vas c = some (rip, c') ∧ c'.cr3 = c.cr3 ∧ c'.mem = c.mem := by
  obtain ⟨c₃, hc₃⟩ : ∃ c₃, c₃ = ((c.exec (.load .rcx .rdi 0)).exec (.readCr3 .rax)).exec
    (.cmp .rax .rcx) := ⟨_, rfl⟩
  have hrun : X86.run 0 switch_task_vas c =
      X86.run (if c₃.zf = true then 1 else 0) [.writeCr3 .rax, .ret] c₃ := by
    rw [hc₃]
    rfl
  -- what is written back is what was read
  have hrax : c₃.regs .rax = c.cr3 := by
    rw [hc₃]
    rfl
  have hcr3 : c₃.cr3 = c.cr3 := by
    rw [hc₃]
    rfl
  have hmem : c₃.mem = c.mem := by
    rw [hc₃]
    rfl
  cases hzf : c₃.zf with
  | true =>
    rw [hrun, hzf]
    exact ⟨_, _, rfl, hcr3, hmem⟩
  | false =>
    rw [hrun, hzf]
    exact ⟨_, _, rfl, hrax, hmem⟩

theorem SwitchTask.spec (w : TaskCpu) {task : U64} (hne : task ≠ 0) :
    ∃ w', w.SwitchTask task = ok w' ∧ w'.currentTask = task ∧ w'.cpu.cr3 = w.cpu.cr3 ∧
      w'.cpu.mem = w.cpu.mem := by
  obtain ⟨rip, c, hrun, hcr3, hmem⟩ :=
    switch_task_vas.spec ((w.cpu.set .rdi task).set .rsi w.currentTask)
  refine ⟨⟨c, task⟩, ?_, rfl, hcr3, hmem⟩
  simp only [TaskCpu.SwitchTask, assert_ok _ hne, bind_ok, hrun]

/-! ## The laws -/

/-- The task is the current one, and its address space is loaded. -/
def Loaded (w : TaskCpu) (task : U64) : Prop :=
  w.currentTask = task ∧ w.cpu.cr3 = vas w.cpu task

/-- Each of the calls in turn returns with its task loaded. -/
def AllLoaded (w : TaskCpu) : List U64 → Prop
  | [] => True
  | task :: tasks => ∃ w', w.SwitchTask task = ok w' ∧ Loaded w' task ∧ AllLoaded w' tasks

/-- A sequence of task switches loads each task's address space if and only if
all of them are the one that is loaded from the start. -/
theorem task_switches_load_only_the_first_space (w : TaskCpu) {tasks : List U64}
    (hne : ∀ task ∈ tasks, task ≠ 0) :
    AllLoaded w tasks ↔ ∀ task ∈ tasks, vas w.cpu task = w.cpu.cr3 := by
  induction tasks generalizing w with
  | nil => simp [AllLoaded]
  | cons task tasks ih =>
    obtain ⟨w', hcall, hcurrent, hcr3, hmem⟩ := SwitchTask.spec w (hne task List.mem_cons_self)
    have hrest := ih w' fun t ht => hne t (List.mem_cons_of_mem _ ht)
    have hvas : ∀ t, vas w'.cpu t = vas w.cpu t := fun t => by rw [vas, hmem, vas]
    simp only [hvas, hcr3] at hrest
    rw [List.forall_mem_cons, ← hrest]
    constructor
    · rintro ⟨u, hu, hloaded, hall⟩
      rw [hcall] at hu
      cases hu
      refine ⟨?_, hall⟩
      rw [← hvas, ← hloaded.2, hcr3]
    · rintro ⟨hfirst, hall⟩
      refine ⟨w', hcall, ⟨hcurrent, ?_⟩, hall⟩
      rw [hvas, hfirst, hcr3]

/-- A processor in address space `0x1000`. The tasks at `0x5000` and `0x7000`
have that address space, the one at `0x9000` has `0x2000`. -/
def threeTasks : TaskCpu :=
  let mem := store64 (store64 (fun _ => 0) 0x5000 0x1000) 0x7000 0x1000
  ⟨⟨fun _ => 0, 0x1000, false, store64 mem 0x9000 0x2000⟩, 0x6000⟩

theorem threeTasks_vas : vas threeTasks.cpu 0x5000 = 0x1000 ∧
    vas threeTasks.cpu 0x7000 = 0x1000 ∧ vas threeTasks.cpu 0x9000 = 0x2000 := by
  refine ⟨?_, ?_, ?_⟩ <;> rfl

theorem task_switches_load_only_the_first_space_of_three :
    AllLoaded threeTasks [0x5000, 0x7000, 0x5000] ∧ ¬ AllLoaded threeTasks [0x5000, 0x9000] := by
  obtain ⟨h5, h7, h9⟩ := threeTasks_vas
  constructor
  · apply (task_switches_load_only_the_first_space threeTasks (by simp)).mpr
    intro task ht
    rcases (by simpa using ht : task = 0x5000 ∨ task = 0x7000 ∨ task = 0x5000) with rfl | rfl | rfl
    · exact h5
    · exact h7
    · exact h5
  · intro hall
    have hsame := (task_switches_load_only_the_first_space threeTasks (by simp)).mp hall 0x9000
      (by simp)
    rw [h9] at hsame
    exact absurd hsame (by decide)

/-- The switch to the third task leaves the old address space loaded. -/
theorem a_task_switch_keeps_the_old_space : ∃ w,
    threeTasks.SwitchTask 0x9000 = ok w ∧ ¬ Loaded w 0x9000 := by
  have hne : (0x9000 : U64) ≠ 0 := by decide
  obtain ⟨w, hcall, -, hcr3, hmem⟩ := SwitchTask.spec threeTasks hne
  refine ⟨w, hcall, fun hloaded => ?_⟩
  have hvas : vas w.cpu 0x9000 = 0x2000 := by
    rw [vas, hmem]
    exact threeTasks_vas.2.2
  have hsame := hloaded.2
  rw [hvas, hcr3] at hsame
  exact absurd hsame (by simp [threeTasks])

end lobo
