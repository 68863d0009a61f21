-- Task switches and mapping calls together. The address space in use is in
-- three places: `cr3`, the current task's `vas`, and `pdir_current` of the
-- VMM. `SwitchTask` changes the second alone, and every mapping call makes the
-- first follow the third.
import CanidaeOS.SwitchTask
import CanidaeOS.Vmm
import CanidaeOS.Runs

open Machine Program Outcome Runs

namespace lobo

/-- The processor and the current task, and what the VMM has: its directory,
the memory of the page tables, and the heap they are taken from. The control
blocks are in the processor's memory, and no page table lies over them. -/
structure Spaces (H : Type) where
  task : TaskCpu
  pdir_current : U64
  tables : Memory
  heap : H

namespace Spaces

section

variable {H : Type} (kmalloc_aligned : U64 → U64 → H → Outcome Stop (U64 × H))

/-- What the VMM sees. There is one `cr3`. -/
def view (w : Spaces H) : vmm H := ⟨w.pdir_current, w.tables, w.heap, w.task.cpu.cr3⟩

def put (w : Spaces H) (s : vmm H) : Spaces H :=
  ⟨{ w.task with cpu := { w.task.cpu with cr3 := s.cr3 } }, s.pdir_current, s.mem, s.heap⟩

inductive Event where
  | SwitchTask (task : U64)
  | map_direct (v_addr p_addr length : U64) (perm flags : U32)
  | unmap (address length : U64)

inductive Step : Spaces H → Event → Spaces H → Prop
  | SwitchTask {w : Spaces H} {task : U64} {t : TaskCpu} : w.task.SwitchTask task = ok t →
      Step w (.SwitchTask task) { w with task := t }
  | map_direct {w : Spaces H} {fuel : Nat} {v_addr p_addr length a : U64} {perm flags : U32}
      {s : vmm H} :
      vmm.map_direct kmalloc_aligned fuel v_addr p_addr length perm flags w.view = ok (a, s) →
      Step w (.map_direct v_addr p_addr length perm flags) (w.put s)
  | unmap {w : Spaces H} {fuel : Nat} {address length : U64} {r : U32} {s : vmm H} :
      vmm.unmap kmalloc_aligned fuel address length w.view = ok (r, s) →
      Step w (.unmap address length) (w.put s)

/-- The edit of a mapping call in the directory at `p4`. -/
def edit (fuel : Nat) (p4 : U64) : Event → vmm H → Outcome Stop (vmm H)
  | .SwitchTask _ => ok
  | .map_direct v_addr p_addr length perm _ =>
    vmm.map_pages kmalloc_aligned fuel p4 v_addr p_addr length (perm.setWidth 8)
  | .unmap address length => vmm.unmap_pages kmalloc_aligned fuel p4 address length

/-- The event is a call of `map_direct` or `unmap`. -/
def Event.Maps : Event → Prop
  | .SwitchTask _ => False
  | _ => True

/-- The address space of the current task, by its control block. -/
def space (w : Spaces H) : U64 := vas w.task.cpu w.task.currentTask

/-- The call edited the directory of the current task, and left it loaded. -/
def EditsTaskSpace (w : Spaces H) (e : Event) (w' : Spaces H) : Prop :=
  (∃ fuel s, edit kmalloc_aligned fuel (MEM_PHYS_TO_VIRT w.space) e w.view = ok s ∧
    w'.tables = s.mem ∧ w'.heap = s.heap) ∧ w'.task.cpu.cr3 = w'.space

variable {kmalloc_aligned}

/-! ## Steps -/

/-- A mapping call edits `pdir_current`, and loads it. -/
theorem Step.maps {w w' : Spaces H} {e : Event} (h : Step kmalloc_aligned w e w') (he : e.Maps) :
    (∃ fuel s, edit kmalloc_aligned fuel w.pdir_current e w.view = ok s ∧
      w'.tables = s.mem ∧ w'.heap = s.heap ∧ w'.pdir_current = s.pdir_current) ∧
    w'.task.cpu.cr3 = MEM_VIRT_TO_PHYS w'.pdir_current ∧ w'.space = w.space := by
  cases h with
  | SwitchTask => exact absurd he not_false
  | @map_direct fuel _ _ _ _ _ _ _ hcall =>
    obtain ⟨s, hs, hr⟩ := bind_eq_ok.mp hcall
    cases hr
    exact ⟨⟨fuel, s, hs, rfl, rfl, rfl⟩, rfl, rfl⟩
  | @unmap fuel _ _ _ _ hcall =>
    obtain ⟨s, hs, hr⟩ := bind_eq_ok.mp hcall
    cases hr
    exact ⟨⟨fuel, s, hs, rfl, rfl, rfl⟩, rfl, rfl⟩

theorem edit_pdir {fuel : Nat} {p4 : U64} {e : Event} {s s' : vmm H}
    (h : edit kmalloc_aligned fuel p4 e s = ok s') : s'.pdir_current = s.pdir_current := by
  cases e with
  | SwitchTask =>
    cases h
    rfl
  | map_direct =>
    exact (vmm.edit_keeps_pdir kmalloc_aligned).map_pages h
  | unmap =>
    exact (vmm.edit_keeps_pdir kmalloc_aligned).unmap_pages h

/-- No step changes `pdir_current`, a task switch included. -/
theorem pdir_step {w w' : Spaces H} {e : Event} (h : Step kmalloc_aligned w e w') :
    w'.pdir_current = w.pdir_current := by
  cases e with
  | SwitchTask =>
    cases h
    rfl
  | map_direct =>
    obtain ⟨⟨_, _, hs, _, _, hpdir⟩, _⟩ := h.maps trivial
    exact hpdir.trans (edit_pdir hs)
  | unmap =>
    obtain ⟨⟨_, _, hs, _, _, hpdir⟩, _⟩ := h.maps trivial
    exact hpdir.trans (edit_pdir hs)

/-! ## The law -/

/-- In every run of task switches and mapping calls, a mapping call edits the
directory of the current task and leaves it loaded if and only if that
directory is the one that the VMM had at the start of the run. -/
theorem mapping_calls_edit_the_first_space {w₀ w w' : Spaces H} {es : List Event} {e : Event}
    (run : Run (Step kmalloc_aligned) w₀ es w) (hcall : Step kmalloc_aligned w e w')
    (he : e.Maps) :
    EditsTaskSpace kmalloc_aligned w e w' ↔ w.space = MEM_VIRT_TO_PHYS w₀.pdir_current := by
  have hpdir : w.pdir_current = w₀.pdir_current := run.inv
    (fun w => w.pdir_current = w₀.pdir_current) (fun _ _ _ h hs => (pdir_step hs).trans h) rfl
  obtain ⟨⟨fuel, s, hs, htables, hheap, _⟩, hcr3, hspace⟩ := hcall.maps he
  have hkept := pdir_step hcall
  constructor
  · rintro ⟨_, hloaded⟩
    rw [← hspace, ← hloaded, hcr3, hkept, hpdir]
  · intro hsame
    refine ⟨⟨fuel, s, ?_, htables, hheap⟩, ?_⟩
    · rw [hsame, virt_to_phys_to_virt, ← hpdir]
      exact hs
    · rw [hcr3, hkept, hpdir, hspace, hsame]

end

/-! ## Two tasks -/

/-- A directory with one table behind another in its first entry. -/
def oneTable : vmm Globals :=
  { pdir_current := 0xffffffff80100000, cr3 := 0x100000
    mem := store64 (store64 (store64 (fun _ => 0) 0xffffffff80100000 0x101003)
      0xffffffff80101000 0x102003) 0xffffffff80102000 0x103003
    heap := kernel_early_heap 0x110000 0x120000 }

/-- That address space, with a task at `0x6000` in it, and a task at `0x5000`
in another one. -/
def twoSpaces : Spaces Globals :=
  { task := ⟨⟨fun _ => 0, 0x100000, false,
      store64 (store64 (fun _ => 0) 0x6000 0x100000) 0x5000 0x2000⟩, 0x6000⟩
    pdir_current := oneTable.pdir_current
    tables := oneTable.mem
    heap := oneTable.heap }

theorem one_page_maps :
    (vmm.map_direct kmalloc_aligned 2 0x1000 0x200000 0x1000 3 0 oneTable).Yields
      fun _ => True := by
  decide

/-- A page can be mapped behind a switch to any task. -/
theorem switch_and_map (task : U64) (hne : task ≠ 0) : ∃ w w',
    Run (Step kmalloc_aligned) twoSpaces [.SwitchTask task] w ∧
      Step kmalloc_aligned w (.map_direct 0x1000 0x200000 0x1000 3 0) w' ∧
      w.space = vas twoSpaces.task.cpu task := by
  obtain ⟨t, hswitch, hcurrent, hcr3, hmem⟩ := SwitchTask.spec twoSpaces.task hne
  obtain ⟨⟨a, s⟩, hcall, _⟩ := one_page_maps
  have hview : ({ twoSpaces with task := t } : Spaces Globals).view = oneTable := by
    rw [view, hcr3]
    rfl
  rw [← hview] at hcall
  refine ⟨_, _, .single (.SwitchTask hswitch), .map_direct hcall, ?_⟩
  change vas t.cpu t.currentTask = _
  rw [hcurrent, vas, hmem, vas]

theorem mapping_calls_edit_the_first_space_of_one : ∃ w w',
    Run (Step kmalloc_aligned) twoSpaces [.SwitchTask 0x6000] w ∧
      Step kmalloc_aligned w (.map_direct 0x1000 0x200000 0x1000 3 0) w' ∧
      EditsTaskSpace kmalloc_aligned w (.map_direct 0x1000 0x200000 0x1000 3 0) w' := by
  obtain ⟨w, w', run, hcall, hspace⟩ := switch_and_map 0x6000 (by decide)
  refine ⟨w, w', run, hcall, (mapping_calls_edit_the_first_space run hcall trivial).mpr ?_⟩
  rw [hspace]
  decide

/-- Behind a switch to the other task, the call edits and loads the directory
of the first one. -/
theorem a_mapping_call_edits_a_foreign_space : ∃ w w',
    Run (Step kmalloc_aligned) twoSpaces [.SwitchTask 0x5000] w ∧
      Step kmalloc_aligned w (.map_direct 0x1000 0x200000 0x1000 3 0) w' ∧
      ¬ EditsTaskSpace kmalloc_aligned w (.map_direct 0x1000 0x200000 0x1000 3 0) w' := by
  obtain ⟨w, w', run, hcall, hspace⟩ := switch_and_map 0x5000 (by decide)
  have hpdir : w.pdir_current = twoSpaces.pdir_current := run.inv
    (fun w => w.pdir_current = twoSpaces.pdir_current) (fun _ _ _ h hs => (pdir_step hs).trans h) rfl
  obtain ⟨_, hcr3, hspace'⟩ := hcall.maps trivial
  refine ⟨w, w', run, hcall, fun hedits => ?_⟩
  have hloaded := hedits.2
  rw [hcr3, pdir_step hcall, hpdir, hspace', hspace] at hloaded
  exact absurd hloaded (by decide)

end Spaces
end lobo
