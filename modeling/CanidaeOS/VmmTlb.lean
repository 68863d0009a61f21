-- The processor keeps translations that it has walked, and goes on using them
-- until `cr3` is loaded or the page is invalidated. `map_direct` and `unmap`
-- edit the tables page by page, tell the log, and load `cr3` last. The kernel
-- runs on as long as its own pages are translated, which they no longer are
-- once `vmm::init` has loaded its directory, as it does at boot.
import CanidaeOS.VmmProgress
import CanidaeOS.Runs

open Program Machine Outcome Paging RadixTree Runs

namespace lobo

/-- The manager and the processor. `kept` has the translations that the
processor keeps, by page. -/
structure Mmu (H : Type) where
  m_init : Bool
  pdir_kernel : U64
  space : vmm H
  kept : PageMap
  doing : Doing

namespace Mmu

variable {H : Type} (kmalloc_aligned : U64 → U64 → H → Outcome Stop (U64 × H))

/-! ## The code -/

/-- `mov cr3` drops every translation that was kept. -/
def swap_page_directory (newMemorySpace : U64) (w : Mmu H) : Mmu H :=
  { w with space := w.space.swap_page_directory newMemorySpace, kept := fun _ => none }

def init_kernel_page_directory (w : Mmu H) : Outcome Stop (Mmu H) := do
  let (pdir_kernel, heap) ← kmalloc_aligned 0x1000 0x1000 w.space.heap
  let mem := libc.memset pdir_kernel 0 PAGE_SIZE w.space.mem
  let pdir_current := pdir_kernel
  let w := { w with pdir_kernel, space := { w.space with heap, mem, pdir_current } }
  ok (w.swap_page_directory pdir_kernel)

def init (w : Mmu H) : Outcome Stop (Mmu H) :=
  if w.m_init = true then ok w
  else { w with m_init := true }.init_kernel_page_directory kmalloc_aligned

/-- `invalidate(addr)`: `invlpg` drops the page of the address. -/
def invalidate (addr : U64) (w : Mmu H) : Mmu H :=
  { w with kept := fun x => if x = pageAddr (pageOf addr) then none else w.kept x }

/-- `invalidate(start_addr, end_addr)` -/
def invalidate_range (fuel : Nat) (start_addr end_addr : U64) (w : Mmu H) : Outcome Stop (Mmu H) :=
  forStep 0x1000 end_addr (fun a w => ok (w.invalidate a)) fuel start_addr w

/-! ## The processor -/

/-- A walk from the directory that `cr3` names. -/
def walk (w : Mmu H) (v : U64) : Option (U64 × U64) :=
  Paging.translate MEM_PHYS_TO_VIRT w.space.mem (MEM_PHYS_TO_VIRT w.space.cr3) v

/-- For an access to a page the processor walks, or uses what it keeps. -/
def Uses (w : Mmu H) (x : U64) (t : Option (U64 × U64)) : Prop :=
  t = w.walk x ∨ t ≠ none ∧ t = w.kept x

/-- The kernel's own pages, its code, its stacks, its tables and the screen, are
where they were loaded, whatever the processor uses for them. -/
def Alive (kernel : U64 → Prop) (w : Mmu H) : Prop :=
  ∀ x, kernel x → ∀ t, w.Uses x t → ∃ flags, t = some (MEM_VIRT_TO_PHYS x, flags)

inductive Event where
  | init
  | call (c : VmmCall)
  /-- a turn of the call's loop -/
  | edit
  | log
  | load
  /-- `invalidate()` -/
  | invalidate_all
  | invalidate (addr : U64)
  | invalidate_range (start_addr end_addr : U64)
  /-- the processor keeps the translation of a page -/
  | keep (x : U64)

/-- The calls of a run. -/
def callsOf (es : List Event) : List VmmCall :=
  es.filterMap fun
    | .call c => some c
    | _ => none

/-- What the kernel does. The store of the page's entry is the last thing of a
turn: before it, the turn links blank tables, which translate nothing. -/
inductive Act (fuel : Nat) : Mmu H → Event → Mmu H → Prop
  /-- nothing of it shows before it loads `cr3` -/
  | init {w w' : Mmu H} : w.doing = .nothing → w.init kmalloc_aligned = ok w' → Act fuel w .init w'
  | call {w : Mmu H} {c : VmmCall} : w.doing = .nothing →
      Act fuel w (.call c) { w with doing := c.begin }
  | map_page {w : Mmu H} {addr addr_limit p_addr p_addr' : U64} {flags : U8} {s : vmm H} :
      w.doing = .map_pages addr addr_limit p_addr flags → addr < addr_limit →
      vmm.map_page kmalloc_aligned w.space.pdir_current flags addr (p_addr, w.space) =
        ok (p_addr', s) →
      Act fuel w .edit
        { w with space := s, doing := .map_pages (addr + PAGE_SIZE) addr_limit p_addr' flags }
  | unmap_page {w : Mmu H} {addr addr_limit : U64} {s : vmm H} :
      w.doing = .unmap_pages addr addr_limit → addr < addr_limit →
      vmm.unmap_page kmalloc_aligned w.space.pdir_current addr w.space = ok s →
      Act fuel w .edit { w with space := s, doing := .unmap_pages (addr + PAGE_SIZE) addr_limit }
  | log {w : Mmu H} : w.doing.Edited → Act fuel w .log { w with doing := .logged }
  | load {w : Mmu H} : w.doing = .logged →
      Act fuel w .load { w.swap_page_directory w.space.pdir_current with doing := .nothing }
  | invalidate_all {w : Mmu H} : w.doing = .nothing →
      Act fuel w .invalidate_all { w with doing := .swap_page_directory }
  | invalidate {w : Mmu H} {addr : U64} : w.doing = .nothing →
      Act fuel w (.invalidate addr) (w.invalidate addr)
  | invalidate_range {w w' : Mmu H} {start_addr end_addr : U64} : w.doing = .nothing →
      w.invalidate_range fuel start_addr end_addr = ok w' →
      Act fuel w (.invalidate_range start_addr end_addr) w'

/-- The kernel does something while it is alive, and the processor walks and
keeps at any time. An entry above the last table is only ever filled in, so it
makes no difference whether those are kept as well. -/
inductive Step (kernel : U64 → Prop) (fuel : Nat) : Mmu H → Event → Mmu H → Prop
  | act {w w' : Mmu H} {e : Event} : w.Alive kernel → Act kmalloc_aligned fuel w e w' →
      Step kernel fuel w e w'
  | keep {w : Mmu H} {x : U64} {t : U64 × U64} : PageAligned x → Canonical x → w.walk x = some t →
      Step kernel fuel w (.keep x) { w with kept := fun y => if y = x then some t else w.kept y }

/-! ## What every step keeps -/

variable {kmalloc_aligned} {Inv : H → Prop} {Free : H → Page → Prop} {kernel : U64 → Prop}
  {fuel : Nat} {w w' : Mmu H} {M₀ M N : PageMap} {cs : List VmmCall} {e : Event}

/-- The tables represent `N`, and what is kept is of `M` or of `N`. -/
structure Mirrors (Inv : H → Prop) (Free : H → Page → Prop) (w : Mmu H) (M N : PageMap) : Prop where
  sound : w.space.Sound Inv Free
  represents : w.space.Represents N
  cr3 : MEM_PHYS_TO_VIRT w.space.cr3 = w.space.pdir_current
  kept : ∀ x t, PageAligned x → Canonical x → w.kept x = some t → M x = some t ∨ N x = some t

theorem Mirrors.walk_eq (h : Mirrors Inv Free w M N) {x : U64} (hx : PageAligned x)
    (hc : Canonical x) : w.walk x = N x := by
  rw [walk, h.cr3]
  exact h.represents x hx hc

/-- Fewer translations kept, and the call further on. -/
theorem Mirrors.drop (h : Mirrors Inv Free w M N) {kept : PageMap}
    (hdrop : ∀ x t, kept x = some t → w.kept x = some t) {d : Doing} :
    Mirrors Inv Free { w with kept := kept, doing := d } M N :=
  ⟨h.sound, h.represents, h.cr3, fun x t hx hc hk => h.kept x t hx hc (hdrop x t hk)⟩

/-- A load of `cr3` leaves what the tables say. -/
theorem Mirrors.load (h : Mirrors Inv Free w M N) {d : Doing} :
    Mirrors Inv Free { w.swap_page_directory w.space.pdir_current with doing := d } N N :=
  ⟨vmm.swap_sound h.sound, h.represents, virt_to_phys_to_virt _, fun _ _ _ _ hk => by cases hk⟩

/-- A turn: what was kept of the page that it edits is of the map before. -/
theorem Mirrors.turn {c : VmmCall} {i : Nat} (hc : c.Valid) (hi : i < 2 ^ 52)
    (h : Mirrors Inv Free w M (c.after i M)) {s : vmm H} (hs : s.Sound Inv Free)
    (hrep : s.Represents (c.after (i + 1) M)) (hpdir : s.pdir_current = w.space.pdir_current)
    (hcr3 : s.cr3 = w.space.cr3) {d : Doing} :
    Mirrors Inv Free { w with space := s, doing := d } M (c.after (i + 1) M) := by
  refine ⟨hs, hrep, ?_, fun x t hx hcx hk => ?_⟩
  · dsimp only
    rw [hcr3, hpdir]
    exact h.cr3
  · rcases h.kept x t hx hcx hk with hM | hN
    · exact Or.inl hM
    · by_cases hpage : x = c.page i
      · rw [hpage, VmmCall.after_ahead c M hi, ← hpage] at hN
        exact Or.inl hN
      · rw [VmmCall.after_succ hc hi hx hpage]
        exact Or.inr hN

/-- The directory is blank: nothing is translated. -/
def Blank (w : Mmu H) : Prop := ∀ x, PageAligned x → Canonical x → ∀ t, w.Uses x t → t = none

/-- The directory that `init` loads. -/
theorem init.blank (hk : FreshPages kmalloc_aligned Inv Free) (hinv : Inv w.space.heap)
    (hw : w.m_init = false) (h : w.init kmalloc_aligned = ok w') : Blank w' := by
  rw [init, if_neg (by rw [hw]; exact Bool.false_ne_true)] at h
  obtain ⟨⟨table, heap⟩, hcall, h⟩ := bind_eq_ok.mp h
  cases h
  obtain ⟨-, ha, -⟩ := hk.ok hinv hcall
  rintro x - - t (rfl | ⟨hne, rfl⟩)
  · have hzero : cells (libc.memset table 0 PAGE_SIZE w.space.mem) (pageOf table)
        (x.extractLsb' 39 9) = 0 := by
      rw [← pageAddr_pageOf ha, pageOf_pageAddr, cells_memset, if_pos rfl]
    rw [cells, pageAddr_pageOf ha] at hzero
    change Paging.translate MEM_PHYS_TO_VIRT (libc.memset table 0 PAGE_SIZE w.space.mem)
      (MEM_PHYS_TO_VIRT (MEM_VIRT_TO_PHYS table)) x = none
    rw [virt_to_phys_to_virt, Paging.translate, path, Paging.walk, hzero, leaf_zero]
    rfl
  · exact absurd rfl hne

/-- With a page in the heap, `init` returns. -/
theorem init.total (hroom : Room kmalloc_aligned 1 w.space.heap) (hw : w.m_init = false) :
    ∃ w', w.init kmalloc_aligned = ok w' := by
  obtain ⟨table, heap, hcall, -⟩ := hroom
  have hcall' : kmalloc_aligned 0x1000 0x1000 w.space.heap = ok (table, heap) := hcall
  rw [init, if_neg (by rw [hw]; exact Bool.false_ne_true)]
  unfold init_kernel_page_directory
  dsimp only
  rw [hcall', bind_ok]
  exact ⟨_, rfl⟩

/-- A range of pages that are invalidated. -/
theorem invalidate_range.spec {start_addr end_addr : U64}
    (h : w.invalidate_range fuel start_addr end_addr = ok w') :
    ∃ kept : PageMap, w' = { w with kept := kept } ∧ ∀ x t, kept x = some t → w.kept x = some t := by
  refine forStep_inv (fun u : Mmu H => ∃ kept : PageMap, u = { w with kept := kept } ∧
    ∀ x t, kept x = some t → w.kept x = some t) ?_ ⟨w.kept, rfl, fun _ _ h => h⟩ h
  rintro a - u ⟨kept, rfl, hkept⟩ hu
  cases hu
  refine ⟨_, rfl, fun x t hk => hkept x t ?_⟩
  dsimp only at hk
  split at hk
  · cases hk
  · exact hk

end Mmu

end lobo
