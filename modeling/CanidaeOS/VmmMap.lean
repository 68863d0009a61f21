-- `vmm::map`, which finds the addresses itself (`vmm.cpp`). The frames come from
-- the PMM for a null address only, and their linear address is a sum of 64 bits.
import CanidaeOS.VmmCover

open Program Machine Outcome Paging RadixTree

namespace lobo

/-- Do not attempt to allocate memory. -/
def VMM_MAP_UNBACKED : U32 := 0x1

/-- Forces the allocated region to be within the kernel address space. -/
def VMM_MAP_REGION_KERNEL : U32 := 0x2

/-- Address is a physical address, map it to any virtual address. -/
def VMM_MAP_PHYS : U32 := 0x8

namespace vmm

/-! ## The code -/

/-- The first half of `map`: the logical and the physical address. -/
def map_addresses (fuel : Nat) (desired_addr length : U64) (flags : U32) (s : vmm Globals) :
    Outcome Stop (U64 × U64 × vmm Globals) :=
  let ram_backed := decide (flags &&& VMM_MAP_UNBACKED = 0)
  let region_kernel := decide (flags &&& VMM_MAP_REGION_KERNEL ≠ 0)
  let desired_is_paddr := decide (flags &&& VMM_MAP_PHYS ≠ 0)
  if ram_backed = true then
    if desired_addr = 0 then do
      let (p_addr, kernel_pmm) ← s.heap.kernel_pmm.allocate fuel (length / 0x1000)
      let s := { s with heap := { s.heap with kernel_pmm } }
      if region_kernel = true then ok (MEM_PHYS_TO_VIRT p_addr, p_addr, s)
      else panic "vmm: Unimplemented, no free address finding"
    else if region_kernel = true then do
      let l_addr := desired_addr
      let p_addr := MEM_VIRT_TO_PHYS l_addr
      assert (l_addr > KERNEL_VMB) "l_addr > (logical_addr_t)&KERNEL_VMB"
      ok (l_addr, p_addr, s)
    else panic "vmm: Unimplemented, no free address finding"
  else if desired_is_paddr = true then
    let p_addr := desired_addr
    if region_kernel = true then ok (MEM_PHYS_TO_VIRT p_addr, p_addr, s)
    -- identity mapped
    else ok (p_addr, p_addr, s)
  else panic "vmm: Unimplemented, no unmapped memory support"

/-- The heap that the page tables come from holds the PMM too. -/
def map (fuel : Nat) (desired_addr length : U64) (perm flags : U32) (s : vmm Globals) :
    Outcome Stop (U64 × vmm Globals) := do
  let (l_addr, p_addr, s) ← map_addresses fuel desired_addr length flags s
  let s ← map_pages kmalloc_aligned fuel s.pdir_current l_addr p_addr length (perm.setWidth 8) s
  ok (l_addr, swap_page_directory s.pdir_current s)

/-! ## The addresses -/

/-- The same space over another PMM. -/
def withPmm (s : vmm Globals) (p : pmm) : vmm Globals :=
  { s with heap := { s.heap with kernel_pmm := p } }

/-- The soundness of a space does not ask for the PMM. -/
theorem Sound.withPmm {s : vmm Globals} (hs : s.Sound HeapInWindow HeapFree) (p : pmm) :
    (s.withPmm p).Sound HeapInWindow HeapFree :=
  ⟨hs.top, hs.tree, ⟨hs.heap.window, hs.heap.below, hs.heap.limit⟩, hs.fresh⟩

/-- The physical address of a call in the kernel region: a run of frames that
the PMM returned, or the address that the caller gave for one. -/
def PhysicalOf (fuel : Nat) (desired_addr length : U64) (flags : U32) (s : vmm Globals) (p_addr : U64) :
    Prop :=
  (flags &&& VMM_MAP_UNBACKED = 0 ∧ desired_addr = 0 ∧
      ∃ p, s.heap.kernel_pmm.allocate fuel (length / 0x1000) = ok (p_addr, p)) ∨
    (flags &&& VMM_MAP_UNBACKED ≠ 0 ∧ flags &&& VMM_MAP_PHYS ≠ 0 ∧ desired_addr = p_addr)

variable {fuel : Nat} {desired_addr length r p_addr : U64} {perm flags : U32} {s s' : vmm Globals}

/-- A call that returns has mapped what it found the addresses of. -/
theorem map.returned (h : map fuel desired_addr length perm flags s = ok (r, s')) :
    ∃ p_addr t u, map_addresses fuel desired_addr length flags s = ok (r, p_addr, t) ∧
      map_pages kmalloc_aligned fuel t.pdir_current r p_addr length (perm.setWidth 8) t = ok u ∧
      s' = swap_page_directory u.pdir_current u := by
  obtain ⟨⟨l_addr, p_addr, t⟩, haddr, h⟩ := bind_eq_ok.mp h
  obtain ⟨u, hu, h⟩ := bind_eq_ok.mp h
  cases h
  exact ⟨p_addr, t, u, haddr, hu, rfl⟩

/-- A call for frames of the kernel region. -/
theorem map_addresses.backed (hbacked : flags &&& VMM_MAP_UNBACKED = 0)
    (hregion : flags &&& VMM_MAP_REGION_KERNEL ≠ 0) :
    map_addresses fuel 0 length flags s =
      s.heap.kernel_pmm.allocate fuel (length / 0x1000) >>= fun a =>
        ok (MEM_PHYS_TO_VIRT a.1, a.1, s.withPmm a.2) := by
  simp only [map_addresses, hbacked, hregion, decide_true, decide_not, decide_false, Bool.not_false,
    if_true, withPmm]

/-- A call for a physical address in the kernel region. -/
theorem map_addresses.physical (hunbacked : flags &&& VMM_MAP_UNBACKED ≠ 0)
    (hphys : flags &&& VMM_MAP_PHYS ≠ 0) (hregion : flags &&& VMM_MAP_REGION_KERNEL ≠ 0) :
    map_addresses fuel desired_addr length flags s =
      ok (MEM_PHYS_TO_VIRT desired_addr, desired_addr, s) := by
  simp only [map_addresses, hunbacked, hphys, hregion, decide_not, decide_false,
    Bool.not_false, if_true, Bool.false_eq_true, if_false]

/-- The first half of `map` changes the PMM at most. -/
theorem map_addresses.space {l q : U64} {t : vmm Globals}
    (h : map_addresses fuel desired_addr length flags s = ok (l, q, t)) : ∃ p, t = s.withPmm p := by
  have hsame : s = s.withPmm s.heap.kernel_pmm := rfl
  simp only [map_addresses] at h
  split at h
  · split at h
    · obtain ⟨⟨a, p⟩, -, h⟩ := bind_eq_ok.mp h
      split at h
      · rw [ok.injEq, Prod.mk.injEq, Prod.mk.injEq] at h
        exact ⟨p, h.2.2.symm⟩
      · cases h
    · split at h
      · obtain ⟨-, -, h⟩ := bind_eq_ok.mp h
        rw [ok.injEq, Prod.mk.injEq, Prod.mk.injEq] at h
        exact ⟨_, h.2.2.symm.trans hsame⟩
      · cases h
  · split at h
    · split at h
      · rw [ok.injEq, Prod.mk.injEq, Prod.mk.injEq] at h
        exact ⟨_, h.2.2.symm.trans hsame⟩
      · rw [ok.injEq, Prod.mk.injEq, Prod.mk.injEq] at h
        exact ⟨_, h.2.2.symm.trans hsame⟩
    · cases h

/-- In the kernel region the two addresses are a window apart. -/
theorem map_addresses.window (hregion : flags &&& VMM_MAP_REGION_KERNEL ≠ 0)
    (hphys : PhysicalOf fuel desired_addr length flags s p_addr)
    {l q : U64} {t : vmm Globals} (h : map_addresses fuel desired_addr length flags s = ok (l, q, t)) :
    l = MEM_PHYS_TO_VIRT p_addr ∧ q = p_addr := by
  rcases hphys with ⟨hbacked, rfl, p, hcall⟩ | ⟨hunbacked, hphys, rfl⟩
  · rw [map_addresses.backed hbacked hregion, hcall, bind_ok, ok.injEq, Prod.mk.injEq,
      Prod.mk.injEq] at h
    exact ⟨h.1.symm, h.2.1.symm⟩
  · rw [map_addresses.physical hunbacked hphys hregion, ok.injEq, Prod.mk.injEq, Prod.mk.injEq] at h
    exact ⟨h.1.symm, h.2.1.symm⟩

/-! ## The kernel region -/

/-- The range lies in the kernel region, from `KERNEL_VMB` to the top. -/
def InKernelRegion (r length : U64) : Prop :=
  ∀ x, r.toNat ≤ x → x < r.toNat + length.toNat → KERNEL_VMB.toNat ≤ x ∧ x < 2 ^ 64

/-- A range that the window shows is in the region if and only if the physical
one ends at or below 2 GiB. -/
theorem inKernelRegion_iff (hp : p_addr.toNat < 2 ^ 52) :
    InKernelRegion (MEM_PHYS_TO_VIRT p_addr) length ↔
      length = 0 ∨ p_addr.toNat + length.toNat ≤ 2 ^ 31 := by
  have hr := phys_to_virt_toNat p_addr
  have hbase : KERNEL_VMB.toNat = 2 ^ 64 - 2 ^ 31 := rfl
  have hzero : length = 0 ↔ length.toNat = 0 := BitVec.toNat_inj.symm
  rw [hzero]
  unfold InKernelRegion
  rw [hbase]
  constructor
  · intro h
    by_cases hlen : length.toNat = 0
    · exact Or.inl hlen
    · have hfirst := h (MEM_PHYS_TO_VIRT p_addr).toNat (Nat.le_refl _) (by omega)
      have hlast := h ((MEM_PHYS_TO_VIRT p_addr).toNat + (length.toNat - 1)) (by omega) (by omega)
      split at hr
      · exact Or.inr (by omega)
      · omega
  · rintro (hlen | hend) x hx hx'
    · omega
    · rw [if_pos (by omega)] at hr
      omega

/-- A call in the kernel region returns a range there, whose start leads back
to the physical address, if and only if the physical range ends at or below
2 GiB, or is empty. -/
theorem a_kernel_mapping_is_in_the_kernel_region_iff
    (hregion : flags &&& VMM_MAP_REGION_KERNEL ≠ 0)
    (hphys : PhysicalOf fuel desired_addr length flags s p_addr) (hp : p_addr.toNat < 2 ^ 52)
    (h : map fuel desired_addr length perm flags s = ok (r, s')) :
    (InKernelRegion r length ∧ MEM_VIRT_TO_PHYS r = p_addr) ↔
      length = 0 ∨ p_addr.toNat + length.toNat ≤ 2 ^ 31 := by
  obtain ⟨q, t, u, haddr, -, -⟩ := map.returned h
  obtain ⟨rfl, -⟩ := map_addresses.window hregion hphys haddr
  rw [phys_to_virt_to_phys, and_iff_left rfl]
  exact inKernelRegion_iff hp

end vmm

/-- A device's page, mapped over the empty directory. -/
theorem map_device_page (desired_addr : U64) (hends : Ends (MEM_PHYS_TO_VIRT desired_addr) 0x1000)
    (hturns : turns (MEM_PHYS_TO_VIRT desired_addr) 0x1000 ≤ 1) :
    ∃ s', vmm.map (2 ^ 52 + 1) desired_addr 0x1000 3 0xB emptySpace =
      ok (MEM_PHYS_TO_VIRT desired_addr, s') := by
  obtain ⟨t, ht, -, -⟩ :=
    @map_direct_from_empty _ _ 0 hends (by omega) (fun i hi j hj => by omega) desired_addr 3 0
  unfold vmm.map
  rw [vmm.map_addresses.physical (by decide) (by decide) (by decide), bind_ok]
  dsimp only
  rw [ht, bind_ok]
  exact ⟨_, rfl⟩

theorem vmm.a_kernel_mapping_is_in_the_kernel_region_iff_of_a_page : ∃ s',
    vmm.map (2 ^ 52 + 1) 0xB8000 0x1000 3 0xB emptySpace = ok (0xffffffff800b8000, s') ∧
      ((InKernelRegion 0xffffffff800b8000 0x1000 ∧ MEM_VIRT_TO_PHYS 0xffffffff800b8000 = 0xB8000) ↔
        (0x1000 : U64) = 0 ∨ (0xB8000 : U64).toNat + (0x1000 : U64).toNat ≤ 2 ^ 31) := by
  obtain ⟨s', h⟩ := map_device_page 0xB8000 (fun _ => by decide) (by decide)
  refine ⟨s', h, ?_⟩
  exact vmm.a_kernel_mapping_is_in_the_kernel_region_iff (by decide)
    (Or.inr ⟨by decide, by decide, rfl⟩) (by decide) h

/-- The registers of a device between 2 and 4 GiB are mapped far below the
kernel region. -/
theorem vmm.a_device_is_mapped_outside_of_the_kernel_region : ∃ s',
    vmm.map (2 ^ 52 + 1) 0xFEC00000 0x1000 3 0xB emptySpace = ok (0x7EC00000, s') ∧
      ¬ InKernelRegion 0x7EC00000 0x1000 := by
  obtain ⟨s', h⟩ := map_device_page 0xFEC00000 (fun _ => by decide) (by decide)
  refine ⟨s', h, fun hin => ?_⟩
  have hfirst := (hin 0x7EC00000 (by decide) (by decide)).1
  revert hfirst
  decide

end lobo
