-- The modules that the multiboot loader leaves in memory (`multiboot.c`), and
-- the heap behind one of them. The boot loader looks for the kernel's module
-- alone, and puts its heap on the first page behind it.
import CanidaeOS.AwdImage

open Program Machine Outcome Paging

namespace awd

/-! ## The structures of the loader -/

namespace multiboot_info_t

def mods_count (m : Memory) (p : U32) : U32 := BitVec.ofNat 32 (number m (p + 20) 4)
def mods_addr (m : Memory) (p : U32) : U32 := BitVec.ofNat 32 (number m (p + 24) 4)

end multiboot_info_t

namespace multiboot_module_t

def mod_start (m : Memory) (p : U32) : U32 := BitVec.ofNat 32 (number m p 4)
def mod_end (m : Memory) (p : U32) : U32 := BitVec.ofNat 32 (number m (p + 4) 4)
def cmdline (m : Memory) (p : U32) : U32 := BitVec.ofNat 32 (number m (p + 8) 4)

/-- `sizeof(multiboot_module_t)` -/
def size : U32 := 16

end multiboot_module_t

open multiboot_info_t multiboot_module_t

/-! ## The code -/

/-- `KERNEL_TAG_NAME`, with its end mark. -/
def KERNEL_TAG_NAME : List U8 := [0x6b, 0x65, 0x72, 0x6e, 0x65, 0x6c, 0]

/-- `strcmp` with a second string that ends with its end mark. -/
def strcmp (m : Memory) : U32 → List U8 → Int
  | str1, [] => (loadByte m str1).toNat
  | str1, c :: str2 =>
    if loadByte m str1 ≠ 0 ∧ loadByte m str1 = c then strcmp m (str1 + 1) str2
    else (loadByte m str1).toNat - c.toNat

/-- The module structures, in the order of the list. -/
def modules (m : Memory) (mb_struct : U32) : List U32 :=
  (List.range (mods_count m mb_struct).toNat).map fun i =>
    mods_addr m mb_struct + size * BitVec.ofNat 32 i

/-- The first module with the kernel's tag. With no such module among others the
result is a null pointer. -/
def multiboot_find_kernel (m : Memory) (mb_struct : U32) : Outcome Stop U32 :=
  match (modules m mb_struct).find? fun p => strcmp m (cmdline m p) KERNEL_TAG_NAME = 0 with
  | some p => ok p
  | none =>
    if mods_count m mb_struct = 0 then
      panic "multiboot: No kernel found, no modules were loaded by the multiboot bootloader."
    else ok 0

/-- `multiboot_analyse`. It leaves `phys` and `virt` to `kernel_analyse`. -/
def multiboot_analyse (m : Memory) (mb_struct : U32) (mem : mem_info) :
    Outcome Stop (kernel_info_t × mem_info) := do
  let kernel_module ← multiboot_find_kernel m mb_struct
  let image_start := mod_start m kernel_module
  let image_end := mod_end m kernel_module
  ok (⟨image_start, image_end, ⟨0, 0⟩, ⟨0, 0⟩⟩,
    { mem with region_multiboot_files :=
        ⟨PAGE_ROUND_UP (image_start.setWidth 64), PAGE_ROUND_UP (image_end.setWidth 64) - 1⟩ })

/-- The symbols of the boot loader: its first byte, the byte behind its last,
and the page of its first table. -/
structure Symbols where
  awd_phys_start : U32
  awd_phys_end : U32
  paging_pml4 : U32
  order : awd_phys_start < awd_phys_end
  aligned : PageAligned (paging_pml4.setWidth 64)

/-- A boot loader of 64 KiB, from 1 MiB on. -/
def symbolsAt1M : Symbols := ⟨0x100000, 0x110000, 0x101000, by decide, by decide⟩

/-- The heap before its `alloc_init`. -/
def alloc.static : alloc := ⟨0, 0, 0, false⟩

/-- `awd_main` from `memory_init` to `memory_heap_init`. -/
def awd_main_heap (sym : Symbols) (mb_struct : U32) (m : Memory) :
    Outcome Stop (kernel_info_t × mem_info × loader) := do
  let mem := memory_init sym.awd_phys_start sym.awd_phys_end mem_info.static
  let (kernel_info, mem) ← multiboot_analyse m mb_struct mem
  let (kernel_info, s) ← kernel_analyse kernel_info ⟨alloc.static, m, [], []⟩
  let (mem, alloc) := memory_heap_init (PAGE_ROUND_UP mem.region_multiboot_files.last) mem
  ok (kernel_info, mem, { s with alloc })

/-! ## The specs -/

/-- The bytes of the kernel's tag are at `p`. -/
def TaggedAt (m : Memory) (p : U32) (tag : List U8) : Prop :=
  ∀ i (h : i < tag.length), loadByte m (p + BitVec.ofNat 32 i) = tag[i]

theorem taggedAt_cons {m : Memory} {p : U32} {c : U8} {tag : List U8} :
    TaggedAt m p (c :: tag) ↔ loadByte m p = c ∧ TaggedAt m (p + 1) tag := by
  have hnext : ∀ i, p + 1 + BitVec.ofNat 32 i = p + BitVec.ofNat 32 (i + 1) := by
    intro i
    rw [BitVec.add_assoc, Nat.add_comm i, BitVec.ofNat_add]
    rfl
  constructor
  · intro h
    refine ⟨?_, fun i hi => ?_⟩
    · simpa using h 0 (Nat.succ_pos _)
    · rw [hnext]
      exact h (i + 1) (Nat.succ_lt_succ hi)
  · rintro ⟨hc, htag⟩ i hi
    cases i with
    | zero => simpa using hc
    | succ i =>
      rw [← hnext]
      exact htag i (Nat.lt_of_succ_lt_succ hi)

theorem strcmp_eq_zero {m : Memory} {p : U32} {name : List U8} (h : ∀ c ∈ name, c ≠ 0) :
    strcmp m p (name ++ [0]) = 0 ↔ TaggedAt m p (name ++ [0]) := by
  induction name generalizing p with
  | nil =>
    have hnot : ¬ (loadByte m p ≠ 0 ∧ loadByte m p = 0) := fun h => h.1 h.2
    rw [List.nil_append, strcmp, if_neg hnot, taggedAt_cons, ← BitVec.toNat_inj]
    simp [TaggedAt]
  | cons c name ih =>
    have hc : c ≠ 0 := h c List.mem_cons_self
    have ih := ih (p := p + 1) fun c hc => h c (List.mem_cons_of_mem _ hc)
    rw [List.cons_append, strcmp, taggedAt_cons]
    by_cases heq : loadByte m p = c
    · rw [if_pos ⟨heq ▸ hc, heq⟩, ih]
      simp [heq]
    · rw [if_neg fun h => heq h.2]
      have hne : (loadByte m p).toNat ≠ c.toNat := fun h => heq (BitVec.eq_of_toNat_eq h)
      constructor
      · intro h
        omega
      · intro h
        exact absurd h.1 heq

/-- The module names the kernel. -/
def Tagged (m : Memory) (p : U32) : Prop := TaggedAt m (cmdline m p) KERNEL_TAG_NAME

theorem strcmp_tag (m : Memory) (p : U32) :
    strcmp m (cmdline m p) KERNEL_TAG_NAME = 0 ↔ Tagged m p :=
  @strcmp_eq_zero m (cmdline m p) [0x6b, 0x65, 0x72, 0x6e, 0x65, 0x6c] (by decide)

/-- The first tagged module is found. -/
theorem multiboot_find_kernel.spec {m : Memory} {mb_struct k : U32} {front behind : List U32}
    (hlist : modules m mb_struct = front ++ k :: behind) (hk : Tagged m k)
    (hfront : ∀ p ∈ front, ¬ Tagged m p) : multiboot_find_kernel m mb_struct = ok k := by
  have hfind : (modules m mb_struct).find?
      (fun p => strcmp m (cmdline m p) KERNEL_TAG_NAME = 0) = some k := by
    refine List.find?_eq_some_iff_append.mpr ⟨?_, front, behind, hlist, ?_⟩
    · rw [decide_eq_true_eq, strcmp_tag]
      exact hk
    · intro p hp
      rw [Bool.not_eq_true', decide_eq_false_iff_not, strcmp_tag]
      exact hfront p hp
  rw [multiboot_find_kernel, hfind]

/-- With no tagged module among others the result is a null pointer. -/
theorem multiboot_find_kernel.null {m : Memory} {mb_struct : U32}
    (hnone : ∀ p ∈ modules m mb_struct, ¬ Tagged m p) (hcount : mods_count m mb_struct ≠ 0) :
    multiboot_find_kernel m mb_struct = ok 0 := by
  have hfind : (modules m mb_struct).find?
      (fun p => strcmp m (cmdline m p) KERNEL_TAG_NAME = 0) = none := by
    rw [List.find?_eq_none]
    intro p hp
    rw [decide_eq_true_eq, strcmp_tag]
    exact hnone p hp
  rw [multiboot_find_kernel, hfind]
  simp only [if_neg hcount]

/-- In front of the first module of a kind there is none of that kind. -/
theorem exists_first {α : Type} {P : α → Prop} {l : List α} (h : ∃ a ∈ l, P a) :
    ∃ front a behind, l = front ++ a :: behind ∧ P a ∧ ∀ b ∈ front, ¬ P b := by
  classical
  obtain ⟨a, ha⟩ : ∃ a, l.find? (fun a => decide (P a)) = some a := by
    rw [← Option.isSome_iff_exists, List.find?_isSome]
    simpa using h
  obtain ⟨hp, front, behind, hl, hfront⟩ := List.find?_eq_some_iff_append.mp ha
  exact ⟨front, a, behind, hl, by simpa using hp, by simpa using hfront⟩

/-! ## The choice of a module -/

/-- `multiboot_analyse` panics, or its fields are those of the first tagged
module. -/
def ChoosesKernel (m : Memory) (mb_struct : U32) (mem : mem_info) : Prop :=
  (∃ fmt, multiboot_analyse m mb_struct mem = panic fmt) ∨
    ∃ front k behind, modules m mb_struct = front ++ k :: behind ∧ Tagged m k ∧
      (∀ p ∈ front, ¬ Tagged m p) ∧
      (multiboot_analyse m mb_struct mem).Yields fun (kernel_info, _) =>
        kernel_info.image_start = mod_start m k ∧ kernel_info.image_end = mod_end m k

/-- The kernel's module is chosen where there is one, or where there is none at
all. Among other modules its absence is not noticed. -/
theorem the_kernel_is_chosen_iff (m : Memory) (mb_struct : U32) (mem : mem_info) :
    ChoosesKernel m mb_struct mem ↔
      mods_count m mb_struct = 0 ∨ ∃ p ∈ modules m mb_struct, Tagged m p := by
  constructor
  · rintro (⟨fmt, hpanic⟩ | ⟨front, k, behind, hlist, hk, -⟩)
    · by_contra hnot
      push Not at hnot
      obtain ⟨hcount, hnone⟩ := hnot
      rw [multiboot_analyse, multiboot_find_kernel.null hnone hcount] at hpanic
      cases hpanic
    · refine Or.inr ⟨k, ?_, hk⟩
      rw [hlist]
      simp
  · rintro (hcount | htagged)
    · have hempty : modules m mb_struct = [] := by simp [modules, hcount]
      refine Or.inl ⟨"multiboot: No kernel found, no modules were loaded by the multiboot bootloader.", ?_⟩
      rw [multiboot_analyse, multiboot_find_kernel, hempty]
      simp only [List.find?_nil, if_pos hcount]
      rfl
    · obtain ⟨front, k, behind, hlist, hk, hfront⟩ := exists_first htagged
      refine Or.inr ⟨front, k, behind, hlist, hk, hfront, ?_⟩
      rw [multiboot_analyse, multiboot_find_kernel.spec hlist hk hfront]
      exact ⟨_, rfl, rfl, rfl⟩

/-- One module, with an empty command line. -/
@[irreducible] def untaggedModule : Memory :=
  written [(0x9014, 4, 1), (0x9018, 4, 0x9100), (0x9108, 4, 0x9200)] fun _ => 0

theorem a_list_without_a_kernel_is_analysed :
    ¬ ChoosesKernel untaggedModule 0x9000 mem_info.static := by
  have hcount : mods_count untaggedModule 0x9000 ≠ 0 := by with_unfolding_all decide
  have hlist : modules untaggedModule 0x9000 = [0x9100] := by with_unfolding_all decide
  have hcmp : ¬ strcmp untaggedModule (cmdline untaggedModule 0x9100) KERNEL_TAG_NAME = 0 := by
    with_unfolding_all decide
  have hnone : ∀ p ∈ modules untaggedModule 0x9000, ¬ Tagged untaggedModule p := by
    rw [hlist]
    intro p hp
    obtain rfl := List.mem_singleton.mp hp
    exact fun h => hcmp ((strcmp_tag _ _).mpr h)
  rintro (⟨fmt, hpanic⟩ | ⟨front, k, behind, hall, hk, -⟩)
  · rw [multiboot_analyse, multiboot_find_kernel.null hnone hcount] at hpanic
    cases hpanic
  · exact hnone k (by rw [hall]; simp) hk

/-! ## The heap behind a module -/

/-- What `multiboot_analyse` says of the module that was found. -/
def moduleInfo (m : Memory) (k : U32) : kernel_info_t := ⟨mod_start m k, mod_end m k, ⟨0, 0⟩, ⟨0, 0⟩⟩

/-- Where the heap starts, behind the module. -/
def heapBase (m : Memory) (k : U32) : U64 := PAGE_ROUND_UP ((mod_end m k).setWidth 64)

theorem heapBase_toNat (m : Memory) (k : U32) :
    (alloc_init (heapBase m k)).heap_phys_current.toNat = pageRounded (mod_end m k).toNat ∧
      (alloc_init (heapBase m k)).heap_phys_limit.toNat = pageRounded (mod_end m k).toNat + 0x40000 :=
  alloc_init_behind (mod_end m k)

/-- Up to the heap, the boot loader has analysed the module that was found, and
has its heap on the first page behind it. -/
theorem awd_main_heap.spec {sym : Symbols} {mb_struct k : U32} {m : Memory} {info : kernel_info_t}
    {mem : mem_info} {s : loader} (hk : multiboot_find_kernel m mb_struct = ok k)
    (h : awd_main_heap sym mb_struct m = ok (info, mem, s)) :
    info = analysed (moduleInfo m k) m ∧ s.mem = m ∧ s.alloc = alloc_init (heapBase m k) ∧
      s.copies = [] ∧
      mem.region_low_memory = ⟨0, 0x100000 - 1⟩ ∧
      mem.region_awd_image = ⟨sym.awd_phys_start.setWidth 64,
        PAGE_ROUND_UP (sym.awd_phys_end.setWidth 64) - 1⟩ ∧
      mem.region_awd_malloc = ⟨heapBase m k, heapBase m k + AWD_ALLOC_SIZE - 1⟩ := by
  have hlast := PAGE_ROUND_UP_last (mod_end m k)
  simp only [awd_main_heap, multiboot_analyse, hk, bind_ok] at h
  obtain ⟨⟨info', s'⟩, hanalyse, h⟩ := bind_eq_ok.mp h
  cases h
  rw [kernel_analyse.spec] at hanalyse
  split at hanalyse
  · cases hanalyse
  · cases hanalyse
    refine ⟨rfl, rfl, ?_, rfl, rfl, rfl, ?_⟩
    · exact congrArg alloc_init hlast
    · show mem_region.mk (PAGE_ROUND_UP _) (PAGE_ROUND_UP _ + AWD_ALLOC_SIZE - 1) = _
      rw [hlast]
      rfl

/-! ## The law -/

/-- No address of the heap is in the module. -/
def Spares (a : alloc) (m : Memory) (p : U32) : Prop :=
  ∀ x, ¬ ((a.heap_phys_current.toNat ≤ x ∧ x < a.heap_phys_limit.toNat) ∧
    (mod_start m p).toNat ≤ x ∧ x < (mod_end m p).toNat)

/-- A module that goes on behind the last page of the kernel's module starts
behind the heap. -/
def ClearOfHeap (m : Memory) (kernel p : U32) : Prop :=
  (mod_start m p).toNat < (mod_end m p).toNat →
    pageRounded (mod_end m kernel).toNat < (mod_end m p).toNat →
    pageRounded (mod_end m kernel).toNat + 0x40000 ≤ (mod_start m p).toNat

/-- The heap that `awd_main` chooses spares all modules if and only if those
that end behind the kernel's last page start 256 KiB behind it. -/
theorem a_heap_spares_the_modules {sym : Symbols} {mb_struct k : U32} {m : Memory}
    {info : kernel_info_t} {mem : mem_info} {s : loader} {front behind : List U32}
    (hlist : modules m mb_struct = front ++ k :: behind) (hk : Tagged m k)
    (hfront : ∀ p ∈ front, ¬ Tagged m p)
    (h : awd_main_heap sym mb_struct m = ok (info, mem, s)) :
    (∀ p ∈ modules m mb_struct, Spares s.alloc m p) ↔
      ∀ p ∈ modules m mb_struct, ClearOfHeap m k p := by
  obtain ⟨hcur, hlimit⟩ := heapBase_toNat m k
  have halloc := (awd_main_heap.spec (multiboot_find_kernel.spec hlist hk hfront) h).2.2.1
  have hspares : ∀ p, Spares s.alloc m p ↔ ClearOfHeap m k p := by
    intro p
    unfold Spares ClearOfHeap
    rw [halloc, hcur, hlimit]
    constructor
    · intro hnone hstart hend
      by_contra hlt
      -- the later of the two starts is in both
      apply hnone (max (pageRounded (mod_end m k).toNat) (mod_start m p).toNat)
      omega
    · rintro hclear x ⟨⟨hge, hlt⟩, hstart, hend⟩
      have := hclear (by omega) (by omega)
      omega
  simp only [hspares]

/-- Two modules: a kernel with no program headers from 2 MiB on, of two pages,
and a second one. -/
@[irreducible] def twoModules (mod_start mod_end : Nat) : Memory :=
  written (ehdr 0x200000 0 ++ [(0x9014, 4, 2), (0x9018, 4, 0x9100),
    (0x9100, 4, mod_start), (0x9104, 4, mod_end), (0x9108, 4, 0x9207),
    (0x9110, 4, 0x200000), (0x9114, 4, 0x202000), (0x9118, 4, 0x9200),
    (0x9200, 7, 0x6c656e72656b)]) fun _ => 0

theorem a_heap_spares_a_far_module : ∃ info mem s,
    awd_main_heap symbolsAt1M 0x9000 (twoModules 0x300000 0x301000) = ok (info, mem, s) ∧
      ((∀ p ∈ modules (twoModules 0x300000 0x301000) 0x9000,
          Spares s.alloc (twoModules 0x300000 0x301000) p) ↔
        ∀ p ∈ modules (twoModules 0x300000 0x301000) 0x9000,
          ClearOfHeap (twoModules 0x300000 0x301000) 0x9110 p) := by
  have hrun : (awd_main_heap symbolsAt1M 0x9000 (twoModules 0x300000 0x301000)).Yields
      fun _ => True := by
    with_unfolding_all decide
  obtain ⟨⟨info, mem, s⟩, hrun, -⟩ := hrun
  have hlist : modules (twoModules 0x300000 0x301000) 0x9000 = [0x9100] ++ 0x9110 :: [] := by
    with_unfolding_all decide
  have hk : strcmp (twoModules 0x300000 0x301000) (cmdline (twoModules 0x300000 0x301000) 0x9110)
      KERNEL_TAG_NAME = 0 := by
    with_unfolding_all decide
  have hfront : ¬ strcmp (twoModules 0x300000 0x301000)
      (cmdline (twoModules 0x300000 0x301000) 0x9100) KERNEL_TAG_NAME = 0 := by
    with_unfolding_all decide
  refine ⟨info, mem, s, hrun, a_heap_spares_the_modules hlist ((strcmp_tag _ _).mp hk) ?_ hrun⟩
  intro p hp
  obtain rfl := List.mem_singleton.mp hp
  exact fun h => hfront ((strcmp_tag _ _).mpr h)

/-- One of the two modules ends before the other starts. -/
def ModulesApart (m : Memory) (p q : U32) : Prop :=
  mod_end m p ≤ mod_start m q ∨ mod_end m q ≤ mod_start m p

instance (m : Memory) (p q : U32) : Decidable (ModulesApart m p q) :=
  inferInstanceAs (Decidable (_ ∨ _))

/-- The heap starts in a module on the page behind the kernel's. -/
theorem a_heap_starts_in_the_next_module : ∃ info mem s,
    awd_main_heap symbolsAt1M 0x9000 (twoModules 0x202000 0x203000) = ok (info, mem, s) ∧
      (modules (twoModules 0x202000 0x203000) 0x9000).Pairwise
        (ModulesApart (twoModules 0x202000 0x203000)) ∧
      (∃ p ∈ modules (twoModules 0x202000 0x203000) 0x9000, Tagged (twoModules 0x202000 0x203000) p) ∧
      ¬ ∀ p ∈ modules (twoModules 0x202000 0x203000) 0x9000,
        Spares s.alloc (twoModules 0x202000 0x203000) p := by
  have hrun : (awd_main_heap symbolsAt1M 0x9000 (twoModules 0x202000 0x203000)).Yields
      fun r => r.2.2.alloc.heap_phys_current = 0x202000 ∧
        r.2.2.alloc.heap_phys_limit = 0x242000 := by
    with_unfolding_all decide
  obtain ⟨⟨info, mem, s⟩, hrun, hcur, hlimit⟩ := hrun
  have hlist : modules (twoModules 0x202000 0x203000) 0x9000 = [0x9100, 0x9110] := by
    with_unfolding_all decide
  have hk : strcmp (twoModules 0x202000 0x203000) (cmdline (twoModules 0x202000 0x203000) 0x9110)
      KERNEL_TAG_NAME = 0 := by
    with_unfolding_all decide
  have hplace : mod_start (twoModules 0x202000 0x203000) 0x9100 = 0x202000 ∧
      mod_end (twoModules 0x202000 0x203000) 0x9100 = 0x203000 := by
    with_unfolding_all decide
  have hapart : (modules (twoModules 0x202000 0x203000) 0x9000).Pairwise
      (ModulesApart (twoModules 0x202000 0x203000)) := by
    with_unfolding_all decide
  refine ⟨info, mem, s, hrun, hapart, ⟨0x9110, by rw [hlist]; simp, (strcmp_tag _ _).mp hk⟩, ?_⟩
  rw [hlist]
  intro hall
  apply hall 0x9100 List.mem_cons_self 0x202000
  dsimp only at hcur hlimit
  rw [hcur, hlimit, hplace.1, hplace.2]
  decide

end awd
