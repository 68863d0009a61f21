-- The kernel's page tables (`vmm.cpp`): tables are pages of memory, reached
-- through the linear window, and made by `kmalloc_aligned` when a walk first
-- needs them.
import CanidaeOS.Heap
import CanidaeOS.Libc
import CanidaeOS.PageWalk

open Program Machine Outcome Paging RadixTree

namespace lobo

def VMM_PAGE_PRESENT : U64 := 0x01

def VMM_PAGE_WRITE : U64 := 0x02

def VMM_PAGE_CREATE_ENTRY (x flags : U64) : U64 := x ||| flags

def VMM_PAGE_ENTRY_ADDR (x : U64) : U64 := x &&& ~~~0xFF

/-- The manager, with the memory its tables lie in, the heap they are taken
from and the register that holds the physical address of the top one. -/
structure vmm (H : Type) where
  pdir_current : U64
  mem : Memory
  heap : H
  cr3 : U64

namespace vmm

variable {H : Type} (kmalloc_aligned : U64 → U64 → H → Outcome Stop (U64 × H))

/-! ## The code -/

def find_page_table (pt index : U64) (create : Bool) (s : vmm H) : Outcome Stop (U64 × vmm H) :=
  let entry := load64 s.mem (slot pt index)
  if entry = 0 then
    if create = false then ok (0, s)
    else do
      let (table, heap) ← kmalloc_aligned PAGE_SIZE 0x1000 s.heap
      let mem := libc.memset table 0 PAGE_SIZE s.mem
      let table_phys := MEM_VIRT_TO_PHYS table
      let entry := VMM_PAGE_CREATE_ENTRY table_phys (VMM_PAGE_PRESENT ||| VMM_PAGE_WRITE)
      ok (table, { s with heap, mem := store64 mem (slot pt index) entry })
  else ok (MEM_PHYS_TO_VIRT (VMM_PAGE_ENTRY_ADDR entry), s)

/-- The address of the entry in the last table, or null. -/
def find_page_entry (p4 addr : U64) (create : Bool) (s : vmm H) : Outcome Stop (U64 × vmm H) :=
  let index_p4 := (addr >>> 39) &&& 511
  let index_p3 := (addr >>> 30) &&& 511
  let index_p2 := (addr >>> 21) &&& 511
  let index_p1 := (addr >>> 12) &&& 511
  do
    let (p3_addr, s) ← find_page_table kmalloc_aligned p4 index_p4 create s
    if p3_addr = 0 then ok (0, s)
    else do
      let (p2_addr, s) ← find_page_table kmalloc_aligned p3_addr index_p3 create s
      if p2_addr = 0 then ok (0, s)
      else do
        let (p1_addr, s) ← find_page_table kmalloc_aligned p2_addr index_p2 create s
        if p1_addr = 0 then ok (0, s)
        else ok (slot p1_addr index_p1, s)

/-- One turn of `map_pages`: the page at `addr`, and the frame for the next. -/
def map_page (p4 : U64) (flags : U8) (addr : U64) (w : U64 × vmm H) : Outcome Stop (U64 × vmm H) := do
  let (p_addr, s) := w
  let (entry, s) ← find_page_entry kmalloc_aligned p4 addr true s
  if entry = 0 then panic "vmm: Unable to map page, unable to find entry"
  else if load64 s.mem entry &&& VMM_PAGE_PRESENT ≠ 0 then
    panic "vmm: Attempted to remap a page!"
  else
    let mem := store64 s.mem entry (VMM_PAGE_CREATE_ENTRY p_addr (flags.setWidth 64))
    ok (p_addr + PAGE_SIZE, { s with mem })

def map_pages (fuel : Nat) (p4 addr p_addr size : U64) (flags : U8) (s : vmm H) :
    Outcome Stop (vmm H) := do
  let (_, s) ← forStep PAGE_SIZE (addr + size) (map_page kmalloc_aligned p4 flags) fuel addr (p_addr, s)
  ok s

/-- One turn of `unmap_pages`. -/
def unmap_page (p4 : U64) (addr : U64) (s : vmm H) : Outcome Stop (vmm H) := do
  let (entry, s) ← find_page_entry kmalloc_aligned p4 addr true s
  if entry = 0 then panic "vmm: Unable to map page, unable to find entry"
  else ok { s with mem := store64 s.mem entry VMM_PAGE_WRITE }

def unmap_pages (fuel : Nat) (p4 addr size : U64) (s : vmm H) : Outcome Stop (vmm H) :=
  forStep PAGE_SIZE (addr + size) (unmap_page kmalloc_aligned p4) fuel addr s

def swap_page_directory (newMemorySpace : U64) (s : vmm H) : vmm H :=
  { s with pdir_current := newMemorySpace, cr3 := MEM_VIRT_TO_PHYS newMemorySpace }

/-- `perm` is an `int` that `map_pages` takes as a `uint8_t`. -/
def map_direct (fuel : Nat) (v_addr p_addr length : U64) (perm _flags : U32) (s : vmm H) :
    Outcome Stop (U64 × vmm H) := do
  let s ← map_pages kmalloc_aligned fuel s.pdir_current v_addr p_addr length (perm.setWidth 8) s
  ok (v_addr, swap_page_directory s.pdir_current s)

def unmap (fuel : Nat) (address length : U64) (s : vmm H) : Outcome Stop (U32 × vmm H) := do
  let s ← unmap_pages kmalloc_aligned fuel s.pdir_current address length s
  ok (0, swap_page_directory s.pdir_current s)

end vmm

/-! ## What the walk of the kernel meets -/

/-- The table that `find_page_table` takes a nonzero entry to name. -/
def named (e : U64) : Option Page :=
  if e = 0 then none else some (pageOf (MEM_PHYS_TO_VIRT (VMM_PAGE_ENTRY_ADDR e)))

@[simp] theorem named_zero : named 0 = none := rfl

/-- The entry that links a new table in. -/
def linkTo (table : U64) : U64 :=
  VMM_PAGE_CREATE_ENTRY (MEM_VIRT_TO_PHYS table) (VMM_PAGE_PRESENT ||| VMM_PAGE_WRITE)

theorem virt_to_phys_aligned {a : U64} (h : PageAligned a) : PageAligned (MEM_VIRT_TO_PHYS a) := by
  unfold PageAligned MEM_VIRT_TO_PHYS at *
  simp only [KERNEL_VMB, BitVec.toNat_sub, BitVec.reduceToNat]
  have := a.isLt
  omega

theorem entry_addr_toNat (e : U64) : (VMM_PAGE_ENTRY_ADDR e).toNat = e.toNat - e.toNat % 0x100 :=
  and_high_toNat e 8 (by norm_num)

/-- An entry above the last level that is in use: present, and the address of a
page in the linear window once the mask is off. -/
structure Link (e : U64) : Prop where
  present : e &&& VMM_PAGE_PRESENT ≠ 0
  aligned : PageAligned (MEM_PHYS_TO_VIRT (VMM_PAGE_ENTRY_ADDR e))
  window : KERNEL_VMB ≤ MEM_PHYS_TO_VIRT (VMM_PAGE_ENTRY_ADDR e)

/-- An entry above the last level. -/
def Inner (e : U64) : Prop := e = 0 ∨ Link e

/-- Behind an entry that is in use, the processor and the kernel find the same
table. -/
theorem Inner.seen {e : U64} (h : Inner e) : Seen MEM_PHYS_TO_VIRT named e := by
  rcases h with rfl | h
  · rfl
  have hne : e ≠ 0 := by
    rintro rfl
    exact h.present rfl
  -- the bits that only one of the two masks clears are clear
  have hmask : e &&& ~~~0xFFF = VMM_PAGE_ENTRY_ADDR e := by
    apply BitVec.eq_of_toNat_eq
    have hhigh : (e &&& ~~~0xFFF).toNat = e.toNat - e.toNat % 0x1000 :=
      and_high_toNat e 12 (by norm_num)
    have hphys := virt_to_phys_aligned h.aligned
    rw [phys_to_virt_to_phys] at hphys
    unfold PageAligned at hphys
    rw [hhigh]
    rw [entry_addr_toNat] at hphys ⊢
    omega
  have hpresent : ¬ e &&& 1 = 0 := h.present
  have hleaf : leaf e = some (VMM_PAGE_ENTRY_ADDR e, e &&& 0xFFF) := by
    rw [leaf, if_neg hpresent, hmask]
  rw [Seen, hleaf, named, if_neg hne, Option.map_some, Option.map_some, pageAddr_pageOf h.aligned]

/-- Address, mask and window undo each other in a new entry. -/
theorem entry_addr_linkTo {table : U64} (h : PageAligned table) :
    VMM_PAGE_ENTRY_ADDR (linkTo table) = MEM_VIRT_TO_PHYS table := by
  have hp := virt_to_phys_aligned h
  have hsum : (linkTo table).toNat = (MEM_VIRT_TO_PHYS table).toNat + 3 :=
    frame_or_toNat (k := 12) hp (by decide)
  apply BitVec.eq_of_toNat_eq
  unfold PageAligned at hp
  rw [entry_addr_toNat, hsum]
  omega

theorem linkTo_present {table : U64} (h : PageAligned table) :
    linkTo table &&& VMM_PAGE_PRESENT ≠ 0 := by
  have hp := virt_to_phys_aligned h
  have hsum : (linkTo table).toNat = (MEM_VIRT_TO_PHYS table).toNat + 3 :=
    frame_or_toNat (k := 12) hp (by decide)
  unfold PageAligned at hp
  rw [Ne, VMM_PAGE_PRESENT, present_iff, hsum]
  omega

theorem linkTo_link {table : U64} (h : PageAligned table) (hw : KERNEL_VMB ≤ table) :
    Link (linkTo table) := by
  refine ⟨linkTo_present h, ?_, ?_⟩
  · rw [entry_addr_linkTo h, virt_to_phys_to_virt]
    exact h
  · rw [entry_addr_linkTo h, virt_to_phys_to_virt]
    exact hw

theorem named_linkTo {table : U64} (h : PageAligned table) :
    named (linkTo table) = some (pageOf table) := by
  have hne : linkTo table ≠ 0 := by
    intro he
    have := linkTo_present h
    rw [he] at this
    exact this rfl
  rw [named, if_neg hne, entry_addr_linkTo h, virt_to_phys_to_virt]

theorem cells_memset {m : Memory} (b g : Page) (i : Index) :
    cells (libc.memset (pageAddr b) 0 PAGE_SIZE m) g i = if g = b then 0 else cells m g i := by
  have hspec : ∀ x, libc.memset (pageAddr b) 0 PAGE_SIZE m x =
      if InRange (pageAddr b) 0x1000 x then 0 else m x := libc.memset.spec (pageAddr b) 0 PAGE_SIZE m
  split
  · rename_i heq
    subst heq
    refine cells_zero (fun x hx => ?_) i
    rw [hspec, if_pos hx]
  · rename_i hne
    refine cells_congr (f := b) (fun x hx => ?_) hne i
    rw [hspec, if_neg hx]

/-! ## Address spaces that are sound -/

/-- The panic of `map_pages` on a page that is mapped. -/
def remap : Stop := .panic "vmm: Attempted to remap a page!"

/-- What the manager relies on: a heap that is as `Inv` says, hands out pages
that are `Free` and never twice, or stops with a panic of its own. -/
structure FreshPages {H : Type} (kmalloc_aligned : U64 → U64 → H → Outcome Stop (U64 × H))
    (Inv : H → Prop) (Free : H → Page → Prop) : Prop where
  ok : ∀ {h h' : H} {a : U64}, Inv h → kmalloc_aligned PAGE_SIZE 0x1000 h = ok (a, h') →
    Inv h' ∧ PageAligned a ∧ KERNEL_VMB ≤ a ∧ Free h (pageOf a) ∧ ¬ Free h' (pageOf a) ∧
      ∀ f, Free h' f → Free h f
  stop : ∀ {h : H} {e : Stop}, Inv h → kmalloc_aligned PAGE_SIZE 0x1000 h = .stop e → e ≠ remap
  spin : ∀ {h : H}, Inv h → kmalloc_aligned PAGE_SIZE 0x1000 h ≠ .spin

/-- A stop of the heap that `find_page_table` takes its tables from. -/
def HeapStop {H : Type} (kmalloc_aligned : U64 → U64 → H → Outcome Stop (U64 × H))
    (Inv : H → Prop) (e : Stop) : Prop :=
  ∃ h, Inv h ∧ kmalloc_aligned PAGE_SIZE 0x1000 h = .stop e

namespace vmm

variable {H : Type}

/-- The table that a path from the current directory leads to. -/
def table (s : vmm H) (p : List Index) : Option Page :=
  descend (cells s.mem) named (pageOf s.pdir_current) p

/-- The entry at the end of a path. -/
def entry (s : vmm H) (p : List Index) (i : Index) : U64 :=
  entryAt (cells s.mem) named 0 (pageOf s.pdir_current) p i

/-- What the processor makes of an address. -/
def translate (s : vmm H) (v : U64) : Option (U64 × U64) :=
  Paging.translate MEM_PHYS_TO_VIRT s.mem s.pdir_current v

/-- A well-formed tree of tables in the window, none of which the heap will
hand out. -/
structure Sound (Inv : H → Prop) (Free : H → Page → Prop) (s : vmm H) : Prop where
  top : PageAligned s.pdir_current
  tree : Tree Inner named s.mem (pageOf s.pdir_current)
  heap : Inv s.heap
  fresh : ∀ p t, p.length ≤ 3 → s.table p = some t → ¬ Free s.heap t

/-- The same directory, with more tables and the same translations. -/
structure Grown (s s' : vmm H) : Prop where
  pdir : s'.pdir_current = s.pdir_current
  entry : ∀ q j, q.length = 3 → s'.entry q j = s.entry q j
  table : ∀ q t, q.length ≤ 3 → s.table q = some t → s'.table q = some t

theorem Grown.refl (s : vmm H) : Grown s s := ⟨rfl, fun _ _ _ => rfl, fun _ _ _ h => h⟩

theorem Grown.trans {s t u : vmm H} (h1 : Grown s t) (h2 : Grown t u) : Grown s u :=
  ⟨h2.pdir.trans h1.pdir, fun q j hq => (h2.entry q j hq).trans (h1.entry q j hq),
    fun q b hq hb => h2.table q b hq (h1.table q b hq hb)⟩

variable {kmalloc_aligned : U64 → U64 → H → Outcome Stop (U64 × H)} {Inv : H → Prop}
  {Free : H → Page → Prop} {s : vmm H}

theorem Sound.translate_eq (hs : Sound Inv Free s) (v : U64) :
    s.translate v = leaf (s.entry (path v) (last v)) := by
  rw [translate, ← pageAddr_pageOf hs.top]
  exact hs.tree.translate_eq (fun _ => Inner.seen) v

/-- The entry behind a table that the walk has reached. -/
theorem Sound.inner (hs : Sound Inv Free s) {p : List Index} {t : Page} (ht : s.table p = some t)
    (hp : p.length < 3) (i : Index) : Inner (cells s.mem t i) := hs.tree.inner p t i hp ht

/-! ## The spec of the walk -/

/-- A fresh page, cleared and linked in. -/
theorem Sound.link (hs : Sound Inv Free s) {p : List Index} {t : Page} (ht : s.table p = some t)
    (hp : p.length < 3) {i : Index} (hzero : cells s.mem t i = 0) {a : U64} {heap : H}
    (ha : PageAligned a) (hw : KERNEL_VMB ≤ a) (hfree : Free s.heap (pageOf a))
    (hgone : ¬ Free heap (pageOf a)) (hless : ∀ f, Free heap f → Free s.heap f) (hinv : Inv heap) :
    let blank := libc.memset a 0 PAGE_SIZE s.mem
    let s' := { s with heap, mem := store64 blank (slot (pageAddr t) (i.setWidth 64)) (linkTo a) }
    Sound Inv Free s' ∧ Grown s s' ∧ s'.table (p ++ [i]) = some (pageOf a) := by
  intro blank s'
  obtain ⟨b, rfl⟩ : ∃ b, a = pageAddr b := ⟨_, (pageAddr_pageOf ha).symm⟩
  rw [pageOf_pageAddr] at hfree hgone ⊢
  have hlinks : Links (cells s.mem) (cells s'.mem) named 0 3 (pageOf s.pdir_current) p t i b := by
    refine links_store ht hp (by rw [hzero, named_zero])
      (fun q hq hq' => hs.fresh q b hq hq' hfree) (fun j => ?_) (fun u j hub => ?_) ?_
    · rw [cells_memset, if_pos rfl]
    · rw [cells_memset, if_neg hub]
    · rw [named_linkTo ha, pageOf_pageAddr]
  have hu := hs.tree.unshared
  refine ⟨⟨hs.top, hs.tree.link hlinks named_zero (Or.inl rfl) ?_, hinv, fun q u hq hqu => ?_⟩,
    ⟨rfl, fun q j hq => hlinks.entryAt hu named_zero hq,
      fun q u hq => hlinks.keeps hu named_zero hq⟩, hlinks.at_path hu named_zero⟩
  · rw [cells_store_self]
    exact Or.inr (linkTo_link ha hw)
  · rcases hlinks.reached hu named_zero hq hqu with ⟨rfl, -⟩ | ⟨-, hqu⟩
    · exact hgone
    · exact fun hf => hs.fresh q u hq hqu (hless u hf)

theorem find_page_table.spec (hk : FreshPages kmalloc_aligned Inv Free) (hs : Sound Inv Free s)
    {p : List Index} {t : Page} (ht : s.table p = some t) (hp : p.length < 3) (i : Index) :
    (find_page_table kmalloc_aligned (pageAddr t) (i.setWidth 64) true s).Meets
      (HeapStop kmalloc_aligned Inv) fun (a, s') => a ≠ 0 ∧ Sound Inv Free s' ∧ Grown s s' ∧
        ∃ b, a = pageAddr b ∧ s'.table (p ++ [i]) = some b := by
  have hwindow : ∀ {a : U64}, KERNEL_VMB ≤ a → a ≠ 0 := by
    rintro a h rfl
    exact absurd h (by decide)
  unfold find_page_table
  by_cases hzero : cells s.mem t i = 0
  · rw [cells] at hzero
    simp only [hzero, if_true, Bool.true_eq_false, if_false]
    cases hcall : kmalloc_aligned PAGE_SIZE 0x1000 s.heap with
    | spin => exact absurd hcall (hk.spin hs.heap)
    | stop e => exact Meets.stop ⟨s.heap, hs.heap, hcall⟩
    | ok r =>
      obtain ⟨a, heap⟩ := r
      obtain ⟨hinv, ha, hw, hfree, hgone, hless⟩ := hk.ok hs.heap hcall
      obtain ⟨hs', hgrown, htable⟩ := hs.link ht hp hzero ha hw hfree hgone hless hinv
      exact Meets.ok ⟨hwindow hw, hs', hgrown, pageOf a, (pageAddr_pageOf ha).symm, htable⟩
  · rcases hs.inner ht hp i with h0 | hlink
    · exact absurd h0 hzero
    have hnamed : named (cells s.mem t i) =
        some (pageOf (MEM_PHYS_TO_VIRT (VMM_PAGE_ENTRY_ADDR (cells s.mem t i)))) := if_neg hzero
    rw [cells] at hzero
    simp only [hzero, if_false]
    refine Meets.ok ⟨hwindow hlink.window, hs, Grown.refl s, _, (pageAddr_pageOf hlink.aligned).symm, ?_⟩
    rw [table, descend_snoc, ← table, ht, Option.bind_some, hnamed]

theorem find_page_entry.spec (hk : FreshPages kmalloc_aligned Inv Free) (hs : Sound Inv Free s)
    (a : U64) : (find_page_entry kmalloc_aligned s.pdir_current a true s).Meets
      (HeapStop kmalloc_aligned Inv) fun (e, s') => e ≠ 0 ∧ Sound Inv Free s' ∧ Grown s s' ∧
        ∃ t, e = slot (pageAddr t) ((last a).setWidth 64) ∧ s'.table (path a) = some t := by
  simp only [find_page_entry, index_eq]
  rw [← pageAddr_pageOf hs.top]
  refine (find_page_table.spec hk hs (p := []) rfl (by decide) _).bind ?_
  rintro ⟨-, s₁⟩ ⟨hne, hs₁, hg₁, p3, rfl, h3⟩
  simp only [if_neg hne]
  refine (find_page_table.spec hk hs₁ h3 (by simp) _).bind ?_
  rintro ⟨-, s₂⟩ ⟨hne, hs₂, hg₂, p2, rfl, h2⟩
  simp only [if_neg hne]
  refine (find_page_table.spec hk hs₂ h2 (by simp) _).bind ?_
  rintro ⟨-, s₃⟩ ⟨hne, hs₃, hg₃, p1, rfl, h1⟩
  simp only [if_neg hne]
  exact Meets.ok ⟨slot_ne_zero hne _, hs₃, hg₁.trans (hg₂.trans hg₃), p1, rfl, h1⟩

/-! ## What an edit keeps -/

/-- A relation of a state to those behind it: a store into memory keeps it, and
so does a page from the heap. -/
structure EditKeeps (kmalloc_aligned : U64 → U64 → H → Outcome Stop (U64 × H))
    (Q : vmm H → vmm H → Prop) : Prop where
  store : ∀ (s : vmm H) (mem : Memory), Q s { s with mem }
  alloc : ∀ {s : vmm H} {a : U64} {heap : H} (mem : Memory),
    kmalloc_aligned PAGE_SIZE 0x1000 s.heap = ok (a, heap) → Q s { s with heap, mem }
  trans : ∀ {s t u : vmm H}, Q s t → Q t u → Q s u

namespace EditKeeps

variable {Q : vmm H → vmm H → Prop} {s' : vmm H} {a p4 addr size : U64} {fuel : Nat}
  (hQ : EditKeeps kmalloc_aligned Q)
include hQ

theorem refl (s : vmm H) : Q s s := hQ.store s s.mem

theorem find_page_table {pt index : U64} {create : Bool}
    (h : vmm.find_page_table kmalloc_aligned pt index create s = ok (a, s')) : Q s s' := by
  simp only [vmm.find_page_table] at h
  split at h
  · split at h
    · cases h
      exact hQ.refl s
    · obtain ⟨⟨table, heap⟩, hcall, h⟩ := bind_eq_ok.mp h
      rw [ok.injEq, Prod.mk.injEq] at h
      rw [← h.2]
      exact hQ.alloc _ hcall
  · rw [ok.injEq, Prod.mk.injEq] at h
    rw [← h.2]
    exact hQ.refl s

theorem find_page_entry {create : Bool}
    (h : vmm.find_page_entry kmalloc_aligned p4 addr create s = ok (a, s')) : Q s s' := by
  obtain ⟨⟨p3, s₁⟩, h₁, h⟩ := bind_eq_ok.mp h
  have hs₁ := hQ.find_page_table h₁
  dsimp only at h
  split at h
  · cases h
    exact hs₁
  obtain ⟨⟨p2, s₂⟩, h₂, h⟩ := bind_eq_ok.mp h
  have hs₂ := hQ.trans hs₁ (hQ.find_page_table h₂)
  dsimp only at h
  split at h
  · cases h
    exact hs₂
  obtain ⟨⟨p1, s₃⟩, h₃, h⟩ := bind_eq_ok.mp h
  have hs₃ := hQ.trans hs₂ (hQ.find_page_table h₃)
  dsimp only at h
  split at h
  · cases h
    exact hs₃
  · cases h
    exact hs₃

theorem map_page {flags : U8} {w w' : U64 × vmm H}
    (h : vmm.map_page kmalloc_aligned p4 flags addr w = ok w') : Q w.2 w'.2 := by
  obtain ⟨p_addr, s⟩ := w
  simp only [vmm.map_page] at h
  obtain ⟨⟨entry, s₁⟩, h₁, h⟩ := bind_eq_ok.mp h
  have hs₁ := hQ.find_page_entry h₁
  dsimp only at h
  split at h
  · cases h
  · split at h
    · cases h
    · rw [ok.injEq] at h
      rw [← h]
      exact hQ.trans hs₁ (hQ.store s₁ _)

theorem unmap_page (h : vmm.unmap_page kmalloc_aligned p4 addr s = ok s') : Q s s' := by
  obtain ⟨⟨entry, s₁⟩, h₁, h⟩ := bind_eq_ok.mp h
  have hs₁ := hQ.find_page_entry h₁
  dsimp only at h
  split at h
  · cases h
  · cases h
    exact hQ.trans hs₁ (hQ.store s₁ _)

theorem map_pages {p_addr : U64} {flags : U8}
    (h : vmm.map_pages kmalloc_aligned fuel p4 addr p_addr size flags s = ok s') : Q s s' := by
  obtain ⟨⟨p', t⟩, ht, hr⟩ := bind_eq_ok.mp h
  cases hr
  exact forStep_inv (fun u : U64 × vmm H => Q s u.2)
    (fun _ _ _ hu hturn => hQ.trans hu (hQ.map_page hturn)) (hQ.refl s) ht

theorem unmap_pages (h : vmm.unmap_pages kmalloc_aligned fuel p4 addr size s = ok s') : Q s s' :=
  forStep_inv (fun u : vmm H => Q s u) (fun _ _ _ hu hturn => hQ.trans hu (hQ.unmap_page hturn))
    (hQ.refl s) h

end EditKeeps

/-- No edit changes the directory. -/
theorem edit_keeps_pdir (kmalloc_aligned : U64 → U64 → H → Outcome Stop (U64 × H)) :
    EditKeeps kmalloc_aligned fun s s' => s'.pdir_current = s.pdir_current :=
  ⟨fun _ _ => rfl, fun _ _ => rfl, fun h h' => h'.trans h⟩

end vmm

end lobo
