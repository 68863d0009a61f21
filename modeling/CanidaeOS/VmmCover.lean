-- What a call makes of every byte of its range. A turn starts at the offset of
-- the first byte, so the last part of a range that is not a number of whole
-- pages from there has no turn, nor has any of a range up to the very top.
import CanidaeOS.VmmRuns

open Program Machine Outcome Paging RadixTree

namespace lobo

namespace vmm

variable {H : Type} {kmalloc_aligned : U64 → U64 → H → Outcome Stop (U64 × H)} {Inv : H → Prop}
  {Free : H → Page → Prop} {s s' t : vmm H}

/-! ## Bytes -/

/-- The physical address of a byte. The processor refuses an address that is
not canonical. -/
def physicalAt (s : vmm H) (x : U64) : Option U64 :=
  if Canonical x then (s.translate x).map fun l => l.1 + (x &&& 0xFFF) else none

/-- Every byte of the range is translated to `p` plus its offset. -/
def MapsTo (s : vmm H) (v p length : U64) : Prop :=
  ∀ k < length.toNat, s.physicalAt (v + BitVec.ofNat 64 k) = some (p + BitVec.ofNat 64 k)

/-- No byte of the range is translated. -/
def MapsNothing (s : vmm H) (v length : U64) : Prop :=
  ∀ k < length.toNat, s.physicalAt (v + BitVec.ofNat 64 k) = none

theorem physicalAt_congr (hs : Sound Inv Free s) (hs' : Sound Inv Free s') {x : U64}
    (h : s'.entryOf x = s.entryOf x) : s'.physicalAt x = s.physicalAt x := by
  rw [physicalAt, physicalAt, hs.translate_entryOf, hs'.translate_entryOf, h]

theorem physicalAt_canonical {x y : U64} (h : s.physicalAt x = some y) : Canonical x := by
  unfold physicalAt at h
  split at h
  · assumption
  · cases h

theorem map_direct.returned {fuel : Nat} {v p length r : U64} {perm flags : U32}
    (h : map_direct kmalloc_aligned fuel v p length perm flags s = ok (r, s')) :
    ∃ t, map_pages kmalloc_aligned fuel s.pdir_current v p length (perm.setWidth 8) s = ok t ∧
      r = v ∧ s' = swap_page_directory t.pdir_current t := by
  obtain ⟨t, ht, h⟩ := bind_eq_ok.mp h
  cases h
  exact ⟨t, ht, rfl, rfl⟩

theorem unmap.returned {fuel : Nat} {v length : U64} {r : U32}
    (h : unmap kmalloc_aligned fuel v length s = ok (r, s')) :
    ∃ t, unmap_pages kmalloc_aligned fuel s.pdir_current v length s = ok t ∧
      s' = swap_page_directory t.pdir_current t := by
  obtain ⟨t, ht, h⟩ := bind_eq_ok.mp h
  cases h
  exact ⟨t, ht, rfl⟩

/-- The flags of `perm` are present when `perm` is. -/
theorem perm_present {perm : U32} (h : perm &&& 1 ≠ 0) :
    ((perm.setWidth 8).setWidth 64 : U64) &&& VMM_PAGE_PRESENT ≠ 0 := by
  have hlow : (perm &&& 1).toNat = perm.toNat % 2 := and_low_toNat perm 1 (by norm_num)
  have hodd : perm.toNat % 2 ≠ 0 := by
    rw [← hlow]
    exact fun h0 => h (BitVec.eq_of_toNat_eq h0)
  rw [VMM_PAGE_PRESENT, Ne, present_iff, BitVec.toNat_setWidth, BitVec.toNat_setWidth]
  omega

/-! ## The range of a call -/

/-- A byte of a range that does not wrap. -/
theorem byte_toNat {v length : U64} (hin : v.toNat + length.toNat ≤ 2 ^ 64) {k : Nat}
    (hk : k < length.toNat) : (v + BitVec.ofNat 64 k).toNat = v.toNat + k := by
  rw [BitVec.toNat_add, BitVec.toNat_ofNat]
  omega

/-- The page of turn `i`, a byte of the range. -/
theorem turn_toNat {v length : U64} {i : Nat} (hi : i < turns v length) :
    (pageAt v i).toNat = v.toNat + i * 0x1000 ∧
      pageAt v i = v + BitVec.ofNat 64 (i * 0x1000) := by
  obtain ⟨hsum, hlt⟩ := turn_lt hi
  have hpage : (pageAt v i).toNat = v.toNat + i * 0x1000 := by
    rw [pageAt_toNat, Nat.mod_eq_of_lt (by omega)]
  refine ⟨hpage, BitVec.eq_of_toNat_eq ?_⟩
  rw [hpage, byte_toNat hsum.le hlt]

/-- What a page that is mapped does for the bytes in it. -/
theorem physicalAt_mapped (hs : Sound Inv Free s) {v p x : U64} {flags : U8}
    (hp : p.toNat % 0x1000 = v.toNat % 0x1000)
    (hf : flags.setWidth 64 &&& VMM_PAGE_PRESENT ≠ 0) {i k : Nat} (hx : Canonical x)
    (hentry : s.entryOf x = mappedEntry p flags i) (hk : x.toNat = v.toNat + k)
    (hpage : x.toNat / 0x1000 = (v.toNat + i * 0x1000) / 0x1000) :
    s.physicalAt x = some (p + BitVec.ofNat 64 k) := by
  have hset : ¬ mappedEntry p flags i &&& 1 = 0 := entry_present _ hf
  have hleaf : leaf (mappedEntry p flags i) =
      some (mappedEntry p flags i &&& ~~~0xFFF, mappedEntry p flags i &&& 0xFFF) := if_neg hset
  have hframe := leaf_frame (byte_flags flags) hleaf
  have hlow : (x &&& 0xFFF).toNat = x.toNat % 0x1000 := and_low_toNat x 12 (by norm_num)
  have hpk := pageAt_toNat p i
  rw [physicalAt, if_pos hx, hs.translate_entryOf, hentry, hleaf, Option.map_some]
  refine congrArg some (BitVec.eq_of_toNat_eq ?_)
  dsimp only at hframe ⊢
  rw [BitVec.toNat_add, BitVec.toNat_add, hframe, hlow, BitVec.toNat_ofNat, hpk]
  omega

/-! ## The law of coverage -/

/-- Every byte of the range is mapped by `map_direct` if and only if each is
canonical, and those that no turn reaches were mapped so before. -/
theorem map_direct.covers_iff {s s' : vmm Globals} (hs : s.Sound HeapInWindow HeapFree)
    {v p length r : U64} (hin : v.toNat + length.toNat ≤ 2 ^ 64)
    (hp : p.toNat % 0x1000 = v.toNat % 0x1000) {perm flags : U32} (hperm : perm &&& 1 ≠ 0) {fuel : Nat}
    (h : map_direct lobo.kmalloc_aligned fuel v p length perm flags s = ok (r, s')) :
    s'.MapsTo v p length ↔ ∀ k < length.toNat, Canonical (v + BitVec.ofNat 64 k) ∧
      (Reached v length (v + BitVec.ofNat 64 k) ∨
        s.physicalAt (v + BitVec.ofNat 64 k) = some (p + BitVec.ofNat 64 k)) := by
  have hpresent := perm_present hperm
  obtain ⟨t, ht, -, rfl⟩ := map_direct.returned h
  obtain ⟨-, hw, hpages⟩ := map_pages.returned kmalloc_aligned.fresh_pages hs hpresent ht
  have hs' := swap_sound hw.sound
  have hother : ∀ x, ¬ Reached v length x →
      (swap_page_directory t.pdir_current t).physicalAt x = s.physicalAt x := by
    intro x hx
    exact physicalAt_congr hs hs' (hw.rest x fun i hi hway => hx ⟨i, hi, hway⟩)
  constructor
  · intro hmaps k hk
    have hbyte := hmaps k hk
    refine ⟨physicalAt_canonical hbyte, ?_⟩
    by_cases hx : Reached v length (v + BitVec.ofNat 64 k)
    · exact Or.inl hx
    · rw [hother _ hx] at hbyte
      exact Or.inr hbyte
  · intro hall k hk
    obtain ⟨hx, hcase⟩ := hall k hk
    by_cases hreached : Reached v length (v + BitVec.ofNat 64 k)
    · obtain ⟨i, hi, hway⟩ := hreached
      obtain ⟨hpage, hbyte⟩ := turn_toNat hi
      -- the page of the turn is the byte's own: both are canonical
      have hcanonical : Canonical (pageAt v i) := by
        rw [hbyte]
        exact (hall _ (turn_lt hi).2).1
      have hsame := way_page hx hcanonical hway
      rw [hpage] at hsame
      refine physicalAt_mapped hs' hp hpresent hx ?_ (byte_toNat hin hk) hsame
      exact (entryOf_congr t hway).trans (hpages i hi).2
    · rw [hother _ hreached]
      exact hcase.resolve_left hreached

/-- No byte of the range is mapped after `unmap` if and only if those that no turn
reaches were not. -/
theorem unmap.clears_iff {s s' : vmm Globals} (hs : s.Sound HeapInWindow HeapFree) {v length : U64}
    {r : U32} {fuel : Nat} (h : unmap lobo.kmalloc_aligned fuel v length s = ok (r, s')) :
    s'.MapsNothing v length ↔ ∀ k < length.toNat, Reached v length (v + BitVec.ofNat 64 k) ∨
      s.physicalAt (v + BitVec.ofNat 64 k) = none := by
  obtain ⟨t, ht, rfl⟩ := unmap.returned h
  obtain ⟨-, hw⟩ := unmap_pages.returned kmalloc_aligned.fresh_pages hs ht
  have hs' := swap_sound hw.sound
  refine forall₂_congr fun k hk => ?_
  by_cases hx : Reached v length (v + BitVec.ofNat 64 k)
  · refine iff_of_true ?_ (Or.inl hx)
    obtain ⟨i, hi, hway⟩ := hx
    obtain ⟨j, -, -, hentry⟩ := hw.at_pages i hi _ hway
    have hnone : (swap_page_directory t.pdir_current t).translate (v + BitVec.ofNat 64 k) = none := by
      rw [hs'.translate_entryOf]
      exact congrArg leaf hentry
    rw [physicalAt, hnone]
    simp
  · rw [or_iff_right hx, physicalAt_congr hs hs' (hw.rest _ fun i hi hway => hx ⟨i, hi, hway⟩)]

/-- After `map_direct`, every byte of the range is mapped if and only if each is
canonical, and those that no turn reaches were mapped so before. After `unmap`,
none is mapped if and only if those that no turn reaches were not. -/
theorem a_range_is_covered_by_its_turns {s : vmm Globals} (hs : s.Sound HeapInWindow HeapFree)
    {v p length : U64} (hin : v.toNat + length.toNat ≤ 2 ^ 64)
    (hp : p.toNat % 0x1000 = v.toNat % 0x1000) {perm flags : U32} (hperm : perm &&& 1 ≠ 0) :
    (∀ fuel r s', map_direct lobo.kmalloc_aligned fuel v p length perm flags s = ok (r, s') →
      (s'.MapsTo v p length ↔ ∀ k < length.toNat, Canonical (v + BitVec.ofNat 64 k) ∧
        (Reached v length (v + BitVec.ofNat 64 k) ∨
          s.physicalAt (v + BitVec.ofNat 64 k) = some (p + BitVec.ofNat 64 k)))) ∧
    ∀ fuel r s', unmap lobo.kmalloc_aligned fuel v length s = ok (r, s') →
      (s'.MapsNothing v length ↔ ∀ k < length.toNat, Reached v length (v + BitVec.ofNat 64 k) ∨
        s.physicalAt (v + BitVec.ofNat 64 k) = none) := by
  constructor
  · intro fuel r s' h
    exact map_direct.covers_iff hs hin hp hperm h
  · intro fuel r s' h
    exact unmap.clears_iff hs h

end vmm

/-! ## Calls over the empty directory -/

theorem vmm.a_range_is_covered_by_its_turns_from_empty : ∃ s', vmm.map_direct kmalloc_aligned (2 ^ 52 + 1)
    0x400000 0x200000 0x1001 3 0 emptySpace = ok (0x400000, s') ∧
      (s'.MapsTo 0x400000 0x200000 0x1001 ↔
        ∀ k < 0x1001, Canonical (0x400000 + BitVec.ofNat 64 k) ∧
          (Reached 0x400000 0x1001 (0x400000 + BitVec.ofNat 64 k) ∨
            emptySpace.physicalAt (0x400000 + BitVec.ofNat 64 k) =
              some (0x200000 + BitVec.ofNat 64 k))) := by
  obtain ⟨t, -, -, h⟩ := @map_direct_from_empty 0x400000 0x1001 0 (fun _ => by decide) (by decide)
    (by decide) 0x200000 3 0
  exact ⟨_, h, (vmm.a_range_is_covered_by_its_turns emptySpace_sound (by decide) (by decide)
    (by decide)).1 _ _ _ h⟩

/-- A page from the middle of one to the middle of the next: the second half of
it is not mapped. -/
theorem vmm.half_of_a_range_is_not_mapped : ∃ s', vmm.map_direct kmalloc_aligned (2 ^ 52 + 1)
    0x400800 0x200800 0x1000 3 0 emptySpace = ok (0x400800, s') ∧
      ¬ s'.MapsTo 0x400800 0x200800 0x1000 := by
  obtain ⟨t, ht, -, h⟩ := @map_direct_from_empty 0x400800 0x1000 0 (fun _ => by decide) (by decide)
    (by decide) 0x200800 3 0
  refine ⟨_, h, fun hmaps => ?_⟩
  obtain ⟨-, hw, -⟩ := vmm.map_pages.returned kmalloc_aligned.fresh_pages emptySpace_sound
    (vmm.perm_present (by decide)) ht
  have hbyte := hmaps 0x800 (by decide)
  have hentry : t.entryOf 0x401000 = 0 := by
    rw [hw.rest 0x401000 (by decide), emptySpace_entry]
  have hnone : (vmm.swap_page_directory t.pdir_current t).translate 0x401000 = none := by
    rw [(vmm.swap_sound hw.sound).translate_entryOf]
    exact congrArg leaf hentry
  rw [show (0x400800 : U64) + BitVec.ofNat 64 0x800 = 0x401000 by decide, vmm.physicalAt, hnone] at hbyte
  simp at hbyte

namespace vmm

/-! ## What `unmap` consumes -/

/-- The heap, the tables and the entries of pages that are not mapped are as
they were. -/
structure Unchanged {H : Type} (s s' : vmm H) : Prop where
  heap : s'.heap = s.heap
  tables : ∀ q, q.length ≤ 3 → s'.table q = s.table q
  entries : ∀ x, s.translate x = none → s'.entryOf x = s.entryOf x

/-- `unmap` returns, and leaves all of that. -/
def ConsumesNothing (s : vmm Globals) (address length : U64) : Prop :=
  ∀ fuel, 2 ^ 52 < fuel →
    (unmap lobo.kmalloc_aligned fuel address length s).Yields fun r => Unchanged s r.2

/-- A range that is unmapped has a table for every page, made if need be. -/
theorem ConsumesNothing.returned {s : vmm Globals} (hs : s.Sound HeapInWindow HeapFree)
    {address length : U64} (h : s.ConsumesNothing address length) :
    Ends address length ∧ ∃ t, Unchanged s t ∧ WroteRange HeapInWindow HeapFree s t address
      (fun _ => VMM_PAGE_WRITE) (turns address length) := by
  obtain ⟨⟨r, s'⟩, hcall, hsame⟩ := h (2 ^ 52 + 1) (Nat.lt_succ_self _)
  obtain ⟨t, ht, rfl⟩ := unmap.returned hcall
  obtain ⟨hends, hw⟩ := unmap_pages.returned kmalloc_aligned.fresh_pages hs ht
  exact ⟨hends, t, ⟨hsame.heap, hsame.tables, hsame.entries⟩, hw⟩

theorem ConsumesNothing.table {s : vmm Globals} (hs : s.Sound HeapInWindow HeapFree)
    {address length : U64} (h : s.ConsumesNothing address length) {i : Nat}
    (hi : i < turns address length) : (s.table (path (pageAt address i))).isSome := by
  obtain ⟨-, t, hsame, hw⟩ := h.returned hs
  rw [← hsame.tables _ (path_length _).le]
  exact hw.table i hi

/-- What `unmap` of the range needs to find: it ends, every page has its tables,
and the entry of a page that is not mapped is what `unmap` leaves. -/
def LeavesAlone (s : vmm Globals) (address length : U64) : Prop :=
  Ends address length ∧ ∀ i < turns address length,
    (s.table (path (pageAt address i))).isSome ∧
      (s.translate (pageAt address i) = none → s.entryOf (pageAt address i) = VMM_PAGE_WRITE)

/-- `unmap` consumes nothing if and only if there is nothing to make. -/
theorem unmap_consumes_nothing_iff {s : vmm Globals} (hs : s.Sound HeapInWindow HeapFree)
    (address length : U64) : s.ConsumesNothing address length ↔ s.LeavesAlone address length := by
  constructor
  · intro h
    obtain ⟨hends, t, hsame, hw⟩ := h.returned hs
    refine ⟨hends, fun i hi => ⟨h.table hs hi, fun hnone => ?_⟩⟩
    obtain ⟨j, -, -, hentry⟩ := hw.at_pages i hi _ rfl
    rw [← hsame.entries _ hnone, hentry]
  · rintro ⟨hends, hpages⟩ fuel hfuel
    obtain ⟨t, ht, hw, hheap, htables⟩ := @unmap_pages.found _ lobo.kmalloc_aligned _ _ _ hs _ _ hends (fun i hi => (hpages i hi).1)
      _ hfuel
    refine ⟨(0, swap_page_directory t.pdir_current t), ?_, hheap, htables, fun x hnone => ?_⟩
    · unfold unmap
      rw [ht]
      rfl
    · show t.entryOf x = s.entryOf x
      by_cases hx : Reached address length x
      · obtain ⟨i, hi, hway⟩ := hx
        obtain ⟨j, -, -, hentry⟩ := hw.at_pages i hi x hway
        have hsame := entryOf_congr s hway
        rw [hs.translate_entryOf, hsame, ← hs.translate_entryOf] at hnone
        rw [hentry, hsame, (hpages i hi).2 hnone]
      · exact hw.rest x fun i hi hway => hx ⟨i, hi, hway⟩

end vmm

theorem vmm.unmap_consumes_nothing_iff_from_empty :
    emptySpace.ConsumesNothing 0x400000 0x1000 ↔ emptySpace.LeavesAlone 0x400000 0x1000 :=
  vmm.unmap_consumes_nothing_iff emptySpace_sound 0x400000 0x1000

/-- One page of the empty directory takes tables from the heap. -/
theorem vmm.unmap_takes_tables_from_the_heap : ¬ emptySpace.ConsumesNothing 0x400000 0x1000 := by
  intro h
  have htable := h.table emptySpace_sound (i := 0) (by decide)
  rw [emptySpace_table] at htable
  cases htable

end lobo
