-- The loops of `map_pages` and `unmap_pages` for any range. The limit is a sum
-- of 64 bits: a range that goes past the top of the address space has no turn,
-- and one whose last page is the top one may have no end.
import CanidaeOS.PageMap
import CanidaeOS.Vmm

open Program Machine Outcome Paging RadixTree

namespace Paging

/-- The way of an address through the tables. -/
def way (v : U64) : List Index × Index := (path v, last v)

theorem way_eq_iff {x v : U64} :
    way x = way v ↔ x.toNat / 0x1000 % 2 ^ 36 = v.toNat / 0x1000 % 2 ^ 36 := by
  rw [way, way, Prod.mk.injEq, path_eq_iff]

/-- Canonical addresses that take the same way are in the same page. -/
theorem way_page {x v : U64} (hx : Canonical x) (hv : Canonical v) (h : way x = way v) :
    x.toNat / 0x1000 = v.toNat / 0x1000 := by
  have := x.isLt
  have := v.isLt
  rw [way_eq_iff] at h
  unfold Canonical at hx hv
  omega

theorem pageAt_toNat (v : U64) (k : Nat) : (pageAt v k).toNat = (v.toNat + k * 0x1000) % 2 ^ 64 := by
  unfold pageAt
  rw [BitVec.toNat_add, BitVec.toNat_mul, BitVec.toNat_ofNat]
  simp only [BitVec.reduceToNat]
  omega

end Paging

namespace lobo

/-! ## Turns -/

/-- The turns of a loop over a range. -/
def turns (v length : U64) : Nat := if v.toNat + length.toNat < 2 ^ 64 then pages length else 0

/-- The loop over a range ends: its last step does not wrap. -/
def Ends (v length : U64) : Prop :=
  v.toNat + length.toNat < 2 ^ 64 → v.toNat + pages length * 0x1000 < 2 ^ 64

/-- A turn of the loop takes the way of `x`. -/
def Reached (v length x : U64) : Prop := ∃ i < turns v length, way x = way (pageAt v i)

theorem turns_le (v length : U64) : turns v length ≤ 2 ^ 52 := by
  have := pages_le length
  unfold turns
  split <;> omega

/-- A page that a turn is about starts in the range. -/
theorem turn_lt {v length : U64} {i : Nat} (hi : i < turns v length) :
    v.toNat + length.toNat < 2 ^ 64 ∧ i * 0x1000 < length.toNat := by
  unfold turns at hi
  split at hi
  · exact ⟨‹_›, page_starts_below hi⟩
  · exact absurd hi (Nat.not_lt_zero i)

variable {σ : Type}

theorem forStep_turns {v length : U64} (hends : Ends v length) {fuel : Nat} (hfuel : 2 ^ 52 < fuel)
    (body : U64 → σ → Outcome Stop σ) (w : σ) :
    forStep PAGE_SIZE (v + length) body fuel v w =
      forRange (turns v length) (fun i => body (pageAt v i)) w := by
  have hstep : PAGE_SIZE.toNat = 0x1000 := rfl
  have hv := v.isLt
  have hle := turns_le v length
  by_cases hsum : v.toNat + length.toNat < 2 ^ 64
  · have hlimit : (v + length).toNat = v.toNat + length.toNat := by
      rw [BitVec.toNat_add, Nat.mod_eq_of_lt hsum]
    have hturns : turns v length = pages length := if_pos hsum
    rw [hturns] at hle ⊢
    apply forStep_eq
    · omega
    · rw [hstep]
      exact hends hsum
    · intro i hi
      rw [hstep, hlimit]
      exact Nat.add_lt_add_left (page_starts_below hi) _
    · rw [hstep, hlimit]
      exact Nat.add_le_add_left (length_le length) _
  · have hlimit : (v + length).toNat ≤ v.toNat := by
      have := length.isLt
      rw [BitVec.toNat_add]
      omega
    have hturns : turns v length = 0 := if_neg hsum
    rw [hturns]
    apply forStep_eq
    · omega
    · omega
    · intro i hi
      exact absurd hi (Nat.not_lt_zero i)
    · omega

/-- A loop that returns has counted its turns: past the top of the address
space it starts again at the bottom, below the limit. -/
theorem forStep_returned {v length : U64} {fuel : Nat} {body : U64 → σ → Outcome Stop σ} {w w' : σ}
    (h : forStep PAGE_SIZE (v + length) body fuel v w = ok w') :
    Ends v length ∧ forRange (turns v length) (fun i => body (pageAt v i)) w = ok w' := by
  by_cases hends : Ends v length
  · refine ⟨hends, ?_⟩
    have hmore : forStep PAGE_SIZE (v + length) body (fuel + (2 ^ 52 + 1)) v w =
        forStep PAGE_SIZE (v + length) body fuel v w := by
      unfold forStep at h ⊢
      exact loop_mono (Nat.le_add_right _ _) (by rw [h]; simp)
    rw [← forStep_turns hends (show 2 ^ 52 < fuel + (2 ^ 52 + 1) by omega), hmore, h]
  · exfalso
    unfold Ends at hends
    push Not at hends
    obtain ⟨hsum, hwrap⟩ := hends
    have hlimit : (v + length).toNat = v.toNat + length.toNat := by
      rw [BitVec.toNat_add, Nat.mod_eq_of_lt hsum]
    have hfar : 2 ^ 64 - 0x1000 + v.toNat % 0x1000 < v.toNat + length.toNat := by
      unfold pages at hwrap
      omega
    -- every address of the loop has the offset of the first, so none reaches the limit
    refine loop_inv (I := fun t : U64 × σ => t.1.toNat % 0x1000 = v.toNat % 0x1000)
      (Q := fun _ => False) ?_ ?_ rfl h
    · rintro ⟨a, t⟩ t' ha hnext
      dsimp only at hnext ha
      split at hnext
      · obtain ⟨u, -, hu⟩ := bind_eq_ok.mp hnext
        simp only [ok.injEq, Turn.next.injEq] at hu
        rw [← hu]
        dsimp only
        rw [BitVec.toNat_add, show PAGE_SIZE.toNat = 0x1000 from rfl]
        omega
      · cases hnext
    · rintro ⟨a, t⟩ u ha hleave
      dsimp only at hleave ha
      split at hleave
      · obtain ⟨u, -, hu⟩ := bind_eq_ok.mp hleave
        cases hu
      · rename_i hge
        rw [BitVec.not_lt, BitVec.le_def, hlimit] at hge
        have := a.isLt
        omega

namespace vmm

/-! ## One page -/

variable {H : Type} {kmalloc_aligned : U64 → U64 → H → Outcome Stop (U64 × H)} {Inv : H → Prop}
  {Free : H → Page → Prop} {s s' t : vmm H}

/-- The last entry on the way of `x`. -/
def entryOf (s : vmm H) (x : U64) : U64 := s.entry (path x) (last x)

theorem entryOf_congr (s : vmm H) {x y : U64} (h : way x = way y) : s.entryOf x = s.entryOf y := by
  rw [way, way, Prod.mk.injEq] at h
  rw [entryOf, entryOf, h.1, h.2]

theorem Sound.translate_entryOf (hs : Sound Inv Free s) (v : U64) :
    s.translate v = leaf (s.entryOf v) := hs.translate_eq v

/-- The entry of the page at `a` is now `e`, and no other entry has changed. -/
structure Wrote (Inv : H → Prop) (Free : H → Page → Prop) (s s' : vmm H) (a e : U64) : Prop where
  sound : Sound Inv Free s'
  pdir : s'.pdir_current = s.pdir_current
  at_page : ∀ x, way x = way a → s'.entryOf x = e
  rest : ∀ x, way x ≠ way a → s'.entryOf x = s.entryOf x
  table : (s'.table (path a)).isSome
  tables : ∀ q t, q.length ≤ 3 → s.table q = some t → s'.table q = some t

/-- A write into the last entry on the way of `a`, in tables that have grown. -/
theorem Sound.wrote (hs : Sound Inv Free s') (hg : Grown s s') {a : U64} {b : Page}
    (hb : s'.table (path a) = some b) (e : U64) :
    Wrote Inv Free s
      { s' with mem := store64 s'.mem (slot (pageAddr b) ((last a).setWidth 64)) e } a e := by
  have hw : Writes (cells s'.mem) (cells (store64 s'.mem (slot (pageAddr b) ((last a).setWidth 64)) e))
      named 3 (pageOf s'.pdir_current) (path a) b (last a) e :=
    ⟨hb, path_length a, cells_store_self _ _ _ _, fun u j h => cells_store_ne _ _ h⟩
  have hu := hs.tree.unshared
  obtain ⟨htree, hsame, -⟩ := hs.tree.store (fun _ => Inner.seen) hb e
  have htable : ∀ q, q.length ≤ 3 →
      table { s' with mem := store64 s'.mem (slot (pageAddr b) ((last a).setWidth 64)) e } q =
        s'.table q := hsame
  refine ⟨⟨hs.top, htree, hs.heap, fun q u hq hqu => hs.fresh q u hq ?_⟩, hg.pdir, fun x hx => ?_,
    fun x hx => ?_, ?_, fun q u hq hqu => ?_⟩
  · rw [← htable q hq]
    exact hqu
  · rw [entryOf_congr _ hx]
    exact hw.entryAt_self hu
  · refine (hw.entryAt_ne hu (path_length x).le ?_).trans (hg.entry _ _ (path_length x))
    rw [way, way, Ne, Prod.mk.injEq, not_and_or] at hx
    exact hx
  · rw [htable _ (path_length a).le, hb]
    rfl
  · rw [htable q hq]
    exact hg.table q u hq hqu

theorem map_page.wrote (hk : FreshPages kmalloc_aligned Inv Free) (hs : Sound Inv Free s) (a p_addr : U64)
    (flags : U8) : (map_page kmalloc_aligned s.pdir_current flags a (p_addr, s)).Meets
      (fun e => HeapStop kmalloc_aligned Inv e ∨ e = remap ∧ s.entryOf a &&& VMM_PAGE_PRESENT ≠ 0)
      fun (p', s') => p' = p_addr + PAGE_SIZE ∧ s.entryOf a &&& VMM_PAGE_PRESENT = 0 ∧
        Wrote Inv Free s s' a (VMM_PAGE_CREATE_ENTRY p_addr (flags.setWidth 64)) := by
  unfold map_page
  refine ((find_page_entry.spec hk hs a).mono (fun e he => Or.inl he) fun _ h => h).bind ?_
  rintro ⟨-, s₁⟩ ⟨hne, hs₁, hg, b, rfl, hb⟩
  simp only [if_neg hne]
  have hread : load64 s₁.mem (slot (pageAddr b) ((last a).setWidth 64)) = s.entryOf a :=
    (entryAt_some hb).symm.trans (hg.entry _ _ (path_length a))
  rw [hread]
  split
  · rename_i hset
    exact Meets.stop (Or.inr ⟨rfl, hset⟩)
  · rename_i hclear
    exact Meets.ok ⟨rfl, not_not.mp hclear, hs₁.wrote hg hb _⟩

theorem unmap_page.wrote (hk : FreshPages kmalloc_aligned Inv Free) (hs : Sound Inv Free s) (a : U64) :
    (unmap_page kmalloc_aligned s.pdir_current a s).Meets (HeapStop kmalloc_aligned Inv)
      fun s' => Wrote Inv Free s s' a VMM_PAGE_WRITE := by
  unfold unmap_page
  refine (find_page_entry.spec hk hs a).bind ?_
  rintro ⟨-, s₁⟩ ⟨hne, hs₁, hg, b, rfl, hb⟩
  simp only [if_neg hne]
  exact Meets.ok (hs₁.wrote hg hb _)

/-! ## Ranges -/

/-- The entry that `map_pages` writes for the page of turn `i`. -/
def mappedEntry (p_addr : U64) (flags : U8) (i : Nat) : U64 :=
  VMM_PAGE_CREATE_ENTRY (pageAt p_addr i) (flags.setWidth 64)

/-- An entry is present when its flags are. -/
theorem entry_present (x : U64) {f : U64} (hf : f &&& VMM_PAGE_PRESENT ≠ 0) :
    VMM_PAGE_CREATE_ENTRY x f &&& VMM_PAGE_PRESENT ≠ 0 := by
  unfold VMM_PAGE_CREATE_ENTRY VMM_PAGE_PRESENT at *
  intro h
  apply hf
  have hbit := congrArg (fun e : U64 => e.getLsbD 0) h
  ext i hi
  by_cases hi0 : i = 0
  · subst hi0
    simp at hbit ⊢
    exact hbit.2
  · simp [hi0]

/-- What `n` turns over a range have done: the entries `e 0`, `e 1` and so on,
and no other entry. -/
structure WroteRange (Inv : H → Prop) (Free : H → Page → Prop) (s s' : vmm H) (v : U64)
    (e : Nat → U64) (n : Nat) : Prop where
  sound : Sound Inv Free s'
  pdir : s'.pdir_current = s.pdir_current
  at_pages : ∀ i < n, ∀ x, way x = way (pageAt v i) → ∃ j < n, way x = way (pageAt v j) ∧
    s'.entryOf x = e j
  rest : ∀ x, (∀ i < n, way x ≠ way (pageAt v i)) → s'.entryOf x = s.entryOf x
  table : ∀ i < n, (s'.table (path (pageAt v i))).isSome
  tables : ∀ q t, q.length ≤ 3 → s.table q = some t → s'.table q = some t

theorem WroteRange.refl (hs : Sound Inv Free s) (v : U64) (e : Nat → U64) :
    WroteRange Inv Free s s v e 0 :=
  ⟨hs, rfl, fun i hi => absurd hi (Nat.not_lt_zero i), fun _ _ => rfl,
    fun i hi => absurd hi (Nat.not_lt_zero i), fun _ _ _ h => h⟩

theorem WroteRange.succ {v : U64} {e : Nat → U64} {n : Nat} (h : WroteRange Inv Free s t v e n)
    (hw : Wrote Inv Free t s' (pageAt v n) (e n)) : WroteRange Inv Free s s' v e (n + 1) := by
  refine ⟨hw.sound, hw.pdir.trans h.pdir, fun i hi x hx => ?_, fun x hx => ?_, fun i hi => ?_,
    fun q b hq hb => hw.tables q b hq (h.tables q b hq hb)⟩
  · by_cases hlast : way x = way (pageAt v n)
    · exact ⟨n, Nat.lt_succ_self n, hlast, hw.at_page x hlast⟩
    · rcases Nat.lt_succ_iff_lt_or_eq.mp hi with hi | rfl
      · obtain ⟨j, hj, hway, hentry⟩ := h.at_pages i hi x hx
        exact ⟨j, Nat.lt_succ_of_lt hj, hway, (hw.rest x hlast).trans hentry⟩
      · exact absurd hx hlast
  · rw [hw.rest x (hx n (Nat.lt_succ_self n)), h.rest x fun i hi => hx i (Nat.lt_succ_of_lt hi)]
  · rcases Nat.lt_succ_iff_lt_or_eq.mp hi with hi | rfl
    · obtain ⟨b, hb⟩ := Option.isSome_iff_exists.mp (h.table i hi)
      rw [hw.tables _ b (path_length _).le hb]
      rfl
    · exact hw.table

/-- What a range that is mapped has become, whatever the flags are: no page of
it was mapped. -/
theorem map_pages.wrote (hk : FreshPages kmalloc_aligned Inv Free) (hs : Sound Inv Free s)
    {v p size : U64} {flags : U8} {fuel : Nat}
    (h : map_pages kmalloc_aligned fuel s.pdir_current v p size flags s = ok s') :
    Ends v size ∧ WroteRange Inv Free s s' v (mappedEntry p flags) (turns v size) ∧
      ∀ i < turns v size, s.entryOf (pageAt v i) &&& VMM_PAGE_PRESENT = 0 := by
  unfold map_pages at h
  obtain ⟨⟨p', s₁⟩, hloop, h⟩ := bind_eq_ok.mp h
  cases h
  obtain ⟨hends, hrange⟩ := forStep_returned hloop
  refine ⟨hends, ?_⟩
  refine (forRange_inv (fun n (w : U64 × vmm H) => w.1 = pageAt p n ∧
    WroteRange Inv Free s w.2 v (mappedEntry p flags) n ∧
    ∀ i < n, s.entryOf (pageAt v i) &&& VMM_PAGE_PRESENT = 0) ?_ ?_ hrange).2
  · rintro n ⟨q, t⟩ ⟨q', t'⟩ - ⟨rfl, ht, hpages⟩ hturn
    dsimp only at ht hpages hturn ⊢
    rw [← ht.pdir] at hturn
    obtain ⟨hq, hclear, hw⟩ :=
      (map_page.wrote hk ht.sound (pageAt v n) (pageAt p n) flags).of_value hturn
    refine ⟨hq.trans (pageAt_succ p n).symm, ht.succ hw, fun i hi => ?_⟩
    rcases Nat.lt_succ_iff_lt_or_eq.mp hi with hi | rfl
    · exact hpages i hi
    -- an earlier page may have taken the same way
    by_cases hway : ∃ j < i, way (pageAt v i) = way (pageAt v j)
    · obtain ⟨j, hj, hway⟩ := hway
      rw [entryOf_congr s hway]
      exact hpages j hj
    · rw [← ht.rest _ fun j hj hj' => hway ⟨j, hj, hj'⟩]
      exact hclear
  · exact ⟨(pageAt_zero p).symm, WroteRange.refl hs v _, fun i hi => absurd hi (Nat.not_lt_zero i)⟩

/-- A range that is mapped with present flags: no page of it was, and each has
its entry now. -/
theorem map_pages.returned (hk : FreshPages kmalloc_aligned Inv Free) (hs : Sound Inv Free s)
    {v p size : U64} {flags : U8} (hf : flags.setWidth 64 &&& VMM_PAGE_PRESENT ≠ 0) {fuel : Nat}
    (h : map_pages kmalloc_aligned fuel s.pdir_current v p size flags s = ok s') :
    Ends v size ∧ WroteRange Inv Free s s' v (mappedEntry p flags) (turns v size) ∧
      ∀ i < turns v size, s.entryOf (pageAt v i) &&& VMM_PAGE_PRESENT = 0 ∧
        s'.entryOf (pageAt v i) = mappedEntry p flags i := by
  obtain ⟨hends, hwrote, hclear⟩ := map_pages.wrote hk hs h
  refine ⟨hends, hwrote, fun i hi => ⟨hclear i hi, ?_⟩⟩
  unfold map_pages at h
  obtain ⟨⟨p', s₁⟩, hloop, h⟩ := bind_eq_ok.mp h
  cases h
  refine (forRange_inv (fun n (w : U64 × vmm H) => w.1 = pageAt p n ∧
    WroteRange Inv Free s w.2 v (mappedEntry p flags) n ∧
    ∀ i < n, w.2.entryOf (pageAt v i) = mappedEntry p flags i) ?_ ?_
    (forStep_returned hloop).2).2.2 i hi
  · rintro n ⟨q, t⟩ ⟨q', t'⟩ - ⟨rfl, ht, hpages⟩ hturn
    dsimp only at ht hpages hturn ⊢
    rw [← ht.pdir] at hturn
    obtain ⟨hq, hempty, hw⟩ :=
      (map_page.wrote hk ht.sound (pageAt v n) (pageAt p n) flags).of_value hturn
    -- an earlier page takes another way: its entry is present
    have hother : ∀ i < n, way (pageAt v i) ≠ way (pageAt v n) := by
      intro i hi hway
      rw [← entryOf_congr t hway, hpages i hi] at hempty
      exact entry_present _ hf hempty
    refine ⟨hq.trans (pageAt_succ p n).symm, ht.succ hw, fun i hi => ?_⟩
    rcases Nat.lt_succ_iff_lt_or_eq.mp hi with hi | rfl
    · exact (hw.rest _ (hother i hi)).trans (hpages i hi)
    · exact hw.at_page _ rfl
  · exact ⟨(pageAt_zero p).symm, WroteRange.refl hs v _, fun i hi => absurd hi (Nat.not_lt_zero i)⟩

theorem unmap_pages.returned (hk : FreshPages kmalloc_aligned Inv Free) (hs : Sound Inv Free s)
    {v size : U64} {fuel : Nat} (h : unmap_pages kmalloc_aligned fuel s.pdir_current v size s = ok s') :
    Ends v size ∧ WroteRange Inv Free s s' v (fun _ => VMM_PAGE_WRITE) (turns v size) := by
  obtain ⟨hends, hrange⟩ := forStep_returned h
  refine ⟨hends, ?_⟩
  refine forRange_inv (fun n t => WroteRange Inv Free s t v (fun _ => VMM_PAGE_WRITE) n) ?_
    (WroteRange.refl hs v _) hrange
  intro n t t' _ ht hturn
  rw [← ht.pdir] at hturn
  exact ht.succ ((unmap_page.wrote hk ht.sound (pageAt v n)).of_value hturn)

end vmm

end lobo
