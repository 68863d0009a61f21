-- What a call of `map_direct` or `unmap` has done so far: turn by turn it
-- makes the map that it is for, and up to the load of `cr3` behind its last
-- turn the map before it may still be in use.
import CanidaeOS.VmmRuns

open Program Machine Outcome Paging RadixTree

namespace lobo

/-- What a call has still to do. -/
inductive Doing where
  | nothing
  /-- the loop of `map_pages`, before its test of `addr` -/
  | map_pages (addr addr_limit p_addr : U64) (flags : U8)
  | unmap_pages (addr addr_limit : U64)
  /-- `swap_page_directory`, before its line of the log -/
  | swap_page_directory
  | logged

/-- How a call starts. -/
def VmmCall.begin : VmmCall → Doing
  | .map_direct v_addr p_addr length perm _ =>
    .map_pages v_addr (v_addr + length) p_addr ((perm.setWidth 32).setWidth 8)
  | .unmap address length => .unmap_pages address (address + length)

/-- The loop is over, or there is none. -/
def Doing.Edited : Doing → Prop
  | map_pages addr addr_limit _ _ => ¬ addr < addr_limit
  | unmap_pages addr addr_limit => ¬ addr < addr_limit
  | swap_page_directory => True
  | _ => False

/-! ## What a call makes of a map -/

namespace VmmCall

def pages : VmmCall → Nat
  | map_direct _ _ length _ _ => Paging.pages length
  | unmap _ length => Paging.pages length

/-- The page of turn `i`. -/
def page : VmmCall → Nat → U64
  | map_direct v_addr _ _ _ _ => pageAt v_addr
  | unmap address _ => pageAt address

/-- The map after `i` turns. -/
def after : VmmCall → Nat → PageMap → PageMap
  | map_direct v_addr p_addr _ perm _, i, M => M.add v_addr p_addr (perm.setWidth 64) i
  | unmap address _, i, M => M.remove address i

/-- The map that the call is for. -/
def target (c : VmmCall) (M : PageMap) : PageMap := c.after c.pages M

/-- Where the loop is after `i` turns. -/
def doing : VmmCall → Nat → Doing
  | map_direct v_addr p_addr length perm _, i =>
    .map_pages (pageAt v_addr i) (v_addr + length) (pageAt p_addr i) ((perm.setWidth 32).setWidth 8)
  | unmap address length, i => .unmap_pages (pageAt address i) (address + length)

/-- None of the first `i` pages was mapped, where the call asks for that. -/
def Clear : VmmCall → Nat → PageMap → Prop
  | map_direct v_addr _ _ _ _, i, M => ∀ k < i, M (pageAt v_addr k) = none
  | unmap _ _, _, _ => True

/-- No page of the call is one of the kernel's. -/
def Spares (kernel : U64 → Prop) (c : VmmCall) : Prop := ∀ k < c.pages, ¬ kernel (c.page k)

variable {c : VmmCall} {M : PageMap} {i : Nat}

@[simp] theorem after_zero (c : VmmCall) (M : PageMap) : c.after 0 M = M := by
  cases c <;> simp [after]

theorem begin_eq (c : VmmCall) : c.begin = c.doing 0 := by
  cases c <;> simp [begin, doing]

theorem pages_le (c : VmmCall) : c.pages ≤ 2 ^ 52 := by
  cases c <;> exact Paging.pages_le _

/-- The page of the next turn is still as it was. -/
theorem after_ahead (c : VmmCall) (M : PageMap) (hi : i < 2 ^ 52) :
    c.after i M (c.page i) = M (c.page i) := by
  cases c with
  | map_direct v p length perm flags => exact PageMap.add_ahead M _ _ hi (Nat.le_refl i)
  | unmap address length => exact PageMap.remove_ahead M hi (Nat.le_refl i)

/-- A turn changes its own page only. -/
theorem after_succ (hc : c.Valid) (hi : i < 2 ^ 52) {x : U64} (hx : PageAligned x)
    (hne : x ≠ c.page i) : c.after (i + 1) M x = c.after i M x := by
  cases c with
  | map_direct v p length perm flags =>
    rw [after, PageMap.add_succ M p _ hc.1.aligned hx hi]
    exact if_neg hne
  | unmap address length =>
    rw [after, PageMap.remove_succ M (CanonicalPages.aligned hc) hx hi]
    exact if_neg hne

/-- A call whose pages were clear is one that the map accepts. -/
theorem apply_of_clear (h : c.Clear c.pages M) : c.apply M = some (c.target M) := by
  cases c with
  | map_direct v p length perm flags =>
    refine if_neg ?_
    rintro ⟨k, hk, hsome⟩
    rw [h k hk] at hsome
    cases hsome
  | unmap address length => rfl

theorem applyAll_snoc (cs : List VmmCall) (c : VmmCall) (M : PageMap) :
    applyAll (cs ++ [c]) M = (applyAll cs M).bind c.apply := by
  induction cs generalizing M with
  | nil => cases h : c.apply M <;> simp [applyAll, h]
  | cons d ds ih =>
    rw [List.cons_append, applyAll, applyAll]
    cases h : d.apply M with
    | none => rfl
    | some M' => exact ih M'

/-- The test of the loop counts its turns. -/
theorem range_lt {v length : U64} {n : Nat} (hn : Paging.pages length = n)
    (hv : CanonicalPages v n) {i : Nat} (hi : i ≤ n) : pageAt v i < v + length ↔ i < n := by
  have hlength : length.toNat ≤ n * 0x1000 := hn ▸ length_le length
  have hstart : i * 0x1000 ≤ n * 0x1000 := Nat.mul_le_mul_right _ hi
  have hpage : (pageAt v i).toNat = v.toNat + i * 0x1000 := by
    rw [pageAt_toNat]
    exact Nat.mod_eq_of_lt (Nat.lt_of_le_of_lt (Nat.add_le_add_left hstart _) hv.below)
  have hlimit : (v + length).toNat = v.toNat + length.toNat := by
    rw [BitVec.toNat_add]
    exact Nat.mod_eq_of_lt (Nat.lt_of_le_of_lt (Nat.add_le_add_left hlength _) hv.below)
  rw [BitVec.lt_def, hpage, hlimit, Nat.add_lt_add_iff_left, ← hn, Paging.pages]
  omega

theorem edited_iff (hc : c.Valid) (hi : i ≤ c.pages) : (c.doing i).Edited ↔ i = c.pages := by
  have hlt : (c.doing i).Edited ↔ ¬ i < c.pages := by
    cases c with
    | map_direct v p length perm flags => exact not_congr (range_lt rfl hc.1 hi)
    | unmap address length => exact not_congr (range_lt rfl hc hi)
  rw [hlt]
  omega

end VmmCall

/-! ## A call on its way -/

/-- No loop is on. -/
def Doing.Still : Doing → Prop
  | map_pages _ _ _ _ => False
  | unmap_pages _ _ => False
  | _ => True

/-- How far the calls have come: `M` is the map of the last load, `N` the one
that the tables have. -/
inductive Progress (M₀ : PageMap) : List VmmCall → PageMap → PageMap → Doing → Prop
  | between {cs : List VmmCall} {M : PageMap} {d : Doing} : VmmCall.applyAll cs M₀ = some M →
      d.Still → Progress M₀ cs M M d
  | editing {cs : List VmmCall} {c : VmmCall} {M : PageMap} {i : Nat} :
      VmmCall.applyAll cs M₀ = some M → c.Valid → i ≤ c.pages → c.Clear i M →
      Progress M₀ (cs ++ [c]) M (c.after i M) (c.doing i)
  | edited {cs : List VmmCall} {c : VmmCall} {M : PageMap} : VmmCall.applyAll cs M₀ = some M →
      c.Valid → c.apply M = some (c.target M) → Progress M₀ (cs ++ [c]) M (c.target M) .logged

namespace Progress

variable {M₀ M N : PageMap} {cs : List VmmCall} {d : Doing}

/-- Between two calls the tables are as they were loaded. -/
theorem of_nothing (h : Progress M₀ cs M N d) (hd : d = .nothing) :
    N = M ∧ VmmCall.applyAll cs M₀ = some M := by
  cases h with
  | between hM _ => exact ⟨rfl, hM⟩
  | @editing _ c _ i => cases c <;> simp [VmmCall.doing] at hd
  | edited => cases hd

/-- The next call begins. -/
theorem call (h : Progress M₀ cs M N .nothing) {c : VmmCall} (hc : c.Valid) :
    Progress M₀ (cs ++ [c]) M N c.begin := by
  obtain ⟨rfl, hM⟩ := h.of_nothing rfl
  have hclear : c.Clear 0 N := by
    cases c with
    | map_direct => exact fun k hk => absurd hk (Nat.not_lt_zero k)
    | unmap => exact trivial
  have hfirst := editing hM hc (Nat.zero_le _) hclear
  rwa [VmmCall.after_zero, ← VmmCall.begin_eq] at hfirst

/-- A loop that is over has made all its turns. -/
theorem log (h : Progress M₀ cs M N d) (hd : d.Edited) : Progress M₀ cs M N .logged := by
  cases h with
  | between hM _ => exact between hM trivial
  | @editing cs c M i hM hc hi hclear =>
    obtain rfl := (VmmCall.edited_iff hc hi).mp hd
    exact edited hM hc (VmmCall.apply_of_clear hclear)
  | edited hM hc happly => exact edited hM hc happly

/-- What is loaded behind the edits is what the calls are for. -/
theorem load (h : Progress M₀ cs M N d) (hd : d = .logged) : Progress M₀ cs N N .nothing := by
  cases h with
  | between hM _ => exact between hM trivial
  | @editing _ c _ i => cases c <;> simp [VmmCall.doing] at hd
  | edited hM _ happly =>
    refine between ?_ trivial
    rw [VmmCall.applyAll_snoc, hM]
    exact happly

end Progress

/-! ## What a turn leaves alone -/

namespace vmm

variable {H : Type} {kmalloc_aligned : U64 → U64 → H → Outcome Stop (U64 × H)} {s s' : vmm H}

theorem find_page_table.cr3 {pt index a : U64} {create : Bool}
    (h : find_page_table kmalloc_aligned pt index create s = ok (a, s')) : s'.cr3 = s.cr3 := by
  unfold find_page_table at h
  dsimp only at h
  split at h
  · split at h
    · cases h
      rfl
    · obtain ⟨r, -, h⟩ := bind_eq_ok.mp h
      cases h
      rfl
  · obtain ⟨-, rfl⟩ := Prod.mk.inj (ok.inj h)
    rfl

theorem find_page_entry.cr3 {p4 addr a : U64} {create : Bool}
    (h : find_page_entry kmalloc_aligned p4 addr create s = ok (a, s')) : s'.cr3 = s.cr3 := by
  obtain ⟨⟨p3, s₃⟩, h3, h⟩ := bind_eq_ok.mp h
  dsimp only at h
  split at h
  · cases h
    exact find_page_table.cr3 h3
  obtain ⟨⟨p2, s₂⟩, h2, h⟩ := bind_eq_ok.mp h
  dsimp only at h
  split at h
  · cases h
    exact (find_page_table.cr3 h2).trans (find_page_table.cr3 h3)
  obtain ⟨⟨p1, s₁⟩, h1, h⟩ := bind_eq_ok.mp h
  have hcr3 := (find_page_table.cr3 h1).trans ((find_page_table.cr3 h2).trans (find_page_table.cr3 h3))
  dsimp only at h
  split at h <;> cases h <;> exact hcr3

theorem map_page.cr3 {p4 addr p p' : U64} {flags : U8}
    (h : map_page kmalloc_aligned p4 flags addr (p, s) = ok (p', s')) : s'.cr3 = s.cr3 := by
  obtain ⟨⟨entry, t⟩, hwalk, h⟩ := bind_eq_ok.mp h
  have hcr3 : t.cr3 = s.cr3 := find_page_entry.cr3 hwalk
  dsimp only at h
  split at h
  · cases h
  split at h
  · cases h
  · obtain ⟨-, rfl⟩ := Prod.mk.inj (ok.inj h)
    exact hcr3

theorem unmap_page.cr3 {p4 addr : U64} (h : unmap_page kmalloc_aligned p4 addr s = ok s') :
    s'.cr3 = s.cr3 := by
  obtain ⟨⟨entry, t⟩, hwalk, h⟩ := bind_eq_ok.mp h
  have hcr3 : t.cr3 = s.cr3 := find_page_entry.cr3 hwalk
  dsimp only at h
  split at h
  · cases h
  · cases h
    exact hcr3

end vmm

end lobo
