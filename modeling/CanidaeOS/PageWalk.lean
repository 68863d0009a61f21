-- Four levels of page tables, as the processor walks them: a table is a page
-- of 512 entries, an entry names a frame and carries twelve bits of flags,
-- and bit 0 says that it is present.
import CanidaeOS.Memory
import CanidaeOS.RadixTree

open Machine RadixTree

namespace Paging

/-! ## Pages and entries in memory -/

/-- A page, by its number. -/
abbrev Page := BitVec 52

abbrev Index := BitVec 9

def pageAddr (f : Page) : U64 := f.setWidth 64 <<< 12

def pageOf (a : U64) : Page := a.extractLsb' 12 52

def PageAligned (a : U64) : Prop := a.toNat % 0x1000 = 0

instance (a : U64) : Decidable (PageAligned a) := inferInstanceAs (Decidable (_ = _))

/-- Where entry `index` of the table at `table` lies. -/
def slot (table index : U64) : U64 := table + 8 * index

/-- Every page of memory, read as a table. -/
def cells (m : Memory) (f : Page) (i : Index) : U64 := load64 m (slot (pageAddr f) (i.setWidth 64))

@[simp] theorem pageAddr_toNat (f : Page) : (pageAddr f).toNat = f.toNat * 0x1000 := by
  have := f.isLt
  simp only [pageAddr, BitVec.toNat_shiftLeft, BitVec.toNat_setWidth, Nat.shiftLeft_eq]
  omega

theorem pageOf_toNat (a : U64) : (pageOf a).toNat = a.toNat / 0x1000 := by
  have := a.isLt
  simp only [pageOf, BitVec.extractLsb'_toNat, Nat.shiftRight_eq_div_pow]
  omega

@[simp] theorem pageOf_pageAddr (f : Page) : pageOf (pageAddr f) = f := by
  apply BitVec.eq_of_toNat_eq
  rw [pageOf_toNat, pageAddr_toNat]
  omega

theorem pageAddr_pageOf {a : U64} (h : PageAligned a) : pageAddr (pageOf a) = a := by
  apply BitVec.eq_of_toNat_eq
  unfold PageAligned at h
  rw [pageAddr_toNat, pageOf_toNat]
  omega

theorem pageAddr_aligned (f : Page) : PageAligned (pageAddr f) := by
  unfold PageAligned
  rw [pageAddr_toNat]
  omega

theorem inRange_page_iff (f : Page) (x : U64) : InRange (pageAddr f) 0x1000 x ↔ pageOf x = f := by
  have hf := pageAddr_toNat f
  have hx := pageOf_toNat x
  have := f.isLt
  rw [inRange_iff (by omega), hf, ← BitVec.toNat_inj, hx]
  omega

theorem slot_toNat (f : Page) (i : Index) :
    (slot (pageAddr f) (i.setWidth 64)).toNat = f.toNat * 0x1000 + 8 * i.toNat := by
  have := f.isLt
  have := i.isLt
  simp only [slot, BitVec.toNat_add, BitVec.toNat_mul, pageAddr_toNat, BitVec.toNat_setWidth,
    BitVec.reduceToNat]
  omega

theorem slot_ne_zero {f : Page} (h : pageAddr f ≠ 0) (i : Index) :
    slot (pageAddr f) (i.setWidth 64) ≠ 0 := by
  intro h0
  apply h
  have hs := slot_toNat f i
  rw [h0] at hs
  apply BitVec.eq_of_toNat_eq
  rw [pageAddr_toNat]
  simp only [BitVec.ofNat_eq_ofNat, BitVec.toNat_ofNat] at hs ⊢
  omega

/-- Two entries share no byte. -/
theorem slots_apart {f g : Page} {i j : Index} (h : f ≠ g ∨ i ≠ j) :
    Apart (slot (pageAddr f) (i.setWidth 64)) 8 (slot (pageAddr g) (j.setWidth 64)) 8 := by
  have hf := slot_toNat f i
  have hg := slot_toNat g j
  have := f.isLt
  have := g.isLt
  have := i.isLt
  have := j.isLt
  have hne : f.toNat ≠ g.toNat ∨ i.toNat ≠ j.toNat := by
    rcases h with h | h
    · exact Or.inl fun heq => h (BitVec.eq_of_toNat_eq heq)
    · exact Or.inr fun heq => h (BitVec.eq_of_toNat_eq heq)
  rcases Nat.lt_or_ge (f.toNat * 0x1000 + 8 * i.toNat) (g.toNat * 0x1000 + 8 * j.toNat) with hlt | hge
  · exact apart_of_le (by omega) (by omega)
  · exact (apart_of_le (by omega) (by omega)).symm

@[simp] theorem cells_store_self (m : Memory) (f : Page) (i : Index) (e : U64) :
    cells (store64 m (slot (pageAddr f) (i.setWidth 64)) e) f i = e := load64_store64 _ _ _

theorem cells_store_ne (m : Memory) {f g : Page} {i j : Index} (e : U64) (h : g ≠ f ∨ j ≠ i) :
    cells (store64 m (slot (pageAddr f) (i.setWidth 64)) e) g j = cells m g j :=
  load64_store64_apart m e (slots_apart h)

/-- An entry lies in its own page. -/
theorem slot_inRange {f g : Page} {i : Index} {x : U64}
    (hx : InRange (slot (pageAddr g) (i.setWidth 64)) 8 x) :
    InRange (pageAddr f) 0x1000 x ↔ g = f := by
  have hs := slot_toNat g i
  have hf := pageAddr_toNat f
  have := g.isLt
  have := f.isLt
  have := i.isLt
  rw [inRange_iff (by omega), hs] at hx
  rw [inRange_iff (by omega), hf]
  constructor
  · intro h
    apply BitVec.eq_of_toNat_eq
    omega
  · intro h
    replace h := congrArg BitVec.toNat h
    exact ⟨by omega, by omega⟩

/-- A page whose bytes are zero is a table of empty entries. -/
theorem cells_zero {m : Memory} {f : Page} (h : ∀ x, InRange (pageAddr f) 0x1000 x → m x = 0)
    (i : Index) : cells m f i = 0 :=
  load64_zero fun x hx => h x ((slot_inRange hx).mpr rfl)

/-- Bytes that change in one page change no entry of another. -/
theorem cells_congr {m m' : Memory} {f g : Page}
    (h : ∀ x, ¬ InRange (pageAddr f) 0x1000 x → m' x = m x) (hne : g ≠ f) (i : Index) :
    cells m' g i = cells m g i :=
  load64_congr fun x hx => h x fun hin => hne ((slot_inRange hx).mp hin)

/-! ## Flags and frames -/

theorem and_low_toNat {w : Nat} (e : BitVec w) (k : Nat) (hk : k < w) :
    (e &&& BitVec.ofNat w (2 ^ k - 1)).toNat = e.toNat % 2 ^ k := by
  have hpow : 2 ^ k < 2 ^ w := Nat.pow_lt_pow_right (by omega) hk
  rw [BitVec.toNat_and, BitVec.toNat_ofNat,
    Nat.mod_eq_of_lt (Nat.lt_of_le_of_lt (Nat.sub_le _ _) hpow), Nat.and_two_pow_sub_one_eq_mod]

theorem and_high_toNat {w : Nat} (e : BitVec w) (k : Nat) (hk : k < w) :
    (e &&& ~~~(BitVec.ofNat w (2 ^ k - 1))).toNat = e.toNat - e.toNat % 2 ^ k := by
  have hsum : e = (e &&& ~~~(BitVec.ofNat w (2 ^ k - 1))) + (e &&& BitVec.ofNat w (2 ^ k - 1)) := by
    rw [BitVec.add_eq_or_of_and_eq_zero, ← BitVec.and_or_distrib_left, BitVec.not_or_self]
    · exact BitVec.and_allOnes.symm
    · ext i hi
      simp
      tauto
  have hlow := and_low_toNat e k hk
  have hle : e.toNat % 2 ^ k ≤ e.toNat := Nat.mod_le _ _
  have hsub : e &&& ~~~(BitVec.ofNat w (2 ^ k - 1)) = e - (e &&& BitVec.ofNat w (2 ^ k - 1)) := by
    rw [eq_sub_iff_add_eq]
    exact hsum.symm
  rw [hsub, BitVec.toNat_sub_of_le (by rw [BitVec.le_def, hlow]; exact hle), hlow]

/-- Flags below a frame. -/
theorem frame_or_toNat {p f : U64} {k : Nat} (hp : p.toNat % 2 ^ k = 0) (hf : f.toNat < 2 ^ k) :
    (p ||| f).toNat = p.toNat + f.toNat := by
  rw [BitVec.toNat_or]
  obtain ⟨q, hq⟩ := Nat.dvd_of_mod_eq_zero hp
  rw [hq, Nat.two_pow_add_eq_or_of_lt hf]

/-- What the processor reads in an entry: the frame and the flags, when the
entry is present. -/
def leaf (e : U64) : Option (U64 × U64) :=
  if e &&& 1 = 0 then none else some (e &&& ~~~0xFFF, e &&& 0xFFF)

@[simp] theorem leaf_zero : leaf 0 = none := rfl

theorem present_iff (e : U64) : e &&& 1 = 0 ↔ e.toNat % 2 = 0 := by
  have h := and_low_toNat e 1 (by norm_num)
  rw [← BitVec.toNat_inj]
  exact ⟨fun he => by rw [← pow_one 2, ← h]; exact he, fun he => h.trans he⟩

theorem leaf_eq_none {e : U64} : leaf e = none ↔ e.toNat % 2 = 0 := by
  rw [← present_iff]
  unfold leaf
  split <;> simp_all

/-- An entry of a page-aligned frame and present flags reads as written. -/
theorem leaf_or {p f : U64} (hp : PageAligned p) (hf : f.toNat < 0x1000) (h : f.toNat % 2 = 1) :
    leaf (p ||| f) = some (p, f) := by
  unfold PageAligned at hp
  have hsum := frame_or_toNat (k := 12) (f := f) hp hf
  have hodd : ¬ (p ||| f) &&& 1 = 0 := by
    rw [present_iff, hsum]
    omega
  have hframe : (p ||| f) &&& ~~~0xFFF = p := by
    apply BitVec.eq_of_toNat_eq
    have := and_high_toNat (p ||| f) 12 (by norm_num)
    rw [hsum] at this
    refine this.trans ?_
    omega
  have hflags : (p ||| f) &&& 0xFFF = f := by
    apply BitVec.eq_of_toNat_eq
    have := and_low_toNat (p ||| f) 12 (by norm_num)
    rw [hsum] at this
    refine this.trans ?_
    omega
  rw [leaf, if_neg hodd, hframe, hflags]

/-- The flags of an entry that come from a byte. -/
theorem byte_flags (f : U8) : (f.setWidth 64 : U64).toNat < 0x1000 := by
  have hf := f.isLt
  rw [BitVec.toNat_setWidth]
  omega

/-- The frame of an entry with flags below bit 12. -/
theorem leaf_frame {p f : U64} {l : U64 × U64} (hf : f.toNat < 0x1000)
    (h : leaf (p ||| f) = some l) : l.1.toNat = p.toNat / 0x1000 * 0x1000 := by
  unfold leaf at h
  split at h
  · cases h
  · cases h
    have hhigh : ((p ||| f) &&& ~~~0xFFF).toNat = (p ||| f).toNat - (p ||| f).toNat % 0x1000 :=
      and_high_toNat (p ||| f) 12 (by norm_num)
    have hdiv : (p ||| f).toNat / 0x1000 = p.toNat / 0x1000 := by
      have hor := Nat.shiftRight_or_distrib (a := p.toNat) (b := f.toNat) (i := 12)
      rw [Nat.shiftRight_eq_div_pow, Nat.shiftRight_eq_div_pow, Nat.shiftRight_eq_div_pow,
        Nat.div_eq_of_lt hf, Nat.or_zero] at hor
      rw [BitVec.toNat_or]
      exact hor
    dsimp only
    rw [hhigh]
    omega

/-! ## Paths -/

/-- The indices of the three tables below the first, highest first. -/
def path (v : U64) : List Index := [v.extractLsb' 39 9, v.extractLsb' 30 9, v.extractLsb' 21 9]

/-- The index into the last table. -/
def last (v : U64) : Index := v.extractLsb' 12 9

@[simp] theorem path_length (v : U64) : (path v).length = 3 := rfl

/-- An address that the processor walks: bits 47 to 63 are equal. -/
def Canonical (v : U64) : Prop := v.toNat < 2 ^ 47 ∨ 2 ^ 64 - 2 ^ 47 ≤ v.toNat

instance (v : U64) : Decidable (Canonical v) := inferInstanceAs (Decidable (_ ∨ _))

theorem index_eq (v : U64) (k : Nat) : (v >>> k) &&& 511 = (v.extractLsb' k 9).setWidth 64 := by
  apply BitVec.eq_of_toNat_eq
  have h := and_low_toNat (v >>> k) 9 (by norm_num)
  refine h.trans ?_
  rw [BitVec.toNat_setWidth, BitVec.extractLsb'_toNat, BitVec.toNat_ushiftRight]
  omega

/-- Two addresses take the same way when they agree in bits 12 to 47. -/
theorem path_eq_iff {u v : U64} : path u = path v ∧ last u = last v ↔
    u.toNat / 0x1000 % 2 ^ 36 = v.toNat / 0x1000 % 2 ^ 36 := by
  simp only [path, last, List.cons.injEq, and_true, ← BitVec.toNat_inj, BitVec.extractLsb'_toNat,
    Nat.shiftRight_eq_div_pow]
  omega

/-- An address takes the way of its page. -/
theorem path_page (v : U64) : path (pageAddr (pageOf v)) = path v ∧ last (pageAddr (pageOf v)) = last v := by
  rw [path_eq_iff, pageAddr_toNat, pageOf_toNat]
  omega

theorem canonical_page {v : U64} (hv : Canonical v) : Canonical (pageAddr (pageOf v)) := by
  unfold Canonical at *
  rw [pageAddr_toNat, pageOf_toNat]
  omega

/-- Pages of canonical addresses each have a way of their own. -/
theorem path_inj {u v : U64} (hu : PageAligned u) (hv : PageAligned v) (hcu : Canonical u)
    (hcv : Canonical v) (hp : path u = path v) (hl : last u = last v) : u = v := by
  have h := path_eq_iff.mp ⟨hp, hl⟩
  have := u.isLt
  have := v.isLt
  apply BitVec.eq_of_toNat_eq
  unfold PageAligned at hu hv
  unfold Canonical at hcu hcv
  omega

/-! ## The walk of the processor -/

/-- The table that a path leads to. `view` is where a physical address shows in
the memory that the tables are read from. -/
def walk (view : U64 → U64) (m : Memory) (table : U64) : List Index → Option U64
  | [] => some table
  | i :: p => (leaf (load64 m (slot table (i.setWidth 64)))).bind fun l => walk view m (view l.1) p

/-- The frame and the flags that the tables below `root` give to `v`. -/
def translate (view : U64 → U64) (m : Memory) (root v : U64) : Option (U64 × U64) :=
  (walk view m root (path v)).bind fun t => leaf (load64 m (slot t ((last v).setWidth 64)))

/-- The twelve low bits have no part in a translation. -/
theorem translate_page (view : U64 → U64) (m : Memory) (table v : U64) :
    translate view m table (pageAddr (pageOf v)) = translate view m table v := by
  unfold translate
  rw [(path_page v).1, (path_page v).2]

theorem walk_snoc (view : U64 → U64) (m : Memory) (table : U64) (p : List Index) (i : Index) :
    walk view m table (p ++ [i]) = (walk view m table p).bind fun t =>
      (leaf (load64 m (slot t (i.setWidth 64)))).map fun l => view l.1 := by
  induction p generalizing table with
  | nil =>
    simp only [List.nil_append, walk, Option.bind_some]
    cases leaf (load64 m (slot table (i.setWidth 64))) <;> rfl
  | cons j p ih =>
    simp only [List.cons_append, walk, Option.bind_assoc]
    congr 1
    funext l
    exact ih _

/-- A tree of page tables without sharing, in which every entry above the last
level is as `Inner` says. `child` is the table that an entry names. -/
structure Tree (Inner : U64 → Prop) (child : U64 → Option Page) (m : Memory) (root : Page) :
    Prop where
  unshared : Unshared (cells m) child 3 root
  inner : ∀ p t i, p.length < 3 → descend (cells m) child root p = some t → Inner (cells m t i)

/-- The processor finds the table that an entry names. -/
def Seen (view : U64 → U64) (child : U64 → Option Page) (e : U64) : Prop :=
  (leaf e).map (fun l => view l.1) = (child e).map pageAddr

variable {Inner : U64 → Prop} {view : U64 → U64} {child : U64 → Option Page} {m m' : Memory}
  {root t b : Page} {p : List Index} {i : Index}

/-- The processor meets the tables of the tree. -/
theorem Tree.walk_eq (h : Tree Inner child m root) (hseen : ∀ e, Inner e → Seen view child e)
    (hp : p.length ≤ 3) :
    walk view m (pageAddr root) p = (descend (cells m) child root p).map pageAddr := by
  induction p using List.reverseRecOn with
  | nil => rfl
  | append_singleton p i ih =>
    rw [List.length_append, List.length_singleton] at hp
    rw [walk_snoc, descend_snoc, ih (by omega)]
    cases hd : descend (cells m) child root p with
    | none => rfl
    | some t => exact hseen _ (h.inner p t i (by omega) hd)

/-- So a translation is what the last entry on the way says. -/
theorem Tree.translate_eq (h : Tree Inner child m root) (hseen : ∀ e, Inner e → Seen view child e)
    (v : U64) : translate view m (pageAddr root) v =
      leaf (entryAt (cells m) child 0 root (path v) (last v)) := by
  rw [translate, h.walk_eq hseen (path_length v).le]
  cases hd : descend (cells m) child root (path v) with
  | none => rw [entryAt_none hd]; rfl
  | some t => rw [entryAt_some hd]; rfl

/-- A root of empty entries is a tree, and translates nothing. -/
theorem Tree.blank (hzero : ∀ i, cells m root i = 0) (hchild : child 0 = none) (hinner : Inner 0) :
    Tree Inner child m root := by
  have hblank : ∀ i, child (cells m root i) = none := fun i => by rw [hzero, hchild]
  refine ⟨fun p q t _ _ hp hq => ?_, fun p t i _ hp => ?_⟩
  · rw [(descend_blank hblank hp).1, (descend_blank hblank hq).1]
  · rw [(descend_blank hblank hp).2, hzero]
    exact hinner

/-- A store that links a page in, in a memory `m₁` where that page is clear and
all others are as in `m`. -/
theorem links_store {m₁ : Memory} {e : U64} (ht : descend (cells m) child root p = some t)
    (hp : p.length < 3) (hempty : child (cells m t i) = none)
    (hfresh : ∀ q, q.length ≤ 3 → descend (cells m) child root q ≠ some b)
    (hblank : ∀ j, cells m₁ b j = 0) (hrest : ∀ u j, u ≠ b → cells m₁ u j = cells m u j)
    (he : child e = some b) :
    Links (cells m) (cells (store64 m₁ (slot (pageAddr t) (i.setWidth 64)) e)) child 0 3 root p t i b := by
  have hbt : b ≠ t := by
    rintro rfl
    exact hfresh p hp.le ht
  refine ⟨ht, hp, hempty, ?_, hfresh, fun j => ?_, fun u j hub hne => ?_⟩
  · rw [cells_store_self, he]
  · rw [cells_store_ne _ _ (Or.inl hbt), hblank]
  · rw [cells_store_ne _ _ hne, hrest u j hub]

/-- A tree stays one when a fresh table is linked into it. -/
theorem Tree.link (h : Tree Inner child m root)
    (hl : Links (cells m) (cells m') child 0 3 root p t i b) (he : child 0 = none)
    (hzero : Inner 0) (hlink : Inner (cells m' t i)) : Tree Inner child m' root := by
  refine ⟨hl.unshared h.unshared he, fun q u j hq hd => ?_⟩
  rcases hl.reached h.unshared he (Nat.le_of_lt hq) hd with ⟨rfl, -⟩ | ⟨hub, hd⟩
  · rw [hl.blank]
    exact hzero
  by_cases hti : u = t ∧ j = i
  · rw [hti.1, hti.2]
    exact hlink
  · rw [hl.rest u j hub (by tauto)]
    exact h.inner q u j hq hd

/-- A store into the last entry on the way to `v`: the tables stay where they
are, and only addresses that take the same way are translated anew. -/
theorem Tree.store (h : Tree Inner child m root) (hseen : ∀ e, Inner e → Seen view child e) {v : U64}
    (ht : descend (cells m) child root (path v) = some t) (e : U64) :
    let m' := store64 m (slot (pageAddr t) ((last v).setWidth 64)) e
    Tree Inner child m' root ∧
      (∀ q, q.length ≤ 3 → descend (cells m') child root q = descend (cells m) child root q) ∧
      ∀ x, translate view m' (pageAddr root) x =
        if path x = path v ∧ last x = last v then leaf e
        else translate view m (pageAddr root) x := by
  intro m'
  have hu := h.unshared
  have hw : Writes (cells m) (cells m') child 3 root (path v) t (last v) e :=
    ⟨ht, path_length v, cells_store_self _ _ _ _, fun u j hne => cells_store_ne _ _ hne⟩
  have hsame : ∀ q, q.length ≤ 3 →
      descend (cells m') child root q = descend (cells m) child root q :=
    fun q hq => hw.descend hu hq
  have htree : Tree Inner child m' root := by
    refine ⟨hw.unshared hu, fun q u j hq hd => ?_⟩
    rw [hsame q hq.le] at hd
    have hut : u ≠ t := by
      rintro rfl
      have := congrArg List.length (hu q (path v) u hq.le (path_length v).le hd ht)
      have := path_length v
      omega
    rw [hw.rest u j (Or.inl hut)]
    exact h.inner q u j hq hd
  refine ⟨htree, hsame, fun x => ?_⟩
  rw [htree.translate_eq hseen, h.translate_eq hseen]
  split
  · rename_i heq
    rw [heq.1, heq.2, hw.entryAt_self hu]
  · rename_i hne
    rw [hw.entryAt_ne hu (path_length x).le (not_and_or.mp hne)]

end Paging
