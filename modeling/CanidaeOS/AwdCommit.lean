-- What a commit of the boot loader's queue translates: each page by the last
-- region that was queued over it, as long as every page that the heap gave
-- for a table read as zero.
import CanidaeOS.AwdMemory
import CanidaeOS.AwdPaging

open Program Machine Outcome Paging RadixTree

namespace awd

/-! ## Tables from the heap -/

/-- The heap handed page `f` out while its position went from `first` to `cur`. -/
def Handed (first cur : U64) (f : Page) : Prop :=
  first.toNat ≤ (pageAddr f).toNat ∧ (pageAddr f).toNat + 0x1000 ≤ cur.toNat

/-- Every page handed out lies below 4 GiB and, before the commit, reads as
zero. The page of `paging_pml4`, which the commit writes, is not one of them. -/
def ReadsZero (root : Page) (m : Memory) (first cur : U64) : Prop :=
  ∀ f, Handed first cur f → (pageAddr f).toNat < 2 ^ 32 ∧ f ≠ root ∧
    ∀ x, pageOf x = f → m x = 0

theorem ReadsZero.mono {root : Page} {m : Memory} {first cur cur' : U64}
    (h : ReadsZero root m first cur') (hle : cur.toNat ≤ cur'.toNat) : ReadsZero root m first cur :=
  fun f hf => h f ⟨hf.1, Nat.le_trans hf.2 hle⟩

/-- What a position of the heap up to `cur` has handed out reads as zero, as
long as that is no more than `n` pages. -/
def ZeroFor (root : Page) (m : Memory) (first cur : U64) (n : Nat) : Prop :=
  ∀ c : U64, c.toNat ≤ cur.toNat → pageRounded c.toNat ≤ pageRounded first.toNat + 0x1000 * n →
    ReadsZero root m first c

theorem ReadsZero.zeroFor {root : Page} {m : Memory} {first cur : U64}
    (h : ReadsZero root m first cur) (n : Nat) : ZeroFor root m first cur n :=
  fun _ hle _ => h.mono hle

theorem ZeroFor.mono {root : Page} {m : Memory} {first cur cur' : U64} {n n' : Nat}
    (h : ZeroFor root m first cur' n') (hle : cur.toNat ≤ cur'.toNat) (hn : n ≤ n') :
    ZeroFor root m first cur n :=
  fun c hc hpages => h c (Nat.le_trans hc hle) (by omega)

/-- The same queue, and a heap that has only moved up. -/
structure Later (s s' : paging) : Prop where
  num : s'.paging_queue_num = s.paging_queue_num
  queue : s'.paging_queue = s.paging_queue
  ready : s'.alloc.Ready
  limit : s'.alloc.heap_phys_limit = s.alloc.heap_phys_limit
  le : s.alloc.heap_phys_current.toNat ≤ s'.alloc.heap_phys_current.toNat

theorem Later.refl {s : paging} (h : s.alloc.Ready) : Later s s := ⟨rfl, rfl, h, rfl, Nat.le_refl _⟩

theorem Later.trans {s t u : paging} (h1 : Later s t) (h2 : Later t u) : Later s u :=
  ⟨h2.num.trans h1.num, h2.queue.trans h1.queue, h2.ready, h2.limit.trans h1.limit,
    Nat.le_trans h1.le h2.le⟩

def paging.table (s : paging) (root : Page) (p : List Index) : Option Page :=
  descend (cells s.mem) named root p

def paging.entry (s : paging) (root : Page) (p : List Index) (i : Index) : U64 :=
  entryAt (cells s.mem) named 0 root p i

def paging.translate (s : paging) (root : Page) (v : U64) : Option (U64 × U64) :=
  Paging.translate id s.mem (pageAddr root) v

/-- A tree of tables that the heap handed out since its position was `first`.
Ahead of the position, memory is as it was in `m`. -/
structure Built (root : Page) (m : Memory) (first : U64) (s : paging) : Prop where
  tree : Tree Inner named s.mem root
  tables : ∀ p t, p.length ≤ 3 → s.table root p = some t →
    t = root ∨ Handed first s.alloc.heap_phys_current t
  ahead : ∀ x, s.alloc.heap_phys_current.toNat ≤ x.toNat → pageOf x ≠ root → s.mem x = m x
  first_le : first.toNat ≤ s.alloc.heap_phys_current.toNat

/-- The paths to the tables are those in `T`, and each table took a page of the
heap. -/
structure Opened (root : Page) (first : U64) (s : paging) (T : Finset (List Index)) : Prop where
  table : ∀ p, p ≠ [] → p.length ≤ 3 → ((s.table root p).isSome ↔ p ∈ T)
  pages : pageRounded s.alloc.heap_phys_current.toNat = pageRounded first.toNat + 0x1000 * T.card

variable {root : Page} {m : Memory} {first : U64} {s s' : paging} {p : List Index} {t : Page}
  {T : Finset (List Index)}

theorem Built.translate_eq (hs : Built root m first s) (v : U64) :
    s.translate root v = leaf (s.entry root (path v) (last v)) :=
  hs.tree.translate_eq (fun _ => Inner.seen) v

/-- A pointer reaches every table of the tree. -/
theorem Built.low (hs : Built root m first s) (hroot : (pageAddr root).toNat < 2 ^ 32)
    (hzero : ReadsZero root m first s.alloc.heap_phys_current) (hp : p.length ≤ 3)
    (ht : s.table root p = some t) : (pageAddr t).toNat < 2 ^ 32 := by
  rcases hs.tables p t hp ht with rfl | hh
  · exact hroot
  · exact (hzero t hh).1

/-- A store into a table changes nothing ahead of the heap's position. -/
theorem Built.store_ahead (hs : Built root m first s) (hp : p.length ≤ 3)
    (ht : s.table root p = some t) (i : Index) (e : U64) {x : U64}
    (hx : s.alloc.heap_phys_current.toNat ≤ x.toNat) (hne : pageOf x ≠ root) :
    store64 s.mem (slot (pageAddr t) (i.setWidth 64)) e x = m x := by
  rw [store64_frame, hs.ahead x hx hne]
  intro hin
  have hpage : pageOf x = t := (inRange_page_iff t x).mp ((slot_inRange hin).mpr rfl)
  rcases hs.tables p t hp ht with rfl | ⟨-, hend⟩
  · exact hne hpage
  · have hx' := pageOf_toNat x
    rw [hpage] at hx'
    rw [pageAddr_toNat] at hend
    omega

/-- A page that the heap hands out, linked in as a table. -/
theorem Built.link (hs : Built root m first s) (hp : p.length < 3) (ht : s.table root p = some t)
    {i : Index} (hempty : cells s.mem t i = 0) {a : alloc} {b : Page}
    (hge : s.alloc.heap_phys_current.toNat ≤ (pageAddr b).toNat)
    (hcur : a.heap_phys_current.toNat = (pageAddr b).toNat + 0x1000)
    (hzero : ReadsZero root m first a.heap_phys_current) :
    let mem := store64 s.mem (slot (pageAddr t) (i.setWidth 64)) (linkTo b)
    let s' := { s with alloc := a, mem }
    Built root m first s' ∧ s'.table root (p ++ [i]) = some b ∧
      (∀ q, q.length ≤ 3 →
        ((s'.table root q).isSome ↔ q = p ++ [i] ∨ (s.table root q).isSome)) ∧
      ∀ q j, q.length = 3 → s'.entry root q j = s.entry root q j := by
  intro mem s'
  have hfirst := hs.first_le
  have hb : Handed first a.heap_phys_current b := ⟨Nat.le_trans hfirst hge, hcur.ge⟩
  obtain ⟨hlow, hroot, hbytes⟩ := hzero b hb
  have hfresh : ∀ q, q.length ≤ 3 → s.table root q ≠ some b := by
    intro q hq hqb
    rcases hs.tables q b hq hqb with h | ⟨-, hend⟩
    · exact hroot h
    · omega
  have hblank : ∀ j, cells s.mem b j = 0 := by
    refine cells_zero fun x hx => ?_
    have hx' : pageOf x = b := (inRange_page_iff b x).mp hx
    have hxn := pageOf_toNat x
    rw [hx'] at hxn
    rw [pageAddr_toNat] at hge
    rw [hs.ahead x (by omega) (by rw [hx']; exact hroot), hbytes x hx']
  have hlinks : Links (cells s.mem) (cells mem) named 0 3 root p t i b :=
    links_store ht hp (by rw [hempty, named_zero]) hfresh hblank (fun _ _ _ => rfl)
      (named_linkTo hlow)
  have hu := hs.tree.unshared
  refine ⟨⟨hs.tree.link hlinks named_zero (Or.inl rfl) ?_, fun q u hq hqu => ?_,
    fun x hx hne => hs.store_ahead hp.le ht i _ ?_ hne, ?_⟩, hlinks.at_path hu named_zero,
    fun q hq => ?_, fun q j hq => hlinks.entryAt hu named_zero hq⟩
  · rw [cells_store_self]
    exact Or.inr (linkTo_link hlow)
  · rcases hlinks.reached hu named_zero hq hqu with ⟨rfl, -⟩ | ⟨-, hqu⟩
    · exact Or.inr hb
    · rcases hs.tables q u hq hqu with h | ⟨h1, h2⟩
      · exact Or.inl h
      · refine Or.inr ⟨h1, ?_⟩
        dsimp only [s']
        omega
  · dsimp only [s'] at hx
    omega
  · dsimp only [s']
    omega
  · show (descend (cells mem) named root q).isSome ↔ _ ∨ (descend (cells s.mem) named root q).isSome
    rcases hlinks.descend hu named_zero hq with ⟨hd, hqp⟩ | ⟨hd, hqp⟩
    · rw [hd]
      simp [hqp]
    · rw [hd]
      simp [hqp]

/-- A write into the last entry on the way. -/
theorem Built.write (hs : Built root m first s) {v : U64} (ht : s.table root (path v) = some t)
    (e : U64) :
    let s' := { s with mem := store64 s.mem (slot (pageAddr t) ((last v).setWidth 64)) e }
    Built root m first s' ∧ (∀ q, q.length ≤ 3 → s'.table root q = s.table root q) ∧
      ∀ x, s'.translate root x =
        if path x = path v ∧ last x = last v then leaf e else s.translate root x := by
  intro s'
  obtain ⟨htree, hsame, htr⟩ := hs.tree.store (fun _ => Inner.seen) ht e
  refine ⟨⟨htree, fun q u hq hqu => hs.tables q u hq ?_,
    fun x hx hne => hs.store_ahead (path_length v).le ht _ _ hx hne, hs.first_le⟩, hsame, htr⟩
  rw [paging.table, ← hsame q hq]
  exact hqu

/-! ## The spec of `paging_map_page` -/

theorem createOrLoad.stops (table index : U32) (s : paging) :
    (createOrLoad table index s).Meets HeapStop fun _ => True := by
  unfold createOrLoad
  dsimp only
  split
  · exact (malloc_aligned.stops _ _ _).bind fun _ _ => Meets.ok trivial
  · exact Meets.ok trivial

/-- A call that returns took a page of the heap and linked it, or changed
nothing. -/
theorem createOrLoad.returned {table index q : U32} (h : createOrLoad table index s = ok (q, s')) :
    (∃ a, malloc_aligned 0x1000 0x1000 s.alloc = ok (q, a) ∧ s' = { s with
      alloc := a, mem := store64 s.mem (entryPtr table index)
        ((q ||| table_attr.setWidth 32).setWidth 64) }) ∨ s' = s := by
  unfold createOrLoad at h
  dsimp only at h
  split at h
  · obtain ⟨⟨pg, a⟩, hcall, h⟩ := bind_eq_ok.mp h
    cases h
    exact Or.inl ⟨a, hcall, rfl⟩
  · cases h
    exact Or.inr rfl

theorem createOrLoad.later {table index q : U32} (hready : s.alloc.Ready)
    (h : createOrLoad table index s = ok (q, s')) : Later s s' := by
  rcases createOrLoad.returned h with ⟨a, hcall, rfl⟩ | rfl
  · obtain ⟨b, -, hge, -, hcur, hready', hsame⟩ := malloc_page.spec hready hcall
    refine ⟨rfl, rfl, hready', hsame, ?_⟩
    dsimp only
    omega
  · exact Later.refl hready

/-- The first whole page from a position on. -/
theorem page_behind {n : Nat} {b : Page} (hge : n ≤ (pageAddr b).toNat)
    (hnear : (pageAddr b).toNat < n + 0x1000) :
    pageRounded ((pageAddr b).toNat + 0x1000) = pageRounded n + 0x1000 := by
  have hb := pageAddr_toNat b
  unfold pageRounded
  omega

theorem createOrLoad_eq {i : Index} (hlow : (pageAddr t).toNat < 2 ^ 32) :
    createOrLoad (ptr t) (i.setWidth 32) s =
      if cells s.mem t i = 0 then do
        let (pg, alloc) ← malloc_aligned 0x1000 0x1000 s.alloc
        ok (pg, { s with
          alloc, mem := store64 s.mem (slot (pageAddr t) (i.setWidth 64))
            ((pg ||| table_attr.setWidth 32).setWidth 64) })
      else ok ((cells s.mem t i).setWidth 32 &&& attribute_mask, s) := by
  unfold createOrLoad
  rw [entryPtr_eq hlow]
  rfl

/-- An entry that is in use is followed. -/
theorem createOrLoad.loaded {i : Index} {b : Page} (hlow : (pageAddr t).toNat < 2 ^ 32)
    (hne : cells s.mem t i ≠ 0)
    (hptr : (cells s.mem t i).setWidth 32 &&& attribute_mask = ptr b) :
    createOrLoad (ptr t) (i.setWidth 32) s = ok (ptr b, s) := by
  rw [createOrLoad_eq hlow, if_neg hne, hptr]

/-- An empty entry gets a page of the heap. -/
theorem createOrLoad.created {i : Index} {b : Page} {a : alloc} (hlow : (pageAddr t).toNat < 2 ^ 32)
    (hempty : cells s.mem t i = 0) (hcall : malloc_aligned 0x1000 0x1000 s.alloc = ok (ptr b, a)) :
    createOrLoad (ptr t) (i.setWidth 32) s = ok (ptr b, { s with
      alloc := a, mem := store64 s.mem (slot (pageAddr t) (i.setWidth 64)) (linkTo b) }) := by
  rw [createOrLoad_eq hlow, if_pos hempty, hcall]
  rfl

/-- The table behind an entry of the tree, one level down. -/
theorem createOrLoad.spec (hroot : (pageAddr root).toNat < 2 ^ 32) (hs : Built root m first s)
    (hT : Opened root first s T) (hready : s.alloc.Ready) (hp : p.length < 3)
    (ht : s.table root p = some t) {i : Index} {q : U32}
    (h : createOrLoad (ptr t) (i.setWidth 32) s = ok (q, s'))
    (hzero : ZeroFor root m first s'.alloc.heap_phys_current (insert (p ++ [i]) T).card) :
    Built root m first s' ∧ Opened root first s' (insert (p ++ [i]) T) ∧
      (∃ b, q = ptr b ∧ s'.table root (p ++ [i]) = some b) ∧
      ∀ r j, r.length = 3 → s'.entry root r j = s.entry root r j := by
  have hlater := createOrLoad.later hready h
  have hpi : (p ++ [i]).length ≤ 3 := by
    rw [List.length_append]
    exact hp
  have hold : (s.table root (p ++ [i])).isSome ↔ p ++ [i] ∈ T := hT.table _ (by simp) hpi
  have hsnoc : s.table root (p ++ [i]) = named (cells s.mem t i) := by
    rw [paging.table, descend_snoc, ← paging.table, ht, Option.bind_some]
  have hlow : (pageAddr t).toNat < 2 ^ 32 := by
    refine hs.low hroot (hzero _ hlater.le ?_) hp.le ht
    rw [hT.pages]
    have := Finset.card_le_card (Finset.subset_insert (p ++ [i]) T)
    omega
  by_cases hempty : cells s.mem t i = 0
  · rcases malloc_aligned.stops 0x1000 0x1000 s.alloc with ⟨e, he, -⟩ | ⟨⟨pg, a⟩, hcall, -⟩
    · rw [createOrLoad_eq hlow, if_pos hempty, he] at h
      cases h
    obtain ⟨b, rfl, hge, hnear, hcur, -⟩ := malloc_page.spec hready hcall
    rw [createOrLoad.created hlow hempty hcall] at h
    cases h
    have hnew : p ++ [i] ∉ T := by
      rw [← hold, hsnoc, hempty, named_zero]
      simp
    have hpages : pageRounded a.heap_phys_current.toNat =
        pageRounded first.toNat + 0x1000 * (insert (p ++ [i]) T).card := by
      rw [Finset.card_insert_of_notMem hnew, hcur, page_behind hge hnear, hT.pages, Nat.mul_succ,
        Nat.add_assoc]
    obtain ⟨hs', htable, htables, hentry⟩ :=
      hs.link hp ht hempty hge hcur (hzero _ (Nat.le_refl _) hpages.le)
    refine ⟨hs', ⟨fun q hne hq => ?_, hpages⟩, ⟨b, rfl, htable⟩, hentry⟩
    rw [Finset.mem_insert, ← hT.table q hne hq]
    exact htables q hq
  · have hlink : Link (cells s.mem t i) := (hs.tree.inner p t i hp ht).resolve_left hempty
    rw [createOrLoad.loaded hlow hempty hlink.ptr_eq] at h
    cases h
    have hthere : s.table root (p ++ [i]) = some _ := hsnoc.trans (if_neg hempty)
    have hmem : p ++ [i] ∈ T := by
      rw [← hold, hthere]
      rfl
    rw [Finset.insert_eq_of_mem hmem]
    exact ⟨hs, hT, ⟨_, rfl, hthere⟩, fun _ _ _ => rfl⟩

theorem paging_map_page.stops (paging_pml4 : U32) (phys virt : U64) (page_attr : U8) (s : paging) :
    (paging_map_page paging_pml4 phys virt page_attr s).Meets HeapStop fun _ => True := by
  unfold paging_map_page
  exact (createOrLoad.stops _ _ _).bind fun _ _ => (createOrLoad.stops _ _ _).bind fun _ _ =>
    (createOrLoad.stops _ _ _).bind fun _ _ => Meets.ok trivial

/-- A call that returns opened the table behind an index three times, and wrote
the last entry. -/
theorem paging_map_page.returned {paging_pml4 : U32} {phys virt : U64} {page_attr : U8}
    (h : paging_map_page paging_pml4 phys virt page_attr s = ok s') :
    ∃ p3 s₁ p2 s₂ p1 s₃,
      createOrLoad paging_pml4 ((virt.extractLsb' 39 9).setWidth 32) s = ok (p3, s₁) ∧
      createOrLoad p3 ((virt.extractLsb' 30 9).setWidth 32) s₁ = ok (p2, s₂) ∧
      createOrLoad p2 ((virt.extractLsb' 21 9).setWidth 32) s₂ = ok (p1, s₃) ∧
      s' = { s₃ with
        mem := store64 s₃.mem (entryPtr p1 ((virt.extractLsb' 12 9).setWidth 32))
          (phys ||| page_attr.setWidth 64) } := by
  simp only [paging_map_page, index_eq] at h
  obtain ⟨⟨p3, s₁⟩, h1, h⟩ := bind_eq_ok.mp h
  obtain ⟨⟨p2, s₂⟩, h2, h⟩ := bind_eq_ok.mp h
  obtain ⟨⟨p1, s₃⟩, h3, h⟩ := bind_eq_ok.mp h
  cases h
  exact ⟨p3, s₁, p2, s₂, p1, s₃, h1, h2, h3, rfl⟩

theorem paging_map_page.later {paging_pml4 : U32} {phys virt : U64} {page_attr : U8}
    (hready : s.alloc.Ready) (h : paging_map_page paging_pml4 phys virt page_attr s = ok s') :
    Later s s' := by
  rcases paging_map_page.returned h with ⟨p3, s₁, p2, s₂, p1, s₃, h1, h2, h3, rfl⟩
  have l1 := createOrLoad.later hready h1
  have l2 := createOrLoad.later l1.ready h2
  have l3 := createOrLoad.later l2.ready h3
  have l := l1.trans (l2.trans l3)
  exact ⟨l.num, l.queue, l.ready, l.limit, l.le⟩

/-- The paths of the three tables that lead to `v`. -/
def tablesTo (v : U64) : Finset (List Index) :=
  {path v, [v.extractLsb' 39 9, v.extractLsb' 30 9], [v.extractLsb' 39 9]}

/-- One table after the other. -/
theorem union_tablesTo (T : Finset (List Index)) (v : U64) : T ∪ tablesTo v =
    insert ([v.extractLsb' 39 9, v.extractLsb' 30 9] ++ [v.extractLsb' 21 9])
      (insert ([v.extractLsb' 39 9] ++ [v.extractLsb' 30 9])
        (insert ([] ++ [v.extractLsb' 39 9]) T)) := by
  rw [Finset.union_comm, tablesTo, Finset.insert_union, Finset.insert_union,
    Finset.singleton_union]
  rfl

/-- The two addresses take the same way through the tables. -/
def SameWay (x v : U64) : Prop := path x = path v ∧ last x = last v

instance (x v : U64) : Decidable (SameWay x v) := inferInstanceAs (Decidable (_ ∧ _))

/-- The tables on the way are opened, the page is translated as its entry says,
and every address that takes another way is translated as before. -/
theorem paging_map_page.spec (hroot : (pageAddr root).toNat < 2 ^ 32) (hs : Built root m first s)
    (hT : Opened root first s T) (hready : s.alloc.Ready) {phys virt : U64} {page_attr : U8}
    (h : paging_map_page (ptr root) phys virt page_attr s = ok s')
    (hzero : ZeroFor root m first s'.alloc.heap_phys_current (T ∪ tablesTo virt).card) :
    Built root m first s' ∧ Opened root first s' (T ∪ tablesTo virt) ∧
      ∀ x, s'.translate root x = if SameWay x virt then leaf (phys ||| page_attr.setWidth 64)
        else s.translate root x := by
  rcases paging_map_page.returned h with ⟨p3, s₁, p2, s₂, p1, s₃, h1, h2, h3, rfl⟩
  have l1 := createOrLoad.later hready h1
  have l2 := createOrLoad.later l1.ready h2
  have l3 := createOrLoad.later l2.ready h3
  let T₁ := insert ([] ++ [virt.extractLsb' 39 9]) T
  let T₂ := insert ([virt.extractLsb' 39 9] ++ [virt.extractLsb' 30 9]) T₁
  rw [union_tablesTo] at hzero ⊢
  have z2 : ZeroFor root m first s₂.alloc.heap_phys_current T₂.card :=
    hzero.mono l3.le (Finset.card_le_card (Finset.subset_insert _ _))
  have z1 : ZeroFor root m first s₁.alloc.heap_phys_current T₁.card :=
    z2.mono l2.le (Finset.card_le_card (Finset.subset_insert _ _))
  obtain ⟨b1, o1, ⟨t3, rfl, ht3⟩, e1⟩ :=
    createOrLoad.spec hroot hs hT hready (p := []) (by simp) rfl h1 z1
  obtain ⟨b2, o2, ⟨t2, rfl, ht2⟩, e2⟩ := createOrLoad.spec hroot b1 o1 l1.ready (by simp) ht3 h2 z2
  obtain ⟨b3, o3, ⟨t1, rfl, ht1⟩, e3⟩ :=
    createOrLoad.spec hroot b2 o2 l2.ready (by simp) ht2 h3 hzero
  have hsame : ∀ x, s₃.translate root x = s.translate root x := by
    intro x
    rw [b3.translate_eq, hs.translate_eq, e3 _ _ (path_length x), e2 _ _ (path_length x),
      e1 _ _ (path_length x)]
  have hlow := b3.low hroot (hzero _ (Nat.le_refl _) o3.pages.le) (by simp) ht1
  rw [entryPtr_eq hlow]
  obtain ⟨hb, htables, htr⟩ := b3.write (v := virt) ht1 (phys ||| page_attr.setWidth 64)
  refine ⟨hb, ⟨fun q hne hq => ?_, o3.pages⟩, fun x => ?_⟩
  · exact (congrArg (·.isSome = true) (htables q hq)).to_iff.trans (o3.table q hne hq)
  · rw [← hsame x]
    exact htr x

/-! ## Pages -/

/-- The arguments of a call of `paging_map_page`. -/
structure PageCall where
  phys : U64
  virt : U64
  page_attr : U8

def mapPages (paging_pml4 : U32) : List PageCall → paging → Outcome Stop paging
  | [], s => ok s
  | c :: cs, s => paging_map_page paging_pml4 c.phys c.virt c.page_attr s >>= mapPages paging_pml4 cs

/-- The tables that the calls need. -/
def tablesOf : List PageCall → Finset (List Index)
  | [] => ∅
  | c :: cs => tablesTo c.virt ∪ tablesOf cs

/-- What the last call on the way to `x` has written there. -/
def drawn (cs : List PageCall) (x : U64) : Option (U64 × U64) :=
  (cs.reverse.find? fun c => SameWay x c.virt).bind fun c => leaf (c.phys ||| c.page_attr.setWidth 64)

theorem mapPages_append (paging_pml4 : U32) (cs ds : List PageCall) (s : paging) :
    mapPages paging_pml4 (cs ++ ds) s = mapPages paging_pml4 cs s >>= mapPages paging_pml4 ds := by
  induction cs generalizing s with
  | nil => rfl
  | cons c cs ih =>
    rw [List.cons_append, mapPages, mapPages, Outcome.bind_assoc]
    exact congrArg _ (funext ih)

theorem mapPages_snoc (paging_pml4 : U32) (cs : List PageCall) (c : PageCall) (s : paging) :
    mapPages paging_pml4 (cs ++ [c]) s =
      mapPages paging_pml4 cs s >>= paging_map_page paging_pml4 c.phys c.virt c.page_attr := by
  have hone : mapPages paging_pml4 [c] = paging_map_page paging_pml4 c.phys c.virt c.page_attr := by
    funext t
    rw [mapPages]
    cases paging_map_page paging_pml4 c.phys c.virt c.page_attr t <;> rfl
  rw [mapPages_append, hone]

theorem tablesOf_append (cs ds : List PageCall) :
    tablesOf (cs ++ ds) = tablesOf cs ∪ tablesOf ds := by
  induction cs with
  | nil => exact (Finset.empty_union _).symm
  | cons c cs ih => rw [List.cons_append, tablesOf, ih, tablesOf, Finset.union_assoc]

theorem tablesOf_snoc (cs : List PageCall) (c : PageCall) :
    tablesOf (cs ++ [c]) = tablesOf cs ∪ tablesTo c.virt := by
  rw [tablesOf_append, tablesOf, tablesOf, Finset.union_empty]

theorem mem_tablesOf {cs : List PageCall} {q : List Index} :
    q ∈ tablesOf cs ↔ ∃ c ∈ cs, q ∈ tablesTo c.virt := by
  induction cs with
  | nil => simp [tablesOf]
  | cons c cs ih => simp [tablesOf, ih]

theorem tablesOf_mono {cs ds : List PageCall} (h : ∀ c ∈ cs, c ∈ ds) : tablesOf cs ⊆ tablesOf ds := by
  intro q hq
  obtain ⟨c, hc, hqc⟩ := mem_tablesOf.mp hq
  exact mem_tablesOf.mpr ⟨c, h c hc, hqc⟩

theorem drawn_snoc (cs : List PageCall) (c : PageCall) (x : U64) :
    drawn (cs ++ [c]) x = if SameWay x c.virt then leaf (c.phys ||| c.page_attr.setWidth 64)
      else drawn cs x := by
  rw [drawn, List.reverse_append, List.reverse_singleton, List.singleton_append, List.find?_cons]
  by_cases h : SameWay x c.virt
  · simp [h]
  · simp [h, drawn]

theorem mapPages.stops (paging_pml4 : U32) (cs : List PageCall) (s : paging) :
    (mapPages paging_pml4 cs s).Meets HeapStop fun _ => True := by
  induction cs generalizing s with
  | nil => exact Meets.ok trivial
  | cons c cs ih => exact (paging_map_page.stops _ _ _ _ _).bind fun t _ => ih t

theorem mapPages.later {paging_pml4 : U32} {cs : List PageCall} (hready : s.alloc.Ready)
    (h : mapPages paging_pml4 cs s = ok s') : Later s s' := by
  induction cs generalizing s with
  | nil =>
    cases h
    exact Later.refl hready
  | cons c cs ih =>
    obtain ⟨t, hcall, h⟩ := bind_eq_ok.mp h
    have hlater := paging_map_page.later hready hcall
    exact hlater.trans (ih hlater.ready h)

/-- From a root with nothing in it, every address is translated as the last call
on its way says. -/
theorem mapPages.spec (hroot : (pageAddr root).toNat < 2 ^ 32) (hready : s.alloc.Ready)
    (hs : Built root m first s) (hT : Opened root first s ∅) (hnone : ∀ x, s.translate root x = none)
    {cs : List PageCall} (h : mapPages (ptr root) cs s = ok s')
    (hzero : ZeroFor root m first s'.alloc.heap_phys_current (tablesOf cs).card) :
    Built root m first s' ∧ Opened root first s' (tablesOf cs) ∧
      ∀ x, s'.translate root x = drawn cs x := by
  induction cs using List.reverseRecOn generalizing s' with
  | nil =>
    cases h
    exact ⟨hs, hT, hnone⟩
  | append_singleton cs c ih =>
    rw [mapPages_snoc] at h
    rw [tablesOf_snoc] at hzero ⊢
    obtain ⟨t, hcalls, hcall⟩ := bind_eq_ok.mp h
    have hlater := mapPages.later hready hcalls
    have hle := (paging_map_page.later hlater.ready hcall).le
    obtain ⟨hb, ho, htr⟩ := ih hcalls
      (hzero.mono hle (Finset.card_le_card Finset.subset_union_left))
    obtain ⟨hb', ho', htr'⟩ := paging_map_page.spec hroot hb ho hlater.ready hcall hzero
    refine ⟨hb', ho', fun x => ?_⟩
    rw [htr' x, drawn_snoc, htr x]

/-! ## Regions -/

/-- The pages of a region. -/
def awd_mapped_region_t.count (r : awd_mapped_region_t) : Nat := pages (r.virt_end - r.virt_start)

def awd_mapped_region_t.calls (r : awd_mapped_region_t) : List PageCall :=
  (List.range r.count).map fun k => ⟨pageAt r.phys_start k, pageAt r.virt_start k, r.attr⟩

theorem awd_mapped_region_t.mem_calls {r : awd_mapped_region_t} {c : PageCall} :
    c ∈ r.calls ↔ ∃ k < r.count, c = ⟨pageAt r.phys_start k, pageAt r.virt_start k, r.attr⟩ := by
  simp only [awd_mapped_region_t.calls, List.mem_map, List.mem_range, eq_comm]

/-- The pages of a region need one table of the last level for every 2 MiB. -/
theorem awd_mapped_region_t.tables_le {r : awd_mapped_region_t} {n : Nat} (hn : n < 2 ^ 27)
    (h : 512 * n < r.count) : n + 1 ≤ (tablesOf r.calls).card := by
  have hpath : ∀ j, j ≤ n → path (pageAt r.virt_start (512 * j)) ∈ tablesOf r.calls := by
    intro j hj
    refine mem_tablesOf.mpr ⟨_, awd_mapped_region_t.mem_calls.mpr ⟨512 * j, by omega, rfl⟩, ?_⟩
    simp [tablesTo]
  have hinj : ∀ i ≤ n, ∀ j ≤ n, path (pageAt r.virt_start (512 * i)) =
      path (pageAt r.virt_start (512 * j)) → i = j := by
    intro i hi j hj heq
    have hat : ∀ k ≤ n, (pageAt r.virt_start (512 * k)).toNat =
        (r.virt_start.toNat + k * 0x200000) % 2 ^ 64 := by
      intro k hk
      rw [pageAt, BitVec.toNat_add, BitVec.toNat_mul, BitVec.toNat_ofNat]
      simp only [BitVec.reduceToNat]
      omega
    simp only [path, List.cons.injEq, and_true, ← BitVec.toNat_inj, BitVec.extractLsb'_toNat,
      Nat.shiftRight_eq_div_pow, hat i hi, hat j hj] at heq
    omega
  rw [← Finset.card_range (n + 1)]
  refine Finset.card_le_card_of_injOn (fun j => path (pageAt r.virt_start (512 * j))) ?_ ?_
  · intro j hj
    exact hpath j (Nat.lt_succ_iff.mp (Finset.mem_range.mp hj))
  · intro i hi j hj heq
    exact hinj i (Nat.lt_succ_iff.mp (Finset.mem_range.mp hi)) j
      (Nat.lt_succ_iff.mp (Finset.mem_range.mp hj)) heq

/-- A region with page-aligned starts and a present attribute, whose pages the
processor all walks. -/
structure awd_mapped_region_t.Valid (r : awd_mapped_region_t) : Prop where
  phys : PageAligned r.phys_start
  virt : PageAligned r.virt_start
  order : r.virt_start ≤ r.virt_end
  present : ¬ r.attr.setWidth 64 &&& (1 : U64) = 0
  canonical : ∀ k < r.count, Canonical (pageAt r.virt_start k)

/-- The pages of a region do not wrap. -/
theorem awd_mapped_region_t.Valid.count_lt {r : awd_mapped_region_t} (h : r.Valid) :
    r.count < 2 ^ 52 := by
  have hle := pages_le (r.virt_end - r.virt_start)
  rcases Nat.lt_or_ge r.count (2 ^ 52) with hlt | hge
  · exact hlt
  -- a region of all pages starts at zero, and its page at 2^47 is not canonical
  have hlen : (r.virt_end - r.virt_start).toNat = r.virt_end.toNat - r.virt_start.toNat :=
    BitVec.toNat_sub_of_le h.order
  have hbound := length_le (r.virt_end - r.virt_start)
  have hvirt := h.virt
  have hend := r.virt_end.isLt
  have hstart : r.virt_start = 0 := by
    apply BitVec.eq_of_toNat_eq
    have hpages : (2 : Nat) ^ 52 ≤ ((r.virt_end - r.virt_start).toNat + 0xFFF) / 0x1000 := hge
    unfold PageAligned at hvirt
    simp only [BitVec.ofNat_eq_ofNat, BitVec.toNat_ofNat]
    omega
  have hcanonical := h.canonical (2 ^ 35) (by omega)
  rw [hstart] at hcanonical
  exact absurd hcanonical (by decide)

/-- A loop that counts calls is the list of its calls. -/
theorem forRange_calls (paging_pml4 : U32) (f : Nat → PageCall) (n : Nat) (s : paging) :
    forRange n (fun k => paging_map_page paging_pml4 (f k).phys (f k).virt (f k).page_attr) s =
      mapPages paging_pml4 ((List.range n).map f) s := by
  induction n with
  | zero => rfl
  | succ n ih => rw [forRange, ih, List.range_succ, List.map_append, List.map_singleton, mapPages_snoc]

theorem commitRegion_eq {r : awd_mapped_region_t} (hcount : r.count < 2 ^ 52) {fuel : Nat}
    (hfuel : r.count < fuel) (paging_pml4 : U32) (s : paging) :
    commitRegion fuel paging_pml4 r s = mapPages paging_pml4 r.calls s := by
  have hlen : ∀ i, i < r.count → i * 0x1000 < (r.virt_end - r.virt_start).toNat :=
    fun i hi => page_starts_below hi
  have hbound : (r.virt_end - r.virt_start).toNat ≤ r.count * 0x1000 := length_le _
  have hoff : ∀ (a : U64) (i : Nat), a + (0 + BitVec.ofNat 64 i * 0x1000) = pageAt a i := fun a i => by
    rw [zero_add, pageAt]
  unfold commitRegion
  dsimp only
  rw [forStep_eq (n := r.count) _ hfuel (by simp; omega) (by simpa using hlen)
    (by simpa using hbound)]
  simp only [hoff]
  exact forRange_calls paging_pml4
    (fun k => ⟨pageAt r.phys_start k, pageAt r.virt_start k, r.attr⟩) r.count s

theorem step_aligned {a : U64} (ha : PageAligned a) : PageAligned (a + 0x1000) := by
  unfold PageAligned at *
  bv_omega

/-- A commit of a region that returns has counted its pages: the steps of one
that goes up to the last page of the address space would wrap for ever. -/
theorem commitRegion.returned {r : awd_mapped_region_t} {fuel : Nat} {paging_pml4 : U32}
    (h : commitRegion fuel paging_pml4 r s = ok s') :
    r.count < 2 ^ 52 ∧ mapPages paging_pml4 r.calls s = ok s' := by
  by_cases hcount : r.count < 2 ^ 52
  · refine ⟨hcount, ?_⟩
    have hreturns : commitRegion fuel paging_pml4 r s ≠ spin := by
      rw [h]
      simp
    have hmore : commitRegion (fuel + 2 ^ 52) paging_pml4 r s = commitRegion fuel paging_pml4 r s := by
      unfold commitRegion forStep at hreturns ⊢
      exact loop_mono (Nat.le_add_right _ _) hreturns
    rw [← commitRegion_eq hcount (show r.count < fuel + 2 ^ 52 by omega), hmore, h]
  · exfalso
    have hfar : 2 ^ 64 - 0x1000 < (r.virt_end - r.virt_start).toNat := by
      have : 2 ^ 52 ≤ ((r.virt_end - r.virt_start).toNat + 0xFFF) / 0x1000 := Nat.not_lt.mp hcount
      omega
    have hinit : PageAligned (0 : U64) := by decide
    unfold commitRegion forStep at h
    refine loop_inv (I := fun t : U64 × paging => PageAligned t.1) (Q := fun _ => False) ?_ ?_ hinit h
    · rintro ⟨a, t⟩ t' ha hnext
      dsimp only at hnext ha
      split at hnext
      · obtain ⟨u, -, hu⟩ := bind_eq_ok.mp hnext
        simp only [ok.injEq, Turn.next.injEq] at hu
        rw [← hu]
        exact step_aligned ha
      · cases hnext
    · rintro ⟨a, t⟩ u ha hleave
      dsimp only at hleave ha
      split at hleave
      · obtain ⟨u, -, hu⟩ := bind_eq_ok.mp hleave
        cases hu
      · rename_i hge
        rw [BitVec.not_lt, BitVec.le_def] at hge
        have := a.isLt
        unfold PageAligned at ha
        omega

/-- What one region adds to the pages that are mapped. -/
def awd_mapped_region_t.over (r : awd_mapped_region_t) (M : PageMap) (n : Nat) : PageMap :=
  M.add r.virt_start r.phys_start (r.attr.setWidth 64) n

def paging.Represents (s : paging) (root : Page) (M : PageMap) : Prop :=
  ∀ x, PageAligned x → Canonical x → s.translate root x = M x

/-! ## The queue -/

def paging_queue_all : List awd_mapped_region_t → paging → Outcome Stop paging
  | [], s => ok s
  | r :: rs, s => paging_queue_mapping r s >>= paging_queue_all rs

/-- The regions behind the first `k` of the queue are `rs`. -/
structure Queued (s : paging) (k : Nat) (rs : List awd_mapped_region_t) (s' : paging) : Prop where
  num : s'.paging_queue_num.toNat = k + rs.length
  before : ∀ i < k, s'.paging_queue i = s.paging_queue i
  behind : ∀ i (h : i < rs.length), s'.paging_queue (k + i) = rs[i]
  alloc : s'.alloc = s.alloc
  mem : s'.mem = s.mem

theorem paging_queue_all.spec {rs : List awd_mapped_region_t} {k : Nat}
    (hk : s.paging_queue_num.toNat = k) (hlen : k + rs.length ≤ PAGING_QUEUE_MAX) :
    ∃ s', paging_queue_all rs s = ok s' ∧ Queued s k rs s' := by
  induction rs generalizing s k with
  | nil =>
    exact ⟨s, rfl, by rw [hk]; rfl, fun _ _ => rfl, fun i h => absurd h (Nat.not_lt_zero i), rfl, rfl⟩
  | cons r rs ih =>
    rw [List.length_cons] at hlen
    have hroom : s.paging_queue_num.toNat < PAGING_QUEUE_MAX := by omega
    have hnum : (s.paging_queue_num + 1).toNat = k + 1 := by
      unfold PAGING_QUEUE_MAX at hroom
      rw [BitVec.toNat_add, hk]
      simp only [BitVec.reduceToNat]
      omega
    have hcall : paging_queue_mapping r s = ok { s with
        paging_queue := fun i => if i = s.paging_queue_num.toNat then r else s.paging_queue i
        paging_queue_num := s.paging_queue_num + 1 } := if_pos hroom
    obtain ⟨s', hs', hq⟩ := ih (s := { s with
        paging_queue := fun i => if i = s.paging_queue_num.toNat then r else s.paging_queue i
        paging_queue_num := s.paging_queue_num + 1 }) hnum (by omega)
    refine ⟨s', by rw [paging_queue_all, hcall, bind_ok, hs'], ?_, fun i hi => ?_, fun i hi => ?_,
      hq.alloc, hq.mem⟩
    · rw [hq.num, List.length_cons]
      omega
    · rw [hq.before i (by omega)]
      exact if_neg (by omega)
    · cases i with
      | zero =>
        rw [Nat.add_zero, hq.before k (Nat.lt_succ_self k)]
        exact if_pos hk.symm
      | succ i =>
        rw [List.getElem_cons_succ, ← hq.behind i (by simpa using hi)]
        congr 1
        omega

/-! ## The commit -/

theorem clear.spec (hroot : (pageAddr root).toNat < 2 ^ 32) (m : Memory) {n : Nat} (hn : n ≤ 512) :
    (∀ i : Index, i.toNat < n → cells (clear (ptr root) n m) root i = 0) ∧
      ∀ x, pageOf x ≠ root → clear (ptr root) n m x = m x := by
  induction n with
  | zero => exact ⟨fun i hi => absurd hi (Nat.not_lt_zero _), fun _ _ => rfl⟩
  | succ n ih =>
    obtain ⟨hzero, hrest⟩ := ih (by omega)
    have hindex : (BitVec.ofNat 32 n) = (BitVec.ofNat 9 n).setWidth 32 := by
      apply BitVec.eq_of_toNat_eq
      rw [BitVec.toNat_setWidth, BitVec.toNat_ofNat, BitVec.toNat_ofNat]
      omega
    rw [clear, hindex, entryPtr_eq hroot]
    refine ⟨fun i hi => ?_, fun x hx => ?_⟩
    · by_cases hin : i = BitVec.ofNat 9 n
      · rw [hin, cells_store_self]
      · rw [cells_store_ne _ _ (Or.inr hin)]
        apply hzero
        have hne : i.toNat ≠ n := fun h => hin (BitVec.eq_of_toNat_eq (by
          rw [BitVec.toNat_ofNat, h, Nat.mod_eq_of_lt (by omega)]))
        omega
    · rw [store64_frame, hrest x hx]
      exact fun hin => hx ((inRange_page_iff root x).mp ((slot_inRange hin).mpr rfl))

/-- A cleared root is a tree that translates nothing. -/
theorem clear.built (hroot : (pageAddr root).toNat < 2 ^ 32) (s : paging) :
    let s' := { s with mem := clear (ptr root) 512 s.mem }
    Built root s.mem s.alloc.heap_phys_current s' ∧
      Opened root s.alloc.heap_phys_current s' ∅ ∧ ∀ x, s'.translate root x = none := by
  intro s'
  obtain ⟨hzero, hrest⟩ := clear.spec hroot s.mem (Nat.le_refl 512)
  have hzero' : ∀ i, cells s'.mem root i = 0 := fun i => hzero i i.isLt
  have hblank : ∀ i, named (cells s'.mem root i) = none := fun i => by rw [hzero' i, named_zero]
  have hs' : Built root s.mem s.alloc.heap_phys_current s' := by
    refine ⟨Tree.blank hzero' named_zero (Or.inl rfl), fun p t _ hp => ?_,
      fun x _ hx => hrest x hx, Nat.le_refl _⟩
    exact Or.inl (descend_blank hblank hp).2
  refine ⟨hs', ⟨fun p hne _ => ?_, by simp [s']⟩, fun x => ?_⟩
  · cases hd : s'.table root p with
    | none => simp
    | some t => exact absurd (descend_blank hblank hd).1 hne
  · rw [hs'.translate_eq, paging.entry, entryAt_none, leaf_zero]
    rw [path, descend, hblank]
    rfl

/-- The calls that a commit of the regions makes. -/
def callsOf (rs : List awd_mapped_region_t) : List PageCall := rs.flatMap fun r => r.calls

theorem mem_callsOf {rs : List awd_mapped_region_t} {c : PageCall} :
    c ∈ callsOf rs ↔ ∃ r ∈ rs, c ∈ r.calls := List.mem_flatMap

/-- The queue holds the regions. -/
structure Holds (s : paging) (rs : List awd_mapped_region_t) : Prop where
  length : rs.length ≤ PAGING_QUEUE_MAX
  num : s.paging_queue_num.toNat = rs.length
  queue : ∀ i (h : i < rs.length), s.paging_queue i = rs[i]

theorem paging_commit.returned (hready : s.alloc.Ready) {rs : List awd_mapped_region_t}
    (hrs : Holds s rs) {fuel : Nat} {paging_pml4 : U32}
    (h : paging_commit fuel paging_pml4 s = ok s') :
    (∀ r ∈ rs, r.count < 2 ^ 52) ∧
      mapPages paging_pml4 (callsOf rs) { s with mem := clear paging_pml4 512 s.mem } = ok s' := by
  have hlen := hrs.length
  unfold paging_commit at h
  rw [hrs.num] at h
  have hall := forRange_inv (fun i t => (∀ r ∈ rs.take i, r.count < 2 ^ 52) ∧
    mapPages paging_pml4 (callsOf (rs.take i)) { s with mem := clear paging_pml4 512 s.mem } = ok t)
    ?_ ?_ h
  · rwa [List.take_length] at hall
  · rintro i t t' hi ⟨hcounts, hcalls⟩ hturn
    have hlater := mapPages.later (s := { s with mem := clear paging_pml4 512 s.mem }) hready hcalls
    have hregion : t.paging_queue i = rs[i] := by rw [hlater.queue, hrs.queue i hi]
    rw [if_pos (by omega), hregion] at hturn
    obtain ⟨hcount, hmore⟩ := commitRegion.returned hturn
    rw [List.take_succ_eq_append_getElem hi, callsOf, List.flatMap_append, List.flatMap_singleton,
      mapPages_append, ← callsOf, hcalls, bind_ok]
    refine ⟨fun r hr => ?_, hmore⟩
    rcases List.mem_append.mp hr with hr | hr
    · exact hcounts r hr
    · rw [List.mem_singleton.mp hr]
      exact hcount
  · exact ⟨by simp, rfl⟩

theorem paging_commit.later (hready : s.alloc.Ready) {rs : List awd_mapped_region_t}
    (hrs : Holds s rs) {fuel : Nat} {paging_pml4 : U32}
    (h : paging_commit fuel paging_pml4 s = ok s') : Later s s' := by
  have hlater := mapPages.later (s := { s with mem := clear paging_pml4 512 s.mem }) hready
    (paging_commit.returned hready hrs h).2
  exact ⟨hlater.num, hlater.queue, hlater.ready, hlater.limit, hlater.le⟩

/-- A commit of regions that end makes their calls. -/
theorem paging_commit_eq (hready : s.alloc.Ready) {rs : List awd_mapped_region_t}
    (hrs : Holds s rs) (hcounts : ∀ r ∈ rs, r.count < 2 ^ 52) {fuel : Nat} (hfuel : 2 ^ 52 < fuel)
    (paging_pml4 : U32) : paging_commit fuel paging_pml4 s =
      mapPages paging_pml4 (callsOf rs) { s with mem := clear paging_pml4 512 s.mem } := by
  have hlen := hrs.length
  have hsome : ∀ k ≤ rs.length, forRange k (fun i s => if i < PAGING_QUEUE_MAX then
      commitRegion fuel paging_pml4 (s.paging_queue i) s else .stop .outside)
      { s with mem := clear paging_pml4 512 s.mem } =
      mapPages paging_pml4 (callsOf (rs.take k)) { s with mem := clear paging_pml4 512 s.mem } := by
    intro k hk
    induction k with
    | zero => rfl
    | succ k ih =>
      rw [forRange, ih (by omega), List.take_succ_eq_append_getElem hk, callsOf, callsOf,
        List.flatMap_append, List.flatMap_singleton, mapPages_append]
      cases hcalls : mapPages paging_pml4 ((rs.take k).flatMap fun r => r.calls)
          { s with mem := clear paging_pml4 512 s.mem } with
      | stop e => rfl
      | spin => rfl
      | ok t =>
        have hlater := mapPages.later (s := { s with mem := clear paging_pml4 512 s.mem }) hready hcalls
        have hcount := hcounts _ (List.getElem_mem hk)
        rw [bind_ok, bind_ok, if_pos (by omega), hlater.queue, hrs.queue k hk,
          commitRegion_eq hcount (by omega)]
  rw [paging_commit, hrs.num, hsome _ (Nat.le_refl _), List.take_length]

/-- Over pages that read as zero, a commit leaves the tables that its calls need,
and translates every address as the last call on its way says. -/
theorem paging_commit.spec (hroot : (pageAddr root).toNat < 2 ^ 32) (hready : s.alloc.Ready)
    {rs : List awd_mapped_region_t} (hrs : Holds s rs) {fuel : Nat}
    (h : paging_commit fuel (ptr root) s = ok s')
    (hzero : ZeroFor root s.mem s.alloc.heap_phys_current s'.alloc.heap_phys_current
      (tablesOf (callsOf rs)).card) :
    Opened root s.alloc.heap_phys_current s' (tablesOf (callsOf rs)) ∧
      ∀ x, s'.translate root x = drawn (callsOf rs) x := by
  obtain ⟨hbuilt, hopened, hnone⟩ := clear.built hroot s
  have hcalls := (paging_commit.returned hready hrs h).2
  exact (mapPages.spec (s := { s with mem := clear (ptr root) 512 s.mem }) hroot hready hbuilt
    hopened hnone hcalls hzero).2

/-! ## Regions that the processor walks -/

/-- The regions in the order in which they were queued, one over the other. -/
def overlay (rs : List awd_mapped_region_t) : PageMap :=
  rs.foldl (fun M r => r.over M r.count) fun _ => none

theorem overlay_snoc (rs : List awd_mapped_region_t) (r : awd_mapped_region_t) :
    overlay (rs ++ [r]) = r.over (overlay rs) r.count := by
  rw [overlay, List.foldl_append]
  rfl

/-- The pages of one region, drawn over what was there. -/
theorem drawn_region {r : awd_mapped_region_t} (hr : r.Valid) (cs : List PageCall) {x : U64}
    (hx : PageAligned x) (hc : Canonical x) {n : Nat} (hn : n ≤ r.count) :
    drawn (cs ++ (List.range n).map fun k =>
        (⟨pageAt r.phys_start k, pageAt r.virt_start k, r.attr⟩ : PageCall)) x =
      r.over (drawn cs) n x := by
  have hflags : (r.attr.setWidth 64 : U64).toNat < 0x1000 := by
    have := r.attr.isLt
    rw [BitVec.toNat_setWidth]
    omega
  have hodd : (r.attr.setWidth 64 : U64).toNat % 2 = 1 := by
    have := (present_iff (r.attr.setWidth 64)).not.mp hr.present
    omega
  have hcount := hr.count_lt
  induction n with
  | zero => rw [List.range_zero, List.map_nil, List.append_nil, awd_mapped_region_t.over,
      PageMap.add_zero]
  | succ n ih =>
    have hpage := pageAt_aligned hr.virt n
    rw [List.range_succ, List.map_append, List.map_singleton, ← List.append_assoc, drawn_snoc,
      ih (by omega), leaf_or (pageAt_aligned hr.phys n) hflags hodd, awd_mapped_region_t.over,
      awd_mapped_region_t.over, PageMap.add_succ _ _ _ hr.virt hx (by omega)]
    by_cases hxa : x = pageAt r.virt_start n
    · rw [if_pos ⟨by rw [hxa], by rw [hxa]⟩, if_pos hxa]
    · rw [if_neg fun h => hxa (path_inj hx hpage hc (hr.canonical n (by omega)) h.1 h.2), if_neg hxa]

theorem drawn_eq_overlay {rs : List awd_mapped_region_t} (hrs : ∀ r ∈ rs, r.Valid) {x : U64}
    (hx : PageAligned x) (hc : Canonical x) : drawn (callsOf rs) x = overlay rs x := by
  induction rs using List.reverseRecOn with
  | nil => rfl
  | append_singleton rs r ih =>
    have hr := hrs r (by simp)
    rw [callsOf, List.flatMap_append, List.flatMap_singleton, ← callsOf, awd_mapped_region_t.calls,
      drawn_region hr _ hx hc (Nat.le_refl _), overlay_snoc]
    have hbefore := ih fun r' hr' => hrs r' (List.mem_append_left _ hr')
    simp only [awd_mapped_region_t.over, PageMap.add, hbefore]

/-! ## The last region over an address -/

/-- The region holds the page of `v`. -/
def awd_mapped_region_t.Contains (r : awd_mapped_region_t) (v : U64) : Prop :=
  InRange r.virt_start (r.count * 0x1000) v

instance (r : awd_mapped_region_t) (v : U64) : Decidable (r.Contains v) :=
  inferInstanceAs (Decidable (_ < _))

/-- What the last region that holds `v` says of its page. -/
def lastRegion (rs : List awd_mapped_region_t) (v : U64) : Option (U64 × U64) :=
  (rs.reverse.find? fun r => r.Contains v).map fun r =>
    (r.phys_start + (pageAddr (pageOf v) - r.virt_start), r.attr.setWidth 64)

theorem overlay_eq {x : U64} (hx : PageAligned x) (rs : List awd_mapped_region_t) :
    overlay rs x = lastRegion rs x := by
  induction rs using List.reverseRecOn with
  | nil => rfl
  | append_singleton rs r ih =>
    have hover : r.over (overlay rs) r.count x = if r.Contains x then
        some (r.phys_start + (x - r.virt_start), r.attr.setWidth 64) else overlay rs x := rfl
    rw [overlay_snoc, hover, lastRegion, List.reverse_append, List.reverse_singleton,
      List.singleton_append, List.find?_cons]
    by_cases hin : r.Contains x
    · rw [if_pos hin, decide_eq_true hin, Option.map_some, pageAddr_pageOf hx]
    · rw [if_neg hin, decide_eq_false hin, ih]
      rfl

/-- Regions are made of whole pages. -/
theorem contains_page {r : awd_mapped_region_t} (hvirt : PageAligned r.virt_start) (v : U64) :
    r.Contains (pageAddr (pageOf v)) ↔ r.Contains v := by
  have haddr : (pageAddr (pageOf v)).toNat = v.toNat / 0x1000 * 0x1000 := by
    rw [pageAddr_toNat, pageOf_toNat]
  unfold awd_mapped_region_t.Contains InRange PageAligned at *
  rw [BitVec.toNat_sub, BitVec.toNat_sub, haddr]
  have := v.isLt
  have := r.virt_start.isLt
  omega

theorem lastRegion_page {rs : List awd_mapped_region_t} (hrs : ∀ r ∈ rs, r.Valid) (v : U64) :
    lastRegion rs (pageAddr (pageOf v)) = lastRegion rs v := by
  have hcontains : ∀ r ∈ rs.reverse,
      decide (r.Contains (pageAddr (pageOf v))) = decide (r.Contains v) := by
    intro r hr
    have hiff := contains_page (hrs r (List.mem_reverse.mp hr)).virt v
    simp only [hiff]
  rw [lastRegion, lastRegion, List.find?_congr hcontains, pageOf_pageAddr]

end awd
