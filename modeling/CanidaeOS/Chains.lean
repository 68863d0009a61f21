-- Chains of cells that link to each other, over any addresses and any cells.
-- A chain is described by its cells in their order, so what a store does to it
-- is what it does to a list.
import Mathlib

namespace Chains

variable {A N : Type}

/-- The cells behind the addresses. -/
abbrev Heap (A N : Type) := A → Option N

/-- From `p` on, the links lead through the cells in their order, and to `q`. -/
def Chain (link : N → A) (h : Heap A N) : A → List (A × N) → A → Prop
  | p, [], q => p = q
  | p, (a, n) :: cells, q => p = a ∧ h a = some n ∧ Chain link h (link n) cells q

variable {link : N → A} {h h' : Heap A N} {p q a : A} {n : N} {cells cells' : List (A × N)}

theorem chain_append : Chain link h p (cells ++ cells') q ↔
    ∃ r, Chain link h p cells r ∧ Chain link h r cells' q := by
  induction cells generalizing p with
  | nil => simp [Chain]
  | cons c cells ih => simp only [List.cons_append, Chain, ih, and_assoc, exists_and_left]

/-- The last cell of a chain. -/
theorem chain_snoc : Chain link h p (cells ++ [(a, n)]) q ↔
    Chain link h p cells a ∧ h a = some n ∧ link n = q := by
  rw [chain_append]
  constructor
  · rintro ⟨r, hfront, rfl, hn, hq⟩
    exact ⟨hfront, hn, hq⟩
  · rintro ⟨hfront, hn, hq⟩
    exact ⟨a, hfront, rfl, hn, hq⟩

/-- A chain is in every heap with the same cells in it. -/
theorem Chain.frame (hc : Chain link h p cells q) (hsame : ∀ c ∈ cells, h' c.1 = h c.1) :
    Chain link h' p cells q := by
  induction cells generalizing p with
  | nil => exact hc
  | cons c cells ih =>
    obtain ⟨rfl, hn, hrest⟩ := hc
    refine ⟨rfl, ?_, ih hrest fun c hc => hsame c (List.mem_cons_of_mem _ hc)⟩
    rw [hsame c List.mem_cons_self, hn]

/-- Each cell is behind its address. -/
theorem Chain.cell (hc : Chain link h p cells q) {c : A × N} (hmem : c ∈ cells) :
    h c.1 = some c.2 := by
  induction cells generalizing p with
  | nil => cases hmem
  | cons c' cells ih =>
    obtain ⟨rfl, hn, hrest⟩ := hc
    rcases List.mem_cons.mp hmem with rfl | hmem
    · exact hn
    · exact ih hrest hmem

/-- In a chain with no address twice, the cells in front of one are elsewhere. -/
theorem not_mem_front (h : ((cells ++ (a, n) :: cells').map Prod.fst).Nodup) :
    (cells.map Prod.fst).Nodup ∧ a ∉ cells.map Prod.fst := by
  rw [List.map_append, List.map_cons] at h
  obtain ⟨hfront, -, hapart⟩ := List.nodup_append.mp h
  exact ⟨hfront, fun hmem => hapart a hmem a List.mem_cons_self rfl⟩

variable [DecidableEq A]

/-- Store a cell. -/
def Heap.put (h : Heap A N) (a : A) (n : N) : Heap A N := fun x => if x = a then some n else h x

@[simp] theorem Heap.put_self : h.put a n a = some n := if_pos rfl

theorem Heap.put_other {x : A} (hx : x ≠ a) : h.put a n x = h x := if_neg hx

/-- A cell stored outside of a chain. -/
theorem Chain.put (hc : Chain link h p cells q) (ha : a ∉ cells.map Prod.fst) :
    Chain link (h.put a n) p cells q := by
  apply hc.frame
  intro c hmem
  apply Heap.put_other
  rintro rfl
  exact ha (List.mem_map_of_mem hmem)

/-- A cell stored in front of a chain that it links to. -/
theorem Chain.push_front (hc : Chain link h p cells q) (ha : a ∉ cells.map Prod.fst)
    (hn : link n = p) : Chain link (h.put a n) a ((a, n) :: cells) q := by
  refine ⟨rfl, Heap.put_self, ?_⟩
  rw [hn]
  exact hc.put ha

/-- Another cell stored over the last of a chain. -/
theorem Chain.relink {k : N} (hc : Chain link h p (cells ++ [(a, n)]) q)
    (ha : a ∉ cells.map Prod.fst) : Chain link (h.put a k) p (cells ++ [(a, k)]) (link k) := by
  obtain ⟨hfront, -, -⟩ := chain_snoc.mp hc
  exact chain_snoc.mpr ⟨hfront.put ha, Heap.put_self, rfl⟩

/-- A cell stored behind a chain, whose last cell gets a link to it. -/
theorem Chain.push_back {b : A} {m k : N} (hc : Chain link h p (cells ++ [(a, n)]) q)
    (ha : a ∉ cells.map Prod.fst) (hb : b ∉ (cells ++ [(a, n)]).map Prod.fst)
    (hlink : link k = b) :
    Chain link ((h.put b m).put a k) p (cells ++ [(a, k)] ++ [(b, m)]) (link m) := by
  have hba : b ≠ a := by
    rintro rfl
    exact hb (by simp)
  have hlinked := (hc.put (n := m) hb).relink (k := k) ha
  rw [hlink] at hlinked
  refine chain_snoc.mpr ⟨hlinked, ?_, rfl⟩
  rw [Heap.put_other hba, Heap.put_self]

end Chains
