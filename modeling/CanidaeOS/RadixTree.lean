-- Radix trees whose nodes are tables of entries in one store. A tree is only
-- seen through the walk from its root: which table a path leads to. The rules
-- say what a link to a fresh table and a write into a leaf do to that walk.
import Mathlib

namespace RadixTree

variable {T I E : Type}

/-! ## The walk -/

/-- The table that a path leads to, when every entry on the way names one. -/
def descend (cell : T → I → E) (child : E → Option T) (root : T) : List I → Option T
  | [] => some root
  | i :: p => (child (cell root i)).bind fun t => descend cell child t p

/-- The entry at the end of a path. A missing table is one of `empty` entries. -/
def entryAt (cell : T → I → E) (child : E → Option T) (empty : E) (root : T) (p : List I)
    (i : I) : E :=
  (descend cell child root p).elim empty fun t => cell t i

/-- No table is met on two paths of at most `n` steps. -/
def Unshared (cell : T → I → E) (child : E → Option T) (n : Nat) (root : T) : Prop :=
  ∀ p q t, p.length ≤ n → q.length ≤ n → descend cell child root p = some t →
    descend cell child root q = some t → p = q

variable {cell cell' : T → I → E} {child : E → Option T} {empty : E} {root t b : T} {n : Nat}
  {p q : List I} {i j : I}

@[simp] theorem descend_nil : descend cell child root [] = some root := rfl

theorem descend_snoc (p : List I) (i : I) : descend cell child root (p ++ [i]) =
    (descend cell child root p).bind fun t => child (cell t i) := by
  induction p generalizing root with
  | nil => simp [descend]
  | cons j p ih =>
    simp only [List.cons_append, descend, Option.bind_assoc]
    congr 1
    funext t
    exact ih

theorem entryAt_some (h : descend cell child root p = some t) :
    entryAt cell child empty root p i = cell t i := by
  simp [entryAt, h]

theorem entryAt_none (h : descend cell child root p = none) :
    entryAt cell child empty root p i = empty := by
  simp [entryAt, h]

/-- A path of at most `n` steps is unchanged when the tables on the way are. -/
theorem descend_congr (h : ∀ p t, p.length < n → descend cell child root p = some t →
      ∀ i, cell' t i = cell t i) (hq : q.length ≤ n) :
    descend cell' child root q = descend cell child root q := by
  induction q using List.reverseRecOn with
  | nil => rfl
  | append_singleton q j ih =>
    rw [List.length_append, List.length_singleton] at hq
    rw [descend_snoc, descend_snoc, ih (by omega)]
    cases hd : descend cell child root q with
    | none => rfl
    | some u => rw [Option.bind_some, Option.bind_some, h q u (by omega) hd]

/-- Below a root that names no table there is nothing. -/
theorem descend_blank (h : ∀ i, child (cell root i) = none)
    (hd : descend cell child root p = some t) : p = [] ∧ t = root := by
  cases p with
  | nil => exact ⟨rfl, (Option.some.inj hd).symm⟩
  | cons i p =>
    rw [descend, h i] at hd
    cases hd

/-! ## A link to a fresh table -/

/-- Entry `i` of the table at `p` named nothing and now names `b`, a table
outside of the tree with nothing in it. Tables that are neither are as before. -/
structure Links (cell cell' : T → I → E) (child : E → Option T) (empty : E) (n : Nat) (root : T)
    (p : List I) (t : T) (i : I) (b : T) : Prop where
  table : descend cell child root p = some t
  inner : p.length < n
  before : child (cell t i) = none
  after : child (cell' t i) = some b
  fresh : ∀ q, q.length ≤ n → descend cell child root q ≠ some b
  blank : ∀ j, cell' b j = empty
  rest : ∀ u j, u ≠ b → u ≠ t ∨ j ≠ i → cell' u j = cell u j

theorem Links.before_path (h : Links cell cell' child empty n root p t i b) :
    descend cell child root (p ++ [i]) = none := by
  rw [descend_snoc, h.table, Option.bind_some, h.before]

/-- A link adds one path to the tree. -/
theorem Links.descend (h : Links cell cell' child empty n root p t i b)
    (hu : Unshared cell child n root) (he : child empty = none) (hq : q.length ≤ n) :
    descend cell' child root q = some b ∧ q = p ++ [i] ∨
      descend cell' child root q = descend cell child root q ∧ q ≠ p ++ [i] := by
  induction q using List.reverseRecOn with
  | nil => simp
  | append_singleton q j ih =>
    rw [List.length_append, List.length_singleton] at hq
    rw [descend_snoc, descend_snoc]
    rcases ih (by omega) with ⟨hd, rfl⟩ | ⟨hd, hne⟩
    · -- below the new table there is nothing yet
      refine Or.inr ⟨?_, fun heq => ?_⟩
      · rw [hd, Option.bind_some, h.blank, he, h.before_path, Option.bind_none]
      · have := congrArg List.length heq
        simp at this
    rw [hd]
    cases hold : RadixTree.descend cell child root q with
    | none =>
      refine Or.inr ⟨rfl, fun heq => ?_⟩
      obtain ⟨rfl, -⟩ := List.append_inj' heq rfl
      rw [h.table] at hold
      cases hold
    | some u =>
      have hub : u ≠ b := fun heq => h.fresh q (by omega) (heq ▸ hold)
      by_cases hti : u = t ∧ j = i
      · obtain ⟨rfl, rfl⟩ := hti
        have hqp : q = p := hu q p u (by omega) (by have := h.inner; omega) hold h.table
        exact Or.inl ⟨h.after, by rw [hqp]⟩
      · refine Or.inr ⟨?_, fun heq => hti ?_⟩
        · rw [Option.bind_some, Option.bind_some, h.rest u j hub (by tauto)]
        · obtain ⟨rfl, hj⟩ := List.append_inj' heq rfl
          rw [h.table] at hold
          exact ⟨(Option.some.inj hold).symm, by simpa using hj⟩

/-- The new path. -/
theorem Links.at_path (h : Links cell cell' child empty n root p t i b)
    (hu : Unshared cell child n root) (he : child empty = none) :
    RadixTree.descend cell' child root (p ++ [i]) = some b := by
  have hlen : (p ++ [i]).length ≤ n := by
    rw [List.length_append]
    exact h.inner
  rcases h.descend hu he hlen with ⟨hd, -⟩ | ⟨-, hne⟩
  · exact hd
  · exact absurd rfl hne

/-- A path that led to a table still does. -/
theorem Links.keeps (h : Links cell cell' child empty n root p t i b)
    (hu : Unshared cell child n root) (he : child empty = none) (hq : q.length ≤ n) {u : T}
    (hd : RadixTree.descend cell child root q = some u) :
    RadixTree.descend cell' child root q = some u := by
  rcases h.descend hu he hq with ⟨-, rfl⟩ | ⟨heq, -⟩
  · rw [h.before_path] at hd
    cases hd
  · rw [heq, hd]

/-- A table of the tree is the new one or was in the tree before. -/
theorem Links.reached (h : Links cell cell' child empty n root p t i b)
    (hu : Unshared cell child n root) (he : child empty = none) (hq : q.length ≤ n) {u : T}
    (hd : RadixTree.descend cell' child root q = some u) :
    u = b ∧ q = p ++ [i] ∨ u ≠ b ∧ RadixTree.descend cell child root q = some u := by
  rcases h.descend hu he hq with ⟨hb, rfl⟩ | ⟨heq, -⟩
  · rw [hb] at hd
    exact Or.inl ⟨(Option.some.inj hd).symm, rfl⟩
  · rw [heq] at hd
    exact Or.inr ⟨fun hub => h.fresh q hq (hub ▸ hd), hd⟩

theorem Links.unshared (h : Links cell cell' child empty n root p t i b)
    (hu : Unshared cell child n root) (he : child empty = none) : Unshared cell' child n root := by
  intro q r u hq hr hdq hdr
  rcases h.reached hu he hq hdq with ⟨hb, rfl⟩ | ⟨hb, hdq⟩ <;>
    rcases h.reached hu he hr hdr with ⟨hb', rfl⟩ | ⟨hb', hdr⟩
  · rfl
  · exact absurd hb hb'
  · exact absurd hb' hb
  · exact hu q r u hq hr hdq hdr

/-- A link changes no entry at the end of a full path. -/
theorem Links.entryAt (h : Links cell cell' child empty n root p t i b)
    (hu : Unshared cell child n root) (he : child empty = none) (hq : q.length = n) :
    entryAt cell' child empty root q j = entryAt cell child empty root q j := by
  rcases h.descend hu he hq.le with ⟨hd, rfl⟩ | ⟨hd, hne⟩
  · rw [entryAt_some hd, entryAt_none h.before_path, h.blank]
  · unfold RadixTree.entryAt
    rw [hd]
    cases hold : RadixTree.descend cell child root q with
    | none => rfl
    | some u =>
      have hut : u ≠ t := by
        rintro rfl
        have := congrArg List.length (hu q p u hq.le h.inner.le hold h.table)
        have := h.inner
        omega
      exact h.rest u j (fun heq => h.fresh q hq.le (heq ▸ hold)) (Or.inl hut)

/-! ## A write into a leaf -/

/-- Entry `i` of the table at the full path `p` is now `e`, and no other entry
has changed. -/
structure Writes (cell cell' : T → I → E) (child : E → Option T) (n : Nat) (root : T)
    (p : List I) (t : T) (i : I) (e : E) : Prop where
  table : descend cell child root p = some t
  leaf : p.length = n
  after : cell' t i = e
  rest : ∀ u j, u ≠ t ∨ j ≠ i → cell' u j = cell u j

/-- A write into a leaf changes no path. -/
theorem Writes.descend {e : E} (h : Writes cell cell' child n root p t i e)
    (hu : Unshared cell child n root) (hq : q.length ≤ n) :
    descend cell' child root q = descend cell child root q := by
  refine descend_congr (fun r u hr hd j => h.rest u j (Or.inl ?_)) hq
  rintro rfl
  have := congrArg List.length (hu r p u hr.le h.leaf.le hd h.table)
  have := h.leaf
  omega

theorem Writes.unshared {e : E} (h : Writes cell cell' child n root p t i e)
    (hu : Unshared cell child n root) : Unshared cell' child n root := by
  intro q r u hq hr hdq hdr
  rw [h.descend hu hq] at hdq
  rw [h.descend hu hr] at hdr
  exact hu q r u hq hr hdq hdr

theorem Writes.entryAt_self {e : E} (h : Writes cell cell' child n root p t i e)
    (hu : Unshared cell child n root) : entryAt cell' child empty root p i = e := by
  rw [entryAt_some (h.descend hu h.leaf.le ▸ h.table), h.after]

/-- The other entries at the ends of full paths keep what they held. -/
theorem Writes.entryAt_ne {e : E} (h : Writes cell cell' child n root p t i e)
    (hu : Unshared cell child n root) (hq : q.length ≤ n) (hne : q ≠ p ∨ j ≠ i) :
    entryAt cell' child empty root q j = entryAt cell child empty root q j := by
  unfold entryAt
  rw [h.descend hu hq]
  cases hd : RadixTree.descend cell child root q with
  | none => rfl
  | some u =>
    refine h.rest u j ?_
    by_contra hno
    obtain ⟨rfl, rfl⟩ := not_or.mp hno |>.imp not_not.mp not_not.mp
    rcases hne with hne | hne
    · exact hne (hu q p u hq h.leaf.le hd h.table)
    · exact hne rfl

end RadixTree
