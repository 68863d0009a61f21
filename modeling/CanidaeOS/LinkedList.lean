-- The list of the kernel (`single_linked_list.h`): nodes from the heap, and the
-- head, the tail and the size beside them. The scheduler and the registry of
-- drivers push to it, count it and walk it.
import CanidaeOS.Chains
import CanidaeOS.Memory
import CanidaeOS.Outcome
import CanidaeOS.Runs

open Program Machine Outcome Runs Chains

namespace common

inductive Stop where
  /-- an access through a pointer to no node -/
  | outside
  /-- an `int` that grows past its largest value -/
  | overflow
deriving DecidableEq, Repr

structure linked_list_node (T : Type) where
  m_value : T
  m_next : U64

/-- A list, and the nodes of the heap. A null pointer is 0. -/
structure single_linked_list (T : Type) where
  heap : Heap U64 (linked_list_node T)
  m_head : U64
  m_tail : U64
  m_size : U64

namespace single_linked_list

variable {T : Type}

/-! ## The code

Where the code calls `kmalloc`, the address of the new node is an argument. -/

/-- `*p` -/
def load (s : single_linked_list T) (p : U64) : Outcome Stop (linked_list_node T) :=
  match s.heap p with
  | some node => ok node
  | none => .stop .outside

/-- `p->m_next = next;` -/
def set_next (s : single_linked_list T) (p next : U64) : Outcome Stop (single_linked_list T) := do
  let node ← s.load p
  ok { s with heap := s.heap.put p { node with m_next := next } }

def create_head (s : single_linked_list T) (new : U64) (val : T) : single_linked_list T :=
  { heap := s.heap.put new ⟨val, 0⟩, m_head := new, m_tail := new, m_size := 1 }

def push_back (s : single_linked_list T) (new : U64) (val : T) :
    Outcome Stop (single_linked_list T) :=
  if s.m_head = 0 then ok (s.create_head new val)
  else do
    let s := { s with heap := s.heap.put new ⟨val, 0⟩ }
    let s ← s.set_next s.m_tail new
    ok { s with m_tail := new, m_size := s.m_size + 1 }

def push_front (s : single_linked_list T) (new : U64) (val : T) :
    Outcome Stop (single_linked_list T) :=
  if s.m_head = 0 then ok (s.create_head new val)
  else ok { s with
    heap := s.heap.put new ⟨val, s.m_head⟩, m_head := new, m_size := s.m_size + 1 }

/-- One turn of the loop, and the `i++` after it. The `i` is an `int`. -/
def hopTurn (s : single_linked_list T) (i : Nat) (itr : U64) : Outcome Stop U64 := do
  let node ← s.load itr
  if i + 1 < 2 ^ 31 then ok node.m_next else .stop .overflow

/-- `pop_back`, with `itr->m_next` for `itr->next` and with `ret` as its result. -/
def pop_back (s : single_linked_list T) : Outcome Stop (U64 × single_linked_list T) :=
  if s.m_size = 0 then ok (0, s)
  else do
    let ret := s.m_tail
    let itr ← forRange (s.m_size - 1).toNat s.hopTurn s.m_head
    let s := { s with m_tail := itr }
    let s ← s.set_next s.m_tail 0
    ok (ret, { s with m_size := s.m_size - 1 })

/-- `operator++` of the iterator. -/
def advance (s : single_linked_list T) (node : U64) : Outcome Stop U64 :=
  if node ≠ 0 then do
    let n ← s.load node
    ok n.m_next
  else ok node

/-- `at`, with `none` for the null pointer. -/
def at_ (s : single_linked_list T) (index : U64) : Outcome Stop (Option T) :=
  if index ≥ s.m_size then ok none
  else do
    let node ← forRange index.toNat (fun _ node => s.advance node) s.m_head
    let n ← s.load node
    ok (some n.m_value)

def size (s : single_linked_list T) : U64 := s.m_size

/-- One turn of `for (auto itr = begin(); itr != end(); itr++)`, with the values
that were visited. -/
def visitTurn (s : single_linked_list T) (t : U64 × List T) :
    Outcome Stop (Turn (U64 × List T) (List T)) :=
  if t.1 ≠ 0 then do
    let n ← s.load t.1
    let node ← s.advance t.1
    ok (.next (node, t.2 ++ [n.m_value]))
  else ok (.leave t.2)

def visit (fuel : Nat) (s : single_linked_list T) : Outcome Stop (List T) :=
  loop s.visitTurn fuel (s.m_head, [])

/-! ## What a list holds -/

/-- The nodes of the list, with their addresses. -/
abbrev Nodes (T : Type) := List (U64 × linked_list_node T)

/-- The values of the nodes. -/
def values (ns : Nodes T) : List T := ns.map fun c => c.2.m_value

/-- The head leads through the nodes to a null pointer, and the tail is the
last of them. -/
structure Holds (s : single_linked_list T) (ns : Nodes T) : Prop where
  null : s.heap 0 = none
  chain : Chain linked_list_node.m_next s.heap s.m_head ns 0
  nodup : (ns.map Prod.fst).Nodup
  tail : ∀ c ∈ ns.getLast?, s.m_tail = c.1

/-- An empty list over a heap. -/
def empty (heap : Heap U64 (linked_list_node T)) : single_linked_list T := ⟨heap, 0, 0, 0⟩

theorem empty_holds {heap : Heap U64 (linked_list_node T)} (hnull : heap 0 = none) :
    Holds (empty heap) [] := by
  exact ⟨hnull, rfl, List.nodup_nil, by simp⟩

/-- A node that `kmalloc` can hand out. -/
def Fresh (s : single_linked_list T) (new : U64) : Prop := new ≠ 0 ∧ s.heap new = none

namespace Holds

variable {s : single_linked_list T} {ns : Nodes T} (h : Holds s ns)
include h

theorem address_ne_zero {c : U64 × linked_list_node T} (hc : c ∈ ns) : c.1 ≠ 0 := by
  intro hzero
  have hcell := h.chain.cell hc
  rw [hzero, h.null] at hcell
  cases hcell

theorem not_mem_of_fresh {new : U64} (hnew : s.Fresh new) : new ∉ ns.map Prod.fst := by
  intro hmem
  obtain ⟨c, hc, rfl⟩ := List.mem_map.mp hmem
  have hcell := h.chain.cell hc
  rw [hnew.2] at hcell
  cases hcell

/-- The list is empty where the head is a null pointer. -/
theorem head_eq_zero_iff : s.m_head = 0 ↔ ns = [] := by
  cases ns with
  | nil =>
    have hhead : s.m_head = 0 := h.chain
    simp [hhead]
  | cons c ns =>
    have hne := h.address_ne_zero (c := c) List.mem_cons_self
    have hhead : s.m_head = c.1 := h.chain.1
    rw [hhead]
    simpa using hne

/-- The tail is the last node. -/
theorem last (hne : ns ≠ []) : ∃ front node, ns = front ++ [(s.m_tail, node)] := by
  obtain ⟨front, c, rfl⟩ : ∃ front c, ns = front ++ [c] :=
    ⟨ns.dropLast, ns.getLast hne, (List.dropLast_concat_getLast hne).symm⟩
  have htail : s.m_tail = c.1 := h.tail c List.getLast?_concat
  refine ⟨front, c.2, ?_⟩
  rw [htail]

/-- There are fewer nodes than addresses. -/
theorem length_lt : ns.length < 2 ^ 64 := by
  have hzero : (0 : U64) ∉ ns.map Prod.fst := by
    intro hmem
    obtain ⟨c, hc, heq⟩ := List.mem_map.mp hmem
    exact h.address_ne_zero hc heq
  have hnodup : (((0 : U64) :: ns.map Prod.fst).map BitVec.toNat).Nodup := by
    apply List.Nodup.map
    · exact fun a b hab => BitVec.eq_of_toNat_eq hab
    · exact List.nodup_cons.mpr ⟨hzero, h.nodup⟩
  have hsubset : ((0 : U64) :: ns.map Prod.fst).map BitVec.toNat ⊆ List.range (2 ^ 64) := by
    intro k hk
    obtain ⟨a, -, rfl⟩ := List.mem_map.mp hk
    exact List.mem_range.mpr a.isLt
  have hle := (hnodup.subperm hsubset).length_le
  simp only [List.map_cons, List.length_cons, List.length_map, List.length_range] at hle
  omega

end Holds

/-! ## The specs of the pushes -/

@[simp] theorem values_length (ns : Nodes T) : (values ns).length = ns.length := List.length_map _

theorem values_append (ns ns' : Nodes T) : values (ns ++ ns') = values ns ++ values ns' :=
  List.map_append

theorem load_eq {s : single_linked_list T} {p : U64} {node : linked_list_node T}
    (h : s.heap p = some node) : s.load p = ok node := by
  rw [load, h]

theorem set_next_eq {s : single_linked_list T} {p : U64} {node : linked_list_node T}
    (h : s.heap p = some node) (next : U64) : s.set_next p next =
      ok { s with heap := s.heap.put p { node with m_next := next } } := by
  rw [set_next, load_eq h]
  rfl

theorem create_head.spec {s : single_linked_list T} {new : U64} (hnull : s.heap 0 = none)
    (hnew : new ≠ 0) (val : T) : Holds (s.create_head new val) [(new, ⟨val, 0⟩)] := by
  refine ⟨?_, ?_, List.nodup_singleton _, ?_⟩
  · exact (Heap.put_other (Ne.symm hnew)).trans hnull
  · exact ⟨rfl, Heap.put_self, rfl⟩
  · intro c hc
    obtain rfl := Option.some.inj hc
    rfl

/-- The size after a push. A push to an empty list sets it. -/
def pushedSize (s : single_linked_list T) (ns : Nodes T) : U64 :=
  if ns = [] then 1 else s.m_size + 1

theorem push_back.spec {s : single_linked_list T} {ns : Nodes T} (h : Holds s ns) {new : U64}
    (hnew : s.Fresh new) (val : T) : ∃ s' ns', s.push_back new val = ok s' ∧ Holds s' ns' ∧
      values ns' = values ns ++ [val] ∧ s'.m_size = s.pushedSize ns := by
  by_cases hempty : ns = []
  · have hhead := h.head_eq_zero_iff.mpr hempty
    refine ⟨_, _, if_pos hhead, create_head.spec h.null hnew.1 val, ?_, ?_⟩
    · rw [hempty]
      rfl
    · rw [pushedSize, if_pos hempty]
      rfl
  · have hhead := fun hzero => hempty (h.head_eq_zero_iff.mp hzero)
    obtain ⟨front, node, rfl⟩ := h.last hempty
    generalize htail : s.m_tail = t at h hempty
    have hfresh := h.not_mem_of_fresh hnew
    obtain ⟨-, ht⟩ := not_mem_front h.nodup
    have hchain := h.chain.push_back (m := ⟨val, 0⟩) (k := { node with m_next := new }) ht hfresh rfl
    have hload : (s.heap.put new ⟨val, 0⟩) t = some node :=
      (chain_snoc.mp (h.chain.put (n := ⟨val, 0⟩) hfresh)).2.1
    have hset : set_next { s with heap := s.heap.put new ⟨val, 0⟩ } s.m_tail new =
        ok { s with heap := (s.heap.put new ⟨val, 0⟩).put t { node with m_next := new } } := by
      rw [set_next, htail, load_eq hload]
      rfl
    refine ⟨{ s with
        heap := (s.heap.put new ⟨val, 0⟩).put t { node with m_next := new }
        m_tail := new, m_size := s.m_size + 1 },
      front ++ [(t, { node with m_next := new })] ++ [(new, ⟨val, 0⟩)], ?_, ⟨?_, hchain, ?_, ?_⟩, ?_, ?_⟩
    · rw [push_back, if_neg hhead]
      dsimp only
      rw [hset]
      rfl
    · have hzero : t ≠ 0 := h.address_ne_zero (c := (t, node)) (by simp)
      show ((s.heap.put new ⟨val, 0⟩).put t _) 0 = none
      rw [Heap.put_other (Ne.symm hzero), Heap.put_other (Ne.symm hnew.1)]
      exact h.null
    · have hnodup := h.nodup
      rw [List.map_append, List.map_singleton] at hnodup hfresh
      rw [List.map_append, List.map_append, List.map_singleton, List.map_singleton,
        ← List.concat_eq_append]
      exact List.Nodup.concat hfresh hnodup
    · intro c hc
      rw [List.getLast?_concat, Option.mem_some_iff] at hc
      rw [← hc]
    · simp [values]
    · rw [pushedSize, if_neg hempty]

theorem push_front.spec {s : single_linked_list T} {ns : Nodes T} (h : Holds s ns) {new : U64}
    (hnew : s.Fresh new) (val : T) : ∃ s' ns', s.push_front new val = ok s' ∧ Holds s' ns' ∧
      values ns' = val :: values ns ∧ s'.m_size = s.pushedSize ns := by
  by_cases hempty : ns = []
  · have hhead := h.head_eq_zero_iff.mpr hempty
    refine ⟨_, _, if_pos hhead, create_head.spec h.null hnew.1 val, ?_, ?_⟩
    · rw [hempty]
      rfl
    · rw [pushedSize, if_pos hempty]
      rfl
  · have hhead := fun hzero => hempty (h.head_eq_zero_iff.mp hzero)
    have hfresh := h.not_mem_of_fresh hnew
    refine ⟨{ s with
        heap := s.heap.put new ⟨val, s.m_head⟩, m_head := new, m_size := s.m_size + 1 },
      (new, ⟨val, s.m_head⟩) :: ns, if_neg hhead, ⟨?_, ?_, ?_, ?_⟩, rfl, ?_⟩
    · exact (Heap.put_other (Ne.symm hnew.1)).trans h.null
    · exact h.chain.push_front hfresh rfl
    · exact List.nodup_cons.mpr ⟨hfresh, h.nodup⟩
    · intro c hc
      obtain ⟨c', ns', rfl⟩ := List.exists_cons_of_ne_nil hempty
      rw [List.getLast?_cons_cons] at hc
      exact h.tail c hc
    · rw [pushedSize, if_neg hempty]

/-! ## The specs of the walks -/

theorem advance_eq {s : single_linked_list T} {p : U64} (hp : p ≠ 0) {node : linked_list_node T}
    (h : s.heap p = some node) : s.advance p = ok node.m_next := by
  rw [advance, if_pos hp, load_eq h]
  rfl

/-- The nodes behind the first `i`, as a chain from the node that `i` steps
lead to. -/
def Reaches (s : single_linked_list T) (ns : Nodes T) (i : Nat) (p : U64) : Prop :=
  Chain linked_list_node.m_next s.heap p (ns.drop i) 0

theorem Reaches.node {s : single_linked_list T} {ns : Nodes T} {i : Nat} {p : U64}
    (h : Reaches s ns i p) (hi : i < ns.length) :
    p = ns[i].1 ∧ s.heap p = some ns[i].2 ∧ Reaches s ns (i + 1) ns[i].2.m_next := by
  rw [Reaches, List.drop_eq_getElem_cons hi] at h
  obtain ⟨hp, hn, hrest⟩ := h
  rw [← hp] at hn
  exact ⟨hp, hn, hrest⟩

theorem Reaches.splits {s : single_linked_list T} {ns : Nodes T} {i : Nat} {p : U64}
    (h : Reaches s ns i p) (hi : i < ns.length) : ∃ front node back,
      ns = front ++ (p, node) :: back ∧ front.length = i ∧ s.heap p = some node := by
  obtain ⟨rfl, hnode, -⟩ := h.node hi
  refine ⟨ns.take i, ns[i].2, ns.drop (i + 1), ?_, ?_, hnode⟩
  · rw [Prod.mk.eta, ← List.drop_eq_getElem_cons hi, List.take_append_drop]
  · rw [List.length_take, Nat.min_eq_left (by omega)]

theorem Holds.reaches {s : single_linked_list T} {ns : Nodes T} (h : Holds s ns) :
    Reaches s ns 0 s.m_head := h.chain

/-- `at` of an index in the list. -/
theorem at_.spec {s : single_linked_list T} {ns : Nodes T} (h : Holds s ns) {index : U64}
    (hsize : index < s.m_size) (hlength : index.toNat < ns.length) :
    s.at_ index = ok (some (ns[index.toNat]).2.m_value) := by
  have hturns : ∀ i p, i < index.toNat → Reaches s ns i p →
      ∃ p', s.advance p = ok p' ∧ Reaches s ns (i + 1) p' := by
    intro i p hi hp
    obtain ⟨hadr, hnode, hnext⟩ := hp.node (by omega)
    have hne : p ≠ 0 := by
      rw [hadr]
      exact h.address_ne_zero (List.getElem_mem _)
    exact ⟨_, advance_eq hne hnode, hnext⟩
  obtain ⟨p, hrun, hp⟩ := forRange_ok (Reaches s ns) hturns h.reaches
  obtain ⟨-, hnode, -⟩ := hp.node hlength
  have hlt : ¬ index ≥ s.m_size := by
    rw [ge_iff_le, BitVec.le_def]
    have := BitVec.lt_def.mp hsize
    omega
  rw [at_, if_neg hlt, hrun, bind_ok, load_eq hnode]
  rfl

/-- The walk visits the values of a chain, in their order. -/
theorem visit.spec {s : single_linked_list T} {ns : Nodes T} (h : Holds s ns) {fuel : Nat}
    (hfuel : ns.length < fuel) : s.visit fuel = ok (values ns) := by
  have hwalk : ∀ (rest : Nodes T) (fuel : Nat) (p : U64) (seen : List T), rest ⊆ ns →
      Chain linked_list_node.m_next s.heap p rest 0 → rest.length < fuel →
      loop s.visitTurn fuel (p, seen) = ok (seen ++ values rest) := by
    intro rest
    induction rest with
    | nil =>
      rintro (_ | fuel) p seen - hp hlt
      · cases hlt
      · obtain rfl : p = 0 := hp
        rw [values, List.map_nil, List.append_nil]
        exact loop_leave rfl
    | cons c rest ih =>
      rintro (_ | fuel) p seen hsub hp hlt
      · cases hlt
      · obtain ⟨rfl, hnode, hrest⟩ := hp
        have hne := h.address_ne_zero (hsub List.mem_cons_self)
        have hturn : s.visitTurn (c.1, seen) = ok (.next (c.2.m_next, seen ++ [c.2.m_value])) := by
          rw [visitTurn, if_pos hne, load_eq hnode, bind_ok, advance_eq hne hnode]
          rfl
        rw [loop_next hturn, ih fuel c.2.m_next _ (fun a ha => hsub (List.mem_cons_of_mem _ ha)) hrest
          (Nat.lt_of_succ_lt_succ hlt), List.append_assoc]
        rfl
  rw [visit, hwalk ns fuel s.m_head [] (List.Subset.refl _) h.chain hfuel, List.nil_append]

/-! ## Runs -/

inductive Event (T : Type) where
  | push_back (val : T)
  | push_front (val : T)
  | pop_back

/-- A call that returns. A push gets a fresh node. -/
inductive Step : single_linked_list T → Event T → single_linked_list T → Prop
  | push_back {s s' : single_linked_list T} {new : U64} {val : T} : s.Fresh new →
      s.push_back new val = ok s' → Step s (.push_back val) s'
  | push_front {s s' : single_linked_list T} {new : U64} {val : T} : s.Fresh new →
      s.push_front new val = ok s' → Step s (.push_front val) s'
  | pop_back {s s' : single_linked_list T} {ret : U64} : s.pop_back = ok (ret, s') →
      Step s .pop_back s'

/-- The guard of a step: no `pop_back`. -/
def pushesOnly (_ : single_linked_list T) : Event T → Prop
  | .pop_back => False
  | _ => True

/-- What a call does to a sequence. -/
def after (l : List T) : Event T → List T
  | .push_back val => l ++ [val]
  | .push_front val => val :: l
  | .pop_back => l.dropLast

/-- The sequence that the calls make of an empty one. -/
def reference (es : List (Event T)) : List T := es.foldl after []

theorem reference_snoc (es : List (Event T)) (e : Event T) :
    reference (es ++ [e]) = after (reference es) e := List.foldl_append

/-- From outside, the list is the sequence. -/
structure Looks (s : single_linked_list T) (l : List T) : Prop where
  visit : ∀ fuel, l.length < fuel → s.visit fuel = ok l
  size : s.size.toNat = l.length
  at_ : ∀ index : U64, s.at_ index = ok l[index.toNat]?

/-- A list whose size is the number of its nodes looks like its values. -/
theorem Holds.looks {s : single_linked_list T} {ns : Nodes T} (h : Holds s ns)
    (hsize : s.m_size.toNat = ns.length) : s.Looks (values ns) := by
  have hlength := values_length ns
  refine ⟨fun fuel hfuel => visit.spec h (by omega), ?_, fun index => ?_⟩
  · rw [hlength]
    exact hsize
  · by_cases hin : index.toNat < ns.length
    · rw [at_.spec h (by rw [BitVec.lt_def]; omega) hin, values, List.getElem?_map,
        List.getElem?_eq_getElem hin]
      rfl
    · have hge : index ≥ s.m_size := by
        rw [ge_iff_le, BitVec.le_def]
        omega
      rw [single_linked_list.at_, if_pos hge, List.getElem?_eq_none (by omega)]

/-- The size after a push counts one node more. -/
theorem pushedSize_toNat {s s' : single_linked_list T} {ns ns' : Nodes T} (h : Holds s' ns')
    (hlength : ns'.length = ns.length + 1) (hle : s.m_size.toNat ≤ ns.length)
    (hsize : s'.m_size = s.pushedSize ns) : s'.m_size.toNat = s.m_size.toNat + 1 := by
  have hlt := h.length_lt
  rw [hsize, pushedSize]
  by_cases hempty : ns = []
  · rw [hempty, List.length_nil] at hle
    have hone : (1 : U64).toNat = 1 := rfl
    rw [if_pos hempty, hone]
    omega
  · rw [if_neg hempty, BitVec.toNat_add]
    have hone : (1 : U64).toNat = 1 := rfl
    rw [hone, Nat.mod_eq_of_lt (by omega)]

/-- The list after pushes: its size is the number of its nodes, and its values
are the sequence. -/
structure Pushed (s : single_linked_list T) (l : List T) (ns : Nodes T) : Prop where
  holds : Holds s ns
  values : values ns = l
  size : s.m_size.toNat = ns.length

namespace Pushed

variable {s : single_linked_list T} {l : List T} {ns : Nodes T} (h : Pushed s l ns)
include h

theorem looks : s.Looks l := by
  rw [← h.values]
  exact h.holds.looks h.size

/-- One node more, and the size of a push. -/
theorem grow {s' : single_linked_list T} {l' : List T} {ns' : Nodes T} (h' : Holds s' ns')
    (hvalues : single_linked_list.values ns' = l') (hl : l'.length = l.length + 1)
    (hsize : s'.m_size = s.pushedSize ns) : Pushed s' l' ns' := by
  have hlength : ns'.length = ns.length + 1 := by
    rw [← hvalues, ← h.values, values_length, values_length] at hl
    exact hl
  refine ⟨h', hvalues, ?_⟩
  rw [pushedSize_toNat h' hlength h.size.le hsize, h.size, hlength]

theorem push_back {new : U64} (hnew : s.Fresh new) (val : T) : ∃ s' ns',
    s.push_back new val = ok s' ∧ Pushed s' (l ++ [val]) ns' := by
  obtain ⟨s', ns', hrun, h', hvalues, hsize⟩ := push_back.spec h.holds hnew val
  rw [h.values] at hvalues
  exact ⟨s', ns', hrun, h.grow h' hvalues List.length_append hsize⟩

theorem push_front {new : U64} (hnew : s.Fresh new) (val : T) : ∃ s' ns',
    s.push_front new val = ok s' ∧ Pushed s' (val :: l) ns' := by
  obtain ⟨s', ns', hrun, h', hvalues, hsize⟩ := push_front.spec h.holds hnew val
  rw [h.values] at hvalues
  exact ⟨s', ns', hrun, h.grow h' hvalues List.length_cons hsize⟩

/-- The tail is the last node, with a null link. -/
theorem tail (hne : l ≠ []) : ∃ node, s.heap s.m_tail = some node ∧ node.m_next = 0 ∧
    l.getLast? = some node.m_value := by
  have hns : ns ≠ [] := by
    rintro rfl
    exact hne h.values.symm
  obtain ⟨front, node, rfl⟩ := h.holds.last hns
  obtain ⟨-, hnode, hnext⟩ := chain_snoc.mp h.holds.chain
  refine ⟨node, hnode, hnext, ?_⟩
  rw [← h.values, values_append]
  exact List.getLast?_concat

end Pushed

theorem pushed_run {heap : Heap U64 (linked_list_node T)} (hnull : heap 0 = none)
    {es : List (Event T)} {s : single_linked_list T}
    (run : Run (Guarded pushesOnly Step) (empty heap) es s) :
    ∃ ns, Pushed s (reference es) ns := by
  refine run.inv_events (fun es s => ∃ ns, Pushed s (reference es) ns) ?_
    ⟨[], empty_holds hnull, rfl, rfl⟩
  rintro es s e s' ⟨ns, h⟩ ⟨hguard, hstep⟩
  rw [reference_snoc]
  cases hstep with
  | push_back hnew hcall =>
    obtain ⟨s₁, ns', hrun, h'⟩ := h.push_back hnew _
    rw [hcall, ok.injEq] at hrun
    subst hrun
    exact ⟨ns', h'⟩
  | push_front hnew hcall =>
    obtain ⟨s₁, ns', hrun, h'⟩ := h.push_front hnew _
    rw [hcall, ok.injEq] at hrun
    subst hrun
    exact ⟨ns', h'⟩
  | pop_back hcall => cases hguard

/-! ## The law of the pushes -/

/-- After every sequence of pushes the list looks like the sequence, its tail is
the last node with a null link, and a further push returns and goes to its end. -/
theorem a_list_is_the_sequence_of_its_pushes {heap : Heap U64 (linked_list_node T)}
    (hnull : heap 0 = none) {es : List (Event T)} {s : single_linked_list T}
    (run : Run (Guarded pushesOnly Step) (empty heap) es s) :
    s.Looks (reference es) ∧
      (reference es ≠ [] → ∃ node, s.heap s.m_tail = some node ∧ node.m_next = 0 ∧
        (reference es).getLast? = some node.m_value) ∧
      ∀ new val, s.Fresh new →
        (s.push_back new val).Yields (fun s' => s'.Looks (reference es ++ [val])) ∧
        (s.push_front new val).Yields (fun s' => s'.Looks (val :: reference es)) := by
  obtain ⟨ns, h⟩ := pushed_run hnull run
  refine ⟨h.looks, h.tail, fun new val hnew => ⟨?_, ?_⟩⟩
  · obtain ⟨s', ns', hrun, h'⟩ := h.push_back hnew val
    exact ⟨s', hrun, h'.looks⟩
  · obtain ⟨s', ns', hrun, h'⟩ := h.push_front hnew val
    exact ⟨s', hrun, h'.looks⟩

/-- A push at the front of one at the back, and one more at the back. -/
theorem a_list_is_the_sequence_of_three_pushes : ∃ s : single_linked_list Nat,
    Run (Guarded pushesOnly Step) (empty fun _ => none) [.push_back 7, .push_front 6, .push_back 8] s ∧
    s.Looks [6, 7, 8] ∧
    (∃ node, s.heap s.m_tail = some node ∧ node.m_next = 0 ∧ [6, 7, 8].getLast? = some node.m_value) ∧
    ∀ new val, s.Fresh new →
      (s.push_back new val).Yields (fun s' => s'.Looks [6, 7, 8, val]) ∧
      (s.push_front new val).Yields (fun s' => s'.Looks [val, 6, 7, 8]) := by
  obtain ⟨s, run⟩ : ∃ s : single_linked_list Nat, Run (Guarded pushesOnly Step) (empty fun _ => none)
      [.push_back 7, .push_front 6, .push_back 8] s := by
    refine ⟨_, .snoc (.snoc (.snoc (.nil _) ⟨trivial, @Step.push_back _ _ _ 1 7 ⟨by decide, rfl⟩ rfl⟩)
      ⟨trivial, @Step.push_front _ _ _ 2 6 ⟨by decide, rfl⟩ rfl⟩)
      ⟨trivial, @Step.push_back _ _ _ 3 8 ⟨by decide, rfl⟩ rfl⟩⟩
  obtain ⟨hlooks, htail, hnext⟩ := a_list_is_the_sequence_of_its_pushes rfl run
  exact ⟨s, run, hlooks, htail (List.cons_ne_nil _ _), hnext⟩

/-! ## The spec of the pop -/

theorem hop_reaches {s : single_linked_list T} {ns : Nodes T} (h : Holds s ns) {n : Nat} {p : U64}
    (hn : n ≤ ns.length) (hrun : forRange n s.hopTurn s.m_head = ok p) : Reaches s ns n p := by
  refine forRange_inv (Reaches s ns) ?_ h.reaches hrun
  intro i q q' hi hq hturn
  obtain ⟨-, hnode, hnext⟩ := hq.node (by omega)
  rw [hopTurn, load_eq hnode, bind_ok] at hturn
  split at hturn
  · cases hturn
    exact hnext
  · cases hturn

/-- The chain up to a node, with a null link from there. -/
theorem Holds.cut {s : single_linked_list T} {front back : Nodes T} {t : U64}
    {node : linked_list_node T} (h : Holds s (front ++ (t, node) :: back)) (size : U64) :
    Holds { s with heap := s.heap.put t { node with m_next := 0 }, m_tail := t, m_size := size }
      (front ++ [(t, { node with m_next := 0 })]) := by
  have hzero : t ≠ 0 := h.address_ne_zero (c := (t, node)) (by simp)
  obtain ⟨hfront, ht⟩ := not_mem_front h.nodup
  obtain ⟨p, hto, rfl, hnode, -⟩ := chain_append.mp h.chain
  have hchain : Chain linked_list_node.m_next s.heap s.m_head (front ++ [(p, node)]) node.m_next :=
    chain_snoc.mpr ⟨hto, hnode, rfl⟩
  refine ⟨?_, hchain.relink ht, ?_, ?_⟩
  · exact (Heap.put_other (Ne.symm hzero)).trans h.null
  · rw [List.map_append, List.map_singleton, ← List.concat_eq_append]
    exact List.Nodup.concat ht hfront
  · intro c hc
    rw [List.getLast?_concat, Option.mem_some_iff] at hc
    rw [← hc]

/-- The loop ends at the last node that the size counts, and no node of these
leaves the list. -/
theorem pop_back.spec {s s' : single_linked_list T} {ns : Nodes T} (h : Holds s ns)
    (hpos : s.m_size ≠ 0) (hle : s.m_size.toNat ≤ ns.length) {ret : U64}
    (hrun : s.pop_back = ok (ret, s')) :
    ∃ ns', Holds s' ns' ∧ ns'.length = s.m_size.toNat ∧
      s'.m_size.toNat + 1 = s.m_size.toNat := by
  have hsize : (s.m_size - 1).toNat + 1 = s.m_size.toNat := by
    have : s.m_size.toNat ≠ 0 := fun hzero => hpos (BitVec.eq_of_toNat_eq hzero)
    rw [BitVec.toNat_sub_of_le (by rw [BitVec.le_def]; exact Nat.one_le_iff_ne_zero.mpr this)]
    exact Nat.sub_add_cancel (Nat.one_le_iff_ne_zero.mpr this)
  rw [pop_back, if_neg hpos] at hrun
  obtain ⟨t, hhops, hset⟩ := bind_eq_ok.mp hrun
  obtain ⟨front, node, back, rfl, hlength, hnode⟩ :=
    (hop_reaches h (by omega) hhops).splits (by omega)
  dsimp only at hset
  rw [set_next_eq (s := { s with m_tail := t }) hnode, bind_ok] at hset
  cases hset
  refine ⟨_, h.cut _, ?_, hsize⟩
  rw [List.length_append, List.length_singleton, hlength, hsize]

/-! ## Runs with pops -/

/-- The size is that of the sequence. There can be more nodes. -/
def Counted (l : List T) (s : single_linked_list T) : Prop :=
  ∃ ns, Holds s ns ∧ s.m_size.toNat ≤ ns.length ∧ s.m_size.toNat = l.length

theorem Counted.push {l l' : List T} {s s' : single_linked_list T} {ns ns' : Nodes T}
    (h : Holds s' ns') (hlength : (values ns').length = (values ns).length + 1)
    (hsize : s'.m_size = s.pushedSize ns) (hle : s.m_size.toNat ≤ ns.length)
    (heq : s.m_size.toNat = l.length) (hl : l'.length = l.length + 1) : Counted l' s' := by
  rw [values_length, values_length] at hlength
  have hsize' := pushedSize_toNat h hlength hle hsize
  exact ⟨ns', h, by omega, by omega⟩

theorem counted_run {heap : Heap U64 (linked_list_node T)} (hnull : heap 0 = none)
    {es : List (Event T)} {s : single_linked_list T} (run : Run Step (empty heap) es s) :
    Counted (reference es) s := by
  refine run.inv_events (fun es s => Counted (reference es) s) ?_
    ⟨[], empty_holds hnull, le_rfl, rfl⟩
  rintro es s e s' ⟨ns, h, hle, heq⟩ hstep
  rw [reference_snoc]
  cases hstep with
  | push_back hnew hcall =>
    obtain ⟨s₁, ns', hrun, h', hvalues, hsize⟩ := push_back.spec h hnew _
    rw [hcall, ok.injEq] at hrun
    subst hrun
    apply Counted.push h' ?_ hsize hle heq
    · exact List.length_append
    · rw [hvalues]
      exact List.length_append
  | push_front hnew hcall =>
    obtain ⟨s₁, ns', hrun, h', hvalues, hsize⟩ := push_front.spec h hnew _
    rw [hcall, ok.injEq] at hrun
    subst hrun
    apply Counted.push h' ?_ hsize hle heq
    · exact List.length_cons
    · rw [hvalues]
      exact List.length_cons
  | pop_back hcall =>
    by_cases hzero : s.m_size = 0
    · rw [pop_back, if_pos hzero] at hcall
      cases hcall
      rw [hzero] at heq
      have hnil := List.length_eq_zero_iff.mp heq.symm
      exact ⟨ns, h, hle, by rw [hzero, hnil]; rfl⟩
    · obtain ⟨ns', h', hlength, hsize⟩ := pop_back.spec h hzero hle hcall
      refine ⟨ns', h', by omega, ?_⟩
      rw [after, List.length_dropLast]
      omega

/-! ## The law of the pops -/

/-- Now and after every later pushes, the list looks like the sequence. -/
def Behaves (s : single_linked_list T) (l : List T) : Prop :=
  ∀ es s', Run (Guarded pushesOnly Step) s es s' → s'.Looks (es.foldl after l)

/-- `pop_back` returns the last node of the sequence, and leaves the sequence
without it. -/
def PopsLast (s : single_linked_list T) (l : List T) : Prop :=
  s.pop_back.Yields fun (ret, s') =>
    (s'.heap ret).map linked_list_node.m_value = l.getLast? ∧ s'.Behaves l.dropLast

theorem a_pop_removes_one_node_too_few {heap : Heap U64 (linked_list_node T)} (hnull : heap 0 = none)
    {es : List (Event T)} {s : single_linked_list T} (run : Run Step (empty heap) es s)
    (hne : reference es ≠ []) : ¬ s.PopsLast (reference es) := by
  rintro ⟨⟨ret, s'⟩, hpop, -, hbehaves⟩
  obtain ⟨ns, h, hle, hsize⟩ := counted_run hnull run
  have hpos : (reference es).length ≠ 0 := fun hzero => hne (List.length_eq_zero_iff.mp hzero)
  have hsome : s.m_size ≠ 0 := by
    intro hzero
    rw [hzero] at hsize
    exact hpos hsize.symm
  obtain ⟨ns', h', hlength, -⟩ := pop_back.spec h hsome hle hpop
  -- the walk visits as many values as before the pop
  have hlooks := (hbehaves [] s' (.nil s')).visit (ns'.length + 1) (by
    rw [List.foldl_nil, List.length_dropLast]
    omega)
  rw [visit.spec h' (Nat.lt_succ_self _), ok.injEq] at hlooks
  have hvisited := congrArg List.length hlooks
  rw [values_length, List.foldl_nil, List.length_dropLast] at hvisited
  omega

/-- Pushes at both ends, a pop, and one more push. -/
theorem a_pop_after_a_pop_removes_one_node_too_few : ∃ s : single_linked_list Nat,
    Run Step (empty fun _ => none) [.push_back 7, .push_front 6, .pop_back, .push_back 8] s ∧
      ¬ s.PopsLast [6, 8] := by
  obtain ⟨s, run⟩ : ∃ s : single_linked_list Nat, Run Step (empty fun _ => none)
      [.push_back 7, .push_front 6, .pop_back, .push_back 8] s := by
    have run₂ := Run.snoc (Run.single (@Step.push_back _ (empty fun _ => none) _ 1 7 ⟨by decide, rfl⟩ rfl))
      (@Step.push_front _ _ _ 2 6 ⟨by decide, rfl⟩ rfl)
    have run₃ := run₂.snoc (Step.pop_back rfl)
    exact ⟨_, run₃.snoc (@Step.push_back _ _ _ 3 8 ⟨by decide, rfl⟩ rfl)⟩
  exact ⟨s, run, a_pop_removes_one_node_too_few rfl run (List.cons_ne_nil _ _)⟩

/-- Two pushes and a pop: both values are still in the list. -/
theorem a_popped_node_stays_in_the_list : ∃ s : single_linked_list Nat,
    Run Step (empty fun _ => none) [.push_back 7, .push_back 8] s ∧
      s.pop_back.Yields (fun t => t.1 = s.m_tail ∧ t.2.size = 1 ∧ t.2.visit 3 = ok [7, 8]) ∧
      ¬ s.PopsLast [7, 8] := by
  have hone : Step (empty fun _ => none) (.push_back 7)
      ((empty fun _ => none : single_linked_list Nat).create_head 1 7) :=
    .push_back ⟨by decide, rfl⟩ rfl
  have htwo : Step ((empty fun _ => none : single_linked_list Nat).create_head 1 7) (.push_back 8)
      _ := @Step.push_back _ _ _ 2 8 ⟨by decide, rfl⟩ rfl
  refine ⟨_, .snoc (.single hone) htwo, ⟨_, rfl, rfl, rfl, rfl⟩, ?_⟩
  rintro ⟨_, hpop, -, hbehaves⟩
  cases hpop
  have hlooks := (hbehaves [] _ (.nil _)).visit 3 (by decide)
  cases hlooks

end single_linked_list
end common
