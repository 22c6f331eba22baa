/-
Cheritest/Dma/StructureTree.lean

The tree that random_dma_program_structure builds.

While the loop runs the work queue holds exactly the nodes without a type
(`Filled.workQueue`).  When it exits there is one tree in memory
(`Represents`), whose length is the program length that was counted:
`random_dma_program_structure_complete`.
-/
import Cheritest.Dma.Structure
import Mathlib.Data.List.Nodup

namespace Cheritest

open LevelOrder DmaProgramNodeType

/-! ### The work queue -/

/-- The chain of `dmapn_next_space` from one pointer to a node. -/
inductive SpaceChain (heap : ℕ → DmaProgramCell) : Option ℕ → ℕ → List ℕ → Prop
  | last (a : ℕ) : SpaceChain heap (some a) a [a]
  | cons {a last : ℕ} {l : List ℕ} :
      SpaceChain heap (heap a).dmapn_next_space last l → SpaceChain heap (some a) last (a :: l)

/-- The words that a node contributes to the program. -/
def DmaProgramCell.words (c : DmaProgramCell) : ℕ :=
  match c.dmapn_type with
  | some t => t.words
  | none => 0

/-- The queue `q` of a state. -/
structure WorkQueue (s : Filling) (q : List ℕ) : Prop where
  chain : SpaceChain s.heap s.next_space s.last_space q
  nodup : q.Nodup
  untyped : ∀ i, i ∈ q ↔ i < s.allocated ∧ (s.heap i).dmapn_type = none
  spaces : s.spaces = q.length
  program_length : s.program_length =
    (((List.range s.allocated).map fun i => (s.heap i).words).sum : ℕ)

section queue
variable {τ : ℕ → DmaProgramNodeType} {k : ℕ} {s : Filling}

theorem Filled.chain (h : Filled τ k s) {a m : ℕ} (ha : a + m = s.last_space) :
    SpaceChain s.heap (some a) s.last_space (List.range' a (m + 1)) := by
  induction m generalizing a with
  | zero =>
    obtain rfl : a = s.last_space := ha
    exact .last _
  | succ m ih =>
    have hl := h.last_space
    apply SpaceChain.cons
    rw [h.next, if_pos (by omega)]
    exact ih (by omega)

theorem sum_words (k c : ℕ) :
    ((List.range c).map fun i => if i < k then (τ i).words else 0).sum
      = total words τ (min c k) := by
  induction c with
  | zero =>
    rw [Nat.zero_min]
    rfl
  | succ c ih =>
    rw [List.range_succ, List.map_append, List.sum_append, ih, List.map_singleton,
      List.sum_singleton]
    rcases Nat.lt_or_ge c k with hlt | hge
    · rw [if_pos hlt, Nat.min_eq_left (by omega), Nat.min_eq_left (by omega)]
      rfl
    · rw [if_neg (by omega), Nat.min_eq_right hge, Nat.min_eq_right (by omega), Nat.add_zero]

theorem Filled.words (h : Filled τ k s) (i : ℕ) :
    (s.heap i).words = if i < k then (τ i).words else 0 := by
  rw [DmaProgramCell.words, h.type_eq]
  split_ifs <;> rfl

/-- In every iteration the queue holds the nodes that have no type. -/
theorem Filled.workQueue (h : Filled τ k s) (hk : k < opened arity τ k) :
    WorkQueue s (List.range' k (opened arity τ k - k)) := by
  have hl := h.last_space
  constructor
  case chain =>
    rw [h.next_space, if_pos hk, show opened arity τ k - k = s.last_space - k + 1 by omega]
    exact h.chain (by omega)
  case nodup => exact List.nodup_range'
  case untyped =>
    intro i
    rw [List.mem_range'_1, h.allocated, h.type_eq]
    split_ifs with hi
    · constructor
      · rintro ⟨hle, -⟩
        omega
      · rintro ⟨-, ⟨⟩⟩
    · constructor
      · rintro ⟨-, hlt⟩
        exact ⟨by omega, rfl⟩
      · rintro ⟨hlt, -⟩
        omega
  case spaces =>
    rw [h.spaces, List.length_range']
    omega
  case program_length =>
    rw [h.program_length, h.allocated]
    simp only [h.words]
    rw [sum_words, Nat.min_eq_right hk.le]

end queue

/-! ### The tree in memory -/

/-- The tree that stands in memory at an address. -/
inductive Represents (heap : ℕ → DmaProgramCell) : ℕ → DmaProgramNode → Prop
  | loop {a l : ℕ} {body : DmaProgramNode} : (heap a).dmapn_type = some DMAPNT_LOOP →
      (heap a).dmapn_left_child = some l → Represents heap l body →
      Represents heap a (.DMAPNT_LOOP body)
  | seq {a l r : ℕ} {left right : DmaProgramNode} : (heap a).dmapn_type = some DMAPNT_SEQ →
      (heap a).dmapn_left_child = some l → (heap a).dmapn_right_child = some r →
      Represents heap l left → Represents heap r right →
      Represents heap a (.DMAPNT_SEQ left right)
  | op {a : ℕ} : (heap a).dmapn_type = some DMAPNT_OP → Represents heap a .DMAPNT_OP

/-- The tree with a given root and the subtrees that its type requires. -/
def DmaProgramNodeType.node : DmaProgramNodeType → List DmaProgramNode → DmaProgramNode
  | DMAPNT_LOOP, [body] => .DMAPNT_LOOP body
  | DMAPNT_SEQ, [left, right] => .DMAPNT_SEQ left right
  | _, _ => .DMAPNT_OP

theorem dma_program_length_node (t : DmaProgramNodeType) (cs : List DmaProgramNode)
    (h : cs.length = t.arity) :
    dma_program_length (t.node cs) = t.words + (cs.map dma_program_length).sum := by
  cases t with
  | DMAPNT_LOOP =>
    obtain ⟨body, rfl⟩ := List.length_eq_one_iff.mp h
    rfl
  | DMAPNT_SEQ =>
    obtain ⟨left, right, rfl⟩ := List.length_eq_two.mp h
    simp [node, dma_program_length, words]
  | DMAPNT_OP =>
    obtain rfl := List.length_eq_zero_iff.mp h
    rfl

section memory
variable {τ : ℕ → DmaProgramNodeType} {n : ℕ} {s : Filling}

/-- A node and the trees of its children make the tree of the node. -/
theorem Filled.represents_node (h : Filled τ n s) {k : ℕ} (hk : k < n) {cs : List DmaProgramNode}
    (hlen : cs.length = (τ k).arity)
    (hcs : ∀ j t, cs[j]? = some t → Represents s.heap (opened arity τ k + j) t) :
    Represents s.heap k ((τ k).node cs) := by
  have htype := h.type_eq k
  have hchildren := h.children k hk
  rw [if_pos hk] at htype
  rw [DmaProgramCell.children, htype] at hchildren
  cases hτ : τ k with
  | DMAPNT_LOOP =>
    rw [hτ] at hlen htype hchildren
    obtain ⟨body, rfl⟩ := List.length_eq_one_iff.mp hlen
    exact .loop htype (List.cons.inj hchildren).1 (hcs 0 body rfl)
  | DMAPNT_SEQ =>
    rw [hτ] at hlen htype hchildren
    obtain ⟨left, right, rfl⟩ := List.length_eq_two.mp hlen
    obtain ⟨hl, hr⟩ := List.cons.inj hchildren
    exact .seq htype hl (List.cons.inj hr).1 (hcs 0 left rfl) (hcs 1 right rfl)
  | DMAPNT_OP =>
    rw [hτ] at hlen htype
    obtain rfl := List.length_eq_zero_iff.mp hlen
    exact .op htype

/-- The trees of the open places stand in memory, at consecutive nodes. -/
theorem Filled.represents (h : Filled τ n s) (hn : opened arity τ n = n) {k : ℕ}
    {ts : List DmaProgramNode} (hts : Grows arity τ node n k ts) :
    ∀ j t, ts[j]? = some t → Represents s.heap (k + j) t := by
  induction hts with
  | done =>
    rintro j t ⟨⟩
  | @fill k ts cs hk hcs hrest ih =>
    have hlen := hrest.length hn
    rw [List.length_append, hcs, opened] at hlen
    intro j t hj
    rcases j with - | j
    · obtain rfl := Option.some.inj hj
      apply h.represents_node hk hcs
      intro x u hx
      have hu := ih (ts.length + x) u (by
        rw [List.getElem?_append_right (by omega), Nat.add_sub_cancel_left]
        exact hx)
      rwa [show k + 1 + (ts.length + x) = opened arity τ k + x by omega] at hu
    · have hj' : ts[j]? = some t := hj
      have hu := ih j t (by
        rw [List.getElem?_append_left (List.getElem?_eq_some_iff.mp hj').1]
        exact hj')
      rwa [show k + 1 + j = k + (j + 1) by omega] at hu

/-- The children of a node are the places it has opened. -/
theorem Filled.mem_children (h : Filled τ n s) {i m : ℕ} (hi : i < n) :
    some m ∈ (s.heap i).children ↔ Child arity τ i m := by
  rw [h.children i hi]
  simp [Child, opened, List.mem_range'_1]

end memory

/-- What the loop leaves when it exits after `n` iterations: every node has
been typed by one iteration and is linked into one tree. -/
structure CompleteTree (d : Draws) (n : ℕ) (s : Filling) : Prop where
  typed : ∀ i < s.allocated, (s.heap i).dmapn_type ≠ none
  typed_once : ∀ i < s.allocated, ∃! k, k < n ∧ (fillings d k).bind Filling.next_space = some i
  children : ∀ i < s.allocated, ∀ c ∈ (s.heap i).children, ∃ j < s.allocated, c = some j
  reachable : ∀ i < s.allocated,
    Relation.ReflTransGen (fun i j => some j ∈ (s.heap i).children) 0 i
  one_parent : ∀ i < s.allocated, i ≠ 0 →
    ∃! j, j < s.allocated ∧ some i ∈ (s.heap j).children
  no_parent : ∀ j < s.allocated, some 0 ∉ (s.heap j).children
  nodup : ∀ i < s.allocated, (s.heap i).children.Nodup

theorem Exits.completeTree {d : Draws} {n : ℕ} {s : Filling} (h : Exits d n s) :
    CompleteTree d n s := by
  have hcomplete := h.complete
  have hfilled := filled_of_fillings h.1
  have halloc : s.allocated = n := hfilled.allocated.trans hcomplete.after
  constructor <;> rw [halloc]
  case typed =>
    intro i hi
    rw [hfilled.type_eq, if_pos hi]
    rintro ⟨⟩
  case typed_once =>
    intro i hi
    -- iteration `k` fills space `k`, so none is filled twice
    have hat (k : ℕ) (hk : k < n) : (fillings d k).bind Filling.next_space = some k := by
      obtain ⟨s', hs'⟩ := fillings_before h.1 hk
      rw [hs', Option.bind_some, (filled_of_fillings hs').next_space,
        if_pos (hcomplete.before k hk)]
    refine ⟨i, ⟨hi, hat i hi⟩, ?_⟩
    rintro k ⟨hk, heq⟩
    rw [hat k hk] at heq
    exact Option.some.inj heq
  case children =>
    intro i hi c hc
    rw [hfilled.children i hi] at hc
    obtain ⟨j, hj, rfl⟩ := List.mem_map.mp hc
    rw [List.mem_range'_1] at hj
    have hle : opened arity (drawnTypes d) (i + 1) ≤ opened arity (drawnTypes d) n := opened_mono hi
    rw [hcomplete.after, opened] at hle
    exact ⟨j, by omega, rfl⟩
  case reachable =>
    intro i hi
    have hreach := hcomplete.reachable hi
    -- along the path from the root, each edge of the queue is a child in memory
    induction hreach with
    | refl => exact .refl
    | tail _ hab ih => exact (ih hab.1).tail ((hfilled.mem_children hab.1).mpr hab.2)
  case one_parent =>
    intro i hi h0
    have hopened : i < opened arity (drawnTypes d) n := by
      rw [hcomplete.after]
      exact hi
    obtain ⟨j, hj, hc⟩ := exists_parent (Nat.pos_of_ne_zero h0) hopened
    refine ⟨j, ⟨hj, (hfilled.mem_children hj).mpr hc⟩, ?_⟩
    rintro j' ⟨hj', hc'⟩
    exact ((hfilled.mem_children hj').mp hc').unique hc
  case no_parent =>
    intro j hj hc
    exact not_child_zero j ((hfilled.mem_children hj).mp hc)
  case nodup =>
    intro i hi
    rw [hfilled.children i hi]
    exact List.Nodup.map (fun _ _ => Option.some.inj) List.nodup_range'

/-- The tree that the exit leaves in memory. -/
theorem Exits.exists_represents {d : Draws} {n : ℕ} {s : Filling} (h : Exits d n s) :
    ∃ t, Represents s.heap 0 t ∧ Grows arity (drawnTypes d) node n 0 [t] := by
  obtain ⟨t, ht⟩ := exists_grows_root node h.complete
  exact ⟨t, (filled_of_fillings h.1).represents h.complete.after ht 0 t rfl, ht⟩

/-- The length that was counted is the tree's. -/
theorem Exits.exists_tree {d : Draws} {n : ℕ} {s : Filling} (h : Exits d n s) :
    ∃ t, Represents s.heap 0 t ∧ s.program_length = dma_program_length t := by
  obtain ⟨t, ht, hgrows⟩ := h.exists_represents
  have htotal := hgrows.total dma_program_length_node
  refine ⟨t, ht, ?_⟩
  rw [(filled_of_fillings h.1).program_length, ← htotal]
  simp [total]

/-- **The work queue builds a complete tree.**  While the loop runs, the
queue holds exactly the nodes that have no type; when it exits, the nodes
make one tree, whose length is the length that was counted. -/
theorem random_dma_program_structure_complete {d d' : Draws} {fuel : ℕ} {s : Filling}
    (h : random_dma_program_structure fuel d = some (s, d')) :
    ∃ n ≤ fuel, fillings d n = some s ∧
      (∀ k < n, ∃ s' q, fillings d k = some s' ∧ WorkQueue s' q) ∧ CompleteTree d n s ∧
      ∃ t, Represents s.heap 0 t ∧ s.program_length = dma_program_length t := by
  obtain ⟨n, hn, hexit, -⟩ := random_dma_program_structure_eq_some.mp h
  refine ⟨n, hn, hexit.1, ?_, hexit.completeTree, hexit.exists_tree⟩
  intro k hk
  obtain ⟨s', hs'⟩ := fillings_before hexit.1 hk
  exact ⟨s', _, hs', (filled_of_fillings hs').workQueue (hexit.complete.before k hk)⟩

/-- A loop over an operation: the draws are the greatest. -/
theorem random_dma_program_structure_complete_loop :
    ∃ n ≤ 2, fillings (fun _ => 32767) n =
        some (((Filling.start.fill_loop 0).advance 0 |>.fill_op 1).advance 1) ∧
      CompleteTree (fun _ => 32767) n
        (((Filling.start.fill_loop 0).advance 0 |>.fill_op 1).advance 1) := by
  have h : random_dma_program_structure 2 (fun _ => 32767) =
      some (((Filling.start.fill_loop 0).advance 0 |>.fill_op 1).advance 1, fun _ => 32767) := rfl
  obtain ⟨n, hn, hs, -, htree, -⟩ := random_dma_program_structure_complete h
  exact ⟨n, hn, hs, htree⟩

end Cheritest
