/-
Cheritest/Dma/Structure.lean

The structure of a random DMA program: random_dma_program_structure of
dma_test_generation.c.

The function grows a tree of loops, sequences and operations in place.  The
nodes that have no type yet are linked, through a field of their own, into a
queue; an iteration draws a type for the node at the head and appends the
children that the type requires.

The nodes are numbered as they are allocated.  Then iteration `k` types node
`k`, and the children of node `k` are the nodes that it allocates: the memory
after `k` iterations follows from the types alone, and these from the draws
(`filled_of_fillings`).

An allocated node is empty at first; no code reads a field before it is set,
except that the last iteration takes the next space from a node that has
none, and then the loop exits.
-/
import Cheritest.Dma.Program
import Cheritest.Dma.Random
import Cheritest.Lib.LevelOrder

namespace Cheritest

open LevelOrder

/-! ### Nodes and draws -/

/-- `RAND_LIMIT`. -/
def RAND_LIMIT : ℤ := 32767

/-- `LENGTH_LIMIT`. -/
def LENGTH_LIMIT : ℤ := 12

/-- `SPACE_LIMIT`. -/
def SPACE_LIMIT : ℤ := 10

/-- `enum dma_program_node_type`. -/
inductive DmaProgramNodeType
  | DMAPNT_LOOP | DMAPNT_SEQ | DMAPNT_OP
  deriving DecidableEq, Repr

open DmaProgramNodeType

/-- `struct dma_program_node` in memory, as far as its fields have been
set. -/
structure DmaProgramCell where
  dmapn_type : Option DmaProgramNodeType
  dmapn_left_child : Option ℕ
  dmapn_right_child : Option ℕ
  dmapn_next_space : Option ℕ

/-- The variables of `random_dma_program_structure`: the memory, how many
nodes have been allocated, the ends of the queue, and the counters.  The root
is node 0. -/
structure Filling where
  heap : ℕ → DmaProgramCell
  allocated : ℕ
  next_space : Option ℕ
  last_space : ℕ
  spaces : ℤ
  program_length : ℤ

/-- What an iteration fills the next space with, given the number it draws
and the counters. -/
def drawn_type (p : ℕ) (spaces program_length : ℤ) : DmaProgramNodeType :=
  let space_bias := SPACE_LIMIT - spaces
  let length_bias := LENGTH_LIMIT - program_length
  if LENGTH_LIMIT * p > RAND_LIMIT * length_bias then DMAPNT_OP
  else if LENGTH_LIMIT * SPACE_LIMIT * p > RAND_LIMIT * length_bias * space_bias then DMAPNT_LOOP
  else DMAPNT_SEQ

/-- `node->dmapn_next_space = next`. -/
def set_next_space (heap : ℕ → DmaProgramCell) (node next : ℕ) : ℕ → DmaProgramCell :=
  Function.update heap node { heap node with dmapn_next_space := some next }

section body
variable (s : Filling) (space : ℕ)

/-- Fill in the space with an operation. -/
def Filling.fill_op : Filling :=
  { s with
    heap := Function.update s.heap space { s.heap space with dmapn_type := some DMAPNT_OP }
    spaces := s.spaces - 1
    program_length := s.program_length + 1 }

/-- Fill it in with a loop: its body is the new last space. -/
def Filling.fill_loop : Filling :=
  let left := s.allocated
  let heap := Function.update s.heap space
    { s.heap space with dmapn_type := some DMAPNT_LOOP, dmapn_left_child := some left }
  { s with
    heap := set_next_space heap s.last_space left
    allocated := s.allocated + 1
    last_space := left
    program_length := s.program_length + 2 }

/-- Fill it in with a sequence: its parts are the new last spaces. -/
def Filling.fill_seq : Filling :=
  let left := s.allocated
  let right := s.allocated + 1
  let heap := Function.update s.heap space
    { s.heap space with
      dmapn_type := some DMAPNT_SEQ
      dmapn_left_child := some left
      dmapn_right_child := some right }
  let heap := set_next_space heap s.last_space left
  { s with
    heap := set_next_space heap left right
    allocated := s.allocated + 2
    last_space := right
    spaces := s.spaces + 1 }

/-- Fill it in with a node of the given type. -/
def Filling.fill : DmaProgramNodeType → Filling
  | DMAPNT_OP => s.fill_op space
  | DMAPNT_LOOP => s.fill_loop space
  | DMAPNT_SEQ => s.fill_seq space

/-- `next_space = next_space->dmapn_next_space`. -/
def Filling.advance : Filling := { s with next_space := (s.heap space).dmapn_next_space }

end body

/-- The body of the loop, for the number `p` drawn; there is no following a
`next_space` that has not been set. -/
def fill_space (p : ℕ) (s : Filling) : Option Filling :=
  s.next_space.map fun space =>
    (s.fill space (drawn_type p s.spaces s.program_length)).advance space

/-- The state before the loop. -/
def Filling.start : Filling where
  heap _ := ⟨none, none, none, none⟩
  allocated := 1
  next_space := some 0
  last_space := 0
  spaces := 1
  program_length := 0

/-- The loop, for `fuel` iterations at most. -/
def fill_spaces : ℕ → Filling → Gen Filling
  | 0, s => if s.spaces > 0 then fun _ => none else pure s
  | fuel + 1, s =>
      if s.spaces > 0 then do
        let p ← myrand
        match fill_space p s with
        | none => fun _ => none
        | some s => fill_spaces fuel s
      else pure s

/-- `random_dma_program_structure`, seeded: what its loop leaves, of which it
returns the root. -/
def random_dma_program_structure (fuel : ℕ) : Gen Filling := fill_spaces fuel .start

/-- The numbers that `myrand` returns after `mysrand(seed)`. -/
def seedDraws (seed : BitVec 32) : Draws := fun k => rand_value (rand_next^[k + 1] (seed.setWidth 64))

/-! ### Iterations -/

/-- The state after `k` iterations; there is none once the loop has
exited. -/
def fillings (d : Draws) : ℕ → Option Filling
  | 0 => some .start
  | k + 1 => (fillings d k).bind fun s => if s.spaces > 0 then fill_space (d k) s else none

/-- The loop exits after `n` iterations. -/
def Exits (d : Draws) (n : ℕ) (s : Filling) : Prop := fillings d n = some s ∧ s.spaces ≤ 0

theorem fillings_succ {d : Draws} {k : ℕ} {s : Filling} (h : fillings d k = some s) (h0 : s.spaces > 0) :
    fillings d (k + 1) = fill_space (d k) s := by
  rw [fillings, h, Option.bind_some, if_pos h0]

/-- After the exit there are no iterations. -/
theorem fillings_none {d : Draws} {k : ℕ} (h : fillings d k = none) (j : ℕ) :
    fillings d (k + j) = none := by
  induction j with
  | zero => exact h
  | succ j ih =>
    show (fillings d (k + j)).bind _ = none
    rw [ih]
    rfl

/-- An exit `n` iterations after a state. -/
theorem Exits.cases {d : Draws} {j n : ℕ} {s e : Filling} (hs : fillings d j = some s)
    (h : Exits d (j + n) e) : s.spaces > 0 ∧ (∃ m, n = m + 1) ∨ ¬ s.spaces > 0 ∧ n = 0 ∧ e = s := by
  obtain ⟨he, hexit⟩ := h
  by_cases h0 : s.spaces > 0
  · rcases n with - | m
    · obtain rfl := Option.some.inj (hs.symm.trans he)
      omega
    · exact .inl ⟨h0, m, rfl⟩
  · have hnext : fillings d (j + 1) = none := by
      rw [fillings, hs, Option.bind_some, if_neg h0]
    rcases n with - | m
    · exact .inr ⟨h0, rfl, (Option.some.inj (hs.symm.trans he)).symm⟩
    · have hnone := fillings_none hnext m
      rw [Nat.add_assoc, Nat.add_comm 1, he] at hnone
      cases hnone

theorem fill_spaces_exit {fuel : ℕ} {s : Filling} (h : ¬ s.spaces > 0) (d : Draws) :
    fill_spaces fuel s d = some (s, d) := by
  cases fuel <;> rw [fill_spaces, if_neg h] <;> rfl

theorem fill_spaces_iterate {fuel : ℕ} {s : Filling} (h : s.spaces > 0) (d : Draws) :
    fill_spaces (fuel + 1) s d
      = (fill_space (d 0) s).bind fun s => fill_spaces fuel s fun k => d (k + 1) := by
  rw [fill_spaces, if_pos h]
  simp only [bind, StateT.bind, myrand, Option.bind_some]
  rcases fill_space (d 0) s with - | s' <;> rfl

section loop
variable {d d' : Draws} {j fuel : ℕ} {s e : Filling}

theorem fill_spaces_exited (hs : fillings d j = some s) (h0 : ¬ s.spaces > 0) :
    fill_spaces fuel s (fun k => d (j + k)) = some (e, d') ↔
      ∃ n ≤ fuel, Exits d (j + n) e ∧ d' = fun k => d (j + n + k) := by
  rw [fill_spaces_exit h0]
  constructor
  · rintro ⟨⟩
    exact ⟨0, Nat.zero_le _, ⟨hs, Int.not_lt.mp h0⟩, rfl⟩
  · rintro ⟨n, -, hexit, rfl⟩
    rcases hexit.cases hs with ⟨hlt, -⟩ | ⟨-, rfl, rfl⟩
    · exact absurd hlt h0
    · rfl

/-- The loop from the state after `j` iterations. -/
theorem fill_spaces_eq_some (hs : fillings d j = some s) :
    fill_spaces fuel s (fun k => d (j + k)) = some (e, d') ↔
      ∃ n ≤ fuel, Exits d (j + n) e ∧ d' = fun k => d (j + n + k) := by
  induction fuel generalizing j s with
  | zero =>
    by_cases h0 : s.spaces > 0
    · rw [fill_spaces, if_pos h0]
      constructor
      · rintro ⟨⟩
      · rintro ⟨n, hn, hexit, -⟩
        rcases hexit.cases hs with ⟨-, m, rfl⟩ | ⟨hle, -⟩
        · omega
        · exact absurd h0 hle
    · exact fill_spaces_exited hs h0
  | succ fuel ih =>
    by_cases h0 : s.spaces > 0
    · have hnext := fillings_succ hs h0
      have hdraws : (fun k => d (j + (k + 1))) = fun k => d (j + 1 + k) := by
        funext k
        rw [Nat.add_assoc, Nat.add_comm 1]
      rw [fill_spaces_iterate h0, hdraws, Nat.add_zero, ← hnext]
      -- a filling that is never made cannot exit
      rcases hfill : fillings d (j + 1) with - | s'
      · constructor
        · rintro ⟨⟩
        · rintro ⟨n, hn, hexit, -⟩
          rcases hexit.cases hs with ⟨-, m, rfl⟩ | ⟨hle, -⟩
          · have hnone := fillings_none hfill m
            rw [Nat.add_assoc, Nat.add_comm 1, hexit.1] at hnone
            cases hnone
          · exact absurd h0 hle
      · rw [Option.bind_some, ih hfill]
        constructor
        · rintro ⟨n, hn, hexit, rfl⟩
          rw [Nat.add_assoc, Nat.add_comm 1] at hexit ⊢
          exact ⟨n + 1, by omega, hexit, rfl⟩
        · rintro ⟨n, hn, hexit, rfl⟩
          rcases hexit.cases hs with ⟨-, m, rfl⟩ | ⟨hle, -⟩
          · rw [Nat.add_comm m, ← Nat.add_assoc] at hexit ⊢
            exact ⟨m, by omega, hexit, rfl⟩
          · exact absurd h0 hle
    · exact fill_spaces_exited hs h0

/-- What the function returns. -/
theorem random_dma_program_structure_eq_some :
    random_dma_program_structure fuel d = some (s, d') ↔
      ∃ n ≤ fuel, Exits d n s ∧ d' = fun k => d (n + k) := by
  have h : fill_spaces fuel .start (fun k => d (0 + k)) = some (s, d') ↔
      ∃ n ≤ fuel, Exits d (0 + n) s ∧ d' = fun k => d (0 + n + k) := fill_spaces_eq_some rfl
  simp only [Nat.zero_add] at h
  exact h

end loop

/-! ### The memory follows from the types -/

/-- How many children a type requires. -/
def DmaProgramNodeType.arity : DmaProgramNodeType → ℕ
  | DMAPNT_LOOP => 1
  | DMAPNT_SEQ => 2
  | DMAPNT_OP => 0

/-- The words that a node of a type adds to those of its children. -/
def DmaProgramNodeType.words : DmaProgramNodeType → ℕ
  | DMAPNT_LOOP => 2
  | DMAPNT_SEQ => 0
  | DMAPNT_OP => 1

/-- The children that the type of a node requires. -/
def DmaProgramCell.children (c : DmaProgramCell) : List (Option ℕ) :=
  match c.dmapn_type with
  | some DMAPNT_LOOP => [c.dmapn_left_child]
  | some DMAPNT_SEQ => [c.dmapn_left_child, c.dmapn_right_child]
  | some DMAPNT_OP => []
  | none => []

section fill
variable {s : Filling} {space i : ℕ} {t : DmaProgramNodeType}

theorem set_next_space_apply (heap : ℕ → DmaProgramCell) (node next i : ℕ) :
    set_next_space heap node next i =
      { heap i with
        dmapn_next_space := if i = node then some next else (heap i).dmapn_next_space } := by
  unfold set_next_space
  rcases eq_or_ne i node with rfl | hne
  · rw [Function.update_self, if_pos rfl]
  · rw [Function.update_of_ne hne, if_neg hne]

theorem fill_type :
    ((s.fill space t).heap i).dmapn_type = if i = space then some t else (s.heap i).dmapn_type := by
  rcases eq_or_ne i space with rfl | hne
  · cases t <;>
      simp only [Filling.fill, Filling.fill_op, Filling.fill_loop, Filling.fill_seq,
        set_next_space_apply, Function.update_self, if_true]
  · cases t <;>
      simp only [Filling.fill, Filling.fill_op, Filling.fill_loop, Filling.fill_seq,
        set_next_space_apply, Function.update_of_ne hne, hne, if_false]

/-- A node is filled in with the nodes that are allocated then. -/
theorem fill_children_self :
    ((s.fill space t).heap space).children = (List.range' s.allocated t.arity).map some := by
  cases t with
  | DMAPNT_OP =>
    simp only [Filling.fill, Filling.fill_op, Function.update_self]
    rfl
  | DMAPNT_LOOP =>
    simp only [Filling.fill, Filling.fill_loop, set_next_space_apply, Function.update_self]
    rfl
  | DMAPNT_SEQ =>
    simp only [Filling.fill, Filling.fill_seq, set_next_space_apply, Function.update_self]
    rfl

theorem fill_children_of_ne (h : i ≠ space) :
    ((s.fill space t).heap i).children = (s.heap i).children := by
  cases t with
  | DMAPNT_OP => simp only [Filling.fill, Filling.fill_op, Function.update_of_ne h]
  | DMAPNT_LOOP =>
    simp only [Filling.fill, Filling.fill_loop, set_next_space_apply, Function.update_of_ne h]
    rfl
  | DMAPNT_SEQ =>
    simp only [Filling.fill, Filling.fill_seq, set_next_space_apply, Function.update_of_ne h]
    rfl

/-- The nodes that are allocated are linked behind the last space, in their
order. -/
theorem fill_next (hlast : s.last_space + 1 = s.allocated) :
    ((s.fill space t).heap i).dmapn_next_space =
      if s.last_space ≤ i ∧ i < s.last_space + t.arity then some (i + 1)
      else (s.heap i).dmapn_next_space := by
  have hone : DMAPNT_LOOP.arity = 1 := rfl
  have htwo : DMAPNT_SEQ.arity = 2 := rfl
  -- the cell that is filled keeps its own link
  have hbase (f : DmaProgramCell → DmaProgramCell)
      (hf : ∀ c, (f c).dmapn_next_space = c.dmapn_next_space) :
      (Function.update s.heap space (f (s.heap space)) i).dmapn_next_space
        = (s.heap i).dmapn_next_space := by
    rcases eq_or_ne i space with rfl | hne
    · rw [Function.update_self, hf]
    · rw [Function.update_of_ne hne]
  cases t with
  | DMAPNT_OP =>
    rw [if_neg (by rintro ⟨hle, hlt⟩; exact absurd hlt (Nat.not_lt.mpr hle))]
    exact hbase (fun c => { c with dmapn_type := some DMAPNT_OP }) fun _ => rfl
  | DMAPNT_LOOP =>
    have hi := hbase (fun c =>
      { c with dmapn_type := some DMAPNT_LOOP, dmapn_left_child := some s.allocated }) fun _ => rfl
    simp only [Filling.fill, Filling.fill_loop, set_next_space_apply, hi]
    split_ifs <;> first | rfl | (congr 1; omega)
  | DMAPNT_SEQ =>
    have hi := hbase (fun c => { c with
      dmapn_type := some DMAPNT_SEQ
      dmapn_left_child := some s.allocated
      dmapn_right_child := some (s.allocated + 1) }) fun _ => rfl
    simp only [Filling.fill, Filling.fill_seq, set_next_space_apply, hi]
    split_ifs <;> first | rfl | (congr 1; omega)

end fill

/-- The counters after `k` iterations. -/
def counters (d : Draws) : ℕ → ℤ × ℤ
  | 0 => (1, 0)
  | k + 1 =>
      let t := drawn_type (d k) (counters d k).1 (counters d k).2
      ((counters d k).1 + t.arity - 1, (counters d k).2 + t.words)

/-- The type drawn in iteration `k`; it depends on the draws alone. -/
def drawnTypes (d : Draws) (k : ℕ) : DmaProgramNodeType :=
  drawn_type (d k) (counters d k).1 (counters d k).2

theorem counters_succ (d : Draws) (k : ℕ) :
    counters d (k + 1) =
      ((counters d k).1 + (drawnTypes d k).arity - 1, (counters d k).2 + (drawnTypes d k).words) := rfl

/-- The first counter counts the open places and the second the words. -/
theorem counters_eq (d : Draws) (k : ℕ) :
    counters d k = ((opened arity (drawnTypes d) k : ℤ) - k, (total words (drawnTypes d) k : ℤ)) := by
  induction k with
  | zero => rfl
  | succ k ih =>
    rw [counters_succ, ih]
    ext
    · simp only [opened]
      omega
    · simp only [total]
      omega

/-- The state after `k` iterations which have drawn the types `τ`: node `i`
was typed by iteration `i`, and the nodes from `k` on are linked in their
order. -/
structure Filled (τ : ℕ → DmaProgramNodeType) (k : ℕ) (s : Filling) : Prop where
  allocated : s.allocated = opened arity τ k
  next_space : s.next_space = if k < opened arity τ k then some k else none
  last_space : s.last_space + 1 = opened arity τ k
  spaces : s.spaces = (opened arity τ k : ℤ) - k
  program_length : s.program_length = total words τ k
  type_eq : ∀ i, (s.heap i).dmapn_type = if i < k then some (τ i) else none
  children : ∀ i < k, (s.heap i).children = (List.range' (opened arity τ i) (τ i).arity).map some
  next : ∀ i, (s.heap i).dmapn_next_space = if i + 1 < opened arity τ k then some (i + 1) else none

theorem filled_start (τ : ℕ → DmaProgramNodeType) : Filled τ 0 .start := by
  constructor
  case next =>
    intro i
    show none = if i + 1 < 1 then some (i + 1) else none
    rw [if_neg (by omega)]
  case children =>
    intro i hi
    omega
  case type_eq =>
    intro i
    rfl
  all_goals rfl

section step
variable {τ : ℕ → DmaProgramNodeType} {k : ℕ} {s : Filling}

theorem fill_fields (space : ℕ) (t : DmaProgramNodeType) (hlast : s.last_space + 1 = s.allocated) :
    (s.fill space t).allocated = s.allocated + t.arity ∧
      (s.fill space t).last_space = s.last_space + t.arity ∧
      (s.fill space t).spaces = s.spaces + t.arity - 1 ∧
      (s.fill space t).program_length = s.program_length + t.words := by
  cases t with
  | DMAPNT_OP =>
    refine ⟨rfl, rfl, ?_, rfl⟩
    show s.spaces - 1 = s.spaces + (0 : ℕ) - 1
    omega
  | DMAPNT_LOOP =>
    refine ⟨rfl, hlast.symm, ?_, rfl⟩
    show s.spaces = s.spaces + (1 : ℕ) - 1
    omega
  | DMAPNT_SEQ =>
    refine ⟨rfl, ?_, ?_, ?_⟩
    · show s.allocated + 1 = s.last_space + 2
      omega
    · show s.spaces + 1 = s.spaces + (2 : ℕ) - 1
      omega
    · show s.program_length = s.program_length + (0 : ℕ)
      omega

/-- **An iteration.** -/
theorem Filled.fill (h : Filled τ k s) (hk : k < opened arity τ k) :
    Filled τ (k + 1) ((s.fill k (τ k)).advance k) := by
  have hlast : s.last_space + 1 = s.allocated := h.last_space.trans h.allocated.symm
  obtain ⟨halloc, hlast', hspaces, hlength⟩ := fill_fields k (τ k) hlast
  -- the new cells come behind the last one, so the links stay those of a queue
  have hnext : ∀ i, ((s.fill k (τ k)).heap i).dmapn_next_space
      = if i + 1 < opened arity τ (k + 1) then some (i + 1) else none := by
    intro i
    have hl := h.last_space
    rw [fill_next hlast, h.next]
    rw [show opened arity τ (k + 1) = opened arity τ k + (τ k).arity from rfl]
    split_ifs <;> first | rfl | omega
  constructor
  case allocated =>
    show (s.fill k (τ k)).allocated = _
    rw [halloc, h.allocated, opened]
  case next_space => exact hnext k
  case last_space =>
    show (s.fill k (τ k)).last_space + 1 = _
    rw [hlast', opened, ← h.last_space]
    omega
  case spaces =>
    show (s.fill k (τ k)).spaces = _
    rw [hspaces, h.spaces, opened]
    omega
  case program_length =>
    show (s.fill k (τ k)).program_length = _
    rw [hlength, h.program_length, total]
    omega
  case type_eq =>
    intro i
    show ((s.fill k (τ k)).heap i).dmapn_type = _
    rw [fill_type, h.type_eq]
    split_ifs <;> first | rfl | omega | (subst_vars; rfl)
  case children =>
    intro i hi
    show ((s.fill k (τ k)).heap i).children = _
    rcases Nat.eq_or_lt_of_le (Nat.le_of_lt_succ hi) with rfl | hlt
    · rw [fill_children_self, h.allocated]
    · rw [fill_children_of_ne (by omega), h.children i hlt]
  case next => exact hnext

end step

/-- The state after `k` iterations. -/
theorem filled_of_fillings {d : Draws} {k : ℕ} {s : Filling} (h : fillings d k = some s) :
    Filled (drawnTypes d) k s := by
  induction k generalizing s with
  | zero =>
    obtain rfl := Option.some.inj h
    exact filled_start _
  | succ k ih =>
    obtain ⟨s₀, hs₀, hs⟩ := Option.bind_eq_some_iff.mp h
    have hfilled := ih hs₀
    split_ifs at hs with h0
    have hk : k < opened arity (drawnTypes d) k := by
      have := hfilled.spaces
      omega
    have htype : drawn_type (d k) s₀.spaces s₀.program_length = drawnTypes d k := by
      rw [drawnTypes, counters_eq, hfilled.spaces, hfilled.program_length]
    rw [fill_space, hfilled.next_space, if_pos hk, Option.map_some, htype] at hs
    obtain rfl := Option.some.inj hs
    exact hfilled.fill hk

/-- As long as a place is open there is a next iteration. -/
theorem exists_fillings {d : Draws} {k : ℕ} (h : ∀ i < k, 0 < (counters d i).1) :
    ∃ s, fillings d k = some s := by
  induction k with
  | zero => exact ⟨_, rfl⟩
  | succ k ih =>
    obtain ⟨s, hs⟩ := ih fun i hi => h i (by omega)
    have hfilled := filled_of_fillings hs
    have hopen := h k (Nat.lt_succ_self k)
    rw [counters_eq] at hopen
    have h0 : s.spaces > 0 := by
      rw [hfilled.spaces]
      exact hopen
    rw [fillings_succ hs h0, fill_space, hfilled.next_space, if_pos (by omega)]
    exact ⟨_, rfl⟩

/-- Before the exit a place is open. -/
theorem open_of_fillings {d : Draws} {n k : ℕ} {s : Filling} (h : fillings d n = some s) (hk : k < n) :
    k < opened arity (drawnTypes d) k := by
  induction n generalizing s with
  | zero => omega
  | succ n ih =>
    obtain ⟨s₀, hs₀, hs⟩ := Option.bind_eq_some_iff.mp h
    rcases Nat.eq_or_lt_of_le (Nat.le_of_lt_succ hk) with rfl | hlt
    · split_ifs at hs with h0
      have := (filled_of_fillings hs₀).spaces
      omega
    · exact ih hs₀ hlt

theorem fillings_before {d : Draws} {n k : ℕ} {s : Filling} (h : fillings d n = some s) (hk : k < n) :
    ∃ s', fillings d k = some s' := by
  rcases hs : fillings d k with - | s'
  · have hnone := fillings_none hs (n - k)
    rw [Nat.add_sub_cancel' hk.le, h] at hnone
    cases hnone
  · exact ⟨s', rfl⟩

/-- At the exit the tree is complete. -/
theorem Exits.complete {d : Draws} {n : ℕ} {s : Filling} (h : Exits d n s) :
    Complete arity (drawnTypes d) n := by
  obtain ⟨hs, hexit⟩ := h
  have hfilled := filled_of_fillings hs
  refine ⟨fun k hk => open_of_fillings hs hk, ?_⟩
  have hle := hfilled.spaces
  rcases n with - | n
  · obtain rfl := Option.some.inj hs
    cases hexit
  · have hopen := open_of_fillings hs (Nat.lt_succ_self n)
    simp only [opened] at hle ⊢
    omega

end Cheritest
