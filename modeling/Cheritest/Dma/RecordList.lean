/-
Cheritest/Dma/RecordList.lean

The list of transfers in memory: list_transfers of dma_test_generation.c.

The records are made by a callback, which gets the tail of the list and links
a new record behind it; the loop then moves its tail if the tail has got a
successor.  The list starts with a false head.  `list_transfers_eq`: the list
in memory is the list of records that `Cheritest.list_transfers` returns.
-/
import Cheritest.Dma.Transfers

namespace Cheritest

open LoopMachine (Block)

namespace RecordList

/-! ### The loop -/

/-- `struct transfer_record` in memory.  The false head holds no record. -/
structure Cell (A : Type*) where
  record : Option (TransferRecord A)
  next : Option ℕ

/-- The offsets of `struct dma_thread`, and the records allocated so far; the
false head is the first. -/
structure Thread (A : Type*) where
  dmat_source : A
  dmat_destination : A
  cells : List (Cell A)

section cells
variable {A : Type*}

/-- `record_transfer`, with the tail for its context. -/
def record_transfer (tail : ℕ) (source destination : A) (size : ℕ) (cells : List (Cell A)) :
    List (Cell A) :=
  cells.modify tail (fun c => { c with next := some cells.length }) ++
    [⟨some ⟨source, destination, size⟩, none⟩]

/-- `cell->next`. -/
def nextOf (cells : List (Cell A)) (cell : ℕ) : Option ℕ := cells[cell]?.bind Cell.next

end cells

section loop
variable {A : Type*} [AddMonoidWithOne A] (targetOf : ℕ → AddTarget)

/-- A transfer or an add of `dma_execute_instruction`; a transfer calls the
callback before the offsets advance. -/
def dma_execute_operation (tail : ℕ) (a : DmaOperation) (t : Thread A) : Thread A :=
  match a with
  | .TRANSFER size =>
      { dmat_source := t.dmat_source + ((2 ^ size : ℕ) : A)
        dmat_destination := t.dmat_destination + ((2 ^ size : ℕ) : A)
        cells := record_transfer tail t.dmat_source t.dmat_destination size t.cells }
  | .ADD target value =>
      match targetOf target with
      | .AT_BOTH =>
          { t with
            dmat_source := t.dmat_source + (value : A)
            dmat_destination := t.dmat_destination + (value : A) }
      | .AT_SOURCE_ONLY => { t with dmat_source := t.dmat_source + (value : A) }
      | .AT_DEST_ONLY => { t with dmat_destination := t.dmat_destination + (value : A) }

/-- The body of the loop. -/
def list_iteration (program : List DmaInstruction) (s : LoopMachine.State (Thread A)) (tail : ℕ) :
    Option (LoopMachine.State (Thread A) × ℕ) :=
  (LoopMachine.step (dma_execute_operation targetOf tail) program s).map fun s =>
    (s, (nextOf s.data.cells tail).getD tail)

/-- The loop, for `fuel` iterations at most. -/
def list_loop (program : List DmaInstruction) :
    ℕ → LoopMachine.State (Thread A) × ℕ → Option (LoopMachine.State (Thread A) × ℕ)
  | 0, x => if x.1.stopped then some x else none
  | fuel + 1, x =>
      if x.1.stopped then some x
      else (list_iteration targetOf program x.1 x.2).bind (list_loop program fuel)

/-- `list_transfers`: the memory, and the pointer that is returned. -/
def list_transfers (counter : ℕ → ℕ) (program : List DmaInstruction) (fuel : ℕ) :
    Option (List (Cell A) × Option ℕ) :=
  (list_loop targetOf program fuel (.at 0 counter ⟨0, 0, [⟨none, none⟩]⟩, 0)).map fun x =>
    (x.1.data.cells, nextOf x.1.data.cells 0)

end loop

/-! ### The list in memory is the list of records -/

section cells
variable {A : Type*}

/-- The list that starts at a pointer. -/
inductive Chain (cells : List (Cell A)) : Option ℕ → List (TransferRecord A) → Prop
  | nil : Chain cells none []
  | cons {a : ℕ} {r : TransferRecord A} {next : Option ℕ} {l : List (TransferRecord A)} :
      cells[a]? = some ⟨some r, next⟩ → Chain cells next l → Chain cells (some a) (r :: l)

/-- There is only one. -/
theorem Chain.unique {cells : List (Cell A)} {p : Option ℕ} {l l' : List (TransferRecord A)}
    (h : Chain cells p l) (h' : Chain cells p l') : l = l' := by
  induction h generalizing l' with
  | nil =>
    cases h'
    rfl
  | cons hcell _ ih =>
    rcases h' with - | ⟨hcell', hrest⟩
    rw [hcell] at hcell'
    obtain ⟨hr, rfl⟩ := Cell.mk.inj (Option.some.inj hcell')
    rw [Option.some.inj hr, ih hrest]

/-- The records `l` in memory, each linked to the next. -/
structure Linked (cells : List (Cell A)) (l : List (TransferRecord A)) : Prop where
  length : cells.length = l.length + 1
  record : ∀ i, (cells[i + 1]?).bind Cell.record = l[i]?
  next : ∀ i, nextOf cells i = if i < l.length then some (i + 1) else none

theorem linked_nil : Linked [(⟨none, none⟩ : Cell A)] [] where
  length := rfl
  record i := by simp
  next i := by
    cases i with
    | zero => rfl
    | succ i => simp [nextOf]

theorem getElem?_record_transfer {cells : List (Cell A)} {tail size i : ℕ} {source destination : A} :
    (record_transfer tail source destination size cells)[i]? =
      if i < cells.length then
        cells[i]?.map fun c => if tail = i then { c with next := some cells.length } else c
      else if i = cells.length then some ⟨some ⟨source, destination, size⟩, none⟩
      else none := by
  unfold record_transfer
  rcases Nat.lt_trichotomy i cells.length with hlt | rfl | hgt
  · rw [if_pos hlt, List.getElem?_append_left (by simpa using hlt), List.getElem?_modify]
    rfl
  · rw [if_neg (Nat.lt_irrefl _), if_pos rfl, List.getElem?_append_right (by simp),
      List.length_modify, Nat.sub_self]
    rfl
  · rw [if_neg (by omega), if_neg (by omega), List.getElem?_eq_none]
    rw [List.length_append, List.length_modify, List.length_singleton]
    omega

/-- A new record goes behind the last one. -/
theorem Linked.record_transfer {cells : List (Cell A)} {l : List (TransferRecord A)}
    (h : Linked cells l) (source destination : A) (size : ℕ) :
    Linked (record_transfer l.length source destination size cells)
      (l ++ [⟨source, destination, size⟩]) := by
  have hlen := h.length
  constructor
  case length => simp [RecordList.record_transfer, hlen]
  case record =>
    intro i
    rw [getElem?_record_transfer, hlen]
    -- a cell before the new one, the new one, and those behind it
    rcases Nat.lt_trichotomy i l.length with hlt | rfl | hgt
    · rw [if_pos (by omega), List.getElem?_append_left hlt, ← h.record i]
      rcases cells[i + 1]? with - | c
      · rfl
      · rw [Option.map_some, Option.bind_some, Option.bind_some]
        split_ifs <;> rfl
    · rw [if_neg (by omega), if_pos rfl, List.getElem?_concat_length]
      rfl
    · rw [if_neg (by omega), if_neg (by omega), List.getElem?_eq_none]
      · rfl
      · rw [List.length_append, List.length_singleton]
        omega
  case next =>
    intro i
    have hi := h.next i
    unfold nextOf at hi ⊢
    rw [getElem?_record_transfer, List.length_append, List.length_singleton, hlen]
    rcases Nat.lt_trichotomy i l.length with hlt | rfl | hgt
    · rw [if_pos (by omega), if_pos (by omega)]
      rw [if_pos hlt] at hi
      obtain ⟨c, hc, hnext⟩ := Option.bind_eq_some_iff.mp hi
      rw [hc, Option.map_some, Option.bind_some, if_neg (by omega)]
      exact hnext
    · have hc : l.length < cells.length := by omega
      rw [if_pos (by omega), if_pos (by omega), List.getElem?_eq_getElem hc, Option.map_some,
        Option.bind_some, if_pos rfl]
    · rw [if_neg (by omega), if_neg (show ¬ i < l.length + 1 by omega)]
      split_ifs <;> rfl

/-- The list starts behind the false head. -/
theorem Linked.chain {cells : List (Cell A)} {l : List (TransferRecord A)} (h : Linked cells l) :
    Chain cells (nextOf cells 0) l := by
  have hfrom : ∀ k j, k + j = l.length → Chain cells (nextOf cells j) (l.drop j) := by
    intro k
    induction k with
    | zero =>
      intro j hj
      rw [h.next, if_neg (by omega), List.drop_eq_nil_of_le (by omega)]
      exact .nil
    | succ k ih =>
      intro j hj
      have hlt : j < l.length := by omega
      have hrecord := h.record j
      rw [List.getElem?_eq_getElem hlt] at hrecord
      obtain ⟨⟨r, next⟩, hc, rfl⟩ := Option.bind_eq_some_iff.mp hrecord
      have hrest := ih (j + 1) (by omega)
      rw [nextOf, hc, Option.bind_some] at hrest
      rw [h.next, if_pos hlt, List.drop_eq_getElem_cons hlt]
      exact .cons hc hrest
  exact hfrom l.length 0 rfl

end cells

section refine
variable {A : Type*}

/-- A thread with its records in memory. -/
structure Lists (t : Thread A) (d : DmaThread A) : Prop where
  source : t.dmat_source = d.dmat_source
  destination : t.dmat_destination = d.dmat_destination
  linked : Linked t.cells d.recorded

/-- An operation leaves the tail at the last record or at the one before. -/
structure ListsBehind (tail : ℕ) (t : Thread A) (d : DmaThread A) : Prop where
  lists : Lists t d
  behind : tail = d.recorded.length ∨ tail + 1 = d.recorded.length

theorem ListsBehind.tail {tail : ℕ} {t : Thread A} {d : DmaThread A} (h : ListsBehind tail t d) :
    (nextOf t.cells tail).getD tail = d.recorded.length := by
  rw [h.lists.linked.next]
  rcases h.behind with rfl | htail
  · rw [if_neg (Nat.lt_irrefl _)]
    rfl
  · rw [if_pos (by omega)]
    exact htail

variable [AddMonoidWithOne A] {targetOf : ℕ → AddTarget} {program : List DmaInstruction}

theorem Lists.operation {t : Thread A} {d : DmaThread A} (h : Lists t d) (a : DmaOperation) :
    ListsBehind d.recorded.length (dma_execute_operation targetOf d.recorded.length a t)
      (Cheritest.dma_execute_operation targetOf a d) := by
  obtain ⟨hs, hd, hlinked⟩ := h
  cases a with
  | TRANSFER size =>
    refine ⟨⟨?_, ?_, ?_⟩, .inr ?_⟩
    · simp [dma_execute_operation, Cheritest.dma_execute_operation, hs]
    · simp [dma_execute_operation, Cheritest.dma_execute_operation, hd]
    · show Linked (record_transfer _ t.dmat_source t.dmat_destination size t.cells) _
      rw [hs, hd]
      exact hlinked.record_transfer _ _ _
    · simp [Cheritest.dma_execute_operation, Cheritest.record_transfer]
  | ADD target value =>
    cases hT : targetOf target <;>
      exact ⟨⟨by simp [dma_execute_operation, Cheritest.dma_execute_operation, hT, hs],
        by simp [dma_execute_operation, Cheritest.dma_execute_operation, hT, hd],
        by simpa [dma_execute_operation, Cheritest.dma_execute_operation, hT] using hlinked⟩,
        .inl (by simp [Cheritest.dma_execute_operation, hT])⟩

variable (targetOf program) (counter : ℕ → ℕ)

/-- An iteration: the tail lags behind until the loop moves it. -/
theorem list_iteration_eq {t : Thread A} {d : DmaThread A} (h : Lists t d) (pc : ℕ) (stopped : Bool) :
    list_iteration targetOf program ⟨pc, counter, t, stopped⟩ d.recorded.length = none ∧
        LoopMachine.step (Cheritest.dma_execute_operation targetOf) program
          ⟨pc, counter, d, stopped⟩ = none ∨
      ∃ pc₁ counter₁ stopped₁ t₁ d₁,
        list_iteration targetOf program ⟨pc, counter, t, stopped⟩ d.recorded.length =
          some (⟨pc₁, counter₁, t₁, stopped₁⟩, d₁.recorded.length) ∧
        LoopMachine.step (Cheritest.dma_execute_operation targetOf) program
          ⟨pc, counter, d, stopped⟩ = some ⟨pc₁, counter₁, d₁, stopped₁⟩ ∧ Lists t₁ d₁ := by
  have hkeep {t' : Thread A} {d' : DmaThread A} (h : Lists t' d' ∧ d' = d) :
      ListsBehind d.recorded.length t' d' := ⟨h.1, .inl (by rw [h.2])⟩
  have hact (a : DmaOperation) {t' : Thread A} {d' : DmaThread A} (h : Lists t' d' ∧ d' = d) :
      ListsBehind d.recorded.length (dma_execute_operation targetOf d.recorded.length a t')
        (Cheritest.dma_execute_operation targetOf a d') := by
    obtain ⟨hlists, rfl⟩ := h
    exact hlists.operation a
  unfold list_iteration
  rcases LoopMachine.step_related hkeep hact ⟨h, rfl⟩ with
    ⟨hnone, hnone'⟩ | ⟨pc₁, counter₁, stopped₁, t₁, d₁, hsome, hsome', hbehind⟩
  · rw [hnone]
    exact .inl ⟨rfl, hnone'⟩
  · refine .inr ⟨pc₁, counter₁, stopped₁, t₁, d₁, ?_, hsome', hbehind.lists⟩
    rw [hsome, Option.map_some, hbehind.tail]

/-- The loop and the engine run in step. -/
theorem list_loop_eq {t : Thread A} {d : DmaThread A} (h : Lists t d) (pc : ℕ) (stopped : Bool)
    (fuel : ℕ) :
    list_loop targetOf program fuel (⟨pc, counter, t, stopped⟩, d.recorded.length) = none ∧
        LoopMachine.exec (Cheritest.dma_execute_operation targetOf) program fuel
          ⟨pc, counter, d, stopped⟩ = none ∨
      ∃ x e, list_loop targetOf program fuel (⟨pc, counter, t, stopped⟩, d.recorded.length) = some x ∧
        LoopMachine.exec (Cheritest.dma_execute_operation targetOf) program fuel
          ⟨pc, counter, d, stopped⟩ = some e ∧ Lists x.1.data e.data := by
  induction fuel generalizing pc counter stopped t d with
  | zero =>
    unfold list_loop LoopMachine.exec
    by_cases hstop : stopped = true
    · rw [if_pos hstop, if_pos hstop]
      exact .inr ⟨_, _, rfl, rfl, h⟩
    · rw [if_neg hstop, if_neg hstop]
      exact .inl ⟨rfl, rfl⟩
  | succ fuel ih =>
    unfold list_loop LoopMachine.exec
    by_cases hstop : stopped = true
    · rw [if_pos hstop, if_pos hstop]
      exact .inr ⟨_, _, rfl, rfl, h⟩
    · rw [if_neg hstop, if_neg hstop]
      rcases list_iteration_eq targetOf program counter h pc stopped with
        ⟨hnone, hnone'⟩ | ⟨pc₁, counter₁, stopped₁, t₁, d₁, hsome, hsome', hlists⟩
      · rw [hnone, hnone']
        exact .inl ⟨rfl, rfl⟩
      · rw [hsome, hsome', Option.bind_some, Option.bind_some]
        exact ih counter₁ hlists pc₁ stopped₁

/-- **The list in memory is the list of records.** -/
theorem list_transfers_eq (fuel : ℕ) :
    list_transfers (A := A) targetOf counter program fuel = none ∧
        Cheritest.list_transfers (A := A) targetOf counter program fuel = none ∨
      ∃ cells head l, list_transfers (A := A) targetOf counter program fuel = some (cells, head) ∧
        Cheritest.list_transfers targetOf counter program fuel = some l ∧ Chain cells head l := by
  have hstart : Lists ⟨0, 0, [⟨none, none⟩]⟩ (⟨0, 0, []⟩ : DmaThread A) := ⟨rfl, rfl, linked_nil⟩
  unfold list_transfers Cheritest.list_transfers
  rcases list_loop_eq targetOf program counter hstart 0 false fuel with
    ⟨hnone, hnone'⟩ | ⟨x, e, hsome, hsome', hlists⟩
  · left
    exact ⟨congrArg _ hnone, congrArg _ hnone'⟩
  · right
    exact ⟨_, _, _, congrArg _ hsome, congrArg _ hsome', hlists.linked.chain⟩

/-- What `list_transfers` returns for a program. -/
def Returns (program : List DmaInstruction) (l : List (TransferRecord A)) : Prop :=
  ∃ fuel cells head, list_transfers (A := A) targetOf counter program fuel = some (cells, head) ∧
    Chain cells head l

variable {counter program}

theorem returns_iff {l : List (TransferRecord A)} :
    Returns targetOf counter program l ↔
      ∃ fuel, Cheritest.list_transfers targetOf counter program fuel = some l := by
  constructor
  · rintro ⟨fuel, cells, head, hsome, hchain⟩
    rcases list_transfers_eq (A := A) targetOf program counter fuel with
      ⟨hnone, -⟩ | ⟨cells', head', l', hsome', hl', hchain'⟩
    · rw [hsome] at hnone
      cases hnone
    · rw [hsome] at hsome'
      obtain ⟨rfl, rfl⟩ := Prod.mk.inj (Option.some.inj hsome')
      exact ⟨fuel, by rw [hl', hchain.unique hchain']⟩
  · rintro ⟨fuel, hl⟩
    rcases list_transfers_eq (A := A) targetOf program counter fuel with
      ⟨-, hnone⟩ | ⟨cells, head, l', hsome, hl', hchain⟩
    · rw [hl] at hnone
      cases hnone
    · rw [hl] at hl'
      obtain rfl := Option.some.inj hl'
      exact ⟨fuel, cells, head, hsome, hchain⟩

end refine

end RecordList

end Cheritest
