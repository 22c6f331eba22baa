/-
Cheritest/Dma/Transfers.lean

The transfers of a DMA program: list_transfers of dma_test_generation.c.

`list_transfers` runs a program on the model of the DMA engine, from offsets
0, and records every transfer.  The engine is the loop machine whose data are
the current source and destination and the records so far: a transfer is
recorded before both offsets advance by its size, and an add advances the
source, the destination or both.  How the numbers 0, 1, 2 name the three
targets of an add is a parameter.

Offsets are of any type with an addition.  The code's are 64 bits wide; over
the natural numbers they are what they would be without the wrap, and
`transfers_cast` says that the code's are these modulo 2^64.

`advancing_transfers`: the transfers of a generated program walk forwards
without overlap.
-/
import Cheritest.Dma.Program
import Mathlib.Data.BitVec
import Mathlib.Data.Nat.Cast.Defs

namespace Cheritest

open LoopMachine (Block)

/-! ### Running a program for its transfers -/

/-- `struct transfer_record`. -/
structure TransferRecord (A : Type*) where
  source : A
  destination : A
  size : ℕ
  deriving DecidableEq, Repr

/-- What the engine adds to. -/
inductive AddTarget
  | AT_BOTH | AT_SOURCE_ONLY | AT_DEST_ONLY
  deriving DecidableEq, Repr

/-- The offsets of `struct dma_thread`, and the records made so far. -/
structure DmaThread (A : Type*) where
  dmat_source : A
  dmat_destination : A
  recorded : List (TransferRecord A)

section engine
variable {A : Type*} [AddMonoidWithOne A] (targetOf : ℕ → AddTarget)

/-- `record_transfer`. -/
def record_transfer (t : DmaThread A) (size : ℕ) : DmaThread A :=
  { t with recorded := t.recorded ++ [⟨t.dmat_source, t.dmat_destination, size⟩] }

/-- A transfer or an add of `dma_execute_instruction`. -/
def dma_execute_operation (a : DmaOperation) (t : DmaThread A) : DmaThread A :=
  match a with
  | .TRANSFER size =>
      { record_transfer t size with
        dmat_source := t.dmat_source + ((2 ^ size : ℕ) : A)
        dmat_destination := t.dmat_destination + ((2 ^ size : ℕ) : A) }
  | .ADD target value =>
      match targetOf target with
      | .AT_BOTH =>
          { t with
            dmat_source := t.dmat_source + (value : A)
            dmat_destination := t.dmat_destination + (value : A) }
      | .AT_SOURCE_ONLY => { t with dmat_source := t.dmat_source + (value : A) }
      | .AT_DEST_ONLY => { t with dmat_destination := t.dmat_destination + (value : A) }

/-- `list_transfers`, the loop counters holding anything at first; `none` if
the program has not stopped after `fuel` instructions. -/
def list_transfers (counter : ℕ → ℕ) (program : List DmaInstruction) (fuel : ℕ) :
    Option (List (TransferRecord A)) :=
  (LoopMachine.exec (dma_execute_operation targetOf) program fuel (.at 0 counter ⟨0, 0, []⟩)).map
    fun s => s.data.recorded

theorem recorded_add (target value : ℕ) (t : DmaThread A) :
    (dma_execute_operation targetOf (.ADD target value) t).recorded = t.recorded := by
  cases hT : targetOf target <;> simp [dma_execute_operation, hT]

/-- Where a sequence of operations leaves the thread. -/
def dma_execute_operations (ops : List DmaOperation) (t : DmaThread A) : DmaThread A :=
  ops.foldl (fun t a => dma_execute_operation targetOf a t) t

/-- The transfers of a sequence of operations. -/
def transfers (ops : List DmaOperation) : List (TransferRecord A) :=
  (dma_execute_operations targetOf ops ⟨0, 0, []⟩).recorded

/-- For the code of a block, `list_transfers` returns, and what it returns
are the transfers of the block's operations. -/
theorem list_transfers_compile (b : Block DmaOperation) (counter : ℕ → ℕ)
    (l : List (TransferRecord A)) :
    (∃ fuel, list_transfers targetOf counter (b.compile 0 ++ [DMA_OP_STOP]) fuel = some l) ↔
      l = transfers targetOf b.meaning := by
  obtain ⟨counter', hrun⟩ := b.run_stop (dma_execute_operation targetOf) 0 counter
    (⟨0, 0, []⟩ : DmaThread A)
  constructor
  · rintro ⟨fuel, h⟩
    obtain ⟨e, he, rfl⟩ := Option.map_eq_some_iff.mp h
    rw [LoopMachine.exec_unique hrun rfl he]
    rfl
  · rintro rfl
    obtain ⟨fuel, hf⟩ := LoopMachine.exec_of_steps hrun rfl
    refine ⟨fuel, ?_⟩
    rw [list_transfers, hf]
    rfl

/-- What `list_transfers` returns for a program, the loop counters holding
anything at first. -/
def TransfersOf (program : List DmaInstruction) (l : List (TransferRecord A)) : Prop :=
  ∃ counter fuel, list_transfers targetOf counter program fuel = some l

theorem transfersOf_compile (b : Block DmaOperation) (l : List (TransferRecord A)) :
    TransfersOf targetOf (b.compile 0 ++ [DMA_OP_STOP]) l ↔ l = transfers targetOf b.meaning := by
  constructor
  · rintro ⟨counter, h⟩
    exact (list_transfers_compile targetOf b counter l).mp h
  · intro h
    exact ⟨fun _ => 0, (list_transfers_compile targetOf b _ l).mpr h⟩

end engine

/-! ### Generated programs -/

/-- The programs that the generator makes. -/
def Generated (program : List DmaInstruction) : Prop :=
  ∃ t d d', generate_random_dma_program t d = some (program, d')

/-- Operations as the writer makes them for a transfer size. -/
def DmaOperation.Sized (ts : ℕ) : DmaOperation → Prop
  | TRANSFER size => size = ts
  | ADD _ value => 2 ^ ts ∣ value

theorem sized_dmapnBlock (ts : ℕ) (t : DmaProgramNode) (d : Draws) :
    ∀ a ∈ (dmapnBlock ts t d).1.meaning, a.Sized ts := by
  induction t generalizing d with
  | DMAPNT_LOOP body ih =>
    intro a ha
    obtain ⟨l, hl, hal⟩ := List.mem_flatten.mp ha
    rw [List.eq_of_mem_replicate hl] at hal
    exact ih _ a hal
  | DMAPNT_SEQ left right ihl ihr =>
    intro a ha
    rcases List.mem_append.mp ha with h | h
    · exact ihl _ a h
    · exact ihr _ a h
  | DMAPNT_OP =>
    intro a ha
    obtain rfl := List.mem_singleton.mp ha
    show (dmapnOp ts d).1.Sized ts
    unfold dmapnOp
    split_ifs
    · rfl
    · exact Nat.dvd_mul_right _ _

/-- The writer's assertion bounds the nesting. -/
theorem loopDepth_of_write {ts level : ℕ} {t : DmaProgramNode} {d d' : Draws}
    {code : List DmaInstruction} (h : write_random_dma_program ts t level d = some (code, d')) :
    level + t.loopDepth ≤ 4 := by
  -- the assertion at each node bounds the level it is reached at
  induction t generalizing level d code d' with
  | DMAPNT_LOOP body ih =>
    simp only [write_random_dma_program, assertGen, myrand, bind, StateT.bind,
      gen_pure] at h
    by_cases hl : level ≤ 4
    · simp only [hl, if_true, Option.bind_some] at h
      obtain ⟨⟨body_code, d₁⟩, hbody, -⟩ := Option.bind_eq_some_iff.mp h
      have hdepth := ih hbody
      simp only [DmaProgramNode.loopDepth]
      omega
    · simp [hl] at h
  | DMAPNT_SEQ left right ihl ihr =>
    simp only [write_random_dma_program, assertGen, bind, StateT.bind, gen_pure] at h
    by_cases hl : level ≤ 4
    · simp only [hl, if_true, Option.bind_some] at h
      obtain ⟨⟨first, d₁⟩, hleft, hrest⟩ := Option.bind_eq_some_iff.mp h
      obtain ⟨⟨second, d₂⟩, hright, -⟩ := Option.bind_eq_some_iff.mp hrest
      have h₁ := ihl hleft
      have h₂ := ihr hright
      simp only [DmaProgramNode.loopDepth]
      omega
    · simp [hl] at h
  | DMAPNT_OP =>
    by_cases hl : level ≤ 4
    · exact hl
    · simp [write_random_dma_program, assertGen, hl, bind, StateT.bind] at h

/-- A generated program is the code of a tree that the loop registers can
hold. -/
theorem Generated.exists_tree {program : List DmaInstruction} (h : Generated program) :
    ∃ (t : DmaProgramNode) (d : Draws), t.loopDepth ≤ 4 ∧
      program = (dmapnBlock (d 0 % 6) t fun k => d (k + 1)).1.compile 0 ++ [DMA_OP_STOP] := by
  obtain ⟨t, d, d', h⟩ := h
  have hdepth : t.loopDepth ≤ 4 := by
    simp only [generate_random_dma_program, myrand, bind, StateT.bind, gen_pure,
      Option.bind_some] at h
    obtain ⟨⟨code, d₁⟩, hwrite, -⟩ := Option.bind_eq_some_iff.mp h
    have hle := loopDepth_of_write hwrite
    omega
  rw [generate_random_dma_program_eq hdepth] at h
  exact ⟨t, d, hdepth, (Prod.mk.inj (Option.some.inj h)).1.symm⟩

/-- Its operations all have the one size that was drawn. -/
theorem Generated.eq_compile {program : List DmaInstruction} (h : Generated program) :
    ∃ (b : Block DmaOperation) (ts : ℕ), program = b.compile 0 ++ [DMA_OP_STOP] ∧
      ∀ a ∈ b.meaning, a.Sized ts := by
  obtain ⟨t, d, -, rfl⟩ := h.exists_tree
  exact ⟨_, _, rfl, sized_dmapnBlock _ _ _⟩

/-! ### The walk of the offsets -/

/-- The two offsets of a transfer. -/
inductive Side
  | source | destination

/-- One of the offsets of a transfer. -/
def TransferRecord.offset {A : Type*} (r : TransferRecord A) : Side → A
  | .source => r.source
  | .destination => r.destination

/-- One of the current offsets. -/
def DmaThread.offset {A : Type*} (t : DmaThread A) : Side → A
  | .source => t.dmat_source
  | .destination => t.dmat_destination

/-- Each transfer starts where the ones before it have ended, or later. -/
def Advancing (side : Side) (l : List (TransferRecord ℕ)) : Prop :=
  l.Pairwise fun a b => a.offset side + 2 ^ a.size ≤ b.offset side

/-- What holds of the thread between operations. -/
structure DmaThread.Walking (t : DmaThread ℕ) (side : Side) : Prop where
  advancing : Advancing side t.recorded
  behind : ∀ r ∈ t.recorded, r.offset side + 2 ^ r.size ≤ t.offset side

section walk
variable {targetOf : ℕ → AddTarget} {t : DmaThread ℕ} {side : Side} {a : DmaOperation}

theorem DmaThread.Walking.operation (h : t.Walking side) :
    (dma_execute_operation targetOf a t).Walking side := by
  cases a with
  | TRANSFER size =>
    have hoff : (⟨t.dmat_source, t.dmat_destination, size⟩ : TransferRecord ℕ).offset side
        = t.offset side := by
      cases side <;> rfl
    -- the offset goes on past the transfer just recorded
    have hnew : (dma_execute_operation targetOf (.TRANSFER size) t).offset side
        = t.offset side + 2 ^ size := by
      cases side <;> simp [dma_execute_operation, DmaThread.offset]
    constructor
    · show (t.recorded ++ [_]).Pairwise _
      rw [List.pairwise_append]
      refine ⟨h.advancing, List.pairwise_singleton _ _, fun r hr r' hr' => ?_⟩
      obtain rfl := List.mem_singleton.mp hr'
      rw [hoff]
      exact h.behind r hr
    · intro r hr
      rw [hnew]
      rcases List.mem_append.mp hr with hr | hr
      · exact (h.behind r hr).trans (Nat.le_add_right _ _)
      · obtain rfl := List.mem_singleton.mp hr
        rw [hoff]
  | ADD target value =>
    -- an addition never takes the offset back
    have hle : t.offset side ≤ (dma_execute_operation targetOf (.ADD target value) t).offset side := by
      cases side <;> cases hT : targetOf target <;>
        simp [dma_execute_operation, DmaThread.offset, hT]
    constructor
    · rw [recorded_add]
      exact h.advancing
    · rw [recorded_add]
      exact fun r hr => (h.behind r hr).trans hle

theorem DmaThread.Walking.operations {ops : List DmaOperation} (h : t.Walking side) :
    (dma_execute_operations targetOf ops t).Walking side := by
  induction ops generalizing t with
  | nil => exact h
  | cons a ops ih => exact ih h.operation

/-- **Transfers never go back over what has been transferred.** -/
theorem advancing_transfers (targetOf : ℕ → AddTarget) (ops : List DmaOperation) (side : Side) :
    Advancing side (transfers targetOf ops) := by
  have hstart : DmaThread.Walking ⟨0, 0, []⟩ side := ⟨List.Pairwise.nil, by simp⟩
  exact hstart.operations.advancing

end walk

/-! ### The wrap -/

/-- A record with its offsets taken into another type of addresses. -/
def TransferRecord.cast (A : Type*) [AddMonoidWithOne A] (r : TransferRecord ℕ) : TransferRecord A :=
  ⟨r.source, r.destination, r.size⟩

theorem TransferRecord.offset_cast {A : Type*} [AddMonoidWithOne A] (r : TransferRecord ℕ)
    (side : Side) : (r.cast A).offset side = (r.offset side : A) := by
  cases side <;> rfl

/-- The thread with its offsets taken into another type of addresses. -/
def DmaThread.cast (A : Type*) [AddMonoidWithOne A] (t : DmaThread ℕ) : DmaThread A :=
  ⟨t.dmat_source, t.dmat_destination, t.recorded.map (TransferRecord.cast A)⟩

section cast
variable {A : Type*} [AddMonoidWithOne A] (targetOf : ℕ → AddTarget)

theorem dma_execute_operation_cast (a : DmaOperation) (t : DmaThread ℕ) :
    dma_execute_operation targetOf a (t.cast A) = (dma_execute_operation targetOf a t).cast A := by
  cases a with
  | TRANSFER size =>
    simp [dma_execute_operation, record_transfer, DmaThread.cast, TransferRecord.cast]
  | ADD target value =>
    cases hT : targetOf target <;> simp [dma_execute_operation, DmaThread.cast, hT]

/-- The transfers in a type of addresses are the unbounded ones taken into
it. -/
theorem transfers_cast (ops : List DmaOperation) :
    transfers targetOf ops = (transfers targetOf ops : List (TransferRecord ℕ)).map (.cast A) := by
  have hops : ∀ t : DmaThread ℕ, dma_execute_operations targetOf ops (t.cast A)
      = (dma_execute_operations targetOf ops t).cast A := by
    induction ops with
    | nil => exact fun _ => rfl
    | cons a ops ih =>
      intro t
      show dma_execute_operations targetOf ops (dma_execute_operation targetOf a (t.cast A)) = _
      rw [dma_execute_operation_cast, ih]
      rfl
  have hstart : (⟨0, 0, []⟩ : DmaThread A) = DmaThread.cast A ⟨0, 0, []⟩ := by
    simp [DmaThread.cast]
  rw [transfers, hstart, hops]
  rfl

/-- The transfers of a generated program advance on both sides, and are the
unbounded ones taken into the type of addresses. -/
theorem Generated.transfersOf {program : List DmaInstruction} (h : Generated program)
    {l : List (TransferRecord A)} (hl : TransfersOf targetOf program l)
    {l' : List (TransferRecord ℕ)} (hl' : TransfersOf targetOf program l') :
    l = l'.map (.cast A) ∧ ∀ side, Advancing side l' := by
  obtain ⟨b, ts, rfl, -⟩ := h.eq_compile
  rw [transfersOf_compile] at hl hl'
  subst hl hl'
  exact ⟨transfers_cast targetOf _, advancing_transfers targetOf _⟩

end cast

end Cheritest
