/-
Cheritest/Dma/Program.lean

Random DMA programs: dma_test_generation.c from the structure tree to the
instructions.

`write_random_dma_program` turns a tree of loops, sequences and operations
into code, drawing loop counts and operations as it goes.  The DMA engine is
the loop machine with transfers and adds for actions; `dmapnBlock` is the
structured program that a tree stands for, given the draws, and
`write_random_dma_program_correct` says that the code runs exactly its
operations.

A draw is any number: nothing here depends on the generator's range.
Lengths are counted without bound, as for any tree that fits in memory.
-/
import Mathlib.Algebra.Group.Nat.Defs
import Cheritest.Lib.LoopMachine

namespace Cheritest

open LoopMachine (Block)

/-! ### Instructions -/

/-- The operations of a DMA program: transfer 2^size bytes, or add to the
source, the destination or both. -/
inductive DmaOperation
  | TRANSFER (size : ℕ)
  | ADD (target value : ℕ)
  deriving DecidableEq, Repr

/-- DMA instructions. -/
abbrev DmaInstruction := LoopMachine.Insn DmaOperation

abbrev DMA_OP_SET (reg value : ℕ) : DmaInstruction := .set reg value
abbrev DMA_OP_LOOP (reg back : ℕ) : DmaInstruction := .loop reg back
abbrev DMA_OP_TRANSFER (size : ℕ) : DmaInstruction := .act (.TRANSFER size)
abbrev DMA_OP_ADD (target value : ℕ) : DmaInstruction := .act (.ADD target value)
abbrev DMA_OP_STOP : DmaInstruction := .stop

/-! ### Random numbers -/

/-- The numbers that `myrand` is going to return. -/
abbrev Draws := ℕ → ℕ

/-- Generation: it draws random numbers and may fail an assertion. -/
abbrev Gen := StateT Draws Option

theorem gen_pure {α : Type} (a : α) (d : Draws) : (pure a : Gen α) d = some (a, d) := rfl

/-- `myrand`. -/
def myrand : Gen ℕ := fun d => some (d 0, fun k => d (k + 1))

/-- `assert`. -/
def assertGen (c : Prop) [Decidable c] : Gen Unit := fun d => if c then some ((), d) else none

/-! ### Trees -/

/-- `struct dma_program_node`, with the children its type uses. -/
inductive DmaProgramNode
  | DMAPNT_LOOP (left_child : DmaProgramNode)
  | DMAPNT_SEQ (left_child right_child : DmaProgramNode)
  | DMAPNT_OP
  deriving DecidableEq, Repr

/-- How deep the loops of a tree nest. -/
def DmaProgramNode.loopDepth : DmaProgramNode → ℕ
  | DMAPNT_LOOP body => body.loopDepth + 1
  | DMAPNT_SEQ left right => max left.loopDepth right.loopDepth
  | DMAPNT_OP => 0

/-- `dma_program_length`. -/
def dma_program_length : DmaProgramNode → ℕ
  | .DMAPNT_LOOP body => 2 + dma_program_length body
  | .DMAPNT_SEQ left right => dma_program_length left + dma_program_length right
  | .DMAPNT_OP => 1

/-- `write_random_dma_program`: the words written from `*next_pp` on.  The
two draws of an add are taken from left to right. -/
def write_random_dma_program (ts : ℕ) : DmaProgramNode → ℕ → Gen (List DmaInstruction)
  | .DMAPNT_LOOP body, loop_level => do
      assertGen (loop_level ≤ 4)
      let count ← myrand
      let code ← write_random_dma_program ts body (loop_level + 1)
      let body_length := dma_program_length body
      return DMA_OP_SET loop_level (1 + count % 5) :: code ++ [DMA_OP_LOOP loop_level body_length]
  | .DMAPNT_SEQ left right, loop_level => do
      assertGen (loop_level ≤ 4)
      let first ← write_random_dma_program ts left loop_level
      let second ← write_random_dma_program ts right loop_level
      return first ++ second
  | .DMAPNT_OP, loop_level => do
      assertGen (loop_level ≤ 4)
      if (← myrand) % 2 = 0 then
        return [DMA_OP_TRANSFER ts]
      else do
        let target ← myrand
        let factor ← myrand
        return [DMA_OP_ADD (target % 3) (2 ^ ts * (factor % 20))]

/-- `generate_random_dma_program`, from the structure on: the transfer size
is drawn before anything is written, and the program ends in a stop. -/
def generate_random_dma_program (structure_ : DmaProgramNode) : Gen (List DmaInstruction) := do
  let ts ← myrand
  let code ← write_random_dma_program (ts % 6) structure_ 0
  return code ++ [DMA_OP_STOP]

/-! ### What a tree means -/

/-- The operation that an OP node becomes. -/
def dmapnOp (ts : ℕ) (d : Draws) : DmaOperation × Draws :=
  if d 0 % 2 = 0 then (.TRANSFER ts, fun k => d (k + 1))
  else (.ADD (d 1 % 3) (2 ^ ts * (d 2 % 20)), fun k => d (k + 3))

/-- The structured program a tree stands for, and the draws left over. -/
def dmapnBlock (ts : ℕ) : DmaProgramNode → Draws → Block DmaOperation × Draws
  | .DMAPNT_LOOP body, d =>
      let b := dmapnBlock ts body fun k => d (k + 1)
      (.loop (1 + d 0 % 5) b.1, b.2)
  | .DMAPNT_SEQ left right, d =>
      let l := dmapnBlock ts left d
      let r := dmapnBlock ts right l.2
      (.seq l.1 r.1, r.2)
  | .DMAPNT_OP, d => (.op (dmapnOp ts d).1, (dmapnOp ts d).2)

section meaning
variable {ts : ℕ} {t : DmaProgramNode} {d : Draws}

theorem words_dmapnBlock : (dmapnBlock ts t d).1.words = dma_program_length t := by
  induction t generalizing d with
  | DMAPNT_LOOP body ih => simp [dmapnBlock, Block.words, dma_program_length, ih]
  | DMAPNT_SEQ left right ihl ihr =>
    simp [dmapnBlock, Block.words, dma_program_length, ihl, ihr]
  | DMAPNT_OP => rfl

theorem depth_dmapnBlock : (dmapnBlock ts t d).1.depth = t.loopDepth := by
  induction t generalizing d with
  | DMAPNT_LOOP body ih => simp [dmapnBlock, Block.depth, DmaProgramNode.loopDepth, ih]
  | DMAPNT_SEQ left right ihl ihr =>
    simp [dmapnBlock, Block.depth, DmaProgramNode.loopDepth, ihl, ihr]
  | DMAPNT_OP => rfl

/-- The writer emits the code of the block, as long as the loops do not nest
beyond the assertion. -/
theorem write_random_dma_program_eq (ts : ℕ) (d : Draws) {level : ℕ} (h : level + t.loopDepth ≤ 4) :
    write_random_dma_program ts t level d
      = some ((dmapnBlock ts t d).1.compile level, (dmapnBlock ts t d).2) := by
  induction t generalizing level d with
  | DMAPNT_LOOP body ih =>
    simp only [DmaProgramNode.loopDepth] at h
    have hbody := ih (fun k => d (k + 1)) (show level + 1 + body.loopDepth ≤ 4 by omega)
    have hlevel : level ≤ 4 := by omega
    simp [write_random_dma_program, assertGen, myrand, hlevel, hbody, dmapnBlock, Block.compile,
      words_dmapnBlock, StateT.bind, bind, gen_pure]
  | DMAPNT_SEQ left right ihl ihr =>
    simp only [DmaProgramNode.loopDepth] at h
    have hleft := ihl d (show level + left.loopDepth ≤ 4 by omega)
    have hright := ihr (dmapnBlock ts left d).2 (show level + right.loopDepth ≤ 4 by omega)
    have hlevel : level ≤ 4 := by omega
    simp [write_random_dma_program, assertGen, hlevel, hleft, hright, dmapnBlock, Block.compile,
      StateT.bind, bind, gen_pure]
  | DMAPNT_OP =>
    simp only [DmaProgramNode.loopDepth] at h
    have hlevel : level ≤ 4 := by omega
    by_cases heven : d 0 % 2 = 0
    · simp [write_random_dma_program, assertGen, myrand, hlevel, heven, dmapnBlock, dmapnOp,
        Block.compile, StateT.bind, bind, gen_pure]
    · simp [write_random_dma_program, assertGen, myrand, hlevel, heven, dmapnBlock, dmapnOp,
        Block.compile, StateT.bind, bind, gen_pure]

end meaning

/-! ### Correctness -/

/-- Record an operation. -/
def recordOp (a : DmaOperation) (done : List DmaOperation) : List DmaOperation := done ++ [a]

theorem foldl_recordOp (l done : List DmaOperation) :
    l.foldl (fun d a => recordOp a d) done = done ++ l := by
  induction l generalizing done with
  | nil => simp
  | cons a l ih => rw [List.foldl_cons, ih, recordOp, List.append_assoc, List.singleton_append]

/-- Whatever the loop counters hold at first, a run of the program from its
first word comes to a stop having performed exactly `ops`, and until then it
stays inside the program. -/
def Performs (program : List DmaInstruction) (ops : List DmaOperation) : Prop :=
  ∀ counter, ∃ e, LoopMachine.Steps recordOp program (.at 0 counter []) e ∧
    e.stopped = true ∧ e.data = ops ∧
    ∀ s, LoopMachine.Steps recordOp program (.at 0 counter []) s →
      s.pc < program.length ∧ LoopMachine.Steps recordOp program s e

theorem performs_compile (b : Block DmaOperation) :
    Performs (b.compile 0 ++ [DMA_OP_STOP]) b.meaning := by
  intro counter
  obtain ⟨counter', h⟩ := b.run_stop recordOp 0 counter []
  refine ⟨_, h, rfl, ?_, fun s hs => h.inside rfl ?_ hs⟩
  · rw [foldl_recordOp, List.nil_append]
  · simp [Block.length_compile]

variable {t : DmaProgramNode}

/-- The generator, for a tree whose loops do not nest beyond the
assertion. -/
theorem generate_random_dma_program_eq (h : t.loopDepth ≤ 4) (d : Draws) :
    generate_random_dma_program t d
      = some ((dmapnBlock (d 0 % 6) t fun k => d (k + 1)).1.compile 0 ++ [DMA_OP_STOP],
          (dmapnBlock (d 0 % 6) t fun k => d (k + 1)).2) := by
  have hwrite := write_random_dma_program_eq (d 0 % 6) (fun k => d (k + 1))
    (show 0 + t.loopDepth ≤ 4 by omega)
  simp [generate_random_dma_program, myrand, hwrite, StateT.bind, bind, gen_pure]

/-- **The writer is a correct compiler.**  For a tree whose loops nest at
most four deep, any transfer size and any draws, it writes exactly
`dma_program_length` words, which followed by a stop perform the operations
the tree stands for; the generated program has one word more, the stop. -/
theorem write_random_dma_program_correct (h : t.loopDepth ≤ 4) (ts : ℕ) (d : Draws) :
    (∃ code rest, write_random_dma_program ts t 0 d = some (code, rest) ∧
      code.length = dma_program_length t ∧
      Performs (code ++ [DMA_OP_STOP]) (dmapnBlock ts t d).1.meaning) ∧
    ∃ code rest, generate_random_dma_program t d = some (code ++ [DMA_OP_STOP], rest) ∧
      (code ++ [DMA_OP_STOP]).length = dma_program_length t + 1 ∧
      Performs (code ++ [DMA_OP_STOP])
        (dmapnBlock (d 0 % 6) t fun k => d (k + 1)).1.meaning := by
  refine ⟨⟨_, _, write_random_dma_program_eq ts d (by omega), ?_, performs_compile _⟩,
    _, _, generate_random_dma_program_eq h d, ?_, performs_compile _⟩
  · rw [Block.length_compile, words_dmapnBlock]
  · rw [List.length_append, Block.length_compile, words_dmapnBlock, List.length_singleton]

/-- A loop over a loop and an operation, with every draw 1: each loop runs
three times. -/
theorem write_random_dma_program_correct_nested :
    Performs [DMA_OP_SET 0 2, DMA_OP_SET 1 2, DMA_OP_ADD 1 8, DMA_OP_LOOP 1 1, DMA_OP_ADD 1 8,
        DMA_OP_LOOP 0 4, DMA_OP_STOP] (List.replicate 12 (.ADD 1 8)) ∧
      DmaProgramNode.loopDepth (.DMAPNT_LOOP (.DMAPNT_SEQ (.DMAPNT_LOOP .DMAPNT_OP) .DMAPNT_OP)) ≤ 4 := by
  obtain ⟨⟨code, rest, hcode, -, hperf⟩, -⟩ := write_random_dma_program_correct
    (t := .DMAPNT_LOOP (.DMAPNT_SEQ (.DMAPNT_LOOP .DMAPNT_OP) .DMAPNT_OP)) (by decide) 3 (fun _ => 1)
  rw [write_random_dma_program_eq _ _ (by decide)] at hcode
  simp only [Option.some.injEq, Prod.mk.injEq] at hcode
  obtain ⟨rfl, -⟩ := hcode
  exact ⟨hperf, by decide⟩

end Cheritest
