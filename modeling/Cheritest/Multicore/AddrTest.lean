/-
Cheritest/Multicore/AddrTest.lean

The pointer-coherence test, test_mc_addr.s, run by two cores.

Core 1 prepares the two blocks in turn: it sets the status of a block to 0 and
then to 1, sets `ptr` to the block and waits for the status 2.  Core 0 reads
`ptr`, then the status of the block, and changes a 1 to 2; a status of 0 ends
the test with an error.

A step of the system is one instruction of one core, and the steps of the two
cores come in any order.  Core 0 starts behind its call of `other_threads_go`
and core 1 at its label; a core that has come to `end` takes no more steps.
The number of rounds of either core is a parameter.
-/
import Cheritest.Multicore.Llsc

namespace Cheritest

open Mips Llsc

namespace AddrTest

/-! ### The code -/

inductive Label
  | core0
  | L0
  | L1
  | L2
  | fail
  | core1
  | L6
  | L3
  | L4
  | not_thread0
  | other_core
  | finish
  deriving DecidableEq

/-- The addresses of the test, of `other_threads_go`, of `ptr` and of the two
blocks; the data is aligned to 32 bytes. -/
structure Layout where
  test : BitVec 64
  other_threads_go : BitVec 64
  ptr : BitVec 64
  block : Bool → BitVec 64
  ptr_aligned : ptr.toNat % 32 = 0
  block_aligned : ∀ b, (block b).toNat % 32 = 0
  ptr_ne : ∀ b, block b ≠ ptr
  block_ne : block false ≠ block true
  block_ne_zero : ∀ b, block b ≠ 0

/-- The test, from `BEGIN_TEST` to `END_TEST`; the label `end` of the source
is `finish` here.  Core 0 goes `rounds₀` times round its loop, and core 1
`rounds₁` times, which is 1024 and 10 in the source. -/
def test (A : Layout) (rounds₀ rounds₁ : BitVec 64) : List (Asm Label) :=
  List.flatten [
    mips_function_entry,
    [ .dli .v0 0,
      .dli .k1 0,
      .dmfc0 .t0 15 7,
      .andi .t1 .t0 0xffff,
      .bnez .t1 .not_thread0,
      .nop,
      .dmfc0 .t0 15 6,
      .andi .t1 .t0 0xffff,
      .beqz .t1 .core0,
      .nop,
      .daddi .t1 .t1 (-1),
      .beqz .t1 .core1,
      .nop,
      .b .other_core,
      .nop,
      .label .core0,
      .jal A.other_threads_go,
      .nop,
      .dla .a0 A.ptr,
      .dli .a1 0,
      .dli .a3 0,
      .label .L0,
      .ld .a2 0 .a0,
      .beqz .a2 .L0,
      .nop,
      .dli .t1 rounds₀,
      .label .L1,
      .ld .a2 0 .a0,
      .ld .t0 0 .a2,
      .beqz .t0 .fail,
      .nop,
      .daddi .t0 .t0 (-1),
      .bnez .t0 .L2,
      .nop,
      .dli .t0 2,
      .sd .t0 0 .a2,
      .sync,
      .daddi .a3 .a3 1,
      .label .L2,
      .daddi .t1 .t1 (-1),
      .bnez .t1 .L1,
      .nop,
      .b .finish,
      .nop,
      .label .fail,
      .dli .a1 1,
      .b .finish,
      .nop,
      .label .core1,
      .dla .a0 A.ptr,
      .dli .a1 rounds₁,
      .label .L6,
      .dla .t0 (A.block false),
      .sd .zero 0 .t0 ],
    List.replicate 10 .nop,
    [ .dli .t1 1,
      .sd .t1 0 .t0,
      .sync,
      .sd .t0 0 .a0,
      .sync,
      .label .L3,
      .ld .t1 0 .t0,
      .daddi .t1 .t1 (-2),
      .bnez .t1 .L3,
      .nop,
      .dla .t0 (A.block true),
      .sd .zero 0 .t0,
      .sync ],
    List.replicate 9 .nop,
    [ .dli .t1 1,
      .sd .t1 0 .t0,
      .sync,
      .sd .t0 0 .a0,
      .sync,
      .label .L4,
      .ld .t1 0 .t0,
      .daddi .t1 .t1 (-2),
      .bnez .t1 .L4,
      .nop,
      .daddi .a1 .a1 (-1),
      .bnez .a1 .L6,
      .nop,
      .label .not_thread0,
      .label .other_core,
      .label .finish ],
    mips_function_return ]

/-- The test in memory. -/
def text (A : Layout) (rounds₀ rounds₁ : BitVec 64) : Text Label where
  base := A.test
  code := test A rounds₀ rounds₁
  fits := by
    show 98 < 2 ^ 60
    norm_num

/-! ### The two cores -/

/-- A doubleword that a core has stored. -/
structure Store where
  core : Fin 2
  addr : BitVec 64
  value : BitVec 64
  deriving DecidableEq

/-- The shared memory, the two cores, and what they have stored so far. -/
structure Cores (n : ℕ) where
  mem : Mem
  hart : Fin 2 → Hart n
  stores : List Store

variable {n : ℕ}

/-- What the next instruction of a core stores. -/
def storeOf (T : Text Label) (i : Fin 2) (h : Hart n) : List Store :=
  match T.fetch h.pc with
  | some (.op (.sd rt off base)) => [⟨i, h.core.get base + off.signExtend 64, h.core.get rt⟩]
  | _ => []

/-- Core `i` has executed an instruction of the text, in memory `m`, and is
at `h`. -/
def Cores.move (s : Cores n) (T : Text Label) (i : Fin 2) (h : Hart n) (m : Mem) : Cores n where
  mem := m
  hart := Function.update s.hart i h
  stores := s.stores ++ storeOf T i (s.hart i)

/-- One instruction of one core; instruction 94 is at `end`. -/
inductive Step (T : Text Label) (F : CapFormat n) : Cores n → Cores n → Prop
  | insn {s} (i : Fin 2) {h m} : (s.hart i).pc ≠ T.loc 94 →
      (s.hart i).step T F s.mem = .ok (h, m) → Step T F s (s.move T i h m)

/-- The two cores, from the data that the test declares: core 0 at instruction
21, behind the call of `other_threads_go`, and core 1 at its label. -/
def cores (A : Layout) (rounds₀ rounds₁ : BitVec 64) (F : CapFormat n) : System (Cores n) where
  init s := s.mem.loadDouble A.ptr = 0 ∧ (∀ b, s.mem.loadDouble (A.block b) = 0) ∧ s.stores = [] ∧
    (∃ c, s.hart 0 = (text A rounds₀ rounds₁).hartAt 21 c) ∧
    ∃ c, s.hart 1 = (text A rounds₀ rounds₁).hartAt 47 c
  step := Step (text A rounds₀ rounds₁) F

example (A : Layout) : labelIndex .core1 (test A 1024 10) = 47 := rfl

end AddrTest

end Cheritest
