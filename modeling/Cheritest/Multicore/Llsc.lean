/-
Cheritest/Multicore/Llsc.lean

The LL/SC multicore test, test_mc_llsc.s, run by any number of cores of one
hardware thread each.

Every core adds its number plus one to `total` sixteen times, by load linked
and store conditional, waits for the others in `thread_barrier` and reads
`total`.  Core zero lets the others go first, by a call of
`other_threads_go`.

A step of the system is one instruction of one core, and the steps of
different cores come in any order.  A store conditional succeeds only if no
other core has stored to `total` since the core's last load linked, and it
may fail at any time.  Outside of the test, that is before it is called and
after it has returned, a core may do anything that leaves alone the test's
data and the other cores' stacks.
-/
import Cheritest.LibS.BarrierFrame

namespace Cheritest

open Mips

/-- `mips_function_entry`, without extra stack space. -/
def mips_function_entry {L : Type} : List (Asm L) :=
  [ .daddiu .sp .sp (-16),
    .sd .ra 8 .sp,
    .sd .fp 0 .sp,
    .daddiu .fp .sp 16 ]

/-- `mips_function_return`, without extra stack space. -/
def mips_function_return {L : Type} : List (Asm L) :=
  [ .ld .ra 8 .sp,
    .ld .fp 0 .sp,
    .jr .ra,
    .daddiu .sp .sp 16 ]

namespace Llsc

/-! ### Where things are -/

/-- The addresses of the test, of the barrier routines, of
`other_threads_go`, of `total`, of `reset_barrier` and of `__sp`.  The end
barrier follows `total`; the 32 stacks of 1024 bytes each end at `__sp`.  The
test's data, the counters of the reset barrier and the stacks do not
overlap. -/
structure Layout where
  test : BitVec 64
  lib : BitVec 64
  go : BitVec 64
  total : BitVec 64
  reset_barrier : BitVec 64
  stack : BitVec 64
  stack_data : ∀ a : BitVec 64, (a - total).toNat < 40 → 2 ^ 15 < (stack - a).toNat
  stack_reset : ∀ a : BitVec 64, (a - reset_barrier).toNat < 32 → 2 ^ 15 < (stack - a).toNat
  reset_data : ∀ a : BitVec 64, (a - reset_barrier).toNat < 32 → 40 ≤ (a - total).toNat

namespace Layout

/-- `end_barrier`. -/
def end_barrier (A : Layout) : BitVec 64 := A.total + 8

/-- The stack pointer with which init.s calls the test. -/
def sp (A : Layout) (i : ℕ) : BitVec 64 := A.stack - BitVec.ofNat 64 (1024 * i) - 32

/-- The part of a stack that the test uses. -/
def InStack (A : Layout) (i : ℕ) (a : BitVec 64) : Prop := (a - (A.sp i - 32)).toNat < 32

section areas
variable {A : Layout} {i j : ℕ} {a b : BitVec 64}

theorem InStack.range (hi : i < 32) (h : A.InStack i a) : (A.stack - a).toNat ≤ 2 ^ 15 := by
  unfold InStack sp at h
  bv_omega

/-- The stacks of two cores do not overlap. -/
theorem InStack.unique (hi : i < 32) (hj : j < 32) (h : A.InStack i a) (h' : A.InStack j a) : i = j := by
  unfold InStack sp at h h'
  bv_omega

theorem InStack.not_data (hi : i < 32) (h : A.InStack i a) : 40 ≤ (a - A.total).toNat := by
  by_contra hlt
  have hfar := A.stack_data a (by omega)
  have hnear := h.range hi
  omega

theorem InStack.not_reset (hi : i < 32) (h : A.InStack i a) : 32 ≤ (a - A.reset_barrier).toNat := by
  by_contra hlt
  have hfar := A.stack_reset a (by omega)
  have hnear := h.range hi
  omega

theorem end_counter (hj : j < 32) : (counterAddr A.end_barrier j - A.total).toNat = 8 + j := by
  unfold counterAddr end_barrier
  bv_omega

theorem reset_counter (hj : j < 32) :
    (counterAddr A.reset_barrier j - A.reset_barrier).toNat = j := by
  unfold counterAddr
  bv_omega

end areas

end Layout

/-! ### The code -/

/-- Labels of the test. -/
inductive Label
  | test
  | not_core_zero
  | store_loop
  | finish
  deriving DecidableEq

/-- The label of `other_threads_go`. -/
inductive GoLabel
  | other_threads_go
  deriving DecidableEq

/-- `other_threads_go` of init.s. -/
def other_threads_go (reset_barrier thread_barrier : BitVec 64) : List (Asm GoLabel) :=
  [ .label .other_threads_go,
    .dla .a0 reset_barrier,
    .j thread_barrier,
    .nop ]

/-- The test, from `BEGIN_TEST` to `END_TEST`; the label `end` of the source
is `finish` here. -/
def test (total end_barrier other_threads_go thread_barrier : BitVec 64) : List (Asm Label) :=
  List.flatten [
    [ .label .test ],
    mips_function_entry,
    [ .dli .v0 0,
      .dli .k1 0,
      .dmfc0 .t0 15 7,
      .andi .t1 .t0 0xffff,
      .bnez .t1 .not_core_zero,
      .nop,
      .dmfc0 .t0 15 6,
      .andi .t1 .t0 0xffff,
      .bnez .t1 .not_core_zero,
      .nop,
      .jal other_threads_go,
      .nop,
      .label .not_core_zero,
      .dli .t1 16,
      .dla .a0 total,
      .dmfc0 .a1 15 6,
      .andi .a1 .a1 0xffff,
      .addi .a1 .a1 1,
      .label .store_loop,
      .lld .t0 0 .a0,
      .daddu .t0 .t0 .a1,
      .scd .t0 0 .a0,
      .beqz .t0 .store_loop,
      .nop,
      .daddi .t1 .t1 (-1),
      .bnez .t1 .store_loop,
      .nop,
      .label .finish,
      .sync,
      .dla .a0 end_barrier,
      .jal thread_barrier,
      .nop,
      .sync,
      .dla .a0 total,
      .ld .a0 0 .a0,
      .dmfc0 .a1 15 6,
      .srl .a1 .a1 16 ],
    mips_function_return ]

/-- `other_threads_go` in memory. -/
def goText (A : Layout) : Text GoLabel where
  base := A.go
  code := other_threads_go A.reset_barrier ((barrierText A.lib).addr .thread_barrier)
  fits := by
    show 3 < 2 ^ 60
    norm_num

/-- The test in memory. -/
def testText (A : Layout) : Text Label where
  base := A.test
  code := test A.total A.end_barrier ((goText A).addr .other_threads_go)
    ((barrierText A.lib).addr .thread_barrier)
  fits := by
    show 42 < 2 ^ 60
    norm_num

/-! ### The cores -/

/-- This is core `i` of `N`, each with one thread.  gxemul has one core. -/
structure IsCore {n : ℕ} (c : Core n) (i N : ℕ) : Prop where
  id : ProcessorId c (N - 1) 0 i 0
  gxemul : onGxemul c → N = 1

/-- Whether a core has been called to run the test, and if it runs it, whether
it is in the test itself, in `other_threads_go`, or in the reset barrier that
this leads to. -/
inductive Stage
  | before
  | test
  | go
  | reset
  | after
  deriving DecidableEq

/-- The cores.  `link` says that no other core has stored to `total` since
the core's last load linked, and `done` counts the iterations of
`store_loop` that the core has completed by a store. -/
structure Cores (n N : ℕ) extends Machine n N where
  stage : Fin N → Stage
  link : Fin N → Bool
  done : Fin N → ℕ

variable {n N : ℕ}

/-- A core outside of the test leaves the test's data and the other cores'
stacks alone. -/
def Outside (A : Layout) (i : Fin N) (m m' : Mem) : Prop :=
  ∀ a, ((a - A.total).toNat < 40 ∨ ∃ j : Fin N, j ≠ i ∧ A.InStack j a) → m'.byte a = m.byte a

namespace Cores

/-- Core `i` has executed an instruction, in memory `m`, and is at `h`. -/
def move (s : Cores n N) (i : Fin N) (h : Hart n) (m : Mem) : Cores n N :=
  { s with mem := m, hart := Function.update s.hart i h }

/-- Core `i` goes on to another stage. -/
def enter (s : Cores n N) (i : Fin N) (p : Stage) : Cores n N :=
  { s with stage := Function.update s.stage i p }

/-- Core `i` has loaded `total`. -/
def reserve (s : Cores n N) (i : Fin N) : Cores n N :=
  { s with link := Function.update s.link i true }

/-- Core `i` has stored to `total`. -/
def complete (s : Cores n N) (i : Fin N) : Cores n N :=
  { s with
    link := fun j => decide (j = i) && s.link j
    done := Function.update s.done i (s.done i + 1) }

section simp
variable (s : Cores n N) (i : Fin N) (h : Hart n) (m : Mem) (p : Stage)

@[simp] theorem move_hart : (s.move i h m).hart i = h := Function.update_self ..
@[simp] theorem move_done : (s.move i h m).done = s.done := rfl
@[simp] theorem enter_stage : (s.enter i p).stage i = p := Function.update_self ..
@[simp] theorem enter_hart : (s.enter i p).hart = s.hart := rfl
@[simp] theorem reserve_hart : (s.reserve i).hart = s.hart := rfl
@[simp] theorem complete_hart : (s.complete i).hart = s.hart := rfl
@[simp] theorem complete_done : (s.complete i).done = Function.update s.done i (s.done i + 1) := rfl

end simp

/-- One step of one core.  In the test, instructions 14 and 31 call
`other_threads_go` and `thread_barrier`, so that control is there after
their delay slots 15 and 32; instruction 21 is the load linked and 23 the
store conditional; 41 is the last one.  Instruction 2 is the delay slot of
`other_threads_go`, and 43 is the last one of the barrier. -/
inductive Step (A : Layout) (F : CapFormat n) : Cores n N → Cores n N → Prop
  | outside {s} (i : Fin N) (h : Hart n) (m : Mem) : s.stage i = .before ∨ s.stage i = .after →
      Outside A i s.mem m → Step A F s (s.move i h m)
  | start {s} (i : Fin N) (c : Core n) : s.stage i = .before → IsCore c i N →
      c.get .sp = A.sp i →
      Step A F s ((s.move i ((testText A).hartAt 0 c) s.mem).enter i .test)
  | insn {s} (i : Fin N) {h m} : s.stage i = .test → s.inside i = false →
      (∀ k ∈ [15, 21, 23, 32, 41], (s.hart i).pc ≠ (testText A).loc k) →
      (s.hart i).step (testText A) F s.mem = .ok (h, m) → Step A F s (s.move i h m)
  | lld {s} (i : Fin N) {h m} : s.stage i = .test → s.inside i = false →
      (s.hart i).pc = (testText A).loc 21 →
      (s.hart i).step (testText A) F s.mem = .ok (h, m) →
      Step A F s ((s.move i h m).reserve i)
  | scd {s} (i : Fin N) {h m} : s.stage i = .test → s.inside i = false →
      (s.hart i).pc = (testText A).loc 23 → s.link i = true →
      (s.hart i).step (testText A) F s.mem = .ok (h, m) →
      Step A F s ((s.move i h m).complete i)
  | scd_fails {s} (i : Fin N) : s.stage i = .test → s.inside i = false →
      (s.hart i).pc = (testText A).loc 23 →
      Step A F s (s.move i ⟨(s.hart i).core.set .t0 0, (s.hart i).npc, (s.hart i).npc + 4⟩ s.mem)
  | call_go {s} (i : Fin N) {h m} : s.stage i = .test → s.inside i = false →
      (s.hart i).pc = (testText A).loc 15 →
      (s.hart i).step (testText A) F s.mem = .ok (h, m) → Step A F s ((s.move i h m).enter i .go)
  | go {s} (i : Fin N) {h m} : s.stage i = .go → (s.hart i).pc ≠ (goText A).loc 2 →
      (s.hart i).step (goText A) F s.mem = .ok (h, m) → Step A F s (s.move i h m)
  | call_reset {s} (i : Fin N) {h m} : s.stage i = .go → (s.hart i).pc = (goText A).loc 2 →
      (s.hart i).step (goText A) F s.mem = .ok (h, m) → Step A F s ((s.move i h m).enter i .reset)
  | reset {s} (i : Fin N) {h m} : s.stage i = .reset →
      (s.hart i).pc ≠ (barrierText A.lib).loc 43 →
      (s.hart i).step (barrierText A.lib) F s.mem = .ok (h, m) → Step A F s (s.move i h m)
  | return_reset {s} (i : Fin N) {h m} : s.stage i = .reset →
      (s.hart i).pc = (barrierText A.lib).loc 43 →
      (s.hart i).step (barrierText A.lib) F s.mem = .ok (h, m) →
      Step A F s ((s.move i h m).enter i .test)
  | call_barrier {s} (i : Fin N) {h m} : s.stage i = .test → s.inside i = false →
      (s.hart i).pc = (testText A).loc 32 →
      (s.hart i).step (testText A) F s.mem = .ok (h, m) →
      Step A F s { s with toMachine := s.toMachine.call (barrierText A.lib) i h.core }
  | barrier {s} (i : Fin N) {h m} : s.inside i = true →
      (s.hart i).step (barrierText A.lib) F s.mem = .ok (h, m) →
      Step A F s { s with toMachine := s.toMachine.run (barrierText A.lib) i h m }
  | return {s} (i : Fin N) {h m} : s.stage i = .test → s.inside i = false →
      (s.hart i).pc = (testText A).loc 41 →
      (s.hart i).step (testText A) F s.mem = .ok (h, m) → Step A F s ((s.move i h m).enter i .after)

end Cores

/-- The cores before the test, with the data that the test declares. -/
def cores (A : Layout) (F : CapFormat n) (N : ℕ) : System (Cores n N) where
  init s := s.mem.loadDouble A.total = 0 ∧ (∀ j < N, s.mem.byte (counterAddr A.end_barrier j) = 0) ∧
    ∀ i, s.stage i = .before ∧ s.inside i = false ∧ s.calls i = 0 ∧ s.stored i = 0 ∧ s.done i = 0
  step := Cores.Step A F

end Llsc

end Cheritest
