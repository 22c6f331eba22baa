/-
Cheritest/Multicore/Harness.lean

Multicore tests, run by any number of cores of one hardware thread each.

init.s calls the test on every core.  Core 0 calls `other_threads_go`, which
is a call of the reset barrier, and a test may have a barrier of its own at
its end.  `harness` is the system of all cores, for any such test: a step is
one instruction of one core, and the steps of different cores come in any
order.  Outside of the test, that is before it is called and after it has
returned, a core may do anything that leaves alone the test's data and the
other cores' stacks.
-/
import Cheritest.Multicore.LlscPlaces

namespace Cheritest

open Mips

namespace Harness

open Llsc (IsCore Stage GoLabel other_threads_go)

/-! ### Where things are -/

/-- The addresses of the test, of the barrier routines, of
`other_threads_go`, of the barriers, of `__sp`, and of the test's data, which
is `size` bytes long.  The data, the counters and the 32 stacks of 1024 bytes
below `__sp` do not overlap. -/
structure Layout where
  test : BitVec 64
  lib : BitVec 64
  go : BitVec 64
  data : BitVec 64
  size : ℕ
  reset_barrier : BitVec 64
  end_barrier : Option (BitVec 64)
  stack : BitVec 64
  stack_data : ∀ a : BitVec 64, (a - data).toNat < size → 2 ^ 15 < (stack - a).toNat
  stack_reset : ∀ a : BitVec 64, (a - reset_barrier).toNat < 32 → 2 ^ 15 < (stack - a).toNat
  stack_end : ∀ bar ∈ end_barrier, ∀ a : BitVec 64, (a - bar).toNat < 32 → 2 ^ 15 < (stack - a).toNat
  reset_data : ∀ a : BitVec 64, (a - reset_barrier).toNat < 32 → size ≤ (a - data).toNat
  end_data : ∀ bar ∈ end_barrier, ∀ a : BitVec 64, (a - bar).toNat < 32 → size ≤ (a - data).toNat
  end_reset : ∀ bar ∈ end_barrier, ∀ a : BitVec 64, (a - bar).toNat < 32 →
    32 ≤ (a - reset_barrier).toNat

namespace Layout

variable {A : Layout} {i j : ℕ} {a b bar : BitVec 64}

/-- The stack pointer with which init.s calls the test. -/
def sp (A : Layout) (i : ℕ) : BitVec 64 := A.stack - BitVec.ofNat 64 (1024 * i) - 32

/-- The part of a stack that the test uses. -/
def InStack (A : Layout) (i : ℕ) (a : BitVec 64) : Prop := (a - (A.sp i - 32)).toNat < 32

theorem InStack.range (hi : i < 32) (h : A.InStack i a) : (A.stack - a).toNat ≤ 2 ^ 15 := by
  unfold InStack sp at h
  bv_omega

/-- The stacks of two cores do not overlap. -/
theorem InStack.unique (hi : i < 32) (hj : j < 32) (h : A.InStack i a) (h' : A.InStack j a) :
    i = j := by
  unfold InStack sp at h h'
  bv_omega

theorem InStack.not_data (hi : i < 32) (h : A.InStack i a) : A.size ≤ (a - A.data).toNat := by
  by_contra hlt
  have hfar := A.stack_data a (by omega)
  have hnear := h.range hi
  omega

theorem counter_toNat (hj : j < 32) : (counterAddr bar j - bar).toNat = j := by
  unfold counterAddr
  bv_omega

theorem reset_not_inStack (hi : i < 32) (hj : j < 32) :
    ¬ A.InStack i (counterAddr A.reset_barrier j) := by
  intro h
  have hfar := A.stack_reset (counterAddr A.reset_barrier j) (by rw [counter_toNat hj]; exact hj)
  have hnear := h.range hi
  omega

theorem end_not_inStack (hbar : bar ∈ A.end_barrier) (hi : i < 32) (hj : j < 32) :
    ¬ A.InStack i (counterAddr bar j) := by
  intro h
  have hfar := A.stack_end bar hbar (counterAddr bar j) (by rw [counter_toNat hj]; exact hj)
  have hnear := h.range hi
  omega

end Layout

/-- `other_threads_go` in memory. -/
def goText (A : Layout) : Text GoLabel where
  base := A.go
  code := other_threads_go A.reset_barrier ((barrierText A.lib).addr .thread_barrier)
  fits := by
    show 3 < 2 ^ 60
    norm_num

/-! ### The system -/

/-- A test: how a core executes an instruction of it, where its instructions
are, and which ones are the delay slots of its calls and of its return.
`Ready` is what it needs besides the stack when it is called. -/
structure Program (n : ℕ) where
  step : Hart n → Mem → Except Trap (Hart n × Mem)
  loc : ℕ → BitVec 64
  loc_add_four : ∀ k, loc k + 4 = loc (k + 1)
  callGo : ℕ
  callBarrier : Option ℕ
  last : ℕ
  Ready : Core n → Prop

variable {n N : ℕ}

/-- About to execute instruction `k` of a test, no branch pending. -/
def Program.hartAt (P : Program n) (k : ℕ) (c : Core n) : Hart n := ⟨c, P.loc k, P.loc (k + 1)⟩

@[simp] theorem Program.hartAt_core (P : Program n) (k : ℕ) (c : Core n) : (P.hartAt k c).core = c :=
  rfl

/-- An instruction after which a core is in the test still. -/
def Program.Ordinary (P : Program n) (pc : BitVec 64) : Prop :=
  pc ≠ P.loc P.callGo ∧ (∀ k ∈ P.callBarrier, pc ≠ P.loc k) ∧ pc ≠ P.loc P.last

/-- The cores, and whether each one has been called to run the test. -/
structure Cores (n N : ℕ) extends Machine n N where
  stage : Fin N → Stage

/-- The test's data is what it was: its bytes, and the tags of the granules
that are part of it. -/
structure SameData (A : Layout) (n : ℕ) (m m' : Mem) : Prop where
  byte : ∀ a : BitVec 64, (a - A.data).toNat < A.size → m'.byte a = m.byte a
  tag : ∀ g, (∀ a : BitVec 64, a.toNat / n = g → (a - A.data).toNat < A.size) → m'.tag g = m.tag g

/-- The counters of the test's barrier and the other cores' stacks are what
they were. -/
structure SameOthers (A : Layout) (i : Fin N) (m m' : Mem) : Prop where
  counter : ∀ bar ∈ A.end_barrier, ∀ j < N, m'.byte (counterAddr bar j) = m.byte (counterAddr bar j)
  stack : ∀ j : Fin N, j ≠ i → ∀ a, A.InStack j a → m'.byte a = m.byte a

namespace Cores

/-- Core `i` has executed an instruction, in memory `m`, and is at `h`. -/
def move (s : Cores n N) (i : Fin N) (h : Hart n) (m : Mem) : Cores n N :=
  { s with mem := m, hart := Function.update s.hart i h }

/-- Core `i` goes on to another stage. -/
def enter (s : Cores n N) (i : Fin N) (p : Stage) : Cores n N :=
  { s with stage := Function.update s.stage i p }

@[simp] theorem move_hart (s : Cores n N) (i : Fin N) (h : Hart n) (m : Mem) :
    (s.move i h m).hart i = h := Function.update_self ..
@[simp] theorem enter_stage (s : Cores n N) (i : Fin N) (p : Stage) :
    (s.enter i p).stage i = p := Function.update_self ..
@[simp] theorem enter_hart (s : Cores n N) (i : Fin N) (p : Stage) : (s.enter i p).hart = s.hart := rfl

/-- One step of one core.  Instruction 2 is the delay slot of
`other_threads_go`, and 43 is the last one of the barrier. -/
inductive Step (A : Layout) (P : Program n) (F : CapFormat n) : Cores n N → Cores n N → Prop
  | outside {s} (i : Fin N) (h : Hart n) (m : Mem) : s.stage i = .before ∨ s.stage i = .after →
      SameData A n s.mem m → SameOthers A i s.mem m → Step A P F s (s.move i h m)
  | start {s} (i : Fin N) (c : Core n) : s.stage i = .before → IsCore c i N →
      c.get .sp = A.sp i → P.Ready c →
      Step A P F s ((s.move i (P.hartAt 0 c) s.mem).enter i .test)
  | insn {s} (i : Fin N) {h m} : s.stage i = .test → s.inside i = false →
      P.Ordinary (s.hart i).pc → P.step (s.hart i) s.mem = .ok (h, m) → Step A P F s (s.move i h m)
  | call_go {s} (i : Fin N) {h m} : s.stage i = .test → s.inside i = false →
      (s.hart i).pc = P.loc P.callGo → P.step (s.hart i) s.mem = .ok (h, m) →
      Step A P F s ((s.move i h m).enter i .go)
  | go {s} (i : Fin N) {h m} : s.stage i = .go → (s.hart i).pc ≠ (goText A).loc 2 →
      (s.hart i).step (goText A) F s.mem = .ok (h, m) → Step A P F s (s.move i h m)
  | call_reset {s} (i : Fin N) {h m} : s.stage i = .go → (s.hart i).pc = (goText A).loc 2 →
      (s.hart i).step (goText A) F s.mem = .ok (h, m) → Step A P F s ((s.move i h m).enter i .reset)
  | reset {s} (i : Fin N) {h m} : s.stage i = .reset →
      (s.hart i).pc ≠ (barrierText A.lib).loc 43 →
      (s.hart i).step (barrierText A.lib) F s.mem = .ok (h, m) → Step A P F s (s.move i h m)
  | return_reset {s} (i : Fin N) {h m} : s.stage i = .reset →
      (s.hart i).pc = (barrierText A.lib).loc 43 →
      (s.hart i).step (barrierText A.lib) F s.mem = .ok (h, m) →
      Step A P F s ((s.move i h m).enter i .test)
  | call_barrier {s} (i : Fin N) {k h m} : s.stage i = .test → s.inside i = false →
      k ∈ P.callBarrier → (s.hart i).pc = P.loc k → P.step (s.hart i) s.mem = .ok (h, m) →
      Step A P F s { s with toMachine := s.toMachine.call (barrierText A.lib) i h.core }
  | barrier {s} (i : Fin N) {h m} : s.inside i = true →
      (s.hart i).step (barrierText A.lib) F s.mem = .ok (h, m) →
      Step A P F s { s with toMachine := s.toMachine.run (barrierText A.lib) i h m }
  | return {s} (i : Fin N) {h m} : s.stage i = .test → s.inside i = false →
      (s.hart i).pc = P.loc P.last → P.step (s.hart i) s.mem = .ok (h, m) →
      Step A P F s ((s.move i h m).enter i .after)

end Cores

/-- The cores before the test; `Start` is what the declarations of the test's
data say of memory. -/
def harness (A : Layout) (P : Program n) (F : CapFormat n) (Start : Mem → Prop) (N : ℕ) :
    System (Cores n N) where
  init s := Start s.mem ∧ (∀ bar ∈ A.end_barrier, ∀ j < N, s.mem.byte (counterAddr bar j) = 0) ∧
    ∀ i, s.stage i = .before ∧ s.inside i = false ∧ s.calls i = 0 ∧ s.stored i = 0
  step := Cores.Step A P F

/-! ### Cores that take turns -/

section turns
variable {A : Layout} {P : Program n} {F : CapFormat n} {Start : Mem → Prop} {s : Cores n N}
  {i : Fin N} {x : Hart n} {m : Mem}

instance (P : Program n) (pc : BitVec 64) : Decidable (P.Ordinary pc) :=
  inferInstanceAs (Decidable (_ ∧ (∀ k ∈ P.callBarrier, pc ≠ P.loc k) ∧ _))

/-- Core `i` executes an instruction of the test that leads to `x` and `m`. -/
def Cores.advanceTest (A : Layout) (P : Program n) (s : Cores n N) (i : Fin N) (x : Hart n) (m : Mem) :
    Cores n N :=
  let pc := (s.hart i).pc
  if pc = P.loc P.callGo then (s.move i x m).enter i .go
  else if pc = P.loc P.last then (s.move i x m).enter i .after
  else if P.Ordinary pc then s.move i x m
  else { s with toMachine := s.toMachine.call (barrierText A.lib) i x.core }

/-- Core `i` executes its next instruction, if it is called to run the test
and the instruction does not trap. -/
def Cores.advance (A : Layout) (P : Program n) (F : CapFormat n) (s : Cores n N) (i : Fin N) :
    Cores n N :=
  match s.stage i with
  | .before | .after => s
  | .go =>
      match (s.hart i).step (goText A) F s.mem with
      | .error _ => s
      | .ok (x, m) =>
          if (s.hart i).pc = (goText A).loc 2 then (s.move i x m).enter i .reset else s.move i x m
  | .reset =>
      match (s.hart i).step (barrierText A.lib) F s.mem with
      | .error _ => s
      | .ok (x, m) =>
          if (s.hart i).pc = (barrierText A.lib).loc 43 then (s.move i x m).enter i .test
          else s.move i x m
  | .test =>
      if s.inside i then
        match (s.hart i).step (barrierText A.lib) F s.mem with
        | .error _ => s
        | .ok (x, m) => { s with toMachine := s.toMachine.run (barrierText A.lib) i x m }
      else
        match P.step (s.hart i) s.mem with
        | .error _ => s
        | .ok (x, m) => s.advanceTest A P i x m

theorem Cores.step_advanceTest (hstage : s.stage i = .test) (hin : s.inside i = false)
    (hs : P.step (s.hart i) s.mem = .ok (x, m)) : Cores.Step A P F s (s.advanceTest A P i x m) := by
  unfold Cores.advanceTest
  by_cases hgo : (s.hart i).pc = P.loc P.callGo
  · rw [if_pos hgo]
    exact .call_go i hstage hin hgo hs
  by_cases hlast : (s.hart i).pc = P.loc P.last
  · rw [if_neg hgo, if_pos hlast]
    exact .return i hstage hin hlast hs
  rw [if_neg hgo, if_neg hlast]
  split_ifs with hordinary
  · exact .insn i hstage hin hordinary hs
  · -- what is left is the call of the barrier
    obtain ⟨k, hk, hpc⟩ : ∃ k ∈ P.callBarrier, (s.hart i).pc = P.loc k := by
      by_contra hnone
      refine hordinary ⟨hgo, fun k hk hpc => hnone ⟨k, hk, hpc⟩, hlast⟩
    exact .call_barrier i hstage hin hk hpc hs

theorem Cores.step_advance (A : Layout) (P : Program n) (F : CapFormat n) (s : Cores n N) (i : Fin N) :
    s.advance A P F i = s ∨ Cores.Step A P F s (s.advance A P F i) := by
  unfold Cores.advance
  split
  · exact .inl rfl
  · exact .inl rfl
  · rename_i hstage
    split
    · exact .inl rfl
    · rename_i hs
      right
      split_ifs with hpc
      · exact .call_reset i hstage hpc hs
      · exact .go i hstage hpc hs
  · rename_i hstage
    split
    · exact .inl rfl
    · rename_i hs
      right
      split_ifs with hpc
      · exact .return_reset i hstage hpc hs
      · exact .reset i hstage hpc hs
  · rename_i hstage
    split_ifs with hin
    · split
      · exact .inl rfl
      · rename_i hs
        exact .inr (.barrier i hin hs)
    · split
      · exact .inl rfl
      · rename_i hs
        exact .inr (Cores.step_advanceTest hstage (Bool.eq_false_iff.mpr hin) hs)

/-- The cores take their turns in the given order. -/
def Cores.turns (A : Layout) (P : Program n) (F : CapFormat n) (s : Cores n N) (order : List (Fin N)) :
    Cores n N := order.foldl (Cores.advance A P F) s

theorem reachable_turns (hs : (harness A P F Start N).Reachable s) (order : List (Fin N)) :
    (harness A P F Start N).Reachable (s.turns A P F order) := by
  induction order generalizing s with
  | nil => exact hs
  | cons i order ih =>
    apply ih
    rcases Cores.step_advance A P F s i with heq | hstep
    · rw [heq]
      exact hs
    · exact hs.step hstep

end turns

end Harness

end Cheritest
