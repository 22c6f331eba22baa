/-
Cheritest/LibS/Corethread.lean

`get_corethread_id` of lib.s: the number of a hardware thread among all
threads of the system, and the greatest such number.

The processor ID registers (coprocessor 0 register 15, selects 6 and 7) give
the number of the core and of the thread in bits 0 to 15 and the greatest
such number in bits 16 to 31.  On gxemul, which is told by the processor
type, there is one thread.
-/
import Mathlib.Tactic.Ring
import Cheritest.Mips.Shared

namespace Cheritest

open Mips

/-- Labels of `get_corethread_id` and `thread_barrier`, which follow each
other in lib.s. -/
inductive BarrierLabel
  | get_corethread_id
  | one
  | thread_barrier
  | barrier_loop
  | thread_loop
  deriving DecidableEq

/-- `get_corethread_id`. -/
def get_corethread_id : List (Asm BarrierLabel) :=
  [ .label .get_corethread_id,
    .mfc0 .t0 15 0,
    .andi .t0 .t0 0xff00,
    .xori .t0 .t0 0x8900,
    .li .v1 1,
    .beqz .t0 .one,
    .li .v0 0,
    .dmfc0 .t0 15 6,
    .srl .t1 .t0 16,
    .addi .t1 .t1 1,
    .andi .v0 .t0 0xffff,
    .dmfc0 .t0 15 7,
    .srl .v1 .t0 16,
    .addi .v1 .v1 1,
    .andi .t0 .t0 0xffff,
    .mul .v0 .v0 .v1,
    .add .v0 .v0 .t0,
    .mul .v1 .v1 .t1,
    .label .one,
    .jr .ra,
    .addi .v1 .v1 (-1) ]

/-! ### Processor IDs -/

/-- The processor type says gxemul. -/
def onGxemul {n : ℕ} (c : Core n) : Prop := c.cp0 15 0 &&& 0xff00#64 = 0x8900#64

/-- Core `core` of `mc + 1`, thread `thread` of `mt + 1`, as the processor ID
registers have it. -/
structure ProcessorId {n : ℕ} (c : Core n) (mc mt core thread : ℕ) : Prop where
  core_le : core ≤ mc
  thread_le : thread ≤ mt
  mc_lt : mc < 2 ^ 16
  mt_lt : mt < 2 ^ 16
  coreId : (c.cp0 15 6).setWidth 32 = BitVec.ofNat 32 (mc * 2 ^ 16 + core)
  threadId : (c.cp0 15 7).setWidth 32 = BitVec.ofNat 32 (mt * 2 ^ 16 + thread)

/-- This is hardware thread `id` of `N`. -/
def Corethread {n : ℕ} (c : Core n) (id N : ℕ) : Prop :=
  (onGxemul c ∧ id = 0 ∧ N = 1) ∨
    (¬ onGxemul c ∧ ∃ mc mt core thread, ProcessorId c mc mt core thread ∧
      id = core * (mt + 1) + thread ∧ N = (mc + 1) * (mt + 1))

/-- The number of a thread depends on the processor ID registers alone. -/
theorem Corethread.congr {n : ℕ} {c c' : Core n} {id N : ℕ} (h : Corethread c id N)
    (hcp0 : c'.cp0 15 = c.cp0 15) : Corethread c' id N := by
  rcases h with ⟨hgx, hid⟩ | ⟨hgx, mc, mt, core, thread, ⟨h₁, h₂, h₃, h₄, h₅, h₆⟩, hid⟩
  · exact .inl ⟨by rwa [onGxemul, hcp0], hid⟩
  · exact .inr ⟨by rwa [onGxemul, hcp0], mc, mt, core, thread,
      ⟨h₁, h₂, h₃, h₄, by rw [hcp0, h₅], by rw [hcp0, h₆]⟩, hid⟩

section fields
variable {r : BitVec 64} {x y : ℕ}

/-- The upper field of a processor ID register. -/
theorem srl_id (hr : r.setWidth 32 = BitVec.ofNat 32 (x * 2 ^ 16 + y)) (hx : x < 2 ^ 16)
    (hy : y < 2 ^ 16) : sext32 (r.setWidth 32 >>> 16) = BitVec.ofNat 64 x := by
  have h : r.setWidth 32 >>> 16 = BitVec.ofNat 32 x := by
    apply BitVec.eq_of_toNat_eq
    rw [hr, BitVec.toNat_ushiftRight, Nat.shiftRight_eq_div_pow, BitVec.toNat_ofNat,
      BitVec.toNat_ofNat]
    omega
  rw [h, sext32_ofNat (by omega)]

/-- The lower field. -/
theorem and_id (hr : r.setWidth 32 = BitVec.ofNat 32 (x * 2 ^ 16 + y)) (hy : y < 2 ^ 16) :
    r &&& (0xffff : BitVec 16).setWidth 64 = BitVec.ofNat 64 y := by
  apply BitVec.eq_of_toNat_eq
  have h := congrArg BitVec.toNat hr
  have hmask : r.toNat &&& 0xffff = r.toNat % 2 ^ 16 := Nat.and_two_pow_sub_one_eq_mod _ 16
  rw [BitVec.toNat_setWidth, BitVec.toNat_ofNat] at h
  rw [BitVec.toNat_and, BitVec.toNat_ofNat]
  change r.toNat &&& 0xffff = _
  omega

/-- The processor type is in the bits that a 32-bit read gives. -/
theorem sext32_and_ff00 (r : BitVec 64) : sext32 (r.setWidth 32) &&& 0xff00#64 = r &&& 0xff00#64 := by
  apply BitVec.eq_of_getLsbD_eq
  intro i hi
  have hmask : ∀ i < 64, (0xff00#64).getLsbD i = decide (8 ≤ i ∧ i < 16) := by decide
  rw [BitVec.getLsbD_and, BitVec.getLsbD_and, hmask i hi, sext32, BitVec.getLsbD_signExtend]
  by_cases h : i < 16
  · simp [h, hi, show i < 32 by omega]
  · simp [h]

end fields

/-- The test for gxemul. -/
theorem gxemul_test {n : ℕ} (c : Core n) :
    sext32 ((c.cp0 15 0).setWidth 32) &&& (0xff00 : BitVec 16).setWidth 64
      ^^^ (0x8900 : BitVec 16).setWidth 64 = 0 ↔ onGxemul c := by
  have h : sext32 ((c.cp0 15 0).setWidth 32) &&& (0xff00 : BitVec 16).setWidth 64
      = c.cp0 15 0 &&& 0xff00#64 := sext32_and_ff00 _
  rw [h]
  exact BitVec.xor_eq_zero_iff

/-! ### The routine -/

section run
variable {n : ℕ} {F : CapFormat n} {T : Text BarrierLabel} {S : List ℕ} {j : ℕ} {c : Core n}

/-- `get_corethread_id` returns the number of the thread in `$v0` and the
greatest number in `$v1`. -/
theorem get_corethread_id_quiet (hS : ∀ s ∈ S, s < 2 ^ 60) (hcode : T.HasAt j get_corethread_id)
    (hl : labelIndex .one T.code = j + 17) (hfree : ∀ k, k < 19 → j + k ∉ S) {id N : ℕ}
    (hid : Corethread c id N) (hN : N < 2 ^ 31) :
    ∃ c', Quiet T F S (T.hartAt j c) ⟨c', c.get .ra, c.get .ra + 4⟩ ∧
      c'.get .v0 = BitVec.ofNat 64 id ∧ c'.get .v1 = BitVec.ofNat 64 (N - 1) ∧
      (∀ r, r ≠ .v0 → r ≠ .v1 → r ≠ .t0 → r ≠ .t1 → c'.get r = c.get r) ∧ c'.cp0 = c.cp0 := by
  rcases hid with ⟨hgx, rfl, rfl⟩ | ⟨hgx, mc, mt, core, thread, hp, rfl, rfl⟩
  · -- on gxemul
    apply Exists.intro
    refine ⟨?_, ?_, ?_, ?_, ?_⟩
    · refine .trans (quiet_op hS (hcode 0 _ rfl) (hfree 0 (by omega)) (fun _ => rfl)) ?_
      refine .trans (quiet_op hS (hcode 1 _ rfl) (hfree 1 (by omega)) (fun _ => rfl)) ?_
      refine .trans (quiet_op hS (hcode 2 _ rfl) (hfree 2 (by omega)) (fun _ => rfl)) ?_
      refine .trans (quiet_op hS (hcode 3 _ rfl) (hfree 3 (by omega)) (fun _ => rfl)) ?_
      refine .trans (quiet_taken hS (hcode 4 _ rfl) (hcode 5 _ rfl) (hfree 4 (by omega))
        (hfree 5 (by omega)) hl ?_ (fun _ => rfl)) ?_
      · simp only [Cond.holds, ne_eq, reduceCtorEq, not_false_eq_true, Core.get_set, if_true,
          if_false, Core.get_zero, beq_iff_eq, gxemul_test]
        exact hgx
      exact quiet_jr hS (hcode 17 _ rfl) (hcode 18 _ rfl) (hfree 17 (by omega)) (hfree 18 (by omega))
        (fun _ => Op.exec_addi_pred (x := 0) (by simp) (by omega))
    · simp
    · simp
    · intro r h₁ h₂ h₃ _
      simp [h₁, h₂, h₃]
    · rfl
  · obtain ⟨hcore, hthread, hmc, hmt, hc6, hc7⟩ := hp
    have hid : core * (mt + 1) ≤ mc * (mt + 1) := Nat.mul_le_mul_right _ hcore
    have hprod : (mc + 1) * (mt + 1) = mc * (mt + 1) + mt + 1 := by ring
    have hmc' := srl_id hc6 hmc (by omega)
    have hmt' := srl_id hc7 hmt (by omega)
    have hcore' := and_id hc6 (by omega)
    have hthread' := and_id hc7 (by omega)
    apply Exists.intro
    refine ⟨?_, ?_, ?_, ?_, ?_⟩
    · refine .trans (quiet_op hS (hcode 0 _ rfl) (hfree 0 (by omega)) (fun _ => rfl)) ?_
      refine .trans (quiet_op hS (hcode 1 _ rfl) (hfree 1 (by omega)) (fun _ => rfl)) ?_
      refine .trans (quiet_op hS (hcode 2 _ rfl) (hfree 2 (by omega)) (fun _ => rfl)) ?_
      refine .trans (quiet_op hS (hcode 3 _ rfl) (hfree 3 (by omega)) (fun _ => rfl)) ?_
      refine .trans (quiet_not_taken hS (hcode 4 _ rfl) (hcode 5 _ rfl) (hfree 4 (by omega))
        (hfree 5 (by omega)) ?_ (fun _ => rfl)) ?_
      · simp only [Cond.holds, ne_eq, reduceCtorEq, not_false_eq_true, Core.get_set, if_true,
          if_false, Core.get_zero, beq_eq_false_iff_ne, gxemul_test]
        exact hgx
      -- the core
      refine .trans (quiet_op hS (hcode 6 _ rfl) (hfree 6 (by omega)) (fun _ => rfl)) ?_
      refine .trans (quiet_op hS (hcode 7 _ rfl) (hfree 7 (by omega)) (fun _ => rfl)) ?_
      refine .trans (quiet_op hS (hcode 8 _ rfl) (hfree 8 (by omega))
        (fun _ => Op.exec_addi_one (x := mc) (by simpa using hmc') (by omega))) ?_
      refine .trans (quiet_op hS (hcode 9 _ rfl) (hfree 9 (by omega)) (fun _ => rfl)) ?_
      -- the thread
      refine .trans (quiet_op hS (hcode 10 _ rfl) (hfree 10 (by omega)) (fun _ => rfl)) ?_
      refine .trans (quiet_op hS (hcode 11 _ rfl) (hfree 11 (by omega)) (fun _ => rfl)) ?_
      refine .trans (quiet_op hS (hcode 12 _ rfl) (hfree 12 (by omega))
        (fun _ => Op.exec_addi_one (x := mt) (by simpa using hmt') (by omega))) ?_
      refine .trans (quiet_op hS (hcode 13 _ rfl) (hfree 13 (by omega)) (fun _ => rfl)) ?_
      -- the numbers
      refine .trans (quiet_op hS (hcode 14 _ rfl) (hfree 14 (by omega))
        (fun _ => Op.exec_mul_small (x := core) (y := mt + 1) (by simpa using hcore') (by simp)
          (by omega))) ?_
      refine .trans (quiet_op hS (hcode 15 _ rfl) (hfree 15 (by omega))
        (fun _ => Op.exec_add_small (x := core * (mt + 1)) (y := thread) (by simp)
          (by simpa using hthread') (by omega))) ?_
      refine .trans (quiet_op hS (hcode 16 _ rfl) (hfree 16 (by omega))
        (fun _ => Op.exec_mul_small (x := mt + 1) (y := mc + 1) (by simp) (by simp)
          (by rw [Nat.mul_comm]; exact hN))) ?_
      exact quiet_jr hS (hcode 17 _ rfl) (hcode 18 _ rfl) (hfree 17 (by omega)) (hfree 18 (by omega))
        (fun _ => Op.exec_addi_pred (x := (mc + 1) * (mt + 1) - 1)
          (by rw [Nat.sub_add_cancel (by omega)]; simp [Nat.mul_comm (mt + 1)]) (by omega))
    · simp
    · simp
    · intro r h₁ h₂ h₃ h₄
      simp [h₁, h₂, h₃, h₄]
    · rfl

end run

end Cheritest
