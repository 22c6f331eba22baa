/-
Cheritest/Dma/Random.lean

The random number generator of the DMA tests, `myrand` of
dma_test_generation.c and multithread_test_template.c.

The state is an `unsigned long`; a number is made of bits 16 to 30 of it.
`exists_rand_value`: every number comes up again, whatever the state and even
if only every fourth number is looked at.
-/
import Cheritest.Lib.Congruential
import Mathlib.Data.BitVec

namespace Cheritest

/-- `next = next * 1103515245 + 12345`. -/
def rand_next (next : BitVec 64) : BitVec 64 := next * 1103515245 + 12345

/-- `(unsigned)(next/65536) % 32768`. -/
def rand_value (next : BitVec 64) : ℕ := ((next / 65536).setWidth 32 % 32768).toNat

theorem rand_value_eq (next : BitVec 64) : rand_value next = next.toNat % 2 ^ 31 / 65536 := by
  have h : rand_value next = next.toNat / 65536 % 2 ^ 32 % 32768 := by
    simp [rand_value]
  rw [h]
  omega

theorem toNat_rand_next (next : BitVec 64) :
    (rand_next next).toNat = (next.toNat * 1103515245 + 12345) % 2 ^ 64 := by
  have ha : (1103515245 : BitVec 64).toNat = 1103515245 := by decide
  have hc : (12345 : BitVec 64).toNat = 12345 := by decide
  rw [rand_next, BitVec.toNat_add, BitVec.toNat_mul, ha, hc, Nat.mod_add_mod]

/-- The generator without its modulus. -/
def randStep : ℤ → ℤ := Congruential.step 1103515245 12345

theorem randStep_apply (x : ℤ) : randStep x = 1103515245 * x + 12345 := rfl

theorem toNat_iterate_rand_next (k : ℕ) (next : BitVec 64) :
    (2 : ℤ) ^ 64 ∣ randStep^[k] next.toNat - (rand_next^[k] next).toNat := by
  induction k with
  | zero => simp
  | succ k ih =>
    obtain ⟨d, hd⟩ := ih
    rw [Function.iterate_succ_apply', Function.iterate_succ_apply', toNat_rand_next, randStep_apply]
    omega

/-- Every number comes up, in strides of four. -/
theorem exists_rand_value (next : BitVec 64) {v : ℕ} (hv : v < 32768) :
    ∃ m, rand_value (rand_next^[4 * m] next) = v := by
  -- a state with the number `v` and the lowest two bits of `next`
  have hlow : (2 : ℤ) ^ 2 ∣ 65536 * v + next.toNat % 4 - next.toNat := by omega
  obtain ⟨m, hm⟩ := Congruential.exists_iterate (a := 1103515245) (c := 12345) (by decide) (by decide)
    hlow 29
  have hword := toNat_iterate_rand_next (2 ^ 2 * m) next
  refine ⟨m, ?_⟩
  rw [rand_value_eq]
  have hmul : 2 ^ 2 * m = 4 * m := rfl
  rw [randStep, hmul] at hword
  rw [hmul] at hm
  omega

/-- It comes up again and again. -/
theorem exists_rand_value_ge (next : BitVec 64) (K : ℕ) {v : ℕ} (hv : v < 32768) :
    ∃ k ≥ K, rand_value (rand_next^[4 * k] next) = v := by
  obtain ⟨m, hm⟩ := exists_rand_value (rand_next^[4 * K] next) hv
  refine ⟨m + K, Nat.le_add_left _ _, ?_⟩
  rw [Nat.mul_add, Function.iterate_add_apply]
  exact hm

end Cheritest
