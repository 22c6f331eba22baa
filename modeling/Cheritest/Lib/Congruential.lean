/-
Cheritest/Lib/Congruential.lean

Linear congruential generators with a power of two for the modulus.

`step` is the generator without its modulus.  If `a - 1` is a multiple of 4
and `c` is odd, then `2^k` steps add an odd multiple of `2^k`: they flip bit
`k` and leave the bits below it alone.  So a state can be steered to any other
bit by bit, and already in strides of `2^j` to any that agrees with it in the
lowest `j` bits (`exists_iterate`).
-/
import Mathlib.Algebra.Order.Ring.Int
import Mathlib.Logic.Function.Iterate
import Mathlib.Tactic.Ring

namespace Congruential

/-- One step. -/
def step (a c x : ℤ) : ℤ := a * x + c

/-- `1 + a + ... + a^(k-1)`. -/
def powers (a : ℤ) : ℕ → ℤ
  | 0 => 0
  | k + 1 => 1 + a * powers a k

variable {a c : ℤ}

theorem iterate_step (k : ℕ) (x : ℤ) :
    (step a c)^[k] x = x + powers a k * ((a - 1) * x + c) := by
  induction k with
  | zero => simp [powers]
  | succ k ih =>
    rw [Function.iterate_succ_apply', ih, step, powers]
    ring

theorem powers_add (m k : ℕ) : powers a (m + k) = powers a m + a ^ m * powers a k := by
  induction m with
  | zero => simp [powers]
  | succ m ih =>
    rw [Nat.succ_add, powers, ih, powers]
    ring

theorem pow_eq (ha : a % 4 = 1) (m : ℕ) : ∃ q, a ^ m = 4 * q + 1 := by
  induction m with
  | zero => exact ⟨0, by simp⟩
  | succ m ih =>
    obtain ⟨q, hq⟩ := ih
    refine ⟨q * a + a / 4, ?_⟩
    have hdiv : a = 4 * (a / 4) + 1 := by omega
    calc a ^ (m + 1) = 4 * (q * a) + a := by rw [pow_succ, hq]; ring
      _ = 4 * (q * a + a / 4) + 1 := by omega

theorem powers_two_pow (ha : a % 4 = 1) (k : ℕ) : ∃ s, powers a (2 ^ k) = 2 ^ k * (2 * s + 1) := by
  induction k with
  | zero => exact ⟨0, by simp [powers]⟩
  | succ k ih =>
    obtain ⟨s, hs⟩ := ih
    obtain ⟨q, hq⟩ := pow_eq ha (2 ^ k)
    refine ⟨s * (2 * q + 1) + q, ?_⟩
    rw [pow_succ, Nat.mul_two, powers_add, hs, hq]
    ring

/-- `2^k` steps add an odd multiple of `2^k`. -/
theorem iterate_two_pow (ha : a % 4 = 1) (hc : c % 2 = 1) (k : ℕ) (x : ℤ) :
    ∃ s, (step a c)^[2 ^ k] x = x + 2 ^ k * (2 * s + 1) := by
  obtain ⟨s, hs⟩ := powers_two_pow ha k
  obtain ⟨u, hu⟩ : ∃ u, (a - 1) * x + c = 2 * u + 1 := by
    refine ⟨2 * (a / 4) * x + c / 2, ?_⟩
    have ha' : a - 1 = 4 * (a / 4) := by omega
    have hc' : c = 2 * (c / 2) + 1 := by omega
    calc (a - 1) * x + c = 4 * (a / 4) * x + (2 * (c / 2) + 1) := by rw [ha', ← hc']
      _ = 2 * (2 * (a / 4) * x + c / 2) + 1 := by ring
  refine ⟨2 * s * u + s + u, ?_⟩
  rw [iterate_step, hs, hu]
  ring

/-- **Every state comes up.**  In strides of `2^j` steps a state comes to
agree with `y` in as many bits as one likes, if it does so in the lowest `j`
bits. -/
theorem exists_iterate (ha : a % 4 = 1) (hc : c % 2 = 1) {j : ℕ} {x y : ℤ} (h : 2 ^ j ∣ y - x) (k : ℕ) :
    ∃ m, 2 ^ (j + k) ∣ y - (step a c)^[2 ^ j * m] x := by
  induction k with
  | zero => exact ⟨0, h⟩
  | succ k ih =>
    obtain ⟨m, d, hd⟩ := ih
    rcases Int.emod_two_eq_zero_or_one d with heven | hodd
    · -- bit `j + k` agrees already
      refine ⟨m, d / 2, ?_⟩
      have hd2 : d = 2 * (d / 2) := by omega
      calc y - (step a c)^[2 ^ j * m] x = 2 ^ (j + k) * d := hd
        _ = 2 ^ (j + k) * (2 * (d / 2)) := by rw [← hd2]
        _ = 2 ^ (j + (k + 1)) * (d / 2) := by ring
    · obtain ⟨s, hs⟩ := iterate_two_pow ha hc (j + k) ((step a c)^[2 ^ j * m] x)
      have hsteps : 2 ^ j * (m + 2 ^ k) = 2 ^ (j + k) + 2 ^ j * m := by ring
      have hd2 : d = 2 * (d / 2) + 1 := by omega
      refine ⟨m + 2 ^ k, d / 2 - s, ?_⟩
      rw [hsteps, Function.iterate_add_apply, hs]
      calc y - ((step a c)^[2 ^ j * m] x + 2 ^ (j + k) * (2 * s + 1))
          = 2 ^ (j + k) * d - 2 ^ (j + k) * (2 * s + 1) := by rw [← hd]; ring
        _ = 2 ^ (j + k) * (2 * (d / 2) + 1) - 2 ^ (j + k) * (2 * s + 1) := by rw [← hd2]
        _ = 2 ^ (j + (k + 1)) * (d / 2 - s) := by ring

end Congruential
