/-
Cheritest/Lib/Numerals.lean

The index types whose numerals are in use are not empty: registers and bytes of
capabilities (32), selects of coprocessor 0 (8), and the few threads and words
of the smaller ones.
-/
import Mathlib.Algebra.GroupWithZero.Nat
import Mathlib.Algebra.NeZero

instance neZeroTwo : NeZero 2 := ⟨by decide⟩

instance neZeroThree : NeZero 3 := ⟨by decide⟩

instance neZeroFour : NeZero 4 := ⟨by decide⟩

instance neZeroEight : NeZero 8 := ⟨by decide⟩

instance neZeroThirtyTwo : NeZero 32 := ⟨by decide⟩
