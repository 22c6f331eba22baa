/-
Cheritest/Lib/Binary.lean

Numbers as bytes, the most significant first, and records of such numbers.

A record is a list of fields, each with its size in bytes; a field is read
back at the sum of the sizes before it (`num_encode`), whatever follows the
record.
-/
import Mathlib.Data.List.Induction
import Mathlib.Algebra.Order.BigOperators.Group.List
import Mathlib.Tactic.Ring

namespace Binary

abbrev Byte := BitVec 8

/-! ### Numbers -/

/-- The number that bytes make. -/
def ofBytes (l : List Byte) : ℕ := l.foldl (fun v b => 256 * v + b.toNat) 0

/-- A number in `n` bytes. -/
def toBytes : ℕ → ℕ → List Byte
  | 0, _ => []
  | n + 1, v => toBytes n (v / 256) ++ [BitVec.ofNat 8 v]

@[simp] theorem length_toBytes (n v : ℕ) : (toBytes n v).length = n := by
  induction n generalizing v with
  | zero => rfl
  | succ n ih => rw [toBytes, List.length_append, ih, List.length_singleton]

theorem ofBytes_append (l : List Byte) (b : Byte) : ofBytes (l ++ [b]) = 256 * ofBytes l + b.toNat := by
  rw [ofBytes, List.foldl_append]
  rfl

/-- A number that fits is read back. -/
theorem ofBytes_toBytes {n v : ℕ} (hv : v < 256 ^ n) : ofBytes (toBytes n v) = v := by
  induction n generalizing v with
  | zero =>
    rw [pow_zero, Nat.lt_one_iff] at hv
    rw [hv]
    rfl
  | succ n ih =>
    rw [pow_succ] at hv
    rw [toBytes, ofBytes_append, ih (Nat.div_lt_of_lt_mul (by rwa [Nat.mul_comm])), BitVec.toNat_ofNat]
    exact Nat.div_add_mod v 256

theorem toBytes_ofBytes (l : List Byte) : toBytes l.length (ofBytes l) = l := by
  induction l using List.reverseRecOn with
  | nil => rfl
  | append_singleton l b ih =>
    have hb := b.isLt
    rw [List.length_append, List.length_singleton, toBytes, ofBytes_append,
      show (256 * ofBytes l + b.toNat) / 256 = ofBytes l by omega, ih]
    congr 2
    refine BitVec.eq_of_toNat_eq ?_
    rw [BitVec.toNat_ofNat]
    omega

theorem ofBytes_lt (l : List Byte) : ofBytes l < 256 ^ l.length := by
  induction l using List.reverseRecOn with
  | nil => exact Nat.one_pos
  | append_singleton l b ih =>
    have hb := b.isLt
    rw [ofBytes_append, List.length_append, List.length_singleton, pow_succ]
    omega

/-! ### Parts of a file -/

/-- The `n` bytes at an offset. -/
def slice (f : List Byte) (off n : ℕ) : List Byte := (f.drop off).take n

/-- The number in the `n` bytes at an offset. -/
def num (f : List Byte) (off n : ℕ) : ℕ := ofBytes (slice f off n)

/-- What stands between two parts. -/
theorem slice_middle (l m r : List Byte) : slice (l ++ m ++ r) l.length m.length = m := by
  rw [slice, List.append_assoc, List.drop_left, List.take_left]

theorem slice_append (l f : List Byte) (off n : ℕ) : slice (l ++ f) (l.length + off) n = slice f off n := by
  rw [slice, slice, List.drop_length_add_append]

/-! ### Records -/

structure Field where
  size : ℕ
  value : ℕ

/-- The bytes of a record. -/
def encode (fs : List Field) : List Byte := fs.flatMap fun x => toBytes x.size x.value

/-- The size of a record. -/
def width (fs : List Field) : ℕ := (fs.map Field.size).sum

theorem length_encode (fs : List Field) : (encode fs).length = width fs := by
  simp [encode, width, List.length_flatMap]

theorem encode_append (fs gs : List Field) : encode (fs ++ gs) = encode fs ++ encode gs :=
  List.flatMap_append

/-- **A field is read back** at its offset. -/
theorem num_encode {fs : List Field} {i off size v : ℕ} (h : fs[i]? = some ⟨size, v⟩)
    (hoff : width (fs.take i) = off) (hv : v < 256 ^ size) (rest : List Byte) :
    num (encode fs ++ rest) off size = v := by
  obtain ⟨hi, hget⟩ := List.getElem?_eq_some_iff.mp h
  have hsplit : fs = fs.take i ++ [⟨size, v⟩] ++ fs.drop (i + 1) := by
    rw [List.append_assoc, List.singleton_append, ← hget, List.getElem_cons_drop, List.take_append_drop]
  have hfield : encode [⟨size, v⟩] = toBytes size v := List.append_nil _
  have hslice := slice_middle (encode (fs.take i)) (toBytes size v)
    (encode (fs.drop (i + 1)) ++ rest)
  rw [length_encode, hoff, length_toBytes, ← hfield, ← List.append_assoc, ← encode_append,
    ← encode_append, ← hsplit] at hslice
  rw [num, hslice, hfield, ofBytes_toBytes hv]

end Binary
