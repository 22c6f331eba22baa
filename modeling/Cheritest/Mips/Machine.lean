/-
Cheritest/Mips/Machine.lean

A hardware thread of a MIPS64 machine with the CHERI capability coprocessor,
as far as hand-written assembly needs it: the general registers, the
capability registers, coprocessor 0, and a byte memory with one tag per
capability-sized granule.

The in-memory format of a capability is a parameter (`CapFormat`): it says
how the bounds, the offset, the seal and the permissions are read off the
`n` bytes of a capability, so that the same machine serves 128-bit and
256-bit capabilities.  A thread also keeps the list of the data accesses it
has issued (`log`), which nothing in the machine reads back.
-/
import Cheritest.Lib.Numerals
import Mathlib.Data.BitVec
import Mathlib.Tactic.NormNum
import Mathlib.Logic.Function.Basic

namespace Mips

/-! ### Registers -/

/-- The general registers under their n64 names (`$12` is `t0`). -/
inductive Reg
  | zero | at_ | v0 | v1 | a0 | a1 | a2 | a3 | a4 | a5 | a6 | a7
  | t0 | t1 | t2 | t3 | s0 | s1 | s2 | s3 | s4 | s5 | s6 | s7 | t8
  | t9 | k0 | k1 | gp | sp | fp | ra
  deriving DecidableEq, Repr

/-- Capability permissions that a data access or a jump looks at. -/
inductive Perm
  | global | execute | load | store | loadCap | storeCap | storeLocalCap
  deriving DecidableEq, Repr

/-- The content of a capability register: a tag and the memory image. -/
structure CapVal (n : ℕ) where
  tag : Bool
  data : Fin n → BitVec 8

/-- How a capability of `n` bytes is read. -/
structure CapFormat (n : ℕ) where
  base : (Fin n → BitVec 8) → BitVec 64
  /-- One past the last address in bounds. -/
  top : (Fin n → BitVec 8) → ℕ
  top_le : ∀ v, top v ≤ 2 ^ 64
  offset : (Fin n → BitVec 8) → BitVec 64
  isSealed : (Fin n → BitVec 8) → Bool
  perm : (Fin n → BitVec 8) → Perm → Bool

namespace CapFormat

variable {n : ℕ} (F : CapFormat n)

/-- The address a capability points at. -/
def cursor (v : CapVal n) : BitVec 64 := F.base v.data + F.offset v.data

/-- A tagged, unsealed capability with permission `p` covers the `size`
bytes from `a`. -/
def allows (v : CapVal n) (p : Perm) (a : BitVec 64) (size : ℕ) : Bool :=
  v.tag && !F.isSealed v.data && F.perm v.data p &&
    decide ((F.base v.data).toNat ≤ a.toNat) && decide (a.toNat + size ≤ F.top v.data)

theorem allows_iff {v : CapVal n} {p : Perm} {a : BitVec 64} {size : ℕ} :
    F.allows v p a size = true ↔
      v.tag = true ∧ F.isSealed v.data = false ∧ F.perm v.data p = true ∧
        (F.base v.data).toNat ≤ a.toNat ∧ a.toNat + size ≤ F.top v.data := by
  simp [allows, and_assoc]

end CapFormat

/-! ### Memory -/

/-- Byte memory, and one tag per aligned granule of `n` bytes (granules are
numbered by address divided by `n`). -/
structure Mem where
  byte : BitVec 64 → BitVec 8
  tag : ℕ → Bool

namespace Mem

/-- Store one byte; the granule it lies in loses its tag. -/
def storeByte (n : ℕ) (m : Mem) (a : BitVec 64) (v : BitVec 8) : Mem where
  byte := Function.update m.byte a v
  tag := Function.update m.tag (a.toNat / n) false

@[simp] theorem storeByte_byte (n : ℕ) (m : Mem) (a : BitVec 64) (v : BitVec 8) :
    (m.storeByte n a v).byte = Function.update m.byte a v := rfl

@[simp] theorem storeByte_tag (n : ℕ) (m : Mem) (a : BitVec 64) (v : BitVec 8) :
    (m.storeByte n a v).tag = Function.update m.tag (a.toNat / n) false := rfl

/-- Load the granule at `a`, bytes and tag. -/
def loadCap (n : ℕ) (m : Mem) (a : BitVec 64) : CapVal n where
  tag := m.tag (a.toNat / n)
  data := fun j => m.byte (a + BitVec.ofNat 64 j)

/-- Store a capability over the granule at `a`, bytes and tag. -/
def storeCap {n : ℕ} (m : Mem) (a : BitVec 64) (v : CapVal n) : Mem where
  byte := fun b =>
    if h : (b - a).toNat < n then v.data ⟨(b - a).toNat, h⟩ else m.byte b
  tag := Function.update m.tag (a.toNat / n) v.tag

/-- Load the `k` bytes from `a` as one big-endian number. -/
def loadNat (m : Mem) (a : BitVec 64) : ℕ → ℕ
  | 0 => 0
  | k + 1 => loadNat m a k * 256 + (m.byte (a + BitVec.ofNat 64 k)).toNat

/-- Load a big-endian doubleword. -/
def loadDouble (m : Mem) (a : BitVec 64) : BitVec 64 := BitVec.ofNat 64 (m.loadNat a 8)

/-- Store a big-endian doubleword; the granule it lies in loses its tag. -/
def storeDouble (n : ℕ) (m : Mem) (a : BitVec 64) (v : BitVec 64) : Mem where
  byte := fun b =>
    if (b - a).toNat < 8 then (v >>> (8 * (7 - (b - a).toNat))).setWidth 8 else m.byte b
  tag := Function.update m.tag (a.toNat / n) false

/-- Store the leading bytes of a big-endian doubleword, from `a` to the end of
the aligned doubleword that `a` lies in. -/
def storeLeft (n : ℕ) (m : Mem) (a : BitVec 64) (v : BitVec 64) : Mem where
  byte := fun b =>
    if (b - a).toNat < 8 - a.toNat % 8 then (v >>> (8 * (7 - (b - a).toNat))).setWidth 8
    else m.byte b
  tag := Function.update m.tag (a.toNat / n) false

/-- Bytes beside a stored doubleword. -/
theorem storeDouble_byte (n : ℕ) (m : Mem) (a v : BitVec 64) {b : BitVec 64}
    (h : 8 ≤ (b - a).toNat) : (m.storeDouble n a v).byte b = m.byte b := if_neg (by omega)

/-- A doubleword is made of its eight bytes. -/
theorem loadDouble_congr {m m' : Mem} {a : BitVec 64}
    (h : ∀ b : BitVec 64, (b - a).toNat < 8 → m'.byte b = m.byte b) : m'.loadDouble a = m.loadDouble a := by
  have hnat (k : ℕ) (hk : k ≤ 8) : m'.loadNat a k = m.loadNat a k := by
    induction k with
    | zero => rfl
    | succ k ih =>
      have hoff : (a + BitVec.ofNat 64 k - a).toNat = k := by
        rw [BitVec.add_comm, BitVec.add_sub_cancel, BitVec.toNat_ofNat]
        omega
      rw [loadNat, loadNat, ih (by omega), h _ (by omega)]
  rw [loadDouble, loadDouble, hnat 8 (le_refl 8)]

/-- Reading back the leading `k` bytes of a stored doubleword. -/
theorem loadNat_storeDouble (n : ℕ) (m : Mem) (a v : BitVec 64) {k : ℕ} (hk : k ≤ 8) :
    (m.storeDouble n a v).loadNat a k = v.toNat / 2 ^ (8 * (8 - k)) := by
  induction k with
  | zero =>
    have := v.isLt
    simp only [loadNat]
    omega
  | succ k ih =>
    have hoff : (a + BitVec.ofNat 64 k - a).toNat = k := by
      rw [BitVec.add_comm, BitVec.add_sub_cancel, BitVec.toNat_ofNat]
      omega
    have hbyte : ((m.storeDouble n a v).byte (a + BitVec.ofNat 64 k)).toNat
        = v.toNat / 2 ^ (8 * (8 - (k + 1))) % 256 := by
      simp only [storeDouble, hoff, if_pos (show k < 8 by omega), BitVec.toNat_setWidth,
        BitVec.toNat_ushiftRight, Nat.shiftRight_eq_div_pow]
      rw [show 7 - k = 8 - (k + 1) by omega]
    have hsplit : v.toNat / 2 ^ (8 * (8 - k)) = v.toNat / 2 ^ (8 * (8 - (k + 1))) / 256 := by
      rw [Nat.div_div_eq_div_mul, show (256 : ℕ) = 2 ^ 8 by norm_num, ← pow_add]
      congr 2
      omega
    rw [loadNat, ih (by omega), hbyte, hsplit]
    omega

/-- A stored doubleword reads back. -/
@[simp] theorem loadDouble_storeDouble (n : ℕ) (m : Mem) (a v : BitVec 64) :
    (m.storeDouble n a v).loadDouble a = v := by
  rw [loadDouble, loadNat_storeDouble n m a v (by omega)]
  simp

end Mem

/-! ### The state of a hardware thread -/

/-- Direction of a data access. -/
inductive AccessKind
  | load | store
  deriving DecidableEq, Repr

/-- A data access that was issued: its direction, address and width. -/
structure Access where
  kind : AccessKind
  addr : BitVec 64
  size : ℕ
  deriving DecidableEq, Repr

/-- Everything private to a hardware thread but its program counters. -/
structure Core (n : ℕ) where
  gpr : Reg → BitVec 64
  cap : Fin 32 → CapVal n
  /-- Coprocessor 0 by register number and select. -/
  cp0 : Fin 32 → Fin 8 → BitVec 64
  capCause : BitVec 16
  log : List Access

namespace Core

variable {n : ℕ}

/-- Read a general register; `$zero` reads as 0. -/
def get (c : Core n) (r : Reg) : BitVec 64 := if r = .zero then 0 else c.gpr r

/-- Write a general register. -/
def set (c : Core n) (r : Reg) (v : BitVec 64) : Core n :=
  { c with gpr := Function.update c.gpr r v }

/-- Write a capability register. -/
def setCap (c : Core n) (r : Fin 32) (v : CapVal n) : Core n :=
  { c with cap := Function.update c.cap r v }

/-- Write a coprocessor 0 register. -/
def setCp0 (c : Core n) (r : Fin 32) (s : Fin 8) (v : BitVec 64) : Core n :=
  { c with cp0 := Function.update c.cp0 r (Function.update (c.cp0 r) s v) }

/-- Record a data access. -/
def issue (c : Core n) (k : AccessKind) (a : BitVec 64) (size : ℕ) : Core n :=
  { c with log := ⟨k, a, size⟩ :: c.log }

section simp
variable (c : Core n) (r q : Reg) (v : BitVec 64) (x : Fin 32) (w : CapVal n)
  (k : AccessKind) (a : BitVec 64) (z : ℕ)

@[simp] theorem get_zero : c.get .zero = 0 := rfl

@[simp] theorem get_set_zero : (c.set .zero v).get q = c.get q := by
  unfold get set
  split_ifs with h
  · rfl
  · simp [h]

@[simp] theorem get_set (hr : r ≠ .zero) :
    (c.set r v).get q = if q = r then v else c.get q := by
  simp only [get, set, Function.update_apply]
  split_ifs with h₁ h₂ h₂
  · exact absurd (h₂.symm.trans h₁) hr
  all_goals rfl

@[simp] theorem get_setCap : (c.setCap x w).get q = c.get q := rfl
@[simp] theorem get_setCp0 (s : Fin 8) : (c.setCp0 x s v).get q = c.get q := rfl
@[simp] theorem get_issue : (c.issue k a z).get q = c.get q := rfl

@[simp] theorem cap_set : (c.set r v).cap = c.cap := rfl
@[simp] theorem cap_setCap : (c.setCap x w).cap = Function.update c.cap x w := rfl
@[simp] theorem cap_setCp0 (s : Fin 8) : (c.setCp0 x s v).cap = c.cap := rfl
@[simp] theorem cap_issue : (c.issue k a z).cap = c.cap := rfl

@[simp] theorem cp0_set : (c.set r v).cp0 = c.cp0 := rfl
@[simp] theorem cp0_setCap : (c.setCap x w).cp0 = c.cp0 := rfl
@[simp] theorem cp0_issue : (c.issue k a z).cp0 = c.cp0 := rfl

@[simp] theorem cp0_setCp0 (s : Fin 8) (y : Fin 32) (t : Fin 8) :
    (c.setCp0 x s v).cp0 y t = if y = x ∧ t = s then v else c.cp0 y t := by
  by_cases hy : y = x
  · subst hy
    simp [setCp0, Function.update_apply]
  · simp [setCp0, hy]

@[simp] theorem capCause_set : (c.set r v).capCause = c.capCause := rfl
@[simp] theorem capCause_setCap : (c.setCap x w).capCause = c.capCause := rfl
@[simp] theorem capCause_setCp0 (s : Fin 8) : (c.setCp0 x s v).capCause = c.capCause := rfl
@[simp] theorem capCause_issue : (c.issue k a z).capCause = c.capCause := rfl

@[simp] theorem log_set : (c.set r v).log = c.log := rfl
@[simp] theorem log_setCap : (c.setCap x w).log = c.log := rfl
@[simp] theorem log_setCp0 (s : Fin 8) : (c.setCp0 x s v).log = c.log := rfl
@[simp] theorem log_issue : (c.issue k a z).log = ⟨k, a, z⟩ :: c.log := rfl

end simp

end Core

end Mips
