/-
Cheritest/Mips/BranchWord.lean

Branches as 32-bit words: the fields of a word, the branch it encodes, and
where execution continues after the branch's delay slot.

A word is read by its major opcode (bits 31..26) and, where that names a
group, by the group's own field: `funct` for SPECIAL, `rt` for REGIMM, `rs`
for the capability coprocessor.  The registers are functions from register
numbers.  Capability registers may be missing from a save area, so a branch
on one has no successor there.
-/
import Mathlib.Data.BitVec

namespace Mips.BranchWord

/-! ### Fields -/

section Fields

variable (w : BitVec 32)

def opcode : BitVec 6 := w.extractLsb' 26 6
def rs : BitVec 5 := w.extractLsb' 21 5
def rt : BitVec 5 := w.extractLsb' 16 5
def rd : BitVec 5 := w.extractLsb' 11 5
def sa : BitVec 5 := w.extractLsb' 6 5
def funct : BitVec 6 := w.extractLsb' 0 6
def immediate : BitVec 16 := w.extractLsb' 0 16
def instrIndex : BitVec 26 := w.extractLsb' 0 26

end Fields

/-! ### Branches -/

/-- What a relative branch tests. -/
inductive Test
  | ltz (rs : BitVec 5)
  | gez (rs : BitVec 5)
  | lez (rs : BitVec 5)
  | gtz (rs : BitVec 5)
  | eq (rs rt : BitVec 5)
  | ne (rs rt : BitVec 5)
  | untagged (cb : BitVec 5)
  | tagged (cb : BitVec 5)
  deriving DecidableEq, Repr

/-- A branch.  A relative one may save a return address (`link`) and may skip
its delay slot when it is not taken (`likely`). -/
inductive Branch
  | relative (link likely : Bool) (test : Test) (offset : BitVec 16)
  | jump (index : BitVec 26)
  | register (rs : BitVec 5)
  | capability (cb : BitVec 5)
  deriving DecidableEq, Repr

/-- The branches under REGIMM. -/
def regimm (w : BitVec 32) : Option Branch :=
  match (rt w).toNat with
  | 0x00 => some (.relative false false (.ltz (rs w)) (immediate w))
  | 0x01 => some (.relative false false (.gez (rs w)) (immediate w))
  | 0x02 => some (.relative false true (.ltz (rs w)) (immediate w))
  | 0x03 => some (.relative false true (.gez (rs w)) (immediate w))
  | 0x10 => some (.relative true false (.ltz (rs w)) (immediate w))
  | 0x11 => some (.relative true false (.gez (rs w)) (immediate w))
  | 0x12 => some (.relative true true (.ltz (rs w)) (immediate w))
  | 0x13 => some (.relative true true (.gez (rs w)) (immediate w))
  | _ => none

/-- The branches under SPECIAL: `jr` and `jalr`. -/
def special (w : BitVec 32) : Option Branch :=
  match (funct w).toNat with
  | 0x08 => some (.register (rs w))
  | 0x09 => some (.register (rs w))
  | _ => none

/-- The branches of the capability coprocessor: `cjalr`, `cjr`, `cbtu`, `cbts`. -/
def cp2 (w : BitVec 32) : Option Branch :=
  match (rs w).toNat with
  | 0x07 => some (.capability (rd w))
  | 0x08 => some (.capability (rd w))
  | 0x09 => some (.relative false false (.untagged (rt w)) (immediate w))
  | 0x0a => some (.relative false false (.tagged (rt w)) (immediate w))
  | _ => none

/-- The branch a word encodes. -/
def decode (w : BitVec 32) : Option Branch :=
  match (opcode w).toNat with
  | 0x00 => special w
  | 0x01 => regimm w
  | 0x02 => some (.jump (instrIndex w))
  | 0x03 => some (.jump (instrIndex w))
  | 0x04 => some (.relative false false (.eq (rs w) (rt w)) (immediate w))
  | 0x05 => some (.relative false false (.ne (rs w) (rt w)) (immediate w))
  | 0x06 => some (.relative false false (.lez (rs w)) (immediate w))
  | 0x07 => some (.relative false false (.gtz (rs w)) (immediate w))
  | 0x12 => cp2 w
  | 0x14 => some (.relative false true (.eq (rs w) (rt w)) (immediate w))
  | 0x15 => some (.relative false true (.ne (rs w) (rt w)) (immediate w))
  | 0x16 => some (.relative false true (.lez (rs w)) (immediate w))
  | 0x17 => some (.relative false true (.gtz (rs w)) (immediate w))
  | _ => none

/-! ### Where a branch goes -/

/-- A capability, as far as a jump looks at it. -/
structure Capability where
  tag : Bool
  base : BitVec 64
  length : BitVec 64
  offset : BitVec 64
  deriving DecidableEq, Repr

/-- The saved registers. -/
structure Regs where
  gpr : BitVec 5 → BitVec 64
  cap : BitVec 5 → Option Capability

variable (r : Regs) (pc : BitVec 64)

/-- Whether a test holds. -/
def Test.holds : Test → Option Bool
  | .ltz rs => some (decide ((r.gpr rs).toInt < 0))
  | .gez rs => some (decide (0 ≤ (r.gpr rs).toInt))
  | .lez rs => some (decide ((r.gpr rs).toInt ≤ 0))
  | .gtz rs => some (decide (0 < (r.gpr rs).toInt))
  | .eq rs rt => some (decide (r.gpr rs = r.gpr rt))
  | .ne rs rt => some (decide (r.gpr rs ≠ r.gpr rt))
  | .untagged cb => (r.cap cb).map fun c => !c.tag
  | .tagged cb => (r.cap cb).map fun c => c.tag

/-- The target of a relative branch at `pc`. -/
def relativeTarget (offset : BitVec 16) : BitVec 64 := pc + 4 + 4 * offset.signExtend 64

/-- The target of `j` and `jal` at `pc`: the delay slot's address with its low
28 bits replaced. -/
def jumpTarget (index : BitVec 26) : BitVec 64 :=
  ((pc + 4) >>> 28) <<< 28 ||| index.setWidth 64 <<< 2

/-- The address of the instruction after the delay slot of the branch at `pc`. -/
def Branch.successor : Branch → Option (BitVec 64)
  | .relative _ _ test offset =>
      (test.holds r).map fun taken => if taken then relativeTarget pc offset else pc + 8
  | .jump index => some (jumpTarget pc index)
  | .register rs => some (r.gpr rs)
  | .capability cb => (r.cap cb).map Capability.offset

/-- A likely branch that is not taken does not run its delay slot. -/
def Branch.runsSlot : Branch → Bool
  | .relative _ true test _ => decide (test.holds r ≠ some false)
  | _ => true

/-! ### Jumps to address zero -/

/-- A jump leads to zero only with index zero, from the lowest region. -/
theorem jumpTarget_eq_zero_iff (index : BitVec 26) :
    jumpTarget pc index = 0#64 ↔ index = 0#26 ∧ (pc + 4) >>> 28 = 0#64 := by
  have hregion : ((pc + 4) >>> 28) <<< 28 = 0#64 ↔ (pc + 4) >>> 28 = 0#64 := by
    have hpc := (pc + 4).isLt
    simp only [← BitVec.toNat_inj, BitVec.toNat_shiftLeft, BitVec.toNat_ushiftRight,
      Nat.shiftLeft_eq, Nat.shiftRight_eq_div_pow, BitVec.toNat_zero]
    generalize (pc + 4).toNat = x at hpc ⊢
    omega
  have hindex : index.setWidth 64 <<< 2 = 0#64 ↔ index = 0#26 := by
    have hi := index.isLt
    simp only [← BitVec.toNat_inj, BitVec.toNat_shiftLeft, BitVec.toNat_setWidth,
      Nat.shiftLeft_eq, BitVec.toNat_zero]
    generalize index.toNat = x at hi ⊢
    omega
  show _ ||| _ = 0#64 ↔ _
  rw [BitVec.or_eq_zero_iff, hregion, hindex]
  exact and_comm

end Mips.BranchWord
