/-
Cheritest/CheriC/TestRuntime.lean

The SIGPROT handler of the CHERI C tests (test_runtime.c): `capsighandler`
resumes a test after a capability fault, and `emulateBranch` works out where
to when the fault is in a branch delay slot.

The addresses and registers of a context are 64-bit, and an assertion that
fails is `none`.  The size of a pointer is a parameter, and so is the value of
the shifts in `getImm` that C leaves undefined (`Abi`); with 32-byte pointers
the only such shift is in the reading of a field of no bits.
-/
import Cheritest.Mips.BranchWord

namespace Cheritest.TestRuntime

open Mips.BranchWord

/-! ### Opcodes -/

inductive BranchOps
  | regimm | cheri | j | jal | jr | jalr | beq | bne | blez | bgtz
  | beql | bnel | blezl | bgtzl
  deriving DecidableEq, Repr

def BranchOps.code : BranchOps → ℕ
  | .regimm => 0x1
  | .cheri => 0x12
  | .j => 0x2
  | .jal => 0x3
  | .jr => 0x8
  | .jalr => 0x9
  | .beq => 0x4
  | .bne => 0x5
  | .blez => 0x6
  | .bgtz => 0x7
  | .beql => 0x14
  | .bnel => 0x15
  | .blezl => 0x16
  | .bgtzl => 0x17

inductive RegimmBranchOps
  | bltz | bgez | bltzal | bgezal | bltzl | bgezl | bltzall | bgezall
  deriving DecidableEq, Repr

def RegimmBranchOps.code : RegimmBranchOps → ℕ
  | .bltz => 0x0
  | .bgez => 0x1
  | .bltzal => 0x10
  | .bgezal => 0x11
  | .bltzl => 0x2
  | .bgezl => 0x3
  | .bltzall => 0x12
  | .bgezall => 0x13

inductive CheriBranchOps
  | cbtu | cbts | cjr | cjalr
  deriving DecidableEq, Repr

def CheriBranchOps.code : CheriBranchOps → ℕ
  | .cbtu => 0x09
  | .cbts => 0x0a
  | .cjr => 0x07
  | .cjalr => 0x08

/-- The `case` of a switch that a value selects. -/
def switch {α : Type} (cases : List α) (code : α → ℕ) (c : ℕ) : Option α :=
  cases.find? fun op => code op = c

theorem switch_eq_some {α : Type} {cases : List α} {code : α → ℕ} {c : ℕ} {op : α}
    (h : switch cases code c = some op) : c = code op := by
  have hop := List.find?_some h
  exact (of_decide_eq_true hop).symm

theorem switch_eq_none {α : Type} {cases : List α} {code : α → ℕ} {c : ℕ}
    (h : switch cases code c = none) : ∀ op ∈ cases, code op ≠ c := by
  intro op hop hc
  have hnone := List.find?_eq_none.mp h op hop
  exact hnone (decide_eq_true hc)

/-- `(enum branch_ops)c`. -/
def BranchOps.ofCode : ℕ → Option BranchOps :=
  switch [.regimm, .j, .jal, .jr, .jalr, .beql, .beq, .bnel, .bne, .blezl, .blez, .bgtzl, .bgtz,
    .cheri] code

/-- `(enum regimm_branch_ops)c`. -/
def RegimmBranchOps.ofCode : ℕ → Option RegimmBranchOps :=
  switch [.bltzl, .bltzall, .bltz, .bltzal, .bgezl, .bgez, .bgezal, .bgezall] code

/-- `(enum cheri_branch_ops)c`. -/
def CheriBranchOps.ofCode : ℕ → Option CheriBranchOps :=
  switch [.cbtu, .cbts, .cjr, .cjalr] code

/-! ### The saved context -/

/-- `struct cheri_frame`: the capabilities before `cf_pcc`, which is at index
27, and the cause register. -/
structure CheriFrame where
  cap : Fin 27 → Capability
  cf_pcc : Capability
  cf_capcause : BitVec 64

/-- `mcontext_t`.  The frame is whole, so the length that `getCHERIFrame`
checks is right by construction. -/
structure Mcontext where
  mc_pc : BitVec 64
  cause : BitVec 64
  mc_regs : BitVec 5 → BitVec 64
  frame : CheriFrame

def Mcontext.setPc (context : Mcontext) (pc : BitVec 64) : Mcontext := { context with mc_pc := pc }

def Mcontext.setPcc (context : Mcontext) (pcc : Capability) : Mcontext :=
  { context with frame := { context.frame with cf_pcc := pcc } }

@[simp] theorem setPc_mc_pc (context : Mcontext) (pc : BitVec 64) :
    (context.setPc pc).mc_pc = pc := rfl

@[simp] theorem setPcc_mc_pc (context : Mcontext) (pcc : Capability) :
    (context.setPcc pcc).mc_pc = context.mc_pc := rfl

/-- The registers of the architecture that a context holds. -/
def Mcontext.saved (context : Mcontext) : Regs where
  gpr n := if n = 0 then 0 else context.mc_regs n
  cap n := if h : n.toNat < 27 then some (context.frame.cap ⟨n.toNat, h⟩) else none

/-! ### The code -/

/-- The size of a pointer, and what `0xffffffff >> n` gives for `n` from 32 on. -/
structure Abi where
  cap_size : ℕ
  overshift : ℕ → BitVec 32

/-- The pure-capability ABI with 256-bit capabilities. -/
def Abi.cheri256 (overshift : ℕ → BitVec 32) : Abi := ⟨32, overshift⟩

/-- `assert`. -/
def assert (p : Prop) [Decidable p] : Option Unit := if p then some () else none

section Code

variable (abi : Abi)

def signExtend (val : BitVec 64) (size : ℕ) : BitVec 64 :=
  (val <<< (64 - size)).sshiftRight (64 - size)

/-- `0xffffffff >> n` on 32 bits. -/
def onesShr (n : ℕ) : BitVec 32 := if n < 32 then 0xffffffff#32 >>> n else abi.overshift n

/-- Subtraction of `size_t`. -/
def sizeSub (a b : ℕ) : ℕ := (a + 2 ^ 64 - b) % 2 ^ 64

def getImm (instr : BitVec 32) (start len : ℕ) : BitVec 64 :=
  let mask := onesShr abi (sizeSub abi.cap_size len) <<< (start + 1 - len)
  ((instr &&& mask) >>> (start + 1 - len)).setWidth 64

def getCapRegAtIndex (context : Mcontext) (idx : ℕ) : Option Capability :=
  if idx = 0xff then some context.frame.cf_pcc
  else if h : idx < 26 then some (context.frame.cap ⟨idx, by omega⟩) else none

def getAdjustedPc (context : Mcontext) (pc : BitVec 64) : Option Capability := do
  let pcc := context.frame.cf_pcc
  assert (pcc.base < pcc.base + pc)
  assert (pc < pcc.length)
  return { pcc with offset := pcc.offset + pc }

def getReg (context : Mcontext) (instr : BitVec 32) (opidx : ℕ) : BitVec 64 :=
  let regno := (getImm abi instr opidx 5).setWidth 5
  if regno = 0 then 0 else context.mc_regs regno

def getCapReg (context : Mcontext) (instr : BitVec 32) (opidx : ℕ) : Option Capability :=
  getCapRegAtIndex context (getImm abi instr opidx 5).toNat

def getSImm (instr : BitVec 32) (start len : ℕ) : BitVec 64 :=
  signExtend (getImm abi instr start len) len

def getOpcode (instr : BitVec 32) : BitVec 64 := getImm abi instr 31 6

def isInDelaySlot (context : Mcontext) : Bool :=
  getImm abi (context.cause.setWidth 32) 31 1 ≠ 0

/-- The end of a case: set the pc and return true. -/
def branchTo (context : Mcontext) (pc : BitVec 64) : Option (Bool × Mcontext) :=
  some (true, context.setPc pc)

/-- The switch under REGIMM. -/
def emulateRegimm (context : Mcontext) (pc : BitVec 64) (instr : BitVec 32) :
    Option (Bool × Mcontext) :=
  let branchPc := pc + getSImm abi instr 15 16 <<< 2 + 4
  let normalPc := pc + 8
  let regVal := getReg abi context instr 25
  match RegimmBranchOps.ofCode (getImm abi instr 20 5).toNat with
  | some .bltzl | some .bltzall => do
      assert (regVal.toInt < 0)
      branchTo context (if regVal.toInt < 0 then branchPc else normalPc)
  | some .bltz | some .bltzal =>
      branchTo context (if regVal.toInt < 0 then branchPc else normalPc)
  | some .bgezl | some .bgez => do
      -- the assertion of `bltzl`, in the cases of `bgezl` and of `bgez`
      assert (regVal.toInt < 0)
      branchTo context (if 0 ≤ regVal.toInt then branchPc else normalPc)
  | some .bgezal | some .bgezall =>
      branchTo context (if 0 ≤ regVal.toInt then branchPc else normalPc)
  | none => some (false, context)

/-- The switch under CP2. -/
def emulateCheri (context : Mcontext) (pc : BitVec 64) (instr : BitVec 32) :
    Option (Bool × Mcontext) :=
  let branchPc := pc + getSImm abi instr 15 16 <<< 2 + 4
  let normalPc := pc + 8
  match CheriBranchOps.ofCode (getImm abi instr 25 5).toNat with
  | some .cbtu => do
      let cap ← getCapReg abi context instr 20
      branchTo context (if !cap.tag then branchPc else normalPc)
  | some .cbts => do
      let cap ← getCapReg abi context instr 20
      branchTo context (if cap.tag then branchPc else normalPc)
  | some .cjr | some .cjalr => do
      let context := context.setPc (getReg abi context instr 10)
      let cap ← getCapReg abi context instr 15
      return (true, context.setPcc cap)
  | none => some (false, context)

/-- The switch of `emulateBranch`, on the word at `pc`. -/
def emulateInstr (context : Mcontext) (pc : BitVec 64) (instr : BitVec 32) :
    Option (Bool × Mcontext) :=
  let branchPc := pc + getSImm abi instr 15 16 <<< 2 + 4
  let normalPc := pc + 8
  let regVal := getReg abi context instr 25
  let regVal2 := getReg abi context instr 20
  match BranchOps.ofCode (getOpcode abi instr).toNat with
  | some .regimm => emulateRegimm abi context pc instr
  | some .j | some .jal =>
      branchTo context ((getImm abi instr 25 0 <<< 2) &&& (pc.sshiftRight 28 <<< 28))
  | some .jr | some .jalr => branchTo context (getReg abi context instr 25)
  | some .beql | some .beq => branchTo context (if regVal = regVal2 then branchPc else normalPc)
  | some .bnel | some .bne => branchTo context (if regVal ≠ regVal2 then branchPc else normalPc)
  | some .blezl | some .blez =>
      branchTo context (if regVal.toInt ≤ 0 then branchPc else normalPc)
  | some .bgtzl | some .bgtz =>
      branchTo context (if 0 < regVal.toInt then branchPc else normalPc)
  | some .cheri => emulateCheri abi context pc instr
  | none => some (false, context)

/-- `emulateBranch`: whether the word at `pc` is a branch, and the context after
it.  `load` reads memory through a capability. -/
def emulateBranch (load : Capability → BitVec 32) (context : Mcontext) (pc : BitVec 64) :
    Option (Bool × Mcontext) := do
  let instr := load (← getAdjustedPc context pc)
  emulateInstr abi context pc instr

/-- `frame->cf_capcause & 0xff`. -/
def capCauseReg (context : Mcontext) : ℕ := (context.frame.cf_capcause &&& 0xff).toNat

/-- `capsighandler`.  The test's handler acts on a state of its own. -/
def capsighandler {σ : Type} (load : Capability → BitVec 32) (SIGPROT signo : ℤ)
    (test_fault_handler : Option (Capability → BitVec 64 → σ → σ)) (s : σ) (context : Mcontext) :
    Option (σ × Mcontext) := do
  let isDelaySlot := isInDelaySlot abi context
  let pc := context.mc_pc
  let reg ← getCapRegAtIndex context (capCauseReg context)
  assert (signo = SIGPROT)
  let handler ← test_fault_handler
  let s := handler reg (context.frame.cf_capcause >>> 8) s
  if isDelaySlot then
    assert (4 < pc.toInt)
    let (emulated, context) ← emulateBranch abi load context pc
    assert (emulated = true)
    return (s, context)
  else
    return (s, context.setPc (context.mc_pc + 4))

end Code

/-! ### Reading fields -/

section fields
variable {abi : Abi} {instr : BitVec 32} {start len : ℕ}

/-- The shift in the mask is one that C defines. -/
def MaskDefined (abi : Abi) (len : ℕ) : Prop := sizeSub abi.cap_size len < 32

theorem maskDefined_iff (hcap : abi.cap_size ≤ 32) (hlen : 0 < len) (hlen32 : len ≤ 32) :
    MaskDefined abi len ↔ len ≤ abi.cap_size := by
  unfold MaskDefined sizeSub
  omega

/-- The bits that `getImm` reads: those of the field and, above it, one for each
byte that a pointer has less than 32. -/
theorem getLsbD_getImm (hcap : abi.cap_size ≤ 32) (hlen : 0 < len) (hle : len ≤ abi.cap_size)
    (i : ℕ) : (getImm abi instr start len).getLsbD i =
      (decide (i < 32 - abi.cap_size + len) && instr.getLsbD (start + 1 - len + i)) := by
  have hones : ∀ k, (0xffffffff#32).getLsbD k = decide (k < 32) :=
    fun k => BitVec.getLsbD_allOnes
  have hsub : sizeSub abi.cap_size len = abi.cap_size - len := by
    unfold sizeSub
    omega
  have hshift : abi.cap_size - len < 32 := by omega
  unfold getImm onesShr
  rw [hsub, if_pos hshift]
  simp only [BitVec.getLsbD_setWidth, BitVec.getLsbD_ushiftRight, BitVec.getLsbD_and,
    BitVec.getLsbD_shiftLeft, hones]
  by_cases hb : start + 1 - len + i < 32
  · have hi : i < 64 := by omega
    have hbound : abi.cap_size - len + i < 32 ↔ i < 32 - abi.cap_size + len := by omega
    have hge : ¬start + 1 - len + i < start + 1 - len := by omega
    simp only [hb, hi, hge, decide_true, decide_false, Bool.not_false, Nat.add_sub_cancel_left,
      Bool.true_and, hbound]
    exact Bool.and_comm ..
  · simp [BitVec.getLsbD_of_ge instr _ (Nat.le_of_not_lt hb)]

/-- The field is read as it stands if what is read above it is zero. -/
theorem getImm_eq_iff (hcap : abi.cap_size ≤ 32) (hlen : 0 < len) (hle : len ≤ abi.cap_size)
    (hstart : len ≤ start + 1) :
    getImm abi instr start len = (instr.extractLsb' (start + 1 - len) len).setWidth 64 ↔
      instr.extractLsb' (start + 1) (32 - abi.cap_size) = 0 := by
  have hfield (i : ℕ) (hi : i < 64) :
      ((instr.extractLsb' (start + 1 - len) len).setWidth 64).getLsbD i =
        (decide (i < len) && instr.getLsbD (start + 1 - len + i)) := by
    simp only [BitVec.getLsbD_setWidth, BitVec.getLsbD_extractLsb', hi, decide_true, Bool.true_and]
  constructor
  · intro h
    apply BitVec.eq_of_getLsbD_eq
    intro k hk
    have hbit := congrArg (·.getLsbD (len + k)) h
    simp only [getLsbD_getImm hcap hlen hle, hfield _ (by omega : len + k < 64)] at hbit
    have hplace : start + 1 - len + (len + k) = start + 1 + k := by omega
    have hin : len + k < 32 - abi.cap_size + len := by omega
    have hout : ¬len + k < len := by omega
    rw [hplace] at hbit
    simpa [BitVec.getLsbD_extractLsb', hk, hin, hout] using hbit
  · intro h
    apply BitVec.eq_of_getLsbD_eq
    intro i hi
    rw [getLsbD_getImm hcap hlen hle, hfield i hi]
    by_cases hlow : i < len
    · have hin : i < 32 - abi.cap_size + len := by omega
      simp only [hlow, hin]
    · by_cases hin : i < 32 - abi.cap_size + len
      · have hbit := congrArg (·.getLsbD (i - len)) h
        have hk : i - len < 32 - abi.cap_size := by omega
        have hplace : start + 1 + (i - len) = start + 1 - len + i := by omega
        simp only [BitVec.getLsbD_extractLsb', hk, hplace] at hbit
        simpa [hlow, hin] using hbit
      · simp only [hlow, hin]

/-- A signed field is read as it stands: the shifts of `signExtend` lose what is
read above it. -/
theorem getSImm_eq (hcap : abi.cap_size ≤ 32) (hlen : 0 < len) (hle : len ≤ abi.cap_size) :
    getSImm abi instr start len = (instr.extractLsb' (start + 1 - len) len).signExtend 64 := by
  unfold getSImm signExtend
  apply BitVec.eq_of_getLsbD_eq
  intro i hi
  rw [BitVec.getLsbD_sshiftRight, BitVec.getLsbD_signExtend, BitVec.msb_eq_getLsbD_last,
    BitVec.msb_eq_getLsbD_last]
  simp only [BitVec.getLsbD_shiftLeft, getLsbD_getImm hcap hlen hle, BitVec.getLsbD_extractLsb']
  by_cases hlow : i < len
  · have hlt : 64 - len + i < 64 := by omega
    have hge : ¬64 - len + i < 64 - len := by omega
    have hin : i < 32 - abi.cap_size + len := by omega
    simp [hlow, hi, hlt, hge, hin]
  · have hlt : ¬64 - len + i < 64 := by omega
    have hge : ¬64 ≤ i := by omega
    have hmsb : ¬63 < 64 - len := by omega
    have htop : 63 - (64 - len) = len - 1 := by omega
    have hin : len - 1 < 32 - abi.cap_size + len := by omega
    have hlast : len - 1 < len := by omega
    simp [hlow, hi, hlt, hge, hmsb, htop, hin, hlast]

/-- What the two functions promise about a field: they are defined, and they
give its unsigned and its signed value. -/
structure ReadsField (abi : Abi) (instr : BitVec 32) (start len : ℕ) : Prop where
  defined : MaskDefined abi len
  unsigned : getImm abi instr start len = (instr.extractLsb' (start + 1 - len) len).setWidth 64
  signed : getSImm abi instr start len = (instr.extractLsb' (start + 1 - len) len).signExtend 64

/-- **When a field is read**: it has no more bits than a pointer has bytes, and
as many bits above it are zero as a pointer has bytes less than 32. -/
theorem readsField_iff (abi : Abi) (instr : BitVec 32) {start len : ℕ} (hcap : abi.cap_size ≤ 32)
    (hlen : 1 ≤ len) (hle : len ≤ start + 1) (hstart : start + 1 ≤ 32) :
    ReadsField abi instr start len ↔
      len ≤ abi.cap_size ∧ instr.extractLsb' (start + 1) (32 - abi.cap_size) = 0 := by
  have hmask : MaskDefined abi len ↔ len ≤ abi.cap_size := maskDefined_iff hcap hlen (by omega)
  constructor
  · intro h
    have hfits := hmask.mp h.defined
    exact ⟨hfits, (getImm_eq_iff hcap hlen hfits hle).mp h.unsigned⟩
  · rintro ⟨hfits, hzero⟩
    exact ⟨hmask.mpr hfits, (getImm_eq_iff hcap hlen hfits hle).mpr hzero, getSImm_eq hcap hlen hfits⟩

/-- `beq $1, $2` with 16-byte pointers. -/
theorem readsField_iff_beq : ReadsField ⟨16, fun _ => 0⟩ 0x10220010 25 5 ↔
    5 ≤ 16 ∧ (0x10220010 : BitVec 32).extractLsb' 26 16 = 0 :=
  readsField_iff ⟨16, fun _ => 0⟩ 0x10220010 (by decide) (by decide) (by decide) (by decide)

/-- Its first register comes out as 129, with the opcode above it. -/
theorem beq_register_reads_opcode : ¬∀ (abi : Abi) (instr : BitVec 32) (start len : ℕ),
    abi.cap_size ∈ [8, 16, 32] → 1 ≤ len → len ≤ start + 1 → start + 1 ≤ 32 →
      ReadsField abi instr start len := by
  intro h
  have hread := h ⟨16, fun _ => 0⟩ 0x10220010 25 5 (by decide) (by decide) (by decide) (by decide)
  have hvalue : getImm ⟨16, fun _ => 0⟩ 0x10220010 25 5 = 129 := by decide
  have hfield : ((0x10220010 : BitVec 32).extractLsb' 21 5).setWidth 64 = 1#64 := by decide
  have hclash : (129 : BitVec 64) = 1#64 := hvalue.symm.trans (hread.unsigned.trans hfield)
  exact absurd hclash (by decide)

end fields

variable {u : ℕ → BitVec 32}

/-- A field of at least one bit is read as it stands. -/
theorem getImm_eq (instr : BitVec 32) {start len : ℕ} (hlen : 0 < len) (hle : len ≤ start + 1)
    (hstart : start < 32) :
    getImm (.cheri256 u) instr start len = (instr.extractLsb' (start + 1 - len) len).setWidth 64 := by
  have hcap : (Abi.cheri256 u).cap_size ≤ 32 := le_rfl
  have hfits : len ≤ (Abi.cheri256 u).cap_size := by
    show len ≤ 32
    omega
  exact (getImm_eq_iff hcap hlen hfits hle).mpr BitVec.of_length_zero

/-- The offset of a relative branch. -/
theorem getSImm_imm (instr : BitVec 32) :
    getSImm (.cheri256 u) instr 15 16 = (immediate instr).signExtend 64 :=
  have hcap : (Abi.cheri256 u).cap_size ≤ 32 := le_rfl
  have hfits : 16 ≤ (Abi.cheri256 u).cap_size := by
    show 16 ≤ 32
    decide
  getSImm_eq hcap (by decide) hfits

/-- A field of no bits is small, whatever the shift by 32 gives. -/
theorem getImm_zero (instr : BitVec 32) : (getImm (.cheri256 u) instr 25 0).toNat < 2 ^ 6 := by
  unfold getImm
  simp only [BitVec.toNat_setWidth, BitVec.toNat_ushiftRight, Nat.shiftRight_eq_div_pow]
  generalize instr &&& (onesShr (.cheri256 u) (sizeSub _ 0) <<< (25 + 1 - 0)) = x
  have := x.isLt
  omega

/-- The target that the code computes for `j` and `jal` is zero. -/
theorem jump_value (instr : BitVec 32) (pc : BitVec 64) :
    (getImm (.cheri256 u) instr 25 0 <<< 2) &&& (pc.sshiftRight 28 <<< 28) = 0#64 := by
  apply BitVec.eq_of_getLsbD_eq
  intro i hi
  rw [BitVec.getLsbD_and, BitVec.getLsbD_shiftLeft, BitVec.getLsbD_shiftLeft]
  by_cases hlow : i < 28
  · simp [hlow]
  · have hbit : (getImm (.cheri256 u) instr 25 0).getLsbD (i - 2) = false :=
      Nat.testBit_lt_two_pow (lt_of_lt_of_le (getImm_zero instr)
        (Nat.pow_le_pow_right (by omega) (by omega)))
    simp [hbit]

section Fields

variable (context : Mcontext) (w : BitVec 32)

theorem getOpcode_toNat : (getOpcode (.cheri256 u) w).toNat = (opcode w).toNat := by
  unfold getOpcode
  rw [getImm_eq w (by omega) (by omega) (by omega)]
  exact BitVec.toNat_setWidth_of_le (by omega)

theorem getImm_rs : getImm (.cheri256 u) w 25 5 = (rs w).setWidth 64 :=
  getImm_eq w (by omega) (by omega) (by omega)

theorem getImm_rt : getImm (.cheri256 u) w 20 5 = (rt w).setWidth 64 :=
  getImm_eq w (by omega) (by omega) (by omega)

theorem getImm_rd : getImm (.cheri256 u) w 15 5 = (rd w).setWidth 64 :=
  getImm_eq w (by omega) (by omega) (by omega)

theorem getImm_sa : getImm (.cheri256 u) w 10 5 = (sa w).setWidth 64 :=
  getImm_eq w (by omega) (by omega) (by omega)

theorem getReg_eq {opidx : ℕ} {n : BitVec 5} (h : getImm (.cheri256 u) w opidx 5 = n.setWidth 64) :
    getReg (.cheri256 u) context w opidx = context.saved.gpr n := by
  have hn : (n.setWidth 64).setWidth 5 = n := BitVec.setWidth_setWidth_of_le n (by omega)
  unfold getReg
  rw [h, hn]
  rfl

theorem saved_cap_of_lt {n : BitVec 5} (h : n.toNat < 27) :
    context.saved.cap n = some (context.frame.cap ⟨n.toNat, h⟩) := dif_pos h

theorem saved_setPc_cap (pc : BitVec 64) : (context.setPc pc).saved.cap = context.saved.cap := rfl

theorem getCapReg_eq {opidx : ℕ} {n : BitVec 5} (h : getImm (.cheri256 u) w opidx 5 = n.setWidth 64) :
    getCapReg (.cheri256 u) context w opidx =
      if n.toNat < 26 then context.saved.cap n else none := by
  have hn : n.toNat ≠ 0xff := by
    have := n.isLt
    omega
  unfold getCapReg getCapRegAtIndex
  rw [h, BitVec.toNat_setWidth_of_le (by omega), if_neg hn]
  split_ifs with h26
  · have h27 : n.toNat < 27 := by omega
    exact (saved_cap_of_lt context h27).symm
  · rfl

end Fields

/-- The target that the code computes. -/
theorem branchPc_eq (pc : BitVec 64) (w : BitVec 32) :
    pc + getSImm (.cheri256 u) w 15 16 <<< 2 + 4 = relativeTarget pc (immediate w) := by
  have hfour : BitVec.twoPow 64 2 = 4#64 := rfl
  rw [getSImm_imm, BitVec.shiftLeft_eq_mul_twoPow, hfour, add_right_comm, BitVec.mul_comm]
  rfl

end Cheritest.TestRuntime
