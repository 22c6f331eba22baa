/-
Cheritest/Mips/Insn.lean

The instructions: what each non-branching one does to a thread and to
memory (`Op.exec`), the branch conditions, and assembly text with labels.

An operation either completes or traps.  The signed additions and
subtractions trap on overflow (`add`, `addi`, `sub` on 32 bits, `dadd`,
`daddi`, `dsub` on 64), a capability access traps unless its capability
allows it, and multi-byte accesses trap when they are not aligned.  The
32-bit operations work on the low halves of their operands and sign-extend
the result.  Legacy loads and stores go through a default data capability
that covers all of memory.

A store conditional succeeds here, as for a thread that holds its
reservation; when it fails is up to a system of threads.

`li`, `dli`, `dla` stand for the sequences the assembler makes of them.
-/
import Cheritest.Mips.Machine

namespace Mips

/-- Why an instruction does not complete. -/
inductive Trap
  | overflow
  | addressError
  | capability
  | copUnusable
  | noInstruction
  deriving DecidableEq, Repr

/-! ### Operations -/

/-- The instructions that leave the program counters alone. -/
inductive Op
  | nop
  | sync
  | ssnop
  | andi (rt rs : Reg) (imm : BitVec 16)
  | ori (rt rs : Reg) (imm : BitVec 16)
  | xori (rt rs : Reg) (imm : BitVec 16)
  | and (rd rs rt : Reg)
  | or (rd rs rt : Reg)
  | add (rd rs rt : Reg)
  | addi (rt rs : Reg) (imm : BitVec 16)
  | addiu (rt rs : Reg) (imm : BitVec 16)
  | sub (rd rs rt : Reg)
  | subu (rd rs rt : Reg)
  | mul (rd rs rt : Reg)
  | sll (rd rt : Reg) (sa : ℕ)
  | srl (rd rt : Reg) (sa : ℕ)
  | dadd (rd rs rt : Reg)
  | daddu (rd rs rt : Reg)
  | daddi (rt rs : Reg) (imm : BitVec 16)
  | daddiu (rt rs : Reg) (imm : BitVec 16)
  | dsub (rd rs rt : Reg)
  | dsubu (rd rs rt : Reg)
  | dsll (rd rt : Reg) (sa : ℕ)
  | dsrl (rd rt : Reg) (sa : ℕ)
  | slti (rt rs : Reg) (imm : BitVec 16)
  | li (rt : Reg) (v : BitVec 64)
  | lbu (rt : Reg) (off : BitVec 16) (base : Reg)
  | sb (rt : Reg) (off : BitVec 16) (base : Reg)
  | ld (rt : Reg) (off : BitVec 16) (base : Reg)
  | sd (rt : Reg) (off : BitVec 16) (base : Reg)
  | sdl (rt : Reg) (off : BitVec 16) (base : Reg)
  | lld (rt : Reg) (off : BitVec 16) (base : Reg)
  | scd (rt : Reg) (off : BitVec 16) (base : Reg)
  | mfc0 (rt : Reg) (rd : Fin 32) (sel : Fin 8)
  | dmfc0 (rt : Reg) (rd : Fin 32) (sel : Fin 8)
  | mtc0 (rt : Reg) (rd : Fin 32) (sel : Fin 8)
  | dmtc0 (rt : Reg) (rd : Fin 32) (sel : Fin 8)
  | cgetbase (rd : Reg) (cb : Fin 32)
  | cgetoffset (rd : Reg) (cb : Fin 32)
  | cgetcause (rd : Reg)
  | clb (rd rt : Reg) (off : BitVec 64) (cb : Fin 32)
  | csb (rs rt : Reg) (off : BitVec 64) (cb : Fin 32)
  | clc (cd : Fin 32) (rt : Reg) (off : BitVec 64) (cb : Fin 32)
  | csc (cs : Fin 32) (rt : Reg) (off : BitVec 64) (cb : Fin 32)
  deriving DecidableEq, Repr

/-! ### Signed arithmetic -/

theorem toInt_ofNat_small {i : ℕ} (h : i < 2 ^ 63) : (BitVec.ofNat 64 i).toInt = i := by
  have hi : (BitVec.ofNat 64 i).toNat = i := by
    rw [BitVec.toNat_ofNat]
    omega
  rw [BitVec.toInt_eq_toNat_of_lt (by omega), hi]

theorem toInt32_ofNat_small {i : ℕ} (h : i < 2 ^ 31) : (BitVec.ofNat 32 i).toInt = i := by
  have hi : (BitVec.ofNat 32 i).toNat = i := by
    rw [BitVec.toNat_ofNat]
    omega
  rw [BitVec.toInt_eq_toNat_of_lt (by omega), hi]

theorem toInt_neg_small {i : ℕ} (h : i < 2 ^ 63) : (-BitVec.ofNat 64 i).toInt = -i := by
  rw [BitVec.toInt_neg, toInt_ofNat_small h, Int.bmod_def]
  omega

theorem saddOverflow_iff {x y : BitVec 64} :
    x.saddOverflow y = false ↔ -2 ^ 63 ≤ x.toInt + y.toInt ∧ x.toInt + y.toInt < 2 ^ 63 := by
  simp only [BitVec.saddOverflow, Bool.or_eq_false_iff, decide_eq_false_iff_not]
  omega

theorem ssubOverflow_iff {x y : BitVec 64} :
    x.ssubOverflow y = false ↔ -2 ^ 63 ≤ x.toInt - y.toInt ∧ x.toInt - y.toInt < 2 ^ 63 := by
  simp only [BitVec.ssubOverflow, Bool.or_eq_false_iff, decide_eq_false_iff_not]
  omega

/-- A loaded byte stores back as it was. -/
theorem setWidth_signExtend_byte (x : BitVec 8) : (x.signExtend 64).setWidth 8 = x := by
  ext i hi
  simp [BitVec.getLsbD_signExtend, hi]
  omega

/-- Sign-extend a 32-bit result to a register. -/
def sext32 (v : BitVec 32) : BitVec 64 := v.signExtend 64

/-- Small results of 32-bit operations. -/
theorem sext32_ofNat {x : ℕ} (h : x < 2 ^ 31) : sext32 (BitVec.ofNat 32 x) = BitVec.ofNat 64 x := by
  apply BitVec.eq_of_toInt_eq
  rw [sext32, BitVec.toInt_signExtend_of_le (by omega), toInt_ofNat_small (by omega),
    BitVec.toInt_eq_toNat_of_lt (by rw [BitVec.toNat_ofNat]; omega), BitVec.toNat_ofNat]
  omega

theorem setWidth32_ofNat (x : ℕ) : (BitVec.ofNat 64 x).setWidth 32 = BitVec.ofNat 32 x := by
  apply BitVec.eq_of_toNat_eq
  rw [BitVec.toNat_setWidth, BitVec.toNat_ofNat, BitVec.toNat_ofNat]
  omega

/-- Small bytes. -/
theorem setWidth64_ofNat {x : ℕ} (h : x < 256) :
    (BitVec.ofNat 8 x).setWidth 64 = BitVec.ofNat 64 x := by
  apply BitVec.eq_of_toNat_eq
  rw [BitVec.toNat_setWidth, BitVec.toNat_ofNat, BitVec.toNat_ofNat]
  omega

theorem setWidth8_ofNat (x : ℕ) : (BitVec.ofNat 64 x).setWidth 8 = BitVec.ofNat 8 x := by
  apply BitVec.eq_of_toNat_eq
  rw [BitVec.toNat_setWidth, BitVec.toNat_ofNat, BitVec.toNat_ofNat]
  omega

/-- The Status bit that enables coprocessor 2. -/
def cu2 (status : BitVec 64) : Bool := status.getLsbD 30

/-- Masking a 32-bit read of Status down to that bit. -/
theorem sext32_and_cu2 (s : BitVec 64) :
    sext32 (s.setWidth 32) &&& 0x40000000#64 = if cu2 s then 0x40000000#64 else 0 := by
  have h : 0x40000000#64 = BitVec.twoPow 64 30 := by decide
  have hbit : (sext32 (s.setWidth 32)).getLsbD 30 = s.getLsbD 30 := by
    rw [sext32, BitVec.getLsbD_signExtend]
    simp
  rw [h, BitVec.and_twoPow, hbit]
  rfl

namespace Op

variable {n : ℕ}

/-- Complete a register computation. -/
def put (c : Core n) (m : Mem) (r : Reg) (v : BitVec 64) : Except Trap (Core n × Mem) :=
  .ok (c.set r v, m)

/-- Complete a register computation unless it overflowed. -/
def putChecked (ovf : Bool) (c : Core n) (m : Mem) (r : Reg) (v : BitVec 64) :
    Except Trap (Core n × Mem) :=
  if ovf then .error .overflow else put c m r v

/-- What an operation does. -/
def exec (F : CapFormat n) (c : Core n) (m : Mem) : Op → Except Trap (Core n × Mem)
  | nop | sync | ssnop => .ok (c, m)
  | andi rt rs imm => put c m rt (c.get rs &&& imm.setWidth 64)
  | ori rt rs imm => put c m rt (c.get rs ||| imm.setWidth 64)
  | xori rt rs imm => put c m rt (c.get rs ^^^ imm.setWidth 64)
  | and rd rs rt => put c m rd (c.get rs &&& c.get rt)
  | or rd rs rt => put c m rd (c.get rs ||| c.get rt)
  | add rd rs rt =>
      let x := (c.get rs).setWidth 32
      let y := (c.get rt).setWidth 32
      putChecked (x.saddOverflow y) c m rd (sext32 (x + y))
  | addi rt rs imm =>
      let x := (c.get rs).setWidth 32
      let y := imm.signExtend 32
      putChecked (x.saddOverflow y) c m rt (sext32 (x + y))
  | addiu rt rs imm => put c m rt (sext32 ((c.get rs).setWidth 32 + imm.signExtend 32))
  | sub rd rs rt =>
      let x := (c.get rs).setWidth 32
      let y := (c.get rt).setWidth 32
      putChecked (x.ssubOverflow y) c m rd (sext32 (x - y))
  | subu rd rs rt =>
      put c m rd (sext32 ((c.get rs).setWidth 32 - (c.get rt).setWidth 32))
  | mul rd rs rt =>
      put c m rd (sext32 ((c.get rs).setWidth 32 * (c.get rt).setWidth 32))
  | sll rd rt sa => put c m rd (sext32 ((c.get rt).setWidth 32 <<< sa))
  | srl rd rt sa => put c m rd (sext32 ((c.get rt).setWidth 32 >>> sa))
  | dadd rd rs rt =>
      putChecked ((c.get rs).saddOverflow (c.get rt)) c m rd (c.get rs + c.get rt)
  | daddu rd rs rt => put c m rd (c.get rs + c.get rt)
  | daddi rt rs imm =>
      putChecked ((c.get rs).saddOverflow (imm.signExtend 64)) c m rt
        (c.get rs + imm.signExtend 64)
  | daddiu rt rs imm => put c m rt (c.get rs + imm.signExtend 64)
  | dsub rd rs rt =>
      putChecked ((c.get rs).ssubOverflow (c.get rt)) c m rd (c.get rs - c.get rt)
  | dsubu rd rs rt => put c m rd (c.get rs - c.get rt)
  | dsll rd rt sa => put c m rd (c.get rt <<< sa)
  | dsrl rd rt sa => put c m rd (c.get rt >>> sa)
  | slti rt rs imm =>
      put c m rt (if (c.get rs).toInt < (imm.signExtend 64).toInt then 1 else 0)
  | li rt v => put c m rt v
  | lbu rt off base =>
      let a := c.get base + off.signExtend 64
      put (c.issue .load a 1) m rt ((m.byte a).setWidth 64)
  | sb rt off base =>
      let a := c.get base + off.signExtend 64
      .ok (c.issue .store a 1, m.storeByte n a ((c.get rt).setWidth 8))
  | ld rt off base =>
      let a := c.get base + off.signExtend 64
      if a.toNat % 8 = 0 then put (c.issue .load a 8) m rt (m.loadDouble a)
      else .error .addressError
  | sd rt off base =>
      let a := c.get base + off.signExtend 64
      if a.toNat % 8 = 0 then .ok (c.issue .store a 8, m.storeDouble n a (c.get rt))
      else .error .addressError
  | sdl rt off base =>
      let a := c.get base + off.signExtend 64
      .ok (c.issue .store a (8 - a.toNat % 8), m.storeLeft n a (c.get rt))
  | lld rt off base =>
      let a := c.get base + off.signExtend 64
      if a.toNat % 8 = 0 then put (c.issue .load a 8) m rt (m.loadDouble a)
      else .error .addressError
  | scd rt off base =>
      let a := c.get base + off.signExtend 64
      if a.toNat % 8 = 0 then put (c.issue .store a 8) (m.storeDouble n a (c.get rt)) rt 1
      else .error .addressError
  | mfc0 rt rd sel => put c m rt (sext32 ((c.cp0 rd sel).setWidth 32))
  | dmfc0 rt rd sel => put c m rt (c.cp0 rd sel)
  | mtc0 rt rd sel => .ok (c.setCp0 rd sel (sext32 ((c.get rt).setWidth 32)), m)
  | dmtc0 rt rd sel => .ok (c.setCp0 rd sel (c.get rt), m)
  | cgetbase rd cb => put c m rd (F.base (c.cap cb).data)
  | cgetoffset rd cb => put c m rd (F.offset (c.cap cb).data)
  | cgetcause rd =>
      if cu2 (c.cp0 12 0) then put c m rd (c.capCause.setWidth 64) else .error .copUnusable
  | clb rd rt off cb =>
      let a := F.cursor (c.cap cb) + c.get rt + off
      if F.allows (c.cap cb) .load a 1 then
        put (c.issue .load a 1) m rd ((m.byte a).signExtend 64)
      else .error .capability
  | csb rs rt off cb =>
      let a := F.cursor (c.cap cb) + c.get rt + off
      if F.allows (c.cap cb) .store a 1 then
        .ok (c.issue .store a 1, m.storeByte n a ((c.get rs).setWidth 8))
      else .error .capability
  | clc cd rt off cb =>
      let a := F.cursor (c.cap cb) + c.get rt + off
      if F.allows (c.cap cb) .load a n && F.perm (c.cap cb).data .loadCap then
        if a.toNat % n = 0 then
          .ok ((c.issue .load a n).setCap cd (m.loadCap n a), m)
        else .error .addressError
      else .error .capability
  | csc cs rt off cb =>
      let a := F.cursor (c.cap cb) + c.get rt + off
      let v := c.cap cs
      -- a tagged local capability also needs the store-local permission
      if F.allows (c.cap cb) .store a n && F.perm (c.cap cb).data .storeCap &&
          (!v.tag || F.perm v.data .global || F.perm (c.cap cb).data .storeLocalCap) then
        if a.toNat % n = 0 then
          .ok (c.issue .store a n, m.storeCap a v)
        else .error .addressError
      else .error .capability

/-! #### Operations that may trap -/

section specs
variable {F : CapFormat n} {c : Core n} {m : Mem} {rd rs rt base : Reg} {imm : BitVec 16}
  {off : BitVec 64} {cb cd : Fin 32}

theorem exec_add (h : ((c.get rs).setWidth 32).saddOverflow ((c.get rt).setWidth 32) = false) :
    exec F c m (add rd rs rt)
      = .ok (c.set rd (sext32 ((c.get rs).setWidth 32 + (c.get rt).setWidth 32)), m) := by
  simp [exec, putChecked, put, h]

theorem exec_addi (h : ((c.get rs).setWidth 32).saddOverflow (imm.signExtend 32) = false) :
    exec F c m (addi rt rs imm)
      = .ok (c.set rt (sext32 ((c.get rs).setWidth 32 + imm.signExtend 32)), m) := by
  simp [exec, putChecked, put, h]

/-- Additions of small numbers on 32 bits. -/
theorem exec_add_small {x y : ℕ} (hx : c.get rs = BitVec.ofNat 64 x)
    (hy : c.get rt = BitVec.ofNat 64 y) (h : x + y < 2 ^ 31) :
    exec F c m (add rd rs rt) = .ok (c.set rd (BitVec.ofNat 64 (x + y)), m) := by
  have hov : ((c.get rs).setWidth 32).saddOverflow ((c.get rt).setWidth 32) = false := by
    rw [hx, hy, setWidth32_ofNat, setWidth32_ofNat]
    simp only [BitVec.saddOverflow, Bool.or_eq_false_iff, decide_eq_false_iff_not,
      toInt32_ofNat_small (show x < 2 ^ 31 by omega), toInt32_ofNat_small (show y < 2 ^ 31 by omega)]
    omega
  rw [exec_add hov, hx, hy, setWidth32_ofNat, setWidth32_ofNat, ← BitVec.ofNat_add,
    sext32_ofNat h]

theorem exec_addi_one {x : ℕ} (hx : c.get rs = BitVec.ofNat 64 x) (h : x + 1 < 2 ^ 31) :
    exec F c m (addi rt rs 1) = .ok (c.set rt (BitVec.ofNat 64 (x + 1)), m) := by
  have hone : (1 : BitVec 16).signExtend 32 = BitVec.ofNat 32 1 := by decide
  have hov : ((c.get rs).setWidth 32).saddOverflow ((1 : BitVec 16).signExtend 32) = false := by
    rw [hx, setWidth32_ofNat, hone]
    simp only [BitVec.saddOverflow, Bool.or_eq_false_iff, decide_eq_false_iff_not,
      toInt32_ofNat_small (show x < 2 ^ 31 by omega), toInt32_ofNat_small (show 1 < 2 ^ 31 by omega)]
    omega
  rw [exec_addi hov, hx, setWidth32_ofNat, hone, ← BitVec.ofNat_add, sext32_ofNat h]

theorem exec_addi_pred {x : ℕ} (hx : c.get rs = BitVec.ofNat 64 (x + 1)) (h : x + 1 < 2 ^ 31) :
    exec F c m (addi rt rs (-1)) = .ok (c.set rt (BitVec.ofNat 64 x), m) := by
  have hone : (-1 : BitVec 16).signExtend 32 = -BitVec.ofNat 32 1 := by decide
  have hneg : (-BitVec.ofNat 32 1).toInt = -1 := by decide
  have hov : ((c.get rs).setWidth 32).saddOverflow ((-1 : BitVec 16).signExtend 32) = false := by
    rw [hx, setWidth32_ofNat, hone]
    simp only [BitVec.saddOverflow, Bool.or_eq_false_iff, decide_eq_false_iff_not, hneg,
      toInt32_ofNat_small h]
    omega
  rw [exec_addi hov, hx, setWidth32_ofNat, hone, BitVec.ofNat_add, add_neg_cancel_right,
    sext32_ofNat (by omega)]

/-- A small product. -/
theorem exec_mul_small {x y : ℕ} (hx : c.get rs = BitVec.ofNat 64 x)
    (hy : c.get rt = BitVec.ofNat 64 y) (h : x * y < 2 ^ 31) :
    exec F c m (mul rd rs rt) = .ok (c.set rd (BitVec.ofNat 64 (x * y)), m) := by
  simp only [exec, put, hx, hy, setWidth32_ofNat, ← BitVec.ofNat_mul, sext32_ofNat h]

theorem exec_dadd (h : (c.get rs).saddOverflow (c.get rt) = false) :
    exec F c m (dadd rd rs rt) = .ok (c.set rd (c.get rs + c.get rt), m) := by
  simp [exec, putChecked, put, h]

theorem exec_daddi (h : (c.get rs).saddOverflow (imm.signExtend 64) = false) :
    exec F c m (daddi rt rs imm) = .ok (c.set rt (c.get rs + imm.signExtend 64), m) := by
  simp [exec, putChecked, put, h]

theorem exec_dsub (h : (c.get rs).ssubOverflow (c.get rt) = false) :
    exec F c m (dsub rd rs rt) = .ok (c.set rd (c.get rs - c.get rt), m) := by
  simp [exec, putChecked, put, h]

theorem exec_dadd_overflow (h : (c.get rs).saddOverflow (c.get rt) = true) :
    exec F c m (dadd rd rs rt) = .error .overflow := by
  simp [exec, putChecked, h]

theorem exec_addi_overflow
    (h : ((c.get rs).setWidth 32).saddOverflow (imm.signExtend 32) = true) :
    exec F c m (addi rt rs imm) = .error .overflow := by
  simp [exec, putChecked, h]

theorem exec_daddi_overflow (h : (c.get rs).saddOverflow (imm.signExtend 64) = true) :
    exec F c m (daddi rt rs imm) = .error .overflow := by
  simp [exec, putChecked, h]

theorem exec_dsub_overflow (h : (c.get rs).ssubOverflow (c.get rt) = true) :
    exec F c m (dsub rd rs rt) = .error .overflow := by
  simp [exec, putChecked, h]

theorem exec_ld (h : (c.get base + imm.signExtend 64).toNat % 8 = 0) :
    exec F c m (ld rt imm base)
      = .ok ((c.issue .load (c.get base + imm.signExtend 64) 8).set rt
          (m.loadDouble (c.get base + imm.signExtend 64)), m) := by
  simp only [exec, put, if_pos h]

theorem exec_sd (h : (c.get base + imm.signExtend 64).toNat % 8 = 0) :
    exec F c m (sd rt imm base)
      = .ok (c.issue .store (c.get base + imm.signExtend 64) 8,
          m.storeDouble n (c.get base + imm.signExtend 64) (c.get rt)) := by
  simp only [exec, if_pos h]

/-- A store that completes. -/
theorem exec_sd_ok {c' : Core n} {m' : Mem} (h : exec F c m (sd rt imm base) = .ok (c', m')) :
    c' = c.issue .store (c.get base + imm.signExtend 64) 8 ∧
      m' = m.storeDouble n (c.get base + imm.signExtend 64) (c.get rt) := by
  simp only [exec] at h
  split_ifs at h
  cases h
  exact ⟨rfl, rfl⟩

/-- A load that completes. -/
theorem exec_ld_ok {c' : Core n} {m' : Mem} (h : exec F c m (ld rt imm base) = .ok (c', m')) :
    c' = (c.issue .load (c.get base + imm.signExtend 64) 8).set rt
        (m.loadDouble (c.get base + imm.signExtend 64)) ∧ m' = m := by
  simp only [exec, put] at h
  split_ifs at h
  cases h
  exact ⟨rfl, rfl⟩

/-- A load linked that completes. -/
theorem exec_lld_ok {c' : Core n} {m' : Mem} (h : exec F c m (lld rt imm base) = .ok (c', m')) :
    c' = (c.issue .load (c.get base + imm.signExtend 64) 8).set rt
        (m.loadDouble (c.get base + imm.signExtend 64)) ∧ m' = m :=
  exec_ld_ok (F := F) h

/-- A store conditional that completes. -/
theorem exec_scd_ok {c' : Core n} {m' : Mem} (h : exec F c m (scd rt imm base) = .ok (c', m')) :
    c' = (c.issue .store (c.get base + imm.signExtend 64) 8).set rt 1 ∧
      m' = m.storeDouble n (c.get base + imm.signExtend 64) (c.get rt) := by
  simp only [exec, put] at h
  split_ifs at h
  cases h
  exact ⟨rfl, rfl⟩

theorem exec_clb (h : F.allows (c.cap cb) .load (F.cursor (c.cap cb) + c.get rt + off) 1 = true) :
    exec F c m (clb rd rt off cb)
      = .ok ((c.issue .load (F.cursor (c.cap cb) + c.get rt + off) 1).set rd
          ((m.byte (F.cursor (c.cap cb) + c.get rt + off)).signExtend 64), m) := by
  simp only [exec, put, if_pos h]

theorem exec_csb (h : F.allows (c.cap cb) .store (F.cursor (c.cap cb) + c.get rt + off) 1 = true) :
    exec F c m (csb rs rt off cb)
      = .ok (c.issue .store (F.cursor (c.cap cb) + c.get rt + off) 1,
          m.storeByte n (F.cursor (c.cap cb) + c.get rt + off) ((c.get rs).setWidth 8)) := by
  simp only [exec, if_pos h]

theorem exec_clc (h : F.allows (c.cap cb) .load (F.cursor (c.cap cb) + c.get rt + off) n = true)
    (hp : F.perm (c.cap cb).data .loadCap = true)
    (hal : (F.cursor (c.cap cb) + c.get rt + off).toNat % n = 0) :
    exec F c m (clc cd rt off cb)
      = .ok ((c.issue .load (F.cursor (c.cap cb) + c.get rt + off) n).setCap cd
          (m.loadCap n (F.cursor (c.cap cb) + c.get rt + off)), m) := by
  simp only [exec, h, hp, Bool.and_self, if_true, if_pos hal]

theorem exec_csc (h : F.allows (c.cap cb) .store (F.cursor (c.cap cb) + c.get rt + off) n = true)
    (hp : F.perm (c.cap cb).data .storeCap = true)
    (hl : F.perm (c.cap cb).data .storeLocalCap = true)
    (hal : (F.cursor (c.cap cb) + c.get rt + off).toNat % n = 0) :
    exec F c m (csc cd rt off cb)
      = .ok (c.issue .store (F.cursor (c.cap cb) + c.get rt + off) n,
          m.storeCap (F.cursor (c.cap cb) + c.get rt + off) (c.cap cd)) := by
  simp only [exec, h, hp, hl, Bool.and_self, Bool.or_true, if_true, if_pos hal]

theorem exec_cgetcause (h : cu2 (c.cp0 12 0) = true) :
    exec F c m (cgetcause rd) = .ok (c.set rd (c.capCause.setWidth 64), m) := by
  simp [exec, put, h]

end specs

end Op

/-! ### Instructions and assembly text -/

/-- Branch conditions. -/
inductive Cond
  | eq (rs rt : Reg)
  | ne (rs rt : Reg)
  | ltz (rs : Reg)
  | lez (rs : Reg)
  | gtz (rs : Reg)
  | gez (rs : Reg)
  deriving DecidableEq, Repr

/-- When a branch is taken. -/
def Cond.holds {n : ℕ} (c : Core n) : Cond → Bool
  | eq rs rt => c.get rs == c.get rt
  | ne rs rt => c.get rs != c.get rt
  | ltz rs => decide ((c.get rs).toInt < 0)
  | lez rs => decide ((c.get rs).toInt ≤ 0)
  | gtz rs => decide (0 < (c.get rs).toInt)
  | gez rs => decide (0 ≤ (c.get rs).toInt)

/-- An instruction over labels `L`: an operation or a transfer of control. -/
inductive Insn (L : Type)
  | op (o : Op)
  | branch (k : Cond) (l : L)
  | branchLikely (k : Cond) (l : L)
  | bal (l : L)
  /-- A call of code outside the text. -/
  | jal (target : BitVec 64)
  /-- A jump to code outside the text. -/
  | j (target : BitVec 64)
  | jr (rs : Reg)
  | cjr (cb : Fin 32)
  | eret
  deriving DecidableEq, Repr

/-- A line of assembly text. -/
inductive Asm (L : Type)
  | label (l : L)
  | insn (i : Insn L)
  deriving DecidableEq, Repr

/-- The instructions of a text, labels dropped. -/
def assemble {L : Type} : List (Asm L) → List (Insn L)
  | [] => []
  | .label _ :: t => assemble t
  | .insn i :: t => i :: assemble t

/-- How many instructions precede a label. -/
def labelIndex {L : Type} [DecidableEq L] (l : L) : List (Asm L) → ℕ
  | [] => 0
  | .label l' :: t => if l' = l then 0 else labelIndex l t
  | .insn _ :: t => labelIndex l t + 1

/-- An instruction under other labels. -/
def Insn.relabel {L L' : Type} (f : L → L') : Insn L → Insn L'
  | op o => .op o
  | branch k l => .branch k (f l)
  | branchLikely k l => .branchLikely k (f l)
  | bal l => .bal (f l)
  | jal target => .jal target
  | j target => .j target
  | jr rs => .jr rs
  | cjr cb => .cjr cb
  | eret => .eret

/-- A line of assembly text under other labels. -/
def Asm.relabel {L L' : Type} (f : L → L') : Asm L → Asm L'
  | label l => .label (f l)
  | insn i => .insn (i.relabel f)

/-! ### Mnemonics -/

namespace Asm

variable {L : Type}

abbrev op (o : Op) : Asm L := .insn (.op o)
abbrev nop : Asm L := op .nop
abbrev sync : Asm L := op .sync
abbrev ssnop : Asm L := op .ssnop
abbrev andi (rt rs : Reg) (imm : BitVec 16) : Asm L := op (.andi rt rs imm)
abbrev ori (rt rs : Reg) (imm : BitVec 16) : Asm L := op (.ori rt rs imm)
abbrev xori (rt rs : Reg) (imm : BitVec 16) : Asm L := op (.xori rt rs imm)
abbrev and (rd rs rt : Reg) : Asm L := op (.and rd rs rt)
abbrev or (rd rs rt : Reg) : Asm L := op (.or rd rs rt)
abbrev add (rd rs rt : Reg) : Asm L := op (.add rd rs rt)
abbrev addi (rt rs : Reg) (imm : BitVec 16) : Asm L := op (.addi rt rs imm)
abbrev addiu (rt rs : Reg) (imm : BitVec 16) : Asm L := op (.addiu rt rs imm)
abbrev subu (rd rs rt : Reg) : Asm L := op (.subu rd rs rt)
abbrev mul (rd rs rt : Reg) : Asm L := op (.mul rd rs rt)
abbrev sll (rd rt : Reg) (sa : ℕ) : Asm L := op (.sll rd rt sa)
abbrev srl (rd rt : Reg) (sa : ℕ) : Asm L := op (.srl rd rt sa)
abbrev dadd (rd rs rt : Reg) : Asm L := op (.dadd rd rs rt)
abbrev daddi (rt rs : Reg) (imm : BitVec 16) : Asm L := op (.daddi rt rs imm)
abbrev daddiu (rt rs : Reg) (imm : BitVec 16) : Asm L := op (.daddiu rt rs imm)
abbrev dsub (rd rs rt : Reg) : Asm L := op (.dsub rd rs rt)
abbrev dsubu (rd rs rt : Reg) : Asm L := op (.dsubu rd rs rt)
abbrev daddu (rd rs rt : Reg) : Asm L := op (.daddu rd rs rt)
abbrev dsll (rd rt : Reg) (sa : ℕ) : Asm L := op (.dsll rd rt sa)
abbrev dsrl (rd rt : Reg) (sa : ℕ) : Asm L := op (.dsrl rd rt sa)
abbrev move (rd rs : Reg) : Asm L := op (.daddu rd rs .zero)
abbrev slti (rt rs : Reg) (imm : BitVec 16) : Asm L := op (.slti rt rs imm)
abbrev li (rt : Reg) (v : BitVec 64) : Asm L := op (.li rt v)
abbrev dli (rt : Reg) (v : BitVec 64) : Asm L := op (.li rt v)
abbrev dla (rt : Reg) (v : BitVec 64) : Asm L := op (.li rt v)
abbrev lbu (rt : Reg) (off : BitVec 16) (base : Reg) : Asm L := op (.lbu rt off base)
abbrev sb (rt : Reg) (off : BitVec 16) (base : Reg) : Asm L := op (.sb rt off base)
abbrev ld (rt : Reg) (off : BitVec 16) (base : Reg) : Asm L := op (.ld rt off base)
abbrev sd (rt : Reg) (off : BitVec 16) (base : Reg) : Asm L := op (.sd rt off base)
abbrev sdl (rt : Reg) (off : BitVec 16) (base : Reg) : Asm L := op (.sdl rt off base)
abbrev lld (rt : Reg) (off : BitVec 16) (base : Reg) : Asm L := op (.lld rt off base)
abbrev scd (rt : Reg) (off : BitVec 16) (base : Reg) : Asm L := op (.scd rt off base)
abbrev mfc0 (rt : Reg) (rd : Fin 32) (sel : Fin 8) : Asm L := op (.mfc0 rt rd sel)
abbrev dmfc0 (rt : Reg) (rd : Fin 32) (sel : Fin 8) : Asm L := op (.dmfc0 rt rd sel)
abbrev mtc0 (rt : Reg) (rd : Fin 32) (sel : Fin 8) : Asm L := op (.mtc0 rt rd sel)
abbrev dmtc0 (rt : Reg) (rd : Fin 32) (sel : Fin 8) : Asm L := op (.dmtc0 rt rd sel)
abbrev cgetbase (rd : Reg) (cb : Fin 32) : Asm L := op (.cgetbase rd cb)
abbrev cgetoffset (rd : Reg) (cb : Fin 32) : Asm L := op (.cgetoffset rd cb)
abbrev cgetcause (rd : Reg) : Asm L := op (.cgetcause rd)
abbrev clb (rd rt : Reg) (off : BitVec 64) (cb : Fin 32) : Asm L := op (.clb rd rt off cb)
abbrev csb (rs rt : Reg) (off : BitVec 64) (cb : Fin 32) : Asm L := op (.csb rs rt off cb)
abbrev clc (cd : Fin 32) (rt : Reg) (off : BitVec 64) (cb : Fin 32) : Asm L :=
  op (.clc cd rt off cb)
abbrev csc (cs : Fin 32) (rt : Reg) (off : BitVec 64) (cb : Fin 32) : Asm L :=
  op (.csc cs rt off cb)
abbrev beq (rs rt : Reg) (l : L) : Asm L := .insn (.branch (.eq rs rt) l)
abbrev bne (rs rt : Reg) (l : L) : Asm L := .insn (.branch (.ne rs rt) l)
abbrev beqz (rs : Reg) (l : L) : Asm L := .insn (.branch (.eq rs .zero) l)
abbrev bnez (rs : Reg) (l : L) : Asm L := .insn (.branch (.ne rs .zero) l)
abbrev beqzl (rs : Reg) (l : L) : Asm L := .insn (.branchLikely (.eq rs .zero) l)
abbrev bltz (rs : Reg) (l : L) : Asm L := .insn (.branch (.ltz rs) l)
abbrev blez (rs : Reg) (l : L) : Asm L := .insn (.branch (.lez rs) l)
abbrev bgtz (rs : Reg) (l : L) : Asm L := .insn (.branch (.gtz rs) l)
abbrev bgez (rs : Reg) (l : L) : Asm L := .insn (.branch (.gez rs) l)
abbrev b (l : L) : Asm L := .insn (.branch (.eq .zero .zero) l)
abbrev bal (l : L) : Asm L := .insn (.bal l)
abbrev jal (target : BitVec 64) : Asm L := .insn (.jal target)
abbrev j (target : BitVec 64) : Asm L := .insn (.j target)
abbrev jr (rs : Reg) : Asm L := .insn (.jr rs)
abbrev cjr (cb : Fin 32) : Asm L := .insn (.cjr cb)
abbrev eret : Asm L := .insn .eret

end Asm

end Mips
