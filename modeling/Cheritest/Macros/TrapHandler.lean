/-
Cheritest/Macros/TrapHandler.lean

The counting trap handler of macros.s and the decoder of its result in
tools/sim/beritest_tools.py.

The handler counts the exceptions of a test and packs what it knows about
the last one into `$k1`: CapCause in bits 0 to 15, the low 32 bits of Cause
in bits 16 to 47 and the exception count in bits 48 to 63 (the layout
comment of `collect_compressed_trap_info` is out of date).  The count lives
in the UserLocal register or, for COUNTING_TRAP_HANDLER_STORE_TO_MEM, in
memory; both forms of the macros are modelled.

`counting_trap_handler_run` is about whole runs: the interrupted program may
do anything between two exceptions but change the stored count.
-/
import Mathlib.Tactic.Ring
import Cheritest.Mips.Run

namespace Cheritest

open Mips

/-! ### The macros -/

/-- Where the exception count is stored. -/
inductive CountStore
  | userLocal
  | memory (trap_count : BitVec 64)

/-- Labels of the handler. -/
inductive HandlerLabel
  | Lnot_syscall
  | Lset_capcause
  | Lcp2_disabled_skip_capcause
  | Lskip_one_instr
  | Lskip_branch_and_delay_slot
  | Ldo_eret
  | Lsyscall
  deriving DecidableEq

namespace CountStore

/-- `__get_counting_trap_handler_count`. -/
def getCount (dest : Reg) : CountStore → List (Asm HandlerLabel)
  | userLocal => [.dmfc0 dest 4 2]
  | memory trap_count => [.dla .k0 trap_count, .ld dest 0 .k0]

/-- `__set_counting_trap_handler_count`. -/
def setCount (src : Reg) : CountStore → List (Asm HandlerLabel)
  | userLocal => [.dmtc0 src 4 2]
  | memory trap_count => [.dla .k0 trap_count, .sd src 0 .k0]

/-- The stored count. -/
def count {n : ℕ} (c : Core n) (m : Mem) : CountStore → BitVec 64
  | userLocal => c.cp0 4 2
  | memory trap_count => m.loadDouble trap_count

/-- `trap_count` is placed with `.balign 8`. -/
def Aligned : CountStore → Prop
  | userLocal => True
  | memory trap_count => trap_count.toNat % 8 = 0

/-- How many instructions more than with UserLocal the macros take. -/
def extra : CountStore → ℕ
  | userLocal => 0
  | memory _ => 1

end CountStore

/-- `collect_compressed_trap_info`. -/
def collect_compressed_trap_info (store : CountStore)
    (compressed_info_reg tmp_reg trap_count_reg : Reg) : List (Asm HandlerLabel) :=
  List.flatten [
    [ .dmfc0 tmp_reg 13 0,
      .dsll tmp_reg tmp_reg 32,
      .dsrl compressed_info_reg tmp_reg 16,
      .mfc0 tmp_reg 12 0,
      .dli trap_count_reg (1#64 <<< 30),
      .and tmp_reg tmp_reg trap_count_reg,
      .beqz tmp_reg .Lcp2_disabled_skip_capcause,
      .nop,
      .label .Lset_capcause,
      .cgetcause trap_count_reg,
      .andi trap_count_reg trap_count_reg 0xffff,
      .or compressed_info_reg compressed_info_reg trap_count_reg,
      .label .Lcp2_disabled_skip_capcause ],
    store.getCount trap_count_reg,
    [ .daddiu trap_count_reg trap_count_reg 1 ],
    store.setCount trap_count_reg,
    [ .dsll trap_count_reg trap_count_reg 48,
      .or compressed_info_reg compressed_info_reg trap_count_reg,
      .dsrl trap_count_reg trap_count_reg 48 ] ]

/-- `DO_ERET`. -/
def DO_ERET : List (Asm HandlerLabel) :=
  [.ssnop, .ssnop, .ssnop, .ssnop, .eret]

/-- The end of the handler: EPC is moved past the instruction and control
given back. -/
def resumeCode : List (Asm HandlerLabel) :=
  [ .dsrl .k0 .k1 47,
    .andi .k0 .k0 1,
    .bne .k0 .zero .Lskip_branch_and_delay_slot,
    .nop,
    .label .Lskip_one_instr,
    .dmfc0 .k0 14 0,
    .daddiu .k0 .k0 4,
    .dmtc0 .k0 14 0,
    .b .Ldo_eret,
    .nop,
    .label .Lskip_branch_and_delay_slot,
    .dmfc0 .k0 14 0,
    .daddiu .k0 .k0 8,
    .dmtc0 .k0 14 0,
    .label .Ldo_eret,
    .dmfc0 .k0 8 0,
    .ori .zero .zero 0xbeef ] ++ DO_ERET

/-- `DEFINE_COUNTING_CHERI_TRAP_HANDLER` with its default registers;
`finish` is the address the test exits through. -/
def DEFINE_COUNTING_CHERI_TRAP_HANDLER (store : CountStore) (finish : BitVec 64) :
    List (Asm HandlerLabel) :=
  List.flatten [
    [ .ori .zero .zero 0xdead,
      .dmfc0 .k0 13 0,
      .andi .k1 .k0 (0x1f#16 <<< 2),
      .daddiu .k1 .k1 (-(8#16 <<< 2)),
      .beqz .k1 .Lsyscall,
      .nop,
      .label .Lnot_syscall ],
    collect_compressed_trap_info store .k1 .k0 .v0,
    resumeCode,
    [ .label .Lsyscall ],
    store.getCount .v0,
    [ .ori .zero .zero 0xbeef,
      .dla .ra finish,
      .jr .ra,
      .nop ] ]

/-- The handler, placed at the exception vector. -/
def handlerText (base : BitVec 64) (store : CountStore) (finish : BitVec 64) :
    Text HandlerLabel where
  base := base
  code := DEFINE_COUNTING_CHERI_TRAP_HANDLER store finish
  fits := by
    cases store <;> simp [DEFINE_COUNTING_CHERI_TRAP_HANDLER, collect_compressed_trap_info,
      CountStore.getCount, CountStore.setCount, resumeCode, DO_ERET, assemble]

/-! ### The decoder -/

/-- The fields `CompressedTrapInfo` of beritest_tools.py extracts. -/
structure CompressedTrapInfo where
  capreg : ℕ
  capcause : ℕ
  cause : ℕ
  bdelay : Bool
  trap_count : ℕ
  deriving DecidableEq

/-- `CompressedTrapInfo.__init__`. -/
def CompressedTrapInfo.ofReg (compressed_value : ℕ) : CompressedTrapInfo where
  capreg := compressed_value &&& 0xff
  capcause := (compressed_value >>> 8) &&& 0xff
  cause := (compressed_value >>> 18) &&& 0x1f
  bdelay := ((compressed_value >>> 47) &&& 1) != 0
  trap_count := compressed_value >>> 48

/-! ### Exceptions -/

/-- What the processor reports about an exception. -/
structure Exception where
  cause : BitVec 32
  capCause : BitVec 16
  /-- Coprocessor 2 is enabled. -/
  cp2 : Bool
  epc : BitVec 64

namespace Exception

/-- The ExcCode field of Cause. -/
def excCode (x : Exception) : ℕ := x.cause.toNat / 4 % 32

/-- The BD bit of Cause. -/
def bd (x : Exception) : Bool := x.cause.getLsbD 31

/-- The coprocessor registers on entry to the handler report `x`.  The upper
half of a doubleword read of Cause may be anything. -/
structure TakenIn {n : ℕ} (x : Exception) (c : Core n) : Prop where
  cause : (c.cp0 13 0).setWidth 32 = x.cause
  cp2 : cu2 (c.cp0 12 0) = x.cp2
  capCause : c.capCause = x.capCause
  epc : c.cp0 14 0 = x.epc

end Exception

variable {n : ℕ} {F : CapFormat n}

/-- The state in which the handler of exception `x` gives control back, when
`k` exceptions have been handled: `c` is the state it was entered in. -/
structure Handled (store : CountStore) (k : ℕ) (x : Exception) (c : Core n)
    (s : Hart n × Mem) : Prop where
  v0 : (s.1.core.get .v0).toNat = k
  count : (store.count s.1.core s.2).toNat = k
  info : CompressedTrapInfo.ofReg (s.1.core.get .k1).toNat =
    { trap_count := k
      cause := x.excCode
      bdelay := x.bd
      capcause := if x.cp2 then x.capCause.toNat / 256 else 0
      capreg := if x.cp2 then x.capCause.toNat % 256 else 0 }
  epc : s.1.core.cp0 14 0 = x.epc + if x.bd then 8 else 4
  pc : s.1.pc = x.epc + if x.bd then 8 else 4
  frame : ∀ r, r ≠ .v0 → r ≠ .k0 → r ≠ .k1 → s.1.core.get r = c.get r

/-- Runs of a program under the handler: `Invocations T F store xs s` says
that, the count being 0 at first, the exceptions `xs` have been handled and
the last handler returned in state `s`. -/
inductive Invocations (T : Text HandlerLabel) (F : CapFormat n) (store : CountStore) :
    List Exception → Hart n × Mem → Prop
  | start {s} : store.count s.1.core s.2 = 0 → Invocations T F store [] s
  | exception {xs s x c m s'} : Invocations T F store xs s →
      store.count c m = store.count s.1.core s.2 → x.TakenIn c →
      Returns T F (T.at 0 c m) s' → Invocations T F store (xs ++ [x]) s'

/-! ### Packing and unpacking -/

/-- The packed word as a sum of its three fields. -/
theorem compressed_toNat (cause cap : BitVec 64) (k : ℕ) (hcap : cap.toNat < 2 ^ 16)
    (hk : k < 2 ^ 16) :
    (((cause <<< 32) >>> 16 ||| cap) ||| (BitVec.ofNat 64 k <<< 48)).toNat
      = k * 2 ^ 48 + cause.toNat % 2 ^ 32 * 2 ^ 16 + cap.toNat := by
  have hc : ((cause <<< 32) >>> 16).toNat = cause.toNat % 2 ^ 32 * 2 ^ 16 := by
    simp only [BitVec.toNat_ushiftRight, BitVec.toNat_shiftLeft, Nat.shiftLeft_eq,
      Nat.shiftRight_eq_div_pow]
    omega
  have hkn : (BitVec.ofNat 64 k <<< 48).toNat = k * 2 ^ 48 := by
    simp only [BitVec.toNat_shiftLeft, BitVec.toNat_ofNat, Nat.shiftLeft_eq]
    omega
  have hlow : (cause.toNat % 2 ^ 32 * 2 ^ 16 ||| cap.toNat)
      = cause.toNat % 2 ^ 32 * 2 ^ 16 + cap.toNat := by
    rw [← Nat.shiftLeft_eq, Nat.shiftLeft_add_eq_or_of_lt hcap]
  rw [BitVec.toNat_or, BitVec.toNat_or, hc, hkn, hlow, Nat.or_comm, ← Nat.shiftLeft_eq k,
    ← Nat.shiftLeft_add_eq_or_of_lt (by omega), Nat.shiftLeft_eq]
  ring

/-- The decoder splits such a sum into its fields again. -/
theorem ofReg_sum {k cause cap : ℕ} (hcause : cause < 2 ^ 32) (hcap : cap < 2 ^ 16) :
    CompressedTrapInfo.ofReg (k * 2 ^ 48 + cause * 2 ^ 16 + cap) =
      { trap_count := k, cause := cause / 4 % 32, bdelay := cause.testBit 31,
        capcause := cap / 256, capreg := cap % 256 } := by
  have h8 (v : ℕ) : v &&& 0xff = v % 256 := Nat.and_two_pow_sub_one_eq_mod v 8
  have h5 (v : ℕ) : v &&& 0x1f = v % 32 := Nat.and_two_pow_sub_one_eq_mod v 5
  have h1 (v : ℕ) : v &&& 1 = v % 2 := Nat.and_two_pow_sub_one_eq_mod v 1
  simp only [CompressedTrapInfo.ofReg, h8, h5, h1, Nat.shiftRight_eq_div_pow,
    CompressedTrapInfo.mk.injEq, Nat.testBit, Nat.one_and_eq_mod_two]
  refine ⟨by omega, by omega, by omega, ?_, by omega⟩
  congr 1
  omega

/-! ### Straight-line pieces -/

section pieces
variable (base finish : BitVec 64) (store : CountStore) {c : Core n} {m : Mem}

/-- Only the registers the handler may use differ. -/
def OnlyScratch (c c' : Core n) : Prop :=
  ∀ r, r ≠ .v0 → r ≠ .k0 → r ≠ .k1 → c'.get r = c.get r

theorem OnlyScratch.trans {c c' c'' : Core n} (h : OnlyScratch c c') (h' : OnlyScratch c' c'') :
    OnlyScratch c c'' := fun r h₁ h₂ h₃ => (h' r h₁ h₂ h₃).trans (h r h₁ h₂ h₃)

@[simp] theorem labelIndex_cp2_disabled :
    labelIndex .Lcp2_disabled_skip_capcause (handlerText base store finish).code = 17 := by
  rfl

@[simp] theorem labelIndex_skip_branch :
    labelIndex .Lskip_branch_and_delay_slot (handlerText base store finish).code
      = 2 * store.extra + 32 := by
  cases store <;> rfl

@[simp] theorem labelIndex_do_eret :
    labelIndex .Ldo_eret (handlerText base store finish).code = 2 * store.extra + 35 := by
  cases store <;> rfl

/-- CapCause has no bits above bit 15. -/
theorem capCause_and_ffff (v : BitVec 16) : v.setWidth 64 &&& 0xffff#64 = v.setWidth 64 := by
  apply BitVec.eq_of_toNat_eq
  have h : v.toNat &&& 65535 = v.toNat := by
    rw [Nat.and_two_pow_sub_one_eq_mod v.toNat 16, Nat.mod_eq_of_lt v.isLt]
  rw [BitVec.toNat_and, BitVec.toNat_setWidth, Nat.mod_eq_of_lt (by omega)]
  exact h

/-- The ExcCode test falls through for anything but a system call. -/
theorem excCode_ne_syscall {x : Exception} (hx : x.TakenIn c) (hsys : x.excCode ≠ 8) :
    c.cp0 13 0 &&& 124#64 ≠ 32#64 := by
  intro h
  apply hsys
  have hm : (c.cp0 13 0).toNat / 4 % 32 = 8 := by
    have h' := congrArg (fun v => v.toNat / 4) h
    have hand : ((c.cp0 13 0).toNat &&& 124) / 4 = (c.cp0 13 0).toNat / 4 % 32 := by
      rw [← Nat.and_two_pow_sub_one_eq_mod _ 5, ← Nat.shiftRight_eq_div_pow _ 2,
        Nat.shiftRight_and_distrib, Nat.shiftRight_eq_div_pow]
      rfl
    simpa [hand] using h'
  rw [Exception.excCode, ← hx.cause, BitVec.toNat_setWidth]
  omega

/-- From the entry to `.Lnot_syscall`. -/
theorem not_syscall (hsys : c.cp0 13 0 &&& 124#64 ≠ 32#64) :
    ∃ c', Steps (handlerText base store finish) F ((handlerText base store finish).at 0 c m)
      ((handlerText base store finish).at 6 c' m) ∧ OnlyScratch c c' ∧ c'.cp0 = c.cp0 ∧
      c'.capCause = c.capCause := by
  apply Exists.intro
  refine ⟨?_, ?_, ?_, ?_⟩
  · refine .trans (steps_op rfl rfl) ?_
    refine .trans (steps_op rfl rfl) ?_
    refine .trans (steps_op rfl rfl) ?_
    refine .trans (steps_op rfl rfl) ?_
    refine steps_not_taken rfl rfl ?_ rfl
    simp [Cond.holds]
    intro h
    apply hsys
    bv_omega
  · intro r _ hk0 hk1
    simp [hk0, hk1]
  · rfl
  · rfl

/-- From `.Lnot_syscall` to the counting: Cause, and CapCause if it can be
read, are packed into `$k1`. -/
theorem collect_causes :
    ∃ c', Steps (handlerText base store finish) F ((handlerText base store finish).at 6 c m)
      ((handlerText base store finish).at 17 c' m) ∧ OnlyScratch c c' ∧ c'.cp0 = c.cp0 ∧
      c'.get .k1 = (c.cp0 13 0 <<< 32) >>> 16 |||
        (if cu2 (c.cp0 12 0) then c.capCause.setWidth 64 else 0) := by
  by_cases h2 : cu2 (c.cp0 12 0) = true
  · apply Exists.intro
    refine ⟨?_, ?_, ?_, ?_⟩
    · refine .trans (steps_op rfl rfl) ?_
      refine .trans (steps_op rfl rfl) ?_
      refine .trans (steps_op rfl rfl) ?_
      refine .trans (steps_op rfl rfl) ?_
      refine .trans (steps_op rfl rfl) ?_
      refine .trans (steps_op rfl rfl) ?_
      refine .trans (steps_not_taken rfl rfl (by simp [Cond.holds, sext32_and_cu2, h2]) rfl) ?_
      refine .trans (steps_op rfl (Op.exec_cgetcause h2)) ?_
      refine .trans (steps_op rfl rfl) ?_
      exact steps_op rfl rfl
    · intro r hv0 hk0 hk1
      simp [hv0, hk0, hk1]
    · rfl
    · simp [h2, capCause_and_ffff]
  · apply Exists.intro
    refine ⟨?_, ?_, ?_, ?_⟩
    · refine .trans (steps_op rfl rfl) ?_
      refine .trans (steps_op rfl rfl) ?_
      refine .trans (steps_op rfl rfl) ?_
      refine .trans (steps_op rfl rfl) ?_
      refine .trans (steps_op rfl rfl) ?_
      refine .trans (steps_op rfl rfl) ?_
      exact steps_taken rfl rfl (labelIndex_cp2_disabled base finish store)
        (by simp [Cond.holds, sext32_and_cu2, h2]) rfl
    · intro r hv0 hk0 hk1
      simp [hv0, hk0, hk1]
    · rfl
    · simp [h2]

/-- The counting: from the causes packed to the complete `$k1`. -/
theorem count_exception {k : ℕ} (hal : store.Aligned) (hk : k + 1 < 2 ^ 16)
    (hc : (store.count c m).toNat = k) :
    ∃ c' m', Steps (handlerText base store finish) F
      ((handlerText base store finish).at 17 c m)
      ((handlerText base store finish).at (2 * store.extra + 23) c' m') ∧
      OnlyScratch c c' ∧ (∀ r, r ≠ 4 → c'.cp0 r = c.cp0 r) ∧
      (store.count c' m').toNat = k + 1 ∧ c'.get .v0 = BitVec.ofNat 64 (k + 1) ∧
      c'.get .k1 = c.get .k1 ||| BitVec.ofNat 64 (k + 1) <<< 48 := by
  have hcount : store.count c m = BitVec.ofNat 64 k := by
    rw [← hc, BitVec.ofNat_toNat, BitVec.setWidth_eq]
  have hsucc : BitVec.ofNat 64 k + 1#64 = BitVec.ofNat 64 (k + 1) := by
    rw [BitVec.ofNat_add]
  have hback : BitVec.ofNat 64 (k + 1) <<< 48 >>> 48 = BitVec.ofNat 64 (k + 1) := by
    apply BitVec.eq_of_toNat_eq
    simp only [BitVec.toNat_ushiftRight, BitVec.toNat_shiftLeft, BitVec.toNat_ofNat,
      Nat.shiftLeft_eq, Nat.shiftRight_eq_div_pow]
    omega
  cases store with
  | userLocal =>
    simp only [CountStore.count] at hcount
    apply Exists.intro
    apply Exists.intro
    refine ⟨?_, ?_, ?_, ?_, ?_, ?_⟩
    · refine .trans (steps_op rfl rfl) ?_
      refine .trans (steps_op rfl rfl) ?_
      refine .trans (steps_op rfl rfl) ?_
      refine .trans (steps_op rfl rfl) ?_
      refine .trans (steps_op rfl rfl) ?_
      exact steps_op rfl rfl
    · intro r hv0 hk0 hk1
      simp [hv0, hk1]
    · intro r hr
      funext s
      simp [hr]
    · simp [CountStore.count, hcount, hsucc]
      omega
    · simp [hcount, hsucc, hback]
    · simp [hcount, hsucc]
  | memory trap_count =>
    simp only [CountStore.count] at hcount
    simp only [CountStore.Aligned] at hal
    apply Exists.intro
    apply Exists.intro
    refine ⟨?_, ?_, ?_, ?_, ?_, ?_⟩
    · refine .trans (steps_op rfl rfl) ?_
      refine .trans (steps_op rfl (Op.exec_ld (by simpa using hal))) ?_
      refine .trans (steps_op rfl rfl) ?_
      refine .trans (steps_op rfl rfl) ?_
      refine .trans (steps_op rfl (Op.exec_sd (by simpa using hal))) ?_
      refine .trans (steps_op rfl rfl) ?_
      refine .trans (steps_op rfl rfl) ?_
      exact steps_op rfl rfl
    · intro r hv0 hk0 hk1
      simp [hv0, hk0, hk1]
    · intro r hr
      rfl
    · simp [CountStore.count, hcount, hsucc]
      omega
    · simp [hcount, hsucc, hback]
    · simp [hcount, hsucc]

theorem hasAt_resumeCode :
    (handlerText base store finish).HasAt (2 * store.extra + 23) resumeCode := by
  cases store <;> exact .of_drop rfl

/-- The return address: past the branch and its delay slot if BD was set. -/
theorem skip_instruction {bd : Bool} (hbd : c.get .k1 >>> 47 &&& 1#64 = if bd then 1 else 0) :
    ∃ c', Steps (handlerText base store finish) F
      ((handlerText base store finish).at (2 * store.extra + 23) c m)
      ((handlerText base store finish).at (2 * store.extra + 35) c' m) ∧
      OnlyScratch c c' ∧ c'.get .v0 = c.get .v0 ∧ c'.get .k1 = c.get .k1 ∧
      c'.cp0 14 0 = c.cp0 14 0 + (if bd then 8 else 4) ∧ c'.cp0 4 = c.cp0 4 := by
  have hcode := hasAt_resumeCode base finish store
  cases bd with
  | true =>
    apply Exists.intro
    refine ⟨?_, ?_, ?_, ?_, ?_, ?_⟩
    · refine .trans (steps_op (hcode 0 _ rfl) rfl) ?_
      refine .trans (steps_op (hcode 1 _ rfl) rfl) ?_
      refine .trans (steps_taken (hcode 2 _ rfl) (hcode 3 _ rfl)
        (labelIndex_skip_branch base finish store) (by simp [Cond.holds, hbd]) rfl) ?_
      refine .trans (steps_op (hcode 9 _ rfl) rfl) ?_
      refine .trans (steps_op (hcode 10 _ rfl) rfl) ?_
      exact steps_op (hcode 11 _ rfl) rfl
    · intro r hv0 hk0 hk1
      simp [hk0]
    · rfl
    · rfl
    · simp
    · rfl
  | false =>
    apply Exists.intro
    refine ⟨?_, ?_, ?_, ?_, ?_, ?_⟩
    · refine .trans (steps_op (hcode 0 _ rfl) rfl) ?_
      refine .trans (steps_op (hcode 1 _ rfl) rfl) ?_
      refine .trans (steps_not_taken (hcode 2 _ rfl) (hcode 3 _ rfl)
        (by simp [Cond.holds, hbd]) rfl) ?_
      refine .trans (steps_op (hcode 4 _ rfl) rfl) ?_
      refine .trans (steps_op (hcode 5 _ rfl) rfl) ?_
      refine .trans (steps_op (hcode 6 _ rfl) rfl) ?_
      exact steps_taken (hcode 7 _ rfl) (hcode 8 _ rfl)
        (labelIndex_do_eret base finish store) (by rfl) rfl
    · intro r hv0 hk0 hk1
      simp [hk0]
    · rfl
    · rfl
    · simp
    · rfl

/-- The last instructions before `eret`. -/
theorem do_eret :
    ∃ c', Steps (handlerText base store finish) F
      ((handlerText base store finish).at (2 * store.extra + 35) c m)
      ((handlerText base store finish).at (2 * store.extra + 41) c' m) ∧
      OnlyScratch c c' ∧ c'.get .v0 = c.get .v0 ∧ c'.get .k1 = c.get .k1 ∧ c'.cp0 = c.cp0 := by
  have hcode := hasAt_resumeCode base finish store
  apply Exists.intro
  refine ⟨?_, ?_, ?_, ?_, ?_⟩
  · refine .trans (steps_op (hcode 12 _ rfl) rfl) ?_
    refine .trans (steps_op (hcode 13 _ rfl) rfl) ?_
    refine .trans (steps_op (hcode 14 _ rfl) rfl) ?_
    refine .trans (steps_op (hcode 15 _ rfl) rfl) ?_
    refine .trans (steps_op (hcode 16 _ rfl) rfl) ?_
    exact steps_op (hcode 17 _ rfl) rfl
  · intro r hv0 hk0 hk1
    simp [hk0]
  · rfl
  · rfl
  · rfl

end pieces

/-! ### Whole invocations -/

section runs
variable (base finish : BitVec 64) {store : CountStore} {c : Core n} {m : Mem}

/-- One invocation of the handler. -/
theorem counting_trap_handler_step {k : ℕ} {x : Exception} (hal : store.Aligned)
    (hk : k + 1 < 2 ^ 16) (hc : (store.count c m).toNat = k) (hx : x.TakenIn c)
    (hsys : x.excCode ≠ 8) :
    ∃ s, Returns (handlerText base store finish) F ((handlerText base store finish).at 0 c m) s ∧
      Handled store (k + 1) x c s := by
  obtain ⟨c₁, h₁, f₁, cp₁, cc₁⟩ :=
    not_syscall base finish store (F := F) (m := m) (excCode_ne_syscall hx hsys)
  obtain ⟨c₂, h₂, f₂, cp₂, k₂⟩ :=
    collect_causes base finish store (F := F) (m := m) (c := c₁)
  have hc₂ : (store.count c₂ m).toNat = k := by
    rw [← hc]
    cases store <;> simp [CountStore.count, cp₁, cp₂]
  obtain ⟨c₃, m₃, h₃, f₃, cp₃, n₃, v₃, k₃⟩ :=
    count_exception base finish store (F := F) hal hk hc₂
  -- `$k1` is complete now
  have hinfo : (c₃.get .k1).toNat = (k + 1) * 2 ^ 48 + x.cause.toNat * 2 ^ 16 +
      (if x.cp2 then x.capCause.toNat else 0) := by
    rw [k₃, k₂, cp₁, cc₁, hx.cp2, hx.capCause]
    have hcap : (if x.cp2 = true then x.capCause.setWidth 64 else 0).toNat
        = if x.cp2 then x.capCause.toNat else 0 := by
      cases x.cp2 with
      | true => simp; omega
      | false => rfl
    rw [compressed_toNat _ _ _ (by rw [hcap]; split_ifs <;> omega) hk, hcap, ← hx.cause]
    simp
  have hbd : c₃.get .k1 >>> 47 &&& 1#64 = if x.bd then 1 else 0 := by
    have hcap : (if x.cp2 then x.capCause.toNat else 0) < 2 ^ 16 := by
      split_ifs <;> omega
    have hbit : x.bd = decide (x.cause.toNat / 2 ^ 31 % 2 = 1) :=
      Nat.testBit_eq_decide_div_mod_eq
    have hmod (v : ℕ) : v &&& (1#64).toNat = v % 2 := Nat.and_two_pow_sub_one_eq_mod v 1
    apply BitVec.eq_of_toNat_eq
    rw [BitVec.toNat_and, BitVec.toNat_ushiftRight, hinfo, Nat.shiftRight_eq_div_pow, hmod, hbit]
    by_cases h31 : x.cause.toNat / 2 ^ 31 % 2 = 1
    · simp only [h31, decide_true, if_true]
      change _ = 1
      omega
    · simp only [h31, decide_false, Bool.false_eq_true, if_false]
      change _ = 0
      omega
  obtain ⟨c₄, h₄, f₄, v₄, k₄, e₄, u₄⟩ :=
    skip_instruction base finish store (F := F) (m := m₃) hbd
  obtain ⟨c₅, h₅, f₅, v₅, k₅, cp₅⟩ :=
    do_eret base finish store (F := F) (m := m₃) (c := c₄)
  have hepc : c₅.cp0 14 0 = x.epc + if x.bd then 8 else 4 := by
    rw [cp₅, e₄, cp₃ 14 (by decide), cp₂, cp₁, hx.epc]
  refine ⟨_, returns_eret (h₁.trans (h₂.trans (h₃.trans (h₄.trans h₅))))
    (hasAt_resumeCode base finish store 18 _ rfl), ?_⟩
  constructor
  case v0 =>
    simp [v₅, v₄, v₃]
    omega
  case count =>
    rw [← n₃]
    cases store <;> simp [CountStore.count, cp₅, u₄]
  case info =>
    have hcap : (if x.cp2 then x.capCause.toNat else 0) < 2 ^ 16 := by
      split_ifs <;> omega
    rw [Core.get_setCp0, k₅, k₄, hinfo, ofReg_sum x.cause.isLt hcap]
    cases x.cp2 <;> simp [Exception.excCode, Exception.bd, BitVec.getLsbD]
  case epc => simp [hepc]
  case pc => exact hepc
  case frame =>
    intro r hv0 hk0 hk1
    rw [Core.get_setCp0]
    exact (f₁.trans (f₂.trans (f₃.trans (f₄.trans f₅)))) r hv0 hk0 hk1

/-- After `k` invocations the stored count is `k`. -/
theorem invocations_count {xs : List Exception} {s : Hart n × Mem} (hal : store.Aligned)
    (hrun : Invocations (handlerText base store finish) F store xs s)
    (hsys : ∀ y ∈ xs, y.excCode ≠ 8) (hlen : xs.length < 2 ^ 16) :
    (store.count s.1.core s.2).toNat = xs.length := by
  induction hrun with
  | start h => simp [h]
  | @exception xs s x c m s' _ hcount hx hret ih =>
    have hxs : ∀ y ∈ xs, y.excCode ≠ 8 := fun y hy => hsys y (by simp [hy])
    simp only [List.length_append, List.length_singleton] at hlen ⊢
    have hk : (store.count c m).toNat = xs.length := by
      rw [hcount]
      exact ih hxs (by omega)
    obtain ⟨s₁, h₁, hs₁⟩ := counting_trap_handler_step base finish hal hlen hk hx (hsys x (by simp))
    rw [hret.unique h₁]
    exact hs₁.count

end runs

end Cheritest
