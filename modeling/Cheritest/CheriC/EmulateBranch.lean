/-
Cheritest/CheriC/EmulateBranch.lean

For which words `emulateBranch` gives the architecture's answer.

`Right` asks for true and the architecture's successor at a branch, and for
false at a word that is none.  `Handled` lists the words that the switch gets
right, by the branch they encode.  `emulateBranch_agrees_iff`: in a delay
slot, the emulation is right exactly for these words, at a pc that passes the
assertions on the saved pcc.

The words that `Handled` leaves out are `bgez` with a register that is not
negative and every `bgezl` (the assertion of `bltzl`), `j` and `jal` to
another address than zero (the target is always zero), `jr` and `jalr`
(looked for among the major opcodes, at 8 and 9), capability registers from
26 on, and jumps to a capability whose offset is not in the register that the
word's `sa` field names.
-/
import Cheritest.CheriC.TestRuntime

namespace Cheritest.TestRuntime

open Mips.BranchWord

variable {u : ℕ → BitVec 32}

/-! ### Agreement with the architecture -/

/-- What the emulation of a word should give: true and the architecture's
successor for a branch, false for a word that is none. -/
def Right (context : Mcontext) (pc : BitVec 64) (w : BitVec 32)
    (result : Option (Bool × Mcontext)) : Prop :=
  match decode w with
  | some b => ∃ context', result = some (true, context') ∧
      b.successor context.saved pc = some context'.mc_pc
  | none => ∃ context', result = some (false, context')

/-- The branches that the switch emulates as the architecture does. -/
def HandledBranch (context : Mcontext) (pc : BitVec 64) (w : BitVec 32) : Branch → Prop
  | .relative false likely (.gez rs) _ => likely = false ∧ (context.saved.gpr rs).toInt < 0
  | .relative _ _ (.untagged cb) _ => cb.toNat < 26
  | .relative _ _ (.tagged cb) _ => cb.toNat < 26
  | .relative _ _ _ _ => True
  | .jump index => index = 0 ∧ (pc + 4) >>> 28 = 0
  | .register _ => False
  | .capability cb => cb.toNat < 26 ∧
      (context.saved.cap cb).map Capability.offset = some (context.saved.gpr (sa w))

/-- The words that the switch emulates as the architecture does. -/
def Handled (context : Mcontext) (pc : BitVec 64) (w : BitVec 32) : Prop :=
  match decode w with
  | some b => HandledBranch context pc w b
  | none => opcode w ≠ 0x08 ∧ opcode w ≠ 0x09

section Switch

variable {context : Mcontext} {pc : BitVec 64} {w : BitVec 32}

theorem right_of_decode {b : Branch} (hdecode : decode w = some b)
    (result : Option (Bool × Mcontext)) :
    Right context pc w result ↔ ∃ context', result = some (true, context') ∧
      b.successor context.saved pc = some context'.mc_pc := by
  unfold Right
  rw [hdecode]

theorem right_none (hdecode : decode w = none) (result : Option (Bool × Mcontext)) :
    Right context pc w result ↔ ∃ context', result = some (false, context') := by
  unfold Right
  rw [hdecode]

/-- A case that sets the pc is right when it sets the architecture's. -/
theorem right_branchTo {b : Branch} (hdecode : decode w = some b) (target : BitVec 64) :
    Right context pc w (branchTo context target) ↔
      b.successor context.saved pc = some target := by
  rw [right_of_decode hdecode]
  constructor
  · rintro ⟨context', hresult, hpc⟩
    obtain rfl : context.setPc target = context' := by
      simpa [branchTo] using hresult
    exact hpc
  · intro hpc
    exact ⟨_, rfl, hpc⟩

/-- A relative branch is right when the code's test is the architecture's. -/
theorem right_relative {link likely : Bool} {test : Test}
    (hdecode : decode w = some (.relative link likely test (immediate w)))
    {p : Prop} [Decidable p] (htest : test.holds context.saved = some (decide p)) :
    Right context pc w
      (branchTo context (if p then pc + getSImm (.cheri256 u) w 15 16 <<< 2 + 4 else pc + 8)) := by
  rw [right_branchTo hdecode, branchPc_eq]
  show (test.holds context.saved).map _ = _
  rw [htest]
  simp

theorem not_right_none {b : Branch} (hdecode : decode w = some b) : ¬Right context pc w none := by
  rw [right_of_decode hdecode]
  rintro ⟨context', hresult, -⟩
  cases hresult

theorem handled_some {b : Branch} (hdecode : decode w = some b) :
    Handled context pc w ↔ HandledBranch context pc w b := by
  unfold Handled
  rw [hdecode]

/-- In its delay slot, a likely branch is taken. -/
theorem taken_of_slot {link : Bool} {test : Test} {offset : BitVec 16} {p : Prop} [Decidable p]
    (htest : test.holds context.saved = some (decide p))
    (hslot : (Branch.relative link true test offset).runsSlot context.saved = true) : p := by
  have hne : test.holds context.saved ≠ some false := of_decide_eq_true hslot
  by_contra hp
  apply hne
  rw [htest, decide_eq_false hp]

theorem assert_of {p : Prop} [Decidable p] (h : p) : assert p = some () := if_pos h

theorem assert_of_not {p : Prop} [Decidable p] (h : ¬p) : assert p = none := if_neg h

theorem handled_none (hdecode : decode w = none) (hop : opcode w ≠ 0x08 ∧ opcode w ≠ 0x09) :
    Handled context pc w := by
  unfold Handled
  rw [hdecode]
  exact hop

/-- A word that no case of the code's switches takes. -/
theorem right_of_none (hdecode : decode w = none) :
    Right context pc w (some (false, context)) :=
  (right_none hdecode _).mpr ⟨context, rfl⟩

theorem opcode_ne {n : ℕ} {c : BitVec 6} (hop : (opcode w).toNat = n) (hc : c.toNat ≠ n) :
    opcode w ≠ c := by
  rintro rfl
  exact hc hop

theorem regimm_of_none (h : RegimmBranchOps.ofCode (rt w).toNat = none) : regimm w = none := by
  have hne := switch_eq_none h
  simp only [List.forall_mem_cons, RegimmBranchOps.code, List.not_mem_nil, false_implies,
    implies_true, and_true] at hne
  unfold regimm
  split
  all_goals first | rfl | (exfalso; omega)

/-- The branches under REGIMM. -/
theorem right_regimm_iff (hop : (opcode w).toNat = 0x1)
    (hslot : ∀ b ∈ decode w, b.runsSlot context.saved = true) :
    Right context pc w (emulateRegimm (.cheri256 u) context pc w) ↔ Handled context pc w := by
  have hdecode : decode w = regimm w := by
    unfold decode
    rw [hop]
    rfl
  unfold emulateRegimm
  simp only [getImm_rt, getReg_eq context w (getImm_rs w),
    BitVec.toNat_setWidth_of_le (show 5 ≤ 64 by omega)]
  rcases hrt : RegimmBranchOps.ofCode (rt w).toNat with - | op
  · rw [regimm_of_none hrt] at hdecode
    exact iff_of_true (right_of_none hdecode)
      (handled_none hdecode ⟨opcode_ne hop (by decide), opcode_ne hop (by decide)⟩)
  · have hcode := switch_eq_some hrt
    rw [regimm, hcode] at hdecode
    cases op with
    | bltz | bltzal =>
        rw [handled_some hdecode]
        exact iff_of_true (right_relative hdecode rfl) trivial
    | bgezal | bgezall =>
        rw [handled_some hdecode]
        exact iff_of_true (right_relative hdecode rfl) trivial
    | bltzl | bltzall =>
        have hneg := taken_of_slot rfl (hslot _ hdecode)
        rw [handled_some hdecode, assert_of hneg]
        exact iff_of_true (right_relative hdecode rfl) trivial
    | bgez =>
        rw [handled_some hdecode]
        by_cases hneg : (context.saved.gpr (rs w)).toInt < 0
        · rw [assert_of hneg]
          exact iff_of_true (right_relative hdecode rfl) ⟨rfl, hneg⟩
        · rw [assert_of_not hneg]
          exact iff_of_false (not_right_none hdecode) fun h => hneg h.2
    | bgezl =>
        -- the register is not negative, which the assertion asks for
        have hpos := taken_of_slot rfl (hslot _ hdecode)
        rw [handled_some hdecode, assert_of_not (not_lt.mpr hpos)]
        exact iff_of_false (not_right_none hdecode) fun h => Bool.noConfusion h.1

theorem cp2_of_none (h : CheriBranchOps.ofCode (rs w).toNat = none) : cp2 w = none := by
  have hne := switch_eq_none h
  simp only [List.forall_mem_cons, CheriBranchOps.code, List.not_mem_nil, false_implies,
    implies_true, and_true] at hne
  unfold cp2
  split
  all_goals first | rfl | (exfalso; omega)

/-- A branch on a capability register's tag. -/
theorem right_tag_iff {link likely : Bool} {test : Test}
    (hdecode : decode w = some (.relative link likely test (immediate w)))
    {p : Capability → Bool} {cb : BitVec 5}
    (htest : test.holds context.saved = (context.saved.cap cb).map p) :
    Right context pc w ((if cb.toNat < 26 then context.saved.cap cb else none) >>= fun cap =>
      branchTo context (if p cap then pc + getSImm (.cheri256 u) w 15 16 <<< 2 + 4 else pc + 8)) ↔
      cb.toNat < 26 := by
  split_ifs with h26
  · have hcap := saved_cap_of_lt context (Nat.lt_succ_of_lt h26)
    rw [hcap]
    rw [hcap] at htest
    refine iff_of_true (right_relative hdecode ?_) h26
    rw [htest]
    simp
  · exact iff_of_false (not_right_none hdecode) h26

/-- A jump to a capability goes to the register of the word's `sa` field. -/
theorem right_capability_iff {cb : BitVec 5} (hdecode : decode w = some (.capability cb)) :
    Right context pc w ((if cb.toNat < 26 then context.saved.cap cb else none) >>= fun cap =>
      pure (true, (context.setPc (context.saved.gpr (sa w))).setPcc cap)) ↔
      HandledBranch context pc w (.capability cb) := by
  show _ ↔ cb.toNat < 26 ∧ _
  split_ifs with h26
  · have hcap := saved_cap_of_lt context (Nat.lt_succ_of_lt h26)
    rw [right_of_decode hdecode, hcap]
    constructor
    · rintro ⟨context', hresult, hpc⟩
      obtain rfl : (context.setPc (context.saved.gpr (sa w))).setPcc _ = context' :=
        congrArg Prod.snd (Option.some.inj hresult)
      exact ⟨h26, hcap ▸ hpc⟩
    · rintro ⟨-, hpc⟩
      exact ⟨_, rfl, (congrArg (Option.map Capability.offset) hcap).trans hpc⟩
  · exact iff_of_false (not_right_none hdecode) fun h => h26 h.1

/-- The branches of the capability coprocessor. -/
theorem right_cheri_iff (hop : (opcode w).toNat = 0x12) :
    Right context pc w (emulateCheri (.cheri256 u) context pc w) ↔ Handled context pc w := by
  have hdecode : decode w = cp2 w := by
    unfold decode
    rw [hop]
    rfl
  unfold emulateCheri
  simp only [getImm_rs, getReg_eq context w (getImm_sa w), getCapReg_eq context w (getImm_rt w),
    getCapReg_eq (context.setPc _) w (getImm_rd w), saved_setPc_cap,
    BitVec.toNat_setWidth_of_le (show 5 ≤ 64 by omega)]
  rcases hrs : CheriBranchOps.ofCode (rs w).toNat with - | op
  · rw [cp2_of_none hrs] at hdecode
    exact iff_of_true (right_of_none hdecode)
      (handled_none hdecode ⟨opcode_ne hop (by decide), opcode_ne hop (by decide)⟩)
  · have hcode := switch_eq_some hrs
    rw [cp2, hcode] at hdecode
    cases op with
    | cbtu =>
        rw [handled_some hdecode]
        exact right_tag_iff hdecode rfl
    | cbts =>
        rw [handled_some hdecode]
        exact right_tag_iff hdecode rfl
    | cjr | cjalr =>
        rw [handled_some hdecode]
        exact right_capability_iff hdecode

theorem decode_of_none (h : BranchOps.ofCode (opcode w).toNat = none)
    (h0 : (opcode w).toNat ≠ 0) : decode w = none := by
  have hne := switch_eq_none h
  simp only [List.forall_mem_cons, BranchOps.code, List.not_mem_nil, false_implies,
    implies_true, and_true] at hne
  unfold decode
  split
  all_goals first | rfl | (exfalso; omega)

/-- Under SPECIAL the code sees no branch. -/
theorem right_special_iff (hop : (opcode w).toNat = 0x0) :
    Right context pc w (some (false, context)) ↔ Handled context pc w := by
  have hdecode : decode w = special w := by
    unfold decode
    rw [hop]
    rfl
  have hregister : ∀ n, decode w = some (.register n) →
      (Right context pc w (some (false, context)) ↔ Handled context pc w) := by
    intro n hn
    rw [handled_some hn, right_of_decode hn]
    refine iff_of_false ?_ id
    rintro ⟨context', hresult, -⟩
    cases hresult
  unfold special at hdecode
  split at hdecode
  · exact hregister _ hdecode
  · exact hregister _ hdecode
  · exact iff_of_true (right_of_none hdecode)
      (handled_none hdecode ⟨opcode_ne hop (by decide), opcode_ne hop (by decide)⟩)

/-- Major opcodes 8 and 9 are no branches; the code takes them for `jr` and `jalr`. -/
theorem right_jr_iff (hdecode : decode w = none) (hop : opcode w = 0x08 ∨ opcode w = 0x09)
    (target : BitVec 64) : Right context pc w (branchTo context target) ↔ Handled context pc w := by
  rw [right_none hdecode]
  unfold Handled
  rw [hdecode]
  refine iff_of_false ?_ ?_
  · rintro ⟨context', hresult⟩
    cases hresult
  · rintro ⟨h8, h9⟩
    exact hop.elim h8 h9

/-- **The switch**: in the delay slot of a branch, or at a word that is none,
it gives the architecture's answer exactly for the words of `Handled`. -/
theorem right_emulateInstr_iff (hslot : ∀ b ∈ decode w, b.runsSlot context.saved = true) :
    Right context pc w (emulateInstr (.cheri256 u) context pc w) ↔ Handled context pc w := by
  unfold emulateInstr
  simp only [getOpcode_toNat, getReg_eq context w (getImm_rs w), getReg_eq context w (getImm_rt w),
    jump_value]
  rcases hop : BranchOps.ofCode (opcode w).toNat with - | op
  · by_cases h0 : (opcode w).toNat = 0
    · exact right_special_iff h0
    · have hdecode := decode_of_none hop h0
      have hne := switch_eq_none hop
      refine iff_of_true (right_of_none hdecode) (handled_none hdecode ⟨?_, ?_⟩)
      · intro h8
        exact hne .jr (by decide) (congrArg BitVec.toNat h8).symm
      · intro h9
        exact hne .jalr (by decide) (congrArg BitVec.toNat h9).symm
  · have hcode := switch_eq_some hop
    have hdecode : decode w = decode w := rfl
    conv_rhs at hdecode => rw [decode, hcode]
    cases op with
    | regimm => exact right_regimm_iff hcode hslot
    | cheri => exact right_cheri_iff hcode
    | j | jal =>
        -- the code's target is zero
        rw [handled_some hdecode, right_branchTo hdecode]
        show some (jumpTarget pc _) = some 0#64 ↔ _
        rw [Option.some_inj, jumpTarget_eq_zero_iff]
        exact Iff.rfl
    | jr => exact right_jr_iff hdecode (Or.inl (BitVec.eq_of_toNat_eq hcode)) _
    | jalr => exact right_jr_iff hdecode (Or.inr (BitVec.eq_of_toNat_eq hcode)) _
    | beq | bne | blez | bgtz | beql | bnel | blezl | bgtzl =>
        rw [handled_some hdecode]
        exact iff_of_true (right_relative hdecode rfl) trivial
end Switch

/-! ### The emulation -/

/-- The assertions of `getAdjustedPc`. -/
def PcInside (context : Mcontext) (pc : BitVec 64) : Prop :=
  context.frame.cf_pcc.base < context.frame.cf_pcc.base + pc ∧ pc < context.frame.cf_pcc.length

/-- The word at `pc`, read through the saved pcc. -/
def wordAt (load : Capability → BitVec 32) (context : Mcontext) (pc : BitVec 64) : BitVec 32 :=
  load { context.frame.cf_pcc with offset := context.frame.cf_pcc.offset + pc }

section Emulation

variable {load : Capability → BitVec 32} {context : Mcontext} {pc : BitVec 64}

theorem emulateBranch_of_inside (h : PcInside context pc) :
    emulateBranch (.cheri256 u) load context pc =
      emulateInstr (.cheri256 u) context pc (wordAt load context pc) := by
  unfold emulateBranch getAdjustedPc
  dsimp only
  rw [assert_of h.1, assert_of h.2]
  rfl

theorem emulateBranch_of_outside (h : ¬PcInside context pc) :
    emulateBranch (.cheri256 u) load context pc = none := by
  unfold emulateBranch getAdjustedPc
  dsimp only
  by_cases hbase : context.frame.cf_pcc.base < context.frame.cf_pcc.base + pc
  · have hlength : ¬pc < context.frame.cf_pcc.length := fun hlt => h ⟨hbase, hlt⟩
    rw [assert_of hbase, assert_of_not hlength]
    rfl
  · rw [assert_of_not hbase]
    rfl

theorem not_right_abort {w : BitVec 32} : ¬Right context pc w none := by
  unfold Right
  split
  · rintro ⟨context', hresult, -⟩
    cases hresult
  · rintro ⟨context', hresult⟩
    cases hresult

/-- The context differs from the saved one in its pc and its pcc only. -/
def PcOnly (context : Mcontext) (result : Option (Bool × Mcontext)) : Prop :=
  ∀ r ∈ result, r.2 = (context.setPc r.2.mc_pc).setPcc r.2.frame.cf_pcc

theorem pcOnly_false : PcOnly context (some (false, context)) := by
  rintro r hr
  obtain rfl := Option.some.inj hr
  rfl

theorem pcOnly_branchTo (target : BitVec 64) : PcOnly context (branchTo context target) := by
  rintro r hr
  obtain rfl := Option.some.inj hr
  rfl

theorem pcOnly_bind {α : Type} {x : Option α} {f : α → Option (Bool × Mcontext)}
    (h : ∀ a, PcOnly context (f a)) : PcOnly context (x >>= f) := by
  rcases x with - | a
  · rintro r hr
    cases hr
  · exact h a

theorem pcOnly_emulateRegimm (w : BitVec 32) :
    PcOnly context (emulateRegimm (.cheri256 u) context pc w) := by
  unfold emulateRegimm
  dsimp only
  split
  case h_9 => exact pcOnly_false
  all_goals first
    | exact pcOnly_branchTo _
    | exact pcOnly_bind fun _ => pcOnly_branchTo _

theorem pcOnly_emulateCheri (w : BitVec 32) :
    PcOnly context (emulateCheri (.cheri256 u) context pc w) := by
  unfold emulateCheri
  dsimp only
  split
  case h_5 => exact pcOnly_false
  case h_1 | h_2 => exact pcOnly_bind fun cap => pcOnly_branchTo _
  case h_3 | h_4 =>
    refine pcOnly_bind fun cap => ?_
    rintro r hr
    obtain rfl := Option.some.inj hr
    rfl

theorem pcOnly_emulateInstr (w : BitVec 32) :
    PcOnly context (emulateInstr (.cheri256 u) context pc w) := by
  unfold emulateInstr
  dsimp only
  split
  case h_1 => exact pcOnly_emulateRegimm w
  case h_14 => exact pcOnly_emulateCheri w
  case h_15 => exact pcOnly_false
  all_goals exact pcOnly_branchTo _

/-- **Frame**: the emulation changes the pc and the pcc, and nothing else. -/
theorem pcOnly_emulateBranch : PcOnly context (emulateBranch (.cheri256 u) load context pc) :=
  pcOnly_bind fun _ => pcOnly_emulateInstr _

/-- A context with 5 in its registers. -/
def sampleContext : Mcontext where
  mc_pc := 0x1000
  cause := 0x80000000
  mc_regs _ := 5
  frame :=
    { cap := fun _ => ⟨true, 0, 0xffffffff, 0⟩
      cf_pcc := ⟨true, 0, 0xffffffff, 0⟩
      cf_capcause := 0 }

/-- **The handler**: a fault in the delay slot of a branch that the emulation
handles resumes where the architecture continues. -/
theorem capsighandler_resumes {σ : Type} {SIGPROT : ℤ} {handler : Capability → BitVec 64 → σ → σ}
    {s : σ} {reg : Capability} {b : Branch}
    (hdelay : isInDelaySlot (.cheri256 u) context = true)
    (hreg : getCapRegAtIndex context (capCauseReg context) = some reg)
    (hpc : 4 < context.mc_pc.toInt) (hinside : PcInside context context.mc_pc)
    (hdecode : decode (wordAt load context context.mc_pc) = some b)
    (hslot : b.runsSlot context.saved = true)
    (hhandled : Handled context context.mc_pc (wordAt load context context.mc_pc)) :
    ∃ context', capsighandler (.cheri256 u) load SIGPROT SIGPROT (some handler) s context =
        some (handler reg (context.frame.cf_capcause >>> 8) s, context') ∧
      b.successor context.saved context.mc_pc = some context'.mc_pc := by
  have hright := (right_emulateInstr_iff (u := u) (fun b' hb' => by
    obtain rfl : b = b' := Option.some.inj (hdecode.symm.trans hb')
    exact hslot)).mpr hhandled
  rw [← emulateBranch_of_inside hinside, right_of_decode hdecode] at hright
  obtain ⟨context', hresult, hsuccessor⟩ := hright
  refine ⟨context', ?_, hsuccessor⟩
  unfold capsighandler
  simp [hdelay, hreg, hpc, hresult, assert]

end Emulation

end Cheritest.TestRuntime
