/-
Cheritest/Multicore/AddrSafe.lean

The pointer-coherence test raises no false alarm on memory that is
sequentially consistent.

The two cores are simulated by the protocol of `HandOver`, core 1 being the
producer of the two blocks in turn and core 0 the consumer (`cores_simulates`).
So core 0 never reads a 0 and never comes to `fail`, however the cores are
interleaved (`test_mc_addr_no_false_alarm`), and what the cores store are whole
rounds: every block that core 1 hands over is changed to 2 by core 0 once
before core 1 writes to a block again.
-/
import Cheritest.Multicore.AddrTest
import Cheritest.Lib.HandOver
import Mathlib.Data.Nat.Bits
import Mathlib.Tactic.IntervalCases

namespace Cheritest

open Mips

namespace AddrTest

open HandOver (Status Consumer Phase Event)

variable {n : ℕ} {A : Layout} {rounds₀ rounds₁ : BitVec 64} {F : CapFormat n}

/-! ### Where the cores are -/

/-- The accesses to memory, `fail` and `end`. -/
def watched : List ℕ := [1, 2, 24, 28, 29, 36, 44, 50, 62, 64, 66, 71, 83, 85, 87, 94, 95, 96]

theorem watched_lt : ∀ k ∈ watched, k < 2 ^ 60 := by
  decide

/-- Where core 0 is, as a consumer. -/
def Consuming (A : Layout) (T : Text Label) : Consumer Bool → Hart n → Prop
  | .waiting, h => ∃ c, h = T.hartAt 24 c ∧ c.get .a0 = A.ptr
  | .idle, h => ∃ c, h = T.hartAt 28 c ∧ c.get .a0 = A.ptr
  | .holds b, h => ∃ c, h = T.hartAt 29 c ∧ c.get .a0 = A.ptr ∧ c.get .a2 = A.block b
  | .takes b, h => ∃ c, h = T.hartAt 36 c ∧ c.get .a0 = A.ptr ∧ c.get .a2 = A.block b ∧ c.get .t0 = 2
  | .stopped, h => h.pc = T.loc 94
  | .failed, h => h.pc = T.loc 44

/-- Where core 1 accesses memory for a block. -/
def clearAt (b : Bool) : ℕ := if b then 71 else 50
def readyAt (b : Bool) : ℕ := if b then 83 else 62
def publishAt (b : Bool) : ℕ := if b then 85 else 64
def waitAt (b : Bool) : ℕ := if b then 87 else 66

/-- Where core 1 is, as the producer of block `b`. -/
def Producing (A : Layout) (T : Text Label) (b : Bool) : Phase → Hart n → Prop
  | .clear, h => h.pc = T.loc 94 ∨
      ∃ c, h = T.hartAt (clearAt b) c ∧ c.get .a0 = A.ptr ∧ c.get .t0 = A.block b
  | .ready, h =>
      ∃ c, h = T.hartAt (readyAt b) c ∧ c.get .a0 = A.ptr ∧ c.get .t0 = A.block b ∧ c.get .t1 = 1
  | .publish, h => ∃ c, h = T.hartAt (publishAt b) c ∧ c.get .a0 = A.ptr ∧ c.get .t0 = A.block b
  | .wait, h => ∃ c, h = T.hartAt (waitAt b) c ∧ c.get .a0 = A.ptr ∧ c.get .t0 = A.block b

/-- Core 0 is on its way to where it is as a consumer. -/
def Consumes (A : Layout) (rounds₀ rounds₁ : BitVec 64) (F : CapFormat n) (x : Consumer Bool) :
    Hart n → Prop :=
  Heads (text A rounds₀ rounds₁) F watched (Consuming A (text A rounds₀ rounds₁) x)

/-- Core 1 is on its way to where it is as the producer of block `b`. -/
def Produces (A : Layout) (rounds₀ rounds₁ : BitVec 64) (F : CapFormat n) (b : Bool) (p : Phase) :
    Hart n → Prop :=
  Heads (text A rounds₀ rounds₁) F watched (Producing A (text A rounds₀ rounds₁) b p)

section heads
variable {c : Core n} {b : Bool}

/-- Over a row of `nop`s. -/
theorem quiet_nops (k len : ℕ)
    (hcode : ∀ i < len, (assemble (text A rounds₀ rounds₁).code)[k + i]? = some (.op .nop))
    (hk : ∀ i < len, k + i ∉ watched) :
    Quiet (text A rounds₀ rounds₁) F watched ((text A rounds₀ rounds₁).hartAt k c)
      ((text A rounds₀ rounds₁).hartAt (k + len) c) := by
  induction len with
  | zero => exact .refl
  | succ len ih =>
    refine (ih (fun i hi => hcode i (by omega)) fun i hi => hk i (by omega)).trans ?_
    exact quiet_op watched_lt (hcode len (by omega)) (hk len (by omega)) fun _ => rfl

/-! #### Core 0 -/

theorem heads_core0 : Consumes A rounds₀ rounds₁ F .waiting ((text A rounds₀ rounds₁).hartAt 21 c) := by
  refine .of_quiet (quiet_op watched_lt rfl (by decide) (fun _ => rfl)) ?_
  refine .of_quiet (quiet_op watched_lt rfl (by decide) (fun _ => rfl)) ?_
  refine .of_quiet (quiet_op watched_lt rfl (by decide) (fun _ => rfl)) ?_
  exact .arrived ⟨_, rfl, by simp⟩

/-- Back to `L0` while there is no block. -/
theorem heads_L0 (ha0 : c.get .a0 = A.ptr) (ha2 : c.get .a2 = 0) :
    Consumes A rounds₀ rounds₁ F .waiting ((text A rounds₀ rounds₁).hartAt 25 c) := by
  refine .of_quiet (quiet_taken watched_lt rfl rfl (by decide) (by decide)
    (show labelIndex .L0 (text A rounds₀ rounds₁).code = 24 by rfl) ?_ (fun _ => rfl)) ?_
  · simpa [Cond.holds] using ha2
  exact .arrived ⟨c, rfl, ha0⟩

/-- On to `L1` once there is one. -/
theorem heads_L1 (ha0 : c.get .a0 = A.ptr) (ha2 : c.get .a2 ≠ 0) :
    Consumes A rounds₀ rounds₁ F .idle ((text A rounds₀ rounds₁).hartAt 25 c) := by
  refine .of_quiet (quiet_not_taken watched_lt rfl rfl (by decide) (by decide) ?_ (fun _ => rfl)) ?_
  · simpa [Cond.holds] using ha2
  refine .of_quiet (quiet_op watched_lt rfl (by decide) (fun _ => rfl)) ?_
  exact .arrived ⟨_, rfl, by simpa using ha0⟩

/-- From `L2` to the next round or out of the loop. -/
theorem heads_L2 (ha0 : c.get .a0 = A.ptr) :
    Consumes A rounds₀ rounds₁ F .idle ((text A rounds₀ rounds₁).hartAt 39 c) ∨
      Consumes A rounds₀ rounds₁ F .stopped ((text A rounds₀ rounds₁).hartAt 39 c) := by
  by_cases hzero : c.get .t1 + (-1 : BitVec 16).signExtend 64 = 0
  · right
    refine heads_op watched_lt rfl (by decide) (leads_daddi ?_)
    refine heads_not_taken watched_lt rfl rfl (by decide) (by decide) ?_ (.ok (fun _ => rfl) ?_)
    · simpa [Cond.holds] using hzero
    refine heads_taken watched_lt rfl rfl (by decide) (by decide)
      (show labelIndex .finish (text A rounds₀ rounds₁).code = 94 by rfl) ?_ (.ok (fun _ => rfl) ?_)
    · simp [Cond.holds]
    exact .arrived rfl
  · left
    refine heads_op watched_lt rfl (by decide) (leads_daddi ?_)
    refine heads_taken watched_lt rfl rfl (by decide) (by decide)
      (show labelIndex .L1 (text A rounds₀ rounds₁).code = 28 by rfl) ?_ (.ok (fun _ => rfl) ?_)
    · simpa [Cond.holds] using hzero
    exact .arrived ⟨_, rfl, by simpa using ha0⟩

/-- A block that is waiting to be processed. -/
theorem heads_see (ha0 : c.get .a0 = A.ptr) (ha2 : c.get .a2 = A.block b) (ht0 : c.get .t0 = 1) :
    Consumes A rounds₀ rounds₁ F (.takes b) ((text A rounds₀ rounds₁).hartAt 30 c) := by
  refine .of_quiet (quiet_not_taken watched_lt rfl rfl (by decide) (by decide) ?_ (fun _ => rfl)) ?_
  · rw [Cond.holds, ht0]
    rfl
  have hdec : (1 : BitVec 64) + (-1 : BitVec 16).signExtend 64 = 0 := by decide
  refine heads_op watched_lt rfl (by decide) (leads_daddi ?_)
  refine .of_quiet (quiet_not_taken watched_lt rfl rfl (by decide) (by decide) ?_ (fun _ => rfl)) ?_
  · rw [Cond.holds, Core.get_set _ _ _ _ (by decide), if_pos rfl, ht0, hdec]
    rfl
  refine .of_quiet (quiet_op watched_lt rfl (by decide) (fun _ => rfl)) ?_
  exact .arrived ⟨_, rfl, by simpa using ha0, by simpa using ha2, by simp⟩

/-- A block that has been processed. -/
theorem heads_pass (ha0 : c.get .a0 = A.ptr) (ht0 : c.get .t0 = 2) :
    Consumes A rounds₀ rounds₁ F .idle ((text A rounds₀ rounds₁).hartAt 30 c) ∨
      Consumes A rounds₀ rounds₁ F .stopped ((text A rounds₀ rounds₁).hartAt 30 c) := by
  have hto {x : Consumer Bool} (hx : Consumes A rounds₀ rounds₁ F x ((text A rounds₀ rounds₁).hartAt 39
      (c.set .t0 (c.get .t0 + (-1 : BitVec 16).signExtend 64)))) :
      Consumes A rounds₀ rounds₁ F x ((text A rounds₀ rounds₁).hartAt 30 c) := by
    refine .of_quiet (quiet_not_taken watched_lt rfl rfl (by decide) (by decide) ?_ (fun _ => rfl)) ?_
    · rw [Cond.holds, ht0]
      rfl
    have hdec : (2 : BitVec 64) + (-1 : BitVec 16).signExtend 64 = 1 := by decide
    refine heads_op watched_lt rfl (by decide) (leads_daddi ?_)
    refine .of_quiet (quiet_taken watched_lt rfl rfl (by decide) (by decide)
      (show labelIndex .L2 (text A rounds₀ rounds₁).code = 39 by rfl) ?_ (fun _ => rfl)) hx
    rw [Cond.holds, Core.get_set _ _ _ _ (by decide), if_pos rfl, ht0, hdec]
    rfl
  exact (heads_L2 (by simpa using ha0)).imp hto hto

/-- From behind the store of a 2. -/
theorem heads_taken_block (ha0 : c.get .a0 = A.ptr) :
    Consumes A rounds₀ rounds₁ F .idle ((text A rounds₀ rounds₁).hartAt 37 c) ∨
      Consumes A rounds₀ rounds₁ F .stopped ((text A rounds₀ rounds₁).hartAt 37 c) := by
  have hto {x : Consumer Bool} (hx : Consumes A rounds₀ rounds₁ F x ((text A rounds₀ rounds₁).hartAt 39
      (c.set .a3 (c.get .a3 + (1 : BitVec 16).signExtend 64)))) :
      Consumes A rounds₀ rounds₁ F x ((text A rounds₀ rounds₁).hartAt 37 c) := by
    refine .of_quiet (quiet_op watched_lt rfl (by decide) (fun _ => rfl)) ?_
    exact heads_op watched_lt rfl (by decide) (leads_daddi hx)
  exact (heads_L2 (by simpa using ha0)).imp hto hto

/-! #### Core 1 -/

theorem heads_core1 :
    Produces A rounds₀ rounds₁ F false .clear ((text A rounds₀ rounds₁).hartAt 47 c) := by
  refine .of_quiet (quiet_op watched_lt rfl (by decide) (fun _ => rfl)) ?_
  refine .of_quiet (quiet_op watched_lt rfl (by decide) (fun _ => rfl)) ?_
  refine .of_quiet (quiet_op watched_lt rfl (by decide) (fun _ => rfl)) ?_
  exact .arrived (.inr ⟨_, rfl, by simp, by simp⟩)

/-- From behind the store of a 0. -/
theorem heads_ready (ha0 : c.get .a0 = A.ptr) (ht0 : c.get .t0 = A.block b) :
    Produces A rounds₀ rounds₁ F b .ready ((text A rounds₀ rounds₁).hartAt (clearAt b + 1) c) := by
  cases b with
  | false =>
    refine .of_quiet (quiet_nops 51 10 (fun i hi => by interval_cases i <;> rfl) (by decide)) ?_
    refine .of_quiet (quiet_op watched_lt rfl (by decide) (fun _ => rfl)) ?_
    exact .arrived ⟨_, rfl, by simpa using ha0, by simpa using ht0, by simp⟩
  | true =>
    refine .of_quiet (quiet_op watched_lt rfl (by decide) (fun _ => rfl)) ?_
    refine .of_quiet (quiet_nops 73 9 (fun i hi => by interval_cases i <;> rfl) (by decide)) ?_
    refine .of_quiet (quiet_op watched_lt rfl (by decide) (fun _ => rfl)) ?_
    exact .arrived ⟨_, rfl, by simpa using ha0, by simpa using ht0, by simp⟩

/-- From behind the store of a 1. -/
theorem heads_publish (ha0 : c.get .a0 = A.ptr) (ht0 : c.get .t0 = A.block b) :
    Produces A rounds₀ rounds₁ F b .publish ((text A rounds₀ rounds₁).hartAt (readyAt b + 1) c) := by
  cases b with
  | false =>
    refine .of_quiet (quiet_op watched_lt rfl (by decide) (fun _ => rfl)) ?_
    exact .arrived ⟨c, rfl, ha0, ht0⟩
  | true =>
    refine .of_quiet (quiet_op watched_lt rfl (by decide) (fun _ => rfl)) ?_
    exact .arrived ⟨c, rfl, ha0, ht0⟩

/-- From behind the store to `ptr`. -/
theorem heads_wait (ha0 : c.get .a0 = A.ptr) (ht0 : c.get .t0 = A.block b) :
    Produces A rounds₀ rounds₁ F b .wait ((text A rounds₀ rounds₁).hartAt (publishAt b + 1) c) := by
  cases b with
  | false =>
    refine .of_quiet (quiet_op watched_lt rfl (by decide) (fun _ => rfl)) ?_
    exact .arrived ⟨c, rfl, ha0, ht0⟩
  | true =>
    refine .of_quiet (quiet_op watched_lt rfl (by decide) (fun _ => rfl)) ?_
    exact .arrived ⟨c, rfl, ha0, ht0⟩

/-- Back to the load while the block has not been processed. -/
theorem heads_again (ha0 : c.get .a0 = A.ptr) (ht0 : c.get .t0 = A.block b) (ht1 : c.get .t1 = 1) :
    Produces A rounds₀ rounds₁ F b .wait ((text A rounds₀ rounds₁).hartAt (waitAt b + 1) c) := by
  have hdec : (1 : BitVec 64) + (-2 : BitVec 16).signExtend 64 = -1 := by decide
  have hne : Cond.holds (c.set .t1 (c.get .t1 + (-2 : BitVec 16).signExtend 64)) (.ne .t1 .zero) = true := by
    rw [Cond.holds, Core.get_set _ _ _ _ (by decide), if_pos rfl, ht1, hdec]
    rfl
  cases b with
  | false =>
    refine heads_op watched_lt rfl (by decide) (leads_daddi ?_)
    refine .of_quiet (quiet_taken watched_lt rfl rfl (by decide) (by decide)
      (show labelIndex .L3 (text A rounds₀ rounds₁).code = 66 by rfl) hne (fun _ => rfl)) ?_
    exact .arrived ⟨_, rfl, by simpa using ha0, by simpa using ht0⟩
  | true =>
    refine heads_op watched_lt rfl (by decide) (leads_daddi ?_)
    refine .of_quiet (quiet_taken watched_lt rfl rfl (by decide) (by decide)
      (show labelIndex .L4 (text A rounds₀ rounds₁).code = 87 by rfl) hne (fun _ => rfl)) ?_
    exact .arrived ⟨_, rfl, by simpa using ha0, by simpa using ht0⟩

/-- On to the other block, or to the end. -/
theorem heads_next (ha0 : c.get .a0 = A.ptr) (ht1 : c.get .t1 = 2) :
    Produces A rounds₀ rounds₁ F (!b) .clear ((text A rounds₀ rounds₁).hartAt (waitAt b + 1) c) := by
  have hdec : (2 : BitVec 64) + (-2 : BitVec 16).signExtend 64 = 0 := by decide
  have heq : Cond.holds (c.set .t1 (c.get .t1 + (-2 : BitVec 16).signExtend 64)) (.ne .t1 .zero) = false := by
    rw [Cond.holds, Core.get_set _ _ _ _ (by decide), if_pos rfl, ht1, hdec]
    rfl
  cases b with
  | false =>
    refine heads_op watched_lt rfl (by decide) (leads_daddi ?_)
    refine .of_quiet (quiet_not_taken watched_lt rfl rfl (by decide) (by decide) heq (fun _ => rfl)) ?_
    refine .of_quiet (quiet_op watched_lt rfl (by decide) (fun _ => rfl)) ?_
    exact .arrived (.inr ⟨_, rfl, by simpa using ha0, by simp⟩)
  | true =>
    refine heads_op watched_lt rfl (by decide) (leads_daddi ?_)
    refine .of_quiet (quiet_not_taken watched_lt rfl rfl (by decide) (by decide) heq (fun _ => rfl)) ?_
    refine heads_op watched_lt rfl (by decide) (leads_daddi ?_)
    by_cases hzero : c.get .a1 + (-1 : BitVec 16).signExtend 64 = 0
    · refine .of_quiet (quiet_not_taken watched_lt rfl rfl (by decide) (by decide) ?_ (fun _ => rfl)) ?_
      · simpa [Cond.holds] using hzero
      exact .arrived (.inl rfl)
    · refine .of_quiet (quiet_taken watched_lt rfl rfl (by decide) (by decide)
        (show labelIndex .L6 (text A rounds₀ rounds₁).code = 49 by rfl) ?_ (fun _ => rfl)) ?_
      · simpa [Cond.holds] using hzero
      refine .of_quiet (quiet_op watched_lt rfl (by decide) (fun _ => rfl)) ?_
      exact .arrived (.inr ⟨_, rfl, by simpa using ha0, by simp⟩)

end heads

/-! ### The simulation -/

/-- A status as it stands in memory. -/
def statusVal : Status → BitVec 64
  | .cleared => 0
  | .ready => 1
  | .taken => 2

/-- The pointer as it stands in memory. -/
def ptrVal (A : Layout) : Option Bool → BitVec 64
  | none => 0
  | some b => A.block b

/-- What the cores store, as an event of the protocol. -/
def eventStore (A : Layout) : Event Bool → Store
  | .cleared b => ⟨1, A.block b, 0⟩
  | .readied b => ⟨1, A.block b, 1⟩
  | .published b => ⟨1, A.ptr, A.block b⟩
  | .taken b => ⟨0, A.block b, 2⟩

theorem Layout.block_injective (A : Layout) : Function.Injective A.block := by
  rintro (- | -) (- | -) h
  · rfl
  · exact absurd h A.block_ne
  · exact absurd h.symm A.block_ne
  · rfl

section stores
variable {T : Text Label} {i : Fin 2} {h : Hart n} {c : Core n} {k : ℕ} {m : Mem} {x y v : BitVec 64}

theorem storeOf_sd {rt base : Reg} {off : BitVec 16}
    (hi : (assemble T.code)[k]? = some (.op (.sd rt off base))) :
    storeOf T i (T.hartAt k c) = [⟨i, c.get base + off.signExtend 64, c.get rt⟩] := by
  simp only [storeOf, Text.hartAt_pc, T.fetch_loc hi, Text.hartAt_core]

theorem storeOf_ld {rt base : Reg} {off : BitVec 16}
    (hi : (assemble T.code)[k]? = some (.op (.ld rt off base))) :
    storeOf T i (T.hartAt k c) = [] := by
  simp only [storeOf, Text.hartAt_pc, T.fetch_loc hi]

/-- A load through a register. -/
theorem step_ld {F : CapFormat n} {h' : Hart n} {m' : Mem} {rt base : Reg} (i : Fin 2)
    (hi : (assemble T.code)[k]? = some (.op (.ld rt 0 base))) (hh : h = T.hartAt k c)
    (hx : c.get base = x) (hv : m.loadDouble x = v) (hs : h.step T F m = .ok (h', m')) :
    h' = T.hartAt (k + 1) ((c.issue .load x 8).set rt v) ∧ m' = m ∧ storeOf T i h = [] := by
  subst hh
  obtain ⟨c', hexec, rfl⟩ := step_op hi hs
  obtain ⟨rfl, rfl⟩ := Op.exec_ld_ok hexec
  rw [hx, show (0 : BitVec 16).signExtend 64 = 0 by decide, add_zero, hv]
  exact ⟨rfl, rfl, storeOf_ld hi⟩

/-- A store through a register. -/
theorem step_sd {F : CapFormat n} {h' : Hart n} {m' : Mem} {rt base : Reg} (i : Fin 2)
    (hi : (assemble T.code)[k]? = some (.op (.sd rt 0 base))) (hh : h = T.hartAt k c)
    (hx : c.get base = x) (hv : c.get rt = v) (hs : h.step T F m = .ok (h', m')) :
    h' = T.hartAt (k + 1) (c.issue .store x 8) ∧ m' = m.storeDouble n x v ∧
      storeOf T i h = [⟨i, x, v⟩] := by
  subst hh
  obtain ⟨c', hexec, rfl⟩ := step_op hi hs
  obtain ⟨rfl, rfl⟩ := Op.exec_sd_ok hexec
  rw [storeOf_sd hi, hx, hv, show (0 : BitVec 16).signExtend 64 = 0 by decide, add_zero]
  exact ⟨rfl, rfl, rfl⟩

/-- Away from the watched instructions nothing is stored. -/
theorem storeOf_unwatched (hun : ∀ k ∈ watched, h.pc ≠ (text A rounds₀ rounds₁).loc k) :
    storeOf (text A rounds₀ rounds₁) i h = [] := by
  rcases hf : (text A rounds₀ rounds₁).fetch h.pc with - | insn
  · simp only [storeOf, hf]
  · unfold Text.fetch at hf
    split_ifs at hf with hal
    have hpc : h.pc = (text A rounds₀ rounds₁).loc ((h.pc - (text A rounds₀ rounds₁).base).toNat / 4) := by
      rw [Text.loc, Nat.mul_div_cancel' (Nat.dvd_of_mod_eq_zero hal), BitVec.ofNat_toNat,
        BitVec.setWidth_eq, BitVec.add_comm, BitVec.sub_add_cancel]
    have hlt := (List.getElem?_eq_some_iff.mp hf).1
    have hlen : (assemble (text A rounds₀ rounds₁).code).length = 98 := rfl
    generalize hk : (h.pc - (text A rounds₀ rounds₁).base).toNat / 4 = k at hf hpc hlt
    rw [hlen] at hlt
    have hkw : k ∉ watched := fun hmem => hun k hmem hpc
    rw [storeOf, hpc, Text.fetch_loc _ hf]
    interval_cases k <;> first | exact absurd (by decide) hkw | (cases hf; rfl)

/-- Two different aligned doublewords do not overlap. -/
theorem loadDouble_storeDouble_of_ne (hx : x.toNat % 32 = 0) (hy : y.toNat % 32 = 0) (hne : y ≠ x) :
    (m.storeDouble n x v).loadDouble y = m.loadDouble y := by
  refine Mem.loadDouble_congr fun b hb => Mem.storeDouble_byte _ _ _ _ ?_
  have hne' : y.toNat ≠ x.toNat := fun h => hne (BitVec.eq_of_toNat_eq h)
  have hx' := x.isLt
  have hy' := y.isLt
  have hb' := b.isLt
  rw [BitVec.toNat_sub] at hb ⊢
  omega

/-- A status is stored. -/
theorem status_update {status : Bool → Status}
    (h : ∀ b, m.loadDouble (A.block b) = statusVal (status b)) (b : Bool) (v : Status) (b' : Bool) :
    (m.storeDouble n (A.block b) (statusVal v)).loadDouble (A.block b')
      = statusVal (Function.update status b v b') := by
  by_cases hb : b' = b
  · subst hb
    rw [Mem.loadDouble_storeDouble, Function.update_self]
  · rw [loadDouble_storeDouble_of_ne (A.block_aligned b) (A.block_aligned b') (A.block_injective.ne hb),
      Function.update_of_ne hb]
    exact h b'

end stores

/-- The blocks in turn. -/
def turn (r : ℕ) : Bool := r.bodd

theorem turn_succ (r : ℕ) : turn (r + 1) = !turn r := Nat.bodd_succ r

theorem turn_ne (r : ℕ) : turn r ≠ turn (r + 1) := by
  rw [turn_succ]
  cases turn r <;> decide

/-- The cores and the protocol that they follow. -/
structure Rel (A : Layout) (rounds₀ rounds₁ : BitVec 64) (F : CapFormat n) (s : Cores n)
    (a : HandOver.State Bool) : Prop where
  inv : HandOver.Inv turn a
  ptr : s.mem.loadDouble A.ptr = ptrVal A a.ptr
  status : ∀ b, s.mem.loadDouble (A.block b) = statusVal (a.status b)
  stores : s.stores = a.events.map (eventStore A)
  core0 : Consumes A rounds₀ rounds₁ F a.consumer (s.hart 0)
  core1 : Produces A rounds₀ rounds₁ F (turn a.round) a.phase (s.hart 1)

/-! #### Core 0 -/

section core0
variable {s : Cores n} {a : HandOver.State Bool} {h : Hart n} {m : Mem}

/-- The protocol moves, and core 0 with it. -/
def Follows₀ (A : Layout) (rounds₀ rounds₁ : BitVec 64) (F : CapFormat n) (s : Cores n)
    (a : HandOver.State Bool) (h : Hart n) (m : Mem) : Prop :=
  ∃ a', (HandOver.system turn).Run a a' ∧
    Rel A rounds₀ rounds₁ F (s.move (text A rounds₀ rounds₁) 0 h m) a'

/-- The protocol stays as it is or only its consumer moves: nothing is stored. -/
theorem Rel.move₀ (hR : Rel A rounds₀ rounds₁ F s a) {x : Consumer Bool}
    (hrun : (HandOver.system turn).Run a { a with consumer := x })
    (hstore : storeOf (text A rounds₀ rounds₁) 0 (s.hart 0) = [])
    (hx : Consumes A rounds₀ rounds₁ F x h) : Follows₀ A rounds₀ rounds₁ F s a h s.mem := by
  refine ⟨_, hrun, hrun.invariant (fun hi hs => hi.step turn_ne hs) hR.inv, hR.ptr, hR.status, ?_,
    hx, hR.core1⟩
  show s.stores ++ _ = _
  rw [hstore, List.append_nil]
  exact hR.stores

/-- A block is done with; the consumer may stop then. -/
theorem run_idle {a' : HandOver.State Bool} (hs : HandOver.Step turn a a') (hi : a'.consumer = .idle)
    {x : Consumer Bool} (hx : x = .idle ∨ x = .stopped) :
    (HandOver.system turn).Run a { a' with consumer := x } := by
  rcases hx with rfl | rfl
  · rw [← hi]
    exact .single hs
  · exact .tail (.single hs) (.stop hi)

/-- The store of a 2. -/
theorem Rel.take₀ (hR : Rel A rounds₀ rounds₁ F s a) {b : Bool} (hc : a.consumer = .takes b)
    {x : Consumer Bool} (hx : x = .idle ∨ x = .stopped)
    (hstore : storeOf (text A rounds₀ rounds₁) 0 (s.hart 0) = [⟨0, A.block b, 2⟩])
    (hh : Consumes A rounds₀ rounds₁ F x h) :
    Follows₀ A rounds₀ rounds₁ F s a h (s.mem.storeDouble n (A.block b) 2) := by
  have htake : HandOver.Step turn a (a.take b) := .take hc
  have hrun := run_idle htake rfl hx
  refine ⟨_, hrun, hrun.invariant (fun hi hs => hi.step turn_ne hs) hR.inv, ?_, ?_, ?_, hh, hR.core1⟩
  · show (s.mem.storeDouble n (A.block b) 2).loadDouble A.ptr = _
    rw [loadDouble_storeDouble_of_ne (A.block_aligned b) A.ptr_aligned (A.ptr_ne b).symm]
    exact hR.ptr
  · exact status_update hR.status b .taken
  · show s.stores ++ _ = List.map _ (a.events ++ _)
    rw [hstore, List.map_append, hR.stores]
    rfl

/-- **A step of core 0** follows the protocol. -/
theorem Rel.step₀ (hR : Rel A rounds₀ rounds₁ F s a)
    (hpc : (s.hart 0).pc ≠ (text A rounds₀ rounds₁).loc 94)
    (hs : (s.hart 0).step (text A rounds₀ rounds₁) F s.mem = .ok (h, m)) :
    Follows₀ A rounds₀ rounds₁ F s a h m := by
  rcases hR.core0.step hs with hat | ⟨rfl, hheads, hun⟩
  swap
  · exact hR.move₀ .refl (storeOf_unwatched hun) hheads
  rcases hc : a.consumer with - | - | b | b | - | - <;> rw [hc] at hat
  · -- the first reads of `ptr`
    obtain ⟨c, hhart, ha0⟩ := hat
    obtain ⟨rfl, rfl, hstore⟩ := step_ld 0 rfl hhart ha0 hR.ptr hs
    rcases hptr : a.ptr with - | b
    · refine hR.move₀ (x := a.consumer) .refl hstore ?_
      rw [hc]
      exact heads_L0 (by simpa using ha0) (by simp [ptrVal])
    · refine hR.move₀ (.single (.start hc hptr)) hstore (heads_L1 (by simpa using ha0) ?_)
      simpa [ptrVal] using A.block_ne_zero b
  · -- a read of `ptr`: there has been a block
    obtain ⟨c, hhart, ha0⟩ := hat
    obtain ⟨b, hptr⟩ := hR.inv.exists_ptr hc
    obtain ⟨rfl, rfl, hstore⟩ := step_ld 0 rfl hhart ha0 hR.ptr hs
    rw [hptr]
    exact hR.move₀ (.single (.look hc hptr)) hstore
      (.arrived ⟨_, rfl, by simpa using ha0, by simp [ptrVal]⟩)
  · -- a read of the status, which is not 0
    obtain ⟨c, hhart, ha0, ha2⟩ := hat
    obtain ⟨rfl, rfl, hstore⟩ := step_ld 0 rfl hhart ha2 (hR.status b) hs
    rcases hstatus : a.status b with - | - | -
    · exact absurd hstatus (hR.inv.holds_ne hc)
    · exact hR.move₀ (.single (.see hc hstatus)) hstore
        (heads_see (by simpa using ha0) (by simpa using ha2) (by simp [statusVal]))
    · rcases heads_pass (c := (c.issue .load (A.block b) 8).set .t0 (statusVal .taken))
        (by simpa using ha0) (by simp [statusVal]) with hx | hx
      · exact hR.move₀ (run_idle (.pass hc hstatus) rfl (.inl rfl)) hstore hx
      · exact hR.move₀ (run_idle (.pass hc hstatus) rfl (.inr rfl)) hstore hx
  · -- the 2
    obtain ⟨c, hhart, ha0, ha2, ht0⟩ := hat
    obtain ⟨rfl, rfl, hstore⟩ := step_sd 0 rfl hhart ha2 ht0 hs
    rcases heads_taken_block (c := c.issue .store (A.block b) 8) (by simpa using ha0) with hx | hx
    · exact hR.take₀ hc (.inl rfl) hstore hx
    · exact hR.take₀ hc (.inr rfl) hstore hx
  · exact absurd hat hpc
  · exact absurd hc hR.inv.consumer_ne_failed

end core0

/-! #### Core 1 -/

section core1
variable {s : Cores n} {a : HandOver.State Bool} {h : Hart n} {m : Mem}

/-- The protocol moves, and core 1 with it. -/
def Follows₁ (A : Layout) (rounds₀ rounds₁ : BitVec 64) (F : CapFormat n) (s : Cores n)
    (a : HandOver.State Bool) (h : Hart n) (m : Mem) : Prop :=
  ∃ a', (HandOver.system turn).Run a a' ∧
    Rel A rounds₀ rounds₁ F (s.move (text A rounds₀ rounds₁) 1 h m) a'

/-- Nothing is stored, and the block stays the same or its turn is over. -/
theorem Rel.move₁ (hR : Rel A rounds₀ rounds₁ F s a) {r : ℕ} {p : Phase}
    (hrun : (HandOver.system turn).Run a { a with round := r, phase := p })
    (hstore : storeOf (text A rounds₀ rounds₁) 1 (s.hart 1) = [])
    (hh : Produces A rounds₀ rounds₁ F (turn r) p h) : Follows₁ A rounds₀ rounds₁ F s a h s.mem := by
  refine ⟨_, hrun, hrun.invariant (fun hi hs => hi.step turn_ne hs) hR.inv, hR.ptr, hR.status, ?_,
    hR.core0, hh⟩
  show s.stores ++ _ = _
  rw [hstore, List.append_nil]
  exact hR.stores

/-- The store of a 0 or a 1 to the block. -/
theorem Rel.prepare₁ (hR : Rel A rounds₀ rounds₁ F s a) {v : Status} {p : Phase} {e : Event Bool}
    (hs : HandOver.Step turn a { a with
      status := Function.update a.status (turn a.round) v
      phase := p
      events := a.events ++ [e] })
    (he : eventStore A e = ⟨1, A.block (turn a.round), statusVal v⟩)
    (hstore : storeOf (text A rounds₀ rounds₁) 1 (s.hart 1)
      = [⟨1, A.block (turn a.round), statusVal v⟩])
    (hh : Produces A rounds₀ rounds₁ F (turn a.round) p h) :
    Follows₁ A rounds₀ rounds₁ F s a h (s.mem.storeDouble n (A.block (turn a.round)) (statusVal v)) := by
  refine ⟨_, .single hs, hR.inv.step turn_ne hs, ?_, status_update hR.status _ v, ?_, hR.core0, hh⟩
  · show (s.mem.storeDouble n (A.block _) _).loadDouble A.ptr = _
    rw [loadDouble_storeDouble_of_ne (A.block_aligned _) A.ptr_aligned (A.ptr_ne _).symm]
    exact hR.ptr
  · show s.stores ++ _ = List.map _ (a.events ++ _)
    rw [hstore, List.map_append, hR.stores, List.map_singleton, he]

/-- The store to `ptr`. -/
theorem Rel.publish₁ (hR : Rel A rounds₀ rounds₁ F s a) (hp : a.phase = .publish)
    (hstore : storeOf (text A rounds₀ rounds₁) 1 (s.hart 1) = [⟨1, A.ptr, A.block (turn a.round)⟩])
    (hh : Produces A rounds₀ rounds₁ F (turn a.round) .wait h) :
    Follows₁ A rounds₀ rounds₁ F s a h (s.mem.storeDouble n A.ptr (A.block (turn a.round))) := by
  have hs : HandOver.Step turn a (a.publish (turn a.round)) := .publish hp
  refine ⟨_, .single hs, hR.inv.step turn_ne hs, Mem.loadDouble_storeDouble .., fun b => ?_, ?_,
    hR.core0, hh⟩
  · show (s.mem.storeDouble n A.ptr _).loadDouble (A.block b) = _
    rw [loadDouble_storeDouble_of_ne A.ptr_aligned (A.block_aligned b) (A.ptr_ne b)]
    exact hR.status b
  · show s.stores ++ _ = List.map _ (a.events ++ _)
    rw [hstore, List.map_append, hR.stores]
    rfl

/-- The accesses of core 1 in the text, the same for both blocks. -/
theorem insn_clearAt (b : Bool) : (assemble (text A rounds₀ rounds₁).code)[clearAt b]?
    = some (.op (.sd .zero 0 .t0)) := by
  cases b <;> rfl

theorem insn_readyAt (b : Bool) : (assemble (text A rounds₀ rounds₁).code)[readyAt b]?
    = some (.op (.sd .t1 0 .t0)) := by
  cases b <;> rfl

theorem insn_publishAt (b : Bool) : (assemble (text A rounds₀ rounds₁).code)[publishAt b]?
    = some (.op (.sd .t0 0 .a0)) := by
  cases b <;> rfl

theorem insn_waitAt (b : Bool) : (assemble (text A rounds₀ rounds₁).code)[waitAt b]?
    = some (.op (.ld .t1 0 .t0)) := by
  cases b <;> rfl

/-- **A step of core 1** follows the protocol. -/
theorem Rel.step₁ (hR : Rel A rounds₀ rounds₁ F s a)
    (hpc : (s.hart 1).pc ≠ (text A rounds₀ rounds₁).loc 94)
    (hs : (s.hart 1).step (text A rounds₀ rounds₁) F s.mem = .ok (h, m)) :
    Follows₁ A rounds₀ rounds₁ F s a h m := by
  rcases hR.core1.step hs with hat | ⟨rfl, hheads, hun⟩
  swap
  · exact hR.move₁ .refl (storeOf_unwatched hun) hheads
  rcases hp : a.phase with - | - | - | - <;> rw [hp] at hat
  · -- the 0
    rcases hat with hend | ⟨c, hhart, ha0, ht0⟩
    · exact absurd hend hpc
    obtain ⟨rfl, rfl, hstore⟩ := step_sd 1 (insn_clearAt _) hhart ht0 (Core.get_zero c) hs
    exact hR.prepare₁ (v := .cleared) (.clear hp) rfl hstore
      (heads_ready (by simpa using ha0) (by simpa using ht0))
  · -- the 1
    obtain ⟨c, hhart, ha0, ht0, ht1⟩ := hat
    obtain ⟨rfl, rfl, hstore⟩ := step_sd 1 (insn_readyAt _) hhart ht0 ht1 hs
    exact hR.prepare₁ (v := .ready) (.ready hp) rfl hstore
      (heads_publish (by simpa using ha0) (by simpa using ht0))
  · -- the block
    obtain ⟨c, hhart, ha0, ht0⟩ := hat
    obtain ⟨rfl, rfl, hstore⟩ := step_sd 1 (insn_publishAt _) hhart ha0 ht0 hs
    exact hR.publish₁ hp hstore (heads_wait (by simpa using ha0) (by simpa using ht0))
  · -- is it processed?
    obtain ⟨c, hhart, ha0, ht0⟩ := hat
    obtain ⟨rfl, rfl, hstore⟩ := step_ld 1 (insn_waitAt _) hhart ht0 (hR.status _) hs
    rcases hR.inv.status_wait hp with hready | htaken
    · refine hR.move₁ (r := a.round) (p := a.phase) .refl hstore ?_
      rw [hp, hready]
      exact heads_again (by simpa using ha0) (by simpa using ht0) (by simp [statusVal])
    · refine hR.move₁ (.single (.next hp htaken)) hstore ?_
      rw [turn_succ, htaken]
      exact heads_next (by simpa using ha0) (by simp [statusVal])

end core1

/-! ### All interleavings -/

/-- **The two cores follow the protocol**, whatever order they step in. -/
theorem cores_simulates : (cores A rounds₀ rounds₁ F).Simulates (HandOver.system turn)
    (Rel A rounds₀ rounds₁ F) where
  init := by
    rintro s ⟨hptr, hblocks, hstores, ⟨c₀, h₀⟩, c₁, h₁⟩
    refine ⟨HandOver.init, rfl, HandOver.inv_init, hptr, hblocks, hstores, ?_, ?_⟩
    · rw [h₀]
      exact heads_core0
    · rw [h₁]
      exact heads_core1
  step := by
    rintro s - a hR ⟨i, hpc, hs⟩
    rcases (by omega : i = 0 ∨ i = 1) with rfl | rfl
    · exact hR.step₀ hpc hs
    · exact hR.step₁ hpc hs

/-- The instruction at which a consumer is. -/
def consumerAt : Consumer Bool → ℕ
  | .waiting => 24
  | .idle => 28
  | .holds _ => 29
  | .takes _ => 36
  | .stopped => 94
  | .failed => 44

theorem Consuming.pc {T : Text Label} {x : Consumer Bool} {h : Hart n} (hh : Consuming A T x h) :
    h.pc = T.loc (consumerAt x) := by
  rcases x with - | - | b | b | - | -
  · obtain ⟨c, rfl, -⟩ := hh
    rfl
  · obtain ⟨c, rfl, -⟩ := hh
    rfl
  · obtain ⟨c, rfl, -⟩ := hh
    rfl
  · obtain ⟨c, rfl, -⟩ := hh
    rfl
  · exact hh
  · exact hh

/-- A core 0 at a watched instruction, and not stuck there, is at the one of
its place in the protocol. -/
theorem Consumes.at_watched {x : Consumer Bool} {h h' : Hart n} {m m' : Mem} {k : ℕ}
    (hh : Consumes A rounds₀ rounds₁ F x h) (hk : k ∈ watched)
    (hpc : h.pc = (text A rounds₀ rounds₁).loc k)
    (hs : h.step (text A rounds₀ rounds₁) F m = .ok (h', m')) :
    Consuming A (text A rounds₀ rounds₁) x h ∧ consumerAt x = k := by
  rcases Heads.at_watched hh hk hpc with hat | hdead
  · refine ⟨hat, Text.loc_injective _ ?_ ?_ (hat.pc.symm.trans hpc)⟩
    · rcases x with - | - | b | b | - | - <;> norm_num [consumerAt]
    · exact (watched_lt k hk).trans (by norm_num)
  · obtain ⟨e, he⟩ := hdead m
    rw [he] at hs
    cases hs

/-- Nothing keeps a core from going on at `fail`. -/
theorem step_at_fail {h : Hart n} {m : Mem} (hpc : h.pc = (text A rounds₀ rounds₁).loc 44) :
    h.step (text A rounds₀ rounds₁) F m = .ok (⟨h.core.set .a1 1, h.npc, h.npc + 4⟩, m) := by
  have hi : (assemble (text A rounds₀ rounds₁).code)[44]? = some (.op (.li .a1 1)) := rfl
  simp only [Hart.step, hpc, Text.fetch_loc _ hi, Op.exec, Op.put]

/-- What the cores store in the first `k` rounds: each block is handed over as
1 and becomes 2 once before the next one is touched. -/
def handOvers (A : Layout) (k : ℕ) : List Store :=
  (List.range k).flatMap fun r =>
    [⟨1, A.block (turn r), 0⟩, ⟨1, A.block (turn r), 1⟩, ⟨1, A.ptr, A.block (turn r)⟩,
      ⟨0, A.block (turn r), 2⟩]

theorem handOvers_eq (A : Layout) (k : ℕ) :
    handOvers A k = (HandOver.rounds turn k).map (eventStore A) := by
  rw [HandOver.rounds, List.map_flatMap]
  rfl

/-- **The test raises no false alarm.** -/
theorem test_mc_addr_no_false_alarm {s : Cores n} (hs : (cores A rounds₀ rounds₁ F).Reachable s) :
    (s.hart 0).pc ≠ (text A rounds₀ rounds₁).loc 44 ∧
    (∀ h m, (s.hart 0).pc = (text A rounds₀ rounds₁).loc 29 →
      (s.hart 0).step (text A rounds₀ rounds₁) F s.mem = .ok (h, m) →
        (∃ b, (s.hart 0).core.get .a2 = A.block b) ∧ h.core.get .t0 ≠ 0) ∧
    ∃ k, s.stores <+: handOvers A k := by
  obtain ⟨a, -, hR⟩ := cores_simulates.reachable hs
  refine ⟨fun hpc => ?_, fun h m hpc hstep => ?_, a.round + 1, ?_⟩
  · have hstep : (s.hart 0).step (text A rounds₀ rounds₁) F s.mem = .ok (_, s.mem) := step_at_fail hpc
    have hat := (hR.core0.at_watched (by decide) hpc hstep).2
    rcases hc : a.consumer with - | - | b | b | - | - <;> rw [hc] at hat
    case failed => exact hR.inv.consumer_ne_failed hc
    all_goals cases hat
  · obtain ⟨hat, hk⟩ := hR.core0.at_watched (by decide) hpc hstep
    rcases hc : a.consumer with - | - | b | b | - | - <;> rw [hc] at hat hk
    case holds =>
      obtain ⟨c, hhart, -, ha2⟩ := hat
      obtain ⟨rfl, -, -⟩ := step_ld 0 rfl hhart ha2 (hR.status b) hstep
      refine ⟨⟨b, by rw [hhart]; exact ha2⟩, ?_⟩
      have hne := hR.inv.holds_ne hc
      rcases hstatus : a.status b with - | - | -
      · exact absurd hstatus hne
      · simp [statusVal]
      · simp [statusVal]
    all_goals cases hk
  · rw [hR.stores, handOvers_eq]
    exact hR.inv.events.map _

/-! ### One schedule -/

/-- One step of core `i`, if it has not come to `end` or stopped at an error. -/
def Cores.turn (T : Text Label) (F : CapFormat n) (s : Cores n) (i : Fin 2) : Cores n :=
  if (s.hart i).pc = T.loc 94 then s else
    match (s.hart i).step T F s.mem with
    | .ok (h, m) => s.move T i h m
    | .error _ => s

/-- The cores take turns in the order of a list. -/
theorem run_turns (s : Cores n) (order : List (Fin 2)) :
    (cores A rounds₀ rounds₁ F).Run s (order.foldl (Cores.turn (text A rounds₀ rounds₁) F) s) := by
  induction order generalizing s with
  | nil => exact .refl
  | cons i order ih =>
    refine .trans ?_ (ih _)
    unfold Cores.turn
    split_ifs with hend
    · exact .refl
    · rcases hs : (s.hart i).step (text A rounds₀ rounds₁) F s.mem with e | ⟨h, m⟩
      · exact .refl
      · exact .single (.insn i hend hs)

/-- The data of a test at address 0x1000. -/
def exampleLayout : Layout where
  test := 0x1000
  other_threads_go := 0x800
  ptr := 0x2000
  block b := if b then 0x2040 else 0x2020
  ptr_aligned := by decide
  block_aligned := by decide
  ptr_ne := by decide
  block_ne := by decide
  block_ne_zero := by decide

def exampleCore : Core 32 where
  gpr _ := 0
  cap _ := ⟨false, fun _ => 0⟩
  cp0 _ _ := 0
  capCause := 0
  log := []

/-- The cores at the beginning, all memory zero. -/
def exampleCores : Cores 32 where
  mem := ⟨fun _ => 0, fun _ => false⟩
  hart i := (text exampleLayout 1024 10).hartAt (if i = 0 then 21 else 47) exampleCore
  stores := []

/-- Core 1 hands over the first block, core 0 comes to the read of its status. -/
def exampleOrder : List (Fin 2) := List.replicate 20 1 ++ List.replicate 8 0

theorem test_mc_addr_no_false_alarm_first :
    let s := exampleOrder.foldl (Cores.turn (text exampleLayout 1024 10) noCaps) exampleCores
    s.stores = [⟨1, 0x2020, 0⟩, ⟨1, 0x2020, 1⟩, ⟨1, 0x2000, 0x2020⟩] ∧
    (s.hart 0).pc = (text exampleLayout 1024 10).loc 29 ∧
    (∀ h m, (s.hart 0).step (text exampleLayout 1024 10) noCaps s.mem = .ok (h, m) →
      h.core.get .t0 ≠ 0) := by
  intro s
  have hinit : (cores exampleLayout 1024 10 noCaps).init exampleCores :=
    ⟨by decide, by decide, rfl, ⟨exampleCore, rfl⟩, exampleCore, rfl⟩
  have hreach := (System.Reachable.init hinit).run (run_turns exampleCores exampleOrder)
  have hpc : (s.hart 0).pc = (text exampleLayout 1024 10).loc 29 := by decide +kernel
  exact ⟨by decide +kernel, hpc, fun h m hs =>
    ((test_mc_addr_no_false_alarm hreach).2.1 h m hpc hs).2⟩

end AddrTest

end Cheritest
