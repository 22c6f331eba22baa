/-
Cheritest/Multicore/LlscPlaces.lean

Where a core of the LL/SC test is, and how it comes from one access to
memory, or one call, to the next.

What a core's registers hold at such a place is stated relative to the
abstract counter of `LoadLinked`: at the store conditional `$t0` is what the
abstract thread loaded, plus the core's weight.
-/
import Cheritest.Lib.LoadLinked
import Cheritest.Multicore.Llsc

namespace Cheritest

open Mips

namespace Llsc

variable {n N : ℕ} {A : Layout} {F : CapFormat n} {i : Fin N} {c c' : Core n} {s : Cores n N}
  {a : LoadLinked.State (Fin N) ℕ}

/-! ### Places -/

/-- The instructions of the test at which memory is accessed, and the last
ones of its calls and of the test. -/
def testWatched : List ℕ := [1, 2, 15, 21, 23, 32, 35, 38, 39, 41]

theorem testWatched_lt : ∀ k ∈ testWatched, k < 2 ^ 60 := by decide

/-- What a core adds to `total`. -/
def weight (i : Fin N) : ℕ := i + 1

/-- In the frame of the test. -/
structure InTest (A : Layout) (i : Fin N) (c : Core n) : Prop where
  core : IsCore c i N
  sp : c.get .sp = A.sp i - 16

/-- In the loop, with `done` iterations completed. -/
structure Looping (A : Layout) (i : Fin N) (done : ℕ) (c : Core n) : Prop extends InTest A i c where
  a0 : c.get .a0 = A.total
  a1 : c.get .a1 = BitVec.ofNat 64 (weight i)
  t1 : c.get .t1 = BitVec.ofNat 64 (16 - done)
  lt : done < 16

/-- After `total` has been read. -/
structure HasRead (s : Cores n N) (i : Fin N) (c : Core n) : Prop where
  a0 : c.get .a0 = BitVec.ofNat 64 (∑ j : Fin N, 16 * weight j)
  a1 : c.get .a1 = BitVec.ofNat 64 (N - 1)
  done : ∀ j, s.done j = 16
  calls : s.calls i = 1

/-- What is known of core `i` at the watched instructions. -/
def AtInsn (A : Layout) (i : Fin N) (s : Cores n N) (a : LoadLinked.State (Fin N) ℕ) (x : Hart n) :
    ℕ → Prop
  | 1 => x = (testText A).hartAt 1 x.core ∧ InTest A i x.core ∧ s.done i = 0 ∧ s.calls i = 0
  | 2 => x = (testText A).hartAt 2 x.core ∧ InTest A i x.core ∧ s.done i = 0 ∧ s.calls i = 0
  | 15 => x.npc = (goText A).addr .other_threads_go ∧ x.core.get .ra = (testText A).loc 16 ∧
      InTest A i x.core ∧ s.done i = 0 ∧ s.calls i = 0
  | 21 => x = (testText A).hartAt 21 x.core ∧ Looping A i (s.done i) x.core ∧ s.calls i = 0
  | 23 => x = (testText A).hartAt 23 x.core ∧ Looping A i (s.done i) x.core ∧ s.calls i = 0 ∧
      x.core.get .t0 = BitVec.ofNat 64 (a.loaded i + weight i) ∧
      (s.link i = true → a.linked i = true)
  | 32 => x.npc = (barrierText A.lib).addr .thread_barrier ∧ x.core.get .a0 = A.end_barrier ∧
      x.core.get .ra = (testText A).loc 33 ∧ InTest A i x.core ∧ s.done i = 16 ∧ s.calls i = 0
  | 35 => x = (testText A).hartAt 35 x.core ∧ x.core.get .a0 = A.total ∧ IsCore x.core i N ∧
      (∀ j, s.done j = 16) ∧ s.calls i = 1
  | 38 => x = (testText A).hartAt 38 x.core ∧ HasRead s i x.core
  | 39 => x = (testText A).hartAt 39 x.core ∧ HasRead s i x.core
  | 41 => HasRead s i x.core
  | _ => False

/-- Core `i` is at a watched instruction. -/
def At (A : Layout) (i : Fin N) (s : Cores n N) (a : LoadLinked.State (Fin N) ℕ) (x : Hart n) : Prop :=
  ∃ k ∈ testWatched, x.pc = (testText A).loc k ∧ AtInsn A i s a x k

/-- It is at one only. -/
theorem At.at_insn {x : Hart n} (h : At A i s a x) {k : ℕ} (hk : k ∈ testWatched)
    (hpc : x.pc = (testText A).loc k) : AtInsn A i s a x k := by
  obtain ⟨k', hk', hpc', hat⟩ := h
  have hlt := testWatched_lt k hk
  have hlt' := testWatched_lt k' hk'
  obtain rfl := (testText A).loc_injective (by omega) (by omega) (hpc.symm.trans hpc')
  exact hat

/-- A core that comes to a watched instruction without access to memory. -/
abbrev ComesTo (A : Layout) (F : CapFormat n) (i : Fin N) (s : Cores n N)
    (a : LoadLinked.State (Fin N) ℕ) (x : Hart n) : Prop :=
  Comes (testText A) F testWatched (At A i s a) x

/-! ### The processor -/

theorem ofNat_ne_zero {x : ℕ} (h0 : x ≠ 0) (h : x < 2 ^ 64) : BitVec.ofNat 64 x ≠ 0 := by
  intro he
  have hx := congrArg BitVec.toNat he
  rw [BitVec.toNat_ofNat, Nat.mod_eq_of_lt h] at hx
  exact h0 hx

theorem IsCore.congr (h : IsCore c i N) (hcp0 : c'.cp0 = c.cp0) : IsCore c' i N := by
  obtain ⟨⟨h₁, h₂, h₃, h₄, h₅, h₆⟩, hgx⟩ := h
  refine ⟨⟨h₁, h₂, h₃, h₄, ?_, ?_⟩, ?_⟩
  · rw [hcp0, h₅]
  · rw [hcp0, h₆]
  · rwa [onGxemul, hcp0]

/-- Core `i` is hardware thread `i`. -/
theorem IsCore.corethread (h : IsCore c i N) : Corethread c i N := by
  obtain ⟨hid, hgx⟩ := h
  have hi := i.isLt
  by_cases hon : onGxemul c
  · have hone := hgx hon
    exact .inl ⟨hon, by omega, hone⟩
  · exact .inr ⟨hon, N - 1, 0, i, 0, hid, by omega, by omega⟩

theorem IsCore.thread_eq (h : IsCore c i N) :
    c.cp0 15 7 &&& (0xffff : BitVec 16).setWidth 64 = BitVec.ofNat 64 0 :=
  and_id h.id.threadId (by norm_num)

theorem IsCore.core_eq (h : IsCore c i N) :
    c.cp0 15 6 &&& (0xffff : BitVec 16).setWidth 64 = BitVec.ofNat 64 i :=
  and_id h.id.coreId (lt_of_le_of_lt h.id.core_le h.id.mc_lt)

theorem IsCore.max_eq (h : IsCore c i N) :
    sext32 ((c.cp0 15 6).setWidth 32 >>> 16) = BitVec.ofNat 64 (N - 1) :=
  srl_id h.id.coreId h.id.mc_lt (lt_of_le_of_lt h.id.core_le h.id.mc_lt)

theorem InTest.congr (h : InTest A i c) (hsp : c'.get .sp = c.get .sp) (hcp0 : c'.cp0 = c.cp0) :
    InTest A i c' := ⟨h.core.congr hcp0, hsp.trans h.sp⟩

theorem Looping.set_t0 {d : ℕ} {v : BitVec 64} (h : Looping A i d c) : Looping A i d (c.set .t0 v) := by
  refine ⟨h.toInTest.congr ?_ rfl, ?_, ?_, ?_, h.lt⟩
  · simp
  · simpa using h.a0
  · simpa using h.a1
  · simpa using h.t1

theorem Looping.issue {d : ℕ} {k : AccessKind} {b : BitVec 64} {z : ℕ} (h : Looping A i d c) :
    Looping A i d (c.issue k b z) := ⟨h.toInTest.congr rfl rfl, h.a0, h.a1, h.t1, h.lt⟩

/-! ### From place to place -/

/-- From the entry to the first saved register. -/
theorem comes_entry (hcore : IsCore c i N) (hsp : c.get .sp = A.sp i) (hdone : s.done i = 0)
    (hcalls : s.calls i = 0) : ComesTo A F i s a ((testText A).hartAt 0 c) := by
  refine .of_quiet (quiet_op testWatched_lt rfl (by decide) (fun _ => rfl)) ?_
  refine .arrived ⟨1, by decide, rfl, rfl, ⟨hcore.congr rfl, ?_⟩, hdone, hcalls⟩
  have hneg : (-16 : BitVec 16).signExtend 64 = -16#64 := by decide
  rw [Text.hartAt_core, Core.get_set _ _ _ _ (by decide), if_pos rfl, hsp, hneg]
  bv_omega

/-- From `not_core_zero` to the first load linked. -/
theorem comes_not_core_zero (hc : InTest A i c) (hN : N ≤ 32) (hdone : s.done i = 0)
    (hcalls : s.calls i = 0) : ComesTo A F i s a ((testText A).hartAt 16 c) := by
  have hi := i.isLt
  refine .of_quiet (quiet_op testWatched_lt rfl (by decide) (fun _ => rfl)) ?_
  refine .of_quiet (quiet_op testWatched_lt rfl (by decide) (fun _ => rfl)) ?_
  refine .of_quiet (quiet_op testWatched_lt rfl (by decide) (fun _ => rfl)) ?_
  refine .of_quiet (quiet_op testWatched_lt rfl (by decide) (fun _ => rfl)) ?_
  refine .of_quiet (quiet_op testWatched_lt rfl (by decide)
    (fun _ => Op.exec_addi_one (x := i) ?_ (by omega))) ?_
  · simpa using hc.core.core_eq
  refine .arrived ⟨21, by decide, rfl, rfl, ⟨hc.congr ?_ rfl, ?_, ?_, ?_, ?_⟩, hcalls⟩
  · simp
  · simp
  · simp [weight]
  · simp [hdone]
  · omega

/-- From the saved registers to the call of `other_threads_go` or to the
first load linked. -/
theorem comes_fork (hc : InTest A i c) (hN : N ≤ 32) (hdone : s.done i = 0) (hcalls : s.calls i = 0) :
    ComesTo A F i s a ((testText A).hartAt 3 c) := by
  have hi := i.isLt
  refine .of_quiet (quiet_op testWatched_lt rfl (by decide) (fun _ => rfl)) ?_
  refine .of_quiet (quiet_op testWatched_lt rfl (by decide) (fun _ => rfl)) ?_
  refine .of_quiet (quiet_op testWatched_lt rfl (by decide) (fun _ => rfl)) ?_
  refine .of_quiet (quiet_op testWatched_lt rfl (by decide) (fun _ => rfl)) ?_
  refine .of_quiet (quiet_op testWatched_lt rfl (by decide) (fun _ => rfl)) ?_
  -- thread zero of its core
  refine .of_quiet (quiet_not_taken testWatched_lt rfl rfl (by decide) (by decide) ?_ (fun _ => rfl)) ?_
  · simpa [Cond.holds] using hc.core.thread_eq
  refine .of_quiet (quiet_op testWatched_lt rfl (by decide) (fun _ => rfl)) ?_
  refine .of_quiet (quiet_op testWatched_lt rfl (by decide) (fun _ => rfl)) ?_
  by_cases h0 : (i : ℕ) = 0
  · refine .of_quiet (quiet_not_taken testWatched_lt rfl rfl (by decide) (by decide) ?_
      (fun _ => rfl)) ?_
    · simpa [Cond.holds, h0] using hc.core.core_eq
    refine .of_quiet (quiet_jal testWatched_lt rfl (by decide)) ?_
    refine .arrived ⟨15, by decide, rfl, rfl, ?_, hc.congr ?_ rfl, hdone, hcalls⟩
    · simp
    · simp
  · refine .of_quiet (quiet_taken testWatched_lt rfl rfl (by decide) (by decide)
      (show labelIndex .not_core_zero (testText A).code = 16 by rfl) ?_ (fun _ => rfl)) ?_
    · have hne : c.cp0 15 6 &&& (0xffff : BitVec 16).setWidth 64 ≠ 0 := by
        rw [hc.core.core_eq]
        exact ofNat_ne_zero h0 (by omega)
      simpa [Cond.holds] using hne
    · exact comes_not_core_zero (hc.congr (by simp) rfl) hN hdone hcalls

/-- From the load linked to the store conditional. -/
theorem comes_scd (hc : Looping A i (s.done i) c) (hcalls : s.calls i = 0)
    (ht0 : c.get .t0 = BitVec.ofNat 64 (a.loaded i)) (hlink : s.link i = true → a.linked i = true) :
    ComesTo A F i s a ((testText A).hartAt 22 c) := by
  refine .of_quiet (quiet_op testWatched_lt rfl (by decide) (fun _ => rfl)) ?_
  refine .arrived ⟨23, by decide, rfl, rfl, hc.set_t0, hcalls, ?_, hlink⟩
  simp [ht0, hc.a1, BitVec.ofNat_add]

/-- From a store conditional that failed back to the load linked. -/
theorem comes_again (hc : Looping A i (s.done i) c) (hcalls : s.calls i = 0) (ht0 : c.get .t0 = 0) :
    ComesTo A F i s a ((testText A).hartAt 24 c) := by
  refine .of_quiet (quiet_taken testWatched_lt rfl rfl (by decide) (by decide)
    (show labelIndex .store_loop (testText A).code = 21 by rfl) ?_ (fun _ => rfl)) ?_
  · simp [Cond.holds, ht0]
  · exact .arrived ⟨21, by decide, rfl, rfl, hc, hcalls⟩

/-- From the end of the loop to the call of the barrier. -/
theorem comes_barrier (hc : InTest A i c) (hdone : s.done i = 16) (hcalls : s.calls i = 0) :
    ComesTo A F i s a ((testText A).hartAt 29 c) := by
  refine .of_quiet (quiet_op testWatched_lt rfl (by decide) (fun _ => rfl)) ?_
  refine .of_quiet (quiet_op testWatched_lt rfl (by decide) (fun _ => rfl)) ?_
  refine .of_quiet (quiet_jal testWatched_lt rfl (by decide)) ?_
  refine .arrived ⟨32, by decide, rfl, rfl, ?_, ?_, hc.congr ?_ rfl, hdone, hcalls⟩
  · simp
  · simp
  · simp

/-- From a store conditional that succeeded to the next iteration or out of
the loop. -/
theorem comes_next {d : ℕ} (hc : Looping A i d c) (hdone : s.done i = d + 1) (hcalls : s.calls i = 0)
    (ht0 : c.get .t0 = 1) : ComesTo A F i s a ((testText A).hartAt 24 c) := by
  have hlt := hc.lt
  obtain ⟨r, hr⟩ : ∃ r, 16 - d = r + 1 := ⟨15 - d, by omega⟩
  have hone : (-1 : BitVec 16).signExtend 64 = -BitVec.ofNat 64 1 := by decide
  have ht1 : c.get .t1 = BitVec.ofNat 64 (r + 1) := by rw [hc.t1, hr]
  have hdec : BitVec.ofNat 64 (r + 1) + (-1 : BitVec 16).signExtend 64 = BitVec.ofNat 64 r := by
    rw [hone, BitVec.ofNat_add, add_neg_cancel_right]
  have hov : (c.get .t1).saddOverflow ((-1 : BitVec 16).signExtend 64) = false := by
    have hneg : ((-1 : BitVec 16).signExtend 64).toInt = -1 := by decide
    rw [saddOverflow_iff, ht1, toInt_ofNat_small (by omega), hneg]
    omega
  refine .of_quiet (quiet_not_taken testWatched_lt rfl rfl (by decide) (by decide) ?_ (fun _ => rfl)) ?_
  · simp [Cond.holds, ht0]
  refine .of_quiet (quiet_op testWatched_lt rfl (by decide) (fun _ => Op.exec_daddi hov)) ?_
  have hhc : InTest A i (c.set .t1 (c.get .t1 + (-1 : BitVec 16).signExtend 64)) :=
    hc.toInTest.congr (by simp) rfl
  have hleft : (c.set .t1 (c.get .t1 + (-1 : BitVec 16).signExtend 64)).get .t1 = BitVec.ofNat 64 r := by
    rw [Core.get_set _ _ _ _ (by decide), if_pos rfl, ht1, hdec]
  by_cases h0 : r = 0
  · refine .of_quiet (quiet_not_taken testWatched_lt rfl rfl (by decide) (by decide) ?_ (fun _ => rfl)) ?_
    · rw [Cond.holds, hleft, h0]
      rfl
    · exact comes_barrier hhc (by omega) hcalls
  · refine .of_quiet (quiet_taken testWatched_lt rfl rfl (by decide) (by decide)
      (show labelIndex .store_loop (testText A).code = 21 by rfl) ?_ (fun _ => rfl)) ?_
    · rw [Cond.holds, hleft, Core.get_zero, bne_iff_ne]
      exact ofNat_ne_zero h0 (by omega)
    · have hrest : 16 - s.done i = r := by omega
      refine .arrived ⟨21, by decide, rfl, rfl, ⟨hhc, ?_, ?_, hrest ▸ hleft, ?_⟩, hcalls⟩
      · simpa using hc.a0
      · simpa using hc.a1
      · omega

/-- From the barrier to the load of `total`. -/
theorem comes_passed (hc : IsCore c i N) (hdone : ∀ j, s.done j = 16) (hcalls : s.calls i = 1) :
    ComesTo A F i s a ((testText A).hartAt 33 c) := by
  refine .of_quiet (quiet_op testWatched_lt rfl (by decide) (fun _ => rfl)) ?_
  refine .of_quiet (quiet_op testWatched_lt rfl (by decide) (fun _ => rfl)) ?_
  refine .arrived ⟨35, by decide, rfl, rfl, ?_, hc.congr rfl, hdone, hcalls⟩
  simp

/-- From the load of `total` to the saved registers. -/
theorem comes_read (hc : IsCore c i N) (ha0 : c.get .a0 = BitVec.ofNat 64 (∑ j : Fin N, 16 * weight j))
    (hdone : ∀ j, s.done j = 16) (hcalls : s.calls i = 1) :
    ComesTo A F i s a ((testText A).hartAt 36 c) := by
  refine .of_quiet (quiet_op testWatched_lt rfl (by decide) (fun _ => rfl)) ?_
  refine .of_quiet (quiet_op testWatched_lt rfl (by decide) (fun _ => rfl)) ?_
  refine .arrived ⟨38, by decide, rfl, rfl, ?_, ?_, hdone, hcalls⟩
  · simpa using ha0
  · simpa using hc.max_eq

/-- From the restored registers to the end. -/
theorem comes_return (hc : HasRead s i c) : ComesTo A F i s a ((testText A).hartAt 40 c) := by
  refine .of_quiet (quiet_jr_slot testWatched_lt rfl (by decide)) ?_
  exact .arrived ⟨41, by decide, rfl, hc⟩

/-! ### Calling `other_threads_go` -/

/-- Called by the test, to return to instruction `k`. -/
structure FromTest (A : Layout) (i : Fin N) (k : ℕ) (c : Core n) : Prop extends InTest A i c where
  ra : c.get .ra = (testText A).loc k

/-- About to jump to the barrier. -/
def AtJump (A : Layout) (i : Fin N) (x : Hart n) : Prop :=
  x.pc = (goText A).loc 2 ∧ x.npc = (barrierText A.lib).addr .thread_barrier ∧
    x.core.get .a0 = A.reset_barrier ∧ FromTest A i 16 x.core

theorem comes_jump (hc : FromTest A i 16 c) :
    Comes (goText A) F [2] (AtJump A i) ((goText A).hartAt 0 c) := by
  have hlt : ∀ k ∈ [2], k < 2 ^ 60 := by decide
  refine .of_quiet (quiet_op hlt rfl (by decide) (fun _ => rfl)) ?_
  refine .of_quiet (quiet_j hlt rfl (by decide)) ?_
  refine .arrived ⟨rfl, rfl, ?_, hc.toInTest.congr ?_ rfl, ?_⟩
  · simp
  · simp
  · simpa using hc.ra

end Llsc

end Cheritest
