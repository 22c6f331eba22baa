/-
Cheritest/LibS/BarrierFrame.lean

What a call of `thread_barrier` leaves alone.

A call writes to memory the two saved registers, below the caller's stack
pointer, and the own counter; when it ends, the stack pointer and the
processor ID registers are what they were and control is back at the caller
(`Calling.step`).  This does not depend on what the counters hold, so it is
so among any other threads that leave the saved return address alone.
-/
import Cheritest.LibS.Barrier

namespace Cheritest

open Mips

variable {n N : ℕ} {base bar : BitVec 64} {F : CapFormat n} {i : Fin N} {c₀ c : Core n}
  {x x' : Hart n} {m m' : Mem}

/-- Between prelude and epilogue of a call that began in state `c₀`. -/
structure InFrame (c₀ c : Core n) : Prop where
  sp : c.get .sp = c₀.get .sp - 32
  cp0 : c.cp0 = c₀.cp0

/-- Away from the saved registers of a call and from the counter. -/
def Spares (bar : BitVec 64) (i : ℕ) (c₀ : Core n) (m m' : Mem) : Prop :=
  ∀ a, 16 ≤ (a - (c₀.get .sp - 16)).toNat → a ≠ counterAddr bar i → m'.byte a = m.byte a

/-! ### Where a call is -/

/-- About to save the return address. -/
def Saves (base bar : BitVec 64) (c₀ : Core n) (x : Hart n) : Prop :=
  InFrame c₀ x.core ∧ x = (barrierText base).hartAt 20 x.core ∧
    x.core.get .ra = c₀.get .ra ∧ x.core.get .a0 = bar

/-- At another access to memory, before the return address is restored. -/
def Accesses (base bar : BitVec 64) (i : ℕ) (c₀ : Core n) (x : Hart n) : Prop :=
  InFrame c₀ x.core ∧
    ((x = (barrierText base).hartAt 21 x.core ∧ x.core.get .a0 = bar) ∨
      ((x = (barrierText base).hartAt 27 x.core ∨ x = (barrierText base).hartAt 29 x.core) ∧
        x.core.get .t1 = counterAddr bar i) ∨
      x = (barrierText base).hartAt 30 x.core ∨ x = (barrierText base).hartAt 32 x.core ∨
      x = (barrierText base).hartAt 39 x.core)

/-- After the return address is restored. -/
def Leaves (base : BitVec 64) (c₀ : Core n) (x : Hart n) : Prop :=
  (InFrame c₀ x.core ∧ x = (barrierText base).hartAt 40 x.core ∧ x.core.get .ra = c₀.get .ra) ∨
    (x.pc = (barrierText base).loc 43 ∧ x.npc = c₀.get .ra ∧ x.core.get .sp = c₀.get .sp ∧
      x.core.cp0 = c₀.cp0)

/-- Thread `i` is in a call that began in state `c₀`. -/
inductive Calling (base bar : BitVec 64) (F : CapFormat n) (i : ℕ) (c₀ : Core n) (x : Hart n)
    (m : Mem) : Prop
  | saves : Heads (barrierText base) F watched (Saves base bar c₀) x → Calling base bar F i c₀ x m
  | accesses : m.loadDouble (c₀.get .sp - 8) = c₀.get .ra →
      Heads (barrierText base) F watched (Accesses base bar i c₀) x → Calling base bar F i c₀ x m
  | leaves : Heads (barrierText base) F watched (Leaves base c₀) x → Calling base bar F i c₀ x m

/-- The others leave the saved return address alone. -/
theorem Calling.congr (h : Calling base bar F i c₀ x m)
    (hmem : ∀ a : BitVec 64, (a - (c₀.get .sp - 16)).toNat < 16 → m'.byte a = m.byte a) :
    Calling base bar F i c₀ x m' := by
  cases h with
  | saves hh => exact .saves hh
  | accesses hra hh =>
    refine .accesses ?_ hh
    rw [← hra]
    apply Mem.loadDouble_congr
    intro a ha
    apply hmem
    bv_omega
  | leaves hh => exact .leaves hh

/-! ### From one access to the next -/

theorem InFrame.congr {c' : Core n} (h : InFrame c₀ c) (hsp : c'.get .sp = c.get .sp)
    (hcp0 : c'.cp0 = c.cp0) : InFrame c₀ c' := ⟨hsp.trans h.sp, hcp0.trans h.cp0⟩

theorem heads_prelude (ha0 : c.get .a0 = bar) :
    Heads (barrierText base) F watched (Saves base bar c) ((barrierText base).hartAt 19 c) := by
  refine heads_op watched_lt (hasAt_thread_barrier base 0 _ rfl) (by decide)
    (.ok (fun _ => rfl) (.arrived ⟨⟨?_, rfl⟩, rfl, ?_, ?_⟩))
  · have hneg : (-32 : BitVec 16).signExtend 64 = -32#64 := by decide
    rw [Text.hartAt_core, Core.get_set _ _ _ _ (by decide), if_pos rfl, hneg]
    bv_omega
  · simp
  · simpa using ha0

theorem heads_number (hN : N ≤ 32) (hid : Corethread c₀ i N) (hc : InFrame c₀ c)
    (ha0 : c.get .a0 = bar) :
    Heads (barrierText base) F watched (Accesses base bar i c₀) ((barrierText base).hartAt 22 c) := by
  have hcode := hasAt_thread_barrier base
  refine heads_op watched_lt (hcode 3 _ rfl) (by decide) (.ok (fun _ => rfl) ?_)
  refine .of_quiet (quiet_bal watched_lt (hcode 4 _ rfl) (hcode 5 _ rfl) (by decide) (by decide)
    (show labelIndex .get_corethread_id (barrierText base).code = 0 by rfl) (fun _ => rfl)) ?_
  obtain ⟨c', hq, hv0, -, hframe, hcp0⟩ := get_corethread_id_quiet (j := 0) (F := F) watched_lt
    (hasAt_get_corethread_id base) (show labelIndex .one (barrierText base).code = 0 + 17 by rfl)
    (by decide) (c := (c.set .fp (c.get .sp + (32 : BitVec 16).signExtend 64)).set .ra
      ((barrierText base).loc 25)) (hid.congr (congrFun hc.cp0 15)) (by omega)
  refine .of_quiet hq ?_
  have hra : ((c.set .fp (c.get .sp + (32 : BitVec 16).signExtend 64)).set .ra
      ((barrierText base).loc 25)).get .ra = (barrierText base).loc 25 := by simp
  rw [hra, Text.loc_add_four]
  refine heads_op (k := 25) watched_lt (hcode 6 _ rfl) (by decide) (.ok (fun _ => rfl) ?_)
  refine heads_op watched_lt (hcode 7 _ rfl) (by decide) (leads_dadd ?_)
  have hsp : c'.get .sp = c.get .sp := by
    rw [hframe .sp (by decide) (by decide) (by decide) (by decide)]
    simp
  have ha0' : c'.get .a0 = bar := by
    rw [hframe .a0 (by decide) (by decide) (by decide) (by decide)]
    simpa using ha0
  refine .arrived ⟨hc.congr ?_ hcp0, .inr (.inl ⟨.inl rfl, ?_⟩)⟩
  · simpa using hsp
  · simp [ha0', hv0, counterAddr]

theorem heads_increment (hc : InFrame c₀ c) (ht1 : c.get .t1 = counterAddr bar i) :
    Heads (barrierText base) F watched (Accesses base bar i c₀) ((barrierText base).hartAt 28 c) := by
  refine heads_op watched_lt (hasAt_thread_barrier base 9 _ rfl) (by decide)
    (leads_addi (.arrived ⟨hc.congr ?_ rfl, .inr (.inl ⟨.inr rfl, ?_⟩)⟩))
  · simp
  · simpa using ht1

theorem heads_scan (hc : InFrame c₀ c) :
    Heads (barrierText base) F watched (Accesses base bar i c₀) ((barrierText base).hartAt 31 c) := by
  refine heads_op watched_lt (hasAt_thread_barrier base 12 _ rfl) (by decide)
    (leads_dadd (.arrived ⟨hc.congr ?_ rfl, .inr (.inr (.inr (.inl rfl)))⟩))
  simp

/-- After a comparison: start over, go on to the next counter, or leave the
loop. -/
theorem heads_compared (hc : InFrame c₀ c) :
    Heads (barrierText base) F watched (Accesses base bar i c₀) ((barrierText base).hartAt 33 c) := by
  have hcode := hasAt_thread_barrier base
  refine heads_op watched_lt (hcode 14 _ rfl) (by decide) (.ok (fun _ => rfl) ?_)
  cases hq : Cond.holds (c.set .t3 _) (.gtz .t3) with
  | true =>
    refine heads_taken watched_lt (hcode 15 _ rfl) (hcode 16 _ rfl) (by decide) (by decide)
      (show labelIndex .barrier_loop (barrierText base).code = 30 by rfl) hq
      (.ok (fun _ => rfl) (.arrived ⟨hc.congr ?_ rfl, .inr (.inr (.inl rfl))⟩))
    simp
  | false =>
    refine heads_not_taken watched_lt (hcode 15 _ rfl) (hcode 16 _ rfl) (by decide) (by decide) hq
      (.ok (fun _ => rfl) ?_)
    cases hq' : Cond.holds (Core.set (c.set .t3 _) .t0 _) (.gez .t0) with
    | true =>
      refine heads_taken watched_lt (hcode 17 _ rfl) (hcode 18 _ rfl) (by decide) (by decide)
        (show labelIndex .thread_loop (barrierText base).code = 32 by rfl) hq'
        (leads_dadd (.arrived ⟨hc.congr ?_ rfl, .inr (.inr (.inr (.inl rfl)))⟩))
      simp
    | false =>
      refine heads_not_taken watched_lt (hcode 17 _ rfl) (hcode 18 _ rfl) (by decide) (by decide) hq'
        (leads_dadd ?_)
      refine heads_op watched_lt (hcode 19 _ rfl) (by decide)
        (.ok (fun _ => rfl) (.arrived ⟨hc.congr ?_ rfl, .inr (.inr (.inr (.inr rfl)))⟩))
      simp

theorem heads_epilogue (hc : InFrame c₀ c) (hra : c.get .ra = c₀.get .ra) :
    Heads (barrierText base) F watched (Leaves base c₀) ((barrierText base).hartAt 41 c) := by
  have hcode := hasAt_thread_barrier base
  refine heads_op watched_lt (hcode 22 _ rfl) (by decide) (.ok (fun _ => rfl) ?_)
  refine heads_jr watched_lt (hcode 23 _ rfl) (by decide)
    (.arrived (.inr ⟨rfl, ?_, ?_, hc.cp0⟩))
  · simpa using hra
  · have h32 : (32 : BitVec 16).signExtend 64 = 32#64 := by decide
    rw [Core.get_set _ _ _ _ (by decide), if_pos rfl, hc.sp, h32]
    bv_omega

/-! ### Steps -/

/-- What is not an access to memory. -/
theorem Calling.of_quiet {x' : Hart n} {P : Hart n → Prop} {m' : Mem}
    (h : P x ∨ (m' = m ∧ Heads (barrierText base) F watched P x' ∧
      ∀ k ∈ watched, x.pc ≠ (barrierText base).loc k))
    (hcall : Heads (barrierText base) F watched P x' → Calling base bar F i c₀ x' m) :
    P x ∨ (x.pc ≠ (barrierText base).loc 43 ∧ Calling base bar F i c₀ x' m' ∧ Spares bar i c₀ m m') := by
  rcases h with hat | ⟨rfl, hh, hun⟩
  · exact .inl hat
  · exact .inr ⟨hun 43 (by decide), hcall hh, fun _ _ _ => rfl⟩

/-- An instruction other than the last one of the call. -/
theorem pc_ne_last {k : ℕ} (hx : x = (barrierText base).hartAt k c) (hk : k < 43) :
    x.pc ≠ (barrierText base).loc 43 := by
  rw [hx]
  intro he
  have := (barrierText base).loc_injective (by omega) (by omega) he
  omega

theorem loadDouble_spares {a v : BitVec 64} {ra : BitVec 64} (hra : m.loadDouble (a - 8) = ra) :
    (m.storeDouble n (a - 16) v).loadDouble (a - 8) = ra := by
  rw [← hra]
  apply Mem.loadDouble_congr
  intro b hb
  apply Mem.storeDouble_byte
  bv_omega

/-- A saved register is one of the two. -/
theorem spares_storeDouble {a v : BitVec 64} (ha : a = c₀.get .sp - 8 ∨ a = c₀.get .sp - 16) :
    Spares bar i c₀ m (m.storeDouble n a v) := by
  intro b hb _
  apply Mem.storeDouble_byte
  rcases ha with rfl | rfl <;> bv_omega

/-- **One step of a call.** -/
theorem Calling.step (hN : N ≤ 32) (hid : Corethread c₀ i N)
    (hclear : 16 ≤ (counterAddr bar i - (c₀.get .sp - 16)).toNat)
    (h : Calling base bar F i c₀ x m) (hs : x.step (barrierText base) F m = .ok (x', m')) :
    (x.pc ≠ (barrierText base).loc 43 ∧ Calling base bar F i c₀ x' m' ∧ Spares bar i c₀ m m') ∨
      (x.pc = (barrierText base).loc 43 ∧ m' = m ∧ x'.pc = c₀.get .ra ∧ x'.npc = c₀.get .ra + 4 ∧
        x'.core.get .sp = c₀.get .sp ∧ x'.core.cp0 = c₀.cp0) := by
  have hcode := hasAt_thread_barrier base
  have h24 : (24 : BitVec 16).signExtend 64 = 24#64 := by decide
  have h16 : (16 : BitVec 16).signExtend 64 = 16#64 := by decide
  cases h with
  | saves hh =>
    obtain ⟨hc, hx, hra, ha0⟩ | hquiet := Calling.of_quiet (hh.step hs) .saves
    · -- `sd $ra`
      refine .inl ⟨pc_ne_last hx (by omega), ?_⟩
      rw [hx] at hs
      obtain ⟨c', he, rfl⟩ := step_op (hcode 1 _ rfl) hs
      obtain ⟨rfl, rfl⟩ := Op.exec_sd_ok he
      have haddr : x.core.get .sp + (24 : BitVec 16).signExtend 64 = c₀.get .sp - 8 := by
        rw [hc.sp, h24]
        bv_omega
      rw [haddr, hra]
      exact ⟨.accesses (Mem.loadDouble_storeDouble ..) (.arrived ⟨hc.congr rfl rfl, .inl ⟨rfl, ha0⟩⟩),
        spares_storeDouble (.inl rfl)⟩
    · exact .inl hquiet
  | accesses hsaved hh =>
    obtain ⟨hc, hat⟩ | hquiet := Calling.of_quiet (hh.step hs) (.accesses hsaved)
    · refine .inl ?_
      obtain ⟨hx, ha0⟩ | ⟨hx | hx, ht1⟩ | hx | hx | hx := hat
      · -- `sd $fp`
        refine ⟨pc_ne_last hx (by omega), ?_⟩
        rw [hx] at hs
        obtain ⟨c', he, rfl⟩ := step_op (hcode 2 _ rfl) hs
        obtain ⟨rfl, rfl⟩ := Op.exec_sd_ok he
        have haddr : x.core.get .sp + (16 : BitVec 16).signExtend 64 = c₀.get .sp - 16 := by
          rw [hc.sp, h16]
          bv_omega
        rw [haddr]
        exact ⟨.accesses (loadDouble_spares hsaved) (heads_number hN hid (hc.congr rfl rfl) ha0),
          spares_storeDouble (.inr rfl)⟩
      · -- the load of the own counter
        refine ⟨pc_ne_last hx (by omega), ?_⟩
        rw [hx] at hs
        obtain ⟨c', he, rfl⟩ := step_op (hcode 8 _ rfl) hs
        simp only [Op.exec, Op.put, Except.ok.injEq, Prod.mk.injEq] at he
        obtain ⟨rfl, rfl⟩ := he
        refine ⟨.accesses hsaved (heads_increment (hc.congr ?_ rfl) ?_), fun _ _ _ => rfl⟩
        · simp
        · simpa using ht1
      · -- its store
        refine ⟨pc_ne_last hx (by omega), ?_⟩
        rw [hx] at hs
        obtain ⟨c', he, rfl⟩ := step_op (hcode 10 _ rfl) hs
        simp only [Op.exec, Except.ok.injEq, Prod.mk.injEq] at he
        obtain ⟨rfl, rfl⟩ := he
        have haddr : x.core.get .t1 + (0 : BitVec 16).signExtend 64 = counterAddr bar i := by
          rw [ht1, show (0 : BitVec 16).signExtend 64 = 0 by decide, add_zero]
        rw [haddr]
        refine ⟨.accesses ?_ (.arrived ⟨hc.congr rfl rfl, .inr (.inr (.inl rfl))⟩), ?_⟩
        · rw [← hsaved]
          apply Mem.loadDouble_congr
          intro a ha
          apply Function.update_of_ne
          rintro rfl
          bv_omega
        · intro a _ hne
          exact Function.update_of_ne hne ..
      · -- the head of `barrier_loop`
        refine ⟨pc_ne_last hx (by omega), ?_⟩
        rw [hx] at hs
        obtain ⟨c', he, rfl⟩ := step_op (hcode 11 _ rfl) hs
        simp only [Op.exec, Op.put, Except.ok.injEq, Prod.mk.injEq] at he
        obtain ⟨rfl, rfl⟩ := he
        refine ⟨.accesses hsaved (heads_scan (hc.congr ?_ rfl)), fun _ _ _ => rfl⟩
        simp
      · -- the load of a counter
        refine ⟨pc_ne_last hx (by omega), ?_⟩
        rw [hx] at hs
        obtain ⟨c', he, rfl⟩ := step_op (hcode 13 _ rfl) hs
        simp only [Op.exec, Op.put, Except.ok.injEq, Prod.mk.injEq] at he
        obtain ⟨rfl, rfl⟩ := he
        refine ⟨.accesses hsaved (heads_compared (hc.congr ?_ rfl)), fun _ _ _ => rfl⟩
        simp
      · -- `ld $ra`
        refine ⟨pc_ne_last hx (by omega), ?_⟩
        rw [hx] at hs
        obtain ⟨c', he, rfl⟩ := step_op (hcode 20 _ rfl) hs
        obtain ⟨rfl, rfl⟩ := Op.exec_ld_ok he
        have haddr : x.core.get .sp + (24 : BitVec 16).signExtend 64 = c₀.get .sp - 8 := by
          rw [hc.sp, h24]
          bv_omega
        rw [haddr, hsaved]
        refine ⟨.leaves (.arrived (.inl ⟨hc.congr ?_ rfl, rfl, ?_⟩)), fun _ _ _ => rfl⟩
        · simp
        · simp
    · exact .inl hquiet
  | leaves hh =>
    obtain (⟨hc, hx, hra⟩ | ⟨hpc, hnpc, hsp, hcp0⟩) | hquiet := Calling.of_quiet (hh.step hs) .leaves
    · -- `ld $fp`
      refine .inl ⟨pc_ne_last hx (by omega), ?_⟩
      rw [hx] at hs
      obtain ⟨c', he, rfl⟩ := step_op (hcode 21 _ rfl) hs
      obtain ⟨rfl, rfl⟩ := Op.exec_ld_ok he
      refine ⟨.leaves (heads_epilogue (hc.congr ?_ rfl) ?_), fun _ _ _ => rfl⟩
      · simp
      · simpa using hra
    · -- the delay slot of the return
      refine .inr ⟨hpc, ?_⟩
      simp only [Hart.step, hpc, (barrierText base).fetch_loc (hcode 24 _ rfl), Op.exec,
        Except.ok.injEq, Prod.mk.injEq] at hs
      obtain ⟨rfl, rfl⟩ := hs
      exact ⟨rfl, hnpc, by rw [hnpc], hsp, hcp0⟩
    · exact .inl hquiet

/-! ### Stores -/

/-- What a call stores: a saved register or the counter. -/
inductive Stores (bar : BitVec 64) (i : ℕ) (c₀ : Core n) (m m' : Mem) : Prop
  | none : m' = m → Stores bar i c₀ m m'
  | saved (a v : BitVec 64) : a = c₀.get .sp - 8 ∨ a = c₀.get .sp - 16 → m' = m.storeDouble n a v →
      Stores bar i c₀ m m'
  | counter (v : BitVec 8) : m' = m.storeByte n (counterAddr bar i) v → Stores bar i c₀ m m'

/-- **What one step of a call stores.** -/
theorem Calling.stores (h : Calling base bar F i c₀ x m)
    (hs : x.step (barrierText base) F m = .ok (x', m')) : Stores bar i c₀ m m' := by
  have hcode := hasAt_thread_barrier base
  have h24 : (24 : BitVec 16).signExtend 64 = 24#64 := by decide
  have h16 : (16 : BitVec 16).signExtend 64 = 16#64 := by decide
  cases h with
  | saves hh =>
    rcases hh.step hs with ⟨hc, hx, -, -⟩ | ⟨rfl, -, -⟩
    · rw [hx] at hs
      obtain ⟨c', he, -⟩ := step_op (hcode 1 _ rfl) hs
      obtain ⟨-, rfl⟩ := Op.exec_sd_ok he
      refine .saved _ _ (.inl ?_) rfl
      rw [hc.sp, h24]
      bv_omega
    · exact .none rfl
  | accesses _ hh =>
    rcases hh.step hs with ⟨hc, hat⟩ | ⟨rfl, -, -⟩
    · obtain ⟨hx, -⟩ | ⟨hx | hx, ht1⟩ | hx | hx | hx := hat
      all_goals rw [hx] at hs
      · obtain ⟨c', he, -⟩ := step_op (hcode 2 _ rfl) hs
        obtain ⟨-, rfl⟩ := Op.exec_sd_ok he
        refine .saved _ _ (.inr ?_) rfl
        rw [hc.sp, h16]
        bv_omega
      · obtain ⟨c', he, -⟩ := step_op (hcode 8 _ rfl) hs
        simp only [Op.exec, Op.put, Except.ok.injEq, Prod.mk.injEq] at he
        exact .none he.2.symm
      · obtain ⟨c', he, -⟩ := step_op (hcode 10 _ rfl) hs
        simp only [Op.exec, Except.ok.injEq, Prod.mk.injEq] at he
        refine .counter ((x.core.get .v0).setWidth 8) ?_
        rw [← he.2, ht1, show (0 : BitVec 16).signExtend 64 = 0 by decide, add_zero]
      · obtain ⟨c', he, -⟩ := step_op (hcode 11 _ rfl) hs
        simp only [Op.exec, Op.put, Except.ok.injEq, Prod.mk.injEq] at he
        exact .none he.2.symm
      · obtain ⟨c', he, -⟩ := step_op (hcode 13 _ rfl) hs
        simp only [Op.exec, Op.put, Except.ok.injEq, Prod.mk.injEq] at he
        exact .none he.2.symm
      · obtain ⟨c', he, -⟩ := step_op (hcode 20 _ rfl) hs
        exact .none (Op.exec_ld_ok he).2
    · exact .none rfl
  | leaves hh =>
    rcases hh.step hs with (⟨-, hx, -⟩ | ⟨hpc, -⟩) | ⟨rfl, -, -⟩
    · rw [hx] at hs
      obtain ⟨c', he, -⟩ := step_op (hcode 21 _ rfl) hs
      exact .none (Op.exec_ld_ok he).2
    · exact .none (step_nop (hcode 24 _ rfl) hpc hs).2
    · exact .none rfl

end Cheritest
