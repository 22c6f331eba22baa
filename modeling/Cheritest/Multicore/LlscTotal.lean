/-
Cheritest/Multicore/LlscTotal.lean

The LL/SC multicore test simulates the counter of `LoadLinked`.

A core that runs the test is on its way to a watched instruction, or in a
call of the barrier routine; the simulation relates `total` to the abstract
value and the stores to the abstract stores.  Since the cores also run
`thread_barrier` among them, a core that returns from it knows that all have
called it, and so that all have completed their sixteen iterations.
-/
import Cheritest.Multicore.LlscPlaces
import Mathlib.Algebra.BigOperators.Fin
import Mathlib.Algebra.BigOperators.Intervals
import Mathlib.Algebra.Group.Action.Defs
import Mathlib.Algebra.Order.BigOperators.Group.Finset

namespace Cheritest

open Mips

namespace Llsc

variable {n N : ℕ} {A : Layout} {F : CapFormat n} {i j : Fin N} {c c₀ : Core n} {s s' : Cores n N}
  {a a' : LoadLinked.State (Fin N) ℕ} {x x' : Hart n} {m m' : Mem}

/-! ### The relation -/

/-- What is known of core `i`. -/
inductive CoreAt (A : Layout) (F : CapFormat n) (i : Fin N) (s : Cores n N)
    (a : LoadLinked.State (Fin N) ℕ) : Prop
  | before : s.stage i = .before → s.inside i = false → s.done i = 0 → s.calls i = 0 →
      CoreAt A F i s a
  | test : s.stage i = .test → s.inside i = false → ComesTo A F i s a (s.hart i) → CoreAt A F i s a
  | go : s.stage i = .go → s.inside i = false → Comes (goText A) F [2] (AtJump A i) (s.hart i) →
      s.done i = 0 → s.calls i = 0 → CoreAt A F i s a
  | reset (c₀ : Core n) : s.stage i = .reset → s.inside i = false → FromTest A i 16 c₀ →
      Calling A.lib A.reset_barrier F i c₀ (s.hart i) s.mem → s.done i = 0 → s.calls i = 0 →
      CoreAt A F i s a
  | barrier (c₀ : Core n) : s.stage i = .test → s.inside i = true → FromTest A i 33 c₀ →
      Calling A.lib A.end_barrier F i c₀ (s.hart i) s.mem → s.done i = 16 → s.calls i = 1 →
      CoreAt A F i s a
  | after : s.stage i = .after → s.inside i = false → CoreAt A F i s a

/-- The cores are in the state that the abstract counter is in. -/
structure Sim (A : Layout) (F : CapFormat n) (s : Cores n N) (a : LoadLinked.State (Fin N) ℕ) :
    Prop where
  inv : LoadLinked.Inv weight a
  total : s.mem.loadDouble A.total = BitVec.ofNat 64 a.value
  done : s.done = a.done
  done_le : ∀ i, s.done i ≤ 16
  called : ∀ i, s.calls i = 0 ∨ s.done i = 16
  core : ∀ i, CoreAt A F i s a

/-- What is known of core `j` at a place is still so. -/
structure Agrees (j : Fin N) (s s' : Cores n N) (a a' : LoadLinked.State (Fin N) ℕ) : Prop where
  calls : s'.calls j = s.calls j
  done : s'.done j = s.done j
  loaded : a'.loaded j = a.loaded j
  link : (s.link j = true → a.linked j = true) → s'.link j = true → a'.linked j = true
  all : (∀ k, s.done k = 16) → ∀ k, s'.done k = 16

/-- A step of another core, as core `j` sees it. -/
structure Undisturbed (A : Layout) (j : Fin N) (s s' : Cores n N)
    (a a' : LoadLinked.State (Fin N) ℕ) : Prop extends Agrees j s s' a a' where
  stage : s'.stage j = s.stage j
  inside : s'.inside j = s.inside j
  hart : s'.hart j = s.hart j
  mem : ∀ b, A.InStack j b → s'.mem.byte b = s.mem.byte b

theorem HasRead.congr (hu : Agrees j s s' a a') (h : HasRead s j c) : HasRead s' j c :=
  ⟨h.a0, h.a1, hu.all h.done, hu.calls.trans h.calls⟩

theorem At.congr (hu : Agrees j s s' a a') (h : At A j s a x) : At A j s' a' x := by
  obtain ⟨k, hk, hpc, hat⟩ := h
  refine ⟨k, hk, hpc, ?_⟩
  simp only [testWatched, List.mem_cons, List.not_mem_nil, or_false] at hk
  rcases hk with rfl | rfl | rfl | rfl | rfl | rfl | rfl | rfl | rfl | rfl
  all_goals simp only [AtInsn, hu.done, hu.calls, hu.loaded] at hat ⊢
  · exact hat
  · exact hat
  · exact hat
  · exact hat
  · obtain ⟨hx, hc, hcalls, ht0, hlink⟩ := hat
    exact ⟨hx, hc, hcalls, ht0, hu.link hlink⟩
  · exact hat
  · obtain ⟨hx, ha0, hc, hall, hcalls⟩ := hat
    exact ⟨hx, ha0, hc, hu.all hall, hcalls⟩
  · exact ⟨hat.1, hat.2.congr hu⟩
  · exact ⟨hat.1, hat.2.congr hu⟩
  · exact hat.congr hu

/-- The saved registers of a call from the test lie in the core's stack. -/
theorem FromTest.inStack {k : ℕ} (h : FromTest A i k c) {b : BitVec 64}
    (hb : (b - (c.get .sp - 16)).toNat < 16) : A.InStack i b := by
  rw [h.sp] at hb
  unfold Layout.InStack
  bv_omega

theorem CoreAt.congr (hu : Undisturbed A j s s' a a') (h : CoreAt A F j s a) : CoreAt A F j s' a' := by
  cases h with
  | before hstage hin hdone hcalls =>
    exact .before (hu.stage.trans hstage) (hu.inside.trans hin) (hu.done.trans hdone)
      (hu.calls.trans hcalls)
  | test hstage hin hcomes =>
    refine .test (hu.stage.trans hstage) (hu.inside.trans hin) ?_
    rw [hu.hart]
    exact hcomes.mono fun _ => At.congr hu.toAgrees
  | go hstage hin hcomes hdone hcalls =>
    refine .go (hu.stage.trans hstage) (hu.inside.trans hin) ?_ (hu.done.trans hdone)
      (hu.calls.trans hcalls)
    rw [hu.hart]
    exact hcomes
  | reset c₀ hstage hin hfrom hcall hdone hcalls =>
    refine .reset c₀ (hu.stage.trans hstage) (hu.inside.trans hin) hfrom ?_ (hu.done.trans hdone)
      (hu.calls.trans hcalls)
    rw [hu.hart]
    exact hcall.congr fun b hb => hu.mem b (hfrom.inStack hb)
  | barrier c₀ hstage hin hfrom hcall hdone hcalls =>
    refine .barrier c₀ (hu.stage.trans hstage) (hu.inside.trans hin) hfrom ?_ (hu.done.trans hdone)
      (hu.calls.trans hcalls)
    rw [hu.hart]
    exact hcall.congr fun b hb => hu.mem b (hfrom.inStack hb)
  | after hstage hin => exact .after (hu.stage.trans hstage) (hu.inside.trans hin)

/-! ### Steps that leave the test's data alone -/

/-- The step is one of the barrier's system too, and the abstract counter
follows. -/
def Matched (A : Layout) (F : CapFormat n) (s : Cores n N) (a : LoadLinked.State (Fin N) ℕ)
    (s' : Cores n N) : Prop :=
  (barrierMachine A.lib F A.end_barrier N).step s.toMachine s'.toMachine ∧
    ∃ a', (LoadLinked.counter weight).Run a a' ∧ Sim A F s' a'

/-- A step of core `i`, outside of the end barrier, that leaves the test's
data and the other stacks alone. -/
theorem Sim.moved (hN : N ≤ 32) (h : Sim A F s a) (hin : s.inside i = false)
    (hmem : Outside A i s.mem m)
    (hmachine : s'.toMachine = { s.toMachine with mem := m, hart := Function.update s.hart i x })
    (hdone : s'.done = s.done) (hstage : ∀ j, j ≠ i → s'.stage j = s.stage j)
    (hlink : ∀ j, j ≠ i → s'.link j = s.link j) (hrun : (LoadLinked.counter weight).Run a a')
    (hinv : LoadLinked.Inv weight a') (hvalue : a'.value = a.value) (hdone' : a'.done = a.done)
    (hloaded : ∀ j, j ≠ i → a'.loaded j = a.loaded j ∧ a'.linked j = a.linked j)
    (hcore : CoreAt A F i s' a') : Matched A F s a s' := by
  have hcounters : ∀ j < N, m.byte (counterAddr A.end_barrier j)
      = s.mem.byte (counterAddr A.end_barrier j) := by
    intro j hj
    have := Layout.end_counter (A := A) (show j < 32 by omega)
    exact hmem _ (.inl (by omega))
  have hcalls : s'.calls = s.calls := by rw [hmachine]
  have hinside : s'.inside = s.inside := by rw [hmachine]
  have hmem' : s'.mem = m := by rw [hmachine]
  have hhart : s'.hart = Function.update s.hart i x := by rw [hmachine]
  -- to the barrier this is a step of its environment
  refine ⟨?_, a', hrun, ?_⟩
  · rw [hmachine]
    exact .other i x m hin hcounters
  constructor
  case inv => exact hinv
  case total =>
    rw [hmem', hvalue, ← h.total]
    exact Mem.loadDouble_congr fun b hb => hmem b (.inl (by omega))
  case done => rw [hdone, hdone', h.done]
  case done_le => exact fun j => hdone ▸ h.done_le j
  case called =>
    intro j
    rw [hcalls, hdone]
    exact h.called j
  case core =>
    intro j
    by_cases hji : j = i
    · subst hji
      exact hcore
    · refine (h.core j).congr ⟨⟨congrFun hcalls j, congrFun hdone j, (hloaded j hji).1, ?_, ?_⟩,
        hstage j hji, congrFun hinside j, ?_, ?_⟩
      · rw [hlink j hji, (hloaded j hji).2]
        exact id
      · rw [hdone]
        exact id
      · rw [hhart, Function.update_of_ne hji]
      · intro b hb
        rw [hmem']
        exact hmem b (.inr ⟨j, hji, hb⟩)

/-- The same, where the abstract counter does not move. -/
theorem Sim.stays (hN : N ≤ 32) (h : Sim A F s a) (hin : s.inside i = false)
    (hmem : Outside A i s.mem m)
    (hmachine : s'.toMachine = { s.toMachine with mem := m, hart := Function.update s.hart i x })
    (hdone : s'.done = s.done) (hstage : ∀ j, j ≠ i → s'.stage j = s.stage j)
    (hlink : s'.link = s.link) (hcore : CoreAt A F i s' a) : Matched A F s a s' :=
  h.moved hN hin hmem hmachine hdone hstage (fun j _ => congrFun hlink j) .refl h.inv rfl rfl
    (fun _ _ => ⟨rfl, rfl⟩) hcore

theorem Outside.refl : Outside A i m m := fun _ _ => rfl

/-- Saving a register in the frame of the test. -/
theorem outside_save (hN : N ≤ 32) {sp v : BitVec 64} (hsp : sp = A.sp i - 16) {off : BitVec 16}
    (hoff : off = 8 ∨ off = 0) : Outside A i m (m.storeDouble n (sp + off.signExtend 64) v) := by
  have hi := i.isLt
  have h8 : (8 : BitVec 16).signExtend 64 = 8#64 := by decide
  have h0 : (0 : BitVec 16).signExtend 64 = 0#64 := by decide
  intro b hb
  apply Mem.storeDouble_byte
  have hnot : ¬A.InStack i b := by
    intro hin
    rcases hb with hb | ⟨j, hji, hj⟩
    · have := hin.not_data (by omega)
      omega
    · exact hji (Fin.ext (hj.unique (by omega) (by omega) hin))
  unfold Layout.InStack at hnot
  rcases hoff with rfl | rfl
  · rw [hsp, h8]
    bv_omega
  · rw [hsp, h0]
    bv_omega

/-- A call of the reset barrier. -/
theorem outside_reset (hN : N ≤ 32) (hfrom : FromTest A i 16 c₀)
    (h : Spares A.reset_barrier i c₀ m m') : Outside A i m m' := by
  have hi := i.isLt
  intro b hb
  apply h
  · by_contra hlt
    have hin : A.InStack i b := hfrom.inStack (by omega)
    rcases hb with hb | ⟨j, hji, hj⟩
    · have := hin.not_data (by omega)
      omega
    · exact hji (Fin.ext (hj.unique (by omega) (by omega) hin))
  · rintro rfl
    have hreset := Layout.reset_counter (A := A) (show (i : ℕ) < 32 by omega)
    rcases hb with hb | ⟨j, hji, hj⟩
    · have := A.reset_data (counterAddr A.reset_barrier i) (by omega)
      omega
    · have := hj.not_reset (by omega)
      omega

/-- The counters of the barriers do not lie in the stacks. -/
theorem reset_not_inStack (hN : N ≤ 32) : ¬A.InStack i (counterAddr A.reset_barrier i) := by
  have hi := i.isLt
  intro hin
  have hfar := hin.not_reset (by omega)
  have hreset := Layout.reset_counter (A := A) (show (i : ℕ) < 32 by omega)
  omega

theorem end_not_inStack (hN : N ≤ 32) {k : ℕ} (hk : k < 32) :
    ¬A.InStack i (counterAddr A.end_barrier k) := by
  have hi := i.isLt
  intro hin
  have hfar := hin.not_data (by omega)
  have hend := Layout.end_counter (A := A) hk
  omega

theorem FromTest.counter_clear {k : ℕ} {b : BitVec 64} (hfrom : FromTest A i k c₀)
    (hb : ¬A.InStack i b) : 16 ≤ (b - (c₀.get .sp - 16)).toNat := by
  by_contra hlt
  exact hb (hfrom.inStack (by omega))

/-! ### One lemma for each step -/

theorem Sim.step_outside (hN : N ≤ 32) (h : Sim A F s a) (hstage : s.stage i = .before ∨ s.stage i = .after)
    (hmem : Outside A i s.mem m) : Matched A F s a (s.move i x m) := by
  cases h.core i with
  | before hb hin hdone hcalls =>
    exact h.stays hN hin hmem rfl rfl (fun _ _ => rfl) rfl (.before hb hin hdone hcalls)
  | after ha hin => exact h.stays hN hin hmem rfl rfl (fun _ _ => rfl) rfl (.after ha hin)
  | test ht => rw [ht] at hstage; simp at hstage
  | go ht => rw [ht] at hstage; simp at hstage
  | reset _ ht => rw [ht] at hstage; simp at hstage
  | barrier _ ht => rw [ht] at hstage; simp at hstage

/-- A step in the test. -/
theorem Sim.move_test (hN : N ≤ 32) (h : Sim A F s a) (hstage : s.stage i = .test)
    (hin : s.inside i = false) (hmem : Outside A i s.mem m) (hcomes : ComesTo A F i s a x) :
    Matched A F s a (s.move i x m) := by
  refine h.stays hN hin hmem rfl rfl (fun _ _ => rfl) rfl (.test hstage hin ?_)
  rw [Cores.move_hart]
  exact hcomes.mono fun _ => At.congr ⟨rfl, rfl, rfl, id, id⟩

/-- A step that leads to another stage. -/
theorem Sim.move_enter (hN : N ≤ 32) (h : Sim A F s a) (hin : s.inside i = false)
    (hmem : Outside A i s.mem m) {p : Stage} (hcore : CoreAt A F i ((s.move i x m).enter i p) a) :
    Matched A F s a ((s.move i x m).enter i p) :=
  h.stays hN hin hmem rfl rfl (fun _ hji => Function.update_of_ne hji ..) rfl hcore

/-- A core in the test is on its way. -/
theorem Sim.comes (h : Sim A F s a) (hstage : s.stage i = .test) (hin : s.inside i = false) :
    ComesTo A F i s a (s.hart i) := by
  cases h.core i with
  | test _ _ hcomes => exact hcomes
  | barrier _ _ hin' => rw [hin] at hin'; cases hin'
  | before hs => rw [hstage] at hs; cases hs
  | go hs => rw [hstage] at hs; cases hs
  | reset _ hs => rw [hstage] at hs; cases hs
  | after hs => rw [hstage] at hs; cases hs

theorem Sim.step_start (hN : N ≤ 32) (h : Sim A F s a) (hstage : s.stage i = .before)
    (hid : IsCore c i N) (hsp : c.get .sp = A.sp i) :
    Matched A F s a ((s.move i ((testText A).hartAt 0 c) s.mem).enter i .test) := by
  cases h.core i with
  | before _ hin hdone hcalls =>
    refine h.move_enter hN hin .refl (.test (Cores.enter_stage ..) hin ?_)
    rw [Cores.enter_hart, Cores.move_hart]
    exact comes_entry hid hsp hdone hcalls
  | test ht => rw [ht] at hstage; cases hstage
  | go ht => rw [ht] at hstage; cases hstage
  | reset _ ht => rw [ht] at hstage; cases hstage
  | barrier _ ht => rw [ht] at hstage; cases hstage
  | after ht => rw [ht] at hstage; cases hstage

/-- What a load of `total` gives when all are done. -/
theorem Sim.total_of_done (h : Sim A F s a) (hdone : ∀ j, s.done j = 16) :
    s.mem.loadDouble A.total = BitVec.ofNat 64 (∑ j : Fin N, 16 * weight j) := by
  have hterm (j : Fin N) : a.done j • weight j = 16 * weight j := by
    rw [← h.done, hdone j, smul_eq_mul]
  rw [h.total, h.inv.sum, Finset.sum_congr rfl fun j _ => hterm j]

theorem Sim.step_insn (hN : N ≤ 32) (h : Sim A F s a) (hstage : s.stage i = .test)
    (hin : s.inside i = false) (hpc : ∀ k ∈ [15, 21, 23, 32, 41], (s.hart i).pc ≠ (testText A).loc k)
    (hs : (s.hart i).step (testText A) F s.mem = .ok (x', m')) : Matched A F s a (s.move i x' m') := by
  obtain ⟨k, hk, hpck, hat⟩ | ⟨rfl, hcomes, -⟩ := (h.comes hstage hin).step hs
  · simp only [testWatched, List.mem_cons, List.not_mem_nil, or_false] at hk
    rcases hk with rfl | rfl | rfl | rfl | rfl | rfl | rfl | rfl | rfl | rfl
    · -- `sd $ra`
      obtain ⟨hx, hc, hdone, hcalls⟩ := hat
      rw [hx] at hs
      obtain ⟨c', he, rfl⟩ := step_op rfl hs
      obtain ⟨rfl, rfl⟩ := Op.exec_sd_ok he
      exact h.move_test hN hstage hin (outside_save hN hc.sp (.inl rfl))
        (.arrived ⟨2, by decide, rfl, rfl, hc.congr rfl rfl, hdone, hcalls⟩)
    · -- `sd $fp`
      obtain ⟨hx, hc, hdone, hcalls⟩ := hat
      rw [hx] at hs
      obtain ⟨c', he, rfl⟩ := step_op rfl hs
      obtain ⟨rfl, rfl⟩ := Op.exec_sd_ok he
      exact h.move_test hN hstage hin (outside_save hN hc.sp (.inr rfl))
        (comes_fork (hc.congr rfl rfl) hN hdone hcalls)
    · exact absurd hpck (hpc 15 (by decide))
    · exact absurd hpck (hpc 21 (by decide))
    · exact absurd hpck (hpc 23 (by decide))
    · exact absurd hpck (hpc 32 (by decide))
    · -- the load of `total`
      obtain ⟨hx, ha0, hc, hall, hcalls⟩ := hat
      rw [hx] at hs
      obtain ⟨c', he, rfl⟩ := step_op rfl hs
      obtain ⟨rfl, rfl⟩ := Op.exec_ld_ok he
      refine h.move_test hN hstage hin .refl (comes_read (hc.congr rfl) ?_ hall hcalls)
      rw [Core.get_set _ _ _ _ (by decide), if_pos rfl, ← h.total_of_done hall]
      simp [ha0]
    · -- `ld $ra`
      obtain ⟨hx, hread⟩ := hat
      rw [hx] at hs
      obtain ⟨c', he, rfl⟩ := step_op rfl hs
      obtain ⟨rfl, rfl⟩ := Op.exec_ld_ok he
      refine h.move_test hN hstage hin .refl
        (.arrived ⟨39, by decide, rfl, rfl, ?_, ?_, hread.done, hread.calls⟩)
      · simpa using hread.a0
      · simpa using hread.a1
    · -- `ld $fp`
      obtain ⟨hx, hread⟩ := hat
      rw [hx] at hs
      obtain ⟨c', he, rfl⟩ := step_op rfl hs
      obtain ⟨rfl, rfl⟩ := Op.exec_ld_ok he
      refine h.move_test hN hstage hin .refl (comes_return ⟨?_, ?_, hread.done, hread.calls⟩)
      · simpa using hread.a0
      · simpa using hread.a1
    · exact absurd hpck (hpc 41 (by decide))
  · exact h.move_test hN hstage hin .refl hcomes

theorem Sim.step_lld (hN : N ≤ 32) (h : Sim A F s a) (hstage : s.stage i = .test)
    (hin : s.inside i = false) (hpc : (s.hart i).pc = (testText A).loc 21)
    (hs : (s.hart i).step (testText A) F s.mem = .ok (x', m')) :
    Matched A F s a ((s.move i x' m').reserve i) := by
  obtain ⟨hx, hc, hcalls⟩ := ((h.comes hstage hin).at_watched (by decide) hpc).at_insn (by decide) hpc
  rw [hx] at hs
  obtain ⟨c', he, rfl⟩ := step_op rfl hs
  obtain ⟨rfl, rfl⟩ := Op.exec_lld_ok he
  -- the load makes the reservation of the abstract counter
  have hload : LoadLinked.Step weight a (a.load i) := .load i
  refine Sim.moved hN h hin .refl rfl rfl (fun _ _ => rfl)
    (fun j hji => Function.update_of_ne hji ..) (.single hload) (h.inv.step hload) rfl rfl
    (fun j hji => ⟨Function.update_of_ne hji .., Function.update_of_ne hji ..⟩)
    (.test hstage hin ?_)
  have haddr : (s.hart i).core.get .a0 + (0 : BitVec 16).signExtend 64 = A.total := by
    rw [hc.a0, show (0 : BitVec 16).signExtend 64 = 0 by decide, add_zero]
  rw [Cores.reserve_hart, Cores.move_hart]
  refine comes_scd hc.issue.set_t0 hcalls ?_ ?_
  · rw [Core.get_set _ _ _ _ (by decide), if_pos rfl, haddr, h.total]
    simp [LoadLinked.State.load]
  · intro _
    exact Function.update_self ..

theorem Sim.step_scd_fails (hN : N ≤ 32) (h : Sim A F s a) (hstage : s.stage i = .test)
    (hin : s.inside i = false) (hpc : (s.hart i).pc = (testText A).loc 23) :
    Matched A F s a
      (s.move i ⟨(s.hart i).core.set .t0 0, (s.hart i).npc, (s.hart i).npc + 4⟩ s.mem) := by
  obtain ⟨hx, hc, hcalls, -⟩ :=
    ((h.comes hstage hin).at_watched (by decide) hpc).at_insn (by decide) hpc
  have hnpc : (s.hart i).npc = (testText A).loc 24 := by rw [hx]; rfl
  have hnext : (⟨(s.hart i).core.set .t0 0, (s.hart i).npc, (s.hart i).npc + 4⟩ : Hart n)
      = (testText A).hartAt 24 ((s.hart i).core.set .t0 0) := by
    rw [hnpc, Text.loc_add_four]
    rfl
  -- to the abstract counter a reservation is lost
  have hlose : LoadLinked.Step weight a (a.lose i) := .lose i
  refine Sim.moved hN h hin .refl rfl rfl (fun _ _ => rfl) (fun _ _ => rfl) (.single hlose)
    (h.inv.step hlose) rfl rfl (fun j hji => ⟨rfl, Function.update_of_ne hji ..⟩) (.test hstage hin ?_)
  rw [Cores.move_hart, hnext]
  refine comes_again hc.set_t0 hcalls ?_
  simp

/-- A store to `total` leaves the counters and the stacks alone. -/
theorem storeDouble_total {v b : BitVec 64} (hb : 8 ≤ (b - A.total).toNat) :
    (m.storeDouble n A.total v).byte b = m.byte b := Mem.storeDouble_byte n m _ v hb

theorem Sim.step_scd (hN : N ≤ 32) (h : Sim A F s a) (hstage : s.stage i = .test)
    (hin : s.inside i = false) (hpc : (s.hart i).pc = (testText A).loc 23) (hlink : s.link i = true)
    (hs : (s.hart i).step (testText A) F s.mem = .ok (x', m')) :
    Matched A F s a ((s.move i x' m').complete i) := by
  obtain ⟨hx, hc, hcalls, ht0, hlinked⟩ :=
    ((h.comes hstage hin).at_watched (by decide) hpc).at_insn (by decide) hpc
  rw [hx] at hs
  obtain ⟨c', he, rfl⟩ := step_op rfl hs
  obtain ⟨rfl, rfl⟩ := Op.exec_scd_ok he
  have haddr : (s.hart i).core.get .a0 + (0 : BitVec 16).signExtend 64 = A.total := by
    rw [hc.a0, show (0 : BitVec 16).signExtend 64 = 0 by decide, add_zero]
  rw [haddr]
  have hlt := hc.lt
  -- the reservation still stands, so the loaded value is the current one
  have hstore : LoadLinked.Step weight a (a.store weight i) := .store i (hlinked hlink)
  refine ⟨.other i _ _ hin ?_, a.store weight i, .single hstore, ?_⟩
  · intro j hj
    have := Layout.end_counter (A := A) (show j < 32 by omega)
    exact storeDouble_total (by omega)
  constructor
  case inv => exact h.inv.step hstore
  case total =>
    show (Mem.storeDouble n s.mem A.total _).loadDouble A.total = _
    rw [Mem.loadDouble_storeDouble, ht0]
    rfl
  case done =>
    show Function.update s.done i (s.done i + 1) = Function.update a.done i (a.done i + 1)
    rw [h.done]
  case done_le =>
    intro j
    show Function.update s.done i (s.done i + 1) j ≤ 16
    rw [Function.update_apply]
    split_ifs
    · omega
    · exact h.done_le j
  case called =>
    intro j
    by_cases hji : j = i
    · exact .inl (hji ▸ hcalls)
    · show s.calls j = 0 ∨ Function.update s.done i (s.done i + 1) j = 16
      rw [Function.update_of_ne hji]
      exact h.called j
  case core =>
    intro j
    by_cases hji : j = i
    · subst hji
      refine .test hstage hin ?_
      rw [Cores.complete_hart, Cores.move_hart]
      refine comes_next hc.issue.set_t0 ?_ hcalls ?_
      · rw [Cores.complete_done, Function.update_self, Cores.move_done]
      · simp
    · refine CoreAt.congr (s := s) (a := a) ⟨⟨rfl, ?_, rfl, ?_, ?_⟩, rfl, rfl, ?_, ?_⟩ (h.core j)
      · rw [Cores.complete_done, Function.update_of_ne hji, Cores.move_done]
      · -- its reservation is lost
        intro _ hj
        simp [Cores.complete, hji] at hj
      · intro hall
        have := hall i
        omega
      · exact Function.update_of_ne hji ..
      · intro b hb
        have := hb.not_data (by have := j.isLt; omega)
        exact storeDouble_total (A := A) (by omega)

/-! #### Over `other_threads_go` -/

theorem Sim.step_call_go (hN : N ≤ 32) (h : Sim A F s a) (hstage : s.stage i = .test)
    (hin : s.inside i = false) (hpc : (s.hart i).pc = (testText A).loc 15)
    (hs : (s.hart i).step (testText A) F s.mem = .ok (x', m')) :
    Matched A F s a ((s.move i x' m').enter i .go) := by
  obtain ⟨hnpc, hra, hc, hdone, hcalls⟩ :=
    ((h.comes hstage hin).at_watched (by decide) hpc).at_insn (by decide) hpc
  obtain ⟨rfl, rfl⟩ := step_nop rfl hpc hs
  refine h.move_enter hN hin .refl (.go (Cores.enter_stage ..) hin ?_ hdone hcalls)
  have hnext : (⟨(s.hart i).core, (s.hart i).npc, (s.hart i).npc + 4⟩ : Hart n)
      = (goText A).hartAt 0 (s.hart i).core := by
    rw [hnpc, Text.addr, Text.loc_add_four]
    rfl
  rw [Cores.enter_hart, Cores.move_hart, hnext]
  exact comes_jump ⟨hc, hra⟩

theorem Sim.step_go (hN : N ≤ 32) (h : Sim A F s a) (hstage : s.stage i = .go)
    (hpc : (s.hart i).pc ≠ (goText A).loc 2)
    (hs : (s.hart i).step (goText A) F s.mem = .ok (x', m')) : Matched A F s a (s.move i x' m') := by
  cases h.core i with
  | go _ hin hcomes hdone hcalls =>
    obtain ⟨hpc', -⟩ | ⟨rfl, hcomes', -⟩ := hcomes.step hs
    · exact absurd hpc' hpc
    · refine h.stays hN hin .refl rfl rfl (fun _ _ => rfl) rfl (.go hstage hin ?_ hdone hcalls)
      rw [Cores.move_hart]
      exact hcomes'
  | before ht => rw [ht] at hstage; cases hstage
  | test ht => rw [ht] at hstage; cases hstage
  | reset _ ht => rw [ht] at hstage; cases hstage
  | barrier _ ht => rw [ht] at hstage; cases hstage
  | after ht => rw [ht] at hstage; cases hstage

theorem Sim.step_call_reset (hN : N ≤ 32) (h : Sim A F s a) (hstage : s.stage i = .go)
    (hpc : (s.hart i).pc = (goText A).loc 2)
    (hs : (s.hart i).step (goText A) F s.mem = .ok (x', m')) :
    Matched A F s a ((s.move i x' m').enter i .reset) := by
  cases h.core i with
  | go _ hin hcomes hdone hcalls =>
    obtain ⟨-, hnpc, ha0, hfrom⟩ := hcomes.at_watched (by decide) hpc
    obtain ⟨rfl, rfl⟩ := step_nop rfl hpc hs
    refine h.move_enter hN hin .refl
      (.reset (s.hart i).core (Cores.enter_stage ..) hin hfrom (.saves ?_) hdone hcalls)
    have hnext : (⟨(s.hart i).core, (s.hart i).npc, (s.hart i).npc + 4⟩ : Hart n)
        = (barrierText A.lib).hartAt 19 (s.hart i).core := by
      rw [hnpc, Text.addr, Text.loc_add_four]
      rfl
    rw [Cores.enter_hart, Cores.move_hart, hnext]
    exact heads_prelude ha0
  | before ht => rw [ht] at hstage; cases hstage
  | test ht => rw [ht] at hstage; cases hstage
  | reset _ ht => rw [ht] at hstage; cases hstage
  | barrier _ ht => rw [ht] at hstage; cases hstage
  | after ht => rw [ht] at hstage; cases hstage

theorem Sim.step_reset (hN : N ≤ 32) (h : Sim A F s a) (hstage : s.stage i = .reset)
    (hpc : (s.hart i).pc ≠ (barrierText A.lib).loc 43)
    (hs : (s.hart i).step (barrierText A.lib) F s.mem = .ok (x', m')) :
    Matched A F s a (s.move i x' m') := by
  cases h.core i with
  | reset c₀ _ hin hfrom hcall hdone hcalls =>
    have hclear : 16 ≤ (counterAddr A.reset_barrier i - (c₀.get .sp - 16)).toNat :=
      hfrom.counter_clear (reset_not_inStack hN)
    obtain ⟨-, hcall', hspares⟩ | ⟨hpc', -⟩ := hcall.step hN hfrom.core.corethread hclear hs
    · refine h.stays hN hin (outside_reset hN hfrom hspares) rfl rfl (fun _ _ => rfl) rfl
        (.reset c₀ hstage hin hfrom ?_ hdone hcalls)
      rw [Cores.move_hart]
      exact hcall'
    · exact absurd hpc' hpc
  | before ht => rw [ht] at hstage; cases hstage
  | test ht => rw [ht] at hstage; cases hstage
  | go ht => rw [ht] at hstage; cases hstage
  | barrier _ ht => rw [ht] at hstage; cases hstage
  | after ht => rw [ht] at hstage; cases hstage

/-- Back in the test after a call. -/
theorem hartAt_of_return {k : ℕ} (hfrom : FromTest A i k c₀) (hpc : x.pc = c₀.get .ra)
    (hnpc : x.npc = c₀.get .ra + 4) : x = (testText A).hartAt k x.core := by
  obtain ⟨c, pc, npc⟩ := x
  simp only at hpc hnpc
  rw [hpc, hnpc, hfrom.ra, Text.loc_add_four]
  rfl

theorem Sim.step_return_reset (hN : N ≤ 32) (h : Sim A F s a) (hstage : s.stage i = .reset)
    (hpc : (s.hart i).pc = (barrierText A.lib).loc 43)
    (hs : (s.hart i).step (barrierText A.lib) F s.mem = .ok (x', m')) :
    Matched A F s a ((s.move i x' m').enter i .test) := by
  cases h.core i with
  | reset c₀ _ hin hfrom hcall hdone hcalls =>
    have hclear : 16 ≤ (counterAddr A.reset_barrier i - (c₀.get .sp - 16)).toNat :=
      hfrom.counter_clear (reset_not_inStack hN)
    obtain ⟨hpc', -⟩ | ⟨-, rfl, hra, hnpc, hsp, hcp0⟩ := hcall.step hN hfrom.core.corethread hclear hs
    · exact absurd hpc hpc'
    · refine h.move_enter hN hin .refl (.test (Cores.enter_stage ..) hin ?_)
      rw [Cores.enter_hart, Cores.move_hart, hartAt_of_return hfrom hra hnpc]
      exact comes_not_core_zero (hfrom.toInTest.congr hsp hcp0) hN hdone hcalls
  | before ht => rw [ht] at hstage; cases hstage
  | test ht => rw [ht] at hstage; cases hstage
  | go ht => rw [ht] at hstage; cases hstage
  | barrier _ ht => rw [ht] at hstage; cases hstage
  | after ht => rw [ht] at hstage; cases hstage

/-! #### Over the end barrier -/

theorem Sim.step_call_barrier (hN : N ≤ 32) (h : Sim A F s a) (hstage : s.stage i = .test)
    (hin : s.inside i = false) (hpc : (s.hart i).pc = (testText A).loc 32)
    (hs : (s.hart i).step (testText A) F s.mem = .ok (x', m')) :
    Matched A F s a { s with toMachine := s.toMachine.call (barrierText A.lib) i x'.core } := by
  obtain ⟨-, ha0, hra, hc, hdone, hcalls⟩ :=
    ((h.comes hstage hin).at_watched (by decide) hpc).at_insn (by decide) hpc
  obtain ⟨rfl, rfl⟩ := step_nop rfl hpc hs
  have hfrom : FromTest A i 33 (s.hart i).core := ⟨hc, hra⟩
  refine ⟨.call i _ hin (by omega) hc.core.corethread ha0 ?_, a, .refl, ?_⟩
  · intro j hj
    exact hfrom.counter_clear (end_not_inStack hN (by omega))
  constructor
  case inv => exact h.inv
  case total => exact h.total
  case done => exact h.done
  case done_le => exact h.done_le
  case called =>
    intro j
    by_cases hji : j = i
    · exact .inr (hji ▸ hdone)
    · simp only [Machine.call, Function.update_of_ne hji]
      exact h.called j
  case core =>
    intro j
    by_cases hji : j = i
    · subst hji
      -- the core has done its 16 iterations and starts the call
      refine .barrier (s.hart j).core hstage (Function.update_self ..) hfrom (.saves ?_) hdone ?_
      · simp only [Machine.call, Function.update_self]
        exact heads_prelude ha0
      · simp only [Machine.call, Function.update_self, hcalls]
    · refine CoreAt.congr (s := s) (a := a) ⟨⟨?_, rfl, rfl, id, id⟩, rfl, ?_, ?_, fun _ _ => rfl⟩ (h.core j)
      · exact Function.update_of_ne hji ..
      · exact Function.update_of_ne hji ..
      · exact Function.update_of_ne hji ..

/-- Whoever returns from the barrier knows that all have completed their
iterations. -/
theorem Sim.all_done (hN : N ≤ 32) (h : Sim A F s a)
    (hb : (barrierMachine A.lib F A.end_barrier N).Reachable s.toMachine) (hin : s.inside i = true)
    (hpc : (s.hart i).pc = (barrierText A.lib).loc 43) (hcalls : s.calls i = 1) :
    ∀ j, s.done j = 16 := by
  obtain ⟨b, -, hsim⟩ := (simulates hN).reachable hb
  intro j
  have hstored := (hsim.at_return hin hpc).2 j
  have hle := hsim.counter_le j
  rw [← hsim.stored, ← hsim.calls] at hle
  rcases h.called j with hnot | hdone
  · omega
  · exact hdone

theorem Sim.step_barrier (hN : N ≤ 32) (h : Sim A F s a)
    (hb : (barrierMachine A.lib F A.end_barrier N).Reachable s.toMachine) (hin : s.inside i = true)
    (hs : (s.hart i).step (barrierText A.lib) F s.mem = .ok (x', m')) :
    Matched A F s a { s with toMachine := s.toMachine.run (barrierText A.lib) i x' m' } := by
  have hi := i.isLt
  cases h.core i with
  | barrier c₀ hstage _ hfrom hcall hdone hcalls =>
    have hclear : 16 ≤ (counterAddr A.end_barrier i - (c₀.get .sp - 16)).toNat :=
      hfrom.counter_clear (end_not_inStack hN (by omega))
    obtain ⟨hpc, hcall', hspares⟩ | ⟨hpc, rfl, hra, hnpc, hsp, hcp0⟩ :=
      hcall.step hN hfrom.core.corethread hclear hs
    · -- inside of the barrier: it stores beside `total`
      have hinside : (s.toMachine.run (barrierText A.lib) i x' m').inside = s.inside := if_neg hpc
      refine ⟨.run i hin hs, a, .refl, ?_⟩
      constructor
      case inv => exact h.inv
      case total =>
        rw [← h.total]
        apply Mem.loadDouble_congr
        intro b hb
        apply hspares
        · by_contra hlt
          have hfar := (hfrom.inStack (b := b) (by omega)).not_data (by omega)
          omega
        · rintro rfl
          have hend := Layout.end_counter (A := A) (show (i : ℕ) < 32 by omega)
          omega
      case done => exact h.done
      case done_le => exact h.done_le
      case called => exact h.called
      case core =>
        intro j
        have hhart : (s.toMachine.run (barrierText A.lib) i x' m').hart = Function.update s.hart i x' :=
          rfl
        by_cases hji : j = i
        · subst hji
          refine .barrier c₀ hstage ((congrFun hinside j).trans hin) hfrom ?_ hdone hcalls
          show Calling _ _ _ _ _ (Function.update s.hart j x' j) _
          rw [Function.update_self]
          exact hcall'
        · refine CoreAt.congr (s := s) (a := a) ⟨⟨rfl, rfl, rfl, id, id⟩, rfl, congrFun hinside j, ?_, ?_⟩
            (h.core j)
          · exact Function.update_of_ne hji ..
          · intro b hb
            have hj := j.isLt
            apply hspares
            · by_contra hlt
              exact hji (Fin.ext (hb.unique (by omega) (by omega) (hfrom.inStack (by omega))))
            · rintro rfl
              exact end_not_inStack hN (by omega) hb
    · -- back in the test
      have hall := h.all_done hN hb hin hpc hcalls
      refine ⟨.run i hin hs, a, .refl, ?_⟩
      constructor
      case inv => exact h.inv
      case total => exact h.total
      case done => exact h.done
      case done_le => exact h.done_le
      case called => exact h.called
      case core =>
        intro j
        by_cases hji : j = i
        · subst hji
          refine .test hstage ?_ ?_
          · simp [Machine.run, hpc]
          · simp only [Machine.run, Function.update_self]
            rw [hartAt_of_return hfrom hra hnpc]
            exact comes_passed (hfrom.core.congr hcp0) hall hcalls
        · refine CoreAt.congr (s := s) (a := a) ⟨⟨rfl, rfl, rfl, id, id⟩, rfl, ?_, ?_, fun _ _ => rfl⟩
            (h.core j)
          · simp [Machine.run, hpc, Function.update_of_ne hji]
          · exact Function.update_of_ne hji ..
  | before _ hin' => rw [hin] at hin'; cases hin'
  | test _ hin' => rw [hin] at hin'; cases hin'
  | go _ hin' => rw [hin] at hin'; cases hin'
  | reset _ _ hin' => rw [hin] at hin'; cases hin'
  | after _ hin' => rw [hin] at hin'; cases hin'

theorem Sim.step_return (hN : N ≤ 32) (h : Sim A F s a) (hin : s.inside i = false)
    (hpc : (s.hart i).pc = (testText A).loc 41)
    (hs : (s.hart i).step (testText A) F s.mem = .ok (x', m')) :
    Matched A F s a ((s.move i x' m').enter i .after) := by
  have hmem : m' = s.mem := by
    have hi : (assemble (testText A).code)[41]? = some (.op (.daddiu .sp .sp 16)) := rfl
    simp only [Hart.step, hpc, (testText A).fetch_loc hi, Op.exec, Op.put, Except.ok.injEq,
      Prod.mk.injEq] at hs
    exact hs.2.symm
  rw [hmem]
  exact h.move_enter hN hin .refl (.after (Cores.enter_stage ..) hin)

/-! ### The simulation -/

/-- The test simulates the abstract counter; its barrier is in a reachable
state. -/
theorem cores_simulates (hN : N ≤ 32) :
    System.Simulates (cores A F N) (LoadLinked.counter weight) fun s a =>
      Sim A F s a ∧ (barrierMachine A.lib F A.end_barrier N).Reachable s.toMachine where
  init := by
    rintro s ⟨htotal, hcounters, hs⟩
    have hinit : (LoadLinked.counter (weight : Fin N → ℕ)).init
        ⟨0, fun _ => false, fun _ => 0, fun _ => 0⟩ := ⟨rfl, fun _ => rfl, fun _ => rfl⟩
    refine ⟨_, hinit, ?_, .init ⟨hcounters, ?_⟩⟩
    · constructor
      case inv => exact LoadLinked.reachable_inv (.init hinit)
      case total => exact htotal
      case done => exact funext fun i => (hs i).2.2.2.2
      case done_le =>
        intro i
        rw [(hs i).2.2.2.2]
        omega
      case called => exact fun i => .inl (hs i).2.2.1
      case core =>
        intro i
        obtain ⟨hstage, hin, hcalls, -, hdone⟩ := hs i
        exact .before hstage hin hdone hcalls
    · intro i
      obtain ⟨-, hin, hcalls, hstored, -⟩ := hs i
      exact ⟨hcalls, hstored, hin⟩
  step := by
    rintro s s' a ⟨h, hb⟩ hs
    -- the barrier is carried along as a machine of its own
    suffices hmatched : Matched A F s a s' by
      obtain ⟨hstep, a', hrun, hsim⟩ := hmatched
      exact ⟨a', hrun, hsim, hb.step hstep⟩
    cases hs with
    | outside i x m hstage hmem => exact h.step_outside hN hstage hmem
    | start i c hstage hid hsp => exact h.step_start hN hstage hid hsp
    | insn i hstage hin hpc hstep => exact h.step_insn hN hstage hin hpc hstep
    | lld i hstage hin hpc hstep => exact h.step_lld hN hstage hin hpc hstep
    | scd i hstage hin hpc hlink hstep => exact h.step_scd hN hstage hin hpc hlink hstep
    | scd_fails i hstage hin hpc => exact h.step_scd_fails hN hstage hin hpc
    | call_go i hstage hin hpc hstep => exact h.step_call_go hN hstage hin hpc hstep
    | go i hstage hpc hstep => exact h.step_go hN hstage hpc hstep
    | call_reset i hstage hpc hstep => exact h.step_call_reset hN hstage hpc hstep
    | reset i hstage hpc hstep => exact h.step_reset hN hstage hpc hstep
    | return_reset i hstage hpc hstep => exact h.step_return_reset hN hstage hpc hstep
    | call_barrier i hstage hin hpc hstep => exact h.step_call_barrier hN hstage hin hpc hstep
    | barrier i hin hstep => exact h.step_barrier hN hb hin hstep
    | «return» i _ hin hpc hstep => exact h.step_return hN hin hpc hstep

/-! ### The test -/

/-- The sum of all additions. -/
theorem sum_weight (N : ℕ) : ∑ j : Fin N, 16 * weight j = 16 * N * (N + 1) / 2 := by
  have hgauss := Finset.sum_range_id_mul_two (N + 1)
  rw [Finset.sum_range_succ'] at hgauss
  have hsum : ∑ j : Fin N, 16 * weight j = 16 * ∑ j ∈ Finset.range N, (j + 1) := by
    rw [← Finset.mul_sum]
    exact congrArg _ (Fin.sum_univ_eq_sum_range (fun j => j + 1) N)
  rw [hsum, Nat.mul_assoc, Nat.mul_comm N]
  simp only [add_zero, Nat.add_sub_cancel] at hgauss
  omega

theorem sum_weight_lt (hN : N ≤ 32) : ∑ j : Fin N, 16 * weight j < 2 ^ 64 := by
  have hle : 16 * N * (N + 1) ≤ 16 * 32 * 33 := Nat.mul_le_mul (by omega) (by omega)
  rw [sum_weight]
  omega

/-- **No increment is lost or made twice, and nobody reads another total.**
In every state that any interleaving of `N ≤ 32` cores comes to, `total` is
the sum of the additions made in the iterations completed so far.  A core at
`store_loop` has `$t1` iterations to go; a core that has passed the barrier
and is about to load `total` finds `16 * N * (N + 1) / 2` there; and the
test returns with this in `$a0` and `N - 1` in `$a1`, as test_mc_llsc.py
expects. -/
theorem test_mc_llsc_total (hN : N ≤ 32) (A : Layout) (F : CapFormat n) (hs : (cores A F N).Reachable s) :
    (s.mem.loadDouble A.total).toNat = ∑ i : Fin N, (i + 1) * s.done i ∧
    (∀ i, s.stage i = .test → s.inside i = false →
      (s.hart i).pc = (testText A).addr .store_loop →
      ((s.hart i).core.get .t1).toNat = 16 - s.done i) ∧
    (∀ i, s.stage i = .test → s.inside i = false → (s.hart i).pc = (testText A).loc 35 →
      (s.hart i).core.get .a0 = A.total ∧
        (s.mem.loadDouble A.total).toNat = 16 * N * (N + 1) / 2) ∧
    ∀ i, s.stage i = .test → s.inside i = false → (s.hart i).pc = (testText A).loc 41 →
      ((s.hart i).core.get .a1).toNat = N - 1 ∧
        ((s.hart i).core.get .a0).toNat =
          (((s.hart i).core.get .a1).toNat + 1) * (((s.hart i).core.get .a1).toNat + 2) * 16 / 2 := by
  obtain ⟨a, -, h, -⟩ := (cores_simulates hN).reachable hs
  have hlt := sum_weight_lt hN
  refine ⟨?_, ?_, ?_, ?_⟩
  · -- the weights of the iterations so far, which do not overflow
    have hterm (i : Fin N) : a.done i • weight i = (i + 1) * s.done i := by
      rw [← h.done, smul_eq_mul, Nat.mul_comm]
      rfl
    have hle : ∑ i : Fin N, (i + 1) * s.done i ≤ ∑ i : Fin N, 16 * weight i := by
      apply Finset.sum_le_sum
      intro i _
      rw [Nat.mul_comm 16]
      exact Nat.mul_le_mul_left _ (h.done_le i)
    rw [h.total, h.inv.sum, Finset.sum_congr rfl fun i _ => hterm i, BitVec.toNat_ofNat]
    exact Nat.mod_eq_of_lt (by omega)
  · intro i hstage hin hpc
    have hpc' : (s.hart i).pc = (testText A).loc 21 := hpc
    obtain ⟨-, hc, -⟩ :=
      ((h.comes hstage hin).at_watched (by decide) hpc').at_insn (by decide) hpc'
    rw [hc.t1, BitVec.toNat_ofNat]
    exact Nat.mod_eq_of_lt (by omega)
  · intro i hstage hin hpc
    obtain ⟨-, ha0, -, hall, -⟩ :=
      ((h.comes hstage hin).at_watched (by decide) hpc).at_insn (by decide) hpc
    refine ⟨ha0, ?_⟩
    rw [h.total_of_done hall, BitVec.toNat_ofNat, Nat.mod_eq_of_lt hlt, sum_weight]
  · intro i hstage hin hpc
    -- at the end the expected value is computed from the number of the last core
    have hread : HasRead s i (s.hart i).core :=
      ((h.comes hstage hin).at_watched (k := 41) (by decide) hpc).at_insn (by decide) hpc
    have hi := i.isLt
    obtain ⟨N, rfl⟩ : ∃ M, N = M + 1 := ⟨N - 1, by omega⟩
    have ha1 : ((s.hart i).core.get .a1).toNat = N := by
      rw [hread.a1, BitVec.toNat_ofNat]
      exact Nat.mod_eq_of_lt (by omega)
    refine ⟨ha1, ?_⟩
    rw [ha1, hread.a0, BitVec.toNat_ofNat, Nat.mod_eq_of_lt hlt, sum_weight]
    congr 1
    rw [Nat.mul_assoc, Nat.mul_comm 16]

/-! ### Cores that take turns -/

/-- Core `i` executes an instruction of the test that leads to `x` and `m`; a
store conditional succeeds if it may. -/
def Cores.advanceTest (A : Layout) (s : Cores n N) (i : Fin N) (x : Hart n) (m : Mem) : Cores n N :=
  let pc := (s.hart i).pc
  if pc = (testText A).loc 15 then (s.move i x m).enter i .go
  else if pc = (testText A).loc 21 then (s.move i x m).reserve i
  else if pc = (testText A).loc 23 then
    if s.link i then (s.move i x m).complete i
    else s.move i ⟨(s.hart i).core.set .t0 0, (s.hart i).npc, (s.hart i).npc + 4⟩ s.mem
  else if pc = (testText A).loc 32 then
    { s with toMachine := s.toMachine.call (barrierText A.lib) i x.core }
  else if pc = (testText A).loc 41 then (s.move i x m).enter i .after
  else s.move i x m

/-- Core `i` executes its next instruction, if it is called to run the test
and the instruction does not trap. -/
def Cores.advance (A : Layout) (F : CapFormat n) (s : Cores n N) (i : Fin N) : Cores n N :=
  match s.stage i with
  | .before | .after => s
  | .go =>
      match (s.hart i).step (goText A) F s.mem with
      | .error _ => s
      | .ok (x, m) =>
          if (s.hart i).pc = (goText A).loc 2 then (s.move i x m).enter i .reset else s.move i x m
  | .reset =>
      match (s.hart i).step (barrierText A.lib) F s.mem with
      | .error _ => s
      | .ok (x, m) =>
          if (s.hart i).pc = (barrierText A.lib).loc 43 then (s.move i x m).enter i .test
          else s.move i x m
  | .test =>
      if s.inside i then
        match (s.hart i).step (barrierText A.lib) F s.mem with
        | .error _ => s
        | .ok (x, m) => { s with toMachine := s.toMachine.run (barrierText A.lib) i x m }
      else
        match (s.hart i).step (testText A) F s.mem with
        | .error _ => s
        | .ok (x, m) => s.advanceTest A i x m

theorem Cores.step_advanceTest (hstage : s.stage i = .test) (hin : s.inside i = false)
    (hs : (s.hart i).step (testText A) F s.mem = .ok (x, m)) :
    Cores.Step A F s (s.advanceTest A i x m) := by
  unfold Cores.advanceTest
  by_cases h15 : (s.hart i).pc = (testText A).loc 15
  · rw [if_pos h15]
    exact .call_go i hstage hin h15 hs
  by_cases h21 : (s.hart i).pc = (testText A).loc 21
  · rw [if_neg h15, if_pos h21]
    exact .lld i hstage hin h21 hs
  by_cases h23 : (s.hart i).pc = (testText A).loc 23
  · rw [if_neg h15, if_neg h21, if_pos h23]
    split_ifs with hlink
    · exact .scd i hstage hin h23 hlink hs
    · exact .scd_fails i hstage hin h23
  rw [if_neg h15, if_neg h21, if_neg h23]
  split_ifs with h32 h41
  · exact .call_barrier i hstage hin h32 hs
  · exact .return i hstage hin h41 hs
  · refine .insn i hstage hin ?_ hs
    simp [h15, h21, h23, h32, h41]

theorem Cores.step_advance (A : Layout) (F : CapFormat n) (s : Cores n N) (i : Fin N) :
    s.advance A F i = s ∨ Cores.Step A F s (s.advance A F i) := by
  unfold Cores.advance
  split
  · exact .inl rfl
  · exact .inl rfl
  · rename_i hstage
    split
    · exact .inl rfl
    · rename_i hs
      right
      split_ifs with hpc
      · exact .call_reset i hstage hpc hs
      · exact .go i hstage hpc hs
  · rename_i hstage
    split
    · exact .inl rfl
    · rename_i hs
      right
      split_ifs with hpc
      · exact .return_reset i hstage hpc hs
      · exact .reset i hstage hpc hs
  · rename_i hstage
    split_ifs with hin
    · split
      · exact .inl rfl
      · rename_i hs
        exact .inr (.barrier i hin hs)
    · split
      · exact .inl rfl
      · rename_i hs
        exact .inr (Cores.step_advanceTest hstage (Bool.eq_false_iff.mpr hin) hs)

/-- The cores take their turns in the given order. -/
def Cores.turns (A : Layout) (F : CapFormat n) (s : Cores n N) (order : List (Fin N)) : Cores n N :=
  order.foldl (Cores.advance A F) s

theorem reachable_turns (hs : (cores A F N).Reachable s) (order : List (Fin N)) :
    (cores A F N).Reachable (s.turns A F order) := by
  induction order generalizing s with
  | nil => exact hs
  | cons i order ih =>
    apply ih
    rcases Cores.step_advance A F s i with heq | hstep
    · rw [heq]
      exact hs
    · exact hs.step hstep

/-- Test, library and data at distinct addresses. -/
def exampleLayout : Layout where
  test := 0x10000
  lib := 0x20000
  go := 0x30000
  total := 0x40000
  reset_barrier := 0x50000
  stack := 0x100000
  stack_data := by intro a h; bv_omega
  stack_reset := by intro a h; bv_omega
  reset_data := by intro a h; bv_omega

/-- The registers of core `i` of two, called to run the test. -/
def exampleCore (i : Fin 2) : Core 32 where
  gpr r := if r = .sp then exampleLayout.sp i else 0
  cap _ := ⟨false, fun _ => 0⟩
  cp0 _ sel := if sel = 6 then BitVec.ofNat 64 (0x10000 + i) else 0
  capCause := 0
  log := []

theorem isCore_exampleCore (i : Fin 2) : IsCore (exampleCore i) i 2 := by
  refine ⟨⟨?_, Nat.zero_le _, by norm_num, by norm_num, ?_, rfl⟩, fun h => absurd h ?_⟩
  · exact Nat.le_of_lt_succ i.isLt
  · revert i
    decide
  · show ¬0#64 &&& 0xff00#64 = 0x8900#64
    decide

/-- Two cores that are about to be called; the second one is waiting in the
reset barrier. -/
def exampleCores : Cores 32 2 where
  mem := ⟨fun a => if a = 0x50001 then 1 else 0, fun _ => false⟩
  hart i := ⟨exampleCore i, 0, 4⟩
  calls _ := 0
  stored _ := 0
  inside _ := false
  stage _ := .before
  link _ := false
  done _ := 0

/-- Two cores that take turns, instruction by instruction: core zero is about
to return with 48 in `$a0`. -/
theorem test_mc_llsc_total_two :
    ∃ s : Cores 32 2, (cores exampleLayout noCaps 2).Reachable s ∧ s.done 0 = 16 ∧
      (s.mem.loadDouble exampleLayout.total).toNat = ∑ i : Fin 2, (i + 1) * s.done i ∧
      ((s.hart 0).core.get .a1).toNat = 1 ∧
      ((s.hart 0).core.get .a0).toNat =
        (((s.hart 0).core.get .a1).toNat + 1) * (((s.hart 0).core.get .a1).toNat + 2) * 16 / 2 := by
  have h₀ : (cores exampleLayout noCaps 2).Reachable exampleCores := by
    refine .init ⟨by decide, ?_, fun i => ⟨rfl, rfl, rfl, rfl, rfl⟩⟩
    decide
  have h₁ := h₀.step (.start 0 _ rfl (isCore_exampleCore 0) rfl)
  have h₂ := h₁.step (.start 1 _ rfl (isCore_exampleCore 1) rfl)
  have h₃ := reachable_turns h₂ ((List.replicate 308 [0, 1]).flatten ++ [0])
  refine ⟨_, h₃, by decide +kernel, (test_mc_llsc_total (by decide) _ _ h₃).1, ?_⟩
  exact (test_mc_llsc_total (by decide) _ _ h₃).2.2.2 0 (by decide +kernel) (by decide +kernel)
    (by decide +kernel)

end Llsc

end Cheritest
