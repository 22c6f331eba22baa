/-
Cheritest/Multicore/CoherenceSequential.lean

The message-passing test, test_mc_coherence_sequential.s, run by any number
of cores.

Every core but core 0 stores 1 to `x` and then to `y`.  Core 0 waits until
`y` is not zero, loads `x` and stores what it has found to `result`.  At the
end all cores meet in a barrier and read `result`.

The outline says that `y` is not zero only if `x` is 1, and that core 0 has
stored 1 to `result` before it calls the barrier.  So every core returns 1
(`test_mc_coherence_sequential`).
-/
import Cheritest.Multicore.Outline

namespace Cheritest

open Mips

namespace CoherenceSequential

open Harness (Program Outline InTest harness SameData SameOthers goText)
open Llsc (IsCore)

/-! ### The code -/

inductive Label
  | loop
  | not_core_zero
  | finish
  deriving DecidableEq

/-- The test, from `BEGIN_TEST` to `END_TEST`; the label `end` of the source
is `finish` here. -/
def test (x y result end_barrier other_threads_go thread_barrier : BitVec 64) : List (Asm Label) :=
  List.flatten [
    mips_function_entry,
    [ .dli .v0 0,
      .dli .k1 0,
      .dmfc0 .t0 15 7,
      .andi .t1 .t0 0xffff,
      .bnez .t1 .not_core_zero,
      .nop,
      .dmfc0 .t0 15 6,
      .andi .t1 .t0 0xffff,
      .bnez .t1 .not_core_zero,
      .nop,
      .jal other_threads_go,
      .nop,
      .dla .t2 x,
      .dla .t0 y,
      .label .loop,
      .ld .t1 0 .t0,
      .beqz .t1 .loop,
      .nop,
      .ld .t0 0 .t2,
      .dla .t1 result,
      .sd .t0 0 .t1,
      .sync,
      .b .finish,
      .nop,
      .label .not_core_zero,
      .dli .a0 1,
      .dla .t0 x,
      .dla .t1 y,
      .sd .a0 0 .t0,
      .sd .a0 0 .t1,
      .label .finish,
      .dla .a0 end_barrier,
      .jal thread_barrier,
      .nop,
      .sync,
      .dla .a0 result,
      .ld .a0 0 .a0 ],
    mips_function_return ]

/-- The data of the test: `x`, eight doublewords, `y`, `result` and the
counters of the barrier. -/
structure Layout extends Harness.Layout where
  size_eq : size = 88
  end_barrier_eq : end_barrier = some (data + 88)

namespace Layout

def x (A : Layout) : BitVec 64 := A.data
def y (A : Layout) : BitVec 64 := A.data + 72
def result (A : Layout) : BitVec 64 := A.data + 80

end Layout

/-- The test in memory. -/
def testText (A : Layout) : Text Label where
  base := A.test
  code := test A.x A.y A.result (A.data + 88) ((goText A.toLayout).addr .other_threads_go)
    ((barrierText A.lib).addr .thread_barrier)
  fits := by
    show 42 < 2 ^ 60
    norm_num

variable {n N : ℕ}

/-- The test for the harness: instructions 15 and 34 are the delay slots of
its calls, and 41 that of its return. -/
def program (A : Layout) (F : CapFormat n) : Program n where
  step h m := h.step (testText A) F m
  loc := (testText A).loc
  loc_add_four := (testText A).loc_add_four
  callGo := 15
  callBarrier := some 34
  last := 41
  Ready _ := True

/-- The cores before the test, with the data that the test declares. -/
abbrev cores (A : Layout) (F : CapFormat n) (N : ℕ) : System (Harness.Cores n N) :=
  harness A.toLayout (program A F) F
    (fun m => m.loadDouble A.x = 0 ∧ m.loadDouble A.y = 0 ∧ m.loadDouble A.result = 0) N

/-! ### The outline -/

/-- The test's data. -/
structure Shared where
  x : BitVec 64
  y : BitVec 64
  result : BitVec 64

/-- How core `i` changes it. -/
inductive Acts (i : Fin N) (d : Shared) : Shared → Prop
  | result : (i : ℕ) = 0 → Acts i d { d with result := 1 }
  | x : (i : ℕ) ≠ 0 → Acts i d { d with x := 1 }
  | y : (i : ℕ) ≠ 0 → d.x = 1 → Acts i d { d with y := 1 }

/-- The instructions at which memory is accessed, and the last ones of the
calls and of the test. -/
def watched : List ℕ := [1, 2, 15, 18, 21, 23, 30, 31, 34, 37, 38, 39, 41]

theorem watched_lt : ∀ k ∈ watched, k < 2 ^ 60 := by decide

/-- What core `i` knows at the watched instructions, after `calls` calls of
the barrier. -/
def AtInsn (A : Layout) (i : Fin N) (calls : ℕ) (d : Shared) (h : Hart n) : ℕ → Prop
  | 1 => h = (testText A).hartAt 1 h.core ∧ InTest A.toLayout i h.core ∧ calls = 0
  | 2 => h = (testText A).hartAt 2 h.core ∧ InTest A.toLayout i h.core ∧ calls = 0
  | 15 => h.npc = (goText A.toLayout).addr .other_threads_go ∧ h.core.get .ra = (testText A).loc 16 ∧
      InTest A.toLayout i h.core ∧ calls = 0 ∧ (i : ℕ) = 0
  | 18 => h = (testText A).hartAt 18 h.core ∧ InTest A.toLayout i h.core ∧ calls = 0 ∧ (i : ℕ) = 0 ∧
      h.core.get .t0 = A.y ∧ h.core.get .t2 = A.x
  | 21 => h = (testText A).hartAt 21 h.core ∧ InTest A.toLayout i h.core ∧ calls = 0 ∧ (i : ℕ) = 0 ∧
      h.core.get .t2 = A.x ∧ d.x = 1
  | 23 => h = (testText A).hartAt 23 h.core ∧ InTest A.toLayout i h.core ∧ calls = 0 ∧ (i : ℕ) = 0 ∧
      h.core.get .t0 = 1 ∧ h.core.get .t1 = A.result
  | 30 => h = (testText A).hartAt 30 h.core ∧ InTest A.toLayout i h.core ∧ calls = 0 ∧ (i : ℕ) ≠ 0 ∧
      h.core.get .a0 = 1 ∧ h.core.get .t0 = A.x ∧ h.core.get .t1 = A.y
  | 31 => h = (testText A).hartAt 31 h.core ∧ InTest A.toLayout i h.core ∧ calls = 0 ∧ (i : ℕ) ≠ 0 ∧
      h.core.get .a0 = 1 ∧ h.core.get .t1 = A.y ∧ d.x = 1
  | 34 => h.npc = (barrierText A.lib).addr .thread_barrier ∧ h.core.get .a0 = A.data + 88 ∧
      h.core.get .ra = (testText A).loc 35 ∧ InTest A.toLayout i h.core ∧ calls = 0 ∧
      ((i : ℕ) = 0 → d.result = 1)
  | 37 => h = (testText A).hartAt 37 h.core ∧ h.core.get .a0 = A.result ∧ d.result = 1
  | 38 => h = (testText A).hartAt 38 h.core ∧ h.core.get .a0 = 1
  | 39 => h = (testText A).hartAt 39 h.core ∧ h.core.get .a0 = 1
  | 41 => h.core.get .a0 = 1
  | _ => False

/-- Core `i` is at a watched instruction. -/
def At (A : Layout) (i : Fin N) (calls : ℕ) (d : Shared) (h : Hart n) : Prop :=
  ∃ k ∈ watched, h.pc = (testText A).loc k ∧ AtInsn A i calls d h k

/-- A core that comes to a watched instruction without access to memory. -/
abbrev ComesTo (A : Layout) (F : CapFormat n) (i : Fin N) (calls : ℕ) (d : Shared) (h : Hart n) :
    Prop := Comes (testText A) F watched (At A i calls d) h

def outline (A : Layout) (F : CapFormat n) (N : ℕ) : Outline n N where
  Data := Shared
  view m := ⟨m.loadDouble A.x, m.loadDouble A.y, m.loadDouble A.result⟩
  Inv d := d.y ≠ 0 → d.x = 1
  Acts := Acts
  Inside i calls d h := ComesTo A F i calls d h
  Released i calls _ := calls = 0 ∧ (i : ℕ) = 0
  Waiting _ _ := True
  Done i d := (i : ℕ) = 0 → d.result = 1

section places
variable {A : Layout} {F : CapFormat n} {i j : Fin N} {calls : ℕ} {c c' : Core n} {d d' : Shared}
  {h h' : Hart n} {m m' : Mem}

/-- A core is at one watched instruction only. -/
theorem At.at_insn (hat : At A i calls d h) {k : ℕ} (hk : k ∈ watched)
    (hpc : h.pc = (testText A).loc k) : AtInsn A i calls d h k := by
  obtain ⟨k', hk', hpc', hat⟩ := hat
  have hlt := watched_lt k hk
  have hlt' := watched_lt k' hk'
  obtain rfl := (testText A).loc_injective (by omega) (by omega) (hpc.symm.trans hpc')
  exact hat

/-- The others only ever store 1 to `x` and `y`. -/
theorem Acts.keeps (hacts : Acts j d d') : (d.x = 1 → d'.x = 1) ∧ (d.result = 1 → d'.result = 1) := by
  cases hacts with
  | result => exact ⟨id, fun _ => rfl⟩
  | x => exact ⟨fun _ => rfl, id⟩
  | y => exact ⟨id, id⟩

theorem At.congr (hacts : Acts j d d') (hat : At A i calls d h) : At A i calls d' h := by
  obtain ⟨k, hk, hpc, hat⟩ := hat
  refine ⟨k, hk, hpc, ?_⟩
  obtain ⟨hx, hresult⟩ := hacts.keeps
  simp only [watched, List.mem_cons, List.not_mem_nil, or_false] at hk
  rcases hk with rfl | rfl | rfl | rfl | rfl | rfl | rfl | rfl | rfl | rfl | rfl | rfl | rfl
  · exact hat
  · exact hat
  · exact hat
  · exact hat
  · obtain ⟨hh, hc, hcalls, h0, ht2, hone⟩ := hat
    exact ⟨hh, hc, hcalls, h0, ht2, hx hone⟩
  · exact hat
  · exact hat
  · obtain ⟨hh, hc, hcalls, h0, ha0, ht1, hone⟩ := hat
    exact ⟨hh, hc, hcalls, h0, ha0, ht1, hx hone⟩
  · obtain ⟨hnpc, ha0, hra, hc, hcalls, hdone⟩ := hat
    exact ⟨hnpc, ha0, hra, hc, hcalls, fun h0 => hresult (hdone h0)⟩
  · obtain ⟨hh, ha0, hone⟩ := hat
    exact ⟨hh, ha0, hresult hone⟩
  · exact hat
  · exact hat
  · exact hat

/-! ### From place to place -/

/-- From the entry to the first saved register. -/
theorem comes_entry (hcore : IsCore c i N) (hsp : c.get .sp = A.sp i) :
    ComesTo A F i 0 d ((testText A).hartAt 0 c) := by
  refine .of_quiet (quiet_op watched_lt rfl (by decide) (fun _ => rfl)) ?_
  refine .arrived ⟨1, by decide, rfl, rfl, ⟨hcore.congr rfl, ?_⟩, rfl⟩
  have hneg : (-16 : BitVec 16).signExtend 64 = -16#64 := by decide
  rw [Text.hartAt_core, Core.get_set _ _ _ _ (by decide), if_pos rfl, hsp, hneg]
  bv_omega

/-- From `not_core_zero` to the store to `x`. -/
theorem comes_not_core_zero (hc : InTest A.toLayout i c) (h0 : (i : ℕ) ≠ 0) :
    ComesTo A F i 0 d ((testText A).hartAt 27 c) := by
  refine .of_quiet (quiet_op watched_lt rfl (by decide) (fun _ => rfl)) ?_
  refine .of_quiet (quiet_op watched_lt rfl (by decide) (fun _ => rfl)) ?_
  refine .of_quiet (quiet_op watched_lt rfl (by decide) (fun _ => rfl)) ?_
  refine .arrived ⟨30, by decide, rfl, rfl, hc.congr ?_ rfl, rfl, h0, ?_, ?_, ?_⟩
  · simp
  · simp
  · simp
  · simp

/-- From the saved registers to the call of `other_threads_go` or to the
store to `x`. -/
theorem comes_fork (hc : InTest A.toLayout i c) (hN : N ≤ 32) :
    ComesTo A F i 0 d ((testText A).hartAt 3 c) := by
  have hi := i.isLt
  refine .of_quiet (quiet_op watched_lt rfl (by decide) (fun _ => rfl)) ?_
  refine .of_quiet (quiet_op watched_lt rfl (by decide) (fun _ => rfl)) ?_
  refine .of_quiet (quiet_op watched_lt rfl (by decide) (fun _ => rfl)) ?_
  refine .of_quiet (quiet_op watched_lt rfl (by decide) (fun _ => rfl)) ?_
  refine .of_quiet (quiet_op watched_lt rfl (by decide) (fun _ => rfl)) ?_
  -- thread zero of its core
  refine .of_quiet (quiet_not_taken watched_lt rfl rfl (by decide) (by decide) ?_ (fun _ => rfl)) ?_
  · simpa [Cond.holds] using hc.core.thread_eq
  refine .of_quiet (quiet_op watched_lt rfl (by decide) (fun _ => rfl)) ?_
  refine .of_quiet (quiet_op watched_lt rfl (by decide) (fun _ => rfl)) ?_
  by_cases h0 : (i : ℕ) = 0
  · refine .of_quiet (quiet_not_taken watched_lt rfl rfl (by decide) (by decide) ?_ (fun _ => rfl)) ?_
    · simpa [Cond.holds, h0] using hc.core.core_eq
    refine .of_quiet (quiet_jal watched_lt rfl (by decide)) ?_
    refine .arrived ⟨15, by decide, rfl, rfl, ?_, hc.congr ?_ rfl, rfl, h0⟩
    · simp
    · simp
  · refine .of_quiet (quiet_taken watched_lt rfl rfl (by decide) (by decide)
      (show labelIndex .not_core_zero (testText A).code = 27 by rfl) ?_ (fun _ => rfl)) ?_
    · have hne : c.cp0 15 6 &&& (0xffff : BitVec 16).setWidth 64 ≠ 0 := by
        rw [hc.core.core_eq]
        exact Llsc.ofNat_ne_zero h0 (by omega)
      simpa [Cond.holds] using hne
    · exact comes_not_core_zero (hc.congr (by simp) rfl) h0

/-- From the return of `other_threads_go` to the load of `y`. -/
theorem comes_loop (hc : InTest A.toLayout i c) (h0 : (i : ℕ) = 0) :
    ComesTo A F i 0 d ((testText A).hartAt 16 c) := by
  refine .of_quiet (quiet_op watched_lt rfl (by decide) (fun _ => rfl)) ?_
  refine .of_quiet (quiet_op watched_lt rfl (by decide) (fun _ => rfl)) ?_
  refine .arrived ⟨18, by decide, rfl, rfl, hc.congr ?_ rfl, rfl, h0, ?_, ?_⟩
  · simp
  · simp
  · simp

/-- From the load of `y` back to it, or to the load of `x`. -/
theorem comes_loaded (hc : InTest A.toLayout i c) (h0 : (i : ℕ) = 0) (ht0 : c.get .t0 = A.y)
    (ht1 : c.get .t1 = d.y) (ht2 : c.get .t2 = A.x) (hinv : d.y ≠ 0 → d.x = 1) :
    ComesTo A F i 0 d ((testText A).hartAt 19 c) := by
  by_cases hy : d.y = 0
  · refine .of_quiet (quiet_taken watched_lt rfl rfl (by decide) (by decide)
      (show labelIndex .loop (testText A).code = 18 by rfl) ?_ (fun _ => rfl)) ?_
    · simp [Cond.holds, ht1, hy]
    · exact .arrived ⟨18, by decide, rfl, rfl, hc, rfl, h0, ht0, ht2⟩
  · refine .of_quiet (quiet_not_taken watched_lt rfl rfl (by decide) (by decide) ?_ (fun _ => rfl)) ?_
    · simpa [Cond.holds, ht1] using hy
    · exact .arrived ⟨21, by decide, rfl, rfl, hc, rfl, h0, ht2, hinv hy⟩

/-- From the load of `x` to the store to `result`. -/
theorem comes_result (hc : InTest A.toLayout i c) (h0 : (i : ℕ) = 0) (ht0 : c.get .t0 = 1) :
    ComesTo A F i 0 d ((testText A).hartAt 22 c) := by
  refine .of_quiet (quiet_op watched_lt rfl (by decide) (fun _ => rfl)) ?_
  refine .arrived ⟨23, by decide, rfl, rfl, hc.congr ?_ rfl, rfl, h0, ?_, ?_⟩
  · simp
  · simpa using ht0
  · simp

/-- From `end` to the call of the barrier. -/
theorem comes_barrier (hc : InTest A.toLayout i c) (hdone : (i : ℕ) = 0 → d.result = 1) :
    ComesTo A F i 0 d ((testText A).hartAt 32 c) := by
  refine .of_quiet (quiet_op watched_lt rfl (by decide) (fun _ => rfl)) ?_
  refine .of_quiet (quiet_jal watched_lt rfl (by decide)) ?_
  refine .arrived ⟨34, by decide, rfl, rfl, ?_, ?_, hc.congr ?_ rfl, rfl, hdone⟩
  · simp
  · simp
  · simp

/-- From the store to `result` there. -/
theorem comes_stored (hc : InTest A.toLayout i c) (hresult : d.result = 1) :
    ComesTo A F i 0 d ((testText A).hartAt 24 c) := by
  refine .of_quiet (quiet_op watched_lt rfl (by decide) (fun _ => rfl)) ?_
  refine .of_quiet (quiet_taken watched_lt rfl rfl (by decide) (by decide)
    (show labelIndex .finish (testText A).code = 32 by rfl) ?_ (fun _ => rfl)) ?_
  · simp [Cond.holds]
  · exact comes_barrier hc fun _ => hresult

/-- From the barrier to the load of `result`. -/
theorem comes_passed (hresult : d.result = 1) : ComesTo A F i calls d ((testText A).hartAt 35 c) := by
  refine .of_quiet (quiet_op watched_lt rfl (by decide) (fun _ => rfl)) ?_
  refine .of_quiet (quiet_op watched_lt rfl (by decide) (fun _ => rfl)) ?_
  refine .arrived ⟨37, by decide, rfl, rfl, ?_, hresult⟩
  simp

end places

/-! ### The outline is valid -/

section valid
variable {A : Layout} {F : CapFormat n} {i j : Fin N} {calls : ℕ} {c : Core n} {d d' : Shared}
  {h h' : Hart n} {m m' : Mem}

/-- The data that memory holds. -/
def view (A : Layout) (m : Mem) : Shared := ⟨m.loadDouble A.x, m.loadDouble A.y, m.loadDouble A.result⟩

theorem view_congr (hdata : SameData A.toLayout n m m') : view A m' = view A m := by
  have hsize := A.size_eq
  have hload (a : BitVec 64) (ha : ∀ b : BitVec 64, (b - a).toNat < 8 → (b - A.data).toNat < 88) :
      m'.loadDouble a = m.loadDouble a :=
    Mem.loadDouble_congr fun b hb => hdata.byte b (by rw [hsize]; exact ha b hb)
  unfold view
  rw [hload A.x, hload A.y, hload A.result]
  · unfold Layout.result
    intro b hb
    bv_omega
  · unfold Layout.y
    intro b hb
    bv_omega
  · unfold Layout.x
    intro b hb
    omega

/-- A doubleword beside a stored one. -/
theorem loadDouble_beside {a b v : BitVec 64}
    (hab : ∀ e : BitVec 64, (e - b).toNat < 8 → 8 ≤ (e - a).toNat) :
    (m.storeDouble n a v).loadDouble b = m.loadDouble b :=
  Mem.loadDouble_congr fun e he => Mem.storeDouble_byte n m a v (hab e he)

theorem view_store_x (v : BitVec 64) : view A (m.storeDouble n A.x v) = { view A m with x := v } := by
  unfold view
  rw [Mem.loadDouble_storeDouble, loadDouble_beside, loadDouble_beside]
  · unfold Layout.x Layout.result
    intro e he
    bv_omega
  · unfold Layout.x Layout.y
    intro e he
    bv_omega

theorem view_store_y (v : BitVec 64) : view A (m.storeDouble n A.y v) = { view A m with y := v } := by
  unfold view
  rw [Mem.loadDouble_storeDouble, loadDouble_beside, loadDouble_beside]
  · unfold Layout.y Layout.result
    intro e he
    bv_omega
  · unfold Layout.x Layout.y
    intro e he
    bv_omega

theorem view_store_result (v : BitVec 64) :
    view A (m.storeDouble n A.result v) = { view A m with result := v } := by
  unfold view
  rw [Mem.loadDouble_storeDouble, loadDouble_beside, loadDouble_beside]
  · unfold Layout.y Layout.result
    intro e he
    bv_omega
  · unfold Layout.x Layout.result
    intro e he
    bv_omega

/-- A store to the data is no concern of the counters and the stacks. -/
theorem sameOthers_store (hN : N ≤ 32) {a v : BitVec 64} (ha : a = A.x ∨ a = A.y ∨ a = A.result) :
    SameOthers A.toLayout i m (m.storeDouble n a v) := by
  refine Harness.sameOthers_of_data hN fun b hb => Mem.storeDouble_byte n m a v ?_
  rw [A.size_eq] at hb
  unfold Layout.x Layout.y Layout.result at ha
  rcases ha with rfl | rfl | rfl <;> bv_omega

theorem off_zero (a : BitVec 64) : a + (0 : BitVec 16).signExtend 64 = a := by
  rw [show (0 : BitVec 16).signExtend 64 = 0 by decide, add_zero]

/-- What one instruction of a core does. -/
def Keeps (A : Layout) (F : CapFormat n) (i : Fin N) (calls : ℕ) (m m' : Mem) (h' : Hart n) : Prop :=
  ComesTo A F i calls (view A m') h' ∧ SameOthers A.toLayout i m m' ∧
    (view A m' = view A m ∨ Acts i (view A m) (view A m'))

/-- An instruction that leaves memory alone. -/
theorem Keeps.of_comes (hcomes : ComesTo A F i calls (view A m) h') : Keeps A F i calls m m h' :=
  ⟨hcomes, .refl, .inl rfl⟩

/-- **Every instruction keeps the outline.** -/
theorem keeps_step (hN : N ≤ 32) (hcomes : ComesTo A F i calls (view A m) h)
    (hinv : (view A m).y ≠ 0 → (view A m).x = 1) (hpc : (program A F).Ordinary h.pc)
    (hs : h.step (testText A) F m = .ok (h', m')) : Keeps A F i calls m m' h' := by
  obtain ⟨hgo, hbarrier, hlast⟩ := hpc
  obtain ⟨k, hk, hpck, hat⟩ | ⟨rfl, hcomes, -⟩ := hcomes.step hs
  · simp only [watched, List.mem_cons, List.not_mem_nil, or_false] at hk
    rcases hk with rfl | rfl | rfl | rfl | rfl | rfl | rfl | rfl | rfl | rfl | rfl | rfl | rfl
    · -- `sd $ra`
      obtain ⟨hh, hc, rfl⟩ := hat
      rw [hh] at hs
      obtain ⟨c', he, rfl⟩ := step_op rfl hs
      obtain ⟨rfl, rfl⟩ := Op.exec_sd_ok he
      obtain ⟨hdata, hothers⟩ := Harness.save_register (n := n) (m := m) hN hc.sp
        (v := h.core.get .ra) (.inl rfl)
      refine ⟨.arrived ⟨2, by decide, rfl, rfl, hc.congr rfl rfl, rfl⟩, hothers, .inl (view_congr hdata)⟩
    · -- `sd $fp`
      obtain ⟨hh, hc, rfl⟩ := hat
      rw [hh] at hs
      obtain ⟨c', he, rfl⟩ := step_op rfl hs
      obtain ⟨rfl, rfl⟩ := Op.exec_sd_ok he
      obtain ⟨hdata, hothers⟩ := Harness.save_register (n := n) (m := m) hN hc.sp
        (v := h.core.get .fp) (.inr rfl)
      exact ⟨comes_fork (hc.congr rfl rfl) hN, hothers, .inl (view_congr hdata)⟩
    · exact absurd hpck hgo
    · -- the load of `y`
      obtain ⟨hh, hc, rfl, h0, ht0, ht2⟩ := hat
      rw [hh] at hs
      obtain ⟨c', he, rfl⟩ := step_op rfl hs
      obtain ⟨rfl, rfl⟩ := Op.exec_ld_ok he
      refine .of_comes (comes_loaded (hc.congr ?_ rfl) h0 ?_ ?_ ?_ hinv)
      · simp
      · simpa using ht0
      · rw [Core.get_set _ _ _ _ (by decide), if_pos rfl, ht0, off_zero]
        rfl
      · simpa using ht2
    · -- the load of `x`
      obtain ⟨hh, hc, rfl, h0, ht2, hone⟩ := hat
      rw [hh] at hs
      obtain ⟨c', he, rfl⟩ := step_op rfl hs
      obtain ⟨rfl, rfl⟩ := Op.exec_ld_ok he
      refine .of_comes (comes_result (hc.congr ?_ rfl) h0 ?_)
      · simp
      · rw [Core.get_set _ _ _ _ (by decide), if_pos rfl, ht2, off_zero]
        exact hone
    · -- the store to `result`
      obtain ⟨hh, hc, rfl, h0, ht0, ht1⟩ := hat
      rw [hh] at hs
      obtain ⟨c', he, rfl⟩ := step_op rfl hs
      obtain ⟨rfl, rfl⟩ := Op.exec_sd_ok he
      rw [ht0, ht1, off_zero]
      refine ⟨comes_stored (hc.congr rfl rfl) ?_, sameOthers_store hN (.inr (.inr rfl)), .inr ?_⟩
      · rw [view_store_result]
      · rw [view_store_result]
        exact .result h0
    · -- the store to `x`
      obtain ⟨hh, hc, rfl, h0, ha0, ht0, ht1⟩ := hat
      rw [hh] at hs
      obtain ⟨c', he, rfl⟩ := step_op rfl hs
      obtain ⟨rfl, rfl⟩ := Op.exec_sd_ok he
      rw [ha0, ht0, off_zero]
      refine ⟨.arrived ⟨31, by decide, rfl, rfl, hc.congr rfl rfl, rfl, h0, ha0, ht1, ?_⟩,
        sameOthers_store hN (.inl rfl), .inr ?_⟩
      · rw [view_store_x]
      · rw [view_store_x]
        exact .x h0
    · -- the store to `y`
      obtain ⟨hh, hc, rfl, h0, ha0, ht1, hone⟩ := hat
      rw [hh] at hs
      obtain ⟨c', he, rfl⟩ := step_op rfl hs
      obtain ⟨rfl, rfl⟩ := Op.exec_sd_ok he
      rw [ha0, ht1, off_zero]
      refine ⟨comes_barrier (hc.congr rfl rfl) fun hzero => absurd hzero h0,
        sameOthers_store hN (.inr (.inl rfl)), .inr ?_⟩
      rw [view_store_y]
      exact .y h0 hone
    · exact absurd hpck (hbarrier 34 rfl)
    · -- the load of `result`
      obtain ⟨hh, ha0, hone⟩ := hat
      rw [hh] at hs
      obtain ⟨c', he, rfl⟩ := step_op rfl hs
      obtain ⟨rfl, rfl⟩ := Op.exec_ld_ok he
      refine .of_comes (.arrived ⟨38, by decide, rfl, rfl, ?_⟩)
      rw [Text.hartAt_core, Core.get_set _ _ _ _ (by decide), if_pos rfl, ha0, off_zero]
      exact hone
    · -- `ld $ra`
      obtain ⟨hh, ha0⟩ := hat
      rw [hh] at hs
      obtain ⟨c', he, rfl⟩ := step_op rfl hs
      obtain ⟨rfl, rfl⟩ := Op.exec_ld_ok he
      refine .of_comes (.arrived ⟨39, by decide, rfl, rfl, ?_⟩)
      simpa using ha0
    · -- `ld $fp`
      obtain ⟨hh, ha0⟩ := hat
      rw [hh] at hs
      obtain ⟨c', he, rfl⟩ := step_op rfl hs
      obtain ⟨rfl, rfl⟩ := Op.exec_ld_ok he
      refine .of_comes (.of_quiet (quiet_jr_slot watched_lt rfl (by decide))
        (.arrived ⟨41, by decide, rfl, ?_⟩))
      simpa [AtInsn] using ha0
    · exact absurd hpck hlast
  · exact .of_comes hcomes

theorem outline_valid (hN : N ≤ 32) (A : Layout) (F : CapFormat n) :
    (outline A F N).Valid A.toLayout (program A F) where
  view := view_congr
  inv := by
    intro j d d' hacts hinv
    cases hacts with
    | result => exact hinv
    | x => exact fun _ => rfl
    | y _ hx => exact fun _ => hx
  inside := fun _ hacts _ hcomes => hcomes.mono fun _ => At.congr hacts
  released := fun _ _ _ hrel => hrel
  waiting := fun _ _ _ _ => trivial
  done := fun hacts _ hdone h0 => hacts.keeps.2 (hdone h0)
  start := fun _ hcore hsp _ => comes_entry hcore hsp
  step := fun hcomes hinv hpc hs => keeps_step hN hcomes hinv hpc hs
  callGo := by
    intro i calls m m' h h' hcomes hpc hs
    have hpc : h.pc = (testText A).loc 15 := hpc
    obtain ⟨hnpc, hra, hc, rfl, h0⟩ := (hcomes.at_watched (by decide) hpc).at_insn (by decide) hpc
    obtain ⟨rfl, rfl⟩ := step_nop rfl hpc hs
    refine ⟨rfl, ?_, hc, hra, rfl, h0⟩
    rw [hnpc, Text.addr, Text.loc_add_four]
    rfl
  back := by
    rintro i calls d c ⟨rfl, h0⟩ - hc
    exact comes_loop hc h0
  callBarrier := by
    rintro i calls b m m' h h' hcomes ⟨⟩ hpc hs
    have hpc : h.pc = (testText A).loc 34 := hpc
    obtain ⟨-, ha0, hra, hc, rfl, hdone⟩ := (hcomes.at_watched (by decide) hpc).at_insn (by decide) hpc
    obtain ⟨rfl, rfl⟩ := step_nop rfl hpc hs
    refine ⟨rfl, rfl, ?_, hc, hra, trivial, hdone⟩
    rw [A.end_barrier_eq, ha0]
  passed := by
    rintro i b d c ⟨⟩ - - hc hdone
    have hi := i.isLt
    exact comes_passed (hdone ⟨0, by omega⟩ rfl)
  last := by
    rintro i calls m m' h h' - hpc hs
    have hpc : h.pc = (testText A).loc 41 := hpc
    have hlast : (assemble (testText A).code)[41]? = some (.op (.daddiu .sp .sp 16)) := rfl
    simp only [program, Hart.step, hpc, (testText A).fetch_loc hlast, Op.exec, Op.put, Except.ok.injEq,
      Prod.mk.injEq] at hs
    exact hs.2.symm

/-- **Nobody sees the stores in the other order.**  In every state that any
interleaving of `N ≤ 32` cores comes to, `y` is not zero only if `x` is 1; and
a core that is about to return from the test has 1 in `$a0`, as
test_mc_coherence_sequential.py expects. -/
theorem test_mc_coherence_sequential (hN : N ≤ 32) (A : Layout) (F : CapFormat n)
    {s : Harness.Cores n N} (hs : (cores A F N).Reachable s) :
    (s.mem.loadDouble A.y ≠ 0 → s.mem.loadDouble A.x = 1) ∧
      ∀ i, s.stage i = .test → s.inside i = false → (s.hart i).pc = (testText A).loc 41 →
        (s.hart i).core.get .a0 = 1 := by
  have hsound := (outline_valid hN A F).sound hN (fun m hm hy => absurd hm.2.1 hy) hs
  refine ⟨hsound.inv, fun i hstage hin hpc => ?_⟩
  have hcomes : ComesTo A F i (s.calls i) (view A s.mem) (s.hart i) := hsound.inside hstage hin
  exact (hcomes.at_watched (by decide) hpc).at_insn (by decide) hpc

end valid

/-! ### Two cores that take turns -/

/-- Test, library and data at distinct addresses. -/
def exampleLayout : Layout where
  test := 0x10000
  lib := 0x20000
  go := 0x30000
  data := 0x40000
  size := 88
  reset_barrier := 0x50000
  end_barrier := some 0x40058
  stack := 0x200000
  stack_data := by intro a h; bv_omega
  stack_reset := by intro a h; bv_omega
  stack_end := by rintro bar ⟨⟩ a h; bv_omega
  reset_data := by intro a h; bv_omega
  end_data := by rintro bar ⟨⟩ a h; bv_omega
  end_reset := by rintro bar ⟨⟩ a h; bv_omega
  size_eq := rfl
  end_barrier_eq := rfl

/-- The registers of core `i` of two, called to run the test. -/
def exampleCore (i : Fin 2) : Core 32 where
  gpr r := if r = .sp then exampleLayout.sp i else 0
  cap _ := ⟨false, fun _ => 0⟩
  cp0 _ sel := if sel = 6 then BitVec.ofNat 64 (0x10000 + i) else 0
  capCause := 0
  log := []

theorem isCore_exampleCore (i : Fin 2) : IsCore (exampleCore i) i 2 := by
  refine ⟨⟨?_, Nat.zero_le _, by norm_num, by norm_num, ?_, rfl⟩, fun h => absurd h ?_⟩
  · exact Nat.le_of_lt_succ i.isLt
  · revert i
    decide
  · show ¬0#64 &&& 0xff00#64 = 0x8900#64
    decide

/-- Two cores that are about to be called; the second one is waiting in the
reset barrier. -/
def exampleCores : Harness.Cores 32 2 where
  mem := ⟨fun a => if a = 0x50001 then 1 else 0, fun _ => false⟩
  hart i := ⟨exampleCore i, 0, 4⟩
  calls _ := 0
  stored _ := 0
  inside _ := false
  stage _ := .before

/-- Both cores run the test to its last instruction; there each of them has 1
in `$a0`. -/
theorem test_mc_coherence_sequential_two :
    ∃ s, (cores exampleLayout noCaps 2).Reachable s ∧ s.mem.loadDouble exampleLayout.y = 1 ∧
      s.mem.loadDouble exampleLayout.x = 1 ∧
      ∀ i, (s.hart i).pc = (testText exampleLayout).loc 41 ∧ (s.hart i).core.get .a0 = 1 := by
  have h₀ : (cores exampleLayout noCaps 2).Reachable exampleCores := by
    refine .init ⟨by decide, ?_, fun i => ⟨rfl, rfl, rfl, rfl⟩⟩
    rintro bar ⟨⟩
    decide
  have h₁ := h₀.step (.start 0 _ rfl (isCore_exampleCore 0) rfl trivial)
  have h₂ := h₁.step (.start 1 _ rfl (isCore_exampleCore 1) rfl trivial)
  have h₃ := Harness.reachable_turns h₂ ((List.replicate 138 [0, 1]).flatten ++ [0])
  have h := test_mc_coherence_sequential (by decide) exampleLayout noCaps h₃
  refine ⟨_, h₃, by decide +kernel, h.1 (by decide +kernel), fun i => ?_⟩
  refine ⟨?_, h.2 i ?_ ?_ ?_⟩
  all_goals
    revert i
    decide +kernel

end CoherenceSequential

end Cheritest
