/-
Cheritest/Multicore/Outline.lean

Proof outlines of multicore tests.

An `Outline` says what a core knows at each point of a test, in terms of the
data that the cores share, and how each core changes this data.  If every
instruction of a core keeps what the outline says of it, and no change that
one core makes harms what another one knows, then the outline holds in every
reachable state (`Outline.Valid.sound`).  A core that has passed the test's
barrier also knows what every other core did before it: this is where
`thread_barrier` comes in, as the counter barrier that it simulates.
-/
import Cheritest.Multicore.Harness

namespace Cheritest

open Mips

namespace Harness

open Llsc (IsCore Stage GoLabel)

variable {n N : ℕ}

/-! ### What the cores know -/

/-- In the frame of the test. -/
structure InTest (A : Layout) (i : Fin N) (c : Core n) : Prop where
  core : IsCore c i N
  sp : c.get .sp = A.sp i - 16

/-- An annotation of a test.  `Inside` is what a core knows in the test, after
so many calls of the test's barrier, `Released` what it knows in
`other_threads_go`, and `Waiting` in the barrier; `Done` is what it has
brought about before it calls the barrier.  `Acts` is how a core changes the
data. -/
structure Outline (n N : ℕ) where
  Data : Type
  view : Mem → Data
  Inv : Data → Prop
  Acts : Fin N → Data → Data → Prop
  Inside : Fin N → ℕ → Data → Hart n → Prop
  Released : Fin N → ℕ → Data → Prop
  Waiting : Fin N → Data → Prop
  Done : Fin N → Data → Prop

/-- The annotation is right. -/
structure Outline.Valid (O : Outline n N) (A : Layout) (P : Program n) : Prop where
  view : ∀ {m m'}, SameData A n m m' → O.view m' = O.view m
  inv : ∀ {j d d'}, O.Acts j d d' → O.Inv d → O.Inv d'
  inside : ∀ {i j k d d' h}, i ≠ j → O.Acts j d d' → O.Inv d → O.Inside i k d h → O.Inside i k d' h
  released : ∀ {i j k d d'}, i ≠ j → O.Acts j d d' → O.Inv d → O.Released i k d → O.Released i k d'
  waiting : ∀ {i j d d'}, i ≠ j → O.Acts j d d' → O.Inv d → O.Waiting i d → O.Waiting i d'
  done : ∀ {i j d d'}, O.Acts j d d' → O.Inv d → O.Done i d → O.Done i d'
  start : ∀ {i : Fin N} {d} {c : Core n}, O.Inv d → IsCore c i N → c.get .sp = A.sp i → P.Ready c →
    O.Inside i 0 d (P.hartAt 0 c)
  step : ∀ {i k m m'} {h h' : Hart n}, O.Inside i k (O.view m) h → O.Inv (O.view m) →
    P.Ordinary h.pc → P.step h m = .ok (h', m') →
    O.Inside i k (O.view m') h' ∧ SameOthers A i m m' ∧
      (O.view m' = O.view m ∨ O.Acts i (O.view m) (O.view m'))
  callGo : ∀ {i k m m'} {h h' : Hart n}, O.Inside i k (O.view m) h → h.pc = P.loc P.callGo →
    P.step h m = .ok (h', m') →
    m' = m ∧ h' = (goText A).hartAt 0 h'.core ∧ InTest A i h'.core ∧
      h'.core.get .ra = P.loc (P.callGo + 1) ∧ O.Released i k (O.view m)
  back : ∀ {i k d} {c : Core n}, O.Released i k d → O.Inv d → InTest A i c →
    O.Inside i k d (P.hartAt (P.callGo + 1) c)
  callBarrier : ∀ {i k b m m'} {h h' : Hart n}, O.Inside i k (O.view m) h → b ∈ P.callBarrier →
    h.pc = P.loc b → P.step h m = .ok (h', m') →
    k = 0 ∧ m' = m ∧ A.end_barrier = some (h'.core.get .a0) ∧ InTest A i h'.core ∧
      h'.core.get .ra = P.loc (b + 1) ∧ O.Waiting i (O.view m) ∧ O.Done i (O.view m)
  passed : ∀ {i b d} {c : Core n}, b ∈ P.callBarrier → O.Waiting i d → O.Inv d → InTest A i c →
    (∀ j, O.Done j d) → O.Inside i 1 d (P.hartAt (b + 1) c)
  last : ∀ {i k m m'} {h h' : Hart n}, O.Inside i k (O.view m) h → h.pc = P.loc P.last →
    P.step h m = .ok (h', m') → m' = m

/-! ### Where a core is -/

variable {O : Outline n N} {A : Layout} {P : Program n} {F : CapFormat n} {i j : Fin N}
  {s s' : Cores n N} {c c₀ c' : Core n} {x x' : Hart n} {m m' : Mem} {ra b : BitVec 64}

/-- Called by the test, to return to `ra`. -/
structure FromTest (A : Layout) (i : Fin N) (ra : BitVec 64) (c : Core n) : Prop extends InTest A i c
    where
  ra : c.get .ra = ra

/-- About to jump to the barrier. -/
def AtJump (A : Layout) (i : Fin N) (ra : BitVec 64) (x : Hart n) : Prop :=
  x.pc = (goText A).loc 2 ∧ x.npc = (barrierText A.lib).addr .thread_barrier ∧
    x.core.get .a0 = A.reset_barrier ∧ FromTest A i ra x.core

/-- Core `i` is somewhere, and what the outline says of this place holds. -/
inductive CoreAt (O : Outline n N) (A : Layout) (P : Program n) (F : CapFormat n) (i : Fin N)
    (s : Cores n N) : Prop
  | before : s.stage i = .before → s.inside i = false → s.calls i = 0 → CoreAt O A P F i s
  | test : s.stage i = .test → s.inside i = false →
      O.Inside i (s.calls i) (O.view s.mem) (s.hart i) → CoreAt O A P F i s
  | go : s.stage i = .go → s.inside i = false →
      Comes (goText A) F [2] (AtJump A i (P.loc (P.callGo + 1))) (s.hart i) →
      O.Released i (s.calls i) (O.view s.mem) → CoreAt O A P F i s
  | reset (c₀ : Core n) : s.stage i = .reset → s.inside i = false →
      FromTest A i (P.loc (P.callGo + 1)) c₀ →
      Calling A.lib A.reset_barrier F i c₀ (s.hart i) s.mem →
      O.Released i (s.calls i) (O.view s.mem) → CoreAt O A P F i s
  | barrier (k : ℕ) (bar : BitVec 64) (c₀ : Core n) : s.stage i = .test → s.inside i = true →
      k ∈ P.callBarrier → bar ∈ A.end_barrier → FromTest A i (P.loc (k + 1)) c₀ →
      Calling A.lib bar F i c₀ (s.hart i) s.mem → s.calls i = 1 →
      O.Waiting i (O.view s.mem) → CoreAt O A P F i s
  | after : s.stage i = .after → s.inside i = false → CoreAt O A P F i s

/-- The outline holds. -/
structure Sound (O : Outline n N) (A : Layout) (P : Program n) (F : CapFormat n) (s : Cores n N) :
    Prop where
  inv : O.Inv (O.view s.mem)
  done : ∀ j, s.calls j = 0 ∨ O.Done j (O.view s.mem)
  core : ∀ j, CoreAt O A P F j s
  barrier : ∀ bar ∈ A.end_barrier, (barrierMachine A.lib F bar N).Reachable s.toMachine

/-! ### What a core leaves to the others -/

theorem InTest.congr (h : InTest A i c) (hsp : c'.get .sp = c.get .sp) (hcp0 : c'.cp0 = c.cp0) :
    InTest A i c' := ⟨h.core.congr hcp0, hsp.trans h.sp⟩

/-- The saved registers of a call lie in the stack of the core. -/
theorem FromTest.inStack (h : FromTest A i ra c₀) (hb : (b - (c₀.get .sp - 16)).toNat < 16) :
    A.InStack i b := by
  rw [h.sp] at hb
  unfold Layout.InStack
  bv_omega

theorem FromTest.clear (h : FromTest A i ra c₀) (hb : ¬ A.InStack i b) :
    16 ≤ (b - (c₀.get .sp - 16)).toNat := by
  by_contra hlt
  exact hb (h.inStack (by omega))

/-- Core `j` and what it knows are left alone. -/
structure Undisturbed (O : Outline n N) (A : Layout) (j : Fin N) (s s' : Cores n N) : Prop where
  calls : s'.calls j = s.calls j
  stage : s'.stage j = s.stage j
  inside : s'.inside j = s.inside j
  hart : s'.hart j = s.hart j
  stack : ∀ a, A.InStack j a → s'.mem.byte a = s.mem.byte a
  acts : O.view s'.mem = O.view s.mem ∨ ∃ i ≠ j, O.Acts i (O.view s.mem) (O.view s'.mem)

theorem CoreAt.congr (hv : O.Valid A P) (hinv : O.Inv (O.view s.mem)) (hu : Undisturbed O A j s s')
    (h : CoreAt O A P F j s) : CoreAt O A P F j s' := by
  -- what core `j` relies on is not undone by the step of another core
  have hreleased {k : ℕ} (hr : O.Released j k (O.view s.mem)) : O.Released j k (O.view s'.mem) := by
    rcases hu.acts with heq | ⟨i, hij, hacts⟩
    · rwa [heq]
    · exact hv.released hij.symm hacts hinv hr
  -- one case for each place of a core: its own state is untouched, so only memory is at stake
  cases h with
  | before hstage hin hcalls =>
    exact .before (hu.stage.trans hstage) (hu.inside.trans hin) (hu.calls.trans hcalls)
  | test hstage hin hinside =>
    refine .test (hu.stage.trans hstage) (hu.inside.trans hin) ?_
    rw [hu.hart, hu.calls]
    rcases hu.acts with heq | ⟨i, hij, hacts⟩
    · rwa [heq]
    · exact hv.inside hij.symm hacts hinv hinside
  | go hstage hin hcomes hrel =>
    refine .go (hu.stage.trans hstage) (hu.inside.trans hin) ?_ ?_
    · rwa [hu.hart]
    · rw [hu.calls]
      exact hreleased hrel
  | reset c₀ hstage hin hfrom hcall hrel =>
    refine .reset c₀ (hu.stage.trans hstage) (hu.inside.trans hin) hfrom ?_ ?_
    · rw [hu.hart]
      exact hcall.congr fun a ha => hu.stack a (hfrom.inStack ha)
    · rw [hu.calls]
      exact hreleased hrel
  | barrier k bar c₀ hstage hin hk hbar hfrom hcall hcalls hwait =>
    refine .barrier k bar c₀ (hu.stage.trans hstage) (hu.inside.trans hin) hk hbar hfrom ?_
      (hu.calls.trans hcalls) ?_
    · rw [hu.hart]
      exact hcall.congr fun a ha => hu.stack a (hfrom.inStack ha)
    · rcases hu.acts with heq | ⟨i, hij, hacts⟩
      · rwa [heq]
      · exact hv.waiting hij.symm hacts hinv hwait
  | after hstage hin => exact .after (hu.stage.trans hstage) (hu.inside.trans hin)

theorem SameOthers.refl : SameOthers A i m m := ⟨fun _ _ _ _ => rfl, fun _ _ _ _ => rfl⟩

/-- A step of core `i`, outside of the test's barrier. -/
theorem Sound.moved (hv : O.Valid A P) (h : Sound O A P F s) (hin : s.inside i = false)
    (hothers : SameOthers A i s.mem m)
    (hacts : O.view m = O.view s.mem ∨ O.Acts i (O.view s.mem) (O.view m))
    (hmachine : s'.toMachine = { s.toMachine with mem := m, hart := Function.update s.hart i x })
    (hstage : ∀ j, j ≠ i → s'.stage j = s.stage j) (hcore : CoreAt O A P F i s') :
    Sound O A P F s' := by
  have hmem : s'.mem = m := by rw [hmachine]
  have hcalls : s'.calls = s.calls := by rw [hmachine]
  have hinside : s'.inside = s.inside := by rw [hmachine]
  have hhart : s'.hart = Function.update s.hart i x := by rw [hmachine]
  constructor
  case inv =>
    rw [hmem]
    rcases hacts with heq | hacts
    · rw [heq]
      exact h.inv
    · exact hv.inv hacts h.inv
  case done =>
    intro j
    rw [hcalls, hmem]
    refine (h.done j).imp_right fun hd => ?_
    rcases hacts with heq | hacts
    · rwa [heq]
    · exact hv.done hacts h.inv hd
  case core =>
    intro j
    by_cases hji : j = i
    · subst hji
      exact hcore
    · -- the other cores see at most an allowed change of the data
      refine (h.core j).congr hv h.inv ⟨congrFun hcalls j, hstage j hji, congrFun hinside j, ?_, ?_, ?_⟩
      · rw [hhart, Function.update_of_ne hji]
      · intro a ha
        rw [hmem]
        exact hothers.stack j hji a ha
      · rw [hmem]
        exact hacts.imp_right fun hacts => ⟨i, Ne.symm hji, hacts⟩
  case barrier =>
    intro bar hbar
    refine (h.barrier bar hbar).step ?_
    rw [hmachine]
    exact .other i x m hin fun j hj => hothers.counter bar hbar j hj

/-- A step of core `i` that leaves the test's data alone. -/
theorem Sound.stays (hv : O.Valid A P) (h : Sound O A P F s) (hin : s.inside i = false)
    (hothers : SameOthers A i s.mem m) (hview : O.view m = O.view s.mem)
    (hmachine : s'.toMachine = { s.toMachine with mem := m, hart := Function.update s.hart i x })
    (hstage : ∀ j, j ≠ i → s'.stage j = s.stage j) (hcore : CoreAt O A P F i s') :
    Sound O A P F s' := h.moved hv hin hothers (.inl hview) hmachine hstage hcore

/-- A step that leads to another stage, and leaves memory alone. -/
theorem Sound.entered (hv : O.Valid A P) (h : Sound O A P F s) (hin : s.inside i = false) {p : Stage}
    (hcore : CoreAt O A P F i ((s.move i x s.mem).enter i p)) :
    Sound O A P F ((s.move i x s.mem).enter i p) :=
  h.stays hv hin .refl rfl rfl (fun _ hji => Function.update_of_ne hji ..) hcore

/-! ### Stores of the test -/

/-- Saving a register in the frame of the test. -/
theorem save_register (hN : N ≤ 32) {sp v : BitVec 64} (hsp : sp = A.sp i - 16) {off : BitVec 16}
    (hoff : off = 8 ∨ off = 0) :
    SameData A n m (m.storeDouble n (sp + off.signExtend 64) v) ∧
      SameOthers A i m (m.storeDouble n (sp + off.signExtend 64) v) := by
  have hi := i.isLt
  have h8 : (8 : BitVec 16).signExtend 64 = 8#64 := by decide
  have h0 : (0 : BitVec 16).signExtend 64 = 0#64 := by decide
  -- both slots lie in the stack of core `i`
  have hin (b : BitVec 64) (hb : (b - (sp + off.signExtend 64)).toNat < 8) : A.InStack i b := by
    unfold Layout.InStack
    rcases hoff with rfl | rfl
    · rw [hsp, h8] at hb
      bv_omega
    · rw [hsp, h0] at hb
      bv_omega
  have hbyte (b : BitVec 64) (hb : ¬ A.InStack i b) :
      (m.storeDouble n (sp + off.signExtend 64) v).byte b = m.byte b := by
    apply Mem.storeDouble_byte
    by_contra hlt
    exact hb (hin b (by omega))
  refine ⟨⟨fun b hb => hbyte b fun hst => ?_, fun g hg => ?_⟩, fun bar hbar j hj => hbyte _ ?_,
    fun j hji b hb => hbyte b fun hst => ?_⟩
  · have := hst.not_data (by omega)
    omega
  · apply Function.update_of_ne
    rintro rfl
    have hself := hin (sp + off.signExtend 64) (by rw [BitVec.sub_self]; decide)
    exact absurd (hg _ rfl) (by have := hself.not_data (by omega); omega)
  · exact Layout.end_not_inStack hbar (by omega) (by omega)
  · have hj := j.isLt
    exact hji (Fin.ext (hb.unique (by omega) (by omega) hst))

/-- A store to the data leaves the counters and the stacks alone. -/
theorem sameOthers_of_data (hN : N ≤ 32)
    (h : ∀ b : BitVec 64, A.size ≤ (b - A.data).toNat → m'.byte b = m.byte b) : SameOthers A i m m' := by
  constructor
  · intro bar hbar j hj
    apply h
    apply A.end_data bar hbar
    rw [Layout.counter_toNat (by omega)]
    omega
  · intro j _ a ha
    have hj := j.isLt
    exact h a (ha.not_data (by omega))

/-! ### The barriers -/

/-- A call of the barrier `bar` leaves the data alone. -/
theorem sameData_of_call {bar : BitVec 64} (hN : N ≤ 32) (hfrom : FromTest A i ra c₀)
    (hbar : ∀ a : BitVec 64, (a - bar).toNat < 32 → A.size ≤ (a - A.data).toNat)
    (hspares : Spares bar i c₀ m m') (hstores : Stores bar i c₀ m m') : SameData A n m m' := by
  have hi := i.isLt
  have hsaved (a : BitVec 64) (ha : (a - (c₀.get .sp - 16)).toNat < 16) :
      A.size ≤ (a - A.data).toNat := (hfrom.inStack ha).not_data (by omega)
  have hcounter : A.size ≤ (counterAddr bar i - A.data).toNat := by
    apply hbar
    rw [Layout.counter_toNat (show (i : ℕ) < 32 by omega)]
    omega
  have htag {a : BitVec 64} (ha : A.size ≤ (a - A.data).toNat) (g : ℕ) (v : Bool)
      (hg : ∀ a : BitVec 64, a.toNat / n = g → (a - A.data).toNat < A.size) :
      Function.update m.tag (a.toNat / n) v g = m.tag g := by
    apply Function.update_of_ne
    rintro rfl
    exact absurd (hg a rfl) (by omega)
  constructor
  · intro a ha
    apply hspares
    · by_contra hlt
      have := hsaved a (by omega)
      omega
    · rintro rfl
      omega
  · intro g hg
    -- a saved register or a counter: neither lies in the data, so no tag of the data is cleared
    cases hstores with
    | none heq => rw [heq]
    | saved a v ha heq =>
      rw [heq]
      refine htag (hsaved a ?_) g false hg
      rcases ha with rfl | rfl <;> bv_omega
    | counter v heq =>
      rw [heq]
      exact htag hcounter g false hg

/-- It leaves the other cores' stacks alone, if its counters do not lie
there. -/
theorem stack_of_spares {bar a : BitVec 64} (hN : N ≤ 32) (hfrom : FromTest A i ra c₀)
    (h : Spares bar i c₀ m m') (hji : j ≠ i) (hbar : ¬ A.InStack j (counterAddr bar i))
    (ha : A.InStack j a) : m'.byte a = m.byte a := by
  have hi := i.isLt
  have hj := j.isLt
  apply h
  · exact hfrom.clear fun hin => hji (Fin.ext (ha.unique (by omega) (by omega) hin))
  · rintro rfl
    exact hbar ha

theorem sameOthers_of_reset (hN : N ≤ 32) (hfrom : FromTest A i ra c₀)
    (h : Spares A.reset_barrier i c₀ m m') : SameOthers A i m m' := by
  have hi := i.isLt
  constructor
  · intro bar hbar j hj
    have hcounter : (counterAddr bar j - bar).toNat = j := Layout.counter_toNat (by omega)
    apply h
    · exact hfrom.clear (Layout.end_not_inStack hbar (by omega) (by omega))
    · intro heq
      have hfar := A.end_reset bar hbar (counterAddr bar j) (by omega)
      rw [heq, Layout.counter_toNat (by omega)] at hfar
      omega
  · intro j hji a ha
    have hj := j.isLt
    exact stack_of_spares hN hfrom h hji (Layout.reset_not_inStack (by omega) (by omega)) ha

/-- From the call of `other_threads_go` to its jump. -/
theorem comes_jump (hc : FromTest A i ra c) :
    Comes (goText A) F [2] (AtJump A i ra) ((goText A).hartAt 0 c) := by
  have hlt : ∀ k ∈ [2], k < 2 ^ 60 := by decide
  refine .of_quiet (quiet_op hlt rfl (by decide) (fun _ => rfl)) ?_
  refine .of_quiet (quiet_j hlt rfl (by decide)) ?_
  refine .arrived ⟨rfl, rfl, ?_, hc.toInTest.congr ?_ rfl, ?_⟩
  · simp
  · simp
  · simpa using hc.ra

/-! ### One lemma for each step -/

theorem Sound.inside (h : Sound O A P F s) (hstage : s.stage i = .test) (hin : s.inside i = false) :
    O.Inside i (s.calls i) (O.view s.mem) (s.hart i) := by
  cases h.core i with
  | test _ _ hinside => exact hinside
  | barrier _ _ _ _ hin' => rw [hin] at hin'; cases hin'
  | before hs => rw [hstage] at hs; cases hs
  | go hs => rw [hstage] at hs; cases hs
  | reset _ hs => rw [hstage] at hs; cases hs
  | after hs => rw [hstage] at hs; cases hs

theorem Sound.step_outside (hv : O.Valid A P) (h : Sound O A P F s)
    (hstage : s.stage i = .before ∨ s.stage i = .after) (hdata : SameData A n s.mem m)
    (hothers : SameOthers A i s.mem m) : Sound O A P F (s.move i x m) := by
  cases h.core i with
  | before hb hin hcalls =>
    exact h.stays hv hin hothers (hv.view hdata) rfl (fun _ _ => rfl) (.before hb hin hcalls)
  | after ha hin => exact h.stays hv hin hothers (hv.view hdata) rfl (fun _ _ => rfl) (.after ha hin)
  | test ht => rw [ht] at hstage; simp at hstage
  | go ht => rw [ht] at hstage; simp at hstage
  | reset _ ht => rw [ht] at hstage; simp at hstage
  | barrier _ _ _ ht => rw [ht] at hstage; simp at hstage

theorem Sound.step_start (hv : O.Valid A P) (h : Sound O A P F s) (hstage : s.stage i = .before)
    (hid : IsCore c i N) (hsp : c.get .sp = A.sp i) (hready : P.Ready c) :
    Sound O A P F ((s.move i (P.hartAt 0 c) s.mem).enter i .test) := by
  cases h.core i with
  | before _ hin hcalls =>
    refine h.entered hv hin (.test (Cores.enter_stage ..) hin ?_)
    rw [Cores.enter_hart, Cores.move_hart]
    show O.Inside i (s.calls i) (O.view s.mem) (P.hartAt 0 c)
    rw [hcalls]
    exact hv.start h.inv hid hsp hready
  | test ht => rw [ht] at hstage; cases hstage
  | go ht => rw [ht] at hstage; cases hstage
  | reset _ ht => rw [ht] at hstage; cases hstage
  | barrier _ _ _ ht => rw [ht] at hstage; cases hstage
  | after ht => rw [ht] at hstage; cases hstage

theorem Sound.step_insn (hv : O.Valid A P) (h : Sound O A P F s) (hstage : s.stage i = .test)
    (hin : s.inside i = false) (hpc : P.Ordinary (s.hart i).pc)
    (hs : P.step (s.hart i) s.mem = .ok (x', m')) : Sound O A P F (s.move i x' m') := by
  obtain ⟨hinside, hothers, hacts⟩ := hv.step (h.inside hstage hin) h.inv hpc hs
  refine h.moved hv hin hothers hacts rfl (fun _ _ => rfl) (.test hstage hin ?_)
  rw [Cores.move_hart]
  exact hinside

theorem Sound.step_call_go (hv : O.Valid A P) (h : Sound O A P F s) (hstage : s.stage i = .test)
    (hin : s.inside i = false) (hpc : (s.hart i).pc = P.loc P.callGo)
    (hs : P.step (s.hart i) s.mem = .ok (x', m')) : Sound O A P F ((s.move i x' m').enter i .go) := by
  obtain ⟨rfl, hx, hc, hra, hrel⟩ := hv.callGo (h.inside hstage hin) hpc hs
  refine h.entered hv hin (.go (Cores.enter_stage ..) hin ?_ hrel)
  rw [Cores.enter_hart, Cores.move_hart, hx]
  exact comes_jump ⟨hc, hra⟩

theorem Sound.step_go (hv : O.Valid A P) (h : Sound O A P F s) (hstage : s.stage i = .go)
    (hpc : (s.hart i).pc ≠ (goText A).loc 2)
    (hs : (s.hart i).step (goText A) F s.mem = .ok (x', m')) : Sound O A P F (s.move i x' m') := by
  cases h.core i with
  | go _ hin hcomes hrel =>
    obtain ⟨hpc', -⟩ | ⟨rfl, hcomes', -⟩ := hcomes.step hs
    · exact absurd hpc' hpc
    · refine h.stays hv hin .refl rfl rfl (fun _ _ => rfl) (.go hstage hin ?_ hrel)
      rwa [Cores.move_hart]
  | before ht => rw [ht] at hstage; cases hstage
  | test ht => rw [ht] at hstage; cases hstage
  | reset _ ht => rw [ht] at hstage; cases hstage
  | barrier _ _ _ ht => rw [ht] at hstage; cases hstage
  | after ht => rw [ht] at hstage; cases hstage

theorem Sound.step_call_reset (hv : O.Valid A P) (h : Sound O A P F s) (hstage : s.stage i = .go)
    (hpc : (s.hart i).pc = (goText A).loc 2)
    (hs : (s.hart i).step (goText A) F s.mem = .ok (x', m')) :
    Sound O A P F ((s.move i x' m').enter i .reset) := by
  cases h.core i with
  | go _ hin hcomes hrel =>
    obtain ⟨-, hnpc, ha0, hfrom⟩ := hcomes.at_watched (by decide) hpc
    obtain ⟨rfl, rfl⟩ := step_nop rfl hpc hs
    refine h.entered hv hin (.reset (s.hart i).core (Cores.enter_stage ..) hin hfrom (.saves ?_) hrel)
    have hnext : (⟨(s.hart i).core, (s.hart i).npc, (s.hart i).npc + 4⟩ : Hart n)
        = (barrierText A.lib).hartAt 19 (s.hart i).core := by
      rw [hnpc, Text.addr, Text.loc_add_four]
      rfl
    rw [Cores.enter_hart, Cores.move_hart, hnext]
    exact heads_prelude ha0
  | before ht => rw [ht] at hstage; cases hstage
  | test ht => rw [ht] at hstage; cases hstage
  | reset _ ht => rw [ht] at hstage; cases hstage
  | barrier _ _ _ ht => rw [ht] at hstage; cases hstage
  | after ht => rw [ht] at hstage; cases hstage

theorem Sound.step_reset (hN : N ≤ 32) (hv : O.Valid A P) (h : Sound O A P F s)
    (hstage : s.stage i = .reset) (hpc : (s.hart i).pc ≠ (barrierText A.lib).loc 43)
    (hs : (s.hart i).step (barrierText A.lib) F s.mem = .ok (x', m')) :
    Sound O A P F (s.move i x' m') := by
  have hi := i.isLt
  cases h.core i with
  | reset c₀ _ hin hfrom hcall hrel =>
    have hclear := hfrom.clear
      (Layout.reset_not_inStack (A := A) (i := i) (j := i) (by omega) (by omega))
    obtain ⟨-, hcall', hspares⟩ | ⟨hpc', -⟩ := hcall.step hN hfrom.core.corethread hclear hs
    · have hdata := sameData_of_call hN hfrom A.reset_data hspares (hcall.stores hs)
      refine h.stays hv hin (sameOthers_of_reset hN hfrom hspares) (hv.view hdata) rfl
        (fun _ _ => rfl) (.reset c₀ hstage hin hfrom ?_ ?_)
      · rwa [Cores.move_hart]
      · show O.Released i (s.calls i) (O.view m')
        rwa [hv.view hdata]
    · exact absurd hpc' hpc
  | before ht => rw [ht] at hstage; cases hstage
  | test ht => rw [ht] at hstage; cases hstage
  | go ht => rw [ht] at hstage; cases hstage
  | barrier _ _ _ ht => rw [ht] at hstage; cases hstage
  | after ht => rw [ht] at hstage; cases hstage

/-- Back in the test after a call. -/
theorem hartAt_of_return {k : ℕ} (hfrom : FromTest A i (P.loc k) c₀) (hpc : x.pc = c₀.get .ra)
    (hnpc : x.npc = c₀.get .ra + 4) : x = P.hartAt k x.core := by
  obtain ⟨c, pc, npc⟩ := x
  simp only at hpc hnpc
  rw [hpc, hnpc, hfrom.ra, P.loc_add_four]
  rfl

theorem Sound.step_return_reset (hN : N ≤ 32) (hv : O.Valid A P) (h : Sound O A P F s)
    (hstage : s.stage i = .reset) (hpc : (s.hart i).pc = (barrierText A.lib).loc 43)
    (hs : (s.hart i).step (barrierText A.lib) F s.mem = .ok (x', m')) :
    Sound O A P F ((s.move i x' m').enter i .test) := by
  have hi := i.isLt
  cases h.core i with
  | reset c₀ _ hin hfrom hcall hrel =>
    have hclear := hfrom.clear
      (Layout.reset_not_inStack (A := A) (i := i) (j := i) (by omega) (by omega))
    obtain ⟨hpc', -⟩ | ⟨-, rfl, hra, hnpc, hsp, hcp0⟩ := hcall.step hN hfrom.core.corethread hclear hs
    · exact absurd hpc hpc'
    · refine h.entered hv hin (.test (Cores.enter_stage ..) hin ?_)
      rw [Cores.enter_hart, Cores.move_hart, hartAt_of_return hfrom hra hnpc]
      exact hv.back hrel h.inv (hfrom.toInTest.congr hsp hcp0)
  | before ht => rw [ht] at hstage; cases hstage
  | test ht => rw [ht] at hstage; cases hstage
  | go ht => rw [ht] at hstage; cases hstage
  | barrier _ _ _ ht => rw [ht] at hstage; cases hstage
  | after ht => rw [ht] at hstage; cases hstage

/-! #### Over the test's barrier -/

theorem Sound.step_call_barrier (hN : N ≤ 32) (hv : O.Valid A P) (h : Sound O A P F s)
    (hstage : s.stage i = .test) (hin : s.inside i = false) {k : ℕ} (hk : k ∈ P.callBarrier)
    (hpc : (s.hart i).pc = P.loc k) (hs : P.step (s.hart i) s.mem = .ok (x', m')) :
    Sound O A P F { s with toMachine := s.toMachine.call (barrierText A.lib) i x'.core } := by
  have hi := i.isLt
  obtain ⟨hcalls, rfl, hbar, hc, hra, hwait, hdone⟩ := hv.callBarrier (h.inside hstage hin) hk hpc hs
  have hfrom : FromTest A i (P.loc (k + 1)) x'.core := ⟨hc, hra⟩
  constructor
  case inv => exact h.inv
  case done =>
    intro j
    by_cases hji : j = i
    · exact .inr (hji ▸ hdone)
    · simp only [Machine.call, Function.update_of_ne hji]
      exact h.done j
  case core =>
    intro j
    by_cases hji : j = i
    · subst hji
      -- the core starts the call with its registers to save
      refine .barrier k _ x'.core hstage (Function.update_self ..) hk hbar hfrom (.saves ?_) ?_ hwait
      · simp only [Machine.call, Function.update_self]
        exact heads_prelude rfl
      · simp only [Machine.call, Function.update_self, hcalls]
    · exact (h.core j).congr hv h.inv ⟨Function.update_of_ne hji .., rfl, Function.update_of_ne hji ..,
        Function.update_of_ne hji .., fun _ _ => rfl, .inl rfl⟩
  case barrier =>
    intro bar hbar'
    obtain rfl : x'.core.get .a0 = bar := Option.some.inj (hbar.symm.trans hbar')
    refine (h.barrier _ hbar').step (.call i _ hin (by omega) hc.core.corethread rfl ?_)
    exact fun j hj => hfrom.clear (Layout.end_not_inStack hbar' (by omega) (by omega))

/-- Whoever returns from the barrier knows what all have brought about. -/
theorem Sound.all_done (hN : N ≤ 32) (h : Sound O A P F s) {bar : BitVec 64} (hbar : bar ∈ A.end_barrier)
    (hin : s.inside i = true) (hpc : (s.hart i).pc = (barrierText A.lib).loc 43)
    (hcalls : s.calls i = 1) : ∀ j, O.Done j (O.view s.mem) := by
  obtain ⟨b, -, hsim⟩ := (simulates hN).reachable (h.barrier bar hbar)
  intro j
  -- who returns has seen every counter raised, so every core has called
  have hstored := (hsim.at_return hin hpc).2 j
  have hle := hsim.counter_le j
  rw [← hsim.stored, ← hsim.calls] at hle
  exact (h.done j).resolve_left (by omega)

theorem Sound.step_barrier (hN : N ≤ 32) (hv : O.Valid A P) (h : Sound O A P F s)
    (hin : s.inside i = true) (hs : (s.hart i).step (barrierText A.lib) F s.mem = .ok (x', m')) :
    Sound O A P F { s with toMachine := s.toMachine.run (barrierText A.lib) i x' m' } := by
  have hi := i.isLt
  cases h.core i with
  | barrier k bar c₀ hstage _ hk hbar hfrom hcall hcalls hwait =>
    have hend (j : Fin N) : ¬ A.InStack j (counterAddr bar i) :=
      Layout.end_not_inStack hbar (by omega) (by omega)
    have hbarrier (bar' : BitVec 64) (hbar' : bar' ∈ A.end_barrier) :
        (barrierMachine A.lib F bar' N).Reachable (s.toMachine.run (barrierText A.lib) i x' m') :=
      (h.barrier bar' hbar').step (.run i hin hs)
    obtain ⟨hpc, hcall', hspares⟩ | ⟨hpc, rfl, hra, hnpc, hsp, hcp0⟩ :=
      hcall.step hN hfrom.core.corethread (hfrom.clear (hend i)) hs
    · -- inside of the barrier: it stores beside the data
      have hview := hv.view (sameData_of_call hN hfrom (A.end_data bar hbar) hspares (hcall.stores hs))
      have hinside : (s.toMachine.run (barrierText A.lib) i x' m').inside = s.inside := if_neg hpc
      constructor
      case inv =>
        show O.Inv (O.view m')
        rw [hview]
        exact h.inv
      case done =>
        intro j
        show s.calls j = 0 ∨ O.Done j (O.view m')
        rw [hview]
        exact h.done j
      case core =>
        intro j
        by_cases hji : j = i
        · subst hji
          refine .barrier k bar c₀ hstage ((congrFun hinside j).trans hin) hk hbar hfrom ?_ hcalls ?_
          · show Calling _ _ _ _ _ (Function.update s.hart j x' j) _
            rwa [Function.update_self]
          · show O.Waiting j (O.view m')
            rwa [hview]
        · exact (h.core j).congr hv h.inv ⟨rfl, rfl, congrFun hinside j, Function.update_of_ne hji ..,
            fun a ha => stack_of_spares hN hfrom hspares hji (hend j) ha, .inl hview⟩
      case barrier => exact hbarrier
    · -- back in the test
      have hall := h.all_done hN hbar hin hpc hcalls
      constructor
      case inv => exact h.inv
      case done => exact h.done
      case core =>
        intro j
        by_cases hji : j = i
        · subst hji
          refine .test hstage ?_ ?_
          · simp [Machine.run, hpc]
          · simp only [Machine.run, Function.update_self]
            rw [hartAt_of_return hfrom hra hnpc, hcalls]
            exact hv.passed hk hwait h.inv (hfrom.toInTest.congr hsp hcp0) hall
        · refine (h.core j).congr hv h.inv ⟨rfl, rfl, ?_, ?_, fun _ _ => rfl, .inl rfl⟩
          · simp [Machine.run, hpc, Function.update_of_ne hji]
          · exact Function.update_of_ne hji ..
      case barrier => exact hbarrier
  | before _ hin' => rw [hin] at hin'; cases hin'
  | test _ hin' => rw [hin] at hin'; cases hin'
  | go _ hin' => rw [hin] at hin'; cases hin'
  | reset _ _ hin' => rw [hin] at hin'; cases hin'
  | after _ hin' => rw [hin] at hin'; cases hin'

theorem Sound.step_return (hv : O.Valid A P) (h : Sound O A P F s) (hstage : s.stage i = .test)
    (hin : s.inside i = false) (hpc : (s.hart i).pc = P.loc P.last)
    (hs : P.step (s.hart i) s.mem = .ok (x', m')) : Sound O A P F ((s.move i x' m').enter i .after) := by
  obtain rfl := hv.last (h.inside hstage hin) hpc hs
  exact h.entered hv hin (.after (Cores.enter_stage ..) hin)

/-! ### All runs -/

/-- **A valid outline holds** in every reachable state, for every number of
cores up to 32 and every order of their steps. -/
theorem Outline.Valid.sound (hN : N ≤ 32) (hv : O.Valid A P) {Start : Mem → Prop}
    (hstart : ∀ m, Start m → O.Inv (O.view m)) (hs : (harness A P F Start N).Reachable s) :
    Sound O A P F s := by
  refine hs.invariant (I := Sound O A P F) ?_ ?_
  · rintro s ⟨hdata, hcounters, hcores⟩
    constructor
    case inv => exact hstart _ hdata
    case done => exact fun j => .inl (hcores j).2.2.1
    case core => exact fun j => .before (hcores j).1 (hcores j).2.1 (hcores j).2.2.1
    case barrier =>
      refine fun bar hbar => .init ⟨hcounters bar hbar, fun i => ?_⟩
      obtain ⟨-, hin, hcalls, hstored⟩ := hcores i
      exact ⟨hcalls, hstored, hin⟩
  · rintro s s' h hstep
    cases hstep with
    | outside i x m hstage hdata hothers => exact h.step_outside hv hstage hdata hothers
    | start i c hstage hid hsp hready => exact h.step_start hv hstage hid hsp hready
    | insn i hstage hin hpc hs => exact h.step_insn hv hstage hin hpc hs
    | call_go i hstage hin hpc hs => exact h.step_call_go hv hstage hin hpc hs
    | go i hstage hpc hs => exact h.step_go hv hstage hpc hs
    | call_reset i hstage hpc hs => exact h.step_call_reset hv hstage hpc hs
    | reset i hstage hpc hs => exact h.step_reset hN hv hstage hpc hs
    | return_reset i hstage hpc hs => exact h.step_return_reset hN hv hstage hpc hs
    | call_barrier i hstage hin hk hpc hs => exact h.step_call_barrier hN hv hstage hin hk hpc hs
    | barrier i hin hs => exact h.step_barrier hN hv hin hs
    | «return» i hstage hin hpc hs => exact h.step_return hv hstage hin hpc hs

end Harness

end Cheritest
