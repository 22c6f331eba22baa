/-
Cheritest/Mips/Run.lean

One step of a hardware thread, and runs.

A thread holds the address `pc` of the instruction it executes and the
address `npc` of the one after it.  A branch changes only what follows the
next instruction, so the delay slot needs no rule of its own; a likely
branch that is not taken skips one instruction further.

Runs (`Steps`) stop short of an exception return: `eret` gives control back
to the interrupted program, so a run that has come to it is complete, and
`Returns` says in which state the interrupted program goes on.

Runs are put together from the step lemmas below: `T.at k c m` is the state
about to execute instruction `k` of the text with no branch pending, and the
lemmas lead from one such state to the next, over one operation or over a
branch together with its delay slot.
-/
import Mathlib.Logic.Relation
import Cheritest.Mips.Insn

namespace Mips

/-! ### Texts in memory -/

/-- An assembly text placed at an address. -/
structure Text (L : Type) where
  base : BitVec 64
  code : List (Asm L)
  fits : (assemble code).length < 2 ^ 60

namespace Text

variable {L : Type} (T : Text L)

/-- The address of instruction `k`. -/
def loc (k : ℕ) : BitVec 64 := T.base + BitVec.ofNat 64 (4 * k)

/-- The address of a label. -/
def addr [DecidableEq L] (l : L) : BitVec 64 := T.loc (labelIndex l T.code)

/-- The instruction at an address. -/
def fetch (pc : BitVec 64) : Option (Insn L) :=
  if (pc - T.base).toNat % 4 = 0 then (assemble T.code)[(pc - T.base).toNat / 4]? else none

theorem loc_add_four (k : ℕ) : T.loc k + 4 = T.loc (k + 1) := by
  simp only [loc, Nat.mul_add, BitVec.ofNat_add, BitVec.add_assoc]
  rfl

theorem loc_add_eight (k : ℕ) : T.loc k + 8 = T.loc (k + 2) := by
  rw [← loc_add_four, ← loc_add_four, BitVec.add_assoc]
  rfl

theorem fetch_loc {k : ℕ} {i : Insn L} (h : (assemble T.code)[k]? = some i) :
    T.fetch (T.loc k) = some i := by
  have hk : k < (assemble T.code).length := (List.getElem?_eq_some_iff.mp h).1
  have hd : (T.loc k - T.base).toNat = 4 * k := by
    have := T.fits
    rw [loc, BitVec.add_comm, BitVec.add_sub_cancel, BitVec.toNat_ofNat]
    omega
  rw [fetch, hd, if_pos (by omega), Nat.mul_div_cancel_left k (by omega)]
  exact h

/-- The piece `p` stands in the text from instruction `j` on. -/
def HasAt (j : ℕ) (p : List (Asm L)) : Prop :=
  ∀ i x, (assemble p)[i]? = some x → (assemble T.code)[j + i]? = some x

theorem HasAt.of_drop {T : Text L} {j : ℕ} {p : List (Asm L)} {rest : List (Insn L)}
    (h : (assemble T.code).drop j = assemble p ++ rest) : T.HasAt j p := by
  intro i x hx
  rw [← List.getElem?_drop, h, List.getElem?_append_left (List.getElem?_eq_some_iff.mp hx).1]
  exact hx

/-- Distinct instructions of a text have distinct addresses. -/
theorem loc_injective {j k : ℕ} (hj : j < 2 ^ 61) (hk : k < 2 ^ 61) (h : T.loc j = T.loc k) :
    j = k := by
  have h' := congrArg BitVec.toNat (add_left_cancel (a := T.base) h)
  simp only [BitVec.toNat_ofNat] at h'
  omega

end Text

/-! ### One step -/

/-- A hardware thread: its private state and its two program counters. -/
structure Hart (n : ℕ) where
  core : Core n
  pc : BitVec 64
  npc : BitVec 64

variable {n : ℕ} {L : Type} [DecidableEq L]

/-- Execute the instruction at `pc`. -/
def Hart.step (T : Text L) (F : CapFormat n) (h : Hart n) (m : Mem) :
    Except Trap (Hart n × Mem) :=
  match T.fetch h.pc with
  | none => .error .noInstruction
  | some (.op o) =>
      match o.exec F h.core m with
      | .ok (c, m') => .ok (⟨c, h.npc, h.npc + 4⟩, m')
      | .error e => .error e
  | some (.branch k l) =>
      .ok (⟨h.core, h.npc, if k.holds h.core then T.addr l else h.npc + 4⟩, m)
  | some (.branchLikely k l) =>
      if k.holds h.core then .ok (⟨h.core, h.npc, T.addr l⟩, m)
      else .ok (⟨h.core, h.npc + 4, h.npc + 8⟩, m)
  | some (.bal l) => .ok (⟨h.core.set .ra (h.pc + 8), h.npc, T.addr l⟩, m)
  | some (.jal target) => .ok (⟨h.core.set .ra (h.pc + 8), h.npc, target⟩, m)
  | some (.j target) => .ok (⟨h.core, h.npc, target⟩, m)
  | some (.jr rs) => .ok (⟨h.core, h.npc, h.core.get rs⟩, m)
  | some (.cjr cb) =>
      let v := h.core.cap cb
      if v.tag && !F.isSealed v.data && F.perm v.data .execute then
        .ok (⟨h.core, h.npc, F.cursor v⟩, m)
      else .error .capability
  | some .eret =>
      let c := h.core.setCp0 12 0 (h.core.cp0 12 0 &&& ~~~2)
      .ok (⟨c, c.cp0 14 0, c.cp0 14 0 + 4⟩, m)

/-- One step of a machine with a single thread, short of an exception
return. -/
def Step (T : Text L) (F : CapFormat n) (s s' : Hart n × Mem) : Prop :=
  T.fetch s.1.pc ≠ some .eret ∧ s.1.step T F s.2 = .ok s'

/-- Any number of steps. -/
def Steps (T : Text L) (F : CapFormat n) : Hart n × Mem → Hart n × Mem → Prop :=
  Relation.ReflTransGen (Step T F)

/-- The run from `s` ends in a trap. -/
def Traps (T : Text L) (F : CapFormat n) (s : Hart n × Mem) (e : Trap) : Prop :=
  ∃ s', Steps T F s s' ∧ s'.1.step T F s'.2 = .error e

/-- The run from `s` comes to an exception return, which resumes in `s'`. -/
def Returns (T : Text L) (F : CapFormat n) (s s' : Hart n × Mem) : Prop :=
  ∃ s₁, Steps T F s s₁ ∧ T.fetch s₁.1.pc = some .eret ∧ s₁.1.step T F s₁.2 = .ok s'

/-- About to execute instruction `k`, no branch pending. -/
def Text.at (T : Text L) (k : ℕ) (c : Core n) (m : Mem) : Hart n × Mem :=
  (⟨c, T.loc k, T.loc (k + 1)⟩, m)

section steps
variable {T : Text L} {F : CapFormat n} {j k : ℕ} {c c' : Core n} {m m' : Mem} {o : Op}
  {q : Cond} {l : L} {s s' s'' : Hart n × Mem} {e : Trap}

theorem Steps.refl : Steps T F s s := Relation.ReflTransGen.refl

theorem Steps.trans (h : Steps T F s s') (h' : Steps T F s' s'') : Steps T F s s'' :=
  Relation.ReflTransGen.trans h h'

/-- A step is a run. -/
theorem Step.steps (h : Step T F s s') : Steps T F s s' := Relation.ReflTransGen.single h

/-- Execution is deterministic. -/
theorem step_rightUnique (T : Text L) (F : CapFormat n) : Relator.RightUnique (Step T F) :=
  fun _ _ _ h h' => Except.ok.inj (h.2.symm.trans h'.2)

/-- An operation moves on to the next instruction. -/
theorem steps_op (h : (assemble T.code)[k]? = some (.op o))
    (he : o.exec F c m = .ok (c', m')) :
    Steps T F (T.at k c m) (T.at (k + 1) c' m') := by
  refine Step.steps ⟨?_, ?_⟩
  · simp [Text.at, T.fetch_loc h]
  · simp only [Hart.step, Text.at, T.fetch_loc h, he, T.loc_add_four]

/-- A branch that is taken executes its delay slot and lands on its label. -/
theorem steps_taken (h : (assemble T.code)[k]? = some (.branch q l))
    (hd : (assemble T.code)[k + 1]? = some (.op o)) (hl : labelIndex l T.code = j)
    (hq : q.holds c = true) (he : o.exec F c m = .ok (c', m')) :
    Steps T F (T.at k c m) (T.at j c' m') := by
  subst hl
  have h₁ : Step T F (T.at k c m) (⟨c, T.loc (k + 1), T.addr l⟩, m) := by
    refine ⟨by simp [Text.at, T.fetch_loc h], ?_⟩
    simp only [Hart.step, Text.at, T.fetch_loc h, hq, if_true]
  refine h₁.steps.trans (Step.steps ⟨by simp [T.fetch_loc hd], ?_⟩)
  simp only [Hart.step, Text.at, T.fetch_loc hd, he, Text.addr, T.loc_add_four]

/-- A branch that is not taken executes its delay slot and falls through. -/
theorem steps_not_taken (h : (assemble T.code)[k]? = some (.branch q l))
    (hd : (assemble T.code)[k + 1]? = some (.op o)) (hq : q.holds c = false)
    (he : o.exec F c m = .ok (c', m')) :
    Steps T F (T.at k c m) (T.at (k + 2) c' m') := by
  have h₁ : Step T F (T.at k c m) (T.at (k + 1) c m) := by
    refine ⟨by simp [Text.at, T.fetch_loc h], ?_⟩
    simp only [Hart.step, Text.at, T.fetch_loc h, hq, T.loc_add_four, Bool.false_eq_true,
      if_false]
  exact h₁.steps.trans (steps_op hd he)

/-- A likely branch that is taken executes its delay slot. -/
theorem steps_likely_taken (h : (assemble T.code)[k]? = some (.branchLikely q l))
    (hd : (assemble T.code)[k + 1]? = some (.op o)) (hl : labelIndex l T.code = j)
    (hq : q.holds c = true) (he : o.exec F c m = .ok (c', m')) :
    Steps T F (T.at k c m) (T.at j c' m') := by
  subst hl
  have h₁ : Step T F (T.at k c m) (⟨c, T.loc (k + 1), T.addr l⟩, m) := by
    refine ⟨by simp [Text.at, T.fetch_loc h], ?_⟩
    simp only [Hart.step, Text.at, T.fetch_loc h, hq, if_true]
  refine h₁.steps.trans (Step.steps ⟨by simp [T.fetch_loc hd], ?_⟩)
  simp only [Hart.step, Text.at, T.fetch_loc hd, he, Text.addr, T.loc_add_four]

/-- A likely branch that is not taken nullifies its delay slot. -/
theorem steps_likely_not_taken (h : (assemble T.code)[k]? = some (.branchLikely q l))
    (hq : q.holds c = false) :
    Steps T F (T.at k c m) (T.at (k + 2) c m) := by
  refine Step.steps ⟨by simp [Text.at, T.fetch_loc h], ?_⟩
  simp only [Hart.step, Text.at, T.fetch_loc h, hq, Bool.false_eq_true, if_false,
    T.loc_add_four, T.loc_add_eight]

/-- A register jump executes its delay slot and leaves for the register's
value. -/
theorem steps_jr {r : Reg} (h : (assemble T.code)[k]? = some (.jr r))
    (hd : (assemble T.code)[k + 1]? = some (.op o)) (he : o.exec F c m = .ok (c', m')) :
    Steps T F (T.at k c m) (⟨c', c.get r, c.get r + 4⟩, m') := by
  have h₁ : Step T F (T.at k c m) (⟨c, T.loc (k + 1), c.get r⟩, m) := by
    refine ⟨by simp [Text.at, T.fetch_loc h], ?_⟩
    simp only [Hart.step, Text.at, T.fetch_loc h]
  refine h₁.steps.trans (Step.steps ⟨by simp [T.fetch_loc hd], ?_⟩)
  simp only [Hart.step, T.fetch_loc hd, he]

/-- A capability jump through a usable capability leaves for its cursor. -/
theorem steps_cjr {cb : Fin 32} (h : (assemble T.code)[k]? = some (.cjr cb))
    (hd : (assemble T.code)[k + 1]? = some (.op o))
    (hv : ((c.cap cb).tag && !F.isSealed (c.cap cb).data &&
      F.perm (c.cap cb).data .execute) = true)
    (he : o.exec F c m = .ok (c', m')) :
    Steps T F (T.at k c m) (⟨c', F.cursor (c.cap cb), F.cursor (c.cap cb) + 4⟩, m') := by
  have h₁ : Step T F (T.at k c m) (⟨c, T.loc (k + 1), F.cursor (c.cap cb)⟩, m) := by
    refine ⟨by simp [Text.at, T.fetch_loc h], ?_⟩
    simp only [Hart.step, Text.at, T.fetch_loc h, hv, if_true]
  refine h₁.steps.trans (Step.steps ⟨by simp [T.fetch_loc hd], ?_⟩)
  simp only [Hart.step, T.fetch_loc hd, he]

/-- An operation that traps ends the run. -/
theorem traps_op (h : (assemble T.code)[k]? = some (.op o)) (he : o.exec F c m = .error e) :
    Traps T F (T.at k c m) e := by
  refine ⟨_, Steps.refl, ?_⟩
  simp only [Hart.step, Text.at, T.fetch_loc h, he]

theorem Traps.of_steps (h : Steps T F s s') (ht : Traps T F s' e) : Traps T F s e := by
  obtain ⟨s₁, h₁, he⟩ := ht
  exact ⟨s₁, h.trans h₁, he⟩

/-- A run that can go no further passes through every state reachable from
its start. -/
theorem steps_to_last (h : Steps T F s s') (hlast : ∀ t, ¬ Step T F s' t)
    (h' : Steps T F s s'') : Steps T F s'' s' := by
  rcases Relation.ReflTransGen.total_of_right_unique (step_rightUnique T F) h h' with h₁ | h₁
  · rcases h₁.cases_head with rfl | ⟨t, ht, -⟩
    · exact Steps.refl
    · exact absurd ht (hlast t)
  · exact h₁

/-- An exception handler returns in at most one way. -/
theorem Returns.unique (h : Returns T F s s') (h' : Returns T F s s'') : s' = s'' := by
  obtain ⟨s₁, h₁, hf₁, hs₁⟩ := h
  obtain ⟨s₂, h₂, hf₂, hs₂⟩ := h'
  have heq : s₂ = s₁ := by
    rcases (steps_to_last h₁ (fun _ ht => ht.1 hf₁) h₂).cases_head with heq | ⟨t, ht, -⟩
    · exact heq
    · exact absurd hf₂ ht.1
  subst heq
  exact Except.ok.inj (hs₁.symm.trans hs₂)

/-- Coming to `eret` completes a handler. -/
theorem returns_eret (h : Steps T F s (T.at k c m)) (hf : (assemble T.code)[k]? = some .eret) :
    Returns T F s (⟨c.setCp0 12 0 (c.cp0 12 0 &&& ~~~2), c.cp0 14 0, c.cp0 14 0 + 4⟩, m) := by
  refine ⟨_, h, T.fetch_loc hf, ?_⟩
  simp [Hart.step, Text.at, T.fetch_loc hf]

end steps

end Mips
