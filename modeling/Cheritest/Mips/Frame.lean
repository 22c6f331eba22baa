/-
Cheritest/Mips/Frame.lean

What an operation leaves alone, and where a routine can go.

`Op.writes` is the general register that an operation writes, if any;
everything else private to the thread but the log of its accesses stays as
it is, and the log only grows (`Op.exec_frame`).

`Confined T R` is checked by looking at the text: from an instruction of `R`
control goes to another one of `R`, or out of the routine through a jump
register in its delay slot.  A run from `R` is then at an instruction of
`R`, in a delay slot of one, or has left (`Confined.steps`), and a register
that none of these instructions writes keeps its value.
-/
import Cheritest.Mips.Run

namespace Mips

variable {n : ℕ}

/-! ### Operations -/

/-- The general register that an operation writes. -/
def Op.writes : Op → Option Reg
  | nop | sync | ssnop | sb .. | sd .. | sdl .. | mtc0 .. | dmtc0 .. | csb .. | clc ..
  | csc .. => none
  | andi r _ _ | ori r _ _ | xori r _ _ | and r _ _ | or r _ _ | add r _ _ | addi r _ _
  | addiu r _ _ | sub r _ _ | subu r _ _ | mul r _ _ | sll r _ _ | srl r _ _ | dadd r _ _
  | daddu r _ _ | daddi r _ _ | daddiu r _ _ | dsub r _ _ | dsubu r _ _ | dsll r _ _ | dsrl r _ _
  | slti r _ _ | li r _ | lbu r _ _ | ld r _ _ | lld r _ _ | scd r _ _ | mfc0 r _ _
  | dmfc0 r _ _ | cgetbase r _ | cgetoffset r _ | cgetcause r | clb r _ _ _ => some r

/-- The capability register that an operation writes. -/
def Op.writesCap : Op → Option (Fin 32)
  | clc cd _ _ _ => some cd
  | _ => none

/-- Whether an operation writes coprocessor 0. -/
def Op.writesCp0 : Op → Bool
  | mtc0 .. | dmtc0 .. => true
  | _ => false

/-- What an operation leaves alone. -/
structure Op.Frame (o : Op) (c c' : Core n) : Prop where
  get : ∀ r, o.writes ≠ some r → c'.get r = c.get r
  cap : ∀ x, o.writesCap ≠ some x → c'.cap x = c.cap x
  cp0 : o.writesCp0 = false → c'.cp0 = c.cp0
  log : ∃ l, c'.log = l ++ c.log

section frame
variable {F : CapFormat n} {c c' : Core n} {m m' : Mem} {o : Op} {r q : Reg} {v : BitVec 64}

theorem get_set_ne (h : some r ≠ some q) : (c.set r v).get q = c.get q := by
  have hne : q ≠ r := fun he => h (congrArg some he.symm)
  unfold Core.get Core.set
  simp only [Function.update_of_ne hne]

/-- **The frame of an operation.** -/
theorem Op.exec_frame (h : o.exec F c m = .ok (c', m')) : o.Frame c c' := by
  cases o
  all_goals simp only [exec, put, putChecked] at h
  all_goals try split_ifs at h
  all_goals cases h
  all_goals constructor
  all_goals first
    | exact fun _ _ => rfl
    | exact fun _ => rfl
    | exact fun r hr => get_set_ne hr
    | exact ⟨[], rfl⟩
    | exact ⟨[_], rfl⟩
    | exact fun x hx => Function.update_of_ne (fun he => hx (congrArg some he.symm)) _ _
    | exact fun h => Bool.noConfusion h

end frame

/-! ### Control flow -/

variable {L : Type} [DecidableEq L]

/-- Where a jump out of the routine leads: to the general or the capability
register that it names. -/
inductive Exit
  | reg (r : Reg)
  | cap (x : Fin 32)
  deriving DecidableEq

/-- The address that an exit leads to. -/
def Exit.addr (F : CapFormat n) (c : Core n) : Exit → BitVec 64
  | reg r => c.get r
  | cap x => F.cursor (c.cap x)

/-- What a routine may write and where it may go: it keeps the registers of
`keep` and the capability registers of `keepCap`, and leaves through `exits`. -/
structure Limits where
  exits : List Exit
  keep : List Reg
  keepCap : List (Fin 32)

/-- Instruction `k` is an operation that writes nothing to be kept. -/
def Limits.OpKeeps (W : Limits) (code : List (Asm L)) (k : ℕ) : Bool :=
  match (assemble code)[k]? with
  | some (.op o) =>
      W.keep.all (fun r => o.writes ≠ some r) && W.keepCap.all fun x => o.writesCap ≠ some x
  | _ => false

/-- From instruction `k`, control stays in `R` or leaves through an exit, and
nothing to be kept is written. -/
def Limits.KeepsAt (W : Limits) (code : List (Asm L)) (R : List ℕ) (k : ℕ) : Bool :=
  match (assemble code)[k]? with
  | some (.op _) => W.OpKeeps code k && decide (k + 1 ∈ R)
  | some (.branch _ l) =>
      W.OpKeeps code (k + 1) && decide (k + 1 ∈ R) && decide (labelIndex l code ∈ R)
  | some (.branchLikely _ l) =>
      W.OpKeeps code (k + 1) && decide (k + 2 ∈ R) && decide (labelIndex l code ∈ R)
  | some (.jr r) => W.OpKeeps code (k + 1) && decide (.reg r ∈ W.exits) && decide (r ∈ W.keep)
  | some (.cjr x) => W.OpKeeps code (k + 1) && decide (.cap x ∈ W.exits) && decide (x ∈ W.keepCap)
  | _ => false

/-- Control stays in `R` until it leaves through an exit. -/
def Limits.Confined (W : Limits) (code : List (Asm L)) (R : List ℕ) : Bool :=
  R.all (W.KeepsAt code R)

/-- What is kept is as it was in state `c₀`. -/
structure Limits.Kept (W : Limits) (c₀ c : Core n) : Prop where
  get : ∀ r ∈ W.keep, c.get r = c₀.get r
  cap : ∀ x ∈ W.keepCap, c.cap x = c₀.cap x

/-- The thread is at an instruction of `R`, or in a delay slot from where it
goes to one or leaves. -/
inductive Limits.Within (W : Limits) (T : Text L) (F : CapFormat n) (R : List ℕ) (c₀ : Core n) :
    Hart n → Prop
  | at {k c} : k ∈ R → Within W T F R c₀ ⟨c, T.loc k, T.loc (k + 1)⟩
  | slot {k k' c} : W.OpKeeps T.code k = true → k' ∈ R → Within W T F R c₀ ⟨c, T.loc k, T.loc k'⟩
  | leaving {k e c} : W.OpKeeps T.code k = true → e ∈ W.exits →
      Within W T F R c₀ ⟨c, T.loc k, e.addr F c₀⟩

/-- The thread has left through an exit. -/
def Limits.Left (W : Limits) (F : CapFormat n) (c₀ : Core n) (h : Hart n) : Prop :=
  ∃ e ∈ W.exits, h.pc = e.addr F c₀ ∧ h.npc = e.addr F c₀ + 4

section confined
variable {W : Limits} {T : Text L} {F : CapFormat n} {R : List ℕ} {c₀ c c' : Core n} {m m' : Mem}
  {h h' : Hart n} {k : ℕ}

theorem Limits.Kept.refl : W.Kept c c := ⟨fun _ _ => rfl, fun _ _ => rfl⟩

/-- An operation that writes nothing to be kept. -/
theorem Limits.Kept.op (hk : W.Kept c₀ c) (hop : W.OpKeeps T.code k = true) {npc : BitVec 64}
    (hs : Hart.step T F ⟨c, T.loc k, npc⟩ m = .ok (h', m')) :
    W.Kept c₀ h'.core ∧ h'.pc = npc ∧ h'.npc = npc + 4 := by
  unfold OpKeeps at hop
  split at hop
  · rename_i o hi
    simp only [Bool.and_eq_true, List.all_eq_true, decide_eq_true_eq] at hop
    simp only [Hart.step, T.fetch_loc hi] at hs
    split at hs
    · rename_i c₁ m₁ he
      cases hs
      have hf := Op.exec_frame he
      refine ⟨⟨fun r hr => ?_, fun x hx => ?_⟩, rfl, rfl⟩
      · rw [hf.get r (hop.1 r hr), hk.get r hr]
      · rw [hf.cap x (hop.2 x hx), hk.cap x hx]
    · cases hs
  · cases hop

/-- **One step of a confined thread.** -/
theorem Limits.Within.step (hR : W.Confined T.code R = true) (hw : W.Within T F R c₀ h)
    (hk : W.Kept c₀ h.core) (hs : h.step T F m = .ok (h', m')) :
    W.Kept c₀ h'.core ∧ (W.Within T F R c₀ h' ∨ W.Left F c₀ h') := by
  cases hw with
  | @slot k k' c hop hk' =>
    obtain ⟨hkept, hpc, hnpc⟩ := hk.op hop hs
    obtain ⟨c', pc, npc⟩ := h'
    simp only at hpc hnpc
    rw [hpc, hnpc, T.loc_add_four]
    exact ⟨hkept, .inl (.at hk')⟩
  | leaving hop he =>
    obtain ⟨hkept, hpc, hnpc⟩ := hk.op hop hs
    exact ⟨hkept, .inr ⟨_, he, hpc, hnpc⟩⟩
  | @«at» k c hmem =>
    have hat := List.all_eq_true.mp hR k hmem
    unfold KeepsAt at hat
    split at hat
    · -- an operation
      simp only [Bool.and_eq_true, decide_eq_true_eq] at hat
      obtain ⟨hkept, hpc, hnpc⟩ := hk.op hat.1 hs
      obtain ⟨c', pc, npc⟩ := h'
      simp only at hpc hnpc
      rw [hpc, hnpc, T.loc_add_four]
      exact ⟨hkept, .inl (.at hat.2)⟩
    · -- a branch
      rename_i q l hi
      simp only [Bool.and_eq_true, decide_eq_true_eq] at hat
      obtain ⟨⟨hop, hnext⟩, htarget⟩ := hat
      simp only [Hart.step, T.fetch_loc hi] at hs
      cases hs
      refine ⟨hk, .inl ?_⟩
      split_ifs
      · exact .slot hop htarget
      · rw [T.loc_add_four]
        exact .at hnext
    · -- a likely branch
      rename_i q l hi
      simp only [Bool.and_eq_true, decide_eq_true_eq] at hat
      obtain ⟨⟨hop, hnext⟩, htarget⟩ := hat
      simp only [Hart.step, T.fetch_loc hi] at hs
      split_ifs at hs
      · cases hs
        exact ⟨hk, .inl (.slot hop htarget)⟩
      · cases hs
        refine ⟨hk, .inl ?_⟩
        rw [T.loc_add_four, T.loc_add_eight]
        exact .at hnext
    · -- a jump through a register
      rename_i r hi
      simp only [Bool.and_eq_true, decide_eq_true_eq] at hat
      obtain ⟨⟨hop, hexit⟩, hr⟩ := hat
      simp only [Hart.step, T.fetch_loc hi] at hs
      cases hs
      refine ⟨hk, .inl ?_⟩
      rw [hk.get r hr]
      exact .leaving (e := .reg r) hop hexit
    · -- a jump through a capability
      rename_i x hi
      simp only [Bool.and_eq_true, decide_eq_true_eq] at hat
      obtain ⟨⟨hop, hexit⟩, hx⟩ := hat
      simp only [Hart.step, T.fetch_loc hi] at hs
      split_ifs at hs
      cases hs
      refine ⟨hk, .inl ?_⟩
      have hcap : c.cap x = c₀.cap x := hk.cap x hx
      rw [hcap]
      exact .leaving (e := .cap x) hop hexit
    · cases hat

/-- **A confined run**: what is kept stays, and the thread is within the
routine or has left it. -/
theorem Limits.Within.steps (hR : W.Confined T.code R = true) {s s' : Hart n × Mem}
    (hw : W.Within T F R c₀ s.1) (hk : W.Kept c₀ s.1.core)
    (hout : ∀ e ∈ W.exits, T.fetch (e.addr F c₀) = none) (hs : Steps T F s s') :
    W.Kept c₀ s'.1.core ∧ (W.Within T F R c₀ s'.1 ∨ W.Left F c₀ s'.1) := by
  induction hs with
  | refl => exact ⟨hk, .inl hw⟩
  | tail _ hstep ih =>
    obtain ⟨hkept, hwithin | ⟨e, he, hpc, -⟩⟩ := ih
    · exact hwithin.step hR hkept hstep.2
    · -- outside of the routine there is nothing to execute
      have hnone := hstep.2
      simp only [Hart.step, hpc, hout e he] at hnone
      cases hnone

/-- What was so at an instruction of the routine is kept by a run that is
complete. -/
theorem Limits.Confined.kept (hR : W.Confined T.code R = true) (hk : k ∈ R)
    (hout : ∀ e ∈ W.exits, T.fetch (e.addr F c) = none) {s s' : Hart n × Mem}
    (hs : Steps T F s (T.at k c m)) (hs' : Steps T F s s') (hstuck : ∀ t, ¬Step T F s' t) :
    W.Kept c s'.1.core := by
  have hrest : Steps T F (T.at k c m) s' := steps_to_last hs' hstuck hs
  have hwithin : W.Within T F R c (T.at k c m).1 := .at hk
  have hkept : W.Kept c (T.at k c m).1.core := .refl
  exact (hwithin.steps hR hkept hout hrest).1

end confined

/-! ### The log of accesses -/

theorem Hart.step_log {T : Text L} {F : CapFormat n} {h h' : Hart n} {m m' : Mem}
    (hs : h.step T F m = .ok (h', m')) : ∃ l, h'.core.log = l ++ h.core.log := by
  unfold Hart.step at hs
  split at hs
  · cases hs
  · split at hs
    · rename_i he
      cases hs
      exact (Op.exec_frame he).log
    · cases hs
  · cases hs
    exact ⟨[], rfl⟩
  · split_ifs at hs <;> cases hs <;> exact ⟨[], rfl⟩
  · cases hs
    exact ⟨[], rfl⟩
  · cases hs
    exact ⟨[], rfl⟩
  · cases hs
    exact ⟨[], rfl⟩
  · cases hs
    exact ⟨[], rfl⟩
  · simp only at hs
    split_ifs at hs
    cases hs
    exact ⟨[], rfl⟩
  · cases hs
    exact ⟨[], rfl⟩

/-- The log only grows. -/
theorem Steps.log {T : Text L} {F : CapFormat n} {s s' : Hart n × Mem} (hs : Steps T F s s') :
    ∃ l, s'.1.core.log = l ++ s.1.core.log := by
  induction hs with
  | refl => exact ⟨[], rfl⟩
  | tail _ hstep ih =>
    obtain ⟨l, hl⟩ := ih
    obtain ⟨l', hl'⟩ := Hart.step_log hstep.2
    exact ⟨l' ++ l, by rw [hl', hl, List.append_assoc]⟩

end Mips
