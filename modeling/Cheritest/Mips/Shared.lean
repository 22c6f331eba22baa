/-
Cheritest/Mips/Shared.lean

Hardware threads that share their memory.

Between two accesses to memory a thread's run concerns nobody else.  A quiet
step is one that any memory allows and that leaves memory alone; a thread
heads for a condition if quiet steps lead it there.  Interleaved with the
other threads, a heading thread stays heading until it has arrived
(`Heads.step`), so that an invariant over all interleavings has to name only
the instructions at which memory is accessed.

The quiet steps never start at one of the watched instructions `S`, so that
a thread at such an instruction has arrived.
-/
import Cheritest.Mips.Run

namespace Mips

variable {n : ℕ} {L : Type}

/-- About to execute instruction `k`, no branch pending. -/
def Text.hartAt (T : Text L) (k : ℕ) (c : Core n) : Hart n := ⟨c, T.loc k, T.loc (k + 1)⟩

@[simp] theorem Text.hartAt_core (T : Text L) (k : ℕ) (c : Core n) :
    (T.hartAt k c).core = c := rfl
@[simp] theorem Text.hartAt_pc (T : Text L) (k : ℕ) (c : Core n) :
    (T.hartAt k c).pc = T.loc k := rfl

/-- An instruction of the text that is not watched. -/
theorem loc_unwatched {T : Text L} {S : List ℕ} {k : ℕ} {i : Insn L} (hS : ∀ s ∈ S, s < 2 ^ 60)
    (hi : (assemble T.code)[k]? = some i) (hk : k ∉ S) : ∀ s ∈ S, T.loc k ≠ T.loc s := by
  intro s hs heq
  have hlen : k < (assemble T.code).length := (List.getElem?_eq_some_iff.mp hi).1
  have hfit := T.fits
  have hsb := hS s hs
  rw [T.loc_injective (by omega) (by omega) heq] at hk
  exact hk hs

variable [DecidableEq L]

/-- A step away from the watched instructions that has nothing to do with
memory. -/
structure QuietStep (T : Text L) (F : CapFormat n) (S : List ℕ) (h h' : Hart n) : Prop where
  unwatched : ∀ k ∈ S, h.pc ≠ T.loc k
  step : ∀ m, h.step T F m = .ok (h', m)

/-- Any number of quiet steps. -/
def Quiet (T : Text L) (F : CapFormat n) (S : List ℕ) : Hart n → Hart n → Prop :=
  Relation.ReflTransGen (QuietStep T F S)

/-- The thread traps, whatever memory holds. -/
def Dead (T : Text L) (F : CapFormat n) (h : Hart n) : Prop := ∀ m, ∃ e, h.step T F m = .error e

/-- Quiet steps lead to a watched instruction where `Q` holds, unless they
lead into a trap. -/
def Heads (T : Text L) (F : CapFormat n) (S : List ℕ) (Q : Hart n → Prop) (h : Hart n) : Prop :=
  ∃ h', Quiet T F S h h' ∧ (Q h' ∨ Dead T F h')

/-- What a register operation leads to: it completes whatever memory holds
and `P` holds afterwards, or it traps. -/
def Op.Leads (F : CapFormat n) (c : Core n) (o : Op) (P : Core n → Prop) : Prop :=
  (∃ c', (∀ m, o.exec F c m = .ok (c', m)) ∧ P c') ∨ ∀ m, ∃ e, o.exec F c m = .error e

/-- Quiet steps lead to a watched instruction where `Q` holds: a thread that
heads for it and meets no trap on the way. -/
def Comes (T : Text L) (F : CapFormat n) (S : List ℕ) (Q : Hart n → Prop) (h : Hart n) : Prop :=
  ∃ h', Quiet T F S h h' ∧ Q h'

section quiet
variable {T : Text L} {F : CapFormat n} {S : List ℕ} {j k : ℕ} {c c' : Core n} {o : Op} {q : Cond}
  {l : L} {h h' h'' : Hart n} {m m' : Mem} {Q : Hart n → Prop}

theorem Quiet.refl : Quiet T F S h h := Relation.ReflTransGen.refl

theorem Quiet.trans (h₁ : Quiet T F S h h') (h₂ : Quiet T F S h' h'') : Quiet T F S h h'' :=
  Relation.ReflTransGen.trans h₁ h₂

theorem Heads.arrived (hQ : Q h) : Heads T F S Q h := ⟨h, .refl, .inl hQ⟩

theorem Heads.of_quiet (hq : Quiet T F S h h') (hh : Heads T F S Q h') : Heads T F S Q h := by
  obtain ⟨h₁, hq₁, hQ⟩ := hh
  exact ⟨h₁, hq.trans hq₁, hQ⟩

/-- A heading thread that takes a step had arrived, or is still heading and
left memory alone. -/
theorem Heads.step (hh : Heads T F S Q h) (hs : h.step T F m = .ok (h', m')) :
    Q h ∨ (m' = m ∧ Heads T F S Q h' ∧ ∀ k ∈ S, h.pc ≠ T.loc k) := by
  obtain ⟨h₁, hq, hQ⟩ := hh
  rcases hq.cases_head with rfl | ⟨h₂, hstep, hq₂⟩
  · rcases hQ with hQ | hdead
    · exact .inl hQ
    · obtain ⟨e, he⟩ := hdead m
      rw [he] at hs
      cases hs
  · have heq := (hstep.step m).symm.trans hs
    simp only [Except.ok.injEq, Prod.mk.injEq] at heq
    obtain ⟨rfl, rfl⟩ := heq
    exact .inr ⟨rfl, ⟨h₁, hq₂, hQ⟩, hstep.unwatched⟩

/-- A heading thread at a watched instruction has arrived. -/
theorem Heads.at_watched (hh : Heads T F S Q h) (hk : k ∈ S) (hpc : h.pc = T.loc k) :
    Q h ∨ Dead T F h := by
  obtain ⟨h₁, hq, hQ⟩ := hh
  rcases hq.cases_head with rfl | ⟨h₂, hstep, -⟩
  · exact hQ
  · exact absurd hpc (hstep.unwatched k hk)

theorem Comes.arrived (hQ : Q h) : Comes T F S Q h := ⟨h, .refl, hQ⟩

theorem Comes.of_quiet (hq : Quiet T F S h h') (hh : Comes T F S Q h') : Comes T F S Q h := by
  obtain ⟨h₁, hq₁, hQ⟩ := hh
  exact ⟨h₁, hq.trans hq₁, hQ⟩

theorem Comes.mono {P : Hart n → Prop} (hh : Comes T F S Q h) (hQ : ∀ h, Q h → P h) :
    Comes T F S P h := by
  obtain ⟨h₁, hq, hQ₁⟩ := hh
  exact ⟨h₁, hq, hQ h₁ hQ₁⟩

theorem Comes.heads (hh : Comes T F S Q h) : Heads T F S Q h := by
  obtain ⟨h₁, hq, hQ⟩ := hh
  exact ⟨h₁, hq, .inl hQ⟩

theorem Comes.step (hh : Comes T F S Q h) (hs : h.step T F m = .ok (h', m')) :
    Q h ∨ (m' = m ∧ Comes T F S Q h' ∧ ∀ k ∈ S, h.pc ≠ T.loc k) := by
  obtain ⟨h₁, hq, hQ⟩ := hh
  rcases hq.cases_head with rfl | ⟨h₂, hstep, hq₂⟩
  · exact .inl hQ
  · have heq := (hstep.step m).symm.trans hs
    simp only [Except.ok.injEq, Prod.mk.injEq] at heq
    obtain ⟨rfl, rfl⟩ := heq
    exact .inr ⟨rfl, ⟨h₁, hq₂, hQ⟩, hstep.unwatched⟩

theorem Comes.at_watched (hh : Comes T F S Q h) (hk : k ∈ S) (hpc : h.pc = T.loc k) : Q h := by
  obtain ⟨h₁, hq, hQ⟩ := hh
  rcases hq.cases_head with rfl | ⟨h₂, hstep, -⟩
  · exact hQ
  · exact absurd hpc (hstep.unwatched k hk)

variable (hS : ∀ s ∈ S, s < 2 ^ 60)
include hS

/-- An operation on registers. -/
theorem quiet_op (hi : (assemble T.code)[k]? = some (.op o)) (hk : k ∉ S)
    (he : ∀ m, o.exec F c m = .ok (c', m)) :
    Quiet T F S (T.hartAt k c) (T.hartAt (k + 1) c') := by
  refine .single ⟨loc_unwatched hS hi hk, fun m => ?_⟩
  simp only [Hart.step, Text.hartAt, T.fetch_loc hi, he, T.loc_add_four]

/-- A branch that is taken, with its delay slot. -/
theorem quiet_taken (hi : (assemble T.code)[k]? = some (.branch q l))
    (hd : (assemble T.code)[k + 1]? = some (.op o)) (hk : k ∉ S) (hk' : k + 1 ∉ S)
    (hl : labelIndex l T.code = j) (hq : q.holds c = true) (he : ∀ m, o.exec F c m = .ok (c', m)) :
    Quiet T F S (T.hartAt k c) (T.hartAt j c') := by
  subst hl
  have h₁ : QuietStep T F S (T.hartAt k c) ⟨c, T.loc (k + 1), T.addr l⟩ := by
    refine ⟨loc_unwatched hS hi hk, fun m => ?_⟩
    simp only [Hart.step, Text.hartAt, T.fetch_loc hi, hq, if_true]
  refine .trans (.single h₁) (.single ⟨loc_unwatched hS hd hk', fun m => ?_⟩)
  simp only [Hart.step, Text.hartAt, T.fetch_loc hd, he, Text.addr, T.loc_add_four]

/-- A branch that is not taken, with its delay slot. -/
theorem quiet_not_taken (hi : (assemble T.code)[k]? = some (.branch q l))
    (hd : (assemble T.code)[k + 1]? = some (.op o)) (hk : k ∉ S) (hk' : k + 1 ∉ S)
    (hq : q.holds c = false) (he : ∀ m, o.exec F c m = .ok (c', m)) :
    Quiet T F S (T.hartAt k c) (T.hartAt (k + 2) c') := by
  have h₁ : QuietStep T F S (T.hartAt k c) (T.hartAt (k + 1) c) := by
    refine ⟨loc_unwatched hS hi hk, fun m => ?_⟩
    simp only [Hart.step, Text.hartAt, T.fetch_loc hi, hq, T.loc_add_four, Bool.false_eq_true,
      if_false]
  exact .trans (.single h₁) (quiet_op hS hd hk' he)

/-- A subroutine call, with its delay slot. -/
theorem quiet_bal (hi : (assemble T.code)[k]? = some (.bal l))
    (hd : (assemble T.code)[k + 1]? = some (.op o)) (hk : k ∉ S) (hk' : k + 1 ∉ S)
    (hl : labelIndex l T.code = j)
    (he : ∀ m, o.exec F (c.set .ra (T.loc (k + 2))) m = .ok (c', m)) :
    Quiet T F S (T.hartAt k c) (T.hartAt j c') := by
  subst hl
  have h₁ : QuietStep T F S (T.hartAt k c) ⟨c.set .ra (T.loc (k + 2)), T.loc (k + 1), T.addr l⟩ := by
    refine ⟨loc_unwatched hS hi hk, fun m => ?_⟩
    simp only [Hart.step, Text.hartAt, T.fetch_loc hi, T.loc_add_eight]
  refine .trans (.single h₁) (.single ⟨loc_unwatched hS hd hk', fun m => ?_⟩)
  simp only [Hart.step, Text.hartAt, T.fetch_loc hd, he, Text.addr, T.loc_add_four]

/-- Into the delay slot of a jump out of the text. -/
theorem quiet_j {target : BitVec 64} (hi : (assemble T.code)[k]? = some (.j target)) (hk : k ∉ S) :
    Quiet T F S (T.hartAt k c) ⟨c, T.loc (k + 1), target⟩ := by
  refine .single ⟨loc_unwatched hS hi hk, fun m => ?_⟩
  simp only [Hart.step, Text.hartAt, T.fetch_loc hi]

/-- Into the delay slot of a call of code outside the text. -/
theorem quiet_jal {target : BitVec 64} (hi : (assemble T.code)[k]? = some (.jal target)) (hk : k ∉ S) :
    Quiet T F S (T.hartAt k c) ⟨c.set .ra (T.loc (k + 2)), T.loc (k + 1), target⟩ := by
  refine .single ⟨loc_unwatched hS hi hk, fun m => ?_⟩
  simp only [Hart.step, Text.hartAt, T.fetch_loc hi, T.loc_add_eight]

/-- Out of the delay slot of a jump within the text. -/
theorem quiet_nop_slot (hd : (assemble T.code)[k]? = some (.op .nop)) (hk : k ∉ S) :
    Quiet T F S ⟨c, T.loc k, T.loc j⟩ (T.hartAt j c) := by
  refine .single ⟨loc_unwatched hS hd hk, fun m => ?_⟩
  simp only [Hart.step, T.fetch_loc hd, Op.exec, Text.hartAt, T.loc_add_four]

/-- Into the delay slot of a return. -/
theorem quiet_jr_slot {r : Reg} (hi : (assemble T.code)[k]? = some (.jr r)) (hk : k ∉ S) :
    Quiet T F S (T.hartAt k c) ⟨c, T.loc (k + 1), c.get r⟩ := by
  refine .single ⟨loc_unwatched hS hi hk, fun m => ?_⟩
  simp only [Hart.step, Text.hartAt, T.fetch_loc hi]

/-- A return, with its delay slot. -/
theorem quiet_jr {r : Reg} (hi : (assemble T.code)[k]? = some (.jr r))
    (hd : (assemble T.code)[k + 1]? = some (.op o)) (hk : k ∉ S) (hk' : k + 1 ∉ S)
    (he : ∀ m, o.exec F c m = .ok (c', m)) :
    Quiet T F S (T.hartAt k c) ⟨c', c.get r, c.get r + 4⟩ := by
  refine .trans (quiet_jr_slot hS hi hk) (.single ⟨loc_unwatched hS hd hk', fun m => ?_⟩)
  simp only [Hart.step, T.fetch_loc hd, he]

/-! #### Heading on -/

/-- Over an operation. -/
theorem heads_op (hi : (assemble T.code)[k]? = some (.op o)) (hk : k ∉ S)
    (ho : o.Leads F c fun c' => Heads T F S Q (T.hartAt (k + 1) c')) :
    Heads T F S Q (T.hartAt k c) := by
  rcases ho with ⟨c', he, hh⟩ | hdead
  · exact .of_quiet (quiet_op hS hi hk he) hh
  · refine ⟨_, .refl, .inr fun m => ?_⟩
    obtain ⟨e, he⟩ := hdead m
    exact ⟨e, by simp only [Hart.step, Text.hartAt, T.fetch_loc hi, he]⟩

/-- Over a branch that is taken. -/
theorem heads_taken (hi : (assemble T.code)[k]? = some (.branch q l))
    (hd : (assemble T.code)[k + 1]? = some (.op o)) (hk : k ∉ S) (hk' : k + 1 ∉ S)
    (hl : labelIndex l T.code = j) (hq : q.holds c = true)
    (ho : o.Leads F c fun c' => Heads T F S Q (T.hartAt j c')) :
    Heads T F S Q (T.hartAt k c) := by
  rcases ho with ⟨c', he, hh⟩ | hdead
  · exact .of_quiet (quiet_taken hS hi hd hk hk' hl hq he) hh
  · have h₁ : QuietStep T F S (T.hartAt k c) ⟨c, T.loc (k + 1), T.addr l⟩ := by
      refine ⟨loc_unwatched hS hi hk, fun m => ?_⟩
      simp only [Hart.step, Text.hartAt, T.fetch_loc hi, hq, if_true]
    refine ⟨_, .single h₁, .inr fun m => ?_⟩
    obtain ⟨e, he⟩ := hdead m
    exact ⟨e, by simp only [Hart.step, T.fetch_loc hd, he]⟩

/-- Over a branch that is not taken. -/
theorem heads_not_taken (hi : (assemble T.code)[k]? = some (.branch q l))
    (hd : (assemble T.code)[k + 1]? = some (.op o)) (hk : k ∉ S) (hk' : k + 1 ∉ S)
    (hq : q.holds c = false) (ho : o.Leads F c fun c' => Heads T F S Q (T.hartAt (k + 2) c')) :
    Heads T F S Q (T.hartAt k c) := by
  have h₁ : QuietStep T F S (T.hartAt k c) (T.hartAt (k + 1) c) := by
    refine ⟨loc_unwatched hS hi hk, fun m => ?_⟩
    simp only [Hart.step, Text.hartAt, T.fetch_loc hi, hq, T.loc_add_four, Bool.false_eq_true,
      if_false]
  exact .of_quiet (.single h₁) (heads_op hS hd hk' ho)

/-- Into the delay slot of a return. -/
theorem heads_jr {r : Reg} (hi : (assemble T.code)[k]? = some (.jr r)) (hk : k ∉ S)
    (hQ : Heads T F S Q ⟨c, T.loc (k + 1), c.get r⟩) : Heads T F S Q (T.hartAt k c) := by
  exact .of_quiet (quiet_jr_slot hS hi hk) hQ

end quiet

section leads
variable {F : CapFormat n} {c : Core n} {o : Op} {P : Core n → Prop}

theorem Op.Leads.ok {c' : Core n} (he : ∀ m, o.exec F c m = .ok (c', m)) (hP : P c') :
    o.Leads F c P := .inl ⟨c', he, hP⟩

theorem leads_addi {rt rs : Reg} {imm : BitVec 16}
    (hP : P (c.set rt (sext32 ((c.get rs).setWidth 32 + imm.signExtend 32)))) :
    (Op.addi rt rs imm).Leads F c P := by
  by_cases hov : ((c.get rs).setWidth 32).saddOverflow (imm.signExtend 32) = true
  · exact .inr fun m => ⟨.overflow, Op.exec_addi_overflow hov⟩
  · exact .ok (fun m => Op.exec_addi (Bool.eq_false_iff.mpr hov)) hP

theorem leads_daddi {rt rs : Reg} {imm : BitVec 16}
    (hP : P (c.set rt (c.get rs + imm.signExtend 64))) : (Op.daddi rt rs imm).Leads F c P := by
  by_cases hov : (c.get rs).saddOverflow (imm.signExtend 64) = true
  · exact .inr fun m => ⟨.overflow, Op.exec_daddi_overflow hov⟩
  · exact .ok (fun m => Op.exec_daddi (Bool.eq_false_iff.mpr hov)) hP

theorem leads_dadd {rd rs rt : Reg} (hP : P (c.set rd (c.get rs + c.get rt))) :
    (Op.dadd rd rs rt).Leads F c P := by
  by_cases hov : (c.get rs).saddOverflow (c.get rt) = true
  · exact .inr fun m => ⟨.overflow, Op.exec_dadd_overflow hov⟩
  · exact .ok (fun m => Op.exec_dadd (Bool.eq_false_iff.mpr hov)) hP

end leads

/-- The step of an operation, in a memory. -/
theorem step_op {T : Text L} {F : CapFormat n} {k : ℕ} {c : Core n} {m : Mem} {o : Op} {h : Hart n}
    {m' : Mem} (hi : (assemble T.code)[k]? = some (.op o))
    (hs : (T.hartAt k c).step T F m = .ok (h, m')) :
    ∃ c', o.exec F c m = .ok (c', m') ∧ h = T.hartAt (k + 1) c' := by
  simp only [Hart.step, Text.hartAt, T.fetch_loc hi] at hs
  split at hs
  · rename_i c' m₁ he
    simp only [Except.ok.injEq, Prod.mk.injEq] at hs
    obtain ⟨rfl, rfl⟩ := hs
    exact ⟨c', he, by rw [Text.hartAt, T.loc_add_four]⟩
  · cases hs

/-- The step of a `nop`, also in a delay slot. -/
theorem step_nop {T : Text L} {F : CapFormat n} {k : ℕ} {m m' : Mem} {h h' : Hart n}
    (hi : (assemble T.code)[k]? = some (.op .nop)) (hpc : h.pc = T.loc k)
    (hs : h.step T F m = .ok (h', m')) : h' = ⟨h.core, h.npc, h.npc + 4⟩ ∧ m' = m := by
  simp only [Hart.step, hpc, T.fetch_loc hi, Op.exec, Except.ok.injEq, Prod.mk.injEq] at hs
  exact ⟨hs.1.symm, hs.2.symm⟩

end Mips
