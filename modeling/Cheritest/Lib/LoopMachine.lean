/-
Cheritest/Lib/LoopMachine.lean

A machine with loop counters, and structured programs compiled to it.

The only control of the machine is `loop r k`: if counter `r` is zero it
falls through, otherwise it decrements the counter and jumps back `k`
instructions.  What an action `a` does to the data is a parameter, so that
a run may collect a trace as well as compute.

A `Block` is a structured program; compiled at a level, its outermost loops
use the counter of that level and inner ones the counters above.
`Block.run` says that the code of a block performs the block's actions in
order, whatever the counters hold, and leaves the counters below its level
alone.
-/
import Mathlib.Data.List.Basic
import Mathlib.Logic.Function.Basic
import Mathlib.Logic.Relation

namespace LoopMachine

/-! ### The machine -/

/-- Instructions over actions `α`. -/
inductive Insn (α : Type*)
  | set (r n : ℕ)
  | loop (r k : ℕ)
  | act (a : α)
  | stop
  deriving DecidableEq, Repr

/-- The state of a run. -/
structure State (σ : Type*) where
  pc : ℕ
  counter : ℕ → ℕ
  data : σ
  stopped : Bool

variable {α σ : Type*} (act : α → σ → σ) (p : List (Insn α))

/-- Execute one instruction.  There is no step once the machine has stopped,
and none outside the program. -/
def step (s : State σ) : Option (State σ) :=
  if s.stopped then none
  else match p[s.pc]? with
    | none => none
    | some (.set r n) => some { s with counter := Function.update s.counter r n, pc := s.pc + 1 }
    | some (.loop r k) =>
        if s.counter r = 0 then some { s with pc := s.pc + 1 }
        else if k ≤ s.pc then
          some { s with counter := Function.update s.counter r (s.counter r - 1), pc := s.pc - k }
        else none
    | some (.act a) => some { s with data := act a s.data, pc := s.pc + 1 }
    | some .stop => some { s with stopped := true }

/-- Runs. -/
def Steps : State σ → State σ → Prop :=
  Relation.ReflTransGen fun s s' => step act p s = some s'

theorem Steps.trans {act : α → σ → σ} {p : List (Insn α)} {s t u : State σ}
    (h : Steps act p s t) (h' : Steps act p t u) : Steps act p s u :=
  Relation.ReflTransGen.trans h h'

/-- Execution is deterministic. -/
theorem step_rightUnique : Relator.RightUnique fun s s' : State σ => step act p s = some s' :=
  fun _ _ _ h h' => Option.some.inj (h.symm.trans h')

variable {act p}

/-- Only inside the program is there a step. -/
theorem pc_lt_of_step {s s' : State σ} (h : step act p s = some s') : s.pc < p.length := by
  unfold step at h
  split_ifs at h
  by_contra hpc
  rw [List.getElem?_eq_none (by omega)] at h
  cases h

/-- What one instruction does to the data. -/
theorem data_of_step {s s' : State σ} (h : step act p s = some s') :
    s'.data = s.data ∨ ∃ a, s'.data = act a s.data := by
  unfold step at h
  split_ifs at h
  rcases hi : p[s.pc]? with - | ⟨r, n⟩ | ⟨r, k⟩ | a | -
  all_goals simp only [hi] at h
  · cases h
  · cases h
    exact .inl rfl
  · split_ifs at h <;> cases h <;> exact .inl rfl
  · cases h
    exact .inr ⟨a, rfl⟩
  · cases h
    exact .inl rfl

/-- A run that stops stays inside the program and passes through every state
reachable from its start. -/
theorem Steps.inside {s t e : State σ} (h : Steps act p s e) (he : e.stopped = true)
    (hpc : e.pc < p.length) (ht : Steps act p s t) : t.pc < p.length ∧ Steps act p t e := by
  have hlast : ∀ u, ¬ step act p e = some u := by
    intro u hu
    simp [step, he] at hu
  have hte : Steps act p t e := by
    rcases Relation.ReflTransGen.total_of_right_unique (step_rightUnique act p) h ht with h₁ | h₁
    · rcases h₁.cases_head with rfl | ⟨u, hu, -⟩
      · exact .refl
      · exact absurd hu (hlast u)
    · exact h₁
  refine ⟨?_, hte⟩
  rcases hte.cases_head with rfl | ⟨u, hu, -⟩
  · exact hpc
  · exact pc_lt_of_step hu

/-- Machines whose actions are related take related steps: `R` holds of the
data before and `R'` after. -/
theorem step_related {σ' : Type*} {act' : α → σ' → σ'} {R R' : σ → σ' → Prop}
    (hkeep : ∀ {d d'}, R d d' → R' d d') (hact : ∀ a {d d'}, R d d' → R' (act a d) (act' a d'))
    {pc : ℕ} {counter : ℕ → ℕ} {stopped : Bool} {d : σ} {d' : σ'} (h : R d d') :
    step act p ⟨pc, counter, d, stopped⟩ = none ∧ step act' p ⟨pc, counter, d', stopped⟩ = none ∨
      ∃ pc₁ counter₁ stopped₁ e e', step act p ⟨pc, counter, d, stopped⟩ = some ⟨pc₁, counter₁, e, stopped₁⟩ ∧
        step act' p ⟨pc, counter, d', stopped⟩ = some ⟨pc₁, counter₁, e', stopped₁⟩ ∧ R' e e' := by
  unfold step
  dsimp only
  by_cases hstop : stopped = true
  · rw [if_pos hstop, if_pos hstop]
    exact .inl ⟨rfl, rfl⟩
  · rw [if_neg hstop, if_neg hstop]
    rcases p[pc]? with - | ⟨r, n⟩ | ⟨r, k⟩ | a | -
    · exact .inl ⟨rfl, rfl⟩
    · exact .inr ⟨_, _, _, _, _, rfl, rfl, hkeep h⟩
    · dsimp only
      by_cases h0 : counter r = 0
      · rw [if_pos h0, if_pos h0]
        exact .inr ⟨_, _, _, _, _, rfl, rfl, hkeep h⟩
      · rw [if_neg h0, if_neg h0]
        by_cases hk : k ≤ pc
        · rw [if_pos hk, if_pos hk]
          exact .inr ⟨_, _, _, _, _, rfl, rfl, hkeep h⟩
        · rw [if_neg hk, if_neg hk]
          exact .inl ⟨rfl, rfl⟩
    · exact .inr ⟨_, _, _, _, _, rfl, rfl, hact a h⟩
    · exact .inr ⟨_, _, _, _, _, rfl, rfl, hkeep h⟩

/-- Run until the machine stops, for at most `fuel` instructions. -/
def exec (act : α → σ → σ) (p : List (Insn α)) : ℕ → State σ → Option (State σ)
  | 0, s => if s.stopped then some s else none
  | fuel + 1, s => if s.stopped then some s else (step act p s).bind (exec act p fuel)

theorem steps_of_exec {fuel : ℕ} {s e : State σ} (h : exec act p fuel s = some e) :
    Steps act p s e ∧ e.stopped = true := by
  induction fuel generalizing s with
  | zero =>
    unfold exec at h
    split_ifs at h with hs
    obtain rfl := Option.some.inj h
    exact ⟨.refl, hs⟩
  | succ fuel ih =>
    unfold exec at h
    split_ifs at h with hs
    · obtain rfl := Option.some.inj h
      exact ⟨.refl, hs⟩
    · obtain ⟨t, ht, he⟩ := Option.bind_eq_some_iff.mp h
      obtain ⟨hsteps, hstop⟩ := ih he
      exact ⟨.head ht hsteps, hstop⟩

theorem exec_of_steps {s e : State σ} (h : Steps act p s e) (he : e.stopped = true) :
    ∃ fuel, exec act p fuel s = some e := by
  induction h using Relation.ReflTransGen.head_induction_on with
  | refl => exact ⟨0, by rw [exec, if_pos he]⟩
  | @head s t hst _ ih =>
    obtain ⟨fuel, hf⟩ := ih
    have hs : s.stopped ≠ true := by
      intro hs
      simp [step, hs] at hst
    exact ⟨fuel + 1, by rw [exec, if_neg hs, hst, Option.bind_some, hf]⟩

/-- The state a run stops in does not depend on how long one waits for it. -/
theorem exec_unique {fuel : ℕ} {s e e' : State σ} (h : Steps act p s e) (he : e.stopped = true)
    (h' : exec act p fuel s = some e') : e' = e := by
  have hlast : ∀ {t u}, t.stopped = true → Steps act p t u → u = t := by
    intro t u ht htu
    rcases htu.cases_head with rfl | ⟨v, hv, -⟩
    · rfl
    · simp [step, ht] at hv
  obtain ⟨h₁, he'⟩ := steps_of_exec h'
  rcases Relation.ReflTransGen.total_of_right_unique (step_rightUnique act p) h h₁ with h₂ | h₂
  · exact hlast he h₂
  · exact (hlast he' h₂).symm

/-! ### Blocks -/

/-- Structured programs. -/
inductive Block (α : Type*)
  | op (a : α)
  | seq (l r : Block α)
  | loop (count : ℕ) (body : Block α)

namespace Block

/-- How many instructions the code of a block has. -/
def words : Block α → ℕ
  | op _ => 1
  | seq l r => l.words + r.words
  | loop _ body => 2 + body.words

/-- How deep its loops nest. -/
def depth : Block α → ℕ
  | op _ => 0
  | seq l r => max l.depth r.depth
  | loop _ body => body.depth + 1

/-- The actions of a block, in order; a loop of count `c` runs its body
`c + 1` times. -/
def meaning : Block α → List α
  | op a => [a]
  | seq l r => l.meaning ++ r.meaning
  | loop count body => (List.replicate (count + 1) body.meaning).flatten

/-- The code of a block. -/
def compile (level : ℕ) : Block α → List (Insn α)
  | op a => [.act a]
  | seq l r => l.compile level ++ r.compile level
  | loop count body => .set level count :: body.compile (level + 1) ++ [.loop level body.words]

theorem length_compile (level : ℕ) (b : Block α) : (b.compile level).length = b.words := by
  induction b generalizing level with
  | op a => rfl
  | seq l r ihl ihr => simp [compile, words, ihl, ihr]
  | loop count body ih =>
    simp only [compile, words, List.length_append, List.length_cons, ih, List.length_nil]
    omega

/-- Which counters the code of a block uses. -/
theorem mem_compile {level : ℕ} {b : Block α} {i : Insn α} (h : i ∈ b.compile level) :
    match i with
    | .set r _ | .loop r _ => level ≤ r ∧ r < level + b.depth
    | _ => True := by
  -- the body of a loop is compiled one level up, so its registers lie above the loop's own
  induction b generalizing level with
  | op a =>
    simp only [compile, List.mem_singleton] at h
    subst h
    trivial
  | seq l r ihl ihr =>
    simp only [compile, List.mem_append] at h
    rcases h with h | h
    · have hl := ihl h
      cases i with
      | set r _ | loop r _ =>
        simp only [depth]
        omega
      | act _ | stop => trivial
    · have hr := ihr h
      cases i with
      | set r _ | loop r _ =>
        simp only [depth]
        omega
      | act _ | stop => trivial
  | loop count body ih =>
    simp only [compile, List.cons_append, List.mem_cons, List.mem_append, List.not_mem_nil,
      or_false] at h
    rcases h with rfl | h | rfl
    · simp [depth]
    · have hb := ih h
      cases i with
      | set r _ | loop r _ =>
        simp only [depth]
        omega
      | act _ | stop => trivial
    · simp [depth]

end Block

/-! ### The code of a block runs the block -/

/-- The code `code` stands in the program from `pc` on. -/
def CodeAt (p : List (Insn α)) (pc : ℕ) (code : List (Insn α)) : Prop :=
  ∀ i x, code[i]? = some x → p[pc + i]? = some x

theorem CodeAt.left {pc : ℕ} {l r : List (Insn α)} (h : CodeAt p pc (l ++ r)) : CodeAt p pc l := by
  intro i x hx
  apply h
  rw [List.getElem?_append_left (List.getElem?_eq_some_iff.mp hx).1]
  exact hx

theorem CodeAt.right {pc : ℕ} {l r : List (Insn α)} (h : CodeAt p pc (l ++ r)) :
    CodeAt p (pc + l.length) r := by
  intro i x hx
  rw [Nat.add_assoc]
  apply h
  rw [List.getElem?_append_right (by omega)]
  simpa using hx

theorem CodeAt.head {pc : ℕ} {x : Insn α} {l : List (Insn α)} (h : CodeAt p pc (x :: l)) :
    p[pc]? = some x := h 0 x rfl

theorem CodeAt.tail {pc : ℕ} {x : Insn α} {l : List (Insn α)} (h : CodeAt p pc (x :: l)) :
    CodeAt p (pc + 1) l := by
  intro i y hy
  rw [Nat.add_assoc, Nat.add_comm 1]
  exact h (i + 1) y hy

/-- Running at `pc`. -/
def State.at (pc : ℕ) (counter : ℕ → ℕ) (data : σ) : State σ := ⟨pc, counter, data, false⟩

section run
variable {pc r n k : ℕ} {a : α} (counter : ℕ → ℕ) (data : σ)

theorem steps_set (h : p[pc]? = some (.set r n)) :
    Steps act p (.at pc counter data) (.at (pc + 1) (Function.update counter r n) data) :=
  .single (by simp [step, State.at, h])

theorem steps_act (h : p[pc]? = some (.act a)) :
    Steps act p (.at pc counter data) (.at (pc + 1) counter (act a data)) :=
  .single (by simp [step, State.at, h])

theorem steps_loop_exit (h : p[pc]? = some (.loop r k)) (h0 : counter r = 0) :
    Steps act p (.at pc counter data) (.at (pc + 1) counter data) :=
  .single (by simp [step, State.at, h, h0])

theorem steps_loop_back (h : p[pc + k]? = some (.loop r k)) (h0 : counter r ≠ 0) :
    Steps act p (.at (pc + k) counter data)
      (.at pc (Function.update counter r (counter r - 1)) data) :=
  .single (by simp [step, State.at, h, h0])

/-- The iterations of a loop, once its counter is set: induction on the
counter, the body's run given. -/
theorem loop_run {body : List α} {level words : ℕ}
    (hloop : p[pc + words]? = some (.loop level words))
    (hbody : ∀ counter data, ∃ counter',
      Steps act p (.at pc counter data)
        (.at (pc + words) counter' (body.foldl (fun d a => act a d) data)) ∧
      ∀ r, r < level + 1 → counter' r = counter r) {c : ℕ} (hc : counter level = c) :
    ∃ counter', Steps act p (.at pc counter data) (.at (pc + words + 1) counter'
        ((List.replicate (c + 1) body).flatten.foldl (fun d a => act a d) data)) ∧
      ∀ r, r < level → counter' r = counter r := by
  induction c generalizing counter data with
  | zero =>
    obtain ⟨counter₁, h₁, hk₁⟩ := hbody counter data
    refine ⟨counter₁, h₁.trans ?_, fun r hr => hk₁ r (by omega)⟩
    simpa using steps_loop_exit _ _ hloop (by rw [hk₁ level (by omega), hc])
  | succ c ih =>
    obtain ⟨counter₁, h₁, hk₁⟩ := hbody counter data
    have hlevel : counter₁ level = c + 1 := by
      rw [hk₁ level (by omega), hc]
    obtain ⟨counter₂, h₂, hk₂⟩ := ih
      (Function.update counter₁ level (counter₁ level - 1))
      (body.foldl (fun d a => act a d) data) (by simp [hlevel])
    refine ⟨counter₂, h₁.trans ((steps_loop_back _ _ hloop (by omega)).trans ?_), fun r hr => ?_⟩
    · rw [List.replicate_succ, List.flatten_cons, List.foldl_append]
      exact h₂
    · rw [hk₂ r hr, Function.update_of_ne (by omega), hk₁ r (by omega)]

/-- **The code of a block performs the block's actions**, whatever the
counters hold, and leaves the counters below its level alone. -/
theorem Block.run (b : Block α) (act : α → σ → σ) {level : ℕ} (hcode : CodeAt p pc (b.compile level)) :
    ∃ counter', Steps act p (.at pc counter data)
        (.at (pc + b.words) counter' (b.meaning.foldl (fun d a => act a d) data)) ∧
      ∀ r, r < level → counter' r = counter r := by
  induction b generalizing level pc counter data with
  | op a => exact ⟨counter, steps_act _ _ hcode.head, fun _ _ => rfl⟩
  | seq l r ihl ihr =>
    obtain ⟨counter₁, h₁, hk₁⟩ := ihl counter data hcode.left
    have hright := hcode.right
    rw [length_compile] at hright
    obtain ⟨counter₂, h₂, hk₂⟩ := ihr counter₁
      (l.meaning.foldl (fun d a => act a d) data) hright
    refine ⟨counter₂, ?_, fun q hq => (hk₂ q hq).trans (hk₁ q hq)⟩
    rw [words, meaning, List.foldl_append, ← Nat.add_assoc]
    exact h₁.trans h₂
  | loop count body ih =>
    have hbody : CodeAt p (pc + 1) (body.compile (level + 1)) := hcode.left.tail
    have hloop : p[pc + 1 + body.words]? = some (.loop level body.words) := by
      have h := hcode.right.head
      rw [List.length_cons, length_compile] at h
      rwa [Nat.add_assoc, Nat.add_comm 1]
    obtain ⟨counter₁, h₁, hk₁⟩ := loop_run (Function.update counter level count) data hloop
      (fun counter data => ih counter data hbody) (c := count) (by simp)
    refine ⟨counter₁, ?_, fun r hr => ?_⟩
    · rw [words, meaning, show pc + (2 + body.words) = pc + 1 + body.words + 1 by omega]
      exact (steps_set _ _ hcode.left.head).trans h₁
    · rw [hk₁ r hr, Function.update_of_ne (by omega)]

/-- A compiled block followed by `stop` runs from its first instruction to
`stop`. -/
theorem Block.run_stop (b : Block α) (act : α → σ → σ) (level : ℕ) (counter : ℕ → ℕ) (data : σ) :
    ∃ counter', Steps act (b.compile level ++ [.stop]) (.at 0 counter data)
      ⟨b.words, counter', b.meaning.foldl (fun d a => act a d) data, true⟩ := by
  have hcode : CodeAt (b.compile level ++ [.stop]) 0 (b.compile level ++ [.stop]) := by
    intro i x hx
    rwa [Nat.zero_add]
  obtain ⟨counter', h, -⟩ := b.run counter data act hcode.left
  have hstop := hcode.right.head
  rw [length_compile, Nat.zero_add] at hstop
  rw [Nat.zero_add] at h
  refine ⟨counter', h.trans (.single ?_)⟩
  simp [step, State.at, hstop]

end run

end LoopMachine
