/-
Cheritest/Lib/CounterBarrier.lean

A reusable barrier made of one counter for each of `N` threads.

A call of the barrier increments the thread's own counter and then scans all
counters from the last to the first, starting over at each one that is still
behind.  Reading the own counter, storing it, and each comparison are
separate steps, and the threads' steps interleave in any order.

`Leaving.all_arrived` is the safety of the barrier and `no_restart` the
progress that does not depend on fairness: once all have arrived, no
comparison fails any more, whatever faster threads do meanwhile.
-/
import Mathlib.Logic.Function.Basic
import Mathlib.Order.Fin.Basic
import Cheritest.Lib.Transition

namespace CounterBarrier

variable {N : ℕ}

/-- Where a thread is.  `v` is the value of its own counter in this call. -/
inductive Place (N : ℕ)
  | outside
  | entering
  | storing (v : ℕ)
  | restarting (v : ℕ)
  | scanning (v : ℕ) (x : Fin N)
  | leaving (v : ℕ)

/-- The threads, how often each has called, and the counters. -/
structure State (N : ℕ) where
  calls : Fin N → ℕ
  counter : Fin N → ℕ
  place : Fin N → Place N

namespace State

variable (s : State N) (i : Fin N)

/-- Thread `i` goes to `p`. -/
def goto (p : Place N) : State N := { s with place := Function.update s.place i p }

@[simp] theorem goto_calls (p : Place N) : (s.goto i p).calls = s.calls := rfl
@[simp] theorem goto_counter (p : Place N) : (s.goto i p).counter = s.counter := rfl
@[simp] theorem goto_place (p : Place N) (j : Fin N) :
    (s.goto i p).place j = if j = i then p else s.place j := Function.update_apply ..

theorem goto_self {p : Place N} (h : s.place i = p) : s.goto i p = s := by
  subst h
  simp [goto]

/-- Thread `i` starts another call. -/
def enter : State N :=
  { s with calls := Function.update s.calls i (s.calls i + 1) }.goto i .entering

/-- Thread `i` stores `v` to its counter. -/
def store (v : ℕ) : State N :=
  { s with counter := Function.update s.counter i v }.goto i (.restarting v)

end State

/-- The last counter. -/
def last (i : Fin N) : Fin N := ⟨N - 1, by have := i.isLt; omega⟩

/-- After counter `x` has passed. -/
def next (v : ℕ) (x : Fin N) : Place N :=
  if 0 < x.val then .scanning v ⟨x.val - 1, by omega⟩ else .leaving v

/-- One step of one thread. -/
inductive Step : State N → State N → Prop
  | call {s} (i) : s.place i = .outside → Step s (s.enter i)
  | load {s} (i) : s.place i = .entering → Step s (s.goto i (.storing (s.counter i + 1)))
  | store {s} (i v) : s.place i = .storing v → Step s (s.store i v)
  | start {s} (i v) : s.place i = .restarting v → Step s (s.goto i (.scanning v (last i)))
  | pass {s} (i v x) : s.place i = .scanning v x → v ≤ s.counter x → Step s (s.goto i (next v x))
  | fail {s} (i v x) : s.place i = .scanning v x → s.counter x < v →
      Step s (s.goto i (.restarting v))
  | ret {s} (i v) : s.place i = .leaving v → Step s (s.goto i .outside)

/-- The barrier: nobody has called and all counters are zero. -/
def barrier (N : ℕ) : System (State N) where
  init s := ∀ i, s.calls i = 0 ∧ s.counter i = 0 ∧ s.place i = .outside
  step := Step

/-! ### The invariant -/

/-- What is known about a thread at a place: `k` calls begun, own counter
`own`, all counters `cnt`. -/
def Known (k own : ℕ) (cnt : Fin N → ℕ) : Place N → Prop
  | .outside => own = k
  | .entering => own + 1 = k
  | .storing v => own + 1 = k ∧ v = k
  | .restarting v => own = k ∧ v = k
  | .scanning v x => own = k ∧ v = k ∧ ∀ j, x < j → k ≤ cnt j
  | .leaving v => own = k ∧ v = k ∧ ∀ j, k ≤ cnt j

/-- What is known only grows with the counters. -/
theorem Known.mono {k own : ℕ} {cnt cnt' : Fin N → ℕ} {p : Place N} (h : Known k own cnt p)
    (hle : ∀ j, cnt j ≤ cnt' j) : Known k own cnt' p := by
  cases p with
  | outside => exact h
  | entering => exact h
  | storing v => exact h
  | restarting v => exact h
  | scanning v x =>
    obtain ⟨ho, hv, hall⟩ := h
    exact ⟨ho, hv, fun j hj => (hall j hj).trans (hle j)⟩
  | leaving v =>
    obtain ⟨ho, hv, hall⟩ := h
    exact ⟨ho, hv, fun j => (hall j).trans (hle j)⟩

/-- The invariant of the barrier. -/
def Inv (s : State N) : Prop := ∀ i, Known (s.calls i) (s.counter i) s.counter (s.place i)

variable {s s' : State N} {i : Fin N}

/-- A thread's move changes only what is known about it. -/
theorem Inv.goto (h : Inv s) {p : Place N} (hp : Known (s.calls i) (s.counter i) s.counter p) :
    Inv (s.goto i p) := by
  intro j
  rw [State.goto_place]
  split_ifs with hj
  · rw [hj]
    exact hp
  · exact h j

/-- All counters up to `x` from above have passed. -/
theorem known_next {k own : ℕ} {cnt : Fin N → ℕ} {v : ℕ} {x : Fin N}
    (h : Known k own cnt (.scanning v x)) (hx : k ≤ cnt x) : Known k own cnt (next v x) := by
  obtain ⟨ho, hv, hall⟩ := h
  unfold next
  split_ifs with h0
  · refine ⟨ho, hv, fun j hj => ?_⟩
    rcases lt_trichotomy j x with hlt | rfl | hgt
    · have h₁ : x.val - 1 < j.val := hj
      have h₂ : j.val < x.val := hlt
      omega
    · exact hx
    · exact hall j hgt
  · refine ⟨ho, hv, fun j => ?_⟩
    rcases lt_trichotomy j x with hlt | rfl | hgt
    · have h₂ : j.val < x.val := hlt
      omega
    · exact hx
    · exact hall j hgt

theorem Inv.step (h : Inv s) (hs : Step s s') : Inv s' := by
  cases hs with
  | call i hp =>
    intro j
    have hj := h j
    simp only [State.enter, State.goto_place, State.goto_calls, State.goto_counter]
    by_cases hji : j = i
    · subst hji
      rw [hp] at hj
      simp only [if_true, Function.update_self]
      exact congrArg (· + 1) hj
    · rw [if_neg hji, Function.update_of_ne hji]
      exact hj
  | load i hp =>
    have hi := h i
    rw [hp] at hi
    exact h.goto ⟨hi, hi⟩
  | store i v hp =>
    have hi := h i
    rw [hp] at hi
    obtain ⟨ho, rfl⟩ := hi
    -- a counter only grows, and what the others know of it stays true
    have hmono : ∀ j, s.counter j ≤ Function.update s.counter i (s.calls i) j := by
      intro j
      rw [Function.update_apply]
      split_ifs with hj
      · rw [hj]
        omega
      · exact le_refl _
    intro j
    simp only [State.store, State.goto_place, State.goto_calls, State.goto_counter]
    by_cases hji : j = i
    · subst hji
      simp only [if_true, Function.update_self]
      exact ⟨rfl, rfl⟩
    · rw [if_neg hji, Function.update_of_ne hji]
      exact (h j).mono hmono
  | start i v hp =>
    have hi := h i
    rw [hp] at hi
    refine h.goto ⟨hi.1, hi.2, fun j hj => ?_⟩
    have h₁ : N - 1 < j.val := hj
    have h₂ := j.isLt
    omega
  | pass i v x hp hle =>
    have hi := h i
    rw [hp] at hi
    exact h.goto (known_next hi (by rw [← hi.2.1]; exact hle))
  | fail i v x hp _ =>
    have hi := h i
    rw [hp] at hi
    exact h.goto ⟨hi.1, hi.2.1⟩
  | ret i v hp =>
    have hi := h i
    rw [hp] at hi
    exact h.goto hi.1

theorem reachable_inv (h : (barrier N).Reachable s) : Inv s :=
  h.invariant (fun hi i => by
    obtain ⟨hk, hc, hp⟩ := hi i
    rw [hp, hk, hc]
    rfl) Inv.step

/-- **Nobody leaves early**: a thread that leaves its `k`-th call, its
counter being `k`, leaves when everyone has stored the count of their
`k`-th. -/
theorem all_arrived (h : (barrier N).Reachable s) {v : ℕ} (hp : s.place i = .leaving v) :
    v = s.calls i ∧ ∀ j, s.calls i ≤ s.counter j := by
  have hi := reachable_inv h i
  rw [hp] at hi
  exact hi.2

/-! ### Progress -/

/-- Counters never decrease, and counts of calls neither. -/
theorem step_mono (h : Inv s) (hs : Step s s') :
    (∀ j, s.counter j ≤ s'.counter j) ∧ ∀ j, s.calls j ≤ s'.calls j := by
  cases hs with
  | call i hp =>
    refine ⟨fun j => le_refl _, fun j => ?_⟩
    simp only [State.enter, State.goto_calls, Function.update_apply]
    split_ifs with hj
    · rw [hj]
      omega
    · exact le_refl _
  | store i v hp =>
    have hi := h i
    rw [hp] at hi
    obtain ⟨ho, rfl⟩ := hi
    refine ⟨fun j => ?_, fun j => le_refl _⟩
    simp only [State.store, State.goto_counter, Function.update_apply]
    split_ifs with hj
    · rw [hj]
      omega
    · exact le_refl _
  | load i hp => exact ⟨fun _ => le_refl _, fun _ => le_refl _⟩
  | start i v hp => exact ⟨fun _ => le_refl _, fun _ => le_refl _⟩
  | pass i v x hp _ => exact ⟨fun _ => le_refl _, fun _ => le_refl _⟩
  | fail i v x hp _ => exact ⟨fun _ => le_refl _, fun _ => le_refl _⟩
  | ret i v hp => exact ⟨fun _ => le_refl _, fun _ => le_refl _⟩

/-- Past the point of starting over. -/
def Committed : Place N → Prop
  | .scanning _ _ => True
  | .leaving _ => True
  | .outside => True
  | _ => False

/-- In call `k`, thread `i` will not start over: all have arrived, and it is
past that point or in a later call. -/
structure Settled (k : ℕ) (i : Fin N) (s : State N) : Prop where
  inv : Inv s
  arrived : ∀ j, k ≤ s.counter j
  calls : k ≤ s.calls i
  committed : s.calls i = k → Committed (s.place i)

theorem Settled.step {k : ℕ} (h : Settled k i s) (hs : Step s s') : Settled k i s' := by
  obtain ⟨hcnt, hcalls⟩ := step_mono h.inv hs
  refine ⟨h.inv.step hs, fun j => (h.arrived j).trans (hcnt j), h.calls.trans (hcalls i), ?_⟩
  -- only the step of `i` itself matters, and only within call `k`
  have hother {j : Fin N} {p : Place N} (hp : i ≠ j) (hk : s.calls i = k) :
      Committed ((s.goto j p).place i) := by
    rw [State.goto_place, if_neg hp]
    exact h.committed hk
  cases hs with
  | call j hp =>
    intro hk
    by_cases hij : i = j
    · subst hij
      have hle := h.calls
      simp only [State.enter, State.goto_calls, Function.update_self] at hk
      omega
    · simp only [State.enter, State.goto_calls, Function.update_of_ne hij] at hk
      simp only [State.enter, State.goto_place, if_neg hij]
      exact h.committed hk
  | load j hp =>
    intro hk
    by_cases hij : i = j
    · subst hij
      have hc := h.committed hk
      rw [hp] at hc
      exact hc.elim
    · exact hother hij hk
  | store j v hp =>
    intro hk
    by_cases hij : i = j
    · subst hij
      have hc := h.committed hk
      rw [hp] at hc
      exact hc.elim
    · simp only [State.store, State.goto_place, if_neg hij]
      exact h.committed hk
  | start j v hp =>
    intro hk
    by_cases hij : i = j
    · subst hij
      have hc := h.committed hk
      rw [hp] at hc
      exact hc.elim
    · exact hother hij hk
  | pass j v x hp _ =>
    intro hk
    by_cases hij : i = j
    · subst hij
      rw [State.goto_place, if_pos rfl, next]
      split_ifs <;> trivial
    · exact hother hij hk
  | fail j v x hp hlt =>
    intro hk
    by_cases hij : i = j
    · subst hij
      have hi := h.inv i
      rw [hp] at hi
      have hle := h.arrived x
      have hv := hi.2.1
      have hkc : s.calls i = k := hk
      omega
    · exact hother hij hk
  | ret j v hp =>
    intro hk
    by_cases hij : i = j
    · subst hij
      rw [State.goto_place, if_pos rfl]
      trivial
    · exact hother hij hk

/-- **Nobody is held back**: from a state in which everyone has stored the
count of the `k`-th call, a thread scanning in that call never starts over
in it. -/
theorem no_restart (h : (barrier N).Reachable s) {v : ℕ} {x : Fin N}
    (hp : s.place i = .scanning v x) (hall : ∀ j, s.calls i ≤ s.counter j)
    (hr : (barrier N).Run s s') (hk : s'.calls i = s.calls i) : ∀ w, s'.place i ≠ .restarting w := by
  have hs : Settled (s.calls i) i s :=
    ⟨reachable_inv h, hall, le_refl _, fun _ => by rw [hp]; trivial⟩
  have hs' : Settled (s.calls i) i s' := hr.invariant Settled.step hs
  intro w hw
  have hc := hs'.committed hk
  rw [hw] at hc
  exact hc

end CounterBarrier
