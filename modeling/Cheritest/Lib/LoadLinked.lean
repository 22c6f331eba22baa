/-
Cheritest/Lib/LoadLinked.lean

Adding to a shared value by load-linked and store-conditional.

A load reserves the value, and any store clears all reservations.  A store
adds the thread's weight to what the thread loaded, and happens only if the
thread's reservation still stands; a reservation may also be lost without a
store.  So a value that is stored is the current one plus a weight, and no
addition is lost or made twice, in any order of the threads' steps
(`value_eq`).
-/
import Mathlib.Algebra.BigOperators.Group.Finset.Basic
import Mathlib.Data.Fintype.BigOperators
import Cheritest.Lib.Transition

namespace LoadLinked

variable {ι M : Type*} [DecidableEq ι]

/-- The shared value; of each thread, whether its reservation stands, what it
loaded last and how often it has stored. -/
structure State (ι M : Type*) where
  value : M
  linked : ι → Bool
  loaded : ι → M
  done : ι → ℕ

namespace State

/-- Thread `i` loads the value. -/
def load (s : State ι M) (i : ι) : State ι M :=
  { s with linked := Function.update s.linked i true, loaded := Function.update s.loaded i s.value }

/-- Thread `i` stores what it loaded plus its weight. -/
def store [Add M] (w : ι → M) (s : State ι M) (i : ι) : State ι M :=
  { s with
    value := s.loaded i + w i
    linked := fun _ => false
    done := Function.update s.done i (s.done i + 1) }

/-- Thread `i` loses its reservation. -/
def lose (s : State ι M) (i : ι) : State ι M :=
  { s with linked := Function.update s.linked i false }

end State

/-- One step of one thread. -/
inductive Step [Add M] (w : ι → M) : State ι M → State ι M → Prop
  | load {s} (i) : Step w s (s.load i)
  | store {s} (i) : s.linked i = true → Step w s (s.store w i)
  | lose {s} (i) : Step w s (s.lose i)

section counter
variable [AddCommMonoid M] {w : ι → M} {s s' : State ι M}

/-- Threads of weights `w` that count from zero. -/
def counter (w : ι → M) : System (State ι M) where
  init s := s.value = 0 ∧ (∀ i, s.linked i = false) ∧ ∀ i, s.done i = 0
  step := Step w

variable [Fintype ι]

/-- A thread whose reservation stands has loaded the current value, and the
value is the sum of what has been added. -/
structure Inv (w : ι → M) (s : State ι M) : Prop where
  linked : ∀ i, s.linked i = true → s.loaded i = s.value
  sum : s.value = ∑ i, s.done i • w i

/-- One more addition. -/
theorem sum_update (w : ι → M) (done : ι → ℕ) (i : ι) :
    ∑ j, Function.update done i (done i + 1) j • w j = ∑ j, done j • w j + w i := by
  have hterm (j : ι) : Function.update done i (done i + 1) j • w j
      = done j • w j + if j = i then w i else 0 := by
    rw [Function.update_apply]
    split_ifs with hj
    · rw [hj, succ_nsmul]
    · rw [add_zero]
  rw [Finset.sum_congr rfl fun j _ => hterm j, Finset.sum_add_distrib, Finset.sum_ite_eq',
    if_pos (Finset.mem_univ i)]

theorem Inv.step (h : Inv w s) (hs : Step w s s') : Inv w s' := by
  obtain ⟨hlinked, hsum⟩ := h
  cases hs with
  | load i =>
    refine ⟨fun j hj => ?_, hsum⟩
    by_cases hji : j = i
    · subst hji
      exact Function.update_self ..
    · simp only [State.load, Function.update_of_ne hji] at hj ⊢
      exact hlinked j hj
  | store i hi =>
    constructor
    · intro j hj
      cases hj
    · show s.loaded i + w i = ∑ j, Function.update s.done i (s.done i + 1) j • w j
      rw [sum_update, hlinked i hi, hsum]
  | lose i =>
    refine ⟨fun j hj => ?_, hsum⟩
    by_cases hji : j = i
    · subst hji
      simp [State.lose] at hj
    · simp only [State.lose, Function.update_of_ne hji] at hj
      exact hlinked j hj

theorem reachable_inv (h : (counter w).Reachable s) : Inv w s := by
  refine h.invariant ?_ Inv.step
  rintro s ⟨hvalue, hlinked, hdone⟩
  constructor
  · intro i hi
    rw [hlinked i] at hi
    cases hi
  · simp [hvalue, hdone]

/-- **Nothing is lost and nothing is added twice.** -/
theorem value_eq (h : (counter w).Reachable s) : s.value = ∑ i, s.done i • w i :=
  (reachable_inv h).sum

end counter

end LoadLinked
