/-
Cheritest/Lib/AtomicObject.lean

An object that is changed by one call at a time.

A call returns the value that the object has and gives it another one.  Calls
that are made one after the other are `Serial`: each returns the value just
before it.  A lock-based implementation is correct if the object simulates it.
-/
import Cheritest.Lib.Transition
import Mathlib.Algebra.BigOperators.Group.List.Basic
import Mathlib.Algebra.Group.Basic

namespace AtomicObject

/-- A call of a thread and the value that it returned. -/
structure Returned (ι C V : Type*) where
  thread : ι
  call : C
  value : V

/-- The object and the calls that have returned, in their order. -/
structure State (ι C V : Type*) where
  value : V
  returned : List (Returned ι C V)

variable {ι C V : Type*}

/-- One call of one thread. -/
inductive Step (effect : C → V → V) (P : C → Prop) : State ι C V → State ι C V → Prop
  | call {s} (i : ι) (c : C) : P c →
      Step effect P s ⟨effect c s.value, s.returned ++ [⟨i, c, s.value⟩]⟩

/-- The object with value `v₀`, on which threads make calls with `P`. -/
def system (effect : C → V → V) (P : C → Prop) (v₀ : V) : System (State ι C V) where
  init s := s = ⟨v₀, []⟩
  step := Step effect P

/-- From value `v` the calls lead to value `w`, each returning the value just
before it. -/
def Serial (effect : C → V → V) : V → List (Returned ι C V) → V → Prop
  | v, [], w => v = w
  | v, r :: rs, w => r.value = v ∧ Serial effect (effect r.call v) rs w

section serial
variable {effect effect' : C → V → V} {P : C → Prop} {v₀ v w : V} {l : List (Returned ι C V)}
  {s s' : State ι C V}

/-- One more call. -/
theorem Serial.append (h : Serial effect v l w) (i : ι) (c : C) :
    Serial effect v (l ++ [⟨i, c, w⟩]) (effect c w) := by
  induction l generalizing v with
  | nil =>
    obtain rfl : v = w := h
    exact ⟨rfl, rfl⟩
  | cons r rs ih =>
    obtain ⟨hr, hrs⟩ := h
    exact ⟨hr, ih hrs⟩

/-- Only the effects of the calls made matter. -/
theorem Serial.congr (h : Serial effect v l w) (heq : ∀ r ∈ l, effect r.call = effect' r.call) :
    Serial effect' v l w := by
  induction l generalizing v with
  | nil => exact h
  | cons r rs ih =>
    obtain ⟨hr, hrs⟩ := h
    refine ⟨hr, ?_⟩
    rw [← heq r List.mem_cons_self]
    exact ih hrs fun r' hr' => heq r' (List.mem_cons_of_mem r hr')

/-- If every call adds something, the last value is the first one and all that
has been added. -/
theorem Serial.eq_sum [AddMonoid V] {delta : C → V} (heff : ∀ c v, effect c v = v + delta c)
    (h : Serial effect v l w) : w = v + (l.map fun r => delta r.call).sum := by
  induction l generalizing v with
  | nil =>
    obtain rfl : v = w := h
    rw [List.map_nil, List.sum_nil, add_zero]
  | cons r rs ih =>
    rw [ih h.2, heff, List.map_cons, List.sum_cons, add_assoc]

/-- What holds of the calls made holds of the calls that have returned. -/
theorem returned_of_reachable (h : (system effect P v₀).Reachable s) :
    Serial effect v₀ s.returned s.value ∧ ∀ r ∈ s.returned, P r.call := by
  refine h.invariant (I := fun s => Serial effect v₀ s.returned s.value ∧ ∀ r ∈ s.returned, P r.call)
    (fun {s} (hi : s = _) => ?_) fun {s s'} hs hstep => ?_
  · subst hi
    exact ⟨rfl, fun r hr => by cases hr⟩
  · obtain ⟨i, c, hP⟩ := hstep
    refine ⟨hs.1.append i c, fun r hr => ?_⟩
    rcases List.mem_append.mp hr with hr | hr
    · exact hs.2 r hr
    · rw [List.mem_singleton] at hr
      exact hr ▸ hP

end serial

end AtomicObject
