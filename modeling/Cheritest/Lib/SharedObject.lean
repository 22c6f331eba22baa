/-
Cheritest/Lib/SharedObject.lean

Linearizable objects.

Threads call an object and get answers; a history lists the calls and the
answers in their order.  It is linearizable if every call can be given one
moment, between the call and its answer, such that the answers are those of
calls which happen at these moments, one after the other.

`object` is the object all of whose calls happen at such moments.  Its
histories are linearizable (`linearizable_of_reachable`), and so are those of
any implementation that it simulates.
-/
import Cheritest.Lib.Transition
import Mathlib.Logic.Function.Basic

namespace SharedObject

/-- What a call does: from the caller's own memory `P` and the value of the
object come the result, the caller's memory and the value afterwards. -/
abbrev Effect (C P V R : Type) := C → P → V → R × P × V

/-- A call with the caller's memory, or an answer with the result and the
caller's memory. -/
inductive Event (ι C P R : Type)
  | invoke (i : ι) (c : C) (p : P)
  | answer (i : ι) (r : R) (p : P)

/-- An event, or the moment at which a call has its effect. -/
inductive Action (ι C P R : Type)
  | invoke (i : ι) (c : C) (p : P)
  | commit (i : ι) (c : C) (p : P) (r : R) (p' : P)
  | answer (i : ι) (r : R) (p : P)

/-- Where a thread is: no call is under way, or one that has not happened yet,
or one that has. -/
inductive Status (C P R : Type)
  | idle
  | invoked (c : C) (p : P)
  | done (r : R) (p : P)

variable {ι C P V R : Type}

namespace Action

def thread : Action ι C P R → ι
  | invoke i _ _ | commit i _ _ _ _ | answer i _ _ => i

/-- What can be seen of an action. -/
def event : Action ι C P R → Option (Event ι C P R)
  | invoke i c p => some (.invoke i c p)
  | commit _ _ _ _ _ => none
  | answer i r p => some (.answer i r p)

end Action

/-- The calls of a trace happen one after the other, from value `v` to `w`. -/
def Serial (effect : Effect C P V R) : V → List (Action ι C P R) → V → Prop
  | v, [], w => v = w
  | v, .commit _ c p r p' :: t, w => ∃ v', effect c p v = (r, p', v') ∧ Serial effect v' t w
  | v, .invoke _ _ _ :: t, w => Serial effect v t w
  | v, .answer _ _ _ :: t, w => Serial effect v t w

/-- The actions of one thread: each call happens once, before its answer, and
the answer is what came of it. -/
inductive Turns : List (Action ι C P R) → Status C P R → Prop
  | nil : Turns [] .idle
  | invoke {t} (i c p) : Turns t .idle → Turns (t ++ [.invoke i c p]) (.invoked c p)
  | commit {t c p} (i r p') : Turns t (.invoked c p) → Turns (t ++ [.commit i c p r p']) (.done r p')
  | answer {t r p} (i) : Turns t (.done r p) → Turns (t ++ [.answer i r p]) .idle

/-- A history, from value `v` of the object to `w`. -/
def Linearizable [DecidableEq ι] (effect : Effect C P V R) (v : V) (history : List (Event ι C P R))
    (w : V) : Prop :=
  ∃ t : List (Action ι C P R), t.filterMap Action.event = history ∧ Serial effect v t w ∧
    ∀ i, ∃ st, Turns (t.filter fun x => x.thread = i) st

/-! ### The object -/

/-- The object, the threads, and what has been done. -/
structure State (ι C P V R : Type) where
  value : V
  status : ι → Status C P R
  trace : List (Action ι C P R)

namespace State

def history (s : State ι C P V R) : List (Event ι C P R) := s.trace.filterMap Action.event

variable [DecidableEq ι]

/-- Action `x` of thread `i`, which is at `st` then. -/
def act (s : State ι C P V R) (i : ι) (x : Action ι C P R) (st : Status C P R) : State ι C P V R :=
  { s with status := Function.update s.status i st, trace := s.trace ++ [x] }

@[simp] theorem act_value (s : State ι C P V R) (i : ι) (x : Action ι C P R) (st : Status C P R) :
    (s.act i x st).value = s.value := rfl

@[simp] theorem act_status (s : State ι C P V R) (i : ι) (x : Action ι C P R) (st : Status C P R) :
    (s.act i x st).status i = st := Function.update_self ..

theorem act_status_of_ne (s : State ι C P V R) {i j : ι} (x : Action ι C P R) (st : Status C P R)
    (h : j ≠ i) : (s.act i x st).status j = s.status j := Function.update_of_ne h ..

theorem act_history (s : State ι C P V R) (i : ι) (x : Action ι C P R) (st : Status C P R) :
    (s.act i x st).history = s.history ++ x.event.toList := by
  unfold history act
  rw [List.filterMap_append]
  cases x <;> rfl

end State

variable [DecidableEq ι]

/-- One step of one thread, which may make the calls with `Permitted`. -/
inductive Step (effect : Effect C P V R) (Permitted : ι → C → Prop) :
    State ι C P V R → State ι C P V R → Prop
  | invoke {s} (i c p) : s.status i = .idle → Permitted i c →
      Step effect Permitted s (s.act i (.invoke i c p) (.invoked c p))
  | commit {s} (i) {c p r p' v} : s.status i = .invoked c p → effect c p s.value = (r, p', v) →
      Step effect Permitted s { s.act i (.commit i c p r p') (.done r p') with value := v }
  | answer {s} (i) {r p} : s.status i = .done r p →
      Step effect Permitted s (s.act i (.answer i r p) .idle)

/-- The object with value `v₀`. -/
def object (effect : Effect C P V R) (Permitted : ι → C → Prop) (v₀ : V) :
    System (State ι C P V R) where
  init s := s = ⟨v₀, fun _ => .idle, []⟩
  step := Step effect Permitted

section serial
variable {effect effect' : Effect C P V R} {Permitted : ι → C → Prop} {v₀ v w v' : V}
  {t : List (Action ι C P R)} {s s' : State ι C P V R} {i : ι} {c : C} {p p' : P} {r : R}

omit [DecidableEq ι] in
theorem Serial.append {l : List (Action ι C P R)} (h : Serial effect v t w)
    (hl : Serial effect w l v') : Serial effect v (t ++ l) v' := by
  induction t generalizing v with
  | nil =>
    obtain rfl : v = w := h
    exact hl
  | cons x t ih =>
    cases x with
    | invoke i c p => exact ih (v := v) h
    | commit i c p r p' =>
      obtain ⟨u, hu, ht⟩ := h
      exact ⟨u, hu, ih ht⟩
    | answer i r p => exact ih (v := v) h

/-- One more action of thread `i`. -/
theorem turns_append {x : Action ι C P R} (hx : x.thread = i) {st st' : Status C P R}
    (hi : Turns (t.filter fun y => y.thread = i) st →
      Turns ((t.filter fun y => y.thread = i) ++ [x]) st')
    {status : ι → Status C P R} (h : ∀ j, Turns (t.filter fun y => y.thread = j) (status j))
    (hst : status i = st) :
    ∀ j, Turns ((t ++ [x]).filter fun y => y.thread = j) (Function.update status i st' j) := by
  intro j
  rw [List.filter_append]
  by_cases hj : j = i
  · subst hj
    rw [Function.update_self, List.filter_cons_of_pos (by simpa using hx), List.filter_nil]
    exact hi (hst ▸ h j)
  · rw [Function.update_of_ne hj, List.filter_cons_of_neg (by simpa [hx] using Ne.symm hj),
      List.filter_nil, List.append_nil]
    exact h j

/-- **The object's histories are linearizable.** -/
theorem linearizable_of_reachable (h : (object effect Permitted v₀).Reachable s) :
    Linearizable effect v₀ s.history s.value := by
  have hall : Serial effect v₀ s.trace s.value ∧
      ∀ i, Turns (s.trace.filter fun x => x.thread = i) (s.status i) := by
    refine h.invariant (I := fun s => Serial effect v₀ s.trace s.value ∧
      ∀ i, Turns (s.trace.filter fun x => x.thread = i) (s.status i)) ?_ ?_
    · rintro s (rfl : s = _)
      exact ⟨rfl, fun i => .nil⟩
    · rintro s s' ⟨hserial, hturns⟩ (⟨i, c, p, hi, -⟩ | @⟨i, c, p, r, p', v, hi, heff⟩ | @⟨i, r, p, hi⟩)
      · exact ⟨hserial.append rfl, turns_append rfl (.invoke i c p) hturns hi⟩
      · exact ⟨hserial.append ⟨v, heff, rfl⟩, turns_append rfl (.commit i r p') hturns hi⟩
      · exact ⟨hserial.append rfl, turns_append rfl (.answer i) hturns hi⟩
  exact ⟨s.trace, rfl, hall.1, fun i => ⟨s.status i, hall.2 i⟩⟩

end serial

end SharedObject
