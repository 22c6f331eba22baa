/-
Cheritest/Purecap/Atomic.lean

The read-modify-write helpers for capabilities: atomic.c.

`__atomic_fetch_add_cap` and `__atomic_fetch_sub_cap` are two instances of one
macro, which takes a spinlock, replaces the value and releases the lock.  Any
number of threads make calls for one pointer; a step of the system is one lock
attempt, one load or store, or one release, of any thread.  Of the capability
at the pointer only the address is kept.

The threads take turns as they should, so that the calls have an effect one
after the other (`atomics_simulates`).  But the operator of the second
instance is `+`, too: the helpers are correct if and only if no call subtracts
anything but 0 or half of the address space (`fetch_cap_correct_iff`).
-/
import Cheritest.Lib.Numerals
import Cheritest.Lib.AtomicObject
import Mathlib.Data.BitVec
import Mathlib.Logic.Function.Basic

namespace Cheritest

namespace Atomic

open AtomicObject (Returned Serial)

/-! ### The code -/

def SPINLOCK_COUNT : ℕ := 1 <<< 10
def SPINLOCK_MASK : BitVec 64 := BitVec.ofNat 64 (SPINLOCK_COUNT - 1)

/-- The index of the lock for a pointer. -/
def lock_for_pointer (ptr : BitVec 64) : BitVec 64 :=
  let hash := ptr >>> 4
  let low := hash &&& SPINLOCK_MASK
  let hash := hash >>> 16
  let hash := hash ^^^ low
  hash &&& SPINLOCK_MASK

/-- The calls, with their amounts. -/
inductive Call
  | fetch_add_cap (val : BitVec 64)
  | fetch_sub_cap (val : BitVec 64)
  deriving DecidableEq

/-- `tmp op val`, with the operators that `ATOMIC_RMW` is instantiated with. -/
def Call.op : Call → BitVec 64 → BitVec 64
  | fetch_add_cap val, tmp => tmp + val
  | fetch_sub_cap val, tmp => tmp + val

/-- Where a thread is: outside, about to compare and exchange the lock, behind
a compare-exchange that failed, about to read the value, to write it and to
release the lock. -/
inductive Place
  | idle
  | attempt (c : Call) (old : BitVec 64)
  | failed (c : Call) (old : BitVec 64)
  | load (c : Call)
  | store (c : Call) (tmp : BitVec 64)
  | unlock (c : Call) (tmp : BitVec 64)
  deriving DecidableEq

/-- Between `lock` and `unlock`. -/
def Place.Inside : Place → Prop
  | idle | attempt _ _ | failed _ _ => False
  | load _ | store _ _ | unlock _ _ => True

/-- The locks, the value at the pointer, the threads, and the calls that have
returned. -/
structure State (ι : Type) where
  locks : BitVec 64 → BitVec 64
  value : BitVec 64
  thread : ι → Place
  returned : List (Returned ι Call (BitVec 64))

variable {ι : Type} [DecidableEq ι]

def State.move (s : State ι) (i : ι) (p : Place) : State ι :=
  { s with thread := Function.update s.thread i p }

theorem State.thread_move (s : State ι) (i : ι) (p : Place) : (s.move i p).thread i = p :=
  Function.update_self ..

theorem State.thread_move_of_ne (s : State ι) {i j : ι} (p : Place) (h : j ≠ i) :
    (s.move i p).thread j = s.thread j :=
  Function.update_of_ne h ..

/-- The steps of a thread; a weak compare-exchange may fail at any time. -/
inductive Step (ptr : BitVec 64) (P : Call → Prop) : State ι → State ι → Prop
  | call {s} (i c) : s.thread i = .idle → P c → Step ptr P s (s.move i (.attempt c 0))
  | acquire {s} (i c old) : s.thread i = .attempt c old → s.locks (lock_for_pointer ptr) = old →
      Step ptr P s { s.move i (.load c) with
        locks := Function.update s.locks (lock_for_pointer ptr) 1 }
  | miss {s} (i c old) : s.thread i = .attempt c old →
      Step ptr P s (s.move i (.failed c (s.locks (lock_for_pointer ptr))))
  | retry {s} (i c old) : s.thread i = .failed c old → Step ptr P s (s.move i (.attempt c 0))
  | load {s} (i c) : s.thread i = .load c → Step ptr P s (s.move i (.store c s.value))
  | store {s} (i c tmp) : s.thread i = .store c tmp →
      Step ptr P s { s.move i (.unlock c tmp) with value := c.op tmp }
  | unlock {s} (i c tmp) : s.thread i = .unlock c tmp →
      Step ptr P s { s.move i .idle with
        locks := Function.update s.locks (lock_for_pointer ptr) 0
        returned := s.returned ++ [⟨i, c, tmp⟩] }

/-- Threads that make calls with `P` on a value that is `v₀` at first; all
locks are free. -/
def atomics (ι : Type) [DecidableEq ι] (ptr : BitVec 64) (P : Call → Prop) (v₀ : BitVec 64) :
    System (State ι) where
  init s := s = ⟨fun _ => 0, v₀, fun _ => .idle, []⟩
  step := Step ptr P

/-! ### One thread at a time -/

/-- Nobody is inside. -/
def Unheld (s : State ι) (a : AtomicObject.State ι Call (BitVec 64)) : Prop :=
  (∀ i, ¬ (s.thread i).Inside) ∧ a.value = s.value

/-- What the thread inside knows of the value `v` and of the value `w` of the
object; its call counts when it releases the lock. -/
def Place.Knows (v w : BitVec 64) : Place → Prop
  | idle | attempt _ _ | failed _ _ => False
  | load _ => w = v
  | store _ tmp => w = tmp ∧ v = tmp
  | unlock c tmp => w = tmp ∧ v = c.op tmp

/-- Thread `i` alone is inside. -/
structure HeldBy (ptr : BitVec 64) (s : State ι) (a : AtomicObject.State ι Call (BitVec 64)) (i : ι) :
    Prop where
  alone : ∀ j, (s.thread j).Inside → j = i
  lock : s.locks (lock_for_pointer ptr) ≠ 0
  knows : (s.thread i).Knows s.value a.value

/-- What holds of a thread by itself. -/
def Place.Fine (P : Call → Prop) : Place → Prop
  | idle => True
  | attempt c old => P c ∧ old = 0
  | failed c _ | load c | store c _ | unlock c _ => P c

/-- The threads and the object that they change. -/
structure Rel (ptr : BitVec 64) (P : Call → Prop) (s : State ι)
    (a : AtomicObject.State ι Call (BitVec 64)) : Prop where
  fine : ∀ i, (s.thread i).Fine P
  returned : a.returned = s.returned
  lock : Unheld s a ∨ ∃ i, HeldBy ptr s a i

section steps
variable {ptr : BitVec 64} {P : Call → Prop} {v₀ : BitVec 64} {s s' : State ι}
  {a : AtomicObject.State ι Call (BitVec 64)} {i : ι} {p : Place} {c : Call} {tmp : BitVec 64}

theorem fine_move (h : ∀ j, (s.thread j).Fine P) (hp : p.Fine P) :
    ∀ j, ((s.move i p).thread j).Fine P := by
  intro j
  by_cases hj : j = i
  · subst hj
    rw [State.thread_move]
    exact hp
  · rw [State.thread_move_of_ne s p hj]
    exact h j

/-- A thread that knows the value is inside. -/
theorem inside_of_knows {v w : BitVec 64} (h : p.Knows v w) : p.Inside := by
  cases p with
  | load c => trivial
  | store c tmp => trivial
  | unlock c tmp => trivial
  | idle => exact h
  | attempt c old => exact h
  | failed c old => exact h

/-- A thread that stays outside. -/
theorem Rel.outside (h : Rel ptr P s a) (hout : ¬ (s.thread i).Inside) (hp : p.Fine P)
    (hout' : ¬ p.Inside) : Rel ptr P (s.move i p) a := by
  have hinside (j : ι) (hj : ((s.move i p).thread j).Inside) : (s.thread j).Inside := by
    by_cases hne : j = i
    · subst hne
      rw [State.thread_move] at hj
      exact absurd hj hout'
    · rwa [State.thread_move_of_ne s p hne] at hj
  refine ⟨fine_move h.fine hp, h.returned, h.lock.imp (fun hun => ?_) ?_⟩
  · exact ⟨fun j hj => hun.1 j (hinside j hj), hun.2⟩
  · rintro ⟨k, halone, hlock, hknows⟩
    have hne : k ≠ i := by
      rintro rfl
      exact hout (inside_of_knows hknows)
    refine ⟨k, fun j hj => halone j (hinside j hj), hlock, ?_⟩
    rw [State.thread_move_of_ne s p hne]
    exact hknows

omit [DecidableEq ι] in
/-- A thread that is inside holds the lock. -/
theorem Rel.holder (h : Rel ptr P s a) (hin : (s.thread i).Inside) : HeldBy ptr s a i := by
  rcases h.lock with hun | ⟨k, hk⟩
  · exact absurd hin (hun.1 i)
  · rwa [hk.alone i hin]

/-- Only the thread that moves can be inside. -/
theorem inside_move (halone : ∀ j, (s.thread j).Inside → j = i) :
    ∀ j, ((s.move i p).thread j).Inside → j = i := by
  intro j hj
  by_contra hne
  rw [State.thread_move_of_ne s p hne] at hj
  exact hne (halone j hj)

/-- **The calls have an effect one after the other**, each when it releases
the lock. -/
theorem atomics_simulates (ι : Type) [DecidableEq ι] (ptr : BitVec 64) (P : Call → Prop)
    (v₀ : BitVec 64) :
    (atomics ι ptr P v₀).Simulates (AtomicObject.system Call.op P v₀) (Rel ptr P) where
  init := by
    rintro s (rfl : s = _)
    exact ⟨_, rfl, fun _ => trivial, rfl, .inl ⟨fun _ hin => hin, rfl⟩⟩
  step := by
    rintro s - a h (⟨i, c, hi, hP⟩ | ⟨i, c, old, hi, hold⟩ | ⟨i, c, old, hi⟩ | ⟨i, c, old, hi⟩ |
      ⟨i, c, hi⟩ | ⟨i, c, tmp, hi⟩ | ⟨i, c, tmp, hi⟩)
    all_goals have hfine := h.fine i
    all_goals rw [hi] at hfine
    · exact ⟨a, .refl, h.outside (by rw [hi]; exact id) ⟨hP, rfl⟩ id⟩
    · -- the lock was free
      obtain ⟨hP, rfl⟩ := hfine
      have hun : Unheld s a := h.lock.resolve_right fun ⟨k, hk⟩ => hk.lock hold
      refine ⟨a, .refl, fine_move h.fine hP, h.returned, .inr ⟨i, ?_, ?_, ?_⟩⟩
      · exact inside_move fun j hj => absurd hj (hun.1 j)
      · show Function.update _ _ _ _ ≠ 0
        rw [Function.update_self]
        decide
      · show Place.Knows _ _ ((s.move i (.load c)).thread i)
        rw [State.thread_move]
        exact hun.2
    · exact ⟨a, .refl, h.outside (by rw [hi]; exact id) hfine.1 id⟩
    · exact ⟨a, .refl, h.outside (by rw [hi]; exact id) ⟨hfine, rfl⟩ id⟩
    · -- the value is read
      have hheld := h.holder (i := i) (by rw [hi]; trivial)
      have hknows := hheld.knows
      rw [hi] at hknows
      refine ⟨a, .refl, fine_move h.fine hfine, h.returned, .inr ⟨i, inside_move hheld.alone,
        hheld.lock, ?_⟩⟩
      rw [State.thread_move]
      exact ⟨hknows, rfl⟩
    · -- the new value is written
      have hheld := h.holder (i := i) (by rw [hi]; trivial)
      have hknows := hheld.knows
      rw [hi] at hknows
      refine ⟨a, .refl, fine_move h.fine hfine, h.returned, .inr ⟨i, inside_move hheld.alone,
        hheld.lock, ?_⟩⟩
      show Place.Knows _ _ ((s.move i (.unlock c tmp)).thread i)
      rw [State.thread_move]
      exact ⟨hknows.1, rfl⟩
    · -- the lock is released: the call has its effect
      have hheld := h.holder (i := i) (by rw [hi]; trivial)
      have hknows := hheld.knows
      rw [hi] at hknows
      refine ⟨_, .single (.call i c hfine), fine_move h.fine trivial, ?_, .inl ⟨fun j hj => ?_, ?_⟩⟩
      · show a.returned ++ _ = s.returned ++ _
        rw [h.returned, hknows.1]
      · obtain rfl := inside_move hheld.alone j hj
        have hidle : ((s.move j .idle).thread j).Inside := hj
        rw [State.thread_move] at hidle
        exact hidle
      · show c.op a.value = s.value
        rw [hknows.1, hknows.2]

end steps

/-! ### What the calls should do -/

/-- The effect that the names of the helpers promise. -/
def Call.asked : Call → BitVec 64 → BitVec 64
  | fetch_add_cap val, v => v + val
  | fetch_sub_cap val, v => v - val

def Call.added : Call → BitVec 64
  | fetch_add_cap val => val
  | fetch_sub_cap _ => 0

def Call.subtracted : Call → BitVec 64
  | fetch_add_cap _ => 0
  | fetch_sub_cap val => val

/-- The helpers are correct atomics in a state: at most one thread is between
lock and unlock, the calls that have returned are serial, and once no call is
under way the value is the initial one, plus what was added, minus what was
subtracted. -/
structure Correct (v₀ : BitVec 64) (s : State ι) : Prop where
  exclusive : ∀ i j, (s.thread i).Inside → (s.thread j).Inside → i = j
  serial : ∃ w, Serial Call.asked v₀ s.returned w ∧ ((∀ i, s.thread i = .idle) → s.value = w)
  final : (∀ i, s.thread i = .idle) → s.value
    = v₀ + (s.returned.map fun r => r.call.added).sum - (s.returned.map fun r => r.call.subtracted).sum

section correct
variable {ptr : BitVec 64} {P : Call → Prop} {v₀ : BitVec 64} {s : State ι}

/-- The second helper does what it should for amounts of 0 and 2^63 only. -/
theorem op_eq_asked {c : Call} (h : ∀ val, c = .fetch_sub_cap val → val + val = 0) :
    c.op = c.asked := by
  cases c with
  | fetch_add_cap val => rfl
  | fetch_sub_cap val =>
    funext v
    show v + val = v - val
    rw [sub_eq_add_neg]
    exact congrArg (v + ·) (eq_neg_of_add_eq_zero_left (h val rfl))

omit [DecidableEq ι] in
/-- The value after serial calls. -/
theorem serial_value {l : List (Returned ι Call (BitVec 64))} {w : BitVec 64}
    (h : Serial Call.asked v₀ l w) :
    w = v₀ + (l.map fun r => r.call.added).sum - (l.map fun r => r.call.subtracted).sum := by
  have hdelta (c : Call) (v : BitVec 64) : c.asked v = v + (c.added - c.subtracted) := by
    cases c with
    | fetch_add_cap val => exact congrArg (v + ·) (sub_zero val).symm
    | fetch_sub_cap val => exact (sub_eq_add_neg v val).trans (congrArg (v + ·) (zero_sub val).symm)
  rw [h.eq_sum hdelta, add_sub_assoc]
  congr 1
  clear h
  induction l with
  | nil => exact (sub_zero _).symm
  | cons r rs ih =>
    simp only [List.map_cons, List.sum_cons]
    rw [ih, add_sub_add_comm]

/-- **Calls that subtract nothing else are correct.** -/
theorem correct_of_reachable (hP : ∀ val, P (.fetch_sub_cap val) → val + val = 0)
    (hs : (atomics ι ptr P v₀).Reachable s) : Correct v₀ s := by
  obtain ⟨a, ha, hR⟩ := (atomics_simulates ι ptr P v₀).reachable hs
  obtain ⟨hserial, hcalls⟩ := AtomicObject.returned_of_reachable ha
  rw [hR.returned] at hserial hcalls
  have hasked : Serial Call.asked v₀ s.returned a.value :=
    hserial.congr fun r hr => op_eq_asked fun val hval => hP val (hval ▸ hcalls r hr)
  have hvalue (hidle : ∀ i, s.thread i = .idle) : s.value = a.value := by
    rcases hR.lock with hun | ⟨k, hk⟩
    · exact hun.2.symm
    · have hknows := hk.knows
      rw [hidle k] at hknows
      exact hknows.elim
  refine ⟨fun i j hi hj => ?_, ⟨a.value, hasked, hvalue⟩, fun hidle => ?_⟩
  · exact ((hR.holder hi).alone j hj).symm
  · rw [hvalue hidle]
    exact serial_value hasked

/-- A thread makes a call while nobody else moves. -/
theorem run_call (ptr : BitVec 64) (v₀ : BitVec 64) {i : ι} {c : Call} (hidle : s.thread i = .idle)
    (hfree : s.locks (lock_for_pointer ptr) = 0) (hP : P c) :
    ∃ s', (atomics ι ptr P v₀).Run s s' ∧ (∀ j, s.thread j = .idle → s'.thread j = .idle) ∧
      s'.value = c.op s.value ∧ s'.returned = s.returned ++ [⟨i, c, s.value⟩] := by
  have hmoved (s : State ι) (p : Place) : (s.move i p).thread i = p := s.thread_move i p
  have hrun : (atomics ι ptr P v₀).Run s _ :=
    .tail (.tail (.tail (.tail (.single (.call i c hidle hP)) (.acquire i c 0 (hmoved _ _) hfree))
      (.load i c (hmoved _ _))) (.store i c _ (hmoved _ _))) (.unlock i c _ (hmoved _ _))
  refine ⟨_, hrun, fun j hj => ?_, rfl, rfl⟩
  by_cases hne : j = i
  · subst hne
    exact hmoved _ _
  · exact (State.thread_move_of_ne _ _ hne).trans <| (State.thread_move_of_ne _ _ hne).trans <|
      (State.thread_move_of_ne _ _ hne).trans <| (State.thread_move_of_ne _ _ hne).trans <|
      (State.thread_move_of_ne _ _ hne).trans hj

/-- **The helpers are correct** in every run, whatever the threads and the
interleaving, if and only if no call subtracts anything but 0 or 2^63. -/
theorem fetch_cap_correct_iff (ι : Type) [DecidableEq ι] [Inhabited ι] (ptr : BitVec 64)
    (P : Call → Prop) (v₀ : BitVec 64) :
    (∀ s, (atomics ι ptr P v₀).Reachable s → Correct v₀ s) ↔
      ∀ val, P (.fetch_sub_cap val) → val + val = 0 := by
  refine ⟨fun h val hP => ?_, fun hP s hs => correct_of_reachable hP hs⟩
  obtain ⟨s, hrun, hidle, hvalue, hret⟩ := run_call (P := P) ptr v₀
    (s := ⟨fun _ => 0, v₀, fun _ => .idle, []⟩) (i := (default : ι)) rfl rfl hP
  have hfinal := (h s ⟨_, rfl, hrun⟩).final fun i => hidle i rfl
  rw [hvalue, hret] at hfinal
  -- `v₀ + val` where it should be `v₀ - val`
  have hdiff : v₀ + val = v₀ + -val := by
    simpa [Call.op, Call.added, Call.subtracted, sub_eq_add_neg] using hfinal
  exact add_eq_zero_iff_eq_neg.mpr (add_left_cancel hdiff)

end correct

/-- Two threads, one of which subtracts 1 from 5: the call returns 5 and
leaves 6. -/
theorem fetch_sub_cap_adds :
    ∃ s : State (Fin 2), (atomics (Fin 2) 0x1000 (fun _ => True) 5).Reachable s ∧
      s.returned = [⟨0, .fetch_sub_cap 1, 5⟩] ∧ (∀ i, s.thread i = .idle) ∧ s.value = 6 ∧
      ¬ Correct 5 s := by
  obtain ⟨s, hrun, hidle, hvalue, hret⟩ := run_call (P := fun _ => True) 0x1000 5
    (s := ⟨fun _ => 0, 5, fun _ => .idle, []⟩) (i := (0 : Fin 2)) (c := .fetch_sub_cap 1) rfl rfl trivial
  have hidle' (i : Fin 2) : s.thread i = .idle := hidle i rfl
  refine ⟨s, ⟨_, rfl, hrun⟩, hret, hidle', hvalue, fun hcorrect => ?_⟩
  have hfinal := hcorrect.final hidle'
  rw [hvalue, hret] at hfinal
  exact absurd hfinal (by decide)

end Atomic

end Cheritest
