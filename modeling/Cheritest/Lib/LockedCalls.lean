/-
Cheritest/Lib/LockedCalls.lean

Calls that take locks, and calls that need none.

A call either takes a spinlock, runs its program access by access and releases
the lock, or it takes no lock and its program accesses shared memory once.  If
calls that overlap use the same lock, or none, then shared memory is a
linearizable object: a call with a lock happens when it releases it, and one
without at its only access (`implementation_simulates`).
-/
import Cheritest.Lib.Accesses
import Cheritest.Lib.SharedObject

namespace LockedCalls

open Accesses (Prog)
open SharedObject (Effect Event Action Status)

variable {ι C K W A B P R : Type}

/-- How calls are implemented: the lock, if a call takes one, and the program;
what the words of a lock mean, and the addresses that a call may access. -/
structure Code (C K W A B P R : Type) where
  lock : C → Option K
  prog : C → Prog A B P R
  unlocked : W
  locked : W
  foot : C → Set A

/-- Where a thread is: outside, about to compare and exchange its lock with
`old` in hand, behind a compare-exchange that failed, between lock and unlock
(at the end of the program: about to unlock), or in a program without a lock
or behind the unlock. -/
inductive Place (C W A B P R : Type)
  | idle
  | attempt (c : C) (p : P) (old : W)
  | failed (c : C) (p : P) (old : W)
  | inside (c : C) (p : P) (x : Prog A B P R)
  | free (c : C) (p : P) (x : Prog A B P R)

/-- The locks, shared memory, the threads, and what has been seen. -/
structure State (ι C K W A B P R : Type) where
  locks : K → W
  mem : A → B
  thread : ι → Place C W A B P R
  history : List (Event ι C P R)

variable [DecidableEq ι] [DecidableEq K]

namespace State

/-- Thread `i` moves to `x`. -/
def move (s : State ι C K W A B P R) (i : ι) (x : Place C W A B P R) : State ι C K W A B P R :=
  { s with thread := Function.update s.thread i x }

omit [DecidableEq K]

@[simp] theorem move_mem (s : State ι C K W A B P R) (i : ι) (x : Place C W A B P R) :
    (s.move i x).mem = s.mem := rfl

@[simp] theorem move_thread (s : State ι C K W A B P R) (i : ι) (x : Place C W A B P R) :
    (s.move i x).thread i = x := Function.update_self ..

theorem move_thread_of_ne (s : State ι C K W A B P R) {i j : ι} (x : Place C W A B P R) (h : j ≠ i) :
    (s.move i x).thread j = s.thread j := Function.update_of_ne h ..

end State

/-- The steps of a thread.  A weak compare-exchange may fail at any time. -/
inductive Step (code : Code C K W A B P R) (Permitted : ι → C → Prop) :
    State ι C K W A B P R → State ι C K W A B P R → Prop
  | call {s} (i c p) {l} : s.thread i = .idle → Permitted i c → code.lock c = some l →
      Step code Permitted s
        { s.move i (.attempt c p code.unlocked) with history := s.history ++ [.invoke i c p] }
  | call_free {s} (i c p) : s.thread i = .idle → Permitted i c → code.lock c = none →
      Step code Permitted s
        { s.move i (.free c p (code.prog c)) with history := s.history ++ [.invoke i c p] }
  | acquire {s} (i) {c p l old} : s.thread i = .attempt c p old → code.lock c = some l →
      s.locks l = old →
      Step code Permitted s { s.move i (.inside c p (code.prog c)) with
        locks := Function.update s.locks l code.locked }
  | miss {s} (i) {c p l old} : s.thread i = .attempt c p old → code.lock c = some l →
      Step code Permitted s (s.move i (.failed c p (s.locks l)))
  | retry {s} (i) {c p old} : s.thread i = .failed c p old →
      Step code Permitted s (s.move i (.attempt c p code.unlocked))
  | access {s} (i) {c p f k} : s.thread i = .inside c p (.shared f k) →
      Step code Permitted s { s.move i (.inside c p (k s.mem)) with mem := f s.mem }
  | own {s} (i) {c p f k} : s.thread i = .inside c p (.own f k) →
      Step code Permitted s (s.move i (.inside c (f p) (k p)))
  | unlock {s} (i) {c p r l} : s.thread i = .inside c p (.ret r) → code.lock c = some l →
      Step code Permitted s { s.move i (.free c p (.ret r)) with
        locks := Function.update s.locks l code.unlocked }
  | access_free {s} (i) {c p f k} : s.thread i = .free c p (.shared f k) →
      Step code Permitted s { s.move i (.free c p (k s.mem)) with mem := f s.mem }
  | own_free {s} (i) {c p f k} : s.thread i = .free c p (.own f k) →
      Step code Permitted s (s.move i (.free c (f p) (k p)))
  | answer {s} (i) {c p r} : s.thread i = .free c p (.ret r) →
      Step code Permitted s
        { s.move i .idle with history := s.history ++ [.answer i r p] }

/-- Threads that make the calls with `Permitted`; no lock is taken. -/
def implementation (code : Code C K W A B P R) (Permitted : ι → C → Prop) (m₀ : A → B) :
    System (State ι C K W A B P R) where
  init s := s = ⟨fun _ => code.unlocked, m₀, fun _ => .idle, []⟩
  step := Step code Permitted

/-- What the code has to do with the calls that are permitted: their programs
stay within their footprints and have the effects they should, and calls of
two threads that overlap use the same lock; a call without a lock accesses
memory once. -/
structure Lawful (code : Code C K W A B P R) (Permitted : ι → C → Prop)
    (effect : Effect C P (A → B) R) : Prop where
  locked_ne : code.locked ≠ code.unlocked
  within : ∀ {i c}, Permitted i c → (code.prog c).Within (code.foot c)
  once : ∀ {i c}, Permitted i c → code.lock c = none → (code.prog c).Once
  run_eq : ∀ {i c}, Permitted i c → ∀ p m, (code.prog c).run p m = effect c p m
  same_lock : ∀ {i j c d a}, i ≠ j → Permitted i c → Permitted j d → a ∈ code.foot c →
    a ∈ code.foot d → code.lock c = code.lock d

/-! ### The simulation -/

section relation
variable {code : Code C K W A B P R} {Permitted : ι → C → Prop} {effect : Effect C P (A → B) R}

/-- Thread `i` at `x`, with shared memory `m`, and what it is to the object, whose value is `v`. -/
inductive Matches (code : Code C K W A B P R) (Permitted : ι → C → Prop)
    (effect : Effect C P (A → B) R) (i : ι) (m v : A → B) :
    Place C W A B P R → Status C P R → Prop
  | idle : Matches code Permitted effect i m v .idle .idle
  | attempt {c p l} : Permitted i c → code.lock c = some l →
      Matches code Permitted effect i m v (.attempt c p code.unlocked) (.invoked c p)
  | failed {c p l old} : Permitted i c → code.lock c = some l →
      Matches code Permitted effect i m v (.failed c p old) (.invoked c p)
  | inside {c p x p₀ l} : Permitted i c → code.lock c = some l → x.Within (code.foot c) →
      (x.run p m).1 = (effect c p₀ v).1 → (x.run p m).2.1 = (effect c p₀ v).2.1 →
      Set.EqOn (x.run p m).2.2 (effect c p₀ v).2.2 (code.foot c) →
      Matches code Permitted effect i m v (.inside c p x) (.invoked c p₀)
  | before {c p x p₀} : Permitted i c → code.lock c = none → x.Within (code.foot c) → x.Once →
      (∀ m', x.run p m' = effect c p₀ m') →
      Matches code Permitted effect i m v (.free c p x) (.invoked c p₀)
  | after {c p x r p'} : x.Quiet → (x.run p m).1 = r → (x.run p m).2.1 = p' →
      Matches code Permitted effect i m v (.free c p x) (.done r p')

/-- Between lock and unlock of `l`. -/
def Place.Holds (code : Code C K W A B P R) (l : K) : Place C W A B P R → Prop
  | .inside c _ _ => code.lock c = some l
  | _ => False

/-- An address that a thread between lock and unlock may be changing. -/
def Place.Covers (code : Code C K W A B P R) (a : A) : Place C W A B P R → Prop
  | .inside c _ _ => a ∈ code.foot c
  | _ => False

/-- The threads and the object that they implement. -/
structure Rel (code : Code C K W A B P R) (Permitted : ι → C → Prop)
    (effect : Effect C P (A → B) R) (s : State ι C K W A B P R)
    (o : SharedObject.State ι C P (A → B) R) : Prop where
  history : o.history = s.history
  thread : ∀ i, Matches code Permitted effect i s.mem o.value (s.thread i) (o.status i)
  lock : ∀ i l, (s.thread i).Holds code l → s.locks l ≠ code.unlocked
  alone : ∀ i j l, (s.thread i).Holds code l → (s.thread j).Holds code l → i = j
  mem : ∀ a, (∀ i, ¬ (s.thread i).Covers code a) → s.mem a = o.value a

end relation

section steps
variable {code : Code C K W A B P R} {Permitted : ι → C → Prop} {effect : Effect C P (A → B) R}
  {s : State ι C K W A B P R} {o : SharedObject.State ι C P (A → B) R} {i j : ι} {c : C} {p : P}
  {x y : Place C W A B P R} {st : Status C P R} {m m' v v' : A → B} {l : K} {locks : K → W}

omit [DecidableEq ι] [DecidableEq K]

/-- What a call leaves alone, and what it does not depend on. -/
theorem Lawful.effect_frame (hl : Lawful code Permitted effect) (hc : Permitted i c) (p : P)
    {a : A} (ha : a ∉ code.foot c) : (effect c p v).2.2 a = v a := by
  rw [← hl.run_eq hc]
  exact (hl.within hc).run_frame p v ha

theorem Lawful.effect_congr (hl : Lawful code Permitted effect) (hc : Permitted i c) (p : P)
    (hv : Set.EqOn v v' (code.foot c)) :
    (effect c p v).1 = (effect c p v').1 ∧ (effect c p v).2.1 = (effect c p v').2.1 ∧
      Set.EqOn (effect c p v).2.2 (effect c p v').2.2 (code.foot c) := by
  rw [← hl.run_eq hc, ← hl.run_eq hc]
  exact (hl.within hc).run_congr p hv

/-- A thread to which nothing happens but outside of the addresses that it
covers. -/
theorem Matches.congr (hl : Lawful code Permitted effect)
    (h : Matches code Permitted effect i m v x st) (hm : ∀ a, x.Covers code a → m a = m' a)
    (hv : ∀ a, x.Covers code a → v a = v' a) : Matches code Permitted effect i m' v' x st := by
  cases h with
  | idle => exact .idle
  | attempt hc hlock => exact .attempt hc hlock
  | failed hc hlock => exact .failed hc hlock
  | @inside c p x p₀ _ hc hlock hwithin hr hp hmem =>
    obtain ⟨hr', hp', hmem'⟩ := hwithin.run_congr p hm
    obtain ⟨er, ep, emem⟩ := hl.effect_congr hc p₀ hv
    refine .inside hc hlock hwithin (hr'.symm.trans (hr.trans er)) (hp'.symm.trans (hp.trans ep)) ?_
    exact fun a ha => (hmem' ha).symm.trans ((hmem ha).trans (emem ha))
  | before hc hlock hwithin honce hrun => exact .before hc hlock hwithin honce hrun
  | after hquiet hr hp =>
    rw [hquiet.run_eq _ m' m] at hr hp
    exact .after hquiet hr hp

theorem Place.Covers.inside {a : A} (h : x.Covers code a) :
    ∃ c p k, x = .inside c p k ∧ a ∈ code.foot c := by
  cases x with
  | inside c p k => exact ⟨c, p, k, rfl, h⟩
  | idle => exact h.elim
  | attempt => exact h.elim
  | failed => exact h.elim
  | free => exact h.elim

/-- A thread between lock and unlock. -/
theorem Matches.of_inside {k : Prog A B P R}
    (h : Matches code Permitted effect i m v (.inside c p k) st) :
    ∃ p₀ l, st = .invoked c p₀ ∧ Permitted i c ∧ code.lock c = some l ∧ k.Within (code.foot c) ∧
      (k.run p m).1 = (effect c p₀ v).1 ∧ (k.run p m).2.1 = (effect c p₀ v).2.1 ∧
      Set.EqOn (k.run p m).2.2 (effect c p₀ v).2.2 (code.foot c) := by
  cases h with
  | @inside _ _ _ p₀ l hc hlock hwithin hr hp hmem =>
    exact ⟨p₀, l, rfl, hc, hlock, hwithin, hr, hp, hmem⟩

theorem Matches.of_idle (h : Matches code Permitted effect i m v .idle st) : st = .idle := by
  cases h
  rfl

theorem Matches.of_attempt {old : W}
    (h : Matches code Permitted effect i m v (.attempt c p old) st) :
    st = .invoked c p ∧ Permitted i c ∧ old = code.unlocked := by
  cases h with
  | attempt hc _ => exact ⟨rfl, hc, rfl⟩

theorem Matches.of_failed {old : W} (h : Matches code Permitted effect i m v (.failed c p old) st) :
    st = .invoked c p ∧ Permitted i c ∧ ∃ l, code.lock c = some l := by
  cases h with
  | failed hc hlock => exact ⟨rfl, hc, _, hlock⟩

/-- A thread that is about to answer. -/
theorem Matches.of_ret {r : R} (h : Matches code Permitted effect i m v (.free c p (.ret r)) st) :
    st = .done r p := by
  cases h with
  | before _ _ _ honce _ => exact absurd honce Prog.Once.not_ret
  | after _ hr hp =>
    cases hr
    cases hp
    rfl

/-- An access to the thread's own memory. -/
theorem Matches.own_free {f : P → P} {k : P → Prog A B P R}
    (h : Matches code Permitted effect i m v (.free c p (.own f k)) st) :
    Matches code Permitted effect i m v (.free c (f p) (k p)) st := by
  cases h with
  | before hc hlock hwithin honce hrun =>
    exact .before hc hlock (hwithin.of_own p) (honce.of_own p) hrun
  | after hquiet hr hp => exact .after (hquiet.of_own p) hr hp

/-- A thread that covers an address of another one's call holds its lock. -/
theorem Rel.holds_of_covers (hl : Lawful code Permitted effect) (hR : Rel code Permitted effect s o)
    (hji : j ≠ i) (hc : Permitted i c) {a : A} (ha : a ∈ code.foot c)
    (hj : (s.thread j).Covers code a) : ∃ l, code.lock c = some l ∧ (s.thread j).Holds code l := by
  obtain ⟨d, q, y, hxj, had⟩ := hj.inside
  have hmatches := hR.thread j
  rw [hxj] at hmatches ⊢
  obtain ⟨-, l, -, hd, hlock, -⟩ := hmatches.of_inside
  exact ⟨l, (hl.same_lock (Ne.symm hji) hc hd ha had).trans hlock, hlock⟩

/-- An address that neither thread `i` nor another one covers. -/
theorem Rel.value_eq (hR : Rel code Permitted effect s o) {a : A} (hi : ¬ (s.thread i).Covers code a)
    (hothers : ∀ j ≠ i, ¬ (s.thread j).Covers code a) : s.mem a = o.value a := by
  refine hR.mem a fun j hj => ?_
  by_cases hji : j = i
  · exact hi (hji ▸ hj)
  · exact hothers j hji hj

variable [DecidableEq ι]

/-- A step of thread `i` to `x`. -/
theorem Rel.moved (hl : Lawful code Permitted effect) (hR : Rel code Permitted effect s o)
    {s' : State ι C K W A B P R} {o' : SharedObject.State ι C P (A → B) R}
    (hthread : s'.thread = Function.update s.thread i x) (hstatus : o'.status = Function.update o.status i st)
    (hhistory : o'.history = s'.history)
    (hx : Matches code Permitted effect i s'.mem o'.value x st)
    (hothers : ∀ j ≠ i, ∀ a, (s.thread j).Covers code a → s.mem a = s'.mem a ∧ o.value a = o'.value a)
    (hlock : ∀ j l, (s'.thread j).Holds code l → s'.locks l ≠ code.unlocked)
    (halone : ∀ j l, x.Holds code l → (s'.thread j).Holds code l → j = i)
    (hmem : ∀ a, ¬ x.Covers code a → (∀ j ≠ i, ¬ (s.thread j).Covers code a) → s'.mem a = o'.value a) :
    Rel code Permitted effect s' o' where
  history := hhistory
  lock := hlock
  thread := by
    intro j
    rw [hthread, hstatus]
    by_cases hji : j = i
    · subst hji
      rwa [Function.update_self, Function.update_self]
    · rw [Function.update_of_ne hji, Function.update_of_ne hji]
      exact (hR.thread j).congr hl (fun a ha => (hothers j hji a ha).1) fun a ha => (hothers j hji a ha).2
  alone := by
    intro j k l hj hk
    by_cases hji : j = i
    · subst hji
      rw [hthread, Function.update_self] at hj
      exact (halone k l hj hk).symm
    · by_cases hki : k = i
      · subst hki
        rw [hthread, Function.update_self] at hk
        exact halone j l hk hj
      · rw [hthread, Function.update_of_ne hji] at hj
        rw [hthread, Function.update_of_ne hki] at hk
        exact hR.alone j k l hj hk
  mem := by
    intro a ha
    refine hmem a ?_ fun j hji => ?_
    · -- neither thread `i` nor another one covers the address
      have hi := ha i
      rwa [hthread, Function.update_self] at hi
    · have hj := ha j
      rwa [hthread, Function.update_of_ne hji] at hj

/-- A step of thread `i` that takes no lock and gives none back. -/
theorem Rel.kept (hl : Lawful code Permitted effect) (hR : Rel code Permitted effect s o)
    {s' : State ι C K W A B P R} {o' : SharedObject.State ι C P (A → B) R}
    (hthread : s'.thread = Function.update s.thread i x) (hstatus : o'.status = Function.update o.status i st)
    (hlocks : s'.locks = s.locks) (hhistory : o'.history = s'.history)
    (hx : Matches code Permitted effect i s'.mem o'.value x st)
    (hholds : ∀ l, x.Holds code l → (s.thread i).Holds code l)
    (hothers : ∀ j ≠ i, ∀ a, (s.thread j).Covers code a → s.mem a = s'.mem a ∧ o.value a = o'.value a)
    (hmem : ∀ a, ¬ x.Covers code a → (∀ j ≠ i, ¬ (s.thread j).Covers code a) → s'.mem a = o'.value a) :
    Rel code Permitted effect s' o' := by
  have hstill (j : ι) (l : K) (hj : (s'.thread j).Holds code l) : (s.thread j).Holds code l := by
    rw [hthread] at hj
    by_cases hji : j = i
    · subst hji
      rw [Function.update_self] at hj
      exact hholds l hj
    · rwa [Function.update_of_ne hji] at hj
  refine hR.moved hl hthread hstatus hhistory hx hothers (fun j l hj => ?_) (fun j l hxl hj => ?_) hmem
  · rw [hlocks]
    exact hR.lock j l (hstill j l hj)
  · exact hR.alone j i l (hstill j l hj) (hholds l hxl)

/-- A step of thread `i` without access to shared memory. -/
theorem Rel.stays (hl : Lawful code Permitted effect) (hR : Rel code Permitted effect s o)
    {s' : State ι C K W A B P R} {o' : SharedObject.State ι C P (A → B) R}
    (hthread : s'.thread = Function.update s.thread i x) (hstatus : o'.status = Function.update o.status i st)
    (hlocks : s'.locks = s.locks) (hmem : s'.mem = s.mem) (hvalue : o'.value = o.value)
    (hhistory : o'.history = s'.history) (hx : Matches code Permitted effect i s.mem o.value x st)
    (hholds : ∀ l, x.Holds code l → (s.thread i).Holds code l)
    (hcovers : ∀ a, (s.thread i).Covers code a → x.Covers code a) :
    Rel code Permitted effect s' o' := by
  refine hR.kept hl hthread hstatus hlocks hhistory ?_ hholds (fun j _ a _ => ?_) fun a hxa hja => ?_
  · rwa [hmem, hvalue]
  · rw [hmem, hvalue]
    exact ⟨rfl, rfl⟩
  · rw [hmem, hvalue]
    exact hR.value_eq (fun hia => hxa (hcovers a hia)) hja

/-! ### One lemma for each kind of step -/

/-- The object does nothing. -/
theorem Rel.silent (hl : Lawful code Permitted effect) (hR : Rel code Permitted effect s o)
    (hst : o.status i = st) (hx : Matches code Permitted effect i s.mem o.value x st)
    (hholds : ∀ l, x.Holds code l → (s.thread i).Holds code l)
    (hcovers : ∀ a, (s.thread i).Covers code a → x.Covers code a) :
    Rel code Permitted effect (s.move i x) o := by
  refine hR.stays hl rfl ?_ rfl rfl rfl hR.history hx hholds hcovers
  rw [← hst, Function.update_eq_self]

theorem Rel.step_call (hl : Lawful code Permitted effect) (hR : Rel code Permitted effect s o)
    (hi : s.thread i = .idle) (hx : Matches code Permitted effect i s.mem o.value x (.invoked c p))
    (hholds : ∀ l, ¬ x.Holds code l) :
    Rel code Permitted effect { s.move i x with history := s.history ++ [.invoke i c p] }
      (o.act i (.invoke i c p) (.invoked c p)) := by
  refine hR.stays hl rfl rfl rfl rfl rfl ?_ hx (fun l hxl => absurd hxl (hholds l)) fun a ha => ?_
  · rw [SharedObject.State.act_history, hR.history]
    rfl
  · rw [hi] at ha
    exact ha.elim

theorem Rel.step_answer {r : R} (hl : Lawful code Permitted effect)
    (hR : Rel code Permitted effect s o) (hi : s.thread i = .free c p (.ret r)) :
    Rel code Permitted effect { s.move i .idle with history := s.history ++ [.answer i r p] }
      (o.act i (.answer i r p) .idle) := by
  refine hR.stays hl rfl rfl rfl rfl rfl ?_ .idle (fun l hxl => hxl.elim) fun a ha => ?_
  · rw [SharedObject.State.act_history, hR.history]
    rfl
  · rw [hi] at ha
    exact ha.elim

/-- An access under the lock. -/
theorem Rel.step_access {f : (A → B) → A → B} {k : (A → B) → Prog A B P R}
    (hl : Lawful code Permitted effect) (hR : Rel code Permitted effect s o)
    (hi : s.thread i = .inside c p (.shared f k)) :
    Rel code Permitted effect { s.move i (.inside c p (k s.mem)) with mem := f s.mem } o := by
  have hmatches := hR.thread i
  rw [hi] at hmatches
  obtain ⟨p₀, l, hst, hc, hlock, hwithin, hr, hp, hmem⟩ := hmatches.of_inside
  have hframe := hwithin.local_of_shared.frame s.mem
  have hstatus : o.status = Function.update o.status i (.invoked c p₀) := by
    rw [← hst, Function.update_eq_self]
  refine hR.kept (x := .inside c p (k s.mem)) hl rfl hstatus rfl hR.history ?_
    (fun l hxl => ?_) (fun j hji a ha => ⟨(hframe a fun hca => ?_).symm, rfl⟩) fun a hxa hja => ?_
  · exact .inside hc hlock (hwithin.of_shared s.mem) hr hp hmem
  · rw [hi]
    exact hxl
  · -- the lock keeps the others away
    obtain ⟨l', hl', hholds⟩ := hR.holds_of_covers hl hji hc hca ha
    refine hji (hR.alone j i l' hholds ?_)
    rw [hi]
    exact hl'
  · refine (hframe a hxa).trans (hR.value_eq ?_ hja)
    rw [hi]
    exact hxa

/-- A call without a lock happens at its only access. -/
theorem Rel.step_access_free {f : (A → B) → A → B} {k : (A → B) → Prog A B P R}
    (hl : Lawful code Permitted effect) (hR : Rel code Permitted effect s o)
    (hi : s.thread i = .free c p (.shared f k)) :
    ∃ o', SharedObject.Step effect Permitted o o' ∧
      Rel code Permitted effect { s.move i (.free c p (k s.mem)) with mem := f s.mem } o' := by
  have hmatches := hR.thread i
  rw [hi] at hmatches
  generalize hst : o.status i = st at hmatches
  cases hmatches with
  | after hquiet => exact absurd hquiet Prog.Quiet.not_shared
  | @before _ _ _ p₀ hc hlock hwithin honce hrun =>
    have hlocal := hwithin.local_of_shared
    have hout (j : ι) (hji : j ≠ i) {a : A} (hj : (s.thread j).Covers code a) : a ∉ code.foot c := by
      intro hca
      obtain ⟨l', hl', -⟩ := hR.holds_of_covers hl hji hc hca hj
      rw [hlock] at hl'
      cases hl'
    have hnone (a : A) : ¬ (s.thread i).Covers code a := by
      rw [hi]
      exact id
    have hsame : Set.EqOn s.mem o.value (code.foot c) :=
      fun a ha => hR.value_eq (hnone a) fun j hji hj => hout j hji hj ha
    -- what is left of the program is the same for both memories
    have hk := hwithin.congr_of_shared hsame
    have hquiet := honce.quiet_of_shared s.mem
    have heffect : effect c p₀ o.value
        = (((k s.mem).run p (f s.mem)).1, ((k s.mem).run p (f s.mem)).2.1, f o.value) := by
      rw [← hrun]
      show (k o.value).run p (f o.value) = _
      rw [← hk, hquiet.run_eq p (f s.mem) (f o.value)]
    refine ⟨_, .commit i hst heffect, ?_⟩
    refine hR.kept (x := .free c p (k s.mem)) hl rfl rfl rfl ?_ (.after hquiet rfl rfl)
      (fun l hxl => hxl.elim) (fun j hji a ha => ?_) fun a _ hja => ?_
    · have hhistory := SharedObject.State.act_history o i
        (.commit i c p₀ ((k s.mem).run p (f s.mem)).1 ((k s.mem).run p (f s.mem)).2.1)
        (.done ((k s.mem).run p (f s.mem)).1 ((k s.mem).run p (f s.mem)).2.1)
      exact hhistory.trans ((List.append_nil _).trans hR.history)
    · exact ⟨(hlocal.frame s.mem a (hout j hji ha)).symm, (hlocal.frame o.value a (hout j hji ha)).symm⟩
    · by_cases hca : a ∈ code.foot c
      · exact hlocal.congr _ _ hsame hca
      · exact (hlocal.frame s.mem a hca).trans ((hR.value_eq (hnone a) hja).trans
          (hlocal.frame o.value a hca).symm)

variable [DecidableEq K]

/-- The lock is taken: nobody else is changing what the call accesses. -/
theorem Rel.step_acquire (hl : Lawful code Permitted effect) (hR : Rel code Permitted effect s o)
    (hc : Permitted i c) (hlock : code.lock c = some l) (hst : o.status i = .invoked c p)
    (hi : ∀ a, ¬ (s.thread i).Covers code a) (hfree : s.locks l = code.unlocked) :
    Rel code Permitted effect { s.move i (.inside c p (code.prog c)) with
      locks := Function.update s.locks l code.locked } o := by
  have hunheld (j : ι) : ¬ (s.thread j).Holds code l := fun hj => hR.lock j l hj hfree
  -- nobody holds the lock, so nobody covers an address of the footprint
  have hsame : Set.EqOn s.mem o.value (code.foot c) := by
    refine fun a ha => hR.value_eq (hi a) fun j hji hj => ?_
    obtain ⟨l', hl', hholds⟩ := hR.holds_of_covers hl hji hc ha hj
    obtain rfl := Option.some.inj (hlock.symm.trans hl')
    exact hunheld j hholds
  -- a run from shared memory and one from the abstract value come to the same
  obtain ⟨hr, hp, hmem⟩ := (hl.within hc).run_congr p hsame
  rw [hl.run_eq hc, hl.run_eq hc] at hr hp hmem
  have hstatus : o.status = Function.update o.status i (.invoked c p) := by
    rw [← hst, Function.update_eq_self]
  refine hR.moved (x := .inside c p (code.prog c)) hl rfl hstatus hR.history ?_
    (fun j _ a _ => ⟨rfl, rfl⟩) (fun j l' hj => ?_) (fun j l' hxl hj => ?_) fun a _ hja => ?_
  · refine .inside hc hlock (hl.within hc) ?_ ?_ ?_
    all_goals rw [hl.run_eq hc]
    · exact hr
    · exact hp
    · exact hmem
  · show Function.update s.locks l code.locked l' ≠ _
    by_cases hll : l' = l
    · subst hll
      rw [Function.update_self]
      exact hl.locked_ne
    · rw [Function.update_of_ne hll]
      by_cases hji : j = i
      · subst hji
        have hinside : Place.Holds code l' (Function.update s.thread j _ j) := hj
        rw [Function.update_self] at hinside
        exact absurd (Option.some.inj (hinside.symm.trans hlock)) hll
      · have hother : Place.Holds code l' (Function.update s.thread i _ j) := hj
        rw [Function.update_of_ne hji] at hother
        exact hR.lock j l' hother
  · -- two holders of one lock are one thread
    by_contra hji
    obtain rfl := Option.some.inj (hlock.symm.trans hxl)
    have hother : Place.Holds code l (Function.update s.thread i _ j) := hj
    rw [Function.update_of_ne hji] at hother
    exact hunheld j hother
  · exact hR.value_eq (hi a) hja

/-- The call happens when the lock is released. -/
theorem Rel.step_unlock {r : R} (hl : Lawful code Permitted effect)
    (hR : Rel code Permitted effect s o) (hi : s.thread i = .inside c p (.ret r))
    (hlock : code.lock c = some l) :
    ∃ o', SharedObject.Step effect Permitted o o' ∧
      Rel code Permitted effect { s.move i (.free c p (.ret r)) with
        locks := Function.update s.locks l code.unlocked } o' := by
  have hmatches := hR.thread i
  rw [hi] at hmatches
  obtain ⟨p₀, -, hst, hc, -, -, hr, hp, hmem⟩ := hmatches.of_inside
  have hheld : (s.thread i).Holds code l := by
    rw [hi]
    exact hlock
  -- the footprint is free of what the other threads cover, as they do not hold the lock
  have hout (j : ι) (hji : j ≠ i) {a : A} (hj : (s.thread j).Covers code a) : a ∉ code.foot c := by
    intro hca
    obtain ⟨l', hl', hholds⟩ := hR.holds_of_covers hl hji hc hca hj
    obtain rfl := Option.some.inj (hlock.symm.trans hl')
    exact hji (hR.alone j i l hholds hheld)
  have heffect : effect c p₀ o.value = (r, p, (effect c p₀ o.value).2.2) :=
    Prod.ext hr.symm (Prod.ext hp.symm rfl)
  refine ⟨_, .commit i hst heffect, ?_⟩
  refine hR.moved (x := .free c p (.ret r)) hl rfl rfl ?_ ?_ (fun j hji a ha => ?_)
    (fun j l' hj => ?_) (fun j l' hxl hj => hxl.elim) fun a _ hja => ?_
  · have hhistory := SharedObject.State.act_history o i (.commit i c p₀ r p) (.done r p)
    exact hhistory.trans ((List.append_nil _).trans hR.history)
  · exact .after (.ret r) rfl rfl
  · exact ⟨rfl, (hl.effect_frame hc p₀ (hout j hji ha)).symm⟩
  · have hother : Place.Holds code l' (Function.update s.thread i _ j) := hj
    by_cases hji : j = i
    · subst hji
      rw [Function.update_self] at hother
      exact hother.elim
    · rw [Function.update_of_ne hji] at hother
      have hll : l' ≠ l := fun hll => hji (hR.alone j i l (hll ▸ hother) hheld)
      show Function.update s.locks l code.unlocked l' ≠ _
      rw [Function.update_of_ne hll]
      exact hR.lock j l' hother
  · -- inside the footprint the call has written its result, outside nothing moves
    by_cases hca : a ∈ code.foot c
    · exact hmem hca
    · refine (hR.value_eq ?_ hja).trans (hl.effect_frame hc p₀ hca).symm
      rw [hi]
      exact hca

/-- **Calls that take locks where they overlap are linearizable.** -/
theorem implementation_simulates (hl : Lawful code Permitted effect) (m₀ : A → B) :
    (implementation code Permitted m₀).Simulates (SharedObject.object effect Permitted m₀)
      (Rel code Permitted effect) where
  init := by
    rintro s (rfl : s = _)
    exact ⟨_, rfl, rfl, fun i => .idle, fun i l h => h.elim, fun i j l h => h.elim, fun a _ => rfl⟩
  step := by
    rintro s s' o hR hstep
    cases hstep with
    | @call i c p l hi hc hlock =>
      have hst := (hi ▸ hR.thread i).of_idle
      exact ⟨_, .single (.invoke i c p hst hc), hR.step_call hl hi (.attempt hc hlock) fun l hx => hx⟩
    | call_free i c p hi hc hlock =>
      have hst := (hi ▸ hR.thread i).of_idle
      refine ⟨_, .single (.invoke i c p hst hc), hR.step_call hl hi ?_ fun l hx => hx⟩
      exact .before hc hlock (hl.within hc) (hl.once hc hlock) (hl.run_eq hc p)
    | @acquire i c p l old hi hlock hfree =>
      obtain ⟨hst, hc, rfl⟩ := (hi ▸ hR.thread i).of_attempt
      refine ⟨o, .refl, hR.step_acquire hl hc hlock hst (fun a => ?_) hfree⟩
      rw [hi]
      exact id
    | @miss i c p l old hi hlock =>
      obtain ⟨hst, hc, -⟩ := (hi ▸ hR.thread i).of_attempt
      refine ⟨o, .refl, hR.silent hl hst (.failed hc hlock) (fun l hx => hx.elim) fun a ha => ?_⟩
      rw [hi] at ha
      exact ha.elim
    | @retry i c p old hi =>
      obtain ⟨hst, hc, l, hlock⟩ := (hi ▸ hR.thread i).of_failed
      refine ⟨o, .refl, hR.silent hl hst (.attempt hc hlock) (fun l hx => hx.elim) fun a ha => ?_⟩
      rw [hi] at ha
      exact ha.elim
    | access i hi => exact ⟨o, .refl, hR.step_access hl hi⟩
    | @own i c p f k hi =>
      obtain ⟨p₀, l, hst, hc, hlock, hwithin, hr, hp, hmem⟩ := (hi ▸ hR.thread i).of_inside
      refine ⟨o, .refl, hR.silent hl hst (.inside hc hlock (hwithin.of_own p) hr hp hmem)
        (fun l hx => ?_) fun a ha => ?_⟩
      · rw [hi]
        exact hx
      · rw [hi] at ha
        exact ha
    | unlock i hi hlock =>
      obtain ⟨o', hstep, hR'⟩ := hR.step_unlock hl hi hlock
      exact ⟨o', .single hstep, hR'⟩
    | access_free i hi =>
      obtain ⟨o', hstep, hR'⟩ := hR.step_access_free hl hi
      exact ⟨o', .single hstep, hR'⟩
    | @own_free i c p f k hi =>
      refine ⟨o, .refl, hR.silent hl rfl (hi ▸ hR.thread i).own_free (fun l hx => hx.elim) fun a ha => ?_⟩
      rw [hi] at ha
      exact ha.elim
    | @answer i c p r hi =>
      have hst := (hi ▸ hR.thread i).of_ret
      exact ⟨_, .single (.answer i hst), hR.step_answer hl hi⟩

/-- Every history is linearizable; and if no call is under way, shared memory
is what the calls have made of it. -/
theorem linearizable_of_reachable (hl : Lawful code Permitted effect) {m₀ : A → B}
    (hs : (implementation code Permitted m₀).Reachable s) :
    ∃ w, SharedObject.Linearizable effect m₀ s.history w ∧ ((∀ i, s.thread i = .idle) → s.mem = w) := by
  obtain ⟨o, ho, hR⟩ := (implementation_simulates hl m₀).reachable hs
  refine ⟨o.value, hR.history ▸ SharedObject.linearizable_of_reachable ho, fun hidle => ?_⟩
  funext a
  refine hR.mem a fun i hi => ?_
  rw [hidle i] at hi
  exact hi

end steps

end LockedCalls
