/-
Cheritest/Lib/Accesses.lean

Programs that access memory step by step.

A thread runs a program on memory that all threads share and on memory of its
own.  One access is one step: it may change memory, and how the program goes on
depends on what it has found there.  A program stays `Within` a set of
addresses if its accesses to shared memory neither read nor change anything
else; so whatever other threads do elsewhere makes no difference to it
(`Within.run_congr`, `Within.run_frame`).
-/
import Mathlib.Data.Set.Function

namespace Accesses

/-- A program that returns an `R`; shared memory maps addresses `A` to bytes
`B`, and `P` is the thread's own memory. -/
inductive Prog (A B P R : Type) : Type
  | ret (r : R)
  | shared (f : (A → B) → A → B) (k : (A → B) → Prog A B P R)
  | own (f : P → P) (k : P → Prog A B P R)

namespace Prog

variable {A B P R : Type}

/-- What a program returns, and both memories afterwards, if no other thread
interferes. -/
def run : Prog A B P R → P → (A → B) → R × P × (A → B)
  | ret r, p, m => (r, p, m)
  | shared f k, p, m => (k m).run p (f m)
  | own f k, p, m => (k p).run (f p) m

/-! ### Footprints -/

/-- An access that neither reads nor changes anything outside of `S`. -/
structure Local (S : Set A) (f : (A → B) → A → B) : Prop where
  frame : ∀ m, ∀ a ∉ S, f m a = m a
  congr : ∀ m m', Set.EqOn m m' S → Set.EqOn (f m) (f m') S

/-- A program all of whose accesses to shared memory are local to `S`. -/
inductive Within (S : Set A) : Prog A B P R → Prop
  | ret (r : R) : Within S (.ret r)
  | shared {f k} : Local S f → (∀ m m', Set.EqOn m m' S → k m = k m') →
      (∀ m, Within S (k m)) → Within S (.shared f k)
  | own {f k} : (∀ p, Within S (k p)) → Within S (.own f k)

/-- Without an access to shared memory. -/
inductive Quiet : Prog A B P R → Prop
  | ret (r : R) : Quiet (.ret r)
  | own {f k} : (∀ p, Quiet (k p)) → Quiet (.own f k)

/-- With one access to shared memory. -/
inductive Once : Prog A B P R → Prop
  | shared {f k} : (∀ m, Quiet (k m)) → Once (.shared f k)
  | own {f k} : (∀ p, Once (k p)) → Once (.own f k)

section footprints
variable {S : Set A} {c : Prog A B P R} {f : (A → B) → A → B} {k : (A → B) → Prog A B P R}
  {g : P → P} {k' : P → Prog A B P R} {m m' : A → B} {a : A}

/-- What a program leaves alone. -/
theorem Within.run_frame (h : c.Within S) (p : P) (m : A → B) (ha : a ∉ S) :
    (c.run p m).2.2 a = m a := by
  induction h generalizing p m with
  | ret r => rfl
  | @shared f k hf _ _ ih => exact (ih m p (f m)).trans (hf.frame m a ha)
  | @own f k _ ih => exact ih p (f p) m

/-- What a program does not depend on. -/
theorem Within.run_congr (h : c.Within S) (p : P) (hm : Set.EqOn m m' S) :
    (c.run p m).1 = (c.run p m').1 ∧ (c.run p m).2.1 = (c.run p m').2.1 ∧
      Set.EqOn (c.run p m).2.2 (c.run p m').2.2 S := by
  induction h generalizing p m m' with
  | ret r => exact ⟨rfl, rfl, hm⟩
  | @shared f k hf hk _ ih =>
    simp only [run, hk m m' hm]
    exact ih m' p (hf.congr m m' hm)
  | @own f k _ ih => exact ih p (f p) hm

theorem Within.of_shared (h : (Prog.shared f k).Within S) (m : A → B) : (k m).Within S := by
  cases h with
  | shared _ _ hk => exact hk m

theorem Within.local_of_shared (h : (Prog.shared f k).Within S) : Local S f := by
  cases h with
  | shared hf _ _ => exact hf

theorem Within.congr_of_shared (h : (Prog.shared f k).Within S) (hm : Set.EqOn m m' S) :
    k m = k m' := by
  cases h with
  | shared _ hk _ => exact hk m m' hm

theorem Within.of_own (h : (Prog.own g k').Within S) (p : P) : (k' p).Within S := by
  cases h with
  | own hk => exact hk p

theorem Once.of_own (h : (Prog.own g k').Once) (p : P) : (k' p).Once := by
  cases h with
  | own hk => exact hk p

theorem Once.quiet_of_shared (h : (Prog.shared f k).Once) (m : A → B) : (k m).Quiet := by
  cases h with
  | shared hk => exact hk m

theorem Quiet.of_own (h : (Prog.own g k').Quiet) (p : P) : (k' p).Quiet := by
  cases h with
  | own hk => exact hk p

theorem Once.not_ret {r : R} : ¬ (Prog.ret r : Prog A B P R).Once := by
  rintro ⟨⟩

theorem Quiet.not_shared : ¬ (Prog.shared f k).Quiet := by
  rintro ⟨⟩

/-- A program without an access to shared memory. -/
theorem Quiet.run_eq (h : c.Quiet) (p : P) (m m' : A → B) :
    c.run p m' = ((c.run p m).1, (c.run p m).2.1, m') := by
  induction h generalizing p with
  | ret r => rfl
  | @own f k _ ih => exact ih p (f p)

end footprints

end Prog

end Accesses
