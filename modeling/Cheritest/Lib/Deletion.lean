/-
Cheritest/Lib/Deletion.lean

Making a failing list smaller by leaving out positions, one after the other.

`pass fails l O` tries the positions of `l` in turn and leaves out those
without which the rest still fails.  A pass never loses the failure
(`pass_fails`); where leaving out less can only fail more often, a single pass
ends in a local minimum (`not_pass_insert`), since what did not fail with a
smaller set left out does not fail with a larger one.
-/
import Mathlib.Data.Finset.Insert
import Mathlib.Order.Monotone.Basic
import Mathlib.Tactic.Common

namespace Deletion

/-! ### The sets that are left out -/

section pass
variable {ι : Type*} [DecidableEq ι] {fails : Finset ι → Bool} {l : List ι} {O : Finset ι} {i : ι}

/-- Leave out one more position if the rest still fails. -/
def attempt (fails : Finset ι → Bool) (O : Finset ι) (i : ι) : Finset ι :=
  if fails (insert i O) then insert i O else O

/-- Attempt the positions of a list in turn. -/
def pass (fails : Finset ι → Bool) (l : List ι) (O : Finset ι) : Finset ι :=
  l.foldl (attempt fails) O

@[simp] theorem pass_nil : pass fails [] O = O := rfl

@[simp] theorem pass_cons : pass fails (i :: l) O = pass fails l (attempt fails O i) := rfl

theorem subset_attempt : O ⊆ attempt fails O i := by
  rw [attempt]
  split_ifs
  · exact Finset.subset_insert i O
  · exact Finset.Subset.refl O

theorem subset_pass : O ⊆ pass fails l O := by
  induction l generalizing O with
  | nil => exact Finset.Subset.refl O
  | cons i l ih => exact subset_attempt.trans ih

/-- What has been left out makes the rest fail, unless nothing has been left out. -/
theorem pass_eq_or_fails (fails : Finset ι → Bool) (l : List ι) (O : Finset ι) :
    pass fails l O = O ∨ fails (pass fails l O) = true := by
  induction l generalizing O with
  | nil => exact .inl rfl
  | cons i l ih =>
    rw [pass_cons, attempt]
    split_ifs with h
    · rcases ih (insert i O) with he | hf
      · right
        rw [he]
        exact h
      · exact .inr hf
    · exact ih O

theorem pass_fails (h : fails O = true) : fails (pass fails l O) = true := by
  rcases pass_eq_or_fails fails l O with he | hf
  · rw [he]
    exact h
  · exact hf

/-- Nothing is left out exactly when no single position can be. -/
theorem pass_eq_iff (hO : ∀ i ∈ l, i ∉ O) :
    pass fails l O = O ↔ ∀ i ∈ l, fails (insert i O) = false := by
  induction l with
  | nil => simp
  | cons i l ih =>
    rw [pass_cons, attempt]
    rcases hf : fails (insert i O) with - | -
    · rw [if_neg (by simp), ih fun j hj => hO j (List.mem_cons_of_mem i hj), List.forall_mem_cons]
      exact (and_iff_right hf).symm
    · rw [if_pos rfl]
      constructor
      · intro he
        have hi : i ∈ pass fails l (insert i O) := subset_pass (Finset.mem_insert_self i O)
        exact absurd (he ▸ hi) (hO i List.mem_cons_self)
      · intro hno
        rw [hno i List.mem_cons_self] at hf
        exact absurd hf (by simp)

/-- **A single pass is enough.**  Where leaving out less fails whenever
leaving out more does, no position that a pass has kept can still be left out. -/
theorem not_pass_insert (hanti : ∀ {O O' : Finset ι}, O ⊆ O' → fails O' = true → fails O = true)
    (hi : i ∈ l) (hkept : i ∉ pass fails l O) : fails (insert i (pass fails l O)) = false := by
  induction l generalizing O with
  | nil => exact absurd hi List.not_mem_nil
  | cons j l ih =>
    rcases List.mem_cons.mp hi with rfl | hi
    · rw [pass_cons] at hkept ⊢
      have hsub : attempt fails O i ⊆ pass fails l (attempt fails O i) := subset_pass
      -- the position was tried when no more than now had been left out
      have hfail : fails (insert i O) = false := by
        by_contra hf
        refine hkept (hsub ?_)
        rw [attempt, if_pos (Bool.eq_true_of_not_eq_false hf)]
        exact Finset.mem_insert_self i O
      by_contra hf
      have hle := Finset.insert_subset_insert i (subset_attempt.trans hsub)
      exact absurd (hanti hle (Bool.eq_true_of_not_eq_false hf)) (by simp [hfail])
    · exact ih hi hkept

end pass

/-! ### What is kept of a list -/

section keep
variable {α : Type*} {p q : ℕ → Bool} {l : List α}

/-- The elements at the positions that `p` accepts. -/
def keep : (ℕ → Bool) → List α → List α
  | _, [] => []
  | p, a :: l => if p 0 then a :: keep (fun i => p (i + 1)) l else keep (fun i => p (i + 1)) l

theorem keep_sublist : (keep p l).Sublist l := by
  induction l generalizing p with
  | nil => exact List.Sublist.slnil
  | cons a l ih =>
    rw [keep]
    split_ifs
    · exact ih.cons_cons a
    · exact ih.cons a

theorem keep_mono (h : ∀ i, p i = true → q i = true) : (keep p l).Sublist (keep q l) := by
  induction l generalizing p q with
  | nil => exact List.Sublist.slnil
  | cons a l ih =>
    have htail := ih (p := fun i => p (i + 1)) (q := fun i => q (i + 1)) fun i => h (i + 1)
    rw [keep, keep]
    split_ifs with hp hq hq
    · exact htail.cons_cons a
    · exact absurd (h 0 hp) hq
    · exact htail.cons a
    · exact htail

theorem keep_congr (h : ∀ i < l.length, p i = q i) : keep p l = keep q l := by
  induction l generalizing p q with
  | nil => rfl
  | cons a l ih =>
    rw [keep, keep, h 0 (Nat.succ_pos _), ih fun i hi => h (i + 1) (Nat.succ_lt_succ hi)]

theorem keep_eq_self (h : ∀ i, p i = true) : keep p l = l := by
  induction l generalizing p with
  | nil => rfl
  | cons a l ih => rw [keep, if_pos (h 0), ih fun i => h (i + 1)]

theorem keep_ne (i : ℕ) : keep (fun j => decide (j ≠ i)) l = l.eraseIdx i := by
  induction l generalizing i with
  | nil => rfl
  | cons a l ih =>
    cases i with
    | zero =>
      rw [keep, if_neg (by simp), List.eraseIdx_cons_zero]
      exact keep_eq_self fun i => by simp
    | succ i =>
      rw [keep, if_pos (by simp), List.eraseIdx_cons_succ, ← ih i]
      exact congrArg _ (keep_congr fun j _ => by simp)

/-- Deleting one of the elements that are kept is keeping one position less. -/
theorem eraseIdx_keep {j : ℕ} (hj : j < (keep p l).length) :
    ∃ i < l.length, p i = true ∧
      (keep p l).eraseIdx j = keep (fun m => p m && decide (m ≠ i)) l := by
  induction l generalizing p j with
  | nil => exact absurd hj (Nat.not_lt_zero j)
  | cons a l ih =>
    rw [keep] at hj ⊢
    split_ifs at hj ⊢ with hp
    · cases j with
      | zero =>
        refine ⟨0, Nat.succ_pos _, hp, ?_⟩
        rw [List.eraseIdx_cons_zero, keep, if_neg (by simp)]
        exact keep_congr fun m _ => by simp
      | succ j =>
        obtain ⟨i, hi, hpi, he⟩ := ih (Nat.lt_of_succ_lt_succ hj)
        refine ⟨i + 1, Nat.succ_lt_succ hi, hpi, ?_⟩
        rw [List.eraseIdx_cons_succ, keep, if_pos (by simp [hp]), he]
        exact congrArg _ (keep_congr fun m _ => by simp)
    · obtain ⟨i, hi, hpi, he⟩ := ih hj
      refine ⟨i + 1, Nat.succ_lt_succ hi, hpi, ?_⟩
      rw [he, keep, if_neg (by simp [hp])]
      exact keep_congr fun m _ => by simp

end keep

end Deletion
