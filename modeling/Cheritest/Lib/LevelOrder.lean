/-
Cheritest/Lib/LevelOrder.lean

Trees that grow from a queue of open places.

A node gets its number when its place is opened, and its label when the place
comes to the head of the queue; a label with `arity` children opens that many
places at the end.  So the labels in their order determine everything: node
`k` is the `k`-th to be labelled, and its children are the places that are
opened just then.

`exists_grows`: if the queue runs empty for the first time after `n` labels,
these are the labels of a tree.  What is summed over the labels is summed over
the tree (`Grows.total`), and what a node inherits from its ancestors can be
carried along in the queue (`Grows.inherited_iff`).
-/
import Mathlib.Algebra.GroupWithZero.Nat
import Mathlib.Data.List.Forall2
import Mathlib.Logic.Relation
import Mathlib.Order.Monotone.Basic
import Mathlib.Order.Basic
import Mathlib.Order.Nat
import Mathlib.Data.Nat.Init

namespace LevelOrder

variable {L : Type*} (arity : L → ℕ) (label : ℕ → L)

/-! ### Numbers -/

/-- How many places have been opened once `k` nodes are labelled. -/
def opened : ℕ → ℕ
  | 0 => 1
  | k + 1 => opened k + arity (label k)

/-- Node `m` is one of the places that node `i` opens. -/
def Child (i m : ℕ) : Prop := opened arity label i ≤ m ∧ m < opened arity label (i + 1)

/-- The queue is not empty before `n` nodes are labelled, and it is then. -/
structure Complete (n : ℕ) : Prop where
  before : ∀ k < n, k < opened arity label k
  after : opened arity label n = n

variable {arity label} {n k m : ℕ}

theorem opened_mono : Monotone (opened arity label) :=
  monotone_nat_of_le_succ fun _ => Nat.le_add_right _ _

/-- A node that is not the root has a parent. -/
theorem exists_parent (h0 : 0 < m) (hm : m < opened arity label n) :
    ∃ i < n, Child arity label i m := by
  induction n with
  | zero =>
    have h1 : m < 1 := hm
    omega
  | succ n ih =>
    rcases Nat.lt_or_ge m (opened arity label n) with hlt | hge
    · obtain ⟨i, hi, hc⟩ := ih hlt
      exact ⟨i, by omega, hc⟩
    · exact ⟨n, Nat.lt_succ_self n, hge, hm⟩

/-- It has only one. -/
theorem Child.unique {i j : ℕ} (hi : Child arity label i m) (hj : Child arity label j m) : i = j := by
  rcases Nat.lt_trichotomy i j with h | h | h
  · have hle : opened arity label (i + 1) ≤ opened arity label j := opened_mono h
    exact absurd (hi.2.trans_le hle) (Nat.not_lt.mpr hj.1)
  · exact h
  · have hle : opened arity label (j + 1) ≤ opened arity label i := opened_mono h
    exact absurd (hj.2.trans_le hle) (Nat.not_lt.mpr hi.1)

/-- The root has none. -/
theorem not_child_zero (i : ℕ) : ¬ Child arity label i 0 := by
  rintro ⟨hle, -⟩
  have hmono : opened arity label 0 ≤ opened arity label i := opened_mono (Nat.zero_le i)
  have hone : opened arity label 0 = 1 := rfl
  omega

/-- Every node is a descendant of the root. -/
theorem Complete.reachable (h : Complete arity label n) (hm : m < n) :
    Relation.ReflTransGen (fun i j => i < n ∧ Child arity label i j) 0 m := by
  induction m using Nat.strong_induction_on with
  | _ m ih =>
    rcases Nat.eq_zero_or_pos m with rfl | h0
    · exact .refl
    · obtain ⟨i, hi, hc⟩ := exists_parent (n := n) h0 (by rw [h.after]; exact hm)
      have him : i < m := (h.before i hi).trans_le hc.1
      exact (ih i him hi).tail ⟨hi, hc⟩

/-! ### Trees -/

section trees
variable {T : Type*} (node : L → List T → T)

/-- The trees that grow from the places which are open once `k` nodes are
labelled, if `n` are in the end. -/
inductive Grows (arity : L → ℕ) (label : ℕ → L) (node : L → List T → T) (n : ℕ) : ℕ → List T → Prop
  | done : Grows arity label node n n []
  | fill {k : ℕ} {ts cs : List T} : k < n → cs.length = arity (label k) →
      Grows arity label node n (k + 1) (ts ++ cs) →
      Grows arity label node n k (node (label k) cs :: ts)

variable {node} {ts : List T}

theorem Grows.length (hn : opened arity label n = n) (h : Grows arity label node n k ts) :
    k + ts.length = opened arity label k := by
  induction h with
  | done => exact hn.symm
  | @fill k ts cs _ hcs _ ih =>
    rw [List.length_append, hcs, opened] at ih
    rw [List.length_cons]
    omega

/-- Every open place grows into a tree. -/
theorem exists_grows (node : L → List T → T) (h : Complete arity label n) (hk : k ≤ n) :
    ∃ ts, Grows arity label node n k ts := by
  induction hk using Nat.decreasingInduction with
  | self => exact ⟨[], .done⟩
  | of_succ k hk ih =>
    obtain ⟨us, hus⟩ := ih
    have hlen := hus.length h.after
    have hopen := h.before k hk
    rw [opened] at hlen
    -- the places that node `k` opens are the last of the queue
    have hcs : (us.drop (opened arity label k - (k + 1))).length = arity (label k) := by
      rw [List.length_drop]
      omega
    refine ⟨_ :: us.take (opened arity label k - (k + 1)), .fill hk hcs ?_⟩
    rwa [List.take_append_drop]

/-- The root grows into one tree. -/
theorem exists_grows_root (node : L → List T → T) (h : Complete arity label n) :
    ∃ t, Grows arity label node n 0 [t] := by
  obtain ⟨ts, hts⟩ := exists_grows node h (Nat.zero_le n)
  have hlen := hts.length h.after
  rw [Nat.zero_add] at hlen
  obtain ⟨t, rfl⟩ := List.length_eq_one_iff.mp hlen
  exact ⟨t, hts⟩

/-! ### What is summed over a tree -/

/-- The sum of the weights of the first labels. -/
def total (weight : L → ℕ) (label : ℕ → L) : ℕ → ℕ
  | 0 => 0
  | k + 1 => total weight label k + weight (label k)

theorem Grows.total {weight : L → ℕ} {size : T → ℕ}
    (hsize : ∀ l cs, cs.length = arity l → size (node l cs) = weight l + (cs.map size).sum)
    (h : Grows arity label node n k ts) :
    total weight label k + (ts.map size).sum = total weight label n := by
  induction h with
  | done => rfl
  | @fill k ts cs _ hcs _ ih =>
    rw [← ih, LevelOrder.total, List.map_append, List.sum_append, List.map_cons, List.sum_cons,
      hsize _ _ hcs]
    omega

/-! ### What is inherited in a tree -/

/-- What the open places inherit, the head of the queue first. -/
def inherited {A : Type*} (arity : L → ℕ) (label : ℕ → L) (down : A → L → A) (a : A) : ℕ → List A
  | 0 => [a]
  | k + 1 =>
      match inherited arity label down a k with
      | [] => []
      | b :: bs => bs ++ List.replicate (arity (label k)) (down b (label k))

section inherited
variable {A : Type*} {down : A → L → A} {a : A}

theorem inherited_succ {b : A} {bs : List A} (h : inherited arity label down a k = b :: bs) :
    inherited arity label down a (k + 1)
      = bs ++ List.replicate (arity (label k)) (down b (label k)) := by
  rw [inherited, h]

theorem inherited_succ_nil (h : inherited arity label down a k = []) :
    inherited arity label down a (k + 1) = [] := by
  rw [inherited, h]

theorem length_inherited (hopen : ∀ i < k, i < opened arity label i) :
    k + (inherited arity label down a k).length = opened arity label k := by
  induction k with
  | zero => rfl
  | succ k ih =>
    have hk := ih fun i hi => hopen i (by omega)
    have hlt := hopen k (Nat.lt_succ_self k)
    rcases hq : inherited arity label down a k with - | ⟨b, bs⟩
    · rw [hq, List.length_nil] at hk
      omega
    · rw [hq, List.length_cons] at hk
      rw [inherited_succ hq, List.length_append, List.length_replicate, opened]
      omega

/-- When the queue has run empty it stays empty. -/
theorem inherited_nil (h : Complete arity label n) (hk : n ≤ k) :
    inherited arity label down a k = [] := by
  induction hk with
  | refl =>
    have hlen : n + (inherited arity label down a n).length = opened arity label n :=
      length_inherited h.before
    rw [h.after] at hlen
    exact List.length_eq_zero_iff.mp (by omega)
  | step _ ih => exact inherited_succ_nil ih

theorem forall₂_replicate {B C : Type*} {R : B → C → Prop} {b : B} {cs : List C} :
    List.Forall₂ R (List.replicate cs.length b) cs ↔ ∀ c ∈ cs, R b c := by
  induction cs with
  | nil => simp
  | cons c cs ih => simp [List.replicate_succ, ih]

/-- Queues of the same length are related if and only if their parts are. -/
theorem forall₂_append {B C : Type*} {R : B → C → Prop} {bs bs' : List B} {cs cs' : List C}
    (hlen : bs.length = cs.length) :
    List.Forall₂ R (bs ++ bs') (cs ++ cs') ↔ List.Forall₂ R bs cs ∧ List.Forall₂ R bs' cs' := by
  induction bs generalizing cs with
  | nil =>
    obtain rfl := List.length_eq_zero_iff.mp hlen.symm
    simp
  | cons b bs ih =>
    rcases cs with - | ⟨c, cs⟩
    · cases hlen
    · simp [ih (Nat.succ.inj hlen), and_assoc]

/-- A property of trees that is checked node by node, against what the node
inherits, can be checked as the nodes are labelled. -/
theorem Grows.inherited_iff {ok : A → T → Prop} {here : A → L → Prop}
    (hok : ∀ b l cs, cs.length = arity l →
      (ok b (node l cs) ↔ here b l ∧ ∀ c ∈ cs, ok (down b l) c))
    (h : Grows arity label node n k ts)
    (hlen : (inherited arity label down a k).length = ts.length) :
    List.Forall₂ ok (inherited arity label down a k) ts ↔
      ∀ i, k ≤ i → i < n → ∀ b, (inherited arity label down a i).head? = some b → here b (label i) := by
  induction h with
  | done =>
    rw [List.length_nil, List.length_eq_zero_iff] at hlen
    rw [hlen]
    exact ⟨fun _ i hi hin => by omega, fun _ => .nil⟩
  | @fill k ts cs hk hcs _ ih =>
    -- the node at the head of the queue, then its children behind the others
    rcases hq : inherited arity label down a k with - | ⟨b, bs⟩
    · rw [hq] at hlen
      cases hlen
    · rw [hq, List.length_cons, List.length_cons] at hlen
      have hbs : bs.length = ts.length := Nat.succ.inj hlen
      have hnext := inherited_succ hq
      rw [← hcs] at hnext
      have ih := ih (by simp [hnext, hbs])
      rw [hnext, forall₂_append hbs, forall₂_replicate] at ih
      rw [List.forall₂_cons, hok _ _ _ hcs]
      constructor
      · rintro ⟨⟨hhere, hcs⟩, hts⟩ i hi hin c hc
        rcases Nat.eq_or_lt_of_le hi with rfl | hlt
        · rw [hq] at hc
          obtain rfl := Option.some.inj hc
          exact hhere
        · exact ih.mp ⟨hts, hcs⟩ i hlt hin c hc
      · intro hall
        obtain ⟨hts, hcs⟩ := ih.mpr fun i hi => hall i (by omega)
        exact ⟨⟨hall k le_rfl hk b (by rw [hq]; rfl), hcs⟩, hts⟩

end inherited

end trees

end LevelOrder
