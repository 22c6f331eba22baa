/-
Cheritest/Dma/SwitchTest.lean

The multithreaded DMA test: test() of multithread_test_template.c.

The test switches between the threads that are still active until all have
been found ready.  An iteration asks whether the third thread of the last
choice is ready; if so it is replaced by the last active thread and the active
part of the array shrinks.  Then three threads are chosen for the next
iteration, at random from the active part, with their indices.

`asserts_wait_for_all_threads`: the active part always holds the threads that
have not been found ready, each once, so when the loop exits every thread has
been found ready exactly once.  `test_divides_by_zero`: but the iteration that
retires the last thread chooses from an empty part, whatever the seed and
whatever the threads do, and computes a remainder by zero.

How the threads answer, what stands beyond the end of the array and what a
remainder by zero gives are parameters.
-/
import Cheritest.Lib.Numerals
import Cheritest.Dma.Random
import Mathlib.Data.List.Nodup

namespace Cheritest

/-- The variables of `test`, and what it has evaluated so far: the divisors of
`myrand() % active_thread_count`, the reads `active_threads[thread_index[i]]`
(the index and the number of active threads), and the answers of
`dma_thread_ready`. -/
structure SwitchTest where
  active_threads : ℕ → ℕ
  active_thread_count : ℕ
  thread_index : Fin 3 → ℕ
  thread : Fin 3 → ℕ
  next : BitVec 64
  divisors : List ℕ
  reads : List (ℕ × ℕ)
  answers : List (ℕ × Bool)

namespace SwitchTest

/-! ### The test -/

section test
variable (THREAD_COUNT : ℕ) (seed : BitVec 64) (ready : ℕ → ℕ → Bool) (beyond remainderByZero : ℕ → ℕ)

/-- Choose `thread_index[i]` and `thread[i]`. -/
def choose_thread (i : Fin 3) (s : SwitchTest) : SwitchTest :=
  let number := rand_value (rand_next s.next)
  let index :=
    if s.active_thread_count = 0 then remainderByZero number else number % s.active_thread_count
  { s with
    next := rand_next s.next
    thread_index := Function.update s.thread_index i index
    thread := Function.update s.thread i (s.active_threads index)
    divisors := s.divisors ++ [s.active_thread_count]
    reads := s.reads ++ [(index, s.active_thread_count)] }

/-- The loop that chooses three threads. -/
def choose_threads (s : SwitchTest) : SwitchTest :=
  choose_thread remainderByZero 2 (choose_thread remainderByZero 1 (choose_thread remainderByZero 0 s))

/-- The state at the top of the loop for the first time. -/
def start : SwitchTest :=
  choose_threads remainderByZero
    { active_threads := fun i => if i < THREAD_COUNT then i else beyond i
      active_thread_count := THREAD_COUNT
      thread_index := fun _ => 0
      thread := fun _ => 0
      next := seed
      divisors := []
      reads := []
      answers := [] }

/-- `int wait_periods = myrand() % 20`, and the waiting. -/
def wait (s : SwitchTest) : SwitchTest := { s with next := rand_next s.next }

/-- Ask the third thread, and retire it if it is ready. -/
def retire (k : ℕ) (s : SwitchTest) : SwitchTest :=
  let answer := ready k (s.thread 2)
  let s := { s with answers := s.answers ++ [(s.thread 2, answer)] }
  if answer then
    { s with
      active_threads := Function.update s.active_threads (s.thread_index 2)
        (s.active_threads (s.active_thread_count - 1))
      active_thread_count := s.active_thread_count - 1 }
  else s

/-- Iteration `k` of the loop. -/
def iteration (k : ℕ) (s : SwitchTest) : SwitchTest :=
  choose_threads remainderByZero (retire ready k (wait s))

/-- The state at the top of the loop after `k` iterations; there is none once
the loop has exited. -/
def tops : ℕ → Option SwitchTest
  | 0 => some (start THREAD_COUNT seed beyond remainderByZero)
  | k + 1 => (tops k).bind fun s =>
      if s.active_thread_count ≠ 0 then some (iteration ready remainderByZero k s) else none

end test

/-! ### Choosing -/

/-- A choice: an index of the active part and the thread that stands there. -/
def Chosen (s : SwitchTest) (i : Fin 3) : Prop :=
  s.thread_index i < s.active_thread_count ∧ s.thread i = s.active_threads (s.thread_index i)

/-- What has been evaluated is defined: no divisor is zero and no index lies
outside the active part. -/
def EvaluationsDefined (s : SwitchTest) : Prop :=
  (∀ d ∈ s.divisors, d ≠ 0) ∧ ∀ x ∈ s.reads, x.1 < x.2

section choose
variable {remainderByZero : ℕ → ℕ} {s : SwitchTest} {i j : Fin 3}

theorem chosen_self (h0 : s.active_thread_count ≠ 0) : Chosen (choose_thread remainderByZero i s) i := by
  unfold choose_thread Chosen
  simp only [Function.update_self, if_neg h0, and_true]
  exact Nat.mod_lt _ (Nat.pos_of_ne_zero h0)

theorem Chosen.choose_thread (h0 : s.active_thread_count ≠ 0) (h : Chosen s j) :
    Chosen (choose_thread remainderByZero i s) j := by
  rcases eq_or_ne j i with rfl | hne
  · exact chosen_self h0
  · unfold SwitchTest.choose_thread Chosen
    simp only [Function.update_of_ne hne]
    exact h

theorem EvaluationsDefined.choose_thread (h0 : s.active_thread_count ≠ 0) (h : EvaluationsDefined s) :
    EvaluationsDefined (choose_thread remainderByZero i s) := by
  obtain ⟨hd, hr⟩ := h
  constructor
  · intro d hd'
    rcases List.mem_append.mp hd' with hd' | hd'
    · exact hd d hd'
    · obtain rfl := List.mem_singleton.mp hd'
      exact h0
  · intro x hx
    rcases List.mem_append.mp hx with hx | hx
    · exact hr x hx
    · obtain rfl := List.mem_singleton.mp hx
      show (if s.active_thread_count = 0 then _ else _) < s.active_thread_count
      rw [if_neg h0]
      exact Nat.mod_lt _ (Nat.pos_of_ne_zero h0)

/-- From an active part that is not empty three threads are chosen. -/
theorem chosen_choose_threads (h0 : s.active_thread_count ≠ 0) (i : Fin 3) :
    Chosen (choose_threads remainderByZero s) i := by
  have h₀ : Chosen (choose_thread remainderByZero 0 s) 0 := chosen_self h0
  have h₁ : Chosen (choose_thread remainderByZero 1 (choose_thread remainderByZero 0 s)) 1 :=
    chosen_self h0
  match i with
  | 0 => exact Chosen.choose_thread h0 (h₀.choose_thread h0)
  | 1 => exact Chosen.choose_thread h0 h₁
  | 2 => exact chosen_self h0

theorem EvaluationsDefined.choose_threads (h0 : s.active_thread_count ≠ 0) (h : EvaluationsDefined s) :
    EvaluationsDefined (choose_threads remainderByZero s) :=
  EvaluationsDefined.choose_thread h0 (EvaluationsDefined.choose_thread h0 (h.choose_thread h0))

@[simp] theorem choose_threads_answers : (choose_threads remainderByZero s).answers = s.answers := rfl

@[simp] theorem choose_threads_count :
    (choose_threads remainderByZero s).active_thread_count = s.active_thread_count := rfl

@[simp] theorem choose_threads_active_threads :
    (choose_threads remainderByZero s).active_threads = s.active_threads := rfl

theorem choose_threads_next :
    (choose_threads remainderByZero s).next = rand_next (rand_next (rand_next s.next)) := rfl

/-- From an empty part none can be. -/
theorem zero_mem_divisors (h0 : s.active_thread_count = 0) :
    0 ∈ (choose_threads remainderByZero s).divisors := by
  show 0 ∈ _ ++ [s.active_thread_count]
  rw [h0]
  exact List.mem_append_right _ List.mem_cons_self

/-- Which number a choice is made with. -/
theorem choose_thread_index (h0 : s.active_thread_count ≠ 0) :
    (choose_thread remainderByZero i s).thread_index i
      = rand_value (choose_thread remainderByZero i s).next % s.active_thread_count := by
  unfold choose_thread
  simp only [Function.update_self, if_neg h0]

end choose

/-! ### Retiring -/

/-- The active threads. -/
def active (s : SwitchTest) : List ℕ := (List.range s.active_thread_count).map s.active_threads

@[simp] theorem active_choose_threads {remainderByZero : ℕ → ℕ} {s : SwitchTest} :
    (choose_threads remainderByZero s).active = s.active := rfl

/-- Between the iterations of a test of `n` threads: the active part holds the
threads that have not been found ready, each once. -/
structure Active (n : ℕ) (s : SwitchTest) : Prop where
  nodup : s.active.Nodup
  mem_iff : ∀ t, t ∈ s.active ↔ t < n ∧ (t, true) ∉ s.answers
  once : ∀ t, s.answers.count (t, true) ≤ 1

/-- What an iteration does: it asks one thread and removes it if it is
ready. -/
structure Retires (k : ℕ) (ready : ℕ → ℕ → Bool) (s s' : SwitchTest) : Prop where
  mem : s.thread 2 ∈ s.active
  answers : s'.answers = s.answers ++ [(s.thread 2, ready k (s.thread 2))]
  kept : ready k (s.thread 2) = false → s'.active = s.active
  removed : ready k (s.thread 2) = true → s'.active.Perm (s.active.erase (s.thread 2))

/-- Copying the last of `c` different threads over the one at `i` and dropping
the last place removes the thread at `i`. -/
theorem perm_erase_of_update {f : ℕ → ℕ} {c i : ℕ} (hi : i < c) (hf : ((List.range c).map f).Nodup) :
    ((List.range (c - 1)).map (Function.update f i (f (c - 1)))).Perm
      (((List.range c).map f).erase (f i)) := by
  obtain ⟨c, rfl⟩ : ∃ m, c = m + 1 := ⟨c - 1, by omega⟩
  rw [Nat.add_sub_cancel]
  have hinj : ∀ a < c + 1, ∀ b < c + 1, f a = f b → a = b := by
    intro a ha b hb hab
    exact List.inj_on_of_nodup_map hf (List.mem_range.mpr ha) (List.mem_range.mpr hb) hab
  have hnodup : ((List.range c).map (Function.update f i (f c))).Nodup := by
    apply List.Nodup.map_on _ List.nodup_range
    intro a ha b hb hab
    have ha := List.mem_range.mp ha
    have hb := List.mem_range.mp hb
    -- the copied thread stands at `i` only: its old place is dropped
    by_cases hai : a = i <;> by_cases hbi : b = i
    · rw [hai, hbi]
    · subst hai
      rw [Function.update_self, Function.update_of_ne hbi] at hab
      have := hinj c (by omega) b (by omega) hab
      omega
    · subst hbi
      rw [Function.update_self, Function.update_of_ne hai] at hab
      have := hinj a (by omega) c (by omega) hab
      omega
    · rw [Function.update_of_ne hai, Function.update_of_ne hbi] at hab
      exact hinj a (by omega) b (by omega) hab
  apply (List.perm_ext_iff_of_nodup hnodup (hf.erase _)).mpr
  intro t
  rw [hf.mem_erase_iff]
  simp only [List.mem_map, List.mem_range]
  constructor
  · rintro ⟨a, ha, rfl⟩
    rcases eq_or_ne a i with rfl | hai
    · rw [Function.update_self]
      refine ⟨fun h => ?_, c, by omega, rfl⟩
      have := hinj c (by omega) a (by omega) h
      omega
    · rw [Function.update_of_ne hai]
      exact ⟨fun h => hai (hinj a (by omega) i hi h), a, by omega, rfl⟩
  · rintro ⟨hne, a, ha, rfl⟩
    rcases eq_or_ne a c with rfl | hac
    · have hai : i ≠ a := fun h => hne (congrArg f h.symm)
      exact ⟨i, by omega, Function.update_self ..⟩
    · have hai : a ≠ i := fun h => hne (congrArg f h)
      exact ⟨a, by omega, Function.update_of_ne hai ..⟩

section iterate
variable {THREAD_COUNT : ℕ} {seed : BitVec 64} {ready : ℕ → ℕ → Bool} {beyond remainderByZero : ℕ → ℕ}
  {n k : ℕ} {s s' : SwitchTest}

theorem iteration_of_ready (h : ready k (s.thread 2) = true) :
    iteration ready remainderByZero k s
      = choose_threads remainderByZero
          { s with
            next := rand_next s.next
            answers := s.answers ++ [(s.thread 2, true)]
            active_threads := Function.update s.active_threads (s.thread_index 2)
              (s.active_threads (s.active_thread_count - 1))
            active_thread_count := s.active_thread_count - 1 } := by
  unfold iteration retire wait
  simp only [h, if_true]

theorem iteration_of_not_ready (h : ready k (s.thread 2) = false) :
    iteration ready remainderByZero k s
      = choose_threads remainderByZero
          { s with
            next := rand_next s.next
            answers := s.answers ++ [(s.thread 2, false)] } := by
  unfold iteration retire wait
  simp [h]

/-- **An iteration asks one thread**, one of the active part, and removes it
if and only if it is ready. -/
theorem retires_iteration (hs : Active n s) (hc : Chosen s 2) :
    Retires k ready s (iteration ready remainderByZero k s) := by
  obtain ⟨hi, ht⟩ := hc
  have hmem : s.thread 2 ∈ s.active := by
    rw [ht]
    exact List.mem_map_of_mem (List.mem_range.mpr hi)
  constructor
  · exact hmem
  · rcases hr : ready k (s.thread 2)
    · rw [iteration_of_not_ready hr, choose_threads_answers]
    · rw [iteration_of_ready hr, choose_threads_answers]
  · intro hr
    rw [iteration_of_not_ready hr, active_choose_threads]
    unfold active
    rfl
  · intro hr
    rw [iteration_of_ready hr, active_choose_threads, ht]
    exact perm_erase_of_update hi hs.nodup

/-- Such an iteration keeps the active part as it should be. -/
theorem Active.of_retires (hs : Active n s) (h : Retires k ready s s') : Active n s' := by
  obtain ⟨hmem, hanswers, hkept, hremoved⟩ := h
  obtain ⟨hlt, hnew⟩ := (hs.mem_iff _).mp hmem
  -- a thread that is not ready stays; a ready one leaves the list with its answer
  rcases hr : ready k (s.thread 2)
  · rw [hr] at hanswers
    constructor
    · rw [hkept hr]
      exact hs.nodup
    · intro t
      rw [hkept hr, hanswers, hs.mem_iff]
      simp
    · intro t
      rw [hanswers, List.count_append]
      simpa using hs.once t
  · rw [hr] at hanswers
    have hperm := hremoved hr
    constructor
    · exact hperm.nodup_iff.mpr (hs.nodup.erase _)
    · intro t
      rw [hperm.mem_iff, hs.nodup.mem_erase_iff, hs.mem_iff, hanswers]
      simp only [List.mem_append, List.mem_singleton, Prod.mk.injEq, and_true, not_or]
      tauto
    · intro t
      rw [hanswers, List.count_append]
      rcases eq_or_ne (s.thread 2) t with rfl | hne
      · rw [List.count_eq_zero.mpr hnew]
        simp
      · have hcount : List.count (t, true) [(s.thread 2, true)] = 0 := by
          simp [hne]
        rw [hcount]
        exact hs.once t

/-! ### Runs -/

/-- What holds at the top of the loop after `k` iterations: the active part is
as it should be, and if it is not empty then the choices are made from it and
nothing undefined has been evaluated. -/
structure Top (n : ℕ) (seed : BitVec 64) (k : ℕ) (s : SwitchTest) : Prop where
  active : Active n s
  next : s.next = rand_next^[4 * k + 3] seed
  chosen : s.active_thread_count ≠ 0 → ∀ i, Chosen s i
  index : s.active_thread_count ≠ 0 → s.thread_index 2 = rand_value s.next % s.active_thread_count
  defined : s.active_thread_count ≠ 0 → EvaluationsDefined s

theorem top_start : Top n seed 0 (start n seed beyond remainderByZero) := by
  have hall : (start n seed beyond remainderByZero).active = List.range n := by
    show (List.range n).map (fun i => if i < n then i else beyond i) = List.range n
    conv_rhs => rw [← List.map_id (List.range n)]
    apply List.map_congr_left
    intro i hi
    exact if_pos (List.mem_range.mp hi)
  refine ⟨⟨?_, ?_, ?_⟩, rfl, ?_, ?_, ?_⟩
  · rw [hall]
    exact List.nodup_range
  · intro t
    have hanswers : (start n seed beyond remainderByZero).answers = [] := rfl
    rw [hall, hanswers]
    simp
  · intro t
    exact Nat.zero_le 1
  · exact fun h0 => chosen_choose_threads h0
  · exact fun h0 => choose_thread_index h0
  · intro h0
    refine EvaluationsDefined.choose_threads h0 ⟨?_, ?_⟩
    · intro d hd
      cases hd
    · intro x hx
      cases hx

theorem Top.iteration (h : Top n seed k s) (h0 : s.active_thread_count ≠ 0) :
    Top n seed (k + 1) (SwitchTest.iteration ready remainderByZero k s) := by
  obtain ⟨hdivisors, hreads⟩ := h.defined h0
  obtain ⟨s', hchoose, hnext, hdefined⟩ : ∃ s', SwitchTest.iteration ready remainderByZero k s
      = choose_threads remainderByZero s' ∧ s'.next = rand_next s.next ∧ EvaluationsDefined s' := by
    rcases hr : ready k (s.thread 2)
    · refine ⟨_, iteration_of_not_ready hr, ?_, hdivisors, hreads⟩
      rfl
    · refine ⟨_, iteration_of_ready hr, ?_, hdivisors, hreads⟩
      rfl
  refine ⟨h.active.of_retires (retires_iteration h.active (h.chosen h0 2)), ?_, ?_, ?_, ?_⟩
  · have hsteps : 4 * (k + 1) + 3 = 4 * k + 3 + 1 + 1 + 1 + 1 := by omega
    rw [hchoose, choose_threads_next, hnext, h.next, hsteps]
    simp only [Function.iterate_succ_apply']
  · rw [hchoose]
    exact fun h0' => chosen_choose_threads h0'
  · rw [hchoose]
    exact fun h0' => choose_thread_index h0'
  · rw [hchoose]
    exact fun h0' => hdefined.choose_threads h0'

theorem tops_succ (h : tops n seed ready beyond remainderByZero k = some s)
    (h0 : s.active_thread_count ≠ 0) :
    tops n seed ready beyond remainderByZero (k + 1) = some (iteration ready remainderByZero k s) := by
  rw [tops, h, Option.bind_some, if_pos h0]

theorem eq_of_tops_succ (h : tops n seed ready beyond remainderByZero k = some s)
    (h' : tops n seed ready beyond remainderByZero (k + 1) = some s') :
    s.active_thread_count ≠ 0 ∧ s' = iteration ready remainderByZero k s := by
  rw [tops, h, Option.bind_some] at h'
  split at h'
  · rename_i h0
    exact ⟨h0, (Option.some.inj h').symm⟩
  · cases h'

theorem top_of_tops (h : tops n seed ready beyond remainderByZero k = some s) : Top n seed k s := by
  induction k generalizing s with
  | zero =>
    cases h
    exact top_start
  | succ k ih =>
    obtain ⟨s₀, hs₀, -⟩ := Option.bind_eq_some_iff.mp h
    obtain ⟨h0, rfl⟩ := eq_of_tops_succ hs₀ h
    exact (ih hs₀).iteration h0

/-- **The asserts wait for all threads.** -/
theorem asserts_wait_for_all_threads (THREAD_COUNT : ℕ) (seed : BitVec 64) (ready : ℕ → ℕ → Bool)
    (beyond remainderByZero : ℕ → ℕ) :
    (∀ k s, tops THREAD_COUNT seed ready beyond remainderByZero k = some s → Active THREAD_COUNT s) ∧
    (∀ k s s', tops THREAD_COUNT seed ready beyond remainderByZero k = some s →
      tops THREAD_COUNT seed ready beyond remainderByZero (k + 1) = some s' → Retires k ready s s') ∧
    ∀ k s, tops THREAD_COUNT seed ready beyond remainderByZero k = some s →
      s.active_thread_count = 0 → ∀ t < THREAD_COUNT, s.answers.count (t, true) = 1 := by
  refine ⟨fun k s hs => (top_of_tops hs).active, ?_, ?_⟩
  · intro k s s' hs hs'
    obtain ⟨h0, rfl⟩ := eq_of_tops_succ hs hs'
    have htop := top_of_tops hs
    exact retires_iteration htop.active (htop.chosen h0 2)
  · intro k s hs h0 t ht
    have hactive := (top_of_tops hs).active
    have hempty : s.active = [] := by rw [active, h0]; rfl
    have hanswered : (t, true) ∈ s.answers := by
      by_contra hnot
      have hmem := (hactive.mem_iff t).mpr ⟨ht, hnot⟩
      rw [hempty] at hmem
      cases hmem
    have := hactive.once t
    have := List.count_pos_iff.mpr hanswered
    omega

theorem asserts_wait_for_all_threads_one :
    ∃ k s, tops 1 0 (fun _ _ => true) id id k = some s ∧ s.active_thread_count = 0 ∧
      s.answers.count (0, true) = 1 :=
  ⟨1, _, rfl, rfl, (asserts_wait_for_all_threads 1 0 (fun _ _ => true) id id).2.2 1 _ rfl rfl 0 (by decide)⟩

/-! ### The last thread is retired -/

variable (ready remainderByZero k s) in
/-- An iteration changes the active part only if it retires a thread. -/
theorem iteration_part :
    ((iteration ready remainderByZero k s).active_threads = s.active_threads ∧
      (iteration ready remainderByZero k s).active_thread_count = s.active_thread_count ∧
      ready k (s.thread 2) = false) ∨
    (iteration ready remainderByZero k s).active_thread_count = s.active_thread_count - 1 := by
  rcases hr : ready k (s.thread 2)
  · left
    rw [iteration_of_not_ready hr]
    exact ⟨rfl, rfl, rfl⟩
  · right
    rw [iteration_of_ready hr, choose_threads_count]

/-- A thread is retired after `k` iterations or more. -/
theorem exists_retirement (hready : ∀ t < n, ∃ K, ∀ k ≥ K, ready k t = true)
    (hs : tops n seed ready beyond remainderByZero k = some s) (h0 : s.active_thread_count ≠ 0) :
    ∃ k₁ s₁ s₂, tops n seed ready beyond remainderByZero k₁ = some s₁ ∧
      tops n seed ready beyond remainderByZero (k₁ + 1) = some s₂ ∧
      s₁.active_thread_count = s.active_thread_count ∧
      s₂.active_thread_count = s.active_thread_count - 1 := by
  by_contra hnone
  -- then the active part stays what it is
  have hstays : ∀ m, ∃ s₁, tops n seed ready beyond remainderByZero (k + m) = some s₁ ∧
      s₁.active_threads = s.active_threads ∧ s₁.active_thread_count = s.active_thread_count := by
    intro m
    induction m with
    | zero => exact ⟨s, hs, rfl, rfl⟩
    | succ m ih =>
      obtain ⟨s₁, hs₁, hthreads, hcount⟩ := ih
      have hnext := tops_succ hs₁ (hcount.symm ▸ h0)
      rcases iteration_part ready remainderByZero (k + m) s₁ with ⟨hthreads', hcount', -⟩ | hretired
      · exact ⟨_, hnext, hthreads'.trans hthreads, hcount'.trans hcount⟩
      · exact absurd ⟨_, _, _, hs₁, hnext, hcount, hretired.trans (by rw [hcount])⟩ hnone
  -- but the first active thread becomes ready, and later the number 0 comes up
  have hfirst : s.active_threads 0 ∈ s.active :=
    List.mem_map_of_mem (List.mem_range.mpr (Nat.pos_of_ne_zero h0))
  obtain ⟨K, hK⟩ := hready _ (((top_of_tops hs).active.mem_iff _).mp hfirst).1
  obtain ⟨j, hj, hzero⟩ := exists_rand_value_ge (rand_next^[3] seed) (K + k) (v := 0) (by decide)
  obtain ⟨s₁, hs₁, hthreads, hcount⟩ := hstays (j - k)
  rw [Nat.add_sub_cancel' (by omega)] at hs₁
  have htop := top_of_tops hs₁
  have h0₁ : s₁.active_thread_count ≠ 0 := hcount.symm ▸ h0
  have hindex : s₁.thread_index 2 = 0 := by
    rw [htop.index h0₁, htop.next, Function.iterate_add_apply, hzero, Nat.zero_mod]
  have hthread : s₁.thread 2 = s.active_threads 0 := by
    rw [(htop.chosen h0₁ 2).2, hindex, hthreads]
  rcases iteration_part ready remainderByZero j s₁ with ⟨-, -, hnot⟩ | hretired
  · rw [hthread, hK j (by omega)] at hnot
    cases hnot
  · exact hnone ⟨j, s₁, _, hs₁, tops_succ hs₁ h0₁, hcount, hretired.trans (by rw [hcount])⟩

theorem exists_last_retirement (hready : ∀ t < n, ∃ K, ∀ k ≥ K, ready k t = true) {c : ℕ}
    (hs : tops n seed ready beyond remainderByZero k = some s) (hc : s.active_thread_count = c + 1) :
    ∃ k₁ s₁ s₂, tops n seed ready beyond remainderByZero k₁ = some s₁ ∧
      tops n seed ready beyond remainderByZero (k₁ + 1) = some s₂ ∧
      s₁.active_thread_count = 1 ∧ s₂.active_thread_count = 0 := by
  induction c generalizing k s with
  | zero =>
    obtain ⟨k₁, s₁, s₂, h₁, h₂, hc₁, hc₂⟩ := exists_retirement hready hs (by omega)
    exact ⟨k₁, s₁, s₂, h₁, h₂, hc₁.trans hc, by omega⟩
  | succ c ih =>
    obtain ⟨k₁, s₁, s₂, h₁, h₂, hc₁, hc₂⟩ := exists_retirement hready hs (by omega)
    exact ih h₂ (by omega)

end iterate

/-- **The test divides by zero**, in the iteration that retires the last
thread, and not before. -/
theorem test_divides_by_zero (THREAD_COUNT : ℕ) (seed : BitVec 64) (ready : ℕ → ℕ → Bool)
    (beyond remainderByZero : ℕ → ℕ) (hn : 1 ≤ THREAD_COUNT)
    (hready : ∀ t < THREAD_COUNT, ∃ K, ∀ k ≥ K, ready k t = true) :
    (∃ k s s', tops THREAD_COUNT seed ready beyond remainderByZero k = some s ∧
      tops THREAD_COUNT seed ready beyond remainderByZero (k + 1) = some s' ∧
      s.active_thread_count = 1 ∧ s'.active_thread_count = 0 ∧
      EvaluationsDefined s ∧ 0 ∈ s'.divisors) ∧
    ¬∀ k s, tops THREAD_COUNT seed ready beyond remainderByZero k = some s → EvaluationsDefined s := by
  have hstart : tops THREAD_COUNT seed ready beyond remainderByZero 0
      = some (start THREAD_COUNT seed beyond remainderByZero) := rfl
  have hcount : (start THREAD_COUNT seed beyond remainderByZero).active_thread_count
      = THREAD_COUNT - 1 + 1 := (Nat.sub_add_cancel hn).symm
  obtain ⟨k, s, s', hs, hs', hc, hc'⟩ := exists_last_retirement hready hstart hcount
  obtain ⟨h0, rfl⟩ := eq_of_tops_succ hs hs'
  have hdefined : EvaluationsDefined s := (top_of_tops hs).defined h0
  have hzero : 0 ∈ (iteration ready remainderByZero k s).divisors :=
    zero_mem_divisors (s := retire ready k (wait s)) hc'
  refine ⟨⟨k, s, _, hs, hs', hc, hc', hdefined, hzero⟩, ?_⟩
  intro hall
  exact (hall _ _ hs').1 0 hzero rfl

theorem test_divides_by_zero_four :
    ∃ k s s', tops 4 1 (fun k t => decide (t < k)) id id k = some s ∧
      tops 4 1 (fun k t => decide (t < k)) id id (k + 1) = some s' ∧
      s.active_thread_count = 1 ∧ s'.active_thread_count = 0 ∧
      EvaluationsDefined s ∧ 0 ∈ s'.divisors :=
  (test_divides_by_zero 4 1 (fun k t => decide (t < k)) id id (by decide)
    (fun t _ => ⟨t + 1, fun _ hk => decide_eq_true hk⟩)).1

/-- One thread that is ready at once. -/
theorem test_divides_by_zero_one :
    ¬∀ (THREAD_COUNT : ℕ) (seed : BitVec 64) (ready : ℕ → ℕ → Bool) (beyond remainderByZero : ℕ → ℕ),
      1 ≤ THREAD_COUNT → (∀ t < THREAD_COUNT, ∃ K, ∀ k ≥ K, ready k t = true) →
      ∀ k s, tops THREAD_COUNT seed ready beyond remainderByZero k = some s → EvaluationsDefined s := by
  intro hall
  have hdefined := hall 1 0 (fun _ _ => true) id id (by decide) (fun _ _ => ⟨0, fun _ _ => rfl⟩) 1 _ rfl
  have hzero : 0 ∈ (iteration (fun _ _ => true) id 0 (start 1 0 id id)).divisors :=
    zero_mem_divisors rfl
  exact hdefined.1 0 hzero rfl

end SwitchTest

end Cheritest
