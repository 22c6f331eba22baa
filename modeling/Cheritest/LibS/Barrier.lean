/-
Cheritest/LibS/Barrier.lean

`thread_barrier` of lib.s, run by any number of hardware threads at once.

The barrier's counters are bytes, one for each thread, made by `mkBarrier`.
`Machine` is the memory shared by `N` hardware threads and their private
states; its steps are single instructions of single threads, and between two
calls a thread may do anything but write a counter.  `simulates` relates it
to the counter barrier: the instructions at which memory is read or written
are where the abstract threads move, and everything in between is quiet.
-/
import Cheritest.Lib.CounterBarrier
import Cheritest.LibS.Corethread

namespace Cheritest

open Mips

/-! ### The routine -/

/-- `prelude`. -/
def prelude {L : Type} : List (Asm L) :=
  [ .daddiu .sp .sp (-32),
    .sd .ra 24 .sp,
    .sd .fp 16 .sp,
    .daddiu .fp .sp 32 ]

/-- `epilogue`. -/
def epilogue {L : Type} : List (Asm L) :=
  [ .ld .ra 24 .sp,
    .ld .fp 16 .sp,
    .daddiu .sp .sp 32 ]

/-- `thread_barrier`. -/
def thread_barrier : List (Asm BarrierLabel) :=
  List.flatten [
    [ .label .thread_barrier ],
    prelude,
    [ .bal .get_corethread_id,
      .nop,
      .sync,
      .dadd .t1 .a0 .v0,
      .lbu .v0 0 .t1,
      .addi .v0 .v0 1,
      .sb .v0 0 .t1,
      .label .barrier_loop,
      .move .t0 .v1,
      .dadd .t1 .a0 .t0,
      .label .thread_loop,
      .lbu .t2 0 .t1,
      .subu .t3 .v0 .t2,
      .bgtz .t3 .barrier_loop,
      .addiu .t0 .t0 (-1),
      .bgez .t0 .thread_loop,
      .dadd .t1 .a0 .t0,
      .sync ],
    epilogue,
    [ .jr .ra,
      .nop ] ]

/-- The two routines as they stand in lib.s. -/
def barrierText (base : BitVec 64) : Text BarrierLabel where
  base := base
  code := get_corethread_id ++ thread_barrier
  fits := by
    simp [get_corethread_id, thread_barrier, prelude, epilogue, assemble]

/-- The instructions at which memory is accessed, the head of
`barrier_loop`, and the delay slot of the return. -/
def watched : List ℕ := [20, 21, 27, 29, 30, 32, 39, 40, 43]

theorem watched_lt : ∀ s ∈ watched, s < 2 ^ 60 := by decide

/-! ### The machine -/

/-- The address of the counter of thread `j`. -/
def counterAddr (bar : BitVec 64) (j : ℕ) : BitVec 64 := bar + BitVec.ofNat 64 j

/-- The two saved registers do not lie over the counters. -/
def StackClear {n : ℕ} (bar : BitVec 64) (N : ℕ) (c : Core n) : Prop :=
  ∀ j < N, 16 ≤ (counterAddr bar j - (c.get .sp - 16)).toNat

/-- `N` hardware threads on one memory.  `calls` counts the calls of the
barrier that each has begun and `stored` those in which it has stored its
counter; `inside` says which are in a call. -/
structure Machine (n N : ℕ) where
  mem : Mem
  hart : Fin N → Hart n
  calls : Fin N → ℕ
  stored : Fin N → ℕ
  inside : Fin N → Bool

namespace Machine

variable {n N : ℕ}

/-- Thread `i` calls the barrier with its registers in state `c`. -/
def call (T : Text BarrierLabel) (s : Machine n N) (i : Fin N) (c : Core n) : Machine n N :=
  { s with
    hart := Function.update s.hart i (T.hartAt 19 c)
    calls := Function.update s.calls i (s.calls i + 1)
    inside := Function.update s.inside i true }

/-- Thread `i` has executed an instruction of the barrier.  Instruction 29
stores the counter and instruction 43 is the last one of a call. -/
def run (T : Text BarrierLabel) (s : Machine n N) (i : Fin N) (h : Hart n) (m : Mem) :
    Machine n N :=
  { s with
    mem := m
    hart := Function.update s.hart i h
    stored := if (s.hart i).pc = T.loc 29 then Function.update s.stored i (s.stored i + 1)
      else s.stored
    inside := if (s.hart i).pc = T.loc 43 then Function.update s.inside i false else s.inside }

/-- One step of one thread. -/
inductive Step (T : Text BarrierLabel) (F : CapFormat n) (bar : BitVec 64) :
    Machine n N → Machine n N → Prop
  | call {s} (i : Fin N) (c : Core n) : s.inside i = false → s.calls i < 255 →
      Corethread c i N → c.get .a0 = bar → StackClear bar N c → Step T F bar s (s.call T i c)
  | run {s} (i : Fin N) {h m} : s.inside i = true → (s.hart i).step T F s.mem = .ok (h, m) →
      Step T F bar s (s.run T i h m)
  | other {s} (i : Fin N) (h : Hart n) (m : Mem) : s.inside i = false →
      (∀ j < N, m.byte (counterAddr bar j) = s.mem.byte (counterAddr bar j)) →
      Step T F bar s { s with mem := m, hart := Function.update s.hart i h }

end Machine

/-- The threads and a barrier at `bar` on which none has called, as
`mkBarrier` leaves it. -/
def barrierMachine (base : BitVec 64) {n : ℕ} (F : CapFormat n) (bar : BitVec 64) (N : ℕ) :
    System (Machine n N) where
  init s := (∀ j < N, s.mem.byte (counterAddr bar j) = 0) ∧
    ∀ i, s.calls i = 0 ∧ s.stored i = 0 ∧ s.inside i = false
  step := Machine.Step (barrierText base) F bar

/-! ### Where a thread is -/

section places
variable {n N : ℕ}

open CounterBarrier (Place)

/-- The hardware thread `i`, about to execute a watched instruction, is where
the abstract thread is. -/
def AtPlace (T : Text BarrierLabel) (bar : BitVec 64) (i : Fin N) (p : Place N) (h : Hart n) :
    Prop :=
  ∃ c : Core n, h.core = c ∧
  match p with
  | .outside => False
  | .entering =>
      c.get .a0 = bar ∧
        ((h = T.hartAt 20 c ∧ Corethread c i N ∧
            ∀ j < N, 16 ≤ (counterAddr bar j - (c.get .sp + 16)).toNat) ∨
          (h = T.hartAt 21 c ∧ Corethread c i N ∧
            ∀ j < N, 16 ≤ (counterAddr bar j - (c.get .sp + 16)).toNat) ∨
          (h = T.hartAt 27 c ∧ c.get .v1 = BitVec.ofNat 64 (N - 1) ∧
            c.get .t1 = counterAddr bar i))
  | .storing v =>
      h = T.hartAt 29 c ∧ c.get .a0 = bar ∧ c.get .v0 = BitVec.ofNat 64 v ∧
        c.get .v1 = BitVec.ofNat 64 (N - 1) ∧ c.get .t1 = counterAddr bar i
  | .restarting v =>
      h = T.hartAt 30 c ∧ c.get .a0 = bar ∧ c.get .v0 = BitVec.ofNat 64 v ∧
        c.get .v1 = BitVec.ofNat 64 (N - 1)
  | .scanning v x =>
      h = T.hartAt 32 c ∧ c.get .a0 = bar ∧ c.get .v0 = BitVec.ofNat 64 v ∧
        c.get .v1 = BitVec.ofNat 64 (N - 1) ∧ c.get .t0 = BitVec.ofNat 64 x ∧
        c.get .t1 = counterAddr bar x
  | .leaving v =>
      (h = T.hartAt 39 c ∨ h = T.hartAt 40 c ∨ h.pc = T.loc 43) ∧ c.get .v0 = BitVec.ofNat 64 v

end places

/-! ### The quiet parts -/

section quiet
variable {n N : ℕ} {base bar : BitVec 64} {F : CapFormat n} {c : Core n} {i : Fin N}

/-- A thread of the barrier heads for a place. -/
abbrev HeadsFor (base bar : BitVec 64) (F : CapFormat n) (i : Fin N) (p : CounterBarrier.Place N)
    (h : Hart n) : Prop :=
  Heads (barrierText base) F watched (AtPlace (barrierText base) bar i p) h

theorem hasAt_get_corethread_id (base : BitVec 64) :
    (barrierText base).HasAt 0 get_corethread_id := .of_drop rfl

theorem hasAt_thread_barrier (base : BitVec 64) : (barrierText base).HasAt 19 thread_barrier :=
  Text.HasAt.of_drop (show _ = _ ++ [] from rfl)

/-- From the entry to the first saved register. -/
theorem heads_entry (hid : Corethread c i N) (ha0 : c.get .a0 = bar) (hsp : StackClear bar N c) :
    HeadsFor base bar F i .entering ((barrierText base).hartAt 19 c) := by
  refine heads_op watched_lt (hasAt_thread_barrier base 0 _ rfl) (by decide)
    (.ok (fun _ => rfl) (.arrived ⟨_, rfl, ?_, .inl ⟨rfl, hid.congr rfl, ?_⟩⟩))
  · simpa using ha0
  · intro j hj
    have hframe : (c.set .sp (c.get .sp + (-32 : BitVec 16).signExtend 64)).get .sp + 16
        = c.get .sp - 16 := by
      have hneg : (-32 : BitVec 16).signExtend 64 = -32#64 := by decide
      rw [Core.get_set _ _ _ _ (by decide), if_pos rfl, hneg]
      bv_omega
    rw [Text.hartAt_core, hframe]
    exact hsp j hj

/-- From the second saved register to the load of the counter. -/
theorem heads_load (hN : N ≤ 32) (hid : Corethread c i N) (ha0 : c.get .a0 = bar) :
    HeadsFor base bar F i .entering ((barrierText base).hartAt 22 c) := by
  have hcode := hasAt_thread_barrier base
  refine heads_op watched_lt (hcode 3 _ rfl) (by decide) (.ok (fun _ => rfl) ?_)
  refine .of_quiet (quiet_bal watched_lt (hcode 4 _ rfl) (hcode 5 _ rfl) (by decide) (by decide)
    (show labelIndex .get_corethread_id (barrierText base).code = 0 by rfl) (fun _ => rfl)) ?_
  obtain ⟨c', hq, hv0, hv1, hframe, -⟩ := get_corethread_id_quiet (j := 0) (F := F) watched_lt
    (hasAt_get_corethread_id base) (show labelIndex .one (barrierText base).code = 0 + 17 by rfl) (by decide)
    (c := (c.set .fp (c.get .sp + (32 : BitVec 16).signExtend 64)).set .ra
      ((barrierText base).loc 25)) (hid.congr rfl) (by omega)
  refine .of_quiet hq ?_
  have hra : ((c.set .fp (c.get .sp + (32 : BitVec 16).signExtend 64)).set .ra
      ((barrierText base).loc 25)).get .ra = (barrierText base).loc 25 := by simp
  rw [hra, Text.loc_add_four]
  refine heads_op (k := 25) watched_lt (hcode 6 _ rfl) (by decide) (.ok (fun _ => rfl) ?_)
  refine heads_op watched_lt (hcode 7 _ rfl) (by decide) (leads_dadd ?_)
  have ha0' : c'.get .a0 = bar := by
    rw [hframe .a0 (by decide) (by decide) (by decide) (by decide)]
    simpa using ha0
  refine .arrived ⟨_, rfl, ?_, .inr (.inr ⟨rfl, ?_, ?_⟩)⟩
  · simpa using ha0'
  · simpa using hv1
  · simp [ha0', hv0, counterAddr]

/-- From the loaded counter to its store. -/
theorem heads_store {y : ℕ} (hy : y < 255) (ha0 : c.get .a0 = bar)
    (hv0 : c.get .v0 = BitVec.ofNat 64 y) (hv1 : c.get .v1 = BitVec.ofNat 64 (N - 1))
    (ht1 : c.get .t1 = counterAddr bar i) :
    HeadsFor base bar F i (.storing (y + 1)) ((barrierText base).hartAt 28 c) := by
  refine heads_op watched_lt (hasAt_thread_barrier base 9 _ rfl) (by decide)
    (.ok (fun _ => Op.exec_addi_one hv0 (by omega)) (.arrived ⟨_, rfl, rfl, ?_, ?_, ?_, ?_⟩))
  · simpa using ha0
  · simp
  · simpa using hv1
  · simpa using ht1

/-- From the head of `barrier_loop` to the load of the last counter. -/
theorem heads_last {v : ℕ} (ha0 : c.get .a0 = bar) (hv0 : c.get .v0 = BitVec.ofNat 64 v)
    (hv1 : c.get .v1 = BitVec.ofNat 64 (N - 1)) (ht0 : c.get .t0 = BitVec.ofNat 64 (N - 1)) :
    HeadsFor base bar F i (.scanning v (CounterBarrier.last i)) ((barrierText base).hartAt 31 c) := by
  refine heads_op watched_lt (hasAt_thread_barrier base 12 _ rfl) (by decide)
    (leads_dadd (.arrived ⟨_, rfl, rfl, ?_, ?_, ?_, ?_, ?_⟩))
  · simpa using ha0
  · simpa using hv0
  · simpa using hv1
  · simpa [CounterBarrier.last] using ht0
  · simp [ha0, ht0, counterAddr, CounterBarrier.last]

/-- The comparison of two counters. -/
theorem toInt_subu {v y : ℕ} (hv : v < 256) (hy : y < 256) :
    (sext32 ((BitVec.ofNat 64 v).setWidth 32 - (BitVec.ofNat 64 y).setWidth 32)).toInt
      = (v : ℤ) - y := by
  rw [setWidth32_ofNat, setWidth32_ofNat, sext32, BitVec.toInt_signExtend_of_le (by omega),
    BitVec.toInt_sub, toInt32_ofNat_small (by omega), toInt32_ofNat_small (by omega), Int.bmod_def]
  omega

/-- From a counter that is behind to the head of `barrier_loop`. -/
theorem heads_fail {v y : ℕ} (hv : v < 256) (hlt : y < v) (ha0 : c.get .a0 = bar)
    (hv0 : c.get .v0 = BitVec.ofNat 64 v) (hv1 : c.get .v1 = BitVec.ofNat 64 (N - 1))
    (ht2 : c.get .t2 = BitVec.ofNat 64 y) :
    HeadsFor base bar F i (.restarting v) ((barrierText base).hartAt 33 c) := by
  have hcode := hasAt_thread_barrier base
  refine heads_op watched_lt (hcode 14 _ rfl) (by decide) (.ok (fun _ => rfl) ?_)
  refine heads_taken watched_lt (hcode 15 _ rfl) (hcode 16 _ rfl) (by decide) (by decide)
    (show labelIndex .barrier_loop (barrierText base).code = 30 by rfl) ?_
    (.ok (fun _ => rfl) (.arrived ⟨_, rfl, rfl, ?_, ?_, ?_⟩))
  · simp only [Cond.holds, ne_eq, reduceCtorEq, not_false_eq_true, Core.get_set, if_true,
      decide_eq_true_eq, hv0, ht2]
    rw [toInt_subu hv (by omega)]
    omega
  · simpa using ha0
  · simpa using hv0
  · simpa using hv1

theorem counterAddr_succ (x : ℕ) : counterAddr bar (x + 1) + -1 = counterAddr bar x := by
  rw [counterAddr, counterAddr, BitVec.ofNat_add, ← add_assoc]
  exact add_neg_cancel_right _ 1

/-- From a counter that has arrived to the next one, or out of the loop. -/
theorem heads_pass {v y : ℕ} {x : Fin N} (hN : N ≤ 32) (hv : v < 256) (hy : y < 256) (hle : v ≤ y)
    (ha0 : c.get .a0 = bar) (hv0 : c.get .v0 = BitVec.ofNat 64 v)
    (hv1 : c.get .v1 = BitVec.ofNat 64 (N - 1)) (ht0 : c.get .t0 = BitVec.ofNat 64 x)
    (ht2 : c.get .t2 = BitVec.ofNat 64 y) :
    HeadsFor base bar F i (CounterBarrier.next v x) ((barrierText base).hartAt 33 c) := by
  have hcode := hasAt_thread_barrier base
  have hx := x.isLt
  refine heads_op watched_lt (hcode 14 _ rfl) (by decide) (.ok (fun _ => rfl) ?_)
  -- the counter is not behind, so the scan goes on
  refine heads_not_taken watched_lt (hcode 15 _ rfl) (hcode 16 _ rfl) (by decide) (by decide) ?_
    (.ok (fun _ => rfl) ?_)
  · simp only [Cond.holds, ne_eq, reduceCtorEq, not_false_eq_true, Core.get_set, if_true,
      decide_eq_false_iff_not, hv0, ht2]
    rw [toInt_subu hv hy]
    omega
  have hneg : (-1 : BitVec 16).signExtend 32 = -1 := by decide
  unfold CounterBarrier.next
  split_ifs with h0
  · -- down to the next counter
    have hdec : sext32 ((BitVec.ofNat 64 x.val).setWidth 32 + (-1 : BitVec 16).signExtend 32)
        = BitVec.ofNat 64 (x.val - 1) := by
      obtain ⟨x', hx'⟩ : ∃ x', x.val = x' + 1 := ⟨x.val - 1, by omega⟩
      have hcancel : BitVec.ofNat 32 (x' + 1) + -1 = BitVec.ofNat 32 x' := by
        rw [BitVec.ofNat_add]
        exact add_neg_cancel_right _ 1
      rw [hx', setWidth32_ofNat, hneg, hcancel, sext32_ofNat (by omega)]
      rfl
    refine heads_taken watched_lt (hcode 17 _ rfl) (hcode 18 _ rfl) (by decide) (by decide)
      (show labelIndex .thread_loop (barrierText base).code = 32 by rfl) ?_
      (leads_dadd (.arrived ⟨_, rfl, rfl, ?_, ?_, ?_, ?_, ?_⟩))
    · simp only [Cond.holds, ne_eq, reduceCtorEq, not_false_eq_true, Core.get_set, if_true,
        if_false, decide_eq_true_eq, ht0, hdec]
      rw [toInt_ofNat_small (by omega)]
      omega
    · simpa using ha0
    · simpa using hv0
    · simpa using hv1
    · simp only [Text.hartAt_core, ne_eq, reduceCtorEq, not_false_eq_true, Core.get_set, if_true,
        if_false, ht0, hdec]
    · simp only [Text.hartAt_core, ne_eq, reduceCtorEq, not_false_eq_true, Core.get_set, if_true,
        if_false, ha0, ht0, hdec, counterAddr]
  · -- the last comparison: `$t0` drops to -1
    have hx0 : x.val = 0 := by omega
    have hdec : sext32 ((BitVec.ofNat 64 x.val).setWidth 32 + (-1 : BitVec 16).signExtend 32)
        = -1#64 := by
      rw [hx0]
      decide
    refine heads_not_taken watched_lt (hcode 17 _ rfl) (hcode 18 _ rfl) (by decide) (by decide) ?_
      (leads_dadd ?_)
    · simp only [Cond.holds, ne_eq, reduceCtorEq, not_false_eq_true, Core.get_set, if_true,
        if_false, decide_eq_false_iff_not, ht0, hdec]
      decide
    · refine heads_op watched_lt (hcode 19 _ rfl) (by decide)
        (.ok (fun _ => rfl) (.arrived ⟨_, rfl, .inl rfl, ?_⟩))
      simpa using hv0

/-- From the restored registers to the end. -/
theorem heads_return {v : ℕ} (hv0 : c.get .v0 = BitVec.ofNat 64 v) :
    HeadsFor base bar F i (.leaving v) ((barrierText base).hartAt 41 c) := by
  have hcode := hasAt_thread_barrier base
  refine heads_op watched_lt (hcode 22 _ rfl) (by decide) (.ok (fun _ => rfl) ?_)
  refine heads_jr watched_lt (hcode 23 _ rfl) (by decide)
    (.arrived ⟨_, rfl, .inr (.inr rfl), ?_⟩)
  simpa using hv0

end quiet

/-! ### The simulation -/

section simulation
variable {n N : ℕ} {base bar : BitVec 64} {F : CapFormat n} {s : Machine n N}
  {a a' : CounterBarrier.State N} {i : Fin N}

/-- The machine is in the state that the counter barrier is in. -/
structure Sim (base bar : BitVec 64) (F : CapFormat n) (s : Machine n N)
    (a : CounterBarrier.State N) : Prop where
  inv : CounterBarrier.Inv a
  calls : s.calls = a.calls
  calls_le : ∀ i, a.calls i ≤ 255
  stored : s.stored = a.counter
  counter : ∀ j : Fin N, s.mem.byte (counterAddr bar j) = BitVec.ofNat 8 (a.counter j)
  outside : ∀ i, s.inside i = false → a.place i = .outside
  inside : ∀ i, s.inside i = true → HeadsFor base bar F i (a.place i) (s.hart i)

/-- Counters of different threads have different addresses. -/
theorem counterAddr_ne (hN : N ≤ 32) {i j : Fin N} (h : j ≠ i) :
    counterAddr bar j ≠ counterAddr bar i := by
  intro heq
  have h' := congrArg BitVec.toNat (add_left_cancel (a := bar) heq)
  simp only [BitVec.toNat_ofNat] at h'
  have hi := i.isLt
  have hj := j.isLt
  exact h (Fin.ext (by omega))

/-- Own counters are below the number of calls. -/
theorem Sim.counter_le (h : Sim base bar F s a) (j : Fin N) : a.counter j ≤ a.calls j := by
  have hj := h.inv j
  cases hp : a.place j with
  | outside => rw [hp] at hj; exact hj.le
  | entering => rw [hp] at hj; exact (Nat.le_succ _).trans hj.le
  | storing v => rw [hp] at hj; exact (Nat.le_succ _).trans hj.1.le
  | restarting v => rw [hp] at hj; exact hj.1.le
  | scanning v x => rw [hp] at hj; exact hj.1.le
  | leaving v => rw [hp] at hj; exact hj.1.le

/-- A step of thread `i` that neither stores its counter nor ends its call. -/
theorem Sim.moved (h : Sim base bar F s a) (hin : s.inside i = true) {h' : Hart n} {m' : Mem}
    {p : CounterBarrier.Place N} {k : ℕ} (hk : k < 2 ^ 60) (hpc : (s.hart i).pc = (barrierText base).loc k)
    (h29 : k ≠ 29) (h43 : k ≠ 43) (hinv : CounterBarrier.Inv (a.goto i p))
    (hmem : ∀ j : Fin N, m'.byte (counterAddr bar j) = s.mem.byte (counterAddr bar j))
    (hheads : HeadsFor base bar F i p h') :
    Sim base bar F (s.run (barrierText base) i h' m') (a.goto i p) := by
  -- neither the store of the counter nor the return, so the ghost fields stay
  have hne29 : (s.hart i).pc ≠ (barrierText base).loc 29 := by
    rw [hpc]
    exact fun he => h29 ((barrierText base).loc_injective (by omega) (by omega) he)
  have hne43 : (s.hart i).pc ≠ (barrierText base).loc 43 := by
    rw [hpc]
    exact fun he => h43 ((barrierText base).loc_injective (by omega) (by omega) he)
  constructor
  case inv => exact hinv
  case calls => exact h.calls
  case calls_le => exact h.calls_le
  case stored =>
    simp only [Machine.run, if_neg hne29]
    exact h.stored
  case counter =>
    intro j
    simp only [Machine.run, CounterBarrier.State.goto_counter]
    rw [hmem, h.counter]
  case outside =>
    intro j hj
    simp only [Machine.run, if_neg hne43] at hj
    rw [CounterBarrier.State.goto_place]
    split_ifs with hji
    · subst hji
      rw [hin] at hj
      cases hj
    · exact h.outside j hj
  case inside =>
    intro j hj
    simp only [Machine.run, if_neg hne43] at hj ⊢
    rw [CounterBarrier.State.goto_place]
    split_ifs with hji
    · subst hji
      rw [Function.update_self]
      exact hheads
    · rw [Function.update_of_ne hji]
      exact h.inside j hj

/-- A step between watched instructions. -/
theorem Sim.quiet (h : Sim base bar F s a) (hin : s.inside i = true) {h' : Hart n}
    (hun : ∀ k ∈ watched, (s.hart i).pc ≠ (barrierText base).loc k)
    (hheads : HeadsFor base bar F i (a.place i) h') :
    Sim base bar F (s.run (barrierText base) i h' s.mem) a := by
  have hne29 := hun 29 (by decide)
  have hne43 := hun 43 (by decide)
  constructor
  case inv => exact h.inv
  case calls => exact h.calls
  case calls_le => exact h.calls_le
  case stored =>
    simp only [Machine.run, if_neg hne29]
    exact h.stored
  case counter => exact h.counter
  case outside =>
    intro j hj
    simp only [Machine.run, if_neg hne43] at hj
    exact h.outside j hj
  case inside =>
    intro j hj
    simp only [Machine.run, if_neg hne43] at hj ⊢
    by_cases hji : j = i
    · subst hji
      rw [Function.update_self]
      exact hheads
    · rw [Function.update_of_ne hji]
      exact h.inside j hj

/-! #### One lemma for each place -/

/-- Saving a register leaves the counters alone. -/
theorem counter_storeDouble {m : Mem} {sp v : BitVec 64} {off : BitVec 16}
    (hoff : off = 24 ∨ off = 16) {j : Fin N} (hclear : 16 ≤ (counterAddr bar j - (sp + 16)).toNat) :
    (m.storeDouble n (sp + off.signExtend 64) v).byte (counterAddr bar j)
      = m.byte (counterAddr bar j) := by
  refine Mem.storeDouble_byte n m _ v ?_
  rcases hoff with rfl | rfl
  · rw [show (24 : BitVec 16).signExtend 64 = 24#64 by decide]
    bv_omega
  · rw [show (16 : BitVec 16).signExtend 64 = 16#64 by decide]
    bv_omega

theorem Sim.run_entering (hN : N ≤ 32) (h : Sim base bar F s a) (hin : s.inside i = true)
    (hp : a.place i = .entering) (hat : AtPlace (barrierText base) bar i .entering (s.hart i))
    {h' : Hart n} {m' : Mem} (hs : (s.hart i).step (barrierText base) F s.mem = .ok (h', m')) :
    ∃ a', (CounterBarrier.barrier N).Run a a' ∧ Sim base bar F (s.run (barrierText base) i h' m') a' := by
  have hcode := hasAt_thread_barrier base
  have hk := h.inv i
  rw [hp] at hk
  have hkeep : CounterBarrier.Inv (a.goto i .entering) := h.inv.goto hk
  obtain ⟨c, -, ha0, ⟨hh, hid, hclear⟩ | ⟨hh, hid, hclear⟩ | ⟨hh, hv1, ht1⟩⟩ := hat
  · -- `sd $ra`
    rw [hh] at hs
    obtain ⟨c', he, rfl⟩ := step_op (hcode 1 _ rfl) hs
    obtain ⟨rfl, rfl⟩ := Op.exec_sd_ok he
    refine ⟨_, .refl, CounterBarrier.State.goto_self a i hp ▸ h.moved hin (k := 20) (by norm_num)
      (by rw [hh]; rfl) (by decide) (by decide) hkeep ?_ (.arrived ⟨_, rfl, by simpa using ha0,
        .inr (.inl ⟨rfl, hid.congr rfl, by simpa using hclear⟩)⟩)⟩
    exact fun j => counter_storeDouble (.inl rfl) (hclear j j.isLt)
  · -- `sd $fp`
    rw [hh] at hs
    obtain ⟨c', he, rfl⟩ := step_op (hcode 2 _ rfl) hs
    obtain ⟨rfl, rfl⟩ := Op.exec_sd_ok he
    refine ⟨_, .refl, CounterBarrier.State.goto_self a i hp ▸ h.moved hin (k := 21) (by norm_num)
      (by rw [hh]; rfl) (by decide) (by decide) hkeep ?_
      (heads_load hN (hid.congr rfl) (by simpa using ha0))⟩
    exact fun j => counter_storeDouble (.inr rfl) (hclear j j.isLt)
  · -- the load of the own counter
    rw [hh] at hs
    obtain ⟨c', he, rfl⟩ := step_op (hcode 8 _ rfl) hs
    simp only [Op.exec, Op.put, Except.ok.injEq, Prod.mk.injEq] at he
    obtain ⟨rfl, rfl⟩ := he
    have hle := h.calls_le i
    have hown : a.counter i + 1 = a.calls i := hk
    have haddr : c.get .t1 + (0 : BitVec 16).signExtend 64 = counterAddr bar i := by
      rw [ht1, show (0 : BitVec 16).signExtend 64 = 0 by decide, add_zero]
    have hbyte : (s.mem.byte (c.get .t1 + (0 : BitVec 16).signExtend 64)).setWidth 64
        = BitVec.ofNat 64 (a.counter i) := by
      rw [haddr, h.counter, setWidth64_ofNat (by omega)]
    refine ⟨_, .single (.load i hp), h.moved hin (k := 27) (by norm_num) (by rw [hh]; rfl)
      (by decide) (by decide) (h.inv.goto ⟨hk, hk⟩) (fun _ => rfl)
      (heads_store (by omega) ?_ ?_ ?_ ?_)⟩
    · simpa using ha0
    · simpa using hbyte
    · simpa using hv1
    · simpa using ht1

theorem Sim.run_storing (hN : N ≤ 32) (h : Sim base bar F s a) (hin : s.inside i = true) {v : ℕ}
    (hp : a.place i = .storing v) (hat : AtPlace (barrierText base) bar i (.storing v) (s.hart i))
    {h' : Hart n} {m' : Mem} (hs : (s.hart i).step (barrierText base) F s.mem = .ok (h', m')) :
    ∃ a', (CounterBarrier.barrier N).Run a a' ∧ Sim base bar F (s.run (barrierText base) i h' m') a' := by
  have hcode := hasAt_thread_barrier base
  have hk := h.inv i
  rw [hp] at hk
  obtain ⟨hown, hvk⟩ := hk
  obtain ⟨c, -, hh, ha0, hv0, hv1, ht1⟩ := hat
  have hstep : CounterBarrier.Step a (a.store i v) := .store i v hp
  have hpc : (s.hart i).pc = (barrierText base).loc 29 := by rw [hh]; rfl
  have hne43 : (s.hart i).pc ≠ (barrierText base).loc 43 := by
    rw [hpc]
    exact fun he => absurd ((barrierText base).loc_injective (by norm_num) (by norm_num) he) (by decide)
  rw [hh] at hs
  obtain ⟨c', he, rfl⟩ := step_op (hcode 10 _ rfl) hs
  simp only [Op.exec, Except.ok.injEq, Prod.mk.injEq] at he
  obtain ⟨rfl, rfl⟩ := he
  have haddr : c.get .t1 + (0 : BitVec 16).signExtend 64 = counterAddr bar i := by
    rw [ht1, show (0 : BitVec 16).signExtend 64 = 0 by decide, add_zero]
  refine ⟨_, .single hstep, ?_⟩
  constructor
  case inv => exact h.inv.step hstep
  case calls => exact h.calls
  case calls_le => exact h.calls_le
  case stored =>
    simp only [Machine.run, if_pos hpc, h.stored, CounterBarrier.State.store,
      CounterBarrier.State.goto_counter]
    rw [hvk, ← hown]
  case counter =>
    intro j
    simp only [Machine.run, Mem.storeByte_byte, haddr, CounterBarrier.State.store,
      CounterBarrier.State.goto_counter, Function.update_apply]
    by_cases hji : j = i
    · -- the store takes the low byte of the register
      rw [if_pos (by rw [hji]), if_pos hji, hv0]
      exact setWidth8_ofNat v
    · rw [if_neg (counterAddr_ne hN hji), if_neg hji]
      exact h.counter j
  case outside =>
    intro j hj
    simp only [Machine.run, if_neg hne43] at hj
    rw [CounterBarrier.State.store, CounterBarrier.State.goto_place]
    split_ifs with hji
    · subst hji
      rw [hin] at hj
      cases hj
    · exact h.outside j hj
  case inside =>
    intro j hj
    simp only [Machine.run, if_neg hne43] at hj ⊢
    rw [CounterBarrier.State.store, CounterBarrier.State.goto_place]
    split_ifs with hji
    · subst hji
      rw [Function.update_self]
      exact .arrived ⟨_, rfl, rfl, by simpa using ha0, by simpa using hv0, by simpa using hv1⟩
    · rw [Function.update_of_ne hji]
      exact h.inside j hj

theorem Sim.run_restarting (h : Sim base bar F s a) (hin : s.inside i = true) {v : ℕ}
    (hp : a.place i = .restarting v)
    (hat : AtPlace (barrierText base) bar i (.restarting v) (s.hart i))
    {h' : Hart n} {m' : Mem} (hs : (s.hart i).step (barrierText base) F s.mem = .ok (h', m')) :
    ∃ a', (CounterBarrier.barrier N).Run a a' ∧ Sim base bar F (s.run (barrierText base) i h' m') a' := by
  obtain ⟨c, -, hh, ha0, hv0, hv1⟩ := hat
  have hstep : CounterBarrier.Step a (a.goto i (.scanning v (CounterBarrier.last i))) := .start i v hp
  have hpc : (s.hart i).pc = (barrierText base).loc 30 := by rw [hh]; rfl
  rw [hh] at hs
  obtain ⟨c', he, rfl⟩ := step_op (hasAt_thread_barrier base 11 _ rfl) hs
  simp only [Op.exec, Op.put, Except.ok.injEq, Prod.mk.injEq] at he
  obtain ⟨rfl, rfl⟩ := he
  refine ⟨_, .single hstep, h.moved hin (k := 30) (by norm_num) hpc (by decide) (by decide)
    (h.inv.step hstep) (fun _ => rfl) (heads_last ?_ ?_ ?_ ?_)⟩
  · simpa using ha0
  · simpa using hv0
  · simpa using hv1
  · simpa using hv1

theorem Sim.run_scanning (hN : N ≤ 32) (h : Sim base bar F s a) (hin : s.inside i = true) {v : ℕ}
    {x : Fin N} (hp : a.place i = .scanning v x)
    (hat : AtPlace (barrierText base) bar i (.scanning v x) (s.hart i))
    {h' : Hart n} {m' : Mem} (hs : (s.hart i).step (barrierText base) F s.mem = .ok (h', m')) :
    ∃ a', (CounterBarrier.barrier N).Run a a' ∧ Sim base bar F (s.run (barrierText base) i h' m') a' := by
  have hk := h.inv i
  rw [hp] at hk
  obtain ⟨c, -, hh, ha0, hv0, hv1, ht0, ht1⟩ := hat
  have hpc : (s.hart i).pc = (barrierText base).loc 32 := by rw [hh]; rfl
  have hx := h.counter_le x
  have hle := h.calls_le x
  have hv : v < 256 := by
    have := h.calls_le i
    have := hk.2.1
    omega
  rw [hh] at hs
  obtain ⟨c', he, rfl⟩ := step_op (hasAt_thread_barrier base 13 _ rfl) hs
  simp only [Op.exec, Op.put, Except.ok.injEq, Prod.mk.injEq] at he
  obtain ⟨rfl, rfl⟩ := he
  have haddr : c.get .t1 + (0 : BitVec 16).signExtend 64 = counterAddr bar x := by
    rw [ht1, show (0 : BitVec 16).signExtend 64 = 0 by decide, add_zero]
  have hbyte : (s.mem.byte (c.get .t1 + (0 : BitVec 16).signExtend 64)).setWidth 64
      = BitVec.ofNat 64 (a.counter x) := by
    rw [haddr, h.counter, setWidth64_ofNat (by omega)]
  -- a counter that is behind restarts the scan
  rcases Nat.lt_or_ge (a.counter x) v with hlt | hge
  · have hstep : CounterBarrier.Step a (a.goto i (.restarting v)) := .fail i v x hp hlt
    refine ⟨_, .single hstep, h.moved hin (k := 32) (by norm_num) hpc (by decide) (by decide)
      (h.inv.step hstep) (fun _ => rfl) (heads_fail hv hlt ?_ ?_ ?_ ?_)⟩
    · simpa using ha0
    · simpa using hv0
    · simpa using hv1
    · simpa using hbyte
  · have hstep : CounterBarrier.Step a (a.goto i (CounterBarrier.next v x)) := .pass i v x hp hge
    refine ⟨_, .single hstep, h.moved hin (k := 32) (by norm_num) hpc (by decide) (by decide)
      (h.inv.step hstep) (fun _ => rfl) (heads_pass hN hv (by omega) hge ?_ ?_ ?_ ?_ ?_)⟩
    · simpa using ha0
    · simpa using hv0
    · simpa using hv1
    · simpa using ht0
    · simpa using hbyte

theorem Sim.run_leaving (h : Sim base bar F s a) (hin : s.inside i = true) {v : ℕ}
    (hp : a.place i = .leaving v) (hat : AtPlace (barrierText base) bar i (.leaving v) (s.hart i))
    {h' : Hart n} {m' : Mem} (hs : (s.hart i).step (barrierText base) F s.mem = .ok (h', m')) :
    ∃ a', (CounterBarrier.barrier N).Run a a' ∧ Sim base bar F (s.run (barrierText base) i h' m') a' := by
  have hcode := hasAt_thread_barrier base
  have hk := h.inv i
  rw [hp] at hk
  have hkeep : CounterBarrier.Inv (a.goto i (.leaving v)) := h.inv.goto hk
  obtain ⟨c, hc, hh | hh | hpc, hv0⟩ := hat
  · -- `ld $ra`
    rw [hh] at hs
    obtain ⟨c', he, rfl⟩ := step_op (hcode 20 _ rfl) hs
    obtain ⟨rfl, rfl⟩ := Op.exec_ld_ok he
    refine ⟨_, .refl, CounterBarrier.State.goto_self a i hp ▸ h.moved hin (k := 39) (by norm_num)
      (by rw [hh]; rfl) (by decide) (by decide) hkeep (fun _ => rfl)
      (.arrived ⟨_, rfl, .inr (.inl rfl), by simpa using hv0⟩)⟩
  · -- `ld $fp`
    rw [hh] at hs
    obtain ⟨c', he, rfl⟩ := step_op (hcode 21 _ rfl) hs
    obtain ⟨rfl, rfl⟩ := Op.exec_ld_ok he
    refine ⟨_, .refl, CounterBarrier.State.goto_self a i hp ▸ h.moved hin (k := 40) (by norm_num)
      (by rw [hh]; rfl) (by decide) (by decide) hkeep (fun _ => rfl)
      (heads_return (by simpa using hv0))⟩
  · -- the delay slot of the return
    have hne29 : (s.hart i).pc ≠ (barrierText base).loc 29 := by
      rw [hpc]
      exact fun he => absurd ((barrierText base).loc_injective (by norm_num) (by norm_num) he)
        (by decide)
    have hstep : CounterBarrier.Step a (a.goto i .outside) := .ret i v hp
    have hmem : m' = s.mem := by
      simp only [Hart.step, hpc, (barrierText base).fetch_loc (hcode 24 _ rfl), Op.exec,
        Except.ok.injEq, Prod.mk.injEq] at hs
      exact hs.2.symm
    refine ⟨_, .single hstep, ?_⟩
    constructor
    case inv => exact h.inv.step hstep
    case calls => exact h.calls
    case calls_le => exact h.calls_le
    case stored =>
      simp only [Machine.run, if_neg hne29]
      exact h.stored
    case counter =>
      intro j
      simp only [Machine.run, hmem]
      exact h.counter j
    case outside =>
      intro j hj
      rw [CounterBarrier.State.goto_place]
      split_ifs with hji
      · rfl
      · simp only [Machine.run, if_pos hpc, Function.update_of_ne hji] at hj
        exact h.outside j hj
    case inside =>
      intro j hj
      by_cases hji : j = i
      · subst hji
        simp [Machine.run, if_pos hpc] at hj
      · simp only [Machine.run, if_pos hpc, Function.update_of_ne hji] at hj ⊢
        rw [CounterBarrier.State.goto_place, if_neg hji]
        exact h.inside j hj

theorem Sim.run (hN : N ≤ 32) (h : Sim base bar F s a) (hin : s.inside i = true) {h' : Hart n}
    {m' : Mem} (hs : (s.hart i).step (barrierText base) F s.mem = .ok (h', m')) :
    ∃ a', (CounterBarrier.barrier N).Run a a' ∧ Sim base bar F (s.run (barrierText base) i h' m') a' := by
  -- at a watched instruction the abstract barrier steps, between two of them it stays
  rcases (h.inside i hin).step hs with hat | ⟨rfl, hheads, hun⟩
  · cases hp : a.place i with
    | outside =>
      rw [hp] at hat
      obtain ⟨c, -, hfalse⟩ := hat
      exact hfalse.elim
    | entering =>
      rw [hp] at hat
      exact h.run_entering hN hin hp hat hs
    | storing v =>
      rw [hp] at hat
      exact h.run_storing hN hin hp hat hs
    | restarting v =>
      rw [hp] at hat
      exact h.run_restarting hin hp hat hs
    | scanning v x =>
      rw [hp] at hat
      exact h.run_scanning hN hin hp hat hs
    | leaving v =>
      rw [hp] at hat
      exact h.run_leaving hin hp hat hs
  · exact ⟨a, .refl, h.quiet hin hun hheads⟩

theorem Sim.call (h : Sim base bar F s a) (hin : s.inside i = false) (hlt : s.calls i < 255)
    {c : Core n} (hid : Corethread c i N) (ha0 : c.get .a0 = bar) (hsp : StackClear bar N c) :
    ∃ a', (CounterBarrier.barrier N).Run a a' ∧ Sim base bar F (s.call (barrierText base) i c) a' := by
  have hp := h.outside i hin
  have hstep : CounterBarrier.Step a (a.enter i) := .call i hp
  refine ⟨_, .single hstep, ?_⟩
  constructor
  case inv => exact h.inv.step hstep
  case calls =>
    simp only [Machine.call, CounterBarrier.State.enter, CounterBarrier.State.goto_calls, h.calls]
  case calls_le =>
    intro j
    simp only [CounterBarrier.State.enter, CounterBarrier.State.goto_calls, Function.update_apply]
    split_ifs with hji
    · rw [← h.calls]
      exact hlt
    · exact h.calls_le j
  case stored => exact h.stored
  case counter => exact h.counter
  case outside =>
    intro j hj
    rw [CounterBarrier.State.enter, CounterBarrier.State.goto_place]
    split_ifs with hji
    · subst hji
      simp [Machine.call] at hj
    · simp only [Machine.call, Function.update_of_ne hji] at hj
      exact h.outside j hj
  case inside =>
    intro j hj
    rw [CounterBarrier.State.enter, CounterBarrier.State.goto_place]
    split_ifs with hji
    · subst hji
      simp only [Machine.call, Function.update_self]
      exact heads_entry hid ha0 hsp
    · simp only [Machine.call, Function.update_of_ne hji] at hj ⊢
      exact h.inside j hj

theorem Sim.other (h : Sim base bar F s a) (hin : s.inside i = false) {h' : Hart n} {m' : Mem}
    (hmem : ∀ j < N, m'.byte (counterAddr bar j) = s.mem.byte (counterAddr bar j)) :
    Sim base bar F { s with mem := m', hart := Function.update s.hart i h' } a := by
  constructor
  case inv => exact h.inv
  case calls => exact h.calls
  case calls_le => exact h.calls_le
  case stored => exact h.stored
  case counter =>
    intro j
    rw [← h.counter j]
    exact hmem j j.isLt
  case outside => exact h.outside
  case inside =>
    intro j hj
    by_cases hji : j = i
    · subst hji
      rw [hin] at hj
      cases hj
    · simp only [Function.update_of_ne hji]
      exact h.inside j hj

/-- The threads running `thread_barrier` simulate the counter barrier. -/
theorem simulates (hN : N ≤ 32) :
    System.Simulates (barrierMachine base F bar N) (CounterBarrier.barrier N) (Sim base bar F) where
  init := by
    rintro s ⟨hmem, hs⟩
    refine ⟨⟨fun _ => 0, fun _ => 0, fun _ => .outside⟩, fun i => ⟨rfl, rfl, rfl⟩, ?_⟩
    constructor
    case inv => exact fun i => rfl
    case calls => exact funext fun i => (hs i).1
    case calls_le => exact fun i => Nat.zero_le _
    case stored => exact funext fun i => (hs i).2.1
    case counter => exact fun j => hmem j j.isLt
    case outside => exact fun i _ => rfl
    case inside =>
      intro i hi
      rw [(hs i).2.2] at hi
      cases hi
  step := by
    intro s s' a h hs
    cases hs with
    | call i c hin hlt hid ha0 hsp => exact h.call hin hlt hid ha0 hsp
    | run i hin hstep => exact h.run hN hin hstep
    | other i h' m hin hmem => exact ⟨a, .refl, h.other hin hmem⟩

/-! ### The barrier -/

/-- The watched instructions at which a place is. -/
def placeInsns : CounterBarrier.Place N → List ℕ
  | .outside => []
  | .entering => [20, 21, 27]
  | .storing _ => [29]
  | .restarting _ => [30]
  | .scanning _ _ => [32]
  | .leaving _ => [39, 40, 43]

theorem placeInsns_lt (p : CounterBarrier.Place N) : ∀ k ∈ placeInsns p, k < 2 ^ 60 := by
  intro k hk
  cases p <;> simp only [placeInsns, List.mem_cons, List.not_mem_nil, or_false] at hk <;> omega

theorem AtPlace.pc {p : CounterBarrier.Place N} {h : Hart n}
    (hat : AtPlace (barrierText base) bar i p h) :
    ∃ k ∈ placeInsns p, h.pc = (barrierText base).loc k := by
  obtain ⟨c, -, hat⟩ := hat
  cases p with
  | outside => exact hat.elim
  | entering =>
    obtain ⟨-, ⟨rfl, -⟩ | ⟨rfl, -⟩ | ⟨rfl, -⟩⟩ := hat
    · exact ⟨20, by simp [placeInsns], rfl⟩
    · exact ⟨21, by simp [placeInsns], rfl⟩
    · exact ⟨27, by simp [placeInsns], rfl⟩
  | storing v => exact ⟨29, by simp [placeInsns], by rw [hat.1]; rfl⟩
  | restarting v => exact ⟨30, by simp [placeInsns], by rw [hat.1]; rfl⟩
  | scanning v x => exact ⟨32, by simp [placeInsns], by rw [hat.1]; rfl⟩
  | leaving v =>
    obtain ⟨rfl | rfl | hpc, -⟩ := hat
    · exact ⟨39, by simp [placeInsns], rfl⟩
    · exact ⟨40, by simp [placeInsns], rfl⟩
    · exact ⟨43, by simp [placeInsns], hpc⟩

/-- A thread at a watched operation that completes in any memory is at a
place that has this instruction. -/
theorem Sim.at_watched (h : Sim base bar F s a) (hin : s.inside i = true) {k : ℕ}
    (hk : k ∈ watched) (hpc : (s.hart i).pc = (barrierText base).loc k) {o : Op}
    (hi : (assemble (barrierText base).code)[k]? = some (.op o))
    (hex : ∀ m, ∃ r, o.exec F (s.hart i).core m = .ok r) :
    k ∈ placeInsns (a.place i) ∧ AtPlace (barrierText base) bar i (a.place i) (s.hart i) := by
  have hat : AtPlace (barrierText base) bar i (a.place i) (s.hart i) := by
    rcases (h.inside i hin).at_watched hk hpc with hat | hdead
    · exact hat
    · obtain ⟨e, he⟩ := hdead s.mem
      obtain ⟨⟨c', m'⟩, hr⟩ := hex s.mem
      simp only [Hart.step, hpc, (barrierText base).fetch_loc hi, hr] at he
      cases he
  obtain ⟨k', hk', hpc'⟩ := hat.pc
  have hlt := placeInsns_lt _ k' hk'
  have hlt' := watched_lt k hk
  have heq : k = k' := (barrierText base).loc_injective (by omega) (by omega) (hpc.symm.trans hpc')
  exact ⟨heq ▸ hk', hat⟩

/-- At the delay slot of the return everyone has arrived. -/
theorem Sim.at_return (h : Sim base bar F s a) (hin : s.inside i = true)
    (hpc : (s.hart i).pc = (barrierText base).loc 43) :
    ((s.hart i).core.get .v0).toNat = s.calls i ∧ ∀ j, s.calls i ≤ s.stored j := by
  obtain ⟨hmem, hat⟩ := h.at_watched hin (by decide) hpc (hasAt_thread_barrier base 24 _ rfl)
    (fun _ => ⟨_, rfl⟩)
  have hk := h.inv i
  cases hp : a.place i with
  | leaving v =>
    rw [hp] at hat hk
    obtain ⟨c, hc, -, hv0⟩ := hat
    obtain ⟨hown, hv, hall⟩ := hk
    have hle := h.calls_le i
    refine ⟨?_, fun j => ?_⟩
    · rw [hc, hv0, BitVec.toNat_ofNat, h.calls]
      omega
    · rw [h.calls, h.stored]
      exact hall j
  | _ => simp [hp, placeInsns] at hmem

/-- At the load of a counter the thread is scanning. -/
theorem Sim.at_thread_loop (h : Sim base bar F s a) (hin : s.inside i = true)
    (hpc : (s.hart i).pc = (barrierText base).addr .thread_loop) :
    ∃ v x, a.place i = .scanning v x := by
  obtain ⟨hmem, -⟩ := h.at_watched (k := 32) hin (by decide) hpc
    (hasAt_thread_barrier base 13 _ rfl) (fun _ => ⟨_, rfl⟩)
  cases hp : a.place i with
  | scanning v x => exact ⟨v, x, rfl⟩
  | _ => simp [hp, placeInsns] at hmem

/-- At the head of `barrier_loop` it is starting over. -/
theorem Sim.at_barrier_loop (h : Sim base bar F s a) (hin : s.inside i = true)
    (hpc : (s.hart i).pc = (barrierText base).addr .barrier_loop) :
    ∃ v, a.place i = .restarting v := by
  obtain ⟨hmem, -⟩ := h.at_watched (k := 30) hin (by decide) hpc
    (hasAt_thread_barrier base 11 _ rfl) (fun _ => ⟨_, rfl⟩)
  cases hp : a.place i with
  | restarting v => exact ⟨v, rfl⟩
  | _ => simp [hp, placeInsns] at hmem

/-- A call ends with the delay slot of the return. -/
theorem Machine.Step.returns {s' : Machine n N} (hs : Machine.Step (barrierText base) F bar s s')
    (hin : s.inside i = true) (hout : s'.inside i = false) :
    (s.hart i).pc = (barrierText base).loc 43 ∧ (s'.hart i).core = (s.hart i).core ∧
      s'.calls = s.calls ∧ s'.stored = s.stored := by
  cases hs with
  | call j c hj =>
    simp only [Machine.call, Function.update_apply] at hout
    split_ifs at hout with hij
    rw [hin] at hout
    cases hout
  | other j h m hj =>
    simp only at hout
    rw [hin] at hout
    cases hout
  | @run j h m hj hstep =>
    by_cases hpc : (s.hart j).pc = (barrierText base).loc 43
    · simp only [Machine.run, if_pos hpc, Function.update_apply] at hout
      split_ifs at hout with hij
      · subst hij
        have hne29 : (s.hart i).pc ≠ (barrierText base).loc 29 := by
          rw [hpc]
          exact fun he =>
            absurd ((barrierText base).loc_injective (by norm_num) (by norm_num) he) (by decide)
        simp only [Hart.step, hpc, (barrierText base).fetch_loc (hasAt_thread_barrier base 24 _ rfl),
          Op.exec, Except.ok.injEq, Prod.mk.injEq] at hstep
        obtain ⟨rfl, rfl⟩ := hstep
        refine ⟨hpc, ?_, rfl, ?_⟩
        · simp [Machine.run]
        · simp only [Machine.run, if_neg hne29]
      · rw [hin] at hout
        cases hout
    · simp only [Machine.run, if_neg hpc] at hout
      rw [hin] at hout
      cases hout

end simulation

/-- Run a thread alone until it comes to `stop`, for at most `fuel` steps. -/
def runUntil {n : ℕ} (T : Text BarrierLabel) (F : CapFormat n) (stop : BitVec 64) :
    ℕ → Hart n × Mem → Option (Hart n × Mem)
  | 0, _ => none
  | fuel + 1, x =>
      if x.1.pc = stop then some x
      else match x.1.step T F x.2 with
        | .ok y => runUntil T F stop fuel y
        | .error _ => none

/-- While the others wait, a thread runs as it would alone. -/
theorem run_alone {n N : ℕ} {base bar : BitVec 64} {F : CapFormat n} {s : Machine n N} {i : Fin N}
    (hin : s.inside i = true) {fuel : ℕ} {y : Hart n × Mem}
    (h : runUntil (barrierText base) F ((barrierText base).loc 43) fuel (s.hart i, s.mem) = some y) :
    ∃ s', (barrierMachine base F bar N).Run s s' ∧ s'.hart i = y.1 ∧ s'.inside i = true ∧
      s'.calls = s.calls ∧ y.1.pc = (barrierText base).loc 43 := by
  induction fuel generalizing s with
  | zero => cases h
  | succ fuel ih =>
    simp only [runUntil] at h
    split_ifs at h with hpc
    · cases h
      exact ⟨s, .refl, rfl, hin, rfl, hpc⟩
    · split at h
      · rename_i z hz
        have hstep : (barrierMachine base F bar N).step s (s.run (barrierText base) i z.1 z.2) :=
          .run i hin hz
        obtain ⟨s', hrun, hhart, hin', hcalls, hpc'⟩ := ih
          (s := s.run (barrierText base) i z.1 z.2) (by simpa [Machine.run, hpc] using hin)
          (by simpa [Machine.run] using h)
        exact ⟨s', .head hstep hrun, hhart, hin', hcalls, hpc'⟩
      · cases h

/-- The registers of a thread on gxemul that calls a barrier at 0x2000. -/
def gxemulCore : Core 32 where
  gpr r := if r = .a0 then 0x2000 else if r = .sp then 0x3000 else if r = .ra then 0x9000 else 0
  cap _ := ⟨false, fun _ => 0⟩
  cp0 r _ := if r = 15 then 0x8900 else 0
  capCause := 0
  log := []

theorem noCaps_top_le (_ : Fin 32 → BitVec 8) : 0 ≤ 2 ^ 64 := Nat.zero_le _

/-- A format without capabilities. -/
def noCaps : CapFormat 32 := ⟨fun _ => 0, fun _ => 0, noCaps_top_le, fun _ => 0,
  fun _ => false, fun _ _ => false⟩

end Cheritest
