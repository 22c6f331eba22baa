/-
Cheritest/LibS/Start.lean

`start` of init.s, from reset to the branch at which thread 0 and the other
threads part.

Every hardware thread calls `get_corethread_id` and takes 1 KiB below `__sp`
for its stack, at a distance that it computes from its number with a 32-bit
shift.  The numbers are those from 0 to the number of threads less one, each
once; the stacks are apart as long as that shift loses nothing
(`start_numbers_threads`).
-/
import Mathlib.Data.Set.Basic
import Mathlib.Logic.Equiv.Fin.Basic
import Mathlib.Order.Disjoint
import Cheritest.LibS.Barrier

namespace Cheritest

open Mips

/-! ### The routine -/

/-- `start`, as far as all threads go. -/
def start (get_corethread_id __sp reset_barrier all_threads : BitVec 64) : List (Asm BarrierLabel) :=
  [ .mfc0 .t0 16 0,
    .ori .t0 .t0 7,
    .xori .t0 .t0 4,
    .mtc0 .t0 16 0,
    .jal get_corethread_id,
    .nop,
    .dla .fp __sp,
    .sll .t0 .v0 10,
    .dsubu .fp .fp .t0,
    .daddiu .sp .fp (-32),
    .dla .a0 reset_barrier,
    .dla .ra all_threads,
    .bgtz .v0 .thread_barrier,
    .nop ]

/-- A linked image: where the two routines are, and the symbols that `start`
refers to. -/
structure Image where
  text : Text BarrierLabel
  startAt : ℕ
  corethreadAt : ℕ
  __sp : BitVec 64
  reset_barrier : BitVec 64
  all_threads : BitVec 64
  hasStart : text.HasAt startAt (start (text.loc corethreadAt) __sp reset_barrier all_threads)
  hasCorethread : text.HasAt corethreadAt get_corethread_id
  one_eq : labelIndex .one text.code = corethreadAt + 17

/-! ### Stacks -/

/-- Where the stack of a thread ends: `$fp`, from `$v0`. -/
def stackTop (__sp v0 : BitVec 64) : BitVec 64 := __sp - sext32 (v0.setWidth 32 <<< 10)

/-- The 1 KiB below an address. -/
def stack (top : BitVec 64) : Set (BitVec 64) := {a | (top - 1 - a).toNat < 1024}

theorem stack_ne_empty (top : BitVec 64) : stack top ≠ ∅ := by
  have hmem : top - 1 ∈ stack top := by
    show (top - 1 - (top - 1)).toNat < 1024
    rw [BitVec.sub_self]
    decide
  exact Set.Nonempty.ne_empty ⟨_, hmem⟩

/-- The distance of the stack of thread `i`, a 32-bit number. -/
theorem toInt_distance (i : ℕ) :
    (sext32 ((BitVec.ofNat 64 i).setWidth 32 <<< 10)).toInt = (1024 * (i : ℤ)).bmod (2 ^ 32) := by
  have hshift : ((BitVec.ofNat 64 i).setWidth 32 <<< 10).toNat = 1024 * i % 2 ^ 32 := by
    rw [setWidth32_ofNat, BitVec.toNat_shiftLeft, BitVec.toNat_ofNat, Nat.shiftLeft_eq]
    omega
  rw [sext32, BitVec.toInt_signExtend_of_le (by decide), BitVec.toInt_eq_toNat_bmod, hshift]
  push_cast
  exact Int.emod_bmod ..

/-- The stack is where its number says. -/
theorem stackTop_eq_iff {__sp : BitVec 64} {i : ℕ} (hi : i < 2 ^ 31) :
    stackTop __sp (BitVec.ofNat 64 i) = __sp - BitVec.ofNat 64 (1024 * i) ↔ i < 2 ^ 21 := by
  have hd := toInt_distance i
  have hplace : (BitVec.ofNat 64 (1024 * i)).toInt = 1024 * i := by
    rw [toInt_ofNat_small (by omega)]
    push_cast
    ring
  rw [Int.bmod_def] at hd
  rw [stackTop, sub_right_inj, ← BitVec.toInt_inj, hd, hplace]
  split_ifs <;> omega

/-- Threads whose numbers differ by 4 Mi share their stack. -/
theorem stackTop_wraps (__sp : BitVec 64) (i : ℕ) :
    stackTop __sp (BitVec.ofNat 64 (i + 2 ^ 22)) = stackTop __sp (BitVec.ofNat 64 i) := by
  rw [stackTop, stackTop, sub_right_inj, ← BitVec.toInt_inj, toInt_distance, toInt_distance]
  have hwrap : 1024 * ((i + 2 ^ 22 : ℕ) : ℤ) = 1024 * i + 2 ^ 32 := by
    push_cast
    ring
  rw [hwrap]
  exact Int.add_bmod_right ..

/-- Below 4 Mi threads, stacks are apart. -/
theorem disjoint_stack {__sp : BitVec 64} {i j : ℕ} (hi : i < 2 ^ 22) (hj : j < 2 ^ 22) (hne : i ≠ j) :
    stack (stackTop __sp (BitVec.ofNat 64 i)) ∩ stack (stackTop __sp (BitVec.ofNat 64 j)) = ∅ := by
  rw [← Set.disjoint_iff_inter_eq_empty, Set.disjoint_left]
  intro a (ha : (_ : BitVec 64).toNat < 1024) (hb : (_ : BitVec 64).toNat < 1024)
  have hdi := toInt_distance i
  have hdj := toInt_distance j
  rw [stackTop] at ha hb
  generalize sext32 ((BitVec.ofNat 64 i).setWidth 32 <<< 10) = x at ha hdi
  generalize sext32 ((BitVec.ofNat 64 j).setWidth 32 <<< 10) = y at hb hdj
  -- the distances differ by less than a stack, and they are multiples of one
  have hxy : x + (__sp - x - 1 - a) = y + (__sp - y - 1 - a) := by ring
  generalize __sp - x - 1 - a = r at ha hxy
  generalize __sp - y - 1 - a = s at hb hxy
  rw [Int.bmod_def] at hdi hdj
  have hsum := congrArg BitVec.toNat hxy
  rw [BitVec.toNat_add, BitVec.toNat_add] at hsum
  rw [BitVec.toInt_eq_toNat_cond] at hdi hdj
  split_ifs at hdi hdj <;> omega

/-! ### The run -/

section run
variable {n : ℕ} {F : CapFormat n} {I : Image} {c : Core n} {id N : ℕ}

/-- What `start` has prepared at its branch, for thread `id` of `N`. -/
structure Booted (I : Image) (id N : ℕ) (c : Core n) : Prop where
  v0 : c.get .v0 = BitVec.ofNat 64 id
  v1 : c.get .v1 = BitVec.ofNat 64 (N - 1)
  fp : c.get .fp = stackTop I.__sp (BitVec.ofNat 64 id)
  sp : c.get .sp = c.get .fp - 32
  a0 : c.get .a0 = I.reset_barrier
  ra : c.get .ra = I.all_threads

/-- `start` up to its branch meets no trap. -/
theorem start_quiet (I : Image) (F : CapFormat n) (hid : Corethread c id N) (hN : N < 2 ^ 31) :
    ∃ c', Quiet I.text F [] (I.text.hartAt I.startAt c) (I.text.hartAt (I.startAt + 12) c') ∧
      Booted I id N c' := by
  have hcode := I.hasStart
  have hS : ∀ s ∈ ([] : List ℕ), s < 2 ^ 60 := List.forall_mem_nil _
  have hfree (k : ℕ) : k ∉ ([] : List ℕ) := List.not_mem_nil
  -- the cache attribute, and the call
  have hcall : ∃ c₁, Quiet I.text F [] (I.text.hartAt I.startAt c) (I.text.hartAt I.corethreadAt c₁) ∧
      c₁.get .ra = I.text.loc (I.startAt + 6) ∧ c₁.cp0 15 = c.cp0 15 := by
    apply Exists.intro
    refine ⟨?_, ?_, ?_⟩
    · refine .trans (quiet_op hS (hcode 0 _ rfl) (hfree _) (fun _ => rfl)) ?_
      refine .trans (quiet_op hS (hcode 1 _ rfl) (hfree _) (fun _ => rfl)) ?_
      refine .trans (quiet_op hS (hcode 2 _ rfl) (hfree _) (fun _ => rfl)) ?_
      refine .trans (quiet_op hS (hcode 3 _ rfl) (hfree _) (fun _ => rfl)) ?_
      refine .trans (quiet_jal hS (hcode 4 _ rfl) (hfree _)) ?_
      exact quiet_nop_slot hS (hcode 5 _ rfl) (hfree _)
    · simp
    · funext s
      simp
  obtain ⟨c₁, hq₁, hra, hcp0⟩ := hcall
  obtain ⟨c₂, hq₂, hv0, hv1, -, -⟩ := get_corethread_id_quiet (F := F) hS I.hasCorethread I.one_eq
    (fun k _ => hfree _) (hid.congr hcp0) hN
  rw [hra, Text.loc_add_four] at hq₂
  -- the stack and the arguments of the barrier
  apply Exists.intro
  refine ⟨.trans hq₁ (.trans hq₂ ?_), ?_⟩
  · refine .trans (quiet_op hS (hcode 6 _ rfl) (hfree _) (fun _ => rfl)) ?_
    refine .trans (quiet_op hS (hcode 7 _ rfl) (hfree _) (fun _ => rfl)) ?_
    refine .trans (quiet_op hS (hcode 8 _ rfl) (hfree _) (fun _ => rfl)) ?_
    refine .trans (quiet_op hS (hcode 9 _ rfl) (hfree _) (fun _ => rfl)) ?_
    refine .trans (quiet_op hS (hcode 10 _ rfl) (hfree _) (fun _ => rfl)) ?_
    exact quiet_op hS (hcode 11 _ rfl) (hfree _) (fun _ => rfl)
  · constructor
    · simpa using hv0
    · simpa using hv1
    · simp [hv0, stackTop]
    · simp [sub_eq_add_neg]
    · simp
    · simp

/-- Thread 0 goes on, the others enter the barrier. -/
theorem Booted.parts (h : Booted I id N c) (hid : id < 2 ^ 31) :
    Quiet I.text F [] (I.text.hartAt (I.startAt + 12) c) (I.text.hartAt
      (if id = 0 then I.startAt + 14 else labelIndex .thread_barrier I.text.code) c) := by
  have hS : ∀ s ∈ ([] : List ℕ), s < 2 ^ 60 := List.forall_mem_nil _
  have hv0 : (c.get .v0).toInt = id := by rw [h.v0, toInt_ofNat_small (by omega)]
  have hbranch := I.hasStart 12 _ rfl
  have hslot := I.hasStart 13 _ rfl
  by_cases hzero : id = 0
  · rw [if_pos hzero]
    refine quiet_not_taken hS hbranch hslot List.not_mem_nil List.not_mem_nil ?_ (fun _ => rfl)
    exact decide_eq_false (by omega)
  · rw [if_neg hzero]
    refine quiet_taken hS hbranch hslot List.not_mem_nil List.not_mem_nil rfl ?_ (fun _ => rfl)
    exact decide_eq_true (by omega)

end run

/-! ### Numbers of threads -/

/-- How many hardware threads there are. -/
abbrev numThreads (mc mt : ℕ) : ℕ := (mc + 1) * (mt + 1)

section numbers
variable {mc mt : ℕ} {p q : Fin (mc + 1) × Fin (mt + 1)}

/-- The number of a thread, given by its core and its place on the core. -/
def number (mc mt : ℕ) (p : Fin (mc + 1) × Fin (mt + 1)) : Fin (numThreads mc mt) :=
  finProdFinEquiv p

theorem number_bijective (mc mt : ℕ) : Function.Bijective (number mc mt) := finProdFinEquiv.bijective

theorem number_val (p : Fin (mc + 1) × Fin (mt + 1)) :
    (number mc mt p : ℕ) = p.1 * (mt + 1) + p.2 := by
  show (p.2 : ℕ) + (mt + 1) * p.1 = _
  ring

theorem number_val_injective (h : p ≠ q) : (number mc mt p : ℕ) ≠ number mc mt q :=
  fun heq => h ((number_bijective mc mt).injective (Fin.ext heq))

/-- There is a thread of every number. -/
theorem exists_number (mc mt : ℕ) {i : ℕ} (hi : i < numThreads mc mt) :
    ∃ p, (number mc mt p : ℕ) = i := by
  obtain ⟨p, hp⟩ := (number_bijective mc mt).surjective ⟨i, hi⟩
  exact ⟨p, congrArg Fin.val hp⟩

/-- This is thread `p` of a system that is not gxemul. -/
def HardwareThread {n : ℕ} (mc mt : ℕ) (p : Fin (mc + 1) × Fin (mt + 1)) (c : Core n) : Prop :=
  ¬ onGxemul c ∧ ProcessorId c mc mt p.1 p.2

theorem HardwareThread.corethread {n : ℕ} {c : Core n} (h : HardwareThread mc mt p c) :
    Corethread c (number mc mt p) (numThreads mc mt) :=
  .inr ⟨h.1, mc, mt, p.1, p.2, h.2, number_val p, rfl⟩

end numbers

/-- How the threads of a system are numbered, and what they have by their
numbers. -/
structure Numbering {n : ℕ} (I : Image) (F : CapFormat n) (mc mt : ℕ) : Prop where
  bijective : Function.Bijective (number mc mt)
  /-- `get_corethread_id` gives the number and the greatest number, and meets no
  trap. -/
  routine : ∀ p c, HardwareThread mc mt p c → ∃ c',
    Quiet I.text F [] (I.text.hartAt I.corethreadAt c) ⟨c', c.get .ra, c.get .ra + 4⟩ ∧
      c'.get .v0 = BitVec.ofNat 64 (number mc mt p) ∧
      c'.get .v1 = BitVec.ofNat 64 (numThreads mc mt - 1)
  boots : ∀ p c, HardwareThread mc mt p c → ∃ c',
    Quiet I.text F [] (I.text.hartAt I.startAt c) (I.text.hartAt (I.startAt + 12) c') ∧
      Booted I (number mc mt p) (numThreads mc mt) c'
  /-- No two threads have their counter of a barrier in one place. -/
  counters : ∀ bar, Pairwise fun p q =>
    counterAddr bar (number mc mt p) ≠ counterAddr bar (number mc mt q)
  /-- The stacks are where the numbers say. -/
  stacks_placed : (∀ p, stackTop I.__sp (BitVec.ofNat 64 (number mc mt p)) =
    I.__sp - BitVec.ofNat 64 (1024 * number mc mt p)) ↔ numThreads mc mt ≤ 2 ^ 21
  stacks_apart : (Pairwise fun p q =>
    stack (stackTop I.__sp (BitVec.ofNat 64 (number mc mt p))) ∩
      stack (stackTop I.__sp (BitVec.ofNat 64 (number mc mt q))) = ∅) ↔ numThreads mc mt ≤ 2 ^ 22

/-- **The threads of a system** are numbered without gaps or clashes, and their
stacks are apart if and only if there are no more than 4 Mi of them. -/
theorem start_numbers_threads {n : ℕ} (I : Image) (F : CapFormat n) {mc mt : ℕ}
    (hN : numThreads mc mt < 2 ^ 31) : Numbering I F mc mt where
  bijective := number_bijective mc mt
  routine := by
    intro p c hp
    obtain ⟨c', hq, hv0, hv1, -, -⟩ := get_corethread_id_quiet (F := F) (List.forall_mem_nil _)
      I.hasCorethread I.one_eq (fun k _ => List.not_mem_nil) hp.corethread hN
    exact ⟨c', hq, hv0, hv1⟩
  boots := fun p c hp => start_quiet I F hp.corethread hN
  counters := by
    intro bar p q hne heq
    have hnumbers := congrArg BitVec.toNat (add_left_cancel heq)
    have hp := (number mc mt p).isLt
    have hq := (number mc mt q).isLt
    rw [BitVec.toNat_ofNat, BitVec.toNat_ofNat] at hnumbers
    exact number_val_injective hne (by omega)
  stacks_placed := by
    constructor
    · intro h
      by_contra hmany
      obtain ⟨p, hp⟩ := exists_number mc mt (i := 2 ^ 21) (by omega)
      have hplace := (stackTop_eq_iff (by omega)).mp (h p)
      omega
    · intro hfew p
      have hp := (number mc mt p).isLt
      exact (stackTop_eq_iff (by omega)).mpr (by omega)
  stacks_apart := by
    constructor
    · intro h
      by_contra hmany
      -- the threads 0 and 4 Mi
      obtain ⟨p, hp⟩ := exists_number mc mt (i := 0) (by omega)
      obtain ⟨q, hq⟩ := exists_number mc mt (i := 0 + 2 ^ 22) (by omega)
      have hne : q ≠ p := by
        rintro rfl
        omega
      have hapart : stack (stackTop I.__sp (BitVec.ofNat 64 (number mc mt q))) ∩
        stack (stackTop I.__sp (BitVec.ofNat 64 (number mc mt p))) = ∅ := h hne
      rw [hp, hq, stackTop_wraps, Set.inter_self] at hapart
      exact stack_ne_empty _ hapart
    · intro hfew p q hne
      have hp := (number mc mt p).isLt
      have hq := (number mc mt q).isLt
      exact disjoint_stack (by omega) (by omega) (number_val_injective hne)

/-! ### An image -/

/-- The routines one after the other. -/
def bootText : Text BarrierLabel where
  base := 0x9800000040000000
  code := start 0x9800000040000038 0x9800000000008000 0x9800000040001000 0x9800000040000800 ++
    get_corethread_id ++ thread_barrier
  fits := by decide

def bootImage : Image where
  text := bootText
  startAt := 0
  corethreadAt := 14
  __sp := 0x9800000000008000
  reset_barrier := 0x9800000040001000
  all_threads := 0x9800000040000800
  hasStart := .of_drop rfl
  hasCorethread := .of_drop rfl
  one_eq := rfl

/-- Two cores of two threads. -/
theorem start_numbers_threads_four : Numbering bootImage noCaps 1 1 :=
  start_numbers_threads bootImage noCaps (by decide)

/-- A thread of a system, at reset. -/
def resetCore (mc mt : ℕ) (p : Fin (mc + 1) × Fin (mt + 1)) : Core 32 where
  gpr _ := 0
  cap _ := ⟨false, fun _ => 0⟩
  cp0 r s :=
    if r = 15 ∧ s = 6 then BitVec.ofNat 64 (mc * 2 ^ 16 + p.1)
    else if r = 15 ∧ s = 7 then BitVec.ofNat 64 (mt * 2 ^ 16 + p.2)
    else 0
  capCause := 0
  log := []

theorem hardwareThread_resetCore {mc mt : ℕ} (hmc : mc < 2 ^ 16) (hmt : mt < 2 ^ 16)
    (p : Fin (mc + 1) × Fin (mt + 1)) : HardwareThread mc mt p (resetCore mc mt p) := by
  have hgxemul : ¬ (0 : BitVec 64) &&& 0xff00#64 = 0x8900#64 := by decide
  exact ⟨hgxemul, Nat.le_of_lt_succ p.1.isLt, Nat.le_of_lt_succ p.2.isLt, hmc, hmt,
    setWidth32_ofNat _, setWidth32_ofNat _⟩

/-- With 65 cores of 65536 threads, the first threads of the first and of the
last core have the same stack. -/
theorem first_and_last_core_share_stack : numThreads 64 65535 < 2 ^ 31 ∧ ∃ c d : Core 32,
    Quiet bootText noCaps [] (bootText.hartAt 0 (resetCore 64 65535 (0, 0))) (bootText.hartAt 12 c) ∧
    Quiet bootText noCaps [] (bootText.hartAt 0 (resetCore 64 65535 (64, 0))) (bootText.hartAt 12 d) ∧
    stack (c.get .fp) ∩ stack (d.get .fp) ≠ ∅ := by
  have hN : numThreads 64 65535 < 2 ^ 31 := by decide
  obtain ⟨c, hc, hbooted⟩ := start_quiet bootImage noCaps
    (hardwareThread_resetCore (by decide) (by decide) ((0, 0) : Fin 65 × Fin 65536)).corethread hN
  obtain ⟨d, hd, hbooted'⟩ := start_quiet bootImage noCaps
    (hardwareThread_resetCore (by decide) (by decide) ((64, 0) : Fin 65 × Fin 65536)).corethread hN
  refine ⟨hN, c, d, hc, hd, ?_⟩
  have hfirst : (number 64 65535 (0, 0) : ℕ) = 0 := rfl
  have hlast : (number 64 65535 (64, 0) : ℕ) = 0 + 2 ^ 22 := rfl
  rw [hbooted.fp, hbooted'.fp, hfirst, hlast, stackTop_wraps, Set.inter_self]
  exact stack_ne_empty _

end Cheritest
