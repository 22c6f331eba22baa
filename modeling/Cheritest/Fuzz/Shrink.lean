/-
Cheritest/Fuzz/Shrink.lean

The shrinking of a failing test: shrink and doOneTest of fuzz_cap.py.

`shrink` tries to omit the instructions of a test one at a time and keeps an
omission when the rest still fails.  It is the pass of `Deletion` over the
positions of the test (`shrink_result`), with one exception: the list that it
returns starts empty and not as the test, so that a test of which no single
instruction can be omitted is shrunk to nothing.

`doOneTest_saves_failure`: what `doOneTest` saves for a failing test fails
again exactly if some single instruction could be omitted, or the empty test
fails.  `shrink_minimal`: for monotone failures, what is returned, if anything,
is a local minimum.

The programs that are called (assembler, linker and the two simulators) are a
parameter: what `run` reports of a compiled captest.s.
-/
import Cheritest.Lib.Deletion
import Mathlib.Data.Finset.Dedup

namespace Cheritest

namespace FuzzCap

/-- Pre test-sequence code. -/
def prelude : List String :=
  [ "# Auto-generated by fuzz_cap.py"
  , ""
  , ".set mips64"
  , ".set noreorder"
  , ".set nobopt"
  , ".set noat"
  , ""
  , ".global test"
  , "test: .ent test"
  , "  daddu   $sp, $sp, -32"
  , "  sd      $ra, 24($sp)"
  , "  sd      $fp, 16($sp)"
  , "  daddu   $fp, $sp, 32"
  , ""
  , "  jal     bev_clear"
  , "  nop"
  , "  dli     $a0, 0xffffffff80000180"
  , "  dla     $a1, bev0_common_handler_stub"
  , "  dli     $a2, 12 # instruction count"
  , "  dsll    $a2, 2  # convert to byte count"
  , "  jal memcpy"
  , "  nop"
  , "  dli     $a0, 0    # set to 1 on exception"
  , "  dla     $t0, cap1 # address to load/store capability"
  , "  cfromptr     $c10, $c0, $t0 # $t0 # address to load/store capability"
  , "#  csc     $c10, $0, 0($c10) # store a valid capability there"
  , "  dli     $t0, 0"
  , ""
  , "# Auto-genetated test case:" ]

/-- Post test-sequence code. -/
def postlude : List String :=
  [ "# End of autogenerated test case"
  , "  nop"
  , "  li $s7, 0xffff"
  , "skip:"
  , ""
  , "  mtc0      $zero, $26  # Dump registers"
  , "  mtc0      $zero, $23  # Terminate simulator"
  , "  nop"
  , "  .end test"
  , ""
  , ".ent bev0_handler"
  , "bev0_handler:"
  , "  li        $a0, 1"
  , "  cgetcause $a1"
  , "  dmfc0     $a2, $14    # EPC"
  , "  cgetbase  $a3, $c31   # EPCC"
  , "  mtc0      $zero, $26  # Dump registers"
  , "  mtc0      $zero, $23  # Terminate simulator"
  , "  nop"
  , "  .end bev0_handler"
  , ""
  , ".ent bev0_common_handler_stub"
  , "bev0_common_handler_stub:"
  , "  dla $k0, bev0_handler"
  , "  jr  $k0"
  , "  nop"
  , "  .end bev0_common_handler_stub" ]

/-- Random data section, of four random words. -/
def datasection (w₀ w₁ w₂ w₃ : String) : List String :=
  [ " .data"
  , "\t.align\t5\t\t# Must 256-bit align capabilities"
  , "cap1:\t\t.dword\t" ++ w₀ ++ "\t# uperms/reserved"
  , "\t.dword\t" ++ w₁ ++ "\t# otype/eaddr"
  , "\t.dword\t" ++ w₂ ++ "\t# base"
  , "\t.dword\t" ++ w₃ ++ "\t# length" ]

/-- What `save` leaves under a new name: the source, and the one that the hex
file next to it was compiled from. -/
structure Saved where
  source : List String
  hex : Option (List String)
deriving DecidableEq

/-- The working directory: captest.s, the source that the compiled test comes
from, and the saved tests.  Files are lists of lines. -/
structure Dir where
  captest : List String
  compiled : List String
  saved : List Saved
deriving DecidableEq

/-! ### The functions -/

/-- The lines that `emit` writes. -/
def lines (testseq dataseq : List String) : List String :=
  prelude ++ testseq ++ postlude ++ dataseq

/-- Write a test to captest.s. -/
def emit (testseq dataseq : List String) (d : Dir) : Dir :=
  { d with captest := lines testseq dataseq }

/-- Compile captest.s. -/
def compile (d : Dir) : Dir := { d with compiled := d.captest }

/-- Save a test. -/
def save (testseq dataseq : List String) (saveHex : Bool) (d : Dir) : Dir :=
  { d with
    saved := d.saved ++ [⟨lines testseq dataseq, if saveHex then some d.compiled else none⟩] }

section shrink
variable (run : List String → String) (test dataseq : List String)

/-- The variables of `shrink`, with the directory. -/
structure Shrinking where
  ommitted : List ℕ
  result : List String
  dir : Dir

/-- The list `new`: `test` without the omitted instructions and one more. -/
def new (ommitted : List ℕ) (omit' : ℕ) : List String :=
  ((List.range test.length).zip test).filterMap fun (i, instr) =>
    if omit' ≠ i ∧ i ∉ ommitted then some instr else none

/-- One step of `shrink`. -/
def shrinkStep (s : Shrinking) (omit' : ℕ) : Shrinking :=
  let new := new test s.ommitted omit'
  let dir := compile (emit new dataseq s.dir)
  let failure := run dir.compiled
  if failure ≠ "" then ⟨s.ommitted ++ [omit'], new, dir⟩ else { s with dir := dir }

/-- Shrink a failing test. -/
def shrink (d : Dir) : List String × Dir :=
  let s := (List.range test.length).foldl (shrinkStep run test dataseq) ⟨[], [], d⟩
  (s.result, s.dir)

/-- Save, compile and run the test that `gen` and `datasection` have given,
and shrink it if it fails. -/
def doOneTest (d : Dir) : Bool × Dir :=
  let d := compile (emit test dataseq d)
  let failure := run d.compiled
  if failure ≠ "" then
    let (shorter, d) := shrink run test dataseq d
    let d := compile (emit shorter dataseq d)
    (false, save shorter dataseq true d)
  else (true, d)

end shrink

/-! ### Shrinking as a pass over the positions -/

section pass
variable {run : List String → String} {test dataseq : List String}

/-- A test sequence fails: the simulators disagree on it. -/
def Fails (run : List String → String) (dataseq testseq : List String) : Bool :=
  decide (run (lines testseq dataseq) ≠ "")

/-- The test without some of its positions. -/
def without (test : List String) (O : Finset ℕ) : List String :=
  Deletion.keep (fun i => decide (i ∉ O)) test

theorem without_sublist (O : Finset ℕ) : (without test O).Sublist test :=
  Deletion.keep_sublist

theorem without_anti {O O' : Finset ℕ} (h : O ⊆ O') :
    (without test O').Sublist (without test O) :=
  Deletion.keep_mono fun i hi => by
    rw [decide_eq_true_eq] at hi ⊢
    exact fun hO => hi (h hO)

@[simp] theorem without_empty : without test ∅ = test :=
  Deletion.keep_eq_self fun i => by simp

theorem without_singleton (i : ℕ) : without test {i} = test.eraseIdx i := by
  rw [← Deletion.keep_ne i]
  exact Deletion.keep_congr fun j _ => by simp

/-- `zip(range(n), test)` gives every instruction its position. -/
theorem filterMap_zip_range (p : ℕ → Prop) [DecidablePred p] (k : ℕ) (l : List String) :
    (((List.range' k l.length).zip l).filterMap fun x => if p x.1 then some x.2 else none)
      = Deletion.keep (fun i => decide (p (k + i))) l := by
  induction l generalizing k with
  | nil => rfl
  | cons a l ih =>
    have hk : (fun i => decide (p (k + 1 + i))) = fun i => decide (p (k + (i + 1))) := by
      funext i
      rw [Nat.add_right_comm, Nat.add_assoc]
    rw [List.length_cons, List.range'_succ, List.zip_cons_cons, List.filterMap_cons,
      Deletion.keep, ih, hk]
    by_cases hp : p k
    · simp [hp]
    · simp [hp]

theorem new_eq (ommitted : List ℕ) (omit' : ℕ) :
    new test ommitted omit' = without test (insert omit' ommitted.toFinset) := by
  rw [new, List.range_eq_range']
  refine (filterMap_zip_range (fun i => omit' ≠ i ∧ i ∉ ommitted) 0 test).trans ?_
  refine Deletion.keep_congr fun i _ => ?_
  simp [not_or, eq_comm]

/-- What the pass asks of a set of positions. -/
def failsWithout (run : List String → String) (test dataseq : List String) (O : Finset ℕ) : Bool :=
  Fails run dataseq (without test O)

/-- The variables stay in step: `result` is the test without the omitted
positions once there is one. -/
structure InStep (test : List String) (s : Shrinking) : Prop where
  none : s.ommitted = [] → s.result = []
  some : s.ommitted ≠ [] → s.result = without test s.ommitted.toFinset

theorem shrinkStep_fails {s : Shrinking} {omit' : ℕ}
    (h : failsWithout run test dataseq (insert omit' s.ommitted.toFinset) = true) :
    (shrinkStep run test dataseq s omit').ommitted = s.ommitted ++ [omit'] ∧
      (shrinkStep run test dataseq s omit').result
        = without test (insert omit' s.ommitted.toFinset) := by
  rw [failsWithout, Fails, decide_eq_true_eq, ← new_eq] at h
  have he : shrinkStep run test dataseq s omit'
      = ⟨s.ommitted ++ [omit'], new test s.ommitted omit',
          compile (emit (new test s.ommitted omit') dataseq s.dir)⟩ := if_pos h
  rw [he, new_eq]
  exact ⟨rfl, rfl⟩

theorem shrinkStep_passes {s : Shrinking} {omit' : ℕ}
    (h : failsWithout run test dataseq (insert omit' s.ommitted.toFinset) = false) :
    (shrinkStep run test dataseq s omit').ommitted = s.ommitted ∧
      (shrinkStep run test dataseq s omit').result = s.result := by
  rw [failsWithout, Fails, decide_eq_false_iff_not, ← new_eq] at h
  have he : shrinkStep run test dataseq s omit'
      = { s with dir := compile (emit (new test s.ommitted omit') dataseq s.dir) } := if_neg h
  rw [he]
  exact ⟨rfl, rfl⟩

theorem toFinset_append_singleton (l : List ℕ) (i : ℕ) :
    (l ++ [i]).toFinset = insert i l.toFinset := by
  ext j
  rw [List.mem_toFinset, List.mem_append, List.mem_singleton, Finset.mem_insert,
    List.mem_toFinset, or_comm]

theorem shrinkStep_inStep (run : List String → String) (dataseq : List String) {s : Shrinking}
    (h : InStep test s) (omit' : ℕ) :
    InStep test (shrinkStep run test dataseq s omit') ∧
      (shrinkStep run test dataseq s omit').ommitted.toFinset
        = Deletion.attempt (failsWithout run test dataseq) s.ommitted.toFinset omit' := by
  rcases hf : failsWithout run test dataseq (insert omit' s.ommitted.toFinset) with - | -
  · obtain ⟨ho, hr⟩ := shrinkStep_passes hf
    rw [Deletion.attempt, hf, if_neg (by simp), ho]
    exact ⟨⟨fun hn => hr.trans (h.none (ho ▸ hn)),
      fun hn => by rw [hr, ho]; exact h.some (ho ▸ hn)⟩, rfl⟩
  · obtain ⟨ho, hr⟩ := shrinkStep_fails hf
    rw [Deletion.attempt, hf, if_pos rfl, ho, toFinset_append_singleton]
    refine ⟨⟨fun hn => absurd (ho ▸ hn) (by simp), fun _ => ?_⟩, rfl⟩
    rw [hr, ho, toFinset_append_singleton]

theorem foldl_shrinkStep (run : List String → String) (dataseq : List String) (l : List ℕ)
    {s : Shrinking} (h : InStep test s) :
    InStep test (l.foldl (shrinkStep run test dataseq) s) ∧
      (l.foldl (shrinkStep run test dataseq) s).ommitted.toFinset
        = Deletion.pass (failsWithout run test dataseq) l s.ommitted.toFinset := by
  induction l generalizing s with
  | nil => exact ⟨h, rfl⟩
  | cons i l ih =>
    obtain ⟨hs, he⟩ := shrinkStep_inStep run dataseq h i
    obtain ⟨hl, hp⟩ := ih hs
    exact ⟨hl, hp.trans (by rw [he, Deletion.pass_cons])⟩

/-- The positions that `shrink` omits. -/
def omittedBy (run : List String → String) (test dataseq : List String) : Finset ℕ :=
  Deletion.pass (failsWithout run test dataseq) (List.range test.length) ∅

/-- `shrink` returns the test without the positions of the pass, or nothing if
there are none. -/
theorem shrink_result (d : Dir) :
    (shrink run test dataseq d).1
      = if omittedBy run test dataseq = ∅ then [] else without test (omittedBy run test dataseq) := by
  have hinit : InStep test ⟨[], [], d⟩ := ⟨fun _ => rfl, fun h => absurd rfl h⟩
  obtain ⟨hs, he⟩ := foldl_shrinkStep run dataseq (List.range test.length) hinit
  have he : _ = omittedBy run test dataseq := he
  rw [shrink, ← he]
  split_ifs with h
  · exact hs.none (List.toFinset_eq_empty_iff _ |>.mp h)
  · exact hs.some fun hnil => h (by rw [hnil]; rfl)

/-- What `shrink` has not omitted fails, if it omitted anything. -/
theorem fails_omittedBy (h : omittedBy run test dataseq ≠ ∅) :
    Fails run dataseq (without test (omittedBy run test dataseq)) = true :=
  (Deletion.pass_eq_or_fails _ _ _).resolve_left h

/-- Something is omitted exactly when some single instruction can be. -/
theorem omittedBy_eq_empty_iff :
    omittedBy run test dataseq = ∅ ↔
      ∀ i < test.length, Fails run dataseq (test.eraseIdx i) = false := by
  refine (Deletion.pass_eq_iff fun i _ => Finset.notMem_empty i).trans ?_
  simp only [List.mem_range, failsWithout, insert_empty_eq, without_singleton]

theorem shrink_sublist (d : Dir) : (shrink run test dataseq d).1.Sublist test := by
  rw [shrink_result]
  split_ifs
  · exact List.nil_sublist test
  · exact without_sublist _

/-- What `shrink` returns fails exactly if some single instruction can be
omitted, or the empty test fails. -/
theorem fails_shrink_iff (d : Dir) :
    Fails run dataseq (shrink run test dataseq d).1 = true ↔
      (∃ i < test.length, Fails run dataseq (test.eraseIdx i) = true) ∨
        Fails run dataseq [] = true := by
  rw [shrink_result]
  by_cases h : omittedBy run test dataseq = ∅
  · rw [if_pos h]
    refine ⟨.inr, fun hf => hf.resolve_left ?_⟩
    rintro ⟨i, hi, hf⟩
    rw [omittedBy_eq_empty_iff.mp h i hi] at hf
    exact absurd hf (by simp)
  · rw [if_neg h]
    refine iff_of_true (fails_omittedBy h) (.inl ?_)
    by_contra hno
    refine h (omittedBy_eq_empty_iff.mpr fun i hi => ?_)
    exact Bool.eq_false_of_not_eq_true fun hf => hno ⟨i, hi, hf⟩

/-- **A single pass suffices for monotone failures.**  If a list of
instructions of the test fails whenever a part of it does, then no instruction
can be deleted from what `shrink` returns, unless that is nothing. -/
theorem shrink_minimal
    (hmono : ∀ a b : List String, a.Sublist b → b.Sublist test →
      Fails run dataseq a = true → Fails run dataseq b = true)
    (d : Dir) (hne : (shrink run test dataseq d).1 ≠ []) :
    ∀ j < (shrink run test dataseq d).1.length,
      Fails run dataseq ((shrink run test dataseq d).1.eraseIdx j) = false := by
  intro j hj
  rw [shrink_result] at hne hj ⊢
  by_cases h : omittedBy run test dataseq = ∅
  · rw [if_pos h] at hne
    exact absurd rfl hne
  · rw [if_neg h] at hj ⊢
    obtain ⟨i, hi, hkept, he⟩ := Deletion.eraseIdx_keep hj
    have hinsert : Deletion.keep
        (fun m => decide (m ∉ omittedBy run test dataseq) && decide (m ≠ i)) test
        = without test (insert i (omittedBy run test dataseq)) :=
      Deletion.keep_congr fun m _ => by
        simp only [Finset.mem_insert, not_or, Bool.decide_and, Bool.and_comm]
    rw [without, he, hinsert]
    have hanti {O O' : Finset ℕ} (hsub : O ⊆ O') :
        failsWithout run test dataseq O' = true → failsWithout run test dataseq O = true :=
      hmono _ _ (without_anti hsub) (without_sublist _)
    exact Deletion.not_pass_insert hanti (List.mem_range.mpr hi) (of_decide_eq_true hkept)

/-- A test as `testSetGet` generates it. -/
def setGetTest : List String :=
  [ "  csc $c0, $0, 0($c10)"
  , "  clc $c0, $0, 0($c10)"
  , "  ccleartag $c0, $c0"
  , "  cgetperm   $s0, $c0"
  , "  cgetbase   $s1, $c0"
  , "  cgetlen    $s2, $c0"
  , "  cgetoffset $s3, $c0"
  , "  cgettag    $s4, $c0"
  , "  cgetsealed $s5, $c0"
  , "  cgettype   $s6, $c0"
  , "  cld        $t8, $0, 0($c10)"
  , "  cld        $t9, $0, 8($c10)"
  , "  cbts $c0, skip" ]

/-- A data section as `datasection` generates it. -/
def zeroData : List String := datasection "0x0" "0x0" "0x0" "0x0"

/-- Simulators that disagree wherever an instruction occurs. -/
def runWith (instr : String) (captest : List String) : String :=
  if instr ∈ captest then "\nRegister $s4 differs:\n" else ""

theorem fails_runWith_mono {instr : String} {a b dataseq : List String} (h : a.Sublist b)
    (hf : Fails (runWith instr) dataseq a = true) : Fails (runWith instr) dataseq b = true := by
  simp only [Fails, runWith, lines, ne_eq, ite_eq_right_iff, Classical.not_imp, decide_eq_true_eq,
    List.mem_append] at hf ⊢
  obtain ⟨hmem, hne⟩ := hf
  refine ⟨?_, hne⟩
  rcases hmem with ((hp | ha) | hq) | hd
  · exact .inl (.inl (.inl hp))
  · exact .inl (.inl (.inr (h.subset ha)))
  · exact .inl (.inr hq)
  · exact .inr hd

theorem shrink_minimal_ccleartag :
    let run := runWith "  ccleartag $c0, $c0"
    let d : Dir := ⟨[], [], []⟩
    (shrink run setGetTest zeroData d).1 = ["  ccleartag $c0, $c0"] ∧
      ∀ j < (shrink run setGetTest zeroData d).1.length,
        Fails run zeroData ((shrink run setGetTest zeroData d).1.eraseIdx j) = false :=
  have hshrink : (shrink (runWith "  ccleartag $c0, $c0") setGetTest zeroData ⟨[], [], []⟩).1
      = ["  ccleartag $c0, $c0"] := by decide +kernel
  ⟨hshrink, shrink_minimal (fun _ _ hab _ => fails_runWith_mono hab) ⟨[], [], []⟩
    (by rw [hshrink]; exact List.cons_ne_nil _ _)⟩

/-! ### What is saved -/

theorem foldl_shrinkStep_saved (l : List ℕ) (s : Shrinking) :
    (l.foldl (shrinkStep run test dataseq) s).dir.saved = s.dir.saved := by
  induction l generalizing s with
  | nil => rfl
  | cons i l ih =>
    refine (ih _).trans ?_
    rw [shrinkStep]
    split <;> rfl

/-- For a failing test `doOneTest` saves what `shrink` returns, with the files
that it compiles to. -/
theorem doOneTest_of_fails (hfail : Fails run dataseq test = true) (d : Dir) :
    (doOneTest run test dataseq d).1 = false ∧
      (doOneTest run test dataseq d).2.saved
        = d.saved ++ [⟨lines (shrink run test dataseq d).1 dataseq,
            some (lines (shrink run test dataseq d).1 dataseq)⟩] := by
  let before := compile (emit test dataseq d)
  have hresult : (shrink run test dataseq before).1 = (shrink run test dataseq d).1 := by
    rw [shrink_result, shrink_result]
  have hsaved : (shrink run test dataseq before).2.saved = d.saved := foldl_shrinkStep_saved _ _
  have hone : doOneTest run test dataseq d
      = (false, save (shrink run test dataseq before).1 dataseq true
          (compile (emit (shrink run test dataseq before).1 dataseq
            (shrink run test dataseq before).2))) :=
    if_pos (of_decide_eq_true hfail)
  rw [hone, hresult]
  refine ⟨rfl, ?_⟩
  show (shrink run test dataseq before).2.saved ++ _ = _
  rw [hsaved]
  rfl

/-- **Shrinking a failing test.**  What `shrink` returns is a part of the test
that fails, and the file that `doOneTest` saves reproduces a failure, exactly
if the test without some single instruction fails, or the empty test does. -/
theorem doOneTest_saves_failure (hfail : Fails run dataseq test = true) (d : Dir) :
    ((shrink run test dataseq d).1.Sublist test ∧
        Fails run dataseq (shrink run test dataseq d).1 = true ∧
        ∃ f, (doOneTest run test dataseq d).2.saved = d.saved ++ [f] ∧ run f.source ≠ "") ↔
      (∃ i < test.length, Fails run dataseq (test.eraseIdx i) = true) ∨
        Fails run dataseq [] = true := by
  rw [← fails_shrink_iff d]
  constructor
  · rintro ⟨-, hf, -⟩
    exact hf
  · intro hf
    exact ⟨shrink_sublist d, hf, _, (doOneTest_of_fails hfail d).2, of_decide_eq_true hf⟩

/-- Simulators that disagree on one test only. -/
def runOnly (testseq : List String) (captest : List String) : String :=
  if captest = lines testseq zeroData then "\nRegister $s0 differs:\n" else ""

/-- A failing test that needs all its instructions is shrunk to nothing, and
what is saved passes. -/
theorem doOneTest_loses_failure :
    Fails (runOnly setGetTest) zeroData setGetTest = true ∧
      (shrink (runOnly setGetTest) setGetTest zeroData ⟨[], [], []⟩).1 = [] ∧
      Fails (runOnly setGetTest) zeroData [] = false ∧
      (doOneTest (runOnly setGetTest) setGetTest zeroData ⟨[], [], []⟩).2.saved
        = [⟨prelude ++ postlude ++ zeroData, some (prelude ++ postlude ++ zeroData)⟩] := by
  decide +kernel

theorem doOneTest_saves_failure_ccleartag :
    let run := runWith "  ccleartag $c0, $c0"
    let d : Dir := ⟨[], [], []⟩
    Fails run zeroData setGetTest = true ∧
      (shrink run setGetTest zeroData d).1.Sublist setGetTest ∧
      Fails run zeroData (shrink run setGetTest zeroData d).1 = true ∧
      ∃ f, (doOneTest run setGetTest zeroData d).2.saved = d.saved ++ [f] ∧ run f.source ≠ "" :=
  have hfail : Fails (runWith "  ccleartag $c0, $c0") zeroData setGetTest = true := by
    decide +kernel
  ⟨hfail, (doOneTest_saves_failure hfail ⟨[], [], []⟩).mpr (.inl ⟨0, by decide +kernel⟩)⟩

end pass

end FuzzCap

end Cheritest
