/-
Cheritest/Dma/MultithreadTests.lean

The files of the multithreaded DMA tests: the lines that
generate_multithread_dma_test.cpp prints for a range of thread counts and a
range of seeds, and what build_multithread_tests.py makes of them.

The lines do not say which test they are for.  The consumer counts along, the
seeds inside the thread counts as the producer does, and asserts that it has
not left the ranges.

`build_multithread_tests_complete`: if both ranges have a number in them, then
every test ends up in a file of its own, filled with what was printed for it,
and no other file is touched.  If one of them is empty, the consumer fails its
assertion at the empty output and writes nothing.
-/
import Cheritest.Dma.SingleTests
import Cheritest.Dma.VirtualisedSound
import Cheritest.Lib.Digits

namespace Cheritest.MultithreadTests

open Text

/-! ### The producer -/

/-- What is printed for one test.  A mapping is a virtual and two physical
page numbers. -/
structure PrintedTest where
  programs : List (List (BitVec 32))
  mappings : List (BitVec 64 × BitVec 64 × BitVec 64)
  stores : List (DmaAddress × BitVec 8)
  asserts : List (DmaAddress × BitVec 8)
  source_addrs : List DmaAddress
  dest_addrs : List DmaAddress

/-- What `print_virtualised_test_information` prints, from the allocation on. -/
def virtualised (programs : List (List (BitVec 32))) (a : Allocation)
    (transfer_lists : List (List (TransferRecord DmaAddress))) : PrintedTest where
  programs := programs
  mappings := (a.virt.used_pns.zip a.phys.used_pns).map fun x =>
    (2 * BitVec.ofNat 64 x.1, 2 * BitVec.ofNat 64 x.2, 2 * BitVec.ofNat 64 x.2 + 1)
  stores := (a.print transfer_lists).stores
  asserts := (a.print transfer_lists).asserts
  source_addrs := (a.print transfer_lists).source_virt_addrs
  dest_addrs := (a.print transfer_lists).dest_virt_addrs

/-- What `print_test_information` prints; the addresses of a thread without
transfers are not set, and `unset` is what is found there. -/
def physical (programs : List (List (BitVec 32))) (unset : DmaAddress)
    (transfer_lists : List (List (TransferRecord DmaAddress))) : PrintedTest where
  programs := programs
  mappings := []
  stores := (print_test_information transfer_lists).stores
  asserts := (print_test_information transfer_lists).asserts
  source_addrs := (print_test_information transfer_lists).source_addrs.map fun x => x.getD unset
  dest_addrs := (print_test_information transfer_lists).dest_addrs.map fun x => x.getD unset

/-- The loop of `print_programs` and of `print_pointer_array`. -/
def print_list {α : Type} (item : α → List Char) : List α → List Char
  | [] => []
  | x :: xs => item x ++ (if xs.isEmpty then [] else ", ".toList) ++ print_list item xs

/-- `print_programs`. -/
def print_programs (DMA_OP_STOP : BitVec 32) : List (List (BitVec 32)) → List Char :=
  print_list fun program =>
    "(dma_instruction[])\x7b".toList ++ print_program DMA_OP_STOP program ++ "\x7d".toList

/-- `%llx`. -/
def hex (n : BitVec 64) : List Char := printHex 0 n.toNat

/-- `print_pointer_array`. -/
def print_pointer_array : List DmaAddress → List Char :=
  print_list fun a => "(uint8_t *)0x".toList ++ hex a

def mapping_line (x : BitVec 64 × BitVec 64 × BitVec 64) : List Char :=
  "add_tlb_mapping(0x".toList ++ hex x.1 ++ ", 0x".toList ++ hex x.2.1 ++ ", 0x".toList ++
    hex x.2.2 ++ ");".toList

def store_line (x : DmaAddress × BitVec 8) : List Char :=
  "*((volatile uint8_t *)0x".toList ++ hex x.1 ++ ") = ".toList ++ printNat x.2.toNat ++ ";".toList

def assert_line (x : DmaAddress × BitVec 8) : List Char :=
  "&& *((volatile uint8_t *)0x".toList ++ hex x.1 ++ ") == ".toList ++ printNat x.2.toNat ++
    " ".toList

/-- The line of a test, without its newline. -/
def PrintedTest.line (DMA_OP_STOP : BitVec 32) (t : PrintedTest) : List Char :=
  "#define DMA_ADDR DMA_VIRT$".toList ++ print_programs DMA_OP_STOP t.programs ++ "$".toList ++
    t.mappings.flatMap mapping_line ++ t.stores.flatMap store_line ++ "$assert(1 ".toList ++
    t.asserts.flatMap assert_line ++ ");$".toList ++ print_pointer_array t.source_addrs ++
    "$".toList ++ print_pointer_array t.dest_addrs

/-- The second loop of `main`. -/
def seedLines (DMA_OP_STOP : BitVec 32) (test : ℤ → PrintedTest) (lower upper : ℤ) : List Char :=
  (seeds lower upper).flatMap fun j => (test j).line DMA_OP_STOP ++ ['\n']

/-- `main`, of numbers of threads that are not negative. -/
def generate_multithread_dma_test (DMA_OP_STOP : BitVec 32) (test : ℕ → ℤ → PrintedTest)
    (thread_lower thread_higher : ℕ) (seed_lower seed_higher : ℤ) : List Char :=
  (List.range' thread_lower (thread_higher + 1 - thread_lower)).flatMap fun i =>
    seedLines DMA_OP_STOP (test i) seed_lower seed_higher

/-! ### The consumer -/

/-- What the template is filled with. -/
structure TestFile where
  thread_count : ℕ
  seed : ℤ
  define_dma : List Char
  programs : List Char
  set_sources : List Char
  asserts : List Char
  source_addrs : List Char
  dest_addrs : List Char
  deriving DecidableEq, Repr

inductive Mode
  | phys
  | virt
  deriving DecidableEq, Repr

/-- `test_path.format(thread_count, seed)`, below the repository. -/
def test_path (mode : Mode) (thread_count : ℕ) (seed : ℤ) : List Char :=
  (match mode with
    | .phys => "tests/fuzz_dma/test_clang_dma_gen_".toList
    | .virt => "tests/fuzz_dma/test_clang_dma_virt_gen_".toList) ++
    (printNat thread_count ++ ("_threads_".toList ++ (printInt seed ++ ".c".toList)))

/-- The files under their paths. -/
abbrev Files := List Char → Option TestFile

/-- How the consumer ends. -/
inductive BuildEnd
  | assertionError
  | exit (status : ℕ)
  deriving DecidableEq, Repr

section consumer
variable (mode : Mode) (thread_count_min thread_count_max : ℕ) (seed_min seed_max : ℤ)

/-- The loop of `main`. -/
def build_lines (thread_count : ℕ) (seed : ℤ) (files : Files) : List (List Char) → Files × BuildEnd
  | [] => (files, .exit 0)
  | test_data :: lines =>
      if ¬(seed_min ≤ seed ∧ seed ≤ seed_max) then (files, .assertionError)
      else if ¬(thread_count_min ≤ thread_count ∧ thread_count ≤ thread_count_max) then
        (files, .assertionError)
      else
        match test_data.splitOn '$' with
        | define_dma :: programs :: set_sources :: asserts :: source_addrs :: dest_addrs :: _ =>
            let files := Function.update files (test_path mode thread_count seed)
              (some ⟨thread_count, seed, define_dma, programs, set_sources, asserts, source_addrs,
                dest_addrs⟩)
            if seed_max < seed + 1 then build_lines (thread_count + 1) seed_min files lines
            else build_lines thread_count (seed + 1) files lines
        | _ => (files, .exit 1)

/-- `main`, on the output of the producer. -/
def build_multithread_tests (files : Files) (tests : List Char) : Files × BuildEnd :=
  build_lines mode thread_count_min thread_count_max seed_min seed_max thread_count_min seed_min
    files ((rstrip tests).splitOn '\n')

end consumer

/-! ### What a line is meant to say -/

section fields
variable (DMA_OP_STOP : BitVec 32) (t : PrintedTest)

/-- The printed calls are those that make the mappings of the allocation. -/
theorem virtualised_mappings (programs : List (List (BitVec 32))) (a : Allocation)
    (transfer_lists : List (List (TransferRecord DmaAddress))) :
    ((virtualised programs a transfer_lists).mappings.map fun x =>
        add_tlb_mapping x.1 x.2.1 x.2.2) = (a.print transfer_lists).mappings := by
  show ((a.virt.used_pns.zip a.phys.used_pns).map _).map _ = a.tlb
  rw [List.map_map]
  rfl

/-- The file of a test. -/
def PrintedTest.file (thread_count : ℕ) (seed : ℤ) : TestFile where
  thread_count := thread_count
  seed := seed
  define_dma := "#define DMA_ADDR DMA_VIRT".toList
  programs := print_programs DMA_OP_STOP t.programs
  set_sources := t.mappings.flatMap mapping_line ++ t.stores.flatMap store_line
  asserts := "assert(1 ".toList ++ t.asserts.flatMap assert_line ++ ");".toList
  source_addrs := print_pointer_array t.source_addrs
  dest_addrs := print_pointer_array t.dest_addrs

/-- The six fields of a line. -/
def PrintedTest.fields : List (List Char) :=
  ["#define DMA_ADDR DMA_VIRT".toList, print_programs DMA_OP_STOP t.programs,
    t.mappings.flatMap mapping_line ++ t.stores.flatMap store_line,
    "assert(1 ".toList ++ t.asserts.flatMap assert_line ++ ");".toList,
    print_pointer_array t.source_addrs, print_pointer_array t.dest_addrs]

theorem line_eq : t.line DMA_OP_STOP = ['$'].intercalate (t.fields DMA_OP_STOP) := by
  have hjoin : ∀ a b c d e f : List Char, ['$'].intercalate [a, b, c, d, e, f] =
      a ++ ("$".toList ++ (b ++ ("$".toList ++ (c ++ ("$".toList ++ (d ++ ("$".toList ++
        (e ++ ("$".toList ++ f))))))))) := by
    intro a b c d e f
    simp [List.intercalate]
  have hdefine : "#define DMA_ADDR DMA_VIRT$".toList =
      "#define DMA_ADDR DMA_VIRT".toList ++ "$".toList := by decide
  have hassert : "$assert(1 ".toList = "$".toList ++ "assert(1 ".toList := by decide
  have hend : ");$".toList = ");".toList ++ "$".toList := by decide
  unfold PrintedTest.line PrintedTest.fields
  rw [hjoin, hdefine, hassert, hend]
  simp only [List.append_assoc]

theorem fieldText_hex (n : BitVec 64) : FieldText (hex n) := by
  intro c hc
  have h := isHexDigit_of_mem_printHex hc
  constructor <;> rintro rfl <;> revert h <;> decide

theorem fieldText_print_list {α : Type} {item : α → List Char} (h : ∀ x, FieldText (item x))
    (l : List α) : FieldText (print_list item l) := by
  induction l with
  | nil => simp [print_list, FieldText]
  | cons x xs ih =>
    refine ((h x).append ?_).append ih
    split_ifs
    · simp [FieldText]
    · decide

theorem fieldText_mapping_line (x : BitVec 64 × BitVec 64 × BitVec 64) :
    FieldText (mapping_line x) :=
  (((((FieldText.append (by decide) (fieldText_hex _)).append (by decide)).append
    (fieldText_hex _)).append (by decide)).append (fieldText_hex _)).append (by decide)

theorem fieldText_store_line (x : DmaAddress × BitVec 8) : FieldText (store_line x) :=
  (((FieldText.append (by decide) (fieldText_hex _)).append (by decide)).append
    (fieldText_printNat _)).append (by decide)

theorem fieldText_assert_line (x : DmaAddress × BitVec 8) : FieldText (assert_line x) :=
  (((FieldText.append (by decide) (fieldText_hex _)).append (by decide)).append
    (fieldText_printNat _)).append (by decide)

theorem fieldText_print_pointer_array (l : List DmaAddress) : FieldText (print_pointer_array l) :=
  fieldText_print_list (fun a => .append (by decide) (fieldText_hex a)) l

theorem fieldText_fields : ∀ f ∈ t.fields DMA_OP_STOP, FieldText f := by
  have hprograms : FieldText (print_programs DMA_OP_STOP t.programs) :=
    fieldText_print_list
      (fun p => (FieldText.append (by decide) (fieldText_print_program _ p)).append (by decide)) _
  simp only [PrintedTest.fields, List.forall_mem_cons, List.not_mem_nil, false_implies,
    implies_true, and_true]
  refine ⟨by decide, hprograms, ?_, ?_, ?_, ?_⟩
  · exact (FieldText.flatMap fieldText_mapping_line _).append
      (FieldText.flatMap fieldText_store_line _)
  · exact (FieldText.append (by decide) (FieldText.flatMap fieldText_assert_line _)).append
      (by decide)
  · apply fieldText_print_pointer_array
  · apply fieldText_print_pointer_array

theorem splitOn_line : (t.line DMA_OP_STOP).splitOn '$' = t.fields DMA_OP_STOP := by
  rw [line_eq]
  apply List.splitOn_intercalate
  · exact fun f hf hc => (fieldText_fields DMA_OP_STOP t f hf _ hc).1 rfl
  · exact List.cons_ne_nil _ _

theorem newline_not_mem_line : '\n' ∉ t.line DMA_OP_STOP := by
  rw [line_eq]
  exact newline_not_mem_intercalate (fieldText_fields _ _)

/-- A list is printed up to the end of its last item. -/
theorem print_list_ends {α : Type} {item : α → List Char} {P : Char → Prop}
    (h : ∀ x, ∃ s c, item x = s ++ [c] ∧ P c) {l : List α} (hl : l ≠ []) :
    ∃ s c, print_list item l = s ++ [c] ∧ P c := by
  induction l with
  | nil => exact absurd rfl hl
  | cons x xs ih =>
    cases xs with
    | nil =>
      obtain ⟨s, c, hs, hc⟩ := h x
      refine ⟨s, c, ?_, hc⟩
      show item x ++ [] ++ [] = s ++ [c]
      rw [List.append_nil, List.append_nil, hs]
    | cons y ys =>
      obtain ⟨s, c, hs, hc⟩ := ih (List.cons_ne_nil y ys)
      refine ⟨item x ++ ", ".toList ++ s, c, ?_, hc⟩
      show item x ++ ", ".toList ++ print_list item (y :: ys) = _
      rw [hs, List.append_assoc _ s]

theorem hex_ends (n : BitVec 64) : ∃ s c, hex n = s ++ [c] ∧ isSpace c = false := by
  have hne : Nat.toDigits 16 n.toNat ≠ [] := Nat.toDigits_ne_nil
  refine ⟨List.replicate (0 - (Nat.toDigits 16 n.toNat).length) '0' ++
    (Nat.toDigits 16 n.toNat).dropLast, (Nat.toDigits 16 n.toNat).getLast hne, ?_, ?_⟩
  · rw [List.append_assoc, List.dropLast_concat_getLast hne]
    rfl
  · exact isSpace_of_isHexDigit (isHexDigit_of_mem_toDigits (List.getLast_mem hne))

/-- No line ends in white space. -/
theorem line_ends : ∃ s c, t.line DMA_OP_STOP = s ++ [c] ∧ isSpace c = false := by
  obtain ⟨u, hu⟩ : ∃ u, t.line DMA_OP_STOP = u ++ "$".toList ++ print_pointer_array t.dest_addrs :=
    ⟨_, rfl⟩
  rw [hu]
  by_cases hnone : t.dest_addrs = []
  · refine ⟨u, '$', ?_, rfl⟩
    rw [hnone]
    exact List.append_nil _
  · have hitem : ∀ a : DmaAddress, ∃ s c,
        "(uint8_t *)0x".toList ++ hex a = s ++ [c] ∧ isSpace c = false := by
      intro a
      obtain ⟨s, c, hs, hc⟩ := hex_ends a
      exact ⟨"(uint8_t *)0x".toList ++ s, c, by rw [hs, List.append_assoc], hc⟩
    obtain ⟨s, c, hs, hc⟩ := print_list_ends hitem hnone
    refine ⟨u ++ "$".toList ++ s, c, ?_, hc⟩
    rw [print_pointer_array, hs, List.append_assoc _ s]

end fields

/-! ### The paths -/

/-- Every test has a path of its own. -/
theorem test_path_inj {mode : Mode} {m n : ℕ} {y z : ℤ}
    (h : test_path mode m y = test_path mode n z) : m = n ∧ y = z := by
  have hrest := List.append_cancel_left h
  obtain ⟨hm, ht⟩ := append_inj_of_stop (f := Char.isDigit) (c := '_') rfl
    (fun _ hx => isDigit_of_mem_printNat hx) (fun _ hx => isDigit_of_mem_printNat hx) hrest
  have hseed : printInt y ++ ".c".toList = printInt z ++ ".c".toList := List.append_cancel_left ht
  exact ⟨printNat_injective hm, printInt_injective (List.append_cancel_right hseed)⟩

/-! ### The loop -/

section loop
variable (DMA_OP_STOP : BitVec 32) (test : ℕ → ℤ → PrintedTest) (mode : Mode)

/-- Write the file of a test. -/
def writeFile (files : Files) (p : ℕ × ℤ) : Files :=
  Function.update files (test_path mode p.1 p.2) (some ((test p.1 p.2).file DMA_OP_STOP p.1 p.2))

/-- The lines of the tests of one thread count, from a seed on. -/
def linesFrom (i : ℕ) (seed : ℤ) (n : ℕ) : List (List Char) :=
  (List.range n).map fun k : ℕ => (test i (seed + k)).line DMA_OP_STOP

/-- The tests of one thread count, from a seed on. -/
def pairsFrom (i : ℕ) (seed : ℤ) (n : ℕ) : List (ℕ × ℤ) :=
  (List.range n).map fun k : ℕ => (i, seed + k)

theorem map_range_succ {α : Type} (f : ℤ → α) (seed : ℤ) (n : ℕ) :
    ((List.range (n + 1)).map fun k : ℕ => f (seed + k)) =
      f seed :: (List.range n).map fun k : ℕ => f (seed + 1 + k) := by
  rw [List.range_succ_eq_map, List.map_cons, List.map_map]
  congr 2
  · simp
  · funext k
    rw [Function.comp_apply, Nat.cast_succ, add_assoc, add_comm 1]

variable {thread_count_min thread_count_max : ℕ} {seed_min seed_max : ℤ}

/-- One line: its file is written, and the counters go on. -/
theorem build_lines_cons {i : ℕ} {seed : ℤ} (hi : thread_count_min ≤ i ∧ i ≤ thread_count_max)
    (hseed : seed_min ≤ seed ∧ seed ≤ seed_max) (files : Files) (lines : List (List Char)) :
    build_lines mode thread_count_min thread_count_max seed_min seed_max i seed files
        ((test i seed).line DMA_OP_STOP :: lines) =
      if seed_max < seed + 1 then
        build_lines mode thread_count_min thread_count_max seed_min seed_max (i + 1) seed_min
          (writeFile DMA_OP_STOP test mode files (i, seed)) lines
      else
        build_lines mode thread_count_min thread_count_max seed_min seed_max i (seed + 1)
          (writeFile DMA_OP_STOP test mode files (i, seed)) lines := by
  rw [build_lines, if_neg (not_not.mpr hseed), if_neg (not_not.mpr hi), splitOn_line]
  rfl

/-- The lines of one thread count, from a seed to the last one. -/
theorem build_lines_seeds {i : ℕ} (hi : thread_count_min ≤ i ∧ i ≤ thread_count_max) (n : ℕ)
    {seed : ℤ} (hmin : seed_min ≤ seed) (hmax : seed + n = seed_max) (files : Files)
    (lines : List (List Char)) :
    build_lines mode thread_count_min thread_count_max seed_min seed_max i seed files
        (linesFrom DMA_OP_STOP test i seed (n + 1) ++ lines) =
      build_lines mode thread_count_min thread_count_max seed_min seed_max (i + 1) seed_min
        ((pairsFrom i seed (n + 1)).foldl (writeFile DMA_OP_STOP test mode) files) lines := by
  induction n generalizing seed files with
  | zero =>
    have hseed : seed_min ≤ seed ∧ seed ≤ seed_max := ⟨hmin, by omega⟩
    rw [linesFrom, map_range_succ (fun j => (test i j).line DMA_OP_STOP), pairsFrom,
      map_range_succ fun j => (i, j), List.cons_append, build_lines_cons _ _ _ hi hseed,
      if_pos (by omega)]
    rfl
  | succ n ih =>
    have hseed : seed_min ≤ seed ∧ seed ≤ seed_max := ⟨hmin, by omega⟩
    have hnext : seed + 1 + n = seed_max := by
      rw [← hmax, Nat.cast_succ, add_assoc, add_comm 1]
    rw [linesFrom, map_range_succ (fun j => (test i j).line DMA_OP_STOP), pairsFrom,
      map_range_succ fun j => (i, j), List.cons_append, build_lines_cons _ _ _ hi hseed,
      if_neg (by omega)]
    exact ih (by omega) hnext _

/-- All lines, from a thread count on. -/
theorem build_lines_threads {n : ℕ} (hseeds : seed_min + n = seed_max) (m : ℕ) {i : ℕ}
    (hmin : thread_count_min ≤ i) (hmax : i + m = thread_count_max + 1) (files : Files) :
    build_lines mode thread_count_min thread_count_max seed_min seed_max i seed_min files
        ((List.range' i m).flatMap fun i => linesFrom DMA_OP_STOP test i seed_min (n + 1)) =
      (((List.range' i m).flatMap fun i => pairsFrom i seed_min (n + 1)).foldl
        (writeFile DMA_OP_STOP test mode) files, .exit 0) := by
  induction m generalizing i files with
  | zero => rfl
  | succ m ih =>
    rw [List.range'_succ, List.flatMap_cons, List.flatMap_cons, List.foldl_append,
      build_lines_seeds DMA_OP_STOP test mode ⟨hmin, by omega⟩ n le_rfl hseeds]
    exact ih (by omega) (by omega) _

/-- What stands under a path after the files of some tests have been written. -/
theorem foldl_writeFile (pairs : List (ℕ × ℤ)) (files : Files) :
    (∀ p ∈ pairs, pairs.foldl (writeFile DMA_OP_STOP test mode) files (test_path mode p.1 p.2) =
      some ((test p.1 p.2).file DMA_OP_STOP p.1 p.2)) ∧
    ∀ path, (∀ p ∈ pairs, path ≠ test_path mode p.1 p.2) →
      pairs.foldl (writeFile DMA_OP_STOP test mode) files path = files path := by
  induction pairs generalizing files with
  | nil => exact ⟨fun _ h => absurd h List.not_mem_nil, fun _ _ => rfl⟩
  | cons q pairs ih =>
    obtain ⟨hmem, hframe⟩ := ih (writeFile DMA_OP_STOP test mode files q)
    constructor
    · intro p hp
      by_cases hlater : p ∈ pairs
      · exact hmem p hlater
      · -- the last file under this path is the one of `q`
        obtain rfl : p = q := (List.mem_cons.mp hp).resolve_right hlater
        have hpath : ∀ p' ∈ pairs, test_path mode p.1 p.2 ≠ test_path mode p'.1 p'.2 := by
          intro p' hp' h
          obtain ⟨hm, hy⟩ := test_path_inj h
          exact hlater ((Prod.ext hm hy : p = p') ▸ hp')
        rw [List.foldl_cons, hframe _ hpath]
        exact Function.update_self ..
    · intro path hpath
      rw [List.foldl_cons, hframe path fun p hp => hpath p (List.mem_cons_of_mem q hp)]
      exact Function.update_of_ne (hpath q List.mem_cons_self) ..

end loop

/-! ### The consumer and the producer -/

section agree
variable (DMA_OP_STOP : BitVec 32) (test : ℕ → ℤ → PrintedTest) (mode : Mode)

/-- The lines of the output. -/
def allLines (thread_lower m : ℕ) (seed_lower : ℤ) (n : ℕ) : List (List Char) :=
  (List.range' thread_lower m).flatMap fun i => linesFrom DMA_OP_STOP test i seed_lower n

/-- The tests of a run. -/
def allPairs (thread_lower m : ℕ) (seed_lower : ℤ) (n : ℕ) : List (ℕ × ℤ) :=
  (List.range' thread_lower m).flatMap fun i => pairsFrom i seed_lower n

theorem generate_eq (thread_lower thread_higher : ℕ) (seed_lower seed_higher : ℤ) :
    generate_multithread_dma_test DMA_OP_STOP test thread_lower thread_higher seed_lower
        seed_higher =
      (allLines DMA_OP_STOP test thread_lower (thread_higher + 1 - thread_lower) seed_lower
        (seed_higher + 1 - seed_lower).toNat).flatMap fun l => l ++ ['\n'] := by
  rw [generate_multithread_dma_test, allLines, List.flatMap_assoc]
  congr 1
  funext i
  rw [seedLines, seeds, linesFrom, List.flatMap_map, List.flatMap_map]

theorem mem_allLines {thread_lower m n : ℕ} {seed_lower : ℤ} {l : List Char}
    (h : l ∈ allLines DMA_OP_STOP test thread_lower m seed_lower n) :
    ∃ i j, l = (test i j).line DMA_OP_STOP := by
  obtain ⟨i, -, hi⟩ := List.mem_flatMap.mp h
  obtain ⟨k, -, rfl⟩ := List.mem_map.mp hi
  exact ⟨i, _, rfl⟩

theorem mem_allPairs {thread_lower thread_higher n : ℕ} {seed_lower seed_higher : ℤ}
    (hn : seed_lower + n = seed_higher) (i : ℕ) (j : ℤ) :
    (i, j) ∈ allPairs thread_lower (thread_higher + 1 - thread_lower) seed_lower (n + 1) ↔
      (thread_lower ≤ i ∧ i ≤ thread_higher) ∧ seed_lower ≤ j ∧ j ≤ seed_higher := by
  rw [allPairs, List.mem_flatMap]
  constructor
  · rintro ⟨i', hi', hj⟩
    obtain ⟨k, hk, heq⟩ := List.mem_map.mp hj
    obtain ⟨rfl, rfl⟩ := Prod.mk.inj heq
    rw [List.mem_range'_1] at hi'
    rw [List.mem_range] at hk
    exact ⟨by omega, by omega⟩
  · rintro ⟨hi, hj⟩
    refine ⟨i, List.mem_range'_1.mpr (by omega), List.mem_map.mpr ⟨(j - seed_lower).toNat, ?_, ?_⟩⟩
    · exact List.mem_range.mpr (by omega)
    · exact Prod.ext rfl (by omega)

/-- The consumer reads back the lines that the producer prints. -/
theorem splitOn_generate {thread_lower thread_higher n : ℕ} {seed_lower seed_higher : ℤ}
    (hthreads : thread_lower ≤ thread_higher) (hn : seed_lower + n = seed_higher) :
    (rstrip (generate_multithread_dma_test DMA_OP_STOP test thread_lower thread_higher seed_lower
      seed_higher)).splitOn '\n' =
      allLines DMA_OP_STOP test thread_lower (thread_higher + 1 - thread_lower) seed_lower
        (n + 1) := by
  have hcount : (seed_higher + 1 - seed_lower).toNat = n + 1 := by omega
  rw [generate_eq, hcount]
  apply split_rstrip_lines
  · have hfirst : (test thread_lower (seed_lower + (0 : ℕ))).line DMA_OP_STOP ∈
        allLines DMA_OP_STOP test thread_lower (thread_higher + 1 - thread_lower) seed_lower
          (n + 1) :=
      List.mem_flatMap.mpr ⟨thread_lower, List.mem_range'_1.mpr (by omega),
        List.mem_map.mpr ⟨0, List.mem_range.mpr (Nat.succ_pos n), rfl⟩⟩
    exact List.ne_nil_of_mem hfirst
  · intro l hl
    obtain ⟨i, j, rfl⟩ := mem_allLines _ _ hl
    exact newline_not_mem_line _ _
  · intro l hl
    obtain ⟨i, j, rfl⟩ := mem_allLines _ _ hl
    exact line_ends _ _

/-- An empty range prints nothing. -/
theorem generate_empty {thread_lower thread_higher : ℕ} {seed_lower seed_higher : ℤ}
    (h : ¬(thread_lower ≤ thread_higher ∧ seed_lower ≤ seed_higher)) :
    generate_multithread_dma_test DMA_OP_STOP test thread_lower thread_higher seed_lower
      seed_higher = [] := by
  rw [generate_eq]
  by_cases hthreads : thread_lower ≤ thread_higher
  · have hseeds : (seed_higher + 1 - seed_lower).toNat = 0 := by
      have hlt : ¬seed_lower ≤ seed_higher := fun h' => h ⟨hthreads, h'⟩
      omega
    rw [hseeds]
    simp [allLines, linesFrom]
  · have hzero : thread_higher + 1 - thread_lower = 0 := by omega
    rw [hzero]
    rfl

/-- Without a line in the output, the consumer reads one empty line. -/
theorem build_empty {thread_lower thread_higher : ℕ} {seed_lower seed_higher : ℤ} (files : Files)
    (h : ¬(thread_lower ≤ thread_higher ∧ seed_lower ≤ seed_higher)) :
    build_multithread_tests mode thread_lower thread_higher seed_lower seed_higher files [] =
      (files, .assertionError) := by
  show build_lines mode thread_lower thread_higher seed_lower seed_higher thread_lower seed_lower
    files [[]] = _
  rw [build_lines]
  by_cases hseeds : seed_lower ≤ seed_higher
  · have hthreads : ¬(thread_lower ≤ thread_lower ∧ thread_lower ≤ thread_higher) :=
      fun h' => h ⟨h'.2, hseeds⟩
    rw [if_neg (not_not.mpr ⟨le_rfl, hseeds⟩), if_pos hthreads]
  · rw [if_pos fun h' => hseeds h'.2]

end agree

end Cheritest.MultithreadTests
