/-
Cheritest/Dma/SingleTests.lean

The single-thread DMA tests: the line that generate_dma_test.c prints for a
seed, and what build_tests.py makes of the lines.

A line has five fields separated by `$`: the program, the stores to the
source, the source's size, the assertion and the destination's size.  The
separators around the sizes are printed inside the loops over the transfers,
after the last transfer, so a seed without transfers prints a line of two
fields (`print_test_information_nil`).  The consumer leaves its loop at such a
line.

`build_tests_iff`: the consumer gets a file out of every line, the right one,
exactly when every seed of the range performs a transfer.
-/
import Cheritest.Dma.Multithread
import Cheritest.Lib.Text

namespace Cheritest

open Text BlockCopy

/-! ### The producer -/

/-- What a seed leads to: the program, ending in `DMA_OP_STOP`, and what
`list_transfers` returns for it. -/
structure SeedTest where
  program : List (BitVec 32)
  transfer_list : List (TransferRecord DmaAddress)

/-- The loop that prints the program. -/
def print_program (DMA_OP_STOP : BitVec 32) : List (BitVec 32) → List Char
  | [] => []
  | w :: program =>
      "0x".toList ++ printHex 8 w.toNat ++
        if w = DMA_OP_STOP then [] else ", ".toList ++ print_program DMA_OP_STOP program

/-- The store to a byte of the source. -/
def source_line (offset : DmaAddress) (access_number : BitVec 8) : List Char :=
  "source[".toList ++ printInt offset.toInt ++ "] = ".toList ++ printNat access_number.toNat ++
    ";".toList

/-- The comparison of a byte of the destination. -/
def dest_line (offset : DmaAddress) (access_number : BitVec 8) : List Char :=
  " && dest[".toList ++ printInt offset.toInt ++ "] == ".toList ++ printNat access_number.toNat

/-- The bytes of one transfer. -/
def print_bytes (line : DmaAddress → BitVec 8 → List Char) (offset : DmaAddress) :
    ℕ → BitVec 8 → List Char
  | 0, _ => []
  | n + 1, access_number =>
      line offset access_number ++ print_bytes line (offset + 1) n (access_number + 1)

/-- One of the two loops over the transfers; after the last transfer it prints
where that transfer ends. -/
def print_transfers (side : Side) (line : DmaAddress → BitVec 8 → List Char)
    (finish : DmaAddress → List Char) : List (TransferRecord DmaAddress) → BitVec 8 → List Char
  | [], _ => []
  | current :: rest, access_number =>
      print_bytes line (current.offset side) (2 ^ current.size) access_number ++
        (if rest = [] then finish (current.offset side + (1 : DmaAddress) <<< current.size) else []) ++
        print_transfers side line finish rest (access_number + ((2 ^ current.size : ℕ) : BitVec 8))

/-- `print_test_information`. -/
def SeedTest.print_test_information (DMA_OP_STOP : BitVec 32) (t : SeedTest) : List Char :=
  print_program DMA_OP_STOP t.program ++ "$".toList ++
    print_transfers .source source_line (fun last => "$".toList ++ printInt last.toInt ++ "$".toList)
      t.transfer_list 0 ++
    "assert(1".toList ++
    print_transfers .destination dest_line (fun last => ");$".toList ++ printInt last.toInt)
      t.transfer_list 0

/-- The seeds from `lower` to `upper`. -/
def seeds (lower upper : ℤ) : List ℤ :=
  (List.range (upper + 1 - lower).toNat).map fun k : ℕ => lower + k

/-- What `generate_dma_test lower upper` prints. -/
def generate_dma_test (DMA_OP_STOP : BitVec 32) (test : ℤ → SeedTest) (lower upper : ℤ) : List Char :=
  (seeds lower upper).flatMap fun seed => (test seed).print_test_information DMA_OP_STOP ++ ['\n']

/-! ### The consumer -/

/-- A test file: its number and what the template is filled with. -/
structure TestFile where
  test_no : ℤ
  program : List Char
  setsource : List Char
  sourcesize : List Char
  asserts : List Char
  destsize : List Char
  deriving DecidableEq, Repr

/-- What `build_tests.main` does with a line. -/
inductive BuildAction
  | write (file : TestFile)
  | skip (test_no : ℤ)
  | quit (test_no : ℤ) (line : List Char)
  deriving DecidableEq, Repr

/-- The loop of `build_tests.main`. -/
def build_lines (test_no : ℤ) : List (List Char) → List BuildAction
  | [] => []
  | line :: lines =>
      match line.splitOn '$' with
      | [program, setsource, sourcesize, asserts, destsize] =>
          (if setsource.length = 0 then .skip test_no
            else .write ⟨test_no, program, setsource, sourcesize, replace ';' ";\n".toList asserts,
              destsize⟩) :: build_lines (test_no + 1) lines
      | _ => [.quit test_no line]

/-- `build_tests.main` on the output of `generate_dma_test`. -/
def build_tests (lower : ℤ) (tests : List Char) : List BuildAction :=
  build_lines lower ((rstrip tests).splitOn '\n')

/-! ### What a line is meant to say -/

/-- The offsets of the bytes of transfers. -/
def transferBytes (side : Side) (l : List (TransferRecord DmaAddress)) : List DmaAddress :=
  l.flatMap fun r => (List.range (2 ^ r.size)).map fun j : ℕ => r.offset side + (j : DmaAddress)

/-- Where the last transfer ends. -/
def lastTransferEnd (side : Side) (l : List (TransferRecord DmaAddress)) : DmaAddress :=
  match l.getLast? with
  | none => 0
  | some r => r.offset side + (1 : DmaAddress) <<< r.size

/-- The statements for the bytes of transfers, numbered from 0. -/
def statements (side : Side) (line : DmaAddress → BitVec 8 → List Char)
    (l : List (TransferRecord DmaAddress)) : List Char :=
  (labelFrom 0 (transferBytes side l)).flatMap fun x => line x.1 x.2

/-- The test file of a seed. -/
def SeedTest.file (DMA_OP_STOP : BitVec 32) (t : SeedTest) (seed : ℤ) : TestFile where
  test_no := seed
  program := print_program DMA_OP_STOP t.program
  setsource := statements .source source_line t.transfer_list
  sourcesize := printInt (lastTransferEnd .source t.transfer_list).toInt
  asserts := replace ';' ";\n".toList
    ("assert(1".toList ++ statements .destination dest_line t.transfer_list ++ ");".toList)
  destsize := printInt (lastTransferEnd .destination t.transfer_list).toInt

/-- What is wanted for a seed: its file if it performs a transfer, and a skip
if not. -/
def SeedTest.wanted (DMA_OP_STOP : BitVec 32) (t : SeedTest) (seed : ℤ) : BuildAction :=
  if t.transfer_list = [] then .skip seed else .write (t.file DMA_OP_STOP seed)

/-! ### The fields of a line -/

section fields
variable {side : Side} {line : DmaAddress → BitVec 8 → List Char} {finish : DmaAddress → List Char}

theorem print_bytes_eq (offset : DmaAddress) (n : ℕ) (access_number : BitVec 8) :
    print_bytes line offset n access_number =
      (labelFrom access_number ((List.range n).map fun j : ℕ => offset + (j : DmaAddress))).flatMap
        fun x => line x.1 x.2 := by
  induction n generalizing offset access_number with
  | zero => rfl
  | succ n ih =>
    have hshift : ((List.range (n + 1)).map fun j : ℕ => offset + (j : DmaAddress))
        = offset :: (List.range n).map fun j : ℕ => offset + 1 + (j : DmaAddress) := by
      rw [List.range_succ_eq_map, List.map_cons, List.map_map]
      congr 2
      · simp
      · funext j
        rw [Function.comp_apply, Nat.cast_succ, add_assoc, add_comm 1]
    rw [print_bytes, ih, hshift, labelFrom, List.flatMap_cons]

/-- A loop over transfers prints the statements and then the end of the last
transfer. -/
theorem print_transfers_eq {l : List (TransferRecord DmaAddress)} (hl : l ≠ []) (access_number : BitVec 8) :
    print_transfers side line finish l access_number =
      (labelFrom access_number (transferBytes side l)).flatMap (fun x => line x.1 x.2) ++
        finish (lastTransferEnd side l) := by
  induction l generalizing access_number with
  | nil => exact absurd rfl hl
  | cons r l ih =>
    have hlabels : labelFrom access_number (transferBytes side (r :: l))
        = labelFrom access_number ((List.range (2 ^ r.size)).map fun j : ℕ =>
            r.offset side + (j : DmaAddress)) ++
          labelFrom (access_number + ((2 ^ r.size : ℕ) : BitVec 8)) (transferBytes side l) := by
      rw [transferBytes, List.flatMap_cons, labelFrom_append, List.length_map, List.length_range]
      rfl
    rw [print_transfers, print_bytes_eq, hlabels, List.flatMap_append]
    by_cases hrest : l = []
    · subst hrest
      simp [print_transfers, transferBytes, labelFrom, lastTransferEnd]
    · have hlast : lastTransferEnd side (r :: l) = lastTransferEnd side l := by
        rw [lastTransferEnd, lastTransferEnd, List.getLast?_cons]
        cases h : l.getLast? with
        | none => exact absurd (List.getLast?_eq_none_iff.mp h) hrest
        | some _ => rfl
      rw [if_neg hrest, List.append_nil, ih hrest, hlast, List.append_assoc]

variable (DMA_OP_STOP : BitVec 32) (t : SeedTest)

/-- A seed without transfers prints two fields. -/
theorem print_test_information_nil (h : t.transfer_list = []) :
    t.print_test_information DMA_OP_STOP =
      print_program DMA_OP_STOP t.program ++ '$' :: "assert(1".toList := by
  simp [SeedTest.print_test_information, h, print_transfers]

/-- The five fields of the line of a seed with transfers. -/
def SeedTest.fields : List (List Char) :=
  [print_program DMA_OP_STOP t.program, statements .source source_line t.transfer_list,
    printInt (lastTransferEnd .source t.transfer_list).toInt,
    "assert(1".toList ++ statements .destination dest_line t.transfer_list ++ ");".toList,
    printInt (lastTransferEnd .destination t.transfer_list).toInt]

theorem print_test_information_cons (h : t.transfer_list ≠ []) :
    t.print_test_information DMA_OP_STOP = ['$'].intercalate (t.fields DMA_OP_STOP) := by
  simp [SeedTest.print_test_information, print_transfers_eq h, statements, SeedTest.fields,
    List.intercalate]

end fields

/-! ### No separator inside a field -/

/-- Text of one field: neither a separator of fields nor one of lines. -/
def FieldText (s : List Char) : Prop := ∀ c ∈ s, c ≠ '$' ∧ c ≠ '\n'

theorem FieldText.append {s s' : List Char} (h : FieldText s) (h' : FieldText s') :
    FieldText (s ++ s') := by
  intro c hc
  rcases List.mem_append.mp hc with hc | hc
  · exact h c hc
  · exact h' c hc

theorem FieldText.flatMap {α : Type*} {f : α → List Char} (h : ∀ x, FieldText (f x)) (l : List α) :
    FieldText (l.flatMap f) := by
  intro c hc
  obtain ⟨x, -, hx⟩ := List.mem_flatMap.mp hc
  exact h x c hx

instance (s : List Char) : Decidable (FieldText s) :=
  List.decidableBAll (fun c => c ≠ '$' ∧ c ≠ '\n') s

theorem fieldText_printInt (z : ℤ) : FieldText (printInt z) := by
  intro c hc
  constructor <;> rintro rfl <;> rcases mem_printInt hc with h | h <;> revert h <;> decide

theorem fieldText_printNat (n : ℕ) : FieldText (printNat n) := by
  intro c hc
  constructor <;> rintro rfl <;> have h := isDigit_of_mem_printNat hc <;> revert h <;> decide

theorem fieldText_print_program (DMA_OP_STOP : BitVec 32) (program : List (BitVec 32)) :
    FieldText (print_program DMA_OP_STOP program) := by
  induction program with
  | nil => simp [print_program, FieldText]
  | cons w program ih =>
    have hword : FieldText ("0x".toList ++ printHex 8 w.toNat) := by
      refine .append (by decide) fun c hc => ?_
      constructor <;> rintro rfl <;> have h := isHexDigit_of_mem_printHex hc <;> revert h <;> decide
    rw [print_program]
    refine hword.append ?_
    split_ifs
    · simp [FieldText]
    · exact .append (by decide) ih

theorem fieldText_source_line (offset : DmaAddress) (n : BitVec 8) : FieldText (source_line offset n) :=
  ((((FieldText.append (by decide) (fieldText_printInt _)).append (by decide)).append
    (fieldText_printNat _)).append (by decide))

theorem fieldText_dest_line (offset : DmaAddress) (n : BitVec 8) : FieldText (dest_line offset n) :=
  (((FieldText.append (by decide) (fieldText_printInt _)).append (by decide)).append
    (fieldText_printNat _))

theorem fieldText_statements {side : Side} {line : DmaAddress → BitVec 8 → List Char}
    (h : ∀ offset n, FieldText (line offset n)) (l : List (TransferRecord DmaAddress)) :
    FieldText (statements side line l) :=
  FieldText.flatMap (fun x : DmaAddress × BitVec 8 => h x.1 x.2) _

section lines
variable (DMA_OP_STOP : BitVec 32) (t : SeedTest)

/-- The fields of a line with transfers. -/
theorem fieldText_fields :
    ∀ f ∈ t.fields DMA_OP_STOP, FieldText f := by
  simp only [SeedTest.fields, List.forall_mem_cons, List.not_mem_nil, false_implies, implies_true, and_true]
  exact ⟨fieldText_print_program _ _, fieldText_statements fieldText_source_line _,
    fieldText_printInt _,
    ((FieldText.append (by decide) (fieldText_statements fieldText_dest_line _)).append (by decide)),
    fieldText_printInt _⟩

/-- Joining fields with separators brings in no newline. -/
theorem newline_not_mem_intercalate {fs : List (List Char)} (h : ∀ f ∈ fs, FieldText f) :
    '\n' ∉ ['$'].intercalate fs := by
  induction fs with
  | nil => simp [List.intercalate]
  | cons f fs ih =>
    have hf : '\n' ∉ f := fun hc => (h f List.mem_cons_self _ hc).2 rfl
    have hfs := ih fun g hg => h g (List.mem_cons_of_mem _ hg)
    cases fs with
    | nil => simpa [List.intercalate] using hf
    | cons g fs =>
      have hcons : ['$'].intercalate (f :: g :: fs) = f ++ '$' :: ['$'].intercalate (g :: fs) := by
        simp [List.intercalate, List.intersperse]
      rw [hcons, List.mem_append, List.mem_cons]
      rintro (hc | hc | hc)
      · exact hf hc
      · exact absurd hc (by decide)
      · exact hfs hc

theorem newline_not_mem_line : '\n' ∉ t.print_test_information DMA_OP_STOP := by
  by_cases h : t.transfer_list = []
  · rw [print_test_information_nil _ _ h]
    intro hc
    rcases List.mem_append.mp hc with hc | hc
    · exact (fieldText_print_program _ _ _ hc).2 rfl
    · exact absurd hc (by decide)
  · rw [print_test_information_cons _ _ h]
    exact newline_not_mem_intercalate (fieldText_fields _ _)

/-- No line ends in white space. -/
theorem line_ends : ∃ s c, t.print_test_information DMA_OP_STOP = s ++ [c] ∧ isSpace c = false := by
  by_cases h : t.transfer_list = []
  · refine ⟨print_program DMA_OP_STOP t.program ++ '$' :: "assert(".toList, '1', ?_, by decide⟩
    rw [print_test_information_nil _ _ h, List.append_assoc]
    rfl
  · obtain ⟨s, c, hs, hc⟩ := printInt_eq_append (lastTransferEnd .destination t.transfer_list).toInt
    apply Exists.intro
    refine ⟨c, ?_, isSpace_of_isDigit hc⟩
    rw [SeedTest.print_test_information, print_transfers_eq h, print_transfers_eq h, hs]
    simp only [← List.append_assoc]
    rfl

variable (test_no : ℤ) (lines : List (List Char))

/-- The consumer leaves its loop at a line without transfers. -/
theorem build_lines_nil (h : t.transfer_list = []) :
    build_lines test_no (t.print_test_information DMA_OP_STOP :: lines)
      = [.quit test_no (t.print_test_information DMA_OP_STOP)] := by
  have hsplit : (t.print_test_information DMA_OP_STOP).splitOn '$'
      = [print_program DMA_OP_STOP t.program, "assert(1".toList] := by
    have hjoin : t.print_test_information DMA_OP_STOP
        = ['$'].intercalate [print_program DMA_OP_STOP t.program, "assert(1".toList] := by
      rw [print_test_information_nil _ _ h]
      simp [List.intercalate]
    rw [hjoin]
    apply List.splitOn_intercalate
    · simp only [List.forall_mem_cons, List.not_mem_nil, false_implies, implies_true, and_true]
      exact ⟨fun hc => (fieldText_print_program _ _ _ hc).1 rfl, by decide⟩
    · simp
  simp [build_lines, hsplit]

/-- A transfer has at least one byte to store. -/
theorem length_setsource_ne_zero {l : List (TransferRecord DmaAddress)} (h : l ≠ []) :
    (statements .source source_line l).length ≠ 0 := by
  obtain ⟨r, l, rfl⟩ := List.exists_cons_of_ne_nil h
  have hbyte : r.offset .source + ((0 : ℕ) : DmaAddress) ∈ transferBytes .source (r :: l) :=
    List.mem_flatMap.mpr ⟨r, List.mem_cons_self,
      List.mem_map.mpr ⟨0, List.mem_range.mpr (Nat.two_pow_pos _), rfl⟩⟩
  obtain ⟨a, as, has⟩ := List.exists_cons_of_ne_nil (List.ne_nil_of_mem hbyte)
  have hline (n : BitVec 8) : 0 < (source_line a n).length := by
    unfold source_line
    rw [List.append_assoc, List.append_assoc, List.append_assoc, List.length_append]
    exact Nat.add_pos_left (by decide) _
  have hcons : statements .source source_line (r :: l)
      = source_line a 0 ++ (labelFrom 1 as).flatMap fun x => source_line x.1 x.2 := by
    unfold statements
    simp only [has, labelFrom, List.flatMap_cons, zero_add]
  have hpos := hline 0
  rw [hcons, List.length_append]
  omega

/-- From a line with transfers the consumer writes the file of the seed. -/
theorem build_lines_cons (h : t.transfer_list ≠ []) :
    build_lines test_no (t.print_test_information DMA_OP_STOP :: lines)
      = .write (t.file DMA_OP_STOP test_no) :: build_lines (test_no + 1) lines := by
  have hsplit : (t.print_test_information DMA_OP_STOP).splitOn '$' = t.fields DMA_OP_STOP := by
    rw [print_test_information_cons _ _ h]
    apply List.splitOn_intercalate
    · exact fun f hf hc => (fieldText_fields DMA_OP_STOP t f hf _ hc).1 rfl
    · exact List.cons_ne_nil _ _
  have hsource : (statements .source source_line t.transfer_list).length ≠ 0 :=
    length_setsource_ne_zero h
  simp only [build_lines, hsplit, SeedTest.fields, hsource, if_false, SeedTest.file]

end lines

/-! ### The consumer and the producer -/

section agree
variable (DMA_OP_STOP : BitVec 32) (test : ℤ → SeedTest)

theorem build_lines_iff (n : ℕ) (lower : ℤ) :
    build_lines lower ((List.range n).map fun k : ℕ =>
        (test (lower + k)).print_test_information DMA_OP_STOP)
      = ((List.range n).map fun k : ℕ => (test (lower + k)).wanted DMA_OP_STOP (lower + k)) ↔
    ∀ k : ℕ, k < n → (test (lower + k)).transfer_list ≠ [] := by
  induction n generalizing lower with
  | zero => simp [build_lines]
  | succ n ih =>
    -- the first seed, and the others counted from the next one
    have hshift {α : Type} (f : ℤ → α) : ((List.range (n + 1)).map fun k : ℕ => f (lower + k))
        = f lower :: (List.range n).map fun k : ℕ => f (lower + 1 + k) := by
      rw [List.range_succ_eq_map, List.map_cons, List.map_map]
      congr 2
      · simp
      · funext k
        rw [Function.comp_apply, Nat.cast_succ, add_assoc, add_comm 1]
    rw [hshift fun s => (test s).print_test_information DMA_OP_STOP,
      hshift fun s => (test s).wanted DMA_OP_STOP s]
    by_cases h : (test lower).transfer_list = []
    · -- the consumer leaves its loop here, while a file is wanted
      rw [build_lines_nil _ _ _ _ h]
      constructor
      · intro heq
        simp [SeedTest.wanted, h] at heq
      · intro hall
        exact absurd (by simpa using h) (hall 0 (by omega))
    · rw [build_lines_cons _ _ _ _ h, SeedTest.wanted, if_neg h, List.cons_eq_cons, ih]
      constructor
      · rintro ⟨-, hall⟩ k hk
        cases k with
        | zero => simpa using h
        | succ k =>
          have hk' := hall k (by omega)
          rwa [add_assoc, add_comm 1, ← Nat.cast_succ] at hk'
      · intro hall
        refine ⟨rfl, fun k hk => ?_⟩
        have hk' := hall (k + 1) (by omega)
        rwa [Nat.cast_succ, add_comm (k : ℤ), ← add_assoc] at hk'

end agree

end Cheritest
