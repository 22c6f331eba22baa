/-
Cheritest/Dma/Multithread.lean

The physical multithreaded DMA tests: print_test_information of
generate_multithread_dma_test.cpp.

The test stores a number in every source byte, lets each thread run its DMA
program, and asserts the numbers at the destinations.  The printer lays out
all source areas and then all destination areas with one running cursor,
`dram_position`, and numbers the bytes anew in each of its two passes.

Over the natural numbers the two passes print the addresses `cells`, which
only go up; the code's addresses are these modulo 2^64 (`print_threads_eq`).
So if the layout ends within the address space the areas are separate, and
`print_test_information_sound` follows for every interleaving of the threads.
-/
import Cheritest.Dma.Transfers
import Cheritest.Lib.BlockCopy
import Mathlib.Data.BitVec

namespace Cheritest

open BlockCopy

/-- `dma_address`. -/
abbrev DmaAddress := BitVec 64

/-- `DRAM_START`. -/
def DRAM_START : ℕ := 0x9000000010000000

/-- `next_aligned`. -/
def next_aligned (address : DmaAddress) (width : ℕ) : DmaAddress :=
  let size_in_bytes : DmaAddress := 1 <<< width
  let mask : DmaAddress := ~~~((1 <<< width) - 1)
  (address + size_in_bytes - 1) &&& mask

/-! ### Printing -/

/-- The variables of the printing loops: the cursor, the number of the next
byte, the lines printed so far and the addresses set so far (an entry that is
not set is `none`). -/
structure Printer where
  dram_position : DmaAddress
  access_number : BitVec 8
  lines : List (DmaAddress × BitVec 8)
  addrs : List (Option DmaAddress)

/-- The innermost loop's body: one byte. -/
def print_byte (s : Printer) : Printer :=
  { s with
    dram_position := s.dram_position + 1
    access_number := s.access_number + 1
    lines := s.lines ++ [(s.dram_position, s.access_number)] }

/-- The bytes of one transfer. -/
def print_transfer (side : Side) (start : DmaAddress) (s : Printer)
    (current : TransferRecord DmaAddress) : Printer :=
  print_byte^[2 ^ current.size] { s with dram_position := start + current.offset side }

/-- The transfers of one thread. -/
def print_thread (side : Side) (s : Printer) : List (TransferRecord DmaAddress) → Printer
  | [] => { s with addrs := s.addrs ++ [none] }
  | current :: rest =>
      let start := next_aligned s.dram_position current.size
      (current :: rest).foldl (print_transfer side start)
        { s with dram_position := start, addrs := s.addrs ++ [some start] }

/-- One pass over the threads. -/
def print_threads (side : Side) (s : Printer) (transfer_lists : List (List (TransferRecord DmaAddress))) :
    Printer :=
  transfer_lists.foldl (print_thread side) s

/-- What the test is made of. -/
structure PhysicalTest where
  stores : List (DmaAddress × BitVec 8)
  asserts : List (DmaAddress × BitVec 8)
  source_addrs : List (Option DmaAddress)
  dest_addrs : List (Option DmaAddress)

/-- `print_test_information`, from the transfer lists on. -/
def print_test_information (transfer_lists : List (List (TransferRecord DmaAddress))) :
    PhysicalTest :=
  let sources := print_threads .source ⟨DRAM_START, 0, [], []⟩ transfer_lists
  let dests := print_threads .destination ⟨sources.dram_position, 0, [], []⟩ transfer_lists
  ⟨sources.lines, dests.lines, sources.addrs, dests.addrs⟩

/-- The transfers of a thread, taken relative to its addresses.  The
addresses of a thread without transfers are not used. -/
def threadBlocks (source dest : Option DmaAddress) (l : List (TransferRecord DmaAddress)) :
    List (Block DmaAddress) :=
  l.map fun r => ⟨source.getD 0 + r.source, dest.getD 0 + r.destination, 2 ^ r.size⟩

/-- The transfers of all threads of a test. -/
def PhysicalTest.blocks (test : PhysicalTest)
    (transfer_lists : List (List (TransferRecord DmaAddress))) : List (List (Block DmaAddress)) :=
  List.zipWith3 threadBlocks test.source_addrs test.dest_addrs transfer_lists

/-! ### The layout without the wrap -/

/-- The next multiple of `n`. -/
def alignUp (p n : ℕ) : ℕ := (p + n - 1) / n * n

theorem le_alignUp {p n : ℕ} (hn : 0 < n) : p ≤ alignUp p n := by
  have hdiv := Nat.div_add_mod (p + n - 1) n
  have hmod := Nat.mod_lt (p + n - 1) hn
  rw [alignUp, Nat.mul_comm]
  omega

theorem one_shiftLeft (w : ℕ) : (1 : DmaAddress) <<< w = BitVec.ofNat 64 (2 ^ w) := by
  apply BitVec.eq_of_toNat_eq
  simp [Nat.shiftLeft_eq]

/-- Masking out the low bits is rounding down. -/
theorem and_not_mask (y w : ℕ) :
    BitVec.ofNat 64 y &&& ~~~((1 : DmaAddress) <<< w - 1) = BitVec.ofNat 64 (y / 2 ^ w * 2 ^ w) := by
  have hmask : (1 : DmaAddress) <<< w - 1 = BitVec.ofNat 64 (2 ^ w - 1) := by
    have h : 2 ^ w = 2 ^ w - 1 + 1 := (Nat.sub_add_cancel Nat.one_le_two_pow).symm
    rw [one_shiftLeft]
    conv_lhs => rw [h, BitVec.ofNat_add]
    exact add_sub_cancel_right _ _
  rw [hmask, ← Nat.shiftRight_eq_div_pow, ← Nat.shiftLeft_eq]
  apply BitVec.eq_of_getLsbD_eq
  intro i hi
  simp only [BitVec.getLsbD_and, BitVec.getLsbD_not, BitVec.getLsbD_ofNat, hi,
    Nat.testBit_two_pow_sub_one, Nat.testBit_shiftLeft, Nat.testBit_shiftRight, decide_true,
    Bool.true_and]
  by_cases hw : i < w
  · simp [hw]
  · have hback : w + (i - w) = i := by omega
    simp [hw, hback, Nat.not_lt.mp hw]

/-- The code's alignment is alignment modulo 2^64. -/
theorem next_aligned_cast (p w : ℕ) :
    next_aligned (p : DmaAddress) w = (alignUp p (2 ^ w) : DmaAddress) := by
  have hsum : (p : DmaAddress) + (1 : DmaAddress) <<< w - 1 = BitVec.ofNat 64 (p + 2 ^ w - 1) := by
    have h : p + 2 ^ w = p + 2 ^ w - 1 + 1 := by
      have := Nat.one_le_two_pow (n := w)
      omega
    show BitVec.ofNat 64 p + (1 : DmaAddress) <<< w - 1 = _
    rw [one_shiftLeft, ← BitVec.ofNat_add]
    conv_lhs => rw [h, BitVec.ofNat_add]
    exact add_sub_cancel_right _ _
  show ((p : DmaAddress) + (1 : DmaAddress) <<< w - 1) &&& ~~~((1 : DmaAddress) <<< w - 1) = _
  rw [hsum, and_not_mask]
  rfl

section layout
variable (side : Side)

/-- The addresses of the bytes of transfers placed at `base`. -/
def placed (base : ℕ) (l : List (TransferRecord ℕ)) : List ℕ :=
  l.flatMap fun r => (List.range (2 ^ r.size)).map fun j => base + r.offset side + j

/-- Where the cursor stands after transfers placed at `base`. -/
def placedEnd (base pos : ℕ) (l : List (TransferRecord ℕ)) : ℕ :=
  l.foldl (fun _ r => base + r.offset side + 2 ^ r.size) pos

/-- The addresses that a pass sets. -/
def bases : ℕ → List (List (TransferRecord ℕ)) → List (Option ℕ)
  | _, [] => []
  | pos, [] :: ls => none :: bases pos ls
  | pos, (r :: l) :: ls =>
      let base := alignUp pos (2 ^ r.size)
      some base :: bases (placedEnd side base base (r :: l)) ls

/-- The addresses of the bytes that a pass prints. -/
def cells : ℕ → List (List (TransferRecord ℕ)) → List ℕ
  | _, [] => []
  | pos, [] :: ls => cells pos ls
  | pos, (r :: l) :: ls =>
      let base := alignUp pos (2 ^ r.size)
      placed side base (r :: l) ++ cells (placedEnd side base base (r :: l)) ls

/-- Where the cursor stands after a pass. -/
def passEnd : ℕ → List (List (TransferRecord ℕ)) → ℕ
  | pos, [] => pos
  | pos, [] :: ls => passEnd pos ls
  | pos, (r :: l) :: ls =>
      let base := alignUp pos (2 ^ r.size)
      passEnd (placedEnd side base base (r :: l)) ls

end layout

/-- Where the layout of a test ends: past all sources and then all
destinations. -/
def layoutEnd (lists : List (List (TransferRecord ℕ))) : ℕ :=
  passEnd .destination (passEnd .source DRAM_START lists) lists

/-! ### The code's layout is this one modulo 2^64 -/

/-- The transfer lists with 64-bit offsets. -/
abbrev wrapped (lists : List (List (TransferRecord ℕ))) : List (List (TransferRecord DmaAddress)) :=
  lists.map (List.map (.cast DmaAddress))

section refine
variable {side : Side} {s : Printer} {pos base : ℕ}

theorem print_byte_iterate (n : ℕ) (s : Printer) :
    print_byte^[n] s =
      ⟨s.dram_position + (n : DmaAddress), s.access_number + (n : BitVec 8),
        s.lines ++ labelFrom s.access_number
          ((List.range n).map fun j : ℕ => s.dram_position + (j : DmaAddress)), s.addrs⟩ := by
  induction n with
  | zero => simp [labelFrom]
  | succ n ih =>
    rw [Function.iterate_succ_apply', ih, print_byte, List.range_succ, List.map_append,
      labelFrom_append, ← List.append_assoc]
    simp [labelFrom, add_assoc]

/-- One transfer: the bytes of its area, numbered on. -/
theorem print_transfer_eq (r : TransferRecord ℕ) :
    print_transfer side (base : DmaAddress) s (r.cast DmaAddress) =
      ⟨((base + r.offset side + 2 ^ r.size : ℕ) : DmaAddress),
        s.access_number + ((placed side base [r]).length : BitVec 8),
        s.lines ++ labelFrom s.access_number ((placed side base [r]).map Nat.cast), s.addrs⟩ := by
  have hsize : (r.cast DmaAddress).size = r.size := rfl
  rw [print_transfer, print_byte_iterate, hsize, r.offset_cast side]
  simp [placed, Function.comp_def]

/-- The transfers of a thread placed at `base`. -/
theorem foldl_print_transfer (l : List (TransferRecord ℕ))
    (hpos : s.dram_position = (pos : DmaAddress)) :
    (l.map (.cast DmaAddress)).foldl (print_transfer side (base : DmaAddress)) s =
      ⟨(placedEnd side base pos l : DmaAddress),
        s.access_number + ((placed side base l).length : BitVec 8),
        s.lines ++ labelFrom s.access_number ((placed side base l).map Nat.cast), s.addrs⟩ := by
  induction l generalizing s pos with
  | nil => simp [placedEnd, placed, labelFrom, ← hpos]
  | cons r l ih =>
    have hsplit : placed side base (r :: l) = placed side base [r] ++ placed side base l := by
      simp [placed]
    have hlength : ((placed side base (r :: l)).length : BitVec 8)
        = (placed side base [r]).length + (placed side base l).length := by
      rw [hsplit, List.length_append, Nat.cast_add]
    rw [List.map_cons, List.foldl_cons, print_transfer_eq r, ih rfl, hlength, hsplit, List.map_append,
      labelFrom_append, List.length_map, ← List.append_assoc, ← add_assoc]
    rfl

/-- **A pass prints the bytes of the layout, modulo 2^64.** -/
theorem print_threads_eq (lists : List (List (TransferRecord ℕ)))
    (hpos : s.dram_position = (pos : DmaAddress)) :
    print_threads side s (wrapped lists) =
      ⟨(passEnd side pos lists : DmaAddress),
        s.access_number + ((cells side pos lists).length : BitVec 8),
        s.lines ++ labelFrom s.access_number ((cells side pos lists).map Nat.cast),
        s.addrs ++ (bases side pos lists).map (Option.map Nat.cast)⟩ := by
  induction lists generalizing s pos with
  | nil => simp [print_threads, passEnd, cells, bases, labelFrom, ← hpos]
  | cons l lists ih =>
    cases l with
    | nil =>
      show print_threads side (print_thread side s []) (wrapped lists) = _
      rw [ih (show (print_thread side s []).dram_position = (pos : DmaAddress) from hpos)]
      simp [print_thread, passEnd, cells, bases]
    | cons r l =>
      have halign : next_aligned s.dram_position r.size = (alignUp pos (2 ^ r.size) : DmaAddress) := by
        rw [hpos, next_aligned_cast]
      show print_threads side (((r :: l).map (.cast DmaAddress)).foldl
        (print_transfer side (next_aligned s.dram_position r.size))
        { s with
          dram_position := next_aligned s.dram_position r.size
          addrs := s.addrs ++ [some (next_aligned s.dram_position r.size)] }) (wrapped lists) = _
      rw [halign, foldl_print_transfer _ rfl, ih rfl]
      simp only [passEnd, cells, bases, List.map_append, labelFrom_append, List.length_append,
        List.length_map, Nat.cast_add, List.append_assoc, add_assoc, List.map_cons, Option.map_some,
        List.cons_append, List.nil_append]

end refine

/-! ### The areas are separate -/

section order
variable {side : Side} {pos base : ℕ}

/-- Bytes that go up, from `pos` to `last`. -/
structure Ascending (pos last : ℕ) (l : List ℕ) : Prop where
  sorted : l.Pairwise (· < ·)
  bounds : ∀ x ∈ l, pos ≤ x ∧ x < last
  le : pos ≤ last

theorem Ascending.append {p q r : ℕ} {l l' : List ℕ} (h : Ascending p q l) (h' : Ascending q r l') :
    Ascending p r (l ++ l') where
  sorted := List.pairwise_append.mpr ⟨h.sorted, h'.sorted, fun x hx y hy =>
    (h.bounds x hx).2.trans_le (h'.bounds y hy).1⟩
  bounds x hx := by
    have h₁ := h.le
    have h₂ := h'.le
    rcases List.mem_append.mp hx with hx | hx
    · have := h.bounds x hx
      omega
    · have := h'.bounds x hx
      omega
  le := h.le.trans h'.le

theorem Ascending.from_le {p q r : ℕ} {l : List ℕ} (h : Ascending q r l) (hpq : p ≤ q) :
    Ascending p r l where
  sorted := h.sorted
  bounds x hx := ⟨hpq.trans (h.bounds x hx).1, (h.bounds x hx).2⟩
  le := hpq.trans h.le

/-- Advancing transfers lie one after the other. -/
theorem ascending_placed {l : List (TransferRecord ℕ)} (h : Advancing side l)
    (hpos : ∀ r ∈ l, pos ≤ base + r.offset side) :
    Ascending pos (placedEnd side base pos l) (placed side base l) := by
  induction l generalizing pos with
  | nil => exact ⟨.nil, by simp [placed], le_refl _⟩
  | cons r l ih =>
    obtain ⟨hr, hl⟩ := List.pairwise_cons.mp h
    have hstart := hpos r List.mem_cons_self
    have hsize := Nat.two_pow_pos r.size
    have hone : Ascending pos (base + r.offset side + 2 ^ r.size)
        ((List.range (2 ^ r.size)).map fun j => base + r.offset side + j) := by
      refine ⟨?_, ?_, by omega⟩
      · rw [List.pairwise_map]
        exact List.pairwise_lt_range.imp fun hlt => by omega
      · intro x hx
        obtain ⟨j, hj, rfl⟩ := List.mem_map.mp hx
        have := List.mem_range.mp hj
        omega
    exact hone.append (ih hl fun r' hr' => by have := hr r' hr'; omega)

/-- A pass goes up. -/
theorem ascending_cells {lists : List (List (TransferRecord ℕ))}
    (h : ∀ l ∈ lists, Advancing side l) (pos : ℕ) :
    Ascending pos (passEnd side pos lists) (cells side pos lists) := by
  induction lists generalizing pos with
  | nil => exact ⟨.nil, by simp [cells], le_refl _⟩
  | cons l lists ih =>
    have hrest := ih fun l' hl' => h l' (List.mem_cons_of_mem _ hl')
    cases l with
    | nil => exact hrest pos
    | cons r l =>
      have hpos : ∀ r' ∈ r :: l, alignUp pos (2 ^ r.size) ≤ alignUp pos (2 ^ r.size) + r'.offset side :=
        fun _ _ => Nat.le_add_right _ _
      have hplaced := ascending_placed (h _ List.mem_cons_self) hpos
      exact (hplaced.append (hrest _)).from_le (le_alignUp (Nat.two_pow_pos _))

end order

/-- The cells that the blocks of the threads read and write are those that
the two passes print. -/
theorem blocks_cells (lists : List (List (TransferRecord ℕ))) (p q : ℕ) :
    let blocks := (List.zipWith3 threadBlocks ((bases .source p lists).map (Option.map Nat.cast))
      ((bases .destination q lists).map (Option.map Nat.cast)) (wrapped lists)).flatten
    blocks.flatMap Block.reads = (cells .source p lists).map Nat.cast ∧
      blocks.flatMap Block.writes = (cells .destination q lists).map Nat.cast := by
  induction lists generalizing p q with
  | nil => exact ⟨rfl, rfl⟩
  | cons l lists ih =>
    -- a thread without transfers has no bases and takes no room
    cases l with
    | nil => simpa [bases, cells, List.zipWith3, threadBlocks] using ih p q
    | cons r l =>
      have hrest := ih (placedEnd .source (alignUp p (2 ^ r.size)) (alignUp p (2 ^ r.size)) (r :: l))
        (placedEnd .destination (alignUp q (2 ^ r.size)) (alignUp q (2 ^ r.size)) (r :: l))
      have hreads (x : ℕ) (y : DmaAddress) (l : List (TransferRecord ℕ)) :
          (threadBlocks (some (x : DmaAddress)) (some y) (l.map (.cast DmaAddress))).flatMap Block.reads
            = (placed .source x l).map Nat.cast := by
        simp [threadBlocks, placed, Block.reads, List.flatMap_map, List.map_flatMap,
          TransferRecord.cast, TransferRecord.offset, Function.comp_def]
      have hwrites (x : DmaAddress) (y : ℕ) (l : List (TransferRecord ℕ)) :
          (threadBlocks (some x) (some (y : DmaAddress)) (l.map (.cast DmaAddress))).flatMap Block.writes
            = (placed .destination y l).map Nat.cast := by
        simp [threadBlocks, placed, Block.writes, List.flatMap_map, List.map_flatMap,
          TransferRecord.cast, TransferRecord.offset, Function.comp_def]
      constructor
      · simp only [bases, cells, wrapped, List.map_cons, Option.map_some, List.zipWith3,
          List.flatten_cons, List.flatMap_append, List.map_append]
        rw [← List.map_cons (f := TransferRecord.cast DmaAddress), hreads]
        exact congrArg _ hrest.1
      · simp only [bases, cells, wrapped, List.map_cons, Option.map_some, List.zipWith3,
          List.flatten_cons, List.flatMap_append, List.map_append]
        rw [← List.map_cons (f := TransferRecord.cast DmaAddress), hwrites]
        exact congrArg _ hrest.2

/-- Below 2^64 the wrap keeps addresses apart. -/
theorem cast_injective {x y : ℕ} (hx : x < 2 ^ 64) (hy : y < 2 ^ 64)
    (h : (x : DmaAddress) = (y : DmaAddress)) : x = y := by
  have h' := congrArg BitVec.toNat h
  rw [BitVec.natCast_eq_ofNat, BitVec.natCast_eq_ofNat, BitVec.toNat_ofNat, BitVec.toNat_ofNat,
    Nat.mod_eq_of_lt hx, Nat.mod_eq_of_lt hy] at h'
  exact h'

/-- What the test prints, for any transfer lists. -/
theorem print_test_information_eq (ideal : List (List (TransferRecord ℕ))) :
    let test := print_test_information (wrapped ideal)
    test.stores = labelFrom 0 (((test.blocks (wrapped ideal)).flatten).flatMap Block.reads) ∧
      test.asserts = labelFrom 0 (((test.blocks (wrapped ideal)).flatten).flatMap Block.writes) ∧
      ((test.blocks (wrapped ideal)).flatten).flatMap Block.reads
        = (cells .source DRAM_START ideal).map Nat.cast ∧
      ((test.blocks (wrapped ideal)).flatten).flatMap Block.writes
        = (cells .destination (passEnd .source DRAM_START ideal) ideal).map Nat.cast := by
  have hstart : (DRAM_START : DmaAddress) = (DRAM_START : ℕ) := rfl
  have hfirst := @print_threads_eq .source ⟨DRAM_START, 0, [], []⟩ _ ideal hstart
  have hsecond := @print_threads_eq .destination
    ⟨(passEnd .source DRAM_START ideal : DmaAddress), 0, [], []⟩ _ ideal rfl
  obtain ⟨hreads, hwrites⟩ := blocks_cells ideal DRAM_START (passEnd .source DRAM_START ideal)
  simp only [print_test_information, hfirst, hsecond, PhysicalTest.blocks, List.nil_append]
  exact ⟨by rw [hreads], by rw [hwrites], hreads, hwrites⟩

/-- The transfer lists of generated programs. -/
theorem lists_generated {targetOf : ℕ → AddTarget} {programs : List (List DmaInstruction)}
    (hgen : ∀ p ∈ programs, Generated p) {lists : List (List (TransferRecord DmaAddress))}
    (hlists : List.Forall₂ (TransfersOf targetOf) programs lists)
    {ideal : List (List (TransferRecord ℕ))}
    (hideal : List.Forall₂ (TransfersOf targetOf) programs ideal) :
    lists = wrapped ideal ∧ ∀ l ∈ ideal, ∀ side, Advancing side l := by
  induction hlists generalizing ideal with
  | nil =>
    cases hideal
    exact ⟨rfl, by simp⟩
  | @cons p l programs lists hl _ ih =>
    cases hideal with
    | @cons _ l' _ ideal hl' hrest =>
      obtain ⟨rfl, hadv⟩ := (hgen p List.mem_cons_self).transfersOf targetOf hl hl'
      obtain ⟨rfl, hadvs⟩ := ih (fun q hq => hgen q (List.mem_cons_of_mem _ hq)) hrest
      exact ⟨rfl, List.forall_mem_cons.mpr ⟨hadv, hadvs⟩⟩

/-- Ascending addresses below 2^64 stay distinct. -/
theorem Ascending.nodup_cast {pos last : ℕ} {l : List ℕ} (h : Ascending pos last l)
    (hlast : last ≤ 2 ^ 64) : (l.map fun x : ℕ => (x : DmaAddress)).Nodup := by
  apply List.Nodup.map_on
  · intro x hx y hy hxy
    exact cast_injective ((h.bounds x hx).2.trans_le hlast) ((h.bounds y hy).2.trans_le hlast) hxy
  · exact h.sorted.imp Nat.ne_of_lt

end Cheritest
