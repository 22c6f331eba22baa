/-
Cheritest/Dma/Overwrites.lean

The DMA never overwrites what it has written.

For a generated program, `list_transfers` returns one record for each transfer
that is executed, in their order; the offsets are multiples of the one size
and only go up.  So no byte is stored or asserted twice, and the test that
generate_dma_test.c prints holds after the transfers
(`list_transfers_never_overwrites`).

Without the wrap this holds for trees of any size.  The code's offsets have 64
bits; a program whose length is an `unsigned int` cannot make them wrap.
-/
import Cheritest.Dma.RecordList
import Cheritest.Dma.SingleTests
import Mathlib.Algebra.Order.BigOperators.Group.List
import Mathlib.Algebra.Order.Ring.Nat

namespace Cheritest

open LoopMachine (Block)
open BlockCopy (labelFrom copyAll store Interleaving Separate)

/-! ### One record for each transfer -/

/-- The size of a transfer. -/
def DmaOperation.transferSize : DmaOperation → Option ℕ
  | TRANSFER size => some size
  | ADD _ _ => none

/-- What an operation adds to an offset, at most. -/
def DmaOperation.amount : DmaOperation → ℕ
  | TRANSFER size => 2 ^ size
  | ADD _ value => value

section operations
variable {targetOf : ℕ → AddTarget} {ops : List DmaOperation}

theorem sizes_operations (t : DmaThread ℕ) :
    (dma_execute_operations targetOf ops t).recorded.map TransferRecord.size =
      t.recorded.map TransferRecord.size ++ ops.filterMap DmaOperation.transferSize := by
  induction ops generalizing t with
  | nil => exact (List.append_nil _).symm
  | cons a ops ih =>
    show (dma_execute_operations targetOf ops (dma_execute_operation targetOf a t)).recorded.map _ = _
    rw [ih]
    cases a with
    | TRANSFER size =>
      show (t.recorded ++ [_]).map TransferRecord.size ++ _ = _ ++ (size :: ops.filterMap _)
      rw [List.map_append, List.append_assoc]
      rfl
    | ADD target value => rw [recorded_add, List.filterMap_cons_none rfl]

/-- What holds of the thread between operations of one size. -/
structure DmaThread.Aligned (t : DmaThread ℕ) (ts : ℕ) : Prop where
  records : ∀ r ∈ t.recorded, r.size = ts ∧ ∀ side, 2 ^ ts ∣ r.offset side
  offset : ∀ side, 2 ^ ts ∣ t.offset side

theorem DmaThread.Aligned.operation {t : DmaThread ℕ} {ts : ℕ} {a : DmaOperation} (h : t.Aligned ts)
    (ha : a.Sized ts) : (dma_execute_operation targetOf a t).Aligned ts := by
  have hsrc := h.offset .source
  have hdst := h.offset .destination
  cases a with
  | TRANSFER size =>
    -- a transfer goes on by its own size
    obtain rfl : size = ts := ha
    constructor
    · intro r hr
      rcases List.mem_append.mp hr with hr | hr
      · exact h.records r hr
      · obtain rfl := List.mem_singleton.mp hr
        refine ⟨rfl, fun side => ?_⟩
        cases side
        · exact hsrc
        · exact hdst
    · intro side
      cases side
      · exact Nat.dvd_add hsrc (Nat.dvd_refl _)
      · exact Nat.dvd_add hdst (Nat.dvd_refl _)
  | ADD target value =>
    have hvalue : 2 ^ ts ∣ value := ha
    constructor
    · rw [recorded_add]
      exact h.records
    · intro side
      cases side <;> cases hT : targetOf target <;>
        simp only [dma_execute_operation, hT, DmaThread.offset] <;>
        first
          | exact hsrc
          | exact hdst
          | exact Nat.dvd_add hsrc hvalue
          | exact Nat.dvd_add hdst hvalue

theorem DmaThread.Aligned.operations {t : DmaThread ℕ} {ts : ℕ} (h : t.Aligned ts)
    (hops : ∀ a ∈ ops, a.Sized ts) : (dma_execute_operations targetOf ops t).Aligned ts := by
  induction ops generalizing t with
  | nil => exact h
  | cons a ops ih =>
    obtain ⟨ha, hops⟩ := List.forall_mem_cons.mp hops
    exact ih (h.operation ha) hops

/-- The offsets grow by what the operations add. -/
theorem offset_operations (t : DmaThread ℕ) (side : Side) :
    (dma_execute_operations targetOf ops t).offset side
      ≤ t.offset side + (ops.map DmaOperation.amount).sum := by
  induction ops generalizing t with
  | nil => exact le_rfl
  | cons a ops ih =>
    have hone : (dma_execute_operation targetOf a t).offset side ≤ t.offset side + a.amount := by
      cases a with
      | TRANSFER size => cases side <;> exact le_rfl
      | ADD target value =>
        cases side <;> cases hT : targetOf target <;>
          simp [dma_execute_operation, DmaThread.offset, DmaOperation.amount, hT]
    have hrest := ih (dma_execute_operation targetOf a t)
    rw [List.map_cons, List.sum_cons]
    show (dma_execute_operations targetOf ops (dma_execute_operation targetOf a t)).offset side ≤ _
    omega

end operations

/-! ### How far a generated program goes -/

/-- A loop runs its body six times at most. -/
theorem length_meaning_le (ts : ℕ) (t : DmaProgramNode) (d : Draws) :
    (dmapnBlock ts t d).1.meaning.length ≤ 6 ^ t.loopDepth * dma_program_length t := by
  induction t generalizing d with
  | DMAPNT_LOOP body ih =>
    have hbody := ih fun k => d (k + 1)
    have hcount : 1 + d 0 % 5 + 1 ≤ 6 := by omega
    calc (dmapnBlock ts (.DMAPNT_LOOP body) d).1.meaning.length
        = (1 + d 0 % 5 + 1) * (dmapnBlock ts body fun k => d (k + 1)).1.meaning.length := by
          simp [dmapnBlock, Block.meaning]
      _ ≤ 6 * (6 ^ body.loopDepth * dma_program_length body) := Nat.mul_le_mul hcount hbody
      _ = 6 ^ (body.loopDepth + 1) * dma_program_length body := by
          rw [Nat.pow_succ, Nat.mul_comm _ 6, Nat.mul_assoc]
      _ ≤ 6 ^ (body.loopDepth + 1) * (2 + dma_program_length body) :=
          Nat.mul_le_mul_left _ (Nat.le_add_left _ _)
  | DMAPNT_SEQ left right ihl ihr =>
    have hl := ihl d
    have hr := ihr (dmapnBlock ts left d).2
    have hpl : 6 ^ left.loopDepth ≤ 6 ^ max left.loopDepth right.loopDepth :=
      Nat.pow_le_pow_right (by decide) (le_max_left _ _)
    have hpr : 6 ^ right.loopDepth ≤ 6 ^ max left.loopDepth right.loopDepth :=
      Nat.pow_le_pow_right (by decide) (le_max_right _ _)
    show ((dmapnBlock ts left d).1.meaning ++ (dmapnBlock ts right _).1.meaning).length ≤ _
    rw [List.length_append, dma_program_length, Nat.mul_add]
    exact Nat.add_le_add (hl.trans (Nat.mul_le_mul_right _ hpl)) (hr.trans (Nat.mul_le_mul_right _ hpr))
  | DMAPNT_OP => exact le_rfl

theorem amount_dmapnBlock (ts : ℕ) (t : DmaProgramNode) (d : Draws) :
    ∀ a ∈ (dmapnBlock ts t d).1.meaning, a.amount ≤ 2 ^ ts * 19 := by
  induction t generalizing d with
  | DMAPNT_LOOP body ih =>
    intro a ha
    obtain ⟨l, hl, hal⟩ := List.mem_flatten.mp ha
    rw [List.eq_of_mem_replicate hl] at hal
    exact ih _ a hal
  | DMAPNT_SEQ left right ihl ihr =>
    intro a ha
    rcases List.mem_append.mp ha with h | h
    · exact ihl _ a h
    · exact ihr _ a h
  | DMAPNT_OP =>
    intro a ha
    obtain rfl := List.mem_singleton.mp ha
    show (dmapnOp ts d).1.amount ≤ _
    unfold dmapnOp
    split_ifs
    · exact Nat.le_mul_of_pos_right _ (by decide)
    · exact Nat.mul_le_mul_left _ (by omega)

/-- What a program with an `unsigned int` length adds to an offset does not
wrap. -/
theorem sum_amounts_lt {ts : ℕ} (hts : ts ≤ 5) {t : DmaProgramNode} (hdepth : t.loopDepth ≤ 4)
    (hlength : dma_program_length t < 2 ^ 32) (d : Draws) :
    ((dmapnBlock ts t d).1.meaning.map DmaOperation.amount).sum < 2 ^ 64 := by
  have hamount := amount_dmapnBlock ts t d
  have hcount := length_meaning_le ts t d
  have hsize : 2 ^ ts * 19 ≤ 608 := Nat.mul_le_mul_right 19 (Nat.pow_le_pow_right (by decide) hts)
  have hloops : 6 ^ t.loopDepth ≤ 1296 := Nat.pow_le_pow_right (by decide) hdepth
  have hops : (dmapnBlock ts t d).1.meaning.length ≤ 1296 * 2 ^ 32 :=
    hcount.trans (Nat.mul_le_mul hloops hlength.le)
  have hsum : ((dmapnBlock ts t d).1.meaning.map DmaOperation.amount).sum
      ≤ (dmapnBlock ts t d).1.meaning.length * 608 := by
    have h := List.sum_le_card_nsmul ((dmapnBlock ts t d).1.meaning.map DmaOperation.amount) 608
    rw [List.length_map] at h
    apply h
    intro x hx
    obtain ⟨a, ha, rfl⟩ := List.mem_map.mp hx
    exact (hamount a ha).trans hsize
  omega

/-! ### The test -/

section test
variable {A : Type*} [AddMonoidWithOne A]

/-- The offsets of the bytes of transfers. -/
def offsetBytes (side : Side) (l : List (TransferRecord A)) : List A :=
  l.flatMap fun r => (List.range (2 ^ r.size)).map fun j : ℕ => r.offset side + (j : A)

/-- The printed statements are about these. -/
theorem offsetBytes_eq_transferBytes (side : Side) (l : List (TransferRecord DmaAddress)) :
    offsetBytes side l = transferBytes side l := rfl

/-- The transfers between two areas. -/
def areaBlocks (source dest : A) (l : List (TransferRecord A)) : List (BlockCopy.Block A) :=
  l.map fun r => ⟨source + r.source, dest + r.destination, 2 ^ r.size⟩

/-- The printed test is sound: no byte is stored twice, and in areas without
a common byte every comparison holds once the stores and then the transfers
have been performed. -/
structure TestHolds [DecidableEq A] (l : List (TransferRecord A)) : Prop where
  stored_once : (offsetBytes .source l).Nodup
  asserts : ∀ source dest : A,
    (∀ a ∈ offsetBytes .source l, ∀ b ∈ offsetBytes .destination l, source + a ≠ dest + b) →
    ∀ m : A → BitVec 8, ∀ x ∈ labelFrom (0 : BitVec 8) (offsetBytes .destination l),
      copyAll (areaBlocks source dest l)
        (store ((labelFrom 0 (offsetBytes .source l)).map fun y => (source + y.1, y.2)) m)
        (dest + x.1) = x.2

omit [AddMonoidWithOne A] in
theorem labelFrom_map {V : Type*} [AddMonoidWithOne V] (f : A → A) (v : V) (as : List A) :
    labelFrom v (as.map f) = (labelFrom v as).map fun x => (f x.1, x.2) := by
  induction as generalizing v with
  | nil => rfl
  | cons a as ih => rw [List.map_cons, labelFrom, ih, labelFrom, List.map_cons]

theorem reads_areaBlocks (source dest : A) (l : List (TransferRecord A)) :
    (areaBlocks source dest l).flatMap BlockCopy.Block.reads
      = (offsetBytes .source l).map fun a => source + a := by
  simp [areaBlocks, offsetBytes, BlockCopy.Block.reads, List.flatMap_map, List.map_flatMap,
    Function.comp_def, TransferRecord.offset, add_assoc]

theorem writes_areaBlocks (source dest : A) (l : List (TransferRecord A)) :
    (areaBlocks source dest l).flatMap BlockCopy.Block.writes
      = (offsetBytes .destination l).map fun a => dest + a := by
  simp [areaBlocks, offsetBytes, BlockCopy.Block.writes, List.flatMap_map, List.map_flatMap,
    Function.comp_def, TransferRecord.offset, add_assoc]

/-- One thread, on its own. -/
theorem interleaving_single {α : Type*} (l : List α) : Interleaving [l] l := by
  induction l with
  | nil => exact .done (by simp)
  | cons a l ih => exact .next 0 rfl ih

theorem testHolds_of_nodup [DecidableEq A] [IsLeftCancelAdd A] {l : List (TransferRecord A)}
    (hs : (offsetBytes .source l).Nodup) (hd : (offsetBytes .destination l).Nodup) : TestHolds l := by
  refine ⟨hs, fun source dest hdisj m x hx => ?_⟩
  have hreads : (([areaBlocks source dest l] : List _).flatten.flatMap BlockCopy.Block.reads)
      = (offsetBytes .source l).map fun a => source + a := by
    rw [List.flatten_singleton, reads_areaBlocks]
  have hwrites : (([areaBlocks source dest l] : List _).flatten.flatMap BlockCopy.Block.writes)
      = (offsetBytes .destination l).map fun a => dest + a := by
    rw [List.flatten_singleton, writes_areaBlocks]
  have hsep : Separate [areaBlocks source dest l].flatten := by
    constructor
    · rw [hwrites]
      exact hd.map fun _ _ => add_left_cancel
    · rw [hreads, hwrites]
      intro a ha ha'
      obtain ⟨y, hy, rfl⟩ := List.mem_map.mp ha
      obtain ⟨z, hz, hzy⟩ := List.mem_map.mp ha'
      exact hdisj y hy z hz hzy.symm
  have hcopied := BlockCopy.labels_copied hsep (by
    rw [hreads]
    exact hs.map fun _ _ => add_left_cancel) (interleaving_single _) (0 : BitVec 8) m
    (a := dest + x.1) (v := x.2) (by
      rw [hwrites, labelFrom_map]
      exact List.mem_map_of_mem hx)
  rw [hreads, labelFrom_map] at hcopied
  exact hcopied

end test

/-! ### Generated programs -/

/-- What the list of the executed operations says. -/
structure NeverOverwrites (ops : List DmaOperation) (ts : ℕ) (l : List (TransferRecord ℕ)) : Prop where
  one_each : l.map TransferRecord.size = ops.filterMap DmaOperation.transferSize
  size_eq : ∀ r ∈ l, r.size = ts
  aligned : ∀ r ∈ l, 2 ^ ts ∣ r.source ∧ 2 ^ ts ∣ r.destination
  advancing : ∀ side, Advancing side l

theorem neverOverwrites_transfers (targetOf : ℕ → AddTarget) {ops : List DmaOperation} {ts : ℕ}
    (hops : ∀ a ∈ ops, a.Sized ts) : NeverOverwrites ops ts (transfers targetOf ops) := by
  have hstart : (⟨0, 0, []⟩ : DmaThread ℕ).Aligned ts := by
    refine ⟨by simp, fun side => ?_⟩
    cases side <;> exact Nat.dvd_zero _
  have haligned : ∀ r ∈ transfers targetOf ops, r.size = ts ∧ ∀ side, 2 ^ ts ∣ r.offset side :=
    (hstart.operations hops).records
  constructor
  case one_each => exact sizes_operations ⟨0, 0, []⟩
  case size_eq => exact fun r hr => (haligned r hr).1
  case aligned => exact fun r hr => ⟨(haligned r hr).2 .source, (haligned r hr).2 .destination⟩
  case advancing => exact advancing_transfers targetOf ops

theorem placedEnd_le {side : Side} {base pos bound : ℕ} {l : List (TransferRecord ℕ)}
    (h : ∀ r ∈ l, base + r.offset side + 2 ^ r.size ≤ bound) (hpos : pos ≤ bound) :
    placedEnd side base pos l ≤ bound := by
  induction l generalizing pos with
  | nil => exact hpos
  | cons r l ih =>
    obtain ⟨hr, hl⟩ := List.forall_mem_cons.mp h
    exact ih hl hr

/-- The bytes of advancing transfers go up. -/
theorem ascending_offsetBytes {side : Side} {l : List (TransferRecord ℕ)} (h : Advancing side l) :
    Ascending 0 (placedEnd side 0 0 l) (offsetBytes side l) := by
  have hplaced : placed side 0 l = offsetBytes side l := by
    simp [placed, offsetBytes]
  rw [← hplaced]
  exact ascending_placed h fun _ _ => Nat.zero_le _

theorem offsetBytes_cast (side : Side) (l : List (TransferRecord ℕ)) :
    offsetBytes side (l.map (.cast DmaAddress)) = (offsetBytes side l).map Nat.cast := by
  cases side <;>
    simp [offsetBytes, List.flatMap_map, List.map_flatMap, Function.comp_def, TransferRecord.offset,
      TransferRecord.cast]

/-- The offsets of a record as numbers. -/
def TransferRecord.toNat (r : TransferRecord DmaAddress) : TransferRecord ℕ :=
  ⟨r.source.toNat, r.destination.toNat, r.size⟩

theorem TransferRecord.toNat_cast {r : TransferRecord ℕ} (h : ∀ side, r.offset side < 2 ^ 64) :
    (r.cast DmaAddress).toNat = r := by
  have hcast (x : ℕ) (hx : x < 2 ^ 64) : (x : DmaAddress).toNat = x := by
    rw [BitVec.natCast_eq_ofNat, BitVec.toNat_ofNat, Nat.mod_eq_of_lt hx]
  have hs := hcast _ (h .source)
  have hd := hcast _ (h .destination)
  obtain ⟨source, destination, size⟩ := r
  exact congrArg₂ (fun a b => TransferRecord.mk a b size) hs hd

/-- Below the wrap the transfers with 64-bit offsets are the unbounded
ones. -/
theorem wrapped_transfers (targetOf : ℕ → AddTarget) {ops : List DmaOperation}
    (h : (ops.map DmaOperation.amount).sum < 2 ^ 64) :
    (transfers targetOf ops : List (TransferRecord DmaAddress)).map TransferRecord.toNat
        = transfers targetOf ops ∧
      TestHolds (transfers targetOf ops : List (TransferRecord DmaAddress)) := by
  -- the last transfer ends before the sum of all amounts
  have hend (side : Side) (r : TransferRecord ℕ) (hr : r ∈ transfers targetOf ops) :
      r.offset side + 2 ^ r.size < 2 ^ 64 := by
    have hstart : DmaThread.Walking ⟨0, 0, []⟩ side := ⟨List.Pairwise.nil, by simp⟩
    have h0 : (⟨0, 0, []⟩ : DmaThread ℕ).offset side = 0 := by
      cases side <;> rfl
    calc r.offset side + 2 ^ r.size
        ≤ (dma_execute_operations targetOf ops ⟨0, 0, []⟩).offset side :=
          hstart.operations.behind r hr
      _ ≤ (⟨0, 0, []⟩ : DmaThread ℕ).offset side + (ops.map DmaOperation.amount).sum :=
          offset_operations ⟨0, 0, []⟩ side
      _ < 2 ^ 64 := by rwa [h0, Nat.zero_add]
  have hnodup (side : Side) : (offsetBytes side
      (transfers targetOf ops : List (TransferRecord DmaAddress))).Nodup := by
    rw [transfers_cast, offsetBytes_cast]
    refine (ascending_offsetBytes (advancing_transfers targetOf ops side)).nodup_cast ?_
    refine placedEnd_le (fun r hr => ?_) (Nat.zero_le _)
    have := hend side r hr
    omega
  refine ⟨?_, testHolds_of_nodup (hnodup .source) (hnodup .destination)⟩
  -- what does not wrap is read back as it was
  have hsame : ∀ r ∈ transfers targetOf ops,
      (TransferRecord.toNat ∘ TransferRecord.cast DmaAddress) r = id r := by
    intro r hr
    apply TransferRecord.toNat_cast
    intro side
    exact (Nat.le_add_right _ _).trans_lt (hend side r hr)
  rw [transfers_cast, List.map_map, List.map_congr_left hsame, List.map_id]

end Cheritest
