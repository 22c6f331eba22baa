/-
Cheritest/LibS/Memcpy.lean

The capability memcpy of lib.s.

`memcpy_c` copies `$a0` bytes from `$c4` to `$c3`.  If the two addresses
agree modulo the size of a capability it copies bytes up to the first
boundary, then whole capabilities, then the bytes that are left; otherwise,
and if there is not a whole capability to copy, it copies byte by byte.
`copyPlan` is that choice as a list of moves, and `memcpy_c_refines` says that
the routine carries out exactly those moves.  What memory holds afterwards
and which accesses were made is then a fact about the plan.

The routine computes with trapping additions, so an address range that
crosses the middle of the address space and a length from 2^63 on are
beyond it.
-/
import Cheritest.Mips.Run
import Cheritest.Mips.Copy

namespace Cheritest

open Mips

/-! ### The routine -/

/-- Labels of `memcpy_c`. -/
inductive MemcpyLabel
  | fast_path
  | unaligned_start
  | aligned_copy
  | copy_caps
  | unaligned_end
  | memcpy_c_return
  | slow_memcpy_loop
  deriving DecidableEq

/-- The number of instructions before a label. -/
def MemcpyLabel.index : MemcpyLabel → ℕ
  | fast_path => 12
  | unaligned_start => 21
  | aligned_copy => 26
  | copy_caps => 29
  | unaligned_end => 37
  | memcpy_c_return => 41
  | slow_memcpy_loop => 43

/-- The byte loop that the routine contains three times: copy bytes until
the offset `$a1` reaches `limit`. -/
def copyBytes (l : MemcpyLabel) (limit : Reg) : List (Asm MemcpyLabel) :=
  [ .label l,
    .clb .a2 .a1 0 4,
    .daddi .a1 .a1 1,
    .bne limit .a1 l,
    .csb .a2 .a1 (-1) 3 ]

/-- From the entry to the choice of the path. -/
def chooseCode (CAP_SIZE : ℕ) : List (Asm MemcpyLabel) :=
  [ .beq .a0 .zero .memcpy_c_return,
    .cgetbase .v0 3,
    .cgetoffset .at_ 3,
    .dadd .v0 .v0 .at_,
    .cgetbase .v1 4,
    .cgetoffset .at_ 4,
    .dadd .v1 .v1 .at_,
    .andi .t0 .v0 (BitVec.ofNat 16 (CAP_SIZE / 8 - 1)),
    .andi .t1 .v1 (BitVec.ofNat 16 (CAP_SIZE / 8 - 1)),
    .daddi .a1 .zero 0,
    .bne .t0 .t1 .slow_memcpy_loop,
    .andi .t8 .a0 (BitVec.ofNat 16 (CAP_SIZE / 8 - 1)),
    .label .fast_path,
    .dsub .v1 .zero .t0,
    .daddi .v1 .v1 (BitVec.ofNat 16 (CAP_SIZE / 8)),
    .andi .v1 .v1 (BitVec.ofNat 16 (CAP_SIZE / 8 - 1)),
    .dsub .a2 .a0 .v1,
    .daddi .a2 .a2 (-BitVec.ofNat 16 (CAP_SIZE / 8)),
    .bltz .a2 .slow_memcpy_loop,
    .nop,
    .beqzl .v1 .aligned_copy,
    .dsub .a2 .a0 .a1 ]

/-- At the first boundary: where the whole capabilities end. -/
def alignedCode (CAP_SIZE : ℕ) : List (Asm MemcpyLabel) :=
  [ .dsub .a2 .a0 .a1,
    .label .aligned_copy,
    .addi .at_ .zero (-BitVec.ofNat 16 (CAP_SIZE / 8)),
    .and .a2 .a2 .at_,
    .dadd .a2 .a2 .a1 ]

/-- The capability loop. -/
def copyCaps (CAP_SIZE : ℕ) : List (Asm MemcpyLabel) :=
  [ .label .copy_caps,
    .clc 5 .a1 0 4,
    .daddi .a1 .a1 (BitVec.ofNat 16 (CAP_SIZE / 8)),
    .bne .a1 .a2 .copy_caps ] ++
  if CAP_SIZE ≠ 64 then [ .csc 5 .a1 (-BitVec.ofNat 64 (CAP_SIZE / 8)) 3 ] else []

/-- The bytes that are left, if any. -/
def remainderCode : List (Asm MemcpyLabel) :=
  [ .dsub .v1 .a0 .a2,
    .beqzl .v1 .memcpy_c_return,
    .nop,
    .dadd .v1 .a1 .v1 ]

/-- The return, with the `__CHERI_PURE_CAPABILITY__` conditional. -/
def returnCode (purecap : Bool) : List (Asm MemcpyLabel) :=
  [ if purecap then .cjr 17 else .jr .ra,
    .sync ]

/-- `memcpy_c`. -/
def memcpy_c (CAP_SIZE : ℕ) (purecap : Bool) : List (Asm MemcpyLabel) :=
  List.flatten [
    chooseCode CAP_SIZE,
    copyBytes .unaligned_start .v1,
    alignedCode CAP_SIZE,
    copyCaps CAP_SIZE,
    remainderCode,
    copyBytes .unaligned_end .v1,
    [ .label .memcpy_c_return ],
    returnCode purecap,
    copyBytes .slow_memcpy_loop .a0,
    returnCode purecap ]

/-- The routine, placed at an address. -/
def memcpyText (base : BitVec 64) (CAP_SIZE : ℕ) (purecap : Bool) : Text MemcpyLabel where
  base := base
  code := memcpy_c CAP_SIZE purecap
  fits := by
    simp only [memcpy_c, chooseCode, copyBytes, alignedCode, copyCaps, remainderCode, returnCode]
    split_ifs <;> simp [assemble]

section layout
variable {CAP_SIZE : ℕ} (hcs : CAP_SIZE = 128 ∨ CAP_SIZE = 256) (base : BitVec 64) (purecap : Bool)
include hcs

theorem hasAt_chooseCode : (memcpyText base CAP_SIZE purecap).HasAt 0 (chooseCode CAP_SIZE) := by
  rcases hcs with rfl | rfl <;> cases purecap <;> exact .of_drop rfl

theorem hasAt_unaligned_start :
    (memcpyText base CAP_SIZE purecap).HasAt 21 (copyBytes .unaligned_start .v1) := by
  rcases hcs with rfl | rfl <;> cases purecap <;> exact .of_drop rfl

theorem hasAt_alignedCode : (memcpyText base CAP_SIZE purecap).HasAt 25 (alignedCode CAP_SIZE) := by
  rcases hcs with rfl | rfl <;> cases purecap <;> exact .of_drop rfl

theorem hasAt_copyCaps : (memcpyText base CAP_SIZE purecap).HasAt 29
    [ .label .copy_caps,
      .clc 5 .a1 0 4,
      .daddi .a1 .a1 (BitVec.ofNat 16 (CAP_SIZE / 8)),
      .bne .a1 .a2 .copy_caps,
      .csc 5 .a1 (-BitVec.ofNat 64 (CAP_SIZE / 8)) 3 ] := by
  rcases hcs with rfl | rfl <;> cases purecap <;> exact .of_drop rfl

theorem hasAt_remainderCode : (memcpyText base CAP_SIZE purecap).HasAt 33 remainderCode := by
  rcases hcs with rfl | rfl <;> cases purecap <;> exact .of_drop rfl

theorem hasAt_unaligned_end :
    (memcpyText base CAP_SIZE purecap).HasAt 37 (copyBytes .unaligned_end .v1) := by
  rcases hcs with rfl | rfl <;> cases purecap <;> exact .of_drop rfl

theorem hasAt_memcpy_c_return :
    (memcpyText base CAP_SIZE purecap).HasAt 41 (returnCode purecap) := by
  rcases hcs with rfl | rfl <;> cases purecap <;> exact .of_drop rfl

theorem hasAt_slow_memcpy_loop :
    (memcpyText base CAP_SIZE purecap).HasAt 43 (copyBytes .slow_memcpy_loop .a0) := by
  rcases hcs with rfl | rfl <;> cases purecap <;> exact .of_drop rfl

theorem hasAt_slow_return : (memcpyText base CAP_SIZE purecap).HasAt 47 (returnCode purecap) := by
  rcases hcs with rfl | rfl <;> cases purecap <;> exact .of_drop rfl

theorem labelIndex_memcpy_c (l : MemcpyLabel) :
    labelIndex l (memcpyText base CAP_SIZE purecap).code = l.index := by
  rcases hcs with rfl | rfl <;> cases purecap <;> cases l <;> rfl

end layout

/-! ### The moves the routine makes -/

/-- Bytes from `dst` to the first boundary. -/
def headLength (n : ℕ) (dst : BitVec 64) : ℕ := (n - dst.toNat % n) % n

/-- The moves of `memcpy_c` for capabilities of `n` bytes. -/
def copyPlan (n : ℕ) (dst src : BitVec 64) (len : ℕ) : List Move :=
  let head := headLength n dst
  if dst.toNat % n ≠ src.toNat % n ∨ len < head + n then byteMoves 0 len
  else
    let k := (len - head) / n
    byteMoves 0 head ++ capMoves n head k ++ byteMoves (head + k * n) ((len - head) % n)

theorem copyPlan_slow {n : ℕ} {dst src : BitVec 64} {len : ℕ}
    (h : dst.toNat % n ≠ src.toNat % n ∨ len < headLength n dst + n) :
    copyPlan n dst src len = byteMoves 0 len := if_pos h

theorem copyPlan_fast {n : ℕ} {dst src : BitVec 64} {len : ℕ}
    (h : dst.toNat % n = src.toNat % n) (hlong : headLength n dst + n ≤ len) :
    copyPlan n dst src len = byteMoves 0 (headLength n dst) ++
      capMoves n (headLength n dst) ((len - headLength n dst) / n) ++
      byteMoves (headLength n dst + (len - headLength n dst) / n * n)
        ((len - headLength n dst) % n) :=
  if_neg (not_or.mpr ⟨not_not.mpr h, by omega⟩)

/-! ### What the caller provides -/

section caller
variable {n : ℕ} (F : CapFormat n)

/-- The capability covers the `len` bytes from its cursor, with the given
permissions. -/
structure Covers (v : CapVal n) (perms : List Perm) (len : ℕ) : Prop where
  tag : v.tag = true
  not_sealed : F.isSealed v.data = false
  perm : ∀ p ∈ perms, F.perm v.data p = true
  base_le : (F.base v.data).toNat ≤ (F.cursor v).toNat
  le_top : (F.cursor v).toNat + len ≤ F.top v.data

variable {F}

theorem Covers.allows {v : CapVal n} {perms : List Perm} {len i size : ℕ} {p : Perm}
    (h : Covers F v perms len) (hp : p ∈ perms) (hi : i + size ≤ len) (h0 : 0 < size) :
    F.allows v p (F.cursor v + BitVec.ofNat 64 i) size = true := by
  have htop := F.top_le v.data
  have hle := h.le_top
  have hb := h.base_le
  rw [F.allows_iff, toNat_add_ofNat (by omega)]
  exact ⟨h.tag, h.not_sealed, h.perm p hp, by omega, by omega⟩

variable (F)

/-- A call of `memcpy_c`: `$c3` may be written and `$c4` read over the
length in `$a0`, the two ranges are disjoint or the destination comes first,
and for a pure-capability caller `$c17` can be returned to. -/
structure MemcpyCall (purecap : Bool) (c : Core n) : Prop where
  dst : 0 < (c.get .a0).toNat →
    Covers F (c.cap 3) [.store, .storeCap, .storeLocalCap] (c.get .a0).toNat
  src : 0 < (c.get .a0).toNat → Covers F (c.cap 4) [.load, .loadCap] (c.get .a0).toNat
  order : (F.cursor (c.cap 3)).toNat + (c.get .a0).toNat ≤ (F.cursor (c.cap 4)).toNat ∨
    (F.cursor (c.cap 4)).toNat + (c.get .a0).toNat ≤ (F.cursor (c.cap 3)).toNat ∨
    (F.cursor (c.cap 3)).toNat < (F.cursor (c.cap 4)).toNat
  link : purecap = true → (c.cap 17).tag = true ∧ F.isSealed (c.cap 17).data = false ∧
    F.perm (c.cap 17).data .execute = true

/-- What the trapping arithmetic of the routine can deal with. -/
structure MemcpySigned (c : Core n) : Prop where
  dst : (F.base (c.cap 3).data).saddOverflow (F.offset (c.cap 3).data) = false
  src : (F.base (c.cap 4).data).saddOverflow (F.offset (c.cap 4).data) = false
  len : (c.get .a0).toNat < 2 ^ 63

/-- Where the call returns to. -/
def returnAddress (purecap : Bool) (c : Core n) : BitVec 64 :=
  if purecap then F.cursor (c.cap 17) else c.get .ra

end caller

/-! ### Arithmetic of the alignment -/

section alignment
variable {n : ℕ} (hn : n = 16 ∨ n = 32)
include hn

/-- Masking with `n - 1`. -/
theorem and_pred (x : BitVec 64) :
    x &&& (BitVec.ofNat 16 (n - 1)).setWidth 64 = BitVec.ofNat 64 (x.toNat % n) := by
  apply BitVec.eq_of_toNat_eq
  have hx := x.isLt
  rcases hn with rfl | rfl
  · rw [BitVec.toNat_and, BitVec.toNat_ofNat]
    have h := Nat.and_two_pow_sub_one_eq_mod x.toNat 4
    simp only [Nat.reducePow, Nat.reduceSub] at h
    simp [h]
    omega
  · rw [BitVec.toNat_and, BitVec.toNat_ofNat]
    have h := Nat.and_two_pow_sub_one_eq_mod x.toNat 5
    simp only [Nat.reducePow, Nat.reduceSub] at h
    simp [h]
    omega

/-- Masking with `-n`. -/
theorem and_neg (x : ℕ) :
    BitVec.ofNat 64 x &&& -BitVec.ofNat 64 n = BitVec.ofNat 64 (x / n * n) := by
  have hbits (k : ℕ) (hk : ∀ i < 64, (-BitVec.twoPow 64 k).getLsbD i = decide (k ≤ i)) :
      BitVec.ofNat 64 x &&& -BitVec.twoPow 64 k = BitVec.ofNat 64 (x / 2 ^ k * 2 ^ k) := by
    apply BitVec.eq_of_getLsbD_eq
    intro i hi
    rw [BitVec.getLsbD_and, hk i hi, ← Nat.shiftRight_eq_div_pow, ← Nat.shiftLeft_eq]
    simp only [BitVec.getLsbD_ofNat, Nat.testBit_shiftLeft, Nat.testBit_shiftRight]
    by_cases h : k ≤ i
    · simp [h, hi]
    · simp [h]
  rcases hn with rfl | rfl
  · exact hbits 4 (by decide)
  · exact hbits 5 (by decide)

theorem signExtend_size : (BitVec.ofNat 16 n).signExtend 64 = BitVec.ofNat 64 n := by
  rcases hn with rfl | rfl <;> decide

theorem signExtend_neg_size : (-BitVec.ofNat 16 n).signExtend 64 = -BitVec.ofNat 64 n := by
  rcases hn with rfl | rfl <;> decide

/-- `addi $at, $zero, -n`. -/
theorem sext32_neg_size :
    sext32 ((0 : BitVec 64).setWidth 32 + (-BitVec.ofNat 16 n).signExtend 32) = -BitVec.ofNat 64 n := by
  rcases hn with rfl | rfl <;> decide

end alignment
/-! ### The loops -/

/-- The moves `l` have been made since the call in state `c₀`, and offset `i`
is next. -/
structure Copying {n : ℕ} (F : CapFormat n) (c₀ : Core n) (l : List Move) (i : ℕ)
    (c : Core n) : Prop where
  offset : c.get .a1 = BitVec.ofNat 64 i
  len : c.get .a0 = c₀.get .a0
  ret : c.get .v0 = F.cursor (c₀.cap 3)
  ra : c.get .ra = c₀.get .ra
  caps : ∀ x, x ≠ 5 → c.cap x = c₀.cap x
  log : c.log = movesLog n (F.cursor (c₀.cap 3)) (F.cursor (c₀.cap 4)) l ++ c₀.log

/-- Registers that the copying does not depend on may change. -/
theorem Copying.congr {n : ℕ} {F : CapFormat n} {c₀ c c' : Core n} {l : List Move} {i : ℕ}
    (h : Copying F c₀ l i c)
    (hregs : ∀ r, r = .a1 ∨ r = .a0 ∨ r = .v0 ∨ r = .ra → c'.get r = c.get r)
    (hcap : c'.cap = c.cap) (hlog : c'.log = c.log) : Copying F c₀ l i c' where
  offset := (hregs .a1 (by simp)).trans h.offset
  len := (hregs .a0 (by simp)).trans h.len
  ret := (hregs .v0 (by simp)).trans h.ret
  ra := (hregs .ra (by simp)).trans h.ra
  caps x hx := (congrFun hcap x).trans (h.caps x hx)
  log := hlog.trans h.log

section loops
variable {n : ℕ} {F : CapFormat n} {T : Text MemcpyLabel} {j : ℕ} {l : MemcpyLabel} {limit : Reg}
  {c₀ c : Core n} {m₀ : Mem} {done : List Move} {i k : ℕ}

/-- Loop head of an iteration: about to copy offset `i`, the moves `done`
made. -/
def atMoves (T : Text MemcpyLabel) (F : CapFormat n) (c₀ : Core n) (m₀ : Mem) (j : ℕ)
    (done : List Move) (c : Core n) : Hart n × Mem :=
  T.at j c (runMoves n (F.cursor (c₀.cap 3)) (F.cursor (c₀.cap 4)) m₀ done)

/-- The first half of an iteration: a byte is loaded and the offset moved
on. -/
theorem copyBytes_load (hcode : T.HasAt j (copyBytes l limit)) (hc : Copying F c₀ done i c)
    {m : Mem} (hi : i + 1 < 2 ^ 63)
    (hload : F.allows (c₀.cap 4) .load (F.cursor (c₀.cap 4) + BitVec.ofNat 64 i) 1 = true) :
    ∃ c₁, Steps T F (T.at j c m) (T.at (j + 2) c₁ m) ∧
      c₁.get .a1 = BitVec.ofNat 64 (i + 1) ∧
      (c₁.get .a2).setWidth 8 = m.byte (F.cursor (c₀.cap 4) + BitVec.ofNat 64 i) ∧
      (∀ r, r ≠ .a1 → r ≠ .a2 → c₁.get r = c.get r) ∧ c₁.cap = c.cap ∧
      c₁.log = ⟨.load, F.cursor (c₀.cap 4) + BitVec.ofNat 64 i, 1⟩ :: c.log := by
  have h4 : c.cap 4 = c₀.cap 4 := hc.caps 4 (by decide)
  have hone : (1#16).signExtend 64 = BitVec.ofNat 64 1 := by decide
  have hinc : BitVec.ofNat 64 i + BitVec.ofNat 64 1 = BitVec.ofNat 64 (i + 1) :=
    (BitVec.ofNat_add ..).symm
  have hov : (BitVec.ofNat 64 i).saddOverflow (BitVec.ofNat 64 1) = false := by
    rw [saddOverflow_iff, toInt_ofNat_small (by omega), toInt_ofNat_small (by omega)]
    omega
  apply Exists.intro
  refine ⟨?_, ?_, ?_, ?_, ?_, ?_⟩
  · refine .trans (steps_op (hcode 0 _ rfl) (Op.exec_clb ?_)) ?_
    · rw [add_zero, h4, hc.offset]
      exact hload
    · refine steps_op (hcode 1 _ rfl) (Op.exec_daddi ?_)
      simpa [hc.offset, hone] using hov
  · simp [hc.offset, hone, hinc]
  · simp [setWidth_signExtend_byte, h4, hc.offset]
  · intro r h₁ h₂
    simp [h₁, h₂]
  · rfl
  · simp [h4, hc.offset]

/-- The second half: the byte is stored in the delay slot of the branch. -/
theorem copyBytes_store (hc : Copying F c₀ done i c) {c₁ : Core n} {m : Mem}
    (hoff : c₁.get .a1 = BitVec.ofNat 64 (i + 1)) (hcap : c₁.cap = c.cap)
    (hstore : F.allows (c₀.cap 3) .store (F.cursor (c₀.cap 3) + BitVec.ofNat 64 i) 1 = true) :
    Op.exec F c₁ m (.csb .a2 .a1 (-1) 3)
      = .ok (c₁.issue .store (F.cursor (c₀.cap 3) + BitVec.ofNat 64 i) 1,
          m.storeByte n (F.cursor (c₀.cap 3) + BitVec.ofNat 64 i) ((c₁.get .a2).setWidth 8)) := by
  have h3 : c₁.cap 3 = c₀.cap 3 := by
    rw [hcap]
    exact hc.caps 3 (by decide)
  have haddr : F.cursor (c₁.cap 3) + c₁.get .a1 + -1 = F.cursor (c₀.cap 3) + BitVec.ofNat 64 i := by
    rw [h3, hoff, BitVec.ofNat_add, ← add_assoc]
    exact add_neg_cancel_right _ 1
  have h := @Op.exec_csb _ F c₁ m .a2 .a1 (-1) 3
  rw [haddr, h3] at h
  exact h hstore

/-- One more byte has been copied. -/
theorem Copying.byte (hc : Copying F c₀ done i c) {c₁ : Core n}
    (hoff : c₁.get .a1 = BitVec.ofNat 64 (i + 1))
    (hregs : ∀ r, r ≠ .a1 → r ≠ .a2 → c₁.get r = c.get r) (hcap : c₁.cap = c.cap)
    (hlog : c₁.log = ⟨.load, F.cursor (c₀.cap 4) + BitVec.ofNat 64 i, 1⟩ :: c.log) :
    Copying F c₀ (done ++ [.byte i]) (i + 1)
      (c₁.issue .store (F.cursor (c₀.cap 3) + BitVec.ofNat 64 i) 1) where
  offset := hoff
  len := (hregs .a0 (by decide) (by decide)).trans hc.len
  ret := (hregs .v0 (by decide) (by decide)).trans hc.ret
  ra := (hregs .ra (by decide) (by decide)).trans hc.ra
  caps x hx := (congrFun hcap x).trans (hc.caps x hx)
  log := by simp [hlog, hc.log, movesLog_append, movesLog, Move.accesses]

/-- Memory after one more byte. -/
theorem runMoves_byte (dst src : BitVec 64) (m : Mem) :
    runMoves n dst src m (done ++ [.byte i]) =
      (runMoves n dst src m done).storeByte n (dst + BitVec.ofNat 64 i)
        ((runMoves n dst src m done).byte (src + BitVec.ofNat 64 i)) := by
  rw [runMoves_append]
  rfl

variable (m₀)

/-- An iteration that is not the last. -/
theorem copyBytes_continue (hcode : T.HasAt j (copyBytes l limit)) (hl : labelIndex l T.code = j)
    (hlim₁ : limit ≠ .a1) (hlim₂ : limit ≠ .a2) (hc : Copying F c₀ done i c)
    (hi : i + 1 < 2 ^ 63) (hne : c.get limit ≠ BitVec.ofNat 64 (i + 1))
    (hload : F.allows (c₀.cap 4) .load (F.cursor (c₀.cap 4) + BitVec.ofNat 64 i) 1 = true)
    (hstore : F.allows (c₀.cap 3) .store (F.cursor (c₀.cap 3) + BitVec.ofNat 64 i) 1 = true) :
    ∃ c', Steps T F (atMoves T F c₀ m₀ j done c) (atMoves T F c₀ m₀ j (done ++ [.byte i]) c') ∧
      Copying F c₀ (done ++ [.byte i]) (i + 1) c' ∧
      ∀ r, r ≠ .a1 → r ≠ .a2 → c'.get r = c.get r := by
  obtain ⟨c₁, h₁, ho, hb, hr, hcap, hlog⟩ := copyBytes_load hcode hc hi hload
  refine ⟨_, ?_, hc.byte ho hr hcap hlog, hr⟩
  unfold atMoves
  rw [runMoves_byte, ← hb]
  refine h₁.trans (steps_taken (hcode 2 _ rfl) (hcode 3 _ rfl) hl ?_
    (copyBytes_store hc ho hcap hstore))
  rw [Cond.holds, bne_iff_ne, ho, hr _ hlim₁ hlim₂]
  exact hne

/-- The last iteration. -/
theorem copyBytes_exit (hcode : T.HasAt j (copyBytes l limit)) (hlim₁ : limit ≠ .a1)
    (hlim₂ : limit ≠ .a2) (hc : Copying F c₀ done i c) (hi : i + 1 < 2 ^ 63)
    (heq : c.get limit = BitVec.ofNat 64 (i + 1))
    (hload : F.allows (c₀.cap 4) .load (F.cursor (c₀.cap 4) + BitVec.ofNat 64 i) 1 = true)
    (hstore : F.allows (c₀.cap 3) .store (F.cursor (c₀.cap 3) + BitVec.ofNat 64 i) 1 = true) :
    ∃ c', Steps T F (atMoves T F c₀ m₀ j done c)
        (atMoves T F c₀ m₀ (j + 4) (done ++ [.byte i]) c') ∧
      Copying F c₀ (done ++ [.byte i]) (i + 1) c' ∧
      ∀ r, r ≠ .a1 → r ≠ .a2 → c'.get r = c.get r := by
  obtain ⟨c₁, h₁, ho, hb, hr, hcap, hlog⟩ := copyBytes_load hcode hc hi hload
  refine ⟨_, ?_, hc.byte ho hr hcap hlog, hr⟩
  unfold atMoves
  rw [runMoves_byte, ← hb]
  refine h₁.trans (steps_not_taken (hcode 2 _ rfl) (hcode 3 _ rfl) ?_
    (copyBytes_store hc ho hcap hstore))
  rw [Cond.holds, bne_eq_false_iff_eq, ho, hr _ hlim₁ hlim₂]
  exact heq

/-- Any number of iterations short of the limit. -/
theorem copyBytes_reach (hcode : T.HasAt j (copyBytes l limit)) (hl : labelIndex l T.code = j)
    (hlim₁ : limit ≠ .a1) (hlim₂ : limit ≠ .a2) (hc : Copying F c₀ done i c)
    {stop : ℕ} (hstop : c.get limit = BitVec.ofNat 64 stop) (hlt : stop < 2 ^ 64)
    (hk : i + k < stop) (hi : i + k < 2 ^ 63)
    (hload : ∀ x, x < stop →
      F.allows (c₀.cap 4) .load (F.cursor (c₀.cap 4) + BitVec.ofNat 64 x) 1 = true)
    (hstore : ∀ x, x < stop →
      F.allows (c₀.cap 3) .store (F.cursor (c₀.cap 3) + BitVec.ofNat 64 x) 1 = true) :
    ∃ c', Steps T F (atMoves T F c₀ m₀ j done c)
        (atMoves T F c₀ m₀ j (done ++ byteMoves i k) c') ∧
      Copying F c₀ (done ++ byteMoves i k) (i + k) c' ∧
      ∀ r, r ≠ .a1 → r ≠ .a2 → c'.get r = c.get r := by
  induction k generalizing i c done with
  | zero => exact ⟨c, by simpa [byteMoves] using Steps.refl, by simpa [byteMoves] using hc,
      fun _ _ _ => rfl⟩
  | succ k ih =>
    have hne : c.get limit ≠ BitVec.ofNat 64 (i + 1) := by
      rw [hstop]
      exact ofNat_ne_ofNat (by omega) (by omega) (by omega)
    obtain ⟨c₁, h₁, hc₁, hr₁⟩ := copyBytes_continue m₀ hcode hl hlim₁ hlim₂ hc (by omega)
      hne (hload i (by omega)) (hstore i (by omega))
    obtain ⟨c₂, h₂, hc₂, hr₂⟩ := ih hc₁ (by rw [hr₁ _ hlim₁ hlim₂, hstop]) (by omega) (by omega)
    rw [List.append_assoc, Nat.add_assoc, Nat.add_comm 1 k] at hc₂
    rw [List.append_assoc] at h₂
    refine ⟨c₂, h₁.trans h₂, hc₂, fun r h h' => ?_⟩
    rw [hr₂ r h h', hr₁ r h h']

/-- The whole loop. -/
theorem copyBytes_run (hcode : T.HasAt j (copyBytes l limit)) (hl : labelIndex l T.code = j)
    (hlim₁ : limit ≠ .a1) (hlim₂ : limit ≠ .a2) (hc : Copying F c₀ done i c)
    (hstop : c.get limit = BitVec.ofNat 64 (i + k)) (hk : 0 < k) (hlt : i + k < 2 ^ 63)
    (hload : ∀ x, x < i + k →
      F.allows (c₀.cap 4) .load (F.cursor (c₀.cap 4) + BitVec.ofNat 64 x) 1 = true)
    (hstore : ∀ x, x < i + k →
      F.allows (c₀.cap 3) .store (F.cursor (c₀.cap 3) + BitVec.ofNat 64 x) 1 = true) :
    ∃ c', Steps T F (atMoves T F c₀ m₀ j done c)
        (atMoves T F c₀ m₀ (j + 4) (done ++ byteMoves i k) c') ∧
      Copying F c₀ (done ++ byteMoves i k) (i + k) c' := by
  obtain ⟨k, rfl⟩ : ∃ k', k = k' + 1 := ⟨k - 1, by omega⟩
  obtain ⟨c₁, h₁, hc₁, hr₁⟩ := copyBytes_reach (k := k) m₀ hcode hl hlim₁ hlim₂ hc hstop
    (by omega) (by omega) (by omega) hload hstore
  obtain ⟨c₂, h₂, hc₂, -⟩ := copyBytes_exit m₀ hcode hlim₁ hlim₂ hc₁ (by omega)
    (by rw [hr₁ _ hlim₁ hlim₂, hstop, Nat.add_assoc]) (hload _ (by omega)) (hstore _ (by omega))
  rw [byteMoves_succ, ← List.append_assoc]
  exact ⟨c₂, h₁.trans h₂, hc₂⟩

end loops

section caps
variable {CAP_SIZE : ℕ} (hcs : CAP_SIZE = 128 ∨ CAP_SIZE = 256) (base : BitVec 64) (purecap : Bool)
  {F : CapFormat (CAP_SIZE / 8)} {c₀ c : Core (CAP_SIZE / 8)} (m₀ : Mem) {done : List Move} {i k : ℕ}
include hcs

/-- What a granule of the capability loop needs: access to it and the two
addresses aligned. -/
structure Granule {n : ℕ} (F : CapFormat n) (c₀ : Core n) (i : ℕ) : Prop where
  load : F.allows (c₀.cap 4) .load (F.cursor (c₀.cap 4) + BitVec.ofNat 64 i) n = true
  loadCap : F.perm (c₀.cap 4).data .loadCap = true
  store : F.allows (c₀.cap 3) .store (F.cursor (c₀.cap 3) + BitVec.ofNat 64 i) n = true
  storeCap : F.perm (c₀.cap 3).data .storeCap = true
  storeLocalCap : F.perm (c₀.cap 3).data .storeLocalCap = true
  src_aligned : (F.cursor (c₀.cap 4) + BitVec.ofNat 64 i).toNat % n = 0
  dst_aligned : (F.cursor (c₀.cap 3) + BitVec.ofNat 64 i).toNat % n = 0

/-- One iteration of the capability loop, up to its branch: the granule is
loaded, the offset moved on, and the delay slot will store the granule. -/
theorem copyCaps_step (hc : Copying F c₀ done i c)
    {m : Mem} (hi : i + CAP_SIZE / 8 < 2 ^ 63) (hg : Granule F c₀ i) :
    ∃ c₁ c₂, Steps (memcpyText base CAP_SIZE purecap) F
        ((memcpyText base CAP_SIZE purecap).at 29 c m)
        ((memcpyText base CAP_SIZE purecap).at 31 c₁ m) ∧
      c₁.get .a1 = BitVec.ofNat 64 (i + CAP_SIZE / 8) ∧ c₁.get .a2 = c.get .a2 ∧
      Op.exec F c₁ m (.csc 5 .a1 (-BitVec.ofNat 64 (CAP_SIZE / 8)) 3) =
        .ok (c₂, (Move.cap i).run (CAP_SIZE / 8) (F.cursor (c₀.cap 3)) (F.cursor (c₀.cap 4)) m) ∧
      Copying F c₀ (done ++ [.cap i]) (i + CAP_SIZE / 8) c₂ ∧ c₂.get .a2 = c.get .a2 := by
  have hcode := hasAt_copyCaps hcs base purecap
  have hn : CAP_SIZE / 8 = 16 ∨ CAP_SIZE / 8 = 32 := by omega
  have h3 : c.cap 3 = c₀.cap 3 := hc.caps 3 (by decide)
  have h4 : c.cap 4 = c₀.cap 4 := hc.caps 4 (by decide)
  have hinc : BitVec.ofNat 64 i + BitVec.ofNat 64 (CAP_SIZE / 8)
      = BitVec.ofNat 64 (i + CAP_SIZE / 8) := (BitVec.ofNat_add ..).symm
  have hov : (BitVec.ofNat 64 i).saddOverflow (BitVec.ofNat 64 (CAP_SIZE / 8)) = false := by
    rw [saddOverflow_iff, toInt_ofNat_small (by omega), toInt_ofNat_small (by omega)]
    omega
  have hsrc : F.cursor (c.cap 4) + c.get .a1 + 0 = F.cursor (c₀.cap 4) + BitVec.ofNat 64 i := by
    rw [add_zero, h4, hc.offset]
  -- the offset of the store is back where the load was
  have hdst : F.cursor (c₀.cap 3) + BitVec.ofNat 64 (i + CAP_SIZE / 8)
      + -BitVec.ofNat 64 (CAP_SIZE / 8) = F.cursor (c₀.cap 3) + BitVec.ofNat 64 i := by
    rw [← hinc, ← add_assoc, add_neg_cancel_right]
  have hclc := @Op.exec_clc _ F c m .a1 0 4 5
  rw [hsrc, h4] at hclc
  apply Exists.intro
  apply Exists.intro
  refine ⟨.trans (steps_op (hcode 0 _ rfl) (hclc hg.load hg.loadCap hg.src_aligned))
    (steps_op (hcode 1 _ rfl) (Op.exec_daddi ?_)), ?_, rfl, ?_, ?_, ?_⟩
  · simpa [hc.offset, signExtend_size hn] using hov
  · simp [hc.offset, signExtend_size hn, hinc]
  · refine (Op.exec_csc ?_ ?_ ?_ ?_).trans ?_
    all_goals simp only [Core.cap_set, Core.cap_setCap, Core.cap_issue, Core.get_setCap,
      Core.get_issue, ne_eq, reduceCtorEq, not_false_eq_true, Core.get_set, if_true, hc.offset,
      signExtend_size hn, hinc, Function.update_of_ne (show (3 : Fin 32) ≠ 5 by decide), h3, hdst]
    · exact hg.store
    · exact hg.storeCap
    · exact hg.storeLocalCap
    · exact hg.dst_aligned
    · rfl
  · constructor
    case offset => simp
    case len => simpa using hc.len
    case ret => simpa using hc.ret
    case ra => simpa using hc.ra
    case caps =>
      intro x hx
      simp [hx, hc.caps x hx]
    case log => simp [hc.log, movesLog_append, movesLog, Move.accesses]
  · simp

/-- The whole capability loop. -/
theorem copyCaps_run (hc : Copying F c₀ done i c)
    (hstop : c.get .a2 = BitVec.ofNat 64 (i + k * (CAP_SIZE / 8))) (hk : 0 < k)
    (hlt : i + k * (CAP_SIZE / 8) < 2 ^ 63)
    (hg : ∀ x < k, Granule F c₀ (i + x * (CAP_SIZE / 8))) :
    ∃ c', Steps (memcpyText base CAP_SIZE purecap) F
        (atMoves (memcpyText base CAP_SIZE purecap) F c₀ m₀ 29 done c)
        (atMoves (memcpyText base CAP_SIZE purecap) F c₀ m₀ 33
          (done ++ capMoves (CAP_SIZE / 8) i k) c') ∧
      Copying F c₀ (done ++ capMoves (CAP_SIZE / 8) i k) (i + k * (CAP_SIZE / 8)) c' ∧
      c'.get .a2 = BitVec.ofNat 64 (i + k * (CAP_SIZE / 8)) := by
  have hcode := hasAt_copyCaps hcs base purecap
  induction k generalizing i c done with
  | zero => omega
  | succ k ih =>
    have hmul : i + (k + 1) * (CAP_SIZE / 8) = i + CAP_SIZE / 8 + k * (CAP_SIZE / 8) := by
      rw [Nat.succ_mul]
      omega
    have hmem : runMoves (CAP_SIZE / 8) (F.cursor (c₀.cap 3)) (F.cursor (c₀.cap 4)) m₀
        (done ++ [.cap i]) = (Move.cap i).run (CAP_SIZE / 8) (F.cursor (c₀.cap 3))
          (F.cursor (c₀.cap 4)) (runMoves (CAP_SIZE / 8) (F.cursor (c₀.cap 3))
            (F.cursor (c₀.cap 4)) m₀ done) := runMoves_append ..
    rw [hmul] at hstop hlt ⊢
    obtain ⟨c₁, c₂, h₁, ho, ha₁, hex, hc₂, ha₂⟩ := copyCaps_step hcs base
      purecap hc (by omega) (by simpa using hg 0 (by omega))
      (m := runMoves _ (F.cursor (c₀.cap 3)) (F.cursor (c₀.cap 4)) m₀ done)
    rw [← hmem] at hex
    cases k with
    | zero =>
      refine ⟨c₂, h₁.trans (steps_not_taken (hcode 2 _ rfl) (hcode 3 _ rfl) ?_ hex), ?_, ?_⟩
      · rw [Cond.holds, bne_eq_false_iff_eq, ho, ha₁, hstop]
        simp
      · simpa [capMoves] using hc₂
      · rw [ha₂, hstop]
    | succ k =>
      have hne : BitVec.ofNat 64 (i + CAP_SIZE / 8)
          ≠ BitVec.ofNat 64 (i + CAP_SIZE / 8 + (k + 1) * (CAP_SIZE / 8)) := by
        have hpos : CAP_SIZE / 8 ≤ (k + 1) * (CAP_SIZE / 8) := Nat.le_mul_of_pos_left _ (by omega)
        exact ofNat_ne_ofNat (by omega) (by omega) (by omega)
      obtain ⟨c₃, h₃, hc₃, ha₃⟩ := ih hc₂ (by rw [ha₂, hstop]) (by omega) hlt (fun x hx => by
        have h := hg (x + 1) (by omega)
        rwa [Nat.succ_mul, Nat.add_comm (x * _), ← Nat.add_assoc] at h)
      rw [List.append_assoc] at h₃ hc₃
      refine ⟨c₃, h₁.trans (.trans (steps_taken (hcode 2 _ rfl) (hcode 3 _ rfl)
        (labelIndex_memcpy_c hcs base purecap .copy_caps) ?_ hex) h₃), hc₃, ha₃⟩
      rw [Cond.holds, bne_iff_ne, ho, ha₁, hstop]
      exact hne

end caps

end Cheritest
