/-
Cheritest/CheriC/MemcpyLoops.lean

The loops of memcpy.c.

While the copy runs, the offsets between some `lo` and `hi` have been copied
(`Progress`): upwards `lo` is 0 and downwards `hi` is the length.  One
assignment moves one end by its size (`Progress.assign`) and a loop by a
multiple of it (`Progress.up`, `Progress.down`).

With capabilities of `psize` bytes and congruent arguments, a slot that lies
wholly in the destination is only ever written as a pointer: everything else
is `Clear` of such slots.
-/
import Cheritest.CheriC.Memcpy
import Cheritest.Lib.BlockCopy
import Cheritest.Mips.Copy
import Mathlib.Tactic.Ring

open Mips

namespace Cheritest

namespace CheriC

/-! ### The state of a copy -/

section progress
variable (n psize : ℕ) (C : CopyCall)

/-- The sizes of a pointer. -/
def IsPtrSize : Prop := psize = 8 ∨ psize = 16 ∨ psize = 32

/-- Neither object wraps. -/
structure CopyCall.Fits : Prop where
  dst : C.dst0.toNat + C.length.toNat ≤ 2 ^ 64
  src : C.src0.toNat + C.length.toNat ≤ 2 ^ 64

/-- A capability slot at offset `o`, wholly in the destination. -/
structure CopyCall.Slot (o : ℕ) : Prop where
  aligned : (C.dst0.toNat + o) % n = 0
  inside : o + n ≤ C.length.toNat

/-- Pointers are capabilities, and those of the source can be aligned in the
destination. -/
structure CopyCall.Keeps : Prop where
  size : psize = n
  congruent : C.dst0.toNat % n = C.src0.toNat % n

/-- No slot has an offset between `i` and `j`. -/
def CopyCall.Clear (i j : ℕ) : Prop := C.Keeps n psize → ∀ o, C.Slot n o → o + n ≤ i ∨ j ≤ o

/-- The offsets from `lo` to `hi` have been copied, slots with their tags, and
nothing else has changed. -/
structure CopyCall.Progress (m₀ : Mem) (lo hi : ℕ) (m : Mem) : Prop where
  bytes : BlockCopy.CopiedBetween C.dst0 C.src0 m₀.byte lo hi m.byte
  slots : C.Keeps n psize → ∀ o, C.Slot n o → lo ≤ o → o + n ≤ hi →
    m.tag ((C.dst0.toNat + o) / n) = m₀.tag ((C.src0.toNat + o) / n)
  other : ∀ g, (∀ j, lo ≤ j → j < hi → (C.dst0.toNat + j) / n ≠ g) → m.tag g = m₀.tag g

/-- Both objects are aligned at an offset. -/
structure CopyCall.Aligned (k i : ℕ) : Prop where
  dst : (C.dst0.toNat + i) % k = 0
  src : (C.src0.toNat + i) % k = 0

end progress

variable {n psize fuel : ℕ} {C : CopyCall} {m₀ m : Mem} {T : CType} {lo hi lo' hi' i t k : ℕ}

theorem CopyCall.Keeps.pos (hp : IsPtrSize psize) (h : C.Keeps n psize) : 0 < n := by
  have := h.size
  unfold IsPtrSize at hp
  omega

theorem progress_self (hp : IsPtrSize psize) (i : ℕ) : C.Progress n psize m i i m := by
  refine ⟨BlockCopy.copiedBetween_self _ _ _ _, fun hkeeps o _ h₁ h₂ => ?_, fun _ _ => rfl⟩
  have := hkeeps.pos hp
  omega

/-- Reading the bytes of a block one by one. -/
theorem copyBytes_byte {isCap : Bool} {size : ℕ} {dst src : BitVec 64} (hsize : size ≤ 2 ^ 64) :
    (copyBytes n size isCap dst src m).byte = BlockCopy.Block.copy ⟨src, dst, size⟩ m.byte := by
  funext a
  have hcast (i : ℕ) : ((i : ℕ) : BitVec 64) = BitVec.ofNat 64 i := rfl
  have hnodup : (BlockCopy.Block.writes ⟨src, dst, size⟩ : List (BitVec 64)).Nodup := by
    refine List.Nodup.map_on (fun i hi j hj heq => ?_) List.nodup_range
    simp only [List.mem_range] at hi hj
    by_contra hne
    exact ofNat_ne_ofNat (by omega) (by omega) hne (add_left_cancel heq)
  show (if _ then _ else _) = _
  by_cases hin : (a - dst).toNat < size
  · have hcopy := BlockCopy.Block.copy_dst (m := m.byte) hnodup hin
    rw [hcast, add_ofNat_toNat_sub, BitVec.ofNat_toNat, BitVec.setWidth_eq] at hcopy
    rw [if_pos hin, hcopy]
  · rw [if_neg hin, BlockCopy.Block.copy_of_not_mem]
    intro hmem
    obtain ⟨j, hj, heq⟩ := BlockCopy.mem_writes.mp hmem
    simp only [hcast] at hj heq
    rw [heq, add_ofNat_sub (by omega)] at hin
    omega

theorem size_pos (hp : IsPtrSize psize) (T : CType) : 0 < T.size psize := by
  unfold IsPtrSize at hp
  cases T <;> simp only [CType.size, wsize] <;> omega

theorem toNat_dst (hC : C.Fits) (hi : i < C.length.toNat) :
    (C.dst0 + BitVec.ofNat 64 i).toNat = C.dst0.toNat + i :=
  toNat_add_ofNat (by have := hC.dst; omega)

theorem toNat_src (hC : C.Fits) (hi : i < C.length.toNat) :
    (C.src0 + BitVec.ofNat 64 i).toNat = C.src0.toNat + i :=
  toNat_add_ofNat (by have := hC.src; omega)

/-- Two aligned units that are not the same do not overlap. -/
theorem apart_of_aligned {a o t n : ℕ} (ho : (a + o) % n = 0) (ht : (a + t) % n = 0)
    (hne : o ≠ t) : o + n ≤ t ∨ t + n ≤ o := by
  have h₁ := Nat.div_add_mod (a + o) n
  have h₂ := Nat.div_add_mod (a + t) n
  rw [ho] at h₁
  rw [ht] at h₂
  rcases Nat.lt_trichotomy ((a + o) / n) ((a + t) / n) with hlt | heq | hgt
  · left
    have := Nat.mul_le_mul_left n (show (a + o) / n + 1 ≤ (a + t) / n from hlt)
    rw [Nat.mul_succ] at this
    omega
  · rw [heq] at h₁
    omega
  · right
    have := Nat.mul_le_mul_left n (show (a + t) / n + 1 ≤ (a + o) / n from hgt)
    rw [Nat.mul_succ] at this
    omega

/-- The bytes of a granule. -/
theorem granule_eq_iff {a o j n : ℕ} (ho : (a + o) % n = 0) (hn : 0 < n) :
    (a + j) / n = (a + o) / n ↔ o ≤ j ∧ j < o + n := by
  have h₁ := Nat.div_add_mod (a + o) n
  rw [ho, add_zero] at h₁
  rw [Nat.div_eq_iff hn, Nat.mul_comm]
  constructor
  · rintro ⟨h₂, h₃⟩
    omega
  · rintro ⟨h₂, h₃⟩
    omega

theorem tag_copyBytes_cap {size : ℕ} {dst src : BitVec 64} {g : ℕ} :
    (copyBytes n size true dst src m).tag g
      = if g = dst.toNat / n then m.tag (src.toNat / n) else m.tag g := rfl

theorem tag_copyBytes_data {size : ℕ} {dst src : BitVec 64} {g : ℕ} :
    (copyBytes n size false dst src m).tag g
      = if ∃ j < size, (dst.toNat + j) / n = g then false else m.tag g := rfl

theorem isCap_true : (decide (CType.ptr = .ptr) && decide (psize = psize)) = true := by
  rw [decide_eq_true rfl, decide_eq_true rfl]
  rfl

theorem isCap_false (h : ¬(T = .ptr ∧ psize = n)) : (decide (T = .ptr) && decide (psize = n)) = false := by
  rw [← Bool.decide_and, decide_eq_false h]

/-- An assignment that is allowed. -/
theorem assign_eq (hC : C.Fits) (hin : t + T.size psize ≤ C.length.toNat) (hpos : 0 < T.size psize)
    (hal : C.Aligned (T.size psize) t) :
    assign n psize C T (C.dst0 + BitVec.ofNat 64 t) (C.src0 + BitVec.ofNat 64 t) m
      = some (copyBytes n (T.size psize) (T = .ptr && psize = n) (C.dst0 + BitVec.ofNat 64 t)
          (C.src0 + BitVec.ofNat 64 t) m) := by
  have hlen := C.length.isLt
  refine if_pos ⟨?_, ?_, ?_, ?_⟩
  · rw [toNat_dst hC (by omega)]
    exact hal.dst
  · rw [toNat_src hC (by omega)]
    exact hal.src
  · rw [within, add_ofNat_sub (by omega)]
    exact decide_eq_true hin
  · rw [within, add_ofNat_sub (by omega)]
    exact decide_eq_true hin

/-- **One assignment.**  A unit beside what has been copied is copied, if its
source has not been written yet and it cuts no slot. -/
theorem CopyCall.Progress.assign (hC : C.Fits) (hp : IsPtrSize psize) (h : C.Progress n psize m₀ lo hi m)
    (hk : T.size psize = k)
    (hjoin : ∀ i, lo' ≤ i ∧ i < hi' ↔ (lo ≤ i ∧ i < hi) ∨ (t ≤ i ∧ i < t + k))
    (hlen : hi' ≤ C.length.toNat) (hin : t + k ≤ C.length.toNat) (hal : C.Aligned k t)
    (hread : ∀ i j, t ≤ i → i < t + k → lo ≤ j → j < hi → C.src0.toNat + i ≠ C.dst0.toNat + j)
    (hclear : T = .ptr ∧ psize = n ∨ C.Clear n psize t (t + k)) :
    ∃ m', CheriC.assign n psize C T (C.dst0 + BitVec.ofNat 64 t) (C.src0 + BitVec.ofNat 64 t) m
        = some m' ∧ C.Progress n psize m₀ lo' hi' m' := by
  subst hk
  have hpos := size_pos hp T
  have hsize := C.length.isLt
  refine ⟨_, assign_eq hC hin hpos hal, ?_⟩
  -- the offsets copied before, all in the objects
  have hold (j : ℕ) (h₁ : lo ≤ j) (h₂ : j < hi) : j < C.length.toNat := by
    have := ((hjoin j).mpr (.inl ⟨h₁, h₂⟩)).2
    omega
  constructor
  case bytes =>
    rw [copyBytes_byte (by omega)]
    refine h.bytes.copy hjoin (fun i j _ hi _ hj heq => ?_) fun i j h₁ h₂ h₃ h₄ heq => ?_
    · by_contra hne
      exact ofNat_ne_ofNat (by omega) (by omega) hne (add_left_cancel heq)
    · have hnat := congrArg BitVec.toNat heq
      have := hold j h₃ h₄
      erw [toNat_src hC (by omega), toNat_dst hC (by omega)] at hnat
      exact hread i j h₁ h₂ h₃ h₄ hnat
  case slots =>
    intro hkeeps o hslot hlo hhi
    have hn := hkeeps.pos hp
    have hlast := (hjoin (o + n - 1)).mp ⟨by omega, by omega⟩
    have hfirst := (hjoin o).mp ⟨hlo, by omega⟩
    -- a slot beside the unit
    have hbeside (happ : o + n ≤ t ∨ t + T.size psize ≤ o) :
        m.tag ((C.dst0.toNat + o) / n) = m₀.tag ((C.src0.toNat + o) / n) :=
      h.slots hkeeps o hslot (by omega) (by omega)
    by_cases hcap : T = .ptr ∧ psize = n
    · obtain ⟨rfl, rfl⟩ := hcap
      have hunit : CType.size psize .ptr = psize := rfl
      by_cases ho : o = t
      · subst ho
        have hsrc : m.tag ((C.src0.toNat + o) / psize) = m₀.tag ((C.src0.toNat + o) / psize) := by
          refine h.other _ fun j h₁ h₂ heq => ?_
          -- the granule of the source has not been written
          have hgran := Nat.div_add_mod (C.src0.toNat + o) psize
          have hj := Nat.div_add_mod (C.dst0.toNat + j) psize
          have hlt := Nat.mod_lt (C.dst0.toNat + j) hn
          have hal₂ := hal.src
          rw [hunit] at hal₂
          rw [heq] at hj
          rw [hal₂] at hgran
          exact hread (o + (C.dst0.toNat + j) % psize) j (by omega) (by omega) h₁ h₂ (by omega)
        rw [isCap_true, tag_copyBytes_cap, toNat_dst hC (by omega), toNat_src hC (by omega),
          if_pos rfl, hsrc]
      · have happ := apart_of_aligned hslot.aligned hal.dst ho
        have hne : (C.dst0.toNat + o) / psize ≠ (C.dst0.toNat + t) / psize := by
          intro heq
          have := (granule_eq_iff hal.dst hn).mp heq
          omega
        rw [isCap_true, tag_copyBytes_cap, toNat_dst hC (by omega), if_neg hne]
        exact hbeside happ
    · have happ := hclear.resolve_left hcap hkeeps o hslot
      rw [isCap_false hcap, tag_copyBytes_data, toNat_dst hC (by omega), if_neg]
      · exact hbeside happ
      · rintro ⟨j, hj, heq⟩
        rw [Nat.add_assoc, granule_eq_iff hslot.aligned hn] at heq
        omega
  case other =>
    intro g hg
    have hg₁ : m.tag g = m₀.tag g := by
      refine h.other g fun j h₁ h₂ => ?_
      have := (hjoin j).mpr (.inl ⟨h₁, h₂⟩)
      exact hg j this.1 this.2
    have hg₂ (j : ℕ) (hj : j < T.size psize) : (C.dst0.toNat + t + j) / n ≠ g := by
      have := (hjoin (t + j)).mpr (.inr ⟨by omega, by omega⟩)
      rw [Nat.add_assoc]
      exact hg _ this.1 this.2
    by_cases hcap : T = .ptr ∧ psize = n
    · obtain ⟨rfl, rfl⟩ := hcap
      rw [isCap_true, tag_copyBytes_cap, toNat_dst hC (by omega), if_neg fun heq => hg₂ 0 hpos heq.symm]
      exact hg₁
    · rw [isCap_false hcap, tag_copyBytes_data, toNat_dst hC (by omega), if_neg]
      · exact hg₁
      · rintro ⟨j, hj, heq⟩
        exact hg₂ j hj heq

/-! ### The loops -/

/-- A loop whose index takes the values `idx 0`, `idx 1`, …, of which
`idx (count - 1)` is the first to be `last`. -/
theorem mipsLoop_run {last increment : BitVec 64} {statements : BitVec 64 → Mem → Option Mem}
    (idx : ℕ → BitVec 64) (P : ℕ → Mem → Prop) {count : ℕ} (hfuel : count ≤ fuel)
    (hnext : ∀ j < count, idx j + increment = idx (j + 1)) (hlast : idx count = last)
    (hne : ∀ j, 0 < j → j < count → idx j ≠ last)
    (hstep : ∀ j < count, ∀ m, P j m → ∃ m', statements (idx (j + 1)) m = some m' ∧ P (j + 1) m')
    (hpos : 0 < count) (hP : P 0 m) :
    ∃ m', mipsLoop last increment statements fuel (idx 0) m = some m' ∧ P count m' := by
  induction count generalizing fuel idx P m with
  | zero => omega
  | succ count ih =>
    obtain ⟨fuel, rfl⟩ : ∃ f, fuel = f + 1 := ⟨fuel - 1, by omega⟩
    obtain ⟨m₁, hm₁, hP₁⟩ := hstep 0 (by omega) m hP
    rw [mipsLoop, hnext 0 (by omega), hm₁, Option.bind_some]
    rcases Nat.eq_zero_or_pos count with rfl | hcount
    · exact ⟨m₁, if_neg (not_not.mpr hlast), hP₁⟩
    · rw [if_pos (hne 1 (by omega) (by omega))]
      exact ih (fun j => idx (j + 1)) (fun j => P (j + 1)) (by omega)
        (fun j hj => hnext (j + 1) (by omega)) hlast (fun j h₁ h₂ => hne (j + 1) (by omega) (by omega))
        (fun j hj => hstep (j + 1) (by omega)) hcount hP₁

/-- An upward copy reads ahead of what it writes, or elsewhere. -/
def CopyCall.Upward (C : CopyCall) : Prop :=
  C.dst0.toNat < C.src0.toNat ∨ C.src0.toNat + C.length.toNat ≤ C.dst0.toNat

theorem ofNat_add_neg {a b c : ℕ} (h : a = b + c) :
    BitVec.ofNat 64 a + -BitVec.ofNat 64 c = BitVec.ofNat 64 b := by
  rw [h, BitVec.ofNat_add]
  exact add_neg_cancel_right _ _

theorem CopyCall.Aligned.add (h : C.Aligned k i) (j : ℕ) : C.Aligned k (i + j * k) := by
  obtain ⟨hd, hs⟩ := h
  constructor
  · rwa [← Nat.add_assoc, Nat.add_mul_mod_self_right]
  · rwa [← Nat.add_assoc, Nat.add_mul_mod_self_right]

theorem CopyCall.Clear.mono (h : C.Clear n psize lo hi) (hlo : lo ≤ lo') (hhi : hi' ≤ hi) :
    C.Clear n psize lo' hi' := by
  intro hkeeps o hslot
  have := h hkeeps o hslot
  omega

/-- **A loop upwards** copies `count` units from offset `i` on. -/
theorem CopyCall.Progress.up (hC : C.Fits) (hp : IsPtrSize psize) (hup : C.Upward) {count : ℕ}
    (hfuel : C.length.toNat ≤ fuel) (h : C.Progress n psize m₀ 0 i m) (hk : T.size psize = k)
    (hpos : 0 < count) (hin : i + count * k ≤ C.length.toNat) (hal : C.Aligned k i)
    (hclear : T = .ptr ∧ psize = n ∨ C.Clear n psize i (i + count * k)) :
    ∃ m', MIPSLOOP fuel (-BitVec.ofNat 64 (count * k)) (-BitVec.ofNat 64 k)
        (fun t => CheriC.assign n psize C T (C.dst0 + BitVec.ofNat 64 (i + count * k) + t)
          (C.src0 + BitVec.ofNat 64 (i + count * k) + t)) (BitVec.ofNat 64 k) m = some m' ∧
      C.Progress n psize m₀ 0 (i + count * k) m' := by
  have hunit := size_pos hp T
  rw [hk] at hunit
  have hlen := C.length.isLt
  have hcount : count ≤ count * k := Nat.le_mul_of_pos_right count hunit
  have hstart : -BitVec.ofNat 64 (count * k) - BitVec.ofNat 64 k
      = -BitVec.ofNat 64 ((count + 1 - 0) * k) := by
    rw [Nat.sub_zero, Nat.succ_mul, BitVec.ofNat_add, neg_add, sub_eq_add_neg]
  rw [MIPSLOOP, hstart]
  -- the index is negative and rises; iteration `j` copies the unit `j`
  refine mipsLoop_run (fun j => -BitVec.ofNat 64 ((count + 1 - j) * k))
    (fun j => C.Progress n psize m₀ 0 (i + j * k)) (by omega) (fun j hj => ?_) ?_
    (fun j h₁ h₂ => ?_) (fun j hj m hm => ?_) hpos (by simpa using h)
  · show -BitVec.ofNat 64 _ + _ = -BitVec.ofNat 64 _
    rw [show count + 1 - j = count + 1 - (j + 1) + 1 by omega, Nat.succ_mul, BitVec.ofNat_add, neg_add,
      neg_add_cancel_right]
  · show -BitVec.ofNat 64 _ = _
    rw [Nat.add_sub_cancel_left, Nat.one_mul]
  · -- the index is not yet `-k`
    have hle : (count + 1 - j) * k ≤ count * k := Nat.mul_le_mul_right k (by omega)
    have hlt : 1 * k < (count + 1 - j) * k := Nat.mul_lt_mul_of_pos_right (by omega) hunit
    intro heq
    exact ofNat_ne_ofNat (by omega) (by omega) (by omega) (neg_injective heq)
  · have hat (p : BitVec 64) : p + BitVec.ofNat 64 (i + count * k) +
        -BitVec.ofNat 64 ((count + 1 - (j + 1)) * k) = p + BitVec.ofNat 64 (i + j * k) := by
      rw [add_assoc, ofNat_add_neg]
      rw [Nat.add_assoc, ← Nat.add_mul]
      congr 2
      omega
    have hle : j * k + k ≤ count * k := by
      rw [← Nat.succ_mul]
      exact Nat.mul_le_mul_right k hj
    simp only [hat]
    refine hm.assign hC hp hk (fun x => ?_) (by rw [Nat.succ_mul]; omega) (by omega)
      (hal.add j) (fun x y h₁ h₂ h₃ h₄ => ?_) ?_
    · rw [Nat.succ_mul]
      omega
    · unfold CopyCall.Upward at hup
      omega
    · exact hclear.imp_right fun hc => hc.mono (by omega) (by omega)

/-- **A loop downwards** copies `count` units up to an offset. -/
theorem CopyCall.Progress.down (hC : C.Fits) (hp : IsPtrSize psize) (hdown : C.src0.toNat < C.dst0.toNat)
    {count : ℕ} (hfuel : C.length.toNat ≤ fuel)
    (h : C.Progress n psize m₀ (i + count * k) C.length.toNat m) (hk : T.size psize = k)
    (hpos : 0 < count) (hin : i + count * k ≤ C.length.toNat) (hal : C.Aligned k i)
    (hclear : T = .ptr ∧ psize = n ∨ C.Clear n psize i (i + count * k)) :
    ∃ m', MIPSLOOP fuel (BitVec.ofNat 64 ((count - 1) * k)) 0
        (fun t => CheriC.assign n psize C T (C.dst0 + BitVec.ofNat 64 i + t)
          (C.src0 + BitVec.ofNat 64 i + t)) (-BitVec.ofNat 64 k) m = some m' ∧
      C.Progress n psize m₀ i C.length.toNat m' := by
  have hunit := size_pos hp T
  rw [hk] at hunit
  have hlen := C.length.isLt
  have hcount : count ≤ count * k := Nat.le_mul_of_pos_right count hunit
  have hstart : BitVec.ofNat 64 ((count - 1) * k) - -BitVec.ofNat 64 k
      = BitVec.ofNat 64 ((count - 0) * k) := by
    rw [sub_neg_eq_add, ← BitVec.ofNat_add, ← Nat.succ_mul]
    congr 2
    omega
  rw [MIPSLOOP, hstart]
  -- the index falls to zero; iteration `j` copies the unit before the last `j`
  refine (mipsLoop_run (fun j => BitVec.ofNat 64 ((count - j) * k))
    (fun j => C.Progress n psize m₀ (i + (count - j) * k) C.length.toNat) (by omega)
    (fun j hj => ?_) ?_ (fun j h₁ h₂ => ?_) (fun j hj m hm => ?_) hpos (by simpa using h)).imp
    fun m' hm' => ⟨hm'.1, by simpa using hm'.2⟩
  · refine ofNat_add_neg ?_
    rw [← Nat.succ_mul]
    congr 1
    omega
  · show BitVec.ofNat 64 _ = _
    rw [Nat.sub_self, Nat.zero_mul]
    rfl
  · have hle : (count - j) * k ≤ count * k := Nat.mul_le_mul_right k (by omega)
    have hlt : 0 < (count - j) * k := Nat.mul_pos (by omega) hunit
    have hne : (count - j) * k ≠ 0 := by omega
    exact ofNat_ne_ofNat (by omega) (by norm_num) hne
  · have hsplit : (count - j) * k = (count - (j + 1)) * k + k := by
      rw [← Nat.succ_mul]
      congr 1
      omega
    have hle : (count - j) * k ≤ count * k := Nat.mul_le_mul_right k (by omega)
    have hat (p : BitVec 64) : p + BitVec.ofNat 64 i + BitVec.ofNat 64 ((count - (j + 1)) * k)
        = p + BitVec.ofNat 64 (i + (count - (j + 1)) * k) := by
      rw [add_assoc, ← BitVec.ofNat_add]
    simp only [hat]
    refine hm.assign hC hp hk (fun x => ?_) (le_refl _) (by omega) (hal.add _)
      (fun x y h₁ h₂ h₃ h₄ => ?_) ?_
    · omega
    · omega
    · exact hclear.imp_right fun hc => hc.mono (by omega) (by omega)

end CheriC

end Cheritest
