/-
Cheritest/LibS/Bzero.lean

`bzero` of lib.s.

From twelve bytes on it clears up to the first doubleword boundary, then
doublewords, then the bytes that are left.  The doubleword loop runs at
least once, but twelve bytes less the up to seven of the start need not hold
a doubleword: then the loop's end is its start, and it clears beyond the
range (`bzero_overruns`).
-/
import Cheritest.Mips.Copy
import Cheritest.Mips.Frame

namespace Cheritest

open Mips

/-! ### The routine -/

/-- Labels of `bzero`; the local labels 1 and 2 are each defined twice. -/
inductive BzeroLabel
  | one
  | two
  | smallclr
  | one'
  | two'
  deriving DecidableEq

/-- `bzero`.  The comparison with 12 is the macro `blt`. -/
def bzero : List (Asm BzeroLabel) :=
  [ .slti .at_ .a1 12,
    .bnez .at_ .smallclr,
    .dsubu .a3 .zero .a0,
    .andi .a3 .a3 (8 - 1),
    .beqz .a3 .one,
    .dsubu .a1 .a1 .a3,
    .sdl .zero 0 .a0,
    .daddu .a0 .a0 .a3,
    .label .one,
    .andi .v0 .a1 (8 - 1),
    .dsubu .a3 .a1 .v0,
    .move .a1 .v0,
    .daddu .a3 .a3 .a0,
    .label .two,
    .daddiu .a0 .a0 8,
    .bne .a0 .a3 .two,
    .sd .zero (-8) .a0,
    .label .smallclr,
    .blez .a1 .two',
    .daddu .a3 .a1 .a0,
    .label .one',
    .daddiu .a0 .a0 1,
    .bne .a0 .a3 .one',
    .sb .zero (-1) .a0,
    .label .two',
    .jr .ra,
    .nop ]

/-- The routine, placed at an address. -/
def bzeroText (base : BitVec 64) : Text BzeroLabel where
  base := base
  code := bzero
  fits := by simp [bzero, assemble]

theorem hasAt_bzero (base : BitVec 64) : (bzeroText base).HasAt 0 bzero :=
  .of_drop (show _ = _ ++ [] from rfl)

/-- Bytes from `ptr` to the first doubleword boundary. -/
def headBytes (ptr : BitVec 64) : ℕ := (8 - ptr.toNat % 8) % 8

/-! ### What has been cleared -/

/-- The first `i` bytes from `ptr` are zero and the rest of memory is as it
was. -/
def Cleared (ptr : BitVec 64) (m₀ : Mem) (i : ℕ) (m : Mem) : Prop :=
  ∀ a, m.byte a = if (a - ptr).toNat < i then 0 else m₀.byte a

theorem Cleared.extend {ptr : BitVec 64} {m₀ m m' : Mem} {i k : ℕ} (h : Cleared ptr m₀ i m)
    (hfit : i + k ≤ 2 ^ 64)
    (hm : ∀ a, m'.byte a = if (a - (ptr + BitVec.ofNat 64 i)).toNat < k then 0 else m.byte a) :
    Cleared ptr m₀ (i + k) m' := by
  intro a
  have hoff : a - (ptr + BitVec.ofNat 64 i) = (a - ptr) - BitVec.ofNat 64 i :=
    sub_add_eq_sub_sub a ptr (BitVec.ofNat 64 i)
  have hlt := (a - ptr).isLt
  rcases Nat.eq_zero_or_pos k with rfl | hk
  · rw [hm, if_neg (Nat.not_lt_zero _), h, Nat.add_zero]
  have hsplit : (a - (ptr + BitVec.ofNat 64 i)).toNat < k ↔
      i ≤ (a - ptr).toNat ∧ (a - ptr).toNat < i + k := by
    rw [hoff, BitVec.toNat_sub, BitVec.toNat_ofNat]
    omega
  rw [hm]
  by_cases hin : (a - (ptr + BitVec.ofNat 64 i)).toNat < k
  · obtain ⟨-, hup⟩ := hsplit.mp hin
    rw [if_pos hin, if_pos hup]
  · rw [if_neg hin, h]
    by_cases hlow : (a - ptr).toNat < i
    · rw [if_pos hlow, if_pos (by omega)]
    · have hup : ¬(a - ptr).toNat < i + k := fun hc => hin (hsplit.mpr ⟨by omega, hc⟩)
      rw [if_neg hlow, if_neg hup]

/-- The first `i` bytes from `$a0` have been cleared since the call in state
`c₀`, by stores among them, and `$a0` points behind them. -/
structure Clearing {n : ℕ} (c₀ : Core n) (m₀ : Mem) (i : ℕ) (c : Core n) (m : Mem) : Prop where
  ra : c.get .ra = c₀.get .ra
  pointer : c.get .a0 = c₀.get .a0 + BitVec.ofNat 64 i
  cleared : Cleared (c₀.get .a0) m₀ i m
  stores : ∃ l, c.log = l ++ c₀.log ∧ ∀ x ∈ l, (c₀.get .a0).toNat ≤ x.addr.toNat ∧
    x.addr.toNat + x.size ≤ (c₀.get .a0).toNat + i

/-- The state after clearing `len` bytes, called in state `c` with memory
`m`: no byte outside of them has been stored to. -/
structure Bzeroed {n : ℕ} (len : ℕ) (c : Core n) (m : Mem) (c' : Core n) (m' : Mem) : Prop where
  inside : ∀ i < len, m'.byte (c.get .a0 + BitVec.ofNat 64 i) = 0
  outside : ∀ a : BitVec 64, a.toNat < (c.get .a0).toNat ∨ (c.get .a0).toNat + len ≤ a.toNat →
    m'.byte a = m.byte a
  stores : ∃ l, c'.log = l ++ c.log ∧ ∀ x ∈ l, (c.get .a0).toNat ≤ x.addr.toNat ∧
    x.addr.toNat + x.size ≤ (c.get .a0).toNat + len

section clearing
variable {n : ℕ} {c₀ c c' : Core n} {m₀ m m' : Mem} {i k len : ℕ}

theorem clearing_zero (c : Core n) (m : Mem) : Clearing c m 0 c m where
  ra := rfl
  pointer := (add_zero _).symm
  cleared a := (if_neg (Nat.not_lt_zero _)).symm
  stores := ⟨[], rfl, by simp⟩

/-- Registers that the clearing does not depend on may change. -/
theorem Clearing.congr (h : Clearing c₀ m₀ i c m) (hra : c'.get .ra = c.get .ra)
    (ha0 : c'.get .a0 = c.get .a0) (hlog : c'.log = c.log) : Clearing c₀ m₀ i c' m where
  ra := hra.trans h.ra
  pointer := ha0.trans h.pointer
  cleared := h.cleared
  stores := by
    rw [hlog]
    exact h.stores

/-- A store of zeros right behind what has been cleared. -/
theorem Clearing.store (h : Clearing c₀ m₀ i c m) (hfit : (c₀.get .a0).toNat + (i + k) ≤ 2 ^ 64)
    (hk : 0 < k) (hra : c'.get .ra = c.get .ra)
    (ha0 : c'.get .a0 = c.get .a0 + BitVec.ofNat 64 k)
    (hlog : c'.log = ⟨.store, c₀.get .a0 + BitVec.ofNat 64 i, k⟩ :: c.log)
    (hm : ∀ a, m'.byte a =
      if (a - (c₀.get .a0 + BitVec.ofNat 64 i)).toNat < k then 0 else m.byte a) :
    Clearing c₀ m₀ (i + k) c' m' := by
  constructor
  case ra => exact hra.trans h.ra
  case pointer => rw [ha0, h.pointer, add_assoc, ← BitVec.ofNat_add]
  case cleared => exact h.cleared.extend (by omega) hm
  case stores =>
    obtain ⟨l, hl, hall⟩ := h.stores
    refine ⟨_ :: l, by rw [hlog, hl, List.cons_append], fun x hx => ?_⟩
    rcases List.mem_cons.mp hx with rfl | hx
    · have haddr : (c₀.get .a0 + BitVec.ofNat 64 i).toNat = (c₀.get .a0).toNat + i :=
        toNat_add_ofNat (by omega)
      simp only [haddr]
      omega
    · have := hall x hx
      omega

theorem Clearing.done (h : Clearing c₀ m₀ len c m) (hfit : (c₀.get .a0).toNat + len ≤ 2 ^ 64) :
    Bzeroed len c₀ m₀ c m := by
  constructor
  case inside =>
    intro i hi
    rw [h.cleared, if_pos]
    rw [add_ofNat_sub (by omega)]
    exact hi
  case outside =>
    intro a ha
    rw [h.cleared, if_neg]
    rw [BitVec.toNat_sub]
    omega
  case stores => exact h.stores

end clearing

/-! ### The loops -/

section loops
variable {n : ℕ} (F : CapFormat n) (base : BitVec 64) {c₀ c : Core n} {m₀ m : Mem} {i k len : ℕ}

theorem pointer_ne {p : BitVec 64} {x y : ℕ} (hx : x < 2 ^ 64) (hy : y < 2 ^ 64) (h : x ≠ y) :
    p + BitVec.ofNat 64 x ≠ p + BitVec.ofNat 64 y :=
  fun he => ofNat_ne_ofNat hx hy h (add_left_cancel he)

/-- The store behind a pointer that has been moved on. -/
theorem step_back (p : BitVec 64) (i : ℕ) {k : ℕ} :
    p + BitVec.ofNat 64 (i + k) + -BitVec.ofNat 64 k = p + BitVec.ofNat 64 i := by
  rw [BitVec.ofNat_add, ← add_assoc, add_neg_cancel_right]

/-- A doubleword of zeros. -/
theorem storeDouble_zero (n : ℕ) (m : Mem) (a b : BitVec 64) :
    (m.storeDouble n a 0).byte b = if (b - a).toNat < 8 then 0 else m.byte b := by
  refine if_congr Iff.rfl ?_ rfl
  rw [BitVec.ofNat_eq_ofNat, BitVec.zero_ushiftRight]
  rfl

/-- The body of the doubleword loop: the pointer is moved on, and the delay
slot of the branch clears the doubleword behind it. -/
theorem words_step (hc : Clearing c₀ m₀ i c m) (hfit : (c₀.get .a0).toNat + (i + 8) ≤ 2 ^ 64)
    (hal : ((c₀.get .a0).toNat + i) % 8 = 0) :
    ∃ c₁ c₂ m₂, Steps (bzeroText base) F ((bzeroText base).at 12 c m)
        ((bzeroText base).at 13 c₁ m) ∧
      c₁.get .a0 = c₀.get .a0 + BitVec.ofNat 64 (i + 8) ∧ c₁.get .a3 = c.get .a3 ∧
      Op.exec F c₁ m (.sd .zero (-8) .a0) = .ok (c₂, m₂) ∧ Clearing c₀ m₀ (i + 8) c₂ m₂ ∧
      c₂.get .a3 = c.get .a3 ∧ c₂.get .a1 = c.get .a1 ∧
      c₂.log = ⟨.store, c₀.get .a0 + BitVec.ofNat 64 i, 8⟩ :: c.log := by
  have height : (8 : BitVec 16).signExtend 64 = BitVec.ofNat 64 8 := by decide
  have hneg : (-8 : BitVec 16).signExtend 64 = -BitVec.ofNat 64 8 := by decide
  have hback := step_back (c₀.get .a0) i (k := 8)
  have haddr : (c₀.get .a0 + BitVec.ofNat 64 i).toNat = (c₀.get .a0).toNat + i :=
    toNat_add_ofNat (by omega)
  -- the pointer is raised first, and the store in the delay slot is behind it
  have hptr : c.get .a0 + (8 : BitVec 16).signExtend 64 =
      c₀.get .a0 + BitVec.ofNat 64 (i + 8) := by
    rw [hc.pointer, height, add_assoc, ← BitVec.ofNat_add]
  have hlog : ((c.set .a0 (c.get .a0 + (8 : BitVec 16).signExtend 64)).issue .store
      ((c.set .a0 (c.get .a0 + (8 : BitVec 16).signExtend 64)).get .a0 +
        (-8 : BitVec 16).signExtend 64) 8).log =
      ⟨.store, c₀.get .a0 + BitVec.ofNat 64 i, 8⟩ :: c.log := by
    simp only [Core.log_issue, Core.log_set, ne_eq, reduceCtorEq, not_false_eq_true, Core.get_set,
      if_true, hptr, hneg, hback]
  refine ⟨c.set .a0 (c.get .a0 + (8 : BitVec 16).signExtend 64), _, _,
    steps_op (hasAt_bzero base 12 _ rfl) rfl, ?_, by simp, Op.exec_sd ?_, ?_, by simp, by simp, hlog⟩
  · simpa using hptr
  · simp only [ne_eq, reduceCtorEq, not_false_eq_true, Core.get_set, if_true, hptr, hneg, hback,
      haddr]
    exact hal
  · refine hc.store hfit (by omega) (by simp) (by simp) hlog ?_
    · intro a
      simp only [ne_eq, reduceCtorEq, not_false_eq_true, Core.get_set, if_true, hptr, hneg, hback,
        Core.get_zero]
      exact storeDouble_zero n m _ a

/-- The doubleword loop. -/
theorem words_run (hc : Clearing c₀ m₀ i c m) (hk : 0 < k)
    (hstop : c.get .a3 = c₀.get .a0 + BitVec.ofNat 64 (i + 8 * k))
    (hfit : (c₀.get .a0).toNat + (i + 8 * k) ≤ 2 ^ 64) (hlt : i + 8 * k < 2 ^ 64)
    (hal : ((c₀.get .a0).toNat + i) % 8 = 0) :
    ∃ c' m', Steps (bzeroText base) F ((bzeroText base).at 12 c m)
        ((bzeroText base).at 15 c' m') ∧
      Clearing c₀ m₀ (i + 8 * k) c' m' ∧ c'.get .a1 = c.get .a1 := by
  induction k generalizing i c m with
  | zero => exact absurd hk (Nat.lt_irrefl 0)
  | succ k ih =>
    obtain ⟨c₁, c₂, m₂, h₁, hp, he, hex, hc₂, he₂, ha₂, -⟩ :=
      words_step F base hc (by omega) hal
    have hmul : i + 8 * (k + 1) = i + 8 + 8 * k := by omega
    rw [hmul] at hstop hfit hlt ⊢
    rcases Nat.eq_zero_or_pos k with rfl | hpos
    · -- the last doubleword
      refine ⟨c₂, m₂, h₁.trans (steps_not_taken (hasAt_bzero base 13 _ rfl)
        (hasAt_bzero base 14 _ rfl) ?_ hex), hc₂, ha₂⟩
      rw [Cond.holds, bne_eq_false_iff_eq, hp, he, hstop]
    · obtain ⟨c', m', h₂, hc', ha'⟩ := ih hc₂ hpos (he₂.trans hstop) hfit hlt (by omega)
      refine ⟨c', m', h₁.trans (.trans (steps_taken (hasAt_bzero base 13 _ rfl)
        (hasAt_bzero base 14 _ rfl) (show labelIndex .two bzero = 12 by rfl) ?_ hex) h₂), hc',
        ha'.trans ha₂⟩
      rw [Cond.holds, bne_iff_ne, hp, he, hstop]
      exact pointer_ne (by omega) (by omega) (by omega)

/-- The body of the byte loop. -/
theorem bytes_step (hc : Clearing c₀ m₀ i c m) (hfit : (c₀.get .a0).toNat + (i + 1) ≤ 2 ^ 64) :
    ∃ c₁ c₂ m₂, Steps (bzeroText base) F ((bzeroText base).at 17 c m)
        ((bzeroText base).at 18 c₁ m) ∧
      c₁.get .a0 = c₀.get .a0 + BitVec.ofNat 64 (i + 1) ∧ c₁.get .a3 = c.get .a3 ∧
      Op.exec F c₁ m (.sb .zero (-1) .a0) = .ok (c₂, m₂) ∧ Clearing c₀ m₀ (i + 1) c₂ m₂ ∧
      c₂.get .a3 = c.get .a3 := by
  have hone : (1 : BitVec 16).signExtend 64 = BitVec.ofNat 64 1 := by decide
  have hneg : (-1 : BitVec 16).signExtend 64 = -BitVec.ofNat 64 1 := by decide
  have hback := step_back (c₀.get .a0) i (k := 1)
  -- as in the doubleword loop
  have hptr : c.get .a0 + (1 : BitVec 16).signExtend 64 =
      c₀.get .a0 + BitVec.ofNat 64 (i + 1) := by
    rw [hc.pointer, hone, add_assoc, ← BitVec.ofNat_add]
  refine ⟨c.set .a0 (c.get .a0 + (1 : BitVec 16).signExtend 64), _, _,
    steps_op (hasAt_bzero base 17 _ rfl) rfl, ?_, by simp, rfl, ?_, by simp⟩
  · simpa using hptr
  · refine hc.store hfit (by omega) (by simp) ?_ ?_ ?_
    · simp
    · simp only [Core.log_issue, Core.log_set, ne_eq, reduceCtorEq, not_false_eq_true,
        Core.get_set, if_true, hptr, hneg, hback]
    · intro a
      simp only [ne_eq, reduceCtorEq, not_false_eq_true, Core.get_set, if_true, hptr, hneg, hback,
        Core.get_zero, Mem.storeByte_byte, Function.update_apply]
      refine if_congr ?_ rfl rfl
      constructor
      · rintro rfl
        simp
      · intro hlt
        have hzero : a - (c₀.get .a0 + BitVec.ofNat 64 i) = 0 :=
          BitVec.eq_of_toNat_eq (Nat.lt_one_iff.mp hlt)
        exact sub_eq_zero.mp hzero

/-- The byte loop. -/
theorem bytes_run (hc : Clearing c₀ m₀ i c m) (hk : 0 < k)
    (hstop : c.get .a3 = c₀.get .a0 + BitVec.ofNat 64 (i + k))
    (hfit : (c₀.get .a0).toNat + (i + k) ≤ 2 ^ 64) (hlt : i + k < 2 ^ 64) :
    ∃ c' m', Steps (bzeroText base) F ((bzeroText base).at 17 c m)
        ((bzeroText base).at 20 c' m') ∧ Clearing c₀ m₀ (i + k) c' m' := by
  induction k generalizing i c m with
  | zero => exact absurd hk (Nat.lt_irrefl 0)
  | succ k ih =>
    obtain ⟨c₁, c₂, m₂, h₁, hp, he, hex, hc₂, he₂⟩ :=
      bytes_step F base hc (by omega)
    have hadd : i + (k + 1) = i + 1 + k := by omega
    rw [hadd] at hstop hfit hlt ⊢
    rcases Nat.eq_zero_or_pos k with rfl | hpos
    · refine ⟨c₂, m₂, h₁.trans (steps_not_taken (hasAt_bzero base 18 _ rfl)
        (hasAt_bzero base 19 _ rfl) ?_ hex), hc₂⟩
      rw [Cond.holds, bne_eq_false_iff_eq, hp, he, hstop]
    · obtain ⟨c', m', h₂, hc'⟩ := ih hc₂ hpos (he₂.trans hstop) hfit hlt
      refine ⟨c', m', h₁.trans (.trans (steps_taken (hasAt_bzero base 18 _ rfl)
        (hasAt_bzero base 19 _ rfl) (show labelIndex .one' bzero = 17 by rfl) ?_ hex) h₂), hc'⟩
      rw [Cond.holds, bne_iff_ne, hp, he, hstop]
      exact pointer_ne (by omega) (by omega) (by omega)

end loops

/-! ### The routine from its entry to its return -/

/-- Back at the caller of `bzero`. -/
def bzeroReturned {n : ℕ} (c₀ c : Core n) (m : Mem) : Hart n × Mem :=
  (⟨c, c₀.get .ra, c₀.get .ra + 4⟩, m)

section run
variable {n : ℕ} (F : CapFormat n) (base : BitVec 64) {c₀ c : Core n} {m₀ m : Mem} {i r len : ℕ}

theorem return_run (hc : Clearing c₀ m₀ i c m) :
    Steps (bzeroText base) F ((bzeroText base).at 20 c m) (bzeroReturned c₀ c m) := by
  have h := steps_jr (F := F) (c := c) (m := m) (hasAt_bzero base 20 _ rfl) (hasAt_bzero base 21 _ rfl) rfl
  rw [hc.ra] at h
  exact h

/-- The bytes that are left, and the return. -/
theorem smallclr_run (hc : Clearing c₀ m₀ i c m) (ha1 : c.get .a1 = BitVec.ofNat 64 r)
    (hlen : i + r = len) (hfit : (c₀.get .a0).toNat + len ≤ 2 ^ 64) (hlt : len < 2 ^ 63) :
    ∃ c' m', Steps (bzeroText base) F ((bzeroText base).at 15 c m) (bzeroReturned c₀ c' m') ∧
      Bzeroed len c₀ m₀ c' m' := by
  have hend : c.get .a1 + c.get .a0 = c₀.get .a0 + BitVec.ofNat 64 (i + r) := by
    rw [ha1, hc.pointer, BitVec.ofNat_add, add_comm, add_assoc]
  have hcond : Cond.holds c (.lez .a1) = decide (r = 0) := by
    have hint : (BitVec.ofNat 64 r).toInt = r := toInt_ofNat_small (by omega)
    show decide ((c.get .a1).toInt ≤ 0) = _
    rw [ha1, hint]
    exact decide_eq_decide.mpr (by omega)
  rcases Nat.eq_zero_or_pos r with rfl | hpos
  · obtain rfl : i = len := hlen
    have hc' : Clearing c₀ m₀ i (c.set .a3 (c.get .a1 + c.get .a0)) m :=
      hc.congr (by simp) (by simp) rfl
    exact ⟨_, _, .trans (steps_taken (hasAt_bzero base 15 _ rfl) (hasAt_bzero base 16 _ rfl)
      (show labelIndex .two' bzero = 20 by rfl) (by rw [hcond]; rfl) rfl) (return_run F base hc'),
      hc'.done hfit⟩
  · obtain ⟨c', m', hs, hc'⟩ := bytes_run F base (k := r)
      (c := c.set .a3 (c.get .a1 + c.get .a0)) (hc.congr (by simp) (by simp) rfl) hpos
      (by simpa using hend) (by omega) (by omega)
    rw [hlen] at hc'
    exact ⟨c', m', .trans (steps_not_taken (hasAt_bzero base 15 _ rfl) (hasAt_bzero base 16 _ rfl)
      (by rw [hcond]; exact decide_eq_false (by omega)) rfl) (hs.trans (return_run F base hc')),
      hc'.done hfit⟩

/-- The comparison at the entry. -/
theorem blt_twelve (hlen : (c.get .a1).toNat = len) (hlt : len < 2 ^ 63) :
    Cond.holds (c.set .at_ (if (c.get .a1).toInt < ((12 : BitVec 16).signExtend 64).toInt then 1 else 0))
      (.ne .at_ .zero) = decide (len < 12) := by
  have hint : (c.get .a1).toInt = len := by
    rw [BitVec.toInt_eq_toNat_of_lt (by omega), hlen]
  have htwelve : ((12 : BitVec 16).signExtend 64).toInt = 12 := by decide
  rw [hint, htwelve]
  by_cases h : len < 12
  · rw [if_pos (by omega), decide_eq_true h]
    simp [Cond.holds]
  · rw [if_neg (by omega), decide_eq_false h]
    simp [Cond.holds]

/-- The bytes to the first boundary. -/
theorem headBytes_eq (ptr : BitVec 64) :
    (0 - ptr) &&& ((8 - 1 : BitVec 16)).setWidth 64 = BitVec.ofNat 64 (headBytes ptr) := by
  apply BitVec.eq_of_toNat_eq
  have hmask : (0 - ptr).toNat &&& 7 = (0 - ptr).toNat % 8 :=
    Nat.and_two_pow_sub_one_eq_mod _ 3
  have hptr := ptr.isLt
  rw [BitVec.toNat_and, BitVec.toNat_ofNat]
  change (0 - ptr).toNat &&& 7 = _
  rw [hmask, BitVec.toNat_sub, headBytes]
  show (2 ^ 64 - ptr.toNat + 0) % 2 ^ 64 % 8 = _
  omega

theorem headBytes_lt (ptr : BitVec 64) : headBytes ptr < 8 := Nat.mod_lt _ (by omega)

/-- The words left, masked off. -/
theorem and_seven (x : ℕ) :
    BitVec.ofNat 64 x &&& ((8 - 1 : BitVec 16)).setWidth 64 = BitVec.ofNat 64 (x % 8) := by
  apply BitVec.eq_of_toNat_eq
  have hmask : (BitVec.ofNat 64 x).toNat &&& 7 = (BitVec.ofNat 64 x).toNat % 8 :=
    Nat.and_two_pow_sub_one_eq_mod _ 3
  rw [BitVec.toNat_and]
  change (BitVec.ofNat 64 x).toNat &&& 7 = _
  rw [hmask, BitVec.toNat_ofNat, BitVec.toNat_ofNat]
  omega

theorem ofNat_sub_ofNat {x y : ℕ} (h : y ≤ x) :
    BitVec.ofNat 64 x - BitVec.ofNat 64 y = BitVec.ofNat 64 (x - y) := by
  have hsum : x - y + y = x := Nat.sub_add_cancel h
  conv_lhs => rw [← hsum, BitVec.ofNat_add, add_sub_cancel_right]

/-- From the entry to the branch that skips the unaligned start. -/
theorem head_run (m : Mem) (hlen : (c.get .a1).toNat = len) (hlarge : 12 ≤ len)
    (hlt : len < 2 ^ 63) :
    ∃ c', Steps (bzeroText base) F ((bzeroText base).at 0 c m) ((bzeroText base).at 4 c' m) ∧
      c'.get .a3 = BitVec.ofNat 64 (headBytes (c.get .a0)) ∧ Clearing c m 0 c' m ∧
      c'.get .a1 = BitVec.ofNat 64 len := by
  have hcode := hasAt_bzero base
  refine ⟨_, .trans (steps_op (hcode 0 _ rfl) rfl) (.trans (steps_not_taken (hcode 1 _ rfl)
    (hcode 2 _ rfl) ?_ rfl) (steps_op (hcode 3 _ rfl) rfl)), ?_, ?_, ?_⟩
  · rw [blt_twelve hlen hlt]
    exact decide_eq_false (by omega)
  · simpa using headBytes_eq (c.get .a0)
  · exact (clearing_zero c m).congr (by simp) (by simp) rfl
  · rw [← hlen, BitVec.ofNat_toNat, BitVec.setWidth_eq]
    simp

/-- The leading zeros of a doubleword that starts before a boundary. -/
theorem storeLeft_zero {a : BitVec 64} {k : ℕ} (hk : 8 - a.toNat % 8 = k) (n : ℕ) (m : Mem)
    (b : BitVec 64) :
    (m.storeLeft n a 0).byte b = if (b - a).toNat < k then 0 else m.byte b := by
  subst hk
  refine if_congr Iff.rfl ?_ rfl
  rw [BitVec.ofNat_eq_ofNat, BitVec.zero_ushiftRight]
  rfl

/-- A range that is large enough is cleared up to the first boundary. -/
theorem align_run (m : Mem) (hlen : (c.get .a1).toNat = len) (hlarge : 12 ≤ len)
    (hfit : (c.get .a0).toNat + len ≤ 2 ^ 64) (hlt : len < 2 ^ 63) :
    ∃ c' m', Steps (bzeroText base) F ((bzeroText base).at 0 c m) ((bzeroText base).at 8 c' m') ∧
      Clearing c m (headBytes (c.get .a0)) c' m' ∧
      c'.get .a1 = BitVec.ofNat 64 (len - headBytes (c.get .a0)) := by
  have hcode := hasAt_bzero base
  have hhead := headBytes_lt (c.get .a0)
  have hsub : BitVec.ofNat 64 len - BitVec.ofNat 64 (headBytes (c.get .a0)) =
      BitVec.ofNat 64 (len - headBytes (c.get .a0)) := ofNat_sub_ofNat (by omega)
  obtain ⟨c₁, h₁, ha3, hc₁, ha1⟩ := head_run F base m hlen hlarge hlt
  -- the delay slot takes the start off the length either way
  have hc₂ : Clearing c m 0 (c₁.set .a1 (c₁.get .a1 - c₁.get .a3)) m :=
    hc₁.congr (by simp) (by simp) rfl
  by_cases hzero : headBytes (c.get .a0) = 0
  · refine ⟨_, m, h₁.trans (steps_taken (hcode 4 _ rfl) (hcode 5 _ rfl)
      (show labelIndex .one bzero = 8 by rfl) ?_ rfl), ?_, ?_⟩
    · simp [Cond.holds, ha3, hzero]
    · rw [hzero]
      exact hc₂
    · simp [ha1, ha3, hsub]
  · have hptr : c₁.get .a0 = c.get .a0 := by simpa using hc₁.pointer
    have hroom : 8 - (c.get .a0).toNat % 8 = headBytes (c.get .a0) := by
      unfold headBytes at hzero ⊢
      omega
    have hne : BitVec.ofNat 64 (headBytes (c.get .a0)) ≠ BitVec.ofNat 64 0 :=
      ofNat_ne_ofNat (by omega) (by omega) hzero
    refine ⟨_, _, h₁.trans (.trans (steps_not_taken (hcode 4 _ rfl) (hcode 5 _ rfl) ?_ rfl)
      (.trans (steps_op (hcode 6 _ rfl) rfl) (steps_op (hcode 7 _ rfl) rfl))), ?_, ?_⟩
    · rw [Cond.holds, ha3, Core.get_zero, beq_eq_false_iff_ne]
      exact hne
    · rw [← Nat.zero_add (headBytes (c.get .a0))]
      refine hc₂.store (by omega) (by omega) (by simp) (by simp [ha3]) ?_ ?_
      · simp [hptr, hroom]
      · intro a
        simp only [ne_eq, reduceCtorEq, not_false_eq_true, Core.get_set, if_false, hptr,
          Core.get_zero]
        simpa using storeLeft_zero hroom n m a
    · simp [ha1, ha3, hsub]

/-- Where the doublewords end. -/
theorem bounds_run (hc : Clearing c₀ m₀ i c m) (ha1 : c.get .a1 = BitVec.ofNat 64 r) :
    ∃ c', Steps (bzeroText base) F ((bzeroText base).at 8 c m) ((bzeroText base).at 12 c' m) ∧
      Clearing c₀ m₀ i c' m ∧ c'.get .a1 = BitVec.ofNat 64 (r % 8) ∧
      c'.get .a3 = c₀.get .a0 + BitVec.ofNat 64 (i + 8 * (r / 8)) := by
  have hcode := hasAt_bzero base
  have hmask := and_seven r
  have hsub : BitVec.ofNat 64 r - BitVec.ofNat 64 (r % 8) = BitVec.ofNat 64 (8 * (r / 8)) := by
    rw [ofNat_sub_ofNat (Nat.mod_le r 8)]
    congr 1
    omega
  refine ⟨_, .trans (steps_op (hcode 8 _ rfl) rfl) (.trans (steps_op (hcode 9 _ rfl) rfl)
    (.trans (steps_op (hcode 10 _ rfl) rfl) (steps_op (hcode 11 _ rfl) rfl))), ?_, ?_, ?_⟩
  · exact hc.congr (by simp) (by simp) rfl
  · simp only [ne_eq, reduceCtorEq, not_false_eq_true, Core.get_set, if_true, if_false, ha1, hmask,
      Core.get_zero, add_zero]
  · simp only [ne_eq, reduceCtorEq, not_false_eq_true, Core.get_set, if_true, if_false, ha1, hmask,
      hc.pointer]
    rw [hsub, BitVec.ofNat_add, add_comm, add_assoc]

/-- **A range with a doubleword behind its unaligned start is cleared.** -/
theorem bzero_clears (m : Mem) (hlen : (c.get .a1).toNat = len)
    (hfit : (c.get .a0).toNat + len ≤ 2 ^ 64) (hlt : len < 2 ^ 63)
    (hsafe : len < 12 ∨ headBytes (c.get .a0) + 8 ≤ len) :
    ∃ c' m', Steps (bzeroText base) F ((bzeroText base).at 0 c m) (bzeroReturned c c' m') ∧
      Bzeroed len c m c' m' := by
  by_cases hsmall : len < 12
  · -- a short range: the byte loop alone
    have ha1 : c.get .a1 = BitVec.ofNat 64 len := by
      rw [← hlen, BitVec.ofNat_toNat, BitVec.setWidth_eq]
    have hbranch : Steps (bzeroText base) F ((bzeroText base).at 0 c m) ((bzeroText base).at 15 _ m) :=
      .trans (steps_op (hasAt_bzero base 0 _ rfl) rfl) (steps_taken (hasAt_bzero base 1 _ rfl)
        (hasAt_bzero base 2 _ rfl) (show labelIndex .smallclr bzero = 15 by rfl)
        (by rw [blt_twelve hlen hlt]; exact decide_eq_true hsmall) rfl)
    obtain ⟨c', m', hs, hb⟩ := smallclr_run F base
      (((clearing_zero c m).congr (by simp) (by simp) rfl : Clearing c m 0 ((c.set .at_
        (if (c.get .a1).toInt < ((12 : BitVec 16).signExtend 64).toInt then 1 else 0)).set .a3 _) m))
      (r := len) (by simpa using ha1) (Nat.zero_add len) hfit hlt
    exact ⟨c', m', hbranch.trans hs, hb⟩
  · -- the head up to a doubleword, the doublewords, then the rest by bytes
    have hroom : headBytes (c.get .a0) + 8 ≤ len := hsafe.resolve_left hsmall
    obtain ⟨c₁, m₁, h₁, hc₁, ha₁⟩ :=
      align_run F base m hlen (by omega) hfit hlt
    obtain ⟨c₂, h₂, hc₂, ha₂, hend⟩ := bounds_run F base hc₁ ha₁
    have hal : ((c.get .a0).toNat + headBytes (c.get .a0)) % 8 = 0 := by
      unfold headBytes
      omega
    obtain ⟨c₃, m₃, h₃, hc₃, ha₃⟩ := words_run F base hc₂ (by omega) hend
      (by omega) (by omega) hal
    obtain ⟨c', m', hs, hb⟩ := smallclr_run F base hc₃ (ha₃.trans ha₂)
      (show _ = len by omega) hfit hlt
    exact ⟨c', m', h₁.trans (h₂.trans (h₃.trans hs)), hb⟩

/-- **A range without one is overrun**: a doubleword is stored that does not
end in the range. -/
theorem bzero_overruns (m : Mem) (hlen : (c.get .a1).toNat = len)
    (hfit : (c.get .a0).toNat + len ≤ 2 ^ 64) (hlt : len < 2 ^ 63) (hlarge : 12 ≤ len)
    (hroom : len < headBytes (c.get .a0) + 8) :
    ∃ c' m' l, Steps (bzeroText base) F ((bzeroText base).at 0 c m)
        ((bzeroText base).at 12 c' m') ∧
      c'.log = l ++ c.log ∧ ∃ x ∈ l, (c.get .a0).toNat + len < x.addr.toNat + x.size := by
  have hhead := headBytes_lt (c.get .a0)
  have hal : ((c.get .a0).toNat + headBytes (c.get .a0)) % 8 = 0 := by
    unfold headBytes
    omega
  have haddr : (c.get .a0 + BitVec.ofNat 64 (headBytes (c.get .a0))).toNat =
      (c.get .a0).toNat + headBytes (c.get .a0) := toNat_add_ofNat (by omega)
  obtain ⟨c₁, m₁, h₁, hc₁, ha₁⟩ := align_run F base m hlen hlarge hfit hlt
  obtain ⟨c₂, h₂, hc₂, -, hend⟩ := bounds_run F base hc₁ ha₁
  -- less than a doubleword is left, so the loop ends where it starts
  have hnone : (len - headBytes (c.get .a0)) / 8 = 0 := Nat.div_eq_of_lt (by omega)
  rw [hnone, Nat.mul_zero, Nat.add_zero] at hend
  obtain ⟨c₃, c₄, m₄, h₃, hp, he, hex, -, -, -, hlog⟩ :=
    words_step F base hc₂ (by omega) hal
  obtain ⟨l, hl, -⟩ := hc₂.stores
  refine ⟨c₄, m₄, _ :: l, h₁.trans (h₂.trans (h₃.trans (steps_taken (hasAt_bzero base 13 _ rfl)
    (hasAt_bzero base 14 _ rfl) (show labelIndex .two bzero = 12 by rfl) ?_ hex))),
    by rw [hlog, hl, List.cons_append], _, List.mem_cons_self, ?_⟩
  · rw [Cond.holds, bne_iff_ne, hp, he, hend]
    exact pointer_ne (by omega) (by omega) (by omega)
  · simp only [haddr]
    omega

/-- Such a call does not come back having stored to the range alone. -/
theorem not_bzeroed (m : Mem) (hlen : (c.get .a1).toNat = len)
    (hfit : (c.get .a0).toNat + len ≤ 2 ^ 64) (hlt : len < 2 ^ 63) (hlarge : 12 ≤ len)
    (hroom : len < headBytes (c.get .a0) + 8) (hout : (bzeroText base).fetch (c.get .ra) = none) :
    ¬∃ c' m', Steps (bzeroText base) F ((bzeroText base).at 0 c m) (bzeroReturned c c' m') ∧
      Bzeroed len c m c' m' := by
  rintro ⟨c', m', hs, hb⟩
  obtain ⟨c₁, m₁, l, h₁, hl, x, hx, hover⟩ :=
    bzero_overruns F base m hlen hfit hlt hlarge hroom
  have hstuck : ∀ t, ¬Step (bzeroText base) F (bzeroReturned c c' m') t := by
    rintro t ⟨-, ht⟩
    simp only [bzeroReturned, Hart.step, hout] at ht
    cases ht
  obtain ⟨l', hl'⟩ := (steps_to_last hs hstuck h₁).log
  obtain ⟨l₀, hl₀, hall⟩ := hb.stores
  have hsame : l₀ = l' ++ l := by
    have hlogs : l₀ ++ c.log = l' ++ l ++ c.log := by
      rw [← hl₀, List.append_assoc, ← hl]
      exact hl'
    exact List.append_cancel_right hlogs
  have hmem : x ∈ l₀ := by
    rw [hsame]
    exact List.mem_append_right _ hx
  have := hall x hmem
  omega

end run

/-- **When `bzero` clears its range and nothing else**: a range of less than
twelve bytes, or with a doubleword behind its unaligned start. -/
theorem bzero_correct_iff {n : ℕ} (F : CapFormat n) (base : BitVec 64) (c : Core n) (m : Mem)
    (hfit : (c.get .a0).toNat + (c.get .a1).toNat ≤ 2 ^ 64) (hlt : (c.get .a1).toNat < 2 ^ 63)
    (hout : (bzeroText base).fetch (c.get .ra) = none) :
    (∃ c' m', Steps (bzeroText base) F ((bzeroText base).at 0 c m) (bzeroReturned c c' m') ∧
      Bzeroed (c.get .a1).toNat c m c' m') ↔
      (c.get .a1).toNat < 12 ∨ headBytes (c.get .a0) + 8 ≤ (c.get .a1).toNat := by
  constructor
  · intro h
    by_contra hnot
    rw [not_or] at hnot
    exact not_bzeroed F base m rfl hfit hlt (by omega) (by omega) hout h
  · exact bzero_clears F base m rfl hfit hlt

/-- A call of `bzero`, returning to 0x9000. -/
def bzeroCall (ptr len : BitVec 64) : Core 32 where
  gpr r := if r = .a0 then ptr else if r = .a1 then len else if r = .ra then 0x9000 else 0
  cap _ := ⟨false, fun _ => 0⟩
  cp0 _ _ := 0
  capCause := 0
  log := []

/-- A format without capabilities, which `bzero` does not use. -/
def plainFormat : CapFormat 32 where
  base _ := 0
  top _ := 0
  top_le _ := Nat.zero_le _
  offset _ := 0
  isSealed _ := false
  perm _ _ := false

/-- Forty bytes from 0x1003. -/
theorem bzero_correct_iff_forty :
    (∃ c' m', Steps (bzeroText 0x8000) plainFormat ((bzeroText 0x8000).at 0 (bzeroCall 0x1003 40)
        ⟨fun _ => 7, fun _ => false⟩) (bzeroReturned (bzeroCall 0x1003 40) c' m') ∧
      Bzeroed 40 (bzeroCall 0x1003 40) ⟨fun _ => 7, fun _ => false⟩ c' m') ↔
      40 < 12 ∨ headBytes 0x1003 + 8 ≤ 40 :=
  bzero_correct_iff plainFormat 0x8000 (bzeroCall 0x1003 40) ⟨fun _ => 7, fun _ => false⟩
    (by decide) (by decide) rfl

/-- Twelve bytes from 0x1001: seven to the boundary, and five behind it. -/
theorem bzero_overruns_twelve :
    ¬∃ c' m', Steps (bzeroText 0x8000) plainFormat ((bzeroText 0x8000).at 0 (bzeroCall 0x1001 12)
        ⟨fun _ => 7, fun _ => false⟩) (bzeroReturned (bzeroCall 0x1001 12) c' m') ∧
      Bzeroed 12 (bzeroCall 0x1001 12) ⟨fun _ => 7, fun _ => false⟩ c' m' :=
  not_bzeroed plainFormat 0x8000 ⟨fun _ => 7, fun _ => false⟩ (by decide) (by decide) (by decide) (by decide)
    (by decide) rfl

end Cheritest
