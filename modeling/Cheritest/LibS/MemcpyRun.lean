/-
Cheritest/LibS/MemcpyRun.lean

`memcpy_c` from its entry to its return.

`memcpy_c_refines` says that a call whose additions do not overflow carries
out exactly the moves of `copyPlan`, and `memcpy_c_traps` that any other call
traps.  `memcpy_c_correct` is what follows for memory and for the accesses
made.
-/
import Cheritest.LibS.Memcpy

namespace Cheritest

open Mips

/-! ### The choice of the path -/

section choose
variable {CAP_SIZE : ℕ} (hcs : CAP_SIZE = 128 ∨ CAP_SIZE = 256) (base : BitVec 64) (purecap : Bool)
  {F : CapFormat (CAP_SIZE / 8)} {c : Core (CAP_SIZE / 8)} (m : Mem)
include hcs

/-- From the entry to the comparison of the two addresses. -/
theorem compare_residues (h0 : c.get .a0 ≠ 0)
    (hdst : (F.base (c.cap 3).data).saddOverflow (F.offset (c.cap 3).data) = false)
    (hsrc : (F.base (c.cap 4).data).saddOverflow (F.offset (c.cap 4).data) = false) :
    ∃ c₁, Steps (memcpyText base CAP_SIZE purecap) F
        ((memcpyText base CAP_SIZE purecap).at 0 c m)
        ((memcpyText base CAP_SIZE purecap).at 10 c₁ m) ∧
      Copying F c [] 0 c₁ ∧
      c₁.get .t0 = BitVec.ofNat 64 ((F.cursor (c.cap 3)).toNat % (CAP_SIZE / 8)) ∧
      c₁.get .t1 = BitVec.ofNat 64 ((F.cursor (c.cap 4)).toNat % (CAP_SIZE / 8)) := by
  have hcode := hasAt_chooseCode hcs base purecap
  have hn : CAP_SIZE / 8 = 16 ∨ CAP_SIZE / 8 = 32 := by omega
  apply Exists.intro
  refine ⟨?_, ?_, ?_, ?_⟩
  · refine .trans (steps_not_taken (hcode 0 _ rfl) (hcode 1 _ rfl) ?_ rfl) ?_
    · simpa [Cond.holds] using h0
    refine .trans (steps_op (hcode 2 _ rfl) rfl) ?_
    refine .trans (steps_op (hcode 3 _ rfl) (Op.exec_dadd ?_)) ?_
    · simpa using hdst
    refine .trans (steps_op (hcode 4 _ rfl) rfl) ?_
    refine .trans (steps_op (hcode 5 _ rfl) rfl) ?_
    refine .trans (steps_op (hcode 6 _ rfl) (Op.exec_dadd ?_)) ?_
    · simpa using hsrc
    refine .trans (steps_op (hcode 7 _ rfl) rfl) ?_
    refine .trans (steps_op (hcode 8 _ rfl) rfl) ?_
    exact steps_op (hcode 9 _ rfl) (Op.exec_daddi (by rfl))
  · constructor
    case offset => simp
    case len => simp
    case ret => simp [CapFormat.cursor]
    case ra => simp
    case caps =>
      intro x _
      rfl
    case log => rfl
  · simp [and_pred hn, CapFormat.cursor]
  · simp [and_pred hn, CapFormat.cursor]

omit hcs in
/-- The bytes to the first boundary. -/
theorem head_eq {n : ℕ} (hn : n = 16 ∨ n = 32) (dst : BitVec 64) :
    (0 - BitVec.ofNat 64 (dst.toNat % n) + BitVec.ofNat 64 n) &&& (BitVec.ofNat 16 (n - 1)).setWidth 64
      = BitVec.ofNat 64 (headLength n dst) := by
  rw [and_pred hn, headLength]
  congr 1
  rcases hn with rfl | rfl
  · rw [BitVec.toNat_add, BitVec.toNat_sub, BitVec.toNat_ofNat, BitVec.toNat_ofNat]
    simp only [BitVec.toNat_ofNat, BitVec.ofNat_eq_ofNat]
    omega
  · rw [BitVec.toNat_add, BitVec.toNat_sub, BitVec.toNat_ofNat, BitVec.toNat_ofNat]
    simp only [BitVec.toNat_ofNat, BitVec.ofNat_eq_ofNat]
    omega

omit hcs in
theorem headLength_lt {n : ℕ} (hn : n = 16 ∨ n = 32) (dst : BitVec 64) : headLength n dst < n :=
  Nat.mod_lt _ (by omega)

/-- On the fast path: the bytes to the first boundary. -/
theorem head_bytes {c₀ : Core (CAP_SIZE / 8)} (hc : Copying F c₀ [] 0 c)
    (ht0 : c.get .t0 = BitVec.ofNat 64 ((F.cursor (c₀.cap 3)).toNat % (CAP_SIZE / 8))) :
    ∃ c₁, Steps (memcpyText base CAP_SIZE purecap) F
        ((memcpyText base CAP_SIZE purecap).at 12 c m)
        ((memcpyText base CAP_SIZE purecap).at 15 c₁ m) ∧
      Copying F c₀ [] 0 c₁ ∧
      c₁.get .v1 = BitVec.ofNat 64 (headLength (CAP_SIZE / 8) (F.cursor (c₀.cap 3))) := by
  have hcode := hasAt_chooseCode hcs base purecap
  have hn : CAP_SIZE / 8 = 16 ∨ CAP_SIZE / 8 = 32 := by omega
  have hres : (F.cursor (c₀.cap 3)).toNat % (CAP_SIZE / 8) < CAP_SIZE / 8 := Nat.mod_lt _ (by omega)
  have hneg : 0 - BitVec.ofNat 64 ((F.cursor (c₀.cap 3)).toNat % (CAP_SIZE / 8))
      = -BitVec.ofNat 64 ((F.cursor (c₀.cap 3)).toNat % (CAP_SIZE / 8)) := zero_sub _
  have hov₁ : (0 : BitVec 64).ssubOverflow
      (BitVec.ofNat 64 ((F.cursor (c₀.cap 3)).toNat % (CAP_SIZE / 8))) = false := by
    have hzero : (0 : BitVec 64).toInt = 0 := rfl
    rw [ssubOverflow_iff, hzero, toInt_ofNat_small (by omega)]
    omega
  have hov₂ : (0 - BitVec.ofNat 64 ((F.cursor (c₀.cap 3)).toNat % (CAP_SIZE / 8))).saddOverflow
      (BitVec.ofNat 64 (CAP_SIZE / 8)) = false := by
    rw [hneg, saddOverflow_iff, toInt_neg_small (by omega), toInt_ofNat_small (by omega)]
    omega
  have hhead := head_eq hn (F.cursor (c₀.cap 3))
  apply Exists.intro
  refine ⟨?_, ?_, ?_⟩
  · refine .trans (steps_op (hcode 12 _ rfl) (Op.exec_dsub ?_)) ?_
    · rw [Core.get_zero, ht0]
      exact hov₁
    refine .trans (steps_op (hcode 13 _ rfl) (Op.exec_daddi ?_)) ?_
    · simp only [signExtend_size hn, Core.get_zero, ht0, ne_eq, reduceCtorEq, not_false_eq_true,
        Core.get_set, if_true]
      exact hov₂
    exact steps_op (hcode 14 _ rfl) rfl
  · exact hc.congr (by simp) rfl rfl
  · simp only [signExtend_size hn, Core.get_zero, ht0, ne_eq, reduceCtorEq, not_false_eq_true,
      Core.get_set, if_true, hhead]

end choose

/-! ### Whole runs -/

section run
variable {CAP_SIZE : ℕ} {base : BitVec 64} {purecap : Bool} {F : CapFormat (CAP_SIZE / 8)}
  {c₀ c : Core (CAP_SIZE / 8)} {m₀ m : Mem}

/-- Back at the caller of `memcpy_c`. -/
def returned {n : ℕ} (F : CapFormat n) (purecap : Bool) (c₀ c : Core n) (m : Mem) : Hart n × Mem :=
  (⟨c, returnAddress F purecap c₀, returnAddress F purecap c₀ + 4⟩, m)

theorem returnCode_run {n j : ℕ} {F : CapFormat n} {T : Text MemcpyLabel} {c₀ c : Core n} {m : Mem}
    (hcode : T.HasAt j (returnCode purecap)) (hcall : MemcpyCall F purecap c₀)
    (hra : c.get .ra = c₀.get .ra) (hcap : c.cap 17 = c₀.cap 17) :
    Steps T F (T.at j c m) (returned F purecap c₀ c m) := by
  cases purecap with
  | false =>
    have h := steps_jr (F := F) (c := c) (m := m) (hcode 0 _ rfl) (hcode 1 _ rfl) rfl
    rw [hra] at h
    exact h
  | true =>
    obtain ⟨ht, hs, hx⟩ := hcall.link rfl
    have h := steps_cjr (F := F) (c := c) (m := m) (hcode 0 _ rfl) (hcode 1 _ rfl)
      (by rw [hcap, ht, hs, hx]; rfl) rfl
    rw [hcap] at h
    exact h

/-- The routine returns after the moves `l`. -/
def ReturnsAfter {n : ℕ} (T : Text MemcpyLabel) (F : CapFormat n) (purecap : Bool) (c₀ : Core n)
    (m₀ : Mem) (l : List Move) (s : Hart n × Mem) : Prop :=
  ∃ c', Steps T F s (returned F purecap c₀ c'
      (runMoves n (F.cursor (c₀.cap 3)) (F.cursor (c₀.cap 4)) m₀ l)) ∧
    c'.log = movesLog n (F.cursor (c₀.cap 3)) (F.cursor (c₀.cap 4)) l ++ c₀.log

theorem ReturnsAfter.of_steps {n : ℕ} {T : Text MemcpyLabel} {F : CapFormat n} {c₀ : Core n}
    {l : List Move} {s s' : Hart n × Mem} (h : Steps T F s s')
    (h' : ReturnsAfter T F purecap c₀ m₀ l s') : ReturnsAfter T F purecap c₀ m₀ l s := by
  obtain ⟨c', hs, hlog⟩ := h'
  exact ⟨c', h.trans hs, hlog⟩

/-- Byte by byte. -/
theorem slow_memcpy_loop_run (hcs : CAP_SIZE = 128 ∨ CAP_SIZE = 256)
    (hcall : MemcpyCall F purecap c₀) (h0 : 0 < (c₀.get .a0).toNat)
    (hlen : (c₀.get .a0).toNat < 2 ^ 63) (hc : Copying F c₀ [] 0 c) :
    ReturnsAfter (memcpyText base CAP_SIZE purecap) F purecap c₀ m₀
      (byteMoves 0 (c₀.get .a0).toNat) ((memcpyText base CAP_SIZE purecap).at 43 c m₀) := by
  have hstop : c.get .a0 = BitVec.ofNat 64 (0 + (c₀.get .a0).toNat) := by
    rw [hc.len, Nat.zero_add, BitVec.ofNat_toNat, BitVec.setWidth_eq]
  obtain ⟨c₁, h₁, hc₁⟩ := copyBytes_run m₀ (hasAt_slow_memcpy_loop hcs base purecap)
    (labelIndex_memcpy_c hcs base purecap .slow_memcpy_loop) (by decide) (by decide) hc hstop h0
    (by omega) (fun x hx => (hcall.src h0).allows (by decide) (by omega) (by omega))
    (fun x hx => (hcall.dst h0).allows (by decide) (by omega) (by omega))
  exact ⟨c₁, h₁.trans (returnCode_run (hasAt_slow_return hcs base purecap) hcall hc₁.ra
    (hc₁.caps 17 (by decide))), hc₁.log⟩

/-- Between the head and the capability loop: where the capabilities end. -/
theorem alignedCode_run (hcs : CAP_SIZE = 128 ∨ CAP_SIZE = 256) {i x k : ℕ} {done : List Move}
    (hc : Copying F c₀ done i c) (ha2 : c.get .a2 = BitVec.ofNat 64 x)
    (hk : x / (CAP_SIZE / 8) = k) (hlt : i + k * (CAP_SIZE / 8) < 2 ^ 63) :
    ∃ c', Steps (memcpyText base CAP_SIZE purecap) F
        ((memcpyText base CAP_SIZE purecap).at 26 c m)
        ((memcpyText base CAP_SIZE purecap).at 29 c' m) ∧
      Copying F c₀ done i c' ∧ c'.get .a2 = BitVec.ofNat 64 (i + k * (CAP_SIZE / 8)) := by
  have hn : CAP_SIZE / 8 = 16 ∨ CAP_SIZE / 8 = 32 := by omega
  have hcode := hasAt_alignedCode hcs base purecap
  have hat := sext32_neg_size hn
  have hmask : BitVec.ofNat 64 x &&& -BitVec.ofNat 64 (CAP_SIZE / 8)
      = BitVec.ofNat 64 (k * (CAP_SIZE / 8)) := by
    rw [and_neg hn, hk]
  have hov₁ : ((0 : BitVec 64).setWidth 32).saddOverflow
      ((-BitVec.ofNat 16 (CAP_SIZE / 8)).signExtend 32) = false := by
    rcases hn with h | h <;> rw [h] <;> decide
  have hov₂ : (BitVec.ofNat 64 (k * (CAP_SIZE / 8))).saddOverflow (BitVec.ofNat 64 i) = false := by
    rw [saddOverflow_iff, toInt_ofNat_small (by omega), toInt_ofNat_small (by omega)]
    omega
  have hsum : BitVec.ofNat 64 (k * (CAP_SIZE / 8)) + BitVec.ofNat 64 i
      = BitVec.ofNat 64 (i + k * (CAP_SIZE / 8)) := by
    rw [← BitVec.ofNat_add, Nat.add_comm]
  apply Exists.intro
  refine ⟨?_, ?_, ?_⟩
  · refine .trans (steps_op (hcode 1 _ rfl) (Op.exec_addi hov₁)) ?_
    rw [Core.get_zero, hat]
    refine .trans (steps_op (hcode 2 _ rfl) rfl) ?_
    refine steps_op (hcode 3 _ rfl) (Op.exec_dadd ?_)
    simpa [ha2, hmask, hc.offset] using hov₂
  · exact hc.congr (by simp) rfl rfl
  · simpa [ha2, hmask, hc.offset] using hsum

/-- The bytes left after the capability loop, and the return. -/
theorem remainder_run (hcs : CAP_SIZE = 128 ∨ CAP_SIZE = 256) (hcall : MemcpyCall F purecap c₀)
    {i t : ℕ} {done : List Move} (hc : Copying F c₀ done i c) (ha2 : c.get .a2 = BitVec.ofNat 64 i)
    (ht : (c₀.get .a0).toNat = i + t) (hlt : i + t < 2 ^ 63) :
    ReturnsAfter (memcpyText base CAP_SIZE purecap) F purecap c₀ m₀ (done ++ byteMoves i t)
      (atMoves (memcpyText base CAP_SIZE purecap) F c₀ m₀ 33 done c) := by
  have hcode := hasAt_remainderCode hcs base purecap
  have ha0 : c.get .a0 = BitVec.ofNat 64 (i + t) := by
    rw [hc.len, ← ht, BitVec.ofNat_toNat, BitVec.setWidth_eq]
  have hov : (c.get .a0).ssubOverflow (c.get .a2) = false := by
    rw [ha0, ha2, ssubOverflow_iff, toInt_ofNat_small (by omega), toInt_ofNat_small (by omega)]
    omega
  have hdiff : c.get .a0 - c.get .a2 = BitVec.ofNat 64 t := by
    rw [ha0, ha2, Nat.add_comm, BitVec.ofNat_add, add_sub_cancel_right]
  refine .of_steps (steps_op (hcode 0 _ rfl) (Op.exec_dsub hov)) ?_
  rw [hdiff]
  by_cases h0 : t = 0
  · subst h0
    simp only [byteMoves, List.append_nil]
    refine ⟨_, .trans (steps_likely_taken (hcode 1 _ rfl) (hcode 2 _ rfl)
      (labelIndex_memcpy_c hcs base purecap .memcpy_c_return) (by simp [Cond.holds]) rfl)
      (returnCode_run (hasAt_memcpy_c_return hcs base purecap) hcall ?_ ?_), ?_⟩
    · simpa using hc.ra
    · exact hc.caps 17 (by decide)
    · exact hc.log
  · have hne : BitVec.ofNat 64 t ≠ 0#64 := ofNat_ne_ofNat (by omega) (by omega) h0
    have hov' : (BitVec.ofNat 64 i).saddOverflow (BitVec.ofNat 64 t) = false := by
      rw [saddOverflow_iff, toInt_ofNat_small (by omega), toInt_ofNat_small (by omega)]
      omega
    have hcov₃ := hcall.dst (by omega)
    have hcov₄ := hcall.src (by omega)
    rw [ht] at hcov₃ hcov₄
    refine .of_steps (steps_likely_not_taken (hcode 1 _ rfl) (by simp [Cond.holds, hne])) ?_
    refine .of_steps (steps_op (hcode 3 _ rfl) (Op.exec_dadd (by simpa [hc.offset] using hov'))) ?_
    obtain ⟨c₁, h₁, hc₁⟩ := copyBytes_run m₀ (k := t) (hasAt_unaligned_end hcs base purecap)
      (labelIndex_memcpy_c hcs base purecap .unaligned_end) (by decide) (by decide)
      ((hc.congr (by simp) rfl rfl :
        Copying F c₀ done i ((c.set .v1 (BitVec.ofNat 64 t)).set .v1
          ((c.set .v1 (BitVec.ofNat 64 t)).get .a1 + (c.set .v1 (BitVec.ofNat 64 t)).get .v1))))
      (by simp [hc.offset, BitVec.ofNat_add]) (by omega) hlt
      (fun x hx => hcov₄.allows (by decide) (by omega) (by omega))
      (fun x hx => hcov₃.allows (by decide) (by omega) (by omega))
    exact ⟨c₁, h₁.trans (returnCode_run (hasAt_memcpy_c_return hcs base purecap) hcall hc₁.ra
      (hc₁.caps 17 (by decide))), hc₁.log⟩

/-- The capabilities and what is left, from `aligned_copy` on. -/
theorem aligned_copy_run (hcs : CAP_SIZE = 128 ∨ CAP_SIZE = 256)
    (hcall : MemcpyCall F purecap c₀) {i k t : ℕ} {done : List Move}
    (hc : Copying F c₀ done i c) (ha2 : c.get .a2 = BitVec.ofNat 64 (k * (CAP_SIZE / 8) + t))
    (hlen : (c₀.get .a0).toNat = i + k * (CAP_SIZE / 8) + t) (hlt : (c₀.get .a0).toNat < 2 ^ 63)
    (hk : 0 < k) (ht : t < CAP_SIZE / 8)
    (hdst : ((F.cursor (c₀.cap 3)).toNat + i) % (CAP_SIZE / 8) = 0)
    (hsrc : ((F.cursor (c₀.cap 4)).toNat + i) % (CAP_SIZE / 8) = 0) :
    ReturnsAfter (memcpyText base CAP_SIZE purecap) F purecap c₀ m₀
      (done ++ capMoves (CAP_SIZE / 8) i k ++ byteMoves (i + k * (CAP_SIZE / 8)) t)
      (atMoves (memcpyText base CAP_SIZE purecap) F c₀ m₀ 26 done c) := by
  have hdiv : (k * (CAP_SIZE / 8) + t) / (CAP_SIZE / 8) = k := by
    rw [Nat.add_comm, Nat.add_mul_div_right _ _ (by omega), Nat.div_eq_of_lt ht, Nat.zero_add]
  have hpos : CAP_SIZE / 8 ≤ k * (CAP_SIZE / 8) := Nat.le_mul_of_pos_left _ hk
  have hcov₃ := hcall.dst (by omega)
  have hcov₄ := hcall.src (by omega)
  have hg : ∀ x < k, Granule F c₀ (i + x * (CAP_SIZE / 8)) := by
    intro x hx
    have hle : (x + 1) * (CAP_SIZE / 8) ≤ k * (CAP_SIZE / 8) := Nat.mul_le_mul_right _ hx
    rw [Nat.succ_mul] at hle
    have htop₃ := F.top_le (c₀.cap 3).data
    have htop₄ := F.top_le (c₀.cap 4).data
    have hle₃ := hcov₃.le_top
    have hle₄ := hcov₄.le_top
    constructor
    case load => exact hcov₄.allows (by decide) (by omega) (by omega)
    case loadCap => exact hcov₄.perm _ (by decide)
    case store => exact hcov₃.allows (by decide) (by omega) (by omega)
    case storeCap => exact hcov₃.perm _ (by decide)
    case storeLocalCap => exact hcov₃.perm _ (by decide)
    case src_aligned =>
      rw [toNat_add_ofNat (by omega), ← Nat.add_assoc, Nat.add_mul_mod_self_right]
      exact hsrc
    case dst_aligned =>
      rw [toNat_add_ofNat (by omega), ← Nat.add_assoc, Nat.add_mul_mod_self_right]
      exact hdst
  obtain ⟨c₁, h₁, hc₁, ha2₁⟩ := alignedCode_run hcs hc ha2 hdiv (by omega)
  obtain ⟨c₂, h₂, hc₂, ha2₂⟩ := copyCaps_run hcs base purecap m₀ hc₁ ha2₁ hk (by omega) hg
  exact .of_steps (h₁.trans h₂) (remainder_run hcs hcall hc₂ ha2₂ hlen (by omega))

/-- The fast path. -/
theorem fast_path_run (hcs : CAP_SIZE = 128 ∨ CAP_SIZE = 256)
    (hcall : MemcpyCall F purecap c₀) {i k t : ℕ} (hc : Copying F c₀ [] 0 c)
    (hv1 : c.get .v1 = BitVec.ofNat 64 i)
    (hlen : (c₀.get .a0).toNat = i + k * (CAP_SIZE / 8) + t) (hlt : (c₀.get .a0).toNat < 2 ^ 63)
    (hk : 0 < k) (ht : t < CAP_SIZE / 8) (hi : i < CAP_SIZE / 8)
    (hdst : ((F.cursor (c₀.cap 3)).toNat + i) % (CAP_SIZE / 8) = 0)
    (hsrc : ((F.cursor (c₀.cap 4)).toNat + i) % (CAP_SIZE / 8) = 0) :
    ReturnsAfter (memcpyText base CAP_SIZE purecap) F purecap c₀ m₀
      (byteMoves 0 i ++ capMoves (CAP_SIZE / 8) i k ++ byteMoves (i + k * (CAP_SIZE / 8)) t)
      ((memcpyText base CAP_SIZE purecap).at 19 c m₀) := by
  have hcode := hasAt_chooseCode hcs base purecap
  have hpos : CAP_SIZE / 8 ≤ k * (CAP_SIZE / 8) := Nat.le_mul_of_pos_left _ hk
  have ha0 : c₀.get .a0 = BitVec.ofNat 64 (i + k * (CAP_SIZE / 8) + t) := by
    rw [← hlen, BitVec.ofNat_toNat, BitVec.setWidth_eq]
  have hov : (c₀.get .a0).ssubOverflow (BitVec.ofNat 64 i) = false := by
    rw [ha0, ssubOverflow_iff, toInt_ofNat_small (by omega), toInt_ofNat_small (by omega)]
    omega
  have hdiff : c₀.get .a0 - BitVec.ofNat 64 i = BitVec.ofNat 64 (k * (CAP_SIZE / 8) + t) := by
    rw [ha0, Nat.add_assoc, Nat.add_comm, BitVec.ofNat_add, add_sub_cancel_right]
  by_cases h0 : i = 0
  · subst h0
    have hsub : Op.exec F c m₀ (.dsub .a2 .a0 .a1) = .ok (c.set .a2 (c₀.get .a0 - 0), m₀) := by
      have h := @Op.exec_dsub _ F c m₀ .a2 .a0 .a1
      rw [hc.len, hc.offset] at h
      exact h hov
    refine .of_steps (steps_likely_taken (hcode 19 _ rfl) (hcode 20 _ rfl)
      (labelIndex_memcpy_c hcs base purecap .aligned_copy) (by simp [Cond.holds, hv1]) hsub) ?_
    exact aligned_copy_run hcs hcall (hc.congr (by simp) rfl rfl) (by simpa using hdiff) hlen hlt hk
      ht hdst hsrc
  · have hne : BitVec.ofNat 64 i ≠ 0#64 := ofNat_ne_ofNat (by omega) (by omega) h0
    have hcov₃ := hcall.dst (by omega)
    have hcov₄ := hcall.src (by omega)
    obtain ⟨c₁, h₁, hc₁⟩ := copyBytes_run m₀ (k := i)
      (hasAt_unaligned_start hcs base purecap)
      (labelIndex_memcpy_c hcs base purecap .unaligned_start) (by decide) (by decide) hc
      (by rw [hv1, Nat.zero_add]) (by omega) (by omega)
      (fun x hx => hcov₄.allows (by decide) (by omega) (by omega))
      (fun x hx => hcov₃.allows (by decide) (by omega) (by omega))
    rw [Nat.zero_add, List.nil_append] at hc₁
    refine .of_steps (steps_likely_not_taken (hcode 19 _ rfl) (by simp [Cond.holds, hv1, hne])) ?_
    refine .of_steps h₁ ?_
    refine .of_steps (steps_op (hasAt_alignedCode hcs base purecap 0 _ rfl) (Op.exec_dsub ?_)) ?_
    · rw [hc₁.len, hc₁.offset]
      exact hov
    · exact aligned_copy_run hcs hcall (hc₁.congr (by simp) rfl rfl)
        (by simpa [hc₁.len, hc₁.offset] using hdiff) hlen hlt hk ht hdst hsrc

theorem add_headLength {n : ℕ} (hn : n = 16 ∨ n = 32) {a b : BitVec 64}
    (h : a.toNat % n = b.toNat % n) : (b.toNat + headLength n a) % n = 0 := by
  rw [headLength]
  rcases hn with rfl | rfl <;> omega

/-- The routine carries out its plan. -/
theorem memcpy_c_refines (hcs : CAP_SIZE = 128 ∨ CAP_SIZE = 256) (hcall : MemcpyCall F purecap c)
    (hsigned : 0 < (c.get .a0).toNat → MemcpySigned F c) :
    ReturnsAfter (memcpyText base CAP_SIZE purecap) F purecap c m
      (copyPlan (CAP_SIZE / 8) (F.cursor (c.cap 3)) (F.cursor (c.cap 4)) (c.get .a0).toNat)
      ((memcpyText base CAP_SIZE purecap).at 0 c m) := by
  have hn : CAP_SIZE / 8 = 16 ∨ CAP_SIZE / 8 = 32 := by omega
  have hcode := hasAt_chooseCode hcs base purecap
  have hhead := headLength_lt hn (F.cursor (c.cap 3))
  rcases Nat.eq_zero_or_pos (c.get .a0).toNat with h0 | h0
  · -- no bytes: `$v0` is loaded in the delay slot on the way out
    have ha0 : c.get .a0 = 0 := BitVec.eq_of_toNat_eq h0
    have hplan (a b : BitVec 64) : copyPlan (CAP_SIZE / 8) a b 0 = [] := by
      rw [copyPlan_slow (.inr (by omega))]
      rfl
    rw [h0, hplan]
    refine ⟨_, .trans (steps_taken (hcode 0 _ rfl) (hcode 1 _ rfl)
      (labelIndex_memcpy_c hcs base purecap .memcpy_c_return) (by simp [Cond.holds, ha0]) rfl)
      (returnCode_run (hasAt_memcpy_c_return hcs base purecap) hcall (by simp) rfl), rfl⟩
  have hne : c.get .a0 ≠ 0 := by
    intro h
    rw [h] at h0
    exact absurd h0 (by decide)
  obtain ⟨hd, hs, hlen⟩ := hsigned h0
  have ha0 : c.get .a0 = BitVec.ofNat 64 (c.get .a0).toNat := by
    rw [BitVec.ofNat_toNat, BitVec.setWidth_eq]
  obtain ⟨c₁, h₁, hc₁, ht0, ht1⟩ := compare_residues hcs base purecap m
    hne hd hs
  refine .of_steps h₁ ?_
  by_cases hres : (F.cursor (c.cap 3)).toNat % (CAP_SIZE / 8)
      = (F.cursor (c.cap 4)).toNat % (CAP_SIZE / 8)
  · obtain ⟨c₂, h₂, hc₂, hv1⟩ := head_bytes hcs base purecap m
      (show Copying F c [] 0 (c₁.set .t8 (c₁.get .a0 &&&
        (BitVec.ofNat 16 (CAP_SIZE / 8 - 1)).setWidth 64)) from hc₁.congr (by simp) rfl rfl)
      (by simpa using ht0)
    refine .of_steps (steps_not_taken (hcode 10 _ rfl) (hcode 11 _ rfl) ?_ rfl) (.of_steps h₂ ?_)
    · simp [Cond.holds, ht0, ht1, hres]
    -- what is left after the head and one capability
    have hov₁ : (c₂.get .a0).ssubOverflow (c₂.get .v1) = false := by
      rw [hc₂.len, hv1, ha0, ssubOverflow_iff, toInt_ofNat_small hlen, toInt_ofNat_small (by omega)]
      omega
    have hdiff : (c₂.get .a0 - c₂.get .v1).toInt
        = (c.get .a0).toNat - headLength (CAP_SIZE / 8) (F.cursor (c.cap 3)) := by
      rw [BitVec.toInt_sub_of_not_ssubOverflow (by simpa using hov₁), hc₂.len, hv1, ha0,
        toInt_ofNat_small hlen, toInt_ofNat_small (by omega), ← ha0]
    have hov₂ : (c₂.get .a0 - c₂.get .v1).saddOverflow (-BitVec.ofNat 64 (CAP_SIZE / 8)) = false := by
      rw [saddOverflow_iff, hdiff, toInt_neg_small (by omega)]
      omega
    have hleft : (c₂.get .a0 - c₂.get .v1 + -BitVec.ofNat 64 (CAP_SIZE / 8)).toInt
        = (c.get .a0).toNat - headLength (CAP_SIZE / 8) (F.cursor (c.cap 3)) - (CAP_SIZE / 8 : ℕ) := by
      rw [BitVec.toInt_add_of_not_saddOverflow (by simpa using hov₂), hdiff,
        toInt_neg_small (by omega)]
      rfl
    refine .of_steps (steps_op (hcode 15 _ rfl) (Op.exec_dsub hov₁)) ?_
    refine .of_steps (steps_op (hcode 16 _ rfl) (Op.exec_daddi ?_)) ?_
    · simpa [signExtend_neg_size hn] using hov₂
    obtain ⟨c₃, hc₃def⟩ : ∃ c₃, c₃ = (c₂.set .a2 (c₂.get .a0 - c₂.get .v1)).set .a2
        ((c₂.set .a2 (c₂.get .a0 - c₂.get .v1)).get .a2
          + (-BitVec.ofNat 16 (CAP_SIZE / 8)).signExtend 64) := ⟨_, rfl⟩
    have ha2 : c₃.get .a2 = c₂.get .a0 - c₂.get .v1 + -BitVec.ofNat 64 (CAP_SIZE / 8) := by
      simp [hc₃def, signExtend_neg_size hn]
    have hv1₃ : c₃.get .v1 = c₂.get .v1 := by
      simp [hc₃def]
    have hc₃ : Copying F c [] 0 c₃ := hc₃def ▸ hc₂.congr (by simp) rfl rfl
    rw [← hc₃def]
    rw [← ha2] at hleft
    by_cases hshort : (c.get .a0).toNat
        < headLength (CAP_SIZE / 8) (F.cursor (c.cap 3)) + CAP_SIZE / 8
    · rw [copyPlan_slow (.inr hshort)]
      refine .of_steps (steps_taken (hcode 17 _ rfl) (hcode 18 _ rfl)
        (labelIndex_memcpy_c hcs base purecap .slow_memcpy_loop) ?_ rfl)
        (slow_memcpy_loop_run hcs hcall h0 hlen hc₃)
      rw [Cond.holds, decide_eq_true_eq, hleft]
      omega
    · rw [copyPlan_fast hres (by omega)]
      refine .of_steps (steps_not_taken (hcode 17 _ rfl) (hcode 18 _ rfl) ?_ rfl) ?_
      · rw [Cond.holds, decide_eq_false_iff_not, hleft]
        omega
      have hsplit := Nat.div_add_mod ((c.get .a0).toNat
        - headLength (CAP_SIZE / 8) (F.cursor (c.cap 3))) (CAP_SIZE / 8)
      rw [Nat.mul_comm] at hsplit
      exact fast_path_run hcs hcall hc₃ (hv1₃.trans hv1) (by omega) hlen
        (Nat.div_pos (by omega) (by omega)) (Nat.mod_lt _ (by omega)) hhead
        (add_headLength hn rfl) (add_headLength hn hres)
  · rw [copyPlan_slow (.inl hres)]
    refine .of_steps (steps_taken (hcode 10 _ rfl) (hcode 11 _ rfl)
      (labelIndex_memcpy_c hcs base purecap .slow_memcpy_loop) ?_ rfl)
      (slow_memcpy_loop_run hcs hcall h0 hlen (hc₁.congr (by simp) rfl rfl))
    have h3 := Nat.mod_lt (F.cursor (c.cap 3)).toNat (show 0 < CAP_SIZE / 8 by omega)
    have h4 := Nat.mod_lt (F.cursor (c.cap 4)).toNat (show 0 < CAP_SIZE / 8 by omega)
    rw [Cond.holds, bne_iff_ne, ht0, ht1]
    exact ofNat_ne_ofNat (by omega) (by omega) hres

end run

/-! ### Calls that trap -/

section traps
variable {CAP_SIZE : ℕ} {base : BitVec 64} {purecap : Bool} {F : CapFormat (CAP_SIZE / 8)}
  {c₀ c : Core (CAP_SIZE / 8)} {m₀ m : Mem}

/-- The offset of the byte loop cannot pass the signed range. -/
theorem slow_memcpy_loop_traps (hcs : CAP_SIZE = 128 ∨ CAP_SIZE = 256)
    (hcall : MemcpyCall F purecap c₀) (hlen : 2 ^ 63 ≤ (c₀.get .a0).toNat)
    (hc : Copying F c₀ [] 0 c) :
    Traps (memcpyText base CAP_SIZE purecap) F ((memcpyText base CAP_SIZE purecap).at 43 c m₀)
      .overflow := by
  have hcode := hasAt_slow_memcpy_loop hcs base purecap
  have hload : ∀ x, x < (c₀.get .a0).toNat →
      F.allows (c₀.cap 4) .load (F.cursor (c₀.cap 4) + BitVec.ofNat 64 x) 1 = true :=
    fun x hx => (hcall.src (by omega)).allows (by decide) (by omega) (by omega)
  have hstop : c.get .a0 = BitVec.ofNat 64 (c₀.get .a0).toNat := by
    rw [hc.len, BitVec.ofNat_toNat, BitVec.setWidth_eq]
  obtain ⟨c₁, h₁, hc₁, -⟩ := copyBytes_reach m₀ (k := 2 ^ 63 - 1) hcode
    (labelIndex_memcpy_c hcs base purecap .slow_memcpy_loop) (by decide) (by decide) hc hstop
    (c₀.get .a0).isLt (by omega) (by omega) hload
    (fun x hx => (hcall.dst (by omega)).allows (by decide) (by omega) (by omega))
  have h4 : c₁.cap 4 = c₀.cap 4 := hc₁.caps 4 (by decide)
  refine .of_steps (h₁.trans (steps_op (hcode 0 _ rfl) (Op.exec_clb ?_)))
    (traps_op (hcode 1 _ rfl) (Op.exec_daddi_overflow ?_))
  · rw [add_zero, h4, hc₁.offset]
    exact hload _ (by omega)
  · simp only [ne_eq, reduceCtorEq, not_false_eq_true, Core.get_set, if_false, Core.get_issue,
      hc₁.offset]
    rfl

/-- A call beyond the signed range traps. -/
theorem memcpy_c_traps (hcs : CAP_SIZE = 128 ∨ CAP_SIZE = 256) (hcall : MemcpyCall F purecap c)
    (h0 : 0 < (c.get .a0).toNat) (hnot : ¬ MemcpySigned F c) :
    Traps (memcpyText base CAP_SIZE purecap) F ((memcpyText base CAP_SIZE purecap).at 0 c m)
      .overflow := by
  have hn : CAP_SIZE / 8 = 16 ∨ CAP_SIZE / 8 = 32 := by omega
  have hcode := hasAt_chooseCode hcs base purecap
  have hne : c.get .a0 ≠ 0 := by
    intro h
    rw [h] at h0
    exact absurd h0 (by decide)
  by_cases hd : (F.base (c.cap 3).data).saddOverflow (F.offset (c.cap 3).data) = true
  · refine .of_steps (steps_not_taken (hcode 0 _ rfl) (hcode 1 _ rfl)
      (by simpa [Cond.holds] using hne) rfl) ?_
    refine .of_steps (steps_op (hcode 2 _ rfl) rfl) ?_
    exact traps_op (hcode 3 _ rfl) (Op.exec_dadd_overflow (by simpa using hd))
  have hd' := Bool.eq_false_iff.mpr hd
  by_cases hs : (F.base (c.cap 4).data).saddOverflow (F.offset (c.cap 4).data) = true
  · refine .of_steps (steps_not_taken (hcode 0 _ rfl) (hcode 1 _ rfl)
      (by simpa [Cond.holds] using hne) rfl) ?_
    refine .of_steps (steps_op (hcode 2 _ rfl) rfl) ?_
    refine .of_steps (steps_op (hcode 3 _ rfl) (Op.exec_dadd (by simpa using hd'))) ?_
    refine .of_steps (steps_op (hcode 4 _ rfl) rfl) ?_
    refine .of_steps (steps_op (hcode 5 _ rfl) rfl) ?_
    exact traps_op (hcode 6 _ rfl) (Op.exec_dadd_overflow (by simpa using hs))
  have hs' := Bool.eq_false_iff.mpr hs
  have hlen : 2 ^ 63 ≤ (c.get .a0).toNat := by
    by_contra hlt
    exact hnot ⟨hd', hs', by omega⟩
  obtain ⟨c₁, h₁, hc₁, ht0, ht1⟩ := compare_residues hcs base purecap m
    hne hd' hs'
  refine .of_steps h₁ ?_
  by_cases hres : (F.cursor (c.cap 3)).toNat % (CAP_SIZE / 8)
      = (F.cursor (c.cap 4)).toNat % (CAP_SIZE / 8)
  · obtain ⟨c₂, h₂, hc₂, hv1⟩ := head_bytes hcs base purecap m
      (show Copying F c [] 0 (c₁.set .t8 (c₁.get .a0 &&&
        (BitVec.ofNat 16 (CAP_SIZE / 8 - 1)).setWidth 64)) from hc₁.congr (by simp) rfl rfl)
      (by simpa using ht0)
    refine .of_steps (steps_not_taken (hcode 10 _ rfl) (hcode 11 _ rfl) ?_ rfl) (.of_steps h₂ ?_)
    · simp [Cond.holds, ht0, ht1, hres]
    -- a length from 2^63 on is negative, so either a subtraction overflows or it stays negative
    by_cases hov₁ : (c₂.get .a0).ssubOverflow (c₂.get .v1) = true
    · exact traps_op (hcode 15 _ rfl) (Op.exec_dsub_overflow hov₁)
    refine .of_steps (steps_op (hcode 15 _ rfl) (Op.exec_dsub (Bool.eq_false_iff.mpr hov₁))) ?_
    by_cases hov₂ : (c₂.get .a0 - c₂.get .v1).saddOverflow (-BitVec.ofNat 64 (CAP_SIZE / 8)) = true
    · refine traps_op (hcode 16 _ rfl) (Op.exec_daddi_overflow ?_)
      simpa [signExtend_neg_size hn] using hov₂
    refine .of_steps (steps_op (hcode 16 _ rfl) (Op.exec_daddi ?_)) ?_
    · simpa [signExtend_neg_size hn] using hov₂
    refine .of_steps (steps_taken (hcode 17 _ rfl) (hcode 18 _ rfl)
      (labelIndex_memcpy_c hcs base purecap .slow_memcpy_loop) ?_ rfl)
      (slow_memcpy_loop_traps hcs hcall hlen (hc₂.congr (by simp) rfl rfl))
    have hhead := headLength_lt hn (F.cursor (c.cap 3))
    have ha0 : (c.get .a0).toInt < 0 := by
      rw [BitVec.toInt_eq_toNat_bmod, Int.bmod_def]
      have := (c.get .a0).isLt
      omega
    simp only [Cond.holds, ne_eq, reduceCtorEq, not_false_eq_true, Core.get_set, if_true,
      decide_eq_true_eq, signExtend_neg_size hn]
    rw [BitVec.toInt_add_of_not_saddOverflow (by simpa using hov₂),
      BitVec.toInt_sub_of_not_ssubOverflow hov₁, hc₂.len, hv1, toInt_ofNat_small (by omega),
      toInt_neg_small (by omega)]
    omega
  · refine .of_steps (steps_taken (hcode 10 _ rfl) (hcode 11 _ rfl)
      (labelIndex_memcpy_c hcs base purecap .slow_memcpy_loop) ?_ rfl)
      (slow_memcpy_loop_traps hcs hcall hlen (hc₁.congr (by simp) rfl rfl))
    have h3 := Nat.mod_lt (F.cursor (c.cap 3)).toNat (show 0 < CAP_SIZE / 8 by omega)
    have h4 := Nat.mod_lt (F.cursor (c.cap 4)).toNat (show 0 < CAP_SIZE / 8 by omega)
    rw [Cond.holds, bne_iff_ne, ht0, ht1]
    exact ofNat_ne_ofNat (by omega) (by omega) hres

end traps

/-! ### What a call does -/

section result
variable {n : ℕ} {dst src : BitVec 64} {len : ℕ}

/-- The plan consists of bytes and of aligned granules, all within the
length. -/
theorem mem_copyPlan (hn : n = 16 ∨ n = 32) {mv : Move} (h : mv ∈ copyPlan n dst src len) :
    (∃ i, i < len ∧ mv = .byte i) ∨
      ∃ i, i + n ≤ len ∧ (dst.toNat + i) % n = 0 ∧ (src.toNat + i) % n = 0 ∧ mv = .cap i := by
  by_cases hslow : dst.toNat % n ≠ src.toNat % n ∨ len < headLength n dst + n
  · rw [copyPlan_slow hslow] at h
    obtain ⟨i, -, hi, rfl⟩ := mem_byteMoves.mp h
    exact .inl ⟨i, by omega, rfl⟩
  · simp only [ne_eq, not_or, not_not, Nat.not_lt] at hslow
    obtain ⟨hres, hlong⟩ := hslow
    rw [copyPlan_fast hres hlong] at h
    have hsplit := Nat.div_add_mod (len - headLength n dst) n
    rw [Nat.mul_comm] at hsplit
    simp only [List.mem_append, mem_byteMoves, mem_capMoves] at h
    obtain (⟨i, -, hi, rfl⟩ | ⟨j, hj, rfl⟩) | ⟨i, -, hi, rfl⟩ := h
    · exact .inl ⟨i, by omega, rfl⟩
    · have hle : (j + 1) * n ≤ (len - headLength n dst) / n * n := Nat.mul_le_mul_right _ hj
      rw [Nat.succ_mul] at hle
      refine .inr ⟨_, by omega, ?_, ?_, rfl⟩
      · rw [← Nat.add_assoc, Nat.add_mul_mod_self_right]
        exact add_headLength hn rfl
      · rw [← Nat.add_assoc, Nat.add_mul_mod_self_right]
        exact add_headLength hn hres
    · exact .inl ⟨i, by omega, rfl⟩

/-- Carrying out the plan copies. -/
theorem copied_copyPlan (h : Apart dst src len) (m : Mem) :
    Copied dst src m len (runMoves n dst src m (copyPlan n dst src len)) := by
  by_cases hslow : dst.toNat % n ≠ src.toNat % n ∨ len < headLength n dst + n
  · rw [copyPlan_slow hslow]
    have hb := (copied_zero dst src m).byteMoves (n := n) (k := len) h (by omega)
    rwa [Nat.zero_add] at hb
  · simp only [ne_eq, not_or, not_not, Nat.not_lt] at hslow
    rw [copyPlan_fast hslow.1 hslow.2]
    have hsplit := Nat.div_add_mod (len - headLength n dst) n
    rw [Nat.mul_comm] at hsplit
    have h₁ := (copied_zero dst src m).byteMoves (n := n) (k := headLength n dst) h (by omega)
    rw [Nat.zero_add] at h₁
    have h₂ := h₁.capMoves (n := n) (k := (len - headLength n dst) / n) h (by omega)
    have h₃ := h₂.byteMoves (n := n) (k := (len - headLength n dst) % n) h (by omega)
    rw [runMoves_append, runMoves_append]
    rwa [show headLength n dst + (len - headLength n dst) / n * n
      + (len - headLength n dst) % n = len by omega] at h₃

/-- An access a copy of `len` bytes may make: loads from the source and
stores to the destination, of bytes or of aligned granules. -/
structure CopyAccess (n : ℕ) (dst src : BitVec 64) (len : ℕ) (x : Access) : Prop where
  load : x.kind = .load → src.toNat ≤ x.addr.toNat ∧ x.addr.toNat + x.size ≤ src.toNat + len
  store : x.kind = .store → dst.toNat ≤ x.addr.toNat ∧ x.addr.toNat + x.size ≤ dst.toNat + len
  size : x.size = 1 ∨ x.size = n ∧ x.addr.toNat % n = 0

theorem copyAccess_copyPlan (hn : n = 16 ∨ n = 32) (hdst : dst.toNat + len ≤ 2 ^ 64)
    (hsrc : src.toNat + len ≤ 2 ^ 64) {x : Access}
    (h : x ∈ movesLog n dst src (copyPlan n dst src len)) : CopyAccess n dst src len x := by
  obtain ⟨mv, hmv, hx⟩ := mem_movesLog.mp h
  rcases mem_copyPlan hn hmv with ⟨i, hi, rfl⟩ | ⟨i, hi, hd, hs, rfl⟩
  · have ha : (dst + BitVec.ofNat 64 i).toNat = dst.toNat + i := toNat_add_ofNat (by omega)
    have hb : (src + BitVec.ofNat 64 i).toNat = src.toNat + i := toNat_add_ofNat (by omega)
    simp only [Move.accesses, List.mem_cons, List.not_mem_nil, or_false] at hx
    rcases hx with rfl | rfl
    · exact ⟨by simp, fun _ => by simp only [ha]; omega, .inl rfl⟩
    · exact ⟨fun _ => by simp only [hb]; omega, by simp, .inl rfl⟩
  · have ha : (dst + BitVec.ofNat 64 i).toNat = dst.toNat + i := toNat_add_ofNat (by omega)
    have hb : (src + BitVec.ofNat 64 i).toNat = src.toNat + i := toNat_add_ofNat (by omega)
    simp only [Move.accesses, List.mem_cons, List.not_mem_nil, or_false] at hx
    rcases hx with rfl | rfl
    · exact ⟨by simp, fun _ => by simp only [ha]; omega, .inr ⟨rfl, by rw [ha]; exact hd⟩⟩
    · exact ⟨fun _ => by simp only [hb]; omega, by simp, .inr ⟨rfl, by rw [hb]; exact hs⟩⟩

/-- The ranges of a call lie in the address space. -/
theorem MemcpyCall.apart {F : CapFormat n} {purecap : Bool} {c : Core n}
    (h : MemcpyCall F purecap c) :
    Apart (F.cursor (c.cap 3)) (F.cursor (c.cap 4)) (c.get .a0).toNat := by
  have hd := (F.cursor (c.cap 3)).isLt
  have hs := (F.cursor (c.cap 4)).isLt
  have htop₃ := F.top_le (c.cap 3).data
  have htop₄ := F.top_le (c.cap 4).data
  rcases Nat.eq_zero_or_pos (c.get .a0).toNat with h0 | h0
  · exact ⟨by omega, by omega, h.order⟩
  · have hle₃ := (h.dst h0).le_top
    have hle₄ := (h.src h0).le_top
    exact ⟨by omega, by omega, h.order⟩

/-- The state after a `memcpy` of `$a0` bytes from `$c4` to `$c3`, called in
state `c` with memory `m`. -/
structure Memcpied (F : CapFormat n) (c : Core n) (m : Mem) (c' : Core n) (m' : Mem) : Prop where
  inside : ∀ i, i < (c.get .a0).toNat →
    m'.byte (F.cursor (c.cap 3) + BitVec.ofNat 64 i) = m.byte (F.cursor (c.cap 4) + BitVec.ofNat 64 i)
  outside : ∀ a : BitVec 64, a.toNat < (F.cursor (c.cap 3)).toNat ∨
    (F.cursor (c.cap 3)).toNat + (c.get .a0).toNat ≤ a.toNat → m'.byte a = m.byte a
  accesses : ∃ l, c'.log = l ++ c.log ∧ ∀ x ∈ l,
    CopyAccess n (F.cursor (c.cap 3)) (F.cursor (c.cap 4)) (c.get .a0).toNat x

end result

section correct
variable {CAP_SIZE : ℕ} (hcs : CAP_SIZE = 128 ∨ CAP_SIZE = 256) (base : BitVec 64) {purecap : Bool}
  {F : CapFormat (CAP_SIZE / 8)} {c : Core (CAP_SIZE / 8)} (m : Mem)
include hcs

/-- **`memcpy_c` is a memcpy.**  A call whose address computations and length
stay within the signed range returns, having copied the bytes, left the
others alone, and made only accesses within the two ranges, the capability
accesses among them aligned. -/
theorem memcpy_c_correct (hcall : MemcpyCall F purecap c)
    (hsigned : 0 < (c.get .a0).toNat → MemcpySigned F c) :
    ∃ c' m', Steps (memcpyText base CAP_SIZE purecap) F
        ((memcpyText base CAP_SIZE purecap).at 0 c m) (returned F purecap c c' m') ∧
      Memcpied F c m c' m' := by
  have hap := hcall.apart
  obtain ⟨c', hs, hlog⟩ := @memcpy_c_refines _ base purecap F c m hcs hcall hsigned
  have hcopied := copied_copyPlan (n := CAP_SIZE / 8) hap m
  refine ⟨c', _, hs, ?_⟩
  constructor
  case inside =>
    intro i hi
    exact hcopied.inside (by have := hap.dst_le; omega) hi
  case outside =>
    intro a ha
    exact hcopied.outside hap.dst_le ha
  case accesses =>
    exact ⟨_, hlog, fun x hx => copyAccess_copyPlan (by omega) hap.dst_le hap.src_le hx⟩

end correct

/-! ### Calls within and beyond the signed range -/

/-- A 128-bit format whose first two bytes are the top bytes of base and
offset; the bounds end with the address space and every permission is
given. -/
def wideFormat : CapFormat (128 / 8) where
  base d := (d ⟨0, by decide⟩).setWidth 64 <<< 56
  top _ := 2 ^ 64
  top_le _ := le_refl _
  offset d := (d ⟨1, by decide⟩).setWidth 64 <<< 56
  isSealed _ := false
  perm _ _ := true

/-- A call copying `len` bytes, base and offset of the destination and of the
source given by their top bytes. -/
def wideCall (dstBase dstOffset srcBase srcOffset : BitVec 8) (len : BitVec 64) :
    Core (128 / 8) where
  gpr r := if r = .a0 then len else 0
  cap x := ⟨true, fun j =>
    if x = 3 then (if j.val = 0 then dstBase else dstOffset)
    else (if j.val = 0 then srcBase else srcOffset)⟩
  cp0 _ _ := 0
  capCause := 0
  log := []

/-- Forty bytes to address 0. -/
theorem memcpy_c_correct_forty :
    ∃ c' m', Steps (memcpyText 0x1000 128 false) wideFormat
        ((memcpyText 0x1000 128 false).at 0 (wideCall 0 0 0x40 0 40)
          ⟨fun a => a.setWidth 8, fun _ => true⟩)
        (returned wideFormat false (wideCall 0 0 0x40 0 40) c' m') ∧
      Memcpied wideFormat (wideCall 0 0 0x40 0 40) ⟨fun a => a.setWidth 8, fun _ => true⟩ c' m' :=
  @memcpy_c_correct _ (.inl rfl) 0x1000 false _ _ ⟨fun a => a.setWidth 8, fun _ => true⟩
    ⟨fun _ => ⟨rfl, rfl, by decide, by decide, by decide⟩,
      fun _ => ⟨rfl, rfl, by decide, by decide, by decide⟩, by decide, by decide⟩
    (fun _ => ⟨by decide, by decide, by decide⟩)

/-- A trapping run does not come back to the caller. -/
theorem Traps.not_returned {n : ℕ} {T : Text MemcpyLabel} {F : CapFormat n} {purecap : Bool}
    {c₀ : Core n} {s : Hart n × Mem} (h : Traps T F s .overflow)
    (hout : T.fetch (returnAddress F purecap c₀) = none) :
    ¬ ∃ c' m', Steps T F s (returned F purecap c₀ c' m') := by
  rintro ⟨c', m', hs⟩
  obtain ⟨s₁, h₁, he⟩ := h
  have hstuck : ∀ t, ¬ Step T F s₁ t := by
    rintro t ⟨-, ht⟩
    rw [he] at ht
    cases ht
  rcases (steps_to_last h₁ hstuck hs).cases_head with rfl | ⟨t, ⟨-, ht⟩, -⟩
  · simp only [returned, Hart.step, hout] at he
    cases he
  · simp only [returned, Hart.step, hout] at ht
    cases ht

/-- One byte to the middle of the address space, the destination's base and
offset both 2^62; and 2^63 bytes to address 0. -/
theorem memcpy_c_signed_range :
    (MemcpyCall wideFormat false (wideCall 0x40 0x40 0 0 1) ∧
      ¬ ∃ c' m', Steps (memcpyText 0x1000 128 false) wideFormat
        ((memcpyText 0x1000 128 false).at 0 (wideCall 0x40 0x40 0 0 1) ⟨fun _ => 0, fun _ => false⟩)
        (returned wideFormat false (wideCall 0x40 0x40 0 0 1) c' m')) ∧
    (MemcpyCall wideFormat false (wideCall 0 0 0x80 0 0x8000000000000000) ∧
      ¬ ∃ c' m', Steps (memcpyText 0x1000 128 false) wideFormat
        ((memcpyText 0x1000 128 false).at 0 (wideCall 0 0 0x80 0 0x8000000000000000)
          ⟨fun _ => 0, fun _ => false⟩)
        (returned wideFormat false (wideCall 0 0 0x80 0 0x8000000000000000) c' m')) := by
  have h₁ : MemcpyCall wideFormat false (wideCall 0x40 0x40 0 0 1) :=
    ⟨fun _ => ⟨rfl, rfl, by decide, by decide, by decide⟩,
      fun _ => ⟨rfl, rfl, by decide, by decide, by decide⟩, by decide, by decide⟩
  have h₂ : MemcpyCall wideFormat false (wideCall 0 0 0x80 0 0x8000000000000000) :=
    ⟨fun _ => ⟨rfl, rfl, by decide, by decide, by decide⟩,
      fun _ => ⟨rfl, rfl, by decide, by decide, by decide⟩, by decide, by decide⟩
  refine ⟨⟨h₁, ?_⟩, h₂, ?_⟩
  · refine Traps.not_returned (memcpy_c_traps (.inl rfl) h₁ (by decide) ?_) rfl
    exact fun h => absurd h.dst (by decide)
  · refine Traps.not_returned (memcpy_c_traps (.inl rfl) h₂ (by decide) ?_) rfl
    exact fun h => absurd h.len (by decide)

end Cheritest
