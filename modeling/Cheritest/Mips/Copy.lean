/-
Cheritest/Mips/Copy.lean

Copying memory upwards, one byte or one capability at a time.

A copy from `src` to `dst` is a list of moves, each of which copies the byte
or the whole granule at some offset.  `Copied dst src m₀ i m` says that the
bytes at offsets below `i` hold what the source held in `m₀` and that the
rest of memory is as in `m₀`; a move at offset `i` takes it from `i` to
`i + 1` or to `i + n` as long as the destination does not run over source
bytes still to be read (`Apart`).
-/
import Cheritest.Mips.Machine

namespace Mips

/-! ### Addresses with an offset -/

theorem toNat_add_ofNat {p : BitVec 64} {i : ℕ} (h : p.toNat + i < 2 ^ 64) :
    (p + BitVec.ofNat 64 i).toNat = p.toNat + i := by
  rw [BitVec.toNat_add, BitVec.toNat_ofNat]
  omega

theorem add_ofNat_sub {p : BitVec 64} {i : ℕ} (h : i < 2 ^ 64) :
    (p + BitVec.ofNat 64 i - p).toNat = i := by
  rw [BitVec.add_comm, BitVec.add_sub_cancel, BitVec.toNat_ofNat]
  omega

theorem ofNat_ne_ofNat {i j : ℕ} (hi : i < 2 ^ 64) (hj : j < 2 ^ 64) (h : i ≠ j) :
    BitVec.ofNat 64 i ≠ BitVec.ofNat 64 j := by
  intro he
  have := congrArg BitVec.toNat he
  simp only [BitVec.toNat_ofNat] at this
  omega

/-- Every address is an offset from any other. -/
theorem add_ofNat_toNat_sub (p a : BitVec 64) : p + BitVec.ofNat 64 (a - p).toNat = a := by
  rw [BitVec.ofNat_toNat, BitVec.setWidth_eq, BitVec.add_comm, BitVec.sub_add_cancel]

/-- Two ranges of `len` bytes that an upward copy from `src` to `dst` can
deal with: neither wraps, and they are disjoint or the destination comes
first. -/
structure Apart (dst src : BitVec 64) (len : ℕ) : Prop where
  dst_le : dst.toNat + len ≤ 2 ^ 64
  src_le : src.toNat + len ≤ 2 ^ 64
  order : dst.toNat + len ≤ src.toNat ∨ src.toNat + len ≤ dst.toNat ∨ dst.toNat < src.toNat

/-- Source bytes from offset `i` on are not among the first `i` destination
bytes. -/
theorem Apart.src_not_written {dst src : BitVec 64} {len i j : ℕ} (h : Apart dst src len)
    (hij : i ≤ j) (hj : j < len) : ¬ (src + BitVec.ofNat 64 j - dst).toNat < i := by
  obtain ⟨hd, hs, ho⟩ := h
  have ha : (src + BitVec.ofNat 64 j).toNat = src.toNat + j := toNat_add_ofNat (by omega)
  rw [BitVec.toNat_sub, ha]
  omega

/-! ### Moves -/

/-- A single copy: of the byte or of the granule at an offset. -/
inductive Move
  | byte (i : ℕ)
  | cap (i : ℕ)
  deriving DecidableEq, Repr

/-- Carry out a move from `src` to `dst`. -/
def Move.run (n : ℕ) (dst src : BitVec 64) (m : Mem) : Move → Mem
  | byte i => m.storeByte n (dst + BitVec.ofNat 64 i) (m.byte (src + BitVec.ofNat 64 i))
  | cap i => m.storeCap (dst + BitVec.ofNat 64 i) (m.loadCap n (src + BitVec.ofNat 64 i))

/-- Carry out moves in order. -/
def runMoves (n : ℕ) (dst src : BitVec 64) (m : Mem) (l : List Move) : Mem :=
  l.foldl (Move.run n dst src) m

/-- The bytes at offsets `i` to `i + k`, exclusive. -/
def byteMoves (i : ℕ) : ℕ → List Move
  | 0 => []
  | k + 1 => .byte i :: byteMoves (i + 1) k

/-- `k` granules from offset `i` on. -/
def capMoves (n i : ℕ) : ℕ → List Move
  | 0 => []
  | k + 1 => .cap i :: capMoves n (i + n) k

theorem byteMoves_succ (i k : ℕ) : byteMoves i (k + 1) = byteMoves i k ++ [.byte (i + k)] := by
  induction k generalizing i with
  | zero => rfl
  | succ k ih =>
    rw [byteMoves, ih, byteMoves, List.cons_append, Nat.add_right_comm, Nat.add_assoc i k 1]

/-- The accesses of a move, the later one first. -/
def Move.accesses (n : ℕ) (dst src : BitVec 64) : Move → List Access
  | byte i => [⟨.store, dst + BitVec.ofNat 64 i, 1⟩, ⟨.load, src + BitVec.ofNat 64 i, 1⟩]
  | cap i => [⟨.store, dst + BitVec.ofNat 64 i, n⟩, ⟨.load, src + BitVec.ofNat 64 i, n⟩]

/-- The accesses of a list of moves, the latest first. -/
def movesLog (n : ℕ) (dst src : BitVec 64) : List Move → List Access
  | [] => []
  | mv :: l => movesLog n dst src l ++ mv.accesses n dst src

theorem movesLog_append (n : ℕ) (dst src : BitVec 64) (l l' : List Move) :
    movesLog n dst src (l ++ l') = movesLog n dst src l' ++ movesLog n dst src l := by
  induction l with
  | nil => simp [movesLog]
  | cons mv l ih => simp [movesLog, ih]

theorem mem_movesLog {n : ℕ} {dst src : BitVec 64} {l : List Move} {x : Access} :
    x ∈ movesLog n dst src l ↔ ∃ mv ∈ l, x ∈ mv.accesses n dst src := by
  induction l with
  | nil => simp [movesLog]
  | cons mv l ih => simp [movesLog, ih, or_comm]

theorem mem_byteMoves {i k : ℕ} {mv : Move} :
    mv ∈ byteMoves i k ↔ ∃ j, i ≤ j ∧ j < i + k ∧ mv = .byte j := by
  induction k generalizing i with
  | zero =>
    constructor
    · intro h
      simp [byteMoves] at h
    · rintro ⟨j, h₁, h₂, -⟩
      omega
  | succ k ih =>
    simp only [byteMoves, List.mem_cons, ih]
    constructor
    · rintro (rfl | ⟨j, h₁, h₂, rfl⟩)
      · exact ⟨i, le_refl i, by omega, rfl⟩
      · exact ⟨j, by omega, by omega, rfl⟩
    · rintro ⟨j, h₁, h₂, rfl⟩
      rcases h₁.eq_or_lt with rfl | hlt
      · exact .inl rfl
      · exact .inr ⟨j, hlt, by omega, rfl⟩

theorem mem_capMoves {n i k : ℕ} {mv : Move} :
    mv ∈ capMoves n i k ↔ ∃ j < k, mv = .cap (i + j * n) := by
  induction k generalizing i with
  | zero => simp [capMoves]
  | succ k ih =>
    simp only [capMoves, List.mem_cons, ih]
    constructor
    · rintro (rfl | ⟨j, hj, rfl⟩)
      · exact ⟨0, by omega, by simp⟩
      · exact ⟨j + 1, by omega, by rw [Nat.succ_mul, Nat.add_right_comm, Nat.add_assoc]⟩
    · rintro ⟨j, hj, rfl⟩
      cases j with
      | zero => exact .inl (by simp)
      | succ j => exact .inr ⟨j, by omega, by rw [Nat.succ_mul, Nat.add_right_comm, Nat.add_assoc]⟩

theorem runMoves_append (n : ℕ) (dst src : BitVec 64) (m : Mem) (l l' : List Move) :
    runMoves n dst src m (l ++ l') = runMoves n dst src (runMoves n dst src m l) l' :=
  List.foldl_append

/-! ### What has been copied -/

/-- The first `i` bytes have been copied, and nothing else changed. -/
def Copied (dst src : BitVec 64) (m₀ : Mem) (i : ℕ) (m : Mem) : Prop :=
  ∀ a, m.byte a = if (a - dst).toNat < i then m₀.byte (src + (a - dst)) else m₀.byte a

section copied
variable {n : ℕ} {dst src : BitVec 64} {m₀ m : Mem} {len i k : ℕ}

theorem copied_zero (dst src : BitVec 64) (m : Mem) : Copied dst src m 0 m := by
  intro a
  simp

/-- The bytes copied. -/
theorem Copied.inside (h : Copied dst src m₀ len m) (hlen : len ≤ 2 ^ 64) (hi : i < len) :
    m.byte (dst + BitVec.ofNat 64 i) = m₀.byte (src + BitVec.ofNat 64 i) := by
  rw [h, if_pos (by rw [add_ofNat_sub (by omega)]; exact hi), BitVec.add_comm dst,
    BitVec.add_sub_cancel]

/-- The rest of memory. -/
theorem Copied.outside (h : Copied dst src m₀ len m) (hd : dst.toNat + len ≤ 2 ^ 64)
    {a : BitVec 64} (ha : a.toNat < dst.toNat ∨ dst.toNat + len ≤ a.toNat) :
    m.byte a = m₀.byte a := by
  rw [h, if_neg]
  rw [BitVec.toNat_sub]
  omega

/-- The source bytes still to be copied are as they were. -/
theorem Copied.source (h : Copied dst src m₀ i m) (hap : Apart dst src len) {j : ℕ} (hij : i ≤ j)
    (hj : j < len) : m.byte (src + BitVec.ofNat 64 j) = m₀.byte (src + BitVec.ofNat 64 j) := by
  rw [h, if_neg (hap.src_not_written hij hj)]

/-- Copying the next byte. -/
theorem Copied.byte (h : Copied dst src m₀ i m) (hap : Apart dst src len) (hi : i < len) :
    Copied dst src m₀ (i + 1) ((Move.byte i).run n dst src m) := by
  have hlen := hap.dst_le
  intro a
  simp only [Move.run, Mem.storeByte_byte, Function.update_apply]
  by_cases ha : a = dst + BitVec.ofNat 64 i
  · have hoff : a - dst = BitVec.ofNat 64 i := by
      rw [ha, BitVec.add_comm, BitVec.add_sub_cancel]
    have hnat : (a - dst).toNat = i := by
      rw [hoff, BitVec.toNat_ofNat]
      omega
    rw [if_pos ha, h.source hap (le_refl i) hi, if_pos (by omega), hoff]
  · have hne : (a - dst).toNat ≠ i := by
      intro he
      apply ha
      rw [← he, add_ofNat_toNat_sub]
    rw [if_neg ha, h]
    by_cases hlt : (a - dst).toNat < i
    · rw [if_pos hlt, if_pos (by omega)]
    · rw [if_neg hlt, if_neg (by omega)]

/-- Copying the next granule. -/
theorem Copied.cap (h : Copied dst src m₀ i m) (hap : Apart dst src len) (hi : i + n ≤ len) :
    Copied dst src m₀ (i + n) ((Move.cap i).run n dst src m) := by
  have hlen := hap.dst_le
  intro a
  -- the offset from the granule and the offset from the destination
  have hoff : a - (dst + BitVec.ofNat 64 i) = (a - dst) - BitVec.ofNat 64 i :=
    sub_add_eq_sub_sub a dst (BitVec.ofNat 64 i)
  have hsplit : (a - (dst + BitVec.ofNat 64 i)).toNat < n ↔
      i ≤ (a - dst).toNat ∧ (a - dst).toNat < i + n := by
    rw [hoff, BitVec.toNat_sub, BitVec.toNat_ofNat]
    have := (a - dst).isLt
    omega
  simp only [Move.run, Mem.storeCap, Mem.loadCap]
  by_cases hin : (a - (dst + BitVec.ofNat 64 i)).toNat < n
  · obtain ⟨hle, hlt⟩ := hsplit.mp hin
    have hback : src + BitVec.ofNat 64 i + BitVec.ofNat 64 (a - (dst + BitVec.ofNat 64 i)).toNat
        = src + (a - dst) := by
      rw [BitVec.ofNat_toNat, BitVec.setWidth_eq, hoff, add_assoc, add_sub_cancel]
    have hsrc := h.source hap hle (show (a - dst).toNat < len by omega)
    rw [BitVec.ofNat_toNat, BitVec.setWidth_eq] at hsrc
    rw [dif_pos hin, if_pos hlt, hback]
    exact hsrc
  · rw [dif_neg hin, h]
    by_cases hlt : (a - dst).toNat < i
    · rw [if_pos hlt, if_pos (by omega)]
    · have hge : ¬ (a - dst).toNat < i + n := fun hc => hin (hsplit.mpr ⟨by omega, hc⟩)
      rw [if_neg hlt, if_neg hge]

/-- Copying a run of bytes. -/
theorem Copied.byteMoves (h : Copied dst src m₀ i m) (hap : Apart dst src len)
    (hk : i + k ≤ len) :
    Copied dst src m₀ (i + k) (runMoves n dst src m (byteMoves i k)) := by
  induction k generalizing i m with
  | zero => exact h
  | succ k ih =>
    have h' := ih (h.byte (n := n) hap (by omega)) (by omega)
    rwa [Nat.add_assoc, Nat.add_comm 1 k] at h'

/-- Copying a run of granules. -/
theorem Copied.capMoves (h : Copied dst src m₀ i m) (hap : Apart dst src len)
    (hk : i + k * n ≤ len) :
    Copied dst src m₀ (i + k * n) (runMoves n dst src m (capMoves n i k)) := by
  induction k generalizing i m with
  | zero => simpa [runMoves, capMoves] using h
  | succ k ih =>
    have hmul : (k + 1) * n = n + k * n := by
      rw [Nat.succ_mul, Nat.add_comm]
    rw [hmul] at hk ⊢
    have h' := ih (h.cap (n := n) hap (by omega)) (by omega)
    rwa [Nat.add_assoc] at h'

end copied

end Mips
