/-
Cheritest/LibS/MemcpyTags.lean

Capability tags after `memcpy_c`.

A byte move clears the tag of the granule it writes to and a granule move
copies it.  `copyPlan` moves a granule exactly where a whole one fits at the
same residue, so that tags are lost only where they have to be
(`tagsCopied_copyPlan`).
-/
import Cheritest.LibS.MemcpyRun

namespace Cheritest

open Mips

/-! ### Runs of moves -/

section moves
variable {n : ℕ} {dst src : BitVec 64} {m : Mem} {i k g : ℕ}

theorem tag_byteMoves_succ :
    (runMoves n dst src m (byteMoves i (k + 1))).tag =
      Function.update (runMoves n dst src m (byteMoves i k)).tag
        ((dst + BitVec.ofNat 64 (i + k)).toNat / n) false := by
  rw [byteMoves_succ, runMoves_append]
  rfl

/-- Bytes clear the tags of their granules. -/
theorem tag_byteMoves_hit {j : ℕ} (hj : i ≤ j) (hjk : j < i + k)
    (hg : (dst + BitVec.ofNat 64 j).toNat / n = g) :
    (runMoves n dst src m (byteMoves i k)).tag g = false := by
  induction k with
  | zero => omega
  | succ k ih =>
    rw [tag_byteMoves_succ, Function.update_apply]
    split_ifs with heq
    · rfl
    · rcases Nat.lt_or_ge j (i + k) with hlt | hge
      · exact ih hlt
      · obtain rfl : j = i + k := by omega
        exact absurd hg.symm heq

/-- Other granules keep theirs. -/
theorem tag_byteMoves_miss (h : ∀ j, i ≤ j → j < i + k → (dst + BitVec.ofNat 64 j).toNat / n ≠ g) :
    (runMoves n dst src m (byteMoves i k)).tag g = m.tag g := by
  induction k with
  | zero => rfl
  | succ k ih =>
    rw [tag_byteMoves_succ, Function.update_apply, if_neg, ih]
    · exact fun j hj hjk => h j hj (by omega)
    · exact fun heq => h (i + k) (by omega) (by omega) heq.symm

/-- The granules at offset `i` of two ranges. -/
structure Granules (n : ℕ) (dst src : BitVec 64) (i k d s : ℕ) : Prop where
  dst_eq : dst.toNat + i = d * n
  src_eq : src.toNat + i = s * n
  dst_le : dst.toNat + i + k * n ≤ 2 ^ 64
  src_le : src.toNat + i + k * n ≤ 2 ^ 64

theorem Granules.next {d s : ℕ} (h : Granules n dst src i (k + 1) d s) :
    Granules n dst src (i + n) k (d + 1) (s + 1) := by
  obtain ⟨hd, hs, hdle, hsle⟩ := h
  rw [Nat.succ_mul] at hdle hsle
  exact ⟨by rw [Nat.succ_mul]; omega, by rw [Nat.succ_mul]; omega, by omega, by omega⟩

/-- A granule move copies a tag. -/
theorem tag_cap {d s : ℕ} (hn : 0 < n) (h : Granules n dst src i (k + 1) d s) :
    ((Move.cap i).run n dst src m).tag = Function.update m.tag d (m.tag s) := by
  obtain ⟨hd, hs, hdle, hsle⟩ := h
  rw [Nat.succ_mul] at hdle hsle
  have hdst : (dst + BitVec.ofNat 64 i).toNat / n = d := by
    rw [toNat_add_ofNat (by omega), hd, Nat.mul_div_cancel _ hn]
  have hsrc : (src + BitVec.ofNat 64 i).toNat / n = s := by
    rw [toNat_add_ofNat (by omega), hs, Nat.mul_div_cancel _ hn]
  show Function.update m.tag ((dst + BitVec.ofNat 64 i).toNat / n)
    (m.tag ((src + BitVec.ofNat 64 i).toNat / n)) = _
  rw [hdst, hsrc]

/-- Granules beside those that are moved keep their tags. -/
theorem tag_capMoves_miss {d s : ℕ} (hn : 0 < n) (h : Granules n dst src i k d s)
    (hg : ∀ x < k, g ≠ d + x) : (runMoves n dst src m (capMoves n i k)).tag g = m.tag g := by
  induction k generalizing i m d s with
  | zero => rfl
  | succ k ih =>
    show (runMoves n dst src ((Move.cap i).run n dst src m) (capMoves n (i + n) k)).tag g = _
    rw [ih h.next fun x hx => by have := hg (x + 1) (by omega); omega, tag_cap hn h,
      Function.update_of_ne (show g ≠ d from hg 0 (by omega))]

/-- The granules that are moved get the tags of their sources, which no move
before has written. -/
theorem tag_capMoves_hit {d s : ℕ} (hn : 0 < n) (h : Granules n dst src i k d s)
    (hapart : ∀ x < k, ∀ y < k, s + x ≠ d + y) {x : ℕ} (hx : x < k) :
    (runMoves n dst src m (capMoves n i k)).tag (d + x) = m.tag (s + x) := by
  induction k generalizing i m d s x with
  | zero => omega
  | succ k ih =>
    show (runMoves n dst src ((Move.cap i).run n dst src m) (capMoves n (i + n) k)).tag _ = _
    cases x with
    | zero =>
      rw [tag_capMoves_miss hn h.next fun y _ => by omega, tag_cap hn h]
      exact Function.update_self ..
    | succ x =>
      have hrest := ih (m := (Move.cap i).run n dst src m) h.next (fun y hy z hz => by
        have := hapart (y + 1) (by omega) (z + 1) (by omega)
        omega) (show x < k by omega)
      rw [Nat.add_assoc, Nat.add_comm 1 x, Nat.add_assoc, Nat.add_comm 1 x] at hrest
      rw [hrest, tag_cap hn h,
        Function.update_of_ne (show s + (x + 1) ≠ d from hapart (x + 1) hx 0 (by omega))]

end moves

/-! ### The plan -/

/-- What a copy of `len` bytes does to capabilities.  Where source and
destination have the same residue, whole granules arrive with their tags;
other granules that are written to lose theirs, and nothing else changes. -/
structure TagsCopied (n : ℕ) (dst src : BitVec 64) (len : ℕ) (m m' : Mem) : Prop where
  whole : dst.toNat % n = src.toNat % n → ∀ i, i + n ≤ len → (dst.toNat + i) % n = 0 →
    m'.loadCap n (dst + BitVec.ofNat 64 i) = m.loadCap n (src + BitVec.ofNat 64 i)
  cut : ∀ i < len, ¬(dst.toNat % n = src.toNat % n ∧ dst.toNat ≤ (dst.toNat + i) / n * n ∧
    ((dst.toNat + i) / n + 1) * n ≤ dst.toNat + len) → m'.tag ((dst.toNat + i) / n) = false
  other : ∀ g, (∀ i < len, (dst.toNat + i) / n ≠ g) → m'.tag g = m.tag g

section plan
variable {n : ℕ} {dst src : BitVec 64} {len : ℕ}

/-- Two ranges without a byte in common, neither of which wraps. -/
structure Disjoint (dst src : BitVec 64) (len : ℕ) : Prop where
  dst_le : dst.toNat + len ≤ 2 ^ 64
  src_le : src.toNat + len ≤ 2 ^ 64
  order : dst.toNat + len ≤ src.toNat ∨ src.toNat + len ≤ dst.toNat

theorem Disjoint.apart (h : Disjoint dst src len) : Apart dst src len :=
  ⟨h.dst_le, h.src_le, h.order.elim .inl fun h => .inr (.inl h)⟩

/-- A granule of the source shares no byte with the destination. -/
theorem Disjoint.granule_ne (h : Disjoint dst src len) {s x i : ℕ} (hi : i < len)
    (hs : src.toNat ≤ s * n) (hle : (s + 1) * n ≤ src.toNat + len)
    (hx : (dst.toNat + i) / n = x) (hn : 0 < n) : s ≠ x := by
  rintro rfl
  have hord := h.order
  have hdiv := Nat.div_add_mod (dst.toNat + i) n
  have hmod := Nat.mod_lt (dst.toNat + i) hn
  rw [hx, Nat.mul_comm] at hdiv
  rw [Nat.succ_mul] at hle
  omega

/-- Bytes of the destination, by their granules. -/
theorem granule_of_byte (hdst : dst.toNat + len ≤ 2 ^ 64) {j : ℕ} (hj : j < len) :
    (dst + BitVec.ofNat 64 j).toNat / n = (dst.toNat + j) / n := by
  rw [toNat_add_ofNat (by omega)]

/-- A whole granule begins no earlier than the first boundary. -/
theorem headLength_le (hn : n = 16 ∨ n = 32) {i : ℕ} (h : (dst.toNat + i) % n = 0) :
    headLength n dst ≤ i := by
  unfold headLength
  rcases hn with rfl | rfl <;> omega

/-- Byte by byte, no tag arrives. -/
theorem tagsCopied_slow (hn : n = 16 ∨ n = 32) (h : Disjoint dst src len) (m : Mem)
    (hslow : dst.toNat % n ≠ src.toNat % n ∨ len < headLength n dst + n) :
    TagsCopied n dst src len m (runMoves n dst src m (byteMoves 0 len)) := by
  constructor
  case whole =>
    -- there is no whole granule to copy
    intro hres i hi hal
    have := headLength_le hn hal
    have := hslow.resolve_left (not_not.mpr hres)
    omega
  case cut =>
    intro i hi _
    exact tag_byteMoves_hit (Nat.zero_le i) (by omega) (granule_of_byte h.dst_le hi)
  case other =>
    intro g hg
    apply tag_byteMoves_miss
    intro j _ hj
    rw [granule_of_byte h.dst_le (show j < len by omega)]
    exact hg j (by omega)

/-- The contents of a copied granule. -/
theorem loadCap_eq {m m' : Mem} (h : Copied dst src m len m') (hfit : dst.toNat + len ≤ 2 ^ 64)
    {i : ℕ} (hi : i + n ≤ len)
    (htag : m'.tag ((dst + BitVec.ofNat 64 i).toNat / n) = m.tag ((src + BitVec.ofNat 64 i).toNat / n)) :
    m'.loadCap n (dst + BitVec.ofNat 64 i) = m.loadCap n (src + BitVec.ofNat 64 i) := by
  unfold Mem.loadCap
  congr 1
  funext j
  have hj := j.isLt
  rw [add_assoc, add_assoc, ← BitVec.ofNat_add]
  exact h.inside (by omega) (by omega)

/-- Head, whole granules and tail of a destination whose first boundary, at
offset `h`, begins granule `d`. -/
structure Parts (n : ℕ) (dst : BitVec 64) (len h k t d : ℕ) : Prop where
  len_eq : len = h + k * n + t
  boundary : dst.toNat + h = d * n

section parts
variable {h k t d : ℕ} (hn : 0 < n) (hp : Parts n dst len h k t d)
include hn hp

theorem Parts.head_lt {j : ℕ} (hj : j < h) : (dst.toNat + j) / n < d := by
  rw [Nat.div_lt_iff_lt_mul hn, ← hp.boundary]
  omega

theorem Parts.le_tail {j : ℕ} (hj : h + k * n ≤ j) : d + k ≤ (dst.toNat + j) / n := by
  rw [Nat.le_div_iff_mul_le hn, Nat.add_mul, ← hp.boundary]
  omega

theorem Parts.body {j : ℕ} (hj : h ≤ j) (hjk : j < h + k * n) :
    d ≤ (dst.toNat + j) / n ∧ (dst.toNat + j) / n < d + k := by
  rw [Nat.le_div_iff_mul_le hn, Nat.div_lt_iff_lt_mul hn, Nat.add_mul, ← hp.boundary]
  omega

/-- A whole granule that begins at offset `i` is one of those moved. -/
theorem Parts.whole (ht : t < n) {i : ℕ} (hi : h ≤ i) (hlen : i + n ≤ len)
    (hal : (dst.toNat + i) % n = 0) : ∃ x < k, i = h + x * n := by
  obtain ⟨g, hg⟩ := Nat.dvd_of_mod_eq_zero hal
  rw [Nat.mul_comm] at hg
  have hdg : d * n ≤ g * n := by have := hp.boundary; omega
  obtain ⟨x, rfl⟩ := Nat.exists_eq_add_of_le (Nat.le_of_mul_le_mul_right hdg hn)
  rw [Nat.add_mul, ← hp.boundary] at hg
  have hlt : (x + 1) * n < (k + 1) * n := by
    have := hp.len_eq
    rw [Nat.succ_mul, Nat.succ_mul]
    omega
  exact ⟨x, Nat.lt_of_succ_lt_succ (Nat.lt_of_mul_lt_mul_right hlt), by omega⟩

end parts

/-- Head, granules and tail. -/
def fastMoves (n h k t : ℕ) : List Move := byteMoves 0 h ++ capMoves n h k ++ byteMoves (h + k * n) t

section fast
variable {h k t d s : ℕ} (hn : 0 < n) (hd : Disjoint dst src len) (hp : Parts n dst len h k t d)
  (hs : src.toNat + h = s * n) (m : Mem)
include hd hp hs

theorem granules_of_parts : Granules n dst src h k d s := by
  obtain ⟨hlen, hb⟩ := hp
  obtain ⟨hdle, hsle, -⟩ := hd
  exact ⟨hb, hs, by omega, by omega⟩

include hn

/-- No granule that is read is written to. -/
theorem source_granule_ne {x j : ℕ} (hx : x < k) (hj : j < len) : s + x ≠ (dst.toNat + j) / n := by
  have hle : (x + 1) * n ≤ k * n := Nat.mul_le_mul_right _ hx
  apply hd.granule_ne hj _ _ rfl hn
  · rw [Nat.add_mul]
    omega
  · have hlen := hp.len_eq
    rw [Nat.add_assoc, Nat.add_mul]
    omega

/-- A moved granule arrives with its tag. -/
theorem tag_fastMoves_body {x : ℕ} (hx : x < k) :
    (runMoves n dst src m (fastMoves n h k t)).tag (d + x) = m.tag (s + x) := by
  have hlen := hp.len_eq
  have hbyte (y : ℕ) (hy : y < k) : (dst.toNat + (h + y * n)) / n = d + y := by
    rw [← Nat.add_assoc, hp.boundary, ← Nat.add_mul, Nat.mul_div_cancel _ hn]
  unfold fastMoves
  rw [runMoves_append, runMoves_append, tag_byteMoves_miss, tag_capMoves_hit hn
    (granules_of_parts hd hp hs) _ hx, tag_byteMoves_miss]
  · intro j _ hj
    rw [granule_of_byte hd.dst_le (show j < len by omega)]
    exact (source_granule_ne hn hd hp hs hx (by omega)).symm
  · intro y hy z hz
    rw [← hbyte z hz]
    have : (z + 1) * n ≤ k * n := Nat.mul_le_mul_right _ hz
    rw [Nat.succ_mul] at this
    exact source_granule_ne hn hd hp hs hy (by omega)
  · intro j hj hjt
    have := hp.le_tail hn hj
    rw [granule_of_byte hd.dst_le (show j < len by omega)]
    omega

/-- A granule that only the head or only the tail writes to is cleared, and
one that nothing writes to stays as it is. -/
theorem tag_fastMoves_beside {g : ℕ} (hg : ∀ x < k, g ≠ d + x) :
    (runMoves n dst src m (fastMoves n h k t)).tag g =
      if ∃ i < len, (dst.toNat + i) / n = g then false else m.tag g := by
  have hlen := hp.len_eq
  have hbyte (j : ℕ) (hj : j < len) := granule_of_byte (n := n) hd.dst_le hj
  unfold fastMoves
  rw [runMoves_append, runMoves_append]
  by_cases htail : ∃ j, h + k * n ≤ j ∧ j < h + k * n + t ∧ (dst.toNat + j) / n = g
  · obtain ⟨j, hj, hjt, rfl⟩ := htail
    rw [tag_byteMoves_hit hj hjt (hbyte j (by omega)), if_pos ⟨j, by omega, rfl⟩]
  · rw [tag_byteMoves_miss, tag_capMoves_miss hn (granules_of_parts hd hp hs) hg]
    · by_cases hhead : ∃ j, j < h ∧ (dst.toNat + j) / n = g
      · obtain ⟨j, hj, rfl⟩ := hhead
        rw [tag_byteMoves_hit (Nat.zero_le j) (by omega) (hbyte j (by omega)),
          if_pos ⟨j, by omega, rfl⟩]
      · rw [tag_byteMoves_miss, if_neg]
        · rintro ⟨i, hi, rfl⟩
          rcases Nat.lt_or_ge i h with hih | hih
          · exact hhead ⟨i, hih, rfl⟩
          rcases Nat.lt_or_ge i (h + k * n) with hik | hik
          · obtain ⟨hle, hlt⟩ := hp.body hn hih hik
            exact hg ((dst.toNat + i) / n - d) (by omega) (by omega)
          · exact htail ⟨i, hik, by omega, rfl⟩
        · intro j _ hj heq
          rw [hbyte j (by omega)] at heq
          exact hhead ⟨j, by omega, heq⟩
    · intro j hj hjt heq
      rw [hbyte j (by omega)] at heq
      exact htail ⟨j, hj, hjt, heq⟩

/-- Bytes, granules and bytes again. -/
theorem tagsCopied_fast (ht : t < n) (hh : ∀ i, (dst.toNat + i) % n = 0 → h ≤ i)
    (hcopied : Copied dst src m len (runMoves n dst src m (fastMoves n h k t))) :
    TagsCopied n dst src len m (runMoves n dst src m (fastMoves n h k t)) := by
  have hlen := hp.len_eq
  constructor
  case whole =>
    intro _ i hi hal
    obtain ⟨x, hx, rfl⟩ := hp.whole hn ht (hh i hal) hi hal
    apply loadCap_eq hcopied hd.dst_le hi
    have hdle := hd.dst_le
    have hsle := hd.src_le
    rw [toNat_add_ofNat (by omega), toNat_add_ofNat (by omega), ← Nat.add_assoc, ← Nat.add_assoc,
      hp.boundary, hs, ← Nat.add_mul, ← Nat.add_mul, Nat.mul_div_cancel _ hn,
      Nat.mul_div_cancel _ hn]
    exact tag_fastMoves_body hn hd hp hs m hx
  case cut =>
    intro i hi hcut
    rw [tag_fastMoves_beside hn hd hp hs m, if_pos ⟨i, hi, rfl⟩]
    -- a granule between the two boundaries would be whole
    rintro x hx heq
    apply hcut
    have hle : (x + 1) * n ≤ k * n := Nat.mul_le_mul_right _ hx
    have hb := hp.boundary
    have hres : dst.toNat % n = src.toNat % n := by
      have hmod : (dst.toNat + h) % n = (src.toNat + h) % n := by
        rw [hb, hs, Nat.mul_mod_left, Nat.mul_mod_left]
      exact Nat.ModEq.add_right_cancel' h hmod
    rw [heq, Nat.add_assoc, Nat.add_mul, Nat.add_mul]
    exact ⟨hres, by omega, by omega⟩
  case other =>
    intro g hg
    rw [tag_fastMoves_beside hn hd hp hs m, if_neg (by rintro ⟨i, hi, heq⟩; exact hg i hi heq)]
    rintro x hx rfl
    have hle : (x + 1) * n ≤ k * n := Nat.mul_le_mul_right _ hx
    rw [Nat.succ_mul] at hle
    apply hg (h + x * n) (by omega)
    rw [← Nat.add_assoc, hp.boundary, ← Nat.add_mul, Nat.mul_div_cancel _ hn]

end fast

/-- **Capabilities survive wherever they can.** -/
theorem tagsCopied_copyPlan (hn : n = 16 ∨ n = 32) (h : Disjoint dst src len) (m : Mem) :
    TagsCopied n dst src len m (runMoves n dst src m (copyPlan n dst src len)) := by
  by_cases hslow : dst.toNat % n ≠ src.toNat % n ∨ len < headLength n dst + n
  · rw [copyPlan_slow hslow]
    exact tagsCopied_slow hn h m hslow
  · have hcopied := copied_copyPlan (n := n) h.apart m
    simp only [ne_eq, not_or, not_not, Nat.not_lt] at hslow
    obtain ⟨hres, hlong⟩ := hslow
    have hsplit := Nat.div_add_mod (len - headLength n dst) n
    rw [Nat.mul_comm] at hsplit
    have hn0 : 0 < n := by omega
    obtain ⟨d, hd⟩ := Nat.dvd_of_mod_eq_zero (add_headLength hn (a := dst) rfl)
    obtain ⟨s, hs⟩ := Nat.dvd_of_mod_eq_zero (add_headLength hn hres)
    rw [Nat.mul_comm] at hd hs
    rw [copyPlan_fast hres hlong] at hcopied ⊢
    exact tagsCopied_fast hn0 h ⟨by omega, hd⟩ hs m (Nat.mod_lt _ hn0)
      (fun i hi => headLength_le hn hi) hcopied

end plan

/-! ### The routine -/

section tags
variable {CAP_SIZE : ℕ} (hcs : CAP_SIZE = 128 ∨ CAP_SIZE = 256) (base : BitVec 64) {purecap : Bool}
  {F : CapFormat (CAP_SIZE / 8)} {c : Core (CAP_SIZE / 8)} (m : Mem)
include hcs

/-- **`memcpy_c` preserves capabilities.**  A call for two ranges without a
byte in common whose address computations and length stay within the signed
range returns with the tags copied. -/
theorem memcpy_c_tags (hcall : MemcpyCall F purecap c)
    (hsigned : 0 < (c.get .a0).toNat → MemcpySigned F c)
    (horder : (F.cursor (c.cap 3)).toNat + (c.get .a0).toNat ≤ (F.cursor (c.cap 4)).toNat ∨
      (F.cursor (c.cap 4)).toNat + (c.get .a0).toNat ≤ (F.cursor (c.cap 3)).toNat) :
    ∃ c' m', Steps (memcpyText base CAP_SIZE purecap) F
        ((memcpyText base CAP_SIZE purecap).at 0 c m) (returned F purecap c c' m') ∧
      TagsCopied (CAP_SIZE / 8) (F.cursor (c.cap 3)) (F.cursor (c.cap 4)) (c.get .a0).toNat m m' := by
  have hap := hcall.apart
  obtain ⟨c', hs, -⟩ := @memcpy_c_refines _ base purecap F c m hcs hcall hsigned
  exact ⟨c', _, hs, tagsCopied_copyPlan (by omega) ⟨hap.dst_le, hap.src_le, horder⟩ m⟩

end tags

/-- Two granules and a half to address 0, all tagged. -/
theorem memcpy_c_tags_forty :
    ∃ c' m', Steps (memcpyText 0x1000 128 false) wideFormat
        ((memcpyText 0x1000 128 false).at 0 (wideCall 0 0 0x40 0 40)
          ⟨fun a => a.setWidth 8, fun _ => true⟩)
        (returned wideFormat false (wideCall 0 0 0x40 0 40) c' m') ∧
      TagsCopied 16 0 0x4000000000000000 40 ⟨fun a => a.setWidth 8, fun _ => true⟩ m' :=
  @memcpy_c_tags _ (.inl rfl) 0x1000 false _ _ ⟨fun a => a.setWidth 8, fun _ => true⟩
    ⟨fun _ => ⟨rfl, rfl, by decide, by decide, by decide⟩,
      fun _ => ⟨rfl, rfl, by decide, by decide, by decide⟩, by decide, by decide⟩
    (fun _ => ⟨by decide, by decide, by decide⟩) (by decide)

/-- A tagged granule to the middle of the address space, the destination's
base and offset both 2^62, does not arrive. -/
theorem memcpy_c_tags_overflow :
    MemcpyCall wideFormat false (wideCall 0x40 0x40 0 0 16) ∧
      (wideFormat.cursor ((wideCall 0x40 0x40 0 0 16).cap 4)).toNat + 16
        ≤ (wideFormat.cursor ((wideCall 0x40 0x40 0 0 16).cap 3)).toNat ∧
      ¬ ∃ c' m', Steps (memcpyText 0x1000 128 false) wideFormat
          ((memcpyText 0x1000 128 false).at 0 (wideCall 0x40 0x40 0 0 16)
            ⟨fun _ => 0, fun _ => true⟩)
          (returned wideFormat false (wideCall 0x40 0x40 0 0 16) c' m') ∧
        TagsCopied 16 0x8000000000000000 0 16 ⟨fun _ => 0, fun _ => true⟩ m' := by
  have h : MemcpyCall wideFormat false (wideCall 0x40 0x40 0 0 16) :=
    ⟨fun _ => ⟨rfl, rfl, by decide, by decide, by decide⟩,
      fun _ => ⟨rfl, rfl, by decide, by decide, by decide⟩, by decide, by decide⟩
  refine ⟨h, by decide, ?_⟩
  rintro ⟨c', m', hs, -⟩
  have htraps : Traps (memcpyText 0x1000 128 false) wideFormat
      ((memcpyText 0x1000 128 false).at 0 (wideCall 0x40 0x40 0 0 16)
        ⟨fun _ => 0, fun _ => true⟩) .overflow :=
    memcpy_c_traps (.inl rfl) h (by decide) fun hsigned => absurd hsigned.dst (by decide)
  exact Traps.not_returned htraps rfl ⟨c', m', hs⟩

end Cheritest
