/-
Cheritest/CheriC/MemcpyCorrect.lean

memcpy.c copies correctly.

Each stage leaves less than a unit of the next kind, or the pointers aligned
for it, in either direction; after the last one everything has been copied
(`memmove_copies`).
-/
import Cheritest.CheriC.MemcpyLoops

open Mips

namespace Cheritest

namespace CheriC

variable {n psize fuel : ℕ} {C : CopyCall} {m₀ m : Mem} {T : CType} {lo hi lo' hi' i t k : ℕ}

/-! ### Where the copy is -/

/-- The pointers are at offset `i`, the offsets from `lo` to `hi` copied. -/
structure CopyCall.At (n psize : ℕ) (C : CopyCall) (m₀ : Mem) (i lo hi : ℕ) (s : Locals) : Prop where
  dst : s.dst = C.dst0 + BitVec.ofNat 64 i
  src : s.src = C.src0 + BitVec.ofNat 64 i
  progress : C.Progress n psize m₀ lo hi s.mem

section masks
variable {p : ℕ} {x y : BitVec 64}

theorem toNat_and_mask (hp : IsPtrSize p) (x : BitVec 64) : (x &&& pmask p).toNat = x.toNat % p := by
  have hmask (k : ℕ) : x.toNat &&& (2 ^ k - 1) = x.toNat % 2 ^ k := Nat.and_two_pow_sub_one_eq_mod _ k
  rw [BitVec.toNat_and, pmask, BitVec.toNat_ofNat]
  rcases hp with rfl | rfl | rfl
  · exact hmask 3
  · exact hmask 4
  · exact hmask 5

theorem and_mask_eq_zero (hp : IsPtrSize p) : x &&& pmask p = 0 ↔ x.toNat % p = 0 := by
  rw [← toNat_and_mask hp]
  exact ⟨fun h => by rw [h]; rfl, fun h => BitVec.eq_of_toNat_eq h⟩

theorem or_and_mask (hp : IsPtrSize p) :
    (x ||| y) &&& pmask p = 0 ↔ x.toNat % p = 0 ∧ y.toNat % p = 0 := by
  rw [← and_mask_eq_zero hp, ← and_mask_eq_zero hp, BitVec.and_or_distrib_right]
  exact BitVec.or_eq_zero_iff

theorem xor_and_mask (hp : IsPtrSize p) :
    (x ^^^ y) &&& pmask p = 0 ↔ x.toNat % p = y.toNat % p := by
  have hdistrib : (x ^^^ y) &&& pmask p = (x &&& pmask p) ^^^ (y &&& pmask p) := by
    refine BitVec.eq_of_getLsbD_eq fun i _ => ?_
    simp only [BitVec.getLsbD_and, BitVec.getLsbD_xor]
    cases x.getLsbD i <;> cases y.getLsbD i <;> cases (pmask p).getLsbD i <;> rfl
  rw [← toNat_and_mask hp, ← toNat_and_mask hp, hdistrib]
  exact BitVec.xor_eq_zero_iff.trans BitVec.toNat_inj.symm

/-- The residue of an address at an offset. -/
theorem toNat_add_mod (hp : IsPtrSize p) (x : BitVec 64) (i : ℕ) :
    (x + BitVec.ofNat 64 i).toNat % p = (x.toNat + i) % p := by
  have hdvd : p ∣ 2 ^ 64 := by rcases hp with rfl | rfl | rfl <;> decide
  rw [BitVec.toNat_add, BitVec.toNat_ofNat, Nat.mod_mod_of_dvd _ hdvd, Nat.add_mod,
    Nat.mod_mod_of_dvd _ hdvd, ← Nat.add_mod]

end masks

section clear
variable {p : ℕ}

/-- Arguments with different residues keep no capability. -/
theorem clear_of_mismatch (hdvd : p ∣ psize) (h : (C.dst0.toNat + i) % p ≠ (C.src0.toNat + i) % p) :
    C.Clear n psize lo hi := by
  intro hkeeps
  have hd := Nat.mod_mod_of_dvd C.dst0.toNat (hkeeps.size ▸ hdvd)
  have hs := Nat.mod_mod_of_dvd C.src0.toNat (hkeeps.size ▸ hdvd)
  rw [hkeeps.congruent] at hd
  exact absurd (by rw [Nat.add_mod, ← hd, hs, ← Nat.add_mod]) h

/-- No slot fits behind an offset that all slots are behind. -/
theorem clear_of_short (hp : IsPtrSize psize) (h : C.Clear n psize 0 i)
    (hshort : C.length.toNat < i + psize) : C.Clear n psize lo hi := by
  intro hkeeps o hslot
  have hn := hkeeps.pos hp
  have hsize := hkeeps.size
  have hin := hslot.inside
  have := h hkeeps o hslot
  omega

theorem clear_of_short_down (hp : IsPtrSize psize) (h : C.Clear n psize i C.length.toNat)
    (hshort : i < psize) : C.Clear n psize lo hi := by
  intro hkeeps o hslot
  have hn := hkeeps.pos hp
  have hsize := hkeeps.size
  have hin := hslot.inside
  have := h hkeeps o hslot
  omega

/-- Up to the next aligned offset there is no slot either. -/
theorem clear_of_align (hp : IsPtrSize psize) (hdvd : p ∣ psize) (h : C.Clear n psize 0 i)
    (ht : t < p) (hal : (C.dst0.toNat + (i + t)) % p = 0) : C.Clear n psize 0 (i + t) := by
  intro hkeeps o hslot
  have hn := hkeeps.pos hp
  have ho : (C.dst0.toNat + o) % p = 0 := by
    rw [← Nat.mod_mod_of_dvd _ (hkeeps.size ▸ hdvd), hslot.aligned, Nat.zero_mod]
  have := h hkeeps o hslot
  by_cases hne : o = i + t
  · omega
  · have := apart_of_aligned ho hal hne
    omega

theorem clear_of_align_down (hp : IsPtrSize psize) (hdvd : p ∣ psize)
    (h : C.Clear n psize (i + t) C.length.toNat) (ht : t < p) (hal : (C.dst0.toNat + i) % p = 0) :
    C.Clear n psize i C.length.toNat := by
  intro hkeeps o hslot
  have hn := hkeeps.pos hp
  have ho : (C.dst0.toNat + (o + n)) % p = 0 := by
    rw [← Nat.mod_mod_of_dvd _ (hkeeps.size ▸ hdvd), ← Nat.add_assoc, Nat.add_mod_right, hslot.aligned,
      Nat.zero_mod]
  have := h hkeeps o hslot
  have := hslot.inside
  by_cases hne : o + n = i
  · omega
  · have := apart_of_aligned ho hal hne
    omega

/-- Behind the last aligned offset there is none that does not end there. -/
theorem clear_tail (hal : (C.dst0.toNat + i) % psize = 0)
    (hshort : C.length.toNat < i + psize) : C.Clear n psize i hi := by
  intro hkeeps o hslot
  obtain rfl := hkeeps.size
  have hin := hslot.inside
  by_cases hne : o = i
  · omega
  · have := apart_of_aligned hslot.aligned hal hne
    omega

theorem clear_head (hal : (C.dst0.toNat + i) % psize = 0)
    (hshort : i < psize) : C.Clear n psize lo i := by
  intro hkeeps o hslot
  obtain rfl := hkeeps.size
  by_cases hne : o = i
  · omega
  · have := apart_of_aligned hslot.aligned hal hne
    omega

end clear

/-! ### Forward -/

section forward
variable {s : Locals} {p : ℕ}

theorem CopyCall.At.src_mod (h : C.At n psize m₀ i lo hi s) (hp : IsPtrSize p) :
    s.src.toNat % p = (C.src0.toNat + i) % p := by
  rw [h.src, toNat_add_mod hp]

theorem CopyCall.At.dst_mod (h : C.At n psize m₀ i lo hi s) (hp : IsPtrSize p) :
    s.dst.toNat % p = (C.dst0.toNat + i) % p := by
  rw [h.dst, toNat_add_mod hp]

/-- The first test of a stage: is there anything to align? -/
theorem CopyCall.At.aligned_iff (h : C.At n psize m₀ i lo hi s) (hp : IsPtrSize p) :
    (s.src ||| s.dst) &&& pmask p = 0 ↔ C.Aligned p i := by
  rw [or_and_mask hp, h.src_mod hp, h.dst_mod hp]
  exact ⟨fun hal => ⟨hal.2, hal.1⟩, fun hal => ⟨hal.src, hal.dst⟩⟩

/-- The second test: can it be aligned? -/
theorem CopyCall.At.match_iff (h : C.At n psize m₀ i lo hi s) (hp : IsPtrSize p) :
    (s.src ^^^ s.dst) &&& pmask p = 0 ↔ (C.src0.toNat + i) % p = (C.dst0.toNat + i) % p := by
  rw [xor_and_mask hp, h.src_mod hp, h.dst_mod hp]

/-- A loop of a stage, which advances the pointers by `c` units first. -/
theorem CopyCall.At.up (hC : C.Fits) (hp : IsPtrSize psize) (hup : C.Upward)
    (hfuel : C.length.toNat ≤ fuel) (h : C.At n psize m₀ i 0 i s) (hk : T.size psize = k) {c : ℕ}
    {t : BitVec 64} (ht : t = BitVec.ofNat 64 (c * k)) (hc : 0 < c)
    (hin : i + c * k ≤ C.length.toNat) (hal : C.Aligned k i)
    (hclear : T = .ptr ∧ psize = n ∨ C.Clear n psize i (i + c * k)) (l : BitVec 64) :
    ∃ m', MIPSLOOP fuel (-t) (-BitVec.ofNat 64 k)
        (fun j => assign n psize C T (s.dst + t + j) (s.src + t + j)) (BitVec.ofNat 64 k) s.mem
        = some m' ∧
      C.At n psize m₀ (i + c * k) 0 (i + c * k) ⟨s.dst + t, s.src + t, l, m'⟩ := by
  have hat (q : BitVec 64) : q + BitVec.ofNat 64 i + t = q + BitVec.ofNat 64 (i + c * k) := by
    rw [ht, add_assoc, ← BitVec.ofNat_add]
  obtain ⟨m', hm', hP⟩ := h.progress.up hC hp hup hfuel hk hc hin hal hclear
  rw [h.dst, h.src, hat, hat, ht]
  exact ⟨m', hm', rfl, rfl, hP⟩

/-- Shortening the length. -/
theorem toNat_length_sub {l : BitVec 64} {c : ℕ} (h : c ≤ l.toNat) :
    (l - BitVec.ofNat 64 c).toNat = l.toNat - c := by
  have := l.isLt
  rw [BitVec.toNat_sub, BitVec.toNat_ofNat]
  omega

theorem div_ofNat {x : BitVec 64} {d : ℕ} (hd : d < 2 ^ 64) :
    x / BitVec.ofNat 64 d = BitVec.ofNat 64 (x.toNat / d) := by
  have := x.isLt
  have := Nat.div_le_self x.toNat d
  refine BitVec.eq_of_toNat_eq ?_
  rw [BitVec.toNat_udiv, BitVec.toNat_ofNat, BitVec.toNat_ofNat, Nat.mod_eq_of_lt hd,
    Nat.mod_eq_of_lt (by omega)]

theorem ofNat_ne_zero {c : ℕ} (hpos : 0 < c) (hc : c < 2 ^ 64) : BitVec.ofNat 64 c ≠ 0 :=
  ofNat_ne_ofNat hc (Nat.two_pow_pos 64) (Nat.ne_of_gt hpos)

/-- The bytes up to the next boundary, or all if there is none. -/
theorem CopyCall.At.bytes_to_word (hp : IsPtrSize psize) (h : C.At n psize m₀ i 0 i s)
    (hl : s.length.toNat + i = C.length.toNat) (hclear : C.Clear n psize 0 i) (hpos : i < C.length.toNat)
    (hal : ¬ C.Aligned 8 i) : ∃ c,
      (if (s.src ^^^ s.dst) &&& wmask ≠ 0 ∨ s.length < BitVec.ofNat 64 wsize then s.length
        else BitVec.ofNat 64 wsize - (s.src &&& wmask)) = BitVec.ofNat 64 c ∧
      0 < c ∧ i + c ≤ C.length.toNat ∧ C.Clear n psize 0 (i + c) ∧
      (i + c = C.length.toNat ∨ C.Aligned 8 (i + c)) := by
  have h8 : IsPtrSize 8 := .inl rfl
  have hdvd : 8 ∣ psize := by rcases hp with rfl | rfl | rfl <;> decide
  have hle : 8 ≤ psize := by rcases hp with rfl | rfl | rfl <;> decide
  by_cases hall : (s.src ^^^ s.dst) &&& wmask ≠ 0 ∨ s.length < BitVec.ofNat 64 wsize
  · -- all the bytes at once: no boundary is common to both, or none is left
    refine ⟨s.length.toNat, ?_, by omega, by omega, ?_, .inl (by omega)⟩
    · rw [if_pos hall, BitVec.ofNat_toNat, BitVec.setWidth_eq]
    · rcases hall with hne | hlt
      · exact clear_of_mismatch hdvd fun heq => hne ((h.match_iff h8).mpr heq.symm)
      · have hlt' : s.length.toNat < 8 := BitVec.lt_def.mp hlt
        exact clear_of_short hp hclear (by omega)
  · rw [not_or, not_not, BitVec.not_lt] at hall
    obtain ⟨hmatch, hge⟩ := hall
    have hge' : 8 ≤ s.length.toNat := BitVec.le_def.mp hge
    have hmatch' := (h.match_iff h8).mp hmatch
    -- up to the next boundary, which is the same for source and destination
    have hmod : (s.src &&& wmask).toNat = (C.src0.toNat + i) % 8 :=
      (toNat_and_mask h8 _).trans (h.src_mod h8)
    have hne : (C.src0.toNat + i) % 8 ≠ 0 := fun hz => hal ⟨hmatch' ▸ hz, hz⟩
    have hdst : (C.dst0.toNat + (i + (8 - (C.src0.toNat + i) % 8))) % 8 = 0 := by omega
    refine ⟨8 - (C.src0.toNat + i) % 8, ?_, by omega, by omega, ?_, .inr ⟨hdst, by omega⟩⟩
    · rw [if_neg (by rw [not_or, not_not, BitVec.not_lt]; exact ⟨hmatch, hge⟩)]
      refine BitVec.eq_of_toNat_eq ?_
      rw [BitVec.toNat_sub, hmod, BitVec.toNat_ofNat, BitVec.toNat_ofNat, wsize]
      omega
    · exact clear_of_align hp hdvd hclear (by omega) hdst

/-- **The first stage** ends at a word boundary or with everything copied. -/
theorem alignToWord_spec (hC : C.Fits) (hp : IsPtrSize psize) (hup : C.Upward)
    (hfuel : C.length.toNat ≤ fuel) (h : C.At n psize m₀ i 0 i s)
    (hl : s.length.toNat + i = C.length.toNat) (hclear : C.Clear n psize 0 i)
    (hpos : i < C.length.toNat) :
    ∃ i s', alignToWord n psize C fuel s = some s' ∧ C.At n psize m₀ i 0 i s' ∧
      s'.length.toNat + i = C.length.toNat ∧ C.Clear n psize 0 i ∧
      (i = C.length.toNat ∨ C.Aligned 8 i) := by
  have h8 : IsPtrSize 8 := .inl rfl
  by_cases hal : C.Aligned 8 i
  · exact ⟨i, s, if_neg (not_not.mpr ((h.aligned_iff h8).mpr hal)), h, hl, hclear, .inr hal⟩
  obtain ⟨c, hc, hc₀, hle, hclear', hend⟩ := h.bytes_to_word hp hl hclear hpos hal
  obtain ⟨m', hm', hat⟩ := h.up hC hp hup hfuel (T := .char) (k := 1) (t := BitVec.ofNat 64 c) rfl
    (by rw [Nat.mul_one]) hc₀ (by omega) ⟨Nat.mod_one _, Nat.mod_one _⟩
    (.inr (hclear'.mono (by omega) (by omega))) (s.length - BitVec.ofNat 64 c)
  rw [Nat.mul_one] at hat
  refine ⟨i + c, _, ?_, hat, ?_, hclear', hend⟩
  · have hne : (s.src ||| s.dst) &&& wmask ≠ 0 := fun heq => hal ((h.aligned_iff h8).mp heq)
    rw [alignToWord, if_pos hne]
    simp only [hc]
    exact congrArg _ hm'
  · rw [toNat_length_sub (by omega)]
    omega

/-- The words up to the next boundary, or as many as there are if there is
none. -/
theorem CopyCall.At.words_to_ptr (hp : IsPtrSize psize) (h : C.At n psize m₀ i 0 i s)
    (hl : s.length.toNat + i = C.length.toNat) (hclear : C.Clear n psize 0 i)
    (hword : i = C.length.toNat ∨ C.Aligned 8 i) (hal : ¬ C.Aligned psize i) : ∃ c,
      (if (s.src ^^^ s.dst) &&& pmask psize ≠ 0 ∨ s.length < BitVec.ofNat 64 psize then
          s.length / BitVec.ofNat 64 wsize
        else (BitVec.ofNat 64 psize - (s.src &&& pmask psize)) / BitVec.ofNat 64 wsize)
        = BitVec.ofNat 64 c ∧
      i + c * 8 ≤ C.length.toNat ∧ (0 < c → C.Aligned 8 i) ∧ C.Clear n psize i (i + c * 8) ∧
      (C.Aligned psize (i + c * 8) ∨ (C.length.toNat < i + c * 8 + psize ∧
        C.Clear n psize (i + c * 8) C.length.toNat)) := by
  have hsize : (BitVec.ofNat 64 psize).toNat = psize := by rcases hp with rfl | rfl | rfl <;> rfl
  have hge : 8 ≤ psize := by rcases hp with rfl | rfl | rfl <;> decide
  have hend : i = C.length.toNat → s.length.toNat < psize := by omega
  by_cases hall : (s.src ^^^ s.dst) &&& pmask psize ≠ 0 ∨ s.length < BitVec.ofNat 64 psize
  · -- no pointer slot is common to both, so none can be broken
    have hnone {lo hi : ℕ} : C.Clear n psize lo hi := by
      rcases hall with hne | hlt
      · exact clear_of_mismatch (dvd_refl _) fun heq => hne ((h.match_iff hp).mpr heq.symm)
      · have hlt' : s.length.toNat < psize := hsize ▸ BitVec.lt_def.mp hlt
        exact clear_of_short hp hclear (by omega)
    refine ⟨s.length.toNat / 8, ?_, by omega, fun hc => ?_, hnone, .inr ⟨by omega, hnone⟩⟩
    · rw [if_pos hall]
      exact div_ofNat (by decide)
    · exact hword.resolve_left fun hi => by omega
  · have hall' := hall
    rw [not_or, not_not, BitVec.not_lt] at hall
    obtain ⟨hmatch, hge'⟩ := hall
    have hge'' : psize ≤ s.length.toNat := hsize ▸ BitVec.le_def.mp hge'
    have hmatch' := (h.match_iff hp).mp hmatch
    have hmod : (s.src &&& pmask psize).toNat = (C.src0.toNat + i) % psize :=
      (toNat_and_mask hp _).trans (h.src_mod hp)
    have hal₈ : C.Aligned 8 i := hword.resolve_left fun hi => by omega
    have hsrc₈ := hal₈.src
    have hne : (C.src0.toNat + i) % psize ≠ 0 := fun hz => hal ⟨hmatch' ▸ hz, hz⟩
    -- a pointer is a whole number of words
    obtain ⟨c, hc⟩ : ∃ c, c * 8 = psize - (C.src0.toNat + i) % psize := by
      refine ⟨(psize - (C.src0.toNat + i) % psize) / 8, ?_⟩
      rcases hp with rfl | rfl | rfl <;> omega
    have hend' : C.Aligned psize (i + c * 8) := by
      constructor <;> rcases hp with rfl | rfl | rfl <;> omega
    have hlt : c * 8 < psize := by omega
    refine ⟨c, ?_, by omega, fun _ => hal₈, ?_, .inl hend'⟩
    · rw [if_neg hall']
      have hdiff : (BitVec.ofNat 64 psize - (s.src &&& pmask psize)).toNat = c * 8 := by
        have hmax : psize ≤ 32 := by rcases hp with rfl | rfl | rfl <;> decide
        have hr := Nat.mod_lt (C.src0.toNat + i) (show 0 < psize by omega)
        rw [BitVec.toNat_sub, hmod, hsize]
        generalize (C.src0.toNat + i) % psize = r at hc hr
        omega
      rw [div_ofNat (by decide), hdiff, wsize, Nat.mul_div_cancel _ (by decide)]
    · exact (clear_of_align hp (dvd_refl _) hclear hlt hend'.dst).mono (Nat.zero_le i) (le_refl _)

/-- **The second stage** ends at a pointer boundary or with less than a
pointer left. -/
theorem alignToPtr_spec (hC : C.Fits) (hp : IsPtrSize psize) (hup : C.Upward)
    (hfuel : C.length.toNat ≤ fuel) (h : C.At n psize m₀ i 0 i s)
    (hl : s.length.toNat + i = C.length.toNat) (hclear : C.Clear n psize 0 i)
    (hword : i = C.length.toNat ∨ C.Aligned 8 i) :
    ∃ i s', alignToPtr n psize C fuel s = some s' ∧ C.At n psize m₀ i 0 i s' ∧
      s'.length.toNat + i = C.length.toNat ∧
      (C.Aligned psize i ∨
        (C.length.toNat < i + psize ∧ C.Clear n psize i C.length.toNat)) := by
  by_cases hbig : psize > wsize
  swap
  · -- where a pointer is a word, there is nothing to do
    obtain rfl : psize = 8 := by
      unfold wsize at hbig
      rcases hp with rfl | rfl | rfl <;> omega
    refine ⟨i, s, if_neg hbig, h, hl, hword.symm.imp_right fun hi => ⟨by omega, ?_⟩⟩
    exact fun _ o hslot => .inl (hi ▸ hslot.inside)
  by_cases hal : C.Aligned psize i
  · refine ⟨i, s, ?_, h, hl, .inl hal⟩
    rw [alignToPtr, if_pos hbig]
    exact if_neg (not_not.mpr ((h.aligned_iff hp).mpr hal))
  have hne : (s.src ||| s.dst) &&& pmask psize ≠ 0 := fun heq => hal ((h.aligned_iff hp).mp heq)
  obtain ⟨c, hc, hle, hal₈, hcut, hend⟩ := h.words_to_ptr hp hl hclear hword hal
  have hsmall := s.length.isLt
  rcases Nat.eq_zero_or_pos c with rfl | hpos
  · rw [Nat.zero_mul, Nat.add_zero] at hend
    refine ⟨i, s, ?_, h, hl, hend⟩
    rw [alignToPtr, if_pos hbig, if_pos hne]
    simp only [hc]
    exact if_neg (not_not.mpr rfl)
  · have ht : BitVec.ofNat 64 c * BitVec.ofNat 64 wsize = BitVec.ofNat 64 (c * 8) :=
      (BitVec.ofNat_mul ..).symm
    have hc₀ : BitVec.ofNat 64 c ≠ 0 := ofNat_ne_zero hpos (by omega)
    obtain ⟨m', hm', hat⟩ := h.up hC hp hup hfuel (T := .word) (k := 8) (t := BitVec.ofNat 64 (c * 8))
      rfl rfl hpos hle (hal₈ hpos) (.inr hcut) (s.length - BitVec.ofNat 64 (c * 8))
    refine ⟨i + c * 8, _, ?_, hat, ?_, hend⟩
    · rw [alignToPtr, if_pos hbig, if_pos hne]
      simp only [hc, if_pos hc₀, ht]
      exact congrArg _ hm'
    · rw [toNat_length_sub (by omega)]
      omega

/-- **The third stage** leaves less than a pointer. -/
theorem copyPtrs_spec (hC : C.Fits) (hp : IsPtrSize psize) (hup : C.Upward)
    (hfuel : C.length.toNat ≤ fuel) (h : C.At n psize m₀ i 0 i s)
    (hl : s.length.toNat + i = C.length.toNat)
    (hptr : C.Aligned psize i ∨
      (C.length.toNat < i + psize ∧ C.Clear n psize i C.length.toNat)) :
    ∃ i s', copyPtrs n psize C fuel s = some s' ∧ C.At n psize m₀ i 0 i s' ∧
      s'.length.toNat % psize + i = C.length.toNat ∧ C.Clear n psize i C.length.toNat := by
  have hsize : (BitVec.ofNat 64 psize).toNat = psize := by rcases hp with rfl | rfl | rfl <;> rfl
  have hge : 0 < psize := by rcases hp with rfl | rfl | rfl <;> decide
  have hdiv : s.length / BitVec.ofNat 64 psize = BitVec.ofNat 64 (s.length.toNat / psize) :=
    div_ofNat (by rcases hp with rfl | rfl | rfl <;> norm_num)
  have hsplit := Nat.div_add_mod' s.length.toNat psize
  have hmod := Nat.mod_lt s.length.toNat hge
  have hsmall := s.length.isLt
  generalize hc : s.length.toNat / psize = c at hdiv hsplit
  have hcle : c ≤ c * psize := Nat.le_mul_of_pos_right c hge
  rcases Nat.eq_zero_or_pos c with rfl | hpos
  · refine ⟨i, s, ?_, h, by omega, ?_⟩
    · rw [copyPtrs, hdiv]
      exact if_neg (not_not.mpr rfl)
    · rcases hptr with hal | ⟨-, hclear⟩
      · exact clear_tail hal.dst (by omega)
      · exact hclear
  · -- there is room for a pointer, so the stage before ended at a boundary
    have hal : C.Aligned psize i := by
      refine hptr.resolve_right fun hshort => ?_
      have := Nat.mul_le_mul_right psize (show 1 ≤ c from hpos)
      omega
    have hc₀ : BitVec.ofNat 64 c ≠ 0 := ofNat_ne_zero hpos (by omega)
    have ht : BitVec.ofNat 64 c * BitVec.ofNat 64 psize = BitVec.ofNat 64 (c * psize) :=
      (BitVec.ofNat_mul ..).symm
    have hclear : CType.ptr = .ptr ∧ psize = n ∨ C.Clear n psize i (i + c * psize) := by
      by_cases hcap : psize = n
      · exact .inl ⟨rfl, hcap⟩
      · exact .inr fun hkeeps => absurd hkeeps.size hcap
    obtain ⟨m', hm', hat⟩ := h.up hC hp hup hfuel (T := .ptr) (k := psize)
      (t := BitVec.ofNat 64 (c * psize)) rfl rfl hpos (by omega) hal hclear s.length
    refine ⟨i + c * psize, _, ?_, hat, ?_, clear_tail (hal.add c).dst (by omega)⟩
    · rw [copyPtrs, hdiv]
      simp only [if_pos hc₀, ht]
      exact congrArg _ hm'
    · show s.length.toNat % psize + _ = _
      omega

/-- **The last stage** copies the rest. -/
theorem copyRest_spec (hC : C.Fits) (hp : IsPtrSize psize) (hup : C.Upward)
    (hfuel : C.length.toNat ≤ fuel) (h : C.At n psize m₀ i 0 i s)
    (hl : s.length.toNat % psize + i = C.length.toNat) (hclear : C.Clear n psize i C.length.toNat) :
    ∃ m', copyRest n psize C fuel s = some m' ∧ C.Progress n psize m₀ 0 C.length.toNat m' := by
  have hlen := C.length.isLt
  have ht : s.length &&& pmask psize = BitVec.ofNat 64 (s.length.toNat % psize) := by
    rw [← toNat_and_mask hp, BitVec.ofNat_toNat, BitVec.setWidth_eq]
  generalize s.length.toNat % psize = c at hl ht
  rcases Nat.eq_zero_or_pos c with rfl | hpos
  · refine ⟨s.mem, ?_, ?_⟩
    · rw [copyRest, ht]
      exact if_neg (not_not.mpr rfl)
    · have hP := h.progress
      rwa [show i = C.length.toNat by omega] at hP
  · obtain ⟨m', hm', hat⟩ := h.up hC hp hup hfuel (T := .char) (k := 1) (t := BitVec.ofNat 64 c) rfl
      (by rw [Nat.mul_one]) hpos (by omega) ⟨Nat.mod_one _, Nat.mod_one _⟩
      (.inr (hclear.mono (le_refl _) (by omega))) 0
    refine ⟨m', ?_, ?_⟩
    · rw [copyRest, ht]
      exact (if_pos (ofNat_ne_zero hpos (by omega))).trans hm'
    · have hP := hat.progress
      rwa [show i + c * 1 = C.length.toNat by omega] at hP

end forward

/-! ### Backwards -/

section backwards
variable {s : Locals}

/-- A loop of a stage, which moves the pointers back by `c` units first. -/
theorem CopyCall.At.down (hC : C.Fits) (hp : IsPtrSize psize) (hdown : C.src0.toNat < C.dst0.toNat)
    (hfuel : C.length.toNat ≤ fuel) {c : ℕ}
    (h : C.At n psize m₀ (i + c * k) (i + c * k) C.length.toNat s) (hk : T.size psize = k)
    {t j : BitVec 64} (ht : t = BitVec.ofNat 64 (c * k)) (hj : j = BitVec.ofNat 64 ((c - 1) * k))
    (hc : 0 < c) (hin : i + c * k ≤ C.length.toNat) (hal : C.Aligned k i)
    (hclear : T = .ptr ∧ psize = n ∨ C.Clear n psize i (i + c * k)) (l : BitVec 64) :
    ∃ m', MIPSLOOP fuel j 0 (fun j => assign n psize C T (s.dst - t + j) (s.src - t + j))
        (-BitVec.ofNat 64 k) s.mem = some m' ∧
      C.At n psize m₀ i i C.length.toNat ⟨s.dst - t, s.src - t, l, m'⟩ := by
  have hat (q : BitVec 64) : q + BitVec.ofNat 64 (i + c * k) - t = q + BitVec.ofNat 64 i := by
    rw [ht, BitVec.ofNat_add, ← add_assoc]
    exact add_sub_cancel_right _ _
  obtain ⟨m', hm', hP⟩ := h.progress.down hC hp hdown hfuel hk hc hin hal hclear
  rw [h.dst, h.src, hat, hat, hj]
  exact ⟨m', hm', rfl, rfl, hP⟩

theorem ofNat_sub_one {c : ℕ} (hc : 0 < c) : BitVec.ofNat 64 c - 1 = BitVec.ofNat 64 (c - 1) := by
  obtain ⟨c, rfl⟩ : ∃ b, c = b + 1 := ⟨c - 1, by omega⟩
  rw [BitVec.ofNat_add]
  exact add_sub_cancel_right _ _

/-- The bytes behind the last boundary, or all if there is none. -/
theorem CopyCall.At.bytes_from_word (hp : IsPtrSize psize) {e : ℕ}
    (h : C.At n psize m₀ e e C.length.toNat s) (hl : s.length.toNat = e)
    (hclear : C.Clear n psize e C.length.toNat) (hpos : 0 < e) (hal : ¬ C.Aligned 8 e) : ∃ i c,
      (if (s.src ^^^ s.dst) &&& wmask ≠ 0 ∨ s.length ≤ BitVec.ofNat 64 wsize then s.length
        else s.src &&& wmask) = BitVec.ofNat 64 c ∧
      0 < c ∧ e = i + c ∧ C.Clear n psize i C.length.toNat ∧ (i = 0 ∨ C.Aligned 8 i) := by
  have h8 : IsPtrSize 8 := .inl rfl
  have hdvd : 8 ∣ psize := by rcases hp with rfl | rfl | rfl <;> decide
  have hle : 8 ≤ psize := by rcases hp with rfl | rfl | rfl <;> decide
  by_cases hall : (s.src ^^^ s.dst) &&& wmask ≠ 0 ∨ s.length ≤ BitVec.ofNat 64 wsize
  · refine ⟨0, e, ?_, hpos, by omega, ?_, .inl rfl⟩
    · rw [if_pos hall, ← hl, BitVec.ofNat_toNat, BitVec.setWidth_eq]
    · rcases hall with hne | hlt
      · exact clear_of_mismatch hdvd fun heq => hne ((h.match_iff h8).mpr heq.symm)
      · have hlt' : s.length.toNat ≤ 8 := BitVec.le_def.mp hlt
        by_cases hshort : e < psize
        · exact clear_of_short_down hp hclear hshort
        · -- eight bytes, and a slot would have to be all of them
          intro hkeeps o hslot
          have hmatch := hkeeps.congruent
          have hin := hslot.inside
          have hdst := hslot.aligned
          have hcase := hclear hkeeps o hslot
          obtain rfl := hkeeps.size
          obtain ⟨rfl, rfl, rfl⟩ : e = 8 ∧ psize = 8 ∧ o = 0 := by omega
          exact absurd ⟨by omega, by omega⟩ hal
  · have hall' := hall
    rw [not_or, not_not, BitVec.not_le] at hall
    obtain ⟨hmatch, hgt⟩ := hall
    have hgt' : 8 < s.length.toNat := BitVec.lt_def.mp hgt
    have hmatch' := (h.match_iff h8).mp hmatch
    have hmod : (s.src &&& wmask).toNat = (C.src0.toNat + e) % 8 :=
      (toNat_and_mask h8 _).trans (h.src_mod h8)
    have hne : (C.src0.toNat + e) % 8 ≠ 0 := fun hz => hal ⟨hmatch' ▸ hz, hz⟩
    obtain ⟨i, hi⟩ : ∃ i, e = i + (C.src0.toNat + e) % 8 := ⟨e - (C.src0.toNat + e) % 8, by omega⟩
    have hdst : (C.dst0.toNat + i) % 8 = 0 := by omega
    refine ⟨i, _, ?_, by omega, hi, ?_, .inr ⟨hdst, by omega⟩⟩
    · rw [if_neg hall', ← hmod, BitVec.ofNat_toNat, BitVec.setWidth_eq]
    · exact clear_of_align_down hp hdvd (hi ▸ hclear) (Nat.mod_lt _ (by decide)) hdst

/-- **The first stage backwards** begins at a word boundary or with everything
copied. -/
theorem alignToWordDown_spec (hC : C.Fits) (hp : IsPtrSize psize)
    (hdown : C.src0.toNat < C.dst0.toNat) (hfuel : C.length.toNat ≤ fuel) {e : ℕ}
    (h : C.At n psize m₀ e e C.length.toNat s) (hl : s.length.toNat = e)
    (hclear : C.Clear n psize e C.length.toNat) (hpos : 0 < e) (hle : e ≤ C.length.toNat) :
    ∃ i s', alignToWordDown n psize C fuel s = some s' ∧ C.At n psize m₀ i i C.length.toNat s' ∧
      s'.length.toNat = i ∧ i ≤ C.length.toNat ∧ C.Clear n psize i C.length.toNat ∧
      (i = 0 ∨ C.Aligned 8 i) := by
  have h8 : IsPtrSize 8 := .inl rfl
  by_cases hal : C.Aligned 8 e
  · exact ⟨e, s, if_neg (not_not.mpr ((h.aligned_iff h8).mpr hal)), h, hl, hle, hclear, .inr hal⟩
  obtain ⟨i, c, hc, hc₀, rfl, hclear', hend⟩ := h.bytes_from_word hp hl hclear hpos hal
  obtain ⟨m', hm', hat⟩ := CopyCall.At.down (T := .char) (k := 1) (c := c) (t := BitVec.ofNat 64 c)
    (j := BitVec.ofNat 64 c - 1) hC hp hdown hfuel (by rwa [Nat.mul_one]) rfl (by rw [Nat.mul_one])
    (by rw [Nat.mul_one, ofNat_sub_one hc₀]) hc₀ (by omega) ⟨Nat.mod_one _, Nat.mod_one _⟩
    (.inr (hclear'.mono (le_refl _) (by omega))) (s.length - BitVec.ofNat 64 c)
  refine ⟨i, _, ?_, hat, ?_, by omega, hclear', hend⟩
  · have hne : (s.src ||| s.dst) &&& wmask ≠ 0 := fun heq => hal ((h.aligned_iff h8).mp heq)
    rw [alignToWordDown, if_pos hne]
    simp only [hc]
    exact congrArg _ hm'
  · rw [toNat_length_sub (by omega)]
    omega

/-- The words behind the last boundary, or as many as there are if there is
none. -/
theorem CopyCall.At.words_from_ptr (hp : IsPtrSize psize) {e : ℕ}
    (h : C.At n psize m₀ e e C.length.toNat s) (hl : s.length.toNat = e)
    (hclear : C.Clear n psize e C.length.toNat) (hword : e = 0 ∨ C.Aligned 8 e)
    (hal : ¬ C.Aligned psize e) : ∃ i c,
      (if (s.src ^^^ s.dst) &&& pmask psize ≠ 0 ∨ s.length < BitVec.ofNat 64 psize then
          s.length / BitVec.ofNat 64 wsize
        else (s.src &&& pmask psize) / BitVec.ofNat 64 wsize) = BitVec.ofNat 64 c ∧
      e = i + c * 8 ∧ (0 < c → C.Aligned 8 i) ∧ C.Clear n psize i e ∧
      (C.Aligned psize i ∨ (i < psize ∧ C.Clear n psize 0 i)) := by
  have hsize : (BitVec.ofNat 64 psize).toNat = psize := by rcases hp with rfl | rfl | rfl <;> rfl
  have hge : 8 ≤ psize := by rcases hp with rfl | rfl | rfl <;> decide
  by_cases hall : (s.src ^^^ s.dst) &&& pmask psize ≠ 0 ∨ s.length < BitVec.ofNat 64 psize
  · have hnone {lo hi : ℕ} : C.Clear n psize lo hi := by
      rcases hall with hne | hlt
      · exact clear_of_mismatch (dvd_refl _) fun heq => hne ((h.match_iff hp).mpr heq.symm)
      · have hlt' : s.length.toNat < psize := hsize ▸ BitVec.lt_def.mp hlt
        exact clear_of_short_down hp hclear (by omega)
    refine ⟨e % 8, e / 8, ?_, by omega, fun hc => ?_, hnone, .inr ⟨by omega, hnone⟩⟩
    · rw [if_pos hall, ← hl]
      exact div_ofNat (by decide)
    · have hal₈ := hword.resolve_left (by omega)
      have := hal₈.dst
      have := hal₈.src
      exact ⟨by omega, by omega⟩
  · have hall' := hall
    rw [not_or, not_not, BitVec.not_lt] at hall
    obtain ⟨hmatch, hge'⟩ := hall
    have hge'' : psize ≤ s.length.toNat := hsize ▸ BitVec.le_def.mp hge'
    have hmatch' := (h.match_iff hp).mp hmatch
    have hmod : (s.src &&& pmask psize).toNat = (C.src0.toNat + e) % psize :=
      (toNat_and_mask hp _).trans (h.src_mod hp)
    have hal₈ : C.Aligned 8 e := hword.resolve_left (by omega)
    have hsrc₈ := hal₈.src
    have hdst₈ := hal₈.dst
    obtain ⟨c, hc⟩ : ∃ c, c * 8 = (C.src0.toNat + e) % psize := by
      refine ⟨(C.src0.toNat + e) % psize / 8, ?_⟩
      rcases hp with rfl | rfl | rfl <;> omega
    have hlt : c * 8 < psize := by
      rw [hc]
      exact Nat.mod_lt _ (by omega)
    obtain ⟨i, rfl⟩ : ∃ i, e = i + c * 8 := ⟨e - c * 8, by omega⟩
    have hend' : C.Aligned psize i := by
      constructor <;> rcases hp with rfl | rfl | rfl <;> omega
    refine ⟨i, c, ?_, rfl, fun _ => ⟨by omega, by omega⟩, ?_, .inl hend'⟩
    · rw [if_neg hall', div_ofNat (by decide), hmod, ← hc, wsize, Nat.mul_div_cancel _ (by decide)]
    · intro hkeeps o hslot
      have h₁ := clear_of_align_down hp (dvd_refl _) hclear hlt hend'.dst hkeeps o hslot
      have h₂ := hslot.inside
      have h₃ := hkeeps.pos hp
      omega

/-- **The second stage backwards** begins at a pointer boundary or with less
than a pointer before it. -/
theorem alignToPtrDown_spec (hC : C.Fits) (hp : IsPtrSize psize)
    (hdown : C.src0.toNat < C.dst0.toNat) (hfuel : C.length.toNat ≤ fuel) {e : ℕ}
    (h : C.At n psize m₀ e e C.length.toNat s) (hl : s.length.toNat = e) (hle : e ≤ C.length.toNat)
    (hclear : C.Clear n psize e C.length.toNat) (hword : e = 0 ∨ C.Aligned 8 e) :
    ∃ i s', alignToPtrDown n psize C fuel s = some s' ∧ C.At n psize m₀ i i C.length.toNat s' ∧
      s'.length.toNat = i ∧ i ≤ C.length.toNat ∧
      (C.Aligned psize i ∨ (i < psize ∧ C.Clear n psize 0 i)) := by
  by_cases hbig : psize > wsize
  swap
  · obtain rfl : psize = 8 := by
      unfold wsize at hbig
      rcases hp with rfl | rfl | rfl <;> omega
    refine ⟨e, s, if_neg hbig, h, hl, hle, hword.symm.imp_right fun he => ⟨by omega, ?_⟩⟩
    exact fun _ o _ => .inr (he ▸ Nat.zero_le o)
  by_cases hal : C.Aligned psize e
  · refine ⟨e, s, ?_, h, hl, hle, .inl hal⟩
    rw [alignToPtrDown, if_pos hbig]
    exact if_neg (not_not.mpr ((h.aligned_iff hp).mpr hal))
  have hne : (s.src ||| s.dst) &&& pmask psize ≠ 0 := fun heq => hal ((h.aligned_iff hp).mp heq)
  obtain ⟨i, c, hc, rfl, hal₈, hcut, hend⟩ := h.words_from_ptr hp hl hclear hword hal
  have hsmall := s.length.isLt
  rcases Nat.eq_zero_or_pos c with rfl | hpos
  · refine ⟨i, s, ?_, by simpa using h, by omega, by omega, hend⟩
    rw [alignToPtrDown, if_pos hbig, if_pos hne]
    simp only [hc]
    exact if_neg (not_not.mpr rfl)
  · have ht : BitVec.ofNat 64 c * BitVec.ofNat 64 wsize = BitVec.ofNat 64 (c * 8) :=
      (BitVec.ofNat_mul ..).symm
    have hj : (BitVec.ofNat 64 c - 1) * BitVec.ofNat 64 wsize = BitVec.ofNat 64 ((c - 1) * 8) := by
      rw [ofNat_sub_one hpos]
      exact (BitVec.ofNat_mul ..).symm
    have hc₀ : BitVec.ofNat 64 c ≠ 0 := ofNat_ne_zero hpos (by omega)
    obtain ⟨m', hm', hat⟩ := h.down hC hp hdown hfuel (T := .word) rfl rfl rfl hpos hle (hal₈ hpos)
      (.inr hcut) (s.length - BitVec.ofNat 64 (c * 8))
    refine ⟨i, _, ?_, hat, ?_, by omega, hend⟩
    · rw [alignToPtrDown, if_pos hbig, if_pos hne]
      simp only [hc, if_pos hc₀, ht, hj]
      exact congrArg _ hm'
    · rw [toNat_length_sub (by omega)]
      omega

/-- **The third stage backwards** leaves less than a pointer. -/
theorem copyPtrsDown_spec (hC : C.Fits) (hp : IsPtrSize psize)
    (hdown : C.src0.toNat < C.dst0.toNat) (hfuel : C.length.toNat ≤ fuel) {e : ℕ}
    (h : C.At n psize m₀ e e C.length.toNat s) (hl : s.length.toNat = e) (hle : e ≤ C.length.toNat)
    (hptr : C.Aligned psize e ∨ (e < psize ∧ C.Clear n psize 0 e)) :
    ∃ i s', copyPtrsDown n psize C fuel s = some s' ∧ C.At n psize m₀ i i C.length.toNat s' ∧
      s'.length.toNat % psize = i ∧ i ≤ C.length.toNat ∧ C.Clear n psize 0 i := by
  have hge : 0 < psize := by rcases hp with rfl | rfl | rfl <;> decide
  have hdiv : s.length / BitVec.ofNat 64 psize = BitVec.ofNat 64 (s.length.toNat / psize) :=
    div_ofNat (by rcases hp with rfl | rfl | rfl <;> norm_num)
  have hsplit := Nat.div_add_mod' s.length.toNat psize
  have hmod := Nat.mod_lt s.length.toNat hge
  have hsmall := s.length.isLt
  generalize hc : s.length.toNat / psize = c at hdiv hsplit
  have hcle : c ≤ c * psize := Nat.le_mul_of_pos_right c hge
  rcases Nat.eq_zero_or_pos c with rfl | hpos
  · refine ⟨e, s, ?_, h, by omega, hle, ?_⟩
    · rw [copyPtrsDown, hdiv]
      exact if_neg (not_not.mpr rfl)
    · rcases hptr with hal | ⟨-, hclear⟩
      · exact clear_head hal.dst (by omega)
      · exact hclear
  · have hal : C.Aligned psize e := by
      refine hptr.resolve_right fun hshort => ?_
      have := Nat.mul_le_mul_right psize (show 1 ≤ c from hpos)
      omega
    obtain ⟨i, rfl⟩ : ∃ i, e = i + c * psize := ⟨s.length.toNat % psize, by omega⟩
    have hal' : C.Aligned psize i := by
      constructor
      · rw [← Nat.add_mul_mod_self_right _ c, Nat.add_assoc]
        exact hal.dst
      · rw [← Nat.add_mul_mod_self_right _ c, Nat.add_assoc]
        exact hal.src
    have hc₀ : BitVec.ofNat 64 c ≠ 0 := ofNat_ne_zero hpos (by omega)
    have ht : BitVec.ofNat 64 c * BitVec.ofNat 64 psize = BitVec.ofNat 64 (c * psize) :=
      (BitVec.ofNat_mul ..).symm
    have hj : (BitVec.ofNat 64 c - 1) * BitVec.ofNat 64 psize = BitVec.ofNat 64 ((c - 1) * psize) := by
      rw [ofNat_sub_one hpos]
      exact (BitVec.ofNat_mul ..).symm
    have hclear : CType.ptr = .ptr ∧ psize = n ∨ C.Clear n psize i (i + c * psize) := by
      by_cases hcap : psize = n
      · exact .inl ⟨rfl, hcap⟩
      · exact .inr fun hkeeps => absurd hkeeps.size hcap
    obtain ⟨m', hm', hat⟩ := h.down hC hp hdown hfuel (T := .ptr) rfl rfl rfl hpos hle hal' hclear
      s.length
    refine ⟨i, _, ?_, hat, ?_, by omega, clear_head hal'.dst (by omega)⟩
    · rw [copyPtrsDown, hdiv]
      simp only [if_pos hc₀, ht, hj]
      exact congrArg _ hm'
    · show s.length.toNat % psize = i
      omega

/-- **The last stage backwards** copies the rest. -/
theorem copyRestDown_spec (hC : C.Fits) (hp : IsPtrSize psize)
    (hdown : C.src0.toNat < C.dst0.toNat) (hfuel : C.length.toNat ≤ fuel)
    (h : C.At n psize m₀ i i C.length.toNat s) (hl : s.length.toNat % psize = i)
    (hle : i ≤ C.length.toNat) (hclear : C.Clear n psize 0 i) :
    ∃ m', copyRestDown n psize C fuel s = some m' ∧ C.Progress n psize m₀ 0 C.length.toNat m' := by
  have hlen := C.length.isLt
  have ht : s.length &&& pmask psize = BitVec.ofNat 64 i := by
    rw [← hl, ← toNat_and_mask hp, BitVec.ofNat_toNat, BitVec.setWidth_eq]
  rcases Nat.eq_zero_or_pos i with rfl | hpos
  · refine ⟨s.mem, ?_, h.progress⟩
    rw [copyRestDown, ht]
    exact if_neg (not_not.mpr rfl)
  · obtain ⟨m', hm', hat⟩ := CopyCall.At.down (T := .char) (k := 1) (i := 0) (c := i)
      (t := BitVec.ofNat 64 i) (j := BitVec.ofNat 64 i - 1) hC hp hdown hfuel
      (by rwa [Nat.mul_one, Nat.zero_add]) rfl (by rw [Nat.mul_one])
      (by rw [Nat.mul_one, ofNat_sub_one hpos]) hpos (by omega) ⟨Nat.mod_one _, Nat.mod_one _⟩
      (.inr (hclear.mono (le_refl _) (by omega))) 0
    refine ⟨m', ?_, hat.progress⟩
    rw [copyRestDown, ht]
    exact (if_pos (ofNat_ne_zero hpos (by omega))).trans hm'

end backwards

/-! ### The functions -/

/-- Two objects without a byte in common. -/
def CopyCall.Disjoint (C : CopyCall) : Prop :=
  C.dst0.toNat + C.length.toNat ≤ C.src0.toNat ∨ C.src0.toNat + C.length.toNat ≤ C.dst0.toNat

/-- The copy, in either direction. -/
theorem copyBody_spec (hC : C.Fits) (hp : IsPtrSize psize) {handle_overlap : Bool}
    (hapart : handle_overlap = false → C.Disjoint) (hfuel : C.length.toNat ≤ fuel) (m : Mem)
    (hlen : 0 < C.length.toNat) (hne : C.src0 ≠ C.dst0) :
    ∃ m', copyBody n psize C fuel handle_overlap m = some m' ∧
      C.Progress n psize m 0 C.length.toNat m' := by
  have hsome : ¬(C.length = 0 ∨ C.src0 = C.dst0) := by
    rintro (h | h)
    · rw [h] at hlen
      exact absurd hlen (by decide)
    · exact hne h
  by_cases hfwd : C.dst0 < C.src0 ∨ !handle_overlap
  · -- upwards, stage by stage: each leaves what the next one starts from
    have hup : C.Upward := by
      rcases hfwd with hlt | hno
      · exact .inl (BitVec.lt_def.mp hlt)
      · rcases hapart (by simpa using hno) with h | h
        · exact .inl (by omega)
        · exact .inr h
    have h₀ : C.At n psize m 0 0 0 ⟨C.dst0, C.src0, C.length, m⟩ :=
      ⟨(add_zero _).symm, (add_zero _).symm, progress_self hp 0⟩
    obtain ⟨i₁, s₁, he₁, h₁, hl₁, hclear, hword⟩ :=
      alignToWord_spec hC hp hup hfuel h₀ rfl (fun _ o _ => .inr (Nat.zero_le o)) hlen
    obtain ⟨i₂, s₂, he₂, h₂, hl₂, hptr⟩ := alignToPtr_spec hC hp hup hfuel h₁ hl₁ hclear hword
    obtain ⟨i₃, s₃, he₃, h₃, hl₃, hrest⟩ := copyPtrs_spec hC hp hup hfuel h₂ hl₂ hptr
    obtain ⟨m', he, hP⟩ := copyRest_spec hC hp hup hfuel h₃ hl₃ hrest
    refine ⟨m', ?_, hP⟩
    rw [copyBody, if_neg hsome, if_pos hfwd, he₁]
    simp only [Option.bind_eq_bind, Option.bind_some, he₂, he₃, he]
  · -- downwards, from the ends
    have hdown : C.src0.toNat < C.dst0.toNat := by
      rw [not_or, BitVec.not_lt] at hfwd
      have hle := BitVec.le_def.mp hfwd.1
      have hne' : C.src0.toNat ≠ C.dst0.toNat := fun h => hne (BitVec.eq_of_toNat_eq h)
      omega
    have h₀ : C.At n psize m C.length.toNat C.length.toNat C.length.toNat
        ⟨C.dst0 + C.length, C.src0 + C.length, C.length, m⟩ := by
      refine ⟨?_, ?_, progress_self hp _⟩
      · rw [BitVec.ofNat_toNat, BitVec.setWidth_eq]
      · rw [BitVec.ofNat_toNat, BitVec.setWidth_eq]
    obtain ⟨i₁, s₁, he₁, h₁, hl₁, hi₁, hclear, hword⟩ := alignToWordDown_spec hC hp hdown hfuel h₀ rfl
      (fun _ o hslot => .inl hslot.inside) hlen (le_refl _)
    obtain ⟨i₂, s₂, he₂, h₂, hl₂, hi₂, hptr⟩ :=
      alignToPtrDown_spec hC hp hdown hfuel h₁ hl₁ hi₁ hclear hword
    obtain ⟨i₃, s₃, he₃, h₃, hl₃, hi₃, hrest⟩ := copyPtrsDown_spec hC hp hdown hfuel h₂ hl₂ hi₂ hptr
    obtain ⟨m', he, hP⟩ := copyRestDown_spec hC hp hdown hfuel h₃ hl₃ hi₃ hrest
    refine ⟨m', ?_, hP⟩
    rw [copyBody, if_neg hsome, if_neg hfwd, he₁]
    simp only [Option.bind_eq_bind, Option.bind_some, he₂, he₃, he]

/-- What a copy of `length` bytes from `src` to `dst` does to memory: the bytes
arrive, no other byte changes, and if pointers are capabilities of `n` bytes
and the two addresses are congruent, every slot in the destination gets the
tag of its source. -/
structure Copies (n psize : ℕ) (dst src length : BitVec 64) (m m' : Mem) : Prop where
  inside : ∀ i < length.toNat, m'.byte (dst + BitVec.ofNat 64 i) = m.byte (src + BitVec.ofNat 64 i)
  outside : ∀ a : BitVec 64, a.toNat < dst.toNat ∨ dst.toNat + length.toNat ≤ a.toNat →
    m'.byte a = m.byte a
  tags : psize = n → dst.toNat % psize = src.toNat % psize → ∀ o, o + psize ≤ length.toNat →
    (dst.toNat + o) % psize = 0 →
      m'.tag ((dst.toNat + o) / psize) = m.tag ((src.toNat + o) / psize)

/-- What all offsets copied means. -/
theorem CopyCall.Progress.copies (hC : C.Fits) (h : C.Progress n psize m₀ 0 C.length.toNat m) :
    Copies n psize C.dst0 C.src0 C.length m₀ m := by
  constructor
  case inside =>
    exact fun i hi => h.bytes.inside i (Nat.zero_le i) hi
  case outside =>
    intro a ha
    refine h.bytes.outside a fun i _ hi heq => ?_
    have hat : a.toNat = C.dst0.toNat + i := heq ▸ toNat_dst hC hi
    omega
  case tags =>
    rintro rfl hmod o ho hal
    exact h.slots ⟨rfl, hmod⟩ o ⟨hal, ho⟩ (Nat.zero_le o) ho

/-- Nothing to do. -/
theorem copies_self {dst src length : BitVec 64} (h : length = 0 ∨ src = dst) (m : Mem) :
    Copies n psize dst src length m m := by
  constructor
  case inside =>
    intro i hi
    rcases h with rfl | rfl
    · exact absurd hi (Nat.not_lt_zero i)
    · rfl
  case outside => exact fun _ _ => rfl
  case tags =>
    intro _ hmod o ho hal
    rcases h with rfl | rfl
    · obtain ⟨rfl, rfl⟩ : o = 0 ∧ psize = 0 := by
        have hzero : o + psize ≤ 0 := ho
        omega
      rw [Nat.div_zero, Nat.div_zero]
    · rfl

/-- Both ways to compile the body. -/
theorem copyBody_copies (hp : IsPtrSize psize) (hC : C.Fits) {handle_overlap : Bool}
    (hapart : handle_overlap = false → C.Disjoint) (hfuel : C.length.toNat ≤ fuel) (m : Mem) :
    ∃ m', copyBody n psize C fuel handle_overlap m = some m' ∧
      Copies n psize C.dst0 C.src0 C.length m m' := by
  by_cases hsome : C.length = 0 ∨ C.src0 = C.dst0
  · exact ⟨m, if_pos hsome, copies_self hsome m⟩
  · obtain ⟨hlen, hne⟩ := not_or.mp hsome
    have hpos : 0 < C.length.toNat := by
      refine Nat.pos_of_ne_zero fun hz => hlen (BitVec.eq_of_toNat_eq hz)
    obtain ⟨m', he, hP⟩ := copyBody_spec hC hp hapart hfuel m hpos hne
    exact ⟨m', he, hP.copies hC⟩

/-- **memcpy.c is correct.**  For objects that do not wrap, `memmove` and
`bcopy` copy whatever the overlap, `memcpy` if there is none, with no fault and
no more iterations of a loop than there are bytes. -/
theorem memmove_copies (hp : psize = 8 ∨ psize = 16 ∨ psize = 32) {dst src length : BitVec 64}
    (hdst : dst.toNat + length.toNat ≤ 2 ^ 64) (hsrc : src.toNat + length.toNat ≤ 2 ^ 64)
    (hfuel : length.toNat ≤ fuel) (m : Mem) :
    (∃ m', memmove n psize fuel dst src length m = some (dst, m') ∧
      bcopy n psize fuel src dst length m = some m' ∧ Copies n psize dst src length m m') ∧
    (dst.toNat + length.toNat ≤ src.toNat ∨ src.toNat + length.toNat ≤ dst.toNat →
      ∃ m', memcpy n psize fuel dst src length m = some (dst, m') ∧
        Copies n psize dst src length m m') := by
  have hC : CopyCall.Fits ⟨dst, src, length⟩ := ⟨hdst, hsrc⟩
  constructor
  · obtain ⟨m', he, hcopies⟩ :=
      copyBody_copies (n := n) hp hC (fun h : true = false => by cases h) hfuel m
    exact ⟨m', by rw [memmove, he]; rfl, he, hcopies⟩
  · intro hdisjoint
    obtain ⟨m', he, hcopies⟩ :=
      copyBody_copies (n := n) hp hC (fun _ : false = false => hdisjoint) hfuel m
    exact ⟨m', by rw [memcpy, he]; rfl, hcopies⟩

/-- Forty bytes that overlap by eight, with two capabilities among them. -/
theorem memmove_copies_forty :
    ∃ m', memmove 16 16 40 0x1020 0x1000 40 ⟨fun a => a.setWidth 8, fun _ => true⟩
        = some (0x1020, m') ∧
      bcopy 16 16 40 0x1000 0x1020 40 ⟨fun a => a.setWidth 8, fun _ => true⟩ = some m' ∧
      Copies 16 16 0x1020 0x1000 40 ⟨fun a => a.setWidth 8, fun _ => true⟩ m' :=
  (memmove_copies (.inr (.inl rfl)) (by decide) (by decide) (by decide) _).1

end CheriC

end Cheritest
