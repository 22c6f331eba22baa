/-
Cheritest/CheriC/InitGlobals.lean

The initialisation of globals: crt_init_globals.c, without a capability table.

The function walks over a table of relocations.  Each entry asks for one
capability in a slot of memory: to a function, then derived from PCC, or to an
object, then derived from the global data capability and narrowed to the
object unless its size is 0.

`crt_init_globals_initialises`: for a table of any length whose slots are
disjoint from each other and from the table, every slot ends up with the
capability that its entry asks for and with no permission beyond it, and the
rest of the memory does not change.
-/
import Cheritest.CheriC.Builtins
import Mathlib.Tactic.IntervalCases

open Mips

namespace Cheritest

namespace CheriC

variable {n : ℕ}

/-- `struct capreloc`. -/
structure CapReloc where
  capability_location : BitVec 64
  object : BitVec 64
  offset : BitVec 64
  size : BitVec 64
  permissions : BitVec 64
deriving DecidableEq

/-- The entry at an address. -/
def CapReloc.load (m : Mem) (a : BitVec 64) : CapReloc where
  capability_location := m.loadDouble a
  object := m.loadDouble (a + 8)
  offset := m.loadDouble (a + 16)
  size := m.loadDouble (a + 24)
  permissions := m.loadDouble (a + 32)

def function_reloc_flag : BitVec 64 := 1 <<< 63

/-- The masks are computed as `int` and sign-extended. -/
def function_pointer_permissions : BitVec 64 :=
  (~~~(0 : BitVec 32) &&& ~~~PERMIT_STORE_CAPABILITY &&& ~~~PERMIT_STORE).signExtend 64

def global_pointer_permissions : BitVec 64 :=
  (~~~(0 : BitVec 32) &&& ~~~PERMIT_EXECUTE).signExtend 64

/-! ### The function -/

section function
variable (F : CapFormat n) (B : Builtins n)

/-- The body of the loop, for the entry at `reloc`. -/
def initReloc (gdc pcc : CapVal n) (reloc : BitVec 64) (m : Mem) : Option Mem := do
  let r := CapReloc.load m reloc
  let isFunction := r.permissions &&& function_reloc_flag == function_reloc_flag
  let dest ← B.offset_set gdc r.capability_location
  let base := if isFunction then pcc else gdc
  let src ← B.offset_set base r.object
  let bounded := if !isFunction && r.size != 0 then B.bounds_set src r.size else some src
  let src ← B.offset_increment (← bounded) r.offset
  storeThrough F m dest src

/-- The loop from `reloc` to `stop_relocs`; `none` also when the fuel runs out. -/
def initRelocs (gdc pcc : CapVal n) : ℕ → BitVec 64 → BitVec 64 → Mem → Option Mem
  | 0, _, _, _ => none
  | fuel + 1, reloc, stop_relocs, m =>
    if reloc < stop_relocs then
      (initReloc F B gdc pcc reloc m).bind (initRelocs gdc pcc fuel (reloc + 40) stop_relocs)
    else some m

/-- Initialise the globals, from the results of `__builtin_cheri_global_data_get`
and `__builtin_cheri_program_counter_get`. -/
def crt_init_globals (gdc pcc : CapVal n) (fuel : ℕ) (start_relocs stop_relocs : BitVec 64)
    (m : Mem) : Option Mem := do
  let gdc ← B.perms_and gdc global_pointer_permissions
  let pcc ← B.perms_and pcc function_pointer_permissions
  initRelocs F B gdc pcc fuel start_relocs stop_relocs m

end function

/-! ### What the table asks for -/

/-- An entry for a function: the sign bit of its permissions is set. -/
def CapReloc.isFunction (r : CapReloc) : Bool := r.permissions.msb

theorem isFunction_eq (r : CapReloc) :
    (r.permissions &&& function_reloc_flag == function_reloc_flag) = r.isFunction := by
  have hflag : function_reloc_flag = BitVec.intMin 64 := by decide
  rw [hflag, Bool.eq_iff_iff, beq_iff_eq, CapReloc.isFunction]
  constructor
  · intro h
    have hmsb := congrArg BitVec.msb h
    rwa [BitVec.msb_and, show (BitVec.intMin 64).msb = true by decide, Bool.and_true] at hmsb
  · intro h
    refine BitVec.eq_of_getLsbD_eq fun i hi => ?_
    rw [BitVec.getLsbD_and, BitVec.getLsbD_intMin]
    by_cases hi' : i = 63
    · rw [hi', ← BitVec.msb_eq_getLsbD_last, h]
      rfl
    · simp [hi']

section spec
variable (F : CapFormat n) (B : Builtins n) (gdc pcc : CapVal n)

/-- The two capabilities that all others are derived from. -/
structure Roots : Prop where
  gdc_usable : Usable F gdc
  pcc_usable : Usable F pcc
  gdc_base : F.base gdc.data = 0
  pcc_base : F.base pcc.data = 0
  store : F.perm gdc.data .store = true
  storeCap : F.perm gdc.data .storeCap = true
  storeLocalCap : F.perm gdc.data .storeLocalCap = true

/-- The top of the capability that an entry is derived from. -/
def CapReloc.rootTop (r : CapReloc) : ℕ := if r.isFunction then F.top pcc.data else F.top gdc.data

/-- An entry for a slot that the global data capability covers and an object
that can be pointed to: its bounds are covered and representable. -/
structure CapReloc.Links (r : CapReloc) : Prop where
  aligned : r.capability_location.toNat % n = 0
  slot : r.capability_location.toNat + n ≤ F.top gdc.data
  slot_fits : B.fits 0 (F.top gdc.data) r.capability_location
  object_fits : B.fits 0 (r.rootTop F gdc pcc) r.object
  whole_fits : r.isFunction = true ∨ r.size = 0 →
    B.fits 0 (r.rootTop F gdc pcc) (r.object + r.offset)
  covered : r.isFunction = false → r.size ≠ 0 → r.object.toNat + r.size.toNat ≤ F.top gdc.data
  bounds_fit : r.isFunction = false → r.size ≠ 0 →
    B.fits r.object (r.object.toNat + r.size.toNat) r.object
  offset_fits : r.isFunction = false → r.size ≠ 0 →
    B.fits r.object (r.object.toNat + r.size.toNat) (r.object + r.offset)

/-- The capability `v` is what an entry asks for, with no more authority. -/
structure CapReloc.Initialises (r : CapReloc) (v : CapVal n) : Prop extends Usable F v where
  cursor : F.cursor v = r.object + r.offset
  object : r.isFunction = false → r.size ≠ 0 →
    F.base v.data = r.object ∧ F.top v.data = r.object.toNat + r.size.toNat
  whole : r.isFunction = false → r.size = 0 →
    F.base v.data = F.base gdc.data ∧ F.top v.data = F.top gdc.data
  function : r.isFunction = true →
    F.base v.data = F.base pcc.data ∧ F.top v.data = F.top pcc.data
  data_perm : r.isFunction = false → F.perm v.data .execute = false ∧
    ∀ p, F.perm v.data p = true → F.perm gdc.data p = true
  function_perm : r.isFunction = true → F.perm v.data .store = false ∧
    F.perm v.data .storeCap = false ∧ ∀ p, F.perm v.data p = true → F.perm pcc.data p = true

end spec

/-! ### One entry -/

section entry
variable {F : CapFormat n} {B : Builtins n} {gdc pcc gdc' pcc' : CapVal n} {m : Mem}
  {r : CapReloc} {c c' a : BitVec 64}

/-- The permissions of the two capabilities that the loop works with. -/
def maskPerm (mask : BitVec 64) (perm : Perm → Bool) (p : Perm) : Bool :=
  perm p && mask.getLsbD (permBit p)

theorem global_mask (p : Perm) : global_pointer_permissions.getLsbD (permBit p)
    = decide (p ≠ .execute) := by
  cases p <;> decide

theorem function_mask (p : Perm) : function_pointer_permissions.getLsbD (permBit p)
    = decide (p ≠ .store ∧ p ≠ .storeCap) := by
  cases p <;> decide

theorem of_maskPerm {mask : BitVec 64} {perm : Perm → Bool} {p : Perm}
    (h : maskPerm mask perm p = true) : perm p = true :=
  (Bool.and_eq_true_iff.mp h).1

/-- A store through the global data capability into a slot that it covers. -/
theorem storeThrough_slot {dest : CapVal n} {top : ℕ} {perm : Perm → Bool} (src : CapVal n)
    (h : IsCap F dest 0 top perm a) (hstore : perm .store = true) (hcap : perm .storeCap = true)
    (hlocal : perm .storeLocalCap = true) (halign : a.toNat % n = 0) (htop : a.toNat + n ≤ top) :
    storeThrough F m dest src = some (m.storeCap a src) := by
  have hallows : F.allows dest .store a n = true := by
    rw [CapFormat.allows_iff, h.base, h.top, h.perm]
    exact ⟨h.tag, h.unsealed, hstore, Nat.zero_le _, htop⟩
  rw [storeThrough, h.cursor, h.perm, hallows, hcap, hlocal]
  simp only [Bool.or_true, Bool.and_self, if_true, if_pos halign]

/-- What the body of the loop does, from the capabilities on the way. -/
theorem initReloc_of {dest src b v : CapVal n} (hr : CapReloc.load m a = r)
    (hdest : B.offset_set gdc' r.capability_location = some dest)
    (hsrc : B.offset_set (if r.isFunction then pcc' else gdc') r.object = some src)
    (hb : (if !r.isFunction && r.size != 0 then B.bounds_set src r.size else some src) = some b)
    (hv : B.offset_increment b r.offset = some v) :
    initReloc F B gdc' pcc' a m = storeThrough F m dest v := by
  simp only [initReloc, hr, isFunction_eq, hdest, hsrc, hb, hv, Option.bind_eq_bind,
    Option.bind_some]

/-- **One entry.**  The slot of the entry is overwritten with the capability
that the entry asks for. -/
theorem initReloc_eq (hB : B.Documented F) (hroots : Roots F gdc pcc)
    (hg : IsCap F gdc' 0 (F.top gdc.data) (maskPerm global_pointer_permissions (F.perm gdc.data)) c)
    (hp : IsCap F pcc' 0 (F.top pcc.data) (maskPerm function_pointer_permissions (F.perm pcc.data)) c')
    (hr : CapReloc.load m a = r) (hlinks : r.Links F B gdc pcc) :
    ∃ v, initReloc F B gdc' pcc' a m = some (m.storeCap r.capability_location v) ∧
      r.Initialises F gdc pcc v := by
  -- the pointer to the slot
  obtain ⟨dest, hdest, hdestcap⟩ := hB.offset_set (v := gdc') (x := r.capability_location)
    hg.toUsable (by rw [hg.base, hg.top, zero_add]; exact hlinks.slot_fits)
  rw [hg.base, hg.top, hg.perm, zero_add] at hdestcap
  have hmask (p : Perm) (hne : p ≠ .execute) (hperm : F.perm gdc.data p = true) :
      maskPerm global_pointer_permissions (F.perm gdc.data) p = true := by
    rw [maskPerm, hperm, global_mask, decide_eq_true hne]
    rfl
  have hstore (src : CapVal n) :
      storeThrough F m dest src = some (m.storeCap r.capability_location src) :=
    storeThrough_slot src hdestcap (hmask _ (by decide) hroots.store)
      (hmask _ (by decide) hroots.storeCap) (hmask _ (by decide) hroots.storeLocalCap)
      hlinks.aligned hlinks.slot
  have hobject := hlinks.object_fits
  have hwhole := hlinks.whole_fits
  rw [CapReloc.rootTop] at hobject hwhole
  rcases hf : r.isFunction with - | -
  · rw [hf, if_neg (by simp)] at hobject hwhole
    obtain ⟨src, hsrc, hsrccap⟩ := hB.offset_set (v := gdc') (x := r.object) hg.toUsable
      (by rw [hg.base, hg.top, zero_add]; exact hobject)
    rw [hg.base, hg.top, hg.perm, zero_add] at hsrccap
    have hperm {v : CapVal n} (h : F.perm v.data
        = maskPerm global_pointer_permissions (F.perm gdc.data)) :
        F.perm v.data .execute = false ∧ ∀ p, F.perm v.data p = true → F.perm gdc.data p = true := by
      rw [h]
      refine ⟨?_, fun p => of_maskPerm⟩
      rw [maskPerm, global_mask]
      exact Bool.and_false _
    by_cases hsize : r.size = 0
    · -- an object of size 0: the bounds stay
      obtain ⟨v, hv, hvcap⟩ := hB.offset_increment (v := src) (x := r.offset) hsrccap.toUsable
        (by rw [hsrccap.base, hsrccap.top, hsrccap.cursor]; exact hwhole (.inr hsize))
      rw [hsrccap.base, hsrccap.top, hsrccap.perm, hsrccap.cursor] at hvcap
      refine ⟨v, ?_, ⟨hvcap.toUsable, hvcap.cursor, fun _ hne => absurd hsize hne, fun _ _ => ?_,
        fun h => absurd h (by simp [hf]), fun _ => hperm hvcap.perm,
        fun h => absurd h (by simp [hf])⟩⟩
      · have hb : (if !r.isFunction && r.size != 0 then B.bounds_set src r.size else some src)
            = some src := by rw [hf, hsize]; rfl
        exact (initReloc_of hr hdest (by rw [hf]; exact hsrc) hb hv).trans (hstore v)
      · exact ⟨hvcap.base.trans hroots.gdc_base.symm, hvcap.top⟩
    · -- an object with a size: first its bounds, then the offset
      have hcov := hlinks.covered hf hsize
      obtain ⟨b, hb, hbcap⟩ := hB.bounds_set (v := src) (x := r.size) hsrccap.toUsable
        (by rw [hsrccap.base]; exact Nat.zero_le _)
        (by rw [hsrccap.cursor, hsrccap.top]; exact hcov)
        (by rw [hsrccap.cursor]; exact hlinks.bounds_fit hf hsize)
      rw [hsrccap.cursor, hsrccap.perm] at hbcap
      obtain ⟨v, hv, hvcap⟩ := hB.offset_increment (v := b) (x := r.offset) hbcap.toUsable
        (by rw [hbcap.base, hbcap.top, hbcap.cursor]; exact hlinks.offset_fits hf hsize)
      rw [hbcap.base, hbcap.top, hbcap.perm, hbcap.cursor] at hvcap
      refine ⟨v, ?_, ⟨hvcap.toUsable, hvcap.cursor, fun _ _ => ⟨hvcap.base, hvcap.top⟩,
        fun _ h => absurd h hsize, fun h => absurd h (by simp [hf]), fun _ => hperm hvcap.perm,
        fun h => absurd h (by simp [hf])⟩⟩
      have hb' : (if !r.isFunction && r.size != 0 then B.bounds_set src r.size else some src)
          = some b := by
        rw [hf, bne_iff_ne.mpr hsize]
        exact hb
      exact (initReloc_of hr hdest (by rw [hf]; exact hsrc) hb' hv).trans (hstore v)
  · rw [hf, if_pos rfl] at hobject hwhole
    obtain ⟨src, hsrc, hsrccap⟩ := hB.offset_set (v := pcc') (x := r.object) hp.toUsable
      (by rw [hp.base, hp.top, zero_add]; exact hobject)
    rw [hp.base, hp.top, hp.perm, zero_add] at hsrccap
    obtain ⟨v, hv, hvcap⟩ := hB.offset_increment (v := src) (x := r.offset) hsrccap.toUsable
      (by rw [hsrccap.base, hsrccap.top, hsrccap.cursor]; exact hwhole (.inl rfl))
    rw [hsrccap.base, hsrccap.top, hsrccap.perm, hsrccap.cursor] at hvcap
    refine ⟨v, ?_, ⟨hvcap.toUsable, hvcap.cursor, fun h => absurd h (by simp [hf]),
      fun h => absurd h (by simp [hf]), fun _ => ⟨hvcap.base.trans hroots.pcc_base.symm, hvcap.top⟩,
      fun h => absurd h (by simp [hf]), fun _ => ?_⟩⟩
    · have hb : (if !r.isFunction && r.size != 0 then B.bounds_set src r.size else some src)
          = some src := by rw [hf]; rfl
      exact (initReloc_of hr hdest (by rw [hf]; exact hsrc) hb hv).trans (hstore v)
    · rw [hvcap.perm]
      refine ⟨?_, ?_, fun p => of_maskPerm⟩
      · rw [maskPerm, function_mask]
        exact Bool.and_false _
      · rw [maskPerm, function_mask]
        exact Bool.and_false _

end entry

/-! ### The table -/

section table
variable {F : CapFormat n} {B : Builtins n} {gdc pcc gdc' pcc' : CapVal n} {m m' : Mem}
  {start : BitVec 64} {count : ℕ} {c c' : BitVec 64}

/-- The address of an entry. -/
def relocAddr (start : BitVec 64) (i : ℕ) : BitVec 64 := start + BitVec.ofNat 64 (40 * i)

/-- An entry of the table. -/
def relocAt (m : Mem) (start : BitVec 64) (i : ℕ) : CapReloc := CapReloc.load m (relocAddr start i)

/-- An address in the slot of an entry. -/
def InSlot (n : ℕ) (r : CapReloc) (a : BitVec 64) : Prop :=
  r.capability_location.toNat ≤ a.toNat ∧ a.toNat < r.capability_location.toNat + n

/-- A table of `count` entries as it is linked: every entry can be satisfied,
the slots are disjoint from each other and from the table. -/
structure Table (F : CapFormat n) (B : Builtins n) (gdc pcc : CapVal n) (m : Mem)
    (start : BitVec 64) (count : ℕ) : Prop where
  end_lt : start.toNat + 40 * count < 2 ^ 64
  links : ∀ i < count, (relocAt m start i).Links F B gdc pcc
  disjoint : ∀ i < count, ∀ j < count, i ≠ j →
    ∀ a, InSlot n (relocAt m start i) a → ¬InSlot n (relocAt m start j) a
  apart : ∀ i < count, ∀ a, InSlot n (relocAt m start i) a →
    ¬(start.toNat ≤ a.toNat ∧ a.toNat < start.toNat + 40 * count)

theorem relocAddr_toNat (h : start.toNat + 40 * count < 2 ^ 64) {i : ℕ} (hi : i ≤ count) :
    (relocAddr start i).toNat = start.toNat + 40 * i := by
  rw [relocAddr, BitVec.toNat_add, BitVec.toNat_ofNat]
  omega

theorem relocAddr_succ (start : BitVec 64) (i : ℕ) :
    relocAddr start i + 40 = relocAddr start (i + 1) := by
  rw [relocAddr, relocAddr, add_assoc, show (40 : BitVec 64) = BitVec.ofNat 64 40 by rfl,
    ← BitVec.ofNat_add, Nat.mul_succ]

/-- An entry does not change while its bytes do not. -/
theorem relocAt_congr (h : start.toNat + 40 * count < 2 ^ 64)
    (hbyte : ∀ a : BitVec 64, start.toNat ≤ a.toNat → a.toNat < start.toNat + 40 * count →
      m'.byte a = m.byte a) {i : ℕ} (hi : i < count) :
    relocAt m' start i = relocAt m start i := by
  have haddr := relocAddr_toNat h hi.le
  have hword (k : ℕ) (hk : k + 8 ≤ 40) (x : BitVec 64) (hx : x.toNat = start.toNat + 40 * i + k) :
      m'.loadDouble x = m.loadDouble x :=
    Mem.loadDouble_congr fun b hb => by
      have := b.isLt
      rw [BitVec.toNat_sub] at hb
      exact hbyte b (by omega) (by omega)
  have hfield (k : ℕ) (hk : k + 8 ≤ 40) :
      m'.loadDouble (relocAddr start i + BitVec.ofNat 64 k)
        = m.loadDouble (relocAddr start i + BitVec.ofNat 64 k) := by
    refine hword k hk _ ?_
    rw [BitVec.toNat_add, haddr, BitVec.toNat_ofNat]
    omega
  have h0 := hword 0 (by decide) _ haddr
  have h8 : m'.loadDouble (relocAddr start i + 8) = _ := hfield 8 (by decide)
  have h16 : m'.loadDouble (relocAddr start i + 16) = _ := hfield 16 (by decide)
  have h24 : m'.loadDouble (relocAddr start i + 24) = _ := hfield 24 (by decide)
  have h32 : m'.loadDouble (relocAddr start i + 32) = _ := hfield 32 (by decide)
  rw [relocAt, relocAt, CapReloc.load, h0, h8, h16, h24, h32]
  rfl

/-- The first `k` entries have been initialised, and nothing else has changed. -/
structure Initialised (F : CapFormat n) (gdc pcc : CapVal n) (m : Mem) (start : BitVec 64)
    (k : ℕ) (m' : Mem) : Prop where
  slot : ∀ i < k, (relocAt m start i).Initialises F gdc pcc
    (m'.loadCap n (relocAt m start i).capability_location)
  byte : ∀ a, (∀ i < k, ¬InSlot n (relocAt m start i) a) → m'.byte a = m.byte a
  tag : ∀ g, (∀ i < k, g ≠ (relocAt m start i).capability_location.toNat / n) →
    m'.tag g = m.tag g

theorem Initialised.zero : Initialised F gdc pcc m start 0 m :=
  ⟨fun _ hi => absurd hi (Nat.not_lt_zero _), fun _ _ => rfl, fun _ _ => rfl⟩

/-- **A step of the loop** initialises the next entry. -/
theorem Initialised.step (hn : 0 < n) (hB : B.Documented F) (hroots : Roots F gdc pcc)
    (hg : IsCap F gdc' 0 (F.top gdc.data) (maskPerm global_pointer_permissions (F.perm gdc.data)) c)
    (hp : IsCap F pcc' 0 (F.top pcc.data) (maskPerm function_pointer_permissions (F.perm pcc.data)) c')
    (ht : Table F B gdc pcc m start count) {k : ℕ} (hk : k < count)
    (h : Initialised F gdc pcc m start k m') :
    ∃ m'', initReloc F B gdc' pcc' (relocAddr start k) m' = some m'' ∧
      Initialised F gdc pcc m start (k + 1) m'' := by
  have hslot (i : ℕ) (hi : i < count) :
      (relocAt m start i).capability_location.toNat + n ≤ 2 ^ 64 :=
    (ht.links i hi).slot.trans (F.top_le _)
  -- the entry is still as it was linked
  have hread : CapReloc.load m' (relocAddr start k) = relocAt m start k := by
    refine relocAt_congr ht.end_lt (fun a ha ha' => h.byte a fun i hi hin => ?_) hk
    exact ht.apart i (by omega) a hin ⟨ha, ha'⟩
  obtain ⟨v, hrun, hv⟩ := initReloc_eq hB hroots hg hp hread (ht.links k hk)
  refine ⟨_, hrun, ?_, ?_, ?_⟩
  · intro i hi
    rcases Nat.lt_succ_iff_lt_or_eq.mp hi with hi | rfl
    · -- the slots before are disjoint from this one
      have hdis := ht.disjoint k hk i (by omega) (by omega)
      have hapart : (relocAt m start k).capability_location.toNat + n
            ≤ (relocAt m start i).capability_location.toNat ∨
          (relocAt m start i).capability_location.toNat + n
            ≤ (relocAt m start k).capability_location.toNat := by
        by_contra hno
        rw [not_or, not_le, not_le] at hno
        have hk' := hdis (relocAt m start k).capability_location ⟨le_refl _, by omega⟩
        have hi' := hdis (relocAt m start i).capability_location
        simp only [InSlot] at hk' hi'
        omega
      rw [loadCap_storeCap_of_disjoint hn (ht.links k hk).aligned (ht.links i (by omega)).aligned
        (hslot k hk) (hslot i (by omega)) hapart]
      exact h.slot i hi
    · rw [loadCap_storeCap (hslot i hk)]
      exact hv
  · intro a ha
    rw [byte_storeCap_of_not (hslot k hk) (ha k (by omega))]
    exact h.byte a fun i hi => ha i (by omega)
  · intro g hg'
    rw [tag_storeCap_of_ne (hg' k (by omega))]
    exact h.tag g fun i hi => hg' i (by omega)

/-- **A run of the loop** from the `k`-th entry on. -/
theorem Initialised.run (hn : 0 < n) (hB : B.Documented F) (hroots : Roots F gdc pcc)
    (hg : IsCap F gdc' 0 (F.top gdc.data) (maskPerm global_pointer_permissions (F.perm gdc.data)) c)
    (hp : IsCap F pcc' 0 (F.top pcc.data) (maskPerm function_pointer_permissions (F.perm pcc.data)) c')
    (ht : Table F B gdc pcc m start count) {fuel k : ℕ} (hk : k ≤ count) (hfuel : count - k < fuel)
    (h : Initialised F gdc pcc m start k m') :
    ∃ m'', initRelocs F B gdc' pcc' fuel (relocAddr start k) (relocAddr start count) m' = some m'' ∧
      Initialised F gdc pcc m start count m'' := by
  induction fuel generalizing k m' with
  | zero => exact absurd hfuel (Nat.not_lt_zero _)
  | succ fuel ih =>
    have hlt : relocAddr start k < relocAddr start count ↔ k < count := by
      rw [BitVec.lt_def, relocAddr_toNat ht.end_lt hk, relocAddr_toNat ht.end_lt le_rfl]
      omega
    by_cases hkc : k < count
    · obtain ⟨m₁, hstep, h₁⟩ := h.step hn hB hroots hg hp ht hkc
      obtain ⟨m₂, hrun, h₂⟩ := ih hkc (by omega) h₁
      refine ⟨m₂, ?_, h₂⟩
      rw [initRelocs, if_pos (hlt.mpr hkc), hstep, Option.bind_some, relocAddr_succ]
      exact hrun
    · obtain rfl : k = count := by omega
      exact ⟨m', by rw [initRelocs, if_neg (by rw [hlt]; exact hkc)], h⟩

/-- **Globals are initialised as their relocations say**, with no excess
authority, and no other memory changes. -/
theorem crt_init_globals_initialises (hn : 0 < n) (hB : B.Documented F)
    (hroots : Roots F gdc pcc) (ht : Table F B gdc pcc m start count) {fuel : ℕ}
    (hfuel : count < fuel) :
    ∃ m', crt_init_globals F B gdc pcc fuel start (relocAddr start count) m = some m' ∧
      Initialised F gdc pcc m start count m' := by
  obtain ⟨gdc', hg, hgcap⟩ : ∃ w, B.perms_and gdc global_pointer_permissions = some w ∧ _ :=
    hB.perms_and hroots.gdc_usable
  obtain ⟨pcc', hp, hpcap⟩ : ∃ w, B.perms_and pcc function_pointer_permissions = some w ∧ _ :=
    hB.perms_and hroots.pcc_usable
  rw [hroots.gdc_base] at hgcap
  rw [hroots.pcc_base] at hpcap
  obtain ⟨m', hrun, h⟩ := Initialised.zero.run hn hB hroots hgcap hpcap ht (Nat.zero_le _) hfuel
  refine ⟨m', ?_, h⟩
  have hstart : relocAddr start 0 = start := by
    rw [relocAddr, Nat.mul_zero]
    exact add_zero start
  rw [hstart] at hrun
  rw [crt_init_globals, hg, hp]
  exact hrun

end table

/-! ### A table of three entries -/

/-- Store an entry. -/
def CapReloc.store (r : CapReloc) (a : BitVec 64) (m : Mem) : Mem :=
  ((((m.storeDouble 32 a r.capability_location).storeDouble 32 (a + 8) r.object).storeDouble 32
    (a + 16) r.offset).storeDouble 32 (a + 24) r.size).storeDouble 32 (a + 32) r.permissions

/-- An object of 16 bytes with an offset below it, an object of size 0, and a
function. -/
def threeRelocs : Fin 3 → CapReloc
  | 0 => ⟨0x2000, 0x5000, -8, 16, 0⟩
  | 1 => ⟨0x2020, 0x6000, 0, 0, 0⟩
  | 2 => ⟨0x2040, 0x9000, 4, 64, function_reloc_flag⟩

def threeRelocsMem : Mem :=
  (threeRelocs 2).store 0x1050 ((threeRelocs 1).store 0x1028 ((threeRelocs 0).store 0x1000
    ⟨fun _ => 0, fun _ => false⟩))

/-- The capability to all of the memory, with all permissions. -/
def everything : CapVal 32 :=
  ⟨true, setField (setField (fun _ => 0) 0 0x7fff) 3 (-1)⟩

theorem crt_init_globals_three :
    ∃ m', crt_init_globals wide wideBuiltins everything everything 4 0x1000 (relocAddr 0x1000 3)
        threeRelocsMem = some m' ∧
      Initialised wide everything everything threeRelocsMem 0x1000 3 m' := by
  have hall : ∀ i : Fin 3, relocAt threeRelocsMem 0x1000 i = threeRelocs i := by decide +kernel
  have hentry (i : ℕ) (hi : i < 3) : relocAt threeRelocsMem 0x1000 i = threeRelocs ⟨i, hi⟩ :=
    hall ⟨i, hi⟩
  have htop : wide.top everything.data = 2 ^ 64 - 1 := by decide +kernel
  have hroots : Roots wide everything everything :=
    ⟨⟨rfl, by decide +kernel⟩, ⟨rfl, by decide +kernel⟩, by decide +kernel, by decide +kernel,
      by decide +kernel, by decide +kernel, by decide +kernel⟩
  refine crt_init_globals_initialises (by decide) wideBuiltins_documented hroots ?_ (by decide)
  refine ⟨by decide, fun i hi => ?_, fun i hi j hj hij a ha ha' => ?_, fun i hi a ha hin => ?_⟩
  · rw [hentry i hi]
    refine ⟨?_, ?_, trivial, trivial, fun _ => trivial, ?_, fun _ _ => trivial, fun _ _ => trivial⟩
    · revert i
      decide
    · rw [htop]
      revert i
      decide
    · rw [htop]
      revert i
      decide
  · rw [InSlot, hentry i hi] at ha
    rw [InSlot, hentry j hj] at ha'
    interval_cases i <;> interval_cases j <;> simp [threeRelocs] at ha ha' hij <;> omega
  · rw [InSlot, hentry i hi] at ha
    interval_cases i <;> simp [threeRelocs] at ha hin <;> omega

end CheriC

end Cheritest
