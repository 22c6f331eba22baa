/-
Cheritest/CheriC/Builtins.lean

The operations on capabilities that C code calls, `__builtin_cheri_*`, and
stores through a capability.

The operations are a parameter (`Builtins`), since they belong to the compiler
and the instruction set; `Builtins.Documented` states what their documentation
says of them.  Capabilities may be compressed, so that not all bounds fit all
addresses: `fits` says which do.

`wide` is a format of 256 bits without compression, with the operations on it.
-/
import Cheritest.Mips.Machine

open Mips

namespace Cheritest

namespace CheriC

variable {n : ℕ}

/-! ### Permissions -/

/-- The bit of a permission in a mask. -/
def permBit : Perm → ℕ
  | .global => 0
  | .execute => 1
  | .load => 2
  | .store => 3
  | .loadCap => 4
  | .storeCap => 5
  | .storeLocalCap => 6

/-- `__CHERI_CAP_PERMISSION_PERMIT_EXECUTE__`. -/
def PERMIT_EXECUTE : BitVec 32 := 2

/-- `__CHERI_CAP_PERMISSION_PERMIT_STORE__`. -/
def PERMIT_STORE : BitVec 32 := 8

/-- `__CHERI_CAP_PERMISSION_PERMIT_STORE_CAPABILITY__`. -/
def PERMIT_STORE_CAPABILITY : BitVec 32 := 32

/-! ### Operations -/

/-- The operations on capabilities of `n` bytes; `none` is an exception. -/
structure Builtins (n : ℕ) where
  offset_set : CapVal n → BitVec 64 → Option (CapVal n)
  offset_increment : CapVal n → BitVec 64 → Option (CapVal n)
  bounds_set : CapVal n → BitVec 64 → Option (CapVal n)
  perms_and : CapVal n → BitVec 64 → Option (CapVal n)
  /-- An address that bounds can be represented with. -/
  fits : (base : BitVec 64) → (top : ℕ) → (cursor : BitVec 64) → Prop

section
variable (F : CapFormat n)

/-- A capability that can be used: tagged and not sealed. -/
structure Usable (v : CapVal n) : Prop where
  tag : v.tag = true
  unsealed : F.isSealed v.data = false

/-- `w` has bounds, permissions and address as given. -/
structure IsCap (w : CapVal n) (base : BitVec 64) (top : ℕ) (perm : Perm → Bool)
    (cursor : BitVec 64) : Prop extends Usable F w where
  base : F.base w.data = base
  top : F.top w.data = top
  perm : F.perm w.data = perm
  cursor : F.cursor w = cursor

/-- What the documentation says of the operations on usable capabilities. -/
structure Builtins.Documented (B : Builtins n) : Prop where
  offset_set : ∀ {v x}, Usable F v → B.fits (F.base v.data) (F.top v.data) (F.base v.data + x) →
    ∃ w, B.offset_set v x = some w ∧
      IsCap F w (F.base v.data) (F.top v.data) (F.perm v.data) (F.base v.data + x)
  offset_increment : ∀ {v x}, Usable F v → B.fits (F.base v.data) (F.top v.data) (F.cursor v + x) →
    ∃ w, B.offset_increment v x = some w ∧
      IsCap F w (F.base v.data) (F.top v.data) (F.perm v.data) (F.cursor v + x)
  bounds_set : ∀ {v x}, Usable F v → (F.base v.data).toNat ≤ (F.cursor v).toNat →
    (F.cursor v).toNat + x.toNat ≤ F.top v.data →
    B.fits (F.cursor v) ((F.cursor v).toNat + x.toNat) (F.cursor v) →
    ∃ w, B.bounds_set v x = some w ∧
      IsCap F w (F.cursor v) ((F.cursor v).toNat + x.toNat) (F.perm v.data) (F.cursor v)
  perms_and : ∀ {v mask}, Usable F v → ∃ w, B.perms_and v mask = some w ∧
    IsCap F w (F.base v.data) (F.top v.data)
      (fun p => F.perm v.data p && mask.getLsbD (permBit p)) (F.cursor v)

/-- Store a capability through another one: `*dest = src`. -/
def storeThrough (m : Mem) (dest src : CapVal n) : Option Mem :=
  let a := F.cursor dest
  if F.allows dest .store a n && F.perm dest.data .storeCap &&
      (!src.tag || F.perm src.data .global || F.perm dest.data .storeLocalCap) then
    if a.toNat % n = 0 then some (m.storeCap a src) else none
  else none

end

/-! ### Capabilities in memory -/

section memory
variable {m : Mem} {a b : BitVec 64} {v : CapVal n}

/-- Addresses in the `n` bytes from `a`, where these do not wrap around. -/
theorem sub_toNat_lt_iff (h : a.toNat + n ≤ 2 ^ 64) :
    (b - a).toNat < n ↔ a.toNat ≤ b.toNat ∧ b.toNat < a.toNat + n := by
  have ha := a.isLt
  have hb := b.isLt
  rw [BitVec.toNat_sub]
  omega

theorem byte_storeCap_of_not (h : a.toNat + n ≤ 2 ^ 64)
    (hb : ¬(a.toNat ≤ b.toNat ∧ b.toNat < a.toNat + n)) : (m.storeCap a v).byte b = m.byte b :=
  dif_neg fun hlt => hb ((sub_toNat_lt_iff h).mp hlt)

theorem tag_storeCap_of_ne {g : ℕ} (hg : g ≠ a.toNat / n) : (m.storeCap a v).tag g = m.tag g :=
  Function.update_of_ne hg ..

/-- A stored capability reads back. -/
theorem loadCap_storeCap (h : a.toNat + n ≤ 2 ^ 64) : (m.storeCap a v).loadCap n a = v := by
  have hdata (j : Fin n) : (m.storeCap a v).byte (a + BitVec.ofNat 64 j) = v.data j := by
    have hj := j.isLt
    have ha := a.isLt
    have hoff : (a + BitVec.ofNat 64 j - a).toNat = j := by
      rw [BitVec.add_comm, BitVec.add_sub_cancel, BitVec.toNat_ofNat]
      omega
    have hlt : (a + BitVec.ofNat 64 j - a).toNat < n := by
      rw [hoff]
      exact hj
    exact (dif_pos hlt).trans (congrArg v.data (Fin.ext hoff))
  exact congrArg₂ CapVal.mk (Function.update_self ..) (funext hdata)

/-- Storing one slot leaves the other slots alone. -/
theorem loadCap_storeCap_of_disjoint (hn : 0 < n) (ha : a.toNat % n = 0) (hb : b.toNat % n = 0)
    (hfa : a.toNat + n ≤ 2 ^ 64) (hfb : b.toNat + n ≤ 2 ^ 64)
    (hdis : a.toNat + n ≤ b.toNat ∨ b.toNat + n ≤ a.toNat) :
    (m.storeCap a v).loadCap n b = m.loadCap n b := by
  have hdata (j : Fin n) :
      (m.storeCap a v).byte (b + BitVec.ofNat 64 j) = m.byte (b + BitVec.ofNat 64 j) := by
    have hj := j.isLt
    refine byte_storeCap_of_not hfa ?_
    rw [BitVec.toNat_add, BitVec.toNat_ofNat]
    omega
  have hgranule : b.toNat / n ≠ a.toNat / n := by
    intro he
    have hae := Nat.div_add_mod a.toNat n
    have hbe := Nat.div_add_mod b.toNat n
    rw [ha] at hae
    rw [hb, he] at hbe
    omega
  exact congrArg₂ CapVal.mk (tag_storeCap_of_ne hgranule) (funext hdata)

end memory

/-! ### Capabilities of 256 bits -/

/-- The 32 bytes of a capability as a memory of their own. -/
def asMem (data : Fin 32 → BitVec 8) : Mem where
  byte a := if h : a.toNat < 32 then data ⟨a.toNat, h⟩ else 0
  tag _ := false

/-- One of the four doublewords of a capability. -/
def field (data : Fin 32 → BitVec 8) (k : Fin 4) : BitVec 64 :=
  (asMem data).loadDouble (BitVec.ofNat 64 (8 * k))

def setField (data : Fin 32 → BitVec 8) (k : Fin 4) (x : BitVec 64) : Fin 32 → BitVec 8 :=
  fun i => ((asMem data).storeDouble 32 (BitVec.ofNat 64 (8 * k)) x).byte (BitVec.ofNat 64 i)

theorem field_setField (data : Fin 32 → BitVec 8) (k l : Fin 4) (x : BitVec 64) :
    field (setField data k x) l = if l = k then x else field data l := by
  have hword (l : Fin 4) : (BitVec.ofNat 64 (8 * l)).toNat = 8 * l := by
    have := l.isLt
    rw [BitVec.toNat_ofNat]
    omega
  -- the stored field, read back byte by byte
  have hbyte : ∀ b : BitVec 64, (b - BitVec.ofNat 64 (8 * l)).toNat < 8 →
      (asMem (setField data k x)).byte b
        = ((asMem data).storeDouble 32 (BitVec.ofNat 64 (8 * k)) x).byte b := by
    intro b hb
    have hl := l.isLt
    have hlw := hword l
    have hbl := b.isLt
    have h32 : b.toNat < 32 := by
      rw [BitVec.toNat_sub, hlw] at hb
      omega
    refine (dif_pos h32).trans ?_
    show ((asMem data).storeDouble 32 _ x).byte (BitVec.ofNat 64 b.toNat) = _
    rw [BitVec.ofNat_toNat, BitVec.setWidth_eq]
  rw [field, Mem.loadDouble_congr hbyte]
  split_ifs with hlk
  · rw [hlk, Mem.loadDouble_storeDouble]
  · refine Mem.loadDouble_congr fun b hb => Mem.storeDouble_byte _ _ _ _ ?_
    have hne : l.val ≠ k.val := fun h => hlk (Fin.ext h)
    have hl := l.isLt
    have hk := k.isLt
    have hlw := hword l
    have hkw := hword k
    have hbl := b.isLt
    rw [BitVec.toNat_sub, hlw] at hb
    rw [BitVec.toNat_sub, hkw]
    omega

/-- Permissions with the seal in the top bit, cursor, base and length. -/
def wide : CapFormat 32 where
  base data := field data 2
  top data := min (2 ^ 64) ((field data 2).toNat + (field data 3).toNat)
  top_le _ := min_le_left ..
  offset data := field data 1 - field data 2
  isSealed data := (field data 0).msb
  perm data p := (field data 0).getLsbD (permBit p)

theorem wide_cursor (v : CapVal 32) : wide.cursor v = field v.data 1 := by
  show field v.data 2 + (field v.data 1 - field v.data 2) = field v.data 1
  rw [BitVec.add_comm, BitVec.sub_add_cancel]

/-- Change a field of a capability that is not sealed. -/
def modify (v : CapVal 32) (data : Fin 32 → BitVec 8) : Option (CapVal 32) :=
  if v.tag && (field v.data 0).msb then none else some ⟨v.tag, data⟩

/-- The operations on capabilities of 256 bits. -/
def wideBuiltins : Builtins 32 where
  offset_set v x := modify v (setField v.data 1 (field v.data 2 + x))
  offset_increment v x := modify v (setField v.data 1 (field v.data 1 + x))
  bounds_set v x :=
    let cursor := field v.data 1
    if v.tag && decide ((field v.data 2).toNat ≤ cursor.toNat) &&
        decide (cursor.toNat + x.toNat ≤ wide.top v.data) then
      modify v (setField (setField v.data 2 cursor) 3 x)
    else none
  perms_and v mask :=
    modify v (setField v.data 0 (field v.data 0 &&& (mask ||| BitVec.intMin 64)))
  fits _ _ _ := True

theorem modify_usable {v : CapVal 32} (h : Usable wide v) (data : Fin 32 → BitVec 8) :
    modify v data = some ⟨true, data⟩ := by
  have hseal : (field v.data 0).msb = false := h.unsealed
  rw [modify, hseal, h.tag]
  rfl

theorem wideBuiltins_documented : wideBuiltins.Documented wide := by
  have hcursor {v : CapVal 32} (h : Usable wide v) (x : BitVec 64) :
      IsCap wide ⟨true, setField v.data 1 x⟩ (wide.base v.data) (wide.top v.data)
        (wide.perm v.data) x := by
    refine ⟨⟨rfl, ?_⟩, ?_, ?_, ?_, ?_⟩
    · show (field _ 0).msb = false
      rw [field_setField, if_neg (by decide)]
      exact h.unsealed
    · exact (field_setField _ _ _ _).trans (if_neg (by decide))
    · show min _ ((field _ 2).toNat + (field _ 3).toNat) = _
      rw [field_setField, field_setField, if_neg (by decide), if_neg (by decide)]
      rfl
    · funext p
      show (field _ 0).getLsbD _ = _
      rw [field_setField, if_neg (by decide)]
      rfl
    · rw [wide_cursor]
      exact (field_setField _ _ _ _).trans (if_pos rfl)
  refine ⟨fun {v x} h _ => ⟨_, modify_usable h _, hcursor h _⟩, fun {v x} h _ => ?_,
    fun {v x} h hbase htop _ => ?_, fun {v mask} h => ?_⟩
  · rw [wide_cursor]
    exact ⟨_, modify_usable h _, hcursor h _⟩
  · rw [wide_cursor] at hbase htop ⊢
    have hset : wideBuiltins.bounds_set v x
        = modify v (setField (setField v.data 2 (field v.data 1)) 3 x) :=
      if_pos (by simpa [h.tag] using ⟨hbase, htop⟩)
    refine ⟨_, hset.trans (modify_usable h _), ⟨rfl, ?_⟩, ?_, ?_, ?_, ?_⟩
    · show (field _ 0).msb = false
      rw [field_setField, if_neg (by decide), field_setField, if_neg (by decide)]
      exact h.unsealed
    · show field _ 2 = _
      rw [field_setField, if_neg (by decide), field_setField, if_pos rfl]
    · show min _ ((field _ 2).toNat + (field _ 3).toNat) = _
      rw [field_setField, if_neg (by decide), field_setField, if_pos rfl, field_setField,
        if_pos rfl]
      exact min_eq_right (htop.trans (wide.top_le _))
    · funext p
      show (field _ 0).getLsbD _ = _
      rw [field_setField, if_neg (by decide), field_setField, if_neg (by decide)]
      rfl
    · rw [wide_cursor, field_setField, if_neg (by decide), field_setField, if_neg (by decide)]
  · have hseal : (field v.data 0).msb = false := h.unsealed
    refine ⟨_, modify_usable h _, ⟨rfl, ?_⟩, ?_, ?_, ?_, ?_⟩
    · show (field _ 0).msb = false
      rw [field_setField, if_pos rfl, BitVec.msb_and, hseal]
      rfl
    · exact (field_setField _ _ _ _).trans (if_neg (by decide))
    · show min _ ((field _ 2).toNat + (field _ 3).toNat) = _
      rw [field_setField, field_setField, if_neg (by decide), if_neg (by decide)]
      rfl
    · funext p
      show (field _ 0).getLsbD _ = ((field v.data 0).getLsbD _ && _)
      have hseal : (BitVec.intMin 64).getLsbD (permBit p) = false := by
        cases p <;> decide
      rw [field_setField, if_pos rfl, BitVec.getLsbD_and, BitVec.getLsbD_or, hseal, Bool.or_false]
    · rw [wide_cursor, wide_cursor]
      exact (field_setField _ _ _ _).trans (if_neg (by decide))

end CheriC

end Cheritest
