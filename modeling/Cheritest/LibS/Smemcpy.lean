/-
Cheritest/LibS/Smemcpy.lean

`smemcpy` of lib.s, the memcpy for addresses: it makes capabilities of the two
addresses and goes on as `memcpy_c`, which leaves the destination's address in
`$v0`.

The address is put together in two steps, base and offset, of which only the
first stands in the delay slot of the branch for length zero.  A copy of no
bytes therefore returns the base of the default data capability
(`smemcpy_zero`); on every other exit `$v0` is the address.
-/
import Cheritest.LibS.Memcpy
import Cheritest.Mips.Frame

namespace Cheritest

open Mips

/-! ### The routine -/

/-- Labels of `smemcpy` and of the code that follows it. -/
inductive SmemcpyLabel
  | memcpy
  | memcpy_c
  | inner (l : MemcpyLabel)
  deriving DecidableEq

/-- `smemcpy`, from its third instruction on, and what follows it in lib.s. -/
def smemcpy (CAP_SIZE : ℕ) (purecap : Bool) : List (Asm SmemcpyLabel) :=
  List.flatten [
    [ .b .memcpy_c,
      .daddi .a0 .a2 0 ],
    if purecap then
      [ .label .memcpy,
        .b .memcpy_c,
        .nop ]
    else [],
    [ .label .memcpy_c ],
    (memcpy_c CAP_SIZE purecap).map (Asm.relabel .inner) ]

/-- The routine, placed at an address. -/
def smemcpyText (base : BitVec 64) (CAP_SIZE : ℕ) (purecap : Bool) : Text SmemcpyLabel where
  base := base
  code := smemcpy CAP_SIZE purecap
  fits := by
    simp only [smemcpy, memcpy_c, chooseCode, copyBytes, alignedCode, copyCaps, remainderCode,
      returnCode]
    split_ifs <;> simp [assemble, Asm.relabel]

/-- The number of instructions before `memcpy_c`. -/
def memcpyIndex (purecap : Bool) : ℕ := if purecap then 4 else 2

/-! ### Addresses and capabilities -/

section pointers
variable {n : ℕ}

/-- What `cfromddc` makes of an address: a capability with the base of the
default data capability that points at the address relative to it, and the
null capability of zero. -/
structure FromDdc (F : CapFormat n) (cfromddc : CapVal n → BitVec 64 → CapVal n) : Prop where
  base : ∀ ddc a, a ≠ 0 → F.base (cfromddc ddc a).data = F.base ddc.data
  cursor : ∀ ddc a, a ≠ 0 → F.cursor (cfromddc ddc a) = F.base ddc.data + a
  null_base : ∀ ddc, F.base (cfromddc ddc 0).data = 0
  null_cursor : ∀ ddc, F.cursor (cfromddc ddc 0) = 0

/-- The linear address of a pointer relative to the default data capability;
that of the null pointer is zero. -/
def linearAddress (F : CapFormat n) (ddc : CapVal n) (a : BitVec 64) : BitVec 64 :=
  if a = 0 then 0 else F.base ddc.data + a

/-- The state after the first two instructions of `smemcpy`; capability
register 0 is the default data capability. -/
def smemcpyStart (cfromddc : CapVal n → BitVec 64 → CapVal n) (c : Core n) : Core n :=
  let c := c.setCap 3 (cfromddc (c.cap 0) (c.get .a0))
  c.setCap 4 (cfromddc (c.cap 0) (c.get .a1))

/-- Back at the caller of `smemcpy`. -/
def smemcpyReturned (F : CapFormat n) (purecap : Bool) (c₀ c : Core n) (m : Mem) : Hart n × Mem :=
  (⟨c, returnAddress F purecap c₀, returnAddress F purecap c₀ + 4⟩, m)

variable {F : CapFormat n} {cfromddc : CapVal n → BitVec 64 → CapVal n} {c : Core n}

/-- The destination capability points at the linear address. -/
theorem cursor_start (h : FromDdc F cfromddc) :
    F.cursor ((smemcpyStart cfromddc c).cap 3) = linearAddress F (c.cap 0) (c.get .a0) := by
  have hcap : (smemcpyStart cfromddc c).cap 3 = cfromddc (c.cap 0) (c.get .a0) := rfl
  rw [hcap]
  unfold linearAddress
  split_ifs with ha
  · rw [ha]
    exact h.null_cursor _
  · exact h.cursor _ _ ha

end pointers

/-! ### Control flow -/

section flow
variable {CAP_SIZE : ℕ} (hcs : CAP_SIZE = 128 ∨ CAP_SIZE = 256) (base : BitVec 64) (purecap : Bool)

/-- What `memcpy_c` keeps once `$v0` is set. -/
def returnLimits (purecap : Bool) : Limits where
  exits := [if purecap then .cap 17 else .reg .ra]
  keep := [.v0, .ra]
  keepCap := [17]

/-- The instructions of `memcpy_c` from the one that adds the offset on, but
for the delay slots of its returns. -/
def copyRegion (purecap : Bool) : List ℕ :=
  (List.range' 4 38 ++ List.range' 43 5).map (memcpyIndex purecap + ·)

include hcs in
theorem confined_smemcpy :
    (returnLimits purecap).Confined (smemcpyText base CAP_SIZE purecap).code (copyRegion purecap) =
      true := by
  rcases hcs with rfl | rfl <;> cases purecap <;> rfl

/-- The first four instructions of `memcpy_c`. -/
theorem hasAt_memcpy_c (hcs : CAP_SIZE = 128 ∨ CAP_SIZE = 256) :
    (smemcpyText base CAP_SIZE purecap).HasAt (memcpyIndex purecap)
      [ .beq .a0 .zero (.inner .memcpy_c_return),
        .cgetbase .v0 3,
        .cgetoffset .at_ 3,
        .dadd .v0 .v0 .at_ ] := by
  rcases hcs with rfl | rfl <;> cases purecap <;> exact .of_drop rfl

theorem hasAt_returnCode (hcs : CAP_SIZE = 128 ∨ CAP_SIZE = 256) :
    (smemcpyText base CAP_SIZE purecap).HasAt (memcpyIndex purecap + 41)
      [ if purecap then .cjr 17 else .jr .ra, .sync ] := by
  rcases hcs with rfl | rfl <;> cases purecap <;> exact .of_drop rfl

theorem labelIndex_smemcpy (hcs : CAP_SIZE = 128 ∨ CAP_SIZE = 256) :
    labelIndex .memcpy_c (smemcpyText base CAP_SIZE purecap).code = memcpyIndex purecap ∧
      labelIndex (.inner .memcpy_c_return) (smemcpyText base CAP_SIZE purecap).code =
        memcpyIndex purecap + 41 := by
  rcases hcs with rfl | rfl <;> cases purecap <;> exact ⟨rfl, rfl⟩

end flow

section run
variable {CAP_SIZE : ℕ} {base : BitVec 64} {purecap : Bool}
  {F : CapFormat (CAP_SIZE / 8)} {cfromddc : CapVal (CAP_SIZE / 8) → BitVec 64 → CapVal (CAP_SIZE / 8)}
  {c c₁ c' : Core (CAP_SIZE / 8)} {m m₁ m' : Mem} {k : ℕ} {s : Hart (CAP_SIZE / 8) × Mem}

/-- To the entry of `memcpy_c`, the length moved on. -/
theorem tail_call_run (base : BitVec 64) (purecap : Bool) (F : CapFormat (CAP_SIZE / 8))
    (hcs : CAP_SIZE = 128 ∨ CAP_SIZE = 256) (c : Core (CAP_SIZE / 8)) (m : Mem) :
    ∃ c₁, Steps (smemcpyText base CAP_SIZE purecap) F
        ((smemcpyText base CAP_SIZE purecap).at 0 c m)
        ((smemcpyText base CAP_SIZE purecap).at (memcpyIndex purecap) c₁ m) ∧
      c₁.get .a0 = c.get .a2 ∧ c₁.get .ra = c.get .ra ∧ c₁.cap = c.cap := by
  have hcode : (smemcpyText base CAP_SIZE purecap).HasAt 0
      [ .b .memcpy_c, .daddi .a0 .a2 0 ] := by
    rcases hcs with rfl | rfl <;> cases purecap <;> exact .of_drop rfl
  have hzero : (0 : BitVec 16).signExtend 64 = 0 := by decide
  have hov : (c.get .a2).saddOverflow 0 = false := by
    have hlt := (c.get .a2).toInt_lt
    have hle := (c.get .a2).le_toInt
    have hz : (0 : BitVec 64).toInt = 0 := rfl
    rw [saddOverflow_iff, hz]
    omega
  refine ⟨_, steps_taken (hcode 0 _ rfl) (hcode 1 _ rfl) (labelIndex_smemcpy base purecap hcs).1
    (by simp [Cond.holds]) (Op.exec_daddi (by rw [hzero]; exact hov)), ?_, ?_, rfl⟩
  · simp
  · simp

/-- From the entry of `memcpy_c` to its return, for length zero. -/
theorem zero_run (base : BitVec 64) (purecap : Bool) (F : CapFormat (CAP_SIZE / 8)) (m : Mem)
    (hcs : CAP_SIZE = 128 ∨ CAP_SIZE = 256) (h0 : c.get .a0 = 0) :
    Steps (smemcpyText base CAP_SIZE purecap) F
      ((smemcpyText base CAP_SIZE purecap).at (memcpyIndex purecap) c m)
      ((smemcpyText base CAP_SIZE purecap).at (memcpyIndex purecap + 41)
        (c.set .v0 (F.base (c.cap 3).data)) m) := by
  have hcode := hasAt_memcpy_c base purecap hcs
  exact steps_taken (hcode 0 _ rfl) (hcode 1 _ rfl) (labelIndex_smemcpy base purecap hcs).2
    (by simp [Cond.holds, h0]) rfl

/-- Past the addition of the offset, for any other length, unless it traps. -/
theorem nonzero_run (base : BitVec 64) (purecap : Bool) (F : CapFormat (CAP_SIZE / 8)) (m : Mem)
    (hcs : CAP_SIZE = 128 ∨ CAP_SIZE = 256) (h0 : c.get .a0 ≠ 0) :
    (∃ c₁, Steps (smemcpyText base CAP_SIZE purecap) F
        ((smemcpyText base CAP_SIZE purecap).at (memcpyIndex purecap) c m)
        ((smemcpyText base CAP_SIZE purecap).at (memcpyIndex purecap + 4) c₁ m) ∧
      c₁.get .v0 = F.cursor (c.cap 3) ∧ c₁.get .ra = c.get .ra ∧ c₁.cap = c.cap) ∨
    Traps (smemcpyText base CAP_SIZE purecap) F
      ((smemcpyText base CAP_SIZE purecap).at (memcpyIndex purecap) c m) .overflow := by
  have hcode := hasAt_memcpy_c base purecap hcs
  have hbase : Steps (smemcpyText base CAP_SIZE purecap) F
      ((smemcpyText base CAP_SIZE purecap).at (memcpyIndex purecap) c m)
      ((smemcpyText base CAP_SIZE purecap).at (memcpyIndex purecap + 3)
        ((c.set .v0 (F.base (c.cap 3).data)).set .at_ (F.offset (c.cap 3).data)) m) :=
    .trans (steps_not_taken (hcode 0 _ rfl) (hcode 1 _ rfl) (by simpa [Cond.holds] using h0) rfl)
      (steps_op (hcode 2 _ rfl) rfl)
  by_cases hov : (F.base (c.cap 3).data).saddOverflow (F.offset (c.cap 3).data) = true
  · refine .inr (.of_steps hbase (traps_op (hcode 3 _ rfl) (Op.exec_dadd_overflow ?_)))
    simpa using hov
  · refine .inl ⟨_, hbase.trans (steps_op (hcode 3 _ rfl) (Op.exec_dadd ?_)), ?_, ?_, rfl⟩
    · simpa using hov
    · simp [CapFormat.cursor]
    · simp

/-- Where the caller goes on there is nothing of the routine. -/
theorem returned_stuck (hout : (smemcpyText base CAP_SIZE purecap).fetch
    (returnAddress F purecap c) = none) (t : Hart (CAP_SIZE / 8) × Mem) :
    ¬Step (smemcpyText base CAP_SIZE purecap) F (smemcpyReturned F purecap c c' m') t := by
  rintro ⟨-, ht⟩
  simp only [smemcpyReturned, Hart.step, hout] at ht
  cases ht

/-- Once `$v0` is set it is what the caller gets. -/
theorem returned_v0 (hcs : CAP_SIZE = 128 ∨ CAP_SIZE = 256)
    (hs : Steps (smemcpyText base CAP_SIZE purecap) F s
      ((smemcpyText base CAP_SIZE purecap).at k c₁ m₁))
    (hk : k ∈ copyRegion purecap) (hra : c₁.get .ra = c.get .ra) (hcap : c₁.cap 17 = c.cap 17)
    (hout : (smemcpyText base CAP_SIZE purecap).fetch (returnAddress F purecap c) = none)
    (hret : Steps (smemcpyText base CAP_SIZE purecap) F s (smemcpyReturned F purecap c c' m')) :
    c'.get .v0 = c₁.get .v0 := by
  have hexit : ∀ e ∈ (returnLimits purecap).exits, e.addr F c₁ = returnAddress F purecap c := by
    intro e he
    rw [List.mem_singleton.mp he]
    cases purecap
    · exact hra
    · exact congrArg F.cursor hcap
  have hkept := Limits.Confined.kept (confined_smemcpy hcs base purecap) hk
    (fun e he => (congrArg _ (hexit e he)).trans hout) hs hret (returned_stuck hout)
  exact hkept.get .v0 (by simp [returnLimits])

/-- A run that traps does not return. -/
theorem Traps.not_smemcpyReturned (h : Traps (smemcpyText base CAP_SIZE purecap) F s .overflow)
    (hout : (smemcpyText base CAP_SIZE purecap).fetch (returnAddress F purecap c) = none) :
    ¬Steps (smemcpyText base CAP_SIZE purecap) F s (smemcpyReturned F purecap c c' m') := by
  intro hret
  obtain ⟨s₁, h₁, he⟩ := h
  rcases (steps_to_last hret (returned_stuck hout) h₁).cases_head with rfl | ⟨t, ht, -⟩
  · simp only [smemcpyReturned, Hart.step, hout] at he
    cases he
  · rw [ht.2] at he
    cases he

/-- **A copy of no bytes** returns the base of the destination capability. -/
theorem smemcpy_zero (base : BitVec 64)
    (cfromddc : CapVal (CAP_SIZE / 8) → BitVec 64 → CapVal (CAP_SIZE / 8))
    (hcs : CAP_SIZE = 128 ∨ CAP_SIZE = 256) (h0 : c.get .a2 = 0)
    (hlink : purecap = true → (c.cap 17).tag = true ∧ F.isSealed (c.cap 17).data = false ∧
      F.perm (c.cap 17).data .execute = true) (m : Mem) :
    ∃ c', Steps (smemcpyText base CAP_SIZE purecap) F
        ((smemcpyText base CAP_SIZE purecap).at 0 (smemcpyStart cfromddc c) m)
        (smemcpyReturned F purecap c c' m) ∧
      c'.get .v0 = F.base (cfromddc (c.cap 0) (c.get .a0)).data := by
  obtain ⟨c₁, h₁, ha0, hra, hcap⟩ :=
    tail_call_run base purecap F hcs (smemcpyStart cfromddc c) m
  have h₂ := zero_run base purecap F m hcs (ha0.trans h0)
  have hcode := hasAt_returnCode base purecap hcs
  refine ⟨c₁.set .v0 (F.base (c₁.cap 3).data), h₁.trans (h₂.trans ?_), ?_⟩
  · cases purecap with
    | false =>
      have h := steps_jr (F := F) (c := c₁.set .v0 (F.base (c₁.cap 3).data)) (m := m)
        (hcode 0 _ rfl) (hcode 1 _ rfl) rfl
      have hret : (c₁.set .v0 (F.base (c₁.cap 3).data)).get .ra = returnAddress F false c := by
        simpa [returnAddress, smemcpyStart] using hra
      rw [hret] at h
      exact h
    | true =>
      obtain ⟨ht, hs, hx⟩ := hlink rfl
      have h17 : (c₁.set .v0 (F.base (c₁.cap 3).data)).cap 17 = c.cap 17 := congrFun hcap 17
      have h := steps_cjr (F := F) (c := c₁.set .v0 (F.base (c₁.cap 3).data)) (m := m)
        (hcode 0 _ rfl) (hcode 1 _ rfl) (by rw [h17, ht, hs, hx]; rfl) rfl
      rw [h17] at h
      exact h
  · rw [hcap]
    simp [smemcpyStart]

end run

/-- **When `smemcpy` returns its destination**: for every length but zero, and
for the null pointer. -/
theorem smemcpy_returns_dst_iff {CAP_SIZE : ℕ} (hcs : CAP_SIZE = 128 ∨ CAP_SIZE = 256)
    (base : BitVec 64) (purecap : Bool) {F : CapFormat (CAP_SIZE / 8)}
    {cfromddc : CapVal (CAP_SIZE / 8) → BitVec 64 → CapVal (CAP_SIZE / 8)}
    (hddc : FromDdc F cfromddc) (c : Core (CAP_SIZE / 8)) (m : Mem)
    (hlink : purecap = true → (c.cap 17).tag = true ∧ F.isSealed (c.cap 17).data = false ∧
      F.perm (c.cap 17).data .execute = true)
    (hout : (smemcpyText base CAP_SIZE purecap).fetch (returnAddress F purecap c) = none) :
    (∀ c' m', Steps (smemcpyText base CAP_SIZE purecap) F
        ((smemcpyText base CAP_SIZE purecap).at 0 (smemcpyStart cfromddc c) m)
        (smemcpyReturned F purecap c c' m') →
      c'.get .v0 = linearAddress F (c.cap 0) (c.get .a0)) ↔
      c.get .a2 ≠ 0 ∨ c.get .a0 = 0 := by
  constructor
  · intro h
    by_contra hnot
    rw [not_or, not_not] at hnot
    obtain ⟨hlen, ha0⟩ := hnot
    obtain ⟨c', hs, hv0⟩ := smemcpy_zero base cfromddc hcs hlen hlink m
    have hdst := h c' m hs
    rw [hv0, hddc.base _ _ ha0, linearAddress, if_neg ha0] at hdst
    exact ha0 (left_eq_add.mp hdst)
  · rintro hcond c' m' hret
    by_cases hlen : c.get .a2 = 0
    · -- the null pointer, whose capability has base zero
      have ha0 := hcond.resolve_left (not_not.mpr hlen)
      obtain ⟨c₁, hs, hv0⟩ := smemcpy_zero base cfromddc hcs hlen hlink m
      have hsame := steps_to_last hret (returned_stuck hout) hs
      rcases hsame.cases_head with heq | ⟨t, ht, -⟩
      · have hcore : c₁ = c' := congrArg (fun s => s.1.core) heq
        rw [← hcore, hv0, ha0, hddc.null_base, linearAddress, if_pos rfl]
      · exact absurd ht (returned_stuck hout t)
    · obtain ⟨c₁, h₁, ha0, hra, hcap⟩ :=
        tail_call_run base purecap F hcs (smemcpyStart cfromddc c) m
      rcases nonzero_run base purecap F m hcs
        (c := c₁) (by rw [ha0]; exact hlen) with ⟨c₂, h₂, hv0, hra₂, hcap₂⟩ | htrap
      · have h17 : c₂.cap 17 = c.cap 17 := by
          rw [hcap₂, hcap]
          rfl
        rw [returned_v0 hcs (h₁.trans h₂) (by cases purecap <;> decide) (hra₂.trans hra) h17 hout
          hret, hv0, hcap]
        exact cursor_start hddc
      · exact absurd hret (Traps.not_smemcpyReturned (.of_steps h₁ htrap) hout)

/-! ### A format with addresses -/

/-- The bytes of a capability as memory at address 0. -/
def imageMem (d : Fin (128 / 8) → BitVec 8) : Mem :=
  ⟨fun a => if h : a.toNat < 128 / 8 then d ⟨a.toNat, h⟩ else 0, fun _ => false⟩

theorem addressFormat_top_le (_ : Fin (128 / 8) → BitVec 8) : 2 ^ 64 ≤ 2 ^ 64 := le_refl _

/-- A 128-bit format in which every capability covers all of memory and its
first eight bytes are the address. -/
def addressFormat : CapFormat (128 / 8) where
  base _ := 0
  top _ := 2 ^ 64
  top_le := addressFormat_top_le
  offset d := (imageMem d).loadDouble 0
  isSealed _ := false
  perm _ _ := true

/-- The capability for an address in this format. -/
def addressCap (ddc : CapVal (128 / 8)) (a : BitVec 64) : CapVal (128 / 8) where
  tag := ddc.tag && a != 0
  data j := (Mem.storeDouble 16 ⟨fun _ => 0, fun _ => false⟩ 0 a).byte (BitVec.ofNat 64 j)

theorem fromDdc_addressCap : FromDdc addressFormat addressCap := by
  have hoffset : ∀ ddc a, addressFormat.offset (addressCap ddc a).data = a := by
    intro ddc a
    have hload : (imageMem (addressCap ddc a).data).loadDouble 0 =
        (Mem.storeDouble 16 ⟨fun _ => 0, fun _ => false⟩ 0 a).loadDouble 0 := rfl
    exact hload.trans (Mem.loadDouble_storeDouble ..)
  have hcursor : ∀ ddc a, addressFormat.cursor (addressCap ddc a) = a := fun ddc a =>
    (zero_add _).trans (hoffset ddc a)
  constructor
  · exact fun _ _ _ => rfl
  · exact fun ddc a _ => (hcursor ddc a).trans (zero_add a).symm
  · exact fun _ => rfl
  · exact fun ddc => hcursor ddc 0

/-- A call that copies `len` bytes from 0x2000 to 0x1000. -/
def smemcpyCall (len : BitVec 64) : Core (128 / 8) where
  gpr r := if r = .a0 then 0x1000 else if r = .a1 then 0x2000 else if r = .a2 then len
    else if r = .ra then 0x9000 else 0
  cap _ := ⟨true, fun _ => 0⟩
  cp0 _ _ := 0
  capCause := 0
  log := []

/-- Forty bytes. -/
theorem smemcpy_returns_dst_iff_forty :
    (∀ c' m', Steps (smemcpyText 0x8000 128 false) addressFormat
        ((smemcpyText 0x8000 128 false).at 0 (smemcpyStart addressCap (smemcpyCall 40))
          ⟨fun _ => 7, fun _ => false⟩)
        (smemcpyReturned addressFormat false (smemcpyCall 40) c' m') →
      c'.get .v0 = linearAddress addressFormat ((smemcpyCall 40).cap 0) 0x1000) ↔
      (40 : BitVec 64) ≠ 0 ∨ (0x1000 : BitVec 64) = 0 :=
  smemcpy_returns_dst_iff (.inl rfl) 0x8000 false fromDdc_addressCap (smemcpyCall 40)
    ⟨fun _ => 7, fun _ => false⟩ (by decide) rfl

/-- No bytes: `$v0` is 0. -/
theorem smemcpy_zero_returns_base :
    ¬∀ c' m', Steps (smemcpyText 0x8000 128 false) addressFormat
        ((smemcpyText 0x8000 128 false).at 0 (smemcpyStart addressCap (smemcpyCall 0))
          ⟨fun _ => 7, fun _ => false⟩)
        (smemcpyReturned addressFormat false (smemcpyCall 0) c' m') →
      c'.get .v0 = linearAddress addressFormat ((smemcpyCall 0).cap 0) 0x1000 := by
  intro h
  have hlink : false = true → ((smemcpyCall 0).cap 17).tag = true ∧
      addressFormat.isSealed ((smemcpyCall 0).cap 17).data = false ∧
      addressFormat.perm ((smemcpyCall 0).cap 17).data .execute = true := by decide
  obtain ⟨c', hs, hv0⟩ := smemcpy_zero 0x8000 addressCap (.inl rfl)
    (show (smemcpyCall 0).get .a2 = 0 from rfl) hlink ⟨fun _ => 7, fun _ => false⟩
  have hdst := h c' _ hs
  rw [hv0] at hdst
  exact absurd hdst (by decide)

end Cheritest
