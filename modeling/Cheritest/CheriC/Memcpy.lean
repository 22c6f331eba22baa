/-
Cheritest/CheriC/Memcpy.lean

The block copy of memcpy.c, which is compiled as `memmove`, `bcopy` and
`memcpy`.

The copy goes by bytes up to a word boundary, by words up to a pointer
boundary, by pointers, and by bytes again, upwards or downwards.  Pointers are
kept as addresses.  An assignment is carried out only if it is aligned and
within the two objects, which have their bounds set in the CHERI build.
-/
import Cheritest.Mips.Machine

open Mips

namespace Cheritest

namespace CheriC

/-! ### Assignments -/

/-- The types that the copy goes by. -/
inductive CType
  | char
  | word
  | ptr
  deriving DecidableEq

def wsize : ℕ := 8
def wmask : BitVec 64 := BitVec.ofNat 64 (wsize - 1)
def pmask (psize : ℕ) : BitVec 64 := BitVec.ofNat 64 (psize - 1)

def CType.size (psize : ℕ) : CType → ℕ
  | char => 1
  | word => wsize
  | ptr => psize

/-- Bytes copied at once, from `src` to `dst`.  A whole capability is copied
with its tag; otherwise the granules that are written to lose theirs. -/
def copyBytes (n size : ℕ) (isCap : Bool) (dst src : BitVec 64) (m : Mem) : Mem where
  byte a := if (a - dst).toNat < size then m.byte (src + (a - dst)) else m.byte a
  tag g :=
    if isCap then if g = dst.toNat / n then m.tag (src.toNat / n) else m.tag g
    else if ∃ j < size, (dst.toNat + j) / n = g then false else m.tag g

/-- The arguments of a call. -/
structure CopyCall where
  dst0 : BitVec 64
  src0 : BitVec 64
  length : BitVec 64

/-- The `size` bytes from `a` are in the object at `base`. -/
def within (base length a : BitVec 64) (size : ℕ) : Bool :=
  decide ((a - base).toNat + size ≤ length.toNat)

section code
variable (n psize : ℕ) (C : CopyCall)

/-- `*(T *)dst = *(const T *)src`, with granules of `n` bytes. -/
def assign (T : CType) (dst src : BitVec 64) (m : Mem) : Option Mem :=
  let size := T.size psize
  if dst.toNat % size = 0 ∧ src.toNat % size = 0 ∧ within C.dst0 C.length dst size ∧
      within C.src0 C.length src size then
    some (copyBytes n size (T = .ptr && psize = n) dst src m)
  else none

/-- The body of `MIPSLOOP`, entered with the index before its increment;
`none` also when the fuel runs out. -/
def mipsLoop (last increment : BitVec 64) (statements : BitVec 64 → Mem → Option Mem) :
    ℕ → BitVec 64 → Mem → Option Mem
  | 0, _, _ => none
  | fuel + 1, index, m =>
    let index := index + increment
    (statements index m).bind fun m =>
      if index ≠ last then mipsLoop last increment statements fuel index m else some m

def MIPSLOOP (fuel : ℕ) (index last : BitVec 64) (statements : BitVec 64 → Mem → Option Mem)
    (increment : BitVec 64) (m : Mem) : Option Mem :=
  mipsLoop last increment statements fuel (index - increment) m

/-- The variables of the function. -/
structure Locals where
  dst : BitVec 64
  src : BitVec 64
  length : BitVec 64
  mem : Mem

variable (fuel : ℕ)

/-! ### Forward -/

/-- Bytes, up to a word boundary or to the end. -/
def alignToWord (s : Locals) : Option Locals :=
  let t := s.src
  if (t ||| s.dst) &&& wmask ≠ 0 then
    let t :=
      if (t ^^^ s.dst) &&& wmask ≠ 0 ∨ s.length < BitVec.ofNat 64 wsize then s.length
      else BitVec.ofNat 64 wsize - (t &&& wmask)
    let dst := s.dst + t
    let src := s.src + t
    (MIPSLOOP fuel (-t) (-1) (fun t => assign n psize C .char (dst + t) (src + t)) 1 s.mem).map
      fun m => ⟨dst, src, s.length - t, m⟩
  else some s

/-- Words, up to a pointer boundary or as far as there are any. -/
def alignToPtr (s : Locals) : Option Locals :=
  if psize > wsize then
    let t := s.src
    if (t ||| s.dst) &&& pmask psize ≠ 0 then
      let t :=
        if (t ^^^ s.dst) &&& pmask psize ≠ 0 ∨ s.length < BitVec.ofNat 64 psize then
          s.length / BitVec.ofNat 64 wsize
        else (BitVec.ofNat 64 psize - (t &&& pmask psize)) / BitVec.ofNat 64 wsize
      if t ≠ 0 then
        let t := t * BitVec.ofNat 64 wsize
        let dst := s.dst + t
        let src := s.src + t
        (MIPSLOOP fuel (-t) (-8) (fun t => assign n psize C .word (dst + t) (src + t)) 8 s.mem).map
          fun m => ⟨dst, src, s.length - t, m⟩
      else some s
    else some s
  else some s

/-- Pointers. -/
def copyPtrs (s : Locals) : Option Locals :=
  let t := s.length / BitVec.ofNat 64 psize
  if t ≠ 0 then
    let t := t * BitVec.ofNat 64 psize
    let src := s.src + t
    let dst := s.dst + t
    (MIPSLOOP fuel (-t) (-BitVec.ofNat 64 psize)
      (fun t => assign n psize C .ptr (dst + t) (src + t)) (BitVec.ofNat 64 psize) s.mem).map
      fun m => ⟨dst, src, s.length, m⟩
  else some s

/-- Trailing bytes. -/
def copyRest (s : Locals) : Option Mem :=
  let t := s.length &&& pmask psize
  if t ≠ 0 then
    let src := s.src + t
    let dst := s.dst + t
    MIPSLOOP fuel (-t) (-1) (fun t => assign n psize C .char (dst + t) (src + t)) 1 s.mem
  else some s.mem

/-! ### Backwards -/

def alignToWordDown (s : Locals) : Option Locals :=
  let t := s.src
  if (t ||| s.dst) &&& wmask ≠ 0 then
    let t :=
      if (t ^^^ s.dst) &&& wmask ≠ 0 ∨ s.length ≤ BitVec.ofNat 64 wsize then s.length
      else t &&& wmask
    let dst := s.dst - t
    let src := s.src - t
    (MIPSLOOP fuel (t - 1) 0 (fun t => assign n psize C .char (dst + t) (src + t)) (-1) s.mem).map
      fun m => ⟨dst, src, s.length - t, m⟩
  else some s

def alignToPtrDown (s : Locals) : Option Locals :=
  if psize > wsize then
    let t := s.src
    if (t ||| s.dst) &&& pmask psize ≠ 0 then
      let t :=
        if (t ^^^ s.dst) &&& pmask psize ≠ 0 ∨ s.length < BitVec.ofNat 64 psize then
          s.length / BitVec.ofNat 64 wsize
        else (t &&& pmask psize) / BitVec.ofNat 64 wsize
      if t ≠ 0 then
        let length := s.length - t * BitVec.ofNat 64 wsize
        let dst := s.dst - t * BitVec.ofNat 64 wsize
        let src := s.src - t * BitVec.ofNat 64 wsize
        (MIPSLOOP fuel ((t - 1) * BitVec.ofNat 64 wsize) 0
          (fun t => assign n psize C .word (dst + t) (src + t)) (-8) s.mem).map
          fun m => ⟨dst, src, length, m⟩
      else some s
    else some s
  else some s

def copyPtrsDown (s : Locals) : Option Locals :=
  let t := s.length / BitVec.ofNat 64 psize
  if t ≠ 0 then
    let src := s.src - t * BitVec.ofNat 64 psize
    let dst := s.dst - t * BitVec.ofNat 64 psize
    (MIPSLOOP fuel ((t - 1) * BitVec.ofNat 64 psize) 0
      (fun t => assign n psize C .ptr (dst + t) (src + t)) (-BitVec.ofNat 64 psize) s.mem).map
      fun m => ⟨dst, src, s.length, m⟩
  else some s

def copyRestDown (s : Locals) : Option Mem :=
  let t := s.length &&& pmask psize
  if t ≠ 0 then
    let dst := s.dst - t
    let src := s.src - t
    MIPSLOOP fuel (t - 1) 0 (fun t => assign n psize C .char (dst + t) (src + t)) (-1) s.mem
  else some s.mem

/-! ### The function -/

/-- The body that the functions share. -/
def copyBody (handle_overlap : Bool) (m : Mem) : Option Mem :=
  if C.length = 0 ∨ C.src0 = C.dst0 then some m
  else if C.dst0 < C.src0 ∨ !handle_overlap then do
    let s ← alignToWord n psize C fuel ⟨C.dst0, C.src0, C.length, m⟩
    let s ← alignToPtr n psize C fuel s
    let s ← copyPtrs n psize C fuel s
    copyRest n psize C fuel s
  else do
    let s ← alignToWordDown n psize C fuel ⟨C.dst0 + C.length, C.src0 + C.length, C.length, m⟩
    let s ← alignToPtrDown n psize C fuel s
    let s ← copyPtrsDown n psize C fuel s
    copyRestDown n psize C fuel s

end code

section functions
variable (n psize fuel : ℕ)

def memmove (dst0 src0 length : BitVec 64) (m : Mem) : Option (BitVec 64 × Mem) :=
  (copyBody n psize ⟨dst0, src0, length⟩ fuel true m).map (dst0, ·)

def bcopy (src0 dst0 length : BitVec 64) (m : Mem) : Option Mem :=
  copyBody n psize ⟨dst0, src0, length⟩ fuel true m

def memcpy (dst0 src0 length : BitVec 64) (m : Mem) : Option (BitVec 64 × Mem) :=
  (copyBody n psize ⟨dst0, src0, length⟩ fuel false m).map (dst0, ·)

end functions

end CheriC

end Cheritest
