/-
Cheritest/Lib/Digits.lean

Numbers in text: how C's strtol and Python's int read them, and padded
output.  A digit is a decimal digit or a letter, as in bases up to 36.
-/
import Mathlib.Algebra.Group.Int.Defs
import Mathlib.Algebra.Group.Nat.Defs
import Mathlib.Data.List.Basic
import Mathlib.Data.List.TakeWhile
import Cheritest.Lib.Text

namespace Text

/-! ### Digits -/

/-- The value of a digit; 36 for any other character. -/
def digitVal (c : Char) : ℕ :=
  if c.isDigit then c.toNat - 48
  else if 'a' ≤ c ∧ c ≤ 'z' then c.toNat - 87
  else if 'A' ≤ c ∧ c ≤ 'Z' then c.toNat - 55
  else 36

/-- The value of a string of digits. -/
def digitsVal (b : ℕ) (s : List Char) : ℕ := s.foldl (fun v c => b * v + digitVal c) 0

theorem digitVal_digitChar {n : ℕ} (h : n < 16) : digitVal n.digitChar = n := by
  have hall : ∀ k : Fin 16, digitVal k.val.digitChar = k.val := by decide
  exact hall ⟨n, h⟩

theorem digitsVal_append (b : ℕ) (s : List Char) (c : Char) :
    digitsVal b (s ++ [c]) = b * digitsVal b s + digitVal c := by
  simp [digitsVal]

/-- What is written in a base reads back. -/
theorem digitsVal_toDigits {b : ℕ} (hb : 1 < b) (hb16 : b ≤ 16) (n : ℕ) :
    digitsVal b (Nat.toDigits b n) = n := by
  induction n using Nat.strongRecOn with
  | ind n ih =>
    by_cases hn : n < b
    · rw [Nat.toDigits_of_lt_base hn]
      show b * 0 + digitVal n.digitChar = n
      rw [digitVal_digitChar (by omega), Nat.mul_zero, Nat.zero_add]
    · have hdiv : n / b < n := Nat.div_lt_self (by omega) hb
      have hmod : n % b < 16 := Nat.lt_of_lt_of_le (Nat.mod_lt n (by omega)) hb16
      rw [Nat.toDigits_of_base_le hb (by omega), digitsVal_append, ih _ hdiv,
        digitVal_digitChar hmod, Nat.div_add_mod]

theorem printNat_injective : Function.Injective printNat := by
  intro m n h
  have hval := congrArg (digitsVal 10) h
  rwa [printNat, printNat, digitsVal_toDigits (by decide) (by decide),
    digitsVal_toDigits (by decide) (by decide)] at hval

theorem printInt_injective : Function.Injective printInt := by
  have hsign : ∀ m n : ℕ, printNat m ≠ '-' :: printNat n := by
    intro m n h
    have hdigit := isDigit_of_mem_printNat (h ▸ List.mem_cons_self : '-' ∈ printNat m)
    cases hdigit
  intro y z h
  rcases y with m | m <;> rcases z with n | n
  · exact congrArg Int.ofNat (printNat_injective h)
  · exact absurd h (hsign m (n + 1))
  · exact absurd h.symm (hsign n (m + 1))
  · have hsucc := printNat_injective (List.cons.inj h).2
    exact congrArg Int.negSucc (Nat.succ.inj hsucc)

theorem digitVal_lt_ten {c : Char} (h : c.isDigit = true) : digitVal c < 10 := by
  have hc : c.toNat ≤ 57 := by
    simp only [Char.isDigit, ge_iff_le, Bool.and_eq_true, decide_eq_true_eq] at h
    exact h.2
  unfold digitVal
  rw [if_pos h]
  omega

/-! ### Padding -/

/-- `%2d`, `%3d` and the like: filled with spaces to the left. -/
def padLeft (w : ℕ) (s : List Char) : List Char := List.replicate (w - s.length) ' ' ++ s

/-! ### strtol -/

/-- `isspace` of C, in the C locale. -/
def isCSpace (c : Char) : Bool := c == ' ' || (9 ≤ c.toNat && c.toNat ≤ 13)

/-- The sign that a number may start with: whether it is a minus, and the rest. -/
def readSign : List Char → Bool × List Char
  | '-' :: s => (true, s)
  | '+' :: s => (false, s)
  | s => (false, s)

/-- The base that `strtol` reads in, and the digits that follow; a base of 0
is taken from the prefix. -/
def readBase (b : ℕ) (s : List Char) : ℕ × List Char :=
  match s with
  | '0' :: x :: d :: t =>
      if (b = 0 ∨ b = 16) ∧ (x = 'x' ∨ x = 'X') ∧ digitVal d < 16 then (16, d :: t)
      else (if b = 0 then 8 else b, s)
  | '0' :: _ => (if b = 0 then 8 else b, s)
  | _ => (if b = 0 then 10 else b, s)

/-- The sign and the magnitude that `strtol` and `strtoull` read. -/
def readNumber (b : ℕ) (s : List Char) : Bool × ℕ :=
  let (neg, s) := readSign (s.dropWhile isCSpace)
  let (b, s) := readBase b s
  (neg, digitsVal b (s.takeWhile fun c => digitVal c < b))

/-- `strtol`, for a 64-bit `long`. -/
def strtol (b : ℕ) (s : List Char) : ℤ :=
  let (neg, n) := readNumber b s
  if neg then max (-(n : ℤ)) (-2 ^ 63) else min (n : ℤ) (2 ^ 63 - 1)

/-- `strtoull`. -/
def strtoull (b : ℕ) (s : List Char) : ℕ :=
  let (neg, n) := readNumber b s
  if 2 ^ 64 ≤ n then 2 ^ 64 - 1 else if neg then (2 ^ 64 - n) % 2 ^ 64 else n

/-- A `long` stored in an `int`. -/
def toInt32 (z : ℤ) : ℤ := Int.bmod z (2 ^ 32)

/-- A printed number starts with a zero only if it is zero. -/
theorem head_printNat_ne_zero {n : ℕ} (hn : n ≠ 0) : (printNat n).head? ≠ some '0' := by
  induction n using Nat.strongRecOn with
  | ind n ih =>
    by_cases hlt : n < 10
    · rw [printNat, Nat.toDigits_of_lt_base hlt]
      intro h
      exact hn (Nat.digitChar_eq_zero.mp (Option.some.inj h))
    · rw [printNat, Nat.toDigits_of_base_le (by decide) (by omega),
        List.head?_append_of_ne_nil _ Nat.toDigits_ne_nil]
      exact ih (n / 10) (by omega) (by omega)

theorem isCSpace_of_isDigit {c : Char} (h : c.isDigit = true) : isCSpace c = false := by
  have hc : 48 ≤ c.toNat := by
    simp only [Char.isDigit, ge_iff_le, Bool.and_eq_true, decide_eq_true_eq] at h
    exact h.1
  have hne : c ≠ ' ' := by
    rintro rfl
    exact absurd h (by decide)
  simp [isCSpace, hne]
  omega

theorem readSign_digit {c : Char} (hc : c.isDigit = true) (s : List Char) :
    readSign (c :: s) = (false, c :: s) := by
  unfold readSign
  split
  · rename_i h
    obtain ⟨rfl, -⟩ := List.cons.inj h
    exact absurd hc (by decide)
  · rename_i h
    obtain ⟨rfl, -⟩ := List.cons.inj h
    exact absurd hc (by decide)
  · rfl

theorem readBase_digit {c : Char} (hc : c ≠ '0') (s : List Char) :
    readBase 0 (c :: s) = (10, c :: s) := by
  unfold readBase
  split
  · rename_i h
    exact absurd (List.cons.inj h).1 hc
  · rename_i h
    exact absurd (List.cons.inj h).1 hc
  · rfl

/-- `strtol` reads a printed number, in the base that the number's prefix names. -/
theorem strtol_printNat {n : ℕ} (hn : n < 2 ^ 63) : strtol 0 (printNat n) = n := by
  have hnumber : readNumber 0 (printNat n) = (false, n) := by
    by_cases hzero : n = 0
    · rw [hzero]
      rfl
    · have hne : printNat n ≠ [] := Nat.toDigits_ne_nil
      obtain ⟨c, s, hcs⟩ := List.exists_cons_of_ne_nil hne
      have hdigits : ∀ d ∈ c :: s, d.isDigit = true := fun d hd =>
        isDigit_of_mem_printNat (hcs ▸ hd)
      have hc : c.isDigit = true := hdigits c List.mem_cons_self
      have hc0 : c ≠ '0' := by
        have hhead := head_printNat_ne_zero hzero
        rw [hcs] at hhead
        exact fun h => hhead (congrArg some h)
      have hspace : isCSpace c = false := isCSpace_of_isDigit hc
      have htake : (c :: s).takeWhile (fun d => decide (digitVal d < 10)) = c :: s :=
        List.takeWhile_eq_self_iff.mpr fun d hd => decide_eq_true (digitVal_lt_ten (hdigits d hd))
      have hval : digitsVal 10 (c :: s) = n := by
        rw [← hcs]
        exact digitsVal_toDigits (by decide) (by decide) n
      unfold readNumber
      rw [hcs, List.dropWhile_cons_of_neg (by simp [hspace]), readSign_digit hc]
      simp only [readBase_digit hc0, htake, hval]
  unfold strtol
  rw [hnumber]
  show min (n : ℤ) (2 ^ 63 - 1) = n
  omega

/-! ### int -/

/-- The digits of `int(s, 16)` after the prefix; single underscores may stand
before and between them. -/
def hexPieces (t : List Char) : List (List Char) :=
  match t.splitOn '_' with
  | [] :: pieces => pieces
  | pieces => pieces

/-- `int(s, 16)`, of ASCII text that starts with `0x`. -/
def intHex (s : List Char) : Option ℕ :=
  match rstrip s with
  | '0' :: 'x' :: t =>
      if hexPieces t ≠ [] ∧ ∀ p ∈ hexPieces t, p ≠ [] ∧ ∀ c ∈ p, isHexDigit c = true then
        some (digitsVal 16 (hexPieces t).flatten)
      else none
  | _ => none

theorem isSpace_of_isHexDigit {c : Char} (h : isHexDigit c = true) : isSpace c = false := by
  simp only [isHexDigit, Bool.or_eq_true, Bool.and_eq_true, decide_eq_true_eq] at h
  rcases h with (h | ⟨hlo, hhi⟩) | ⟨hlo, hhi⟩
  · exact isSpace_of_isDigit h
  · have hlow : 97 ≤ c.toNat := hlo
    have hhigh : c.toNat ≤ 102 := hhi
    simp only [isSpace, Bool.or_eq_false_iff, Bool.and_eq_false_iff, decide_eq_false_iff_not,
      beq_eq_false_iff_ne]
    omega
  · have hlow : 65 ≤ c.toNat := hlo
    have hhigh : c.toNat ≤ 70 := hhi
    simp only [isSpace, Bool.or_eq_false_iff, Bool.and_eq_false_iff, decide_eq_false_iff_not,
      beq_eq_false_iff_ne]
    omega

theorem hexPieces_digits {v : List Char} (hne : v ≠ []) (hv : ∀ c ∈ v, isHexDigit c = true) :
    hexPieces v = [v] := by
  have hjoin : v = ['_'].intercalate [v] := by simp [List.intercalate]
  have hsplit : v.splitOn '_' = [v] := by
    conv_lhs => rw [hjoin]
    apply List.splitOn_intercalate '_'
    · intro l hl hmem
      rw [List.mem_singleton.mp hl] at hmem
      exact absurd (hv _ hmem) (by decide)
    · exact List.cons_ne_nil _ _
  obtain ⟨c, t, rfl⟩ := List.exists_cons_of_ne_nil hne
  unfold hexPieces
  rw [hsplit]

/-- Hexadecimal digits are read at their value. -/
theorem intHex_digits {v : List Char} (hne : v ≠ []) (hv : ∀ c ∈ v, isHexDigit c = true) :
    intHex ("0x".toList ++ v) = some (digitsVal 16 v) := by
  have hlast : ∀ c ∈ ("0x".toList ++ v).getLast?, isSpace c = false := by
    intro c hc
    rw [List.getLast?_append_of_ne_nil _ hne] at hc
    exact isSpace_of_isHexDigit (hv c (List.mem_of_mem_getLast? hc))
  have hpieces : hexPieces v ≠ [] ∧ ∀ p ∈ hexPieces v, p ≠ [] ∧ ∀ c ∈ p, isHexDigit c = true := by
    rw [hexPieces_digits hne hv]
    refine ⟨List.cons_ne_nil _ _, fun p hp => ?_⟩
    rw [List.mem_singleton.mp hp]
    exact ⟨hne, hv⟩
  have hvalue : some (digitsVal 16 (hexPieces v).flatten) = some (digitsVal 16 v) := by
    rw [hexPieces_digits hne hv, List.flatten_singleton]
  unfold intHex
  rw [rstrip_eq_self hlast]
  exact (if_pos hpieces).trans hvalue

/-! ### Numbers of a given width -/

theorem length_printHex {w n : ℕ} (hw : 0 < w) (hn : n < 16 ^ w) : (printHex w n).length = w := by
  have hle := (Nat.length_toDigits_le_iff (by decide) hw).mpr hn
  rw [printHex, List.length_append, List.length_replicate, Nat.sub_add_cancel hle]

theorem digitsVal_printHex (w n : ℕ) : digitsVal 16 (printHex w n) = n := by
  have hzeros (k : ℕ) (s : List Char) :
      digitsVal 16 (List.replicate k '0' ++ s) = digitsVal 16 s := by
    induction k with
    | zero => rfl
    | succ k ih => exact ih
  rw [printHex, hzeros, digitsVal_toDigits (by decide) (by decide)]

/-! ### Words of sixteen digits -/

/-- Sixteen hexadecimal digits. -/
structure Hex16 where
  digits : List Char
  length_eq : digits.length = 16
  hex : ∀ c ∈ digits, isHexDigit c = true

def Hex16.val (v : Hex16) : ℕ := digitsVal 16 v.digits

/-- The value zero. -/
def Hex16.zero : Hex16 := ⟨List.replicate 16 '0', rfl, fun _ hc => List.eq_of_mem_replicate hc ▸ rfl⟩

theorem Hex16.not_mem (v : Hex16) {c : Char} (hc : isHexDigit c = false) : c ∉ v.digits := by
  intro h
  rw [v.hex c h] at hc
  cases hc

end Text
