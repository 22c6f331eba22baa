/-
Cheritest/Lib/Text.lean

Text as lists of characters: how C's printf writes numbers, and the string
methods of Python that line-based tools use.
-/
import Mathlib.Data.Int.Notation
import Mathlib.Tactic.Common

namespace Text

/-- Whether all characters of a text have a property is decided by going through
the text. -/
instance decidableForallMemChar (P : Char → Prop) [DecidablePred P] (s : List Char) :
    Decidable (∀ c ∈ s, P c) :=
  List.decidableBAll P s

/-! ### Writing numbers -/

/-- `%d`, `%u` and their wider kinds, of a value that is not negative. -/
def printNat (n : ℕ) : List Char := Nat.toDigits 10 n

/-- `%d` and its wider kinds. -/
def printInt : ℤ → List Char
  | .ofNat n => printNat n
  | .negSucc n => '-' :: printNat (n + 1)

/-- `%0wx`: hexadecimal, filled with zeros to `w` digits. -/
def printHex (w n : ℕ) : List Char :=
  List.replicate (w - (Nat.toDigits 16 n).length) '0' ++ Nat.toDigits 16 n

theorem isDigit_of_mem_printNat {n : ℕ} {c : Char} (h : c ∈ printNat n) : c.isDigit = true :=
  Nat.isDigit_of_mem_toDigits (by decide) (by decide) h

theorem mem_printInt {z : ℤ} {c : Char} (h : c ∈ printInt z) : c = '-' ∨ c.isDigit = true := by
  cases z with
  | ofNat n => exact .inr (isDigit_of_mem_printNat h)
  | negSucc n =>
    rcases List.mem_cons.mp h with rfl | h
    · exact .inl rfl
    · exact .inr (isDigit_of_mem_printNat h)

/-- A number ends in a digit. -/
theorem printInt_eq_append (z : ℤ) : ∃ s c, printInt z = s ++ [c] ∧ c.isDigit = true := by
  have hnat (n : ℕ) : ∃ s c, printNat n = s ++ [c] ∧ c.isDigit = true := by
    have hne : printNat n ≠ [] := Nat.toDigits_ne_nil
    refine ⟨_, _, (List.dropLast_concat_getLast hne).symm, ?_⟩
    exact isDigit_of_mem_printNat (List.getLast_mem hne)
  cases z with
  | ofNat n => exact hnat n
  | negSucc n =>
    obtain ⟨s, c, hs, hc⟩ := hnat (n + 1)
    exact ⟨'-' :: s, c, by rw [printInt, hs, List.cons_append], hc⟩

/-- The hexadecimal digits. -/
def isHexDigit (c : Char) : Bool :=
  c.isDigit || ('a' ≤ c && c ≤ 'f') || ('A' ≤ c && c ≤ 'F')

theorem isHexDigit_digitChar {n : ℕ} (h : n < 16) : isHexDigit n.digitChar = true := by
  revert h
  have hall : ∀ k : Fin 16, isHexDigit k.val.digitChar = true := by decide
  exact fun h => hall ⟨n, h⟩

theorem isHexDigit_of_mem_toDigits {n : ℕ} {c : Char} (h : c ∈ Nat.toDigits 16 n) :
    isHexDigit c = true := by
  induction n using Nat.strongRecOn with
  | ind n ih =>
    by_cases hn : n < 16
    · rw [Nat.toDigits_of_lt_base hn, List.mem_singleton] at h
      rw [h]
      exact isHexDigit_digitChar hn
    · rw [Nat.toDigits_of_base_le (by decide) (by omega), List.mem_append, List.mem_singleton] at h
      rcases h with h | rfl
      · exact ih (n / 16) (by omega) h
      · exact isHexDigit_digitChar (by omega)

theorem isHexDigit_of_mem_printHex {w n : ℕ} {c : Char} (h : c ∈ printHex w n) :
    isHexDigit c = true := by
  rcases List.mem_append.mp h with h | h
  · rw [List.eq_of_mem_replicate h]
    rfl
  · exact isHexDigit_of_mem_toDigits h

/-! ### White space -/

/-- `str.isspace` of one character. -/
def isSpace (c : Char) : Bool :=
  let n := c.toNat
  (9 ≤ n && n ≤ 13) || (28 ≤ n && n ≤ 32) || n == 0x85 || n == 0xa0 || n == 0x1680 ||
    (0x2000 ≤ n && n ≤ 0x200a) || n == 0x2028 || n == 0x2029 || n == 0x202f || n == 0x205f ||
    n == 0x3000

/-- `str.rstrip`. -/
def rstrip (s : List Char) : List Char := (s.reverse.dropWhile isSpace).reverse

theorem rstrip_append_space (s : List Char) {c : Char} (hc : isSpace c = false) (ws : List Char)
    (hws : ∀ x ∈ ws, isSpace x = true) : rstrip (s ++ [c] ++ ws) = s ++ [c] := by
  have hdrop : (ws.reverse ++ (c :: s.reverse)).dropWhile isSpace = c :: s.reverse := by
    rw [List.dropWhile_append_of_pos fun x hx => hws x (List.mem_reverse.mp hx),
      List.dropWhile_cons_of_neg (by simp [hc])]
  rw [rstrip, List.reverse_append, List.reverse_append, List.reverse_singleton, List.singleton_append,
    hdrop, List.reverse_cons, List.reverse_reverse]

theorem isSpace_of_isDigit {c : Char} (h : c.isDigit = true) : isSpace c = false := by
  have hrange : 48 ≤ c.toNat ∧ c.toNat ≤ 57 := by
    simp only [Char.isDigit, ge_iff_le, Bool.and_eq_true, decide_eq_true_eq] at h
    exact h
  simp only [isSpace, Bool.or_eq_false_iff, Bool.and_eq_false_iff, decide_eq_false_iff_not,
    beq_eq_false_iff_ne]
  omega

/-- `str.strip`. -/
def strip (s : List Char) : List Char := rstrip (s.dropWhile isSpace)

theorem rstrip_eq_self {s : List Char} (h : ∀ c ∈ s.getLast?, isSpace c = false) :
    rstrip s = s := by
  rcases List.eq_nil_or_concat s with rfl | ⟨t, c, rfl⟩
  · rfl
  · rw [List.concat_eq_append] at h ⊢
    have hc : isSpace c = false := h c List.getLast?_concat
    have hrstrip := rstrip_append_space t hc [] (by simp)
    rwa [List.append_nil] at hrstrip

theorem strip_eq_self {s : List Char} (hhead : ∀ c ∈ s.head?, isSpace c = false)
    (hlast : ∀ c ∈ s.getLast?, isSpace c = false) : strip s = s := by
  have hdrop : s.dropWhile isSpace = s := by
    cases s with
    | nil => rfl
    | cons c s => exact List.dropWhile_cons_of_neg (by simp [hhead c rfl])
  rw [strip, hdrop, rstrip_eq_self hlast]

/-- The white space around a text is taken off. -/
theorem strip_append {s pre post : List Char} (hpre : ∀ c ∈ pre, isSpace c = true)
    (hpost : ∀ c ∈ post, isSpace c = true) (hne : s ≠ [])
    (hhead : ∀ c ∈ s.head?, isSpace c = false) (hlast : ∀ c ∈ s.getLast?, isSpace c = false) :
    strip (pre ++ s ++ post) = s := by
  have hdrop : (pre ++ s ++ post).dropWhile isSpace = s ++ post := by
    obtain ⟨c, t, rfl⟩ := List.exists_cons_of_ne_nil hne
    rw [List.append_assoc, List.dropWhile_append_of_pos hpre]
    exact List.dropWhile_cons_of_neg (by simp [hhead c rfl])
  have hsplit := List.dropLast_concat_getLast hne
  have hend : isSpace (s.getLast hne) = false := hlast _ (List.getLast?_eq_some_getLast hne)
  rw [strip, hdrop, ← hsplit]
  exact rstrip_append_space _ hend post hpost

/-! ### Splitting -/

/-- Text up to the first character outside a class can be told from what
follows. -/
theorem append_inj_of_stop {f : Char → Bool} {s s' t t' : List Char} {c : Char} (hc : f c = false)
    (hs : ∀ x ∈ s, f x = true) (hs' : ∀ x ∈ s', f x = true) (h : s ++ c :: t = s' ++ c :: t') :
    s = s' ∧ t = t' := by
  have htake : ∀ r u : List Char, (∀ x ∈ r, f x = true) → (r ++ c :: u).takeWhile f = r := by
    intro r u hr
    rw [List.takeWhile_append_of_pos hr, List.takeWhile_cons_of_neg (by simp [hc]), List.append_nil]
  have heq : s = s' := by
    rw [← htake s t hs, h, htake s' t' hs']
  subst heq
  exact ⟨rfl, (List.cons.inj (List.append_cancel_left h)).2⟩

/-! ### Lines -/

/-- Lines, each ended by a newline, come back as `str.rstrip` and
`str.split` read them, if none has a newline in it and the last one does not
end in white space. -/
theorem split_rstrip_lines {lines : List (List Char)} (hne : lines ≠ [])
    (hlines : ∀ l ∈ lines, '\n' ∉ l)
    (hlast : ∀ l ∈ lines, ∃ s c, l = s ++ [c] ∧ isSpace c = false) :
    (rstrip (lines.flatMap fun l => l ++ ['\n'])).splitOn '\n' = lines := by
  have hjoin : (lines.flatMap fun l => l ++ ['\n']) = ['\n'].intercalate lines ++ ['\n'] := by
    clear hlines hlast
    induction lines with
    | nil => exact absurd rfl hne
    | cons l ls ih =>
      cases ls with
      | nil => simp [List.intercalate]
      | cons l' ls =>
        rw [List.flatMap_cons, ih (by simp)]
        simp [List.intercalate, List.intersperse]
  have hend : ∃ s c, ['\n'].intercalate lines = s ++ [c] ∧ isSpace c = false := by
    clear hjoin hlines
    induction lines with
    | nil => exact absurd rfl hne
    | cons l ls ih =>
      cases ls with
      | nil =>
        obtain ⟨s, c, hl, hc⟩ := hlast l List.mem_cons_self
        exact ⟨s, c, by simp [List.intercalate, hl], hc⟩
      | cons l' ls =>
        obtain ⟨s, c, hs, hc⟩ := ih (by simp) fun x hx => hlast x (List.mem_cons_of_mem _ hx)
        refine ⟨l ++ '\n' :: s, c, ?_, hc⟩
        have hcons : ['\n'].intercalate (l :: l' :: ls) = l ++ '\n' :: ['\n'].intercalate (l' :: ls) := by
          simp [List.intercalate, List.intersperse]
        rw [hcons, hs, List.append_assoc, List.cons_append]
  -- the last newline is the only white space that is taken off
  obtain ⟨s, c, hs, hc⟩ := hend
  rw [hjoin, hs, rstrip_append_space s hc ['\n'] (List.forall_mem_singleton.mpr rfl), ← hs]
  exact List.splitOn_intercalate '\n' hlines hne

/-- `for line in file`, of a file without carriage returns; the lines are given
without their newlines. -/
def fileLines (s : List Char) : List (List Char) :=
  let pieces := s.splitOn '\n'
  if pieces.getLast? = some [] then pieces.dropLast else pieces

theorem fileLines_lines {lines : List (List Char)} (hlines : ∀ l ∈ lines, '\n' ∉ l) :
    fileLines (lines.flatMap fun l => l ++ ['\n']) = lines := by
  have hjoin : (lines.flatMap fun l => l ++ ['\n']) = ['\n'].intercalate (lines ++ [[]]) := by
    clear hlines
    induction lines with
    | nil => rfl
    | cons l ls ih =>
      rw [List.flatMap_cons, ih]
      cases ls <;> simp [List.intercalate, List.intersperse]
  have hsplit : (['\n'].intercalate (lines ++ [[]])).splitOn '\n' = lines ++ [[]] := by
    apply List.splitOn_intercalate '\n'
    · intro l hl
      rcases List.mem_append.mp hl with hl | hl
      · exact hlines l hl
      · rw [List.mem_singleton.mp hl]
        exact List.not_mem_nil
    · simp
  unfold fileLines
  rw [hjoin, hsplit]
  simp

/-- `str.replace` of a single character. -/
def replace (old : Char) (new s : List Char) : List Char :=
  s.flatMap fun c => if c = old then new else [c]

end Text
