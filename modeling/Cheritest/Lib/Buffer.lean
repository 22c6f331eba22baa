/-
Cheritest/Lib/Buffer.lean

A C character buffer that is filled line by line: the strings that end at
the first NUL, and `fgets`.
-/
import Mathlib.Data.List.Infix

namespace Text

/-! ### Strings in a buffer -/

/-- The string at `buff + k`. -/
def cstr (buff : List Char) (k : ℕ) : List Char := (buff.drop k).takeWhile (· ≠ '\x00')

/-- The buffer after a string is written to its start. -/
def fill (buff s : List Char) : List Char := s ++ '\x00' :: buff.drop (s.length + 1)

theorem cstr_append {s : List Char} (hs : ∀ c ∈ s, c ≠ '\x00') {k : ℕ} (hk : k ≤ s.length)
    (rest : List Char) : cstr (s ++ '\x00' :: rest) k = s.drop k := by
  have hall : ∀ c ∈ s.drop k, decide (c ≠ '\x00') = true := fun c hc =>
    decide_eq_true (hs c (List.mem_of_mem_drop hc))
  unfold cstr
  rw [List.drop_append_of_le_length hk, List.takeWhile_append_of_pos hall,
    List.takeWhile_cons_of_neg (by decide), List.append_nil]

/-! ### fgets -/

/-- Read at most `n` characters, and none after a newline. -/
def fgets : ℕ → List Char → List Char × List Char
  | 0, s => ([], s)
  | _, [] => ([], [])
  | n + 1, c :: s =>
      if c = '\n' then (['\n'], s)
      else ((c :: (fgets n s).1), (fgets n s).2)

/-- What the calls of `fgets(buff, n + 1, …)` read, up to the end of the stream. -/
def fgetsAll (n : ℕ) (s : List Char) : List (List Char) :=
  go s.length s
where
  go : ℕ → List Char → List (List Char)
    | _, [] => []
    | 0, _ => []
    | k + 1, s => (fgets n s).1 :: go k (fgets n s).2

theorem fgets_line {n : ℕ} {l : List Char} (hl : '\n' ∉ l) (hn : l.length < n) (s : List Char) :
    fgets n (l ++ '\n' :: s) = (l ++ ['\n'], s) := by
  induction l generalizing n with
  | nil =>
    obtain ⟨n, rfl⟩ := Nat.exists_eq_add_one_of_ne_zero (Nat.ne_of_gt hn)
    rfl
  | cons c l ih =>
    obtain ⟨n, rfl⟩ := Nat.exists_eq_add_one_of_ne_zero (Nat.ne_of_gt (Nat.zero_lt_of_lt hn))
    have hc : c ≠ '\n' := fun h => hl (h ▸ List.mem_cons_self)
    have hrest := ih (fun h => hl (List.mem_cons_of_mem c h)) (Nat.lt_of_succ_lt_succ hn)
    show (if c = '\n' then _ else
      (c :: (fgets n (l ++ '\n' :: s)).1, (fgets n (l ++ '\n' :: s)).2)) = _
    rw [if_neg hc, hrest]
    rfl

/-- Lines that fit in the buffer are read one at a time. -/
theorem fgetsAll_lines {n : ℕ} {ls : List (List Char)} (hls : ∀ l ∈ ls, '\n' ∉ l ∧ l.length < n) :
    fgetsAll n (ls.flatMap fun l => l ++ ['\n']) = ls.map fun l => l ++ ['\n'] := by
  have hgo : ∀ k, (ls.flatMap fun l => l ++ ['\n']).length ≤ k →
      fgetsAll.go n k (ls.flatMap fun l => l ++ ['\n']) = ls.map fun l => l ++ ['\n'] := by
    induction ls with
    | nil =>
      intro k _
      cases k <;> rfl
    | cons l ls ih =>
      intro k hk
      rw [List.flatMap_cons] at hk ⊢
      obtain ⟨hnl, hlen⟩ := hls l List.mem_cons_self
      have hread := fgets_line hnl hlen (ls.flatMap fun l => l ++ ['\n'])
      rw [List.length_append, List.length_append, List.length_singleton] at hk
      obtain ⟨k, rfl⟩ := Nat.exists_eq_add_one_of_ne_zero (show k ≠ 0 by omega)
      have hrest := ih (fun x hx => hls x (List.mem_cons_of_mem l hx)) k (by omega)
      rw [List.append_assoc, List.singleton_append, List.map_cons, ← hrest]
      have hcons : ∃ c s, l ++ '\n' :: (ls.flatMap fun l => l ++ ['\n']) = c :: s := by
        cases l with
        | nil => exact ⟨_, _, rfl⟩
        | cons c l => exact ⟨_, _, rfl⟩
      obtain ⟨c, s, hcs⟩ := hcons
      rw [hcs] at hread ⊢
      show (fgets n (c :: s)).1 :: fgetsAll.go n k (fgets n (c :: s)).2 = _
      rw [hread]
  exact hgo _ le_rfl

end Text
