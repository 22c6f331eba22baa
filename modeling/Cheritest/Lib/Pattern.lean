/-
Cheritest/Lib/Pattern.lean

Regular expressions as a backtracking matcher reads them: a pattern gives
the list of its matches at a position in the order in which they are tried,
and the match is the first of the list.  Repetitions are of one character
class, and greedy.

`Reads a gs s rest`: before `rest`, the first match of `a` is the whole of
`s`.  The rules for `Reads` follow the syntax; a greedy repetition reads up to
the first character outside its class.
-/
import Mathlib.Data.List.Infix

namespace Text

/-! ### Patterns -/

/-- The groups of a match; a group that took no part is `none`. -/
abbrev Groups := List (Option (List Char))

inductive Pattern
  | empty
  | char (f : Char → Bool)
  | seq (a b : Pattern)
  /-- `a?`. -/
  | opt (a : Pattern)
  /-- `f{least,}`. -/
  | many (f : Char → Bool) (least : ℕ)
  | group (a : Pattern)
  /-- `\b`. -/
  | boundary
  /-- `(?!s)`. -/
  | notAhead (s : List Char)
  /-- `$`. -/
  | atEnd

/-- A position in a text: what is behind it, the last character first, and
what follows. -/
structure Pos where
  behind : List Char
  rest : List Char
  deriving DecidableEq

/-- Pass over `n` characters. -/
def Pos.advance : ℕ → Pos → Pos
  | n + 1, ⟨behind, c :: rest⟩ => Pos.advance n ⟨c :: behind, rest⟩
  | _, p => p

theorem Pos.advance_append (s behind rest : List Char) :
    Pos.advance s.length ⟨behind, s ++ rest⟩ = ⟨s.reverse ++ behind, rest⟩ := by
  induction s generalizing behind with
  | nil => rfl
  | cons c s ih =>
    show Pos.advance s.length ⟨c :: behind, s ++ rest⟩ = _
    rw [ih, List.reverse_cons, List.append_assoc]
    rfl

namespace Pattern

/-- The number of groups. -/
def groups : Pattern → ℕ
  | seq a b => a.groups + b.groups
  | opt a => a.groups
  | group a => a.groups + 1
  | _ => 0

/-- `\w`, in ASCII. -/
def isWord (c : Char) : Bool := c.isAlphanum || c == '_'

/-- The matches at a position, in the order in which they are tried. -/
def results : Pattern → Pos → List (Groups × Pos)
  | empty, p => [([], p)]
  | char f, p => if p.rest.head?.any f then [([], p.advance 1)] else []
  | seq a b, p =>
      (a.results p).flatMap fun m => (b.results m.2).map fun m' => (m.1 ++ m'.1, m'.2)
  | opt a, p => a.results p ++ [(List.replicate a.groups none, p)]
  | many f least, p =>
      ((List.range ((p.rest.takeWhile f).length + 1)).reverse.filter fun n => least ≤ n).map
        fun n => ([], p.advance n)
  | group a, p =>
      (a.results p).map fun m =>
        (some ((m.2.behind.take (m.2.behind.length - p.behind.length)).reverse) :: m.1, m.2)
  | boundary, p =>
      if p.behind.head?.any isWord != p.rest.head?.any isWord then [([], p)] else []
  | notAhead s, p => if s.isPrefixOf p.rest then [] else [([], p)]
  | atEnd, p => if p.rest = [] ∨ p.rest = ['\n'] then [([], p)] else []

/-- The match at a position. -/
def first (a : Pattern) (p : Pos) : Option (Groups × Pos) := (a.results p).head?

/-- A literal text. -/
def lit : List Char → Pattern
  | [] => empty
  | c :: s => seq (char (· == c)) (lit s)

/-- `f{n}`. -/
def times (f : Char → Bool) : ℕ → Pattern
  | 0 => empty
  | n + 1 => seq (char f) (times f n)

/-- `re.search`, from a position on. -/
def searchFrom (a : Pattern) (behind : List Char) : List Char → Option (Groups × Pos)
  | [] => a.first ⟨behind, []⟩
  | c :: rest => (a.first ⟨behind, c :: rest⟩).or (a.searchFrom (c :: behind) rest)

/-- `re.search`. -/
def search (a : Pattern) (s : List Char) : Option (Groups × Pos) := a.searchFrom [] s

/-- `re.findall`, of a pattern that matches no empty text. -/
def findall (a : Pattern) (s : List Char) : List Groups :=
  go (s.length + 1) ⟨[], s⟩
where
  go : ℕ → Pos → List Groups
    | 0, _ => []
    | n + 1, p =>
        match a.searchFrom p.behind p.rest with
        | some m => m.1 :: go n m.2
        | none => []

/-! ### Reading a text -/

/-- Before `rest`, the first match is `s`. -/
def Reads (a : Pattern) (gs : Groups) (s rest : List Char) : Prop :=
  ∀ behind, a.first ⟨behind, s ++ rest⟩ = some (gs, ⟨s.reverse ++ behind, rest⟩)

variable {a b : Pattern} {gs gs' : Groups} {s t rest : List Char} {f : Char → Bool}

theorem reads_empty : Reads empty [] [] rest := fun _ => rfl

theorem reads_char {c : Char} (h : f c = true) : Reads (char f) [] [c] rest := by
  intro behind
  show List.head? (if f c = true then [([], (⟨c :: behind, rest⟩ : Pos))] else []) = _
  rw [if_pos h]
  rfl

theorem Reads.seq (ha : Reads a gs s (t ++ rest)) (hb : Reads b gs' t rest) :
    Reads (a.seq b) (gs ++ gs') (s ++ t) rest := by
  intro behind
  obtain ⟨l, hl⟩ := List.head?_eq_some_iff.mp (ha behind)
  obtain ⟨l', hl'⟩ := List.head?_eq_some_iff.mp (hb (s.reverse ++ behind))
  unfold first results
  rw [List.append_assoc, hl, List.flatMap_cons, hl', List.map_cons, List.cons_append,
    List.head?_cons, List.reverse_append, List.append_assoc]

/-- A greedy repetition reads up to the first character outside its class. -/
theorem reads_many {least : ℕ} (hall : ∀ c ∈ s, f c = true)
    (hstop : ∀ c ∈ rest.head?, f c = false) (hleast : least ≤ s.length) :
    Reads (many f least) [] s rest := by
  intro behind
  have htake : (s ++ rest).takeWhile f = s := by
    rw [List.takeWhile_append_of_pos hall]
    cases rest with
    | nil => simp
    | cons c rest => rw [List.takeWhile_cons_of_neg (by simp [hstop c rfl]), List.append_nil]
  have hlongest : (fun n => decide (least ≤ n)) s.length = true := decide_eq_true hleast
  unfold first results
  simp only [htake]
  rw [List.range_succ, List.reverse_append, List.reverse_singleton, List.singleton_append,
    List.filter_cons_of_pos (p := fun n => decide (least ≤ n)) hlongest, List.map_cons,
    List.head?_cons, Pos.advance_append]

theorem Reads.group (ha : Reads a gs s rest) : Reads a.group (some s :: gs) s rest := by
  intro behind
  obtain ⟨l, hl⟩ := List.head?_eq_some_iff.mp (ha behind)
  unfold first results
  rw [hl, List.map_cons, List.head?_cons]
  have hlen : (s.reverse ++ behind).length - behind.length = s.reverse.length := by
    rw [List.length_append, Nat.add_sub_cancel]
  simp only [hlen, List.take_left, List.reverse_reverse]

theorem Reads.atEnd (ha : Reads a gs s []) : Reads (a.seq .atEnd) gs s [] := by
  have hend : Reads .atEnd [] [] [] := fun _ => rfl
  have hseq := Reads.seq (t := []) ha hend
  rwa [List.append_nil, List.append_nil] at hseq

theorem Reads.opt (ha : Reads a gs s rest) : Reads a.opt gs s rest := by
  intro behind
  obtain ⟨l, hl⟩ := List.head?_eq_some_iff.mp (ha behind)
  unfold first results
  rw [hl, List.cons_append, List.head?_cons]

/-- An option that is not there. -/
theorem reads_opt_none (ha : ∀ behind, a.results ⟨behind, rest⟩ = []) :
    Reads a.opt (List.replicate a.groups none) [] rest := by
  intro behind
  unfold first results
  rw [List.nil_append, ha, List.nil_append]
  rfl

theorem reads_lit (s : List Char) : Reads (lit s) [] s rest := by
  induction s with
  | nil => exact reads_empty
  | cons c s ih =>
    have hc : Reads (char (· == c)) [] [c] (s ++ rest) := reads_char (beq_self_eq_true c)
    exact hc.seq ih

theorem reads_times (hall : ∀ c ∈ s, f c = true) : Reads (times f s.length) [] s rest := by
  induction s with
  | nil => exact reads_empty
  | cons c s ih =>
    have hc : Reads (char f) [] [c] (s ++ rest) := reads_char (hall c List.mem_cons_self)
    exact hc.seq (ih fun x hx => hall x (List.mem_cons_of_mem c hx))

/-! ### What is not matched -/

/-- Where a sequence matches, its first part does. -/
theorem exists_of_first_seq {p : Pos} {m : Groups × Pos} (h : (a.seq b).first p = some m) :
    ∃ m' ∈ a.results p, ∃ m'', b.first m'.2 = some m'' := by
  have hmem := List.mem_of_mem_head? h
  simp only [results, List.mem_flatMap, List.mem_map] at hmem
  obtain ⟨m', hm', m'', hm'', -⟩ := hmem
  refine ⟨m', hm', ?_⟩
  rcases hfirst : b.first m'.2 with - | m₀
  · rw [List.head?_eq_none_iff.mp hfirst] at hm''
    cases hm''
  · exact ⟨m₀, rfl⟩

theorem eq_of_mem_boundary {p : Pos} {m : Groups × Pos} (h : m ∈ boundary.results p) :
    m = ([], p) := by
  unfold results at h
  split_ifs at h
  · exact List.mem_singleton.mp h
  · cases h

theorem of_mem_notAhead {p : Pos} {m : Groups × Pos} (h : m ∈ (notAhead s).results p) :
    ¬s <+: p.rest ∧ m = ([], p) := by
  unfold results at h
  split_ifs at h with hs
  · cases h
  · exact ⟨fun hp => hs (List.isPrefixOf_iff_prefix.mpr hp), List.mem_singleton.mp h⟩

theorem of_mem_char {p : Pos} {m : Groups × Pos} (h : m ∈ (char f).results p) :
    ∃ c rest, f c = true ∧ p.rest = c :: rest ∧ m = ([], ⟨c :: p.behind, rest⟩) := by
  obtain ⟨behind, text⟩ := p
  cases text with
  | nil => cases h
  | cons c rest =>
    unfold results at h
    split_ifs at h with hc
    · exact ⟨c, rest, hc, rfl, List.mem_singleton.mp h⟩
    · cases h

theorem of_mem_group {p : Pos} {m : Groups × Pos} (h : m ∈ (group a).results p) :
    ∃ m' ∈ a.results p, m.2 = m'.2 := by
  obtain ⟨m', hm', rfl⟩ := List.mem_map.mp h
  exact ⟨m', hm', rfl⟩

theorem of_mem_lit {p : Pos} {m : Groups × Pos} (h : m ∈ (lit s).results p) :
    ∃ rest, p.rest = s ++ rest ∧ m = ([], ⟨s.reverse ++ p.behind, rest⟩) := by
  induction s generalizing p m with
  | nil => exact ⟨p.rest, rfl, List.mem_singleton.mp h⟩
  | cons c s ih =>
    simp only [lit, results, List.mem_flatMap, List.mem_map] at h
    obtain ⟨m₁, hm₁, m₂, hm₂, rfl⟩ := h
    obtain ⟨c', rest', hc, hp, rfl⟩ := of_mem_char hm₁
    obtain rfl : c' = c := eq_of_beq hc
    obtain ⟨rest, hrest, rfl⟩ := ih hm₂
    refine ⟨rest, ?_, ?_⟩
    · rw [hp]
      exact congrArg (c' :: ·) hrest
    · simp

/-- A search that fails everywhere. -/
theorem searchFrom_eq_none {behind : List Char}
    (h : ∀ l r, s = l ++ r → a.first ⟨l.reverse ++ behind, r⟩ = none) :
    a.searchFrom behind s = none := by
  induction s generalizing behind with
  | nil => exact h [] [] rfl
  | cons c s ih =>
    have hhere : a.first ⟨behind, c :: s⟩ = none := h [] (c :: s) rfl
    unfold searchFrom
    rw [hhere, Option.none_or]
    apply ih
    rintro l r rfl
    have hstep := h (c :: l) r rfl
    rwa [List.reverse_cons, List.append_assoc] at hstep

theorem findall_eq_nil (h : a.search s = none) : a.findall s = [] := by
  unfold findall findall.go
  show (match a.search s with | some m => _ | none => _) = _
  rw [h]

end Pattern

end Text
