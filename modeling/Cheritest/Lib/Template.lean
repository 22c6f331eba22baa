/-
Cheritest/Lib/Template.lean

Templates with `$name` placeholders, as Python's string.Template reads them.

A template is cut into pieces once; what a substitution gives depends on the
names in the template only (`substitute_congr`).  Two substitutions by values
of the same lengths give the same text only if they give every name the same
value (`eq_of_substitute_eq`).
-/
import Mathlib.Data.List.Basic
import Mathlib.Tactic.Common

/-! ### Texts made of parts of the same lengths -/

namespace List

variable {α β : Type*}

/-- Parts of the same lengths can be told from the whole. -/
theorem eq_of_flatMap_eq {f g : α → List β} {l : List α}
    (hlen : ∀ a ∈ l, (f a).length = (g a).length) (h : l.flatMap f = l.flatMap g) :
    ∀ a ∈ l, f a = g a := by
  induction l with
  | nil => exact fun a ha => absurd ha not_mem_nil
  | cons b l ih =>
    obtain ⟨hb, hl⟩ := append_inj (by rwa [flatMap_cons, flatMap_cons] at h) (hlen b mem_cons_self)
    intro a ha
    rcases mem_cons.mp ha with rfl | ha
    · exact hb
    · exact ih (fun a ha => hlen a (mem_cons_of_mem b ha)) hl a ha

/-- The same for parts with a separator between them. -/
theorem eq_of_intercalate_eq {sep : List β} {xs ys : List (List β)}
    (hlen : xs.map length = ys.map length) (h : sep.intercalate xs = sep.intercalate ys) :
    xs = ys := by
  induction xs generalizing ys with
  | nil =>
    cases ys with
    | nil => rfl
    | cons y ys => simp at hlen
  | cons x xs ih =>
    cases ys with
    | nil => simp at hlen
    | cons y ys =>
      obtain ⟨hxy, hrest⟩ := cons.inj hlen
      cases xs with
      | nil =>
        cases ys with
        | nil => rwa [intercalate_singleton, intercalate_singleton, ← singleton_inj] at h
        | cons y' ys => simp at hlen
      | cons x' xs =>
        cases ys with
        | nil => simp at hlen
        | cons y' ys =>
          rw [intercalate_cons_cons, intercalate_cons_cons, append_assoc, append_assoc] at h
          obtain ⟨rfl, -⟩ := append_inj h hxy
          rw [ih hrest (append_cancel_left (append_cancel_left h))]

theorem length_intercalate {sep : List β} {xs ys : List (List β)}
    (hlen : xs.map length = ys.map length) :
    (sep.intercalate xs).length = (sep.intercalate ys).length := by
  induction xs generalizing ys with
  | nil =>
    cases ys with
    | nil => rfl
    | cons y ys => simp at hlen
  | cons x xs ih =>
    cases ys with
    | nil => simp at hlen
    | cons y ys =>
      obtain ⟨hxy, hrest⟩ := cons.inj hlen
      cases xs with
      | nil =>
        cases ys with
        | nil => rwa [intercalate_singleton, intercalate_singleton]
        | cons y' ys => simp at hlen
      | cons x' xs =>
        cases ys with
        | nil => simp at hlen
        | cons y' ys =>
          rw [intercalate_cons_cons, intercalate_cons_cons]
          simp only [length_append]
          rw [hxy, ih hrest]

end List

namespace Template

/-! ### Pieces -/

/-- A character that stands for itself, or the name of a placeholder. -/
inductive Piece where
  | char (c : Char)
  | name (s : List Char)
deriving DecidableEq

def isIdStart (c : Char) : Bool := c.isAlpha || c == '_'

def isIdChar (c : Char) : Bool := c.isAlphanum || c == '_'

/-- Where the reader stands: in plain text, behind a dollar, in a name or in a
name in braces.  Names are kept reversed. -/
inductive At where
  | plain
  | dollar
  | named (s : List Char)
  | braced (s : List Char)

/-- Cut a template into pieces; `none` for an invalid placeholder. -/
def scan : At → List Char → Option (List Piece)
  | .plain, [] => some []
  | .plain, c :: cs => if c = '$' then scan .dollar cs else (scan .plain cs).map (.char c :: ·)
  | .dollar, [] => none
  | .dollar, c :: cs =>
    if c = '$' then (scan .plain cs).map (.char '$' :: ·)
    else if c = '{' then scan (.braced []) cs
    else if isIdStart c then scan (.named [c]) cs
    else none
  | .named s, [] => some [.name s.reverse]
  | .named s, c :: cs =>
    if isIdChar c then scan (.named (c :: s)) cs
    else if c = '$' then (scan .dollar cs).map (.name s.reverse :: ·)
    else (scan .plain cs).map fun ps => .name s.reverse :: .char c :: ps
  | .braced _, [] => none
  | .braced s, c :: cs =>
    if (if s = [] then isIdStart c else isIdChar c) then scan (.braced (c :: s)) cs
    else if c = '}' ∧ s ≠ [] then (scan .plain cs).map (.name s.reverse :: ·)
    else none

def pieces (template : List Char) : Option (List Piece) := scan .plain template

/-- The names of the placeholders. -/
def names (template : List Char) : List (List Char) :=
  ((pieces template).getD []).filterMap fun
    | .char _ => none
    | .name s => some s

/-! ### Substitution -/

variable {template : List Char} {m m' : List Char → Option (List Char)}

/-- What a piece becomes. -/
def fill (m : List Char → Option (List Char)) : Piece → List Char
  | .char c => [c]
  | .name s => (m s).getD []

/-- Replace the placeholders; `none` for an invalid template or a name without
a value. -/
def substitute (template : List Char) (m : List Char → Option (List Char)) :
    Option (List Char) :=
  (pieces template).bind fun ps =>
    if ∀ s ∈ names template, (m s).isSome then some (ps.flatMap (fill m)) else none

theorem mem_names {ps : List Piece} (hps : pieces template = some ps) {s : List Char} :
    s ∈ names template ↔ .name s ∈ ps := by
  rw [names, hps, Option.getD_some, List.mem_filterMap]
  constructor
  · rintro ⟨p, hp, he⟩
    cases p with
    | char c => exact absurd he (by simp)
    | name t =>
      obtain rfl : t = s := Option.some.inj he
      exact hp
  · exact fun h => ⟨_, h, rfl⟩

/-- Whether a substitution succeeds depends on which names have a value. -/
theorem isSome_substitute_congr (h : ∀ s, (m s).isSome = (m' s).isSome) :
    (substitute template m).isSome = (substitute template m').isSome := by
  rw [substitute, substitute]
  rcases pieces template with - | ps
  · rfl
  · simp only [Option.bind_some, h]
    split_ifs <;> rfl

/-- A substitution depends on the values of the names in the template. -/
theorem substitute_congr (h : ∀ s ∈ names template, m s = m' s) :
    substitute template m = substitute template m' := by
  rw [substitute, substitute]
  rcases hps : pieces template with - | ps
  · rfl
  · have hsome : (∀ s ∈ names template, (m s).isSome = true) ↔
        ∀ s ∈ names template, (m' s).isSome = true :=
      forall₂_congr fun s hs => by rw [h s hs]
    have hfill : ps.flatMap (fill m) = ps.flatMap (fill m') :=
      List.flatMap_congr fun p hp => by
        cases p with
        | char c => rfl
        | name s => rw [fill, fill, h s ((mem_names hps).mpr hp)]
    simp only [Option.bind_some, hsome, hfill]

/-- **Equal texts come from equal values**, where the values have the same
lengths. -/
theorem eq_of_substitute_eq (hlen : ∀ s, (m s).map List.length = (m' s).map List.length)
    (hsome : (substitute template m).isSome)
    (h : substitute template m = substitute template m') :
    ∀ s ∈ names template, m s = m' s := by
  have hall (s : List Char) : (m s).isSome = (m' s).isSome := by
    have he := congrArg Option.isSome (hlen s)
    rwa [Option.isSome_map, Option.isSome_map] at he
  rw [substitute] at hsome h
  rw [substitute] at h
  rcases hps : pieces template with - | ps
  · rw [hps] at hsome
    exact absurd hsome (by simp)
  · rw [hps] at hsome h
    simp only [Option.bind_some] at hsome h
    by_cases hm : ∀ s ∈ names template, (m s).isSome = true
    · have hm' : ∀ s ∈ names template, (m' s).isSome = true := fun s hs => hall s ▸ hm s hs
      rw [if_pos hm, if_pos hm'] at h
      have hlength (p : Piece) : (fill m p).length = (fill m' p).length := by
        cases p with
        | char c => rfl
        | name s =>
          have hl := hlen s
          rw [fill, fill]
          rcases hs : m s with - | v <;> rcases hs' : m' s with - | v' <;> rw [hs, hs'] at hl
          · exact absurd hl (by simp)
          · exact absurd hl (by simp)
          · exact Option.some.inj hl
      -- pieces of equal lengths can be told apart in the text
      have hfill := List.eq_of_flatMap_eq (fun p _ => hlength p) (Option.some.inj h)
      intro s hs
      have he : (m s).getD [] = (m' s).getD [] := hfill _ ((mem_names hps).mp hs)
      obtain ⟨v, hv⟩ := Option.isSome_iff_exists.mp (hm s hs)
      obtain ⟨v', hv'⟩ := Option.isSome_iff_exists.mp (hm' s hs)
      rw [hv, hv', Option.getD_some, Option.getD_some] at he
      rw [hv, hv', he]
    · rw [if_neg hm] at hsome
      exact absurd hsome (by simp)

end Template
