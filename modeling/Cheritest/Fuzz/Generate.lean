/-
Cheritest/Fuzz/Generate.lean

The generation of fuzz tests: generate_tests of fuzzing/fuzz.py.

A test is a template filled in with one combination of the values of its
variables, where the value `random` stands for a number that is drawn.  The
generator of random numbers is seeded with the number of the test, but after
the numbers of this test have been drawn.

So every test but the first of a group draws from a known state, and the first
one draws from whatever state the run, or the group before, has left:
`generate_tests_reproducible` says that a group is generated alike from any
two states exactly if its first test shows no number that has been drawn.

The random module (`Random`) and the order in which a dictionary lists its
keys are parameters.
-/
import Cheritest.Lib.Digits
import Cheritest.Lib.Template

open Text

namespace Cheritest

/-- Python's random module: its states, `seed(n)` and
`randint(0, 0xffffffffffffffff)`. -/
structure Random (S : Type*) where
  seed : ℕ → S
  randint : S → BitVec 64 × S

/-- The number that is drawn after `j` others. -/
def Random.nth {S : Type*} (G : Random S) : ℕ → S → BitVec 64
  | 0, s => (G.randint s).1
  | j + 1, s => G.nth j (G.randint s).2

namespace Fuzz

/-- Values of variables. -/
inductive Value where
  | int (z : ℤ)
  | str (s : List Char)
deriving DecidableEq

/-- The placeholder for a number that is drawn. -/
def Value.random : Value := .str "random".toList

/-- A number that has been drawn, as `0x%016x`. -/
def Value.drawn (x : BitVec 64) : Value := .str ("0x".toList ++ printHex 16 x.toNat)

/-- `%s` of a value. -/
def Value.text : Value → List Char
  | .int z => printInt z
  | .str s => s

/-- The values of the variables, in the order in which the dictionary lists
its keys. -/
abbrev Items := List (List Char × Value)

structure File where
  path : List Char
  content : List Char
deriving DecidableEq

/-- The options of the script that `generate_tests` reads. -/
structure Options where
  count : Bool
  only : List Char
  test_dir : List Char

/-! ### The functions -/

/-- `itertools.product`: the last list varies fastest. -/
def product : List (List Value) → List (List Value)
  | [] => [[]]
  | l :: ls => l.flatMap fun v => (product ls).map (v :: ·)

/-- `dict` of a list of pairs: of two with the same key the later counts. -/
def dict (order : List (List Char) → List (List Char)) (l : Items) : Items :=
  (order (l.map Prod.fst).eraseDups).filterMap fun k => (l.reverse.lookup k).map fun v => (k, v)

/-- `os.path.join`. -/
def pathJoin (a b : List Char) : List Char :=
  if a = [] ∨ a.getLast? = some '/' then a ++ b else a ++ '/' :: b

/-- A line of `params_str`. -/
def paramLine (kv : List Char × Value) : List Char :=
  "# ".toList ++ kv.1 ++ ": ".toList ++
    match kv.2 with
    | .int z => printInt z ++ "==0x".toList ++ Nat.toDigits 16 (z % 2 ^ 64).toNat
    | .str s => s

def params_str (items : Items) : List Char :=
  List.intercalate ['\n'] (items.map paramLine)

/-- What a value of the dictionary is when the template is filled: as many nops
as it says for the key `nops`. -/
def fieldText (k : List Char) : Value → List Char
  | .int z =>
    if k = "nops".toList then (List.replicate z.toNat "\tnop\n".toList).flatten else printInt z
  | .str s => s

/-- The dictionary that fills the template, with `params_str`. -/
def param_dict (items : Items) (k : List Char) : Option (List Char) :=
  if k = "params_str".toList then some (params_str items) else (items.lookup k).map (fieldText k)

/-- Nops cannot be counted by a string. -/
def countsNops (items : Items) : Bool :=
  match items.lookup "nops".toList with
  | some (.str _) => false
  | _ => true

section generate_tests
variable {S : Type*} (G : Random S) (order : List (List Char) → List (List Char))

/-- Replace every `random` by a number that is drawn. -/
def draw : Items → S → Items × S
  | [], s => ([], s)
  | (k, v) :: items, s =>
    if v = Value.random then
      let (x, s) := G.randint s
      let (items, s) := draw items s
      ((k, Value.drawn x) :: items, s)
    else
      let (items, s) := draw items s
      ((k, v) :: items, s)

section group
variable (options : Options) (group template : List Char)

/-- `test_asm_path` of test number `test_no`. -/
def test_asm_path (test_no : ℕ) : List Char :=
  let number := printNat test_no
  let test_name := "test_fuzz_".toList ++ group ++ ['_'] ++
    List.replicate (8 - number.length) '0' ++ number
  pathJoin options.test_dir test_name ++ ".s".toList

/-- Write one test; no state is left where an exception is raised. -/
def writeTest (test_no : ℕ) (items : Items) (s : S) : List File × Option S :=
  let (items, _) := draw G items s
  if countsNops items then
    -- the numbers of this test are drawn by now
    let s := G.seed test_no
    let path := test_asm_path options group test_no
    match Template.substitute template (param_dict items) with
    | none => ([⟨path, []⟩], none)
    | some content => ([⟨path, content⟩], some s)
  else ([], none)

/-- Write the tests from a number on. -/
def writeTests (names : List (List Char)) :
    ℕ → List (List Value) → S → List File × Option (ℕ × S)
  | test_no, [], s => ([], some (test_no, s))
  | test_no, params :: rest, s =>
    match writeTest G options group template test_no (dict order (names.zip params)) s with
    | (files, none) => (files, none)
    | (files, some s) =>
      let (files', result) := writeTests names (test_no + 1) rest s
      (files ++ files', result)

/-- A group is skipped if tests are only counted, or another group is asked for. -/
def skips : Bool := options.count || (options.only ≠ [] && group ≠ options.only)

/-- Generate the tests of a group: the files that are written, and the result
with the state of the random module, where no exception is raised. -/
def generate_tests (variables' : List (List Char × List Value)) (s : S) :
    List File × Option (ℕ × S) :=
  if variables' = [] then ([], none)  -- reduce of an empty list
  else if skips options group then
    ([], some (if options.count then (variables'.map fun v => v.2.length).prod else 0, s))
  else
    writeTests G order options group template (variables'.map Prod.fst) 0
      (product (variables'.map Prod.snd)) s

end group

end generate_tests

/-! ### What is drawn -/

section draw
variable {S : Type*} {G : Random S} {items : Items} {k : List Char} {v : Value}

theorem drawn_injective {x y : BitVec 64} (h : Value.drawn x = Value.drawn y) : x = y := by
  have hs := List.append_cancel_left (Value.str.inj h)
  have hn := congrArg (digitsVal 16) hs
  rw [digitsVal_printHex, digitsVal_printHex] at hn
  exact BitVec.eq_of_toNat_eq hn

/-- Two values that cannot be told apart by their length: the same one, or two
numbers that have been drawn. -/
def Alike (v w : Value) : Prop := v = w ∨ ∃ x y, v = .drawn x ∧ w = .drawn y

theorem length_drawn (x : BitVec 64) : (Value.drawn x).text.length = 18 := by
  have hlen := length_printHex (w := 16) (by decide) (lt_of_lt_of_eq x.isLt (by decide))
  show ("0x".toList ++ printHex 16 x.toNat).length = 18
  rw [List.length_append, hlen]
  rfl

theorem Alike.length_text {v w : Value} (h : Alike v w) : v.text.length = w.text.length := by
  obtain rfl | ⟨x, y, rfl, rfl⟩ := h
  · rfl
  · rw [length_drawn, length_drawn]

theorem Alike.length_paramLine {v w : Value} (h : Alike v w) (k : List Char) :
    (paramLine (k, v)).length = (paramLine (k, w)).length := by
  have hl := h.length_text
  obtain rfl | ⟨x, y, rfl, rfl⟩ := h
  · rfl
  · exact (List.length_append).trans ((congrArg _ hl).trans List.length_append.symm)

/-- Dictionaries with the same keys, and values that are related. -/
def Related (R : Value → Value → Prop) : Items → Items → Prop :=
  List.Forall₂ fun a b => a.1 = b.1 ∧ R a.2 b.2

/-- Drawing again gives alike values to the same keys. -/
theorem draw_alike (items : Items) (s s' : S) :
    Related Alike (draw G items s).1 (draw G items s').1 := by
  induction items generalizing s s' with
  | nil => exact .nil
  | cons kv items ih =>
    obtain ⟨k, v⟩ := kv
    by_cases hv : v = Value.random
    · rw [draw, draw, if_pos hv, if_pos hv]
      exact .cons ⟨rfl, .inr ⟨_, _, rfl, rfl⟩⟩ (ih _ _)
    · rw [draw, draw, if_neg hv, if_neg hv]
      exact .cons ⟨rfl, .inl rfl⟩ (ih _ _)

/-- Drawing replaces strings by strings. -/
theorem draw_kind (items : Items) (s : S) :
    Related (fun v w => v = w ∨ ∃ t u, v = .str t ∧ w = .str u) items (draw G items s).1 := by
  induction items generalizing s with
  | nil => exact .nil
  | cons kv items ih =>
    obtain ⟨k, v⟩ := kv
    by_cases hv : v = Value.random
    · rw [draw, if_pos hv]
      exact .cons ⟨rfl, .inr ⟨_, _, hv, rfl⟩⟩ (ih _)
    · rw [draw, if_neg hv]
      exact .cons ⟨rfl, .inl rfl⟩ (ih _)

/-- A value that is not `random` stays. -/
theorem lookup_draw_of_ne (h : items.lookup k = some v) (hv : v ≠ Value.random) (s : S) :
    (draw G items s).1.lookup k = some v := by
  induction items generalizing s with
  | nil => exact absurd h (by simp)
  | cons kv items ih =>
    obtain ⟨k', w⟩ := kv
    rw [List.lookup_cons] at h
    rcases hk : k == k' with - | - <;> rw [hk] at h
    · rw [draw]
      split_ifs <;> exact (List.lookup_cons.trans (by rw [hk])).trans (ih h _)
    · obtain rfl : w = v := Option.some.inj h
      rw [draw, if_neg hv]
      exact List.lookup_cons.trans (by rw [hk])

/-- A `random` becomes the number that is drawn when its turn comes. -/
theorem lookup_draw_random (h : items.lookup k = some Value.random) :
    ∃ j, ∀ s, (draw G items s).1.lookup k = some (.drawn (G.nth j s)) := by
  induction items with
  | nil => exact absurd h (by simp)
  | cons kv items ih =>
    obtain ⟨k', w⟩ := kv
    rw [List.lookup_cons] at h
    rcases hk : k == k' with - | - <;> rw [hk] at h
    · obtain ⟨j, hj⟩ := ih h
      by_cases hw : w = Value.random
      · refine ⟨j + 1, fun s => ?_⟩
        rw [draw, if_pos hw]
        exact (List.lookup_cons.trans (by rw [hk])).trans (hj _)
      · refine ⟨j, fun s => ?_⟩
        rw [draw, if_neg hw]
        exact (List.lookup_cons.trans (by rw [hk])).trans (hj s)
    · obtain rfl : w = Value.random := Option.some.inj h
      refine ⟨0, fun s => ?_⟩
      rw [draw, if_pos rfl]
      refine List.lookup_cons.trans ?_
      rw [hk]
      rfl

/-- Without a `random` nothing is drawn. -/
theorem draw_eq_self (h : ∀ kv ∈ items, kv.2 ≠ Value.random) (s : S) :
    (draw G items s).1 = items := by
  induction items generalizing s with
  | nil => rfl
  | cons kv items ih =>
    obtain ⟨hkv, h⟩ := List.forall_mem_cons.mp h
    rw [draw, if_neg hkv]
    exact congrArg _ (ih h s)

theorem Related.lookup {R : Value → Value → Prop} {a b : Items} (h : Related R a b)
    (k : List Char) :
    a.lookup k = none ∧ b.lookup k = none ∨
      ∃ v w, a.lookup k = some v ∧ b.lookup k = some w ∧ R v w := by
  induction h with
  | nil => exact .inl ⟨rfl, rfl⟩
  | @cons x y a b hxy h ih =>
    obtain ⟨k', v⟩ := x
    obtain ⟨k'', w⟩ := y
    obtain ⟨rfl, hvw⟩ := hxy
    rw [List.lookup_cons, List.lookup_cons]
    rcases k == k' with - | -
    · exact ih
    · exact .inr ⟨v, w, rfl, rfl, hvw⟩

/-- Whether a test can be written does not depend on what is drawn. -/
theorem countsNops_draw (items : Items) (s : S) :
    countsNops (draw G items s).1 = countsNops items := by
  rw [countsNops, countsNops]
  rcases (draw_kind (G := G) items s).lookup "nops".toList with
    ⟨h, h'⟩ | ⟨v, w, h, h', rfl | ⟨t, u, rfl, rfl⟩⟩
  · rw [h, h']
  · rw [h, h']
  · rw [h, h']

theorem isSome_param_dict_draw (items : Items) (s : S) (k : List Char) :
    (param_dict (draw G items s).1 k).isSome = (param_dict items k).isSome := by
  rw [param_dict, param_dict]
  split_ifs
  · rfl
  · rcases (draw_kind (G := G) items s).lookup k with ⟨h, h'⟩ | ⟨v, w, h, h', -⟩
    · rw [h, h']
    · rw [h, h']
      rfl

theorem Related.length_lines {a b : Items} (h : Related Alike a b) :
    (a.map paramLine).map List.length = (b.map paramLine).map List.length := by
  induction h with
  | nil => rfl
  | @cons x y a b hxy h ih =>
    obtain ⟨k, v⟩ := x
    obtain ⟨k', w⟩ := y
    obtain ⟨rfl, hvw⟩ := hxy
    simp only [List.map_cons, ih, hvw.length_paramLine k]

/-- What is drawn does not change the length of any text. -/
theorem Related.length_param_dict {a b : Items} (h : Related Alike a b) (k : List Char) :
    (param_dict a k).map List.length = (param_dict b k).map List.length := by
  rw [param_dict, param_dict]
  split_ifs
  · exact congrArg some (List.length_intercalate h.length_lines)
  · rcases h.lookup k with ⟨h, h'⟩ | ⟨v, w, h, h', hvw⟩
    · rw [h, h']
    · have hl := hvw.length_text
      rw [h, h']
      obtain rfl | ⟨x, y, rfl, rfl⟩ := hvw
      · rfl
      · exact congrArg some hl

/-- The same parameters come from the same values. -/
theorem Related.eq_of_params_str {a b : Items} (h : Related Alike a b)
    (he : params_str a = params_str b) : a = b := by
  have hlines := List.eq_of_intercalate_eq h.length_lines he
  clear he
  induction h with
  | nil => rfl
  | @cons x y a b hxy h ih =>
    obtain ⟨k, v⟩ := x
    obtain ⟨k', w⟩ := y
    obtain ⟨rfl, hvw⟩ := hxy
    obtain ⟨hline, hlines⟩ := List.cons.inj hlines
    have heq : v = w := by
      obtain rfl | ⟨x, y, rfl, rfl⟩ := hvw
      · rfl
      · exact congrArg Value.str (List.append_cancel_left hline)
    rw [heq, ih hlines]

/-- The first number that is drawn can be read from the values. -/
theorem nth_eq_of_draw_eq {s s' : S} (hdrawn : ∃ kv ∈ items, kv.2 = Value.random)
    (h : (draw G items s).1 = (draw G items s').1) : G.nth 0 s = G.nth 0 s' := by
  induction items with
  | nil =>
    obtain ⟨kv, hkv, -⟩ := hdrawn
    exact absurd hkv List.not_mem_nil
  | cons kv items ih =>
    by_cases hv : kv.2 = Value.random
    · rw [draw, draw, if_pos hv, if_pos hv] at h
      exact drawn_injective (Prod.mk.inj (List.cons.inj h).1).2
    · rw [draw, draw, if_neg hv, if_neg hv] at h
      obtain ⟨kv', hmem, hr⟩ := hdrawn
      rcases List.mem_cons.mp hmem with rfl | hmem
      · exact absurd hr hv
      · exact ih ⟨kv', hmem, hr⟩ (List.cons.inj h).2

end draw

/-! ### Reproducible tests -/

section reproducible
variable {S : Type*} {G : Random S} {order : List (List Char) → List (List Char)}
  {options : Options} {group template : List Char} {items : Items}

/-- A test that is written shows a number that is drawn, by itself or in the
list of parameters. -/
def ShowsDraw (template : List Char) (items : Items) : Prop :=
  countsNops items = true ∧ (Template.substitute template (param_dict items)).isSome = true ∧
    ((∃ kv ∈ items, kv.2 = Value.random) ∧ "params_str".toList ∈ Template.names template ∨
      ∃ k ∈ Template.names template, items.lookup k = some Value.random)

theorem isSome_substitute_draw (template : List Char) (items : Items) (s : S) :
    (Template.substitute template (param_dict (draw G items s).1)).isSome
      = (Template.substitute template (param_dict items)).isSome :=
  Template.isSome_substitute_congr (isSome_param_dict_draw items s)

/-- What a test is written to, from its text. -/
theorem writeTest_eq (n : ℕ) (s : S) :
    writeTest G options group template n items s =
      if countsNops items then
        if (Template.substitute template (param_dict items)).isSome then
          ([⟨test_asm_path options group n,
            (Template.substitute template (param_dict (draw G items s).1)).getD []⟩],
            some (G.seed n))
        else ([⟨test_asm_path options group n, []⟩], none)
      else ([], none) := by
  rw [← countsNops_draw (G := G) items s, ← isSome_substitute_draw (G := G) template items s,
    writeTest]
  rcases draw G items s with ⟨drawn, t⟩
  simp only
  rcases Template.substitute template (param_dict drawn) with - | content
  · rfl
  · rfl

/-- The state behind a test does not depend on the one before it. -/
theorem writeTest_snd (n : ℕ) (s s' : S) :
    (writeTest G options group template n items s).2
      = (writeTest G options group template n items s').2 := by
  rw [writeTest_eq, writeTest_eq]
  split_ifs <;> rfl

/-- A test is written alike from any two states exactly if it shows no number
that is drawn. -/
theorem writeTest_eq_iff (options : Options) (group : List Char)
    (hG : ∀ j, ∃ s s', G.nth j s ≠ G.nth j s') (n : ℕ) :
    (∀ s s', (writeTest G options group template n items s).1
        = (writeTest G options group template n items s').1) ↔
      ¬ ShowsDraw template items := by
  constructor
  · rintro hsame ⟨hnops, hsome, hshown⟩
    -- texts of equal lengths: equal files have equal parameters
    have htext (s s' : S) : ∀ k ∈ Template.names template,
        param_dict (draw G items s).1 k = param_dict (draw G items s').1 k := by
      have he := hsame s s'
      rw [writeTest_eq, writeTest_eq, if_pos hnops, if_pos hsome, if_pos hnops, if_pos hsome] at he
      have hs := isSome_substitute_draw (G := G) template items s
      have hs' := isSome_substitute_draw (G := G) template items s'
      obtain ⟨t, ht⟩ := Option.isSome_iff_exists.mp (hs.trans hsome)
      obtain ⟨t', ht'⟩ := Option.isSome_iff_exists.mp (hs'.trans hsome)
      have heq : t = t' := by
        have hfile := (List.cons.inj he).1
        rw [ht, ht'] at hfile
        exact (File.mk.inj hfile).2
      exact Template.eq_of_substitute_eq (draw_alike items s s').length_param_dict
        (hs.trans hsome) (ht.trans (heq ▸ ht'.symm))
    -- two states that draw differently show it in the list of parameters
    have hparams (hmem : ∃ kv ∈ items, kv.2 = Value.random)
        (hname : "params_str".toList ∈ Template.names template) : False := by
      obtain ⟨s, s', hne⟩ := hG 0
      have he := htext s s' _ hname
      rw [param_dict, param_dict, if_pos rfl, if_pos rfl] at he
      exact hne (nth_eq_of_draw_eq hmem
        ((draw_alike items s s').eq_of_params_str (Option.some.inj he)))
    rcases hshown with ⟨hmem, hname⟩ | ⟨k, hname, hk⟩
    · exact hparams hmem hname
    · -- a parameter of its own name, or the list of all
      by_cases hps : k = "params_str".toList
      · obtain ⟨l₁, l₂, hl, -⟩ := List.lookup_eq_some_iff.mp hk
        have hmem : (k, Value.random) ∈ items := by simp [hl]
        exact hparams ⟨_, hmem, rfl⟩ (hps ▸ hname)
      · obtain ⟨j, hj⟩ := lookup_draw_random (G := G) hk
        obtain ⟨s, s', hne⟩ := hG j
        have he := htext s s' k hname
        rw [param_dict, param_dict, if_neg hps, if_neg hps, hj, hj] at he
        exact hne (drawn_injective (congrArg Value.str (Option.some.inj he)))
  · intro hno s s'
    rw [writeTest_eq, writeTest_eq]
    split_ifs with hnops hsome
    · refine congrArg (fun t : Option (List Char) => [File.mk _ (t.getD [])]) ?_
      refine Template.substitute_congr fun k hk => ?_
      have hshows (h : _ ∨ _) : False := hno ⟨hnops, hsome, h⟩
      rw [param_dict, param_dict]
      split_ifs with hps
      · -- the list of parameters is shown, so that nothing is drawn
        have hnone : ∀ kv ∈ items, kv.2 ≠ Value.random := fun kv hkv hr =>
          hshows (.inl ⟨⟨kv, hkv, hr⟩, hps ▸ hk⟩)
        rw [draw_eq_self hnone, draw_eq_self hnone]
      · rcases hl : items.lookup k with - | v
        · have hnone (s : S) : (draw G items s).1.lookup k = none := by
            rcases (draw_kind (G := G) items s).lookup k with ⟨-, h⟩ | ⟨v, -, h, -⟩
            · exact h
            · rw [hl] at h
              exact absurd h (by simp)
          rw [hnone, hnone]
        · have hv : v ≠ Value.random := fun hv => hshows (.inr ⟨k, hk, hv ▸ hl⟩)
          rw [lookup_draw_of_ne hl hv, lookup_draw_of_ne hl hv]
    · rfl
    · rfl

/-- The tests behind the first one are those of the state that its number
seeds. -/
theorem writeTests_cons (names : List (List Char)) (n : ℕ) (params : List Value)
    (rest : List (List Value)) (s s₀ : S) :
    (writeTests G order options group template names n (params :: rest) s).1
      = (writeTest G options group template n (dict order (names.zip params)) s).1 ++
        match (writeTest G options group template n (dict order (names.zip params)) s₀).2 with
        | none => []
        | some t => (writeTests G order options group template names (n + 1) rest t).1 := by
  rw [writeTest_snd n s₀ s, writeTests]
  rcases writeTest G options group template n (dict order (names.zip params)) s with
    ⟨files, - | t⟩
  · exact (List.append_nil files).symm
  · rfl

/-- The first file of a group is that of its first test. -/
theorem generate_tests_zero {variables' : List (List Char × List Value)} {params : List Value}
    (hskip : skips options group = false) (hvars : variables' ≠ [])
    (hhead : (product (variables'.map Prod.snd)).head? = some params) (s : S) :
    (generate_tests G order options group template variables' s).1[0]?
      = (writeTest G options group template 0
          (dict order ((variables'.map Prod.fst).zip params)) s).1[0]? := by
  obtain ⟨rest, hproduct⟩ : ∃ rest, product (variables'.map Prod.snd) = params :: rest := by
    rcases hp : product (variables'.map Prod.snd) with - | ⟨p, rest⟩ <;> rw [hp] at hhead
    · exact absurd hhead (by simp)
    · exact ⟨rest, congrArg (· :: rest) (Option.some.inj hhead)⟩
  rw [generate_tests, if_neg hvars, hskip, if_neg (by simp), hproduct, writeTests_cons _ _ _ _ s s,
    writeTest_eq]
  split_ifs <;> rfl

/-- The first test of a group shows a number that is drawn. -/
def FirstShowsDraw (order : List (List Char) → List (List Char)) (options : Options)
    (group template : List Char) (variables' : List (List Char × List Value)) : Prop :=
  skips options group = false ∧ variables' ≠ [] ∧
    ∃ params, (product (variables'.map Prod.snd)).head? = some params ∧
      ShowsDraw template (dict order ((variables'.map Prod.fst).zip params))

/-- **When fuzz tests are reproducible.**  Two runs from any two states of the
random module write the same content for every number exactly if the first
test of the group shows no number that is drawn. -/
theorem generate_tests_reproducible (hG : ∀ j, ∃ s s', G.nth j s ≠ G.nth j s')
    (variables' : List (List Char × List Value)) :
    (∀ (s s' : S) (n : ℕ), (generate_tests G order options group template variables' s).1[n]?
        = (generate_tests G order options group template variables' s').1[n]?) ↔
      ¬ FirstShowsDraw order options group template variables' := by
  -- two runs agree on every number if and only if they write the same list
  simp only [← List.ext_getElem?_iff]
  by_cases hvars : variables' = []
  · refine iff_of_true (fun s s' => ?_) fun h => h.2.1 hvars
    rw [generate_tests, generate_tests, if_pos hvars, if_pos hvars]
  rcases hskip : skips options group with - | -
  · rcases hproduct : product (variables'.map Prod.snd) with - | ⟨params, rest⟩
    · refine iff_of_true (fun s s' => ?_) ?_
      · rw [generate_tests, generate_tests, if_neg hvars, if_neg hvars, hproduct, hskip]
        rfl
      · rintro ⟨-, -, params, hhead, -⟩
        rw [hproduct] at hhead
        exact absurd hhead (by simp)
    · have hrun (s : S) : (generate_tests G order options group template variables' s).1
          = (writeTests G order options group template (variables'.map Prod.fst) 0
              (params :: rest) s).1 := by
        rw [generate_tests, if_neg hvars, hskip, if_neg (by simp), hproduct]
      have hfirst : FirstShowsDraw order options group template variables' ↔
          ShowsDraw template (dict order ((variables'.map Prod.fst).zip params)) := by
        rw [FirstShowsDraw, hproduct]
        constructor
        · rintro ⟨-, -, params', hhead, h⟩
          obtain rfl : params = params' := Option.some.inj hhead
          exact h
        · exact fun h => ⟨hskip, hvars, params, rfl, h⟩
      rw [hfirst, ← writeTest_eq_iff options group hG 0]
      refine forall₂_congr fun s s' => ?_
      rw [hrun, hrun, writeTests_cons _ _ _ _ s s, writeTests_cons _ _ _ _ s' s,
        List.append_left_inj]
  · refine iff_of_true (fun s s' => ?_) fun h => absurd h.1 (by simp [hskip])
    rw [generate_tests, generate_tests, if_neg hvars, if_neg hvars, hskip]
    rfl

end reproducible

/-! ### Two groups -/

/-- A list of values as `make_list` reads it. -/
def strs (l : List String) : List Value := l.map fun s => .str s.toList

def interesting_reg_values : List Value :=
  strs ["0", "0x8000000000000000", "0x1", "0xffffffffffffffff", "0xffffffff80000000",
    "0x000000007fffffff", "0x7fffffffffffffff", "random"]

def reg_reg_ops : List Value :=
  strs ["ADD", "ADDU", "SUB", "SUBU", "SLT", "SLTU", "AND", "OR", "XOR", "NOR", "SLLV", "SRA",
    "SRL", "DADD", "DADDU", "DSUB", "DSUBU", "DSLLV", "DSRA", "DSRL", "MOVZ", "MOVN", "MUL"]

section groups
variable {S : Type*} (G : Random S) (order : List (List Char) → List (List Char))
  (options : Options)

/-- The text of a file, from its lines. -/
def unlines (l : List String) : List Char := l.flatMap fun s => s.toList ++ ['\n']

/-- alu_two_reg_template.txt behind its header. -/
def alu_two_reg_template : List Char :=
  unlines
    [ "$params_str"
    , ""
    , ".set mips64"
    , ".set noreorder"
    , ".set nobopt"
    , ".set noat"
    , ""
    , ".global test"
    , "test:   .ent    test"
    , "\tdli     $$a0, $a0_val"
    , "\tdli     $$a1, $a1_val"
    , "\t$op0\t$rd0, $rs0, $rt0"
    , "$nops"
    , "\t$op1\t$rd1, $rs1, $rt1"
    , "\tjr\t$$ra"
    , "\tnop"
    , "        .end    test" ]

/-- alu_single_reg_template.txt behind its header. -/
def alu_single_reg_template : List Char :=
  unlines
    [ "$params_str"
    , ""
    , ".set mips64"
    , ".set noreorder"
    , ".set nobopt"
    , ".set noat"
    , ""
    , ".global test"
    , "test:   .ent    test"
    , "\tdli     $$a0, $a0_val"
    , "\tdli     $$a1, $a1_val"
    , ""
    , "\t# Try different combinations of the two source"
    , " \t# registers. This doesn't actually add much but"
    , "        # doesn't cost anything either."
    , "\t$op0\t$$a2, $$a0, $$a0"
    , "\t$op0\t$$a3, $$a0, $$a1"
    , "\t$op0\t$$a4, $$a1, $$a0"
    , "\t$op0\t$$a5, $$a1, $$a1"
    , ""
    , "\tjr\t$$ra"
    , "\tnop"
    , "        .end    test" ]

def arithmetic_variables : List (List Char × List Value) :=
  [ ("a0_val".toList, strs ["random"])
  , ("a1_val".toList, strs ["random"])
  , ("op0".toList, reg_reg_ops)
  , ("rd0".toList, strs ["$a0"])
  , ("rs0".toList, strs ["$zero", "$a0", "$a1"])
  , ("rt0".toList, strs ["$zero", "$a0", "$a1"])
  , ("op1".toList, reg_reg_ops)
  , ("rd1".toList, strs ["$a1"])
  , ("rs1".toList, strs ["$a0", "$a1"])
  , ("rt1".toList, strs ["$a0", "$a1"])
  , ("nops".toList, [.int 0, .int 1, .int 2, .int 4]) ]

def generate_arithmetic (s : S) : List File × Option (ℕ × S) :=
  generate_tests G order options "alu_two_reg".toList alu_two_reg_template arithmetic_variables s

def arithmetic_single_variables : List (List Char × List Value) :=
  [ ("op0".toList, reg_reg_ops)
  , ("a0_val".toList, interesting_reg_values)
  , ("a1_val".toList, interesting_reg_values) ]

def generate_arithmetic_single_reg_reg (s : S) : List File × Option (ℕ × S) :=
  generate_tests G order options "alu_single_reg".toList alu_single_reg_template
    arithmetic_single_variables s

end groups

/-- A random module whose states are the numbers to come. -/
def ofSequences (seed : ℕ → ℕ → BitVec 64) : Random (ℕ → BitVec 64) where
  seed := seed
  randint s := (s 0, fun i => s (i + 1))

theorem nth_ofSequences (seed : ℕ → ℕ → BitVec 64) (j : ℕ) (s : ℕ → BitVec 64) :
    (ofSequences seed).nth j s = s j := by
  induction j generalizing s with
  | zero => rfl
  | succ j ih => exact ih _

theorem ofSequences_differs (seed : ℕ → ℕ → BitVec 64) (j : ℕ) :
    ∃ s s', (ofSequences seed).nth j s ≠ (ofSequences seed).nth j s' := by
  refine ⟨fun _ => 0, fun _ => 1, ?_⟩
  rw [nth_ofSequences, nth_ofSequences]
  decide

/-- The first numbers behind `random.seed(0)` and `random.seed(1)`. -/
def firstNumbers (n i : ℕ) : BitVec 64 :=
  if (n, i) = (0, 0) then 0x6baa9455e3e70682
  else if (n, i) = (0, 1) then 0xd4713d60c8a70639
  else if (n, i) = (1, 0) then 0xc386bbc4cd613e30
  else if (n, i) = (1, 1) then 0x1e2feb89414c343c
  else 0

/-- How a dictionary lists the keys of the two groups. -/
def dictOrder (keys : List (List Char)) : List (List Char) :=
  if keys = ["op0", "a0_val", "a1_val"].map String.toList then
    ["a1_val", "op0", "a0_val"].map String.toList
  else if keys = arithmetic_variables.map Prod.fst then
    ["op0", "rd0", "nops", "a0_val", "rt1", "rt0", "a1_val", "rd1", "rs0", "rs1", "op1"].map
      String.toList
  else keys

/-- The default options. -/
def defaults : Options := ⟨false, [], "tests/fuzz".toList⟩

/-- The values of the first test of `generate_arithmetic`. -/
def firstArithmetic : List Value :=
  strs ["random", "random", "ADD", "$a0", "$zero", "$zero", "ADD", "$a1", "$a0", "$a0"] ++ [.int 0]

/-- The first test of `generate_arithmetic` shows what the state before gives. -/
theorem generate_arithmetic_differs :
    (generate_arithmetic (ofSequences firstNumbers) dictOrder defaults (firstNumbers 0)).1[0]?
      ≠ (generate_arithmetic (ofSequences firstNumbers) dictOrder defaults
          (firstNumbers 1)).1[0]? := by
  have hhead : (product (arithmetic_variables.map Prod.snd)).head? = some firstArithmetic := rfl
  have hne : arithmetic_variables ≠ [] := List.cons_ne_nil _ _
  rw [generate_arithmetic, generate_arithmetic, generate_tests_zero rfl hne hhead,
    generate_tests_zero rfl hne hhead]
  decide +kernel

/-- Two tests of a group: the first draws nothing, the second one number. -/
def twoTests : List (List Char × List Value) :=
  [ ("op0".toList, strs ["ADD"])
  , ("a0_val".toList, strs ["0", "random"])
  , ("a1_val".toList, strs ["0"]) ]

theorem generate_tests_reproducible_two :
    let G := ofSequences firstNumbers
    let generate := generate_tests G dictOrder defaults "alu_single_reg".toList
      alu_single_reg_template twoTests
    (generate (firstNumbers 0)).1.length = 2 ∧
      ∀ (s s' : ℕ → BitVec 64) (n : ℕ), (generate s).1[n]? = (generate s').1[n]? := by
  refine ⟨by decide +kernel, (generate_tests_reproducible (ofSequences_differs _) twoTests).mpr ?_⟩
  rintro ⟨-, -, params, hhead, -, -, hshown⟩
  obtain rfl : strs ["ADD", "0", "0"] = params := Option.some.inj hhead
  revert hshown
  decide +kernel

end Fuzz

end Cheritest
