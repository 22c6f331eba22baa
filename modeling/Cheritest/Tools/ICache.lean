/-
Cheritest/Tools/ICache.lean

The instruction cache part of tools/sim/__init__.py: `ICacheStatus` reads the
tags of the cache, which a simulator prints one to a line, into a list of 512.

An index past the end of the list ends the parsing with an exception, and so
does a tag that no line gives.  A status therefore has all the tags, each one
at its own index, and `icache_status_last_tags` says which: those of the last
lines that give them.
-/
import Cheritest.Tools.Sim

namespace Cheritest.ICache

open Text Pattern Sim

/-! ### The status -/

/-- `([0-9a-fA-F]+)`. -/
def hexNumber : Pattern := group (many isHexDigit 1)

def MIPS_ICACHE_TAG_RE : FasterRegex :=
  ⟨"DEBUG ICACHE TAG ENTRY".toList, (many isSpace 0).seq <| Sim.number.seq <|
    (lit " Valid=".toList).seq <| bit.seq <| (lit " Tag value=".toList).seq <|
    hexNumber.seq atEnd⟩

structure ICacheTag where
  index : ℕ
  valid : Bool
  value : ℕ
  deriving DecidableEq

/-- The constructor of `ICacheTag`, of groups of digits. -/
def ICacheTag.ofStrings (index valid value : List Char) : ICacheTag :=
  ⟨digitsVal 10 index, valid == ['1'], digitsVal 16 value⟩

inductive ICacheError
  /-- The index of a list is out of range. -/
  | indexError
  /-- `Failed to parse icache tag %d from %s`. -/
  | notParsed (i : Fin 512)
  /-- `Not a valid tag index`. -/
  | notAnIndex (key : ℤ)

/-- The list of tags while a log is parsed: a tag that is there is at its own
index. -/
structure Tags where
  tag? : Fin 512 → Option ICacheTag
  index_eq : ∀ i t, tag? i = some t → t.index = i

/-- `[None] * 512`. -/
def Tags.empty : Tags := ⟨fun _ => none, fun _ _ h => nomatch h⟩

/-- `icache_tags[t.index] = t`. -/
def Tags.set (tags : Tags) (t : ICacheTag) (ht : t.index < 512) : Tags where
  tag? := Function.update tags.tag? ⟨t.index, ht⟩ (some t)
  index_eq i t' h := by
    by_cases hi : i = ⟨t.index, ht⟩
    · subst hi
      rw [Function.update_self] at h
      rw [← Option.some.inj h]
    · rw [Function.update_of_ne hi] at h
      exact tags.index_eq i t' h

/-- The first tag that is missing. -/
def Tags.missing (tags : Tags) : Option (Fin 512) :=
  (List.finRange 512).find? fun i => (tags.tag? i).isNone

structure ICacheStatus where
  icache_tags : Tags
  complete : icache_tags.missing = none

/-! ### Parsing -/

/-- The body of the loop of `parse_log`. -/
def parseLine (tags : Tags) (line : List Char) : Except ICacheError Tags :=
  match MIPS_ICACHE_TAG_RE.search (strip line) with
  | some m =>
      let t := ICacheTag.ofStrings (groupAt m 0) (groupAt m 1) (groupAt m 2)
      if ht : t.index < 512 then .ok (tags.set t ht) else .error .indexError
  | none => .ok tags

/-- `parse_log`, from the start of a file. -/
def parse_log (fh : List Char) : Except ICacheError Tags := (fileLines fh).foldlM parseLine .empty

/-- The loop over the tags that ends the constructor. -/
def ICacheStatus.ofTags (tags : Tags) : Except ICacheError ICacheStatus :=
  match h : tags.missing with
  | some i => .error (.notParsed i)
  | none => .ok ⟨tags, h⟩

/-- The constructor of `ICacheStatus`. -/
def ICacheStatus.init (fh : List Char) : Except ICacheError ICacheStatus := do
  ICacheStatus.ofTags (← parse_log fh)

theorem ICacheStatus.isSome_tag (s : ICacheStatus) (i : Fin 512) :
    (s.icache_tags.tag? i).isSome = true := by
  have hmissing := List.find?_eq_none.mp s.complete i (List.mem_finRange i)
  simpa [Option.isSome_iff_ne_none] using hmissing

/-- `__getitem__`, of an integer. -/
def ICacheStatus.getItem (s : ICacheStatus) (key : ℤ) : Except ICacheError ICacheTag :=
  if h : 0 ≤ key ∧ key ≤ 511 then
    .ok ((s.icache_tags.tag? ⟨key.toNat, by omega⟩).get (s.isSome_tag _))
  else .error (.notAnIndex key)

theorem ICacheStatus.getItem_tag {s : ICacheStatus} {i : Fin 512} {t : ICacheTag}
    (h : s.icache_tags.tag? i = some t) : s.getItem (i : ℕ) = .ok t := by
  have hkey : (0 : ℤ) ≤ (i : ℕ) ∧ ((i : ℕ) : ℤ) ≤ 511 := by omega
  unfold getItem
  rw [dif_pos hkey]
  exact congrArg Except.ok (Option.get_of_eq_some _ h)

/-- The constructor keeps the tags or names the first one that is missing. -/
theorem ICacheStatus.ofTags_cases (tags : Tags) :
    (∃ s, ofTags tags = .ok s ∧ s.icache_tags = tags) ∨
    ∃ i, ofTags tags = .error (.notParsed i) ∧ tags.tag? i = none ∧
      ∀ j < i, tags.tag? j ≠ none := by
  unfold ofTags
  split
  case h_1 i h =>
    obtain ⟨hnone, k, hk, hget, hbefore⟩ := List.find?_eq_some_iff_getElem.mp h
    have hki : k = i := by
      rw [← hget, List.getElem_finRange]
      rfl
    refine .inr ⟨i, rfl, Option.isNone_iff_eq_none.mp hnone, fun j hj hj' => ?_⟩
    -- an earlier tag is not missing
    have hat := hbefore j (by omega)
    rw [List.getElem_finRange] at hat
    have hsome : (!(tags.tag? j).isNone) = true := hat
    rw [hj'] at hsome
    cases hsome
  case h_2 h => exact .inl ⟨_, rfl, rfl⟩

/-! ### A log -/

/-- A line that gives a tag, with the white space in it and around it. -/
structure TagLine where
  pre : List Char
  pad : List Char
  index : List Char
  valid : Bool
  value : List Char
  post : List Char
  blank : ∀ c ∈ pre ++ pad ++ post, isSpace c = true ∧ c ≠ '\n'
  index_digits : index ≠ [] ∧ ∀ c ∈ index, c.isDigit = true
  value_digits : value ≠ [] ∧ ∀ c ∈ value, isHexDigit c = true

/-- What follows the heading. -/
def TagLine.fields (l : TagLine) : List Char :=
  l.pad ++ (l.index ++ (" Valid=".toList ++ ([if l.valid then '1' else '0'] ++
    (" Tag value=".toList ++ l.value))))

def TagLine.text (l : TagLine) : List Char :=
  l.pre ++ ("DEBUG ICACHE TAG ENTRY".toList ++ l.fields) ++ l.post

def TagLine.tag (l : TagLine) : ICacheTag := ⟨digitsVal 10 l.index, l.valid, digitsVal 16 l.value⟩

/-- A line of a log. -/
inductive LogLine
  | tag (l : TagLine)
  | other (text : List Char) (newline : '\n' ∉ text)
      (heading : ¬"DEBUG ICACHE TAG ENTRY".toList <+: strip text)

def LogLine.text : LogLine → List Char
  | tag l => l.text
  | other text _ _ => text

def LogLine.tag? : LogLine → Option ICacheTag
  | tag l => some l.tag
  | other _ _ _ => none

def render (log : List LogLine) : List Char := log.flatMap fun l => l.text ++ ['\n']

/-- The tags that a log gives. -/
def tagsOf (log : List LogLine) : List ICacheTag := log.filterMap LogLine.tag?

theorem tagsOf_tag (l : TagLine) (log : List LogLine) :
    tagsOf (.tag l :: log) = l.tag :: tagsOf log := rfl

/-- The last tag that a log gives for an index. -/
def lastTag (log : List LogLine) (i : Fin 512) : Option ICacheTag :=
  ((tagsOf log).filter fun t => t.index = i.val).getLast?

/-- Every tag of the log has a place in the cache. -/
def InRange (log : List LogLine) : Prop := ∀ t ∈ tagsOf log, t.index < 512

/-! ### One line -/

section line
variable {tags : Tags} {rest : List Char}

theorem reads_digits {f : Char → Bool} {s : List Char} (hs : s ≠ [] ∧ ∀ c ∈ s, f c = true)
    (h : ∀ c ∈ rest.head?, f c = false) : Reads (group (many f 1)) [some s] s rest :=
  (reads_many hs.2 h (List.length_pos_iff.mpr hs.1)).group

theorem TagLine.search_fields (l : TagLine) :
    MIPS_ICACHE_TAG_RE.search ("DEBUG ICACHE TAG ENTRY".toList ++ l.fields) =
      some [some l.index, some [if l.valid then '1' else '0'], some l.value] := by
  have hvalue : Reads (hexNumber.seq atEnd) [some l.value] l.value [] :=
    (reads_digits l.value_digits (by simp)).atEnd
  have hbit : ∀ rest, Reads bit [some [if l.valid then '1' else '0']]
      [if l.valid then '1' else '0'] rest := by
    intro rest
    cases l.valid with
    | false => exact (reads_char rfl).group
    | true => exact (reads_char rfl).group
  have hvalid := (reads_lit " Valid=".toList).seq
    ((hbit _).seq ((reads_lit " Tag value=".toList).seq hvalue))
  have hindex := (reads_digits l.index_digits (by rintro c ⟨⟩; rfl)).seq hvalid
  have hpad : Reads (many isSpace 0) [] l.pad
      (l.index ++ (" Valid=".toList ++ ([if l.valid then '1' else '0'] ++
        (" Tag value=".toList ++ l.value))) ++ []) := by
    refine reads_many (fun c hc => (l.blank c (by simp [hc])).1) ?_ (Nat.zero_le _)
    intro c hc
    rw [List.append_assoc, List.head?_append_of_ne_nil _ l.index_digits.1] at hc
    exact isSpace_of_isDigit (l.index_digits.2 c (List.mem_of_mem_head? hc))
  exact search_of_reads (hpad.seq hindex)

example : MIPS_ICACHE_TAG_RE.search "DEBUG ICACHE TAG ENTRY  3 Valid=1 Tag value=1f".toList =
    some [some ['3'], some ['1'], some ['1', 'f']] := by decide

theorem TagLine.strip_text (l : TagLine) :
    strip l.text = "DEBUG ICACHE TAG ENTRY".toList ++ l.fields := by
  apply strip_append
  · exact fun c hc => (l.blank c (by simp [hc])).1
  · exact fun c hc => (l.blank c (by simp [hc])).1
  · simp
  · rintro c ⟨⟩
    rfl
  · unfold TagLine.fields
    simp only [← List.append_assoc]
    exact getLast_digits l.value_digits.1 l.value_digits.2

theorem TagLine.ofStrings (l : TagLine) :
    ICacheTag.ofStrings l.index [if l.valid then '1' else '0'] l.value = l.tag := by
  unfold ICacheTag.ofStrings TagLine.tag
  cases l.valid <;> rfl

/-- A line with a tag sets it. -/
theorem parseLine_tag (l : TagLine) :
    parseLine tags l.text =
      if ht : l.tag.index < 512 then .ok (tags.set l.tag ht) else .error .indexError := by
  unfold parseLine
  rw [l.strip_text, l.search_fields, ← l.ofStrings]
  rfl

/-- Any other line is passed over. -/
theorem parseLine_other {text : List Char}
    (heading : ¬"DEBUG ICACHE TAG ENTRY".toList <+: strip text) :
    parseLine tags text = .ok tags := by
  unfold parseLine
  rw [ search_of_not_prefix heading]

theorem LogLine.newline_not_mem (l : LogLine) : '\n' ∉ l.text := by
  cases l with
  | other text newline _ => exact newline
  | tag l =>
    have hblank : '\n' ∉ l.pre ++ l.pad ++ l.post := fun h => (l.blank _ h).2 rfl
    have hindex : '\n' ∉ l.index := fun h => absurd (l.index_digits.2 _ h) (by decide)
    have hvalue : '\n' ∉ l.value := fun h => absurd (l.value_digits.2 _ h) (by decide)
    show '\n' ∉ l.pre ++ ("DEBUG ICACHE TAG ENTRY".toList ++ l.fields) ++ l.post
    simp only [List.mem_append, not_or] at hblank
    cases hv : l.valid <;> simp [TagLine.fields, hblank, hindex, hvalue, hv]

end line

/-! ### A whole log -/

section run
variable {log : List LogLine} {l : TagLine} {i : Fin 512}

theorem Tags.tag?_set (tags : Tags) (t : ICacheTag) (ht : t.index < 512) (i : Fin 512) :
    (tags.set t ht).tag? i = (if t.index = i.val then some t else none).or (tags.tag? i) := by
  show Function.update tags.tag? ⟨t.index, ht⟩ (some t) i = _
  by_cases hi : t.index = i.val
  · obtain rfl : ⟨t.index, ht⟩ = i := Fin.ext hi
    rw [Function.update_self, if_pos rfl, Option.some_or]
  · rw [Function.update_of_ne fun h => hi (congrArg Fin.val h).symm, if_neg hi, Option.none_or]

theorem lastTag_tag : lastTag (.tag l :: log) i =
    (lastTag log i).or (if l.tag.index = i.val then some l.tag else none) := by
  unfold lastTag
  rw [tagsOf_tag]
  by_cases hi : l.tag.index = i.val
  · rw [List.filter_cons_of_pos (by simpa using hi), if_pos hi, List.getLast?_cons]
    cases (List.filter _ _).getLast? <;> rfl
  · rw [List.filter_cons_of_neg (by simpa using hi), if_neg hi, Option.or_none]

/-- The lines of a log set the last tags, unless one of them is out of range. -/
theorem foldlM_parseLine (log : List LogLine) (tags : Tags) :
    (InRange log → ∃ tags', (log.map LogLine.text).foldlM parseLine tags = .ok tags' ∧
      ∀ i, tags'.tag? i = (lastTag log i).or (tags.tag? i)) ∧
    (¬InRange log → (log.map LogLine.text).foldlM parseLine tags = .error .indexError) := by
  induction log generalizing tags with
  | nil => exact ⟨fun _ => ⟨tags, rfl, fun _ => rfl⟩, fun h => absurd (fun _ ht => nomatch ht) h⟩
  | cons line log ih =>
    rw [List.map_cons, List.foldlM_cons]
    cases line with
    | other text newline heading =>
      rw [show parseLine tags (LogLine.other text newline heading).text = _ from
        parseLine_other heading]
      exact ih tags
    | tag l =>
      have hrange : InRange (.tag l :: log) ↔ l.tag.index < 512 ∧ InRange log := by
        unfold InRange
        rw [tagsOf_tag]
        exact List.forall_mem_cons
      rw [hrange, show parseLine tags (LogLine.tag l).text = _ from parseLine_tag l]
      -- the line sets its tag, and the later lines come over it
      by_cases ht : l.tag.index < 512
      · obtain ⟨hok, herror⟩ := ih (tags.set l.tag ht)
        rw [dif_pos ht]
        constructor
        · rintro ⟨-, hlog⟩
          obtain ⟨tags', hparse, hlast⟩ := hok hlog
          refine ⟨tags', hparse, fun i => ?_⟩
          rw [hlast, Tags.tag?_set, lastTag_tag, Option.or_assoc]
        · exact fun h => herror fun hlog => h ⟨ht, hlog⟩
      · rw [dif_neg ht]
        exact ⟨fun h => absurd h.1 ht, fun _ => rfl⟩

theorem parse_log_render (log : List LogLine) :
    parse_log (render log) = (log.map LogLine.text).foldlM parseLine .empty := by
  have hlines : ∀ t ∈ log.map LogLine.text, '\n' ∉ t := by
    intro t ht
    obtain ⟨l, -, rfl⟩ := List.mem_map.mp ht
    exact l.newline_not_mem
  unfold parse_log render
  rw [← fileLines_lines hlines, List.flatMap_map]

/-- If no tag is out of range, the constructor gets the last ones. -/
theorem init_eq_ofTags (hrange : InRange log) :
    ∃ tags, ICacheStatus.init (render log) = ICacheStatus.ofTags tags ∧
      ∀ i, tags.tag? i = lastTag log i := by
  obtain ⟨tags, hparse, hlast⟩ := (foldlM_parseLine log .empty).1 hrange
  rw [← parse_log_render] at hparse
  refine ⟨tags, ?_, fun i => (hlast i).trans Option.or_none⟩
  unfold ICacheStatus.init
  rw [hparse]
  exact pure_bind tags ICacheStatus.ofTags

end run

/-- The line of a tag, with one blank before the index. -/
def ICacheTag.line (t : ICacheTag) : TagLine where
  pre := []
  pad := [' ']
  index := printNat t.index
  valid := t.valid
  value := Nat.toDigits 16 t.value
  post := []
  blank := by decide
  index_digits := ⟨Nat.toDigits_ne_nil, fun _ hc => isDigit_of_mem_printNat hc⟩
  value_digits := ⟨Nat.toDigits_ne_nil, fun _ hc => isHexDigit_of_mem_toDigits hc⟩

theorem ICacheTag.tag_line (t : ICacheTag) : t.line.tag = t := by
  show (⟨digitsVal 10 (Nat.toDigits 10 t.index), t.valid,
    digitsVal 16 (Nat.toDigits 16 t.value)⟩ : ICacheTag) = t
  rw [digitsVal_toDigits (by decide) (by decide), digitsVal_toDigits (by decide) (by decide)]

/-- The tags of a cache, one after the other. -/
def dump (valid : Fin 512 → Bool) (value : Fin 512 → ℕ) : List LogLine :=
  (List.finRange 512).map fun i : Fin 512 => .tag (ICacheTag.line ⟨i, valid i, value i⟩)

theorem tagsOf_dump (valid : Fin 512 → Bool) (value : Fin 512 → ℕ) :
    tagsOf (dump valid value) =
      (List.finRange 512).map fun i : Fin 512 => ⟨i, valid i, value i⟩ := by
  unfold tagsOf dump
  rw [List.filterMap_map, ← List.filterMap_eq_map]
  apply List.filterMap_congr
  intro i _
  show some (ICacheTag.line ⟨i, valid i, value i⟩).tag = some ⟨i, valid i, value i⟩
  rw [ICacheTag.tag_line]

theorem lastTag_dump (valid : Fin 512 → Bool) (value : Fin 512 → ℕ) (i : Fin 512) :
    lastTag (dump valid value) i = some ⟨i, valid i, value i⟩ := by
  have hone : (List.finRange 512).filter (fun j => j = i) = [i] := by
    rw [List.filter_eq, List.count_eq_one_of_mem (List.nodup_finRange 512) (List.mem_finRange i)]
    rfl
  have hsame : ((fun t : ICacheTag => decide (t.index = i.val)) ∘
      fun j : Fin 512 => (⟨j, valid j, value j⟩ : ICacheTag)) = fun j => decide (j = i) := by
    funext j
    exact decide_eq_decide.mpr Fin.val_inj
  unfold lastTag
  rw [tagsOf_dump, List.filter_map, hsame, hone]
  rfl

/-- The status of a dump is the cache. -/
theorem init_dump (valid : Fin 512 → Bool) (value : Fin 512 → ℕ) :
    ∃ s, ICacheStatus.init (render (dump valid value)) = .ok s ∧
      ∀ i : Fin 512, s.getItem (i : ℕ) = .ok ⟨i, valid i, value i⟩ := by
  have hrange : InRange (dump valid value) := by
    unfold InRange
    rw [tagsOf_dump]
    intro t ht
    obtain ⟨i, -, rfl⟩ := List.mem_map.mp ht
    exact i.isLt
  obtain ⟨tags, hinit, htag⟩ := init_eq_ofTags hrange
  simp only [lastTag_dump] at htag
  rcases ICacheStatus.ofTags_cases tags with ⟨s, hs, rfl⟩ | ⟨i, -, hnone, -⟩
  · exact ⟨s, hinit.trans hs, fun i => ICacheStatus.getItem_tag (htag i)⟩
  · rw [htag] at hnone
    cases hnone

end Cheritest.ICache
