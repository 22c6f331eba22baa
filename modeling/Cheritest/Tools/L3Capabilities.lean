/-
Cheritest/Tools/L3Capabilities.lean

Capability registers in a log of the L3 simulator, through `l3tosim` and the
parser.

The simulator prints its capability registers in the format that the parser
reads, and the filter passes these lines on.  It does not look into them, so a
core number in this part of the log changes the thread of the parser and not
the core of the filter: each line is read under a pair of the two (`Current`).
`parse_main_events`: filtering a log and parsing the result comes to applying
its lines, one after the other.  So every field of every entry is the last
value that the log writes to it, and missing if there is none
(`l3_last_values`).
-/
import Cheritest.Tools.L3Log

namespace Cheritest.L3tosim

open Text Sim Pattern

/-! ### Capability lines -/

/-- A capability as it is printed: the tag, the sealed bit with its letter,
the fields in hexadecimal, and the `uninit` bit. -/
structure CapDump where
  t : Bool
  letter : Bool
  s : Bool
  perms : List Char
  ctype : List Char
  offset : Hex16
  base : Hex16
  length : Hex16
  uninit : Bool
  perms_hex : perms ≠ [] ∧ ∀ c ∈ perms, isHexDigit c = true
  ctype_hex : ctype ≠ [] ∧ ∀ c ∈ ctype, isHexDigit c = true

def bitText (b : Bool) : List Char := if b then ['1'] else ['0']

/-- `k + 1` blanks. -/
def blanks (k : ℕ) : List Char := List.replicate (k + 1) ' '

/-- The text of a capability, with `k + 1` blanks after the tag. -/
def CapDump.text (c : CapDump) (k : ℕ) : List Char :=
  "t:".toList ++ (bitText c.t ++ (blanks k ++ ((if c.letter then ['s'] else ['u']) ++ (":".toList ++
    (bitText c.s ++ (" perms:".toList ++ (("0x".toList ++ c.perms) ++ (" type:".toList ++
    (("0x".toList ++ c.ctype) ++ (" offset:".toList ++ (("0x".toList ++ c.offset.digits) ++
    (" base:".toList ++ (("0x".toList ++ c.base.digits) ++ (" length:".toList ++
    (("0x".toList ++ c.length.digits) ++ (" uninit:".toList ++ bitText c.uninit))))))))))))))))

/-- What it stands for. -/
def CapDump.val (c : CapDump) : Capability where
  t := c.t.toNat
  s := c.s.toNat
  perms := digitsVal 16 c.perms
  ctype := digitsVal 16 c.ctype
  offset := c.offset.val
  base := c.base.val
  length := c.length.val
  uninit := c.uninit.toNat

/-- The name of a hardware register. -/
structure HwName where
  chars : List Char
  ne_nil : chars ≠ []
  word : ∀ c ∈ chars, isWord c = true

/-- A line of the capability part of a log; the numbers are those of the
blanks in it. -/
inductive CapLine
  | core (k : ℕ) (id : ℕ)
  | reg (k k' k'' : ℕ) (r : Fin 32) (c : CapDump)
  | hwreg (k k' : ℕ) (name : Option (HwName × ℕ)) (k'' : ℕ) (r : Fin 32) (c : CapDump)
  | pcc (k k' : ℕ) (c : CapDump)

/-- The name of a hardware register in brackets, and the blanks after it. -/
def nameText : Option (HwName × ℕ) → List Char
  | none => []
  | some (name, k) => "(".toList ++ (name.chars ++ ")".toList) ++ List.replicate k ' '

/-- The group that the name is. -/
def nameGroup : Option (HwName × ℕ) → Option (List Char)
  | none => none
  | some (name, _) => some ("(".toList ++ (name.chars ++ ")".toList))

def CapLine.text : CapLine → List Char
  | core k id => "DEBUG CAP COREID".toList ++ (blanks k ++ printNat id)
  | reg k k' k'' r c =>
      "DEBUG CAP REG".toList ++ (blanks k ++ (printNat r ++ (blanks k' ++ c.text k'')))
  | hwreg k k' name k'' r c =>
      "DEBUG CAP HWREG".toList ++
        (blanks k ++ (printNat r ++ (blanks k' ++ (nameText name ++ c.text k''))))
  | pcc k k' c => "DEBUG CAP PCC".toList ++ (blanks k ++ c.text k')

section text
variable (k k' k'' id : ℕ) (r : Fin 32) (c : CapDump)

theorem CapLine.text_core :
    (CapLine.core k id).text = "DEBUG CAP COREID".toList ++ (blanks k ++ printNat id) := rfl

theorem CapLine.text_reg : (CapLine.reg k k' k'' r c).text =
    "DEBUG CAP REG".toList ++ (blanks k ++ (printNat r ++ (blanks k' ++ c.text k''))) := rfl

theorem CapLine.text_hwreg (name : Option (HwName × ℕ)) : (CapLine.hwreg k k' name k'' r c).text =
    "DEBUG CAP HWREG".toList ++
      (blanks k ++ (printNat r ++ (blanks k' ++ (nameText name ++ c.text k'')))) := rfl

theorem CapLine.text_pcc :
    (CapLine.pcc k k' c).text = "DEBUG CAP PCC".toList ++ (blanks k ++ c.text k') := rfl

end text

/-- What a line does to the threads. -/
def CapLine.apply (st : ParseState) : CapLine → ParseState
  | core _ id => { st with thread := id }
  | reg _ _ _ r c => st.modify fun t => t.setCp2 r c.val
  | hwreg _ _ _ _ r c => st.modify fun t => t.setHwreg r c.val
  | pcc _ _ c => st.modify fun t => t.setPcc c.val

/-! ### Reading a capability -/

section reads
variable {c : CapDump} {rest s : List Char} {k n : ℕ}

theorem blanks_space : ∀ x ∈ blanks k, isSpace x = true := by
  intro x hx
  rw [List.eq_of_mem_replicate hx]
  rfl

theorem reads_blanks (k : ℕ) (h : ∀ x ∈ rest.head?, isSpace x = false) :
    Reads spaces [] (blanks k) rest :=
  reads_spaces (List.cons_ne_nil _ _) blanks_space h

theorem reads_bit (b : Bool) : Reads bit [some (bitText b)] (bitText b) rest := by
  cases b with
  | false => exact (reads_char rfl).group
  | true => exact (reads_char rfl).group

theorem reads_hexMany {v : List Char} (hne : v ≠ []) (hv : ∀ x ∈ v, isHexDigit x = true)
    (h : ∀ x ∈ rest.head?, isHexDigit x = false) :
    Reads hexMany [some ("0x".toList ++ v)] ("0x".toList ++ v) rest :=
  ((reads_lit _).seq (reads_many hv h (List.length_pos_iff.mpr hne))).group

theorem reads_hexDigits16 (v : Hex16) :
    Reads hexDigits16 [some ("0x".toList ++ v.digits)] ("0x".toList ++ v.digits) rest := by
  have htimes : Reads (times isHexDigit 16) [] v.digits rest := by
    rw [← v.length_eq]
    exact reads_times v.hex
  exact ((reads_lit _).seq htimes).group

/-- The groups of a capability. -/
def CapDump.groups (c : CapDump) : Groups :=
  [some (bitText c.t), some (bitText c.s), some ("0x".toList ++ c.perms),
    some ("0x".toList ++ c.ctype), some ("0x".toList ++ c.offset.digits), some ("0x".toList ++ c.base.digits),
    some ("0x".toList ++ c.length.digits), some (bitText c.uninit)]

/-- The expression reads a capability whole. -/
theorem reads_capability (c : CapDump) (k : ℕ) :
    Reads CAPREG_DUMP_REGEX c.groups (c.text k) rest := by
  have hletter : ∀ rest, Reads (char fun x => x = 's' || x = 'u') []
      (if c.letter then ['s'] else ['u']) rest := by
    intro rest
    cases c.letter with
    | false => exact reads_char rfl
    | true => exact reads_char rfl
  have hblank : ∀ s s' : List Char, ∀ x ∈ (((if c.letter then ['s'] else ['u']) ++ s) ++ s').head?,
      isSpace x = false := by
    intro s s' x hx
    cases hl : c.letter <;> rw [hl] at hx <;> cases hx <;> rfl
  -- from the last field to the first
  have huninit : Reads ((lit " uninit:".toList).seq bit) [some (bitText c.uninit)]
      (" uninit:".toList ++ bitText c.uninit) rest := (reads_lit _).seq (reads_bit _)
  have hlength := (reads_lit " length:".toList).seq ((reads_hexDigits16 c.length).seq huninit)
  have hbase := (reads_lit " base:".toList).seq ((reads_hexDigits16 c.base).seq hlength)
  have hoffset := (reads_lit " offset:".toList).seq ((reads_hexDigits16 c.offset).seq hbase)
  have htype := (reads_lit " type:".toList).seq
    ((reads_hexMany c.ctype_hex.1 c.ctype_hex.2 (by rintro x ⟨⟩; rfl)).seq hoffset)
  have hperms := (reads_lit " perms:".toList).seq
    ((reads_hexMany c.perms_hex.1 c.perms_hex.2 (by rintro x ⟨⟩; rfl)).seq htype)
  have hsealed := (hletter _).seq ((reads_lit ":".toList).seq ((reads_bit c.s).seq hperms))
  have htag := (reads_lit "t:".toList).seq
    ((reads_bit c.t).seq ((reads_blanks k (hblank _ _)).seq hsealed))
  exact htag

/-- The last character of a capability. -/
theorem getLast_capability (c : CapDump) (k : ℕ) (s : List Char) :
    ∀ x ∈ (s ++ c.text k).getLast?, isSpace x = false := by
  obtain ⟨s', hs'⟩ : ∃ s', s ++ c.text k = s' ++ bitText c.uninit := by
    unfold CapDump.text
    simp only [← List.append_assoc]
    exact ⟨_, rfl⟩
  intro x hx
  rw [hs'] at hx
  cases hu : c.uninit <;> rw [hu] at hx <;> simp [bitText] at hx <;> rw [← hx] <;> rfl

/-- The groups stand for the fields they are. -/
theorem capabilityFromStrings_groups (c : CapDump) {m : Groups} {i : ℕ}
    (hm : ∀ j, groupAt m (i + j) = groupAt c.groups j) : capabilityFromStrings m i = .ok c.val := by
  have hbit : ∀ b, digitsVal 10 (bitText b) = b.toNat := by decide
  have h16 (v : Hex16) : v.digits ≠ [] := List.ne_nil_of_length_pos (by rw [v.length_eq]; decide)
  have ht : intAt m i = c.t.toNat := by
    have h0 := hm 0
    rw [Nat.add_zero] at h0
    rw [intAt, h0]
    exact hbit c.t
  have hs : intAt m (i + 1) = c.s.toNat := by
    rw [intAt, hm 1]
    exact hbit c.s
  have hu : intAt m (i + 7) = c.uninit.toNat := by
    rw [intAt, hm 7]
    exact hbit c.uninit
  unfold capabilityFromStrings
  rw [intHexAt_digits (hm 2) c.perms_hex.1 c.perms_hex.2,
    intHexAt_digits (hm 3) c.ctype_hex.1 c.ctype_hex.2,
    intHexAt_digits (hm 4) (h16 c.offset) c.offset.hex,
    intHexAt_digits (hm 5) (h16 c.base) c.base.hex,
    intHexAt_digits (hm 6) (h16 c.length) c.length.hex, ht, hs, hu]
  rfl

end reads

/-! ### One line through the parser -/

section parse
variable {st : ParseState} {c : CapDump} {k k' k'' id : ℕ} {r : Fin 32}

/-- A line that starts with `DEBUG CAP` and does not end in white space. -/
theorem parseLine_cap {line : List Char} (hcap : "DEBUG CAP".toList <+: line)
    (hlast : ∀ x ∈ line.getLast?, isSpace x = false) : parseLine st line = parseCap st line := by
  have hdebug : "DEBUG ".toList <+: line := List.IsPrefix.trans (by decide) hcap
  have hmips : ¬"DEBUG MIPS".toList <+: line := by
    obtain ⟨t, rfl⟩ := hcap
    simp
  have hstrip : strip line = line := by
    apply strip_eq_self _ hlast
    obtain ⟨t, rfl⟩ := hcap
    rintro x ⟨⟩
    rfl
  unfold parseLine
  rw [if_neg (not_not.mpr hdebug)]
  simp only
  rw [hstrip, if_neg hmips, if_pos hcap]

theorem core_cap_search (k id : ℕ) :
    CAPMIPS_CORE_RE.search (CapLine.core k id).text = some [some (printNat id)] := by
  have hblanks : Reads spaces [] (blanks k) (printNat id ++ []) := reads_blanks k head_printNat
  exact search_of_reads (hblanks.seq (reads_number (by simp)).atEnd)

/-- What the three dump lines need of the text of a capability: it starts with
a letter and is read whole. -/
structure IsDump (c : CapDump) (text : List Char) : Prop where
  head : ∃ t, text = 't' :: t
  reads : Reads (CAPREG_DUMP_REGEX.seq atEnd) c.groups text []

theorem isDump_text (c : CapDump) (k : ℕ) : IsDump c (c.text k) :=
  ⟨⟨_, rfl⟩, (reads_capability c k).atEnd⟩

/-- The name of a register in brackets. -/
theorem reads_name (name : HwName) {rest : List Char} :
    Reads ((lit "(".toList).seq ((many isWord 1).seq (lit ")".toList))) []
      ("(".toList ++ (name.chars ++ ")".toList)) rest := by
  have hword : Reads (many isWord 1) [] name.chars (")".toList ++ rest) := by
    apply reads_many name.word _ (List.length_pos_iff.mpr name.ne_nil)
    rintro x ⟨⟩
    rfl
  exact (reads_lit _).seq (hword.seq (reads_lit _))

section dump
variable {text : List Char} (h : IsDump c text)
include h

theorem IsDump.head_space (s : List Char) : ∀ x ∈ (text ++ s).head?, isSpace x = false := by
  obtain ⟨t, rfl⟩ := h.head
  rintro x ⟨⟩
  rfl

theorem reg_cap_search (k k' : ℕ) :
    CAPMIPS_REG_RE.search
        ("DEBUG CAP REG".toList ++ (blanks k ++ (printNat r ++ (blanks k' ++ text)))) =
      some (some (printNat r) :: c.groups) := by
  have hnumber : Reads Sim.number [some (printNat r)] (printNat r) ((blanks k' ++ text) ++ []) :=
    reads_number (by rintro x ⟨⟩; rfl)
  have hblanks : Reads spaces [] (blanks k) ((printNat r ++ (blanks k' ++ text)) ++ []) := by
    rw [List.append_assoc]
    exact reads_blanks k head_printNat
  exact search_of_reads
    (hblanks.seq (hnumber.seq ((reads_blanks k' (h.head_space [])).seq h.reads)))

theorem hwreg_cap_search (k k' : ℕ) (name : Option (HwName × ℕ)) :
    CAPMIPS_HWREG_RE.search ("DEBUG CAP HWREG".toList ++
        (blanks k ++ (printNat r ++ (blanks k' ++ (nameText name ++ text))))) =
      some (some (printNat r) :: nameGroup name :: c.groups) := by
  obtain ⟨t, ht⟩ := h.head
  -- the name, if there is one, and the blanks after it
  have hname : Reads ((opt (group ((lit "(".toList).seq
      ((many isWord 1).seq (lit ")".toList))))).seq
        ((many isSpace 0).seq (CAPREG_DUMP_REGEX.seq atEnd)))
      (nameGroup name :: c.groups) (nameText name ++ text) [] := by
    rcases name with - | ⟨name, k''⟩
    · have hspaces : Reads (many isSpace 0) [] [] (text ++ []) :=
        reads_many (fun _ hx => nomatch hx) (h.head_space []) (Nat.zero_le _)
      have hnone : Reads (opt (group ((lit "(".toList).seq ((many isWord 1).seq (lit ")".toList)))))
          [none] [] (([] ++ text) ++ []) := by
        apply reads_opt_none
        intro behind
        subst ht
        rfl
      exact hnone.seq (hspaces.seq h.reads)
    · have hspaces : Reads (many isSpace 0) [] (List.replicate k'' ' ') (text ++ []) := by
        apply reads_many _ (h.head_space []) (Nat.zero_le _)
        intro x hx
        rw [List.eq_of_mem_replicate hx]
        rfl
      have htext : nameText (some (name, k'')) ++ text =
          ("(".toList ++ (name.chars ++ ")".toList)) ++ (List.replicate k'' ' ' ++ text) :=
        List.append_assoc ..
      rw [htext]
      exact (reads_name name).group.opt.seq (hspaces.seq h.reads)
  have hnotDigit : ∀ x ∈ ((blanks k' ++ (nameText name ++ text)) ++ []).head?,
      x.isDigit = false := by
    rintro x ⟨⟩
    rfl
  have hnotSpace : ∀ x ∈ ((nameText name ++ text) ++ []).head?, isSpace x = false := by
    subst ht
    cases name with
    | none =>
      rintro x ⟨⟩
      rfl
    | some name =>
      rintro x ⟨⟩
      rfl
  have hblanks : Reads spaces [] (blanks k)
      ((printNat r ++ (blanks k' ++ (nameText name ++ text))) ++ []) := by
    rw [List.append_assoc]
    exact reads_blanks k head_printNat
  exact search_of_reads
    (hblanks.seq ((reads_number hnotDigit).seq ((reads_blanks k' hnotSpace).seq hname)))

theorem pcc_cap_search (k : ℕ) :
    CAPMIPS_PC_RE.search ("DEBUG CAP PCC".toList ++ (blanks k ++ text)) = some c.groups :=
  search_of_reads ((reads_blanks k (h.head_space [])).seq h.reads)

end dump

/-- Every line starts with `DEBUG CAP`. -/
theorem CapLine.isCap (l : CapLine) : "DEBUG CAP".toList <+: l.text := by
  cases l <;> exact List.IsPrefix.trans (by decide) (List.prefix_append _ _)

/-- No line ends in white space. -/
theorem CapLine.getLast (l : CapLine) : ∀ x ∈ l.text.getLast?, isSpace x = false := by
  cases l with
  | core k id =>
    have hhex : ∀ x ∈ printNat id, isHexDigit x = true := fun x hx => by
      simp [isHexDigit, isDigit_of_mem_printNat hx]
    rw [CapLine.text_core, ← List.append_assoc]
    exact getLast_digits Nat.toDigits_ne_nil hhex
  | reg k k' k'' r c =>
    rw [CapLine.text_reg, ← List.append_assoc, ← List.append_assoc, ← List.append_assoc]
    exact getLast_capability c k'' _
  | hwreg k k' name k'' r c =>
    rw [CapLine.text_hwreg, ← List.append_assoc, ← List.append_assoc, ← List.append_assoc,
      ← List.append_assoc]
    exact getLast_capability c k'' _
  | pcc k k' c =>
    rw [CapLine.text_pcc, ← List.append_assoc]
    exact getLast_capability c k' _

theorem intAt_printNat (r : Fin 32) (gs : Groups) : intAt (some (printNat r) :: gs) 0 = r :=
  digitsVal_toDigits (by decide) (by decide) r

theorem parseCap_core (k id : ℕ) :
    parseCap st (CapLine.core k id).text = .ok ((CapLine.core k id).apply st) := by
  rw [parseCap, core_cap_search]
  show Except.ok { st with thread := digitsVal 10 (printNat id) } = _
  rw [printNat, digitsVal_toDigits (by decide) (by decide)]
  rfl

theorem parseCap_reg (k k' k'' : ℕ) (r : Fin 32) (c : CapDump) :
    parseCap st (CapLine.reg k k' k'' r c).text = .ok ((CapLine.reg k k' k'' r c).apply st) := by
  have hsearch : CAPMIPS_REG_RE.search (CapLine.reg k k' k'' r c).text =
      some (some (printNat r) :: c.groups) := reg_cap_search (isDump_text c k'') k k'
  have hreg : "DEBUG CAP REG".toList <+: (CapLine.reg k k' k'' r c).text := List.prefix_append _ _
  generalize (CapLine.reg k k' k'' r c).text = line at hsearch hreg
  have hcore : ¬"DEBUG CAP COREID".toList <+: line := by
    obtain ⟨t, rfl⟩ := hreg
    simp
  have hcap : capabilityFromStrings (some (printNat r) :: c.groups) 1 = .ok c.val :=
    capabilityFromStrings_groups c fun j => by rw [Nat.add_comm]; rfl
  rw [parseCap, search_of_not_prefix hcore, hsearch]
  simp only
  rw [hcap, intAt_printNat, index32, dif_pos r.isLt]
  rfl

theorem parseCap_hwreg (k k' : ℕ) (name : Option (HwName × ℕ)) (k'' : ℕ) (r : Fin 32)
    (c : CapDump) :
    parseCap st (CapLine.hwreg k k' name k'' r c).text =
      .ok ((CapLine.hwreg k k' name k'' r c).apply st) := by
  have hsearch : CAPMIPS_HWREG_RE.search (CapLine.hwreg k k' name k'' r c).text =
      some (some (printNat r) :: nameGroup name :: c.groups) :=
    hwreg_cap_search (isDump_text c k'') k k' name
  have hreg : "DEBUG CAP HWREG".toList <+: (CapLine.hwreg k k' name k'' r c).text :=
    List.prefix_append _ _
  generalize (CapLine.hwreg k k' name k'' r c).text = line at hsearch hreg
  have hother : ¬"DEBUG CAP COREID".toList <+: line ∧ ¬"DEBUG CAP REG".toList <+: line := by
    obtain ⟨t, rfl⟩ := hreg
    simp
  have hcap : capabilityFromStrings (some (printNat r) :: nameGroup name :: c.groups) 2 =
      .ok c.val :=
    capabilityFromStrings_groups c fun j => by rw [Nat.add_comm]; rfl
  rw [parseCap, search_of_not_prefix hother.1, search_of_not_prefix hother.2, hsearch]
  simp only
  rw [hcap, intAt_printNat, index32, dif_pos r.isLt]
  rfl

theorem parseCap_pcc (k k' : ℕ) (c : CapDump) :
    parseCap st (CapLine.pcc k k' c).text = .ok ((CapLine.pcc k k' c).apply st) := by
  have hsearch : CAPMIPS_PC_RE.search (CapLine.pcc k k' c).text = some c.groups :=
    pcc_cap_search (isDump_text c k') k
  have hpcc : "DEBUG CAP PCC".toList <+: (CapLine.pcc k k' c).text := List.prefix_append _ _
  generalize (CapLine.pcc k k' c).text = line at hsearch hpcc
  have hother : ¬"DEBUG CAP COREID".toList <+: line ∧ ¬"DEBUG CAP REG".toList <+: line ∧
      ¬"DEBUG CAP HWREG".toList <+: line := by
    obtain ⟨t, rfl⟩ := hpcc
    simp
  have hcap : capabilityFromStrings c.groups 0 = .ok c.val :=
    capabilityFromStrings_groups c fun j => by rw [Nat.zero_add]
  rw [parseCap, search_of_not_prefix hother.1, search_of_not_prefix hother.2.1,
    search_of_not_prefix hother.2.2, hsearch]
  simp only
  rw [hcap]
  rfl

/-- The parser applies every line of the capability part. -/
theorem parseLine_capLine (l : CapLine) : parseLine st l.text = .ok (l.apply st) := by
  rw [parseLine_cap l.isCap l.getLast]
  cases l with
  | core k id => exact parseCap_core k id
  | reg k k' k'' r c => exact parseCap_reg k k' k'' r c
  | hwreg k k' name k'' r c => exact parseCap_hwreg k k' name k'' r c
  | pcc k k' c => exact parseCap_pcc k k' c

end parse

/-! ### A log with both parts -/

/-- A line of a log. -/
inductive Event
  | log (l : LogLine)
  | cap (l : CapLine)

def Event.text : Event → List Char
  | log l => l.text
  | cap l => l.text

/-- A log, as text. -/
def renderEvents (events : List Event) : List Char := events.flatMap fun e => e.text ++ ['\n']

/-- A line that is read whole. -/
def Event.Readable : Event → Prop
  | log l => l.Readable
  | cap l => l.text.length < 1022

/-- The core that the filter has, and the thread that the parser has. -/
structure Current where
  core : ℕ
  thread : ℕ

/-- The filter does not look into the capability part, so a core number there
is the parser's alone. -/
def Event.next (cur : Current) : Event → Current
  | log (.core id) => ⟨(coreOf id).toNat, (coreOf id).toNat⟩
  | cap (.core _ id) => { cur with thread := id }
  | _ => cur

/-- A value for the entry of a thread. -/
inductive Write
  | reg (r : Fin 32) (v : ℕ)
  | pc (v : ℕ)
  | cp2 (r : Fin 32) (c : Capability)
  | hwreg (r : Fin 32) (c : Capability)
  | pcc (c : Capability)

def Write.apply (t : ThreadStatus) : Write → ThreadStatus
  | reg r v => t.setReg r v
  | pc v => t.setPc v
  | cp2 r c => t.setCp2 r c
  | hwreg r c => t.setHwreg r c
  | pcc c => t.setPcc c

/-- What a line writes; the pc only counts while the filter has core 0. -/
def Event.write (cur : Current) : Event → Option Write
  | log (.pc v) => if cur.core = 0 then some (.pc v.val) else none
  | log (.reg _ r v) => some (.reg r v.val)
  | cap (.reg _ _ _ r c) => some (.cp2 r c.val)
  | cap (.hwreg _ _ _ _ r c) => some (.hwreg r c.val)
  | cap (.pcc _ _ c) => some (.pcc c.val)
  | _ => none

/-- What a log writes to the entry of thread `k`, in turn. -/
def writes (k : ℕ) (cur : Current) : List Event → List Write
  | [] => []
  | e :: events =>
      (if cur.thread = k then (e.write cur).toList else []) ++ writes k (e.next cur) events

/-- The parser's state after a line. -/
def Event.apply (cur : Current) (st : ParseState) (e : Event) : ParseState :=
  match e.write cur with
  | some w => { st.modify fun t => w.apply t with thread := (e.next cur).thread }
  | none => { st with thread := (e.next cur).thread }

/-! ### One line through filter and parser -/

section event
variable {cur : Current} {st : ParseState}

/-- The filter's core matters to a pc line only. -/
theorem convert_core_irrel {buff chunk : List Char} (core core' : ℤ)
    (h : ¬"PC ".toList <+: cstr (chomp (fill buff chunk)) 0) :
    (convert ⟨core, buff⟩ chunk).2 = (convert ⟨core', buff⟩ chunk).2 := by
  unfold convert
  simp only [h, false_and, if_false]
  split_ifs <;> rfl

/-- What the filter prints for a line makes the parser apply the line. -/
def Event.Converts (e : Event) : Prop :=
  ∀ (cur : Current) (st : ParseState), st.thread = cur.thread → ∀ buff,
    ∃ out : List (List Char),
      (convert ⟨cur.core, buff⟩ (e.text ++ ['\n'])).2 = out.flatMap (fun o => o ++ ['\n']) ∧
      (convert ⟨cur.core, buff⟩ (e.text ++ ['\n'])).1.core = (e.next cur).core ∧
      (∀ o ∈ out, '\n' ∉ o) ∧ out.foldlM parseLine st = .ok (e.apply cur st)

/-- No character that ends a line or a string is in a capability. -/
theorem not_mem_capDump {x : Char} (hx : x = '\n' ∨ x = '\x00') (c : CapDump) (k : ℕ) :
    x ∉ c.text k := by
  have hhex : isHexDigit x = false := by rcases hx with rfl | rfl <;> rfl
  have hdigits (v : Hex16) : x ∉ v.digits := v.not_mem hhex
  have hfields : x ∉ c.perms ∧ x ∉ c.ctype := by
    constructor
    · intro h
      exact absurd (c.perms_hex.2 x h) (by rw [hhex]; decide)
    · intro h
      exact absurd (c.ctype_hex.2 x h) (by rw [hhex]; decide)
  have hbit (b : Bool) : x ∉ bitText b := by
    rcases hx with rfl | rfl <;> cases b <;> decide
  have hblanks : x ∉ blanks k := by
    intro h
    rw [List.eq_of_mem_replicate h] at hx
    exact absurd hx (by decide)
  have hletter : x ∉ (if c.letter then ['s'] else ['u']) := by
    rcases hx with rfl | rfl <;> cases c.letter <;> decide
  have hlit : ∀ s ∈ ["t:", ":", " perms:", "0x", " type:", " offset:", " base:", " length:",
      " uninit:"], x ∉ s.toList := by
    rcases hx with rfl | rfl <;> decide
  simp only [List.forall_mem_cons] at hlit
  simp only [CapDump.text, List.mem_append, hlit, hbit, hblanks, hletter, hfields, hdigits, or_self,
    not_false_iff]

theorem not_mem_capLine {x : Char} (hx : x = '\n' ∨ x = '\x00') (l : CapLine) : x ∉ l.text := by
  have hblanks (k : ℕ) : x ∉ List.replicate k ' ' := by
    intro h
    rw [List.eq_of_mem_replicate h] at hx
    exact absurd hx (by decide)
  have hnat (n : ℕ) : x ∉ printNat n := not_mem_printNat (by rcases hx with rfl | rfl <;> rfl)
  have hname (name : Option (HwName × ℕ)) : x ∉ nameText name := by
    rcases name with - | ⟨name, k⟩
    · exact List.not_mem_nil
    · have hchars : x ∉ name.chars := by
        intro h
        have hword := name.word x h
        rcases hx with rfl | rfl <;> cases hword
      simp only [nameText, List.mem_append, hblanks, hchars, or_false, false_or, not_or]
      rcases hx with rfl | rfl <;> decide
  have hlit : ∀ s ∈ ["DEBUG CAP COREID", "DEBUG CAP REG", "DEBUG CAP HWREG", "DEBUG CAP PCC"],
      x ∉ s.toList := by
    rcases hx with rfl | rfl <;> decide
  simp only [List.forall_mem_cons] at hlit
  cases l with
  | core k id =>
    simp only [CapLine.text_core, List.mem_append, hlit, blanks, hblanks, hnat, or_self,
      not_false_iff]
  | reg k k' k'' r c =>
    simp only [CapLine.text_reg, List.mem_append, hlit, blanks, hblanks, hnat,
      not_mem_capDump hx, or_self, not_false_iff]
  | hwreg k k' name k'' r c =>
    simp only [CapLine.text_hwreg, List.mem_append, hlit, blanks, hblanks, hnat, hname,
      not_mem_capDump hx, or_self, not_false_iff]
  | pcc k k' c =>
    simp only [CapLine.text_pcc, List.mem_append, hlit, blanks, hblanks, not_mem_capDump hx,
      or_self, not_false_iff]

theorem converts_cap (l : CapLine) : (Event.cap l).Converts := by
  rintro ⟨core, thread⟩ st hst buff
  obtain rfl : st.thread = thread := hst
  have hline : cstr (chomp (fill buff (l.text ++ ['\n']))) 0 = l.text :=
    (cstr_chomp (not_mem_capLine (.inr rfl) l) buff (Nat.zero_le _)).trans List.drop_zero
  have hother : ¬"Reg ".toList <+: l.text ∧ ¬"PC ".toList <+: l.text ∧
      ¬"Core = ".toList <+: l.text := by
    obtain ⟨t, ht⟩ := l.isCap
    rw [← ht]
    simp
  have hconvert : convert ⟨core, buff⟩ (l.text ++ ['\n']) =
      (⟨core, chomp (fill buff (l.text ++ ['\n']))⟩, l.text ++ ['\n']) := by
    unfold convert
    simp only [hline, hother, l.isCap, false_and, if_false, if_true]
  refine ⟨[l.text], ?_, ?_, ?_, ?_⟩
  · show (convert ⟨core, buff⟩ (l.text ++ ['\n'])).2 = _
    rw [hconvert, List.flatMap_singleton]
  · show (convert ⟨core, buff⟩ (l.text ++ ['\n'])).1.core = _
    rw [hconvert]
    cases l <;> rfl
  · intro o ho
    rw [List.mem_singleton.mp ho]
    exact not_mem_capLine (.inl rfl) l
  · rw [List.foldlM_cons, parseLine_capLine]
    cases l with
    | core k id => rfl
    | reg k k' k'' r c => rfl
    | hwreg k k' name k'' r c => rfl
    | pcc k k' c => rfl

theorem converts_log_pc (v : Hex16) : (Event.log (.pc v)).Converts := by
  rintro ⟨core, thread⟩ st hst buff
  obtain rfl : st.thread = thread := hst
  have hnl : '\n' ∉ v.digits := v.not_mem rfl
  have hnul : '\x00' ∉ "PC     ".toList ++ v.digits := by
    simp [show '\x00' ∉ v.digits from v.not_mem rfl]
  have hline := (cstr_chomp hnul buff (Nat.zero_le _)).trans List.drop_zero
  have hnum : cstr (chomp (fill buff ("PC     ".toList ++ v.digits ++ ['\n']))) 7 = v.digits :=
    cstr_chomp hnul buff (by simp)
  have hpc : "PC ".toList <+: "PC     ".toList ++ v.digits := ⟨"    ".toList ++ v.digits, rfl⟩
  by_cases hzero : core = 0
  · subst hzero
    have hconvert := convert_pc ⟨((0 : ℕ) : ℤ), buff⟩ hline (by simp) ⟨hpc, rfl⟩
    rw [hnum] at hconvert
    refine ⟨["DEBUG MIPS PC".toList ++ ([' '] ++ ("0x".toList ++ v.digits))], ?_, ?_,
      by simp [hnl], ?_⟩
    · refine (congrArg Prod.snd hconvert).trans ?_
      rw [List.flatMap_singleton]
      rfl
    · exact congrArg (fun r => r.1.core) hconvert
    · rw [List.foldlM_cons, parseLine_pc v.length_eq v.hex]
      rfl
  · have hcore : ¬(core : ℤ) = 0 := fun h => hzero (Int.ofNat_eq_zero.mp h)
    have hconvert := convert_nothing ⟨core, buff⟩ hline (by simp) (fun h => hcore h.2)
      (by simp) (by simp)
    refine ⟨[], congrArg Prod.snd hconvert, congrArg (fun r => r.1.core) hconvert, by simp, ?_⟩
    have hwrite : (Event.log (.pc v)).write ⟨core, st.thread⟩ = none := if_neg hzero
    show Except.ok st = Except.ok (Event.apply ⟨core, st.thread⟩ st (.log (.pc v)))
    unfold Event.apply
    rw [hwrite]
    rfl

/-- A line that is not converted as a pc line. -/
theorem LogLine.Readable.not_pc {l : LogLine} (h : l.Readable) (hpc : ∀ v, l ≠ .pc v) :
    '\x00' ∉ l.text ∧ ¬"PC ".toList <+: l.text := by
  cases l with
  | core id =>
    have hnul : '\x00' ∉ printNat id := not_mem_printNat rfl
    show '\x00' ∉ "Core = ".toList ++ printNat id ∧
      ¬"PC ".toList <+: "Core = ".toList ++ printNat id
    simp [hnul]
  | pc v => exact absurd rfl (hpc v)
  | reg zero r v =>
    have hnulr : '\x00' ∉ regField zero r := not_mem_regField (by decide) rfl
    have hnulv : '\x00' ∉ v.digits := v.not_mem rfl
    show '\x00' ∉ "Reg ".toList ++ regField zero r ++ ' ' :: v.digits ∧
      ¬"PC ".toList <+: "Reg ".toList ++ regField zero r ++ ' ' :: v.digits
    simp [hnulr, hnulv]
  | other text =>
    obtain ⟨-, hnul, -, hstart⟩ := h
    refine ⟨hnul, ?_⟩
    show ¬"PC ".toList <+: text
    rcases hstart with ⟨⟨t, rfl⟩, -⟩ | ⟨-, hpc, -⟩
    · simp
    · exact hpc

theorem converts_log {l : LogLine} (h : l.Readable) : (Event.log l).Converts := by
  by_cases hpc : ∃ v, l = .pc v
  · obtain ⟨v, rfl⟩ := hpc
    exact converts_log_pc v
  rw [not_exists] at hpc
  rintro ⟨core, thread⟩ st hst buff
  obtain rfl : st.thread = thread := hst
  obtain ⟨hnul, hnot⟩ := h.not_pc hpc
  have hline : cstr (chomp (fill buff (l.text ++ ['\n']))) 0 = l.text :=
    (cstr_chomp hnul buff (Nat.zero_le _)).trans List.drop_zero
  -- what is printed from the core of the filter is what is printed from the thread
  have hthread : Converts st l := h.converts
  have hfilter : Converts ⟨core, ∅⟩ l := h.converts
  obtain ⟨out, hout, -, hnl, hparse⟩ := hthread buff
  obtain ⟨-, -, hcore, -⟩ := hfilter buff
  refine ⟨out, ?_, ?_, hnl, ?_⟩
  · rw [← hout]
    apply convert_core_irrel
    show ¬"PC ".toList <+: cstr (chomp (fill buff (l.text ++ ['\n']))) 0
    rw [hline]
    exact hnot
  · refine hcore.trans ?_
    cases l with
    | core id => rfl
    | pc v => exact absurd rfl (hpc v)
    | reg zero r v => rfl
    | other text => rfl
  · rw [hparse]
    cases l with
    | core id => rfl
    | pc v => exact absurd rfl (hpc v)
    | reg zero r v => rfl
    | other text => rfl

/-- Every line is converted to what makes the parser apply it. -/
theorem Event.Readable.converts {e : Event} (h : e.Readable) : e.Converts := by
  cases e with
  | log l => exact converts_log h
  | cap l => exact converts_cap l

theorem thread_apply (cur : Current) (st : ParseState) (e : Event) :
    (e.apply cur st).thread = (e.next cur).thread := by
  unfold Event.apply
  cases e.write cur with
  | none => rfl
  | some w => rfl

/-- What a line writes lands in the entry of the current thread. -/
theorem get_apply_event (h : st.thread = cur.thread) (e : Event) (k : ℕ) :
    (e.apply cur st).threads.get k =
      (if cur.thread = k then (e.write cur).toList else []).foldl Write.apply
        (st.threads.get k) := by
  unfold Event.apply
  cases hw : e.write cur with
  | none =>
    show st.threads.get k = _
    split_ifs <;> rfl
  | some w =>
    show Threads.get (st.threads.insert st.thread (w.apply (st.threads.get st.thread))) k = _
    by_cases hk : cur.thread = k
    · rw [if_pos hk, ← hk, ← h]
      exact get_insert_self _ _ _
    · rw [if_neg hk]
      exact get_insert_ne _ (fun h' => hk (h ▸ h'.symm)) _

end event

/-! ### A run -/

/-- The parser's state after a log. -/
def applyAll (cur : Current) (st : ParseState) : List Event → ParseState
  | [] => st
  | e :: events => applyAll (e.next cur) (e.apply cur st) events

section run
variable {cur : Current} {st : ParseState} {events : List Event}

/-- The lines of a log, converted and parsed from any state. -/
theorem convertAll_events (h : ∀ e ∈ events, e.Readable) (cur : Current) (st : ParseState)
    (hst : st.thread = cur.thread) (buff : List Char) :
    ∃ out : List (List Char),
      convertAll ⟨cur.core, buff⟩ (events.map fun e => e.text ++ ['\n']) =
        out.flatMap (fun o => o ++ ['\n']) ∧
      (∀ o ∈ out, '\n' ∉ o) ∧ out.foldlM parseLine st = .ok (applyAll cur st events) := by
  induction events generalizing cur st buff with
  | nil => exact ⟨[], rfl, by simp, rfl⟩
  | cons e events ih =>
    obtain ⟨out, hout, hcore, hnl, hparse⟩ := (h e List.mem_cons_self).converts cur st hst buff
    obtain ⟨out', hout', hnl', hparse'⟩ := ih (fun x hx => h x (List.mem_cons_of_mem e hx))
      (e.next cur) (e.apply cur st) (thread_apply cur st e) (convert ⟨cur.core, buff⟩ (e.text ++ ['\n'])).1.buff
    refine ⟨out ++ out', ?_, ?_, ?_⟩
    · rw [List.flatMap_append, ← hout, ← hout', ← hcore]
      rfl
    · intro o ho
      exact (List.mem_append.mp ho).elim (hnl o) (hnl' o)
    · rw [List.foldlM_append, hparse]
      exact hparse'

/-- An entry after a log has what was written to it, in turn. -/
theorem get_applyAll (hst : st.thread = cur.thread) (k : ℕ) :
    (applyAll cur st events).threads.get k =
      (writes k cur events).foldl Write.apply (st.threads.get k) := by
  induction events generalizing cur st with
  | nil => rfl
  | cons e events ih =>
    show (applyAll (e.next cur) (e.apply cur st) events).threads.get k = _
    rw [ih (thread_apply cur st e), get_apply_event hst, ← List.foldl_append]
    rfl

theorem Event.Readable.fits {e : Event} (h : e.Readable) :
    '\n' ∉ e.text ∧ e.text.length < 1022 := by
  cases e with
  | log l => exact LogLine.Readable.fits h
  | cap l => exact ⟨not_mem_capLine (.inl rfl) l, h⟩

/-- **Refinement**: filtering a log and parsing the result is applying its
lines, one after the other. -/
theorem parse_main_events (h : ∀ e ∈ events, e.Readable) (buff : List Char) :
    parse_log (main buff (renderEvents events)) = .ok (applyAll ⟨0, 0⟩ ⟨0, ∅⟩ events) := by
  have hfits : ∀ t ∈ events.map Event.text, '\n' ∉ t ∧ t.length < 1022 := by
    intro t ht
    obtain ⟨e, he, rfl⟩ := List.mem_map.mp ht
    exact (h e he).fits
  have hread : fgetsAll 1022 (renderEvents events) = events.map fun e => e.text ++ ['\n'] := by
    have hlines := fgetsAll_lines hfits
    rwa [List.flatMap_map, List.map_map] at hlines
  obtain ⟨out, hout, hnl, hparse⟩ := convertAll_events h ⟨0, 0⟩ ⟨0, ∅⟩ rfl buff
  have hmain : main buff (renderEvents events) = out.flatMap fun o => o ++ ['\n'] := by
    unfold main
    rw [hread]
    exact hout
  unfold parse_log
  rw [hmain, fileLines_lines hnl, hparse]

end run

/-! ### The last values -/

def Write.reg? (r : Fin 32) : Write → Option ℕ
  | reg r' v => if r = r' then some v else none
  | _ => none

def Write.pc? : Write → Option ℕ
  | pc v => some v
  | _ => none

def Write.cp2? (r : Fin 32) : Write → Option Capability
  | cp2 r' c => if r = r' then some c else none
  | _ => none

def Write.hwreg? (r : Fin 32) : Write → Option Capability
  | hwreg r' c => if r = r' then some c else none
  | _ => none

def Write.pcc? : Write → Option Capability
  | pcc c => some c
  | _ => none

/-- The entry in which every field has the last of the values for it. -/
def lastValues (ws : List Write) : ThreadStatus where
  reg_vals r := (ws.filterMap (Write.reg? r)).getLast?
  pc := (ws.filterMap Write.pc?).getLast?
  cp2 r := (ws.filterMap (Write.cp2? r)).getLast?
  cp2_hwregs r := (ws.filterMap (Write.hwreg? r)).getLast?
  pcc := (ws.filterMap Write.pcc?).getLast?

/-- A field that each write sets or keeps has the last value set, or the first
one if there is none. -/
theorem foldl_field {β : Type} (g : ThreadStatus → Option β) (val : Write → Option β)
    (h : ∀ t w, g (w.apply t) = (val w).or (g t)) (ws : List Write) (t : ThreadStatus) :
    g (ws.foldl Write.apply t) = (ws.filterMap val).getLast?.or (g t) := by
  induction ws generalizing t with
  | nil => rfl
  | cons w ws ih =>
    rw [List.foldl_cons, ih, h]
    cases hw : val w with
    | none => rw [List.filterMap_cons_none hw, Option.none_or]
    | some v =>
      rw [List.filterMap_cons_some hw, List.getLast?_cons, Option.some_or]
      cases (ws.filterMap val).getLast? <;> rfl

theorem update_or {β : Type} (f : Fin 32 → Option β) (r r' : Fin 32) (v : β) :
    Function.update f r' (some v) r = (if r = r' then some v else none).or (f r) := by
  by_cases hr : r = r'
  · rw [hr, Function.update_self, if_pos rfl, Option.some_or]
  · rw [Function.update_of_ne hr, if_neg hr, Option.none_or]

theorem foldl_apply_eq_lastValues (ws : List Write) : ws.foldl Write.apply {} = lastValues ws := by
  apply ThreadStatus.ext
  · funext r
    refine (foldl_field (fun t => t.reg_vals r) (Write.reg? r) ?_ ws {}).trans (Option.or_none ..)
    rintro t (⟨r', v⟩ | v | ⟨r', c⟩ | ⟨r', c⟩ | c)
    case reg => exact update_or ..
    all_goals rfl
  · refine (foldl_field ThreadStatus.pc Write.pc? ?_ ws {}).trans (Option.or_none ..)
    rintro t (⟨r', v⟩ | v | ⟨r', c⟩ | ⟨r', c⟩ | c) <;> rfl
  · funext r
    refine (foldl_field (fun t => t.cp2 r) (Write.cp2? r) ?_ ws {}).trans (Option.or_none ..)
    rintro t (⟨r', v⟩ | v | ⟨r', c⟩ | ⟨r', c⟩ | c)
    case cp2 => exact update_or ..
    all_goals rfl
  · funext r
    refine (foldl_field (fun t => t.cp2_hwregs r) (Write.hwreg? r) ?_ ws {}).trans
      (Option.or_none ..)
    rintro t (⟨r', v⟩ | v | ⟨r', c⟩ | ⟨r', c⟩ | c)
    case hwreg => exact update_or ..
    all_goals rfl
  · refine (foldl_field ThreadStatus.pcc Write.pcc? ?_ ws {}).trans (Option.or_none ..)
    rintro t (⟨r', v⟩ | v | ⟨r', c⟩ | ⟨r', c⟩ | c) <;> rfl

/-- The last value of the pc is missing just if there is none. -/
theorem lastValues_pc_ne_none (ws : List Write) : (lastValues ws).pc ≠ none ↔ ∃ v, .pc v ∈ ws := by
  show (ws.filterMap Write.pc?).getLast? ≠ none ↔ _
  rw [Ne, List.getLast?_eq_none_iff, List.filterMap_eq_nil_iff]
  push Not
  constructor
  · rintro ⟨w, hw, hne⟩
    cases w with
    | pc v => exact ⟨v, hw⟩
    | _ => exact absurd rfl hne
  · rintro ⟨v, hv⟩
    exact ⟨_, hv, Option.some_ne_none v⟩

/-- **The last values**: filter and parser read every log, and every field of
every thread's entry is the last value that the log writes to it.  The log has
a status just if it writes a pc to thread 0. -/
theorem l3_last_values {events : List Event} (h : ∀ e ∈ events, e.Readable) (buff : List Char) :
    (∃ st, parse_log (main buff (renderEvents events)) = .ok st ∧
      ∀ k, st.threads.get k = lastValues (writes k ⟨0, 0⟩ events)) ∧
    ((∃ v, .pc v ∈ writes 0 ⟨0, 0⟩ events) ↔
      ∃ s, MipsStatus.init (main buff (renderEvents events)) = .ok s ∧
        ∀ k, s.threads.get k = lastValues (writes k ⟨0, 0⟩ events)) := by
  have hparse := parse_main_events h buff
  have hget : ∀ k, (applyAll ⟨0, 0⟩ ⟨0, ∅⟩ events).threads.get k =
      lastValues (writes k ⟨0, 0⟩ events) := by
    intro k
    rw [get_applyAll rfl, ← foldl_apply_eq_lastValues]
    rfl
  refine ⟨⟨_, hparse, hget⟩, ?_⟩
  rw [← lastValues_pc_ne_none, ← hget]
  constructor
  · intro hpc
    exact ⟨_, (init_eq_ok_iff hparse).mpr ⟨hpc, rfl⟩, hget⟩
  · rintro ⟨s, hs, -⟩
    exact ((init_eq_ok_iff hparse).mp hs).1

/-- A null capability. -/
def CapDump.null : CapDump :=
  ⟨false, false, false, ['0'], ['0'], .zero, .zero, .zero, false, by decide, by decide⟩

/-- A pc of core 0, then a capability register of core 1. -/
def threeLines : List Event :=
  [.log (.pc .zero), .cap (.core 0 1), .cap (.reg 0 0 0 3 .null)]

theorem l3_last_values_three :
    (∃ st, parse_log (main [] (renderEvents threeLines)) = .ok st ∧
      ∀ k, st.threads.get k = lastValues (writes k ⟨0, 0⟩ threeLines)) ∧
    ((∃ v, .pc v ∈ writes 0 ⟨0, 0⟩ threeLines) ↔
      ∃ s, MipsStatus.init (main [] (renderEvents threeLines)) = .ok s ∧
        ∀ k, s.threads.get k = lastValues (writes k ⟨0, 0⟩ threeLines)) := by
  apply l3_last_values
  simp only [threeLines, List.forall_mem_cons]
  refine ⟨trivial, ?_, ?_, fun _ h => nomatch h⟩
  · show (CapLine.core 0 1).text.length < 1022
    decide
  · show (CapLine.reg 0 0 0 3 .null).text.length < 1022
    decide +kernel

end Cheritest.L3tosim
