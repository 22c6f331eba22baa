/-
Cheritest/Tools/Sim.lean

The log parser of tools/sim/__init__.py: `MipsStatus` reads the register
dump of a simulator's log into one `ThreadStatus` for each thread or core.

`parse_log` keeps a current thread.  Lines that name a thread or a core move
it, and every other recognised line lands in its entry, which is made when it
is first used.  A register number above 31 and a value that is no number end
the parsing with an exception.
-/
import Cheritest.Lib.Numerals
import Mathlib.Data.List.AList
import Mathlib.Logic.Function.Basic
import Cheritest.Lib.Digits
import Cheritest.Lib.Pattern

namespace Cheritest.Sim

open Text Pattern

/-! ### Regular expressions -/

/-- A search that compares the start of the line first. -/
structure FasterRegex where
  line_start : List Char
  remaining : Pattern

/-- The groups, where the line matches. -/
def FasterRegex.search (r : FasterRegex) (line : List Char) : Option Groups :=
  if r.line_start <+: line then
    -- the expression starts with `^`
    (((lit r.line_start).seq r.remaining).first ⟨[], line⟩).map Prod.fst
  else none

/-- `\s+`. -/
def spaces : Pattern := many isSpace 1

/-- `([0-9]+)`. -/
def number : Pattern := group (many Char.isDigit 1)

/-- `(0x................)`. -/
def hex16 : Pattern := group ((lit "0x".toList).seq (times (· ≠ '\n') 16))

/-- `(0x[0-9A-Fa-f]+)`. -/
def hexMany : Pattern := group ((lit "0x".toList).seq (many isHexDigit 1))

/-- `(0x[0-9A-Fa-f]{16})`. -/
def hexDigits16 : Pattern := group ((lit "0x".toList).seq (times isHexDigit 16))

/-- `([01])`. -/
def bit : Pattern := group (char fun c => c = '0' || c = '1')

def THREAD_RE : Pattern :=
  (lit "======".toList).seq <| spaces.seq <| (lit "Thread".toList).seq <| spaces.seq <|
    number.seq <| spaces.seq <| (lit "======".toList).seq atEnd

def MIPS_CORE_RE : FasterRegex := ⟨"DEBUG MIPS COREID".toList, spaces.seq (number.seq atEnd)⟩

def MIPS_REG_RE : FasterRegex :=
  ⟨"DEBUG MIPS REG".toList, spaces.seq (number.seq (spaces.seq (hex16.seq atEnd)))⟩

def MIPS_PC_RE : FasterRegex := ⟨"DEBUG MIPS PC".toList, spaces.seq (hex16.seq atEnd)⟩

def CAPMIPS_CORE_RE : FasterRegex := ⟨"DEBUG CAP COREID".toList, spaces.seq (number.seq atEnd)⟩

def CAPREG_DUMP_REGEX : Pattern :=
  (lit "t:".toList).seq <| bit.seq <| spaces.seq <| (char fun c => c = 's' || c = 'u').seq <|
    (lit ":".toList).seq <| bit.seq <| (lit " perms:".toList).seq <| hexMany.seq <|
    (lit " type:".toList).seq <| hexMany.seq <| (lit " offset:".toList).seq <| hexDigits16.seq <|
    (lit " base:".toList).seq <| hexDigits16.seq <| (lit " length:".toList).seq <|
    hexDigits16.seq <| (lit " uninit:".toList).seq bit

def CAPMIPS_PC_RE : FasterRegex :=
  ⟨"DEBUG CAP PCC".toList, spaces.seq (CAPREG_DUMP_REGEX.seq atEnd)⟩

def CAPMIPS_REG_RE : FasterRegex :=
  ⟨"DEBUG CAP REG".toList, spaces.seq (number.seq (spaces.seq (CAPREG_DUMP_REGEX.seq atEnd)))⟩

def CAPMIPS_HWREG_RE : FasterRegex :=
  ⟨"DEBUG CAP HWREG".toList, spaces.seq <| number.seq <| spaces.seq <|
    (opt (group ((lit "(".toList).seq ((many isWord 1).seq (lit ")".toList))))).seq <|
    (many isSpace 0).seq <| CAPREG_DUMP_REGEX.seq atEnd⟩

/-! ### The status -/

structure Capability where
  t : ℕ
  s : ℕ
  perms : ℕ
  ctype : ℕ
  offset : ℕ
  base : ℕ
  length : ℕ
  uninit : ℕ
  deriving DecidableEq

@[ext]
structure ThreadStatus where
  reg_vals : Fin 32 → Option ℕ := fun _ => none
  pc : Option ℕ := none
  cp2 : Fin 32 → Option Capability := fun _ => none
  cp2_hwregs : Fin 32 → Option Capability := fun _ => none
  pcc : Option Capability := none

/-- Why a log has no status. -/
inductive ParseError
  | indexError
  | valueError
  | noRegDump
  | noPC
  deriving DecidableEq, Repr

abbrev Threads := AList fun _ : ℕ => ThreadStatus

/-- What `parse_log` keeps from line to line. -/
structure ParseState where
  thread : ℕ
  threads : Threads

/-- `threads[i]`, of a `defaultdict`. -/
def Threads.get (threads : Threads) (i : ℕ) : ThreadStatus := (threads.lookup i).getD {}

/-- Change the entry of the current thread. -/
def ParseState.modify (st : ParseState) (f : ThreadStatus → ThreadStatus) : ParseState :=
  { st with threads := st.threads.insert st.thread (f (st.threads.get st.thread)) }

/-- `m.group(i + 1)`. -/
def groupAt (m : Groups) (i : ℕ) : List Char := (m[i]?.join).getD []

/-- `int(m.group(i + 1))`, of a group of decimal digits. -/
def intAt (m : Groups) (i : ℕ) : ℕ := digitsVal 10 (groupAt m i)

/-- `int(m.group(i + 1), 16)`. -/
def intHexAt (m : Groups) (i : ℕ) : Except ParseError ℕ :=
  match intHex (groupAt m i) with
  | some v => .ok v
  | none => .error .valueError

/-- An index into a list of 32. -/
def index32 (n : ℕ) : Except ParseError (Fin 32) :=
  if h : n < 32 then .ok ⟨n, h⟩ else .error .indexError

/-- `capabilityFromStrings(*m.groups()[i:i + 8])`. -/
def capabilityFromStrings (m : Groups) (i : ℕ) : Except ParseError Capability := do
  let perms ← intHexAt m (i + 2)
  let ctype ← intHexAt m (i + 3)
  let offset ← intHexAt m (i + 4)
  let base ← intHexAt m (i + 5)
  let length ← intHexAt m (i + 6)
  return { t := intAt m i, s := intAt m (i + 1), perms, ctype, offset, base, length,
           uninit := intAt m (i + 7) }

def ThreadStatus.setReg (t : ThreadStatus) (i : Fin 32) (v : ℕ) : ThreadStatus :=
  { t with reg_vals := Function.update t.reg_vals i (some v) }

def ThreadStatus.setPc (t : ThreadStatus) (v : ℕ) : ThreadStatus := { t with pc := some v }

def ThreadStatus.setCp2 (t : ThreadStatus) (i : Fin 32) (c : Capability) : ThreadStatus :=
  { t with cp2 := Function.update t.cp2 i (some c) }

def ThreadStatus.setHwreg (t : ThreadStatus) (i : Fin 32) (c : Capability) : ThreadStatus :=
  { t with cp2_hwregs := Function.update t.cp2_hwregs i (some c) }

def ThreadStatus.setPcc (t : ThreadStatus) (c : Capability) : ThreadStatus :=
  { t with pcc := some c }

/-! ### Parsing -/

/-- A line that starts with `DEBUG MIPS`. -/
def parseMips (st : ParseState) (line : List Char) : Except ParseError ParseState :=
  match MIPS_CORE_RE.search line with
  | some m => .ok { st with thread := intAt m 0 }
  | none =>
    match MIPS_REG_RE.search line with
    | some m => do
        let reg_val ← intHexAt m 1
        let reg_num ← index32 (intAt m 0)
        return st.modify fun t => t.setReg reg_num reg_val
    | none =>
      match MIPS_PC_RE.search line with
      | some m => do
          let reg_val ← intHexAt m 0
          return st.modify fun t => t.setPc reg_val
      | none => .ok st

/-- A line that starts with `DEBUG CAP`. -/
def parseCap (st : ParseState) (line : List Char) : Except ParseError ParseState :=
  match CAPMIPS_CORE_RE.search line with
  | some m => .ok { st with thread := intAt m 0 }
  | none =>
    match CAPMIPS_REG_RE.search line with
    | some m => do
        let c ← capabilityFromStrings m 1
        let cap_reg_num ← index32 (intAt m 0)
        return st.modify fun t => t.setCp2 cap_reg_num c
    | none =>
      match CAPMIPS_HWREG_RE.search line with
      | some m => do
          let c ← capabilityFromStrings m 2
          let cap_reg_num ← index32 (intAt m 0)
          return st.modify fun t => t.setHwreg cap_reg_num c
      | none =>
        match CAPMIPS_PC_RE.search line with
        | some m => do
            let c ← capabilityFromStrings m 0
            return st.modify fun t => t.setPcc c
        | none => .ok st

/-- The body of the loop of `parse_log`. -/
def parseLine (st : ParseState) (line : List Char) : Except ParseError ParseState :=
  if ¬"DEBUG ".toList <+: line then
    let line := strip line
    if "======".toList <:+ line then
      match THREAD_RE.search line with
      | some m => .ok { st with thread := intAt m.1 0 }
      | none => .ok st
    else .ok st
  else
    let line := strip line
    if "DEBUG MIPS".toList <+: line then parseMips st line
    else if "DEBUG CAP".toList <+: line then parseCap st line
    else .ok st

/-- `parse_log`, from the start of a file. -/
def parse_log (fh : List Char) : Except ParseError ParseState :=
  (fileLines fh).foldlM parseLine ⟨0, ∅⟩

/-- What is left of a log: the entries of its threads. -/
structure MipsStatus where
  threads : Threads

/-- The pc of the status is the pc of thread zero. -/
def MipsStatus.pc (s : MipsStatus) : Option ℕ := (s.threads.get 0).pc

/-- The constructor of `MipsStatus`. -/
def MipsStatus.init (fh : List Char) : Except ParseError MipsStatus := do
  let st ← parse_log fh
  if st.threads.keys = [] then throw .noRegDump
  if (st.threads.get 0).pc = none then throw .noPC
  return ⟨st.threads⟩

/-! ### Matches -/

/-- A line that the rest of the expression reads to its end. -/
theorem search_of_reads {r : FasterRegex} {gs : Groups} {s : List Char}
    (h : Reads r.remaining gs s []) : r.search (r.line_start ++ s) = some gs := by
  have hline := (reads_lit r.line_start).seq ((List.append_nil s).symm ▸ h) []
  simp only [List.append_nil] at hline
  unfold FasterRegex.search
  rw [if_pos (List.prefix_append _ _), hline]
  rfl

theorem search_of_not_prefix {r : FasterRegex} {line : List Char}
    (h : ¬r.line_start <+: line) : r.search line = none := if_neg h

/-- White space that is followed by something else. -/
theorem reads_spaces {s rest : List Char} (hs : s ≠ []) (hall : ∀ c ∈ s, isSpace c = true)
    (h : ∀ c ∈ rest.head?, isSpace c = false) : Reads spaces [] s rest :=
  reads_many hall h (List.length_pos_iff.mpr hs)

theorem reads_number {n : ℕ} {rest : List Char} (h : ∀ c ∈ rest.head?, c.isDigit = false) :
    Reads number [some (printNat n)] (printNat n) rest :=
  (reads_many (fun _ hc => isDigit_of_mem_printNat hc) h
    (List.length_pos_iff.mpr Nat.toDigits_ne_nil)).group

theorem reads_hex16 {v rest : List Char} (hlen : v.length = 16) (hv : ∀ c ∈ v, c ≠ '\n') :
    Reads hex16 [some ("0x".toList ++ v)] ("0x".toList ++ v) rest := by
  have htimes : Reads (times (· ≠ '\n') 16) [] v rest := by
    rw [← hlen]
    exact reads_times fun c hc => decide_eq_true (hv c hc)
  exact ((reads_lit _).seq htimes).group

theorem head_printNat {n : ℕ} {rest : List Char} :
    ∀ c ∈ (printNat n ++ rest).head?, isSpace c = false := by
  intro c hc
  have hne : printNat n ≠ [] := Nat.toDigits_ne_nil
  rw [List.head?_append_of_ne_nil _ hne] at hc
  exact isSpace_of_isDigit (isDigit_of_mem_printNat (List.mem_of_mem_head? hc))

theorem core_search (n : ℕ) :
    MIPS_CORE_RE.search ("DEBUG MIPS COREID".toList ++ ([' '] ++ printNat n)) =
      some [some (printNat n)] := by
  have hspaces : Reads spaces [] [' '] (printNat n ++ []) :=
    reads_spaces (by decide) (List.forall_mem_singleton.mpr rfl) head_printNat
  exact search_of_reads (hspaces.seq (reads_number (by simp)).atEnd)

theorem reg_search {v pad : List Char} (n : ℕ) (hpad : pad ≠ [])
    (hspace : ∀ c ∈ pad, isSpace c = true) (hlen : v.length = 16) (hv : ∀ c ∈ v, c ≠ '\n') :
    MIPS_REG_RE.search
        ("DEBUG MIPS REG".toList ++ (pad ++ (printNat n ++ ([' '] ++ ("0x".toList ++ v))))) =
      some [some (printNat n), some ("0x".toList ++ v)] := by
  have hspaces : Reads spaces [] [' '] ("0x".toList ++ v ++ []) :=
    reads_spaces (by decide) (List.forall_mem_singleton.mpr rfl) (by rintro c ⟨⟩; rfl)
  have hnumber : Reads number [some (printNat n)] (printNat n)
      ([' '] ++ ("0x".toList ++ v) ++ []) := reads_number (by rintro c ⟨⟩; rfl)
  have hpads : Reads spaces [] pad (printNat n ++ ([' '] ++ ("0x".toList ++ v)) ++ []) := by
    rw [List.append_assoc]
    exact reads_spaces hpad hspace head_printNat
  exact search_of_reads
    (hpads.seq (hnumber.seq (hspaces.seq (reads_hex16 hlen hv).atEnd)))

theorem pc_search {v : List Char} (hlen : v.length = 16) (hv : ∀ c ∈ v, c ≠ '\n') :
    MIPS_PC_RE.search ("DEBUG MIPS PC".toList ++ ([' '] ++ ("0x".toList ++ v))) =
      some [some ("0x".toList ++ v)] := by
  have hspaces : Reads spaces [] [' '] ("0x".toList ++ v ++ []) :=
    reads_spaces (by decide) (List.forall_mem_singleton.mpr rfl) (by rintro c ⟨⟩; rfl)
  exact search_of_reads (hspaces.seq (reads_hex16 hlen hv).atEnd)


/-! ### Lines of a dump -/

variable {st : ParseState} {v : List Char}

/-- A line that starts with `DEBUG MIPS` and does not end in white space. -/
theorem parseLine_mips {line : List Char} (hmips : "DEBUG MIPS".toList <+: line)
    (hlast : ∀ c ∈ line.getLast?, isSpace c = false) : parseLine st line = parseMips st line := by
  have hdebug : "DEBUG ".toList <+: line := List.IsPrefix.trans (by decide) hmips
  have hstrip : strip line = line := by
    apply strip_eq_self _ hlast
    obtain ⟨t, rfl⟩ := hmips
    rintro c ⟨⟩
    rfl
  unfold parseLine
  rw [if_neg (not_not.mpr hdebug)]
  simp only
  rw [hstrip, if_pos hmips]

theorem getLast_digits {s : List Char} (hne : v ≠ []) (hv : ∀ c ∈ v, isHexDigit c = true) :
    ∀ c ∈ (s ++ v).getLast?, isSpace c = false := by
  intro c hc
  rw [List.getLast?_append_of_ne_nil _ hne] at hc
  exact isSpace_of_isHexDigit (hv c (List.mem_of_mem_getLast? hc))

/-- A core line makes its core the current thread. -/
theorem parseLine_core (n : ℕ) :
    parseLine st ("DEBUG MIPS COREID".toList ++ ([' '] ++ printNat n)) =
      .ok { st with thread := n } := by
  have hhex : ∀ c ∈ printNat n, isHexDigit c = true := fun c hc => by
    simp [isHexDigit, isDigit_of_mem_printNat hc]
  have hlast : ∀ c ∈ ("DEBUG MIPS COREID".toList ++ ([' '] ++ printNat n)).getLast?,
      isSpace c = false := by
    rw [← List.append_assoc]
    exact getLast_digits Nat.toDigits_ne_nil hhex
  have hmips : "DEBUG MIPS".toList <+: "DEBUG MIPS COREID".toList ++ ([' '] ++ printNat n) :=
    List.IsPrefix.trans (by decide) (List.prefix_append _ _)
  rw [parseLine_mips hmips hlast, parseMips, core_search]
  show Except.ok { st with thread := digitsVal 10 (printNat n) } = _
  rw [printNat, digitsVal_toDigits (by decide) (by decide)]

theorem ne_newline {c : Char} (h : isHexDigit c = true) : c ≠ '\n' := by
  rintro rfl
  cases h

theorem intHexAt_digits {m : Groups} {i : ℕ} (hm : groupAt m i = "0x".toList ++ v) (hne : v ≠ [])
    (hv : ∀ c ∈ v, isHexDigit c = true) : intHexAt m i = .ok (digitsVal 16 v) := by
  unfold intHexAt
  rw [hm, intHex_digits hne hv]

/-- A register line sets a register of the current thread. -/
theorem parseLine_reg {pad : List Char} {n : ℕ} (hn : n < 32) (hpad : pad ≠ [])
    (hspace : ∀ c ∈ pad, isSpace c = true) (hlen : v.length = 16)
    (hv : ∀ c ∈ v, isHexDigit c = true) :
    parseLine st
        ("DEBUG MIPS REG".toList ++ (pad ++ (printNat n ++ ([' '] ++ ("0x".toList ++ v))))) =
      .ok (st.modify fun t => t.setReg ⟨n, hn⟩ (digitsVal 16 v)) := by
  have hne : v ≠ [] := List.ne_nil_of_length_pos (by omega)
  have hsearch := reg_search n hpad hspace hlen fun c hc => ne_newline (hv c hc)
  have hlast : ∀ c ∈ ("DEBUG MIPS REG".toList ++ (pad ++ (printNat n ++ ([' '] ++
      ("0x".toList ++ v))))).getLast?, isSpace c = false := by
    simp only [← List.append_assoc]
    exact getLast_digits hne hv
  have hreg : "DEBUG MIPS REG".toList <+: "DEBUG MIPS REG".toList ++ (pad ++ (printNat n ++
      ([' '] ++ ("0x".toList ++ v)))) := List.prefix_append _ _
  generalize "DEBUG MIPS REG".toList ++ (pad ++ (printNat n ++ ([' '] ++ ("0x".toList ++ v)))) =
    line at hsearch hlast hreg ⊢
  have hcore : ¬"DEBUG MIPS COREID".toList <+: line := by
    obtain ⟨t, rfl⟩ := hreg
    simp
  rw [parseLine_mips (List.IsPrefix.trans (by decide) hreg) hlast, parseMips,
    search_of_not_prefix hcore, hsearch]
  have hnum : intAt [some (printNat n), some ("0x".toList ++ v)] 0 = n :=
    digitsVal_toDigits (by decide) (by decide) n
  simp only
  rw [intHexAt_digits rfl hne hv, hnum, index32, dif_pos hn]
  rfl

/-- A pc line sets the pc of the current thread. -/
theorem parseLine_pc (hlen : v.length = 16) (hv : ∀ c ∈ v, isHexDigit c = true) :
    parseLine st ("DEBUG MIPS PC".toList ++ ([' '] ++ ("0x".toList ++ v))) =
      .ok (st.modify fun t => t.setPc (digitsVal 16 v)) := by
  have hne : v ≠ [] := List.ne_nil_of_length_pos (by omega)
  have hsearch := pc_search hlen fun c hc => ne_newline (hv c hc)
  have hlast : ∀ c ∈ ("DEBUG MIPS PC".toList ++ ([' '] ++ ("0x".toList ++ v))).getLast?,
      isSpace c = false := by
    simp only [← List.append_assoc]
    exact getLast_digits hne hv
  have hpc : "DEBUG MIPS PC".toList <+: "DEBUG MIPS PC".toList ++ ([' '] ++ ("0x".toList ++ v)) :=
    List.prefix_append _ _
  generalize "DEBUG MIPS PC".toList ++ ([' '] ++ ("0x".toList ++ v)) = line at hsearch hlast hpc ⊢
  have hcore : ¬"DEBUG MIPS COREID".toList <+: line := by
    obtain ⟨t, rfl⟩ := hpc
    simp
  have hreg : ¬"DEBUG MIPS REG".toList <+: line := by
    obtain ⟨t, rfl⟩ := hpc
    simp
  rw [parseLine_mips (List.IsPrefix.trans (by decide) hpc) hlast, parseMips,
    search_of_not_prefix hcore, search_of_not_prefix hreg, hsearch]
  simp only
  rw [intHexAt_digits rfl hne hv]
  rfl

end Cheritest.Sim
