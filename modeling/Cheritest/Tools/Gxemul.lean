/-
Cheritest/Tools/Gxemul.lean

Two decoders of a register dump of gxemul: gxemultosim.c, which turns it into
the `DEBUG MIPS` lines that tools/sim parses, and the parser of
tools/gxemul/__init__.py.

The filter scans the columns of a line, the parser looks for
`name = 0x<digits>` anywhere in it.  The parser stores the pc inside the loop
over the registers that it found on the line, and a pc line has no other
register: no dump has a status (`init_ne_ok`).
-/
import Mathlib.Data.List.Chain
import Cheritest.Lib.Buffer
import Cheritest.Lib.Transition
import Cheritest.Tools.Sim

namespace Cheritest.Gxemultosim

open Text

/-! ### The filter -/

def reg_names : List (List Char) :=
  ["at = 0x".toList, "v0 = 0x".toList, "v1 = 0x".toList, "a0 = 0x".toList, "a1 = 0x".toList,
    "a2 = 0x".toList, "a3 = 0x".toList, "t0 = 0x".toList, "t1 = 0x".toList, "t2 = 0x".toList,
    "t3 = 0x".toList, "t4 = 0x".toList, "t5 = 0x".toList, "t6 = 0x".toList, "t7 = 0x".toList]

/-- The values that `main` keeps from line to line. -/
structure State where
  reg : Fin 32 → ℕ
  pc : ℕ

/-- `strstr`. -/
def strstr (s pattern : List Char) : Option (List Char) :=
  s.tails.find? fun t => pattern.isPrefixOf t

/-- The loop over `reg_names`, from number `j` on; `none` where `cp` is the
null pointer and read again. -/
def scanNames (reg : Fin 32 → ℕ) (cp : Option (List Char)) (j : ℕ) :
    List (List Char) → Option (Fin 32 → ℕ)
  | [] => some reg
  | name :: names =>
      match cp with
      | none => none
      | some s =>
          if name <+: s then
            let reg := Function.update reg (Fin.ofNat 32 (j + 1)) (strtoull 16 (s.drop 7))
            match strstr (s.drop 7) "0x".toList with
            | some s' =>
                let reg := Function.update reg (Fin.ofNat 32 (j + 17)) (strtoull 16 (s'.drop 2))
                scanNames reg (some s') (j + 1) names
            | none => scanNames reg none (j + 1) names
          else scanNames reg (some s) (j + 1) names

/-- The body of the loop, on the string in `buff`. -/
def scanLine (st : State) (buff : List Char) : Option State :=
  if "cpu0:".toList <+: buff then
    let cp := (buff.drop 5).dropWhile (· = ' ')
    if "pc = 0x".toList <+: cp then some { st with pc := strtoull 16 (cp.drop 7) }
    else if "s0 = 0x".toList <+: cp then
      some { st with reg := Function.update st.reg 16 (strtoull 16 (cp.drop 7)) }
    else (scanNames st.reg (some cp) 0 reg_names).map fun reg => { st with reg }
  else some st

/-- The dump that is printed in the end. -/
def printDump (st : State) : List Char :=
  "======   Registers   ======\n".toList ++ "DEBUG MIPS COREID 0\n".toList ++
    ("DEBUG MIPS PC 0x".toList ++ printHex 16 st.pc ++ ['\n']) ++
    (List.finRange 32).flatMap fun i : Fin 32 =>
      "DEBUG MIPS REG ".toList ++ padLeft 2 (printNat i.val) ++ " 0x".toList ++
        printHex 16 (st.reg i) ++ ['\n']

/-- `main`: what is printed, where no null pointer is read. -/
def main (stdin : List Char) : Option (List Char) :=
  let buffs := (fgetsAll 79 stdin).map fun chunk => cstr (fill [] chunk) 0
  (buffs.foldlM scanLine ⟨fun _ => 0, 0⟩).map fun st => buffs.flatten ++ printDump st

end Cheritest.Gxemultosim

namespace Cheritest.Gxemul

open Text Pattern

/-! ### The parser -/

def MIPS_REG_NUM2NAME : List (List Char) :=
  ["zero".toList, "at".toList, "v0".toList, "v1".toList, "a0".toList, "a1".toList, "a2".toList,
    "a3".toList, "a4".toList, "a5".toList, "a6".toList, "a7".toList, "t0".toList, "t1".toList,
    "t2".toList, "t3".toList, "s0".toList, "s1".toList, "s2".toList, "s3".toList, "s4".toList,
    "s5".toList, "s6".toList, "s7".toList, "t8".toList, "t9".toList, "k0".toList, "k1".toList,
    "gp".toList, "sp".toList, "fp".toList, "ra".toList]

/-- `MIPS_REG_NAME2NUM.get(name, None)`. -/
def regNum (name : List Char) : Option (Fin 32) :=
  (List.finRange 32).find? fun i => MIPS_REG_NUM2NAME[i.val]? = some name

/-- `(..)`. -/
def twoChars : Pattern := group (times (· ≠ '\n') 2)

def MIPS_REG_RE : Pattern :=
  boundary.seq <| (notAhead "pc".toList).seq <| (notAhead "hi".toList).seq <|
    (notAhead "lo".toList).seq <| twoChars.seq <| (lit " = ".toList).seq Sim.hex16

def MIPS_PC_RE : Pattern := boundary.seq <| (lit "pc = ".toList).seq Sim.hex16

inductive ParseError
  | valueError
  | typeError
  | noPC
  | noRegister (i : Fin 32)
  deriving DecidableEq

/-- The fields of a `MipsStatus`. -/
structure MipsStatus where
  reg_vals : Fin 32 → Option ℕ
  pc : Option ℕ

/-- gxemul's names are those of the old ABI. -/
def newName (name : List Char) : List Char :=
  if name = "t0".toList then "a4".toList
  else if name = "t1".toList then "a5".toList
  else if name = "t2".toList then "a6".toList
  else if name = "t3".toList then "a7".toList
  else if name = "t4".toList then "t0".toList
  else if name = "t5".toList then "t1".toList
  else if name = "t6".toList then "t2".toList
  else if name = "t7".toList then "t3".toList
  else name

/-- `int(s, 16)`. -/
def parseHex (s : List Char) : Except ParseError ℕ :=
  match intHex s with
  | some v => .ok v
  | none => .error .valueError

/-- The body of the loop over the registers of a line. -/
def parseReg (pc_groups : Option Groups) (st : MipsStatus) (reg : Groups) :
    Except ParseError MipsStatus := do
  let reg_val ← parseHex (Sim.groupAt reg 1)
  match regNum (newName (Sim.groupAt reg 0)) with
  | none => .error .typeError
  | some reg_num =>
      let st := { st with reg_vals := Function.update st.reg_vals reg_num (some reg_val) }
      match pc_groups with
      | none => .ok st
      | some m => do
          let pc ← parseHex (Sim.groupAt m 0)
          return { st with pc := some pc }

/-- The body of the loop of `parse_log`. -/
def parseLine (st : MipsStatus) (line : List Char) : Except ParseError MipsStatus :=
  let line := strip line
  let reg_groups := MIPS_REG_RE.findall line
  let pc_groups := (MIPS_PC_RE.search line).map Prod.fst
  reg_groups.foldlM (parseReg pc_groups) st

def parse_log (st : MipsStatus) (fh : List Char) : Except ParseError MipsStatus :=
  (fileLines fh).foldlM parseLine st

/-- The constructor of `MipsStatus`. -/
def MipsStatus.init (fh : List Char) : Except ParseError MipsStatus := do
  let st ← parse_log ⟨fun _ => none, none⟩ fh
  let st := { st with reg_vals := Function.update st.reg_vals 0 (some 0) }
  if st.pc = none then throw .noPC
  match (List.finRange 32).find? fun i => st.reg_vals i = none with
  | some i => throw (.noRegister i)
  | none => return st

/-! ### Dumps -/

/-- The registers that stand in the first column. -/
def firstNames : List (List Char) :=
  ["at".toList, "v0".toList, "v1".toList, "a0".toList, "a1".toList, "a2".toList, "a3".toList,
    "t0".toList, "t1".toList, "t2".toList, "t3".toList, "t4".toList, "t5".toList, "t6".toList,
    "t7".toList]

/-- Their partners in the second column. -/
def secondNames : List (List Char) :=
  ["s1".toList, "s2".toList, "s3".toList, "s4".toList, "s5".toList, "s6".toList, "s7".toList,
    "t8".toList, "t9".toList, "k0".toList, "k1".toList, "gp".toList, "sp".toList, "fp".toList,
    "ra".toList]

/-- What stands on a line of a dump. -/
inductive Row
  | pc (v : Hex16)
  | hilo (hi lo : Hex16)
  | s0 (v : Hex16)
  | pair (j : Fin 15) (v w : Hex16)

/-- A line of a dump: a row, and how far its columns are moved in. -/
structure DumpLine where
  row : Row
  indent : ℕ
  gap : ℕ

/-- `name = 0x<digits>`. -/
def field (name : List Char) (v : Hex16) : List Char := name ++ " = 0x".toList ++ v.digits

/-- The fields of a row. -/
def Row.fields (gap : ℕ) : Row → List Char
  | pc v => field "pc".toList v
  | hilo hi lo => field "hi".toList hi ++ List.replicate gap ' ' ++ field "lo".toList lo
  | s0 v => field "s0".toList v
  | pair j v w =>
      field (firstNames.getD j []) v ++ List.replicate gap ' ' ++ field (secondNames.getD j []) w

def DumpLine.text (l : DumpLine) : List Char :=
  "cpu0:".toList ++ List.replicate l.indent ' ' ++ l.row.fields l.gap

/-- A line with room between its columns, shorter than the filter's buffer. -/
def DumpLine.Fits (l : DumpLine) : Prop := 0 < l.indent ∧ 0 < l.gap ∧ l.text.length < 80

/-- A log, as text. -/
def render (log : List DumpLine) : List Char := log.flatMap fun l => l.text ++ ['\n']

/-- Both decoders have a status, with the same registers and the same pc. -/
def Agree (log : List Char) : Prop :=
  ∃ status out sim, MipsStatus.init log = .ok status ∧ Gxemultosim.main log = some out ∧
    Sim.MipsStatus.init out = .ok sim ∧ (∀ r, (sim.threads.get 0).reg_vals r = status.reg_vals r) ∧
    sim.pc = status.pc

/-! ### What the expressions find -/

/-- A match starts with two characters other than `pc`, and an equals sign
between blanks. -/
theorem rest_of_first_reg {p : Pos} {m : Groups × Pos} (h : MIPS_REG_RE.first p = some m) :
    ∃ x y rest, p.rest = x :: y :: (" = ".toList ++ rest) ∧ ¬"pc".toList <+: p.rest := by
  unfold MIPS_REG_RE at h
  obtain ⟨m₁, hm₁, m', h⟩ := exists_of_first_seq h
  rw [eq_of_mem_boundary hm₁] at h
  obtain ⟨m₂, hm₂, m', h⟩ := exists_of_first_seq h
  obtain ⟨hpc, rfl⟩ := of_mem_notAhead hm₂
  obtain ⟨m₃, hm₃, m', h⟩ := exists_of_first_seq h
  obtain ⟨-, rfl⟩ := of_mem_notAhead hm₃
  obtain ⟨m₄, hm₄, m', h⟩ := exists_of_first_seq h
  obtain ⟨-, rfl⟩ := of_mem_notAhead hm₄
  obtain ⟨m₅, hm₅, m', h⟩ := exists_of_first_seq h
  obtain ⟨m₆, hm₆, hpos⟩ := of_mem_group hm₅
  rw [hpos] at h
  obtain ⟨m₇, hm₇, -⟩ := exists_of_first_seq h
  obtain ⟨rest, hrest, -⟩ := of_mem_lit hm₇
  simp only [times, results, List.mem_flatMap, List.mem_map] at hm₆
  obtain ⟨n₁, hn₁, n, ⟨n₂, hn₂, n₃, hn₃, rfl⟩, rfl⟩ := hm₆
  obtain ⟨x, t, -, hx, rfl⟩ := of_mem_char hn₁
  obtain ⟨y, t', -, hy, rfl⟩ := of_mem_char hn₂
  obtain rfl := List.mem_singleton.mp hn₃
  refine ⟨x, y, rest, ?_, hpc⟩
  rw [hx, show t = y :: t' from hy]
  exact congrArg (x :: y :: ·) hrest

/-- On a line with one equals sign, after `pc`, no register is found. -/
theorem findall_pc {s t : List Char} (hs : '=' ∉ s) (ht : '=' ∉ t) :
    MIPS_REG_RE.findall (s ++ "pc = ".toList ++ t) = [] := by
  apply findall_eq_nil
  apply searchFrom_eq_none
  intro l r hlr
  rcases hfirst : MIPS_REG_RE.first ⟨l.reverse ++ [], r⟩ with - | m
  · rfl
  · exfalso
    obtain ⟨x, y, rest, hr, hpc⟩ := rest_of_first_reg hfirst
    have hleft : s ++ "pc = ".toList ++ t = (s ++ "pc ".toList) ++ '=' :: (' ' :: t) := by simp
    have hright : l ++ r = (l ++ [x, y, ' ']) ++ '=' :: (' ' :: rest) := by
      rw [show r = _ from hr]
      simp
    have hnotin : '=' ∉ s ++ "pc ".toList := by simp [hs]
    have hnotin' : '=' ∉ ' ' :: t := by simp [ht]
    -- the equals signs are the same one
    rw [hleft, hright, List.append_cons_inj_of_notMem hnotin hnotin'] at hlr
    obtain ⟨hname, -⟩ := hlr
    obtain ⟨-, hxy⟩ := List.append_inj' hname rfl
    apply hpc
    rw [show r = _ from hr]
    obtain ⟨rfl, hy⟩ := List.cons.inj hxy
    obtain ⟨rfl, -⟩ := List.cons.inj hy
    exact ⟨_, rfl⟩

/-- Text in which no `c` comes after a `p`, and none would after its end. -/
def NoPc (s : List Char) : Prop := s.IsChain (fun a b => a = 'p' → b ≠ 'c') ∧ 'p' ∉ s.getLast?

theorem NoPc.append {s t : List Char} (hs : NoPc s) (ht : NoPc t) : NoPc (s ++ t) := by
  constructor
  · rw [List.isChain_append]
    refine ⟨hs.1, ht.1, ?_⟩
    rintro x hx y - rfl
    exact absurd hx hs.2
  · intro hp
    rcases List.eq_nil_or_concat t with rfl | ⟨u, c, rfl⟩
    · rw [List.append_nil] at hp
      exact hs.2 hp
    · rw [List.concat_eq_append] at hp ht
      rw [List.getLast?_append_of_ne_nil _ (by simp)] at hp
      exact ht.2 hp

theorem noPc_of_not_mem {s : List Char} (h : 'p' ∉ s) : NoPc s := by
  constructor
  · apply List.Pairwise.isChain
    apply List.pairwise_of_forall_mem_list
    rintro a ha b - rfl
    exact absurd ha h
  · intro hp
    exact h (List.mem_of_mem_getLast? hp)

/-- Without `pc` in it, a line has no pc. -/
theorem search_pc_eq_none {s : List Char} (h : NoPc s) : MIPS_PC_RE.search s = none := by
  apply searchFrom_eq_none
  intro l r hlr
  rcases hfirst : MIPS_PC_RE.first ⟨l.reverse ++ [], r⟩ with - | m
  · rfl
  · exfalso
    obtain ⟨m₁, hm₁, m', hrest⟩ := exists_of_first_seq hfirst
    rw [eq_of_mem_boundary hm₁] at hrest
    obtain ⟨m₂, hm₂, -⟩ := exists_of_first_seq hrest
    obtain ⟨rest, hr, -⟩ := of_mem_lit hm₂
    have hsplit : s = l ++ 'p' :: 'c' :: (" = ".toList ++ rest) := by
      rw [hlr, show r = _ from hr]
      rfl
    have hchain := h.1
    rw [hsplit] at hchain
    exact hchain.right_of_append.rel rfl rfl

/-! ### No dump has a status -/

theorem noPc_field {name : List Char} (h : NoPc (name ++ " = 0x".toList)) (v : Hex16) :
    NoPc (field name v) :=
  h.append (noPc_of_not_mem (v.not_mem rfl))

theorem noPc_blanks (n : ℕ) : NoPc (List.replicate n ' ') :=
  noPc_of_not_mem fun h => absurd (List.eq_of_mem_replicate h) (by decide)

instance : DecidablePred NoPc := fun _ => inferInstanceAs (Decidable (_ ∧ _))

/-- On a line without the pc, the pc is not found. -/
theorem noPc_text {l : DumpLine} (h : ∀ v, l.row ≠ .pc v) : NoPc l.text := by
  have hrow : NoPc (l.row.fields l.gap) := by
    rcases hl : l.row with v | ⟨hi, lo⟩ | v | ⟨j, v, w⟩
    · exact absurd hl (h v)
    · exact ((noPc_field (by decide) hi).append (noPc_blanks _)).append (noPc_field (by decide) lo)
    · exact noPc_field (by decide) v
    · have hfirst : ∀ j : Fin 15, NoPc (firstNames.getD j [] ++ " = 0x".toList) := by decide
      have hsecond : ∀ j : Fin 15, NoPc (secondNames.getD j [] ++ " = 0x".toList) := by decide
      exact ((noPc_field (hfirst j) v).append (noPc_blanks _)).append (noPc_field (hsecond j) w)
  have hcpu : NoPc "cpu0:".toList := by decide
  exact (hcpu.append (noPc_blanks _)).append hrow

/-- A row ends with digits. -/
theorem exists_fields (gap : ℕ) (row : Row) :
    ∃ t, ∃ v : Hex16, row.fields gap = t ++ v.digits := by
  cases row with
  | pc v => exact ⟨_, v, rfl⟩
  | hilo hi lo => exact ⟨_, lo, (List.append_assoc _ _ _).symm⟩
  | s0 v => exact ⟨_, v, rfl⟩
  | pair j v w => exact ⟨_, w, (List.append_assoc _ _ _).symm⟩

theorem strip_text (l : DumpLine) : strip l.text = l.text := by
  obtain ⟨t, v, hfields⟩ := exists_fields l.gap l.row
  have htext : l.text = "cpu0:".toList ++ (List.replicate l.indent ' ' ++ t ++ v.digits) := by
    unfold DumpLine.text
    rw [hfields, List.append_assoc, List.append_assoc]
  have hne : v.digits ≠ [] := List.ne_nil_of_length_pos (by rw [v.length_eq]; decide)
  apply strip_eq_self
  · rw [htext]
    rintro c ⟨⟩
    rfl
  · rw [htext, ← List.append_assoc]
    exact Sim.getLast_digits hne v.hex

theorem findall_text {l : DumpLine} {v : Hex16} (h : l.row = .pc v) :
    MIPS_REG_RE.findall l.text = [] := by
  have htext : l.text = ("cpu0:".toList ++ List.replicate l.indent ' ') ++ "pc = ".toList ++
      ("0x".toList ++ v.digits) := by
    unfold DumpLine.text
    rw [h]
    simp [Row.fields, field]
  rw [htext]
  apply findall_pc
  · simp
  · intro h
    rcases List.mem_append.mp h with h | h
    · exact absurd h (by decide)
    · exact v.not_mem rfl h

theorem pc_of_parseReg {st st' : MipsStatus} {reg : Groups} (h : parseReg none st reg = .ok st') :
    st'.pc = st.pc := by
  unfold parseReg at h
  rcases hval : parseHex (Sim.groupAt reg 1) with e | v
  · rw [hval] at h
    cases h
  · rw [hval] at h
    rcases hnum : regNum (newName (Sim.groupAt reg 0)) with - | i
    · simp only [hnum] at h
      cases h
    · simp only [hnum] at h
      cases h
      rfl

/-- No line of a dump gives a pc. -/
theorem pc_of_parseLine {l : DumpLine} {st st' : MipsStatus} (hst : st.pc = none)
    (h : parseLine st l.text = .ok st') : st'.pc = none := by
  unfold parseLine at h
  simp only [strip_text] at h
  by_cases hpc : ∃ v, l.row = .pc v
  · -- a pc line names no register, so the loop that stores the pc is empty
    obtain ⟨v, hv⟩ := hpc
    rw [findall_text hv] at h
    cases h
    exact hst
  · have hsearch : MIPS_PC_RE.search l.text = none :=
      search_pc_eq_none (noPc_text fun v hv => hpc ⟨v, hv⟩)
    rw [hsearch] at h
    refine foldlM_keeps (P := fun st => st.pc = none) ?_ hst h
    intro reg _ b b' hb hreg
    exact (pc_of_parseReg hreg).trans hb

theorem newline_not_mem_field {name : List Char} (h : '\n' ∉ name) (v : Hex16) :
    '\n' ∉ field name v := by
  intro hmem
  rcases List.mem_append.mp hmem with hmem | hmem
  · rcases List.mem_append.mp hmem with hmem | hmem
    · exact h hmem
    · exact absurd hmem (by decide)
  · exact v.not_mem rfl hmem

theorem newline_not_mem_text (l : DumpLine) : '\n' ∉ l.text := by
  have hcolumns : ∀ {s t : List Char} {n : ℕ}, '\n' ∉ s → '\n' ∉ t →
      '\n' ∉ s ++ List.replicate n ' ' ++ t := by
    intro s t n hs ht
    simp [hs, ht]
  apply hcolumns (by decide)
  cases l.row with
  | pc v => exact newline_not_mem_field (by decide) v
  | hilo hi lo =>
    exact hcolumns (newline_not_mem_field (by decide) hi) (newline_not_mem_field (by decide) lo)
  | s0 v => exact newline_not_mem_field (by decide) v
  | pair j v w =>
    have hfirst : ∀ j : Fin 15, '\n' ∉ firstNames.getD j [] := by decide
    have hsecond : ∀ j : Fin 15, '\n' ∉ secondNames.getD j [] := by decide
    exact hcolumns (newline_not_mem_field (hfirst j) v) (newline_not_mem_field (hsecond j) w)

/-- **The parser of gxemul's dumps has no status for any of them.** -/
theorem init_ne_ok (log : List DumpLine) (status : MipsStatus) :
    MipsStatus.init (render log) ≠ .ok status := by
  intro h
  unfold MipsStatus.init at h
  rcases hparse : parse_log ⟨fun _ => none, none⟩ (render log) with e | st
  · rw [hparse] at h
    cases h
  · have hpc : st.pc = none := by
      have hnl : ∀ t ∈ log.map DumpLine.text, '\n' ∉ t := by
        intro t ht
        obtain ⟨l, -, rfl⟩ := List.mem_map.mp ht
        exact newline_not_mem_text l
      have hlines := fileLines_lines hnl
      rw [List.flatMap_map] at hlines
      unfold parse_log at hparse
      rw [show fileLines (render log) = _ from hlines] at hparse
      refine foldlM_keeps (P := fun st => st.pc = none) ?_ rfl hparse
      intro t ht b b' hb hline
      obtain ⟨l, -, rfl⟩ := List.mem_map.mp ht
      exact pc_of_parseLine hb hline
    obtain ⟨reg_vals, pc⟩ := st
    cases hpc
    rw [hparse] at h
    cases h

/-- **The decoders agree on no dump**: gxemul's parser has no status for it. -/
theorem decoders_never_agree (log : List DumpLine) : ¬Agree (render log) := by
  rintro ⟨status, -, -, hstatus, -⟩
  exact init_ne_ok log status hstatus

/-- A dump in which every value is `v`. -/
def uniformDump (v : Hex16) : List DumpLine :=
  (Row.pc v :: .hilo v v :: .s0 v :: (List.finRange 15).map fun j => .pair j v v).map
    fun row => ⟨row, 4, 4⟩

/-- A whole dump, in its usual form, on which they do not agree. -/
theorem decoders_disagree :
    (∀ l ∈ uniformDump .zero, l.Fits) ∧ ¬Agree (render (uniformDump .zero)) := by
  constructor
  · unfold DumpLine.Fits
    decide
  · rintro ⟨status, -, -, hstatus, -⟩
    exact init_ne_ok _ status hstatus

end Cheritest.Gxemul
