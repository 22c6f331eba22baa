/-
Cheritest/Tools/L3tosim.lean

l3tosim.c, which turns the register dump of the L3 simulator into the
`DEBUG MIPS` lines that the test suite parses, and the two of them together.
-/
import Cheritest.Lib.Buffer
import Cheritest.Tools.Sim

namespace Cheritest.L3tosim

open Text

/-! ### The filter -/

/-- What `main` keeps from line to line. -/
structure State where
  core : ℤ
  buff : List Char

/-- Replace the newline at the end of the string by a NUL. -/
def chomp (buff : List Char) : List Char :=
  let len := (cstr buff 0).length
  if buff[len - 1]? = some '\n' then buff.set (len - 1) '\x00' else buff

/-- The body of the loop: the next state, and what is printed. -/
def convert (st : State) (chunk : List Char) : State × List Char :=
  let buff := chomp (fill st.buff chunk)
  let line := cstr buff 0
  if "Reg ".toList <+: line ∧ ¬"<-".toList <:+: line then
    let buff := buff.set 6 '\x00'
    let reg_num := toInt32 (strtol 10 (cstr buff 4))
    ({ st with buff }, "DEBUG MIPS REG ".toList ++ padLeft 2 (printInt reg_num) ++ " 0x".toList ++
      cstr buff 7 ++ ['\n'])
  else if "PC ".toList <+: line ∧ st.core = 0 then
    ({ st with buff }, "DEBUG MIPS PC 0x".toList ++ cstr buff 7 ++ ['\n'])
  else if "Core = ".toList <+: line then
    let core := toInt32 (strtol 0 (cstr buff 7))
    ({ core, buff }, "DEBUG MIPS COREID ".toList ++ printInt core ++ ['\n'])
  else if "DEBUG CAP".toList <+: line then
    ({ st with buff }, line ++ ['\n'])
  else ({ st with buff }, [])

/-- What is printed for the lines that `fgets` reads. -/
def convertAll (st : State) : List (List Char) → List Char
  | [] => []
  | chunk :: chunks => (convert st chunk).2 ++ convertAll (convert st chunk).1 chunks

/-- `main`, on the buffer's first content. -/
def main (buff stdin : List Char) : List Char := convertAll ⟨0, buff⟩ (fgetsAll 1022 stdin)

/-! ### Logs -/

/-- A line of a run log.  A register number is filled to two columns with a
zero or a blank. -/
inductive LogLine
  | core (id : ℕ)
  | pc (v : Hex16)
  | reg (zero : Bool) (r : Fin 32) (v : Hex16)
  | other (text : List Char)

/-- The two columns of a register number. -/
def regField (zero : Bool) (r : Fin 32) : List Char :=
  if zero && decide (r.val < 10) then '0' :: printNat r else padLeft 2 (printNat r)

def LogLine.text : LogLine → List Char
  | core id => "Core = ".toList ++ printNat id
  | pc v => "PC     ".toList ++ v.digits
  | reg zero r v => "Reg ".toList ++ regField zero r ++ ' ' :: v.digits
  | other text => text

/-- The other lines of a log: text that fits in the buffer, either a trace of a
register write or a line that starts as none of the converted ones does. -/
def OtherLine (text : List Char) : Prop :=
  '\n' ∉ text ∧ '\x00' ∉ text ∧ text.length < 1022 ∧
    ("Reg ".toList <+: text ∧ "<-".toList <:+: text ∨
      ¬"Reg ".toList <+: text ∧ ¬"PC ".toList <+: text ∧ ¬"Core = ".toList <+: text ∧
        ¬"DEBUG CAP".toList <+: text)

/-- A log, as text. -/
def render (lines : List LogLine) : List Char := lines.flatMap fun l => l.text ++ ['\n']

/-! ### One line -/

theorem chomp_line {l : List Char} (hl : '\x00' ∉ l) (buff : List Char) :
    ∃ rest, chomp (fill buff (l ++ ['\n'])) = l ++ '\x00' :: rest := by
  obtain ⟨rest, hfill⟩ : ∃ rest, fill buff (l ++ ['\n']) = (l ++ ['\n']) ++ '\x00' :: rest :=
    ⟨_, rfl⟩
  have hnul : ∀ c ∈ l ++ ['\n'], c ≠ '\x00' := by
    rintro c hc rfl
    rcases List.mem_append.mp hc with hc | hc
    · exact hl hc
    · exact absurd (List.mem_singleton.mp hc) (by decide)
  have hcstr : cstr (fill buff (l ++ ['\n'])) 0 = l ++ ['\n'] := by
    rw [hfill, cstr_append hnul (Nat.zero_le _), List.drop_zero]
  refine ⟨'\x00' :: rest, ?_⟩
  unfold chomp
  simp only [hcstr, List.length_append, List.length_singleton, Nat.add_sub_cancel]
  rw [hfill, List.append_assoc, List.getElem?_append_right le_rfl, Nat.sub_self]
  show (if some '\n' = some '\n' then _ else _) = _
  rw [if_pos rfl, List.set_append_right _ _ le_rfl, Nat.sub_self]
  rfl

/-- The strings in the buffer, once a line is in it. -/
theorem cstr_chomp {l : List Char} (hl : '\x00' ∉ l) (buff : List Char) {k : ℕ} (hk : k ≤ l.length) :
    cstr (chomp (fill buff (l ++ ['\n']))) k = l.drop k := by
  obtain ⟨rest, hrest⟩ := chomp_line hl buff
  rw [hrest]
  exact cstr_append (fun c hc h => hl (h ▸ hc)) hk rest

/-- The first six columns and the rest, once column 6 is a NUL. -/
theorem cstr_set {a b : List Char} {c : Char} (ha : '\x00' ∉ a) (hb : '\x00' ∉ b)
    (hc : c ≠ '\x00') (buff : List Char) {k : ℕ} (hk : k ≤ a.length) :
    cstr ((chomp (fill buff (a ++ c :: b ++ ['\n']))).set a.length '\x00') k = a.drop k ∧
      cstr ((chomp (fill buff (a ++ c :: b ++ ['\n']))).set a.length '\x00') (a.length + 1) = b := by
  have hl : '\x00' ∉ a ++ c :: b := by
    intro h
    rcases List.mem_append.mp h with h | h
    · exact ha h
    · rcases List.mem_cons.mp h with h | h
      · exact hc h.symm
      · exact hb h
  obtain ⟨rest, hrest⟩ := chomp_line hl buff
  rw [hrest, List.append_assoc, List.set_append_right _ _ le_rfl, Nat.sub_self]
  constructor
  · exact cstr_append (fun c hc h => ha (h ▸ hc)) hk _
  · have hb' := cstr_append (fun c hc h => hb (h ▸ hc)) (Nat.zero_le b.length) rest
    have hdrop : (a ++ (c :: b ++ '\x00' :: rest).set 0 '\x00').drop (a.length + 1) =
        b ++ '\x00' :: rest := by
      rw [← List.drop_drop, List.drop_left]
      rfl
    unfold cstr at hb' ⊢
    rw [hdrop]
    exact hb'

end Cheritest.L3tosim
