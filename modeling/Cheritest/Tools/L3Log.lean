/-
Cheritest/Tools/L3Log.lean

A log of the L3 simulator through `l3tosim` and the parser.

`parse_main`: filtering a log and parsing the result comes to applying its
lines to the threads, one after the other (`LogLine.apply`).  A log made of
one block for each core then gives every core its own dump, and nothing else
(`l3_pipeline`).  The filter keeps a core's number in an `int`, so this is
about numbers below 2^31; and a status needs a pc, so core 0 must be there.
-/
import Cheritest.Tools.L3tosim

namespace Cheritest.L3tosim

open Text Sim

/-! ### What a line does -/

/-- The core number that `main` reads for a core. -/
def coreOf (id : ℕ) : ℤ := toInt32 (strtol 0 (printNat id))

/-- What a line does to the threads, once converted. -/
def LogLine.apply (st : ParseState) : LogLine → ParseState
  | core id => { st with thread := (coreOf id).toNat }
  | pc v => if st.thread = 0 then st.modify fun t => t.setPc v.val else st
  | reg _ r v => st.modify fun t => t.setReg r v.val
  | other _ => st

/-- A line that is read whole, with a core number that the filter prints
without a sign. -/
def LogLine.Readable : LogLine → Prop
  | core id => id < 2 ^ 63 ∧ 0 ≤ coreOf id
  | pc _ => True
  | reg _ _ _ => True
  | other text => OtherLine text

theorem not_mem_printNat {n : ℕ} {c : Char} (hc : c.isDigit = false) : c ∉ printNat n := by
  intro h
  rw [isDigit_of_mem_printNat h] at hc
  cases hc

theorem printInt_of_nonneg {z : ℤ} (hz : 0 ≤ z) : printInt z = printNat z.toNat := by
  obtain ⟨n, rfl⟩ := Int.eq_ofNat_of_zero_le hz
  rfl

/-! ### The branches of the filter -/

section Branches

variable (st : State) {chunk line : List Char}

theorem convert_reg (hline : cstr (chomp (fill st.buff chunk)) 0 = line)
    (h : "Reg ".toList <+: line ∧ ¬"<-".toList <:+: line) :
    convert st chunk =
      (⟨st.core, (chomp (fill st.buff chunk)).set 6 '\x00'⟩,
        "DEBUG MIPS REG ".toList ++
          padLeft 2 (printInt (toInt32
            (strtol 10 (cstr ((chomp (fill st.buff chunk)).set 6 '\x00') 4)))) ++
          " 0x".toList ++ cstr ((chomp (fill st.buff chunk)).set 6 '\x00') 7 ++ ['\n']) := by
  subst hline
  exact if_pos h

theorem convert_pc (hline : cstr (chomp (fill st.buff chunk)) 0 = line)
    (hreg : ¬("Reg ".toList <+: line ∧ ¬"<-".toList <:+: line))
    (h : "PC ".toList <+: line ∧ st.core = 0) :
    convert st chunk =
      (⟨st.core, chomp (fill st.buff chunk)⟩,
        "DEBUG MIPS PC 0x".toList ++ cstr (chomp (fill st.buff chunk)) 7 ++ ['\n']) := by
  subst hline
  exact (if_neg hreg).trans (if_pos h)

theorem convert_core (hline : cstr (chomp (fill st.buff chunk)) 0 = line)
    (hreg : ¬("Reg ".toList <+: line ∧ ¬"<-".toList <:+: line))
    (hpc : ¬("PC ".toList <+: line ∧ st.core = 0)) (h : "Core = ".toList <+: line) :
    convert st chunk =
      (⟨toInt32 (strtol 0 (cstr (chomp (fill st.buff chunk)) 7)), chomp (fill st.buff chunk)⟩,
        "DEBUG MIPS COREID ".toList ++
          printInt (toInt32 (strtol 0 (cstr (chomp (fill st.buff chunk)) 7))) ++ ['\n']) := by
  subst hline
  exact (if_neg hreg).trans ((if_neg hpc).trans (if_pos h))

theorem convert_nothing (hline : cstr (chomp (fill st.buff chunk)) 0 = line)
    (hreg : ¬("Reg ".toList <+: line ∧ ¬"<-".toList <:+: line))
    (hpc : ¬("PC ".toList <+: line ∧ st.core = 0)) (hcore : ¬"Core = ".toList <+: line)
    (hcap : ¬"DEBUG CAP".toList <+: line) :
    convert st chunk = (⟨st.core, chomp (fill st.buff chunk)⟩, []) := by
  subst hline
  exact (if_neg hreg).trans ((if_neg hpc).trans ((if_neg hcore).trans (if_neg hcap)))

end Branches

/-! ### One line through filter and parser -/

/-- What the filter prints for a line makes the parser apply the line. -/
def Converts (st : ParseState) (l : LogLine) : Prop :=
  ∀ buff, ∃ out : List (List Char),
    (convert ⟨st.thread, buff⟩ (l.text ++ ['\n'])).2 = out.flatMap (fun o => o ++ ['\n']) ∧
    (convert ⟨st.thread, buff⟩ (l.text ++ ['\n'])).1.core = (l.apply st).thread ∧
    (∀ o ∈ out, '\n' ∉ o) ∧ out.foldlM parseLine st = .ok (l.apply st)

section Lines

variable {st : ParseState}

theorem converts_other {text : List Char} (h : OtherLine text) : Converts st (.other text) := by
  intro buff
  obtain ⟨-, hnul, -, hstart⟩ := h
  have hline : cstr (chomp (fill buff (text ++ ['\n']))) 0 = text :=
    (cstr_chomp hnul buff (Nat.zero_le _)).trans List.drop_zero
  have hreg : ¬("Reg ".toList <+: text ∧ ¬"<-".toList <:+: text) := by
    rintro ⟨hreg, hno⟩
    rcases hstart with ⟨-, harrow⟩ | ⟨hno', -⟩
    · exact hno harrow
    · exact hno' hreg
  -- a trace of a register write starts with none of the other words
  have hrest : ¬"PC ".toList <+: text ∧ ¬"Core = ".toList <+: text ∧
      ¬"DEBUG CAP".toList <+: text := by
    rcases hstart with ⟨⟨t, rfl⟩, -⟩ | ⟨-, h⟩
    · simp
    · exact h
  obtain ⟨hpc, hcore, hcap⟩ := hrest
  have hconvert := convert_nothing ⟨st.thread, buff⟩ hline hreg (fun h => hpc h.1) hcore hcap
  refine ⟨[], ?_, ?_, by simp, rfl⟩
  · exact congrArg Prod.snd hconvert
  · exact congrArg (fun r => r.1.core) hconvert

theorem converts_core {id : ℕ} (h : id < 2 ^ 63 ∧ 0 ≤ coreOf id) : Converts st (.core id) := by
  intro buff
  have hnul : '\x00' ∉ "Core = ".toList ++ printNat id := by
    simp [not_mem_printNat]
  have hline := (cstr_chomp hnul buff (Nat.zero_le _)).trans List.drop_zero
  have hnum : cstr (chomp (fill buff ("Core = ".toList ++ printNat id ++ ['\n']))) 7 =
      printNat id := cstr_chomp hnul buff (by simp)
  have hconvert := convert_core ⟨st.thread, buff⟩ hline (by simp) (by simp)
    (List.prefix_append _ _)
  rw [hnum] at hconvert
  have hprint : printInt (coreOf id) = printNat (coreOf id).toNat := printInt_of_nonneg h.2
  refine ⟨["DEBUG MIPS COREID".toList ++ ([' '] ++ printNat (coreOf id).toNat)], ?_, ?_, ?_, ?_⟩
  · refine (congrArg Prod.snd hconvert).trans ?_
    show "DEBUG MIPS COREID ".toList ++ printInt (coreOf id) ++ ['\n'] = _
    rw [hprint, List.flatMap_singleton]
    rfl
  · exact (congrArg (fun r => r.1.core) hconvert).trans (Int.toNat_of_nonneg h.2).symm
  · simp [not_mem_printNat]
  · rw [List.foldlM_cons, parseLine_core]
    rfl

theorem converts_pc (v : Hex16) : Converts st (.pc v) := by
  intro buff
  have hnulv : '\x00' ∉ v.digits := v.not_mem rfl
  have hnl : '\n' ∉ v.digits := v.not_mem rfl
  have hnul : '\x00' ∉ "PC     ".toList ++ v.digits := by
    simp [hnulv]
  have hline := (cstr_chomp hnul buff (Nat.zero_le _)).trans List.drop_zero
  have hnum : cstr (chomp (fill buff ("PC     ".toList ++ v.digits ++ ['\n']))) 7 = v.digits :=
    cstr_chomp hnul buff (by simp)
  by_cases hzero : st.thread = 0
  · have hcore : (st.thread : ℤ) = 0 := by rw [hzero]; rfl
    have hconvert := convert_pc ⟨st.thread, buff⟩ hline (by simp)
      ⟨⟨"    ".toList ++ v.digits, rfl⟩, hcore⟩
    rw [hnum] at hconvert
    have happly : (LogLine.pc v).apply st = st.modify fun t => t.setPc v.val := if_pos hzero
    refine ⟨["DEBUG MIPS PC".toList ++ ([' '] ++ ("0x".toList ++ v.digits))], ?_, ?_, ?_, ?_⟩
    · refine (congrArg Prod.snd hconvert).trans ?_
      rw [List.flatMap_singleton]
      rfl
    · rw [happly]
      exact congrArg (fun r => r.1.core) hconvert
    · simp [hnl]
    · rw [List.foldlM_cons, parseLine_pc v.length_eq v.hex, happly]
      rfl
  · have hcore : ¬(st.thread : ℤ) = 0 := fun h => hzero (Int.ofNat_eq_zero.mp h)
    have hconvert := convert_nothing ⟨st.thread, buff⟩ hline (by simp)
      (fun h => hcore h.2) (by simp) (by simp)
    have happly : (LogLine.pc v).apply st = st := if_neg hzero
    refine ⟨[], ?_, ?_, by simp, ?_⟩
    · exact congrArg Prod.snd hconvert
    · rw [happly]
      exact congrArg (fun r => r.1.core) hconvert
    · rw [happly]
      rfl

theorem toInt32_regField :
    ∀ zero r, toInt32 (strtol 10 (regField zero r)) = ((r : ℕ) : ℤ) := by decide

theorem regField_spec : ∀ zero r, (regField zero r).length = 2 ∧
    ∀ c ∈ regField zero r, c = ' ' ∨ c.isDigit = true := by
  have hall : ∀ zero r, (regField zero r).length = 2 ∧
      (regField zero r).all (fun c => c == ' ' || c.isDigit) = true := by decide
  intro zero r
  obtain ⟨hlen, hchars⟩ := hall zero r
  refine ⟨hlen, fun c hc => ?_⟩
  simpa using List.all_eq_true.mp hchars c hc

theorem not_mem_regField {zero : Bool} {r : Fin 32} {c : Char} (hspace : c ≠ ' ')
    (hc : c.isDigit = false) : c ∉ regField zero r := by
  intro hmem
  rcases (regField_spec zero r).2 c hmem with h | h
  · exact hspace h
  · rw [h] at hc
    cases hc

theorem converts_reg (zero : Bool) (r : Fin 32) (v : Hex16) : Converts st (.reg zero r v) := by
  intro buff
  have hnulr : '\x00' ∉ regField zero r := not_mem_regField (by decide) rfl
  have hnulv : '\x00' ∉ v.digits := v.not_mem rfl
  have hnul : '\x00' ∉ "Reg ".toList ++ regField zero r := by
    simp [hnulr]
  have htext : '\x00' ∉ "Reg ".toList ++ regField zero r ++ ' ' :: v.digits := by
    simp [hnulr, hnulv]
  have harrow : ¬"<-".toList <:+: "Reg ".toList ++ regField zero r ++ ' ' :: v.digits := by
    intro h
    have hr : '<' ∉ regField zero r := not_mem_regField (by decide) rfl
    have hv : '<' ∉ v.digits := v.not_mem rfl
    have hmem : '<' ∈ "Reg ".toList ++ regField zero r ++ ' ' :: v.digits :=
      h.subset (by decide)
    simp [hr, hv] at hmem
  have hlen6 : ("Reg ".toList ++ regField zero r).length = 6 := by
    rw [List.length_append, (regField_spec zero r).1]
    rfl
  have hline := (cstr_chomp htext buff (Nat.zero_le _)).trans List.drop_zero
  obtain ⟨hnum, hval⟩ := cstr_set hnul hnulv (show ' ' ≠ '\x00' by decide) buff (k := 4) (by omega)
  rw [hlen6] at hnum hval
  have hreg : "Reg ".toList <+: "Reg ".toList ++ regField zero r ++ ' ' :: v.digits :=
    ⟨regField zero r ++ ' ' :: v.digits, by rw [List.append_assoc]⟩
  have hconvert := convert_reg ⟨st.thread, buff⟩ hline ⟨hreg, harrow⟩
  have hdrop : ("Reg ".toList ++ regField zero r).drop 4 = regField zero r := rfl
  simp only at hconvert
  rw [hnum, hdrop, hval, toInt32_regField] at hconvert
  refine ⟨["DEBUG MIPS REG".toList ++ (' ' :: List.replicate (2 - (printNat r).length) ' ' ++
    (printNat r ++ ([' '] ++ ("0x".toList ++ v.digits))))], ?_, ?_, ?_, ?_⟩
  · refine (congrArg Prod.snd hconvert).trans ?_
    have hprint : printInt ((r : ℕ) : ℤ) = printNat r := rfl
    simp only [hprint, List.flatMap_singleton, padLeft, List.append_assoc]
    generalize printNat r = digits
    rfl
  · exact congrArg (fun r => r.1.core) hconvert
  · have hnl : '\n' ∉ printNat r := not_mem_printNat rfl
    have hnlv : '\n' ∉ v.digits := v.not_mem rfl
    simp [hnl, hnlv]
  · have hpad : ∀ c ∈ ' ' :: List.replicate (2 - (printNat r).length) ' ', isSpace c = true := by
      intro c hc
      have hspace : c = ' ' := by
        rcases List.mem_cons.mp hc with h | h
        · exact h
        · exact List.eq_of_mem_replicate h
      rw [hspace]
      rfl
    rw [List.foldlM_cons, parseLine_reg r.isLt (List.cons_ne_nil _ _) hpad v.length_eq v.hex]
    rfl

/-- Every line is converted to what makes the parser apply it. -/
theorem LogLine.Readable.converts {l : LogLine} (h : l.Readable) : Converts st l := by
  cases l with
  | core id => exact converts_core h
  | pc v => exact converts_pc v
  | reg zero r v => exact converts_reg zero r v
  | other text => exact converts_other h

end Lines

/-! ### A run -/

theorem length_printNat {n : ℕ} (hn : n < 2 ^ 63) : (printNat n).length ≤ 19 := by
  have hpow : n < 10 ^ 19 := by omega
  exact (Nat.length_toDigits_le_iff (by omega) (by omega)).mpr hpow

theorem LogLine.Readable.fits {l : LogLine} (h : l.Readable) :
    '\n' ∉ l.text ∧ l.text.length < 1022 := by
  cases l with
  | core id =>
    have hnl : '\n' ∉ printNat id := not_mem_printNat rfl
    have hlen := length_printNat h.1
    show '\n' ∉ "Core = ".toList ++ printNat id ∧ ("Core = ".toList ++ printNat id).length < 1022
    rw [List.length_append]
    exact ⟨by simp [hnl], Nat.lt_of_le_of_lt (Nat.add_le_add_left hlen 7) (by omega)⟩
  | pc v =>
    have hnl : '\n' ∉ v.digits := v.not_mem rfl
    show '\n' ∉ "PC     ".toList ++ v.digits ∧ ("PC     ".toList ++ v.digits).length < 1022
    rw [List.length_append, v.length_eq]
    exact ⟨by simp [hnl], by decide⟩
  | reg zero r v =>
    have hlen := (regField_spec zero r).1
    have hnlr : '\n' ∉ regField zero r := not_mem_regField (by decide) rfl
    have hnl : '\n' ∉ v.digits := v.not_mem rfl
    show '\n' ∉ "Reg ".toList ++ regField zero r ++ ' ' :: v.digits ∧
      ("Reg ".toList ++ regField zero r ++ ' ' :: v.digits).length < 1022
    rw [List.length_append, List.length_append, List.length_cons, v.length_eq, hlen]
    exact ⟨by simp [hnl, hnlr], by decide⟩
  | other text => exact ⟨h.1, h.2.2.1⟩

/-- The lines of a log, converted and parsed from any state. -/
theorem convertAll_lines {lines : List LogLine} (h : ∀ l ∈ lines, l.Readable) (st : ParseState)
    (buff : List Char) :
    ∃ out : List (List Char),
      convertAll ⟨st.thread, buff⟩ (lines.map fun l => l.text ++ ['\n']) =
        out.flatMap (fun o => o ++ ['\n']) ∧
      (∀ o ∈ out, '\n' ∉ o) ∧ out.foldlM parseLine st = .ok (lines.foldl LogLine.apply st) := by
  induction lines generalizing st buff with
  | nil => exact ⟨[], rfl, by simp, rfl⟩
  | cons l lines ih =>
    have hline : Converts st l := (h l List.mem_cons_self).converts
    obtain ⟨out, hout, hcore, hnl, hparse⟩ := hline buff
    have hrest := ih (fun x hx => h x (List.mem_cons_of_mem l hx)) (l.apply st)
      (convert ⟨st.thread, buff⟩ (l.text ++ ['\n'])).1.buff
    obtain ⟨out', hout', hnl', hparse'⟩ := hrest
    refine ⟨out ++ out', ?_, ?_, ?_⟩
    · rw [List.flatMap_append, ← hout, ← hout', ← hcore]
      rfl
    · intro o ho
      exact (List.mem_append.mp ho).elim (hnl o) (hnl' o)
    · rw [List.foldlM_append, hparse]
      exact hparse'

/-- **Refinement**: filtering a log and parsing the result is applying its
lines, one after the other. -/
theorem parse_main {lines : List LogLine} (h : ∀ l ∈ lines, l.Readable) (buff : List Char) :
    parse_log (main buff (render lines)) = .ok (lines.foldl LogLine.apply ⟨0, ∅⟩) := by
  have hfits : ∀ t ∈ lines.map LogLine.text, '\n' ∉ t ∧ t.length < 1022 := by
    intro t ht
    obtain ⟨l, hl, rfl⟩ := List.mem_map.mp ht
    exact (h l hl).fits
  have hread : fgetsAll 1022 (render lines) = lines.map fun l => l.text ++ ['\n'] := by
    have hlines := fgetsAll_lines hfits
    rwa [List.flatMap_map, List.map_map] at hlines
  obtain ⟨out, hout, hnl, hparse⟩ := convertAll_lines h ⟨0, ∅⟩ buff
  have hmain : main buff (render lines) = out.flatMap fun o => o ++ ['\n'] := by
    unfold main
    rw [hread]
    exact hout
  unfold parse_log
  rw [hmain, fileLines_lines hnl, hparse]

/-! ### Dumps -/

/-- The dump of one core. -/
structure Dump where
  id : ℕ
  pc : Hex16
  reg : Fin 32 → Hex16

/-- The lines of a dump after the first, in the order of the registers. -/
def Dump.lines (d : Dump) (zero : Fin 32 → Bool) : List LogLine :=
  .pc d.pc :: (List.finRange 32).map fun r => .reg (zero r) r (d.reg r)

/-- The lines of a core: its number, then the rest of its dump in any order. -/
def IsBlock (d : Dump) (block : List LogLine) : Prop :=
  ∃ zero body, block = .core d.id :: body ∧ body.Perm (d.lines zero)

def LogLine.isDump : LogLine → Bool
  | other _ => false
  | _ => true

/-- A run log: the cores' blocks, and other lines among them. -/
structure RunLog (dumps : List Dump) (lines : List LogLine) : Prop where
  others : ∀ text, .other text ∈ lines → OtherLine text
  blocks : ∃ blocks, List.Forall₂ IsBlock dumps blocks ∧
    lines.filter LogLine.isDump = blocks.flatten

/-- The entry of a core's thread after its dump, given the entry before. -/
def Dump.over (d : Dump) (thread : ℕ) (t : ThreadStatus) : ThreadStatus :=
  { t with
    reg_vals := fun r => some (d.reg r).val
    pc := if thread = 0 then some d.pc.val else t.pc }

/-! ### A block -/

@[simp] theorem get_insert_self (threads : Threads) (k : ℕ) (t : ThreadStatus) :
    Threads.get (threads.insert k t) k = t := by
  unfold Threads.get
  rw [AList.lookup_insert]
  rfl

theorem get_insert_ne (threads : Threads) {k k' : ℕ} (h : k' ≠ k) (t : ThreadStatus) :
    Threads.get (threads.insert k t) k' = threads.get k' := by
  unfold Threads.get
  rw [AList.lookup_insert_ne h]

/-- What a line does to the entry of the current thread. -/
def LogLine.set (l : LogLine) (thread : ℕ) (t : ThreadStatus) : ThreadStatus :=
  match l with
  | pc v => if thread = 0 then t.setPc v.val else t
  | reg _ r v => t.setReg r v.val
  | _ => t

def LogLine.IsCore : LogLine → Prop
  | core _ => True
  | _ => False

theorem get_apply {l : LogLine} (h : ¬l.IsCore) (st : ParseState) (k : ℕ) :
    (l.apply st).thread = st.thread ∧
      (l.apply st).threads.get k =
        if k = st.thread then l.set st.thread (st.threads.get k) else st.threads.get k := by
  have hmodify : ∀ f : ThreadStatus → ThreadStatus, (st.modify f).threads.get k =
      if k = st.thread then f (st.threads.get k) else st.threads.get k := by
    intro f
    split_ifs with hk
    · rw [hk]
      exact get_insert_self _ _ _
    · exact get_insert_ne _ hk _
  cases l with
  | core id => exact absurd trivial h
  | pc v =>
    by_cases hzero : st.thread = 0
    · have happly : (LogLine.pc v).apply st = st.modify fun t => t.setPc v.val := if_pos hzero
      have hset : (LogLine.pc v).set st.thread (st.threads.get k) =
        (st.threads.get k).setPc v.val := if_pos hzero
      rw [happly, hset]
      exact ⟨rfl, hmodify _⟩
    · have happly : (LogLine.pc v).apply st = st := if_neg hzero
      have hset : (LogLine.pc v).set st.thread (st.threads.get k) = st.threads.get k :=
        if_neg hzero
      rw [happly, hset]
      exact ⟨rfl, (ite_self _).symm⟩
  | reg zero r v => exact ⟨rfl, hmodify _⟩
  | other text => exact ⟨rfl, (ite_self _).symm⟩

theorem get_foldl_apply {body : List LogLine} (h : ∀ l ∈ body, ¬l.IsCore) (st : ParseState)
    (k : ℕ) :
    (body.foldl LogLine.apply st).thread = st.thread ∧
      (body.foldl LogLine.apply st).threads.get k =
        if k = st.thread then body.foldl (fun t l => l.set st.thread t) (st.threads.get k)
        else st.threads.get k := by
  induction body generalizing st with
  | nil => exact ⟨rfl, (ite_self _).symm⟩
  | cons l body ih =>
    obtain ⟨hthread, hget⟩ := get_apply (h l List.mem_cons_self) st k
    obtain ⟨ihthread, ihget⟩ := ih (fun x hx => h x (List.mem_cons_of_mem l hx)) (l.apply st)
    refine ⟨ihthread.trans hthread, ?_⟩
    rw [List.foldl_cons, List.foldl_cons, ihget, hthread, hget]
    split_ifs <;> rfl

/-- A field that the elements of a list set to `x` or leave alone is `x` after
the fold, if it was before or an element sets it. -/
theorem foldl_settles {α β γ : Type} {f : β → α → β} {g : β → γ} {x : γ} {P : α → Prop}
    {l : List α} (hset : ∀ a ∈ l, P a → ∀ b, g (f b a) = x)
    (hkeep : ∀ a ∈ l, ¬P a → ∀ b, g (f b a) = g b) (b : β) (h : g b = x ∨ ∃ a ∈ l, P a) :
    g (l.foldl f b) = x := by
  induction l generalizing b with
  | nil =>
    rcases h with h | ⟨a, ha, -⟩
    · exact h
    · cases ha
  | cons a l ih =>
    apply ih (fun a' ha' => hset a' (List.mem_cons_of_mem a ha'))
      (fun a' ha' => hkeep a' (List.mem_cons_of_mem a ha'))
    by_cases hP : P a
    · exact .inl (hset a List.mem_cons_self hP b)
    · rw [hkeep a List.mem_cons_self hP b]
      rcases h with h | ⟨a', ha', hP'⟩
      · exact .inl h
      · rcases List.mem_cons.mp ha' with rfl | ha'
        · exact absurd hP' hP
        · exact .inr ⟨a', ha', hP'⟩

theorem mem_lines {d : Dump} {zero : Fin 32 → Bool} {l : LogLine} (h : l ∈ d.lines zero) :
    l = .pc d.pc ∨ ∃ r, l = .reg (zero r) r (d.reg r) := by
  rcases List.mem_cons.mp h with h | h
  · exact .inl h
  · obtain ⟨r, -, rfl⟩ := List.mem_map.mp h
    exact .inr ⟨r, rfl⟩

/-- A body of a block writes its dump over the entry. -/
theorem foldl_set_block {d : Dump} {zero : Fin 32 → Bool} {body : List LogLine}
    (hbody : body.Perm (d.lines zero)) (thread : ℕ) (t : ThreadStatus) :
    body.foldl (fun t l => l.set thread t) t = d.over thread t := by
  have hmem : ∀ l ∈ body, l = .pc d.pc ∨ ∃ r, l = .reg (zero r) r (d.reg r) := fun l hl =>
    mem_lines (hbody.mem_iff.mp hl)
  have hpcmem : .pc d.pc ∈ body := hbody.mem_iff.mpr List.mem_cons_self
  have hregmem : ∀ r, .reg (zero r) r (d.reg r) ∈ body := fun r =>
    hbody.mem_iff.mpr (List.mem_cons_of_mem _ (List.mem_map.mpr ⟨r, List.mem_finRange r, rfl⟩))
  -- the fields that no line of a block sets
  have hframe : ∀ {γ : Type} (g : ThreadStatus → γ), (∀ t v, g (t.setPc v) = g t) →
      (∀ t r v, g (t.setReg r v) = g t) →
      g (body.foldl (fun t l => l.set thread t) t) = g t := by
    intro γ g hpc hreg
    apply foldl_settles (P := fun _ => False) (fun _ _ h => h.elim) _ t (.inl rfl)
    intro l hl _ b
    rcases hmem l hl with rfl | ⟨r, rfl⟩
    · show g (if thread = 0 then _ else _) = g b
      split_ifs
      · exact hpc b _
      · rfl
    · exact hreg b r _
  apply ThreadStatus.ext
  · funext r
    apply foldl_settles (g := fun t : ThreadStatus => t.reg_vals r)
      (P := fun l => l = .reg (zero r) r (d.reg r)) _ _ t (.inr ⟨_, hregmem r, rfl⟩)
    · rintro l - rfl b
      exact Function.update_self ..
    · intro l hl hne b
      rcases hmem l hl with rfl | ⟨r', rfl⟩
      · show (if thread = 0 then _ else _ : ThreadStatus).reg_vals r = _
        split_ifs <;> rfl
      · have hr : r ≠ r' := by
          rintro rfl
          exact hne rfl
        exact Function.update_of_ne hr ..
  · by_cases hzero : thread = 0
    · refine Eq.trans ?_ (if_pos hzero).symm
      apply foldl_settles (g := ThreadStatus.pc) (P := fun l => l = .pc d.pc) _ _ t
        (.inr ⟨_, hpcmem, rfl⟩)
      · rintro l - rfl b
        exact congrArg ThreadStatus.pc (if_pos hzero)
      · intro l hl hne b
        rcases hmem l hl with rfl | ⟨r, rfl⟩
        · exact absurd rfl hne
        · rfl
    · refine Eq.trans ?_ (if_neg hzero).symm
      apply foldl_settles (g := ThreadStatus.pc) (P := fun _ => False) (fun _ _ h => h.elim) _ t
        (.inl rfl)
      intro l hl _ b
      rcases hmem l hl with rfl | ⟨r, rfl⟩
      · exact congrArg ThreadStatus.pc (if_neg hzero)
      · rfl
  · exact hframe ThreadStatus.cp2 (fun _ _ => rfl) fun _ _ _ => rfl
  · exact hframe ThreadStatus.cp2_hwregs (fun _ _ => rfl) fun _ _ _ => rfl
  · exact hframe ThreadStatus.pcc (fun _ _ => rfl) fun _ _ _ => rfl

/-- After a block, the entry of the core's thread has the dump written over
it, and the other entries are as they were. -/
theorem get_foldl_block {d : Dump} {block : List LogLine} (h : IsBlock d block) (st : ParseState)
    (k : ℕ) :
    (block.foldl LogLine.apply st).threads.get k =
      if (coreOf d.id).toNat = k then d.over k (st.threads.get k) else st.threads.get k := by
  obtain ⟨zero, body, rfl, hbody⟩ := h
  have hcore : ∀ l ∈ body, ¬l.IsCore := by
    intro l hl
    rcases mem_lines (hbody.mem_iff.mp hl) with rfl | ⟨r, rfl⟩ <;> exact id
  rw [List.foldl_cons, (get_foldl_apply hcore _ k).2]
  show (if k = (coreOf d.id).toNat then
    body.foldl (fun t l => l.set (coreOf d.id).toNat t) (st.threads.get k)
    else st.threads.get k) = _
  rw [foldl_set_block hbody]
  by_cases hk : (coreOf d.id).toNat = k
  · rw [if_pos hk.symm, if_pos hk, hk]
  · rw [if_neg (Ne.symm hk), if_neg hk]

/-- Lines that are no dump lines do nothing. -/
theorem foldl_filter (lines : List LogLine) (st : ParseState) :
    lines.foldl LogLine.apply st = (lines.filter LogLine.isDump).foldl LogLine.apply st := by
  induction lines generalizing st with
  | nil => rfl
  | cons l lines ih =>
    cases l with
    | other text => exact ih st
    | core id => exact ih _
    | pc v => exact ih _
    | reg zero r v => exact ih _

/-- **A run**: an entry has the dumps of its cores written over it in turn. -/
theorem get_foldl_log {dumps : List Dump} {lines : List LogLine} (h : RunLog dumps lines)
    (st : ParseState) (k : ℕ) :
    (lines.foldl LogLine.apply st).threads.get k =
      dumps.foldl (fun t d => if (coreOf d.id).toNat = k then d.over k t else t)
        (st.threads.get k) := by
  obtain ⟨blocks, hblocks, hlines⟩ := h.blocks
  rw [foldl_filter, hlines]
  clear hlines h
  induction hblocks generalizing st with
  | nil => rfl
  | cons hblock _ ih =>
    rw [List.flatten_cons, List.foldl_append, ih, get_foldl_block hblock, List.foldl_cons]

/-! ### The pipeline -/

theorem coreOf_small {id : ℕ} (h : id < 2 ^ 31) : coreOf id = id := by
  have hsmall : (id : ℤ) < 2 ^ 31 := by exact_mod_cast h
  unfold coreOf toInt32
  rw [strtol_printNat (by omega), Int.bmod_def]
  omega

/-- Every core's dump is in the status: its registers in its thread, and the
pc if it is core 0. -/
def Delivers (dumps : List Dump) (s : MipsStatus) : Prop :=
  (∀ d ∈ dumps, ∀ r, (s.threads.get d.id).reg_vals r = some (d.reg r).val) ∧
    ∀ d ∈ dumps, d.id = 0 → s.pc = some d.pc.val

/-- Among dumps of distinct cores, one core's dump is the only one in its entry. -/
theorem foldl_over_nodup {dumps : List Dump} (hids : (dumps.map Dump.id).Nodup) {d : Dump}
    (hd : d ∈ dumps) (t : ThreadStatus) :
    dumps.foldl (fun t d' => if d'.id = d.id then d'.over d.id t else t) t = d.over d.id t := by
  induction dumps generalizing t with
  | nil => cases hd
  | cons d' dumps ih =>
    rw [List.map_cons, List.nodup_cons] at hids
    rw [List.foldl_cons]
    rcases List.mem_cons.mp hd with rfl | hd
    · rw [if_pos rfl]
      have hrest : ∀ t : ThreadStatus,
          dumps.foldl (fun t d' => if d'.id = d.id then d'.over d.id t else t) t = t := by
        intro t
        apply foldl_settles (g := id) (P := fun _ => False) (fun _ _ h => h.elim) _ t (.inl rfl)
        intro d' hd' _ b
        have hne : d'.id ≠ d.id := fun h => hids.1 (h ▸ List.mem_map_of_mem hd')
        exact if_neg hne
      exact hrest _
    · have hne : d'.id ≠ d.id := fun h => hids.1 (h ▸ List.mem_map_of_mem hd)
      rw [if_neg hne]
      exact ih hids.2 hd t

theorem readable_of_log {dumps : List Dump} {lines : List LogLine} (hlog : RunLog dumps lines)
    (hcores : ∀ d ∈ dumps, d.id < 2 ^ 63 ∧ 0 ≤ coreOf d.id) : ∀ l ∈ lines, l.Readable := by
  intro l hl
  cases l with
  | pc v => trivial
  | reg zero r v => trivial
  | other text => exact hlog.others text hl
  | core id =>
    obtain ⟨blocks, hblocks, hlines⟩ := hlog.blocks
    have hmem : .core id ∈ blocks.flatten := by
      rw [← hlines]
      exact List.mem_filter.mpr ⟨hl, rfl⟩
    clear hlines hl hlog
    induction hblocks with
    | nil => cases hmem
    | cons hblock _ ih =>
      rw [List.flatten_cons, List.mem_append] at hmem
      rcases hmem with hmem | hmem
      · obtain ⟨zero, body, rfl, hbody⟩ := hblock
        rcases List.mem_cons.mp hmem with h | h
        · obtain rfl := LogLine.core.inj h
          exact hcores _ List.mem_cons_self
        · rcases mem_lines (hbody.mem_iff.mp h) with h | ⟨r, h⟩ <;> cases h
      · exact ih (fun d hd => hcores d (List.mem_cons_of_mem _ hd)) hmem

/-- A log has the status that its parsing leaves, if that has a pc. -/
theorem init_eq_ok_iff {fh : List Char} {st : ParseState} (h : parse_log fh = .ok st)
    {s : MipsStatus} : MipsStatus.init fh = .ok s ↔
      (st.threads.get 0).pc ≠ none ∧ s = ⟨st.threads⟩ := by
  unfold MipsStatus.init
  rw [h]
  show (do
    if st.threads.keys = [] then throw .noRegDump
    if (st.threads.get 0).pc = none then throw .noPC
    return ⟨st.threads⟩ : Except ParseError MipsStatus) = _ ↔ _
  by_cases hkeys : st.threads.keys = []
  · -- no thread has an entry, so thread zero has no pc
    have hnone : st.threads.lookup 0 = none :=
      AList.lookup_eq_none.mpr fun hmem => by
        rw [AList.mem_keys, hkeys] at hmem
        cases hmem
    have hpc : (st.threads.get 0).pc = none := by
      rw [Threads.get, hnone]
      rfl
    rw [if_pos hkeys]
    exact iff_of_false (fun h => by cases h) fun h => h.1 hpc
  · rw [if_neg hkeys]
    by_cases hpc : (st.threads.get 0).pc = none
    · rw [if_pos hpc]
      exact iff_of_false (fun h => by cases h) fun h => h.1 hpc
    · rw [if_neg hpc]
      constructor
      · intro h
        exact ⟨hpc, (Except.ok.inj h).symm⟩
      · rintro ⟨-, rfl⟩
        rfl

/-- **The L3 log pipeline**: of a log with one block for each of distinct
cores, core 0 among them, the status has every core's dump, and no entry of a
core has anything else. -/
theorem l3_pipeline {dumps : List Dump} {lines : List LogLine} (hlog : RunLog dumps lines)
    (hids : (dumps.map Dump.id).Nodup) (hsmall : ∀ d ∈ dumps, d.id < 2 ^ 31)
    (hzero : ∃ d ∈ dumps, d.id = 0) (buff : List Char) :
    ∃ s, MipsStatus.init (main buff (render lines)) = .ok s ∧ Delivers dumps s ∧
      ∀ d ∈ dumps, s.threads.get d.id = d.over d.id {} := by
  have hcores : ∀ d ∈ dumps, d.id < 2 ^ 63 ∧ 0 ≤ coreOf d.id := by
    intro d hd
    have hlt := hsmall d hd
    rw [coreOf_small hlt]
    exact ⟨by omega, Int.natCast_nonneg _⟩
  have hparse := parse_main (readable_of_log hlog hcores) buff
  have hget : ∀ d ∈ dumps,
      (lines.foldl LogLine.apply ⟨0, ∅⟩).threads.get d.id = d.over d.id {} := by
    intro d hd
    rw [get_foldl_log hlog]
    have hfold : ∀ t, dumps.foldl
        (fun t d' => if (coreOf d'.id).toNat = d.id then d'.over d.id t else t) t =
        dumps.foldl (fun t d' => if d'.id = d.id then d'.over d.id t else t) t := by
      intro t
      apply List.foldl_ext
      intro t d' hd'
      rw [coreOf_small (hsmall d' hd'), Int.toNat_natCast]
    rw [hfold]
    exact foldl_over_nodup hids hd _
  have hpc : ∀ d ∈ dumps, d.id = 0 →
      ((lines.foldl LogLine.apply ⟨0, ∅⟩).threads.get 0).pc = some d.pc.val := by
    intro d hd hd0
    have h := hget d hd
    rw [hd0] at h
    rw [h]
    rfl
  obtain ⟨d₀, hd₀, hid₀⟩ := hzero
  have hsome : ((lines.foldl LogLine.apply ⟨0, ∅⟩).threads.get 0).pc ≠ none := by
    rw [hpc d₀ hd₀ hid₀]
    exact Option.some_ne_none _
  refine ⟨_, (init_eq_ok_iff hparse).mpr ⟨hsome, rfl⟩, ⟨?_, hpc⟩, hget⟩
  intro d hd r
  rw [hget d hd]
  rfl

/-! ### Numbers that the filter does not keep -/

/-- A dump of zeros. -/
def Dump.zero (id : ℕ) : Dump := ⟨id, .zero, fun _ => .zero⟩

/-- A log of the dumps alone. -/
def dumpLines (dumps : List Dump) : List LogLine :=
  dumps.flatMap fun d => .core d.id :: d.lines fun _ => true

theorem runLog_dumpLines (dumps : List Dump) : RunLog dumps (dumpLines dumps) := by
  have hkeep : ∀ l ∈ dumpLines dumps, l.isDump = true := by
    intro l hl
    obtain ⟨d, -, hd⟩ := List.mem_flatMap.mp hl
    rcases List.mem_cons.mp hd with rfl | hd
    · rfl
    · rcases mem_lines hd with rfl | ⟨r, rfl⟩ <;> rfl
  constructor
  · intro text hl
    cases hkeep _ hl
  · refine ⟨dumps.map fun d => .core d.id :: d.lines fun _ => true, ?_, ?_⟩
    · induction dumps with
      | nil => exact .nil
      | cons d dumps ih =>
        refine .cons ⟨_, _, rfl, List.Perm.refl _⟩ (ih fun l hl => hkeep l ?_)
        exact List.mem_append_right _ hl
    · rw [List.filter_eq_self.mpr hkeep]
      rfl

theorem l3_pipeline_two_cores :
    ∃ s, MipsStatus.init (main [] (render (dumpLines [.zero 0, .zero 1]))) = .ok s ∧
      Delivers [.zero 0, .zero 1] s ∧
      ∀ d ∈ [Dump.zero 0, Dump.zero 1], s.threads.get d.id = d.over d.id {} :=
  l3_pipeline (runLog_dumpLines _) (by decide) (by decide) ⟨.zero 0, by simp, rfl⟩ []

theorem coreOf_wraps : coreOf (2 ^ 32 + 5) = 5 := by
  unfold coreOf
  rw [strtol_printNat (by omega)]
  rfl

/-- The dump of core 2^32 + 5 lands in the entry of core 5, and a log without
core 0 has no status. -/
theorem l3_pipeline_loses :
    (RunLog [.zero 0, .zero (2 ^ 32 + 5)] (dumpLines [.zero 0, .zero (2 ^ 32 + 5)]) ∧
      ¬∃ s, MipsStatus.init (main [] (render (dumpLines [.zero 0, .zero (2 ^ 32 + 5)]))) = .ok s ∧
        Delivers [.zero 0, .zero (2 ^ 32 + 5)] s) ∧
    (RunLog [.zero 1] (dumpLines [.zero 1]) ∧
      ¬∃ s, MipsStatus.init (main [] (render (dumpLines [.zero 1]))) = .ok s ∧
        Delivers [.zero 1] s) := by
  refine ⟨⟨runLog_dumpLines _, ?_⟩, runLog_dumpLines _, ?_⟩
  · rintro ⟨s, hs, hregs, -⟩
    have hzero : coreOf 0 = 0 := coreOf_small (by omega)
    have hlog := runLog_dumpLines [.zero 0, .zero (2 ^ 32 + 5)]
    have hcores : ∀ d ∈ [Dump.zero 0, .zero (2 ^ 32 + 5)], d.id < 2 ^ 63 ∧ 0 ≤ coreOf d.id := by
      intro d hd
      rcases List.mem_cons.mp hd with rfl | hd
      · show 0 < 2 ^ 63 ∧ 0 ≤ coreOf 0
        rw [hzero]
        exact ⟨by omega, by omega⟩
      · rw [List.mem_singleton.mp hd]
        show 2 ^ 32 + 5 < 2 ^ 63 ∧ 0 ≤ coreOf (2 ^ 32 + 5)
        rw [coreOf_wraps]
        exact ⟨by omega, by omega⟩
    obtain ⟨-, rfl⟩ := (init_eq_ok_iff (parse_main (readable_of_log hlog hcores) [])).mp hs
    have hreg := hregs (.zero (2 ^ 32 + 5)) (by simp) 0
    -- no core's number is 2^32 + 5, so its entry is empty
    have hget : ((dumpLines [.zero 0, .zero (2 ^ 32 + 5)]).foldl LogLine.apply ⟨0, ∅⟩).threads.get
        (2 ^ 32 + 5) = {} := by
      rw [get_foldl_log hlog, List.foldl_cons, List.foldl_cons, List.foldl_nil]
      show (if (coreOf (2 ^ 32 + 5)).toNat = 2 ^ 32 + 5 then _
        else if (coreOf 0).toNat = 2 ^ 32 + 5 then _ else _ : ThreadStatus) = _
      rw [coreOf_wraps, hzero, if_neg (by omega), if_neg (by omega)]
      rfl
    have hnone := congrArg (fun t => t.reg_vals 0) hget
    rw [show (Dump.zero (2 ^ 32 + 5)).id = 2 ^ 32 + 5 from rfl] at hreg
    rw [hreg] at hnone
    cases hnone
  · rintro ⟨s, hs, -⟩
    have hone : coreOf 1 = 1 := coreOf_small (by omega)
    have hlog := runLog_dumpLines [.zero 1]
    have hcores : ∀ d ∈ [Dump.zero 1], d.id < 2 ^ 63 ∧ 0 ≤ coreOf d.id := by
      intro d hd
      rw [List.mem_singleton.mp hd]
      show 1 < 2 ^ 63 ∧ 0 ≤ coreOf 1
      rw [hone]
      exact ⟨by omega, by omega⟩
    obtain ⟨hpc, -⟩ := (init_eq_ok_iff (parse_main (readable_of_log hlog hcores) [])).mp hs
    apply hpc
    rw [get_foldl_log hlog, List.foldl_cons, List.foldl_nil]
    show (if (coreOf 1).toNat = 0 then _ else _ : ThreadStatus).pc = none
    rw [hone, if_neg (by omega)]
    rfl

end Cheritest.L3tosim
