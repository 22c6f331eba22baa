/-
Cheritest/Tools/ElfhdrDecode.lean

The output of elfhdr.c, read back.

Whatever the byte order of the host, the five structures come out as one record
in network order (`wrap_eq`); the string table, a gap and the binary follow.
So a reader finds the binary in the one segment and the one section that have
data (`elfhdr_lossless`).
-/
import Cheritest.Tools.Elfhdr
import Cheritest.Lib.Elf
import Mathlib.Data.Nat.ModEq
import Mathlib.Tactic.FinCases
import Mathlib.Tactic.NormNum

namespace Cheritest

namespace Elfhdr

open Binary

variable {H : Host} {b : List Byte}

/-! ### Network order -/

/-- A number whose bytes in memory are given has these bytes in memory. -/
theorem image_value (H : Host) (l : List Byte) {n : ℕ} (hn : l.length = n) :
    H.image n (H.value l) = l := by
  subst hn
  cases H with
  | little =>
    show (toBytes l.length (ofBytes l.reverse)).reverse = l
    rw [← List.length_reverse, toBytes_ofBytes, List.reverse_reverse]
  | big => exact toBytes_ofBytes l

theorem value_lt (H : Host) (l : List Byte) : H.value l < 256 ^ l.length := by
  cases H with
  | little =>
    show ofBytes l.reverse < _
    rw [← List.length_reverse]
    exact ofBytes_lt _
  | big => exact ofBytes_lt l

/-- A word of `n` bytes that is made of the bytes of a number. -/
theorem image_swapped (H : Host) {n w v : ℕ} (hw : 256 ^ n = 2 ^ w) :
    H.image n (BitVec.ofNat w (H.value (toBytes n v))).toNat = toBytes n v := by
  have hlt := value_lt H (toBytes n v)
  rw [length_toBytes, hw] at hlt
  rw [BitVec.toNat_ofNat, Nat.mod_eq_of_lt hlt]
  exact image_value H _ (length_toBytes ..)

theorem image_htons (v : BitVec 16) : H.image 2 (htons H v).toNat = toBytes 2 v.toNat :=
  image_swapped H (by norm_num)

theorem image_htonl (v : BitVec 32) : H.image 4 (htonl H v).toNat = toBytes 4 v.toNat :=
  image_swapped H (by norm_num)

/-- One byte of a swap. -/
theorem shifted_byte (x : BitVec 64) (k : ℕ) :
    ((x >>> k) &&& 0xff).setWidth 8 = BitVec.ofNat 8 (x.toNat / 2 ^ k) := by
  have hmask (v : ℕ) : v &&& (0xff : BitVec 64).toNat = v % 256 := Nat.and_two_pow_sub_one_eq_mod v 8
  refine BitVec.eq_of_toNat_eq ?_
  rw [BitVec.toNat_setWidth, BitVec.toNat_and, BitVec.toNat_ushiftRight, Nat.shiftRight_eq_div_pow,
    hmask, BitVec.toNat_ofNat]
  omega

theorem image_flip64 (x : BitVec 64) : H.image 8 (flip64 H x).toNat = toBytes 8 x.toNat := by
  have hbytes : [((x >>> 56) &&& 0xff).setWidth 8, ((x >>> 48) &&& 0xff).setWidth 8,
      ((x >>> 40) &&& 0xff).setWidth 8, ((x >>> 32) &&& 0xff).setWidth 8,
      ((x >>> 24) &&& 0xff).setWidth 8, ((x >>> 16) &&& 0xff).setWidth 8,
      ((x >>> 8) &&& 0xff).setWidth 8, (x &&& 0xff).setWidth 8] = toBytes 8 x.toNat := by
    have hlast : (x &&& 0xff).setWidth 8 = BitVec.ofNat 8 x.toNat := by
      have h := shifted_byte x 0
      rwa [BitVec.ushiftRight_zero, pow_zero, Nat.div_one] at h
    rw [hlast]
    simp only [shifted_byte, toBytes, Nat.div_div_eq_div_mul, List.nil_append, List.cons_append]
    norm_num
  rw [flip64, hbytes]
  exact image_swapped H (by norm_num)

theorem image_zero (n : ℕ) : H.image n 0 = toBytes n 0 := by
  have hzero (n : ℕ) : toBytes n 0 = List.replicate n 0 := by
    induction n with
    | zero => rfl
    | succ n ih =>
      rw [toBytes, Nat.zero_div, ih, List.replicate_succ']
      rfl
  cases H with
  | little =>
    show (toBytes n 0).reverse = _
    rw [hzero, List.reverse_replicate]
  | big => rfl

/-! ### What is written -/

/-- The identification, the first sixteen bytes. -/
def ident : List Byte := [0x7f, 0x45, 0x4c, 0x46, 2, 2, 1, 0, 0, 0, 0, 0, 0, 0, 0, 0]

/-- The rest of the header, the program header and the three section headers,
for a binary of `len` bytes. -/
def record (len : ℕ) : List Field :=
  [⟨2, 2⟩, ⟨2, 8⟩, ⟨4, 1⟩, ⟨8, 0x9000000040000000⟩, ⟨8, 64⟩, ⟨8, 120⟩, ⟨4, 0x60000001⟩, ⟨2, 64⟩,
    ⟨2, 56⟩, ⟨2, 1⟩, ⟨2, 64⟩, ⟨2, 3⟩, ⟨2, 2⟩,
    ⟨4, 1⟩, ⟨4, 7⟩, ⟨8, 1024⟩, ⟨8, 0x9000000040000000⟩, ⟨8, 0x40000000⟩, ⟨8, len⟩, ⟨8, len⟩, ⟨8, 1024⟩,
    ⟨4, 0⟩, ⟨4, 0⟩, ⟨8, 0⟩, ⟨8, 0⟩, ⟨8, 0⟩, ⟨8, 0⟩, ⟨4, 0⟩, ⟨4, 0⟩, ⟨8, 0⟩, ⟨8, 0⟩,
    ⟨4, 11⟩, ⟨4, 1⟩, ⟨8, 7⟩, ⟨8, 0x9000000040000000⟩, ⟨8, 1024⟩, ⟨8, len⟩, ⟨4, 0⟩, ⟨4, 0⟩, ⟨8, 8⟩, ⟨8, 0⟩,
    ⟨4, 1⟩, ⟨4, 3⟩, ⟨8, 0⟩, ⟨8, 0⟩, ⟨8, 312⟩, ⟨8, 17⟩, ⟨4, 0⟩, ⟨4, 0⟩, ⟨8, 0⟩, ⟨8, 0⟩]

/-- The sizes of its fields. -/
def sizes : List ℕ := (record 0).map Field.size

theorem width_take (len i : ℕ) : width ((record len).take i) = (sizes.take i).sum := by
  rw [width, List.map_take]
  rfl

/-- The five structures as they are written. -/
theorem images_eq {len : ℕ} (hlen : len < 2 ^ 64) :
    (ehdr H).image H ++ (phdr H len).image H ++ (shdr0 H).image H ++ (shdr1 H len).image H ++
      (shdr2 H).image H = ident ++ encode (record len) := by
  have hsize : (BitVec.ofNat 64 len).toNat = len := by
    rw [BitVec.toNat_ofNat, Nat.mod_eq_of_lt hlen]
  simp only [Elf64_Ehdr.image, Elf64_Phdr.image, Elf64_Shdr.image, ehdr, phdr, shdr0, shdr1, shdr2,
    image_htons, image_htonl, image_flip64, hsize]
  have hz (w n : ℕ) : H.image n (0 : BitVec w).toNat = toBytes n 0 := by
    rw [show (0 : BitVec w).toNat = 0 from BitVec.toNat_zero, image_zero]
  simp only [hz, encode, record, List.flatMap_cons, List.flatMap_nil, List.flatten_cons,
    List.flatten_nil, List.append_assoc, List.append_nil]
  rfl

/-- A stream at the end of its file. -/
def atEnd (c : List Byte) : Stream := ⟨c, c.length⟩

theorem write_atEnd (c l : List Byte) : (atEnd c).write l = atEnd (c ++ l) := by
  have hdrop : c.drop (c.length + l.length) = [] := List.drop_eq_nil_of_le (Nat.le_add_right _ _)
  simp only [Stream.write, atEnd, List.take_length, Nat.sub_self, List.replicate_zero, hdrop,
    List.append_nil, List.length_append]

/-- Writing behind the end of a file. -/
theorem write_seek {c l : List Byte} {off : ℕ} (h : c.length ≤ off) :
    ((atEnd c).seek off).write l = atEnd (c ++ List.replicate (off - c.length) 0 ++ l) := by
  have hdrop : c.drop (off + l.length) = [] := List.drop_eq_nil_of_le (by omega)
  have hlen : off + l.length = (c ++ List.replicate (off - c.length) 0 ++ l).length := by
    rw [List.length_append, List.length_append, List.length_replicate]
    omega
  simp only [Stream.write, Stream.seek, atEnd, List.take_of_length_le h, hdrop, List.append_nil]
  rw [hlen]

/-- The copying loop at the end of a file. -/
theorem copy_atEnd {k : ℕ} {c : List Byte} (hmax : k + b.length < 2 ^ 31) :
    (List.range' k b.length).foldlM
        (fun io i => if i + 1 < 2 ^ 31 then some (copyChar io) else none) (b, atEnd c)
      = some ([], atEnd (c ++ b)) := by
  induction b generalizing k c with
  | nil => rw [List.append_nil]; rfl
  | cons x b ih =>
    rw [List.length_cons] at hmax
    have hnext : copyChar (x :: b, atEnd c) = (b, atEnd (c ++ [x])) := by
      rw [copyChar, write_atEnd]
      rfl
    rw [List.length_cons, List.range'_succ, List.foldlM_cons, if_pos (by omega), hnext,
      Option.bind_eq_bind, Option.bind_some, ih (by omega), List.append_assoc, List.singleton_append]

/-- The copying loop behind the end of a file. -/
theorem copy_seek {c : List Byte} {off : ℕ} (hc : c.length ≤ off) (hpos : 0 < b.length)
    (hmax : b.length < 2 ^ 31) :
    (List.range b.length).foldlM
        (fun io i => if i + 1 < 2 ^ 31 then some (copyChar io) else none) (b, (atEnd c).seek off)
      = some ([], atEnd (c ++ List.replicate (off - c.length) 0 ++ b)) := by
  cases b with
  | nil => exact absurd hpos (Nat.lt_irrefl 0)
  | cons x b =>
    rw [List.length_cons] at hmax
    have hnext : copyChar (x :: b, (atEnd c).seek off)
        = (b, atEnd (c ++ List.replicate (off - c.length) 0 ++ [x])) := by
      rw [copyChar, ← write_seek hc]
      rfl
    rw [List.range_eq_range', List.length_cons, List.range'_succ, List.foldlM_cons,
      if_pos (by omega), hnext, Option.bind_eq_bind, Option.bind_some, copy_atEnd (by omega),
      List.append_assoc _ [x], List.singleton_append]

/-- The gap before the binary. -/
def gap : List Byte := List.replicate 695 0

/-- **The output**, for a binary that is not empty. -/
theorem wrap_eq (H : Host) (hpos : 0 < b.length) (hmax : b.length < 2 ^ 31) :
    wrap H b.length b = some (ident ++ encode (record b.length) ++ strtab ++ gap ++ b) := by
  have himages := images_eq (H := H) (show b.length < 2 ^ 64 by omega)
  have hlen : (ident ++ encode (record b.length) ++ strtab).length = 329 := by
    have hwidth : width (record b.length) = 296 := (width_take b.length 51).trans (by decide)
    have hident : ident.length = 16 := rfl
    have hnames : strtab.length = 17 := rfl
    rw [List.length_append, List.length_append, length_encode, hwidth, hident, hnames]
  have hempty : (⟨[], 0⟩ : Stream) = atEnd [] := rfl
  simp only [wrap, hempty, write_atEnd, List.nil_append, himages]
  rw [copy_seek (by omega) hpos hmax, hlen]
  simp only [Option.map_some, atEnd, gap, Nat.reduceSub]

/-! ### Reading it back -/

/-- The output around a binary. -/
def output (b : List Byte) : List Byte := ident ++ encode (record b.length) ++ strtab ++ gap ++ b

/-- A field of the output, from its place in the record. -/
theorem num_output {i off size v : ℕ} (h : (record b.length)[i]? = some ⟨size, v⟩)
    (hoff : 16 + (sizes.take i).sum = off) (hv : v < 256 ^ size) :
    num (output b) off size = v := by
  subst hoff
  rw [num, output, List.append_assoc, List.append_assoc, List.append_assoc,
    show 16 = ident.length from rfl, slice_append]
  exact num_encode h (width_take b.length i) hv _

theorem header_output : Elf.header (output b) =
    { ident := ident, type := 2, machine := 8, version := 1, entry := 0x9000000040000000,
      phoff := 64, shoff := 120, flags := 0x60000001, ehsize := 64, phentsize := 56, phnum := 1,
      shentsize := 64, shnum := 3, shstrndx := 2 } := by
  have hident : slice (output b) 0 16 = ident := by
    have h := slice_middle [] ident (encode (record b.length) ++ (strtab ++ (gap ++ b)))
    rwa [List.nil_append, ← List.append_assoc, ← List.append_assoc, ← List.append_assoc] at h
  unfold Elf.header
  rw [hident, num_output (i := 0) rfl (by decide) (by norm_num),
    num_output (i := 1) rfl (by decide) (by norm_num), num_output (i := 2) rfl (by decide) (by norm_num),
    num_output (i := 3) rfl (by decide) (by norm_num), num_output (i := 4) rfl (by decide) (by norm_num),
    num_output (i := 5) rfl (by decide) (by norm_num), num_output (i := 6) rfl (by decide) (by norm_num),
    num_output (i := 7) rfl (by decide) (by norm_num), num_output (i := 8) rfl (by decide) (by norm_num),
    num_output (i := 9) rfl (by decide) (by norm_num), num_output (i := 10) rfl (by decide) (by norm_num),
    num_output (i := 11) rfl (by decide) (by norm_num), num_output (i := 12) rfl (by decide) (by norm_num)]

/-- The segment of the binary. -/
def load (len : ℕ) : Elf.Segment where
  type := 1
  flags := 7
  offset := 1024
  vaddr := 0x9000000040000000
  paddr := 0x40000000
  filesz := len
  memsz := len
  align := 1024

theorem segments_output (hlen : b.length < 256 ^ 8) : Elf.segments (output b) = [load b.length] := by
  have hat : Elf.segmentAt (output b) 64 = load b.length := by
    unfold Elf.segmentAt
    rw [num_output (i := 13) rfl (by decide) (by norm_num), num_output (i := 14) rfl (by decide) (by norm_num),
      num_output (i := 15) rfl (by decide) (by norm_num), num_output (i := 16) rfl (by decide) (by norm_num),
      num_output (i := 17) rfl (by decide) (by norm_num), num_output (i := 18) rfl (by decide) hlen,
      num_output (i := 19) rfl (by decide) hlen, num_output (i := 20) rfl (by decide) (by norm_num)]
    rfl
  rw [Elf.segments, header_output]
  exact congrArg (· :: []) hat

/-- The section without data. -/
def null : Elf.Section where
  name := 0
  type := 0
  flags := 0
  addr := 0
  offset := 0
  size := 0
  link := 0
  info := 0
  addralign := 0
  entsize := 0

/-- The section of the binary. -/
def data (len : ℕ) : Elf.Section where
  name := 11
  type := 1
  flags := 7
  addr := 0x9000000040000000
  offset := 1024
  size := len
  link := 0
  info := 0
  addralign := 8
  entsize := 0

/-- The section of the names. -/
def names : Elf.Section where
  name := 1
  type := 3
  flags := 0
  addr := 0
  offset := 312
  size := 17
  link := 0
  info := 0
  addralign := 0
  entsize := 0

theorem sectionAt_null : Elf.sectionAt (output b) 120 = null := by
  unfold Elf.sectionAt
  rw [num_output (i := 21) rfl (by decide) (by norm_num), num_output (i := 22) rfl (by decide) (by norm_num),
    num_output (i := 23) rfl (by decide) (by norm_num), num_output (i := 24) rfl (by decide) (by norm_num),
    num_output (i := 25) rfl (by decide) (by norm_num), num_output (i := 26) rfl (by decide) (by norm_num),
    num_output (i := 27) rfl (by decide) (by norm_num), num_output (i := 28) rfl (by decide) (by norm_num),
    num_output (i := 29) rfl (by decide) (by norm_num), num_output (i := 30) rfl (by decide) (by norm_num)]
  rfl

theorem sectionAt_data (hlen : b.length < 256 ^ 8) : Elf.sectionAt (output b) 184 = data b.length := by
  unfold Elf.sectionAt
  rw [num_output (i := 31) rfl (by decide) (by norm_num), num_output (i := 32) rfl (by decide) (by norm_num),
    num_output (i := 33) rfl (by decide) (by norm_num), num_output (i := 34) rfl (by decide) (by norm_num),
    num_output (i := 35) rfl (by decide) (by norm_num), num_output (i := 36) rfl (by decide) hlen,
    num_output (i := 37) rfl (by decide) (by norm_num), num_output (i := 38) rfl (by decide) (by norm_num),
    num_output (i := 39) rfl (by decide) (by norm_num), num_output (i := 40) rfl (by decide) (by norm_num)]
  rfl

theorem sectionAt_names : Elf.sectionAt (output b) 248 = names := by
  unfold Elf.sectionAt
  rw [num_output (i := 41) rfl (by decide) (by norm_num), num_output (i := 42) rfl (by decide) (by norm_num),
    num_output (i := 43) rfl (by decide) (by norm_num), num_output (i := 44) rfl (by decide) (by norm_num),
    num_output (i := 45) rfl (by decide) (by norm_num), num_output (i := 46) rfl (by decide) (by norm_num),
    num_output (i := 47) rfl (by decide) (by norm_num), num_output (i := 48) rfl (by decide) (by norm_num),
    num_output (i := 49) rfl (by decide) (by norm_num), num_output (i := 50) rfl (by decide) (by norm_num)]
  rfl

theorem sections_output (hlen : b.length < 256 ^ 8) :
    Elf.sections (output b) = [null, data b.length, names] := by
  have hat : Elf.sections (output b) = [Elf.sectionAt (output b) 120, Elf.sectionAt (output b) 184,
      Elf.sectionAt (output b) 248] := by
    rw [Elf.sections, header_output]
    rfl
  rw [hat, sectionAt_null, sectionAt_data hlen, sectionAt_names]

theorem stringTable_output (hlen : b.length < 256 ^ 8) : Elf.stringTable (output b) = some names := by
  rw [Elf.stringTable, sections_output hlen, header_output]
  rfl

/-- What stands before the names. -/
theorem length_structures (len : ℕ) : (ident ++ encode (record len)).length = 312 := by
  rw [List.length_append, length_encode, show width (record len) = 296 from
    (width_take len 51).trans (by decide)]
  rfl

theorem slice_names : slice (output b) 312 17 = strtab := by
  have h := slice_middle (ident ++ encode (record b.length)) strtab (gap ++ b)
  rwa [length_structures, ← List.append_assoc] at h

theorem slice_binary : slice (output b) 1024 b.length = b := by
  have h := slice_middle (ident ++ encode (record b.length) ++ strtab ++ gap) b []
  have hoff : (ident ++ encode (record b.length) ++ strtab ++ gap).length = 1024 := by
    rw [List.length_append, List.length_append, length_structures, gap, List.length_replicate]
    rfl
  rwa [hoff, List.append_nil] at h

/-- A name, out of the string table. -/
theorem nameOf_output (hlen : b.length < 256 ^ 8) (s : Elf.Section) :
    Elf.nameOf (output b) s =
      if 0 ∈ strtab.drop s.name then some ((strtab.drop s.name).takeWhile (· ≠ 0)) else none := by
  have hslice : slice (output b) names.offset names.size = strtab := slice_names
  rw [Elf.nameOf, stringTable_output hlen, Option.bind_eq_bind, Option.bind_some, hslice]

/-! ### A wrapped binary -/

/-- A file is a binary wrapped in ELF. -/
structure Wraps (f b : List Byte) : Prop where
  /-- The magic, 64 bits, the most significant byte first. -/
  ident : (Elf.header f).ident.take 6 = [0x7f, 0x45, 0x4c, 0x46, ELFCLASS64, ELFDATA2MSB]
  ehsize : (Elf.header f).ehsize = 64
  phentsize : (Elf.header f).phentsize = 56
  shentsize : (Elf.header f).shentsize = 64
  /-- There is one segment to load, it holds the binary, and so does a section
  `.data`. -/
  binary : ∃ p, (Elf.segments f).filter (fun p => p.type = PT_LOAD.toNat) = [p] ∧
    p.filesz = b.length ∧ p.memsz = b.length ∧ slice f p.offset p.filesz = b ∧
    p.vaddr ≡ p.offset [MOD p.align] ∧
    ∃ s ∈ Elf.sections f, s.type = SHT_PROGBITS.toNat ∧
      Elf.nameOf f s = some [0x2e, 0x64, 0x61, 0x74, 0x61] ∧
      s.offset = p.offset ∧ s.size = p.filesz ∧ s.addr = p.vaddr ∧
      (Elf.tables f ++ [(p.offset, p.filesz)]).Pairwise Elf.Apart
  /-- Header and tables are inside the file. -/
  inside : ∀ t ∈ Elf.tables f, t.1 + t.2 ≤ f.length
  /-- There is a table of names, and every section has its name there. -/
  strings : (Elf.stringTable f).isSome
  names : ∀ s ∈ Elf.sections f, (Elf.nameOf f s).isSome

theorem wraps_output (hlen : b.length < 256 ^ 8) : Wraps (output b) b where
  ident := by rw [header_output]; rfl
  ehsize := by rw [header_output]
  phentsize := by rw [header_output]
  shentsize := by rw [header_output]
  binary := by
    refine ⟨load b.length, ?_, rfl, rfl, slice_binary, ?_, data b.length, ?_, rfl, ?_, rfl, rfl, rfl, ?_⟩
    · rw [segments_output hlen]
      rfl
    · show 0x9000000040000000 ≡ 1024 [MOD 1024]
      decide
    · rw [sections_output hlen]
      exact List.mem_cons_of_mem _ List.mem_cons_self
    · rw [nameOf_output hlen]
      rfl
    · rw [Elf.tables, header_output, stringTable_output hlen]
      simp [Elf.Apart, names, load]
  inside := by
    have hend : 329 ≤ (output b).length := by
      rw [output, List.length_append, List.length_append, List.length_append, length_structures,
        show strtab.length = 17 from rfl]
      omega
    intro t ht
    rw [Elf.tables, header_output, stringTable_output hlen] at ht
    fin_cases ht
    · exact le_trans (by decide : 64 ≤ 329) hend
    · exact le_trans (by decide : 120 ≤ 329) hend
    · exact le_trans (by decide : 312 ≤ 329) hend
    · exact hend
  strings := by rw [stringTable_output hlen]; rfl
  names := by
    intro s hs
    rw [sections_output hlen] at hs
    rw [nameOf_output hlen]
    fin_cases hs
    · rfl
    · rfl
    · rfl

/-- **elfhdr wraps losslessly**: from a binary that is not empty and shorter
than 2 GiB it writes a file in which a reader finds the binary. -/
theorem elfhdr_lossless (H : Host) (S : Files) {argv0 fin fout : String} {argv : List String}
    (hcontent : S.content fin = some b) (hread : S.canRead fin = true)
    (hwrite : S.canWrite fout = true) (hfiles : fin ≠ fout) (hpos : 1 ≤ b.length)
    (hmax : b.length < 2 ^ 31) :
    ∃ f, main H S (argv0 :: fin :: fout :: argv) = some ⟨0, "", some (fout, f)⟩ ∧ Wraps f b := by
  refine ⟨output b, ?_, wraps_output (by norm_num; omega)⟩
  have hwrap : wrap H b.length b = some (output b) := wrap_eq H hpos hmax
  rw [main, hcontent]
  simp only [hread, hwrite, Bool.not_true, Bool.false_eq_true, if_false, if_neg hfiles, hwrap, Option.map_some]

/-- A binary of three bytes. -/
def threeBytes : Files where
  content name := if name = "mem.bin" then some [0x24, 0x02, 0x00] else none
  canRead name := name = "mem.bin"
  canWrite _ := true

theorem elfhdr_lossless_threeBytes :
    ∃ f, main .little threeBytes ["elfhdr", "mem.bin", "mem.elf"] = some ⟨0, "", some ("mem.elf", f)⟩ ∧
      Wraps f [0x24, 0x02, 0x00] :=
  elfhdr_lossless .little threeBytes (by decide) (by decide) (by decide) (by decide) (by decide) (by decide)

end Elfhdr

end Cheritest
