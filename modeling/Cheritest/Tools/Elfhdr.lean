/-
Cheritest/Tools/Elfhdr.lean

elfhdr.c, which puts an ELF header before a binary.

The structures are written to the file as they stand in memory, in the byte
order of the host; the fields are brought into network order before.
-/
import Cheritest.Lib.Binary
import Mathlib.Data.BitVec

namespace Cheritest

namespace Elfhdr

open Binary

/-! ### Byte order -/

/-- The byte order of the host. -/
inductive Host
  | little
  | big

namespace Host

/-- A number of `n` bytes as it stands in memory. -/
def image (H : Host) (n v : ℕ) : List Byte :=
  match H with
  | little => (toBytes n v).reverse
  | big => toBytes n v

/-- The number that stands in memory. -/
def value (H : Host) (l : List Byte) : ℕ :=
  match H with
  | little => ofBytes l.reverse
  | big => ofBytes l

end Host

/-- The number whose bytes in memory are those of `v` in network order. -/
def htons (H : Host) (v : BitVec 16) : BitVec 16 := BitVec.ofNat 16 (H.value (toBytes 2 v.toNat))

def htonl (H : Host) (v : BitVec 32) : BitVec 32 := BitVec.ofNat 32 (H.value (toBytes 4 v.toNat))

/-- The bytes of `flipped` are written one by one, from `fp[0]` to `fp[7]`. -/
def flip64 (H : Host) (x : BitVec 64) : BitVec 64 :=
  BitVec.ofNat 64 (H.value
    [((x >>> 56) &&& 0xff).setWidth 8, ((x >>> 48) &&& 0xff).setWidth 8,
      ((x >>> 40) &&& 0xff).setWidth 8, ((x >>> 32) &&& 0xff).setWidth 8,
      ((x >>> 24) &&& 0xff).setWidth 8, ((x >>> 16) &&& 0xff).setWidth 8,
      ((x >>> 8) &&& 0xff).setWidth 8, (x &&& 0xff).setWidth 8])

/-! ### The structures -/

structure Elf64_Ehdr where
  e_ident : List Byte
  e_type : BitVec 16
  e_machine : BitVec 16
  e_version : BitVec 32
  e_entry : BitVec 64
  e_phoff : BitVec 64
  e_shoff : BitVec 64
  e_flags : BitVec 32
  e_ehsize : BitVec 16
  e_phentsize : BitVec 16
  e_phnum : BitVec 16
  e_shentsize : BitVec 16
  e_shnum : BitVec 16
  e_shstrndx : BitVec 16

structure Elf64_Phdr where
  p_type : BitVec 32
  p_flags : BitVec 32
  p_offset : BitVec 64
  p_vaddr : BitVec 64
  p_paddr : BitVec 64
  p_filesz : BitVec 64
  p_memsz : BitVec 64
  p_align : BitVec 64

structure Elf64_Shdr where
  sh_name : BitVec 32
  sh_type : BitVec 32
  sh_flags : BitVec 64
  sh_addr : BitVec 64
  sh_offset : BitVec 64
  sh_size : BitVec 64
  sh_link : BitVec 32
  sh_info : BitVec 32
  sh_addralign : BitVec 64
  sh_entsize : BitVec 64

section images
variable (H : Host)

def Elf64_Ehdr.image (h : Elf64_Ehdr) : List Byte :=
  List.flatten [h.e_ident, H.image 2 h.e_type.toNat, H.image 2 h.e_machine.toNat,
    H.image 4 h.e_version.toNat, H.image 8 h.e_entry.toNat, H.image 8 h.e_phoff.toNat,
    H.image 8 h.e_shoff.toNat, H.image 4 h.e_flags.toNat, H.image 2 h.e_ehsize.toNat,
    H.image 2 h.e_phentsize.toNat, H.image 2 h.e_phnum.toNat, H.image 2 h.e_shentsize.toNat,
    H.image 2 h.e_shnum.toNat, H.image 2 h.e_shstrndx.toNat]

def Elf64_Phdr.image (ph : Elf64_Phdr) : List Byte :=
  List.flatten [H.image 4 ph.p_type.toNat, H.image 4 ph.p_flags.toNat, H.image 8 ph.p_offset.toNat,
    H.image 8 ph.p_vaddr.toNat, H.image 8 ph.p_paddr.toNat, H.image 8 ph.p_filesz.toNat,
    H.image 8 ph.p_memsz.toNat, H.image 8 ph.p_align.toNat]

def Elf64_Shdr.image (sh : Elf64_Shdr) : List Byte :=
  List.flatten [H.image 4 sh.sh_name.toNat, H.image 4 sh.sh_type.toNat, H.image 8 sh.sh_flags.toNat,
    H.image 8 sh.sh_addr.toNat, H.image 8 sh.sh_offset.toNat, H.image 8 sh.sh_size.toNat,
    H.image 4 sh.sh_link.toNat, H.image 4 sh.sh_info.toNat, H.image 8 sh.sh_addralign.toNat,
    H.image 8 sh.sh_entsize.toNat]

end images

def sizeofEhdr : ℕ := 64
def sizeofPhdr : ℕ := 56
def sizeofShdr : ℕ := 64

/-! ### The output stream -/

/-- What a file holds and where it is written next. -/
structure Stream where
  content : List Byte
  pos : ℕ

/-- `fwrite` and `fputc`: a gap behind the end is filled with zeros. -/
def Stream.write (s : Stream) (l : List Byte) : Stream where
  content := s.content.take s.pos ++ List.replicate (s.pos - s.content.length) 0 ++ l ++
    s.content.drop (s.pos + l.length)
  pos := s.pos + l.length

/-- `fseek` with `SEEK_SET`. -/
def Stream.seek (s : Stream) (off : ℕ) : Stream := { s with pos := off }

/-- `fputc(fgetc(f_in), f_out)`, from what is left of the input; the end of
file is written as 255. -/
def copyChar (io : List Byte × Stream) : List Byte × Stream :=
  (io.1.tail, io.2.write [io.1.headD 0xff])

/-! ### The program -/

/-- The names `.shstrtab` and `.data`. -/
def strtab : List Byte :=
  [0, 0x2e, 0x73, 0x68, 0x73, 0x74, 0x72, 0x74, 0x61, 0x62, 0, 0x2e, 0x64, 0x61, 0x74, 0x61, 0]

def ELFCLASS64 : Byte := 2
def ELFDATA2MSB : Byte := 2
def EV_CURRENT : ℕ := 1
def ET_EXEC : BitVec 16 := 2
def EM_MIPS : BitVec 16 := 8
def PT_LOAD : BitVec 32 := 1
def PF_X : BitVec 32 := 1
def PF_W : BitVec 32 := 2
def PF_R : BitVec 32 := 4
def SHT_NULL : BitVec 32 := 0
def SHT_PROGBITS : BitVec 32 := 1
def SHT_STRTAB : BitVec 32 := 3
def SHF_WRITE : BitVec 64 := 1
def SHF_ALLOC : BitVec 64 := 2
def SHF_EXECINSTR : BitVec 64 := 4

section program
variable (H : Host)

def ehdr : Elf64_Ehdr where
  e_ident := [0x7f, 0x45, 0x4c, 0x46, ELFCLASS64, ELFDATA2MSB, BitVec.ofNat 8 EV_CURRENT,
    0, 0, 0, 0, 0, 0, 0, 0, 0]
  e_type := htons H ET_EXEC
  e_machine := htons H EM_MIPS
  e_version := htonl H (BitVec.ofNat 32 EV_CURRENT)
  e_entry := flip64 H 0x9000000040000000
  e_phoff := flip64 H (BitVec.ofNat 64 sizeofEhdr)
  e_shoff := flip64 H (BitVec.ofNat 64 (sizeofEhdr + sizeofPhdr))
  e_flags := htonl H 0x60000001
  e_ehsize := htons H (BitVec.ofNat 16 sizeofEhdr)
  e_phentsize := htons H (BitVec.ofNat 16 sizeofPhdr)
  e_phnum := htons H 1
  e_shentsize := htons H (BitVec.ofNat 16 sizeofShdr)
  e_shnum := htons H 3
  e_shstrndx := htons H 2

def phdr (st_size : ℕ) : Elf64_Phdr where
  p_type := htonl H PT_LOAD
  p_flags := htonl H (PF_R ||| PF_W ||| PF_X)
  p_offset := flip64 H 1024
  p_vaddr := flip64 H 0x9000000040000000
  p_paddr := flip64 H 0x40000000
  p_filesz := flip64 H (BitVec.ofNat 64 st_size)
  p_memsz := flip64 H (BitVec.ofNat 64 st_size)
  p_align := flip64 H 1024

def shdr0 : Elf64_Shdr where
  sh_name := 0
  sh_type := htonl H SHT_NULL
  sh_flags := 0
  sh_addr := 0
  sh_offset := 0
  sh_size := flip64 H 0
  sh_link := 0
  sh_info := 0
  sh_addralign := 0
  sh_entsize := 0

def shdr1 (st_size : ℕ) : Elf64_Shdr where
  sh_name := htonl H 11
  sh_type := htonl H SHT_PROGBITS
  sh_flags := flip64 H (SHF_WRITE ||| SHF_ALLOC ||| SHF_EXECINSTR)
  sh_addr := flip64 H 0x9000000040000000
  sh_offset := flip64 H 1024
  sh_size := flip64 H (BitVec.ofNat 64 st_size)
  sh_link := 0
  sh_info := 0
  sh_addralign := flip64 H 8
  sh_entsize := 0

def shdr2 : Elf64_Shdr where
  sh_name := htonl H 1
  sh_type := htonl H SHT_STRTAB
  sh_flags := 0
  sh_addr := 0
  sh_offset := flip64 H (BitVec.ofNat 64 (sizeofEhdr + sizeofPhdr + 3 * sizeofShdr))
  sh_size := flip64 H (BitVec.ofNat 64 strtab.length)
  sh_link := 0
  sh_info := 0
  sh_addralign := 0
  sh_entsize := flip64 H 0

/-- From the opened input, of `st_size` bytes, to the closed output; `none` if
the counter of the copying loop, an `int`, overflows. -/
def wrap (st_size : ℕ) (input : List Byte) : Option (List Byte) :=
  let f_out : Stream := ⟨[], 0⟩
  let f_out := f_out.write ((ehdr H).image H)
  let f_out := f_out.write ((phdr H st_size).image H)
  let f_out := f_out.write ((shdr0 H).image H)
  let f_out := f_out.write ((shdr1 H st_size).image H)
  let f_out := f_out.write ((shdr2 H).image H)
  let f_out := f_out.write strtab
  let f_out := f_out.seek 1024
  let copied := (List.range st_size).foldlM
    (fun io i => if i + 1 < 2 ^ 31 then some (copyChar io) else none) (input, f_out)
  copied.map fun io => io.2.content

/-- What the system says about files. -/
structure Files where
  /-- `stat` and what a read gives. -/
  content : String → Option (List Byte)
  canRead : String → Bool
  canWrite : String → Bool

/-- The exit status, the message, and the file written. -/
structure Outcome where
  status : ℤ
  stderr : String
  written : Option (String × List Byte)

/-- The program; `none` if the output file, which is emptied when it is opened,
is the input file. -/
def main (S : Files) (argv : List String) : Option Outcome :=
  match argv with
  | _ :: fname_in :: fname_out :: _ =>
    match S.content fname_in with
    | none => some ⟨-1, "Couldn't fstat " ++ fname_in ++ "\n", none⟩
    | some input =>
      if !S.canRead fname_in then some ⟨-1, "Couldn't open " ++ fname_in ++ "\n", none⟩
      else if !S.canWrite fname_out then some ⟨-1, "Couldn't open " ++ fname_out ++ "\n", none⟩
      else if fname_in = fname_out then none
      else (wrap H input.length input).map fun f => ⟨0, "", some (fname_out, f)⟩
  | _ => some ⟨-1, "Usage: elfhdr <input file> <output file>\n", none⟩

end program

end Elfhdr

end Cheritest
