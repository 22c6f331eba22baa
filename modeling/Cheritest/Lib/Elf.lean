/-
Cheritest/Lib/Elf.lean

Reading big-endian ELF64 files.

The header says where the tables of segments and of sections are, how many
entries they have and how large an entry is, and which section holds the names
of the sections.
-/
import Cheritest.Lib.Binary

namespace Elf

open Binary

/-! ### The file as a reader sees it -/

structure Header where
  ident : List Byte
  type : ℕ
  machine : ℕ
  version : ℕ
  entry : ℕ
  phoff : ℕ
  shoff : ℕ
  flags : ℕ
  ehsize : ℕ
  phentsize : ℕ
  phnum : ℕ
  shentsize : ℕ
  shnum : ℕ
  shstrndx : ℕ
  deriving DecidableEq

structure Segment where
  type : ℕ
  flags : ℕ
  offset : ℕ
  vaddr : ℕ
  paddr : ℕ
  filesz : ℕ
  memsz : ℕ
  align : ℕ
  deriving DecidableEq

structure Section where
  name : ℕ
  type : ℕ
  flags : ℕ
  addr : ℕ
  offset : ℕ
  size : ℕ
  link : ℕ
  info : ℕ
  addralign : ℕ
  entsize : ℕ
  deriving DecidableEq

section reader
variable (f : List Byte)

def header : Header where
  ident := slice f 0 16
  type := num f 16 2
  machine := num f 18 2
  version := num f 20 4
  entry := num f 24 8
  phoff := num f 32 8
  shoff := num f 40 8
  flags := num f 48 4
  ehsize := num f 52 2
  phentsize := num f 54 2
  phnum := num f 56 2
  shentsize := num f 58 2
  shnum := num f 60 2
  shstrndx := num f 62 2

def segmentAt (off : ℕ) : Segment where
  type := num f off 4
  flags := num f (off + 4) 4
  offset := num f (off + 8) 8
  vaddr := num f (off + 16) 8
  paddr := num f (off + 24) 8
  filesz := num f (off + 32) 8
  memsz := num f (off + 40) 8
  align := num f (off + 48) 8

def sectionAt (off : ℕ) : Section where
  name := num f off 4
  type := num f (off + 4) 4
  flags := num f (off + 8) 8
  addr := num f (off + 16) 8
  offset := num f (off + 24) 8
  size := num f (off + 32) 8
  link := num f (off + 40) 4
  info := num f (off + 44) 4
  addralign := num f (off + 48) 8
  entsize := num f (off + 56) 8

def segments : List Segment :=
  (List.range (header f).phnum).map fun i => segmentAt f ((header f).phoff + i * (header f).phentsize)

def sections : List Section :=
  (List.range (header f).shnum).map fun i => sectionAt f ((header f).shoff + i * (header f).shentsize)

/-- The section that holds the names. -/
def stringTable : Option Section := (sections f)[(header f).shstrndx]?

/-- The name of a section: the bytes from its index to the next 0 in the
table of names. -/
def nameOf (s : Section) : Option (List Byte) := do
  let tab ← stringTable f
  let names := slice f tab.offset tab.size
  let name := names.drop s.name
  if 0 ∈ name then some (name.takeWhile (· ≠ 0)) else none

/-- The parts of the file that its header and its tables take up. -/
def tables : List (ℕ × ℕ) :=
  [(0, (header f).ehsize), ((header f).phoff, (header f).phnum * (header f).phentsize),
    ((header f).shoff, (header f).shnum * (header f).shentsize)] ++
  (stringTable f).toList.map fun s => (s.offset, s.size)

end reader

/-- Two parts, given by offset and size, have no byte in common. -/
def Apart (a b : ℕ × ℕ) : Prop := a.1 + a.2 ≤ b.1 ∨ b.1 + b.2 ≤ a.1

instance (a b : ℕ × ℕ) : Decidable (Apart a b) := inferInstanceAs (Decidable (_ ∨ _))

end Elf
