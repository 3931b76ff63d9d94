import X86Assembler.Disassembler
import X86Assembler.ElfFormat

namespace X86Assembler

open CString (Byte str)
open CheckedRead

section

variable (malloc : Nat → Bool) (file : List Byte)

def fileSize : Word := BitVec.ofNat 64 file.length

/-- The checks up to the section header table; `ftell` has no answer for a longer file. -/
def readElfHeader : CheckedRead Elf64Ehdr := do
  guardThat (file.length < 2 ^ 63)
  guardThat (Elf64Ehdr.codec.size ≤ file.length)
  guardThat (malloc file.length)
  let bytes ← copy file 0 Elf64Ehdr.codec.size
  let ehdr := Elf64Ehdr.codec.read bytes
  guardThat (ehdr.eIdent.toList.take 6 = elfIdent)
  guardThat (ehdr.eShentsize.toNat = Elf64Shdr.codec.size && ehdr.eShnum ≠ 0)
  pure ehdr

/-- `(uint64_t)e_shentsize * e_shnum`. -/
def sectionTableSize (ehdr : Elf64Ehdr) : Word :=
  ehdr.eShentsize.setWidth 64 * ehdr.eShnum.setWidth 64

def readSectionTable (ehdr : Elf64Ehdr) : CheckedRead (List Byte) := do
  guardThat (ehdr.eShoff + sectionTableSize ehdr ≤ fileSize file)
  guardThat (malloc (sectionTableSize ehdr).toNat)
  copy file ehdr.eShoff.toNat (sectionTableSize ehdr).toNat

/-- `sections[i]`. -/
def sectionAt (sections : List Byte) (i : Nat) : CheckedRead Elf64Shdr := do
  let bytes ← copy sections (Elf64Shdr.codec.size * i) Elf64Shdr.codec.size
  pure (Elf64Shdr.codec.read bytes)

def readSectionNames (ehdr : Elf64Ehdr) (sections : List Byte) :
    CheckedRead (Elf64Shdr × List Byte) := do
  guardThat (ehdr.eShstrndx < ehdr.eShnum)
  let shstr ← sectionAt sections ehdr.eShstrndx.toNat
  guardThat (shstr.shOffset + shstr.shSize ≤ fileSize file && shstr.shSize ≠ 0)
  guardThat (malloc shstr.shSize.toNat)
  let shstrtab ← copy file shstr.shOffset.toNat shstr.shSize.toNat
  pure (shstr, shstrtab)

/-- Whether a section has the name `.text`. -/
def isTextSection (shstr : Elf64Shdr) (shstrtab : List Byte) (sh : Elf64Shdr) : CheckedRead Bool :=
  if shstr.shSize ≤ sh.shName.setWidth 64 then pure false
  else strEq shstrtab sh.shName.toNat (str ".text")

def findText (sections : List Byte) (shstr : Elf64Shdr) (shstrtab : List Byte) :
    Nat → Nat → CheckedRead (Option Elf64Shdr)
  | 0, _ => pure none
  | n + 1, i => do
    let sh ← sectionAt sections i
    let found ← isTextSection shstr shstrtab sh
    if found then do
      guardThat (sh.shOffset + sh.shSize ≤ fileSize file)
      pure (some sh)
    else findText sections shstr shstrtab n (i + 1)

/-- The section `.text` that the file is disassembled from. -/
def selectText : CheckedRead Elf64Shdr := do
  let ehdr ← readElfHeader malloc file
  let sections ← readSectionTable malloc file ehdr
  let (shstr, shstrtab) ← readSectionNames malloc file ehdr sections
  let text ← findText file sections shstr shstrtab ehdr.eShnum.toNat 0
  orError text

/-- `asm_disassemble_file` on the contents of a file: the lines it prints. The decoder reads the
text in place; a text that is not in the file counts as read outside of it. -/
def asmDisassembleFile : CheckedRead (List DisLine) := do
  let sh ← selectText malloc file
  let text ← copy file sh.shOffset.toNat sh.shSize.toNat
  let (done, lines) ← disassembleCodeBuffer text sh.shAddr
  guardThat done
  pure lines

end

end X86Assembler
