import X86Assembler.DebugSections
import X86Assembler.ElfFormat

namespace X86Assembler

open CString (Byte str)

def pagesize : Word := 4096

/-- The names of the sections, each with its NUL, between an empty one and the NUL that ends the
literal. -/
def shstrtab : List Byte :=
  [0] ++ [".text", ".data", ".shstrtab", ".debug_info", ".debug_abbrev", ".debug_line",
    ".debug_str"].flatMap (fun name => str name ++ [0]) ++ [0]

def shNameText : BitVec 32 := 1
def shNameData : BitVec 32 := 7
def shNameShstrtab : BitVec 32 := 13
def shNameDebugInfo : BitVec 32 := 23
def shNameDebugAbbrev : BitVec 32 := 35
def shNameDebugLine : BitVec 32 := 49
def shNameDebugStr : BitVec 32 := 61

def size (bs : List Byte) : Word := BitVec.ofNat 64 bs.length

structure ElfLayout where
  codeOffset : Word
  totalSize : Word
  totalAligned : Word
  debugInfoOffset : Word
  debugAbbrevOffset : Word
  debugLineOffset : Word
  debugStrOffset : Word
  shstrtabOffset : Word
  /-- The end of the name table. -/
  cursor : Word
  shoff : Word

/-- `align_up` of the writer. -/
def ElfLayout.alignUp (value align : Word) : Word :=
  if align = 0 then value else (value + align - 1) &&& ~~~(align - 1)

def elfLayout (ctx : OutputContext) (d : DebugSections) : ElfLayout :=
  let codeOffset := pagesize
  let totalSize := ctx.textSize + ctx.dataSize
  let totalAligned := (totalSize + pagesize - 1) &&& ~~~(pagesize - 1)
  let debugInfoOffset := codeOffset + totalAligned
  let debugAbbrevOffset := debugInfoOffset + size d.info
  let debugLineOffset := debugAbbrevOffset + size d.abbrevs
  let debugStrOffset := debugLineOffset + size d.line
  let shstrtabOffset := debugStrOffset + size d.str
  let cursor := shstrtabOffset + size shstrtab
  { codeOffset, totalSize, totalAligned, debugInfoOffset, debugAbbrevOffset, debugLineOffset,
    debugStrOffset, shstrtabOffset, cursor, shoff := ElfLayout.alignUp cursor 8 }

/-- The address of the first `_start`, or the base address. -/
def entryPoint (ctx : OutputContext) : Word :=
  ((ctx.symbols.find? fun sym => sym.name.bytes == str "_start").map Symbol.address).getD
    ctx.baseAddress

def elfHeader (ctx : OutputContext) (l : ElfLayout) : Elf64Ehdr where
  eIdent := Vector.ofFn fun i => (elfIdent ++ [1]).getD i 0
  eType := 2
  eMachine := 62
  eVersion := 1
  eEntry := entryPoint ctx
  ePhoff := 64
  eShoff := if ctx.emitDebugMap then l.shoff else 0
  eEhsize := 64
  ePhentsize := 56
  ePhnum := 1
  eShentsize := if ctx.emitDebugMap then 64 else 0
  eShnum := if ctx.emitDebugMap then 8 else 0
  eShstrndx := if ctx.emitDebugMap then 3 else 0

def programHeader (ctx : OutputContext) (l : ElfLayout) : Elf64Phdr where
  pType := 1
  pFlags := 1 ||| 4 ||| 2
  pOffset := l.codeOffset
  pVaddr := ctx.baseAddress
  pPaddr := ctx.baseAddress
  pFilesz := l.totalSize
  pMemsz := l.totalAligned
  pAlign := pagesize

def sectionHeaders (ctx : OutputContext) (d : DebugSections) (l : ElfLayout) : List Elf64Shdr := [
  {},
  { shName := shNameText, shType := 1, shFlags := 2 ||| 4, shAddr := ctx.baseAddress,
    shOffset := l.codeOffset, shSize := ctx.textSize, shAddralign := 16 },
  { shName := shNameData, shType := 1, shFlags := 2 ||| 1, shAddr := ctx.baseAddress + ctx.textSize,
    shOffset := l.codeOffset + ctx.textSize, shSize := ctx.dataSize, shAddralign := 8 },
  { shName := shNameShstrtab, shType := 3, shOffset := l.shstrtabOffset, shSize := size shstrtab,
    shAddralign := 1 },
  { shName := shNameDebugInfo, shType := 1, shOffset := l.debugInfoOffset, shSize := size d.info,
    shLink := 7, shInfo := 0, shAddralign := 1 },
  { shName := shNameDebugAbbrev, shType := 1, shOffset := l.debugAbbrevOffset,
    shSize := size d.abbrevs, shAddralign := 1 },
  { shName := shNameDebugLine, shType := 1, shOffset := l.debugLineOffset, shSize := size d.line,
    shAddralign := 1 },
  { shName := shNameDebugStr, shType := 3, shOffset := l.debugStrOffset, shSize := size d.str,
    shAddralign := 1 }]

def padding (start stop : Word) : List Byte := List.replicate (stop.toNat - start.toNat) 0

def imageFront (ctx : OutputContext) (l : ElfLayout) : List Byte :=
  Elf64Ehdr.codec.write (elfHeader ctx l) ++ Elf64Phdr.codec.write (programHeader ctx l) ++
    padding (64 + 56) l.codeOffset

/-- The text and the data, with the padding up to the page. -/
def imageCode (ctx : OutputContext) (l : ElfLayout) : List Byte :=
  ctx.textSection ++ ctx.dataSection ++ List.replicate (l.totalAligned - l.totalSize).toNat 0

def imageDebug (ctx : OutputContext) (d : DebugSections) (l : ElfLayout) : List Byte :=
  d.info ++ d.abbrevs ++ d.line ++ d.str ++ shstrtab ++ padding l.cursor l.shoff ++
    Elf64Shdr.codec.writeAll (sectionHeaders ctx d l)

/-- The file that `asm_write_elf64` writes; `none` is the exit for a full buffer. -/
def asmWriteElf64 (ctx : OutputContext) : Option (List Byte) := do
  let d ← if ctx.emitDebugMap then debugSections ctx else pure {}
  let l := elfLayout ctx d
  pure (imageFront ctx l ++ imageCode ctx l ++
    if ctx.emitDebugMap then imageDebug ctx d l else [])

end X86Assembler
