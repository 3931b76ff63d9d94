import X86Assembler.Types
import X86Assembler.Library.Codec

namespace X86Assembler

open CString (Byte)

/-- `Elf64_Ehdr`, `dis_elf64_ehdr_t`. -/
structure Elf64Ehdr where
  eIdent : Vector Byte 16 := Vector.replicate 16 0
  eType : BitVec 16 := 0
  eMachine : BitVec 16 := 0
  eVersion : BitVec 32 := 0
  eEntry : BitVec 64 := 0
  ePhoff : BitVec 64 := 0
  eShoff : BitVec 64 := 0
  eFlags : BitVec 32 := 0
  eEhsize : BitVec 16 := 0
  ePhentsize : BitVec 16 := 0
  ePhnum : BitVec 16 := 0
  eShentsize : BitVec 16 := 0
  eShnum : BitVec 16 := 0
  eShstrndx : BitVec 16 := 0
deriving DecidableEq

/-- `Elf64_Phdr`. -/
structure Elf64Phdr where
  pType : BitVec 32 := 0
  pFlags : BitVec 32 := 0
  pOffset : BitVec 64 := 0
  pVaddr : BitVec 64 := 0
  pPaddr : BitVec 64 := 0
  pFilesz : BitVec 64 := 0
  pMemsz : BitVec 64 := 0
  pAlign : BitVec 64 := 0
deriving DecidableEq

/-- `Elf64_Shdr`, `dis_elf64_shdr_t`. -/
structure Elf64Shdr where
  shName : BitVec 32 := 0
  shType : BitVec 32 := 0
  shFlags : BitVec 64 := 0
  shAddr : BitVec 64 := 0
  shOffset : BitVec 64 := 0
  shSize : BitVec 64 := 0
  shLink : BitVec 32 := 0
  shInfo : BitVec 32 := 0
  shAddralign : BitVec 64 := 0
  shEntsize : BitVec 64 := 0
deriving DecidableEq

namespace Elf64Ehdr

def codec : Codec Elf64Ehdr :=
  ((Codec.bytes 16).seq <| .seq .u16 <| .seq .u16 <| .seq .u32 <| .seq .u64 <| .seq .u64 <|
    .seq .u64 <| .seq .u32 <| .seq .u16 <| .seq .u16 <| .seq .u16 <| .seq .u16 <|
    .seq .u16 .u16).map {
      toFun := fun (ident, type, machine, version, entry, phoff, shoff, flags, ehsize, phentsize,
          phnum, shentsize, shnum, shstrndx) =>
        ⟨ident, type, machine, version, entry, phoff, shoff, flags, ehsize, phentsize, phnum,
          shentsize, shnum, shstrndx⟩
      invFun := fun h =>
        (h.eIdent, h.eType, h.eMachine, h.eVersion, h.eEntry, h.ePhoff, h.eShoff, h.eFlags,
          h.eEhsize, h.ePhentsize, h.ePhnum, h.eShentsize, h.eShnum, h.eShstrndx)
      left_inv := fun _ => rfl
      right_inv := fun _ => rfl }

@[simp] theorem codec_size : codec.size = 64 := rfl

end Elf64Ehdr

namespace Elf64Phdr

def codec : Codec Elf64Phdr :=
  (Codec.u32.seq <| .seq .u32 <| .seq .u64 <| .seq .u64 <| .seq .u64 <| .seq .u64 <|
    .seq .u64 .u64).map {
      toFun := fun (type, flags, offset, vaddr, paddr, filesz, memsz, align) =>
        ⟨type, flags, offset, vaddr, paddr, filesz, memsz, align⟩
      invFun := fun h =>
        (h.pType, h.pFlags, h.pOffset, h.pVaddr, h.pPaddr, h.pFilesz, h.pMemsz, h.pAlign)
      left_inv := fun _ => rfl
      right_inv := fun _ => rfl }

@[simp] theorem codec_size : codec.size = 56 := rfl

end Elf64Phdr

namespace Elf64Shdr

def codec : Codec Elf64Shdr :=
  (Codec.u32.seq <| .seq .u32 <| .seq .u64 <| .seq .u64 <| .seq .u64 <| .seq .u64 <|
    .seq .u32 <| .seq .u32 <| .seq .u64 .u64).map {
      toFun := fun (name, type, flags, addr, offset, size, link, info, addralign, entsize) =>
        ⟨name, type, flags, addr, offset, size, link, info, addralign, entsize⟩
      invFun := fun h =>
        (h.shName, h.shType, h.shFlags, h.shAddr, h.shOffset, h.shSize, h.shLink, h.shInfo,
          h.shAddralign, h.shEntsize)
      left_inv := fun _ => rfl
      right_inv := fun _ => rfl }

@[simp] theorem codec_size : codec.size = 64 := rfl

end Elf64Shdr

attribute [irreducible] Elf64Ehdr.codec Elf64Phdr.codec Elf64Shdr.codec

/-- The magic number, the class and the byte order at the start of a header. -/
def elfIdent : List Byte := [0x7F, CString.chr 'E', CString.chr 'L', CString.chr 'F', 2, 1]

end X86Assembler
