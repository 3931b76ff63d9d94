import X86Assembler.ElfRoundTrip
import X86Assembler.Library.Processor

namespace X86Assembler

open CString (Byte str)
open LittleEndian (slice slice_of_split)
open MachineCode (Memory)

def taskSize : Nat := 2 ^ 47 - 4096

def isLoaded (ph : Elf64Phdr) : Bool := ph.pType == 1

/-- What a loader asks of a segment: it lies in the file and in the addresses of a process, and its
place in a page is the same in both. -/
def segmentAccepted (file : List Byte) (ph : Elf64Phdr) : Bool :=
  ph.pOffset.toNat + ph.pFilesz.toNat ≤ file.length && ph.pFilesz ≤ ph.pMemsz &&
    ph.pVaddr.toNat + ph.pMemsz.toNat ≤ taskSize && (ph.pOffset - ph.pVaddr) &&& 4095 == 0

/-- The byte of a segment at an address: from the file, or zero behind that. -/
def segmentByte (file : List Byte) (ph : Elf64Phdr) : Memory := fun a =>
  if (a - ph.pVaddr).toNat < ph.pFilesz.toNat then file[ph.pOffset.toNat + (a - ph.pVaddr).toNat]?
  else if (a - ph.pVaddr).toNat < ph.pMemsz.toNat then some 0
  else none

structure Process where
  entry : Word
  /-- The bytes that can be run. -/
  code : Memory
  readable : Memory
  writable : Memory

def programHeaders (file : List Byte) : List Elf64Phdr :=
  (List.range (ehdrOf file).ePhnum.toNat).map fun i =>
    Elf64Phdr.codec.read (slice file ((ehdrOf file).ePhoff.toNat + 56 * i) 56)

/-- The bytes of the segments with a flag; a later segment covers an earlier one. -/
def loadedBytes (file : List Byte) (flag : BitVec 32) : Memory := fun a =>
  ((programHeaders file).filter fun ph => isLoaded ph && ph.pFlags &&& flag == flag).reverse.findSome?
    (segmentByte file · a)

/-- The file as an executable of this processor with its program headers. -/
def headerAccepted (file : List Byte) : Bool :=
  64 ≤ file.length && (ehdrOf file).eIdent.toList.take 6 == elfIdent && (ehdrOf file).eType == 2 &&
    (ehdrOf file).eMachine == 62 && (ehdrOf file).ePhentsize == 56 && (ehdrOf file).ePhnum != 0 &&
      (ehdrOf file).ePhoff.toNat + 56 * (ehdrOf file).ePhnum.toNat ≤ file.length

def loadElf (file : List Byte) : Option Process :=
  if headerAccepted file && ((programHeaders file).filter isLoaded).all (segmentAccepted file) then
    some {
      entry := (ehdrOf file).eEntry
      code := loadedBytes file 1
      readable := loadedBytes file 4
      writable := loadedBytes file 2 }
  else none

theorem segmentByte_holds {file : List Byte} {ph : Elf64Phdr} {bs : List Byte}
    (hslice : slice file ph.pOffset.toNat ph.pFilesz.toNat = bs)
    (hin : ph.pOffset.toNat + ph.pFilesz.toNat ≤ file.length) :
    (segmentByte file ph).Holds ph.pVaddr bs := by
  intro k hk
  have hlen : bs.length = ph.pFilesz.toNat := by
    rw [← hslice, slice, List.length_take, List.length_drop]
    omega
  have hsmall : k < 2 ^ 64 := by
    have := ph.pFilesz.isLt
    omega
  have hindex : (ph.pVaddr + BitVec.ofNat 64 k - ph.pVaddr).toNat = k := by
    rw [BitVec.add_comm, BitVec.add_sub_cancel, BitVec.toNat_ofNat, Nat.mod_eq_of_lt hsmall]
  rw [segmentByte, hindex, if_pos (by omega), List.getElem?_eq_getElem (by omega)]
  congr 1
  subst hslice
  rw [List.getElem_of_eq rfl]
  simp only [slice, List.getElem_take, List.getElem_drop]

/-- What the writer leaves for the loader: the headers, and the code behind them. -/
structure WrittenFile (ctx : OutputContext) (l : ElfLayout) (image : List Byte) : Prop where
  split : ∃ more, image = imageFront ctx l ++ imageCode ctx l ++ more
  front : (imageFront ctx l).length = 4096
  code : l.codeOffset.toNat = 4096
  total : l.totalSize.toNat = ctx.textSection.length + ctx.dataSection.length
  aligned : l.totalSize.toNat ≤ l.totalAligned.toNat
  bound : l.totalAligned.toNat < 2 ^ 32

theorem asmWriteElf64_written {ctx : OutputContext} {image : List Byte}
    (htext : ctx.textSection.length ≤ maxOutputSize) (hdata : ctx.dataSection.length ≤ maxOutputSize)
    (h : asmWriteElf64 ctx = some image) : ∃ l, WrittenFile ctx l image := by
  have hall : ∀ d : DebugSections, FitsFile ctx d → ∀ more,
      WrittenFile ctx (elfLayout ctx d)
        (imageFront ctx (elfLayout ctx d) ++ imageCode ctx (elfLayout ctx d) ++ more) := by
    intro d hd more
    have hplaces := hd.places
    have hnames := hplaces.names
    have hcursor := hplaces.cursor
    have hshoff := hplaces.shoff
    have hsmall := hplaces.small
    exact ⟨⟨more, rfl⟩, hd.front_length, hplaces.code, hplaces.total, hplaces.aligned, by omega⟩
  rw [asmWriteElf64] at h
  by_cases hemit : ctx.emitDebugMap = true
  · obtain ⟨d, hd, rfl⟩ := asmWriteElf64_eq_some hemit h
    exact ⟨_, hall d (fitsFile_of hd htext hdata) _⟩
  · simp only [if_neg hemit, pure_bind] at h
    obtain rfl := Option.some.inj h
    exact ⟨_, hall {} ⟨htext, hdata, Nat.zero_le _, Nat.zero_le _, Nat.zero_le _, Nat.zero_le _⟩ []⟩

namespace WrittenFile

variable {ctx : OutputContext} {l : ElfLayout} {image : List Byte} (h : WrittenFile ctx l image)

include h

theorem ehdr : ehdrOf image = elfHeader ctx l := by
  obtain ⟨more, himage⟩ := h.split
  have hslice : slice image 0 64 = Elf64Ehdr.codec.write (elfHeader ctx l) := by
    apply slice_of_split (a := []) (c := Elf64Phdr.codec.write (programHeader ctx l) ++
      padding (64 + 56) l.codeOffset ++ imageCode ctx l ++ more)
    · rw [himage, imageFront]
      simp only [List.nil_append, List.append_assoc]
    · rfl
    · rw [Codec.write_length, Elf64Ehdr.codec_size]
  rw [ehdrOf, hslice]
  exact Elf64Ehdr.codec.read_write _

theorem programHeaders_eq : programHeaders image = [programHeader ctx l] := by
  obtain ⟨more, himage⟩ := h.split
  have hslice : slice image 64 56 = Elf64Phdr.codec.write (programHeader ctx l) := by
    apply slice_of_split (a := Elf64Ehdr.codec.write (elfHeader ctx l))
      (c := padding (64 + 56) l.codeOffset ++ imageCode ctx l ++ more)
    · rw [himage, imageFront]
      simp only [List.append_assoc]
    · rw [Codec.write_length, Elf64Ehdr.codec_size]
    · rw [Codec.write_length, Elf64Phdr.codec_size]
  rw [programHeaders, h.ehdr]
  show [Elf64Phdr.codec.read (slice image (64 + 56 * 0) 56)] = _
  rw [Nat.mul_zero, Nat.add_zero, hslice]
  exact congrArg (fun ph => [ph]) (Elf64Phdr.codec.read_write _)

theorem length_le : 4096 + (ctx.textSection.length + ctx.dataSection.length) ≤ image.length := by
  obtain ⟨more, himage⟩ := h.split
  have hfront := h.front
  rw [himage, imageCode]
  simp only [List.length_append]
  omega

theorem slice_loaded : slice image 4096 (ctx.textSection.length + ctx.dataSection.length) =
    ctx.textSection ++ ctx.dataSection := by
  obtain ⟨more, himage⟩ := h.split
  apply slice_of_split (a := imageFront ctx l)
    (c := List.replicate (l.totalAligned - l.totalSize).toNat 0 ++ more)
  · rw [himage, imageCode]
    simp only [List.append_assoc]
  · exact h.front.symm
  · rw [List.length_append]

theorem holds : (segmentByte image (programHeader ctx l)).Holds ctx.baseAddress
    (ctx.textSection ++ ctx.dataSection) := by
  have hcode : (programHeader ctx l).pOffset.toNat = 4096 := h.code
  have htotal : (programHeader ctx l).pFilesz.toNat =
    ctx.textSection.length + ctx.dataSection.length := h.total
  apply @segmentByte_holds image (programHeader ctx l)
  · rw [hcode, htotal, h.slice_loaded]
  · rw [hcode, htotal]
    exact h.length_le

theorem loadedBytes_eq {flag : BitVec 32} (hflag : (7 : BitVec 32) &&& flag = flag) :
    loadedBytes image flag = segmentByte image (programHeader ctx l) := by
  funext a
  have hkeep : (isLoaded (programHeader ctx l) && (programHeader ctx l).pFlags &&& flag == flag) = true :=
    beq_iff_eq.mpr hflag
  rw [loadedBytes, h.programHeaders_eq, List.filter_singleton, hkeep]
  show [programHeader ctx l].findSome? _ = _
  rw [List.findSome?_singleton]

theorem accepted (hbase : ctx.baseAddress = 0x400000) : headerAccepted image = true ∧
    segmentAccepted image (programHeader ctx l) = true := by
  have hlen := h.length_le
  have hcode := h.code
  have htotal := h.total
  have haligned := h.aligned
  have hbound := h.bound
  constructor
  · rw [headerAccepted, h.ehdr]
    have hsmall : 64 ≤ image.length := by omega
    have hheaders : 64 + 56 * 1 ≤ image.length := by omega
    simp only [Bool.and_eq_true, decide_eq_true_eq, beq_iff_eq, bne_iff_ne, ne_eq]
    exact ⟨⟨⟨⟨⟨⟨hsmall, rfl⟩, rfl⟩, rfl⟩, rfl⟩, by show ¬(1 : BitVec 16) = 0; decide⟩, hheaders⟩
  · have hoffset : l.codeOffset = 4096 := BitVec.eq_of_toNat_eq h.code
    simp only [segmentAccepted, programHeader, Bool.and_eq_true, decide_eq_true_eq, beq_iff_eq, hbase,
      hoffset]
    refine ⟨⟨⟨?_, BitVec.le_def.mpr haligned⟩, ?_⟩, by decide⟩
    · rw [htotal]
      exact hlen
    · show 0x400000 + l.totalAligned.toNat ≤ 2 ^ 47 - 4096
      omega

end WrittenFile

/-- The process of a written file: it has the text and the data, one behind the other, at the base
address, to run, to read and to write, zeros up to the next page, and nothing else. -/
structure Loads (ctx : OutputContext) (p : Process) : Prop where
  entry : p.entry = entryPoint ctx
  code : p.code.Holds ctx.baseAddress (ctx.textSection ++ ctx.dataSection)
  readable : p.readable = p.code
  writable : p.writable = p.code
  others : ∀ a b, p.code a = some b →
    (a - ctx.baseAddress).toNat < ctx.textSection.length + ctx.dataSection.length ∨ b = 0

theorem asmWriteElf64_loads {ctx : OutputContext} {image : List Byte}
    (hbase : ctx.baseAddress = 0x400000)
    (htext : ctx.textSection.length ≤ maxOutputSize) (hdata : ctx.dataSection.length ≤ maxOutputSize)
    (h : asmWriteElf64 ctx = some image) : ∃ p, loadElf image = some p ∧ Loads ctx p := by
  obtain ⟨l, hl⟩ := asmWriteElf64_written htext hdata h
  obtain ⟨hheader, hsegment⟩ := hl.accepted hbase
  have hkept : ((programHeaders image).filter isLoaded).all (segmentAccepted image) = true := by
    rw [hl.programHeaders_eq]
    show [programHeader ctx l].all (segmentAccepted image) = true
    rw [List.all_cons, hsegment, List.all_nil, Bool.and_self]
  have hcode : loadedBytes image 1 = _ := hl.loadedBytes_eq (by decide)
  refine ⟨_, by rw [loadElf, hheader, hkept, Bool.and_self, if_pos rfl], ?_, ?_, ?_, ?_, ?_⟩
  · show (ehdrOf image).eEntry = _
    rw [hl.ehdr]
    rfl
  · show (loadedBytes image 1).Holds _ _
    rw [hcode]
    exact hl.holds
  · show loadedBytes image 4 = loadedBytes image 1
    rw [hcode]
    exact hl.loadedBytes_eq (by decide)
  · show loadedBytes image 2 = loadedBytes image 1
    rw [hcode]
    exact hl.loadedBytes_eq (by decide)
  · intro a b hb
    have hbyte : segmentByte image (programHeader ctx l) a = some b := by
      rw [← hcode]
      exact hb
    rw [segmentByte] at hbyte
    split at hbyte
    · next hlt =>
        left
        rw [← hl.total]
        exact hlt
    · split at hbyte
      · right
        exact (Option.some.inj hbyte).symm
      · cases hbyte

end X86Assembler
