import X86Assembler.ElfSafety
import X86Assembler.ElfWriter
import X86Assembler.Listing

namespace X86Assembler

open CString (Byte str)
open CheckedRead LittleEndian

theorem and_not_mask (y : Word) {k : Nat} (hk : k < 64) :
    y &&& ~~~(BitVec.twoPow 64 k - 1) = (y >>> k) <<< k := by
  have hmask : ∀ i, (BitVec.twoPow 64 k - 1).getLsbD i = decide (i < k) := by
    intro i
    have hlt : 2 ^ k < 2 ^ 64 := Nat.pow_lt_pow_right (by decide) hk
    have hpos := Nat.two_pow_pos k
    have hnat : (BitVec.twoPow 64 k - 1).toNat = 2 ^ k - 1 := by
      rw [BitVec.toNat_sub, BitVec.toNat_twoPow, Nat.mod_eq_of_lt hlt]
      have hone : (1 : Word).toNat = 1 := rfl
      rw [hone]
      omega
    rw [BitVec.getLsbD, hnat, Nat.testBit_two_pow_sub_one]
  apply BitVec.eq_of_getLsbD_eq
  intro i hi
  rw [BitVec.getLsbD_and, BitVec.getLsbD_not, hmask, BitVec.getLsbD_shiftLeft,
    BitVec.getLsbD_ushiftRight, decide_eq_true hi]
  by_cases hik : i < k
  · simp [hik]
  · have hsum : k + (i - k) = i := by omega
    simp [hik, hsum]

theorem roundUp_toNat {v : Word} {k : Nat} (hk : k < 64) (hv : v.toNat + 2 ^ k < 2 ^ 64) :
    v.toNat ≤ ((v + BitVec.twoPow 64 k - 1) &&& ~~~(BitVec.twoPow 64 k - 1)).toNat ∧
      ((v + BitVec.twoPow 64 k - 1) &&& ~~~(BitVec.twoPow 64 k - 1)).toNat < v.toNat + 2 ^ k := by
  have hpos := Nat.two_pow_pos k
  have hpow : (BitVec.twoPow 64 k).toNat = 2 ^ k := by
    rw [BitVec.toNat_twoPow, Nat.mod_eq_of_lt (by omega)]
  have hsum : (v + BitVec.twoPow 64 k - 1).toNat = v.toNat + 2 ^ k - 1 := by
    have hone : (1 : Word).toNat = 1 := rfl
    rw [BitVec.toNat_sub, BitVec.toNat_add, hpow, hone]
    omega
  rw [and_not_mask _ hk, BitVec.toNat_shiftLeft, BitVec.toNat_ushiftRight, hsum,
    Nat.shiftLeft_eq, Nat.shiftRight_eq_div_pow]
  have hdiv := Nat.div_add_mod (v.toNat + 2 ^ k - 1) (2 ^ k)
  have hmod := Nat.mod_lt (v.toNat + 2 ^ k - 1) hpos
  rw [Nat.mul_comm] at hdiv
  rw [Nat.mod_eq_of_lt (by omega)]
  omega

/-- The sizes of an assembled program and of its debug sections. -/
structure FitsFile (ctx : OutputContext) (d : DebugSections) : Prop where
  text : ctx.textSection.length ≤ maxOutputSize
  data : ctx.dataSection.length ≤ maxOutputSize
  info : d.info.length ≤ debugInfoCapacity
  abbrevs : d.abbrevs.length ≤ debugAbbrevCapacity
  line : d.line.length ≤ debugLineCapacity
  str : d.str.length ≤ debugStrCapacity

/-- The offsets of the layout in numbers that do not wrap. -/
structure ElfLayout.Places (l : ElfLayout) (ctx : OutputContext) (d : DebugSections) : Prop where
  code : l.codeOffset.toNat = 4096
  total : l.totalSize.toNat = ctx.textSection.length + ctx.dataSection.length
  aligned : l.totalSize.toNat ≤ l.totalAligned.toNat
  names : l.shstrtabOffset.toNat = 4096 + l.totalAligned.toNat + d.info.length +
    d.abbrevs.length + d.line.length + d.str.length
  cursor : l.cursor.toNat = l.shstrtabOffset.toNat + shstrtab.length
  shoff : l.cursor.toNat ≤ l.shoff.toNat
  small : l.shoff.toNat < 2 ^ 32

theorem size_toNat {bs : List Byte} {n : Nat} (h : bs.length ≤ n) (hn : n < 2 ^ 64) :
    (size bs).toNat = bs.length := by
  rw [size, BitVec.toNat_ofNat, Nat.mod_eq_of_lt (by omega)]

theorem shstrtab_length : shstrtab.length = 73 := by decide

theorem elfLayout_places {ctx : OutputContext} {d : DebugSections} (h : FitsFile ctx d) :
    (elfLayout ctx d).Places ctx d := by
  have htext := size_toNat h.text (by decide)
  have hdata := size_toNat h.data (by decide)
  have hinfo := size_toNat h.info (by decide)
  have habbrevs := size_toNat h.abbrevs (by decide)
  have hline := size_toNat h.line (by decide)
  have hstr := size_toNat h.str (by decide)
  have hnames := size_toNat (Nat.le_refl shstrtab.length) (by decide)
  obtain ⟨h₁, h₂, h₃, h₄, h₅, h₆⟩ := h
  rw [maxOutputSize] at h₁ h₂
  rw [debugInfoCapacity] at h₃
  rw [debugAbbrevCapacity] at h₄
  rw [debugLineCapacity] at h₅
  rw [debugStrCapacity] at h₆
  rw [shstrtab_length] at hnames
  generalize hl : elfLayout ctx d = l
  have htotal : l.totalSize.toNat = ctx.textSection.length + ctx.dataSection.length := by
    rw [← hl]
    change (size ctx.textSection + size ctx.dataSection).toNat = _
    rw [BitVec.toNat_add, htext, hdata]
    omega
  obtain ⟨haligned, hbound⟩ := @roundUp_toNat l.totalSize 12 (by decide) (by omega)
  have halignedEq : (l.totalSize + BitVec.twoPow 64 12 - 1) &&& ~~~(BitVec.twoPow 64 12 - 1) =
      l.totalAligned := by
    rw [← hl]
    rfl
  rw [halignedEq] at haligned hbound
  have hshstrtab : l.shstrtabOffset.toNat = 4096 + l.totalAligned.toNat + d.info.length +
      d.abbrevs.length + d.line.length + d.str.length := by
    have heq : l.shstrtabOffset = pagesize + l.totalAligned + size d.info + size d.abbrevs +
        size d.line + size d.str := by
      rw [← hl]
      rfl
    have hpage : pagesize.toNat = 4096 := rfl
    simp only [heq, BitVec.toNat_add, hinfo, habbrevs, hline, hstr, hpage]
    omega
  have hcursor : l.cursor.toNat = l.shstrtabOffset.toNat + shstrtab.length := by
    have heq : l.cursor = l.shstrtabOffset + size shstrtab := by
      rw [← hl]
      rfl
    rw [heq, BitVec.toNat_add, hnames, shstrtab_length]
    omega
  rw [shstrtab_length] at hcursor
  obtain ⟨hshoff, hsmall⟩ := @roundUp_toNat l.cursor 3 (by decide) (by omega)
  have hshoffEq : (l.cursor + BitVec.twoPow 64 3 - 1) &&& ~~~(BitVec.twoPow 64 3 - 1) =
      l.shoff := by
    rw [← hl]
    rfl
  rw [hshoffEq] at hshoff hsmall
  refine ⟨?_, htotal, haligned, hshstrtab, ?_, hshoff, by omega⟩
  · rw [← hl]
    rfl
  · rw [hcursor, shstrtab_length]

def fileImage (ctx : OutputContext) (d : DebugSections) : List Byte :=
  imageFront ctx (elfLayout ctx d) ++ imageCode ctx (elfLayout ctx d) ++
    imageDebug ctx d (elfLayout ctx d)

theorem asmWriteElf64_eq_some {ctx : OutputContext} {image : List Byte}
    (hemit : ctx.emitDebugMap = true) (h : asmWriteElf64 ctx = some image) :
    ∃ d, debugSections ctx = some d ∧ image = fileImage ctx d := by
  simp only [asmWriteElf64, if_pos hemit, Option.bind_eq_bind, Option.bind_eq_some_iff] at h
  obtain ⟨d, hd, himage⟩ := h
  exact ⟨d, hd, (Option.some.inj himage).symm⟩

theorem fitsFile_of {ctx : OutputContext} {d : DebugSections} (hd : debugSections ctx = some d)
    (htext : ctx.textSection.length ≤ maxOutputSize)
    (hdata : ctx.dataSection.length ≤ maxOutputSize) : FitsFile ctx d := by
  obtain ⟨off, hstr, habbrevs, hinfo, hline⟩ := debugSections_eq_some hd
  exact ⟨htext, hdata, Fill.build_length_le hinfo, Fill.build_length_le habbrevs,
    Fill.build_length_le hline, Fill.build_length_le hstr⟩

def debugFront (ctx : OutputContext) (d : DebugSections) : List Byte :=
  d.info ++ d.abbrevs ++ d.line ++ d.str ++ shstrtab ++
    padding (elfLayout ctx d).cursor (elfLayout ctx d).shoff

theorem fileImage_ehdr (ctx : OutputContext) (d : DebugSections) :
    slice (fileImage ctx d) 0 64 = Elf64Ehdr.codec.write (elfHeader ctx (elfLayout ctx d)) := by
  apply slice_of_split (a := []) (c := Elf64Phdr.codec.write (programHeader ctx (elfLayout ctx d)) ++
    padding (64 + 56) (elfLayout ctx d).codeOffset ++ imageCode ctx (elfLayout ctx d) ++ imageDebug ctx d (elfLayout ctx d))
  · rw [fileImage, imageFront]
    simp only [List.nil_append, List.append_assoc]
  · rfl
  · rw [Codec.write_length, Elf64Ehdr.codec_size]

theorem fileImage_phdr (ctx : OutputContext) (d : DebugSections) :
    slice (fileImage ctx d) 64 56 = Elf64Phdr.codec.write (programHeader ctx (elfLayout ctx d)) := by
  apply slice_of_split (a := Elf64Ehdr.codec.write (elfHeader ctx (elfLayout ctx d)))
    (c := padding (64 + 56) (elfLayout ctx d).codeOffset ++ imageCode ctx (elfLayout ctx d) ++
      imageDebug ctx d (elfLayout ctx d))
  · rw [fileImage, imageFront]
    simp only [List.append_assoc]
  · rw [Codec.write_length, Elf64Ehdr.codec_size]
  · rw [Codec.write_length, Elf64Phdr.codec_size]

namespace FitsFile

variable {ctx : OutputContext} {d : DebugSections} (h : FitsFile ctx d)

include h

theorem places : (elfLayout ctx d).Places ctx d := elfLayout_places h

theorem front_length : (imageFront ctx (elfLayout ctx d)).length = 4096 := by
  have hcode := h.places.code
  have hstart : ((64 : Word) + 56).toNat = 120 := rfl
  rw [imageFront, List.length_append, List.length_append, Codec.write_length, Codec.write_length,
    Elf64Ehdr.codec_size, Elf64Phdr.codec_size, padding, List.length_replicate, hcode, hstart]

theorem code_length : (imageCode ctx (elfLayout ctx d)).length = (elfLayout ctx d).totalAligned.toNat := by
  have htotal := h.places.total
  have haligned := h.places.aligned
  rw [imageCode, List.length_append, List.length_append, List.length_replicate,
    BitVec.toNat_sub_of_le (BitVec.le_def.mpr haligned), htotal]
  omega

theorem debugFront_length :
    4096 + (elfLayout ctx d).totalAligned.toNat + (debugFront ctx d).length = (elfLayout ctx d).shoff.toNat := by
  have hnames := h.places.names
  have hcursor := h.places.cursor
  have hshoff := h.places.shoff
  rw [debugFront]
  simp only [List.length_append, padding, List.length_replicate]
  omega

theorem image_length : (fileImage ctx d).length = (elfLayout ctx d).shoff.toNat + 512 := by
  have hlen := h.debugFront_length
  rw [fileImage, List.length_append, List.length_append, h.front_length, h.code_length]
  change _ + (debugFront ctx d ++ Elf64Shdr.codec.writeAll _).length = _
  rw [List.length_append, Codec.writeAll_length, Elf64Shdr.codec_size]
  change _ + (_ + 64 * 8) = _
  omega

theorem slice_loaded : slice (fileImage ctx d) 4096 (ctx.textSection.length + ctx.dataSection.length) =
    ctx.textSection ++ ctx.dataSection := by
  apply slice_of_split (a := imageFront ctx (elfLayout ctx d))
    (c := List.replicate ((elfLayout ctx d).totalAligned - (elfLayout ctx d).totalSize).toNat 0 ++
      imageDebug ctx d (elfLayout ctx d))
  · rw [fileImage, imageCode]
    simp only [List.append_assoc]
  · exact h.front_length.symm
  · rw [List.length_append]

theorem slice_text : slice (fileImage ctx d) 4096 ctx.textSection.length = ctx.textSection := by
  have hloaded := congrArg (List.take ctx.textSection.length) h.slice_loaded
  rwa [slice, List.take_take, Nat.min_eq_left (Nat.le_add_right _ _), List.take_left] at hloaded

theorem slice_names : slice (fileImage ctx d) (elfLayout ctx d).shstrtabOffset.toNat 73 = shstrtab := by
  have hnames := h.places.names
  apply slice_of_split (a := imageFront ctx (elfLayout ctx d) ++ imageCode ctx (elfLayout ctx d) ++ d.info ++
      d.abbrevs ++ d.line ++ d.str)
    (c := padding (elfLayout ctx d).cursor (elfLayout ctx d).shoff ++
      Elf64Shdr.codec.writeAll (sectionHeaders ctx d (elfLayout ctx d)))
  · rw [fileImage, imageDebug]
    simp only [List.append_assoc]
  · simp only [List.length_append, h.front_length, h.code_length]
    omega
  · exact shstrtab_length.symm

theorem slice_sections : slice (fileImage ctx d) (elfLayout ctx d).shoff.toNat 512 =
    Elf64Shdr.codec.writeAll (sectionHeaders ctx d (elfLayout ctx d)) := by
  apply slice_of_split (a := imageFront ctx (elfLayout ctx d) ++ imageCode ctx (elfLayout ctx d) ++ debugFront ctx d)
    (c := [])
  · rw [fileImage, imageDebug, debugFront]
    simp only [List.append_assoc, List.append_nil]
  · simp only [List.length_append, h.front_length, h.code_length]
    exact h.debugFront_length.symm
  · rw [Codec.writeAll_length, Elf64Shdr.codec_size]
    rfl

theorem loaded_fits :
    4096 + (ctx.textSection.length + ctx.dataSection.length) ≤ (fileImage ctx d).length := by
  have htotal := h.places.total
  have haligned := h.places.aligned
  have hnames := h.places.names
  have hcursor := h.places.cursor
  have hshoff := h.places.shoff
  rw [h.image_length]
  omega

variable (hemit : ctx.emitDebugMap = true)

omit h in
theorem ehdrOf_image : ehdrOf (fileImage ctx d) = elfHeader ctx (elfLayout ctx d) := by
  rw [ehdrOf, fileImage_ehdr, Codec.read_write]

include hemit

omit h in
theorem header_fields : (ehdrOf (fileImage ctx d)).eShoff = (elfLayout ctx d).shoff ∧
    (ehdrOf (fileImage ctx d)).eShentsize = 64 ∧ (ehdrOf (fileImage ctx d)).eShnum = 8 ∧
      (ehdrOf (fileImage ctx d)).eShstrndx = 3 := by
  rw [ehdrOf_image, elfHeader, if_pos hemit, if_pos hemit, if_pos hemit, if_pos hemit]
  exact ⟨rfl, rfl, rfl, rfl⟩

theorem isElf64 : IsElf64 (fileImage ctx d) := by
  have hsmall := h.places.small
  have hlen := h.image_length
  obtain ⟨-, hentry, hnum, -⟩ := @header_fields ctx d hemit
  refine ⟨by omega, by omega, ?_, ?_, ?_⟩
  · rw [ehdrOf_image]
    rfl
  · rw [hentry]
    rfl
  · rw [hnum]
    decide

theorem hasSections : HasSections (fileImage ctx d) := by
  have hlen := h.image_length
  obtain ⟨hshoff, -, hnum, -⟩ := @header_fields ctx d hemit
  refine ⟨h.isElf64 hemit, ?_⟩
  rw [InFile, hshoff, hnum, hlen]
  exact Nat.le_refl _

theorem sectionTable_image : sectionTableOf (fileImage ctx d) =
    Elf64Shdr.codec.writeAll (sectionHeaders ctx d (elfLayout ctx d)) := by
  obtain ⟨hshoff, -, hnum, -⟩ := @header_fields ctx d hemit
  rw [sectionTableOf, hshoff, hnum]
  exact h.slice_sections

theorem section_image {i : Nat} {sh : Elf64Shdr}
    (hi : (sectionHeaders ctx d (elfLayout ctx d))[i]? = some sh) :
    sectionOf (fileImage ctx d) i = sh := by
  rw [sectionOf, h.sectionTable_image hemit, Codec.readAt_writeAll _ hi]

theorem names_image : (namesOf (fileImage ctx d)).shOffset = (elfLayout ctx d).shstrtabOffset ∧
    (namesOf (fileImage ctx d)).shSize.toNat = 73 := by
  obtain ⟨-, -, -, hindex⟩ := @header_fields ctx d hemit
  rw [namesOf, hindex, h.section_image hemit rfl]
  refine ⟨rfl, ?_⟩
  rw [size_toNat (Nat.le_refl _) (by decide), shstrtab_length]

theorem nameTable_image : nameTableOf (fileImage ctx d) = shstrtab := by
  obtain ⟨hoff, hsize⟩ := h.names_image hemit
  rw [nameTableOf, hoff, hsize, h.slice_names]

theorem hasNames : HasNames (fileImage ctx d) := by
  have hlen := h.image_length
  have hcursor := h.places.cursor
  have hshoff := h.places.shoff
  obtain ⟨-, -, hnum, hindex⟩ := @header_fields ctx d hemit
  obtain ⟨hoff, hsize⟩ := h.names_image hemit
  rw [shstrtab_length] at hcursor
  refine ⟨h.hasSections hemit, ?_, ?_, ?_⟩
  · rw [hnum, hindex]
    decide
  · rw [InFile, hoff, hsize, hlen]
    omega
  · intro hzero
    rw [hzero] at hsize
    cases hsize

theorem findText_image : findText (fileImage ctx d) (sectionTableOf (fileImage ctx d))
    (namesOf (fileImage ctx d)) (nameTableOf (fileImage ctx d)) 8 0 =
      .ok (some (sectionOf (fileImage ctx d) 1)) := by
  have hnames := h.hasNames hemit
  obtain ⟨-, -, hnum, -⟩ := @header_fields ctx d hemit
  have hnum : (ehdrOf (fileImage ctx d)).eShnum.toNat = 8 := by
    rw [hnum]
    rfl
  have hfirst : nameOf (fileImage ctx d) 0 = shstrtab := by
    rw [nameOf, h.nameTable_image hemit, h.section_image hemit (i := 0) rfl]
    rfl
  have hsecond : nameOf (fileImage ctx d) 1 = shstrtab.drop 1 := by
    rw [nameOf, h.nameTable_image hemit, h.section_image hemit (i := 1) rfl]
    rfl
  have hnot : ¬IsText (fileImage ctx d) 0 := by
    rw [IsText, hfirst]
    decide
  have htext : IsText (fileImage ctx d) 1 := by
    rw [IsText, hsecond]
    decide
  have hends : ∀ i < 2, nameOf (fileImage ctx d) i <+: CString.str ".text" →
      nameOf (fileImage ctx d) i = [] := by
    intro i hi hp
    have hlt := hp.length_le
    obtain rfl | rfl : i = 0 ∨ i = 1 := by omega
    · rw [hfirst, shstrtab_length] at hlt
      exact absurd hlt (by decide)
    · rw [hsecond, List.length_drop, shstrtab_length] at hlt
      exact absurd hlt (by decide)
  have hcode := h.places.code
  have hplace : (sectionOf (fileImage ctx d) 1).shOffset = (elfLayout ctx d).codeOffset ∧
      (sectionOf (fileImage ctx d) 1).shSize = ctx.textSize := by
    rw [h.section_image hemit (i := 1) rfl]
    exact ⟨rfl, rfl⟩
  have hsize : ctx.textSize.toNat = ctx.textSection.length := size_toNat h.text (by decide)
  have hin : (sectionOf (fileImage ctx d) 1).shOffset + (sectionOf (fileImage ctx d) 1).shSize ≤
      fileSize (fileImage ctx d) := by
    have hroom := h.loaded_fits
    have hlt := (h.isElf64 hemit).1
    rw [le_fileSize_iff hlt (by rw [hplace.1, hplace.2, hcode, hsize]; omega), InFile, hplace.1,
      hplace.2, hcode, hsize]
    omega
  rw [findText, sectionAt_eq hnames.1 (by omega), ok_bind, isTextSection_eq hnames (hends 0 (by decide)),
    ok_bind, if_neg (by simpa using hnot), findText, sectionAt_eq hnames.1 (by omega), ok_bind,
    isTextSection_eq hnames (hends 1 (by decide)), ok_bind, if_pos (decide_eq_true htext),
    guardThat_bind_of (decide_eq_true hin)]
  rfl

theorem selectText_image {malloc : Nat → Bool}
    (hmalloc : ∀ n ≤ (fileImage ctx d).length, malloc n = true) :
    selectText malloc (fileImage ctx d) = .ok (sectionOf (fileImage ctx d) 1) := by
  have hnames := h.hasNames hemit
  have hlen := h.image_length
  have hsmall := h.places.small
  obtain ⟨hshoff, -, hnum, -⟩ := @header_fields ctx d hemit
  have hnum : (ehdrOf (fileImage ctx d)).eShnum.toNat = 8 := by
    rw [hnum]
    rfl
  have hsum := hnames.2.2.1
  rw [InFile] at hsum
  have hsections := @readSectionTable_eq malloc _ hnames.1.1 (by
    rw [hshoff, hnum]
    omega)
  have htable := @readSectionNames_eq malloc _ hnames.1 hnames.2.1 (by omega)
  rw [if_pos ⟨hnames.1, hmalloc _ (by rw [hnum]; omega)⟩] at hsections
  rw [if_pos ⟨hnames, hmalloc _ (by omega)⟩] at htable
  rw [selectText, readElfHeader_eq_ok.mpr ⟨rfl, hnames.1.1, hmalloc _ (Nat.le_refl _)⟩, ok_bind,
    hsections, ok_bind, htable, ok_bind]
  dsimp only
  rw [hnum, h.findText_image hemit]
  rfl

end FitsFile

/-- What the reader finds in a file and what a loader maps of it. -/
structure RoundTrips (malloc : Nat → Bool) (ctx : OutputContext) (image : List Byte) : Prop where
  /-- All checks pass up to the section walk, and the text is the text of the context. -/
  text : ∃ sh, selectText malloc image = .ok sh ∧
    copy image sh.shOffset.toNat sh.shSize.toNat = .ok ctx.textSection ∧
      sh.shAddr = ctx.baseAddress
  /-- The one program header loads the text and the data at the base address. -/
  segment : ∃ ehdr phdr, ehdr = ehdrOf image ∧ ehdr.ePhnum = 1 ∧
    phdr = Elf64Phdr.codec.read (slice image ehdr.ePhoff.toNat 56) ∧ phdr.pType = 1 ∧
      phdr.pVaddr = ctx.baseAddress ∧
        phdr.pOffset.toNat + phdr.pFilesz.toNat ≤ image.length ∧
          slice image phdr.pOffset.toNat phdr.pFilesz.toNat =
            ctx.textSection ++ ctx.dataSection ∧
              phdr.pFilesz ≤ phdr.pMemsz

theorem roundTrips_of {malloc : Nat → Bool} {ctx : OutputContext} {image : List Byte}
    (hemit : ctx.emitDebugMap = true) (htext : ctx.textSection.length ≤ maxOutputSize)
    (hdata : ctx.dataSection.length ≤ maxOutputSize) (h : asmWriteElf64 ctx = some image)
    (hmalloc : ∀ n ≤ image.length, malloc n = true) : RoundTrips malloc ctx image := by
  obtain ⟨d, hd, rfl⟩ := asmWriteElf64_eq_some hemit h
  have hfits := fitsFile_of hd htext hdata
  have hcode := hfits.places.code
  have htotal := hfits.places.total
  have hroom := hfits.loaded_fits
  refine ⟨⟨_, hfits.selectText_image hemit hmalloc, ?_, ?_⟩, ?_⟩
  · rw [hfits.section_image hemit (i := 1) rfl]
    dsimp only
    have hsize : ctx.textSize.toNat = ctx.textSection.length := size_toNat htext (by decide)
    rw [hcode, hsize, copy_of_le (by omega), hfits.slice_text]
  · rw [hfits.section_image hemit (i := 1) rfl]
  · refine ⟨_, programHeader ctx (elfLayout ctx d), rfl, ?_, ?_, rfl, rfl, ?_, ?_, ?_⟩
    · rw [FitsFile.ehdrOf_image]
      rfl
    · rw [FitsFile.ehdrOf_image]
      exact (congrArg Elf64Phdr.codec.read (fileImage_phdr ctx d)).trans
        (Elf64Phdr.codec.read_write _) |>.symm
    · rw [programHeader, hcode, htotal]
      exact hroom
    · rw [programHeader, hcode, htotal]
      exact hfits.slice_loaded
    · exact BitVec.le_def.mpr hfits.places.aligned

/-- The debug file of an assembled context is read back by the disassembler, and loads its text
and data. -/
theorem elf_roundTrips {insts : List ParsedInstruction} {ctx final : AssemblerContext}
    (htextCap : ctx.textCapacity = BitVec.ofNat 64 maxOutputSize)
    (hdataCap : ctx.dataCapacity = BitVec.ofNat 64 maxOutputSize)
    (h : asmAssemble insts ctx = (some (), final)) (filename : CString.CStr maxFilepathLength)
    {image : List Byte} (himage : asmWriteElf64 (final.toOutput filename true) = some image)
    {malloc : Nat → Bool} (hmalloc : ∀ n ≤ image.length, malloc n = true) :
    RoundTrips malloc (final.toOutput filename true) image := by
  obtain ⟨run⟩ := assemblyRun_of_success h
  have htext := run.final_text_fits
  have hdata := run.final_data_fits
  rw [htextCap] at htext
  rw [hdataCap] at hdata
  exact roundTrips_of rfl htext hdata himage hmalloc

/-- A program of one `ret`. -/
def returnsOnly : List ParsedInstruction := [{ type := .ret, label := some (CString.lit _ "_start") }]

theorem elf_roundTrips_returnsOnly :
    ∃ image, asmWriteElf64 ((asmAssemble returnsOnly emptyContext).2.toOutput
        (CString.lit _ "a.s") true) = some image ∧
      RoundTrips (fun _ => true) ((asmAssemble returnsOnly emptyContext).2.toOutput
        (CString.lit _ "a.s") true) image := by
  have hwritten : (asmWriteElf64 ((asmAssemble returnsOnly emptyContext).2.toOutput
      (CString.lit _ "a.s") true)).isSome = true := by decide +kernel
  obtain ⟨image, himage⟩ := Option.isSome_iff_exists.mp hwritten
  exact ⟨image, himage, elf_roundTrips rfl rfl (asmAssemble_success (by decide +kernel)) _ himage
    fun _ _ => rfl⟩

end X86Assembler
