import X86Assembler.DecoderSafety
import X86Assembler.ElfReader

namespace X86Assembler

open CString (Byte str)
open CheckedRead LittleEndian

section

variable (malloc : Nat → Bool) (file : List Byte)

def ehdrOf : Elf64Ehdr := Elf64Ehdr.codec.read (slice file 0 64)

def sectionTableOf : List Byte :=
  slice file (ehdrOf file).eShoff.toNat (64 * (ehdrOf file).eShnum.toNat)

def sectionOf (i : Nat) : Elf64Shdr := Elf64Shdr.codec.readAt (sectionTableOf file) i

def namesOf : Elf64Shdr := sectionOf file (ehdrOf file).eShstrndx.toNat

def nameTableOf : List Byte :=
  slice file (namesOf file).shOffset.toNat (namesOf file).shSize.toNat

def nameOf (i : Nat) : List Byte := (nameTableOf file).drop (sectionOf file i).shName.toNat

def InFile (offset size : Nat) : Prop := offset + size ≤ file.length

def IsElf64 : Prop :=
  file.length < 2 ^ 63 ∧ 64 ≤ file.length ∧ (ehdrOf file).eIdent.toList.take 6 = elfIdent ∧
    (ehdrOf file).eShentsize.toNat = 64 ∧ (ehdrOf file).eShnum ≠ 0

def HasSections : Prop :=
  IsElf64 file ∧ InFile file (ehdrOf file).eShoff.toNat (64 * (ehdrOf file).eShnum.toNat)

def HasNames : Prop :=
  HasSections file ∧ (ehdrOf file).eShstrndx.toNat < (ehdrOf file).eShnum.toNat ∧
    InFile file (namesOf file).shOffset.toNat (namesOf file).shSize.toNat ∧
      (namesOf file).shSize ≠ 0

def IsText (i : Nat) : Prop := str ".text" ++ [0] <+: nameOf file i

/-- The first section of the name `.text`. -/
def FirstText (i : Nat) : Prop :=
  i < (ehdrOf file).eShnum.toNat ∧ IsText file i ∧ ∀ j < i, ¬IsText file j

def WellFormed : Prop :=
  HasNames file ∧ ∃ i, FirstText file i ∧
    InFile file (sectionOf file i).shOffset.toNat (sectionOf file i).shSize.toNat

instance (offset size : Nat) : Decidable (InFile file offset size) :=
  inferInstanceAs (Decidable (offset + size ≤ file.length))

instance : Decidable (IsElf64 file) := inferInstanceAs (Decidable (_ ∧ _ ∧ _ ∧ _ ∧ _))

instance : Decidable (HasSections file) := inferInstanceAs (Decidable (_ ∧ _))

instance : Decidable (HasNames file) := inferInstanceAs (Decidable (_ ∧ _ ∧ _ ∧ _))

instance (i : Nat) : Decidable (IsText file i) :=
  inferInstanceAs (Decidable (str ".text" ++ [0] <+: nameOf file i))

/-- The sums of an offset and a size that the reader forms. -/
inductive FormsSum : Word → Word → Prop
  | sections (ehdr : Elf64Ehdr) (hehdr : readElfHeader malloc file = .ok ehdr) :
      FormsSum ehdr.eShoff (sectionTableSize ehdr)
  | names (ehdr : Elf64Ehdr) (sections : List Byte) (shstr : Elf64Shdr)
      (hehdr : readElfHeader malloc file = .ok ehdr)
      (hsections : readSectionTable malloc file ehdr = .ok sections)
      (hindex : ehdr.eShstrndx < ehdr.eShnum)
      (hshstr : sectionAt sections ehdr.eShstrndx.toNat = .ok shstr) :
      FormsSum shstr.shOffset shstr.shSize
  | text (ehdr : Elf64Ehdr) (sections shstrtab : List Byte) (shstr sh : Elf64Shdr) (i : Nat)
      (hehdr : readElfHeader malloc file = .ok ehdr)
      (hsections : readSectionTable malloc file ehdr = .ok sections)
      (hnames : readSectionNames malloc file ehdr sections = .ok (shstr, shstrtab))
      (hi : i < ehdr.eShnum.toNat)
      (hbefore : ∀ j < i, (sectionAt sections j >>= isTextSection shstr shstrtab) = .ok false)
      (hsh : sectionAt sections i = .ok sh)
      (htext : isTextSection shstr shstrtab sh = .ok true) :
      FormsSum sh.shOffset sh.shSize

/-- No read leaves the buffers, no sum wraps, and no malformed file is accepted. -/
structure ReadsSafely : Prop where
  inside : asmDisassembleFile malloc file ≠ .fault
  sums : ∀ offset size, FormsSum malloc file offset size → offset.toNat + size.toNat < 2 ^ 64
  rejects : ¬WellFormed file → asmDisassembleFile malloc file = .error

/-- The three tables are each reached with a sum below `2 ^ 64`, and no name in front of the
first `.text` is a part of this word that the name table ends in. -/
structure TablesFit : Prop where
  sections : IsElf64 file → malloc file.length →
    (ehdrOf file).eShoff.toNat + 64 * (ehdrOf file).eShnum.toNat < 2 ^ 64
  names : HasSections file → malloc file.length → malloc (64 * (ehdrOf file).eShnum.toNat) →
    (ehdrOf file).eShstrndx.toNat < (ehdrOf file).eShnum.toNat →
      (namesOf file).shOffset.toNat + (namesOf file).shSize.toNat < 2 ^ 64
  ends : HasNames file → malloc file.length → malloc (64 * (ehdrOf file).eShnum.toNat) →
    malloc (namesOf file).shSize.toNat → ∀ i < (ehdrOf file).eShnum.toNat,
      (∀ j < i, ¬IsText file j) → nameOf file i <+: str ".text" → nameOf file i = []
  text : HasNames file → malloc file.length → malloc (64 * (ehdrOf file).eShnum.toNat) →
    malloc (namesOf file).shSize.toNat → ∀ i, FirstText file i →
      (sectionOf file i).shOffset.toNat + (sectionOf file i).shSize.toNat < 2 ^ 64

end

section

variable {malloc : Nat → Bool} {file : List Byte}

theorem le_fileSize_iff (hlen : file.length < 2 ^ 63) {a b : Word} (h : a.toNat + b.toNat < 2 ^ 64) :
    a + b ≤ fileSize file ↔ InFile file a.toNat b.toNat := by
  rw [BitVec.le_def, fileSize, BitVec.toNat_add, BitVec.toNat_ofNat, Nat.mod_eq_of_lt h,
    Nat.mod_eq_of_lt (by omega), InFile]

theorem sectionTableSize_toNat {ehdr : Elf64Ehdr} (h : ehdr.eShentsize.toNat = 64) :
    (sectionTableSize ehdr).toNat = 64 * ehdr.eShnum.toNat := by
  have hlt := ehdr.eShnum.isLt
  rw [sectionTableSize, BitVec.toNat_mul, BitVec.toNat_setWidth, BitVec.toNat_setWidth, h,
    Nat.mod_eq_of_lt (by omega), Nat.mod_eq_of_lt (by omega : ehdr.eShnum.toNat < 2 ^ 64)]

theorem readElfHeader_eq_ok {ehdr : Elf64Ehdr} :
    readElfHeader malloc file = .ok ehdr ↔
      ehdr = ehdrOf file ∧ IsElf64 file ∧ malloc file.length = true := by
  rw [readElfHeader, Elf64Ehdr.codec_size, Elf64Shdr.codec_size]
  constructor
  · intro h
    obtain ⟨hlen, h⟩ := guardThat_bind_eq_ok.mp h
    obtain ⟨hsize, h⟩ := guardThat_bind_eq_ok.mp h
    obtain ⟨hmalloc, h⟩ := guardThat_bind_eq_ok.mp h
    have hsize := of_decide_eq_true hsize
    rw [copy_of_le (by rwa [Nat.zero_add]), ok_bind] at h
    obtain ⟨hident, h⟩ := guardThat_bind_eq_ok.mp h
    obtain ⟨hsections, h⟩ := guardThat_bind_eq_ok.mp h
    rw [Bool.and_eq_true, decide_eq_true_iff, decide_eq_true_iff] at hsections
    refine ⟨(CheckedRead.ok.inj h).symm, ⟨of_decide_eq_true hlen, hsize, ?_, hsections⟩, hmalloc⟩
    exact of_decide_eq_true hident
  · rintro ⟨rfl, ⟨hlen, hsize, hident, hentry, hnum⟩, hmalloc⟩
    rw [guardThat_bind_of (decide_eq_true hlen), guardThat_bind_of (decide_eq_true hsize),
      guardThat_bind_of hmalloc, copy_of_le (by rwa [Nat.zero_add]), ok_bind]
    have hfields : (decide ((ehdrOf file).eShentsize.toNat = 64) &&
        decide ((ehdrOf file).eShnum ≠ 0)) = true := by
      rw [decide_eq_true hentry, decide_eq_true hnum]
      rfl
    exact (guardThat_bind_of (decide_eq_true hident)).trans (guardThat_bind_of hfields)

theorem readElfHeader_eq_error (h : ¬(IsElf64 file ∧ malloc file.length = true)) :
    readElfHeader malloc file = .error := by
  by_contra hrun
  rw [readElfHeader, Elf64Ehdr.codec_size, Elf64Shdr.codec_size] at hrun
  obtain ⟨hlen, hrun⟩ := guardThat_bind_ne_error.mp hrun
  obtain ⟨hsize, hrun⟩ := guardThat_bind_ne_error.mp hrun
  obtain ⟨hmalloc, hrun⟩ := guardThat_bind_ne_error.mp hrun
  have hsize := of_decide_eq_true hsize
  rw [copy_of_le (by rwa [Nat.zero_add]), ok_bind] at hrun
  obtain ⟨hident, hrun⟩ := guardThat_bind_ne_error.mp hrun
  obtain ⟨hsections, -⟩ := guardThat_bind_ne_error.mp hrun
  rw [Bool.and_eq_true, decide_eq_true_iff, decide_eq_true_iff] at hsections
  exact h ⟨⟨of_decide_eq_true hlen, hsize, of_decide_eq_true hident, hsections⟩, hmalloc⟩

theorem readSectionTable_eq (helf : IsElf64 file)
    (hfits : (ehdrOf file).eShoff.toNat + 64 * (ehdrOf file).eShnum.toNat < 2 ^ 64) :
    readSectionTable malloc file (ehdrOf file) =
      if HasSections file ∧ malloc (64 * (ehdrOf file).eShnum.toNat) = true then
        .ok (sectionTableOf file)
      else .error := by
  have hsize := sectionTableSize_toNat helf.2.2.2.1
  have hcheck : (ehdrOf file).eShoff + sectionTableSize (ehdrOf file) ≤ fileSize file ↔
      HasSections file := by
    rw [le_fileSize_iff helf.1 (by rwa [hsize]), hsize, HasSections, and_iff_right helf]
  rw [readSectionTable, hsize]
  by_cases hin : HasSections file
  · rw [guardThat_bind_of (decide_eq_true (hcheck.mpr hin))]
    by_cases hmalloc : malloc (64 * (ehdrOf file).eShnum.toNat) = true
    · rw [guardThat_bind_of hmalloc, copy_of_le hin.2, if_pos ⟨hin, hmalloc⟩]
      rfl
    · rw [guardThat, if_neg hmalloc, error_bind, if_neg fun h => hmalloc h.2]
  · rw [guardThat, if_neg (by simpa [hcheck] using hin), error_bind, if_neg fun h => hin h.1]

theorem sectionTableOf_length (h : HasSections file) :
    (sectionTableOf file).length = 64 * (ehdrOf file).eShnum.toNat := slice_length h.2

theorem sectionAt_eq (h : HasSections file) {i : Nat} (hi : i < (ehdrOf file).eShnum.toNat) :
    sectionAt (sectionTableOf file) i = .ok (sectionOf file i) := by
  have hlen := sectionTableOf_length h
  rw [sectionAt, Elf64Shdr.codec_size, copy_of_le (by rw [hlen]; omega), ok_bind, sectionOf,
    Codec.readAt, Elf64Shdr.codec_size]
  rfl

theorem readSectionNames_eq (h : HasSections file)
    (hindex : (ehdrOf file).eShstrndx.toNat < (ehdrOf file).eShnum.toNat)
    (hfits : (namesOf file).shOffset.toNat + (namesOf file).shSize.toNat < 2 ^ 64) :
    readSectionNames malloc file (ehdrOf file) (sectionTableOf file) =
      if HasNames file ∧ malloc (namesOf file).shSize.toNat = true then
        .ok (namesOf file, nameTableOf file)
      else .error := by
  have hcheck : (decide ((namesOf file).shOffset + (namesOf file).shSize ≤ fileSize file) &&
      decide ((namesOf file).shSize ≠ 0)) = true ↔ HasNames file := by
    rw [Bool.and_eq_true, decide_eq_true_iff, decide_eq_true_iff, le_fileSize_iff h.1.1 hfits,
      HasNames, and_iff_right h, and_iff_right hindex]
  have hshstr : sectionAt (sectionTableOf file) (ehdrOf file).eShstrndx.toNat =
      .ok (namesOf file) := sectionAt_eq h hindex
  rw [readSectionNames, guardThat_bind_of (decide_eq_true (BitVec.lt_def.mpr hindex)), hshstr,
    ok_bind]
  by_cases hin : HasNames file
  · rw [guardThat_bind_of (hcheck.mpr hin)]
    by_cases hmalloc : malloc (namesOf file).shSize.toNat = true
    · rw [guardThat_bind_of hmalloc, copy_of_le hin.2.2.1, ok_bind, if_pos ⟨hin, hmalloc⟩]
      rfl
    · rw [guardThat, if_neg hmalloc, error_bind, if_neg fun h => hmalloc h.2]
  · rw [guardThat, if_neg fun hc => hin (hcheck.mp hc), error_bind, if_neg fun h => hin h.1]

theorem nameTableOf_length (h : HasNames file) :
    (nameTableOf file).length = (namesOf file).shSize.toNat := slice_length h.2.2.1

theorem nameOf_eq_nil_iff (h : HasNames file) (i : Nat) :
    nameOf file i = [] ↔ (namesOf file).shSize ≤ (sectionOf file i).shName.setWidth 64 := by
  have hlt := (sectionOf file i).shName.isLt
  rw [nameOf, List.drop_eq_nil_iff, nameTableOf_length h, BitVec.le_def, BitVec.toNat_setWidth,
    Nat.mod_eq_of_lt (by omega)]

theorem not_isText_of_nil {i : Nat} (h : nameOf file i = []) : ¬IsText file i := by
  rw [IsText, h, List.prefix_nil]
  exact fun hf => nomatch hf

theorem isTextSection_eq (h : HasNames file) {i : Nat}
    (hends : nameOf file i <+: str ".text" → nameOf file i = []) :
    isTextSection (namesOf file) (nameTableOf file) (sectionOf file i) =
      .ok (decide (IsText file i)) := by
  rw [isTextSection]
  by_cases hnil : nameOf file i = []
  · rw [if_pos ((nameOf_eq_nil_iff h i).mp hnil), pure_eq_ok,
      decide_eq_false (not_isText_of_nil hnil)]
  · rw [if_neg fun hle => hnil ((nameOf_eq_nil_iff h i).mpr hle),
      strEq_eq fun hp => hnil (hends hp)]
    rfl

theorem isTextSection_unfinished (h : HasNames file) {i : Nat}
    (hp : nameOf file i <+: str ".text") (hnil : nameOf file i ≠ []) :
    isTextSection (namesOf file) (nameTableOf file) (sectionOf file i) = .fault := by
  rw [isTextSection, if_neg fun hle => hnil ((nameOf_eq_nil_iff h i).mpr hle)]
  exact strEq_unfinished hp

theorem findText_eq (h : HasNames file)
    (hends : ∀ i < (ehdrOf file).eShnum.toNat, (∀ j < i, ¬IsText file j) →
      nameOf file i <+: str ".text" → nameOf file i = [])
    (hfits : ∀ i, FirstText file i →
      (sectionOf file i).shOffset.toNat + (sectionOf file i).shSize.toNat < 2 ^ 64)
    {n i : Nat} (hn : n + i = (ehdrOf file).eShnum.toNat) (hbefore : ∀ j < i, ¬IsText file j) :
    findText file (sectionTableOf file) (namesOf file) (nameTableOf file) n i = .ok none ∨
      ∃ k, FirstText file k ∧
        findText file (sectionTableOf file) (namesOf file) (nameTableOf file) n i =
          if InFile file (sectionOf file k).shOffset.toNat (sectionOf file k).shSize.toNat then
            .ok (some (sectionOf file k))
          else .error := by
  induction n generalizing i with
  | zero => exact Or.inl rfl
  | succ n ih =>
      have hi : i < (ehdrOf file).eShnum.toNat := by omega
      rw [findText, sectionAt_eq h.1 hi, ok_bind, isTextSection_eq h (hends i hi hbefore), ok_bind]
      by_cases htext : IsText file i
      · right
        refine ⟨i, ⟨hi, htext, hbefore⟩, ?_⟩
        rw [if_pos (decide_eq_true htext)]
        have hcheck := le_fileSize_iff h.1.1.1 (hfits i ⟨hi, htext, hbefore⟩)
        by_cases hin :
            InFile file (sectionOf file i).shOffset.toNat (sectionOf file i).shSize.toNat
        · rw [guardThat_bind_of (decide_eq_true (hcheck.mpr hin)), if_pos hin]
          rfl
        · rw [guardThat, if_neg (by simpa [hcheck] using hin), if_neg hin]
          rfl
      · rw [if_neg (by simpa using htext)]
        apply ih (by omega)
        intro j hj
        rcases Nat.lt_succ_iff_lt_or_eq.mp hj with hlt | rfl
        · exact hbefore j hlt
        · exact htext

theorem findText_ends (h : HasNames file) {n i : Nat} (hn : n + i = (ehdrOf file).eShnum.toNat)
    (hinside : findText file (sectionTableOf file) (namesOf file) (nameTableOf file) n i ≠ .fault)
    {k : Nat} (hik : i ≤ k) (hk : k < (ehdrOf file).eShnum.toNat)
    (hbefore : ∀ j < k, ¬IsText file j) (hp : nameOf file k <+: str ".text") :
    nameOf file k = [] := by
  induction n generalizing i with
  | zero => omega
  | succ n ih =>
      have hi : i < (ehdrOf file).eShnum.toNat := by omega
      rw [findText, sectionAt_eq h.1 hi, ok_bind] at hinside
      rcases Nat.eq_or_lt_of_le hik with rfl | hlt
      · by_contra hnil
        rw [isTextSection_unfinished h hp hnil] at hinside
        exact hinside rfl
      · by_cases hends : nameOf file i <+: str ".text" → nameOf file i = []
        · rw [isTextSection_eq h hends, ok_bind, if_neg (by simpa using hbefore i hlt)] at hinside
          exact ih (by omega) hinside hlt
        · obtain ⟨hp, hnil⟩ := Classical.not_imp.mp hends
          rw [isTextSection_unfinished h hp hnil] at hinside
          exact absurd rfl hinside

theorem disassembleLoop_ne_fault (code : List Byte) (base : Word) (rounds offset : Nat) :
    disassembleLoop code base rounds offset ≠ .fault := by
  induction rounds generalizing offset with
  | zero =>
      intro h
      cases h
  | succ rounds ih =>
      rw [disassembleLoop]
      by_cases hlt : offset < code.length
      · have hpure : ∀ line : DisLine, ∀ next,
            (disassembleLoop code base rounds next >>= fun p =>
              (pure (p.1, line :: p.2) : CheckedRead _)) ≠ .fault := by
          intro line next h
          rcases bind_eq_fault.mp h with h | ⟨p, -, h⟩
          · exact ih next h
          · cases h
        have hdata : ∀ next, (dataLine code base offset >>= fun line =>
            disassembleLoop code base rounds next >>= fun p =>
              (pure (p.1, line :: p.2) : CheckedRead _)) ≠ .fault := by
          intro next
          rw [dataLine, fetch_of_lt hlt]
          exact hpure _ next
        rw [if_pos hlt]
        cases hd : decodeOne code base offset with
        | fault => exact absurd hd (decodeOne_ne_fault code base offset)
        | overrun =>
            intro h
            cases h
        | error => exact hdata _
        | ok inst =>
            dsimp only
            split
            · exact hdata _
            · split
              · intro h
                cases h
              · exact hpure _ _
      · rw [if_neg hlt]
        intro h
        cases h

theorem disassembleCodeBuffer_ne_fault (code : List Byte) (base : Word) :
    disassembleCodeBuffer code base ≠ .fault := disassembleLoop_ne_fault code base code.length 0

theorem selectText_cases (hfit : TablesFit malloc file) :
    selectText malloc file = .error ∨
      ∃ k, HasNames file ∧ FirstText file k ∧
        InFile file (sectionOf file k).shOffset.toNat (sectionOf file k).shSize.toNat ∧
          selectText malloc file = .ok (sectionOf file k) := by
  by_cases hehdr : IsElf64 file ∧ malloc file.length = true
  · rw [selectText, readElfHeader_eq_ok.mpr ⟨rfl, hehdr⟩, ok_bind,
      readSectionTable_eq hehdr.1 (hfit.sections hehdr.1 hehdr.2)]
    by_cases hsections : HasSections file ∧ malloc (64 * (ehdrOf file).eShnum.toNat) = true
    · rw [if_pos hsections, ok_bind]
      by_cases hindex : (ehdrOf file).eShstrndx.toNat < (ehdrOf file).eShnum.toNat
      · rw [readSectionNames_eq hsections.1 hindex
          (hfit.names hsections.1 hehdr.2 hsections.2 hindex)]
        by_cases hnames : HasNames file ∧ malloc (namesOf file).shSize.toNat = true
        · rw [if_pos hnames, ok_bind]
          dsimp only
          rcases findText_eq hnames.1 (hfit.ends hnames.1 hehdr.2 hsections.2 hnames.2)
            (hfit.text hnames.1 hehdr.2 hsections.2 hnames.2) (Nat.add_zero _)
            (fun j hj => absurd hj (Nat.not_lt_zero j)) with hnone | ⟨k, hk, hsome⟩
          · left
            rw [hnone]
            rfl
          · rw [hsome]
            split
            · exact Or.inr ⟨k, hnames.1, hk, ‹_›, rfl⟩
            · exact Or.inl rfl
        · rw [if_neg hnames]
          exact Or.inl rfl
      · left
        rw [readSectionNames, guardThat, if_neg (by simpa [BitVec.lt_def] using hindex)]
        rfl
    · rw [if_neg hsections]
      exact Or.inl rfl
  · left
    rw [selectText, readElfHeader_eq_error hehdr]
    rfl

theorem FormsSum.fits (hfit : TablesFit malloc file) {offset size : Word}
    (h : FormsSum malloc file offset size) : offset.toNat + size.toNat < 2 ^ 64 := by
  cases h with
  | sections ehdr hehdr =>
      obtain ⟨rfl, helf, hmalloc⟩ := readElfHeader_eq_ok.mp hehdr
      rw [sectionTableSize_toNat helf.2.2.2.1]
      exact hfit.sections helf hmalloc
  | names ehdr sections shstr hehdr hsections hindex hshstr =>
      obtain ⟨rfl, helf, hmalloc⟩ := readElfHeader_eq_ok.mp hehdr
      rw [readSectionTable_eq helf (hfit.sections helf hmalloc)] at hsections
      split at hsections
      · next hin =>
          cases hsections
          have hindex := BitVec.lt_def.mp hindex
          rw [sectionAt_eq hin.1 hindex] at hshstr
          cases hshstr
          exact hfit.names hin.1 hmalloc hin.2 hindex
      · cases hsections
  | text ehdr sections shstrtab shstr sh i hehdr hsections hnames hi hbefore hsh htext =>
      obtain ⟨rfl, helf, hmalloc⟩ := readElfHeader_eq_ok.mp hehdr
      rw [readSectionTable_eq helf (hfit.sections helf hmalloc)] at hsections
      split at hsections
      · next hin =>
          cases hsections
          have hindex : (ehdrOf file).eShstrndx.toNat < (ehdrOf file).eShnum.toNat := by
            by_contra hindex
            rw [readSectionNames, guardThat, if_neg (by simpa [BitVec.lt_def] using hindex)]
              at hnames
            cases hnames
          rw [readSectionNames_eq hin.1 hindex (hfit.names hin.1 hmalloc hin.2 hindex)] at hnames
          split at hnames
          · next hn =>
              cases hnames
              rw [sectionAt_eq hin.1 hi] at hsh
              cases hsh
              have hends := hfit.ends hn.1 hmalloc hin.2 hn.2
              have hnone : ∀ j, j < i → ¬IsText file j := by
                intro j
                induction j using Nat.strongRecOn with
                | ind j ih =>
                    intro hj
                    have hsame := hbefore j hj
                    rw [sectionAt_eq hin.1 (hj.trans hi), ok_bind, isTextSection_eq hn.1
                      (hends j (hj.trans hi) fun l hl => ih l hl (hl.trans hj))] at hsame
                    exact of_decide_eq_false (CheckedRead.ok.inj hsame)
              rw [isTextSection_eq hn.1 (hends i hi hnone)] at htext
              exact hfit.text hn.1 hmalloc hin.2 hn.2 i
                ⟨hi, of_decide_eq_true (CheckedRead.ok.inj htext), hnone⟩
          · cases hnames
      · cases hsections

theorem readsSafely_of (hfit : TablesFit malloc file) : ReadsSafely malloc file := by
  rcases selectText_cases hfit with herror | ⟨k, hnames, hk, hin, htext⟩
  · have hrun : asmDisassembleFile malloc file = .error := by
      rw [asmDisassembleFile, herror, error_bind]
    refine ⟨?_, fun offset size h => h.fits hfit, fun _ => hrun⟩
    rw [hrun]
    exact fun h => nomatch h
  · refine ⟨?_, fun offset size h => h.fits hfit, fun hbad => absurd ⟨hnames, k, hk, hin⟩ hbad⟩
    rw [asmDisassembleFile, htext, ok_bind, copy_of_le hin, ok_bind]
    intro h
    rcases bind_eq_fault.mp h with h | ⟨p, -, h⟩
    · exact disassembleCodeBuffer_ne_fault _ _ h
    · obtain ⟨-, h⟩ := guardThat_bind_eq_fault.mp h
      cases h

theorem tablesFit_of (h : ReadsSafely malloc file) : TablesFit malloc file := by
  have hsections : IsElf64 file → malloc file.length = true →
      (ehdrOf file).eShoff.toNat + 64 * (ehdrOf file).eShnum.toNat < 2 ^ 64 := by
    intro helf hmalloc
    rw [← sectionTableSize_toNat helf.2.2.2.1]
    exact h.sums _ _ (.sections _ (readElfHeader_eq_ok.mpr ⟨rfl, helf, hmalloc⟩))
  have htable : HasSections file → malloc file.length = true →
      malloc (64 * (ehdrOf file).eShnum.toNat) = true →
        readElfHeader malloc file = .ok (ehdrOf file) ∧
          readSectionTable malloc file (ehdrOf file) = .ok (sectionTableOf file) := by
    intro hin hmalloc htmalloc
    refine ⟨readElfHeader_eq_ok.mpr ⟨rfl, hin.1, hmalloc⟩, ?_⟩
    rw [readSectionTable_eq hin.1 (hsections hin.1 hmalloc), if_pos ⟨hin, htmalloc⟩]
  have hnames : HasSections file → malloc file.length = true →
      malloc (64 * (ehdrOf file).eShnum.toNat) = true →
        (ehdrOf file).eShstrndx.toNat < (ehdrOf file).eShnum.toNat →
          (namesOf file).shOffset.toNat + (namesOf file).shSize.toNat < 2 ^ 64 := by
    intro hin hmalloc htmalloc hindex
    obtain ⟨hehdr, hread⟩ := htable hin hmalloc htmalloc
    exact h.sums _ _ (.names _ _ _ hehdr hread hindex (sectionAt_eq hin hindex))
  have hends : HasNames file → malloc file.length = true →
      malloc (64 * (ehdrOf file).eShnum.toNat) = true → malloc (namesOf file).shSize.toNat = true →
        ∀ i < (ehdrOf file).eShnum.toNat, (∀ j < i, ¬IsText file j) →
          nameOf file i <+: str ".text" → nameOf file i = [] := by
    intro hn hmalloc htmalloc hnmalloc i hi hbefore hp
    obtain ⟨hehdr, hread⟩ := htable hn.1 hmalloc htmalloc
    refine findText_ends hn (Nat.add_zero _) (fun hfault => h.inside ?_) (Nat.zero_le i) hi hbefore hp
    rw [asmDisassembleFile, selectText, hehdr, ok_bind, hread, ok_bind, readSectionNames_eq hn.1
      hn.2.1 (hnames hn.1 hmalloc htmalloc hn.2.1), if_pos ⟨hn, hnmalloc⟩, ok_bind]
    dsimp only
    rw [hfault]
    rfl
  refine ⟨hsections, hnames, hends, ?_⟩
  intro hn hmalloc htmalloc hnmalloc i hi
  obtain ⟨hehdr, hread⟩ := htable hn.1 hmalloc htmalloc
  have hends := hends hn hmalloc htmalloc hnmalloc
  have hnread : readSectionNames malloc file (ehdrOf file) (sectionTableOf file) =
      .ok (namesOf file, nameTableOf file) := by
    rw [readSectionNames_eq hn.1 hn.2.1 (hnames hn.1 hmalloc htmalloc hn.2.1),
      if_pos ⟨hn, hnmalloc⟩]
  refine h.sums _ _ (.text _ _ _ _ _ i hehdr hread hnread hi.1 ?_ (sectionAt_eq hn.1 hi.1) ?_)
  · intro j hj
    rw [sectionAt_eq hn.1 (hj.trans hi.1), ok_bind, isTextSection_eq hn
      (hends j (hj.trans hi.1) fun l hl => hi.2.2 l (hl.trans hj)),
      decide_eq_false (hi.2.2 j hj)]
  · rw [isTextSection_eq hn (hends i hi.1 hi.2.2), decide_eq_true hi.2.1]

/-- A file is read safely exactly when its tables fit. -/
theorem readsSafely_iff (malloc : Nat → Bool) (file : List Byte) :
    ReadsSafely malloc file ↔ TablesFit malloc file := ⟨tablesFit_of, readsSafely_of⟩

end

def headerAlone (shoff : Word) : List Byte :=
  elfIdent ++ List.replicate 34 0 ++ leBytes 8 shoff ++ List.replicate 10 0 ++
    [64, 0, 1, 0, 0, 0]

/-- A section table 64 bytes in front of the file passes the check of its end and is copied. -/
theorem asmDisassembleFile_wraps :
    asmDisassembleFile (fun _ => true) (headerAlone 0xFFFFFFFFFFFFFFC0) = .fault ∧
      ¬ReadsSafely (fun _ => true) (headerAlone 0xFFFFFFFFFFFFFFC0) := by
  have hfault : asmDisassembleFile (fun _ => true) (headerAlone 0xFFFFFFFFFFFFFFC0) = .fault := by
    decide +kernel
  exact ⟨hfault, fun h => h.inside hfault⟩

end X86Assembler
