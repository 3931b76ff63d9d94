import X86Assembler.AlignedLayout
import X86Assembler.SymbolOrigins

namespace X86Assembler

open CString (Byte)
open LittleEndian (slice)

/-- A common directive with its name, its size and its alignment. -/
structure IsCommon (inst : ParsedInstruction) (name : Label) (size alignment : Word) : Prop where
  kind : directiveKind inst.type = some .comm
  operands : ∃ rest, inst.operands = .label name :: .imm size :: rest ∧
    commAlignment rest = alignment

def IsPower (alignment : Word) : Prop := ∃ k < 63, alignment.toNat = 2 ^ k

/-- The bytes in front of a common symbol at an address, before they are cast to `int`. -/
def commonGap (address alignment : Word) : Nat := (commAddress address alignment - address).toNat

theorem commAddress_eq (address alignment : Word) :
    commAddress address alignment = address + BitVec.ofNat 64 (commonGap address alignment) := by
  rw [commonGap, BitVec.ofNat_toNat, BitVec.setWidth_eq, BitVec.add_comm, BitVec.sub_add_cancel]

theorem commPadding_eq (address alignment : Word) : commPadding address alignment =
    if commonGap address alignment % 2 ^ 32 < 2 ^ 31 then commonGap address alignment % 2 ^ 32
    else 0 := by
  have hcast : ∀ d : Word, ((d.setWidth 32 : BitVec 32).toInt.toNat) =
      if d.toNat % 2 ^ 32 < 2 ^ 31 then d.toNat % 2 ^ 32 else 0 := by
    intro d
    have hlow : (d.setWidth 32 : BitVec 32).toNat = d.toNat % 2 ^ 32 := BitVec.toNat_setWidth 32 d
    rw [BitVec.toInt_eq_toNat_cond, hlow]
    split <;> split <;> omega
  rw [commPadding, commonGap, commAddress]
  split
  · exact hcast _
  · rw [BitVec.sub_self]
    rfl

theorem commPadding_le (address alignment : Word) :
    commPadding address alignment ≤ commonGap address alignment := by
  rw [commPadding_eq]
  split
  · exact Nat.mod_le _ _
  · exact Nat.zero_le _

theorem commPadding_eq_gap_iff (address alignment : Word) :
    commPadding address alignment = commonGap address alignment ↔
      commonGap address alignment < 2 ^ 31 := by
  rw [commPadding_eq]
  split <;> omega

section Power

variable {alignment : Word} (hpower : IsPower alignment) (address : Word)

include hpower

theorem IsPower.commAddress : commAddress address alignment = alignUp address alignment := by
  obtain ⟨k, hk, hn⟩ := hpower
  have hpos : 0 < 2 ^ k := Nat.two_pow_pos k
  have hlt : 2 ^ k ≤ 2 ^ 62 := Nat.pow_le_pow_right (by decide) (by omega)
  rw [X86Assembler.commAddress]
  split
  · rfl
  · rename_i hone
    rw [BitVec.toInt_eq_toNat_of_lt (by omega)] at hone
    have hval : (1 : Word).toNat = 1 := rfl
    have heq : alignment = 1 := BitVec.eq_of_toNat_eq (by omega)
    rw [heq, alignUp, BitVec.add_sub_cancel, BitVec.sub_self, BitVec.not_zero, BitVec.and_allOnes]

theorem dvd_commAddress : alignment.toNat ∣ (commAddress address alignment).toNat := by
  rw [hpower.commAddress]
  obtain ⟨k, -, hn⟩ := hpower
  exact Alignment.dvd_roundUp address hn

theorem eq_commonGap {j : Nat} (hj : j ≤ commPadding address alignment)
    (hdvd : alignment.toNat ∣ (address + BitVec.ofNat 64 j).toNat) :
    j = commonGap address alignment := by
  have hle := Nat.le_trans hj (commPadding_le address alignment)
  rw [commonGap, hpower.commAddress] at hle ⊢
  obtain ⟨k, -, hn⟩ := hpower
  have hlt : (alignUp address alignment - address).toNat < alignment.toNat :=
    Alignment.roundUp_sub_lt address hn
  exact (Alignment.dvd_add_iff address hn (Nat.lt_of_le_of_lt hle hlt)).mp hdvd

end Power

theorem segmentBytes_nonzero (inst : ParsedInstruction) : (0 : Byte) ∉ segmentBytes inst := by
  rw [segmentBytes]
  split <;> decide

/-- The names of the common symbols are distinct from each other and from the labels. -/
structure CommonsApart (insts : List ParsedInstruction) : Prop where
  distinct : (insts.filterMap commonName).Nodup
  unlabelled : ∀ name ∈ insts.filterMap commonName, ∀ inst ∈ insts, inst.label ≠ some name

theorem IsCommon.name {inst : ParsedInstruction} {name : Label} {size alignment : Word}
    (h : IsCommon inst name size alignment) : commonName inst = some name := by
  obtain ⟨rest, hops, -⟩ := h.operands
  rw [commonName, h.kind, hops]
  rfl

def AssemblerContext.image (ctx : AssemblerContext) : List Byte :=
  ctx.textSection ++ ctx.dataSection

namespace AssemblyRun

variable {insts : List ParsedInstruction} {ctx final : AssemblerContext}

/-- The bytes of the image in front of a statement of a section. -/
def imageOffset (run : AssemblyRun insts ctx final) (s : SectionId) (i : Nat) : Nat :=
  match s with
  | .text => run.offsetIn .text i
  | .data => final.textSection.length + run.offsetIn .data i

def commonStart (run : AssemblyRun insts ctx final) (s : SectionId) (i : Nat)
    (inst : ParsedInstruction) : Word :=
  run.placeIn s i + BitVec.ofNat 64 (segmentBytes inst).length

/-- The symbol of a common directive has a multiple of its alignment as address, its zero bytes
are there, and no other statement has bytes among them. -/
structure CommonPlaced (run : AssemblyRun insts ctx final) (s : SectionId) (i : Nat)
    (name : Label) (size alignment : Word) : Prop where
  power : IsPower alignment
  placed : ∃ off, HasAddress final name (final.baseAddress + BitVec.ofNat 64 off) ∧
    alignment.toNat ∣ (final.baseAddress + BitVec.ofNat 64 off).toNat ∧
    slice final.image off size.toNat = List.replicate size.toNat 0 ∧
    run.imageOffset s i ≤ off ∧ off + size.toNat ≤ run.imageOffset s (i + 1) ∧
    ∀ s' j, j < run.program.length → (s', j) ≠ (s, i) →
      off + size.toNat ≤ run.imageOffset s' j ∨ run.imageOffset s' (j + 1) ≤ off

/-- The alignment is a power of two whose padding an `int` holds, the section has room for the
padding and the bytes, and the name is free or has the right address from an earlier text pass. -/
structure CommonSettled (run : AssemblyRun insts ctx final) (s : SectionId) (i : Nat)
    (inst : ParsedInstruction) (name : Label) (size alignment : Word) : Prop where
  power : IsPower alignment
  gap : commonGap (run.commonStart s i inst) alignment < 2 ^ 31
  room : (segmentBytes inst).length + commonGap (run.commonStart s i inst) alignment +
    size.toNat ≤ (run.reachedIn s i).room
  free : ((run.reachedIn s i).view name = none ∧ (run.reachedIn s i).symbols.length < maxSymbols) ∨
    ∃ v, (run.reachedIn s i).view name = some v ∧
      v.address = commAddress (run.commonStart s i inst) alignment

def CommonsPlaced (run : AssemblyRun insts ctx final) : Prop :=
  ∀ s i inst name size alignment, run.EncodesIn s i inst → IsCommon inst name size alignment →
    run.CommonPlaced s i name size alignment

def CommonsSettled (run : AssemblyRun insts ctx final) : Prop :=
  ∀ s i inst name size alignment, run.EncodesIn s i inst → IsCommon inst name size alignment →
    run.CommonSettled s i inst name size alignment

variable {run : AssemblyRun insts ctx final} {s : SectionId} {i : Nat} {inst : ParsedInstruction}

theorem placeIn_image (s : SectionId) (i : Nat) :
    run.placeIn s i = final.baseAddress + BitVec.ofNat 64 (run.imageOffset s i) := by
  cases s with
  | text => rfl
  | data =>
      rw [placeIn, sectionStart, imageOffset, BitVec.ofNat_add, BitVec.add_assoc]

theorem imageOffset_address (s : SectionId) (i m n : Nat) :
    final.baseAddress + BitVec.ofNat 64 (run.imageOffset s i + (m + n)) =
      run.placeIn s i + BitVec.ofNat 64 m + BitVec.ofNat 64 n := by
  rw [placeIn_image, BitVec.ofNat_add, BitVec.ofNat_add, BitVec.add_assoc, BitVec.add_assoc]

theorem offsetIn_mono (s : SectionId) {j k : Nat} (hjk : j ≤ k) (hk : k ≤ run.program.length) :
    run.offsetIn s j ≤ run.offsetIn s k := by
  induction hjk with
  | refl => exact Nat.le_refl _
  | @step k hjk ih =>
      rw [offsetIn_succ s hk]
      exact Nat.le_trans (ih (Nat.le_of_succ_le hk)) (Nat.le_add_right _ _)

theorem offsetIn_text_end : run.offsetIn .text run.program.length = final.textSection.length := by
  show run.textOffset run.program.length = _
  rw [textOffset, run.program_length, run.textAt_end, run.final_length]

theorem imageOffset_succ (s : SectionId) (hi : i < run.program.length) :
    run.imageOffset s (i + 1) = run.imageOffset s i + (run.bytesIn s i).length := by
  cases s with
  | text => exact offsetIn_succ .text hi
  | data =>
      rw [imageOffset, imageOffset, offsetIn_succ .data hi, Nat.add_assoc]

theorem imageOffset_apart (hi : i < run.program.length) {s' : SectionId} {j : Nat}
    (hj : j < run.program.length) (hne : (s', j) ≠ (s, i)) :
    run.imageOffset s (i + 1) ≤ run.imageOffset s' j ∨
      run.imageOffset s' (j + 1) ≤ run.imageOffset s i := by
  have htext : ∀ k, k ≤ run.program.length → run.offsetIn .text k ≤ final.textSection.length := by
    intro k hk
    exact @offsetIn_text_end _ _ _ run ▸ offsetIn_mono .text hk (Nat.le_refl _)
  cases s with
  | text =>
      cases s' with
      | text =>
          have hne : j ≠ i := fun heq => hne (by rw [heq])
          rcases Nat.lt_or_gt_of_ne hne with hlt | hlt
          · exact .inr (offsetIn_mono .text hlt (Nat.le_of_lt hi))
          · exact .inl (offsetIn_mono .text hlt (Nat.le_of_lt hj))
      | data => exact .inl (Nat.le_trans (htext _ hi) (Nat.le_add_right _ _))
  | data =>
      cases s' with
      | text => exact .inr (Nat.le_trans (htext _ hj) (Nat.le_add_right _ _))
      | data =>
          have hne : j ≠ i := fun heq => hne (by rw [heq])
          rcases Nat.lt_or_gt_of_ne hne with hlt | hlt
          · exact .inr (Nat.add_le_add_left (offsetIn_mono .data hlt (Nat.le_of_lt hi)) _)
          · exact .inl (Nat.add_le_add_left (offsetIn_mono .data hlt (Nat.le_of_lt hj)) _)

theorem image_slice (hi : i < run.program.length) {d n : Nat}
    (hd : d + n ≤ (run.bytesIn s i).length) :
    slice final.image (run.imageOffset s i + d) n = slice (run.bytesIn s i) d n := by
  have hsucc := offsetIn_succ s hi
  have hmono : run.offsetIn s (i + 1) ≤ run.offsetIn s run.program.length :=
    offsetIn_mono s hi (Nat.le_refl _)
  cases s with
  | text =>
      have hoffset : run.offsetIn .text = run.textOffset := rfl
      have hbytes : run.bytesIn .text i = run.textBytes i := rfl
      rw [offsetIn_text_end] at hmono
      rw [AssemblerContext.image, imageOffset, LittleEndian.slice_append_left (by omega)]
      rw [hoffset, hbytes] at hsucc ⊢
      rw [hbytes] at hd
      rw [textBytes, LittleEndian.slice_slice (by omega)]
  | data =>
      have hoffset : run.offsetIn .data = run.dataOffset := rfl
      have hbytes : run.bytesIn .data i = run.dataBytes i := rfl
      rw [AssemblerContext.image, imageOffset, Nat.add_assoc, LittleEndian.slice_append_right]
      rw [hoffset, hbytes] at hsucc ⊢
      rw [hbytes] at hd
      rw [dataBytes, LittleEndian.slice_slice (by omega)]

section Table

variable (hc : Consistent ctx)

include hc

theorem reached_kept (s : SectionId) (hi : i ≤ run.program.length) {name : Label}
    (hname : ∀ k, ¬ run.Carries k name) {v : SymbolView}
    (hv : (run.reachedIn s i).view name = some v) : final.view name = some v := by
  cases s with
  | text =>
      exact run.view_kept_from hc (run.program_length ▸ hi) hv fun k hk => absurd hk (hname k)
  | data =>
      have hkept := dataAt_view_kept run.dataEmitted (run.attributed_consistent hc) hi
        (Nat.le_refl _) hv fun k b _ _ hb hlb => by
          obtain ⟨b', hb', hrw⟩ := run.program_rewrites.inData_back hb
          exact hname k ⟨b', .inr hb', hrw.label.symm.trans hlb⟩
      rwa [dataAt_length run.dataEmitted, ← run.final_view] at hkept

theorem reached_consistent (s : SectionId) (hi : i ≤ run.program.length) :
    Consistent (run.reachedIn s i) := by
  cases s with
  | text => exact run.textAt_consistent hc (run.program_length ▸ hi)
  | data => exact run.dataAt_consistent hc hi

theorem reached_full (s : SectionId) (hi : i ≤ run.program.length) {name : Label}
    (hnone : (run.reachedIn s i).view name = none)
    (hfull : maxSymbols ≤ (run.reachedIn s i).symbols.length) : final.view name = none := by
  rw [← flags_eq_none] at hnone ⊢
  cases s with
  | text => exact run.text_full hc (run.program_length ▸ hi) hnone hfull
  | data => exact run.data_full hc hi hnone hfull

theorem common_step (h : run.EncodesIn s i inst) {name : Label} {size alignment : Word}
    (hcommon : IsCommon inst name size alignment) (hname : ∀ k, ¬ run.Carries k name) :
    0 < size.toInt ∧ (run.reachedIn s (i + 1)).view name =
      if (run.reachedIn s i).view name = none ∧ (run.reachedIn s i).symbols.length < maxSymbols then
        some ⟨commAddress (run.commonStart s i inst) alignment, some .data, false⟩
      else (run.reachedIn s i).view name := by
  obtain ⟨rest, hops, halign⟩ := hcommon.operands
  have hreached := reached_consistent hc s (Nat.le_of_lt h.lt)
  have haddress := reachedIn_address s (Nat.le_of_lt h.lt)
  have hstep : ∃ a : ParsedInstruction, a.label ≠ some name ∧ ∃ symbol size' rest',
      AddsCommon inst (run.commonStart s i inst) symbol size' rest'
        (placeLabel (run.reachedIn s i) a) (run.reachedIn s (i + 1)) := by
    cases s with
    | text =>
        obtain ⟨a, ha, -, hemit⟩ := run.text_statement h
        obtain ⟨a', ha', hrw⟩ := run.source_rewrites.inText_back ha
        have hadds := emitTextStatement_common hcommon.kind hemit
        rw [(placeLabel_text a (run.textAt i)).2.1] at hadds
        refine ⟨a, fun hl => hname i ⟨a', .inl ha', hrw.label.symm.trans hl⟩, ?_⟩
        rwa [commonStart, ← haddress]
    | data =>
        obtain ⟨b, hb, rfl⟩ := h
        obtain ⟨b', hb', hrw⟩ := run.program_rewrites.inData_back hb
        have hadds := emitDataStatement_common hcommon.kind (dataAt_step run.dataEmitted hb)
        rw [(placeLabel_text b (X86Assembler.dataAt run.program run.attributed i)).2.1] at hadds
        refine ⟨b, fun hl => hname i ⟨b', .inr hb', hrw.label.symm.trans hl⟩, ?_⟩
        rwa [commonStart, ← haddress]
  obtain ⟨a, hlabel, symbol, size', rest', hadds⟩ := hstep
  have hsame := hadds.operands
  rw [hops] at hsame
  cases hsame
  have hview := hadds.view (consistent_placeLabel _ _ hreached) name
  rw [placeLabel_view _ _ hreached, if_neg hlabel, placeLabel_length, halign] at hview
  refine ⟨hadds.size_pos, ?_⟩
  simpa only [true_and] using hview

end Table

section Common

variable (h : run.EncodesIn s i inst) {name : Label} {size alignment : Word}
  (hcommon : IsCommon inst name size alignment)

include h hcommon

/-- The bytes of a common directive: a segment override, the padding, and the zero bytes. -/
theorem common_bytes (hsize : 0 < size.toInt) :
    run.bytesIn s i = (segmentBytes inst ++
      List.replicate (commPadding (run.commonStart s i inst) alignment + size.toNat) 0).take
        (run.reachedIn s i).room := by
  have hm : Encoder.machineEncoder inst.type = none :=
    machineEncoder_directive (hcommon.kind ▸ Option.some_ne_none _)
  obtain ⟨rest, hops, halign⟩ := hcommon.operands
  have hrequest := directiveRequest_eq s (run.reachedIn s i) inst
  rw [hcommon.kind] at hrequest
  have hstart : ((run.reachedIn s i).afterSegment inst).currentAddress =
      run.commonStart s i inst := by
    rw [commonStart, ← reachedIn_address s (Nat.le_of_lt h.lt)]
    rfl
  have hpos : size.toInt.toNat = size.toNat := by
    rw [BitVec.toInt_eq_toNat_cond] at hsize ⊢
    split at hsize
    · rw [if_pos ‹_›, Int.toNat_natCast]
    · omega
  have hbytes : directiveBytes ((run.reachedIn s i).afterSegment inst) inst = some
      (List.replicate (commPadding (run.commonStart s i inst) alignment + size.toNat) 0) := by
    rw [directiveBytes, hcommon.kind, hops]
    show commBytes _ (.label name :: .imm size :: rest) = _
    rw [commBytes, if_neg (Int.not_le.mpr hsize), hstart, halign, hpos,
      List.replicate_append_replicate]
  rw [h.bytes hm, hrequest, encodedRequest, hbytes]
  rfl

variable (hc : Consistent ctx) (hname : ∀ k, ¬ run.Carries k name)

include hc hname

theorem commonPlaced_of_settled (hsettled : run.CommonSettled s i inst name size alignment) :
    run.CommonPlaced s i name size alignment := by
  obtain ⟨hpower, hgap, hroom, hfree⟩ := hsettled
  obtain ⟨hsize, hview⟩ := common_step hc h hcommon hname
  have hpadding := (commPadding_eq_gap_iff (run.commonStart s i inst) alignment).mpr hgap
  have hbytes := common_bytes h hcommon hsize
  rw [hpadding, List.take_of_length_le (by
    rw [List.length_append, List.length_replicate]
    omega)] at hbytes
  have hlength := congrArg List.length hbytes
  rw [List.length_append, List.length_replicate] at hlength
  have hstretch := imageOffset_succ s h.lt
  have haddress := @imageOffset_address _ _ _ run s i (segmentBytes inst).length
    (commonGap (run.commonStart s i inst) alignment)
  rw [← commonStart, ← commAddress_eq] at haddress
  have hkept : ∃ v, (run.reachedIn s (i + 1)).view name = some v ∧
      v.address = commAddress (run.commonStart s i inst) alignment := by
    rw [hview]
    rcases hfree with ⟨hnone, hspace⟩ | ⟨v, hv, hsame⟩
    · exact ⟨_, if_pos ⟨hnone, hspace⟩, rfl⟩
    · refine ⟨v, ?_, hsame⟩
      rw [if_neg (fun hnew => by rw [hv] at hnew; cases hnew.1), hv]
  obtain ⟨v, hv, hsame⟩ := hkept
  refine ⟨hpower, run.imageOffset s i + ((segmentBytes inst).length +
    commonGap (run.commonStart s i inst) alignment), ?_, ?_, ?_, ?_, ?_, ?_⟩
  · have hplaced := (run.consistent hc).hasAddress (reached_kept hc s h.lt hname hv)
    rwa [hsame, ← haddress] at hplaced
  · rw [haddress]
    exact dvd_commAddress hpower _
  · rw [image_slice h.lt (by omega), hbytes, List.replicate_add, ← List.append_assoc]
    refine LittleEndian.slice_of_split (List.append_nil _).symm ?_ ?_
    · rw [List.length_append, List.length_replicate]
    · rw [List.length_replicate]
  · exact Nat.le_add_right _ _
  · omega
  · intro s' j hj hne
    rcases imageOffset_apart h.lt hj hne with hbefore | hafter
    · exact .inl (by omega)
    · exact .inr (by omega)

theorem commonSettled_of_placed (hplaced : run.CommonPlaced s i name size alignment) :
    run.CommonSettled s i inst name size alignment := by
  obtain ⟨hpower, off, hat, hdvd, hzero, hle, hend, -⟩ := hplaced
  obtain ⟨hsize, hview⟩ := common_step hc h hcommon hname
  have hbytes := common_bytes h hcommon hsize
  have hstretch := imageOffset_succ s h.lt
  obtain ⟨d, rfl⟩ := Nat.exists_eq_add_of_le hle
  have hin : d + size.toNat ≤ (run.bytesIn s i).length := by omega
  rw [image_slice h.lt hin] at hzero
  have hpos : 0 < size.toNat := by
    rw [BitVec.toInt_eq_toNat_cond] at hsize
    split at hsize <;> omega
  have hlength := congrArg List.length hbytes
  rw [List.length_take, List.length_append, List.length_replicate] at hlength
  -- The first of the zero bytes is none of the segment override.
  have hfirst : (run.bytesIn s i)[d]? = some 0 := by
    have hget := congrArg (fun bs : List Byte => bs[0]?) hzero
    rw [slice, List.getElem?_take_of_lt hpos, List.getElem?_drop, Nat.add_zero,
      List.getElem?_replicate_of_lt hpos] at hget
    exact hget
  have hseg : (segmentBytes inst).length ≤ d := by
    by_contra hlt
    rw [hbytes, List.getElem?_take_of_lt (by omega),
      List.getElem?_append_left (Nat.not_le.mp hlt)] at hfirst
    exact segmentBytes_nonzero inst (List.mem_of_getElem? hfirst)
  obtain ⟨j, rfl⟩ := Nat.exists_eq_add_of_le hseg
  rw [imageOffset_address s i (segmentBytes inst).length j] at hat hdvd
  have hgap := eq_commonGap hpower (run.commonStart s i inst) (by omega) hdvd
  have hpadding := commPadding_le (run.commonStart s i inst) alignment
  refine ⟨hpower, ?_, by omega, ?_⟩
  · exact (commPadding_eq_gap_iff _ _).mp (by omega)
  · have hfinal := hat.hash
    rw [(run.consistent hc).findSymbolAddress, hgap, ← commonStart, ← commAddress_eq] at hfinal
    obtain ⟨w, hw, hsame⟩ := Option.map_eq_some_iff.mp hfinal
    cases hv : (run.reachedIn s i).view name with
    | none =>
        refine .inl ⟨rfl, Nat.lt_of_not_le fun hfull => ?_⟩
        rw [reached_full hc s (Nat.le_of_lt h.lt) hv hfull] at hw
        cases hw
    | some v =>
        have hkept := reached_kept hc s (Nat.le_of_lt h.lt) hname hv
        rw [hw] at hkept
        cases hkept
        exact .inr ⟨w, rfl, hsame⟩

end Common

theorem EncodesIn.common (h : run.EncodesIn s i inst) {name : Label} {size alignment : Word}
    (hcommon : IsCommon inst name size alignment) : name ∈ run.canon.filterMap commonName := by
  have hname := hcommon.name
  have hsource : ∃ a ∈ run.canon, commonName a = some name := by
    cases s with
    | text =>
        obtain ⟨a, ha, hrw⟩ := run.program_rewrites.inText_back h
        exact ⟨a, List.mem_of_getElem? ha.get, commonName_back hrw.type hrw.operands hname⟩
    | data =>
        obtain ⟨b, hb, rfl⟩ := h
        obtain ⟨a, ha, hrw⟩ := run.program_rewrites.inData_back hb
        have hb' : commonName b = some name :=
          commonName_back (a := b) (b := run.dataStatement i b) rfl
            (operandsRewrite_constant _ b.operands) hname
        exact ⟨a, List.mem_of_getElem? ha.get, commonName_back hrw.type hrw.operands hb'⟩
  obtain ⟨a, hmem, ha⟩ := hsource
  exact List.mem_filterMap.mpr ⟨a, hmem, ha⟩

theorem common_not_carried (hapart : CommonsApart run.canon) {name : Label}
    (hname : name ∈ run.canon.filterMap commonName) (k : Nat) : ¬ run.Carries k name := by
  rintro ⟨other, hother, hl⟩
  exact hapart.unlabelled name hname other
    (List.mem_of_getElem? (hother.elim InText.get InData.get)) hl

theorem commonsPlaced_run (hc : Consistent ctx) (hapart : CommonsApart run.canon) :
    run.CommonsPlaced ↔ run.CommonsSettled := by
  constructor
  · intro hplaced s i inst name size alignment h hcommon
    exact commonSettled_of_placed h hcommon hc (common_not_carried hapart (h.common hcommon))
      (hplaced s i inst name size alignment h hcommon)
  · intro hsettled s i inst name size alignment h hcommon
    exact commonPlaced_of_settled h hcommon hc (common_not_carried hapart (h.common hcommon))
      (hsettled s i inst name size alignment h hcommon)

end AssemblyRun

/-- Common symbols lie at multiples of their alignments, on zero bytes of their own, exactly if
every directive meets its condition when a pass comes to it for the last time. -/
theorem commonsPlaced_iff {insts : List ParsedInstruction} {ctx final : AssemblerContext}
    (hc : Consistent ctx) (hapart : CommonsApart (canonicalProgram insts))
    (h : asmAssemble insts ctx = (some (), final)) :
    Nonempty (AssemblyRun insts ctx final) ∧
      ∀ run : AssemblyRun insts ctx final, run.CommonsPlaced ↔ run.CommonsSettled := by
  refine ⟨assemblyRun_of_success h, fun run => ?_⟩
  apply AssemblyRun.commonsPlaced_run hc
  rw [run.canon_eq]
  exact hapart

/-- A common symbol behind a branch that turns out to be short. -/
def relaxedCommon : List ParsedInstruction :=
  [{ type := .jmp, operands := [.label (CString.lit _ "done")]
     originalLine := CString.lit _ "jmp done" },
   { type := .comm, operands := [.label (CString.lit _ "x"), .imm 4], lineNumber := 2
     originalLine := CString.lit _ ".comm x, 4" },
   { type := .resb, label := some (CString.lit _ "y"), operands := [.imm 116], lineNumber := 3
     originalLine := CString.lit _ "y: resb 116" },
   { type := .bsf, operands := [.reg 0 .size64, .reg 3 .size64], lineNumber := 4
     originalLine := CString.lit _ "bsf rax, rbx" },
   { type := .ret, label := some (CString.lit _ "done"), lineNumber := 5
     originalLine := CString.lit _ "done: ret" }]

theorem relaxedCommon_apart : CommonsApart (canonicalProgram relaxedCommon) :=
  ⟨by decide +kernel, by decide +kernel⟩

theorem commonsPlaced_iff_relaxed :
    Nonempty (AssemblyRun relaxedCommon emptyContext (asmAssemble relaxedCommon emptyContext).2) ∧
      ∀ run : AssemblyRun relaxedCommon emptyContext (asmAssemble relaxedCommon emptyContext).2,
        run.CommonsPlaced ↔ run.CommonsSettled :=
  commonsPlaced_iff (fresh_asmInit _).consistent relaxedCommon_apart
    (asmAssemble_success (by decide +kernel))

/-- The symbol keeps the address from the iteration in which the branch was still near. -/
theorem commonsPlaced_relaxed :
    parseSource 90 (CString.str "jmp done\n.comm x, 4\ny: resb 116\nbsf rax, rbx\ndone: ret") =
        some (some relaxedCommon) ∧
      CommonsApart (canonicalProgram relaxedCommon) ∧
      ∃ final, asmAssemble relaxedCommon emptyContext = (some (), final) ∧
        ∀ run : AssemblyRun relaxedCommon emptyContext final, ¬ run.CommonsPlaced := by
  refine ⟨by decide +kernel, relaxedCommon_apart, _, asmAssemble_success (by decide +kernel), ?_⟩
  intro run hplaced
  have hcomm : run.program[1]? = some
      { type := .comm, operands := [.label (CString.lit _ "x"), .imm 4], lineNumber := 2
        address := 0x400002, originalLine := CString.lit _ ".comm x, 4" } := by
    rw [run.program_eq]
    decide +kernel
  have hsect : sectionBefore run.program 1 = .text ∧ run.program.length = 5 := by
    rw [run.program_eq]
    decide +kernel
  have hnext : run.canon[2]? = some
      { type := .resb, label := some (CString.lit _ "y"), operands := [.imm 116], lineNumber := 3
        originalLine := CString.lit _ "y: resb 116" } ∧ sectionBefore run.canon 2 = .text ∧
      DistinctLabels run.canon := by
    rw [run.canon_eq]
    refine ⟨by decide +kernel, by decide +kernel, ?_⟩
    unfold DistinctLabels
    decide +kernel
  have hend := run.placed_distinct (fresh_asmInit _).consistent hnext.2.2 (by decide +kernel)
    (.inl ⟨hnext.1, by decide, hnext.2.1⟩) rfl
  obtain ⟨-, off, hat, -, -, -, hle, -⟩ := hplaced .text 1 _ _ 4 1 ⟨hcomm, by decide, hsect.1⟩
    ⟨rfl, [], rfl, rfl⟩
  have hx : findSymbolAddress (asmAssemble relaxedCommon emptyContext).2
      (CString.lit _ "x") = some 0x400005 := by
    decide +kernel
  have hy : findSymbolAddress (asmAssemble relaxedCommon emptyContext).2
      (CString.lit _ "y") = some 0x400006 := by
    decide +kernel
  have hbase : (asmAssemble relaxedCommon emptyContext).2.baseAddress = 0x400000 := by
    decide +kernel
  have hlength : (asmAssemble relaxedCommon emptyContext).2.textSection.length = 127 := by
    decide +kernel
  have hbound : run.imageOffset .text 2 ≤ 127 := by
    rw [← hlength, ← @AssemblyRun.offsetIn_text_end _ _ _ run]
    exact AssemblyRun.offsetIn_mono .text (by omega) (Nat.le_refl _)
  rw [hat.hash, hbase, Option.some.injEq] at hx
  rw [hend.hash, AssemblyRun.labelAddress_eq, hnext.2.1, AssemblyRun.placeIn_image, hbase,
    Option.some.injEq] at hy
  have hle : off + 4 ≤ run.imageOffset .text 2 := hle
  bv_omega

end X86Assembler
