import X86Assembler.Contributions
import X86Assembler.Library.Alignment
import X86Assembler.SectionOverflow

namespace X86Assembler

open CString (Byte)
open LittleEndian (slice)

/-- The numbers that `align` takes: the powers of two below `2 ^ 31`. -/
def IsAlignment (n : Word) : Prop := ∃ k < 31, n.toNat = 2 ^ k

section Padding

variable {n : Word} (h : IsAlignment n) (address : Word)

include h

theorem IsAlignment.lt : n.toNat < 2 ^ 31 := by
  obtain ⟨k, hk, hn⟩ := h
  rw [hn]
  exact Nat.pow_lt_pow_right (by decide) hk

theorem IsAlignment.low : (n.setWidth 32 : BitVec 32).toNat = n.toNat := by
  have hlt := h.lt
  rw [BitVec.toNat_setWidth, Nat.mod_eq_of_lt (by omega)]

theorem IsAlignment.signExtend : (n.setWidth 32 : BitVec 32).signExtend 64 = n := by
  have hlt := h.lt
  have hlow := h.low
  apply BitVec.eq_of_toNat_eq
  rw [BitVec.signExtend_eq_setWidth_of_msb_false, BitVec.toNat_setWidth, hlow]
  · exact Nat.mod_eq_of_lt n.isLt
  · rw [BitVec.msb_eq_false_iff_two_mul_lt, hlow]
    omega

theorem IsAlignment.isPowerOfTwo : isPowerOfTwo (n.setWidth 32) = true := by
  have hlt := h.lt
  have hlow := h.low
  obtain ⟨k, hk, hn⟩ := h
  have hpos : 0 < 2 ^ k := Nat.two_pow_pos k
  have hne : (n.setWidth 32 : BitVec 32) ≠ 0 := by
    intro heq
    rw [heq] at hlow
    simp at hlow
    omega
  rw [X86Assembler.isPowerOfTwo, Bool.and_eq_true, beq_iff_eq,
    Alignment.and_sub_one_eq_zero_iff hne, decide_eq_true_eq]
  refine ⟨?_, k, hlow.trans hn⟩
  rw [BitVec.toInt_eq_toNat_of_lt (by omega)]
  omega

theorem alignPadding_eq : alignPadding address n = (alignUp address n - address).toNat := by
  obtain ⟨k, hk, hn⟩ := h
  have hlt : (alignUp address n - address).toNat < n.toNat := Alignment.roundUp_sub_lt address hn
  have hbound : 2 ^ k ≤ 2 ^ 30 := Nat.pow_le_pow_right (by decide) (by omega)
  have hlow : ((alignUp address n - address).setWidth 32 : BitVec 32).toNat =
      (alignUp address n - address).toNat := by
    rw [BitVec.toNat_setWidth, Nat.mod_eq_of_lt (by omega)]
  rw [alignPadding, BitVec.toInt_eq_toNat_of_lt (by omega), Int.toNat_natCast, hlow]

theorem alignPadding_lt : alignPadding address n < n.toNat := by
  rw [alignPadding_eq h]
  obtain ⟨k, hk, hn⟩ := h
  exact Alignment.roundUp_sub_lt address hn

theorem dvd_padded : n.toNat ∣ (address + BitVec.ofNat 64 (alignPadding address n)).toNat := by
  have hlt := alignPadding_lt h address
  have heq := alignPadding_eq h address
  obtain ⟨k, hk, hn⟩ := h
  exact (Alignment.dvd_add_iff address hn hlt).mpr heq

end Padding

/-- Where a section starts; the data lies right behind the text. -/
def sectionStart (final : AssemblerContext) : SectionId → Word
  | .text => final.baseAddress
  | .data => final.baseAddress + BitVec.ofNat 64 final.textSection.length

theorem directiveRequest_align {s : SectionId} {ctx : AssemblerContext} {inst : ParsedInstruction}
    {n : Word} (htype : inst.type = .align) (hop : inst.operands.head? = some (.imm n))
    (hn : IsAlignment n) (hs : ctx.currentSection = s) :
    directiveRequest s ctx inst = segmentBytes inst ++ List.replicate
      (alignPadding (ctx.currentAddress + BitVec.ofNat 64 (segmentBytes inst).length) n)
      (fillByte s) := by
  have hkind : directiveKind inst.type = some .align := by rw [htype]; rfl
  have heq := directiveRequest_eq s ctx inst
  rw [hkind] at heq
  have hbytes : directiveBytes (ctx.afterSegment inst) inst = some (List.replicate
      (alignPadding (ctx.currentAddress + BitVec.ofNat 64 (segmentBytes inst).length) n)
      (fillByte s)) := by
    cases hops : inst.operands with
    | nil =>
        rw [hops] at hop
        cases hop
    | cons op rest =>
        rw [hops] at hop
        cases hop
        rw [directiveBytes, hkind, hops]
        show alignBytes (ctx.afterSegment inst) (.imm n :: rest) = _
        rw [alignBytes, if_pos hn.isPowerOfTwo, hn.signExtend, ← hs]
        rfl
  rw [heq, encodedRequest, hbytes]
  rfl

namespace AssemblyRun

variable {insts : List ParsedInstruction} {ctx final : AssemblerContext}
  (run : AssemblyRun insts ctx final)

/-- The context in which the pass for a section reaches a statement. -/
def reachedIn (s : SectionId) (i : Nat) : AssemblerContext :=
  match s with
  | .text => run.textAt i
  | .data => run.dataAt i

def offsetIn (s : SectionId) (i : Nat) : Nat :=
  match s with
  | .text => run.textOffset i
  | .data => run.dataOffset i

def placeIn (s : SectionId) (i : Nat) : Word :=
  sectionStart final s + BitVec.ofNat 64 (run.offsetIn s i)

/-- The bytes of a statement in the final buffer of a section. -/
def bytesIn (s : SectionId) (i : Nat) : List Byte :=
  match s with
  | .text => run.textBytes i
  | .data => run.dataBytes i

/-- A statement of a section as the pass for that section encodes it. -/
def EncodesIn (s : SectionId) (i : Nat) (inst : ParsedInstruction) : Prop :=
  match s with
  | .text => InText run.program i inst
  | .data => ∃ b, InData run.program i b ∧ inst = run.dataStatement i b

theorem labelAddress_eq (k : Nat) :
    run.labelAddress k = run.placeIn (sectionBefore run.canon k) k := by
  rw [labelAddress]
  cases sectionBefore run.canon k <;> rfl

variable {run} {s : SectionId} {i : Nat} {inst : ParsedInstruction}

theorem EncodesIn.lt (h : run.EncodesIn s i inst) : i < run.program.length := by
  cases s with
  | text => exact InText.lt h
  | data =>
      obtain ⟨b, hb, -⟩ := h
      exact hb.lt

theorem offsetIn_succ (s : SectionId) (hi : i < run.program.length) :
    run.offsetIn s (i + 1) = run.offsetIn s i + (run.bytesIn s i).length := by
  have hi' : i + 1 ≤ run.source.length := run.program_length ▸ hi
  cases s with
  | text =>
      have hmono := run.textOffset_mono hi
      have hend := run.final_end hi'
      rw [bytesIn, textBytes, LittleEndian.slice_length (by omega)]
      exact (Nat.add_sub_cancel' hmono).symm
  | data =>
      have hmono := run.dataOffset_mono hi
      have hend : run.dataOffset (i + 1) ≤ final.dataSection.length := run.dataOffset_end hi
      rw [bytesIn, dataBytes, LittleEndian.slice_length (by omega)]
      exact (Nat.add_sub_cancel' hmono).symm

theorem placeIn_succ (s : SectionId) (hi : i < run.program.length) :
    run.placeIn s (i + 1) = run.placeIn s i + BitVec.ofNat 64 (run.bytesIn s i).length := by
  rw [placeIn, placeIn, offsetIn_succ s hi, BitVec.ofNat_add, BitVec.add_assoc]

theorem placeIn_silent {j k : Nat} (hjk : j ≤ k) (hk : k ≤ run.program.length)
    (hsilent : ∀ m, j ≤ m → m < k → run.bytesIn s m = []) :
    run.placeIn s k = run.placeIn s j := by
  induction hjk with
  | refl => rfl
  | @step k hjk ih =>
      have hlast := hsilent k hjk (Nat.lt_succ_self k)
      have hbefore := ih (Nat.le_of_succ_le hk) fun m hm hlt => hsilent m hm (Nat.lt_succ_of_lt hlt)
      rw [placeIn_succ s hk, hlast, List.length_nil, BitVec.add_zero, hbefore]

theorem reachedIn_address (s : SectionId) (hi : i ≤ run.program.length) :
    (run.reachedIn s i).currentAddress = run.placeIn s i := by
  cases s with
  | text => exact run.text_address (run.program_length ▸ hi)
  | data =>
      have htext : run.attributed.textSection.length = final.textSection.length := by
        rw [run.final_length, ← run.emitted_text]
        exact congrArg List.length run.emitted_grows.text.symm
      have hbase : run.attributed.baseAddress = final.baseAddress := by
        rw [run.resolves.baseAddress]
        exact (congrArg Settings.baseAddress run.emitted_grows.settings).symm
      have h := dataAt_address run.dataEmitted hi
      rwa [htext, hbase] at h

theorem EncodesIn.sect (h : run.EncodesIn s i inst) : (run.reachedIn s i).currentSection = s := by
  have hlt := h.lt
  cases s with
  | text =>
      obtain ⟨a, ha, -⟩ := (textPass_rewrites run.lastPass run.start).inText_back h
      rw [reachedIn, textAt, textAt_sect run.lastPass run.start (Nat.le_of_lt ha.lt), ha.sect]
  | data =>
      obtain ⟨b, hb, -⟩ := h
      rw [reachedIn, dataAt, dataAt_sect run.dataEmitted (Nat.le_of_lt hlt), hb.sect]

theorem EncodesIn.bytes (h : run.EncodesIn s i inst)
    (hm : Encoder.machineEncoder inst.type = none) :
    run.bytesIn s i =
      (directiveRequest s (run.reachedIn s i) inst).take (run.reachedIn s i).room := by
  cases s with
  | text => exact run.textBytes_directive h hm
  | data =>
      obtain ⟨b, hb, rfl⟩ := h
      exact run.dataBytes_directive hb

theorem EncodesIn.fits (h : run.EncodesIn s i inst) (hlost : run.NothingLost) :
    (directiveRequest s (run.reachedIn s i) inst).length ≤ (run.reachedIn s i).room := by
  have hfit := run.nothingLost_run.mp hlost
  cases s with
  | text => exact hfit.text i inst h
  | data =>
      obtain ⟨b, hb, rfl⟩ := h
      exact hfit.data i b hb

structure Adjoins (run : AssemblyRun insts ctx final) (s : SectionId) (i k : Nat) : Prop where
  lt : i < k
  le : k ≤ run.program.length
  silent : ∀ j, i < j → j < k → run.bytesIn s j = []

/-- An `align` pads with less than its number, and what comes next in its section lies at a
multiple of it; so do the labels there, of those that count. -/
structure AlignmentHolds (run : AssemblyRun insts ctx final) (counts : Nat → Label → Prop)
    (s : SectionId) (i : Nat) (inst : ParsedInstruction) (n : Word) : Prop where
  padding : ∃ p < n.toNat, run.bytesIn s i = segmentBytes inst ++ List.replicate p (fillByte s)
  next : ∀ k, run.Adjoins s i k → n.toNat ∣ (run.placeIn s k).toNat
  label : ∀ k b name, run.Adjoins s i k → InText run.canon k b ∨ InData run.canon k b →
    sectionBefore run.canon k = s → b.label = some name → counts k name →
      ∃ address, HasAddress final name address ∧ n.toNat ∣ address.toNat

def AlignmentsHold (run : AssemblyRun insts ctx final) (counts : Nat → Label → Prop) : Prop :=
  ∀ s i inst n, run.EncodesIn s i inst → inst.type = .align →
    inst.operands.head? = some (.imm n) → IsAlignment n → run.AlignmentHolds counts s i inst n

theorem nothingLost_of_final (run : AssemblyRun insts ctx final) (h : final.overflows = 0) :
    run.NothingLost := by
  have hemitted : run.emitted.overflows = 0 := by
    rw [run.resolves.same] at h
    exact h
  have hdata := count_mono (f := fun i => (run.dataAt i).overflows)
    fun i hi => (run.data_overflows_iff hi).1
  have htext := count_mono (f := fun i => (run.textAt i).overflows)
    fun i hi => (run.text_overflows_iff hi).1
  simp only [run.dataAt_end, run.textAt_end] at hdata htext
  have hstart : (resetForDataPass run.attributed).overflows = run.texted.overflows :=
    run.attributed_emits.overflows
  have hdata : (resetForDataPass run.attributed).overflows ≤ run.emitted.overflows := hdata
  have htext : (resetForTextPass run.entry).overflows ≤ run.texted.overflows := htext
  constructor
  · omega
  · omega

/-- Of the statements that carry a name, the one that the passes come to last. -/
def LastCarries (run : AssemblyRun insts ctx final) (k : Nat) (name : Label) : Prop :=
  ∀ j, run.Carries j name → run.passOrder j ≤ run.passOrder k

/-- The labels that are sure to lie where their statement is: the symbol table is consistent and has
room for every name, and no later statement carries the name. -/
structure LabelKept (run : AssemblyRun insts ctx final) (k : Nat) (name : Label) : Prop where
  consistent : Consistent ctx
  room : final.symbols.length < maxSymbols
  last : run.LastCarries k name

section Align

variable {n : Word} (h : run.EncodesIn s i inst) (htype : inst.type = .align)
  (hop : inst.operands.head? = some (.imm n)) (hn : IsAlignment n) (hlost : run.NothingLost)

include h htype hop hn hlost

theorem align_bytes : run.bytesIn s i = segmentBytes inst ++ List.replicate
    (alignPadding (run.placeIn s i + BitVec.ofNat 64 (segmentBytes inst).length) n)
    (fillByte s) := by
  have hm : Encoder.machineEncoder inst.type = none := by rw [htype]; rfl
  have hrequest := directiveRequest_align htype hop hn h.sect
  rw [reachedIn_address s (Nat.le_of_lt h.lt)] at hrequest
  rw [h.bytes hm, List.take_of_length_le (h.fits hlost), hrequest]

theorem align_next {k : Nat} (hk : run.Adjoins s i k) : n.toNat ∣ (run.placeIn s k).toNat := by
  have hsame := placeIn_silent (Nat.succ_le_of_lt hk.lt) hk.le fun j hj => hk.silent j hj
  have hpadded := dvd_padded hn (run.placeIn s i + BitVec.ofNat 64 (segmentBytes inst).length)
  rw [hsame, placeIn_succ s h.lt, align_bytes h htype hop hn hlost, List.length_append,
    List.length_replicate, BitVec.ofNat_add, ← BitVec.add_assoc]
  exact hpadded

theorem alignmentHolds_kept : run.AlignmentHolds run.LabelKept s i inst n where
  padding := ⟨_, alignPadding_lt hn _, align_bytes h htype hop hn hlost⟩
  next := fun k hk => align_next h htype hop hn hlost hk
  label := fun k b name hk hb hs hl hkept => by
    have hget : run.canon[k]? = some b := hb.elim InText.get InData.get
    have hne : b.type ≠ .sectionDir := hb.elim InText.not_section InData.not_section
    have hc := hkept.consistent
    have hknown := run.label_entry hc hkept.room (List.mem_of_getElem? hget) hne hl
    refine ⟨_, run.placed_last hc (Nat.zero_le _) hknown ⟨b, hb, hl⟩ (Nat.zero_le _) hkept.last, ?_⟩
    rw [labelAddress_eq, hs]
    exact align_next h htype hop hn hlost hk

end Align

end AssemblyRun

/-- In every run that has room for everything the alignments hold. A label may stand in front
of several statements; the last of them counts. -/
theorem alignmentsHold {insts : List ParsedInstruction} {ctx final : AssemblerContext}
    (h : asmAssemble insts ctx = (some (), final)) :
    Nonempty (AssemblyRun insts ctx final) ∧
      ∀ run : AssemblyRun insts ctx final, run.NothingLost → run.AlignmentsHold run.LabelKept :=
  ⟨assemblyRun_of_success h, fun _ hlost _ _ _ _ hstands htype hop hn =>
    AssemblyRun.alignmentHolds_kept hstands htype hop hn hlost⟩

/-- A label in front of two statements, the first one aligned. -/
def alignedTwice : List ParsedInstruction :=
  [{ type := .ret, lineNumber := 2, originalLine := CString.lit _ "align 8" },
   { type := .align, operands := [.imm 8], lineNumber := 2
     originalLine := CString.lit _ "align 8" },
   { type := .ret, label := some (CString.lit _ "a"), lineNumber := 3
     originalLine := CString.lit _ "a: ret" },
   { type := .ret, label := some (CString.lit _ "a"), lineNumber := 4
     originalLine := CString.lit _ "a: ret" }]

theorem alignmentsHold_alignedTwice :
    Nonempty (AssemblyRun alignedTwice emptyContext (asmAssemble alignedTwice emptyContext).2) ∧
      ∀ run : AssemblyRun alignedTwice emptyContext (asmAssemble alignedTwice emptyContext).2,
        run.NothingLost → run.AlignmentsHold run.LabelKept :=
  alignmentsHold (asmAssemble_success (by decide +kernel))

/-- The label ends up at the second statement, one byte behind the aligned one. -/
theorem alignmentsHold_notEvery :
    parseSource 60 (CString.str "ret\nalign 8\na: ret\na: ret") = some (some alignedTwice) ∧
      ∃ final, asmAssemble alignedTwice emptyContext = (some (), final) ∧
        final.symbols.length < maxSymbols ∧
        ∀ run : AssemblyRun alignedTwice emptyContext final,
          run.NothingLost ∧ ¬ run.AlignmentsHold fun _ _ => True := by
  refine ⟨by decide +kernel, _, asmAssemble_success (by decide +kernel), by decide +kernel, ?_⟩
  intro run
  refine ⟨run.nothingLost_of_final (by decide +kernel), fun hold => ?_⟩
  have hcanon : run.canon[2]? = some
      { type := .ret, label := some (CString.lit _ "a"), lineNumber := 3
        originalLine := CString.lit _ "a: ret" } := by
    rw [run.canon_eq]
    decide +kernel
  have hget : run.program[1]? = some
      { type := .align, operands := [.imm 8], lineNumber := 2, address := 0x400001
        originalLine := CString.lit _ "align 8" } := by
    rw [run.program_eq]
    decide +kernel
  have hsect : sectionBefore run.program 1 = .text ∧ run.program.length = 4 := by
    rw [run.program_eq]
    decide +kernel
  have hcanonSect : sectionBefore run.canon 2 = .text := by
    rw [run.canon_eq]
    decide +kernel
  have hadjoins : run.Adjoins .text 1 2 := by
    refine ⟨by omega, by omega, fun j hj hlt => ?_⟩
    omega
  obtain ⟨address, hplaced, hdvd⟩ :=
    (hold .text 1 _ 8 ⟨hget, by decide, hsect.1⟩ rfl rfl ⟨3, by decide, by decide⟩).label 2 _ _
      hadjoins (.inl ⟨hcanon, by decide, hcanonSect⟩) hcanonSect rfl trivial
  have hmoved : findSymbolAddress (asmAssemble alignedTwice emptyContext).2
      (CString.lit _ "a") = some 0x400009 := by
    decide +kernel
  rw [hplaced.hash] at hmoved
  cases hmoved
  exact absurd hdvd (by decide)

end X86Assembler
