import X86Assembler.AssemblyRun
import X86Assembler.FixupResolution

namespace X86Assembler

open CString (Byte)
open Fallible (each)
open LittleEndian (leBytes ofLeBytes slice)

theorem emitTextStatement_spaced {inst : ParsedInstruction} {ctx ctx' : AssemblerContext}
    {base : Word} (hs : inst.type ≠ .sectionDir)
    (h : emitTextStatement inst ctx = (some (), ctx')) (hsect : ctx.currentSection = .text)
    (haddr : ctx.currentAddress = base + BitVec.ofNat 64 ctx.textSection.length)
    (hlt : ctx'.textSection.length < 2 ^ 64) :
    ∃ fs, ctx'.fixups = ctx.fixups ++ fs ∧
      Spaced base ctx.textSection.length fs ctx'.textSection.length := by
  have hplain : ∀ bs lost, Emits ctx ctx' bs [] lost → ∃ fs, ctx'.fixups = ctx.fixups ++ fs ∧
      Spaced base ctx.textSection.length fs ctx'.textSection.length := by
    intro bs lost he
    refine ⟨[], he.fixups, .nil ?_⟩
    rw [he.text_of_text hsect, List.length_append]
    exact Nat.le_add_right _ _
  cases hu : isUnencoded inst with
  | true => exact hplain _ _ (emitTextStatement_unencoded hu h)
  | false =>
      cases hm : Encoder.machineEncoder inst.type with
      | none =>
          obtain ⟨ctx₁, bs, hseg, -, hreq⟩ := emitTextStatement_directive hm hs hu h
          exact hplain _ _ (hseg.trans hreq)
      | some encode =>
          have hl : isLabelOnly inst = false := by
            simp only [isUnencoded, Bool.or_eq_false_iff] at hu
            exact hu.2
          obtain ⟨es, hes, he⟩ := emitTextStatement_machine hm hl h
          have htext := he.text_of_text hsect
          rw [htext, List.length_append] at hlt ⊢
          refine ⟨_, he.fixups, ?_⟩
          rw [haddr]
          exact spaced_encoded (Encoder.statement_encoded hm hes) hlt

section TextRun

variable {insts out : List ParsedInstruction} {ctx ctx' : AssemblerContext} {st : TextPassState}

theorem textAt_length_lt (h : textPass {} insts ctx = (some (st, out), ctx')) (hs : PassStart ctx)
    {i : Nat} (hi : i ≤ insts.length) : (textAt insts ctx i).textSection.length < 2 ^ 64 :=
  Nat.lt_of_le_of_lt (textAt_fits h hs hi) ctx.textCapacity.isLt

theorem textAt_fixups_step (h : textPass {} insts ctx = (some (st, out), ctx'))
    (hs : PassStart ctx) {i : Nat} (hi : i < insts.length) :
    ∃ fs, (textAt insts ctx (i + 1)).fixups = (textAt insts ctx i).fixups ++ fs ∧
      Spaced ctx.baseAddress (textAt insts ctx i).textSection.length fs
        (textAt insts ctx (i + 1)).textSection.length := by
  have hget : insts[i]? = some insts[i] := List.getElem?_eq_getElem hi
  by_cases hin : InText insts i insts[i]
  · obtain ⟨htext, haddr, hfix, -, hsect⟩ := placeLabel_text insts[i] (textAt insts ctx i)
    rw [← htext, ← hfix]
    have hne : (textRewrite (textAt insts ctx i) insts[i]).type ≠ .sectionDir := hin.not_section
    apply emitTextStatement_spaced hne (textAt_step h hs hin).2
    · rw [hsect, textAt_sect h hs (Nat.le_of_lt hi), hin.sect]
    · rw [haddr, htext]
      exact textAt_address h hs (Nat.le_of_lt hi)
    · exact textAt_length_lt h hs hi
  · rw [(textAt_skip h hs hget hin).2]
    exact ⟨[], (List.append_nil _).symm, .nil (Nat.le_refl _)⟩

theorem textAt_fixups_between (h : textPass {} insts ctx = (some (st, out), ctx'))
    (hs : PassStart ctx) {i j : Nat} (hij : i ≤ j) (hj : j ≤ insts.length) :
    ∃ fs, (textAt insts ctx j).fixups = (textAt insts ctx i).fixups ++ fs ∧
      Spaced ctx.baseAddress (textAt insts ctx i).textSection.length fs
        (textAt insts ctx j).textSection.length := by
  induction hij with
  | refl => exact ⟨[], (List.append_nil _).symm, .nil (Nat.le_refl _)⟩
  | @step j hij ih =>
      obtain ⟨fs, hfs, hspaced⟩ := ih (Nat.le_of_succ_le hj)
      obtain ⟨gs, hgs, hspaced'⟩ := textAt_fixups_step h hs hj
      refine ⟨fs ++ gs, ?_, hspaced.append hspaced'⟩
      rw [hgs, hfs, List.append_assoc]

theorem textAt_prefix (h : textPass {} insts ctx = (some (st, out), ctx')) (hs : PassStart ctx)
    {i j : Nat} (hij : i ≤ j) (hj : j ≤ insts.length) :
    ∃ bs, (textAt insts ctx j).textSection = (textAt insts ctx i).textSection ++ bs := by
  obtain ⟨bs, hbs, -⟩ := (textGrows_between h hs hij hj).text
  exact ⟨bs, hbs⟩

end TextRun

namespace AssemblyRun

variable {insts : List ParsedInstruction} {ctx final : AssemblerContext}
  (run : AssemblyRun insts ctx final)

/-- The context in which the last text pass reaches a statement. -/
def textAt (i : Nat) : AssemblerContext :=
  X86Assembler.textAt run.source (resetForTextPass run.entry) i

/-- The context in which the data pass reaches a statement. -/
def dataAt (i : Nat) : AssemblerContext := X86Assembler.dataAt run.program run.attributed i

/-- The bytes of the text section in front of a statement. -/
def textOffset (i : Nat) : Nat := (run.textAt i).textSection.length

/-- The bytes of the data section in front of a statement. -/
def dataOffset (i : Nat) : Nat := (run.dataAt i).dataSection.length

theorem start : PassStart (resetForTextPass run.entry) := passStart_reset run.entry

theorem textAt_end : run.textAt run.source.length = run.texted := textAt_length run.lastPass

theorem attributed_emits : Emits run.texted run.attributed [] [] 0 :=
  applySymbolAttributes_emits run.attributesApplied

theorem emitted_grows : DataGrows (resetForDataPass run.attributed) run.emitted := by
  have h := dataGrows_between run.dataEmitted (Nat.zero_le _) (Nat.le_refl _)
  rwa [dataAt_zero, dataAt_length run.dataEmitted] at h

theorem emitted_fixups : run.emitted.fixups = run.texted.fixups := by
  rw [run.emitted_grows.fixups]
  exact congrArg Output.fixups run.attributed_emits.output |>.trans (List.append_nil _)

theorem emitted_text : run.emitted.textSection = run.texted.textSection := by
  rw [run.emitted_grows.text]
  have hsame := run.attributed_emits.output
  rw [Output.push_nil] at hsame
  exact congrArg Output.text hsame

theorem emitted_settings : run.emitted.settings = run.texted.settings :=
  run.emitted_grows.settings.trans run.attributed_emits.settings

theorem texted_settings : run.texted.settings = run.entry.settings := by
  have h := (textGrows_between run.lastPass run.start (Nat.zero_le _) (Nat.le_refl _)).settings
  rwa [textAt_length run.lastPass] at h

theorem emitted_base : run.emitted.baseAddress = run.entry.baseAddress :=
  congrArg Settings.baseAddress (run.emitted_settings.trans run.texted_settings)

theorem spaced : Spaced run.emitted.baseAddress 0 run.emitted.fixups
    run.emitted.textSection.length := by
  obtain ⟨fs, hfs, hspaced⟩ :=
    textAt_fixups_between run.lastPass run.start (Nat.zero_le _) (Nat.le_refl run.source.length)
  rw [textAt_length run.lastPass, textAt_zero, run.start.fixups, List.nil_append] at hfs
  rw [textAt_length run.lastPass, textAt_zero, run.start.text] at hspaced
  rw [run.emitted_fixups, hfs, run.emitted_text, run.emitted_base]
  exact hspaced

theorem resolves : Resolves run.emitted.fixups run.emitted final := by
  obtain ⟨c, ctx₁, hget, h⟩ := Fallible.bind_eq_some.mp run.resolved
  cases hget
  exact X86Assembler.resolves run.spaced h

theorem final_base : final.baseAddress = run.entry.baseAddress :=
  run.resolves.baseAddress.trans run.emitted_base

theorem final_length : final.textSection.length = run.texted.textSection.length := by
  rw [run.resolves.length, run.emitted_text]

theorem textOffset_le {i j : Nat} (hij : i ≤ j) (hj : j ≤ run.source.length) :
    run.textOffset i ≤ run.textOffset j := by
  obtain ⟨bs, hbs⟩ := textAt_prefix run.lastPass run.start hij hj
  rw [textOffset, textOffset, textAt, textAt, hbs, List.length_append]
  exact Nat.le_add_right _ _

theorem final_end {i : Nat} (hi : i ≤ run.source.length) :
    run.textOffset i ≤ final.textSection.length := by
  rw [run.final_length, ← run.textAt_end]
  exact run.textOffset_le hi (Nat.le_refl _)

/-- The bytes of a statement stand in the final text section as they were emitted, but for
the places of its own fixups. -/
theorem final_slice {i : Nat} (hi : i < run.source.length) (lo n : Nat)
    (hlo : run.textOffset i ≤ lo) (hhi : lo + n ≤ run.textOffset (i + 1)) {fs : List Fixup}
    (hfs : (run.textAt (i + 1)).fixups = (run.textAt i).fixups ++ fs)
    (hout : ∀ f ∈ fs, lo + n ≤ f.offset final.baseAddress ∨ f.offset final.baseAddress + 4 ≤ lo) :
    slice final.textSection lo n = slice (run.textAt (i + 1)).textSection lo n := by
  obtain ⟨before, hbefore, hspaced⟩ :=
    textAt_fixups_between run.lastPass run.start (Nat.zero_le i) (Nat.le_of_lt hi)
  obtain ⟨later, hlater, hspaced'⟩ :=
    textAt_fixups_between run.lastPass run.start (Nat.succ_le_of_lt hi) (Nat.le_refl _)
  obtain ⟨bs, hbs⟩ := textAt_prefix run.lastPass run.start (Nat.succ_le_of_lt hi) (Nat.le_refl _)
  rw [textAt_length run.lastPass] at hlater hbs
  rw [textAt_zero, run.start.fixups, List.nil_append] at hbefore
  rw [run.resolves.untouched lo n, run.emitted_text, hbs]
  · exact LittleEndian.slice_append_left hhi
  · rw [run.emitted_base, ← run.final_base, run.emitted_fixups, hlater]
    have hbase : (resetForTextPass run.entry).baseAddress = final.baseAddress := run.final_base.symm
    rw [hbase] at hspaced hspaced'
    have hmid : (X86Assembler.textAt run.source (resetForTextPass run.entry) (i + 1)).fixups =
        before ++ fs := by rw [← hbefore]; exact hfs
    rw [hmid]
    intro f hf
    rcases List.mem_append.mp hf with hf | hf
    · rcases List.mem_append.mp hf with hf | hf
      · exact .inr (Nat.le_trans (hspaced.to_hi f hf) hlo)
      · exact hout f hf
    · exact .inl (Nat.le_trans hhi (hspaced'.from_lo f hf))

theorem final_stored {i : Nat} (hi : i < run.source.length) {fs : List Fixup}
    (hfs : (run.textAt (i + 1)).fixups = (run.textAt i).fixups ++ fs) {f : Fixup} (hf : f ∈ fs) :
    ∃ target, findSymbolAddress final f.label = some target ∧
      fitsFixup (f.stored final.baseAddress target (run.textAt (i + 1)).textSection) 4 = true ∧
      slice final.textSection (f.offset final.baseAddress) 4 =
        leBytes 4 (f.stored final.baseAddress target (run.textAt (i + 1)).textSection) := by
  obtain ⟨later, hlater, -⟩ :=
    textAt_fixups_between run.lastPass run.start (Nat.succ_le_of_lt hi) (Nat.le_refl _)
  obtain ⟨before, hbefore, hspaced⟩ :=
    textAt_fixups_between run.lastPass run.start (Nat.zero_le (i + 1)) (Nat.succ_le_of_lt hi)
  obtain ⟨bs, hbs⟩ := textAt_prefix run.lastPass run.start (Nat.succ_le_of_lt hi) (Nat.le_refl _)
  rw [textAt_length run.lastPass] at hlater hbs
  rw [textAt_zero, run.start.fixups, List.nil_append] at hbefore
  have hmem : f ∈ (run.textAt (i + 1)).fixups := by
    rw [hfs]
    exact List.mem_append_right _ hf
  have hin : f.offset final.baseAddress + 4 ≤ (run.textAt (i + 1)).textSection.length := by
    rw [run.final_base]
    apply hspaced.to_hi
    rw [← hbefore]
    exact hmem
  have hall : f ∈ run.emitted.fixups := by
    rw [run.emitted_fixups, hlater]
    exact List.mem_append_left _ hmem
  obtain ⟨target, htarget, hfits, hslice⟩ := run.resolves.stored f hall
  have hread : f.stored run.emitted.baseAddress target run.emitted.textSection =
      f.stored final.baseAddress target (run.textAt (i + 1)).textSection := by
    rw [run.emitted_base, ← run.final_base, run.emitted_text, hbs]
    exact Fixup.stored_congr (LittleEndian.slice_append_left hin)
  rw [hread] at hfits hslice
  rw [run.emitted_base, ← run.final_base] at hslice
  exact ⟨target, (run.resolves.findSymbolAddress f.label).trans htarget, hfits, hslice⟩

theorem text_statement {i : Nat} {b : ParsedInstruction} (hb : InText run.program i b) :
    ∃ a, InText run.source i a ∧ b = textRewrite (run.textAt i) a ∧
      emitTextStatement b (placeLabel (run.textAt i) a) = (some (), run.textAt (i + 1)) := by
  obtain ⟨a, ha, -⟩ := (textPass_rewrites run.lastPass run.start).inText_back hb
  obtain ⟨hget, hemit⟩ := textAt_step run.lastPass run.start ha
  have heq : b = textRewrite (run.textAt i) a := by
    rw [hb.get] at hget
    exact Option.some.inj hget
  refine ⟨a, ha, heq, ?_⟩
  rw [heq]
  exact hemit

/-- A machine instruction of the program, what its encoder emits, and where that ends up. -/
structure Encodes (i : Nat) (b : ParsedInstruction) (env : EncodeEnv) (es : List Emission) :
    Prop where
  lt : i < run.source.length
  encoded : Encoder.EncodedAs b env es
  text : (run.textAt (i + 1)).textSection = (run.textAt i).textSection ++ bytesOf es
  fixups : (run.textAt (i + 1)).fixups = (run.textAt i).fixups ++
    fixupsOf (final.baseAddress + BitVec.ofNat 64 (run.textOffset i)) es

theorem text_address {i : Nat} (hi : i ≤ run.source.length) : (run.textAt i).currentAddress =
    final.baseAddress + BitVec.ofNat 64 (run.textOffset i) := by
  rw [run.final_base]
  exact textAt_address run.lastPass run.start hi

theorem text_emission {i : Nat} {b : ParsedInstruction} (hb : InText run.program i b)
    {encode : ParsedInstruction → Encoder Unit}
    (hm : Encoder.machineEncoder b.type = some encode) (hl : isLabelOnly b = false) :
    ∃ a es, InText run.source i a ∧ b = textRewrite (run.textAt i) a ∧
      Encoder.statement encode b (placeLabel (run.textAt i) a).encodeEnv = (es, .ok ()) ∧
      run.Encodes i b (placeLabel (run.textAt i) a).encodeEnv es := by
  obtain ⟨a, ha, hrewrite, hemit⟩ := run.text_statement hb
  obtain ⟨es, hes, he⟩ := emitTextStatement_machine hm hl hemit
  obtain ⟨htext, haddr, hfix, -, hsect⟩ := placeLabel_text a (run.textAt i)
  have hsect : (placeLabel (run.textAt i) a).currentSection = .text := by
    rw [hsect, textAt, textAt_sect run.lastPass run.start (Nat.le_of_lt ha.lt), ha.sect]
  refine ⟨a, es, ha, hrewrite, hes, ha.lt, Encoder.statement_encoded hm hes, ?_, ?_⟩
  · rw [he.text_of_text hsect, htext]
  · rw [he.fixups, hfix, haddr, run.text_address (Nat.le_of_lt ha.lt)]

theorem text_encodes {i : Nat} {b : ParsedInstruction} (hb : InText run.program i b)
    {encode : ParsedInstruction → Encoder Unit}
    (hm : Encoder.machineEncoder b.type = some encode) (hl : isLabelOnly b = false) :
    ∃ a es, InText run.source i a ∧
      run.Encodes i b (placeLabel (run.textAt i) a).encodeEnv es := by
  obtain ⟨a, es, ha, -, -, henc⟩ := run.text_emission hb hm hl
  exact ⟨a, es, ha, henc⟩

namespace Encodes

variable {run} {i : Nat} {b : ParsedInstruction} {env : EncodeEnv} {es : List Emission}

theorem offset_succ (h : run.Encodes i b env es) :
    run.textOffset (i + 1) = run.textOffset i + (bytesOf es).length := by
  rw [textOffset, h.text, List.length_append, textOffset]

theorem slice_text (h : run.Encodes i b env es) {pre mid post : List Byte}
    (hes : bytesOf es = pre ++ mid ++ post) :
    slice (run.textAt (i + 1)).textSection (run.textOffset i + pre.length) mid.length = mid := by
  rw [h.text, hes, textOffset, ← List.append_assoc, ← List.append_assoc, ← List.length_append]
  exact LittleEndian.slice_append_exact

theorem final_bytes (h : run.Encodes i b env es) {pre mid post : List Byte}
    (hes : bytesOf es = pre ++ mid ++ post)
    (hout : ∀ f ∈ fixupsOf (final.baseAddress + BitVec.ofNat 64 (run.textOffset i)) es,
      run.textOffset i + pre.length + mid.length ≤ f.offset final.baseAddress ∨
        f.offset final.baseAddress + 4 ≤ run.textOffset i + pre.length) :
    slice final.textSection (run.textOffset i + pre.length) mid.length = mid := by
  have hend : run.textOffset i + pre.length + mid.length ≤ run.textOffset (i + 1) := by
    rw [h.offset_succ, hes, List.length_append, List.length_append]
    omega
  rw [run.final_slice h.lt _ _ (Nat.le_add_right _ _) hend h.fixups hout]
  exact h.slice_text hes

theorem final_fixup (h : run.Encodes i b env es) {pre post : List Byte} {label : Label}
    {v : BitVec 32} {type : InstType} {rip : Bool} (hes : bytesOf es = pre ++ leBytes 4 v ++ post)
    (hfs : fixupsOf (final.baseAddress + BitVec.ofNat 64 (run.textOffset i)) es =
      [⟨label, final.baseAddress + BitVec.ofNat 64 (run.textOffset i) +
        BitVec.ofNat 64 pre.length, 4, type, rip⟩]) :
    ∃ target, findSymbolAddress final label = some target ∧
      (ofLeBytes 32 (slice final.textSection (run.textOffset i + pre.length) 4)).signExtend 64 =
        Fixup.value ⟨label, final.baseAddress + BitVec.ofNat 64 (run.textOffset i) +
          BitVec.ofNat 64 pre.length, 4, type, rip⟩ target + v.signExtend 64 := by
  obtain ⟨target, htarget, hfits, hslice⟩ := run.final_stored h.lt h.fixups (by
    rw [hfs]
    exact List.mem_singleton_self _)
  have hlt : run.textOffset i + pre.length < 2 ^ 64 := by
    have hbound : run.textOffset (i + 1) < 2 ^ 64 :=
      textAt_length_lt run.lastPass run.start (Nat.succ_le_of_lt h.lt)
    rw [h.offset_succ, hes, List.length_append, List.length_append] at hbound
    omega
  have hoff : Fixup.offset final.baseAddress ⟨label, final.baseAddress +
      BitVec.ofNat 64 (run.textOffset i) + BitVec.ofNat 64 pre.length, 4, type, rip⟩ =
        run.textOffset i + pre.length :=
    offset_eq hlt (by rw [BitVec.ofNat_add, BitVec.add_assoc])
  have hread := h.slice_text hes
  rw [LittleEndian.leBytes_length] at hread
  rw [Fixup.stored, hoff, hread, LittleEndian.ofLeBytes_leBytes (by decide)] at hfits hslice
  simp only [fitsFixup, Bool.and_eq_true, decide_eq_true_eq] at hfits
  refine ⟨target, htarget, ?_⟩
  rw [hslice, LittleEndian.signExtend_ofLeBytes hfits.1 hfits.2]

end Encodes

end AssemblyRun

end X86Assembler
