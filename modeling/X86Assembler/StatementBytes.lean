import X86Assembler.FinalText

namespace X86Assembler

open CString (Byte)
open LittleEndian (leBytes ofLeBytes slice)

/-- The context behind the segment override of a directive. -/
def AssemblerContext.afterSegment (ctx : AssemblerContext) (inst : ParsedInstruction) :
    AssemblerContext :=
  { ctx with currentAddress := ctx.currentAddress + BitVec.ofNat 64 (segmentBytes inst).length }

/-- The bytes of a directive that goes through `encode_instruction`. -/
def encodedRequest (ctx : AssemblerContext) (inst : ParsedInstruction) : List Byte :=
  segmentBytes inst ++ (directiveBytes (ctx.afterSegment inst) inst).getD []

/-- The bytes that the text pass asks for without looking at the result. -/
def textRequest (ctx : AssemblerContext) (inst : ParsedInstruction) : List Byte :=
  if isUnencoded inst || (Encoder.machineEncoder inst.type).isSome then []
  else encodedRequest ctx inst

def dataRequest (ctx : AssemblerContext) (inst : ParsedInstruction) : List Byte :=
  match directiveKind inst.type with
  | some .data => inst.operands.flatMap (dataItemBytes inst.type)
  | some .reserve => List.replicate (reserveSize inst) 0
  | some .align | some .incbin | some .comm => encodedRequest ctx inst
  | _ => []

section Congr

variable {ctx ctx' : AssemblerContext} (inst : ParsedInstruction)
  (ha : ctx'.currentAddress = ctx.currentAddress)
  (hs : ctx'.currentSection = ctx.currentSection) (hf : ctx'.files = ctx.files)

include ha hs hf

theorem directiveBytes_congr : directiveBytes ctx' inst = directiveBytes ctx inst := by
  have halign : alignBytes ctx' inst.operands = alignBytes ctx inst.operands := by
    simp only [alignBytes, ha, hs]
  have hincbin : incbinBytes ctx' inst.operands = incbinBytes ctx inst.operands := by
    simp only [incbinBytes, hf]
  have hcomm : commBytes ctx' inst.operands = commBytes ctx inst.operands := by
    simp only [commBytes, ha]
  simp only [directiveBytes, halign, hincbin, hcomm]

theorem encodedRequest_congr : encodedRequest ctx' inst = encodedRequest ctx inst := by
  rw [encodedRequest, encodedRequest]
  congr 2
  apply directiveBytes_congr
  · rw [AssemblerContext.afterSegment, AssemblerContext.afterSegment, ha]
  · exact hs
  · exact hf

theorem textRequest_congr : textRequest ctx' inst = textRequest ctx inst := by
  rw [textRequest, textRequest, encodedRequest_congr inst ha hs hf]

theorem dataRequest_congr : dataRequest ctx' inst = dataRequest ctx inst := by
  simp only [dataRequest, encodedRequest_congr inst ha hs hf]

end Congr

theorem files_of_settings {ctx ctx' : AssemblerContext} (h : ctx'.settings = ctx.settings) :
    ctx'.files = ctx.files := congrArg Settings.files h

theorem room_of_output {ctx ctx' : AssemblerContext} (ho : ctx'.output = ctx.output)
    (hs : ctx'.settings = ctx.settings) : ctx'.room = ctx.room := by
  have hpush : ctx'.output = ctx.output.push [] [] := by
    rw [ho, Output.push_nil]
  rw [AssemblerContext.room, AssemblerContext.room, buffer_of_output hpush, List.append_nil,
    capacity_of_settings hs (congrArg Output.sect ho)]

theorem Emits.requests_all {ctx ctx' : AssemblerContext} {bs : List Byte}
    (h : Emits ctx ctx' bs [] 0) : Requests ctx ctx' bs := by
  rw [Requests, List.take_of_length_le h.fits, Nat.sub_eq_zero_of_le h.fits]
  exact h

theorem requests_encoded {inst : ParsedInstruction} {ctx ctx₁ ctx' : AssemblerContext}
    {bs : List Byte} (hseg : Emits ctx ctx₁ (segmentBytes inst) [] 0)
    (hbs : directiveBytes ctx₁ inst = some bs) (hreq : Requests ctx₁ ctx' bs) :
    Requests ctx ctx' (encodedRequest ctx inst) := by
  have hsame : directiveBytes (ctx.afterSegment inst) inst = some bs := by
    rw [← hbs]
    apply directiveBytes_congr
    · exact hseg.address.symm
    · exact hseg.sect.symm
    · exact (files_of_settings hseg.settings).symm
  rw [encodedRequest, hsame]
  exact hseg.requests_all.trans hreq

theorem emitTextStatement_requests {inst : ParsedInstruction} {ctx ctx' : AssemblerContext}
    (hs : inst.type ≠ .sectionDir) (hm : Encoder.machineEncoder inst.type = none)
    (h : emitTextStatement inst ctx = (some (), ctx')) :
    Requests ctx ctx' (textRequest ctx inst) := by
  cases hu : isUnencoded inst with
  | true =>
      rw [textRequest, hu, Bool.true_or, if_pos rfl]
      exact (emitTextStatement_unencoded hu h).requests
  | false =>
      obtain ⟨ctx₁, bs, hseg, hbs, hreq⟩ := emitTextStatement_directive hm hs hu h
      rw [textRequest, hu, hm, Option.isSome_none, Bool.or_false, if_neg Bool.false_ne_true]
      exact requests_encoded hseg hbs hreq

theorem emitTextStatement_lost {inst : ParsedInstruction} {ctx ctx' : AssemblerContext}
    (hs : inst.type ≠ .sectionDir) (h : emitTextStatement inst ctx = (some (), ctx')) :
    ctx'.overflows = ctx.overflows + ((textRequest ctx inst).length - ctx.room) := by
  cases hm : Encoder.machineEncoder inst.type with
  | none => exact (emitTextStatement_requests hs hm h).overflows
  | some encode =>
      have hnone : textRequest ctx inst = [] := by
        rw [textRequest, hm, Option.isSome_some, Bool.or_true, if_pos rfl]
      rw [hnone, List.length_nil, Nat.zero_sub]
      cases hl : isLabelOnly inst with
      | true =>
          have hu : isUnencoded inst = true := by rw [isUnencoded, hl, Bool.or_true]
          exact (emitTextStatement_unencoded hu h).overflows
      | false =>
          obtain ⟨es, -, he⟩ := emitTextStatement_machine hm hl h
          exact he.overflows

theorem emitDataStatement_requests {inst : ParsedInstruction} {ctx ctx' : AssemblerContext}
    (h : emitDataStatement inst ctx = (some (), ctx')) :
    Requests ctx ctx' (dataRequest ctx inst) := by
  have hencoded : isEncodedData inst = true → Requests ctx ctx' (encodedRequest ctx inst) := by
    intro hk
    obtain ⟨ctx₁, bs, hseg, hbs, hreq⟩ := emitDataStatement_encoded hk h
    exact requests_encoded hseg hbs hreq
  have hskip : isEncodedData inst = false → directiveKind inst.type ≠ some .data →
      directiveKind inst.type ≠ some .reserve → Requests ctx ctx' [] := by
    intro hk hd hr
    rw [emitDataStatement_skip hk hd hr h]
    exact (Emits.refl ctx).requests
  rw [dataRequest]
  cases hk : directiveKind inst.type with
  | none =>
      apply hskip
      · rw [isEncodedData, hk]
      · rw [hk]
        exact (Option.some_ne_none _).symm
      · rw [hk]
        exact (Option.some_ne_none _).symm
  | some kind =>
      have hencodedKind := hencoded
      have hskipKind := hskip
      rw [isEncodedData, hk] at hencodedKind hskipKind
      cases kind with
      | data => exact emitDataStatement_data hk h
      | reserve => exact emitDataStatement_reserve hk h
      | align => exact hencodedKind rfl
      | incbin => exact hencodedKind rfl
      | comm => exact hencodedKind rfl
      | silent => exact hskipKind rfl (by decide) (by decide)
      | sectionChange => exact hskipKind rfl (by decide) (by decide)

namespace AssemblyRun

variable {insts : List ParsedInstruction} {ctx final : AssemblerContext}
  (run : AssemblyRun insts ctx final)

theorem program_length : run.program.length = run.source.length :=
  Fallible.walk_length run.lastPass

theorem dataAt_end : run.dataAt run.program.length = run.emitted :=
  X86Assembler.dataAt_length run.dataEmitted

/-- A statement of the data section as the data pass encodes it. -/
def dataStatement (i : Nat) (b : ParsedInstruction) : ParsedInstruction :=
  dataRewrite (run.dataAt i) b

theorem text_requests {i : Nat} {b : ParsedInstruction} (hb : InText run.program i b)
    (hm : Encoder.machineEncoder b.type = none) :
    (run.textAt (i + 1)).textSection = (run.textAt i).textSection ++
      (textRequest (run.textAt i) b).take (run.textAt i).room := by
  obtain ⟨a, ha, -, hemit⟩ := run.text_statement hb
  have ho := placeLabel_output (run.textAt i) a
  have hs := placeLabel_settings (run.textAt i) a
  have hsect : (placeLabel (run.textAt i) a).currentSection = .text := by
    rw [(placeLabel_text a (run.textAt i)).2.2.2.2, textAt,
      textAt_sect run.lastPass run.start (Nat.le_of_lt ha.lt), ha.sect]
  have htext := (emitTextStatement_requests hb.not_section hm hemit).text_of_text hsect
  rwa [textRequest_congr b (congrArg Output.address ho) (congrArg Output.sect ho)
    (files_of_settings hs), room_of_output ho hs, (placeLabel_text a (run.textAt i)).1] at htext

theorem text_lost {i : Nat} {b : ParsedInstruction} (hb : InText run.program i b) :
    (run.textAt (i + 1)).overflows =
      (run.textAt i).overflows + ((textRequest (run.textAt i) b).length - (run.textAt i).room) := by
  obtain ⟨a, ha, -, hemit⟩ := run.text_statement hb
  have ho := placeLabel_output (run.textAt i) a
  have hs := placeLabel_settings (run.textAt i) a
  have hlost := emitTextStatement_lost hb.not_section hemit
  rwa [textRequest_congr b (congrArg Output.address ho) (congrArg Output.sect ho)
    (files_of_settings hs), room_of_output ho hs, placeLabel_overflows] at hlost

theorem data_requests {i : Nat} {b : ParsedInstruction} (hb : InData run.program i b) :
    Requests (placeLabel (run.dataAt i) b) (run.dataAt (i + 1))
      (dataRequest (run.dataAt i) (run.dataStatement i b)) := by
  have ho := placeLabel_output (run.dataAt i) b
  have hs := placeLabel_settings (run.dataAt i) b
  have hsame := dataRequest_congr (run.dataStatement i b) (congrArg Output.address ho)
    (congrArg Output.sect ho) (files_of_settings hs)
  rw [← hsame]
  exact emitDataStatement_requests (dataAt_step run.dataEmitted hb)

theorem data_emitted {i : Nat} {b : ParsedInstruction} (hb : InData run.program i b) :
    (run.dataAt (i + 1)).dataSection = (run.dataAt i).dataSection ++
      (dataRequest (run.dataAt i) (run.dataStatement i b)).take (run.dataAt i).room := by
  have hsect : (placeLabel (run.dataAt i) b).currentSection = .data := by
    rw [(placeLabel_text b (run.dataAt i)).2.2.2.2, dataAt,
      dataAt_sect run.dataEmitted (Nat.le_of_lt hb.lt), hb.sect]
  have hdata := (run.data_requests hb).data_of_data hsect
  rwa [room_of_output (placeLabel_output _ _) (placeLabel_settings _ _),
    (placeLabel_text b (run.dataAt i)).2.2.2.1] at hdata

theorem data_lost {i : Nat} {b : ParsedInstruction} (hb : InData run.program i b) :
    (run.dataAt (i + 1)).overflows = (run.dataAt i).overflows +
      ((dataRequest (run.dataAt i) (run.dataStatement i b)).length - (run.dataAt i).room) := by
  have hlost := (run.data_requests hb).overflows
  rwa [room_of_output (placeLabel_output _ _) (placeLabel_settings _ _),
    placeLabel_overflows] at hlost

def textBytes (i : Nat) : List Byte :=
  slice final.textSection (run.textOffset i) (run.textOffset (i + 1) - run.textOffset i)

def dataBytes (i : Nat) : List Byte :=
  slice final.dataSection (run.dataOffset i) (run.dataOffset (i + 1) - run.dataOffset i)

theorem text_fixups {i : Nat} {b : ParsedInstruction} (hb : InText run.program i b)
    (hm : Encoder.machineEncoder b.type = none) :
    (run.textAt (i + 1)).fixups = (run.textAt i).fixups := by
  obtain ⟨a, ha, -, hemit⟩ := run.text_statement hb
  have hfix := (emitTextStatement_requests hb.not_section hm hemit).fixups
  rwa [List.append_nil, (placeLabel_text a (run.textAt i)).2.2.1] at hfix

theorem textBytes_directive {i : Nat} {b : ParsedInstruction} (hb : InText run.program i b)
    (hm : Encoder.machineEncoder b.type = none) :
    run.textBytes i = (textRequest (run.textAt i) b).take (run.textAt i).room := by
  have hi : i < run.source.length := run.program_length ▸ hb.lt
  have htext := run.text_requests hb hm
  have hsucc : run.textOffset (i + 1) = run.textOffset i +
      ((textRequest (run.textAt i) b).take (run.textAt i).room).length := by
    rw [textOffset, htext, List.length_append, textOffset]
  have hfix : (run.textAt (i + 1)).fixups = (run.textAt i).fixups ++ [] := by
    rw [List.append_nil, run.text_fixups hb hm]
  rw [textBytes, run.final_slice hi _ _ (Nat.le_refl _) (by omega) hfix (List.forall_mem_nil _),
    hsucc, Nat.add_sub_cancel_left, htext, textOffset]
  rw [← List.append_nil ((run.textAt i).textSection ++ _)]
  exact LittleEndian.slice_append_exact

theorem final_data : final.dataSection = run.emitted.dataSection := run.resolves.dataSection

theorem dataBytes_directive {i : Nat} {b : ParsedInstruction} (hb : InData run.program i b) :
    run.dataBytes i =
      (dataRequest (run.dataAt i) (run.dataStatement i b)).take (run.dataAt i).room := by
  have hdata := run.data_emitted hb
  have hsucc : run.dataOffset (i + 1) = run.dataOffset i +
      ((dataRequest (run.dataAt i) (run.dataStatement i b)).take (run.dataAt i).room).length := by
    rw [dataOffset, hdata, List.length_append, dataOffset]
  obtain ⟨later, hlater, -⟩ := (dataGrows_between run.dataEmitted (Nat.succ_le_of_lt hb.lt)
    (Nat.le_refl run.program.length)).data
  rw [dataAt_length run.dataEmitted] at hlater
  rw [dataBytes, hsucc, Nat.add_sub_cancel_left, run.final_data, hlater,
    show X86Assembler.dataAt run.program run.attributed (i + 1) = run.dataAt (i + 1) from rfl, hdata]
  exact LittleEndian.slice_append_exact

theorem Encodes.textBytes_plain {run : AssemblyRun insts ctx final} {i : Nat}
    {b : ParsedInstruction} {env : EncodeEnv} {es : List Emission} (h : run.Encodes i b env es)
    (hfs : fixupsOf (final.baseAddress + BitVec.ofNat 64 (run.textOffset i)) es = []) :
    run.textBytes i = bytesOf es := by
  have hall : bytesOf es = [] ++ bytesOf es ++ [] := by rw [List.nil_append, List.append_nil]
  have hbytes := h.final_bytes hall (by
    rw [hfs]
    exact List.forall_mem_nil _)
  rw [List.length_nil, Nat.add_zero] at hbytes
  rw [textBytes, h.offset_succ, Nat.add_sub_cancel_left, hbytes]

/-- The final bytes of an instruction with a fixup: the stored number stands in the place that
was emitted for it. -/
theorem Encodes.textBytes_fixup {run : AssemblyRun insts ctx final} {i : Nat}
    {b : ParsedInstruction} {env : EncodeEnv} {es : List Emission} (h : run.Encodes i b env es)
    {pre post : List Byte} {label : Label} {v : BitVec 32} {type : InstType} {rip : Bool}
    (hes : bytesOf es = pre ++ leBytes 4 v ++ post)
    (hfs : fixupsOf (final.baseAddress + BitVec.ofNat 64 (run.textOffset i)) es =
      [⟨label, final.baseAddress + BitVec.ofNat 64 (run.textOffset i) +
        BitVec.ofNat 64 pre.length, 4, type, rip⟩]) :
    ∃ target, findSymbolAddress final label = some target ∧
      fitsFixup (Fixup.value ⟨label, final.baseAddress + BitVec.ofNat 64 (run.textOffset i) +
        BitVec.ofNat 64 pre.length, 4, type, rip⟩ target + v.signExtend 64) 4 = true ∧
      run.textBytes i = pre ++ leBytes 4 (Fixup.value ⟨label, final.baseAddress +
        BitVec.ofNat 64 (run.textOffset i) + BitVec.ofNat 64 pre.length, 4, type, rip⟩ target +
          v.signExtend 64) ++ post := by
  have hlen : (bytesOf es).length = pre.length + 4 + post.length := by
    rw [hes, List.length_append, List.length_append, LittleEndian.leBytes_length]
  have hoff : Fixup.offset final.baseAddress ⟨label, final.baseAddress +
      BitVec.ofNat 64 (run.textOffset i) + BitVec.ofNat 64 pre.length, 4, type, rip⟩ =
        run.textOffset i + pre.length := by
    have hbound : run.textOffset (i + 1) < 2 ^ 64 :=
      textAt_length_lt run.lastPass run.start (Nat.succ_le_of_lt h.lt)
    rw [h.offset_succ, hlen] at hbound
    exact offset_eq (by omega) (by rw [BitVec.ofNat_add, BitVec.add_assoc])
  obtain ⟨target, htarget, hfits, hslice⟩ := run.final_stored h.lt h.fixups (by
    rw [hfs]
    exact List.mem_singleton_self _)
  have hread := h.slice_text hes
  rw [LittleEndian.leBytes_length] at hread
  rw [Fixup.stored, hoff, hread, LittleEndian.ofLeBytes_leBytes (by decide)] at hfits hslice
  have hfront : bytesOf es = [] ++ pre ++ (leBytes 4 v ++ post) := by
    rw [hes, List.nil_append, List.append_assoc]
  have hback : bytesOf es = pre ++ leBytes 4 v ++ post ++ [] := by rw [hes, List.append_nil]
  have hpre := h.final_bytes hfront (by
    rw [hfs, List.forall_mem_singleton, hoff]
    exact .inl (Nat.le_refl _))
  have hpost := h.final_bytes hback (by
    rw [hfs, List.forall_mem_singleton, hoff, List.length_append, LittleEndian.leBytes_length]
    exact .inr (Nat.le_refl _))
  rw [List.length_append, LittleEndian.leBytes_length, ← Nat.add_assoc] at hpost
  refine ⟨target, htarget, hfits, ?_⟩
  rw [textBytes, h.offset_succ, Nat.add_sub_cancel_left, hlen, LittleEndian.slice_add,
    LittleEndian.slice_add, hslice]
  rw [List.length_nil, Nat.add_zero] at hpre
  rw [hpre, ← Nat.add_assoc, hpost]

end AssemblyRun

end X86Assembler
