import X86Assembler.SseMoves

namespace X86Assembler

open CString (Byte)
open Encoder (SseOpcode encodeSseBinary isXmmOperand isMemOperand machineEncoder)
open MachineCode

theorem sseBinary_forms {src : Operand} (h : ¬ (!isXmmOperand src && !isMemOperand src) = true) :
    (∃ r size, src = .reg r size ∧ isXmmReg r = true) ∨ ∃ m, src = .mem m := by
  cases hxmm : isXmmOperand src with
  | true =>
      obtain ⟨r, size, hsrc, hr⟩ := xmm_of_operand hxmm
      exact .inl ⟨r, size, hsrc, hr⟩
  | false =>
      rw [hxmm, Bool.not_false, Bool.true_and, Bool.not_eq_true', Bool.not_eq_false] at h
      exact .inr (mem_of_operand h)

theorem yields_encodeSseBinary {inst : ParsedInstruction} {opcode : InstType → Option SseOpcode}
    {name dstSize unknown : String}
    (hcodes : ∀ code, opcode inst.type = some code →
      ∃ o, sseOperation inst.type = some o ∧ SseCode code ⟨o, false⟩) :
    (encodeSseBinary opcode name dstSize unknown inst).Yields fun bs =>
      SseMoveDenoted inst bs ↔ SseMoveFits inst.operands := by
  unfold encodeSseBinary
  split
  · next dst src hops =>
      split
      · exact yields_diag
      next hdst =>
        rw [Bool.not_eq_true', Bool.not_eq_false] at hdst
        obtain ⟨r, size, rfl, hr⟩ := xmm_of_operand hdst
        split
        · exact yields_diag
        split
        · exact yields_diag
        split
        · exact yields_diag
        next hsrc =>
          apply yields_orDiag_bind
          intro code hcode
          obtain ⟨o, ho, hentry⟩ := hcodes code hcode
          apply yields_bind
          intro _
          rcases sseBinary_forms hsrc with ⟨r', size', rfl, hr'⟩ | ⟨m, rfl⟩
          · refine yields_of_writes ?_
            obtain ⟨hx, hb⟩ := @notExtended_of_plain (.reg r' size') rfl
            have hxmm : isXmmOperand (.reg r' size') = true := hr'
            rw [hx, hb, hxmm, Bool.true_and, Bool.or_false]
            exact sseMoveDenoted_register ho hentry hr' hops rfl
          · rw [hops]
            apply yields_modrm_mem
            intro hm
            exact sseMoveDenoted_load ho hentry hr hops hm rfl (Bool.false_or _)
  · exact yields_diag

theorem yields_sseFamily {inst : ParsedInstruction} (family : SseFamily) :
    (family.encode inst).Yields fun bs => SseMoveDenoted inst bs ↔ SseMoveFits inst.operands := by
  obtain ⟨name, dstSize, unknown, hencode⟩ := family.encode_eq
  rw [hencode]
  exact yields_encodeSseBinary fun _ => SseFamily.code

theorem yields_sseEncoder {inst : ParsedInstruction} {encode : ParsedInstruction → Encoder Unit}
    (hsse : (sseOperation inst.type).isSome = true)
    (hencode : machineEncoder inst.type = some encode) :
    (encode inst).Yields fun bs => SseMoveDenoted inst bs ↔ SseMoveFits inst.operands := by
  cases htype : inst.type
  all_goals
    rw [htype] at hsse hencode
    first
    | exact absurd hsse Bool.false_ne_true
    | cases hencode
      first
      | exact yields_encodeSseMov
      | exact yields_sseFamily .arith
      | exact yields_sseFamily .packedArith
      | exact yields_sseFamily .packedCmp
      | exact yields_sseFamily .packedLogic

/-- The bytes of an accepted instruction on XMM registers, with memory of any form, are the written
one exactly when it is one of `SseMoveFits`. -/
theorem sseEncoders_denoted {inst : ParsedInstruction} {encode : ParsedInstruction → Encoder Unit}
    {env : EncodeEnv} {es : List Emission} (hsse : (sseOperation inst.type).isSome = true)
    (hencode : machineEncoder inst.type = some encode) (h : encode inst env = (es, .ok ())) :
    SseMoveDenoted inst (bytesOf es) ↔ SseMoveFits inst.operands :=
  yields_sseEncoder hsse hencode env es h

/-- `addpd xmm10, [rbx + r9*4]`. -/
def addpdXmm10 : ParsedInstruction :=
  { type := .addpd, operands := [.reg 26 .xmm, .mem { base := some 3, index := some 9, scale := 4 }] }

theorem sseEncoders_denoted_addpdXmm10 :
    SseMoveDenoted addpdXmm10 (bytesOf
      ([0x66#8, 0x46, 0x0F, 0x58, 0x14, 0x8B].map .byte)) ↔ SseMoveFits addpdXmm10.operands := by
  apply @sseEncoders_denoted addpdXmm10 Encoder.encodeSseArith ⟨0, true, fun _ => none⟩
  · rfl
  · rfl
  · rfl

end X86Assembler
