import X86Assembler.AddressEncoding
import X86Assembler.SseEncoders
import X86Assembler.Library.SseReader

namespace X86Assembler

open CString (Byte)
open Encoder (SseOpcode encodeSseMov encodeSseBinary encodeSseArith encodeSsePackedArith
  encodeSsePackedCmp encodeSsePackedLogic sseMovOpcode sseArithOpcode ssePackedArithOpcode
  ssePackedCmpOpcode ssePackedLogicOpcode emitSseHead isHighXmm modrmBytes memBytes Writes Puts)
open MachineCode

def sseOperation : InstType → Option SseOperation
  | .movaps => some .movaps
  | .movups => some .movups
  | .movss => some .movss
  | .movapd => some .movapd
  | .movupd => some .movupd
  | .movsdXmm => some .movsd
  | .movdqa => some .movdqa
  | .movdqu => some .movdqu
  | .addss => some .addss
  | .addps => some .addps
  | .addsd => some .addsd
  | .addpd => some .addpd
  | .subss => some .subss
  | .subps => some .subps
  | .subsd => some .subsd
  | .subpd => some .subpd
  | .mulss => some .mulss
  | .mulps => some .mulps
  | .mulsd => some .mulsd
  | .mulpd => some .mulpd
  | .divss => some .divss
  | .divps => some .divps
  | .divsd => some .divsd
  | .divpd => some .divpd
  | .paddb => some .paddb
  | .paddw => some .paddw
  | .paddd => some .paddd
  | .paddq => some .paddq
  | .psubb => some .psubb
  | .psubw => some .psubw
  | .psubd => some .psubd
  | .psubq => some .psubq
  | .pcmpeqb => some .pcmpeqb
  | .pcmpeqw => some .pcmpeqw
  | .pcmpeqd => some .pcmpeqd
  | .pcmpeqq => some .pcmpeqq
  | .pcmpgtb => some .pcmpgtb
  | .pcmpgtw => some .pcmpgtw
  | .pcmpgtd => some .pcmpgtd
  | .pcmpgtq => some .pcmpgtq
  | .pand => some .pand
  | .pandn => some .pandn
  | .por => some .por
  | .pxor => some .pxor
  | _ => none

/-- An operand of these instructions: an XMM register by its number, or memory. -/
def sseArg : Operand → Option SseArg
  | .reg r _ => if isXmmReg r then some (.xmm (r.val - 16)) else none
  | .mem m => (addressOf m).map .mem
  | _ => none

/-- The opcode of the encoder has this meaning for the reader. -/
structure SseCode (code : SseOpcode) (entry : SseEntry) : Prop where
  mandatory : code.mandatory ∈ [[], [0x66], [0xF3], [0xF2]]
  escape : code.opcode = 0x0F :: code.opcode.tail
  reads : ∀ rest, sseEntry code.mandatory (code.opcode.tail ++ rest) = some (entry, rest)

def sseRex (r x b : Bool) : Option Byte :=
  if r || x || b then some (makeRex false r x b) else none

section Rex

variable (r x b : Bool)

theorem sseRex_isRex : ∀ p ∈ sseRex r x b, isRex p = true := by
  cases r <;> cases x <;> cases b <;> decide

theorem sseRex_r : rexBit (sseRex r x b) 2 = if r then 8 else 0 := by
  cases r <;> cases x <;> cases b <;> rfl

theorem sseRex_x : rexBit (sseRex r x b) 1 = if x then 8 else 0 := by
  cases r <;> cases x <;> cases b <;> rfl

theorem sseRex_b : rexBit (sseRex r x b) 0 = if b then 8 else 0 := by
  cases r <;> cases x <;> cases b <;> rfl

theorem sseRex_isSome : (sseRex r x b).isSome = (r || x || b) := by
  cases r <;> cases x <;> cases b <;> rfl

end Rex

def sseHead (code : SseOpcode) (r x b : Bool) : List Byte :=
  code.mandatory ++ ((sseRex r x b).toList ++ code.opcode)

theorem sseHead_eq (code : SseOpcode) (r x b : Bool) :
    code.mandatory ++ ((if r || x || b then [makeRex false r x b] else []) ++ code.opcode) =
      sseHead code r x b := by
  rw [sseHead, sseRex]
  cases r || x || b <;> rfl

instance (code : SseOpcode) (r x b : Bool) : Writes (emitSseHead code r x b) (sseHead code r x b) := by
  unfold emitSseHead
  exact Encoder.writes_of_eq inferInstance (sseHead_eq code r x b)

instance (code : SseOpcode) (r x b : Bool) : Puts (emitSseHead code r x b) (sseHead code r x b) := by
  unfold emitSseHead
  exact Encoder.puts_of_eq inferInstance (sseHead_eq code r x b)

theorem sseInstructionOf_head {code : SseOpcode} {entry : SseEntry} (hcode : SseCode code entry)
    (r x b : Bool) (modrm : List Byte) :
    sseInstructionOf (sseHead code r x b ++ modrm) = readSse (sseRex r x b) entry modrm := by
  have hlegacy : code.mandatory.all MachineCode.isLegacyPrefix = true := by
    have hall : ∀ legacy ∈ [[], [0x66], [0xF3], [0xF2]],
        List.all legacy MachineCode.isLegacyPrefix = true := by decide
    exact hall _ hcode.mandatory
  have hread := sseInstructionOf_append hlegacy (sseRex_isRex r x b) (hcode.reads modrm)
  rw [← hread, sseHead, hcode.escape]
  simp only [List.append_assoc, List.cons_append, List.tail_cons]

theorem xmm_number {r : Reg} (h : isXmmReg r = true) (size : RegSize) :
    (if isHighXmm (.reg r size) then 8 else 0) + (r.low &&& 7#8).toNat = r.val - 16 := by
  revert r
  show ∀ r : Reg, isXmmReg r = true →
    (if decide (24 ≤ r.val) then 8 else 0) + (r.low &&& 7#8).toNat = r.val - 16
  decide

/-- The encoders with an XMM destination and an XMM or memory source. -/
inductive SseFamily
  | arith | packedArith | packedCmp | packedLogic

def SseFamily.encode : SseFamily → ParsedInstruction → Encoder Unit
  | .arith => encodeSseArith
  | .packedArith => encodeSsePackedArith
  | .packedCmp => encodeSsePackedCmp
  | .packedLogic => encodeSsePackedLogic

def SseFamily.opcode : SseFamily → InstType → Option SseOpcode
  | .arith => sseArithOpcode
  | .packedArith => ssePackedArithOpcode
  | .packedCmp => ssePackedCmpOpcode
  | .packedLogic => ssePackedLogicOpcode

theorem SseFamily.encode_eq (family : SseFamily) : ∃ name dstSize unknown,
    family.encode = encodeSseBinary family.opcode name dstSize unknown := by
  cases family <;> exact ⟨_, _, _, rfl⟩

theorem sseArith_code {type : InstType} {code : SseOpcode} (h : sseArithOpcode type = some code) :
    ∃ o, sseOperation type = some o ∧ SseCode code ⟨o, false⟩ := by
  unfold sseArithOpcode at h
  split at h <;> cases h <;> exact ⟨_, rfl, by decide, rfl, fun _ => rfl⟩

theorem ssePackedArith_code {type : InstType} {code : SseOpcode}
    (h : ssePackedArithOpcode type = some code) :
    ∃ o, sseOperation type = some o ∧ SseCode code ⟨o, false⟩ := by
  unfold ssePackedArithOpcode at h
  split at h <;> cases h <;> exact ⟨_, rfl, by decide, rfl, fun _ => rfl⟩

theorem ssePackedCmp_code {type : InstType} {code : SseOpcode}
    (h : ssePackedCmpOpcode type = some code) :
    ∃ o, sseOperation type = some o ∧ SseCode code ⟨o, false⟩ := by
  unfold ssePackedCmpOpcode at h
  split at h <;> cases h <;> exact ⟨_, rfl, by decide, rfl, fun _ => rfl⟩

theorem ssePackedLogic_code {type : InstType} {code : SseOpcode}
    (h : ssePackedLogicOpcode type = some code) :
    ∃ o, sseOperation type = some o ∧ SseCode code ⟨o, false⟩ := by
  unfold ssePackedLogicOpcode at h
  split at h <;> cases h <;> exact ⟨_, rfl, by decide, rfl, fun _ => rfl⟩

theorem SseFamily.code {family : SseFamily} {type : InstType} {code : SseOpcode}
    (h : family.opcode type = some code) :
    ∃ o, sseOperation type = some o ∧ SseCode code ⟨o, false⟩ := by
  cases family with
  | arith => exact sseArith_code h
  | packedArith => exact ssePackedArith_code h
  | packedCmp => exact ssePackedCmp_code h
  | packedLogic => exact ssePackedLogic_code h

/-- The sources: an XMM register, or memory behind a base register. -/
inductive SseSource : Operand → Prop
  | xmm (r : Reg) : isXmmReg r = true → SseSource (.reg r .xmm)
  | mem (m : MemOperand) (base : Reg) : BaseOnly m base → SseSource (.mem m)

def sourceNumber : Operand → Nat
  | .reg r _ => r.val - 16
  | .mem m => (m.base.map Fin.val).getD 0
  | _ => 0

def sourceExtended (src : Operand) : Bool :=
  (Encoder.isXmmOperand src && isHighXmm src) || Encoder.memBaseExtended src

section Source

variable {src : Operand} (hsrc : SseSource src)

include hsrc

theorem SseSource.rm : RmOperand src := by
  cases hsrc with
  | xmm r _ => exact .reg r .xmm
  | mem m base hbase => exact .mem m base hbase

theorem SseSource.noIndex : Encoder.memIndexExtended src = false := by
  cases hsrc with
  | xmm r _ => rfl
  | mem m base hbase =>
      rw [Encoder.memIndexExtended, extendedIndex, hbase.index]
      rfl

theorem SseSource.extended : sourceExtended src = true ↔ 8 ≤ sourceNumber src := by
  cases hsrc with
  | xmm r hr =>
      have hhigh : sourceExtended (.reg r .xmm) = decide (24 ≤ r.val) := by
        rw [sourceExtended, Encoder.isXmmOperand, hr]
        exact Bool.or_false _
      rw [hhigh, decide_eq_true_iff, sourceNumber]
      omega
  | mem m base hbase =>
      have hhigh : sourceExtended (.mem m) = base.isExtended := by
        show extendedBase (some (.mem m)) = _
        rw [extendedBase, hbase.base_eq]
        rfl
      rw [hhigh, sourceNumber, hbase.base_eq, Reg.isExtended, decide_eq_true_iff]
      rfl

theorem SseSource.arg {rex : Option Byte}
    (hb : rexBit rex 0 = if sourceExtended src then 8 else 0) :
    sseArg src = some (rmField rex src).sseArg := by
  cases hsrc with
  | xmm r hr =>
      have hhigh : sourceExtended (.reg r .xmm) = isHighXmm (.reg r .xmm) := by
        rw [sourceExtended, Encoder.isXmmOperand, hr]
        exact Bool.or_false _
      have hnumber := xmm_number hr .xmm
      rw [hhigh] at hb
      rw [sseArg, if_pos hr, rmField, hb, hnumber]
      rfl
  | mem m base hbase =>
      have hhigh : sourceExtended (.mem m) = base.isExtended := by
        show extendedBase (some (.mem m)) = _
        rw [extendedBase, hbase.base_eq]
        rfl
      have hgeneral : generalRegisters m = true := by
        rw [generalRegisters, hbase.base_eq, hbase.index, Option.all_some,
          decide_eq_true hbase.general]
        rfl
      have hnumber : (if base.isExtended then 8 else 0) + (base.low &&& 7#8).toNat = base.val :=
        low_number hbase.general
      rw [hhigh] at hb
      rw [sseArg, addressOf_eq_some hgeneral, rmField, hbase.base_eq, hbase.index, hbase.plain,
        Option.map_some, hb]
      exact congrArg (fun n => some (SseArg.mem { base := some n, displacement := m.offset }))
        hnumber.symm

theorem SseSource.puts (digit : Byte) :
    Puts (Encoder.emitModrmSib digit src) (modrmBytes digit src) := by
  cases hsrc with
  | xmm r _ => infer_instance
  | mem m base hbase => exact hbase.puts digit

end Source

section Family

variable {family : SseFamily} {inst : ParsedInstruction} {code : SseOpcode} {dst : Reg}
  {src : Operand} (hcode : family.opcode inst.type = some code)
  (hops : inst.operands = [.reg dst .xmm, src]) (hdst : isXmmReg dst = true) (hsrc : SseSource src)

include hcode hops hdst hsrc

theorem SseFamily.puts : Puts (family.encode inst)
    (sseHead code (isHighXmm (.reg dst .xmm)) (Encoder.memIndexExtended src) (sourceExtended src) ++
      modrmBytes dst.low src) := by
  obtain ⟨name, dstSize, unknown, hencode⟩ := family.encode_eq
  have hbytes := hsrc.puts dst.low
  have hdst' : Encoder.isXmmOperand (.reg dst .xmm) = true := hdst
  have hsize : (Encoder.isXmmOperand src && !Encoder.hasXmmSize src) = false := by
    cases hsrc with
    | xmm r _ => exact Bool.and_false _
    | mem m base _ => rfl
  have hkind : (!Encoder.isXmmOperand src && !Encoder.isMemOperand src) = false := by
    cases hsrc with
    | xmm r hr =>
        rw [Encoder.isXmmOperand, hr]
        rfl
    | mem m base _ => rfl
  have hrun : family.encode inst = (Encoder.orDiag inst.lineNumber "Encoding" unknown (some code) >>=
      fun code => do
        emitSseHead code (isHighXmm (.reg dst .xmm)) (Encoder.memIndexExtended src)
          (sourceExtended src)
        Encoder.emitModrmSib dst.low src) := by
    rw [hencode, encodeSseBinary, hops]
    simp only [hdst', hsize, hkind, hcode]
    rfl
  rw [hrun]
  infer_instance

/-- With room in the buffer the encoder succeeds, and its bytes are the mandatory prefix, a REX prefix
exactly when a register number is at least eight, the opcode and the operands, from which the
operation, the destination and the source are read back. -/
theorem sseFamily_decodesBack :
    ∃ (o : SseOperation) (a : SseArg) (rex : Option Byte),
      sseOperation inst.type = some o ∧ sseArg src = some a ∧ SseCode code ⟨o, false⟩ ∧
      (∀ ctx : AssemblerContext,
        (code.mandatory ++ (rex.toList ++ (code.opcode ++ modrmBytes dst.low src))).length ≤ ctx.room →
          ∃ ctx', Encoder.run (family.encode inst) ctx = (some (), ctx') ∧ ctx'.buffer =
            ctx.buffer ++ (code.mandatory ++ (rex.toList ++ (code.opcode ++ modrmBytes dst.low src)))) ∧
      (∀ p ∈ rex, isRex p = true) ∧
      (rex.isSome = true ↔ 8 ≤ dst.val - 16 ∨ 8 ≤ sourceNumber src) ∧
      sseInstructionOf (code.mandatory ++ (rex.toList ++ (code.opcode ++ modrmBytes dst.low src))) =
        some ⟨o, .xmm (dst.val - 16), a⟩ := by
  obtain ⟨o, ho, hentry⟩ := SseFamily.code hcode
  have hputs := SseFamily.puts hcode hops hdst hsrc
  have hx := hsrc.noIndex
  rw [hx, sseHead] at hputs
  simp only [List.append_assoc] at hputs
  have hb := sseRex_b (isHighXmm (.reg dst .xmm)) false (sourceExtended src)
  have hr := sseRex_r (isHighXmm (.reg dst .xmm)) false (sourceExtended src)
  refine ⟨o, _, sseRex (isHighXmm (.reg dst .xmm)) false (sourceExtended src), ho, hsrc.arg hb,
    hentry, fun ctx hroom => hputs.run hroom, sseRex_isRex _ _ _, ?_, ?_⟩
  · rw [sseRex_isSome, Bool.or_false, Bool.or_eq_true, hsrc.extended]
    have hhigh : isHighXmm (.reg dst .xmm) = true ↔ 8 ≤ dst.val - 16 := by
      show decide (24 ≤ dst.val) = true ↔ _
      rw [decide_eq_true_iff]
      omega
    rw [hhigh]
  · have hread := sseInstructionOf_head hentry (isHighXmm (.reg dst .xmm)) false (sourceExtended src)
      (modrmBytes dst.low src)
    have hmodrm := @readModRm_modrmBytes
      (sseRex (isHighXmm (.reg dst .xmm)) false (sourceExtended src)) dst.low src hsrc.rm
      (sseRex_x _ _ _) []
    rw [List.append_nil] at hmodrm
    rw [readSse_of hmodrm, hr, xmm_number hdst .xmm, sseHead] at hread
    simp only [List.append_assoc] at hread
    exact hread

end Family

/-- `[r12 + 64]`. -/
def aboveR12 : MemOperand := { base := some 12, displacement := 64, hasDisplacement := true }

def pcmpgtqXmm9 : ParsedInstruction :=
  { type := .pcmpgtq, operands := [.reg 25 .xmm, .mem aboveR12] }

theorem sseFamily_decodesBack_pcmpgtqXmm9 :
    ∃ (o : SseOperation) (a : SseArg) (rex : Option Byte), sseOperation .pcmpgtq = some o ∧
      sseArg (.mem aboveR12) = some a ∧ SseCode ⟨[0x66], [0x0F, 0x38, 0x37]⟩ ⟨o, false⟩ ∧
      (∀ ctx : AssemblerContext,
        ([0x66#8] ++ (rex.toList ++ ([0x0F, 0x38, 0x37] ++ modrmBytes 1 (.mem aboveR12)))).length ≤
            ctx.room → ∃ ctx',
          Encoder.run (SseFamily.encode .packedCmp pcmpgtqXmm9) ctx = (some (), ctx') ∧
            ctx'.buffer = ctx.buffer ++
              ([0x66#8] ++ (rex.toList ++ ([0x0F, 0x38, 0x37] ++ modrmBytes 1 (.mem aboveR12))))) ∧
      (∀ p ∈ rex, isRex p = true) ∧
      (rex.isSome = true ↔ 8 ≤ 9 ∨ 8 ≤ sourceNumber (.mem aboveR12)) ∧
      sseInstructionOf
          ([0x66#8] ++ (rex.toList ++ ([0x0F, 0x38, 0x37] ++ modrmBytes 1 (.mem aboveR12)))) =
        some ⟨o, .xmm 9, a⟩ :=
  @sseFamily_decodesBack .packedCmp pcmpgtqXmm9 ⟨[0x66], [0x0F, 0x38, 0x37]⟩ 25 _ rfl rfl rfl
    (.mem aboveR12 12 ⟨rfl, by decide, rfl, rfl, by decide⟩)

end X86Assembler
