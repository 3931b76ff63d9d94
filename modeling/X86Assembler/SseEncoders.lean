import X86Assembler.Encoders

namespace X86Assembler.Encoder

open CString (Byte)

/-- The `reg` field of an operand; the parser clears the fields an operand does not use. -/
def regField : Operand → Reg
  | .reg r _ => r
  | _ => 0

def isXmmOperand : Operand → Bool
  | .reg r _ => isXmmReg r
  | _ => false

def isMemOperand : Operand → Bool
  | .mem _ => true
  | _ => false

def hasXmmSize : Operand → Bool
  | .reg _ size => size == .xmm
  | _ => false

/-- XMM8 to XMM15, the registers that need an extension bit. -/
def isHighXmm : Operand → Bool
  | .reg r _ => 24 ≤ r.val
  | _ => false

def memBaseExtended (op : Operand) : Bool := extendedBase (some op)
def memIndexExtended (op : Operand) : Bool := extendedIndex (some op)

/-- Mandatory prefix, opcode escape and opcode of an SSE instruction. -/
structure SseOpcode where
  mandatory : List Byte
  opcode : List Byte

def emitSseHead (code : SseOpcode) (rexR rexX rexB : Bool) : Encoder Unit := do
  emitBytes code.mandatory
  when (rexR || rexX || rexB) (emitByte (makeRex false rexR rexX rexB))
  emitBytes code.opcode

def sseMovOpcode (store : Bool) : InstType → Option SseOpcode
  | .movaps => some ⟨[], [0x0F, if store then 0x29 else 0x28]⟩
  | .movups => some ⟨[], [0x0F, if store then 0x11 else 0x10]⟩
  | .movss => some ⟨[0xF3], [0x0F, if store then 0x11 else 0x10]⟩
  | .movapd => some ⟨[0x66], [0x0F, if store then 0x29 else 0x28]⟩
  | .movupd => some ⟨[0x66], [0x0F, if store then 0x11 else 0x10]⟩
  | .movsdXmm => some ⟨[0xF2], [0x0F, if store then 0x11 else 0x10]⟩
  | .movdqa => some ⟨[0x66], [0x0F, if store then 0x7F else 0x6F]⟩
  | .movdqu => some ⟨[0xF3], [0x0F, if store then 0x7F else 0x6F]⟩
  | _ => none

def encodeSseMov (inst : ParsedInstruction) : Encoder Unit :=
  match inst.operands with
  | [dst, src] =>
    let store := isMemOperand dst
    if isXmmOperand dst && !hasXmmSize dst then
      diag inst.lineNumber "Encoding" "SSE move XMM destination must use xmm register size"
    else if isXmmOperand src && !hasXmmSize src then
      diag inst.lineNumber "Encoding" "SSE move XMM source must use xmm register size"
    else if store && isMemOperand src then
      diag inst.lineNumber "Encoding" "SSE move cannot have two memory operands"
    else if store && !isXmmOperand src then
      diag inst.lineNumber "Encoding" "SSE move memory destination requires XMM source"
    else if isXmmOperand dst && !isXmmOperand src && !isMemOperand src then
      diag inst.lineNumber "Encoding" "SSE move XMM destination requires XMM or memory source"
    else if !isXmmOperand dst && !isXmmOperand src then
      diag inst.lineNumber "Encoding" "SSE move requires at least one XMM operand"
    else do
      let code ← orDiag inst.lineNumber "Encoding" "Unknown SSE move instruction"
        (sseMovOpcode store inst.type)
      let rexR := isHighXmm (if store then src else dst)
      let rexX := memIndexExtended src || memIndexExtended dst
      let rexB := isHighXmm (if store then dst else src) || memBaseExtended src ||
        memBaseExtended dst
      emitSseHead code rexR rexX rexB
      if store then emitModrmSib (regField src).low dst
      else if isMemOperand src then emitModrmSib (regField dst).low src
      else emitByte (makeModrm 3 (regField dst).low (regField src).low)
  | _ => diag inst.lineNumber "Encoding" "SSE move requires 2 operands"

/-- The four families with an XMM destination and an XMM or memory source; `name` is what
their messages call the family. -/
def encodeSseBinary (opcode : InstType → Option SseOpcode) (name : String)
    (dstSizeMessage unknownMessage : String) (inst : ParsedInstruction) : Encoder Unit :=
  match inst.operands with
  | [dst, src] =>
    if !isXmmOperand dst then
      diag inst.lineNumber "Encoding" (name ++ " destination must be XMM register")
    else if !hasXmmSize dst then
      diag inst.lineNumber "Encoding" dstSizeMessage
    else if isXmmOperand src && !hasXmmSize src then
      diag inst.lineNumber "Encoding" (name ++ " XMM source must use xmm register size")
    else if !isXmmOperand src && !isMemOperand src then
      diag inst.lineNumber "Encoding" (name ++ " source must be XMM or memory")
    else do
      let code ← orDiag inst.lineNumber "Encoding" unknownMessage (opcode inst.type)
      let rexR := isHighXmm dst
      let rexB := (isXmmOperand src && isHighXmm src) || memBaseExtended src
      emitSseHead code rexR (memIndexExtended src) rexB
      emitModrmSib (regField dst).low src
  | _ => diag inst.lineNumber "Encoding" (name ++ " requires 2 operands")

def sseArithOpcode : InstType → Option SseOpcode
  | .addss => some ⟨[0xF3], [0x0F, 0x58]⟩
  | .addps => some ⟨[], [0x0F, 0x58]⟩
  | .addsd => some ⟨[0xF2], [0x0F, 0x58]⟩
  | .addpd => some ⟨[0x66], [0x0F, 0x58]⟩
  | .subss => some ⟨[0xF3], [0x0F, 0x5C]⟩
  | .subps => some ⟨[], [0x0F, 0x5C]⟩
  | .subsd => some ⟨[0xF2], [0x0F, 0x5C]⟩
  | .subpd => some ⟨[0x66], [0x0F, 0x5C]⟩
  | .mulss => some ⟨[0xF3], [0x0F, 0x59]⟩
  | .mulps => some ⟨[], [0x0F, 0x59]⟩
  | .mulsd => some ⟨[0xF2], [0x0F, 0x59]⟩
  | .mulpd => some ⟨[0x66], [0x0F, 0x59]⟩
  | .divss => some ⟨[0xF3], [0x0F, 0x5E]⟩
  | .divps => some ⟨[], [0x0F, 0x5E]⟩
  | .divsd => some ⟨[0xF2], [0x0F, 0x5E]⟩
  | .divpd => some ⟨[0x66], [0x0F, 0x5E]⟩
  | _ => none

def encodeSseArith : ParsedInstruction → Encoder Unit :=
  encodeSseBinary sseArithOpcode "SSE arithmetic"
    "SSE arithmetic destination must use xmm register size"
    "Unknown SSE arithmetic instruction"

def ssePackedArithOpcode : InstType → Option SseOpcode
  | .paddb => some ⟨[0x66], [0x0F, 0xFC]⟩
  | .paddw => some ⟨[0x66], [0x0F, 0xFD]⟩
  | .paddd => some ⟨[0x66], [0x0F, 0xFE]⟩
  | .paddq => some ⟨[0x66], [0x0F, 0xD4]⟩
  | .psubb => some ⟨[0x66], [0x0F, 0xF8]⟩
  | .psubw => some ⟨[0x66], [0x0F, 0xF9]⟩
  | .psubd => some ⟨[0x66], [0x0F, 0xFA]⟩
  | .psubq => some ⟨[0x66], [0x0F, 0xFB]⟩
  | _ => none

def encodeSsePackedArith : ParsedInstruction → Encoder Unit :=
  encodeSseBinary ssePackedArithOpcode "SSE packed arithmetic"
    "SSE packed arithmetic XMM destination must use xmm register size"
    "Unknown SSE packed arithmetic instruction"

def ssePackedCmpOpcode : InstType → Option SseOpcode
  | .pcmpeqb => some ⟨[0x66], [0x0F, 0x74]⟩
  | .pcmpeqw => some ⟨[0x66], [0x0F, 0x75]⟩
  | .pcmpeqd => some ⟨[0x66], [0x0F, 0x76]⟩
  | .pcmpeqq => some ⟨[0x66], [0x0F, 0x38, 0x29]⟩
  | .pcmpgtb => some ⟨[0x66], [0x0F, 0x64]⟩
  | .pcmpgtw => some ⟨[0x66], [0x0F, 0x65]⟩
  | .pcmpgtd => some ⟨[0x66], [0x0F, 0x66]⟩
  | .pcmpgtq => some ⟨[0x66], [0x0F, 0x38, 0x37]⟩
  | _ => none

def encodeSsePackedCmp : ParsedInstruction → Encoder Unit :=
  encodeSseBinary ssePackedCmpOpcode "SSE packed compare"
    "SSE packed compare XMM destination must use xmm register size"
    "Unknown SSE packed compare instruction"

def ssePackedLogicOpcode : InstType → Option SseOpcode
  | .pand => some ⟨[0x66], [0x0F, 0xDB]⟩
  | .pandn => some ⟨[0x66], [0x0F, 0xDF]⟩
  | .por => some ⟨[0x66], [0x0F, 0xEB]⟩
  | .pxor => some ⟨[0x66], [0x0F, 0xEF]⟩
  | _ => none

def encodeSsePackedLogic : ParsedInstruction → Encoder Unit :=
  encodeSseBinary ssePackedLogicOpcode "SSE logical instruction"
    "SSE logical instruction XMM destination must use xmm register size"
    "Unknown SSE logical instruction"

end X86Assembler.Encoder
