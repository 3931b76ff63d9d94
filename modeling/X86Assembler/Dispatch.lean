import X86Assembler.ControlFlow

namespace X86Assembler

open CString (Byte)
open LittleEndian (leBytes)

/-- `section_name_matches`: an optional dot, the base name in any case, and then the end
of the name or a dot. -/
def sectionNameMatches (sectionName base : List Byte) : Bool :=
  let name := if sectionName.head? = some 0x2E#8 then sectionName.tail else sectionName
  CString.startsWithIgnoreCase name base && base.length ≤ name.length &&
    (match name[base.length]? with
      | none => true
      | some b => b == 0x2E#8)

def classifySectionName (sectionName : List Byte) : SectionId :=
  if sectionNameMatches sectionName (CString.str "data") ||
      sectionNameMatches sectionName (CString.str "bss") ||
      sectionNameMatches sectionName (CString.str "rodata") then .data
  else .text

def sectionNameFromInstruction (inst : ParsedInstruction) : Option (List Byte) :=
  match inst.operands with
  | .label name :: _ => some name.bytes
  | .string text :: _ => some text.bytes
  | _ => none

/-- The section after a section directive; a directive without a name changes nothing. -/
def sectionAfterDirective (current : SectionId) (inst : ParsedInstruction) : SectionId :=
  match sectionNameFromInstruction inst with
  | some name => classifySectionName name
  | none => current

def applySectionDirective (ctx : AssemblerContext) (inst : ParsedInstruction) :
    AssemblerContext :=
  { ctx with currentSection := sectionAfterDirective ctx.currentSection inst }

def segmentOf : Operand → MemSegment
  | .mem m => m.segmentOverride
  | _ => .default

/-- The segment override of an instruction; `none` when two operands disagree. -/
def segmentOverride (operands : List Operand) : Option MemSegment :=
  operands.foldl
    (fun acc op => acc.bind fun seg =>
      if segmentOf op = .default then some seg
      else if seg ≠ .default && seg ≠ segmentOf op then none
      else some (segmentOf op))
    (some .default)

namespace Encoder

def segmentPrefix (inst : ParsedInstruction) : Encoder Unit :=
  match segmentOverride inst.operands with
  | none => diag inst.lineNumber "Operand"
      "Conflicting segment overrides on memory operands"
  | some .fs => emitByte 0x64
  | some .gs => emitByte 0x65
  | some .default => pure ()

/-- The encoder of a machine instruction; `none` for everything else. -/
def machineEncoder : InstType → Option (ParsedInstruction → Encoder Unit)
  | .mov | .movzx | .movsx => some encodeMov
  | .push | .pop => some encodePushPop
  | .add | .adc | .sub | .sbb | .xor | .or | .and | .cmp => some encodeArithmetic
  | .inc | .dec | .neg | .not => some encodeUnaryArithmetic
  | .lea => some encodeLea
  | .jmp => some encodeJmp
  | .ja | .jae | .jb | .jbe | .je | .jg | .jge | .jl | .jle | .jne | .jnz | .jno | .jnp | .jns
  | .jo | .jp | .js => some encodeJcc
  | .call | .ret => some encodeCallRet
  | .int => some encodeInt
  | .syscall => some encodeSyscall
  | .sysret => some encodeSysret
  | .nop => some encodeNop
  | .hlt => some encodeHlt
  | .cwd | .cqo | .cdq => some encodeCwdCdqCqo
  | .cbw | .cwde | .cdqe => some encodeCbwCwdeCdqe
  | .clc | .stc | .cmc => some encodeClcStcCmc
  | .cld | .std => some encodeCldStd
  | .cli | .sti => some encodeCliSti
  | .leave => some encodeLeave
  | .enter => some encodeEnter
  | .seta | .setae | .setb | .setbe | .sete | .setg | .setge | .setl | .setle | .setne | .setno
  | .setnp | .setns | .seto | .setp | .sets => some encodeSetcc
  | .cmova | .cmovae | .cmovb | .cmovbe | .cmove | .cmovg | .cmovge | .cmovl | .cmovle | .cmovne
  | .cmovno | .cmovnp | .cmovns | .cmovo | .cmovp | .cmovs => some encodeCmov
  | .xchg => some encodeXchg
  | .bswap => some encodeBswap
  | .imul => some encodeImul
  | .mul | .div | .idiv => some encodeDivIdivMul
  | .test => some encodeTest
  | .shl | .shr | .sal | .sar | .rol | .ror | .rcl | .rcr => some encodeShift
  | .shld | .shrd => some encodeShldShrd
  | .bt | .bts | .btr | .btc => some encodeBitManip
  | .bsf | .bsr => some encodeBitScan
  | .movsb | .movsw | .movsd | .movsq => some encodeString
  | .movaps | .movups | .movss | .movapd | .movupd | .movsdXmm | .movdqa | .movdqu =>
    some encodeSseMov
  | .addss | .addps | .addsd | .addpd | .subss | .subps | .subsd | .subpd
  | .mulss | .mulps | .mulsd | .mulpd | .divss | .divps | .divsd | .divpd => some encodeSseArith
  | .paddb | .paddw | .paddd | .paddq | .psubb | .psubw | .psubd | .psubq =>
    some encodeSsePackedArith
  | .pcmpeqb | .pcmpeqw | .pcmpeqd | .pcmpeqq | .pcmpgtb | .pcmpgtw | .pcmpgtd | .pcmpgtq =>
    some encodeSsePackedCmp
  | .pand | .pandn | .por | .pxor => some encodeSsePackedLogic
  | _ => none

end Encoder

/-- The bytes of one item of `db`, `dw`, `dd` and `dq`, and of a reserved cell. -/
def itemSize : InstType → Nat
  | .db | .resb => 1
  | .dw | .resw => 2
  | .dd | .resd => 4
  | _ => 8

/-- The bytes that a data directive emits for one operand: a number as a cell, a string
only under `db`, and nothing for any other operand. -/
def dataItemBytes (type : InstType) : Operand → List Byte
  | .imm v => leBytes (itemSize type) v
  | .string text => if type = .db then text.bytes else []
  | _ => []

def encodeData (inst : ParsedInstruction) : Asm Unit :=
  emitUnchecked (inst.operands.flatMap (dataItemBytes inst.type))

/-- `(int64_t)count * size`, or nothing without an immediate operand. -/
def reserveSize (inst : ParsedInstruction) : Nat :=
  match inst.operands with
  | .imm count :: _ => (count * BitVec.ofNat 64 (itemSize inst.type)).toInt.toNat
  | _ => 0

def encodeReserve (inst : ParsedInstruction) : Asm Unit :=
  emitUnchecked (List.replicate (reserveSize inst) 0)

/-- `(address + alignment - 1) & ~(alignment - 1)`. -/
def alignUp (address alignment : Word) : Word := (address + alignment - 1) &&& ~~~(alignment - 1)

/-- `(int)(aligned - address)`, as the bound of a loop from zero. -/
def alignPadding (address alignment : Word) : Nat :=
  ((alignUp address alignment - address).setWidth 32 : BitVec 32).toInt.toNat

def isPowerOfTwo (alignment : BitVec 32) : Bool :=
  0 < alignment.toInt && (alignment &&& (alignment - 1)) == 0

def fillByte : SectionId → Byte
  | .text => 0x90
  | .data => 0

def encodeAlign (inst : ParsedInstruction) : Asm Unit := fun ctx =>
  match inst.operands with
  | .imm v :: _ =>
      let alignment : BitVec 32 := v.setWidth 32
      if isPowerOfTwo alignment then
        emitUnchecked (List.replicate
          (alignPadding ctx.currentAddress (alignment.signExtend 64))
          (fillByte ctx.currentSection)) ctx
      else (none, ctx.report
        { line := inst.lineNumber, category := "Directive",
          message := "align directive requires a power of 2" })
  | _ => (none, ctx.report
      { line := inst.lineNumber, category := "Directive",
        message := "align directive requires an immediate operand" })

def encodeIncbin (inst : ParsedInstruction) : Asm Unit := fun ctx =>
  match inst.operands with
  | .string filename :: _ =>
      match ctx.files filename with
      | some content => emitUnchecked content ctx
      | none => (none, ctx.report
          { line := inst.lineNumber, category := "I/O", message := "Cannot open incbin file '%s'",
            args := [filename.bytes] })
  | _ => (none, ctx.report
      { line := inst.lineNumber, category := "Directive",
        message := "incbin directive requires a string filename" })

def commName (type : InstType) : String := if type = .comm then ".comm" else ".lcomm"

/-- The `immediate` field of an operand, zero unless it is an immediate. -/
def immediateField : Operand → Word
  | .imm v => v
  | _ => 0

def commAlignment (rest : List Operand) : Word :=
  match rest with
  | op :: _ => immediateField op
  | [] => 1

/-- The address of a common symbol and the padding in front of it. -/
def commAddress (address alignment : Word) : Word :=
  if 1 < alignment.toInt then alignUp address alignment else address

def commPadding (address alignment : Word) : Nat :=
  if 1 < alignment.toInt then alignPadding address alignment else 0

def encodeComm (inst : ParsedInstruction) : Asm Unit := fun ctx =>
  match inst.operands with
  | .label symbol :: .imm size :: rest =>
      if size.toInt ≤ 0 then
        (none, ctx.report
          { line := inst.lineNumber, category := "Directive",
            message := commName inst.type ++ " size must be positive" })
      else
        let alignment := commAlignment rest
        let address := commAddress ctx.currentAddress alignment
        let body : Asm Unit := do
          emitUnchecked (List.replicate (commPadding ctx.currentAddress alignment) 0)
          Fallible.ignore (addSymbol symbol address (inst.type == .comm) false (some .data))
          emitUnchecked (List.replicate size.toInt.toNat 0)
        body ctx
  | _ => (none, ctx.report
      { line := inst.lineNumber, category := "Directive",
        message := commName inst.type ++ " requires symbol name and size" })

/-- The groups of directives that `encode_instruction` treats alike; `silent` ones emit
nothing. -/
inductive DirectiveKind
  | data | reserve | silent | sectionChange | align | incbin | comm
deriving DecidableEq

def directiveKind : InstType → Option DirectiveKind
  | .db | .dw | .dd | .dq => some .data
  | .resb | .resw | .resd | .resq => some .reserve
  | .equ | .times | .global | .externSym | .weak | .hidden => some .silent
  | .sectionDir => some .sectionChange
  | .align => some .align
  | .incbin => some .incbin
  | .comm | .lcomm => some .comm
  | _ => none

/-- The cases of `encode_instruction` that are not machine instructions. -/
def encodeDirective (inst : ParsedInstruction) : Asm Unit :=
  match directiveKind inst.type with
  | some .data => encodeData inst
  | some .reserve => encodeReserve inst
  | some .silent => pure ()
  | some .sectionChange => Fallible.modify fun ctx => applySectionDirective ctx inst
  | some .align => encodeAlign inst
  | some .incbin => encodeIncbin inst
  | some .comm => encodeComm inst
  | none =>
    reportError
      { line := inst.lineNumber, category := "Internal", message := "Unhandled instruction type" }

/-- `encode_instruction`. -/
def encodeInstruction (inst : ParsedInstruction) : Asm Unit := do
  Encoder.run (Encoder.segmentPrefix inst)
  match Encoder.machineEncoder inst.type with
  | some encode => Encoder.run (encode inst)
  | none => encodeDirective inst

end X86Assembler
