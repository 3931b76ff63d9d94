import X86Assembler.Dispatch

namespace X86Assembler

open CString (Byte)
open Encoder (jccCode shortDisplacement fitsInByte)

def isJcc (type : InstType) : Bool := (jccCode type).isSome

/-- Sizes of the instructions whose estimate does not depend on the operands. -/
def estimateByType (type : InstType) : Option Nat :=
  match type with
  | .nop | .ret | .leave | .hlt => some 1
  | .clc | .stc | .cmc | .cld | .std | .cli | .sti
  | .cwd | .cdq | .cqo | .cbw | .cwde | .cdqe => some 2
  | .int | .syscall | .sysret => some 2
  | .imul | .test | .movsx | .movzx => some 9
  | _ =>
    if isJcc type then some 6
    else if (Encoder.setccCode type).isSome then some 4
    else if (Encoder.cmovCode type).isSome then some 9
    else none

def estimateMov : List Operand → Nat
  | [.reg _ _, .label _] => 7
  | [.reg _ _, .imm v] => if Encoder.fitsInt32 v then 8 else 10
  | [.reg _ _, .reg _ _] => 3
  | [.reg _ _, .mem _] => 9
  | [.mem _, .reg _ _] => 9
  | [.mem _, .imm _] => 13
  | _ => 10

def estimateArithmetic : List Operand → Nat
  | [.reg _ _, .imm v] => if -128 ≤ v.toInt && v.toInt ≤ 127 then 4 else 7
  | [.reg _ _, .reg _ _] => 9
  | [.reg _ _, .mem _] => 9
  | [.mem _, .reg _ _] => 9
  | [.mem _, .imm _] => 14
  | _ => 10

def estimateShift : List Operand → Nat
  | [_, .imm _] => 4
  | [_, .reg r _] => if r.val = 1 then 3 else 9
  | _ => 9

def estimateInstructionSize (inst : ParsedInstruction) : Nat :=
  match estimateByType inst.type with
  | some n => n
  | none =>
    match inst.type, inst.operands with
    | .push, [.reg r _] => if r.isExtended then 2 else 1
    | .push, _ => 5
    | .pop, [.reg r _] => if r.isExtended then 2 else 1
    | .pop, _ => 1
    | .mov, ops => estimateMov ops
    | .add, ops | .sub, ops | .and, ops | .or, ops | .xor, ops | .cmp, ops | .adc, ops
    | .sbb, ops => estimateArithmetic ops
    | .inc, ops | .dec, ops | .neg, ops | .not, ops =>
      match ops with
      | [.reg _ _] => 3
      | [.mem _] => 9
      | _ => 4
    | .jmp, [.label _] | .call, [.label _] => 5
    | .jmp, [.reg _ _] | .call, [.reg _ _] => 3
    | .jmp, _ | .call, _ => 9
    | .lea, [_, .mem m] => if m.isRipRelative then 7 else 9
    | .lea, _ => 9
    | .xchg, [.reg _ _, .reg _ _] => 3
    | .xchg, _ => 9
    | .mul, [.reg _ _] | .div, [.reg _ _] | .idiv, [.reg _ _] => 3
    | .mul, _ | .div, _ | .idiv, _ => 9
    | .shl, ops | .shr, ops | .sal, ops | .sar, ops | .rol, ops | .ror, ops | .rcl, ops
    | .rcr, ops => estimateShift ops
    | _, _ => 15

def estimateInstructionSizeRelaxed (ctx : AssemblerContext) (inst : ParsedInstruction)
    (currentAddress : Word) : Nat :=
  match inst.operands with
  | [.label name] =>
    if inst.type = .jmp || isJcc inst.type then
      match findSymbolAddress ctx name with
      | some target =>
        if fitsInByte (shortDisplacement target currentAddress) then 2
        else estimateInstructionSize inst
      | none => estimateInstructionSize inst
    else estimateInstructionSize inst
  | _ => estimateInstructionSize inst

def isData : InstType → Bool
  | .db | .dw | .dd | .dq => true
  | _ => false

def isReserve : InstType → Bool
  | .resb | .resw | .resd | .resq => true
  | _ => false

/-- The size that the layout passes give to a data directive. -/
def dataSize (inst : ParsedInstruction) : Nat :=
  (inst.operands.map fun op => match op with
    | .string text => if inst.type = .db then text.bytes.length else itemSize inst.type
    | _ => itemSize inst.type).sum

/-- `(int64_t)count * size` of a reserve directive, when its operand is a number. -/
def reserveBytes (inst : ParsedInstruction) : Option Word :=
  match inst.operands with
  | .imm count :: _ => some (count * BitVec.ofNat 64 (itemSize inst.type))
  | _ => none

/-- A `nop` without operands on a labelled line, which is how a line that holds only a
label is represented. -/
def isLabelOnly (inst : ParsedInstruction) : Bool :=
  inst.type == .nop && inst.operands.isEmpty && inst.label.isSome

def relaxedSize (ctx : AssemblerContext) (inst : ParsedInstruction) (address : Word) : Word :=
  match inst.type with
  | .global | .externSym | .weak | .hidden | .times | .equ => 0
  | _ =>
    if isLabelOnly inst then 0
    else if isData inst.type then BitVec.ofNat 64 (dataSize inst)
    else if isReserve inst.type then (reserveBytes inst).getD 0
    else BitVec.ofNat 64 (estimateInstructionSizeRelaxed ctx inst address)

structure RelaxState where
  ctx : AssemblerContext
  address : Word
  sect : SectionId := .text
  changed : Bool := false

/-- The section that `recompute_text_layout_relaxed` takes from a directive; without a name
it is the text section. -/
def relaxedSectionOf (inst : ParsedInstruction) : SectionId :=
  match sectionNameFromInstruction inst with
  | some name => classifySectionName name
  | none => .text

def relaxLabel (st : RelaxState) (inst : ParsedInstruction) : RelaxState :=
  match inst.label with
  | none => st
  | some name =>
    match findSymbolEntry st.ctx name with
    | none => st
    | some sym =>
      if sym.address = st.address then st
      else
        let ctx := updateFirstSymbol st.ctx name fun sym => { sym with address := st.address }
        { st with
          ctx := symbolHashUpdate ctx name st.address sym.isGlobal sym.isExternal sym.sect
          changed := true }

def relaxStep (st : RelaxState) (inst : ParsedInstruction) : RelaxState :=
  if inst.type = .sectionDir then { st with sect := relaxedSectionOf inst }
  else if st.sect = .data then st
  else
    let st := relaxLabel st inst
    { st with address := st.address + relaxedSize st.ctx inst st.address }

def relaxIteration (ctx : AssemblerContext) (insts : List ParsedInstruction) : RelaxState :=
  insts.foldl relaxStep { ctx, address := ctx.baseAddress }

def relaxIterations : Nat → AssemblerContext → List ParsedInstruction → AssemblerContext
  | 0, ctx, _ => ctx
  | n + 1, ctx, insts =>
    let st := relaxIteration ctx insts
    if st.changed then relaxIterations n st.ctx insts else st.ctx

def recomputeTextLayoutRelaxed (ctx : AssemblerContext) (insts : List ParsedInstruction) :
    AssemblerContext :=
  relaxIterations 8 ctx insts

end X86Assembler
