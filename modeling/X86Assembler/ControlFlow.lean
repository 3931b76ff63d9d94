import X86Assembler.SseEncoders

namespace X86Assembler.Encoder

open CString (Byte)

def jccCode : InstType → Option Byte
  | .ja => some 0x7 | .jae => some 0x3 | .jb => some 0x2 | .jbe => some 0x6
  | .je => some 0x4 | .jg => some 0xF | .jge => some 0xD | .jl => some 0xC
  | .jle => some 0xE | .jne => some 0x5 | .jnz => some 0x5 | .jno => some 0x1
  | .jnp => some 0xB | .jns => some 0x9 | .jo => some 0x0 | .jp => some 0xA
  | .js => some 0x8
  | _ => none

def setccCode : InstType → Option Byte
  | .seta => some 0x7 | .setae => some 0x3 | .setb => some 0x2 | .setbe => some 0x6
  | .sete => some 0x4 | .setg => some 0xF | .setge => some 0xD | .setl => some 0xC
  | .setle => some 0xE | .setne => some 0x5 | .setno => some 0x1 | .setnp => some 0xB
  | .setns => some 0x9 | .seto => some 0x0 | .setp => some 0xA | .sets => some 0x8
  | _ => none

def cmovCode : InstType → Option Byte
  | .cmova => some 0x7 | .cmovae => some 0x3 | .cmovb => some 0x2 | .cmovbe => some 0x6
  | .cmove => some 0x4 | .cmovg => some 0xF | .cmovge => some 0xD | .cmovl => some 0xC
  | .cmovle => some 0xE | .cmovne => some 0x5 | .cmovno => some 0x1 | .cmovnp => some 0xB
  | .cmovns => some 0x9 | .cmovo => some 0x0 | .cmovp => some 0xA | .cmovs => some 0x8
  | _ => none

/-- `(int64_t)target - (int64_t)(address + 2)`, the displacement of a short branch. -/
def shortDisplacement (target address : Word) : Word := target - (address + 2)

def fitsInByte (v : Word) : Bool := -128 ≤ v.toInt && v.toInt ≤ 127

/-- The displacement of the short form, when the encoder picks it. -/
def shortBranch (env : EncodeEnv) (name : Label) : Option Word :=
  match env.getSymbolInfo name with
  | some sym =>
      let rel := shortDisplacement sym.address env.currentAddress
      if sym.isResolved && (env.enableForwardShortBranches || sym.address < env.currentAddress) &&
          fitsInByte rel then some rel
      else none
  | none => none

/-- A branch to a label: the short form, or the near opcode bytes and a fixup. -/
def encodeBranch (short : Byte) (near : List Byte) (type : InstType) (name : Label) :
    Encoder Unit := do
  let env ← getEnv
  match shortBranch env name with
  | some rel => do
    emitByte short
    emitByte (rel.setWidth 8)
  | none => do
    emitBytes near
    addControlflowFixup name 4 type
    emitLe32 0

/-- The indirect forms of `jmp` and `call`. -/
def encodeIndirect (regOpcode : Byte) (op : Operand) : Encoder Unit := do
  emitRex true none op none
  emitByte 0xFF
  emitModrmSib regOpcode op

def encodeJmp (inst : ParsedInstruction) : Encoder Unit :=
  match inst.operands with
  | [.label name] => encodeBranch 0xEB [0xE9] .jmp name
  | [.reg r size] => encodeIndirect 4 (.reg r size)
  | [.mem m] => encodeIndirect 4 (.mem m)
  | [_] => diag inst.lineNumber "Encoding" "Unsupported jmp operand type."
  | _ => diag inst.lineNumber "Encoding"
      "Provide exactly one operand for jmp (label, register, or memory target)."

def encodeJcc (inst : ParsedInstruction) : Encoder Unit :=
  match inst.operands with
  | [.label name] => do
    let cc ← orDiag inst.lineNumber "Encoding" "Unknown conditional jump mnemonic."
      (jccCode inst.type)
    encodeBranch (0x70 + cc) [0x0F, 0x80 + cc] inst.type name
  | [_] => diag inst.lineNumber "Encoding" "Conditional jump target must be a label."
  | _ => diag inst.lineNumber "Encoding" "Conditional jump requires exactly one label operand."

def encodeCallRet (inst : ParsedInstruction) : Encoder Unit :=
  if inst.type = .ret then
    match inst.operands with
    | [] => emitByte 0xC3
    | [.imm v] => do
      emitByte 0xC2
      emitLe16 (v.setWidth 16)
    | _ => diag inst.lineNumber "Encoding"
        "ret supports no operands or a single immediate stack-pop value."
  else if inst.type = .call then
    match inst.operands with
    | [.label name] => do
      emitByte 0xE8
      addControlflowFixup name 4 .call
      emitLe32 0
    | [.reg r size] => encodeIndirect 2 (.reg r size)
    | [.mem m] => encodeIndirect 2 (.mem m)
    | [_] => diag inst.lineNumber "Encoding" "Unsupported call/ret operand form."
    | _ => diag inst.lineNumber "Encoding" "call requires exactly one operand."
  else diag inst.lineNumber "Encoding" "Unsupported call/ret operand form."

def encodeSyscall (_inst : ParsedInstruction) : Encoder Unit := emitBytes [0x0F, 0x05]
def encodeSysret (_inst : ParsedInstruction) : Encoder Unit := emitBytes [0x0F, 0x07]
def encodeHlt (_inst : ParsedInstruction) : Encoder Unit := emitByte 0xF4
def encodeLeave (_inst : ParsedInstruction) : Encoder Unit := emitByte 0xC9

def encodeNop (inst : ParsedInstruction) : Encoder Unit :=
  match inst.operands with
  | [] => emitByte 0x90
  | _ => diag inst.lineNumber "Encoding" "nop with operands is not supported."

def encodeInt (inst : ParsedInstruction) : Encoder Unit :=
  match inst.operands with
  | [.imm v] => do
    emitByte 0xCD
    emitByte (v.setWidth 8)
  | _ => diag inst.lineNumber "Encoding" "int requires exactly one immediate operand."

/-- The instructions without operands that are a table of bytes. -/
def encodeFixed (bytes : InstType → Option (List Byte)) (operandsMessage unknownMessage : String)
    (inst : ParsedInstruction) : Encoder Unit :=
  if inst.operands ≠ [] then diag inst.lineNumber "Encoding" operandsMessage
  else do
    let bs ← orDiag inst.lineNumber "Encoding" unknownMessage (bytes inst.type)
    emitBytes bs

def cwdBytes : InstType → Option (List Byte)
  | .cwd => some [0x66, 0x99]
  | .cdq => some [0x99]
  | .cqo => some [0x48, 0x99]
  | _ => none

def encodeCwdCdqCqo : ParsedInstruction → Encoder Unit :=
  encodeFixed cwdBytes "cwd/cdq/cqo do not take operands."
    "Invalid instruction for cwd/cdq/cqo encoder."

def cbwBytes : InstType → Option (List Byte)
  | .cbw => some [0x66, 0x98]
  | .cwde => some [0x98]
  | .cdqe => some [0x48, 0x98]
  | _ => none

def encodeCbwCwdeCdqe : ParsedInstruction → Encoder Unit :=
  encodeFixed cbwBytes "cbw/cwde/cdqe do not take operands."
    "Invalid instruction for cbw/cwde/cdqe encoder."

def flagByte : InstType → Option Byte
  | .clc => some 0xF8 | .stc => some 0xF9 | .cmc => some 0xF5
  | .cld => some 0xFC | .std => some 0xFD
  | .cli => some 0xFA | .sti => some 0xFB
  | _ => none

/-- The source prints nothing when the type is not one of its own; the dispatcher never
sends such a type here. -/
def encodeFlag (inst : ParsedInstruction) : Encoder Unit := do
  let b ← orDiag inst.lineNumber "Encoding" "" (flagByte inst.type)
  emitByte b

def encodeClcStcCmc : ParsedInstruction → Encoder Unit := encodeFlag
def encodeCldStd : ParsedInstruction → Encoder Unit := encodeFlag
def encodeCliSti : ParsedInstruction → Encoder Unit := encodeFlag

def encodeEnter (inst : ParsedInstruction) : Encoder Unit :=
  match inst.operands with
  | [.imm size, .imm nest] =>
    if size.toInt < 0 || 0xFFFF < size.toInt then
      diag inst.lineNumber "Constraint"
        ("enter first operand must fit in 16 bits (got " ++ toString size.toInt ++ ")")
    else if nest.toInt < 0 || 0xFF < nest.toInt then
      diag inst.lineNumber "Constraint"
        ("enter second operand must fit in 8 bits (got " ++ toString nest.toInt ++ ")")
    else do
      emitByte 0xC8
      emitLe16 (size.setWidth 16)
      emitByte (nest.setWidth 8)
  | [_, _] => diag inst.lineNumber "Encoding" "enter operands must both be immediates."
  | _ => diag inst.lineNumber "Encoding" "enter requires exactly two immediate operands."

def encodeSetcc (inst : ParsedInstruction) : Encoder Unit :=
  match inst.operands with
  | [op] =>
    match op with
    | .reg _ _ | .mem _ =>
      if !isMemOperand op && operandSize op != .size8 && operandSize op != .size8h then
        diag inst.lineNumber "Constraint" "setcc requires an 8-bit destination register."
      else do
        let cc ← orDiag inst.lineNumber "Encoding" "" (setccCode inst.type)
        emitRex false none op none
        emitBytes [0x0F, 0x90 + cc]
        emitModrmSib 0 op
    | _ => diag inst.lineNumber "Encoding"
        "setcc destination must be a register or memory operand."
  | _ => diag inst.lineNumber "Encoding" "setcc requires exactly one destination operand."

def encodeCmov (inst : ParsedInstruction) : Encoder Unit :=
  match inst.operands with
  | [.reg r size, src] =>
    match src with
    | .reg _ _ | .mem _ =>
      if size == .size8 || size == .size8h || size == .xmm then
        diag inst.lineNumber "Constraint"
          "cmov supports only 16-bit, 32-bit, or 64-bit general-purpose registers."
      else if !isMemOperand src && operandSize src != size then
        diag inst.lineNumber "Constraint" "cmov source and destination register sizes must match."
      else do
        let cc ← orDiag inst.lineNumber "Encoding" "Unknown cmov variant." (cmovCode inst.type)
        when (size == .size16) (emitByte 0x66)
        emitRex (size == .size64) (Operand.reg r size) src none
        emitBytes [0x0F, 0x40 + cc]
        emitModrmSib r.low src
    | _ => diag inst.lineNumber "Encoding" "cmov source must be a register or memory operand."
  | [_, _] => diag inst.lineNumber "Encoding" "cmov destination must be a register."
  | _ => diag inst.lineNumber "Encoding" "cmov requires exactly two operands."

def encodeBswap (inst : ParsedInstruction) : Encoder Unit :=
  match inst.operands with
  | [.reg r size] =>
    if size != .size32 && size != .size64 then
      diag inst.lineNumber "Constraint" "bswap supports only 32-bit and 64-bit registers."
    else do
      emitRex (size == .size64) none (Operand.reg r size) none
      emitBytes [0x0F, 0xC8 + r.low]
  | [_] => diag inst.lineNumber "Encoding" "bswap operand must be a register."
  | _ => diag inst.lineNumber "Encoding" "bswap requires exactly one register operand."

/-- `xchg` between a register and another operand, as `87 /r`. -/
def encodeXchgRm (r : Reg) (size : RegSize) (rm : Operand) (is64bit : Bool) : Encoder Unit := do
  emitRex is64bit (Operand.reg r size) rm none
  emitByte 0x87
  emitModrmSib r.low rm

def encodeXchg (inst : ParsedInstruction) : Encoder Unit :=
  match inst.operands with
  | [op1, op2] =>
    if checkRexConflict op1 op2 then
      diag inst.lineNumber "Constraint"
        "Cannot use AH/BH/CH/DH with registers R8-R15 or SPL/BPL/SIL/DIL"
    else
      match op1, op2 with
      | .reg r1 size1, .reg r2 size2 =>
        if r1.val == 0 || r2.val == 0 then do
          -- short form with the accumulator
          let other := if r1.val == 0 then op2 else op1
          emitRex (operandSize other == .size64) none other none
          emitByte (0x90 + (regField other).low)
        else encodeXchgRm r2 size2 (.reg r1 size1) (size1 == .size64)
      | .reg r size, .mem m => encodeXchgRm r size (.mem m) (size == .size64)
      | .mem m, .reg r size => encodeXchgRm r size (.mem m) (size == .size64)
      | _, _ => diag inst.lineNumber "Encoding" "Unsupported xchg operand combination."
  | _ => diag inst.lineNumber "Encoding" "xchg requires exactly two operands."

/-- The one-operand forms `F7 /n`. -/
def encodeGroup3 (regOpcode : Byte) (op : Operand) : Encoder Unit := do
  emitRex (operandSize op == .size64) none op none
  emitByte 0xF7
  emitModrmSib regOpcode op

def encodeImul (inst : ParsedInstruction) : Encoder Unit :=
  match inst.operands with
  | [op] => encodeGroup3 5 op
  | [.reg r size, src] => do
    emitRex (size == .size64) (Operand.reg r size) src none
    emitBytes [0x0F, 0xAF]
    emitModrmSib r.low src
  | [_, _] => diag inst.lineNumber "Encoding" "imul destination must be a register."
  | [.reg r size, src, .imm v] => do
    let imm : BitVec 32 := v.setWidth 32
    emitRex (size == .size64) (Operand.reg r size) src none
    if fitsInInt8 imm then do
      emitByte 0x6B
      emitModrmSib r.low src
      emitByte (imm.setWidth 8)
    else do
      emitByte 0x69
      emitModrmSib r.low src
      emitLe32 imm
  | [_, _, _] => diag inst.lineNumber "Encoding"
      "imul 3-operand form requires register destination, register/memory source, and immediate."
  | _ => diag inst.lineNumber "Encoding" "imul requires 1, 2, or 3 operands."

def mulRegOpcode : InstType → Option Byte
  | .mul => some 4
  | .div => some 6
  | .idiv => some 7
  | _ => none

def encodeDivIdivMul (inst : ParsedInstruction) : Encoder Unit :=
  match inst.operands with
  | [op] => do
    let regOpcode ← orDiag inst.lineNumber "Encoding" "Unknown multiply/divide instruction."
      (mulRegOpcode inst.type)
    encodeGroup3 regOpcode op
  | _ => diag inst.lineNumber "Encoding" "div/idiv/mul requires exactly one operand."

/-- `test` with an immediate: the accumulator form, or `F6 /0` and `F7 /0`. -/
def encodeTestImm (op : Operand) (v : Word) : Encoder Unit := do
  let size := operandSize op
  if !isMemOperand op && (regField op).val == 0 && size != .size8 then do
    emitRex (size == .size64) none none none
    emitByte 0xA9
    emitLe32 (v.setWidth 32)
  else if size == .size8 then do
    emitRex false none op none
    emitByte 0xF6
    emitModrmSib 0 op
    emitByte (v.setWidth 8)
  else do
    emitRex (size == .size64) none op none
    emitByte 0xF7
    emitModrmSib 0 op
    emitLe32 (v.setWidth 32)

def encodeTest (inst : ParsedInstruction) : Encoder Unit :=
  match inst.operands with
  | [op1, op2] =>
    if checkRexConflict op1 op2 then
      diag inst.lineNumber "Constraint"
        "Cannot use AH/BH/CH/DH with registers R8-R15 or SPL/BPL/SIL/DIL"
    else
      match op1, op2 with
      | .reg r size, .imm v => encodeTestImm (.reg r size) v
      | .mem m, .imm v => encodeTestImm (.mem m) v
      | op1, .reg r size => do
        emitRex (size == .size64) op2 op1 none
        emitByte 0x85
        emitModrmSib r.low op1
      | _, _ => diag inst.lineNumber "Encoding" "Unsupported test operand combination."
  | _ => diag inst.lineNumber "Encoding" "test requires exactly two operands."

def shiftRegOpcode : InstType → Option Byte
  | .rol => some 0 | .ror => some 1 | .rcl => some 2 | .rcr => some 3
  | .shl => some 4 | .sal => some 4 | .shr => some 5 | .sar => some 7
  | _ => none

/-- A shift count: the CL register, or a number cut to an `int`. -/
inductive ShiftCount
  | cl
  | number (count : BitVec 32)

def shiftCount (inst : ParsedInstruction) (op2 : Option Operand) : Encoder ShiftCount :=
  match op2 with
  | none => pure (.number 1)
  | some (.reg r size) =>
    if r.val == 1 && size == .size8 then pure .cl
    else diag inst.lineNumber "Constraint"
      "shift count must be an immediate value or CL register."
  | some (.imm v) => pure (.number (v.setWidth 32))
  | some _ => diag inst.lineNumber "Constraint"
      "shift count must be an immediate value or CL register."

def encodeShiftBy (regOpcode : Byte) (op : Operand) (count : ShiftCount) : Encoder Unit := do
  let byteSize := operandSize op == .size8
  emitRex (operandSize op == .size64) none op none
  match count with
  | .cl => do
    emitByte (if byteSize then 0xD2 else 0xD3)
    emitModrmSib regOpcode op
  | .number n =>
    if n == 1 then do
      emitByte (if byteSize then 0xD0 else 0xD1)
      emitModrmSib regOpcode op
    else do
      emitByte (if byteSize then 0xC0 else 0xC1)
      emitModrmSib regOpcode op
      emitByte (n.setWidth 8)

def encodeShift (inst : ParsedInstruction) : Encoder Unit := do
  match inst.operands with
  | op1 :: rest =>
    if 1 < rest.length then
      diag inst.lineNumber "Encoding" "shift instruction requires one or two operands."
    else do
      let regOpcode ← orDiag inst.lineNumber "Encoding" "Unknown shift/rotate instruction."
        (shiftRegOpcode inst.type)
      let count ← shiftCount inst rest.head?
      encodeShiftBy regOpcode op1 count
  | [] => diag inst.lineNumber "Encoding" "shift instruction requires one or two operands."

def bitManipMnemonic : InstType → String
  | .bt => "bt"
  | .bts => "bts"
  | .btr => "btr"
  | _ => "btc"

/-- Extension digit of the immediate form and opcode of the register form. -/
def bitManipCodes : InstType → Option (Byte × Byte)
  | .bt => some (4, 0xA3)
  | .bts => some (5, 0xAB)
  | .btr => some (6, 0xB3)
  | .btc => some (7, 0xBB)
  | _ => none

def encodeBitManip (inst : ParsedInstruction) : Encoder Unit :=
  match inst.operands with
  | [op1, op2] => do
    let is64bit := operandSize op1 == .size64
    let codes ← orDiag inst.lineNumber "Encoding" "Unknown bit manipulation instruction."
      (bitManipCodes inst.type)
    match op2 with
    | .imm v => do
      emitRex is64bit none op1 none
      emitBytes [0x0F, 0xBA]
      emitModrmSib codes.1 op1
      emitByte (v.setWidth 8)
    | .reg r _ =>
      if r.val == 1 then do
        emitRex is64bit op2 op1 none
        emitBytes [0x0F, codes.2]
        emitModrmSib r.code op1
      else diag inst.lineNumber "Constraint" "bit index must be an immediate value or CL register."
    | _ => diag inst.lineNumber "Constraint" "bit index must be an immediate value or CL register."
  | _ => diag inst.lineNumber "Encoding"
      (bitManipMnemonic inst.type ++ " requires exactly two operands.")

def shiftDoubleMnemonic (type : InstType) : String := if type = .shld then "shld" else "shrd"

def encodeShldShrd (inst : ParsedInstruction) : Encoder Unit :=
  match inst.operands with
  | [dst, .reg r size, cnt] => do
    let useCl := (match cnt with | .reg c _ => c.val == 1 | _ => false)
    let is64bit := operandSize dst == .size64
    let base : Byte := if inst.type = .shld then 0xA4 else 0xAC
    match cnt with
    | .imm v => do
      emitRex is64bit (Operand.reg r size) dst none
      emitBytes [0x0F, base]
      emitModrmSib r.code dst
      emitByte (v.setWidth 8)
    | _ =>
      if useCl then do
        emitRex is64bit (Operand.reg r size) dst none
        emitBytes [0x0F, base + 1]
        emitModrmSib r.code dst
      else
        diag inst.lineNumber "Constraint"
          (shiftDoubleMnemonic inst.type ++ " count must be immediate or CL register.")
  | [_, _, _] => diag inst.lineNumber "Encoding"
      (shiftDoubleMnemonic inst.type ++ " source operand must be a register.")
  | _ => diag inst.lineNumber "Encoding"
      (shiftDoubleMnemonic inst.type ++ " requires exactly three operands.")

def bitScanMnemonic (type : InstType) : String := if type = .bsf then "bsf" else "bsr"

def encodeBitScan (inst : ParsedInstruction) : Encoder Unit :=
  match inst.operands with
  | [.reg r size, src] => do
    emitRex (size == .size64) (Operand.reg r size) src none
    emitBytes [0x0F, if inst.type = .bsf then 0xBC else 0xBD]
    emitModrmSib r.code src
  | [_, _] => diag inst.lineNumber "Encoding"
      (bitScanMnemonic inst.type ++ " destination must be a register.")
  | _ => diag inst.lineNumber "Encoding"
      (bitScanMnemonic inst.type ++ " requires exactly two operands.")

end X86Assembler.Encoder
