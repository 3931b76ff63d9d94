import X86Assembler.EncodingCore

namespace X86Assembler.Encoder

open CString (Byte)

def isHigh8bitReg : Operand → Bool
  | .reg _ size => size == .size8h
  | _ => false

/-- AH, CH, DH or BH together with an operand that forces a REX byte. -/
def checkRexConflict (op1 op2 : Operand) : Bool :=
  (isHigh8bitReg op1 || isHigh8bitReg op2) && (needsRex op1 || needsRex op2)

/-- The register size of the first operand that is a register, 64 bits without one. -/
def operationSize (op1 op2 : Operand) : RegSize :=
  match op1, op2 with
  | .reg _ size, _ => size
  | _, .reg _ size => size
  | _, _ => .size64

def operandSize (op : Operand) : RegSize := operationSize op op

def fitsInt32 (v : Word) : Bool := -2147483648 ≤ v.toInt && v.toInt ≤ 2147483647
def fitsUInt32 (v : Word) : Bool := 0 ≤ v.toInt && v.toInt ≤ 4294967295

def encodeMovRegImm (r : Reg) (size : RegSize) (v : Word) : Encoder Unit := do
  let dst := Operand.reg r size
  let needRexPrefix := needsRex dst
  if size == .size64 && fitsUInt32 v then do
    when r.isExtended (emitByte (makeRex false false false true))
    emitByte (0xB8#8 + r.low)
    emitLe32 (v.setWidth 32)
  else if size == .size64 && !fitsInt32 v then do
    emitRex true dst none none
    emitByte (0xB8#8 + r.low)
    emitLe64 v
  else if size == .size64 then do
    emitRex true none dst none
    emitByte 0xC7#8
    emitModrmSib 0 dst
    emitLe32 (v.setWidth 32)
  else if size == .size32 then do
    when needRexPrefix (emitRex false dst none none)
    emitByte (0xB8#8 + r.low)
    emitLe32 (v.setWidth 32)
  else if size == .size16 then do
    emitByte 0x66#8
    when needRexPrefix (emitRex false dst none none)
    emitByte (0xB8#8 + r.low)
    emitLe16 (v.setWidth 16)
  else do
    when (size != .size8h) (emitRex false dst none none)
    emitByte (0xB0#8 + r.low)
    emitByte (v.setWidth 8)

/-- `size` is the operation size, which is 64 bits when no operand is a register. -/
def encodeMovMemImm (m : MemOperand) (size : RegSize) (v : Word) : Encoder Unit := do
  when (size == .size16) (emitByte 0x66#8)
  emitRex (size == .size64) none (Operand.mem m) none
  emitByte (if size == .size8 then 0xC6#8 else 0xC7#8)
  emitModrmSib 0 (.mem m)
  if size == .size8 then emitByte (v.setWidth 8)
  else if size == .size16 then emitLe16 (v.setWidth 16)
  else emitLe32 (v.setWidth 32)

def encodeMov (inst : ParsedInstruction) : Encoder Unit :=
  match inst.operands with
  | [dst, src] => do
    if checkRexConflict dst src then
      diag inst.lineNumber "Constraint"
        "Cannot use AH/BH/CH/DH with registers R8-R15 or SPL/BPL/SIL/DIL"
    else
      let size := operationSize dst src
      let is64bit := size == .size64
      match dst, src with
      | .reg r _, .label name => do
        emitRex true dst none none
        emitByte 0x8B#8
        emitByte (makeModrm 0 r.low 5)
        addFixupRipRelative name
        emitLe32 0
      | .reg r size, .imm v => encodeMovRegImm r size v
      | .reg _ _, .reg r _ => do
        emitRex is64bit src dst none
        emitByte 0x89#8
        emitModrmSib r.low dst
      | .reg r _, .mem _ => do
        emitRex is64bit dst src none
        emitByte 0x8B#8
        emitModrmSib r.low src
      | .mem _, .reg r _ => do
        emitRex is64bit src dst none
        emitByte 0x89#8
        emitModrmSib r.low dst
      | .mem m, .imm v => encodeMovMemImm m size v
      | _, _ => diag inst.lineNumber "Encoding" "Unsupported mov operand combination"
  | _ => diag inst.lineNumber "Encoding" "mov requires 2 operands"

def encodePushPop (inst : ParsedInstruction) : Encoder Unit :=
  let isPush := inst.type == .push
  match inst.operands with
  | [.reg r _] => do
    when r.isExtended (emitByte (makeRex false false false true))
    emitByte ((if isPush then 0x50#8 else 0x58#8) + r.low)
  | [.imm v] =>
    if !isPush then diag inst.lineNumber "Encoding" "pop with immediate not valid"
    else if fitsInInt8 (v.setWidth 32) then do
      emitByte 0x6A#8
      emitByte (v.setWidth 8)
    else do
      emitByte 0x68#8
      emitLe32 (v.setWidth 32)
  | [.mem m] => do
    emitRex true none (Operand.mem m) none
    emitByte (if isPush then 0xFF#8 else 0x8F#8)
    emitModrmSib (if isPush then 6 else 0) (.mem m)
  | [_] => diag inst.lineNumber "Encoding" "Unsupported push/pop operand"
  | _ =>
    diag inst.lineNumber "Encoding" ((if isPush then "push" else "pop") ++ " requires 1 operand")

/-- `X86_GROUP1_TABLE`. -/
def group1Table : List (InstType × Byte × String) :=
  [(.add, 0, "add"), (.or, 1, "or"), (.adc, 2, "adc"), (.sbb, 3, "sbb"),
   (.and, 4, "and"), (.sub, 5, "sub"), (.xor, 6, "xor"), (.cmp, 7, "cmp")]

def lookupGroup1RegOpcode (type : InstType) : Option Byte :=
  (group1Table.find? (fun entry => entry.1 == type)).map (fun entry => entry.2.1)

def encodeArithmeticRegImm (inst : ParsedInstruction) (regOpcode : Byte) (r : Reg)
    (size : RegSize) (imm64 : Word) : Encoder Unit := do
  let dst := Operand.reg r size
  let imm32 : BitVec 32 := imm64.setWidth 32
  let fits8 := fitsInInt8 imm32
  let is64bit := size == .size64
  if r.val == 0 && !fits8 && (size == .size64 || size == .size32) &&
      (size != .size64 || fitsInt32 imm64) then do
    -- accumulator form
    when is64bit (emitRex true dst none none)
    emitByte (0x05#8 + (regOpcode <<< 3))
    emitLe32 imm32
  else if is64bit && !fitsInt32 imm64 then
    diag inst.lineNumber "Constraint"
      ("64-bit immediate 0x" ++ String.ofList (Nat.toDigits 16 imm64.toNat) ++ " out of range for " ++
        (if inst.type == .cmp then "cmp" else if inst.type == .add then "add"
          else if inst.type == .sub then "sub" else "op") ++ ", use mov reg, imm64 first")
  else if fits8 && size != .size8 then do
    when is64bit (emitRex true none dst none)
    emitByte 0x83#8
    emitModrmSib regOpcode dst
    emitByte (imm32.setWidth 8)
  else do
    when is64bit (emitRex true none dst none)
    emitByte 0x81#8
    emitModrmSib regOpcode dst
    emitLe32 imm32

def encodeArithmeticMemImm (regOpcode : Byte) (m : MemOperand) (imm64 : Word) : Encoder Unit := do
  let imm : BitVec 32 := imm64.setWidth 32
  emitRex true none (Operand.mem m) none
  if fitsInInt8 imm then do
    emitByte 0x83#8
    emitModrmSib regOpcode (.mem m)
    emitByte (imm.setWidth 8)
  else do
    emitByte 0x81#8
    emitModrmSib regOpcode (.mem m)
    emitLe32 imm

def encodeArithmetic (inst : ParsedInstruction) : Encoder Unit :=
  match inst.operands with
  | [dst, src] => do
    if checkRexConflict dst src then
      diag inst.lineNumber "Constraint"
        "Cannot use AH/BH/CH/DH with registers R8-R15 or SPL/BPL/SIL/DIL"
    else do
      let is64bit := operationSize dst src == .size64
      let regOpcode ← orDiag inst.lineNumber "Encoding" "Unknown arithmetic instruction"
        (lookupGroup1RegOpcode inst.type)
      match dst, src with
      | .reg r size, .imm v => encodeArithmeticRegImm inst regOpcode r size v
      | .reg _ _, .reg r _ => do
        emitRex is64bit src dst none
        emitByte (0x01#8 + (regOpcode <<< 3))
        emitModrmSib r.low dst
      | .reg r _, .mem _ => do
        emitRex is64bit dst src none
        emitByte (0x03#8 + (regOpcode <<< 3))
        emitModrmSib r.low src
      | .mem _, .reg r _ => do
        emitRex is64bit src dst none
        emitByte (0x01#8 + (regOpcode <<< 3))
        emitModrmSib r.low dst
      | .mem m, .imm v => encodeArithmeticMemImm regOpcode m v
      | _, _ => diag inst.lineNumber "Encoding" "Unsupported arithmetic operand combination"
  | _ => diag inst.lineNumber "Encoding" "Arithmetic instruction requires 2 operands"

def unaryRegOpcode : InstType → Option Byte
  | .inc => some 0
  | .dec => some 1
  | .not => some 2
  | .neg => some 3
  | _ => none

def encodeUnaryArithmetic (inst : ParsedInstruction) : Encoder Unit :=
  match inst.operands with
  | [op] => do
    let regOpcode ← orDiag inst.lineNumber "Encoding" "Unknown unary instruction"
      (unaryRegOpcode inst.type)
    let opcode : Byte := if inst.type == .inc || inst.type == .dec then 0xFF else 0xF7
    match op with
    | .reg _ _ | .mem _ => do
      emitRex (operandSize op == .size64) none op none
      emitByte opcode
      emitModrmSib regOpcode op
    | _ => diag inst.lineNumber "Encoding" "Unsupported unary operand"
  | _ => diag inst.lineNumber "Encoding" "Unary instruction requires 1 operand"

def encodeLea (inst : ParsedInstruction) : Encoder Unit :=
  match inst.operands with
  | [.reg r size, .mem m] =>
    if size == .size8 || size == .size8h then
      diag inst.lineNumber "Encoding" "lea destination must be 16, 32, or 64-bit register"
    else do
      when (size == .size16) (emitByte 0x66#8)
      emitRex (size == .size64) (Operand.reg r size) (Operand.mem m) none
      emitByte 0x8D#8
      emitModrmSib r.low (.mem m)
  | [_, _] => diag inst.lineNumber "Encoding"
      "lea requires register destination and memory source"
  | _ => diag inst.lineNumber "Encoding" "lea requires 2 operands"

def stringOpcode : InstType → Option (List Byte)
  | .movsb => some [0xA4]
  | .movsw => some [0x66, 0xA5]
  | .movsd => some [0xA5]
  | .movsq => some [0x48, 0xA5]
  | _ => none

def encodeString (inst : ParsedInstruction) : Encoder Unit := do
  if inst.operands.length ≠ 0 then
    diag inst.lineNumber "Encoding" "String instruction takes no operands"
  else do
    let bytes ← orDiag inst.lineNumber "Encoding" "Unknown string instruction"
      (stringOpcode inst.type)
    emitBytes bytes

end X86Assembler.Encoder
