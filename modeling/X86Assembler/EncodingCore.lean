import X86Assembler.Library.LittleEndian
import X86Assembler.SymbolTable

namespace X86Assembler

open CString (Byte)
open LittleEndian (leBytes)

/-- A call the encoders make on the context: `emit_byte`, or one of the `add_fixup` family
with the current address as its location. -/
inductive Emission
  | byte (b : Byte)
  | fixup (label : Label) (size : Nat) (instructionType : InstType) (isRipRelative : Bool)
deriving DecidableEq

structure EncodeEnv where
  currentAddress : Word
  enableForwardShortBranches : Bool
  getSymbolInfo : Label → Option HashEntry

def Emission.byte? : Emission → Option Byte
  | .byte b => some b
  | .fixup .. => none

def bytesOf (es : List Emission) : List Byte := es.filterMap Emission.byte?

def EncodeEnv.after (env : EncodeEnv) (es : List Emission) : EncodeEnv :=
  { env with currentAddress := env.currentAddress + BitVec.ofNat 64 (bytesOf es).length }

/-- An encoder as the calls it makes in order, ending in success or in a diagnostic. Every
call site of the source returns at once when a call fails, so what a run does to the
context is to perform these calls up to the first that fails (`Encoder.run`). -/
def Encoder (α : Type) : Type := EncodeEnv → List Emission × Except Diagnostic α

namespace Encoder

variable {α β : Type}

instance : Monad Encoder where
  pure a := fun _ => ([], .ok a)
  bind m f := fun env => match m env with
    | (es, .error d) => (es, .error d)
    | (es, .ok a) => (es ++ (f a (env.after es)).1, (f a (env.after es)).2)

def emitByte (b : Byte) : Encoder Unit := fun _ => ([.byte b], .ok ())
def emitBytes (bs : List Byte) : Encoder Unit := fun _ => (bs.map .byte, .ok ())
def emitLe16 (v : BitVec 16) : Encoder Unit := emitBytes (leBytes 2 v)
def emitLe32 (v : BitVec 32) : Encoder Unit := emitBytes (leBytes 4 v)
def emitLe64 (v : BitVec 64) : Encoder Unit := emitBytes (leBytes 8 v)

def addFixup (label : Label) (size : Nat) (type : InstType) : Encoder Unit :=
  fun _ => ([.fixup label size type false], .ok ())

def addFixupRipRelative (label : Label) : Encoder Unit :=
  fun _ => ([.fixup label 4 .mov true], .ok ())

/-- The source leaves `is_rip_relative` at what the slot last held. The instruction types
that come here are resolved the same way whatever it is (`fixupValue_branch`). -/
def addControlflowFixup (label : Label) (size : Nat) (type : InstType) : Encoder Unit :=
  addFixup label size type

def getEnv : Encoder EncodeEnv := fun env => ([], .ok env)

def diag (line : Nat) (category message : String) : Encoder α :=
  fun _ => ([], .error { line, category, message })

def when (c : Bool) (m : Encoder Unit) : Encoder Unit := if c then m else pure ()

def orDiag (line : Nat) (category message : String) : Option α → Encoder α
  | some a => pure a
  | none => diag line category message

end Encoder

def isControlflow : InstType → Bool
  | .jmp | .call | .ja | .jae | .jb | .jbe | .je | .jg | .jge | .jl
  | .jle | .jne | .jnz | .jno | .jnp | .jns | .jo | .jp | .js => true
  | _ => false

def fixupListFull (type : InstType) : Diagnostic :=
  if isControlflow type then
    { line := 1, category := "Constraint", message := "Maximum number of pending fixups reached." }
  else { line := 1, category := "Fixup", message := "Fixup list full" }

def addFixup (label : Label) (size : Nat) (type : InstType) (rip : Bool) : Asm Unit := fun ctx =>
  if maxSymbols ≤ ctx.fixups.length then (none, ctx.report (fixupListFull type))
  else (some (), { ctx with
    fixups := ctx.fixups ++ [⟨label, ctx.currentAddress, size, type, rip⟩] })

def Emission.perform : Emission → Asm Unit
  | .byte b => X86Assembler.emitByte b
  | .fixup label size type rip => X86Assembler.addFixup label size type rip

def AssemblerContext.encodeEnv (ctx : AssemblerContext) : EncodeEnv where
  currentAddress := ctx.currentAddress
  enableForwardShortBranches := ctx.enableForwardShortBranches
  getSymbolInfo := X86Assembler.getSymbolInfo ctx

def Encoder.run {α : Type} (m : Encoder α) : Asm α := do
  let ctx ← Fallible.get
  let (es, r) := m ctx.encodeEnv
  Fallible.each Emission.perform es
  match r with
  | .ok a => pure a
  | .error d => reportError d

def Reg.isExtended (r : Reg) : Bool := 8 ≤ r.val

/-- `reg & 7` as the byte arithmetic of the encoders uses it. -/
def Reg.low (r : Reg) : Byte := BitVec.ofNat 8 r.val &&& 7#8

def Reg.code (r : Reg) : Byte := BitVec.ofNat 8 r.val

def isXmmReg (r : Reg) : Bool := 16 ≤ r.val && r.val ≤ 31

def needsRex : Operand → Bool
  | .reg r size => r.isExtended || (size == .size8 && 4 ≤ r.val)
  | .mem m => m.base.any Reg.isExtended || m.index.any Reg.isExtended
  | _ => false

def bit (b : Bool) (mask : Byte) : Byte := if b then mask else 0

def makeRex (w r x b : Bool) : Byte :=
  0x40#8 ||| bit w 0x08#8 ||| bit r 0x04#8 ||| bit x 0x02#8 ||| bit b 0x01#8

/-- Whether an operand is a register with a number of eight or more. -/
def extendedReg : Option Operand → Bool
  | some (.reg r _) => r.isExtended
  | _ => false

def extendedBase : Option Operand → Bool
  | some (.mem m) => m.base.any Reg.isExtended
  | _ => false

def extendedIndex : Option Operand → Bool
  | some (.mem m) => m.index.any Reg.isExtended
  | _ => false

def makeModrm (mod reg rm : Byte) : Byte :=
  ((mod &&& 3#8) <<< 6) ||| ((reg &&& 7#8) <<< 3) ||| (rm &&& 7#8)

def scaleBits (scale : Nat) : Byte :=
  if scale = 8 then 3#8 else if scale = 4 then 2#8 else if scale = 2 then 1#8 else 0#8

def makeSib (scale : Nat) (index base : Byte) : Byte :=
  (scaleBits scale <<< 6) ||| ((index &&& 7#8) <<< 3) ||| (base &&& 7#8)

def fitsInInt8 (v : BitVec 32) : Bool := -128 ≤ v.toInt && v.toInt ≤ 127

def validScale (scale : Nat) : Bool := scale == 1 || scale == 2 || scale == 4 || scale == 8

namespace Encoder

def emitRex (w : Bool) (regOp rmOp sibIndexOp : Option Operand) : Encoder Unit :=
  let r := extendedReg regOp
  let x := extendedReg sibIndexOp || extendedIndex rmOp
  let b := extendedReg rmOp || extendedBase rmOp
  if !w && !r && !x && !b then pure () else emitByte (makeRex w r x b)

/-- `[base + displacement]` without an index register. -/
def emitBaseOnly (regOpcode : Byte) (m : MemOperand) (base : Reg) : Encoder Unit := do
  let baseReg := base.low
  if !m.hasDisplacement && baseReg != 4#8 && baseReg != 5#8 then
    emitByte (makeModrm 0 regOpcode baseReg)
  else if !m.hasDisplacement && baseReg == 5#8 then do
    emitByte (makeModrm 1 regOpcode 5)
    emitByte 0
  else if m.hasDisplacement && fitsInInt8 m.displacement then do
    emitByte (makeModrm 1 regOpcode baseReg)
    when (baseReg == 4#8) (emitByte (makeSib 1 4 baseReg))
    emitByte (m.displacement.setWidth 8)
  else do
    emitByte (makeModrm 2 regOpcode baseReg)
    when (baseReg == 4#8) (emitByte (makeSib 1 4 baseReg))
    emitLe32 m.displacement

/-- `[base + index * scale + displacement]`, the base being optional. -/
def emitIndexed (regOpcode : Byte) (m : MemOperand) (index : Reg) : Encoder Unit := do
  let baseReg := (m.base.map Reg.low).getD 5#8
  let needSibDisp := (m.base.isNone || baseReg == 5#8) && m.displacement == 0
  if m.hasDisplacement && fitsInInt8 m.displacement && !needSibDisp then do
    emitByte (makeModrm 1 regOpcode 4)
    emitByte (makeSib m.scale index.low baseReg)
    emitByte (m.displacement.setWidth 8)
  else do
    let mod : Byte := if m.hasDisplacement || m.base.isNone then 2 else 0
    emitByte (makeModrm mod regOpcode 4)
    emitByte (makeSib m.scale index.low baseReg)
    when (mod != 0 || m.base.isNone) (emitLe32 m.displacement)

def emitModrmSib (regOpcode : Byte) (op : Operand) : Encoder Unit :=
  match op with
  | .reg r _ => emitByte (makeModrm 3 regOpcode r.low)
  | .mem m =>
    if m.index.isSome && !validScale m.scale then
      diag 1 "Operand"
        ("Invalid scale factor " ++ toString m.scale ++ " (expected 1, 2, 4, or 8)")
    else if m.isRipRelative && (m.index.isSome || m.base.isSome) then
      diag 1 "Operand" "RIP-relative addressing cannot combine base/index registers"
    else if m.isRipRelative then do
      emitByte (makeModrm 0 regOpcode 5)
      when (m.label ≠ Label.empty) (addFixupRipRelative m.label)
      emitLe32 m.displacement
    else
      match m.base, m.index with
      | none, none => do
        -- ModRM rm=100 and SIB base=101: disp32 without registers
        emitByte (makeModrm 0 regOpcode 4)
        emitByte (makeSib 1 4 5)
        when (m.label ≠ Label.empty) (addFixup m.label 4 .mov)
        emitLe32 m.displacement
      | some base, none => emitBaseOnly regOpcode m base
      | _, some index => emitIndexed regOpcode m index
  | _ => diag 1 "Operand" "Expected memory operand"

end Encoder

end X86Assembler
