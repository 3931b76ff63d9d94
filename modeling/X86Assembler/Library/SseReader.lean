import X86Assembler.Library.InstructionReader

namespace X86Assembler.MachineCode

open CString (Byte)

/-- The operations on XMM registers whose prefix is part of the opcode. -/
inductive SseOperation
  | movaps | movups | movss | movapd | movupd | movsd | movdqa | movdqu
  | addps | addpd | addss | addsd | mulps | mulpd | mulss | mulsd
  | subps | subpd | subss | subsd | divps | divpd | divss | divsd
  | paddb | paddw | paddd | paddq | psubb | psubw | psubd | psubq
  | pcmpeqb | pcmpeqw | pcmpeqd | pcmpeqq | pcmpgtb | pcmpgtw | pcmpgtd | pcmpgtq
  | pand | pandn | por | pxor
deriving DecidableEq

inductive SseArg
  | xmm (number : Nat)
  | mem (a : Address)
deriving DecidableEq

structure SseInstruction where
  op : SseOperation
  dst : SseArg
  src : SseArg
deriving DecidableEq

/-- What an opcode means; a store has its source in the `reg` field. -/
structure SseEntry where
  op : SseOperation
  store : Bool
deriving DecidableEq

/-- One of four operations, by the prefix in front of the opcode. -/
def byPrefix (plain p66 pF3 pF2 : Option SseOperation) (legacy : List Byte) : Option SseOperation :=
  if legacy = [] then plain
  else if legacy = [0x66] then p66
  else if legacy = [0xF3] then pF3
  else if legacy = [0xF2] then pF2
  else none

def sseMove (opcode : Byte) (legacy : List Byte) : Option SseOperation :=
  if opcode = 0x10 ∨ opcode = 0x11 then
    byPrefix (some .movups) (some .movupd) (some .movss) (some .movsd) legacy
  else if opcode = 0x28 ∨ opcode = 0x29 then
    byPrefix (some .movaps) (some .movapd) none none legacy
  else if opcode = 0x6F ∨ opcode = 0x7F then
    byPrefix none (some .movdqa) (some .movdqu) none legacy
  else none

def sseArithmetic (opcode : Byte) (legacy : List Byte) : Option SseOperation :=
  if opcode = 0x58 then byPrefix (some .addps) (some .addpd) (some .addss) (some .addsd) legacy
  else if opcode = 0x59 then byPrefix (some .mulps) (some .mulpd) (some .mulss) (some .mulsd) legacy
  else if opcode = 0x5C then byPrefix (some .subps) (some .subpd) (some .subss) (some .subsd) legacy
  else if opcode = 0x5E then byPrefix (some .divps) (some .divpd) (some .divss) (some .divsd) legacy
  else none

/-- The packed operations on integers, which all have the prefix `66`. -/
def ssePacked (opcode : Byte) : Option SseOperation :=
  if opcode = 0xFC then some .paddb else if opcode = 0xFD then some .paddw
  else if opcode = 0xFE then some .paddd else if opcode = 0xD4 then some .paddq
  else if opcode = 0xF8 then some .psubb else if opcode = 0xF9 then some .psubw
  else if opcode = 0xFA then some .psubd else if opcode = 0xFB then some .psubq
  else if opcode = 0x74 then some .pcmpeqb else if opcode = 0x75 then some .pcmpeqw
  else if opcode = 0x76 then some .pcmpeqd else if opcode = 0x64 then some .pcmpgtb
  else if opcode = 0x65 then some .pcmpgtw else if opcode = 0x66 then some .pcmpgtd
  else if opcode = 0xDB then some .pand else if opcode = 0xDF then some .pandn
  else if opcode = 0xEB then some .por else if opcode = 0xEF then some .pxor
  else none

/-- The opcodes behind `0F 38`. -/
def sseThreeByte (opcode : Byte) : Option SseOperation :=
  if opcode = 0x29 then some .pcmpeqq else if opcode = 0x37 then some .pcmpgtq else none

def isStore (opcode : Byte) : Bool := opcode = 0x11 ∨ opcode = 0x29 ∨ opcode = 0x7F

def sseTwoByte (legacy : List Byte) (opcode : Byte) : Option SseEntry :=
  match sseMove opcode legacy with
  | some op => some ⟨op, isStore opcode⟩
  | none =>
    ((sseArithmetic opcode legacy).or (byPrefix none (ssePacked opcode) none none legacy)).map
      fun op => ⟨op, false⟩

/-- The entry of the bytes behind `0F`, and what follows the opcode. -/
def sseEntry (legacy : List Byte) : List Byte → Option (SseEntry × List Byte)
  | 0x38#8 :: opcode :: rest =>
      (byPrefix none (sseThreeByte opcode) none none legacy).map fun op => (⟨op, false⟩, rest)
  | opcode :: rest => (sseTwoByte legacy opcode).map fun entry => (entry, rest)
  | [] => none

def RmField.sseArg : RmField → SseArg
  | .register number => .xmm number
  | .memory a => .mem a

def SseEntry.instruction (entry : SseEntry) (reg rm : SseArg) : SseInstruction :=
  if entry.store then ⟨entry.op, rm, reg⟩ else ⟨entry.op, reg, rm⟩

/-- The operands behind the opcode, when they are all that follows it. -/
def readSse (rex : Option Byte) (entry : SseEntry) (rest : List Byte) : Option SseInstruction :=
  match readModRm rex rest with
  | some (m, []) => some (entry.instruction (.xmm (rexBit rex 2 + m.reg)) m.rm.sseArg)
  | _ => none

def sseInstructionOf (bs : List Byte) : Option SseInstruction :=
  match opcodeOn bs with
  | 0x0F#8 :: rest =>
      (sseEntry (legacyOf bs) rest).bind fun found => readSse (rexOf bs) found.1 found.2
  | _ => none

theorem sseInstructionOf_append {legacy opcode modrm : List Byte} {rex : Option Byte}
    {entry : SseEntry} (hlegacy : legacy.all isLegacyPrefix = true)
    (hrex : ∀ p ∈ rex, isRex p = true)
    (hentry : sseEntry legacy (opcode ++ modrm) = some (entry, modrm)) :
    sseInstructionOf (legacy ++ (rex.toList ++ 0x0F :: (opcode ++ modrm))) =
      readSse rex entry modrm := by
  have hpre := @prefixed_append legacy (opcode ++ modrm) rex 0x0F hlegacy hrex (by decide)
  have hfound := @legacyOf_append legacy (opcode ++ modrm) rex 0x0F hlegacy hrex (by decide)
  rw [sseInstructionOf, hpre.rest, hpre.rex, hfound]
  show (sseEntry legacy (opcode ++ modrm)).bind _ = _
  rw [hentry]
  rfl

theorem readSse_of {rex : Option Byte} {entry : SseEntry} {bs : List Byte} {m : ModRm}
    (h : readModRm rex bs = some (m, [])) :
    readSse rex entry bs =
      some (entry.instruction (.xmm (rexBit rex 2 + m.reg)) m.rm.sseArg) := by
  rw [readSse, h]

end X86Assembler.MachineCode
