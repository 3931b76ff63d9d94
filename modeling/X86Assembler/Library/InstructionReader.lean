import X86Assembler.Library.LittleEndian
import X86Assembler.Library.MachineCode

namespace X86Assembler.MachineCode

open CString (Byte)
open LittleEndian (ofLeBytes)

def legacyOf (bs : List Byte) : List Byte := bs.takeWhile isLegacyPrefix

theorem legacyOf_append {legacy rest : List Byte} {rex : Option Byte} {b : Byte}
    (hlegacy : legacy.all isLegacyPrefix = true) (hrex : ∀ p ∈ rex, isRex p = true)
    (hb : isOpcode b = true) : legacyOf (legacy ++ (rex.toList ++ b :: rest)) = legacy := by
  obtain ⟨hnot, -⟩ : isLegacyPrefix b = false ∧ isRex b = false := by
    simpa [isOpcode] using hb
  have hstop : (rex.toList ++ b :: rest).takeWhile isLegacyPrefix = [] := by
    cases rex with
    | none => simp [hnot]
    | some p => simp [rex_not_legacy (hrex p rfl)]
  rw [legacyOf, List.takeWhile_append_of_pos (List.all_eq_true.mp hlegacy), hstop, List.append_nil]

/-- A memory address: numbers of the base and the index register, the latter with its scale. -/
structure Address where
  base : Option Nat := none
  index : Option (Nat × Nat) := none
  displacement : BitVec 32 := 0
  ripRelative : Bool := false
deriving DecidableEq

inductive RmField
  | register (number : Nat)
  | memory (a : Address)
deriving DecidableEq

/-- The fields of a ModRM byte, `reg` without its REX bit. -/
structure ModRm where
  reg : Nat
  rm : RmField
deriving DecidableEq

/-- A sign-extended number of `n` bytes. -/
def readSigned (n width : Nat) (bs : List Byte) : Option (BitVec width × List Byte) :=
  if n ≤ bs.length then some ((ofLeBytes (8 * n) (bs.take n)).signExtend width, bs.drop n) else none

/-- The bytes of the displacement for a `mod` field, `special` being the form without a base. -/
def dispLength (mod : Byte) (special : Bool) : Nat :=
  if mod = 1 then 1 else if mod = 2 ∨ special then 4 else 0

/-- The address of a SIB byte, with the displacement behind it. -/
def readSib (rex : Option Byte) (mod : Byte) : List Byte → Option (Address × List Byte)
  | [] => none
  | sib :: bs =>
    let noBase := mod = 0 && sib &&& 7 = 5
    let index := rexBit rex 1 + ((sib >>> 3) &&& 7).toNat
    (readSigned (dispLength mod noBase) 32 bs).map fun found =>
      ({ base := if noBase then none else some (rexBit rex 0 + (sib &&& 7).toNat)
         index := if index = 4 then none else some (index, 2 ^ (sib >>> 6).toNat)
         displacement := found.1 }, found.2)

def readPlain (rex : Option Byte) (mod rm : Byte) (bs : List Byte) : Option (Address × List Byte) :=
  let rip := mod = 0 && rm = 5
  (readSigned (dispLength mod rip) 32 bs).map fun found =>
    ({ base := if rip then none else some (rexBit rex 0 + rm.toNat)
       displacement := found.1
       ripRelative := rip }, found.2)

def readModRm (rex : Option Byte) : List Byte → Option (ModRm × List Byte)
  | [] => none
  | b :: bs =>
    let mod := b >>> 6
    let rm := b &&& 7
    let reg := ((b >>> 3) &&& 7).toNat
    if mod = 3 then some (⟨reg, .register (rexBit rex 0 + rm.toNat)⟩, bs)
    else (if rm = 4 then readSib rex mod bs else readPlain rex mod rm bs).map fun found =>
      (⟨reg, .memory found.1⟩, found.2)

inductive Operation
  | mov | movzx | movsx | xchg | nop
  | add | or | adc | sbb | and | sub | xor | cmp | test
  | inc | dec | not | neg | mul | imul | div | idiv
  | rol | ror | rcl | rcr | shl | shr | sar
deriving DecidableEq

/-- An operand: a register of a width by its number, a high byte register (from `ah` on), memory of
a width, or a number without its sign. -/
inductive Arg
  | reg (width number : Nat)
  | high (number : Nat)
  | mem (width : Nat) (a : Address)
  | imm (value : Nat)
deriving DecidableEq

structure Instruction where
  op : Operation
  args : List Arg
deriving DecidableEq

/-- Writing 32 bits of a register clears the upper half, so that moving a number into them is moving
it into the whole register. -/
def Instruction.normal : Instruction → Instruction
  | ⟨.mov, [.reg 32 n, .imm v]⟩ => ⟨.mov, [.reg 64 n, .imm v]⟩
  | i => i

/-- Where the operands of an opcode are, in their order. `imm` is as wide as the operands, at
most four bytes long and sign-extended; `imm8` is one sign-extended byte; `count` is one byte. -/
inductive Layout
  | rmReg | regRm | rm
  | regRmOf (width : Nat)
  | rmImm | rmImm8 | regRmImm | regRmImm8
  | rmOne | rmCount | rmCl
  | accImm | accOpcode
  | opcodeImm
deriving DecidableEq

structure Entry where
  op : Operation
  byte : Bool
  layout : Layout
deriving DecidableEq

def arithmetic (number : Nat) : Operation :=
  match number with
  | 0 => .add | 1 => .or | 2 => .adc | 3 => .sbb | 4 => .and | 5 => .sub | 6 => .xor | _ => .cmp

def shift (number : Nat) : Operation :=
  match number with
  | 0 => .rol | 1 => .ror | 2 => .rcl | 3 => .rcr | 4 => .shl | 5 => .shr | 6 => .shl | _ => .sar

def group3 (byte : Bool) (digit : Nat) : Entry :=
  match digit with
  | 0 => ⟨.test, byte, .rmImm⟩ | 1 => ⟨.test, byte, .rmImm⟩
  | 2 => ⟨.not, byte, .rm⟩ | 3 => ⟨.neg, byte, .rm⟩ | 4 => ⟨.mul, byte, .rm⟩
  | 5 => ⟨.imul, byte, .rm⟩ | 6 => ⟨.div, byte, .rm⟩ | _ => ⟨.idiv, byte, .rm⟩

/-- The one-byte opcodes of these operations, with the digit of the ModRM byte behind them. -/
def oneByteEntry (opcode : Byte) (digit : Nat) : Option Entry :=
  let byte := opcode &&& 1 = 0
  if opcode < 0x40 then
    let op := arithmetic (opcode >>> 3).toNat
    if opcode &&& 7 < 2 then some ⟨op, byte, .rmReg⟩
    else if opcode &&& 7 < 4 then some ⟨op, byte, .regRm⟩
    else if opcode &&& 7 < 6 then some ⟨op, byte, .accImm⟩
    else none
  else if opcode = 0x69 then some ⟨.imul, false, .regRmImm⟩
  else if opcode = 0x6B then some ⟨.imul, false, .regRmImm8⟩
  else if opcode = 0x80 ∨ opcode = 0x81 then some ⟨arithmetic digit, byte, .rmImm⟩
  else if opcode = 0x83 then some ⟨arithmetic digit, false, .rmImm8⟩
  else if opcode = 0x84 ∨ opcode = 0x85 then some ⟨.test, byte, .rmReg⟩
  else if opcode = 0x86 ∨ opcode = 0x87 then some ⟨.xchg, byte, .rmReg⟩
  else if opcode = 0x88 ∨ opcode = 0x89 then some ⟨.mov, byte, .rmReg⟩
  else if opcode = 0x8A ∨ opcode = 0x8B then some ⟨.mov, byte, .regRm⟩
  else if 0x90 ≤ opcode ∧ opcode ≤ 0x97 then some ⟨.xchg, false, .accOpcode⟩
  else if opcode = 0xA8 ∨ opcode = 0xA9 then some ⟨.test, byte, .accImm⟩
  else if 0xB0 ≤ opcode ∧ opcode ≤ 0xB7 then some ⟨.mov, true, .opcodeImm⟩
  else if 0xB8 ≤ opcode ∧ opcode ≤ 0xBF then some ⟨.mov, false, .opcodeImm⟩
  else if opcode = 0xC0 ∨ opcode = 0xC1 then some ⟨shift digit, byte, .rmCount⟩
  else if opcode = 0xD0 ∨ opcode = 0xD1 then some ⟨shift digit, byte, .rmOne⟩
  else if opcode = 0xD2 ∨ opcode = 0xD3 then some ⟨shift digit, byte, .rmCl⟩
  else if (opcode = 0xC6 ∨ opcode = 0xC7) ∧ digit = 0 then some ⟨.mov, byte, .rmImm⟩
  else if opcode = 0xF6 ∨ opcode = 0xF7 then some (group3 byte digit)
  else if (opcode = 0xFE ∨ opcode = 0xFF) ∧ digit = 0 then some ⟨.inc, byte, .rm⟩
  else if (opcode = 0xFE ∨ opcode = 0xFF) ∧ digit = 1 then some ⟨.dec, byte, .rm⟩
  else none

/-- The opcodes behind `0F`. -/
def twoByteEntry (opcode : Byte) : Option Entry :=
  if opcode = 0xAF then some ⟨.imul, false, .regRm⟩
  else if opcode = 0xB6 then some ⟨.movzx, false, .regRmOf 8⟩
  else if opcode = 0xB7 then some ⟨.movzx, false, .regRmOf 16⟩
  else if opcode = 0xBE then some ⟨.movsx, false, .regRmOf 8⟩
  else if opcode = 0xBF then some ⟨.movsx, false, .regRmOf 16⟩
  else none

def operandWidth (legacy : List Byte) (rex : Option Byte) (byte : Bool) : Nat :=
  if byte then 8
  else if rexBit rex 3 = 8 then 64
  else if 0x66 ∈ legacy then 16
  else 32

/-- A register operand; without a REX prefix the byte registers from four on are the high ones. -/
def regArg (rex : Option Byte) (width number : Nat) : Arg :=
  if width = 8 ∧ isHighByte rex number then .high (number - 4) else .reg width number

def rmArg (rex : Option Byte) (width : Nat) : RmField → Arg
  | .register number => regArg rex width number
  | .memory a => .mem width a

def immLength (width : Nat) : Nat := if width = 8 then 1 else if width = 16 then 2 else 4

/-- A number as an operand, `n` bytes long and sign-extended to a width. -/
def readImm (n width : Nat) (bs : List Byte) : Option (Arg × List Byte) :=
  (readSigned n width bs).map fun found => (.imm found.1.toNat, found.2)

def readCount : List Byte → Option (Arg × List Byte)
  | [] => none
  | b :: bs => some (.imm b.toNat, bs)

/-- Operands of a ModRM byte, followed by what another reader finds. -/
def readRm (rex : Option Byte) (bs : List Byte) (args : ModRm → List Arg)
    (next : List Byte → Option (List Arg × List Byte)) : Option (List Arg × List Byte) := do
  let (m, bs) ← readModRm rex bs
  let (more, bs) ← next bs
  pure (args m ++ more, bs)

def oneMore (read : List Byte → Option (Arg × List Byte)) (bs : List Byte) :
    Option (List Arg × List Byte) :=
  (read bs).map fun found => ([found.1], found.2)

def readArgs (rex : Option Byte) (opcode : Byte) (width : Nat) (bs : List Byte) :
    Layout → Option (List Arg × List Byte)
  | .rmReg => readRm rex bs (fun m => [rmArg rex width m.rm, regArg rex width (rexBit rex 2 + m.reg)])
      fun bs => some ([], bs)
  | .regRm => readRm rex bs (fun m => [regArg rex width (rexBit rex 2 + m.reg), rmArg rex width m.rm])
      fun bs => some ([], bs)
  | .regRmOf source =>
      readRm rex bs (fun m => [regArg rex width (rexBit rex 2 + m.reg), rmArg rex source m.rm])
        fun bs => some ([], bs)
  | .rm => readRm rex bs (fun m => [rmArg rex width m.rm]) fun bs => some ([], bs)
  | .rmOne => readRm rex bs (fun m => [rmArg rex width m.rm]) fun bs => some ([.imm 1], bs)
  | .rmCl => readRm rex bs (fun m => [rmArg rex width m.rm]) fun bs => some ([.reg 8 1], bs)
  | .rmCount => readRm rex bs (fun m => [rmArg rex width m.rm])
      (oneMore readCount)
  | .rmImm => readRm rex bs (fun m => [rmArg rex width m.rm])
      (oneMore (readImm (immLength width) width))
  | .rmImm8 => readRm rex bs (fun m => [rmArg rex width m.rm])
      (oneMore (readImm 1 width))
  | .regRmImm =>
      readRm rex bs (fun m => [regArg rex width (rexBit rex 2 + m.reg), rmArg rex width m.rm])
        (oneMore (readImm (immLength width) width))
  | .regRmImm8 =>
      readRm rex bs (fun m => [regArg rex width (rexBit rex 2 + m.reg), rmArg rex width m.rm])
        (oneMore (readImm 1 width))
  | .accImm => (readImm (immLength width) width bs).map fun found =>
      ([.reg width 0, found.1], found.2)
  | .accOpcode => some ([.reg width 0, .reg width (rexBit rex 0 + (opcode &&& 7).toNat)], bs)
  | .opcodeImm => (readImm (width / 8) width bs).map fun found =>
      ([regArg rex width (rexBit rex 0 + (opcode &&& 7).toNat), found.1], found.2)

/-- The opcode `90` with the accumulator of 32 bits is no exchange, which would clear the upper half
of the register. -/
def withNop (opcode : Byte) (i : Instruction) : Instruction :=
  if opcode = 0x90 ∧ i.args = [.reg 32 0, .reg 32 0] then ⟨.nop, []⟩ else i

/-- The instruction of an entry, when the bytes behind its opcode are its operands. -/
def readEntry (legacy : List Byte) (rex : Option Byte) (opcode : Byte) (rest : List Byte)
    (entry : Entry) : Option Instruction :=
  match readArgs rex opcode (operandWidth legacy rex entry.byte) rest entry.layout with
  | some (args, []) => some ⟨entry.op, args⟩
  | _ => none

def digitOf (bs : List Byte) : Nat := ((bs.headD 0 >>> 3) &&& 7).toNat

/-- The instruction that some bytes are, with no prefix but the one for the operand size and REX. -/
def instructionOf (bs : List Byte) : Option Instruction :=
  let legacy := legacyOf bs
  if legacy = [] ∨ legacy = [0x66] then
    match opcodeOn bs with
    | 0x0F#8 :: opcode :: rest =>
        (twoByteEntry opcode).bind (readEntry legacy (rexOf bs) opcode rest)
    | opcode :: rest => ((oneByteEntry opcode (digitOf rest)).bind
        (readEntry legacy (rexOf bs) opcode rest)).map (withNop opcode)
    | [] => none
  else none

section Reading

variable {legacy rest : List Byte} {rex : Option Byte} {opcode : Byte} {entry : Entry}
  (hlegacy : legacy = [] ∨ legacy = [0x66]) (hrex : ∀ p ∈ rex, isRex p = true)

include hlegacy hrex

theorem instructionOf_oneByte (hopcode : isOpcode opcode = true) (hne : opcode ≠ 0x0F)
    (hentry : oneByteEntry opcode (digitOf rest) = some entry) :
    instructionOf (legacy ++ (rex.toList ++ opcode :: rest)) =
      (readEntry legacy rex opcode rest entry).map (withNop opcode) := by
  have hall : legacy.all isLegacyPrefix = true := by
    rcases hlegacy with rfl | rfl <;> decide
  have hpre := @prefixed_append legacy rest rex opcode hall hrex hopcode
  rw [instructionOf, legacyOf_append hall hrex hopcode, if_pos hlegacy, hpre.rest, hpre.rex]
  split
  · next heq =>
      cases heq
      exact absurd rfl hne
  · next heq =>
      cases heq
      rw [hentry]
      rfl
  · next heq => cases heq

theorem instructionOf_twoByte (hentry : twoByteEntry opcode = some entry) :
    instructionOf (legacy ++ (rex.toList ++ 0x0F :: opcode :: rest)) =
      readEntry legacy rex opcode rest entry := by
  have hall : legacy.all isLegacyPrefix = true := by
    rcases hlegacy with rfl | rfl <;> decide
  have hpre := @prefixed_append legacy (opcode :: rest) rex 0x0F hall hrex (by decide)
  rw [instructionOf, legacyOf_append hall hrex (by decide), if_pos hlegacy, hpre.rest, hpre.rex]
  show (twoByteEntry opcode).bind _ = _
  rw [hentry]
  rfl

end Reading

theorem withNop_of_ne {opcode : Byte} (h : opcode ≠ 0x90) (i : Instruction) : withNop opcode i = i :=
  if_neg fun hn => h hn.1

theorem readSigned_append {n width : Nat} {bs rest : List Byte} (h : bs.length = n) :
    readSigned n width (bs ++ rest) = some ((ofLeBytes (8 * n) bs).signExtend width, rest) := by
  rw [readSigned, if_pos (by rw [List.length_append]; omega), ← h, List.take_left, List.drop_left]

theorem readImm_append {n width : Nat} {bs rest : List Byte} (h : bs.length = n) :
    readImm n width (bs ++ rest) =
      some (.imm ((ofLeBytes (8 * n) bs).signExtend width).toNat, rest) := by
  rw [readImm, readSigned_append h]
  rfl

theorem readRm_of {args : ModRm → List Arg} {next : List Byte → Option (List Arg × List Byte)}
    {bs tail rest : List Byte} {m : ModRm} {more : List Arg} {rex : Option Byte}
    (hm : readModRm rex bs = some (m, tail)) (hnext : next tail = some (more, rest)) :
    readRm rex bs args next = some (args m ++ more, rest) := by
  rw [readRm, hm]
  show (next tail).bind _ = _
  rw [hnext]
  rfl

end X86Assembler.MachineCode
