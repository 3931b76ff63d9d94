import X86Assembler.Library.SseReader

namespace X86Assembler.MachineCode

open CString (Byte)
open LittleEndian (ofLeBytes)

/-- The operations besides arithmetic and moves: the stack, addresses, conditions, single bits,
control transfer and the flags. A condition is the number that its opcode ends in. -/
inductive FurtherOperation
  | push | pop | lea | set (condition : Nat) | cmov (condition : Nat) | bswap
  | bt | bts | btr | btc | shld | shrd | bsf | bsr
  | jmp | jcc (condition : Nat) | call | jmpTo | callTo | ret
  | int | syscall | sysret | enter | leave | hlt
  | clc | stc | cmc | cld | std | cli | sti
  | convert | extend | movs
deriving DecidableEq

/-- The operands of `jmp`, `jcc` and `call` are the distance from the end of the instruction, those
of `jmpTo` and `callTo` say where the target is. -/
structure FurtherInstruction where
  op : FurtherOperation
  args : List Arg
deriving DecidableEq

/-- The width of the operands: eight bits, 64 bits, which nothing changes, or what the prefixes
say. -/
inductive WidthRule
  | byte | wide | plain
deriving DecidableEq

def WidthRule.width (legacy : List Byte) (rex : Option Byte) : WidthRule → Nat
  | .byte => 8
  | .wide => 64
  | .plain => operandWidth legacy rex false

/-- Where the operands are. `shown` is one of the layouts of arithmetic; `signed` is a number of
some bytes, sign-extended to 64 bits, and `unsigned` are numbers of one and of two bytes. -/
inductive FurtherLayout
  | nothing
  | shown (layout : Layout)
  | regMem
  | opcodeReg
  | rmRegCount | rmRegCl
  | signed (bytes : Nat)
  | byte | word | wordByte
  | accumulator | accumulatorPair | strings
deriving DecidableEq

structure FurtherEntry where
  op : FurtherOperation
  width : WidthRule
  layout : FurtherLayout
deriving DecidableEq

/-- The group behind `FF`. -/
def group5 (digit : Nat) : Option FurtherEntry :=
  match digit with
  | 2 => some ⟨.callTo, .wide, .shown .rm⟩
  | 4 => some ⟨.jmpTo, .wide, .shown .rm⟩
  | 6 => some ⟨.push, .wide, .shown .rm⟩
  | _ => none

/-- The group behind `0F BA`. -/
def group8 (digit : Nat) : Option FurtherEntry :=
  match digit with
  | 4 => some ⟨.bt, .plain, .shown .rmCount⟩
  | 5 => some ⟨.bts, .plain, .shown .rmCount⟩
  | 6 => some ⟨.btr, .plain, .shown .rmCount⟩
  | 7 => some ⟨.btc, .plain, .shown .rmCount⟩
  | _ => none

def flagEntry (opcode : Byte) : Option FurtherOperation :=
  if opcode = 0xF4 then some .hlt
  else if opcode = 0xF5 then some .cmc
  else if opcode = 0xF8 then some .clc
  else if opcode = 0xF9 then some .stc
  else if opcode = 0xFA then some .cli
  else if opcode = 0xFB then some .sti
  else if opcode = 0xFC then some .cld
  else if opcode = 0xFD then some .std
  else none

def furtherOneByte (opcode : Byte) (digit : Nat) : Option FurtherEntry :=
  if 0x50 ≤ opcode ∧ opcode ≤ 0x57 then some ⟨.push, .wide, .opcodeReg⟩
  else if 0x58 ≤ opcode ∧ opcode ≤ 0x5F then some ⟨.pop, .wide, .opcodeReg⟩
  else if opcode = 0x68 then some ⟨.push, .wide, .signed 4⟩
  else if opcode = 0x6A then some ⟨.push, .wide, .signed 1⟩
  else if 0x70 ≤ opcode ∧ opcode ≤ 0x7F then
    some ⟨.jcc (opcode &&& 15).toNat, .wide, .signed 1⟩
  else if opcode = 0x8D then some ⟨.lea, .plain, .regMem⟩
  else if opcode = 0x8F then if digit = 0 then some ⟨.pop, .wide, .shown .rm⟩ else none
  else if opcode = 0x98 then some ⟨.convert, .plain, .accumulator⟩
  else if opcode = 0x99 then some ⟨.extend, .plain, .accumulatorPair⟩
  else if opcode = 0xA4 then some ⟨.movs, .byte, .strings⟩
  else if opcode = 0xA5 then some ⟨.movs, .plain, .strings⟩
  else if opcode = 0xC2 then some ⟨.ret, .wide, .word⟩
  else if opcode = 0xC3 then some ⟨.ret, .wide, .nothing⟩
  else if opcode = 0xC8 then some ⟨.enter, .wide, .wordByte⟩
  else if opcode = 0xC9 then some ⟨.leave, .wide, .nothing⟩
  else if opcode = 0xCD then some ⟨.int, .wide, .byte⟩
  else if opcode = 0xE8 then some ⟨.call, .wide, .signed 4⟩
  else if opcode = 0xE9 then some ⟨.jmp, .wide, .signed 4⟩
  else if opcode = 0xEB then some ⟨.jmp, .wide, .signed 1⟩
  else if opcode = 0xFF then group5 digit
  else (flagEntry opcode).map fun op => ⟨op, .wide, .nothing⟩

def furtherTwoByte (opcode : Byte) (digit : Nat) : Option FurtherEntry :=
  if opcode = 0x05 then some ⟨.syscall, .wide, .nothing⟩
  else if opcode = 0x07 then some ⟨.sysret, .wide, .nothing⟩
  else if 0x40 ≤ opcode ∧ opcode ≤ 0x4F then
    some ⟨.cmov (opcode &&& 15).toNat, .plain, .shown .regRm⟩
  else if 0x80 ≤ opcode ∧ opcode ≤ 0x8F then
    some ⟨.jcc (opcode &&& 15).toNat, .wide, .signed 4⟩
  else if 0x90 ≤ opcode ∧ opcode ≤ 0x9F then some ⟨.set (opcode &&& 15).toNat, .byte, .shown .rm⟩
  else if opcode = 0xA3 then some ⟨.bt, .plain, .shown .rmReg⟩
  else if opcode = 0xA4 then some ⟨.shld, .plain, .rmRegCount⟩
  else if opcode = 0xA5 then some ⟨.shld, .plain, .rmRegCl⟩
  else if opcode = 0xAB then some ⟨.bts, .plain, .shown .rmReg⟩
  else if opcode = 0xAC then some ⟨.shrd, .plain, .rmRegCount⟩
  else if opcode = 0xAD then some ⟨.shrd, .plain, .rmRegCl⟩
  else if opcode = 0xB3 then some ⟨.btr, .plain, .shown .rmReg⟩
  else if opcode = 0xBA then group8 digit
  else if opcode = 0xBB then some ⟨.btc, .plain, .shown .rmReg⟩
  else if opcode = 0xBC then some ⟨.bsf, .plain, .shown .regRm⟩
  else if opcode = 0xBD then some ⟨.bsr, .plain, .shown .regRm⟩
  else if 0xC8 ≤ opcode ∧ opcode ≤ 0xCF then some ⟨.bswap, .plain, .opcodeReg⟩
  else none

/-- A number of `n` bytes without a sign. -/
def readUnsigned (n : Nat) (bs : List Byte) : Option (Arg × List Byte) :=
  if n ≤ bs.length then some (.imm (ofLeBytes (8 * n) (bs.take n)).toNat, bs.drop n) else none

/-- A register and memory, from a ModRM byte that has no register in its `rm` field. -/
def readRegMem (rex : Option Byte) (width : Nat) (bs : List Byte) : Option (List Arg × List Byte) :=
  (readModRm rex bs).bind fun found =>
    match found.1.rm with
    | .memory a =>
      some ([regArg rex width (rexBit rex 2 + found.1.reg), .mem width a], found.2)
    | .register _ => none

theorem readRegMem_memory {rex : Option Byte} {bs rest : List Byte} {n : Nat} {a : Address}
    (h : readModRm rex bs = some (⟨n, .memory a⟩, rest)) (width : Nat) :
    readRegMem rex width bs =
      some ([regArg rex width (rexBit rex 2 + n), .mem width a], rest) := by
  rw [readRegMem, h]
  rfl

theorem readRegMem_none {rex : Option Byte} {bs : List Byte} (h : readModRm rex bs = none)
    (width : Nat) : readRegMem rex width bs = none := by
  rw [readRegMem, h]
  rfl

def readFurtherArgs (rex : Option Byte) (opcode : Byte) (width : Nat) (bs : List Byte) :
    FurtherLayout → Option (List Arg × List Byte)
  | .nothing => some ([], bs)
  | .shown layout => readArgs rex opcode width bs layout
  | .regMem => readRegMem rex width bs
  | .opcodeReg => some ([regArg rex width (rexBit rex 0 + (opcode &&& 7).toNat)], bs)
  | .rmRegCount =>
      readRm rex bs (fun m => [rmArg rex width m.rm, regArg rex width (rexBit rex 2 + m.reg)])
        (oneMore readCount)
  | .rmRegCl =>
      readRm rex bs (fun m => [rmArg rex width m.rm, regArg rex width (rexBit rex 2 + m.reg)])
        fun bs => some ([.reg 8 1], bs)
  | .signed n => oneMore (readImm n 64) bs
  | .byte => oneMore (readUnsigned 1) bs
  | .word => oneMore (readUnsigned 2) bs
  | .wordByte => (readUnsigned 2 bs).bind fun found => (readUnsigned 1 found.2).map fun more =>
      ([found.1, more.1], more.2)
  | .accumulator => some ([.reg width 0], bs)
  | .accumulatorPair => some ([.reg width 2, .reg width 0], bs)
  | .strings => some ([.mem width { base := some 7 }, .mem width { base := some 6 }], bs)

/-- The instruction of an entry, when the bytes behind its opcode are its operands. Where nothing
changes the width no prefix may try to. -/
def readFurtherEntry (legacy : List Byte) (rex : Option Byte) (opcode : Byte) (rest : List Byte)
    (entry : FurtherEntry) : Option FurtherInstruction :=
  if entry.width = .wide ∧ legacy ≠ [] then none
  else
    match readFurtherArgs rex opcode (entry.width.width legacy rex) rest entry.layout with
    | some (args, []) => some ⟨entry.op, args⟩
    | _ => none

/-- The instruction of one of these operations that some bytes are, with no prefix but the one for
the operand size and REX. -/
def furtherInstructionOf (bs : List Byte) : Option FurtherInstruction :=
  let legacy := legacyOf bs
  if legacy = [] ∨ legacy = [0x66] then
    match opcodeOn bs with
    | 0x0F#8 :: opcode :: rest =>
        (furtherTwoByte opcode (digitOf rest)).bind
          (readFurtherEntry legacy (rexOf bs) opcode rest)
    | opcode :: rest => (furtherOneByte opcode (digitOf rest)).bind
        (readFurtherEntry legacy (rexOf bs) opcode rest)
    | [] => none
  else none

section Reading

variable {legacy rest : List Byte} {rex : Option Byte} {opcode : Byte} {entry : FurtherEntry}
  (hlegacy : legacy = [] ∨ legacy = [0x66]) (hrex : ∀ p ∈ rex, isRex p = true)

include hlegacy hrex

theorem furtherInstructionOf_oneByte (hopcode : isOpcode opcode = true) (hne : opcode ≠ 0x0F)
    (hentry : furtherOneByte opcode (digitOf rest) = some entry) :
    furtherInstructionOf (legacy ++ (rex.toList ++ opcode :: rest)) =
      readFurtherEntry legacy rex opcode rest entry := by
  have hall : legacy.all isLegacyPrefix = true := by
    rcases hlegacy with rfl | rfl <;> decide
  have hpre := @prefixed_append legacy rest rex opcode hall hrex hopcode
  rw [furtherInstructionOf, legacyOf_append hall hrex hopcode, if_pos hlegacy, hpre.rest, hpre.rex]
  split
  · next heq =>
      cases heq
      exact absurd rfl hne
  · next heq =>
      cases heq
      rw [hentry]
      rfl
  · next heq => cases heq

theorem furtherInstructionOf_twoByte (hentry : furtherTwoByte opcode (digitOf rest) = some entry) :
    furtherInstructionOf (legacy ++ (rex.toList ++ 0x0F :: opcode :: rest)) =
      readFurtherEntry legacy rex opcode rest entry := by
  have hall : legacy.all isLegacyPrefix = true := by
    rcases hlegacy with rfl | rfl <;> decide
  have hpre := @prefixed_append legacy (opcode :: rest) rex 0x0F hall hrex (by decide)
  rw [furtherInstructionOf, legacyOf_append hall hrex (by decide), if_pos hlegacy, hpre.rest,
    hpre.rex]
  show (furtherTwoByte opcode (digitOf rest)).bind _ = _
  rw [hentry]
  rfl

end Reading

theorem readFurtherEntry_of {legacy rest : List Byte} {rex : Option Byte} {opcode : Byte}
    {entry : FurtherEntry} {args : List Arg} (hwide : entry.width = .wide → legacy = [])
    (h : readFurtherArgs rex opcode (entry.width.width legacy rex) rest entry.layout =
      some (args, [])) :
    readFurtherEntry legacy rex opcode rest entry = some ⟨entry.op, args⟩ := by
  rw [readFurtherEntry, if_neg fun hno => hno.2 (hwide hno.1), h]

theorem readFurtherEntry_none {legacy rest : List Byte} {rex : Option Byte} {opcode : Byte}
    {entry : FurtherEntry}
    (h : readFurtherArgs rex opcode (entry.width.width legacy rex) rest entry.layout = none) :
    readFurtherEntry legacy rex opcode rest entry = none := by
  rw [readFurtherEntry, h]
  exact ite_self none

end X86Assembler.MachineCode
