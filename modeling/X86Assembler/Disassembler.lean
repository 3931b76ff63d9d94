import X86Assembler.Encoders
import X86Assembler.Library.CheckedRead

namespace X86Assembler

open CString (Byte)
open CheckedRead

def disMaxInstBytes : Nat := 15

/-- The digits `%llx` prints. -/
def hexDigits (n : Nat) : String := String.ofList (Nat.toDigits 16 n)

def hex (n : Nat) : String := "0x" ++ hexDigits n

/-- `%02x`. -/
def hexByte (b : Byte) : String :=
  if b.toNat < 16 then "0" ++ hexDigits b.toNat else hexDigits b.toNat

/-- The name in a table of sixteen; every register code here is below 16. -/
def nameAt (names : List String) (i : Nat) : String := (names[i]?).getD "?"

def reg64Name : Nat → String :=
  nameAt ["rax", "rcx", "rdx", "rbx", "rsp", "rbp", "rsi", "rdi",
    "r8", "r9", "r10", "r11", "r12", "r13", "r14", "r15"]

def reg32Name : Nat → String :=
  nameAt ["eax", "ecx", "edx", "ebx", "esp", "ebp", "esi", "edi",
    "r8d", "r9d", "r10d", "r11d", "r12d", "r13d", "r14d", "r15d"]

def reg16Name : Nat → String :=
  nameAt ["ax", "cx", "dx", "bx", "sp", "bp", "si", "di",
    "r8w", "r9w", "r10w", "r11w", "r12w", "r13w", "r14w", "r15w"]

def reg8Name (rexPresent : Bool) : Nat → String :=
  nameAt (["al", "cl", "dl", "bl"] ++
    (if rexPresent then ["spl", "bpl", "sil", "dil"] else ["ah", "ch", "dh", "bh"]) ++
    ["r8b", "r9b", "r10b", "r11b", "r12b", "r13b", "r14b", "r15b"])

def selectRegName (code sizeBits : Nat) (rexPresent : Bool) : String :=
  if sizeBits = 8 then reg8Name rexPresent code
  else if sizeBits = 16 then reg16Name code
  else if sizeBits = 32 then reg32Name code
  else reg64Name code

def appendWithSign (value : Int) : String :=
  if value < 0 then "-" ++ hex value.natAbs else "+" ++ hex value.natAbs

def modField (b : Byte) : Nat := (b >>> 6).toNat
def regBits (b : Byte) : Nat := ((b >>> 3) &&& 7#8).toNat
def rmBits (b : Byte) : Nat := (b &&& 7#8).toNat

/-- What the prefixes of an instruction say, and where they end. -/
structure Prefixes where
  operandOverride : Bool := false
  rex : Byte := 0
  cursor : Nat

namespace Prefixes

def rexW (p : Prefixes) : Bool := p.rex.getLsbD 3
def rexR (p : Prefixes) : Nat := if p.rex.getLsbD 2 then 8 else 0
def rexX (p : Prefixes) : Nat := if p.rex.getLsbD 1 then 8 else 0
def rexB (p : Prefixes) : Nat := if p.rex.getLsbD 0 then 8 else 0
def rexPresent (p : Prefixes) : Bool := p.rex != 0
def sizeBits (p : Prefixes) : Nat := if p.rexW then 64 else if p.operandOverride then 16 else 32

end Prefixes

def isLegacyPrefix (b : Byte) : Bool :=
  [0x67#8, 0xF0#8, 0xF2#8, 0xF3#8, 0x2E#8, 0x36#8, 0x3E#8, 0x26#8, 0x64#8, 0x65#8].contains b

def isRexByte (b : Byte) : Bool := 0x40#8 ≤ b && b ≤ 0x4F#8

/-- The prefix loop, over the bytes from the cursor to the end of the buffer. -/
def scanPrefixes (p : Prefixes) : List Byte → Prefixes
  | [] => p
  | b :: bs =>
    if b = 0x66#8 then
      scanPrefixes { p with operandOverride := true, cursor := p.cursor + 1 } bs
    else if isLegacyPrefix b then scanPrefixes { p with cursor := p.cursor + 1 } bs
    else if isRexByte b then scanPrefixes { p with rex := b, cursor := p.cursor + 1 } bs
    else p

/-- The memory operand that a ModRM byte announces, as it is read. -/
structure RmMemory where
  base : Option Nat
  index : Option Nat := none
  scale : Nat := 1
  isRipRelative : Bool := false
  dispSize : Nat
  cursor : Nat

/-- The size of the displacement for a `mod` field, `special` being the form without a base. -/
def dispSizeOf (mod : Nat) (special : Bool) : Nat :=
  if mod = 1 then 1 else if mod = 2 then 4 else if special then 4 else 0

def readSib (code : List Byte) (p : Prefixes) (mod cursor : Nat) : CheckedRead RmMemory := do
  let sib ← fetchChecked code cursor
  let noBase := mod = 0 && rmBits sib = 5
  pure {
    base := if noBase then none else some (rmBits sib + p.rexB)
    index := if regBits sib = 4 then none else some (regBits sib + p.rexX)
    scale := 2 ^ modField sib
    dispSize := dispSizeOf mod noBase
    cursor := cursor + 1 }

def readRmBase (p : Prefixes) (mod rm cursor : Nat) : RmMemory :=
  let rip := mod = 0 && rm = 5
  { base := some (rm + p.rexB), isRipRelative := rip, dispSize := dispSizeOf mod rip, cursor }

def readDisp (code : List Byte) (m : RmMemory) : CheckedRead (BitVec 32) :=
  if m.dispSize = 1 then do
    let b ← fetchChecked code m.cursor
    pure (b.signExtend 32)
  else if m.dispSize = 4 then readLe code m.cursor 4
  else pure 0

def dispText (needsPlus : Bool) (disp : BitVec 32) : String :=
  if !needsPlus then hex disp.toNat
  else if disp.toInt < 0 then "-" ++ hex disp.toInt.natAbs
  else "+" ++ hex disp.toNat

def memoryText (m : RmMemory) (disp : BitVec 32) : String :=
  if m.isRipRelative then "[rip" ++ appendWithSign disp.toInt ++ "]"
  else
    let base := (m.base.map reg64Name).getD ""
    let index := match m.index with
      | some i => (if m.base.isSome then "+" else "") ++ reg64Name i ++ "*" ++ toString m.scale
      | none => ""
    let disp :=
      if 0 < m.dispSize || (m.base.isNone && m.index.isNone) then
        dispText (m.base.isSome || m.index.isSome) disp
      else ""
    "[" ++ base ++ index ++ disp ++ "]"

/-- `format_rm_operand`: the text of the operand and the position after it. The buffers of
the source hold every text that can come out. -/
def formatRmOperand (code : List Byte) (pos : Nat) (p : Prefixes) (sizeBits : Nat) :
    CheckedRead (String × Nat) := do
  let modrm ← fetchChecked code pos
  let mod := modField modrm
  let rm := rmBits modrm
  if mod = 3 then pure (selectRegName (rm + p.rexB) sizeBits p.rexPresent, pos + 1)
  else do
    let m ← if rm = 4 then readSib code p mod (pos + 1) else pure (readRmBase p mod rm (pos + 1))
    let disp ← readDisp code m
    pure (memoryText m disp, m.cursor + m.dispSize)

/-- A decoded form: its text and the position after it; `none` is a form that is not known,
which is shown as one byte of data. -/
abbrev Body := Option (String × Nat)

def jccNames : List String :=
  ["jo", "jno", "jb", "jae", "je", "jne", "jbe", "ja",
   "js", "jns", "jp", "jnp", "jl", "jge", "jle", "jg"]

def cmovNames : List String :=
  ["cmovo", "cmovno", "cmovb", "cmovae", "cmove", "cmovne", "cmovbe", "cmova",
   "cmovs", "cmovns", "cmovp", "cmovnp", "cmovl", "cmovge", "cmovle", "cmovg"]

def setNames : List String :=
  ["seto", "setno", "setb", "setae", "sete", "setne", "setbe", "seta",
   "sets", "setns", "setp", "setnp", "setl", "setge", "setle", "setg"]

def lowNibble (b : Byte) : Nat := (b &&& 0x0F#8).toNat

def inRange (lo hi b : Byte) : Bool := lo ≤ b && b ≤ hi

/-- A branch with a displacement that ends at `cursor`. -/
def branchText (base : Word) (name : String) (cursor : Nat) (rel : Word) : String :=
  name ++ " " ++ hex (base + BitVec.ofNat 64 cursor + rel).toNat

/-- The register that the `reg` field of a ModRM byte names. -/
def regFieldName (p : Prefixes) (modrm : Byte) (sizeBits : Nat) : String :=
  selectRegName (regBits modrm + p.rexR) sizeBits p.rexPresent

/-- `op reg, rm`. -/
def decodeRegRm (code : List Byte) (p : Prefixes) (cursor : Nat) (name : String)
    (regSize rmSize : Nat) : CheckedRead Body := do
  let modrm ← fetchChecked code cursor
  let (rm, cursor) ← formatRmOperand code cursor p rmSize
  pure (some (name ++ " " ++ regFieldName p modrm regSize ++ ", " ++ rm, cursor))

/-- `op rm, reg`. -/
def decodeRmReg (code : List Byte) (p : Prefixes) (cursor : Nat) (name : String)
    (size : Nat) : CheckedRead Body := do
  let modrm ← fetchChecked code cursor
  let (rm, cursor) ← formatRmOperand code cursor p size
  pure (some (name ++ " " ++ rm ++ ", " ++ regFieldName p modrm size, cursor))

def bitTestName (ext : Nat) : Option String :=
  if ext = 4 then some "bt"
  else if ext = 5 then some "bts"
  else if ext = 6 then some "btr"
  else if ext = 7 then some "btc"
  else none

/-- `op rm, imm` with an immediate of `n` bytes after the operand. -/
def decodeImm (code : List Byte) (name rm : String) (cursor n : Nat) : CheckedRead Body := do
  let imm ← readLe code cursor n
  pure (some (name ++ " " ++ rm ++ ", " ++ hex imm.toNat, cursor + n))

def decodeBitTestImm (code : List Byte) (p : Prefixes) (cursor : Nat) : CheckedRead Body := do
  let modrm ← fetchChecked code cursor
  match bitTestName (regBits modrm) with
  | none => pure none
  | some name => do
    let (rm, cursor) ← formatRmOperand code cursor p p.sizeBits
    decodeImm code name rm cursor 1

def decodeLongNop (code : List Byte) (p : Prefixes) (cursor : Nat) : CheckedRead Body := do
  let modrm ← fetchChecked code cursor
  if regBits modrm ≠ 0 then pure none
  else do
    let (rm, cursor) ← formatRmOperand code cursor p 32
    pure (some (if modField modrm = 3 then "nop" else "nop " ++ rm, cursor))

def decodeSetcc (code : List Byte) (p : Prefixes) (cursor : Nat) (name : String) :
    CheckedRead Body := do
  let (rm, cursor) ← formatRmOperand code cursor p 8
  pure (some (name ++ " " ++ rm, cursor))

def decodeRel32 (code : List Byte) (base : Word) (cursor : Nat) (name : String) :
    CheckedRead Body := do
  let rel ← readLe code cursor 4
  pure (some (branchText base name (cursor + 4) (BitVec.signExtend 64 rel), cursor + 4))

def decodeRel8 (code : List Byte) (base : Word) (cursor : Nat) (name : String) :
    CheckedRead Body := do
  let rel ← fetchChecked code cursor
  pure (some (branchText base name (cursor + 1) (rel.signExtend 64), cursor + 1))

/-- The opcodes after `0F`. -/
def decodeTwoByte (code : List Byte) (base : Word) (p : Prefixes) (cursor : Nat) :
    CheckedRead Body := do
  let op2 ← fetchChecked code cursor
  let cursor := cursor + 1
  let size := p.sizeBits
  if op2 = 0x05#8 then pure (some ("syscall", cursor))
  else if op2 = 0x1F#8 then decodeLongNop code p cursor
  else if inRange 0x80 0x8F op2 then decodeRel32 code base cursor (nameAt jccNames (lowNibble op2))
  else if inRange 0x40 0x4F op2 then
    decodeRegRm code p cursor (nameAt cmovNames (lowNibble op2)) size size
  else if inRange 0x90 0x9F op2 then decodeSetcc code p cursor (nameAt setNames (lowNibble op2))
  else if op2 = 0xB6#8 then decodeRegRm code p cursor "movzx" size 8
  else if op2 = 0xB7#8 then decodeRegRm code p cursor "movzx" size 16
  else if op2 = 0xBE#8 then decodeRegRm code p cursor "movsx" size 8
  else if op2 = 0xBF#8 then decodeRegRm code p cursor "movsx" size 16
  else if op2 = 0xAF#8 then decodeRegRm code p cursor "imul" size size
  else if op2 = 0xBC#8 then decodeRegRm code p cursor "bsf" size size
  else if op2 = 0xBD#8 then decodeRegRm code p cursor "bsr" size size
  else if op2 = 0xC0#8 then decodeRmReg code p cursor "xadd" 8
  else if op2 = 0xC1#8 then decodeRmReg code p cursor "xadd" size
  else if op2 = 0xB0#8 then decodeRmReg code p cursor "cmpxchg" 8
  else if op2 = 0xB1#8 then decodeRmReg code p cursor "cmpxchg" size
  else if op2 = 0xA3#8 then decodeRmReg code p cursor "bt" size
  else if op2 = 0xAB#8 then decodeRmReg code p cursor "bts" size
  else if op2 = 0xB3#8 then decodeRmReg code p cursor "btr" size
  else if op2 = 0xBB#8 then decodeRmReg code p cursor "btc" size
  else if op2 = 0xBA#8 then decodeBitTestImm code p cursor
  else pure none

/-- `X86_GROUP2_TABLE`. -/
def group2Table : List (Nat × String) :=
  [(0, "rol"), (1, "ror"), (4, "shl"), (5, "shr"), (7, "sar")]

def lookupGroup2Mnemonic (ext : Nat) : Option String :=
  (group2Table.find? fun entry => entry.1 == ext).map Prod.snd

def lookupGroup1Mnemonic (ext : Nat) : Option String :=
  (Encoder.group1Table.find? fun entry => entry.2.1.toNat == ext).map fun entry => entry.2.2

/-- The opcodes `op rm, reg` and `op reg, rm` of the arithmetic group. -/
def arithName (opcode : Byte) : Option (String × Bool) :=
  if opcode = 0x01#8 then some ("add", false)
  else if opcode = 0x03#8 then some ("add", true)
  else if opcode = 0x29#8 then some ("sub", false)
  else if opcode = 0x2B#8 then some ("sub", true)
  else if opcode = 0x39#8 then some ("cmp", false)
  else if opcode = 0x3B#8 then some ("cmp", true)
  else if opcode = 0x31#8 then some ("xor", false)
  else if opcode = 0x33#8 then some ("xor", true)
  else if opcode = 0x21#8 then some ("and", false)
  else if opcode = 0x23#8 then some ("and", true)
  else if opcode = 0x09#8 then some ("or", false)
  else if opcode = 0x0B#8 then some ("or", true)
  else none

def hasModrm (opcode : Byte) : Bool :=
  [0x80#8, 0x88#8, 0x8A#8, 0xC0#8, 0xC1#8, 0xC7#8, 0x81#8, 0x83#8, 0xFF#8, 0xF6#8, 0xF7#8,
    0x8F#8, 0x8D#8, 0x63#8, 0x89#8, 0x8B#8, 0x85#8].contains opcode || (arithName opcode).isSome

def rmSizeBits (p : Prefixes) (opcode : Byte) : Nat :=
  if opcode = 0x63#8 then 32
  else if [0x80#8, 0x88#8, 0x8A#8, 0xC0#8, 0xF6#8].contains opcode then 8
  else p.sizeBits

/-- The signed byte immediate of opcode `83`. -/
def decodeSignedImm8 (code : List Byte) (name rm : String) (cursor : Nat) : CheckedRead Body := do
  let imm ← fetchChecked code cursor
  let text := if imm.toInt < 0 then "-" ++ hex imm.toInt.natAbs else hex imm.toNat
  pure (some (name ++ " " ++ rm ++ ", " ++ text, cursor + 1))

/-- The size of the immediate of the forms that take 16 bits under an operand override. -/
def wideImm (p : Prefixes) : Nat := if p.operandOverride then 2 else 4

/-- Opcodes `80`, `81` and `83`. -/
def decodeGroup1 (code : List Byte) (p : Prefixes) (opcode : Byte) (ext : Nat) (rm : String)
    (cursor : Nat) : CheckedRead Body :=
  match lookupGroup1Mnemonic ext with
  | none => pure none
  | some name =>
    if opcode = 0x80#8 then decodeImm code name rm cursor 1
    else if opcode = 0x81#8 then decodeImm code name rm cursor (wideImm p)
    else decodeSignedImm8 code name rm cursor

def group5Name (ext : Nat) : Option String :=
  if ext = 0 then some "inc"
  else if ext = 1 then some "dec"
  else if ext = 2 then some "call"
  else if ext = 4 then some "jmp"
  else if ext = 6 then some "push"
  else none

/-- Opcodes `F6` and `F7`. -/
def decodeGroup3 (code : List Byte) (p : Prefixes) (opcode : Byte) (ext : Nat) (rm : String)
    (cursor : Nat) : CheckedRead Body :=
  if ext = 0 then
    if opcode = 0xF6#8 then decodeImm code "test" rm cursor 1
    else decodeImm code "test" rm cursor (if p.rexW then 4 else wideImm p)
  else if ext = 2 then pure (some ("not " ++ rm, cursor))
  else if ext = 3 then pure (some ("neg " ++ rm, cursor))
  else pure none

/-- The opcodes whose ModRM byte holds an extension digit, without the shifts. -/
def decodeExtension (code : List Byte) (p : Prefixes) (opcode : Byte) (ext : Nat) (rm : String)
    (cursor : Nat) : CheckedRead Body :=
  if opcode = 0xC7#8 then
    if ext ≠ 0 then pure none else decodeImm code "mov" rm cursor (wideImm p)
  else if opcode = 0x80#8 || opcode = 0x81#8 || opcode = 0x83#8 then
    decodeGroup1 code p opcode ext rm cursor
  else if opcode = 0xFF#8 then
    pure ((group5Name ext).map fun name => (name ++ " " ++ rm, cursor))
  else if opcode = 0x8F#8 then
    if ext = 0 then pure (some ("pop " ++ rm, cursor)) else pure none
  else decodeGroup3 code p opcode ext rm cursor

/-- What follows the operand of an opcode with a ModRM byte. -/
def decodeAfterRm (code : List Byte) (p : Prefixes) (opcode modrm : Byte) (rm : String)
    (cursor : Nat) : CheckedRead Body :=
  let size := p.sizeBits
  let reg := regFieldName p modrm size
  let ext := regBits modrm
  if opcode = 0x8D#8 then pure (some ("lea " ++ reg ++ ", " ++ rm, cursor))
  else if opcode = 0x63#8 then
    pure (some ("movsxd " ++ reg64Name (ext + p.rexR) ++ ", " ++ rm, cursor))
  else if opcode = 0x89#8 then pure (some ("mov " ++ rm ++ ", " ++ reg, cursor))
  else if opcode = 0x8B#8 then pure (some ("mov " ++ reg ++ ", " ++ rm, cursor))
  else if opcode = 0x88#8 then
    pure (some ("mov " ++ rm ++ ", " ++ regFieldName p modrm 8, cursor))
  else if opcode = 0x8A#8 then
    pure (some ("mov " ++ regFieldName p modrm 8 ++ ", " ++ rm, cursor))
  else if opcode = 0x85#8 then pure (some ("test " ++ rm ++ ", " ++ reg, cursor))
  else if opcode = 0xC0#8 || opcode = 0xC1#8 then
    match lookupGroup2Mnemonic ext with
    | none => pure none
    | some name => decodeImm code name rm cursor 1
  else
    match arithName opcode with
    | some (name, true) => pure (some (name ++ " " ++ reg ++ ", " ++ rm, cursor))
    | some (name, false) => pure (some (name ++ " " ++ rm ++ ", " ++ reg, cursor))
    | none => decodeExtension code p opcode ext rm cursor

def decodeModrm (code : List Byte) (p : Prefixes) (cursor : Nat) (opcode : Byte) :
    CheckedRead Body := do
  let modrm ← fetchChecked code cursor
  let (rm, cursor) ← formatRmOperand code cursor p (rmSizeBits p opcode)
  decodeAfterRm code p opcode modrm rm cursor

/-- The immediate of `mov reg, imm`. -/
def movImmSize (p : Prefixes) : Nat := if p.rexW then 8 else wideImm p

def decodePushImm8 (code : List Byte) (cursor : Nat) : CheckedRead Body := do
  let imm ← fetchChecked code cursor
  pure (some ("push " ++
    (if imm.toInt < 0 then "-" ++ hex imm.toInt.natAbs else hex imm.toNat), cursor + 1))

def decodePushImm32 (code : List Byte) (cursor : Nat) : CheckedRead Body := do
  let imm ← readLe code cursor 4
  pure (some ("push " ++ hex imm.toNat, cursor + 4))

/-- The opcode families of `decode_one`, with the cursor after the opcode. -/
def decodeBody (code : List Byte) (base : Word) (p : Prefixes) (opcode : Byte) (cursor : Nat) :
    CheckedRead Body :=
  if inRange 0x50 0x57 opcode then
    pure (some ("push " ++ reg64Name (rmBits opcode + p.rexB), cursor))
  else if inRange 0x58 0x5F opcode then
    pure (some ("pop " ++ reg64Name (rmBits opcode + p.rexB), cursor))
  else if opcode = 0x6A#8 then decodePushImm8 code cursor
  else if opcode = 0x68#8 then decodePushImm32 code cursor
  else if inRange 0x70 0x7F opcode then
    decodeRel8 code base cursor (nameAt jccNames (lowNibble opcode))
  else if opcode = 0xEB#8 then decodeRel8 code base cursor "jmp"
  else if opcode = 0x90#8 then pure (some ("nop", cursor))
  else if opcode = 0xC9#8 then pure (some ("leave", cursor))
  else if opcode = 0x0F#8 then decodeTwoByte code base p cursor
  else if inRange 0xB8 0xBF opcode then
    decodeImm code "mov" (selectRegName (rmBits opcode + p.rexB) p.sizeBits p.rexPresent) cursor
      (movImmSize p)
  else if opcode = 0xE8#8 then decodeRel32 code base cursor "call"
  else if opcode = 0xE9#8 then decodeRel32 code base cursor "jmp"
  else if opcode = 0xC3#8 then pure (some ("ret", cursor))
  else if hasModrm opcode then decodeModrm code p cursor opcode
  else pure none

/-- `dis_decoded_t`; `bytes` is the part of the array that was written, `byte_count` bytes. -/
structure Decoded where
  consumed : Nat
  bytes : List Byte
  text : String
deriving DecidableEq

/-- `decode_one` at an offset, as far as the bytes of the instruction are known. -/
def decodeSpan (code : List Byte) (base : Word) (start : Nat) : CheckedRead Body := do
  guardThat (start < code.length)
  let p := scanPrefixes { cursor := start } (code.drop start)
  let opcode ← fetchChecked code p.cursor
  decodeBody code base p opcode (p.cursor + 1)

/-- What `decode_one` writes to `out`: nothing bounds the `memcpy` into `out->bytes`. -/
def recordSpan (code : List Byte) (start : Nat) : Body → CheckedRead Decoded
  | some (text, cursor) => do
    let bytes ← copyInto disMaxInstBytes code start (cursor - start)
    pure { consumed := cursor - start, bytes, text }
  | none => do
    let b ← fetch code start
    pure { consumed := 1, bytes := [b], text := "db 0x" ++ hexByte b }

/-- `decode_one` at an offset. -/
def decodeOne (code : List Byte) (base : Word) (start : Nat) : CheckedRead Decoded := do
  let body ← decodeSpan code base start
  recordSpan code start body

structure DisLine where
  address : Word
  bytes : String
  text : String
deriving DecidableEq

def bytesBufSize : Nat := 3 * disMaxInstBytes + 1

/-- The loop of `snprintf` calls into `bytes_buf`, from the position reached; `none` when the
buffer is full. -/
def formatBytes (pos : Nat) : List Byte → Option String
  | [] => some ""
  | b :: bs =>
    let column := if pos = 0 then hexByte b else " " ++ hexByte b
    if bytesBufSize - pos ≤ column.length then none
    else (formatBytes (pos + column.length) bs).map fun rest => column ++ rest

def dataLine (code : List Byte) (base : Word) (offset : Nat) : CheckedRead DisLine := do
  let b ← fetch code offset
  pure {
    address := base + BitVec.ofNat 64 offset, bytes := hexByte b, text := "db 0x" ++ hexByte b }

/-- The loop of `disassemble_code_buffer`; every round moves the offset, so that the size of
the buffer bounds the rounds. The result is the listing, or the lines before the return of
`-1`. -/
def disassembleLoop (code : List Byte) (base : Word) :
    Nat → Nat → CheckedRead (Bool × List DisLine)
  | 0, _ => pure (true, [])
  | rounds + 1, offset =>
    if offset < code.length then
      match decodeOne code base offset with
      | .fault => .fault
      | .overrun => .overrun
      | .error => do
        let line ← dataLine code base offset
        let (done, rest) ← disassembleLoop code base rounds (offset + 1)
        pure (done, line :: rest)
      | .ok inst =>
        if inst.consumed = 0 then do
          let line ← dataLine code base offset
          let (done, rest) ← disassembleLoop code base rounds (offset + 1)
          pure (done, line :: rest)
        else
          match formatBytes 0 inst.bytes with
          | none => pure (false, [])
          | some bytes => do
            let line : DisLine :=
              { address := base + BitVec.ofNat 64 offset, bytes, text := inst.text }
            let (done, rest) ← disassembleLoop code base rounds (offset + inst.consumed)
            pure (done, line :: rest)
    else pure (true, [])

/-- `disassemble_code_buffer`: whether it returns 0, and the lines it prints. -/
def disassembleCodeBuffer (code : List Byte) (base : Word) : CheckedRead (Bool × List DisLine) :=
  disassembleLoop code base code.length 0

end X86Assembler
