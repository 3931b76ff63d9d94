import X86Assembler.Lexer
import X86Assembler.Library.Fallible

namespace X86Assembler

open CString (Byte str eqIgnoreCase)

/-- `parser_state_t`; `stderr` collects what is printed. -/
structure ParserState where
  lexer : Lexer
  current : Token := {}
  peek : Token := {}
  stderr : List Diagnostic := []
deriving DecidableEq

abbrev Parser := Fallible ParserState

namespace Parser

variable {α : Type}

/-- `parser_error_context_ex` and a return of `-1`. -/
def error (category message : String) (args : List (List Byte) := []) : Parser α := fun p =>
  (none, { p with
    stderr := p.stderr ++
      [{ line := p.lexer.line, column := p.lexer.column, category, message, args }] })

def syntaxError (message : String) : Parser α := error "Syntax" message

end Parser

def ParserState.advance (p : ParserState) : ParserState :=
  if p.peek.type = .eof then { p with current := p.peek }
  else
    let (tok, lexer) := nextToken p.lexer
    { p with current := p.peek, peek := tok, lexer := lexer }

/-- `parser_init` and `init_tokens`. -/
def initTokens (source : List Byte) : ParserState :=
  let (tok, lexer) := nextToken { rest := source, lineStart := source }
  ParserState.advance { lexer := lexer, peek := tok }

/-- A bound on the tokens that are left: the current one, the next one, and at most one for
each character after it. -/
def ParserState.remaining (p : ParserState) : Nat :=
  if p.peek.type = .eof then if p.current.type = .eof then 0 else 1
  else p.lexer.rest.length + 2

namespace Parser

def advance : Parser Unit := Fallible.modify ParserState.advance

def current : Parser Token := do
  let p ← Fallible.get
  pure p.current

def next : Parser Token := do
  let tok ← current
  advance
  pure tok

/-- `expect`: consume a token of that type, or stay. -/
def expect (type : TokenType) : Parser Bool := do
  let tok ← current
  if tok.type = type then do
    advance
    pure true
  else pure false

/-- `expect` where a token of another type is a syntax error. -/
def require (type : TokenType) (message : String) : Parser Unit := do
  if ← expect type then pure () else syntaxError message

def closeBracket : Parser Unit := require .rbracket "Expected ']' to close memory operand"

end Parser

/-- `reg_table`, the names of one family at a time. -/
def registers (names : List String) (first : Nat) (size : RegSize) :
    List (String × Reg × RegSize) :=
  names.mapIdx fun i name => (name, Fin.ofNat 33 (first + i), size)

def regTable : List (String × Reg × RegSize) :=
  registers ["rax", "rcx", "rdx", "rbx", "rsp", "rbp", "rsi", "rdi",
    "r8", "r9", "r10", "r11", "r12", "r13", "r14", "r15"] 0 .size64 ++
  registers ["eax", "ecx", "edx", "ebx", "esp", "ebp", "esi", "edi",
    "r8d", "r9d", "r10d", "r11d", "r12d", "r13d", "r14d", "r15d"] 0 .size32 ++
  registers ["ax", "cx", "dx", "bx", "sp", "bp", "si", "di",
    "r8w", "r9w", "r10w", "r11w", "r12w", "r13w", "r14w", "r15w"] 0 .size16 ++
  registers ["al", "cl", "dl", "bl", "spl", "bpl", "sil", "dil",
    "r8b", "r9b", "r10b", "r11b", "r12b", "r13b", "r14b", "r15b"] 0 .size8 ++
  registers ["ah", "ch", "dh", "bh"] 4 .size8h ++
  registers ["rip"] 32 .size64 ++
  registers ["xmm0", "xmm1", "xmm2", "xmm3", "xmm4", "xmm5", "xmm6", "xmm7",
    "xmm8", "xmm9", "xmm10", "xmm11", "xmm12", "xmm13", "xmm14", "xmm15"] 16 .xmm

def parseRegister (name : Text) : Option (Reg × RegSize) :=
  (regTable.find? fun entry => eqIgnoreCase name.bytes (str entry.1)).map fun entry => entry.2

def isValidScaleFactor (scale : Word) : Bool :=
  scale == 1 || scale == 2 || scale == 4 || scale == 8

def parseSegmentOverrideName (name : Text) : MemSegment :=
  if eqIgnoreCase name.bytes (str "fs") then .fs
  else if eqIgnoreCase name.bytes (str "gs") then .gs
  else .default

/-- `copy_bounded` of a token's text into a label. -/
def Text.toLabel (text : Text) : Label := CString.copyBounded _ text.bytes

namespace Parser

/-- A scale factor after `*`. -/
def scaleFactor (tok : Token) : Parser Nat :=
  if tok.type = .number && isValidScaleFactor tok.value then do
    advance
    pure tok.value.toNat
  else syntaxError "Expected scale factor (1, 2, 4, or 8)"

/-- `[abs number]` after its opening bracket and the word `abs`. -/
def absoluteAddress : Parser MemOperand := do
  let tok ← current
  if tok.type = .number then do
    advance
    closeBracket
    pure { displacement := tok.value.setWidth 32, hasDisplacement := true, isAbsolute := true }
  else syntaxError "[abs ...] requires a numeric address"

/-- A register at the start of a component, which has been consumed. `rip`, or a 64-bit
register in front of the word `rip`, makes the operand RIP-relative. -/
def memRegister (mem : MemOperand) (reg : Reg) (size : RegSize) : Parser MemOperand := do
  let tok ← current
  if reg = Reg.rip || (size == .size64 && eqIgnoreCase tok.text.bytes (str "rip")) then
    pure { mem with isRipRelative := true }
  else if ← expect .star then do
    let tok ← current
    let scale ← scaleFactor tok
    pure { mem with index := some reg, scale := scale }
  else if mem.base.isNone then pure { mem with base := some reg }
  else if mem.index.isNone then pure { mem with index := some reg }
  else syntaxError "Too many registers in memory operand (max: base + index)"

/-- A register after `+` or `-`, which has been consumed. -/
def memIndex (mem : MemOperand) (reg : Reg) : Parser MemOperand := do
  if ← expect .star then do
    let tok ← current
    let scale ← scaleFactor tok
    pure { mem with index := some reg, scale := scale }
  else pure { mem with index := some reg, scale := 1 }

def memSigned (mem : MemOperand) (negative : Bool) : Parser MemOperand := do
  let tok ← current
  if tok.type = .number then do
    let value : BitVec 32 := tok.value.setWidth 32
    advance
    pure { mem with
      displacement := mem.displacement + (if negative then -value else value)
      hasDisplacement := true }
  else if tok.type = .identifier then
    match parseRegister tok.text with
    | some (reg, _) => do
      advance
      memIndex mem reg
    | none =>
      if negative && mem.isRipRelative then
        error "Constraint" "Negative displacement with label reference not supported"
      else do
        advance
        pure { mem with label := tok.text.toLabel }
  else syntaxError "Expected register or number after +/- in memory operand"

def memScale (mem : MemOperand) : Parser MemOperand := do
  let tok ← current
  if tok.type = .number then
    if mem.index.isNone then error "Constraint" "Scale factor requires an index register"
    else do
      let scale ← scaleFactor tok
      pure { mem with scale := scale }
  else syntaxError "Expected scale factor (1, 2, 4, or 8)"

/-- One round of the loop over the components of a memory operand. -/
def memComponent (mem : MemOperand) : Parser MemOperand := do
  let tok ← current
  if tok.type = .identifier then do
    advance
    match parseRegister tok.text with
    | some (reg, size) => memRegister mem reg size
    | none => pure { mem with label := tok.text.toLabel }
  else if tok.type = .number then do
    advance
    pure { mem with
      displacement := mem.displacement + tok.value.setWidth 32
      hasDisplacement := true }
  else if tok.type = .plus || tok.type = .minus then do
    advance
    memSigned mem (tok.type == .minus)
  else if tok.type = .star then do
    advance
    memScale mem
  else syntaxError "Unexpected token in memory operand"

/-- The loop of `parse_memory_operand`; every round consumes a token, so that the number of
tokens left bounds the rounds. -/
def memComponents : Nat → MemOperand → Parser MemOperand
  | 0, mem => pure mem
  | rounds + 1, mem => do
    let tok ← current
    if tok.type = .rbracket || tok.type = .eof then pure mem
    else do
      let mem ← memComponent mem
      memComponents rounds mem

def parseMemoryOperand : Parser MemOperand := do
  require .lbracket "Expected '[' for memory operand"
  let tok ← current
  if tok.type = .identifier && eqIgnoreCase tok.text.bytes (str "abs") then do
    advance
    absoluteAddress
  else do
    let p ← Fallible.get
    let mem ← memComponents p.remaining {}
    closeBracket
    if mem.isRipRelative && (mem.base.isSome || mem.index.isSome) then
      error "Constraint" "RIP-relative addressing cannot combine base/index registers"
    else pure mem

/-- A label, or the difference of two, after its first name. -/
def labelExpression (lhs : Label) : Parser Operand := do
  let p ← Fallible.get
  if p.current.type = .minus && p.peek.type = .identifier then do
    advance
    let rhs ← next
    pure (.labelDiff lhs rhs.text.toLabel)
  else pure (.label lhs)

def dollarOperand : Parser Operand := do
  let tok ← current
  if tok.type = .number then do
    advance
    pure (.imm tok.value)
  else if tok.type = .identifier then do
    advance
    labelExpression tok.text.toLabel
  else syntaxError "Expected immediate value after '$'"

/-- A further string literal is appended when the whole fits. -/
def appendString (text more : Text) : Text :=
  if text.bytes.length + more.bytes.length < maxLineLength - 1 then
    CString.copyBounded _ (text.bytes ++ more.bytes)
  else text

def stringConcat : Nat → Text → Parser Text
  | 0, text => pure text
  | rounds + 1, text => do
    let tok ← current
    if tok.type = .string then do
      advance
      stringConcat rounds (appendString text tok.text)
    else pure text

def identifierOperand (tok : Token) : Parser Operand := do
  advance
  match parseRegister tok.text with
  | some (reg, size) => pure (.reg reg size)
  | none => labelExpression tok.text.toLabel

/-- `fs:[...]` and `gs:[...]`. -/
def segmentOperand (seg : MemSegment) : Parser Operand := do
  advance
  advance
  let tok ← current
  if tok.type = .lbracket then do
    let mem ← parseMemoryOperand
    pure (.mem { mem with segmentOverride := seg })
  else syntaxError "Segment override requires a memory operand"

def parseOperand : Parser Operand := do
  let p ← Fallible.get
  let tok := p.current
  if tok.type = .identifier && p.peek.type = .colon &&
      parseSegmentOverrideName tok.text ≠ .default then
    segmentOperand (parseSegmentOverrideName tok.text)
  else
    match tok.type with
    | .dollar => do
      advance
      dollarOperand
    | .lbracket => do
      let mem ← parseMemoryOperand
      pure (.mem mem)
    | .identifier => identifierOperand tok
    | .number | .char => do
      advance
      pure (.imm tok.value)
    | .string => do
      advance
      let p ← Fallible.get
      let text ← stringConcat p.remaining tok.text
      pure (.string text)
    | _ => error "Syntax" "Unexpected token '%s' in operand" [tok.text.bytes.take 200]

end Parser

def isSseMoveInst : InstType → Bool
  | .movaps | .movups | .movss | .movapd | .movupd | .movsdXmm | .movdqa | .movdqu => true
  | _ => false

def isSseArithInst : InstType → Bool
  | .addss | .addps | .addsd | .addpd | .subss | .subps | .subsd | .subpd
  | .mulss | .mulps | .mulsd | .mulpd | .divss | .divps | .divsd | .divpd => true
  | _ => false

def isSsePackedInst : InstType → Bool
  | .paddb | .paddw | .paddd | .paddq | .psubb | .psubw | .psubd | .psubq
  | .pcmpeqb | .pcmpeqw | .pcmpeqd | .pcmpeqq | .pcmpgtb | .pcmpgtw | .pcmpgtd | .pcmpgtq
  | .pand | .pandn | .por | .pxor => true
  | _ => false

def isXmmRegOperand : Operand → Bool
  | .reg _ size => size == .xmm
  | _ => false

def Operand.isMem : Operand → Bool
  | .mem _ => true
  | _ => false

namespace Parser

def validateSseMove : List Operand → Parser Unit
  | [dst, src] =>
    if dst.isMem && src.isMem then
      error "Constraint" "SSE move does not allow memory-to-memory operands"
    else if dst.isMem && !isXmmRegOperand src then
      error "Constraint" "SSE move memory destination requires XMM source register"
    else if isXmmRegOperand dst && !isXmmRegOperand src && !src.isMem then
      error "Constraint" "SSE move with XMM destination requires XMM or memory source"
    else if !isXmmRegOperand dst && !isXmmRegOperand src then
      error "Constraint" "SSE move requires at least one XMM operand"
    else pure ()
  | _ => error "Constraint" "SSE move requires exactly 2 operands"

/-- The checks of the other two families, which differ in their messages only. -/
def validateSseBinary (countMessage dstMessage srcMessage : String) : List Operand → Parser Unit
  | [dst, src] =>
    if !isXmmRegOperand dst then error "Constraint" dstMessage
    else if !isXmmRegOperand src && !src.isMem then error "Constraint" srcMessage
    else pure ()
  | _ => error "Constraint" countMessage

def validateSseOperands (type : InstType) (operands : List Operand) : Parser Unit :=
  if isSseMoveInst type then validateSseMove operands
  else if isSseArithInst type then
    validateSseBinary "SSE arithmetic requires exactly 2 operands"
      "SSE arithmetic destination must be XMM register"
      "SSE arithmetic source must be XMM or memory" operands
  else if isSsePackedInst type then
    validateSseBinary "SSE packed instruction requires exactly 2 operands"
      "SSE packed instruction destination must be an XMM register"
      "SSE packed instruction source must be an XMM register or memory operand" operands
  else pure ()

end Parser

/-- `inst_table`. -/
def instTable : List (String × InstType) :=
  [("mov", .mov), ("push", .push), ("pop", .pop), ("lea", .lea), ("movzx", .movzx),
   ("movsx", .movsx), ("xchg", .xchg), ("bswap", .bswap),
   ("cmova", .cmova), ("cmovae", .cmovae), ("cmovb", .cmovb), ("cmovbe", .cmovbe),
   ("cmove", .cmove), ("cmovg", .cmovg), ("cmovge", .cmovge), ("cmovl", .cmovl),
   ("cmovle", .cmovle), ("cmovne", .cmovne), ("cmovno", .cmovno), ("cmovnp", .cmovnp),
   ("cmovns", .cmovns), ("cmovo", .cmovo), ("cmovp", .cmovp), ("cmovs", .cmovs),
   ("add", .add), ("adc", .adc), ("sub", .sub), ("sbb", .sbb), ("mul", .mul), ("imul", .imul),
   ("div", .div), ("idiv", .idiv), ("inc", .inc), ("dec", .dec), ("neg", .neg), ("cmp", .cmp),
   ("xor", .xor), ("or", .or), ("and", .and), ("not", .not), ("test", .test),
   ("shl", .shl), ("shr", .shr), ("sal", .sal), ("sar", .sar), ("rol", .rol), ("ror", .ror),
   ("rcl", .rcl), ("rcr", .rcr), ("shld", .shld), ("shrd", .shrd),
   ("bt", .bt), ("bts", .bts), ("btr", .btr), ("btc", .btc), ("bsf", .bsf), ("bsr", .bsr),
   ("jmp", .jmp), ("ja", .ja), ("jae", .jae), ("jb", .jb), ("jbe", .jbe), ("je", .je),
   ("jg", .jg), ("jge", .jge), ("jl", .jl), ("jle", .jle), ("jne", .jne), ("jnz", .jnz),
   ("jno", .jno), ("jnp", .jnp), ("jns", .jns), ("jo", .jo), ("jp", .jp), ("js", .js),
   ("call", .call), ("ret", .ret), ("int", .int), ("syscall", .syscall), ("sysret", .sysret),
   ("seta", .seta), ("setae", .setae), ("setb", .setb), ("setbe", .setbe), ("sete", .sete),
   ("setg", .setg), ("setge", .setge), ("setl", .setl), ("setle", .setle), ("setne", .setne),
   ("setno", .setno), ("setnp", .setnp), ("setns", .setns), ("seto", .seto), ("setp", .setp),
   ("sets", .sets), ("leave", .leave), ("enter", .enter), ("nop", .nop), ("hlt", .hlt),
   ("clc", .clc), ("stc", .stc), ("cmc", .cmc), ("cld", .cld), ("std", .std), ("cli", .cli),
   ("sti", .sti), ("cbw", .cbw), ("cwd", .cwd), ("cwde", .cwde), ("cqo", .cqo), ("cdq", .cdq),
   ("cdqe", .cdqe), ("movsb", .movsb), ("movsw", .movsw), ("movsd", .movsd), ("movsq", .movsq),
   ("movaps", .movaps), ("movups", .movups), ("movss", .movss), ("movapd", .movapd),
   ("movupd", .movupd), ("addss", .addss), ("addps", .addps), ("addsd", .addsd),
   ("addpd", .addpd), ("subss", .subss), ("subps", .subps), ("subsd", .subsd),
   ("subpd", .subpd), ("mulss", .mulss), ("mulps", .mulps), ("mulsd", .mulsd),
   ("mulpd", .mulpd), ("divss", .divss), ("divps", .divps), ("divsd", .divsd),
   ("divpd", .divpd), ("movdqa", .movdqa), ("movdqu", .movdqu),
   ("paddb", .paddb), ("paddw", .paddw), ("paddd", .paddd), ("paddq", .paddq),
   ("psubb", .psubb), ("psubw", .psubw), ("psubd", .psubd), ("psubq", .psubq),
   ("pcmpeqb", .pcmpeqb), ("pcmpeqw", .pcmpeqw), ("pcmpeqd", .pcmpeqd), ("pcmpeqq", .pcmpeqq),
   ("pcmpgtb", .pcmpgtb), ("pcmpgtw", .pcmpgtw), ("pcmpgtd", .pcmpgtd), ("pcmpgtq", .pcmpgtq),
   ("pand", .pand), ("pandn", .pandn), ("por", .por), ("pxor", .pxor),
   ("db", .db), ("dw", .dw), ("dd", .dd), ("dq", .dq),
   ("resb", .resb), ("resw", .resw), ("resd", .resd), ("resq", .resq),
   ("equ", .equ), ("times", .times), ("align", .align), ("incbin", .incbin),
   ("comm", .comm), (".comm", .comm), ("lcomm", .lcomm), (".lcomm", .lcomm),
   ("global", .global), ("extern", .externSym), (".global", .global), (".extern", .externSym),
   ("weak", .weak), ("hidden", .hidden), (".weak", .weak), (".hidden", .hidden),
   ("section", .sectionDir), (".section", .sectionDir), ("segment", .sectionDir),
   (".segment", .sectionDir), (".text", .sectionDir), (".data", .sectionDir),
   ("text", .sectionDir), ("data", .sectionDir), (".bss", .sectionDir), ("bss", .sectionDir),
   (".rodata", .sectionDir), ("rodata", .sectionDir)]

def lookupInstructionType (mnemonic : Text) : Option InstType :=
  (instTable.find? fun entry => eqIgnoreCase mnemonic.bytes (str entry.1)).map Prod.snd

def isSectionKeyword (mnemonic : Text) : Bool :=
  ["section", ".section", "segment", ".segment"].any fun word =>
    eqIgnoreCase mnemonic.bytes (str word)

namespace Parser

/-- An `equ` line from its name on. -/
def equDefinition (inst : ParsedInstruction) (name : Token) : Parser ParsedInstruction := do
  advance
  advance
  let op ← parseOperand
  match op with
  | .imm _ | .label _ | .labelDiff _ _ =>
    pure { inst with
      type := .equ
      label := some name.text.toLabel
      labelColumn := name.column
      operands := inst.operands ++ [op] }
  | _ => syntaxError "equ directive requires a numeric value, label, or label subtraction"

/-- `name equ expression`, when the next two tokens announce one. -/
def maybeParseEquDirective (inst : ParsedInstruction) : Parser (Option ParsedInstruction) := do
  let p ← Fallible.get
  if p.current.type = .identifier && p.peek.type = .identifier &&
      eqIgnoreCase p.peek.text.bytes (str "equ") then do
    let inst ← equDefinition inst p.current
    pure (some inst)
  else pure none

/-- `.text`, `data` and the like as a directive of their own; the name stands as a label
operand. -/
def applySectionShorthand (inst : ParsedInstruction) (mnemonic : Text) :
    Parser ParsedInstruction := do
  let tok ← current
  if tok.type = .newline || tok.type = .eof then
    pure { inst with operands := [.label mnemonic.toLabel] }
  else syntaxError "Section shorthand directives do not take operands"

def commAlignmentOperand : Parser (List Operand) := do
  if ← expect .comma then do
    let tok ← current
    if tok.type = .number then do
      advance
      pure [.imm tok.value]
    else syntaxError ".comm/.lcomm alignment must be a number"
  else pure []

def parseCommLcommOperands : Parser (List Operand) := do
  let name ← current
  if name.type = .identifier then do
    advance
    let _ ← expect .comma
    let size ← current
    if size.type = .number then do
      advance
      let rest ← commAlignmentOperand
      pure (.label name.text.toLabel :: .imm size.value :: rest)
    else syntaxError ".comm/.lcomm requires a size"
  else syntaxError ".comm/.lcomm requires a symbol name"

/-- The loop of `parse_operands_until_eol`, with the operands read so far. -/
def operandsUntilEol : Nat → List Operand → Parser (List Operand)
  | 0, ops => pure ops
  | rounds + 1, ops => do
    let tok ← current
    if tok.type = .newline || tok.type = .eof then pure ops
    else if maxOperands ≤ ops.length then syntaxError "Too many operands"
    else do
      let op ← parseOperand
      let _ ← expect .comma
      operandsUntilEol rounds (ops ++ [op])

def parseOperandsUntilEol : Parser (List Operand) := do
  let p ← Fallible.get
  operandsUntilEol p.remaining []

def parseMnemonic (inst : ParsedInstruction) (mnemonic : Text) : Parser ParsedInstruction := do
  match lookupInstructionType mnemonic with
  | none => error "Syntax" "Unknown instruction '%s'" [mnemonic.bytes.take 200]
  | some type =>
    advance
    let inst := { inst with type := type }
    if type = .sectionDir && !isSectionKeyword mnemonic then applySectionShorthand inst mnemonic
    else if type = .comm || type = .lcomm then do
      let operands ← parseCommLcommOperands
      pure { inst with operands := operands }
    else do
      let operands ← parseOperandsUntilEol
      -- with operands, `movsd` is the SSE move and not the string instruction
      let type := if type = .movsd && operands ≠ [] then .movsdXmm else type
      validateSseOperands type operands
      pure { inst with type := type, operands := operands }

def parseLabel (inst : ParsedInstruction) : Parser ParsedInstruction := do
  let p ← Fallible.get
  if p.current.type = .identifier && p.peek.type = .colon then do
    advance
    advance
    pure { inst with label := some p.current.text.toLabel, labelColumn := p.current.column }
  else pure inst

def parseBody (inst : ParsedInstruction) : Parser ParsedInstruction := do
  match ← maybeParseEquDirective inst with
  | some inst => pure inst
  | none => do
    let tok ← current
    if tok.type = .identifier then parseMnemonic inst tok.text else pure inst

def captureOriginalLine (lx : Lexer) : Text :=
  CString.copyBounded _ (lx.lineStart.takeWhile fun b => b != 0x0A#8 && b != 0x0D#8)

def parseInstruction : Parser ParsedInstruction := do
  let p ← Fallible.get
  let blank : ParsedInstruction :=
    { type := .nop, lineNumber := p.lexer.line, originalLine := captureOriginalLine p.lexer }
  if p.current.type = .eof then pure blank
  else do
    let inst ← parseLabel blank
    parseBody inst

end Parser

/-- A line without a mnemonic or label leaves no instruction. -/
def shouldKeepInstruction (inst : ParsedInstruction) (prevType : TokenType) : Bool :=
  inst.type ≠ .nop || inst.label.isSome || prevType = .identifier

/-- The state of the loop of `parse_source_internal` between two rounds. -/
structure ParseLoop where
  parser : ParserState
  insts : List ParsedInstruction := []
deriving DecidableEq

/-- What a round of the loop leads to: `parsed` when it is over, `failed` when the statement
does not parse, with the diagnostics printed. -/
inductive ParseRound
  | parsed (insts : List ParsedInstruction)
  | failed (stderr : List Diagnostic)
  | next (s : ParseLoop)

def skipNewline (p : ParserState) : ParserState :=
  if p.current.type = .newline then p.advance else p

def parseRound (s : ParseLoop) : ParseRound :=
  if s.parser.current.type = .eof then .parsed s.insts
  else
    match Parser.parseInstruction s.parser with
    | (none, p) => .failed p.stderr
    | (some inst, p) =>
      .next
        { parser := skipNewline p
          insts :=
            if shouldKeepInstruction inst s.parser.current.type then s.insts ++ [inst]
            else s.insts }

def parseStart (source : List Byte) : ParseLoop := { parser := initTokens source }

/-- The result of `parse_source_internal` within a number of rounds; `none` when they are not
enough, and `some none` for the null pointer. -/
def parseRounds : Nat → ParseLoop → Option (Option (List ParsedInstruction))
  | 0, _ => none
  | rounds + 1, s =>
    match parseRound s with
    | .parsed insts => some (some insts)
    | .failed _ => some none
    | .next s => parseRounds rounds s

end X86Assembler
