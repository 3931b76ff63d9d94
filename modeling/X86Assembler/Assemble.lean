import X86Assembler.Canonicalize
import X86Assembler.Fixups
import X86Assembler.Layout
import X86Assembler.Library.Walk

namespace X86Assembler

open CString (Byte)
open Fallible (ignore each)

/-- Pass 1a: the section walked through and the estimated size of the text section. -/
def sizeStep (st : SectionId × Word) (inst : ParsedInstruction) : SectionId × Word :=
  if inst.type = .sectionDir then (sectionAfterDirective st.1 inst, st.2)
  else if st.1 = .data then st
  else if isData inst.type then
    (st.1, st.2 + BitVec.ofNat 64 (itemSize inst.type * inst.operands.length))
  else
    match inst.type with
    | .global | .externSym | .weak | .hidden | .nop => st
    | _ => (st.1, st.2 + BitVec.ofNat 64 (estimateInstructionSize inst))

def textSizeEstimate (insts : List ParsedInstruction) : Word :=
  (insts.foldl sizeStep (.text, 0)).2

def recordDeclaration (ctx : AssemblerContext) (name : Label) (inst : ParsedInstruction) :
    AssemblerContext :=
  updateFirstSymbol ctx name fun sym =>
    if sym.declLine = 0 then
      { sym with
        declLine := max inst.lineNumber 1
        declColumn := max inst.labelColumn 1
        isFunction := sym.isFunction ||
          (ctx.currentSection = .text && name = CString.lit _ "_start") }
    else sym

def recordLabel (inst : ParsedInstruction) (address : Word) : Asm Unit :=
  match inst.label with
  | none => pure ()
  | some name => do
    let ctx ← Fallible.get
    ignore (addSymbol name address false false (some ctx.currentSection))
    Fallible.modify fun ctx => recordDeclaration ctx name inst

/-- The address after an instruction, as pass 1b advances it. -/
def recordedNext (ctx : AssemblerContext) (inst : ParsedInstruction) (address : Word) : Word :=
  if isData inst.type then address + BitVec.ofNat 64 (dataSize inst)
  else if isReserve inst.type then address + (reserveBytes inst).getD 0
  else
    match inst.type, inst.operands with
    | .align, .imm v :: _ =>
      if isPowerOfTwo (v.setWidth 32) then
        address + BitVec.ofNat 64 (alignPadding address ((v.setWidth 32 : BitVec 32).signExtend 64))
      else address
    | .incbin, .string filename :: _ =>
      address + BitVec.ofNat 64 ((ctx.files filename).getD []).length
    | .comm, _ :: .imm size :: rest | .lcomm, _ :: .imm size :: rest =>
      if 0 < size.toInt then commAddress address (commAlignment rest) + size else address
    | .equ, _ | .align, _ | .incbin, _ | .comm, _ | .lcomm, _ | .global, _ | .externSym, _
    | .weak, _ | .hidden, _ | .nop, _ | .times, _ => address
    | _, _ =>
      match ctx.currentSection with
      | .text => address + BitVec.ofNat 64 (estimateInstructionSize inst)
      | .data => address

def negativeReserve (inst : ParsedInstruction) : Bool :=
  isReserve inst.type && (reserveBytes inst).any (fun n => n.toInt < 0)

/-- Pass 1b on one instruction, with the address reached in the data section. -/
def recordStep (dataAddress : Word) (inst : ParsedInstruction) : Asm Word := do
  let ctx ← Fallible.get
  if inst.type = .sectionDir then do
    Fallible.modify fun ctx => applySectionDirective ctx inst
    pure dataAddress
  else do
    let address := match ctx.currentSection with
      | .text => ctx.currentAddress
      | .data => dataAddress
    recordLabel inst address
    if negativeReserve inst then
      reportError
        { line := inst.lineNumber, category := "Directive", message := "Negative reserve size" }
    else
      match ctx.currentSection with
      | .text => do
        Fallible.modify fun ctx =>
          { ctx with currentAddress := recordedNext ctx inst ctx.currentAddress }
        pure dataAddress
      | .data => pure (recordedNext ctx inst dataAddress)

def recordLabels (dataAddress : Word) : List ParsedInstruction → Asm Unit
  | [] => pure ()
  | inst :: insts => do
    let dataAddress ← recordStep dataAddress inst
    recordLabels dataAddress insts

def undefinedInEqu (inst : ParsedInstruction) (name : Label) : Diagnostic :=
  { line := inst.lineNumber, category := "Symbol", message := "Undefined symbol '%s' in equ",
    args := [name.bytes] }

/-- The value of an `equ` expression under the present symbol table. -/
def equValue (ctx : AssemblerContext) (inst : ParsedInstruction) (op : Operand) :
    Except Diagnostic Word :=
  match op with
  | .imm v => .ok v
  | .label name =>
    match findSymbolAddress ctx name with
    | some address => .ok address
    | none => .error (undefinedInEqu inst name)
  | .labelDiff lhs rhs =>
    match findSymbolAddress ctx lhs, findSymbolAddress ctx rhs with
    | some l, some r => .ok (l - r)
    | none, _ => .error (undefinedInEqu inst lhs)
    | _, none => .error (undefinedInEqu inst rhs)
  | _ => .error
    { line := inst.lineNumber, category := "Directive", message := "Unsupported equ expression" }

def defineEqu (inst : ParsedInstruction) (name : Label) (op : Operand) : Asm Unit := do
  let ctx ← Fallible.get
  match equValue ctx inst op with
  | .ok value => upsertConstantSymbol name value
  | .error d => reportError d

def resolveEqu (inst : ParsedInstruction) : Asm Unit :=
  if inst.type = .equ then
    match inst.label, inst.operands with
    | some name, op :: _ => defineEqu inst name op
    | _, _ => pure ()
  else pure ()

def resolveEquSymbolValues (insts : List ParsedInstruction) : Asm Unit := each resolveEqu insts

/-- A label operand that names a constant becomes an immediate. -/
def rewriteConstantOperand (ctx : AssemblerContext) (op : Operand) : Operand :=
  match op with
  | .label name =>
    match getSymbolInfo ctx name with
    | some entry => if entry.isResolved && entry.sect.isNone then .imm entry.address else op
    | none => op
  | op => op

def rewriteConstantLabelOperands (ctx : AssemblerContext) (inst : ParsedInstruction) :
    ParsedInstruction :=
  { inst with operands := inst.operands.map (rewriteConstantOperand ctx) }

/-- The locals of `asm_assemble` that a text pass fills. -/
structure TextPassState where
  layoutChanged : Bool := false
  weakAttrs : List Label := []
  hiddenAttrs : List Label := []

def attributeName (type : InstType) : String := if type = .weak then "weak" else "hidden"

def collectAttribute (inst : ParsedInstruction) (st : TextPassState) (op : Operand) :
    Asm TextPassState :=
  match op with
  | .label name =>
    if inst.type = .weak then
      if maxSymbols ≤ st.weakAttrs.length then
        reportError
          { line := inst.lineNumber, category := "Directive",
            message := "Too many weak symbol attributes" }
      else pure { st with weakAttrs := st.weakAttrs ++ [name] }
    else
      if maxSymbols ≤ st.hiddenAttrs.length then
        reportError
          { line := inst.lineNumber, category := "Directive",
            message := "Too many hidden symbol attributes" }
      else pure { st with hiddenAttrs := st.hiddenAttrs ++ [name] }
  | _ =>
    reportError
      { line := inst.lineNumber, category := "Directive",
        message := attributeName inst.type ++ " requires label operands" }

def collectAttributes (inst : ParsedInstruction) (st : TextPassState) :
    List Operand → Asm TextPassState
  | [] => pure st
  | op :: ops => do
    let st ← collectAttribute inst st op
    collectAttributes inst st ops

def labelMoves (ctx : AssemblerContext) (inst : ParsedInstruction) : Bool :=
  match inst.label with
  | none => false
  | some name => ctx.symbols.any fun sym => sym.name == name && sym.address != ctx.currentAddress

def placeLabel (ctx : AssemblerContext) (inst : ParsedInstruction) : AssemblerContext :=
  match inst.label with
  | none => ctx
  | some name => moveLabel ctx name ctx.currentAddress

def markGlobal (ctx : AssemblerContext) (op : Operand) : AssemblerContext :=
  match op with
  | .label name => updateSymbols ctx name fun sym =>
      { sym with isGlobal := true, isFunction := sym.isFunction || sym.sect == some .text }
  | _ => ctx

/-- The target of a `call` is a function, if it lies in the text section. -/
def markCallTarget (ctx : AssemblerContext) (inst : ParsedInstruction) : AssemblerContext :=
  match inst.type, inst.operands with
  | .call, .label name :: _ =>
    { ctx with
      symbols := HashChain.modifyFirst (fun sym => sym.name == name && sym.sect == some .text)
        (fun sym => { sym with isFunction := true }) ctx.symbols }
  | _, _ => ctx

def declareExternal (op : Operand) : Asm Unit :=
  match op with
  | .label name => ignore (addSymbol name 0 false true (some .text))
  | _ => pure ()

def addLineMapEntry (ctx : AssemblerContext) (inst : ParsedInstruction) : AssemblerContext :=
  if ctx.lineMap.length < maxLineMap then
    { ctx with lineMap := ctx.lineMap ++ [⟨inst.address, max inst.lineNumber 1⟩] }
  else ctx

/-- `encode_instruction` inside a listing entry; `what` completes the message of a failure. -/
def encodeListed (what : String) (inst : ParsedInstruction) : Asm Unit := fun ctx =>
  let ctx := ctx.listingStartInstruction inst.lineNumber inst.originalLine
  match encodeInstruction inst ctx with
  | (some (), ctx) => (some (), ctx.listingEndInstruction)
  | (none, ctx) => (none, ctx.listingEndInstruction.report
      { line := inst.lineNumber, category := "Encoder", message := "Failed to encode " ++ what })

/-- What the text pass does with an instruction once its label is placed. -/
def emitTextStatement (inst : ParsedInstruction) : Asm Unit :=
  if inst.type = .global then
    Fallible.modify fun ctx => inst.operands.foldl markGlobal ctx
  else if inst.type = .externSym then each declareExternal inst.operands
  else do
    Fallible.modify fun ctx => markCallTarget ctx inst
    if isLabelOnly inst then pure ()
    else do
      Fallible.modify fun ctx => addLineMapEntry ctx inst
      encodeListed "instruction" inst

def textStep (st : TextPassState) (inst : ParsedInstruction) :
    Asm (TextPassState × ParsedInstruction) := do
  let ctx ← Fallible.get
  if inst.type = .sectionDir then do
    Fallible.modify fun ctx => applySectionDirective ctx inst
    pure (st, inst)
  else if inst.type = .weak || inst.type = .hidden then do
    let st ← collectAttributes inst st inst.operands
    pure (st, inst)
  else if ctx.currentSection = .data then pure (st, inst)
  else do
    let placed := placeLabel ctx inst
    let inst' := rewriteConstantLabelOperands placed { inst with address := ctx.currentAddress }
    Fallible.modify fun ctx => placeLabel ctx inst
    emitTextStatement inst'
    pure ({ st with layoutChanged := st.layoutChanged || labelMoves ctx inst }, inst')

def textPass (st : TextPassState) (insts : List ParsedInstruction) :
    Asm (TextPassState × List ParsedInstruction) := Fallible.walk textStep st insts

def resetForTextPass (ctx : AssemblerContext) : AssemblerContext :=
  { ctx with
    currentAddress := ctx.baseAddress
    currentSection := .text
    textSection := []
    fixups := []
    lineMap := []
    listingEntries := []
    listingActive := none }

def textIteration (insts : List ParsedInstruction) :
    Asm (TextPassState × List ParsedInstruction) := do
  Fallible.modify resetForTextPass
  textPass {} insts

/-- One iteration, and up to `n` more as long as the layout changes. -/
def textIterations : Nat → List ParsedInstruction → Asm (TextPassState × List ParsedInstruction)
  | 0, insts => textIteration insts
  | n + 1, insts => do
    let (st, insts) ← textIteration insts
    if st.layoutChanged then textIterations n insts else pure (st, insts)

def textPassMaxIterations : Nat := 6

def setForwardShortBranches (enable : Bool) (ctx : AssemblerContext) : AssemblerContext :=
  { ctx with enableForwardShortBranches := enable }

/-- The two relaxation modes, the second only when the first does not converge. -/
def textModes (insts : List ParsedInstruction) : Asm (TextPassState × List ParsedInstruction) := do
  Fallible.modify (setForwardShortBranches true)
  let (st, insts) ← textIterations (textPassMaxIterations - 1) insts
  if st.layoutChanged then do
    Fallible.modify (setForwardShortBranches false)
    textIterations (textPassMaxIterations - 1) insts
  else pure (st, insts)

def applySymbolAttribute (directive : String) (f : Symbol → Symbol) (name : Label) : Asm Unit :=
  fun ctx =>
    match findSymbolEntry ctx name with
    | some _ => (some (), updateFirstSymbol ctx name f)
    | none => (none, ctx.report
        { line := 1, category := "Symbol",
          message := directive ++ " references undefined symbol '%s'", args := [name.bytes] })

def applySymbolAttributes (st : TextPassState) : Asm Unit := do
  each (applySymbolAttribute "weak" fun sym => { sym with isWeak := true }) st.weakAttrs
  each (applySymbolAttribute "hidden" fun sym => { sym with isHidden := true }) st.hiddenAttrs

def listed (inst : ParsedInstruction) (m : Asm Unit) : Asm Unit := do
  Fallible.modify fun ctx => ctx.listingStartInstruction inst.lineNumber inst.originalLine
  m
  Fallible.modify AssemblerContext.listingEndInstruction

/-- The data pass emits the data directives itself and leaves the others to
`encode_instruction`; it skips everything else. -/
def emitDataStatement (inst : ParsedInstruction) : Asm Unit :=
  match directiveKind inst.type with
  | some .data => listed inst (encodeData inst)
  | some .reserve =>
    if (reserveBytes inst).isSome then listed inst (encodeReserve inst) else pure ()
  | some .align => encodeListed "align" inst
  | some .incbin => encodeListed "incbin" inst
  | some .comm => encodeListed (commName inst.type) inst
  | _ => pure ()

def dataStep (inst : ParsedInstruction) : Asm Unit := do
  let ctx ← Fallible.get
  if inst.type = .sectionDir then Fallible.modify fun ctx => applySectionDirective ctx inst
  else if ctx.currentSection = .text then pure ()
  else do
    let placed := placeLabel ctx inst
    Fallible.modify fun ctx => placeLabel ctx inst
    emitDataStatement (rewriteConstantLabelOperands placed inst)

def resetForDataPass (ctx : AssemblerContext) : AssemblerContext :=
  { ctx with
    currentSection := .text
    dataSection := []
    currentAddress := ctx.baseAddress + BitVec.ofNat 64 ctx.textSection.length }

def dataPass (insts : List ParsedInstruction) : Asm Unit := do
  Fallible.modify resetForDataPass
  each dataStep insts

def canonicalize (insts : List ParsedInstruction) : Asm (List ParsedInstruction) := fun ctx =>
  match canonicalizeSymbolLabels insts with
  | .ok insts => (some insts, ctx)
  | .error (.printed d) => (none, ctx.report d)
  | .error (.recorded d) => (none, { ctx with lastError := some d })

def resetForPassOne (ctx : AssemblerContext) : AssemblerContext :=
  { ctx with
    currentAddress := ctx.baseAddress
    currentSection := .text
    lineMap := []
    listingEntries := []
    listingActive := none }

/-- Everything up to the text passes: symbols, constants and a first layout. -/
def layoutProgram (insts : List ParsedInstruction) : Asm Unit := do
  Fallible.modify resetForPassOne
  let ctx ← Fallible.get
  recordLabels (ctx.baseAddress + textSizeEstimate insts) insts
  resolveEquSymbolValues insts
  Fallible.modify fun ctx => recomputeTextLayoutRelaxed ctx insts
  resolveEquSymbolValues insts

/-- `asm_assemble` from the parsed program on. -/
def asmAssemble (insts : List ParsedInstruction) : Asm Unit := do
  Fallible.modify fun ctx => { ctx with lastError := none }
  let insts ← canonicalize insts
  layoutProgram insts
  let (st, insts) ← textModes insts
  applySymbolAttributes st
  dataPass insts
  resolveFixups

end X86Assembler
