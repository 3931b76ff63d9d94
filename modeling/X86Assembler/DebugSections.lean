import X86Assembler.Context
import X86Assembler.Includes
import X86Assembler.Library.Buffer
import X86Assembler.Library.ExchangeSort

namespace X86Assembler

open CString (Byte str CStr)
open LittleEndian
open Fill

/-- A `line_map` entry, with its line as an `int`. -/
structure LineRow where
  address : Word
  line : BitVec 32

/-- The part of `assembler_context_t` that `asm_write_elf64` reads. -/
structure OutputContext where
  textSection : List Byte := []
  dataSection : List Byte := []
  baseAddress : Word := 0x400000
  symbols : List Symbol := []
  lineMap : List LineRow := []
  currentFilename : CStr maxFilepathLength := CString.lit _ ""
  emitDebugMap : Bool := false

def AssemblerContext.toOutput (ctx : AssemblerContext) (currentFilename : CStr maxFilepathLength)
    (emitDebugMap : Bool) : OutputContext where
  textSection := ctx.textSection
  dataSection := ctx.dataSection
  baseAddress := ctx.baseAddress
  symbols := ctx.symbols
  lineMap := ctx.lineMap.map fun entry => ⟨entry.address, BitVec.ofNat 32 entry.line⟩
  currentFilename
  emitDebugMap

namespace OutputContext

variable (ctx : OutputContext)

def textSize : Word := BitVec.ofNat 64 ctx.textSection.length
def dataSize : Word := BitVec.ofNat 64 ctx.dataSection.length

def textEnd : Word := ctx.baseAddress + ctx.textSize

/-- The name of the source file, `name`. -/
def sourceName : Path :=
  if ctx.currentFilename.bytes = [] then str "<memory>" else ctx.currentFilename.bytes

end OutputContext

def debugInfoCapacity : Nat := 16384
def debugAbbrevCapacity : Nat := 256
def debugLineCapacity : Nat := 65536
def debugStrCapacity : Nat := 2048

section

variable {cap : Nat}

def appendU8Checked (value : Byte) : Fill cap Unit := append [value]
def appendLe16BufChecked (value : BitVec 16) : Fill cap Unit := append (leBytes 2 value)
def appendLe32BufChecked (value : BitVec 32) : Fill cap Unit := append (leBytes 4 value)
def appendLe64BufChecked (value : BitVec 64) : Fill cap Unit := append (leBytes 8 value)

def writeLe32AtChecked (offset : Nat) (value : BitVec 32) : Fill cap Unit :=
  writeAt offset (leBytes 4 value)

/-- The rounds of `append_uleb128_checked`; a 32-bit number takes at most five. -/
def ulebRounds : Nat → BitVec 32 → Fill cap Unit
  | 0, _ => pure ()
  | n + 1, value => do
    let byte := (value &&& 0x7F).setWidth 8
    let value := value >>> 7
    if value ≠ 0 then do
      appendU8Checked (byte ||| 0x80)
      ulebRounds n value
    else appendU8Checked byte

def appendUleb128Checked (value : BitVec 32) : Fill cap Unit := ulebRounds 5 value

/-- The rounds of `append_sleb128_checked`. -/
def slebRounds : Nat → BitVec 32 → Fill cap Unit
  | 0, _ => pure ()
  | n + 1, value => do
    let byte := (value &&& 0x7F).setWidth 8
    let signBit := byte &&& 0x40 ≠ 0
    let value := value.sshiftRight 7
    if value = 0 ∧ ¬signBit ∨ value = -1 ∧ signBit then appendU8Checked byte
    else do
      appendU8Checked (byte ||| 0x80)
      slebRounds n value

def appendSleb128Checked (value : BitVec 32) : Fill cap Unit := slebRounds 5 value

/-- `append_bytes_checked` of a string with its NUL. -/
def appendString (s : List Byte) : Fill cap Unit := append (s ++ [0])

def pathBasename (path : Path) : Path :=
  if path = [] then str "<memory>" else (path.reverse.takeWhile (· != 0x2F#8)).reverse

/-- `path_dirname` computes the same as `dirname_from_path`. -/
def pathDirname (path : Path) : Path := dirnameFromPath path

/-- `DW_LNS_advance_pc`. -/
def appendAdvancePc (lastAddr targetAddr : Word) : Fill cap Unit := do
  appendU8Checked 2
  appendUleb128Checked ((targetAddr - lastAddr).setWidth 32)

/-- `DW_LNS_advance_line`. -/
def appendAdvanceLine (lastLine targetLine : BitVec 32) : Fill cap Unit := do
  appendU8Checked 3
  appendSleb128Checked (targetLine - lastLine)

def LineRow.targetLine (row : LineRow) : BitVec 32 := if 0 < row.line.toInt then row.line else 1

/-- One round of the loop over `line_map`: the row, after the changes to the registers. -/
def appendRow (lastAddr : Word) (lastLine : BitVec 32) (row : LineRow) : Fill cap Unit := do
  (if lastAddr < row.address then appendAdvancePc lastAddr row.address else pure ())
  (if row.targetLine ≠ lastLine then appendAdvanceLine lastLine row.targetLine else pure ())
  appendU8Checked 1

/-- The loop over `line_map`, from the address and the line of the row before. -/
def appendRows (lastAddr : Word) (lastLine : BitVec 32) : List LineRow → Fill cap Word
  | [] => pure lastAddr
  | row :: rows => do
    appendRow lastAddr lastLine row
    appendRows (if lastAddr < row.address then row.address else lastAddr) row.targetLine rows

def appendEndRow (lastAddr textEnd : Word) : Fill cap Unit :=
  if lastAddr < textEnd then do
    appendAdvancePc lastAddr textEnd
    appendU8Checked 1
  else pure ()

end

/-- The header of the line program, up to the first opcode. -/
def appendLineHeader (ctx : OutputContext) : Fill debugLineCapacity Unit := do
  appendLe32BufChecked 0
  appendLe16BufChecked 4
  let lineHdrLenOff ← position
  appendLe32BufChecked 0
  let lineHdrStart ← position
  appendU8Checked 1
  appendU8Checked 1
  appendU8Checked 1
  appendU8Checked (-5)
  appendU8Checked 14
  appendU8Checked 13
  append (List.replicate 12 0)
  appendString (pathDirname ctx.sourceName)
  appendU8Checked 0
  appendString (pathBasename ctx.sourceName)
  appendUleb128Checked 1
  appendUleb128Checked 0
  appendUleb128Checked 0
  appendU8Checked 0
  let size ← position
  writeLe32AtChecked lineHdrLenOff (BitVec.ofNat 32 (size - lineHdrStart))

def appendLineProgram (ctx : OutputContext) : Fill debugLineCapacity Unit := do
  appendU8Checked 0
  appendU8Checked 9
  appendU8Checked 2
  appendLe64BufChecked ctx.baseAddress
  let lastAddr ← appendRows ctx.baseAddress 1 ctx.lineMap
  appendEndRow lastAddr ctx.textEnd
  appendU8Checked 0
  appendU8Checked 1
  appendU8Checked 1

def debugLine (ctx : OutputContext) : Fill debugLineCapacity Unit := do
  let lineLenOff ← position
  appendLineHeader ctx
  appendLineProgram ctx
  let size ← position
  writeLe32AtChecked lineLenOff (BitVec.ofNat 32 (size - 4))

/-- The offsets of the names in `.debug_str`, by the index of the symbol, and the indices of the
symbols that get a DIE. -/
structure SymbolIndexes where
  symbolStrOff : Nat → Option (BitVec 32) := fun _ => none
  functions : List Nat := []
  labels : List Nat := []

/-- The text symbols with an address in the text or at its end. -/
def OutputContext.hasDie (ctx : OutputContext) (sym : Symbol) : Bool :=
  sym.isResolved && !sym.isExternal && sym.sect == some .text &&
    !(sym.address < ctx.baseAddress) && !(ctx.textEnd < sym.address)

def appendSymbolName (i : Nat) (sym : Symbol) (ix : SymbolIndexes) :
    Fill debugStrCapacity SymbolIndexes :=
  if (ix.symbolStrOff i).isSome then pure ix
  else do
    let off ← position
    appendString sym.name.bytes
    pure { ix with symbolStrOff := fun j =>
      if j = i then some (BitVec.ofNat 32 off) else ix.symbolStrOff j }

def indexSymbols (ctx : OutputContext) :
    Nat → List Symbol → SymbolIndexes → Fill debugStrCapacity SymbolIndexes
  | _, [], ix => pure ix
  | i, sym :: syms, ix =>
    if ctx.hasDie sym then do
      let ix ← appendSymbolName i sym ix
      indexSymbols ctx (i + 1) syms
        (if sym.isFunction then { ix with functions := ix.functions ++ [i] }
          else { ix with labels := ix.labels ++ [i] })
    else indexSymbols ctx (i + 1) syms ix

/-- Without a function the first `_start` of the text is taken for one. -/
def indexStart (ctx : OutputContext) (ix : SymbolIndexes) : Fill debugStrCapacity SymbolIndexes :=
  if ix.functions = [] then
    match ctx.symbols.findIdx? fun sym =>
        sym.sect == some .text && sym.name.bytes == str "_start" with
    | some i => do
      let ix := { ix with functions := [i] }
      match ctx.symbols[i]? with
      | some sym => appendSymbolName i sym ix
      | none => pure ix
    | none => pure ix
  else pure ix

structure StringOffsets where
  producer : BitVec 32
  name : BitVec 32
  compDir : BitVec 32
  typeU64 : BitVec 32
  typeU64Ptr : BitVec 32
  symbols : SymbolIndexes

def appendStringAt {cap : Nat} (s : List Byte) : Fill cap (BitVec 32) := do
  let off ← position
  appendString s
  pure (BitVec.ofNat 32 off)

def OutputContext.addressOf (ctx : OutputContext) (i : Nat) : Word :=
  (ctx.symbols[i]?.map Symbol.address).getD 0

def OutputContext.sortKey (ctx : OutputContext) (i : Nat) : Nat := (ctx.addressOf i).toNat

def debugStr (ctx : OutputContext) : Fill debugStrCapacity StringOffsets := do
  let producer ← appendStringAt (str "x86_64-asm")
  let name ← appendStringAt ctx.sourceName
  let compDir ← appendStringAt (pathDirname ctx.sourceName)
  let typeU64 ← appendStringAt (str "u64")
  let typeU64Ptr ← appendStringAt (str "u64*")
  let ix ← indexSymbols ctx 0 ctx.symbols {}
  let ix ← indexStart ctx ix
  pure { producer, name, compDir, typeU64, typeU64Ptr, symbols := { ix with
    functions := ExchangeSort.sort ctx.sortKey ix.functions
    labels := ExchangeSort.sort ctx.sortKey ix.labels } }

/-- One declaration: its code, its tag, whether it has children, and its attributes with their
forms. -/
def appendAbbrev (code tag : BitVec 32) (hasChildren : Byte)
    (attrs : List (BitVec 32 × BitVec 32)) : Fill debugAbbrevCapacity Unit := do
  appendUleb128Checked code
  appendUleb128Checked tag
  appendU8Checked hasChildren
  attrs.forM fun attr => do
    appendUleb128Checked attr.1
    appendUleb128Checked attr.2
  appendU8Checked 0
  appendU8Checked 0

def debugAbbrev : Fill debugAbbrevCapacity Unit := do
  appendAbbrev 1 0x11 1 [(0x25, 0x0E), (0x13, 0x05), (0x03, 0x0E), (0x1B, 0x0E), (0x10, 0x17),
    (0x11, 0x01), (0x12, 0x07)]
  appendAbbrev 2 0x24 0 [(0x03, 0x0E), (0x3E, 0x0B), (0x0B, 0x0B)]
  appendAbbrev 3 0x0F 0 [(0x03, 0x0E), (0x0B, 0x0B), (0x49, 0x13)]
  appendAbbrev 4 0x2E 1 [(0x03, 0x0E), (0x3A, 0x0B), (0x3B, 0x0F), (0x39, 0x0F), (0x3F, 0x0C),
    (0x11, 0x01), (0x12, 0x07), (0x49, 0x13)]
  appendAbbrev 5 0x0B 0 [(0x11, 0x01), (0x12, 0x07)]
  appendAbbrev 6 0x0A 0 [(0x03, 0x0E), (0x3A, 0x0B), (0x3B, 0x0F), (0x39, 0x0F), (0x11, 0x01)]
  appendU8Checked 0

def declNumber (n : Nat) : BitVec 32 := if 0 < n then BitVec.ofNat 32 n else 1

/-- `next_addr > low_pc ? next_addr - low_pc : 0`. -/
def spanTo (lowPc nextAddr : Word) : Word := if lowPc < nextAddr then nextAddr - lowPc else 0

/-- The subprogram DIE of a symbol with its lexical block. -/
def appendSubprogram (strOff : BitVec 32) (sym : Symbol) (nextAddr : Word)
    (typeRef : BitVec 32) : Fill debugInfoCapacity Unit := do
  let span := spanTo sym.address nextAddr
  appendUleb128Checked 4
  appendLe32BufChecked strOff
  appendU8Checked 1
  appendUleb128Checked (declNumber sym.declLine)
  appendUleb128Checked (declNumber sym.declColumn)
  appendU8Checked (if sym.isGlobal then 1 else 0)
  appendLe64BufChecked sym.address
  appendLe64BufChecked span
  appendLe32BufChecked typeRef
  appendUleb128Checked 5
  appendLe64BufChecked sym.address
  appendLe64BufChecked span
  appendU8Checked 0

def appendLabel (strOff : BitVec 32) (sym : Symbol) : Fill debugInfoCapacity Unit := do
  appendUleb128Checked 6
  appendLe32BufChecked strOff
  appendU8Checked 1
  appendUleb128Checked (declNumber sym.declLine)
  appendUleb128Checked (declNumber sym.declColumn)
  appendLe64BufChecked sym.address

/-- The symbol of an index with the offset of its name; an offset that was not set is 0. -/
def symbolAt (ctx : OutputContext) (ix : SymbolIndexes) (i : Nat) : Option (BitVec 32 × Symbol) :=
  ctx.symbols[i]?.map fun sym => ((ix.symbolStrOff i).getD 0, sym)

/-- The loop over the functions; each ends where the next one begins. -/
def appendSubprograms (ctx : OutputContext) (ix : SymbolIndexes) (typeRef : BitVec 32) :
    List Nat → Fill debugInfoCapacity Unit
  | [] => pure ()
  | i :: rest => do
    let nextAddr := (rest.head?.map ctx.addressOf).getD ctx.textEnd
    (match symbolAt ctx ix i with
      | some (strOff, sym) => appendSubprogram strOff sym nextAddr typeRef
      | none => pure ())
    appendSubprograms ctx ix typeRef rest

def appendLabels (ctx : OutputContext) (ix : SymbolIndexes) : List Nat → Fill debugInfoCapacity Unit
  | [] => pure ()
  | i :: rest => do
    (match symbolAt ctx ix i with
      | some (strOff, sym) => appendLabel strOff sym
      | none => pure ())
    appendLabels ctx ix rest

def debugInfo (ctx : OutputContext) (off : StringOffsets) : Fill debugInfoCapacity Unit := do
  let infoLenOff ← position
  appendLe32BufChecked 0
  appendLe16BufChecked 4
  appendLe32BufChecked 0
  appendU8Checked 8
  appendUleb128Checked 1
  appendLe32BufChecked off.producer
  appendLe16BufChecked 0x0001
  appendLe32BufChecked off.name
  appendLe32BufChecked off.compDir
  appendLe32BufChecked 0
  appendLe64BufChecked ctx.baseAddress
  appendLe64BufChecked ctx.textSize
  let baseTypeRefOff ← position
  appendUleb128Checked 2
  appendLe32BufChecked off.typeU64
  appendU8Checked 0x07
  appendU8Checked 8
  let pointerTypeRefOff ← position
  appendUleb128Checked 3
  appendLe32BufChecked off.typeU64Ptr
  appendU8Checked 8
  appendLe32BufChecked (BitVec.ofNat 32 baseTypeRefOff)
  appendSubprograms ctx off.symbols (BitVec.ofNat 32 pointerTypeRefOff) off.symbols.functions
  appendLabels ctx off.symbols off.symbols.labels
  appendU8Checked 0
  let size ← position
  writeLe32AtChecked infoLenOff (BitVec.ofNat 32 (size - 4))

structure DebugSections where
  info : List Byte := []
  abbrevs : List Byte := []
  line : List Byte := []
  str : List Byte := []

/-- The DWARF sections; `none` is the exit for a full buffer. -/
def debugSections (ctx : OutputContext) : Option DebugSections := do
  let (off, str) ← build (debugStr ctx)
  let (_, abbrevs) ← build debugAbbrev
  let (_, info) ← build (debugInfo ctx off)
  let (_, line) ← build (debugLine ctx)
  pure { info, abbrevs, line, str }

theorem debugSections_eq_some {ctx : OutputContext} {d : DebugSections}
    (h : debugSections ctx = some d) : ∃ off, build (debugStr ctx) = some (off, d.str) ∧
      build debugAbbrev = some ((), d.abbrevs) ∧ build (debugInfo ctx off) = some ((), d.info) ∧
        build (debugLine ctx) = some ((), d.line) := by
  simp only [debugSections, Option.bind_eq_bind, Option.bind_eq_some_iff] at h
  obtain ⟨⟨off, strs⟩, hstr, ⟨⟨⟩, abbrevs⟩, habbrevs, ⟨⟨⟩, info⟩, hinfo, ⟨⟨⟩, line⟩, hline, h⟩ := h
  cases h
  exact ⟨off, hstr, habbrevs, hinfo, hline⟩

end X86Assembler
