import X86Assembler.Library.Fallible
import X86Assembler.Library.HashChain
import X86Assembler.Types

namespace X86Assembler

open CString (Byte)

inductive SectionId
  | text | data
deriving DecidableEq

/-- `sect` is `none` where the source stores section `-1`: an absolute constant. -/
structure Symbol where
  name : Label
  address : Word
  declLine : Nat := 0
  declColumn : Nat := 1
  isResolved : Bool := true
  isExternal : Bool := false
  isGlobal : Bool := false
  isWeak : Bool := false
  isHidden : Bool := false
  isFunction : Bool := false
  sect : Option SectionId := none

structure HashEntry where
  name : Label
  address : Word
  isResolved : Bool := true
  isGlobal : Bool := false
  isExternal : Bool := false
  sect : Option SectionId := none

/-- `operand_index` and `section` of a fixup are written but never read, and are left out. -/
structure Fixup where
  label : Label
  location : Word
  size : Nat
  instructionType : InstType
  isRipRelative : Bool
deriving DecidableEq

structure LineMapEntry where
  address : Word
  line : Nat

structure ListingEntry where
  lineNumber : Nat
  address : Word
  bytes : List Byte := []
  sourceLine : Text

/-- The part of `assembler_context_t` that assembling reads and writes. Each buffer is the
list of the bytes in use, each counted array the list of its entries. `stderr` collects
what is printed, `files` is what `fopen` and `fread` see of the file system, and an
active listing entry is given by its index. -/
structure AssemblerContext where
  textSection : List Byte := []
  textCapacity : Word := BitVec.ofNat 64 maxOutputSize
  dataSection : List Byte := []
  dataCapacity : Word := BitVec.ofNat 64 maxOutputSize
  symbols : List Symbol := []
  symbolHash : HashChain.Table HashEntry := fun _ => []
  fixups : List Fixup := []
  currentAddress : Word := 0
  currentSection : SectionId := .text
  lineMap : List LineMapEntry := []
  listingEntries : List ListingEntry := []
  listingActive : Option Nat := none
  emitListing : Bool := false
  baseAddress : Word := 0x400000
  enableForwardShortBranches : Bool := true
  lastError : Option Diagnostic := none
  stderr : List Diagnostic := []
  files : Text → Option (List Byte) := fun _ => none

abbrev Asm := Fallible AssemblerContext

/-- `asm_init`, in a file system. -/
def asmInit (files : Text → Option (List Byte)) : AssemblerContext := { files := files }

namespace AssemblerContext

variable (ctx : AssemblerContext)

def report (d : Diagnostic) : AssemblerContext := { ctx with stderr := ctx.stderr ++ [d] }

def listingStartInstruction (lineNumber : Nat) (source : Text) : AssemblerContext :=
  if ctx.emitListing then
    { ctx with
      listingEntries := ctx.listingEntries ++
        [{ lineNumber := max lineNumber 1, address := ctx.currentAddress, sourceLine := source }]
      listingActive := some ctx.listingEntries.length }
  else ctx

def listingEmitByte (byte : Byte) : AssemblerContext :=
  if ctx.emitListing then
    match ctx.listingActive with
    | some i => { ctx with
        listingEntries := ctx.listingEntries.modify i fun entry =>
          if entry.bytes.length < 16 then { entry with bytes := entry.bytes ++ [byte] } else entry }
    | none => ctx
  else ctx

/-- An entry that got no byte is taken back when it is the last one. -/
def listingEndInstruction : AssemblerContext :=
  if ctx.emitListing then
    match ctx.listingActive with
    | some i =>
        let empty := (ctx.listingEntries[i]?.map (fun entry => entry.bytes.isEmpty)).getD false
        { ctx with
          listingEntries :=
            if empty && i + 1 == ctx.listingEntries.length then ctx.listingEntries.dropLast
            else ctx.listingEntries
          listingActive := none }
    | none => ctx
  else ctx

/-- The section buffer that `emit_byte` writes to, and its capacity. -/
def buffer : List Byte :=
  match ctx.currentSection with
  | .text => ctx.textSection
  | .data => ctx.dataSection

def capacity : Nat :=
  match ctx.currentSection with
  | .text => ctx.textCapacity.toNat
  | .data => ctx.dataCapacity.toNat

def pushByte (byte : Byte) : AssemblerContext :=
  match ctx.currentSection with
  | .text => { ctx with
      textSection := ctx.textSection ++ [byte], currentAddress := ctx.currentAddress + 1 }
  | .data => { ctx with
      dataSection := ctx.dataSection ++ [byte], currentAddress := ctx.currentAddress + 1 }

end AssemblerContext

def report (d : Diagnostic) : Asm Unit := Fallible.modify (·.report d)

/-- Print a diagnostic and return `-1`. -/
def reportError {α : Type} (d : Diagnostic) : Asm α := do
  report d
  Fallible.failure

def overflowReport : SectionId → Diagnostic
  | .text => { line := 1, category := "Memory", message := "Text section overflow" }
  | .data => { line := 1, category := "Memory", message := "Data section overflow" }

def emitByte (byte : Byte) : Asm Unit := fun ctx =>
  if ctx.buffer.length < ctx.capacity then
    (some (), (ctx.pushByte byte).listingEmitByte byte)
  else (none, ctx.report (overflowReport ctx.currentSection))

/-- A loop of `emit_byte` calls whose results are dropped, as the directives make them. -/
def emitUnchecked : List Byte → Asm Unit
  | [] => pure ()
  | byte :: bytes => do
    Fallible.ignore (emitByte byte)
    emitUnchecked bytes

end X86Assembler
