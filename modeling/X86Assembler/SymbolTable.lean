import X86Assembler.Context

namespace X86Assembler

open CString (Byte)

def hashTableSize : Nat := 1024

def fnv1aHash (bytes : List Byte) : BitVec 32 :=
  bytes.foldl (fun hash b => (hash ^^^ b.setWidth 32) * 16777619#32) 2166136261#32

def hashIndex (name : Label) : Nat := (fnv1aHash name.bytes).toNat % hashTableSize

variable (ctx : AssemblerContext)

def symbolHashLookup (name : Label) : Option HashEntry :=
  HashChain.lookup HashEntry.name hashIndex ctx.symbolHash name

def symbolHashInsert (name : Label) (address : Word) (isGlobal isExternal : Bool)
    (sect : Option SectionId) : AssemblerContext :=
  { ctx with
    symbolHash := HashChain.insert HashEntry.name hashIndex ctx.symbolHash
      { name, address, isGlobal, isExternal, sect } }

/-- Without an entry of that name nothing changes; the source returns `-1` then, and no
caller but `upsert_constant_symbol`, which has just found the entry, looks at the result. -/
def symbolHashUpdate (name : Label) (address : Word) (isGlobal isExternal : Bool)
    (sect : Option SectionId) : AssemblerContext :=
  { ctx with
    symbolHash := HashChain.modify HashEntry.name hashIndex ctx.symbolHash name
      fun entry => { entry with address, isResolved := true, isGlobal, isExternal, sect } }

def findSymbolAddress (name : Label) : Option Word :=
  match symbolHashLookup ctx name with
  | some entry => if entry.isResolved then some entry.address else none
  | none => none

def getSymbolInfo (name : Label) : Option HashEntry := symbolHashLookup ctx name

def findSymbolEntry (name : Label) : Option Symbol :=
  ctx.symbols.find? (fun sym => sym.name == name)

def updateFirstSymbol (name : Label) (f : Symbol → Symbol) : AssemblerContext :=
  { ctx with symbols := HashChain.modifyFirst (fun sym => sym.name == name) f ctx.symbols }

def updateSymbols (name : Label) (f : Symbol → Symbol) : AssemblerContext :=
  { ctx with symbols := ctx.symbols.map fun sym => if sym.name = name then f sym else sym }

def addSymbol (name : Label) (address : Word) (isGlobal isExternal : Bool)
    (sect : Option SectionId) : Asm Unit := fun ctx =>
  if maxSymbols ≤ ctx.symbols.length then
    (none, ctx.report { line := 1, category := "Symbol", message := "Symbol table full" })
  else
    match symbolHashLookup ctx name with
    | some existing =>
        if existing.isResolved then
          (none, ctx.report
            { line := 1, category := "Symbol", message := "Redefined symbol '%s'",
              args := [name.bytes] })
        else
          let ctx := symbolHashUpdate ctx name address isGlobal isExternal sect
          (some (), updateFirstSymbol ctx name fun sym => { sym with address, isResolved := true })
    | none =>
        let ctx := { ctx with
          symbols := ctx.symbols ++ [{ name, address, isGlobal, isExternal, sect }] }
        (some (), symbolHashInsert ctx name address isGlobal isExternal sect)

def upsertConstantSymbol (name : Label) (value : Word) : Asm Unit := fun ctx =>
  match symbolHashLookup ctx name with
  | some existing =>
      if existing.isExternal then
        (none, ctx.report
          { line := 1, category := "Symbol",
            message := "Cannot redefine external symbol '%s' as equ constant",
            args := [name.bytes] })
      else
        let ctx := symbolHashUpdate ctx name value existing.isGlobal false none
        match findSymbolEntry ctx name with
        | some _ => (some (), updateFirstSymbol ctx name fun sym =>
            { sym with address := value, isResolved := true, isExternal := false, sect := none })
        | none => addSymbol name value false false none ctx
  | none => addSymbol name value false false none ctx

/-- The label update of the text and data passes: every array entry of that name and the
hash entry move to the given address. -/
def moveLabel (name : Label) (address : Word) : AssemblerContext :=
  ctx.symbols.foldl
    (fun ctx' sym =>
      if sym.name = name then
        symbolHashUpdate ctx' name address sym.isGlobal sym.isExternal sym.sect
      else ctx')
    (updateSymbols ctx name fun sym => { sym with address })

end X86Assembler
