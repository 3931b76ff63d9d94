import X86Assembler.EncodingCore

namespace X86Assembler

open CString (Byte)
open LittleEndian (leBytes ofLeBytes slice patch)

/-- The value of a fixup before the bytes it overwrites are added. -/
def Fixup.value (f : Fixup) (target : Word) : Word :=
  if f.isRipRelative || isControlflow f.instructionType then
    target - (f.location + BitVec.ofNat 64 f.size)
  else target

def addend (bs : List Byte) (offset size : Nat) : Word :=
  match size with
  | 1 => (ofLeBytes 8 (slice bs offset 1)).signExtend 64
  | 4 => (ofLeBytes 32 (slice bs offset 4)).signExtend 64
  | 8 => ofLeBytes 64 (slice bs offset 8)
  | _ => 0

def fitsFixup (value : Word) (size : Nat) : Bool :=
  match size with
  | 1 => -128 ≤ value.toInt && value.toInt ≤ 127
  | 4 => -2147483648 ≤ value.toInt && value.toInt ≤ 2147483647
  | _ => true

def fixupRangeMessage (size : Nat) : String :=
  if size = 1 then "Fixup value out of 8-bit range" else "Fixup value out of 32-bit range"

/-- The bytes a fixup writes; a size other than 1, 4 and 8 writes nothing. -/
def fixupBytes (value : Word) (size : Nat) : List Byte :=
  match size with
  | 1 => leBytes 1 value
  | 4 => leBytes 4 value
  | 8 => leBytes 8 value
  | _ => []

def resolveFixup (f : Fixup) : Asm Unit := fun ctx =>
  match findSymbolAddress ctx f.label with
  | none => (none, ctx.report
      { line := 1, category := "Symbol", message := "Undefined symbol '%s'", args := [f.label.bytes] })
  | some target =>
      let offset := f.location - ctx.baseAddress
      if ctx.textSection.length < (offset + BitVec.ofNat 64 f.size).toNat then
        (none, ctx.report
          { line := 1, category := "Fixup", message := "Fixup location out of bounds" })
      else
        let value := f.value target + addend ctx.textSection offset.toNat f.size
        if fitsFixup value f.size then
          (some (), { ctx with
            textSection := patch ctx.textSection offset.toNat (fixupBytes value f.size) })
        else
          (none, ctx.report
            { line := 1, category := "Fixup", message := fixupRangeMessage f.size })

def resolveFixups : Asm Unit := do
  let ctx ← Fallible.get
  Fallible.each resolveFixup ctx.fixups

theorem fixupValue_branch (f : Fixup) (h : isControlflow f.instructionType = true) (target : Word) :
    f.value target = target - (f.location + BitVec.ofNat 64 f.size) := by
  rw [Fixup.value, h, Bool.or_true, if_pos rfl]

end X86Assembler
