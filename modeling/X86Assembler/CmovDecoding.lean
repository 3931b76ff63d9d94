import X86Assembler.MemoryEncoding

namespace X86Assembler

open CString (Byte)
open CheckedRead
open MachineCode (rexBit)
open Encoder (rexByte baseBytes modrmBytes cmovCode encodeCmov Puts)

/-- The bits of the registers that a conditional move takes. -/
def widthBits : RegSize → Nat
  | .size16 => 16
  | .size32 => 32
  | .size64 => 64
  | .size8 | .size8h => 8
  | .xmm => 128

/-- A source operand in the text of the disassembler: a register under its name, or the base
register and a displacement, which may be left out only when it is zero. -/
inductive SourceText (size : RegSize) : Operand → String → Prop
  | reg (r : Reg) (name : String) : (name, r, size) ∈ regTable → SourceText size (.reg r size) name
  | mem (m : MemOperand) (base : Reg) (name : String) (shown : Bool) : m.base = some base →
      (name, base, .size64) ∈ regTable → (shown = false → m.offset = 0) →
        SourceText size (.mem m)
          ("[" ++ name ++ (if shown then dispText true m.offset else "") ++ "]")

variable {r : Reg} {size : RegSize} {src : Operand}

end X86Assembler
