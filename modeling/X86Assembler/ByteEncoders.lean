import X86Assembler.AssemblyRun
import X86Assembler.ByteRegisters

namespace X86Assembler

open CString (Byte)
open MachineCode

namespace Encoder

variable {inst : ParsedInstruction} {m : Encoder Unit} {bytes head : List Byte} {w : Bool}
  {opcode : Byte} {r : Reg} {size : RegSize} {op : Operand} {others : List Operand}

end Encoder

end X86Assembler
