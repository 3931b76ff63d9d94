import X86Assembler.DecoderSafety

namespace X86Assembler

open CString (Byte)
open CheckedRead

section Operands

variable (p : Prefixes) (cursor : Nat)

end Operands

section Bodies

variable (base : Word) (p : Prefixes) (cursor : Nat) (name rm : String)

end Bodies

end X86Assembler
