import X86Assembler.Library.CString

namespace X86Assembler

open CString (Byte CStr)

abbrev Word := BitVec 64

def maxLineLength : Nat := 1024
def maxLabelLength : Nat := 256
def maxSymbols : Nat := 4096
def maxLineMap : Nat := 8192
def maxOutputSize : Nat := 1024 * 1024
def maxOperands : Nat := 16

instance : NeZero maxLineLength := ⟨by decide⟩
instance : NeZero maxLabelLength := ⟨by decide⟩

/-- `char label[MAX_LABEL_LENGTH]`. -/
abbrev Label := CStr maxLabelLength

/-- `char string[MAX_LINE_LENGTH]`. -/
abbrev Text := CStr maxLineLength

def Label.empty : Label := CString.lit _ ""

/-- Register codes as `reg_t` numbers them: 0-15 the general registers whatever their
width, 16-31 the XMM registers, 32 the instruction pointer. -/
abbrev Reg := Fin 33

instance Reg.neZero : NeZero 33 := ⟨Nat.succ_ne_zero 32⟩

def Reg.rip : Reg := 32

inductive RegSize
  | size8 | size8h | size16 | size32 | size64 | xmm
deriving DecidableEq

inductive MemSegment
  | default | fs | gs
deriving DecidableEq

/-- A base or index field is `some` where the source sets `has_base` or `has_index`; an
empty label stands for `label[0] == '\0'`. -/
structure MemOperand where
  base : Option Reg := none
  index : Option Reg := none
  scale : Nat := 1
  displacement : BitVec 32 := 0
  hasDisplacement : Bool := false
  isAbsolute : Bool := false
  isRipRelative : Bool := false
  segmentOverride : MemSegment := .default
  label : Label := Label.empty
deriving DecidableEq

inductive Operand
  | none
  | reg (reg : Reg) (size : RegSize)
  | imm (value : Word)
  | mem (mem : MemOperand)
  | label (name : Label)
  | labelDiff (lhs rhs : Label)
  | string (text : Text)
deriving DecidableEq

inductive InstType
  | mov | push | pop | lea | movzx | movsx
  | cmova | cmovae | cmovb | cmovbe | cmove | cmovg | cmovge | cmovl
  | cmovle | cmovne | cmovno | cmovnp | cmovns | cmovo | cmovp | cmovs
  | xchg | bswap
  | add | adc | sub | sbb | mul | imul | div | idiv | inc | dec | neg
  | cmp | xor | or | and | not | test
  | shl | shr | sal | sar | rol | ror | rcl | rcr | shld | shrd
  | bt | bts | btr | btc | bsf | bsr
  | jmp | ja | jae | jb | jbe | je | jg | jge | jl
  | jle | jne | jnz | jno | jnp | jns | jo | jp | js
  | call | ret | int | syscall | sysret
  | seta | setae | setb | setbe | sete | setg | setge | setl
  | setle | setne | setno | setnp | setns | seto | setp | sets
  | leave | enter
  | nop | hlt | clc | stc | cmc | cld | std | cli | sti
  | cwd | cdq | cqo | cbw | cwde | cdqe
  | movsb | movsw | movsd | movsq
  | movaps | movups | movss | movapd | movupd | movsdXmm
  | addss | addps | addsd | addpd
  | subss | subps | subsd | subpd
  | mulss | mulps | mulsd | mulpd
  | divss | divps | divsd | divpd
  | movdqa | movdqu
  | paddb | paddw | paddd | paddq
  | psubb | psubw | psubd | psubq
  | pcmpeqb | pcmpeqw | pcmpeqd | pcmpeqq
  | pcmpgtb | pcmpgtw | pcmpgtd | pcmpgtq
  | pand | pandn | por | pxor
  | db | dw | dd | dq
  | resb | resw | resd | resq
  | equ | times | align | incbin | comm | lcomm
  | global | externSym | weak | hidden | sectionDir
  | unknown
deriving DecidableEq

structure ParsedInstruction where
  type : InstType
  label : Option Label := none
  labelColumn : Nat := 1
  operands : List Operand := []
  address : Word := 0
  lineNumber : Nat := 1
  originalLine : Text := CString.lit _ ""
deriving DecidableEq

/-- A diagnostic as it is printed, without its suggestion: `args` fills the `%s` places of
the message in order. -/
structure Diagnostic where
  line : Nat
  column : Nat := 1
  category : String
  message : String
  args : List (List Byte) := []
deriving DecidableEq

end X86Assembler
