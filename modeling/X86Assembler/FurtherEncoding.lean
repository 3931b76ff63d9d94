import X86Assembler.OperandReading
import X86Assembler.SizedEncoding

namespace X86Assembler

open CString (Byte)
open Encoder (setccCode cmovCode operationSize fitsInt32 rexByte modrmBytes)
open MachineCode

/-- The numbers of the conditions that mnemonics end in, in the order of the opcodes. -/
def conditionOf : InstType → Option Nat
  | .jo | .seto | .cmovo => some 0
  | .jno | .setno | .cmovno => some 1
  | .jb | .setb | .cmovb => some 2
  | .jae | .setae | .cmovae => some 3
  | .je | .sete | .cmove => some 4
  | .jne | .jnz | .setne | .cmovne => some 5
  | .jbe | .setbe | .cmovbe => some 6
  | .ja | .seta | .cmova => some 7
  | .js | .sets | .cmovs => some 8
  | .jns | .setns | .cmovns => some 9
  | .jp | .setp | .cmovp => some 10
  | .jnp | .setnp | .cmovnp => some 11
  | .jl | .setl | .cmovl => some 12
  | .jge | .setge | .cmovge => some 13
  | .jle | .setle | .cmovle => some 14
  | .jg | .setg | .cmovg => some 15
  | _ => none

/-- The operation of an instruction on the stack, addresses, conditions, single bits, control
transfer or the flags. A jump and a call are those without a label. -/
def furtherOperation : InstType → Option FurtherOperation
  | .push => some .push
  | .pop => some .pop
  | .lea => some .lea
  | .bswap => some .bswap
  | .bt => some .bt
  | .bts => some .bts
  | .btr => some .btr
  | .btc => some .btc
  | .shld => some .shld
  | .shrd => some .shrd
  | .bsf => some .bsf
  | .bsr => some .bsr
  | .jmp => some .jmpTo
  | .call => some .callTo
  | .ret => some .ret
  | .int => some .int
  | .syscall => some .syscall
  | .sysret => some .sysret
  | .enter => some .enter
  | .leave => some .leave
  | .hlt => some .hlt
  | .clc => some .clc
  | .stc => some .stc
  | .cmc => some .cmc
  | .cld => some .cld
  | .std => some .std
  | .cli => some .cli
  | .sti => some .sti
  | .cbw | .cwde | .cdqe => some .convert
  | .cwd | .cdq | .cqo => some .extend
  | .movsb | .movsw | .movsd | .movsq => some .movs
  | type => if (setccCode type).isSome then (conditionOf type).map .set
      else if (cmovCode type).isSome then (conditionOf type).map .cmov
      else none

def operandsWidth : List Operand → Nat
  | [] => 64
  | op :: ops => widthBits (operationSize op (ops.headD op))

/-- The width of a bit number or a shift count: a number is one byte. -/
def indexWidth (w : Nat) : Operand → Nat
  | .imm _ => 8
  | _ => w

def furtherWidths (inst : ParsedInstruction) : List Nat :=
  let w := operandsWidth inst.operands
  match inst.type with
  | .push | .pop | .jmp | .call => [64]
  | .lea | .bsf | .bsr => [w, w]
  | .bswap => [w]
  | .bt | .bts | .btr | .btc => [w, indexWidth w (inst.operands.getLastD .none)]
  | .shld | .shrd => [w, w, 8]
  | .ret => inst.operands.map fun _ => 16
  | .int => [8]
  | .enter => [16, 8]
  | type =>
      if (setccCode type).isSome then [8] else if (cmovCode type).isSome then [w, w] else []

def argsAt : List Nat → List Operand → Option (List Arg)
  | [], [] => some []
  | w :: ws, op :: ops => (argIn w op).bind fun a => (argsAt ws ops).map (a :: ·)
  | _, _ => none

/-- The operands that are not written: the accumulator and `rdx`, and memory behind `rdi` and
`rsi`. -/
def impliedArgs : InstType → List Arg
  | .cbw => [.reg 16 0]
  | .cwde => [.reg 32 0]
  | .cdqe => [.reg 64 0]
  | .cwd => [.reg 16 2, .reg 16 0]
  | .cdq => [.reg 32 2, .reg 32 0]
  | .cqo => [.reg 64 2, .reg 64 0]
  | .movsb => [.mem 8 { base := some 7 }, .mem 8 { base := some 6 }]
  | .movsw => [.mem 16 { base := some 7 }, .mem 16 { base := some 6 }]
  | .movsd => [.mem 32 { base := some 7 }, .mem 32 { base := some 6 }]
  | .movsq => [.mem 64 { base := some 7 }, .mem 64 { base := some 6 }]
  | _ => []

def furtherMeaning (inst : ParsedInstruction) : Option FurtherInstruction :=
  (furtherOperation inst.type).bind fun op =>
    (argsAt (furtherWidths inst) inst.operands).map fun args => ⟨op, args ++ impliedArgs inst.type⟩

def FurtherDenoted (inst : ParsedInstruction) (bs : List Byte) : Prop :=
  ∃ j, furtherMeaning inst = some j ∧ furtherInstructionOf bs = some j

def PushFits : List Operand → Prop
  | [.imm v] => fitsInt32 v = true
  | [op] => RmFits 64 op
  | _ => False

/-- The operand of `pop` and of a jump or a call without a label. -/
def WordFits : List Operand → Prop
  | [op] => RmFits 64 op
  | _ => False

def LeaFits : List Operand → Prop
  | [.reg r size, .mem m] => RmFits (widthBits size) (.reg r size) ∧ size ≠ .xmm ∧ AddressFits m
  | _ => False

/-- A byte register that needs no REX prefix of its own, or memory. -/
def SetFits : List Operand → Prop
  | [.reg r size] => ByteRegister r size ∨ size = .size8h ∧ 4 ≤ r.val ∧ r.val < 8
  | [.mem m] => AddressFits m
  | _ => False

def CmovFits : List Operand → Prop
  | [.reg r size, src] => RmFits (widthBits size) (.reg r size) ∧ RmFits (widthBits size) src
  | _ => False

def BswapFits : List Operand → Prop
  | [.reg r _] => r.val < 16
  | _ => False

def IndexFits (w : Nat) : Operand → Prop
  | .imm v => FitsWidth 8 v
  | op => RmFits w op

/-- The bit instructions: a destination of 32 or 64 bits, and a number of one byte or a register of
that width. -/
def BitFits : List Operand → Prop
  | [dst, src] => IsWide (Encoder.operandSize dst) ∧ RmFits (widthBits (Encoder.operandSize dst)) dst ∧
      IndexFits (widthBits (Encoder.operandSize dst)) src
  | _ => False

/-- The double shifts: two operands of one width, 32 or 64 bits, and a number of one byte or
`cl`. -/
def DoubleFits : List Operand → Prop
  | [dst, src, count] => IsWide (Encoder.operandSize dst) ∧ RmFits (widthBits (Encoder.operandSize dst)) dst ∧
      RmFits (widthBits (Encoder.operandSize dst)) src ∧
      match count with
      | .imm v => FitsWidth 8 v
      | .reg _ size => size = .size8
      | _ => False
  | _ => False

def ScanFits : List Operand → Prop
  | [.reg r size, src] => IsWide size ∧ RmFits (widthBits size) (.reg r size) ∧
      RmFits (widthBits size) src
  | _ => False

def NumberFits (w : Nat) : List Operand → Prop
  | [.imm v] => FitsWidth w v
  | _ => False

def FurtherFits (inst : ParsedInstruction) : Prop :=
  match inst.type with
  | .push => PushFits inst.operands
  | .pop | .jmp | .call => WordFits inst.operands
  | .lea => LeaFits inst.operands
  | .bswap => BswapFits inst.operands
  | .bt | .bts | .btr | .btc => BitFits inst.operands
  | .shld | .shrd => DoubleFits inst.operands
  | .bsf | .bsr => ScanFits inst.operands
  | .ret => inst.operands = [] ∨ NumberFits 16 inst.operands
  | .int => NumberFits 8 inst.operands
  | .enter => inst.operands.length = 2
  | type =>
      if (setccCode type).isSome then SetFits inst.operands
      else if (cmovCode type).isSome then CmovFits inst.operands
      else inst.operands = []

section Meaning

variable {inst : ParsedInstruction} {o : FurtherOperation} {args : List Arg} {bs : List Byte}

theorem furtherDenoted_iff {j : FurtherInstruction} (hread : furtherInstructionOf bs = some j) :
    FurtherDenoted inst bs ↔ furtherMeaning inst = some j := by
  constructor
  · rintro ⟨j', hj', hread'⟩
    cases hread.symm.trans hread'
    exact hj'
  · intro hj
    exact ⟨j, hj, hread⟩

theorem not_furtherDenoted (hread : furtherInstructionOf bs = none) : ¬ FurtherDenoted inst bs := by
  rintro ⟨j, -, hread'⟩
  cases hread.symm.trans hread'

theorem furtherMeaning_iff (ho : furtherOperation inst.type = some o)
    (himplied : impliedArgs inst.type = []) :
    furtherMeaning inst = some ⟨o, args⟩ ↔ argsAt (furtherWidths inst) inst.operands = some args := by
  rw [furtherMeaning, ho, himplied, Option.bind_some]
  constructor
  · intro h
    obtain ⟨args', hargs, heq⟩ := Option.map_eq_some_iff.mp h
    rw [List.append_nil] at heq
    cases heq
    exact hargs
  · intro h
    rw [h, Option.map_some, List.append_nil]

theorem argsAt_cons {w : Nat} {ws : List Nat} {op : Operand} {ops : List Operand} {a : Arg} :
    argsAt (w :: ws) (op :: ops) = some (a :: args) ↔
      argIn w op = some a ∧ argsAt ws ops = some args := by
  rw [argsAt]
  constructor
  · intro h
    obtain ⟨a', ha, h⟩ := Option.bind_eq_some_iff.mp h
    obtain ⟨args', hargs, heq⟩ := Option.map_eq_some_iff.mp h
    cases heq
    exact ⟨ha, hargs⟩
  · rintro ⟨ha, hargs⟩
    rw [ha, hargs]
    rfl

theorem argsAt_one {w : Nat} {op : Operand} {a : Arg} :
    argsAt [w] [op] = some [a] ↔ argIn w op = some a := by
  rw [argsAt_cons]
  exact and_iff_left rfl

theorem argsAt_two {w w' : Nat} {op op' : Operand} {a a' : Arg} :
    argsAt [w, w'] [op, op'] = some [a, a'] ↔ argIn w op = some a ∧ argIn w' op' = some a' := by
  rw [argsAt_cons, argsAt_one]

theorem argsAt_three {w w' w'' : Nat} {op op' op'' : Operand} {a a' a'' : Arg} :
    argsAt [w, w', w''] [op, op', op''] = some [a, a', a''] ↔
      argIn w op = some a ∧ argIn w' op' = some a' ∧ argIn w'' op'' = some a'' := by
  rw [argsAt_cons, argsAt_two]

end Meaning

section Shapes

variable {inst : ParsedInstruction} {legacy tail bs : List Byte} {rex : Option Byte}
  {opcode digit : Byte} {entry : FurtherEntry} {op : Operand} {F : Prop}

/-- An instruction whose operands are in a ModRM byte, with less than four bytes behind it. -/
theorem furtherDenoted_rm (args : ModRm → List Arg)
    (next : List Byte → Option (List Arg × List Byte)) (more : List Arg) (hop : Accepted op)
    (hrex : RexFor rex op)
    (hbytes : furtherInstructionOf bs =
      readFurtherEntry legacy rex opcode (modrmBytes digit op ++ tail) entry)
    (hwide : entry.width = .wide → legacy = [])
    (hlayout : readFurtherArgs rex opcode (entry.width.width legacy rex) (modrmBytes digit op ++ tail)
      entry.layout = readRm rex (modrmBytes digit op ++ tail) args next)
    (hnext : next tail = some (more, [])) (htail : tail.length < 4)
    (hfield : ∀ field, ReadAsField rex op field →
      (furtherMeaning inst = some ⟨entry.op, args ⟨(digit &&& 7#8).toNat, field⟩ ++ more⟩ ↔ F))
    (hcut : (∀ u, ¬ RmFits u op) → ¬ F) : FurtherDenoted inst bs ↔ F := by
  rcases readRm_accepted digit hop hrex with ⟨field, hread, hargs⟩ | ⟨hno, hnone⟩
  · rw [hargs args next tail more hnext] at hlayout
    rw [readFurtherEntry_of hwide hlayout] at hbytes
    exact (furtherDenoted_iff hbytes).trans (hfield field hread)
  · rw [hnone args next tail (.inl htail)] at hlayout
    exact iff_of_false (not_furtherDenoted (hbytes.trans (readFurtherEntry_none hlayout))) (hcut hno)

theorem regField_matches {w u : Nat} {wide : Bool} {r : Reg} {size : RegSize} {rmOp : Option Operand}
    (hu : u ≠ 8) (hdigit : digit &&& 7#8 = r.low &&& 7#8) :
    argIn w (.reg r size) = some (regArg (rexByte wide (some (.reg r size)) rmOp none) u
      (rexBit (rexByte wide (some (.reg r size)) rmOp none) 2 + (digit &&& 7#8).toNat)) ↔
        w = u ∧ RmFits u (.reg r size) := by
  rw [hdigit, argIn, regArg_wide hu, argOf_reg_wide hu, RmFits]
  constructor
  · rintro ⟨hw, -, hr, hsize⟩
    exact ⟨hw, hr, hsize⟩
  · rintro ⟨hw, hr, hsize⟩
    exact ⟨hw, reg_number hr wide size rmOp, hr, hsize⟩
  · rintro m ⟨⟩

theorem code_and (r : Reg) : r.code &&& 7#8 = r.low &&& 7#8 := by
  revert r
  decide

end Shapes

end X86Assembler
