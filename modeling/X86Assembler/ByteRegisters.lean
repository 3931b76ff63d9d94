import Mathlib.Tactic.IntervalCases
import X86Assembler.Disassembler
import X86Assembler.Library.MachineCode
import X86Assembler.Parser
import X86Assembler.WrittenBytes

namespace X86Assembler

open CString (Byte)
open MachineCode

section Judgement

variable {inst : ParsedInstruction} {bs : List Byte}

end Judgement

section Fields

open Encoder (rexByte modrmBytes)

theorem makeModrm_mod (mod digit rm : Byte) : makeModrm mod digit rm >>> 6 = mod &&& 3#8 := by
  apply BitVec.eq_of_getLsbD_eq
  intro i hi
  interval_cases i <;> simp [makeModrm]

theorem makeModrm_reg (mod digit rm : Byte) :
    (makeModrm mod digit rm >>> 3) &&& 7 = digit &&& 7#8 := by
  apply BitVec.eq_of_getLsbD_eq
  intro i hi
  interval_cases i <;> simp [makeModrm]

theorem makeModrm_rm (mod digit rm : Byte) : makeModrm mod digit rm &&& 7 = rm &&& 7#8 := by
  apply BitVec.eq_of_getLsbD_eq
  intro i hi
  interval_cases i <;> simp [makeModrm]

theorem isRex_makeRex (w r x b : Bool) : isRex (makeRex w r x b) = true := by
  revert w r x b
  decide

theorem rexByte_isRex {w : Bool} {regOp rmOp sibOp : Option Operand} :
    ∀ p ∈ rexByte w regOp rmOp sibOp, isRex p = true := by
  intro p hp
  rw [rexByte] at hp
  split at hp
  · cases hp
  · cases hp
    exact isRex_makeRex _ _ _ _

theorem rexBit_reg (w : Bool) (regOp rmOp : Option Operand) :
    rexBit (rexByte w regOp rmOp none) 2 = if extendedReg regOp then 8 else 0 := by
  rw [rexByte, extendedReg.eq_def none]
  cases w <;> cases extendedReg regOp <;> cases extendedReg rmOp <;> cases extendedBase rmOp <;>
    cases extendedIndex rmOp <;> rfl

theorem rexBit_rm (w : Bool) (regOp rmOp : Option Operand) :
    rexBit (rexByte w regOp rmOp none) 0 =
      if extendedReg rmOp || extendedBase rmOp then 8 else 0 := by
  rw [rexByte, extendedReg.eq_def none]
  cases w <;> cases extendedReg regOp <;> cases extendedReg rmOp <;> cases extendedBase rmOp <;>
    cases extendedIndex rmOp <;> rfl

theorem low_number {r : Reg} (h : r.val < 16) :
    (if r.isExtended then 8 else 0) + (r.low &&& 7).toNat = r.val := by
  have hall : ∀ r : Reg, r.val < 16 →
      (if r.isExtended then 8 else 0) + (r.low &&& 7).toNat = r.val := by decide
  exact hall r h

variable {w : Bool} {opcode mod rm digit : Byte} {r : Reg} {size : RegSize}

variable {bs : List Byte}

variable {inst : ParsedInstruction} {op : Operand} {tail : List Byte} {others : List Operand}

end Fields

end X86Assembler
