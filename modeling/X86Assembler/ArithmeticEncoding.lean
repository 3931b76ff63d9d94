import X86Assembler.EncodedInstruction

namespace X86Assembler

open CString (Byte)
open Encoder (encodeArithmetic encodeArithmeticRegImm encodeArithmeticMemImm lookupGroup1RegOpcode
  group1Table operationSize rexByte modrmBytes)
open LittleEndian (leBytes)
open MachineCode

def arithmeticOperation : InstType → Option Operation
  | .add => some .add
  | .or => some .or
  | .adc => some .adc
  | .sbb => some .sbb
  | .and => some .and
  | .sub => some .sub
  | .xor => some .xor
  | .cmp => some .cmp
  | _ => none

/-- The bytes are the written operation on the written operands, of the width of the first register
and of 64 bits without one. -/
def ArithmeticDenoted (inst : ParsedInstruction) (bs : List Byte) : Prop :=
  ∃ dst src, inst.operands = [dst, src] ∧
    Denoted (arithmeticOperation inst.type) (widthBits (operationSize dst src)) [dst, src] bs

/-- The numbers that come out right for a register: for 64 bits the encoder rejects the others, and
for 32 bits it leaves out the REX prefix. -/
def ArithmeticImmFits (r : Reg) (v : Word) : RegSize → Prop
  | .size64 => r.val < 16
  | .size32 => r.val < 8 ∧ FitsWidth 32 v
  | _ => False

def ArithmeticFits (inst : ParsedInstruction) : Prop :=
  match inst.operands with
  | [.reg r size, .imm v] => ArithmeticImmFits r v size
  | [.mem _, .imm v] => Encoder.fitsInt32 v = true
  | [dst, src] => WidePair dst src
  | _ => False

theorem arithmeticDenoted_iff {inst : ParsedInstruction} {bs : List Byte} {dst src : Operand}
    (hops : inst.operands = [dst, src]) :
    ArithmeticDenoted inst bs ↔
      Denoted (arithmeticOperation inst.type) (widthBits (operationSize dst src)) [dst, src] bs := by
  rw [ArithmeticDenoted, hops]
  constructor
  · rintro ⟨dst', src', heq, h⟩
    cases heq
    exact h
  · intro h
    exact ⟨dst, src, rfl, h⟩

def PlainOpcode (opcode : Byte) : Prop := isOpcode opcode = true ∧ opcode ≠ 0x0F ∧ opcode ≠ 0x90

/-- The opcodes of one operation, `d` being its number in the table. -/
structure ArithmeticCodes (o : Operation) (d : Byte) : Prop where
  rmReg : ∀ digit, oneByteEntry (0x01#8 + (d <<< 3)) digit = some ⟨o, false, .rmReg⟩
  regRm : ∀ digit, oneByteEntry (0x03#8 + (d <<< 3)) digit = some ⟨o, false, .regRm⟩
  accImm : ∀ digit, oneByteEntry (0x05#8 + (d <<< 3)) digit = some ⟨o, false, .accImm⟩
  rmReg_opcode : PlainOpcode (0x01#8 + (d <<< 3))
  regRm_opcode : PlainOpcode (0x03#8 + (d <<< 3))
  accImm_opcode : PlainOpcode (0x05#8 + (d <<< 3))
  group : arithmetic (d &&& 7#8).toNat = o

theorem arithmetic_codes {type : InstType} {d : Byte} (h : lookupGroup1RegOpcode type = some d) :
    ∃ o, arithmeticOperation type = some o ∧ ArithmeticCodes o d := by
  obtain ⟨⟨type', d', name⟩, hfind, heq⟩ := Option.map_eq_some_iff.mp h
  have hmem := List.mem_of_find?_eq_some hfind
  have htype : type' = type := by simpa using List.find?_some hfind
  cases heq
  cases htype
  rw [group1Table] at hmem
  simp only [List.mem_cons, Prod.mk.injEq, List.not_mem_nil, or_false] at hmem
  rcases hmem with ⟨rfl, rfl, -⟩ | ⟨rfl, rfl, -⟩ | ⟨rfl, rfl, -⟩ | ⟨rfl, rfl, -⟩ | ⟨rfl, rfl, -⟩ |
    ⟨rfl, rfl, -⟩ | ⟨rfl, rfl, -⟩ | ⟨rfl, rfl, -⟩
  all_goals
    refine ⟨_, rfl, ?_⟩
    dsimp only
    constructor
    · intro digit
      rfl
    · intro digit
      rfl
    · intro digit
      rfl
    · exact ⟨by decide, by decide, by decide⟩
    · exact ⟨by decide, by decide, by decide⟩
    · exact ⟨by decide, by decide, by decide⟩
    · rfl

section Forms

variable {inst : ParsedInstruction} {o : Operation} {d : Byte} {op : Operand} {r : Reg}
  {size S : RegSize} (hcodes : ArithmeticCodes o d) (ho : arithmeticOperation inst.type = some o)
  (hop : RmOperand op)

include hcodes ho hop

theorem arithmeticDenoted_rmReg (hops : inst.operands = [op, .reg r size])
    (hS : operationSize op (.reg r size) = S) :
    ArithmeticDenoted inst ((rexByte (S == .size64) (some (.reg r size)) (some op) none).toList ++
      (0x01#8 + (d <<< 3)) :: modrmBytes r.low op) ↔ WidePair op (.reg r size) := by
  have hread := @instructionOf_rmReg _ o (S == .size64) r size op hcodes.rmReg_opcode hop hcodes.rmReg
  rw [arithmeticDenoted_iff hops, denoted_two hread, ho, hS, wide_matches hop, WidePair, hS]
  exact and_iff_right rfl

theorem arithmeticDenoted_regRm (hops : inst.operands = [.reg r size, op])
    (hS : operationSize (.reg r size) op = S) :
    ArithmeticDenoted inst ((rexByte (S == .size64) (some (.reg r size)) (some op) none).toList ++
      (0x03#8 + (d <<< 3)) :: modrmBytes r.low op) ↔ WidePair (.reg r size) op := by
  have hread := @instructionOf_regRm _ o (S == .size64) r size op hcodes.regRm_opcode hop hcodes.regRm
  rw [arithmeticDenoted_iff hops, denoted_two hread, ho, hS, and_comm (a := argOf _ (.reg r size) = _),
    wide_matches hop, WidePair, hS, and_comm (a := OfWidth _ (.reg r size))]
  exact and_iff_right rfl

end Forms

section Numbers

variable {inst : ParsedInstruction} {o : Operation} {d : Byte} {v : Word}
  (hcodes : ArithmeticCodes o d) (ho : arithmeticOperation inst.type = some o)

include hcodes

theorem instructionOf_group {rex : Option Byte} {op : Operand} {w : Bool}
    (hrex : ∀ p ∈ rex, isRex p = true) (hop : RmOperand op) (hx : rexBit rex 1 = 0)
    (hwidth : operandWidth [] rex false = widthOf w) :
    instructionOf (rex.toList ++ 0x81 :: (modrmBytes d op ++ leBytes 4 (v.setWidth 32))) =
        some ⟨o, [rmArg rex (widthOf w) (rmField rex op),
          .imm ((v.setWidth 32).signExtend (widthOf w)).toNat]⟩ ∧
      (fitsInInt8 (v.setWidth 32) = true →
        instructionOf (rex.toList ++
            0x83 :: (modrmBytes d op ++ [(v.setWidth 32).setWidth 8])) =
          some ⟨o, [rmArg rex (widthOf w) (rmField rex op),
            .imm ((v.setWidth 32).signExtend (widthOf w)).toNat]⟩) := by
  constructor
  · apply instructionOf_modrm ⟨by decide, by decide, by decide⟩ hrex hop _ hwidth
    · exact readArgs_rmImm hop hx (readImm_wide w _)
    · rw [← hcodes.group]
      rfl
  · intro hfits
    have hwide : 32 ≤ widthOf w := by cases w <;> decide
    rw [← immediate_byte hfits hwide]
    apply instructionOf_modrm ⟨by decide, by decide, by decide⟩ hrex hop _ hwidth
    · exact readArgs_rmImm8 hop hx (readImm_byte (widthOf w) _)
    · rw [← hcodes.group]
      rfl

theorem instructionOf_accumulator {rex : Option Byte} {w : Bool}
    (hrex : ∀ p ∈ rex, isRex p = true) (hwidth : operandWidth [] rex false = widthOf w) :
    instructionOf (rex.toList ++ (0x05#8 + (d <<< 3)) :: leBytes 4 (v.setWidth 32)) =
      some ⟨o, [.reg (widthOf w) 0, .imm ((v.setWidth 32).signExtend (widthOf w)).toNat]⟩ := by
  refine @instructionOf_of_args [] _ _ _ ⟨o, false, .accImm⟩ _ (.inl rfl) hrex hcodes.accImm_opcode
    (hcodes.accImm _) ?_
  rw [hwidth, readArgs, readImm_wide]
  rfl

end Numbers

section Immediate

variable {inst : ParsedInstruction} {o : Operation} {r : Reg} {size : RegSize} {v : Word}
  {bs : List Byte} (ho : arithmeticOperation inst.type = some o)

include ho

theorem arithmeticDenoted_wideImm (hops : inst.operands = [.reg r .size64, .imm v])
    (hfits : Encoder.fitsInt32 v = true)
    (hread : instructionOf bs = some ⟨o, [rmArg (rexByte true none (some (.reg r .size64)) none) 64
        (rmField (rexByte true none (some (.reg r .size64)) none) (.reg r .size64)),
      .imm ((v.setWidth 32).signExtend 64).toNat]⟩) :
    ArithmeticDenoted inst bs ↔ r.val < 16 := by
  have hS : operationSize (.reg r .size64) (.imm v) = .size64 := rfl
  have hwidth : widthBits .size64 = widthOf true := rfl
  have hreg := @rm_matches true 64 64 _ (.inr rfl) none (.reg r .size64)
  have himm := @imm_wide true v
  rw [arithmeticDenoted_iff hops, denoted_two hread, ho, hS, hwidth]
  rw [if_pos rfl] at himm
  constructor
  · rintro ⟨-, hdst, -⟩
    exact (hreg.mp hdst).2.1
  · intro hr
    exact ⟨rfl, hreg.mpr ⟨rfl, hr, rfl⟩, himm.mpr hfits⟩

theorem arithmeticDenoted_bareImm (hops : inst.operands = [.reg r size, .imm v])
    (hsize : size ≠ .size64)
    (hread : instructionOf bs =
      some ⟨o, [.reg 32 r.low.toNat, .imm ((v.setWidth 32).signExtend 32).toNat]⟩) :
    ArithmeticDenoted inst bs ↔ ArithmeticImmFits r v size := by
  have hS : operationSize (.reg r size) (.imm v) = size := rfl
  rw [arithmeticDenoted_iff hops, denoted_two hread, ho, hS, argOf_reg_wide (by decide), low_toNat]
  constructor
  · rintro ⟨-, ⟨hwidth, hlow, -, -⟩, himm⟩
    rw [hwidth] at himm
    have hfits := (@imm_wide false v).mp himm
    cases size with
    | size32 => exact ⟨by omega, hfits⟩
    | size64 => exact absurd rfl hsize
    | size8 => cases hwidth
    | size8h => cases hwidth
    | size16 => cases hwidth
    | xmm => cases hwidth
  · intro h
    cases size with
    | size32 =>
        obtain ⟨hr, hfits⟩ := h
        exact ⟨rfl, ⟨rfl, by omega, by omega, rfl⟩, (@imm_wide false v).mpr hfits⟩
    | size64 => exact absurd rfl hsize
    | size8 => cases h
    | size8h => cases h
    | size16 => cases h
    | xmm => cases h

theorem arithmeticDenoted_memImm {m : MemOperand} {base : Reg} (hbase : BaseOnly m base)
    (hops : inst.operands = [.mem m, .imm v])
    (hread : instructionOf bs = some ⟨o, [rmArg (rexByte true none (some (.mem m)) none) 64
        (rmField (rexByte true none (some (.mem m)) none) (.mem m)),
      .imm ((v.setWidth 32).signExtend 64).toNat]⟩) :
    ArithmeticDenoted inst bs ↔ Encoder.fitsInt32 v = true := by
  have hS : operationSize (.mem m) (.imm v) = .size64 := rfl
  have hwidth : widthBits .size64 = widthOf true := rfl
  have hmem := (@rm_matches true 64 64 _ (.inr rfl) none (.mem m base hbase)).mpr ⟨rfl, trivial⟩
  have himm := @imm_wide true v
  rw [arithmeticDenoted_iff hops, denoted_two hread, ho, hS, hwidth]
  rw [if_pos rfl] at himm
  constructor
  · rintro ⟨-, -, h⟩
    exact himm.mp h
  · intro hv
    exact ⟨rfl, hmem, himm.mpr hv⟩

end Immediate

section Encoder

variable {inst : ParsedInstruction} {o : Operation} {d : Byte} {r : Reg} {size : RegSize} {v : Word}
  (hcodes : ArithmeticCodes o d) (ho : arithmeticOperation inst.type = some o)

include hcodes ho

theorem yields_encodeArithmeticRegImm_wide (hops : inst.operands = [.reg r .size64, .imm v]) :
    (encodeArithmeticRegImm inst d r .size64 v).Yields fun bs =>
      ArithmeticDenoted inst bs ↔ r.val < 16 := by
  unfold encodeArithmeticRegImm
  dsimp only
  have hgroup := @instructionOf_group o d v hcodes
    (rexByte true none (some (.reg r .size64)) none) (.reg r .size64) true rexByte_isRex
    (.reg r .size64) (RmOperand.noIndex (.reg r .size64) _ _) (operandWidth_plain true _ _)
  split
  · next hacc =>
      simp only [Bool.and_eq_true, beq_iff_eq, bne_self_eq_false, Bool.false_or] at hacc
      have hr : r = 0 := Fin.ext hacc.1.1.1
      refine yields_of_writes ?_
      subst hr
      exact arithmeticDenoted_wideImm ho hops hacc.2
        (@instructionOf_accumulator o d v hcodes (some 0x48) true (by decide) rfl)
  · split
    · exact yields_diag
    · next hrange =>
        have hfits : Encoder.fitsInt32 v = true := by simpa using hrange
        split
        · next hbyte =>
            have hbyte' : fitsInInt8 (v.setWidth 32) = true := by simpa using hbyte
            exact yields_of_writes (arithmeticDenoted_wideImm ho hops hfits (hgroup.2 hbyte'))
        · exact yields_of_writes (arithmeticDenoted_wideImm ho hops hfits hgroup.1)

theorem yields_encodeArithmeticRegImm_bare (hops : inst.operands = [.reg r size, .imm v])
    (hsize : size ≠ .size64) :
    (encodeArithmeticRegImm inst d r size v).Yields fun bs =>
      ArithmeticDenoted inst bs ↔ ArithmeticImmFits r v size := by
  have hwide : (size == .size64) = false := beq_false_of_ne hsize
  have hgroup := @instructionOf_group o d v hcodes none (.reg r size) false (by decide)
    (.reg r size) rfl rfl
  have hfield : rmArg none (widthOf false) (rmField none (.reg r size)) = .reg 32 r.low.toNat := by
    rw [rmField, low_and]
    exact congrArg (Arg.reg 32) (Nat.zero_add _)
  rw [hfield] at hgroup
  unfold encodeArithmeticRegImm
  simp only [hwide, Bool.false_and, Bool.false_eq_true, if_false]
  split
  · next hacc =>
      simp only [Bool.and_eq_true, beq_iff_eq] at hacc
      have hr : r = 0 := Fin.ext hacc.1.1.1
      refine yields_of_writes ?_
      subst hr
      exact arithmeticDenoted_bareImm ho hops hsize
        (@instructionOf_accumulator o d v hcodes none false (by decide) rfl)
  · split
    · next hbyte =>
        have hbyte' := (Bool.and_eq_true_iff.mp hbyte).1
        exact yields_of_writes (arithmeticDenoted_bareImm ho hops hsize (hgroup.2 hbyte'))
    · exact yields_of_writes (arithmeticDenoted_bareImm ho hops hsize hgroup.1)

theorem yields_encodeArithmeticMemImm {m : MemOperand} {base : Reg} (hbase : BaseOnly m base)
    (hops : inst.operands = [.mem m, .imm v]) :
    (encodeArithmeticMemImm d m v).Yields fun bs =>
      ArithmeticDenoted inst bs ↔ Encoder.fitsInt32 v = true := by
  have hmem := RmOperand.mem m base hbase
  have hgroup := @instructionOf_group o d v hcodes (rexByte true none (some (.mem m)) none) (.mem m)
    true rexByte_isRex hmem (hmem.noIndex _ _) (operandWidth_plain true _ _)
  unfold encodeArithmeticMemImm
  refine yields_of_writes ?_
  split
  · next hbyte => exact arithmeticDenoted_memImm ho hbase hops (hgroup.2 hbyte)
  · exact arithmeticDenoted_memImm ho hbase hops hgroup.1

end Encoder

theorem yields_encodeArithmetic {inst : ParsedInstruction}
    (hplain : ∀ op ∈ inst.operands, PlainOperand op) :
    (encodeArithmetic inst).Yields fun bs => ArithmeticDenoted inst bs ↔ ArithmeticFits inst := by
  rw [encodeArithmetic]
  split
  · next dst src hops =>
      by_cases hconflict : Encoder.checkRexConflict dst src = true
      · rw [if_pos hconflict]
        exact yields_diag
      · rw [if_neg hconflict, ArithmeticFits, hops]
        rw [hops] at hplain
        have hdst := hplain dst List.mem_cons_self
        have hsrc := hplain src (List.mem_cons_of_mem _ List.mem_cons_self)
        apply yields_orDiag_bind
        intro d hd
        obtain ⟨o, ho, hcodes⟩ := arithmetic_codes hd
        cases hdst with
        | reg r size =>
            cases hsrc with
            | reg r' size' =>
                exact yields_of_writes (arithmeticDenoted_rmReg hcodes ho (.reg r size) hops rfl)
            | imm v =>
                by_cases hsize : size = .size64
                · subst hsize
                  exact yields_encodeArithmeticRegImm_wide hcodes ho hops
                · exact yields_encodeArithmeticRegImm_bare hcodes ho hops hsize
            | mem m base hbase =>
                exact yields_of_writes
                  (arithmeticDenoted_regRm hcodes ho (.mem m base hbase) hops rfl)
        | imm v => cases hsrc <;> exact yields_diag
        | mem m base hbase =>
            cases hsrc with
            | reg r size =>
                exact yields_of_writes
                  (arithmeticDenoted_rmReg hcodes ho (.mem m base hbase) hops rfl)
            | imm v => exact yields_encodeArithmeticMemImm hcodes ho hbase hops
            | mem m' base' hbase' => exact yields_diag
  · exact yields_diag

/-- The bytes of an accepted instruction are the written one exactly when its operands are among
`ArithmeticFits`. -/
theorem encodeArithmetic_denoted {inst : ParsedInstruction} {env : EncodeEnv} {es : List Emission}
    (hplain : ∀ op ∈ inst.operands, PlainOperand op)
    (h : encodeArithmetic inst env = (es, .ok ())) :
    ArithmeticDenoted inst (bytesOf es) ↔ ArithmeticFits inst :=
  yields_encodeArithmetic hplain env es h

/-- `sub r10, -8`. -/
def subR10 : ParsedInstruction :=
  { type := .sub, operands := [.reg 10 .size64, .imm (-8)] }

theorem encodeArithmetic_denoted_subR10 :
    ArithmeticDenoted subR10 (bytesOf [.byte 0x49#8, .byte 0x83#8, .byte 0xEA#8, .byte 0xF8#8]) ↔
      ArithmeticFits subR10 := by
  apply @encodeArithmetic_denoted subR10 ⟨0, true, fun _ => none⟩
    [.byte 0x49#8, .byte 0x83#8, .byte 0xEA#8, .byte 0xF8#8]
  · intro op hop
    rcases List.mem_cons.mp hop with rfl | hop
    · exact .reg _ _
    · cases List.mem_singleton.mp hop
      exact .imm _
  · rfl

def addR8d : ParsedInstruction :=
  { type := .add, operands := [.reg 8 .size32, .imm 5] }

/-- `add r8d, 5` adds to `eax`. -/
theorem encodeArithmetic_addR8d :
    ∃ es, encodeArithmetic addR8d ⟨0, true, fun _ => none⟩ = (es, .ok ()) ∧
      ¬ ArithmeticDenoted addR8d (bytesOf es) := by
  refine ⟨[.byte 0x83#8, .byte 0xC0#8, .byte 0x05#8], rfl, ?_⟩
  have hread : instructionOf (bytesOf [.byte 0x83#8, .byte 0xC0#8, .byte 0x05#8]) =
      some ⟨.add, [.reg 32 0, .imm 5]⟩ := by decide
  rw [arithmeticDenoted_iff rfl, denoted_two hread]
  rintro ⟨-, hdst, -⟩
  cases hdst

end X86Assembler
