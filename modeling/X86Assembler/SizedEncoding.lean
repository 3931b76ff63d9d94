import X86Assembler.EncodedInstruction
import X86Assembler.Dispatch

namespace X86Assembler

open CString (Byte)
open Encoder (encodeUnaryArithmetic encodeImul encodeDivIdivMul encodeTest encodeTestImm encodeShift
  encodeShiftBy encodeGroup3 operationSize machineEncoder unaryRegOpcode mulRegOpcode
  shiftRegOpcode rexByte modrmBytes)
open LittleEndian (leBytes)
open MachineCode

def sizedOperation : InstType → Option Operation
  | .inc => some .inc
  | .dec => some .dec
  | .neg => some .neg
  | .not => some .not
  | .mul => some .mul
  | .imul => some .imul
  | .div => some .div
  | .idiv => some .idiv
  | .shl | .sal => some .shl
  | .shr => some .shr
  | .sar => some .sar
  | .rol => some .rol
  | .ror => some .ror
  | .rcl => some .rcl
  | .rcr => some .rcr
  | .test => some .test
  | _ => none

def isShift : InstType → Bool
  | .shl | .sal | .shr | .sar | .rol | .ror | .rcl | .rcr => true
  | _ => false

/-- The operands of a shift by a count, which is one without an operand. -/
def shiftArgs (w : Nat) (dst : Operand) : List Operand → Option (List Arg)
  | [] => (argOf w dst).map fun a => [a, .imm 1]
  | [count] => (argOf w dst).bind fun a => (argOf 8 count).map fun c => [a, c]
  | _ => none

/-- The operands of the written instruction, of the size of the first one. -/
def sizedArgs (type : InstType) : List Operand → Option (List Arg)
  | [] => none
  | dst :: rest =>
    if isShift type then shiftArgs (widthBits (Encoder.operandSize dst)) dst rest
    else argsOf (widthBits (Encoder.operandSize dst)) (dst :: rest)

/-- The bytes are the written operation on the written operands. -/
def SizedDenoted (inst : ParsedInstruction) (bs : List Byte) : Prop :=
  ∃ o args, sizedOperation inst.type = some o ∧ sizedArgs inst.type inst.operands = some args ∧
    instructionOf bs = some ⟨o, args⟩

def WideRegister (r : Reg) (size : RegSize) : Prop := r.val < 16 ∧ IsWide size

/-- The byte registers that need no REX prefix of their own. -/
def ByteRegister (r : Reg) (size : RegSize) : Prop :=
  size = .size8 ∧ (r.val < 4 ∨ 8 ≤ r.val ∧ r.val < 16)

def ImmFits (v : Word) : RegSize → Prop
  | .size64 => Encoder.fitsInt32 v = true
  | .size32 => FitsWidth 32 v
  | _ => False

def UnaryFits : List Operand → Prop
  | [.reg r size] => WideRegister r size
  | _ => False

def ImulFits : List Operand → Prop
  | [.reg r size] => WideRegister r size
  | [dst, src] => WidePair dst src
  | [.reg r size, src, .imm v] => WidePair (.reg r size) src ∧ ImmFits v size
  | _ => False

def TestFits : List Operand → Prop
  | [.reg r size, .imm v] =>
      r.val < 16 ∧ ImmFits v size ∨ ByteRegister r size ∧ FitsWidth 8 v
  | [dst, src] => WidePair dst src
  | _ => False

def ShiftDestination : Operand → Prop
  | .reg r size => WideRegister r size ∨ ByteRegister r size
  | _ => False

/-- The counts: one, a number of one byte, or `cl`. -/
def ShiftFits : List Operand → Prop
  | [dst] => ShiftDestination dst
  | [dst, .imm v] => ShiftDestination dst ∧ FitsWidth 8 v
  | [dst, _] => ShiftDestination dst
  | _ => False

def SizedFits (inst : ParsedInstruction) : Prop :=
  match inst.type with
  | .imul => ImulFits inst.operands
  | .test => TestFits inst.operands
  | .shl | .sal | .shr | .sar | .rol | .ror | .rcl | .rcr => ShiftFits inst.operands
  | _ => UnaryFits inst.operands

inductive RegisterOrNumber : Operand → Prop
  | reg (r : Reg) (size : RegSize) : RegisterOrNumber (.reg r size)
  | imm (v : Word) : RegisterOrNumber (.imm v)

section Written

variable {inst : ParsedInstruction} {o : Operation} {bs : List Byte} {args : List Arg}
  {x y z : Arg} {dst op op' : Operand}

theorem sizedDenoted_iff (ho : sizedOperation inst.type = some o)
    (hread : instructionOf bs = some ⟨o, args⟩) :
    SizedDenoted inst bs ↔ sizedArgs inst.type inst.operands = some args := by
  constructor
  · rintro ⟨o', args', -, hargs, hbs⟩
    cases hread.symm.trans hbs
    exact hargs
  · intro hargs
    exact ⟨o, args, ho, hargs, hread⟩

section Plain

variable (hplain : isShift inst.type = false)

include hplain

theorem sizedArgs_one : sizedArgs inst.type [dst] = some [x] ↔
    argOf (widthBits (Encoder.operandSize dst)) dst = some x := by
  rw [sizedArgs, hplain, if_neg Bool.false_ne_true, argsOf_cons, argsOf_nil]
  exact and_iff_left rfl

theorem sizedArgs_two : sizedArgs inst.type [dst, op] = some [x, y] ↔
    argOf (widthBits (Encoder.operandSize dst)) dst = some x ∧
      argOf (widthBits (Encoder.operandSize dst)) op = some y := by
  rw [sizedArgs, hplain, if_neg Bool.false_ne_true, argsOf_cons, argsOf_cons, argsOf_nil]
  exact and_congr_right fun _ => and_iff_left rfl

theorem sizedArgs_three : sizedArgs inst.type [dst, op, op'] = some [x, y, z] ↔
    argOf (widthBits (Encoder.operandSize dst)) dst = some x ∧
      argOf (widthBits (Encoder.operandSize dst)) op = some y ∧
        argOf (widthBits (Encoder.operandSize dst)) op' = some z := by
  rw [sizedArgs, hplain, if_neg Bool.false_ne_true, argsOf_cons, argsOf_cons, argsOf_cons, argsOf_nil]
  exact and_congr_right fun _ => and_congr_right fun _ => and_iff_left rfl

end Plain

theorem sizedArgs_shift (hshift : isShift inst.type = true) {rest : List Operand} :
    sizedArgs inst.type (dst :: rest) = shiftArgs (widthBits (Encoder.operandSize dst)) dst rest := by
  rw [sizedArgs, hshift, if_pos rfl]

end Written

theorem wideRegister_rm {r : Reg} {size : RegSize} :
    argOf (widthBits size) (.reg r size) =
      some (rmArg (rexByte (size == .size64) none (some (.reg r size)) none)
        (widthOf (size == .size64))
        (rmField (rexByte (size == .size64) none (some (.reg r size)) none) (.reg r size))) ↔
      WideRegister r size := by
  rw [rm_matches (widthOf_wide _) (.reg r size), widthBits_eq_widthOf]
  constructor
  · rintro ⟨hwide, hr, -⟩
    exact ⟨hr, hwide⟩
  · rintro ⟨hr, hwide⟩
    exact ⟨hwide, hr, widthBits_eq_widthOf.mpr hwide⟩

section Group

variable {inst : ParsedInstruction} {o : Operation} {r : Reg} {size : RegSize} {opcode digit : Byte}
  (ho : sizedOperation inst.type = some o) (hplain : isShift inst.type = false)

include ho hplain

theorem sizedDenoted_rm (hops : inst.operands = [.reg r size])
    (hopcode : isOpcode opcode = true ∧ opcode ≠ 0x0F ∧ opcode ≠ 0x90)
    (hentry : oneByteEntry opcode (digit &&& 7#8).toNat = some ⟨o, false, .rm⟩) :
    SizedDenoted inst ((rexByte (size == .size64) none (some (.reg r size)) none).toList ++
      opcode :: modrmBytes digit (.reg r size)) ↔ WideRegister r size := by
  have hread := @instructionOf_rm opcode digit o (size == .size64) _ hopcode (.reg r size) hentry
  rw [sizedDenoted_iff ho hread, hops, sizedArgs_one hplain]
  exact wideRegister_rm

theorem yields_encodeGroup3 {op : Operand} (hop : RegisterOrNumber op) (hops : inst.operands = [op])
    (hentry : oneByteEntry 0xF7 (digit &&& 7#8).toNat = some ⟨o, false, .rm⟩) :
    (encodeGroup3 digit op).Yields fun bs => SizedDenoted inst bs ↔ UnaryFits inst.operands := by
  unfold encodeGroup3
  cases hop with
  | reg r size =>
      rw [hops]
      exact yields_of_writes
        (sizedDenoted_rm ho hplain hops ⟨by decide, by decide, by decide⟩ hentry)
  | imm v =>
      apply yields_bind
      intro _
      apply yields_bind
      intro _
      exact yields_modrm_imm

end Group

theorem unary_codes {type : InstType} {d : Byte} (h : unaryRegOpcode type = some d) :
    ∃ o, sizedOperation type = some o ∧ isShift type = false ∧
      oneByteEntry (if type == .inc || type == .dec then 0xFF else 0xF7) (d &&& 7#8).toNat =
        some ⟨o, false, .rm⟩ := by
  unfold unaryRegOpcode at h
  split at h <;> cases h <;> exact ⟨_, rfl, rfl, rfl⟩

theorem mul_codes {type : InstType} {d : Byte} (h : mulRegOpcode type = some d) :
    ∃ o, sizedOperation type = some o ∧ isShift type = false ∧
      oneByteEntry 0xF7 (d &&& 7#8).toNat = some ⟨o, false, .rm⟩ := by
  unfold mulRegOpcode at h
  split at h <;> cases h <;> exact ⟨_, rfl, rfl, rfl⟩

theorem yields_encodeUnaryArithmetic {inst : ParsedInstruction}
    (hregs : ∀ op ∈ inst.operands, RegisterOrNumber op) :
    (encodeUnaryArithmetic inst).Yields fun bs =>
      SizedDenoted inst bs ↔ UnaryFits inst.operands := by
  unfold encodeUnaryArithmetic
  split
  · next op hops =>
      have hop := hregs op (hops ▸ List.mem_cons_self)
      apply yields_orDiag_bind
      intro d hd
      obtain ⟨o, ho, hplain, hentry⟩ := unary_codes hd
      cases hop with
      | imm v => exact yields_diag
      | reg r size =>
          rw [hops]
          refine yields_of_writes (sizedDenoted_rm ho hplain hops ?_ hentry)
          split <;> exact ⟨by decide, by decide, by decide⟩
  · exact yields_diag

theorem yields_encodeDivIdivMul {inst : ParsedInstruction}
    (hregs : ∀ op ∈ inst.operands, RegisterOrNumber op) :
    (encodeDivIdivMul inst).Yields fun bs =>
      SizedDenoted inst bs ↔ UnaryFits inst.operands := by
  unfold encodeDivIdivMul
  split
  · next op hops =>
      have hop := hregs op (hops ▸ List.mem_cons_self)
      apply yields_orDiag_bind
      intro d hd
      obtain ⟨o, ho, hplain, hentry⟩ := mul_codes hd
      exact yields_encodeGroup3 ho hplain hop hops hentry
  · exact yields_diag

theorem immFits_iff {size : RegSize} {v : Word} (hwide : IsWide size) :
    argOf (widthBits size) (.imm v) =
      some (.imm ((v.setWidth 32).signExtend (widthOf (size == .size64))).toNat) ↔ ImmFits v size := by
  rcases hwide with rfl | rfl
  · exact @imm_wide false v
  · exact @imm_wide true v

section Imul

variable {inst : ParsedInstruction} {r r' : Reg} {size size' : RegSize}
  (htype : inst.type = .imul)

include htype

theorem sizedDenoted_imulPair (hops : inst.operands = [.reg r size, .reg r' size']) :
    SizedDenoted inst
      ((rexByte (size == .size64) (some (.reg r size)) (some (.reg r' size')) none).toList ++
        ([0x0F, 0xAF] ++ modrmBytes r.low (.reg r' size'))) ↔
      WidePair (.reg r size) (.reg r' size') := by
  have ho : sizedOperation inst.type = some .imul := htype ▸ rfl
  have hop := RmOperand.reg r' size'
  have hargs := @readArgs_regRm
    (rexByte (size == .size64) (some (.reg r size)) (some (.reg r' size')) none) 0xAF r.low _
    (widthOf (size == .size64)) hop (hop.noIndex _ _)
  have hread := @instructionOf_twoByte []
    (modrmBytes r.low (.reg r' size'))
    (rexByte (size == .size64) (some (.reg r size)) (some (.reg r' size')) none) 0xAF
    ⟨.imul, false, .regRm⟩ (.inl rfl) rexByte_isRex rfl
  rw [readEntry, operandWidth_plain, hargs] at hread
  have hdenoted := sizedDenoted_iff ho hread
  rw [hops, sizedArgs_two (htype ▸ rfl), and_comm] at hdenoted
  exact hdenoted.trans ((wide_matches hop).trans (and_congr_right fun _ => and_comm))

theorem sizedDenoted_imulTriple {v : Word} {bs : List Byte}
    (hops : inst.operands = [.reg r size, .reg r' size', .imm v])
    (hread : instructionOf bs = some ⟨.imul, [
      regArg (rexByte (size == .size64) (some (.reg r size)) (some (.reg r' size')) none)
        (widthOf (size == .size64))
        (rexBit (rexByte (size == .size64) (some (.reg r size)) (some (.reg r' size')) none) 2 +
          (r.low &&& 7#8).toNat),
      rmArg (rexByte (size == .size64) (some (.reg r size)) (some (.reg r' size')) none)
        (widthOf (size == .size64))
        (rmField (rexByte (size == .size64) (some (.reg r size)) (some (.reg r' size')) none)
          (.reg r' size')),
      .imm ((v.setWidth 32).signExtend (widthOf (size == .size64))).toNat]⟩) :
    SizedDenoted inst bs ↔ WidePair (.reg r size) (.reg r' size') ∧ ImmFits v size := by
  have hop := RmOperand.reg r' size'
  have hpair : argOf (widthBits size) (.reg r size) = some _ ∧
      argOf (widthBits size) (.reg r' size') = some _ ↔ WidePair (.reg r size) (.reg r' size') :=
    and_comm.trans ((wide_matches hop).trans (and_congr_right fun _ => and_comm))
  have himm : WidePair (.reg r size) (.reg r' size') →
      (argOf (widthBits size) (.imm v) =
        some (.imm ((v.setWidth 32).signExtend (widthOf (size == .size64))).toNat) ↔
          ImmFits v size) := fun h => immFits_iff h.1
  rw [sizedDenoted_iff (htype ▸ rfl) hread, hops, sizedArgs_three (htype ▸ rfl), ← and_assoc]
  exact (and_congr_left fun _ => hpair).trans (and_congr_right himm)

theorem yields_encodeImul (hregs : ∀ op ∈ inst.operands, RegisterOrNumber op) :
    (encodeImul inst).Yields fun bs => SizedDenoted inst bs ↔ ImulFits inst.operands := by
  unfold encodeImul
  split
  · next op hops =>
      have hop := hregs op (hops ▸ List.mem_cons_self)
      have hfits : ImulFits inst.operands ↔ UnaryFits inst.operands := by
        rw [hops]
        cases hop <;> rfl
      rw [hfits]
      exact yields_encodeGroup3 (htype ▸ rfl) (htype ▸ rfl) hop hops rfl
  · next r size src hops =>
      have hop := hregs src (hops ▸ List.mem_cons_of_mem _ List.mem_cons_self)
      cases hop with
      | reg r' size' =>
          rw [hops]
          exact yields_of_writes (sizedDenoted_imulPair htype hops)
      | imm v =>
          apply yields_bind
          intro _
          apply yields_bind
          intro _
          exact yields_modrm_imm
  · exact yields_diag
  · next r size src v hops =>
      have hop := hregs src (hops ▸ List.mem_cons_of_mem _ List.mem_cons_self)
      dsimp only
      cases hop with
      | reg r' size' =>
          rw [hops]
          refine yields_of_writes ?_
          have hrm := RmOperand.reg r' size'
          have hwide : 32 ≤ widthOf (size == .size64) := by cases size <;> decide
          split
          · next hbyte =>
              apply sizedDenoted_imulTriple htype hops
              rw [← immediate_byte hbyte hwide]
              exact instructionOf_modrm ⟨by decide, by decide, by decide⟩ rexByte_isRex hrm rfl
                (operandWidth_plain _ _ _)
                (readArgs_regRmImm8 hrm (hrm.noIndex _ _) (readImm_byte _ _))
          · apply sizedDenoted_imulTriple htype hops
            exact instructionOf_modrm ⟨by decide, by decide, by decide⟩ rexByte_isRex hrm rfl
              (operandWidth_plain _ _ _) (readArgs_regRmImm hrm (hrm.noIndex _ _) (readImm_wide _ _))
      | imm u =>
          apply yields_bind
          intro _
          split
          · apply yields_bind
            intro _
            exact yields_modrm_imm_bind
          · apply yields_bind
            intro _
            exact yields_modrm_imm_bind
  · exact yields_diag
  · exact yields_diag

end Imul

theorem byteRegister_rm {r : Reg} :
    argOf 8 (.reg r .size8) =
      some (rmArg (rexByte false none (some (.reg r .size8)) none) 8
        (rmField (rexByte false none (some (.reg r .size8)) none) (.reg r .size8))) ↔
      ByteRegister r .size8 := by
  unfold ByteRegister
  revert r
  decide

theorem isWide_of_immFits {v : Word} {size : RegSize} (h : ImmFits v size) : IsWide size := by
  cases size with
  | size32 => exact .inl rfl
  | size64 => exact .inr rfl
  | size8 => cases h
  | size8h => cases h
  | size16 => cases h
  | xmm => cases h

theorem instructionOf_testAcc (w : Bool) (v : BitVec 32) :
    instructionOf ((rexByte w none none none).toList ++ 0xA9 :: leBytes 4 v) =
      some ⟨.test, [.reg (widthOf w) 0, .imm (v.signExtend (widthOf w)).toNat]⟩ := by
  refine @instructionOf_of_args [] _ (rexByte w none none none) 0xA9 ⟨.test, false, .accImm⟩ _
    (.inl rfl) rexByte_isRex ⟨by decide, by decide, by decide⟩ rfl ?_
  rw [operandWidth_plain, readArgs, readImm_wide]
  rfl

section Test

variable {inst : ParsedInstruction} {r : Reg} {size : RegSize} {v : Word} {bs : List Byte}
  (htype : inst.type = .test)

include htype

theorem sizedDenoted_testWide {a : Arg} (hops : inst.operands = [.reg r size, .imm v])
    (hsize : size ≠ .size8)
    (ha : argOf (widthBits size) (.reg r size) = some a ↔ WideRegister r size)
    (hread : instructionOf bs =
      some ⟨.test, [a, .imm ((v.setWidth 32).signExtend (widthOf (size == .size64))).toNat]⟩) :
    SizedDenoted inst bs ↔ TestFits inst.operands := by
  rw [sizedDenoted_iff (htype ▸ rfl) hread, hops, sizedArgs_two (htype ▸ rfl)]
  constructor
  · rintro ⟨hdst, himm⟩
    obtain ⟨hr, hwide⟩ := ha.mp hdst
    exact .inl ⟨hr, (immFits_iff hwide).mp himm⟩
  · rintro (⟨hr, hfits⟩ | ⟨⟨hbyte, -⟩, -⟩)
    · have hwide := isWide_of_immFits hfits
      exact ⟨ha.mpr ⟨hr, hwide⟩, (immFits_iff hwide).mpr hfits⟩
    · exact absurd hbyte hsize

theorem sizedDenoted_testByte (hops : inst.operands = [.reg r .size8, .imm v]) :
    SizedDenoted inst ((rexByte false none (some (.reg r .size8)) none).toList ++
      0xF6 :: (modrmBytes 0 (.reg r .size8) ++ [v.setWidth 8])) ↔ TestFits inst.operands := by
  have hop := RmOperand.reg r .size8
  have hread : instructionOf _ = some (⟨.test, [_, _]⟩ : Instruction) :=
    @instructionOf_modrm 0xF6 0 .test true .rmImm _ _ _ 8 _ ⟨by decide, by decide, by decide⟩
      rexByte_isRex hop rfl rfl (readArgs_rmImm hop (hop.noIndex false none) (readImm_byte 8 (v.setWidth 8)))
  have himm : argOf 8 (.imm v) = some (.imm ((v.setWidth 8).signExtend 8).toNat) ↔ FitsWidth 8 v := by
    rw [imm_matches]
    exact and_iff_left (immediate_same 8 v)
  rw [sizedDenoted_iff (htype ▸ rfl) hread, hops, sizedArgs_two (htype ▸ rfl)]
  refine (and_congr byteRegister_rm himm).trans ?_
  constructor
  · intro h
    exact .inr h
  · rintro (⟨-, h⟩ | h)
    · cases h
    · exact h

theorem sizedDenoted_testPair {r' : Reg} {size' : RegSize}
    (hops : inst.operands = [.reg r size, .reg r' size']) :
    SizedDenoted inst
      ((rexByte (size' == .size64) (some (.reg r' size')) (some (.reg r size)) none).toList ++
        0x85 :: modrmBytes r'.low (.reg r size)) ↔ WidePair (.reg r size) (.reg r' size') := by
  have hop := RmOperand.reg r size
  have hread := @instructionOf_rmReg 0x85 .test (size' == .size64) r' size' _
    ⟨by decide, by decide, by decide⟩ hop fun _ => rfl
  rw [sizedDenoted_iff (htype ▸ rfl) hread, hops, sizedArgs_two (htype ▸ rfl)]
  refine (and_congr (rm_matches (widthOf_wide _) hop) (reg_matches (widthOf_wide _))).trans ?_
  constructor
  · rintro ⟨⟨hwidth, hr, -⟩, -, hr', hwidth'⟩
    obtain ⟨hwide, hsame⟩ := widthBits_pair.mp ⟨hwidth, hwidth'⟩
    exact ⟨hwide, ⟨hr, rfl⟩, hr', hsame⟩
  · rintro ⟨hwide, ⟨hr, -⟩, hr', hsame⟩
    obtain ⟨hwidth, hwidth'⟩ := widthBits_pair.mpr ⟨hwide, hsame⟩
    exact ⟨⟨hwidth, hr, hwidth⟩, hwidth, hr', hwidth'⟩

theorem yields_encodeTestImm (hops : inst.operands = [.reg r size, .imm v]) :
    (encodeTestImm (.reg r size) v).Yields fun bs =>
      SizedDenoted inst bs ↔ TestFits inst.operands := by
  have hop := RmOperand.reg r size
  have hsz : Encoder.operandSize (.reg r size) = size := rfl
  unfold encodeTestImm
  dsimp only
  rw [hsz]
  split
  · next hacc =>
      obtain ⟨hr, hsize⟩ := Bool.and_eq_true_iff.mp hacc
      have hr' : r = 0 := Fin.ext (by simpa [Encoder.regField] using (Bool.and_eq_true_iff.mp hr).2)
      have hsize' : size ≠ .size8 := by simpa using hsize
      refine yields_of_writes ?_
      refine @sizedDenoted_testWide inst r size v _ htype (.reg (widthOf (size == .size64)) 0) hops
        hsize' ?_ ?_
      · have hne : widthOf (size == .size64) ≠ 8 := by cases size <;> decide
        rw [argOf_reg_wide hne, widthBits_eq_widthOf, hr']
        constructor
        · rintro ⟨hwide, -⟩
          exact ⟨by decide, hwide⟩
        · rintro ⟨hr, hwide⟩
          exact ⟨hwide, rfl, hr, hwide⟩
      · exact instructionOf_testAcc _ _
  · next hacc =>
      split
      · next hsize =>
          have hsize' : size = .size8 := by simpa using hsize
          subst hsize'
          exact yields_of_writes (sizedDenoted_testByte htype hops)
      · next hsize =>
          have hsize' : size ≠ .size8 := by simpa using hsize
          refine yields_of_writes (sizedDenoted_testWide htype hops hsize' wideRegister_rm ?_)
          exact instructionOf_modrm ⟨by decide, by decide, by decide⟩ rexByte_isRex hop rfl
            (operandWidth_plain _ _ _) (readArgs_rmImm hop (hop.noIndex _ _) (readImm_wide _ _))

theorem yields_encodeTest (hregs : ∀ op ∈ inst.operands, RegisterOrNumber op) :
    (encodeTest inst).Yields fun bs => SizedDenoted inst bs ↔ TestFits inst.operands := by
  unfold encodeTest
  split
  · next op1 op2 hops =>
      have hop1 := hregs op1 (hops ▸ List.mem_cons_self)
      have hop2 := hregs op2 (hops ▸ List.mem_cons_of_mem _ List.mem_cons_self)
      split
      · exact yields_diag
      · cases hop1 with
        | reg r size =>
            cases hop2 with
            | reg r' size' =>
                rw [hops]
                exact yields_of_writes (sizedDenoted_testPair htype hops)
            | imm v => exact yields_encodeTestImm htype hops
        | imm u =>
            cases hop2 with
            | reg r size =>
                apply yields_bind
                intro _
                apply yields_bind
                intro _
                exact yields_modrm_imm
            | imm v => exact yields_diag
  · exact yields_diag

end Test

def shiftWidth (size : RegSize) : Nat :=
  if size == .size8 then 8 else widthOf (size == .size64)

theorem shiftDestination_rm {r : Reg} {size : RegSize} :
    argOf (widthBits size) (.reg r size) =
      some (rmArg (rexByte (size == .size64) none (some (.reg r size)) none) (shiftWidth size)
        (rmField (rexByte (size == .size64) none (some (.reg r size)) none) (.reg r size))) ↔
      ShiftDestination (.reg r size) := by
  by_cases hsize : size = .size8
  · subst hsize
    refine (@byteRegister_rm r).trans ?_
    constructor
    · intro h
      exact .inr h
    · rintro (⟨-, h | h⟩ | h)
      · cases h
      · cases h
      · exact h
  · have hwidth : shiftWidth size = widthOf (size == .size64) := by
      rw [shiftWidth, beq_false_of_ne hsize]
      rfl
    rw [hwidth, wideRegister_rm]
    constructor
    · intro h
      exact .inl h
    · rintro (h | ⟨h, -⟩)
      · exact h
      · exact absurd h hsize

theorem operandWidth_shift (size : RegSize) (regOp rmOp : Option Operand) :
    operandWidth [] (rexByte (size == .size64) regOp rmOp none) (size == .size8) =
      shiftWidth size := by
  rw [operandWidth, rexBit_w]
  cases size <;> rfl

theorem shift_codes {type : InstType} {d : Byte} (h : shiftRegOpcode type = some d) :
    sizedOperation type = some (shift (d &&& 7#8).toNat) ∧ isShift type = true := by
  unfold shiftRegOpcode at h
  split at h <;> cases h <;> exact ⟨rfl, rfl⟩

theorem shiftArgs_none {w : Nat} {dst : Operand} {a : Arg} :
    shiftArgs w dst [] = some [a, .imm 1] ↔ argOf w dst = some a := by
  rw [shiftArgs, Option.map_eq_some_iff]
  constructor
  · rintro ⟨a', ha, heq⟩
    cases heq
    exact ha
  · intro ha
    exact ⟨a, ha, rfl⟩

theorem shiftArgs_count {w : Nat} {dst count : Operand} {a c : Arg} :
    shiftArgs w dst [count] = some [a, c] ↔ argOf w dst = some a ∧ argOf 8 count = some c := by
  rw [shiftArgs, Option.bind_eq_some_iff]
  constructor
  · rintro ⟨a', ha, h⟩
    obtain ⟨c', hc, heq⟩ := Option.map_eq_some_iff.mp h
    cases heq
    exact ⟨ha, hc⟩
  · rintro ⟨ha, hc⟩
    refine ⟨a, ha, ?_⟩
    rw [hc]
    rfl

theorem count_matches {v : Word} :
    argOf 8 (.imm v) = some (.imm ((v.setWidth 32).setWidth 8).toNat) ↔ FitsWidth 8 v := by
  rw [imm_matches]
  apply and_iff_left
  rw [BitVec.toNat_setWidth, BitVec.toNat_setWidth]
  omega

section ShiftForms

variable {inst : ParsedInstruction} {r : Reg} {size : RegSize} {d opcode : Byte}
  {layout : Layout} {tail : List Byte} {c : Arg}

theorem instructionOf_shift
    (hopcode : isOpcode opcode = true ∧ opcode ≠ 0x0F ∧ opcode ≠ 0x90)
    (hentry : ∀ digit, oneByteEntry opcode digit = some ⟨shift digit, size == .size8, layout⟩)
    (hargs : readArgs (rexByte (size == .size64) none (some (.reg r size)) none) opcode
        (shiftWidth size) (modrmBytes d (.reg r size) ++ tail) layout =
      some ([rmArg (rexByte (size == .size64) none (some (.reg r size)) none) (shiftWidth size)
        (rmField (rexByte (size == .size64) none (some (.reg r size)) none) (.reg r size)), c], [])) :
    instructionOf ((rexByte (size == .size64) none (some (.reg r size)) none).toList ++
        opcode :: (modrmBytes d (.reg r size) ++ tail)) =
      some ⟨shift (d &&& 7#8).toNat,
        [rmArg (rexByte (size == .size64) none (some (.reg r size)) none) (shiftWidth size)
          (rmField (rexByte (size == .size64) none (some (.reg r size)) none) (.reg r size)), c]⟩ :=
  instructionOf_modrm hopcode rexByte_isRex (.reg r size) (hentry _) (operandWidth_shift size _ _) hargs

theorem shift_entry (byte : Bool) (digit : Nat) :
    oneByteEntry (if byte then 0xD0 else 0xD1) digit = some ⟨shift digit, byte, .rmOne⟩ ∧
      oneByteEntry (if byte then 0xD2 else 0xD3) digit = some ⟨shift digit, byte, .rmCl⟩ ∧
      oneByteEntry (if byte then 0xC0 else 0xC1) digit = some ⟨shift digit, byte, .rmCount⟩ := by
  cases byte <;> exact ⟨rfl, rfl, rfl⟩

theorem shift_opcode (byte : Bool) {low : Byte} (h : low = 0xC0 ∨ low = 0xD0 ∨ low = 0xD2) :
    isOpcode (if byte then low else low + 1) = true ∧ (if byte then low else low + 1) ≠ 0x0F ∧
      (if byte then low else low + 1) ≠ 0x90 := by
  rcases h with rfl | rfl | rfl <;> cases byte <;> decide

theorem instructionOf_shiftOne :
    instructionOf ((rexByte (size == .size64) none (some (.reg r size)) none).toList ++
        (if size == .size8 then 0xD0 else 0xD1) :: modrmBytes d (.reg r size)) =
      some ⟨shift (d &&& 7#8).toNat,
        [rmArg (rexByte (size == .size64) none (some (.reg r size)) none) (shiftWidth size)
          (rmField (rexByte (size == .size64) none (some (.reg r size)) none) (.reg r size)),
          .imm 1]⟩ := by
  have hop := RmOperand.reg r size
  have hargs := @readArgs_rmOne _ (if size == .size8 then 0xD0 else 0xD1) d _ (shiftWidth size) hop
    (hop.noIndex (size == .size64) none)
  rw [← List.append_nil (modrmBytes d (.reg r size))] at hargs ⊢
  exact instructionOf_shift (shift_opcode _ (.inr (.inl rfl))) (fun digit => (shift_entry _ digit).1)
    hargs

theorem instructionOf_shiftCl :
    instructionOf ((rexByte (size == .size64) none (some (.reg r size)) none).toList ++
        (if size == .size8 then 0xD2 else 0xD3) :: modrmBytes d (.reg r size)) =
      some ⟨shift (d &&& 7#8).toNat,
        [rmArg (rexByte (size == .size64) none (some (.reg r size)) none) (shiftWidth size)
          (rmField (rexByte (size == .size64) none (some (.reg r size)) none) (.reg r size)),
          .reg 8 1]⟩ := by
  have hop := RmOperand.reg r size
  have hargs := @readArgs_rmCl _ (if size == .size8 then 0xD2 else 0xD3) d _ (shiftWidth size) hop
    (hop.noIndex (size == .size64) none)
  rw [← List.append_nil (modrmBytes d (.reg r size))] at hargs ⊢
  exact instructionOf_shift (shift_opcode _ (.inr (.inr rfl)))
    (fun digit => (shift_entry _ digit).2.1) hargs

theorem instructionOf_shiftCount (b : Byte) :
    instructionOf ((rexByte (size == .size64) none (some (.reg r size)) none).toList ++
        (if size == .size8 then 0xC0 else 0xC1) :: (modrmBytes d (.reg r size) ++ [b])) =
      some ⟨shift (d &&& 7#8).toNat,
        [rmArg (rexByte (size == .size64) none (some (.reg r size)) none) (shiftWidth size)
          (rmField (rexByte (size == .size64) none (some (.reg r size)) none) (.reg r size)),
          .imm b.toNat]⟩ := by
  have hop := RmOperand.reg r size
  exact instructionOf_shift (shift_opcode _ (.inl rfl)) (fun digit => (shift_entry _ digit).2.2)
    (readArgs_rmCount hop (hop.noIndex (size == .size64) none) b)

variable (ho : sizedOperation inst.type = some (shift (d &&& 7#8).toNat))
  (hshift : isShift inst.type = true)

include ho hshift

theorem sizedDenoted_shift {bs : List Byte} {count : List Operand} {C : Prop}
    (hops : inst.operands = .reg r size :: count)
    (hcount : ∀ a, shiftArgs (widthBits size) (.reg r size) count = some [a, c] ↔
      argOf (widthBits size) (.reg r size) = some a ∧ C)
    (hread : instructionOf bs = some ⟨shift (d &&& 7#8).toNat,
      [rmArg (rexByte (size == .size64) none (some (.reg r size)) none) (shiftWidth size)
        (rmField (rexByte (size == .size64) none (some (.reg r size)) none) (.reg r size)), c]⟩) :
    SizedDenoted inst bs ↔ ShiftDestination (.reg r size) ∧ C := by
  have hsz : Encoder.operandSize (.reg r size) = size := rfl
  rw [sizedDenoted_iff ho hread, hops, sizedArgs_shift hshift, hsz, hcount]
  exact and_congr_left fun _ => shiftDestination_rm

theorem yields_encodeShiftBy_one (hops : inst.operands = [.reg r size]) :
    (encodeShiftBy d (.reg r size) (.number 1)).Yields fun bs =>
      SizedDenoted inst bs ↔ ShiftFits inst.operands := by
  have hsz : Encoder.operandSize (.reg r size) = size := rfl
  rw [hops]
  unfold encodeShiftBy
  dsimp only
  rw [if_pos (by rfl), hsz]
  refine yields_of_writes ((sizedDenoted_shift ho hshift hops ?_ instructionOf_shiftOne).trans
    (and_iff_left trivial))
  intro a
  rw [shiftArgs_none, and_true]

theorem yields_encodeShiftBy_cl (hops : inst.operands = [.reg r size, .reg 1 .size8]) :
    (encodeShiftBy d (.reg r size) .cl).Yields fun bs =>
      SizedDenoted inst bs ↔ ShiftFits inst.operands := by
  have hsz : Encoder.operandSize (.reg r size) = size := rfl
  rw [hops]
  unfold encodeShiftBy
  dsimp only
  rw [hsz]
  refine yields_of_writes ((sizedDenoted_shift ho hshift hops ?_ instructionOf_shiftCl).trans
    (and_iff_left trivial))
  intro a
  rw [shiftArgs_count]
  exact and_congr_right fun _ => iff_true_intro rfl

theorem yields_encodeShiftBy_number {v : Word} (hops : inst.operands = [.reg r size, .imm v]) :
    (encodeShiftBy d (.reg r size) (.number (v.setWidth 32))).Yields fun bs =>
      SizedDenoted inst bs ↔ ShiftFits inst.operands := by
  have hsz : Encoder.operandSize (.reg r size) = size := rfl
  rw [hops]
  unfold encodeShiftBy
  dsimp only
  rw [hsz]
  refine yields_of_writes ?_
  split
  · next hone =>
      have hbyte : ((v.setWidth 32).setWidth 8).toNat = 1 := by
        rw [beq_iff_eq.mp hone]
        rfl
      refine sizedDenoted_shift ho hshift hops ?_ instructionOf_shiftOne
      intro a
      rw [shiftArgs_count, ← hbyte, count_matches]
  · refine sizedDenoted_shift ho hshift hops ?_ (instructionOf_shiftCount _)
    intro a
    rw [shiftArgs_count, count_matches]

end ShiftForms

theorem yields_encodeShiftBy_imm {P : List Byte → Prop} {d : Byte} {u : Word}
    {count : Encoder.ShiftCount} : (encodeShiftBy d (.imm u) count).Yields P := by
  unfold encodeShiftBy
  apply yields_bind
  intro _
  split
  · apply yields_bind
    intro _
    exact yields_modrm_imm
  · split
    · apply yields_bind
      intro _
      exact yields_modrm_imm
    · apply yields_bind
      intro _
      exact yields_modrm_imm_bind

theorem yields_encodeShift {inst : ParsedInstruction}
    (hregs : ∀ op ∈ inst.operands, RegisterOrNumber op) :
    (encodeShift inst).Yields fun bs => SizedDenoted inst bs ↔ ShiftFits inst.operands := by
  unfold encodeShift
  split
  · next dst rest hops =>
      have hdst := hregs dst (hops ▸ List.mem_cons_self)
      split
      · exact yields_diag
      · next hlen =>
          apply yields_orDiag_bind
          intro d hd
          obtain ⟨ho, hshift⟩ := shift_codes hd
          cases rest with
          | nil =>
              apply yields_pure_bind
              cases hdst with
              | reg r size => exact yields_encodeShiftBy_one ho hshift hops
              | imm u => exact yields_encodeShiftBy_imm
          | cons count more =>
              have hmore : more = [] := by
                cases more with
                | nil => rfl
                | cons _ _ => exact absurd (Nat.lt_add_left _ (Nat.lt_succ_self 1)) hlen
              subst hmore
              have hcount := hregs count (hops ▸ List.mem_cons_of_mem _ List.mem_cons_self)
              rw [List.head?_cons]
              cases hcount with
              | imm v =>
                  apply yields_pure_bind
                  cases hdst with
                  | reg r size => exact yields_encodeShiftBy_number ho hshift hops
                  | imm u => exact yields_encodeShiftBy_imm
              | reg r' size' =>
                  simp only [Encoder.shiftCount]
                  split
                  · next hcl =>
                      obtain ⟨hr, hsize⟩ := Bool.and_eq_true_iff.mp hcl
                      have hr' : r' = 1 := Fin.ext (beq_iff_eq.mp hr)
                      have hsize' : size' = .size8 := beq_iff_eq.mp hsize
                      subst hr' hsize'
                      apply yields_pure_bind
                      cases hdst with
                      | reg r size => exact yields_encodeShiftBy_cl ho hshift hops
                      | imm u => exact yields_encodeShiftBy_imm
                  · exact yields_diag_bind
  · exact yields_diag

theorem yields_sizedEncoder {inst : ParsedInstruction} {encode : ParsedInstruction → Encoder Unit}
    (hsized : (sizedOperation inst.type).isSome = true)
    (hencode : machineEncoder inst.type = some encode)
    (hregs : ∀ op ∈ inst.operands, RegisterOrNumber op) :
    (encode inst).Yields fun bs => SizedDenoted inst bs ↔ SizedFits inst := by
  unfold SizedFits
  unfold sizedOperation at hsized
  split at hsized
  all_goals
    first
    | exact absurd hsized Bool.false_ne_true
    | next htype =>
        rw [htype] at hencode ⊢
        cases hencode
        first
        | exact yields_encodeUnaryArithmetic hregs
        | exact yields_encodeDivIdivMul hregs
        | exact yields_encodeShift hregs
        | exact yields_encodeImul htype hregs
        | exact yields_encodeTest htype hregs

/-- The bytes of an accepted instruction on registers are the written one exactly when its operands
are among `SizedFits`. -/
theorem sizedEncoders_denoted {inst : ParsedInstruction} {encode : ParsedInstruction → Encoder Unit}
    {env : EncodeEnv} {es : List Emission} (hsized : (sizedOperation inst.type).isSome = true)
    (hencode : machineEncoder inst.type = some encode)
    (hregs : ∀ op ∈ inst.operands, RegisterOrNumber op) (h : encode inst env = (es, .ok ())) :
    SizedDenoted inst (bytesOf es) ↔ SizedFits inst :=
  yields_sizedEncoder hsized hencode hregs env es h

/-- `sar r9b, cl`. -/
def sarR9b : ParsedInstruction :=
  { type := .sar, operands := [.reg 9 .size8, .reg 1 .size8] }

theorem sizedEncoders_denoted_sarR9b :
    SizedDenoted sarR9b (bytesOf [.byte 0x41#8, .byte 0xD2#8, .byte 0xF9#8]) ↔ SizedFits sarR9b := by
  apply @sizedEncoders_denoted sarR9b encodeShift ⟨0, true, fun _ => none⟩
    [.byte 0x41#8, .byte 0xD2#8, .byte 0xF9#8]
  · rfl
  · rfl
  · intro op hop
    rcases List.mem_cons.mp hop with rfl | hop
    · exact .reg _ _
    · cases List.mem_singleton.mp hop
      exact .reg _ _
  · rfl

def incAl : ParsedInstruction := { type := .inc, operands := [.reg 0 .size8] }

/-- `inc al` increments `eax`. -/
theorem encodeUnaryArithmetic_incAl :
    ∃ es, encodeUnaryArithmetic incAl ⟨0, true, fun _ => none⟩ = (es, .ok ()) ∧
      ¬ SizedDenoted incAl (bytesOf es) := by
  refine ⟨[.byte 0xFF#8, .byte 0xC0#8], rfl, ?_⟩
  have hread : instructionOf (bytesOf [.byte 0xFF#8, .byte 0xC0#8]) =
      some ⟨.inc, [.reg 32 0]⟩ := by decide
  rw [sizedDenoted_iff rfl hread]
  intro hargs
  cases hargs

end X86Assembler
