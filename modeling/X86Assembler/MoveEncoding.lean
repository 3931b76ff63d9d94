import X86Assembler.EncodedInstruction

namespace X86Assembler

open CString (Byte)
open Encoder (encodeMov encodeMovRegImm encodeMovMemImm operationSize rexByte modrmBytes Writes)
open LittleEndian (leBytes)
open MachineCode

def moveOperation : InstType → Option Operation
  | .mov => some .mov
  | .movzx => some .movzx
  | .movsx => some .movsx
  | _ => none

/-- The widths of the source for a destination of `w` bits. -/
def sourceWidths (type : InstType) (w : Nat) : List Nat :=
  match type with
  | .mov => [w]
  | .movzx => [8, 16].filter (· < w)
  | .movsx => [8, 16, 32].filter (· < w)
  | _ => []

/-- The instructions that a written move stands for. Its width is that of its first register, and
64 bits without one; the source of an extension is narrower. -/
def MoveMeaning (inst : ParsedInstruction) (j : Instruction) : Prop :=
  ∃ dst src o a b, ∃ u ∈ sourceWidths inst.type (widthBits (operationSize dst src)),
    inst.operands = [dst, src] ∧ moveOperation inst.type = some o ∧
      argOf (widthBits (operationSize dst src)) dst = some a ∧ argOf u src = some b ∧ j = ⟨o, [a, b]⟩

/-- The bytes are an instruction with the effect of the written one. -/
def MoveDenoted (inst : ParsedInstruction) (bs : List Byte) : Prop :=
  ∃ i j, instructionOf bs = some i ∧ MoveMeaning inst j ∧ i.normal = j.normal

/-- The numbers that come out right for a register: those of its width, and from `r8` on only
where the form with a sign-extended or a zero-extended field is taken. -/
def MoveImmFits (r : Reg) (v : Word) : RegSize → Prop
  | .size64 => r.val < 16 ∧
      (r.val < 8 ∨ Encoder.fitsUInt32 v = true ∨ Encoder.fitsInt32 v = true)
  | .size32 => r.val < 8 ∧ FitsWidth 32 v
  | .size16 => r.val < 8 ∧ FitsWidth 16 v
  | .size8 => r.val < 4 ∧ FitsWidth 8 v
  | .size8h => 4 ≤ r.val ∧ r.val < 8 ∧ FitsWidth 8 v
  | .xmm => False

/-- The moves that come out right: plain moves of 32 or 64 bits between registers and memory, and of
the numbers that fit. -/
def MoveFits (inst : ParsedInstruction) : Prop :=
  inst.type = .mov ∧
    match inst.operands with
    | [.reg r size, .imm v] => MoveImmFits r v size
    | [.mem _, .imm v] => Encoder.fitsInt32 v = true
    | [dst, src] => WidePair dst src
    | _ => False

theorem moveOperation_mov {type : InstType} : moveOperation type = some .mov ↔ type = .mov := by
  cases type <;> simp [moveOperation]

section Denoted

variable {inst : ParsedInstruction} {bs : List Byte} {dst src : Operand} {x y : Arg}

/-- Bytes of a plain move are right when the written one is plain and has the same operands. -/
theorem moveDenoted_iff (hops : inst.operands = [dst, src])
    (hread : instructionOf bs = some ⟨.mov, [x, y]⟩) :
    MoveDenoted inst bs ↔ inst.type = .mov ∧ ∃ a b,
      argOf (widthBits (operationSize dst src)) dst = some a ∧
      argOf (widthBits (operationSize dst src)) src = some b ∧
      (⟨.mov, [x, y]⟩ : Instruction).normal = (⟨.mov, [a, b]⟩ : Instruction).normal := by
  constructor
  · rintro ⟨i, j, hi, ⟨dst', src', o, a, b, u, hu, hops', ho, ha, hb, rfl⟩, heq⟩
    rw [hread] at hi
    cases hi
    rw [hops] at hops'
    cases hops'
    have hop : ∀ k : Instruction, k.normal.op = k.op := by
      intro k
      unfold Instruction.normal
      split <;> rfl
    have hmov : o = .mov := by
      have h := congrArg Instruction.op heq
      rw [hop, hop] at h
      exact h.symm
    have htype := moveOperation_mov.mp (hmov ▸ ho)
    rw [htype] at hu
    cases List.mem_singleton.mp hu
    exact ⟨htype, a, b, ha, hb, hmov ▸ heq⟩
  · rintro ⟨htype, a, b, ha, hb, heq⟩
    refine ⟨_, _, hread, ⟨dst, src, .mov, a, b, widthBits (operationSize dst src), ?_, hops,
      moveOperation_mov.mpr htype, ha, hb, rfl⟩, heq⟩
    rw [htype]
    exact List.mem_singleton_self _

theorem normal_of_notImm {y : Arg} (h : ∀ v, y ≠ .imm v) (x : Arg) (o : Operation) :
    (⟨o, [x, y]⟩ : Instruction).normal = ⟨o, [x, y]⟩ := by
  unfold Instruction.normal
  split
  · next heq =>
      cases heq
      exact absurd rfl (h _)
  · rfl

theorem argOf_notImm {w : Nat} {op : Operand} {a : Arg} (hop : RmOperand op)
    (h : argOf w op = some a) (v : Nat) : a ≠ .imm v := by
  rintro rfl
  cases hop with
  | reg r size =>
      rw [argOf] at h
      split at h
      · split at h
        · split at h <;> cases h
        · cases h
      · cases h
  | mem m base hbase =>
      rw [argOf, hbase.base_eq] at h
      cases h

theorem moveDenoted_plain (hops : inst.operands = [dst, src]) (hsrc : RmOperand src)
    (hread : instructionOf bs = some ⟨.mov, [x, y]⟩) (hy : ∀ v, y ≠ .imm v) :
    MoveDenoted inst bs ↔ inst.type = .mov ∧
      argOf (widthBits (operationSize dst src)) dst = some x ∧
      argOf (widthBits (operationSize dst src)) src = some y := by
  rw [moveDenoted_iff hops hread]
  constructor
  · rintro ⟨htype, a, b, ha, hb, heq⟩
    rw [normal_of_notImm hy, normal_of_notImm (argOf_notImm hsrc hb)] at heq
    cases heq
    exact ⟨htype, ha, hb⟩
  · rintro ⟨htype, ha, hb⟩
    exact ⟨htype, x, y, ha, hb, rfl⟩

end Denoted

section Forms

variable {inst : ParsedInstruction} {op : Operand} {r : Reg} {size : RegSize} {S : RegSize}
  (hop : RmOperand op)

include hop

theorem moveDenoted_store (hops : inst.operands = [op, .reg r size])
    (hS : operationSize op (.reg r size) = S) :
    MoveDenoted inst ((rexByte (S == .size64) (some (.reg r size)) (some op) none).toList ++
      0x89 :: modrmBytes r.low op) ↔ inst.type = .mov ∧ WidePair op (.reg r size) := by
  have hread := @instructionOf_rmReg 0x89 .mov (S == .size64) r size op (by decide) hop
    fun _ => rfl
  rw [moveDenoted_plain hops (.reg r size) hread, hS, wide_matches hop, WidePair, hS]
  intro v
  rw [regArg_wide (by rcases widthOf_wide (S == .size64) with h | h <;> omega)]
  exact fun h => nomatch h

theorem moveDenoted_load (hops : inst.operands = [.reg r size, op])
    (hS : operationSize (.reg r size) op = S) :
    MoveDenoted inst ((rexByte (S == .size64) (some (.reg r size)) (some op) none).toList ++
      0x8B :: modrmBytes r.low op) ↔ inst.type = .mov ∧ WidePair (.reg r size) op := by
  have hread := @instructionOf_regRm 0x8B .mov (S == .size64) r size op (by decide) hop
    fun _ => rfl
  rw [moveDenoted_plain hops hop hread, hS, and_comm (a := argOf _ (.reg r size) = _),
    wide_matches hop, WidePair, hS, and_comm (a := OfWidth _ (.reg r size))]
  intro v
  cases hop with
  | reg r' size' =>
      rw [rmField, rmArg, regArg_wide (by rcases widthOf_wide (S == .size64) with h | h <;> omega)]
      intro h
      cases h
  | mem m base hbase =>
      intro h
      cases h

end Forms

theorem opcodeImm_entry (r : Reg) (digit : Nat) :
    (isOpcode (0xB8#8 + r.low) = true ∧ 0xB8#8 + r.low ≠ 0x0F ∧ 0xB8#8 + r.low ≠ 0x90) ∧
    (isOpcode (0xB0#8 + r.low) = true ∧ 0xB0#8 + r.low ≠ 0x0F ∧ 0xB0#8 + r.low ≠ 0x90) ∧
    oneByteEntry (0xB8#8 + r.low) digit = some ⟨.mov, false, .opcodeImm⟩ ∧
    oneByteEntry (0xB0#8 + r.low) digit = some ⟨.mov, true, .opcodeImm⟩ ∧
    (0xB8#8 + r.low) &&& 7 = r.low ∧ (0xB0#8 + r.low) &&& 7 = r.low := by
  rcases low_cases r with h | h | h | h | h | h | h | h <;> rw [h] <;>
    exact ⟨by decide, by decide, rfl, rfl, by decide, by decide⟩

theorem instructionOf_movWide {k : Nat} {legacy : List Byte} {rex : Option Byte} (r : Reg) (n : Nat)
    (v : BitVec k) (hlegacy : legacy = [] ∨ legacy = [0x66]) (hrex : ∀ p ∈ rex, isRex p = true)
    (hn : operandWidth legacy rex false / 8 = n) :
    instructionOf (legacy ++ (rex.toList ++ (0xB8#8 + r.low) :: leBytes n v)) =
      some ⟨.mov, [regArg rex (operandWidth legacy rex false) (rexBit rex 0 + r.low.toNat),
        .imm ((v.setWidth (8 * n)).signExtend (operandWidth legacy rex false)).toNat]⟩ := by
  obtain ⟨hopcode, -, hentry, -, hlow, -⟩ := opcodeImm_entry r (digitOf (leBytes n v))
  refine instructionOf_of_args hlegacy hrex hopcode hentry ?_
  rw [readArgs]
  simp only [hn, readImm_leBytes, hlow]
  rfl

theorem instructionOf_movByte {rex : Option Byte} (r : Reg) (b : Byte)
    (hrex : ∀ p ∈ rex, isRex p = true) :
    instructionOf (rex.toList ++ (0xB0#8 + r.low) :: [b]) =
      some ⟨.mov, [regArg rex 8 (rexBit rex 0 + r.low.toNat), .imm b.toNat]⟩ := by
  obtain ⟨-, hopcode, -, hentry, -, hlow⟩ := opcodeImm_entry r (digitOf [b])
  refine @instructionOf_of_args [] [b] rex _ _ _ (.inl rfl) hrex hopcode hentry ?_
  have himm := readImm_leBytes 1 8 b
  rw [leBytes_one] at himm
  have hwidth : operandWidth [] rex true = 8 := rfl
  have hone : 8 / 8 = 1 := rfl
  rw [readArgs]
  simp only [hwidth, hone, himm, hlow, BitVec.setWidth_eq, BitVec.signExtend_eq]
  rfl

section Immediate

variable {inst : ParsedInstruction} {bs : List Byte} {r : Reg} {size : RegSize} {v : Word}
  {x y : Arg} (hops : inst.operands = [.reg r size, .imm v])
  (hread : instructionOf bs = some ⟨.mov, [x, y]⟩)

include hops hread

theorem moveDenoted_imm : MoveDenoted inst bs ↔ inst.type = .mov ∧
    FitsWidth (widthBits size) v ∧ ∃ a, argOf (widthBits size) (.reg r size) = some a ∧
      (⟨.mov, [x, y]⟩ : Instruction).normal =
        (⟨.mov, [a, .imm (v.toNat % 2 ^ widthBits size)]⟩ : Instruction).normal := by
  rw [moveDenoted_iff hops hread]
  have hS : operationSize (.reg r size) (.imm v) = size := rfl
  rw [hS]
  constructor
  · rintro ⟨htype, a, b, ha, hb, heq⟩
    have himm : ∃ n, b = .imm n := by
      rw [argOf] at hb
      split at hb
      · cases hb
        exact ⟨_, rfl⟩
      · cases hb
    obtain ⟨n, rfl⟩ := himm
    obtain ⟨hfits, rfl⟩ := imm_matches.mp hb
    exact ⟨htype, hfits, a, ha, heq⟩
  · rintro ⟨htype, hfits, a, ha, heq⟩
    exact ⟨htype, a, _, ha, imm_matches.mpr ⟨hfits, rfl⟩, heq⟩

theorem moveDenoted_immWide (hsize : size = .size16 ∨ size = .size32 ∨ size = .size64) :
    MoveDenoted inst bs ↔ inst.type = .mov ∧ FitsWidth (widthBits size) v ∧ r.val < 16 ∧
      (⟨.mov, [x, y]⟩ : Instruction).normal = (⟨.mov, [.reg (widthBits size) r.val,
        .imm (v.toNat % 2 ^ widthBits size)]⟩ : Instruction).normal := by
  have hne : widthBits size ≠ 8 := by
    rcases hsize with rfl | rfl | rfl <;> decide
  have hhigh : size ≠ .size8h := by
    rcases hsize with rfl | rfl | rfl <;> decide
  rw [moveDenoted_imm hops hread]
  refine and_congr_right fun _ => and_congr_right fun _ => ?_
  constructor
  · rintro ⟨a, ha, heq⟩
    rw [argOf] at ha
    split at ha
    · next hr =>
        cases ha
        exact ⟨hr.1, heq⟩
    · cases ha
  · rintro ⟨hr, heq⟩
    refine ⟨.reg (widthBits size) r.val, ?_, heq⟩
    rw [argOf, if_pos ⟨hr, rfl⟩, if_neg hhigh]

end Immediate

theorem normal_of_ne {x : Arg} (h : ∀ n, x ≠ .reg 32 n) (o : Operation) (y : Arg) :
    (⟨o, [x, y]⟩ : Instruction).normal = ⟨o, [x, y]⟩ := by
  unfold Instruction.normal
  split
  · next heq =>
      cases heq
      exact absurd rfl (h _)
  · rfl

theorem regArg_byte_ne (rex : Option Byte) (number n : Nat) : regArg rex 8 number ≠ .reg 32 n := by
  rw [regArg]
  split <;> exact fun h => nomatch h

/-- The byte registers whose number goes into the opcode with the REX prefix of the `reg` field. -/
theorem byteArg_iff {r : Reg} (h : r.val < 16) :
    regArg (rexByte false (some (.reg r .size8)) none none) 8 (r.val % 8) = .reg 8 r.val ↔
      r.val < 4 := by
  revert r
  decide

theorem highArg {r : Reg} (h : 4 ≤ r.val ∧ r.val < 8) : regArg none 8 (r.val % 8) = .high (r.val - 4) := by
  revert r
  decide

theorem normal_of_width {w : Nat} (h : w ≠ 32) (o : Operation) (n : Nat) (y : Arg) :
    (⟨o, [.reg w n, y]⟩ : Instruction).normal = ⟨o, [.reg w n, y]⟩ := by
  unfold Instruction.normal
  split
  · next heq =>
      cases heq
      exact absurd rfl h
  · rfl

theorem fitsUInt32_iff {v : Word} : Encoder.fitsUInt32 v = true ↔ v.toNat < 2 ^ 32 := by
  have hint := BitVec.toInt_eq_toNat_cond v
  have hiff : Encoder.fitsUInt32 v = true ↔ 0 ≤ v.toInt ∧ v.toInt ≤ 4294967295 := by
    simp [Encoder.fitsUInt32]
  rw [hiff, hint]
  split <;> omega

section Branches

variable {inst : ParsedInstruction} {r : Reg} {v : Word}

theorem moveDenoted_unsigned (hops : inst.operands = [.reg r .size64, .imm v])
    (hv : Encoder.fitsUInt32 v = true) :
    MoveDenoted inst ((if r.isExtended then [makeRex false false false true] else []) ++
      (0xB8#8 + r.low) :: leBytes 4 (v.setWidth 32)) ↔
        inst.type = .mov ∧ MoveImmFits r v .size64 := by
  let rex : Option Byte := if r.isExtended then some (makeRex false false false true) else none
  have hrex : ∀ p ∈ rex, isRex p = true := by
    intro p hp
    by_cases hext : r.isExtended = true
    · have hp' : p = makeRex false false false true := by
        simpa [rex, hext, eq_comm] using hp
      rw [hp']
      decide
    · simp [rex, hext] at hp
  have hfacts : rex.toList = (if r.isExtended then [makeRex false false false true] else []) ∧
      rexBit rex 0 = (if r.isExtended then 8 else 0) ∧ operandWidth [] rex false = 32 := by
    by_cases hext : r.isExtended = true
    · simp only [rex, hext]
      decide
    · simp only [rex, hext]
      decide
  obtain ⟨hlist, hbit, hwidth⟩ := hfacts
  have hread := @instructionOf_movWide 32 [] rex r 4 (v.setWidth 32) (.inl rfl) hrex
    (by rw [hwidth])
  rw [List.nil_append, hlist, hwidth, hbit, low_toNat, regArg_wide (by decide)] at hread
  have hnat := fitsUInt32_iff.mp hv
  have himm : (((v.setWidth 32).setWidth (8 * 4)).signExtend 32).toNat =
      v.toNat % 2 ^ widthBits .size64 := by
    have hsame := immediate_same 32 v
    rw [BitVec.setWidth_eq, hsame, Nat.mod_eq_of_lt hnat, widthBits]
    omega
  rw [moveDenoted_immWide hops hread (.inr (.inr rfl)), himm]
  refine and_congr_right fun _ => ?_
  constructor
  · rintro ⟨-, hlt, -⟩
    exact ⟨hlt, .inr (.inl hv)⟩
  · rintro ⟨hlt, -⟩
    refine ⟨fitsWidth_word v, hlt, ?_⟩
    rw [extended_add_low hlt]
    rfl

theorem moveDenoted_full (hops : inst.operands = [.reg r .size64, .imm v])
    (hunsigned : Encoder.fitsUInt32 v = false) (hsigned : Encoder.fitsInt32 v = false) :
    MoveDenoted inst ((rexByte true (some (.reg r .size64)) none none).toList ++
      (0xB8#8 + r.low) :: leBytes 8 v) ↔ inst.type = .mov ∧ MoveImmFits r v .size64 := by
  have hbit : rexBit (rexByte true (some (.reg r .size64)) none none) 0 = 0 := rexBit_rm _ _ _
  have hwidth : operandWidth [] (rexByte true (some (.reg r .size64)) none none) false = 64 :=
    operandWidth_plain true _ _
  have hread := @instructionOf_movWide 64 [] _ r 8 v (.inl rfl) rexByte_isRex
    (by rw [hwidth])
  rw [List.nil_append, hwidth, hbit, low_toNat, regArg_wide (by decide), BitVec.setWidth_eq,
    BitVec.signExtend_eq] at hread
  rw [moveDenoted_immWide hops hread (.inr (.inr rfl)), normal_of_width (by decide),
    normal_of_width (by decide)]
  have hmod : v.toNat % 2 ^ widthBits .size64 = v.toNat := Nat.mod_eq_of_lt v.isLt
  rw [hmod]
  refine and_congr_right fun _ => ?_
  constructor
  · rintro ⟨-, hlt, heq⟩
    injection heq with _ hargs
    injection hargs with hreg
    injection hreg with _ hnumber
    exact ⟨hlt, .inl (by omega)⟩
  · rintro ⟨hlt, hfits⟩
    have hlow : r.val < 8 := by
      rcases hfits with h | h | h
      · exact h
      · rw [hunsigned] at h
        cases h
      · rw [hsigned] at h
        cases h
    refine ⟨fitsWidth_word v, hlt, ?_⟩
    rw [Nat.zero_add, Nat.mod_eq_of_lt hlow]
    rfl

theorem moveDenoted_signed (hops : inst.operands = [.reg r .size64, .imm v])
    (hv : Encoder.fitsInt32 v = true) :
    MoveDenoted inst ((rexByte true none (some (.reg r .size64)) none).toList ++
      0xC7 :: (modrmBytes 0 (.reg r .size64) ++ leBytes 4 (v.setWidth 32))) ↔
        inst.type = .mov ∧ MoveImmFits r v .size64 := by
  have hread := @instructionOf_rmImm 0xC7 0 .mov true (.reg r .size64) (by decide) (.reg r .size64) 32
    (v.setWidth 32) rfl
  have himm : (((v.setWidth 32).setWidth 32).signExtend (widthOf true)).toNat = v.toNat := by
    rw [BitVec.setWidth_eq]
    have hmod : v.toNat % 2 ^ 64 = v.toNat := Nat.mod_eq_of_lt v.isLt
    exact ((immediate_dword v).mpr hv).trans hmod
  have hmod : v.toNat % 2 ^ widthBits .size64 = v.toNat := Nat.mod_eq_of_lt v.isLt
  rw [himm, rmField, rmArg, regArg_wide (by decide)] at hread
  rw [moveDenoted_immWide hops hread (.inr (.inr rfl)), normal_of_width (by decide),
    normal_of_width (by decide), hmod]
  refine and_congr_right fun _ => ?_
  constructor
  · rintro ⟨-, hlt, -⟩
    exact ⟨hlt, .inr (.inr hv)⟩
  · rintro ⟨hlt, -⟩
    refine ⟨fitsWidth_word v, hlt, ?_⟩
    have hfield := rmField_reg .size64 hlt true none
    rw [rmField] at hfield
    injection hfield with hnumber
    rw [hnumber]
    rfl

theorem moveDenoted_narrow {size : RegSize} {legacy : List Byte} {rex : Option Byte} {n : Nat}
    (hops : inst.operands = [.reg r size, .imm v])
    (hform : size = .size32 ∧ legacy = [] ∧ n = 4 ∨ size = .size16 ∧ legacy = [0x66] ∧ n = 2)
    (hrex : ∀ p ∈ rex, isRex p = true) (hbit : rexBit rex 0 = 0) (hw : rexBit rex 3 = 0) :
    MoveDenoted inst (legacy ++ (rex.toList ++ (0xB8#8 + r.low) ::
      leBytes n (v.setWidth (widthBits size)))) ↔ inst.type = .mov ∧ MoveImmFits r v size := by
  have hlegacy : legacy = [] ∨ legacy = [0x66] := by
    rcases hform with ⟨-, h, -⟩ | ⟨-, h, -⟩
    · exact .inl h
    · exact .inr h
  have hwidth : operandWidth legacy rex false = widthBits size := by
    rw [operandWidth, hw]
    rcases hform with ⟨rfl, rfl, -⟩ | ⟨rfl, rfl, -⟩ <;> decide
  have hn : widthBits size / 8 = n ∧ 8 * n = widthBits size := by
    rcases hform with ⟨rfl, -, rfl⟩ | ⟨rfl, -, rfl⟩ <;> decide
  have hsize : size = .size16 ∨ size = .size32 ∨ size = .size64 := by
    rcases hform with ⟨h, -, -⟩ | ⟨h, -, -⟩
    · exact .inr (.inl h)
    · exact .inl h
  have hne : widthBits size ≠ 8 := by
    rcases hsize with rfl | rfl | rfl <;> decide
  have hread := @instructionOf_movWide _ legacy rex r n (v.setWidth (widthBits size)) hlegacy hrex
    (by rw [hwidth, hn.1])
  rw [hwidth, hbit, low_toNat, regArg_wide hne, hn.2, BitVec.setWidth_eq, immediate_same,
    Nat.zero_add] at hread
  have hnormal : (⟨.mov, [.reg (widthBits size) (r.val % 8),
        .imm (v.toNat % 2 ^ widthBits size)]⟩ : Instruction).normal =
      (⟨.mov, [.reg (widthBits size) r.val,
        .imm (v.toNat % 2 ^ widthBits size)]⟩ : Instruction).normal ↔ r.val % 8 = r.val := by
    rcases hform with ⟨rfl, -, -⟩ | ⟨rfl, -, -⟩ <;> simp [Instruction.normal, widthBits]
  rw [moveDenoted_immWide hops hread hsize, hnormal]
  refine and_congr_right fun _ => ?_
  have hfits : MoveImmFits r v size ↔ r.val < 8 ∧ FitsWidth (widthBits size) v := by
    rcases hform with ⟨rfl, -, -⟩ | ⟨rfl, -, -⟩ <;> exact Iff.rfl
  rw [hfits]
  constructor
  · rintro ⟨hv, hlt, heq⟩
    exact ⟨by omega, hv⟩
  · rintro ⟨hlt, hv⟩
    exact ⟨hv, by omega, by omega⟩

/-- The form of one byte: without a REX prefix the registers from four on are the high ones, and the
prefix extends the wrong field. -/
theorem moveDenoted_byte {size : RegSize} {rex : Option Byte}
    (hops : inst.operands = [.reg r size, .imm v])
    (hsize : size = .size8 ∨ size = .size8h ∨ size = .xmm)
    (hrex : rex = if size = .size8h then none else rexByte false (some (.reg r size)) none none) :
    MoveDenoted inst (rex.toList ++ (0xB0#8 + r.low) :: [v.setWidth 8]) ↔
      inst.type = .mov ∧ MoveImmFits r v size := by
  have hisRex : ∀ p ∈ rex, isRex p = true := by
    rw [hrex]
    split
    · exact fun p hp => nomatch hp
    · exact rexByte_isRex
  have hbit : rexBit rex 0 = 0 := by
    rw [hrex]
    split
    · rfl
    · exact rexBit_rm _ _ _
  have hread := instructionOf_movByte r (v.setWidth 8) hisRex
  rw [hbit, low_toNat, Nat.zero_add, BitVec.toNat_setWidth] at hread
  rw [moveDenoted_imm hops hread]
  refine and_congr_right fun _ => ?_
  rw [normal_of_ne (regArg_byte_ne rex _)]
  rcases hsize with rfl | rfl | rfl
  · rw [if_neg (by decide)] at hrex
    rw [hrex]
    constructor
    · rintro ⟨hfits, a, ha, heq⟩
      rw [argOf] at ha
      split at ha
      · next hr =>
          cases ha
          rw [normal_of_width (by decide)] at heq
          injection heq with _ hargs
          injection hargs with hreg
          exact ⟨(byteArg_iff hr.1).mp hreg, hfits⟩
      · cases ha
    · rintro ⟨hlt, hfits⟩
      have hr : r.val < 16 := by omega
      refine ⟨hfits, .reg 8 r.val, if_pos ⟨hr, rfl⟩, ?_⟩
      rw [(byteArg_iff hr).mpr hlt]
      rfl
  · rw [if_pos rfl] at hrex
    rw [hrex]
    constructor
    · rintro ⟨hfits, a, ha, -⟩
      rw [argOf] at ha
      split at ha
      · rw [if_pos rfl] at ha
        split at ha
        · next hr => exact ⟨hr.1, hr.2, hfits⟩
        · cases ha
      · cases ha
    · rintro ⟨hlo, hhi, hfits⟩
      have hr : r.val < 16 := by omega
      have harg : argOf 8 (.reg r .size8h) = some (.high (r.val - 4)) := by
        rw [argOf, if_pos ⟨hr, rfl⟩, if_pos rfl, if_pos ⟨hlo, hhi⟩]
      refine ⟨hfits, _, harg, ?_⟩
      rw [highArg ⟨hlo, hhi⟩]
      rfl
  · constructor
    · rintro ⟨-, a, ha, heq⟩
      rw [argOf] at ha
      split at ha
      · cases ha
        rw [normal_of_width (by decide)] at heq
        injection heq with _ hargs
        injection hargs with hreg
        rw [regArg] at hreg
        split at hreg <;> cases hreg
      · cases ha
    · exact fun h => absurd h id

theorem moveDenoted_memImm {m : MemOperand} {base : Reg} (hbase : BaseOnly m base)
    (hops : inst.operands = [.mem m, .imm v]) :
    MoveDenoted inst ((rexByte true none (some (.mem m)) none).toList ++
      0xC7 :: (modrmBytes 0 (.mem m) ++ leBytes 4 (v.setWidth 32))) ↔
        inst.type = .mov ∧ Encoder.fitsInt32 v = true := by
  have hread := @instructionOf_rmImm 0xC7 0 .mov true (.mem m) (by decide) (.mem m base hbase) 32
    (v.setWidth 32) rfl
  rw [rmField_mem hbase, rmArg, BitVec.setWidth_eq] at hread
  rw [moveDenoted_iff hops hread]
  have hS : operationSize (.mem m) (.imm v) = .size64 := rfl
  have hmem : argOf (widthBits .size64) (.mem m) =
      some (.mem 64 { base := some base.val, displacement := m.offset }) := by
    rw [argOf, hbase.base_eq]
    rfl
  rw [hS, hmem]
  refine and_congr_right fun _ => ?_
  constructor
  · rintro ⟨a, b, ha, hb, heq⟩
    cases ha
    have hb' : argOf 64 (.imm v) = some b := hb
    rw [argOf, if_pos (fitsWidth_word v)] at hb'
    cases hb'
    injection heq with _ hargs
    injection hargs with _ htail
    injection htail with himm
    injection himm with hvalue
    exact (immediate_dword v).mp hvalue
  · intro hv
    refine ⟨_, .imm (v.toNat % 2 ^ 64), rfl, if_pos (fitsWidth_word v), ?_⟩
    have hvalue := (immediate_dword v).mpr hv
    show (⟨.mov, [_, .imm ((v.setWidth 32).signExtend 64).toNat]⟩ : Instruction).normal = _
    rw [hvalue]
    rfl

end Branches

theorem rexByte_of_extended {r : Reg} {size : RegSize} (hsize : size = .size32 ∨ size = .size16) :
    (if needsRex (.reg r size) then (rexByte false (some (.reg r size)) none none).toList else []) =
      (rexByte false (some (.reg r size)) none none).toList := by
  have hneeds : needsRex (.reg r size) = r.isExtended := by
    rw [needsRex]
    rcases hsize with rfl | rfl <;> exact Bool.or_false _
  rw [hneeds]
  cases hext : r.isExtended with
  | true => rfl
  | false =>
      rw [rexByte, extendedReg.eq_def none]
      simp [extendedReg, extendedIndex, extendedBase, hext]

theorem yields_encodeMovRegImm {inst : ParsedInstruction} {r : Reg} {size : RegSize} {v : Word}
    (hops : inst.operands = [.reg r size, .imm v]) :
    (encodeMovRegImm r size v).Yields fun bs =>
      MoveDenoted inst bs ↔ inst.type = .mov ∧ MoveImmFits r v size := by
  unfold encodeMovRegImm
  cases size with
  | size64 =>
      dsimp only
      split
      · next hform => exact yields_of_writes (moveDenoted_unsigned hops hform)
      · next hunsigned =>
          have hunsigned' : Encoder.fitsUInt32 v = false := Bool.not_eq_true _ ▸ hunsigned
          split
          · next hsigned =>
              have hsigned' : Encoder.fitsInt32 v = false := by simpa using hsigned
              exact yields_of_writes (moveDenoted_full hops hunsigned' hsigned')
          · next hsigned =>
              have hsigned' : Encoder.fitsInt32 v = true := by simpa using hsigned
              exact yields_of_writes (moveDenoted_signed hops hsigned')
  | size32 =>
      refine yields_of_writes ?_
      rw [rexByte_of_extended (.inl rfl)]
      exact moveDenoted_narrow hops (.inl ⟨rfl, rfl, rfl⟩) rexByte_isRex (rexBit_rm _ _ _)
        (rexBit_w _ _ _)
  | size16 =>
      refine yields_of_writes ?_
      rw [rexByte_of_extended (.inr rfl)]
      exact moveDenoted_narrow hops (.inr ⟨rfl, rfl, rfl⟩) rexByte_isRex (rexBit_rm _ _ _)
        (rexBit_w _ _ _)
  | size8 => exact yields_of_writes (moveDenoted_byte hops (.inl rfl) rfl)
  | size8h => exact yields_of_writes (moveDenoted_byte hops (.inr (.inl rfl)) rfl)
  | xmm => exact yields_of_writes (moveDenoted_byte hops (.inr (.inr rfl)) rfl)

theorem yields_encodeMovMemImm {inst : ParsedInstruction} {m : MemOperand} {base : Reg} {v : Word}
    (hbase : BaseOnly m base) (hops : inst.operands = [.mem m, .imm v]) :
    (encodeMovMemImm m .size64 v).Yields fun bs =>
      MoveDenoted inst bs ↔ inst.type = .mov ∧ Encoder.fitsInt32 v = true := by
  unfold encodeMovMemImm
  refine yields_of_writes ?_
  exact moveDenoted_memImm hbase hops

theorem yields_encodeMov {inst : ParsedInstruction} (hplain : ∀ op ∈ inst.operands, PlainOperand op) :
    (encodeMov inst).Yields fun bs => MoveDenoted inst bs ↔ MoveFits inst := by
  rw [encodeMov]
  split
  · next dst src hops =>
      by_cases hconflict : Encoder.checkRexConflict dst src = true
      · rw [if_pos hconflict]
        exact yields_diag
      · rw [if_neg hconflict, MoveFits, hops]
        rw [hops] at hplain
        have hdst := hplain dst List.mem_cons_self
        have hsrc := hplain src (List.mem_cons_of_mem _ List.mem_cons_self)
        cases hdst with
        | reg r size =>
            cases hsrc with
            | reg r' size' => exact yields_of_writes (moveDenoted_store (.reg r size) hops rfl)
            | imm v => exact yields_encodeMovRegImm hops
            | mem m base hbase => exact yields_of_writes (moveDenoted_load (.mem m base hbase) hops rfl)
        | imm v => cases hsrc <;> exact yields_diag
        | mem m base hbase =>
            cases hsrc with
            | reg r size => exact yields_of_writes (moveDenoted_store (.mem m base hbase) hops rfl)
            | imm v =>
                show (encodeMovMemImm m .size64 v).Yields _
                exact yields_encodeMovMemImm hbase hops
            | mem m' base' hbase' => exact yields_diag
  · exact yields_diag

/-- The bytes of an accepted move have the effect of the written one exactly when it is one of
`MoveFits`. -/
theorem encodeMov_denoted {inst : ParsedInstruction} {env : EncodeEnv} {es : List Emission}
    (hplain : ∀ op ∈ inst.operands, PlainOperand op) (h : encodeMov inst env = (es, .ok ())) :
    MoveDenoted inst (bytesOf es) ↔ MoveFits inst :=
  yields_encodeMov hplain env es h

def movR9Rbx : ParsedInstruction :=
  { type := .mov, operands := [.reg 9 .size64, .reg 3 .size64] }

theorem encodeMov_denoted_movR9Rbx :
    MoveDenoted movR9Rbx (bytesOf [.byte 0x49#8, .byte 0x89#8, .byte 0xD9#8]) ↔
      MoveFits movR9Rbx := by
  apply @encodeMov_denoted movR9Rbx ⟨0, true, fun _ => none⟩
    [.byte 0x49#8, .byte 0x89#8, .byte 0xD9#8]
  · intro op hop
    rcases List.mem_cons.mp hop with rfl | hop
    · exact .reg _ _
    · cases List.mem_singleton.mp hop
      exact .reg _ _
  · rfl

def movAxBx : ParsedInstruction :=
  { type := .mov, operands := [.reg 0 .size16, .reg 3 .size16] }

/-- `mov ax, bx` moves 32 bits. -/
theorem encodeMov_movAxBx :
    ∃ es, encodeMov movAxBx ⟨0, true, fun _ => none⟩ = (es, .ok ()) ∧
      ¬ MoveDenoted movAxBx (bytesOf es) := by
  refine ⟨[.byte 0x89#8, .byte 0xD8#8], rfl, ?_⟩
  have hread : instructionOf (bytesOf [.byte 0x89#8, .byte 0xD8#8]) =
      some ⟨.mov, [.reg 32 0, .reg 32 3]⟩ := by decide
  rw [moveDenoted_plain rfl (.reg 3 .size16) hread (by rintro v ⟨⟩)]
  rintro ⟨-, hdst, -⟩
  cases hdst

end X86Assembler
