import X86Assembler.EncoderShapes
import X86Assembler.FurtherEncoding

namespace X86Assembler

open CString (Byte)
open Encoder (encodePushPop encodeLea encodeSetcc encodeCmov encodeBswap encodeBitManip
  encodeShldShrd encodeBitScan encodeJmp encodeCallRet encodeInt encodeEnter encodeIndirect
  setccCode cmovCode bitManipCodes machineEncoder operationSize fitsInt32 rexByte
  modrmBytes Writes AroundModrm)
open LittleEndian (leBytes)
open MachineCode

theorem accepted_of_ok {digit : Byte} {op : Operand} {env : EncodeEnv} {es : List Emission}
    (h : Encoder.emitModrmSib digit op env = (es, .ok ())) : Accepted op := by
  cases op with
  | reg r size => exact .reg r size
  | mem m => exact .mem m (addressable_of_ok h)
  | none | imm _ | label _ | labelDiff _ _ | string _ => cases h

theorem yields_around {P : List Byte → Prop} {m : Encoder Unit} {bs : List Byte} (digit : Byte)
    (op : Operand) (n : Nat) [hm : Writes m bs] [ha : AroundModrm digit op n m]
    (h : Accepted op → P bs) : m.Yields P := by
  intro env es hrun
  obtain ⟨_, _, _, _, -, -, hms⟩ := ha.split env es () hrun
  rw [hm.bytes _ _ _ hrun]
  exact h (accepted_of_ok hms)

section Bytes

variable {legacy tail : List Byte} {rex : Option Byte} {opcode digit : Byte} {entry : FurtherEntry}
  {op : Operand} (hlegacy : legacy = [] ∨ legacy = [0x66]) (hrex : ∀ p ∈ rex, isRex p = true)
  (hop : Accepted op)

include hlegacy hrex hop

theorem furtherInstructionOf_rm (hopcode : isOpcode opcode = true) (hne : opcode ≠ 0x0F)
    (hentry : furtherOneByte opcode (digit &&& 7#8).toNat = some entry) :
    furtherInstructionOf (legacy ++ (rex.toList ++ opcode :: (modrmBytes digit op ++ tail))) =
      readFurtherEntry legacy rex opcode (modrmBytes digit op ++ tail) entry := by
  apply furtherInstructionOf_oneByte hlegacy hrex hopcode hne
  rw [digitOf_accepted hop]
  exact hentry

theorem furtherInstructionOf_rmTwo
    (hentry : furtherTwoByte opcode (digit &&& 7#8).toNat = some entry) :
    furtherInstructionOf (legacy ++ (rex.toList ++ 0x0F :: opcode :: (modrmBytes digit op ++ tail))) =
      readFurtherEntry legacy rex opcode (modrmBytes digit op ++ tail) entry := by
  apply furtherInstructionOf_twoByte hlegacy hrex
  rw [digitOf_accepted hop]
  exact hentry

end Bytes

def prefixWidth (wide : Bool) (legacy : List Byte) : Nat :=
  if wide then 64 else if 0x66 ∈ legacy then 16 else 32

theorem prefixWidth_ne (wide : Bool) (legacy : List Byte) : prefixWidth wide legacy ≠ 8 := by
  rw [prefixWidth]
  split
  · decide
  · split <;> decide

theorem width_plain (wide : Bool) (regOp rmOp : Option Operand) (legacy : List Byte) :
    WidthRule.plain.width legacy (rexByte wide regOp rmOp none) = prefixWidth wide legacy :=
  operandWidth_rexByte wide regOp rmOp legacy

section Shapes

variable {inst : ParsedInstruction} {o : FurtherOperation} {legacy bs : List Byte} {opcode digit : Byte}
  {rule : WidthRule} {op src : Operand} {r : Reg} {size : RegSize} {w w' u : Nat} {wide : Bool}
  (ho : furtherOperation inst.type = some o) (himplied : impliedArgs inst.type = [])

include ho himplied

theorem furtherDenoted_one {rex : Option Byte} (hop : Accepted op) (hrex : RexFor rex op)
    (hops : inst.operands = [op]) (hwidths : furtherWidths inst = [w])
    (hbytes : furtherInstructionOf bs =
      readFurtherEntry legacy rex opcode (modrmBytes digit op ++ []) ⟨o, rule, .shown .rm⟩)
    (hwide : rule = .wide → legacy = []) (hu : rule.width legacy rex = u)
    (hbyte : u ≠ 8 ∨ ∃ m, op = .mem m) : FurtherDenoted inst bs ↔ w = u ∧ RmFits u op := by
  refine furtherDenoted_rm (fun m => [rmArg rex (rule.width legacy rex) m.rm])
    (fun bs => some ([], bs)) [] hop hrex hbytes hwide rfl rfl (by decide) ?_
    fun hno h => hno u h.2
  intro field hfield
  rw [furtherMeaning_iff ho himplied, hops, hwidths, List.append_nil, argsAt_one]
  show argIn w op = some (rmArg rex (rule.width legacy rex) field) ↔ _
  rw [hu]
  exact hfield w u hbyte

theorem furtherDenoted_regRm (hop : Accepted op) (hops : inst.operands = [.reg r size, op])
    (hwidths : furtherWidths inst = [w, w]) (hdigit : digit &&& 7#8 = r.low &&& 7#8)
    (hbytes : furtherInstructionOf bs =
      readFurtherEntry legacy (rexByte wide (some (.reg r size)) (some op) none) opcode
        (modrmBytes digit op ++ []) ⟨o, .plain, .shown .regRm⟩)
    (hu : prefixWidth wide legacy = u) :
    FurtherDenoted inst bs ↔ w = u ∧ RmFits u (.reg r size) ∧ RmFits u op := by
  have hne : u ≠ 8 := hu ▸ prefixWidth_ne wide legacy
  refine furtherDenoted_rm (fun m => [
      regArg (rexByte wide (some (.reg r size)) (some op) none) (WidthRule.plain.width legacy _)
        (rexBit (rexByte wide (some (.reg r size)) (some op) none) 2 + m.reg),
      rmArg (rexByte wide (some (.reg r size)) (some op) none) (WidthRule.plain.width legacy _) m.rm])
    (fun bs => some ([], bs)) [] hop (rexFor_rexByte _ _ _) hbytes (fun h => nomatch h) rfl rfl
    (by decide) ?_ fun hno h => hno u h.2.2
  intro field hfield
  rw [furtherMeaning_iff ho himplied, hops, hwidths, List.append_nil, width_plain, hu, argsAt_two,
    regField_matches hne hdigit, hfield w u (.inl hne)]
  exact ⟨fun ⟨⟨hw, hreg⟩, _, hrm⟩ => ⟨hw, hreg, hrm⟩, fun ⟨hw, hreg, hrm⟩ => ⟨⟨hw, hreg⟩, hw, hrm⟩⟩

theorem furtherDenoted_rmReg (hop : Accepted op) (hops : inst.operands = [op, .reg r size])
    (hwidths : furtherWidths inst = [w, w]) (hdigit : digit &&& 7#8 = r.low &&& 7#8)
    (hbytes : furtherInstructionOf bs =
      readFurtherEntry legacy (rexByte wide (some (.reg r size)) (some op) none) opcode
        (modrmBytes digit op ++ []) ⟨o, .plain, .shown .rmReg⟩)
    (hu : prefixWidth wide legacy = u) :
    FurtherDenoted inst bs ↔ w = u ∧ RmFits u op ∧ RmFits u (.reg r size) := by
  have hne : u ≠ 8 := hu ▸ prefixWidth_ne wide legacy
  refine furtherDenoted_rm (fun m => [
      rmArg (rexByte wide (some (.reg r size)) (some op) none) (WidthRule.plain.width legacy _) m.rm,
      regArg (rexByte wide (some (.reg r size)) (some op) none) (WidthRule.plain.width legacy _)
        (rexBit (rexByte wide (some (.reg r size)) (some op) none) 2 + m.reg)])
    (fun bs => some ([], bs)) [] hop (rexFor_rexByte _ _ _) hbytes (fun h => nomatch h) rfl rfl
    (by decide) ?_ fun hno h => hno u h.2.1
  intro field hfield
  rw [furtherMeaning_iff ho himplied, hops, hwidths, List.append_nil, width_plain, hu, argsAt_two,
    regField_matches hne hdigit, hfield w u (.inl hne)]
  exact ⟨fun ⟨⟨hw, hrm⟩, _, hreg⟩ => ⟨hw, hrm, hreg⟩, fun ⟨hw, hrm, hreg⟩ => ⟨⟨hw, hrm⟩, hw, hreg⟩⟩

theorem furtherDenoted_opcodeReg {rex : Option Byte} (hrex : RexFor rex (.reg r size))
    (hops : inst.operands = [.reg r size]) (hwidths : furtherWidths inst = [w])
    (hlow : opcode &&& 7#8 = r.low &&& 7#8)
    (hbytes : furtherInstructionOf bs =
      readFurtherEntry legacy rex opcode [] ⟨o, rule, .opcodeReg⟩)
    (hwide : rule = .wide → legacy = []) (hu : rule.width legacy rex = u) (hne : u ≠ 8) :
    FurtherDenoted inst bs ↔ w = u ∧ RmFits u (.reg r size) := by
  have hread : furtherInstructionOf bs = some ⟨o,
      [rmArg rex u (.register (rexBit rex 0 + (r.low &&& 7#8).toNat))]⟩ := by
    rw [hbytes, readFurtherEntry_of hwide rfl]
    dsimp only
    rw [hu, ← hlow]
    rfl
  rw [furtherDenoted_iff hread, furtherMeaning_iff ho himplied, hops, hwidths, argsAt_one]
  exact readAsField_reg hrex w u (.inl hne)

end Shapes

theorem baseRex_toList (r : Reg) (size : RegSize) :
    (if r.isExtended then [makeRex false false false true] else []) =
      (rexByte false none (some (.reg r size)) none).toList := by
  have hrex : rexByte false none (some (.reg r size)) none =
      if r.isExtended then some (makeRex false false false true) else none := by
    rw [rexByte]
    show (if !false && !false && !false && !(r.isExtended || false) then none
      else some (makeRex false false false (r.isExtended || false))) = _
    cases r.isExtended <;> rfl
  rw [hrex]
  cases r.isExtended <;> rfl

section Stack

variable {inst : ParsedInstruction} {o : FurtherOperation} {opcode digit : Byte} {op : Operand}
  (ho : furtherOperation inst.type = some o) (himplied : impliedArgs inst.type = [])
  (hwidths : furtherWidths inst = [64])

include ho himplied hwidths

theorem furtherDenoted_wideReg {r : Reg} {size : RegSize} (hops : inst.operands = [.reg r size])
    (hopcode : isOpcode opcode = true ∧ opcode ≠ 0x0F ∧ opcode &&& 7#8 = r.low &&& 7#8)
    (hentry : furtherOneByte opcode (digitOf []) = some ⟨o, .wide, .opcodeReg⟩) :
    FurtherDenoted inst ((if r.isExtended then [makeRex false false false true] else []) ++ [opcode]) ↔
      RmFits 64 (.reg r size) := by
  have hbytes := @furtherInstructionOf_oneByte [] []
    (rexByte false none (some (.reg r size)) none) opcode _ (.inl rfl) rexByte_isRex hopcode.1
    hopcode.2.1 hentry
  rw [baseRex_toList r size]
  refine (furtherDenoted_opcodeReg ho himplied (rexFor_rexByte _ _ _) hops hwidths hopcode.2.2 hbytes
    (fun _ => rfl) rfl (show (64 : Nat) ≠ 8 by decide)).trans (and_iff_right rfl)

theorem yields_wideRm (hops : inst.operands = [op])
    (hopcode : isOpcode opcode = true ∧ opcode ≠ 0x0F)
    (hentry : furtherOneByte opcode (digit &&& 7#8).toNat = some ⟨o, .wide, .shown .rm⟩)
    {m : Encoder Unit}
    [Writes m ((rexByte true none (some op) none).toList ++ ([opcode] ++ modrmBytes digit op))]
    [AroundModrm digit op 0 m] : m.Yields fun bs => FurtherDenoted inst bs ↔ RmFits 64 op := by
  refine yields_around digit op 0 ?_
  intro hop
  have hbytes := @furtherInstructionOf_rm [] [] (rexByte true none (some op) none) opcode digit _ op
    (.inl rfl) rexByte_isRex hop hopcode.1 hopcode.2 hentry
  rw [← List.append_nil (modrmBytes digit op)]
  exact (furtherDenoted_one ho himplied hop (rexFor_rexByte _ _ _) hops hwidths hbytes (fun _ => rfl)
    rfl (.inl (show (64 : Nat) ≠ 8 by decide))).trans (and_iff_right rfl)

theorem yields_encodeIndirect (hops : inst.operands = [op])
    (hentry : furtherOneByte 0xFF (digit &&& 7#8).toNat = some ⟨o, .wide, .shown .rm⟩) :
    (encodeIndirect digit op).Yields fun bs => FurtherDenoted inst bs ↔ RmFits 64 op := by
  unfold encodeIndirect
  exact yields_wideRm ho himplied hwidths hops ⟨by decide, by decide⟩ hentry

end Stack

theorem stack_opcodes (r : Reg) :
    (isOpcode (0x50#8 + r.low) = true ∧ 0x50#8 + r.low ≠ 0x0F ∧
        (0x50#8 + r.low) &&& 7#8 = r.low &&& 7#8) ∧
      (isOpcode (0x58#8 + r.low) = true ∧ 0x58#8 + r.low ≠ 0x0F ∧
        (0x58#8 + r.low) &&& 7#8 = r.low &&& 7#8) := by
  revert r
  decide

theorem stack_entries (r : Reg) (digit : Nat) :
    furtherOneByte (0x50#8 + r.low) digit = some ⟨.push, .wide, .opcodeReg⟩ ∧
      furtherOneByte (0x58#8 + r.low) digit = some ⟨.pop, .wide, .opcodeReg⟩ := by
  rcases low_cases r with h | h | h | h | h | h | h | h <;> rw [h] <;> exact ⟨rfl, rfl⟩

theorem furtherDenoted_pushImm {inst : ParsedInstruction} {v : Word} (htype : inst.type = .push)
    (hops : inst.operands = [.imm v]) {bs : List Byte}
    (hread : furtherInstructionOf bs = some ⟨.push, [.imm ((v.setWidth 32).signExtend 64).toNat]⟩) :
    FurtherDenoted inst bs ↔ fitsInt32 v = true := by
  have hwidths : furtherWidths inst = [64] := by rw [furtherWidths, htype]
  rw [furtherDenoted_iff hread, furtherMeaning_iff (by rw [htype]; rfl) (by rw [htype]; rfl), hops,
    hwidths, argsAt_one]
  exact @imm_wide true v

theorem yields_push {inst : ParsedInstruction} (htype : inst.type = .push) :
    (encodePushPop inst).Yields fun bs => FurtherDenoted inst bs ↔ PushFits inst.operands := by
  have hwidths : furtherWidths inst = [64] := by rw [furtherWidths, htype]
  have ho : furtherOperation inst.type = some .push := by rw [htype]; rfl
  have himplied : impliedArgs inst.type = [] := by rw [htype]; rfl
  have hpush : (inst.type == .push) = true := by rw [htype]; rfl
  unfold encodePushPop
  dsimp only
  rw [hpush]
  simp only [if_true, Bool.not_true, Bool.false_eq_true, if_false]
  split
  · next r size hops =>
      obtain ⟨hopcode, -⟩ := stack_opcodes r
      rw [hops]
      exact yields_of_writes (furtherDenoted_wideReg ho himplied hwidths hops hopcode
        (stack_entries r _).1)
  · next v hops =>
      rw [hops]
      split
      · next hbyte =>
          refine yields_of_writes (furtherDenoted_pushImm htype hops ?_)
          have hsame := immediate_byte hbyte (by decide : 32 ≤ 64)
          have hwidth : (v.setWidth 32).setWidth 8 = v.setWidth 8 :=
            BitVec.setWidth_setWidth_of_le v (by decide)
          rw [← hsame, hwidth]
          have hread := readImm_byte 64 (v.setWidth 8)
          have hbytes := @furtherInstructionOf_oneByte [] [v.setWidth 8] none 0x6A _ (.inl rfl)
            (fun p hp => nomatch hp) (by decide) (by decide) rfl
          refine hbytes.trans (readFurtherEntry_of (fun _ => rfl) ?_)
          show oneMore (readImm 1 64) [v.setWidth 8] = _
          rw [oneMore, hread]
          rfl
      · refine yields_of_writes (furtherDenoted_pushImm htype hops ?_)
        have hread := readImm_leBytes 4 64 (v.setWidth 32)
        have hbytes := @furtherInstructionOf_oneByte [] (leBytes 4 (v.setWidth 32)) none 0x68 _
          (.inl rfl) (fun p hp => nomatch hp) (by decide) (by decide) rfl
        refine hbytes.trans (readFurtherEntry_of (fun _ => rfl) ?_)
        show oneMore (readImm 4 64) (leBytes 4 (v.setWidth 32)) = _
        rw [oneMore, hread, BitVec.setWidth_eq]
        rfl
  · next m hops =>
      rw [hops]
      exact yields_wideRm ho himplied hwidths hops ⟨by decide, by decide⟩ rfl
  · exact yields_diag
  · exact yields_diag

theorem yields_pop {inst : ParsedInstruction} (htype : inst.type = .pop) :
    (encodePushPop inst).Yields fun bs => FurtherDenoted inst bs ↔ WordFits inst.operands := by
  have hwidths : furtherWidths inst = [64] := by rw [furtherWidths, htype]
  have ho : furtherOperation inst.type = some .pop := by rw [htype]; rfl
  have himplied : impliedArgs inst.type = [] := by rw [htype]; rfl
  have hpush : (inst.type == .push) = false := by rw [htype]; rfl
  unfold encodePushPop
  dsimp only
  rw [hpush]
  simp only [if_true, Bool.not_false, Bool.false_eq_true, if_false]
  split
  · next r size hops =>
      obtain ⟨-, hopcode⟩ := stack_opcodes r
      rw [hops]
      exact yields_of_writes (furtherDenoted_wideReg ho himplied hwidths hops hopcode
        (stack_entries r _).2)
  · exact yields_diag
  · next m hops =>
      rw [hops]
      exact yields_wideRm ho himplied hwidths hops ⟨by decide, by decide⟩ rfl
  · exact yields_diag
  · exact yields_diag

theorem yields_of_all {P : List Byte → Prop} {m : Encoder Unit} (h : ∀ bs, P bs) : m.Yields P :=
  fun _ _ _ => h _

theorem furtherDenoted_label {inst : ParsedInstruction} {name : Label}
    (hops : inst.operands = [.label name]) (hwidths : furtherWidths inst = [64]) (bs : List Byte) :
    FurtherDenoted inst bs ↔ RmFits 64 (.label name) := by
  refine iff_of_false ?_ id
  rintro ⟨j, hj, -⟩
  obtain ⟨o, -, hargs⟩ := Option.bind_eq_some_iff.mp hj
  rw [hwidths, hops] at hargs
  cases hargs

theorem yields_encodeJmp {inst : ParsedInstruction} (htype : inst.type = .jmp) :
    (encodeJmp inst).Yields fun bs => FurtherDenoted inst bs ↔ WordFits inst.operands := by
  have hwidths : furtherWidths inst = [64] := by rw [furtherWidths, htype]
  have ho : furtherOperation inst.type = some .jmpTo := by rw [htype]; rfl
  have himplied : impliedArgs inst.type = [] := by rw [htype]; rfl
  unfold encodeJmp
  split
  · next name hops =>
      rw [hops]
      exact yields_of_all (furtherDenoted_label hops hwidths)
  · next r size hops =>
      rw [hops]
      exact yields_encodeIndirect ho himplied hwidths hops rfl
  · next m hops =>
      rw [hops]
      exact yields_encodeIndirect ho himplied hwidths hops rfl
  · exact yields_diag
  · exact yields_diag

theorem yields_call {inst : ParsedInstruction} (htype : inst.type = .call) :
    (encodeCallRet inst).Yields fun bs => FurtherDenoted inst bs ↔ WordFits inst.operands := by
  have hwidths : furtherWidths inst = [64] := by rw [furtherWidths, htype]
  have ho : furtherOperation inst.type = some .callTo := by rw [htype]; rfl
  have himplied : impliedArgs inst.type = [] := by rw [htype]; rfl
  unfold encodeCallRet
  rw [if_neg (by rw [htype]; decide), if_pos htype]
  split
  · next name hops =>
      rw [hops]
      exact yields_of_all (furtherDenoted_label hops hwidths)
  · next r size hops =>
      rw [hops]
      exact yields_encodeIndirect ho himplied hwidths hops rfl
  · next m hops =>
      rw [hops]
      exact yields_encodeIndirect ho himplied hwidths hops rfl
  · exact yields_diag
  · exact yields_diag

theorem readUnsigned_leBytes {n : Nat} (v : BitVec (8 * n)) (rest : List Byte) :
    readUnsigned n (leBytes n v ++ rest) = some (.imm v.toNat, rest) := by
  have hlength := LittleEndian.leBytes_length n v
  rw [readUnsigned, if_pos (by rw [List.length_append, hlength]; omega), List.take_left' hlength,
    List.drop_left' hlength, LittleEndian.ofLeBytes_leBytes (Nat.le_refl _)]

theorem number_matches {w : Nat} {v : Word} :
    argIn w (.imm v) = some (.imm (v.setWidth w).toNat) ↔ FitsWidth w v := by
  show argOf w (.imm v) = _ ↔ _
  rw [imm_matches, BitVec.toNat_setWidth]
  exact and_iff_left rfl

theorem yields_ret {inst : ParsedInstruction} (htype : inst.type = .ret) :
    (encodeCallRet inst).Yields fun bs =>
      FurtherDenoted inst bs ↔ inst.operands = [] ∨ NumberFits 16 inst.operands := by
  have ho : furtherOperation inst.type = some .ret := by rw [htype]; rfl
  have himplied : impliedArgs inst.type = [] := by rw [htype]; rfl
  unfold encodeCallRet
  rw [if_pos htype]
  split
  · next hops =>
      refine yields_of_writes (iff_of_true ?_ (.inl hops))
      have hread : furtherInstructionOf [0xC3] = some ⟨.ret, []⟩ := by decide
      rw [furtherDenoted_iff hread, furtherMeaning_iff ho himplied, furtherWidths, htype, hops]
      rfl
  · next v hops =>
      refine yields_of_writes ?_
      have hwidths : furtherWidths inst = [16] := by rw [furtherWidths, htype, hops]; rfl
      have hbytes := @furtherInstructionOf_oneByte [] (leBytes 2 (v.setWidth 16)) none 0xC2 _
        (.inl rfl) (fun p hp => nomatch hp) (by decide) (by decide) rfl
      have hread : readFurtherArgs none 0xC2 64 (leBytes 2 (v.setWidth 16)) .word =
          some ([.imm (v.setWidth 16).toNat], []) := by
        have h := @readUnsigned_leBytes 2 (v.setWidth 16) []
        rw [List.append_nil] at h
        rw [readFurtherArgs, oneMore, h]
        rfl
      rw [readFurtherEntry_of (fun _ => rfl) hread] at hbytes
      refine (furtherDenoted_iff hbytes).trans ?_
      rw [furtherMeaning_iff ho himplied, hops, hwidths, argsAt_one, number_matches]
      exact ⟨.inr, fun h => h.resolve_left (List.cons_ne_nil _ _)⟩
  · exact yields_diag

theorem yields_encodeInt {inst : ParsedInstruction} (htype : inst.type = .int) :
    (encodeInt inst).Yields fun bs => FurtherDenoted inst bs ↔ NumberFits 8 inst.operands := by
  have ho : furtherOperation inst.type = some .int := by rw [htype]; rfl
  have himplied : impliedArgs inst.type = [] := by rw [htype]; rfl
  have hwidths : furtherWidths inst = [8] := by rw [furtherWidths, htype]
  unfold encodeInt
  split
  · next v hops =>
      rw [hops]
      refine yields_of_writes ?_
      have hbytes := @furtherInstructionOf_oneByte [] (leBytes 1 (v.setWidth 8)) none 0xCD _
        (.inl rfl) (fun p hp => absurd hp (by simp)) (by decide) (by decide) rfl
      have hread : readFurtherArgs none 0xCD 64 (leBytes 1 (v.setWidth 8)) .byte =
          some ([.imm (v.setWidth 8).toNat], []) := by
        have h := @readUnsigned_leBytes 1 (v.setWidth 8) []
        rw [List.append_nil] at h
        rw [readFurtherArgs, oneMore, h]
        rfl
      rw [readFurtherEntry_of (fun _ => rfl) hread] at hbytes
      have hbyte : leBytes 1 (v.setWidth 8) = [v.setWidth 8] := rfl
      rw [hbyte] at hbytes
      refine (furtherDenoted_iff hbytes).trans ?_
      rw [furtherMeaning_iff ho himplied, hops, hwidths, argsAt_one, number_matches]
      rfl
  · exact yields_diag

theorem fitsWidth_of_range {w : Nat} {v : Word} (hlo : ¬ v.toInt < 0) (hhi : v.toInt < 2 ^ w) :
    FitsWidth w v := by
  have hpos : (0 : Int) ≤ 2 ^ (w - 1) := by positivity
  exact ⟨by omega, hhi⟩

theorem yields_encodeEnter {inst : ParsedInstruction} (htype : inst.type = .enter) :
    (encodeEnter inst).Yields fun bs => FurtherDenoted inst bs ↔ inst.operands.length = 2 := by
  have ho : furtherOperation inst.type = some .enter := by rw [htype]; rfl
  have himplied : impliedArgs inst.type = [] := by rw [htype]; rfl
  have hwidths : furtherWidths inst = [16, 8] := by rw [furtherWidths, htype]
  unfold encodeEnter
  split
  · next size nest hops =>
      split
      · exact yields_diag
      next hsize =>
        split
        · exact yields_diag
        next hnest =>
          simp only [Bool.or_eq_true, decide_eq_true_eq, not_or, Int.not_lt] at hsize hnest
          refine yields_of_writes (iff_of_true ?_ (by rw [hops]; rfl))
          have hbytes := @furtherInstructionOf_oneByte []
            (leBytes 2 (size.setWidth 16) ++ leBytes 1 (nest.setWidth 8)) none 0xC8 _ (.inl rfl)
            (fun p hp => absurd hp (by simp)) (by decide) (by decide) rfl
          have hread : readFurtherArgs none 0xC8 64
              (leBytes 2 (size.setWidth 16) ++ leBytes 1 (nest.setWidth 8)) .wordByte =
                some ([.imm (size.setWidth 16).toNat, .imm (nest.setWidth 8).toNat], []) := by
            have h := @readUnsigned_leBytes 1 (nest.setWidth 8) []
            rw [List.append_nil] at h
            rw [readFurtherArgs, readUnsigned_leBytes, Option.bind_some, h]
            rfl
          rw [readFurtherEntry_of (fun _ => rfl) hread] at hbytes
          have hbyte : leBytes 1 (nest.setWidth 8) = [nest.setWidth 8] := rfl
          rw [hbyte] at hbytes
          refine (furtherDenoted_iff hbytes).mpr ?_
          rw [furtherMeaning_iff ho himplied, hops, hwidths, argsAt_two, number_matches,
            number_matches]
          constructor
          · exact fitsWidth_of_range (Int.not_lt.mpr hsize.1) (Int.lt_of_le_of_lt hsize.2 (by decide))
          · exact fitsWidth_of_range (Int.not_lt.mpr hnest.1) (Int.lt_of_le_of_lt hnest.2 (by decide))
  · exact yields_diag
  · exact yields_diag

def sizePrefix (size : RegSize) : List Byte := if size == .size16 then [0x66] else []

theorem sizePrefix_legacy (size : RegSize) : sizePrefix size = [] ∨ sizePrefix size = [0x66] := by
  cases size <;> decide

theorem prefixWidth_size {size : RegSize} (h : size = .size16 ∨ size = .size32 ∨ size = .size64) :
    prefixWidth (size == .size64) (sizePrefix size) = widthBits size := by
  rcases h with rfl | rfl | rfl <;> rfl

section Lea

variable {inst : ParsedInstruction} {r : Reg} {size : RegSize} {m : MemOperand}
  (htype : inst.type = .lea) (hops : inst.operands = [.reg r size, .mem m])

include htype hops

theorem furtherDenoted_lea (hm : Addressable m) :
    FurtherDenoted inst (sizePrefix size ++
      ((rexByte (size == .size64) (some (.reg r size)) (some (.mem m)) none).toList ++
        0x8D :: modrmBytes r.low (.mem m))) ↔
      widthBits size = prefixWidth (size == .size64) (sizePrefix size) ∧
        RmFits (prefixWidth (size == .size64) (sizePrefix size)) (.reg r size) ∧ AddressFits m := by
  have hne := prefixWidth_ne (size == .size64) (sizePrefix size)
  have hwidths : furtherWidths inst = [widthBits size, widthBits size] := by
    rw [furtherWidths, htype, hops]
    rfl
  have hrex := rexFor_rexByte (size == .size64) (some (.reg r size)) (.mem m)
  have hbytes := @furtherInstructionOf_rm (sizePrefix size) []
    (rexByte (size == .size64) (some (.reg r size)) (some (.mem m)) none) 0x8D r.low _ _
    (sizePrefix_legacy size) rexByte_isRex (.mem m hm) (by decide) (by decide) rfl
  rw [List.append_nil] at hbytes
  rcases @readModRm_memBytes _ r.low m hm hrex with hcut | ⟨a, hread⟩
  · obtain ⟨_, hnone⟩ := @readModRm_cutShort
      (rexByte (size == .size64) (some (.reg r size)) (some (.mem m)) none) r.low m hcut []
    rw [List.append_nil] at hnone
    refine iff_of_false (not_furtherDenoted (hbytes.trans (readFurtherEntry_none ?_))) fun h =>
      hcut.not_fits h.2.2
    exact readRegMem_none hnone _
  · have hfield := readAsField_mem hm hrex hread
    have hinst := hbytes.trans (readFurtherEntry_of nofun (readRegMem_memory hread _))
    rw [furtherDenoted_iff hinst, furtherMeaning_iff (by rw [htype]; rfl) (by rw [htype]; rfl), hops,
      hwidths, width_plain, argsAt_two, regField_matches hne rfl]
    have hmem := hfield (widthBits size) (prefixWidth (size == .size64) (sizePrefix size)) (.inl hne)
    constructor
    · rintro ⟨⟨hw, hreg⟩, hm⟩
      exact ⟨hw, hreg, (hmem.mp hm).2⟩
    · rintro ⟨hw, hreg, hfits⟩
      exact ⟨⟨hw, hreg⟩, hmem.mpr ⟨hw, hfits⟩⟩

end Lea

theorem widthBits_ofPrefix {size : RegSize} (hbyte : size ≠ .size8) (hhigh : size ≠ .size8h) :
    widthBits size = prefixWidth (size == .size64) (sizePrefix size) ↔ size ≠ .xmm := by
  cases size with
  | size8 => exact absurd rfl hbyte
  | size8h => exact absurd rfl hhigh
  | size16 | size32 | size64 | xmm => decide

theorem yields_encodeLea {inst : ParsedInstruction} (htype : inst.type = .lea) :
    (encodeLea inst).Yields fun bs => FurtherDenoted inst bs ↔ LeaFits inst.operands := by
  unfold encodeLea
  split
  · next r size m hops =>
      split
      · exact yields_diag
      next hsize =>
        simp only [Bool.or_eq_true, beq_iff_eq, not_or] at hsize
        refine yields_around r.low (.mem m) 0 ?_
        intro hop
        cases hop with
        | mem m hm =>
            rw [hops]
            refine (furtherDenoted_lea htype hops hm).trans ?_
            rw [widthBits_ofPrefix hsize.1 hsize.2]
            constructor
            · rintro ⟨hxmm, hreg, haddress⟩
              rw [← (widthBits_ofPrefix hsize.1 hsize.2).mpr hxmm] at hreg
              exact ⟨hreg, hxmm, haddress⟩
            · rintro ⟨hreg, hxmm, haddress⟩
              rw [(widthBits_ofPrefix hsize.1 hsize.2).mpr hxmm] at hreg
              exact ⟨hxmm, hreg, haddress⟩
  · exact yields_diag
  · exact yields_diag

theorem setcc_codes {inst : ParsedInstruction} {c : Byte} (h : setccCode inst.type = some c) :
    furtherOperation inst.type = some (.set c.toNat) ∧ impliedArgs inst.type = [] ∧
      furtherWidths inst = [8] ∧ (FurtherFits inst ↔ SetFits inst.operands) ∧
      ∀ digit, furtherTwoByte (0x90 + c) digit = some ⟨.set c.toNat, .byte, .shown .rm⟩ := by
  unfold setccCode at h
  split at h
  all_goals
    first
    | next htype =>
        cases h
        simp only [furtherWidths, FurtherFits, htype]
        exact ⟨rfl, rfl, rfl, .rfl, fun _ => rfl⟩
    | cases h

theorem cmov_codes {inst : ParsedInstruction} {c : Byte} (h : cmovCode inst.type = some c) :
    furtherOperation inst.type = some (.cmov c.toNat) ∧ impliedArgs inst.type = [] ∧
      furtherWidths inst = [operandsWidth inst.operands, operandsWidth inst.operands] ∧
      (FurtherFits inst ↔ CmovFits inst.operands) ∧
      ∀ digit, furtherTwoByte (0x40 + c) digit = some ⟨.cmov c.toNat, .plain, .shown .regRm⟩ := by
  unfold cmovCode at h
  split at h
  all_goals
    first
    | next htype =>
        cases h
        simp only [furtherWidths, FurtherFits, htype]
        exact ⟨rfl, rfl, rfl, .rfl, fun _ => rfl⟩
    | cases h

theorem setRegister_matches {r : Reg} {size : RegSize} (hsize : size = .size8 ∨ size = .size8h) :
    argIn 8 (.reg r size) = some (regArg (rexByte false none (some (.reg r size)) none) 8
      (rexBit (rexByte false none (some (.reg r size)) none) 0 + (r.low &&& 7#8).toNat)) ↔
        SetFits [.reg r size] := by
  show argOf 8 (.reg r size) = _ ↔ ByteRegister r size ∨ size = .size8h ∧ 4 ≤ r.val ∧ r.val < 8
  unfold ByteRegister
  rcases hsize with rfl | rfl <;> revert r <;> decide

section Setcc

variable {inst : ParsedInstruction} {c : Byte} (hcode : setccCode inst.type = some c)

include hcode

theorem furtherDenoted_setReg {r : Reg} {size : RegSize} (hops : inst.operands = [.reg r size])
    (hsize : size = .size8 ∨ size = .size8h) :
    FurtherDenoted inst ((rexByte false none (some (.reg r size)) none).toList ++
      ([0x0F, 0x90 + c] ++ modrmBytes 0 (.reg r size))) ↔ SetFits [.reg r size] := by
  obtain ⟨ho, himplied, hwidths, -, hentry⟩ := setcc_codes hcode
  have hop := RmOperand.reg r size
  have hargs := @readArgs_rm (rexByte false none (some (.reg r size)) none) (0x90 + c) 0 _ 8 hop
    (hop.noIndex false none)
  have hbytes := @furtherInstructionOf_rmTwo [] [] (rexByte false none (some (.reg r size)) none)
    (0x90 + c) 0 _ _ (.inl rfl) rexByte_isRex (.reg r size) (hentry _)
  rw [List.append_nil] at hbytes
  have hinst := hbytes.trans (readFurtherEntry_of nofun hargs)
  refine (furtherDenoted_iff hinst).trans ?_
  rw [furtherMeaning_iff ho himplied, hops, hwidths, argsAt_one]
  exact setRegister_matches hsize

theorem yields_setMem {m : MemOperand} (hops : inst.operands = [.mem m]) {e : Encoder Unit}
    [Writes e ((rexByte false none (some (.mem m)) none).toList ++
      ([0x0F, 0x90 + c] ++ modrmBytes 0 (.mem m)))]
    [AroundModrm 0 (.mem m) 0 e] : e.Yields fun bs => FurtherDenoted inst bs ↔ SetFits [.mem m] := by
  obtain ⟨ho, himplied, hwidths, -, hentry⟩ := setcc_codes hcode
  refine yields_around 0 (.mem m) 0 ?_
  intro hop
  have hbytes := @furtherInstructionOf_rmTwo [] [] (rexByte false none (some (.mem m)) none)
    (0x90 + c) 0 _ _ (.inl rfl) rexByte_isRex hop (hentry _)
  rw [← List.append_nil (modrmBytes 0 (.mem m))]
  exact (furtherDenoted_one ho himplied hop (rexFor_rexByte _ _ _) hops hwidths hbytes nofun
    rfl (.inr ⟨m, rfl⟩)).trans (and_iff_right rfl)

end Setcc

theorem yields_encodeSetcc {inst : ParsedInstruction} :
    (encodeSetcc inst).Yields fun bs => FurtherDenoted inst bs ↔ SetFits inst.operands := by
  unfold encodeSetcc
  split
  · next op hops =>
      rw [hops]
      split
      · next r size =>
          split
          · exact yields_diag
          next hsize =>
            have hbyte : size = .size8 ∨ size = .size8h := by
              cases size with
              | size8 => exact .inl rfl
              | size8h => exact .inr rfl
              | size16 | size32 | size64 | xmm => exact absurd rfl hsize
            apply yields_orDiag_bind
            intro c hcode
            exact yields_of_writes (furtherDenoted_setReg hcode hops hbyte)
      · next m =>
          split
          · exact yields_diag
          apply yields_orDiag_bind
          intro c hcode
          exact yields_setMem hcode hops
      · exact yields_diag
  · exact yields_diag

section Cmov

variable {inst : ParsedInstruction} {c : Byte} {r : Reg} {size : RegSize} {src : Operand}
  (hcode : cmovCode inst.type = some c) (hops : inst.operands = [.reg r size, src])
  (hsize : size = .size16 ∨ size = .size32 ∨ size = .size64)

include hcode hops hsize

theorem yields_cmov {e : Encoder Unit}
    [Writes e (sizePrefix size ++ ((rexByte (size == .size64) (some (.reg r size)) (some src) none).toList ++
      ([0x0F, 0x40 + c] ++ modrmBytes r.low src)))]
    [AroundModrm r.low src 0 e] :
    e.Yields fun bs => FurtherDenoted inst bs ↔ CmovFits [.reg r size, src] := by
  obtain ⟨ho, himplied, hwidths, -, hentry⟩ := cmov_codes hcode
  refine yields_around r.low src 0 ?_
  intro hop
  have hwidth : furtherWidths inst = [widthBits size, widthBits size] := by
    rw [hwidths, hops]
    rfl
  have hbytes := @furtherInstructionOf_rmTwo (sizePrefix size) []
    (rexByte (size == .size64) (some (.reg r size)) (some src) none) (0x40 + c) r.low _ _
    (sizePrefix_legacy size) rexByte_isRex hop (hentry _)
  rw [← List.append_nil (modrmBytes r.low src)]
  exact (furtherDenoted_regRm ho himplied hop hops hwidth rfl hbytes (prefixWidth_size hsize)).trans
    (and_iff_right rfl)

end Cmov

theorem yields_encodeCmov {inst : ParsedInstruction} :
    (encodeCmov inst).Yields fun bs => FurtherDenoted inst bs ↔ CmovFits inst.operands := by
  have hwide : ∀ size : RegSize, ¬ (size == .size8 || size == .size8h || size == .xmm) = true →
      size = .size16 ∨ size = .size32 ∨ size = .size64 := by
    intro size
    cases size <;> decide
  unfold encodeCmov
  split
  · next r size src hops =>
      rw [hops]
      split
      · split
        · exact yields_diag
        next hsize =>
          split
          · exact yields_diag
          apply yields_orDiag_bind
          intro c hcode
          exact yields_cmov hcode hops (hwide size hsize)
      · split
        · exact yields_diag
        next hsize =>
          split
          · exact yields_diag
          apply yields_orDiag_bind
          intro c hcode
          exact yields_cmov hcode hops (hwide size hsize)
      · exact yields_diag
  · exact yields_diag
  · exact yields_diag

theorem bswap_opcodes (r : Reg) : (0xC8#8 + r.low) &&& 7#8 = r.low &&& 7#8 ∧
    furtherTwoByte (0xC8#8 + r.low) 0 = some ⟨.bswap, .plain, .opcodeReg⟩ := by
  rcases low_cases r with h | h | h | h | h | h | h | h <;> rw [h] <;> exact ⟨rfl, rfl⟩

theorem yields_encodeBswap {inst : ParsedInstruction} (htype : inst.type = .bswap) :
    (encodeBswap inst).Yields fun bs => FurtherDenoted inst bs ↔ BswapFits inst.operands := by
  unfold encodeBswap
  split
  · next r size hops =>
      split
      · exact yields_diag
      next hsize =>
        have hwide : size = .size16 ∨ size = .size32 ∨ size = .size64 := by
          cases size with
          | size32 => exact .inr (.inl rfl)
          | size64 => exact .inr (.inr rfl)
          | size8 | size8h | size16 | xmm => exact absurd rfl hsize
        have hplain : sizePrefix size = [] := by
          cases size with
          | size16 => exact absurd rfl hsize
          | size8 | size8h | size32 | size64 | xmm => rfl
        have hwidth := prefixWidth_size hwide
        have hwidths : furtherWidths inst = [widthBits size] := by
          rw [furtherWidths, htype, hops]
          rfl
        obtain ⟨hlow, hentry⟩ := bswap_opcodes r
        rw [hplain] at hwidth
        rw [hops]
        refine yields_of_writes ?_
        have hbytes := @furtherInstructionOf_twoByte [] []
          (rexByte (size == .size64) none (some (.reg r size)) none) (0xC8 + r.low) _ (.inl rfl)
          rexByte_isRex hentry
        have hu := (width_plain (size == .size64) none (some (.reg r size)) []).trans hwidth
        have hne : widthBits size ≠ 8 := hwidth ▸ prefixWidth_ne _ _
        refine (furtherDenoted_opcodeReg (by rw [htype]; rfl) (by rw [htype]; rfl)
          (rexFor_rexByte _ _ _) hops hwidths hlow hbytes (fun h => absurd h (by decide)) hu hne).trans ?_
        exact (and_iff_right rfl).trans (and_iff_left rfl)
  · exact yields_diag
  · exact yields_diag

theorem bitManip_codes {inst : ParsedInstruction} {codes : Byte × Byte}
    (h : bitManipCodes inst.type = some codes) : ∃ o, furtherOperation inst.type = some o ∧
      impliedArgs inst.type = [] ∧
      furtherWidths inst = [operandsWidth inst.operands,
        indexWidth (operandsWidth inst.operands) (inst.operands.getLastD .none)] ∧
      (FurtherFits inst ↔ BitFits inst.operands) ∧
      furtherTwoByte 0xBA (codes.1 &&& 7#8).toNat = some ⟨o, .plain, .shown .rmCount⟩ ∧
      ∀ digit, furtherTwoByte codes.2 digit = some ⟨o, .plain, .shown .rmReg⟩ := by
  unfold bitManipCodes at h
  split at h
  all_goals
    first
    | next htype =>
        cases h
        simp only [furtherWidths, FurtherFits, htype, true_and]
        exact ⟨_, rfl, rfl, rfl, fun _ => rfl⟩
    | cases h

theorem wide_iff {S : RegSize} {P : Nat → Prop} :
    widthBits S = prefixWidth (S == .size64) [] ∧ P (prefixWidth (S == .size64) []) ↔
      IsWide S ∧ P (widthBits S) := by
  have hwide : widthBits S = prefixWidth (S == .size64) [] ↔ IsWide S := widthBits_eq_widthOf
  constructor
  · rintro ⟨hw, h⟩
    exact ⟨hwide.mp hw, hw ▸ h⟩
  · rintro ⟨hS, h⟩
    exact ⟨hwide.mpr hS, hwide.mpr hS ▸ h⟩

theorem pair_iff {op : Operand} {r : Reg} {size : RegSize} (hop : Accepted op) {P : Prop} :
    operandsWidth [op, .reg r size] = prefixWidth (Encoder.operandSize op == .size64) [] ∧
        RmFits (prefixWidth (Encoder.operandSize op == .size64) []) op ∧
        RmFits (prefixWidth (Encoder.operandSize op == .size64) []) (.reg r size) ∧ P ↔
      IsWide (Encoder.operandSize op) ∧ RmFits (widthBits (Encoder.operandSize op)) op ∧
        RmFits (widthBits (Encoder.operandSize op)) (.reg r size) ∧ P := by
  cases hop with
  | reg r' size' =>
      exact wide_iff (P := fun u => RmFits u (.reg r' size') ∧ RmFits u (.reg r size) ∧ P)
  | mem m _ =>
      show widthBits size = 64 ∧ AddressFits m ∧ (r.val < 16 ∧ widthBits size = 64) ∧ P ↔
        IsWide .size64 ∧ AddressFits m ∧ (r.val < 16 ∧ widthBits size = 64) ∧ P
      constructor
      · rintro ⟨-, hm, hreg, hP⟩
        exact ⟨.inr rfl, hm, hreg, hP⟩
      · rintro ⟨-, hm, hreg, hP⟩
        exact ⟨hreg.2, hm, hreg, hP⟩

section BitManip

variable {inst : ParsedInstruction} {codes : Byte × Byte} {op : Operand}
  (hcodes : bitManipCodes inst.type = some codes)

include hcodes

theorem yields_bitImm {v : Word} (hops : inst.operands = [op, .imm v]) {e : Encoder Unit}
    [Writes e ((rexByte (Encoder.operandSize op == .size64) none (some op) none).toList ++
      ([0x0F, 0xBA] ++ (modrmBytes codes.1 op ++ [v.setWidth 8])))]
    [AroundModrm codes.1 op 1 e] :
    e.Yields fun bs => FurtherDenoted inst bs ↔ BitFits [op, .imm v] := by
  obtain ⟨o, ho, himplied, hwidths, -, hentry, -⟩ := bitManip_codes hcodes
  refine yields_around codes.1 op 1 ?_
  intro hop
  have hwidth : furtherWidths inst = [widthBits (Encoder.operandSize op), 8] := by
    rw [hwidths, hops]
    cases hop <;> rfl
  have hbytes := @furtherInstructionOf_rmTwo [] [v.setWidth 8]
    (rexByte (Encoder.operandSize op == .size64) none (some op) none) 0xBA codes.1 _ op (.inl rfl) rexByte_isRex
    hop hentry
  have hne := prefixWidth_ne (Encoder.operandSize op == .size64) []
  have hu := width_plain (Encoder.operandSize op == .size64) none (some op) []
  refine (furtherDenoted_rm (fun m => [rmArg (rexByte (Encoder.operandSize op == .size64) none (some op) none)
      (prefixWidth (Encoder.operandSize op == .size64) []) m.rm]) (oneMore readCount)
    [.imm (v.setWidth 8).toNat] hop (rexFor_rexByte _ _ _) hbytes nofun (by rw [hu]; rfl) rfl
    (show 1 < 4 by decide) ?_ fun hno h => hno _ h.2.1).trans
      (wide_iff (P := fun u => RmFits u op ∧ FitsWidth 8 v))
  intro field hfield
  rw [furtherMeaning_iff ho himplied, hops, hwidth]
  dsimp only
  rw [List.singleton_append, argsAt_two, number_matches, hfield _ _ (.inl hne), and_assoc]

theorem yields_bitReg {r : Reg} {size : RegSize} (hops : inst.operands = [op, .reg r size])
    {e : Encoder Unit}
    [Writes e ((rexByte (Encoder.operandSize op == .size64) (some (.reg r size)) (some op) none).toList ++
      ([0x0F, codes.2] ++ modrmBytes r.code op))]
    [AroundModrm r.code op 0 e] :
    e.Yields fun bs => FurtherDenoted inst bs ↔ BitFits [op, .reg r size] := by
  obtain ⟨o, ho, himplied, hwidths, -, -, hentry⟩ := bitManip_codes hcodes
  refine yields_around r.code op 0 ?_
  intro hop
  have hwidth : furtherWidths inst =
      [operandsWidth [op, .reg r size], operandsWidth [op, .reg r size]] := by
    rw [hwidths, hops]
    rfl
  have hbytes := @furtherInstructionOf_rmTwo [] []
    (rexByte (Encoder.operandSize op == .size64) (some (.reg r size)) (some op) none) codes.2 r.code _ op
    (.inl rfl) rexByte_isRex hop (hentry _)
  rw [← List.append_nil (modrmBytes r.code op)]
  have hpair := @pair_iff op r size hop True
  simp only [and_true] at hpair
  exact (furtherDenoted_rmReg ho himplied hop hops hwidth (code_and r) hbytes rfl).trans hpair

end BitManip

theorem yields_encodeBitManip {inst : ParsedInstruction} :
    (encodeBitManip inst).Yields fun bs => FurtherDenoted inst bs ↔ BitFits inst.operands := by
  unfold encodeBitManip
  split
  · next op1 op2 hops =>
      rw [hops]
      apply yields_orDiag_bind
      intro codes hcodes
      split
      · exact yields_bitImm hcodes hops
      · next r size =>
          split
          · exact yields_bitReg hcodes hops
          · exact yields_diag
      · exact yields_diag
  · exact yields_diag

theorem double_codes {inst : ParsedInstruction} (htype : inst.type = .shld ∨ inst.type = .shrd) :
    ∃ o, furtherOperation inst.type = some o ∧ impliedArgs inst.type = [] ∧
      furtherWidths inst = [operandsWidth inst.operands, operandsWidth inst.operands, 8] ∧
      ∀ digit, furtherTwoByte (if inst.type = .shld then 0xA4 else 0xAC) digit =
          some ⟨o, .plain, .rmRegCount⟩ ∧
        furtherTwoByte ((if inst.type = .shld then 0xA4 else 0xAC) + 1) digit =
          some ⟨o, .plain, .rmRegCl⟩ := by
  rcases htype with htype | htype
  all_goals
    simp only [furtherWidths, htype, true_and]
    exact ⟨_, rfl, rfl, fun _ => ⟨rfl, rfl⟩⟩

section Double

variable {inst : ParsedInstruction} {dst count : Operand} {r : Reg} {size : RegSize} {C : Prop}
  {opcode : Byte} {o : FurtherOperation} {layout : FurtherLayout} {c : Arg}
  (ho : furtherOperation inst.type = some o) (himplied : impliedArgs inst.type = [])
  (hwidths : furtherWidths inst = [operandsWidth inst.operands, operandsWidth inst.operands, 8])
  (hops : inst.operands = [dst, .reg r size, count])
  (hentry : ∀ digit, furtherTwoByte opcode digit = some ⟨o, .plain, layout⟩)

include ho himplied hwidths hops hentry

/-- Two operands of one width and a count, which the byte behind the ModRM byte is, or `cl`. -/
theorem furtherDenoted_double (next : List Byte → Option (List Arg × List Byte)) (tail : List Byte)
    (hop : Accepted dst)
    (hlayout : ∀ rex width bs, readFurtherArgs rex opcode width bs layout =
      readRm rex bs (fun m => [rmArg rex width m.rm, regArg rex width (rexBit rex 2 + m.reg)]) next)
    (hnext : next tail = some ([c], [])) (htail : tail.length < 4)
    (hcount : argIn 8 count = some c ↔ C) :
    FurtherDenoted inst ((rexByte (Encoder.operandSize dst == .size64) (some (.reg r size)) (some dst) none).toList ++
      ([0x0F, opcode] ++ (modrmBytes r.code dst ++ tail))) ↔
      IsWide (Encoder.operandSize dst) ∧ RmFits (widthBits (Encoder.operandSize dst)) dst ∧
        RmFits (widthBits (Encoder.operandSize dst)) (.reg r size) ∧ C := by
  have hwidth : furtherWidths inst =
      [operandsWidth [dst, .reg r size], operandsWidth [dst, .reg r size], 8] := by
    rw [hwidths, hops]
    rfl
  have hbytes := @furtherInstructionOf_rmTwo [] tail
    (rexByte (Encoder.operandSize dst == .size64) (some (.reg r size)) (some dst) none) opcode r.code _ dst
    (.inl rfl) rexByte_isRex hop (hentry _)
  have hne := prefixWidth_ne (Encoder.operandSize dst == .size64) []
  have hu := width_plain (Encoder.operandSize dst == .size64) (some (.reg r size)) (some dst) []
  refine (furtherDenoted_rm (fun m => [
      rmArg (rexByte (Encoder.operandSize dst == .size64) (some (.reg r size)) (some dst) none)
        (prefixWidth (Encoder.operandSize dst == .size64) []) m.rm,
      regArg (rexByte (Encoder.operandSize dst == .size64) (some (.reg r size)) (some dst) none)
        (prefixWidth (Encoder.operandSize dst == .size64) [])
        (rexBit (rexByte (Encoder.operandSize dst == .size64) (some (.reg r size)) (some dst) none) 2 + m.reg)])
    next [c] hop (rexFor_rexByte _ _ _) hbytes nofun (by rw [hlayout, hu]) hnext htail ?_
    fun hno h => hno _ h.2.1).trans (pair_iff hop)
  intro field hfield
  rw [furtherMeaning_iff ho himplied, hops, hwidth]
  dsimp only
  rw [List.cons_append, List.singleton_append, argsAt_three, regField_matches hne (code_and r),
    hfield _ _ (.inl hne), hcount]
  exact ⟨fun ⟨⟨hw, hrm⟩, ⟨_, hreg⟩, hC⟩ => ⟨hw, hrm, hreg, hC⟩,
    fun ⟨hw, hrm, hreg, hC⟩ => ⟨⟨hw, hrm⟩, ⟨hw, hreg⟩, hC⟩⟩

end Double

theorem cl_matches {c : Reg} {size : RegSize} (hc : c.val = 1) :
    argIn 8 (.reg c size) = some (.reg 8 1) ↔ size = .size8 := by
  have hone : c = 1 := Fin.ext hc
  subst hone
  cases size <;> decide

theorem yields_encodeShldShrd {inst : ParsedInstruction}
    (htype : inst.type = .shld ∨ inst.type = .shrd) :
    (encodeShldShrd inst).Yields fun bs => FurtherDenoted inst bs ↔ DoubleFits inst.operands := by
  obtain ⟨o, ho, himplied, hwidths, hentry⟩ := double_codes htype
  unfold encodeShldShrd
  split
  · next dst r size count hops =>
      rw [hops]
      dsimp only
      split
      · next _ v =>
          refine yields_around r.code dst 1 ?_
          intro hop
          exact furtherDenoted_double ho himplied hwidths hops (fun digit => (hentry digit).1)
            (oneMore readCount) [v.setWidth 8] hop (fun _ _ _ => rfl) rfl (show 1 < 4 by decide)
            number_matches
      · split
        · next c csize _ _ =>
            split
            · next hcl =>
                refine yields_around r.code dst 0 ?_
                intro hop
                have h := furtherDenoted_double ho himplied hwidths hops
                  (fun digit => (hentry digit).2) (fun bs => some ([.reg 8 1], bs)) [] hop
                  (fun _ _ _ => rfl) rfl (by decide) (cl_matches (beq_iff_eq.mp hcl))
                rw [List.append_nil] at h
                exact h
            · exact yields_diag
        · rw [if_neg Bool.false_ne_true]
          exact yields_diag
  · exact yields_diag
  · exact yields_diag

theorem scan_codes {inst : ParsedInstruction} (htype : inst.type = .bsf ∨ inst.type = .bsr) :
    ∃ o, furtherOperation inst.type = some o ∧ impliedArgs inst.type = [] ∧
      furtherWidths inst = [operandsWidth inst.operands, operandsWidth inst.operands] ∧
      ∀ digit, furtherTwoByte (if inst.type = .bsf then 0xBC else 0xBD) digit =
        some ⟨o, .plain, .shown .regRm⟩ := by
  rcases htype with htype | htype
  all_goals
    simp only [furtherWidths, htype, true_and]
    exact ⟨_, rfl, rfl, fun _ => rfl⟩

theorem yields_encodeBitScan {inst : ParsedInstruction} (htype : inst.type = .bsf ∨ inst.type = .bsr) :
    (encodeBitScan inst).Yields fun bs => FurtherDenoted inst bs ↔ ScanFits inst.operands := by
  obtain ⟨o, ho, himplied, hwidths, hentry⟩ := scan_codes htype
  unfold encodeBitScan
  split
  · next r size src hops =>
      rw [hops]
      refine yields_around r.code src 0 ?_
      intro hop
      have hwidth : furtherWidths inst = [widthBits size, widthBits size] := by
        rw [hwidths, hops]
        rfl
      have hbytes := @furtherInstructionOf_rmTwo [] []
        (rexByte (size == .size64) (some (.reg r size)) (some src) none)
        (if inst.type = .bsf then 0xBC else 0xBD) r.code _ src (.inl rfl) rexByte_isRex hop (hentry _)
      rw [← List.append_nil (modrmBytes r.code src)]
      exact (furtherDenoted_regRm ho himplied hop hops hwidth (code_and r) hbytes rfl).trans
        (wide_iff (P := fun u => RmFits u (.reg r size) ∧ RmFits u src))
  · exact yields_diag
  · exact yields_diag

theorem furtherDenoted_fixed {inst : ParsedInstruction} {o : FurtherOperation} {bs : List Byte}
    (ho : furtherOperation inst.type = some o) (hwidths : furtherWidths inst = [])
    (hread : furtherInstructionOf bs = some ⟨o, impliedArgs inst.type⟩) :
    FurtherDenoted inst bs ↔ inst.operands = [] := by
  rw [furtherDenoted_iff hread, furtherMeaning, ho, hwidths, Option.bind_some]
  cases inst.operands with
  | nil => exact iff_of_true rfl rfl
  | cons op ops =>
      apply iff_of_false
      · intro h
        cases h
      · exact List.cons_ne_nil op ops

theorem yields_encodeFixed {inst : ParsedInstruction} {o : FurtherOperation}
    {table : InstType → Option (List Byte)} {message unknown : String}
    (ho : furtherOperation inst.type = some o) (hwidths : furtherWidths inst = [])
    (hread : ∀ bs, table inst.type = some bs →
      furtherInstructionOf bs = some ⟨o, impliedArgs inst.type⟩) :
    (Encoder.encodeFixed table message unknown inst).Yields fun bs =>
      FurtherDenoted inst bs ↔ inst.operands = [] := by
  unfold Encoder.encodeFixed
  split
  · exact yields_diag
  · apply yields_orDiag_bind
    intro bs hbs
    exact yields_of_writes (furtherDenoted_fixed ho hwidths (hread bs hbs))

theorem yields_encodeFlag {inst : ParsedInstruction} {o : FurtherOperation}
    (ho : furtherOperation inst.type = some o) (hwidths : furtherWidths inst = [])
    (hread : ∀ b, Encoder.flagByte inst.type = some b →
      furtherInstructionOf [b] = some ⟨o, impliedArgs inst.type⟩) :
    (Encoder.encodeFlag inst).Yields fun bs => FurtherDenoted inst bs ↔ inst.operands = [] := by
  unfold Encoder.encodeFlag
  apply yields_orDiag_bind
  intro b hb
  exact yields_of_writes (furtherDenoted_fixed ho hwidths (hread b hb))

theorem yields_encodeString {inst : ParsedInstruction} {o : FurtherOperation}
    (ho : furtherOperation inst.type = some o) (hwidths : furtherWidths inst = [])
    (hread : ∀ bs, Encoder.stringOpcode inst.type = some bs →
      furtherInstructionOf bs = some ⟨o, impliedArgs inst.type⟩) :
    (Encoder.encodeString inst).Yields fun bs => FurtherDenoted inst bs ↔ inst.operands = [] := by
  unfold Encoder.encodeString
  split
  · exact yields_diag
  · apply yields_orDiag_bind
    intro bs hbs
    exact yields_of_writes (furtherDenoted_fixed ho hwidths (hread bs hbs))

theorem further_of_condition {type : InstType} {c : Byte}
    (h : setccCode type = some c ∨ cmovCode type = some c) :
    machineEncoder type = some encodeSetcc ∧ setccCode type = some c ∨
      machineEncoder type = some encodeCmov ∧ cmovCode type = some c := by
  rcases h with h | h
  · refine .inl ⟨?_, h⟩
    unfold setccCode at h
    split at h <;> cases h <;> rfl
  · refine .inr ⟨?_, h⟩
    unfold cmovCode at h
    split at h <;> cases h <;> rfl

theorem yields_condition {inst : ParsedInstruction} {encode : ParsedInstruction → Encoder Unit} {c : Byte}
    (hencode : machineEncoder inst.type = some encode)
    (h : setccCode inst.type = some c ∨ cmovCode inst.type = some c) :
    (encode inst).Yields fun bs => FurtherDenoted inst bs ↔ FurtherFits inst := by
  rcases further_of_condition h with ⟨hsome, hcode⟩ | ⟨hsome, hcode⟩
  · cases hsome.symm.trans hencode
    obtain ⟨-, -, -, hfits, -⟩ := setcc_codes hcode
    rw [hfits]
    exact yields_encodeSetcc
  · cases hsome.symm.trans hencode
    obtain ⟨-, -, -, hfits, -⟩ := cmov_codes hcode
    rw [hfits]
    exact yields_encodeCmov

def isTable : InstType → Bool
  | .syscall | .sysret | .hlt | .leave | .clc | .stc | .cmc | .cld | .std | .cli | .sti
  | .cwd | .cdq | .cqo | .cbw | .cwde | .cdqe | .movsb | .movsw | .movsd | .movsq => true
  | _ => false

theorem isTable_operation {type : InstType} (h : isTable type = true) :
    ∃ o, furtherOperation type = some o := by
  cases type
  all_goals
    first
    | exact absurd h Bool.false_ne_true
    | exact ⟨_, rfl⟩

theorem isTable_widths {inst : ParsedInstruction} (h : isTable inst.type = true) :
    furtherWidths inst = [] := by
  unfold furtherWidths
  cases htype : inst.type
  all_goals
    rw [htype] at h
    first
    | exact absurd h Bool.false_ne_true
    | rfl

theorem yields_tables {inst : ParsedInstruction} {encode : ParsedInstruction → Encoder Unit}
    (htable : isTable inst.type = true) (hencode : machineEncoder inst.type = some encode) :
    (encode inst).Yields fun bs => FurtherDenoted inst bs ↔ inst.operands = [] := by
  have hwidths := isTable_widths htable
  obtain ⟨o, ho⟩ := isTable_operation htable
  cases htype : inst.type
  all_goals
    rw [htype] at htable
    first
    | exact absurd htable Bool.false_ne_true
    | rw [htype] at hencode
      cases hencode
      cases ((congrArg furtherOperation htype).symm.trans ho)
      first
      | simp only [Encoder.encodeSyscall, Encoder.encodeSysret, Encoder.encodeHlt, Encoder.encodeLeave]
        exact yields_of_writes (furtherDenoted_fixed ho hwidths (by rw [htype]; decide))
      | exact yields_encodeFlag ho hwidths (by rw [htype]; decide)
      | exact yields_encodeFixed ho hwidths (by rw [htype]; decide)
      | exact yields_encodeString ho hwidths (by rw [htype]; decide)

theorem yields_furtherEncoder {inst : ParsedInstruction} {encode : ParsedInstruction → Encoder Unit}
    (hfurther : (furtherOperation inst.type).isSome = true)
    (hencode : machineEncoder inst.type = some encode) :
    (encode inst).Yields fun bs => FurtherDenoted inst bs ↔ FurtherFits inst := by
  by_cases hcondition : ∃ c, setccCode inst.type = some c ∨ cmovCode inst.type = some c
  · obtain ⟨c, h⟩ := hcondition
    exact yields_condition hencode h
  · have hset : setccCode inst.type = none := by
      rw [Option.eq_none_iff_forall_not_mem]
      exact fun c hc => hcondition ⟨c, .inl hc⟩
    have hcmov : cmovCode inst.type = none := by
      rw [Option.eq_none_iff_forall_not_mem]
      exact fun c hc => hcondition ⟨c, .inr hc⟩
    unfold FurtherFits
    cases htype : inst.type
    all_goals
      rw [htype] at hencode hfurther hset hcmov
      first
      | exact absurd hset (Option.some_ne_none _)
      | exact absurd hcmov (Option.some_ne_none _)
      | exact absurd hfurther Bool.false_ne_true
      | cases hencode
        first
        | exact yields_push htype
        | exact yields_pop htype
        | exact yields_encodeLea htype
        | exact yields_encodeBswap htype
        | exact yields_encodeBitManip
        | exact yields_encodeShldShrd (.inl htype)
        | exact yields_encodeShldShrd (.inr htype)
        | exact yields_encodeBitScan (.inl htype)
        | exact yields_encodeBitScan (.inr htype)
        | exact yields_encodeJmp htype
        | exact yields_call htype
        | exact yields_ret htype
        | exact yields_encodeInt htype
        | exact yields_encodeEnter htype
        | exact yields_tables (by rw [htype]; rfl) (by rw [htype]; rfl)

/-- The bytes of an accepted instruction are the written one exactly when its operands are among
`FurtherFits`. -/
theorem furtherEncoders_denoted {inst : ParsedInstruction}
    {encode : ParsedInstruction → Encoder Unit} {env : EncodeEnv} {es : List Emission}
    (hfurther : (furtherOperation inst.type).isSome = true)
    (hencode : machineEncoder inst.type = some encode) (h : encode inst env = (es, .ok ())) :
    FurtherDenoted inst (bytesOf es) ↔ FurtherFits inst :=
  yields_furtherEncoder hfurther hencode env es h

/-- `cmovg r9w, [rbp + rax*4 - 8]`. -/
def cmovgR9w : ParsedInstruction :=
  { type := .cmovg
    operands := [.reg 9 .size16,
      .mem { base := some 5, index := some 0, scale := 4, displacement := -8, hasDisplacement := true }] }

theorem furtherEncoders_denoted_cmovgR9w : FurtherDenoted cmovgR9w (bytesOf (
      [0x66#8, 0x44, 0x0F, 0x4F, 0x4C, 0x85, 0xF8].map .byte)) ↔ FurtherFits cmovgR9w := by
  apply @furtherEncoders_denoted cmovgR9w encodeCmov ⟨0, true, fun _ => none⟩
  · rfl
  · rfl
  · rfl

end X86Assembler
