import X86Assembler.SseEncoding
import X86Assembler.Parser

namespace X86Assembler

open CString (Byte)
open Encoder (SseOpcode encodeSseMov sseMovOpcode emitSseHead isHighXmm modrmBytes memBytes
  isXmmOperand isMemOperand regField memIndexExtended memBaseExtended)
open MachineCode

/-- The bytes are the written move of the written operands. -/
def SseMoveDenoted (inst : ParsedInstruction) (bs : List Byte) : Prop :=
  ∃ dst src o d s, inst.operands = [dst, src] ∧ sseOperation inst.type = some o ∧
    sseArg dst = some d ∧ sseArg src = some s ∧ sseInstructionOf bs = some ⟨o, d, s⟩

/-- The moves that come out right: between XMM registers, and between one and memory whose address
can be encoded. -/
def SseMoveFits : List Operand → Prop
  | [.reg r _, .reg r' _] => isXmmReg r = true ∧ isXmmReg r' = true
  | [.reg _ _, .mem m] => AddressFits m
  | [.mem m, .reg _ _] => AddressFits m
  | _ => False

theorem sseMov_code {type : InstType} {code : SseOpcode} {store : Bool}
    (h : sseMovOpcode store type = some code) :
    ∃ o, sseOperation type = some o ∧ SseCode code ⟨o, store⟩ := by
  unfold sseMovOpcode at h
  split at h <;> cases h <;> cases store <;> exact ⟨_, rfl, by decide, rfl, fun _ => rfl⟩

theorem readModRm_reg {rex : Option Byte} {mod digit rm : Byte} {bs rest : List Byte} {m : ModRm}
    (h : readModRm rex (makeModrm mod digit rm :: bs) = some (m, rest)) :
    m.reg = (digit &&& 7#8).toNat := by
  rw [readModRm] at h
  simp only [makeModrm_reg] at h
  split at h
  · cases h
    rfl
  · obtain ⟨found, -, heq⟩ := Option.map_eq_some_iff.mp h
    cases heq
    rfl

theorem memBytes_first (digit : Byte) (m : MemOperand) :
    ∃ mod rm tail, memBytes digit m = makeModrm mod digit rm :: tail := by
  cases hrip : m.isRipRelative with
  | true => exact ⟨0, 5, LittleEndian.leBytes 4 m.displacement, by rw [memBytes, if_pos hrip]⟩
  | false =>
      obtain ⟨mod, rm, tail, -, hcons⟩ := memBytes_head digit hrip
      exact ⟨mod, rm, tail, hcons⟩

theorem instruction_inj {entry : SseEntry} {x y x' y' : SseArg}
    (h : entry.instruction x y = entry.instruction x' y') : x = x' ∧ y = y' := by
  rw [SseEntry.instruction, SseEntry.instruction] at h
  split at h
  · cases h
    exact ⟨rfl, rfl⟩
  · cases h
    exact ⟨rfl, rfl⟩

section Memory

variable {rex : Option Byte} {digit : Byte} {m : MemOperand} (hm : Addressable m)
  (hb : rexBit rex 0 = if m.base.any Reg.isExtended then 8 else 0)
  (hx : rexBit rex 1 = if m.index.any Reg.isExtended then 8 else 0)

include hm hb hx

theorem readSse_mem {entry : SseEntry} :
    (∃ s, sseArg (.mem m) = some s ∧ readSse rex entry (memBytes digit m) =
      some (entry.instruction (.xmm (rexBit rex 2 + (digit &&& 7#8).toNat)) s)) ↔ AddressFits m := by
  rw [← @readsAddress_fits rex digit m hm hb hx]
  constructor
  · rintro ⟨s, hs, hread⟩
    obtain ⟨a, ha, rfl⟩ := Option.map_eq_some_iff.mp hs
    rw [readSse] at hread
    split at hread
    · next modrm hmodrm =>
        injection hread with hinst
        obtain ⟨-, hrm⟩ := instruction_inj hinst
        obtain ⟨mod, rm, tail, hcons⟩ := memBytes_first digit m
        have hreg : modrm.reg = (digit &&& 7#8).toNat := readModRm_reg (hcons ▸ hmodrm)
        have hfield : modrm.rm = .memory a := by
          cases hcase : modrm.rm with
          | register number =>
              rw [hcase] at hrm
              cases hrm
          | memory a' =>
              rw [hcase] at hrm
              cases hrm
              rfl
        refine ⟨a, ha, ?_⟩
        rw [hmodrm, ← hreg, ← hfield]
    · cases hread
  · rintro ⟨a, ha, hread⟩
    refine ⟨.mem a, ?_, readSse_of hread⟩
    rw [sseArg, ha]
    rfl

end Memory

section Forms

variable {inst : ParsedInstruction} {code : SseOpcode} {o : SseOperation} {r r' : Reg}
  {size size' : RegSize} {m : MemOperand} (ho : sseOperation inst.type = some o)

include ho

theorem sseMoveDenoted_iff {dst src : Operand} {bs : List Byte}
    (hops : inst.operands = [dst, src]) :
    SseMoveDenoted inst bs ↔ ∃ d s, sseArg dst = some d ∧ sseArg src = some s ∧
      sseInstructionOf bs = some ⟨o, d, s⟩ := by
  constructor
  · rintro ⟨dst', src', o', d, s, hops', ho', hd, hs, hread⟩
    cases hops.symm.trans hops'
    cases ho.symm.trans ho'
    exact ⟨d, s, hd, hs, hread⟩
  · rintro ⟨d, s, hd, hs, hread⟩
    exact ⟨dst, src, o, d, s, hops, ho, hd, hs, hread⟩

theorem sseMoveDenoted_load (hcode : SseCode code ⟨o, false⟩) (hr : isXmmReg r = true)
    (hops : inst.operands = [.reg r size, .mem m]) (hm : Addressable m) {x b : Bool}
    (hx : x = m.index.any Reg.isExtended) (hb : b = m.base.any Reg.isExtended) :
    SseMoveDenoted inst (sseHead code (isHighXmm (.reg r size)) x b ++ memBytes r.low m) ↔
      AddressFits m := by
  have hmem := @readSse_mem (sseRex (isHighXmm (.reg r size)) x b) r.low m hm (hb ▸ sseRex_b _ _ _)
    (hx ▸ sseRex_x _ _ _) ⟨o, false⟩
  rw [sseRex_r, xmm_number hr size] at hmem
  have hdst : sseArg (.reg r size) = some (.xmm (r.val - 16)) := if_pos hr
  rw [sseMoveDenoted_iff ho hops, sseInstructionOf_head hcode, ← hmem, hdst]
  constructor
  · rintro ⟨d, s, hd, hs, hread⟩
    cases hd
    exact ⟨s, hs, hread⟩
  · rintro ⟨s, hs, hread⟩
    exact ⟨_, s, rfl, hs, hread⟩

theorem sseMoveDenoted_store (hcode : SseCode code ⟨o, true⟩) (hr : isXmmReg r = true)
    (hops : inst.operands = [.mem m, .reg r size]) (hm : Addressable m) {x b : Bool}
    (hx : x = m.index.any Reg.isExtended) (hb : b = m.base.any Reg.isExtended) :
    SseMoveDenoted inst (sseHead code (isHighXmm (.reg r size)) x b ++ memBytes r.low m) ↔
      AddressFits m := by
  have hmem := @readSse_mem (sseRex (isHighXmm (.reg r size)) x b) r.low m hm (hb ▸ sseRex_b _ _ _)
    (hx ▸ sseRex_x _ _ _) ⟨o, true⟩
  rw [sseRex_r, xmm_number hr size] at hmem
  have hsrc : sseArg (.reg r size) = some (.xmm (r.val - 16)) := if_pos hr
  rw [sseMoveDenoted_iff ho hops, sseInstructionOf_head hcode, ← hmem, hsrc]
  constructor
  · rintro ⟨d, s, hd, hs, hread⟩
    cases hs
    exact ⟨d, hd, hread⟩
  · rintro ⟨d, hd, hread⟩
    exact ⟨d, _, hd, rfl, hread⟩

/-- Between registers; the destination comes from the low bits of whatever is written there. -/
theorem sseMoveDenoted_register {dst : Operand} (hcode : SseCode code ⟨o, false⟩)
    (hr' : isXmmReg r' = true) (hops : inst.operands = [dst, .reg r' size'])
    (hdst : isMemOperand dst = false) :
    SseMoveDenoted inst (sseHead code (isHighXmm dst) false (isHighXmm (.reg r' size')) ++
      [makeModrm 3 (regField dst).low r'.low]) ↔ SseMoveFits inst.operands := by
  have hsrc : sseArg (.reg r' size') = some (.xmm (r'.val - 16)) := if_pos hr'
  rw [sseMoveDenoted_iff ho hops, hsrc, hops]
  cases dst with
  | mem m => cases hdst
  | reg r size =>
      by_cases hr : isXmmReg r = true
      · have hmodrm := @readModRm_modrmBytes
          (sseRex (isHighXmm (.reg r size)) false (isHighXmm (.reg r' size'))) r.low
          (.reg r' size') (.reg r' size') (sseRex_x _ _ _) []
        have hread := @readSse_of _ ⟨o, false⟩ _ _ hmodrm
        rw [sseRex_r, xmm_number hr size, rmField, sseRex_b, xmm_number hr' size'] at hread
        constructor
        · intro _
          exact ⟨hr, hr'⟩
        · intro _
          exact ⟨_, _, if_pos hr, rfl, (sseInstructionOf_head hcode _ _ _ _).trans hread⟩
      · constructor
        · rintro ⟨d, s, hd, -, -⟩
          rw [sseArg, if_neg hr] at hd
          cases hd
        · rintro ⟨h, -⟩
          exact absurd h hr
  | none | imm _ | label _ | labelDiff _ _ | string _ =>
      constructor
      · rintro ⟨d, s, hd, -, -⟩
        cases hd
      · intro h
        exact h.elim

end Forms

theorem yields_modrm_mem {P : List Byte → Prop} {digit : Byte} {m : MemOperand}
    (h : Addressable m → P (memBytes digit m)) : (Encoder.emitModrmSib digit (.mem m)).Yields P := by
  intro env es hrun
  rw [Encoder.Writes.bytes _ _ _ hrun]
  exact h (addressable_of_ok hrun)

theorem xmm_of_operand {op : Operand} (h : isXmmOperand op = true) :
    ∃ r size, op = .reg r size ∧ isXmmReg r = true := by
  cases op with
  | reg r size => exact ⟨r, size, rfl, h⟩
  | none | imm _ | mem _ | label _ | labelDiff _ _ | string _ => cases h

theorem mem_of_operand {op : Operand} (h : isMemOperand op = true) : ∃ m, op = .mem m := by
  cases op with
  | mem m => exact ⟨m, rfl⟩
  | none | imm _ | reg _ _ | label _ | labelDiff _ _ | string _ => cases h

theorem notExtended_of_plain {op : Operand} (h : isMemOperand op = false) :
    memIndexExtended op = false ∧ memBaseExtended op = false := by
  cases op with
  | mem m => cases h
  | none | imm _ | reg _ _ | label _ | labelDiff _ _ | string _ => exact ⟨rfl, rfl⟩

/-- What the checks of the encoder leave: a store, a load, or an XMM source. -/
theorem sseMove_forms {dst src : Operand} (hstore : ¬ (isMemOperand dst && !isXmmOperand src) = true)
    (hload : ¬ (isXmmOperand dst && !isXmmOperand src && !isMemOperand src) = true)
    (hone : ¬ (!isXmmOperand dst && !isXmmOperand src) = true) :
    isMemOperand dst = true ∧ isXmmOperand src = true ∨
      isMemOperand dst = false ∧ isXmmOperand dst = true ∧ isMemOperand src = true ∨
        isMemOperand dst = false ∧ isXmmOperand src = true ∧ isMemOperand src = false := by
  cases hsrc : isXmmOperand src with
  | true =>
      obtain ⟨r, size, rfl, -⟩ := xmm_of_operand hsrc
      cases hdst : isMemOperand dst with
      | true => exact .inl ⟨rfl, rfl⟩
      | false => exact .inr (.inr ⟨rfl, rfl, rfl⟩)
  | false =>
      rw [hsrc, Bool.not_false, Bool.and_true] at hstore hload hone
      have hdst : isXmmOperand dst = true := by
        cases h : isXmmOperand dst with
        | true => rfl
        | false =>
            rw [h] at hone
            exact absurd rfl hone
      have hmem : isMemOperand src = true := by
        cases h : isMemOperand src with
        | true => rfl
        | false =>
            rw [hdst, h] at hload
            exact absurd rfl hload
      exact .inr (.inl ⟨Bool.not_eq_true _ ▸ hstore, hdst, hmem⟩)

theorem yields_encodeSseMov {inst : ParsedInstruction} :
    (encodeSseMov inst).Yields fun bs => SseMoveDenoted inst bs ↔ SseMoveFits inst.operands := by
  unfold encodeSseMov
  split
  · next dst src hops =>
      dsimp only
      split
      · exact yields_diag
      split
      · exact yields_diag
      split
      · exact yields_diag
      split
      · exact yields_diag
      next hstore =>
        split
        · exact yields_diag
        next hload =>
          split
          · exact yields_diag
          next hone =>
            apply yields_orDiag_bind
            intro code hcode
            obtain ⟨o, ho, hentry⟩ := sseMov_code hcode
            apply yields_bind
            intro _
            rcases sseMove_forms hstore hload hone with ⟨hdst, hsrc⟩ | ⟨hdst, hxmm, hmem⟩ |
              ⟨hdst, hsrc, hmem⟩
            · obtain ⟨m, rfl⟩ := mem_of_operand hdst
              obtain ⟨r, size, rfl, hr⟩ := xmm_of_operand hsrc
              simp only [hdst, if_true]
              rw [hops]
              apply yields_modrm_mem
              intro hm
              exact sseMoveDenoted_store ho hentry hr hops hm (Bool.false_or _) (Bool.false_or _)
            · obtain ⟨m, rfl⟩ := mem_of_operand hmem
              obtain ⟨r, size, rfl, hr⟩ := xmm_of_operand hxmm
              simp only [hdst, hmem, if_true, Bool.false_eq_true, if_false]
              rw [hops]
              apply yields_modrm_mem
              intro hm
              exact sseMoveDenoted_load ho hentry hr hops hm (Bool.or_false _) (Bool.or_false _)
            · obtain ⟨r', size', rfl, hr'⟩ := xmm_of_operand hsrc
              rw [hdst] at hentry
              simp only [hdst, hmem, Bool.false_eq_true, if_false]
              refine yields_of_writes ?_
              obtain ⟨hx, hb⟩ := notExtended_of_plain hdst
              rw [hx, hb, Bool.or_false, Bool.or_false]
              have hplain : memBaseExtended (.reg r' size') = false := rfl
              rw [hplain, Bool.or_false]
              exact sseMoveDenoted_register ho hentry hr' hops hdst
  · exact yields_diag

/-- The bytes of an accepted move are the written one exactly when it is one of `SseMoveFits`. -/
theorem encodeSseMov_denoted {inst : ParsedInstruction} {env : EncodeEnv} {es : List Emission}
    (h : encodeSseMov inst env = (es, .ok ())) :
    SseMoveDenoted inst (bytesOf es) ↔ SseMoveFits inst.operands :=
  yields_encodeSseMov env es h

/-- `movsd [rbp + rax*8 - 8], xmm12`. -/
def movsdXmm12 : ParsedInstruction :=
  { type := .movsdXmm
    operands := [.mem { base := some 5, index := some 0, scale := 8, displacement := -8,
                        hasDisplacement := true }, .reg 28 .xmm] }

theorem encodeSseMov_denoted_movsdXmm12 :
    SseMoveDenoted movsdXmm12 (bytesOf [.byte 0xF2#8, .byte 0x44#8, .byte 0x0F#8, .byte 0x11#8,
      .byte 0x64#8, .byte 0xC5#8, .byte 0xF8#8]) ↔ SseMoveFits movsdXmm12.operands := by
  apply @encodeSseMov_denoted movsdXmm12 ⟨0, true, fun _ => none⟩
  rfl

def movapsRax : ParsedInstruction :=
  { type := .movaps, operands := [.reg 0 .size64, .reg 16 .xmm] }

/-- `movaps rax, xmm0` moves `xmm0` to itself; the checks of the parser let it pass, too. -/
theorem encodeSseMov_movapsRax :
    (∃ es, encodeSseMov movapsRax ⟨0, true, fun _ => none⟩ = (es, .ok ()) ∧
      ¬ SseMoveDenoted movapsRax (bytesOf es)) ∧
    ∀ p, Parser.validateSseOperands movapsRax.type movapsRax.operands p = (some (), p) := by
  refine ⟨⟨[.byte 0x0F#8, .byte 0x28#8, .byte 0xC0#8], rfl, ?_⟩, fun _ => rfl⟩
  rintro ⟨dst, src, o, d, s, hops, -, hd, -, -⟩
  cases hops
  cases hd

end X86Assembler
