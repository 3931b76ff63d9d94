import X86Assembler.EncodedInstruction
import X86Assembler.ControlFlow

namespace X86Assembler

open CString (Byte)
open Encoder (encodeXchg encodeXchgRm operationSize rexByte modrmBytes Puts)
open MachineCode

def Exchanges (bs : List Byte) (a b : Arg) : Prop :=
  instructionOf bs = some ⟨.xchg, [a, b]⟩ ∨ instructionOf bs = some ⟨.xchg, [b, a]⟩

/-- The bytes exchange the written operands, of the width of the first register. -/
def XchgDenoted (inst : ParsedInstruction) (bs : List Byte) : Prop :=
  ∃ op1 op2 a b, inst.operands = [op1, op2] ∧
    argOf (widthBits (operationSize op1 op2)) op1 = some a ∧
    argOf (widthBits (operationSize op1 op2)) op2 = some b ∧ Exchanges bs a b

def swapped (inst : ParsedInstruction) : ParsedInstruction :=
  { inst with operands := inst.operands.reverse }

/-- The exchanges that come out right: of one width, 32 or 64 bits, and not of `eax` with itself. -/
def XchgFits (operands : List Operand) : Prop :=
  match operands with
  | [op1, op2] => WidePair op1 op2 ∧
      ¬ (op1 = .reg 0 .size32 ∧ op2 = .reg 0 .size32)
  | _ => False

section Meaning

variable {inst : ParsedInstruction} {op1 op2 : Operand} {x y : Arg} {bs : List Byte}

theorem xchgDenoted_read (hops : inst.operands = [op1, op2]) :
    XchgDenoted inst bs ↔ ∃ x y, instructionOf bs = some ⟨.xchg, [x, y]⟩ ∧
      (argOf (widthBits (operationSize op1 op2)) op1 = some x ∧
          argOf (widthBits (operationSize op1 op2)) op2 = some y ∨
        argOf (widthBits (operationSize op1 op2)) op1 = some y ∧
          argOf (widthBits (operationSize op1 op2)) op2 = some x) := by
  constructor
  · rintro ⟨op1', op2', a, b, hops', ha, hb, hread⟩
    cases hops.symm.trans hops'
    rcases hread with hread | hread
    · exact ⟨a, b, hread, .inl ⟨ha, hb⟩⟩
    · exact ⟨b, a, hread, .inr ⟨ha, hb⟩⟩
  · rintro ⟨x, y, hread, ⟨ha, hb⟩ | ⟨ha, hb⟩⟩
    · exact ⟨op1, op2, x, y, hops, ha, hb, .inl hread⟩
    · exact ⟨op1, op2, y, x, hops, ha, hb, .inr hread⟩

theorem xchgDenoted_iff (hops : inst.operands = [op1, op2])
    (hread : instructionOf bs = some ⟨.xchg, [x, y]⟩) :
    XchgDenoted inst bs ↔
      argOf (widthBits (operationSize op1 op2)) op1 = some x ∧
          argOf (widthBits (operationSize op1 op2)) op2 = some y ∨
        argOf (widthBits (operationSize op1 op2)) op1 = some y ∧
          argOf (widthBits (operationSize op1 op2)) op2 = some x := by
  rw [xchgDenoted_read hops]
  constructor
  · rintro ⟨x', y', hread', h⟩
    cases hread.symm.trans hread'
    exact h
  · intro h
    exact ⟨x, y, hread, h⟩

end Meaning

section ModRm

variable {S : RegSize} {op : Operand} {r : Reg} {size : RegSize}

theorem crossed_matches (hop : RmOperand op)
    (hrm : argOf (widthBits S) op =
      some (regArg (rexByte (S == .size64) (some (.reg r size)) (some op) none)
        (widthOf (S == .size64))
        (rexBit (rexByte (S == .size64) (some (.reg r size)) (some op) none) 2 +
          (r.low &&& 7#8).toNat)))
    (hreg : argOf (widthBits S) (.reg r size) =
      some (rmArg (rexByte (S == .size64) (some (.reg r size)) (some op) none)
        (widthOf (S == .size64))
        (rmField (rexByte (S == .size64) (some (.reg r size)) (some op) none) op))) :
    IsWide S ∧ OfWidth (widthBits S) op ∧ OfWidth (widthBits S) (.reg r size) := by
  have hne : widthOf (S == .size64) ≠ 8 := by
    rcases widthOf_wide (S == .size64) with h | h <;> omega
  rw [regArg_wide hne] at hrm
  cases hop with
  | mem m base hbase =>
      rw [argOf, hbase.base_eq] at hrm
      cases hrm
  | reg r1 size1 =>
      rw [rmField, rmArg, regArg_wide hne] at hreg
      obtain ⟨hwidth, -, hr1, hsize1⟩ := (argOf_reg_wide hne).mp hrm
      obtain ⟨-, -, hr, hsize⟩ := (argOf_reg_wide hne).mp hreg
      exact ⟨widthBits_eq_widthOf.mp hwidth, ⟨hr1, hsize1.trans hwidth.symm⟩, hr,
        hsize.trans hwidth.symm⟩

theorem either_matches (hop : RmOperand op) :
    argOf (widthBits S) op =
          some (rmArg (rexByte (S == .size64) (some (.reg r size)) (some op) none)
            (widthOf (S == .size64))
            (rmField (rexByte (S == .size64) (some (.reg r size)) (some op) none) op)) ∧
        argOf (widthBits S) (.reg r size) =
          some (regArg (rexByte (S == .size64) (some (.reg r size)) (some op) none)
            (widthOf (S == .size64))
            (rexBit (rexByte (S == .size64) (some (.reg r size)) (some op) none) 2 +
              (r.low &&& 7#8).toNat)) ∨
      argOf (widthBits S) op =
          some (regArg (rexByte (S == .size64) (some (.reg r size)) (some op) none)
            (widthOf (S == .size64))
            (rexBit (rexByte (S == .size64) (some (.reg r size)) (some op) none) 2 +
              (r.low &&& 7#8).toNat)) ∧
        argOf (widthBits S) (.reg r size) =
          some (rmArg (rexByte (S == .size64) (some (.reg r size)) (some op) none)
            (widthOf (S == .size64))
            (rmField (rexByte (S == .size64) (some (.reg r size)) (some op) none) op)) ↔
      IsWide S ∧ OfWidth (widthBits S) op ∧ OfWidth (widthBits S) (.reg r size) := by
  constructor
  · rintro (h | ⟨hrm, hreg⟩)
    · exact (wide_matches hop).mp h
    · exact crossed_matches hop hrm hreg
  · intro h
    exact .inl ((wide_matches hop).mpr h)

variable {inst : ParsedInstruction} (hop : RmOperand op)

include hop

theorem instructionOf_xchgRm :
    instructionOf ((rexByte (S == .size64) (some (.reg r size)) (some op) none).toList ++
        0x87 :: modrmBytes r.low op) =
      some ⟨.xchg, [rmArg (rexByte (S == .size64) (some (.reg r size)) (some op) none)
          (widthOf (S == .size64))
          (rmField (rexByte (S == .size64) (some (.reg r size)) (some op) none) op),
        regArg (rexByte (S == .size64) (some (.reg r size)) (some op) none)
          (widthOf (S == .size64))
          (rexBit (rexByte (S == .size64) (some (.reg r size)) (some op) none) 2 +
            (r.low &&& 7#8).toNat)]⟩ :=
  @instructionOf_rmReg 0x87 .xchg (S == .size64) r size op ⟨by decide, by decide, by decide⟩ hop
    fun _ => rfl

theorem xchgDenoted_rmReg (hops : inst.operands = [op, .reg r size])
    (hS : operationSize op (.reg r size) = S) :
    XchgDenoted inst ((rexByte (S == .size64) (some (.reg r size)) (some op) none).toList ++
      0x87 :: modrmBytes r.low op) ↔ WidePair op (.reg r size) := by
  rw [xchgDenoted_iff hops (instructionOf_xchgRm hop), hS, either_matches hop, WidePair, hS]

theorem xchgDenoted_regRm (hops : inst.operands = [.reg r size, op])
    (hS : operationSize (.reg r size) op = S) :
    XchgDenoted inst ((rexByte (S == .size64) (some (.reg r size)) (some op) none).toList ++
      0x87 :: modrmBytes r.low op) ↔ WidePair (.reg r size) op := by
  rw [xchgDenoted_iff hops (instructionOf_xchgRm hop), hS, WidePair, hS,
    and_comm (a := OfWidth _ (.reg r size)), ← either_matches hop, or_comm]
  exact or_congr and_comm and_comm

end ModRm

section Short

variable {r : Reg} {size size1 : RegSize}

theorem xchg_entry (r : Reg) (digit : Nat) :
    isOpcode (0x90#8 + r.low) = true ∧ 0x90#8 + r.low ≠ 0x0F ∧
      oneByteEntry (0x90#8 + r.low) digit = some ⟨.xchg, false, .accOpcode⟩ ∧
      (0x90#8 + r.low) &&& 7 = r.low := by
  rcases low_cases r with h | h | h | h | h | h | h | h <;> rw [h] <;>
    exact ⟨by decide, by decide, rfl, by decide⟩

theorem instructionOf_short (w : Bool) :
    instructionOf ((rexByte w none (some (.reg r size)) none).toList ++ [0x90#8 + r.low]) =
      some (withNop (0x90#8 + r.low) ⟨.xchg, [.reg (widthOf w) 0,
        .reg (widthOf w) (rexBit (rexByte w none (some (.reg r size)) none) 0 + r.low.toNat)]⟩) := by
  obtain ⟨hopcode, hne, hentry, hlow⟩ := xchg_entry r (digitOf [])
  have hread := @instructionOf_oneByte [] [] (rexByte w none (some (.reg r size)) none)
    (0x90#8 + r.low) _ (.inl rfl) rexByte_isRex hopcode hne hentry
  rw [readEntry, operandWidth_plain, readArgs, hlow] at hread
  exact hread

theorem short_number (hr : r.val < 16) (w : Bool) :
    rexBit (rexByte w none (some (.reg r size)) none) 0 + r.low.toNat = r.val := by
  have hfield := rmField_reg size hr w none
  rw [rmField, low_and] at hfield
  injection hfield

theorem short_isNop (hr : r.val < 16) (w : Bool) :
    (0x90#8 + r.low = 0x90 ∧ [.reg (widthOf w) 0,
        .reg (widthOf w) (rexBit (rexByte w none (some (.reg r size)) none) 0 + r.low.toNat)] =
      [Arg.reg 32 0, Arg.reg 32 0]) ↔ r = 0 ∧ w = false := by
  rw [short_number hr]
  constructor
  · rintro ⟨-, heq⟩
    injection heq with hacc hrest
    injection hrest with hother
    injection hacc with hwidth
    injection hother with _ hzero
    refine ⟨Fin.ext hzero, ?_⟩
    cases w with
    | true => cases hwidth
    | false => rfl
  · rintro ⟨rfl, rfl⟩
    exact ⟨by decide, rfl⟩

theorem short_matches {w width : Nat} (hw : w ≠ 8) {n : Nat} :
    argOf width (.reg 0 size1) = some (.reg w 0) ∧ argOf width (.reg r size) = some (.reg w n) ∨
        argOf width (.reg 0 size1) = some (.reg w n) ∧ argOf width (.reg r size) = some (.reg w 0) ↔
      width = w ∧ n = r.val ∧ r.val < 16 ∧ widthBits size1 = w ∧ widthBits size = w := by
  have hzero : (0 : Reg).val = 0 := rfl
  simp only [argOf_reg_wide hw, hzero]
  constructor
  · rintro (⟨⟨hwidth, -, -, hsize1⟩, -, hn, hr, hsize⟩ | ⟨⟨hwidth, hn, -, hsize1⟩, -, hr0, hr, hsize⟩)
    · exact ⟨hwidth, hn, hr, hsize1, hsize⟩
    · exact ⟨hwidth, hn.trans hr0, hr, hsize1, hsize⟩
  · rintro ⟨hwidth, hn, hr, hsize1, hsize⟩
    exact .inl ⟨⟨hwidth, trivial, by decide, hsize1⟩, hwidth, hn, hr, hsize⟩

theorem widePair_short (hr : r.val < 16) :
    WidePair (.reg 0 size1) (.reg r size) ↔
      widthBits size1 = widthOf (size == .size64) ∧ widthBits size = widthOf (size == .size64) := by
  rw [widthBits_pair]
  constructor
  · rintro ⟨hwide, -, -, hsame⟩
    exact ⟨hwide, hsame⟩
  · rintro ⟨hwide, hsame⟩
    exact ⟨hwide, ⟨by decide, rfl⟩, hr, hsame⟩

theorem short_denoted {bs : List Byte} {width : Nat}
    (hwidth : width = widthBits size1 ∨ width = widthBits size)
    (hbs : instructionOf bs = some (withNop (0x90#8 + r.low) ⟨.xchg, [.reg (widthOf (size == .size64)) 0,
      .reg (widthOf (size == .size64))
        (rexBit (rexByte (size == .size64) none (some (.reg r size)) none) 0 + r.low.toNat)]⟩)) :
    (∃ x y, instructionOf bs = some ⟨.xchg, [x, y]⟩ ∧
      (argOf width (.reg 0 size1) = some x ∧ argOf width (.reg r size) = some y ∨
        argOf width (.reg 0 size1) = some y ∧ argOf width (.reg r size) = some x)) ↔
      WidePair (.reg 0 size1) (.reg r size) ∧ ¬ (size1 = .size32 ∧ r = 0 ∧ size = .size32) := by
  have hne : widthOf (size == .size64) ≠ 8 := by
    rcases widthOf_wide (size == .size64) with h | h <;> omega
  by_cases hnop : 0x90#8 + r.low = 0x90 ∧ [.reg (widthOf (size == .size64)) 0,
      .reg (widthOf (size == .size64))
        (rexBit (rexByte (size == .size64) none (some (.reg r size)) none) 0 + r.low.toNat)] =
      [Arg.reg 32 0, Arg.reg 32 0]
  · rw [withNop, if_pos hnop] at hbs
    constructor
    · rintro ⟨x, y, hread, -⟩
      cases hread.symm.trans hbs
    · rintro ⟨hpair, hother⟩
      have hr : r.val < 16 := hpair.2.2.1
      obtain ⟨rfl, hw⟩ := (short_isNop hr _).mp hnop
      obtain ⟨hsize1, hsize⟩ := (widePair_short hr).mp hpair
      rw [hw] at hsize1 hsize
      refine absurd ⟨?_, rfl, ?_⟩ hother
      · cases size1 <;> first | rfl | cases hsize1
      · cases size <;> first | rfl | cases hsize
  · rw [withNop, if_neg hnop] at hbs
    have hmatches := @short_matches r size size1 _ width hne
      (rexBit (rexByte (size == .size64) none (some (.reg r size)) none) 0 + r.low.toNat)
    constructor
    · rintro ⟨x, y, hread, h⟩
      cases hread.symm.trans hbs
      obtain ⟨-, -, hr, hsize1, hsize⟩ := hmatches.mp h
      refine ⟨(widePair_short hr).mpr ⟨hsize1, hsize⟩, ?_⟩
      rintro ⟨-, rfl, rfl⟩
      exact hnop ((short_isNop hr _).mpr ⟨rfl, rfl⟩)
    · rintro ⟨hpair, -⟩
      have hr : r.val < 16 := hpair.2.2.1
      obtain ⟨hsize1, hsize⟩ := (widePair_short hr).mp hpair
      have hw : width = widthOf (size == .size64) := by
        rcases hwidth with h | h
        · exact h.trans hsize1
        · exact h.trans hsize
      exact ⟨_, _, hbs, hmatches.mpr ⟨hw, short_number hr _, hr, hsize1, hsize⟩⟩

theorem isWide_of_same {size size' : RegSize} (hwide : IsWide size)
    (h : widthBits size' = widthBits size) : IsWide size' := by
  revert h
  rcases hwide with rfl | rfl <;> cases size' <;> decide

theorem widePair_swap {op1 op2 : Operand} (h1 : RmOperand op1) (h2 : RmOperand op2)
    (h : WidePair op1 op2) : WidePair op2 op1 := by
  obtain ⟨hwide, hfirst, hsecond⟩ := h
  cases h1 with
  | reg r1 size1 =>
      cases h2 with
      | reg r2 size2 =>
          obtain ⟨hr1, -⟩ := hfirst
          obtain ⟨hr2, hsame⟩ := hsecond
          exact ⟨isWide_of_same hwide hsame, ⟨hr2, rfl⟩, hr1, hsame.symm⟩
      | mem m base hbase => exact ⟨hwide, hsecond, hfirst⟩
  | mem m base hbase => cases h2 <;> exact ⟨hwide, hsecond, hfirst⟩

end Short

section Encoder

variable {inst : ParsedInstruction}

theorem xchgDenoted_accFirst {r : Reg} {size size1 : RegSize}
    (hops : inst.operands = [.reg 0 size1, .reg r size]) :
    XchgDenoted inst ((rexByte (size == .size64) none (some (.reg r size)) none).toList ++
      [0x90#8 + r.low]) ↔ XchgFits inst.operands := by
  have hwidth : operationSize (.reg 0 size1) (.reg r size) = size1 := rfl
  rw [xchgDenoted_read hops, hwidth, short_denoted (.inl rfl) (instructionOf_short _), hops, XchgFits]
  refine and_congr_right fun _ => not_congr ?_
  constructor
  · rintro ⟨rfl, rfl, rfl⟩
    exact ⟨rfl, rfl⟩
  · rintro ⟨h1, h2⟩
    cases h1
    cases h2
    exact ⟨rfl, rfl, rfl⟩

theorem xchgDenoted_accSecond {r : Reg} {size size1 : RegSize}
    (hops : inst.operands = [.reg r size, .reg 0 size1]) :
    XchgDenoted inst ((rexByte (size == .size64) none (some (.reg r size)) none).toList ++
      [0x90#8 + r.low]) ↔ XchgFits inst.operands := by
  have hwidth : operationSize (.reg r size) (.reg 0 size1) = size := rfl
  have hshort := @short_denoted r size size1 _ (widthBits size) (.inr rfl)
    (@instructionOf_short r size (size == .size64))
  have hpair : WidePair (.reg 0 size1) (.reg r size) ↔ WidePair (.reg r size) (.reg 0 size1) :=
    ⟨widePair_swap (.reg _ _) (.reg _ _), widePair_swap (.reg _ _) (.reg _ _)⟩
  rw [xchgDenoted_read hops, hwidth, hops, XchgFits, ← hpair]
  refine Iff.trans ?_ (hshort.trans (and_congr_right fun _ => not_congr ?_))
  · constructor
    · rintro ⟨x, y, hread, ⟨ha, hb⟩ | ⟨ha, hb⟩⟩
      · exact ⟨x, y, hread, .inr ⟨hb, ha⟩⟩
      · exact ⟨x, y, hread, .inl ⟨hb, ha⟩⟩
    · rintro ⟨x, y, hread, ⟨ha, hb⟩ | ⟨ha, hb⟩⟩
      · exact ⟨x, y, hread, .inr ⟨hb, ha⟩⟩
      · exact ⟨x, y, hread, .inl ⟨hb, ha⟩⟩
  · constructor
    · rintro ⟨rfl, rfl, rfl⟩
      exact ⟨rfl, rfl⟩
    · rintro ⟨h1, h2⟩
      cases h1
      cases h2
      exact ⟨rfl, rfl, rfl⟩

theorem xchgFits_of_ne {op1 op2 : Operand} (h : op1 ≠ .reg 0 .size32 ∨ op2 ≠ .reg 0 .size32) :
    XchgFits [op1, op2] ↔ WidePair op1 op2 := by
  refine and_iff_left ?_
  rintro ⟨h1, h2⟩
  rcases h with h | h
  · exact h h1
  · exact h h2

theorem yields_encodeXchgRm {P : List Byte → Prop} {r : Reg} {size : RegSize} {rm : Operand} {w : Bool}
    (h : P ((rexByte w (some (.reg r size)) (some rm) none).toList ++ 0x87 :: modrmBytes r.low rm)) :
    (encodeXchgRm r size rm w).Yields P := by
  unfold encodeXchgRm
  exact yields_of_writes h

theorem yields_encodeXchg (hrm : ∀ op ∈ inst.operands, RmOperand op) :
    (encodeXchg inst).Yields fun bs => XchgDenoted inst bs ↔ XchgFits inst.operands := by
  unfold encodeXchg
  split
  · next op1 op2 hops =>
      have h1 := hrm op1 (hops ▸ List.mem_cons_self)
      have h2 := hrm op2 (hops ▸ List.mem_cons_of_mem _ List.mem_cons_self)
      split
      · exact yields_diag
      · cases h1 with
        | reg r1 size1 =>
            cases h2 with
            | reg r2 size2 =>
                dsimp only
                split
                · by_cases hr1 : r1.val = 0
                  · have hzero : r1 = 0 := Fin.ext hr1
                    subst hzero
                    exact yields_of_writes (xchgDenoted_accFirst hops)
                  · next hor =>
                      have hr2 : r2.val = 0 := by simpa [hr1] using hor
                      have hzero : r2 = 0 := Fin.ext hr2
                      subst hzero
                      rw [if_neg (by simpa using hr1)]
                      exact yields_of_writes (xchgDenoted_accSecond hops)
                · next hor =>
                    apply yields_encodeXchgRm
                    rw [hops, xchgFits_of_ne]
                    · exact @xchgDenoted_rmReg size1 _ _ _ _ (.reg r1 size1) hops rfl
                    · left
                      rintro heq
                      cases heq
                      exact hor rfl
            | mem m base hbase =>
                apply yields_encodeXchgRm
                rw [hops, xchgFits_of_ne (.inr Operand.noConfusion)]
                exact @xchgDenoted_regRm size1 _ _ _ _ (.mem m base hbase) hops rfl
        | mem m base hbase =>
            cases h2 with
            | reg r size =>
                apply yields_encodeXchgRm
                rw [hops, xchgFits_of_ne (.inl Operand.noConfusion)]
                exact @xchgDenoted_rmReg size _ _ _ _ (.mem m base hbase) hops rfl
            | mem m' base' hbase' => exact yields_diag
  · exact yields_diag

theorem pair_width {op1 op2 : Operand} (h1 : RmOperand op1) (h2 : RmOperand op2)
    (h : WidePair op1 op2) :
    widthBits (operationSize op2 op1) = widthBits (operationSize op1 op2) := by
  cases h1 with
  | reg r1 size1 =>
      cases h2 with
      | reg r2 size2 => exact h.2.2.2
      | mem m base hbase => rfl
  | mem m base hbase => cases h2 <;> rfl

theorem not_high_of_wide {w : RegSize} {op : Operand} (hwide : IsWide w)
    (hop : OfWidth (widthBits w) op) : Encoder.isHigh8bitReg op = false := by
  cases op with
  | reg r size =>
      have hsize := isWide_of_same hwide hop.2
      rcases hsize with rfl | rfl <;> rfl
  | none | imm _ | mem _ | label _ | labelDiff _ _ | string _ => rfl

theorem puts_encodeXchgRm {r : Reg} {size : RegSize} {rm : Operand} (hrm : RmOperand rm) (w : Bool) :
    ∃ bs, Puts (encodeXchgRm r size rm w) bs := by
  have hbytes : Puts (Encoder.emitModrmSib r.low rm) (modrmBytes r.low rm) := by
    cases hrm with
    | reg r size => infer_instance
    | mem m base hbase => exact hbase.puts _
  unfold encodeXchgRm
  exact ⟨_, inferInstance⟩

theorem puts_encodeXchg {op1 op2 : Operand} (h1 : RmOperand op1) (h2 : RmOperand op2)
    (hops : inst.operands = [op1, op2]) (hpair : WidePair op1 op2)
    (hreg : Encoder.isMemOperand op1 = false ∨ Encoder.isMemOperand op2 = false) :
    ∃ bs, Puts (encodeXchg inst) bs := by
  have hconflict : Encoder.checkRexConflict op1 op2 = false := by
    rw [Encoder.checkRexConflict, not_high_of_wide hpair.1 hpair.2.1,
      not_high_of_wide hpair.1 hpair.2.2]
    rfl
  rw [encodeXchg, hops]
  simp only [hconflict, Bool.false_eq_true, if_false]
  cases h1 with
  | reg r1 size1 =>
      cases h2 with
      | reg r2 size2 =>
          dsimp only
          split
          · exact ⟨_, inferInstance⟩
          · exact puts_encodeXchgRm (.reg r1 size1) _
      | mem m base hbase => exact puts_encodeXchgRm (.mem m base hbase) _
  | mem m base hbase =>
      cases h2 with
      | reg r size => exact puts_encodeXchgRm (.mem m base hbase) _
      | mem m' base' hbase' => rcases hreg with h | h <;> cases h

theorem yields_operands (hrm : ∀ op ∈ inst.operands, RmOperand op) :
    (encodeXchg inst).Yields fun _ => ∃ op1 op2, inst.operands = [op1, op2] ∧
      (Encoder.isMemOperand op1 = false ∨ Encoder.isMemOperand op2 = false) := by
  unfold encodeXchg
  split
  · next op1 op2 hops =>
      have h1 := hrm op1 (hops ▸ List.mem_cons_self)
      have h2 := hrm op2 (hops ▸ List.mem_cons_of_mem _ List.mem_cons_self)
      split
      · exact yields_diag
      · intro env es h
        refine ⟨op1, op2, hops, ?_⟩
        cases h1 with
        | reg r1 size1 => exact .inl rfl
        | mem m base hbase =>
            cases h2 with
            | reg r size => exact .inr rfl
            | mem m' base' hbase' => cases h
  · exact yields_diag

def SameExchange (bs cs : List Byte) : Prop := ∃ a b, Exchanges bs a b ∧ Exchanges cs a b

theorem sameExchange_of_swapped {op1 op2 : Operand} {bs cs : List Byte} (h1 : RmOperand op1)
    (h2 : RmOperand op2) (hops : inst.operands = [op1, op2]) (hpair : WidePair op1 op2)
    (hbs : XchgDenoted inst bs) (hcs : XchgDenoted (swapped inst) cs) : SameExchange bs cs := by
  have hswap : (swapped inst).operands = [op2, op1] := by
    rw [swapped, hops]
    rfl
  obtain ⟨x, x', a, b, hx, ha, hb, hread⟩ := hbs
  obtain ⟨y, y', a', b', hy, ha', hb', hread'⟩ := hcs
  cases hops.symm.trans hx
  cases hswap.symm.trans hy
  rw [pair_width h1 h2 hpair] at ha' hb'
  cases ha.symm.trans hb'
  cases hb.symm.trans ha'
  exact ⟨a, b, hread, hread'.symm⟩

end Encoder

/-- The bytes of an accepted exchange are the written one, and those of the operands in the other
order mean the same, exactly when it is one of `XchgFits`. -/
theorem encodeXchg_denoted {inst : ParsedInstruction} {env : EncodeEnv} {es : List Emission}
    (hrm : ∀ op ∈ inst.operands, RmOperand op) (h : encodeXchg inst env = (es, .ok ())) :
    (XchgDenoted inst (bytesOf es) ∧ ∃ es', encodeXchg (swapped inst) env = (es', .ok ()) ∧
      SameExchange (bytesOf es) (bytesOf es')) ↔ XchgFits inst.operands := by
  have hdenoted := yields_encodeXchg hrm env es h
  constructor
  · rintro ⟨hfirst, -⟩
    exact hdenoted.mp hfirst
  · intro hfits
    obtain ⟨op1, op2, hops, hreg⟩ := yields_operands hrm env es h
    have h1 := hrm op1 (hops ▸ List.mem_cons_self)
    have h2 := hrm op2 (hops ▸ List.mem_cons_of_mem _ List.mem_cons_self)
    have hswap : (swapped inst).operands = [op2, op1] := by
      rw [swapped, hops]
      rfl
    have hfits' := hfits
    rw [hops] at hfits'
    obtain ⟨hpair, hother⟩ := hfits'
    have hrm' : ∀ op ∈ (swapped inst).operands, RmOperand op :=
      fun op hop => hrm op (List.mem_reverse.mp hop)
    have hpair' := widePair_swap h1 h2 hpair
    obtain ⟨bs, hputs⟩ := puts_encodeXchg h2 h1 hswap hpair' hreg.symm
    have hrun := hputs.runs env
    have hdenoted' : XchgDenoted (swapped inst) (bytesOf (bs.map .byte)) := by
      apply (yields_encodeXchg hrm' env _ hrun).mpr
      rw [hswap]
      exact ⟨hpair', fun heq => hother ⟨heq.2, heq.1⟩⟩
    have hfirst := hdenoted.mpr hfits
    exact ⟨hfirst, _, hrun, sameExchange_of_swapped h1 h2 hops hpair hfirst hdenoted'⟩

/-- `xchg r11, [rsp + 8]`. -/
def xchgR11 : ParsedInstruction :=
  { type := .xchg
    operands := [.reg 11 .size64, .mem { base := some 4, displacement := 8, hasDisplacement := true }] }

theorem encodeXchg_denoted_xchgR11 :
    (XchgDenoted xchgR11 (bytesOf [.byte 0x4C#8, .byte 0x87#8, .byte 0x5C#8, .byte 0x24#8, .byte 0x08#8]) ∧
      ∃ es', encodeXchg (swapped xchgR11) ⟨0, true, fun _ => none⟩ = (es', .ok ()) ∧
        SameExchange (bytesOf [.byte 0x4C#8, .byte 0x87#8, .byte 0x5C#8, .byte 0x24#8, .byte 0x08#8])
          (bytesOf es')) ↔ XchgFits xchgR11.operands := by
  apply @encodeXchg_denoted xchgR11 ⟨0, true, fun _ => none⟩
    [.byte 0x4C#8, .byte 0x87#8, .byte 0x5C#8, .byte 0x24#8, .byte 0x08#8]
  · intro op hop
    rcases List.mem_cons.mp hop with rfl | hop
    · exact .reg _ _
    · cases List.mem_singleton.mp hop
      exact .mem _ 4 ⟨rfl, by decide, rfl, rfl, by decide⟩
  · rfl

def xchgEax : ParsedInstruction :=
  { type := .xchg, operands := [.reg 0 .size32, .reg 0 .size32] }

/-- `xchg eax, eax` is `nop`, which leaves the upper half of `rax` alone. -/
theorem encodeXchg_xchgEax :
    ∃ es, encodeXchg xchgEax ⟨0, true, fun _ => none⟩ = (es, .ok ()) ∧
      ¬ XchgDenoted xchgEax (bytesOf es) := by
  refine ⟨[.byte 0x90#8], rfl, ?_⟩
  have hread : instructionOf (bytesOf [.byte 0x90#8]) = some ⟨.nop, []⟩ := by decide
  rintro ⟨op1, op2, a, b, -, -, -, hbs | hbs⟩
  · cases hread.symm.trans hbs
  · cases hread.symm.trans hbs

end X86Assembler
