import X86Assembler.CmovDecoding
import X86Assembler.Library.InstructionReader

namespace X86Assembler

open CString (Byte)
open Encoder (rexByte baseBytes modrmBytes)
open LittleEndian (leBytes ofLeBytes)
open MachineCode

/-- The operands that go into the `rm` field: a register, or memory behind a base register. -/
inductive RmOperand : Operand → Prop
  | reg (r : Reg) (size : RegSize) : RmOperand (.reg r size)
  | mem (m : MemOperand) (base : Reg) : BaseOnly m base → RmOperand (.mem m)

/-- A number that a field of `w` bits can hold, as a signed or as an unsigned one. -/
def FitsWidth (w : Nat) (v : Word) : Prop := -2 ^ (w - 1) ≤ v.toInt ∧ v.toInt < 2 ^ w

instance (w : Nat) (v : Word) : Decidable (FitsWidth w v) := by
  unfold FitsWidth
  infer_instance

/-- A written operand as an operand of `w` bits, when it is one: a general register of that width,
memory behind a base register, or a number of that width. -/
def argOf (w : Nat) : Operand → Option Arg
  | .reg r size =>
    if r.val < 16 ∧ widthBits size = w then
      if size = .size8h then if 4 ≤ r.val ∧ r.val < 8 then some (.high (r.val - 4)) else none
      else some (.reg w r.val)
    else none
  | .mem m => m.base.map fun base => .mem w { base := some base.val, displacement := m.offset }
  | .imm v => if FitsWidth w v then some (.imm (v.toNat % 2 ^ w)) else none
  | _ => none

def argsOf (w : Nat) : List Operand → Option (List Arg)
  | [] => some []
  | op :: ops => (argOf w op).bind fun a => (argsOf w ops).map (a :: ·)

/-- The `rm` field of an operand, under the REX prefix that stands before it. -/
def rmField (rex : Option Byte) : Operand → RmField
  | .reg r _ => .register (rexBit rex 0 + (r.low &&& 7#8).toNat)
  | .mem m => .memory {
      base := m.base.map fun base => rexBit rex 0 + (base.low &&& 7#8).toNat
      displacement := m.offset }
  | _ => .register 0

theorem makeModrm_mod_eq (mod digit rm : Byte) (h : mod &&& 3#8 = mod) :
    makeModrm mod digit rm >>> 6 = mod := by
  rw [makeModrm_mod, h]

theorem DispForm.mod_and {mod : Byte} {v : BitVec 32} {tail : List Byte} (h : DispForm mod v tail) :
    mod &&& 3#8 = mod ∧ mod ≠ 3 := by
  cases h <;> decide

theorem readSigned_form {mod : Byte} {v : BitVec 32} {tail : List Byte} {special : Bool}
    (h : DispForm mod v tail) (hspecial : mod = 0 → special = false) (rest : List Byte) :
    readSigned (dispLength mod special) 32 (tail ++ rest) = some (v, rest) := by
  cases h with
  | none =>
      rw [hspecial rfl]
      exact readSigned_append rfl
  | byte v hfits =>
      refine (@readSigned_append 1 32 [v.setWidth 8] rest rfl).trans ?_
      have hbyte : ofLeBytes (8 * 1) [v.setWidth 8] = v.setWidth 8 :=
        @LittleEndian.ofLeBytes_leBytes 8 1 (Nat.le_refl 8) (v.setWidth 8)
      rw [hbyte, signExtend_of_fitsInInt8 hfits]
  | dword v =>
      refine (readSigned_append (LittleEndian.leBytes_length 4 v)).trans ?_
      have hword : ofLeBytes (8 * 4) (leBytes 4 v) = v :=
        @LittleEndian.ofLeBytes_leBytes 32 4 (Nat.le_refl 32) v
      rw [hword, BitVec.signExtend_eq]

section Memory

variable {rex : Option Byte} {mod digit rm : Byte} {rest : List Byte} (hmod : mod &&& 3#8 = mod)
  (hthree : mod ≠ 3)

include hmod hthree

theorem readModRm_byPlain (hrm : rm &&& 7#8 ≠ 4) :
    readModRm rex (makeModrm mod digit rm :: rest) =
      (readPlain rex mod (rm &&& 7#8) rest).map fun found =>
        (⟨(digit &&& 7#8).toNat, .memory found.1⟩, found.2) := by
  rw [readModRm]
  simp only [makeModrm_mod_eq mod digit rm hmod, makeModrm_reg, makeModrm_rm, if_neg hthree,
    if_neg hrm]

theorem readModRm_bySib (hrm : rm &&& 7#8 = 4) :
    readModRm rex (makeModrm mod digit rm :: rest) =
      (MachineCode.readSib rex mod rest).map fun found =>
        (⟨(digit &&& 7#8).toNat, .memory found.1⟩, found.2) := by
  rw [readModRm]
  simp only [makeModrm_mod_eq mod digit rm hmod, makeModrm_reg, makeModrm_rm, if_neg hthree,
    if_pos hrm]

end Memory

theorem readModRm_base {rex : Option Byte} {mod digit rm : Byte} {v : BitVec 32} {tail : List Byte}
    (hform : DispForm mod v tail) (hfour : rm &&& 7 ≠ 4) (hfive : mod = 0 → rm &&& 7 ≠ 5)
    (rest : List Byte) :
    readModRm rex (makeModrm mod digit rm :: (tail ++ rest)) = some (⟨(digit &&& 7).toNat,
      .memory { base := some (rexBit rex 0 + (rm &&& 7).toNat), displacement := v }⟩, rest) := by
  obtain ⟨hmod, hthree⟩ := hform.mod_and
  have hspecial : (decide (mod = 0) && decide (rm &&& 7#8 = 5)) = false := by
    by_cases h : mod = 0
    · have hne : ¬ rm &&& 7#8 = 5 := hfive h
      rw [decide_eq_false hne, Bool.and_false]
    · rw [decide_eq_false h, Bool.false_and]
  have hread := @readSigned_form mod v tail false hform (fun _ => rfl) rest
  have hplain : readPlain rex mod (rm &&& 7#8) (tail ++ rest) =
      some ({ base := some (rexBit rex 0 + (rm &&& 7).toNat), displacement := v }, rest) := by
    rw [readPlain, hspecial, hread]
    rfl
  rw [readModRm_byPlain hmod hthree hfour, hplain]
  rfl

def sibIndex (rex : Option Byte) (scale : Nat) (index : Byte) : Option (Nat × Nat) :=
  if rexBit rex 1 + (index &&& 7#8).toNat = 4 then none
  else some (rexBit rex 1 + (index &&& 7#8).toNat, scale)

theorem readSib_form {rex : Option Byte} {mod index base : Byte} {scale : Nat} {v : BitVec 32}
    {tail : List Byte} (hform : DispForm mod v tail) (hscale : validScale scale = true)
    (hfive : mod = 0 → base &&& 7 ≠ 5) (rest : List Byte) :
    MachineCode.readSib rex mod (makeSib scale index base :: (tail ++ rest)) =
      some ({ base := some (rexBit rex 0 + (base &&& 7).toNat), index := sibIndex rex scale index,
              displacement := v }, rest) := by
  have hspecial : (decide (mod = 0) && decide (base &&& 7#8 = 5)) = false := by
    by_cases h : mod = 0
    · have hne : ¬ base &&& 7#8 = 5 := hfive h
      rw [decide_eq_false hne, Bool.and_false]
    · rw [decide_eq_false h, Bool.false_and]
  have hread := @readSigned_form mod v tail false hform (fun _ => rfl) rest
  have htop : 2 ^ (makeSib scale index base >>> 6).toNat = scale := by
    rw [makeSib_eq, makeModrm_mod]
    exact pow_scaleBits hscale
  rw [MachineCode.readSib, htop]
  simp only [makeSib_eq, makeModrm_rm, makeModrm_reg, hspecial, hread]
  rfl

theorem readModRm_sib {rex : Option Byte} {mod digit index base : Byte} {scale : Nat} {v : BitVec 32}
    {tail : List Byte} (hform : DispForm mod v tail) (hscale : validScale scale = true)
    (hfive : mod = 0 → base &&& 7 ≠ 5) (rest : List Byte) :
    readModRm rex (makeModrm mod digit 4 :: makeSib scale index base :: (tail ++ rest)) =
      some (⟨(digit &&& 7#8).toNat, .memory {
        base := some (rexBit rex 0 + (base &&& 7).toNat)
        index := sibIndex rex scale index
        displacement := v }⟩, rest) := by
  obtain ⟨hmod, hthree⟩ := hform.mod_and
  rw [readModRm_bySib hmod hthree (by decide), readSib_form hform hscale hfive]
  rfl

theorem low_and (r : Reg) : r.low &&& 7#8 = r.low := by
  revert r
  decide

theorem low_cases (r : Reg) : r.low = 0 ∨ r.low = 1 ∨ r.low = 2 ∨ r.low = 3 ∨ r.low = 4 ∨ r.low = 5 ∨
    r.low = 6 ∨ r.low = 7 := by
  revert r
  decide

theorem low_toNat (r : Reg) : r.low.toNat = r.val % 8 := by
  revert r
  decide

theorem extended_add_low {r : Reg} (h : r.val < 16) :
    (if r.isExtended then 8 else 0) + r.val % 8 = r.val := by
  rw [← low_toNat, ← low_and]
  exact low_number h

theorem readModRm_baseBytes {rex : Option Byte} {digit : Byte} (m : MemOperand) (base : Reg)
    (hx : rexBit rex 1 = 0) (rest : List Byte) :
    readModRm rex (baseBytes digit m base ++ rest) =
      some (⟨(digit &&& 7#8).toNat, .memory {
        base := some (rexBit rex 0 + (base.low &&& 7#8).toNat)
        displacement := baseDisplacement m base }⟩, rest) := by
  obtain ⟨mod, tail, hform, hfive, hbytes⟩ := baseBytes_layout digit m base
  have hlow : base.low &&& 7#8 = base.low := low_and base
  rw [hbytes]
  by_cases hfour : base.low = 4#8
  · have hsib : baseSib base = [makeSib 1 4 base.low] := by
      rw [baseSib, hfour]
      rfl
    have hmodrm : makeModrm mod digit base.low = makeModrm mod digit 4 := by
      rw [hfour]
      rfl
    have hnone : sibIndex rex 1 4 = none := by
      rw [sibIndex, hx]
      rfl
    have hne : mod = 0 → base.low &&& 7 ≠ 5 := by
      intro _
      rw [hfour]
      decide
    have hread := @readModRm_sib rex mod digit 4 base.low 1 _ tail hform rfl hne rest
    rw [hnone] at hread
    rw [hsib, hmodrm]
    exact hread
  · have hsib : baseSib base = [] := by
      rw [baseSib, beq_false_of_ne hfour]
      rfl
    rw [hsib, List.nil_append]
    refine readModRm_base hform ?_ ?_ rest
    · show ¬ (base.low &&& 7#8) = 4
      rw [hlow]
      exact hfour
    · intro hzero
      show ¬ (base.low &&& 7#8) = 5
      rw [hlow]
      exact hfive hzero

theorem readModRm_modrmBytes {rex : Option Byte} {digit : Byte} {op : Operand} (h : RmOperand op)
    (hx : rexBit rex 1 = 0) (rest : List Byte) :
    readModRm rex (modrmBytes digit op ++ rest) =
      some (⟨(digit &&& 7#8).toNat, rmField rex op⟩, rest) := by
  cases h with
  | reg r size =>
      show readModRm rex (makeModrm 3 digit r.low :: rest) = _
      have hmod : makeModrm 3 digit r.low >>> 6 = 3 := makeModrm_mod 3 digit r.low
      rw [readModRm]
      simp only [hmod, if_true, makeModrm_reg, makeModrm_rm]
      rfl
  | mem m base hbase =>
      have hbytes : modrmBytes digit (.mem m) = baseBytes digit m base := hbase.memBytes digit
      obtain ⟨hwritten, hoffset⟩ := hbase.displacement_eq
      rw [hbytes, rmField, hbase.base_eq, hoffset, ← hwritten]
      exact readModRm_baseBytes m base hx rest

theorem digitOf_modrmBytes {digit : Byte} {op : Operand} (h : RmOperand op) (rest : List Byte) :
    digitOf (modrmBytes digit op ++ rest) = (digit &&& 7#8).toNat := by
  have hfirst : ∃ mod rm tail, modrmBytes digit op = makeModrm mod digit rm :: tail := by
    cases h with
    | reg r _ => exact ⟨3, r.low, [], rfl⟩
    | mem m base hbase =>
        obtain ⟨mod, rm, tail, -, hcons⟩ := memBytes_head digit hbase.plain
        exact ⟨mod, rm, tail, hcons⟩
  obtain ⟨mod, rm, tail, hcons⟩ := hfirst
  have hreg := makeModrm_reg mod digit rm
  rw [digitOf, hcons, List.cons_append, List.headD_cons, hreg]

section Rex

variable (w : Bool) (regOp rmOp : Option Operand)

theorem rexBit_index : rexBit (rexByte w regOp rmOp none) 1 = if extendedIndex rmOp then 8 else 0 := by
  rw [rexByte, extendedReg.eq_def none]
  cases w <;> cases extendedReg regOp <;> cases extendedReg rmOp <;> cases extendedBase rmOp <;>
    cases extendedIndex rmOp <;> rfl

theorem rexBit_w : rexBit (rexByte w regOp rmOp none) 3 = if w then 8 else 0 := by
  rw [rexByte, extendedReg.eq_def none]
  cases w <;> cases extendedReg regOp <;> cases extendedReg rmOp <;> cases extendedBase rmOp <;>
    cases extendedIndex rmOp <;> rfl

theorem operandWidth_rexByte (legacy : List Byte) :
    operandWidth legacy (rexByte w regOp rmOp none) false =
      if w then 64 else if 0x66 ∈ legacy then 16 else 32 := by
  rw [operandWidth, rexBit_w]
  cases w <;> rfl

end Rex

theorem RmOperand.noIndex {op : Operand} (h : RmOperand op) (w : Bool) (regOp : Option Operand) :
    rexBit (rexByte w regOp (some op) none) 1 = 0 := by
  rw [rexBit_index]
  cases h with
  | reg r size => rfl
  | mem m base hbase =>
      rw [extendedIndex, hbase.index]
      rfl

theorem rmField_reg {r : Reg} (size : RegSize) (hr : r.val < 16) (w : Bool) (regOp : Option Operand) :
    rmField (rexByte w regOp (some (.reg r size)) none) (.reg r size) = .register r.val := by
  have hlow := low_number hr
  have hbit : rexBit (rexByte w regOp (some (.reg r size)) none) 0 =
      if r.isExtended then 8 else 0 := by
    rw [rexBit_rm]
    show (if r.isExtended || false then 8 else 0) = _
    rw [Bool.or_false]
  rw [rmField, hbit]
  exact congrArg RmField.register hlow

theorem rmField_mem {m : MemOperand} {base : Reg} (h : BaseOnly m base) (w : Bool)
    (regOp : Option Operand) : rmField (rexByte w regOp (some (.mem m)) none) (.mem m) =
      .memory { base := some base.val, displacement := m.offset } := by
  have hlow := low_number h.general
  have hbit : rexBit (rexByte w regOp (some (.mem m)) none) 0 =
      if base.isExtended then 8 else 0 := by
    rw [rexBit_rm, extendedBase, h.base_eq]
    rfl
  rw [rmField, h.base_eq, hbit, Option.map_some]
  exact congrArg (fun n => RmField.memory { base := some n, displacement := m.offset }) hlow

theorem regArg_wide {width : Nat} (h : width ≠ 8) (rex : Option Byte) (number : Nat) :
    regArg rex width number = .reg width number := if_neg fun hn => h hn.1

theorem reg_number {r : Reg} (hr : r.val < 16) (w : Bool) (size : RegSize) (rmOp : Option Operand) :
    rexBit (rexByte w (some (.reg r size)) rmOp none) 2 + (r.low &&& 7#8).toNat = r.val := by
  rw [rexBit_reg]
  exact low_number hr

section Layouts

variable {rex : Option Byte} {opcode digit : Byte} {op : Operand} {width : Nat}
  (hop : RmOperand op) (hx : rexBit rex 1 = 0)

include hop hx

theorem readRm_modrmBytes {args : ModRm → List Arg} {next : List Byte → Option (List Arg × List Byte)}
    {tail : List Byte} {more : List Arg} (hnext : next tail = some (more, [])) :
    readRm rex (modrmBytes digit op ++ tail) args next =
      some (args ⟨(digit &&& 7#8).toNat, rmField rex op⟩ ++ more, []) :=
  readRm_of (readModRm_modrmBytes hop hx tail) hnext

theorem readArgs_rmReg : readArgs rex opcode width (modrmBytes digit op) .rmReg =
    some ([rmArg rex width (rmField rex op),
      regArg rex width (rexBit rex 2 + (digit &&& 7#8).toNat)], []) := by
  have h := @readRm_modrmBytes rex digit op hop hx
    (fun m => [rmArg rex width m.rm, regArg rex width (rexBit rex 2 + m.reg)])
    (fun bs => some ([], bs)) [] [] rfl
  rwa [List.append_nil, List.append_nil] at h

theorem readArgs_regRm : readArgs rex opcode width (modrmBytes digit op) .regRm =
    some ([regArg rex width (rexBit rex 2 + (digit &&& 7#8).toNat),
      rmArg rex width (rmField rex op)], []) := by
  have h := @readRm_modrmBytes rex digit op hop hx
    (fun m => [regArg rex width (rexBit rex 2 + m.reg), rmArg rex width m.rm])
    (fun bs => some ([], bs)) [] [] rfl
  rwa [List.append_nil, List.append_nil] at h

theorem readArgs_rm : readArgs rex opcode width (modrmBytes digit op) .rm =
    some ([rmArg rex width (rmField rex op)], []) := by
  have h := @readRm_modrmBytes rex digit op hop hx (fun m => [rmArg rex width m.rm])
    (fun bs => some ([], bs)) [] [] rfl
  rwa [List.append_nil, List.append_nil] at h

theorem readArgs_rmOne : readArgs rex opcode width (modrmBytes digit op) .rmOne =
    some ([rmArg rex width (rmField rex op), .imm 1], []) := by
  have h := @readRm_modrmBytes rex digit op hop hx (fun m => [rmArg rex width m.rm])
    (fun bs => some ([.imm 1], bs)) [] [.imm 1] rfl
  rwa [List.append_nil] at h

theorem readArgs_rmCl : readArgs rex opcode width (modrmBytes digit op) .rmCl =
    some ([rmArg rex width (rmField rex op), .reg 8 1], []) := by
  have h := @readRm_modrmBytes rex digit op hop hx (fun m => [rmArg rex width m.rm])
    (fun bs => some ([.reg 8 1], bs)) [] [.reg 8 1] rfl
  rwa [List.append_nil] at h

theorem readArgs_rmCount (b : Byte) :
    readArgs rex opcode width (modrmBytes digit op ++ [b]) .rmCount =
      some ([rmArg rex width (rmField rex op), .imm b.toNat], []) :=
  @readRm_modrmBytes rex digit op hop hx (fun m => [rmArg rex width m.rm])
    (oneMore readCount) [b] [.imm b.toNat] rfl

theorem readArgs_rmImm {imm : List Byte} {a : Arg}
    (himm : readImm (immLength width) width imm = some (a, [])) :
    readArgs rex opcode width (modrmBytes digit op ++ imm) .rmImm =
      some ([rmArg rex width (rmField rex op), a], []) :=
  @readRm_modrmBytes rex digit op hop hx (fun m => [rmArg rex width m.rm])
    (oneMore (readImm (immLength width) width)) imm [a]
    (by rw [oneMore, himm]; rfl)

theorem readArgs_rmImm8 {imm : List Byte} {a : Arg} (himm : readImm 1 width imm = some (a, [])) :
    readArgs rex opcode width (modrmBytes digit op ++ imm) .rmImm8 =
      some ([rmArg rex width (rmField rex op), a], []) :=
  @readRm_modrmBytes rex digit op hop hx (fun m => [rmArg rex width m.rm])
    (oneMore (readImm 1 width)) imm [a]
    (by rw [oneMore, himm]; rfl)

theorem readArgs_regRmImm {imm : List Byte} {a : Arg}
    (himm : readImm (immLength width) width imm = some (a, [])) :
    readArgs rex opcode width (modrmBytes digit op ++ imm) .regRmImm =
      some ([regArg rex width (rexBit rex 2 + (digit &&& 7#8).toNat),
        rmArg rex width (rmField rex op), a], []) :=
  @readRm_modrmBytes rex digit op hop hx
    (fun m => [regArg rex width (rexBit rex 2 + m.reg), rmArg rex width m.rm])
    (oneMore (readImm (immLength width) width)) imm [a]
    (by rw [oneMore, himm]; rfl)

theorem readArgs_regRmImm8 {imm : List Byte} {a : Arg} (himm : readImm 1 width imm = some (a, [])) :
    readArgs rex opcode width (modrmBytes digit op ++ imm) .regRmImm8 =
      some ([regArg rex width (rexBit rex 2 + (digit &&& 7#8).toNat),
        rmArg rex width (rmField rex op), a], []) :=
  @readRm_modrmBytes rex digit op hop hx
    (fun m => [regArg rex width (rexBit rex 2 + m.reg), rmArg rex width m.rm])
    (oneMore (readImm 1 width)) imm [a]
    (by rw [oneMore, himm]; rfl)

end Layouts

theorem instructionOf_of_args {legacy rest : List Byte} {rex : Option Byte} {opcode : Byte}
    {entry : Entry} {args : List Arg} (hlegacy : legacy = [] ∨ legacy = [0x66])
    (hrex : ∀ p ∈ rex, isRex p = true)
    (hopcode : isOpcode opcode = true ∧ opcode ≠ 0x0F ∧ opcode ≠ 0x90)
    (hentry : oneByteEntry opcode (digitOf rest) = some entry)
    (hargs : readArgs rex opcode (operandWidth legacy rex entry.byte) rest entry.layout =
      some (args, [])) :
    instructionOf (legacy ++ (rex.toList ++ opcode :: rest)) = some ⟨entry.op, args⟩ := by
  rw [instructionOf_oneByte hlegacy hrex hopcode.1 hopcode.2.1 hentry, readEntry, hargs]
  exact congrArg some (withNop_of_ne hopcode.2.2 _)

theorem instructionOf_modrm {opcode digit : Byte} {o : Operation} {byte : Bool} {layout : Layout}
    {rex : Option Byte} {op : Operand} {tail : List Byte} {width : Nat} {args : List Arg}
    (hopcode : isOpcode opcode = true ∧ opcode ≠ 0x0F ∧ opcode ≠ 0x90)
    (hrex : ∀ p ∈ rex, isRex p = true) (hop : RmOperand op)
    (hentry : oneByteEntry opcode (digit &&& 7#8).toNat = some ⟨o, byte, layout⟩)
    (hwidth : operandWidth [] rex byte = width)
    (hargs : readArgs rex opcode width (modrmBytes digit op ++ tail) layout = some (args, [])) :
    instructionOf (rex.toList ++ opcode :: (modrmBytes digit op ++ tail)) = some ⟨o, args⟩ := by
  have hdigit := @digitOf_modrmBytes digit op hop tail
  rw [← hwidth] at hargs
  exact @instructionOf_of_args [] _ _ opcode ⟨o, byte, layout⟩ _ (.inl rfl) hrex hopcode
    (hdigit ▸ hentry) hargs

theorem ofLeBytes_leBytes_setWidth {w n : Nat} (v : BitVec w) :
    ofLeBytes (8 * n) (leBytes n v) = v.setWidth (8 * n) := by
  rw [← LittleEndian.leBytes_setWidth v (Nat.le_refl (8 * n)),
    LittleEndian.ofLeBytes_leBytes (Nat.le_refl _)]

theorem readImm_leBytes {w : Nat} (n width : Nat) (v : BitVec w) :
    readImm n width (leBytes n v) =
      some (.imm ((v.setWidth (8 * n)).signExtend width).toNat, []) := by
  have h := @readImm_append n width (leBytes n v) [] (LittleEndian.leBytes_length n v)
  rwa [List.append_nil, ofLeBytes_leBytes_setWidth] at h

theorem leBytes_one (b : Byte) : leBytes 1 b = [b] := by
  rw [leBytes, BitVec.setWidth_eq]
  rfl

theorem readImm_byte (width : Nat) (b : Byte) :
    readImm 1 width [b] = some (.imm (b.signExtend width).toNat, []) := by
  have h := readImm_leBytes 1 width b
  rwa [leBytes_one, BitVec.setWidth_eq] at h

theorem immediate_same (w : Nat) (v : Word) :
    ((v.setWidth w).signExtend w).toNat = v.toNat % 2 ^ w := by
  rw [BitVec.signExtend_eq, BitVec.toNat_setWidth]

/-- A number that is cut to four bytes and extended again is the same exactly when it fits. -/
theorem immediate_dword (v : Word) :
    ((v.setWidth 32).signExtend 64).toNat = v.toNat % 2 ^ 64 ↔ Encoder.fitsInt32 v = true := by
  have hmod : v.toNat % 2 ^ 64 = v.toNat := Nat.mod_eq_of_lt v.isLt
  have hiff : Encoder.fitsInt32 v = true ↔ -2147483648 ≤ v.toInt ∧ v.toInt ≤ 2147483647 := by
    simp [Encoder.fitsInt32]
  rw [hmod, BitVec.toNat_inj, hiff]
  constructor
  · intro h
    have hlo := BitVec.le_toInt (v.setWidth 32)
    have hhi := BitVec.toInt_lt (x := v.setWidth 32)
    have hint := congrArg BitVec.toInt h
    rw [BitVec.toInt_signExtend_of_le (by decide)] at hint
    omega
  · rintro ⟨hlo, hhi⟩
    exact @LittleEndian.signExtend_setWidth 31 v (by decide) (by omega) (by omega)

theorem immediate_byte {v : BitVec 32} (h : fitsInInt8 v = true) {w : Nat} (hw : 32 ≤ w) :
    (v.setWidth 8).signExtend w = v.signExtend w := by
  have hfits := signExtend_of_fitsInInt8 h
  apply BitVec.eq_of_toInt_eq
  rw [BitVec.toInt_signExtend_of_le (by omega), BitVec.toInt_signExtend_of_le hw]
  have hint := congrArg BitVec.toInt hfits
  rwa [BitVec.toInt_signExtend_of_le (by decide)] at hint

theorem argsOf_nil {w : Nat} {args : List Arg} : argsOf w [] = some args ↔ args = [] := by
  rw [argsOf, Option.some.injEq]
  exact eq_comm

theorem argsOf_cons {w : Nat} {op : Operand} {ops : List Operand} {a : Arg} {args : List Arg} :
    argsOf w (op :: ops) = some (a :: args) ↔ argOf w op = some a ∧ argsOf w ops = some args := by
  rw [argsOf]
  constructor
  · intro h
    obtain ⟨a', ha, h⟩ := Option.bind_eq_some_iff.mp h
    obtain ⟨args', hargs, heq⟩ := Option.map_eq_some_iff.mp h
    cases heq
    exact ⟨ha, hargs⟩
  · rintro ⟨ha, hargs⟩
    rw [ha, hargs]
    rfl

/-- The bytes are this operation on the written operands, of this width. -/
def Denoted (o : Option Operation) (w : Nat) (ops : List Operand) (bs : List Byte) : Prop :=
  ∃ op args, o = some op ∧ argsOf w ops = some args ∧ instructionOf bs = some ⟨op, args⟩

section Denoted

variable {o : Option Operation} {o' : Operation} {w : Nat} {ops : List Operand} {bs : List Byte}
  {x y z : Arg} {op dst src : Operand}

theorem denoted_iff {args : List Arg} (hread : instructionOf bs = some ⟨o', args⟩) :
    Denoted o w ops bs ↔ o = some o' ∧ argsOf w ops = some args := by
  constructor
  · rintro ⟨op, args', ho, hargs, hbs⟩
    cases hread.symm.trans hbs
    exact ⟨ho, hargs⟩
  · rintro ⟨ho, hargs⟩
    exact ⟨_, _, ho, hargs, hread⟩

theorem denoted_two (hread : instructionOf bs = some ⟨o', [x, y]⟩) :
    Denoted o w [dst, src] bs ↔ o = some o' ∧ argOf w dst = some x ∧ argOf w src = some y := by
  rw [denoted_iff hread, argsOf_cons, argsOf_cons, argsOf_nil]
  simp only [and_true]

end Denoted

def OfWidth (w : Nat) : Operand → Prop
  | .reg r size => r.val < 16 ∧ widthBits size = w
  | .mem _ => True
  | _ => False

theorem argOf_reg_wide {w n : Nat} {r : Reg} {size : RegSize} {u : Nat} (hu : u ≠ 8) :
    argOf w (.reg r size) = some (.reg u n) ↔
      w = u ∧ n = r.val ∧ r.val < 16 ∧ widthBits size = u := by
  rw [argOf]
  constructor
  · intro h
    split at h
    · next hr =>
        split at h
        · split at h <;> cases h
        · cases h
          exact ⟨rfl, rfl, hr⟩
    · cases h
  · rintro ⟨rfl, rfl, hr⟩
    have hhigh : size ≠ .size8h := by
      rintro rfl
      exact hu hr.2.symm
    rw [if_pos hr, if_neg hhigh]

section Wide

variable {w : Bool} {width u : Nat} {op : Operand} {r : Reg} {size : RegSize}
  (hu : u = 32 ∨ u = 64)

include hu

/-- The operand in the `rm` field is the written one exactly when it is of the width read. -/
theorem rm_matches {regOp : Option Operand} (hop : RmOperand op) :
    argOf width op = some (rmArg (rexByte w regOp (some op) none) u
      (rmField (rexByte w regOp (some op) none) op)) ↔ width = u ∧ OfWidth u op := by
  have hne : u ≠ 8 := by omega
  cases hop with
  | reg r size =>
      rw [rmField, rmArg, regArg_wide hne, argOf_reg_wide hne]
      constructor
      · rintro ⟨hwidth, -, hr, hsize⟩
        exact ⟨hwidth, hr, hsize⟩
      · rintro ⟨hwidth, hr, hsize⟩
        refine ⟨hwidth, ?_, hr, hsize⟩
        have hfield := rmField_reg size hr w regOp
        rw [rmField] at hfield
        injection hfield
  | mem m base hbase =>
      rw [rmField_mem hbase, rmArg, argOf, hbase.base_eq, Option.map_some, Option.some.injEq]
      constructor
      · intro h
        cases h
        exact ⟨rfl, trivial⟩
      · rintro ⟨rfl, -⟩
        rfl

theorem reg_matches {rmOp : Option Operand} :
    argOf width (.reg r size) = some (regArg (rexByte w (some (.reg r size)) rmOp none) u
      (rexBit (rexByte w (some (.reg r size)) rmOp none) 2 + (r.low &&& 7#8).toNat)) ↔
        width = u ∧ OfWidth u (.reg r size) := by
  have hne : u ≠ 8 := by omega
  rw [regArg_wide hne, argOf_reg_wide hne]
  constructor
  · rintro ⟨hwidth, -, hr, hsize⟩
    exact ⟨hwidth, hr, hsize⟩
  · rintro ⟨hwidth, hr, hsize⟩
    exact ⟨hwidth, reg_number hr w size rmOp, hr, hsize⟩

end Wide

theorem imm_matches {w x : Nat} {v : Word} :
    argOf w (.imm v) = some (.imm x) ↔ FitsWidth w v ∧ x = v.toNat % 2 ^ w := by
  rw [argOf]
  constructor
  · intro h
    split at h
    · next hfits =>
        cases h
        exact ⟨hfits, rfl⟩
    · cases h
  · rintro ⟨hfits, rfl⟩
    rw [if_pos hfits]

theorem fitsWidth_word (v : Word) : FitsWidth 64 v := by
  have hlo := BitVec.le_toInt v
  have hhi := BitVec.toInt_lt (x := v)
  exact ⟨hlo, by omega⟩

/-- The operands of the encoders for moves and arithmetic. -/
inductive PlainOperand : Operand → Prop
  | reg (r : Reg) (size : RegSize) : PlainOperand (.reg r size)
  | imm (v : Word) : PlainOperand (.imm v)
  | mem (m : MemOperand) (base : Reg) : BaseOnly m base → PlainOperand (.mem m)

/-- The width that a `W` bit asks for, without a prefix for the operand size. -/
def widthOf (w : Bool) : Nat := if w then 64 else 32

theorem widthOf_wide (w : Bool) : widthOf w = 32 ∨ widthOf w = 64 := by
  cases w
  · exact .inl rfl
  · exact .inr rfl

theorem operandWidth_plain (w : Bool) (regOp rmOp : Option Operand) :
    operandWidth [] (rexByte w regOp rmOp none) false = widthOf w := by
  rw [operandWidth_rexByte]
  rfl

theorem widthBits_eq_widthOf {size : RegSize} :
    widthBits size = widthOf (size == .size64) ↔ size = .size32 ∨ size = .size64 := by
  cases size <;> decide

theorem readImm_wide (w : Bool) (v : BitVec 32) :
    readImm (immLength (widthOf w)) (widthOf w) (leBytes 4 v) =
      some (.imm (v.signExtend (widthOf w)).toNat, []) := by
  have hlength : immLength (widthOf w) = 4 := by cases w <;> rfl
  have himm := readImm_leBytes 4 (widthOf w) v
  rw [hlength, himm, BitVec.setWidth_eq]

theorem imm_wide {w : Bool} {v : Word} :
    argOf (widthOf w) (.imm v) =
      some (.imm ((v.setWidth 32).signExtend (widthOf w)).toNat) ↔
        if w then Encoder.fitsInt32 v = true else FitsWidth 32 v := by
  rw [imm_matches]
  cases w with
  | true =>
      show FitsWidth 64 v ∧ ((v.setWidth 32).signExtend 64).toNat = v.toNat % 2 ^ 64 ↔ _
      rw [immediate_dword, if_pos rfl]
      exact and_iff_right (fitsWidth_word v)
  | false => exact and_iff_left (immediate_same 32 v)

def IsWide (size : RegSize) : Prop := size = .size32 ∨ size = .size64

instance (size : RegSize) : Decidable (IsWide size) := by
  unfold IsWide
  infer_instance

theorem widthBits_pair {size size' : RegSize} :
    widthBits size = widthOf (size' == .size64) ∧ widthBits size' = widthOf (size' == .size64) ↔
      IsWide size ∧ widthBits size' = widthBits size := by
  cases size <;> cases size' <;> decide

instance (w : Nat) (op : Operand) : Decidable (OfWidth w op) := by
  unfold OfWidth
  split <;> infer_instance

/-- Two operands of one width, 32 or 64 bits: general registers of that width, or memory. -/
def WidePair (dst src : Operand) : Prop :=
  IsWide (Encoder.operationSize dst src) ∧
    OfWidth (widthBits (Encoder.operationSize dst src)) dst ∧
    OfWidth (widthBits (Encoder.operationSize dst src)) src

instance (dst src : Operand) : Decidable (WidePair dst src) := by
  unfold WidePair
  infer_instance

/-- The operands of the ModRM byte are the written ones exactly when both have the width that the
encoder takes, and it is 32 or 64 bits. -/
theorem wide_matches {S : RegSize} {op : Operand} {r : Reg} {size : RegSize} (hop : RmOperand op) :
    (argOf (widthBits S) op =
        some (rmArg (rexByte (S == .size64) (some (.reg r size)) (some op) none)
          (widthOf (S == .size64))
          (rmField (rexByte (S == .size64) (some (.reg r size)) (some op) none) op)) ∧
      argOf (widthBits S) (.reg r size) =
        some (regArg (rexByte (S == .size64) (some (.reg r size)) (some op) none)
          (widthOf (S == .size64))
          (rexBit (rexByte (S == .size64) (some (.reg r size)) (some op) none) 2 +
            (r.low &&& 7#8).toNat))) ↔
      IsWide S ∧ OfWidth (widthBits S) op ∧ OfWidth (widthBits S) (.reg r size) := by
  rw [rm_matches (widthOf_wide _) hop, reg_matches (widthOf_wide _), IsWide]
  constructor
  · rintro ⟨⟨hwidth, hrm⟩, -, hreg⟩
    rw [hwidth]
    exact ⟨widthBits_eq_widthOf.mp hwidth, hrm, hreg⟩
  · rintro ⟨hwide, hrm, hreg⟩
    have hwidth := widthBits_eq_widthOf.mpr hwide
    rw [hwidth] at hrm hreg
    exact ⟨⟨hwidth, hrm⟩, hwidth, hreg⟩

section Forms

variable {opcode digit : Byte} {o : Operation} {w : Bool} {r : Reg} {size : RegSize} {op : Operand}
  (hopcode : isOpcode opcode = true ∧ opcode ≠ 0x0F ∧ opcode ≠ 0x90) (hop : RmOperand op)

include hopcode hop

theorem instructionOf_rmReg (hentry : ∀ digit, oneByteEntry opcode digit = some ⟨o, false, .rmReg⟩) :
    instructionOf ((rexByte w (some (.reg r size)) (some op) none).toList ++
        opcode :: modrmBytes r.low op) =
      some ⟨o, [rmArg (rexByte w (some (.reg r size)) (some op) none) (widthOf w)
          (rmField (rexByte w (some (.reg r size)) (some op) none) op),
        regArg (rexByte w (some (.reg r size)) (some op) none) (widthOf w)
          (rexBit (rexByte w (some (.reg r size)) (some op) none) 2 + (r.low &&& 7#8).toNat)]⟩ := by
  refine @instructionOf_of_args [] _ _ opcode _ _ (.inl rfl) rexByte_isRex hopcode (hentry _) ?_
  rw [operandWidth_plain]
  exact readArgs_rmReg hop (hop.noIndex w _)

theorem instructionOf_regRm (hentry : ∀ digit, oneByteEntry opcode digit = some ⟨o, false, .regRm⟩) :
    instructionOf ((rexByte w (some (.reg r size)) (some op) none).toList ++
        opcode :: modrmBytes r.low op) =
      some ⟨o, [regArg (rexByte w (some (.reg r size)) (some op) none) (widthOf w)
          (rexBit (rexByte w (some (.reg r size)) (some op) none) 2 + (r.low &&& 7#8).toNat),
        rmArg (rexByte w (some (.reg r size)) (some op) none) (widthOf w)
          (rmField (rexByte w (some (.reg r size)) (some op) none) op)]⟩ := by
  refine @instructionOf_of_args [] _ _ opcode _ _ (.inl rfl) rexByte_isRex hopcode (hentry _) ?_
  rw [operandWidth_plain]
  exact readArgs_regRm hop (hop.noIndex w _)

theorem instructionOf_rm
    (hentry : oneByteEntry opcode (digit &&& 7#8).toNat = some ⟨o, false, .rm⟩) :
    instructionOf ((rexByte w none (some op) none).toList ++ opcode :: modrmBytes digit op) =
      some ⟨o, [rmArg (rexByte w none (some op) none) (widthOf w)
        (rmField (rexByte w none (some op) none) op)]⟩ := by
  have hargs := @readArgs_rm (rexByte w none (some op) none) opcode digit op (widthOf w) hop
    (hop.noIndex w _)
  rw [← List.append_nil (modrmBytes digit op)] at hargs ⊢
  exact instructionOf_modrm hopcode rexByte_isRex hop hentry (operandWidth_plain w _ _) hargs

theorem instructionOf_rmImm {k : Nat} (v : BitVec k)
    (hentry : oneByteEntry opcode (digit &&& 7#8).toNat = some ⟨o, false, .rmImm⟩) :
    instructionOf ((rexByte w none (some op) none).toList ++
        opcode :: (modrmBytes digit op ++ leBytes 4 v)) =
      some ⟨o, [rmArg (rexByte w none (some op) none) (widthOf w)
          (rmField (rexByte w none (some op) none) op),
        .imm ((v.setWidth 32).signExtend (widthOf w)).toNat]⟩ := by
  have hlength : immLength (widthOf w) = 4 := by cases w <;> rfl
  apply instructionOf_modrm hopcode rexByte_isRex hop hentry (operandWidth_plain w _ _)
  apply readArgs_rmImm hop (hop.noIndex w _)
  rw [hlength]
  exact readImm_leBytes 4 (widthOf w) v

end Forms

/-- Whatever bytes the encoder succeeds with, they have the property. -/
def Encoder.Yields (P : List Byte → Prop) (m : Encoder Unit) : Prop :=
  ∀ env es, m env = (es, .ok ()) → P (bytesOf es)

theorem yields_diag {P : List Byte → Prop} {line : Nat} {category message : String} :
    (Encoder.diag line category message).Yields P := by
  intro env es h
  cases h

theorem yields_of_writes {P : List Byte → Prop} {m : Encoder Unit} {bs : List Byte}
    [hm : Encoder.Writes m bs] (h : P bs) : m.Yields P := by
  intro env es hrun
  rw [hm.bytes _ _ _ hrun]
  exact h

theorem yields_orDiag_bind {P : List Byte → Prop} {α : Type} {line : Nat} {category message : String}
    {o : Option α} {f : α → Encoder Unit} (h : ∀ a, o = some a → (f a).Yields P) :
    (Encoder.orDiag line category message o >>= f).Yields P := by
  intro env es hrun
  cases o with
  | none => cases hrun
  | some a =>
      have hsome : Encoder.orDiag line category message (some a) env = ([], .ok a) := rfl
      rw [encoder_bind hsome] at hrun
      injection hrun with hbytes hok
      rw [← hbytes, List.nil_append]
      exact h a rfl _ _ (Prod.ext rfl hok)

theorem yields_bind {P : List Byte → Prop} {α : Type} {m : Encoder α} {f : α → Encoder Unit}
    {bs : List Byte} [hm : Encoder.Writes m bs] (h : ∀ a, (f a).Yields fun cs => P (bs ++ cs)) :
    (m >>= f).Yields P := by
  intro env es hrun
  obtain ⟨es', a, es'', hfirst, hrest, rfl⟩ := Encoder.bind_eq_ok hrun
  rw [bytesOf_append, hm.bytes _ _ _ hfirst]
  exact h a _ _ hrest

theorem yields_modrm_imm {P : List Byte → Prop} {digit : Byte} {v : Word} :
    (Encoder.emitModrmSib digit (.imm v)).Yields P := by
  intro env es h
  cases h

theorem yields_modrm_imm_bind {P : List Byte → Prop} {digit : Byte} {v : Word}
    {f : Unit → Encoder Unit} : (Encoder.emitModrmSib digit (.imm v) >>= f).Yields P := by
  intro env es h
  obtain ⟨es', a, es'', hfirst, -, -⟩ := Encoder.bind_eq_ok h
  cases hfirst

theorem yields_pure_bind {P : List Byte → Prop} {α : Type} {a : α} {f : α → Encoder Unit}
    (h : (f a).Yields P) : ((pure a : Encoder α) >>= f).Yields P := by
  intro env es hrun
  obtain ⟨es', b, es'', hfirst, hrest, rfl⟩ := Encoder.bind_eq_ok hrun
  cases hfirst
  exact h _ _ hrest

theorem yields_diag_bind {P : List Byte → Prop} {α : Type} {line : Nat} {category message : String}
    {f : α → Encoder Unit} : ((Encoder.diag line category message : Encoder α) >>= f).Yields P := by
  intro env es hrun
  obtain ⟨es', b, es'', hfirst, -, -⟩ := Encoder.bind_eq_ok hrun
  cases hfirst

end X86Assembler
