import X86Assembler.ArithmeticEncoding
import X86Assembler.FurtherEncoders
import X86Assembler.MoveEncoding
import X86Assembler.XchgEncoding

namespace X86Assembler

open CString (Byte)
open Encoder (encodeMov encodeMovMemImm encodeArithmetic encodeArithmeticMemImm encodeUnaryArithmetic
  encodeXchg encodeXchgRm encodeImul encodeDivIdivMul encodeGroup3 encodeTest encodeTestImm
  encodeShift encodeShiftBy machineEncoder operationSize fitsInt32 rexByte modrmBytes
  Writes AroundModrm)
open LittleEndian (leBytes)
open MachineCode

/-- The operation of a move, an exchange, arithmetic or a shift. -/
def generalOperation (type : InstType) : Option Operation :=
  match type with
  | .mov => some .mov
  | .xchg => some .xchg
  | type => (arithmeticOperation type).or (sizedOperation type)

/-- The widths of the operands: the count of a shift is one byte, and all others have the width of
the first register. -/
def generalWidths (inst : ParsedInstruction) : List Nat :=
  if isShift inst.type then
    [widthBits (Encoder.operandSize (inst.operands.headD .none)), 8].take inst.operands.length
  else inst.operands.map fun _ => operandsWidth inst.operands

def impliedCount (inst : ParsedInstruction) : List Arg :=
  if isShift inst.type ∧ inst.operands.length = 1 then [.imm 1] else []

def generalMeaning (inst : ParsedInstruction) : Option Instruction :=
  (generalOperation inst.type).bind fun o =>
    (argsAt (generalWidths inst) inst.operands).map fun args => ⟨o, args ++ impliedCount inst⟩

/-- Two instructions with one effect: an exchange has its operands in either order. -/
def SameEffect (i j : Instruction) : Prop :=
  i.normal = j.normal ∨ ∃ a b, i = ⟨.xchg, [a, b]⟩ ∧ j = ⟨.xchg, [b, a]⟩

/-- The bytes are an instruction with the effect of the written one. -/
def GeneralDenoted (inst : ParsedInstruction) (bs : List Byte) : Prop :=
  ∃ i j, instructionOf bs = some i ∧ generalMeaning inst = some j ∧ SameEffect i j

/-- The operands with memory that come out right: a register of 32 or 64 bits beside it, a number
of four bytes, or a count of one byte. -/
def AddressedFits (inst : ParsedInstruction) : Prop :=
  match inst.operands with
  | [.mem m] => AddressFits m
  | [.mem m, .imm v] => AddressFits m ∧ if isShift inst.type then FitsWidth 8 v else fitsInt32 v = true
  | [.mem m, .reg r size] => AddressFits m ∧ (isShift inst.type = true ∨ WideRegister r size)
  | [.reg r size, .mem m] => AddressFits m ∧ WideRegister r size
  | [.reg r size, .mem m, .imm v] => AddressFits m ∧ WideRegister r size ∧ ImmFits v size
  | _ => False

section Meaning

variable {inst : ParsedInstruction} {o : Operation} {args : List Arg} {bs : List Byte}

theorem generalMeaning_iff (ho : generalOperation inst.type = some o)
    (himplied : impliedCount inst = []) :
    generalMeaning inst = some ⟨o, args⟩ ↔ argsAt (generalWidths inst) inst.operands = some args := by
  rw [generalMeaning, ho, himplied, Option.bind_some]
  constructor
  · intro h
    obtain ⟨args', hargs, heq⟩ := Option.map_eq_some_iff.mp h
    rw [List.append_nil] at heq
    cases heq
    exact hargs
  · intro h
    rw [h, Option.map_some, List.append_nil]

/-- Not a move of a number into a register, which alone has another normal form. -/
def NoNumberLoad (inst : ParsedInstruction) : Prop :=
  inst.type ≠ .mov ∨ ∀ r size v, inst.operands ≠ [.reg r size, .imm v]

theorem argIn_number {w v : Nat} {op : Operand} (h : argIn w op = some (.imm v)) :
    ∃ u, op = .imm u := by
  cases op with
  | imm u => exact ⟨u, rfl⟩
  | mem m =>
      obtain ⟨a, -, heq⟩ := Option.map_eq_some_iff.mp h
      cases heq
  | reg r size =>
      have hreg : argOf w (.reg r size) = some (.imm v) := h
      rw [argOf] at hreg
      split at hreg
      · split at hreg
        · split at hreg <;> cases hreg
        · cases hreg
      · cases hreg
  | none | label _ | labelDiff _ _ | string _ => cases h

theorem argIn_register {w u n : Nat} {op : Operand} (h : argIn w op = some (.reg u n)) :
    ∃ r size, op = .reg r size := by
  cases op with
  | reg r size => exact ⟨r, size, rfl⟩
  | mem m =>
      obtain ⟨a, -, heq⟩ := Option.map_eq_some_iff.mp h
      cases heq
  | imm v =>
      have himm : argOf w (.imm v) = some (.reg u n) := h
      rw [argOf] at himm
      split at himm <;> cases himm
  | none | label _ | labelDiff _ _ | string _ => cases h

theorem generalOperation_mov {type : InstType} (h : generalOperation type = some .mov) :
    type = .mov := by
  cases type <;> first
    | rfl
    | cases h

theorem generalOperation_xchg {type : InstType} (h : generalOperation type = some .xchg) :
    type = .xchg := by
  cases type <;> first
    | rfl
    | cases h

theorem argsAt_length {ws : List Nat} {ops : List Operand} (h : argsAt ws ops = some args) :
    args.length = ops.length := by
  induction ops generalizing ws args with
  | nil =>
      cases ws with
      | nil =>
          cases h
          rfl
      | cons w ws => cases h
  | cons op ops ih =>
      cases ws with
      | nil => cases h
      | cons w ws =>
          obtain ⟨a, -, h⟩ := Option.bind_eq_some_iff.mp h
          obtain ⟨args', hargs, rfl⟩ := Option.map_eq_some_iff.mp h
          exact congrArg (· + 1) (ih hargs)

theorem generalMeaning_plain (hplain : NoNumberLoad inst) {u n v : Nat} :
    generalMeaning inst ≠ some ⟨.mov, [.reg u n, .imm v]⟩ := by
  intro h
  obtain ⟨o, ho, hargs⟩ := Option.bind_eq_some_iff.mp h
  obtain ⟨args, hargs, heq⟩ := Option.map_eq_some_iff.mp hargs
  injection heq with hop heq
  subst hop
  have htype := generalOperation_mov ho
  have hshift : isShift inst.type = false := by rw [htype]; rfl
  rw [impliedCount, if_neg (by rw [hshift]; exact fun h => nomatch h.1), List.append_nil] at heq
  subst heq
  have hwidths : generalWidths inst = inst.operands.map fun _ => operandsWidth inst.operands := by
    rw [generalWidths, hshift]
    rfl
  rw [hwidths] at hargs
  have hlen := argsAt_length hargs
  match hops : inst.operands, hlen with
  | [dst, src], _ =>
      rw [hops] at hargs
      obtain ⟨hdst, hsrc⟩ := argsAt_two.mp hargs
      obtain ⟨r, size, rfl⟩ := argIn_register hdst
      obtain ⟨u, rfl⟩ := argIn_number hsrc
      rcases hplain with hno | hno
      · exact hno htype
      · exact hno r size u hops

theorem sameEffect_iff (hplain : NoNumberLoad inst) {i j : Instruction}
    (hj : generalMeaning inst = some j) : i.normal = j.normal ↔ i = j := by
  have hkept : ∀ k : Instruction, (∀ n v, k ≠ ⟨.mov, [.reg 32 n, .imm v]⟩) → k.normal = k := by
    intro k hk
    unfold Instruction.normal
    split
    · next n v => exact absurd rfl (hk n v)
    · rfl
  have hnormal : j.normal = j := by
    apply hkept
    rintro n v rfl
    exact generalMeaning_plain hplain hj
  rw [hnormal]
  constructor
  · intro h
    rw [← h]
    symm
    apply hkept
    rintro n v rfl
    rw [← h] at hj
    exact generalMeaning_plain hplain hj
  · rintro rfl
    exact hnormal

theorem generalDenoted_iff (hplain : NoNumberLoad inst) {i : Instruction} (hne : i.op ≠ .xchg)
    (hread : instructionOf bs = some i) : GeneralDenoted inst bs ↔ generalMeaning inst = some i := by
  constructor
  · rintro ⟨i', j, hi, hj, hsame | ⟨a, b, rfl, -⟩⟩
    · cases hread.symm.trans hi
      rw [(sameEffect_iff hplain hj).mp hsame]
      exact hj
    · cases hread.symm.trans hi
      exact absurd rfl hne
  · intro hj
    exact ⟨i, i, hread, hj, .inl rfl⟩

theorem generalDenoted_xchg (htype : inst.type = .xchg) {a b : Arg}
    (hread : instructionOf bs = some ⟨.xchg, [a, b]⟩) :
    GeneralDenoted inst bs ↔
      generalMeaning inst = some ⟨.xchg, [a, b]⟩ ∨ generalMeaning inst = some ⟨.xchg, [b, a]⟩ := by
  have hplain : NoNumberLoad inst := .inl (by rw [htype]; decide)
  constructor
  · rintro ⟨i, j, hi, hj, hsame | ⟨a', b', rfl, rfl⟩⟩
    · cases hread.symm.trans hi
      rw [(sameEffect_iff hplain hj).mp hsame]
      exact .inl hj
    · cases hread.symm.trans hi
      exact .inr hj
  · rintro (hj | hj)
    · exact ⟨_, _, hread, hj, .inl rfl⟩
    · exact ⟨_, _, hread, hj, .inr ⟨a, b, rfl, rfl⟩⟩

theorem not_generalDenoted (hread : instructionOf bs = none) : ¬ GeneralDenoted inst bs := by
  rintro ⟨i, -, hi, -⟩
  cases hread.symm.trans hi

end Meaning

theorem instructionOf_accepted {rex : Option Byte} {opcode digit : Byte} {op : Operand} {tail : List Byte}
    {entry : Entry} (hop : Accepted op) (hrex : ∀ p ∈ rex, isRex p = true)
    (hopcode : PlainOpcode opcode)
    (hentry : oneByteEntry opcode (digit &&& 7#8).toNat = some entry) :
    instructionOf (rex.toList ++ opcode :: (modrmBytes digit op ++ tail)) =
      readEntry [] rex opcode (modrmBytes digit op ++ tail) entry := by
  have hdigit := @digitOf_accepted digit op hop tail
  have hone := @instructionOf_oneByte [] (modrmBytes digit op ++ tail) rex opcode entry (.inl rfl) hrex
    hopcode.1 hopcode.2.1 (hdigit ▸ hentry)
  have hsame : withNop opcode = id := funext (withNop_of_ne hopcode.2.2)
  rw [hsame, Option.map_id] at hone
  exact hone

section Forms

variable {inst : ParsedInstruction} {o : Operation} {m : MemOperand} {r : Reg} {size : RegSize}
  {opcode digit : Byte} {w : Bool} {layout : Layout} {tail bs : List Byte} {F : Prop}
  (hm : Addressable m)

include hm

theorem instructionOf_memory {rex : Option Byte} (args : ModRm → List Arg)
    (next : List Byte → Option (List Arg × List Byte)) (more : List Arg)
    (hrex : RexFor rex (.mem m))
    (hbytes : instructionOf bs =
      readEntry [] rex opcode (modrmBytes digit (.mem m) ++ tail) ⟨o, false, layout⟩)
    (hlayout : readArgs rex opcode (operandWidth [] rex false) (modrmBytes digit (.mem m) ++ tail)
      layout = readRm rex (modrmBytes digit (.mem m) ++ tail) args next)
    (hnext : next tail = some (more, [])) (htail : tail.length < 4 ∨ next (tail.drop 4) = none) :
    (∃ field, ReadAsField rex (.mem m) field ∧
      instructionOf bs = some ⟨o, args ⟨(digit &&& 7#8).toNat, field⟩ ++ more⟩) ∨
    ¬ AddressFits m ∧ instructionOf bs = none := by
  rcases readRm_accepted digit (.mem m hm) hrex with ⟨field, hread, hargs⟩ | ⟨hno, hnone⟩
  · refine .inl ⟨field, hread, ?_⟩
    rw [hargs args next tail more hnext] at hlayout
    rw [hbytes, readEntry, hlayout]
  · refine .inr ⟨hno 0, ?_⟩
    rw [hnone args next tail htail] at hlayout
    rw [hbytes, readEntry, hlayout]

omit hm in
theorem pair_matches {rex : Option Byte} {field : RmField} {rmOp : Option Operand} {S : RegSize}
    (hfield : ReadAsField rex (.mem m) field) (hdigit : digit &&& 7#8 = r.low &&& 7#8) :
    argIn (widthBits S) (.mem m) = some (rmArg rex (prefixWidth (S == .size64) []) field) ∧
        argIn (widthBits S) (.reg r size) =
          some (regArg (rexByte w (some (.reg r size)) rmOp none) (prefixWidth (S == .size64) [])
            (rexBit (rexByte w (some (.reg r size)) rmOp none) 2 + (digit &&& 7#8).toNat)) ↔
      IsWide S ∧ AddressFits m ∧ RmFits (widthBits S) (.reg r size) := by
  have hne := prefixWidth_ne (S == .size64) []
  rw [hfield _ _ (.inl hne), regField_matches hne hdigit]
  refine Iff.trans ?_ (wide_iff (P := fun u => AddressFits m ∧ RmFits u (.reg r size)))
  exact ⟨fun ⟨⟨hw, hmem⟩, _, hreg⟩ => ⟨hw, hmem, hreg⟩, fun ⟨hw, hmem, hreg⟩ => ⟨⟨hw, hmem⟩, hw, hreg⟩⟩

omit hm in
theorem wideRegister_iff : IsWide size ∧ AddressFits m ∧ RmFits (widthBits size) (.reg r size) ↔
    AddressFits m ∧ WideRegister r size :=
  ⟨fun ⟨hwide, hmem, hr, _⟩ => ⟨hmem, hr, hwide⟩, fun ⟨hmem, hr, hwide⟩ => ⟨hwide, hmem, hr, rfl⟩⟩

theorem generalDenoted_more {c : Arg} (hplain : NoNumberLoad inst) (hne : o ≠ .xchg)
    (hopcode : PlainOpcode opcode) {next : List Byte → Option (List Arg × List Byte)}
    (hentry : oneByteEntry opcode (digit &&& 7#8).toNat = some ⟨o, false, layout⟩)
    (hlayout : ∀ rex bs, readArgs rex opcode 64 bs layout =
      readRm rex bs (fun m => [rmArg rex 64 m.rm]) next)
    (hnext : next tail = some ([c], [])) (htail : tail.length < 4 ∨ next (tail.drop 4) = none)
    (hmeaning : ∀ a, generalMeaning inst = some ⟨o, [a, c]⟩ ↔ argIn 64 (.mem m) = some a ∧ F) :
    GeneralDenoted inst ((rexByte true none (some (.mem m)) none).toList ++
      opcode :: (modrmBytes digit (.mem m) ++ tail)) ↔ AddressFits m ∧ F := by
  have hu := operandWidth_rexByte true none (some (.mem m)) []
  have hbytes := @instructionOf_accepted _ opcode digit _ tail _ (.mem m hm)
    (@rexByte_isRex true none (some (.mem m)) none) hopcode hentry
  rcases instructionOf_memory hm (fun m' => [rmArg _ 64 m'.rm]) next _
    (rexFor_rexByte _ _ _) hbytes (by rw [hu]; exact hlayout _ _) hnext htail with
    ⟨field, hfield, hread⟩ | ⟨hno, hnone⟩
  · rw [generalDenoted_iff hplain hne hread, List.singleton_append, hmeaning]
    exact and_congr_left fun _ => (hfield _ _ (.inl (by decide))).trans (and_iff_right rfl)
  · exact iff_of_false (not_generalDenoted hnone) fun h => hno h.1

section Plain

variable (ho : generalOperation inst.type = some o) (hshift : isShift inst.type = false)

include ho hshift

omit hm in
theorem generalMeaning_two {x y : Operand} {a b : Arg} (hops : inst.operands = [x, y]) :
    generalMeaning inst = some ⟨o, [a, b]⟩ ↔
      argIn (operandsWidth [x, y]) x = some a ∧ argIn (operandsWidth [x, y]) y = some b := by
  have hcount : impliedCount inst = [] := if_neg (by rw [hshift]; exact fun h => nomatch h.1)
  have hwidths : generalWidths inst = [operandsWidth [x, y], operandsWidth [x, y]] := by
    rw [generalWidths, hshift, hops]
    rfl
  rw [generalMeaning_iff ho hcount, hops, hwidths, argsAt_two]

theorem generalDenoted_store (hops : inst.operands = [.mem m, .reg r size]) (hne : o ≠ .xchg)
    (hopcode : PlainOpcode opcode)
    (hentry : ∀ digit, oneByteEntry opcode digit = some ⟨o, false, .rmReg⟩) :
    GeneralDenoted inst ((rexByte (size == .size64) (some (.reg r size)) (some (.mem m)) none).toList ++
      opcode :: modrmBytes r.low (.mem m)) ↔ AddressFits m ∧ WideRegister r size := by
  rw [← List.append_nil (modrmBytes r.low (.mem m))]
  have hplain : NoNumberLoad inst := .inr (by rw [hops]; rintro r size v ⟨⟩)
  have hu := operandWidth_rexByte (size == .size64) (some (.reg r size)) (some (.mem m)) []
  have hbytes := @instructionOf_accepted _ opcode r.low _ [] _ (.mem m hm)
    (@rexByte_isRex (size == .size64) (some (.reg r size)) (some (.mem m)) none) hopcode (hentry _)
  rcases instructionOf_memory hm
    (fun m' => [rmArg _ (operandWidth [] _ false) m'.rm,
      regArg _ (operandWidth [] _ false) (rexBit _ 2 + m'.reg)])
    (fun bs => some ([], bs)) [] (rexFor_rexByte _ _ _) hbytes rfl rfl (.inl (by decide)) with
    ⟨field, hfield, hread⟩ | ⟨hno, hnone⟩
  · rw [generalDenoted_iff hplain hne hread, List.append_nil, generalMeaning_two ho hshift hops, hu]
    exact (pair_matches hfield rfl).trans wideRegister_iff
  · exact iff_of_false (not_generalDenoted hnone) fun h => hno h.1

theorem generalDenoted_load {rex : Option Byte}
    (hrex : rex = rexByte (size == .size64) (some (.reg r size)) (some (.mem m)) none)
    (hops : inst.operands = [.reg r size, .mem m]) (hne : o ≠ .xchg)
    (hbytes : instructionOf bs =
      readEntry [] rex opcode (modrmBytes r.low (.mem m) ++ []) ⟨o, false, .regRm⟩) :
    GeneralDenoted inst bs ↔ AddressFits m ∧ WideRegister r size := by
  subst hrex
  have hplain : NoNumberLoad inst := .inr (by rw [hops]; rintro r size v ⟨⟩)
  have hu := operandWidth_rexByte (size == .size64) (some (.reg r size)) (some (.mem m)) []
  rcases instructionOf_memory hm
    (fun m' => [regArg _ (operandWidth [] _ false) (rexBit _ 2 + m'.reg),
      rmArg _ (operandWidth [] _ false) m'.rm])
    (fun bs => some ([], bs)) [] (rexFor_rexByte _ _ _) hbytes rfl rfl (.inl (by decide)) with
    ⟨field, hfield, hread⟩ | ⟨hno, hnone⟩
  · rw [generalDenoted_iff hplain hne hread, List.append_nil, generalMeaning_two ho hshift hops, hu,
      and_comm]
    exact (pair_matches hfield rfl).trans wideRegister_iff
  · exact iff_of_false (not_generalDenoted hnone) fun h => hno h.1

theorem generalDenoted_one (hops : inst.operands = [.mem m]) (hne : o ≠ .xchg)
    (hopcode : PlainOpcode opcode)
    (hentry : oneByteEntry opcode (digit &&& 7#8).toNat = some ⟨o, false, .rm⟩) :
    GeneralDenoted inst ((rexByte true none (some (.mem m)) none).toList ++
      opcode :: modrmBytes digit (.mem m)) ↔ AddressFits m := by
  rw [← List.append_nil (modrmBytes digit (.mem m))]
  have hplain : NoNumberLoad inst := .inr (by rw [hops]; rintro r size v ⟨⟩)
  have hcount : impliedCount inst = [] := if_neg (by rw [hshift]; exact fun h => nomatch h.1)
  have hwidths : generalWidths inst = [64] := by
    rw [generalWidths, hshift, hops]
    rfl
  have hu := operandWidth_rexByte true none (some (.mem m)) []
  have hbytes := @instructionOf_accepted _ opcode digit _ [] _ (.mem m hm)
    (@rexByte_isRex true none (some (.mem m)) none) hopcode hentry
  rcases instructionOf_memory hm (fun m' => [rmArg _ (operandWidth [] _ false) m'.rm])
    (fun bs => some ([], bs)) [] (rexFor_rexByte _ _ _) hbytes rfl rfl (.inl (by decide)) with
    ⟨field, hfield, hread⟩ | ⟨hno, hnone⟩
  · rw [generalDenoted_iff hplain hne hread, generalMeaning_iff ho hcount, hops, hwidths,
      List.append_nil, argsAt_one, hu]
    exact (hfield _ _ (.inl (by decide))).trans (and_iff_right rfl)
  · exact iff_of_false (not_generalDenoted hnone) hno

theorem generalDenoted_number {v : Word} (hops : inst.operands = [.mem m, .imm v]) (hne : o ≠ .xchg)
    (hopcode : PlainOpcode opcode) {next : List Byte → Option (List Arg × List Byte)}
    (hentry : oneByteEntry opcode (digit &&& 7#8).toNat = some ⟨o, false, layout⟩)
    (hlayout : ∀ rex bs, readArgs rex opcode 64 bs layout =
      readRm rex bs (fun m => [rmArg rex 64 m.rm]) next)
    (hnext : next tail = some ([.imm ((v.setWidth 32).signExtend 64).toNat], []))
    (htail : tail.length < 4 ∨ next (tail.drop 4) = none) :
    GeneralDenoted inst ((rexByte true none (some (.mem m)) none).toList ++
      opcode :: (modrmBytes digit (.mem m) ++ tail)) ↔ AddressFits m ∧ fitsInt32 v = true := by
  refine generalDenoted_more hm (.inr (by rw [hops]; rintro r size v ⟨⟩)) hne hopcode hentry hlayout
    hnext htail ?_
  intro a
  rw [generalMeaning_two ho hshift hops]
  exact and_congr_right fun _ => @imm_wide true v

end Plain

omit hm in
theorem memory_ne_register {rex : Option Byte} {w u n : Nat} :
    argIn w (.mem m) ≠ some (regArg rex u n) := by
  intro h
  obtain ⟨a, -, heq⟩ := Option.map_eq_some_iff.mp h
  rw [regArg] at heq
  split at heq <;> cases heq

theorem generalDenoted_exchange (htype : inst.type = .xchg)
    (hops : inst.operands = [.mem m, .reg r size] ∨ inst.operands = [.reg r size, .mem m]) :
    GeneralDenoted inst ((rexByte (size == .size64) (some (.reg r size)) (some (.mem m)) none).toList ++
      0x87 :: modrmBytes r.low (.mem m)) ↔ AddressFits m ∧ WideRegister r size := by
  rw [← List.append_nil (modrmBytes r.low (.mem m))]
  have ho : generalOperation inst.type = some .xchg := by rw [htype]; rfl
  have hshift : isShift inst.type = false := by rw [htype]; rfl
  have hu := operandWidth_rexByte (size == .size64) (some (.reg r size)) (some (.mem m)) []
  have hbytes := @instructionOf_accepted _ 0x87 r.low _ [] _ (.mem m hm)
    (@rexByte_isRex (size == .size64) (some (.reg r size)) (some (.mem m)) none)
    ⟨by decide, by decide, by decide⟩ rfl
  rcases instructionOf_memory hm
    (fun m' => [rmArg _ (operandWidth [] _ false) m'.rm,
      regArg _ (operandWidth [] _ false) (rexBit _ 2 + m'.reg)])
    (fun bs => some ([], bs)) [] (rexFor_rexByte _ _ _) hbytes rfl rfl (.inl (by decide)) with
    ⟨field, hfield, hread⟩ | ⟨hno, hnone⟩
  · rw [generalDenoted_xchg htype hread, hu]
    rcases hops with hops | hops
    · rw [generalMeaning_two ho hshift hops, generalMeaning_two ho hshift hops]
      refine Iff.trans (or_iff_left ?_) ((pair_matches hfield rfl).trans wideRegister_iff)
      exact fun h => memory_ne_register h.1
    · rw [generalMeaning_two ho hshift hops, generalMeaning_two ho hshift hops]
      refine Iff.trans (or_iff_right ?_)
        (and_comm.trans ((pair_matches hfield rfl).trans wideRegister_iff))
      exact fun h => memory_ne_register h.2
  · exact iff_of_false (not_generalDenoted hnone) fun h => hno h.1

end Forms

theorem shift_ne_xchg (number : Nat) : shift number ≠ .xchg := by
  unfold shift
  split <;> decide

theorem generalOperation_sized {type : InstType} {o : Operation} (h : sizedOperation type = some o) :
    generalOperation type = some o := by
  cases type <;> first
    | exact h
    | cases h

section Shifts

variable {inst : ParsedInstruction} {m : MemOperand} {d : Byte} {count : Operand}
  (ho : sizedOperation inst.type = some (shift (d &&& 7#8).toNat)) (hshift : isShift inst.type = true)

include hshift

theorem shift_noLoad : NoNumberLoad inst := by
  refine .inl fun htype => ?_
  rw [htype] at hshift
  cases hshift

include ho

theorem generalMeaning_shiftOne {a : Arg} (hops : inst.operands = [.mem m]) :
    generalMeaning inst = some ⟨shift (d &&& 7#8).toNat, [a, .imm 1]⟩ ↔
      argIn 64 (.mem m) = some a ∧ True := by
  have hcount : impliedCount inst = [.imm 1] := if_pos ⟨hshift, by rw [hops]; rfl⟩
  have hwidths : generalWidths inst = [64] := by
    rw [generalWidths, hshift, hops]
    rfl
  rw [generalMeaning, generalOperation_sized ho, hcount, Option.bind_some, hwidths, hops, and_true]
  constructor
  · intro h
    obtain ⟨args, hargs, heq⟩ := Option.map_eq_some_iff.mp h
    injection heq with _ heq
    have hone : args = [a] := @List.append_cancel_right _ _ [.imm 1] _ heq
    exact argsAt_one.mp (hone ▸ hargs)
  · intro h
    rw [argsAt_one.mpr h]
    rfl

theorem generalMeaning_shiftCount {a c : Arg} (hops : inst.operands = [.mem m, count]) :
    generalMeaning inst = some ⟨shift (d &&& 7#8).toNat, [a, c]⟩ ↔
      argIn 64 (.mem m) = some a ∧ argIn 8 count = some c := by
  have hcount : impliedCount inst = [] := if_neg (by rw [hops]; exact fun h => nomatch h.2)
  have hwidths : generalWidths inst = [64, 8] := by
    rw [generalWidths, hshift, hops]
    rfl
  rw [generalMeaning_iff (generalOperation_sized ho) hcount, hwidths, hops, argsAt_two]

variable (hm : Addressable m)

include hm

omit ho in
theorem generalDenoted_shiftOne {C : Prop}
    (hmeaning : ∀ a, generalMeaning inst = some ⟨shift (d &&& 7#8).toNat, [a, .imm 1]⟩ ↔
      argIn 64 (.mem m) = some a ∧ C) :
    GeneralDenoted inst ((rexByte true none (some (.mem m)) none).toList ++
      0xD1 :: modrmBytes d (.mem m)) ↔ AddressFits m ∧ C := by
  rw [← List.append_nil (modrmBytes d (.mem m))]
  exact @generalDenoted_more inst _ m 0xD1 d .rmOne [] C hm (.imm 1) (shift_noLoad hshift)
    (shift_ne_xchg _) (shift_opcode false (.inr (.inl rfl))) (fun bs => some ([.imm 1], bs)) (shift_entry false _).1
    (fun _ _ => rfl) rfl (.inl (by decide)) hmeaning

theorem yields_shiftOne (hops : inst.operands = [.mem m]) :
    (encodeShiftBy d (.mem m) (.number 1)).Yields fun bs => GeneralDenoted inst bs ↔ AddressFits m := by
  unfold encodeShiftBy
  dsimp only
  rw [if_pos (by rfl)]
  refine yields_of_writes ?_
  rw [← and_true (AddressFits m)]
  exact generalDenoted_shiftOne hshift hm fun a => generalMeaning_shiftOne ho hshift hops

theorem yields_shiftCl (hops : inst.operands = [.mem m, .reg 1 .size8]) :
    (encodeShiftBy d (.mem m) .cl).Yields fun bs => GeneralDenoted inst bs ↔ AddressFits m := by
  unfold encodeShiftBy
  dsimp only
  refine yields_of_writes ?_
  rw [← and_true (AddressFits m)]
  have h := @generalDenoted_more inst _ m 0xD3 d .rmCl [] True hm (.reg 8 1) (shift_noLoad hshift)
    (shift_ne_xchg _) (shift_opcode false (.inr (.inr rfl))) (fun bs => some ([.reg 8 1], bs))
    (shift_entry false _).2.1 (fun _ _ => rfl) rfl (.inl (by decide)) ?_
  · rwa [List.append_nil] at h
  · intro a
    rw [generalMeaning_shiftCount ho hshift hops]
    exact and_congr_right fun _ => iff_true_intro rfl

theorem yields_shiftNumber {v : Word} (hops : inst.operands = [.mem m, .imm v]) :
    (encodeShiftBy d (.mem m) (.number (v.setWidth 32))).Yields fun bs =>
      GeneralDenoted inst bs ↔ AddressFits m ∧ FitsWidth 8 v := by
  unfold encodeShiftBy
  dsimp only
  refine yields_of_writes ?_
  split
  · next hone =>
      have hbyte : ((v.setWidth 32).setWidth 8).toNat = 1 := by
        rw [beq_iff_eq.mp hone]
        rfl
      refine generalDenoted_shiftOne hshift hm fun a => ?_
      rw [generalMeaning_shiftCount ho hshift hops, ← hbyte]
      exact and_congr_right fun _ => count_matches
  · refine @generalDenoted_more inst _ m 0xC1 d .rmCount _ _ hm
      (.imm ((v.setWidth 32).setWidth 8).toNat) (shift_noLoad hshift) (shift_ne_xchg _)
      (shift_opcode false (.inl rfl)) _ (shift_entry false _).2.2 (fun _ _ => rfl) rfl
      (.inl (show 1 < 4 by decide)) ?_
    intro a
    rw [generalMeaning_shiftCount ho hshift hops]
    exact and_congr_right fun _ => count_matches

end Shifts

theorem accepted_encodeShiftBy {P : List Byte → Prop} {d : Byte} {op : Operand}
    {count : Encoder.ShiftCount} (h : Accepted op → (encodeShiftBy d op count).Yields P) :
    (encodeShiftBy d op count).Yields P := by
  have haccepted : (encodeShiftBy d op count).Yields fun _ => Accepted op := by
    unfold encodeShiftBy
    cases count with
    | cl => exact yields_around d op 0 id
    | number n =>
        dsimp only
        split
        · exact yields_around d op 0 id
        · exact yields_around d op 1 id
  exact fun env es hrun => h (haccepted env es hrun) env es hrun

theorem yields_addressedShift {inst : ParsedInstruction} (hmem : ∃ m, .mem m ∈ inst.operands) :
    (encodeShift inst).Yields fun bs => GeneralDenoted inst bs ↔ AddressedFits inst := by
  obtain ⟨m, hmem⟩ := hmem
  unfold encodeShift
  split
  · next dst rest hops =>
      split
      · exact yields_diag
      · next hlen =>
          apply yields_orDiag_bind
          intro d hd
          obtain ⟨ho, hshift⟩ := shift_codes hd
          rw [hops] at hmem
          cases rest with
          | nil =>
              cases List.mem_singleton.mp hmem
              apply yields_pure_bind
              refine accepted_encodeShiftBy ?_
              rintro ⟨⟩
              next hm =>
                rw [AddressedFits, hops]
                exact yields_shiftOne ho hshift hm hops
          | cons count more =>
              have hmore : more = [] := by
                cases more with
                | nil => rfl
                | cons _ _ => exact absurd (Nat.lt_add_left _ (Nat.lt_succ_self 1)) hlen
              subst hmore
              rw [List.head?_cons]
              cases count with
              | imm v =>
                  have hdst : Operand.mem m = dst := by
                    rcases List.mem_cons.mp hmem with h | h
                    · exact h
                    · cases List.mem_singleton.mp h
                  subst hdst
                  apply yields_pure_bind
                  refine accepted_encodeShiftBy ?_
                  rintro ⟨⟩
                  next hm =>
                    rw [AddressedFits, hops]
                    dsimp only
                    rw [if_pos hshift]
                    exact yields_shiftNumber ho hshift hm hops
              | reg r' size' =>
                  have hdst : Operand.mem m = dst := by
                    rcases List.mem_cons.mp hmem with h | h
                    · exact h
                    · cases List.mem_singleton.mp h
                  subst hdst
                  simp only [Encoder.shiftCount]
                  split
                  · next hcl =>
                      obtain ⟨hr, hsize⟩ := Bool.and_eq_true_iff.mp hcl
                      have hr' : r' = 1 := Fin.ext (beq_iff_eq.mp hr)
                      have hsize' : size' = .size8 := beq_iff_eq.mp hsize
                      subst hr' hsize'
                      apply yields_pure_bind
                      refine accepted_encodeShiftBy ?_
                      rintro ⟨⟩
                      next hm =>
                        have hfits : AddressFits m ∧ (isShift inst.type = true ∨
                            WideRegister 1 .size8) ↔ AddressFits m :=
                          and_iff_left (.inl hshift)
                        rw [AddressedFits, hops]
                        dsimp only
                        rw [hfits]
                        exact yields_shiftCl ho hshift hm hops
                  · exact yields_diag_bind
              | mem m' | none | label _ | labelDiff _ _ | string _ => exact yields_diag_bind
  · exact yields_diag

section Imul

variable {inst : ParsedInstruction} {m : MemOperand} {r : Reg} {size : RegSize} {bs : List Byte}
  (htype : inst.type = .imul) (hm : Addressable m)

include htype hm

theorem generalDenoted_imulPair (hops : inst.operands = [.reg r size, .mem m]) :
    GeneralDenoted inst ((rexByte (size == .size64) (some (.reg r size)) (some (.mem m)) none).toList ++
      ([0x0F, 0xAF] ++ modrmBytes r.low (.mem m))) ↔ AddressFits m ∧ WideRegister r size := by
  rw [← List.append_nil (modrmBytes r.low (.mem m))]
  refine @generalDenoted_load inst .imul m r size 0xAF _ hm (by rw [htype]; rfl) (by rw [htype]; rfl)
    _ rfl hops nofun ?_
  exact @instructionOf_twoByte [] (modrmBytes r.low (.mem m) ++ []) _ 0xAF _ (.inl rfl) rexByte_isRex rfl

theorem generalDenoted_imulTriple {v : Word} {opcode : Byte} {layout : Layout} {tail : List Byte}
    (hops : inst.operands = [.reg r size, .mem m, .imm v]) (hopcode : PlainOpcode opcode)
    {next : Nat → List Byte → Option (List Arg × List Byte)}
    (hentry : ∀ digit, oneByteEntry opcode digit = some ⟨.imul, false, layout⟩)
    (hlayout : ∀ rex w bs, readArgs rex opcode w bs layout =
      readRm rex bs (fun m => [regArg rex w (rexBit rex 2 + m.reg), rmArg rex w m.rm]) (next w))
    (hnext : next (widthOf (size == .size64)) tail =
      some ([.imm ((v.setWidth 32).signExtend (widthOf (size == .size64))).toNat], []))
    (htail : tail.length < 4 ∨ next (widthOf (size == .size64)) (tail.drop 4) = none) :
    GeneralDenoted inst ((rexByte (size == .size64) (some (.reg r size)) (some (.mem m)) none).toList ++
      opcode :: (modrmBytes r.low (.mem m) ++ tail)) ↔
        AddressFits m ∧ WideRegister r size ∧ ImmFits v size := by
  have hshift : isShift inst.type = false := by rw [htype]; rfl
  have hplain : NoNumberLoad inst := .inl (by rw [htype]; decide)
  have hcount : impliedCount inst = [] := if_neg (by rw [hshift]; exact fun h => nomatch h.1)
  have hwidths : generalWidths inst = [widthBits size, widthBits size, widthBits size] := by
    rw [generalWidths, hshift, hops]
    rfl
  have hu := operandWidth_plain (size == .size64) (some (.reg r size)) (some (.mem m))
  have hbytes := @instructionOf_accepted _ opcode r.low _ tail _ (.mem m hm)
    (@rexByte_isRex (size == .size64) (some (.reg r size)) (some (.mem m)) none) hopcode (hentry _)
  rcases instructionOf_memory hm
    (fun m' => [regArg _ (widthOf (size == .size64)) (rexBit _ 2 + m'.reg),
      rmArg _ (widthOf (size == .size64)) m'.rm])
    (next (widthOf (size == .size64))) _ (rexFor_rexByte _ _ _) hbytes (by rw [hu]; exact hlayout _ _ _)
    hnext htail with ⟨field, hfield, hread⟩ | ⟨hno, hnone⟩
  · rw [generalDenoted_iff hplain (show Operation.imul ≠ .xchg from nofun) hread,
      generalMeaning_iff (by rw [htype]; rfl) hcount, hops, hwidths]
    show argsAt _ _ = some [_, _, _] ↔ _
    rw [argsAt_three, ← and_assoc, and_comm (a := argIn (widthBits size) (.reg r size) = _)]
    have hpair := (@pair_matches m r size r.low (size == .size64) _ field (some (.mem m)) size hfield
      rfl).trans wideRegister_iff
    have hsame : prefixWidth (size == .size64) [] = widthOf (size == .size64) := by
      cases size <;> rfl
    rw [hsame] at hpair
    rw [hpair, and_assoc]
    exact and_congr_right fun _ => and_congr_right fun hreg => immFits_iff hreg.2
  · exact iff_of_false (not_generalDenoted hnone) fun h => hno h.1

end Imul

theorem memory_second {m : MemOperand} {x y : Operand} (hmem : Operand.mem m ∈ [x, y])
    (hx : ∀ m, x ≠ .mem m) : y = .mem m := by
  rcases List.mem_cons.mp hmem with h | h
  · exact absurd h.symm (hx m)
  · exact (List.mem_singleton.mp h).symm

theorem oneMore_dword (w : Bool) (v : Word) :
    oneMore (readImm (immLength (widthOf w)) (widthOf w)) (leBytes 4 (v.setWidth 32)) =
      some ([.imm ((v.setWidth 32).signExtend (widthOf w)).toNat], []) := by
  rw [oneMore, readImm_wide]
  rfl

theorem oneMore_dword_short (w : Bool) (v : Word) :
    oneMore (readImm (immLength (widthOf w)) (widthOf w)) ((leBytes 4 (v.setWidth 32)).drop 4) =
      none := by
  cases w <;> rfl

theorem oneMore_byte (w : Bool) {v : Word} (hbyte : fitsInInt8 (v.setWidth 32) = true) :
    oneMore (readImm 1 (widthOf w)) [(v.setWidth 32).setWidth 8] =
      some ([.imm ((v.setWidth 32).signExtend (widthOf w)).toNat], []) := by
  have hwide : 32 ≤ widthOf w := by cases w <;> decide
  rw [oneMore, readImm_byte, immediate_byte hbyte hwide]
  rfl

theorem arithmetic_general {type : InstType} {o : Operation} (h : arithmeticOperation type = some o) :
    generalOperation type = some o ∧ isShift type = false ∧ o ≠ .xchg := by
  cases type <;> first
    | cases h
      exact ⟨rfl, rfl, nofun⟩
    | cases h

theorem sized_general {type : InstType} {o : Operation} (h : sizedOperation type = some o) :
    generalOperation type = some o ∧ o ≠ .xchg := by
  cases type <;> first
    | cases h
      exact ⟨rfl, nofun⟩
    | cases h

section Encoders

variable {inst : ParsedInstruction} (hmem : ∃ m, .mem m ∈ inst.operands)

include hmem

theorem yields_addressedMov (htype : inst.type = .mov) :
    (encodeMov inst).Yields fun bs => GeneralDenoted inst bs ↔ AddressedFits inst := by
  have ho : generalOperation inst.type = some .mov := by rw [htype]; rfl
  have hshift : isShift inst.type = false := by rw [htype]; rfl
  obtain ⟨m, hmem⟩ := hmem
  unfold encodeMov
  split
  · next dst src hops =>
      split
      · exact yields_diag
      · simp only [AddressedFits, hops, hshift, Bool.false_eq_true, if_false, false_or]
        rw [hops] at hmem
        cases dst with
        | reg r size =>
            cases memory_second hmem nofun
            refine yields_around r.low (.mem m) 0 ?_
            rintro ⟨⟩
            next hm =>
              have hbytes := @instructionOf_accepted
                (rexByte (size == .size64) (some (.reg r size)) (some (.mem m)) none) 0x8B r.low _ []
                _ (.mem m hm) rexByte_isRex ⟨by decide, by decide, by decide⟩ rfl
              rw [← List.append_nil (modrmBytes r.low (.mem m))]
              exact generalDenoted_load hm ho hshift rfl hops nofun hbytes
        | mem m' =>
            cases src with
            | reg r size =>
                refine yields_around r.low (.mem m') 0 ?_
                rintro ⟨⟩
                next hm =>
                  exact generalDenoted_store hm ho hshift hops nofun ⟨by decide, by decide, by decide⟩
                    fun _ => rfl
            | imm v =>
                have h8 : (RegSize.size64 == RegSize.size8) = false := rfl
                have h16 : (RegSize.size64 == RegSize.size16) = false := rfl
                show (encodeMovMemImm m' .size64 v).Yields _
                simp only [encodeMovMemImm, h8, h16, Bool.false_eq_true, if_false]
                refine yields_around 0 (.mem m') 4 ?_
                rintro ⟨⟩
                next hm =>
                  exact generalDenoted_number hm ho hshift hops nofun
                    ⟨by decide, by decide, by decide⟩ rfl (fun _ _ => rfl)
                    (oneMore_dword true v) (.inr rfl)
            | mem _ | none | label _ | labelDiff _ _ | string _ => exact yields_diag
        | none | imm _ | label _ | labelDiff _ _ | string _ =>
            cases memory_second hmem nofun
            exact yields_diag
  · exact yields_diag

theorem yields_addressedArithmetic {o : Operation} (harith : arithmeticOperation inst.type = some o) :
    (encodeArithmetic inst).Yields fun bs => GeneralDenoted inst bs ↔ AddressedFits inst := by
  obtain ⟨ho, hshift, hne⟩ := arithmetic_general harith
  obtain ⟨m, hmem⟩ := hmem
  unfold encodeArithmetic
  split
  · next dst src hops =>
      split
      · exact yields_diag
      · simp only [AddressedFits, hops, hshift, Bool.false_eq_true, if_false, false_or]
        rw [hops] at hmem
        apply yields_orDiag_bind
        intro d hd
        obtain ⟨o', ho', hcodes⟩ := arithmetic_codes hd
        cases harith.symm.trans ho'
        cases dst with
        | reg r size =>
            cases memory_second hmem nofun
            refine yields_around r.low (.mem m) 0 ?_
            rintro ⟨⟩
            next hm =>
              have hbytes := @instructionOf_accepted
                (rexByte (size == .size64) (some (.reg r size)) (some (.mem m)) none) (0x03#8 + (d <<< 3))
                r.low _ [] _ (.mem m hm) rexByte_isRex hcodes.regRm_opcode (hcodes.regRm _)
              rw [← List.append_nil (modrmBytes r.low (.mem m))]
              exact generalDenoted_load hm ho hshift rfl hops hne hbytes
        | mem m' =>
            cases src with
            | reg r size =>
                refine yields_around r.low (.mem m') 0 ?_
                rintro ⟨⟩
                next hm =>
                  exact generalDenoted_store hm ho hshift hops hne hcodes.rmReg_opcode hcodes.rmReg
            | imm v =>
                have hgroup : oneByteEntry 0x83 (d &&& 7#8).toNat = some ⟨o, false, .rmImm8⟩ ∧
                    oneByteEntry 0x81 (d &&& 7#8).toNat = some ⟨o, false, .rmImm⟩ := by
                  rw [← hcodes.group]
                  exact ⟨rfl, rfl⟩
                dsimp only [encodeArithmeticMemImm]
                split
                · next hbyte =>
                    refine yields_around d (.mem m') 1 ?_
                    rintro ⟨⟩
                    next hm =>
                      exact generalDenoted_number hm ho hshift hops hne ⟨by decide, by decide, by decide⟩
                        hgroup.1 (fun _ _ => rfl) (oneMore_byte true hbyte) (.inl (show 1 < 4 by decide))
                · refine yields_around d (.mem m') 4 ?_
                  rintro ⟨⟩
                  next hm =>
                    exact generalDenoted_number hm ho hshift hops hne ⟨by decide, by decide, by decide⟩
                      hgroup.2 (fun _ _ => rfl) (oneMore_dword true v) (.inr rfl)
            | mem _ | none | label _ | labelDiff _ _ | string _ => exact yields_diag
        | none | imm _ | label _ | labelDiff _ _ | string _ =>
            cases memory_second hmem nofun
            exact yields_diag
  · exact yields_diag

theorem yields_addressedOne {o : Operation} {opcode digit : Byte} {op : Operand} {e : Encoder Unit}
    [Writes e ((rexByte (Encoder.operandSize op == .size64) none (some op) none).toList ++
      ([opcode] ++ modrmBytes digit op))] [AroundModrm digit op 0 e]
    (hsized : sizedOperation inst.type = some o) (hshift : isShift inst.type = false)
    (hops : inst.operands = [op]) (hopcode : PlainOpcode opcode)
    (hentry : oneByteEntry opcode (digit &&& 7#8).toNat = some ⟨o, false, .rm⟩) :
    e.Yields fun bs => GeneralDenoted inst bs ↔ AddressedFits inst := by
  obtain ⟨ho, hne⟩ := sized_general hsized
  obtain ⟨m, hmem⟩ := hmem
  rw [hops] at hmem
  cases List.mem_singleton.mp hmem
  refine yields_around digit (.mem m) 0 ?_
  rintro ⟨⟩
  next hm =>
    rw [AddressedFits, hops]
    exact generalDenoted_one hm ho hshift hops hne hopcode hentry

theorem yields_addressedUnary :
    (encodeUnaryArithmetic inst).Yields fun bs => GeneralDenoted inst bs ↔ AddressedFits inst := by
  unfold encodeUnaryArithmetic
  split
  · next op hops =>
      apply yields_orDiag_bind
      intro d hd
      obtain ⟨o, ho, hshift, hentry⟩ := unary_codes hd
      have hopcode : PlainOpcode (if inst.type == .inc || inst.type == .dec then 0xFF else 0xF7) := by
        split <;> exact ⟨by decide, by decide, by decide⟩
      dsimp only
      split
      · exact yields_addressedOne hmem ho hshift hops hopcode hentry
      · exact yields_addressedOne hmem ho hshift hops hopcode hentry
      · exact yields_diag
  · exact yields_diag

theorem yields_addressedGroup3 {o : Operation} {digit : Byte} {op : Operand}
    (hsized : sizedOperation inst.type = some o) (hshift : isShift inst.type = false)
    (hops : inst.operands = [op])
    (hentry : oneByteEntry 0xF7 (digit &&& 7#8).toNat = some ⟨o, false, .rm⟩) :
    (encodeGroup3 digit op).Yields fun bs => GeneralDenoted inst bs ↔ AddressedFits inst := by
  unfold encodeGroup3
  exact yields_addressedOne hmem hsized hshift hops ⟨by decide, by decide, by decide⟩ hentry

theorem yields_addressedDivIdivMul :
    (encodeDivIdivMul inst).Yields fun bs => GeneralDenoted inst bs ↔ AddressedFits inst := by
  unfold encodeDivIdivMul
  split
  · next op hops =>
      apply yields_orDiag_bind
      intro d hd
      obtain ⟨o, ho, hshift, hentry⟩ := mul_codes hd
      exact yields_addressedGroup3 hmem ho hshift hops hentry
  · exact yields_diag

theorem yields_addressedImul (htype : inst.type = .imul) :
    (encodeImul inst).Yields fun bs => GeneralDenoted inst bs ↔ AddressedFits inst := by
  unfold encodeImul
  split
  · next op hops =>
      exact yields_addressedGroup3 hmem (o := .imul) (by rw [htype]; rfl) (by rw [htype]; rfl) hops rfl
  · next r size src hops =>
      obtain ⟨m, hmem⟩ := hmem
      rw [hops] at hmem
      cases memory_second hmem nofun
      refine yields_around r.low (.mem m) 0 ?_
      rintro ⟨⟩
      next hm =>
        rw [AddressedFits, hops]
        exact generalDenoted_imulPair htype hm hops
  · exact yields_diag
  · next r size src v hops =>
      obtain ⟨m, hmem⟩ := hmem
      rw [hops] at hmem
      have hsrc : src = .mem m := by
        rcases List.mem_cons.mp hmem with h | h
        · cases h
        · rcases List.mem_cons.mp h with h | h
          · exact h.symm
          · cases List.mem_singleton.mp h
      subst hsrc
      rw [AddressedFits, hops]
      dsimp only
      split
      · next hbyte =>
          refine yields_around r.low (.mem m) 1 ?_
          rintro ⟨⟩
          next hm =>
            exact generalDenoted_imulTriple htype hm hops ⟨by decide, by decide, by decide⟩
              (fun _ => rfl) (fun _ _ _ => rfl) (oneMore_byte _ hbyte) (.inl (show 1 < 4 by decide))
      · refine yields_around r.low (.mem m) 4 ?_
        rintro ⟨⟩
        next hm =>
          exact generalDenoted_imulTriple htype hm hops ⟨by decide, by decide, by decide⟩
            (fun _ => rfl) (fun _ _ _ => rfl) (oneMore_dword _ v) (.inr (oneMore_dword_short _ v))
  · exact yields_diag
  · exact yields_diag

theorem yields_addressedTest (htype : inst.type = .test) :
    (encodeTest inst).Yields fun bs => GeneralDenoted inst bs ↔ AddressedFits inst := by
  have ho : generalOperation inst.type = some .test := by rw [htype]; rfl
  have hshift : isShift inst.type = false := by rw [htype]; rfl
  obtain ⟨m, hmem⟩ := hmem
  unfold encodeTest
  split
  · next dst src hops =>
      split
      · exact yields_diag
      · simp only [AddressedFits, hops, hshift, Bool.false_eq_true, if_false, false_or]
        rw [hops] at hmem
        cases dst with
        | mem m' =>
            cases src with
            | imm v =>
                have hsize : Encoder.operandSize (.mem m') = .size64 := rfl
                have h8 : (RegSize.size64 == RegSize.size8) = false := rfl
                simp only [encodeTestImm, Encoder.isMemOperand, hsize, h8, Bool.not_true,
                  Bool.false_and, Bool.false_eq_true, if_false]
                refine yields_around 0 (.mem m') 4 ?_
                rintro ⟨⟩
                next hm =>
                  exact generalDenoted_number hm ho hshift hops nofun ⟨by decide, by decide, by decide⟩
                    rfl (fun _ _ => rfl) (oneMore_dword true v) (.inr rfl)
            | reg r size =>
                refine yields_around r.low (.mem m') 0 ?_
                rintro ⟨⟩
                next hm =>
                  exact generalDenoted_store hm ho hshift hops nofun ⟨by decide, by decide, by decide⟩
                    fun _ => rfl
            | mem _ | none | label _ | labelDiff _ _ | string _ => exact yields_diag
        | reg _ _ | none | imm _ | label _ | labelDiff _ _ | string _ =>
            cases memory_second hmem nofun
            exact yields_diag
  · exact yields_diag

theorem yields_addressedXchg (htype : inst.type = .xchg) :
    (encodeXchg inst).Yields fun bs => GeneralDenoted inst bs ↔ AddressedFits inst := by
  have hshift : isShift inst.type = false := by rw [htype]; rfl
  obtain ⟨m, hmem⟩ := hmem
  unfold encodeXchg
  split
  · next dst src hops =>
      split
      · exact yields_diag
      · simp only [AddressedFits, hops, hshift, Bool.false_eq_true, if_false, false_or]
        rw [hops] at hmem
        cases dst with
        | reg r size =>
            cases memory_second hmem nofun
            dsimp only [encodeXchgRm]
            refine yields_around r.low (.mem m) 0 ?_
            rintro ⟨⟩
            next hm => exact generalDenoted_exchange hm htype (.inr hops)
        | mem m' =>
            cases src with
            | reg r size =>
                dsimp only [encodeXchgRm]
                refine yields_around r.low (.mem m') 0 ?_
                rintro ⟨⟩
                next hm => exact generalDenoted_exchange hm htype (.inl hops)
            | mem _ | none | imm _ | label _ | labelDiff _ _ | string _ => exact yields_diag
        | none | imm _ | label _ | labelDiff _ _ | string _ =>
            cases memory_second hmem nofun
            exact yields_diag
  · exact yields_diag

end Encoders

theorem yields_addressedEncoder {inst : ParsedInstruction} {encode : ParsedInstruction → Encoder Unit}
    (hgeneral : (generalOperation inst.type).isSome = true)
    (hencode : machineEncoder inst.type = some encode) (hmem : ∃ m, .mem m ∈ inst.operands) :
    (encode inst).Yields fun bs => GeneralDenoted inst bs ↔ AddressedFits inst := by
  cases htype : inst.type
  all_goals
    rw [htype] at hgeneral hencode
    first
    | exact absurd hgeneral Bool.false_ne_true
    | cases hencode
      first
      | exact yields_addressedMov hmem htype
      | exact yields_addressedArithmetic hmem (by rw [htype]; rfl)
      | exact yields_addressedUnary hmem
      | exact yields_addressedDivIdivMul hmem
      | exact yields_addressedImul hmem htype
      | exact yields_addressedTest hmem htype
      | exact yields_addressedShift hmem
      | exact yields_addressedXchg hmem htype

/-- The bytes of an accepted instruction with a memory operand, of any form, have the effect of the
written one exactly when it is one of `AddressedFits`. -/
theorem addressedEncoders_denoted {inst : ParsedInstruction}
    {encode : ParsedInstruction → Encoder Unit} {env : EncodeEnv} {es : List Emission}
    (hgeneral : (generalOperation inst.type).isSome = true)
    (hencode : machineEncoder inst.type = some encode) (hmem : ∃ m, .mem m ∈ inst.operands)
    (h : encode inst env = (es, .ok ())) :
    GeneralDenoted inst (bytesOf es) ↔ AddressedFits inst :=
  yields_addressedEncoder hgeneral hencode hmem env es h

/-- `adc [r13 + r12*8 + 16], r9d`. -/
def adcR9d : ParsedInstruction :=
  { type := .adc
    operands := [
      .mem { base := some 13, index := some 12, scale := 8, displacement := 16, hasDisplacement := true },
      .reg 9 .size32] }

theorem addressedEncoders_denoted_adcR9d : GeneralDenoted adcR9d (bytesOf (
      [0x47#8, 0x11, 0x4C, 0xE5, 0x10].map .byte)) ↔ AddressedFits adcR9d := by
  apply @addressedEncoders_denoted adcR9d encodeArithmetic ⟨0, true, fun _ => none⟩
  · rfl
  · rfl
  · exact ⟨_, List.mem_cons_self⟩
  · rfl

end X86Assembler
