import X86Assembler.AddressedEncoding
import X86Assembler.Relocation
import X86Assembler.SseAddressing

namespace X86Assembler

open CString (Byte)
open Encoder (encodeMov encodeArithmetic encodeUnaryArithmetic encodeXchg encodeImul encodeDivIdivMul
  encodeTest encodeTestImm encodeShift encodeShiftBy encodeGroup3 machineEncoder operationSize
  isMemOperand isPlainOperand)
open MachineCode

def sseMeaning (inst : ParsedInstruction) : Option SseInstruction :=
  match inst.operands with
  | [dst, src] => (sseOperation inst.type).bind fun o => (sseArg dst).bind fun d =>
      (sseArg src).map fun s => ⟨o, d, s⟩
  | _ => none

def Means (inst : ParsedInstruction) : AnyInstruction → Prop
  | .inl (.inl i) => (∃ j, generalMeaning inst = some j ∧ SameEffect i j) ∨
      inst.type = .nop ∧ i = ⟨.nop, []⟩
  | .inl (.inr i) => sseMeaning inst = some i
  | .inr i => furtherMeaning inst = some i

/-- The bytes are an instruction with the effect of the written one. -/
def StatementDenoted (inst : ParsedInstruction) (bs : List Byte) : Prop :=
  ∃ i, anyInstructionOf bs = some i ∧ Means inst i

def StatementFits (inst : ParsedInstruction) : Prop :=
  if (generalOperation inst.type).isSome then
    if inst.operands.any isMemOperand then AddressedFits inst
    else match inst.type with
      | .mov => MoveFits inst
      | .xchg => XchgFits inst.operands
      | type => if (arithmeticOperation type).isSome then ArithmeticFits inst else SizedFits inst
  else if (sseOperation inst.type).isSome then SseMoveFits inst.operands
  else if (furtherOperation inst.type).isSome then FurtherFits inst
  else inst.type = .nop

theorem general_alone {type : InstType} (h : (generalOperation type).isSome = true) :
    sseOperation type = none ∧ furtherOperation type = none ∧ type ≠ .nop := by
  cases type <;> first
    | exact ⟨rfl, rfl, by decide⟩
    | cases h

theorem sse_alone {type : InstType} (h : (sseOperation type).isSome = true) :
    generalOperation type = none ∧ furtherOperation type = none ∧ type ≠ .nop := by
  cases type <;> first
    | exact ⟨rfl, rfl, by decide⟩
    | cases h

theorem further_alone {type : InstType} (h : (furtherOperation type).isSome = true) :
    generalOperation type = none ∧ sseOperation type = none ∧ type ≠ .nop := by
  cases type <;> first
    | exact ⟨rfl, rfl, by decide⟩
    | cases h

theorem either_inl {α ι κ : Type} {first : List α → Option ι} {second : List α → Option κ} {bs : List α}
    {i : ι} (h : PrefixCode.either first second bs = some (.inl i)) : first bs = some i := by
  rcases Option.or_eq_some_iff.mp h with h | ⟨-, h⟩
  · obtain ⟨i', hi, heq⟩ := Option.map_eq_some_iff.mp h
    cases heq
    exact hi
  · obtain ⟨k, -, heq⟩ := Option.map_eq_some_iff.mp h
    cases heq

theorem either_inr {α ι κ : Type} {first : List α → Option ι} {second : List α → Option κ} {bs : List α}
    {k : κ} (h : PrefixCode.either first second bs = some (.inr k)) : second bs = some k := by
  rcases Option.or_eq_some_iff.mp h with h | ⟨-, h⟩
  · obtain ⟨i, -, heq⟩ := Option.map_eq_some_iff.mp h
    cases heq
  · obtain ⟨k', hk, heq⟩ := Option.map_eq_some_iff.mp h
    cases heq
    exact hk

section Kinds

variable {inst : ParsedInstruction} {bs : List Byte}

theorem generalMeaning_none (h : generalOperation inst.type = none) : generalMeaning inst = none := by
  rw [generalMeaning, h]
  rfl

theorem sseMeaning_none (h : sseOperation inst.type = none) : sseMeaning inst = none := by
  rw [sseMeaning, h]
  split <;> rfl

theorem furtherMeaning_none (h : furtherOperation inst.type = none) : furtherMeaning inst = none := by
  rw [furtherMeaning, h]
  rfl

theorem sseMoveDenoted_meaning :
    SseMoveDenoted inst bs ↔ ∃ i, sseInstructionOf bs = some i ∧ sseMeaning inst = some i := by
  constructor
  · rintro ⟨dst, src, o, d, s, hops, ho, hd, hs, hread⟩
    refine ⟨_, hread, ?_⟩
    rw [sseMeaning, hops, ho]
    show (sseArg dst).bind _ = _
    rw [hd, hs]
    rfl
  · rintro ⟨i, hread, hi⟩
    rw [sseMeaning] at hi
    split at hi
    · next dst src hops =>
        obtain ⟨o, ho, hi⟩ := Option.bind_eq_some_iff.mp hi
        obtain ⟨d, hd, hi⟩ := Option.bind_eq_some_iff.mp hi
        obtain ⟨s, hs, rfl⟩ := Option.map_eq_some_iff.mp hi
        exact ⟨dst, src, o, d, s, hops, ho, hd, hs, hread⟩
    · cases hi

theorem statementDenoted_general (h : (generalOperation inst.type).isSome = true) :
    StatementDenoted inst bs ↔ GeneralDenoted inst bs := by
  obtain ⟨hsse, hfurther, hnop⟩ := general_alone h
  constructor
  · rintro ⟨(i | i) | i, hread, hmeans⟩
    · rcases hmeans with ⟨j, hj, hsame⟩ | ⟨htype, -⟩
      · exact ⟨i, j, either_inl (either_inl hread), hj, hsame⟩
      · exact absurd htype hnop
    · have hi : sseMeaning inst = some i := hmeans
      cases (sseMeaning_none hsse).symm.trans hi
    · have hi : furtherMeaning inst = some i := hmeans
      cases (furtherMeaning_none hfurther).symm.trans hi
  · rintro ⟨i, j, hread, hj, hsame⟩
    exact ⟨_, anyInstructionOf_general hread, .inl ⟨j, hj, hsame⟩⟩

theorem statementDenoted_sse (h : (sseOperation inst.type).isSome = true) :
    StatementDenoted inst bs ↔ SseMoveDenoted inst bs := by
  obtain ⟨hgeneral, hfurther, hnop⟩ := sse_alone h
  rw [sseMoveDenoted_meaning]
  constructor
  · rintro ⟨(i | i) | i, hread, hmeans⟩
    · rcases hmeans with ⟨j, hj, -⟩ | ⟨htype, -⟩
      · cases (generalMeaning_none hgeneral).symm.trans hj
      · exact absurd htype hnop
    · exact ⟨i, either_inr (either_inl hread), hmeans⟩
    · have hi : furtherMeaning inst = some i := hmeans
      cases (furtherMeaning_none hfurther).symm.trans hi
  · rintro ⟨i, hread, hi⟩
    exact ⟨_, anyInstructionOf_sse hread, hi⟩

theorem statementDenoted_further (h : (furtherOperation inst.type).isSome = true) :
    StatementDenoted inst bs ↔ FurtherDenoted inst bs := by
  obtain ⟨hgeneral, hsse, hnop⟩ := further_alone h
  constructor
  · rintro ⟨(i | i) | i, hread, hmeans⟩
    · rcases hmeans with ⟨j, hj, -⟩ | ⟨htype, -⟩
      · cases (generalMeaning_none hgeneral).symm.trans hj
      · exact absurd htype hnop
    · have hi : sseMeaning inst = some i := hmeans
      cases (sseMeaning_none hsse).symm.trans hi
    · exact ⟨i, hmeans, either_inr hread⟩
  · rintro ⟨i, hi, hread⟩
    exact ⟨_, anyInstructionOf_further hread, hi⟩

theorem statementDenoted_none (hgeneral : generalOperation inst.type = none)
    (hsse : sseOperation inst.type = none) (hfurther : furtherOperation inst.type = none) :
    StatementDenoted inst bs ↔ inst.type = .nop ∧ instructionOf bs = some ⟨.nop, []⟩ := by
  constructor
  · rintro ⟨(i | i) | i, hread, hmeans⟩
    · rcases hmeans with ⟨j, hj, -⟩ | ⟨htype, rfl⟩
      · cases (generalMeaning_none hgeneral).symm.trans hj
      · exact ⟨htype, either_inl (either_inl hread)⟩
    · have hi : sseMeaning inst = some i := hmeans
      cases (sseMeaning_none hsse).symm.trans hi
    · have hi : furtherMeaning inst = some i := hmeans
      cases (furtherMeaning_none hfurther).symm.trans hi
  · rintro ⟨htype, hread⟩
    exact ⟨_, anyInstructionOf_general hread, .inr ⟨htype, rfl⟩⟩

end Kinds

section Registers

variable {inst : ParsedInstruction} {bs : List Byte} {o : Operation}

theorem argIn_plain {w : Nat} {op : Operand} (h : RegisterOrNumber op) : argIn w op = argOf w op := by
  cases h <;> rfl

theorem argsAt_same {w : Nat} {ops : List Operand} (h : ∀ op ∈ ops, RegisterOrNumber op) :
    argsAt (ops.map fun _ => w) ops = argsOf w ops := by
  induction ops with
  | nil => rfl
  | cons op ops ih =>
      rw [List.map_cons, argsAt, argsOf, argIn_plain (h op List.mem_cons_self),
        ih fun op hop => h op (List.mem_cons_of_mem _ hop)]

theorem generalDenoted_same (hplain : NoNumberLoad inst) (hx : inst.type ≠ .xchg) :
    GeneralDenoted inst bs ↔ ∃ j, instructionOf bs = some j ∧ generalMeaning inst = some j := by
  constructor
  · rintro ⟨i, j, hi, hj, hsame | ⟨a, b, rfl, rfl⟩⟩
    · rw [(sameEffect_iff hplain hj).mp hsame] at hi
      exact ⟨j, hi, hj⟩
    · obtain ⟨o, ho, hargs⟩ := Option.bind_eq_some_iff.mp hj
      obtain ⟨args, -, heq⟩ := Option.map_eq_some_iff.mp hargs
      injection heq with hop
      subst hop
      exact absurd (generalOperation_xchg ho) hx
  · rintro ⟨j, hi, hj⟩
    exact ⟨j, j, hi, hj, .inl rfl⟩

section Plain

variable (ho : generalOperation inst.type = some o) (hshift : isShift inst.type = false)
  (hregs : ∀ op ∈ inst.operands, RegisterOrNumber op)

include ho hshift hregs

theorem generalMeaning_registers :
    generalMeaning inst = (argsOf (operandsWidth inst.operands) inst.operands).map fun args => ⟨o, args⟩ := by
  have hcount : impliedCount inst = [] := if_neg (by rw [hshift]; exact fun h => nomatch h.1)
  rw [generalMeaning, ho, Option.bind_some, generalWidths, hshift, hcount, if_neg Bool.false_ne_true,
    argsAt_same hregs]
  simp only [List.append_nil]

theorem generalMeaning_pair {dst src : Operand} {j : Instruction} (hops : inst.operands = [dst, src]) :
    generalMeaning inst = some j ↔ ∃ a b, argOf (widthBits (operationSize dst src)) dst = some a ∧
      argOf (widthBits (operationSize dst src)) src = some b ∧ j = ⟨o, [a, b]⟩ := by
  have hwidth : operandsWidth [dst, src] = widthBits (operationSize dst src) := rfl
  rw [generalMeaning_registers ho hshift hregs, hops, hwidth, Option.map_eq_some_iff]
  constructor
  · rintro ⟨args, hargs, rfl⟩
    obtain ⟨a, ha, hargs⟩ := Option.bind_eq_some_iff.mp hargs
    obtain ⟨rest, hrest, rfl⟩ := Option.map_eq_some_iff.mp hargs
    obtain ⟨b, hb, hrest⟩ := Option.bind_eq_some_iff.mp hrest
    obtain ⟨_, hnil, rfl⟩ := Option.map_eq_some_iff.mp hrest
    cases hnil
    exact ⟨a, b, ha, hb, rfl⟩
  · rintro ⟨a, b, ha, hb, rfl⟩
    refine ⟨[a, b], ?_, rfl⟩
    rw [argsOf_cons, argsOf_cons, argsOf_nil]
    exact ⟨ha, hb, rfl⟩

end Plain

theorem moveDenoted_general (htype : inst.type = .mov)
    (hregs : ∀ op ∈ inst.operands, RegisterOrNumber op) {dst src : Operand}
    (hops : inst.operands = [dst, src]) : GeneralDenoted inst bs ↔ MoveDenoted inst bs := by
  have hpair := fun j => @generalMeaning_pair inst .mov (by rw [htype]; rfl) (by rw [htype]; rfl) hregs
    dst src j hops
  constructor
  · rintro ⟨i, j, hi, hj, hsame | ⟨a, b, rfl, rfl⟩⟩
    · obtain ⟨a, b, ha, hb, rfl⟩ := (hpair j).mp hj
      refine ⟨i, _, hi, ⟨dst, src, .mov, a, b, _, ?_, hops, by rw [htype]; rfl, ha, hb, rfl⟩, hsame⟩
      rw [htype]
      exact List.mem_singleton_self _
    · obtain ⟨a', b', -, -, heq⟩ := (hpair _).mp hj
      cases heq
  · rintro ⟨i, j, hi, ⟨dst', src', o', a, b, u, hu, hops', ho', ha, hb, rfl⟩, hsame⟩
    cases hops.symm.trans hops'
    rw [htype] at hu ho'
    cases ho'
    cases List.mem_singleton.mp hu
    exact ⟨i, _, hi, (hpair _).mpr ⟨a, b, ha, hb, rfl⟩, .inl hsame⟩

theorem arithmeticDenoted_general (ho : arithmeticOperation inst.type = some o)
    (hregs : ∀ op ∈ inst.operands, RegisterOrNumber op) {dst src : Operand}
    (hops : inst.operands = [dst, src]) : GeneralDenoted inst bs ↔ ArithmeticDenoted inst bs := by
  obtain ⟨hgeneral, hshift, hne⟩ := arithmetic_general ho
  have hpair := fun j => @generalMeaning_pair inst o hgeneral hshift hregs dst src j hops
  have htype : inst.type ≠ .mov ∧ inst.type ≠ .xchg := by
    constructor <;> intro h <;> rw [h] at ho <;> cases ho
  rw [generalDenoted_same (.inl htype.1) htype.2, arithmeticDenoted_iff hops]
  constructor
  · rintro ⟨j, hread, hj⟩
    obtain ⟨a, b, ha, hb, rfl⟩ := (hpair j).mp hj
    refine ⟨o, [a, b], ho, ?_, hread⟩
    rw [argsOf_cons, argsOf_cons, argsOf_nil]
    exact ⟨ha, hb, rfl⟩
  · rintro ⟨o', args, ho', hargs, hread⟩
    cases ho.symm.trans ho'
    refine ⟨_, hread, ?_⟩
    rw [generalMeaning_registers hgeneral hshift hregs, hops]
    have hwidth : operandsWidth [dst, src] = widthBits (operationSize dst src) := rfl
    rw [hwidth, hargs]
    rfl

theorem xchgDenoted_general (htype : inst.type = .xchg)
    (hregs : ∀ op ∈ inst.operands, RegisterOrNumber op) {dst src : Operand}
    (hops : inst.operands = [dst, src]) : GeneralDenoted inst bs ↔ XchgDenoted inst bs := by
  have hpair := fun j => @generalMeaning_pair inst .xchg (by rw [htype]; rfl) (by rw [htype]; rfl) hregs
    dst src j hops
  have hplain : NoNumberLoad inst := .inl (by rw [htype]; decide)
  constructor
  · rintro ⟨i, j, hi, hj, hsame⟩
    obtain ⟨a, b, ha, hb, rfl⟩ := (hpair j).mp hj
    refine ⟨dst, src, a, b, hops, ha, hb, ?_⟩
    rcases hsame with hsame | ⟨a', b', rfl, heq⟩
    · rw [(sameEffect_iff hplain hj).mp hsame] at hi
      exact .inl hi
    · cases heq
      exact .inr hi
  · rintro ⟨dst', src', a, b, hops', ha, hb, hread⟩
    cases hops.symm.trans hops'
    have hj := (hpair _).mpr ⟨a, b, ha, hb, rfl⟩
    rcases hread with hread | hread
    · exact ⟨_, _, hread, hj, .inl rfl⟩
    · exact ⟨_, _, hread, hj, .inr ⟨b, a, rfl, rfl⟩⟩

theorem generalMeaning_sized (ho : sizedOperation inst.type = some o)
    (hregs : ∀ op ∈ inst.operands, RegisterOrNumber op) {r : Reg} {size : RegSize}
    {rest : List Operand} (hops : inst.operands = .reg r size :: rest) :
    generalMeaning inst = (sizedArgs inst.type inst.operands).map fun args => ⟨o, args⟩ := by
  cases hshift : isShift inst.type with
  | false =>
      rw [generalMeaning_registers (generalOperation_sized ho) hshift hregs, hops, sizedArgs, hshift]
      rfl
  | true =>
      rw [hops] at hregs
      have hwidths : generalWidths inst = [widthBits size, 8].take (rest.length + 1) := by
        rw [generalWidths, hshift, if_pos rfl, hops]
        rfl
      rw [generalMeaning, generalOperation_sized ho, Option.bind_some, hwidths, impliedCount, hshift, hops,
        sizedArgs_shift hshift]
      rcases rest with - | ⟨count, - | ⟨y, more⟩⟩
      · show ((argOf (widthBits size) (.reg r size)).bind _).map _ = _
        cases h : argOf (widthBits size) (.reg r size) <;>
          simp [shiftArgs, Encoder.operandSize, operationSize, h, argsAt]
      · next =>
          have hcount := @argIn_plain 8 count (hregs _ (List.mem_cons_of_mem _ List.mem_cons_self))
          show ((argOf (widthBits size) (.reg r size)).bind _).map _ = _
          cases h : argOf (widthBits size) (.reg r size) <;> cases hc : argOf 8 count <;>
            simp [shiftArgs, Encoder.operandSize, operationSize, h, argsAt, hcount, hc]
      · show ((argOf (widthBits size) (.reg r size)).bind _).map _ = _
        cases argOf (widthBits size) (.reg r size) <;> cases hx : argIn 8 count <;>
          simp [shiftArgs, argsAt, hx]

theorem sizedDenoted_general (ho : sizedOperation inst.type = some o)
    (hregs : ∀ op ∈ inst.operands, RegisterOrNumber op) {r : Reg} {size : RegSize}
    {rest : List Operand} (hops : inst.operands = .reg r size :: rest) :
    GeneralDenoted inst bs ↔ SizedDenoted inst bs := by
  have htype : inst.type ≠ .mov ∧ inst.type ≠ .xchg := by
    constructor <;> intro h <;> rw [h] at ho <;> cases ho
  rw [generalDenoted_same (.inl htype.1) htype.2, generalMeaning_sized ho hregs hops]
  constructor
  · rintro ⟨j, hread, hj⟩
    obtain ⟨args, hargs, rfl⟩ := Option.map_eq_some_iff.mp hj
    exact ⟨o, args, ho, hargs, hread⟩
  · rintro ⟨o', args, ho', hargs, hread⟩
    cases ho.symm.trans ho'
    refine ⟨_, hread, ?_⟩
    rw [hargs]
    rfl

end Registers

section Accepted

variable {inst : ParsedInstruction}

theorem Encoder.Yields.and {P Q : List Byte → Prop} {m : Encoder Unit} (hp : m.Yields P)
    (hq : m.Yields Q) : m.Yields fun bs => P bs ∧ Q bs :=
  fun env es h => ⟨hp env es h, hq env es h⟩

theorem Encoder.Yields.mono {P Q : List Byte → Prop} {m : Encoder Unit} (hp : m.Yields P)
    (h : ∀ bs, P bs → Q bs) : m.Yields Q := fun env es hrun => h _ (hp env es hrun)

theorem yields_pair {encode : ParsedInstruction → Encoder Unit}
    (h : encode = encodeMov ∨ encode = encodeArithmetic ∨ encode = encodeXchg) :
    (encode inst).Yields fun _ => ∃ dst src, inst.operands = [dst, src] := by
  rcases h with rfl | rfl | rfl
  · unfold encodeMov
    split
    · next dst src hops => exact yields_of_all fun _ => ⟨dst, src, hops⟩
    · exact yields_diag
  · unfold encodeArithmetic
    split
    · next dst src hops => exact yields_of_all fun _ => ⟨dst, src, hops⟩
    · exact yields_diag
  · unfold encodeXchg
    split
    · next dst src hops => exact yields_of_all fun _ => ⟨dst, src, hops⟩
    · exact yields_diag

def RegisterFirst (inst : ParsedInstruction) : Prop :=
  ∃ r size rest, inst.operands = .reg r size :: rest

variable (hregs : ∀ op ∈ inst.operands, RegisterOrNumber op)

include hregs

theorem registerFirst_of {P : Prop} {op : Operand} {rest : List Operand} {m : Encoder Unit}
    (hops : inst.operands = op :: rest) (himm : ∀ v, op = .imm v → m.Yields fun _ => P)
    (hreg : RegisterFirst inst → P) : m.Yields fun _ => P := by
  have hop := hregs op (by rw [hops]; exact List.mem_cons_self)
  cases hop with
  | reg r size => exact yields_of_all fun _ => hreg ⟨r, size, rest, hops⟩
  | imm v => exact himm v rfl

theorem yields_registerFirst {encode : ParsedInstruction → Encoder Unit}
    (hsized : (sizedOperation inst.type).isSome = true)
    (hencode : machineEncoder inst.type = some encode) :
    (encode inst).Yields fun _ => RegisterFirst inst := by
  have hgroup : ∀ {digit : Byte} {v : Word} {P : List Byte → Prop},
      (encodeGroup3 digit (.imm v)).Yields P := by
    intro digit v P
    unfold encodeGroup3
    apply yields_bind
    intro _
    apply yields_bind
    intro _
    exact yields_modrm_imm
  have hunary : (encodeUnaryArithmetic inst).Yields fun _ => RegisterFirst inst := by
    unfold encodeUnaryArithmetic
    split
    · next op hops =>
        refine registerFirst_of hregs hops ?_ id
        rintro v rfl
        apply yields_orDiag_bind
        intro d _
        exact yields_diag
    · exact yields_diag
  have hmul : (encodeDivIdivMul inst).Yields fun _ => RegisterFirst inst := by
    unfold encodeDivIdivMul
    split
    · next op hops =>
        refine registerFirst_of hregs hops ?_ id
        rintro v rfl
        apply yields_orDiag_bind
        intro d _
        exact hgroup
    · exact yields_diag
  have himul : (encodeImul inst).Yields fun _ => RegisterFirst inst := by
    unfold encodeImul
    split
    · next op hops =>
        refine registerFirst_of hregs hops ?_ id
        rintro v rfl
        exact hgroup
    · next r size src hops => exact yields_of_all fun _ => ⟨r, size, _, hops⟩
    · exact yields_diag
    · next r size src v hops => exact yields_of_all fun _ => ⟨r, size, _, hops⟩
    · exact yields_diag
    · exact yields_diag
  have htest : (encodeTest inst).Yields fun _ => RegisterFirst inst := by
    unfold encodeTest
    split
    · next dst src hops =>
        split
        · exact yields_diag
        · refine registerFirst_of hregs hops ?_ id
          rintro v rfl
          have hsrc := hregs src (by rw [hops]; exact List.mem_cons_of_mem _ List.mem_cons_self)
          cases hsrc with
          | reg r size =>
              apply yields_bind
              intro _
              apply yields_bind
              intro _
              exact yields_modrm_imm
          | imm u => exact yields_diag
    · exact yields_diag
  have hshift : (encodeShift inst).Yields fun _ => RegisterFirst inst := by
    unfold encodeShift
    split
    · next dst rest hops =>
        refine registerFirst_of hregs hops ?_ id
        rintro v rfl
        split
        · exact yields_diag
        apply yields_orDiag_bind
        intro d _ env es hrun
        obtain ⟨es₁, count, es₂, -, hby, -⟩ := Encoder.bind_eq_ok hrun
        have haccepted := @accepted_encodeShiftBy (fun _ => Accepted (.imm v)) d (.imm v) count
          fun h => yields_of_all fun _ => h
        cases haccepted _ _ hby
    · exact yields_diag
  cases htype : inst.type
  all_goals
    rw [htype] at hsized hencode
    first
    | exact absurd hsized Bool.false_ne_true
    | cases hencode
      first
      | exact hunary
      | exact hmul
      | exact himul
      | exact htest
      | exact hshift

omit hregs in
/-- An accepted instruction without a label and without memory has registers and numbers only. -/
theorem registers_of_ok {encode : ParsedInstruction → Encoder Unit}
    (hgeneral : (generalOperation inst.type).isSome = true)
    (hencode : machineEncoder inst.type = some encode) (hno : NoLabelOperand inst)
    (hmem : inst.operands.any isMemOperand = false) {env : EncodeEnv} {es : List Emission}
    (h : encode inst env = (es, .ok ())) : ∀ op ∈ inst.operands, RegisterOrNumber op := by
  have hreads : Encoder.ignoresOperands inst.type = false ∧
      (Encoder.sseMovOpcode false inst.type).isSome = false := by
    cases htype : inst.type <;> rw [htype] at hgeneral <;> first
      | exact ⟨rfl, rfl⟩
      | cases hgeneral
  have hmem : ∀ m, .mem m ∉ inst.operands := by
    intro m hm
    rw [List.any_eq_false] at hmem
    exact hmem _ hm rfl
  rcases Encoder.machineEncoder_shapes hencode _ _ h with ⟨bs, hops⟩ | ⟨-, -, m, rip, hop, -, -, -⟩ |
    ⟨-, name, r, size, hops⟩ | ⟨name, rel, -, hops, -⟩ | ⟨name, -, hops⟩
  · intro op hop
    have hplain : isPlainOperand op = true := by
      rcases hops op hop with hplain | hignored
      · exact hplain
      · rw [Encoder.ignoresOperand, hreads.1, hreads.2] at hignored
        cases hignored
    cases op with
    | reg r size => exact .reg r size
    | imm v => exact .imm v
    | mem m => exact absurd hop (hmem m)
    | none | label _ | labelDiff _ _ | string _ => cases hplain
  · exact absurd hop (hmem m)
  · exact absurd (by rw [hops]; exact List.mem_cons_of_mem _ List.mem_cons_self) (hno name)
  · exact absurd (by rw [hops]; exact List.mem_cons_self) (hno name)
  · exact absurd (by rw [hops]; exact List.mem_cons_self) (hno name)

theorem yields_exchanged : (encodeXchg inst).Yields fun _ => ∀ op ∈ inst.operands, RmOperand op := by
  unfold encodeXchg
  split
  · next op1 op2 hops =>
      have h1 := hregs op1 (by rw [hops]; exact List.mem_cons_self)
      have h2 := hregs op2 (by rw [hops]; exact List.mem_cons_of_mem _ List.mem_cons_self)
      rw [hops]
      split
      · exact yields_diag
      · cases h1 with
        | imm v => exact yields_diag
        | reg r size =>
            cases h2 with
            | imm v => exact yields_diag
            | reg r' size' =>
                refine yields_of_all fun _ op hop => ?_
                rcases List.mem_cons.mp hop with rfl | hop
                · exact .reg r size
                · cases List.mem_singleton.mp hop
                  exact .reg r' size'
  · exact yields_diag

end Accepted

section All

variable {inst : ParsedInstruction} {encode : ParsedInstruction → Encoder Unit}

theorem yields_registers (hgeneral : (generalOperation inst.type).isSome = true)
    (hencode : machineEncoder inst.type = some encode)
    (hregs : ∀ op ∈ inst.operands, RegisterOrNumber op) :
    (encode inst).Yields fun bs => GeneralDenoted inst bs ↔ match inst.type with
      | .mov => MoveFits inst
      | .xchg => XchgFits inst.operands
      | type => if (arithmeticOperation type).isSome then ArithmeticFits inst else SizedFits inst := by
  have hplain : ∀ op ∈ inst.operands, PlainOperand op := by
    intro op hop
    cases hregs op hop with
    | reg r size => exact .reg r size
    | imm v => exact .imm v
  by_cases hmov : inst.type = .mov
  · rw [hmov] at hencode ⊢
    cases hencode
    refine ((yields_encodeMov hplain).and (yields_pair (.inl rfl))).mono ?_
    rintro bs ⟨h, dst, src, hops⟩
    exact (moveDenoted_general hmov hregs hops).trans h
  by_cases hxchg : inst.type = .xchg
  · rw [hxchg] at hencode ⊢
    cases hencode
    intro env es hrun
    have hrm := yields_exchanged hregs env es hrun
    obtain ⟨dst, src, hops⟩ := yields_pair (.inr (.inr rfl)) env es hrun
    exact (xchgDenoted_general hxchg hregs hops).trans (yields_encodeXchg hrm env es hrun)
  have hother : (match inst.type with
      | .mov => MoveFits inst
      | .xchg => XchgFits inst.operands
      | type => if (arithmeticOperation type).isSome then ArithmeticFits inst else SizedFits inst) =
        if (arithmeticOperation inst.type).isSome then ArithmeticFits inst else SizedFits inst := by
    split
    · next h => exact absurd h hmov
    · next h => exact absurd h hxchg
    · rfl
  rw [hother]
  cases harith : arithmeticOperation inst.type with
  | some o =>
      have hencoder : encode = encodeArithmetic := by
        cases htype : inst.type <;> rw [htype] at harith hencode <;> first
          | exact (Option.some.inj hencode).symm
          | cases harith
      subst hencoder
      refine ((yields_encodeArithmetic hplain).and (yields_pair (.inr (.inl rfl)))).mono ?_
      rintro bs ⟨h, dst, src, hops⟩
      rw [if_pos (by rfl)]
      exact (arithmeticDenoted_general harith hregs hops).trans h
  | none =>
      obtain ⟨o, ho⟩ : ∃ o, sizedOperation inst.type = some o := by
        obtain ⟨o, ho⟩ := Option.isSome_iff_exists.mp hgeneral
        refine ⟨o, ?_⟩
        rwa [generalOperation, harith] at ho
        · exact hmov
        · exact hxchg
      have hsized : (sizedOperation inst.type).isSome = true := by rw [ho]; rfl
      refine ((yields_sizedEncoder hsized hencode hregs).and
        (yields_registerFirst hregs hsized hencode)).mono ?_
      rintro bs ⟨h, r, size, rest, hops⟩
      rw [if_neg (show ¬ (none : Option Operation).isSome = true from Bool.false_ne_true)]
      exact (sizedDenoted_general ho hregs hops).trans h

theorem yields_nop (htype : inst.type = .nop) (hencode : machineEncoder inst.type = some encode) :
    (encode inst).Yields fun bs => instructionOf bs = some ⟨.nop, []⟩ := by
  rw [htype] at hencode
  cases hencode
  show (Encoder.encodeNop inst).Yields _
  unfold Encoder.encodeNop
  split
  · exact yields_of_writes (by rfl)
  · exact yields_diag

/-- The bytes of an accepted instruction without a label have the effect of the written one exactly
when it is one of `StatementFits`. -/
theorem yields_statement (hencode : machineEncoder inst.type = some encode)
    (hno : NoLabelOperand inst) :
    (encode inst).Yields fun bs => StatementDenoted inst bs ↔ StatementFits inst := by
  unfold StatementFits
  split
  · next hgeneral =>
      simp only [statementDenoted_general hgeneral]
      split
      · next hmem =>
          refine yields_addressedEncoder hgeneral hencode ?_
          obtain ⟨op, hop, hm⟩ := List.any_eq_true.mp hmem
          obtain ⟨m, rfl⟩ := mem_of_operand hm
          exact ⟨m, hop⟩
      · next hmem =>
          intro env es hrun
          have hregs := registers_of_ok hgeneral hencode hno (Bool.not_eq_true _ ▸ hmem) hrun
          exact yields_registers hgeneral hencode hregs env es hrun
  next hgeneral =>
    split
    · next hsse =>
        simp only [statementDenoted_sse hsse]
        exact yields_sseEncoder hsse hencode
    next hsse =>
      split
      · next hfurther =>
          simp only [statementDenoted_further hfurther]
          exact yields_furtherEncoder hfurther hencode
      next hfurther =>
        have hread := fun bs => @statementDenoted_none inst bs (Option.not_isSome_iff_eq_none.mp hgeneral)
          (Option.not_isSome_iff_eq_none.mp hsse) (Option.not_isSome_iff_eq_none.mp hfurther)
        simp only [hread]
        by_cases htype : inst.type = .nop
        · exact (yields_nop htype hencode).mono fun bs hbs => and_iff_left hbs
        · exact yields_of_all fun bs => iff_of_false (fun h => htype h.1) htype

end All

end X86Assembler
