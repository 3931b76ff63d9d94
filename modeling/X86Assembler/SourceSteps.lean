import X86Assembler.Library.Processor
import X86Assembler.ProgramFlow

namespace X86Assembler

open CString (Byte)
open Encoder (ignoresOperands machineEncoder memReference operationSize)
open MachineCode

section Written

variable (labels : Label → Option Word) (next : Word)

/-- Where a written memory operand lies. A label stands for its address, and a RIP-relative number
without one counts from the end of the instruction. -/
def MemOperand.place (m : MemOperand) : Option Place :=
  if generalRegisters m then
    (if m.label = Label.empty then
      some (m.offset.signExtend 64 + if m.isRipRelative then next else 0)
    else (labels m.label).map (· + m.displacement.signExtend 64)).map fun offset =>
      { base := m.base.map Fin.val, index := m.index.map fun r => (r.val, m.scale), offset }
  else none

def writtenValue (w : Nat) : Operand → Option Value
  | .mem m => (m.place labels next).map (.mem w)
  | op => (argOf w op).map (Arg.value next)

def writtenSseValue : Operand → Option Value
  | .reg r _ => if isXmmReg r then some (.xmm (r.val - 16)) else none
  | .mem m => (m.place labels next).map (.mem 128)
  | _ => none

def writtenValues : List Nat → List Operand → Option (List Value)
  | [], [] => some []
  | w :: ws, op :: ops =>
      (writtenValue labels next w op).bind fun v => (writtenValues ws ops).map (v :: ·)
  | _, _ => none

def generalAction (inst : ParsedInstruction) : Option Action :=
  (generalOperation inst.type).bind fun op =>
    (writtenValues labels next (generalWidths inst) inst.operands).map fun values =>
      .general op (values ++ (impliedCount inst).map (Arg.value next))

def sseAction (inst : ParsedInstruction) : Option Action :=
  match inst.operands with
  | [dst, src] => (sseOperation inst.type).bind fun op => (writtenSseValue labels next dst).bind fun d =>
      (writtenSseValue labels next src).map fun s => .sse op [d, s]
  | _ => none

def furtherAction (inst : ParsedInstruction) : Option Action :=
  (furtherOperation inst.type).bind fun op =>
    (writtenValues labels next (furtherWidths inst) inst.operands).map fun values =>
      .further op (values ++ (impliedArgs inst.type).map (Arg.value next))

/-- What a written machine instruction does, at its place in front of the address `next`. -/
def writtenAction (inst : ParsedInstruction) : Option Action :=
  if (generalOperation inst.type).isSome then generalAction labels next inst
  else if (sseOperation inst.type).isSome then sseAction labels next inst
  else if (furtherOperation inst.type).isSome then furtherAction labels next inst
  else if inst.type = .nop then some (.general .nop [])
  else none

end Written

section Steps

variable {σ : Type} (p : Processor σ) (program : List ParsedInstruction)
  (labels : Label → Option Word) (address : Nat → Word)

/-- A step from one statement of the text to another: `address` gives the statements their
addresses, which instructions see as those of calls and returns. -/
inductive SourceStep : Nat × σ → Nat × σ → Prop
  | skip {i : Nat} {b : ParsedInstruction} {s : σ} : program[i]? = some b →
      (InText program i b → Silent b ∨ b.type = .align) → SourceStep (i, s) (i + 1, s)
  | act {i k : Nat} {b : ParsedInstruction} {action : Action} {s s' : σ} : InText program i b →
      PlainStatement b → writtenAction labels (address (i + 1)) b = some action →
      p.act action (address (i + 1)) s = some (s', address k) → SourceStep (i, s) (k, s')
  | branch {i k : Nat} {b target : ParsedInstruction} {name : Label} {s s' : σ} {taken : Bool} :
      InText program i b → isControlflow b.type = true → b.operands = [.label name] →
      InText program k target → target.label = some name → AssemblyRun.placesLabel target.type = true →
      p.branch (branchOperation b.type) (address (i + 1)) s = some (s', taken) →
      SourceStep (i, s) (if taken then k else i + 1, s')

def SourceRuns : Nat × σ → Nat × σ → Prop :=
  Relation.ReflTransGen (SourceStep p program labels address)

end Steps

section Located

variable {labels : Label → Option Word} {next : Word} {numbers : Placement}

def Leads (labels : Label → Option Word) (next : Word) (numbers : Placement) (m : MemOperand) : Prop :=
  ∀ rip, memReference m = some rip → ∃ target, labels m.label = some target ∧
    (numbers m.label rip m.displacement).signExtend 64 + (if rip then next else 0) =
      target + m.displacement.signExtend 64

theorem place_located {m : MemOperand} (hheeds : m.label ≠ Label.empty → (memReference m).isSome = true)
    (hleads : Leads labels next numbers m) :
    m.place labels next = (addressOf (m.located numbers)).map (Address.place next) := by
  have hregisters : generalRegisters (m.located numbers) = generalRegisters m := rfl
  rw [MemOperand.place, addressOf, hregisters]
  by_cases hgeneral : generalRegisters m = true
  · rw [if_pos hgeneral, if_pos hgeneral, Option.map_some]
    by_cases hlabel : m.label = Label.empty
    · have hnone : memReference m = none := if_pos hlabel
      rw [if_pos hlabel, located_of_none hnone]
      rfl
    · rw [if_neg hlabel]
      obtain ⟨rip, href⟩ := Option.isSome_iff_exists.mp (hheeds hlabel)
      obtain ⟨target, htarget, hsum⟩ := hleads rip href
      have hrip : m.isRipRelative = rip := by
        rw [memReference, if_neg hlabel] at href
        split at href
        · next h =>
            cases href
            exact h
        · next h =>
            split at href
            · cases href
              exact Bool.eq_false_of_not_eq_true h
            · cases href
      have hoffset : (m.located numbers).offset = numbers m.label rip m.displacement := by
        rw [MemOperand.offset, MemOperand.located, href]
        simp
      have hsame : (m.located numbers).isRipRelative = rip := hrip
      rw [htarget, Option.map_some, Option.map_some, Address.place, hoffset, hsame, hsum]
      rfl
  · rw [if_neg hgeneral, if_neg hgeneral]
    rfl

def OperandsLead (labels : Label → Option Word) (next : Word) (numbers : Placement)
    (ops : List Operand) : Prop :=
  ∀ m, .mem m ∈ ops →
    (m.label ≠ Label.empty → (memReference m).isSome = true) ∧ Leads labels next numbers m

theorem value_located {op : Operand} (h : OperandsLead labels next numbers [op]) (w : Nat) :
    writtenValue labels next w op = (argIn w (op.located numbers)).map (Arg.value next) := by
  cases op with
  | mem m =>
      obtain ⟨hheeds, hleads⟩ := h m List.mem_cons_self
      rw [writtenValue, place_located hheeds hleads, located_mem, argIn, Option.map_map, Option.map_map]
      rfl
  | none | reg _ _ | imm _ | label _ | labelDiff _ _ | string _ => rfl

theorem sseValue_located {op : Operand} (h : OperandsLead labels next numbers [op]) :
    writtenSseValue labels next op = (sseArg (op.located numbers)).map (SseArg.value next) := by
  cases op with
  | mem m =>
      obtain ⟨hheeds, hleads⟩ := h m List.mem_cons_self
      rw [writtenSseValue, place_located hheeds hleads, located_mem, sseArg, Option.map_map, Option.map_map]
      rfl
  | reg r size =>
      rw [writtenSseValue, located_reg, sseArg]
      split <;> rfl
  | none | imm _ | label _ | labelDiff _ _ | string _ => rfl

theorem OperandsLead.head {op : Operand} {ops : List Operand}
    (h : OperandsLead labels next numbers (op :: ops)) : OperandsLead labels next numbers [op] :=
  fun m hm => h m (List.mem_cons.mpr (.inl (List.mem_singleton.mp hm)))

theorem OperandsLead.tail {op : Operand} {ops : List Operand}
    (h : OperandsLead labels next numbers (op :: ops)) : OperandsLead labels next numbers ops :=
  fun m hm => h m (List.mem_cons_of_mem _ hm)

theorem writtenValues_located {ws : List Nat} {ops : List Operand}
    (h : OperandsLead labels next numbers ops) : writtenValues labels next ws ops =
      (argsAt ws (ops.map (Operand.located numbers))).map (List.map (Arg.value next)) := by
  induction ws generalizing ops with
  | nil => cases ops <;> rfl
  | cons w ws ih =>
      cases ops with
      | nil => rfl
      | cons op ops =>
          rw [writtenValues, value_located h.head, ih h.tail, List.map_cons, argsAt]
          cases argIn w (op.located numbers) with
          | none => rfl
          | some a =>
              rw [Option.map_some, Option.bind_some, Option.bind_some, Option.map_map, Option.map_map]
              rfl

theorem operandsWidth_located (ops : List Operand) :
    operandsWidth (ops.map (Operand.located numbers)) = operandsWidth ops := by
  cases ops with
  | nil => rfl
  | cons op ops =>
      have hhead : (ops.map (Operand.located numbers)).headD (op.located numbers) =
          (ops.headD op).located numbers := by
        cases ops <;> rfl
      rw [List.map_cons, operandsWidth, operandsWidth, hhead, operationSize_located]

theorem generalWidths_located (inst : ParsedInstruction) :
    generalWidths (inst.located numbers) = generalWidths inst := by
  have hhead : (inst.operands.map (Operand.located numbers)).headD .none =
      (inst.operands.headD .none).located numbers := by
    cases inst.operands <;> rfl
  rw [generalWidths, generalWidths, located_operands, located_type, hhead, operandSize_located,
    operandsWidth_located, List.length_map, List.map_map]
  rfl

theorem indexWidth_located (w : Nat) (op : Operand) :
    indexWidth w (op.located numbers) = indexWidth w op := by
  cases op <;> rfl

theorem furtherWidths_located (inst : ParsedInstruction) :
    furtherWidths (inst.located numbers) = furtherWidths inst := by
  have hlast : (inst.operands.map (Operand.located numbers)).getLastD .none =
      (inst.operands.getLastD .none).located numbers := by
    rw [List.getLastD_eq_getLast?, List.getLastD_eq_getLast?, List.getLast?_map]
    cases inst.operands.getLast? <;> rfl
  rw [furtherWidths, furtherWidths, located_operands, located_type, operandsWidth_located, hlast,
    indexWidth_located, List.map_map]
  rfl

end Located

section Actions

variable {σ : Type} (p : Processor σ)

theorem act_normal (next : Word) (i : Instruction) :
    p.act (actionOf next (.inl (.inl i))) = p.act (actionOf next (.inl (.inl i.normal))) := by
  rw [Instruction.normal.eq_def]
  split
  · exact p.movNumber _ _
  · rfl

theorem act_sameEffect (next : Word) {i j : Instruction} (h : SameEffect i j) :
    p.act (actionOf next (.inl (.inl i))) = p.act (actionOf next (.inl (.inl j))) := by
  rcases h with hnormal | ⟨a, b, rfl, rfl⟩
  · rw [act_normal, hnormal, ← act_normal]
  · exact p.xchgSwap _ _

variable {labels : Label → Option Word} {next : Word} {numbers : Placement} {inst : ParsedInstruction}

theorem generalAction_located (h : OperandsLead labels next numbers inst.operands) :
    generalAction labels next inst =
      (generalMeaning (inst.located numbers)).map fun i => actionOf next (.inl (.inl i)) := by
  have hcount : impliedCount (inst.located numbers) = impliedCount inst := by
    rw [impliedCount, impliedCount, located_type, located_operands, List.length_map]
  rw [generalAction, generalMeaning, located_type, located_operands, generalWidths_located, hcount,
    writtenValues_located h]
  cases generalOperation inst.type with
  | none => rfl
  | some op =>
      rw [Option.bind_some, Option.bind_some, Option.map_map, Option.map_map]
      congr 1
      funext args
      simp [actionOf]

theorem sseAction_located (h : OperandsLead labels next numbers inst.operands) :
    sseAction labels next inst =
      (sseMeaning (inst.located numbers)).map fun i => actionOf next (.inl (.inr i)) := by
  rw [sseAction, sseMeaning, located_type, located_operands]
  rcases hops : inst.operands with - | ⟨dst, - | ⟨src, - | ⟨_, _⟩⟩⟩
  · rfl
  · rfl
  · rw [hops] at h
    simp only [List.map_cons, List.map_nil, sseValue_located h.head, sseValue_located h.tail]
    cases sseOperation inst.type with
    | none => rfl
    | some op =>
        cases sseArg (dst.located numbers) with
        | none => rfl
        | some d =>
            cases sseArg (src.located numbers) <;> rfl
  · rfl

theorem furtherAction_located (h : OperandsLead labels next numbers inst.operands) :
    furtherAction labels next inst =
      (furtherMeaning (inst.located numbers)).map fun i => actionOf next (.inr i) := by
  rw [furtherAction, furtherMeaning, located_type, located_operands, furtherWidths_located,
    writtenValues_located h]
  cases furtherOperation inst.type with
  | none => rfl
  | some op =>
      rw [Option.bind_some, Option.bind_some, Option.map_map, Option.map_map]
      congr 1
      funext args
      simp [actionOf]

theorem Means.act_written {j : AnyInstruction} (hmeans : Means (inst.located numbers) j)
    (h : OperandsLead labels next numbers inst.operands) :
    ∃ action, writtenAction labels next inst = some action ∧ p.act (actionOf next j) = p.act action := by
  rw [writtenAction]
  rcases j with (i | i) | i
  · rcases hmeans with ⟨i', hi', hsame⟩ | ⟨htype, rfl⟩
    · have hsome : (generalOperation inst.type).isSome = true := by
        by_contra hnone
        rw [Option.not_isSome_iff_eq_none] at hnone
        cases (@generalMeaning_none (inst.located numbers) hnone).symm.trans hi'
      refine ⟨actionOf next (.inl (.inl i')), ?_, act_sameEffect p next hsame⟩
      rw [if_pos hsome, generalAction_located h, hi']
      rfl
    · have hnop : inst.type = .nop := htype
      refine ⟨.general .nop [], ?_, rfl⟩
      simp only [hnop]
      rfl
  · have hi : sseMeaning (inst.located numbers) = some i := hmeans
    have hsome : (sseOperation inst.type).isSome = true := by
      by_contra hnone
      rw [Option.not_isSome_iff_eq_none] at hnone
      cases (@sseMeaning_none (inst.located numbers) hnone).symm.trans hi
    refine ⟨actionOf next (.inl (.inr i)), ?_, rfl⟩
    rw [(sse_alone hsome).1, if_neg (by decide), if_pos hsome, sseAction_located h, hi]
    rfl
  · have hi : furtherMeaning (inst.located numbers) = some i := hmeans
    have hsome : (furtherOperation inst.type).isSome = true := by
      by_contra hnone
      rw [Option.not_isSome_iff_eq_none] at hnone
      cases (@furtherMeaning_none (inst.located numbers) hnone).symm.trans hi
    obtain ⟨hgeneral, hsse, -⟩ := further_alone hsome
    refine ⟨actionOf next (.inr i), ?_, rfl⟩
    rw [hgeneral, hsse, if_neg (by decide), if_neg (by decide), if_pos hsome, furtherAction_located h, hi]
    rfl

theorem directive_noAction (h : machineEncoder inst.type = none) : writtenAction labels next inst = none := by
  cases htype : inst.type
  all_goals
    first
    | simp only [writtenAction, htype]
      rfl
    | rw [htype] at h
      cases h

theorem silent_noAction (hplain : PlainStatement inst) (h : Silent inst) :
    writtenAction labels next inst = none := by
  apply directive_noAction
  rcases h with hu | ⟨hkind, -⟩
  · rw [isUnencoded, hplain.encoded, Bool.or_false, Bool.or_eq_true, beq_iff_eq, beq_iff_eq] at hu
    rcases hu with htype | htype <;> rw [htype] <;> rfl
  · exact (silent_directive hkind).1

theorem operands_of_ignored {action : Action} (h : writtenAction labels next inst = some action)
    (hignores : ignoresOperands inst.type = true) : inst.operands = [] := by
  have hfurther : (furtherOperation inst.type).isSome = true ∧ furtherWidths inst = [] := by
    cases htype : inst.type
    all_goals
      first
      | rw [htype] at hignores
        exact absurd hignores (by decide)
      | refine ⟨rfl, ?_⟩
        rw [furtherWidths, htype]
        rfl
  obtain ⟨hgeneral, hsse, -⟩ := further_alone hfurther.1
  rw [writtenAction, hgeneral, hsse, if_neg (by decide), if_neg (by decide), if_pos hfurther.1,
    furtherAction, hfurther.2] at h
  obtain ⟨op, -, hvalues⟩ := Option.bind_eq_some_iff.mp h
  obtain ⟨values, hvalues, -⟩ := Option.map_eq_some_iff.mp hvalues
  cases hops : inst.operands with
  | nil => rfl
  | cons op ops =>
      rw [hops] at hvalues
      cases hvalues

end Actions

theorem Means.no_branch {inst : ParsedInstruction} {j : AnyInstruction} (h : Means inst j) :
    directBranch j = none := by
  have hno := h.no_displacement
  rcases j with (i | i) | i
  · rfl
  · rfl
  · rw [directBranch, hno]
    rfl

theorem directBranch_label {type : InstType} (hb : isControlflow type = true) (d : Word) :
    directBranch (.inr ⟨branchOperation type, [.imm d.toNat]⟩) = some (branchOperation type, d) := by
  rw [directBranch, displacementOf_branch hb]
  rfl

end X86Assembler
