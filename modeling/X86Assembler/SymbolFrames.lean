import X86Assembler.Assemble
import X86Assembler.EmissionRules
import X86Assembler.Emits

namespace X86Assembler

open CString (Byte)
open Fallible (Along each ignore)

structure SameTable (a b : AssemblerContext) : Prop where
  symbols : b.symbols = a.symbols
  symbolHash : b.symbolHash = a.symbolHash

theorem SameTable.refl (a : AssemblerContext) : SameTable a a := ⟨rfl, rfl⟩

theorem SameTable.trans {a b c : AssemblerContext} (hab : SameTable a b) (hbc : SameTable b c) :
    SameTable a c := ⟨hbc.symbols.trans hab.symbols, hbc.symbolHash.trans hab.symbolHash⟩

/-- A relation between contexts that composes and sees nothing but the symbol table. -/
structure TableRule (R : AssemblerContext → AssemblerContext → Prop) : Prop where
  same : ∀ {a b : AssemblerContext}, SameTable a b → R a b
  trans : ∀ a b c : AssemblerContext, R a b → R b c → R a c

theorem sameTable_rule : TableRule SameTable := ⟨id, fun _ _ _ => SameTable.trans⟩

theorem listingStart_same (ctx : AssemblerContext) (line : Nat) (source : Text) :
    SameTable ctx (ctx.listingStartInstruction line source) := by
  rw [AssemblerContext.listingStartInstruction]
  split <;> exact ⟨rfl, rfl⟩

theorem listingEnd_same (ctx : AssemblerContext) : SameTable ctx ctx.listingEndInstruction := by
  rw [AssemblerContext.listingEndInstruction]
  split
  · split <;> exact ⟨rfl, rfl⟩
  · exact .refl ctx

namespace TableRule

variable {R : AssemblerContext → AssemblerContext → Prop} (h : TableRule R)

include h

theorem refl (a : AssemblerContext) : R a a := h.same (.refl a)

theorem pure {α : Type} (a : α) : Along R (Pure.pure a : Asm α) := .pure h.refl a

theorem bind {α β : Type} {m : Asm α} {f : α → Asm β} (hm : Along R m)
    (hf : ∀ a, Along R (f a)) : Along R (m >>= f) := hm.bind h.trans hf

theorem each {α : Type} {f : α → Asm Unit} (hf : ∀ a, Along R (f a)) (as : List α) :
    Along R (Fallible.each f as) := .each h.refl h.trans hf as

theorem get : Along R (Fallible.get : Asm AssemblerContext) := h.refl

theorem modify {f : AssemblerContext → AssemblerContext} (hf : ∀ ctx, SameTable ctx (f ctx)) :
    Along R (Fallible.modify f) := fun ctx => h.same (hf ctx)

theorem reportError {α : Type} (d : Diagnostic) : Along R (X86Assembler.reportError d : Asm α) :=
  fun _ => h.same ⟨rfl, rfl⟩

theorem emitByte (b : Byte) : Along R (X86Assembler.emitByte b) := by
  intro ctx
  apply h.same
  rw [X86Assembler.emitByte]
  split
  · obtain ⟨-, -, hsym, hhash, -⟩ := listingEmitByte_output (ctx.pushByte b) b
    refine ⟨hsym.trans ?_, hhash.trans ?_⟩
    · rw [AssemblerContext.pushByte]
      split <;> rfl
    · rw [AssemblerContext.pushByte]
      split <;> rfl
  · exact ⟨rfl, rfl⟩

theorem addFixup (label : Label) (size : Nat) (type : InstType) (rip : Bool) :
    Along R (X86Assembler.addFixup label size type rip) := by
  intro ctx
  apply h.same
  rw [X86Assembler.addFixup]
  split <;> exact ⟨rfl, rfl⟩

theorem emissionRule : EmissionRule R where
  refl := h.refl
  trans := h.trans
  emitByte := h.emitByte
  addFixup := h.addFixup
  report := fun _ _ => h.same ⟨rfl, rfl⟩
  sectionDir := fun _ _ => h.same ⟨rfl, rfl⟩

theorem emitUnchecked (bs : List Byte) : Along R (X86Assembler.emitUnchecked bs) :=
  h.emissionRule.emitUnchecked bs

theorem run {α : Type} (m : Encoder α) : Along R m.run := h.emissionRule.run m

theorem encodeComm {inst : ParsedInstruction} (hadd : ∀ name address ctx,
    inst.operands.head? = some (.label name) →
      R ctx (addSymbol name address (inst.type == .comm) false (some .data) ctx).2) :
    Along R (X86Assembler.encodeComm inst) :=
  h.emissionRule.encodeComm fun name address hname ctx => hadd name address ctx hname

theorem encodeListed {inst : ParsedInstruction} (what : String)
    (hcomm : directiveKind inst.type = some .comm → Along R (X86Assembler.encodeComm inst)) :
    Along R (X86Assembler.encodeListed what inst) := by
  intro ctx
  have hstart := h.same (listingStart_same ctx inst.lineNumber inst.originalLine)
  have hencoded := h.trans _ _ _ hstart (h.emissionRule.encodeInstruction hcomm _)
  rw [X86Assembler.encodeListed]
  cases henc : X86Assembler.encodeInstruction inst
      (ctx.listingStartInstruction inst.lineNumber inst.originalLine) with
  | mk r ctx₁ =>
      rw [henc] at hencoded
      have hend := h.same (listingEnd_same ctx₁)
      cases r with
      | none =>
          exact h.trans _ _ _ hencoded (h.trans _ _ _ hend (h.same ⟨rfl, rfl⟩))
      | some _ => exact h.trans _ _ _ hencoded hend

theorem listed {inst : ParsedInstruction} {m : Asm Unit} (hm : Along R m) :
    Along R (X86Assembler.listed inst m) :=
  h.bind (h.modify fun ctx => listingStart_same ctx _ _) fun _ =>
    h.bind hm fun _ => h.modify listingEnd_same

/-- A statement of the text section: what it marks, what it declares, and what it encodes. -/
theorem emitTextStatement {inst : ParsedInstruction}
    (hglobal : inst.type = .global → ∀ ctx, R ctx (inst.operands.foldl markGlobal ctx))
    (hdeclare : inst.type = .externSym → Along R (Fallible.each declareExternal inst.operands))
    (hcall : ∀ ctx, R ctx (markCallTarget ctx inst))
    (hcomm : directiveKind inst.type = some .comm → Along R (X86Assembler.encodeComm inst)) :
    Along R (X86Assembler.emitTextStatement inst) := by
  rw [X86Assembler.emitTextStatement]
  split
  · exact hglobal ‹_›
  split
  · exact hdeclare ‹_›
  · refine h.bind hcall fun _ => ?_
    split
    · exact h.pure ()
    · refine h.bind (h.modify fun ctx => ?_) fun _ => h.encodeListed _ hcomm
      rw [addLineMapEntry]
      split <;> exact ⟨rfl, rfl⟩

theorem emitDataStatement {inst : ParsedInstruction}
    (hcomm : directiveKind inst.type = some .comm → Along R (X86Assembler.encodeComm inst)) :
    Along R (X86Assembler.emitDataStatement inst) := by
  rw [X86Assembler.emitDataStatement]
  split
  · exact h.listed (h.emitUnchecked _)
  · split
    · exact h.listed (h.emitUnchecked _)
    · exact h.pure ()
  · exact h.encodeListed _ hcomm
  · exact h.encodeListed _ hcomm
  · exact h.encodeListed _ hcomm
  · exact h.pure ()

theorem recordLabel {inst : ParsedInstruction} (address : Word)
    (hadd : ∀ name sect ctx, inst.label = some name →
      R ctx (addSymbol name address false false (some sect) ctx).2)
    (hdeclare : ∀ name ctx, R ctx (recordDeclaration ctx name inst)) :
    Along R (X86Assembler.recordLabel inst address) := by
  rw [X86Assembler.recordLabel]
  cases hl : inst.label with
  | none => exact h.pure ()
  | some name =>
      exact h.bind h.get fun ctx => h.bind (fun c => hadd name _ c hl) fun _ => hdeclare name

theorem recordStep {inst : ParsedInstruction} (dataAddress : Word)
    (hrecord : inst.type ≠ .sectionDir → ∀ address, Along R (X86Assembler.recordLabel inst address)) :
    Along R (X86Assembler.recordStep dataAddress inst) := by
  refine h.bind h.get fun ctx => ?_
  split
  · exact h.bind (h.modify fun _ => ⟨rfl, rfl⟩) fun _ => h.pure _
  · rename_i htype
    refine h.bind (hrecord htype _) fun _ => ?_
    split
    · exact h.reportError _
    split
    · exact h.bind (h.modify fun _ => ⟨rfl, rfl⟩) fun _ => h.pure _
    · exact h.pure _

theorem recordLabels {insts : List ParsedInstruction} (dataAddress : Word)
    (hrecord : ∀ inst ∈ insts, inst.type ≠ .sectionDir →
      ∀ address, Along R (X86Assembler.recordLabel inst address)) :
    Along R (X86Assembler.recordLabels dataAddress insts) := by
  induction insts generalizing dataAddress with
  | nil => exact h.pure ()
  | cons inst insts ih =>
      refine h.bind (h.recordStep dataAddress (hrecord inst List.mem_cons_self)) fun address => ?_
      exact ih address fun inst' hmem => hrecord inst' (List.mem_cons_of_mem _ hmem)

end TableRule

end X86Assembler
