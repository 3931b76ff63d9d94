import X86Assembler.Dispatch

namespace X86Assembler

open CString (Byte)
open Fallible (Along ignore)

/-- A relation between contexts that composes and holds across each thing an encoder does:
a byte, a fixup, a report and a change of section. -/
structure EmissionRule (R : AssemblerContext → AssemblerContext → Prop) : Prop where
  refl : ∀ a : AssemblerContext, R a a
  trans : ∀ a b c : AssemblerContext, R a b → R b c → R a c
  emitByte : ∀ b, Along R (emitByte b)
  addFixup : ∀ label size type rip, Along R (addFixup label size type rip)
  report : ∀ (ctx : AssemblerContext) (d : Diagnostic), R ctx (ctx.report d)
  sectionDir : ∀ (ctx : AssemblerContext) (inst : ParsedInstruction),
    R ctx (applySectionDirective ctx inst)

namespace EmissionRule

variable {R : AssemblerContext → AssemblerContext → Prop} (h : EmissionRule R)

include h

theorem reportError {α : Type} (d : Diagnostic) : Along R (X86Assembler.reportError d : Asm α) :=
  fun ctx => h.report ctx d

theorem emitUnchecked (bs : List Byte) : Along R (X86Assembler.emitUnchecked bs) := by
  induction bs with
  | nil => exact .pure h.refl ()
  | cons b bs ih => exact (h.emitByte b).ignore.bind h.trans fun _ => ih

theorem perform (e : Emission) : Along R e.perform := by
  cases e with
  | byte b => exact h.emitByte b
  | fixup label size type rip => exact h.addFixup label size type rip

theorem run {α : Type} (m : Encoder α) : Along R m.run := by
  have hget : Along R (Fallible.get : Asm AssemblerContext) := h.refl
  refine hget.bind h.trans fun ctx => (Along.each h.refl h.trans h.perform _).bind h.trans fun _ => ?_
  split
  · exact .pure h.refl _
  · exact h.reportError _

theorem encodeComm {inst : ParsedInstruction} (hadd : ∀ name address,
    inst.operands.head? = some (.label name) →
      Along R (addSymbol name address (inst.type == .comm) false (some .data))) :
    Along R (X86Assembler.encodeComm inst) := by
  intro ctx
  rw [X86Assembler.encodeComm]
  split
  · rename_i name size rest hops
    split
    · exact h.report _ _
    · have hname : inst.operands.head? = some (.label name) := by rw [hops]; rfl
      refine (h.emitUnchecked _).bind h.trans (fun _ => ?_) ctx
      exact (hadd name _ hname).ignore.bind h.trans fun _ => h.emitUnchecked _
  · exact h.report _ _

theorem encodeDirective {inst : ParsedInstruction} (hcomm : directiveKind inst.type = some .comm →
    Along R (X86Assembler.encodeComm inst)) : Along R (X86Assembler.encodeDirective inst) := by
  rw [X86Assembler.encodeDirective]
  split
  · exact h.emitUnchecked _
  · exact h.emitUnchecked _
  · exact .pure h.refl ()
  · exact fun ctx => h.sectionDir ctx inst
  · intro ctx
    rw [encodeAlign]
    split
    · dsimp only
      split
      · exact h.emitUnchecked _ ctx
      · exact h.report _ _
    · exact h.report _ _
  · intro ctx
    rw [encodeIncbin]
    split
    · split
      · exact h.emitUnchecked _ ctx
      · exact h.report _ _
    · exact h.report _ _
  · exact hcomm ‹_›
  · exact h.reportError _

theorem encodeInstruction {inst : ParsedInstruction}
    (hcomm : directiveKind inst.type = some .comm → Along R (X86Assembler.encodeComm inst)) :
    Along R (X86Assembler.encodeInstruction inst) := by
  refine (h.run _).bind h.trans fun _ => ?_
  split
  · exact h.run _
  · exact h.encodeDirective hcomm

end EmissionRule

end X86Assembler
