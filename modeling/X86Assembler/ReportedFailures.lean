import X86Assembler.Assemble
import X86Assembler.EmissionRules
import X86Assembler.Library.Reporting

namespace X86Assembler

open CString (Byte)
open Fallible (Along Ensures Explained Explains ignore each)

def Printing (a b : AssemblerContext) : Prop := a.stderr <+: b.stderr

namespace Printing

theorem refl (a : AssemblerContext) : Printing a a := List.prefix_rfl

theorem trans (a b c : AssemblerContext) (hab : Printing a b) (hbc : Printing b c) :
    Printing a c := List.IsPrefix.trans hab hbc

theorem of_eq {a b : AssemblerContext} (h : b.stderr = a.stderr) : Printing a b :=
  ⟨[], by rw [List.append_nil, h]⟩

theorem report (ctx : AssemblerContext) (d : Diagnostic) : Printing ctx (ctx.report d) :=
  List.prefix_append _ _

theorem emitByte (b : Byte) : Along Printing (X86Assembler.emitByte b) := by
  intro ctx
  rw [X86Assembler.emitByte]
  split
  · apply of_eq
    have hpush : (ctx.pushByte b).stderr = ctx.stderr := by
      rw [AssemblerContext.pushByte]
      split <;> rfl
    rw [← hpush]
    dsimp only [AssemblerContext.listingEmitByte]
    split
    · split <;> rfl
    · rfl
  · exact report _ _

theorem emissionRule : EmissionRule Printing where
  refl := refl
  trans := trans
  emitByte := emitByte
  addFixup := fun label size type rip ctx => by
    rw [addFixup]
    split
    · exact report _ _
    · exact refl _
  report := report
  sectionDir := fun ctx _ => refl ctx

theorem addSymbol (name : Label) (address : Word) (isGlobal isExternal : Bool)
    (sect : Option SectionId) :
    Along Printing (X86Assembler.addSymbol name address isGlobal isExternal sect) := by
  intro ctx
  rw [X86Assembler.addSymbol]
  split
  · exact report _ _
  · split
    · split
      · exact report _ _
      · exact refl _
    · exact refl _

theorem encodeInstruction (inst : ParsedInstruction) :
    Along Printing (X86Assembler.encodeInstruction inst) :=
  emissionRule.encodeInstruction fun _ => emissionRule.encodeComm fun name address _ =>
    addSymbol name address _ _ _

theorem moveLabel (ctx : AssemblerContext) (name : Label) (address : Word) :
    (moveLabel ctx name address).stderr = ctx.stderr := by
  rw [X86Assembler.moveLabel]
  refine List.foldlRecOn _ _ (motive := fun c : AssemblerContext => c.stderr = ctx.stderr) rfl
    fun c hc sym _ => ?_
  split
  · exact hc
  · exact hc

theorem placeLabel (ctx : AssemblerContext) (inst : ParsedInstruction) :
    Printing ctx (X86Assembler.placeLabel ctx inst) := by
  rw [X86Assembler.placeLabel]
  split
  · exact refl ctx
  · exact of_eq (moveLabel ctx _ _)

theorem markGlobals (ctx : AssemblerContext) (ops : List Operand) :
    Printing ctx (ops.foldl markGlobal ctx) := by
  refine List.foldlRecOn _ _ (motive := Printing ctx) (refl ctx) fun c hc op _ => ?_
  cases op <;> exact hc

theorem markCallTarget (ctx : AssemblerContext) (inst : ParsedInstruction) :
    Printing ctx (X86Assembler.markCallTarget ctx inst) := by
  rw [X86Assembler.markCallTarget]
  split <;> exact refl ctx

theorem listingStart (ctx : AssemblerContext) (line : Nat) (source : Text) :
    (ctx.listingStartInstruction line source).stderr = ctx.stderr := by
  rw [AssemblerContext.listingStartInstruction]
  split <;> rfl

theorem listingEnd (ctx : AssemblerContext) :
    ctx.listingEndInstruction.stderr = ctx.stderr := by
  rw [AssemblerContext.listingEndInstruction]
  split
  · split <;> rfl
  · rfl

theorem relaxStep (st : RelaxState) (inst : ParsedInstruction) :
    (relaxStep st inst).ctx.stderr = st.ctx.stderr := by
  rw [X86Assembler.relaxStep]
  split
  · rfl
  split
  · rfl
  · dsimp only
    rw [relaxLabel]
    split
    · rfl
    split
    · rfl
    split <;> rfl

theorem relaxIterations (n : Nat) (ctx : AssemblerContext) (insts : List ParsedInstruction) :
    Printing ctx (relaxIterations n ctx insts) := by
  induction n generalizing ctx with
  | zero => exact refl ctx
  | succ n ih =>
      have hone : Printing ctx (relaxIteration ctx insts).ctx := by
        rw [relaxIteration]
        refine List.foldlRecOn _ _ (motive := fun st : RelaxState => Printing ctx st.ctx) (refl ctx)
          fun st hst inst _ => ?_
        exact trans _ _ _ hst (of_eq (relaxStep st inst))
      rw [X86Assembler.relaxIterations]
      split
      · exact trans _ _ _ hone (ih _)
      · exact hone

end Printing

/-- A failure ends with a report whose line is one of `L`. -/
abbrev Reports {α : Type} (L : Nat → Prop) (P : α → Prop) (m : Asm α) : Prop :=
  Explains AssemblerContext.stderr (fun d => L d.line) P m

namespace Reports

variable {L : Nat → Prop} {inst : ParsedInstruction}

theorem reportError {α : Type} {P : α → Prop} {d : Diagnostic} (hd : L d.line) :
    Reports L P (X86Assembler.reportError d : Asm α) :=
  fun _ => .of_none rfl (Fallible.explained_concat hd)

theorem emitUnchecked (bs : List Byte) :
    Reports L (fun _ => True) (X86Assembler.emitUnchecked bs) := by
  induction bs with
  | nil => exact .pure trivial
  | cons b bs ih => exact (Explains.ignore (Printing.emitByte b)).bind fun _ _ => ih

theorem listed {m : Asm Unit} (hm : Reports L (fun _ => True) m) :
    Reports L (fun _ => True) (X86Assembler.listed inst m) :=
  (Explains.modify fun ctx => Printing.of_eq (Printing.listingStart ctx _ _)).bind fun _ _ =>
    hm.bind fun _ _ => .modify fun ctx => Printing.of_eq (Printing.listingEnd ctx)

theorem encodeListed (what : String) (hline : L inst.lineNumber) :
    Reports L (fun _ => True) (X86Assembler.encodeListed what inst) := by
  refine Fallible.explains_iff.mpr fun ctx => ?_
  have hencoded := Printing.encodeInstruction inst
    (ctx.listingStartInstruction inst.lineNumber inst.originalLine)
  rw [Printing, Printing.listingStart] at hencoded
  rw [X86Assembler.encodeListed]
  cases henc : X86Assembler.encodeInstruction inst
      (ctx.listingStartInstruction inst.lineNumber inst.originalLine) with
  | mk r ctx₁ =>
      rw [henc, ← Printing.listingEnd ctx₁] at hencoded
      cases r with
      | none => exact .after hencoded (Fallible.explained_concat hline)
      | some u => exact ⟨hencoded, trivial⟩

theorem recordLabel (address : Word) :
    Reports L (fun _ => True) (X86Assembler.recordLabel inst address) := by
  rw [X86Assembler.recordLabel]
  split
  · exact .pure trivial
  · refine Explains.get.bind fun ctx _ => ?_
    exact (Explains.ignore (Printing.addSymbol _ _ _ _ _)).bind fun _ _ => .modify Printing.refl

theorem recordStep (dataAddress : Word) (hline : L inst.lineNumber) :
    Reports L (fun _ => True) (X86Assembler.recordStep dataAddress inst) := by
  refine Explains.get.bind fun ctx _ => ?_
  split
  · refine Explains.bind (.modify Printing.refl) fun _ _ => ?_
    exact .pure trivial
  refine (recordLabel _).bind fun _ _ => ?_
  split
  · exact reportError hline
  split
  · refine Explains.bind (.modify Printing.refl) fun _ _ => ?_
    exact .pure trivial
  · exact .pure trivial

theorem recordLabels {insts : List ParsedInstruction} (dataAddress : Word)
    (hlines : ∀ inst ∈ insts, L inst.lineNumber) :
    Reports L (fun _ => True) (X86Assembler.recordLabels dataAddress insts) := by
  induction insts generalizing dataAddress with
  | nil => exact .pure trivial
  | cons inst insts ih =>
      rw [List.forall_mem_cons] at hlines
      exact (recordStep dataAddress hlines.1).bind fun address _ => ih address hlines.2

theorem equValue_line {ctx : AssemblerContext} {op : Operand} {d : Diagnostic}
    (h : equValue ctx inst op = .error d) : d.line = inst.lineNumber := by
  unfold equValue at h
  split at h
  · cases h
  · split at h <;> cases h
    rfl
  · split at h <;> cases h <;> rfl
  · cases h
    rfl

theorem collectAttributes (st : TextPassState) (ops : List Operand) (hline : L inst.lineNumber) :
    Reports L (fun _ => True) (X86Assembler.collectAttributes inst st ops) := by
  induction ops generalizing st with
  | nil => exact .pure trivial
  | cons op ops ih =>
      refine Explains.bind (P := fun _ => True) ?_ fun st' _ => ih st'
      unfold collectAttribute
      split
      · split
        · split
          · exact reportError hline
          · exact .pure trivial
        · split
          · exact reportError hline
          · exact .pure trivial
      · exact reportError hline

theorem emitTextStatement (hline : L inst.lineNumber) :
    Reports L (fun _ => True) (X86Assembler.emitTextStatement inst) := by
  rw [X86Assembler.emitTextStatement]
  split
  · exact .modify fun ctx => Printing.markGlobals ctx inst.operands
  split
  · refine .each fun op _ => ?_
    unfold declareExternal
    split
    · exact .ignore (Printing.addSymbol _ _ _ _ _)
    · exact .pure trivial
  refine (Explains.modify fun ctx => Printing.markCallTarget ctx inst).bind fun _ _ => ?_
  split
  · exact .pure trivial
  · refine (Explains.modify fun ctx => ?_).bind fun _ _ => encodeListed _ hline
    rw [addLineMapEntry]
    split <;> exact List.prefix_rfl

theorem textStep (st : TextPassState) (hline : L inst.lineNumber) :
    Reports L (fun r => L r.2.lineNumber) (X86Assembler.textStep st inst) := by
  refine Explains.get.bind fun ctx _ => ?_
  split
  · refine Explains.bind (.modify Printing.refl) fun _ _ => ?_
    exact .pure hline
  split
  · refine (collectAttributes st _ hline).bind fun _ _ => ?_
    exact .pure hline
  split
  · exact .pure hline
  · refine Explains.bind (.modify fun ctx => Printing.placeLabel ctx inst) fun _ _ => ?_
    refine Explains.bind (emitTextStatement ?_) fun _ _ => ?_
    · exact hline
    · exact .pure hline

theorem textIterations (n : Nat) {insts : List ParsedInstruction}
    (hlines : ∀ inst ∈ insts, L inst.lineNumber) :
    Reports L (fun r => ∀ out ∈ r.2, L out.lineNumber) (X86Assembler.textIterations n insts) := by
  have hiteration : ∀ {insts : List ParsedInstruction}, (∀ inst ∈ insts, L inst.lineNumber) →
      Reports L (fun r => ∀ out ∈ r.2, L out.lineNumber) (textIteration insts) := by
    intro insts hlines
    refine Explains.bind (.modify Printing.refl) fun _ _ => ?_
    exact .walk (fun st inst hinst => textStep st (hlines inst hinst)) _
  induction n generalizing insts with
  | zero => exact hiteration hlines
  | succ n ih =>
      refine (hiteration hlines).bind fun r hr => ?_
      dsimp only
      split
      · exact ih hr
      · exact .pure hr

theorem textModes {insts : List ParsedInstruction} (hlines : ∀ inst ∈ insts, L inst.lineNumber) :
    Reports L (fun r => ∀ out ∈ r.2, L out.lineNumber) (X86Assembler.textModes insts) := by
  refine Explains.bind (.modify Printing.refl) fun _ _ => ?_
  refine (textIterations _ hlines).bind fun r hr => ?_
  dsimp only
  split
  · exact Explains.bind (.modify Printing.refl) fun _ _ => textIterations _ hr
  · exact .pure hr

theorem dataPass {insts : List ParsedInstruction} (hlines : ∀ inst ∈ insts, L inst.lineNumber) :
    Reports L (fun _ => True) (X86Assembler.dataPass insts) := by
  refine Explains.bind (.modify Printing.refl) fun _ _ => .each fun inst hinst => ?_
  have hline : ∀ ctx, L (rewriteConstantLabelOperands ctx inst).lineNumber :=
    fun _ => hlines inst hinst
  refine Explains.get.bind fun ctx _ => ?_
  split
  · exact .modify Printing.refl
  split
  · exact .pure trivial
  refine (Explains.modify fun ctx => Printing.placeLabel ctx inst).bind fun _ _ => ?_
  rw [emitDataStatement]
  split
  · exact listed (emitUnchecked _)
  · split
    · exact listed (emitUnchecked _)
    · exact .pure trivial
  · exact encodeListed _ (hline _)
  · exact encodeListed _ (hline _)
  · exact encodeListed _ (hline _)
  · exact .pure trivial

section Passes

variable (hone : L 1)

include hone

theorem addSymbol (name : Label) (address : Word) (isGlobal isExternal : Bool)
    (sect : Option SectionId) :
    Reports L (fun _ => True) (X86Assembler.addSymbol name address isGlobal isExternal sect) := by
  refine Fallible.explains_iff.mpr fun ctx => ?_
  rw [X86Assembler.addSymbol]
  split
  · exact Fallible.explained_concat hone
  split
  · split
    · exact Fallible.explained_concat hone
    · exact ⟨List.prefix_rfl, trivial⟩
  · exact ⟨List.prefix_rfl, trivial⟩

theorem upsertConstantSymbol (name : Label) (value : Word) :
    Reports L (fun _ => True) (X86Assembler.upsertConstantSymbol name value) := by
  have hadd := Fallible.explains_iff.mp (addSymbol hone name value false false none)
  refine Fallible.explains_iff.mpr fun ctx => ?_
  rw [X86Assembler.upsertConstantSymbol]
  split
  · rename_i existing _
    split
    · exact Fallible.explained_concat hone
    · dsimp only
      split
      · exact ⟨List.prefix_rfl, trivial⟩
      · exact hadd (symbolHashUpdate ctx name value existing.isGlobal false none)
  · exact hadd ctx

theorem resolveEqu (hline : L inst.lineNumber) :
    Reports L (fun _ => True) (X86Assembler.resolveEqu inst) := by
  rw [X86Assembler.resolveEqu]
  split
  · split
    · rename_i name op ops _ _
      refine Explains.get.bind fun ctx _ => ?_
      cases hvalue : equValue ctx inst op with
      | ok value => exact upsertConstantSymbol hone name value
      | error d => exact reportError (equValue_line hvalue ▸ hline)
    · exact .pure trivial
  · exact .pure trivial

theorem layoutProgram {insts : List ParsedInstruction}
    (hlines : ∀ inst ∈ insts, L inst.lineNumber) :
    Reports L (fun _ => True) (X86Assembler.layoutProgram insts) := by
  have hequ : Reports L (fun _ => True) (resolveEquSymbolValues insts) :=
    .each fun inst hinst => resolveEqu hone (hlines inst hinst)
  refine Explains.bind (.modify Printing.refl) fun _ _ => Explains.get.bind fun ctx _ => ?_
  refine (recordLabels _ hlines).bind fun _ _ => hequ.bind fun _ _ => ?_
  exact (Explains.modify fun ctx => Printing.relaxIterations 8 ctx insts).bind fun _ _ => hequ

theorem applySymbolAttribute (directive : String) (f : Symbol → Symbol) (name : Label) :
    Reports L (fun _ => True) (X86Assembler.applySymbolAttribute directive f name) := by
  refine Fallible.explains_iff.mpr fun ctx => ?_
  rw [X86Assembler.applySymbolAttribute]
  split
  · exact ⟨List.prefix_rfl, trivial⟩
  · exact Fallible.explained_concat hone

theorem applySymbolAttributes (st : TextPassState) :
    Reports L (fun _ => True) (X86Assembler.applySymbolAttributes st) :=
  (Explains.each fun _ _ => applySymbolAttribute hone _ _ _).bind fun _ _ =>
    .each fun _ _ => applySymbolAttribute hone _ _ _

theorem resolveFixups : Reports L (fun _ => True) X86Assembler.resolveFixups := by
  refine Explains.get.bind fun ctx _ => .each fun f _ => Fallible.explains_iff.mpr fun ctx => ?_
  rw [resolveFixup]
  split
  · exact Fallible.explained_concat hone
  dsimp only
  split
  · exact Fallible.explained_concat hone
  split
  · exact ⟨List.prefix_rfl, trivial⟩
  · exact Fallible.explained_concat hone

end Passes

end Reports

def CanonError.diagnostic : CanonError → Diagnostic
  | .printed d => d
  | .recorded d => d

/-- What canonicalisation gives is in `P`, and its errors stand on lines of `L`. -/
def Blames {α : Type} (L : Nat → Prop) (P : α → Prop) : Except CanonError α → Prop
  | .ok a => P a
  | .error e => L e.diagnostic.line

namespace Blames

variable {L : Nat → Prop}

theorem bind {α β : Type} {P : α → Prop} {Q : β → Prop} {m : Except CanonError α}
    {f : α → Except CanonError β} (hm : Blames L P m) (hf : ∀ a, P a → Blames L Q (f a)) :
    Blames L Q (m >>= f) := by
  cases m with
  | error e => exact hm
  | ok a => exact hf a hm

theorem rewriteEach {σ α : Type} {f : σ → α → Except CanonError (σ × α)} {as : List α}
    (hf : ∀ st, ∀ a ∈ as, Blames L (fun _ => True) (f st a)) (st : σ) :
    Blames L (fun _ => True) (rewriteEach f st as) := by
  induction as generalizing st with
  | nil => exact trivial
  | cons a as ih =>
      rw [X86Assembler.rewriteEach]
      refine (hf st a List.mem_cons_self).bind fun r _ => ?_
      exact (ih (fun st a ha => hf st a (List.mem_cons_of_mem _ ha)) r.1).bind fun _ _ => trivial

theorem rewriteIndexed {f : Nat → CanonState → ParsedInstruction →
      Except CanonError (CanonState × ParsedInstruction)}
    (hf : ∀ i st inst, L inst.lineNumber → Blames L (fun r => L r.2.lineNumber) (f i st inst))
    {insts : List ParsedInstruction} (i : Nat) (st : CanonState)
    (hlines : ∀ inst ∈ insts, L inst.lineNumber) :
    Blames L (fun r => ∀ out ∈ r.2, L out.lineNumber) (rewriteIndexed f i st insts) := by
  induction insts generalizing i st with
  | nil => exact fun out hout => by cases hout
  | cons inst insts ih =>
      rw [List.forall_mem_cons] at hlines
      rw [X86Assembler.rewriteIndexed]
      refine (hf i st inst hlines.1).bind fun r hr => ?_
      exact (ih (i + 1) r.1 hlines.2).bind fun rs hrs => List.forall_mem_cons.mpr ⟨hr, hrs⟩

variable (hone : L 1)

include hone

theorem getOrCreateLocalAlias (st : CanonState) (name : Label) :
    Blames L (fun _ => True) (getOrCreateLocalAlias st name) := by
  rw [X86Assembler.getOrCreateLocalAlias]
  split
  · exact trivial
  split
  · exact hone
  · split
    · exact hone
    · exact trivial

theorem normalizeLabelReference (i : Nat) {line : Nat} (st : CanonState) (label : Label)
    (hline : L line) : Blames L (fun _ => True) (normalizeLabelReference i line st label) := by
  rw [X86Assembler.normalizeLabelReference]
  split
  · exact getOrCreateLocalAlias hone st label
  split
  · split
    · exact trivial
    · exact hline
  split
  · split
    · exact trivial
    · exact hline
  · exact trivial

theorem normalizeOperand (i : Nat) {line : Nat} (st : CanonState) (op : Operand) (hline : L line) :
    Blames L (fun _ => True) (normalizeOperand i line st op) := by
  have hname : ∀ st label,
      Blames L (fun _ => True) (X86Assembler.normalizeLabelReference i line st label) :=
    fun st label => normalizeLabelReference hone i st label hline
  unfold X86Assembler.normalizeOperand
  split
  · exact (hname _ _).bind fun _ _ => trivial
  · exact (hname _ _).bind fun _ _ => (hname _ _).bind fun _ _ => trivial
  · exact (hname _ _).bind fun _ _ => trivial
  · exact trivial

theorem defineLabel (i : Nat) (st : CanonState) (inst : ParsedInstruction)
    (hline : L inst.lineNumber) :
    Blames L (fun r => L r.2.lineNumber) (defineLabel i st inst) := by
  rw [X86Assembler.defineLabel]
  split
  · exact hline
  split
  · split
    · exact hline
    · exact hline
  split
  · split
    · exact hline
    · exact (getOrCreateLocalAlias hone st _).bind fun _ _ => hline
  split
  · exact hline
  · exact hline

theorem normalizeOperands (i : Nat) (st : CanonState) (inst : ParsedInstruction)
    (hline : L inst.lineNumber) :
    Blames L (fun r => L r.2.lineNumber) (normalizeOperands i st inst) := by
  rw [X86Assembler.normalizeOperands]
  exact (rewriteEach (fun st op _ => normalizeOperand hone i st op hline) _).bind fun _ _ => hline

theorem canonicalizeSymbolLabels {insts : List ParsedInstruction}
    (hlines : ∀ inst ∈ insts, L inst.lineNumber) :
    Blames L (fun canon => ∀ out ∈ canon, L out.lineNumber) (canonicalizeSymbolLabels insts) := by
  rw [X86Assembler.canonicalizeSymbolLabels]
  refine (rewriteIndexed (defineLabel hone) 0 {} hlines).bind fun r hr => ?_
  exact (rewriteIndexed (normalizeOperands hone) 0 _ hr).bind fun _ hout => hout

end Blames

/-- The lines a diagnostic about a program may give: those of its statements, and line 1. -/
def LineOf (insts : List ParsedInstruction) (line : Nat) : Prop :=
  line = 1 ∨ ∃ inst ∈ insts, inst.lineNumber = line

/-- A failure leaves a word on such a line: printed last, or in `last_error` alone. -/
def Spoken (L : Nat → Prop) (ctx ctx' : AssemblerContext) : Prop :=
  Explained (fun d => L d.line) ctx.stderr ctx'.stderr ∨
    ctx'.stderr = ctx.stderr ∧ ∃ d, ctx'.lastError = some d ∧ L d.line

theorem canonicalize_spoken {L : Nat → Prop} {insts : List ParsedInstruction} (hone : L 1)
    (hlines : ∀ inst ∈ insts, L inst.lineNumber) (ctx : AssemblerContext) :
    Ensures (canonicalize insts)
      (fun canon ctx' => ctx' = ctx ∧ ∀ out ∈ canon, L out.lineNumber) (Spoken L ctx) ctx := by
  have hcanon := Blames.canonicalizeSymbolLabels hone hlines
  cases hc : canonicalizeSymbolLabels insts with
  | ok canon =>
      rw [hc] at hcanon
      refine .of_some ?_ ⟨rfl, hcanon⟩
      rw [canonicalize, hc]
  | error e =>
      rw [hc] at hcanon
      cases e with
      | printed d =>
          have hd : L d.line := hcanon
          refine .of_none (t := ctx.report d) ?_ (.inl (Fallible.explained_concat hd))
          rw [canonicalize, hc]
      | recorded d =>
          refine .of_none (t := { ctx with lastError := some d }) ?_ (.inr ⟨rfl, d, rfl, hcanon⟩)
          rw [canonicalize, hc]

theorem Reports.spoken {α : Type} {L : Nat → Prop} {P : α → Prop} {m : Asm α}
    (ctx : AssemblerContext) (h : Reports L P m) :
    Ensures m (fun _ ctx' => ctx.stderr <+: ctx'.stderr) (Spoken L ctx) ctx :=
  (h ctx).mono (fun _ _ hend => hend.1) fun _ => .inl

/-- No failure of `asm_assemble` is silent: what was printed before it stays, and behind that
it either prints a diagnostic last or, printing nothing, leaves one in `last_error`, which the
driver prints; either way the diagnostic gives a line of the program. -/
theorem asmAssemble_reports (insts : List ParsedInstruction) (ctx : AssemblerContext) :
    Ensures (asmAssemble insts) (fun _ ctx' => ctx.stderr <+: ctx'.stderr)
      (Spoken (LineOf insts) ctx) ctx := by
  have hone : LineOf insts 1 := .inl rfl
  have hlines : ∀ inst ∈ insts, LineOf insts inst.lineNumber :=
    fun inst hinst => .inr ⟨inst, hinst, rfl⟩
  have hcleared : Ensures (Fallible.modify fun ctx => { ctx with lastError := none })
      (fun _ ctx₁ => ctx₁ = { ctx with lastError := none }) (Spoken (LineOf insts) ctx) ctx :=
    .of_some rfl rfl
  refine hcleared.bind ?_ fun _ => id
  rintro _ _ rfl
  refine (canonicalize_spoken hone hlines _).bind ?_ fun _ => id
  rintro canon _ ⟨rfl, hcanon⟩
  refine Reports.spoken { ctx with lastError := none } (P := fun _ => True) ?_
  refine (Reports.layoutProgram hone hcanon).bind fun _ _ => ?_
  refine (Reports.textModes hcanon).bind fun r hr => ?_
  refine (Reports.applySymbolAttributes hone r.1).bind fun _ _ => ?_
  exact (Reports.dataPass hr).bind fun _ _ => Reports.resolveFixups hone

end X86Assembler
