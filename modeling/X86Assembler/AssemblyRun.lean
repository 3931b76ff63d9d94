import X86Assembler.LayoutPhase
import X86Assembler.Rewriting

namespace X86Assembler

open CString (Byte)
open Fallible (each)

structure SameSetup (a b : AssemblerContext) : Prop where
  baseAddress : b.baseAddress = a.baseAddress
  textCapacity : b.textCapacity = a.textCapacity
  dataCapacity : b.dataCapacity = a.dataCapacity
  files : b.files = a.files
  emitListing : b.emitListing = a.emitListing

theorem SameSetup.of_settings {a b : AssemblerContext} (h : b.settings = a.settings) :
    SameSetup a b :=
  ⟨congrArg Settings.baseAddress h, congrArg Settings.textCapacity h,
    congrArg Settings.dataCapacity h, congrArg Settings.files h, congrArg Settings.emitListing h⟩

theorem SameSetup.trans {a b c : AssemblerContext} (hab : SameSetup a b) (hbc : SameSetup b c) :
    SameSetup a c :=
  ⟨hbc.baseAddress.trans hab.baseAddress, hbc.textCapacity.trans hab.textCapacity,
    hbc.dataCapacity.trans hab.dataCapacity, hbc.files.trans hab.files,
    hbc.emitListing.trans hab.emitListing⟩

/-- What the text passes can start an iteration with: the statements and the context that the
iterations before it leave. -/
inductive TextReaches (canon : List ParsedInstruction) (layout : AssemblerContext) :
    List ParsedInstruction → AssemblerContext → Prop
  | start : TextReaches canon layout canon (setForwardShortBranches true layout)
  | iterate {insts out : List ParsedInstruction} {ctx ctx' : AssemblerContext}
      {st : TextPassState} : TextReaches canon layout insts ctx →
      textIteration insts ctx = (some (st, out), ctx') → TextReaches canon layout out ctx'
  | conservative {insts : List ParsedInstruction} {ctx : AssemblerContext} :
      TextReaches canon layout insts ctx →
      TextReaches canon layout insts (setForwardShortBranches false ctx)

theorem textIterations_last {canon : List ParsedInstruction} {layout : AssemblerContext}
    {n : Nat} {insts out : List ParsedInstruction} {ctx ctx' : AssemblerContext}
    {st : TextPassState} (hr : TextReaches canon layout insts ctx)
    (h : textIterations n insts ctx = (some (st, out), ctx')) :
    ∃ source entry, TextReaches canon layout source entry ∧
      textIteration source entry = (some (st, out), ctx') := by
  induction n generalizing insts ctx with
  | zero => exact ⟨insts, ctx, hr, h⟩
  | succ n ih =>
      obtain ⟨⟨st₁, insts₁⟩, ctx₁, hone, h⟩ := Fallible.bind_eq_some.mp h
      simp only at h
      split at h
      · exact ih (hr.iterate hone) h
      · obtain ⟨hpair, rfl⟩ := Fallible.pure_eq_some.mp h
        cases hpair
        exact ⟨insts, ctx, hr, hone⟩

theorem textModes_last {canon : List ParsedInstruction} {layout ctx' : AssemblerContext}
    {out : List ParsedInstruction} {st : TextPassState}
    (h : textModes canon layout = (some (st, out), ctx')) :
    ∃ source entry, TextReaches canon layout source entry ∧
      textIteration source entry = (some (st, out), ctx') := by
  obtain ⟨_, ctx₁, hset, h⟩ := Fallible.bind_eq_some.mp h
  obtain ⟨⟨st₁, insts₁⟩, ctx₂, hfirst, hrest⟩ := Fallible.bind_eq_some.mp h
  cases hset
  obtain ⟨source, entry, hreach, hlast⟩ := textIterations_last .start hfirst
  simp only at hrest
  split at hrest
  · obtain ⟨_, ctx₃, hset, hsecond⟩ := Fallible.bind_eq_some.mp hrest
    cases hset
    exact textIterations_last (hreach.iterate hlast).conservative hsecond
  · obtain ⟨hpair, rfl⟩ := Fallible.pure_eq_some.mp hrest
    cases hpair
    exact ⟨source, entry, hreach, hlast⟩

theorem textIteration_eq_some {insts out : List ParsedInstruction} {ctx ctx' : AssemblerContext}
    {st : TextPassState} (h : textIteration insts ctx = (some (st, out), ctx')) :
    textPass {} insts (resetForTextPass ctx) = (some (st, out), ctx') := by
  obtain ⟨_, ctx₁, hreset, h⟩ := Fallible.bind_eq_some.mp h
  cases hreset
  exact h

theorem textIterations_settings {n : Nat} {insts out : List ParsedInstruction}
    {ctx ctx' : AssemblerContext} {st : TextPassState}
    (h : textIterations n insts ctx = (some (st, out), ctx')) : ctx'.settings = ctx.settings := by
  have hone : ∀ {insts out ctx ctx' st}, textIteration insts ctx = (some (st, out), ctx') →
      ctx'.settings = ctx.settings := by
    intro insts out ctx ctx' st h
    have hpass := textIteration_eq_some h
    have hgrows := textGrows_between hpass (passStart_reset ctx) (Nat.zero_le _) (Nat.le_refl _)
    rw [textAt_length hpass, textAt_zero] at hgrows
    exact hgrows.settings
  induction n generalizing insts ctx with
  | zero => exact hone h
  | succ n ih =>
      obtain ⟨⟨st₁, insts₁⟩, ctx₁, hfirst, h⟩ := Fallible.bind_eq_some.mp h
      dsimp only at h
      split at h
      · exact (ih h).trans (hone hfirst)
      · obtain ⟨hpair, rfl⟩ := Fallible.pure_eq_some.mp h
        cases hpair
        exact hone hfirst

/-- The first mode is left only when a pass changes nothing any more, or for the second. -/
theorem textModes_converged {canon out : List ParsedInstruction} {layout ctx' : AssemblerContext}
    {st : TextPassState} (h : textModes canon layout = (some (st, out), ctx'))
    (hforward : ctx'.enableForwardShortBranches = true) : st.layoutChanged = false := by
  obtain ⟨_, ctx₁, hset, h⟩ := Fallible.bind_eq_some.mp h
  obtain ⟨⟨st₁, insts₁⟩, ctx₂, -, hrest⟩ := Fallible.bind_eq_some.mp h
  dsimp only at hrest
  split at hrest
  · obtain ⟨_, ctx₃, hset, hsecond⟩ := Fallible.bind_eq_some.mp hrest
    cases hset
    have hflag := congrArg Settings.enableForwardShortBranches (textIterations_settings hsecond)
    cases hforward.symm.trans hflag
  · next hstill =>
      obtain ⟨hpair, rfl⟩ := Fallible.pure_eq_some.mp hrest
      cases hpair
      exact Bool.eq_false_of_not_eq_true hstill

/-- A run of `asm_assemble` that returns 0, with the states between its phases. `source` and
`entry` are what the last text iteration starts from. -/
structure AssemblyRun (insts : List ParsedInstruction) (ctx final : AssemblerContext) where
  canon : List ParsedInstruction
  layout : AssemblerContext
  source : List ParsedInstruction
  entry : AssemblerContext
  attrs : TextPassState
  program : List ParsedInstruction
  texted : AssemblerContext
  attributed : AssemblerContext
  emitted : AssemblerContext
  canonicalized : canonicalizeSymbolLabels insts = .ok canon
  laidOut : layoutProgram canon { ctx with lastError := none } = (some (), layout)
  modes : textModes canon layout = (some (attrs, program), texted)
  reached : TextReaches canon layout source entry
  lastPass : textPass {} source (resetForTextPass entry) = (some (attrs, program), texted)
  attributesApplied : applySymbolAttributes attrs texted = (some (), attributed)
  dataEmitted : dataPass program attributed = (some (), emitted)
  resolved : resolveFixups emitted = (some (), final)

theorem canonicalize_eq_some {insts canon : List ParsedInstruction} {ctx ctx' : AssemblerContext}
    (h : canonicalize insts ctx = (some canon, ctx')) :
    canonicalizeSymbolLabels insts = .ok canon ∧ ctx' = ctx := by
  rw [canonicalize] at h
  split at h
  · rename_i hok
    cases h
    exact ⟨hok, rfl⟩
  · cases h
  · cases h

theorem assemblyRun_of_success {insts : List ParsedInstruction} {ctx final : AssemblerContext}
    (h : asmAssemble insts ctx = (some (), final)) : Nonempty (AssemblyRun insts ctx final) := by
  obtain ⟨_, ctx₁, hclear, h₁⟩ := Fallible.bind_eq_some.mp h
  cases hclear
  obtain ⟨canon, ctx₂, hcanon, h₂⟩ := Fallible.bind_eq_some.mp h₁
  obtain ⟨hok, rfl⟩ := canonicalize_eq_some hcanon
  obtain ⟨_, layout, hlayout, h₃⟩ := Fallible.bind_eq_some.mp h₂
  obtain ⟨⟨attrs, program⟩, texted, hmodes, h₄⟩ := Fallible.bind_eq_some.mp h₃
  obtain ⟨_, attributed, hattr, h₅⟩ := Fallible.bind_eq_some.mp h₄
  obtain ⟨_, emitted, hdata, h₆⟩ := Fallible.bind_eq_some.mp h₅
  obtain ⟨source, entry, hreach, hlast⟩ := textModes_last hmodes
  exact ⟨⟨canon, layout, source, entry, attrs, program, texted, attributed, emitted, hok, hlayout,
    hmodes, hreach, textIteration_eq_some hlast, hattr, hdata, h₆⟩⟩

/-- The program with its local and anonymous labels made global. -/
def canonicalProgram (insts : List ParsedInstruction) : List ParsedInstruction :=
  match canonicalizeSymbolLabels insts with
  | .ok canon => canon
  | .error _ => []

/-- The program as the text passes leave it, with the constants put in; what a run that
returns 0 works on in its data pass. -/
def assembledProgram (insts : List ParsedInstruction) (ctx : AssemblerContext) :
    List ParsedInstruction :=
  match textModes (canonicalProgram insts)
      (layoutProgram (canonicalProgram insts) { ctx with lastError := none }).2 with
  | (some (_, program), _) => program
  | (none, _) => []

theorem AssemblyRun.canon_eq {insts : List ParsedInstruction} {ctx final : AssemblerContext}
    (run : AssemblyRun insts ctx final) : run.canon = canonicalProgram insts := by
  rw [canonicalProgram, run.canonicalized]

theorem AssemblyRun.program_eq {insts : List ParsedInstruction} {ctx final : AssemblerContext}
    (run : AssemblyRun insts ctx final) : run.program = assembledProgram insts ctx := by
  simp only [assembledProgram, ← run.canon_eq, run.laidOut, run.modes]

/-- The context that the data pass of a run that returns 0 starts from. -/
def attributedContext (insts : List ParsedInstruction) (ctx : AssemblerContext) :
    AssemblerContext :=
  match textModes (canonicalProgram insts)
      (layoutProgram (canonicalProgram insts) { ctx with lastError := none }).2 with
  | (some (st, _), texted) => (applySymbolAttributes st texted).2
  | (none, texted) => texted

theorem AssemblyRun.attributed_eq {insts : List ParsedInstruction} {ctx final : AssemblerContext}
    (run : AssemblyRun insts ctx final) : run.attributed = attributedContext insts ctx := by
  simp only [attributedContext, ← run.canon_eq, run.laidOut, run.modes, run.attributesApplied]

def emptyContext : AssemblerContext := asmInit fun _ => none

theorem asmAssemble_success {insts : List ParsedInstruction} {ctx : AssemblerContext}
    (h : (asmAssemble insts ctx).1 = some ()) :
    asmAssemble insts ctx = (some (), (asmAssemble insts ctx).2) := Prod.ext h rfl

structure IterationKeeps (canon : List ParsedInstruction) (layout : AssemblerContext)
    (insts : List ParsedInstruction) (ctx : AssemblerContext) : Prop where
  setup : SameSetup layout ctx
  table : TableKeeps layout ctx
  rewrites : RewritesAll canon insts

theorem textReaches_keeps {canon insts : List ParsedInstruction} {layout ctx : AssemblerContext}
    (h : TextReaches canon layout insts ctx) : IterationKeeps canon layout insts ctx := by
  induction h with
  | start => exact ⟨⟨rfl, rfl, rfl, rfl, rfl⟩, .of_eq rfl rfl, .refl canon⟩
  | @iterate insts out ctx ctx' st _ hone ih =>
      have hpass := textIteration_eq_some hone
      have hstart := passStart_reset ctx
      have hgrows := textGrows_between hpass hstart (Nat.zero_le _) (Nat.le_refl _)
      rw [textAt_length hpass, textAt_zero] at hgrows
      have hsetup : SameSetup ctx (resetForTextPass ctx) := ⟨rfl, rfl, rfl, rfl, rfl⟩
      have hreset : TableKeeps ctx (resetForTextPass ctx) := .of_eq rfl rfl
      exact ⟨ih.setup.trans (hsetup.trans (.of_settings hgrows.settings)),
        ih.table.trans (hreset.trans hgrows.table),
        ih.rewrites.trans (textPass_rewrites hpass hstart)⟩
  | conservative _ ih =>
      exact ⟨ih.setup.trans ⟨rfl, rfl, rfl, rfl, rfl⟩, ih.table.trans (.of_eq rfl rfl), ih.rewrites⟩

theorem applySymbolAttribute_emits {directive : String} {f : Symbol → Symbol} {names : List Label}
    {ctx ctx' : AssemblerContext}
    (h : each (applySymbolAttribute directive f) names ctx = (some (), ctx'))
    (hf : ∀ sym, (f sym).name = sym.name) (hv : ∀ sym, (f sym).view = sym.view) :
    Emits ctx ctx' [] [] 0 := by
  induction names generalizing ctx with
  | nil =>
      obtain ⟨-, rfl⟩ := Fallible.pure_eq_some.mp h
      exact .refl ctx
  | cons name names ih =>
      obtain ⟨_, ctx₁, hone, hrest⟩ := Fallible.bind_eq_some.mp h
      refine Emits.then ?_ (ih hrest)
      rw [applySymbolAttribute] at hone
      split at hone
      · cases hone
        exact emits_of_symbols rfl (Nat.le_of_eq (modifyFirst_length _ _ _).symm)
          (fun h => consistent_updateFirst name f h hf hv)
          fun other => view_updateFirst ctx name f hf hv other
      · cases hone

theorem applySymbolAttributes_emits {st : TextPassState} {ctx ctx' : AssemblerContext}
    (h : applySymbolAttributes st ctx = (some (), ctx')) : Emits ctx ctx' [] [] 0 := by
  obtain ⟨_, ctx₁, hweak, hhidden⟩ := Fallible.bind_eq_some.mp h
  exact (applySymbolAttribute_emits hweak (fun _ => rfl) fun _ => rfl).then
    (applySymbolAttribute_emits hhidden (fun _ => rfl) fun _ => rfl)

end X86Assembler
