import X86Assembler.ConditionalPasses
import X86Assembler.LeftoverPasses
import X86Assembler.SourceLines

namespace X86Assembler

open CString (Byte str)
open Fallible (Alike Along Matched Ends Returns each)

section Program

variable {old : List Symbol} {defined : List Label} {a b : AssemblerContext}

theorem Beside.mono {seen seen' : SectionId → Prop} (h : Beside old defined seen a b)
    (hseen : ∀ s, seen' s → seen s) : Beside old defined seen' a b :=
  ⟨h.tables, h.invariant, { h.outputs with
    text := fun hs => h.outputs.text (hseen _ hs)
    data := fun hs => h.outputs.data (hseen _ hs)
    fixups := fun hs => h.outputs.fixups (hseen _ hs)
    branches := fun hs => h.outputs.branches (hseen _ hs)
    fixupLabels := fun hs => h.outputs.fixupLabels (hseen _ hs) }⟩

theorem resetForDataPass_beside {seen : SectionId → Prop} (hseen : seen .text)
    (h : Beside old defined seen a b) :
    Beside old defined (fun _ => True) (resetForDataPass a) (resetForDataPass b) := by
  have htext := h.outputs.text hseen
  have haddress : a.baseAddress + BitVec.ofNat 64 a.textSection.length =
      b.baseAddress + BitVec.ofNat 64 b.textSection.length := by
    rw [h.outputs.base, htext]
  exact ⟨h.tables.congr rfl rfl rfl rfl, h.invariant.congr rfl rfl, { h.outputs with
    sect := rfl
    address := haddress
    text := fun _ => htext
    data := fun _ => rfl
    fixups := fun _ => h.outputs.fixups hseen
    branches := fun _ => h.outputs.branches hseen
    fixupLabels := fun _ => h.outputs.fixupLabels hseen }⟩

theorem dataPass_matched {insts : List ParsedInstruction} (seen : SectionId → Prop)
    (hseen : seen .text) (hroom : HasRoom old defined)
    (hapart : ∀ inst ∈ insts, Apart old defined inst) (h : Beside old defined seen a b) :
    Matched (Beside old defined fun _ => True) (dataPass insts) (dataPass insts) a b := by
  have hsteps : Alike (Beside old defined fun _ => True) (each dataStep insts)
      (each dataStep insts) :=
    .each fun inst hinst => dataStep_alike hroom (hapart inst hinst) fun _ => trivial
  exact hsteps _ _ (resetForDataPass_beside hseen h)

theorem resolveFixup_alike {f : Fixup} (hf : f.label ∉ old.map Symbol.name) :
    Alike (Beside old defined fun _ => True) (resolveFixup f) (resolveFixup f) := by
  intro a b h
  have htext := h.outputs.text trivial
  unfold Matched
  rw [resolveFixup, resolveFixup, h.tables.find hf, h.outputs.base, htext]
  split
  · exact ⟨rfl, h.report _ _⟩
  · dsimp only
    split
    · exact ⟨rfl, h.report _ _⟩
    · split
      · exact ⟨rfl, h.tables.congr rfl rfl rfl rfl, h.invariant.congr rfl rfl, { h.outputs with
          text := fun _ => rfl, base := rfl }⟩
      · exact ⟨rfl, h.report _ _⟩

theorem resolveFixups_alike :
    Alike (Beside old defined fun _ => True) resolveFixups resolveFixups := by
  apply Alike.get
  intro a b h
  rw [h.outputs.fixups trivial]
  have hall : Alike (Beside old defined fun _ => True) (each resolveFixup b.fixups)
      (each resolveFixup b.fixups) :=
    .each fun f hf => resolveFixup_alike (h.outputs.fixupLabels trivial f hf)
  exact hall a b h

end Program

/-- The symbols that a program refers to, under their full names. -/
def programNames (insts : List ParsedInstruction) : List Label :=
  (canonicalProgram insts).flatMap ParsedInstruction.symbolNames

def programDefinitions (insts : List ParsedInstruction) : List Label :=
  (canonicalProgram insts).flatMap ParsedInstruction.definedNames

theorem resetForPassOne_beside {old : List Symbol} {defined : List Label} {a b : AssemblerContext}
    (h : Beside old defined (fun _ => False) a b) :
    Beside old defined (fun _ => False) (resetForPassOne a) (resetForPassOne b) :=
  ⟨h.tables.congr rfl rfl rfl rfl, h.invariant.congr rfl rfl, { h.outputs with
    sect := rfl, address := h.outputs.base }⟩

/-- Contexts from which a call starts alike: the passes set the rest themselves. -/
def Ready (old : List Symbol) (defined : List Label) (a b : AssemblerContext) : Prop :=
  Beside old defined (fun _ => False) (resetForPassOne a) (resetForPassOne b)

/-- `asm_assemble` up to the text passes. -/
def layoutPhase (insts : List ParsedInstruction) : Asm (List ParsedInstruction) := do
  Fallible.modify fun ctx => { ctx with lastError := none }
  let insts ← canonicalize insts
  layoutProgram insts
  pure insts

/-- `asm_assemble` up to the data pass. -/
def textPhase (insts : List ParsedInstruction) : Asm (List ParsedInstruction) := do
  let insts ← layoutPhase insts
  let (st, insts) ← textModes insts
  applySymbolAttributes st
  pure insts

theorem asmAssemble_phases (insts : List ParsedInstruction) :
    asmAssemble insts = textPhase insts >>= fun out => dataPass out >>= fun _ => resolveFixups := by
  simp only [asmAssemble, textPhase, layoutPhase, Fallible.bind_assoc, Fallible.pure_bind]

structure Unwritten (a b : AssemblerContext) : Prop where
  text : b.textSection = a.textSection
  data : b.dataSection = a.dataSection

theorem Unwritten.refl (a : AssemblerContext) : Unwritten a a := ⟨rfl, rfl⟩

theorem Unwritten.trans (a b c : AssemblerContext) (hab : Unwritten a b) (hbc : Unwritten b c) :
    Unwritten a c := ⟨hbc.text.trans hab.text, hbc.data.trans hab.data⟩

theorem Unwritten.of_output {a b : AssemblerContext} (h : b.output = a.output) : Unwritten a b :=
  ⟨congrArg Output.text h, congrArg Output.data h⟩

theorem recordLabel_unwritten (inst : ParsedInstruction) (address : Word) :
    Along Unwritten (recordLabel inst address) := by
  rw [recordLabel]
  split
  · exact .pure .refl ()
  · refine Along.bind (m := Fallible.get) .trans .refl fun ctx => ?_
    refine .bind .trans (fun c => .of_output (addSymbol_frame _ _ _ _ _ c).1) fun _ => ?_
    exact fun _ => ⟨rfl, rfl⟩

theorem recordStep_unwritten (dataAddress : Word) (inst : ParsedInstruction) :
    Along Unwritten (recordStep dataAddress inst) := by
  refine Along.bind (m := Fallible.get) .trans .refl fun ctx => ?_
  split
  · exact fun _ => ⟨rfl, rfl⟩
  · refine .bind .trans (recordLabel_unwritten inst _) fun _ => ?_
    split
    · exact fun _ => ⟨rfl, rfl⟩
    split
    · exact fun _ => ⟨rfl, rfl⟩
    · exact .pure .refl _

theorem recordLabels_unwritten (dataAddress : Word) (insts : List ParsedInstruction) :
    Along Unwritten (recordLabels dataAddress insts) := by
  induction insts generalizing dataAddress with
  | nil => exact .pure .refl ()
  | cons inst insts ih => exact (recordStep_unwritten dataAddress inst).bind .trans ih

theorem resolveEqus_unwritten (insts : List ParsedInstruction) :
    Along Unwritten (resolveEquSymbolValues insts) := by
  refine .each .refl .trans (fun inst => ?_) insts
  rw [resolveEqu]
  split
  · split
    · refine Along.bind (m := Fallible.get) .trans .refl fun ctx => ?_
      split
      · exact fun c => .of_output (upsertConstantSymbol_frame _ _ c).1
      · exact fun _ => ⟨rfl, rfl⟩
    · exact .pure .refl ()
  · exact .pure .refl ()

theorem layoutPhase_unwritten (insts : List ParsedInstruction) :
    Along Unwritten (layoutPhase insts) := by
  have hclear : Along Unwritten
      (Fallible.modify fun ctx : AssemblerContext => { ctx with lastError := none }) :=
    fun _ => ⟨rfl, rfl⟩
  have hcanon : Along Unwritten (canonicalize insts) := by
    intro ctx
    rw [canonicalize]
    split <;> exact ⟨rfl, rfl⟩
  have hreset : Along Unwritten (Fallible.modify resetForPassOne) := fun _ => ⟨rfl, rfl⟩
  have hrelax : ∀ canon, Along Unwritten
      (Fallible.modify fun ctx => recomputeTextLayoutRelaxed ctx canon) := fun canon ctx =>
    .of_output (relaxIterations_frame (fun st inst => (relaxLabel_frame st inst).2) 8 ctx canon)
  refine hclear.bind .trans fun _ => hcanon.bind .trans fun canon => ?_
  refine .bind .trans ?_ fun _ => .pure .refl canon
  refine hreset.bind .trans fun _ => Along.bind (m := Fallible.get) .trans .refl fun ctx => ?_
  exact (recordLabels_unwritten _ canon).bind .trans fun _ =>
    (resolveEqus_unwritten canon).bind .trans fun _ =>
      (hrelax canon).bind .trans fun _ => resolveEqus_unwritten canon

theorem textPhase_of_unlaid {insts : List ParsedInstruction} {ctx : AssemblerContext}
    (h : (layoutPhase insts ctx).1 = none) : textPhase insts ctx = (none, (layoutPhase insts ctx).2) :=
  Fallible.bind_of_none (Prod.ext h rfl)

theorem asmAssemble_of_unlaid {insts : List ParsedInstruction} {ctx : AssemblerContext}
    (h : (layoutPhase insts ctx).1 = none) :
    asmAssemble insts ctx = (none, (layoutPhase insts ctx).2) := by
  rw [asmAssemble_phases]
  exact Fallible.bind_of_none (textPhase_of_unlaid h)

section Phases

variable {insts : List ParsedInstruction} {old : List Symbol} {defined : List Label}
  {a b : AssemblerContext} (seen : SectionId → Prop) (hroom : HasRoom old defined)
  (hnames : Unused old (programNames insts)) (hdefs : programDefinitions insts ⊆ defined)
  (h : Ready old defined a b)

include hnames hdefs

theorem apart_canonical {canon : List ParsedInstruction}
    (hok : canonicalizeSymbolLabels insts = .ok canon) : ∀ inst ∈ canon, Apart old defined inst := by
  intro inst hinst
  have heq : canonicalProgram insts = canon := by rw [canonicalProgram, hok]
  constructor
  · intro name hname
    exact hnames name (List.mem_flatMap.mpr ⟨inst, heq ▸ hinst, hname⟩)
  · intro name hname
    exact hdefs (List.mem_flatMap.mpr ⟨inst, heq ▸ hinst, hname⟩)

theorem layoutPhase_returns :
    Returns (fun canon => ∀ inst ∈ canon, Apart old defined inst) (layoutPhase insts) :=
  .bind fun _ => Returns.bind_of (Q := fun canon => canonicalizeSymbolLabels insts = .ok canon)
    (fun _ _ _ h => (canonicalize_eq_some h).1) fun _ hok => .bind fun _ =>
      Fallible.returns_pure (apart_canonical hnames hdefs hok)

theorem textPhase_returns :
    Returns (fun out => ∀ inst ∈ out, Apart old defined inst) (textPhase insts) := by
  refine (layoutPhase_returns hnames hdefs).bind_of fun canon hcanon => ?_
  refine (textModes_returns hcanon).bind_of ?_
  rintro ⟨st, out⟩ ⟨-, hout⟩
  exact .bind fun _ => Fallible.returns_pure hout

include hroom h

theorem layoutPhase_ends :
    Matched (Ready old defined) (layoutPhase insts) (layoutPhase insts) a b ∧
      Ends (Beside old defined fun _ => False) (layoutPhase insts) (layoutPhase insts) a b := by
  have hclear : Alike (Ready old defined)
      (Fallible.modify fun ctx => { ctx with lastError := none })
      (Fallible.modify fun ctx => { ctx with lastError := none }) :=
    .modify fun _ _ h => Beside.congr h ⟨rfl, rfl, rfl, rfl⟩ ⟨rfl, rfl, rfl, rfl⟩
  have hcanon : Alike (Ready old defined) (canonicalize insts) (canonicalize insts) := by
    intro a b h
    unfold Matched
    rw [canonicalize, canonicalize]
    split
    · exact ⟨rfl, h⟩
    · exact ⟨rfl, Beside.congr h ⟨rfl, rfl, rfl, rfl⟩ ⟨rfl, rfl, rfl, rfl⟩⟩
    · exact ⟨rfl, Beside.congr h ⟨rfl, rfl, rfl, rfl⟩ ⟨rfl, rfl, rfl, rfl⟩⟩
  have hreturns : Returns (fun canon => canonicalizeSymbolLabels insts = .ok canon)
      (canonicalize insts) := fun _ _ _ h => (canonicalize_eq_some h).1
  constructor
  · refine (hclear a b h).bind (P := fun _ => True) (fun _ _ _ _ => trivial) ?_ fun _ _ h => h
    rintro _ - a b h
    refine (hcanon a b h).bind hreturns ?_ fun _ _ h => h
    intro canon hok a b h
    refine (layoutProgram_matched hroom (apart_canonical hnames hdefs hok) h).bind
      (P := fun _ => True) (fun _ _ _ _ => trivial) ?_ fun _ _ h => resetForPassOne_beside h
    rintro _ - a b h
    exact ⟨rfl, resetForPassOne_beside h⟩
  · refine (hclear a b h).ends.bind (P := fun _ => True) (fun _ _ _ _ => trivial) ?_
    rintro _ - a b h
    refine (hcanon a b h).ends.bind hreturns ?_
    intro canon hok a b h
    refine (layoutProgram_matched hroom (apart_canonical hnames hdefs hok) h).ends.bind
      (P := fun _ => True) (fun _ _ _ _ => trivial) ?_
    rintro _ - a b h
    exact ⟨rfl, fun _ => h⟩

/-- From the text passes on the text buffers agree, and the data buffers if they did before. -/
theorem textPhase_matched (hseen : seen .text) (hdata : seen .data → a.dataSection = b.dataSection)
    (hlaid : (layoutPhase insts b).1.isSome = true) :
    Matched (Beside old defined seen) (textPhase insts) (textPhase insts) a b := by
  obtain ⟨canon, a', b', ha, hb, h'⟩ := (layoutPhase_ends hroom hnames hdefs h).2.some hlaid
  have hcanon := layoutPhase_returns hnames hdefs _ _ _ hb
  have hkept : seen .data → a'.dataSection = b'.dataSection := by
    intro hs
    have hwrote := (layoutPhase_unwritten insts a).data
    have hwrote' := (layoutPhase_unwritten insts b).data
    rw [ha] at hwrote
    rw [hb] at hwrote'
    rw [hwrote, hwrote', hdata hs]
  refine .bind_some ha hb ((textModes_matched hroom hcanon hseen h' hkept).bind
    (textModes_returns hcanon) ?_ fun _ _ h => h)
  rintro ⟨st, out⟩ ⟨hst, -⟩ a b h
  exact ((applySymbolAttributes_alike hst).bind fun _ => .pure out) a b h

theorem asmAssemble_matched (hseen : seen .text)
    (hdata : seen .data → a.dataSection = b.dataSection)
    (hlaid : (layoutPhase insts b).1.isSome = true) :
    Matched (Beside old defined seen) (asmAssemble insts) (asmAssemble insts) a b := by
  rw [asmAssemble_phases]
  refine (textPhase_matched seen hroom hnames hdefs h hseen hdata hlaid).bind
    (textPhase_returns hnames hdefs) ?_ fun _ _ h => h
  intro out hout a b h
  refine (dataPass_matched seen hseen hroom hout h).bind (P := fun _ => True)
    (fun _ _ _ _ => trivial) ?_ fun _ _ h => h.mono fun _ _ => trivial
  rintro _ - a b h
  have hresolved := resolveFixups_alike a b h
  exact ⟨hresolved.1, hresolved.2.mono fun _ _ => trivial⟩

theorem asmAssemble_matched_all (htexted : (textPhase insts b).1.isSome = true) :
    Matched (Beside old defined fun _ => True) (asmAssemble insts) (asmAssemble insts) a b := by
  have hlaid : (layoutPhase insts b).1.isSome = true := by
    by_contra hnot
    rw [textPhase_of_unlaid (Option.not_isSome_iff_eq_none.mp hnot)] at htexted
    cases htexted
  have htext := textPhase_matched (· = .text) hroom hnames hdefs h rfl
    (fun hs => nomatch hs) hlaid
  obtain ⟨out, a', b', ha, hb, h'⟩ := htext.ends.some htexted
  have hout := textPhase_returns hnames hdefs _ _ _ hb
  rw [asmAssemble_phases]
  refine .bind_some ha hb ((dataPass_matched (· = .text) rfl hroom hout h').bind (P := fun _ => True)
    (fun _ _ _ _ => trivial) ?_ fun _ _ h => h)
  rintro _ - a b h
  exact resolveFixups_alike a b h

theorem asmAssemble_ready :
    Matched (Ready old defined) (asmAssemble insts) (asmAssemble insts) a b := by
  by_cases hlaid : (layoutPhase insts b).1.isSome = true
  · have hrun := asmAssemble_matched (· = .text) hroom hnames hdefs h rfl
      (fun hs => nomatch hs) hlaid
    exact ⟨hrun.1, resetForPassOne_beside (hrun.2.mono fun _ h => nomatch h)⟩
  · have hrun := (layoutPhase_ends hroom hnames hdefs h).1
    have hnone := Option.not_isSome_iff_eq_none.mp hlaid
    unfold Matched
    rw [asmAssemble_of_unlaid hnone, asmAssemble_of_unlaid (hrun.1.trans hnone)]
    exact ⟨rfl, hrun.2⟩

end Phases

/-- The contexts that a new one can become by calls of `asm_assemble`, whatever they return, and
by changes of the options between them. A source that is not parsed leaves its diagnostics. -/
inductive Reused : AssemblerContext → Prop
  | init (files : Text → Option (List Byte)) : Reused (asmInit files)
  | options {ctx : AssemblerContext} (baseAddress : Word) (emitListing : Bool)
      (files : Text → Option (List Byte)) (h : Reused ctx) :
      Reused { ctx with baseAddress, emitListing, files }
  | unparsed {ctx : AssemblerContext} (error : Option Diagnostic) (printed : List Diagnostic)
      (h : Reused ctx) : Reused { ctx with lastError := error, stderr := ctx.stderr ++ printed }
  | assembled {ctx : AssemblerContext} (insts : List ParsedInstruction) (h : Reused ctx) :
      Reused (asmAssemble insts ctx).2

def freshContext (ctx : AssemblerContext) : AssemblerContext :=
  { asmInit ctx.files with baseAddress := ctx.baseAddress, emitListing := ctx.emitListing }

theorem symbolInvariant_fresh (ctx : AssemblerContext) : SymbolInvariant (freshContext ctx) :=
  ⟨consistent_empty rfl rfl, HashChain.distinct_empty⟩

theorem ready_self {ctx : AssemblerContext} (h : SymbolInvariant ctx) (hs : FullSize ctx)
    (defined : List Label) : Ready [] (ctx.symbols.map Symbol.name ++ defined) ctx ctx where
  tables := {
    symbols := rfl
    lookup := fun _ _ => rfl
    known := fun _ hsym => List.mem_append_left _ (List.mem_map_of_mem hsym) }
  invariant := h.congr rfl rfl
  outputs := {
    sect := rfl
    address := rfl
    base := rfl
    files := rfl
    sizes := hs
    sizes' := hs
    text := fun h => nomatch h
    data := fun h => nomatch h
    fixups := fun h => nomatch h
    branches := fun h => nomatch h
    fixupLabels := fun h => nomatch h }

theorem Reused.invariant {ctx : AssemblerContext} (h : Reused ctx) :
    SymbolInvariant ctx ∧ FullSize ctx := by
  induction h with
  | init files => exact ⟨⟨consistent_empty rfl rfl, HashChain.distinct_empty⟩, rfl, rfl⟩
  | options baseAddress emitListing files _ ih => exact ⟨ih.1.congr rfl rfl, ih.2⟩
  | unparsed error printed _ ih => exact ⟨ih.1.congr rfl rfl, ih.2⟩
  | @assembled ctx insts _ ih =>
      have hrun := @asmAssemble_ready insts [] _ ctx ctx (.inl rfl) (fun _ _ h => nomatch h)
        (List.subset_append_right _ _) (ready_self ih.1 ih.2 (programDefinitions insts))
      exact ⟨hrun.2.invariant.congr rfl rfl, hrun.2.outputs.sizes'⟩

/-- The symbols that earlier calls have left have nothing to do with a program. -/
structure NothingLeftover (ctx : AssemblerContext) (insts : List ParsedInstruction) : Prop where
  unused : Unused ctx.symbols (programNames insts)
  room : HasRoom ctx.symbols (programDefinitions insts)

theorem ready_fresh {ctx : AssemblerContext} (h : Reused ctx) (defined : List Label) :
    Ready ctx.symbols defined ctx (freshContext ctx) where
  tables := {
    symbols := (List.append_nil _).symm
    lookup := fun name hname => by
      apply (h.invariant.1.congr rfl rfl).consistent.lookup_of_view_none
      show ctx.view name = none
      rw [AssemblerContext.view, findSymbolEntry,
        List.find?_eq_none.mpr fun sym hsym heq => hname ?_]
      · rfl
      · rw [← eq_of_beq heq]
        exact List.mem_map_of_mem hsym
    known := fun _ hsym => nomatch hsym }
  invariant := (symbolInvariant_fresh ctx).congr rfl rfl
  outputs := {
    sect := rfl
    address := rfl
    base := rfl
    files := rfl
    sizes := h.invariant.2
    sizes' := ⟨rfl, rfl⟩
    text := fun h => nomatch h
    data := fun h => nomatch h
    fixups := fun h => nomatch h
    branches := fun h => nomatch h
    fixupLabels := fun h => nomatch h }

/-- What a call leaves: whether it returns 0, the bytes of both sections, and the addresses of the
symbols that its source names. -/
structure Produced where
  returned : Bool
  text : List Byte
  data : List Byte
  addresses : List (Label × Option Word)
deriving DecidableEq

def produced (insts : List ParsedInstruction) (ctx : AssemblerContext) : Produced :=
  let run := asmAssemble insts ctx
  { returned := run.1.isSome, text := run.2.textSection, data := run.2.dataSection
    addresses := (programNames insts).map fun name => (name, findSymbolAddress run.2 name) }

/-- `asm_assemble` on a source, with the chain of open files that the context holds; within a
number of rounds of the parser's main loop. -/
def assembleSource (rounds : Nat) (env : PreprocessEnv) (tracker : List Path) (source : List Byte)
    (ctx : AssemblerContext) : Option Produced :=
  (parseSourceWithContext rounds env tracker source).map fun
    | some insts => produced insts ctx
    | none =>
      { returned := false, text := ctx.textSection, data := ctx.dataSection, addresses := [] }

/-- What earlier calls have left in the section buffers is gone when the call returns: nothing is
left, or the program gets to the pass that clears it. -/
structure BuffersCleared (ctx : AssemblerContext) (insts : List ParsedInstruction) : Prop where
  text : ctx.textSection = [] ∨ (layoutPhase insts (freshContext ctx)).1.isSome = true
  data : ctx.dataSection = [] ∨ (textPhase insts (freshContext ctx)).1.isSome = true

section Reuse

variable {ctx : AssemblerContext} (h : Reused ctx) {insts : List ParsedInstruction}
  (hclean : NothingLeftover ctx insts)

include h hclean

theorem text_reused (hcleared : BuffersCleared ctx insts) :
    (asmAssemble insts ctx).2.textSection =
      (asmAssemble insts (freshContext ctx)).2.textSection := by
  have hready := ready_fresh h (programDefinitions insts)
  have hsub := List.Subset.refl (programDefinitions insts)
  by_cases hlaid : (layoutPhase insts (freshContext ctx)).1.isSome = true
  · exact (asmAssemble_matched (· = .text) hclean.room hclean.unused hsub hready rfl
      (fun hs => nomatch hs) hlaid).2.outputs.text rfl
  · have hempty := hcleared.text.resolve_right hlaid
    have hnone := Option.not_isSome_iff_eq_none.mp hlaid
    have hnone' := (layoutPhase_ends hclean.room hclean.unused hsub hready).1.1.trans hnone
    rw [asmAssemble_of_unlaid hnone, asmAssemble_of_unlaid hnone',
      (layoutPhase_unwritten insts ctx).text, (layoutPhase_unwritten insts (freshContext ctx)).text,
      hempty]
    rfl

theorem data_reused (hcleared : BuffersCleared ctx insts) :
    (asmAssemble insts ctx).2.dataSection =
      (asmAssemble insts (freshContext ctx)).2.dataSection := by
  have hready := ready_fresh h (programDefinitions insts)
  have hsub := List.Subset.refl (programDefinitions insts)
  by_cases htexted : (textPhase insts (freshContext ctx)).1.isSome = true
  · exact (asmAssemble_matched_all hclean.room hclean.unused hsub hready htexted).2.outputs.data
      trivial
  have hempty := hcleared.data.resolve_right htexted
  by_cases hlaid : (layoutPhase insts (freshContext ctx)).1.isSome = true
  · exact (asmAssemble_matched (fun _ => True) hclean.room hclean.unused hsub hready trivial
      (fun _ => hempty) hlaid).2.outputs.data trivial
  · have hnone := Option.not_isSome_iff_eq_none.mp hlaid
    have hnone' := (layoutPhase_ends hclean.room hclean.unused hsub hready).1.1.trans hnone
    rw [asmAssemble_of_unlaid hnone, asmAssemble_of_unlaid hnone',
      (layoutPhase_unwritten insts ctx).data, (layoutPhase_unwritten insts (freshContext ctx)).data,
      hempty]
    rfl

theorem produced_reused (hcleared : BuffersCleared ctx insts) :
    produced insts ctx = produced insts (freshContext ctx) := by
  have hrun := asmAssemble_ready hclean.room hclean.unused (List.Subset.refl _)
    (ready_fresh h (programDefinitions insts))
  have haddresses : ∀ name ∈ programNames insts,
      (name, findSymbolAddress (asmAssemble insts ctx).2 name) =
        (name, findSymbolAddress (asmAssemble insts (freshContext ctx)).2 name) := by
    intro name hname
    have hfind := hrun.2.tables.find (hclean.unused name hname)
    exact congrArg (Prod.mk name) hfind
  simp only [produced, text_reused h hclean hcleared, data_reused h hclean hcleared,
    show (asmAssemble insts ctx).1 = (asmAssemble insts (freshContext ctx)).1 from hrun.1,
    List.map_congr_left haddresses]

end Reuse

/-- The lines of a source that the preprocessor sees include no file. -/
def WithoutIncludes (source : List Byte) : Prop :=
  ∀ line ∈ sourceLines (parserExpandTimesOnly source), parseIncludeFilename line.1 = some none

instance (source : List Byte) : Decidable (WithoutIncludes source) := by
  unfold WithoutIncludes
  infer_instance

theorem parseSourceWithContext_tracker {source : List Byte} (h : WithoutIncludes source)
    (rounds : Nat) (env : PreprocessEnv) (tracker tracker' : List Path) :
    parseSourceWithContext rounds env tracker source =
      parseSourceWithContext rounds env tracker' source := by
  have hplain := expandIncludes_plain env.toIncludeEnv maxIncludeDepth
    (dirnameFromPath env.currentFilename) h
  rw [parseSourceWithContext, parseSourceWithContext, preprocessMacros, preprocessMacros, hplain]
  rfl

/-- A call in a used context leaves what it leaves in a new one, if the symbols that are left have
nothing to do with its source and no bytes of the buffers stay. -/
theorem assembleSource_reused {ctx : AssemblerContext} (hreused : Reused ctx) {rounds : Nat}
    {env : PreprocessEnv} {tracker : List Path} {source : List Byte}
    (hplain : WithoutIncludes source)
    (hunparsed : parseSourceWithContext rounds env [] source = some none →
      ctx.textSection = [] ∧ ctx.dataSection = [])
    (hclean : ∀ insts, parseSourceWithContext rounds env [] source = some (some insts) →
      NothingLeftover ctx insts ∧ BuffersCleared ctx insts) :
    assembleSource rounds env tracker source ctx =
      assembleSource rounds env [] source (freshContext ctx) := by
  rw [assembleSource, assembleSource, parseSourceWithContext_tracker hplain rounds env tracker []]
  cases hparse : parseSourceWithContext rounds env [] source with
  | none => rfl
  | some parsed =>
      cases parsed with
      | none =>
          obtain ⟨htext, hdata⟩ := hunparsed hparse
          rw [Option.map_some, Option.map_some, htext, hdata]
          rfl
      | some insts =>
          obtain ⟨hleft, hcleared⟩ := hclean insts hparse
          exact congrArg some (produced_reused hreused hleft hcleared)

instance (old : List Symbol) (names : List Label) : Decidable (Unused old names) := by
  unfold Unused
  infer_instance

instance (old : List Symbol) (names : List Label) : Decidable (HasRoom old names) := by
  unfold HasRoom
  infer_instance

def firstCall : AssemblerContext :=
  (asmAssemble [{ type := .ret, label := some (CString.lit _ "first") }] emptyContext).2

theorem reused_firstCall : Reused firstCall := .assembled _ (.init _)

theorem assembleSource_reused_secondLabel :
    assembleSource 10 memoryEnv [str "a.inc"] (str "second: jmp second\n") firstCall =
      assembleSource 10 memoryEnv [] (str "second: jmp second\n") (freshContext firstCall) := by
  have hcheck : (parseSourceWithContext 10 memoryEnv [] (str "second: jmp second\n")).any
      (fun parsed => parsed.any fun insts => decide (Unused firstCall.symbols (programNames insts)) &&
        decide (HasRoom firstCall.symbols (programDefinitions insts)) &&
        (textPhase insts (freshContext firstCall)).1.isSome &&
        (layoutPhase insts (freshContext firstCall)).1.isSome) = true := by
    decide +kernel
  refine assembleSource_reused reused_firstCall (by decide +kernel) ?_ ?_
  · intro hparse
    rw [hparse] at hcheck
    cases hcheck
  · intro insts hparse
    rw [hparse, Option.any_some, Option.any_some, Bool.and_eq_true, Bool.and_eq_true,
      Bool.and_eq_true] at hcheck
    obtain ⟨⟨⟨hunused, hroom⟩, htexted⟩, hlaid⟩ := hcheck
    exact ⟨⟨of_decide_eq_true hunused, of_decide_eq_true hroom⟩, .inr hlaid, .inr htexted⟩

/-- A label of the first source is known to the second. -/
theorem assembleSource_firstLabel : Reused firstCall ∧ WithoutIncludes (str "call first\n") ∧
    assembleSource 10 memoryEnv [] (str "call first\n") firstCall ≠
      assembleSource 10 memoryEnv [] (str "call first\n") (freshContext firstCall) := by
  refine ⟨reused_firstCall, ?_⟩
  decide +kernel

end X86Assembler
