import X86Assembler.Constants
import X86Assembler.SymbolPasses

namespace X86Assembler

open Fallible (Along each ignore)

/-- A name that stands as a label in front of a statement. -/
def Labelled (insts : List ParsedInstruction) (name : Label) : Prop :=
  ∃ inst ∈ insts, inst.type ≠ .sectionDir ∧ inst.label = some name

/-- A symbol as the layout phase makes it: from a label, without an attribute. -/
structure FromLabel (insts : List ParsedInstruction) (sym : Symbol) : Prop where
  flags : sym.flags = ⟨false, false, false⟩
  labelled : Labelled insts sym.name

/-- If the symbols of the first context come from labels, so do those of the second. -/
def StaysFromLabels (insts : List ParsedInstruction) (a b : AssemblerContext) : Prop :=
  (∀ sym ∈ a.symbols, FromLabel insts sym) → ∀ sym ∈ b.symbols, FromLabel insts sym

section Layout

variable {insts : List ParsedInstruction}

theorem fromLabels_rule : TableRule (StaysFromLabels insts) where
  same := fun hsame h => by rwa [hsame.symbols]
  trans := fun _ _ _ hab hbc h => hbc (hab h)

theorem fromLabels_modifyFirst {a b : AssemblerContext} {p : Symbol → Bool} {f : Symbol → Symbol}
    (hb : b.symbols = HashChain.modifyFirst p f a.symbols)
    (hf : ∀ sym, (f sym).name = sym.name ∧ (f sym).flags = sym.flags) :
    StaysFromLabels insts a b := by
  intro h sym hsym
  rw [hb] at hsym
  rcases mem_modifyFirst hsym with hold | ⟨old, hold, rfl⟩
  · exact h sym hold
  · obtain ⟨hname, hflags⟩ := hf old
    obtain ⟨hplain, hlabelled⟩ := h old hold
    exact ⟨hflags.trans hplain, hname ▸ hlabelled⟩

theorem fromLabels_addSymbol {name : Label} (hname : Labelled insts name) (address : Word)
    (isExternal : Bool) (sect : Option SectionId) :
    Along (StaysFromLabels insts) (addSymbol name address false isExternal sect) := by
  intro ctx
  rw [addSymbol]
  split
  · exact fromLabels_rule.same ⟨rfl, rfl⟩
  split
  · split
    · exact fromLabels_rule.same ⟨rfl, rfl⟩
    · exact fromLabels_modifyFirst (f := fun sym => { sym with address, isResolved := true }) rfl
        fun _ => ⟨rfl, rfl⟩
  · intro h sym hsym
    rcases List.mem_append.mp (show sym ∈ ctx.symbols ++ [_] from hsym) with hold | hnew
    · exact h sym hold
    · rw [List.mem_singleton.mp hnew]
      exact ⟨rfl, hname⟩

theorem fromLabels_recordLabels (dataAddress : Word) :
    Along (StaysFromLabels insts) (recordLabels dataAddress insts) := by
  apply fromLabels_rule.recordLabels
  intro inst hmem htype address
  apply fromLabels_rule.recordLabel
  · intro name sect ctx hl
    exact fromLabels_addSymbol ⟨inst, hmem, htype, hl⟩ address false (some sect) ctx
  · intro name ctx
    apply fromLabels_modifyFirst rfl
    intro sym
    split <;> exact ⟨rfl, rfl⟩

theorem fromLabels_upsert {name : Label} (hname : Labelled insts name) (value : Word) :
    Along (StaysFromLabels insts) (upsertConstantSymbol name value) := by
  intro ctx
  rw [upsertConstantSymbol]
  split
  · split
    · exact fromLabels_rule.same ⟨rfl, rfl⟩
    · dsimp only
      split
      · exact fromLabels_modifyFirst rfl fun _ => ⟨rfl, rfl⟩
      · exact fun h => fromLabels_addSymbol hname value false none _ h
  · exact fromLabels_addSymbol hname value false none ctx

theorem fromLabels_resolveEqu {inst : ParsedInstruction} (hmem : inst ∈ insts) :
    Along (StaysFromLabels insts) (resolveEqu inst) := by
  rw [resolveEqu]
  split
  · rename_i htype
    split
    · rename_i name op rest hl hops
      have hname : Labelled insts name := ⟨inst, hmem, by simp [htype], hl⟩
      refine fromLabels_rule.bind fromLabels_rule.get fun ctx => ?_
      split
      · exact fromLabels_upsert hname _
      · exact fromLabels_rule.reportError _
    · exact fromLabels_rule.pure ()
  · exact fromLabels_rule.pure ()

theorem fromLabels_relaxStep (st : RelaxState) (inst : ParsedInstruction) :
    StaysFromLabels insts st.ctx (relaxStep st inst).ctx := by
  rw [relaxStep]
  split
  · exact fromLabels_rule.refl st.ctx
  split
  · exact fromLabels_rule.refl st.ctx
  · show StaysFromLabels insts st.ctx (relaxLabel st inst).ctx
    rw [relaxLabel]
    split
    · exact fromLabels_rule.refl st.ctx
    split
    · exact fromLabels_rule.refl st.ctx
    · split
      · exact fromLabels_rule.refl st.ctx
      · exact fromLabels_modifyFirst rfl fun _ => ⟨rfl, rfl⟩

theorem fromLabels_relaxIterations (n : Nat) (ctx : AssemblerContext)
    (stmts : List ParsedInstruction) :
    StaysFromLabels insts ctx (relaxIterations n ctx stmts) := by
  have hsteps : ∀ (stmts : List ParsedInstruction) (st : RelaxState),
      StaysFromLabels insts st.ctx (stmts.foldl relaxStep st).ctx := by
    intro stmts
    induction stmts with
    | nil => exact fun st => fromLabels_rule.refl st.ctx
    | cons inst stmts ih =>
        exact fun st => fromLabels_rule.trans _ _ _ (fromLabels_relaxStep st inst) (ih _)
  induction n generalizing ctx with
  | zero => exact fromLabels_rule.refl ctx
  | succ n ih =>
      have hone := hsteps stmts { ctx, address := ctx.baseAddress }
      rw [relaxIterations]
      split
      · exact fromLabels_rule.trans _ _ _ hone (ih _)
      · exact hone

theorem layoutProgram_fromLabels {ctx ctx' : AssemblerContext}
    (h : layoutProgram insts ctx = (some (), ctx')) (hempty : ctx.symbols = []) :
    ∀ sym ∈ ctx'.symbols, FromLabel insts sym := by
  obtain ⟨recorded, resolved, hrec, hres, hrelax⟩ := layoutProgram_eq_some h
  have hequs : ∀ {a b : AssemblerContext}, resolveEquSymbolValues insts a = (some (), b) →
      StaysFromLabels insts a b := by
    intro a b hab
    have heach : ∀ stmts : List ParsedInstruction, (∀ inst ∈ stmts, inst ∈ insts) →
        Along (StaysFromLabels insts) (each resolveEqu stmts) := by
      intro stmts
      induction stmts with
      | nil => exact fun _ => fromLabels_rule.pure ()
      | cons inst stmts ih =>
          intro hmem
          exact fromLabels_rule.bind (fromLabels_resolveEqu (hmem inst List.mem_cons_self))
            fun _ => ih fun inst' hin => hmem inst' (List.mem_cons_of_mem _ hin)
    have hstay := heach insts (fun _ hin => hin) a
    rwa [show each resolveEqu insts a = (some (), b) from hab] at hstay
  have hrecorded : StaysFromLabels insts (resetForPassOne ctx) (recordLabels
      ((resetForPassOne ctx).baseAddress + textSizeEstimate insts) insts (resetForPassOne ctx)).2 :=
    fromLabels_recordLabels _ _
  rw [hrec] at hrecorded
  apply hequs hrelax
  apply fromLabels_relaxIterations 8 resolved insts
  apply hequs hres
  apply hrecorded
  intro sym hsym
  rw [show (resetForPassOne ctx).symbols = [] from hempty] at hsym
  cases hsym

end Layout

theorem label_back {before after : List Operand}
    (h : List.Forall₂ OperandRewrites before after) {name : Label}
    (hmem : .label name ∈ after) : .label name ∈ before := by
  induction h with
  | nil => cases hmem
  | cons hop _ ih =>
      rcases List.mem_cons.mp hmem with rfl | hmem
      · rcases hop with hsame | ⟨_, _, _, himm⟩
        · exact hsame ▸ List.mem_cons_self
        · cases himm
      · exact List.mem_cons_of_mem _ (ih hmem)

theorem commonName_back {a b : ParsedInstruction} (htype : b.type = a.type)
    (hops : List.Forall₂ OperandRewrites a.operands b.operands) {name : Label}
    (hb : commonName b = some name) : commonName a = some name := by
  rw [commonName_eq_some] at hb ⊢
  rw [htype] at hb
  refine ⟨hb.1, ?_⟩
  generalize a.operands = before, b.operands = after at hops hb
  cases hops with
  | nil => cases hb.2
  | cons hop hops =>
      have hname := hb.2
      rcases hop with rfl | ⟨other, v, rfl, rfl⟩
      · exact hname
      · cases hname

theorem globalizes_back {a b : ParsedInstruction} (htype : b.type = a.type)
    (hops : List.Forall₂ OperandRewrites a.operands b.operands) {name : Label}
    (hb : Globalizes b name) : Globalizes a name := ⟨htype ▸ hb.1, label_back hops hb.2⟩

theorem declares_back {a b : ParsedInstruction} (htype : b.type = a.type)
    (hops : List.Forall₂ OperandRewrites a.operands b.operands) {name : Label}
    (hb : Declares b name) : Declares a name :=
  hb.imp (fun hext => ⟨htype ▸ hext.1, label_back hops hext.2⟩) (commonName_back htype hops)

/-- The places where a name stands as an operand are places of it in the other statement too. -/
structure KeepsName (name : Label) (a b : ParsedInstruction) : Prop where
  type : b.type = a.type
  operand : ∀ k : Nat, a.operands[k]? = some (.label name) → b.operands[k]? = some (.label name)

section KeepsName

variable {name : Label} {a b c : ParsedInstruction}

theorem KeepsName.trans (hab : KeepsName name a b) (hbc : KeepsName name b c) :
    KeepsName name a c :=
  ⟨hbc.type.trans hab.type, fun k hk => hbc.operand k (hab.operand k hk)⟩

variable (h : KeepsName name a b)

include h

theorem KeepsName.mem (hmem : .label name ∈ a.operands) : .label name ∈ b.operands := by
  obtain ⟨k, hk⟩ := List.mem_iff_getElem?.mp hmem
  exact List.mem_of_getElem? (h.operand k hk)

theorem KeepsName.commonName (ha : commonName a = some name) : commonName b = some name := by
  rw [commonName_eq_some, List.head?_eq_getElem?] at ha ⊢
  exact ⟨h.type ▸ ha.1, h.operand 0 ha.2⟩

theorem KeepsName.globalizes (ha : Globalizes a name) : Globalizes b name :=
  ⟨h.type.trans ha.1, h.mem ha.2⟩

theorem KeepsName.declares (ha : Declares a name) : Declares b name :=
  ha.imp (fun hext => ⟨h.type.trans hext.1, h.mem hext.2⟩) h.commonName

end KeepsName

theorem keepsName_constant {ctx : AssemblerContext} (hc : Consistent ctx) {name : Label}
    (hname : ¬ IsConstant ctx name) (inst : ParsedInstruction) :
    KeepsName name inst (rewriteConstantLabelOperands ctx inst) where
  type := rfl
  operand := fun k hk => by
    show (inst.operands.map (rewriteConstantOperand ctx))[k]? = _
    rw [List.getElem?_map, hk, Option.map_some, keeps_label hc hname]

theorem not_mem_constant {ctx : AssemblerContext} (hc : Consistent ctx) {name : Label}
    (hname : IsConstant ctx name) (inst : ParsedInstruction) :
    .label name ∉ (rewriteConstantLabelOperands ctx inst).operands := by
  intro hmem
  obtain ⟨op, -, hop⟩ := List.mem_map.mp hmem
  obtain ⟨value, -, hvalue⟩ := rewrites_constant hc hname
  rcases operandRewrites_constant ctx op with hsame | ⟨other, v, -, himm⟩
  · rw [hsame] at hop
    subst hop
    rw [hvalue] at hsame
    cases hsame
  · rw [hop] at himm
    cases himm

namespace AssemblyRun

variable {insts : List ParsedInstruction} {ctx final : AssemblerContext}
  (run : AssemblyRun insts ctx final) (hfresh : Fresh ctx)

section Pass

variable {source out : List ParsedInstruction} {entry after : AssemblerContext}
  {st : TextPassState} (hreach : TextReaches run.canon run.layout source entry)
  (hpass : textPass {} source (resetForTextPass entry) = (some (st, out), after))

include hfresh hreach

theorem pass_start_consistent : Consistent (resetForTextPass entry) :=
  ((textReaches_keeps hreach).table.consistent (run.layout_consistent hfresh)).congr rfl rfl

include hpass

theorem pass_consistent {i : Nat} (hi : i ≤ source.length) :
    Consistent (X86Assembler.textAt source (resetForTextPass entry) i) :=
  (textGrows_between hpass (passStart_reset entry) (Nat.zero_le i) hi).table.consistent
    (run.pass_start_consistent hfresh hreach)

theorem pass_keepsName {name : Label} (hname : ¬ IsEquName run.canon name) {i : Nat}
    {a : ParsedInstruction} (ha : source[i]? = some a) :
    ∃ b, out[i]? = some b ∧ KeepsName name a b := by
  have hi : i ≤ source.length := Nat.le_of_lt (List.getElem?_eq_some_iff.mp ha).1
  by_cases hin : InText source i a
  · refine ⟨_, (textAt_step hpass (passStart_reset entry) hin).1, ?_⟩
    have hci := run.pass_consistent hfresh hreach hpass hi
    have hconst : ¬ IsConstant
        (placeLabel (X86Assembler.textAt source (resetForTextPass entry) i) a) name := by
      rwa [isConstant_placeLabel hci, run.pass_constant hfresh hreach hpass hi]
    have hkeeps := keepsName_constant (consistent_placeLabel _ a hci) hconst
      { a with address := (X86Assembler.textAt source (resetForTextPass entry) i).currentAddress }
    exact ⟨hkeeps.type, hkeeps.operand⟩
  · exact ⟨a, (textAt_skip hpass (passStart_reset entry) ha hin).1, rfl, fun _ hk => hk⟩

end Pass

include hfresh

theorem reach_keepsName {source : List ParsedInstruction} {entry : AssemblerContext}
    (hreach : TextReaches run.canon run.layout source entry) {name : Label}
    (hname : ¬ IsEquName run.canon name) {i : Nat} {a : ParsedInstruction}
    (ha : run.canon[i]? = some a) : ∃ b, source[i]? = some b ∧ KeepsName name a b := by
  induction hreach with
  | start => exact ⟨a, ha, rfl, fun _ hk => hk⟩
  | iterate hreach hone ih =>
      obtain ⟨b, hb, hab⟩ := ih
      obtain ⟨c, hc, hbc⟩ :=
        run.pass_keepsName hfresh hreach (textIteration_eq_some hone) hname hb
      exact ⟨c, hc, hab.trans hbc⟩
  | conservative _ ih => exact ih

omit hfresh in
theorem texted_reached : TextReaches run.canon run.layout run.program run.texted := by
  have hlast : textIteration run.source run.entry =
      (some (run.attrs, run.program), run.texted) := run.lastPass
  exact run.reached.iterate hlast

end AssemblyRun

end X86Assembler
