import X86Assembler.LabelLayout
import X86Assembler.SymbolChanges

namespace X86Assembler

open Fallible (Along each)

section TextPass

variable {insts out : List ParsedInstruction} {ctx ctx' : AssemblerContext} {st : TextPassState}
  (h : textPass {} insts ctx = (some (st, out), ctx')) (hs : PassStart ctx)
  {marks : Label → Prop} {adds : Label → Bool → Prop}

include h hs

theorem textAt_changes_step {i : Nat} {inst : ParsedInstruction} (hi : InText insts i inst)
    (hmarks : ∀ name, Globalizes (textRewrite (textAt insts ctx i) inst) name → marks name)
    (hadds : ∀ name, Declares (textRewrite (textAt insts ctx i) inst) name →
      adds name (inst.type == .comm)) :
    Changes marks adds (textAt insts ctx i) (textAt insts ctx (i + 1)) := by
  have hplace : Changes marks adds (textAt insts ctx i) (placeLabel (textAt insts ctx i) inst) :=
    changes_placeLabel inst (textAt insts ctx i)
  have hemit := changes_emitTextStatement hmarks hadds (placeLabel (textAt insts ctx i) inst)
  rw [(textAt_step h hs hi).2] at hemit
  exact hplace.trans hemit

theorem textAt_changes_cases {i : Nat} (hi : i < insts.length) : (∃ inst, InText insts i inst) ∨
    SameTable (textAt insts ctx i) (textAt insts ctx (i + 1)) := by
  by_cases hin : InText insts i insts[i]
  · exact .inl ⟨_, hin⟩
  · right
    rw [(textAt_skip h hs (List.getElem?_eq_getElem hi) hin).2]
    exact ⟨rfl, rfl⟩

theorem textAt_changes {i j : Nat} (hij : i ≤ j) (hj : j ≤ insts.length) :
    Changes (fun _ => True) (fun _ _ => True) (textAt insts ctx i) (textAt insts ctx j) := by
  induction hij with
  | refl => exact .of_same (.refl _)
  | @step j hij ih =>
      refine (ih (Nat.le_of_succ_le hj)).trans ?_
      rcases textAt_changes_cases h hs hj with ⟨inst, hin⟩ | hsame
      · exact textAt_changes_step h hs hin (fun _ _ => trivial) fun _ _ => trivial
      · exact .of_same hsame

/-- What a text pass may do to the symbols at a statement. -/
def TextChanges (insts : List ParsedInstruction) (ctx : AssemblerContext) (i : Nat)
    (inst : ParsedInstruction) : Prop :=
  Changes (Globalizes (textRewrite (textAt insts ctx i) inst))
    (fun name g => Declares (textRewrite (textAt insts ctx i) inst) name ∧ g = (inst.type == .comm))
    (textAt insts ctx i) (textAt insts ctx (i + 1))

theorem textAt_invariant {I : AssemblerContext → Prop}
    (hsame : ∀ a b, SameTable a b → I a → I b) (hstart : I ctx)
    (hstep : ∀ i inst, InText insts i inst → TextChanges insts ctx i inst →
      I (textAt insts ctx i) → I (textAt insts ctx (i + 1))) {i : Nat} (hi : i ≤ insts.length) :
    I (textAt insts ctx i) := by
  induction i with
  | zero => exact hstart
  | succ i ih =>
      have hprev := ih (Nat.le_of_succ_le hi)
      rcases textAt_changes_cases h hs hi with ⟨inst, hin⟩ | hskip
      · refine hstep i inst hin ?_ hprev
        exact textAt_changes_step h hs hin (fun _ hg => hg) fun _ hd => ⟨hd, rfl⟩
      · exact hsame _ _ hskip hprev

end TextPass

section DataPass

variable {insts : List ParsedInstruction} {ctx ctx' : AssemblerContext}
  (h : dataPass insts ctx = (some (), ctx')) {marks : Label → Prop} {adds : Label → Bool → Prop}

include h

theorem dataAt_changes_step {i : Nat} {inst : ParsedInstruction} (hi : InData insts i inst)
    (hadds : ∀ name, commonName (dataRewrite (dataAt insts ctx i) inst) = some name →
      adds name (inst.type == .comm)) :
    Changes marks adds (dataAt insts ctx i) (dataAt insts ctx (i + 1)) := by
  have hplace : Changes marks adds (dataAt insts ctx i) (placeLabel (dataAt insts ctx i) inst) :=
    changes_placeLabel inst (dataAt insts ctx i)
  have hemit : Changes marks adds (placeLabel (dataAt insts ctx i) inst)
      (emitDataStatement (dataRewrite (dataAt insts ctx i) inst)
        (placeLabel (dataAt insts ctx i) inst)).2 :=
    changes_emitDataStatement hadds (placeLabel (dataAt insts ctx i) inst)
  rw [dataAt_step h hi] at hemit
  exact hplace.trans hemit

theorem dataAt_changes_cases {i : Nat} (hi : i < insts.length) : (∃ inst, InData insts i inst) ∨
    SameTable (dataAt insts ctx i) (dataAt insts ctx (i + 1)) := by
  by_cases hin : InData insts i insts[i]
  · exact .inl ⟨_, hin⟩
  · right
    rw [dataAt_skip h (List.getElem?_eq_getElem hi) hin]
    exact ⟨rfl, rfl⟩

theorem dataAt_changes {i j : Nat} (hij : i ≤ j) (hj : j ≤ insts.length) :
    Changes (fun _ => True) (fun _ _ => True) (dataAt insts ctx i) (dataAt insts ctx j) := by
  induction hij with
  | refl => exact .of_same (.refl _)
  | @step j hij ih =>
      refine (ih (Nat.le_of_succ_le hj)).trans ?_
      rcases dataAt_changes_cases h hj with ⟨inst, hin⟩ | hsame
      · exact dataAt_changes_step h hin fun _ _ => trivial
      · exact .of_same hsame

/-- What the data pass may do to the symbols at a statement. -/
def DataChanges (insts : List ParsedInstruction) (ctx : AssemblerContext) (i : Nat)
    (inst : ParsedInstruction) : Prop :=
  Changes (fun _ => False)
    (fun name g => commonName (dataRewrite (dataAt insts ctx i) inst) = some name ∧
      g = (inst.type == .comm)) (dataAt insts ctx i) (dataAt insts ctx (i + 1))

theorem dataAt_invariant {I : AssemblerContext → Prop}
    (hsame : ∀ a b, SameTable a b → I a → I b) (hstart : I ctx)
    (hstep : ∀ i inst, InData insts i inst → DataChanges insts ctx i inst →
      I (dataAt insts ctx i) → I (dataAt insts ctx (i + 1))) {i : Nat} (hi : i ≤ insts.length) :
    I (dataAt insts ctx i) := by
  induction i with
  | zero => exact hsame ctx _ ⟨rfl, rfl⟩ hstart
  | succ i ih =>
      have hprev := ih (Nat.le_of_succ_le hi)
      rcases dataAt_changes_cases h hi with ⟨inst, hin⟩ | hskip
      · refine hstep i inst hin ?_ hprev
        exact dataAt_changes_step h hin fun _ hd => ⟨hd, rfl⟩
      · exact hsame _ _ hskip hprev

end DataPass

theorem each_attribute_flags {directive : String} {f : Symbol → Symbol} {g : Flags → Flags}
    (hname : ∀ sym, (f sym).name = sym.name) (hflags : ∀ sym, (f sym).flags = g sym.flags)
    (hg : ∀ x, g (g x) = g x) {names : List Label} {ctx ctx' : AssemblerContext}
    (h : each (applySymbolAttribute directive f) names ctx = (some (), ctx')) (name : Label) :
    ctx'.flags name = (if name ∈ names then (ctx.flags name).map g else ctx.flags name) ∧
      (name ∈ names → ctx.flags name ≠ none) := by
  induction names generalizing ctx with
  | nil =>
      obtain ⟨-, rfl⟩ := Fallible.pure_eq_some.mp h
      exact ⟨by rw [if_neg List.not_mem_nil], fun hmem => absurd hmem List.not_mem_nil⟩
  | cons first names ih =>
      obtain ⟨_, ctx₁, hone, hrest⟩ := Fallible.bind_eq_some.mp h
      obtain ⟨hmore, hknown⟩ := ih hrest
      have hfirst : ctx.flags first ≠ none ∧
          ctx₁.flags name = if first = name then (ctx.flags first).map g else ctx.flags name := by
        rw [applySymbolAttribute] at hone
        split at hone
        · rename_i sym hsym
          cases hone
          refine ⟨?_, ?_⟩
          · rw [AssemblerContext.flags, hsym]
            exact Option.some_ne_none _
          · rw [AssemblerContext.flags, findSymbolEntry_updateFirst ctx first f hname]
            split
            · rw [AssemblerContext.flags, Option.map_map, Option.map_map]
              exact congrArg (fun g => Option.map g _) (funext hflags)
            · rfl
        · cases hone
      obtain ⟨hfirstKnown, hstep⟩ := hfirst
      by_cases heq : first = name
      · subst heq
        rw [if_pos rfl] at hstep
        refine ⟨?_, fun _ => hfirstKnown⟩
        rw [hmore, hstep, if_pos List.mem_cons_self, Option.map_map]
        split
        · exact congrArg (fun g => Option.map g _) (funext hg)
        · rfl
      · rw [if_neg heq] at hstep
        have hmem : name ∈ first :: names ↔ name ∈ names := by
          rw [List.mem_cons]
          exact or_iff_right (Ne.symm heq)
        rw [hstep] at hmore hknown
        simp only [hmem]
        exact ⟨hmore, hknown⟩

theorem applySymbolAttributes_flags {st : TextPassState} {ctx ctx' : AssemblerContext}
    (h : applySymbolAttributes st ctx = (some (), ctx')) (name : Label) :
    ctx'.flags name = (ctx.flags name).map (fun f =>
      { f with
        isWeak := f.isWeak || decide (name ∈ st.weakAttrs)
        isHidden := f.isHidden || decide (name ∈ st.hiddenAttrs) }) ∧
      (name ∈ st.weakAttrs ∨ name ∈ st.hiddenAttrs → ctx.flags name ≠ none) := by
  obtain ⟨_, ctx₁, hweak, hhidden⟩ := Fallible.bind_eq_some.mp h
  obtain ⟨hw, hwknown⟩ := each_attribute_flags (f := fun sym => { sym with isWeak := true })
    (g := fun f => { f with isWeak := true }) (fun _ => rfl) (fun _ => rfl) (fun _ => rfl) hweak name
  obtain ⟨hh, hhknown⟩ := each_attribute_flags (f := fun sym => { sym with isHidden := true })
    (g := fun f => { f with isHidden := true }) (fun _ => rfl) (fun _ => rfl) (fun _ => rfl)
    hhidden name
  constructor
  · rw [hh, hw]
    cases hf : ctx.flags name with
    | none => split <;> split <;> rfl
    | some f =>
        by_cases hmw : name ∈ st.weakAttrs
        · by_cases hmh : name ∈ st.hiddenAttrs <;> simp [hmw, hmh]
        · by_cases hmh : name ∈ st.hiddenAttrs <;> simp [hmw, hmh]
  · rintro (hmem | hmem)
    · exact hwknown hmem
    · intro hnone
      apply hhknown hmem
      rw [hw, hnone]
      split <;> rfl

namespace AssemblyRun

variable {insts : List ParsedInstruction} {ctx final : AssemblerContext}
  (run : AssemblyRun insts ctx final)

theorem final_flags (name : Label) : final.flags name = run.emitted.flags name :=
  flags_congr run.resolves.symbols name

theorem attributed_flags (name : Label) :
    run.attributed.flags name = (run.texted.flags name).map fun f =>
      { f with
        isWeak := f.isWeak || decide (name ∈ run.attrs.weakAttrs)
        isHidden := f.isHidden || decide (name ∈ run.attrs.hiddenAttrs) } :=
  (applySymbolAttributes_flags run.attributesApplied name).1

variable (hc : Consistent ctx)

include hc

theorem text_full {i : Nat} (hi : i ≤ run.source.length) {name : Label}
    (hnone : (run.textAt i).flags name = none)
    (hfull : maxSymbols ≤ (run.textAt i).symbols.length) : final.flags name = none := by
  have htext := textAt_changes run.lastPass run.start hi (Nat.le_refl _)
  rw [textAt_length run.lastPass] at htext
  have htexted := htext.new_full (run.textAt_consistent hc hi) hfull hnone
  have hlength := Nat.le_trans (Nat.le_trans hfull htext.length_le)
    run.attributed_emits.table.length_le
  have hattributed : run.attributed.flags name = none := by
    rw [run.attributed_flags, htexted]
    rfl
  have hdata := dataAt_changes run.dataEmitted (Nat.zero_le _) (Nat.le_refl _)
  rw [dataAt_length run.dataEmitted] at hdata
  rw [run.final_flags]
  exact hdata.new_full ((run.attributed_consistent hc).congr rfl rfl) hlength hattributed

theorem data_full {i : Nat} (hi : i ≤ run.program.length) {name : Label}
    (hnone : (run.dataAt i).flags name = none)
    (hfull : maxSymbols ≤ (run.dataAt i).symbols.length) : final.flags name = none := by
  have hdata := dataAt_changes run.dataEmitted hi (Nat.le_refl _)
  rw [dataAt_length run.dataEmitted] at hdata
  rw [run.final_flags]
  exact hdata.new_full (run.dataAt_consistent hc hi) hfull hnone

end AssemblyRun

end X86Assembler
