import X86Assembler.EncoderNames
import X86Assembler.LabelLayout
import X86Assembler.SymbolFrames

namespace X86Assembler

open Fallible (each ignore)

/-- The symbol table holds a name as an absolute constant. -/
def IsConstant (ctx : AssemblerContext) (name : Label) : Prop :=
  ∃ v, ctx.view name = some v ∧ v.sect = none

theorem rewrites_constant {ctx : AssemblerContext} (hc : Consistent ctx) {name : Label}
    (h : IsConstant ctx name) : ∃ value, findSymbolAddress ctx name = some value ∧
      rewriteConstantOperand ctx (.label name) = .imm value := by
  obtain ⟨v, hv, hsect⟩ := h
  obtain ⟨entry, hentry, rfl, hresolved⟩ := hc.lookup_of_view hv
  refine ⟨entry.address, ?_, ?_⟩
  · rw [findSymbolAddress, hentry]
    exact if_pos hresolved
  · have hnone : entry.sect = none := hsect
    rw [rewriteConstantOperand, getSymbolInfo, hentry]
    simp only [hresolved, hnone, Option.isNone_none, Bool.and_self, if_true]

theorem keeps_label {ctx : AssemblerContext} (hc : Consistent ctx) {name : Label}
    (h : ¬ IsConstant ctx name) : rewriteConstantOperand ctx (.label name) = .label name := by
  rw [rewriteConstantOperand, getSymbolInfo]
  cases hentry : symbolHashLookup ctx name with
  | none => rfl
  | some entry =>
      have hview := hc.agree name
      rw [hentry] at hview
      have hsect : entry.sect.isNone = false := by
        rw [Option.isNone_eq_false_iff, Option.isSome_iff_ne_none]
        intro hnone
        exact h ⟨entry.view, hview.symm, hnone⟩
      simp only [hsect, Bool.and_false, Bool.false_eq_true, if_false]

theorem equValue_congr {a b : AssemblerContext} {inst : ParsedInstruction} {op : Operand}
    (h : ∀ name ∈ op.labels, findSymbolAddress a name = findSymbolAddress b name) :
    equValue a inst op = equValue b inst op := by
  cases op with
  | label name => rw [equValue, equValue, h name List.mem_cons_self]
  | labelDiff lhs rhs =>
      rw [equValue, equValue, h lhs (by simp [Operand.labels]), h rhs (by simp [Operand.labels])]
  | none | reg _ _ | imm _ | mem _ | string _ => rfl

theorem isConstant_moved {a b : AssemblerContext} {name : Label} {c : Prop} [Decidable c]
    {address : Word} (h : b.view name = if c then
      (a.view name).map fun v => { v with address } else a.view name) :
    IsConstant b name ↔ IsConstant a name := by
  rw [IsConstant, h]
  split
  · constructor
    · rintro ⟨v, hv, hsect⟩
      obtain ⟨u, hu, rfl⟩ := Option.map_eq_some_iff.mp hv
      exact ⟨u, hu, hsect⟩
    · rintro ⟨v, hv, hsect⟩
      exact ⟨_, Option.map_eq_some_iff.mpr ⟨v, hv, rfl⟩, hsect⟩
  · exact Iff.rfl

theorem isConstant_placeLabel {ctx : AssemblerContext} (hc : Consistent ctx)
    (inst : ParsedInstruction) (name : Label) :
    IsConstant (placeLabel ctx inst) name ↔ IsConstant ctx name :=
  isConstant_moved (placeLabel_view ctx inst hc name)

theorem resolveEqu_constant {inst : ParsedInstruction} {ctx ctx' : AssemblerContext}
    (hc : Consistent ctx) (h : resolveEqu inst ctx = (some (), ctx')) (name : Label) :
    IsConstant ctx' name ↔ IsConstant ctx name ∨ ∃ op, IsEqu inst name op := by
  rcases resolveEqu_cases h with ⟨hnone, rfl⟩ | ⟨other, op, value, hequ, -, hup⟩
  · constructor
    · exact .inl
    · rintro (hconst | ⟨op, hequ⟩)
      · exact hconst
      · exact absurd hequ (hnone name op)
  · obtain ⟨-, hview, -, -⟩ := upsertConstantSymbol_spec hc hup
    rw [IsConstant, hview]
    by_cases hname : other = name
    · subst hname
      rw [if_pos rfl]
      exact ⟨fun _ => .inr ⟨op, hequ⟩, fun _ => ⟨_, rfl, rfl⟩⟩
    · rw [if_neg hname]
      constructor
      · exact .inl
      · rintro (hconst | ⟨op', hequ'⟩)
        · exact hconst
        · have hsame := hequ.label.symm.trans hequ'.label
          exact absurd (Option.some.inj hsame) hname

theorem resolveEqus_constant {insts : List ParsedInstruction} {ctx ctx' : AssemblerContext}
    (hc : Consistent ctx) (h : resolveEquSymbolValues insts ctx = (some (), ctx'))
    (name : Label) : IsConstant ctx' name ↔
      IsConstant ctx name ∨ ∃ inst ∈ insts, ∃ op, IsEqu inst name op := by
  rw [resolveEquSymbolValues] at h
  induction insts generalizing ctx with
  | nil =>
      obtain ⟨-, rfl⟩ := Fallible.pure_eq_some.mp h
      simp
  | cons inst insts ih =>
      obtain ⟨_, ctx₁, hone, hrest⟩ := Fallible.bind_eq_some.mp h
      have hc₁ := (resolveEqu_keeps hc hone).table.consistent hc
      rw [ih hc₁ hrest, resolveEqu_constant hc hone, List.exists_mem_cons_iff, or_assoc]

theorem relaxStep_constant (st : RelaxState) (inst : ParsedInstruction) (hc : Consistent st.ctx)
    (name : Label) : IsConstant (relaxStep st inst).ctx name ↔ IsConstant st.ctx name := by
  rw [relaxStep]
  split
  · exact Iff.rfl
  split
  · exact Iff.rfl
  · exact isConstant_moved ((relaxLabel_spec st inst hc).2.1 name)

theorem relaxSteps_constant (insts : List ParsedInstruction) (st : RelaxState)
    (hc : Consistent st.ctx) (name : Label) :
    IsConstant (insts.foldl relaxStep st).ctx name ↔ IsConstant st.ctx name := by
  induction insts generalizing st with
  | nil => exact Iff.rfl
  | cons inst insts ih =>
      have hone := (relaxStep_keeps st inst hc).table.consistent hc
      exact (ih (relaxStep st inst) hone).trans (relaxStep_constant st inst hc name)

theorem relaxIterations_constant (n : Nat) (ctx : AssemblerContext)
    (insts : List ParsedInstruction) (hc : Consistent ctx) (name : Label) :
    IsConstant (relaxIterations n ctx insts) name ↔ IsConstant ctx name := by
  induction n generalizing ctx with
  | zero => exact Iff.rfl
  | succ n ih =>
      have hone : IsConstant (relaxIteration ctx insts).ctx name ↔ IsConstant ctx name :=
        relaxSteps_constant insts { ctx, address := ctx.baseAddress } hc name
      have hc₁ : Consistent (relaxIteration ctx insts).ctx :=
        (relaxSteps_keep insts { ctx, address := ctx.baseAddress } hc).table.consistent hc
      show IsConstant (if (relaxIteration ctx insts).changed then
        relaxIterations n (relaxIteration ctx insts).ctx insts
          else (relaxIteration ctx insts).ctx) name ↔ _
      split
      · exact (ih _ hc₁).trans hone
      · exact hone

/-- The constants among the symbols of one context are constants of another. -/
def NoNewConstant (a b : AssemblerContext) : Prop :=
  ∀ sym ∈ b.symbols, sym.sect = none → ∃ old ∈ a.symbols, old.name = sym.name ∧ old.sect = none

theorem NoNewConstant.of_eq {a b : AssemblerContext} (h : b.symbols = a.symbols) :
    NoNewConstant a b := by
  intro sym hsym hsect
  exact ⟨sym, h ▸ hsym, rfl, hsect⟩

theorem NoNewConstant.refl (a : AssemblerContext) : NoNewConstant a a := .of_eq rfl

theorem NoNewConstant.trans (a b c : AssemblerContext) (hab : NoNewConstant a b)
    (hbc : NoNewConstant b c) : NoNewConstant a c := by
  intro sym hsym hsect
  obtain ⟨mid, hmid, hname, hnone⟩ := hbc sym hsym hsect
  obtain ⟨old, hold, hname', hnone'⟩ := hab mid hmid hnone
  exact ⟨old, hold, hname'.trans hname, hnone'⟩

theorem NoNewConstant.of_map {a b : AssemblerContext}
    (h : ∀ sym ∈ b.symbols, ∃ old ∈ a.symbols, old.name = sym.name ∧ old.sect = sym.sect) :
    NoNewConstant a b := by
  intro sym hsym hsect
  obtain ⟨old, hold, hname, hsame⟩ := h sym hsym
  exact ⟨old, hold, hname, hsame.trans hsect⟩

theorem mem_modifyFirst {p : Symbol → Bool} {f : Symbol → Symbol} {l : List Symbol} {sym : Symbol}
    (h : sym ∈ HashChain.modifyFirst p f l) : sym ∈ l ∨ ∃ old ∈ l, sym = f old := by
  induction l with
  | nil => cases h
  | cons first l ih =>
      rw [HashChain.modifyFirst] at h
      split at h
      · rcases List.mem_cons.mp h with rfl | h
        · exact .inr ⟨first, List.mem_cons_self, rfl⟩
        · exact .inl (List.mem_cons_of_mem _ h)
      · rcases List.mem_cons.mp h with rfl | h
        · exact .inl List.mem_cons_self
        · rcases ih h with h | ⟨old, hold, rfl⟩
          · exact .inl (List.mem_cons_of_mem _ h)
          · exact .inr ⟨old, List.mem_cons_of_mem _ hold, rfl⟩

theorem noNewConstant_modifyFirst {a b : AssemblerContext} {p : Symbol → Bool}
    {f : Symbol → Symbol} (h : b.symbols = HashChain.modifyFirst p f a.symbols)
    (hf : ∀ sym, (f sym).name = sym.name ∧ (f sym).sect = sym.sect) : NoNewConstant a b := by
  apply NoNewConstant.of_map
  intro sym hsym
  rw [h] at hsym
  rcases mem_modifyFirst hsym with hold | ⟨old, hold, rfl⟩
  · exact ⟨sym, hold, rfl, rfl⟩
  · exact ⟨old, hold, (hf old).1.symm, (hf old).2.symm⟩

theorem noNewConstant_addSymbol (name : Label) (address : Word) (isGlobal isExternal : Bool)
    (sect : SectionId) :
    Fallible.Along NoNewConstant (addSymbol name address isGlobal isExternal (some sect)) := by
  intro ctx
  rw [addSymbol]
  split
  · exact .of_eq rfl
  split
  · split
    · exact .of_eq rfl
    · exact noNewConstant_modifyFirst (f := fun sym => { sym with address, isResolved := true })
        rfl fun _ => ⟨rfl, rfl⟩
  · intro sym hsym hsect
    rcases List.mem_append.mp (show sym ∈ ctx.symbols ++ [_] from hsym) with hold | hnew
    · exact ⟨sym, hold, rfl, hsect⟩
    · rw [List.mem_singleton.mp hnew] at hsect
      cases hsect

section Emission

theorem noNew_rule : TableRule NoNewConstant where
  same := fun h => .of_eq h.symbols
  trans := NoNewConstant.trans

theorem noNew_encodeComm (inst : ParsedInstruction) :
    Fallible.Along NoNewConstant (encodeComm inst) :=
  noNew_rule.encodeComm fun _ _ ctx _ => noNewConstant_addSymbol _ _ _ _ _ ctx

theorem noNew_markGlobal (ctx : AssemblerContext) (op : Operand) :
    NoNewConstant ctx (markGlobal ctx op) := by
  cases op with
  | label name =>
      apply NoNewConstant.of_map
      intro sym hsym
      obtain ⟨old, hold, rfl⟩ := List.mem_map.mp hsym
      refine ⟨old, hold, ?_, ?_⟩
      · split <;> rfl
      · split <;> rfl
  | none | reg _ _ | imm _ | mem _ | labelDiff _ _ | string _ => exact .refl ctx

theorem noNew_markGlobals (ops : List Operand) (ctx : AssemblerContext) :
    NoNewConstant ctx (ops.foldl markGlobal ctx) := by
  induction ops generalizing ctx with
  | nil => exact .refl ctx
  | cons op ops ih => exact (noNew_markGlobal ctx op).trans _ _ _ (ih (markGlobal ctx op))

theorem noNew_declareExternal (op : Operand) :
    Fallible.Along NoNewConstant (declareExternal op) := by
  cases op with
  | label name => exact (noNewConstant_addSymbol _ _ _ _ _).ignore
  | none | reg _ _ | imm _ | mem _ | labelDiff _ _ | string _ => exact noNew_rule.pure ()

theorem noNew_markCallTarget (ctx : AssemblerContext) (inst : ParsedInstruction) :
    NoNewConstant ctx (markCallTarget ctx inst) := by
  rw [markCallTarget]
  split
  · exact noNewConstant_modifyFirst (f := fun sym => { sym with isFunction := true }) rfl
      fun _ => ⟨rfl, rfl⟩
  · exact .refl ctx

theorem noNew_emitTextStatement (inst : ParsedInstruction) :
    Fallible.Along NoNewConstant (emitTextStatement inst) := by
  apply noNew_rule.emitTextStatement
  · exact fun _ => noNew_markGlobals inst.operands
  · exact fun _ => noNew_rule.each noNew_declareExternal _
  · exact fun ctx => noNew_markCallTarget ctx inst
  · exact fun _ => noNew_encodeComm inst

theorem noNew_emitDataStatement (inst : ParsedInstruction) :
    Fallible.Along NoNewConstant (emitDataStatement inst) :=
  noNew_rule.emitDataStatement fun _ => noNew_encodeComm inst

theorem noNew_recordLabels (dataAddress : Word) (insts : List ParsedInstruction) :
    Fallible.Along NoNewConstant (recordLabels dataAddress insts) := by
  apply noNew_rule.recordLabels
  intro inst _ _ address
  apply noNew_rule.recordLabel
  · exact fun _ _ ctx _ => noNewConstant_addSymbol _ _ _ _ _ ctx
  · intro name ctx
    apply noNewConstant_modifyFirst rfl
    intro sym
    split <;> exact ⟨rfl, rfl⟩

end Emission

theorem isConstant_emits {a b : AssemblerContext} {bs : List CString.Byte} {fs : List Fixup}
    {lost : Nat} (hc : Consistent a) (he : Emits a b bs fs lost) (hn : NoNewConstant a b)
    (name : Label) : IsConstant b name ↔ IsConstant a name := by
  constructor
  · rintro ⟨v, hv, hsect⟩
    obtain ⟨sym, hsym, rfl, rfl⟩ := mem_of_view hv
    obtain ⟨old, hold, hname, hnone⟩ := hn sym hsym hsect
    exact ⟨old.view, hname ▸ view_of_mem hc hold, hnone⟩
  · rintro ⟨v, hv, hsect⟩
    exact ⟨v, he.table.kept hc name v hv, hsect⟩

section Passes

variable {insts out : List ParsedInstruction} {ctx ctx' : AssemblerContext} {st : TextPassState}

theorem textAt_constant (h : textPass {} insts ctx = (some (st, out), ctx')) (hs : PassStart ctx)
    (hc : Consistent ctx) {i : Nat} (hi : i ≤ insts.length) (name : Label) :
    IsConstant (textAt insts ctx i) name ↔ IsConstant ctx name := by
  induction i with
  | zero => exact Iff.rfl
  | succ i ih =>
      have hget : insts[i]? = some insts[i] := List.getElem?_eq_getElem hi
      have hprev := ih (Nat.le_of_succ_le hi)
      have hci : Consistent (textAt insts ctx i) :=
        (textGrows_between h hs (Nat.zero_le i) (Nat.le_of_succ_le hi)).table.consistent hc
      by_cases hin : InText insts i insts[i]
      · obtain ⟨bs, fs, lost, he⟩ := textAt_emits h hs hin
        have hnew := noNew_emitTextStatement (textRewrite (textAt insts ctx i) insts[i])
          (placeLabel (textAt insts ctx i) insts[i])
        rw [(textAt_step h hs hin).2] at hnew
        have hplace := consistent_placeLabel _ insts[i] hci
        rw [isConstant_emits hplace he hnew, isConstant_placeLabel hci, hprev]
      · rw [(textAt_skip h hs hget hin).2]
        exact hprev

theorem dataAt_constant (h : dataPass insts ctx = (some (), ctx')) (hc : Consistent ctx) {i : Nat}
    (hi : i ≤ insts.length) (name : Label) :
    IsConstant (dataAt insts ctx i) name ↔ IsConstant ctx name := by
  have hstart : Consistent (resetForDataPass ctx) := hc.congr rfl rfl
  induction i with
  | zero => exact Iff.rfl
  | succ i ih =>
      have hget : insts[i]? = some insts[i] := List.getElem?_eq_getElem hi
      have hprev := ih (Nat.le_of_succ_le hi)
      have hci : Consistent (dataAt insts ctx i) :=
        (dataGrows_between h (Nat.zero_le i) (Nat.le_of_succ_le hi)).table.consistent hstart
      by_cases hin : InData insts i insts[i]
      · obtain ⟨bs, lost, he⟩ := dataAt_emits h hin
        have hnew := noNew_emitDataStatement (dataRewrite (dataAt insts ctx i) insts[i])
          (placeLabel (dataAt insts ctx i) insts[i])
        rw [dataAt_step h hin] at hnew
        have hplace := consistent_placeLabel _ insts[i] hci
        exact (isConstant_emits hplace he hnew name).trans
          ((isConstant_placeLabel hci _ name).trans hprev)
      · rw [dataAt_skip h hget hin]
        exact hprev

end Passes

/-- The names that an `equ` statement with an expression defines. -/
def IsEquName (insts : List ParsedInstruction) (name : Label) : Prop :=
  ∃ inst ∈ insts, ∃ op, IsEqu inst name op

theorem layoutProgram_constant {insts : List ParsedInstruction} {ctx ctx' : AssemblerContext}
    (hfresh : Fresh ctx) (h : layoutProgram insts ctx = (some (), ctx')) (name : Label) :
    IsConstant ctx' name ↔ IsEquName insts name := by
  obtain ⟨recorded, resolved, hrec, hres, hrelax⟩ := layoutProgram_eq_some h
  have hstart : Consistent (resetForPassOne ctx) := hfresh.consistent.congr rfl rfl
  have hc₁ := (recordLabels_keeps hrec).table.consistent hstart
  have hc₂ := (resolveEqus_keep hc₁ hres).table.consistent hc₁
  have hc₃ := (relaxIterations_keep 8 resolved insts hc₂).table.consistent hc₂
  have hnone : ¬ IsConstant recorded name := by
    rintro ⟨v, hv, hsect⟩
    obtain ⟨sym, hsym, -, rfl⟩ := mem_of_view hv
    have hnew := noNew_recordLabels
      ((resetForPassOne ctx).baseAddress + textSizeEstimate insts) insts (resetForPassOne ctx)
    rw [hrec] at hnew
    obtain ⟨old, hold, -⟩ := hnew sym hsym hsect
    rw [show (resetForPassOne ctx).symbols = [] from hfresh.symbols] at hold
    cases hold
  rw [resolveEqus_constant hc₃ hrelax]
  show IsConstant (relaxIterations 8 resolved insts) name ∨ IsEquName insts name ↔ _
  rw [relaxIterations_constant 8 resolved insts hc₂, resolveEqus_constant hc₁ hres, ← IsEquName]
  simp [hnone]

theorem textReaches_constant {canon insts : List ParsedInstruction}
    {layout ctx : AssemblerContext} (hc : Consistent layout)
    (h : TextReaches canon layout insts ctx) (name : Label) :
    IsConstant ctx name ↔ IsConstant layout name := by
  induction h with
  | start => exact Iff.rfl
  | @iterate insts out ctx ctx' st hreach hone ih =>
      have hpass := textIteration_eq_some hone
      have hstart : Consistent (resetForTextPass ctx) :=
        ((textReaches_keeps hreach).table.consistent hc).congr rfl rfl
      have hend := textAt_constant hpass (passStart_reset ctx) hstart (Nat.le_refl _) name
      rw [textAt_length hpass] at hend
      exact hend.trans ih
  | conservative _ ih => exact ih

theorem noNew_applySymbolAttribute (directive : String) {f : Symbol → Symbol}
    (hf : ∀ sym, (f sym).name = sym.name ∧ (f sym).sect = sym.sect) (name : Label) :
    Fallible.Along NoNewConstant (applySymbolAttribute directive f name) := by
  intro ctx
  rw [applySymbolAttribute]
  split
  · exact noNewConstant_modifyFirst rfl hf
  · exact .of_eq rfl

theorem noNew_applySymbolAttributes (st : TextPassState) :
    Fallible.Along NoNewConstant (applySymbolAttributes st) := by
  refine noNew_rule.bind (noNew_rule.each (fun name => ?_) _) fun _ =>
    noNew_rule.each (fun name => ?_) _
  · apply noNew_applySymbolAttribute
    exact fun _ => ⟨rfl, rfl⟩
  · apply noNew_applySymbolAttribute
    exact fun _ => ⟨rfl, rfl⟩

namespace AssemblyRun

variable {insts : List ParsedInstruction} {ctx final : AssemblerContext}
  (run : AssemblyRun insts ctx final) (hfresh : Fresh ctx)

include hfresh

theorem layout_consistent : Consistent run.layout :=
  (run.layout_keeps hfresh.consistent).table.consistent hfresh.consistent

theorem layout_constant (name : Label) :
    IsConstant run.layout name ↔ IsEquName run.canon name := by
  have hcleared : Fresh { ctx with lastError := none } := ⟨hfresh.symbols, hfresh.symbolHash⟩
  exact layoutProgram_constant hcleared run.laidOut name

theorem pass_constant {source out : List ParsedInstruction} {entry after : AssemblerContext}
    {st : TextPassState} (hreach : TextReaches run.canon run.layout source entry)
    (h : textPass {} source (resetForTextPass entry) = (some (st, out), after)) {i : Nat}
    (hi : i ≤ source.length) (name : Label) :
    IsConstant (X86Assembler.textAt source (resetForTextPass entry) i) name ↔
      IsEquName run.canon name := by
  have hlayout := run.layout_consistent hfresh
  have hstart : Consistent (resetForTextPass entry) :=
    ((textReaches_keeps hreach).table.consistent hlayout).congr rfl rfl
  rw [textAt_constant h (passStart_reset entry) hstart hi]
  exact (textReaches_constant hlayout hreach name).trans (run.layout_constant hfresh name)

theorem data_constant {i : Nat} (hi : i ≤ run.program.length) (name : Label) :
    IsConstant (run.dataAt i) name ↔ IsEquName run.canon name := by
  have htexted := run.pass_constant hfresh run.reached run.lastPass (Nat.le_refl _) name
  rw [textAt_length run.lastPass] at htexted
  have hnew := noNew_applySymbolAttributes run.attrs run.texted
  rw [run.attributesApplied] at hnew
  rw [dataAt, dataAt_constant run.dataEmitted (run.attributed_consistent hfresh.consistent) hi,
    isConstant_emits (run.texted_consistent hfresh.consistent) run.attributed_emits hnew, htexted]

end AssemblyRun

end X86Assembler
