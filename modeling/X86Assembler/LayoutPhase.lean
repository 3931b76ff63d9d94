import X86Assembler.TextPass

namespace X86Assembler

open Fallible (each ignore)

/-- Before the text passes the symbol table changes, and the settings do not. -/
structure LayoutKeeps (a b : AssemblerContext) : Prop where
  table : TableKeeps a b
  settings : b.settings = a.settings

theorem LayoutKeeps.refl (a : AssemblerContext) : LayoutKeeps a a := ⟨.of_eq rfl rfl, rfl⟩

theorem LayoutKeeps.trans {a b c : AssemblerContext} (hab : LayoutKeeps a b)
    (hbc : LayoutKeeps b c) : LayoutKeeps a c :=
  ⟨hab.table.trans hbc.table, hbc.settings.trans hab.settings⟩

theorem Emits.layoutKeeps {a b : AssemblerContext} (h : Emits a b [] [] 0) : LayoutKeeps a b :=
  ⟨h.table.keeps, h.settings⟩

theorem recordDeclaration_emits (ctx : AssemblerContext) (name : Label)
    (inst : ParsedInstruction) : Emits ctx (recordDeclaration ctx name inst) [] [] 0 := by
  have hname : ∀ sym : Symbol, (if sym.declLine = 0 then
      { sym with
        declLine := max inst.lineNumber 1
        declColumn := max inst.labelColumn 1
        isFunction := sym.isFunction ||
          (ctx.currentSection = .text && name = CString.lit _ "_start") }
      else sym).name = sym.name := by
    intro sym
    split <;> rfl
  have hview : ∀ sym : Symbol, (if sym.declLine = 0 then
      { sym with
        declLine := max inst.lineNumber 1
        declColumn := max inst.labelColumn 1
        isFunction := sym.isFunction ||
          (ctx.currentSection = .text && name = CString.lit _ "_start") }
      else sym).view = sym.view := by
    intro sym
    split <;> rfl
  exact emits_of_symbols rfl (Nat.le_of_eq (modifyFirst_length _ _ _).symm)
    (fun h => consistent_updateFirst name _ h hname hview)
    fun other => view_updateFirst ctx name _ hname hview other

theorem recordLabel_emits {inst : ParsedInstruction} {address : Word} {ctx ctx' : AssemblerContext}
    (h : recordLabel inst address ctx = (some (), ctx')) : Emits ctx ctx' [] [] 0 := by
  rw [recordLabel] at h
  cases hl : inst.label with
  | none =>
      rw [hl] at h
      obtain ⟨-, rfl⟩ := Fallible.pure_eq_some.mp h
      exact .refl ctx
  | some name =>
      rw [hl] at h
      obtain ⟨c, ctx₁, hget, h₁⟩ := Fallible.bind_eq_some.mp h
      cases hget
      obtain ⟨_, ctx₂, hadd, h₂⟩ := Fallible.bind_eq_some.mp h₁
      rw [Fallible.ignore_run] at hadd
      cases hadd
      cases h₂
      exact (addSymbol_emits _ _ _ _ _ _).then (recordDeclaration_emits _ _ _)

theorem recordLabel_known {inst : ParsedInstruction} {address : Word}
    {ctx ctx' : AssemblerContext} (hc : Consistent ctx)
    (h : recordLabel inst address ctx = (some (), ctx')) {name : Label}
    (hl : inst.label = some name) (hroom : ctx'.symbols.length < maxSymbols) :
    (ctx'.view name).isSome := by
  have hlen := (recordLabel_emits h).table.length_le
  rw [recordLabel, hl] at h
  obtain ⟨c, ctx₁, hget, h₁⟩ := Fallible.bind_eq_some.mp h
  cases hget
  obtain ⟨_, ctx₂, hadd, h₂⟩ := Fallible.bind_eq_some.mp h₁
  rw [Fallible.ignore_run] at hadd
  cases hadd
  cases h₂
  have hadd := consistent_addSymbol ctx name address false false (some ctx.currentSection) hc
  refine (recordDeclaration_emits _ name inst).table.keeps.known hadd name ?_
  rw [addSymbol_view ctx name address false false _ hc]
  cases hv : ctx.view name with
  | none =>
      rw [if_pos ⟨rfl, rfl, by omega⟩]
      rfl
  | some v =>
      rw [if_neg fun hn => by cases hn.2.1]
      rfl

theorem recordStep_cases {dataAddress dataAddress' : Word} {inst : ParsedInstruction}
    {ctx ctx' : AssemblerContext}
    (h : recordStep dataAddress inst ctx = (some dataAddress', ctx')) :
    (inst.type = .sectionDir ∧ ctx' = applySectionDirective ctx inst) ∨
    (inst.type ≠ .sectionDir ∧ ∃ address ctx₁, recordLabel inst address ctx = (some (), ctx₁) ∧
      ∃ counter, ctx' = { ctx₁ with currentAddress := counter }) := by
  obtain ⟨c, ctx₀, hget, h₀⟩ := Fallible.bind_eq_some.mp h
  cases hget
  split at h₀
  · rename_i ht
    obtain ⟨_, ctx₁, hmod, h₁⟩ := Fallible.bind_eq_some.mp h₀
    cases hmod
    obtain ⟨-, rfl⟩ := Fallible.pure_eq_some.mp h₁
    exact .inl ⟨ht, rfl⟩
  · rename_i ht
    obtain ⟨_, ctx₁, hrec, h₁⟩ := Fallible.bind_eq_some.mp h₀
    refine .inr ⟨ht, _, ctx₁, hrec, ?_⟩
    split at h₁
    · exact absurd h₁ reportError_ne_some
    · cases hs : ctx.currentSection with
      | text =>
          rw [hs] at h₁
          obtain ⟨_, ctx₂, hmod, h₂⟩ := Fallible.bind_eq_some.mp h₁
          cases hmod
          obtain ⟨-, rfl⟩ := Fallible.pure_eq_some.mp h₂
          exact ⟨_, rfl⟩
      | data =>
          rw [hs] at h₁
          obtain ⟨-, rfl⟩ := Fallible.pure_eq_some.mp h₁
          exact ⟨_, rfl⟩

theorem recordStep_keeps {dataAddress dataAddress' : Word} {inst : ParsedInstruction}
    {ctx ctx' : AssemblerContext}
    (h : recordStep dataAddress inst ctx = (some dataAddress', ctx')) : LayoutKeeps ctx ctx' := by
  rcases recordStep_cases h with ⟨-, rfl⟩ | ⟨-, address, ctx₁, hrec, counter, rfl⟩
  · exact ⟨.of_eq rfl rfl, rfl⟩
  · exact (recordLabel_emits hrec).layoutKeeps.trans ⟨.of_eq rfl rfl, rfl⟩

theorem recordLabels_keeps {dataAddress : Word} {insts : List ParsedInstruction}
    {ctx ctx' : AssemblerContext} (h : recordLabels dataAddress insts ctx = (some (), ctx')) :
    LayoutKeeps ctx ctx' := by
  induction insts generalizing dataAddress ctx with
  | nil =>
      obtain ⟨-, rfl⟩ := Fallible.pure_eq_some.mp h
      exact .refl ctx
  | cons inst insts ih =>
      obtain ⟨_, ctx₁, hstep, hrest⟩ := Fallible.bind_eq_some.mp h
      exact (recordStep_keeps hstep).trans (ih hrest)

theorem recordLabels_known {dataAddress : Word} {insts : List ParsedInstruction}
    {ctx ctx' : AssemblerContext} (hc : Consistent ctx)
    (h : recordLabels dataAddress insts ctx = (some (), ctx'))
    (hroom : ctx'.symbols.length < maxSymbols) {inst : ParsedInstruction} (hmem : inst ∈ insts)
    (ht : inst.type ≠ .sectionDir) {name : Label} (hl : inst.label = some name) :
    (ctx'.view name).isSome := by
  induction insts generalizing dataAddress ctx with
  | nil => cases hmem
  | cons first insts ih =>
      obtain ⟨_, ctx₁, hstep, hrest⟩ := Fallible.bind_eq_some.mp h
      have hc₁ := (recordStep_keeps hstep).table.consistent hc
      rcases List.mem_cons.mp hmem with rfl | hmem
      · have hkeeps := (recordLabels_keeps hrest).table
        refine hkeeps.known hc₁ name ?_
        rcases recordStep_cases hstep with ⟨hs, -⟩ | ⟨-, address, ctx₂, hrec, counter, rfl⟩
        · exact absurd hs ht
        · exact recordLabel_known hc hrec hl (Nat.lt_of_le_of_lt hkeeps.length_le hroom)
      · exact ih hc₁ hrest hmem

theorem upsertConstantSymbol_spec {name : Label} {value : Word} {ctx ctx' : AssemblerContext}
    (hc : Consistent ctx) (h : upsertConstantSymbol name value ctx = (some (), ctx')) :
    Consistent ctx' ∧ (∀ other, ctx'.view other =
      if name = other then some ⟨value, none, false⟩ else ctx.view other) ∧
    ctx.symbols.length ≤ ctx'.symbols.length ∧ ctx'.settings = ctx.settings := by
  rw [upsertConstantSymbol] at h
  cases hv : ctx.view name with
  | none =>
      rw [hc.lookup_of_view_none hv] at h
      have h : addSymbol name value false false none ctx = (some (), ctx') := h
      have hstate : ctx' = (addSymbol name value false false none ctx).2 := by rw [h]
      have hroom : ctx.symbols.length < maxSymbols := by
        by_contra hfull
        obtain ⟨d, hd⟩ := addSymbol_full ctx name value false false none (Nat.not_lt.mp hfull)
        rw [hd] at h
        cases h
      have he := addSymbol_emits name value false false none ctx
      rw [← hstate] at he
      refine ⟨he.table.consistent hc, fun other => ?_, he.table.length_le, he.settings⟩
      rw [hstate, addSymbol_view ctx name value false false none hc]
      simp [hv, hroom]
  | some v =>
      obtain ⟨entry, hentry, -, -⟩ := hc.lookup_of_view hv
      obtain ⟨sym, hsym, -⟩ := Option.map_eq_some_iff.mp hv
      rw [hentry] at h
      simp only at h
      split at h
      · cases h
      · have hfind : findSymbolEntry (symbolHashUpdate ctx name value entry.isGlobal false none)
            name = some sym := hsym
        rw [hfind] at h
        cases h
        have hsome : (ctx.view name).isSome := by
          rw [hv]
          rfl
        refine ⟨?_, fun other => ?_, Nat.le_of_eq (modifyFirst_length _ _ _).symm, rfl⟩
        · exact consistent_setSymbol hc (fun _ => rfl) (fun _ _ => rfl) hsome
        · rw [AssemblerContext.view, findSymbolEntry_updateFirst, hfind]
          · split <;> rfl
          · exact fun _ => rfl

theorem upsertConstantSymbol_keeps {name : Label} {value : Word} {ctx ctx' : AssemblerContext}
    (hc : Consistent ctx) (h : upsertConstantSymbol name value ctx = (some (), ctx')) :
    LayoutKeeps ctx ctx' := by
  obtain ⟨hc', hview, hlen, hset⟩ := upsertConstantSymbol_spec hc h
  refine ⟨⟨fun _ => hc', fun _ other hn => ?_, hlen⟩, hset⟩
  rw [hview]
  split
  · rfl
  · exact hn

/-- An `equ` statement with a name and an expression. -/
structure IsEqu (inst : ParsedInstruction) (name : Label) (op : Operand) : Prop where
  type : inst.type = .equ
  label : inst.label = some name
  operand : inst.operands.head? = some op

theorem resolveEqu_cases {inst : ParsedInstruction} {ctx ctx' : AssemblerContext}
    (h : resolveEqu inst ctx = (some (), ctx')) :
    ((∀ name op, ¬ IsEqu inst name op) ∧ ctx' = ctx) ∨
    ∃ name op value, IsEqu inst name op ∧ equValue ctx inst op = .ok value ∧
      upsertConstantSymbol name value ctx = (some (), ctx') := by
  rw [resolveEqu] at h
  by_cases ht : inst.type = .equ
  · rw [if_pos ht] at h
    cases hl : inst.label with
    | none =>
        rw [hl] at h
        obtain ⟨-, rfl⟩ := Fallible.pure_eq_some.mp h
        exact .inl ⟨fun name op hequ => by have := hequ.label; simp [hl] at this, rfl⟩
    | some name =>
        cases hops : inst.operands with
        | nil =>
            rw [hl, hops] at h
            obtain ⟨-, rfl⟩ := Fallible.pure_eq_some.mp h
            exact .inl ⟨fun name op hequ => by have := hequ.operand; simp [hops] at this, rfl⟩
        | cons op rest =>
            rw [hl, hops] at h
            obtain ⟨c, ctx₀, hget, h⟩ := Fallible.bind_eq_some.mp h
            cases hget
            refine .inr ⟨name, op, ?_⟩
            cases hvalue : equValue ctx inst op with
            | ok value =>
                rw [hvalue] at h
                exact ⟨value, ⟨ht, hl, by rw [hops]; rfl⟩, rfl, h⟩
            | error d =>
                rw [hvalue] at h
                exact absurd h reportError_ne_some
  · rw [if_neg ht] at h
    obtain ⟨-, rfl⟩ := Fallible.pure_eq_some.mp h
    exact .inl ⟨fun name op hequ => ht hequ.type, rfl⟩

theorem resolveEqu_keeps {inst : ParsedInstruction} {ctx ctx' : AssemblerContext}
    (hc : Consistent ctx) (h : resolveEqu inst ctx = (some (), ctx')) : LayoutKeeps ctx ctx' := by
  rcases resolveEqu_cases h with ⟨-, rfl⟩ | ⟨name, op, value, -, -, hup⟩
  · exact .refl ctx'
  · exact upsertConstantSymbol_keeps hc hup

theorem resolveEqus_keep {insts : List ParsedInstruction} {ctx ctx' : AssemblerContext}
    (hc : Consistent ctx) (h : resolveEquSymbolValues insts ctx = (some (), ctx')) :
    LayoutKeeps ctx ctx' := by
  rw [resolveEquSymbolValues] at h
  induction insts generalizing ctx with
  | nil =>
      obtain ⟨-, rfl⟩ := Fallible.pure_eq_some.mp h
      exact .refl ctx
  | cons inst insts ih =>
      obtain ⟨_, ctx₁, hone, hrest⟩ := Fallible.bind_eq_some.mp h
      have hkeeps := resolveEqu_keeps hc hone
      exact hkeeps.trans (ih (hkeeps.table.consistent hc) hrest)

theorem relaxLabel_unlabelled {st : RelaxState} {inst : ParsedInstruction}
    (h : inst.label = none) : relaxLabel st inst = st := by
  rw [relaxLabel, h]

theorem relaxLabel_unknown {st : RelaxState} {inst : ParsedInstruction} {name : Label}
    (hl : inst.label = some name) (hs : findSymbolEntry st.ctx name = none) :
    relaxLabel st inst = st := by
  rw [relaxLabel, hl]
  simp only
  rw [hs]

theorem relaxLabel_known {st : RelaxState} {inst : ParsedInstruction} {name : Label}
    {sym : Symbol} (hl : inst.label = some name)
    (hs : findSymbolEntry st.ctx name = some sym) :
    relaxLabel st inst = if sym.address = st.address then st else
      { st with
        ctx := setSymbol st.ctx name (Symbol.setAddress st.address) st.address sym.isGlobal
          sym.isExternal sym.sect
        changed := true } := by
  rw [relaxLabel, hl]
  simp only
  rw [hs]
  rfl

theorem relaxLabel_frame (st : RelaxState) (inst : ParsedInstruction) :
    (relaxLabel st inst).ctx.settings = st.ctx.settings ∧
      (relaxLabel st inst).ctx.output = st.ctx.output := by
  cases hl : inst.label with
  | none =>
      rw [relaxLabel_unlabelled hl]
      exact ⟨rfl, rfl⟩
  | some label =>
      cases hs : findSymbolEntry st.ctx label with
      | none =>
          rw [relaxLabel_unknown hl hs]
          exact ⟨rfl, rfl⟩
      | some sym =>
          rw [relaxLabel_known hl hs]
          split <;> exact ⟨rfl, rfl⟩

theorem relaxLabel_spec (st : RelaxState) (inst : ParsedInstruction) (hc : Consistent st.ctx) :
    Consistent (relaxLabel st inst).ctx ∧ (∀ name, (relaxLabel st inst).ctx.view name =
      if inst.label = some name then
        (st.ctx.view name).map fun v => { v with address := st.address }
      else st.ctx.view name) ∧
    st.ctx.symbols.length ≤ (relaxLabel st inst).ctx.symbols.length ∧
    (relaxLabel st inst).ctx.settings = st.ctx.settings := by
  cases hl : inst.label with
  | none =>
      rw [relaxLabel_unlabelled hl]
      exact ⟨hc, fun name => by rw [if_neg (by simp)], Nat.le_refl _, rfl⟩
  | some label =>
      cases hs : findSymbolEntry st.ctx label with
      | none =>
          rw [relaxLabel_unknown hl hs]
          refine ⟨hc, fun name => ?_, Nat.le_refl _, rfl⟩
          split
          · rename_i heq
            cases heq
            rw [AssemblerContext.view, hs]
            rfl
          · rfl
      | some sym =>
          have hv : st.ctx.view label = some sym.view := by
            rw [AssemblerContext.view, hs]
            rfl
          rw [relaxLabel_known hl hs]
          split
          · rename_i haddr
            refine ⟨hc, fun name => ?_, Nat.le_refl _, rfl⟩
            split
            · rename_i heq
              cases heq
              rw [hv, ← haddr]
              rfl
            · rfl
          · have hsome : (st.ctx.view label).isSome := by
              rw [hv]
              rfl
            refine ⟨?_, fun name => ?_, Nat.le_of_eq (modifyFirst_length _ _ _).symm, rfl⟩
            · refine consistent_setSymbol hc (fun _ => rfl) (fun sym' hsym' => ?_) hsome
              rw [hs] at hsym'
              cases hsym'
              rfl
            · show (setSymbol st.ctx label (Symbol.setAddress st.address) _ _ _ _).view name = _
              rw [setSymbol_view (f := Symbol.setAddress st.address) fun _ => rfl, hs]
              by_cases heq : label = name
              · subst heq
                rw [if_pos rfl, if_pos rfl, hv]
                rfl
              · rw [if_neg heq, if_neg fun hsome => heq (Option.some.inj hsome)]

theorem relaxStep_keeps (st : RelaxState) (inst : ParsedInstruction) (hc : Consistent st.ctx) :
    LayoutKeeps st.ctx (relaxStep st inst).ctx := by
  rw [relaxStep]
  split
  · exact .refl _
  split
  · exact .refl _
  · obtain ⟨hc', hview, hlen, hset⟩ := relaxLabel_spec st inst hc
    refine ⟨⟨fun _ => hc', fun _ name hn => ?_, hlen⟩, hset⟩
    show ((relaxLabel st inst).ctx.view name).isSome
    rw [hview]
    split
    · rwa [Option.isSome_map]
    · exact hn

theorem relaxSteps_keep (insts : List ParsedInstruction) (st : RelaxState)
    (hc : Consistent st.ctx) : LayoutKeeps st.ctx (insts.foldl relaxStep st).ctx := by
  induction insts generalizing st with
  | nil => exact .refl _
  | cons inst insts ih =>
      have hkeeps := relaxStep_keeps st inst hc
      exact hkeeps.trans (ih (relaxStep st inst) (hkeeps.table.consistent hc))

theorem relaxIterations_keep (n : Nat) (ctx : AssemblerContext) (insts : List ParsedInstruction)
    (hc : Consistent ctx) : LayoutKeeps ctx (relaxIterations n ctx insts) := by
  induction n generalizing ctx with
  | zero => exact .refl ctx
  | succ n ih =>
      have hkeeps : LayoutKeeps ctx (relaxIteration ctx insts).ctx :=
        relaxSteps_keep insts { ctx, address := ctx.baseAddress } hc
      show LayoutKeeps ctx (if (relaxIteration ctx insts).changed then
        relaxIterations n (relaxIteration ctx insts).ctx insts else (relaxIteration ctx insts).ctx)
      split
      · exact hkeeps.trans (ih _ (hkeeps.table.consistent hc))
      · exact hkeeps

theorem layoutProgram_eq_some {insts : List ParsedInstruction} {ctx ctx' : AssemblerContext}
    (h : layoutProgram insts ctx = (some (), ctx')) :
    ∃ recorded resolved,
      recordLabels ((resetForPassOne ctx).baseAddress + textSizeEstimate insts) insts
        (resetForPassOne ctx) = (some (), recorded) ∧
      resolveEquSymbolValues insts recorded = (some (), resolved) ∧
      resolveEquSymbolValues insts (recomputeTextLayoutRelaxed resolved insts) =
        (some (), ctx') := by
  obtain ⟨_, ctx₁, hreset, h₁⟩ := Fallible.bind_eq_some.mp h
  cases hreset
  obtain ⟨c, ctx₂, hget, h₂⟩ := Fallible.bind_eq_some.mp h₁
  cases hget
  obtain ⟨_, recorded, hrec, h₃⟩ := Fallible.bind_eq_some.mp h₂
  obtain ⟨_, resolved, hres, h₄⟩ := Fallible.bind_eq_some.mp h₃
  obtain ⟨_, ctx₃, hrelax, h₅⟩ := Fallible.bind_eq_some.mp h₄
  cases hrelax
  exact ⟨recorded, resolved, hrec, hres, h₅⟩

theorem upsertConstantSymbol_settings (name : Label) (value : Word) (ctx : AssemblerContext) :
    (upsertConstantSymbol name value ctx).2.settings = ctx.settings := by
  have hadd : ∀ ctx : AssemblerContext,
      (addSymbol name value false false none ctx).2.settings = ctx.settings :=
    fun ctx => (addSymbol_emits name value false false none ctx).settings
  rw [upsertConstantSymbol]
  split
  · split
    · rfl
    · simp only
      split
      · rfl
      · rw [hadd]
        rfl
  · exact hadd ctx

theorem resolveEqus_settings {insts : List ParsedInstruction} {ctx ctx' : AssemblerContext}
    (h : resolveEquSymbolValues insts ctx = (some (), ctx')) : ctx'.settings = ctx.settings := by
  rw [resolveEquSymbolValues] at h
  induction insts generalizing ctx with
  | nil =>
      obtain ⟨-, rfl⟩ := Fallible.pure_eq_some.mp h
      rfl
  | cons inst insts ih =>
      obtain ⟨_, ctx₁, hone, hrest⟩ := Fallible.bind_eq_some.mp h
      rw [ih hrest]
      rcases resolveEqu_cases hone with ⟨-, rfl⟩ | ⟨name, op, value, -, -, hup⟩
      · rfl
      · have hset := upsertConstantSymbol_settings name value ctx
        rwa [hup] at hset

theorem relaxIterations_frame {γ : Type} {f : AssemblerContext → γ}
    (hf : ∀ st inst, f (relaxLabel st inst).ctx = f st.ctx) (n : Nat) (ctx : AssemblerContext)
    (insts : List ParsedInstruction) : f (relaxIterations n ctx insts) = f ctx := by
  have hstep : ∀ (st : RelaxState) (inst : ParsedInstruction),
      f (relaxStep st inst).ctx = f st.ctx := by
    intro st inst
    rw [relaxStep]
    split
    · rfl
    split
    · rfl
    · exact hf st inst
  have hsteps : ∀ (insts : List ParsedInstruction) (st : RelaxState),
      f (insts.foldl relaxStep st).ctx = f st.ctx := by
    intro insts
    induction insts with
    | nil => exact fun _ => rfl
    | cons inst insts ih => exact fun st => (ih (relaxStep st inst)).trans (hstep st inst)
  induction n generalizing ctx with
  | zero => rfl
  | succ n ih =>
      have hone : f (relaxIteration ctx insts).ctx = f ctx := hsteps insts _
      show f (if (relaxIteration ctx insts).changed then
        relaxIterations n (relaxIteration ctx insts).ctx insts
          else (relaxIteration ctx insts).ctx) = f ctx
      split
      · rw [ih, hone]
      · exact hone

theorem layoutProgram_settings {insts : List ParsedInstruction} {ctx ctx' : AssemblerContext}
    (h : layoutProgram insts ctx = (some (), ctx')) : ctx'.settings = ctx.settings := by
  obtain ⟨recorded, resolved, hrec, hres, hrelax⟩ := layoutProgram_eq_some h
  have hframe := relaxIterations_frame (fun st inst => (relaxLabel_frame st inst).1) 8 resolved insts
  rw [resolveEqus_settings hrelax, recomputeTextLayoutRelaxed, hframe,
    resolveEqus_settings hres, (recordLabels_keeps hrec).settings]
  rfl

theorem layoutProgram_keeps {insts : List ParsedInstruction} {ctx ctx' : AssemblerContext}
    (hc : Consistent ctx) (h : layoutProgram insts ctx = (some (), ctx')) :
    LayoutKeeps ctx ctx' := by
  obtain ⟨recorded, resolved, hrec, hres, hrelax⟩ := layoutProgram_eq_some h
  have hreset : LayoutKeeps ctx (resetForPassOne ctx) := ⟨.of_eq rfl rfl, rfl⟩
  have h₁ := hreset.trans (recordLabels_keeps hrec)
  have h₂ := h₁.trans (resolveEqus_keep (h₁.table.consistent hc) hres)
  have h₃ := h₂.trans (relaxIterations_keep 8 resolved insts (h₂.table.consistent hc))
  exact h₃.trans (resolveEqus_keep (h₃.table.consistent hc) hrelax)

theorem layoutProgram_known {insts : List ParsedInstruction} {ctx ctx' : AssemblerContext}
    (hc : Consistent ctx) (h : layoutProgram insts ctx = (some (), ctx'))
    (hroom : ctx'.symbols.length < maxSymbols) {inst : ParsedInstruction} (hmem : inst ∈ insts)
    (ht : inst.type ≠ .sectionDir) {name : Label} (hl : inst.label = some name) :
    (ctx'.view name).isSome := by
  obtain ⟨recorded, resolved, hrec, hres, hrelax⟩ := layoutProgram_eq_some h
  have hstart : Consistent (resetForPassOne ctx) := hc.congr rfl rfl
  have hc₁ := (recordLabels_keeps hrec).table.consistent hstart
  have h₂ := resolveEqus_keep hc₁ hres
  have h₃ := h₂.trans (relaxIterations_keep 8 resolved insts (h₂.table.consistent hc₁))
  have h₄ := h₃.trans (resolveEqus_keep (h₃.table.consistent hc₁) hrelax)
  have hlen := h₄.table.length_le
  exact h₄.table.known hc₁ name
    (recordLabels_known hstart hrec (by omega) hmem ht hl)

end X86Assembler
