import X86Assembler.AssemblyRun

namespace X86Assembler

open Fallible (each ignore)

/-- The chains of the symbol hash hold every name at most once, where it belongs. -/
def ChainsDistinct (ctx : AssemblerContext) : Prop :=
  HashChain.Distinct HashEntry.name hashIndex ctx.symbolHash

/-- The contexts that the writers of the symbol table lead to, whatever their results and
whatever happens to the rest of the context in between. -/
inductive SymbolReach : AssemblerContext → Prop
  | init (files : Text → Option (List CString.Byte)) : SymbolReach (asmInit files)
  | elsewhere {ctx ctx' : AssemblerContext} : SymbolReach ctx → ctx'.symbols = ctx.symbols →
      ctx'.symbolHash = ctx.symbolHash → SymbolReach ctx'
  | addSymbol {ctx : AssemblerContext} (name : Label) (address : Word)
      (isGlobal isExternal : Bool) (sect : Option SectionId) : SymbolReach ctx →
      SymbolReach (addSymbol name address isGlobal isExternal sect ctx).2
  | upsertConstantSymbol {ctx : AssemblerContext} (name : Label) (value : Word) :
      SymbolReach ctx → SymbolReach (upsertConstantSymbol name value ctx).2
  | resolveEquSymbolValues {ctx : AssemblerContext} (insts : List ParsedInstruction) :
      SymbolReach ctx → SymbolReach (resolveEquSymbolValues insts ctx).2
  | recomputeTextLayoutRelaxed {ctx : AssemblerContext} (insts : List ParsedInstruction) :
      SymbolReach ctx → SymbolReach (recomputeTextLayoutRelaxed ctx insts)
  | moveLabel {ctx : AssemblerContext} (name : Label) (address : Word) :
      SymbolReach ctx → SymbolReach (moveLabel ctx name address)

structure SymbolInvariant (ctx : AssemblerContext) : Prop where
  consistent : Consistent ctx
  chains : ChainsDistinct ctx

theorem SymbolInvariant.congr {ctx ctx' : AssemblerContext} (h : SymbolInvariant ctx)
    (hs : ctx'.symbols = ctx.symbols) (hh : ctx'.symbolHash = ctx.symbolHash) :
    SymbolInvariant ctx' := by
  refine ⟨h.consistent.congr hs hh, ?_⟩
  rw [ChainsDistinct, hh]
  exact h.chains

theorem chainsDistinct_hashUpdate {ctx : AssemblerContext} (h : ChainsDistinct ctx) (name : Label)
    (address : Word) (isGlobal isExternal : Bool) (sect : Option SectionId) :
    ChainsDistinct (symbolHashUpdate ctx name address isGlobal isExternal sect) :=
  HashChain.Distinct.modify h name _ fun _ => rfl

theorem symbolInvariant_addSymbol {ctx : AssemblerContext} (h : SymbolInvariant ctx) (name : Label)
    (address : Word) (isGlobal isExternal : Bool) (sect : Option SectionId) :
    SymbolInvariant (addSymbol name address isGlobal isExternal sect ctx).2 := by
  refine ⟨consistent_addSymbol ctx name address isGlobal isExternal sect h.consistent, ?_⟩
  by_cases hfull : maxSymbols ≤ ctx.symbols.length
  · obtain ⟨d, hd⟩ := addSymbol_full ctx name address isGlobal isExternal sect hfull
    rw [hd]
    exact h.chains
  · cases hv : ctx.view name with
    | some v =>
        obtain ⟨d, hd⟩ := addSymbol_known ctx name address isGlobal isExternal sect h.consistent hv
        rw [hd]
        exact h.chains
    | none =>
        rw [addSymbol_new ctx name address isGlobal isExternal sect h.consistent hv
          (Nat.not_le.mp hfull)]
        exact HashChain.Distinct.insert h.chains (h.consistent.lookup_of_view_none hv)

theorem symbolInvariant_upsert {ctx : AssemblerContext} (h : SymbolInvariant ctx) (name : Label)
    (value : Word) : SymbolInvariant (upsertConstantSymbol name value ctx).2 := by
  cases hv : ctx.view name with
  | none =>
      have hlookup := h.consistent.lookup_of_view_none hv
      have hadd : upsertConstantSymbol name value ctx =
          addSymbol name value false false none ctx := by
        rw [upsertConstantSymbol, hlookup]
      rw [hadd]
      exact symbolInvariant_addSymbol h name value false false none
  | some v =>
      obtain ⟨entry, hentry, -, -⟩ := h.consistent.lookup_of_view hv
      obtain ⟨sym, hsym, -⟩ := Option.map_eq_some_iff.mp hv
      cases hext : entry.isExternal with
      | true =>
          have hfail : ∃ d, upsertConstantSymbol name value ctx = (none, ctx.report d) := by
            refine ⟨{
              line := 1, category := "Symbol",
              message := "Cannot redefine external symbol '%s' as equ constant",
              args := [name.bytes] }, ?_⟩
            rw [upsertConstantSymbol, hentry]
            simp only [hext, if_true]
          obtain ⟨d, hd⟩ := hfail
          rw [hd]
          exact h.congr rfl rfl
      | false =>
          have hfind : findSymbolEntry (symbolHashUpdate ctx name value entry.isGlobal false none)
              name = some sym := hsym
          have hset : upsertConstantSymbol name value ctx = (some (), setSymbol ctx name
              (fun sym => { sym with
                address := value, isResolved := true, isExternal := false, sect := none })
              value entry.isGlobal false none) := by
            rw [upsertConstantSymbol, hentry]
            simp only [hext, Bool.false_eq_true, if_false, hfind]
            rfl
          rw [hset]
          refine ⟨?_, chainsDistinct_hashUpdate h.chains name value entry.isGlobal false none⟩
          show Consistent (setSymbol ctx name _ value entry.isGlobal false none)
          apply consistent_setSymbol h.consistent
          · intro _
            rfl
          · intro _ _
            rfl
          · rw [hv]
            rfl

theorem symbolInvariant_defineEqu {ctx : AssemblerContext} (h : SymbolInvariant ctx)
    (inst : ParsedInstruction) (name : Label) (op : Operand) :
    SymbolInvariant (defineEqu inst name op ctx).2 := by
  cases hvalue : equValue ctx inst op with
  | ok value =>
      have hrun : defineEqu inst name op ctx = upsertConstantSymbol name value ctx := by
        rw [defineEqu, Fallible.bind_of_some (Fallible.get_run ctx)]
        simp only [hvalue]
      rw [hrun]
      exact symbolInvariant_upsert h name value
  | error d =>
      have hrun : defineEqu inst name op ctx = reportError d ctx := by
        rw [defineEqu, Fallible.bind_of_some (Fallible.get_run ctx)]
        simp only [hvalue]
      rw [hrun]
      exact h.congr rfl rfl

theorem symbolInvariant_resolveEqu {ctx : AssemblerContext} (h : SymbolInvariant ctx)
    (inst : ParsedInstruction) : SymbolInvariant (resolveEqu inst ctx).2 := by
  by_cases htype : inst.type = .equ
  · cases hl : inst.label with
    | none =>
        simp only [resolveEqu, htype, if_true, hl]
        exact h
    | some name =>
        cases hops : inst.operands with
        | nil =>
            simp only [resolveEqu, htype, if_true, hl, hops]
            exact h
        | cons op rest =>
            simp only [resolveEqu, htype, if_true, hl, hops]
            exact symbolInvariant_defineEqu h inst name op
  · rw [resolveEqu, if_neg htype]
    exact h

theorem symbolInvariant_resolveEqus {ctx : AssemblerContext} (h : SymbolInvariant ctx)
    (insts : List ParsedInstruction) : SymbolInvariant (resolveEquSymbolValues insts ctx).2 := by
  induction insts generalizing ctx with
  | nil => exact h
  | cons inst insts ih =>
      have hone := symbolInvariant_resolveEqu h inst
      show SymbolInvariant ((resolveEqu inst >>= fun _ => resolveEquSymbolValues insts) ctx).2
      cases hrun : resolveEqu inst ctx with
      | mk r ctx₁ =>
          rw [hrun] at hone
          cases r with
          | some _ =>
              rw [Fallible.bind_of_some hrun]
              exact ih hone
          | none =>
              rw [Fallible.bind_of_none hrun]
              exact hone

theorem chainsDistinct_relaxLabel {st : RelaxState} (h : ChainsDistinct st.ctx)
    (inst : ParsedInstruction) : ChainsDistinct (relaxLabel st inst).ctx := by
  cases hl : inst.label with
  | none =>
      rw [relaxLabel_unlabelled hl]
      exact h
  | some name =>
      cases hs : findSymbolEntry st.ctx name with
      | none =>
          rw [relaxLabel_unknown hl hs]
          exact h
      | some sym =>
          rw [relaxLabel_known hl hs]
          split
          · exact h
          · exact chainsDistinct_hashUpdate h name _ _ _ _

theorem symbolInvariant_relaxStep {st : RelaxState} (h : SymbolInvariant st.ctx)
    (inst : ParsedInstruction) : SymbolInvariant (relaxStep st inst).ctx := by
  refine ⟨(relaxStep_keeps st inst h.consistent).table.consistent h.consistent, ?_⟩
  rw [relaxStep]
  split
  · exact h.chains
  split
  · exact h.chains
  · exact chainsDistinct_relaxLabel h.chains inst

theorem symbolInvariant_relax {ctx : AssemblerContext} (n : Nat) (h : SymbolInvariant ctx)
    (insts : List ParsedInstruction) : SymbolInvariant (relaxIterations n ctx insts) := by
  have hpass : ∀ (insts : List ParsedInstruction) (st : RelaxState), SymbolInvariant st.ctx →
      SymbolInvariant (insts.foldl relaxStep st).ctx := by
    intro insts
    induction insts with
    | nil => exact fun _ h => h
    | cons inst insts ih => exact fun st h => ih _ (symbolInvariant_relaxStep h inst)
  induction n generalizing ctx with
  | zero => exact h
  | succ n ih =>
      have hone : SymbolInvariant (relaxIteration ctx insts).ctx :=
        hpass insts { ctx, address := ctx.baseAddress } h
      show SymbolInvariant (if (relaxIteration ctx insts).changed then
        relaxIterations n (relaxIteration ctx insts).ctx insts else (relaxIteration ctx insts).ctx)
      split
      · exact ih hone
      · exact hone

theorem chainsDistinct_moveLabel {ctx : AssemblerContext} (h : ChainsDistinct ctx) (name : Label)
    (address : Word) : ChainsDistinct (moveLabel ctx name address) := by
  have hfold : ∀ (l : List Symbol) (start : AssemblerContext), ChainsDistinct start →
      ChainsDistinct (l.foldl (fun ctx' sym => if sym.name = name then
        symbolHashUpdate ctx' name address sym.isGlobal sym.isExternal sym.sect else ctx') start) := by
    intro l
    induction l with
    | nil => exact fun _ h => h
    | cons sym l ih =>
        intro start h
        rw [List.foldl_cons]
        apply ih
        split
        · exact chainsDistinct_hashUpdate h name _ _ _ _
        · exact h
  exact hfold ctx.symbols _ h

theorem SymbolReach.invariant {ctx : AssemblerContext} (h : SymbolReach ctx) :
    SymbolInvariant ctx := by
  induction h with
  | init files => exact ⟨consistent_empty rfl rfl, HashChain.distinct_empty⟩
  | elsewhere _ hs hh ih => exact ih.congr hs hh
  | addSymbol name address isGlobal isExternal sect _ ih =>
      exact symbolInvariant_addSymbol ih name address isGlobal isExternal sect
  | upsertConstantSymbol name value _ ih => exact symbolInvariant_upsert ih name value
  | resolveEquSymbolValues insts _ ih => exact symbolInvariant_resolveEqus ih insts
  | recomputeTextLayoutRelaxed insts _ ih => exact symbolInvariant_relax 8 ih insts
  | moveLabel name address _ ih =>
      exact ⟨consistent_moveLabel _ name address ih.consistent,
        chainsDistinct_moveLabel ih.chains name address⟩

/-- The array and the hash table hold the same symbols, each once. -/
structure TablesAgree (ctx : AssemblerContext) : Prop where
  found : ∀ name, (symbolHashLookup ctx name).isSome ↔ ∃ sym ∈ ctx.symbols, sym.name = name
  onceInArray : ctx.symbols.Pairwise fun a b => a.name ≠ b.name
  onceInHash : ∀ i j entry entry', entry ∈ ctx.symbolHash i → entry' ∈ ctx.symbolHash j →
    entry.name = entry'.name → i = j ∧ entry = entry'
  same : ∀ name entry, symbolHashLookup ctx name = some entry → ∀ sym ∈ ctx.symbols,
    sym.name = name → sym.address = entry.address ∧ sym.sect = entry.sect ∧
      sym.isExternal = entry.isExternal
  search : ∀ name, findSymbolAddress ctx name = (findSymbolEntry ctx name).map Symbol.address

theorem SymbolInvariant.tablesAgree {ctx : AssemblerContext} (h : SymbolInvariant ctx) :
    TablesAgree ctx where
  found := by
    intro name
    have hiff : (symbolHashLookup ctx name).isSome ↔ (ctx.view name).isSome := by
      rw [← h.consistent.agree, Option.isSome_map]
    rw [hiff]
    constructor
    · intro hsome
      obtain ⟨v, hv⟩ := Option.isSome_iff_exists.mp hsome
      obtain ⟨sym, hsym, hname, -⟩ := mem_of_view hv
      exact ⟨sym, hsym, hname⟩
    · rintro ⟨sym, hsym, rfl⟩
      rw [view_of_mem h.consistent hsym]
      rfl
  onceInArray := List.pairwise_map.mp h.consistent.nodup
  onceInHash := by
    intro i j entry entry' hentry hentry' hname
    have hi := h.chains.placed i entry.name (List.mem_map_of_mem hentry)
    have hj := h.chains.placed j entry'.name (List.mem_map_of_mem hentry')
    have hij : i = j := by rw [← hi, ← hj, hname]
    subst hij
    exact ⟨rfl, List.inj_on_of_nodup_map (h.chains.nodup i) hentry hentry' hname⟩
  same := by
    rintro name entry hentry sym hsym rfl
    have hview := h.consistent.agree sym.name
    rw [hentry, view_of_mem h.consistent hsym] at hview
    have heq : entry.view = sym.view := Option.some.inj hview
    simp only [HashEntry.view, Symbol.view, SymbolView.mk.injEq] at heq
    exact ⟨heq.1.symm, heq.2.1.symm, heq.2.2.symm⟩
  search := by
    intro name
    rw [h.consistent.findSymbolAddress, AssemblerContext.view, Option.map_map]
    rfl

/-- A lookup through the hash equals a search of the array, in every reachable context. -/
theorem symbolTables_agree {ctx : AssemblerContext} (h : SymbolReach ctx) : TablesAgree ctx :=
  h.invariant.tablesAgree

theorem symbolTables_agree_moved :
    TablesAgree (moveLabel (addSymbol (CString.lit _ "a") 5 false false (some .text)
      emptyContext).2 (CString.lit _ "a") 7) :=
  symbolTables_agree (.moveLabel _ _ (.addSymbol _ _ _ _ _ (.init _)))

end X86Assembler
