import X86Assembler.SymbolTable

namespace X86Assembler

open Fallible (ignore)

structure SymbolView where
  address : Word
  sect : Option SectionId
  isExternal : Bool
deriving DecidableEq

def Symbol.view (sym : Symbol) : SymbolView := ⟨sym.address, sym.sect, sym.isExternal⟩

def HashEntry.view (entry : HashEntry) : SymbolView :=
  ⟨entry.address, entry.sect, entry.isExternal⟩

/-- The symbol table as a partial function, read off the array. -/
def AssemblerContext.view (ctx : AssemblerContext) (name : Label) : Option SymbolView :=
  (findSymbolEntry ctx name).map Symbol.view

/-- The array holds a name once and the hash table says the same as the array. -/
structure Consistent (ctx : AssemblerContext) : Prop where
  nodup : (ctx.symbols.map Symbol.name).Nodup
  agree : ∀ name, (symbolHashLookup ctx name).map HashEntry.view = ctx.view name
  resolved : ∀ name entry, symbolHashLookup ctx name = some entry → entry.isResolved = true

theorem view_congr {ctx ctx' : AssemblerContext} (h : ctx'.symbols = ctx.symbols) (name : Label) :
    ctx'.view name = ctx.view name := by
  rw [AssemblerContext.view, AssemblerContext.view, findSymbolEntry, findSymbolEntry, h]

theorem Consistent.congr {ctx ctx' : AssemblerContext} (h : Consistent ctx)
    (hs : ctx'.symbols = ctx.symbols) (hh : ctx'.symbolHash = ctx.symbolHash) :
    Consistent ctx' where
  nodup := by
    rw [hs]
    exact h.nodup
  agree := fun name => by
    rw [view_congr hs, symbolHashLookup, hh]
    exact h.agree name
  resolved := fun name entry he => by
    rw [symbolHashLookup, hh] at he
    exact h.resolved name entry he

theorem consistent_empty {ctx : AssemblerContext} (hs : ctx.symbols = [])
    (hh : ctx.symbolHash = fun _ => []) : Consistent ctx where
  nodup := by
    rw [hs]
    exact List.nodup_nil
  agree := fun name => by
    rw [symbolHashLookup, hh, AssemblerContext.view, findSymbolEntry, hs]
    rfl
  resolved := fun name entry he => by
    rw [symbolHashLookup, hh] at he
    cases he

section Lookup

variable {ctx : AssemblerContext}

theorem Consistent.lookup_of_view (h : Consistent ctx) {name : Label} {v : SymbolView}
    (hv : ctx.view name = some v) :
    ∃ entry, symbolHashLookup ctx name = some entry ∧ entry.view = v ∧
      entry.isResolved = true := by
  rw [← h.agree] at hv
  obtain ⟨entry, he, hview⟩ := Option.map_eq_some_iff.mp hv
  exact ⟨entry, he, hview, h.resolved name entry he⟩

theorem Consistent.lookup_of_view_none (h : Consistent ctx) {name : Label}
    (hv : ctx.view name = none) : symbolHashLookup ctx name = none := by
  rw [← h.agree] at hv
  exact Option.map_eq_none_iff.mp hv

theorem Consistent.findSymbolAddress (h : Consistent ctx) (name : Label) :
    findSymbolAddress ctx name = (ctx.view name).map SymbolView.address := by
  rw [X86Assembler.findSymbolAddress]
  cases hv : ctx.view name with
  | none => rw [h.lookup_of_view_none hv]; rfl
  | some v =>
      obtain ⟨entry, he, rfl, hr⟩ := h.lookup_of_view hv
      rw [he]
      simp only [hr, if_true]
      rfl

theorem view_of_mem (h : Consistent ctx) {sym : Symbol} (hsym : sym ∈ ctx.symbols) :
    ctx.view sym.name = some sym.view := by
  have hfind : ∀ l : List Symbol, (l.map Symbol.name).Nodup → sym ∈ l →
      l.find? (fun s => s.name == sym.name) = some sym := by
    intro l hl hmem
    induction l with
    | nil => cases hmem
    | cons s l ih =>
        rw [List.map_cons, List.nodup_cons] at hl
        rcases List.mem_cons.mp hmem with rfl | hmem
        · simp
        · have hne : s.name ≠ sym.name := fun heq => hl.1 (heq ▸ List.mem_map_of_mem hmem)
          rw [List.find?_cons_of_neg (by simpa using hne)]
          exact ih hl.2 hmem
  rw [AssemblerContext.view, findSymbolEntry, hfind _ h.nodup hsym]
  rfl

theorem mem_of_view {name : Label} {v : SymbolView} (hv : ctx.view name = some v) :
    ∃ sym ∈ ctx.symbols, sym.name = name ∧ sym.view = v := by
  obtain ⟨sym, hfind, hview⟩ := Option.map_eq_some_iff.mp hv
  exact ⟨sym, List.mem_of_find?_eq_some hfind, by simpa using List.find?_some hfind, hview⟩

end Lookup

section Update

variable (ctx : AssemblerContext) (name : Label) (f : Symbol → Symbol)

theorem names_modifyFirst (hf : ∀ sym, (f sym).name = sym.name) (p : Symbol → Bool)
    (l : List Symbol) :
    (HashChain.modifyFirst p f l).map Symbol.name = l.map Symbol.name := by
  induction l with
  | nil => rfl
  | cons sym l ih =>
      rw [HashChain.modifyFirst]
      split
      · rw [List.map_cons, List.map_cons, hf]
      · rw [List.map_cons, List.map_cons, ih]

theorem names_updateSymbols (hf : ∀ sym, (f sym).name = sym.name) :
    (updateSymbols ctx name f).symbols.map Symbol.name = ctx.symbols.map Symbol.name := by
  rw [updateSymbols, List.map_map]
  refine List.map_congr_left fun sym _ => ?_
  simp only [Function.comp_apply]
  split
  · exact hf sym
  · rfl

theorem findSymbolEntry_updateFirst (hf : ∀ sym, (f sym).name = sym.name) (other : Label) :
    findSymbolEntry (updateFirstSymbol ctx name f) other =
      if name = other then (findSymbolEntry ctx name).map f else findSymbolEntry ctx other :=
  HashChain.find?_modifyFirst_key f hf name other ctx.symbols

theorem findSymbolEntry_updateSymbols (hf : ∀ sym, (f sym).name = sym.name) (other : Label) :
    findSymbolEntry (updateSymbols ctx name f) other =
      if name = other then (findSymbolEntry ctx name).map f else findSymbolEntry ctx other := by
  simp only [findSymbolEntry, updateSymbols]
  induction ctx.symbols with
  | nil => simp
  | cons sym l ih =>
      rw [List.map_cons]
      by_cases hn : sym.name = name
      · subst hn
        by_cases ho : sym.name = other
        · simp [hf, ho]
        · simp only [if_true, ho, if_false] at ih ⊢
          rw [List.find?_cons_of_neg (by simpa [hf] using ho), ih,
            List.find?_cons_of_neg (by simpa using ho)]
      · rw [if_neg hn]
        by_cases ho : sym.name = other
        · subst ho
          simp [Ne.symm hn]
        · rw [List.find?_cons_of_neg (by simpa using ho), ih,
            List.find?_cons_of_neg (by simpa using hn), List.find?_cons_of_neg (by simpa using ho)]

theorem view_updateFirst (hf : ∀ sym, (f sym).name = sym.name)
    (hv : ∀ sym, (f sym).view = sym.view) (other : Label) :
    (updateFirstSymbol ctx name f).view other = ctx.view other := by
  rw [AssemblerContext.view, findSymbolEntry_updateFirst ctx name f hf]
  split
  · rename_i h
    subst h
    rw [Option.map_map]
    exact congrArg (fun g => Option.map g _) (funext hv)
  · rfl

theorem view_updateSymbols (hf : ∀ sym, (f sym).name = sym.name)
    (hv : ∀ sym, (f sym).view = sym.view) (other : Label) :
    (updateSymbols ctx name f).view other = ctx.view other := by
  rw [AssemblerContext.view, findSymbolEntry_updateSymbols ctx name f hf]
  split
  · rename_i h
    subst h
    rw [Option.map_map]
    exact congrArg (fun g => Option.map g _) (funext hv)
  · rfl

variable {ctx}

theorem consistent_updateFirst (h : Consistent ctx) (hf : ∀ sym, (f sym).name = sym.name)
    (hv : ∀ sym, (f sym).view = sym.view) : Consistent (updateFirstSymbol ctx name f) where
  nodup := by
    rw [show (updateFirstSymbol ctx name f).symbols = HashChain.modifyFirst _ f ctx.symbols from rfl,
      names_modifyFirst f hf]
    exact h.nodup
  agree := fun other => by
    rw [view_updateFirst ctx name f hf hv]
    exact h.agree other
  resolved := h.resolved

theorem consistent_updateSymbols (h : Consistent ctx) (hf : ∀ sym, (f sym).name = sym.name)
    (hv : ∀ sym, (f sym).view = sym.view) : Consistent (updateSymbols ctx name f) where
  nodup := by
    rw [names_updateSymbols ctx name f hf]
    exact h.nodup
  agree := fun other => by
    rw [view_updateSymbols ctx name f hf hv]
    exact h.agree other
  resolved := h.resolved

end Update

theorem lookup_symbolHashUpdate (ctx : AssemblerContext) (name : Label) (address : Word)
    (isGlobal isExternal : Bool) (sect : Option SectionId) (other : Label) :
    symbolHashLookup (symbolHashUpdate ctx name address isGlobal isExternal sect) other =
      if name = other then (symbolHashLookup ctx name).map fun entry =>
        { entry with address, isResolved := true, isGlobal, isExternal, sect }
      else symbolHashLookup ctx other :=
  HashChain.lookup_modify ctx.symbolHash name other _ fun _ => rfl

theorem consistent_of_set {ctx ctx' : AssemblerContext} (h : Consistent ctx) (name : Label)
    (v : SymbolView) (entry : HashEntry) (hnodup : (ctx'.symbols.map Symbol.name).Nodup)
    (hview : ∀ other, ctx'.view other = if name = other then some v else ctx.view other)
    (hentry : entry.view = v) (hresolved : entry.isResolved = true)
    (hlookup : ∀ other, symbolHashLookup ctx' other =
      if name = other then some entry else symbolHashLookup ctx other) : Consistent ctx' where
  nodup := hnodup
  agree := fun other => by
    rw [hview, hlookup]
    split
    · rw [Option.map_some, hentry]
    · exact h.agree other
  resolved := fun other e he => by
    rw [hlookup] at he
    split at he
    · cases he
      exact hresolved
    · exact h.resolved other e he

section AddSymbol

variable (ctx : AssemblerContext) (name : Label) (address : Word) (isGlobal isExternal : Bool)
  (sect : Option SectionId)

theorem addSymbol_full (h : maxSymbols ≤ ctx.symbols.length) :
    ∃ d, addSymbol name address isGlobal isExternal sect ctx = (none, ctx.report d) :=
  ⟨_, if_pos h⟩

theorem addSymbol_known (h : Consistent ctx) {v : SymbolView} (hv : ctx.view name = some v) :
    ∃ d, addSymbol name address isGlobal isExternal sect ctx = (none, ctx.report d) := by
  by_cases hfull : maxSymbols ≤ ctx.symbols.length
  · exact addSymbol_full ctx name address isGlobal isExternal sect hfull
  · obtain ⟨entry, he, -, hr⟩ := h.lookup_of_view hv
    refine ⟨{ line := 1, category := "Symbol", message := "Redefined symbol '%s'",
              args := [name.bytes] }, ?_⟩
    rw [addSymbol, if_neg hfull, he]
    simp only [hr, if_true]

theorem addSymbol_new (h : Consistent ctx) (hv : ctx.view name = none)
    (hroom : ctx.symbols.length < maxSymbols) :
    addSymbol name address isGlobal isExternal sect ctx =
      (some (), symbolHashInsert { ctx with
        symbols := ctx.symbols ++ [{ name, address, isGlobal, isExternal, sect }] }
        name address isGlobal isExternal sect) := by
  rw [addSymbol, if_neg (Nat.not_le.mpr hroom), h.lookup_of_view_none hv]

theorem notMem_of_view_none {name : Label} (hv : ctx.view name = none) :
    name ∉ ctx.symbols.map Symbol.name := by
  intro hmem
  obtain ⟨sym, hsym, rfl⟩ := List.mem_map.mp hmem
  have hnone := List.find?_eq_none.mp (Option.map_eq_none_iff.mp hv) sym hsym
  simp at hnone

theorem addSymbol_view (h : Consistent ctx) (other : Label) :
    (addSymbol name address isGlobal isExternal sect ctx).2.view other =
      if name = other ∧ ctx.view name = none ∧ ctx.symbols.length < maxSymbols then
        some ⟨address, sect, isExternal⟩
      else ctx.view other := by
  by_cases hfull : maxSymbols ≤ ctx.symbols.length
  · obtain ⟨d, hd⟩ := addSymbol_full ctx name address isGlobal isExternal sect hfull
    rw [hd, if_neg (fun hc => absurd hc.2.2 (Nat.not_lt.mpr hfull))]
    rfl
  · cases hv : ctx.view name with
    | some v =>
        obtain ⟨d, hd⟩ := addSymbol_known ctx name address isGlobal isExternal sect h hv
        rw [hd, if_neg (fun hc => by cases hc.2.1)]
        rfl
    | none =>
        rw [addSymbol_new ctx name address isGlobal isExternal sect h hv (Nat.not_le.mp hfull)]
        have hnone := List.find?_eq_none.mp (Option.map_eq_none_iff.mp hv)
        by_cases hname : name = other
        · subst hname
          rw [if_pos ⟨rfl, rfl, Nat.not_le.mp hfull⟩]
          simp only [AssemblerContext.view, findSymbolEntry, symbolHashInsert,
            List.find?_append, List.find?_eq_none.mpr hnone]
          simp [Symbol.view]
        · rw [if_neg (fun hc => hname hc.1)]
          simp only [AssemblerContext.view, findSymbolEntry, symbolHashInsert,
            List.find?_append]
          simp [hname]

theorem consistent_addSymbol (h : Consistent ctx) :
    Consistent (addSymbol name address isGlobal isExternal sect ctx).2 := by
  by_cases hfull : maxSymbols ≤ ctx.symbols.length
  · obtain ⟨d, hd⟩ := addSymbol_full ctx name address isGlobal isExternal sect hfull
    rw [hd]
    show Consistent (ctx.report d)
    exact h.congr rfl rfl
  · cases hv : ctx.view name with
    | some v =>
        obtain ⟨d, hd⟩ := addSymbol_known ctx name address isGlobal isExternal sect h hv
        rw [hd]
        show Consistent (ctx.report d)
        exact h.congr rfl rfl
    | none =>
        have hview := addSymbol_view ctx name address isGlobal isExternal sect h
        rw [addSymbol_new ctx name address isGlobal isExternal sect h hv
          (Nat.not_le.mp hfull)] at hview ⊢
        refine consistent_of_set h name ⟨address, sect, isExternal⟩
          { name, address, isGlobal, isExternal, sect } ?_ (fun other => ?_) rfl rfl
          (fun other => ?_)
        · show ((ctx.symbols ++ [_]).map Symbol.name).Nodup
          rw [List.map_append, List.nodup_append]
          refine ⟨h.nodup, by simp, fun a ha b hb => ?_⟩
          rw [List.map_singleton, List.mem_singleton] at hb
          subst hb
          exact fun heq => notMem_of_view_none ctx hv (heq ▸ ha)
        · rw [hview]
          simp [hv, Nat.not_le.mp hfull]
        · exact HashChain.lookup_insert ctx.symbolHash _ other

end AddSymbol

section MoveLabel

variable (ctx : AssemblerContext) (name : Label) (address : Word)

def Symbol.setAddress (address : Word) (sym : Symbol) : Symbol := { sym with address }

theorem foldl_hashUpdate (l : List Symbol) (hl : (l.map Symbol.name).Nodup)
    (start : AssemblerContext) :
    l.foldl (fun ctx' sym => if sym.name = name then
        symbolHashUpdate ctx' name address sym.isGlobal sym.isExternal sym.sect else ctx') start =
      match l.find? (fun sym => sym.name == name) with
      | some sym => symbolHashUpdate start name address sym.isGlobal sym.isExternal sym.sect
      | none => start := by
  induction l generalizing start with
  | nil => rfl
  | cons sym l ih =>
      rw [List.map_cons, List.nodup_cons] at hl
      rw [List.foldl_cons, ih hl.2]
      by_cases hn : sym.name = name
      · have hnone : l.find? (fun s => s.name == name) = none := by
          rw [List.find?_eq_none]
          intro s hs heq
          have hsn : s.name = name := by simpa using heq
          exact hl.1 (hn ▸ hsn ▸ List.mem_map_of_mem hs)
        rw [hnone, List.find?_cons_of_pos (by simpa using hn), if_pos hn]
      · rw [List.find?_cons_of_neg (by simpa using hn), if_neg hn]

theorem moveLabel_eq (h : Consistent ctx) :
    moveLabel ctx name address =
      match findSymbolEntry ctx name with
      | some sym => symbolHashUpdate (updateSymbols ctx name (Symbol.setAddress address)) name
          address sym.isGlobal sym.isExternal sym.sect
      | none => updateSymbols ctx name (Symbol.setAddress address) :=
  foldl_hashUpdate name address ctx.symbols h.nodup _

theorem moveLabel_symbols (h : Consistent ctx) :
    (moveLabel ctx name address).symbols =
      (updateSymbols ctx name (Symbol.setAddress address)).symbols := by
  rw [moveLabel_eq ctx name address h]
  split <;> rfl

theorem moveLabel_view (h : Consistent ctx) (other : Label) :
    (moveLabel ctx name address).view other =
      if name = other then (ctx.view name).map fun v => { v with address }
      else ctx.view other := by
  rw [AssemblerContext.view, findSymbolEntry, moveLabel_symbols ctx name address h]
  have hfind := findSymbolEntry_updateSymbols ctx name (Symbol.setAddress address)
    (fun _ => rfl) other
  rw [findSymbolEntry] at hfind
  rw [hfind]
  split
  · rw [AssemblerContext.view, Option.map_map, Option.map_map]
    rfl
  · rfl

theorem consistent_moveLabel (h : Consistent ctx) : Consistent (moveLabel ctx name address) := by
  have hview := moveLabel_view ctx name address h
  have hnames : ((moveLabel ctx name address).symbols.map Symbol.name).Nodup := by
    rw [moveLabel_symbols ctx name address h,
      names_updateSymbols ctx name (Symbol.setAddress address) fun _ => rfl]
    exact h.nodup
  cases hs : findSymbolEntry ctx name with
  | none =>
      have hnone : ctx.view name = none := by rw [AssemblerContext.view, hs]; rfl
      have hmove : moveLabel ctx name address =
          updateSymbols ctx name (Symbol.setAddress address) := by
        rw [moveLabel_eq ctx name address h, hs]
      refine ⟨hnames, fun other => ?_, by rw [hmove]; exact h.resolved⟩
      have hlookup : symbolHashLookup (moveLabel ctx name address) other =
          symbolHashLookup ctx other := by
        rw [hmove]
        rfl
      rw [hview, hlookup]
      split
      · rename_i heq
        subst heq
        rw [hnone]
        exact congrArg _ (h.lookup_of_view_none hnone)
      · exact h.agree other
  | some sym =>
      have hv : ctx.view name = some sym.view := by rw [AssemblerContext.view, hs]; rfl
      obtain ⟨entry, he, hev, -⟩ := h.lookup_of_view hv
      refine consistent_of_set h name { sym.view with address }
        { entry with
          address, isResolved := true, isGlobal := sym.isGlobal, isExternal := sym.isExternal
          sect := sym.sect } hnames (fun other => ?_) rfl rfl (fun other => ?_)
      · rw [hview, hv]
        rfl
      · rw [moveLabel_eq ctx name address h, hs]
        simp only
        rw [lookup_symbolHashUpdate]
        split
        · exact congrArg _ he
        · rfl

end MoveLabel

section SetSymbol

variable {ctx : AssemblerContext} {name : Label} {f : Symbol → Symbol} {address : Word}
  {isGlobal isExternal : Bool} {sect : Option SectionId}

/-- The hash table and the array changed together, as `relax` and `equ` do it. -/
def setSymbol (ctx : AssemblerContext) (name : Label) (f : Symbol → Symbol) (address : Word)
    (isGlobal isExternal : Bool) (sect : Option SectionId) : AssemblerContext :=
  updateFirstSymbol (symbolHashUpdate ctx name address isGlobal isExternal sect) name f

theorem setSymbol_view (hf : ∀ sym, (f sym).name = sym.name) (other : Label) :
    (setSymbol ctx name f address isGlobal isExternal sect).view other =
      if name = other then (findSymbolEntry ctx name).map (Symbol.view ∘ f)
      else ctx.view other := by
  rw [setSymbol, AssemblerContext.view, findSymbolEntry_updateFirst _ name f hf]
  split
  · rw [Option.map_map]
    rfl
  · rfl

theorem consistent_setSymbol (h : Consistent ctx) (hf : ∀ sym, (f sym).name = sym.name)
    (hv : ∀ sym, findSymbolEntry ctx name = some sym →
      (f sym).view = ⟨address, sect, isExternal⟩) (hsome : (ctx.view name).isSome) :
    Consistent (setSymbol ctx name f address isGlobal isExternal sect) := by
  obtain ⟨v, hview⟩ := Option.isSome_iff_exists.mp hsome
  obtain ⟨entry, he, -, -⟩ := h.lookup_of_view hview
  obtain ⟨sym, hsym, -⟩ := Option.map_eq_some_iff.mp hview
  refine consistent_of_set h name ⟨address, sect, isExternal⟩
    { entry with address, isResolved := true, isGlobal, isExternal, sect } ?_ (fun other => ?_)
    rfl rfl (fun other => ?_)
  · rw [show (setSymbol ctx name f address isGlobal isExternal sect).symbols =
      HashChain.modifyFirst _ f ctx.symbols from rfl, names_modifyFirst f hf]
    exact h.nodup
  · rw [setSymbol_view hf, hsym]
    split
    · exact congrArg some (hv sym hsym)
    · rfl
  · show symbolHashLookup (symbolHashUpdate ctx name address isGlobal isExternal sect) other = _
    rw [lookup_symbolHashUpdate, he]
    rfl

end SetSymbol

structure TableKeeps (ctx ctx' : AssemblerContext) : Prop where
  consistent : Consistent ctx → Consistent ctx'
  known : Consistent ctx → ∀ name, (ctx.view name).isSome → (ctx'.view name).isSome
  length_le : ctx.symbols.length ≤ ctx'.symbols.length

theorem TableKeeps.of_eq {ctx ctx' : AssemblerContext} (hs : ctx'.symbols = ctx.symbols)
    (hh : ctx'.symbolHash = ctx.symbolHash) : TableKeeps ctx ctx' where
  consistent := fun h => h.congr hs hh
  known := fun _ name h => by rwa [view_congr hs]
  length_le := by rw [hs]

theorem TableKeeps.trans {a b c : AssemblerContext} (hab : TableKeeps a b)
    (hbc : TableKeeps b c) : TableKeeps a c where
  consistent := fun h => hbc.consistent (hab.consistent h)
  known := fun h name hn => hbc.known (hab.consistent h) name (hab.known h name hn)
  length_le := Nat.le_trans hab.length_le hbc.length_le

end X86Assembler
