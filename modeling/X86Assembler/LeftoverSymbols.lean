import Mathlib.Data.List.Dedup
import X86Assembler.Constants
import X86Assembler.Library.TwoRuns
import X86Assembler.SymbolReach

namespace X86Assembler

open Fallible (Alike Matched ignore each)

/-- The symbols of `old` are none of these names. -/
def Unused (old : List Symbol) (names : List Label) : Prop :=
  ∀ name ∈ names, name ∉ old.map Symbol.name

/-- There is room for the symbols of `old` and for these names. -/
def HasRoom (old : List Symbol) (names : List Label) : Prop :=
  old = [] ∨ old.length + names.dedup.length ≤ maxSymbols

/-- The table of one context is that of another behind the symbols of `old`. -/
structure TablesBeside (old : List Symbol) (defined : List Label) (a b : AssemblerContext) : Prop
    where
  symbols : a.symbols = old ++ b.symbols
  lookup : ∀ name, name ∉ old.map Symbol.name → symbolHashLookup a name = symbolHashLookup b name
  known : ∀ sym ∈ b.symbols, sym.name ∈ defined

/-- The section buffers have the size that `asm_init` gives them. -/
def FullSize (ctx : AssemblerContext) : Prop :=
  ctx.textCapacity = BitVec.ofNat 64 maxOutputSize ∧ ctx.dataCapacity = BitVec.ofNat 64 maxOutputSize

/-- Two contexts agree in where they are, and in the section buffers that are seen. -/
structure OutputsBeside (old : List Symbol) (seen : SectionId → Prop) (a b : AssemblerContext) :
    Prop where
  sect : a.currentSection = b.currentSection
  address : a.currentAddress = b.currentAddress
  base : a.baseAddress = b.baseAddress
  files : a.files = b.files
  sizes : FullSize a
  sizes' : FullSize b
  text : seen .text → a.textSection = b.textSection
  data : seen .data → a.dataSection = b.dataSection
  fixups : seen .text → a.fixups = b.fixups
  branches : seen .text → a.enableForwardShortBranches = b.enableForwardShortBranches
  fixupLabels : seen .text → ∀ f ∈ b.fixups, f.label ∉ old.map Symbol.name

/-- A context with leftover symbols beside one without them. -/
structure Beside (old : List Symbol) (defined : List Label) (seen : SectionId → Prop)
    (a b : AssemblerContext) : Prop where
  tables : TablesBeside old defined a b
  invariant : SymbolInvariant b
  outputs : OutputsBeside old seen a b

section Congruence

variable {old : List Symbol} {defined : List Label} {seen : SectionId → Prop}
  {a b a' b' : AssemblerContext}

theorem TablesBeside.congr (h : TablesBeside old defined a b) (ha : a'.symbols = a.symbols)
    (ha' : a'.symbolHash = a.symbolHash) (hb : b'.symbols = b.symbols)
    (hb' : b'.symbolHash = b.symbolHash) : TablesBeside old defined a' b' where
  symbols := by rw [ha, hb, h.symbols]
  lookup := fun name hname => by
    rw [symbolHashLookup, symbolHashLookup, ha', hb']
    exact h.lookup name hname
  known := by
    rw [hb]
    exact h.known

theorem OutputsBeside.congr (h : OutputsBeside old seen a b) (ha : a'.output = a.output)
    (ha' : a'.settings = a.settings) (hb : b'.output = b.output) (hb' : b'.settings = b.settings) :
    OutputsBeside old seen a' b' := by
  simp only [AssemblerContext.output, Output.mk.injEq] at ha hb
  simp only [AssemblerContext.settings, Settings.mk.injEq] at ha' hb'
  obtain ⟨ht, hd, hf, haddr, hs⟩ := ha
  obtain ⟨ht', hd', hf', haddr', hs'⟩ := hb
  obtain ⟨htc, hdc, hbase, hbr, hfiles, -⟩ := ha'
  obtain ⟨htc', hdc', hbase', hbr', hfiles', -⟩ := hb'
  constructor
  · rw [hs, hs', h.sect]
  · rw [haddr, haddr', h.address]
  · rw [hbase, hbase', h.base]
  · rw [hfiles, hfiles', h.files]
  · exact ⟨htc.trans h.sizes.1, hdc.trans h.sizes.2⟩
  · exact ⟨htc'.trans h.sizes'.1, hdc'.trans h.sizes'.2⟩
  · intro hseen
    rw [ht, ht', h.text hseen]
  · intro hseen
    rw [hd, hd', h.data hseen]
  · intro hseen
    rw [hf, hf', h.fixups hseen]
  · intro hseen
    rw [hbr, hbr', h.branches hseen]
  · rw [hf']
    exact h.fixupLabels

end Congruence

section Tables

variable {old : List Symbol} {defined : List Label} {a b : AssemblerContext}
  (h : TablesBeside old defined a b) {name : Label} (hname : name ∉ old.map Symbol.name)

include h hname

theorem TablesBeside.entry : findSymbolEntry a name = findSymbolEntry b name := by
  rw [findSymbolEntry, findSymbolEntry, h.symbols, List.find?_append,
    List.find?_eq_none.mpr fun sym hsym heq => hname ?_, Option.none_or]
  rw [← eq_of_beq heq]
  exact List.mem_map_of_mem hsym

theorem TablesBeside.find : findSymbolAddress a name = findSymbolAddress b name := by
  rw [findSymbolAddress, findSymbolAddress, h.lookup name hname]

theorem TablesBeside.info : getSymbolInfo a name = getSymbolInfo b name := h.lookup name hname

end Tables

theorem modifyFirst_append {ε : Type} {p : ε → Bool} (f : ε → ε) {before : List ε}
    (h : ∀ e ∈ before, p e = false) (l : List ε) :
    HashChain.modifyFirst p f (before ++ l) = before ++ HashChain.modifyFirst p f l := by
  induction before with
  | nil => rfl
  | cons e before ih =>
      rw [List.forall_mem_cons] at h
      rw [List.cons_append, HashChain.modifyFirst, h.1, if_neg Bool.false_ne_true, ih h.2,
        List.cons_append]

section Writers

variable {old : List Symbol} {defined : List Label} {a b : AssemblerContext} {name : Label}

theorem beq_of_unused (hname : name ∉ old.map Symbol.name) :
    ∀ sym ∈ old, (sym.name == name) = false := by
  intro sym hsym
  apply beq_false_of_ne
  rintro rfl
  exact hname (List.mem_map_of_mem hsym)

theorem TablesBeside.modifyFirst (h : TablesBeside old defined a b) {p : Symbol → Bool}
    {f : Symbol → Symbol} (hp : ∀ sym ∈ old, p sym = false) (hf : ∀ sym, (f sym).name = sym.name) :
    TablesBeside old defined { a with symbols := HashChain.modifyFirst p f a.symbols }
      { b with symbols := HashChain.modifyFirst p f b.symbols } where
  symbols := by
    show HashChain.modifyFirst p f a.symbols = old ++ HashChain.modifyFirst p f b.symbols
    rw [h.symbols, modifyFirst_append f hp]
  lookup := h.lookup
  known := by
    intro sym hsym
    rcases mem_modifyFirst hsym with hsym | ⟨before, hbefore, rfl⟩
    · exact h.known sym hsym
    · rw [hf]
      exact h.known before hbefore

theorem TablesBeside.updateFirst (h : TablesBeside old defined a b)
    (hname : name ∉ old.map Symbol.name) {f : Symbol → Symbol}
    (hf : ∀ sym, (f sym).name = sym.name) :
    TablesBeside old defined (updateFirstSymbol a name f) (updateFirstSymbol b name f) :=
  h.modifyFirst (beq_of_unused hname) hf

theorem TablesBeside.updateSymbols (h : TablesBeside old defined a b)
    (hname : name ∉ old.map Symbol.name) {f : Symbol → Symbol}
    (hf : ∀ sym, (f sym).name = sym.name) :
    TablesBeside old defined (updateSymbols a name f) (updateSymbols b name f) where
  symbols := by
    have hold : (old.map fun sym => if sym.name = name then f sym else sym) = old := by
      conv_rhs => rw [← List.map_id old]
      apply List.map_congr_left
      intro sym hsym
      exact if_neg (ne_of_beq_false (beq_of_unused hname sym hsym))
    show (a.symbols.map fun sym => _) = old ++ b.symbols.map fun sym => _
    rw [h.symbols, List.map_append, hold]
  lookup := h.lookup
  known := by
    intro sym hsym
    obtain ⟨before, hbefore, rfl⟩ := List.mem_map.mp hsym
    split
    · rw [hf]
      exact h.known before hbefore
    · exact h.known before hbefore

theorem TablesBeside.hashUpdate (h : TablesBeside old defined a b) (address : Word)
    (isGlobal isExternal : Bool) (sect : Option SectionId) :
    TablesBeside old defined (symbolHashUpdate a name address isGlobal isExternal sect)
      (symbolHashUpdate b name address isGlobal isExternal sect) where
  symbols := h.symbols
  lookup := fun other hother => by
    rw [lookup_symbolHashUpdate, lookup_symbolHashUpdate]
    split
    · next heq => rw [heq, h.lookup other hother]
    · exact h.lookup other hother
  known := h.known

theorem TablesBeside.setSymbol (h : TablesBeside old defined a b)
    (hname : name ∉ old.map Symbol.name) {f : Symbol → Symbol}
    (hf : ∀ sym, (f sym).name = sym.name) (address : Word) (isGlobal isExternal : Bool)
    (sect : Option SectionId) :
    TablesBeside old defined (setSymbol a name f address isGlobal isExternal sect)
      (setSymbol b name f address isGlobal isExternal sect) :=
  (h.updateFirst hname hf).hashUpdate address isGlobal isExternal sect

theorem TablesBeside.moveLabel (h : TablesBeside old defined a b)
    (hname : name ∉ old.map Symbol.name) (address : Word) :
    TablesBeside old defined (moveLabel a name address) (moveLabel b name address) := by
  have hskip : ∀ (l : List Symbol) (ctx : AssemblerContext), (∀ sym ∈ l, (sym.name == name) = false) →
      l.foldl (fun ctx' sym => if sym.name = name then
        symbolHashUpdate ctx' name address sym.isGlobal sym.isExternal sym.sect else ctx') ctx =
        ctx := by
    intro l ctx hl
    induction l with
    | nil => rfl
    | cons sym l ih =>
        rw [List.forall_mem_cons] at hl
        rw [List.foldl_cons, if_neg (ne_of_beq_false hl.1), ih hl.2]
  have hboth : ∀ (l : List Symbol) (a b : AssemblerContext), TablesBeside old defined a b →
      TablesBeside old defined (l.foldl (fun ctx' sym => if sym.name = name then
        symbolHashUpdate ctx' name address sym.isGlobal sym.isExternal sym.sect else ctx') a)
        (l.foldl (fun ctx' sym => if sym.name = name then
          symbolHashUpdate ctx' name address sym.isGlobal sym.isExternal sym.sect else ctx') b) := by
    intro l
    induction l with
    | nil => exact fun _ _ h => h
    | cons sym l ih =>
        intro a b h
        rw [List.foldl_cons, List.foldl_cons]
        apply ih
        split
        · exact h.hashUpdate address _ _ _
        · exact h
  rw [X86Assembler.moveLabel, X86Assembler.moveLabel, h.symbols, List.foldl_append,
    hskip old _ (beq_of_unused hname)]
  exact hboth b.symbols _ _ (h.updateSymbols hname fun _ => rfl)

theorem room_for_new (hroom : HasRoom old defined) (h : TablesBeside old defined a b)
    (hb : Consistent b) (hdef : name ∈ defined) (hnew : b.view name = none)
    (hfits : b.symbols.length < maxSymbols) : a.symbols.length < maxSymbols := by
  rw [h.symbols, List.length_append]
  rcases hroom with rfl | hroom
  · rw [List.length_nil, Nat.zero_add]
    exact hfits
  · have hnodup : (name :: b.symbols.map Symbol.name).Nodup :=
      List.nodup_cons.mpr ⟨notMem_of_view_none b hnew, hb.nodup⟩
    have hsubset : name :: b.symbols.map Symbol.name ⊆ defined.dedup := by
      intro other hother
      rw [List.mem_dedup]
      rcases List.mem_cons.mp hother with rfl | hother
      · exact hdef
      · obtain ⟨sym, hsym, rfl⟩ := List.mem_map.mp hother
        exact h.known sym hsym
    have hle := (List.subperm_of_subset hnodup hsubset).length_le
    rw [List.length_cons, List.length_map] at hle
    omega

end Writers

theorem addSymbol_frame (name : Label) (address : Word) (isGlobal isExternal : Bool)
    (sect : Option SectionId) (ctx : AssemblerContext) :
    (addSymbol name address isGlobal isExternal sect ctx).2.output = ctx.output ∧
      (addSymbol name address isGlobal isExternal sect ctx).2.settings = ctx.settings := by
  rw [addSymbol]
  split
  · exact ⟨rfl, rfl⟩
  split
  · split <;> exact ⟨rfl, rfl⟩
  · exact ⟨rfl, rfl⟩

theorem upsertConstantSymbol_frame (name : Label) (value : Word) (ctx : AssemblerContext) :
    (upsertConstantSymbol name value ctx).2.output = ctx.output ∧
      (upsertConstantSymbol name value ctx).2.settings = ctx.settings := by
  rw [upsertConstantSymbol]
  split
  · split
    · exact ⟨rfl, rfl⟩
    · dsimp only
      split
      · exact ⟨rfl, rfl⟩
      · exact addSymbol_frame name value false false none _
  · exact addSymbol_frame name value false false none ctx

section Alike

variable {old : List Symbol} {defined : List Label} {seen : SectionId → Prop} {name : Label}

theorem Beside.of_tables {a b a' b' : AssemblerContext} (h : Beside old defined seen a b)
    (ht : TablesBeside old defined a' b') (hi : SymbolInvariant b')
    (ha : a'.output = a.output ∧ a'.settings = a.settings)
    (hb : b'.output = b.output ∧ b'.settings = b.settings) : Beside old defined seen a' b' :=
  ⟨ht, hi, h.outputs.congr ha.1 ha.2 hb.1 hb.2⟩

theorem Beside.congr {a b a' b' : AssemblerContext} (h : Beside old defined seen a b)
    (ha : a'.output = a.output ∧ a'.settings = a.settings ∧ a'.symbols = a.symbols ∧
      a'.symbolHash = a.symbolHash)
    (hb : b'.output = b.output ∧ b'.settings = b.settings ∧ b'.symbols = b.symbols ∧
      b'.symbolHash = b.symbolHash) : Beside old defined seen a' b' :=
  ⟨h.tables.congr ha.2.2.1 ha.2.2.2 hb.2.2.1 hb.2.2.2, h.invariant.congr hb.2.2.1 hb.2.2.2,
    h.outputs.congr ha.1 ha.2.1 hb.1 hb.2.1⟩

theorem Beside.report {a b : AssemblerContext} (h : Beside old defined seen a b)
    (d d' : Diagnostic) : Beside old defined seen (a.report d) (b.report d') :=
  h.congr ⟨rfl, rfl, rfl, rfl⟩ ⟨rfl, rfl, rfl, rfl⟩

theorem reportError_alike {α : Type} (d : Diagnostic) :
    Alike (Beside old defined seen) (reportError d : Asm α) (reportError d) :=
  fun _ _ h => ⟨rfl, h.report d d⟩

theorem addSymbol_alike (hroom : HasRoom old defined) (hname : name ∉ old.map Symbol.name)
    (hdef : name ∈ defined) (address : Word) (isGlobal isExternal : Bool)
    (sect : Option SectionId) : Alike (Beside old defined seen)
      (addSymbol name address isGlobal isExternal sect)
      (addSymbol name address isGlobal isExternal sect) := by
  intro a b h
  unfold Matched
  have hlookup := h.tables.lookup name hname
  cases hv : b.view name with
  | some v =>
      obtain ⟨entry, hentry, -, hresolved⟩ := h.invariant.consistent.lookup_of_view hv
      obtain ⟨d, hb⟩ := addSymbol_known b name address isGlobal isExternal sect
        h.invariant.consistent hv
      have ha : ∃ d, addSymbol name address isGlobal isExternal sect a = (none, a.report d) := by
        rw [addSymbol]
        split
        · exact ⟨_, rfl⟩
        · rw [hlookup, hentry]
          dsimp only
          rw [hresolved, if_pos rfl]
          exact ⟨_, rfl⟩
      obtain ⟨d', ha⟩ := ha
      rw [ha, hb]
      exact ⟨rfl, h.report d' d⟩
  | none =>
      by_cases hfull : maxSymbols ≤ b.symbols.length
      · have hfull' : maxSymbols ≤ a.symbols.length := by
          rw [h.tables.symbols, List.length_append]
          omega
        obtain ⟨d, hb⟩ := addSymbol_full b name address isGlobal isExternal sect hfull
        obtain ⟨d', ha⟩ := addSymbol_full a name address isGlobal isExternal sect hfull'
        rw [ha, hb]
        exact ⟨rfl, h.report d' d⟩
      · have hfits := Nat.not_le.mp hfull
        have hnone := h.invariant.consistent.lookup_of_view_none hv
        have hfits' := room_for_new hroom h.tables h.invariant.consistent hdef hv hfits
        have ha : addSymbol name address isGlobal isExternal sect a =
            (some (), symbolHashInsert { a with
              symbols := a.symbols ++ [{ name, address, isGlobal, isExternal, sect }] }
              name address isGlobal isExternal sect) := by
          rw [addSymbol, if_neg (Nat.not_le.mpr hfits'), hlookup, hnone]
        have hinv := symbolInvariant_addSymbol h.invariant name address isGlobal isExternal sect
        rw [addSymbol_new b name address isGlobal isExternal sect h.invariant.consistent hv hfits]
          at hinv ⊢
        rw [ha]
        refine ⟨rfl, h.of_tables ⟨?_, ?_, ?_⟩ hinv ⟨rfl, rfl⟩ ⟨rfl, rfl⟩⟩
        · show a.symbols ++ [_] = old ++ (b.symbols ++ [_])
          rw [h.tables.symbols, List.append_assoc]
        · intro other hother
          show HashChain.lookup _ _ (HashChain.insert _ _ a.symbolHash _) other =
            HashChain.lookup _ _ (HashChain.insert _ _ b.symbolHash _) other
          rw [HashChain.lookup_insert, HashChain.lookup_insert]
          split
          · rfl
          · exact h.tables.lookup other hother
        · intro sym hsym
          rcases List.mem_append.mp hsym with hsym | hsym
          · exact h.tables.known sym hsym
          · rw [List.mem_singleton.mp hsym]
            exact hdef

theorem upsertConstantSymbol_alike (hroom : HasRoom old defined)
    (hname : name ∉ old.map Symbol.name) (hdef : name ∈ defined) (value : Word) :
    Alike (Beside old defined seen) (upsertConstantSymbol name value)
      (upsertConstantSymbol name value) := by
  intro a b h
  have hinv := symbolInvariant_upsert h.invariant name value
  have hlookup := h.tables.lookup name hname
  have hadd := @addSymbol_alike old defined seen name hroom hname hdef value false false none a b h
  have hfa := upsertConstantSymbol_frame name value a
  have hfb := upsertConstantSymbol_frame name value b
  suffices hrun : (upsertConstantSymbol name value a).1 = (upsertConstantSymbol name value b).1 ∧
      TablesBeside old defined (upsertConstantSymbol name value a).2
        (upsertConstantSymbol name value b).2 from ⟨hrun.1, h.of_tables hrun.2 hinv hfa hfb⟩
  rw [upsertConstantSymbol, upsertConstantSymbol, hlookup]
  cases hentry : symbolHashLookup b name with
  | none => exact ⟨hadd.1, hadd.2.tables⟩
  | some existing =>
      dsimp only
      split
      · exact ⟨rfl, h.tables.congr rfl rfl rfl rfl⟩
      · have hup := @TablesBeside.hashUpdate old defined a b name h.tables value existing.isGlobal
          false none
        rw [hup.entry hname]
        cases hfind : findSymbolEntry (symbolHashUpdate b name value existing.isGlobal false none)
            name with
        | some sym => exact ⟨rfl, hup.updateFirst hname fun _ => rfl⟩
        | none =>
            have hview : b.view name = none := by
              rw [AssemblerContext.view, show findSymbolEntry b name = none from hfind]
              rfl
            cases (h.invariant.consistent.lookup_of_view_none hview).symm.trans hentry

end Alike

/-- The symbols that a statement names; the name of a section is none. -/
def ParsedInstruction.symbolNames (inst : ParsedInstruction) : List Label :=
  if inst.type = .sectionDir then [] else inst.label.toList ++ inst.operandLabels

def ParsedInstruction.definedNames (inst : ParsedInstruction) : List Label :=
  if inst.type = .sectionDir then []
  else
    inst.label.toList ++ match inst.type with
      | .externSym | .comm | .lcomm => inst.operandLabels
      | _ => []

/-- A statement that has nothing to do with the leftover symbols. -/
structure Apart (old : List Symbol) (defined : List Label) (inst : ParsedInstruction) : Prop where
  unused : Unused old inst.symbolNames
  defines : inst.definedNames ⊆ defined

section Layout

variable {old : List Symbol} {defined : List Label} {seen : SectionId → Prop}
  {inst : ParsedInstruction}

theorem Apart.label (h : Apart old defined inst) (htype : inst.type ≠ .sectionDir) {name : Label}
    (hl : inst.label = some name) : name ∉ old.map Symbol.name ∧ name ∈ defined := by
  constructor
  · apply h.unused
    rw [ParsedInstruction.symbolNames, if_neg htype, hl]
    exact List.mem_cons_self
  · apply h.defines
    rw [ParsedInstruction.definedNames, if_neg htype, hl]
    exact List.mem_cons_self

theorem Apart.operand (h : Apart old defined inst) (htype : inst.type ≠ .sectionDir)
    {name : Label} (hop : name ∈ inst.operandLabels) : name ∉ old.map Symbol.name := by
  apply h.unused
  rw [ParsedInstruction.symbolNames, if_neg htype]
  exact List.mem_append_right _ hop

theorem Beside.applySection {a b : AssemblerContext} (h : Beside old defined seen a b)
    (inst : ParsedInstruction) :
    Beside old defined seen (applySectionDirective a inst) (applySectionDirective b inst) :=
  ⟨h.tables.congr rfl rfl rfl rfl, h.invariant.congr rfl rfl,
    { h.outputs with sect := congrArg (sectionAfterDirective · inst) h.outputs.sect }⟩

theorem Beside.moveTo {a b : AssemblerContext} (h : Beside old defined seen a b) (address : Word) :
    Beside old defined seen { a with currentAddress := address }
      { b with currentAddress := address } :=
  ⟨h.tables.congr rfl rfl rfl rfl, h.invariant.congr rfl rfl, { h.outputs with address := rfl }⟩

theorem Beside.updateFirst {a b : AssemblerContext} (h : Beside old defined seen a b) {name : Label}
    (hname : name ∉ old.map Symbol.name) {f : Symbol → Symbol}
    (hf : ∀ sym, (f sym).name = sym.name) (hview : ∀ sym, (f sym).view = sym.view) :
    Beside old defined seen (updateFirstSymbol a name f) (updateFirstSymbol b name f) :=
  h.of_tables (h.tables.updateFirst hname hf)
    ⟨consistent_updateFirst name f h.invariant.consistent hf hview, h.invariant.chains⟩
    ⟨rfl, rfl⟩ ⟨rfl, rfl⟩

theorem recordedNext_beside {a b : AssemblerContext} (h : Beside old defined seen a b)
    (address : Word) : recordedNext a inst address = recordedNext b inst address := by
  rw [recordedNext, recordedNext, h.outputs.files, h.outputs.sect]

theorem equValue_beside {a b : AssemblerContext} (h : Beside old defined seen a b) {op : Operand}
    (hop : Unused old op.labels) : equValue a inst op = equValue b inst op :=
  equValue_congr fun name hname => h.tables.find (hop name hname)

variable (hroom : HasRoom old defined) (hapart : Apart old defined inst)

include hroom hapart

theorem recordLabel_alike (htype : inst.type ≠ .sectionDir) (address : Word) :
    Alike (Beside old defined seen) (recordLabel inst address) (recordLabel inst address) := by
  rw [recordLabel]
  cases hl : inst.label with
  | none => exact .pure ()
  | some name =>
      obtain ⟨hname, hdef⟩ := hapart.label htype hl
      apply Alike.get
      intro a b h
      rw [h.outputs.sect]
      refine ((addSymbol_alike hroom hname hdef _ _ _ _).ignore.bind fun _ => ?_) a b h
      apply Alike.modify
      intro a b h
      rw [recordDeclaration, recordDeclaration, h.outputs.sect]
      apply h.updateFirst hname
      · intro sym
        split <;> rfl
      · intro sym
        split <;> rfl

theorem recordStep_alike (dataAddress : Word) : Alike (Beside old defined seen)
    (recordStep dataAddress inst) (recordStep dataAddress inst) := by
  apply Alike.get
  intro a b h
  by_cases htype : inst.type = .sectionDir
  · rw [if_pos htype, if_pos htype]
    refine (Alike.bind (.modify fun a b h => ?_) fun _ => .pure dataAddress) a b h
    exact h.applySection inst
  · rw [if_neg htype, if_neg htype, h.outputs.sect, h.outputs.address]
    refine (Alike.bind (recordLabel_alike hroom hapart htype _) fun _ => ?_) a b h
    split
    · exact reportError_alike _
    · split
      · refine .bind (.modify fun a b h => ?_) fun _ => .pure dataAddress
        rw [recordedNext_beside h, h.outputs.address]
        exact h.moveTo _
      · intro a' b' h'
        rw [recordedNext_beside h]
        exact ⟨rfl, h'⟩

theorem resolveEqu_alike :
    Alike (Beside old defined seen) (resolveEqu inst) (resolveEqu inst) := by
  rw [resolveEqu]
  split
  · next hequ =>
      have htype : inst.type ≠ .sectionDir := by
        rw [hequ]
        decide
      split
      · next name op rest hl hops =>
          obtain ⟨hname, hdef⟩ := hapart.label htype hl
          have hop : Unused old op.labels := fun other hother =>
            hapart.operand htype (labels_subset (hops ▸ List.mem_cons_self) hother)
          apply Alike.get
          intro a b h
          rw [equValue_beside h hop]
          cases equValue b inst op with
          | ok value => exact upsertConstantSymbol_alike hroom hname hdef value a b h
          | error d => exact reportError_alike d a b h
      · exact .pure ()
  · exact .pure ()

end Layout

structure RelaxBeside (old : List Symbol) (defined : List Label) (seen : SectionId → Prop)
    (s t : RelaxState) : Prop where
  ctx : Beside old defined seen s.ctx t.ctx
  address : s.address = t.address
  sect : s.sect = t.sect
  changed : s.changed = t.changed

section Relaxation

variable {old : List Symbol} {defined : List Label} {seen : SectionId → Prop}
  {inst : ParsedInstruction} (hapart : Apart old defined inst)

include hapart

theorem estimate_beside {a b : AssemblerContext} (h : Beside old defined seen a b)
    (htype : inst.type ≠ .sectionDir) (address : Word) :
    estimateInstructionSizeRelaxed a inst address =
      estimateInstructionSizeRelaxed b inst address := by
  rw [estimateInstructionSizeRelaxed, estimateInstructionSizeRelaxed]
  split
  · next name hops =>
      have hname : name ∉ old.map Symbol.name :=
        hapart.operand htype (labels_subset (hops ▸ List.mem_cons_self) List.mem_cons_self)
      rw [h.tables.find hname]
  · rfl

theorem relaxedSize_beside {a b : AssemblerContext} (h : Beside old defined seen a b)
    (htype : inst.type ≠ .sectionDir) (address : Word) :
    relaxedSize a inst address = relaxedSize b inst address := by
  rw [relaxedSize, relaxedSize, estimate_beside hapart h htype]

theorem relaxLabel_beside {s t : RelaxState} (h : RelaxBeside old defined seen s t)
    (htype : inst.type ≠ .sectionDir) :
    RelaxBeside old defined seen (relaxLabel s inst) (relaxLabel t inst) := by
  have hinv : SymbolInvariant (relaxLabel t inst).ctx :=
    ⟨(relaxLabel_spec t inst h.ctx.invariant.consistent).1,
      chainsDistinct_relaxLabel h.ctx.invariant.chains inst⟩
  cases hl : inst.label with
  | none =>
      rw [relaxLabel_unlabelled hl, relaxLabel_unlabelled hl]
      exact h
  | some name =>
      have hname := (hapart.label htype hl).1
      have hentry := h.ctx.tables.entry hname
      cases hs : findSymbolEntry t.ctx name with
      | none =>
          rw [relaxLabel_unknown hl hs, relaxLabel_unknown hl (hentry.trans hs)]
          exact h
      | some sym =>
          rw [relaxLabel_known hl hs] at hinv ⊢
          rw [relaxLabel_known hl (hentry.trans hs), h.address]
          split
          · exact h
          · next hmoves =>
              rw [if_neg hmoves] at hinv
              have htables := @TablesBeside.setSymbol old defined _ _ name h.ctx.tables hname
                (Symbol.setAddress t.address) (fun _ => rfl) t.address sym.isGlobal
                sym.isExternal sym.sect
              exact ⟨h.ctx.of_tables htables hinv ⟨rfl, rfl⟩ ⟨rfl, rfl⟩, rfl, h.sect, rfl⟩

omit hapart in
theorem relaxStep_beside {s t : RelaxState} (h : RelaxBeside old defined seen s t)
    (hapart : Apart old defined inst) :
    RelaxBeside old defined seen (relaxStep s inst) (relaxStep t inst) := by
  by_cases htype : inst.type = .sectionDir
  · rw [relaxStep, relaxStep, if_pos htype, if_pos htype]
    exact ⟨h.ctx, h.address, rfl, h.changed⟩
  rw [relaxStep, relaxStep, if_neg htype, if_neg htype, h.sect]
  split
  · exact h
  · have hlabel := relaxLabel_beside hapart h htype
    refine ⟨hlabel.ctx, ?_, hlabel.sect, hlabel.changed⟩
    show (relaxLabel s inst).address + relaxedSize (relaxLabel s inst).ctx inst _ =
      (relaxLabel t inst).address + relaxedSize (relaxLabel t inst).ctx inst _
    rw [hlabel.address, relaxedSize_beside hapart hlabel.ctx htype]

end Relaxation

section Program

variable {old : List Symbol} {defined : List Label} {seen : SectionId → Prop}
  {insts : List ParsedInstruction} (hroom : HasRoom old defined)
  (hapart : ∀ inst ∈ insts, Apart old defined inst)

include hroom hapart

theorem recordLabels_alike (dataAddress : Word) : Alike (Beside old defined seen)
    (recordLabels dataAddress insts) (recordLabels dataAddress insts) := by
  induction insts generalizing dataAddress with
  | nil => exact .pure ()
  | cons inst insts ih =>
      rw [List.forall_mem_cons] at hapart
      exact (recordStep_alike hroom hapart.1 dataAddress).bind fun dataAddress => ih hapart.2 dataAddress

theorem resolveEqus_alike : Alike (Beside old defined seen) (resolveEquSymbolValues insts)
    (resolveEquSymbolValues insts) :=
  .each fun inst hinst => resolveEqu_alike hroom (hapart inst hinst)

omit hroom in
theorem relaxIterations_beside (n : Nat) {a b : AssemblerContext}
    (h : Beside old defined seen a b) :
    Beside old defined seen (relaxIterations n a insts) (relaxIterations n b insts) := by
  have hpass : ∀ (insts : List ParsedInstruction) (s t : RelaxState),
      (∀ inst ∈ insts, Apart old defined inst) → RelaxBeside old defined seen s t →
        RelaxBeside old defined seen (insts.foldl relaxStep s) (insts.foldl relaxStep t) := by
    intro insts
    induction insts with
    | nil => exact fun _ _ _ h => h
    | cons inst insts ih =>
        intro s t hall h
        rw [List.forall_mem_cons] at hall
        exact ih _ _ hall.2 (relaxStep_beside h hall.1)
  induction n generalizing a b with
  | zero => exact h
  | succ n ih =>
      have hone : RelaxBeside old defined seen (relaxIteration a insts) (relaxIteration b insts) :=
        hpass insts _ _ hapart ⟨h, h.outputs.base, rfl, rfl⟩
      rw [relaxIterations, relaxIterations, hone.changed]
      split
      · exact ih hone.ctx
      · exact hone.ctx

theorem layoutProgram_matched {a b : AssemblerContext}
    (h : Beside old defined seen (resetForPassOne a) (resetForPassOne b)) :
    Matched (Beside old defined seen) (layoutProgram insts) (layoutProgram insts) a b := by
  have hrun : Alike (Beside old defined seen)
      (do
        recordLabels ((resetForPassOne a).baseAddress + textSizeEstimate insts) insts
        resolveEquSymbolValues insts
        Fallible.modify fun ctx => recomputeTextLayoutRelaxed ctx insts
        resolveEquSymbolValues insts)
      (do
        recordLabels ((resetForPassOne b).baseAddress + textSizeEstimate insts) insts
        resolveEquSymbolValues insts
        Fallible.modify fun ctx => recomputeTextLayoutRelaxed ctx insts
        resolveEquSymbolValues insts) := by
    rw [h.outputs.base]
    refine (recordLabels_alike hroom hapart _).bind fun _ =>
      (resolveEqus_alike hroom hapart).bind fun _ =>
        (Alike.modify fun a b h => ?_).bind fun _ => resolveEqus_alike hroom hapart
    exact relaxIterations_beside hapart 8 h
  exact hrun _ _ h

end Program

end X86Assembler
