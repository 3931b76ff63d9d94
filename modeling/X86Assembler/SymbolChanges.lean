import X86Assembler.DataPass
import X86Assembler.SymbolFrames

namespace X86Assembler

open Fallible (Along each ignore)

structure Flags where
  isGlobal : Bool
  isWeak : Bool
  isHidden : Bool
deriving DecidableEq

def Symbol.flags (sym : Symbol) : Flags := ⟨sym.isGlobal, sym.isWeak, sym.isHidden⟩

def AssemblerContext.flags (ctx : AssemblerContext) (name : Label) : Option Flags :=
  (findSymbolEntry ctx name).map Symbol.flags

theorem flags_congr {a b : AssemblerContext} (h : b.symbols = a.symbols) (name : Label) :
    b.flags name = a.flags name := by
  rw [AssemblerContext.flags, AssemblerContext.flags, findSymbolEntry, findSymbolEntry, h]

theorem flags_eq_none {ctx : AssemblerContext} {name : Label} :
    ctx.flags name = none ↔ ctx.view name = none := by
  rw [AssemblerContext.flags, AssemblerContext.view, Option.map_eq_none_iff, Option.map_eq_none_iff]

theorem flags_of_mem {ctx : AssemblerContext} (h : Consistent ctx) {sym : Symbol}
    (hsym : sym ∈ ctx.symbols) : ctx.flags sym.name = some sym.flags := by
  obtain ⟨found, hfind, hview⟩ := Option.map_eq_some_iff.mp (view_of_mem h hsym)
  have hname : found.name = sym.name := by simpa using List.find?_some hfind
  have hmem : found ∈ ctx.symbols := List.mem_of_find?_eq_some hfind
  have hsame : found = sym := List.inj_on_of_nodup_map h.nodup hmem hsym hname
  rw [AssemblerContext.flags, hfind, hsame]
  rfl

theorem flags_updateSymbols (ctx : AssemblerContext) (name : Label) {f : Symbol → Symbol}
    (hname : ∀ sym, (f sym).name = sym.name) (g : Flags → Flags)
    (hflags : ∀ sym, (f sym).flags = g sym.flags) (other : Label) :
    (updateSymbols ctx name f).flags other =
      if name = other then (ctx.flags name).map g else ctx.flags other := by
  rw [AssemblerContext.flags, findSymbolEntry_updateSymbols ctx name f hname]
  split
  · rw [AssemblerContext.flags, Option.map_map, Option.map_map]
    exact congrArg (fun g => Option.map g _) (funext hflags)
  · rfl

theorem addSymbol_flags {ctx : AssemblerContext} (h : Consistent ctx) (name : Label)
    (address : Word) (isGlobal isExternal : Bool) (sect : Option SectionId) (other : Label) :
    (addSymbol name address isGlobal isExternal sect ctx).2.flags other =
      if name = other ∧ ctx.flags name = none ∧ ctx.symbols.length < maxSymbols then
        some ⟨isGlobal, false, false⟩
      else ctx.flags other := by
  by_cases hfull : maxSymbols ≤ ctx.symbols.length
  · obtain ⟨d, hd⟩ := addSymbol_full ctx name address isGlobal isExternal sect hfull
    rw [hd, if_neg (fun hc => absurd hc.2.2 (Nat.not_lt.mpr hfull))]
    rfl
  · cases hv : ctx.view name with
    | some v =>
        obtain ⟨d, hd⟩ := addSymbol_known ctx name address isGlobal isExternal sect h hv
        rw [hd, if_neg (fun hc => by rw [flags_eq_none, hv] at hc; cases hc.2.1)]
        rfl
    | none =>
        rw [addSymbol_new ctx name address isGlobal isExternal sect h hv (Nat.not_le.mp hfull)]
        have hnone := List.find?_eq_none.mp (Option.map_eq_none_iff.mp hv)
        by_cases hname : name = other
        · subst hname
          rw [if_pos ⟨rfl, flags_eq_none.mpr hv, Nat.not_le.mp hfull⟩]
          simp only [AssemblerContext.flags, findSymbolEntry, symbolHashInsert,
            List.find?_append, List.find?_eq_none.mpr hnone]
          simp [Symbol.flags]
        · rw [if_neg (fun hc => hname hc.1)]
          simp only [AssemblerContext.flags, findSymbolEntry, symbolHashInsert,
            List.find?_append]
          simp [hname]

/-- What a part of a run may do to the symbols: mark some as global, and add some, each with the
mark that it starts with, while there is room. -/
structure Changes (marks : Label → Prop) (adds : Label → Bool → Prop)
    (a b : AssemblerContext) : Prop where
  consistent : Consistent a → Consistent b
  length_le : a.symbols.length ≤ b.symbols.length
  known : Consistent a → ∀ name f, a.flags name = some f → b.flags name = some f ∨
    marks name ∧ b.flags name = some { f with isGlobal := true }
  new : Consistent a → ∀ name, a.flags name = none → b.flags name = none ∨
    a.symbols.length < maxSymbols ∧ ∃ g, adds name g ∧ (b.flags name = some ⟨g, false, false⟩ ∨
      marks name ∧ b.flags name = some ⟨true, false, false⟩)

section Changes

variable {marks : Label → Prop} {adds : Label → Bool → Prop} {a b c : AssemblerContext}

theorem Changes.of_flags (hc : Consistent a → Consistent b)
    (hl : a.symbols.length = b.symbols.length)
    (hf : Consistent a → ∀ name, b.flags name = a.flags name) : Changes marks adds a b where
  consistent := hc
  length_le := Nat.le_of_eq hl
  known := fun h name _ hname => .inl ((hf h name).trans hname)
  new := fun h name hname => .inl ((hf h name).trans hname)

theorem Changes.of_same (h : SameTable a b) : Changes marks adds a b :=
  .of_flags (fun hc => hc.congr h.symbols h.symbolHash) (by rw [h.symbols])
    fun _ => flags_congr h.symbols

theorem Changes.trans (hab : Changes marks adds a b) (hbc : Changes marks adds b c) :
    Changes marks adds a c where
  consistent := fun h => hbc.consistent (hab.consistent h)
  length_le := Nat.le_trans hab.length_le hbc.length_le
  known := fun h name f hname => by
    have hb := hab.consistent h
    rcases hab.known h name f hname with hsame | ⟨hmark, hset⟩
    · exact hbc.known hb name f hsame
    · rcases hbc.known hb name _ hset with hsame | ⟨-, hset'⟩
      · exact .inr ⟨hmark, hsame⟩
      · exact .inr ⟨hmark, hset'⟩
  new := fun h name hname => by
    have hb := hab.consistent h
    rcases hab.new h name hname with hnone | ⟨hroom, g, hadd, hset | ⟨hmark, hset⟩⟩
    · rcases hbc.new hb name hnone with hnone' | ⟨hroom, hadded⟩
      · exact .inl hnone'
      · exact .inr ⟨Nat.lt_of_le_of_lt hab.length_le hroom, hadded⟩
    · refine .inr ⟨hroom, g, hadd, ?_⟩
      rcases hbc.known hb name _ hset with hsame | ⟨hmark, hset'⟩
      · exact .inl hsame
      · exact .inr ⟨hmark, hset'⟩
    · refine .inr ⟨hroom, g, hadd, .inr ⟨hmark, ?_⟩⟩
      rcases hbc.known hb name _ hset with hsame | ⟨-, hset'⟩
      · exact hsame
      · exact hset'

theorem changes_rule (marks : Label → Prop) (adds : Label → Bool → Prop) :
    TableRule (Changes marks adds) := ⟨.of_same, fun _ _ _ => .trans⟩

/-- A name that is known or for which there is no room any more. -/
def Settled (ctx : AssemblerContext) (name : Label) : Prop :=
  ctx.flags name ≠ none ∨ maxSymbols ≤ ctx.symbols.length

theorem Changes.present (h : Changes marks adds a b) (hc : Consistent a) {name : Label}
    (hname : a.flags name ≠ none) : b.flags name ≠ none := by
  obtain ⟨f, hf⟩ := Option.ne_none_iff_exists'.mp hname
  rcases h.known hc name f hf with hset | ⟨-, hset⟩
  · rw [hset]
    exact Option.some_ne_none _
  · rw [hset]
    exact Option.some_ne_none _

theorem Settled.changes {name : Label} (hs : Settled a name) (hc : Consistent a)
    (h : Changes marks adds a b) : Settled b name :=
  hs.imp (h.present hc) fun hfull => Nat.le_trans hfull h.length_le

theorem Changes.new_full (h : Changes marks adds a b) (hc : Consistent a)
    (hfull : maxSymbols ≤ a.symbols.length) {name : Label} (hname : a.flags name = none) :
    b.flags name = none := by
  rcases h.new hc name hname with hnone | ⟨hroom, -⟩
  · exact hnone
  · omega

theorem addSymbol_settled {ctx : AssemblerContext} (h : Consistent ctx) (name : Label)
    (address : Word) (isGlobal isExternal : Bool) (sect : Option SectionId) :
    Settled (addSymbol name address isGlobal isExternal sect ctx).2 name := by
  have hflags := addSymbol_flags h name address isGlobal isExternal sect name
  have hlength := (addSymbol_emits name address isGlobal isExternal sect ctx).table.length_le
  rw [Settled, hflags]
  split
  · exact .inl (Option.some_ne_none _)
  · rename_i hnot
    by_cases hknown : ctx.flags name = none
    · refine .inr (Nat.le_trans (Nat.le_of_not_lt fun hroom => ?_) hlength)
      exact hnot ⟨rfl, hknown, hroom⟩
    · exact .inl hknown

theorem changes_addSymbol {name : Label} {isGlobal : Bool} (hadd : adds name isGlobal)
    (address : Word) (isExternal : Bool) (sect : Option SectionId) (ctx : AssemblerContext) :
    Changes marks adds ctx (addSymbol name address isGlobal isExternal sect ctx).2 where
  consistent := consistent_addSymbol ctx name address isGlobal isExternal sect
  length_le := (addSymbol_emits name address isGlobal isExternal sect ctx).table.length_le
  known := fun h other f hf => by
    rw [addSymbol_flags h, if_neg]
    · exact .inl hf
    · rintro ⟨rfl, hnone, -⟩
      rw [hf] at hnone
      cases hnone
  new := fun h other hnone => by
    rw [addSymbol_flags h]
    split
    · rename_i hnew
      obtain ⟨rfl, -, hroom⟩ := hnew
      exact .inr ⟨hroom, isGlobal, hadd, .inl rfl⟩
    · exact .inl hnone

theorem changes_markGlobal {op : Operand} (hop : ∀ name, op = .label name → marks name)
    (ctx : AssemblerContext) : Changes marks adds ctx (markGlobal ctx op) := by
  cases op with
  | label name =>
      have hemits := markGlobal_emits ctx (.label name)
      have hflags := flags_updateSymbols ctx name (f := fun sym => { sym with
          isGlobal := true, isFunction := sym.isFunction || sym.sect == some .text })
        (fun _ => rfl) (fun f => { f with isGlobal := true }) fun _ => rfl
      refine ⟨hemits.table.consistent, hemits.table.length_le, fun _ other f hf => ?_,
        fun _ other hnone => .inl ?_⟩
      · by_cases heq : name = other
        · subst heq
          exact .inr ⟨hop name rfl, (hflags name).trans (by rw [if_pos rfl, hf]; rfl)⟩
        · exact .inl ((hflags other).trans (by rw [if_neg heq, hf]))
      · by_cases heq : name = other
        · subst heq
          exact (hflags name).trans (by rw [if_pos rfl, hnone]; rfl)
        · exact (hflags other).trans (by rw [if_neg heq, hnone])
  | none | reg _ _ | imm _ | mem _ | labelDiff _ _ | string _ => exact .of_same (.refl ctx)

theorem changes_markGlobals {ops : List Operand} (hops : ∀ name, .label name ∈ ops → marks name)
    (ctx : AssemblerContext) : Changes marks adds ctx (ops.foldl markGlobal ctx) := by
  induction ops generalizing ctx with
  | nil => exact .of_same (.refl ctx)
  | cons op ops ih =>
      have hone : Changes marks adds ctx (markGlobal ctx op) :=
        changes_markGlobal (fun name heq => hops name (heq ▸ List.mem_cons_self)) ctx
      exact hone.trans (ih (fun name hmem => hops name (List.mem_cons_of_mem _ hmem)) _)

theorem changes_declareExternals {ops : List Operand}
    (hops : ∀ name, .label name ∈ ops → adds name false) :
    Along (Changes marks adds) (each declareExternal ops) := by
  induction ops with
  | nil => exact (changes_rule marks adds).pure ()
  | cons op ops ih =>
      have hone : Along (Changes marks adds) (declareExternal op) := by
        cases op with
        | label name =>
            exact fun ctx => changes_addSymbol (hops name List.mem_cons_self) _ _ _ ctx
        | none | reg _ _ | imm _ | mem _ | labelDiff _ _ | string _ =>
            exact (changes_rule marks adds).pure ()
      exact (changes_rule marks adds).bind hone fun _ =>
        ih fun name hmem => hops name (List.mem_cons_of_mem _ hmem)

theorem find?_modifyFirst_flags {p : Symbol → Bool} {f : Symbol → Symbol}
    (hf : ∀ sym, (f sym).name = sym.name ∧ (f sym).flags = sym.flags) (name : Label)
    (l : List Symbol) :
    ((HashChain.modifyFirst p f l).find? fun sym => sym.name == name).map Symbol.flags =
      (l.find? fun sym => sym.name == name).map Symbol.flags := by
  induction l with
  | nil => rfl
  | cons sym l ih =>
      have hname : ((f sym).name == name) = (sym.name == name) := by rw [(hf sym).1]
      rw [HashChain.modifyFirst]
      split
      · rw [List.find?_cons, List.find?_cons, hname]
        split
        · exact congrArg some (hf sym).2
        · rfl
      · rw [List.find?_cons, List.find?_cons]
        split
        · rfl
        · exact ih

theorem changes_markCallTarget (inst : ParsedInstruction) (ctx : AssemblerContext) :
    Changes marks adds ctx (markCallTarget ctx inst) := by
  have hemits := markCallTarget_emits ctx inst
  refine .of_flags hemits.table.consistent ?_ fun _ name => ?_
  · rw [markCallTarget]
    split
    · exact (modifyFirst_length _ _ _).symm
    · rfl
  · rw [markCallTarget]
    split
    · exact find?_modifyFirst_flags (f := fun sym => { sym with isFunction := true })
        (fun _ => ⟨rfl, rfl⟩) name ctx.symbols
    · rfl

theorem placeLabel_flags (ctx : AssemblerContext) (inst : ParsedInstruction) (h : Consistent ctx)
    (name : Label) : (placeLabel ctx inst).flags name = ctx.flags name := by
  rw [placeLabel]
  split
  · rfl
  · rename_i label _
    have hflags := flags_updateSymbols ctx label
      (f := Symbol.setAddress ctx.currentAddress) (fun _ => rfl) id (fun _ => rfl) name
    rw [flags_congr (moveLabel_symbols ctx label ctx.currentAddress h), hflags, Option.map_id]
    split
    · rename_i heq
      rw [heq]
      rfl
    · rfl

theorem changes_placeLabel (inst : ParsedInstruction) (ctx : AssemblerContext) :
    Changes marks adds ctx (placeLabel ctx inst) :=
  .of_flags (consistent_placeLabel ctx inst) (placeLabel_length ctx inst).symm
    (placeLabel_flags ctx inst)

end Changes

def commonName (inst : ParsedInstruction) : Option Label :=
  match directiveKind inst.type, inst.operands.head? with
  | some .comm, some (.label name) => some name
  | _, _ => none

theorem commonName_eq_some {inst : ParsedInstruction} {name : Label} :
    commonName inst = some name ↔
      directiveKind inst.type = some .comm ∧ inst.operands.head? = some (.label name) := by
  constructor
  · intro h
    rw [commonName] at h
    split at h
    · rename_i hkind hname
      cases h
      exact ⟨hkind, hname⟩
    · cases h
  · rintro ⟨hkind, hname⟩
    rw [commonName, hkind, hname]

/-- The names that a statement enters into the symbol table if they are new. -/
def Declares (inst : ParsedInstruction) (name : Label) : Prop :=
  (inst.type = .externSym ∧ .label name ∈ inst.operands) ∨ commonName inst = some name

/-- The names that a statement makes global if they are known. -/
def Globalizes (inst : ParsedInstruction) (name : Label) : Prop :=
  inst.type = .global ∧ .label name ∈ inst.operands

section Statements

variable {marks : Label → Prop} {adds : Label → Bool → Prop} {inst : ParsedInstruction}

theorem changes_encodeComm
    (hadds : ∀ name, commonName inst = some name → adds name (inst.type == .comm))
    (hkind : directiveKind inst.type = some .comm) :
    Along (Changes marks adds) (encodeComm inst) :=
  (changes_rule marks adds).encodeComm fun name address ctx hname =>
    changes_addSymbol (hadds name (commonName_eq_some.mpr ⟨hkind, hname⟩)) address false _ ctx

theorem changes_emitDataStatement
    (hadds : ∀ name, commonName inst = some name → adds name (inst.type == .comm)) :
    Along (Changes marks adds) (emitDataStatement inst) :=
  (changes_rule marks adds).emitDataStatement (changes_encodeComm hadds)

theorem changes_emitTextStatement (hmarks : ∀ name, Globalizes inst name → marks name)
    (hadds : ∀ name, Declares inst name → adds name (inst.type == .comm)) :
    Along (Changes marks adds) (emitTextStatement inst) := by
  apply (changes_rule marks adds).emitTextStatement
  · exact fun htype => changes_markGlobals fun name hmem => hmarks name ⟨htype, hmem⟩
  · intro htype
    apply changes_declareExternals
    intro name hmem
    have hadd := hadds name (.inl ⟨htype, hmem⟩)
    rwa [htype] at hadd
  · exact changes_markCallTarget inst
  · exact changes_encodeComm fun name hname => hadds name (.inr hname)

end Statements

theorem markGlobals_known {ops : List Operand} {name : Label} (hmem : .label name ∈ ops)
    {ctx : AssemblerContext} (hc : Consistent ctx) {f : Flags} (hf : ctx.flags name = some f) :
    (ops.foldl markGlobal ctx).flags name = some { f with isGlobal := true } := by
  have hrest : ∀ (ops : List Operand) (ctx : AssemblerContext), Consistent ctx →
      ctx.flags name = some { f with isGlobal := true } →
        (ops.foldl markGlobal ctx).flags name = some { f with isGlobal := true } := by
    intro ops ctx hc hset
    have hchanges : Changes (fun _ => True) (fun _ _ => True) ctx (ops.foldl markGlobal ctx) :=
      changes_markGlobals (fun _ _ => trivial) ctx
    rcases hchanges.known hc name _ hset with hsame | ⟨-, hsame⟩
    · exact hsame
    · exact hsame
  induction ops generalizing ctx with
  | nil => cases hmem
  | cons op ops ih =>
      have hc₁ := (markGlobal_emits ctx op).table.consistent hc
      rw [List.foldl_cons]
      rcases List.mem_cons.mp hmem with rfl | hmem
      · apply hrest ops _ hc₁
        have hset := flags_updateSymbols ctx name (f := fun sym => { sym with
            isGlobal := true, isFunction := sym.isFunction || sym.sect == some .text })
          (fun _ => rfl) (fun f => { f with isGlobal := true }) (fun _ => rfl) name
        exact hset.trans (by rw [if_pos rfl, hf]; rfl)
      · have hone : Changes (fun _ => True) (fun _ _ => True) ctx (markGlobal ctx op) :=
          changes_markGlobal (fun _ _ => trivial) ctx
        rcases hone.known hc name _ hf with hsame | ⟨-, hset⟩
        · exact ih hmem hc₁ hsame
        · exact hrest ops _ hc₁ hset

/-- What a common directive at an address does to the symbol table. -/
structure AddsCommon (inst : ParsedInstruction) (start : Word) (name : Label) (size : Word)
    (rest : List Operand) (ctx ctx' : AssemblerContext) : Prop where
  operands : inst.operands = .label name :: .imm size :: rest
  size_pos : 0 < size.toInt
  table : ∃ added, SameTable ctx added ∧
    SameTable (addSymbol name (commAddress start (commAlignment rest)) (inst.type == .comm) false
      (some .data) added).2 ctx'

section AddsCommon

variable {inst : ParsedInstruction} {start size : Word} {name : Label} {rest : List Operand}
  {ctx ctx' : AssemblerContext} (h : AddsCommon inst start name size rest ctx ctx')

include h

theorem AddsCommon.of_same {before after : AssemblerContext} (hbefore : SameTable before ctx)
    (hafter : SameTable ctx' after) : AddsCommon inst start name size rest before after := by
  obtain ⟨added, hadded, hend⟩ := h.table
  exact ⟨h.operands, h.size_pos, added, hbefore.trans hadded, hend.trans hafter⟩

variable (hc : Consistent ctx) (other : Label)

include hc

theorem AddsCommon.settled (hname : commonName inst = some other) : Settled ctx' other := by
  obtain ⟨-, hname⟩ := commonName_eq_some.mp hname
  obtain ⟨added, hadded, hend⟩ := h.table
  have hcadded : Consistent added := hc.congr hadded.symbols hadded.symbolHash
  have hsettled := addSymbol_settled hcadded name (commAddress start (commAlignment rest))
    (inst.type == .comm) false (some .data)
  rw [h.operands] at hname
  cases hname
  rwa [Settled, flags_congr hend.symbols, hend.symbols]

theorem AddsCommon.view : ctx'.view other =
    if name = other ∧ ctx.view name = none ∧ ctx.symbols.length < maxSymbols then
      some ⟨commAddress start (commAlignment rest), some .data, false⟩
    else ctx.view other := by
  obtain ⟨added, hadded, hend⟩ := h.table
  rw [view_congr hend.symbols,
    addSymbol_view _ _ _ _ _ _ (hc.congr hadded.symbols hadded.symbolHash),
    view_congr hadded.symbols, view_congr hadded.symbols, hadded.symbols]

end AddsCommon

theorem encodeComm_adds {inst : ParsedInstruction} {ctx ctx' : AssemblerContext}
    (h : encodeComm inst ctx = (some (), ctx')) :
    ∃ name size rest, AddsCommon inst ctx.currentAddress name size rest ctx ctx' := by
  rw [encodeComm] at h
  split at h
  · rename_i name size rest hops
    split at h
    · cases h
    · rename_i hsize
      obtain ⟨_, padded, hpad, h₁⟩ := Fallible.bind_eq_some.mp h
      obtain ⟨_, added, hadd, h₂⟩ := Fallible.bind_eq_some.mp h₁
      cases hadd
      have hfirst := sameTable_rule.emitUnchecked
        (List.replicate (commPadding ctx.currentAddress (commAlignment rest)) 0) ctx
      have hlast := sameTable_rule.emitUnchecked (List.replicate size.toInt.toNat 0)
        (addSymbol name (commAddress ctx.currentAddress (commAlignment rest))
          (inst.type == .comm) false (some .data) padded).2
      rw [hpad] at hfirst
      rw [h₂] at hlast
      exact ⟨name, size, rest, hops, Int.not_le.mp hsize, padded, hfirst, hlast⟩
  · cases h

theorem encodeListed_common {what : String} {inst : ParsedInstruction}
    {ctx ctx' : AssemblerContext} (hkind : directiveKind inst.type = some .comm)
    (h : encodeListed what inst ctx = (some (), ctx')) :
    ∃ name size rest, AddsCommon inst
      (ctx.currentAddress + BitVec.ofNat 64 (segmentBytes inst).length) name size rest ctx ctx' := by
  have hstart := listingStart_same ctx inst.lineNumber inst.originalLine
  have haddress := (listingStart_emits ctx inst.lineNumber inst.originalLine).address
  rw [encodeListed] at h
  cases henc : encodeInstruction inst
      (ctx.listingStartInstruction inst.lineNumber inst.originalLine) with
  | mk r ctx₂ =>
      rw [henc] at h
      cases r with
      | none => cases h
      | some _ =>
          cases h
          obtain ⟨_, ctx₁, hsegment, hbody⟩ := Fallible.bind_eq_some.mp henc
          have hseg := sameTable_rule.run (Encoder.segmentPrefix inst)
            (ctx.listingStartInstruction inst.lineNumber inst.originalLine)
          rw [hsegment] at hseg
          obtain ⟨ps, hps, hpe, -⟩ := run_eq_some hsegment
          rw [segmentPrefix_bytes hps, bytesOf_map_byte] at hpe
          rw [machineEncoder_directive (hkind ▸ Option.some_ne_none _)] at hbody
          have hbody : encodeDirective inst ctx₁ = (some (), ctx₂) := hbody
          rw [encodeDirective, hkind] at hbody
          obtain ⟨name, size, rest, hadds⟩ := encodeComm_adds hbody
          rw [hpe.address, haddress, List.length_nil, BitVec.add_zero] at hadds
          exact ⟨name, size, rest, hadds.of_same (hstart.trans hseg) (listingEnd_same ctx₂)⟩

theorem emitTextStatement_common {inst : ParsedInstruction} {ctx ctx' : AssemblerContext}
    (hkind : directiveKind inst.type = some .comm)
    (h : emitTextStatement inst ctx = (some (), ctx')) :
    ∃ name size rest, AddsCommon inst
      (ctx.currentAddress + BitVec.ofNat 64 (segmentBytes inst).length) name size rest ctx ctx' := by
  have hne : ∀ type, directiveKind type ≠ some .comm → inst.type ≠ type := by
    rintro type hother rfl
    exact hother hkind
  have hlabel : isLabelOnly inst = false := by
    simp [isLabelOnly, hne .nop (by decide)]
  have hcall : markCallTarget ctx inst = ctx := by
    rw [markCallTarget]
    split
    · rename_i htype _
      exact absurd htype (hne .call (by decide))
    · rfl
  rw [emitTextStatement, if_neg (hne .global (by decide)),
    if_neg (hne .externSym (by decide))] at h
  obtain ⟨_, ctx₁, hmark, h⟩ := Fallible.bind_eq_some.mp h
  cases hmark
  rw [hlabel, if_neg Bool.false_ne_true] at h
  obtain ⟨_, ctx₂, hmap, h⟩ := Fallible.bind_eq_some.mp h
  cases hmap
  obtain ⟨name, size, rest, hadds⟩ := encodeListed_common hkind h
  have hentry : SameTable ctx (addLineMapEntry (markCallTarget ctx inst) inst) := by
    rw [hcall, addLineMapEntry]
    split <;> exact ⟨rfl, rfl⟩
  have haddress : (addLineMapEntry (markCallTarget ctx inst) inst).currentAddress =
      ctx.currentAddress := by
    rw [hcall, addLineMapEntry]
    split <;> rfl
  rw [haddress] at hadds
  exact ⟨name, size, rest, hadds.of_same hentry (.refl ctx')⟩

theorem emitDataStatement_common {inst : ParsedInstruction} {ctx ctx' : AssemblerContext}
    (hkind : directiveKind inst.type = some .comm)
    (h : emitDataStatement inst ctx = (some (), ctx')) :
    ∃ name size rest, AddsCommon inst
      (ctx.currentAddress + BitVec.ofNat 64 (segmentBytes inst).length) name size rest ctx ctx' := by
  rw [emitDataStatement, hkind] at h
  exact encodeListed_common hkind h

theorem changes_declareExternal {marks : Label → Prop} (op : Operand) :
    Along (Changes marks fun _ _ => True) (declareExternal op) := by
  cases op with
  | label name => exact fun ctx => changes_addSymbol trivial _ _ _ ctx
  | none | reg _ _ | imm _ | mem _ | labelDiff _ _ | string _ =>
      exact (changes_rule _ _).pure ()

theorem declareExternals_settled {ops : List Operand} {name : Label} (hmem : .label name ∈ ops)
    {ctx ctx' : AssemblerContext} (hc : Consistent ctx)
    (h : each declareExternal ops ctx = (some (), ctx')) : Settled ctx' name := by
  induction ops generalizing ctx with
  | nil => cases hmem
  | cons op ops ih =>
      obtain ⟨_, ctx₁, hop, hrest⟩ := Fallible.bind_eq_some.mp h
      have hone : Changes (fun _ => True) (fun _ _ => True) ctx (declareExternal op ctx).2 :=
        changes_declareExternal op ctx
      have hmore := (changes_rule (fun _ => True) fun _ _ => True).each changes_declareExternal ops ctx₁
      rw [hop] at hone
      rw [hrest] at hmore
      rcases List.mem_cons.mp hmem with rfl | hmem
      · cases hop
        exact (addSymbol_settled hc name 0 false true (some .text)).changes
          (hone.consistent hc) hmore
      · exact ih hmem (hone.consistent hc) hrest

theorem emitTextStatement_settled {inst : ParsedInstruction} {name : Label}
    (hd : Declares inst name) {ctx ctx' : AssemblerContext} (hc : Consistent ctx)
    (h : emitTextStatement inst ctx = (some (), ctx')) : Settled ctx' name := by
  rcases hd with ⟨htype, hmem⟩ | hname
  · have hglobal : inst.type ≠ .global := by simp [htype]
    rw [emitTextStatement, if_neg hglobal, if_pos htype] at h
    exact declareExternals_settled hmem hc h
  · obtain ⟨_, _, _, hadds⟩ := emitTextStatement_common (commonName_eq_some.mp hname).1 h
    exact hadds.settled hc name hname

theorem emitDataStatement_settled {inst : ParsedInstruction} {name : Label}
    (hname : commonName inst = some name) {ctx ctx' : AssemblerContext}
    (hc : Consistent ctx) (h : emitDataStatement inst ctx = (some (), ctx')) :
    Settled ctx' name := by
  obtain ⟨_, _, _, hadds⟩ := emitDataStatement_common (commonName_eq_some.mp hname).1 h
  exact hadds.settled hc name hname

end X86Assembler
