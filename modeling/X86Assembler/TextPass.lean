import X86Assembler.Assemble
import X86Assembler.Emits

namespace X86Assembler

open CString (Byte)
open Fallible (each ignore stateAt)

theorem directiveKind_sectionChange {type : InstType} :
    directiveKind type = some .sectionChange ↔ type = .sectionDir := by
  cases type <;> simp [directiveKind]

section PlaceLabel

variable (ctx : AssemblerContext) (inst : ParsedInstruction)

theorem foldl_hashUpdate_rest (name : Label) (address : Word) (l : List Symbol)
    (start : AssemblerContext) :
    ∃ table, l.foldl (fun ctx' sym => if sym.name = name then
      symbolHashUpdate ctx' name address sym.isGlobal sym.isExternal sym.sect else ctx') start =
        { start with symbolHash := table } := by
  induction l generalizing start with
  | nil => exact ⟨start.symbolHash, rfl⟩
  | cons sym l ih =>
      rw [List.foldl_cons]
      split
      · obtain ⟨table, h⟩ := ih (symbolHashUpdate start name address sym.isGlobal sym.isExternal
          sym.sect)
        exact ⟨table, h⟩
      · exact ih start

theorem placeLabel_rest :
    ∃ symbols table, placeLabel ctx inst = { ctx with symbols := symbols, symbolHash := table } ∧
      symbols.length = ctx.symbols.length := by
  rw [placeLabel]
  split
  · exact ⟨_, _, rfl, rfl⟩
  · rename_i name _
    obtain ⟨table, h⟩ := foldl_hashUpdate_rest name ctx.currentAddress ctx.symbols
      (updateSymbols ctx name (Symbol.setAddress ctx.currentAddress))
    exact ⟨_, table, h, List.length_map _⟩

theorem placeLabel_output : (placeLabel ctx inst).output = ctx.output := by
  obtain ⟨symbols, table, h, -⟩ := placeLabel_rest ctx inst
  rw [h]
  rfl

theorem placeLabel_settings : (placeLabel ctx inst).settings = ctx.settings := by
  obtain ⟨symbols, table, h, -⟩ := placeLabel_rest ctx inst
  rw [h]
  rfl

theorem placeLabel_overflows : (placeLabel ctx inst).overflows = ctx.overflows := by
  obtain ⟨symbols, table, h, -⟩ := placeLabel_rest ctx inst
  rw [h]
  rfl

theorem placeLabel_length : (placeLabel ctx inst).symbols.length = ctx.symbols.length := by
  obtain ⟨symbols, table, h, hl⟩ := placeLabel_rest ctx inst
  rw [h]
  exact hl

theorem placeLabel_view (h : Consistent ctx) (name : Label) :
    (placeLabel ctx inst).view name =
      if inst.label = some name then
        (ctx.view name).map fun v => { v with address := ctx.currentAddress }
      else ctx.view name := by
  rw [placeLabel]
  cases inst.label with
  | none => rfl
  | some other =>
      simp only
      rw [moveLabel_view ctx other ctx.currentAddress h]
      by_cases heq : other = name
      · subst heq
        rw [if_pos rfl, if_pos rfl]
      · rw [if_neg heq, if_neg fun hsome => heq (Option.some.inj hsome)]

theorem consistent_placeLabel (h : Consistent ctx) : Consistent (placeLabel ctx inst) := by
  rw [placeLabel]
  split
  · exact h
  · exact consistent_moveLabel ctx _ _ h

end PlaceLabel

theorem placeLabel_keeps (ctx : AssemblerContext) (inst : ParsedInstruction) :
    TableKeeps ctx (placeLabel ctx inst) where
  consistent := consistent_placeLabel ctx inst
  known := fun h name hn => by
    rw [placeLabel_view ctx inst h]
    split
    · rwa [Option.isSome_map]
    · exact hn
  length_le := Nat.le_of_eq (placeLabel_length ctx inst).symm

theorem emits_of_symbols {ctx ctx' : AssemblerContext} {symbols : List Symbol}
    (h : ctx' = { ctx with symbols := symbols }) (hl : ctx.symbols.length ≤ symbols.length)
    (hc : Consistent ctx → Consistent ctx') (hv : ∀ name, ctx'.view name = ctx.view name) :
    Emits ctx ctx' [] [] 0 := by
  subst h
  exact .of_output rfl rfl ⟨hc, fun _ name v h => by rw [hv, h], hl⟩ rfl

theorem markGlobal_emits (ctx : AssemblerContext) (op : Operand) :
    Emits ctx (markGlobal ctx op) [] [] 0 := by
  cases op with
  | label name =>
      have hview := view_updateSymbols ctx name
        (fun sym => { sym with
          isGlobal := true, isFunction := sym.isFunction || sym.sect == some .text })
        (fun _ => rfl) fun _ => rfl
      refine emits_of_symbols rfl (Nat.le_of_eq (List.length_map _).symm) (fun h => ?_) hview
      exact consistent_updateSymbols name _ h (fun _ => rfl) fun _ => rfl
  | none | reg _ _ | imm _ | mem _ | labelDiff _ _ | string _ => exact .refl ctx

theorem markGlobals_emits (ops : List Operand) (ctx : AssemblerContext) :
    Emits ctx (ops.foldl markGlobal ctx) [] [] 0 := by
  induction ops generalizing ctx with
  | nil => exact .refl ctx
  | cons op ops ih => exact (markGlobal_emits ctx op).then (ih (markGlobal ctx op))

theorem declareExternals_emits {ops : List Operand} {ctx ctx' : AssemblerContext}
    (h : each declareExternal ops ctx = (some (), ctx')) : Emits ctx ctx' [] [] 0 := by
  induction ops generalizing ctx with
  | nil =>
      obtain ⟨-, rfl⟩ := Fallible.pure_eq_some.mp h
      exact .refl ctx
  | cons op ops ih =>
      obtain ⟨_, ctx₁, hop, h⟩ := Fallible.bind_eq_some.mp h
      refine Emits.then ?_ (ih h)
      cases op with
      | label name =>
          rw [declareExternal, Fallible.ignore_run] at hop
          cases hop
          exact addSymbol_emits _ _ _ _ _ _
      | none | reg _ _ | imm _ | mem _ | labelDiff _ _ | string _ =>
          obtain ⟨-, rfl⟩ := Fallible.pure_eq_some.mp hop
          exact .refl ctx

theorem find?_modifyFirst_view (p : Symbol → Bool) (f : Symbol → Symbol)
    (hf : ∀ sym, (f sym).name = sym.name ∧ (f sym).view = sym.view) (name : Label)
    (l : List Symbol) :
    ((HashChain.modifyFirst p f l).find? fun sym => sym.name == name).map Symbol.view =
      (l.find? fun sym => sym.name == name).map Symbol.view := by
  induction l with
  | nil => rfl
  | cons sym l ih =>
      rw [HashChain.modifyFirst]
      split
      · by_cases hn : sym.name = name
        · rw [List.find?_cons_of_pos (by simpa [(hf sym).1] using hn),
            List.find?_cons_of_pos (by simpa using hn)]
          exact congrArg some (hf sym).2
        · rw [List.find?_cons_of_neg (by simpa [(hf sym).1] using hn),
            List.find?_cons_of_neg (by simpa using hn)]
      · by_cases hn : sym.name = name
        · rw [List.find?_cons_of_pos (by simpa using hn),
            List.find?_cons_of_pos (by simpa using hn)]
        · rw [List.find?_cons_of_neg (by simpa using hn), ih,
            List.find?_cons_of_neg (by simpa using hn)]

theorem markCallTarget_emits (ctx : AssemblerContext) (inst : ParsedInstruction) :
    Emits ctx (markCallTarget ctx inst) [] [] 0 := by
  rw [markCallTarget]
  split
  · rename_i name rest _ _
    have hview := find?_modifyFirst_view (fun sym => sym.name == name && sym.sect == some .text)
      (fun sym => { sym with isFunction := true }) fun _ => ⟨rfl, rfl⟩
    refine emits_of_symbols rfl (Nat.le_of_eq (modifyFirst_length _ _ _).symm) (fun h => ?_)
      fun other => hview other ctx.symbols
    refine ⟨?_, fun other => ?_, h.resolved⟩
    · show ((HashChain.modifyFirst _ _ _).map Symbol.name).Nodup
      rw [names_modifyFirst (fun sym => { sym with isFunction := true }) fun _ => rfl]
      exact h.nodup
    · exact (h.agree other).trans (hview other ctx.symbols).symm
  · exact .refl ctx

theorem addLineMapEntry_emits (ctx : AssemblerContext) (inst : ParsedInstruction) :
    Emits ctx (addLineMapEntry ctx inst) [] [] 0 := by
  rw [addLineMapEntry]
  split
  · exact .of_output rfl rfl (.of_eq rfl rfl) rfl
  · exact .refl ctx

theorem listingStart_symbolHash (ctx : AssemblerContext) (line : Nat) (source : Text) :
    (ctx.listingStartInstruction line source).symbolHash = ctx.symbolHash := by
  rw [AssemblerContext.listingStartInstruction]
  split <;> rfl

theorem encodeListed_eq_some {what : String} {inst : ParsedInstruction}
    {ctx ctx' : AssemblerContext} (h : encodeListed what inst ctx = (some (), ctx')) :
    ∃ ctx₁ ctx₂, Emits ctx ctx₁ [] [] 0 ∧ ctx₁.symbolHash = ctx.symbolHash ∧
      encodeInstruction inst ctx₁ = (some (), ctx₂) ∧ Emits ctx₂ ctx' [] [] 0 := by
  rw [encodeListed] at h
  cases henc : encodeInstruction inst
      (ctx.listingStartInstruction inst.lineNumber inst.originalLine) with
  | mk r ctx₂ =>
      rw [henc] at h
      cases r with
      | none => cases h
      | some _ =>
          cases h
          exact ⟨_, ctx₂, listingStart_emits _ _ _, listingStart_symbolHash _ _ _, henc,
            listingEnd_emits ctx₂⟩

theorem encodeEnv_congr {ctx ctx' : AssemblerContext} (h : Emits ctx ctx' [] [] 0)
    (hhash : ctx'.symbolHash = ctx.symbolHash) : ctx'.encodeEnv = ctx.encodeEnv := by
  have hnone : Emits ctx ctx' (bytesOf []) [] 0 := h
  rw [encodeEnv_after hnone hhash, EncodeEnv.after]
  simp

/-- The statements that the text pass does not hand to `encode_instruction`. -/
def isUnencoded (inst : ParsedInstruction) : Bool :=
  inst.type == .global || inst.type == .externSym || isLabelOnly inst

theorem emitTextStatement_unencoded {inst : ParsedInstruction} {ctx ctx' : AssemblerContext}
    (hu : isUnencoded inst = true) (h : emitTextStatement inst ctx = (some (), ctx')) :
    Emits ctx ctx' [] [] 0 := by
  rw [emitTextStatement] at h
  by_cases hglobal : inst.type = .global
  · rw [if_pos hglobal] at h
    cases h
    exact markGlobals_emits _ _
  · rw [if_neg hglobal] at h
    by_cases hextern : inst.type = .externSym
    · rw [if_pos hextern] at h
      exact declareExternals_emits h
    · rw [if_neg hextern] at h
      have hlabel : isLabelOnly inst = true := by
        simpa [isUnencoded, hglobal, hextern] using hu
      obtain ⟨_, ctx₁, hmark, h⟩ := Fallible.bind_eq_some.mp h
      rw [Fallible.modify_run] at hmark
      cases hmark
      rw [if_pos hlabel] at h
      obtain ⟨-, rfl⟩ := Fallible.pure_eq_some.mp h
      exact markCallTarget_emits ctx inst

theorem emitTextStatement_encoded {inst : ParsedInstruction} {ctx ctx' : AssemblerContext}
    (hu : isUnencoded inst = false) (h : emitTextStatement inst ctx = (some (), ctx')) :
    ∃ ctx₁ ctx₂, Emits ctx ctx₁ [] [] 0 ∧ ctx₁.symbolHash = ctx.symbolHash ∧
      encodeInstruction inst ctx₁ = (some (), ctx₂) ∧ Emits ctx₂ ctx' [] [] 0 := by
  simp only [isUnencoded, Bool.or_eq_false_iff, beq_eq_false_iff_ne] at hu
  obtain ⟨⟨hglobal, hextern⟩, hlabel⟩ := hu
  rw [emitTextStatement, if_neg hglobal, if_neg hextern] at h
  obtain ⟨_, ctx₁, hmark, h⟩ := Fallible.bind_eq_some.mp h
  rw [Fallible.modify_run] at hmark
  cases hmark
  rw [if_neg (by simp [hlabel])] at h
  obtain ⟨_, ctx₂, hmap, h⟩ := Fallible.bind_eq_some.mp h
  rw [Fallible.modify_run] at hmap
  cases hmap
  obtain ⟨ctx₃, ctx₄, he, hhash, henc, he'⟩ := encodeListed_eq_some h
  refine ⟨ctx₃, ctx₄, ?_, hhash.trans ?_, henc, he'⟩
  · exact ((markCallTarget_emits ctx inst).then (addLineMapEntry_emits _ inst)).then he
  · rw [addLineMapEntry, markCallTarget]
    split <;> split <;> rfl

/-- A machine instruction in the text section: everything its encoder emits arrives. -/
theorem emitTextStatement_machine {inst : ParsedInstruction}
    {encode : ParsedInstruction → Encoder Unit} {ctx ctx' : AssemblerContext}
    (hm : Encoder.machineEncoder inst.type = some encode) (hl : isLabelOnly inst = false)
    (h : emitTextStatement inst ctx = (some (), ctx')) :
    ∃ es, Encoder.statement encode inst ctx.encodeEnv = (es, .ok ()) ∧
      Emits ctx ctx' (bytesOf es) (fixupsOf ctx.currentAddress es) 0 := by
  have hu : isUnencoded inst = false := by
    rw [isUnencoded, hl, Bool.or_false]
    cases ht : inst.type <;> first
      | rfl
      | (rw [ht] at hm; cases hm)
  obtain ⟨ctx₁, ctx₂, he₁, hhash, henc, he₂⟩ := emitTextStatement_encoded hu h
  obtain ⟨es, hes, hee⟩ := encodeInstruction_machine hm henc
  rw [encodeEnv_congr he₁ hhash] at hes
  rw [he₁.address, List.length_nil, BitVec.add_zero] at hee
  exact ⟨es, hes, he₁.then (hee.and_then he₂)⟩

theorem Requests.of_emits {a b c d : AssemblerContext} {bs : List Byte}
    (hab : Emits a b [] [] 0) (hbc : Requests b c bs) (hcd : Emits c d [] [] 0) :
    Requests a d bs := by
  have h := (hab.requests.trans hbc).trans hcd.requests
  rwa [List.nil_append, List.append_nil] at h

/-- A directive in the text section, after the segment override that its operands may ask
for. -/
theorem emitTextStatement_directive {inst : ParsedInstruction} {ctx ctx' : AssemblerContext}
    (hm : Encoder.machineEncoder inst.type = none) (hs : inst.type ≠ .sectionDir)
    (hu : isUnencoded inst = false) (h : emitTextStatement inst ctx = (some (), ctx')) :
    ∃ ctx₁ bs, Emits ctx ctx₁ (segmentBytes inst) [] 0 ∧ directiveBytes ctx₁ inst = some bs ∧
      Requests ctx₁ ctx' bs := by
  obtain ⟨ctx₁, ctx₂, he₁, -, henc, he₂⟩ := emitTextStatement_encoded hu h
  obtain ⟨ctx₃, bs, hseg, hbs, hreq⟩ := encodeInstruction_directive hm
    (fun hk => hs (directiveKind_sectionChange.mp hk)) henc
  exact ⟨ctx₃, bs, he₁.then hseg, hbs, Requests.of_emits (.refl _) hreq he₂⟩

theorem emitTextStatement_emits {inst : ParsedInstruction} {ctx ctx' : AssemblerContext}
    (hs : inst.type ≠ .sectionDir) (h : emitTextStatement inst ctx = (some (), ctx')) :
    ∃ bs fs lost, Emits ctx ctx' bs fs lost := by
  cases hu : isUnencoded inst with
  | true => exact ⟨_, _, _, emitTextStatement_unencoded hu h⟩
  | false =>
      cases hm : Encoder.machineEncoder inst.type with
      | some encode =>
          have hl : isLabelOnly inst = false := by
            simp only [isUnencoded, Bool.or_eq_false_iff] at hu
            exact hu.2
          obtain ⟨es, -, he⟩ := emitTextStatement_machine hm hl h
          exact ⟨_, _, _, he⟩
      | none =>
          obtain ⟨ctx₁, bs, hseg, -, hreq⟩ := emitTextStatement_directive hm hs hu h
          exact ⟨_, _, _, hseg.trans hreq⟩

/-- The statements that a text pass lays out when the text section is the current one. -/
def isTextStatement (inst : ParsedInstruction) : Bool :=
  inst.type != .sectionDir && inst.type != .weak && inst.type != .hidden

theorem collectAttributes_same {inst : ParsedInstruction} {ops : List Operand}
    {st st' : TextPassState} {ctx ctx' : AssemblerContext}
    (h : collectAttributes inst st ops ctx = (some st', ctx')) :
    ctx' = ctx ∧ st'.layoutChanged = st.layoutChanged := by
  induction ops generalizing st with
  | nil =>
      obtain ⟨rfl, rfl⟩ := Fallible.pure_eq_some.mp h
      exact ⟨rfl, rfl⟩
  | cons op ops ih =>
      obtain ⟨st₁, ctx₁, hop, h⟩ := Fallible.bind_eq_some.mp h
      have hone : ctx₁ = ctx ∧ st₁.layoutChanged = st.layoutChanged := by
        cases op with
        | label name =>
            rw [collectAttribute] at hop
            split at hop
            · split at hop
              · exact absurd hop reportError_ne_some
              · obtain ⟨rfl, rfl⟩ := Fallible.pure_eq_some.mp hop
                exact ⟨rfl, rfl⟩
            · split at hop
              · exact absurd hop reportError_ne_some
              · obtain ⟨rfl, rfl⟩ := Fallible.pure_eq_some.mp hop
                exact ⟨rfl, rfl⟩
        | none | reg _ _ | imm _ | mem _ | labelDiff _ _ | string _ =>
            exact absurd hop reportError_ne_some
      rw [hone.1] at h
      obtain ⟨hctx, hst⟩ := ih h
      exact ⟨hctx, hst.trans hone.2⟩

def textRewrite (ctx : AssemblerContext) (inst : ParsedInstruction) : ParsedInstruction :=
  rewriteConstantLabelOperands (placeLabel ctx inst) { inst with address := ctx.currentAddress }

theorem textStep_cases {st st' : TextPassState} {inst inst' : ParsedInstruction}
    {ctx ctx' : AssemblerContext}
    (h : textStep st inst ctx = (some (st', inst'), ctx')) :
    (inst.type = .sectionDir ∧ ctx' = applySectionDirective ctx inst ∧ inst' = inst ∧
      st'.layoutChanged = st.layoutChanged) ∨
    (inst.type ≠ .sectionDir ∧ (isTextStatement inst = false ∨ ctx.currentSection = .data) ∧
      ctx' = ctx ∧ inst' = inst ∧ st'.layoutChanged = st.layoutChanged) ∨
    (isTextStatement inst = true ∧ ctx.currentSection = .text ∧ inst' = textRewrite ctx inst ∧
      emitTextStatement inst' (placeLabel ctx inst) = (some (), ctx') ∧
      st'.layoutChanged = (st.layoutChanged || labelMoves ctx inst)) := by
  rw [textStep, Fallible.bind_run, Fallible.get_run] at h
  simp only at h
  split at h
  · rename_i ht
    obtain ⟨_, ctx₁, hmod, h⟩ := Fallible.bind_eq_some.mp h
    cases hmod
    obtain ⟨hpair, rfl⟩ := Fallible.pure_eq_some.mp h
    cases hpair
    exact .inl ⟨ht, rfl, rfl, rfl⟩
  · rename_i ht
    split at h
    · rename_i hattr
      obtain ⟨st₁, ctx₁, hcol, h⟩ := Fallible.bind_eq_some.mp h
      obtain ⟨hpair, rfl⟩ := Fallible.pure_eq_some.mp h
      cases hpair
      obtain ⟨hctx, hst⟩ := collectAttributes_same hcol
      refine .inr (.inl ⟨ht, .inl ?_, hctx, rfl, hst⟩)
      rcases Bool.or_eq_true_iff.mp hattr with hw | hh
      · simp [isTextStatement, of_decide_eq_true hw]
      · simp [isTextStatement, of_decide_eq_true hh]
    · rename_i hattr
      split at h
      · rename_i hdata
        obtain ⟨hpair, rfl⟩ := Fallible.pure_eq_some.mp h
        cases hpair
        exact .inr (.inl ⟨ht, .inr hdata, rfl, rfl, rfl⟩)
      · rename_i hdata
        have htext : ctx.currentSection = .text := by
          cases hs : ctx.currentSection with
          | text => rfl
          | data => exact absurd hs hdata
        obtain ⟨_, ctx₁, hmod, h⟩ := Fallible.bind_eq_some.mp h
        cases hmod
        obtain ⟨_, ctx₂, hemit, h⟩ := Fallible.bind_eq_some.mp h
        obtain ⟨hpair, rfl⟩ := Fallible.pure_eq_some.mp h
        cases hpair
        refine .inr (.inr ⟨?_, htext, rfl, hemit, rfl⟩)
        simp only [Bool.or_eq_true, decide_eq_true_eq, not_or] at hattr
        simp [isTextStatement, ht, hattr.1, hattr.2]

def sectionStep (sect : SectionId) (inst : ParsedInstruction) : SectionId :=
  if inst.type = .sectionDir then sectionAfterDirective sect inst else sect

/-- The section in which the statement at a position stands. -/
def sectionBefore (insts : List ParsedInstruction) (i : Nat) : SectionId :=
  (insts.take i).foldl sectionStep .text

theorem sectionBefore_succ {insts : List ParsedInstruction} {i : Nat} {inst : ParsedInstruction}
    (h : insts[i]? = some inst) :
    sectionBefore insts (i + 1) = sectionStep (sectionBefore insts i) inst := by
  rw [sectionBefore, List.take_add_one, h, List.foldl_append]
  rfl

/-- The context in which a text pass reaches the statement at a position. -/
def textAt (insts : List ParsedInstruction) (ctx : AssemblerContext) (i : Nat) :
    AssemblerContext := stateAt textStep {} insts ctx i

structure PassStart (ctx : AssemblerContext) : Prop where
  text : ctx.textSection = []
  fixups : ctx.fixups = []
  sect : ctx.currentSection = .text
  address : ctx.currentAddress = ctx.baseAddress

theorem passStart_reset (ctx : AssemblerContext) : PassStart (resetForTextPass ctx) :=
  ⟨rfl, rfl, rfl, rfl⟩

section TextRun

variable {insts out : List ParsedInstruction} {ctx ctx' : AssemblerContext} {st : TextPassState}

theorem textAt_zero : textAt insts ctx 0 = ctx := rfl

theorem textAt_length (h : textPass {} insts ctx = (some (st, out), ctx')) :
    textAt insts ctx insts.length = ctx' := Fallible.stateAt_length h

theorem textAt_sect (h : textPass {} insts ctx = (some (st, out), ctx')) (hs : PassStart ctx)
    {i : Nat} (hi : i ≤ insts.length) :
    (textAt insts ctx i).currentSection = sectionBefore insts i := by
  refine Fallible.walk_invariant h (fun i c => c.currentSection = sectionBefore insts i) hs.sect
    (fun i inst t₁ t₂ b hget _ hstep ih => ?_) hi
  rw [sectionBefore_succ hget, sectionStep, ← ih]
  rcases textStep_cases hstep with ⟨ht, hctx, -, -⟩ | ⟨ht, -, hctx, -, -⟩ |
    ⟨ht, hsect, rfl, hemit, -⟩
  · rw [if_pos ht, hctx]
    rfl
  · rw [if_neg ht, hctx]
  · have hne : inst.type ≠ .sectionDir := by
      intro heq
      simp [isTextStatement, heq] at ht
    have hne' : (textRewrite (stateAt textStep {} insts ctx i) inst).type ≠ .sectionDir := hne
    obtain ⟨bs, fs, lost, he⟩ := emitTextStatement_emits hne' hemit
    rw [if_neg hne, he.sect]
    exact congrArg Output.sect (placeLabel_output _ inst)

structure InText (insts : List ParsedInstruction) (i : Nat) (inst : ParsedInstruction) : Prop where
  get : insts[i]? = some inst
  statement : isTextStatement inst = true
  sect : sectionBefore insts i = .text

theorem InText.lt {i : Nat} {inst : ParsedInstruction} (hi : InText insts i inst) :
    i < insts.length := (List.getElem?_eq_some_iff.mp hi.get).1

theorem InText.not_section {i : Nat} {inst : ParsedInstruction} (hi : InText insts i inst) :
    inst.type ≠ .sectionDir := by
  intro heq
  have ht := hi.statement
  simp [isTextStatement, heq] at ht

theorem textAt_step (h : textPass {} insts ctx = (some (st, out), ctx')) (hs : PassStart ctx)
    {i : Nat} {inst : ParsedInstruction} (hi : InText insts i inst) :
    out[i]? = some (textRewrite (textAt insts ctx i) inst) ∧
      emitTextStatement (textRewrite (textAt insts ctx i) inst)
        (placeLabel (textAt insts ctx i) inst) = (some (), textAt insts ctx (i + 1)) := by
  obtain ⟨t₁, t₂, b, hb, hstep⟩ := Fallible.walk_step h hi.get
  have hsect := textAt_sect h hs (Nat.le_of_lt hi.lt)
  rcases textStep_cases hstep with ⟨ht, -⟩ | ⟨-, hskip, -⟩ | ⟨-, -, rfl, hemit, -⟩
  · exact absurd ht hi.not_section
  · rcases hskip with hskip | hskip
    · rw [hi.statement] at hskip
      cases hskip
    · have hdata : (textAt insts ctx i).currentSection = .data := hskip
      rw [hsect, hi.sect] at hdata
      cases hdata
  · exact ⟨hb, hemit⟩

theorem textPass_unmoved (h : textPass {} insts ctx = (some (st, out), ctx')) (hs : PassStart ctx)
    (hst : st.layoutChanged = false) {i : Nat} {inst : ParsedInstruction} (hi : InText insts i inst) :
    labelMoves (textAt insts ctx i) inst = false := by
  have hback : ∀ t a c t' b c', textStep t a c = (some (t', b), c') → t'.layoutChanged = false →
      t.layoutChanged = false := by
    intro t a c t' b c' hstep ht'
    rcases textStep_cases hstep with ⟨-, -, -, hsame⟩ | ⟨-, -, -, -, hsame⟩ | ⟨-, -, -, -, hmore⟩
    · exact hsame.symm.trans ht'
    · exact hsame.symm.trans ht'
    · rw [hmore, Bool.or_eq_false_iff] at ht'
      exact ht'.1
  obtain ⟨t₁, t₂, b, hstep, ht₂⟩ := (Fallible.walk_step_back hback h hst).2 i inst hi.get
  rcases textStep_cases hstep with ⟨ht, -⟩ | ⟨-, hskip, -⟩ | ⟨-, -, -, -, hmore⟩
  · exact absurd ht hi.not_section
  · rcases hskip with hskip | hskip
    · cases hskip.symm.trans hi.statement
    · have hdata : (textAt insts ctx i).currentSection = .data := hskip
      rw [textAt_sect h hs (Nat.le_of_lt hi.lt), hi.sect] at hdata
      cases hdata
  · rw [hmore, Bool.or_eq_false_iff] at ht₂
    exact ht₂.2

theorem textAt_emits (h : textPass {} insts ctx = (some (st, out), ctx')) (hs : PassStart ctx)
    {i : Nat} {inst : ParsedInstruction} (hi : InText insts i inst) :
    ∃ bs fs lost, Emits (placeLabel (textAt insts ctx i) inst) (textAt insts ctx (i + 1))
      bs fs lost := by
  have hne : (textRewrite (textAt insts ctx i) inst).type ≠ .sectionDir := hi.not_section
  exact emitTextStatement_emits hne (textAt_step h hs hi).2

theorem textAt_skip (h : textPass {} insts ctx = (some (st, out), ctx')) (hs : PassStart ctx)
    {i : Nat} {inst : ParsedInstruction} (hget : insts[i]? = some inst)
    (hi : ¬ InText insts i inst) :
    out[i]? = some inst ∧ textAt insts ctx (i + 1) =
      { textAt insts ctx i with currentSection := sectionBefore insts (i + 1) } := by
  have hlt : i < insts.length := (List.getElem?_eq_some_iff.mp hget).1
  obtain ⟨t₁, t₂, b, hb, hstep⟩ := Fallible.walk_step h hget
  have hsect := textAt_sect h hs (Nat.le_of_lt hlt)
  rw [sectionBefore_succ hget, sectionStep, ← hsect]
  rcases textStep_cases hstep with ⟨ht, hctx, rfl, -⟩ | ⟨ht, -, hctx, rfl, -⟩ | ⟨ht, htext, -⟩
  · rw [if_pos ht]
    exact ⟨hb, hctx⟩
  · rw [if_neg ht]
    exact ⟨hb, hctx⟩
  · have htext : (textAt insts ctx i).currentSection = .text := htext
    exact absurd ⟨hget, ht, hsect.symm.trans htext⟩ hi

/-- Between two positions of a text pass the text section and the fixups grow, the location
counter follows the text section, and everything else stays. -/
structure TextGrows (a b : AssemblerContext) : Prop where
  text : ∃ bs, b.textSection = a.textSection ++ bs ∧
    b.currentAddress = a.currentAddress + BitVec.ofNat 64 bs.length
  fixups : ∃ fs, b.fixups = a.fixups ++ fs
  settings : b.settings = a.settings
  data : b.dataSection = a.dataSection
  table : TableKeeps a b

theorem TextGrows.refl (a : AssemblerContext) : TextGrows a a :=
  ⟨⟨[], by simp⟩, ⟨[], by simp⟩, rfl, rfl, .of_eq rfl rfl⟩

theorem TextGrows.trans {a b c : AssemblerContext} (hab : TextGrows a b) (hbc : TextGrows b c) :
    TextGrows a c := by
  obtain ⟨bs, ht, ha⟩ := hab.text
  obtain ⟨cs, ht', ha'⟩ := hbc.text
  obtain ⟨fs, hf⟩ := hab.fixups
  obtain ⟨gs, hg⟩ := hbc.fixups
  refine ⟨⟨bs ++ cs, by rw [ht', ht, List.append_assoc], ?_⟩,
    ⟨fs ++ gs, by rw [hg, hf, List.append_assoc]⟩, hbc.settings.trans hab.settings,
    hbc.data.trans hab.data, hab.table.trans hbc.table⟩
  rw [ha', ha, List.length_append, BitVec.ofNat_add, BitVec.add_assoc]

theorem placeLabel_text (inst : ParsedInstruction) (a : AssemblerContext) :
    (placeLabel a inst).textSection = a.textSection ∧
      (placeLabel a inst).currentAddress = a.currentAddress ∧
      (placeLabel a inst).fixups = a.fixups ∧ (placeLabel a inst).dataSection = a.dataSection ∧
      (placeLabel a inst).currentSection = a.currentSection := by
  have ho := placeLabel_output a inst
  exact ⟨congrArg Output.text ho, congrArg Output.address ho, congrArg Output.fixups ho,
    congrArg Output.data ho, congrArg Output.sect ho⟩

theorem textGrows_step (h : textPass {} insts ctx = (some (st, out), ctx')) (hs : PassStart ctx)
    {i : Nat} (hi : i < insts.length) :
    TextGrows (textAt insts ctx i) (textAt insts ctx (i + 1)) := by
  have hget : insts[i]? = some insts[i] := List.getElem?_eq_getElem hi
  by_cases hin : InText insts i insts[i]
  · obtain ⟨bs, fs, lost, he⟩ := textAt_emits h hs hin
    obtain ⟨htext, haddr, hfix, hdata, hsect⟩ := placeLabel_text insts[i] (textAt insts ctx i)
    have hsect : (placeLabel (textAt insts ctx i) insts[i]).currentSection = .text := by
      rw [hsect, textAt_sect h hs (Nat.le_of_lt hi), hin.sect]
    refine ⟨⟨bs, ?_, ?_⟩, ⟨fs, ?_⟩, ?_, ?_, (placeLabel_keeps _ _).trans he.table.keeps⟩
    · rw [he.text_of_text hsect, htext]
    · rw [he.address, haddr]
    · rw [he.fixups, hfix]
    · rw [he.settings, placeLabel_settings]
    · rw [he.data_of_text hsect, hdata]
  · rw [(textAt_skip h hs hget hin).2]
    exact ⟨⟨[], by simp⟩, ⟨[], by simp⟩, rfl, rfl, .of_eq rfl rfl⟩

theorem textGrows_between (h : textPass {} insts ctx = (some (st, out), ctx'))
    (hs : PassStart ctx) {i j : Nat} (hij : i ≤ j) (hj : j ≤ insts.length) :
    TextGrows (textAt insts ctx i) (textAt insts ctx j) :=
  Fallible.walk_between h TextGrows TextGrows.refl TextGrows.trans hij hj
    fun k _ _ _ _ _ hkj _ _ _ => textGrows_step h hs (by omega)

theorem textAt_address (h : textPass {} insts ctx = (some (st, out), ctx')) (hs : PassStart ctx)
    {i : Nat} (hi : i ≤ insts.length) :
    (textAt insts ctx i).currentAddress =
      ctx.baseAddress + BitVec.ofNat 64 (textAt insts ctx i).textSection.length := by
  obtain ⟨bs, ht, ha⟩ := (textGrows_between h hs (Nat.zero_le i) hi).text
  rw [textAt_zero] at ht ha
  rw [ha, ht, hs.text, hs.address, List.nil_append]

theorem textAt_fits (h : textPass {} insts ctx = (some (st, out), ctx')) (hs : PassStart ctx)
    {i : Nat} (hi : i ≤ insts.length) :
    (textAt insts ctx i).textSection.length ≤ ctx.textCapacity.toNat := by
  induction i with
  | zero => rw [textAt_zero, hs.text]; exact Nat.zero_le _
  | succ i ih =>
      have hget : insts[i]? = some insts[i] := List.getElem?_eq_getElem hi
      have hprev := ih (Nat.le_of_succ_le hi)
      by_cases hin : InText insts i insts[i]
      · obtain ⟨bs, fs, lost, he⟩ := textAt_emits h hs hin
        obtain ⟨htext, -, -, -, hsect⟩ := placeLabel_text insts[i] (textAt insts ctx i)
        have hsect : (placeLabel (textAt insts ctx i) insts[i]).currentSection = .text := by
          rw [hsect, textAt_sect h hs (Nat.le_of_succ_le hi), hin.sect]
        have hcap : (placeLabel (textAt insts ctx i) insts[i]).textCapacity = ctx.textCapacity := by
          have hg := (textGrows_between h hs (Nat.zero_le i) (Nat.le_of_succ_le hi)).settings
          exact congrArg Settings.textCapacity ((placeLabel_settings _ _).trans hg)
        have hfits := he.fits
        simp only [AssemblerContext.room, AssemblerContext.capacity, AssemblerContext.buffer,
          hsect, hcap, htext] at hfits
        rw [he.text_of_text hsect, htext, List.length_append]
        omega
      · rw [(textAt_skip h hs hget hin).2]
        exact hprev

/-- A label does not move exactly when it lies where the table has it. -/
theorem labelMoves_eq_false_iff {ctx : AssemblerContext} {inst : ParsedInstruction} {name : Label}
    {v : SymbolView} (hc : Consistent ctx) (hl : inst.label = some name)
    (hv : ctx.view name = some v) : labelMoves ctx inst = false ↔ v.address = ctx.currentAddress := by
  rw [labelMoves, hl]
  simp only [List.any_eq_false, Bool.and_eq_true, beq_iff_eq, bne_iff_ne, not_and, not_not]
  constructor
  · intro hstill
    obtain ⟨sym, hsym, rfl⟩ := Option.map_eq_some_iff.mp hv
    exact hstill sym (List.mem_of_find?_eq_some hsym) (by simpa using List.find?_some hsym)
  · rintro hat sym hsym rfl
    cases (view_of_mem hc hsym).symm.trans hv
    exact hat

theorem placeLabel_view_unmoved {ctx : AssemblerContext} {inst : ParsedInstruction} {name : Label}
    {v : SymbolView} (hc : Consistent ctx) (hv : ctx.view name = some v)
    (h : inst.label = some name → labelMoves ctx inst = false) :
    (placeLabel ctx inst).view name = some v := by
  rw [placeLabel_view _ _ hc, hv]
  by_cases hl : inst.label = some name
  · rw [if_pos hl, Option.map_some, ← (labelMoves_eq_false_iff hc hl hv).mp (h hl)]
  · rw [if_neg hl]

theorem textAt_view_unmoved (h : textPass {} insts ctx = (some (st, out), ctx'))
    (hs : PassStart ctx) (hc : Consistent ctx) {i j : Nat} (hij : i ≤ j) (hj : j ≤ insts.length)
    {name : Label} {v : SymbolView} (hv : (textAt insts ctx i).view name = some v)
    (hname : ∀ k inst, i ≤ k → k < j → InText insts k inst → inst.label = some name →
      labelMoves (textAt insts ctx k) inst = false) :
    (textAt insts ctx j).view name = some v := by
  have hkeep : ∀ k, i ≤ k → k ≤ j → (textAt insts ctx k).view name = some v := by
    intro k hik hkj
    induction hik with
    | refl => exact hv
    | @step k hik ih =>
        have hlt : k < insts.length := by omega
        have hget : insts[k]? = some insts[k] := List.getElem?_eq_getElem hlt
        have hprev := ih (by omega)
        have hck : Consistent (textAt insts ctx k) :=
          (textGrows_between h hs (Nat.zero_le k) (Nat.le_of_lt hlt)).table.consistent hc
        by_cases hin : InText insts k insts[k]
        · obtain ⟨bs, fs, lost, he⟩ := textAt_emits h hs hin
          exact he.table.kept (consistent_placeLabel _ _ hck) name v
            (placeLabel_view_unmoved hck hprev (hname k _ hik (by omega) hin))
        · rw [(textAt_skip h hs hget hin).2]
          exact hprev
  exact hkeep j hij (Nat.le_refl j)

theorem textAt_view_placed (h : textPass {} insts ctx = (some (st, out), ctx'))
    (hs : PassStart ctx) (hc : Consistent ctx) {i : Nat} {inst : ParsedInstruction}
    (hi : InText insts i inst) {name : Label} (hl : inst.label = some name) {v : SymbolView}
    (hv : (textAt insts ctx i).view name = some v) :
    (textAt insts ctx (i + 1)).view name =
      some { v with address := (textAt insts ctx i).currentAddress } := by
  have hci : Consistent (textAt insts ctx i) :=
    (textGrows_between h hs (Nat.zero_le i) (Nat.le_of_lt hi.lt)).table.consistent hc
  obtain ⟨bs, fs, lost, he⟩ := textAt_emits h hs hi
  refine he.table.kept (consistent_placeLabel _ _ hci) name _ ?_
  rw [placeLabel_view _ _ hci, if_pos hl, hv]
  rfl

end TextRun

end X86Assembler
