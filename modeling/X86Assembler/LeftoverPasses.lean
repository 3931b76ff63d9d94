import X86Assembler.LeftoverSymbols
import X86Assembler.TextPass

namespace X86Assembler

open CString (Byte)
open Fallible (Alike Matched Returns ignore each)
open Encoder (Confined)

/-- Contexts beside each other that write into a section that is seen. -/
structure Writing (old : List Symbol) (defined : List Label) (seen : SectionId → Prop)
    (a b : AssemblerContext) : Prop extends Beside old defined seen a b where
  writes : seen b.currentSection

section Emission

variable {old : List Symbol} {defined : List Label} {seen : SectionId → Prop}
  {inst : ParsedInstruction} {a b : AssemblerContext}

theorem Writing.buffer (h : Writing old defined seen a b) : a.buffer = b.buffer := by
  have hwrites := h.writes
  rw [AssemblerContext.buffer, AssemblerContext.buffer, h.outputs.sect]
  cases hs : b.currentSection with
  | text =>
      rw [hs] at hwrites
      exact h.outputs.text hwrites
  | data =>
      rw [hs] at hwrites
      exact h.outputs.data hwrites

theorem Writing.capacity (h : Writing old defined seen a b) : a.capacity = b.capacity := by
  rw [AssemblerContext.capacity, AssemblerContext.capacity, h.outputs.sect, h.outputs.sizes.1,
    h.outputs.sizes.2, h.outputs.sizes'.1, h.outputs.sizes'.2]

theorem Writing.congr {a' b' : AssemblerContext} (h : Writing old defined seen a b)
    (ha : a'.output = a.output ∧ a'.settings = a.settings ∧ a'.symbols = a.symbols ∧
      a'.symbolHash = a.symbolHash)
    (hb : b'.output = b.output ∧ b'.settings = b.settings ∧ b'.symbols = b.symbols ∧
      b'.symbolHash = b.symbolHash) : Writing old defined seen a' b' := by
  refine ⟨h.toBeside.congr ha hb, ?_⟩
  rw [show b'.currentSection = b.currentSection from congrArg Output.sect hb.1]
  exact h.writes

theorem Writing.report (h : Writing old defined seen a b) (d d' : Diagnostic) :
    Writing old defined seen (a.report d) (b.report d') :=
  h.congr ⟨rfl, rfl, rfl, rfl⟩ ⟨rfl, rfl, rfl, rfl⟩

theorem pushByte_text {ctx : AssemblerContext} (byte : Byte) (h : ctx.currentSection = .text) :
    ctx.pushByte byte = { ctx with
      textSection := ctx.textSection ++ [byte], currentAddress := ctx.currentAddress + 1 } := by
  rw [AssemblerContext.pushByte, h]

theorem pushByte_data {ctx : AssemblerContext} (byte : Byte) (h : ctx.currentSection = .data) :
    ctx.pushByte byte = { ctx with
      dataSection := ctx.dataSection ++ [byte], currentAddress := ctx.currentAddress + 1 } := by
  rw [AssemblerContext.pushByte, h]

theorem Writing.pushByte (h : Writing old defined seen a b) (byte : Byte) :
    Writing old defined seen (a.pushByte byte) (b.pushByte byte) := by
  have haddress := congrArg (· + 1) h.outputs.address
  have hwrites := h.writes
  cases hs : b.currentSection with
  | text =>
      rw [hs] at hwrites
      have htext := congrArg (· ++ [byte]) (h.outputs.text hwrites)
      rw [pushByte_text byte hs, pushByte_text byte (h.outputs.sect.trans hs)]
      exact ⟨⟨h.tables.congr rfl rfl rfl rfl, h.invariant.congr rfl rfl, { h.outputs with
        text := fun _ => htext, address := haddress }⟩, h.writes⟩
  | data =>
      rw [hs] at hwrites
      have hdata := congrArg (· ++ [byte]) (h.outputs.data hwrites)
      rw [pushByte_data byte hs, pushByte_data byte (h.outputs.sect.trans hs)]
      exact ⟨⟨h.tables.congr rfl rfl rfl rfl, h.invariant.congr rfl rfl, { h.outputs with
        data := fun _ => hdata, address := haddress }⟩, h.writes⟩

theorem listingEmitByte_frame (ctx : AssemblerContext) (byte : Byte) :
    (ctx.listingEmitByte byte).output = ctx.output ∧
      (ctx.listingEmitByte byte).settings = ctx.settings ∧
      (ctx.listingEmitByte byte).symbols = ctx.symbols ∧
      (ctx.listingEmitByte byte).symbolHash = ctx.symbolHash := by
  obtain ⟨ho, hs, hsym, hhash, -⟩ := listingEmitByte_output ctx byte
  exact ⟨ho, hs, hsym, hhash⟩

theorem emitByte_alike (byte : Byte) :
    Alike (Writing old defined seen) (emitByte byte) (emitByte byte) := by
  intro a b h
  unfold Matched
  rw [emitByte, emitByte, h.buffer, h.capacity]
  split
  · exact ⟨rfl, (h.pushByte byte).congr (listingEmitByte_frame _ byte) (listingEmitByte_frame _ byte)⟩
  · exact ⟨rfl, h.report _ _⟩

theorem emitUnchecked_alike (bs : List Byte) :
    Alike (Writing old defined seen) (emitUnchecked bs) (emitUnchecked bs) := by
  induction bs with
  | nil => exact .pure ()
  | cons byte bs ih => exact (emitByte_alike byte).ignore.bind fun _ => ih

theorem reportError_writing {α : Type} (d : Diagnostic) :
    Alike (Writing old defined seen) (reportError d : Asm α) (reportError d) :=
  fun _ _ h => ⟨rfl, h.report d d⟩

variable (hseen : seen .text)

include hseen

theorem perform_alike {e : Emission} (he : ∀ name, e.label? = some name → name ∉ old.map Symbol.name) :
    Alike (Writing old defined seen) e.perform e.perform := by
  cases e with
  | byte byte => exact emitByte_alike byte
  | fixup label size type rip =>
      intro a b h
      have hlabel := he label rfl
      show (addFixup label size type rip a).1 = (addFixup label size type rip b).1 ∧
        Writing old defined seen (addFixup label size type rip a).2 (addFixup label size type rip b).2
      have hfixups := h.outputs.fixups hseen
      have hlabels := h.outputs.fixupLabels hseen
      rw [addFixup, addFixup, hfixups]
      split
      · exact ⟨rfl, h.report _ _⟩
      · refine ⟨rfl, ⟨h.tables.congr rfl rfl rfl rfl, h.invariant.congr rfl rfl, { h.outputs with
          fixups := fun _ => ?_, fixupLabels := fun _ f hf => ?_ }⟩, h.writes⟩
        · exact congrArg (fun address => b.fixups ++ [⟨label, address, size, type, rip⟩])
            h.outputs.address
        rcases List.mem_append.mp hf with hf | hf
        · exact hlabels f hf
        · rw [List.mem_singleton.mp hf]
          exact hlabel

theorem run_alike {m : Encoder Unit} {names : List Label} (hm : Confined names m)
    (hnames : Unused old names) : Alike (Writing old defined seen) m.run m.run := by
  apply Alike.get
  intro a b h
  have hagree : b.encodeEnv.Agree names a.encodeEnv :=
    ⟨h.outputs.address, h.outputs.branches hseen, fun name hname =>
      h.tables.info (hnames name hname)⟩
  have hlabels := hm.labels b.encodeEnv
  rw [hm.same _ _ hagree]
  refine (Alike.bind (.each fun e he => perform_alike hseen fun name hname => ?_) fun _ => ?_) a b h
  · exact hnames name (hlabels e he name hname)
  · split
    · exact .pure _
    · exact reportError_writing _

end Emission

theorem listingStart_frame (ctx : AssemblerContext) (line : Nat) (source : Text) :
    (ctx.listingStartInstruction line source).output = ctx.output ∧
      (ctx.listingStartInstruction line source).settings = ctx.settings ∧
      (ctx.listingStartInstruction line source).symbols = ctx.symbols ∧
      (ctx.listingStartInstruction line source).symbolHash = ctx.symbolHash := by
  rw [AssemblerContext.listingStartInstruction]
  split <;> exact ⟨rfl, rfl, rfl, rfl⟩

theorem listingEnd_frame (ctx : AssemblerContext) :
    ctx.listingEndInstruction.output = ctx.output ∧
      ctx.listingEndInstruction.settings = ctx.settings ∧
      ctx.listingEndInstruction.symbols = ctx.symbols ∧
      ctx.listingEndInstruction.symbolHash = ctx.symbolHash := by
  rw [AssemblerContext.listingEndInstruction]
  split
  · split <;> exact ⟨rfl, rfl, rfl, rfl⟩
  · exact ⟨rfl, rfl, rfl, rfl⟩

section Statements

variable {old : List Symbol} {defined : List Label} {seen : SectionId → Prop}
  {inst : ParsedInstruction}

theorem writing_alike {α : Type} {m : Asm α} (hm : Alike (Beside old defined seen) m m)
    (hsect : ∀ ctx, (m ctx).2.currentSection = ctx.currentSection) :
    Alike (Writing old defined seen) m m := by
  intro a b h
  obtain ⟨hresult, hstate⟩ := hm a b h.toBeside
  refine ⟨hresult, hstate, ?_⟩
  rw [hsect]
  exact h.writes

theorem encodeAlign_alike : Alike (Writing old defined seen) (encodeAlign inst)
    (encodeAlign inst) := by
  intro a b h
  unfold Matched
  rw [encodeAlign, encodeAlign, h.outputs.address, h.outputs.sect]
  split
  · dsimp only
    split
    · exact emitUnchecked_alike _ a b h
    · exact ⟨rfl, h.report _ _⟩
  · exact ⟨rfl, h.report _ _⟩

theorem encodeIncbin_alike : Alike (Writing old defined seen) (encodeIncbin inst)
    (encodeIncbin inst) := by
  intro a b h
  unfold Matched
  rw [encodeIncbin, encodeIncbin, h.outputs.files]
  split
  · split
    · exact emitUnchecked_alike _ a b h
    · exact ⟨rfl, h.report _ _⟩
  · exact ⟨rfl, h.report _ _⟩

variable (hroom : HasRoom old defined) (hapart : Apart old defined inst)
  (htype : inst.type ≠ .sectionDir)

include hroom hapart

theorem encodeComm_alike (hcomm : inst.type = .comm ∨ inst.type = .lcomm) :
    Alike (Writing old defined seen) (encodeComm inst) (encodeComm inst) := by
  intro a b h
  unfold Matched
  rw [encodeComm, encodeComm, h.outputs.address]
  split
  · next symbol size rest hops =>
      have hmem : symbol ∈ inst.operandLabels :=
        labels_subset (hops ▸ List.mem_cons_self) List.mem_cons_self
      have hname : symbol ∉ old.map Symbol.name ∧ symbol ∈ defined := by
        rcases hcomm with ht | ht
        · refine ⟨hapart.operand (by simp [ht]) hmem, hapart.defines ?_⟩
          simp [ParsedInstruction.definedNames, ht, hmem]
        · refine ⟨hapart.operand (by simp [ht]) hmem, hapart.defines ?_⟩
          simp [ParsedInstruction.definedNames, ht, hmem]
      have hadd : ∀ (address : Word) (isGlobal : Bool), Alike (Writing old defined seen)
          (addSymbol symbol address isGlobal false (some .data))
          (addSymbol symbol address isGlobal false (some .data)) := by
        intro address isGlobal
        apply writing_alike (addSymbol_alike hroom hname.1 hname.2 _ _ _ _)
        intro ctx
        exact congrArg Output.sect (addSymbol_frame symbol address isGlobal false (some .data) ctx).1
      split
      · exact ⟨rfl, h.report _ _⟩
      · refine ((emitUnchecked_alike _).bind fun _ => ?_) a b h
        exact (hadd _ _).ignore.bind fun _ => emitUnchecked_alike _
  · exact ⟨rfl, h.report _ _⟩

include htype

theorem encodeDirective_alike :
    Alike (Writing old defined seen) (encodeDirective inst) (encodeDirective inst) := by
  rw [encodeDirective]
  cases hk : directiveKind inst.type with
  | none => exact reportError_writing _
  | some kind =>
      cases kind with
      | data => exact emitUnchecked_alike _
      | reserve => exact emitUnchecked_alike _
      | silent => exact .pure ()
      | sectionChange =>
          exfalso
          cases ht : inst.type <;> rw [ht] at hk <;> cases hk
          exact htype ht
      | align => exact encodeAlign_alike
      | incbin => exact encodeIncbin_alike
      | comm =>
          apply encodeComm_alike hroom hapart
          cases ht : inst.type <;> rw [ht] at hk <;> cases hk
          · exact .inl rfl
          · exact .inr rfl

variable (hseen : seen .text)

include hseen

theorem encodeInstruction_alike :
    Alike (Writing old defined seen) (encodeInstruction inst) (encodeInstruction inst) := by
  have hnames : Unused old inst.operandLabels := fun name hname => hapart.operand htype hname
  have hsegment : Confined inst.operandLabels (Encoder.segmentPrefix inst) := inferInstance
  refine (run_alike hseen hsegment hnames).bind fun _ => ?_
  cases hm : Encoder.machineEncoder inst.type with
  | some encode => exact run_alike hseen (Encoder.confined_machineEncoder hm) hnames
  | none => exact encodeDirective_alike hroom hapart htype

theorem encodeListed_alike (what : String) :
    Alike (Writing old defined seen) (encodeListed what inst) (encodeListed what inst) := by
  intro a b h
  have hstarted : Writing old defined seen
      (a.listingStartInstruction inst.lineNumber inst.originalLine)
      (b.listingStartInstruction inst.lineNumber inst.originalLine) :=
    h.congr (listingStart_frame a _ _) (listingStart_frame b _ _)
  obtain ⟨hresult, hencoded⟩ :=
    encodeInstruction_alike hroom hapart htype hseen _ _ hstarted
  have hended : ∀ {a b : AssemblerContext}, Writing old defined seen a b →
      Writing old defined seen a.listingEndInstruction b.listingEndInstruction :=
    fun h => h.congr (listingEnd_frame _) (listingEnd_frame _)
  unfold Matched
  rw [encodeListed, encodeListed]
  cases ha : encodeInstruction inst
      (a.listingStartInstruction inst.lineNumber inst.originalLine) with
  | mk r a' =>
      cases hb : encodeInstruction inst
          (b.listingStartInstruction inst.lineNumber inst.originalLine) with
      | mk r' b' =>
          rw [ha, hb] at hresult hencoded
          cases (show r = r' from hresult)
          cases r with
          | some _ => exact ⟨rfl, hended hencoded⟩
          | none => exact ⟨rfl, (hended hencoded).report _ _⟩

omit hroom hapart htype hseen in
theorem Writing.of_emits {a b a' b' : AssemblerContext} (h : Writing old defined seen a b)
    (ht : TablesBeside old defined a' b') (hh : b'.symbolHash = b.symbolHash)
    (ha : Emits a a' [] [] 0) (hb : Emits b b' [] [] 0) : Writing old defined seen a' b' := by
  have hinv : SymbolInvariant b' := by
    refine ⟨hb.table.consistent h.invariant.consistent, ?_⟩
    rw [ChainsDistinct, hh]
    exact h.invariant.chains
  have hao : a'.output = a.output := ha.output.trans (Output.push_nil _)
  have hbo : b'.output = b.output := hb.output.trans (Output.push_nil _)
  refine ⟨h.toBeside.of_tables ht hinv ⟨hao, ha.settings⟩ ⟨hbo, hb.settings⟩, ?_⟩
  rw [show b'.currentSection = b.currentSection from congrArg Output.sect hbo]
  exact h.writes

omit hroom hapart htype hseen in
theorem markGlobal_writing {a b : AssemblerContext} (h : Writing old defined seen a b)
    {op : Operand} (hop : Unused old op.labels) :
    Writing old defined seen (markGlobal a op) (markGlobal b op) := by
  have ha := markGlobal_emits a op
  have hb := markGlobal_emits b op
  cases op with
  | label name =>
      exact h.of_emits (h.tables.updateSymbols (hop name List.mem_cons_self) fun _ => rfl) rfl ha hb
  | none | reg _ _ | imm _ | mem _ | labelDiff _ _ | string _ => exact h

omit hroom hapart htype hseen in
theorem markGlobals_writing {ops : List Operand} (hops : ∀ op ∈ ops, Unused old op.labels)
    {a b : AssemblerContext} (h : Writing old defined seen a b) :
    Writing old defined seen (ops.foldl markGlobal a) (ops.foldl markGlobal b) := by
  induction ops generalizing a b with
  | nil => exact h
  | cons op ops ih =>
      rw [List.forall_mem_cons] at hops
      exact ih hops.2 (markGlobal_writing h hops.1)

omit hroom hseen in
theorem markCallTarget_writing {a b : AssemblerContext} (h : Writing old defined seen a b) :
    Writing old defined seen (markCallTarget a inst) (markCallTarget b inst) := by
  have htables : TablesBeside old defined (markCallTarget a inst) (markCallTarget b inst) := by
    rw [markCallTarget, markCallTarget]
    split
    · next name rest _ hops =>
        have hname : name ∉ old.map Symbol.name :=
          hapart.operand htype (labels_subset (hops ▸ List.mem_cons_self) List.mem_cons_self)
        refine h.tables.modifyFirst (fun sym hsym => ?_) fun _ => rfl
        rw [beq_of_unused hname sym hsym, Bool.false_and]
    · exact h.tables
  have hhash : (markCallTarget b inst).symbolHash = b.symbolHash := by
    rw [markCallTarget]
    split <;> rfl
  exact h.of_emits htables hhash (markCallTarget_emits a inst) (markCallTarget_emits b inst)

theorem emitTextStatement_alike :
    Alike (Writing old defined seen) (emitTextStatement inst) (emitTextStatement inst) := by
  have hops : ∀ op ∈ inst.operands, Unused old op.labels := fun op hop name hname =>
    hapart.operand htype (labels_subset hop hname)
  rw [emitTextStatement]
  split
  · exact .modify fun a b h => markGlobals_writing hops h
  split
  · next hextern =>
      apply Alike.each
      intro op hop
      cases op with
      | label name =>
          have hdef : name ∈ defined := by
            apply hapart.defines
            have hmem : name ∈ inst.operandLabels := labels_subset hop List.mem_cons_self
            simp [ParsedInstruction.definedNames, hextern, hmem]
          apply Alike.ignore
          apply writing_alike (addSymbol_alike hroom (hops _ hop name List.mem_cons_self) hdef _ _ _ _)
          intro ctx
          exact congrArg Output.sect (addSymbol_frame name 0 false true (some .text) ctx).1
      | none | reg _ _ | imm _ | mem _ | labelDiff _ _ | string _ => exact .pure ()
  · refine .bind (.modify fun a b h => markCallTarget_writing hapart htype h) fun _ => ?_
    split
    · exact .pure ()
    · refine .bind (.modify fun a b h => ?_) fun _ =>
        encodeListed_alike hroom hapart htype hseen _
      have hframe : ∀ ctx : AssemblerContext, (addLineMapEntry ctx inst).output = ctx.output ∧
          (addLineMapEntry ctx inst).settings = ctx.settings ∧
          (addLineMapEntry ctx inst).symbols = ctx.symbols ∧
          (addLineMapEntry ctx inst).symbolHash = ctx.symbolHash := by
        intro ctx
        rw [addLineMapEntry]
        split <;> exact ⟨rfl, rfl, rfl, rfl⟩
      exact h.congr (hframe a) (hframe b)

end Statements

theorem rewriteConstantOperand_labels (ctx : AssemblerContext) (op : Operand) :
    (rewriteConstantOperand ctx op).labels ⊆ op.labels := by
  cases op with
  | label name =>
      rw [rewriteConstantOperand]
      split
      · split
        · exact List.nil_subset _
        · exact List.Subset.refl _
      · exact List.Subset.refl _
  | none | reg _ _ | imm _ | mem _ | labelDiff _ _ | string _ => exact List.Subset.refl _

theorem rewritten_labels (ctx : AssemblerContext) (inst : ParsedInstruction) :
    (rewriteConstantLabelOperands ctx inst).operandLabels ⊆ inst.operandLabels := by
  intro name hname
  obtain ⟨op, hop, hname⟩ := List.mem_flatMap.mp hname
  obtain ⟨before, hbefore, rfl⟩ := List.mem_map.mp hop
  exact labels_subset hbefore (rewriteConstantOperand_labels ctx before hname)

section Passes

variable {old : List Symbol} {defined : List Label} {seen : SectionId → Prop}
  {inst : ParsedInstruction}

theorem Apart.of_subset {inst' : ParsedInstruction} (h : Apart old defined inst)
    (ht : inst'.type = inst.type) (hl : inst'.label = inst.label)
    (hops : inst'.operandLabels ⊆ inst.operandLabels) : Apart old defined inst' := by
  have hunused := h.unused
  have hdefines := h.defines
  rw [ParsedInstruction.symbolNames] at hunused
  rw [ParsedInstruction.definedNames] at hdefines
  constructor
  · rw [ParsedInstruction.symbolNames, ht, hl]
    split
    · intro name hname
      cases hname
    · next htype =>
        rw [if_neg htype] at hunused
        intro name hname
        apply hunused
        rcases List.mem_append.mp hname with hname | hname
        · exact List.mem_append_left _ hname
        · exact List.mem_append_right _ (hops hname)
  · rw [ParsedInstruction.definedNames, ht, hl]
    split
    · exact List.nil_subset _
    · next htype =>
        rw [if_neg htype] at hdefines
        intro name hname
        apply hdefines
        rcases List.mem_append.mp hname with hname | hname
        · exact List.mem_append_left _ hname
        · apply List.mem_append_right
          revert hname
          split
          · exact fun hname => hops hname
          · exact fun hname => hops hname
          · exact fun hname => hops hname
          · exact fun hname => hname

theorem Apart.rewritten (h : Apart old defined inst) (ctx : AssemblerContext) (address : Word) :
    Apart old defined (rewriteConstantLabelOperands ctx { inst with address }) := by
  apply h.of_subset
  · rfl
  · rfl
  · exact rewritten_labels ctx { inst with address }

theorem rewriteConstantLabelOperands_beside {a b : AssemblerContext}
    (h : TablesBeside old defined a b) (hops : ∀ op ∈ inst.operands, Unused old op.labels) :
    rewriteConstantLabelOperands a inst = rewriteConstantLabelOperands b inst := by
  have hop : ∀ op ∈ inst.operands, rewriteConstantOperand a op = rewriteConstantOperand b op := by
    intro op hop
    cases op with
    | label name =>
        rw [rewriteConstantOperand, rewriteConstantOperand,
          h.info (hops _ hop name List.mem_cons_self)]
    | none | reg _ _ | imm _ | mem _ | labelDiff _ _ | string _ => rfl
  rw [rewriteConstantLabelOperands, rewriteConstantLabelOperands, List.map_congr_left hop]

theorem labelMoves_beside {a b : AssemblerContext} (h : Beside old defined seen a b)
    (hname : ∀ name, inst.label = some name → name ∉ old.map Symbol.name) :
    labelMoves a inst = labelMoves b inst := by
  rw [labelMoves, labelMoves]
  cases hl : inst.label with
  | none => rfl
  | some name =>
      have hold : old.any (fun sym => sym.name == name && sym.address != b.currentAddress) =
          false := by
        rw [List.any_eq_false]
        intro sym hsym
        rw [beq_of_unused (hname name hl) sym hsym, Bool.false_and]
        exact Bool.false_ne_true
      dsimp only
      rw [h.tables.symbols, h.outputs.address, List.any_append, hold, Bool.false_or]

theorem placeLabel_beside {a b : AssemblerContext} (h : Beside old defined seen a b)
    (hname : ∀ name, inst.label = some name → name ∉ old.map Symbol.name) :
    Beside old defined seen (placeLabel a inst) (placeLabel b inst) := by
  have ha := And.intro (placeLabel_output a inst) (placeLabel_settings a inst)
  have hb := And.intro (placeLabel_output b inst) (placeLabel_settings b inst)
  have hc := consistent_placeLabel b inst h.invariant.consistent
  cases hl : inst.label with
  | none =>
      rw [placeLabel, placeLabel, hl]
      exact h
  | some name =>
      have hrun : ∀ ctx, placeLabel ctx inst = moveLabel ctx name ctx.currentAddress := by
        intro ctx
        rw [placeLabel, hl]
      rw [hrun] at ha hb hc ⊢
      rw [hrun b, h.outputs.address] at *
      exact h.of_tables (h.tables.moveLabel (hname name hl) _)
        ⟨hc, chainsDistinct_moveLabel h.invariant.chains _ _⟩ ha hb

def AttributesApart (old : List Symbol) (st : TextPassState) : Prop :=
  Unused old st.weakAttrs ∧ Unused old st.hiddenAttrs

theorem Unused.append {names more : List Label} (h : Unused old names) (hm : Unused old more) :
    Unused old (names ++ more) := by
  intro name hname
  rcases List.mem_append.mp hname with hname | hname
  · exact h name hname
  · exact hm name hname

theorem collectAttribute_returns {st : TextPassState} (hst : AttributesApart old st) {op : Operand}
    (hop : Unused old op.labels) :
    Returns (AttributesApart old) (collectAttribute inst st op) := by
  intro ctx st' ctx' h
  cases op with
  | label name =>
      have hname : Unused old [name] := hop
      rw [collectAttribute] at h
      split at h
      · split at h
        · exact absurd h reportError_ne_some
        · obtain ⟨rfl, -⟩ := Fallible.pure_eq_some.mp h
          exact ⟨hst.1.append hname, hst.2⟩
      · split at h
        · exact absurd h reportError_ne_some
        · obtain ⟨rfl, -⟩ := Fallible.pure_eq_some.mp h
          exact ⟨hst.1, hst.2.append hname⟩
  | none | reg _ _ | imm _ | mem _ | labelDiff _ _ | string _ => exact absurd h reportError_ne_some

theorem collectAttributes_returns {ops : List Operand} {st : TextPassState}
    (hst : AttributesApart old st) (hops : ∀ op ∈ ops, Unused old op.labels) :
    Returns (AttributesApart old) (collectAttributes inst st ops) := by
  induction ops generalizing st with
  | nil => exact Fallible.returns_pure hst
  | cons op ops ih =>
      rw [List.forall_mem_cons] at hops
      exact (collectAttribute_returns hst hops.1).bind_of fun st hst => ih hst hops.2

theorem collectAttribute_alike (st : TextPassState) (op : Operand) :
    Alike (Beside old defined seen) (collectAttribute inst st op) (collectAttribute inst st op) := by
  cases op with
  | label name =>
      rw [collectAttribute]
      split
      · split
        · exact reportError_alike _
        · exact .pure _
      · split
        · exact reportError_alike _
        · exact .pure _
  | none | reg _ _ | imm _ | mem _ | labelDiff _ _ | string _ => exact reportError_alike _

theorem collectAttributes_alike (ops : List Operand) (st : TextPassState) :
    Alike (Beside old defined seen) (collectAttributes inst st ops)
      (collectAttributes inst st ops) := by
  induction ops generalizing st with
  | nil => exact .pure st
  | cons op ops ih => exact (collectAttribute_alike st op).bind ih

theorem alike_of_writing {α : Type} {m : Asm α} (hm : Alike (Writing old defined seen) m m)
    {a b : AssemblerContext} (h : Beside old defined seen a b) (hwrites : seen b.currentSection) :
    Matched (Beside old defined seen) m m a b := by
  obtain ⟨hresult, hstate⟩ := hm a b ⟨h, hwrites⟩
  exact ⟨hresult, hstate.toBeside⟩

variable (hroom : HasRoom old defined) (hapart : Apart old defined inst)

include hroom hapart

theorem textStep_alike (hseen : seen .text) (st : TextPassState) :
    Alike (Beside old defined seen) (textStep st inst) (textStep st inst) := by
  apply Alike.get
  intro a b h
  by_cases htype : inst.type = .sectionDir
  · rw [if_pos htype, if_pos htype]
    exact (Alike.bind (.modify fun a b h => h.applySection inst) fun _ => .pure (st, inst)) a b h
  rw [if_neg htype, if_neg htype]
  split
  · exact ((collectAttributes_alike inst.operands st).bind fun st => .pure (st, inst)) a b h
  rw [h.outputs.sect]
  split
  · exact ⟨rfl, h⟩
  · next hdata =>
      have htext : b.currentSection = .text := by
        cases hs : b.currentSection with
        | text => rfl
        | data => exact absurd hs hdata
      have hname : ∀ name, inst.label = some name → name ∉ old.map Symbol.name :=
        fun name hl => (hapart.label htype hl).1
      have hplaced := placeLabel_beside h hname
      have hops : ∀ op ∈ inst.operands, Unused old op.labels := fun op hop name hname =>
        hapart.operand htype (labels_subset hop hname)
      have hrewritten := @rewriteConstantLabelOperands_beside old defined
        { inst with address := b.currentAddress } _ _ hplaced.tables hops
      have hsect : (placeLabel b inst).currentSection = .text :=
        (congrArg Output.sect (placeLabel_output b inst)).trans htext
      have hemit := @emitTextStatement_alike old defined seen _ hroom
        (hapart.rewritten (placeLabel b inst) b.currentAddress) htype hseen
      dsimp only
      rw [h.outputs.address, hrewritten, labelMoves_beside h hname]
      exact alike_of_writing (hemit.bind fun _ => .pure _) hplaced (hsect ▸ hseen)

omit hroom in
theorem textStep_returns {st : TextPassState} (hst : AttributesApart old st) :
    Returns (fun r => AttributesApart old r.1 ∧ Apart old defined r.2) (textStep st inst) := by
  apply Returns.bind
  intro ctx
  by_cases htype : inst.type = .sectionDir
  · rw [if_pos htype]
    exact .bind fun _ => Fallible.returns_pure ⟨hst, hapart⟩
  rw [if_neg htype]
  split
  · refine (collectAttributes_returns hst fun op hop name hname => ?_).bind_of fun st hst =>
      Fallible.returns_pure ⟨hst, hapart⟩
    exact hapart.operand htype (labels_subset hop hname)
  split
  · exact Fallible.returns_pure ⟨hst, hapart⟩
  · exact .bind fun _ => .bind fun _ => Fallible.returns_pure ⟨hst, hapart.rewritten _ _⟩

end Passes

section Program

variable {old : List Symbol} {defined : List Label} {insts : List ParsedInstruction}
  (hroom : HasRoom old defined) (hapart : ∀ inst ∈ insts, Apart old defined inst)

theorem attributesApart_start : AttributesApart old {} := ⟨List.forall_mem_nil _, List.forall_mem_nil _⟩

include hapart

theorem textIteration_returns :
    Returns (fun r => AttributesApart old r.1 ∧ ∀ inst ∈ r.2, Apart old defined inst)
      (textIteration insts) :=
  .bind fun _ => .walk attributesApart_start fun _ hst inst hinst =>
    textStep_returns (hapart inst hinst) hst

theorem textIterations_returns (n : Nat) :
    Returns (fun r => AttributesApart old r.1 ∧ ∀ inst ∈ r.2, Apart old defined inst)
      (textIterations n insts) := by
  induction n generalizing insts with
  | zero => exact textIteration_returns hapart
  | succ n ih =>
      refine (textIteration_returns hapart).bind_of ?_
      rintro ⟨st, out⟩ ⟨hst, hout⟩
      dsimp only
      split
      · exact ih hout
      · exact Fallible.returns_pure ⟨hst, hout⟩

theorem textModes_returns :
    Returns (fun r => AttributesApart old r.1 ∧ ∀ inst ∈ r.2, Apart old defined inst)
      (textModes insts) := by
  apply Returns.bind
  intro _
  refine (textIterations_returns hapart _).bind_of ?_
  rintro ⟨st, out⟩ ⟨hst, hout⟩
  dsimp only
  split
  · exact .bind fun _ => textIterations_returns hout _
  · exact Fallible.returns_pure ⟨hst, hout⟩

variable {seen : SectionId → Prop} (hseen : seen .text)

include hroom hseen

theorem textIteration_matched {a b : AssemblerContext}
    (h : Beside old defined seen (resetForTextPass a) (resetForTextPass b)) :
    Matched (Beside old defined seen) (textIteration insts) (textIteration insts) a b := by
  have hwalk : Alike (Beside old defined seen) (textPass {} insts) (textPass {} insts) :=
    .walk attributesApart_start
      (fun st _ inst hinst => textStep_alike hroom (hapart inst hinst) hseen st)
      fun st hst inst hinst ctx r ctx' hr =>
        (textStep_returns (hapart inst hinst) hst ctx r ctx' hr).1
  exact hwalk _ _ h

omit hroom hapart hseen in
/-- A text pass takes nothing but the table, the branch mode and the data section from the pass
before it. -/
theorem resetForTextPass_beside {before : SectionId → Prop} {a b : AssemblerContext}
    (h : Beside old defined before a b)
    (hbranches : a.enableForwardShortBranches = b.enableForwardShortBranches)
    (hdata : seen .data → a.dataSection = b.dataSection) :
    Beside old defined seen (resetForTextPass a) (resetForTextPass b) where
  tables := h.tables.congr rfl rfl rfl rfl
  invariant := h.invariant.congr rfl rfl
  outputs := {
    sect := rfl
    address := h.outputs.base
    base := h.outputs.base
    files := h.outputs.files
    sizes := h.outputs.sizes
    sizes' := h.outputs.sizes'
    text := fun _ => rfl
    data := hdata
    fixups := fun _ => rfl
    branches := fun _ => hbranches
    fixupLabels := fun _ _ hf => nomatch hf }

theorem textIterations_matched (n : Nat) {before : SectionId → Prop} {a b : AssemblerContext}
    (h : Beside old defined before a b)
    (hbranches : a.enableForwardShortBranches = b.enableForwardShortBranches)
    (hdata : seen .data → a.dataSection = b.dataSection) :
    Matched (Beside old defined seen) (textIterations n insts) (textIterations n insts) a b := by
  have hreset := resetForTextPass_beside h hbranches hdata
  induction n generalizing insts before a b with
  | zero => exact textIteration_matched hroom hapart hseen hreset
  | succ n ih =>
      refine (textIteration_matched hroom hapart hseen hreset).bind
        (textIteration_returns hapart) ?_ fun _ _ h => h
      rintro ⟨st, out⟩ ⟨-, hout⟩ a b h
      dsimp only
      split
      · exact ih hout h (h.outputs.branches hseen) h.outputs.data
          (resetForTextPass_beside h (h.outputs.branches hseen) h.outputs.data)
      · exact ⟨rfl, h⟩

omit hroom hapart hseen in
theorem setBranches_beside {a b : AssemblerContext} (h : Beside old defined seen a b)
    (enable : Bool) :
    Beside old defined seen (setForwardShortBranches enable a) (setForwardShortBranches enable b) :=
  ⟨h.tables.congr rfl rfl rfl rfl, h.invariant.congr rfl rfl, { h.outputs with
    branches := fun _ => rfl }⟩

theorem textModes_matched {before : SectionId → Prop} {a b : AssemblerContext}
    (h : Beside old defined before a b) (hdata : seen .data → a.dataSection = b.dataSection) :
    Matched (Beside old defined seen) (textModes insts) (textModes insts) a b := by
  have hfirst := textIterations_matched hroom hapart hseen (textPassMaxIterations - 1)
    (setBranches_beside h true) rfl hdata
  refine hfirst.bind (textIterations_returns hapart _) ?_ fun _ _ h => h
  rintro ⟨st, out⟩ ⟨-, hout⟩ a b h
  dsimp only
  split
  · exact textIterations_matched hroom hout hseen _ (setBranches_beside h false) rfl h.outputs.data
  · exact ⟨rfl, h⟩

end Program

section DataPass

variable {old : List Symbol} {defined : List Label} {seen : SectionId → Prop}

theorem applySymbolAttribute_alike {directive : String} {f : Symbol → Symbol} {name : Label}
    (hname : name ∉ old.map Symbol.name)
    (hf : ∀ sym, (f sym).name = sym.name ∧ (f sym).view = sym.view) :
    Alike (Beside old defined seen) (applySymbolAttribute directive f name)
      (applySymbolAttribute directive f name) := by
  intro a b h
  unfold Matched
  rw [applySymbolAttribute, applySymbolAttribute, h.tables.entry hname]
  split
  · exact ⟨rfl, h.updateFirst hname (fun sym => (hf sym).1) fun sym => (hf sym).2⟩
  · exact ⟨rfl, h.report _ _⟩

theorem applySymbolAttributes_alike {st : TextPassState} (hst : AttributesApart old st) :
    Alike (Beside old defined seen) (applySymbolAttributes st) (applySymbolAttributes st) := by
  refine (Alike.each fun name hname => ?_).bind fun _ => Alike.each fun name hname => ?_
  · exact applySymbolAttribute_alike (hst.1 name hname) fun _ => ⟨rfl, rfl⟩
  · exact applySymbolAttribute_alike (hst.2 name hname) fun _ => ⟨rfl, rfl⟩

theorem listed_alike {inst : ParsedInstruction} {m : Asm Unit}
    (hm : Alike (Writing old defined seen) m m) :
    Alike (Writing old defined seen) (listed inst m) (listed inst m) := by
  refine .bind (.modify fun a b h => ?_) fun _ => hm.bind fun _ => .modify fun a b h => ?_
  · exact h.congr (listingStart_frame a _ _) (listingStart_frame b _ _)
  · exact h.congr (listingEnd_frame a) (listingEnd_frame b)

variable {inst : ParsedInstruction} (hroom : HasRoom old defined)
  (hapart : Apart old defined inst) (hseen : ∀ s, seen s)

include hroom hapart hseen

theorem emitDataStatement_alike (htype : inst.type ≠ .sectionDir) :
    Alike (Writing old defined seen) (emitDataStatement inst) (emitDataStatement inst) := by
  rw [emitDataStatement]
  split
  · exact listed_alike (emitUnchecked_alike _)
  · split
    · exact listed_alike (emitUnchecked_alike _)
    · exact .pure ()
  · exact encodeListed_alike hroom hapart htype (hseen .text) _
  · exact encodeListed_alike hroom hapart htype (hseen .text) _
  · exact encodeListed_alike hroom hapart htype (hseen .text) _
  · exact .pure ()

theorem dataStep_alike : Alike (Beside old defined seen) (dataStep inst) (dataStep inst) := by
  apply Alike.get
  intro a b h
  by_cases htype : inst.type = .sectionDir
  · rw [if_pos htype, if_pos htype]
    exact ⟨rfl, h.applySection inst⟩
  rw [if_neg htype, if_neg htype, h.outputs.sect]
  split
  · exact ⟨rfl, h⟩
  · have hname : ∀ name, inst.label = some name → name ∉ old.map Symbol.name :=
      fun name hl => (hapart.label htype hl).1
    have hplaced := placeLabel_beside h hname
    have hops : ∀ op ∈ inst.operands, Unused old op.labels := fun op hop name hname =>
      hapart.operand htype (labels_subset hop hname)
    have hemit := emitDataStatement_alike hroom
      (hapart.rewritten (placeLabel b inst) inst.address) hseen htype
    dsimp only
    rw [rewriteConstantLabelOperands_beside hplaced.tables hops]
    exact alike_of_writing hemit hplaced (hseen _)

end DataPass

end X86Assembler
