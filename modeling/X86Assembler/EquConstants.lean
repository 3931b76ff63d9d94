import X86Assembler.Constants
import X86Assembler.DataItems

namespace X86Assembler

theorem textIterations_rewrites {n : Nat} {insts out : List ParsedInstruction}
    {ctx ctx' : AssemblerContext} {st : TextPassState}
    (h : textIterations n insts ctx = (some (st, out), ctx')) : RewritesAll insts out := by
  induction n generalizing insts ctx with
  | zero => exact textPass_rewrites (textIteration_eq_some h) (passStart_reset ctx)
  | succ n ih =>
      obtain ⟨⟨st₁, insts₁⟩, ctx₁, hone, h⟩ := Fallible.bind_eq_some.mp h
      have hrw := textPass_rewrites (textIteration_eq_some hone) (passStart_reset ctx)
      simp only at h
      split at h
      · exact hrw.trans (ih h)
      · obtain ⟨hpair, -⟩ := Fallible.pure_eq_some.mp h
        cases hpair
        exact hrw

theorem textIterations_first {n : Nat} {insts out : List ParsedInstruction}
    {ctx ctx' : AssemblerContext} {st : TextPassState}
    (h : textIterations n insts ctx = (some (st, out), ctx')) : ∃ st₁ out₁ ctx₁,
      textPass {} insts (resetForTextPass ctx) = (some (st₁, out₁), ctx₁) ∧
        RewritesAll out₁ out := by
  cases n with
  | zero => exact ⟨st, out, ctx', textIteration_eq_some h, .refl out⟩
  | succ n =>
      obtain ⟨⟨st₁, insts₁⟩, ctx₁, hone, h⟩ := Fallible.bind_eq_some.mp h
      refine ⟨st₁, insts₁, ctx₁, textIteration_eq_some hone, ?_⟩
      simp only at h
      split at h
      · exact textIterations_rewrites h
      · obtain ⟨hpair, -⟩ := Fallible.pure_eq_some.mp h
        cases hpair
        exact .refl out

theorem textModes_first {canon out : List ParsedInstruction} {layout ctx' : AssemblerContext}
    {st : TextPassState} (h : textModes canon layout = (some (st, out), ctx')) : ∃ st₁ out₁ ctx₁,
      textPass {} canon (resetForTextPass (setForwardShortBranches true layout)) =
        (some (st₁, out₁), ctx₁) ∧ RewritesAll out₁ out := by
  obtain ⟨_, ctx₀, hset, h⟩ := Fallible.bind_eq_some.mp h
  cases hset
  obtain ⟨⟨st₁, insts₁⟩, ctx₁, hiter, h⟩ := Fallible.bind_eq_some.mp h
  obtain ⟨st₂, out₂, ctx₂, hfirst, hrw⟩ := textIterations_first hiter
  refine ⟨st₂, out₂, ctx₂, hfirst, ?_⟩
  simp only at h
  split at h
  · obtain ⟨_, ctx₃, hset, h⟩ := Fallible.bind_eq_some.mp h
    cases hset
    exact hrw.trans (textIterations_rewrites h)
  · obtain ⟨hpair, -⟩ := Fallible.pure_eq_some.mp h
    cases hpair
    exact hrw

/-- What each pass of a sequence of text iterations starts with. -/
def iterationStarts : Nat → List ParsedInstruction → AssemblerContext →
    List (List ParsedInstruction × AssemblerContext)
  | 0, insts, ctx => [(insts, ctx)]
  | n + 1, insts, ctx => (insts, ctx) ::
    match textIteration insts ctx with
    | (some (st, out), ctx') => if st.layoutChanged then iterationStarts n out ctx' else []
    | (none, _) => []

def textPassStarts (insts : List ParsedInstruction) (ctx : AssemblerContext) :
    List (List ParsedInstruction × AssemblerContext) :=
  let forward := setForwardShortBranches true ctx
  iterationStarts (textPassMaxIterations - 1) insts forward ++
    match textIterations (textPassMaxIterations - 1) insts forward with
    | (some (st, out), ctx') =>
      if st.layoutChanged then
        iterationStarts (textPassMaxIterations - 1) out (setForwardShortBranches false ctx')
      else []
    | (none, _) => []

def PassLeaves (name : Label) (start : List ParsedInstruction × AssemblerContext) : Prop :=
  ∀ i inst, InText start.1 i inst → inst.label = some name →
    labelMoves (textAt start.1 (resetForTextPass start.2) i) inst = false

section Unmoved

variable {insts out : List ParsedInstruction} {ctx ctx' : AssemblerContext} {st : TextPassState}
  {name : Label} {v : SymbolView}

theorem textIteration_unmoved (hc : Consistent ctx) (hv : ctx.view name = some v)
    (hleaves : PassLeaves name (insts, ctx))
    (h : textIteration insts ctx = (some (st, out), ctx')) :
    Consistent ctx' ∧ ctx'.view name = some v := by
  have hpass := textIteration_eq_some h
  have hstart := passStart_reset ctx
  have hcr : Consistent (resetForTextPass ctx) := hc.congr rfl rfl
  have hgrows := textGrows_between hpass hstart (Nat.zero_le _) (Nat.le_refl _)
  have hview := textAt_view_unmoved hpass hstart hcr (Nat.zero_le _) (Nat.le_refl _) hv
    fun i inst _ _ => hleaves i inst
  rw [textAt_length hpass] at hgrows hview
  exact ⟨hgrows.table.consistent hcr, hview⟩

theorem textIterations_unmoved {n : Nat} (hc : Consistent ctx) (hv : ctx.view name = some v)
    (hleaves : ∀ start ∈ iterationStarts n insts ctx, PassLeaves name start)
    (h : textIterations n insts ctx = (some (st, out), ctx')) :
    Consistent ctx' ∧ ctx'.view name = some v := by
  induction n generalizing insts ctx with
  | zero => exact textIteration_unmoved hc hv (hleaves _ List.mem_cons_self) h
  | succ n ih =>
      obtain ⟨⟨st₁, insts₁⟩, ctx₁, hone, h⟩ := Fallible.bind_eq_some.mp h
      obtain ⟨hc₁, hv₁⟩ := textIteration_unmoved hc hv (hleaves _ List.mem_cons_self) hone
      dsimp only at h
      split at h
      · next hchanged =>
          refine ih hc₁ hv₁ (fun start hstart => hleaves start ?_) h
          rw [iterationStarts, hone]
          dsimp only
          rw [if_pos hchanged]
          exact List.mem_cons_of_mem _ hstart
      · obtain ⟨hpair, rfl⟩ := Fallible.pure_eq_some.mp h
        cases hpair
        exact ⟨hc₁, hv₁⟩

theorem textModes_unmoved (hc : Consistent ctx) (hv : ctx.view name = some v)
    (hleaves : ∀ start ∈ textPassStarts insts ctx, PassLeaves name start)
    (h : textModes insts ctx = (some (st, out), ctx')) : ctx'.view name = some v := by
  obtain ⟨_, ctx₀, hset, h⟩ := Fallible.bind_eq_some.mp h
  cases hset
  obtain ⟨⟨st₁, insts₁⟩, ctx₁, hfirst, h⟩ := Fallible.bind_eq_some.mp h
  have hforward : Consistent (setForwardShortBranches true ctx) := hc.congr rfl rfl
  obtain ⟨hc₁, hv₁⟩ := textIterations_unmoved hforward hv
    (fun start hstart => hleaves start (List.mem_append_left _ hstart)) hfirst
  dsimp only at h
  split at h
  · next hchanged =>
      obtain ⟨_, ctx₂, hset, h⟩ := Fallible.bind_eq_some.mp h
      cases hset
      have hbackward : Consistent (setForwardShortBranches false ctx₁) := hc₁.congr rfl rfl
      refine (textIterations_unmoved hbackward hv₁ (fun start hstart => ?_) h).2
      apply hleaves start
      rw [textPassStarts, hfirst]
      dsimp only
      rw [if_pos hchanged]
      exact List.mem_append_right _ hstart
  · obtain ⟨hpair, rfl⟩ := Fallible.pure_eq_some.mp h
    cases hpair
    exact hv₁

end Unmoved

theorem Rewrites.imm_kept {a b : ParsedInstruction} (h : Rewrites a b) {j : Nat} {v : Word}
    (ha : a.operands[j]? = some (.imm v)) : b.operands[j]? = some (.imm v) := by
  obtain ⟨hlen, hall⟩ := List.forall₂_iff_get.mp h.operands
  obtain ⟨hj, hget⟩ := List.getElem?_eq_some_iff.mp ha
  have hone := hall j hj (hlen ▸ hj)
  rw [List.get_eq_getElem, List.get_eq_getElem, hget] at hone
  rw [List.getElem?_eq_getElem (hlen ▸ hj), number_rewrites hone]

/-- No expression names a constant of its own line or of a later one, and no constant is defined
again. -/
def EquOrdered : List ParsedInstruction → Prop
  | [] => True
  | inst :: insts => EquOrdered insts ∧ ∀ name op, IsEqu inst name op →
      name ∉ op.labels ∧ ¬ IsEquName insts name ∧ ∀ other ∈ op.labels, ¬ IsEquName insts other

theorem resolveEqus_frame {insts : List ParsedInstruction} {ctx ctx' : AssemblerContext}
    (hc : Consistent ctx) (h : resolveEquSymbolValues insts ctx = (some (), ctx')) {name : Label}
    (hname : ¬ IsEquName insts name) : ctx'.view name = ctx.view name := by
  induction insts generalizing ctx with
  | nil =>
      obtain ⟨-, rfl⟩ := Fallible.pure_eq_some.mp h
      rfl
  | cons inst insts ih =>
      obtain ⟨_, ctx₁, hone, hrest⟩ := Fallible.bind_eq_some.mp h
      have hlater : ¬ IsEquName insts name := by
        rintro ⟨other, hother, hequ⟩
        exact hname ⟨other, List.mem_cons_of_mem _ hother, hequ⟩
      rw [ih ((resolveEqu_keeps hc hone).table.consistent hc) hrest hlater]
      rcases resolveEqu_cases hone with ⟨-, rfl⟩ | ⟨other, op, value, hequ, -, hup⟩
      · rfl
      · rw [(upsertConstantSymbol_spec hc hup).2.1, if_neg]
        rintro rfl
        exact hname ⟨inst, List.mem_cons_self, op, hequ⟩

theorem resolveEqus_ordered {insts : List ParsedInstruction} {ctx ctx' : AssemblerContext}
    (hc : Consistent ctx) (h : resolveEquSymbolValues insts ctx = (some (), ctx'))
    (hordered : EquOrdered insts) {inst : ParsedInstruction} (hmem : inst ∈ insts) {name : Label}
    {op : Operand} (hequ : IsEqu inst name op) : ∃ value,
      equValue ctx' inst op = .ok value ∧ findSymbolAddress ctx' name = some value := by
  have hc' := (resolveEqus_keep hc h).table.consistent hc
  induction insts generalizing ctx with
  | nil => cases hmem
  | cons first insts ih =>
      obtain ⟨_, ctx₁, hone, hrest⟩ := Fallible.bind_eq_some.mp h
      have hc₁ := (resolveEqu_keeps hc hone).table.consistent hc
      rcases List.mem_cons.mp hmem with rfl | hmem
      · obtain ⟨hself, hagain, hlater⟩ := hordered.2 name op hequ
        rcases resolveEqu_cases hone with ⟨hnone, -⟩ | ⟨name', op', value, hequ', hvalue, hup⟩
        · exact absurd hequ (hnone name op)
        · cases hequ.operand.symm.trans hequ'.operand
          cases hequ.label.symm.trans hequ'.label
          obtain ⟨-, hview, -⟩ := upsertConstantSymbol_spec hc hup
          refine ⟨value, ?_, ?_⟩
          · rw [← hvalue]
            apply equValue_congr
            intro other hother
            have hne : name ≠ other := by
              rintro rfl
              exact hself hother
            rw [hc'.findSymbolAddress, resolveEqus_frame hc₁ hrest (hlater other hother), hview,
              if_neg hne, hc.findSymbolAddress]
          · rw [hc'.findSymbolAddress, resolveEqus_frame hc₁ hrest hagain, hview, if_pos rfl]
            rfl
      · exact ih hc₁ hrest hordered.1 hmem

/-- A constant, or a symbol that the expression of a constant names. -/
def ConstantName (insts : List ParsedInstruction) (name : Label) : Prop :=
  ∃ inst ∈ insts, ∃ other op, IsEqu inst other op ∧ (name = other ∨ name ∈ op.labels)

theorem equValue_known {ctx : AssemblerContext} (hc : Consistent ctx) {inst : ParsedInstruction}
    {op : Operand} {value : Word} (h : equValue ctx inst op = .ok value) {name : Label}
    (hname : name ∈ op.labels) : (ctx.view name).isSome := by
  have hfind : (findSymbolAddress ctx name).isSome → (ctx.view name).isSome := by
    rw [hc.findSymbolAddress, Option.isSome_map]
    exact id
  apply hfind
  cases op with
  | label other =>
      cases List.mem_singleton.mp hname
      rw [equValue] at h
      cases hother : findSymbolAddress ctx name <;> simp_all
  | labelDiff lhs rhs =>
      rw [equValue] at h
      cases hlhs : findSymbolAddress ctx lhs <;> cases hrhs : findSymbolAddress ctx rhs <;>
        simp_all [Operand.labels]
      rcases hname with rfl | rfl
      · rw [hlhs]
        rfl
      · rw [hrhs]
        rfl
  | mem m => cases h
  | none | reg _ _ | imm _ | string _ => cases hname

theorem resolveEqus_known {insts : List ParsedInstruction} {ctx ctx' : AssemblerContext}
    (hc : Consistent ctx) (h : resolveEquSymbolValues insts ctx = (some (), ctx'))
    {inst : ParsedInstruction} (hmem : inst ∈ insts) {name other : Label} {op : Operand}
    (hequ : IsEqu inst name op) (hother : other ∈ op.labels) : (ctx'.view other).isSome := by
  induction insts generalizing ctx with
  | nil => cases hmem
  | cons first insts ih =>
      obtain ⟨_, ctx₁, hone, hrest⟩ := Fallible.bind_eq_some.mp h
      have hkeeps := resolveEqu_keeps hc hone
      have hc₁ := hkeeps.table.consistent hc
      rcases List.mem_cons.mp hmem with rfl | hmem
      · rcases resolveEqu_cases hone with ⟨hnone, -⟩ | ⟨name', op', value, hequ', hvalue, -⟩
        · exact absurd hequ (hnone name op)
        · cases hequ.operand.symm.trans hequ'.operand
          exact ((resolveEqus_keep hc₁ hrest).table.known hc₁ other
            (hkeeps.table.known hc other (equValue_known hc hvalue hother)))
      · exact ih hc₁ hrest hmem

theorem layoutProgram_resolves {insts : List ParsedInstruction} {ctx ctx' : AssemblerContext}
    (hc : Consistent ctx) (h : layoutProgram insts ctx = (some (), ctx')) :
    ∃ relaxed, Consistent relaxed ∧ resolveEquSymbolValues insts relaxed = (some (), ctx') := by
  obtain ⟨recorded, resolved, hrec, hres, hrelax⟩ := layoutProgram_eq_some h
  have hstart : Consistent (resetForPassOne ctx) := hc.congr rfl rfl
  have hc₁ := (recordLabels_keeps hrec).table.consistent hstart
  have hc₂ := (resolveEqus_keep hc₁ hres).table.consistent hc₁
  exact ⟨_, (relaxIterations_keep 8 resolved insts hc₂).table.consistent hc₂, hrelax⟩

/-- The statements that are encoded with the values of their operands. -/
def encodesOperands (sect : SectionId) (type : InstType) : Bool :=
  match directiveKind type with
  | some .data | some .reserve | some .align | some .incbin | some .comm => true
  | some .silent | some .sectionChange => false
  | none => sect == .text && (Encoder.machineEncoder type).isSome

namespace AssemblyRun

variable {insts : List ParsedInstruction} {ctx final : AssemblerContext}
  (run : AssemblyRun insts ctx final)

/-- The context in which the first text pass reaches a statement. -/
def firstAt (i : Nat) : AssemblerContext :=
  X86Assembler.textAt run.canon (resetForTextPass (setForwardShortBranches true run.layout)) i

/-- The context in which the names of constants in a statement are replaced. -/
def usedAt (i : Nat) (inst : ParsedInstruction) : AssemblerContext :=
  match sectionBefore run.canon i with
  | .text => placeLabel (run.firstAt i) inst
  | .data => placeLabel (run.dataAt i) inst

theorem data_unchanged {i : Nat} {inst : ParsedInstruction} (hi : InData run.canon i inst) :
    InData run.program i inst := by
  have hskip : ∀ {source out : List ParsedInstruction} {a b : AssemblerContext}
      {st : TextPassState}, textPass {} source (resetForTextPass a) = (some (st, out), b) →
      InData source i inst → InData out i inst := by
    intro source out a b st hpass hin
    have hrw := textPass_rewrites hpass (passStart_reset a)
    have hnot : ¬ InText source i inst := by
      intro htext
      have hsect := htext.sect
      rw [hin.sect] at hsect
      cases hsect
    refine ⟨(textAt_skip hpass (passStart_reset a) hin.get hnot).1, hin.not_section, ?_⟩
    rw [hrw.sectionBefore (Nat.le_of_lt hin.lt), hin.sect]
  have hreach : ∀ {source : List ParsedInstruction} {a : AssemblerContext},
      TextReaches run.canon run.layout source a → InData source i inst := by
    intro source a h
    induction h with
    | start => exact hi
    | iterate _ hone ih => exact hskip (textIteration_eq_some hone) ih
    | conservative _ ih => exact ih
  exact hskip run.lastPass (hreach run.reached)

/-- An operand of a statement that is encoded, written as a name. -/
structure NameUse (i j : Nat) (inst : ParsedInstruction) (name : Label) : Prop where
  get : run.canon[i]? = some inst
  operand : inst.operands[j]? = some (.label name)
  encoded : encodesOperands (sectionBefore run.canon i) inst.type = true

section

variable {run} {i j : Nat} {inst : ParsedInstruction} {name : Label}

theorem NameUse.inText (h : run.NameUse i j inst name) (hs : sectionBefore run.canon i = .text) :
    InText run.canon i inst := by
  refine ⟨h.get, ?_, hs⟩
  have hencoded := h.encoded
  rw [isTextStatement]
  cases ht : inst.type <;> first
    | rfl
    | (rw [ht, hs] at hencoded; cases hencoded)

theorem NameUse.inData (h : run.NameUse i j inst name) (hs : sectionBefore run.canon i = .data) :
    InData run.canon i inst := by
  refine ⟨h.get, ?_, hs⟩
  intro ht
  have hencoded := h.encoded
  rw [ht] at hencoded
  cases hencoded

/-- The name of a constant is encoded as the number that the symbol table has for it when the
passes replace it. -/
theorem NameUse.replaced (h : run.NameUse i j inst name) (hfresh : Fresh ctx)
    (hname : IsEquName run.canon name) : ∃ value,
      findSymbolAddress (run.usedAt i inst) name = some value ∧
        (run.encodedOperands i)[j]? = some (.imm value) := by
  cases hs : sectionBefore run.canon i with
  | text =>
      have hi := h.inText hs
      obtain ⟨st, out, after, hpass, hrw⟩ := textModes_first run.modes
      have hstart := passStart_reset (setForwardShortBranches true run.layout)
      have hci : Consistent (run.firstAt i) :=
        (textGrows_between hpass hstart (Nat.zero_le i) (Nat.le_of_lt hi.lt)).table.consistent
          ((run.layout_consistent hfresh).congr rfl rfl)
      have hconst : IsConstant (placeLabel (run.firstAt i) inst) name := by
        rw [isConstant_placeLabel hci]
        exact (run.pass_constant hfresh .start hpass (Nat.le_of_lt hi.lt) name).mpr hname
      obtain ⟨value, hvalue, hop⟩ := rewrites_constant (consistent_placeLabel _ inst hci) hconst
      refine ⟨value, ?_, ?_⟩
      · rw [usedAt, hs]
        exact hvalue
      · obtain ⟨b, hb, hrewrites⟩ := hrw.get i _ (textAt_step hpass hstart hi).1
        have hsect := run.program_rewrites.sectionBefore (Nat.le_of_lt hi.lt)
        rw [encodedOperands, hb, hsect, hs]
        apply hrewrites.imm_kept
        show (inst.operands.map (rewriteConstantOperand (placeLabel (run.firstAt i) inst)))[j]? = _
        rw [List.getElem?_map, h.operand, Option.map_some, hop]
  | data =>
      have hi := run.data_unchanged (h.inData hs)
      have hci := run.dataAt_consistent hfresh.consistent (Nat.le_of_lt hi.lt)
      have hconst : IsConstant (placeLabel (run.dataAt i) inst) name := by
        rw [isConstant_placeLabel hci]
        exact (run.data_constant hfresh (Nat.le_of_lt hi.lt) name).mpr hname
      obtain ⟨value, hvalue, hop⟩ := rewrites_constant (consistent_placeLabel _ inst hci) hconst
      refine ⟨value, ?_, ?_⟩
      · rw [usedAt, hs]
        exact hvalue
      · rw [encodedOperands, hi.get, hi.sect]
        show (inst.operands.map (rewriteConstantOperand (placeLabel (run.dataAt i) inst)))[j]? = _
        rw [List.getElem?_map, h.operand, Option.map_some, hop]

end

/-- Every constant ends up with the value of its expression, as the final addresses have it, and
every operand that is its name is encoded as this number. -/
def ConstantsRight : Prop :=
  ∀ (k : Nat) inst name op, run.canon[k]? = some inst → IsEqu inst name op →
    ∃ value, equValue final inst op = .ok value ∧ findSymbolAddress final name = some value ∧
      ∀ i j other, run.NameUse i j other name →
        (run.encodedOperands i)[j]? = some (.imm value)

/-- No step of a text pass or of the data pass moves a constant, or a symbol that the expression
of a constant names. -/
def ConstantsStay : Prop :=
  ∀ name, ConstantName run.canon name →
    (∀ start ∈ textPassStarts run.canon run.layout, PassLeaves name start) ∧
      ∀ i inst, InData run.program i inst → inst.label = some name →
        labelMoves (run.dataAt i) inst = false

/-- When the text passes begin, the symbol table has every constant at the value of its
expression. -/
def ConstantsResolved : Prop :=
  ∀ inst ∈ run.canon, ∀ name op, IsEqu inst name op → ∃ value,
    equValue run.layout inst op = .ok value ∧ findSymbolAddress run.layout name = some value

theorem layout_eq :
    run.layout = (layoutProgram run.canon { ctx with lastError := none }).2 := by
  rw [run.laidOut]

theorem layout_resolves (hfresh : Fresh ctx) : ∃ relaxed, Consistent relaxed ∧
    resolveEquSymbolValues run.canon relaxed = (some (), run.layout) := by
  have hc : Consistent { ctx with lastError := none } := hfresh.consistent.congr rfl rfl
  exact layoutProgram_resolves hc run.laidOut

theorem layout_known (hfresh : Fresh ctx) {name : Label} (h : ConstantName run.canon name) :
    ∃ v, run.layout.view name = some v := by
  obtain ⟨inst, hmem, other, op, hequ, rfl | hname⟩ := h
  · obtain ⟨v, hv, -⟩ := (run.layout_constant hfresh name).mpr ⟨inst, hmem, op, hequ⟩
    exact ⟨v, hv⟩
  · obtain ⟨relaxed, hrelaxed, hres⟩ := run.layout_resolves hfresh
    exact Option.isSome_iff_exists.mp (resolveEqus_known hrelaxed hres hmem hequ hname)

theorem constantsResolved_of_ordered (hfresh : Fresh ctx) (h : EquOrdered run.canon) :
    run.ConstantsResolved := by
  obtain ⟨relaxed, hrelaxed, hres⟩ := run.layout_resolves hfresh
  exact fun inst hmem name op hequ => resolveEqus_ordered hrelaxed hres h hmem hequ

section

variable (hfresh : Fresh ctx) (hstay : run.ConstantsStay) {name : Label} {v : SymbolView}
  (hname : ConstantName run.canon name) (hv : run.layout.view name = some v)

include hfresh hstay hname hv

theorem firstAt_view {i : Nat} (hi : i ≤ run.canon.length) : (run.firstAt i).view name = some v := by
  obtain ⟨st, out, after, hpass, -⟩ := textModes_first run.modes
  have hstart : Consistent (resetForTextPass (setForwardShortBranches true run.layout)) :=
    (run.layout_consistent hfresh).congr rfl rfl
  exact textAt_view_unmoved hpass (passStart_reset _) hstart (Nat.zero_le i) hi hv
    fun k inst _ _ => (hstay name hname).1 _ List.mem_cons_self k inst

theorem dataAt_view {i : Nat} (hi : i ≤ run.program.length) :
    (run.dataAt i).view name = some v := by
  have htexted := textModes_unmoved (run.layout_consistent hfresh) hv (hstay name hname).1 run.modes
  have hattr := run.attributed_emits.table.kept (run.texted_consistent hfresh.consistent) _ _ htexted
  exact dataAt_view_unmoved run.dataEmitted (run.attributed_consistent hfresh.consistent)
    (Nat.zero_le i) hi hattr fun k inst _ _ => (hstay name hname).2 k inst

/-- What does not move has the address that the layout gave it, in the end and at every use. -/
theorem final_view_stays : final.view name = some v := by
  have hdata := run.dataAt_view hfresh hstay hname hv (Nat.le_refl _)
  rwa [dataAt, dataAt_length run.dataEmitted, ← run.final_view] at hdata

theorem usedAt_view {i j : Nat} {inst : ParsedInstruction} {other : Label}
    (h : run.NameUse i j inst other) :
    findSymbolAddress (run.usedAt i inst) name = some v.address := by
  rw [usedAt]
  cases hs : sectionBefore run.canon i with
  | text =>
      have hi := h.inText hs
      obtain ⟨st, out, after, hpass, -⟩ := textModes_first run.modes
      have hci : Consistent (run.firstAt i) :=
        (textGrows_between hpass (passStart_reset _) (Nat.zero_le i)
          (Nat.le_of_lt hi.lt)).table.consistent ((run.layout_consistent hfresh).congr rfl rfl)
      have hplaced := placeLabel_view_unmoved hci
        (run.firstAt_view hfresh hstay hname hv (Nat.le_of_lt hi.lt))
        ((hstay name hname).1 _ List.mem_cons_self i inst hi)
      rw [(consistent_placeLabel _ inst hci).findSymbolAddress, hplaced]
      rfl
  | data =>
      have hi := run.data_unchanged (h.inData hs)
      have hci := run.dataAt_consistent hfresh.consistent (Nat.le_of_lt hi.lt)
      have hplaced := placeLabel_view_unmoved hci
        (run.dataAt_view hfresh hstay hname hv (Nat.le_of_lt hi.lt))
        ((hstay name hname).2 i inst hi)
      rw [(consistent_placeLabel _ inst hci).findSymbolAddress, hplaced]
      rfl

end

theorem constantsRight_run (hfresh : Fresh ctx) (hstay : run.ConstantsStay) :
    run.ConstantsRight ↔ run.ConstantsResolved := by
  have hsame : ∀ {name}, ConstantName run.canon name →
      findSymbolAddress final name = findSymbolAddress run.layout name := by
    intro name hname
    obtain ⟨v, hv⟩ := run.layout_known hfresh hname
    rw [(run.consistent hfresh.consistent).findSymbolAddress,
      run.final_view_stays hfresh hstay hname hv,
      (run.layout_consistent hfresh).findSymbolAddress, hv]
  have hexpr : ∀ {inst name op}, inst ∈ run.canon → IsEqu inst name op →
      equValue final inst op = equValue run.layout inst op := fun hmem hequ =>
    equValue_congr fun other hother => hsame ⟨_, hmem, _, _, hequ, .inr hother⟩
  constructor
  · intro hright inst hmem name op hequ
    obtain ⟨k, hk⟩ := List.getElem?_of_mem hmem
    obtain ⟨value, hvalue, haddress, -⟩ := hright k inst name op hk hequ
    exact ⟨value, hexpr hmem hequ ▸ hvalue, hsame ⟨_, hmem, _, _, hequ, .inl rfl⟩ ▸ haddress⟩
  · intro hresolved k inst name op hget hequ
    have hmem := List.mem_of_getElem? hget
    have hname : ConstantName run.canon name := ⟨_, hmem, _, _, hequ, .inl rfl⟩
    obtain ⟨value, hvalue, haddress⟩ := hresolved inst hmem name op hequ
    refine ⟨value, (hexpr hmem hequ).trans hvalue, (hsame hname).trans haddress, ?_⟩
    intro i j other huse
    obtain ⟨v, hv⟩ := run.layout_known hfresh hname
    obtain ⟨u, hu, hop⟩ := huse.replaced hfresh ⟨inst, hmem, op, hequ⟩
    rw [run.usedAt_view hfresh hstay hname hv huse] at hu
    rw [(run.layout_consistent hfresh).findSymbolAddress, hv] at haddress
    cases hu
    cases haddress
    exact hop

end AssemblyRun

/-- Where no pass moves the constants or what they are made of, they are right exactly when they are
resolved before the passes. -/
theorem constantsRight_iff {insts : List ParsedInstruction} {ctx final : AssemblerContext}
    (hfresh : Fresh ctx) (h : asmAssemble insts ctx = (some (), final)) :
    Nonempty (AssemblyRun insts ctx final) ∧
      ∀ run : AssemblyRun insts ctx final, run.ConstantsStay →
        (run.ConstantsRight ↔ run.ConstantsResolved) :=
  ⟨assemblyRun_of_success h, fun run => run.constantsRight_run hfresh⟩

def constantAtBase : List ParsedInstruction :=
  [{ type := .equ, label := some (CString.lit _ "BASE"), operands := [.imm 0x400000]
     originalLine := CString.lit _ "BASE equ 0x400000" },
   { type := .mov, operands := [.reg 0 .size64, .label (CString.lit _ "BASE")], lineNumber := 2
     originalLine := CString.lit _ "mov rax, BASE" }]

theorem equOrdered_constantAtBase : EquOrdered constantAtBase := by
  refine ⟨⟨trivial, fun name op h => ?_⟩, fun name op h => ⟨?_, ?_, ?_⟩⟩
  · cases h.type
  · cases h.operand
    exact List.not_mem_nil
  · rintro ⟨inst, hinst, op, hequ⟩
    cases List.mem_singleton.mp hinst
    cases hequ.type
  · cases h.operand
    exact List.forall_mem_nil _

/-- Whether no statement of the text section moves its label. -/
def movesNothing (start : List ParsedInstruction × AssemblerContext) : Bool :=
  (List.range start.1.length).all fun i =>
    start.1[i]?.all fun inst => !labelMoves (textAt start.1 (resetForTextPass start.2) i) inst

theorem passLeaves_of_movesNothing {start : List ParsedInstruction × AssemblerContext}
    (h : movesNothing start = true) (name : Label) : PassLeaves name start := by
  intro i inst hi _
  have hone := List.all_eq_true.mp h i (List.mem_range.mpr hi.lt)
  rw [hi.get] at hone
  simpa using hone

theorem constantsRight_iff_atBase :
    Nonempty
      (AssemblyRun constantAtBase emptyContext (asmAssemble constantAtBase emptyContext).2) ∧
      ∀ run : AssemblyRun constantAtBase emptyContext
        (asmAssemble constantAtBase emptyContext).2, run.ConstantsRight := by
  have hright := constantsRight_iff (fresh_asmInit fun _ => none)
    (asmAssemble_success (by decide +kernel : (asmAssemble constantAtBase emptyContext).1 = some ()))
  refine ⟨hright.1, fun run => (hright.2 run ?_).mpr ?_⟩
  · intro name _
    constructor
    · intro start hstart
      apply passLeaves_of_movesNothing
      revert start
      rw [run.layout_eq, run.canon_eq]
      decide +kernel
    · intro i inst hi
      obtain ⟨other, hother, -⟩ := run.program_rewrites.inData_back hi
      rw [run.canon_eq] at hother
      have htext : ∀ i < (canonicalProgram constantAtBase).length,
          sectionBefore (canonicalProgram constantAtBase) i = .text := by
        decide +kernel
      cases hother.sect.symm.trans (htext i hother.lt)
  · apply run.constantsResolved_of_ordered (fresh_asmInit _)
    rw [run.canon_eq]
    exact (by decide +kernel : canonicalProgram constantAtBase = constantAtBase) ▸
      equOrdered_constantAtBase

def lengthConstant : List ParsedInstruction :=
  [{ type := .nop, label := some (CString.lit _ "start"), originalLine := CString.lit _ "start:" },
   { type := .nop, lineNumber := 3, originalLine := CString.lit _ "end:" },
   { type := .nop, label := some (CString.lit _ "end"), lineNumber := 3
     originalLine := CString.lit _ "end:" },
   { type := .equ, label := some (CString.lit _ "DELTA")
     operands := [.labelDiff (CString.lit _ "end") (CString.lit _ "start")], lineNumber := 4
     originalLine := CString.lit _ "DELTA equ end - start" },
   { type := .mov, operands := [.reg 7 .size64, .label (CString.lit _ "DELTA")], lineNumber := 5
     originalLine := CString.lit _ "mov rdi, DELTA" }]

/-- The text pass moves the constant to its line, and the instruction loads this address. -/
theorem constantsRight_length :
    parseSource 40 (CString.str "start:\nnop\nend:\nDELTA equ end - start\nmov rdi, DELTA") =
      some (some lengthConstant) ∧
      ∃ final, asmAssemble lengthConstant emptyContext = (some (), final) ∧
        final.textSection = [0x90, 0xBF, 0x01, 0x00, 0x40, 0x00] ∧
        ∀ run : AssemblyRun lengthConstant emptyContext final, ¬ run.ConstantsRight := by
  refine ⟨by decide +kernel, _, asmAssemble_success (by decide +kernel), by decide +kernel, ?_⟩
  intro run hright
  have hget : run.canon[3]? = lengthConstant[3]? := by
    rw [run.canon_eq]
    decide +kernel
  obtain ⟨value, hexpr, hfinal, -⟩ := hright 3 _ _ _ hget ⟨rfl, rfl, rfl⟩
  have hstart : findSymbolAddress (asmAssemble lengthConstant emptyContext).2
      (CString.lit _ "start") = some 0x400000 := by
    decide +kernel
  have hend : findSymbolAddress (asmAssemble lengthConstant emptyContext).2
      (CString.lit _ "end") = some 0x400001 := by
    decide +kernel
  have hdelta : findSymbolAddress (asmAssemble lengthConstant emptyContext).2
      (CString.lit _ "DELTA") = some 0x400001 := by
    decide +kernel
  rw [equValue, hstart, hend] at hexpr
  rw [hdelta] at hfinal
  cases hfinal
  exact absurd (Except.ok.inj hexpr) (by decide)

end X86Assembler
