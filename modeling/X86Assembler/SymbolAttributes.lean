import X86Assembler.SymbolOrigins

namespace X86Assembler

open Fallible (Along each)

theorem settled_view {ctx : AssemblerContext} {name : Label} (h : Settled ctx name)
    (hnone : ctx.view name = none) : maxSymbols ≤ ctx.symbols.length :=
  h.resolve_left fun hknown => hknown (flags_eq_none.mpr hnone)

theorem IsEquName.labelled {insts : List ParsedInstruction} {name : Label}
    (h : IsEquName insts name) : Labelled insts name := by
  obtain ⟨inst, hmem, op, hequ⟩ := h
  exact ⟨inst, hmem, by simp [hequ.type], hequ.label⟩

def GlobalsAre (G : Label → Prop) (ctx : AssemblerContext) : Prop :=
  ∀ name f, ctx.flags name = some f → f.isGlobal = true → G name

/-- The symbol of a name is global as soon as there is one. -/
def GlobalOnce (name : Label) (ctx : AssemblerContext) : Prop :=
  ∀ f, ctx.flags name = some f → f.isGlobal = true

def AttributesAre (weak hidden : Label → Bool) (ctx : AssemblerContext) : Prop :=
  ∀ name f, ctx.flags name = some f → f.isWeak = weak name ∧ f.isHidden = hidden name

section Changes

variable {marks : Label → Prop} {adds : Label → Bool → Prop} {a b : AssemblerContext}
  (h : Changes marks adds a b) (hc : Consistent a)

include h hc

theorem Changes.globalsAre {G : Label → Prop} (hG : GlobalsAre G a)
    (hmark : ∀ name, marks name → a.flags name ≠ none → G name)
    (hadd : ∀ name, adds name true → a.flags name = none → a.symbols.length < maxSymbols → G name)
    (hexcl : ∀ name g, adds name g → ¬ marks name) : GlobalsAre G b := by
  intro name f hf hglobal
  cases ha : a.flags name with
  | some f₀ =>
      rcases h.known hc name f₀ ha with hsame | ⟨hm, -⟩
      · rw [hf] at hsame
        cases hsame
        exact hG name f ha hglobal
      · exact hmark name hm (ha ▸ Option.some_ne_none f₀)
  | none =>
      rcases h.new hc name ha with hnone | ⟨hroom, g, hg, hset | ⟨hm, -⟩⟩
      · rw [hf] at hnone
        cases hnone
      · rw [hf] at hset
        cases hset
        have hg : adds name true := hglobal ▸ hg
        exact hadd name hg ha hroom
      · exact absurd hm (hexcl name g hg)

theorem Changes.globalOnce {name : Label} (hG : GlobalOnce name a)
    (hadd : ∀ g, adds name g → a.flags name = none → a.symbols.length < maxSymbols → g = true) :
    GlobalOnce name b := by
  intro f hf
  cases ha : a.flags name with
  | some f₀ =>
      rcases h.known hc name f₀ ha with hsame | ⟨-, hset⟩
      · rw [hf] at hsame
        cases hsame
        exact hG f ha
      · rw [hf] at hset
        cases hset
        rfl
  | none =>
      rcases h.new hc name ha with hnone | ⟨hroom, g, hg, hset | ⟨-, hset⟩⟩
      · rw [hf] at hnone
        cases hnone
      · rw [hf] at hset
        cases hset
        exact hadd g hg ha hroom
      · rw [hf] at hset
        cases hset
        rfl

theorem Changes.attributesAre {weak hidden : Label → Bool} (hA : AttributesAre weak hidden a)
    (hnew : ∀ name, a.flags name = none → weak name = false ∧ hidden name = false) :
    AttributesAre weak hidden b := by
  intro name f hf
  cases ha : a.flags name with
  | some f₀ =>
      rcases h.known hc name f₀ ha with hsame | ⟨-, hset⟩
      · rw [hf] at hsame
        cases hsame
        exact hA name f ha
      · rw [hf] at hset
        cases hset
        exact hA name f₀ ha
  | none =>
      obtain ⟨hweak, hhidden⟩ := hnew name ha
      rw [hweak, hhidden]
      rcases h.new hc name ha with hnone | ⟨-, g, -, hset | ⟨-, hset⟩⟩
      · rw [hf] at hnone
        cases hnone
      · rw [hf] at hset
        cases hset
        exact ⟨rfl, rfl⟩
      · rw [hf] at hset
        cases hset
        exact ⟨rfl, rfl⟩

theorem Changes.global_kept {name : Label} (hg : ∃ f, a.flags name = some f ∧ f.isGlobal = true) :
    ∃ f, b.flags name = some f ∧ f.isGlobal = true := by
  obtain ⟨f, hf, hglobal⟩ := hg
  rcases h.known hc name f hf with hsame | ⟨-, hset⟩
  · exact ⟨f, hsame, hglobal⟩
  · exact ⟨_, hset, rfl⟩

end Changes

section Same

variable {a b : AssemblerContext} (h : SameTable a b)

include h

theorem SameTable.flags : b.flags = a.flags := funext (flags_congr h.symbols)

theorem SameTable.globalsAre {G : Label → Prop} (ha : GlobalsAre G a) : GlobalsAre G b := by
  rwa [GlobalsAre, h.flags]

theorem SameTable.globalOnce {name : Label} (ha : GlobalOnce name a) : GlobalOnce name b := by
  rwa [GlobalOnce, h.flags]

theorem SameTable.attributesAre {weak hidden : Label → Bool} (ha : AttributesAre weak hidden a) :
    AttributesAre weak hidden b := by
  rwa [AttributesAre, h.flags]

end Same

theorem globalizes_not_declares {inst : ParsedInstruction} {name : Label}
    (hd : Declares inst name) : ¬ Globalizes inst name := by
  rintro ⟨htype, -⟩
  rcases hd with ⟨hext, -⟩ | hcomm
  · rw [htype] at hext
    cases hext
  · have hkind := (commonName_eq_some.mp hcomm).1
    rw [htype] at hkind
    cases hkind

def NamedBy (insts : List ParsedInstruction) (type : InstType) (name : Label) : Prop :=
  ∃ inst ∈ insts, inst.type = type ∧ .label name ∈ inst.operands

/-- A `global` or a `.comm` names a symbol. -/
def NamedGlobal (insts : List ParsedInstruction) (name : Label) : Prop :=
  NamedBy insts .global name ∨ ∃ inst ∈ insts, inst.type = .comm ∧ commonName inst = some name

/-- A label, the name of a constant or that of a common symbol. -/
def Defined (insts : List ParsedInstruction) (name : Label) : Prop :=
  Labelled insts name ∨ ∃ inst ∈ insts, commonName inst = some name

theorem collectAttributes_mem {inst : ParsedInstruction} {ops : List Operand}
    {st st' : TextPassState} {ctx ctx' : AssemblerContext}
    (h : collectAttributes inst st ops ctx = (some st', ctx')) (name : Label) :
    (name ∈ st'.weakAttrs ↔
      name ∈ st.weakAttrs ∨ inst.type = .weak ∧ .label name ∈ ops) ∧
    (name ∈ st'.hiddenAttrs ↔
      name ∈ st.hiddenAttrs ∨ inst.type ≠ .weak ∧ .label name ∈ ops) := by
  induction ops generalizing st ctx with
  | nil =>
      obtain ⟨rfl, -⟩ := Fallible.pure_eq_some.mp h
      simp
  | cons op ops ih =>
      obtain ⟨st₁, ctx₁, hop, hrest⟩ := Fallible.bind_eq_some.mp h
      obtain ⟨hweak, hhidden⟩ := ih hrest
      rw [hweak, hhidden]
      cases op with
      | label other =>
          rw [collectAttribute] at hop
          split at hop
          · rename_i htype
            split at hop
            · exact absurd hop reportError_ne_some
            · obtain ⟨rfl, -⟩ := Fallible.pure_eq_some.mp hop
              simp [htype, or_assoc]
          · rename_i htype
            split at hop
            · exact absurd hop reportError_ne_some
            · obtain ⟨rfl, -⟩ := Fallible.pure_eq_some.mp hop
              simp [htype, or_assoc]
      | none | reg _ _ | imm _ | mem _ | labelDiff _ _ | string _ =>
          exact absurd hop reportError_ne_some

theorem textStep_attributes {st st' : TextPassState} {inst inst' : ParsedInstruction}
    {ctx ctx' : AssemblerContext} (h : textStep st inst ctx = (some (st', inst'), ctx'))
    (name : Label) :
    (name ∈ st'.weakAttrs ↔
      name ∈ st.weakAttrs ∨ inst.type = .weak ∧ .label name ∈ inst.operands) ∧
    (name ∈ st'.hiddenAttrs ↔
      name ∈ st.hiddenAttrs ∨ inst.type = .hidden ∧ .label name ∈ inst.operands) := by
  rw [textStep, Fallible.bind_run, Fallible.get_run] at h
  simp only at h
  split at h
  · rename_i htype
    obtain ⟨_, ctx₁, -, h⟩ := Fallible.bind_eq_some.mp h
    obtain ⟨hpair, -⟩ := Fallible.pure_eq_some.mp h
    cases hpair
    simp [htype]
  split at h
  · rename_i htype
    obtain ⟨st₁, ctx₁, hcollect, h⟩ := Fallible.bind_eq_some.mp h
    obtain ⟨hpair, -⟩ := Fallible.pure_eq_some.mp h
    cases hpair
    obtain ⟨hweak, hhidden⟩ := collectAttributes_mem hcollect name
    refine ⟨hweak, hhidden.trans ?_⟩
    rcases Bool.or_eq_true_iff.mp htype with hw | hh
    · simp [of_decide_eq_true hw]
    · simp [of_decide_eq_true hh]
  · rename_i htype
    simp only [Bool.or_eq_true, decide_eq_true_eq, not_or] at htype
    split at h
    · obtain ⟨hpair, -⟩ := Fallible.pure_eq_some.mp h
      cases hpair
      simp [htype.1, htype.2]
    · obtain ⟨_, ctx₁, -, h⟩ := Fallible.bind_eq_some.mp h
      obtain ⟨_, ctx₂, -, h⟩ := Fallible.bind_eq_some.mp h
      obtain ⟨hpair, -⟩ := Fallible.pure_eq_some.mp h
      cases hpair
      simp [htype.1, htype.2]

theorem namedBy_cons {inst : ParsedInstruction} {insts : List ParsedInstruction}
    {type : InstType} {name : Label} : NamedBy (inst :: insts) type name ↔
      (inst.type = type ∧ .label name ∈ inst.operands) ∨ NamedBy insts type name :=
  List.exists_mem_cons_iff _ _ _

/-- A text pass collects the operands of all `weak` and `hidden` directives, in either section. -/
theorem textPass_attributes {insts out : List ParsedInstruction} {st st' : TextPassState}
    {ctx ctx' : AssemblerContext} (h : textPass st insts ctx = (some (st', out), ctx'))
    (name : Label) :
    (name ∈ st'.weakAttrs ↔ name ∈ st.weakAttrs ∨ NamedBy insts .weak name) ∧
    (name ∈ st'.hiddenAttrs ↔ name ∈ st.hiddenAttrs ∨ NamedBy insts .hidden name) := by
  rw [textPass] at h
  induction insts generalizing st ctx out with
  | nil =>
      obtain ⟨hpair, -⟩ := Fallible.pure_eq_some.mp h
      cases hpair
      simp [NamedBy]
  | cons inst insts ih =>
      obtain ⟨st₁, inst', ctx₁, rest, hone, hrest, -⟩ := Fallible.walk_cons_eq_some.mp h
      obtain ⟨hweak, hhidden⟩ := ih hrest
      obtain ⟨hweak₁, hhidden₁⟩ := textStep_attributes hone name
      rw [hweak, hhidden, hweak₁, hhidden₁, namedBy_cons, namedBy_cons, or_assoc, or_assoc]
      exact ⟨Iff.rfl, Iff.rfl⟩

theorem RewritesAll.namedBy {xs ys : List ParsedInstruction} (h : RewritesAll xs ys)
    {type : InstType} (htype : type = .weak ∨ type = .hidden) (name : Label) :
    NamedBy ys type name ↔ NamedBy xs type name := by
  have hskip : ∀ inst : ParsedInstruction, inst.type = type → isTextStatement inst = false := by
    intro inst hinst
    rcases htype with rfl | rfl
    · simp [isTextStatement, hinst]
    · simp [isTextStatement, hinst]
  constructor
  · rintro ⟨b, hmem, hb, hop⟩
    obtain ⟨i, hi⟩ := List.mem_iff_getElem?.mp hmem
    have hlt : i < xs.length := h.length ▸ (List.getElem?_eq_some_iff.mp hi).1
    obtain ⟨b', hb', hab⟩ := h.get i xs[i] (List.getElem?_eq_getElem hlt)
    rw [hi] at hb'
    cases hb'
    have hsame := hab.skipped (hskip _ (hab.type.symm.trans hb))
    subst hsame
    exact ⟨_, List.getElem_mem hlt, hb, hop⟩
  · rintro ⟨a, hmem, ha, hop⟩
    obtain ⟨i, hi⟩ := List.mem_iff_getElem?.mp hmem
    obtain ⟨b, hb, hab⟩ := h.get i a hi
    rw [hab.skipped (hskip a ha)] at hb
    exact ⟨a, List.mem_of_getElem? hb, ha, hop⟩

namespace AssemblyRun

variable {insts : List ParsedInstruction} {ctx final : AssemblerContext}

/-- A statement that enters a name into the symbol table when its pass comes to it. -/
def DeclaredAt (run : AssemblyRun insts ctx final) (k : Nat) (name : Label) : Prop :=
  ∃ inst, (InText run.canon k inst ∧ Declares inst name) ∨
    (InData run.canon k inst ∧ commonName inst = some name)

/-- The name is no label, and no statement enters it before this one. -/
structure FirstDeclared (run : AssemblyRun insts ctx final) (k : Nat) (name : Label) : Prop where
  unlabelled : ¬ Labelled run.canon name
  first : ∀ j, run.DeclaredAt j name → run.passOrder k ≤ run.passOrder j

/-- A `.comm` is the first to enter the name into the symbol table. -/
def CommFirst (run : AssemblyRun insts ctx final) (name : Label) : Prop :=
  ∃ k inst, (InText run.canon k inst ∨ InData run.canon k inst) ∧ inst.type = .comm ∧
    commonName inst = some name ∧ run.FirstDeclared k name

/-- A `global` of the text section names a symbol that is no constant. -/
def GlobalStands (run : AssemblyRun insts ctx final) (k : Nat) (name : Label) : Prop :=
  ∃ inst, InText run.canon k inst ∧ Globalizes inst name ∧ ¬ IsEquName run.canon name

/-- A `global` of the text section names a symbol that is no constant and that is known when the
last text pass comes to it. -/
def Heard (run : AssemblyRun insts ctx final) (name : Label) : Prop :=
  ∃ k, run.GlobalStands k name ∧ (run.textAt k).view name ≠ none

/-- Every symbol of the program has the attributes for which directives name it. -/
def AttributesRight (run : AssemblyRun insts ctx final) : Prop :=
  ∀ sym ∈ final.symbols, Defined run.canon sym.name →
    (sym.isGlobal = true ↔ NamedGlobal run.canon sym.name) ∧
    (sym.isWeak = true ↔ NamedBy run.canon .weak sym.name) ∧
    (sym.isHidden = true ↔ NamedBy run.canon .hidden sym.name)

/-- Where a `global` or a `.comm` names a symbol of the program, a `global` is heard or a `.comm`
is the first to enter the name. -/
def GlobalsHeard (run : AssemblyRun insts ctx final) : Prop :=
  ∀ sym ∈ final.symbols, Defined run.canon sym.name → NamedGlobal run.canon sym.name →
    run.CommFirst sym.name ∨ run.Heard sym.name

variable (run : AssemblyRun insts ctx final) (hfresh : Fresh ctx)

theorem DeclaredAt.lt {k : Nat} {name : Label} (h : run.DeclaredAt k name) :
    k < run.canon.length := by
  obtain ⟨inst, ⟨hk, -⟩ | ⟨hk, -⟩⟩ := h
  · exact hk.lt
  · exact hk.lt

theorem passOrder_inj {j k : Nat} (hj : j < run.canon.length) (hk : k < run.canon.length)
    (h : run.passOrder j = run.passOrder k) : j = k := by
  simp only [passOrder] at h
  split at h <;> split at h <;> omega

section New

variable {name : Label} {c : AssemblerContext} (hkeeps : TableKeeps run.layout c)
  (hnone : c.view name = none) (hroom : c.symbols.length < maxSymbols)

include hfresh hkeeps hnone hroom

theorem unlabelled_of_new : ¬ Labelled run.canon name := by
  rintro ⟨inst, hmem, htype, hl⟩
  have hstart : Consistent { ctx with lastError := none } := hfresh.consistent.congr rfl rfl
  have hknown := layoutProgram_known hstart run.laidOut
    (Nat.lt_of_le_of_lt hkeeps.length_le hroom) hmem htype hl
  have hlater := hkeeps.known (run.layout_consistent hfresh) name hknown
  rw [hnone] at hlater
  cases hlater

end New

section Pass

variable {source out : List ParsedInstruction} {entry after : AssemblerContext}
  {st : TextPassState} (hreach : TextReaches run.canon run.layout source entry)
  (hpass : textPass {} source (resetForTextPass entry) = (some (st, out), after))

include hreach hpass

theorem pass_keeps {i : Nat} (hi : i ≤ source.length) :
    TableKeeps run.layout (X86Assembler.textAt source (resetForTextPass entry) i) := by
  have hreset : TableKeeps entry (resetForTextPass entry) := .of_eq rfl rfl
  exact ((textReaches_keeps hreach).table.trans hreset).trans
    (textGrows_between hpass (passStart_reset entry) (Nat.zero_le i) hi).table

include hfresh

theorem pass_statement {name : Label} (hname : ¬ IsEquName run.canon name) {j : Nat}
    {a : ParsedInstruction} (ha : InText run.canon j a) : ∃ b, InText source j b ∧
      KeepsName name a
        (textRewrite (X86Assembler.textAt source (resetForTextPass entry) j) b) ∧
      emitTextStatement (textRewrite (X86Assembler.textAt source (resetForTextPass entry) j) b)
          (placeLabel (X86Assembler.textAt source (resetForTextPass entry) j) b) =
        (some (), X86Assembler.textAt source (resetForTextPass entry) (j + 1)) := by
  obtain ⟨b, hb, -⟩ := (textReaches_keeps hreach).rewrites.inText ha
  obtain ⟨b', hb', hab⟩ := run.reach_keepsName hfresh hreach hname ha.get
  obtain ⟨c, hc, hbc⟩ := run.pass_keepsName hfresh hreach hpass hname hb'
  have hsame : b' = b := Option.some.inj (hb'.symm.trans hb.get)
  subst hsame
  obtain ⟨hget, hemit⟩ := textAt_step hpass (passStart_reset entry) hb
  rw [hget] at hc
  cases hc
  exact ⟨b', hb, hab.trans hbc, hemit⟩

/-- What a statement has declared is known behind it in every pass, or there was no room. -/
theorem pass_settled {name : Label} (hname : ¬ IsEquName run.canon name) {i j : Nat}
    {a : ParsedInstruction} (ha : InText run.canon j a) (hd : Declares a name) (hji : j < i)
    (hi : i ≤ source.length) :
    Settled (X86Assembler.textAt source (resetForTextPass entry) i) name := by
  obtain ⟨b, hb, hkeeps, hemit⟩ := run.pass_statement hfresh hreach hpass hname ha
  have hcj := run.pass_consistent hfresh hreach hpass (Nat.le_of_lt hb.lt)
  have hsettled := emitTextStatement_settled (hkeeps.declares hd)
    (consistent_placeLabel _ b hcj) hemit
  exact hsettled.changes (run.pass_consistent hfresh hreach hpass hb.lt)
    (textAt_changes hpass (passStart_reset entry) hji hi)

theorem pass_first {i : Nat} (hi : i < source.length) {name : Label}
    (hnone : (X86Assembler.textAt source (resetForTextPass entry) i).view name = none)
    (hroom : (X86Assembler.textAt source (resetForTextPass entry) i).symbols.length < maxSymbols)
    (hsect : sectionBefore run.canon i = .text) : run.FirstDeclared i name := by
  have hunlabelled := run.unlabelled_of_new hfresh
    (run.pass_keeps hreach hpass (Nat.le_of_lt hi)) hnone hroom
  have hlength := (textReaches_keeps hreach).rewrites.length
  refine ⟨hunlabelled, ?_⟩
  rintro j ⟨a, ⟨ha, hd⟩ | ⟨ha, -⟩⟩
  · rw [passOrder, hsect, InText.passOrder run ha]
    by_contra hlt
    have hsettled := run.pass_settled hfresh hreach hpass
      (fun hequ => hunlabelled hequ.labelled) ha hd (Nat.not_le.mp hlt) (Nat.le_of_lt hi)
    exact absurd (settled_view hsettled hnone) (Nat.not_le.mpr hroom)
  · rw [passOrder, hsect, InData.passOrder run ha]
    show i ≤ run.canon.length + j
    omega

end Pass

theorem data_keeps {i : Nat} (hi : i ≤ run.program.length) :
    TableKeeps run.layout (run.dataAt i) := by
  have htext := run.pass_keeps run.reached run.lastPass (Nat.le_refl _)
  rw [textAt_length run.lastPass] at htext
  have hreset : TableKeeps run.attributed (resetForDataPass run.attributed) := .of_eq rfl rfl
  exact ((htext.trans run.attributed_emits.table.keeps).trans hreset).trans
    (dataGrows_between run.dataEmitted (Nat.zero_le i) hi).table

theorem attributed_settled {name : Label} (h : Settled run.texted name) :
    Settled run.attributed name := by
  refine h.imp ?_ fun hfull => Nat.le_trans hfull run.attributed_emits.table.length_le
  intro hknown hnone
  rw [run.attributed_flags, Option.map_eq_none_iff] at hnone
  exact hknown hnone

include hfresh

/-- What the text pass has declared, or the data pass so far, is known or found no room. -/
theorem data_settled {name : Label} (hname : ¬ IsEquName run.canon name) {i j : Nat}
    (hd : run.DeclaredAt j name) (hji : run.passOrder j < run.canon.length + i)
    (hi : i ≤ run.program.length) : Settled (run.dataAt i) name := by
  obtain ⟨a, ⟨ha, hd⟩ | ⟨ha, hd⟩⟩ := hd
  · have hlt : j < run.source.length := run.source_rewrites.length ▸ ha.lt
    have htext := run.pass_settled hfresh run.reached run.lastPass hname ha hd hlt (Nat.le_refl _)
    rw [textAt_length run.lastPass] at htext
    have hstart : Settled (resetForDataPass run.attributed) name := run.attributed_settled htext
    exact hstart.changes (run.dataAt_consistent hfresh.consistent (Nat.zero_le _)) (dataAt_changes run.dataEmitted (Nat.zero_le i) hi)
  · rw [InData.passOrder run ha] at hji
    obtain ⟨b, hb, -⟩ := run.program_rewrites.inData ha
    obtain ⟨b', hb', hab⟩ := run.reach_keepsName hfresh run.texted_reached hname ha.get
    have hsame : b' = b := Option.some.inj (hb'.symm.trans hb.get)
    subst hsame
    have hcj := run.dataAt_consistent hfresh.consistent (Nat.le_of_lt hb.lt)
    have hconst : ¬ IsConstant (placeLabel (run.dataAt j) b') name := by
      rwa [isConstant_placeLabel hcj, run.data_constant hfresh (Nat.le_of_lt hb.lt)]
    have hrewrite := keepsName_constant (consistent_placeLabel _ b' hcj) hconst b'
    have hsettled := emitDataStatement_settled ((hab.trans hrewrite).commonName hd)
      (consistent_placeLabel _ b' hcj) (dataAt_step run.dataEmitted hb)
    exact hsettled.changes (run.dataAt_consistent hfresh.consistent hb.lt)
      (dataAt_changes run.dataEmitted (by omega) hi)

theorem data_first {i : Nat} (hi : i < run.program.length) {name : Label}
    (hnone : (run.dataAt i).view name = none)
    (hroom : (run.dataAt i).symbols.length < maxSymbols)
    (hsect : sectionBefore run.canon i = .data) : run.FirstDeclared i name := by
  have hunlabelled := run.unlabelled_of_new hfresh (run.data_keeps (Nat.le_of_lt hi)) hnone hroom
  refine ⟨hunlabelled, fun j hj => ?_⟩
  rw [show run.passOrder i = run.canon.length + i by rw [passOrder, hsect]]
  by_contra hlt
  have hsettled := run.data_settled hfresh (fun hequ => hunlabelled hequ.labelled) hj
    (Nat.not_le.mp hlt) (Nat.le_of_lt hi)
  exact absurd (settled_view hsettled hnone) (Nat.not_le.mpr hroom)

omit hfresh in
theorem comm_unique {k : Nat} {name : Label} (h : run.CommFirst name)
    (hd : run.DeclaredAt k name) (hfirst : run.FirstDeclared k name) {inst : ParsedInstruction}
    (hk : run.canon[k]? = some inst) : inst.type = .comm := by
  obtain ⟨m, comm, hm, htype, hname, hmfirst⟩ := h
  have hdm : run.DeclaredAt m name := by
    rcases hm with hm | hm
    · exact ⟨comm, .inl ⟨hm, .inr hname⟩⟩
    · exact ⟨comm, .inr ⟨hm, hname⟩⟩
  have horder := Nat.le_antisymm (hfirst.first m hdm) (hmfirst.first k hd)
  have hsame := run.passOrder_inj (DeclaredAt.lt run hd) (DeclaredAt.lt run hdm) horder
  subst hsame
  rw [hm.elim InText.get InData.get] at hk
  cases hk
  exact htype

section Globals

variable {source out : List ParsedInstruction} {entry after : AssemblerContext}
  {st : TextPassState} (hreach : TextReaches run.canon run.layout source entry)
  (hpass : textPass {} source (resetForTextPass entry) = (some (st, out), after))
  {i : Nat} {a : ParsedInstruction} (hi : InText source i a) {name : Label}

include hreach hi

omit hfresh in
theorem text_origin (c : AssemblerContext) : ∃ a₀, InText run.canon i a₀ ∧
    (textRewrite c a).type = a₀.type ∧ List.Forall₂ OperandRewrites a₀.operands (textRewrite c a).operands := by
  obtain ⟨a₀, ha₀, hrw⟩ := (textReaches_keeps hreach).rewrites.inText_back hi
  exact ⟨a₀, ha₀, hrw.type, operandsRewrite_trans hrw.operands (operandsRewrite_constant _ _)⟩

include hpass

theorem text_stands (hg : Globalizes
    (textRewrite (X86Assembler.textAt source (resetForTextPass entry) i) a) name) :
    run.GlobalStands i name := by
  obtain ⟨a₀, ha₀, htype, hops⟩ := run.text_origin hreach hi
    (X86Assembler.textAt source (resetForTextPass entry) i)
  refine ⟨a₀, ha₀, globalizes_back htype hops hg, fun hequ => ?_⟩
  have hci := run.pass_consistent hfresh hreach hpass (Nat.le_of_lt hi.lt)
  have hconst : IsConstant
      (placeLabel (X86Assembler.textAt source (resetForTextPass entry) i) a) name := by
    rwa [isConstant_placeLabel hci, run.pass_constant hfresh hreach hpass (Nat.le_of_lt hi.lt)]
  exact not_mem_constant (consistent_placeLabel _ a hci) hconst _ hg.2

variable (hd : Declares (textRewrite (X86Assembler.textAt source (resetForTextPass entry) i) a) name)
  (hnone : (X86Assembler.textAt source (resetForTextPass entry) i).flags name = none)
  (hroom : (X86Assembler.textAt source (resetForTextPass entry) i).symbols.length < maxSymbols)

include hd hnone hroom

theorem text_new : ∃ a₀, InText run.canon i a₀ ∧ a.type = a₀.type ∧ Declares a₀ name ∧
    run.FirstDeclared i name := by
  obtain ⟨a₀, ha₀, htype, hops⟩ := run.text_origin hreach hi
    (X86Assembler.textAt source (resetForTextPass entry) i)
  exact ⟨a₀, ha₀, htype, declares_back htype hops hd,
    run.pass_first hfresh hreach hpass hi.lt (flags_eq_none.mp hnone) hroom ha₀.sect⟩

theorem text_commFirst (hcomm : a.type = .comm) : run.CommFirst name := by
  obtain ⟨a₀, ha₀, htype, hd, hfirst⟩ :=
    run.text_new hfresh hreach hpass hi hd hnone hroom
  have hcomm : a₀.type = .comm := htype.symm.trans hcomm
  refine ⟨i, a₀, .inl ha₀, hcomm, hd.resolve_left ?_, hfirst⟩
  rintro ⟨hext, -⟩
  rw [hcomm] at hext
  cases hext

theorem text_comm (hcomm : run.CommFirst name) : a.type = .comm := by
  obtain ⟨a₀, ha₀, htype, hd, hfirst⟩ :=
    run.text_new hfresh hreach hpass hi hd hnone hroom
  exact htype.trans (run.comm_unique hcomm ⟨a₀, .inl ⟨ha₀, hd⟩⟩ hfirst ha₀.get)

end Globals

section Reach

variable {source out : List ParsedInstruction} {entry after : AssemblerContext}
  {st : TextPassState} (hreach : TextReaches run.canon run.layout source entry)

omit hfresh in
theorem reach_invariant {I : AssemblerContext → Prop}
    (hsame : ∀ a b, SameTable a b → I a → I b) (hlayout : I run.layout)
    (hstep : ∀ {source out entry after st}, TextReaches run.canon run.layout source entry →
      textPass {} source (resetForTextPass entry) = (some (st, out), after) →
      ∀ i inst, InText source i inst → TextChanges source (resetForTextPass entry) i inst →
        I (X86Assembler.textAt source (resetForTextPass entry) i) →
          I (X86Assembler.textAt source (resetForTextPass entry) (i + 1)))
    (hreach : TextReaches run.canon run.layout source entry) : I entry := by
  induction hreach with
  | start => exact hsame run.layout _ ⟨rfl, rfl⟩ hlayout
  | @iterate source out entry after st hreach hone ih =>
      have hpass := textIteration_eq_some hone
      have hend := textAt_invariant hpass (passStart_reset entry) hsame
        (hsame entry _ ⟨rfl, rfl⟩ ih) (hstep hreach hpass) (Nat.le_refl _)
      rwa [textAt_length hpass] at hend
  | @conservative source entry _ ih => exact hsame entry _ ⟨rfl, rfl⟩ ih

theorem layout_flags {name : Label} {f : Flags} (hf : run.layout.flags name = some f) :
    f = ⟨false, false, false⟩ ∧ Labelled run.canon name := by
  obtain ⟨sym, hsym, rfl⟩ := Option.map_eq_some_iff.mp hf
  have hname : sym.name = name := by simpa using List.find?_some hsym
  obtain ⟨hflags, hlabelled⟩ := layoutProgram_fromLabels run.laidOut hfresh.symbols sym
    (List.mem_of_find?_eq_some hsym)
  exact ⟨hflags, hname ▸ hlabelled⟩

variable (hpass : textPass {} source (resetForTextPass entry) = (some (st, out), after))

include hreach hpass

/-- A text pass makes a symbol global only for a `global` that it can hear, or for a `.comm` that
is the first to enter the name. -/
theorem text_globalsAre {G : Label → Prop} (hcomm : ∀ name, run.CommFirst name → G name)
    (hmark : ∀ i name, run.GlobalStands i name →
      (X86Assembler.textAt source (resetForTextPass entry) i).view name ≠ none → G name)
    (i : Nat) (a : ParsedInstruction) (hi : InText source i a)
    (hchanges : TextChanges source (resetForTextPass entry) i a)
    (hG : GlobalsAre G (X86Assembler.textAt source (resetForTextPass entry) i)) :
    GlobalsAre G (X86Assembler.textAt source (resetForTextPass entry) (i + 1)) := by
  have hci := run.pass_consistent hfresh hreach hpass (Nat.le_of_lt hi.lt)
  apply hchanges.globalsAre hci hG
  · intro name hg hknown
    refine hmark i name (run.text_stands hfresh hreach hpass hi hg) fun hnone => ?_
    exact hknown (flags_eq_none.mpr hnone)
  · rintro name ⟨hd, htype⟩ hnone hroom
    exact hcomm name (run.text_commFirst hfresh hreach hpass hi hd hnone hroom
      (beq_iff_eq.mp htype.symm))
  · rintro name g ⟨hd, -⟩
    exact globalizes_not_declares hd

theorem text_globalOnce {name : Label} (hcomm : run.CommFirst name) (i : Nat)
    (a : ParsedInstruction) (hi : InText source i a)
    (hchanges : TextChanges source (resetForTextPass entry) i a)
    (hG : GlobalOnce name (X86Assembler.textAt source (resetForTextPass entry) i)) :
    GlobalOnce name (X86Assembler.textAt source (resetForTextPass entry) (i + 1)) := by
  have hci := run.pass_consistent hfresh hreach hpass (Nat.le_of_lt hi.lt)
  apply hchanges.globalOnce hci hG
  rintro g ⟨hd, rfl⟩ hnone hroom
  exact beq_iff_eq.mpr (run.text_comm hfresh hreach hpass hi hd hnone hroom hcomm)

end Reach

theorem entry_globalsAre :
    GlobalsAre (fun name => run.CommFirst name ∨ ∃ k, run.GlobalStands k name) run.entry := by
  refine run.reach_invariant
    (I := GlobalsAre fun name => run.CommFirst name ∨ ∃ k, run.GlobalStands k name)
    (fun _ _ h => h.globalsAre) ?_ ?_ run.reached
  · intro name f hf hglobal
    rw [(run.layout_flags hfresh hf).1] at hglobal
    cases hglobal
  · intro source out entry after st hreach hpass
    exact run.text_globalsAre hfresh hreach hpass (fun _ => .inl)
      fun i _ hstands _ => .inr ⟨i, hstands⟩

theorem texted_globalsAre :
    GlobalsAre (fun name => run.CommFirst name ∨ run.Heard name) run.texted := by
  have hstart : GlobalsAre (fun name => run.CommFirst name ∨ run.Heard name)
      (resetForTextPass run.entry) := by
    intro name f hf hglobal
    refine (run.entry_globalsAre hfresh name f hf hglobal).imp_right ?_
    rintro ⟨k, hstands⟩
    refine ⟨k, hstands, ?_⟩
    obtain ⟨inst, hk, -⟩ := hstands
    have hle : k ≤ run.source.length := run.source_rewrites.length ▸ Nat.le_of_lt hk.lt
    have hchanges := textAt_changes run.lastPass run.start (Nat.zero_le k) hle
    have hknown := hchanges.present (run.pass_start_consistent hfresh run.reached)
      (hf ▸ Option.some_ne_none f : (resetForTextPass run.entry).flags name ≠ none)
    exact fun hnone => hknown (flags_eq_none.mpr hnone)
  have h := textAt_invariant run.lastPass run.start (fun _ _ h => h.globalsAre) hstart
    (run.text_globalsAre hfresh run.reached run.lastPass (fun _ => .inl)
      fun i name hstands hknown => .inr ⟨i, hstands, hknown⟩) (Nat.le_refl _)
  rwa [textAt_length run.lastPass] at h

theorem texted_globalOnce {name : Label} (hcomm : run.CommFirst name) :
    GlobalOnce name run.texted := by
  apply run.reach_invariant (fun _ _ h => h.globalOnce) ?_ ?_ run.texted_reached
  · intro f hf
    obtain ⟨_, _, _, _, _, hfirst⟩ := hcomm
    exact absurd (run.layout_flags hfresh hf).2 hfirst.unlabelled
  · intro source out entry after st hreach hpass
    exact run.text_globalOnce hfresh hreach hpass hcomm

theorem texted_unattributed : AttributesAre (fun _ => false) (fun _ => false) run.texted := by
  apply run.reach_invariant (fun _ _ h => h.attributesAre) ?_ ?_ run.texted_reached
  · intro name f hf
    rw [(run.layout_flags hfresh hf).1]
    exact ⟨rfl, rfl⟩
  · intro source out entry after st hreach hpass i inst hi hchanges hA
    exact hchanges.attributesAre (run.pass_consistent hfresh hreach hpass (Nat.le_of_lt hi.lt)) hA
      fun _ _ => ⟨rfl, rfl⟩

section Data

variable {i : Nat} {b : ParsedInstruction} (hi : InData run.program i b) {name : Label}
  (hname : commonName (dataRewrite (run.dataAt i) b) = some name)
  (hnone : (run.dataAt i).flags name = none)
  (hroom : (run.dataAt i).symbols.length < maxSymbols)

include hi hname hnone hroom

theorem data_new : ∃ a₀, InData run.canon i a₀ ∧ b.type = a₀.type ∧ commonName a₀ = some name ∧
    run.FirstDeclared i name := by
  obtain ⟨a₀, ha₀, hrw⟩ := run.program_rewrites.inData_back hi
  have hb : commonName b = some name :=
    commonName_back (a := b) (b := dataRewrite (run.dataAt i) b) rfl
      (operandsRewrite_constant _ b.operands) hname
  exact ⟨a₀, ha₀, hrw.type, commonName_back hrw.type hrw.operands hb,
    run.data_first hfresh hi.lt (flags_eq_none.mp hnone) hroom ha₀.sect⟩

theorem data_commFirst (hcomm : b.type = .comm) : run.CommFirst name := by
  obtain ⟨a₀, ha₀, htype, hcommon, hfirst⟩ := run.data_new hfresh hi hname hnone hroom
  exact ⟨i, a₀, .inr ha₀, htype.symm.trans hcomm, hcommon, hfirst⟩

theorem data_comm (hcomm : run.CommFirst name) : b.type = .comm := by
  obtain ⟨a₀, ha₀, htype, hcommon, hfirst⟩ := run.data_new hfresh hi hname hnone hroom
  exact htype.trans (run.comm_unique hcomm ⟨a₀, .inr ⟨ha₀, hcommon⟩⟩ hfirst ha₀.get)

end Data

omit hfresh in
/-- What holds of the symbols that the attributes leave, and what every statement of the data
section keeps, holds in the end. -/
theorem final_invariant {I : AssemblerContext → Prop} (hsame : ∀ a b, SameTable a b → I a → I b)
    (hstart : I run.attributed)
    (hstep : ∀ i b, InData run.program i b → DataChanges run.program run.attributed i b →
      I (run.dataAt i) → I (run.dataAt (i + 1))) : I final := by
  have hend := dataAt_invariant run.dataEmitted hsame hstart hstep (Nat.le_refl _)
  rw [dataAt_length run.dataEmitted] at hend
  exact hsame _ _ ⟨run.resolves.symbols, run.resolves.symbolHash⟩ hend

theorem final_globalsAre :
    GlobalsAre (fun name => run.CommFirst name ∨ run.Heard name) final := by
  refine run.final_invariant (I := GlobalsAre fun name => run.CommFirst name ∨ run.Heard name)
    (fun _ _ h => h.globalsAre) ?_ ?_
  · intro name f hf hglobal
    rw [run.attributed_flags] at hf
    obtain ⟨f₀, hf₀, rfl⟩ := Option.map_eq_some_iff.mp hf
    exact run.texted_globalsAre hfresh name f₀ hf₀ hglobal
  · intro i b hi hchanges hG
    apply hchanges.globalsAre (run.dataAt_consistent hfresh.consistent (Nat.le_of_lt hi.lt)) hG
    · exact fun _ h => h.elim
    · rintro name ⟨hname, htype⟩ hnone hroom
      exact .inl (run.data_commFirst hfresh hi hname hnone hroom (beq_iff_eq.mp htype.symm))
    · exact fun _ _ _ h => h

theorem final_globalOnce {name : Label} (hcomm : run.CommFirst name) : GlobalOnce name final := by
  refine run.final_invariant (fun _ _ h => h.globalOnce) ?_ ?_
  · intro f hf
    rw [run.attributed_flags] at hf
    obtain ⟨f₀, hf₀, rfl⟩ := Option.map_eq_some_iff.mp hf
    exact run.texted_globalOnce hfresh hcomm f₀ hf₀
  · intro i b hi hchanges hG
    apply hchanges.globalOnce (run.dataAt_consistent hfresh.consistent (Nat.le_of_lt hi.lt)) hG
    rintro g ⟨hname, rfl⟩ hnone hroom
    exact beq_iff_eq.mpr (run.data_comm hfresh hi hname hnone hroom hcomm)

theorem final_attributesAre : AttributesAre (fun name => decide (name ∈ run.attrs.weakAttrs))
    (fun name => decide (name ∈ run.attrs.hiddenAttrs)) final := by
  refine run.final_invariant (fun _ _ h => h.attributesAre) ?_ ?_
  · intro name f hf
    rw [run.attributed_flags] at hf
    obtain ⟨f₀, hf₀, rfl⟩ := Option.map_eq_some_iff.mp hf
    obtain ⟨hweak, hhidden⟩ := run.texted_unattributed hfresh name f₀ hf₀
    rw [hweak, hhidden]
    exact ⟨Bool.false_or _, Bool.false_or _⟩
  · intro i b hi hchanges hA
    apply hchanges.attributesAre (run.dataAt_consistent hfresh.consistent (Nat.le_of_lt hi.lt)) hA
    intro name hnone
    have hknown := (applySymbolAttributes_flags run.attributesApplied name).2
    have habsent : run.texted.flags name = none := by
      by_contra htexted
      have hattributed : (resetForDataPass run.attributed).flags name ≠ none := by
        show run.attributed.flags name ≠ none
        rw [run.attributed_flags]
        exact fun hmap => htexted (Option.map_eq_none_iff.mp hmap)
      exact (dataAt_changes run.dataEmitted (Nat.zero_le i) (Nat.le_of_lt hi.lt)).present
        (run.dataAt_consistent hfresh.consistent (Nat.zero_le _)) hattributed hnone
    exact ⟨decide_eq_false fun hmem => hknown (.inl hmem) habsent,
      decide_eq_false fun hmem => hknown (.inr hmem) habsent⟩

theorem final_heard {name : Label} (h : run.Heard name) :
    ∃ f, final.flags name = some f ∧ f.isGlobal = true := by
  obtain ⟨k, ⟨inst, hk, hg, hname⟩, hknown⟩ := h
  obtain ⟨b, hb, hkeeps, hemit⟩ :=
    run.pass_statement hfresh run.reached run.lastPass hname hk
  have hg' := hkeeps.globalizes hg
  have hck := run.pass_consistent hfresh run.reached run.lastPass (Nat.le_of_lt hb.lt)
  obtain ⟨f, hf⟩ := Option.ne_none_iff_exists'.mp fun hnone => hknown (flags_eq_none.mp hnone)
  rw [emitTextStatement, if_pos hg'.1] at hemit
  have hmarked : (run.textAt (k + 1)).flags name = some { f with isGlobal := true } := by
    have hplaced := (placeLabel_flags _ b hck name).trans hf
    have hset := markGlobals_known hg'.2 (consistent_placeLabel _ b hck) hplaced
    obtain ⟨-, hend⟩ := Prod.mk.inj hemit
    exact (congrArg (fun c => AssemblerContext.flags c name) hend).symm.trans hset
  have htext := textAt_changes run.lastPass run.start (Nat.succ_le_of_lt hb.lt) (Nat.le_refl _)
  rw [textAt_length run.lastPass] at htext
  obtain ⟨f₁, hf₁, hglobal⟩ := htext.global_kept
    (run.pass_consistent hfresh run.reached run.lastPass hb.lt) ⟨_, hmarked, rfl⟩
  have hattributed := run.attributed_flags name
  rw [hf₁, Option.map_some] at hattributed
  have hdata := dataAt_changes run.dataEmitted (Nat.zero_le _) (Nat.le_refl _)
  rw [dataAt_length run.dataEmitted] at hdata
  obtain ⟨f₂, hf₂, hglobal₂⟩ := hdata.global_kept
    (run.dataAt_consistent hfresh.consistent (Nat.zero_le _)) ⟨_, hattributed, hglobal⟩
  exact ⟨f₂, (run.final_flags name).trans hf₂, hglobal₂⟩

omit hfresh in
theorem namedGlobal_of_heard {name : Label} (h : run.CommFirst name ∨ run.Heard name) :
    NamedGlobal run.canon name := by
  rcases h with ⟨k, inst, hk, htype, hname, -⟩ | ⟨k, ⟨inst, hk, hg, -⟩, -⟩
  · exact .inr ⟨inst, List.mem_of_getElem? (hk.elim InText.get InData.get), htype, hname⟩
  · exact .inl ⟨inst, List.mem_of_getElem? hk.get, hg.1, hg.2⟩

omit hfresh in
theorem attrs_mem (name : Label) :
    (name ∈ run.attrs.weakAttrs ↔ NamedBy run.canon .weak name) ∧
    (name ∈ run.attrs.hiddenAttrs ↔ NamedBy run.canon .hidden name) := by
  obtain ⟨hweak, hhidden⟩ := textPass_attributes run.lastPass name
  rw [hweak, hhidden, run.source_rewrites.namedBy (.inl rfl),
    run.source_rewrites.namedBy (.inr rfl)]
  exact ⟨or_iff_right List.not_mem_nil, or_iff_right List.not_mem_nil⟩

theorem isGlobal_iff {sym : Symbol} (hsym : sym ∈ final.symbols) :
    sym.isGlobal = true ↔ run.CommFirst sym.name ∨ run.Heard sym.name := by
  have hflags := flags_of_mem (run.consistent hfresh.consistent) hsym
  constructor
  · exact run.final_globalsAre hfresh sym.name sym.flags hflags
  · rintro (hcomm | hheard)
    · exact run.final_globalOnce hfresh hcomm sym.flags hflags
    · obtain ⟨f, hf, hglobal⟩ := run.final_heard hfresh hheard
      rw [hflags] at hf
      cases hf
      exact hglobal

theorem attributesRight_run : run.AttributesRight ↔ run.GlobalsHeard := by
  constructor
  · intro hright sym hsym hdefined hnamed
    exact (run.isGlobal_iff hfresh hsym).mp ((hright sym hsym hdefined).1.mpr hnamed)
  · intro hheard sym hsym hdefined
    have hflags := flags_of_mem (run.consistent hfresh.consistent) hsym
    obtain ⟨hweak, hhidden⟩ := run.final_attributesAre hfresh sym.name sym.flags hflags
    obtain ⟨hnamedWeak, hnamedHidden⟩ := run.attrs_mem sym.name
    refine ⟨?_, ?_, ?_⟩
    · rw [run.isGlobal_iff hfresh hsym]
      exact ⟨run.namedGlobal_of_heard, hheard sym hsym hdefined⟩
    · rw [← hnamedWeak, show sym.isWeak = _ from hweak, decide_eq_true_eq]
    · rw [← hnamedHidden, show sym.isHidden = _ from hhidden, decide_eq_true_eq]

end AssemblyRun

/-- `weak` and `hidden` do what they say wherever they stand; `global` and `.comm` do exactly if
a `global` is heard or a `.comm` comes first. -/
theorem attributesRight_iff {insts : List ParsedInstruction} {ctx final : AssemblerContext}
    (hfresh : Fresh ctx) (h : asmAssemble insts ctx = (some (), final)) :
    Nonempty (AssemblyRun insts ctx final) ∧
      ∀ run : AssemblyRun insts ctx final, run.AttributesRight ↔ run.GlobalsHeard :=
  ⟨assemblyRun_of_success h, fun run => run.attributesRight_run hfresh⟩

/-- A `global` that stands beside its symbol in the data section. -/
def globalInData : List ParsedInstruction :=
  [{ type := .sectionDir, operands := [.label (CString.lit _ "data")]
     originalLine := CString.lit _ "section data" },
   { type := .db, label := some (CString.lit _ "value"), operands := [.imm 1], lineNumber := 2
     originalLine := CString.lit _ "value: db 1" },
   { type := .global, operands := [.label (CString.lit _ "value")], lineNumber := 3
     originalLine := CString.lit _ "global value" }]

theorem attributesRight_iff_globalInData :
    Nonempty (AssemblyRun globalInData emptyContext (asmAssemble globalInData emptyContext).2) ∧
      ∀ run : AssemblyRun globalInData emptyContext (asmAssemble globalInData emptyContext).2,
        run.AttributesRight ↔ run.GlobalsHeard :=
  attributesRight_iff (fresh_asmInit _) (asmAssemble_success (by decide +kernel))

/-- The text pass skips the data section, so the symbol stays local. -/
theorem attributesRight_globalInData :
    parseSource 60 (CString.str "section data\nvalue: db 1\nglobal value") =
        some (some globalInData) ∧
      ∃ final, asmAssemble globalInData emptyContext = (some (), final) ∧
        ∀ run : AssemblyRun globalInData emptyContext final, ¬ run.AttributesRight := by
  refine ⟨by decide +kernel, _, asmAssemble_success (by decide +kernel), ?_⟩
  intro run hright
  have hcanon : run.canon = globalInData := by
    rw [run.canon_eq]
    decide +kernel
  have hlocal : ∃ sym ∈ (asmAssemble globalInData emptyContext).2.symbols,
      sym.name = CString.lit _ "value" ∧ sym.isGlobal = false := by
    decide +kernel
  obtain ⟨sym, hsym, hname, hglobal⟩ := hlocal
  have hdefined : Defined run.canon sym.name := by
    rw [hcanon, hname]
    exact .inl ⟨_, List.mem_cons_of_mem _ List.mem_cons_self, by decide, rfl⟩
  have hnamed : NamedGlobal run.canon sym.name := by
    rw [hcanon, hname]
    exact .inl ⟨_, List.mem_cons_of_mem _ (List.mem_cons_of_mem _ List.mem_cons_self), rfl,
      List.mem_cons_self⟩
  have hset := (hright sym hsym hdefined).1.mpr hnamed
  rw [hglobal] at hset
  cases hset

end X86Assembler
