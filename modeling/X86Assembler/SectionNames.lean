import X86Assembler.AssemblyRun
import X86Assembler.CanonicalProgram
import X86Assembler.TimesExpansion

namespace X86Assembler

open CString (Byte toLower)

/-- The later of a section directive and the last one before it. -/
def directiveStep (last : Option ParsedInstruction) (inst : ParsedInstruction) :
    Option ParsedInstruction :=
  if inst.type = .sectionDir then some inst else last

def lastSectionDirective (insts : List ParsedInstruction) (i : Nat) : Option ParsedInstruction :=
  (insts.take i).foldl directiveStep none

/-- The section that the directives as written put a statement in; without a directive it is
the text section, and a directive without a name says nothing. -/
def writtenSection (insts : List ParsedInstruction) (i : Nat) : Option SectionId :=
  match lastSectionDirective insts i with
  | none => some .text
  | some d => (sectionNameFromInstruction d).map classifySectionName

/-- The passes of `asm_assemble` that reach a statement have its section as the current one. -/
structure LaidOutIn (canon : List ParsedInstruction) (i : Nat) (s : SectionId) : Prop where
  sized : ((canon.take i).foldl sizeStep (.text, 0)).1 = s
  recorded : ∀ dataAddress ctx ctx',
    recordLabels dataAddress (canon.take i) (resetForPassOne ctx) = (some (), ctx') →
      ctx'.currentSection = s
  relaxed : ∀ ctx address,
    ((canon.take i).foldl relaxStep { ctx := ctx, address := address }).sect = s
  emittedText : ∀ source, RewritesAll canon source → ∀ ctx ctx' st out,
    textPass {} (source.take i) (resetForTextPass ctx) = (some (st, out), ctx') →
      ctx'.currentSection = s
  emittedData : ∀ program, RewritesAll canon program → ∀ ctx ctx',
    dataPass (program.take i) ctx = (some (), ctx') → ctx'.currentSection = s

/-- Every statement is laid out in the section its directives name. -/
def SectionsSurvive (insts canon : List ParsedInstruction) : Prop :=
  ∀ i inst s, insts[i]? = some inst → inst.type ≠ .sectionDir → writtenSection insts i = some s →
    LaidOutIn canon i s

/-- A directive for a data section whose name is written like a local label. -/
def isDottedData (d : ParsedInstruction) : Bool :=
  match d.operands with
  | .label name :: _ => isLocalLabelName name && classifySectionName name.bytes == .data
  | _ => false

/-- A section goes with the last directive: it is the one that the directive names. -/
def Follows (last : Option ParsedInstruction) (s : SectionId) : Prop :=
  match last with
  | none => s = .text
  | some d => ∀ name, sectionNameFromInstruction d = some name → s = classifySectionName name

theorem follows_foldl {f : SectionId → ParsedInstruction → SectionId}
    (hother : ∀ s inst, inst.type ≠ .sectionDir → f s inst = s)
    (hnamed : ∀ s d name, d.type = .sectionDir → sectionNameFromInstruction d = some name →
      f s d = classifySectionName name)
    (insts : List ParsedInstruction) {last : Option ParsedInstruction} {s : SectionId}
    (h : Follows last s) : Follows (insts.foldl directiveStep last) (insts.foldl f s) := by
  induction insts generalizing last s with
  | nil => exact h
  | cons inst insts ih =>
      apply ih
      by_cases ht : inst.type = .sectionDir
      · rw [directiveStep, if_pos ht]
        intro name hname
        exact hnamed s inst name ht hname
      · rw [directiveStep, if_neg ht, hother s inst ht]
        exact h

theorem follows_sectionBefore (insts : List ParsedInstruction) (i : Nat) :
    Follows (lastSectionDirective insts i) (sectionBefore insts i) := by
  apply follows_foldl
  · intro s inst ht
    rw [sectionStep, if_neg ht]
  · intro s d name ht hname
    rw [sectionStep, if_pos ht, sectionAfterDirective, hname]
  · rfl

theorem foldl_sizeStep (insts : List ParsedInstruction) (s : SectionId) (size : Word) :
    (insts.foldl sizeStep (s, size)).1 = insts.foldl sectionStep s := by
  have hstep : ∀ p inst, (sizeStep p inst).1 = sectionStep p.1 inst := by
    intro p inst
    rw [sizeStep, sectionStep]
    split
    · rfl
    split
    · rfl
    split
    · rfl
    split <;> rfl
  induction insts generalizing s size with
  | nil => rfl
  | cons inst insts ih =>
      rw [List.foldl_cons, List.foldl_cons, ← hstep (s, size)]
      exact ih _ _

theorem recordLabels_sect {insts : List ParsedInstruction} {dataAddress : Word}
    {ctx ctx' : AssemblerContext} (h : recordLabels dataAddress insts ctx = (some (), ctx')) :
    ctx'.currentSection = insts.foldl sectionStep ctx.currentSection := by
  induction insts generalizing dataAddress ctx with
  | nil =>
      obtain ⟨-, rfl⟩ := Fallible.pure_eq_some.mp h
      rfl
  | cons inst insts ih =>
      obtain ⟨dataAddress', ctx₁, hone, hrest⟩ := Fallible.bind_eq_some.mp h
      rw [ih hrest, List.foldl_cons, sectionStep]
      obtain ⟨ht, rfl⟩ | ⟨ht, address, ctx₂, hrec, counter, rfl⟩ := recordStep_cases hone
      · rw [if_pos ht]
        rfl
      · rw [if_neg ht]
        exact congrArg (insts.foldl sectionStep) (recordLabel_emits hrec).sect

def relaxedSectionStep (s : SectionId) (inst : ParsedInstruction) : SectionId :=
  if inst.type = .sectionDir then relaxedSectionOf inst else s

theorem relaxLabel_sect (st : RelaxState) (inst : ParsedInstruction) :
    (relaxLabel st inst).sect = st.sect := by
  rw [relaxLabel]
  split
  · rfl
  split
  · rfl
  split <;> rfl

theorem foldl_relaxStep (insts : List ParsedInstruction) (st : RelaxState) :
    (insts.foldl relaxStep st).sect = insts.foldl relaxedSectionStep st.sect := by
  induction insts generalizing st with
  | nil => rfl
  | cons inst insts ih =>
      rw [List.foldl_cons, List.foldl_cons, ih, relaxStep, relaxedSectionStep]
      split
      · rfl
      split
      · rfl
      · exact congrArg (insts.foldl relaxedSectionStep) (relaxLabel_sect st inst)

theorem follows_relaxed (insts : List ParsedInstruction) (i : Nat) (ctx : AssemblerContext)
    (address : Word) : Follows (lastSectionDirective insts i)
      ((insts.take i).foldl relaxStep { ctx := ctx, address := address }).sect := by
  rw [foldl_relaxStep]
  apply follows_foldl
  · intro s inst ht
    rw [relaxedSectionStep, if_neg ht]
  · intro s d name ht hname
    rw [relaxedSectionStep, if_pos ht, relaxedSectionOf, hname]
  · rfl

theorem sectionBefore_take (insts : List ParsedInstruction) (i : Nat) :
    sectionBefore (insts.take i) (insts.take i).length = sectionBefore insts i := by
  rw [sectionBefore, List.take_length, sectionBefore]

theorem laidOutIn_of_writtenSection {canon : List ParsedInstruction} {i : Nat} {s : SectionId}
    (hi : i ≤ canon.length) (h : writtenSection canon i = some s) : LaidOutIn canon i s := by
  have hfollows : ∀ t, Follows (lastSectionDirective canon i) t → t = s := by
    intro t ht
    rw [writtenSection] at h
    cases hlast : lastSectionDirective canon i with
    | none =>
        rw [hlast] at h ht
        cases h
        exact ht
    | some d =>
        rw [hlast] at h ht
        obtain ⟨name, hname, rfl⟩ := Option.map_eq_some_iff.mp h
        exact ht name hname
  have hbefore : sectionBefore canon i = s := hfollows _ (follows_sectionBefore canon i)
  refine ⟨?_, ?_, ?_, ?_, ?_⟩
  · rw [foldl_sizeStep]
    exact hbefore
  · intro dataAddress ctx ctx' hrec
    rw [recordLabels_sect hrec]
    exact hbefore
  · intro ctx address
    exact hfollows _ (follows_relaxed canon i ctx address)
  · intro source hrewrites ctx ctx' st out hpass
    have hsect := textAt_sect hpass (passStart_reset ctx) (Nat.le_refl _)
    rw [textAt_length hpass, sectionBefore_take, hrewrites.sectionBefore hi] at hsect
    rw [hsect, hbefore]
  · intro program hrewrites ctx ctx' hpass
    have hsect := dataAt_sect hpass (Nat.le_refl _)
    rw [dataAt_length hpass, sectionBefore_take, hrewrites.sectionBefore hi] at hsect
    rw [hsect, hbefore]

theorem lastSectionDirective_canonical {insts canon : List ParsedInstruction}
    (h : List.Forall₂ Canonical insts canon) (i : Nat) :
    Option.Rel Canonical (lastSectionDirective insts i) (lastSectionDirective canon i) := by
  have hfold : ∀ {xs ys : List ParsedInstruction}, List.Forall₂ Canonical xs ys →
      ∀ {a b : Option ParsedInstruction}, Option.Rel Canonical a b →
        Option.Rel Canonical (xs.foldl directiveStep a) (ys.foldl directiveStep b) := by
    intro xs ys hxy
    induction hxy with
    | nil => exact fun hab => hab
    | cons hone _ ih =>
        intro a b hab
        apply ih
        rw [directiveStep, directiveStep, hone.type]
        split
        · exact .some hone
        · exact hab
  exact hfold (List.forall₂_take i h) .none

theorem sectionNameMatches_cons {b : Byte} {rest base : List Byte} {c : Byte}
    (hdot : b ≠ 0x2E#8) (hb : toLower b ≠ toLower c) :
    sectionNameMatches (b :: rest) (c :: base) = false := by
  have hhead : ¬ (b :: rest).head? = some 0x2E#8 := fun heq => hdot (Option.some.inj heq)
  rw [sectionNameMatches, if_neg hhead]
  have hne : (toLower b == toLower c) = false := beq_eq_false_iff_ne.mpr hb
  simp only [CString.startsWithIgnoreCase, List.length_cons, List.take_succ_cons,
    CString.eqIgnoreCase, List.map_cons, List.cons_beq_cons, hne, Bool.false_and]

theorem classifySectionName_cons {b : Byte} {rest : List Byte} (hdot : b ≠ 0x2E#8)
    (hd : toLower b ≠ 0x64#8) (hb : toLower b ≠ 0x62#8) (hr : toLower b ≠ 0x72#8) :
    classifySectionName (b :: rest) = .text := by
  have hdata : sectionNameMatches (b :: rest) (CString.str "data") = false :=
    sectionNameMatches_cons hdot hd
  have hbss : sectionNameMatches (b :: rest) (CString.str "bss") = false :=
    sectionNameMatches_cons hdot hb
  have hrodata : sectionNameMatches (b :: rest) (CString.str "rodata") = false :=
    sectionNameMatches_cons hdot hr
  rw [classifySectionName, hdata, hbss, hrodata]
  rfl

theorem classify_scoped {n : Nat} {x c : Label} (h : c.bytes = scopedLocalBytes n x) :
    classifySectionName c.bytes = .text := by
  rw [h]
  exact classifySectionName_cons (by decide) (by decide) (by decide) (by decide)

theorem classify_numbered {k : Nat} (h : k < maxSymbols) :
    classifySectionName (anonymousLabel k).bytes = .text := by
  rw [anonymousLabel_bytes h]
  exact classifySectionName_cons (by decide) (by decide) (by decide) (by decide)

theorem classify_reference {x : Label}
    (h : (isAnonymousForwardRef x || isAnonymousBackwardRef x) = true) :
    classifySectionName x.bytes = .text := by
  have hhead : ∃ b rest, x.bytes = b :: rest ∧ toLower b = 0x40#8 := by
    rw [Bool.or_eq_true, isAnonymousForwardRef, isAnonymousBackwardRef, CString.eqIgnoreCase,
      CString.eqIgnoreCase, beq_iff_eq, beq_iff_eq] at h
    cases hx : x.bytes with
    | nil =>
        rw [hx] at h
        cases h with
        | inl h => exact absurd h (by decide)
        | inr h => exact absurd h (by decide)
    | cons b rest =>
        rw [hx] at h
        refine ⟨b, rest, rfl, ?_⟩
        cases h with
        | inl h => exact (List.cons.inj h).1
        | inr h => exact (List.cons.inj h).1
  obtain ⟨b, rest, hx, hb⟩ := hhead
  rw [hx]
  apply classifySectionName_cons
  · rintro rfl
    exact absurd hb (by decide)
  · rw [hb]
    decide
  · rw [hb]
    decide
  · rw [hb]
    decide

/-- Renaming leaves the section that a directive names, unless the name is dotted and stands
for a data section, which becomes text. -/
theorem sectionName_canonical {d d' : ParsedInstruction} (h : Canonical d d') :
    if isDottedData d then
      ∃ name name', sectionNameFromInstruction d = some name ∧ classifySectionName name = .data ∧
        sectionNameFromInstruction d' = some name' ∧ classifySectionName name' = .text
    else
      (sectionNameFromInstruction d').map classifySectionName =
        (sectionNameFromInstruction d).map classifySectionName := by
  have hops := h.operands
  rw [isDottedData, sectionNameFromInstruction, sectionNameFromInstruction]
  cases hd : d.operands with
  | nil =>
      rw [hd] at hops
      cases hd' : d'.operands with
      | nil => rfl
      | cons op ops =>
          rw [hd'] at hops
          cases hops
  | cons op ops =>
      rw [hd] at hops
      cases hd' : d'.operands with
      | nil =>
          rw [hd'] at hops
          cases hops
      | cons op' ops' =>
          rw [hd'] at hops
          cases hops with
          | cons hop _ =>
              cases hop with
              | @label x c hrenamed =>
                  cases hrenamed with
                  | localName hlocal hbytes =>
                      have htext := classify_scoped hbytes
                      simp only [hlocal, Bool.true_and, beq_iff_eq, Option.map_some, htext]
                      split
                      · rename_i hdata
                        exact ⟨_, _, rfl, hdata, rfl, htext⟩
                      · rename_i hdata
                        cases hclass : classifySectionName x.bytes with
                        | text => rfl
                        | data => exact absurd hclass hdata
                  | numbered href hk =>
                      have hwritten := classify_reference href
                      simp only [hwritten, reduceCtorEq, beq_iff_eq, Bool.and_eq_true, and_false,
                        if_false, Option.map_some, classify_numbered hk]
                  | kept hlocal => simp only [hlocal, Bool.false_and, Bool.false_eq_true, if_false]
              | labelDiff _ _ => rfl
              | mem _ => rfl
              | none => rfl
              | reg => rfl
              | imm => rfl
              | string => rfl

theorem writtenSection_canonical {insts canon : List ParsedInstruction}
    (h : List.Forall₂ Canonical insts canon) {i : Nat}
    (hplain : ∀ d, lastSectionDirective insts i = some d → isDottedData d = false) :
    writtenSection canon i = writtenSection insts i := by
  have hrel := lastSectionDirective_canonical h i
  rw [writtenSection, writtenSection]
  cases hd : lastSectionDirective insts i with
  | none =>
      rw [hd] at hrel
      cases hd' : lastSectionDirective canon i with
      | none => rfl
      | some d' =>
          rw [hd'] at hrel
          cases hrel
  | some d =>
      rw [hd] at hrel
      cases hd' : lastSectionDirective canon i with
      | none =>
          rw [hd'] at hrel
          cases hrel
      | some d' =>
          rw [hd'] at hrel
          cases hrel with
          | some hone =>
              have hname := sectionName_canonical hone
              rw [hplain d hd] at hname
              exact hname

theorem writtenSection_dotted {insts canon : List ParsedInstruction}
    (h : List.Forall₂ Canonical insts canon) {i : Nat} {d : ParsedInstruction}
    (hd : lastSectionDirective insts i = some d) (hdotted : isDottedData d = true) :
    writtenSection insts i = some .data ∧ writtenSection canon i = some .text := by
  have hrel := lastSectionDirective_canonical h i
  rw [hd] at hrel
  cases hd' : lastSectionDirective canon i with
  | none =>
      rw [hd'] at hrel
      cases hrel
  | some d' =>
      rw [hd'] at hrel
      cases hrel with
      | some hone =>
          have hname := sectionName_canonical hone
          rw [hdotted, if_pos rfl] at hname
          obtain ⟨name, name', hn, hdata, hn', htext⟩ := hname
          rw [writtenSection, writtenSection, hd, hd']
          simp only [hn, hn', Option.map_some, hdata, htext, and_self]

theorem canonicalize_forall₂ {insts canon : List ParsedInstruction}
    (h : canonicalizeSymbolLabels insts = .ok canon) : List.Forall₂ Canonical insts canon := by
  obtain ⟨hlen, hget⟩ := canonicalize_canonical h
  rw [List.forall₂_iff_get]
  refine ⟨hlen.symm, fun i hi hi' => ?_⟩
  obtain ⟨out, hout, hone⟩ := hget i insts[i] (List.getElem?_eq_getElem hi)
  rw [List.getElem?_eq_getElem hi'] at hout
  cases hout
  exact hone

theorem laidOutIn_canonical {insts canon : List ParsedInstruction}
    (h : List.Forall₂ Canonical insts canon) {i : Nat} {inst : ParsedInstruction} {s : SectionId}
    (hi : insts[i]? = some inst) (hs : writtenSection canon i = some s) : LaidOutIn canon i s := by
  apply laidOutIn_of_writtenSection _ hs
  rw [← h.length_eq]
  exact Nat.le_of_lt (List.getElem?_eq_some_iff.mp hi).1

theorem SectionsSurvive.plain {insts canon : List ParsedInstruction}
    (hsurvive : SectionsSurvive insts canon) (h : List.Forall₂ Canonical insts canon) {i : Nat}
    {inst d : ParsedInstruction} (hi : insts[i]? = some inst) (ht : inst.type ≠ .sectionDir)
    (hd : lastSectionDirective insts i = some d) : isDottedData d = false := by
  by_contra hne
  rw [Bool.not_eq_false] at hne
  obtain ⟨hdata, htext⟩ := writtenSection_dotted h hd hne
  have hsized := (hsurvive i inst _ hi ht hdata).sized
  rw [(laidOutIn_canonical h hi htext).sized] at hsized
  cases hsized

/-- Sections survive canonicalisation exactly when no statement follows a directive whose name
is dotted and stands for a data section. -/
theorem sectionsSurvive_iff {insts canon : List ParsedInstruction}
    (h : canonicalizeSymbolLabels insts = .ok canon) : SectionsSurvive insts canon ↔
      ∀ i inst d, insts[i]? = some inst → inst.type ≠ .sectionDir →
        lastSectionDirective insts i = some d → isDottedData d = false := by
  have hall := canonicalize_forall₂ h
  constructor
  · intro hsurvive i inst d hi ht hd
    exact hsurvive.plain hall hi ht hd
  · intro hplain i inst s hi ht hs
    apply laidOutIn_canonical hall hi
    rw [writtenSection_canonical hall fun d hd => hplain i inst d hi ht hd, hs]

def dottedData : List ParsedInstruction :=
  [{ type := .sectionDir, operands := [.label (CString.lit _ ".data")]
     originalLine := CString.lit _ "section .data" },
   { type := .db, operands := [.imm 1], lineNumber := 2, originalLine := CString.lit _ "db 1" }]

theorem dottedData_canonicalizes : ∃ canon, canonicalizeSymbolLabels dottedData = .ok canon := by
  have hok : (canonicalizeSymbolLabels dottedData).isOk = true := by decide +kernel
  cases hcanon : canonicalizeSymbolLabels dottedData with
  | error e =>
      rw [hcanon] at hok
      cases hok
  | ok canon => exact ⟨canon, rfl⟩

theorem sectionsSurvive_iff_dottedData : ∃ canon,
    canonicalizeSymbolLabels dottedData = .ok canon ∧ (SectionsSurvive dottedData canon ↔
      ∀ i inst d, dottedData[i]? = some inst → inst.type ≠ .sectionDir →
        lastSectionDirective dottedData i = some d → isDottedData d = false) := by
  obtain ⟨canon, hcanon⟩ := dottedData_canonicalizes
  exact ⟨canon, hcanon, sectionsSurvive_iff hcanon⟩

/-- The name becomes that of a local label, and the byte lands in the text section. -/
theorem sectionsSurvive_dottedData :
    parseSource 40 (CString.str "section .data\ndb 1") = some (some dottedData) ∧
      (∀ canon, canonicalizeSymbolLabels dottedData = .ok canon →
        ¬ SectionsSurvive dottedData canon) ∧
      ∃ final, asmAssemble dottedData emptyContext = (some (), final) ∧
        final.textSection = [1] ∧ final.dataSection = [] := by
  refine ⟨by decide +kernel, ?_, _, asmAssemble_success (by decide +kernel), by decide +kernel,
    by decide +kernel⟩
  intro canon hcanon hsurvive
  have hplain := @SectionsSurvive.plain _ _ hsurvive (canonicalize_forall₂ hcanon) 1 _ _ rfl
    (by decide) rfl
  exact absurd hplain (by decide +kernel)

end X86Assembler
