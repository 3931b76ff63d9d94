import X86Assembler.DeadBranches
import X86Assembler.Library.IfBlocks
import X86Assembler.TextLines

namespace X86Assembler

open CString (Byte str startsWithIgnoreCase)
open BlockLanguage

def opensBlock (line : List Byte) : Bool :=
  (parseExprDirective "%if" line).isSome || (definednessLine line).isSome

/-- Whether the condition of an opening line holds under some defines. -/
def blockCondition (defines : List Define) (line : List Byte) : Option Bool :=
  match parseExprDirective "%if" line with
  | some expr => evalNumberOrSymbol defines expr
  | none => (definednessLine line).map fun (positive, name) => isDefined defines [] name == positive

def lineKind (line : List Byte) : LineKind :=
  if opensBlock line then .opens
  else if startsWithIgnoreCase (skipSpaces line) (str "%else") then .elses
  else if startsWithIgnoreCase (skipSpaces line) (str "%endif") then .closes
  else .plain

/-- A line of a selected branch: `%error` is not allowed, `%warning` has no text, `%define` makes
a define, and every other line stands in the output, with the defines substituted. -/
def selectedLine (s : List Define × List Byte) (line : List Byte) :
    Option (List Define × List Byte) :=
  if (parseExprDirective "%error" line).isSome then none
  else if (parseExprDirective "%warning" line).isSome then some s
  else
    match parseDefineDirective line with
    | none => none
    | some (some (name, value)) => (defineSet s.1 name value).map fun defines => (defines, s.2)
    | some none => (substituteDefines s.1 (maxLineLength * 4) line).map fun text =>
        (s.1, s.2 ++ (text ++ [0x0A#8]))

/-- The defines and the output so far are what the lines work on. -/
def preprocessLanguage : BlockLanguage (List Byte) (List Define × List Byte) where
  kind := lineKind
  holds s line := blockCondition s.1 line
  run := selectedLine

/-- The line begins with none of the words of the other directives. -/
def NoDirectiveWord (line : List Byte) : Prop :=
  ∀ word ∈ [str "macro", str "include", str "times"],
    startsWithIgnoreCase (skipSpaces line) word = false ∧
      startsWithIgnoreCase (skipSpaces line) (0x2E#8 :: word) = false

instance (line : List Byte) : Decidable (NoDirectiveWord line) := by
  unfold NoDirectiveWord
  infer_instance

theorem NoDirectiveWord.afterDotWord_none {line word : List Byte} (h : NoDirectiveWord line)
    (hword : word ∈ [str "macro", str "include", str "times"]) : afterDotWord word line = none := by
  obtain ⟨hplain, hdot⟩ := h word hword
  rw [afterDotWord]
  rw [hplain, hdot]
  rfl

theorem NoDirectiveWord.macro_none {line : List Byte} (h : NoDirectiveWord line) :
    parseMacroDirective line = .returns none := by
  rw [parseMacroDirective, h.afterDotWord_none (by decide)]

theorem NoDirectiveWord.include_none {line : List Byte} (h : NoDirectiveWord line) :
    parseIncludeFilename line = some none := by
  rw [parseIncludeFilename, h.afterDotWord_none (by decide)]

theorem NoDirectiveWord.times_none {line : List Byte} (h : NoDirectiveWord line) :
    parseTimesDirective line = none := by
  have hplain := (h (str "times") (by decide)).1
  rw [skipSpaces] at hplain
  rw [parseTimesDirective]
  dsimp only
  rw [hplain, if_neg Bool.false_ne_true]

def Conditionals.toFlat {σ : Type} (c : Conditionals) (data : σ) : Flat σ :=
  ⟨c.stack.map fun s => ⟨s.parentActive, s.branchTaken⟩, c.active, data⟩

theorem enter_toFlat {σ : Type} {c c' : Conditionals} {taken : Bool} (h : c.enter taken = some c')
    (data : σ) : c'.toFlat data = (c.toFlat data).enter taken := by
  rw [Conditionals.enter] at h
  split at h
  · cases h
  · cases h
    rfl

theorem else_toFlat {σ : Type} {c c' : Conditionals} (h : c.else = some c') (data : σ) {line : List Byte}
    {L : BlockLanguage (List Byte) σ} (hkind : L.kind line = .elses) :
    L.step (c.toFlat data) line = some (c'.toFlat data) := by
  obtain ⟨stack, active⟩ := c
  cases stack with
  | nil => cases h
  | cons f stack =>
      cases h
      simp only [step, hkind, Conditionals.toFlat, List.map_cons]

theorem leave_toFlat {σ : Type} {c c' : Conditionals} (h : c.leave = some c') (data : σ)
    {line : List Byte} {L : BlockLanguage (List Byte) σ} (hkind : L.kind line = .closes) :
    L.step (c.toFlat data) line = some (c'.toFlat data) := by
  obtain ⟨stack, active⟩ := c
  cases stack with
  | nil => cases h
  | cons f stack =>
      cases h
      simp only [step, hkind, Conditionals.toFlat, List.map_cons]

theorem opens_toFlat {defines : List Define} {out line : List Byte} {c c' : Conditionals}
    {taken : Bool} (hopens : opensBlock line = true)
    (hholds : c.active = true → blockCondition defines line = some taken)
    (h : c.enter taken = some c') :
    preprocessLanguage.step (c.toFlat (defines, out)) line = some (c'.toFlat (defines, out)) := by
  have hkind : preprocessLanguage.kind line = .opens := if_pos hopens
  simp only [step, hkind]
  cases hactive : c.active with
  | true =>
      have hblock : preprocessLanguage.holds (c.toFlat (defines, out)).data line = some taken :=
        hholds hactive
      have hon : (c.toFlat (defines, out)).active = true := hactive
      rw [if_pos hon, hblock, Option.map_some, enter_toFlat h]
  | false =>
      have hoff : (c.toFlat (defines, out)).active = false := hactive
      rw [enter_inactive hactive taken false] at h
      rw [hoff, if_neg Bool.false_ne_true, enter_toFlat h]

theorem conditionalLine_step {defines : List Define} {line : List Byte} {c : Conditionals}
    {found : Option Conditionals} (h : conditionalLine defines [] line c = .returns found)
    (out : List Byte) : (found = none ∧ lineKind line = .plain) ∨ ∃ c', found = some c' ∧
      preprocessLanguage.step (c.toFlat (defines, out)) line = some (c'.toFlat (defines, out)) := by
  cases hif : parseExprDirective "%if" line with
  | some expr =>
      have hopens : opensBlock line = true := by
        rw [opensBlock, hif]
        rfl
      have hcondition : blockCondition defines line = evalNumberOrSymbol defines expr := by
        rw [blockCondition, hif]
      right
      rw [conditionalLine, hif] at h
      dsimp only at h
      cases hactive : c.active with
      | true =>
          rw [hactive, if_pos rfl] at h
          obtain ⟨taken, htaken, h⟩ := Outcome.bind_eq_returns.mp h
          obtain ⟨c', hc', rfl⟩ := Option.map_eq_some_iff.mp (Outcome.ofOption_eq_returns.mp h)
          refine ⟨c', rfl, opens_toFlat hopens ?_ hc'⟩
          intro _
          rw [hcondition]
          exact Outcome.ofOption_eq_returns.mp htaken
      | false =>
          rw [hactive, if_neg Bool.false_ne_true] at h
          obtain ⟨c', hc', rfl⟩ := Option.map_eq_some_iff.mp (Outcome.ofOption_eq_returns.mp h)
          refine ⟨c', rfl, opens_toFlat hopens ?_ hc'⟩
          intro hon
          rw [hactive] at hon
          cases hon
  | none =>
      cases hdef : definednessLine line with
      | some asks =>
          have hopens : opensBlock line = true := by
            rw [opensBlock, hdef, Option.isSome_some, Bool.or_true]
          right
          rw [conditionalLine_definedness (hdef.trans rfl)] at h
          obtain ⟨c', hc', rfl⟩ := Option.map_eq_some_iff.mp (Outcome.ofOption_eq_returns.mp h)
          refine ⟨c', rfl, opens_toFlat hopens ?_ hc'⟩
          intro _
          rw [blockCondition, hif, hdef]
          rfl
      | none =>
          have hnot : opensBlock line = false := by
            rw [opensBlock, hif, hdef]
            rfl
          rw [conditionalLine, hif] at h
          dsimp only at h
          rw [definednessLine, hif] at hdef
          dsimp only at hdef
          cases hifdef : parseSymbolDirective "%ifdef" line with
          | none =>
              rw [hifdef] at h
              cases h
          | some name =>
              rw [hifdef] at h hdef
              cases name with
              | some name => cases hdef
              | none =>
                  dsimp only at h hdef
                  cases hifndef : parseSymbolDirective "%ifndef" line with
                  | none =>
                      rw [hifndef] at h
                      cases h
                  | some name =>
                      rw [hifndef] at h hdef
                      cases name with
                      | some name => cases hdef
                      | none =>
                          dsimp only at h
                          split at h
                          · next helse =>
                              right
                              obtain ⟨c', hc', rfl⟩ :=
                                Option.map_eq_some_iff.mp (Outcome.ofOption_eq_returns.mp h)
                              refine ⟨c', rfl, else_toFlat hc' _ ?_⟩
                              exact (if_neg (by simp [hnot])).trans (if_pos helse)
                          · next helse =>
                              split at h
                              · next hendif =>
                                  right
                                  obtain ⟨c', hc', rfl⟩ :=
                                    Option.map_eq_some_iff.mp (Outcome.ofOption_eq_returns.mp h)
                                  refine ⟨c', rfl, leave_toFlat hc' _ ?_⟩
                                  exact (if_neg (by simp [hnot])).trans
                                    ((if_neg helse).trans (if_pos hendif))
                              · next hendif =>
                                  left
                                  cases h
                                  refine ⟨rfl, ?_⟩
                                  rw [lineKind, hnot, if_neg Bool.false_ne_true, if_neg helse,
                                    if_neg hendif]

theorem isMacroName_nil (name : List Byte) : isMacroName [] name = false := rfl

theorem parseMacroInvocation_nil (line : List Byte) : parseMacroInvocation [] line = .returns none := by
  rw [parseMacroInvocation]
  dsimp only
  split
  · rw [isMacroName_nil, if_neg Bool.false_ne_true]
  · rfl

/-- Without macros and `times` an active line stands in the output with its defines
substituted. -/
theorem expandLine_plain {defines : List Define} {ctx ctx' : MacroContext} {line text : List Byte}
    (hsubst : ∀ text, substituteDefines defines (maxLineLength * 4) line = some text →
      NoDirectiveWord text)
    (h : expandLine [] defines ctx line = .returns (text, ctx')) :
    (substituteDefines defines (maxLineLength * 4) line).map (· ++ [0x0A#8]) = some text := by
  rw [expandLine] at h
  obtain ⟨line', hline', h⟩ := Outcome.bind_eq_returns.mp h
  have hline' := Outcome.ofOption_eq_returns.mp hline'
  rw [(hsubst line' hline').times_none, parseMacroInvocation_nil] at h
  cases h
  rw [hline']
  rfl

theorem emitLine_no_error {macros : List Macro} {line rest : List Byte} {s t : PassTwo}
    (hon : s.cond.active = true) (h : emitLine macros line rest s = .returns t) :
    (parseExprDirective "%error" line).isSome = false ∧
      ((parseExprDirective "%warning" line).isSome = true → t = { s with rest }) := by
  rw [emitLine, hon, Bool.true_and, Bool.true_and] at h
  split at h
  · cases h
  · next herror =>
      refine ⟨by simpa using herror, ?_⟩
      intro hwarning
      rw [if_pos hwarning] at h
      exact (Outcome.returns.inj h).symm

def PassTwo.toFlat (s : PassTwo) : Flat (List Define × List Byte) := s.cond.toFlat (s.defines, s.out)

theorem passTwoStep_toFlat {s t : PassTwo} (hword : NoDirectiveWord (readLine s.rest).1)
    (hsubst : s.cond.active = true → ∀ text,
      substituteDefines s.defines (maxLineLength * 4) (readLine s.rest).1 = some text →
        NoDirectiveWord text)
    (h : passTwoStep [] s = .returns t) :
    preprocessLanguage.step s.toFlat (readLine s.rest).1 = some t.toFlat ∧
      t.rest = (readLine s.rest).2.2 := by
  rcases passTwoStep_cases h with ⟨cond, hcond, rfl⟩ | ⟨hcond, h⟩
  · rcases conditionalLine_step hcond s.out with ⟨hnone, -⟩ | ⟨c', hc', hstep⟩
    · cases hnone
    · cases hc'
      exact ⟨hstep, rfl⟩
  · rcases conditionalLine_step hcond s.out with ⟨-, hkind⟩ | ⟨c', hc', -⟩
    · have hkind : preprocessLanguage.kind (readLine s.rest).1 = .plain := hkind
      simp only [step, hkind]
      cases hactive : s.cond.active with
      | false =>
          have hoff : s.toFlat.active = false := hactive
          rw [hoff, if_neg Bool.false_ne_true]
          rcases emitLine_cases h with ⟨-, rfl⟩ | ⟨hon, -⟩
          · exact ⟨rfl, rfl⟩
          · cases hactive.symm.trans hon
      | true =>
          have hon : s.toFlat.active = true := hactive
          obtain ⟨herror, hwarning⟩ := emitLine_no_error hactive h
          have hrun : preprocessLanguage.run s.toFlat.data (readLine s.rest).1 =
              selectedLine (s.defines, s.out) (readLine s.rest).1 := rfl
          rw [if_pos hon, hrun, selectedLine, herror, if_neg Bool.false_ne_true]
          cases hwarn : (parseExprDirective "%warning" (readLine s.rest).1).isSome with
          | true =>
              rw [hwarning hwarn, if_pos rfl]
              exact ⟨rfl, rfl⟩
          | false =>
              rw [if_neg Bool.false_ne_true]
              rcases emitLine_cases h with ⟨hoff, -⟩ | ⟨-, ⟨text, htext, -⟩ |
                ⟨name, value, defines, hdefine, hset, rfl⟩ |
                ⟨hdefine, ⟨d, hmacro, -⟩ | ⟨-, text, ctx, hexpand, rfl⟩⟩⟩
              · cases hactive.symm.trans hoff
              · rw [htext] at hwarn
                cases hwarn
              · rw [hdefine]
                dsimp only
                rw [hset]
                exact ⟨rfl, rfl⟩
              · cases hword.macro_none.symm.trans hmacro
              · rw [hdefine]
                obtain ⟨line, hline, rfl⟩ :=
                  Option.map_eq_some_iff.mp (expandLine_plain (hsubst hactive) hexpand)
                dsimp only
                rw [hline]
                exact ⟨rfl, rfl⟩
    · cases hc'

theorem passTwo_toFlat {n : Nat} {s u : PassTwo} (hn : s.rest.length ≤ n)
    (hwords : ∀ line ∈ sourceLines s.rest, NoDirectiveWord line.1)
    (hsubst : ∀ t ∈ Loop.visited (fun s => s.rest = []) (passTwoStep []) n s,
      t.cond.active = true → ∀ text,
        substituteDefines t.defines (maxLineLength * 4) (readLine t.rest).1 = some text →
          NoDirectiveWord text)
    (h : Loop.run (fun s => s.rest = []) (passTwoStep []) n s = .returns u) :
    preprocessLanguage.runLines s.toFlat ((sourceLines s.rest).map Prod.fst) = some u.toFlat := by
  induction n generalizing s with
  | zero =>
      cases h
      rw [List.length_eq_zero_iff.mp (Nat.le_zero.mp hn)]
      rfl
  | succ n ih =>
      by_cases hne : s.rest = []
      · rw [@Loop.run_done PassTwo (fun s => s.rest = []) _ (n + 1) s (decide_eq_true hne)] at h
        cases h
        rw [hne]
        rfl
      · obtain ⟨t, ht, hrest, hvisited⟩ :=
          @Loop.run_succ PassTwo (fun s => s.rest = []) _ n s u (decide_eq_false hne) h
        rw [hvisited, List.forall_mem_cons] at hsubst
        rw [sourceLines_of_ne hne, List.forall_mem_cons] at hwords
        obtain ⟨hstep, htrest⟩ := passTwoStep_toFlat hwords.1 hsubst.1 ht
        have hlt := readLine_rest_lt hne
        rw [sourceLines_of_ne hne, List.map_cons, runLines, hstep, Option.bind_some, ← htrest]
        apply ih
        · rw [htrest]
          omega
        · rw [htrest]
          exact hwords.2
        · exact hsubst.2
        · exact hrest

theorem passOne_no_macros {n : Nat} {s u : PassOne} (hmacros : s.macros = [])
    (hwords : ∀ line ∈ sourceLines s.rest, NoDirectiveWord line.1)
    (h : Loop.run (fun s => s.rest = []) passOneStep n s = .returns u) : u.macros = [] := by
  refine ((Loop.run_invariant (fun s : PassOne => s.macros = [] ∧
    ∀ line ∈ sourceLines s.rest, NoDirectiveWord line.1) ?_ ⟨hmacros, hwords⟩ h).2).1
  rintro s t ⟨hmacros, hwords⟩ hmore hstep
  rw [sourceLines_of_ne (of_decide_eq_false hmore), List.forall_mem_cons] at hwords
  rcases passOneStep_cases hstep with ⟨cond, -, rfl⟩ | ⟨-, ⟨-, rfl⟩ | ⟨-, hcollect⟩⟩
  · exact ⟨hmacros, hwords.2⟩
  · exact ⟨hmacros, hwords.2⟩
  · rcases collectLine_cases hcollect with ⟨_, _, _, -, -, rfl⟩ | ⟨-, -, rfl⟩ | ⟨-, d, _, hmacro, -⟩
    · exact ⟨hmacros, hwords.2⟩
    · exact ⟨hmacros, hwords.2⟩
    · cases hwords.1.macro_none.symm.trans hmacro

theorem PreprocessRun.plain {env : PreprocessEnv} {tracker : List Path} {source out : List Byte}
    (run : PreprocessRun env tracker source out)
    (hwords : ∀ line ∈ sourceLines source, NoDirectiveWord line.1) :
    run.text = source ∧ run.one.macros = [] := by
  have hplain := expandIncludes_plain env.toIncludeEnv maxIncludeDepth
    (dirnameFromPath env.currentFilename) fun line hline => (hwords line hline).include_none
  have hexpanded := run.expanded
  rw [hplain] at hexpanded
  have htext : run.text = source := (Option.some.inj hexpanded).symm
  have hfirst := run.first
  rw [htext] at hfirst
  exact ⟨htext, passOne_no_macros rfl hwords hfirst⟩

/-- A text that is returned for a source without other directives is what its lines do as nested
blocks, and nothing else is. -/
theorem preprocessMacros_selects {env : PreprocessEnv} {tracker : List Path}
    {source out : List Byte} (hshort : ShortLines source)
    (hwords : ∀ line ∈ textLines source, NoDirectiveWord line)
    (hsubst : ∀ run : PreprocessRun env tracker source out, ∀ t ∈ run.linesTwo,
      t.cond.active = true → ∀ text,
        substituteDefines t.defines (maxLineLength * 4) (readLine t.rest).1 = some text →
          NoDirectiveWord text)
    (h : preprocessMacros env tracker source = .returns out) :
    ∃ seeds defines, seedDefines env = some seeds ∧
      Exec preprocessLanguage (.lines true) (seeds, []) (textLines source) (defines, out) ∧
        ∀ t, Exec preprocessLanguage (.lines true) (seeds, []) (textLines source) t →
          t = (defines, out) := by
  obtain ⟨run⟩ := preprocessRun_of_success h
  have hlines := textLines_eq hshort
  have hsource : ∀ line ∈ sourceLines source, NoDirectiveWord line.1 := by
    intro line hline
    apply hwords
    rw [hlines]
    exact List.mem_map_of_mem hline
  obtain ⟨htext, hmacros⟩ := run.plain hsource
  have hsecond := run.second
  have hvisited := hsubst run
  rw [PreprocessRun.linesTwo, htext, hmacros] at hvisited
  rw [htext, hmacros] at hsecond
  have hrun := passTwo_toFlat (Nat.le_refl _) hsource hvisited hsecond
  rw [← hlines] at hrun
  have hclosed : run.two.toFlat.stack = [] := by
    rw [PassTwo.toFlat, Conditionals.toFlat, run.two_ends.2]
    rfl
  have hexec := exec_of_run hrun hclosed
  have hdata : run.two.toFlat.data = (run.two.defines, out) := Prod.ext rfl run.output
  rw [hdata] at hexec
  exact ⟨run.seeds, run.two.defines, run.seeded, hexec, fun t ht => hexec.unique ht⟩

def secondElse : List Byte :=
  str "%define A 1\n%ifdef A\nadd rax, A\n%if 0\nhlt\n%endif\n%else\nhlt\n%else\nnop\n%endif\n"

theorem preprocessMacros_selects_secondElse : ∃ seeds defines, seedDefines memoryEnv = some seeds ∧
    Exec preprocessLanguage (.lines true) (seeds, []) (textLines secondElse)
      (defines, str "add rax, 1\n") ∧
    ∀ t, Exec preprocessLanguage (.lines true) (seeds, []) (textLines secondElse) t →
      t = (defines, str "add rax, 1\n") := by
  have h : preprocessMacros memoryEnv [] secondElse = .returns (str "add rax, 1\n") := by
    decide +kernel
  refine preprocessMacros_selects (shortLines_of_length (by decide)) (by decide +kernel) ?_ h
  intro run t ht hactive text hsubst
  obtain ⟨htext, hmacros⟩ := run.plain (by decide +kernel)
  have hseeds : run.seeds = [] := (Option.some.inj run.seeded).symm
  rw [PreprocessRun.linesTwo, htext, hmacros, hseeds] at ht
  have hall : ((Loop.visited (fun s : PassTwo => s.rest = []) (passTwoStep []) secondElse.length
      { rest := secondElse, defines := [] }).all fun t =>
        (substituteDefines t.defines (maxLineLength * 4) (readLine t.rest).1).all fun text =>
          decide (NoDirectiveWord text)) = true := by
    decide +kernel
  have hline := List.all_eq_true.mp hall t ht
  rw [hsubst] at hline
  exact of_decide_eq_true hline

end X86Assembler
