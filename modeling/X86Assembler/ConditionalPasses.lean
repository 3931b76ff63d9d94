import X86Assembler.Preprocessor

namespace X86Assembler

open CString (Byte str isSpace startsWithIgnoreCase startsWithIgnoreCase_clash)

theorem startsWith_of_directive {word : String} {line text : List Byte}
    (h : parseExprDirective word line = some text) :
    startsWithIgnoreCase (skipSpaces line) (str word) = true := by
  rw [parseExprDirective] at h
  split at h
  · rename_i hword
    exact (Bool.and_eq_true_iff.mp hword).1
  · cases h

theorem directive_none_of_word {word : String} {line : List Byte}
    (h : startsWithIgnoreCase (skipSpaces line) (str word) = false) :
    parseExprDirective word line = none := by
  rw [parseExprDirective]
  simp only [h, Bool.false_and, Bool.false_eq_true, if_false]

theorem parseMacroDirective_percent {word : String} {line text : List Byte}
    (h : parseExprDirective word line = some text) (hword : (str word)[0]? = some 0x25#8) :
    parseMacroDirective line = .returns none := by
  have hstart := startsWith_of_directive h
  have hpos : 0 < (str word).length := by
    rw [List.length_pos_iff]
    intro hnil
    rw [hnil] at hword
    cases hword
  have hnone : afterDotWord (str "macro") line = none := by
    rw [afterDotWord, startsWithIgnoreCase_clash 0 hpos (by decide) (by rw [hword]; decide) hstart,
      startsWithIgnoreCase_clash 0 hpos (by decide) (by rw [hword]; decide) hstart]
    rfl
  rw [parseMacroDirective, hnone]

theorem parseDefineDirective_warning {line text : List Byte}
    (h : parseExprDirective "%warning" line = some text) :
    parseDefineDirective line = some none := by
  have hstart := startsWith_of_directive h
  have hdefine : startsWithIgnoreCase (skipSpaces line) (str "%define") = false :=
    startsWithIgnoreCase_clash 1 (by decide) (by decide) (by decide) hstart
  rw [parseDefineDirective, directive_none_of_word hdefine]

theorem isEndmDirective_newline (line : List Byte) :
    isEndmDirective (line ++ [0x0A#8]) = isEndmDirective line := by
  have hskip : skipSpaces (line ++ [0x0A#8]) = skipSpaces line ∨
      skipSpaces (line ++ [0x0A#8]) = skipSpaces line ++ [0x0A#8] := by
    rw [skipSpaces, skipSpaces, List.dropWhile_append]
    split
    · rename_i hnil
      left
      rw [List.isEmpty_iff.mp hnil]
      rfl
    · exact .inr rfl
  rcases hskip with hskip | hskip
  · rw [isEndmDirective, isEndmDirective, hskip]
  · rw [isEndmDirective, isEndmDirective, hskip,
      CString.startsWithIgnoreCase_concat (by decide),
      CString.startsWithIgnoreCase_concat (by decide)]

theorem skipMacroBody_eq (rounds : Nat) (text : List Byte) :
    skipMacroBody rounds text = (macroBody rounds text).2.2 := by
  induction rounds generalizing text with
  | zero => rfl
  | succ rounds ih =>
      rw [skipMacroBody, macroBody]
      split
      · rfl
      · have hraw : isEndmDirective (readLine text).2.1 = isEndmDirective (readLine text).1 := by
          rw [readLine]
          split
          · exact isEndmDirective_newline _
          · rfl
        simp only [hraw]
        split
        · rfl
        · exact ih _

/-- The name that an `%ifdef` or `%ifndef` line asks for, and which of the two it is. -/
def definednessLine (line : List Byte) : Option (Bool × List Byte) :=
  match parseExprDirective "%if" line with
  | some _ => none
  | none =>
    match parseSymbolDirective "%ifdef" line with
    | some (some name) => some (true, name)
    | some none =>
      match parseSymbolDirective "%ifndef" line with
      | some (some name) => some (false, name)
      | _ => none
    | none => none

theorem conditionalLine_other {defines : List Define} {macros macros' : List Macro}
    {line : List Byte} {c : Conditionals} (h : definednessLine line = none) :
    conditionalLine defines macros line c = conditionalLine defines macros' line c := by
  rw [definednessLine] at h
  rw [conditionalLine, conditionalLine]
  cases hif : parseExprDirective "%if" line with
  | some expr => rfl
  | none =>
      rw [hif] at h
      cases hdef : parseSymbolDirective "%ifdef" line with
      | none => rfl
      | some name =>
          rw [hdef] at h
          cases name with
          | some name => cases h
          | none =>
              cases hndef : parseSymbolDirective "%ifndef" line with
              | none => rfl
              | some name =>
                  rw [hndef] at h
                  cases name with
                  | some name => cases h
                  | none => rfl

theorem conditionalLine_definedness {defines : List Define} {macros : List Macro}
    {line name : List Byte} {positive : Bool} {c : Conditionals}
    (h : definednessLine line = some (positive, name)) :
    conditionalLine defines macros line c =
      .ofOption ((c.enter (isDefined defines macros name == positive)).map some) := by
  rw [definednessLine] at h
  rw [conditionalLine]
  cases hif : parseExprDirective "%if" line with
  | some expr =>
      rw [hif] at h
      cases h
  | none =>
      rw [hif] at h
      cases hdef : parseSymbolDirective "%ifdef" line with
      | none =>
          rw [hdef] at h
          cases h
      | some found =>
          rw [hdef] at h
          cases found with
          | some found =>
              cases h
              rw [beq_true]
          | none =>
              cases hndef : parseSymbolDirective "%ifndef" line with
              | none =>
                  rw [hndef] at h
                  cases h
              | some found =>
                  rw [hndef] at h
                  cases found with
                  | some found =>
                      cases h
                      rw [beq_false]
                  | none => cases h

theorem collectLine_cases {line rest : List Byte} {s t : PassOne}
    (h : collectLine line rest s = .returns t) :
    (∃ name value defines, parseDefineDirective line = some (some (name, value)) ∧
      defineSet s.defines name value = some defines ∧ t = { s with rest, defines }) ∨
    (parseDefineDirective line = some none ∧ parseMacroDirective line = .returns none ∧
      t = { s with rest }) ∨
    (parseDefineDirective line = some none ∧ ∃ d macros, parseMacroDirective line =
      .returns (some d) ∧ s.macros <+: macros ∧
        t = { s with rest := (macroBody rest.length rest).2.2, macros }) := by
  rw [collectLine] at h
  cases hdef : parseDefineDirective line with
  | none =>
      rw [hdef] at h
      cases h
  | some define =>
      rw [hdef] at h
      cases define with
      | some define =>
          obtain ⟨defines, hset, h⟩ := Outcome.bind_eq_returns.mp h
          cases h
          exact .inl ⟨define.1, define.2, defines, rfl, Outcome.ofOption_eq_returns.mp hset, rfl⟩
      | none =>
          obtain ⟨found, hstarts, h⟩ := Outcome.bind_eq_returns.mp h
          cases found with
          | none =>
              cases h
              exact .inr (.inl ⟨rfl, hstarts, rfl⟩)
          | some d =>
              obtain ⟨m, hm, h⟩ := Outcome.bind_eq_returns.mp h
              cases h
              refine .inr (.inr ⟨rfl, d, _, hstarts, ?_, rfl⟩)
              split
              · exact List.prefix_append _ _
              · exact List.prefix_refl _

theorem passOneStep_cases {s t : PassOne} (h : passOneStep s = .returns t) :
    (∃ cond, conditionalLine s.defines s.macros (readLine s.rest).1 s.cond =
      .returns (some cond) ∧ t = { s with rest := (readLine s.rest).2.2, cond }) ∨
    (conditionalLine s.defines s.macros (readLine s.rest).1 s.cond = .returns none ∧
      ((s.cond.active = false ∧ t = { s with rest := (readLine s.rest).2.2 }) ∨
        (s.cond.active = true ∧
          collectLine (readLine s.rest).1 (readLine s.rest).2.2 s = .returns t))) := by
  rw [passOneStep] at h
  obtain ⟨found, hcond, h⟩ := Outcome.bind_eq_returns.mp h
  cases found with
  | some cond =>
      cases h
      exact .inl ⟨cond, hcond, rfl⟩
  | none =>
      right
      refine ⟨hcond, ?_⟩
      cases hactive : s.cond.active with
      | false =>
          rw [hactive] at h
          cases h
          exact .inl ⟨rfl, rfl⟩
      | true =>
          rw [hactive] at h
          exact .inr ⟨rfl, h⟩

theorem emitLine_cases {macros : List Macro} {line rest : List Byte} {s t : PassTwo}
    (h : emitLine macros line rest s = .returns t) :
    (s.cond.active = false ∧ t = { s with rest }) ∨
    (s.cond.active = true ∧
      ((∃ text, parseExprDirective "%warning" line = some text ∧ t = { s with rest }) ∨
      (∃ name value defines, parseDefineDirective line = some (some (name, value)) ∧
        defineSet s.defines name value = some defines ∧ t = { s with rest, defines }) ∨
      (parseDefineDirective line = some none ∧
        ((∃ d, parseMacroDirective line = .returns (some d) ∧
          t = { s with rest := skipMacroBody rest.length rest }) ∨
        (parseMacroDirective line = .returns none ∧ ∃ text macroCtx,
          expandLine macros s.defines s.macroCtx line = .returns (text, macroCtx) ∧
            t = { s with rest, macroCtx, out := s.out ++ text }))))) := by
  rw [emitLine] at h
  cases hactive : s.cond.active with
  | false =>
      left
      simp only [hactive, Bool.false_and, Bool.false_eq_true, if_false] at h
      cases hdef : parseDefineDirective line with
      | none =>
          rw [hdef] at h
          cases h
      | some define =>
          rw [hdef] at h
          cases h
          exact ⟨rfl, rfl⟩
  | true =>
      right
      refine ⟨rfl, ?_⟩
      simp only [hactive, Bool.true_and, if_true] at h
      split at h
      · cases h
      · split at h
        · rename_i hwarn
          obtain ⟨text, htext⟩ := Option.isSome_iff_exists.mp hwarn
          cases h
          exact .inl ⟨text, htext, rfl⟩
        · right
          cases hdef : parseDefineDirective line with
          | none =>
              rw [hdef] at h
              cases h
          | some define =>
              rw [hdef] at h
              cases define with
              | some define =>
                  obtain ⟨defines, hset, h⟩ := Outcome.bind_eq_returns.mp h
                  cases h
                  exact .inl ⟨define.1, define.2, defines, rfl,
                    Outcome.ofOption_eq_returns.mp hset, rfl⟩
              | none =>
                  right
                  refine ⟨rfl, ?_⟩
                  obtain ⟨found, hstarts, h⟩ := Outcome.bind_eq_returns.mp h
                  cases found with
                  | some d =>
                      cases h
                      exact .inl ⟨d, hstarts, rfl⟩
                  | none =>
                      obtain ⟨⟨text, macroCtx⟩, hexpand, h⟩ := Outcome.bind_eq_returns.mp h
                      cases h
                      exact .inr ⟨hstarts, text, macroCtx, hexpand, rfl⟩

theorem passTwoStep_cases {macros : List Macro} {s t : PassTwo}
    (h : passTwoStep macros s = .returns t) :
    (∃ cond, conditionalLine s.defines macros (readLine s.rest).1 s.cond =
      .returns (some cond) ∧ t = { s with rest := (readLine s.rest).2.2, cond }) ∨
    (conditionalLine s.defines macros (readLine s.rest).1 s.cond = .returns none ∧
      emitLine macros (readLine s.rest).1 (readLine s.rest).2.2 s = .returns t) := by
  rw [passTwoStep] at h
  obtain ⟨found, hcond, h⟩ := Outcome.bind_eq_returns.mp h
  cases found with
  | some cond =>
      cases h
      exact .inl ⟨cond, hcond, rfl⟩
  | none => exact .inr ⟨hcond, h⟩

theorem macroBody_rest_le (rounds : Nat) (text : List Byte) :
    (macroBody rounds text).2.2.length ≤ text.length := by
  induction rounds generalizing text with
  | zero => exact Nat.le_refl _
  | succ rounds ih =>
      rw [macroBody]
      split
      · exact Nat.zero_le _
      · rename_i hne
        have hlt := readLine_rest_lt hne
        simp only
        split
        · exact Nat.le_of_lt hlt
        · exact Nat.le_trans (ih _) (Nat.le_of_lt hlt)

theorem passOneStep_progress {s t : PassOne} (hs : s.rest ≠ [])
    (h : passOneStep s = .returns t) : t.rest.length < s.rest.length := by
  have hlt := readLine_rest_lt hs
  rcases passOneStep_cases h with ⟨cond, -, rfl⟩ | ⟨-, ⟨-, rfl⟩ | ⟨-, h⟩⟩
  · exact hlt
  · exact hlt
  · rcases collectLine_cases h with ⟨_, _, _, -, -, rfl⟩ | ⟨-, -, rfl⟩ | ⟨-, _, _, -, -, rfl⟩
    · exact hlt
    · exact hlt
    · exact Nat.lt_of_le_of_lt (macroBody_rest_le _ _) hlt

theorem passTwoStep_progress {macros : List Macro} {s t : PassTwo} (hs : s.rest ≠ [])
    (h : passTwoStep macros s = .returns t) : t.rest.length < s.rest.length := by
  have hlt := readLine_rest_lt hs
  rcases passTwoStep_cases h with ⟨cond, -, rfl⟩ | ⟨-, h⟩
  · exact hlt
  · rcases emitLine_cases h with ⟨-, rfl⟩ | ⟨-, ⟨_, -, rfl⟩ | ⟨_, _, _, -, -, rfl⟩ |
      ⟨-, ⟨_, -, rfl⟩ | ⟨-, _, _, -, rfl⟩⟩⟩
    · exact hlt
    · exact hlt
    · exact hlt
    · refine Nat.lt_of_le_of_lt ?_ hlt
      simp only [skipMacroBody_eq]
      exact macroBody_rest_le _ _
    · exact hlt

/-- The passes agree on what lies ahead of them and around them. -/
structure InStep (s : PassOne) (t : PassTwo) : Prop where
  rest : t.rest = s.rest
  cond : t.cond = s.cond
  defines : t.defines = s.defines

/-- The definedness that the next line asks for, if it is active, is the same under the macros
defined so far and under all macros. -/
def AsksAlike (macros : List Macro) (s : PassOne) : Prop :=
  s.cond.active = true → ∀ positive name,
    definednessLine (readLine s.rest).1 = some (positive, name) →
      isDefined s.defines s.macros name = isDefined s.defines macros name

theorem enter_inactive {c : Conditionals} (h : c.active = false) (taken taken' : Bool) :
    c.enter taken = c.enter taken' := by
  simp only [Conditionals.enter, h, Bool.false_and]

theorem enter_active {c c' : Conditionals} {taken : Bool} (h : c.active = true)
    (hc : c.enter taken = some c') : c'.active = taken ∧ c'.stack ≠ [] := by
  rw [Conditionals.enter] at hc
  split at hc
  · cases hc
  · cases hc
    exact ⟨by rw [h, Bool.true_and], List.cons_ne_nil _ _⟩

theorem conditionalLine_alike {macros : List Macro} {s : PassOne} (h : AsksAlike macros s) :
    conditionalLine s.defines s.macros (readLine s.rest).1 s.cond =
      conditionalLine s.defines macros (readLine s.rest).1 s.cond := by
  cases hasks : definednessLine (readLine s.rest).1 with
  | none => exact conditionalLine_other hasks
  | some asked =>
      obtain ⟨positive, name⟩ := asked
      rw [conditionalLine_definedness hasks, conditionalLine_definedness hasks]
      cases hactive : s.cond.active with
      | true => rw [h hactive positive name hasks]
      | false => rw [enter_inactive hactive]

theorem collected_inStep {macros : List Macro} {line rest : List Byte} {s s' : PassOne}
    {t t' : PassTwo} (hcond : t.cond = s.cond) (hdefines : t.defines = s.defines)
    (hone : collectLine line rest s = .returns s') (hon : s.cond.active = true)
    (htwo : emitLine macros line rest t = .returns t') : InStep s' t' := by
  rcases emitLine_cases htwo with ⟨hoff, -⟩ | ⟨-, ⟨text, hwarn, rfl⟩ |
    ⟨name, value, defines, hdef, hset, rfl⟩ | ⟨hdef, htwo⟩⟩
  · rw [hcond, hon] at hoff
    cases hoff
  · have hdef := parseDefineDirective_warning hwarn
    have hstarts := parseMacroDirective_percent hwarn rfl
    rcases collectLine_cases hone with ⟨_, _, _, hdef', -⟩ | ⟨-, -, rfl⟩ | ⟨-, _, _, hstarts', -⟩
    · rw [hdef] at hdef'
      cases hdef'
    · exact ⟨rfl, hcond, hdefines⟩
    · rw [hstarts] at hstarts'
      cases hstarts'
  · rcases collectLine_cases hone with ⟨_, _, _, hdef', hset', rfl⟩ | ⟨hdef', -⟩ | ⟨hdef', -⟩
    · rw [hdef] at hdef'
      cases hdef'
      rw [hdefines, hset'] at hset
      cases hset
      exact ⟨rfl, hcond, rfl⟩
    · rw [hdef] at hdef'
      cases hdef'
    · rw [hdef] at hdef'
      cases hdef'
  · rcases collectLine_cases hone with ⟨_, _, _, hdef', -⟩ | ⟨-, hstarts, rfl⟩ |
      ⟨-, d, _, hstarts, -, rfl⟩
    · rw [hdef] at hdef'
      cases hdef'
    · rcases htwo with ⟨_, hstarts', -⟩ | ⟨-, _, _, -, rfl⟩
      · rw [hstarts] at hstarts'
        cases hstarts'
      · exact ⟨rfl, hcond, hdefines⟩
    · rcases htwo with ⟨_, -, rfl⟩ | ⟨hstarts', -⟩
      · exact ⟨skipMacroBody_eq _ _, hcond, hdefines⟩
      · rw [hstarts] at hstarts'
        cases hstarts'

theorem InStep.step {macros : List Macro} {s s' : PassOne} {t t' : PassTwo} (h : InStep s t)
    (hasks : AsksAlike macros s) (hs : passOneStep s = .returns s')
    (ht : passTwoStep macros t = .returns t') : InStep s' t' := by
  obtain ⟨hrest, hcond, hdefines⟩ := h
  have halike := conditionalLine_alike hasks
  rcases passOneStep_cases hs with ⟨cond, hline, rfl⟩ | ⟨hline, hone⟩
  · rcases passTwoStep_cases ht with ⟨cond', hline', rfl⟩ | ⟨hline', -⟩
    · rw [hrest, hcond, hdefines, ← halike, hline] at hline'
      cases hline'
      exact ⟨by rw [hrest], rfl, hdefines⟩
    · rw [hrest, hcond, hdefines, ← halike, hline] at hline'
      cases hline'
  · rcases passTwoStep_cases ht with ⟨cond', hline', -⟩ | ⟨-, htwo⟩
    · rw [hrest, hcond, hdefines, ← halike, hline] at hline'
      cases hline'
    · rw [hrest] at htwo
      rcases hone with ⟨hoff, rfl⟩ | ⟨hon, hone⟩
      · rcases emitLine_cases htwo with ⟨-, rfl⟩ | ⟨hon, -⟩
        · exact ⟨rfl, hcond, hdefines⟩
        · rw [hcond, hoff] at hon
          cases hon
      · exact collected_inStep hcond hdefines hone hon htwo

theorem isMacroName_mono {macros macros' : List Macro} {name : List Byte}
    (hgrow : macros <+: macros') (h : isMacroName macros name = true) :
    isMacroName macros' name = true := by
  obtain ⟨later, rfl⟩ := hgrow
  rw [isMacroName, macroLookup] at h ⊢
  rw [List.find?_append, Option.isSome_or, h, Bool.true_or]

theorem passOne_grow {n : Nat} {s u : PassOne}
    (h : Loop.run (fun s => s.rest = []) passOneStep n s = .returns u) : s.macros <+: u.macros ∧
      ∀ v ∈ Loop.visited (fun s => s.rest = []) passOneStep n s, v.macros <+: u.macros := by
  refine Loop.visited_related (fun s t => s.macros <+: t.macros) (fun s => List.prefix_refl _)
    (fun a b c => List.IsPrefix.trans) ?_ h
  intro s t _ h
  rcases passOneStep_cases h with ⟨cond, -, rfl⟩ | ⟨-, ⟨-, rfl⟩ | ⟨-, h⟩⟩
  · exact List.prefix_refl _
  · exact List.prefix_refl _
  · rcases collectLine_cases h with ⟨_, _, _, -, -, rfl⟩ | ⟨-, -, rfl⟩ | ⟨-, _, _, -, hgrow, rfl⟩
    · exact List.prefix_refl _
    · exact List.prefix_refl _
    · exact hgrow

/-- A run of `preprocess_macros` that returns a text: the text after include expansion, the
command-line defines, and the states at the end of the two passes. -/
structure PreprocessRun (env : PreprocessEnv) (tracker : List Path) (source out : List Byte) where
  text : List Byte
  seeds : List Define
  one : PassOne
  two : PassTwo
  expanded : (expandIncludes env.toIncludeEnv (maxIncludeDepth + 1)
    (dirnameFromPath env.currentFilename) source tracker).1 = some text
  seeded : seedDefines env = some seeds
  first : passOne { rest := text, defines := seeds } = .returns one
  firstClosed : allClosed one.cond = true
  second : passTwo one.macros { rest := text, defines := seeds } = .returns two
  secondClosed : allClosed two.cond = true
  output : two.out = out

theorem preprocessRun_of_success {env : PreprocessEnv} {tracker : List Path}
    {source out : List Byte} (h : preprocessMacros env tracker source = .returns out) :
    Nonempty (PreprocessRun env tracker source out) := by
  rw [preprocessMacros] at h
  cases htext : (expandIncludes env.toIncludeEnv (maxIncludeDepth + 1)
      (dirnameFromPath env.currentFilename) source tracker).1 with
  | none =>
      rw [htext] at h
      cases h
  | some text =>
      rw [htext] at h
      obtain ⟨seeds, hseeds, h⟩ := Outcome.bind_eq_returns.mp h
      obtain ⟨one, hone, h⟩ := Outcome.bind_eq_returns.mp h
      split at h
      · rename_i hclosed
        obtain ⟨two, htwo, h⟩ := Outcome.bind_eq_returns.mp h
        split at h
        · rename_i hclosed'
          cases h
          exact ⟨⟨text, seeds, one, two, htext, Outcome.ofOption_eq_returns.mp hseeds, hone,
            hclosed, htwo, hclosed', rfl⟩⟩
        · cases h
      · cases h

namespace PreprocessRun

variable {env : PreprocessEnv} {tracker : List Path} {source out : List Byte}
  (run : PreprocessRun env tracker source out)

def linesOne : List PassOne :=
  Loop.visited (fun s => s.rest = []) passOneStep run.text.length
    { rest := run.text, defines := run.seeds }

def linesTwo : List PassTwo :=
  Loop.visited (fun s => s.rest = []) (passTwoStep run.one.macros) run.text.length
    { rest := run.text, defines := run.seeds }

/-- Both passes read the same lines and treat the same ones as active, and the body of an
include guard is active in the second pass when the guard is first met. -/
structure PassesAgree : Prop where
  lines : run.linesOne.map (fun s => (s.rest, s.cond.active)) =
    run.linesTwo.map fun s => (s.rest, s.cond.active)
  guards : ∀ s ∈ run.linesOne, s.cond.active = true → ∀ name,
    definednessLine (readLine s.rest).1 = some (false, name) →
      isDefined s.defines s.macros name = false →
        ∃ t ∈ run.linesTwo, t.rest = (readLine s.rest).2.2 ∧ t.cond.active = true

/-- No active `%ifdef` or `%ifndef` asks for a name that is no define and becomes a macro only
further down. -/
def NoLateMacro : Prop :=
  ∀ s ∈ run.linesOne, s.cond.active = true → ∀ positive name,
    definednessLine (readLine s.rest).1 = some (positive, name) →
      isMacroName run.one.macros name = true → isDefined s.defines s.macros name = true

/-- A line that asks for what only the second pass knows makes one of the passes enter its body
and the other one not. -/
theorem asked_split {macros : List Macro} {s s' : PassOne} {t t' : PassTwo} (h : InStep s t)
    (hasks : ¬ AsksAlike macros s) (hs : passOneStep s = .returns s')
    (ht : passTwoStep macros t = .returns t') :
    t'.rest = s'.rest ∧ t'.cond.active ≠ s'.cond.active ∧ s'.cond.stack ≠ [] := by
  obtain ⟨hrest, hcond, hdefines⟩ := h
  rw [AsksAlike] at hasks
  push Not at hasks
  obtain ⟨hon, positive, name, hasks, hne⟩ := hasks
  have hline := @conditionalLine_definedness s.defines s.macros _ _ _ s.cond hasks
  have hline' := @conditionalLine_definedness s.defines macros _ _ _ s.cond hasks
  rcases passOneStep_cases hs with ⟨cond, hone, rfl⟩ | ⟨hone, -⟩
  · rcases passTwoStep_cases ht with ⟨cond', htwo, rfl⟩ | ⟨htwo, -⟩
    · rw [hrest, hcond, hdefines, hline', Outcome.ofOption_eq_returns,
        Option.map_eq_some_iff] at htwo
      rw [hline, Outcome.ofOption_eq_returns, Option.map_eq_some_iff] at hone
      obtain ⟨_, hone, hcond₁⟩ := hone
      obtain ⟨_, htwo, hcond₂⟩ := htwo
      cases hcond₁
      cases hcond₂
      obtain ⟨hactive, hstack⟩ := enter_active hon hone
      obtain ⟨hactive', -⟩ := enter_active hon htwo
      refine ⟨by rw [hrest], ?_, hstack⟩
      rw [hactive, hactive']
      intro heq
      revert hne heq
      cases isDefined s.defines s.macros name <;> cases isDefined s.defines macros name <;>
        cases positive <;> decide
    · rw [hrest, hcond, hdefines, hline', Outcome.ofOption_eq_returns,
        Option.map_eq_some_iff] at htwo
      obtain ⟨_, -, htwo⟩ := htwo
      cases htwo
  · rw [hline, Outcome.ofOption_eq_returns, Option.map_eq_some_iff] at hone
    obtain ⟨_, -, hone⟩ := hone
    cases hone

theorem one_ends : (run.one.rest = []) ∧ run.one.cond.stack = [] := by
  refine ⟨?_, of_decide_eq_true run.firstClosed⟩
  apply of_decide_eq_true
  refine @Loop.run_ends PassOne (fun s => s.rest = []) _ (fun s => s.rest.length) ?_ ?_ _ _ _
    (Nat.le_refl _) run.first
  · intro s hs
    exact decide_eq_true (List.length_eq_zero_iff.mp hs)
  · intro s t hs
    exact passOneStep_progress (of_decide_eq_false hs)

theorem two_ends : (run.two.rest = []) ∧ run.two.cond.stack = [] := by
  refine ⟨?_, of_decide_eq_true run.secondClosed⟩
  apply of_decide_eq_true
  refine @Loop.run_ends PassTwo (fun s => s.rest = []) _ (fun s => s.rest.length) ?_ ?_ _ _ _
    (Nat.le_refl _) run.second
  · intro s hs
    exact decide_eq_true (List.length_eq_zero_iff.mp hs)
  · intro s t hs
    exact passTwoStep_progress (of_decide_eq_false hs)

/-- The passes go through the same lines with the same activity exactly when no line asks for
what only the second pass knows. -/
theorem lines_iff : run.linesOne.map (fun s => (s.rest, s.cond.active)) =
      run.linesTwo.map (fun s => (s.rest, s.cond.active)) ↔
    ∀ s ∈ run.linesOne, AsksAlike run.one.macros s := by
  refine @Loop.visited_eq_iff _ _ _ _ _ _ _ InStep (AsksAlike run.one.macros) _ _ ?_ ?_ ?_
    (fun s => s.rest = [] ∧ s.cond.stack = []) (fun s => s.rest = [] ∧ s.cond.stack = []) ?_
    _ _ _ _ _ ⟨rfl, rfl, rfl⟩ run.first run.one_ends run.second run.two_ends
  · intro s t h
    rw [h.rest, h.cond]
  · intro s t h
    rw [h.rest]
  · intro s t s' t' h _ hasks hs ht
    exact h.step hasks hs ht
  · intro s t s' t' h _ hasks hs ht n u u' hr hu hr' hu' heq
    obtain ⟨hrest, hactive, hstack⟩ := asked_split h hasks hs ht
    have hmore : s'.rest ≠ [] := by
      intro hnil
      have hdone := @Loop.run_done PassOne (fun s => s.rest = []) passOneStep n s'
        (decide_eq_true hnil)
      rw [hdone] at hr
      cases hr
      exact hstack hu.2
    obtain ⟨_, hone⟩ := @Loop.visited_first PassOne (fun s => s.rest = []) _ _ _ _
      (decide_eq_false hmore) (decide_eq_true hu.1) hr
    obtain ⟨_, htwo⟩ := @Loop.visited_first PassTwo (fun s => s.rest = []) _ _ _ _
      (decide_eq_false (by rw [hrest]; exact hmore)) (decide_eq_true hu'.1) hr'
    rw [hone, htwo, List.map_cons, List.map_cons, List.cons_eq_cons, Prod.mk.injEq] at heq
    exact hactive heq.1.2.symm

theorem macros_grow {s : PassOne} (hs : s ∈ run.linesOne) : s.macros <+: run.one.macros :=
  (passOne_grow run.first).2 s hs

theorem noLateMacro_iff : run.NoLateMacro ↔ ∀ s ∈ run.linesOne, AsksAlike run.one.macros s := by
  refine forall₂_congr fun s hs => ?_
  refine forall_congr' fun hon => forall₃_congr fun positive name hasks => ?_
  have hgrow := @isMacroName_mono s.macros run.one.macros name (run.macros_grow hs)
  simp only [isDefined]
  cases hall : isMacroName run.one.macros name with
  | false =>
      have hnot : isMacroName s.macros name = false := by
        rw [Bool.eq_false_iff]
        intro hname
        exact Bool.false_ne_true (hall.symm.trans (hgrow hname))
      simp [hnot]
  | true => simp

/-- Behind an active `%ifndef` for an unknown name lies a line that the first pass finds
active. -/
theorem guard_body {s : PassOne} {name : List Byte} (hs : s ∈ run.linesOne)
    (hon : s.cond.active = true) (hasks : definednessLine (readLine s.rest).1 = some (false, name))
    (hnew : isDefined s.defines s.macros name = false) :
    ∃ w ∈ run.linesOne, w.rest = (readLine s.rest).2.2 ∧ w.cond.active = true := by
  obtain ⟨m, w, hstep, hrest, hmem⟩ := Loop.visited_next run.first hs
  have hline := @conditionalLine_definedness s.defines s.macros _ _ _ s.cond hasks
  rcases passOneStep_cases hstep with ⟨cond, hone, rfl⟩ | ⟨hone, -⟩
  · rw [hline, Outcome.ofOption_eq_returns, Option.map_eq_some_iff] at hone
    obtain ⟨_, hone, hcond⟩ := hone
    cases hcond
    obtain ⟨hactive, hstack⟩ := enter_active hon hone
    have hmore : (readLine s.rest).2.2 ≠ [] := by
      intro hnil
      rw [hnil, @Loop.run_done PassOne (fun s => s.rest = []) passOneStep m _ rfl] at hrest
      have hend := run.one_ends.2
      rw [← Outcome.returns.inj hrest] at hend
      exact hstack hend
    refine ⟨_, hmem (decide_eq_false hmore) (decide_eq_true run.one_ends.1), rfl, ?_⟩
    rw [hactive, hnew]
    rfl
  · rw [hline, Outcome.ofOption_eq_returns, Option.map_eq_some_iff] at hone
    obtain ⟨_, -, hone⟩ := hone
    cases hone

theorem passesAgree_run : run.PassesAgree ↔ run.NoLateMacro := by
  rw [noLateMacro_iff, ← lines_iff]
  constructor
  · intro h
    exact h.lines
  · intro h
    refine ⟨h, ?_⟩
    intro s hs hon name hasks hnew
    obtain ⟨w, hw, hrest, hactive⟩ := run.guard_body hs hon hasks hnew
    have hmem := @List.mem_map_of_mem _ _ _ _ (fun s : PassOne => (s.rest, s.cond.active)) hw
    rw [h, List.mem_map] at hmem
    obtain ⟨t, ht, hsame⟩ := hmem
    rw [Prod.mk.injEq] at hsame
    exact ⟨t, ht, hsame.1.trans hrest, hsame.2.trans hactive⟩

end PreprocessRun

/-- The passes agree on the conditionals of a text that is preprocessed exactly when no macro
comes too late for an `%ifdef` or `%ifndef`. -/
theorem passesAgree_iff {env : PreprocessEnv} {tracker : List Path} {source out : List Byte}
    (h : preprocessMacros env tracker source = .returns out) :
    Nonempty (PreprocessRun env tracker source out) ∧
      ∀ run : PreprocessRun env tracker source out, run.PassesAgree ↔ run.NoLateMacro :=
  ⟨preprocessRun_of_success h, fun run => run.passesAgree_run⟩

/-- Reading a text from memory, with no files and no command-line defines. -/
def memoryEnv : PreprocessEnv where
  files := fun _ => none
  includePaths := []
  currentFilename := str "<memory>"
  cliDefines := []

def guardedDefine : List Byte := str "%ifndef G\n%define G 1\nnop\n%endif\n"

theorem passesAgree_iff_guardedDefine :
    Nonempty (PreprocessRun memoryEnv [] guardedDefine (str "nop\n")) ∧
      ∀ run : PreprocessRun memoryEnv [] guardedDefine (str "nop\n"),
        run.PassesAgree ↔ run.NoLateMacro :=
  passesAgree_iff (by decide +kernel)

def guardedMacro : List Byte := str "%ifndef G\n.macro G\nret\n.endm\nnop\n%endif\n"

/-- The include guard that a macro defines: its body is lost. -/
theorem passesAgree_guardedMacro : preprocessMacros memoryEnv [] guardedMacro = .returns [] ∧
    ∀ run : PreprocessRun memoryEnv [] guardedMacro [], ¬ run.PassesAgree := by
  refine ⟨by decide +kernel, ?_⟩
  intro run hagree
  have hlate := run.passesAgree_run.mp hagree
  have htext : run.text = guardedMacro := by
    have hexpanded := run.expanded
    rw [show (expandIncludes memoryEnv.toIncludeEnv (maxIncludeDepth + 1)
      (dirnameFromPath memoryEnv.currentFilename) guardedMacro []).1 = some guardedMacro from by
        decide +kernel] at hexpanded
    exact (Option.some.inj hexpanded).symm
  have hseeds : run.seeds = [] := (Option.some.inj run.seeded).symm
  have hfirst := run.first
  rw [htext, hseeds] at hfirst
  have hdefined : ∀ one, passOne { rest := guardedMacro, defines := [] } = .returns one →
      isMacroName one.macros (str "G") = true := by
    intro one hone
    have hstarts : (passOne { rest := guardedMacro, defines := [] }).bind
        (fun one => .returns (isMacroName one.macros (str "G"))) = .returns true := by
      decide +kernel
    rw [hone] at hstarts
    exact Outcome.returns.inj hstarts
  have hline : { rest := guardedMacro, defines := [] } ∈ run.linesOne := by
    rw [PreprocessRun.linesOne, htext, hseeds]
    decide +kernel
  have hknown := hlate _ hline rfl false (str "G") (by decide +kernel) (hdefined _ hfirst)
  exact absurd hknown (by decide +kernel)

end X86Assembler
