import Mathlib.Data.List.Basic
import Mathlib.Data.List.Induction
import X86Assembler.ConditionalPasses
import X86Assembler.SourceLines

namespace X86Assembler

open CString (Byte str startsWithIgnoreCase)

/-- A line that the passes take for a conditional directive. -/
def isConditionalLine (line : List Byte) : Bool :=
  (parseExprDirective "%if" line).isSome || parseSymbolDirective "%ifdef" line != some none ||
    parseSymbolDirective "%ifndef" line != some none ||
      startsWithIgnoreCase (skipSpaces line) (str "%else") ||
        startsWithIgnoreCase (skipSpaces line) (str "%endif")

theorem conditionalLine_none {line : List Byte} (h : isConditionalLine line = false)
    (defines : List Define) (macros : List Macro) (c : Conditionals) :
    conditionalLine defines macros line c = .returns none := by
  simp only [isConditionalLine, Bool.or_eq_false_iff, Option.isSome_eq_false_iff,
    Option.isNone_iff_eq_none, bne_eq_false_iff_eq] at h
  obtain ⟨⟨⟨⟨hif, hifdef⟩, hifndef⟩, helse⟩, hendif⟩ := h
  simp only [conditionalLine, hif, hifdef, hifndef, helse, hendif, Bool.false_eq_true, if_false]

theorem macroBody_append {n m : Nat} {text : List Byte} (h : EndsLine text)
    (hbody : (macroBody n text).2.1 = true) (hle : n ≤ m) (more : List Byte) :
    macroBody m (text ++ more) =
      ((macroBody n text).1, true, (macroBody n text).2.2 ++ more) := by
  induction n generalizing m text with
  | zero => cases hbody
  | succ n ih =>
      obtain ⟨m, rfl⟩ : ∃ k, m = k + 1 := ⟨m - 1, by omega⟩
      rw [macroBody] at hbody
      rw [macroBody, macroBody]
      split at hbody
      · cases hbody
      · rename_i hne
        rw [if_neg (List.append_ne_nil_of_left_ne_nil hne _), if_neg hne, readLine_append h hne]
        simp only at hbody ⊢
        split at hbody
        · rename_i hend
          rw [if_pos hend, if_pos hend]
        · rename_i hend
          rw [if_neg hend, if_neg hend, ih h.rest hbody (Nat.le_of_succ_le_succ hle)]

theorem EndsLine.body {n : Nat} {text : List Byte} (h : EndsLine text) :
    EndsLine (macroBody n text).2.2 := by
  induction n generalizing text with
  | zero => exact h
  | succ n ih =>
      rw [macroBody]
      split
      · intro b hb
        cases hb
      · simp only
        split
        · exact h.rest
        · exact ih h.rest

theorem macroBody_open {n : Nat} {text : List Byte} (hn : text.length ≤ n)
    (h : (macroBody n text).2.1 = false) : (macroBody n text).2.2 = [] := by
  induction n generalizing text with
  | zero => exact List.length_eq_zero_iff.mp (Nat.le_zero.mp hn)
  | succ n ih =>
      rw [macroBody] at h ⊢
      split at h
      · rename_i hnil
        rw [if_pos hnil]
      · rename_i hne
        have hlt := readLine_rest_lt hne
        rw [if_neg hne]
        simp only at h ⊢
        split at h
        · cases h
        · rename_i hend
          rw [if_neg hend]
          exact ih (Nat.le_of_lt_succ (Nat.lt_of_lt_of_le hlt hn)) h

theorem collectLine_append {line rest : List Byte} {s : PassOne} (hends : EndsLine rest)
    (hon : s.cond.active = true) (hdead : ∀ t, collectLine line rest s = .returns t →
      t.rest = [] → t.cond.active = false) (before more : List Byte) :
    collectLine line (rest ++ more) { s with rest := before } =
      (collectLine line rest s).bind fun t => .returns { t with rest := t.rest ++ more } := by
  rw [collectLine] at hdead
  rw [collectLine, collectLine]
  cases hdefine : parseDefineDirective line with
  | none => rfl
  | some define =>
      cases define with
      | some define =>
          cases hset : defineSet s.defines define.1 define.2 <;>
            simp only [hset, Outcome.ofOption, Outcome.bind]
      | none =>
          cases hfound : parseMacroDirective line with
          | null => rfl
          | diverges => rfl
          | returns found =>
              cases found with
              | none => rfl
              | some found =>
                  cases hnew : macroDefine s.macros found.1 with
                  | none => simp only [hnew, Outcome.ofOption, Outcome.bind]
                  | some m =>
                      simp only [hdefine, hfound, hnew, Outcome.ofOption, Outcome.bind] at hdead ⊢
                      cases hended : (macroBody rest.length rest).2.1 with
                      | false =>
                          have hoff := hdead _ rfl
                          rw [hon] at hoff
                          cases hoff (macroBody_open (Nat.le_refl _) hended)
                      | true =>
                          rw [macroBody_append hends hended (by simp) more]

theorem passOneStep_append {s : PassOne} (hends : EndsLine s.rest) (hne : s.rest ≠ [])
    (hdead : ∀ t, passOneStep s = .returns t → t.rest = [] → t.cond.active = false)
    (more : List Byte) : passOneStep { s with rest := s.rest ++ more } =
      (passOneStep s).bind fun t => .returns { t with rest := t.rest ++ more } := by
  rw [passOneStep] at hdead
  rw [passOneStep, passOneStep, readLine_append hends hne]
  simp only at hdead ⊢
  cases hcond : conditionalLine s.defines s.macros (readLine s.rest).1 s.cond with
  | null => rfl
  | diverges => rfl
  | returns found =>
      cases found with
      | some cond => rfl
      | none =>
          simp only [hcond, Outcome.bind] at hdead ⊢
          cases hon : s.cond.active with
          | false => rfl
          | true =>
              simp only [hon, if_true] at hdead ⊢
              exact collectLine_append hends.rest hon hdead _ more

theorem emitLine_append {macros : List Macro} {line rest : List Byte} {s : PassTwo}
    (hends : EndsLine rest) (hdead : ∀ t, emitLine macros line rest s = .returns t →
      t.rest = [] → t.cond.active = false) (before more : List Byte) :
    emitLine macros line (rest ++ more) { s with rest := before } =
      (emitLine macros line rest s).bind fun t => .returns { t with rest := t.rest ++ more } := by
  rw [emitLine] at hdead
  rw [emitLine, emitLine]
  simp only at hdead ⊢
  split
  · rfl
  · rename_i herror
    split
    · rfl
    · rename_i hwarn
      cases hdefine : parseDefineDirective line with
      | none => rfl
      | some define =>
          simp only
          cases hon : s.cond.active with
          | false => rfl
          | true =>
              simp only [if_true]
              cases define with
              | some define =>
                  cases hset : defineSet s.defines define.1 define.2 <;>
                    simp only [hset, Outcome.ofOption, Outcome.bind]
              | none =>
                  cases hfound : parseMacroDirective line with
                  | null => rfl
                  | diverges => rfl
                  | returns found =>
                      cases found with
                      | some found =>
                          rw [if_neg herror, if_neg hwarn] at hdead
                          simp only [hdefine, hon, hfound, Outcome.bind, if_true] at hdead ⊢
                          rw [skipMacroBody_eq, skipMacroBody_eq]
                          rw [skipMacroBody_eq] at hdead
                          cases hended : (macroBody rest.length rest).2.1 with
                          | false =>
                              have hoff := hdead _ rfl
                              rw [hon] at hoff
                              cases hoff (macroBody_open (Nat.le_refl _) hended)
                          | true => rw [macroBody_append hends hended (by simp) more]
                      | none =>
                          simp only [Outcome.bind]
                          cases expandLine macros s.defines s.macroCtx line <;> rfl

theorem passTwoStep_append {macros : List Macro} {s : PassTwo} (hends : EndsLine s.rest)
    (hne : s.rest ≠ [])
    (hdead : ∀ t, passTwoStep macros s = .returns t → t.rest = [] → t.cond.active = false)
    (more : List Byte) : passTwoStep macros { s with rest := s.rest ++ more } =
      (passTwoStep macros s).bind fun t => .returns { t with rest := t.rest ++ more } := by
  rw [passTwoStep] at hdead
  rw [passTwoStep, passTwoStep, readLine_append hends hne]
  simp only at hdead ⊢
  cases hcond : conditionalLine s.defines macros (readLine s.rest).1 s.cond with
  | null => rfl
  | diverges => rfl
  | returns found =>
      cases found with
      | some cond => rfl
      | none =>
          simp only [hcond, Outcome.bind] at hdead ⊢
          exact emitLine_append hends.rest hdead _ more

def passOneCursor : Loop.Cursor PassOne Byte where
  rest := PassOne.rest
  set s rest := { s with rest }
  rest_set _ _ := rfl
  set_set _ _ _ := rfl
  set_rest _ := rfl

def passTwoCursor : Loop.Cursor PassTwo Byte where
  rest := PassTwo.rest
  set s rest := { s with rest }
  rest_set _ _ := rfl
  set_set _ _ _ := rfl
  set_rest _ := rfl

theorem passOneStep_endsLine {s t : PassOne} (h : EndsLine s.rest)
    (hstep : passOneStep s = .returns t) : EndsLine t.rest := by
  rcases passOneStep_cases hstep with ⟨_, -, rfl⟩ | ⟨-, ⟨-, rfl⟩ | ⟨-, hline⟩⟩
  · exact h.rest
  · exact h.rest
  · rcases collectLine_cases hline with ⟨_, _, _, -, -, rfl⟩ | ⟨-, -, rfl⟩ | ⟨-, _, _, -, -, rfl⟩
    · exact h.rest
    · exact h.rest
    · exact h.rest.body

theorem passTwoStep_endsLine {macros : List Macro} {s t : PassTwo} (h : EndsLine s.rest)
    (hstep : passTwoStep macros s = .returns t) : EndsLine t.rest := by
  rcases passTwoStep_cases hstep with ⟨_, -, rfl⟩ | ⟨-, hline⟩
  · exact h.rest
  · rcases emitLine_cases hline with ⟨-, rfl⟩ | ⟨-, ⟨_, -, rfl⟩ | ⟨_, _, _, -, -, rfl⟩ |
      ⟨-, ⟨_, -, rfl⟩ | ⟨-, _, _, -, rfl⟩⟩⟩
    · exact h.rest
    · exact h.rest
    · exact h.rest
    · simp only [skipMacroBody_eq]
      exact h.rest.body
    · exact h.rest

/-- Behind whole lines after which it is inactive the first pass goes on from where they lead. -/
theorem passOne_append {s : PassOne} (h : EndsLine s.rest)
    (hoff : ∀ t, passOne s = .returns t → t.cond.active = false) (more : List Byte) :
    passOne { s with rest := s.rest ++ more } =
      (passOne s).bind fun t => passOne { t with rest := more } := by
  refine @Loop.scan_append _ _ passOneCursor passOneStep EndsLine (fun t => t.cond.active = true)
    ?_ ?_ ?_ s h ?_ more
  · intro s t hs
    exact passOneStep_progress hs
  · intro s t h _
    exact passOneStep_endsLine h
  · intro s h hne hstops more
    refine passOneStep_append h hne ?_ more
    intro t ht hnil
    exact Bool.eq_false_iff.mpr (hstops t ht hnil)
  · intro t ht
    exact Bool.eq_false_iff.mp (hoff t ht)

theorem passTwo_append {macros : List Macro} {s : PassTwo} (h : EndsLine s.rest)
    (hoff : ∀ t, passTwo macros s = .returns t → t.cond.active = false) (more : List Byte) :
    passTwo macros { s with rest := s.rest ++ more } =
      (passTwo macros s).bind fun t => passTwo macros { t with rest := more } := by
  refine @Loop.scan_append _ _ passTwoCursor (passTwoStep macros) EndsLine
    (fun t => t.cond.active = true) ?_ ?_ ?_ s h ?_ more
  · intro s t hs
    exact passTwoStep_progress hs
  · intro s t h _
    exact passTwoStep_endsLine h
  · intro s h hne hstops more
    refine passTwoStep_append h hne ?_ more
    intro t ht hnil
    exact Bool.eq_false_iff.mpr (hstops t ht hnil)
  · intro t ht
    exact Bool.eq_false_iff.mp (hoff t ht)

/-- The lines of a text that neither pass does anything with where it is inactive. -/
def Skipped (text : List Byte) : Prop :=
  ∀ line ∈ sourceLines text,
    isConditionalLine line.1 = false ∧ parseDefineDirective line.1 ≠ none

theorem passOne_skipped {text : List Byte} (h : EndsLine text) (hskip : Skipped text) {s : PassOne}
    (hoff : s.cond.active = false) (more : List Byte) :
    passOne { s with rest := text ++ more } = passOne { s with rest := more } := by
  induction text using lineInduction with
  | nil => rfl
  | line text hne ih =>
      rw [Skipped, sourceLines_of_ne hne, List.forall_mem_cons] at hskip
      obtain ⟨⟨hcond, -⟩, hskip⟩ := hskip
      have hstep : passOneStep { s with rest := text ++ more } =
          .returns { s with rest := (readLine text).2.2 ++ more } := by
        rw [passOneStep, readLine_append h hne]
        simp only [conditionalLine_none hcond, Outcome.bind, hoff, Bool.false_eq_true, if_false]
      have hne' := List.append_ne_nil_of_left_ne_nil hne more
      have hscan := @Loop.scan_step _ _ passOneCursor passOneStep
        (fun s t hs => passOneStep_progress hs) { s with rest := text ++ more } hne'
      rw [hstep] at hscan
      exact hscan.trans (ih h.rest hskip)

theorem passTwo_skipped {macros : List Macro} {text : List Byte} (h : EndsLine text)
    (hskip : Skipped text) {s : PassTwo} (hoff : s.cond.active = false) (more : List Byte) :
    passTwo macros { s with rest := text ++ more } = passTwo macros { s with rest := more } := by
  induction text using lineInduction with
  | nil => rfl
  | line text hne ih =>
      rw [Skipped, sourceLines_of_ne hne, List.forall_mem_cons] at hskip
      obtain ⟨⟨hcond, hdefine⟩, hskip⟩ := hskip
      obtain ⟨define, hdefine⟩ := Option.ne_none_iff_exists'.mp hdefine
      have hstep : passTwoStep macros { s with rest := text ++ more } =
          .returns { s with rest := (readLine text).2.2 ++ more } := by
        rw [passTwoStep, readLine_append h hne]
        simp only at hdefine
        simp only [conditionalLine_none hcond, Outcome.bind, emitLine, hoff, Bool.false_and,
          Bool.false_eq_true, if_false, hdefine]
      have hne' := List.append_ne_nil_of_left_ne_nil hne more
      have hscan := @Loop.scan_step _ _ passTwoCursor (passTwoStep macros)
        (fun s t hs => passTwoStep_progress hs) { s with rest := text ++ more } hne'
      rw [hstep] at hscan
      exact hscan.trans (ih h.rest hskip)

section Dropping

variable (env : PreprocessEnv) (tracker : List Path)

/-- A text, in which `times` has been expanded, after the expansion of includes. -/
def includedText (source : List Byte) : Option (List Byte) :=
  (expandIncludes env.toIncludeEnv (maxIncludeDepth + 1) (dirnameFromPath env.currentFilename)
    source tracker).1

def firstPass (source : List Byte) : Outcome PassOne :=
  (Outcome.ofOption (includedText env tracker source)).bind fun text =>
    (Outcome.ofOption (seedDefines env)).bind fun defines => passOne { rest := text, defines }

/-- The second pass over such a text, with all the macros of the program. -/
def secondPass (macros : List Macro) (source : List Byte) : Outcome PassTwo :=
  (Outcome.ofOption (includedText env tracker source)).bind fun text =>
    (Outcome.ofOption (seedDefines env)).bind fun defines =>
      passTwo macros { rest := text, defines }

theorem preprocessMacros_eq (source : List Byte) : preprocessMacros env tracker source =
    (firstPass env tracker source).bind fun one =>
      if allClosed one.cond then
        (secondPass env tracker one.macros source).bind fun two =>
          if allClosed two.cond then .returns two.out else .null
      else .null := by
  rw [preprocessMacros, firstPass]
  simp only [secondPass]
  rw [← includedText]
  cases includedText env tracker source with
  | none => rfl
  | some text =>
      cases seedDefines env with
      | none => rfl
      | some defines => rfl

/-- What stands behind `before` in a source is a line of its own in a branch that neither pass
takes, as far as the passes get there at all. -/
structure NotTaken (source before : List Byte) : Prop where
  startsLine : ∀ text, includedText env tracker before = some text → EndsLine text
  first : ∀ t, firstPass env tracker before = .returns t → t.cond.active = false
  second : ∀ one, firstPass env tracker source = .returns one →
    ∀ t, secondPass env tracker one.macros before = .returns t → t.cond.active = false

/-- What is left of a text when nothing is expanded in it and no pass acts on it. -/
structure Inert (text : List Byte) : Prop where
  whole : EndsLine text
  plain : ∀ line ∈ sourceLines text, parseIncludeFilename line.1 = some none
  skipped : Skipped text

variable {env tracker} {before dead after : List Byte}

theorem includedText_inert (hbefore : EndsLine before) (hdead : Inert dead) :
    (includedText env tracker (before ++ (dead ++ after)) = none ∧
      includedText env tracker (before ++ after) = none) ∨
    ∃ a b, includedText env tracker before = some a ∧
      includedText env tracker (before ++ (dead ++ after)) = some (a ++ (dead ++ b)) ∧
        includedText env tracker (before ++ after) = some (a ++ b) := by
  rw [includedText, includedText, includedText, expandIncludes_append _ _ _ hbefore,
    expandIncludes_append _ _ _ hbefore, expandIncludes_append _ _ _ hdead.whole,
    expandIncludes_plain _ _ _ hdead.plain]
  simp only [Fallible.bind_run, Fallible.pure_run]
  cases expandIncludes env.toIncludeEnv (maxIncludeDepth + 1)
      (dirnameFromPath env.currentFilename) before tracker with
  | mk a tracker' =>
      cases a with
      | none => exact .inl ⟨rfl, rfl⟩
      | some a =>
          simp only
          cases expandIncludes env.toIncludeEnv (maxIncludeDepth + 1)
              (dirnameFromPath env.currentFilename) after tracker' with
          | mk b _ =>
              cases b with
              | none => exact .inl ⟨rfl, rfl⟩
              | some b => exact .inr ⟨a, b, rfl, rfl, rfl⟩

theorem firstPass_inert (hbefore : EndsLine before) (hdead : Inert dead)
    (hstarts : ∀ text, includedText env tracker before = some text → EndsLine text)
    (hoff : ∀ t, firstPass env tracker before = .returns t → t.cond.active = false) :
    firstPass env tracker (before ++ (dead ++ after)) =
      firstPass env tracker (before ++ after) := by
  rw [firstPass] at hoff
  rw [firstPass, firstPass]
  rcases @includedText_inert env tracker before dead after hbefore hdead with
    ⟨hone, htwo⟩ | ⟨a, b, ha, hone, htwo⟩
  · rw [hone, htwo]
  · rw [hone, htwo]
    rw [ha] at hoff
    cases hseeds : seedDefines env with
    | none => rfl
    | some defines =>
        rw [hseeds] at hoff
        have happend := @passOne_append { rest := a, defines } (hstarts a ha) hoff
        refine (happend (dead ++ b)).trans (Eq.trans ?_ (happend b).symm)
        refine Outcome.bind_congr fun t ht => ?_
        exact passOne_skipped hdead.whole hdead.skipped (hoff t ht) b

theorem secondPass_inert {macros : List Macro} (hbefore : EndsLine before) (hdead : Inert dead)
    (hstarts : ∀ text, includedText env tracker before = some text → EndsLine text)
    (hoff : ∀ t, secondPass env tracker macros before = .returns t → t.cond.active = false) :
    secondPass env tracker macros (before ++ (dead ++ after)) =
      secondPass env tracker macros (before ++ after) := by
  rw [secondPass] at hoff
  rw [secondPass, secondPass]
  rcases @includedText_inert env tracker before dead after hbefore hdead with
    ⟨hone, htwo⟩ | ⟨a, b, ha, hone, htwo⟩
  · rw [hone, htwo]
  · rw [hone, htwo]
    rw [ha] at hoff
    cases hseeds : seedDefines env with
    | none => rfl
    | some defines =>
        rw [hseeds] at hoff
        have happend := @passTwo_append macros { rest := a, defines } (hstarts a ha) hoff
        refine (happend (dead ++ b)).trans (Eq.trans ?_ (happend b).symm)
        refine Outcome.bind_congr fun t ht => ?_
        exact passTwo_skipped hdead.whole hdead.skipped (hoff t ht) b

/-- Without an inert text in a branch that is not taken, the preprocessor does the same. -/
theorem preprocessMacros_inert (hbefore : EndsLine before) (hdead : Inert dead)
    (hnot : NotTaken env tracker (before ++ (dead ++ after)) before) :
    preprocessMacros env tracker (before ++ (dead ++ after)) =
      preprocessMacros env tracker (before ++ after) := by
  have hfirst := @firstPass_inert env tracker before dead after hbefore hdead hnot.startsLine
    hnot.first
  rw [preprocessMacros_eq, preprocessMacros_eq, ← hfirst]
  refine Outcome.bind_congr fun one hone => ?_
  rw [secondPass_inert hbefore hdead hnot.startsLine (hnot.second one hone)]

end Dropping

/-- A stretch of lines of a source, and whether it lies in a branch that is not taken. -/
structure Stretch where
  text : List Byte
  dead : Bool
deriving DecidableEq

def sourceOf (stretches : List Stretch) : List Byte := stretches.flatMap Stretch.text

/-- The source without the lines that lie in branches that are not taken. -/
def liveSource (stretches : List Stretch) : List Byte :=
  sourceOf (stretches.filter fun s => !s.dead)

/-- The stretches that are marked as dead consist of whole lines, none of them a conditional
directive, in branches of the source that are not taken. -/
structure DeadLines (env : PreprocessEnv) (tracker : List Path) (stretches : List Stretch) :
    Prop where
  whole : ∀ before s after, stretches = before ++ s :: after → s.dead = true →
    EndsLine (sourceOf before) ∧ EndsLine s.text
  plain : ∀ s ∈ stretches, s.dead = true → ∀ line ∈ s.text.splitOn 0x0A#8,
    isConditionalLine line = false
  notTaken : ∀ before s after, stretches = before ++ s :: after → s.dead = true →
    NotTaken env tracker (timesText (sourceOf stretches)) (timesText (sourceOf before))

/-- The expansions that are made before conditionals are looked at do nothing with the dead
lines, no `%define` among them is malformed, and nothing is lost in the expansion of `times`. -/
structure LeftAlone (stretches : List Stretch) : Prop where
  inert : ∀ s ∈ stretches, s.dead = true → Inert (timesText s.text)
  fits : TimesFit (sourceOf stretches)

theorem sourceOf_append (a b : List Stretch) : sourceOf (a ++ b) = sourceOf a ++ sourceOf b :=
  List.flatMap_append

@[simp] theorem sourceOf_singleton (s : Stretch) : sourceOf [s] = s.text :=
  List.append_nil _

section

variable {env : PreprocessEnv} {tracker : List Path}

theorem preprocessMacros_live (stretches : List Stretch) (after : List Byte)
    (hwhole : ∀ before s later, stretches = before ++ s :: later → s.dead = true →
      EndsLine (sourceOf before) ∧ EndsLine s.text)
    (hnot : ∀ before s later, stretches = before ++ s :: later → s.dead = true →
      NotTaken env tracker (timesText (sourceOf stretches ++ after))
        (timesText (sourceOf before)))
    (hinert : ∀ s ∈ stretches, s.dead = true → Inert (timesText s.text)) :
    preprocessMacros env tracker (timesText (sourceOf stretches ++ after)) =
      preprocessMacros env tracker (timesText (liveSource stretches ++ after)) := by
  induction stretches using List.reverseRecOn generalizing after with
  | nil => rfl
  | append_singleton stretches s ih =>
      have hsource : sourceOf (stretches ++ [s]) = sourceOf stretches ++ s.text := by
        rw [sourceOf_append, sourceOf_singleton]
      have hwhole' : ∀ before t later, stretches = before ++ t :: later → t.dead = true →
          EndsLine (sourceOf before) ∧ EndsLine t.text := by
        intro before t later heq
        refine hwhole before t (later ++ [s]) ?_
        rw [heq, List.append_assoc, List.cons_append]
      have hinert' : ∀ t ∈ stretches, t.dead = true → Inert (timesText t.text) :=
        fun t ht => hinert t (List.mem_append_left _ ht)
      have hbefore : ∀ before t later, stretches = before ++ t :: later → t.dead = true →
          NotTaken env tracker (timesText (sourceOf stretches ++ (s.text ++ after)))
            (timesText (sourceOf before)) := by
        intro before t later heq hdead
        rw [← List.append_assoc, ← hsource]
        refine hnot before t (later ++ [s]) ?_ hdead
        rw [heq, List.append_assoc, List.cons_append]
      rw [hsource, List.append_assoc]
      cases hdead : s.dead with
      | false =>
          rw [ih (s.text ++ after) hwhole' hbefore hinert', liveSource, liveSource,
            List.filter_append, sourceOf_append, List.append_assoc]
          simp only [List.filter_cons, hdead, Bool.not_false, if_true, List.filter_nil,
            sourceOf_singleton]
      | true =>
          obtain ⟨hends, hends'⟩ := hwhole stretches s [] rfl hdead
          have hinertS := hinert s (List.mem_append_right _ (List.mem_singleton_self s)) hdead
          have hnotS := hnot stretches s [] rfl hdead
          rw [hsource, List.append_assoc] at hnotS
          rw [timesText_append hends, timesText_append hends'] at hnotS ⊢
          rw [preprocessMacros_inert hends.times hinertS hnotS, ← timesText_append hends,
            ih after hwhole' ?_ hinert', liveSource, liveSource, List.filter_append,
            sourceOf_append]
          · simp only [List.filter_cons, hdead, Bool.not_true, Bool.false_eq_true, if_false,
              List.filter_nil, sourceOf, List.flatMap_nil, List.append_nil]
          · intro before t later heq htdead
            obtain ⟨hstarts, hfirst, hsecond⟩ := hbefore before t later heq htdead
            refine ⟨hstarts, hfirst, ?_⟩
            intro one hone
            refine hsecond one ?_
            rw [timesText_append hends, timesText_append hends',
              firstPass_inert hends.times hinertS hnotS.startsLine hnotS.first,
              ← timesText_append hends]
            exact hone

theorem parseSourceWithContext_live {stretches : List Stretch}
    (h : DeadLines env tracker stretches) (halone : LeftAlone stretches) (rounds : Nat) :
    parseSourceWithContext rounds env tracker (sourceOf stretches) =
      match preprocessMacros env tracker (timesText (liveSource stretches)) with
      | .returns text => parseRounds rounds (parseStart text)
      | .null => some none
      | .diverges => none := by
  have hlive := @preprocessMacros_live env tracker stretches [] h.whole (by
    simp only [List.append_nil]
    exact h.notTaken) halone.inert
  rw [List.append_nil, List.append_nil] at hlive
  rw [parseSourceWithContext, parserExpandTimesOnly_fit halone.fits]
  generalize preprocessMacros env tracker (timesText (sourceOf stretches)) = r at hlive ⊢
  subst hlive
  cases preprocessMacros env tracker (timesText (liveSource stretches)) <;> rfl

/-- Two sources that differ only in lines of branches that are not taken are parsed alike, as
long as the expansions that come before the conditionals leave these lines alone. -/
theorem parseSourceWithContext_alike {stretches stretches' : List Stretch}
    (h : DeadLines env tracker stretches) (h' : DeadLines env tracker stretches')
    (hlive : liveSource stretches = liveSource stretches') (halone : LeftAlone stretches)
    (halone' : LeftAlone stretches') (rounds : Nat) :
    parseSourceWithContext rounds env tracker (sourceOf stretches) =
      parseSourceWithContext rounds env tracker (sourceOf stretches') := by
  rw [parseSourceWithContext_live h halone, parseSourceWithContext_live h' halone', hlive]

theorem notTaken_of_runs {source before : List Byte}
    (hstarts : (includedText env tracker before).all fun text => EndsLine text)
    (hfirst : (firstPass env tracker before).bind
      (fun t => if t.cond.active then .returns t else .null) = .null)
    (hsecond : ((firstPass env tracker source).bind fun one =>
      (secondPass env tracker one.macros before).bind fun t =>
        if t.cond.active then .returns t else .null) = .null) :
    NotTaken env tracker source before := by
  refine ⟨?_, ?_, ?_⟩
  · intro text htext
    rw [htext] at hstarts
    exact of_decide_eq_true hstarts
  · intro t ht
    rw [ht] at hfirst
    cases hon : t.cond.active with
    | false => rfl
    | true => simp [Outcome.bind, hon] at hfirst
  · intro one hone t ht
    rw [hone] at hsecond
    simp only [Outcome.bind, ht] at hsecond
    cases hon : t.cond.active with
    | false => rfl
    | true => simp [hon] at hsecond

end

/-- Lines in a branch that is not taken, and a statement behind it. -/
def inDeadBranch (dead : List Byte) : List Stretch :=
  [{ text := str "%if 0\n", dead := false }, { text := dead, dead := true },
    { text := str "%endif\nnop\n", dead := false }]

theorem deadLines_inDeadBranch {env : PreprocessEnv} {tracker : List Path} {dead : List Byte}
    (hends : EndsLine dead)
    (hplain : ∀ line ∈ dead.splitOn 0x0A#8, isConditionalLine line = false)
    (hnot : NotTaken env tracker (timesText (sourceOf (inDeadBranch dead)))
      (timesText (str "%if 0\n"))) : DeadLines env tracker (inDeadBranch dead) := by
  have hsplit : ∀ before s after, inDeadBranch dead = before ++ s :: after → s.dead = true →
      sourceOf before = str "%if 0\n" ∧ s.text = dead := by
    intro before s after heq hs
    rw [inDeadBranch] at heq
    rcases before with _ | ⟨b, _ | ⟨c, _ | ⟨d, before⟩⟩⟩
    · cases heq
      cases hs
    · cases heq
      exact ⟨rfl, rfl⟩
    · cases heq
      cases hs
    · cases before <;> cases heq
  refine ⟨?_, ?_, ?_⟩
  · intro before s after heq hs
    obtain ⟨hbefore, htext⟩ := hsplit before s after heq hs
    rw [hbefore, htext]
    exact ⟨by decide, hends⟩
  · intro s hmem hs
    obtain ⟨before, after, heq⟩ := List.append_of_mem hmem
    rw [(hsplit before s after heq hs).2]
    exact hplain
  · intro before s after heq hs
    rw [(hsplit before s after heq hs).1]
    exact hnot

theorem leftAlone_inDeadBranch {dead : List Byte} (hinert : Inert (timesText dead))
    (hfits : TimesFit (sourceOf (inDeadBranch dead))) : LeftAlone (inDeadBranch dead) := by
  refine ⟨?_, hfits⟩
  intro s hmem hs
  simp only [inDeadBranch, List.mem_cons, List.not_mem_nil, or_false] at hmem
  rcases hmem with rfl | rfl | rfl
  · cases hs
  · exact hinert
  · cases hs

theorem parseSourceWithContext_alike_inDeadBranch :
    parseSourceWithContext 10 memoryEnv [] (sourceOf (inDeadBranch (str "mov 5\n%error no\n"))) =
      parseSourceWithContext 10 memoryEnv [] (sourceOf (inDeadBranch (str "times 2 ret\n"))) := by
  refine parseSourceWithContext_alike ?_ ?_ (by decide +kernel) ?_ ?_ 10
  · exact deadLines_inDeadBranch (by decide +kernel) (by decide +kernel)
      (notTaken_of_runs (by decide +kernel) (by decide +kernel) (by decide +kernel))
  · exact deadLines_inDeadBranch (by decide +kernel) (by decide +kernel)
      (notTaken_of_runs (by decide +kernel) (by decide +kernel) (by decide +kernel))
  · exact leftAlone_inDeadBranch ⟨by decide +kernel, by decide +kernel,
      by unfold Skipped; decide +kernel⟩ (by unfold TimesFit; decide +kernel)
  · exact leftAlone_inDeadBranch ⟨by decide +kernel, by decide +kernel,
      by unfold Skipped; decide +kernel⟩ (by unfold TimesFit; decide +kernel)

/-- A missing include file, a malformed `%define` and a repeated directive are found in a branch
that is not taken. -/
theorem deadLines_matter : DeadLines memoryEnv [] (inDeadBranch []) ∧
    parseSourceWithContext 10 memoryEnv [] (sourceOf (inDeadBranch [])) ≠ some none ∧
    ∀ dead ∈ [str ".include \"missing\"\n", str "%define 1\n", str "times 2 %endif\n"],
      DeadLines memoryEnv [] (inDeadBranch dead) ∧
      liveSource (inDeadBranch dead) = liveSource (inDeadBranch []) ∧
      parseSourceWithContext 10 memoryEnv [] (sourceOf (inDeadBranch dead)) = some none := by
  refine ⟨?_, by decide +kernel, ?_⟩
  · exact deadLines_inDeadBranch (by decide +kernel) (by decide +kernel)
      (notTaken_of_runs (by decide +kernel) (by decide +kernel) (by decide +kernel))
  · intro dead hdead
    simp only [List.mem_cons, List.not_mem_nil, or_false] at hdead
    rcases hdead with rfl | rfl | rfl
    · refine ⟨?_, by decide +kernel, by decide +kernel⟩
      exact deadLines_inDeadBranch (by decide +kernel) (by decide +kernel)
        (notTaken_of_runs (by decide +kernel) (by decide +kernel) (by decide +kernel))
    · refine ⟨?_, by decide +kernel, by decide +kernel⟩
      exact deadLines_inDeadBranch (by decide +kernel) (by decide +kernel)
        (notTaken_of_runs (by decide +kernel) (by decide +kernel) (by decide +kernel))
    · refine ⟨?_, by decide +kernel, by decide +kernel⟩
      exact deadLines_inDeadBranch (by decide +kernel) (by decide +kernel)
        (notTaken_of_runs (by decide +kernel) (by decide +kernel) (by decide +kernel))

end X86Assembler
