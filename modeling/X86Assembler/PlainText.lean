import X86Assembler.DeadBranches
import X86Assembler.PreprocessorTermination
import X86Assembler.TextLines

namespace X86Assembler

open CString (Byte str isSpace eqIgnoreCase startsWithIgnoreCase)

def firstWord (line : List Byte) : List Byte := (skipSpaces line).takeWhile fun b => !isSpace b

def directiveWords : List String := ["macro", "endm", "include", "times"]

/-- A line that does not start with a percent sign, blanks apart. -/
def NoPercent (line : List Byte) : Prop := (skipSpaces line).head? ≠ some 0x25#8

/-- A line of plain assembly: its first word is none of the directives, with or without a dot,
and it does not start with a percent sign. -/
structure PlainLine (line : List Byte) : Prop where
  noWord : ∀ word ∈ directiveWords, eqIgnoreCase (firstWord line) (str word) = false ∧
    eqIgnoreCase (firstWord line) (0x2E#8 :: str word) = false
  noPercent : NoPercent line

instance (line : List Byte) : Decidable (NoPercent line) := inferInstanceAs (Decidable (_ ≠ _))

instance (line : List Byte) : Decidable (PlainLine line) :=
  decidable_of_iff (_ ∧ _) ⟨fun h => ⟨h.1, h.2⟩, fun h => ⟨h.noWord, h.noPercent⟩⟩

def PlainSource (text : List Byte) : Prop := ∀ line ∈ textLines text, PlainLine line

instance (text : List Byte) : Decidable (PlainSource text) :=
  inferInstanceAs (Decidable (∀ line ∈ textLines text, PlainLine line))

structure PassedOver (line : List Byte) : Prop where
  noInclude : parseIncludeFilename line = some none
  noMacro : parseMacroDirective line = .returns none
  noTimes : parseTimesDirective line = none

instance (line : List Byte) : Decidable (PassedOver line) :=
  decidable_of_iff (_ ∧ _ ∧ _)
    ⟨fun h => ⟨h.1, h.2.1, h.2.2⟩, fun h => ⟨h.noInclude, h.noMacro, h.noTimes⟩⟩

/-- The text comes out as it is, up to a newline at its end. -/
def KeptAsIs (env : PreprocessEnv) (tracker : List Path) (text : List Byte) : Prop :=
  preprocessMacros env tracker text = .returns text ∨
    preprocessMacros env tracker text = .returns (text ++ [0x0A#8])

theorem startsWith_percent {text word : List Byte}
    (h : startsWithIgnoreCase text (0x25#8 :: word) = true) : text.head? = some 0x25#8 := by
  have hpercent : ∀ b : Byte, CString.toLower b = 0x25#8 → b = 0x25#8 := by decide +kernel
  have hget := CString.startsWithIgnoreCase_get h (Nat.succ_pos word.length)
  cases text with
  | nil => cases hget
  | cons b text =>
      have hb : CString.toLower b = 0x25#8 := Option.some.inj hget
      rw [List.head?_cons, hpercent b hb]

section NoPercent

variable {line : List Byte} (h : NoPercent line)
include h

theorem NoPercent.startsWith (word : List Byte) :
    startsWithIgnoreCase (skipSpaces line) (0x25#8 :: word) = false := by
  rw [Bool.eq_false_iff]
  intro hstarts
  exact h (startsWith_percent hstarts)

theorem NoPercent.parseExprDirective {word : String} {more : List Byte}
    (hword : str word = 0x25#8 :: more) : parseExprDirective word line = none := by
  rw [X86Assembler.parseExprDirective, hword, h.startsWith, Bool.false_and]
  rfl

theorem NoPercent.parseDefineDirective : parseDefineDirective line = some none := by
  rw [X86Assembler.parseDefineDirective, h.parseExprDirective rfl]

theorem NoPercent.conditionalLine (defines : List Define) (macros : List Macro)
    (c : Conditionals) : conditionalLine defines macros line c = .returns none := by
  apply conditionalLine_none
  rw [isConditionalLine, parseSymbolDirective, parseSymbolDirective, h.parseExprDirective rfl,
    h.parseExprDirective rfl, h.parseExprDirective rfl]
  have helse := h.startsWith (str "else")
  have hendif := h.startsWith (str "endif")
  simp only [Option.isSome_none, Bool.false_or, bne_self_eq_false]
  exact Bool.or_eq_false_iff.mpr ⟨helse, hendif⟩

end NoPercent

theorem parseSymbol_eq {b : Byte} (hb : isIdentStart b = true) (bs : List Byte) :
    parseSymbol (b :: bs) = b :: (bs.takeWhile isIdentChar).take (maxLabelLength - 2) := by
  have hident : isIdentChar b = true := by
    rw [isIdentStart, Bool.or_eq_true] at hb
    rw [isIdentChar, CString.isAlnum]
    rcases hb with hb | hb
    · rw [hb]
      rfl
    · rw [hb, Bool.or_true]
  rw [parseSymbol, List.takeWhile_cons_of_pos hident]
  rfl

theorem parseSymbol_cons {b : Byte} (hb : isIdentStart b = true) (bs : List Byte) :
    ∃ name, parseSymbol (b :: bs) = b :: name ∧ name <+: bs :=
  ⟨_, parseSymbol_eq hb bs, (List.take_prefix _ _).trans (List.takeWhile_prefix _)⟩

theorem substituteDefinesLoop_nil {size skip : Nat} {single double : Bool} {bs out : List Byte}
    (hskip : skip ≤ bs.length) (hsize : out.length + (bs.length - skip) + 1 < size) :
    substituteDefinesLoop [] size skip single double bs out = some (out ++ bs.drop skip) := by
  induction bs generalizing skip single double out with
  | nil => rw [substituteDefinesLoop, List.drop_nil, List.append_nil]
  | cons b bs ih =>
      rw [List.length_cons] at hskip hsize
      cases skip with
      | succ skip =>
          rw [substituteDefinesLoop]
          exact ih (by omega) (by omega)
      | zero =>
          have hplain : ∀ single double, substituteDefinesLoop [] size 0 single double bs
              (out ++ [b]) = some (out ++ (b :: bs).drop 0) := by
            intro single double
            rw [ih (Nat.zero_le _) (by rw [List.length_append, List.length_singleton]; omega),
              List.append_assoc]
            rfl
          rw [substituteDefinesLoop, if_neg (by omega)]
          split
          · exact hplain _ _
          split
          · exact hplain _ _
          split
          · next hstart =>
              rw [Bool.and_eq_true] at hstart
              obtain ⟨name, hname, more, rfl⟩ := parseSymbol_cons hstart.2 bs
              rw [hname]
              dsimp only [lookupDefine, List.find?_nil]
              rw [List.length_append] at hsize hskip ih
              rw [List.length_cons, if_neg (by omega), Nat.add_sub_cancel,
                ih (by omega) (by rw [List.length_append, List.length_cons]; omega),
                List.drop_left, List.append_assoc]
              rfl
          · exact hplain _ _

theorem substituteDefines_nil {size : Nat} {line : List Byte} (h : line.length + 1 < size) :
    substituteDefines [] size line = some line := by
  rw [substituteDefines, substituteDefinesLoop_nil (Nat.zero_le _) (by simpa using h)]
  rfl

/-- A line that does not start a macro definition; the parameters of one may run on. -/
def NoDefinition (line : List Byte) : Prop :=
  ∀ head, parseMacroDirective line ≠ .returns (some head)

theorem passOne_of_ne {s : PassOne} (h : s.rest ≠ []) :
    passOne s = (passOneStep s).bind passOne :=
  @Loop.scan_step _ _ passOneCursor passOneStep (fun _ _ hs => passOneStep_progress hs) s h

theorem passTwo_of_ne {macros : List Macro} {s : PassTwo} (h : s.rest ≠ []) :
    passTwo macros s = (passTwoStep macros s).bind (passTwo macros) :=
  @Loop.scan_step _ _ passTwoCursor (passTwoStep macros) (fun _ _ hs => passTwoStep_progress hs) s h

theorem passOne_plain {text : List Byte} {s : PassOne} (hactive : s.cond.active = true)
    (h : ∀ line ∈ sourceLines text, NoPercent line.1 ∧ parseMacroDirective line.1 = .returns none) :
    passOne { s with rest := text } = .returns { s with rest := [] } := by
  induction text using lineInduction with
  | nil => rfl
  | line text hne ih =>
      rw [sourceLines_of_ne hne] at h
      obtain ⟨⟨hpercent, hhead⟩, hrest⟩ := List.forall_mem_cons.mp h
      have hstep : passOneStep { s with rest := text } =
          .returns { s with rest := (readLine text).2.2 } := by
        rw [passOneStep]
        simp only [hpercent.conditionalLine, Outcome.bind, hactive, if_true, collectLine,
          hpercent.parseDefineDirective, hhead]
      rw [passOne_of_ne hne, hstep]
      exact ih hrest

theorem passOne_macros {text : List Byte} {s u : PassOne} (hs : s.rest = text)
    (h : ∀ line ∈ sourceLines text, NoDefinition line.1) (hrun : passOne s = .returns u) :
    u.macros = s.macros := by
  induction text using lineInduction generalizing s with
  | nil =>
      have hdone : passOne s = .returns s := by
        rw [passOne, hs]
        rfl
      rw [hrun] at hdone
      cases hdone
      rfl
  | line text hne ih =>
      rw [sourceLines_of_ne hne] at h
      obtain ⟨hline, hrest⟩ := List.forall_mem_cons.mp h
      rw [passOne_of_ne (hs.symm ▸ hne)] at hrun
      obtain ⟨t, hstep, hrun⟩ := Outcome.bind_eq_returns.mp hrun
      have ht : t.rest = (readLine text).2.2 ∧ t.macros = s.macros := by
        rcases passOneStep_cases hstep with ⟨cond, -, rfl⟩ | ⟨-, ⟨-, rfl⟩ | ⟨-, hcollect⟩⟩
        · exact ⟨by rw [← hs], rfl⟩
        · exact ⟨by rw [← hs], rfl⟩
        · rcases collectLine_cases hcollect with ⟨_, _, _, -, -, rfl⟩ | ⟨-, -, rfl⟩ |
            ⟨-, d, _, hstarts, -, rfl⟩
          · exact ⟨by rw [← hs], rfl⟩
          · exact ⟨by rw [← hs], rfl⟩
          · rw [hs] at hstarts
            exact absurd hstarts (hline d)
      rw [ih ht.1 hrest hrun, ht.2]

def writtenLine (line : List Byte) : List Byte := timesLine (line, line ++ [0x0A#8])

theorem length_readLine_lt (text : List Byte) : (readLine text).1.length < maxLineLength := by
  rw [readLine_fst, List.length_take]
  exact Nat.lt_of_le_of_lt (Nat.min_le_left _ _) (by decide)

theorem passTwoStep_expandLine {macros : List Macro} {s : PassTwo} (hactive : s.cond.active = true)
    (hpercent : NoPercent (readLine s.rest).1)
    (hhead : parseMacroDirective (readLine s.rest).1 = .returns none) : passTwoStep macros s =
      (expandLine macros s.defines s.macroCtx (readLine s.rest).1).bind fun (text, macroCtx) =>
        .returns { s with
          rest := (readLine s.rest).2.2
          macroCtx := macroCtx
          out := s.out ++ text } := by
  have herror : parseExprDirective "%error" (readLine s.rest).1 = none :=
    hpercent.parseExprDirective rfl
  have hwarning : parseExprDirective "%warning" (readLine s.rest).1 = none :=
    hpercent.parseExprDirective rfl
  rw [passTwoStep]
  simp only [hpercent.conditionalLine, Outcome.bind, emitLine, herror, hwarning,
    Option.isSome_none, Bool.and_false, Bool.false_eq_true, if_false, hactive, if_true,
    hpercent.parseDefineDirective, hhead]

/-- What the second pass does with a line that does not start with a percent sign, where no
macros are known. -/
theorem passTwoStep_plain {s : PassTwo} (hactive : s.cond.active = true)
    (hdefines : s.defines = []) (hpercent : NoPercent (readLine s.rest).1)
    (hhead : parseMacroDirective (readLine s.rest).1 = .returns none) : passTwoStep [] s =
      .returns { s with
        rest := (readLine s.rest).2.2
        out := s.out ++ writtenLine (readLine s.rest).1 } := by
  have hlen := length_readLine_lt s.rest
  have hsubst : substituteDefines [] (maxLineLength * 4) (readLine s.rest).1 =
      some (readLine s.rest).1 := by
    apply substituteDefines_nil
    change _ < 1024 at hlen
    change _ < 4096
    omega
  have hinvocation : parseMacroInvocation [] (readLine s.rest).1 = .returns none := by
    rw [parseMacroInvocation]
    dsimp only
    split
    · rfl
    · rfl
  have hexpand : expandLine [] [] s.macroCtx (readLine s.rest).1 =
      .returns (writtenLine (readLine s.rest).1, s.macroCtx) := by
    rw [expandLine, hsubst, writtenLine, timesLine]
    simp only [Outcome.ofOption, Outcome.bind]
    cases parseTimesDirective (readLine s.rest).1 with
    | some found => rfl
    | none => simp only [hinvocation]
  rw [passTwoStep_expandLine hactive hpercent hhead, hdefines, hexpand]
  rfl

theorem passTwo_plain {text : List Byte} {s : PassTwo} (hactive : s.cond.active = true)
    (hdefines : s.defines = [])
    (h : ∀ line ∈ sourceLines text, NoPercent line.1 ∧ parseMacroDirective line.1 = .returns none) :
    passTwo [] { s with rest := text } = .returns { s with
      rest := []
      out := s.out ++ (sourceLines text).flatMap fun line => writtenLine line.1 } := by
  induction text using lineInduction generalizing s with
  | nil =>
      rw [sourceLines_nil, List.flatMap_nil, List.append_nil]
      rfl
  | line text hne ih =>
      rw [sourceLines_of_ne hne] at h ⊢
      obtain ⟨⟨hpercent, hhead⟩, hrest⟩ := List.forall_mem_cons.mp h
      have hstep := @passTwoStep_plain { s with rest := text } hactive hdefines hpercent hhead
      rw [passTwo_of_ne hne, hstep, List.flatMap_cons, ← List.append_assoc]
      exact @ih { s with out := s.out ++ writtenLine (readLine text).1 } hactive hdefines hrest

theorem passTwo_out {macros : List Macro} {s u : PassTwo} (h : passTwo macros s = .returns u) :
    s.out <+: u.out := by
  refine (Loop.visited_related (fun s t : PassTwo => s.out <+: t.out) ?_ ?_ ?_ h).1
  · intro s
    exact List.prefix_refl _
  · intro a b c
    exact List.IsPrefix.trans
  · intro s t _ hstep
    rcases passTwoStep_cases hstep with ⟨_, -, rfl⟩ | ⟨-, hemit⟩
    · exact List.prefix_refl _
    · rcases emitLine_cases hemit with ⟨-, rfl⟩ | ⟨-, ⟨_, -, rfl⟩ | ⟨_, _, _, -, -, rfl⟩ |
        ⟨-, ⟨_, -, rfl⟩ | ⟨-, _, _, -, rfl⟩⟩⟩
      · exact List.prefix_refl _
      · exact List.prefix_refl _
      · exact List.prefix_refl _
      · exact List.prefix_refl _
      · exact List.prefix_append _ _

theorem textLine_raw (text : List Byte) : (textLine text).2.1 = (textLine text).1 ++ [0x0A#8] ∨
    (textLine text).2.1 = (textLine text).1 ∧ (textLine text).2.2 = [] := by
  have hhead := List.head?_dropWhile_not (fun b : Byte => b != 0x0A#8) text
  rw [textLine, drop_takeWhile]
  cases hrest : text.dropWhile fun b => b != 0x0A#8 with
  | nil => exact .inr ⟨rfl, rfl⟩
  | cons b rest =>
      rw [hrest] at hhead
      have hb : b = 0x0A#8 := by simpa using hhead
      subst hb
      exact .inl rfl

theorem writtenLines_eq {text : List Byte}
    (h : ∀ line ∈ textLines text, line.length < maxLineLength ∧ parseTimesDirective line = none) :
    (sourceLines text).flatMap (fun line => writtenLine line.1) = text ∨
      (sourceLines text).flatMap (fun line => writtenLine line.1) = text ++ [0x0A#8] := by
  induction text using lineInduction with
  | nil => exact .inl rfl
  | line text hne ih =>
      rw [textLines_of_ne hne] at h
      obtain ⟨⟨hshort, htimes⟩, hrest⟩ := List.forall_mem_cons.mp h
      have hread := readLine_eq_textLine hshort
      have hwritten : writtenLine (textLine text).1 = (textLine text).1 ++ [0x0A#8] := by
        rw [writtenLine, timesLine, htimes]
      rw [hread] at ih
      rw [sourceLines_of_ne hne, List.flatMap_cons, hread, hwritten]
      have hsplit := textLine_split text
      rcases textLine_raw text with hraw | ⟨hraw, hnil⟩
      · rw [hraw] at hsplit
        rcases ih hrest with hsame | hsame
        · left
          rw [hsame]
          exact hsplit.symm
        · right
          rw [hsame, ← List.append_assoc, ← hsplit]
      · right
        rw [hraw, hnil, List.append_nil] at hsplit
        rw [hnil, sourceLines_nil, List.flatMap_nil, List.append_nil, ← hsplit]

theorem NoPercent.take {line : List Byte} (h : NoPercent line) (n : Nat) :
    NoPercent (line.take n) := by
  induction line generalizing n with
  | nil => rwa [List.take_nil]
  | cons b line ih =>
      cases n with
      | zero =>
          rw [List.take_zero]
          intro hnil
          cases hnil
      | succ n =>
          rw [NoPercent, List.take_succ_cons, skipSpaces]
          rw [NoPercent, skipSpaces] at h
          by_cases hb : isSpace b = true
          · rw [List.dropWhile_cons_of_pos hb] at h ⊢
            exact ih h n
          · rw [List.dropWhile_cons_of_neg hb] at h ⊢
            exact h

theorem parseMacroDirective_ne_null (line : List Byte) : parseMacroDirective line ≠ .null := by
  have hparams : ∀ rounds text params, macroParams rounds text params ≠ .null := by
    intro rounds
    induction rounds with
    | zero =>
        intro text params h
        cases h
    | succ rounds ih =>
        intro text params
        rw [macroParams]
        split
        · intro h
          cases h
        · exact ih _ _
  intro h
  rw [parseMacroDirective] at h
  split at h
  · cases h
  · dsimp only at h
    split at h
    · cases h
    · cases hrun : macroParams _ _ _ with
      | returns params =>
          rw [hrun] at h
          cases h
      | null => exact hparams _ _ _ hrun
      | diverges =>
          rw [hrun] at h
          cases h

theorem noMacro_of_returns {s t : PassTwo} (hactive : s.cond.active = true)
    (hpercent : NoPercent (readLine s.rest).1) (hdef : NoDefinition (readLine s.rest).1)
    (h : passTwoStep [] s = .returns t) :
    parseMacroDirective (readLine s.rest).1 = .returns none := by
  cases hhead : parseMacroDirective (readLine s.rest).1 with
  | null => exact absurd hhead (parseMacroDirective_ne_null _)
  | diverges =>
      have hstuck : s.Stuck [] := {
        plain := hpercent.conditionalLine _ _ _
        active := hactive
        noError := by rw [hpercent.parseExprDirective rfl]; rfl
        noWarning := by rw [hpercent.parseExprDirective rfl]; rfl
        noDefine := hpercent.parseDefineDirective
        stuck := (parseMacroDirective_diverges_iff _).mp hhead }
      rw [(passTwoStep_diverges_iff [] s).mpr hstuck] at h
      cases h
  | returns head =>
      cases head with
      | none => rfl
      | some head => exact absurd hhead (hdef head)

theorem writtenLine_times {line statement : List Byte} {count : Nat}
    (h : parseTimesDirective line = some (count, statement)) :
    statement ++ [0x0A#8] <+: writtenLine line := by
  obtain ⟨n, hn⟩ := Nat.exists_eq_add_one_of_ne_zero (Nat.ne_of_gt (parseTimesDirective_pos h))
  rw [writtenLine, timesLine]
  dsimp only
  rw [h]
  dsimp only
  rw [hn, List.replicate_succ, List.flatten_cons]
  exact List.prefix_append _ _

/-- Where what is written for the first line goes on as the text does, the line is short and no
`times` line. -/
theorem first_of_written {text : List Byte}
    (hwritten : writtenLine (readLine text).1 <+: text ++ [0x0A#8]) :
    (textLine text).1.length < maxLineLength ∧ parseTimesDirective (readLine text).1 = none := by
  have hfirstLine : ∃ more, text = (textLine text).1 ++ more := by
    have hsplit := textLine_split text
    rcases textLine_raw text with hraw | ⟨hraw, -⟩
    · rw [hraw, List.append_assoc] at hsplit
      exact ⟨_, hsplit⟩
    · rw [hraw] at hsplit
      exact ⟨_, hsplit⟩
  obtain ⟨more, hmore⟩ := hfirstLine
  have hnot : ∀ short : List Byte, short ++ [0x0A#8] <+: writtenLine (readLine text).1 →
      ¬ short.length < (textLine text).1.length := by
    intro short hshort hlt
    have hlonger := hshort.trans hwritten
    rw [hmore, List.append_assoc] at hlonger
    exact not_prefix_of_shorter hlt (textLine_no_newline _) hlonger
  have hle : (readLine text).1.length ≤ (textLine text).1.length := by
    rw [readLine_fst]
    exact List.length_take_le' _ _
  have htimes : parseTimesDirective (readLine text).1 = none := by
    by_contra hsome
    obtain ⟨⟨count, statement⟩, hsome⟩ := Option.ne_none_iff_exists'.mp hsome
    have hlt := parseTimesDirective_length hsome
    exact hnot statement (writtenLine_times hsome) (by omega)
  have hplain : writtenLine (readLine text).1 = (readLine text).1 ++ [0x0A#8] := by
    rw [writtenLine, timesLine, htimes]
  have hnotlt := hnot (readLine text).1 (hplain ▸ List.prefix_refl _)
  have hread := length_readLine_lt text
  exact ⟨by omega, htimes⟩

theorem kept_lines {text : List Byte} {s u : PassTwo} (hs : s.rest = text)
    (hactive : s.cond.active = true) (hdefines : s.defines = [])
    (hpercent : ∀ line ∈ textLines text, NoPercent line)
    (hdef : ∀ line ∈ sourceLines text, NoDefinition line.1) (hrun : passTwo [] s = .returns u)
    (hkept : u.out = s.out ++ text ∨ u.out = s.out ++ text ++ [0x0A#8]) :
    ∀ line ∈ textLines text, line.length < maxLineLength ∧
      parseMacroDirective line = .returns none ∧ parseTimesDirective line = none := by
  induction text using lineInduction generalizing s with
  | nil => exact List.forall_mem_nil _
  | line text hne ih =>
      subst hs
      rw [textLines_of_ne hne] at hpercent
      rw [sourceLines_of_ne hne] at hdef
      obtain ⟨hfirst, hpercent⟩ := List.forall_mem_cons.mp hpercent
      obtain ⟨hline, hdef⟩ := List.forall_mem_cons.mp hdef
      have hfirst : NoPercent (readLine s.rest).1 := by
        rw [readLine_fst]
        exact hfirst.take _
      rw [passTwo_of_ne hne] at hrun
      obtain ⟨t, hstep, hrun⟩ := Outcome.bind_eq_returns.mp hrun
      have hhead := noMacro_of_returns hactive hfirst hline hstep
      rw [passTwoStep_plain hactive hdefines hfirst hhead] at hstep
      cases hstep
      have hwritten : writtenLine (readLine s.rest).1 <+: s.rest ++ [0x0A#8] := by
        have hout := passTwo_out hrun
        have hle : u.out <+: s.out ++ (s.rest ++ [0x0A#8]) := by
          rcases hkept with hkept | hkept
          · rw [hkept, ← List.append_assoc]
            exact List.prefix_append _ _
          · have heq := hkept.trans (List.append_assoc _ _ _)
            exact heq ▸ List.prefix_refl _
        exact (List.prefix_append_right_inj _).mp (hout.trans hle)
      obtain ⟨hshort, htimes⟩ := first_of_written hwritten
      have hread := readLine_eq_textLine hshort
      rw [hread] at hhead htimes ih hrun hdef
      rw [textLines_of_ne hne, List.forall_mem_cons]
      refine ⟨⟨hshort, hhead, htimes⟩, ?_⟩
      rcases textLine_raw s.rest with hraw | ⟨-, hnil⟩
      · refine @ih { s with
            rest := (textLine s.rest).2.2
            out := s.out ++ writtenLine (textLine s.rest).1 } rfl hactive hdefines hpercent hdef
          hrun ?_
        dsimp only
        rw [writtenLine, timesLine, htimes]
        dsimp only
        rw [← hraw, List.append_assoc s.out, ← textLine_split s.rest]
        exact hkept
      · rw [hnil]
        exact List.forall_mem_nil _

theorem sourceLines_eq_of_short {text : List Byte}
    (h : ∀ line ∈ textLines text, line.length < maxLineLength) :
    (sourceLines text).map Prod.fst = textLines text := by
  induction text using lineInduction with
  | nil => rfl
  | line text hne ih =>
      rw [textLines_of_ne hne] at h ⊢
      obtain ⟨hshort, hrest⟩ := List.forall_mem_cons.mp h
      have hread := readLine_eq_textLine hshort
      rw [hread] at ih
      rw [sourceLines_of_ne hne, List.map_cons, hread, ih hrest]

section Plain

variable (env : PreprocessEnv) (tracker : List Path) {text : List Byte}

theorem preprocessMacros_plain (hcli : env.cliDefines = [])
    (h : ∀ line ∈ sourceLines text, parseIncludeFilename line.1 = some none) :
    preprocessMacros env tracker text = preprocessPasses text [] := by
  have hseed : seedDefines env = some [] := by
    rw [seedDefines, hcli]
    rfl
  rw [preprocessMacros_eq_passes, hseed, expandIncludes_plain _ _ _ h]
  rfl

theorem keptAsIs_of_passedOver (hcli : env.cliDefines = []) (hplain : PlainSource text)
    (h : ∀ line ∈ textLines text, line.length < maxLineLength ∧ PassedOver line) :
    KeptAsIs env tracker text := by
  have hlines := sourceLines_eq_of_short fun line hline => (h line hline).1
  have hmem : ∀ line ∈ sourceLines text, line.1 ∈ textLines text := by
    intro line hline
    rw [← hlines]
    exact List.mem_map_of_mem hline
  have hpassed : ∀ line ∈ sourceLines text,
      NoPercent line.1 ∧ parseMacroDirective line.1 = .returns none := by
    intro line hline
    exact ⟨(hplain line.1 (hmem line hline)).noPercent, (h line.1 (hmem line hline)).2.noMacro⟩
  have hone := @passOne_plain text { rest := text, defines := [] } rfl hpassed
  have htwo := @passTwo_plain text { rest := text, defines := [] } rfl rfl hpassed
  have hwritten := writtenLines_eq fun line hline =>
    ⟨(h line hline).1, (h line hline).2.noTimes⟩
  rw [KeptAsIs, preprocessMacros_plain env tracker hcli fun line hline =>
    (h line.1 (hmem line hline)).2.noInclude, preprocessPasses, hone]
  simp only [Outcome.bind]
  rw [if_pos (by rfl), htwo]
  simp only [List.nil_append]
  rw [if_pos (by rfl)]
  rcases hwritten with hsame | hsame
  · exact .inl (congrArg Outcome.returns hsame)
  · exact .inr (congrArg Outcome.returns hsame)

theorem includes_wellFormed {levels : Nat} {baseDir : Path} {out : List Byte} {tracker' : List Path}
    (hfiles : ∀ line ∈ sourceLines text, ∀ name, parseIncludeFilename line.1 ≠ some (some name))
    (h : expandIncludes env.toIncludeEnv (levels + 1) baseDir text tracker = (some out, tracker')) :
    ∀ line ∈ sourceLines text, parseIncludeFilename line.1 = some none := by
  induction text using lineInduction generalizing out tracker tracker' with
  | nil => exact List.forall_mem_nil _
  | line text hne ih =>
      rw [sourceLines_of_ne hne] at hfiles ⊢
      obtain ⟨hline, hrest⟩ := List.forall_mem_cons.mp hfiles
      rw [expandIncludes_of_ne _ _ _ hne] at h
      obtain ⟨out₁, tracker₁, hfirst, h⟩ := Fallible.bind_eq_some.mp h
      obtain ⟨out₂, tracker₂, hmore, -⟩ := Fallible.bind_eq_some.mp h
      refine List.forall_mem_cons.mpr ⟨?_, ih tracker₁ hrest hmore⟩
      rw [includeLine] at hfirst
      cases hinclude : parseIncludeFilename (readLine text).1 with
      | none =>
          rw [hinclude] at hfirst
          cases hfirst
      | some found =>
          cases found with
          | none => rfl
          | some name => exact absurd hinclude (hline name)

/-- A plain source is kept where its lines are short and no recogniser takes them, and where no
line includes a file or defines a macro, only there. -/
theorem keptAsIs_plain (hcli : env.cliDefines = []) (hplain : PlainSource text) :
    ((∀ line ∈ textLines text, line.length < maxLineLength ∧ PassedOver line) →
        KeptAsIs env tracker text) ∧
      ((∀ line ∈ sourceLines text,
          (∀ name, parseIncludeFilename line.1 ≠ some (some name)) ∧ NoDefinition line.1) →
        KeptAsIs env tracker text →
          ∀ line ∈ textLines text, line.length < maxLineLength ∧ PassedOver line) := by
  refine ⟨keptAsIs_of_passedOver env tracker hcli hplain, ?_⟩
  intro hdef hkept
  have hout : ∃ out, preprocessMacros env tracker text = .returns out ∧
      (out = text ∨ out = text ++ [0x0A#8]) := by
    rcases hkept with hkept | hkept
    · exact ⟨_, hkept, .inl rfl⟩
    · exact ⟨_, hkept, .inr rfl⟩
  obtain ⟨out, hreturns, hout⟩ := hout
  have hincludes : ∀ line ∈ sourceLines text, parseIncludeFilename line.1 = some none := by
    rw [preprocessMacros_eq_passes] at hreturns
    obtain ⟨expanded, hexpanded, -⟩ := Outcome.bind_eq_returns.mp hreturns
    rw [Outcome.ofOption_eq_returns] at hexpanded
    exact includes_wellFormed env tracker (fun line hline => (hdef line hline).1)
      (Prod.ext hexpanded rfl)
  rw [preprocessMacros_plain env tracker hcli hincludes, preprocessPasses] at hreturns
  obtain ⟨one, hone, hreturns⟩ := Outcome.bind_eq_returns.mp hreturns
  have hmacros := passOne_macros rfl (fun line hline => (hdef line hline).2) hone
  split at hreturns
  · obtain ⟨two, htwo, hreturns⟩ := Outcome.bind_eq_returns.mp hreturns
    split at hreturns
    · cases hreturns
      rw [hmacros] at htwo
      have hlines := @kept_lines text { rest := text, defines := [] } two rfl rfl rfl
        (fun line hline => (hplain line hline).noPercent) (fun line hline => (hdef line hline).2)
        htwo hout
      intro line hline
      obtain ⟨hshort, hhead, htimes⟩ := hlines line hline
      refine ⟨hshort, ?_, hhead, htimes⟩
      have hsame := sourceLines_eq_of_short fun line hline => (hlines line hline).1
      rw [← hsame] at hline
      obtain ⟨pair, hpair, rfl⟩ := List.mem_map.mp hline
      exact hincludes pair hpair
    · cases hreturns
  · cases hreturns

end Plain

/-- A label that begins with a directive's name. -/
theorem keptAsIs_plain_timesUp : KeptAsIs memoryEnv [] (str "times_up: nop\nret") :=
  (keptAsIs_plain memoryEnv [] rfl (by decide +kernel)).1 (by decide +kernel)

/-- The label `includes` is taken for an include directive. -/
theorem not_keptAsIs_includes : ¬ (PlainSource (str "includes: nop") →
    KeptAsIs memoryEnv [] (str "includes: nop")) := by
  intro h
  have hplain : PlainSource (str "includes: nop") := by decide +kernel
  have hnull : preprocessMacros memoryEnv [] (str "includes: nop") = .null := by decide +kernel
  rcases h hplain with hkept | hkept
  · rw [hnull] at hkept
    cases hkept
  · rw [hnull] at hkept
    cases hkept

end X86Assembler
