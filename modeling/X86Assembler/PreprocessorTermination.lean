import X86Assembler.ConditionalPasses

namespace X86Assembler

open CString (Byte str isSpace)

/-- Whether the loop over the parameters comes to a character that none of its skips takes,
after it has begun some names, and read some characters of the last of them. -/
def paramsStuck : Nat → Nat → List Byte → Bool
  | _, _, [] => false
  | names, len, b :: bs =>
    if isIdentChar b then
      if len = 0 || len = maxLabelLength - 1 then
        names < maxMacroParams && paramsStuck (names + 1) 1 bs
      else paramsStuck names (len + 1) bs
    else
      names < maxMacroParams &&
        if isSpace b || b = 0x2C#8 then paramsStuck names 0 bs else b != 0x3B#8 && b != 0x2F#8

theorem blank_not_ident : ∀ b : Byte, (isSpace b || b = 0x2C#8) = true → isIdentChar b = false := by
  decide +kernel

theorem paramsStuck_full {names : Nat} (h : maxMacroParams ≤ names) (text : List Byte) :
    paramsStuck names 0 text = false := by
  have hnames : decide (names < maxMacroParams) = false := by simpa using h
  cases text with
  | nil => rfl
  | cons b bs =>
      have hstart : (0 = 0 || 0 = maxLabelLength - 1 : Bool) = true := rfl
      rw [paramsStuck, hstart, if_pos rfl, hnames, Bool.false_and, Bool.false_and, ite_self]

theorem paramsStuck_blank {b : Byte} (hb : (isSpace b || b = 0x2C#8) = true) (names : Nat)
    (bs : List Byte) : paramsStuck names 0 (b :: bs) = paramsStuck names 0 bs := by
  rw [paramsStuck, if_neg (by rw [blank_not_ident b hb]; exact Bool.false_ne_true), if_pos hb]
  by_cases h : names < maxMacroParams
  · rw [decide_eq_true h, Bool.true_and]
  · rw [paramsStuck_full (Nat.le_of_not_lt h), Bool.and_false]

theorem paramsStuck_skipSpaces (names : Nat) (text : List Byte) :
    paramsStuck names 0 (skipSpaces text) = paramsStuck names 0 text := by
  induction text with
  | nil => rfl
  | cons b bs ih =>
      by_cases hb : isSpace b = true
      · rw [skipSpaces, List.dropWhile_cons_of_pos hb, paramsStuck_blank (by rw [hb]; rfl)]
        exact ih
      · rw [skipSpaces, List.dropWhile_cons_of_neg hb]

theorem paramsStuck_skipComma (names : Nat) (text : List Byte) :
    paramsStuck names 0 (skipComma text) = paramsStuck names 0 text := by
  rw [skipComma.eq_def]
  split
  · rw [paramsStuck_skipSpaces, paramsStuck_blank rfl]
  · rfl

theorem paramsStuck_inName {names : Nat} {name : List Byte} (hname : ∀ b ∈ name, isIdentChar b = true)
    {len : Nat} (hlen : 0 < len) (hle : len + name.length ≤ maxLabelLength - 1) (rest : List Byte) :
    paramsStuck names len (name ++ rest) = paramsStuck names (len + name.length) rest := by
  induction name generalizing len with
  | nil => rfl
  | cons b name ih =>
      obtain ⟨hb, hname⟩ := List.forall_mem_cons.mp hname
      rw [List.length_cons] at hle ⊢
      have hinside : (len = 0 || len = maxLabelLength - 1 : Bool) = false := by
        rw [Bool.or_eq_false_iff, decide_eq_false_iff_not, decide_eq_false_iff_not]
        omega
      rw [List.cons_append, paramsStuck, if_pos hb, if_neg (by rw [hinside]; exact Bool.false_ne_true),
        ih hname (by omega) (by omega), Nat.add_right_comm, Nat.add_assoc]

theorem paramsStuck_behind {names len : Nat} {rest : List Byte}
    (h : len = maxLabelLength - 1 ∨ ∀ b ∈ rest.head?, isIdentChar b = false) :
    paramsStuck names len rest = paramsStuck names 0 rest := by
  cases rest with
  | nil => rfl
  | cons b rest =>
      rw [paramsStuck, paramsStuck]
      rcases h with rfl | h
      · simp
      · have hb : ¬ isIdentChar b = true := by
          rw [h b rfl]
          exact Bool.false_ne_true
        rw [if_neg hb, if_neg hb]

def paramName (text : List Byte) : List Byte :=
  (text.takeWhile isIdentChar).take (maxLabelLength - 1)

theorem paramsStuck_paramName {names : Nat} (hnames : names < maxMacroParams) {text : List Byte}
    (hne : paramName text ≠ []) : paramsStuck names 0 text =
      paramsStuck (names + 1) 0 (text.drop (paramName text).length) := by
  have hident : ∀ b ∈ paramName text, isIdentChar b = true := by
    intro b hb
    exact List.mem_takeWhile_imp (List.mem_of_mem_take hb)
  have hprefix : paramName text <+: text :=
    (List.take_prefix _ _).trans (List.takeWhile_prefix _)
  have hle : (paramName text).length ≤ maxLabelLength - 1 := List.length_take_le _ _
  have hbehind : (paramName text).length = maxLabelLength - 1 ∨
      ∀ b ∈ (text.drop (paramName text).length).head?, isIdentChar b = false := by
    by_cases hlong : maxLabelLength - 1 ≤ (text.takeWhile isIdentChar).length
    · left
      rw [paramName, List.length_take, Nat.min_eq_left hlong]
    · right
      have htake : paramName text = text.takeWhile isIdentChar := List.take_of_length_le (by omega)
      rw [htake, drop_takeWhile]
      intro b hb
      have hnot := List.head?_dropWhile_not isIdentChar text
      rw [Option.mem_def.mp hb] at hnot
      exact hnot
  have hsplit : text = paramName text ++ text.drop (paramName text).length := by
    conv_lhs => rw [← List.take_append_drop (paramName text).length text]
    rw [← List.prefix_iff_eq_take.mp hprefix]
  obtain ⟨b, name, hname⟩ := List.exists_cons_of_ne_nil hne
  rw [← paramsStuck_behind hbehind]
  generalize text.drop (paramName text).length = rest at hsplit
  rw [hname] at hident hle ⊢
  rw [hsplit, hname, List.cons_append, paramsStuck]
  obtain ⟨hb, hident⟩ := List.forall_mem_cons.mp hident
  have hstart : (0 = 0 || 0 = maxLabelLength - 1 : Bool) = true := rfl
  rw [List.length_cons] at hle ⊢
  rw [if_pos hb, hstart, if_pos rfl, decide_eq_true hnames, Bool.true_and,
    paramsStuck_inName hident Nat.one_pos (by omega), Nat.add_comm 1]

def afterParam (text : List Byte) : List Byte :=
  let text := skipComma text
  skipComma (skipSpaces (text.drop (paramName text).length))

def withParam (text : List Byte) (params : List Label) : List Label :=
  if paramName (skipComma text) = [] then params
  else params ++ [CString.copyBounded _ (paramName (skipComma text))]

theorem macroParams_step {text : List Byte} {params : List Label} (hends : endsList text = false)
    (hcount : params.length < maxMacroParams) (rounds : Nat) :
    macroParams (rounds + 1) text params =
      macroParams rounds (afterParam text) (withParam text params) := by
  rw [macroParams, if_neg]
  · rfl
  · rw [hends, Bool.false_or, decide_eq_true_iff]
    omega

theorem paramsStuck_step {text : List Byte} {params : List Label}
    (hcount : params.length < maxMacroParams) : paramsStuck params.length 0 text =
      paramsStuck (withParam text params).length 0 (afterParam text) := by
  rw [afterParam, paramsStuck_skipComma, paramsStuck_skipSpaces, withParam,
    ← paramsStuck_skipComma _ text]
  split
  · next hname => rw [hname, List.length_nil, List.drop_zero]
  · next hname =>
      rw [List.length_append, List.length_singleton, paramsStuck_paramName hcount hname]

theorem skipSpaces_length_le (text : List Byte) : (skipSpaces text).length ≤ text.length :=
  (List.dropWhile_sublist _).length_le

theorem skipComma_length_le (text : List Byte) : (skipComma text).length ≤ text.length := by
  rw [skipComma.eq_def]
  split
  · rw [List.length_cons]
    exact Nat.le_succ_of_le (skipSpaces_length_le _)
  · exact Nat.le_refl _

theorem not_paramsStuck_end {text : List Byte} (h : endsList text = true) (names : Nat) :
    paramsStuck names 0 text = false := by
  cases text with
  | nil => rfl
  | cons b bs =>
      have hb : b = 0x3B#8 ∨ b = 0x2F#8 := by simpa [endsList] using h
      rcases hb with rfl | rfl
      · rw [paramsStuck, if_neg (by decide), if_neg (by decide)]
        exact Bool.and_false _
      · rw [paramsStuck, if_neg (by decide), if_neg (by decide)]
        exact Bool.and_false _

theorem paramsStuck_of_no_progress {text : List Byte} (hends : endsList text = false)
    {names : Nat} (hcount : names < maxMacroParams)
    (h : ¬ (afterParam text).length < text.length) : paramsStuck names 0 text = true := by
  have hlen : (afterParam text).length ≤
      (skipSpaces ((skipComma text).drop (paramName (skipComma text)).length)).length :=
    skipComma_length_le _
  have hskip := skipSpaces_length_le ((skipComma text).drop (paramName (skipComma text)).length)
  rw [List.length_drop] at hskip
  match text, hends with
  | b :: bs, hends =>
      have hb : b ≠ 0x3B#8 ∧ b ≠ 0x2F#8 := by simpa [endsList] using hends
      by_cases hcomma : b = 0x2C#8
      · subst hcomma
        have hshort : (skipComma (0x2C#8 :: bs)).length ≤ bs.length := skipSpaces_length_le bs
        rw [List.length_cons] at h
        omega
      have hsame : skipComma (b :: bs) = b :: bs := by
        rw [skipComma.eq_def]
        simp [hcomma]
      rw [hsame] at hlen hskip
      rw [List.length_cons] at h hskip
      by_cases hident : isIdentChar b = true
      · have hname : 0 < (paramName (b :: bs)).length := by
          rw [paramName, List.takeWhile_cons_of_pos hident]
          exact Nat.succ_pos _
        omega
      have hname : paramName (b :: bs) = [] := by
        rw [paramName, List.takeWhile_cons_of_neg hident, List.take_nil]
      by_cases hspace : isSpace b = true
      · have hshort : (skipSpaces (b :: bs)).length ≤ bs.length := by
          rw [skipSpaces, List.dropWhile_cons_of_pos hspace]
          exact skipSpaces_length_le bs
        rw [hname, List.length_nil, List.drop_zero] at hlen
        omega
      · rw [paramsStuck, if_neg hident, decide_eq_true hcount, if_neg (by simp [hspace, hcomma])]
        simp [hb]

theorem macroParams_of_stuck {text : List Byte} {params : List Label}
    (h : paramsStuck params.length 0 text = true) (rounds : Nat) :
    macroParams rounds text params = .diverges := by
  induction rounds generalizing text params with
  | zero => rfl
  | succ rounds ih =>
      have hends : endsList text = false := by
        by_contra hends
        rw [not_paramsStuck_end ((Bool.not_eq_false _).mp hends)] at h
        cases h
      have hcount : params.length < maxMacroParams := by
        by_contra hfull
        rw [paramsStuck_full (Nat.le_of_not_lt hfull)] at h
        cases h
      rw [macroParams_step hends hcount]
      rw [paramsStuck_step hcount] at h
      exact ih h

theorem macroParams_of_not_stuck {text : List Byte} {params : List Label} {rounds : Nat}
    (hrounds : text.length < rounds) (h : paramsStuck params.length 0 text = false) :
    macroParams rounds text params ≠ .diverges := by
  induction rounds generalizing text params with
  | zero => exact absurd hrounds (Nat.not_lt_zero _)
  | succ rounds ih =>
      by_cases hstop : (endsList text || maxMacroParams ≤ params.length) = true
      · rw [macroParams, if_pos hstop]
        intro hreturns
        cases hreturns
      · rw [Bool.or_eq_true, not_or, decide_eq_true_iff] at hstop
        have hends : endsList text = false := Bool.eq_false_iff.mpr hstop.1
        have hcount := Nat.lt_of_not_le hstop.2
        have hprogress : (afterParam text).length < text.length := by
          by_contra hnot
          rw [paramsStuck_of_no_progress hends hcount hnot] at h
          cases h
        rw [macroParams_step hends hcount]
        rw [paramsStuck_step hcount] at h
        exact ih (by omega) h

theorem macroArg_ne_nil {room : Nat} {b : Byte} {bs : List Byte} (hcomma : b ≠ 0x2C#8)
    (hsemi : b ≠ 0x3B#8) (hslash : b ≠ 0x2F#8) (parens brackets : Int) :
    macroArg (room + 1) parens brackets (b :: bs) ≠ [] := by
  rw [macroArg, if_neg (by simp [hcomma, hsemi, hslash])]
  exact List.cons_ne_nil _ _

theorem macroArgs_progress {text : List Byte} (hends : endsList text = false) :
    (skipComma (skipSpaces ((skipSpaces (skipComma text)).drop
      (macroArg (maxLineLength - 1) 0 0 (skipSpaces (skipComma text))).length))).length <
        text.length := by
  generalize harg : macroArg (maxLineLength - 1) 0 0 (skipSpaces (skipComma text)) = arg
  have hcomma := skipComma_length_le
    (skipSpaces ((skipSpaces (skipComma text)).drop arg.length))
  have hspaces := skipSpaces_length_le ((skipSpaces (skipComma text)).drop arg.length)
  rw [List.length_drop] at hspaces
  match text, hends, harg with
  | b :: bs, hends, harg =>
      have hb : b ≠ 0x3B#8 ∧ b ≠ 0x2F#8 := by simpa [endsList] using hends
      have hle := skipSpaces_length_le (skipComma (b :: bs))
      rw [List.length_cons]
      by_cases hbcomma : b = 0x2C#8
      · subst hbcomma
        have hshort : (skipComma (0x2C#8 :: bs)).length ≤ bs.length := skipSpaces_length_le bs
        omega
      have hsame : skipComma (b :: bs) = b :: bs := by
        rw [skipComma.eq_def]
        simp [hbcomma]
      rw [hsame] at harg hle hspaces hcomma ⊢
      by_cases hspace : isSpace b = true
      · have hshort : (skipSpaces (b :: bs)).length ≤ bs.length := by
          rw [skipSpaces, List.dropWhile_cons_of_pos hspace]
          exact skipSpaces_length_le bs
        omega
      · have hstay : skipSpaces (b :: bs) = b :: bs := by
          rw [skipSpaces, List.dropWhile_cons_of_neg hspace]
        rw [hstay] at harg hspaces hcomma ⊢
        have hne : arg ≠ [] := harg ▸ macroArg_ne_nil hbcomma hb.1 hb.2 0 0
        have hpos := List.length_pos_iff.mpr hne
        rw [List.length_cons] at hspaces
        omega

theorem macroArgs_ends {text : List Byte} {args : List Text} {rounds : Nat}
    (hrounds : text.length < rounds) : macroArgs rounds text args ≠ .diverges := by
  induction rounds generalizing text args with
  | zero => exact absurd hrounds (Nat.not_lt_zero _)
  | succ rounds ih =>
      rw [macroArgs]
      split
      · intro h
        cases h
      · next hstop =>
          rw [Bool.or_eq_true, not_or] at hstop
          have hprogress := macroArgs_progress (Bool.eq_false_iff.mpr hstop.1)
          exact ih (by omega)

theorem parseMacroInvocation_ends (macros : List Macro) (line : List Byte) :
    parseMacroInvocation macros line ≠ .diverges := by
  rw [parseMacroInvocation]
  dsimp only
  split
  · split
    · intro h
      cases hargs : macroArgs _ _ _ with
      | returns args =>
          rw [hargs] at h
          cases h
      | null =>
          rw [hargs] at h
          cases h
      | diverges => exact macroArgs_ends (Nat.lt_succ_self _) hargs
    · intro h
      cases h
  · intro h
    cases h

/-- A line that starts a macro definition whose parameters the loop gets stuck in. -/
def StuckLine (line : List Byte) : Prop :=
  ∃ text name, afterDotWord (str "macro") line = some text ∧ name ≠ [] ∧
    name = (text.takeWhile isMacroNameChar).take (maxLabelLength - 1) ∧
      paramsStuck 0 0 (skipSpaces (text.drop name.length)) = true

theorem parseMacroDirective_diverges_iff (line : List Byte) :
    parseMacroDirective line = .diverges ↔ StuckLine line := by
  rw [parseMacroDirective]
  cases hafter : afterDotWord (str "macro") line with
  | none =>
      apply iff_of_false
      · intro h
        cases h
      · rintro ⟨text, name, htext, -⟩
        rw [hafter] at htext
        cases htext
  | some text =>
      dsimp only
      split
      · next hname =>
          apply iff_of_false
          · intro h
            cases h
          · rintro ⟨text', name, htext, hne, hname', -⟩
            rw [hafter] at htext
            cases htext
            exact hne (hname'.trans hname)
      · next hname =>
          cases hstuck : paramsStuck 0 0 (skipSpaces (text.drop
              ((text.takeWhile isMacroNameChar).take (maxLabelLength - 1)).length)) with
          | true =>
              apply iff_of_true
              · rw [@macroParams_of_stuck _ [] hstuck]
                rfl
              · exact ⟨text, _, hafter, hname, rfl, hstuck⟩
          | false =>
              apply iff_of_false
              · intro h
                cases hparams : macroParams _ _ _ with
                | returns params =>
                    rw [hparams] at h
                    cases h
                | null =>
                    rw [hparams] at h
                    cases h
                | diverges => exact @macroParams_of_not_stuck _ [] _ (Nat.lt_succ_self _) hstuck hparams
              · rintro ⟨text', name, htext, hne, rfl, hstuck'⟩
                rw [hafter] at htext
                cases htext
                rw [hstuck] at hstuck'
                cases hstuck'

theorem conditionalLine_ends (defines : List Define) (macros : List Macro) (line : List Byte)
    (c : Conditionals) : conditionalLine defines macros line c ≠ .diverges := by
  intro h
  rw [conditionalLine] at h
  dsimp only at h
  repeat' split at h
  all_goals first
    | exact Outcome.ofOption_ne_diverges _ h
    | cases h
    | skip
  obtain ⟨taken, -, h⟩ := Outcome.ofOption_bind_eq_diverges.mp h
  exact Outcome.ofOption_ne_diverges _ h

/-- The first pass stands at a definition that it gets stuck in. -/
structure PassOne.Stuck (s : PassOne) : Prop where
  plain : conditionalLine s.defines s.macros (readLine s.rest).1 s.cond = .returns none
  active : s.cond.active = true
  noDefine : parseDefineDirective (readLine s.rest).1 = some none
  stuck : StuckLine (readLine s.rest).1

theorem collectLine_diverges_iff {line rest : List Byte} {s : PassOne} :
    collectLine line rest s = .diverges ↔
      parseDefineDirective line = some none ∧ StuckLine line := by
  rw [collectLine]
  cases hdefine : parseDefineDirective line with
  | none => simp
  | some define =>
      cases define with
      | some define =>
          obtain ⟨name, value⟩ := define
          simp [Outcome.ofOption_bind_eq_diverges]
      | none =>
          dsimp only
          rw [Outcome.bind_eq_diverges, parseMacroDirective_diverges_iff, and_iff_right rfl]
          apply or_iff_left
          rintro ⟨head, -, h⟩
          cases head with
          | none => cases h
          | some head =>
              obtain ⟨m, -, h⟩ := Outcome.ofOption_bind_eq_diverges.mp h
              cases h

theorem passOneStep_diverges_iff (s : PassOne) : passOneStep s = .diverges ↔ s.Stuck := by
  rw [passOneStep]
  dsimp only
  rw [Outcome.bind_eq_diverges, or_iff_right (conditionalLine_ends _ _ _ _)]
  constructor
  · rintro ⟨found, hfound, h⟩
    cases found with
    | some cond => cases h
    | none =>
        have h : (if s.cond.active then collectLine _ _ s else .returns _) = .diverges := h
        by_cases hactive : s.cond.active = true
        · rw [if_pos hactive] at h
          obtain ⟨hdefine, hstuck⟩ := collectLine_diverges_iff.mp h
          exact ⟨hfound, hactive, hdefine, hstuck⟩
        · rw [if_neg hactive] at h
          cases h
  · rintro ⟨hplain, hactive, hdefine, hstuck⟩
    refine ⟨none, hplain, ?_⟩
    rw [if_pos hactive]
    exact collectLine_diverges_iff.mpr ⟨hdefine, hstuck⟩

/-- The second pass stands at a definition that it gets stuck in. -/
structure PassTwo.Stuck (macros : List Macro) (s : PassTwo) : Prop where
  plain : conditionalLine s.defines macros (readLine s.rest).1 s.cond = .returns none
  active : s.cond.active = true
  noError : (parseExprDirective "%error" (readLine s.rest).1).isSome = false
  noWarning : (parseExprDirective "%warning" (readLine s.rest).1).isSome = false
  noDefine : parseDefineDirective (readLine s.rest).1 = some none
  stuck : StuckLine (readLine s.rest).1

theorem expandLine_ends (macros : List Macro) (defines : List Define) (ctx : MacroContext)
    (line : List Byte) : expandLine macros defines ctx line ≠ .diverges := by
  intro h
  obtain ⟨line, -, h⟩ := Outcome.ofOption_bind_eq_diverges.mp h
  split at h
  · cases h
  · rw [Outcome.bind_eq_diverges, or_iff_right (parseMacroInvocation_ends _ _)] at h
    obtain ⟨call, -, h⟩ := h
    cases call with
    | none => cases h
    | some call =>
        obtain ⟨⟨text, ctx'⟩, -, h⟩ := Outcome.ofOption_bind_eq_diverges.mp h
        obtain ⟨text', -, h⟩ := Outcome.ofOption_bind_eq_diverges.mp h
        cases h

theorem emitLine_diverges_iff {macros : List Macro} {line rest : List Byte} {s : PassTwo} :
    emitLine macros line rest s = .diverges ↔ s.cond.active = true ∧
      (parseExprDirective "%error" line).isSome = false ∧
        (parseExprDirective "%warning" line).isSome = false ∧
          parseDefineDirective line = some none ∧ StuckLine line := by
  constructor
  · intro h
    rw [emitLine] at h
    split at h
    · cases h
    next herror =>
    split at h
    · cases h
    next hwarning =>
    split at h
    · cases h
    next define hdefine =>
    split at h
    · next hactive =>
        rw [hactive, Bool.true_and] at herror hwarning
        split at h
        · next name value =>
            obtain ⟨defines, -, h⟩ := Outcome.ofOption_bind_eq_diverges.mp h
            cases h
        · rw [Outcome.bind_eq_diverges, parseMacroDirective_diverges_iff] at h
          rcases h with hstuck | ⟨head, -, h⟩
          · exact ⟨hactive, Bool.eq_false_iff.mpr herror, Bool.eq_false_iff.mpr hwarning,
              hdefine, hstuck⟩
          · cases head with
            | some head => cases h
            | none =>
                rw [Outcome.bind_eq_diverges, or_iff_right (expandLine_ends _ _ _ _)] at h
                obtain ⟨out, -, h⟩ := h
                cases h
    · cases h
  · rintro ⟨hactive, herror, hwarning, hdefine, hstuck⟩
    rw [emitLine, hactive, herror, hwarning, hdefine,
      (parseMacroDirective_diverges_iff _).mpr hstuck]
    rfl

theorem passTwoStep_diverges_iff (macros : List Macro) (s : PassTwo) :
    passTwoStep macros s = .diverges ↔ s.Stuck macros := by
  rw [passTwoStep]
  dsimp only
  rw [Outcome.bind_eq_diverges, or_iff_right (conditionalLine_ends _ _ _ _)]
  constructor
  · rintro ⟨found, hfound, h⟩
    cases found with
    | some cond => cases h
    | none =>
        obtain ⟨hactive, herror, hwarning, hdefine, hstuck⟩ := emitLine_diverges_iff.mp h
        exact ⟨hfound, hactive, herror, hwarning, hdefine, hstuck⟩
  · rintro ⟨hplain, hactive, herror, hwarning, hdefine, hstuck⟩
    exact ⟨none, hplain, emitLine_diverges_iff.mpr ⟨hactive, herror, hwarning, hdefine, hstuck⟩⟩

/-- The states in which the first pass reads a line of a text. -/
def passOneStates (text : List Byte) (defines : List Define) : List PassOne :=
  Loop.visited (fun s : PassOne => s.rest = []) passOneStep text.length { rest := text, defines }

def passTwoStates (macros : List Macro) (text : List Byte) (defines : List Define) : List PassTwo :=
  Loop.visited (fun s : PassTwo => s.rest = []) (passTwoStep macros) text.length
    { rest := text, defines }

theorem passOne_diverges_iff (text : List Byte) (defines : List Define) :
    passOne { rest := text, defines } = .diverges ↔ ∃ s ∈ passOneStates text defines, s.Stuck := by
  have hrun := @Loop.run_diverges_iff PassOne (fun s => s.rest = []) passOneStep text.length
    { rest := text, defines }
  simp only [passOneStep_diverges_iff] at hrun
  exact hrun

theorem passTwo_diverges_iff (macros : List Macro) (text : List Byte) (defines : List Define) :
    passTwo macros { rest := text, defines } = .diverges ↔
      ∃ s ∈ passTwoStates macros text defines, s.Stuck macros := by
  have hrun := @Loop.run_diverges_iff PassTwo (fun s => s.rest = []) (passTwoStep macros)
    text.length { rest := text, defines }
  simp only [passTwoStep_diverges_iff] at hrun
  exact hrun

def preprocessPasses (text : List Byte) (defines : List Define) : Outcome (List Byte) :=
  (passOne { rest := text, defines }).bind fun one =>
    if allClosed one.cond then
      (passTwo one.macros { rest := text, defines }).bind fun two =>
        if allClosed two.cond then .returns two.out else .null
    else .null

theorem preprocessPasses_diverges_iff (text : List Byte) (defines : List Define) :
    preprocessPasses text defines = .diverges ↔
      (∃ s ∈ passOneStates text defines, s.Stuck) ∨
        ∃ one, passOne { rest := text, defines } = .returns one ∧ allClosed one.cond = true ∧
          ∃ s ∈ passTwoStates one.macros text defines, s.Stuck one.macros := by
  rw [preprocessPasses, Outcome.bind_eq_diverges, passOne_diverges_iff]
  apply or_congr_right
  apply exists_congr
  intro one
  apply and_congr_right
  intro _
  by_cases hclosed : allClosed one.cond = true
  · rw [if_pos hclosed, and_iff_right hclosed, Outcome.bind_eq_diverges, passTwo_diverges_iff]
    apply or_iff_left
    rintro ⟨two, -, h⟩
    split at h
    · cases h
    · cases h
  · rw [if_neg hclosed]
    apply iff_of_false
    · intro h
      cases h
    · rintro ⟨h, -⟩
      exact hclosed h

theorem preprocessMacros_eq_passes (env : PreprocessEnv) (tracker : List Path)
    (source : List Byte) : preprocessMacros env tracker source =
      (Outcome.ofOption (expandIncludes env.toIncludeEnv (maxIncludeDepth + 1)
        (dirnameFromPath env.currentFilename) source tracker).1).bind fun text =>
          (Outcome.ofOption (seedDefines env)).bind (preprocessPasses text) := by
  rw [preprocessMacros]
  split
  · next h =>
      rw [h]
      rfl
  · next text h =>
      rw [h]
      rfl

/-- The preprocessor ends exactly where neither pass stands at a definition that it gets stuck
in. -/
theorem preprocessMacros_ends_iff (env : PreprocessEnv) (tracker : List Path)
    (source : List Byte) : preprocessMacros env tracker source ≠ .diverges ↔
      ∀ text defines, (expandIncludes env.toIncludeEnv (maxIncludeDepth + 1)
          (dirnameFromPath env.currentFilename) source tracker).1 = some text →
        seedDefines env = some defines →
          (∀ s ∈ passOneStates text defines, ¬ s.Stuck) ∧
            ∀ one, passOne { rest := text, defines } = .returns one → allClosed one.cond = true →
              ∀ s ∈ passTwoStates one.macros text defines, ¬ s.Stuck one.macros := by
  rw [preprocessMacros_eq_passes, Ne, Outcome.ofOption_bind_eq_diverges, not_exists]
  apply forall_congr'
  intro text
  rw [not_and, Outcome.ofOption_bind_eq_diverges, not_exists]
  constructor
  · intro h defines htext hdefines
    have hnot := h htext defines
    rw [not_and, preprocessPasses_diverges_iff, not_or] at hnot
    obtain ⟨hone, htwo⟩ := hnot hdefines
    constructor
    · intro s hs hstuck
      exact hone ⟨s, hs, hstuck⟩
    · intro one hreturns hclosed s hs hstuck
      exact htwo ⟨one, hreturns, hclosed, s, hs, hstuck⟩
  · intro h htext defines
    rw [not_and, preprocessPasses_diverges_iff, not_or]
    intro hdefines
    obtain ⟨hone, htwo⟩ := h defines htext hdefines
    constructor
    · rintro ⟨s, hs, hstuck⟩
      exact hone s hs hstuck
    · rintro ⟨one, hreturns, hclosed, s, hs, hstuck⟩
      exact htwo one hreturns hclosed s hs hstuck

/-- The parameters of `.macro m =` are never read to their end. -/
theorem preprocessMacros_runsForever :
    preprocessMacros memoryEnv [] (str ".macro m =") = .diverges := by
  decide +kernel

end X86Assembler
