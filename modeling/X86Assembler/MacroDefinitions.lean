import X86Assembler.ConditionalPasses
import X86Assembler.IncludeExpansion

namespace X86Assembler

open CString (Byte str)

/-- The lines in front of the first `.endm` line, that line with its newline, and what follows it. -/
def linesToEndm : Nat → List Byte → Option (List (List Byte) × List Byte × List Byte)
  | 0, _ => none
  | n + 1, text =>
    if text = [] then none
    else
      let (line, raw, rest) := textLine text
      if isEndmDirective line then some ([], raw, rest)
      else (linesToEndm n rest).map fun (body, last, after) => (line :: body, last, after)

/-- The identifiers of a text up to a comment, with what has been read of the first one. -/
def identifiersFrom (name : List Byte) : List Byte → List (List Byte)
  | [] => if name = [] then [] else [name]
  | b :: bs =>
    if b = 0x3B#8 || b = 0x2F#8 then if name = [] then [] else [name]
    else if isIdentChar b then identifiersFrom (name ++ [b]) bs
    else (if name = [] then [] else [name]) ++ identifiersFrom [] bs

def identifiers (text : List Byte) : List (List Byte) := identifiersFrom [] text

/-- The name on a `.macro` line and the parameters behind it. -/
def macroHead (line : List Byte) : Option (List Byte × List (List Byte)) :=
  match afterDotWord (str "macro") line with
  | none => none
  | some text =>
    let name := text.takeWhile isMacroNameChar
    if name = [] then none
    else some (name, identifiers (text.drop name.length))

structure MacroText where
  head : List Byte
  name : List Byte
  params : List (List Byte)
  body : List (List Byte)
  last : List Byte
  after : List Byte
deriving DecidableEq

/-- The definition at the start of a text, if a `.macro` line stands there and an `.endm` line
behind it. -/
def macroTextAt (text : List Byte) : Option MacroText := do
  let (head, _, rest) := textLine text
  let (name, params) ← macroHead head
  let (body, last, after) ← linesToEndm rest.length rest
  pure { head, name, params, body, last, after }

/-- A definition within what the macro table and its line buffer hold. Behind `.macro` the reader
puts the newline and a NUL behind each line, without a check: behind 1023 bytes the NUL would lie
past the buffer. -/
structure MacroText.Fits (d : MacroText) : Prop where
  head : d.head.length < maxLineLength
  lines : ∀ line ∈ d.body, line.length + 1 < maxLineLength
  last : d.last.length < maxLineLength
  body : d.body.length ≤ maxMacroBodyLines
  params : d.params.length ≤ maxMacroParams
  names : ∀ name ∈ d.name :: d.params, name.length < maxLabelLength

instance (d : MacroText) : Decidable d.Fits :=
  decidable_of_iff (d.head.length < maxLineLength ∧
      (∀ line ∈ d.body, line.length + 1 < maxLineLength) ∧ d.last.length < maxLineLength ∧
        d.body.length ≤ maxMacroBodyLines ∧ d.params.length ≤ maxMacroParams ∧
          ∀ name ∈ d.name :: d.params, name.length < maxLabelLength)
    ⟨fun ⟨h₁, h₂, h₃, h₄, h₅, h₆⟩ => ⟨h₁, h₂, h₃, h₄, h₅, h₆⟩,
      fun ⟨h₁, h₂, h₃, h₄, h₅, h₆⟩ => ⟨h₁, h₂, h₃, h₄, h₅, h₆⟩⟩

theorem linesToEndm_of_ne {n : Nat} {text : List Byte} (hne : text ≠ []) :
    linesToEndm (n + 1) text =
      if isEndmDirective (textLine text).1 then some ([], (textLine text).2.1, (textLine text).2.2)
      else (linesToEndm n (textLine text).2.2).map fun r =>
        ((textLine text).1 :: r.1, r.2.1, r.2.2) := by
  rw [linesToEndm, if_neg hne]

theorem textLine_fst_le (text : List Byte) : (textLine text).1.length ≤ (textLine text).2.1.length := by
  rw [textLine]
  split
  · rw [List.length_append]
    exact Nat.le_add_right _ _
  · exact Nat.le_refl _

theorem isEndmDirective_raw (text : List Byte) :
    isEndmDirective (readLine text).2.1 = isEndmDirective (readLine text).1 := by
  rw [readLine]
  split
  · exact isEndmDirective_newline _
  · rfl

theorem macroBody_text {n : Nat} {text : List Byte} {body : List (List Byte)}
    {last after : List Byte} (h : linesToEndm n text = some (body, last, after))
    (hlines : ∀ line ∈ body, line.length + 1 < maxLineLength) (hlast : last.length < maxLineLength) :
    macroBody n text = (body, true, after) := by
  induction n generalizing text body with
  | zero => cases h
  | succ n ih =>
      by_cases hne : text = []
      · rw [linesToEndm, if_pos hne] at h
        cases h
      · rw [linesToEndm_of_ne hne] at h
        have hbody : macroBody (n + 1) text =
            if isEndmDirective (readLine text).1 then ([], true, (readLine text).2.2)
            else ((readLine text).1 :: (macroBody n (readLine text).2.2).1,
              (macroBody n (readLine text).2.2).2) := by
          rw [macroBody, if_neg hne]
          simp only [isEndmDirective_raw]
        rw [hbody]
        split at h
        · next hend =>
            cases h
            have hshort := readLine_eq_textLine (Nat.lt_of_le_of_lt (textLine_fst_le text) hlast)
            rw [hshort, if_pos hend]
        · next hmore =>
            obtain ⟨⟨body', last', after'⟩, hrest, heq⟩ := Option.map_eq_some_iff.mp h
            cases heq
            obtain ⟨hline, hrestLines⟩ := List.forall_mem_cons.mp hlines
            have hshort := readLine_eq_textLine (Nat.lt_of_succ_lt hline)
            rw [hshort, if_neg hmore, ih hrest hrestLines]

/-- What `line` holds after each line that the first pass reads into a definition; a NUL stands
behind it. -/
def macroBodyBuffers : Nat → List Byte → List (List Byte)
  | 0, _ => []
  | rounds + 1, text =>
    if text = [] then []
    else
      let (_, raw, rest) := readLine text
      if isEndmDirective raw then [raw] else raw :: macroBodyBuffers rounds rest

theorem textLine_raw_le (text : List Byte) : (textLine text).2.1.length ≤ (textLine text).1.length + 1 := by
  rw [textLine]
  split
  · rw [List.length_append, List.length_singleton]
  · exact Nat.le_succ _

theorem macroBodyBuffers_lt {n : Nat} {text : List Byte} {body : List (List Byte)}
    {last after : List Byte} (h : linesToEndm n text = some (body, last, after))
    (hlines : ∀ line ∈ body, line.length + 1 < maxLineLength) (hlast : last.length < maxLineLength) :
    ∀ raw ∈ macroBodyBuffers n text, raw.length < maxLineLength := by
  induction n generalizing text body with
  | zero => cases h
  | succ n ih =>
      by_cases hne : text = []
      · rw [linesToEndm, if_pos hne] at h
        cases h
      · rw [linesToEndm_of_ne hne] at h
        rw [macroBodyBuffers, if_neg hne]
        simp only [isEndmDirective_raw]
        split at h
        · next hend =>
            cases h
            rw [readLine_eq_textLine (Nat.lt_of_le_of_lt (textLine_fst_le text) hlast), if_pos hend]
            exact List.forall_mem_singleton.mpr hlast
        · next hmore =>
            obtain ⟨⟨body', last', after'⟩, hrest, heq⟩ := Option.map_eq_some_iff.mp h
            cases heq
            obtain ⟨hline, hrestLines⟩ := List.forall_mem_cons.mp hlines
            rw [readLine_eq_textLine (Nat.lt_of_succ_lt hline), if_neg hmore]
            exact List.forall_mem_cons.mpr
              ⟨Nat.lt_of_le_of_lt (textLine_raw_le text) hline, ih hrest hrestLines⟩

theorem addBodyLines {m : Macro} {lines : List (List Byte)}
    (h : m.body.length + lines.length ≤ maxMacroBodyLines) :
    lines.foldl macroAddBodyLine m = { m with body := m.body ++ lines.map (CString.copyBounded _) } := by
  induction lines generalizing m with
  | nil => rw [List.foldl_nil, List.map_nil, List.append_nil]
  | cons line lines ih =>
      rw [List.length_cons] at h
      have hroom : ¬ maxMacroBodyLines ≤ m.body.length := by omega
      rw [List.foldl_cons, macroAddBodyLine, if_neg hroom, ih, List.map_cons, List.append_assoc,
        List.singleton_append]
      rw [List.length_append, List.length_singleton]
      omega

theorem addParams {m : Macro} {params : List Label}
    (h : m.params.length + params.length ≤ maxMacroParams) :
    params.foldl macroAddParam m = { m with params := m.params ++ params } := by
  induction params generalizing m with
  | nil => rw [List.foldl_nil, List.append_nil]
  | cons param params ih =>
      rw [List.length_cons] at h
      have hroom : ¬ maxMacroParams ≤ m.params.length := by omega
      rw [List.foldl_cons, macroAddParam, if_neg hroom, ih, List.append_assoc,
        List.singleton_append]
      rw [List.length_append, List.length_singleton]
      omega

theorem identifiersFrom_run {name run rest : List Byte} (hrun : ∀ b ∈ run, isIdentChar b = true)
    (hcomment : ∀ b ∈ run, b ≠ 0x3B#8 ∧ b ≠ 0x2F#8) :
    identifiersFrom name (run ++ rest) = identifiersFrom (name ++ run) rest := by
  induction run generalizing name with
  | nil => rw [List.append_nil, List.nil_append]
  | cons b run ih =>
      obtain ⟨hb, hrun⟩ := List.forall_mem_cons.mp hrun
      obtain ⟨⟨hsemi, hslash⟩, hcomment⟩ := List.forall_mem_cons.mp hcomment
      rw [List.cons_append, identifiersFrom, if_neg (by simp [hsemi, hslash]), if_pos hb,
        ih hrun hcomment, List.append_assoc, List.singleton_append]

theorem identChar_facts : ∀ b : Byte, isIdentChar b = true → b ≠ 0x3B#8 ∧ b ≠ 0x2F#8 ∧ b ≠ 0 := by
  decide +kernel

theorem space_facts : ∀ b : Byte, CString.isSpace b = true →
    b ≠ 0x3B#8 ∧ b ≠ 0x2F#8 ∧ isIdentChar b = false := by
  decide +kernel

theorem identifiersFrom_stop {name rest : List Byte}
    (hrest : rest.head?.all (fun b => !isIdentChar b) = true) :
    identifiersFrom name rest = (if name = [] then [] else [name]) ++ identifiers rest := by
  cases rest with
  | nil => rw [identifiersFrom, identifiers, identifiersFrom, if_pos rfl, List.append_nil]
  | cons b rest =>
      have hb : isIdentChar b = false := by simpa using hrest
      rw [identifiers, identifiersFrom, identifiersFrom, hb]
      split
      · rw [if_pos rfl, List.append_nil]
      · rw [if_neg Bool.false_ne_true, if_neg Bool.false_ne_true, if_pos rfl, List.nil_append]

theorem identifiers_cons {text : List Byte} (h : text.takeWhile isIdentChar ≠ []) :
    identifiers text = text.takeWhile isIdentChar ::
      identifiers (text.drop (text.takeWhile isIdentChar).length) := by
  obtain ⟨name, hname⟩ : ∃ name, text.takeWhile isIdentChar = name := ⟨_, rfl⟩
  have hident : ∀ b ∈ name, isIdentChar b = true := by
    rw [← hname]
    exact fun b hb => List.mem_takeWhile_imp hb
  have hsplit : text = name ++ text.dropWhile isIdentChar := by
    rw [← hname]
    exact List.takeWhile_append_dropWhile.symm
  have hdrop : text.drop name.length = text.dropWhile isIdentChar := by
    have h := @List.drop_left _ name (text.dropWhile isIdentChar)
    rwa [← hsplit] at h
  have hstop : (text.dropWhile isIdentChar).head?.all (fun b => !isIdentChar b) = true := by
    have hnot := List.head?_dropWhile_not isIdentChar text
    cases hhead : (text.dropWhile isIdentChar).head? with
    | none => rfl
    | some b =>
        rw [hhead] at hnot
        simpa using hnot
  have hcomment : ∀ b ∈ name, b ≠ 0x3B#8 ∧ b ≠ 0x2F#8 := fun b hb =>
    ⟨(identChar_facts b (hident b hb)).1, (identChar_facts b (hident b hb)).2.1⟩
  have hall : identifiers (name ++ text.dropWhile isIdentChar) =
      name :: identifiers (text.dropWhile isIdentChar) := by
    rw [hname] at h
    rw [identifiers, identifiersFrom_run hident hcomment, List.nil_append,
      identifiersFrom_stop hstop, if_neg h, List.singleton_append]
  rw [hname, hdrop, ← hall, ← hsplit]

theorem identifiers_skip {b : Byte} {text : List Byte} (hsemi : b ≠ 0x3B#8) (hslash : b ≠ 0x2F#8)
    (hident : isIdentChar b = false) : identifiers (b :: text) = identifiers text := by
  rw [identifiers, identifiersFrom, if_neg (by simp [hsemi, hslash]), hident,
    if_neg Bool.false_ne_true, if_pos rfl, List.nil_append]
  rfl

theorem identifiers_skipSpaces (text : List Byte) : identifiers (skipSpaces text) = identifiers text := by
  induction text with
  | nil => rfl
  | cons b text ih =>
      cases hb : CString.isSpace b with
      | false => rw [skipSpaces, List.dropWhile_cons_of_neg (by simp [hb])]
      | true =>
          obtain ⟨hsemi, hslash, hident⟩ := space_facts b hb
          rw [skipSpaces, List.dropWhile_cons_of_pos hb, identifiers_skip hsemi hslash hident]
          exact ih

theorem identifiers_skipComma (text : List Byte) : identifiers (skipComma text) = identifiers text := by
  cases text with
  | nil => rfl
  | cons b text =>
      by_cases hcomma : b = 0x2C#8
      · have hskip : skipComma (b :: text) = skipSpaces text := by rw [hcomma, skipComma]
        rw [hskip, identifiers_skipSpaces, hcomma,
          identifiers_skip (by decide) (by decide) (by decide)]
      · have hskip : skipComma (b :: text) = b :: text := by
          rw [skipComma]
          intro rest heq
          exact hcomma (List.cons.inj heq).1
        rw [hskip]

theorem identifiers_ends {text : List Byte} (h : endsList text = true) : identifiers text = [] := by
  cases text with
  | nil => rfl
  | cons b text =>
      have hb : b = 0x3B#8 ∨ b = 0x2F#8 := by simpa [endsList] using h
      rw [identifiers, identifiersFrom, if_pos (by simpa using hb), if_pos rfl]

theorem macroParams_text {rounds : Nat} {text : List Byte} {params out : List Label}
    (h : macroParams rounds text params = .returns out)
    (hcount : params.length + (identifiers text).length ≤ maxMacroParams)
    (hnames : ∀ name ∈ identifiers text, name.length < maxLabelLength) :
    out.map (·.bytes) = params.map (·.bytes) ++ identifiers text := by
  induction rounds generalizing text params with
  | zero => cases h
  | succ rounds ih =>
      rw [macroParams] at h
      split at h
      · next hdone =>
          cases h
          have hnone : identifiers text = [] := by
            simp only [Bool.or_eq_true, decide_eq_true_eq] at hdone
            rcases hdone with hends | hfull
            · exact identifiers_ends hends
            · apply List.length_eq_zero_iff.mp
              omega
          rw [hnone, List.append_nil]
      · rw [← identifiers_skipComma text] at hcount hnames ⊢
        generalize skipComma text = text at h hcount hnames ⊢
        dsimp only at h
        by_cases hname : text.takeWhile isIdentChar = []
        · rw [hname, List.take_nil, if_pos rfl, List.length_nil, List.drop_zero] at h
          have hrest := ih h
          rw [identifiers_skipComma, identifiers_skipSpaces] at hrest
          exact hrest hcount hnames
        · rw [identifiers_cons hname] at hcount hnames ⊢
          obtain ⟨hlen, hnames⟩ := List.forall_mem_cons.mp hnames
          have htake : (text.takeWhile isIdentChar).take (maxLabelLength - 1) =
              text.takeWhile isIdentChar := by
            apply List.take_of_length_le
            omega
          rw [htake, if_neg hname] at h
          have hrest := ih h
          rw [identifiers_skipComma, identifiers_skipSpaces, List.length_append,
            List.length_singleton] at hrest
          rw [List.length_cons] at hcount
          have hbytes : (CString.copyBounded maxLabelLength (text.takeWhile isIdentChar)).bytes =
              text.takeWhile isIdentChar := by
            apply CString.copyBounded_bytes_of_fits hlen
            intro hzero
            exact (identChar_facts 0 (List.mem_takeWhile_imp hzero)).2.2 rfl
          rw [hrest (by omega) hnames, List.map_append, List.map_singleton, hbytes,
            List.append_assoc, List.singleton_append]

/-- The entry that a definition is to have in the macro table. -/
structure Macro.Holds (m : Macro) (d : MacroText) : Prop where
  name : m.name.bytes = d.name
  params : m.params.map (·.bytes) = d.params
  body : m.body.map (·.bytes) = d.body

/-- The first pass reads an active line that starts a macro definition. -/
structure PassOne.AtMacro (s : PassOne) : Prop where
  active : s.cond.active = true
  plain : conditionalLine s.defines s.macros (readLine s.rest).1 s.cond = .returns none
  noDefine : parseDefineDirective (readLine s.rest).1 = some none
  head : (macroHead (readLine s.rest).1).isSome = true

theorem macroTextAt_some {text : List Byte} {d : MacroText} (h : macroTextAt text = some d) :
    (textLine text).1 = d.head ∧ macroHead d.head = some (d.name, d.params) ∧
      linesToEndm (textLine text).2.2.length (textLine text).2.2 = some (d.body, d.last, d.after) := by
  simp only [macroTextAt, Option.bind_eq_bind, Option.bind_eq_some_iff] at h
  obtain ⟨⟨name, params⟩, hhead, ⟨body, last, after⟩, hlines, h⟩ := h
  cases h
  exact ⟨rfl, hhead, hlines⟩

theorem macroHead_some {line name : List Byte} {params : List (List Byte)}
    (h : macroHead line = some (name, params)) : ∃ text, afterDotWord (str "macro") line = some text ∧
      text.takeWhile isMacroNameChar = name ∧ name ≠ [] ∧
        identifiers (text.drop name.length) = params := by
  rw [macroHead] at h
  cases hafter : afterDotWord (str "macro") line with
  | none =>
      rw [hafter] at h
      cases h
  | some text =>
      rw [hafter] at h
      dsimp only at h
      split at h
      · cases h
      · next hne =>
          cases h
          exact ⟨text, rfl, rfl, hne, rfl⟩

theorem nameChar_ne_zero : ∀ b : Byte, isMacroNameChar b = true → b ≠ 0 := by
  decide +kernel

theorem parseMacroDirective_head {line name : List Byte} {params : List (List Byte)}
    (h : macroHead line = some (name, params)) (hname : ∀ n ∈ name :: params, n.length < maxLabelLength)
    (hparams : params.length ≤ maxMacroParams) {found : Option (Label × List Label)}
    (hfound : parseMacroDirective line = .returns found) :
    ∃ label ps, found = some (label, ps) ∧ label.bytes = name ∧ ps.map (·.bytes) = params := by
  obtain ⟨text, hafter, htake, hne, hidents⟩ := macroHead_some h
  obtain ⟨hlen, hnames⟩ := List.forall_mem_cons.mp hname
  have hshort : (text.takeWhile isMacroNameChar).take (maxLabelLength - 1) = name := by
    rw [htake]
    apply List.take_of_length_le
    omega
  rw [parseMacroDirective, hafter] at hfound
  dsimp only at hfound
  rw [hshort, if_neg hne] at hfound
  obtain ⟨ps, hps, heq⟩ := Outcome.bind_eq_returns.mp hfound
  cases heq
  refine ⟨_, ps, rfl, ?_, ?_⟩
  · apply CString.copyBounded_bytes_of_fits hlen
    rw [← htake]
    intro hzero
    exact nameChar_ne_zero 0 (List.mem_takeWhile_imp hzero) rfl
  · have hwritten := macroParams_text hps
    rw [identifiers_skipSpaces, hidents, List.length_nil, Nat.zero_add, List.map_nil,
      List.nil_append] at hwritten
    exact hwritten hparams hnames

theorem mem_of_linesToEndm {n : Nat} {text : List Byte} {body : List (List Byte)}
    {last after : List Byte} (h : linesToEndm n text = some (body, last, after)) {line : List Byte}
    (hline : line ∈ body) {b : Byte} (hb : b ∈ line) : b ∈ text := by
  induction n generalizing text body with
  | zero => cases h
  | succ n ih =>
      by_cases hne : text = []
      · rw [linesToEndm, if_pos hne] at h
        cases h
      · rw [linesToEndm_of_ne hne] at h
        split at h
        · cases h
          cases hline
        · obtain ⟨⟨body', last', after'⟩, hrest, heq⟩ := Option.map_eq_some_iff.mp h
          cases heq
          rcases List.mem_cons.mp hline with rfl | hline
          · exact mem_of_mem_line hb
          · exact mem_of_mem_rest (ih hrest hline)

theorem macroDefine_some {macros : List Macro} {name : Label} {m : Macro}
    (h : macroDefine macros name = some m) : m = { name } := by
  rw [macroDefine] at h
  split at h
  · cases h
  · split at h
    · cases h
    · exact (Option.some.inj h).symm

/-- The step of the first pass on a definition that fits puts it into the table as it is
written, and goes on behind its `.endm` line. -/
theorem PassOne.AtMacro.step {s t : PassOne} (hat : s.AtMacro) (h0 : 0 ∉ s.rest) {d : MacroText}
    (hd : macroTextAt s.rest = some d) (hfits : d.Fits) (h : passOneStep s = .returns t) :
    t.rest = d.after ∧ ∃ m : Macro, t.macros = s.macros ++ [m] ∧ m.Holds d := by
  obtain ⟨hhead, hmacro, hlines⟩ := macroTextAt_some hd
  have hshort := hfits.head
  rw [← hhead] at hshort
  have hread := readLine_eq_textLine hshort
  rcases passOneStep_cases h with ⟨cond, hcond, -⟩ | ⟨-, ⟨hoff, -⟩ | ⟨-, hcollect⟩⟩
  · cases hat.plain.symm.trans hcond
  · cases hat.active.symm.trans hoff
  · rw [collectLine, hat.noDefine] at hcollect
    obtain ⟨found, hfound, hcollect⟩ := Outcome.bind_eq_returns.mp hcollect
    rw [hread, hhead] at hfound
    obtain ⟨label, ps, rfl, hlabel, hps⟩ :=
      parseMacroDirective_head hmacro hfits.names hfits.params hfound
    obtain ⟨m, hm, hcollect⟩ := Outcome.bind_eq_returns.mp hcollect
    have hm := Outcome.ofOption_eq_returns.mp hm
    rw [hread, macroBody_text hlines hfits.lines hfits.last] at hcollect
    cases hcollect
    refine ⟨rfl, _, rfl, ?_⟩
    have hcount : ps.length = d.params.length := by rw [← hps, List.length_map]
    have hparams := hfits.params
    have hbody := hfits.body
    rw [macroDefine_some hm, addParams (by simp [hcount, hparams]), addBodyLines (by simpa using hbody)]
    constructor
    · exact hlabel
    · rw [List.nil_append]
      exact hps
    · have hmap : (d.body.map (CString.copyBounded maxLineLength)).map (·.bytes) = d.body := by
        rw [List.map_map]
        conv_rhs => rw [← List.map_id d.body]
        apply List.map_congr_left
        intro line hline
        apply CString.copyBounded_bytes_of_fits (Nat.lt_of_succ_lt (hfits.lines line hline))
        intro hzero
        exact h0 (mem_of_mem_rest (mem_of_linesToEndm hlines hline hzero))
      exact hmap

theorem mem_of_readLine {text : List Byte} {b : Byte} :
    (b ∈ (readLine text).2.1 → b ∈ text) ∧ (b ∈ (readLine text).2.2 → b ∈ text) := by
  constructor
  · intro hb
    rw [readLine_split text]
    exact List.mem_append_left _ hb
  · intro hb
    rw [readLine_split text]
    exact List.mem_append_right _ hb

theorem expandIncludes_no_nul {env : IncludeEnv} {levels : Nat} {baseDir : Path}
    {text out : List Byte} {tracker t : List Path} (h0 : 0 ∉ text)
    (h : expandIncludes env levels baseDir text tracker = (some out, t)) : 0 ∉ out := by
  induction levels generalizing baseDir text out tracker t with
  | zero => cases h
  | succ levels ihlevels =>
      induction text using lineInduction generalizing out tracker t with
      | nil =>
          cases h
          exact List.not_mem_nil
      | line text hne ih =>
          rw [expandIncludes_of_ne env levels baseDir hne] at h
          obtain ⟨line, t₁, hline, h⟩ := Fallible.bind_eq_some.mp h
          obtain ⟨more, t₂, hmore, h⟩ := Fallible.bind_eq_some.mp h
          obtain ⟨rfl, -⟩ := Fallible.pure_eq_some.mp h
          have hrest := ih (fun hzero => h0 (mem_of_readLine.2 hzero)) hmore
          rw [List.mem_append, not_or]
          refine ⟨?_, hrest⟩
          rcases includeLine_some hline with ⟨-, rfl⟩ | ⟨name, path, content, opened, t', hname, hopen, hchild⟩
          · exact fun hzero => h0 (mem_of_readLine.1 hzero)
          · have hfile := openInclude_some (parseIncludeFilename_length hname) hopen
            obtain ⟨found, -, hread⟩ :=
              Option.map_eq_some_iff.mp (readFileContents_of_included hfile)
            apply ihlevels _ hchild
            rw [← hread]
            exact CString.zero_notMem_untilNul _

theorem mem_of_macroBody {n : Nat} {text : List Byte} {b : Byte} (h : b ∈ (macroBody n text).2.2) :
    b ∈ text := by
  induction n generalizing text with
  | zero => exact h
  | succ n ih =>
      rw [macroBody] at h
      split at h
      · cases h
      · dsimp only at h
        split at h
        · exact mem_of_readLine.2 h
        · exact mem_of_readLine.2 (ih h)

theorem passOneStep_mem {s t : PassOne} (h : passOneStep s = .returns t) {b : Byte} (hb : b ∈ t.rest) :
    b ∈ s.rest := by
  rcases passOneStep_cases h with ⟨cond, -, rfl⟩ | ⟨-, ⟨-, rfl⟩ | ⟨-, h⟩⟩
  · exact mem_of_readLine.2 hb
  · exact mem_of_readLine.2 hb
  · rcases collectLine_cases h with ⟨_, _, _, -, -, rfl⟩ | ⟨-, -, rfl⟩ | ⟨-, _, _, -, -, rfl⟩
    · exact mem_of_readLine.2 hb
    · exact mem_of_readLine.2 hb
    · exact mem_of_readLine.2 (mem_of_macroBody hb)

namespace PreprocessRun

variable {env : PreprocessEnv} {tracker : List Path} {source out : List Byte}
  (run : PreprocessRun env tracker source out)

def DefinitionsFit : Prop :=
  ∀ s ∈ run.linesOne, s.AtMacro → ∃ d, macroTextAt s.rest = some d ∧ d.Fits

/-- The definitions are kept as they are written, and none is there that is too large. -/
structure DefinitionsKept : Prop where
  /-- Every definition that is reached ends and is an entry of the macro table, and the pass goes
  on behind it. -/
  whole : ∀ s ∈ run.linesOne, s.AtMacro → ∃ d t m, macroTextAt s.rest = some d ∧
    passOneStep s = .returns t ∧ t.rest = d.after ∧ Macro.Holds m d ∧
      s.macros ++ [m] <+: run.one.macros
  /-- Reading the definition stays within the line buffer. -/
  buffered : ∀ s ∈ run.linesOne, s.AtMacro →
    ∀ raw ∈ macroBodyBuffers (readLine s.rest).2.2.length (readLine s.rest).2.2,
      raw.length < maxLineLength
  /-- A definition that does not fit has no text returned. -/
  rejected : ∀ s ∈ run.linesOne, s.AtMacro → ∀ d, macroTextAt s.rest = some d → d.Fits

theorem text_no_nul (h0 : 0 ∉ source) : 0 ∉ run.text :=
  expandIncludes_no_nul h0 (Prod.ext run.expanded (Eq.refl (expandIncludes env.toIncludeEnv
    (maxIncludeDepth + 1) (dirnameFromPath env.currentFilename) source tracker).2))

theorem rest_no_nul (h0 : 0 ∉ source) {s : PassOne} (hs : s ∈ run.linesOne) : 0 ∉ s.rest := by
  refine (Loop.run_invariant (fun s : PassOne => 0 ∉ s.rest) ?_ (run.text_no_nul h0) run.first).1 s hs
  intro s t hs _ h hzero
  exact hs (passOneStep_mem h hzero)

theorem definitionsKept_run (h0 : 0 ∉ source) : run.DefinitionsKept ↔ run.DefinitionsFit := by
  constructor
  · intro h s hs hat
    obtain ⟨d, -, -, hd, -⟩ := h.whole s hs hat
    exact ⟨d, hd, h.rejected s hs hat d hd⟩
  · intro h
    constructor
    · intro s hs hat
      obtain ⟨d, hd, hfits⟩ := h s hs hat
      obtain ⟨n, t, ht, hrest, -⟩ := Loop.visited_next run.first hs
      obtain ⟨hafter, m, hm, hholds⟩ := hat.step (run.rest_no_nul h0 hs) hd hfits ht
      refine ⟨d, t, m, hd, ht, hafter, hholds, ?_⟩
      rw [← hm]
      exact (passOne_grow hrest).1
    · intro s hs hat
      obtain ⟨d, hd, hfits⟩ := h s hs hat
      obtain ⟨hhead, -, hlines⟩ := macroTextAt_some hd
      have hshort := hfits.head
      rw [← hhead] at hshort
      rw [readLine_eq_textLine hshort]
      exact macroBodyBuffers_lt hlines hfits.lines hfits.last
    · intro s hs hat d hd
      obtain ⟨d', hd', hfits⟩ := h s hs hat
      cases hd.symm.trans hd'
      exact hfits

end PreprocessRun

/-- The macro definitions of a source that is preprocessed are kept whole exactly when all of
them end and fit. -/
theorem definitionsKept_iff {env : PreprocessEnv} {tracker : List Path} {source out : List Byte}
    (h0 : 0 ∉ source) (h : preprocessMacros env tracker source = .returns out) :
    Nonempty (PreprocessRun env tracker source out) ∧
      ∀ run : PreprocessRun env tracker source out, run.DefinitionsKept ↔ run.DefinitionsFit :=
  ⟨preprocessRun_of_success h, fun run => run.definitionsKept_run h0⟩

def addMacro : List Byte := str ".macro plus a, b\nadd \\a, \\b\n.endm\nplus rax, 1\n"

theorem definitionsKept_iff_addMacro :
    Nonempty (PreprocessRun memoryEnv [] addMacro (str "add rax, 1\n")) ∧
      ∀ run : PreprocessRun memoryEnv [] addMacro (str "add rax, 1\n"),
        run.DefinitionsKept ↔ run.DefinitionsFit :=
  definitionsKept_iff (by decide) (by decide +kernel)

def endlessMacro : List Byte := str ".macro stop\nhlt\nmain: ret\n"

/-- The rest of the file is lost. -/
theorem endlessMacro_swallows : preprocessMacros memoryEnv [] endlessMacro = .returns [] ∧
    ∀ run : PreprocessRun memoryEnv [] endlessMacro [], ¬ run.DefinitionsKept := by
  refine ⟨by decide +kernel, ?_⟩
  intro run hkept
  have htext : run.text = endlessMacro := by
    have hexpanded := run.expanded
    rw [show (expandIncludes memoryEnv.toIncludeEnv (maxIncludeDepth + 1)
      (dirnameFromPath memoryEnv.currentFilename) endlessMacro []).1 = some endlessMacro from by
        decide +kernel] at hexpanded
    exact (Option.some.inj hexpanded).symm
  have hseeds : run.seeds = [] := (Option.some.inj run.seeded).symm
  have hfirst : { rest := endlessMacro, defines := [] } ∈ run.linesOne := by
    have hends := run.one_ends.1
    have hrun := run.first
    rw [PreprocessRun.linesOne, htext, hseeds]
    rw [htext, hseeds] at hrun
    obtain ⟨l, hl⟩ := @Loop.visited_first PassOne (fun s => s.rest = []) passOneStep _ _ _
      (decide_eq_false (by decide)) (decide_eq_true hends) hrun
    rw [hl]
    exact List.mem_cons_self
  have hat : PassOne.AtMacro { rest := endlessMacro, defines := [] } :=
    ⟨rfl, by decide, by decide, by decide⟩
  obtain ⟨d, -, -, hd, -⟩ := hkept.whole _ hfirst hat
  have hnone : macroTextAt endlessMacro = none := by decide
  cases hnone.symm.trans hd

end X86Assembler
