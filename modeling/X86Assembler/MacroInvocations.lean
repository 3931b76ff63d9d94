import X86Assembler.MacroArguments
import X86Assembler.PlainText

namespace X86Assembler

open CString (Byte str isSpace isAlpha)

structure IsIdentifier (name : List Byte) : Prop where
  first : name.head?.any isIdentifierStart = true
  rest : name.all isIdentifierChar = true

/-- A label in front of a colon, with the white space around it. -/
def LabelText (text : List Byte) : Prop :=
  ∃ indent name gap, text = indent ++ (name ++ gap) ∧ Blank indent ∧ IsIdentifier name ∧ Blank gap

structure WrittenLabel where
  name : List Byte
  before : List Byte := []
  after : List Byte := []
deriving DecidableEq

structure WrittenLabel.WellFormed (l : WrittenLabel) : Prop where
  name : IsIdentifier l.name
  before : Blank l.before
  after : Blank l.after

structure MacroLine where
  indent : List Byte := []
  label : Option WrittenLabel := none
  name : List Byte
  space : List Byte := []
  args : List WrittenArg := []
deriving DecidableEq

def MacroLine.call (w : MacroLine) : List Byte := w.name ++ (w.space ++ argsText w.args)

def MacroLine.text (w : MacroLine) : List Byte :=
  match w.label with
  | none => w.indent ++ w.call
  | some l => w.indent ++ (l.name ++ l.before) ++ 0x3A#8 :: (l.after ++ w.call)

structure MacroLine.WellFormed (w : MacroLine) : Prop where
  indent : Blank w.indent
  label : ∀ l ∈ w.label, l.WellFormed
  name : w.name ≠ [] ∧ w.name.all isMacroNameChar = true
  space : Blank w.space
  spaced : w.args ≠ [] → w.space ≠ []
  args : ∀ a ∈ w.args, a.WellFormed
  given : w.args.map (·.text) ≠ [[]]

/-- What `parse_macro_invocation` makes of the text behind a label. -/
def invocationAt (macros : List Macro) (text : List Byte) :
    Outcome (Option (List Byte × List Text)) :=
  if text.head?.any (fun b => isAlpha b || b == 0x5F#8) then
    let name := (text.takeWhile isMacroNameChar).take (maxLabelLength - 1)
    if isMacroName macros name then
      let rest := skipSpaces (text.drop name.length)
      (macroArgs (rest.length + 1) rest []).bind fun args => .returns (some (name, args))
    else .returns none
  else .returns none

theorem parseMacroInvocation_eq (macros : List Macro) (line : List Byte) :
    parseMacroInvocation macros line = invocationAt macros (afterLabel (skipSpaces line)) := rfl

structure NamesMacro (macros : List Macro) (text : List Byte) : Prop where
  letter : text.head?.any (fun b => isAlpha b || b == 0x5F#8) = true
  defined : isMacroName macros ((text.takeWhile isMacroNameChar).take (maxLabelLength - 1)) = true

theorem invocationAt_iff {macros : List Macro} {text : List Byte} :
    (∃ call, invocationAt macros text = .returns (some call)) ↔ NamesMacro macros text := by
  constructor
  · rintro ⟨call, h⟩
    rw [invocationAt] at h
    split at h
    · next hletter =>
        dsimp only at h
        split at h
        · next hdefined => exact ⟨hletter, hdefined⟩
        · cases h
    · cases h
  · rintro ⟨hletter, hdefined⟩
    rw [invocationAt, if_pos hletter]
    dsimp only
    rw [if_pos hdefined]
    generalize skipSpaces _ = rest
    cases hargs : macroArgs (rest.length + 1) rest [] with
    | returns args => exact ⟨_, rfl⟩
    | null => exact absurd hargs (macroArgs_ne_null _ _ _)
    | diverges => exact absurd hargs (macroArgs_ends (Nat.lt_succ_self _))

theorem skipSpaces_colon (front rest : List Byte) :
    skipSpaces (front ++ 0x3A#8 :: rest) = skipSpaces front ++ 0x3A#8 :: rest := by
  have hcolon : skipSpaces (0x3A#8 :: rest) = 0x3A#8 :: rest := rfl
  rw [skipSpaces, List.dropWhile_append]
  split
  · next hempty =>
      rw [skipSpaces, List.isEmpty_iff.mp hempty]
      exact hcolon
  · rfl

theorem afterLabel_colon {front : List Byte} (hfront : 0x3A#8 ∉ front) (rest : List Byte) :
    afterLabel (skipSpaces (front ++ 0x3A#8 :: rest)) = skipSpaces rest := by
  have hnot : ∀ b ∈ skipSpaces front, (b != 0x3A#8) = true := by
    intro b hb
    rw [bne_iff_ne]
    rintro rfl
    exact hfront ((List.dropWhile_sublist _).subset hb)
  rw [skipSpaces_colon, afterLabel, if_pos (List.mem_append_right _ List.mem_cons_self),
    List.dropWhile_append_of_pos hnot]
  rfl

theorem afterLabel_none {text : List Byte} (h : 0x3A#8 ∉ text) : afterLabel text = text := if_neg h

theorem nameChar_facts : ∀ b : Byte, isMacroNameChar b = true → isSpace b = false ∧ b ≠ 0x3A#8 := by
  decide +kernel

theorem spaceChar_facts : ∀ b : Byte, isSpace b = true →
    isMacroNameChar b = false ∧ b ≠ 0x3A#8 ∧ b ≠ 0 := by
  decide +kernel

theorem isMacroName_length {macros : List Macro} {name : List Byte}
    (h : isMacroName macros name = true) : name.length < maxLabelLength := by
  obtain ⟨m, hm⟩ := Option.isSome_iff_exists.mp h
  have hsame := List.find?_some hm
  rw [CString.eqIgnoreCase, beq_iff_eq] at hsame
  have hlen := congrArg List.length hsame
  rw [List.length_map, List.length_map] at hlen
  rw [← hlen]
  exact m.name.length_lt

section Written

variable {w : MacroLine} (hw : w.WellFormed)
include hw

theorem MacroLine.WellFormed.call_name : w.call.takeWhile isMacroNameChar = w.name := by
  have hname : ∀ b ∈ w.name, isMacroNameChar b = true := List.all_eq_true.mp hw.name.2
  rw [MacroLine.call, List.takeWhile_append_of_pos hname]
  have hstop : (w.space ++ argsText w.args).takeWhile isMacroNameChar = [] := by
    cases hspace : w.space with
    | nil =>
        have hargs : w.args = [] := by
          by_contra hargs
          exact hw.spaced hargs hspace
        rw [hargs]
        rfl
    | cons c gap =>
        have hc := hw.space c (hspace ▸ List.mem_cons_self)
        rw [List.cons_append, List.takeWhile_cons_of_neg]
        rw [(spaceChar_facts c hc).1]
        decide
  rw [hstop, List.append_nil]

theorem MacroLine.WellFormed.call_head {b : Byte} (hb : b ∈ w.call.head?) :
    isMacroNameChar b = true := by
  obtain ⟨c, cs, hname⟩ := List.exists_cons_of_ne_nil hw.name.1
  rw [MacroLine.call, hname] at hb
  obtain rfl := Option.some.inj hb
  exact List.all_eq_true.mp hw.name.2 c (hname ▸ List.mem_cons_self)

theorem MacroLine.WellFormed.skipSpaces_call : skipSpaces w.call = w.call :=
  skipSpaces_of_head fun b hb => (nameChar_facts b (hw.call_head hb)).1

theorem MacroLine.WellFormed.invocationAt_call {macros : List Macro}
    (hm : isMacroName macros w.name = true) : invocationAt macros w.call =
      if w.name.head?.any (fun b => isAlpha b || b == 0x5F#8) then
        (macroArgs ((skipSpaces (argsText w.args)).length + 1) (skipSpaces (argsText w.args)) []).bind
          fun args => .returns (some (w.name, args))
      else .returns none := by
  have hhead : w.call.head? = w.name.head? := by
    rw [MacroLine.call, List.head?_append_of_ne_nil _ hw.name.1]
  have hname : (w.call.takeWhile isMacroNameChar).take (maxLabelLength - 1) = w.name := by
    rw [hw.call_name]
    exact List.take_of_length_le (Nat.le_sub_one_of_lt (isMacroName_length hm))
  rw [invocationAt, hhead, hname, if_pos hm]
  rw [MacroLine.call, List.drop_left, hw.space.skipSpaces]

theorem MacroLine.WellFormed.invocationAt_iff {macros : List Macro}
    (hm : isMacroName macros w.name = true) :
    (∃ args : List Text, args.map (·.bytes) = w.args.map (·.text) ∧
        invocationAt macros w.call = .returns (some (w.name, args))) ↔
      w.name.head?.any (fun b => isAlpha b || b == 0x5F#8) = true ∧
        w.args.length ≤ maxMacroParams ∧ (∀ a ∈ w.args, ReadWhole a.text) ∧
          ∀ a ∈ w.args.dropLast, a.Closed := by
  have hargs := @macroArgs_written w.args hw.args _ (Nat.lt_succ_self _) [] (Nat.zero_le _)
  rw [List.length_nil, Nat.zero_add] at hargs
  rw [← hargs, hw.invocationAt_call hm]
  constructor
  · rintro ⟨args, hbytes, hreturns⟩
    split at hreturns
    · next hletter =>
        obtain ⟨out, hout, heq⟩ := Outcome.bind_eq_returns.mp hreturns
        cases heq
        exact ⟨hletter, args, hbytes, hout⟩
    · cases hreturns
  · rintro ⟨hletter, args, hbytes, hreturns⟩
    rw [if_pos hletter, hreturns]
    exact ⟨args, hbytes, rfl⟩

theorem MacroLine.WellFormed.count_text (hl : w.label = none) {c : Byte}
    (hspace : isSpace c = false) (hcomma : c ≠ 0x2C#8) (hname : isMacroNameChar c = false) :
    w.text.count c = (w.args.map (·.text)).flatten.count c := by
  have hnot : c ∉ w.name := by
    intro hmem
    rw [List.all_eq_true.mp hw.name.2 c hmem] at hname
    cases hname
  rw [MacroLine.text, hl, MacroLine.call]
  simp only [List.count_append, hw.indent.count hspace, hw.space.count hspace,
    List.count_eq_zero_of_not_mem hnot, argsText_count hw.args hspace hcomma, Nat.zero_add]

theorem MacroLine.WellFormed.text_noNul (hl : w.label = none) : 0x00#8 ∉ w.text := by
  rw [← List.count_eq_zero, hw.count_text hl rfl (by decide) rfl, List.count_eq_zero]
  simp only [List.mem_flatten, List.mem_map, not_exists, not_and]
  rintro _ ⟨a, ha, rfl⟩
  exact (hw.args a ha).noNul

theorem MacroLine.WellFormed.parse_noColon (hl : w.label = none)
    (hcolon : ∀ a ∈ w.args, 0x3A#8 ∉ a.text) (macros : List Macro) :
    parseMacroInvocation macros w.text = invocationAt macros w.call := by
  have hskip : skipSpaces w.text = w.call := by
    rw [MacroLine.text, hl, hw.indent.skipSpaces, hw.skipSpaces_call]
  have hnone : 0x3A#8 ∉ w.text := by
    rw [← List.count_eq_zero, hw.count_text hl rfl (by decide) rfl, List.count_eq_zero]
    simp only [List.mem_flatten, List.mem_map, not_exists, not_and]
    rintro _ ⟨a, ha, rfl⟩
    exact hcolon a ha
  rw [parseMacroInvocation_eq, afterLabel_none, hskip]
  exact fun hmem => hnone ((List.dropWhile_sublist _).subset hmem)

omit hw in
theorem invocationAt_sublist {macros : List Macro} {text name : List Byte} {args : List Text}
    (hnul : 0x00#8 ∉ text) (h : invocationAt macros text = .returns (some (name, args))) :
    (args.map (·.bytes)).flatten.Sublist text := by
  rw [invocationAt] at h
  split at h
  · dsimp only at h
    split at h
    · obtain ⟨out, hout, heq⟩ := Outcome.bind_eq_returns.mp h
      cases heq
      have hsuffix : skipSpaces (text.drop
          ((text.takeWhile isMacroNameChar).take (maxLabelLength - 1)).length) <:+ text :=
        (List.dropWhile_suffix _).trans (List.drop_suffix _ _)
      obtain ⟨new, rfl, hsub, -⟩ := macroArgs_new (fun hmem => hnul (hsuffix.subset hmem)) hout
      exact hsub.trans hsuffix.sublist
    · cases h
  · cases h

/-- With a colon in an argument, the arguments are looked for behind it, and cannot all be
found. -/
theorem MacroLine.WellFormed.parse_colon (hl : w.label = none) {a : WrittenArg} (ha : a ∈ w.args)
    (hcolon : 0x3A#8 ∈ a.text) {macros : List Macro} {name : List Byte} {args : List Text}
    (hparse : parseMacroInvocation macros w.text = .returns (some (name, args))) :
    args.map (·.bytes) ≠ w.args.map (·.text) := by
  intro hbytes
  have hcount := hw.count_text hl (c := 0x3A#8) rfl (by decide) rfl
  have hmem : 0x3A#8 ∈ w.text := by
    rw [← List.count_pos_iff, hcount, List.count_pos_iff, List.mem_flatten]
    exact ⟨a.text, List.mem_map_of_mem ha, hcolon⟩
  obtain ⟨front, rest, htext, hfront⟩ := List.eq_append_cons_of_mem hmem
  have hnul := hw.text_noNul hl
  rw [htext] at hnul hcount hparse
  rw [parseMacroInvocation_eq, afterLabel_colon hfront] at hparse
  have hrest : (skipSpaces rest).Sublist rest := List.dropWhile_sublist _
  have hsub := invocationAt_sublist (fun hzero => hnul
    (List.mem_append_right _ (List.mem_cons_of_mem _ (hrest.subset hzero)))) hparse
  have hle := (hsub.trans hrest).count_le 0x3A#8
  rw [hbytes, ← hcount, List.count_append, List.count_cons_self] at hle
  omega

end Written

/-- What the second pass makes of a macro with its arguments. -/
def expansionText (macros : List Macro) (s : PassTwo) (name : List Byte) (args : List Text) :
    Outcome (List Byte × MacroContext) :=
  (Outcome.ofOption (expandMacro macros s.macroCtx name args)).bind fun (text, ctx) =>
    (Outcome.ofOption (substituteDefines s.defines (maxLineLength * 8) text)).bind fun text =>
      .returns (text, ctx)

/-- A line that no directive takes; the substitution of defines is before the last test. -/
structure NoDirective (raw line : List Byte) : Prop where
  noPercent : NoPercent raw
  noMacro : parseMacroDirective raw = .returns none
  noTimes : parseTimesDirective line = none

/-- The invocation of a macro is next, after the substitution of defines. -/
structure InvocationNext (macros : List Macro) (s : PassTwo) (w : MacroLine) : Prop where
  active : s.cond.active = true
  line : substituteDefines s.defines (maxLineLength * 4) (readLine s.rest).1 = some w.text
  wellFormed : w.WellFormed
  defined : isMacroName macros w.name = true

def MacroLine.labelOut (w : MacroLine) (gap : List Byte) : List Byte :=
  match w.label with
  | none => []
  | some l => l.name ++ 0x3A#8 :: gap

/-- The line is taken for the invocation that it is, and comes out as its label and the
expansion of the macro with just the arguments that are written. -/
structure KeepsInvocation (macros : List Macro) (s : PassTwo) (w : MacroLine) : Prop where
  noDirective : NoDirective (readLine s.rest).1 w.text
  kept : ∃ (args : List Text) (text : List Byte) (ctx : MacroContext) (gap : List Byte),
    args.map (·.bytes) = w.args.map (·.text) ∧
      parseMacroInvocation macros w.text = .returns (some (w.name, args)) ∧
      expansionText macros s w.name args = .returns (text, ctx) ∧ Blank gap ∧
      passTwoStep macros s = .returns { s with
        rest := (readLine s.rest).2.2
        macroCtx := ctx
        out := s.out ++ (w.labelOut gap ++ text) }

structure MacroLine.ReadAsWritten (w : MacroLine) : Prop where
  noLabel : w.label = none
  letter : w.name.head?.any (fun b => isAlpha b || b == 0x5F#8) = true
  noColon : ∀ a ∈ w.args, 0x3A#8 ∉ a.text
  few : w.args.length ≤ maxMacroParams
  whole : ∀ a ∈ w.args, ReadWhole a.text
  closed : ∀ a ∈ w.args.dropLast, a.Closed

/-- The expansion with the arguments that are written has room in the buffers. -/
def ExpansionFits (macros : List Macro) (s : PassTwo) (w : MacroLine) : Prop :=
  ∃ args : List Text, args.map (·.bytes) = w.args.map (·.text) ∧
    expansionText macros s w.name args ≠ .null

theorem passTwoStep_invocation {macros : List Macro} {s : PassTwo} {line name : List Byte}
    {args : List Text} (hactive : s.cond.active = true)
    (hline : substituteDefines s.defines (maxLineLength * 4) (readLine s.rest).1 = some line)
    (hdirective : NoDirective (readLine s.rest).1 line)
    (hparse : parseMacroInvocation macros line = .returns (some (name, args))) :
    passTwoStep macros s = (expansionText macros s name args).bind fun (text, ctx) =>
      .returns { s with
        rest := (readLine s.rest).2.2
        macroCtx := ctx
        out := s.out ++ text } := by
  obtain ⟨hpercent, hmacro, htimes⟩ := hdirective
  have hexpand : expandLine macros s.defines s.macroCtx (readLine s.rest).1 =
      expansionText macros s name args := by
    rw [expandLine, hline]
    simp only [Outcome.ofOption, Outcome.bind, htimes, hparse]
    rfl
  rw [passTwoStep_expandLine hactive hpercent hmacro, hexpand]

theorem expansionText_returns {macros : List Macro} {s : PassTwo} {name : List Byte}
    {args : List Text} (h : expansionText macros s name args ≠ .null) :
    ∃ text ctx, expansionText macros s name args = .returns (text, ctx) := by
  cases hexpand : expansionText macros s name args with
  | returns found => exact ⟨found.1, found.2, rfl⟩
  | null => exact absurd hexpand h
  | diverges =>
      rw [expansionText, Outcome.ofOption_bind_eq_diverges] at hexpand
      obtain ⟨found, -, hdiverges⟩ := hexpand
      rw [Outcome.ofOption_bind_eq_diverges] at hdiverges
      obtain ⟨text, -, hdiverges⟩ := hdiverges
      cases hdiverges

theorem KeepsInvocation.noLabel {macros : List Macro} {s : PassTwo} {w : MacroLine}
    (h : KeepsInvocation macros s w) (hnext : InvocationNext macros s w) : w.label = none := by
  obtain ⟨args, text, ctx, gap, -, hparse, hexpand, -, hstep⟩ := h.kept
  rw [passTwoStep_invocation hnext.active hnext.line h.noDirective hparse, hexpand] at hstep
  have hout := congrArg PassTwo.out (Outcome.returns.inj hstep)
  dsimp only at hout
  rw [List.append_cancel_left_eq] at hout
  have hlen := congrArg List.length hout
  rw [List.length_append] at hlen
  cases hl : w.label with
  | none => rfl
  | some l =>
      rw [MacroLine.labelOut, hl, List.length_append, List.length_cons] at hlen
      omega

theorem keepsInvocation_iff {macros : List Macro} {s : PassTwo} {w : MacroLine}
    (hnext : InvocationNext macros s w) : KeepsInvocation macros s w ↔
      NoDirective (readLine s.rest).1 w.text ∧ w.ReadAsWritten ∧ ExpansionFits macros s w := by
  have hw := hnext.wellFormed
  constructor
  · intro h
    have hl := h.noLabel hnext
    obtain ⟨args, text, ctx, gap, hbytes, hparse, hexpand, -, -⟩ := h.kept
    have hcolon : ∀ a ∈ w.args, 0x3A#8 ∉ a.text := fun a ha hmem =>
      hw.parse_colon hl ha hmem hparse hbytes
    rw [hw.parse_noColon hl hcolon] at hparse
    obtain ⟨hletter, hfew, hwhole, hclosed⟩ :=
      (hw.invocationAt_iff hnext.defined).mp ⟨args, hbytes, hparse⟩
    refine ⟨h.noDirective, ⟨hl, hletter, hcolon, hfew, hwhole, hclosed⟩, args, hbytes, ?_⟩
    rw [hexpand]
    intro hnull
    cases hnull
  · rintro ⟨hdirective, hread, args', hbytes', hfits⟩
    obtain ⟨args, hbytes, hparse⟩ := (hw.invocationAt_iff hnext.defined).mpr
      ⟨hread.letter, hread.few, hread.whole, hread.closed⟩
    have hsame : args' = args := by
      apply List.map_injective_iff.mpr (fun x y => CString.CStr.ext)
      rw [hbytes, hbytes']
    rw [hsame] at hfits
    rw [← hw.parse_noColon hread.noLabel hread.noColon] at hparse
    obtain ⟨text, ctx, hexpand⟩ := expansionText_returns hfits
    refine ⟨hdirective, args, text, ctx, [], hbytes, hparse, hexpand, List.forall_mem_nil _, ?_⟩
    rw [passTwoStep_invocation hnext.active hnext.line hdirective hparse, hexpand,
      MacroLine.labelOut, hread.noLabel]
    rfl

/-- A line is taken for a labelled invocation: what it invokes stands behind its first colon. -/
def TakenAsLabelled (macros : List Macro) (line : List Byte) : Prop :=
  ∃ front rest call, line = front ++ 0x3A#8 :: rest ∧ 0x3A#8 ∉ front ∧
    parseMacroInvocation macros line = .returns (some call) ∧
      invocationAt macros (skipSpaces rest) = .returns (some call)

theorem takenAsLabelled_iff {macros : List Macro} {front rest : List Byte} (hfront : 0x3A#8 ∉ front) :
    TakenAsLabelled macros (front ++ 0x3A#8 :: rest) ↔ NamesMacro macros (skipSpaces rest) := by
  rw [← invocationAt_iff, TakenAsLabelled]
  constructor
  · rintro ⟨front', rest', call, -, -, hparse, -⟩
    rw [parseMacroInvocation_eq, afterLabel_colon hfront] at hparse
    exact ⟨call, hparse⟩
  · rintro ⟨call, hcall⟩
    refine ⟨front, rest, call, rfl, hfront, ?_, hcall⟩
    rw [parseMacroInvocation_eq, afterLabel_colon hfront, hcall]

/-- An invocation is kept just where it has no label, its arguments hold no colon and are read
whole, and its expansion fits; a line without a label is taken for a labelled invocation just
where a macro's name stands behind its first colon. -/
theorem macroLines_kept_iff (macros : List Macro) :
    (∀ s w, InvocationNext macros s w → (KeepsInvocation macros s w ↔
        NoDirective (readLine s.rest).1 w.text ∧ w.ReadAsWritten ∧ ExpansionFits macros s w)) ∧
      ∀ front rest, 0x3A#8 ∉ front → ¬ LabelText front →
        (¬ TakenAsLabelled macros (front ++ 0x3A#8 :: rest) ↔
          ¬ NamesMacro macros (skipSpaces rest)) := by
  refine ⟨fun s w hnext => keepsInvocation_iff hnext, ?_⟩
  intro front rest hfront _
  exact not_congr (takenAsLabelled_iff hfront)

theorem LabelText.chars {text : List Byte} (h : LabelText text) :
    ∀ b ∈ text, isSpace b = true ∨ isIdentifierChar b = true := by
  obtain ⟨indent, name, gap, rfl, hindent, hname, hgap⟩ := h
  intro b hb
  rw [List.mem_append, List.mem_append] at hb
  rcases hb with hb | hb | hb
  · exact .inl (hindent b hb)
  · exact .inr (List.all_eq_true.mp hname.rest b hb)
  · exact .inl (hgap b hb)

/-- `m` stores its second argument in its first. -/
def storeMacro : Macro where
  name := CString.lit _ "m"
  params := [CString.lit _ "p", CString.lit _ "q"]
  body := [CString.lit _ "mov \\p, \\q"]

/-- The second pass at a line of a source without defines. -/
def atLine (line : String) : PassTwo := { rest := str line, defines := [] }

/-- Arguments with commas in brackets, and a string with a colon. -/
theorem macroLines_kept_brackets :
    KeepsInvocation [storeMacro] (atLine "m rax, [rbx+(1,2)]\nnop")
        { name := str "m", space := str " "
          args := [{ text := str "rax" }, { before := str " ", text := str "[rbx+(1,2)]" }] } ∧
      ¬ TakenAsLabelled [storeMacro] (str "db \"a: b\"") := by
  have hline : str "db \"a: b\"" = str "db \"a" ++ 0x3A#8 :: str " b\"" := by decide +kernel
  rw [hline]
  refine ⟨((macroLines_kept_iff [storeMacro]).1 _ _ ⟨rfl, by decide +kernel, ?_, by decide⟩).mpr
    ⟨⟨by decide, by decide +kernel, by decide +kernel⟩,
      ⟨rfl, by decide, by decide, by decide, ?_, ?_⟩,
      [CString.lit _ "rax", CString.lit _ "[rbx+(1,2)]"], by decide +kernel, by decide +kernel⟩,
    ((macroLines_kept_iff [storeMacro]).2 (str "db \"a") (str " b\"") (by decide) ?_).mpr ?_⟩
  · refine ⟨by decide, ?_, by decide, by decide, by decide, ?_, by decide⟩
    · rintro l ⟨⟩
    · rw [List.forall_mem_cons, List.forall_mem_cons]
      exact ⟨⟨by decide, ⟨by decide, by decide⟩, by decide, by decide⟩,
        ⟨by decide, ⟨by decide, by decide⟩, by decide, by decide⟩, List.forall_mem_nil _⟩
  · rw [List.forall_mem_cons, List.forall_mem_cons]
    exact ⟨⟨by decide, by decide, by decide, by decide, by decide, by decide⟩,
      ⟨by decide, by decide, by decide, by decide, by decide, by decide⟩, List.forall_mem_nil _⟩
  · intro a ha
    obtain rfl := List.mem_singleton.mp ha
    intro hopen
    exact absurd hopen (by decide)
  · intro hlabel
    exact absurd (hlabel.chars 0x22#8 (by decide)) (by decide)
  · intro hnames
    exact absurd hnames.defined (by decide +kernel)

/-- The label of an invocation is lost, a comma in a string ends an argument, and what stands
behind a colon in a string is taken for an invocation. -/
theorem not_macroLines_kept :
    ¬ ((∀ s w, InvocationNext [storeMacro] s w → KeepsInvocation [storeMacro] s w) ∨
      ∀ front rest, 0x3A#8 ∉ front → ¬ LabelText front →
        ¬ TakenAsLabelled [storeMacro] (front ++ 0x3A#8 :: rest)) ∧
      ¬ KeepsInvocation [storeMacro] (atLine "m rax, \"a,b\"")
        { name := str "m", space := str " "
          args := [{ text := str "rax" }, { before := str " ", text := str "\"a,b\"" }] } := by
  have hwellFormed : ∀ a ∈ [({ text := str "rax" } : WrittenArg)], a.WellFormed := by
    intro a ha
    obtain rfl := List.mem_singleton.mp ha
    exact ⟨by decide, ⟨by decide, by decide⟩, by decide, by decide⟩
  refine ⟨?_, ?_⟩
  · rintro (hkept | hcolon)
    · have hnext : InvocationNext [storeMacro] (atLine "l: m rax")
          { label := some { name := str "l", after := str " " }, name := str "m"
            space := str " ", args := [{ text := str "rax" }] } := by
        refine ⟨rfl, by decide +kernel,
          ⟨by decide, ?_, by decide, by decide, by decide, hwellFormed, by decide⟩, by decide⟩
        rintro l ⟨⟩
        exact ⟨⟨by decide, by decide⟩, by decide, by decide⟩
      have hlabel := (hkept _ _ hnext).noLabel hnext
      cases hlabel
    · refine hcolon (str "db \"a") (str " m rax\"") (by decide) ?_ ?_
      · intro hlabel
        exact absurd (hlabel.chars 0x22#8 (by decide)) (by decide)
      · rw [takenAsLabelled_iff (by decide)]
        exact ⟨by decide, by decide +kernel⟩
  · intro hkept
    have hnext : InvocationNext [storeMacro] (atLine "m rax, \"a,b\"")
        { name := str "m", space := str " "
          args := [{ text := str "rax" }, { before := str " ", text := str "\"a,b\"" }] } := by
      refine ⟨rfl, by decide +kernel,
        ⟨by decide, ?_, by decide, by decide, by decide, ?_, by decide⟩, by decide⟩
      · rintro l ⟨⟩
      · rw [List.forall_mem_cons, List.forall_mem_singleton]
        exact ⟨hwellFormed _ List.mem_cons_self,
          ⟨by decide, ⟨by decide, by decide⟩, by decide, by decide⟩⟩
    obtain ⟨-, hread, -⟩ := (keepsInvocation_iff hnext).mp hkept
    have hwhole := hread.whole _ (List.mem_cons_of_mem _ List.mem_cons_self)
    exact absurd (hwhole.commas 2 (by decide) (by decide)) (by decide)

end X86Assembler
