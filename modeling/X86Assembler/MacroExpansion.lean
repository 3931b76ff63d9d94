import X86Assembler.Library.Replacement
import X86Assembler.Preprocessor

namespace X86Assembler

open CString (Byte str)
open Replacement

/-- The rule for references to parameters, as `\p` or `$p`. -/
def paramRule (params : List Label) (args : List Text) : Rule Byte := fun b bs =>
  let name := bs.takeWhile isIdentChar
  if (b = 0x5C#8 || b = 0x24#8) && name != [] then
    (paramValue params args name).map fun text => (text, name.length)
  else none

theorem takeWhile_ne_at (bs : List Byte) : bs.takeWhile isIdentChar ≠ [0x40#8] := by
  intro h
  have hmem : (0x40#8 : Byte) ∈ bs.takeWhile isIdentChar := h ▸ List.mem_singleton_self _
  have hident := List.mem_takeWhile_imp hmem
  cases hident

theorem substituteParams_eq_replaceWithin (params : List Label) (args : List Text)
    (counter room skip : Nat) (bs : List Byte) :
    substituteParams params args counter room skip bs =
      replaceWithin (paramRule params args) room skip bs := by
  induction bs generalizing room skip with
  | nil => rw [substituteParams, replaceWithin]
  | cons b bs ih =>
      cases skip with
      | succ skip => rw [substituteParams, replaceWithin, ih]
      | zero =>
          have hat : (b = 0x5C#8 && bs.takeWhile isIdentChar = [0x40#8] : Bool) = false := by
            rw [Bool.and_eq_false_iff]
            exact .inr (decide_eq_false (takeWhile_ne_at bs))
          rw [substituteParams, replaceWithin]
          by_cases hroom : room = 0
          · rw [if_pos hroom, if_pos hroom]
          rw [if_neg hroom, if_neg hroom, paramRule]
          dsimp only
          rw [hat]
          by_cases href : (b = 0x5C#8 || b = 0x24#8) && bs.takeWhile isIdentChar != []
          · rw [if_pos href, if_pos href, if_neg Bool.false_ne_true]
            cases paramValue params args (bs.takeWhile isIdentChar) with
            | none => rw [Option.map_none]; dsimp only; rw [ih]
            | some text => rw [Option.map_some]; dsimp only; rw [ih]
          · rw [if_neg href, if_neg href]
            dsimp only
            rw [ih]

/-- One expansion of a macro, with the counter that `expand_macro` has for it. -/
structure MacroExpansion where
  m : Macro
  args : List Text
  counter : Nat

namespace MacroExpansion

variable (e : MacroExpansion)

/-- What `substitute_params` leaves in the line buffer for each line of the body. -/
def lines : List (List Byte) :=
  e.m.body.map fun line =>
    substituteParams e.m.params e.args e.counter (maxLineLength * 2 - 1) 0 line.bytes

def bufSize : Nat := e.m.body.length * maxLineLength * 2

def text : List Byte := e.lines.foldl (appendExpanded e.bufSize) []

end MacroExpansion

def MacroContext.expansion (ctx : MacroContext) (m : Macro) (args : List Text) : MacroExpansion :=
  ⟨m, args, ctx.localLabelCounter + 1⟩

theorem expandMacro_eq {macros : List Macro} {name : List Byte} {m : Macro}
    (hm : macroLookup macros name = some m) (ctx : MacroContext) (args : List Text) :
    expandMacro macros ctx name args =
      if maxMacroExpansionDepth ≤ ctx.expansionDepth then none
      else some ((ctx.expansion m args).text,
        { ctx with localLabelCounter := ctx.localLabelCounter + 1 }) := by
  rw [expandMacro, hm]
  rfl

def joinLines (lines : List (List Byte)) : List Byte := (lines.map (· ++ [0x0A#8])).flatten

theorem joinLines_cons (line : List Byte) (lines : List (List Byte)) :
    joinLines (line :: lines) = line ++ [0x0A#8] ++ joinLines lines := rfl

theorem length_joinLines_cons (line : List Byte) (lines : List (List Byte)) :
    (joinLines (line :: lines)).length = line.length + 1 + (joinLines lines).length := by
  rw [joinLines_cons, List.length_append, List.length_append, List.length_singleton]

/-- The lines that fit, in a buffer that holds some text already. -/
def fittingLines (size : Nat) : Nat → List (List Byte) → List (List Byte)
  | _, [] => []
  | pos, line :: lines =>
    if pos + line.length + 2 < size then line :: fittingLines size (pos + line.length + 1) lines
    else fittingLines size pos lines

theorem foldl_appendExpanded (size : Nat) (out : List Byte) (lines : List (List Byte)) :
    lines.foldl (appendExpanded size) out = out ++ joinLines (fittingLines size out.length lines) := by
  induction lines generalizing out with
  | nil => exact (List.append_nil out).symm
  | cons line lines ih =>
      rw [List.foldl_cons, ih, appendExpanded, fittingLines]
      split
      · rw [joinLines_cons, List.length_append, List.length_append, List.length_singleton]
        simp only [List.append_assoc]
      · rfl

theorem length_joinLines_fitting_le (size pos : Nat) (lines : List (List Byte)) :
    (joinLines (fittingLines size pos lines)).length ≤ (joinLines lines).length := by
  induction lines generalizing pos with
  | nil => exact Nat.le_refl _
  | cons line lines ih =>
      rw [fittingLines, length_joinLines_cons]
      split
      · have hrest := ih (pos + line.length + 1)
        rw [length_joinLines_cons]
        omega
      · have hrest := ih pos
        omega

theorem joinLines_fitting_eq_iff {size pos : Nat} {lines : List (List Byte)} (hne : lines ≠ []) :
    joinLines (fittingLines size pos lines) = joinLines lines ↔
      pos + (joinLines lines).length + 1 < size := by
  induction lines generalizing pos with
  | nil => exact absurd rfl hne
  | cons line lines ih =>
      rw [fittingLines, length_joinLines_cons]
      by_cases hfits : pos + line.length + 2 < size
      · rw [if_pos hfits, joinLines_cons, joinLines_cons, List.append_right_inj]
        by_cases hnil : lines = []
        · subst hnil
          refine iff_of_true rfl ?_
          change pos + (line.length + 1 + 0) + 1 < size
          omega
        · rw [ih hnil]
          have harith : pos + line.length + 1 + (joinLines lines).length + 1 =
              pos + (line.length + 1 + (joinLines lines).length) + 1 := by omega
          rw [harith]
      · rw [if_neg hfits]
        constructor
        · intro heq
          have hlen := congrArg List.length heq
          have hle := length_joinLines_fitting_le size pos lines
          rw [length_joinLines_cons] at hlen
          omega
        · intro h
          omega

/-- The positions that `expand_macro` writes behind the first terminator: of each line that fits
its characters, the newline and the terminator. -/
def lineWrites (size : Nat) : Nat → List (List Byte) → List Nat
  | _, [] => []
  | pos, line :: lines =>
    if pos + line.length + 2 < size then
      List.range' pos (line.length + 2) ++ lineWrites size (pos + line.length + 1) lines
    else lineWrites size pos lines

theorem lineWrites_lt {size pos i : Nat} {lines : List (List Byte)}
    (h : i ∈ lineWrites size pos lines) : i < size := by
  induction lines generalizing pos with
  | nil => cases h
  | cons line lines ih =>
      rw [lineWrites] at h
      split at h
      · next hfits =>
          rcases List.mem_append.mp h with hhere | hlater
          · rw [List.mem_range'_1] at hhere
            omega
          · exact ih hlater
      · exact ih h

namespace MacroExpansion

def writes (e : MacroExpansion) : List Nat := 0 :: lineWrites e.bufSize 0 e.lines

/-- The body with every reference to a parameter replaced at once. -/
def substituted (e : MacroExpansion) : List (List Byte) :=
  e.m.body.map fun line => replace (paramRule e.m.params e.args) 0 line.bytes

theorem text_eq (e : MacroExpansion) : e.text = joinLines (fittingLines e.bufSize 0 e.lines) :=
  foldl_appendExpanded e.bufSize [] e.lines

theorem writes_lt_iff (e : MacroExpansion) : (∀ i ∈ e.writes, i < e.bufSize) ↔ e.m.body ≠ [] := by
  rw [writes, List.forall_mem_cons, and_iff_left fun i hi => lineWrites_lt hi, bufSize,
    ← List.length_pos_iff]
  change 0 < e.m.body.length * 1024 * 2 ↔ _
  omega

theorem length_joinLines_map_le {α : Type} {f g : α → List Byte} {l : List α}
    (h : ∀ a ∈ l, (f a).length ≤ (g a).length) :
    (joinLines (l.map f)).length ≤ (joinLines (l.map g)).length := by
  induction l with
  | nil => exact Nat.le_refl _
  | cons a l ih =>
      obtain ⟨hhere, hrest⟩ := List.forall_mem_cons.mp h
      have htail := ih hrest
      rw [List.map_cons, List.map_cons, length_joinLines_cons, length_joinLines_cons]
      omega

theorem map_eq_of_joinLines {α : Type} {f g : α → List Byte} {l : List α}
    (h : ∀ a ∈ l, (f a).length ≤ (g a).length)
    (heq : (joinLines (l.map f)).length = (joinLines (l.map g)).length) :
    ∀ a ∈ l, (f a).length = (g a).length := by
  induction l with
  | nil => exact List.forall_mem_nil _
  | cons a l ih =>
      obtain ⟨hhere, hrest⟩ := List.forall_mem_cons.mp h
      have htail := length_joinLines_map_le hrest
      rw [List.map_cons, List.map_cons, length_joinLines_cons, length_joinLines_cons] at heq
      exact List.forall_mem_cons.mpr ⟨by omega, ih hrest (by omega)⟩

theorem length_lines_le (e : MacroExpansion) : ∀ line ∈ e.m.body,
    (substituteParams e.m.params e.args e.counter (maxLineLength * 2 - 1) 0 line.bytes).length ≤
      (replace (paramRule e.m.params e.args) 0 line.bytes).length := by
  intro line _
  rw [substituteParams_eq_replaceWithin]
  exact length_replaceWithin_le _ _ _ _

theorem lines_eq_substituted_iff (e : MacroExpansion) :
    e.lines = e.substituted ↔ ∀ line ∈ e.substituted, line.length < maxLineLength * 2 := by
  rw [lines, substituted, List.map_inj_left, List.forall_mem_map]
  apply forall₂_congr
  intro line _
  rw [substituteParams_eq_replaceWithin, replaceWithin_eq_iff]
  change _ ≤ 2047 ↔ _ < 2048
  omega

theorem text_eq_substituted_iff (e : MacroExpansion) (hne : e.m.body ≠ []) :
    e.text = joinLines e.substituted ↔
      (∀ line ∈ e.substituted, line.length < maxLineLength * 2) ∧
        (joinLines e.substituted).length + 1 < e.bufSize := by
  have hlines : e.lines ≠ [] := by
    rw [lines]
    exact mt List.map_eq_nil_iff.mp hne
  rw [← lines_eq_substituted_iff, text_eq]
  constructor
  · intro heq
    have hlen := congrArg List.length heq
    have hfitting := length_joinLines_fitting_le e.bufSize 0 e.lines
    have hmap := length_joinLines_map_le e.length_lines_le
    have hsame : e.lines = e.substituted := by
      rw [lines_eq_substituted_iff]
      rw [lines] at hfitting
      rw [substituted] at hlen ⊢
      rw [lines] at hlen
      have heach := map_eq_of_joinLines e.length_lines_le (by omega)
      rw [List.forall_mem_map]
      intro line hline
      have hroom := length_replaceWithin_le_room (paramRule e.m.params e.args)
        (maxLineLength * 2 - 1) 0 line.bytes
      rw [← heach line hline, substituteParams_eq_replaceWithin]
      change _ ≤ 2047 at hroom
      change _ < 2048
      omega
    rw [← hsame] at heq ⊢
    have hfits := (joinLines_fitting_eq_iff hlines).mp heq
    rw [Nat.zero_add] at hfits
    exact ⟨rfl, hfits⟩
  · rintro ⟨hsame, hfits⟩
    rw [← hsame] at hfits ⊢
    apply (joinLines_fitting_eq_iff hlines).mpr
    rwa [Nat.zero_add]

end MacroExpansion

/-- An expansion is the simultaneous substitution, written inside its buffer, exactly where the
body has a line and the substituted lines have room in the line buffer and in that buffer. -/
theorem expandMacro_simultaneous_iff {macros : List Macro} {name : List Byte} {m : Macro}
    (hm : macroLookup macros name = some m) (ctx : MacroContext) (args : List Text) :
    ((∃ ctx', expandMacro macros ctx name args =
          some (joinLines (ctx.expansion m args).substituted, ctx')) ∧
        ∀ i ∈ (ctx.expansion m args).writes, i < (ctx.expansion m args).bufSize) ↔
      ctx.expansionDepth < maxMacroExpansionDepth ∧ m.body ≠ [] ∧
        (∀ line ∈ (ctx.expansion m args).substituted, line.length < maxLineLength * 2) ∧
          (joinLines (ctx.expansion m args).substituted).length + 1 <
            (ctx.expansion m args).bufSize := by
  rw [MacroExpansion.writes_lt_iff, expandMacro_eq hm]
  by_cases hdepth : maxMacroExpansionDepth ≤ ctx.expansionDepth
  · rw [if_pos hdepth]
    constructor
    · rintro ⟨⟨ctx', h⟩, -⟩
      cases h
    · rintro ⟨h, -⟩
      exact absurd hdepth (Nat.not_le_of_lt h)
  rw [if_neg hdepth, and_iff_right (Nat.lt_of_not_le hdepth)]
  constructor
  · rintro ⟨⟨ctx', h⟩, hne⟩
    obtain ⟨htext, -⟩ := Prod.mk.inj (Option.some.inj h)
    exact ⟨hne, (MacroExpansion.text_eq_substituted_iff _ hne).mp htext⟩
  · rintro ⟨hne, hroom⟩
    exact ⟨⟨_, congrArg (fun text => some (text, _))
      ((MacroExpansion.text_eq_substituted_iff _ hne).mpr hroom)⟩, hne⟩

/-- A macro `load` of one parameter. -/
def loadMacro : Macro where
  name := CString.lit _ "load"
  params := [CString.lit _ "p"]
  body := [CString.lit _ "mov rax, \\p"]

theorem expandMacro_simultaneous_load :
    (∃ ctx', expandMacro [loadMacro] {} (str "load") [CString.lit _ "rbx"] =
        some (joinLines (MacroContext.expansion {} loadMacro [CString.lit _ "rbx"]).substituted,
          ctx')) ∧
      ∀ i ∈ (MacroContext.expansion {} loadMacro [CString.lit _ "rbx"]).writes,
        i < (MacroContext.expansion {} loadMacro [CString.lit _ "rbx"]).bufSize :=
  (expandMacro_simultaneous_iff (by decide) {} [CString.lit _ "rbx"]).mpr (by decide)

/-- The terminator of an empty body is written behind a buffer of no size. -/
theorem expandMacro_empty_body :
    ¬ ∀ i ∈ (MacroContext.expansion {} { name := CString.lit _ "none" } []).writes,
      i < (MacroContext.expansion {} { name := CString.lit _ "none" } []).bufSize := by
  intro h
  exact (MacroExpansion.writes_lt_iff _).mp h rfl

/-- A `\@` at the start of a text. -/
def StartsLocal (b : Byte) (bs : List Byte) : Prop := b = 0x5C#8 ∧ bs.head? = some 0x40#8

instance (b : Byte) (bs : List Byte) : Decidable (StartsLocal b bs) :=
  inferInstanceAs (Decidable (_ ∧ _))

def HasLocal (line : List Byte) : Prop := [0x5C#8, 0x40#8] <:+: line

/-- The rule that gives each `\@` the number of the expansion. -/
def numberedRule (params : List Label) (args : List Text) (number : Nat) : Rule Byte := fun b bs =>
  if StartsLocal b bs then some (CString.decimal number, 1) else paramRule params args b bs

theorem paramRule_local {b : Byte} {bs : List Byte} (h : StartsLocal b bs) (params : List Label)
    (args : List Text) : paramRule params args b bs = none := by
  obtain ⟨-, hhead⟩ := h
  cases bs with
  | nil => cases hhead
  | cons c bs =>
      cases hhead
      rw [paramRule, List.takeWhile_cons_of_neg (by decide)]
      exact if_neg (by simp)

theorem decimal_cons (number : Nat) : ∃ c text, c ≠ 0x5C#8 ∧ CString.decimal number = c :: text := by
  cases h : CString.decimal number with
  | nil =>
      rw [CString.decimal, List.map_eq_nil_iff] at h
      exact absurd h Nat.toDigits_ne_nil
  | cons c text =>
      refine ⟨c, text, ?_, rfl⟩
      rintro rfl
      have hdigit : CString.isDigit 0x5C#8 :=
        CString.isDigit_of_mem_decimal (n := number) (h ▸ List.mem_cons_self)
      cases hdigit

theorem paramRule_passes {params : List Label} {args : List Text} {b : Byte} {bs text : List Byte}
    {n : Nat} (h : paramRule params args b bs = some (text, n)) {pre post : List Byte}
    (hbs : bs = pre ++ 0x5C#8 :: post) : n ≤ pre.length := by
  rw [paramRule] at h
  split at h
  · obtain ⟨value, -, heq⟩ := Option.map_eq_some_iff.mp h
    obtain ⟨-, rfl⟩ := Prod.mk.inj heq
    rw [hbs, List.takeWhile_append]
    split
    · rw [List.takeWhile_cons_of_neg (by decide), List.append_nil]
    · exact (List.takeWhile_prefix _).length_le
  · cases h

theorem substituteParams_ne_numbered {line : List Byte} (hline : HasLocal line)
    (params : List Label) (args : List Text) (counter room number : Nat) :
    substituteParams params args counter room 0 line ≠
      replace (numberedRule params args number) 0 line := by
  obtain ⟨pre, post, rfl⟩ := hline
  rw [substituteParams_eq_replaceWithin, List.append_assoc, List.cons_append, List.singleton_append]
  apply replaceWithin_ne_replace StartsLocal
  · intro b bs hb
    exact if_neg hb
  · intro b bs hb
    exact paramRule_local hb params args
  · intro b bs hb
    obtain ⟨c, text, hc, htext⟩ := decimal_cons number
    refine ⟨c, text, 1, ?_, ?_⟩
    · rwa [hb.1]
    · rw [numberedRule, if_pos hb, htext]
  · intro b bs text n hrule pre c post hbs hc
    rw [hc.1] at hbs
    exact paramRule_passes hrule hbs
  · exact ⟨rfl, rfl⟩
  · exact Nat.zero_le _

/-- The body with every reference replaced, and every `\@` by a number. -/
def MacroExpansion.numbered (e : MacroExpansion) (number : Nat) : List (List Byte) :=
  e.m.body.map fun line => replace (numberedRule e.m.params e.args number) 0 line.bytes

theorem MacroExpansion.lines_ne_numbered {e : MacroExpansion} {line : Text} (hline : line ∈ e.m.body)
    (hlocal : HasLocal line.bytes) (number : Nat) : e.lines ≠ e.numbered number := by
  intro heq
  rw [lines, numbered, List.map_inj_left] at heq
  exact substituteParams_ne_numbered hlocal _ _ _ _ _ (heq line hline)

/-- The expansions of a run of invocations, each in the context that the one before leaves. -/
inductive Expands (macros : List Macro) : MacroContext → List MacroExpansion → MacroContext → Prop
  | done (ctx : MacroContext) : Expands macros ctx [] ctx
  | call {ctx ctx' ctx'' : MacroContext} {name : List Byte} {e : MacroExpansion} {es : List MacroExpansion}
      (hlookup : macroLookup macros name = some e.m)
      (hexpand : expandMacro macros ctx name e.args = some (e.text, ctx'))
      (hrest : Expands macros ctx' es ctx'') : Expands macros ctx (e :: es) ctx''

theorem Expands.append {macros : List Macro} {ctx ctx' ctx'' : MacroContext}
    {es es' : List MacroExpansion} (h : Expands macros ctx es ctx') (h' : Expands macros ctx' es' ctx'') :
    Expands macros ctx (es ++ es') ctx'' := by
  induction h with
  | done => exact h'
  | call hlookup hexpand hrest ih => exact .call hlookup hexpand (ih h')

theorem expands_expandMacro {macros : List Macro} {ctx ctx' : MacroContext} {name text : List Byte}
    {args : List Text} (h : expandMacro macros ctx name args = some (text, ctx')) :
    ∃ es, Expands macros ctx es ctx' := by
  cases hm : macroLookup macros name with
  | none =>
      rw [expandMacro, hm] at h
      cases h
  | some m =>
      have hexpand := expandMacro_eq hm ctx args
      rw [h] at hexpand
      split at hexpand
      · cases hexpand
      · obtain ⟨rfl, rfl⟩ := Prod.mk.inj (Option.some.inj hexpand)
        exact ⟨[ctx.expansion m args], .call hm h (.done _)⟩

theorem expands_expandLine {macros : List Macro} {defines : List Define} {ctx ctx' : MacroContext}
    {line text : List Byte} (h : expandLine macros defines ctx line = .returns (text, ctx')) :
    ∃ es, Expands macros ctx es ctx' := by
  obtain ⟨line, -, h⟩ := Outcome.bind_eq_returns.mp h
  split at h
  · cases h
    exact ⟨[], .done _⟩
  · obtain ⟨call, -, h⟩ := Outcome.bind_eq_returns.mp h
    cases call with
    | none =>
        cases h
        exact ⟨[], .done _⟩
    | some call =>
        obtain ⟨⟨expanded, ctx''⟩, hexpand, h⟩ := Outcome.bind_eq_returns.mp h
        obtain ⟨text', -, h⟩ := Outcome.bind_eq_returns.mp h
        cases h
        exact expands_expandMacro (Outcome.ofOption_eq_returns.mp hexpand)

theorem expands_emitLine {macros : List Macro} {line rest : List Byte} {s t : PassTwo}
    (h : emitLine macros line rest s = .returns t) :
    ∃ es, Expands macros s.macroCtx es t.macroCtx := by
  have hsame : ∀ {u : PassTwo}, Outcome.returns u = .returns t → u.macroCtx = s.macroCtx →
      ∃ es, Expands macros s.macroCtx es t.macroCtx := by
    intro u hu hctx
    cases hu
    exact ⟨[], hctx ▸ .done _⟩
  rw [emitLine] at h
  split at h
  · cases h
  split at h
  · exact hsame h rfl
  split at h
  · cases h
  split at h
  · split at h
    · obtain ⟨defines, -, h⟩ := Outcome.bind_eq_returns.mp h
      exact hsame h rfl
    · obtain ⟨directive, -, h⟩ := Outcome.bind_eq_returns.mp h
      cases directive with
      | some directive =>
          cases h
          exact ⟨[], .done _⟩
      | none =>
          obtain ⟨⟨text, ctx⟩, hexpand, h⟩ := Outcome.bind_eq_returns.mp h
          cases h
          exact expands_expandLine hexpand
  · exact hsame h rfl

theorem expands_passTwoStep {macros : List Macro} {s t : PassTwo}
    (h : passTwoStep macros s = .returns t) : ∃ es, Expands macros s.macroCtx es t.macroCtx := by
  obtain ⟨cond, -, h⟩ := Outcome.bind_eq_returns.mp h
  cases cond with
  | some cond =>
      cases h
      exact ⟨[], .done _⟩
  | none => exact expands_emitLine h

theorem expands_passTwo {macros : List Macro} {s u : PassTwo}
    (h : passTwo macros s = .returns u) : ∃ es, Expands macros s.macroCtx es u.macroCtx := by
  refine (Loop.visited_related
    (fun s t : PassTwo => ∃ es, Expands macros s.macroCtx es t.macroCtx) ?_ ?_ ?_ h).1
  · intro s
    exact ⟨[], .done _⟩
  · rintro a b c ⟨es, h⟩ ⟨es', h'⟩
    exact ⟨es ++ es', h.append h'⟩
  · intro s t _ hstep
    exact expands_passTwoStep hstep

/-- What local labels are for: each expansion has a number of its own for them. -/
def LocalsNumbered (es : List MacroExpansion) : Prop :=
  ∃ numbers : List Nat, numbers.Nodup ∧
    List.Forall₂ (fun e number => e.lines = e.numbered number) es numbers

def Macro.HasLocals (m : Macro) : Prop := ∃ line ∈ m.body, HasLocal line.bytes

theorem not_localsNumbered {es : List MacroExpansion} (h : ∃ e ∈ es, e.m.HasLocals) :
    ¬ LocalsNumbered es := by
  obtain ⟨e, he, line, hline, hlocal⟩ := h
  rintro ⟨numbers, -, hall⟩
  induction hall with
  | nil => cases he
  | cons hhere hrest ih =>
      rcases List.mem_cons.mp he with rfl | he
      · exact MacroExpansion.lines_ne_numbered hline hlocal _ hhere
      · exact ih he

theorem MacroExpansion.text_congr {e e' : MacroExpansion} (hm : e.m = e'.m) (hargs : e.args = e'.args) :
    e.text = e'.text := by
  obtain ⟨m, args, counter⟩ := e
  obtain ⟨m', args', counter'⟩ := e'
  cases hm
  cases hargs
  simp only [text, lines, bufSize, substituteParams_eq_replaceWithin]

/-- In no run does an expansion with a local label have a number for it, and two expansions with
the same arguments have the same text. -/
theorem localLabels_kept {macros : List Macro} {ctx ctx' : MacroContext} {es : List MacroExpansion}
    (_hrun : Expands macros ctx es ctx') (hlocals : ∃ e ∈ es, e.m.HasLocals) :
    ¬ LocalsNumbered es ∧
      ∀ e ∈ es, ∀ e' ∈ es, e.m = e'.m → e.args = e'.args → e.text = e'.text := by
  constructor
  · exact not_localsNumbered hlocals
  · intro e _ e' _ hm hargs
    exact MacroExpansion.text_congr hm hargs

/-- A macro `here` that defines a local label. -/
def hereMacro : Macro where
  name := CString.lit _ "here"
  body := [CString.lit _ "L\\@:"]

theorem hereMacro_hasLocals : hereMacro.HasLocals :=
  ⟨_, List.mem_singleton_self _, str "L", str ":", rfl⟩

def hereTwice : List MacroExpansion :=
  [MacroContext.expansion {} hereMacro [],
    MacroContext.expansion { localLabelCounter := 1 } hereMacro []]

theorem expands_hereTwice :
    Expands [hereMacro] {} hereTwice { localLabelCounter := 2 } := by
  have hlookup : macroLookup [hereMacro] (str "here") = some hereMacro := rfl
  refine .call hlookup (expandMacro_eq hlookup {} []) ?_
  exact .call hlookup (expandMacro_eq hlookup _ []) (.done _)

theorem localLabels_kept_twice :
    ¬ LocalsNumbered hereTwice ∧
      ∀ e ∈ hereTwice, ∀ e' ∈ hereTwice, e.m = e'.m → e.args = e'.args → e.text = e'.text :=
  localLabels_kept expands_hereTwice ⟨_, List.mem_cons_self, hereMacro_hasLocals⟩

/-- Both invocations define the same label. -/
theorem hereTwice_not_numbered : ¬ (Expands [hereMacro] {} hereTwice { localLabelCounter := 2 } →
    LocalsNumbered hereTwice) := by
  intro h
  exact not_localsNumbered ⟨_, List.mem_cons_self, hereMacro_hasLocals⟩ (h expands_hereTwice)

end X86Assembler
