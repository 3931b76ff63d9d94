import Mathlib.Algebra.Group.Int.Defs
import X86Assembler.Includes
import X86Assembler.Library.HashChain

namespace X86Assembler

open CString (Byte str isAlpha isDigit isXDigit isSpace startsWithIgnoreCase)

def maxDefines : Nat := 128
def maxCondDepth : Nat := 64

/-- `pp_define_t`; its `defined` flag is set in every entry below the count. -/
structure Define where
  name : Label
  value : Text
deriving DecidableEq

def isIdentStart (b : Byte) : Bool := isAlpha b || b == 0x5F#8

/-- `pp_lookup_define`. -/
def lookupDefine (defines : List Define) (name : List Byte) : Option Define :=
  defines.find? fun d => d.name.bytes == name

/-- `pp_define_set`. -/
def defineSet (defines : List Define) (name : Label) (value : Text) : Option (List Define) :=
  if name.bytes = [] then none
  else if (lookupDefine defines name.bytes).isSome then
    some (HashChain.modifyFirst (fun d => d.name == name) (fun d => { d with value }) defines)
  else if maxDefines ≤ defines.length then none
  else some (defines ++ [{ name := name, value := value }])

/-- `pp_parse_expr_directive`: the text after a directive word, if the line is that directive. -/
def parseExprDirective (word : String) (line : List Byte) : Option (List Byte) :=
  let text := skipSpaces line
  let rest := text.drop (str word).length
  if startsWithIgnoreCase text (str word) && (rest.head?.all isSpace) then some (skipSpaces rest)
  else none

def parseSymbol (text : List Byte) : List Byte :=
  (text.takeWhile isIdentChar).take (maxLabelLength - 1)

/-- `pp_parse_symbol_directive`: `none` for a directive without a symbol, `some none` for a line
that is not that directive. -/
def parseSymbolDirective (word : String) (line : List Byte) : Option (Option (List Byte)) :=
  match parseExprDirective word line with
  | none => some none
  | some text => if text.head?.any isIdentStart then some (some (parseSymbol text)) else none

/-- `pp_parse_define_directive`. -/
def parseDefineDirective (line : List Byte) : Option (Option (Label × Text)) :=
  match parseExprDirective "%define" line with
  | none => some none
  | some text =>
    if text.head?.any isIdentStart then
      let name := parseSymbol text
      let value := trimTrailingWs (skipSpaces (text.drop name.length))
      some (some (CString.copyBounded _ name, CString.copyBounded _ value))
    else none

def strtollSign (text : List Byte) : Bool × List Byte :=
  match text with
  | 0x2D#8 :: rest => (true, rest)
  | 0x2B#8 :: rest => (false, rest)
  | _ => (false, text)

/-- The base that `strtoll` with base 0 finds, and the digits with what follows them. -/
def strtollBase (text : List Byte) : Nat × List Byte :=
  match text with
  | 0x30#8 :: x :: rest =>
    if CString.toLower x = 0x78#8 && rest.head?.any isXDigit then (16, rest) else (8, text)
  | 0x30#8 :: _ => (8, text)
  | _ => (10, text)

/-- The number that a text consists of: `strtoll` with base 0 reads all of it but white space
at the end, without an overflow. -/
def wholeNumber (text : List Byte) : Option Int :=
  let (negative, unsigned) := strtollSign (skipSpaces text)
  let (base, digits) := strtollBase unsigned
  let number := digits.takeWhile fun b => isXDigit b && digitValue b < base
  let value : Int := number.foldl (fun acc b => acc * base + digitValue b) 0
  let value := if negative then -value else value
  let rest := if number = [] then text else digits.drop number.length
  if -2 ^ 63 ≤ value && value < 2 ^ 63 && skipSpaces rest = [] then some value else none

/-- The exclamation marks in front of an expression: whether their number is odd, and what
follows them. -/
def stripNegations : Nat → Bool → List Byte → Bool × List Byte
  | 0, negate, text => (negate, text)
  | rounds + 1, negate, text =>
    match text with
    | 0x21#8 :: rest => stripNegations rounds (!negate) (skipSpaces rest)
    | _ => (negate, text)

/-- `pp_eval_number_or_symbol`. -/
def evalNumberOrSymbol (defines : List Define) (expr : List Byte) : Option Bool :=
  let text := skipSpaces expr
  let (negate, text) := stripNegations text.length false text
  let token := (text.takeWhile fun b => !isSpace b).take (maxLineLength - 1)
  if token = [] then none
  else if token.head?.any isIdentStart then
    match lookupDefine defines token with
    | none => some negate
    | some d =>
      if d.value.bytes = [] then some (!negate)
      else
        match wholeNumber d.value.bytes with
        | some v => some (xor negate (v != 0))
        | none => some (!negate)
  else (wholeNumber token).map fun v => xor negate (v != 0)

/-- `pp_cond_state_t`. -/
structure CondState where
  parentActive : Bool
  branchTaken : Bool
deriving DecidableEq

/-- The open conditionals, innermost first, and `current_active`. -/
structure Conditionals where
  stack : List CondState := []
  active : Bool := true
deriving DecidableEq

def Conditionals.enter (c : Conditionals) (taken : Bool) : Option Conditionals :=
  if maxCondDepth ≤ c.stack.length then none
  else some
    { stack := { parentActive := c.active, branchTaken := c.active && taken } :: c.stack
      active := c.active && taken }

def Conditionals.else (c : Conditionals) : Option Conditionals :=
  match c.stack with
  | [] => none
  | s :: stack => some
    { stack := { s with branchTaken := true } :: stack
      active := s.parentActive && !s.branchTaken }

def Conditionals.leave (c : Conditionals) : Option Conditionals :=
  match c.stack with
  | [] => none
  | s :: stack => some { stack, active := s.parentActive }

/-- What `%ifdef` and `%ifndef` ask for. -/
def isDefined (defines : List Define) (macros : List Macro) (name : List Byte) : Bool :=
  (lookupDefine defines name).isSome || isMacroName macros name

/-- The part of both passes that handles conditionals: `null` where the pass fails, and nothing
for a line that is no conditional directive. -/
def conditionalLine (defines : List Define) (macros : List Macro) (line : List Byte)
    (c : Conditionals) : Outcome (Option Conditionals) :=
  let enter (taken : Bool) : Outcome (Option Conditionals) :=
    .ofOption ((c.enter taken).map some)
  match parseExprDirective "%if" line with
  | some expr =>
    if c.active then (Outcome.ofOption (evalNumberOrSymbol defines expr)).bind enter
    else enter false
  | none =>
    match parseSymbolDirective "%ifdef" line with
    | none => .null
    | some (some name) => enter (isDefined defines macros name)
    | some none =>
      match parseSymbolDirective "%ifndef" line with
      | none => .null
      | some (some name) => enter (!isDefined defines macros name)
      | some none =>
        if startsWithIgnoreCase (skipSpaces line) (str "%else") then
          .ofOption (c.else.map some)
        else if startsWithIgnoreCase (skipSpaces line) (str "%endif") then
          .ofOption (c.leave.map some)
        else .returns none

/-- The locals of `preprocess_macros` in its first pass. -/
structure PassOne where
  rest : List Byte
  cond : Conditionals := {}
  defines : List Define
  macros : List Macro := []
deriving DecidableEq

/-- The first pass on a line that it treats as active: definitions are collected. -/
def collectLine (line rest : List Byte) (s : PassOne) : Outcome PassOne :=
  match parseDefineDirective line with
  | none => .null
  | some (some (name, value)) =>
    (Outcome.ofOption (defineSet s.defines name value)).bind fun defines =>
      .returns { s with rest, defines }
  | some none =>
    (parseMacroDirective line).bind fun
      | none => .returns { s with rest }
      | some (name, params) =>
        (Outcome.ofOption (macroDefine s.macros name)).bind fun m =>
          let m := params.foldl macroAddParam m
          let (lines, ended, rest) := macroBody rest.length rest
          let m := lines.foldl macroAddBodyLine m
          .returns { s with rest, macros := if ended then s.macros ++ [m] else s.macros }

def passOneStep (s : PassOne) : Outcome PassOne :=
  let (line, _, rest) := readLine s.rest
  (conditionalLine s.defines s.macros line s.cond).bind fun
    | some cond => .returns { s with rest, cond }
    | none => if s.cond.active then collectLine line rest s else .returns { s with rest }

/-- The first pass; each round reads at least a character. -/
def passOne (s : PassOne) : Outcome PassOne :=
  Loop.run (fun s => s.rest = []) passOneStep s.rest.length s

/-- `pp_substitute_defines` into a buffer of a certain size, passing over `skip` characters of
an identifier that has been copied; `single` and `double` say which quotes are open. -/
def substituteDefinesLoop (defines : List Define) (size : Nat) :
    Nat → Bool → Bool → List Byte → List Byte → Option (List Byte)
  | _, _, _, [], out => some out
  | skip + 1, single, double, _ :: bs, out =>
    substituteDefinesLoop defines size skip single double bs out
  | 0, single, double, b :: bs, out =>
    if size ≤ out.length + 1 then none
    else if !single && b = 0x22#8 then
      substituteDefinesLoop defines size 0 single (!double) bs (out ++ [b])
    else if !double && b = 0x27#8 then
      substituteDefinesLoop defines size 0 (!single) double bs (out ++ [b])
    else if !single && !double && isIdentStart b then
      let name := parseSymbol (b :: bs)
      let text := match lookupDefine defines name with
        | some d => d.value.bytes
        | none => name
      if size ≤ out.length + text.length + 1 then none
      else
        substituteDefinesLoop defines size (name.length - 1) single double bs (out ++ text)
    else substituteDefinesLoop defines size 0 single double bs (out ++ [b])

def substituteDefines (defines : List Define) (size : Nat) (text : List Byte) :
    Option (List Byte) := substituteDefinesLoop defines size 0 false false text []

/-- The locals of `preprocess_macros` in its second pass. -/
structure PassTwo where
  rest : List Byte
  cond : Conditionals := {}
  defines : List Define
  macroCtx : MacroContext := {}
  out : List Byte := []
deriving DecidableEq

/-- What the second pass appends to the output for a line. -/
def expandLine (macros : List Macro) (defines : List Define) (ctx : MacroContext)
    (line : List Byte) : Outcome (List Byte × MacroContext) :=
  (Outcome.ofOption (substituteDefines defines (maxLineLength * 4) line)).bind fun line =>
    match parseTimesDirective line with
    | some (count, statement) =>
      .returns ((List.replicate count (statement ++ [0x0A#8])).flatten, ctx)
    | none =>
      (parseMacroInvocation macros line).bind fun
        | some (name, args) =>
          (Outcome.ofOption (expandMacro macros ctx name args)).bind fun (text, ctx) =>
            (Outcome.ofOption (substituteDefines defines (maxLineLength * 8) text)).bind fun text =>
              .returns (text, ctx)
        | none => .returns (line ++ [0x0A#8], ctx)

/-- The second pass on a line that is no conditional directive. A malformed `%define` fails
here even where it is not active. -/
def emitLine (macros : List Macro) (line rest : List Byte) (s : PassTwo) : Outcome PassTwo :=
  if s.cond.active && (parseExprDirective "%error" line).isSome then .null
  else if s.cond.active && (parseExprDirective "%warning" line).isSome then
    .returns { s with rest }
  else
    match parseDefineDirective line with
    | none => .null
    | some define =>
      if s.cond.active then
        match define with
        | some (name, value) =>
          (Outcome.ofOption (defineSet s.defines name value)).bind fun defines =>
            .returns { s with rest, defines }
        | none =>
          (parseMacroDirective line).bind fun
            | some _ => .returns { s with rest := skipMacroBody rest.length rest }
            | none =>
              (expandLine macros s.defines s.macroCtx line).bind fun (text, macroCtx) =>
                .returns { s with rest, macroCtx, out := s.out ++ text }
      else .returns { s with rest }

def passTwoStep (macros : List Macro) (s : PassTwo) : Outcome PassTwo :=
  let (line, _, rest) := readLine s.rest
  (conditionalLine s.defines macros line s.cond).bind fun
    | some cond => .returns { s with rest, cond }
    | none => emitLine macros line rest s

def passTwo (macros : List Macro) (s : PassTwo) : Outcome PassTwo :=
  Loop.run (fun s => s.rest = []) (passTwoStep macros) s.rest.length s

/-- What the preprocessor reads of the context and of the file system; an empty value of a
command-line define counts as `1`. -/
structure PreprocessEnv extends IncludeEnv where
  currentFilename : Path
  cliDefines : List (Label × Text)

def seedDefine (defines : List Define) (d : Label × Text) : Option (List Define) :=
  defineSet defines d.1 (if d.2.bytes = [] then CString.lit _ "1" else d.2)

/-- The command-line defines, with which both passes start. -/
def seedDefines (env : PreprocessEnv) : Option (List Define) :=
  env.cliDefines.foldlM seedDefine []

/-- A pass ends well only when every conditional is closed. -/
def allClosed (c : Conditionals) : Bool := c.stack = []

/-- `preprocess_macros`, with the chain of open files that the context holds. -/
def preprocessMacros (env : PreprocessEnv) (tracker : List Path) (source : List Byte) :
    Outcome (List Byte) :=
  let baseDir := dirnameFromPath env.currentFilename
  match (expandIncludes env.toIncludeEnv (maxIncludeDepth + 1) baseDir source tracker).1 with
  | none => .null
  | some text =>
    (Outcome.ofOption (seedDefines env)).bind fun defines =>
      (passOne { rest := text, defines }).bind fun one =>
        if allClosed one.cond then
          (passTwo one.macros { rest := text, defines }).bind fun two =>
            if allClosed two.cond then .returns two.out else .null
        else .null

/-- `parse_source_with_context`, within a number of rounds of the parser's main loop. -/
def parseSourceWithContext (rounds : Nat) (env : PreprocessEnv) (tracker : List Path)
    (source : List Byte) : Option (Option (List ParsedInstruction)) :=
  match preprocessMacros env tracker (parserExpandTimesOnly source) with
  | .returns text => parseRounds rounds (parseStart text)
  | .null => some none
  | .diverges => none

end X86Assembler
