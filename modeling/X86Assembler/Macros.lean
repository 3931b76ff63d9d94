import X86Assembler.Library.Loop
import X86Assembler.TimesExpansion

namespace X86Assembler

open CString (Byte str isAlpha isAlnum isSpace startsWithIgnoreCase eqIgnoreCase)

def maxMacros : Nat := 16
def maxMacroParams : Nat := 8
def maxMacroBodyLines : Nat := 16
def maxMacroExpansionDepth : Nat := 10

/-- `macro_t`; the `defined` flag is set in every entry below `macro_count`. -/
structure Macro where
  name : Label
  params : List Label := []
  body : List Text := []
deriving DecidableEq

def macroLookup (macros : List Macro) (name : List Byte) : Option Macro :=
  macros.find? fun m => eqIgnoreCase m.name.bytes name

/-- `is_macro_name`. -/
def isMacroName (macros : List Macro) (name : List Byte) : Bool := (macroLookup macros name).isSome

/-- `macro_define`: a new macro, unless there are too many or one of that name. -/
def macroDefine (macros : List Macro) (name : Label) : Option Macro :=
  if maxMacros ≤ macros.length then none
  else if isMacroName macros name.bytes then none
  else some { name }

def macroAddParam (m : Macro) (param : Label) : Macro :=
  if maxMacroParams ≤ m.params.length then m else { m with params := m.params ++ [param] }

def macroAddBodyLine (m : Macro) (line : List Byte) : Macro :=
  if maxMacroBodyLines ≤ m.body.length then m
  else { m with body := m.body ++ [CString.copyBounded _ line] }

/-- `pp_skip_ws`. -/
def skipSpaces (text : List Byte) : List Byte := text.dropWhile isSpace

def isIdentChar (b : Byte) : Bool := isAlnum b || b == 0x5F#8

def isMacroNameChar (b : Byte) : Bool := isIdentChar b || b == 0x2E#8

/-- A comma and the white space behind it, if there is one. -/
def skipComma (text : List Byte) : List Byte :=
  match text with
  | 0x2C#8 :: rest => skipSpaces rest
  | _ => text

/-- Where the loops over parameters and arguments stop: the end, a semicolon or a slash. -/
def endsList (text : List Byte) : Bool :=
  text = [] || text.head? = some 0x3B#8 || text.head? = some 0x2F#8

/-- The parameter loop of `parse_macro_directive`. A round that reads nothing repeats forever,
so that a loop that ends does so in fewer rounds than there are characters. -/
def macroParams : Nat → List Byte → List Label → Outcome (List Label)
  | 0, _, _ => .diverges
  | rounds + 1, text, params =>
    if endsList text || maxMacroParams ≤ params.length then .returns params
    else
      let text := skipComma text
      let name := (text.takeWhile isIdentChar).take (maxLabelLength - 1)
      let params := if name = [] then params else params ++ [CString.copyBounded _ name]
      macroParams rounds (skipComma (skipSpaces (text.drop name.length))) params

/-- The text after `.macro` or `macro` and white space. -/
def afterDotWord (word line : List Byte) : Option (List Byte) :=
  let text := skipSpaces line
  if startsWithIgnoreCase text (0x2E#8 :: word) then
    some (skipSpaces (text.drop (word.length + 1)))
  else if startsWithIgnoreCase text word then some (skipSpaces (text.drop word.length))
  else none

/-- `parse_macro_directive`: the name and the parameters. A directive without a name is
reported and then treated like any other line. -/
def parseMacroDirective (line : List Byte) : Outcome (Option (Label × List Label)) :=
  match afterDotWord (str "macro") line with
  | none => .returns none
  | some text =>
    let name := (text.takeWhile isMacroNameChar).take (maxLabelLength - 1)
    if name = [] then .returns none
    else
      let rest := skipSpaces (text.drop name.length)
      (macroParams (rest.length + 1) rest []).bind fun params =>
        .returns (some (CString.copyBounded _ name, params))

def isEndmDirective (line : List Byte) : Bool :=
  startsWithIgnoreCase (skipSpaces line) (str ".endm") ||
    startsWithIgnoreCase (skipSpaces line) (str "endm")

/-- The lines of a macro up to its `.endm`, whether there is one, and what follows. -/
def macroBody : Nat → List Byte → List (List Byte) × Bool × List Byte
  | 0, text => ([], false, text)
  | rounds + 1, text =>
    if text = [] then ([], false, [])
    else
      let (line, raw, rest) := readLine text
      if isEndmDirective raw then ([], true, rest)
      else
        let (lines, ended, rest) := macroBody rounds rest
        (line :: lines, ended, rest)

/-- What follows the `.endm` of a macro. -/
def skipMacroBody : Nat → List Byte → List Byte
  | 0, text => text
  | rounds + 1, text =>
    if text = [] then []
    else
      let (line, _, rest) := readLine text
      if isEndmDirective line then rest else skipMacroBody rounds rest

/-- The text that stands for a parameter reference, if the name is that of a parameter:
the first parameter of that name counts, and an argument that is not given is empty. -/
def paramValue (params : List Label) (args : List Text) (name : List Byte) :
    Option (List Byte) :=
  match params.findIdx? fun p => p.bytes == name with
  | some i => some ((args[i]?.map (·.bytes)).getD [])
  | none => none

/-- `substitute_params` with `room` characters left, passing over `skip` characters of a
reference that has been replaced. What does not fit is left out. -/
def substituteParams (params : List Label) (args : List Text) (counter : Nat) :
    Nat → Nat → List Byte → List Byte
  | _, _, [] => []
  | room, skip + 1, _ :: bs => substituteParams params args counter room skip bs
  | room, 0, b :: bs =>
    if room = 0 then []
    else
      let name := bs.takeWhile isIdentChar
      let value :=
        if (b = 0x5C#8 || b = 0x24#8) && name != [] then
          if b = 0x5C#8 && name = [0x40#8] then some (CString.decimal counter)
          else paramValue params args name
        else none
      match value with
      | some text =>
        let text := if text.length ≤ room then text else []
        text ++ substituteParams params args counter (room - text.length) name.length bs
      | none => b :: substituteParams params args counter (room - 1) 0 bs

/-- The part of `macro_expansion_context_t` that is read. -/
structure MacroContext where
  expansionDepth : Nat := 0
  localLabelCounter : Nat := 0
deriving DecidableEq

/-- A line of an expansion goes into a buffer of a certain size if it fits. -/
def appendExpanded (size : Nat) (out line : List Byte) : List Byte :=
  if out.length + line.length + 2 < size then out ++ line ++ [0x0A#8] else out

/-- `expand_macro`; the depth is the one before the call, and after it. -/
def expandMacro (macros : List Macro) (ctx : MacroContext) (name : List Byte) (args : List Text) :
    Option (List Byte × MacroContext) :=
  match macroLookup macros name with
  | none => none
  | some m =>
    if maxMacroExpansionDepth ≤ ctx.expansionDepth then none
    else
      let counter := ctx.localLabelCounter + 1
      let size := m.body.length * maxLineLength * 2
      let lines := m.body.map fun line =>
        substituteParams m.params args counter (maxLineLength * 2 - 1) 0 line.bytes
      some (lines.foldl (appendExpanded size) [], { ctx with localLabelCounter := counter })

/-- An argument of an invocation with at most `room` characters: up to a comma outside of
parentheses and brackets, or a comment. -/
def macroArg : Nat → Int → Int → List Byte → List Byte
  | 0, _, _, _ => []
  | _, _, _, [] => []
  | room + 1, parens, brackets, b :: bs =>
    if (b = 0x2C#8 && parens ≤ 0 && brackets ≤ 0) || b = 0x3B#8 ||
        (b = 0x2F#8 && bs.head? = some 0x2F#8) then []
    else
      let parens := if b = 0x28#8 then parens + 1 else if b = 0x29#8 then parens - 1 else parens
      let brackets :=
        if b = 0x5B#8 then brackets + 1 else if b = 0x5D#8 then brackets - 1 else brackets
      b :: macroArg room parens brackets bs

/-- The argument loop of `parse_macro_invocation`. -/
def macroArgs : Nat → List Byte → List Text → Outcome (List Text)
  | 0, _, _ => .diverges
  | rounds + 1, text, args =>
    if endsList text || maxMacroParams ≤ args.length then .returns args
    else
      let text := skipSpaces (skipComma text)
      let arg := macroArg (maxLineLength - 1) 0 0 text
      let args := if arg = [] then args else args ++ [CString.copyBounded _ (trimTrailingWs arg)]
      macroArgs rounds (skipComma (skipSpaces (text.drop arg.length))) args

/-- What follows the first colon of a line, or the line itself. -/
def afterLabel (text : List Byte) : List Byte :=
  if 0x3A#8 ∈ text then skipSpaces (text.dropWhile (· != 0x3A#8)).tail else text

/-- `parse_macro_invocation`: the name of a macro and its arguments. -/
def parseMacroInvocation (macros : List Macro) (line : List Byte) :
    Outcome (Option (List Byte × List Text)) :=
  let text := afterLabel (skipSpaces line)
  if text.head?.any (fun b => isAlpha b || b == 0x5F#8) then
    let name := (text.takeWhile isMacroNameChar).take (maxLabelLength - 1)
    if isMacroName macros name then
      let rest := skipSpaces (text.drop name.length)
      (macroArgs (rest.length + 1) rest []).bind fun args => .returns (some (name, args))
    else .returns none
  else .returns none

end X86Assembler
