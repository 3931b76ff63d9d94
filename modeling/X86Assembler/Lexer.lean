import X86Assembler.Types

namespace X86Assembler

open CString (Byte isAlpha isAlnum isDigit isXDigit isSpace toLower)

inductive TokenType
  | none | identifier | number | string | char
  | colon | comma | lbracket | rbracket | plus | minus | star | dollar
  | newline | eof
deriving DecidableEq

structure Token where
  type : TokenType := .none
  text : Text := CString.lit _ ""
  value : Word := 0
  line : Nat := 1
  column : Nat := 1
deriving DecidableEq

/-- The part of `parser_state_t` that reads characters. `rest` is the source from `pos` on
and `lineStart` the source from `line_start` on; the end of a list is the terminating NUL. -/
structure Lexer where
  rest : List Byte
  line : Nat := 1
  lineStart : List Byte
deriving DecidableEq

def Lexer.column (lx : Lexer) : Nat := lx.lineStart.length - lx.rest.length + 1

/-- A comment runs to the end of its line, whose newline stays. -/
def skipComment : List Byte → List Byte
  | [] => []
  | b :: bs => if b = 0x0A#8 then b :: bs else skipComment bs

def skipWhitespace : List Byte → List Byte
  | [] => []
  | b :: bs =>
    if b = 0x3B#8 || (b = 0x2F#8 && bs.head? = some 0x2F#8) then skipComment bs
    else if b = 0x0A#8 then b :: bs
    else if isSpace b then skipWhitespace bs
    else b :: bs

def digitValue (b : Byte) : Nat :=
  if isDigit b then (b - 0x30#8).toNat else (toLower b - 0x61#8).toNat + 10

/-- `strtoll` on a text of digits: the digits of the base up to the first that is not one,
cut off at the largest `int64_t`. -/
def strtoll (base : Nat) (text : List Byte) : Word :=
  let digits := text.takeWhile fun b => isXDigit b && digitValue b < base
  let value := digits.foldl (fun acc b => acc * base + digitValue b) 0
  BitVec.ofNat 64 (min value (2 ^ 63 - 1))

/-- The base that a number announces and the digits after its mark. -/
def numberBase (text : List Byte) : Nat × List Byte :=
  match text with
  | 0x30#8 :: b :: rest =>
    if toLower b = 0x78#8 then (16, rest)
    else if toLower b = 0x62#8 then (2, rest)
    else (10, text)
  | _ => (10, text)

def parseNumber (text : List Byte) : Word :=
  strtoll (numberBase text).1 (numberBase text).2

def punctuation (b : Byte) : Option TokenType :=
  if b = 0x3A#8 then some .colon
  else if b = 0x2C#8 then some .comma
  else if b = 0x5B#8 then some .lbracket
  else if b = 0x5D#8 then some .rbracket
  else if b = 0x2B#8 then some .plus
  else if b = 0x2D#8 then some .minus
  else if b = 0x2A#8 then some .star
  else if b = 0x24#8 then some .dollar
  else none

def unescape (b : Byte) : Byte :=
  if b = 0x6E#8 then 0x0A#8
  else if b = 0x74#8 then 0x09#8
  else if b = 0x72#8 then 0x0D#8
  else if b = 0x30#8 then 0
  else b

def dropQuote (quote : Byte) : List Byte → List Byte
  | [] => []
  | b :: bs => if b = quote then bs else b :: bs

/-- The character after an opening single quote, and what follows the literal. -/
def lexChar (bs : List Byte) : Byte × List Byte :=
  match bs with
  | 0x5C#8 :: b :: rest => (unescape b, dropQuote 0x27#8 rest)
  | b :: rest => if b = 0x27#8 then (0, rest) else (b, dropQuote 0x27#8 rest)
  | [] => (0, [])

/-- The characters of a string literal after its opening quote, at most `room` of them. -/
def lexString : Nat → List Byte → List Byte × List Byte
  | 0, bs => ([], dropQuote 0x22#8 bs)
  | _ + 1, [] => ([], [])
  | room + 1, 0x5C#8 :: b :: rest =>
    let (text, rest) := lexString room rest
    (unescape b :: text, rest)
  | room + 1, b :: rest =>
    if b = 0x22#8 then ([], rest)
    else
      let (text, rest) := lexString room rest
      (b :: text, rest)

def isIdentifierStart (b : Byte) : Bool :=
  isAlpha b || b = 0x5F#8 || b = 0x2E#8 || b = 0x40#8

def isIdentifierChar (b : Byte) : Bool := isAlnum b || b = 0x5F#8 || b = 0x2E#8 || b = 0x40#8

/-- The characters of an identifier, at most `room` of them. -/
def lexIdentifier : Nat → List Byte → List Byte × List Byte
  | 0, bs => ([], bs)
  | _ + 1, [] => ([], [])
  | room + 1, b :: bs =>
    if isIdentifierChar b then
      let (text, rest) := lexIdentifier room bs
      (b :: text, rest)
    else ([], b :: bs)

/-- The length of the `0x` or `0b` mark in front of a number. -/
def numberMark (bs : List Byte) : Nat :=
  match bs with
  | 0x30#8 :: b :: _ => if toLower b = 0x78#8 || toLower b = 0x62#8 then 2 else 0
  | _ => 0

def lexNumber (bs : List Byte) : List Byte × List Byte :=
  let mark := numberMark bs
  (bs.take mark ++ (bs.drop mark).takeWhile isXDigit, (bs.drop mark).dropWhile isXDigit)

/-- A token that starts at a character which is neither white space nor a newline. -/
def lexToken (tok : Token) (b : Byte) (bs : List Byte) : Token × List Byte :=
  match punctuation b with
  | some type => ({ tok with type := type }, bs)
  | none =>
    if b = 0x27#8 then
      let (ch, rest) := lexChar bs
      ({ tok with
        type := .char, text := CString.copyBounded _ [ch], value := ch.setWidth 64 }, rest)
    else if b = 0x22#8 then
      let (text, rest) := lexString (maxLineLength - 1) bs
      ({ tok with type := .string, text := CString.copyBounded _ text }, rest)
    else if isDigit b then
      let (digits, rest) := lexNumber (b :: bs)
      let text : Text := CString.copyBounded _ digits
      ({ tok with type := .number, text := text, value := parseNumber text.bytes }, rest)
    else if isIdentifierStart b then
      let (text, rest) := lexIdentifier (maxLineLength - 1) (b :: bs)
      ({ tok with type := .identifier, text := CString.copyBounded _ text }, rest)
    else (tok, bs)

/-- `next_token`. -/
def nextToken (lx : Lexer) : Token × Lexer :=
  let lx := { lx with rest := skipWhitespace lx.rest }
  let tok : Token := { line := lx.line, column := lx.column }
  match lx.rest with
  | [] => ({ tok with type := .eof }, lx)
  | b :: bs =>
    if b = 0x0A#8 then
      ({ tok with type := .newline }, { rest := bs, line := lx.line + 1, lineStart := bs })
    else
      let (tok, rest) := lexToken tok b bs
      (tok, { lx with rest := rest })

end X86Assembler
