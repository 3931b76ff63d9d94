import X86Assembler.TimesStatements

namespace X86Assembler

open CString (Byte str isDigit isXDigit isSpace)

structure Identifier where
  bytes : List Byte
  start : bytes.head?.any isIdentifierStart = true
  chars : bytes.all isIdentifierChar = true
  fits : bytes.length < maxLineLength - 1

def Identifier.text (n : Identifier) : Text := CString.copyBounded _ n.bytes

def Identifier.label (n : Identifier) : Label := n.text.toLabel

/-- A number below `2^63`, in a base. -/
structure Literal where
  base : LiteralBase
  value : Nat
  fits : value < 2 ^ 63

def Literal.text (n : Literal) : List Byte := numberLiteral n.base n.value

def Literal.word (n : Literal) : Word := BitVec.ofNat 64 n.value

/-- A character between two marks, with a backslash where it needs one. -/
def escapeChar (mark b : Byte) : List Byte := if b = mark ∨ b = 0x5C#8 then [0x5C#8, b] else [b]

def charText (b : Byte) : List Byte := 0x27#8 :: (escapeChar 0x27#8 b ++ [0x27#8])

structure StringText where
  bytes : List Byte
  no_nul : 0 ∉ bytes
  fits : bytes.length < maxLineLength

def StringText.text (s : StringText) : Text := CString.copyBounded _ s.bytes

def StringText.quoted (s : StringText) : List Byte :=
  0x22#8 :: (s.bytes.flatMap (escapeChar 0x22#8) ++ [0x22#8])

def EndsName (more : List Byte) : Prop := ∀ b ∈ more.head?, isIdentifierChar b = false

/-- A text that does not start with white space or a comment. -/
def Solid (text : List Byte) : Prop := skipWhitespace text = text

theorem identifierStart_facts : ∀ b : Byte, isIdentifierStart b = true →
    b ≠ 0x3B#8 ∧ b ≠ 0x2F#8 ∧ b ≠ 0x0A#8 ∧ isSpace b = false ∧ punctuation b = none ∧
      b ≠ 0x27#8 ∧ b ≠ 0x22#8 ∧ isDigit b = false := by
  decide +kernel

theorem punctuation_facts : ∀ b : Byte, punctuation b ≠ none →
    b ≠ 0x3B#8 ∧ b ≠ 0x2F#8 ∧ b ≠ 0x0A#8 ∧ isSpace b = false := by
  decide +kernel

namespace Identifier

variable (n : Identifier)

theorem cons : ∃ b bs, n.bytes = b :: bs ∧ isIdentifierStart b = true := by
  have hstart := n.start
  cases hbytes : n.bytes with
  | nil =>
      rw [hbytes] at hstart
      cases hstart
  | cons b bs => exact ⟨b, bs, rfl, by simpa [hbytes] using hstart⟩

end Identifier

theorem lexString_text {room : Nat} {text more : List Byte} (hroom : text.length ≤ room) :
    lexString room (text.flatMap (escapeChar 0x22#8) ++ 0x22#8 :: more) = (text, more) := by
  induction text generalizing room with
  | nil =>
      cases room with
      | zero => rfl
      | succ room => rfl
  | cons b text ih =>
      cases room with
      | zero => cases hroom
      | succ room =>
          have hmore := @ih room (Nat.le_of_succ_le_succ hroom)
          rw [List.flatMap_cons, List.append_assoc, escapeChar]
          split
          · next hb =>
              have hescape : unescape b = b := by rcases hb with rfl | rfl <;> rfl
              rw [List.cons_append, List.singleton_append, lexString, hmore, hescape]
          · next hb =>
              rw [not_or] at hb
              rw [List.singleton_append, lexString, if_neg hb.1, hmore]
              exact fun _ _ h => absurd h hb.2

theorem lexChar_text (b : Byte) (more : List Byte) :
    lexChar (escapeChar 0x27#8 b ++ 0x27#8 :: more) = (b, more) := by
  rw [escapeChar]
  split
  · next hb => rcases hb with rfl | rfl <;> rfl
  · next hb =>
      rw [not_or] at hb
      rw [List.singleton_append, lexChar.eq_def]
      split
      · next heq =>
          cases heq
          exact absurd rfl hb.2
      · next heq =>
          cases heq
          rw [if_neg hb.1]
          rfl
      · next heq => cases heq

theorem Literal.length_text (n : Literal) : n.text.length < maxLineLength := by
  have hdigits : (numberDigits n.base.base n.value).length ≤ 63 := by
    rw [numberDigits, List.length_map,
      Nat.length_toDigits_le_iff (by cases n.base <;> decide) (by decide)]
    calc n.value < 2 ^ 63 := n.fits
      _ ≤ n.base.base ^ 63 := Nat.pow_le_pow_left (by cases n.base <;> decide) 63
  have hmark : n.base.mark.length ≤ 2 := by cases n.base <;> decide
  rw [Literal.text, numberLiteral, List.length_append]
  exact Nat.lt_of_le_of_lt (Nat.add_le_add hmark hdigits) (by decide)

theorem Literal.parseNumber (n : Literal) :
    parseNumber (CString.copyBounded maxLineLength n.text).bytes = n.word := by
  obtain ⟨w, hvalue, -, hw⟩ := parseNumber_run (literalValue_numberLiteral n.base n.value)
  have hsame := hw.mpr (.inl n.length_text)
  subst hsame
  rw [Literal.text, hvalue, Literal.word, Nat.min_eq_left (Nat.le_sub_one_of_lt n.fits)]

section Token

variable {source : List Byte} {k : Nat} {more : List Byte}

theorem solid_cons {b : Byte} (hsemicolon : b ≠ 0x3B#8) (hslash : b ≠ 0x2F#8)
    (hspace : isSpace b = false) (bs : List Byte) : Solid (b :: bs) := by
  rw [Solid, skipWhitespace, if_neg (by simp [hsemicolon, hslash])]
  split
  · rfl
  · rw [if_neg (by simp [hspace])]

theorem solid_newline (bs : List Byte) : Solid (0x0A#8 :: bs) := rfl

theorem solid_punctuation {b : Byte} (hb : punctuation b ≠ none) (bs : List Byte) :
    Solid (b :: bs) := by
  obtain ⟨hsemicolon, hslash, -, hspace⟩ := punctuation_facts b hb
  exact solid_cons hsemicolon hslash hspace bs

theorem solid_name (n : Identifier) (more : List Byte) : Solid (n.bytes ++ more) := by
  obtain ⟨b, bs, hbytes, hstart⟩ := n.cons
  obtain ⟨hsemicolon, hslash, -, hspace, -⟩ := identifierStart_facts b hstart
  rw [hbytes]
  exact solid_cons hsemicolon hslash hspace (bs ++ more)

theorem solid_number (n : Literal) {more : List Byte} (hmore : EndsNumber more) :
    Solid (n.text ++ more) := by
  obtain ⟨b, bs, hb, hbytes⟩ := (digitRun_numberLiteral n.base n.value hmore).cons
  obtain ⟨hsemicolon, hslash, -, hspace, -⟩ := digit_facts b hb
  rw [Literal.text, hbytes]
  exact solid_cons hsemicolon hslash hspace (bs ++ more)

theorem solid_char (b : Byte) (more : List Byte) : Solid (charText b ++ more) := rfl

theorem solid_string (s : StringText) (more : List Byte) : Solid (s.quoted ++ more) := rfl

theorem skipWhitespace_space {text : List Byte} (h : Solid text) :
    skipWhitespace (0x20#8 :: text) = text := h

theorem endsNumber_of_endsName {more : List Byte} (h : EndsName more) : EndsNumber more := by
  have hfacts : ∀ b : Byte, isIdentifierChar b = false →
      isXDigit b = false ∧ CString.toLower b ≠ 0x78#8 := by decide +kernel
  exact fun b hb => hfacts b (h b hb)

theorem endsName_cons {b : Byte} (hb : isIdentifierChar b = false) (more : List Byte) :
    EndsName (b :: more) := by
  intro c hc
  cases hc
  exact hb

theorem token_of_start {b : Byte} {bs : List Byte} (h : tokenStart source k = b :: bs)
    (hnewline : b ≠ 0x0A#8) : ∃ tok : Token, tokenAt source k = (lexToken tok b bs).1 ∧
      tokenStart source (k + 1) = skipWhitespace (lexToken tok b bs).2 := by
  rw [tokenStart] at h
  rw [tokenAt, tokenStart, lexerAt, nextToken, h]
  simp only [if_neg hnewline]
  exact ⟨_, rfl, rfl⟩

theorem token_newline (h : tokenStart source k = 0x0A#8 :: more) :
    (tokenAt source k).type = .newline ∧ tokenStart source (k + 1) = skipWhitespace more := by
  rw [tokenStart] at h
  rw [tokenAt, tokenStart, lexerAt, nextToken, h]
  exact ⟨rfl, rfl⟩

theorem token_eof (h : tokenStart source k = []) : (tokenAt source k).type = .eof := by
  rw [tokenStart] at h
  rw [tokenAt, nextToken, h]

theorem token_punctuation {b : Byte} {type : TokenType} (hb : punctuation b = some type)
    (h : tokenStart source k = b :: more) :
    (tokenAt source k).type = type ∧ tokenStart source (k + 1) = skipWhitespace more := by
  obtain ⟨-, -, hnewline, -⟩ := punctuation_facts b (by rw [hb]; exact Option.some_ne_none _)
  obtain ⟨tok, htoken, hrest⟩ := token_of_start h hnewline
  rw [lexToken, hb] at htoken hrest
  exact ⟨congrArg Token.type htoken, hrest⟩

theorem token_name (n : Identifier) (hmore : EndsName more)
    (h : tokenStart source k = n.bytes ++ more) : (tokenAt source k).type = .identifier ∧
      (tokenAt source k).text = n.text ∧ tokenStart source (k + 1) = skipWhitespace more := by
  obtain ⟨b, bs, hbytes, hstart⟩ := n.cons
  obtain ⟨-, -, hnewline, -, hpunct, hquote, hdouble, hdigit⟩ := identifierStart_facts b hstart
  have hlex : lexIdentifier (maxLineLength - 1) (b :: (bs ++ more)) = (n.bytes, more) := by
    rw [← List.cons_append, ← hbytes]
    exact lexIdentifier_word (List.all_eq_true.mp n.chars) hmore n.fits
  rw [hbytes, List.cons_append] at h
  obtain ⟨tok, htoken, hrest⟩ := token_of_start h hnewline
  simp only [lexToken, hpunct, if_neg hquote, if_neg hdouble, hdigit, Bool.false_eq_true, if_false,
    if_pos hstart, hlex] at htoken hrest
  rw [htoken]
  exact ⟨rfl, rfl, hrest⟩

theorem token_number (n : Literal) (hmore : EndsNumber more)
    (h : tokenStart source k = n.text ++ more) : (tokenAt source k).type = .number ∧
      (tokenAt source k).value = n.word ∧ tokenStart source (k + 1) = skipWhitespace more := by
  have hrun := digitRun_numberLiteral n.base n.value hmore
  obtain ⟨b, bs, hb, hbytes⟩ := hrun.cons
  obtain ⟨-, -, hnewline, -, hpunct, hquote, hdouble⟩ := digit_facts b hb
  have hlex : lexNumber (b :: (bs ++ more)) = (n.text, more) := by
    rw [← List.cons_append, ← hbytes]
    exact hrun.reads
  have hvalue := n.parseNumber
  rw [Literal.text, hbytes, List.cons_append] at h
  obtain ⟨tok, htoken, hrest⟩ := token_of_start h hnewline
  simp only [lexToken, hpunct, if_neg hquote, if_neg hdouble, if_pos hb, hlex, hvalue]
    at htoken hrest
  rw [htoken]
  exact ⟨rfl, rfl, hrest⟩

theorem token_char (b : Byte) (h : tokenStart source k = charText b ++ more) :
    (tokenAt source k).type = .char ∧ (tokenAt source k).value = b.setWidth 64 ∧
      tokenStart source (k + 1) = skipWhitespace more := by
  rw [charText, List.cons_append, List.append_assoc] at h
  obtain ⟨tok, htoken, hrest⟩ := token_of_start h (by decide)
  have hpunct : punctuation 0x27#8 = none := rfl
  have hlex := lexChar_text b more
  simp only [lexToken, hpunct, if_true, List.singleton_append, hlex] at htoken hrest
  rw [htoken]
  exact ⟨rfl, rfl, hrest⟩

theorem token_string (s : StringText) (h : tokenStart source k = s.quoted ++ more) :
    (tokenAt source k).type = .string ∧ (tokenAt source k).text = s.text ∧
      tokenStart source (k + 1) = skipWhitespace more := by
  rw [StringText.quoted, List.cons_append, List.append_assoc] at h
  obtain ⟨tok, htoken, hrest⟩ := token_of_start h (by decide)
  have hpunct : punctuation 0x22#8 = none := rfl
  have hquote : ¬ (0x22#8 : Byte) = 0x27#8 := by decide
  have hlex := @lexString_text (maxLineLength - 1) s.bytes more (Nat.le_sub_one_of_lt s.fits)
  simp only [lexToken, hpunct, if_neg hquote, if_true, List.singleton_append, hlex] at htoken hrest
  rw [htoken]
  exact ⟨rfl, rfl, hrest⟩

end Token

end X86Assembler
