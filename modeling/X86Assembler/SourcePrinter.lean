import X86Assembler.SourceGrammar
import X86Assembler.TokenSpelling

namespace X86Assembler

open CString (Byte str isXDigit isSpace eqIgnoreCase)

structure RegisterName extends Identifier where
  reg : Reg
  size : RegSize
  names : parseRegister toIdentifier.text = some (reg, size)

structure LabelName extends Identifier where
  free : parseRegister toIdentifier.text = none

structure SegmentName extends Identifier where
  names : parseSegmentOverrideName toIdentifier.text ≠ .default

inductive SourceTerm
  | reg (r : RegisterName)
  | scaled (r : RegisterName) (scale : Literal)
  | number (n : Literal)
  | label (n : LabelName)

namespace SourceTerm

def print : SourceTerm → List Byte
  | reg r => r.bytes
  | scaled r scale => r.bytes ++ 0x2A#8 :: scale.text
  | number n => n.text
  | label n => n.bytes

def meaning : SourceTerm → MemTerm
  | reg r => .reg r.reg r.size none
  | scaled r scale => .reg r.reg r.size (some scale.word)
  | number n => .num n.word
  | label n => .label n.text

end SourceTerm

def printSigned (t : Bool × SourceTerm) : List Byte :=
  (if t.1 then 0x2D#8 else 0x2B#8) :: t.2.print

def SourceTerm.signed (t : Bool × SourceTerm) : SignedTerm := (t.1, t.2.meaning)

inductive SourceBrackets
  | sum (first : SourceTerm) (more : List (Bool × SourceTerm))
  | absolute (n : Literal)

namespace SourceBrackets

def print : SourceBrackets → List Byte
  | sum first more => 0x5B#8 :: (first.print ++ (more.flatMap printSigned ++ [0x5D#8]))
  | absolute n => str "[abs " ++ (n.text ++ [0x5D#8])

def meaning : SourceBrackets → Option MemOperand
  | sum first more => sumOperand first.meaning (more.map SourceTerm.signed)
  | absolute n =>
    some { displacement := n.word.setWidth 32, hasDisplacement := true, isAbsolute := true }

end SourceBrackets

inductive SourceOperand
  | reg (r : RegisterName)
  | label (n : LabelName)
  | difference (lhs : LabelName) (rhs : Identifier)
  | number (n : Literal)
  | char (b : Byte)
  | dollarNumber (n : Literal)
  | dollarLabel (n : Identifier)
  | dollarDifference (lhs rhs : Identifier)
  | mem (m : SourceBrackets)
  | segment (seg : SegmentName) (m : SourceBrackets)
  | string (s : StringText)

namespace SourceOperand

def print : SourceOperand → List Byte
  | reg r => r.bytes
  | label n => n.bytes
  | difference lhs rhs => lhs.bytes ++ 0x2D#8 :: rhs.bytes
  | number n => n.text
  | char b => charText b
  | dollarNumber n => 0x24#8 :: n.text
  | dollarLabel n => 0x24#8 :: n.bytes
  | dollarDifference lhs rhs => 0x24#8 :: (lhs.bytes ++ 0x2D#8 :: rhs.bytes)
  | mem m => m.print
  | segment seg m => seg.bytes ++ 0x3A#8 :: m.print
  | string s => s.quoted

def meaning : SourceOperand → Option Operand
  | reg r => some (.reg r.reg r.size)
  | label n => some (.label n.label)
  | difference lhs rhs => some (.labelDiff lhs.label rhs.label)
  | number n => some (.imm n.word)
  | char b => some (.imm (b.setWidth 64))
  | dollarNumber n => some (.imm n.word)
  | dollarLabel n => some (.label n.label)
  | dollarDifference lhs rhs => some (.labelDiff lhs.label rhs.label)
  | mem m => m.meaning.map .mem
  | segment seg m => m.meaning.map fun mem =>
      .mem { mem with segmentOverride := parseSegmentOverrideName seg.text }
  | string s => some (.string s.text)

def firstName : SourceOperand → Option Identifier
  | reg r => some r.toIdentifier
  | label n | difference n _ => some n.toIdentifier
  | segment seg _ => some seg.toIdentifier
  | number _ | char _ | dollarNumber _ | dollarLabel _ | dollarDifference _ _ | mem _ | string _ =>
    none

end SourceOperand

/-- Operands with commas between them, up to the end of the line. -/
def printOperands : List SourceOperand → List Byte
  | [] => []
  | [op] => 0x20#8 :: op.print
  | op :: ops => 0x20#8 :: (op.print ++ 0x2C#8 :: printOperands ops)

def Identifier.isEqu (n : Identifier) : Bool := eqIgnoreCase n.text.bytes (str "equ")

/-- The first operand starts with the word `equ`. -/
def opensEqu (ops : List SourceOperand) : Bool :=
  (ops.head?.bind SourceOperand.firstName).any Identifier.isEqu

def printAlignment : Option Literal → List Byte
  | none => []
  | some n => 0x2C#8 :: 0x20#8 :: n.text

inductive SourceBody
  | empty
  | equ (name : Identifier) (op : SourceOperand)
  | shorthand (name : Identifier)
  | common (mnemonic name : Identifier) (size : Literal) (alignment : Option Literal)
  | operands (mnemonic : Identifier) (ops : List SourceOperand)

namespace SourceBody

def print : SourceBody → List Byte
  | empty => []
  | equ name op => name.bytes ++ (str " equ " ++ op.print)
  | shorthand name => name.bytes
  | common mnemonic name size alignment =>
    mnemonic.bytes ++
      0x20#8 :: (name.bytes ++ 0x2C#8 :: 0x20#8 :: (size.text ++ printAlignment alignment))
  | operands mnemonic ops => mnemonic.bytes ++ printOperands ops

/-- What a statement says behind its label, if it is well formed. -/
def meaning (label : Option Label) : SourceBody → Option WrittenStatement
  | empty => label.map fun name => ⟨some name, .nop, []⟩
  | equ name op => do
    let op ← op.meaning
    if op.isConstant then some ⟨some name.label, .equ, [op]⟩ else none
  | shorthand name =>
    if lookupInstructionType name.text = some .sectionDir ∧ isSectionKeyword name.text = false then
      some ⟨label, .sectionDir, [.label name.label]⟩
    else none
  | common mnemonic name size alignment => do
    let type ← lookupInstructionType mnemonic.text
    if (type = .comm ∨ type = .lcomm) ∧ name.isEqu = false then
      some ⟨label, type,
        .label name.label :: .imm size.word :: (alignment.map fun n => Operand.imm n.word).toList⟩
    else none
  | operands mnemonic ops => do
    let type ← lookupInstructionType mnemonic.text
    let os ← ops.mapM SourceOperand.meaning
    if (type ≠ .comm ∧ type ≠ .lcomm) ∧
        (type = .sectionDir → isSectionKeyword mnemonic.text = true) ∧
        opensEqu ops = false ∧ os.length ≤ maxOperands ∧
        sseShape (writtenType type os) os = true then
      some ⟨label, writtenType type os, os⟩
    else none

end SourceBody

structure SourceStatement where
  label : Option Identifier
  body : SourceBody

namespace SourceStatement

def print (s : SourceStatement) : List Byte :=
  match s.label with
  | none => s.body.print
  | some name => name.bytes ++ (str ": " ++ s.body.print)

def meaning (s : SourceStatement) : Option WrittenStatement :=
  s.body.meaning (s.label.map Identifier.label)

end SourceStatement

def printProgram (ss : List SourceStatement) : List Byte :=
  ss.flatMap fun s => s.print ++ [0x0A#8]

structure Behind (more : List Byte) : Prop where
  ends : EndsName more
  solid : Solid more

theorem behind_punctuation {b : Byte} (hb : punctuation b ≠ none) (more : List Byte) :
    Behind (b :: more) := by
  have hfacts : ∀ b : Byte, punctuation b ≠ none → isIdentifierChar b = false := by decide +kernel
  exact ⟨endsName_cons (hfacts b hb) more, solid_punctuation hb more⟩

theorem behind_newline (more : List Byte) : Behind (0x0A#8 :: more) :=
  ⟨endsName_cons rfl more, solid_newline more⟩

theorem Behind.number {more : List Byte} (h : Behind more) : EndsNumber more :=
  endsNumber_of_endsName h.ends

section Print

variable {source : List Byte} {k : Nat} {more : List Byte}

theorem name_behind (n : Identifier) (hmore : Behind more)
    (h : tokenStart source k = n.bytes ++ more) : (tokenAt source k).type = .identifier ∧
      (tokenAt source k).text = n.text ∧ tokenStart source (k + 1) = more := by
  obtain ⟨htype, htext, hnext⟩ := token_name n hmore.ends h
  exact ⟨htype, htext, hnext.trans hmore.solid⟩

theorem number_behind (n : Literal) (hmore : Behind more)
    (h : tokenStart source k = n.text ++ more) : (tokenAt source k).type = .number ∧
      (tokenAt source k).value = n.word ∧ tokenStart source (k + 1) = more := by
  obtain ⟨htype, hvalue, hnext⟩ := token_number n hmore.number h
  exact ⟨htype, hvalue, hnext.trans hmore.solid⟩

theorem mark_behind {b : Byte} (type : TokenType) (hb : punctuation b = some type)
    (hmore : Solid more) (h : tokenStart source k = b :: more) :
    (tokenAt source k).type = type ∧ tokenStart source (k + 1) = more := by
  obtain ⟨htype, hnext⟩ := token_punctuation hb h
  exact ⟨htype, hnext.trans hmore⟩

theorem termAt_print (t : SourceTerm) (hmore : Behind more)
    (h : tokenStart source k = t.print ++ more) :
    ∃ j, TermAt source k t.meaning j ∧ tokenStart source j = more := by
  cases t with
  | reg r =>
      obtain ⟨htype, htext, hnext⟩ := name_behind r.toIdentifier hmore h
      exact ⟨k + 1, .reg htype (by rw [htext, r.names]), hnext⟩
  | scaled r scale =>
      rw [SourceTerm.print, List.append_assoc, List.cons_append] at h
      obtain ⟨htype, htext, hnext⟩ := name_behind r.toIdentifier (behind_punctuation (by decide) _) h
      obtain ⟨hstar, hnext⟩ := mark_behind .star rfl (solid_number scale hmore.number) hnext
      obtain ⟨hnumber, hvalue, hnext⟩ := number_behind scale hmore hnext
      exact ⟨k + 3, .scaled_of htype (by rw [htext, r.names]) hstar ⟨hnumber, hvalue⟩, hnext⟩
  | number n =>
      obtain ⟨htype, hvalue, hnext⟩ := number_behind n hmore h
      exact ⟨k + 1, .num_of ⟨htype, hvalue⟩, hnext⟩
  | label n =>
      obtain ⟨htype, htext, hnext⟩ := name_behind n.toIdentifier hmore h
      refine ⟨k + 1, ?_, hnext⟩
      rw [SourceTerm.meaning, ← htext]
      exact .label htype (by rw [htext, n.free])

theorem solid_term (t : SourceTerm) (hmore : Behind more) : Solid (t.print ++ more) := by
  cases t with
  | reg r => exact solid_name r.toIdentifier more
  | scaled r scale =>
      rw [SourceTerm.print, List.append_assoc]
      exact solid_name r.toIdentifier _
  | number n => exact solid_number n hmore.number
  | label n => exact solid_name n.toIdentifier more

theorem behind_signed (terms : List (Bool × SourceTerm)) (more : List Byte) :
    Behind (terms.flatMap printSigned ++ 0x5D#8 :: more) := by
  cases terms with
  | nil => exact behind_punctuation (by decide) more
  | cons t terms =>
      rw [List.flatMap_cons, printSigned, List.cons_append, List.cons_append]
      exact behind_punctuation (by cases t.1 <;> decide) _

theorem termsAt_print (terms : List (Bool × SourceTerm))
    (h : tokenStart source k = terms.flatMap printSigned ++ 0x5D#8 :: more) :
    ∃ j, TermsAt source k (terms.map SourceTerm.signed) j ∧ tokenStart source j = 0x5D#8 :: more := by
  induction terms generalizing k with
  | nil => exact ⟨k, .close (token_punctuation rfl h).1, h⟩
  | cons t terms ih =>
      obtain ⟨negative, t⟩ := t
      rw [List.flatMap_cons, List.append_assoc, printSigned, List.cons_append] at h
      have hmore := behind_signed terms more
      cases negative with
      | false =>
          obtain ⟨hsign, hnext⟩ := mark_behind .plus rfl (solid_term t hmore) h
          obtain ⟨j, hterm, hnext⟩ := termAt_print t hmore hnext
          obtain ⟨m, hterms, hnext⟩ := ih hnext
          exact ⟨m, .plus hsign hterm hterms, hnext⟩
      | true =>
          obtain ⟨hsign, hnext⟩ := mark_behind .minus rfl (solid_term t hmore) h
          obtain ⟨j, hterm, hnext⟩ := termAt_print t hmore hnext
          obtain ⟨m, hterms, hnext⟩ := ih hnext
          exact ⟨m, .minus hsign hterm hterms, hnext⟩

/-- The word `abs`. -/
def absWord : Identifier := ⟨str "abs", by decide, by decide, by decide⟩

theorem bracketsAt_print (m : SourceBrackets) {mem : MemOperand} (hmem : m.meaning = some mem)
    (hmore : Solid more) (h : tokenStart source k = m.print ++ more) :
    ∃ j, BracketsAt source k mem j ∧ tokenStart source j = more := by
  cases m with
  | sum first terms =>
      rw [SourceBrackets.print, List.cons_append, List.append_assoc, List.append_assoc,
        List.singleton_append] at h
      have hbehind := behind_signed terms more
      obtain ⟨hopen, hnext⟩ := mark_behind .lbracket rfl (solid_term first hbehind) h
      obtain ⟨i, hfirst, hnext⟩ := termAt_print first hbehind hnext
      obtain ⟨j, hterms, hnext⟩ := termsAt_print terms hnext
      obtain ⟨-, hnext⟩ := mark_behind .rbracket rfl hmore hnext
      exact ⟨j + 1, .sum hopen hfirst hterms hmem, hnext⟩
  | absolute n =>
      cases hmem
      have hclose := @behind_punctuation 0x5D#8 (by decide) more
      have hsplit : SourceBrackets.print (.absolute n) ++ more =
          0x5B#8 :: (absWord.bytes ++ 0x20#8 :: (n.text ++ 0x5D#8 :: more)) := by
        simp only [SourceBrackets.print, List.append_assoc, List.singleton_append]
        rfl
      rw [hsplit] at h
      obtain ⟨hopen, hnext⟩ := mark_behind .lbracket rfl (solid_name absWord _) h
      obtain ⟨htype, htext, hnext⟩ := token_name absWord (endsName_cons rfl _) hnext
      rw [skipWhitespace_space (solid_number n hclose.number)] at hnext
      obtain ⟨hnumber, hvalue, hnext⟩ := number_behind n hclose hnext
      obtain ⟨hbracket, hnext⟩ := mark_behind .rbracket rfl hmore hnext
      refine ⟨k + 4, ?_, hnext⟩
      rw [← hvalue]
      exact .absolute hopen htype (by rw [htext]; decide) hnumber hbracket

def EndsOperand (more : List Byte) : Prop :=
  ∃ b rest, more = b :: rest ∧ (b = 0x2C#8 ∨ b = 0x0A#8)

theorem EndsOperand.behind (h : EndsOperand more) : Behind more := by
  obtain ⟨b, rest, rfl, rfl | rfl⟩ := h
  · exact behind_punctuation (by decide) rest
  · exact behind_newline rest

theorem EndsOperand.type (h : EndsOperand more) (hstart : tokenStart source k = more) :
    (tokenAt source k).type = .comma ∨ (tokenAt source k).type = .newline := by
  obtain ⟨b, rest, rfl, rfl | rfl⟩ := h
  · exact .inl (token_punctuation rfl hstart).1
  · exact .inr (token_newline hstart).1

theorem EndsOperand.type_ne {type : TokenType} (h : EndsOperand more)
    (hstart : tokenStart source k = more) (hcomma : type ≠ .comma) (hnewline : type ≠ .newline) :
    (tokenAt source k).type ≠ type := by
  rintro rfl
  rcases h.type hstart with h | h
  · exact hcomma h
  · exact hnewline h

theorem nameAt_label (n : Identifier) (hmore : EndsOperand more)
    (h : tokenStart source k = n.bytes ++ more) :
    NameAt source k (.label n.label) (k + 1) ∧ tokenStart source (k + 1) = more := by
  obtain ⟨htype, htext, hnext⟩ := name_behind n hmore.behind h
  refine ⟨?_, hnext⟩
  rw [Identifier.label, ← htext]
  exact .label htype fun hminus => absurd hminus (hmore.type_ne hnext (by decide) (by decide))

theorem nameAt_difference (lhs rhs : Identifier) (hmore : EndsOperand more)
    (h : tokenStart source k = lhs.bytes ++ 0x2D#8 :: (rhs.bytes ++ more)) :
    NameAt source k (.labelDiff lhs.label rhs.label) (k + 3) ∧
      (tokenAt source (k + 1)).type = .minus ∧ tokenStart source (k + 3) = more := by
  obtain ⟨hleft, hltext, hnext⟩ := name_behind lhs (behind_punctuation (by decide) _) h
  obtain ⟨hminus, hnext⟩ := mark_behind .minus rfl (solid_name rhs more) hnext
  obtain ⟨hright, hrtext, hnext⟩ := name_behind rhs hmore.behind hnext
  refine ⟨?_, hminus, hnext⟩
  rw [Identifier.label, Identifier.label, ← hltext, ← hrtext]
  exact .difference hleft hminus hright

theorem solid_brackets (m : SourceBrackets) (more : List Byte) : Solid (m.print ++ more) := by
  cases m with
  | sum first terms => exact solid_punctuation (by decide) _
  | absolute n => exact solid_punctuation (by decide) _

theorem solid_operand (op : SourceOperand) (hmore : Behind more) : Solid (op.print ++ more) := by
  cases op with
  | reg r => exact solid_name r.toIdentifier more
  | label n => exact solid_name n.toIdentifier more
  | difference lhs rhs =>
      rw [SourceOperand.print, List.append_assoc]
      exact solid_name lhs.toIdentifier _
  | number n => exact solid_number n hmore.number
  | char b => exact solid_char b more
  | dollarNumber n => exact solid_punctuation (by decide) _
  | dollarLabel n => exact solid_punctuation (by decide) _
  | dollarDifference lhs rhs => exact solid_punctuation (by decide) _
  | mem m => exact solid_brackets m more
  | segment seg m =>
      rw [SourceOperand.print, List.append_assoc]
      exact solid_name seg.toIdentifier _
  | string s => exact solid_string s more

theorem operandAt_print (op : SourceOperand) {o : Operand} (ho : op.meaning = some o)
    (hmore : EndsOperand more) (h : tokenStart source k = op.print ++ more) :
    ∃ j, OperandAt source k o j ∧ tokenStart source j = more := by
  have hbehind := hmore.behind
  cases op with
  | reg r =>
      cases ho
      obtain ⟨htype, htext, hnext⟩ := name_behind r.toIdentifier hbehind h
      exact ⟨k + 1, .reg htype (hmore.type_ne hnext (by decide) (by decide)) (by rw [htext, r.names]),
        hnext⟩
  | label n =>
      cases ho
      have htext := (name_behind n.toIdentifier hbehind h).2.1
      obtain ⟨hname, hnext⟩ := nameAt_label n.toIdentifier hmore h
      exact ⟨k + 1, .name (hmore.type_ne hnext (by decide) (by decide)) (by rw [htext, n.free]) hname,
        hnext⟩
  | difference lhs rhs =>
      cases ho
      rw [SourceOperand.print, List.append_assoc, List.cons_append] at h
      have htext := (name_behind lhs.toIdentifier (behind_punctuation (by decide) _) h).2.1
      obtain ⟨hname, hminus, hnext⟩ := nameAt_difference lhs.toIdentifier rhs hmore h
      exact ⟨k + 3, .name (by rw [hminus]; decide) (by rw [htext, lhs.free]) hname, hnext⟩
  | number n =>
      cases ho
      obtain ⟨htype, hvalue, hnext⟩ := number_behind n hbehind h
      rw [← hvalue]
      exact ⟨k + 1, .number (.inl htype), hnext⟩
  | char b =>
      cases ho
      obtain ⟨htype, hvalue, hnext⟩ := token_char b h
      rw [← hvalue]
      exact ⟨k + 1, .number (.inr htype), hnext.trans hbehind.solid⟩
  | dollarNumber n =>
      cases ho
      obtain ⟨hdollar, hnext⟩ := mark_behind .dollar rfl (solid_number n hbehind.number) h
      obtain ⟨htype, hvalue, hnext⟩ := number_behind n hbehind hnext
      rw [← hvalue]
      exact ⟨k + 2, .dollarNumber hdollar htype, hnext⟩
  | dollarLabel n =>
      cases ho
      obtain ⟨hdollar, hnext⟩ := mark_behind .dollar rfl (solid_name n more) h
      obtain ⟨hname, hnext⟩ := nameAt_label n hmore hnext
      exact ⟨k + 2, .dollarName hdollar hname, hnext⟩
  | dollarDifference lhs rhs =>
      cases ho
      rw [SourceOperand.print, List.cons_append, List.append_assoc, List.cons_append] at h
      obtain ⟨hdollar, hnext⟩ := mark_behind .dollar rfl (solid_name lhs _) h
      obtain ⟨hname, -, hnext⟩ := nameAt_difference lhs rhs hmore hnext
      exact ⟨k + 4, .dollarName hdollar hname, hnext⟩
  | mem m =>
      obtain ⟨mem, hmem, rfl⟩ := Option.map_eq_some_iff.mp ho
      obtain ⟨j, hbrackets, hnext⟩ := bracketsAt_print m hmem hbehind.solid h
      exact ⟨j, .mem hbrackets, hnext⟩
  | segment seg m =>
      obtain ⟨mem, hmem, rfl⟩ := Option.map_eq_some_iff.mp ho
      rw [SourceOperand.print, List.append_assoc, List.cons_append] at h
      obtain ⟨htype, htext, hnext⟩ := name_behind seg.toIdentifier (behind_punctuation (by decide) _) h
      obtain ⟨hcolon, hnext⟩ := mark_behind .colon rfl (solid_brackets m more) hnext
      obtain ⟨j, hbrackets, hnext⟩ := bracketsAt_print m hmem hbehind.solid hnext
      rw [← htext]
      exact ⟨j, .segment htype (by rw [htext]; exact seg.names) hcolon hbrackets, hnext⟩
  | string s =>
      cases ho
      obtain ⟨htype, htext, hnext⟩ := token_string s h
      rw [hbehind.solid] at hnext
      refine ⟨k + 1, .string htype ?_, hnext⟩
      rw [htext]
      exact .done (hmore.type_ne hnext (by decide) (by decide))

theorem OperandAt.ne_colon {op : Operand} {j : Nat} (h : OperandAt source k op j) :
    (tokenAt source k).type ≠ .colon := by
  have hne : ∀ type, (tokenAt source k).type = type → type ≠ .colon →
      (tokenAt source k).type ≠ .colon := fun type htype hcolon => htype ▸ hcolon
  cases h with
  | reg h => exact hne _ h (by decide)
  | name _ _ h => exact hne _ h.head (by decide)
  | number h => rcases h with h | h <;> exact hne _ h (by decide)
  | dollarNumber h => exact hne _ h (by decide)
  | dollarName h => exact hne _ h (by decide)
  | mem h => exact hne _ h.head (by decide)
  | segment h => exact hne _ h (by decide)
  | string h => exact hne _ h (by decide)

theorem printOperands_cons (op : SourceOperand) (ops : List SourceOperand) (more : List Byte) :
    ∃ rest, printOperands (op :: ops) ++ 0x0A#8 :: more = 0x20#8 :: (op.print ++ rest) ∧
      EndsOperand rest ∧ (ops = [] ∧ rest = 0x0A#8 :: more ∨
        ops ≠ [] ∧ rest = 0x2C#8 :: (printOperands ops ++ 0x0A#8 :: more)) := by
  cases ops with
  | nil => exact ⟨0x0A#8 :: more, rfl, ⟨_, _, rfl, .inr rfl⟩, .inl ⟨rfl, rfl⟩⟩
  | cons op' ops =>
      refine ⟨0x2C#8 :: (printOperands (op' :: ops) ++ 0x0A#8 :: more), ?_, ⟨_, _, rfl, .inl rfl⟩,
        .inr ⟨List.cons_ne_nil _ _, rfl⟩⟩
      rw [printOperands, List.cons_append, List.append_assoc, List.cons_append]
      exact List.cons_ne_nil _ _

theorem operandsAt_print {ops : List SourceOperand} {os : List Operand}
    (hos : ops.mapM SourceOperand.meaning = some os)
    (h : tokenStart source k = skipWhitespace (printOperands ops ++ 0x0A#8 :: more)) :
    ∃ j, OperandsAt source k os j ∧ tokenStart source j = 0x0A#8 :: more := by
  induction ops generalizing k os with
  | nil =>
      cases hos
      exact ⟨k, .done (.inl (token_newline h).1), h⟩
  | cons op ops ih =>
      rw [List.mapM_cons] at hos
      obtain ⟨o, ho, hos⟩ := Option.bind_eq_some_iff.mp hos
      obtain ⟨os', hos', heq⟩ := Option.bind_eq_some_iff.mp hos
      cases heq
      obtain ⟨rest, hprint, hends, hrest⟩ := printOperands_cons op ops more
      rw [hprint, skipWhitespace_space (solid_operand op hends.behind)] at h
      obtain ⟨i, hop, hnext⟩ := operandAt_print op ho hends h
      rcases hrest with ⟨rfl, rfl⟩ | ⟨hne, rfl⟩
      · cases hos'
        have hnewline := (token_newline hnext).1
        exact ⟨i, .next hop (by rw [hnewline]; decide) (.done (.inl hnewline)), hnext⟩
      · obtain ⟨hcomma, hnext⟩ := token_punctuation rfl hnext
        obtain ⟨j, hops, hnext⟩ := ih hos' hnext
        exact ⟨j, .comma hop hcomma hops, hnext⟩

theorem not_equ_of_name (n : Identifier) (hmore : EndsName more) (hequ : n.isEqu = false)
    (h : tokenStart source (k + 1) = n.bytes ++ more) : ¬ EquNext source k := by
  rintro ⟨-, hnext⟩
  rw [(token_name n hmore h).2.1] at hnext
  exact absurd (hequ.symm.trans hnext) (by decide)

theorem mark_endsName {b : Byte} (hb : punctuation b ≠ none) (more : List Byte) :
    EndsName (b :: more) := (behind_punctuation hb more).ends

theorem not_equ_of_operand {op : SourceOperand} {o : Operand} (ho : op.meaning = some o)
    (hmore : EndsOperand more) (hequ : op.firstName.any Identifier.isEqu = false)
    (h : tokenStart source (k + 1) = op.print ++ more) : ¬ EquNext source k := by
  have hends := hmore.behind.ends
  have htype : ∀ type, (tokenAt source (k + 1)).type = type → type ≠ .identifier →
      ¬ EquNext source k := by
    rintro type rfl hne ⟨hname, -⟩
    exact hne hname
  cases op with
  | reg r => exact not_equ_of_name r.toIdentifier hends hequ h
  | label n => exact not_equ_of_name n.toIdentifier hends hequ h
  | difference lhs rhs =>
      rw [SourceOperand.print, List.append_assoc] at h
      exact not_equ_of_name lhs.toIdentifier (mark_endsName (by decide) _) hequ h
  | segment seg m =>
      rw [SourceOperand.print, List.append_assoc] at h
      exact not_equ_of_name seg.toIdentifier (mark_endsName (by decide) _) hequ h
  | number n => exact htype _ (token_number n hmore.behind.number h).1 (by decide)
  | char b => exact htype _ (token_char b h).1 (by decide)
  | dollarNumber n => exact htype .dollar (token_punctuation rfl h).1 (by decide)
  | dollarLabel n => exact htype .dollar (token_punctuation rfl h).1 (by decide)
  | dollarDifference lhs rhs => exact htype .dollar (token_punctuation rfl h).1 (by decide)
  | mem m =>
      obtain ⟨mem, hmem, rfl⟩ := Option.map_eq_some_iff.mp ho
      obtain ⟨j, hbrackets, -⟩ := bracketsAt_print m hmem hmore.behind.solid h
      exact htype _ hbrackets.head (by decide)
  | string s => exact htype _ (token_string s h).1 (by decide)

theorem operandsAt_head {ops : List SourceOperand} {os : List Operand}
    (hos : ops.mapM SourceOperand.meaning = some os) (hequ : opensEqu ops = false)
    (h : tokenStart source (k + 1) = skipWhitespace (printOperands ops ++ 0x0A#8 :: more)) :
    ¬ EquNext source k ∧ (tokenAt source (k + 1)).type ≠ .colon := by
  cases ops with
  | nil =>
      have hnewline := (token_newline h).1
      exact ⟨fun hnext => absurd (hnewline.symm.trans hnext.1) (by decide), by rw [hnewline]; decide⟩
  | cons op ops =>
      rw [List.mapM_cons] at hos
      obtain ⟨o, ho, -⟩ := Option.bind_eq_some_iff.mp hos
      obtain ⟨rest, hprint, hends, -⟩ := printOperands_cons op ops more
      rw [hprint, skipWhitespace_space (solid_operand op hends.behind)] at h
      obtain ⟨j, hop, -⟩ := operandAt_print op ho hends h
      exact ⟨not_equ_of_operand ho hends hequ h, hop.ne_colon⟩

theorem endsName_operands (ops : List SourceOperand) (more : List Byte) :
    EndsName (printOperands ops ++ 0x0A#8 :: more) := by
  cases ops with
  | nil => exact endsName_cons rfl more
  | cons op ops =>
      obtain ⟨rest, hprint, -⟩ := printOperands_cons op ops more
      rw [hprint]
      exact endsName_cons rfl _

/-- The word `equ`. -/
def equWord : Identifier := ⟨str "equ", by decide, by decide, by decide⟩

/-- A body that starts with a name is read as the statement it means. -/
structure ReadsBody (source : List Byte) (k : Nat) (label : Option Label) (s : WrittenStatement)
    (more : List Byte) : Prop where
  body : ∃ j, BodyAt source label k s j ∧ tokenStart source j = 0x0A#8 :: more
  name : (tokenAt source k).type = .identifier
  colon : (tokenAt source (k + 1)).type ≠ .colon

theorem endsOperand_newline (more : List Byte) : EndsOperand (0x0A#8 :: more) :=
  ⟨_, _, rfl, .inr rfl⟩

variable {label : Option Label} {s : WrittenStatement}

theorem readsBody_equ (name : Identifier) (op : SourceOperand)
    (hs : SourceBody.meaning label (.equ name op) = some s)
    (h : tokenStart source k = SourceBody.print (.equ name op) ++ 0x0A#8 :: more) :
    ReadsBody source k label s more := by
  obtain ⟨o, ho, hs⟩ := Option.bind_eq_some_iff.mp hs
  split at hs
  · next hconstant =>
      cases hs
      have hends := endsOperand_newline more
      have hsolid := solid_operand op hends.behind
      have hsplit : SourceBody.print (.equ name op) ++ 0x0A#8 :: more =
          name.bytes ++ 0x20#8 :: (equWord.bytes ++ 0x20#8 :: (op.print ++ 0x0A#8 :: more)) := by
        simp only [SourceBody.print, List.append_assoc]
        rfl
      rw [hsplit] at h
      obtain ⟨htype, htext, hnext⟩ := token_name name (endsName_cons rfl _) h
      rw [skipWhitespace_space (solid_name equWord _)] at hnext
      obtain ⟨hequ, hword, hnext⟩ := token_name equWord (endsName_cons rfl _) hnext
      rw [skipWhitespace_space hsolid] at hnext
      obtain ⟨j, hop, hnext⟩ := operandAt_print op ho hends hnext
      refine ⟨⟨j, ?_, hnext⟩, htype, by rw [hequ]; decide⟩
      rw [Identifier.label, ← htext]
      exact .equ htype ⟨hequ, by rw [hword]; decide⟩ hop hconstant
  · cases hs

theorem readsBody_shorthand (name : Identifier)
    (hs : SourceBody.meaning label (.shorthand name) = some s)
    (h : tokenStart source k = SourceBody.print (.shorthand name) ++ 0x0A#8 :: more) :
    ReadsBody source k label s more := by
  rw [SourceBody.meaning] at hs
  split at hs
  · next hkeyword =>
      cases hs
      obtain ⟨htype, htext, hnext⟩ := token_name name (endsName_cons rfl _) h
      have hnewline := (token_newline hnext).1
      rw [← htext] at hkeyword
      refine ⟨⟨k + 1, ?_, hnext⟩, htype, by rw [hnewline]; decide⟩
      rw [Identifier.label, ← htext]
      exact .shorthand htype hkeyword.1 hkeyword.2 (.inl hnewline)
  · cases hs

theorem readsBody_operands (mnemonic : Identifier) (ops : List SourceOperand)
    (hs : SourceBody.meaning label (.operands mnemonic ops) = some s)
    (h : tokenStart source k = SourceBody.print (.operands mnemonic ops) ++ 0x0A#8 :: more) :
    ReadsBody source k label s more := by
  obtain ⟨type, hlookup, hs⟩ := Option.bind_eq_some_iff.mp hs
  obtain ⟨os, hos, hs⟩ := Option.bind_eq_some_iff.mp hs
  split at hs
  · next hfits =>
      obtain ⟨hcommon, hkeyword, hequ, hroom, hsse⟩ := hfits
      cases hs
      rw [SourceBody.print, List.append_assoc] at h
      obtain ⟨htype, htext, hnext⟩ := token_name mnemonic (endsName_operands ops more) h
      obtain ⟨hnot, hcolon⟩ := operandsAt_head hos hequ hnext
      obtain ⟨j, hops, hnext⟩ := operandsAt_print hos hnext
      rw [← htext] at hlookup hkeyword
      exact ⟨⟨j, .operands htype hnot hlookup hcommon hkeyword hops hroom hsse, hnext⟩, htype, hcolon⟩
  · cases hs

theorem commonAt_size (name : Identifier) (size : Literal) (hmore : Behind more)
    (h : tokenStart source k = name.bytes ++ 0x2C#8 :: 0x20#8 :: (size.text ++ more)) :
    (tokenAt source k).type = .identifier ∧ (tokenAt source k).text = name.text ∧
      k + 2 = behindComma source (k + 1) ∧ (tokenAt source (k + 2)).type = .number ∧
      (tokenAt source (k + 2)).value = size.word ∧ tokenStart source (k + 3) = more := by
  obtain ⟨htype, htext, hnext⟩ := name_behind name (behind_punctuation (by decide) _) h
  obtain ⟨hcomma, hnext⟩ := token_punctuation rfl hnext
  rw [skipWhitespace_space (solid_number size hmore.number)] at hnext
  obtain ⟨hnumber, hvalue, hnext⟩ := number_behind size hmore hnext
  rw [behindComma, if_pos hcomma]
  exact ⟨htype, htext, rfl, hnumber, hvalue, hnext⟩

theorem readsBody_common (mnemonic name : Identifier) (size : Literal) (alignment : Option Literal)
    (hs : SourceBody.meaning label (.common mnemonic name size alignment) = some s)
    (h : tokenStart source k =
      SourceBody.print (.common mnemonic name size alignment) ++ 0x0A#8 :: more) :
    ReadsBody source k label s more := by
  obtain ⟨type, hlookup, hs⟩ := Option.bind_eq_some_iff.mp hs
  split at hs
  · next hfits =>
      obtain ⟨hcommon, hequ⟩ := hfits
      cases hs
      have hmore : Behind (printAlignment alignment ++ 0x0A#8 :: more) := by
        cases alignment with
        | none => exact behind_newline more
        | some n => exact behind_punctuation (by decide) _
      rw [SourceBody.print, List.append_assoc, List.cons_append, List.append_assoc, List.cons_append,
        List.cons_append, List.append_assoc] at h
      obtain ⟨htype, htext, hnext⟩ := token_name mnemonic (endsName_cons rfl _) h
      rw [skipWhitespace_space (solid_name name _)] at hnext
      have hnot := not_equ_of_name name (mark_endsName (by decide) _) hequ hnext
      obtain ⟨hname, hlabel, hcomma, hsize, hvalue, hnext⟩ := commonAt_size name size hmore hnext
      have hcolon : (tokenAt source (k + 1)).type ≠ .colon := by
        rw [hname]
        decide
      rw [← htext] at hlookup
      rw [Identifier.label, ← hlabel, ← hvalue]
      cases alignment with
      | none =>
          have hnewline := (token_newline hnext).1
          have hat := CommonAt.size hname hcomma hsize (by rw [hnewline]; decide)
          exact ⟨⟨k + 4, .common htype hnot hlookup hcommon hat, hnext⟩, htype, hcolon⟩
      | some n =>
          obtain ⟨hmark, hnext⟩ := token_punctuation rfl hnext
          have hbehind := behind_newline more
          have hspace := hnext.trans (skipWhitespace_space (solid_number n hbehind.number))
          obtain ⟨halign, hnumber, hnext⟩ := number_behind n hbehind hspace
          have hat := CommonAt.aligned hname hcomma hsize hmark halign
          rw [hnumber] at hat
          exact ⟨⟨k + 6, .common htype hnot hlookup hcommon hat, hnext⟩, htype, hcolon⟩
  · cases hs

theorem readsBody_print {body : SourceBody} (hs : body.meaning label = some s)
    (hbody : body ≠ .empty) (h : tokenStart source k = body.print ++ 0x0A#8 :: more) :
    ReadsBody source k label s more := by
  cases body with
  | empty => exact absurd rfl hbody
  | equ name op => exact readsBody_equ name op hs h
  | shorthand name => exact readsBody_shorthand name hs h
  | common mnemonic name size alignment => exact readsBody_common mnemonic name size alignment hs h
  | operands mnemonic ops => exact readsBody_operands mnemonic ops hs h

theorem solid_body {body : SourceBody} (more : List Byte) (hbody : body ≠ .empty) :
    Solid (body.print ++ more) := by
  cases body with
  | empty => exact absurd rfl hbody
  | equ name op =>
      rw [SourceBody.print, List.append_assoc]
      exact solid_name name _
  | shorthand name => exact solid_name name more
  | common mnemonic name size alignment =>
      rw [SourceBody.print, List.append_assoc]
      exact solid_name mnemonic _
  | operands mnemonic ops =>
      rw [SourceBody.print, List.append_assoc]
      exact solid_name mnemonic _

theorem statementAt_print {t : SourceStatement} (hs : t.meaning = some s)
    (h : tokenStart source k = t.print ++ 0x0A#8 :: more) :
    ∃ j, StatementAt source k s j ∧ tokenStart source j = 0x0A#8 :: more := by
  obtain ⟨label, body⟩ := t
  cases label with
  | none =>
      have hbody : body ≠ .empty := by
        rintro rfl
        cases hs
      obtain ⟨⟨j, hat, hnext⟩, htype, hcolon⟩ := readsBody_print hs hbody h
      exact ⟨j, .plain htype hcolon hat, hnext⟩
  | some name =>
      rw [SourceStatement.print, List.append_assoc] at h
      obtain ⟨htype, htext, hnext⟩ := token_name name (mark_endsName (by decide) _) h
      obtain ⟨hcolon, hnext⟩ := token_punctuation rfl hnext
      have hlabel : name.label = (tokenAt source k).text.toLabel := by rw [Identifier.label, htext]
      rw [SourceStatement.meaning, Option.map_some, hlabel] at hs
      by_cases hbody : body = .empty
      · subst hbody
        cases hs
        exact ⟨k + 2, .labelled htype hcolon (.empty (.inl (token_newline hnext).1)), hnext⟩
      · have hstart := hnext.trans (skipWhitespace_space (solid_body (0x0A#8 :: more) hbody))
        obtain ⟨⟨j, hat, hnext⟩, -⟩ := readsBody_print hs hbody hstart
        exact ⟨j, .labelled htype hcolon hat, hnext⟩

theorem solid_statement {t : SourceStatement} (hs : t.meaning = some s) (more : List Byte) :
    Solid (t.print ++ more) := by
  obtain ⟨label, body⟩ := t
  cases label with
  | none =>
      refine solid_body more ?_
      rintro rfl
      cases hs
  | some name =>
      rw [SourceStatement.print, List.append_assoc]
      exact solid_name name _

end Print

theorem solid_newlines (n : Nat) : Solid (List.replicate n 0x0A#8) := by
  cases n with
  | zero => rfl
  | succ n => exact solid_newline _

theorem linesAt_blank {source : List Byte} {k n : Nat}
    (h : tokenStart source k = List.replicate n 0x0A#8) : LinesAt source k [] := by
  induction n generalizing k with
  | zero => exact .done (token_eof h)
  | succ n ih =>
      obtain ⟨hnewline, hnext⟩ := token_newline h
      exact .blank hnewline (ih (hnext.trans (solid_newlines n)))

theorem linesAt_print {source : List Byte} {ts : List SourceStatement} {ss : List WrittenStatement}
    (hss : ts.mapM SourceStatement.meaning = some ss) {k n : Nat}
    (h : tokenStart source k = skipWhitespace (printProgram ts ++ List.replicate n 0x0A#8)) :
    LinesAt source k ss := by
  induction ts generalizing k ss with
  | nil =>
      cases hss
      exact linesAt_blank (h.trans (solid_newlines n))
  | cons t ts ih =>
      rw [List.mapM_cons] at hss
      obtain ⟨s, hs, hss⟩ := Option.bind_eq_some_iff.mp hss
      obtain ⟨ss', hss', heq⟩ := Option.bind_eq_some_iff.mp hss
      cases heq
      rw [printProgram, List.flatMap_cons, List.append_assoc, List.append_assoc,
        List.singleton_append, ← printProgram, solid_statement hs] at h
      obtain ⟨j, hat, hnext⟩ := statementAt_print hs h
      obtain ⟨hnewline, hnext⟩ := token_newline hnext
      exact .line hat hnewline (ih hss' hnext)

theorem parseRounds_print {ts : List SourceStatement} {ss : List WrittenStatement}
    (hss : ts.mapM SourceStatement.meaning = some ss) (n : Nat) :
    ∃ rounds insts,
      parseRounds rounds (parseStart (printProgram ts ++ List.replicate n 0x0A#8)) =
        some (some insts) ∧ List.Forall₂ ParsedInstruction.Says insts ss := by
  obtain ⟨rounds, insts, hsays, hparse⟩ :=
    @parseRounds_lines _ _ _ _ (@linesAt_print _ _ _ hss 0 n rfl) [] (standsAt_start _)
  exact ⟨rounds, insts, hparse, hsays⟩

structure HandedOn (line : List Byte) : Prop where
  newline : 0x0A#8 ∉ line
  short : line.length < maxLineLength
  plain : PlainLine line
  passed : PassedOver line

instance (line : List Byte) : Decidable (HandedOn line) :=
  decidable_of_iff (_ ∧ _ ∧ _ ∧ _)
    ⟨fun h => ⟨h.1, h.2.1, h.2.2.1, h.2.2.2⟩, fun h => ⟨h.newline, h.short, h.plain, h.passed⟩⟩

theorem textLine_line {line : List Byte} (h : 0x0A#8 ∉ line) (more : List Byte) :
    textLine (line ++ 0x0A#8 :: more) = (line, line ++ [0x0A#8], more) := by
  have hall : ∀ b ∈ line, (b != 0x0A#8) = true := by
    intro b hb
    rw [bne_iff_ne]
    rintro rfl
    exact h hb
  have htake : (line ++ 0x0A#8 :: more).takeWhile (fun b => b != 0x0A#8) = line := by
    rw [List.takeWhile_append_of_pos hall, List.takeWhile_cons_of_neg (by simp), List.append_nil]
  rw [textLine, htake]
  simp only [List.drop_left, List.head?_cons, if_true, List.tail_cons]

theorem printProgram_cons (t : SourceStatement) (ts : List SourceStatement) :
    printProgram (t :: ts) = t.print ++ 0x0A#8 :: printProgram ts := by
  rw [printProgram, List.flatMap_cons, List.append_assoc, List.singleton_append, printProgram]

theorem printProgram_lines {ts : List SourceStatement} (h : ∀ t ∈ ts, HandedOn t.print) :
    textLines (printProgram ts) = ts.map SourceStatement.print ∧
      timesText (printProgram ts) = printProgram ts := by
  induction ts with
  | nil => exact ⟨rfl, rfl⟩
  | cons t ts ih =>
      obtain ⟨ht, hts⟩ := List.forall_mem_cons.mp h
      obtain ⟨hlines, htext⟩ := ih hts
      have hne : printProgram (t :: ts) ≠ [] := by
        rw [printProgram_cons]
        exact List.append_ne_nil_of_right_ne_nil _ (List.cons_ne_nil _ _)
      have hline := textLine_line ht.newline (printProgram ts)
      rw [← printProgram_cons] at hline
      have hread : readLine (printProgram (t :: ts)) = _ :=
        readLine_eq_textLine (by rw [hline]; exact ht.short)
      rw [hline] at hread
      have htimes : timesLine (t.print, t.print ++ [0x0A#8]) = t.print ++ [0x0A#8] := by
        rw [timesLine, ht.passed.noTimes]
      constructor
      · rw [textLines_of_ne hne, hline, hlines, List.map_cons]
      · rw [timesText_of_ne hne, hread, htext, htimes, printProgram_cons, List.append_assoc,
          List.singleton_append]

theorem parserExpandTimesOnly_print {ts : List SourceStatement} (h : ∀ t ∈ ts, HandedOn t.print) :
    parserExpandTimesOnly (printProgram ts) = printProgram ts := by
  have htext := (printProgram_lines h).2
  rw [parserExpandTimesOnly_fit, htext]
  rw [TimesFit, htext]
  omega

/-- A printed program is read back as what it means. -/
theorem parseSourceWithContext_print (env : PreprocessEnv) (tracker : List Path)
    (hcli : env.cliDefines = []) {ts : List SourceStatement} {ss : List WrittenStatement}
    (hss : ts.mapM SourceStatement.meaning = some ss) (hlines : ∀ t ∈ ts, HandedOn t.print) :
    ∃ rounds insts,
      parseSourceWithContext rounds env tracker (printProgram ts) = some (some insts) ∧
        List.Forall₂ ParsedInstruction.Says insts ss := by
  have hall : ∀ line ∈ textLines (printProgram ts), HandedOn line := by
    rw [(printProgram_lines hlines).1]
    exact List.forall_mem_map.mpr hlines
  have hkept := keptAsIs_of_passedOver env tracker hcli (fun line hline => (hall line hline).plain)
    fun line hline => ⟨(hall line hline).short, (hall line hline).passed⟩
  have hparse : ∀ n, preprocessMacros env tracker (printProgram ts) =
      .returns (printProgram ts ++ List.replicate n 0x0A#8) → ∃ rounds insts,
        parseSourceWithContext rounds env tracker (printProgram ts) = some (some insts) ∧
          List.Forall₂ ParsedInstruction.Says insts ss := by
    intro n hreturns
    obtain ⟨rounds, insts, hparse, hsays⟩ := parseRounds_print hss n
    refine ⟨rounds, insts, ?_, hsays⟩
    rw [parseSourceWithContext, parserExpandTimesOnly_print hlines, hreturns]
    exact hparse
  rcases hkept with hkept | hkept
  · exact hparse 0 (by rw [List.replicate_zero, List.append_nil]; exact hkept)
  · exact hparse 1 hkept

def Identifier.word (s : String) (h : (str s).head?.any isIdentifierStart = true ∧
    (str s).all isIdentifierChar = true ∧ (str s).length < maxLineLength - 1) : Identifier :=
  ⟨str s, h.1, h.2.1, h.2.2⟩

def raxName : RegisterName := ⟨.word "rax" (by decide), 0, .size64, by decide +kernel⟩
def rbxName : RegisterName := ⟨.word "RBX" (by decide), 3, .size64, by decide +kernel⟩
def xmm2Name : RegisterName := ⟨.word "xmm2" (by decide), 18, .xmm, by decide +kernel⟩
def fsName : SegmentName := ⟨.word "fs" (by decide), by decide +kernel⟩
def textName : LabelName := ⟨.word "text" (by decide), by decide +kernel⟩
def tableName : LabelName := ⟨.word "table" (by decide), by decide +kernel⟩
def startName : LabelName := ⟨.word ".start" (by decide), by decide +kernel⟩

def tableProgram : List SourceStatement :=
  [{ label := none, body := .operands (.word "section" (by decide)) [.label textName] },
   { label := none
     body := .common (.word ".comm" (by decide)) (.word "room" (by decide)) ⟨.hex, 64, by decide⟩
       (some ⟨.decimal, 16, by decide⟩) },
   { label := some startName.toIdentifier
     body := .operands (.word "mov" (by decide))
       [.reg raxName, .mem (.sum (.reg rbxName)
         [(false, .scaled raxName ⟨.decimal, 8, by decide⟩), (true, .number ⟨.hex, 24, by decide⟩)])] },
   { label := none
     body := .operands (.word "movsd" (by decide))
       [.reg xmm2Name, .segment fsName (.absolute ⟨.binary, 5, by decide⟩)] },
   { label := none, body := .operands (.word "jne" (by decide)) [.label startName] },
   { label := some tableName.toIdentifier, body := .empty },
   { label := none
     body := .operands (.word "db" (by decide))
       [.string ⟨str "a\"b", by decide, by decide⟩, .char 0x27,
         .dollarNumber ⟨.decimal, 0, by decide⟩] },
   { label := none
     body := .equ (.word "size" (by decide)) (.difference tableName startName.toIdentifier) },
   { label := none, body := .shorthand (.word ".data" (by decide)) }]

def tableText : List Byte :=
  str "section text\n.comm room, 0x40, 16\n.start: mov rax, [RBX+rax*8-0x18]\n" ++
    str "movsd xmm2, fs:[abs 0b101]\njne .start\ntable: \ndb \"a\\\"b\", '\\'', $0\n" ++
    str "size equ table-.start\n.data\n"

def tableStatements : List WrittenStatement :=
  [⟨none, .sectionDir, [.label (CString.lit _ "text")]⟩,
   ⟨none, .comm, [.label (CString.lit _ "room"), .imm 64, .imm 16]⟩,
   ⟨some (CString.lit _ ".start"), .mov, [.reg 0 .size64,
     .mem { base := some 3, index := some 0, scale := 8, displacement := -24
            hasDisplacement := true }]⟩,
   ⟨none, .movsdXmm, [.reg 18 .xmm,
     .mem { displacement := 5, hasDisplacement := true, isAbsolute := true
            segmentOverride := .fs }]⟩,
   ⟨none, .jne, [.label (CString.lit _ ".start")]⟩,
   ⟨some (CString.lit _ "table"), .nop, []⟩,
   ⟨none, .db, [.string (CString.lit _ "a\"b"), .imm 0x27, .imm 0]⟩,
   ⟨some (CString.lit _ "size"), .equ, [.labelDiff (CString.lit _ "table") (CString.lit _ ".start")]⟩,
   ⟨none, .sectionDir, [.label (CString.lit _ ".data")]⟩]

/-- Every kind of statement, and most kinds of operands. -/
theorem parseSourceWithContext_print_table : printProgram tableProgram = tableText ∧
    ∃ rounds insts,
      parseSourceWithContext rounds memoryEnv [] (printProgram tableProgram) = some (some insts) ∧
        List.Forall₂ ParsedInstruction.Says insts tableStatements :=
  ⟨by decide +kernel, parseSourceWithContext_print memoryEnv [] rfl (by decide +kernel)
    (by decide +kernel)⟩

end X86Assembler
