import Mathlib.Logic.Function.Iterate
import Mathlib.Logic.Relation
import X86Assembler.TimesExpansion
import X86Assembler.TokenStream

namespace X86Assembler

open CString (Byte str isDigit isXDigit)
open Fallible (Ensures ensures_pure)

theorem skipWhitespace_length (bs : List Byte) : (skipWhitespace bs).length ≤ bs.length := by
  obtain ⟨skipped, hbs, -⟩ := skipWhitespace_split bs
  have hlen := congrArg List.length hbs
  rw [List.length_append] at hlen
  omega

theorem lexIdentifier_length (room : Nat) (bs : List Byte) :
    (lexIdentifier room bs).2.length ≤ bs.length := by
  have hlen := congrArg List.length (lexIdentifier_split room bs).1
  rw [List.length_append] at hlen
  omega

theorem isXDigit_of_isDigit {b : Byte} (h : isDigit b) : isXDigit b := by
  simp only [isXDigit, h, Bool.true_or]

theorem isIdentifierChar_of_start {b : Byte} (h : isIdentifierStart b) : isIdentifierChar b := by
  simp only [isIdentifierStart, isIdentifierChar, CString.isAlnum, Bool.or_eq_true,
    decide_eq_true_eq] at h ⊢
  rcases h with ((h | h) | h) | h
  · exact .inl (.inl (.inl (.inl h)))
  · exact .inl (.inl (.inr h))
  · exact .inl (.inr h)
  · exact .inr h

theorem lexNumber_length {b : Byte} (bs : List Byte) (hb : isDigit b) :
    (lexNumber (b :: bs)).2.length ≤ bs.length := by
  have hdrop : ∀ l : List Byte, (l.dropWhile isXDigit).length ≤ l.length :=
    fun l => (List.dropWhile_sublist _).length_le
  simp only [lexNumber, numberMark]
  split
  · split
    · refine Nat.le_trans (hdrop _) ?_
      simp only [List.length_drop, List.length_cons]
      omega
    · rw [List.drop_zero, List.dropWhile_cons_of_pos (isXDigit_of_isDigit hb)]
      exact hdrop _
  · rw [List.drop_zero, List.dropWhile_cons_of_pos (isXDigit_of_isDigit hb)]
    exact hdrop _

theorem lexToken_length (tok : Token) (b : Byte) (bs : List Byte) :
    (lexToken tok b bs).2.length ≤ bs.length := by
  unfold lexToken
  split
  · exact Nat.le_refl _
  split
  · exact (lexChar_suffix bs).length_le
  split
  · exact (lexString_suffix _ bs).length_le
  split
  · rename_i hb
    exact lexNumber_length bs hb
  split
  · rename_i hb
    simp only [lexIdentifier, maxLineLength, isIdentifierChar_of_start hb, if_true]
    exact lexIdentifier_length _ bs
  · exact Nat.le_refl _

theorem nextToken_rest_lt {lx : Lexer} (h : (nextToken lx).1.type ≠ .eof) :
    (nextToken lx).2.rest.length < lx.rest.length := by
  have hskip := skipWhitespace_length lx.rest
  revert h
  simp only [nextToken]
  split
  · exact fun h => absurd rfl h
  · rename_i b bs hrest
    rw [hrest, List.length_cons] at hskip
    intro _
    split
    · exact hskip
    · refine Nat.lt_of_le_of_lt (lexToken_length _ b bs) hskip

def ParserState.place (p : ParserState) : Token × Token × Lexer := (p.current, p.peek, p.lexer)

theorem advance_place {p q : ParserState} (h : q.place = p.place) :
    q.advance.place = p.advance.place := by
  cases p
  cases q
  cases h
  rw [ParserState.advance, ParserState.advance]
  simp only
  split <;> rfl

/-- `q` stands some tokens behind `p`. -/
def ReadsOn (p q : ParserState) : Prop := ∃ n, q.place = (ParserState.advance^[n] p).place

theorem ReadsOn.refl (p : ParserState) : ReadsOn p p := ⟨0, rfl⟩

theorem iterate_place {p q : ParserState} (h : q.place = p.place) (n : Nat) :
    (ParserState.advance^[n] q).place = (ParserState.advance^[n] p).place := by
  induction n generalizing p q with
  | zero => exact h
  | succ n ih => exact ih (advance_place h)

theorem ReadsOn.trans {p q r : ParserState} (hpq : ReadsOn p q) (hqr : ReadsOn q r) :
    ReadsOn p r := by
  obtain ⟨n, hn⟩ := hpq
  obtain ⟨m, hm⟩ := hqr
  refine ⟨m + n, ?_⟩
  rw [hm, iterate_place hn, Function.iterate_add_apply]

/-- `q` is reached from `p` by reading on, and nothing printed is lost. -/
structure After (p q : ParserState) : Prop where
  remaining : q.remaining ≤ p.remaining
  stderr : p.stderr.length ≤ q.stderr.length
  reads : ReadsOn p q

/-- `q` is reached from `p` by reading at least one token. -/
structure Further (p q : ParserState) : Prop where
  remaining : q.remaining < p.remaining
  stderr : p.stderr.length ≤ q.stderr.length
  reads : ReadsOn p q

def Reported (p q : ParserState) : Prop := p.stderr.length < q.stderr.length

theorem After.refl (p : ParserState) : After p p := ⟨Nat.le_refl _, Nat.le_refl _, .refl p⟩

theorem After.trans {p q r : ParserState} (hpq : After p q) (hqr : After q r) : After p r :=
  ⟨Nat.le_trans hqr.1 hpq.1, Nat.le_trans hpq.2 hqr.2, hpq.reads.trans hqr.reads⟩

theorem Further.after {p q : ParserState} (h : Further p q) : After p q :=
  ⟨Nat.le_of_lt h.1, h.2, h.reads⟩

theorem Further.trans {p q r : ParserState} (hpq : Further p q) (hqr : After q r) :
    Further p r :=
  ⟨Nat.lt_of_le_of_lt hqr.1 hpq.1, Nat.le_trans hpq.2 hqr.2, hpq.reads.trans hqr.reads⟩

theorem After.reported {p q r : ParserState} (hpq : After p q) (hqr : Reported q r) :
    Reported p r :=
  Nat.lt_of_le_of_lt hpq.2 hqr

theorem advance_stderr (p : ParserState) : p.advance.stderr = p.stderr := by
  rw [ParserState.advance]
  split <;> rfl

theorem advance_reads (p : ParserState) : ReadsOn p p.advance := ⟨1, rfl⟩

theorem remaining_of_peek_eof {p : ParserState} (h : p.peek.type = .eof) : p.remaining ≤ 1 := by
  rw [ParserState.remaining, if_pos h]
  split <;> omega

/-- Reading on leaves fewer tokens, unless the end of the input is both the current and the
next token. -/
theorem advance_remaining (p : ParserState) :
    p.advance.remaining < p.remaining ∨
      p.current.type = .eof ∧ p.peek.type = .eof ∧ p.advance.remaining = 0 := by
  by_cases hpeek : p.peek.type = .eof
  · have hadv : p.advance.remaining = 0 := by
      rw [ParserState.advance, if_pos hpeek, ParserState.remaining, if_pos hpeek, if_pos hpeek]
    by_cases hcur : p.current.type = .eof
    · exact .inr ⟨hcur, hpeek, hadv⟩
    · have hp : p.remaining = 1 := by
        rw [ParserState.remaining, if_pos hpeek, if_neg hcur]
      exact .inl (by omega)
  · refine .inl ?_
    have hp : p.remaining = p.lexer.rest.length + 2 := by
      rw [ParserState.remaining, if_neg hpeek]
    rw [ParserState.advance, if_neg hpeek, hp]
    by_cases htok : (nextToken p.lexer).1.type = .eof
    · exact Nat.lt_of_le_of_lt (remaining_of_peek_eof htok) (by omega)
    · rw [ParserState.remaining, if_neg htok]
      exact Nat.add_lt_add_right (nextToken_rest_lt htok) 2

theorem advance_further {p : ParserState} (h : p.current.type ≠ .eof) :
    Further p p.advance := by
  refine ⟨?_, Nat.le_of_eq (congrArg _ (advance_stderr p).symm), advance_reads p⟩
  rcases advance_remaining p with hlt | ⟨hcur, _, _⟩
  · exact hlt
  · exact absurd hcur h

theorem advance_after (p : ParserState) : After p p.advance := by
  refine ⟨?_, Nat.le_of_eq (congrArg _ (advance_stderr p).symm), advance_reads p⟩
  rcases advance_remaining p with hlt | ⟨_, _, hzero⟩
  · exact Nat.le_of_lt hlt
  · omega

section Rules

variable {α β : Type}

def Advances (m : Parser α) : Prop := ∀ p, Ensures m (fun _ => After p) (Reported p) p

/-- A parser that reads at least one token or prints an error, before the end of the input. -/
def Consumes (m : Parser α) : Prop :=
  ∀ p, p.current.type ≠ .eof → Ensures m (fun _ => Further p) (Reported p) p

theorem advances_pure (a : α) : Advances (pure a) := fun p => ensures_pure (After.refl p)

theorem error_reported (category message : String) (args : List (List Byte)) (p : ParserState)
    (Q : α → ParserState → Prop) :
    Ensures (Parser.error category message args) Q (Reported p) p := by
  refine Ensures.of_none rfl ?_
  simp [Reported]

theorem advances_error (category message : String) (args : List (List Byte)) :
    Advances (Parser.error category message args : Parser α) :=
  fun p => error_reported category message args p _

theorem consumes_error (category message : String) (args : List (List Byte)) :
    Consumes (Parser.error category message args : Parser α) :=
  fun p _ => error_reported category message args p _

theorem advances_bind {m : Parser α} {f : α → Parser β} (hm : Advances m)
    (hf : ∀ a, Advances (f a)) : Advances (m >>= f) := by
  intro p
  refine (Ensures.mono (hm p) (fun _ _ h => h) (fun _ h => h)).bind (fun a q hq => ?_) (fun _ h => h)
  exact (hf a q).mono (fun _ _ h => hq.trans h) (fun _ h => hq.reported h)

theorem consumes_bind {m : Parser α} {f : α → Parser β} (hm : Consumes m)
    (hf : ∀ a, Advances (f a)) : Consumes (m >>= f) := by
  intro p hp
  refine (hm p hp).bind (fun a q hq => ?_) (fun _ h => h)
  exact (hf a q).mono (fun _ _ h => hq.trans h) (fun _ h => hq.after.reported h)

theorem advances_advance : Advances Parser.advance :=
  fun p => Ensures.of_some rfl (advance_after p)

theorem consumes_advance : Consumes Parser.advance :=
  fun _ hp => Ensures.of_some rfl (advance_further hp)

theorem advances_get {f : ParserState → Parser α} (hf : ∀ p, Advances (f p)) :
    Advances (Fallible.get >>= f) := fun p => hf p p

theorem consumes_get {f : ParserState → Parser α} (hf : ∀ p, Consumes (f p)) :
    Consumes (Fallible.get >>= f) := fun p => hf p p

theorem advances_current {f : Token → Parser α} (hf : ∀ tok, Advances (f tok)) :
    Advances (Parser.current >>= f) := fun p => hf p.current p

theorem consumes_current {f : Token → Parser α} (hf : ∀ tok, Consumes (f tok)) :
    Consumes (Parser.current >>= f) := fun p => hf p.current p

theorem advances_ite {c : Prop} [Decidable c] {m m' : Parser α} (h : Advances m)
    (h' : Advances m') : Advances (if c then m else m') := by
  split
  · exact h
  · exact h'

theorem consumes_ite {c : Prop} [Decidable c] {m m' : Parser α} (h : Consumes m)
    (h' : Consumes m') : Consumes (if c then m else m') := by
  split
  · exact h
  · exact h'

theorem advance_then {f : Unit → Parser α} (hf : Advances (f ())) :
    Consumes (Parser.advance >>= f) := consumes_bind consumes_advance fun _ => hf

theorem advance_then_advances {f : Unit → Parser α} (hf : Advances (f ())) :
    Advances (Parser.advance >>= f) := advances_bind advances_advance fun _ => hf

end Rules

namespace Parser

theorem next_advances : Advances next :=
  advances_current fun _ => advance_then_advances (advances_pure _)

theorem expect_advances (type : TokenType) : Advances (expect type) :=
  advances_current fun _ => advances_ite (advance_then_advances (advances_pure _))
    (advances_pure _)

theorem require_of_eq {type : TokenType} (message : String) {p : ParserState}
    (h : p.current.type = type) : require type message p = (some (), p.advance) := by
  have hexpect : expect type p = (some true, p.advance) := by
    show (if p.current.type = type then (advance >>= fun _ => pure true) else pure false) p = _
    rw [if_pos h]
    rfl
  exact Fallible.bind_of_some hexpect

theorem require_of_ne {type : TokenType} (message : String) {p : ParserState}
    (h : p.current.type ≠ type) :
    require type message p = (syntaxError message : Parser Unit) p := by
  have hexpect : expect type p = (some false, p) := by
    show (if p.current.type = type then (advance >>= fun _ => pure true) else pure false) p = _
    rw [if_neg h]
    rfl
  exact Fallible.bind_of_some hexpect

theorem require_reported {type : TokenType} (message : String) {p : ParserState}
    (h : p.current.type ≠ type) (Q : Unit → ParserState → Prop) :
    Ensures (require type message) Q (Reported p) p := by
  unfold Ensures
  rw [require_of_ne message h]
  exact error_reported _ _ _ p Q

theorem require_consumes (type : TokenType) (message : String) :
    Consumes (require type message) := by
  intro p hp
  by_cases h : p.current.type = type
  · exact Ensures.of_some (require_of_eq message h) (advance_further hp)
  · exact require_reported message h _

theorem require_advances (type : TokenType) (message : String) :
    Advances (require type message) := by
  intro p
  by_cases h : p.current.type = type
  · exact Ensures.of_some (require_of_eq message h) (advance_after p)
  · exact require_reported message h _

theorem scaleFactor_advances (tok : Token) : Advances (scaleFactor tok) :=
  advances_ite (advance_then_advances (advances_pure _)) (advances_error _ _ _)

theorem absoluteAddress_advances : Advances absoluteAddress :=
  advances_current fun _ => advances_ite
    (advance_then_advances (advances_bind (require_advances _ _) fun _ => advances_pure _))
    (advances_error _ _ _)

theorem memRegister_advances (mem : MemOperand) (reg : Reg) (size : RegSize) :
    Advances (memRegister mem reg size) := by
  refine advances_current fun tok => advances_ite (advances_pure _) ?_
  refine advances_bind (expect_advances _) fun star => advances_ite ?_ ?_
  · exact advances_current fun _ =>
      advances_bind (scaleFactor_advances _) fun _ => advances_pure _
  · exact advances_ite (advances_pure _) (advances_ite (advances_pure _) (advances_error _ _ _))

theorem memIndex_advances (mem : MemOperand) (reg : Reg) : Advances (memIndex mem reg) := by
  refine advances_bind (expect_advances _) fun star => advances_ite ?_ (advances_pure _)
  exact advances_current fun _ => advances_bind (scaleFactor_advances _) fun _ => advances_pure _

theorem memSigned_advances (mem : MemOperand) (negative : Bool) :
    Advances (memSigned mem negative) := by
  refine advances_current fun tok => advances_ite (advance_then_advances (advances_pure _)) ?_
  refine advances_ite ?_ (advances_error _ _ _)
  split
  · exact advance_then_advances (memIndex_advances _ _)
  · exact advances_ite (advances_error _ _ _) (advance_then_advances (advances_pure _))

theorem memScale_advances (mem : MemOperand) : Advances (memScale mem) := by
  refine advances_current fun tok => advances_ite ?_ (advances_error _ _ _)
  refine advances_ite (advances_error _ _ _) ?_
  exact advances_bind (scaleFactor_advances _) fun _ => advances_pure _

theorem memComponent_consumes (mem : MemOperand) : Consumes (memComponent mem) := by
  refine consumes_current fun tok => consumes_ite (advance_then ?_) ?_
  · split
    · exact memRegister_advances _ _ _
    · exact advances_pure _
  · refine consumes_ite (advance_then (advances_pure _)) ?_
    refine consumes_ite (advance_then (memSigned_advances _ _)) ?_
    exact consumes_ite (advance_then (memScale_advances _)) (consumes_error _ _ _)

theorem memComponents_advances (rounds : Nat) (mem : MemOperand) :
    Advances (memComponents rounds mem) := by
  induction rounds generalizing mem with
  | zero => exact advances_pure _
  | succ rounds ih =>
      intro p
      show Ensures (if _ then _ else _) _ _ p
      split
      · exact ensures_pure (After.refl p)
      · rename_i htok
        have hp : p.current.type ≠ .eof := fun h => htok (by simp [h])
        refine (memComponent_consumes mem p hp).bind (fun mem q hq => ?_) (fun _ h => h)
        exact (ih mem q).mono (fun _ _ h => (hq.trans h).after) fun _ h => hq.after.reported h

theorem parseMemoryOperand_rest : Advances (do
    let tok ← current
    if tok.type = .identifier && CString.eqIgnoreCase tok.text.bytes (str "abs") then do
      advance
      absoluteAddress
    else do
      let p ← Fallible.get
      let mem ← memComponents p.remaining {}
      closeBracket
      if mem.isRipRelative && (mem.base.isSome || mem.index.isSome) then
        error "Constraint" "RIP-relative addressing cannot combine base/index registers"
      else pure mem) := by
  refine advances_current fun tok => advances_ite
    (advance_then_advances absoluteAddress_advances) (advances_get fun p => ?_)
  refine advances_bind (memComponents_advances _ _) fun mem => ?_
  refine advances_bind (require_advances _ _) fun _ => ?_
  exact advances_ite (advances_error _ _ _) (advances_pure _)

theorem parseMemoryOperand_consumes : Consumes parseMemoryOperand :=
  consumes_bind (require_consumes _ _) fun _ => parseMemoryOperand_rest

theorem parseMemoryOperand_advances : Advances parseMemoryOperand :=
  advances_bind (require_advances _ _) fun _ => parseMemoryOperand_rest

theorem labelExpression_advances (lhs : Label) : Advances (labelExpression lhs) := by
  refine advances_get fun p => advances_ite (advance_then_advances ?_) (advances_pure _)
  exact advances_bind next_advances fun _ => advances_pure _

theorem dollarOperand_advances : Advances dollarOperand := by
  refine advances_current fun tok => advances_ite (advance_then_advances (advances_pure _)) ?_
  exact advances_ite (advance_then_advances (labelExpression_advances _)) (advances_error _ _ _)

theorem stringConcat_advances (rounds : Nat) (text : Text) :
    Advances (stringConcat rounds text) := by
  induction rounds generalizing text with
  | zero => exact advances_pure _
  | succ rounds ih =>
      exact advances_current fun tok =>
        advances_ite (advance_then_advances (ih _)) (advances_pure _)

theorem identifierOperand_consumes (tok : Token) : Consumes (identifierOperand tok) := by
  refine advance_then ?_
  split
  · exact advances_pure _
  · exact labelExpression_advances _

theorem segmentOperand_consumes (seg : MemSegment) : Consumes (segmentOperand seg) := by
  refine advance_then (advance_then_advances (advances_current fun tok => ?_))
  refine advances_ite ?_ (advances_error _ _ _)
  exact advances_bind parseMemoryOperand_advances fun _ => advances_pure _

theorem parseOperand_consumes : Consumes parseOperand := by
  refine consumes_get fun p => consumes_ite (segmentOperand_consumes _) ?_
  split
  · exact advance_then dollarOperand_advances
  · exact consumes_bind parseMemoryOperand_consumes fun _ => advances_pure _
  · exact identifierOperand_consumes _
  · exact advance_then (advances_pure _)
  · exact advance_then (advances_pure _)
  · refine advance_then (advances_get fun p => ?_)
    exact advances_bind (stringConcat_advances _ _) fun _ => advances_pure _
  · exact consumes_error _ _ _

theorem parseOperand_eof {p : ParserState} (h : p.current.type = .eof) :
    Ensures parseOperand (fun _ => After p) (Reported p) p := by
  have hrun : parseOperand p =
      (error "Syntax" "Unexpected token '%s' in operand" [p.current.text.bytes.take 200] :
        Parser Operand) p := by
    rw [parseOperand, Fallible.bind_run, Fallible.get_run]
    simp [h]
  unfold Ensures
  rw [hrun]
  exact error_reported _ _ _ p _

theorem parseOperand_advances : Advances parseOperand := by
  intro p
  by_cases hp : p.current.type = .eof
  · exact parseOperand_eof hp
  · exact (parseOperand_consumes p hp).mono (fun _ _ h => h.after) fun _ h => h

theorem operandsUntilEol_advances (rounds : Nat) (ops : List Operand) :
    Advances (operandsUntilEol rounds ops) := by
  induction rounds generalizing ops with
  | zero => exact advances_pure _
  | succ rounds ih =>
      refine advances_current fun tok => advances_ite (advances_pure _) ?_
      refine advances_ite (advances_error _ _ _) ?_
      refine advances_bind parseOperand_advances fun op => ?_
      exact advances_bind (expect_advances _) fun _ => ih _

theorem validateSseOperands_advances (type : InstType) (operands : List Operand) :
    Advances (validateSseOperands type operands) := by
  have hmove : ∀ ops, Advances (validateSseMove ops) := by
    intro ops
    unfold validateSseMove
    split
    · exact advances_ite (advances_error _ _ _) (advances_ite (advances_error _ _ _)
        (advances_ite (advances_error _ _ _) (advances_ite (advances_error _ _ _)
          (advances_pure _))))
    · exact advances_error _ _ _
  have hbinary : ∀ c d s ops, Advances (validateSseBinary c d s ops) := by
    intro c d s ops
    unfold validateSseBinary
    split
    · exact advances_ite (advances_error _ _ _) (advances_ite (advances_error _ _ _)
        (advances_pure _))
    · exact advances_error _ _ _
  exact advances_ite (hmove _) (advances_ite (hbinary _ _ _ _)
    (advances_ite (hbinary _ _ _ _) (advances_pure _)))

theorem applySectionShorthand_advances (inst : ParsedInstruction) (mnemonic : Text) :
    Advances (applySectionShorthand inst mnemonic) :=
  advances_current fun _ => advances_ite (advances_pure _) (advances_error _ _ _)

theorem parseCommLcommOperands_advances : Advances parseCommLcommOperands := by
  have halign : Advances commAlignmentOperand := by
    refine advances_bind (expect_advances _) fun _ => advances_ite ?_ (advances_pure _)
    exact advances_current fun _ => advances_ite (advance_then_advances (advances_pure _))
      (advances_error _ _ _)
  refine advances_current fun _ => advances_ite (advance_then_advances ?_) (advances_error _ _ _)
  refine advances_bind (expect_advances _) fun _ => advances_current fun _ => ?_
  refine advances_ite (advance_then_advances ?_) (advances_error _ _ _)
  exact advances_bind halign fun _ => advances_pure _

theorem parseMnemonic_consumes (inst : ParsedInstruction) (mnemonic : Text) :
    Consumes (parseMnemonic inst mnemonic) := by
  unfold parseMnemonic
  split
  · exact consumes_error _ _ _
  · refine advance_then (advances_ite (applySectionShorthand_advances _ _) ?_)
    refine advances_ite ?_ ?_
    · exact advances_bind parseCommLcommOperands_advances fun _ => advances_pure _
    · refine advances_bind (advances_get fun _ => operandsUntilEol_advances _ _) fun _ => ?_
      exact advances_bind (validateSseOperands_advances _ _) fun _ => advances_pure _

theorem equDefinition_consumes (inst : ParsedInstruction) (name : Token) :
    Consumes (equDefinition inst name) := by
  refine advance_then (advance_then_advances (advances_bind parseOperand_advances fun op => ?_))
  split
  · exact advances_pure _
  · exact advances_pure _
  · exact advances_pure _
  · exact advances_error _ _ _

theorem maybeParseEquDirective_spec (inst : ParsedInstruction) (p : ParserState) :
    Ensures (maybeParseEquDirective inst) (fun r q => Further p q ∨ r = none ∧ q = p)
      (Reported p) p := by
  show Ensures (if _ then _ else _) _ _ p
  split
  · rename_i h
    have hp : p.current.type ≠ .eof := by
      intro he
      simp [he] at h
    have hequ : Consumes (equDefinition inst p.current >>= fun inst => pure (some inst)) :=
      consumes_bind (equDefinition_consumes _ _) fun _ => advances_pure _
    exact (hequ p hp).mono (fun _ _ h => .inl h) fun _ h => h
  · exact ensures_pure (.inr ⟨rfl, rfl⟩)

theorem parseBody_rest (inst : ParsedInstruction) (q : ParserState) :
    Ensures (do
      let tok ← current
      if tok.type = .identifier then parseMnemonic inst tok.text else pure inst)
      (fun _ r => Further q r ∨ q.current.type ≠ .identifier ∧ r = q) (Reported q) q := by
  show Ensures (if _ then _ else _) _ _ q
  split
  · rename_i htok
    have hq : q.current.type ≠ .eof := by
      rw [htok]
      decide
    exact (parseMnemonic_consumes inst _ q hq).mono (fun _ _ h => .inl h) fun _ h => h
  · rename_i htok
    exact ensures_pure (.inr ⟨htok, rfl⟩)

theorem parseBody_spec (inst : ParsedInstruction) (p : ParserState) :
    Ensures (parseBody inst) (fun _ q => Further p q ∨ p.current.type ≠ .identifier ∧ q = p)
      (Reported p) p := by
  refine (maybeParseEquDirective_spec inst p).bind (fun r q hq => ?_) (fun _ h => h)
  rcases hq with hq | ⟨rfl, rfl⟩
  · cases r with
    | some inst => exact ensures_pure (.inl hq)
    | none =>
        refine (parseBody_rest inst q).mono (fun _ s hs => .inl (hq.trans ?_)) fun _ h =>
          hq.after.reported h
        rcases hs with hs | ⟨-, rfl⟩
        · exact hs.after
        · exact After.refl s
  · exact parseBody_rest inst q

theorem parseLabel_spec (inst : ParsedInstruction) (p : ParserState) :
    Ensures (parseLabel inst) (fun _ q => Further p q ∨ q = p) (Reported p) p := by
  show Ensures (if _ then _ else _) _ _ p
  split
  · rename_i h
    have hp : p.current.type ≠ .eof := by
      intro he
      simp [he] at h
    have hlabel : Consumes (advance >>= fun _ => advance >>= fun _ =>
        (pure { inst with label := some p.current.text.toLabel, labelColumn := p.current.column } :
          Parser ParsedInstruction)) :=
      advance_then (advance_then_advances (advances_pure _))
    exact (hlabel p hp).mono (fun _ _ h => .inl h) fun _ h => h
  · exact ensures_pure (.inr rfl)

theorem parseInstruction_spec (p : ParserState) (hp : p.current.type = .identifier) :
    Ensures parseInstruction (fun _ q => Further p q) (Reported p) p := by
  show Ensures (if _ then _ else _) _ _ p
  rw [if_neg (by rw [hp]; decide)]
  refine (parseLabel_spec _ p).bind (fun inst q hq => ?_) (fun _ h => h)
  rcases hq with hq | rfl
  · refine (parseBody_spec inst q).mono (fun _ s hs => hq.trans ?_) fun _ h =>
      hq.after.reported h
    rcases hs with hs | ⟨-, rfl⟩
    · exact hs.after
    · exact After.refl s
  · refine (parseBody_spec inst q).mono (fun _ s hs => ?_) fun _ h => h
    rcases hs with hs | ⟨hne, -⟩
    · exact hs
    · exact absurd hp hne

/-- A statement that starts with anything else is read as an empty one, and nothing is read. -/
theorem parseInstruction_of_ne (p : ParserState) (hp : p.current.type ≠ .identifier) :
    ∃ inst : ParsedInstruction, parseInstruction p = (some inst, p) ∧ inst.type = .nop ∧
      inst.label = none := by
  refine ⟨{ type := .nop, lineNumber := p.lexer.line,
            originalLine := captureOriginalLine p.lexer }, ?_, rfl, rfl⟩
  rw [parseInstruction, Fallible.bind_run, Fallible.get_run]
  simp only
  split
  · rfl
  · have hlabel : ∀ inst, parseLabel inst p = (some inst, p) := by
      intro inst
      rw [parseLabel, Fallible.bind_run, Fallible.get_run]
      simp [hp]
    have hequ : ∀ inst, maybeParseEquDirective inst p = (some none, p) := by
      intro inst
      rw [maybeParseEquDirective, Fallible.bind_run, Fallible.get_run]
      simp [hp]
    rw [Fallible.bind_of_some (hlabel _), parseBody, Fallible.bind_of_some (hequ _)]
    show (if _ then _ else _ : Parser ParsedInstruction) p = _
    rw [if_neg hp]
    rfl

theorem eof_of_remaining {p : ParserState} (h : p.remaining = 0) : p.current.type = .eof := by
  rw [ParserState.remaining] at h
  split at h
  · split at h
    · assumption
    · cases h
  · cases h

theorem memComponents_enough (rounds : Nat) (mem : MemOperand) (p : ParserState)
    (h : p.remaining ≤ rounds) :
    memComponents (rounds + 1) mem p = memComponents rounds mem p := by
  induction rounds generalizing mem p with
  | zero =>
      have hp := eof_of_remaining (Nat.le_zero.mp h)
      show (if _ then _ else _ : Parser MemOperand) p = _
      rw [if_pos (by simp [hp])]
      rfl
  | succ rounds ih =>
      show (if _ then _ else _ : Parser MemOperand) p = (if _ then _ else _ : Parser MemOperand) p
      split
      · rfl
      · rename_i htok
        have hp : p.current.type ≠ .eof := fun h => htok (by simp [h])
        have hmem := memComponent_consumes mem p hp
        cases hr : memComponent mem p with
        | mk r q =>
            cases r with
            | none => rw [Fallible.bind_of_none hr, Fallible.bind_of_none hr]
            | some mem' =>
                have hq := (hmem.1 mem' q hr).1
                rw [Fallible.bind_of_some hr, Fallible.bind_of_some hr]
                exact ih mem' q (by omega)

theorem stringConcat_enough (rounds : Nat) (text : Text) (p : ParserState)
    (h : p.remaining ≤ rounds) :
    stringConcat (rounds + 1) text p = stringConcat rounds text p := by
  induction rounds generalizing text p with
  | zero =>
      have hp := eof_of_remaining (Nat.le_zero.mp h)
      show (if _ then _ else _ : Parser Text) p = _
      rw [if_neg (by simp [hp])]
      rfl
  | succ rounds ih =>
      show (if _ then _ else _ : Parser Text) p = (if _ then _ else _ : Parser Text) p
      split
      · rename_i htok
        have hp : p.current.type ≠ .eof := by
          rw [htok]
          decide
        have hlt := (advance_further hp).1
        exact ih _ p.advance (by omega)
      · rfl

theorem operandsUntilEol_enough (rounds : Nat) (ops : List Operand) (p : ParserState)
    (h : p.remaining ≤ rounds) :
    operandsUntilEol (rounds + 1) ops p = operandsUntilEol rounds ops p := by
  induction rounds generalizing ops p with
  | zero =>
      have hp := eof_of_remaining (Nat.le_zero.mp h)
      show (if _ then _ else _ : Parser (List Operand)) p = _
      rw [if_pos (by simp [hp])]
      rfl
  | succ rounds ih =>
      show (if _ then _ else _ : Parser (List Operand)) p =
        (if _ then _ else _ : Parser (List Operand)) p
      split
      · rfl
      · rename_i htok
        have hp : p.current.type ≠ .eof := fun h => htok (by simp [h])
        split
        · rfl
        · have hop : Consumes (parseOperand >>= fun op => expect .comma >>= fun _ => pure op) :=
            consumes_bind parseOperand_consumes fun _ =>
              advances_bind (expect_advances _) fun _ => advances_pure _
          have hassoc : ∀ n, (parseOperand >>= fun op => expect .comma >>= fun _ =>
              operandsUntilEol n (ops ++ [op])) p =
              ((parseOperand >>= fun op => expect .comma >>= fun _ => pure op) >>= fun op =>
                operandsUntilEol n (ops ++ [op])) p := by
            intro n
            simp only [Fallible.bind_run, Fallible.pure_run]
            cases hr : parseOperand p with
            | mk r q =>
                cases r with
                | none => rfl
                | some op => rcases hc : expect TokenType.comma q with ⟨_ | _, _⟩ <;> simp [hc]
          show (parseOperand >>= fun op => expect .comma >>= fun _ => _) p =
            (parseOperand >>= fun op => expect .comma >>= fun _ => _) p
          rw [hassoc, hassoc]
          cases hr : (parseOperand >>= fun op => expect .comma >>= fun _ => pure op :
              Parser Operand) p with
          | mk r q =>
              cases r with
              | none => rw [Fallible.bind_of_none hr, Fallible.bind_of_none hr]
              | some op =>
                  have hq := ((hop p hp).1 op q hr).1
                  rw [Fallible.bind_of_some hr, Fallible.bind_of_some hr]
                  exact ih _ q (by omega)

end Parser

theorem expandTimesLoop_enough (size rounds : Nat) (source out : List Byte)
    (h : source.length ≤ rounds) :
    expandTimesLoop size (rounds + 1) source out = expandTimesLoop size rounds source out := by
  induction rounds generalizing source out with
  | zero =>
      have hnil := List.eq_nil_of_length_eq_zero (Nat.le_zero.mp h)
      simp only [expandTimesLoop, hnil, if_true]
  | succ rounds ih =>
      rw [expandTimesLoop, expandTimesLoop]
      split
      · rfl
      · rename_i hne
        have hlt := readLine_rest_lt hne
        have hrest : (readLine source).2.2.length ≤ rounds := by omega
        simp only
        split
        · exact ih _ _ hrest
        · exact ih _ _ hrest

/-- A state in which the loop of `parse_source_internal` starts a round. -/
def LoopReaches (source : List Byte) : ParseLoop → Prop :=
  Relation.ReflTransGen (fun s t => parseRound s = .next t) (parseStart source)

/-- A round ends the loop at the end of the input, prints an error, or leaves fewer tokens. -/
def RoundProgresses (s : ParseLoop) : Prop :=
  match parseRound s with
  | .parsed _ => s.parser.current.type = .eof
  | .failed stderr => s.parser.stderr.length < stderr.length
  | .next t => t.parser.remaining < s.parser.remaining

/-- The main loop of `parse_source` comes to an end, and every round of it makes progress. -/
structure ParserTerminates (source : List Byte) : Prop where
  finite : ∃ rounds, (parseSource rounds source).isSome
  progresses : ∀ s, LoopReaches (parserExpandTimesOnly source) s → RoundProgresses s

def StartsRound (type : TokenType) : Prop :=
  type = .identifier ∨ type = .newline ∨ type = .eof

instance (type : TokenType) : Decidable (StartsRound type) :=
  inferInstanceAs (Decidable (_ ∨ _ ∨ _))

theorem skipNewline_after (p : ParserState) : After p (skipNewline p) := by
  rw [skipNewline]
  split
  · exact advance_after p
  · exact After.refl p

theorem roundProgresses_of_start {s : ParseLoop} (h : StartsRound s.parser.current.type) :
    RoundProgresses s := by
  rw [RoundProgresses, parseRound]
  rcases h with h | h | h
  · rw [if_neg (by rw [h]; decide)]
    have hspec := Parser.parseInstruction_spec s.parser h
    cases hr : Parser.parseInstruction s.parser with
    | mk r p =>
        cases r with
        | none => exact hspec.2 p hr
        | some inst => exact ((hspec.1 inst p hr).trans (skipNewline_after p)).1
  · have hne : s.parser.current.type ≠ .eof := by
      rw [h]
      decide
    obtain ⟨inst, hr, -, -⟩ := Parser.parseInstruction_of_ne s.parser (by rw [h]; decide)
    rw [if_neg hne, hr]
    simp only [skipNewline, h, if_true]
    exact (advance_further hne).1
  · rw [if_pos h]
    exact h

theorem parseRound_stuck {s : ParseLoop} (h : ¬ StartsRound s.parser.current.type) :
    parseRound s = .next s := by
  have hid : s.parser.current.type ≠ .identifier := fun he => h (.inl he)
  have hnl : s.parser.current.type ≠ .newline := fun he => h (.inr (.inl he))
  have heof : s.parser.current.type ≠ .eof := fun he => h (.inr (.inr he))
  obtain ⟨inst, hr, htype, hlabel⟩ := Parser.parseInstruction_of_ne s.parser hid
  rw [parseRound, if_neg heof, hr]
  simp [skipNewline, hnl, shouldKeepInstruction, htype, hlabel, hid]

theorem parseRounds_of_starts (n : Nat) (s : ParseLoop) (hn : s.parser.remaining ≤ n)
    (h : ∀ t, Relation.ReflTransGen (fun s t => parseRound s = .next t) s t →
      StartsRound t.parser.current.type) :
    (parseRounds (n + 1) s).isSome := by
  induction n generalizing s with
  | zero =>
      have hp := Parser.eof_of_remaining (Nat.le_zero.mp hn)
      rw [parseRounds, parseRound, if_pos hp]
      rfl
  | succ n ih =>
      have hs := roundProgresses_of_start (h s .refl)
      rw [parseRounds]
      rw [RoundProgresses] at hs
      cases hr : parseRound s with
      | parsed insts => rfl
      | failed stderr => rfl
      | next t =>
          rw [hr] at hs
          exact ih t (by simp only at hs; omega) fun u hu => h u (.head hr hu)

theorem stuck_of_reaches {s t : ParseLoop} (ht : parseRound t = .next t)
    (hst : Relation.ReflTransGen (fun s t => parseRound s = .next t) s t) (rounds : Nat) :
    parseRounds rounds s = none := by
  induction rounds generalizing s with
  | zero => rfl
  | succ rounds ih =>
      rw [parseRounds]
      rcases hst.cases_head with rfl | ⟨u, hu, hut⟩
      · rw [ht]
        exact ih .refl
      · rw [hu]
        exact ih hut

/-- The parser terminates on exactly the sources in which every round of its main loop starts
at a name, at a newline or at the end of the input. -/
theorem parserTerminates_iff (source : List Byte) :
    ParserTerminates source ↔
      ∀ s, LoopReaches (parserExpandTimesOnly source) s → StartsRound s.parser.current.type := by
  constructor
  · rintro ⟨⟨rounds, hfinite⟩, -⟩ s hs
    by_contra hstart
    have hnone := stuck_of_reaches (parseRound_stuck hstart) hs rounds
    rw [parseSource, hnone] at hfinite
    cases hfinite
  · intro h
    exact ⟨⟨_, parseRounds_of_starts _ _ (Nat.le_refl _) h⟩,
      fun s hs => roundProgresses_of_start (h s hs)⟩

/-- A number at the start of a line keeps the parser busy for ever. -/
theorem parser_stuck_at_number : ¬ ParserTerminates (str "5") := by
  rintro ⟨⟨rounds, hfinite⟩, -⟩
  have hstart :
      ¬ StartsRound (parseStart (parserExpandTimesOnly (str "5"))).parser.current.type := by
    decide +kernel
  rw [parseSource, stuck_of_reaches (parseRound_stuck hstart) .refl] at hfinite
  cases hfinite

end X86Assembler
