import X86Assembler.MemoryOperands

namespace X86Assembler

open CString (Byte str eqIgnoreCase)

def ClosesLine (type : TokenType) : Prop := type = .newline ∨ type = .eof

instance (type : TokenType) : Decidable (ClosesLine type) := inferInstanceAs (Decidable (_ ∨ _))

/-- String literals that follow each other, appended to a text. -/
inductive StringsAt (source : List Byte) : Nat → Text → Text → Nat → Prop
  | done {k : Nat} {text : Text} : (tokenAt source k).type ≠ .string → StringsAt source k text text k
  | more {k j : Nat} {text out : Text} : (tokenAt source k).type = .string →
      StringsAt source (k + 1) (Parser.appendString text (tokenAt source k).text) out j →
      StringsAt source k text out j

inductive NameAt (source : List Byte) : Nat → Operand → Nat → Prop
  | label {k : Nat} : (tokenAt source k).type = .identifier →
      ((tokenAt source (k + 1)).type = .minus → (tokenAt source (k + 2)).type ≠ .identifier) →
      NameAt source k (.label (tokenAt source k).text.toLabel) (k + 1)
  | difference {k : Nat} : (tokenAt source k).type = .identifier →
      (tokenAt source (k + 1)).type = .minus → (tokenAt source (k + 2)).type = .identifier →
      NameAt source k
        (.labelDiff (tokenAt source k).text.toLabel (tokenAt source (k + 2)).text.toLabel) (k + 3)

inductive BracketsAt (source : List Byte) : Nat → MemOperand → Nat → Prop
  | sum {k j m : Nat} {first : MemTerm} {more : List SignedTerm} {mem : MemOperand} :
      (tokenAt source k).type = .lbracket → TermAt source (k + 1) first j →
      TermsAt source j more m → sumOperand first more = some mem → BracketsAt source k mem (m + 1)
  | absolute {k : Nat} : (tokenAt source k).type = .lbracket →
      (tokenAt source (k + 1)).type = .identifier →
      eqIgnoreCase (tokenAt source (k + 1)).text.bytes (str "abs") = true →
      (tokenAt source (k + 2)).type = .number → (tokenAt source (k + 3)).type = .rbracket →
      BracketsAt source k
        { displacement := (tokenAt source (k + 2)).value.setWidth 32
          hasDisplacement := true, isAbsolute := true } (k + 4)

inductive OperandAt (source : List Byte) : Nat → Operand → Nat → Prop
  | reg {k : Nat} {r : Reg} {size : RegSize} : (tokenAt source k).type = .identifier →
      (tokenAt source (k + 1)).type ≠ .colon →
      parseRegister (tokenAt source k).text = some (r, size) →
      OperandAt source k (.reg r size) (k + 1)
  | name {k j : Nat} {op : Operand} : (tokenAt source (k + 1)).type ≠ .colon →
      parseRegister (tokenAt source k).text = none → NameAt source k op j → OperandAt source k op j
  | number {k : Nat} : (tokenAt source k).type = .number ∨ (tokenAt source k).type = .char →
      OperandAt source k (.imm (tokenAt source k).value) (k + 1)
  | dollarNumber {k : Nat} : (tokenAt source k).type = .dollar →
      (tokenAt source (k + 1)).type = .number →
      OperandAt source k (.imm (tokenAt source (k + 1)).value) (k + 2)
  -- behind a dollar, the name of a register is a label
  | dollarName {k j : Nat} {op : Operand} : (tokenAt source k).type = .dollar →
      NameAt source (k + 1) op j → OperandAt source k op j
  | mem {k j : Nat} {mem : MemOperand} : BracketsAt source k mem j → OperandAt source k (.mem mem) j
  | segment {k j : Nat} {mem : MemOperand} : (tokenAt source k).type = .identifier →
      parseSegmentOverrideName (tokenAt source k).text ≠ .default →
      (tokenAt source (k + 1)).type = .colon → BracketsAt source (k + 2) mem j →
      OperandAt source k
        (.mem { mem with segmentOverride := parseSegmentOverrideName (tokenAt source k).text }) j
  | string {k j : Nat} {text : Text} : (tokenAt source k).type = .string →
      StringsAt source (k + 1) (tokenAt source k).text text j → OperandAt source k (.string text) j

/-- Operands up to the end of the line; a comma may stand behind each. -/
inductive OperandsAt (source : List Byte) : Nat → List Operand → Nat → Prop
  | done {k : Nat} : ClosesLine (tokenAt source k).type → OperandsAt source k [] k
  | comma {k j m : Nat} {op : Operand} {ops : List Operand} : OperandAt source k op j →
      (tokenAt source j).type = .comma → OperandsAt source (j + 1) ops m →
      OperandsAt source k (op :: ops) m
  | next {k j m : Nat} {op : Operand} {ops : List Operand} : OperandAt source k op j →
      (tokenAt source j).type ≠ .comma → OperandsAt source j ops m →
      OperandsAt source k (op :: ops) m

def behindComma (source : List Byte) (k : Nat) : Nat :=
  if (tokenAt source k).type = .comma then k + 1 else k

/-- The name, the size and the alignment of a common symbol. -/
inductive CommonAt (source : List Byte) : Nat → List Operand → Nat → Prop
  | size {k n : Nat} : (tokenAt source k).type = .identifier → n = behindComma source (k + 1) →
      (tokenAt source n).type = .number → (tokenAt source (n + 1)).type ≠ .comma →
      CommonAt source k [.label (tokenAt source k).text.toLabel, .imm (tokenAt source n).value]
        (n + 1)
  | aligned {k n : Nat} : (tokenAt source k).type = .identifier → n = behindComma source (k + 1) →
      (tokenAt source n).type = .number → (tokenAt source (n + 1)).type = .comma →
      (tokenAt source (n + 2)).type = .number →
      CommonAt source k [.label (tokenAt source k).text.toLabel, .imm (tokenAt source n).value,
        .imm (tokenAt source (n + 2)).value] (n + 3)

def isSseInst (type : InstType) : Bool :=
  isSseMoveInst type || isSseArithInst type || isSsePackedInst type

def sseShape (type : InstType) : List Operand → Bool
  | [dst, src] =>
    if isXmmRegOperand dst then !isSseInst type || isXmmRegOperand src || src.isMem
    else !isSseInst type || isSseMoveInst type && isXmmRegOperand src
  | _ => !isSseInst type

/-- With operands, `movsd` is the move of a double. -/
def writtenType (type : InstType) (ops : List Operand) : InstType :=
  if type = .movsd ∧ ops ≠ [] then .movsdXmm else type

structure WrittenStatement where
  label : Option Label
  type : InstType
  operands : List Operand
deriving DecidableEq

def Operand.isConstant : Operand → Bool
  | .imm _ | .label _ | .labelDiff _ _ => true
  | _ => false

/-- The word behind a name is `equ`. -/
def EquNext (source : List Byte) (k : Nat) : Prop :=
  (tokenAt source (k + 1)).type = .identifier ∧
    eqIgnoreCase (tokenAt source (k + 1)).text.bytes (str "equ") = true

instance (source : List Byte) (k : Nat) : Decidable (EquNext source k) :=
  inferInstanceAs (Decidable (_ ∧ _))

inductive BodyAt (source : List Byte) (label : Option Label) : Nat → WrittenStatement → Nat → Prop
  | empty {k : Nat} : ClosesLine (tokenAt source k).type → BodyAt source label k ⟨label, .nop, []⟩ k
  | equ {k j : Nat} {op : Operand} : (tokenAt source k).type = .identifier → EquNext source k →
      OperandAt source (k + 2) op j → op.isConstant = true →
      BodyAt source label k ⟨some (tokenAt source k).text.toLabel, .equ, [op]⟩ j
  | shorthand {k : Nat} : (tokenAt source k).type = .identifier →
      lookupInstructionType (tokenAt source k).text = some .sectionDir →
      isSectionKeyword (tokenAt source k).text = false → ClosesLine (tokenAt source (k + 1)).type →
      BodyAt source label k ⟨label, .sectionDir, [.label (tokenAt source k).text.toLabel]⟩ (k + 1)
  | common {k j : Nat} {type : InstType} {ops : List Operand} :
      (tokenAt source k).type = .identifier → ¬ EquNext source k →
      lookupInstructionType (tokenAt source k).text = some type → type = .comm ∨ type = .lcomm →
      CommonAt source (k + 1) ops j → BodyAt source label k ⟨label, type, ops⟩ j
  | operands {k j : Nat} {type : InstType} {ops : List Operand} :
      (tokenAt source k).type = .identifier → ¬ EquNext source k →
      lookupInstructionType (tokenAt source k).text = some type → type ≠ .comm ∧ type ≠ .lcomm →
      (type = .sectionDir → isSectionKeyword (tokenAt source k).text = true) →
      OperandsAt source (k + 1) ops j → ops.length ≤ maxOperands →
      sseShape (writtenType type ops) ops = true →
      BodyAt source label k ⟨label, writtenType type ops, ops⟩ j

inductive StatementAt (source : List Byte) : Nat → WrittenStatement → Nat → Prop
  | labelled {k j : Nat} {s : WrittenStatement} : (tokenAt source k).type = .identifier →
      (tokenAt source (k + 1)).type = .colon →
      BodyAt source (some (tokenAt source k).text.toLabel) (k + 2) s j → StatementAt source k s j
  | plain {k j : Nat} {s : WrittenStatement} : (tokenAt source k).type = .identifier →
      (tokenAt source (k + 1)).type ≠ .colon → BodyAt source none k s j → StatementAt source k s j

/-- Lines up to the end of the source, with a statement on each that is not blank. -/
inductive LinesAt (source : List Byte) : Nat → List WrittenStatement → Prop
  | done {k : Nat} : (tokenAt source k).type = .eof → LinesAt source k []
  | blank {k : Nat} {ss : List WrittenStatement} : (tokenAt source k).type = .newline →
      LinesAt source (k + 1) ss → LinesAt source k ss
  | line {k j : Nat} {s : WrittenStatement} {ss : List WrittenStatement} : StatementAt source k s j →
      (tokenAt source j).type = .newline → LinesAt source (j + 1) ss → LinesAt source k (s :: ss)
  | last {k j : Nat} {s : WrittenStatement} : StatementAt source k s j →
      (tokenAt source j).type = .eof → LinesAt source k [s]

structure ParsedInstruction.Says (inst : ParsedInstruction) (s : WrittenStatement) : Prop where
  label : inst.label = s.label
  type : inst.type = s.type
  operands : inst.operands = s.operands

def ReadsTo {α : Type} (source : List Byte) (m : Parser α) (p : ParserState) (a : α) (j : Nat) :
    Prop := ∃ q, m p = (some a, q) ∧ StandsAt source j q

section Run

variable {α β : Type} {source : List Byte} {k j : Nat} {p : ParserState}

theorem ReadsTo.bind {m : Parser α} {f : α → Parser β} {a : α} {b : β}
    (hm : ReadsTo source m p a j)
    (hf : ∀ q, StandsAt source j q → ReadsTo source (f a) q b k) :
    ReadsTo source (m >>= f) p b k := by
  obtain ⟨q, hrun, hq⟩ := hm
  obtain ⟨r, hmore, hr⟩ := hf q hq
  exact ⟨r, (Fallible.bind_of_some hrun).trans hmore, hr⟩

theorem readsTo_pure (hp : StandsAt source k p) (a : α) : ReadsTo source (pure a) p a k :=
  ⟨p, rfl, hp⟩

theorem readsTo_current {f : Token → Parser α} {a : α} (hp : StandsAt source k p)
    (hf : ReadsTo source (f (tokenAt source k)) p a j) :
    ReadsTo source (Parser.current >>= f) p a j := by
  obtain ⟨q, hrun, hq⟩ := hf
  refine ⟨q, ?_, hq⟩
  rw [Fallible.bind_of_some (current_run p), hp.current]
  exact hrun

theorem readsTo_get {f : ParserState → Parser α} {a : α} (hf : ReadsTo source (f p) p a j) :
    ReadsTo source (Fallible.get >>= f) p a j := by
  obtain ⟨q, hrun, hq⟩ := hf
  exact ⟨q, (Fallible.bind_of_some (Fallible.get_run p)).trans hrun, hq⟩

theorem readsTo_advance {f : Unit → Parser α} {a : α} (hp : StandsAt source k p)
    (hf : ∀ q, StandsAt source (k + 1) q → ReadsTo source (f ()) q a j) :
    ReadsTo source (Parser.advance >>= f) p a j :=
  ReadsTo.bind ⟨p.advance, advance_run p, standsAt_advance hp⟩ hf

theorem readsTo_next {f : Token → Parser α} {a : α} (hp : StandsAt source k p)
    (hf : ∀ q, StandsAt source (k + 1) q → ReadsTo source (f (tokenAt source k)) q a j) :
    ReadsTo source (Parser.next >>= f) p a j := by
  refine ReadsTo.bind ⟨p.advance, ?_, standsAt_advance hp⟩ hf
  rw [Parser.next, Fallible.bind_of_some (current_run p), Fallible.bind_of_some (advance_run p),
    hp.current]
  rfl

theorem readsTo_expect {type : TokenType} {f : Bool → Parser α} {a : α} (hp : StandsAt source k p)
    (htype : (tokenAt source k).type = type)
    (hf : ∀ q, StandsAt source (k + 1) q → ReadsTo source (f true) q a j) :
    ReadsTo source (Parser.expect type >>= f) p a j :=
  ReadsTo.bind ⟨p.advance, expect_run (by rw [hp.current, htype]), standsAt_advance hp⟩ hf

theorem readsTo_expect_ne {type : TokenType} {f : Bool → Parser α} {a : α}
    (hp : StandsAt source k p) (htype : (tokenAt source k).type ≠ type)
    (hf : ReadsTo source (f false) p a j) : ReadsTo source (Parser.expect type >>= f) p a j := by
  obtain ⟨q, hrun, hq⟩ := hf
  refine ⟨q, ?_, hq⟩
  rw [Fallible.bind_of_some (expect_run_of_ne (by rwa [hp.current]))]
  exact hrun

theorem readsTo_require {type : TokenType} {message : String} {f : Unit → Parser α} {a : α}
    (hp : StandsAt source k p) (htype : (tokenAt source k).type = type)
    (hf : ∀ q, StandsAt source (k + 1) q → ReadsTo source (f ()) q a j) :
    ReadsTo source (Parser.require type message >>= f) p a j :=
  ReadsTo.bind ⟨p.advance, require_run (by rw [hp.current, htype]), standsAt_advance hp⟩ hf

theorem closeBracket_readsTo {f : Unit → Parser α} {a : α} (hp : StandsAt source k p)
    (htype : (tokenAt source k).type = .rbracket)
    (hf : ∀ q, StandsAt source (k + 1) q → ReadsTo source (f ()) q a j) :
    ReadsTo source (Parser.closeBracket >>= f) p a j := readsTo_require hp htype hf

theorem firstTerm_abs {first : MemTerm} {mem : MemOperand} (h : firstTerm first = some mem)
    (name : Text) (hname : first = .label name) : eqIgnoreCase name.bytes (str "abs") = false := by
  subst hname
  rw [firstTerm] at h
  split at h
  · cases h
  · next hne => exact Bool.eq_false_iff.mpr hne

theorem sumOperand_eq_some {first : MemTerm} {more : List SignedTerm} {mem : MemOperand}
    (h : sumOperand first more = some mem) : ∃ start sum, firstTerm first = some start ∧
      more.foldlM nextTerm start = some sum ∧ ripAlone sum = some mem := by
  obtain ⟨start, hstart, h⟩ := Option.bind_eq_some_iff.mp h
  obtain ⟨sum, hsum, h⟩ := Option.bind_eq_some_iff.mp h
  exact ⟨start, sum, hstart, hsum, h⟩

theorem parseMemoryOperand_readsTo {mem : MemOperand} (hp : StandsAt source k p)
    (h : BracketsAt source k mem j) : ReadsTo source Parser.parseMemoryOperand p mem j := by
  rw [Parser.parseMemoryOperand]
  cases h with
  | sum hopen ht hterms hmem =>
      obtain ⟨start, sum, hstart, hsum, hrip⟩ := sumOperand_eq_some hmem
      have habs := firstTerm_abs hstart
      refine readsTo_require hp hopen fun q hq => readsTo_current hq ?_
      rw [if_neg]
      · refine readsTo_get ?_
        have hrun := memComponents_sum hq ht hterms habs (Nat.le_refl q.remaining)
        rw [hstart, Option.bind_some, hsum] at hrun
        refine ReadsTo.bind hrun fun r hr => closeBracket_readsTo hr hterms.closed fun s hs => ?_
        rw [ripAlone] at hrip
        split at hrip
        · cases hrip
        · next hne =>
            cases hrip
            rw [if_neg hne]
            exact readsTo_pure hs mem
      · rw [Bool.and_eq_true, decide_eq_true_eq]
        rintro ⟨htype, hname⟩
        cases ht with
        | reg _ hreg =>
            rw [parseRegister_abs hname] at hreg
            cases hreg
        | scaled _ hreg =>
            rw [parseRegister_abs hname] at hreg
            cases hreg
        | num hnumber =>
            rw [hnumber] at htype
            cases htype
        | label =>
            have hfalse := habs _ rfl
            rw [hname] at hfalse
            cases hfalse
  | absolute hopen htype hname hnumber hclose =>
      refine readsTo_require hp hopen fun q hq => readsTo_current hq ?_
      rw [if_pos (by simp [htype, hname])]
      refine readsTo_advance hq fun r hr => ?_
      rw [Parser.absoluteAddress]
      refine readsTo_current hr ?_
      rw [if_pos hnumber]
      exact readsTo_advance hr fun s hs => closeBracket_readsTo hs hclose fun t ht =>
        readsTo_pure ht _

theorem stringConcat_readsTo {text out : Text} (h : StringsAt source k text out j) {rounds : Nat}
    (hp : StandsAt source k p) (hrounds : p.remaining ≤ rounds) :
    ReadsTo source (Parser.stringConcat rounds text) p out j := by
  induction h generalizing p rounds with
  | done hne =>
      cases rounds with
      | zero => exact readsTo_pure hp _
      | succ rounds =>
          rw [Parser.stringConcat]
          refine readsTo_current hp ?_
          rw [if_neg hne]
          exact readsTo_pure hp _
  | more htype _ ih =>
      have heof : p.current.type ≠ .eof := by
        rw [hp.current, htype]
        decide
      cases rounds with
      | zero => exact absurd (Parser.eof_of_remaining (Nat.le_zero.mp hrounds)) heof
      | succ rounds =>
          rw [Parser.stringConcat]
          refine readsTo_current hp ?_
          rw [if_pos htype]
          have hless := (advance_further heof).remaining
          have hmore := ih (standsAt_advance hp) (Nat.lt_succ_iff.mp (Nat.lt_of_lt_of_le hless hrounds))
          obtain ⟨q, hrun, hq⟩ := hmore
          exact ⟨q, (Fallible.bind_of_some (advance_run p)).trans hrun, hq⟩

theorem labelExpression_readsTo {op : Operand} (hp : StandsAt source (k + 1) p)
    (h : NameAt source k op j) :
    ReadsTo source (Parser.labelExpression (tokenAt source k).text.toLabel) p op j := by
  rw [Parser.labelExpression]
  apply readsTo_get
  rw [hp.current, hp.peek]
  cases h with
  | label _ hminus =>
      rw [if_neg (by simpa using hminus)]
      exact readsTo_pure hp _
  | difference _ hminus hname =>
      rw [if_pos (by simp [hminus, hname])]
      exact readsTo_advance hp fun q hq => readsTo_next hq fun r hr => readsTo_pure hr _

theorem NameAt.head {op : Operand} (h : NameAt source k op j) :
    (tokenAt source k).type = .identifier := by
  cases h with
  | label h => exact h
  | difference h => exact h

theorem BracketsAt.head {mem : MemOperand} (h : BracketsAt source k mem j) :
    (tokenAt source k).type = .lbracket := by
  cases h with
  | sum h => exact h
  | absolute h => exact h

theorem parseOperand_readsTo {op : Operand} (hp : StandsAt source k p)
    (h : OperandAt source k op j) : ReadsTo source Parser.parseOperand p op j := by
  rw [Parser.parseOperand]
  apply readsTo_get
  rw [hp.current, hp.peek]
  cases h with
  | reg htype hcolon hreg =>
      rw [if_neg (by simp [hcolon]), htype, Parser.identifierOperand]
      refine readsTo_advance hp fun q hq => ?_
      rw [hreg]
      exact readsTo_pure hq _
  | name hcolon hreg hname =>
      rw [if_neg (by simp [hcolon]), hname.head, Parser.identifierOperand]
      refine readsTo_advance hp fun q hq => ?_
      rw [hreg]
      exact labelExpression_readsTo hq hname
  | number htype =>
      have hne : (tokenAt source k).type ≠ .identifier := by
        rcases htype with h | h <;> rw [h] <;> decide
      rw [if_neg (by simp [hne])]
      rcases htype with h | h
      all_goals
        rw [h]
        exact readsTo_advance hp fun q hq => readsTo_pure hq _
  | dollarNumber htype hnumber =>
      rw [if_neg (by simp [htype]), htype]
      refine readsTo_advance hp fun q hq => ?_
      rw [Parser.dollarOperand]
      refine readsTo_current hq ?_
      rw [if_pos hnumber]
      exact readsTo_advance hq fun r hr => readsTo_pure hr _
  | dollarName htype hname =>
      rw [if_neg (by simp [htype]), htype]
      refine readsTo_advance hp fun q hq => ?_
      rw [Parser.dollarOperand]
      refine readsTo_current hq ?_
      rw [if_neg (by rw [hname.head]; decide), if_pos hname.head]
      exact readsTo_advance hq fun r hr => labelExpression_readsTo hr hname
  | mem hmem =>
      rw [if_neg (by simp [hmem.head]), hmem.head]
      exact ReadsTo.bind (parseMemoryOperand_readsTo hp hmem) fun q hq => readsTo_pure hq _
  | segment htype hseg hcolon hmem =>
      rw [if_pos (by simp [htype, hcolon, hseg]), Parser.segmentOperand]
      refine readsTo_advance hp fun q hq => readsTo_advance hq fun r hr => readsTo_current hr ?_
      rw [if_pos hmem.head]
      exact ReadsTo.bind (parseMemoryOperand_readsTo hr hmem) fun s hs => readsTo_pure hs _
  | string htype hmore =>
      rw [if_neg (by simp [htype]), htype]
      refine readsTo_advance hp fun q hq => readsTo_get ?_
      exact ReadsTo.bind (stringConcat_readsTo hmore hq (Nat.le_refl _)) fun r hr => readsTo_pure hr _

theorem OperandAt.head {op : Operand} (h : OperandAt source k op j) :
    ¬ ClosesLine (tokenAt source k).type := by
  have hne : ∀ type, (tokenAt source k).type = type → ¬ ClosesLine type →
      ¬ ClosesLine (tokenAt source k).type := fun type htype hends => htype ▸ hends
  cases h with
  | reg h => exact hne _ h (by decide)
  | name _ _ h => exact hne _ h.head (by decide)
  | number h => rcases h with h | h <;> exact hne _ h (by decide)
  | dollarNumber h => exact hne _ h (by decide)
  | dollarName h => exact hne _ h (by decide)
  | mem h => exact hne _ h.head (by decide)
  | segment h => exact hne _ h (by decide)
  | string h => exact hne _ h (by decide)

theorem readsTo_skipComma {f : Bool → Parser α} {a : α} (hp : StandsAt source k p)
    (hf : ∀ b q, StandsAt source (behindComma source k) q → ReadsTo source (f b) q a j) :
    ReadsTo source (Parser.expect .comma >>= f) p a j := by
  by_cases hcomma : (tokenAt source k).type = .comma
  · rw [behindComma, if_pos hcomma] at hf
    exact readsTo_expect hp hcomma (hf true)
  · rw [behindComma, if_neg hcomma] at hf
    exact readsTo_expect_ne hp hcomma (hf false p hp)

theorem operandsUntilEol_done {rounds : Nat} {ops : List Operand} (hp : StandsAt source k p)
    (h : ClosesLine (tokenAt source k).type) :
    ReadsTo source (Parser.operandsUntilEol rounds ops) p ops k := by
  cases rounds with
  | zero => exact readsTo_pure hp ops
  | succ rounds =>
      rw [Parser.operandsUntilEol]
      refine readsTo_current hp ?_
      rw [if_pos (by simpa [ClosesLine] using h)]
      exact readsTo_pure hp ops

theorem operandsUntilEol_step {rounds i : Nat} {ops out : List Operand} {op : Operand}
    (hp : StandsAt source k p) (hop : OperandAt source k op j) (hroom : ops.length < maxOperands)
    (hrounds : p.remaining ≤ rounds)
    (hmore : ∀ n q, StandsAt source (behindComma source j) q → q.remaining ≤ n →
      ReadsTo source (Parser.operandsUntilEol n (ops ++ [op])) q out i) :
    ReadsTo source (Parser.operandsUntilEol rounds ops) p out i := by
  have hhead := hop.head
  have heof : p.current.type ≠ .eof := by
    rw [hp.current]
    exact fun h => hhead (.inr h)
  cases rounds with
  | zero => exact absurd (Parser.eof_of_remaining (Nat.le_zero.mp hrounds)) heof
  | succ rounds =>
      rw [Parser.operandsUntilEol]
      refine readsTo_current hp ?_
      rw [if_neg (by simpa [ClosesLine] using hhead), if_neg (Nat.not_le.mpr hroom)]
      obtain ⟨q, hrun, hq⟩ := parseOperand_readsTo hp hop
      have hless := ((Parser.parseOperand_consumes p heof).1 op q hrun).remaining
      obtain ⟨b, r, hexpect, hr, hle⟩ : ∃ b r, Parser.expect .comma q = (some b, r) ∧
          StandsAt source (behindComma source j) r ∧ r.remaining ≤ q.remaining := by
        rw [behindComma]
        split
        · next hcomma =>
            exact ⟨true, q.advance, expect_run (by rw [hq.current, hcomma]), standsAt_advance hq,
              (advance_after q).remaining⟩
        · next hcomma =>
            exact ⟨false, q, expect_run_of_ne (by rwa [hq.current]), hq, Nat.le_refl _⟩
      obtain ⟨s, hrest, hs⟩ := hmore rounds r hr (by omega)
      refine ⟨s, ?_, hs⟩
      rw [Fallible.bind_of_some hrun, Fallible.bind_of_some hexpect]
      exact hrest

theorem operandsUntilEol_readsTo {ops : List Operand} (h : OperandsAt source k ops j)
    {rounds : Nat} {front : List Operand} (hp : StandsAt source k p) (hrounds : p.remaining ≤ rounds)
    (hroom : front.length + ops.length ≤ maxOperands) :
    ReadsTo source (Parser.operandsUntilEol rounds front) p (front ++ ops) j := by
  induction h generalizing p rounds front with
  | done hends =>
      rw [List.append_nil]
      exact operandsUntilEol_done hp hends
  | @comma k j m op ops hop hcomma _ ih =>
      rw [List.length_cons] at hroom
      refine operandsUntilEol_step hp hop (by omega) hrounds fun n q hq hn => ?_
      rw [behindComma, if_pos hcomma] at hq
      rw [List.append_cons front op ops]
      exact ih hq hn (by rw [List.length_append, List.length_singleton]; omega)
  | @next k j m op ops hop hcomma _ ih =>
      rw [List.length_cons] at hroom
      refine operandsUntilEol_step hp hop (by omega) hrounds fun n q hq hn => ?_
      rw [behindComma, if_neg hcomma] at hq
      rw [List.append_cons front op ops]
      exact ih hq hn (by rw [List.length_append, List.length_singleton]; omega)

theorem parseCommLcommOperands_readsTo {ops : List Operand} (hp : StandsAt source k p)
    (h : CommonAt source k ops j) : ReadsTo source Parser.parseCommLcommOperands p ops j := by
  rw [Parser.parseCommLcommOperands]
  refine readsTo_current hp ?_
  cases h with
  | size htype hn hnumber hcomma =>
      rw [if_pos htype]
      subst hn
      refine readsTo_advance hp fun q hq => readsTo_skipComma hq fun b r hr => readsTo_current hr ?_
      rw [if_pos hnumber]
      refine readsTo_advance hr fun s hs => ReadsTo.bind (j := behindComma source (k + 1) + 1) ?_ fun t ht =>
        readsTo_pure ht _
      exact readsTo_expect_ne hs hcomma (readsTo_pure hs _)
  | aligned htype hn hnumber hcomma halign =>
      rw [if_pos htype]
      subst hn
      refine readsTo_advance hp fun q hq => readsTo_skipComma hq fun b r hr => readsTo_current hr ?_
      rw [if_pos hnumber]
      refine readsTo_advance hr fun s hs => ReadsTo.bind (j := behindComma source (k + 1) + 3) ?_ fun t ht =>
        readsTo_pure ht _
      refine readsTo_expect hs hcomma fun t ht => readsTo_current ht ?_
      rw [if_pos halign]
      exact readsTo_advance ht fun u hu => readsTo_pure hu _

theorem not_isMem_of_xmm {op : Operand} (h : isXmmRegOperand op = true) : op.isMem = false := by
  cases op with
  | reg r size => rfl
  | none | imm _ | mem _ | label _ | labelDiff _ _ | string _ => cases h

theorem sseShape_pair {type : InstType} {ops : List Operand} (h : sseShape type ops = true)
    (hsse : isSseInst type = true) : ∃ dst src, ops = [dst, src] := by
  rcases ops with - | ⟨dst, - | ⟨src, - | ⟨op, ops⟩⟩⟩
  case cons.cons.nil => exact ⟨dst, src, rfl⟩
  all_goals simp [sseShape, hsse] at h

theorem isSseArith_notMove {type : InstType}
    (h : isSseArithInst type = true ∨ isSsePackedInst type = true) :
    isSseMoveInst type = false ∧ isSseInst type = true := by
  cases type <;> first
    | exact ⟨rfl, rfl⟩
    | rcases h with h | h <;> cases h

theorem validateSseMove_readsTo {type : InstType} {ops : List Operand} (hp : StandsAt source k p)
    (h : sseShape type ops = true) (htype : isSseMoveInst type = true) :
    ReadsTo source (Parser.validateSseMove ops) p () k := by
  have hsse : isSseInst type = true := by simp [isSseInst, htype]
  obtain ⟨dst, src, rfl⟩ := sseShape_pair h hsse
  rw [Parser.validateSseMove]
  cases hdst : isXmmRegOperand dst with
  | true =>
      have hmem := not_isMem_of_xmm hdst
      have hsrc : isXmmRegOperand src = true ∨ src.isMem = true := by
        simpa [sseShape, hdst, hsse] using h
      rw [if_neg (by simp [hmem]), if_neg (by simp [hmem]), if_neg, if_neg (by simp)]
      · exact readsTo_pure hp ()
      · rcases hsrc with h | h <;> simp [h]
  | false =>
      have hsrc : isXmmRegOperand src = true := by simpa [sseShape, hdst, hsse, htype] using h
      have hmem := not_isMem_of_xmm hsrc
      rw [if_neg (by simp [hmem]), if_neg (by simp [hsrc]), if_neg (by simp [hsrc]),
        if_neg (by simp [hsrc])]
      exact readsTo_pure hp ()

theorem validateSseBinary_readsTo {type : InstType} {ops : List Operand}
    {message₁ message₂ message₃ : String} (hp : StandsAt source k p) (h : sseShape type ops = true)
    (htype : isSseArithInst type = true ∨ isSsePackedInst type = true) :
    ReadsTo source (Parser.validateSseBinary message₁ message₂ message₃ ops) p () k := by
  obtain ⟨hmove, hsse⟩ := isSseArith_notMove htype
  obtain ⟨dst, src, rfl⟩ := sseShape_pair h hsse
  rw [Parser.validateSseBinary]
  cases hdst : isXmmRegOperand dst with
  | true =>
      have hsrc : isXmmRegOperand src = true ∨ src.isMem = true := by
        simpa [sseShape, hdst, hsse] using h
      rw [if_neg (by simp), if_neg]
      · exact readsTo_pure hp ()
      · rcases hsrc with h | h <;> simp [h]
  | false => simp [sseShape, hdst, hsse, hmove] at h

theorem validateSseOperands_readsTo {type : InstType} {ops : List Operand} (hp : StandsAt source k p)
    (h : sseShape type ops = true) : ReadsTo source (Parser.validateSseOperands type ops) p () k := by
  rw [Parser.validateSseOperands]
  split
  · next htype => exact validateSseMove_readsTo hp h htype
  split
  · next htype => exact validateSseBinary_readsTo hp h (.inl htype)
  split
  · next htype => exact validateSseBinary_readsTo hp h (.inr htype)
  · exact readsTo_pure hp ()

def ReadsStatement (source : List Byte) (m : Parser ParsedInstruction) (p : ParserState)
    (s : WrittenStatement) (j : Nat) : Prop :=
  ∃ inst, inst.Says s ∧ ReadsTo source m p inst j

theorem readsStatement_pure {inst : ParsedInstruction} {s : WrittenStatement}
    (hp : StandsAt source k p) (h : inst.Says s) : ReadsStatement source (pure inst) p s k :=
  ⟨inst, h, readsTo_pure hp inst⟩

theorem ReadsTo.statement {m : Parser α} {f : α → Parser ParsedInstruction} {a : α}
    {s : WrittenStatement} (hm : ReadsTo source m p a j)
    (hf : ∀ q, StandsAt source j q → ReadsStatement source (f a) q s k) :
    ReadsStatement source (m >>= f) p s k := by
  obtain ⟨q, hrun, hq⟩ := hm
  obtain ⟨inst, hsays, r, hmore, hr⟩ := hf q hq
  exact ⟨inst, hsays, r, (Fallible.bind_of_some hrun).trans hmore, hr⟩

structure ParsedInstruction.Opens (inst : ParsedInstruction) (label : Option Label) : Prop where
  label : inst.label = label
  type : inst.type = .nop
  operands : inst.operands = []

theorem maybeParseEqu_readsTo (inst : ParsedInstruction) (hp : StandsAt source k p)
    (h : ¬ EquNext source k) : ReadsTo source (Parser.maybeParseEquDirective inst) p none k := by
  rw [Parser.maybeParseEquDirective]
  apply readsTo_get
  rw [if_neg]
  · exact readsTo_pure hp none
  · rw [hp.peek]
    intro hequ
    simp only [Bool.and_eq_true, decide_eq_true_eq] at hequ
    exact h ⟨hequ.1.2, hequ.2⟩

theorem maybeParseEqu_blank (inst : ParsedInstruction) (hp : StandsAt source k p)
    (h : (tokenAt source k).type ≠ .identifier) :
    ReadsTo source (Parser.maybeParseEquDirective inst) p none k := by
  rw [Parser.maybeParseEquDirective]
  apply readsTo_get
  rw [hp.current, if_neg (by simp [h])]
  exact readsTo_pure hp none

theorem parseMnemonic_readsTo {inst : ParsedInstruction} {label : Option Label} {type : InstType}
    {ops : List Operand} (hopens : inst.Opens label) (hp : StandsAt source k p)
    (hlookup : lookupInstructionType (tokenAt source k).text = some type)
    (htype : type ≠ .comm ∧ type ≠ .lcomm)
    (hkeyword : type = .sectionDir → isSectionKeyword (tokenAt source k).text = true)
    (hops : OperandsAt source (k + 1) ops j) (hroom : ops.length ≤ maxOperands)
    (hsse : sseShape (writtenType type ops) ops = true) :
    ReadsStatement source (Parser.parseMnemonic inst (tokenAt source k).text) p
      ⟨label, writtenType type ops, ops⟩ j := by
  rw [Parser.parseMnemonic, hlookup]
  dsimp only
  refine ReadsTo.statement ⟨p.advance, advance_run p, standsAt_advance hp⟩ fun q hq => ?_
  rw [if_neg, if_neg (by simpa using htype)]
  · have hread : ReadsTo source Parser.parseOperandsUntilEol q ops j := by
      rw [Parser.parseOperandsUntilEol]
      apply readsTo_get
      have hempty : ([] : List Operand).length + ops.length ≤ maxOperands := by
        rw [List.length_nil, Nat.zero_add]
        exact hroom
      exact operandsUntilEol_readsTo hops hq (Nat.le_refl _) hempty
    refine hread.statement fun r hr => ?_
    have hwritten : (if type = .movsd && ops ≠ [] then .movsdXmm else type) =
        writtenType type ops := by
      rw [writtenType]
      simp only [Bool.and_eq_true, decide_eq_true_eq]
    rw [hwritten]
    exact (validateSseOperands_readsTo hr hsse).statement fun s hs =>
      readsStatement_pure hs ⟨hopens.label, rfl, rfl⟩
  · intro h
    simp only [Bool.and_eq_true, decide_eq_true_eq, Bool.not_eq_true'] at h
    rw [hkeyword h.1] at h
    exact absurd h.2 (by decide)

theorem parseBody_readsTo {inst : ParsedInstruction} {label : Option Label} {s : WrittenStatement}
    (hopens : inst.Opens label) (hp : StandsAt source k p) (h : BodyAt source label k s j) :
    ReadsStatement source (Parser.parseBody inst) p s j := by
  rw [Parser.parseBody]
  cases h with
  | empty hends =>
      have hne : (tokenAt source k).type ≠ .identifier := by
        rcases hends with h | h <;> rw [h] <;> decide
      refine (maybeParseEqu_blank inst hp hne).statement fun q hq => ?_
      refine ReadsTo.statement ⟨q, current_run q, hq⟩ fun r hr => ?_
      rw [hq.current, if_neg hne]
      exact readsStatement_pure hr ⟨hopens.label, hopens.type, hopens.operands⟩
  | @equ _ op htype hequ hop hconstant =>
      have hread : ReadsTo source (Parser.maybeParseEquDirective inst) p
          (some { inst with
            type := .equ
            label := some (tokenAt source k).text.toLabel
            labelColumn := (tokenAt source k).column
            operands := inst.operands ++ [op] }) j := by
        rw [Parser.maybeParseEquDirective]
        apply readsTo_get
        rw [hp.current, hp.peek, if_pos (by simp [htype, hequ.1, hequ.2])]
        refine ReadsTo.bind (j := j) ?_ fun q hq => readsTo_pure hq _
        rw [Parser.equDefinition]
        refine readsTo_advance hp fun q hq => readsTo_advance hq fun r hr =>
          ReadsTo.bind (parseOperand_readsTo hr hop) fun t ht => ?_
        cases op with
        | imm _ | label _ | labelDiff _ _ => exact readsTo_pure ht _
        | none | reg _ _ | mem _ | string _ => cases hconstant
      refine hread.statement fun q hq => readsStatement_pure hq ⟨rfl, rfl, ?_⟩
      rw [hopens.operands]
      rfl
  | shorthand htype hlookup hkeyword hends =>
      have hequ : ¬ EquNext source k := by
        rintro ⟨hname, -⟩
        rcases hends with h | h <;> rw [h] at hname <;> cases hname
      refine (maybeParseEqu_readsTo inst hp hequ).statement fun q hq => ?_
      refine ReadsTo.statement ⟨q, current_run q, hq⟩ fun r hr => ?_
      rw [hq.current, if_pos htype, Parser.parseMnemonic, hlookup]
      refine ReadsTo.statement ⟨r.advance, advance_run r, standsAt_advance hr⟩ fun t ht => ?_
      rw [if_pos (by simp [hkeyword]), Parser.applySectionShorthand]
      refine ReadsTo.statement ⟨t, current_run t, ht⟩ fun u hu => ?_
      rw [ht.current, if_pos (by simpa [ClosesLine] using hends)]
      exact readsStatement_pure hu ⟨hopens.label, rfl, rfl⟩
  | @common _ type ops htype hequ hlookup hcommon hops =>
      refine (maybeParseEqu_readsTo inst hp hequ).statement fun q hq => ?_
      refine ReadsTo.statement ⟨q, current_run q, hq⟩ fun r hr => ?_
      rw [hq.current, if_pos htype, Parser.parseMnemonic, hlookup]
      refine ReadsTo.statement ⟨r.advance, advance_run r, standsAt_advance hr⟩ fun t ht => ?_
      rw [if_neg, if_pos (by simpa using hcommon)]
      · exact (parseCommLcommOperands_readsTo ht hops).statement fun u hu =>
          readsStatement_pure hu ⟨hopens.label, rfl, rfl⟩
      · rcases hcommon with rfl | rfl <;> simp
  | operands htype hequ hlookup hnot hkeyword hops hroom hsse =>
      refine (maybeParseEqu_readsTo inst hp hequ).statement fun q hq => ?_
      refine ReadsTo.statement ⟨q, current_run q, hq⟩ fun r hr => ?_
      rw [hq.current, if_pos htype]
      exact parseMnemonic_readsTo hopens hr hlookup hnot hkeyword hops hroom hsse

theorem StatementAt.head {s : WrittenStatement} (h : StatementAt source k s j) :
    (tokenAt source k).type = .identifier := by
  cases h with
  | labelled h => exact h
  | plain h => exact h

theorem parseLabel_labelled (inst : ParsedInstruction) (hp : StandsAt source k p)
    (htype : (tokenAt source k).type = .identifier) (hcolon : (tokenAt source (k + 1)).type = .colon) :
    ReadsTo source (Parser.parseLabel inst) p
      { inst with
        label := some (tokenAt source k).text.toLabel
        labelColumn := (tokenAt source k).column } (k + 2) := by
  rw [Parser.parseLabel]
  apply readsTo_get
  rw [hp.current, hp.peek, if_pos (by simp [htype, hcolon])]
  exact readsTo_advance hp fun q hq => readsTo_advance hq fun r hr => readsTo_pure hr _

theorem parseLabel_plain (inst : ParsedInstruction) (hp : StandsAt source k p)
    (h : (tokenAt source k).type = .identifier → (tokenAt source (k + 1)).type ≠ .colon) :
    ReadsTo source (Parser.parseLabel inst) p inst k := by
  rw [Parser.parseLabel]
  apply readsTo_get
  rw [hp.current, hp.peek, if_neg (by simpa using h)]
  exact readsTo_pure hp inst

theorem parseInstruction_readsTo {s : WrittenStatement} (hp : StandsAt source k p)
    (h : StatementAt source k s j ∨
      (tokenAt source k).type = .newline ∧ s = ⟨none, .nop, []⟩ ∧ j = k) :
    ReadsStatement source Parser.parseInstruction p s j := by
  have heof : p.current.type ≠ .eof := by
    rw [hp.current]
    rcases h with h | ⟨h, -⟩
    · rw [h.head]
      decide
    · rw [h]
      decide
  rw [Parser.parseInstruction]
  refine ReadsTo.statement ⟨p, Fallible.get_run p, hp⟩ fun q hq => ?_
  rw [if_neg heof]
  rcases h with (⟨htype, hcolon, hbody⟩ | ⟨-, hcolon, hbody⟩) | ⟨htype, rfl, rfl⟩
  · exact (parseLabel_labelled _ hq htype hcolon).statement fun r hr =>
      parseBody_readsTo ⟨rfl, rfl, rfl⟩ hr hbody
  · exact (parseLabel_plain _ hq fun _ => hcolon).statement fun r hr =>
      parseBody_readsTo ⟨rfl, rfl, rfl⟩ hr hbody
  · exact (parseLabel_plain _ hq fun h => absurd (htype.symm.trans h) (by decide)).statement
      fun r hr => parseBody_readsTo ⟨rfl, rfl, rfl⟩ hr (.empty (.inl htype))

theorem parseRounds_done {insts : List ParsedInstruction} (hp : StandsAt source k p)
    (h : (tokenAt source k).type = .eof) : parseRounds 1 ⟨p, insts⟩ = some (some insts) := by
  rw [parseRounds, parseRound, if_pos (by rw [hp.current, h])]

theorem skipNewline_newline (hp : StandsAt source k p) (h : (tokenAt source k).type = .newline) :
    StandsAt source (k + 1) (skipNewline p) := by
  rw [skipNewline, if_pos (by rw [hp.current, h])]
  exact standsAt_advance hp

theorem skipNewline_eof (hp : StandsAt source k p) (h : (tokenAt source k).type = .eof) :
    StandsAt source k (skipNewline p) := by
  rw [skipNewline, if_neg (by rw [hp.current, h]; decide)]
  exact hp

theorem parseRounds_blank {insts : List ParsedInstruction} (hp : StandsAt source k p)
    (h : (tokenAt source k).type = .newline) : ∃ q, StandsAt source (k + 1) q ∧
      ∀ rounds, parseRounds (rounds + 1) ⟨p, insts⟩ = parseRounds rounds ⟨q, insts⟩ := by
  obtain ⟨inst, hsays, q, hparse, hq⟩ := parseInstruction_readsTo hp (.inr ⟨h, rfl, rfl⟩)
  refine ⟨skipNewline q, skipNewline_newline hq h, fun rounds => ?_⟩
  have hdropped : shouldKeepInstruction inst (tokenAt source k).type = false := by
    rw [shouldKeepInstruction, hsays.type, hsays.label, h]
    rfl
  rw [parseRounds, parseRound, if_neg (by rw [hp.current, h]; decide), hparse]
  dsimp only
  rw [hp.current, hdropped, if_neg Bool.false_ne_true]

theorem parseRounds_statement {insts : List ParsedInstruction} {s : WrittenStatement}
    (hp : StandsAt source k p) (h : StatementAt source k s j) :
    ∃ inst q, inst.Says s ∧ StandsAt source j q ∧ ∀ rounds,
      parseRounds (rounds + 1) ⟨p, insts⟩ = parseRounds rounds ⟨skipNewline q, insts ++ [inst]⟩ := by
  obtain ⟨inst, hsays, q, hparse, hq⟩ := parseInstruction_readsTo hp (.inl h)
  refine ⟨inst, q, hsays, hq, fun rounds => ?_⟩
  have hkept : shouldKeepInstruction inst (tokenAt source k).type = true := by
    rw [shouldKeepInstruction, h.head, Bool.or_eq_true]
    exact .inr rfl
  rw [parseRounds, parseRound, if_neg (by rw [hp.current, h.head]; decide), hparse]
  dsimp only
  rw [hp.current, hkept, if_pos rfl]

theorem parseRounds_lines {ss : List WrittenStatement} (h : LinesAt source k ss)
    {front : List ParsedInstruction} (hp : StandsAt source k p) :
    ∃ rounds insts, List.Forall₂ ParsedInstruction.Says insts ss ∧
      parseRounds rounds ⟨p, front⟩ = some (some (front ++ insts)) := by
  induction h generalizing p front with
  | done heof => exact ⟨1, [], .nil, by rw [List.append_nil]; exact parseRounds_done hp heof⟩
  | blank hnewline _ ih =>
      obtain ⟨q, hq, hround⟩ := @parseRounds_blank _ _ _ front hp hnewline
      obtain ⟨rounds, insts, hsays, hmore⟩ := @ih q front hq
      exact ⟨rounds + 1, insts, hsays, (hround rounds).trans hmore⟩
  | line hstatement hnewline _ ih =>
      obtain ⟨inst, q, hfirst, hq, hround⟩ := @parseRounds_statement _ _ _ _ front _ hp hstatement
      obtain ⟨rounds, insts, hsays, hmore⟩ :=
        @ih (skipNewline q) (front ++ [inst]) (skipNewline_newline hq hnewline)
      refine ⟨rounds + 1, inst :: insts, .cons hfirst hsays, (hround rounds).trans ?_⟩
      rw [hmore, List.append_cons front inst insts]
  | last hstatement heof =>
      obtain ⟨inst, q, hfirst, hq, hround⟩ := @parseRounds_statement _ _ _ _ front _ hp hstatement
      refine ⟨2, [inst], .cons hfirst .nil, (hround 1).trans ?_⟩
      exact parseRounds_done (skipNewline_eof hq heof) heof

end Run

/-- A source whose lines follow the grammar is parsed to what its lines say. -/
theorem parseRounds_grammar {source : List Byte} {ss : List WrittenStatement}
    (h : LinesAt source 0 ss) :
    ∃ rounds insts, parseRounds rounds (parseStart source) = some (some insts) ∧
      List.Forall₂ ParsedInstruction.Says insts ss := by
  obtain ⟨rounds, insts, hsays, hparse⟩ := @parseRounds_lines _ _ _ _ h [] (standsAt_start source)
  exact ⟨rounds, insts, hparse, hsays⟩

def againText : List Byte := str "again: add rax,[rdi+8] ; sum\n\n .comm room 64\njne again"

def againStatements : List WrittenStatement :=
  [⟨some (CString.lit _ "again"), .add, [.reg 0 .size64,
      .mem { base := some 7, displacement := 8, hasDisplacement := true }]⟩,
    ⟨none, .comm, [.label (CString.lit _ "room"), .imm 64]⟩,
    ⟨none, .jne, [.label (CString.lit _ "again")]⟩]

/-- A label, a memory operand, a comment, a blank line and a comma that is left out. -/
theorem parseRounds_grammar_again : ∃ rounds insts,
    parseRounds rounds (parseStart againText) = some (some insts) ∧
      List.Forall₂ ParsedInstruction.Says insts againStatements := by
  have hagain : (tokenAt againText 0).text.toLabel = CString.lit _ "again" := by decide +kernel
  have hroom : (tokenAt againText 13).text.toLabel = CString.lit _ "room" := by decide +kernel
  have hsize : (tokenAt againText 14).value = 64 := by decide +kernel
  have htarget : (tokenAt againText 17).text.toLabel = CString.lit _ "again" := by decide +kernel
  have haddOps : OperandsAt againText 3 [.reg 0 .size64,
      .mem { base := some 7, displacement := 8, hasDisplacement := true }] 10 :=
    .comma (.reg (by decide +kernel) (by decide +kernel) (by decide +kernel)) (by decide +kernel)
      (.next (.mem (.sum (by decide +kernel)
          (@TermAt.reg _ _ 7 .size64 (by decide +kernel) (by decide +kernel))
          (.plus (by decide +kernel) (.num_of (v := 8) (by decide +kernel))
            (.close (by decide +kernel))) (by decide +kernel)))
        (by decide +kernel) (.done (by decide +kernel)))
  have hadd : BodyAt againText (some (CString.lit _ "again")) 2 ⟨_, .add, _⟩ 10 :=
    @BodyAt.operands _ _ _ _ .add _ (by decide +kernel) (by decide +kernel) (by decide +kernel)
      (by decide) (by decide) haddOps (by decide) (by decide)
  have hcomm : BodyAt againText none 12
      ⟨none, .comm, [.label (CString.lit _ "room"), .imm 64]⟩ 15 := by
    rw [← hroom, ← hsize]
    exact .common (by decide +kernel) (by decide +kernel) (by decide +kernel) (.inl rfl)
      (.size (by decide +kernel) (by decide +kernel) (by decide +kernel) (by decide +kernel))
  have hjneOps : OperandsAt againText 17 [.label (CString.lit _ "again")] 18 := by
    rw [← htarget]
    exact .next (.name (by decide +kernel) (by decide +kernel) (.label (by decide +kernel)
      (by decide +kernel))) (by decide +kernel) (.done (by decide +kernel))
  have hjne : BodyAt againText none 16 ⟨none, .jne, _⟩ 18 :=
    @BodyAt.operands _ _ _ _ .jne _ (by decide +kernel) (by decide +kernel) (by decide +kernel)
      (by decide) (by decide) hjneOps (by decide) (by decide)
  rw [← hagain] at hadd
  have hlines : LinesAt againText 0 againStatements := by
    rw [againStatements, ← hagain]
    exact .line (.labelled (by decide +kernel) (by decide +kernel) hadd) (by decide +kernel)
      (.blank (by decide +kernel) (.line (.plain (by decide +kernel) (by decide +kernel) hcomm)
        (by decide +kernel) (.last (.plain (by decide +kernel) (by decide +kernel) hjne)
          (by decide +kernel))))
  exact parseRounds_grammar hlines

end X86Assembler
