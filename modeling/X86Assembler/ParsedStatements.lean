import X86Assembler.SourceGrammar
import X86Assembler.TokenSpelling

namespace X86Assembler

open CString (Byte CStr str isDigit isXDigit)
open Fallible (Ensures ensures_pure)

structure ProperName {cap : Nat} (name : CStr cap) : Prop where
  ne : name.bytes ≠ []
  chars : ∀ b ∈ name.bytes, isIdentifierChar b = true

def RegisterOf (r : Reg) : RegSize → Prop
  | .xmm => 16 ≤ r.val ∧ r.val < 32
  | .size8h => 4 ≤ r.val ∧ r.val < 8
  | .size64 => r.val < 16 ∨ r = Reg.rip
  | .size8 | .size16 | .size32 => r.val < 16

instance (r : Reg) : (size : RegSize) → Decidable (RegisterOf r size)
  | .xmm => inferInstanceAs (Decidable (16 ≤ r.val ∧ r.val < 32))
  | .size8h => inferInstanceAs (Decidable (4 ≤ r.val ∧ r.val < 8))
  | .size64 => inferInstanceAs (Decidable (r.val < 16 ∨ r = Reg.rip))
  | .size8 | .size16 | .size32 => inferInstanceAs (Decidable (r.val < 16))

/-- What the parts of a memory operand keep to while they are read. -/
structure MemOperand.Sound (m : MemOperand) : Prop where
  base : m.base ≠ some Reg.rip
  scale : m.scale = 1 ∨ m.scale = 2 ∨ m.scale = 4 ∨ m.scale = 8
  unscaled : m.index = none → m.scale = 1
  displacement : m.hasDisplacement = false → m.displacement = 0
  label : m.label = Label.empty ∨ ProperName m.label

structure MemOperand.Sum (m : MemOperand) : Prop extends m.Sound where
  relative : m.isAbsolute = false

structure MemOperand.WellFormed (m : MemOperand) : Prop extends m.Sound where
  /-- `rip` stands without a base and an index. -/
  rip : m.isRipRelative = true → m.base = none ∧ m.index = none
  /-- An absolute address is a number. -/
  absolute : m.isAbsolute = true → m.base = none ∧ m.index = none ∧ m.isRipRelative = false ∧
    m.label = Label.empty ∧ m.hasDisplacement = true

def Operand.WellFormed : Operand → Prop
  | .reg r size => RegisterOf r size
  | .mem m => m.WellFormed
  | .label name => ProperName name
  | .labelDiff lhs rhs => ProperName lhs ∧ ProperName rhs
  | .imm _ | .string _ => True
  | .none => False

theorem sum_empty : MemOperand.Sum {} :=
  { base := (Option.some_ne_none _).symm, scale := .inl rfl, unscaled := fun _ => rfl
    displacement := fun _ => rfl, label := .inl rfl, relative := rfl }

structure SoundOperands (ops : List Operand) : Prop where
  each : ∀ op ∈ ops, op.WellFormed
  count : ops.length ≤ maxOperands

theorem SoundOperands.snoc {ops : List Operand} {op : Operand} (h : SoundOperands ops)
    (hop : op.WellFormed) (hroom : ops.length < maxOperands) : SoundOperands (ops ++ [op]) := by
  constructor
  · intro o ho
    rcases List.mem_append.mp ho with ho | ho
    · exact h.each o ho
    · exact List.mem_singleton.mp ho ▸ hop
  · rw [List.length_append]
    exact hroom

theorem SoundOperands.nil : SoundOperands [] := ⟨fun _ h => absurd h List.not_mem_nil, by decide⟩

theorem SoundOperands.one {op : Operand} (h : op.WellFormed) : SoundOperands [op] :=
  SoundOperands.nil.snoc h (by decide)

def CommonOperands (ops : List Operand) : Prop :=
  ∃ name size, ProperName name ∧ (ops = [.label name, .imm size] ∨
    ∃ alignment, ops = [.label name, .imm size, .imm alignment])

theorem CommonOperands.sound {ops : List Operand} (h : CommonOperands ops) : SoundOperands ops := by
  obtain ⟨name, size, hname, hops⟩ := h
  have hone : SoundOperands [.label name] := .one hname
  have htwo : SoundOperands [.label name, .imm size] :=
    hone.snoc trivial (show 1 < maxOperands by decide)
  rcases hops with rfl | ⟨alignment, rfl⟩
  · exact htwo
  · exact htwo.snoc trivial (show 2 < maxOperands by decide)

structure ParsedInstruction.WellFormed (inst : ParsedInstruction) : Prop where
  label : ∀ name, inst.label = some name → ProperName name
  operands : SoundOperands inst.operands
  sse : sseShape inst.type inst.operands = true
  /-- With operands, `movsd` is the move of a double. -/
  string : inst.type = .movsd → inst.operands = []
  common : inst.type = .comm ∨ inst.type = .lcomm → CommonOperands inst.operands

structure ParsedInstruction.Bare (inst : ParsedInstruction) : Prop where
  label : ∀ name, inst.label = some name → ProperName name
  type : inst.type = .nop
  operands : inst.operands = []

theorem ParsedInstruction.Bare.wellFormed {inst : ParsedInstruction} (h : inst.Bare) :
    inst.WellFormed := by
  refine { label := h.label, operands := ?_, sse := ?_, string := ?_, common := ?_ }
  · rw [h.operands]
    exact .nil
  · rw [h.type, h.operands]
    rfl
  · exact fun _ => h.operands
  · rw [h.type]
    exact fun htype => absurd htype (by decide)

theorem ParsedInstruction.WellFormed.of_common {inst : ParsedInstruction}
    (hlabel : ∀ name, inst.label = some name → ProperName name) {type : InstType}
    (htype : type = .comm ∨ type = .lcomm) {ops : List Operand} (h : CommonOperands ops) :
    ParsedInstruction.WellFormed { inst with type := type, operands := ops } := by
  refine { label := hlabel, operands := h.sound, sse := ?_, string := ?_, common := fun _ => h }
  · obtain ⟨name, size, -, rfl | ⟨alignment, rfl⟩⟩ := h
    · rcases htype with rfl | rfl
      · rfl
      · rfl
    · rcases htype with rfl | rfl
      · rfl
      · rfl
  · intro hstring
    have hne : type ≠ .movsd := by
      rcases htype with rfl | rfl
      · decide
      · decide
    exact absurd hstring hne

theorem wellFormed_of_ne {inst : ParsedInstruction}
    (htype : inst.type ≠ .movsd ∧ inst.type ≠ .comm ∧ inst.type ≠ .lcomm)
    (hlabel : ∀ name, inst.label = some name → ProperName name)
    (hops : SoundOperands inst.operands) (hsse : sseShape inst.type inst.operands = true) :
    inst.WellFormed where
  label := hlabel
  operands := hops
  sse := hsse
  string := fun h => absurd h htype.1
  common := fun h => h.elim (fun h => absurd h htype.2.1) fun h => absurd h htype.2.2

def Token.Named (tok : Token) : Prop := tok.type = .identifier → ProperName tok.text

theorem properName_copyBounded {cap : Nat} [NeZero cap] (hcap : 1 < cap) {bs : List Byte}
    (hne : bs ≠ []) (hchars : ∀ b ∈ bs, isIdentifierChar b = true) :
    ProperName (CString.copyBounded cap bs) := by
  have hzero : 0 ∉ bs := fun h => identifierChar_ne_zero 0 (hchars 0 h) rfl
  have hbytes := @CString.copyBounded_bytes_take cap _ bs hzero
  constructor
  · rw [hbytes]
    cases bs with
    | nil => exact absurd rfl hne
    | cons b bs =>
        rw [← Nat.sub_add_cancel (Nat.sub_pos_of_lt hcap), List.take_succ_cons]
        exact List.cons_ne_nil _ _
  · intro b hb
    rw [hbytes] at hb
    exact hchars b (List.mem_of_mem_take hb)

theorem ProperName.toLabel {text : Text} (h : ProperName text) : ProperName text.toLabel :=
  properName_copyBounded (by decide) h.ne h.chars

theorem punctuation_ne_identifier {b : Byte} {type : TokenType} (h : punctuation b = some type) :
    type ≠ .identifier := by
  rw [punctuation] at h
  repeat
    split at h
    · cases h
      decide
  cases h

theorem lexToken_named {tok : Token} (htok : tok.type = .none) (b : Byte) (bs : List Byte) :
    (lexToken tok b bs).1.Named := by
  rw [lexToken]
  split
  · next hpunct => exact fun h => absurd h (punctuation_ne_identifier hpunct)
  split
  · intro h
    cases h
  split
  · intro h
    cases h
  split
  · intro h
    cases h
  split
  · next hstart =>
      intro _
      obtain ⟨-, hchars⟩ := lexIdentifier_split (maxLineLength - 1) (b :: bs)
      refine properName_copyBounded (by decide) ?_ hchars
      rw [lexIdentifier_eq, List.takeWhile_cons_of_pos (isIdentifierChar_of_start hstart)]
      exact List.cons_ne_nil _ _
  · intro h
    exact absurd (htok.symm.trans h) (by decide)

theorem nextToken_named (lx : Lexer) : (nextToken lx).1.Named := by
  rw [nextToken]
  dsimp only
  split
  · intro h
    cases h
  split
  · intro h
    cases h
  · exact lexToken_named rfl _ _

structure ParserState.Named (p : ParserState) : Prop where
  current : p.current.Named
  peek : p.peek.Named

theorem advance_current (p : ParserState) : p.advance.current = p.peek := by
  rw [ParserState.advance]
  split
  · rfl
  · rfl

theorem ParserState.Named.advance {p : ParserState} (h : p.Named) : p.advance.Named := by
  refine ⟨by rw [advance_current]; exact h.peek, ?_⟩
  rw [ParserState.advance]
  split
  · exact h.peek
  · exact nextToken_named _

theorem initTokens_named (source : List Byte) : (initTokens source).Named := by
  rw [initTokens]
  apply ParserState.Named.advance
  refine ⟨?_, nextToken_named _⟩
  intro h
  cases h

def Gives {α : Type} (m : Parser α) (P : α → Prop) : Prop :=
  ∀ p : ParserState, p.Named → Ensures m (fun a q => P a ∧ q.Named) (fun _ => True) p

section Rules

variable {α β : Type} {P : α → Prop} {Q : β → Prop} {m : Parser α}

theorem gives_pure {a : α} (h : P a) : Gives (pure a) P := fun _ hp => ensures_pure ⟨h, hp⟩

theorem gives_error (category message : String) (args : List (List Byte)) :
    Gives (Parser.error category message args) P := fun _ _ => Ensures.of_none rfl trivial

theorem Gives.bind {f : α → Parser β} (hm : Gives m P) (hf : ∀ a, P a → Gives (f a) Q) :
    Gives (m >>= f) Q := fun p hp =>
  (hm p hp).bind (fun a q ha => hf a ha.1 q ha.2) fun _ h => h

theorem gives_advance : Gives Parser.advance fun _ => True :=
  fun _ hp => Ensures.of_some rfl ⟨trivial, hp.advance⟩

theorem gives_current {f : Token → Parser α} (hf : ∀ tok : Token, tok.Named → Gives (f tok) P) :
    Gives (Parser.current >>= f) P := fun p hp => hf p.current hp.current p hp

theorem gives_get {f : ParserState → Parser α} (hf : ∀ p : ParserState, p.Named → Gives (f p) P) :
    Gives (Fallible.get >>= f) P := fun p hp => hf p hp p hp

theorem gives_ite {c : Prop} [Decidable c] {m' : Parser α} (h : c → Gives m P)
    (h' : ¬ c → Gives m' P) : Gives (if c then m else m') P := by
  split
  · next hc => exact h hc
  · next hc => exact h' hc

theorem gives_expect (type : TokenType) : Gives (Parser.expect type) fun _ => True :=
  gives_current fun _ _ => gives_ite
    (fun _ => gives_advance.bind fun _ _ => gives_pure trivial) fun _ => gives_pure trivial

theorem gives_require (type : TokenType) (message : String) :
    Gives (Parser.require type message) fun _ => True :=
  (gives_expect type).bind fun _ _ => gives_ite (fun _ => gives_pure trivial) fun _ =>
    gives_error _ _ _

end Rules

theorem register_of_parse {name : Text} {r : Reg} {size : RegSize}
    (h : parseRegister name = some (r, size)) : RegisterOf r size := by
  have hall : ∀ entry ∈ regTable, RegisterOf entry.2.1 entry.2.2 := by decide +kernel
  obtain ⟨entry, hfind, hentry⟩ := Option.map_eq_some_iff.mp h
  have hone := hall entry (List.mem_of_find?_eq_some hfind)
  rwa [hentry] at hone

namespace Parser

theorem scaleFactor_gives (tok : Token) :
    Gives (scaleFactor tok) fun scale => scale = 1 ∨ scale = 2 ∨ scale = 4 ∨ scale = 8 := by
  refine gives_ite (fun h => ?_) fun _ => gives_error _ _ _
  refine gives_advance.bind fun _ _ => gives_pure ?_
  have hvalid := (Bool.and_eq_true_iff.mp h).2
  rw [isValidScaleFactor, Bool.or_eq_true, Bool.or_eq_true, Bool.or_eq_true, beq_iff_eq,
    beq_iff_eq, beq_iff_eq, beq_iff_eq] at hvalid
  rcases hvalid with ((h | h) | h) | h
  · exact .inl (congrArg BitVec.toNat h)
  · exact .inr (.inl (congrArg BitVec.toNat h))
  · exact .inr (.inr (.inl (congrArg BitVec.toNat h)))
  · exact .inr (.inr (.inr (congrArg BitVec.toNat h)))

theorem absoluteAddress_gives : Gives absoluteAddress MemOperand.WellFormed := by
  refine gives_current fun tok _ => gives_ite (fun _ => ?_) fun _ => gives_error _ _ _
  refine gives_advance.bind fun _ _ => (gives_require _ _).bind fun _ _ => gives_pure ?_
  exact { base := (Option.some_ne_none _).symm, scale := .inl rfl, unscaled := fun _ => rfl
          displacement := fun h => Bool.noConfusion h, label := .inl rfl
          rip := fun _ => ⟨rfl, rfl⟩, absolute := fun _ => ⟨rfl, rfl, rfl, rfl, rfl⟩ }

theorem scaled_gives {mem : MemOperand} (h : mem.Sum) (reg : Reg) (tok : Token) :
    Gives (do
      let scale ← scaleFactor tok
      pure { mem with index := some reg, scale := scale }) MemOperand.Sum := by
  refine (scaleFactor_gives _).bind fun scale hscale => gives_pure ?_
  exact { h with scale := hscale, unscaled := fun hnone => absurd hnone (Option.some_ne_none _) }

theorem memRegister_gives {mem : MemOperand} (h : mem.Sum) (reg : Reg) (size : RegSize) :
    Gives (memRegister mem reg size) MemOperand.Sum := by
  refine gives_current fun tok _ => gives_ite (fun _ => gives_pure { h with }) fun hrip => ?_
  refine (gives_expect _).bind fun star _ => gives_ite (fun _ => ?_) fun _ => ?_
  · exact gives_current fun tok _ => scaled_gives h reg tok
  refine gives_ite (fun _ => gives_pure ?_) fun _ => ?_
  · refine { h with base := fun hbase => hrip ?_ }
    rw [Option.some.inj hbase, decide_eq_true rfl, Bool.true_or]
  refine gives_ite (fun _ => gives_pure ?_) fun _ => gives_error _ _ _
  exact { h with unscaled := fun hnone => absurd hnone (Option.some_ne_none _) }

theorem memIndex_gives {mem : MemOperand} (h : mem.Sum) (reg : Reg) :
    Gives (memIndex mem reg) MemOperand.Sum := by
  refine (gives_expect _).bind fun star _ => gives_ite (fun _ => ?_) fun _ => gives_pure ?_
  · exact gives_current fun tok _ => scaled_gives h reg tok
  · exact { h with scale := .inl rfl, unscaled := fun _ => rfl }

theorem memSigned_gives {mem : MemOperand} (h : mem.Sum) (negative : Bool) :
    Gives (memSigned mem negative) MemOperand.Sum := by
  refine gives_current fun tok htok => gives_ite (fun _ => ?_) fun _ => ?_
  · refine gives_advance.bind fun _ _ => gives_pure ?_
    exact { h with displacement := fun hnone => Bool.noConfusion hnone }
  refine gives_ite (fun hname => ?_) fun _ => gives_error _ _ _
  split
  · exact gives_advance.bind fun _ _ => memIndex_gives h _
  · refine gives_ite (fun _ => gives_error _ _ _) fun _ => ?_
    refine gives_advance.bind fun _ _ => gives_pure ?_
    exact { h with label := .inr (htok hname).toLabel }

theorem memScale_gives {mem : MemOperand} (h : mem.Sum) : Gives (memScale mem) MemOperand.Sum := by
  refine gives_current fun tok _ => gives_ite (fun _ => ?_) fun _ => gives_error _ _ _
  refine gives_ite (fun _ => gives_error _ _ _) fun hindex => ?_
  refine (scaleFactor_gives _).bind fun scale hscale => gives_pure ?_
  refine { h with scale := hscale, unscaled := fun hnone => absurd ?_ hindex }
  rw [hnone]
  rfl

theorem memComponent_gives {mem : MemOperand} (h : mem.Sum) :
    Gives (memComponent mem) MemOperand.Sum := by
  refine gives_current fun tok htok => gives_ite (fun hname => ?_) fun _ => ?_
  · refine gives_advance.bind fun _ _ => ?_
    split
    · exact memRegister_gives h _ _
    · exact gives_pure { h with label := .inr (htok hname).toLabel }
  refine gives_ite (fun _ => ?_) fun _ => ?_
  · refine gives_advance.bind fun _ _ => gives_pure ?_
    exact { h with displacement := fun hnone => Bool.noConfusion hnone }
  refine gives_ite (fun _ => ?_) fun _ => ?_
  · exact gives_advance.bind fun _ _ => memSigned_gives h _
  refine gives_ite (fun _ => ?_) fun _ => gives_error _ _ _
  exact gives_advance.bind fun _ _ => memScale_gives h

theorem memComponents_gives {mem : MemOperand} (h : mem.Sum) (rounds : Nat) :
    Gives (memComponents rounds mem) MemOperand.Sum := by
  induction rounds generalizing mem with
  | zero => exact gives_pure h
  | succ rounds ih =>
      refine gives_current fun tok _ => gives_ite (fun _ => gives_pure h) fun _ => ?_
      exact (memComponent_gives h).bind fun mem hmem => ih hmem

theorem parseMemoryOperand_gives : Gives parseMemoryOperand MemOperand.WellFormed := by
  refine (gives_require _ _).bind fun _ _ => gives_current fun tok _ => gives_ite (fun _ => ?_)
    fun _ => gives_get fun p _ => ?_
  · exact gives_advance.bind fun _ _ => absoluteAddress_gives
  refine (memComponents_gives sum_empty _).bind fun mem hmem => ?_
  refine (gives_require _ _).bind fun _ _ => gives_ite (fun _ => gives_error _ _ _) fun hrip => ?_
  refine gives_pure { hmem.toSound with rip := fun h => ?_, absolute := fun h => ?_ }
  · rw [h, Bool.true_and, Bool.or_eq_true, not_or, Option.not_isSome_iff_eq_none,
      Option.not_isSome_iff_eq_none] at hrip
    exact hrip
  · exact absurd h (Bool.eq_false_iff.mp hmem.relative)

theorem labelExpression_gives {lhs : Label} (h : ProperName lhs) :
    Gives (labelExpression lhs) Operand.WellFormed := by
  intro p hp
  rw [labelExpression]
  unfold Ensures
  rw [Fallible.bind_of_some (Fallible.get_run p)]
  split
  · next hdiff =>
      have hrhs : ProperName p.advance.current.text := by
        apply hp.advance.current
        rw [advance_current]
        exact of_decide_eq_true (Bool.and_eq_true_iff.mp hdiff).2
      exact Ensures.of_some rfl ⟨⟨h, hrhs.toLabel⟩, hp.advance.advance⟩
  · exact ensures_pure ⟨h, hp⟩

theorem dollarOperand_gives : Gives dollarOperand Operand.WellFormed := by
  refine gives_current fun tok htok => gives_ite (fun _ => ?_) fun _ => ?_
  · exact gives_advance.bind fun _ _ => gives_pure trivial
  refine gives_ite (fun hname => ?_) fun _ => gives_error _ _ _
  exact gives_advance.bind fun _ _ => labelExpression_gives (htok hname).toLabel

theorem identifierOperand_gives {tok : Token} (h : ProperName tok.text) :
    Gives (identifierOperand tok) Operand.WellFormed := by
  refine gives_advance.bind fun _ _ => ?_
  split
  · next hreg => exact gives_pure (register_of_parse hreg)
  · exact labelExpression_gives h.toLabel

theorem segmentOperand_gives (seg : MemSegment) :
    Gives (segmentOperand seg) Operand.WellFormed := by
  refine gives_advance.bind fun _ _ => gives_advance.bind fun _ _ => gives_current fun tok _ => ?_
  refine gives_ite (fun _ => ?_) fun _ => gives_error _ _ _
  exact parseMemoryOperand_gives.bind fun mem hmem => gives_pure { hmem with }

theorem stringConcat_gives (rounds : Nat) (text : Text) :
    Gives (stringConcat rounds text) fun _ => True := by
  induction rounds generalizing text with
  | zero => exact gives_pure trivial
  | succ rounds ih =>
      refine gives_current fun tok _ => gives_ite (fun _ => ?_) fun _ => gives_pure trivial
      exact gives_advance.bind fun _ _ => ih _

theorem parseOperand_gives : Gives parseOperand Operand.WellFormed := by
  refine gives_get fun p hp => gives_ite (fun _ => segmentOperand_gives _) fun _ => ?_
  split
  · exact gives_advance.bind fun _ _ => dollarOperand_gives
  · exact parseMemoryOperand_gives.bind fun mem hmem => gives_pure hmem
  · next hname => exact identifierOperand_gives (hp.current hname)
  · exact gives_advance.bind fun _ _ => gives_pure trivial
  · exact gives_advance.bind fun _ _ => gives_pure trivial
  · refine gives_advance.bind fun _ _ => gives_get fun q _ => ?_
    exact (stringConcat_gives _ _).bind fun _ _ => gives_pure trivial
  · exact gives_error _ _ _

theorem operandsUntilEol_gives (rounds : Nat) {ops : List Operand} (h : SoundOperands ops) :
    Gives (operandsUntilEol rounds ops) SoundOperands := by
  induction rounds generalizing ops with
  | zero => exact gives_pure h
  | succ rounds ih =>
      refine gives_current fun tok _ => gives_ite (fun _ => gives_pure h) fun _ => ?_
      refine gives_ite (fun _ => gives_error _ _ _) fun hroom => ?_
      refine parseOperand_gives.bind fun op hop => (gives_expect _).bind fun _ _ => ih ?_
      exact h.snoc hop (Nat.lt_of_not_le hroom)

theorem validateSseMove_gives {type : InstType} (h : isSseMoveInst type = true)
    (ops : List Operand) : Gives (validateSseMove ops) fun _ => sseShape type ops = true := by
  rw [validateSseMove.eq_def]
  split
  · next dst src =>
      refine gives_ite (fun _ => gives_error _ _ _) fun hmem => ?_
      refine gives_ite (fun _ => gives_error _ _ _) fun hstore => ?_
      refine gives_ite (fun _ => gives_error _ _ _) fun hload => ?_
      refine gives_ite (fun _ => gives_error _ _ _) fun hxmm => gives_pure ?_
      rw [sseShape]
      cases hdst : isXmmRegOperand dst
      · cases hsrc : isXmmRegOperand src
        · rw [hdst, hsrc] at hxmm
          exact absurd rfl hxmm
        · rw [h, if_neg Bool.false_ne_true, Bool.and_self, Bool.or_true]
      · rw [if_pos rfl, Bool.or_assoc, Bool.or_eq_true]
        rw [hdst, Bool.true_and, ← Bool.not_or, Bool.not_eq_true', Bool.not_eq_false] at hload
        exact .inr hload
  · exact gives_error _ _ _

theorem validateSseBinary_gives (type : InstType) (countMessage dstMessage srcMessage : String)
    (ops : List Operand) : Gives (validateSseBinary countMessage dstMessage srcMessage ops)
      fun _ => sseShape type ops = true := by
  rw [validateSseBinary.eq_def]
  split
  · next dst src =>
      refine gives_ite (fun _ => gives_error _ _ _) fun hdst => ?_
      refine gives_ite (fun _ => gives_error _ _ _) fun hsrc => gives_pure ?_
      rw [Bool.not_eq_true', Bool.not_eq_false] at hdst
      rw [← Bool.not_or, Bool.not_eq_true', Bool.not_eq_false] at hsrc
      rw [sseShape, if_pos hdst, Bool.or_assoc, hsrc, Bool.or_true]
  · exact gives_error _ _ _

theorem validateSseOperands_gives (type : InstType) (ops : List Operand) :
    Gives (validateSseOperands type ops) fun _ => sseShape type ops = true := by
  refine gives_ite (fun h => validateSseMove_gives h ops) fun hmove => ?_
  refine gives_ite (fun _ => validateSseBinary_gives type _ _ _ ops) fun harith => ?_
  refine gives_ite (fun _ => validateSseBinary_gives type _ _ _ ops) fun hpacked => gives_pure ?_
  have hsse : isSseInst type = false := by
    rw [isSseInst, Bool.eq_false_iff.mpr hmove, Bool.eq_false_iff.mpr harith,
      Bool.eq_false_iff.mpr hpacked]
    rfl
  rw [sseShape.eq_def]
  split
  · rw [hsse]
    split
    · rfl
    · rfl
  · rw [hsse]
    rfl

theorem equDefinition_gives {inst : ParsedInstruction} (h : inst.Bare) {name : Token}
    (hname : ProperName name.text) :
    Gives (equDefinition inst name) ParsedInstruction.WellFormed := by
  have hequ : ∀ op : Operand, op.WellFormed → ParsedInstruction.WellFormed
      { inst with
        type := .equ, label := some name.text.toLabel, labelColumn := name.column
        operands := inst.operands ++ [op] } := by
    intro op hop
    rw [h.operands, List.nil_append]
    have htype : InstType.equ ≠ .movsd ∧ InstType.equ ≠ .comm ∧ InstType.equ ≠ .lcomm := by decide
    refine wellFormed_of_ne htype ?_ (.one hop) rfl
    intro label hlabel
    rw [← Option.some.inj hlabel]
    exact hname.toLabel
  refine gives_advance.bind fun _ _ => gives_advance.bind fun _ _ => ?_
  refine parseOperand_gives.bind fun op hop => ?_
  split
  · exact gives_pure (hequ _ hop)
  · exact gives_pure (hequ _ hop)
  · exact gives_pure (hequ _ hop)
  · exact gives_error _ _ _

theorem maybeParseEquDirective_gives {inst : ParsedInstruction} (h : inst.Bare) :
    Gives (maybeParseEquDirective inst) fun r => ∀ out ∈ r, out.WellFormed := by
  refine gives_get fun p hp => gives_ite (fun hequ => ?_) fun _ => gives_pure ?_
  · rw [Bool.and_eq_true, Bool.and_eq_true, decide_eq_true_iff] at hequ
    refine (equDefinition_gives h (hp.current hequ.1.1)).bind fun out hout => gives_pure ?_
    exact fun other hother => Option.some.inj hother ▸ hout
  · exact fun _ hnone => absurd hnone (Option.not_mem_none _)

theorem applySectionShorthand_gives {inst : ParsedInstruction} (h : inst.Bare) {mnemonic : Text}
    (hname : ProperName mnemonic) :
    Gives (applySectionShorthand { inst with type := .sectionDir } mnemonic)
      ParsedInstruction.WellFormed := by
  refine gives_current fun tok _ => gives_ite (fun _ => gives_pure ?_) fun _ => gives_error _ _ _
  have htype : InstType.sectionDir ≠ .movsd ∧ InstType.sectionDir ≠ .comm ∧
      InstType.sectionDir ≠ .lcomm := by decide
  have hop : Operand.WellFormed (.label mnemonic.toLabel) := hname.toLabel
  exact wellFormed_of_ne htype h.label (.one hop) rfl

theorem commAlignmentOperand_gives :
    Gives commAlignmentOperand fun rest => rest = [] ∨ ∃ alignment, rest = [.imm alignment] := by
  refine (gives_expect _).bind fun comma _ => gives_ite (fun _ => ?_) fun _ => gives_pure (.inl rfl)
  refine gives_current fun tok _ => gives_ite (fun _ => ?_) fun _ => gives_error _ _ _
  exact gives_advance.bind fun _ _ => gives_pure (.inr ⟨_, rfl⟩)

theorem parseCommLcommOperands_gives : Gives parseCommLcommOperands CommonOperands := by
  refine gives_current fun name hname => gives_ite (fun htype => ?_) fun _ => gives_error _ _ _
  refine gives_advance.bind fun _ _ => (gives_expect _).bind fun _ _ => ?_
  refine gives_current fun size _ => gives_ite (fun _ => ?_) fun _ => gives_error _ _ _
  refine gives_advance.bind fun _ _ => commAlignmentOperand_gives.bind fun rest hrest => ?_
  apply gives_pure
  refine ⟨name.text.toLabel, size.value, (hname htype).toLabel, ?_⟩
  rcases hrest with rfl | ⟨alignment, rfl⟩
  · exact .inl rfl
  · exact .inr ⟨alignment, rfl⟩

theorem parseMnemonic_gives {inst : ParsedInstruction} (h : inst.Bare) {mnemonic : Text}
    (hname : ProperName mnemonic) :
    Gives (parseMnemonic inst mnemonic) ParsedInstruction.WellFormed := by
  rw [parseMnemonic]
  split
  · exact gives_error _ _ _
  next type _ =>
  refine gives_advance.bind fun _ _ => gives_ite (fun hsection => ?_) fun _ => ?_
  · have htype : type = .sectionDir := of_decide_eq_true (Bool.and_eq_true_iff.mp hsection).1
    rw [htype]
    exact applySectionShorthand_gives h hname
  refine gives_ite (fun hcommon => ?_) fun hcommon => ?_
  · refine parseCommLcommOperands_gives.bind fun ops hops => gives_pure ?_
    rw [Bool.or_eq_true, decide_eq_true_iff, decide_eq_true_iff] at hcommon
    exact .of_common h.label hcommon hops
  refine (gives_get fun p _ => operandsUntilEol_gives _ .nil).bind fun ops hops => ?_
  refine (validateSseOperands_gives _ ops).bind fun _ hsse => gives_pure ?_
  refine { label := h.label, operands := hops, sse := hsse, string := ?_, common := ?_ }
  · intro hstring
    dsimp only at hstring
    split at hstring
    · cases hstring
    · next hops =>
        by_contra hne
        rw [hstring, decide_eq_true hne] at hops
        exact hops rfl
  · intro htype
    dsimp only at htype
    split at htype
    · exact htype.elim (fun h => InstType.noConfusion h) fun h => InstType.noConfusion h
    · rw [Bool.or_eq_true, decide_eq_true_iff, decide_eq_true_iff] at hcommon
      exact absurd htype hcommon

theorem parseLabel_gives {inst : ParsedInstruction} (h : inst.Bare) :
    Gives (parseLabel inst) ParsedInstruction.Bare := by
  refine gives_get fun p hp => gives_ite (fun hlabel => ?_) fun _ => gives_pure h
  refine gives_advance.bind fun _ _ => gives_advance.bind fun _ _ => gives_pure ?_
  rw [Bool.and_eq_true, decide_eq_true_iff] at hlabel
  refine { h with label := fun name hname => ?_ }
  rw [← Option.some.inj hname]
  exact (hp.current hlabel.1).toLabel

theorem parseBody_gives {inst : ParsedInstruction} (h : inst.Bare) :
    Gives (parseBody inst) ParsedInstruction.WellFormed := by
  refine (maybeParseEquDirective_gives h).bind fun r hr => ?_
  cases r with
  | some out => exact gives_pure (hr out rfl)
  | none =>
      refine gives_current fun tok htok => gives_ite (fun hname => ?_) fun _ => ?_
      · exact parseMnemonic_gives h (htok hname)
      · exact gives_pure h.wellFormed

theorem parseInstruction_gives : Gives parseInstruction ParsedInstruction.WellFormed := by
  refine gives_get fun p _ => ?_
  have hblank : ParsedInstruction.Bare
      { type := .nop, lineNumber := p.lexer.line, originalLine := captureOriginalLine p.lexer } :=
    ⟨fun _ hnone => absurd hnone.symm (Option.some_ne_none _), rfl, rfl⟩
  refine gives_ite (fun _ => gives_pure hblank.wellFormed) fun _ => ?_
  exact (parseLabel_gives hblank).bind fun inst hinst => parseBody_gives hinst

end Parser

structure ParseLoop.Sound (s : ParseLoop) : Prop where
  parser : s.parser.Named
  insts : ∀ inst ∈ s.insts, inst.WellFormed

theorem ParseLoop.Sound.next {s t : ParseLoop} (h : s.Sound) (hround : parseRound s = .next t) :
    t.Sound := by
  rw [parseRound] at hround
  split at hround
  · cases hround
  split at hround
  · cases hround
  next inst p hparse =>
  cases hround
  obtain ⟨hinst, hp⟩ := (Parser.parseInstruction_gives s.parser h.parser).1 inst p hparse
  constructor
  · show (skipNewline p).Named
    rw [skipNewline]
    split
    · exact hp.advance
    · exact hp
  · intro i hi
    dsimp only at hi
    split at hi
    · rcases List.mem_append.mp hi with hi | hi
      · exact h.insts i hi
      · exact List.mem_singleton.mp hi ▸ hinst
    · exact h.insts i hi

theorem parseRounds_wellFormed {s : ParseLoop} (h : s.Sound) {rounds : Nat}
    {insts : List ParsedInstruction} (hparse : parseRounds rounds s = some (some insts)) :
    ∀ inst ∈ insts, inst.WellFormed := by
  induction rounds generalizing s with
  | zero => cases hparse
  | succ rounds ih =>
      rw [parseRounds] at hparse
      cases hround : parseRound s with
      | parsed out =>
          rw [hround] at hparse
          have hout : out = s.insts := by
            rw [parseRound] at hround
            split at hround
            · cases hround
              rfl
            split at hround
            · cases hround
            · cases hround
          rw [← Option.some.inj (Option.some.inj hparse), hout]
          exact h.insts
      | failed stderr =>
          rw [hround] at hparse
          cases Option.some.inj hparse
      | next t =>
          rw [hround] at hparse
          exact ih (h.next hround) hparse

/-- Whatever the source, the parser gives well-formed statements only. -/
theorem parseSourceWithContext_wellFormed (env : PreprocessEnv) (tracker : List Path)
    (source : List Byte) {rounds : Nat} {insts : List ParsedInstruction}
    (h : parseSourceWithContext rounds env tracker source = some (some insts)) :
    ∀ inst ∈ insts, inst.WellFormed := by
  rw [parseSourceWithContext] at h
  split at h
  · refine parseRounds_wellFormed ⟨initTokens_named _, ?_⟩ h
    exact fun _ hnil => absurd hnil List.not_mem_nil
  · cases Option.some.inj h
  · cases h

def roomText : List Byte := str "room: .comm buf, 64\n add rax, [rcx*4+8]\n equ equ room - buf\n"

theorem parseSourceWithContext_wellFormed_room : ∃ insts,
    parseSourceWithContext 9 memoryEnv [] roomText = some (some insts) ∧ insts.length = 3 ∧
      ∀ inst ∈ insts, inst.WellFormed := by
  have hcheck : (parseSourceWithContext 9 memoryEnv [] roomText).any
      (fun r => r.any fun insts => insts.length == 3) = true := by decide +kernel
  obtain ⟨r, hr, hany⟩ := (Option.any_eq_true _ _).mp hcheck
  obtain ⟨insts, rfl, hlength⟩ := (Option.any_eq_true _ _).mp hany
  exact ⟨insts, hr, beq_iff_eq.mp hlength,
    parseSourceWithContext_wellFormed memoryEnv [] roomText hr⟩

end X86Assembler
