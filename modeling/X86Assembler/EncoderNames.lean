import X86Assembler.EncoderShapes

namespace X86Assembler

open CString (Byte)

def Operand.labels : Operand → List Label
  | .label name => [name]
  | .labelDiff lhs rhs => [lhs, rhs]
  | .mem m => if (Encoder.memReference m).isSome then [m.label] else []
  | _ => []

def ParsedInstruction.operandLabels (inst : ParsedInstruction) : List Label :=
  inst.operands.flatMap Operand.labels

theorem labels_subset {inst : ParsedInstruction} {op : Operand} (h : op ∈ inst.operands) :
    op.labels ⊆ inst.operandLabels :=
  fun _ hname => List.mem_flatMap.mpr ⟨op, h, hname⟩

structure EncodeEnv.Agree (names : List Label) (env env' : EncodeEnv) : Prop where
  address : env'.currentAddress = env.currentAddress
  branches : env'.enableForwardShortBranches = env.enableForwardShortBranches
  info : ∀ name ∈ names, env'.getSymbolInfo name = env.getSymbolInfo name

theorem EncodeEnv.Agree.after {names : List Label} {env env' : EncodeEnv} (h : env.Agree names env')
    (es : List Emission) : (env.after es).Agree names (env'.after es) := by
  refine ⟨?_, h.branches, h.info⟩
  rw [EncodeEnv.after, EncodeEnv.after, h.address]

def Emission.label? : Emission → Option Label
  | .byte _ => none
  | .fixup label .. => some label

namespace Encoder

variable {α β : Type} {names : List Label}

/-- An encoder that knows no names but these. -/
class Confined (names : List Label) (m : Encoder α) : Prop where
  same : ∀ env env', env.Agree names env' → m env' = m env
  labels : ∀ env, ∀ e ∈ (m env).1, ∀ name, e.label? = some name → name ∈ names

section Instances

instance (a : α) : Confined names (pure a : Encoder α) where
  same := fun _ _ _ => rfl
  labels := fun _ _ he => nomatch he

instance (bs : List Byte) : Confined names (emitBytes bs) where
  same := fun _ _ _ => rfl
  labels := fun _ e he name hname => by
    obtain ⟨b, -, rfl⟩ := List.mem_map.mp he
    cases hname

instance (b : Byte) : Confined names (emitByte b) := inferInstanceAs (Confined names (emitBytes [b]))
instance (v : BitVec 16) : Confined names (emitLe16 v) := inferInstanceAs (Confined names (emitBytes _))
instance (v : BitVec 32) : Confined names (emitLe32 v) := inferInstanceAs (Confined names (emitBytes _))
instance (v : BitVec 64) : Confined names (emitLe64 v) := inferInstanceAs (Confined names (emitBytes _))

instance (line : Nat) (category message : String) :
    Confined names (diag line category message : Encoder α) where
  same := fun _ _ _ => rfl
  labels := fun _ _ he => nomatch he

instance (line : Nat) (category message : String) (o : Option α) :
    Confined names (orDiag line category message o) := by
  cases o with
  | none => exact inferInstanceAs (Confined names (diag _ _ _))
  | some a => exact inferInstanceAs (Confined names (pure a))

theorem bind_error {m : Encoder α} {f : α → Encoder β} {env : EncodeEnv} {es : List Emission}
    {d : Diagnostic} (h : m env = (es, .error d)) : (m >>= f) env = (es, .error d) := by
  simp only [bind, h]

theorem confined_bind {m : Encoder α} {f : α → Encoder β} (hm : Confined names m)
    (hf : ∀ a, Confined names (f a)) : Confined names (m >>= f) where
  same := fun env env' h => by
    have hsame := hm.same env env' h
    cases hr : m env with
    | mk es r =>
        rw [hr] at hsame
        cases r with
        | error d => rw [bind_error hsame, bind_error hr]
        | ok a => rw [encoder_bind hsame, encoder_bind hr, (hf a).same _ _ (h.after es)]
  labels := fun env e he name hname => by
    cases hr : m env with
    | mk es r =>
        have hfirst := hm.labels env e
        rw [hr] at hfirst
        cases r with
        | error d =>
            rw [bind_error hr] at he
            exact hfirst he name hname
        | ok a =>
            rw [encoder_bind hr] at he
            rcases List.mem_append.mp he with he | he
            · exact hfirst he name hname
            · exact (hf a).labels _ e he name hname

instance (m : Encoder α) (f : α → Encoder β) [hm : Confined names m]
    [hf : ∀ a, Confined names (f a)] : Confined names (m >>= f) := confined_bind hm hf

instance (c : Prop) [Decidable c] (m m' : Encoder α) [Confined names m] [Confined names m'] :
    Confined names (if c then m else m') := by
  split <;> infer_instance

instance (c : Bool) (m : Encoder Unit) [Confined names m] : Confined names (when c m) :=
  inferInstanceAs (Confined names (if c then m else pure ()))

instance (w : Bool) (r m x : Option Operand) : Confined names (emitRex w r m x) := by
  unfold emitRex
  infer_instance

instance (code : SseOpcode) (r x b : Bool) : Confined names (emitSseHead code r x b) := by
  unfold emitSseHead
  infer_instance

theorem confined_addFixup {label : Label} (h : label ∈ names) (size : Nat) (type : InstType) :
    Confined names (addFixup label size type) where
  same := fun _ _ _ => rfl
  labels := fun _ e he name hname => by
    cases List.mem_singleton.mp he
    cases hname
    exact h

theorem confined_addFixupRipRelative {label : Label} (h : label ∈ names) :
    Confined names (addFixupRipRelative label) where
  same := fun _ _ _ => rfl
  labels := fun _ e he name hname => by
    cases List.mem_singleton.mp he
    cases hname
    exact h

instance (digit : Byte) (m : MemOperand) (base : Reg) :
    Confined names (emitBaseOnly digit m base) := by
  unfold emitBaseOnly
  infer_instance

instance (digit : Byte) (m : MemOperand) (index : Reg) :
    Confined names (emitIndexed digit m index) := by
  unfold emitIndexed
  infer_instance

/-- The operand of an instruction that an encoder is at. -/
class Names (names : List Label) (op : Operand) : Prop where
  subset : op.labels ⊆ names

instance (r : Reg) (size : RegSize) : Names names (.reg r size) := ⟨List.nil_subset _⟩

/-- A memory operand with a label refers to it exactly when it has no registers or is
RIP-relative. -/
theorem confined_reference {m : MemOperand} (h : Names names (.mem m)) {fixup : Encoder Unit}
    (hfixup : m.label ∈ names → Confined names fixup)
    (hrefers : m.label ≠ Label.empty → (memReference m).isSome = true) :
    Confined names (when (m.label ≠ Label.empty) fixup) := by
  by_cases hl : m.label = Label.empty
  · rw [decide_eq_false (not_not_intro hl)]
    exact inferInstanceAs (Confined names (pure ()))
  · rw [decide_eq_true hl]
    apply hfixup
    apply h.subset
    rw [Operand.labels, if_pos (hrefers hl)]
    exact List.mem_cons_self

instance (digit : Byte) (op : Operand) [h : Names names op] :
    Confined names (emitModrmSib digit op) := by
  rw [emitModrmSib.eq_def]
  split
  · infer_instance
  · next m =>
      split
      · infer_instance
      split
      · infer_instance
      split
      · next hrip =>
          have hlabel := confined_reference h (fun h => confined_addFixupRipRelative h) fun hl => by
            rw [memReference, if_neg hl, if_pos hrip]
            rfl
          infer_instance
      · next hrip =>
          split
          · next hbase hindex =>
              have hlabel := confined_reference h (fun h => confined_addFixup h 4 .mov) fun hl => by
                rw [memReference, if_neg hl, if_neg hrip, hbase, hindex]
                rfl
              infer_instance
          · infer_instance
          · infer_instance
  · infer_instance

theorem confined_getEnv {f : EncodeEnv → Encoder α} (hf : ∀ env, Confined names (f env))
    (hsame : ∀ env env', env.Agree names env' → f env' = f env) :
    Confined names (getEnv >>= f) where
  same := fun env env' h => by
    rw [encoder_bind (rfl : getEnv env' = ([], .ok env')),
      encoder_bind (rfl : getEnv env = ([], .ok env)), hsame env env' h,
      (hf env).same _ _ (h.after [])]
  labels := fun env e he => by
    rw [encoder_bind (rfl : getEnv env = ([], .ok env))] at he
    exact (hf env).labels _ e he

theorem confined_encodeBranch {name : Label} (h : name ∈ names) (short : Byte) (near : List Byte)
    (type : InstType) : Confined names (encodeBranch short near type name) := by
  have hfixup : Confined names (addControlflowFixup name 4 type) := confined_addFixup h 4 type
  apply confined_getEnv
  · intro env
    split <;> infer_instance
  · intro env env' hagree
    have hbranch : shortBranch env' name = shortBranch env name := by
      rw [shortBranch, shortBranch, hagree.info name h, hagree.address, hagree.branches]
    rw [hbranch]

instance (label : Label) [h : Names names (.label label)] :
    Confined names (addFixupRipRelative label) :=
  confined_addFixupRipRelative (h.subset List.mem_cons_self)

instance (label : Label) (size : Nat) (type : InstType) [h : Names names (.label label)] :
    Confined names (addControlflowFixup label size type) :=
  confined_addFixup (h.subset List.mem_cons_self) size type

instance (short : Byte) (near : List Byte) (type : InstType) (label : Label)
    [h : Names names (.label label)] : Confined names (encodeBranch short near type label) :=
  confined_encodeBranch (h.subset List.mem_cons_self) short near type

end Instances

section Encoders

variable {inst : ParsedInstruction}

theorem names_one {op : Operand} (h : inst.operands = [op]) : Names inst.operandLabels op :=
  ⟨labels_subset (h ▸ List.mem_cons_self)⟩

theorem names_two {op1 op2 : Operand} (h : inst.operands = [op1, op2]) :
    Names inst.operandLabels op1 ∧ Names inst.operandLabels op2 :=
  ⟨⟨labels_subset (by simp [h])⟩, ⟨labels_subset (by simp [h])⟩⟩

theorem names_three {op1 op2 op3 : Operand} (h : inst.operands = [op1, op2, op3]) :
    Names inst.operandLabels op1 ∧ Names inst.operandLabels op2 ∧ Names inst.operandLabels op3 :=
  ⟨⟨labels_subset (by simp [h])⟩, ⟨labels_subset (by simp [h])⟩, ⟨labels_subset (by simp [h])⟩⟩

instance (r : Reg) (size : RegSize) (v : Word) : Confined names (encodeMovRegImm r size v) := by
  unfold encodeMovRegImm
  infer_instance

instance (m : MemOperand) (size : RegSize) (v : Word) [Names names (.mem m)] :
    Confined names (encodeMovMemImm m size v) := by
  unfold encodeMovMemImm
  infer_instance

theorem confined_encodeMov : Confined inst.operandLabels (encodeMov inst) := by
  rw [encodeMov]
  split
  · next dst src hops =>
      obtain ⟨hdst, hsrc⟩ := names_two hops
      split
      · infer_instance
      split <;> infer_instance
  · infer_instance

theorem confined_encodePushPop : Confined inst.operandLabels (encodePushPop inst) := by
  rw [encodePushPop]
  split
  · infer_instance
  · infer_instance
  · next m hops =>
      have hm := names_one hops
      infer_instance
  · infer_instance
  · infer_instance

instance (regOpcode : Byte) (r : Reg) (size : RegSize) (v : Word) :
    Confined names (encodeArithmeticRegImm inst regOpcode r size v) := by
  unfold encodeArithmeticRegImm
  infer_instance

instance (regOpcode : Byte) (m : MemOperand) (v : Word) [Names names (.mem m)] :
    Confined names (encodeArithmeticMemImm regOpcode m v) := by
  unfold encodeArithmeticMemImm
  infer_instance

theorem confined_encodeArithmetic : Confined inst.operandLabels (encodeArithmetic inst) := by
  rw [encodeArithmetic]
  split
  · next dst src hops =>
      obtain ⟨hdst, hsrc⟩ := names_two hops
      split
      · infer_instance
      apply confined_bind
      · infer_instance
      intro regOpcode
      split <;> infer_instance
  · infer_instance

theorem confined_encodeUnaryArithmetic :
    Confined inst.operandLabels (encodeUnaryArithmetic inst) := by
  rw [encodeUnaryArithmetic]
  split
  · next op hops =>
      have hop := names_one hops
      apply confined_bind
      · infer_instance
      intro regOpcode
      dsimp only
      split <;> infer_instance
  · infer_instance

theorem confined_encodeLea : Confined inst.operandLabels (encodeLea inst) := by
  rw [encodeLea]
  split
  · next hops =>
      have hm := (names_two hops).2
      infer_instance
  · infer_instance
  · infer_instance

instance : Confined names (encodeString inst) := by
  unfold encodeString
  infer_instance

theorem confined_encodeSseMov : Confined inst.operandLabels (encodeSseMov inst) := by
  rw [encodeSseMov]
  split
  · next dst src hops =>
      obtain ⟨hdst, hsrc⟩ := names_two hops
      infer_instance
  · infer_instance

theorem confined_encodeSseBinary (opcode : InstType → Option SseOpcode)
    (name dstSizeMessage unknownMessage : String) : Confined inst.operandLabels
      (encodeSseBinary opcode name dstSizeMessage unknownMessage inst) := by
  rw [encodeSseBinary]
  split
  · next dst src hops =>
      have hsrc := (names_two hops).2
      infer_instance
  · infer_instance

instance (regOpcode : Byte) (op : Operand) [Names names op] :
    Confined names (encodeIndirect regOpcode op) := by
  unfold encodeIndirect
  infer_instance

theorem confined_encodeJmp : Confined inst.operandLabels (encodeJmp inst) := by
  rw [encodeJmp]
  split
  · next hops =>
      have hop := names_one hops
      infer_instance
  · infer_instance
  · next hops =>
      have hop := names_one hops
      infer_instance
  · infer_instance
  · infer_instance

theorem confined_encodeJcc : Confined inst.operandLabels (encodeJcc inst) := by
  rw [encodeJcc]
  split
  · next hops =>
      have hop := names_one hops
      infer_instance
  · infer_instance
  · infer_instance

theorem confined_encodeCallRet : Confined inst.operandLabels (encodeCallRet inst) := by
  rw [encodeCallRet]
  split
  · split <;> infer_instance
  split
  · split
    · next hops =>
        have hop := names_one hops
        infer_instance
    · infer_instance
    · next hops =>
        have hop := names_one hops
        infer_instance
    · infer_instance
    · infer_instance
  · infer_instance

instance : Confined names (encodeNop inst) := by
  rw [encodeNop]
  split <;> infer_instance

instance : Confined names (encodeInt inst) := by
  rw [encodeInt]
  split <;> infer_instance

instance (bytes : InstType → Option (List Byte)) (operandsMessage unknownMessage : String) :
    Confined names (encodeFixed bytes operandsMessage unknownMessage inst) := by
  unfold encodeFixed
  infer_instance

instance : Confined names (encodeFlag inst) := by
  unfold encodeFlag
  infer_instance

instance : Confined names (encodeEnter inst) := by
  rw [encodeEnter]
  split <;> infer_instance

theorem confined_encodeSetcc : Confined inst.operandLabels (encodeSetcc inst) := by
  rw [encodeSetcc]
  split
  · next op hops =>
      have hop := names_one hops
      split <;> infer_instance
  · infer_instance

theorem confined_encodeCmov : Confined inst.operandLabels (encodeCmov inst) := by
  rw [encodeCmov]
  split
  · next hops =>
      have hsrc := (names_two hops).2
      split <;> infer_instance
  · infer_instance
  · infer_instance

instance : Confined names (encodeBswap inst) := by
  rw [encodeBswap]
  split <;> infer_instance

instance (r : Reg) (size : RegSize) (rm : Operand) (is64bit : Bool) [Names names rm] :
    Confined names (encodeXchgRm r size rm is64bit) := by
  unfold encodeXchgRm
  infer_instance

theorem confined_encodeXchg : Confined inst.operandLabels (encodeXchg inst) := by
  rw [encodeXchg]
  split
  · next op1 op2 hops =>
      obtain ⟨hop1, hop2⟩ := names_two hops
      split
      · infer_instance
      split <;> infer_instance
  · infer_instance

instance (regOpcode : Byte) (op : Operand) [Names names op] :
    Confined names (encodeGroup3 regOpcode op) := by
  unfold encodeGroup3
  infer_instance

theorem confined_encodeImul : Confined inst.operandLabels (encodeImul inst) := by
  rw [encodeImul]
  split
  · next hops =>
      have hop := names_one hops
      infer_instance
  · next hops =>
      have hsrc := (names_two hops).2
      infer_instance
  · infer_instance
  · next hops =>
      have hsrc := (names_three hops).2.1
      infer_instance
  · infer_instance
  · infer_instance

theorem confined_encodeDivIdivMul : Confined inst.operandLabels (encodeDivIdivMul inst) := by
  rw [encodeDivIdivMul]
  split
  · next hops =>
      have hop := names_one hops
      infer_instance
  · infer_instance

instance (op : Operand) (v : Word) [Names names op] : Confined names (encodeTestImm op v) := by
  unfold encodeTestImm
  infer_instance

theorem confined_encodeTest : Confined inst.operandLabels (encodeTest inst) := by
  rw [encodeTest]
  split
  · next op1 op2 hops =>
      obtain ⟨hop1, hop2⟩ := names_two hops
      split
      · infer_instance
      split <;> infer_instance
  · infer_instance

instance (op2 : Option Operand) : Confined names (shiftCount inst op2) := by
  rw [shiftCount.eq_def]
  split <;> infer_instance

instance (regOpcode : Byte) (op : Operand) (count : ShiftCount) [Names names op] :
    Confined names (encodeShiftBy regOpcode op count) := by
  cases count <;> unfold encodeShiftBy <;> infer_instance

theorem confined_encodeShift : Confined inst.operandLabels (encodeShift inst) := by
  rw [encodeShift]
  split
  · next op1 rest hops =>
      have hop : Names inst.operandLabels op1 := ⟨labels_subset (by simp [hops])⟩
      infer_instance
  · infer_instance

theorem confined_encodeBitManip : Confined inst.operandLabels (encodeBitManip inst) := by
  rw [encodeBitManip]
  split
  · next op1 op2 hops =>
      have hop := (names_two hops).1
      apply confined_bind
      · infer_instance
      intro codes
      split <;> infer_instance
  · infer_instance

theorem confined_encodeShldShrd : Confined inst.operandLabels (encodeShldShrd inst) := by
  rw [encodeShldShrd]
  split
  · next hops =>
      have hdst := (names_three hops).1
      dsimp only
      split <;> infer_instance
  · infer_instance
  · infer_instance

theorem confined_encodeBitScan : Confined inst.operandLabels (encodeBitScan inst) := by
  rw [encodeBitScan]
  split
  · next hops =>
      have hsrc := (names_two hops).2
      infer_instance
  · infer_instance
  · infer_instance

instance : Confined names (segmentPrefix inst) := by
  rw [segmentPrefix]
  split <;> infer_instance

theorem confined_machineEncoder {encode : ParsedInstruction → Encoder Unit}
    (h : machineEncoder inst.type = some encode) : Confined inst.operandLabels (encode inst) := by
  cases ht : inst.type <;> rw [ht] at h <;> cases h
  all_goals first
    | exact confined_encodeMov
    | exact confined_encodePushPop
    | exact confined_encodeArithmetic
    | exact confined_encodeUnaryArithmetic
    | exact confined_encodeLea
    | exact confined_encodeJmp
    | exact confined_encodeJcc
    | exact confined_encodeCallRet
    | exact confined_encodeSetcc
    | exact confined_encodeCmov
    | exact confined_encodeXchg
    | exact confined_encodeImul
    | exact confined_encodeDivIdivMul
    | exact confined_encodeTest
    | exact confined_encodeShift
    | exact confined_encodeShldShrd
    | exact confined_encodeBitManip
    | exact confined_encodeBitScan
    | exact confined_encodeSseMov
    | exact confined_encodeSseBinary _ _ _ _
    | exact inferInstanceAs (Confined _ (encodeFixed _ _ _ inst))
    | exact inferInstanceAs (Confined _ (encodeFlag inst))
    | exact inferInstanceAs (Confined _ (emitBytes _))
    | exact inferInstanceAs (Confined _ (emitByte _))
    | infer_instance

end Encoders

end Encoder

end X86Assembler
