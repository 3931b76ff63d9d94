import X86Assembler.Emits

namespace X86Assembler.Encoder

open CString (Byte)
open LittleEndian (leBytes)

variable {α β : Type}

/-- An encoder that only writes bytes. -/
class Plain (m : Encoder α) : Prop where
  bytes : ∀ env es a, m env = (es, .ok a) → ∃ bs : List Byte, es = bs.map .byte

/-- An encoder that writes bytes, a ModRM operand, and `n` bytes of an immediate after it. -/
class AroundModrm (digit : Byte) (op : Operand) (n : Nat) (m : Encoder α) : Prop where
  split : ∀ env es a, m env = (es, .ok a) → ∃ (pre post : List Byte) (ms : List Emission)
    (env' : EncodeEnv), es = pre.map .byte ++ ms ++ post.map .byte ∧ post.length = n ∧
      emitModrmSib digit op env' = (ms, .ok ())

theorem after_nil (env : EncodeEnv) : env.after [] = env := by
  simp [EncodeEnv.after]

theorem bind_eq_ok {m : Encoder α} {f : α → Encoder β} {env : EncodeEnv} {es : List Emission}
    {b : β} (h : (m >>= f) env = (es, .ok b)) :
    ∃ es₁ a es₂, m env = (es₁, .ok a) ∧ f a (env.after es₁) = (es₂, .ok b) ∧ es = es₁ ++ es₂ := by
  cases hm : m env with
  | mk es₁ r =>
      cases r with
      | error d =>
          simp only [bind, hm] at h
          cases h
      | ok a =>
          rw [encoder_bind hm] at h
          exact ⟨es₁, a, _, rfl, Prod.ext rfl (Prod.mk.inj h).2, (Prod.mk.inj h).1.symm⟩

section Instances

instance (a : α) : Plain (pure a : Encoder α) where
  bytes := fun _ _ _ h => ⟨[], by cases h; rfl⟩

instance (b : Byte) : Plain (emitByte b) where
  bytes := fun _ _ _ h => ⟨[b], by cases h; rfl⟩

instance (bs : List Byte) : Plain (emitBytes bs) where
  bytes := fun _ _ _ h => ⟨bs, by cases h; rfl⟩

instance (v : BitVec 16) : Plain (emitLe16 v) := inferInstanceAs (Plain (emitBytes _))
instance (v : BitVec 32) : Plain (emitLe32 v) := inferInstanceAs (Plain (emitBytes _))
instance (v : BitVec 64) : Plain (emitLe64 v) := inferInstanceAs (Plain (emitBytes _))

instance (line : Nat) (category message : String) : Plain (diag line category message : Encoder α)
    where
  bytes := fun _ _ _ h => nomatch h

instance (line : Nat) (category message : String) (o : Option α) :
    Plain (orDiag line category message o) := by
  cases o with
  | none => exact inferInstanceAs (Plain (diag _ _ _))
  | some a => exact inferInstanceAs (Plain (pure a))

instance (m : Encoder α) (f : α → Encoder β) [Plain m] [∀ a, Plain (f a)] : Plain (m >>= f) where
  bytes := fun env es b h => by
    obtain ⟨es₁, a, es₂, hm, hf, rfl⟩ := bind_eq_ok h
    obtain ⟨bs, rfl⟩ := Plain.bytes env es₁ a hm
    obtain ⟨cs, rfl⟩ := Plain.bytes _ es₂ b hf
    exact ⟨bs ++ cs, List.map_append.symm⟩

instance (c : Prop) [Decidable c] (m m' : Encoder α) [Plain m] [Plain m'] :
    Plain (if c then m else m') := by
  split <;> infer_instance

instance (c : Bool) (m : Encoder Unit) [Plain m] : Plain (when c m) :=
  inferInstanceAs (Plain (if c then m else pure ()))

instance (w : Bool) (r m x : Option Operand) : Plain (emitRex w r m x) := by
  unfold emitRex
  infer_instance

variable {digit : Byte} {op : Operand} {n : Nat}

instance : AroundModrm digit op 0 (emitModrmSib digit op) where
  split := fun env es _ h => ⟨[], [], es, env, by simp, rfl, h⟩

instance (line : Nat) (category message : String) :
    AroundModrm digit op n (diag line category message : Encoder α) where
  split := fun _ _ _ h => nomatch h

instance (m : Encoder α) (f : α → Encoder β) [Plain m] [∀ a, AroundModrm digit op n (f a)] :
    AroundModrm digit op n (m >>= f) where
  split := fun env es b h => by
    obtain ⟨es₁, a, es₂, hm, hf, rfl⟩ := bind_eq_ok h
    obtain ⟨bs, rfl⟩ := Plain.bytes env es₁ a hm
    have hrest : AroundModrm digit op n (f a) := inferInstance
    obtain ⟨pre, post, ms, env', rfl, hlen, hms⟩ := hrest.split _ es₂ b hf
    exact ⟨bs ++ pre, post, ms, env', by simp, hlen, hms⟩

theorem aroundModrm_then {m : Encoder Unit} {f : Unit → Encoder Unit} (bs : List Byte)
    (hm : AroundModrm digit op 0 m) (hf : f () = emitBytes bs) :
    AroundModrm digit op bs.length (m >>= f) where
  split := fun env es b h => by
    obtain ⟨es₁, a, es₂, hrun, hf', rfl⟩ := bind_eq_ok h
    obtain ⟨pre, post, ms, env', rfl, hlen, hms⟩ := hm.split env es₁ a hrun
    cases a
    rw [hf] at hf'
    cases hf'
    have hpost : post = [] := List.eq_nil_of_length_eq_zero hlen
    exact ⟨pre, bs, ms, env', by simp [hpost], rfl, hms⟩

instance (v : Byte) : AroundModrm digit op 1 (emitModrmSib digit op >>= fun _ => emitByte v) :=
  aroundModrm_then [v] inferInstance rfl

instance (v : BitVec 32) :
    AroundModrm digit op 4 (emitModrmSib digit op >>= fun _ => emitLe32 v) := by
  rw [← LittleEndian.leBytes_length 4 v]
  exact aroundModrm_then _ inferInstance rfl

instance (c : Prop) [Decidable c] (m m' : Encoder α) [AroundModrm digit op n m]
    [AroundModrm digit op n m'] : AroundModrm digit op n (if c then m else m') := by
  split <;> infer_instance

end Instances

/-- How a memory operand refers to its label: not at all, RIP-relative or absolute. -/
def memReference (m : MemOperand) : Option Bool :=
  if m.label = Label.empty then none
  else if m.isRipRelative then some true
  else if m.base.isNone && m.index.isNone then some false
  else none

instance (digit : Byte) (m : MemOperand) (base : Reg) : Plain (emitBaseOnly digit m base) := by
  unfold emitBaseOnly
  infer_instance

instance (digit : Byte) (m : MemOperand) (index : Reg) : Plain (emitIndexed digit m index) := by
  unfold emitIndexed
  infer_instance

theorem emitModrmSib_mem {digit : Byte} {m : MemOperand} {env : EncodeEnv} {es : List Emission}
    (h : emitModrmSib digit (.mem m) env = (es, .ok ())) :
    (memReference m = none ∧ ∃ bs : List Byte, es = bs.map .byte) ∨
    ∃ rip, memReference m = some rip ∧ ∃ pre : List Byte,
      es = pre.map .byte ++ .fixup m.label 4 .mov rip :: (leBytes 4 m.displacement).map .byte := by
  rw [emitModrmSib] at h
  by_cases hscale : (m.index.isSome && !validScale m.scale) = true
  · rw [if_pos hscale] at h
    cases h
  rw [if_neg hscale] at h
  by_cases hboth : (m.isRipRelative && (m.index.isSome || m.base.isSome)) = true
  · rw [if_pos hboth] at h
    cases h
  rw [if_neg hboth] at h
  by_cases hrip : m.isRipRelative = true
  · rw [if_pos hrip] at h
    by_cases hl : m.label = Label.empty
    · have hplain : Plain (emitByte (makeModrm 0 digit 5) >>= fun _ =>
          when (m.label ≠ Label.empty) (addFixupRipRelative m.label) >>= fun _ =>
            emitLe32 m.displacement) := by
        simp only [hl, ne_eq, not_true_eq_false, decide_false, when, Bool.false_eq_true, if_false]
        infer_instance
      exact .inl ⟨by rw [memReference, if_pos hl], hplain.bytes _ _ _ h⟩
    · refine .inr ⟨true, by rw [memReference, if_neg hl, if_pos hrip], [makeModrm 0 digit 5], ?_⟩
      simp only [hl, ne_eq, not_false_eq_true, decide_true, when] at h
      cases h
      rfl
  rw [if_neg hrip] at h
  cases hbase : m.base with
  | some base =>
      refine .inl ⟨by simp [memReference, hrip, hbase], ?_⟩
      cases hindex : m.index with
      | none =>
          rw [hbase, hindex] at h
          exact Plain.bytes env es () h
      | some index =>
          rw [hbase, hindex] at h
          exact Plain.bytes env es () h
  | none =>
      cases hindex : m.index with
      | some index =>
          rw [hbase, hindex] at h
          exact .inl ⟨by simp [memReference, hrip, hindex], Plain.bytes env es () h⟩
      | none =>
          rw [hbase, hindex] at h
          by_cases hl : m.label = Label.empty
          · have hplain : Plain (emitByte (makeModrm 0 digit 4) >>= fun _ =>
                emitByte (makeSib 1 4 5) >>= fun _ =>
                when (m.label ≠ Label.empty) (addFixup m.label 4 .mov) >>= fun _ =>
                  emitLe32 m.displacement) := by
              simp only [hl, ne_eq, not_true_eq_false, decide_false, when, Bool.false_eq_true, if_false]
              infer_instance
            exact .inl ⟨by rw [memReference, if_pos hl], hplain.bytes _ _ _ h⟩
          · refine .inr ⟨false, by simp [memReference, hl, hrip, hbase, hindex],
              [makeModrm 0 digit 4, makeSib 1 4 5], ?_⟩
            simp only [hl, ne_eq, not_false_eq_true, decide_true, when] at h
            cases h
            rfl

/-- The bytes of the immediate that an instruction puts behind its memory operand. -/
def immediateBytes (inst : ParsedInstruction) : Nat :=
  match inst.operands with
  | [.mem _, .imm v] =>
    if (lookupGroup1RegOpcode inst.type).isSome then
      if fitsInInt8 (v.setWidth 32) then 1 else 4
    else if (shiftRegOpcode inst.type).isSome then
      if (v.setWidth 32 : BitVec 32) == 1 then 0 else 1
    else if (bitManipCodes inst.type).isSome then 1
    else 4
  | [.reg _ _, .mem _, .imm v] => if fitsInInt8 (v.setWidth 32) then 1 else 4
  | [.mem _, .reg _ _, .imm _] => 1
  | _ => 0

/-- The instructions that are encoded without a look at their operands. -/
def ignoresOperands : InstType → Bool
  | .syscall | .sysret | .hlt | .leave | .clc | .stc | .cmc | .cld | .std | .cli | .sti => true
  | _ => false

/-- An SSE move from an XMM register takes a destination that is no memory operand for a
register, whatever it is. -/
def ignoresOperand (inst : ParsedInstruction) (op : Operand) : Bool :=
  ignoresOperands inst.type || ((sseMovOpcode false inst.type).isSome && !isMemOperand op)

/-- An operand that is encoded without the address of a label. -/
def isPlainOperand : Operand → Bool
  | .reg _ _ | .imm _ => true
  | .mem m => (memReference m).isNone
  | _ => false

def shortOpcode (type : InstType) : Byte :=
  match jccCode type with
  | some cc => 0x70 + cc
  | none => 0xEB

def nearOpcode (type : InstType) : List Byte :=
  match jccCode type with
  | some cc => [0x0F, 0x80 + cc]
  | none => if type = .call then [0xE8] else [0xE9]

inductive EncodedAs (inst : ParsedInstruction) (env : EncodeEnv) : List Emission → Prop
  | plain (bs : List Byte)
      (operands : ∀ op ∈ inst.operands, isPlainOperand op = true ∨ ignoresOperand inst op = true) :
      EncodedAs inst env (bs.map .byte)
  | memory (pre post : List Byte) (m : MemOperand) (rip : Bool)
      (operand : .mem m ∈ inst.operands) (reference : memReference m = some rip)
      (others : ∀ op ∈ inst.operands, op = .mem m ∨ isPlainOperand op = true)
      (immediate : post.length = immediateBytes inst) :
      EncodedAs inst env (pre.map .byte ++
        .fixup m.label 4 .mov rip :: (leBytes 4 m.displacement ++ post).map .byte)
  | movLabel (pre : List Byte) (name : Label) (r : Reg) (size : RegSize)
      (operands : inst.operands = [.reg r size, .label name]) :
      EncodedAs inst env (pre.map .byte ++
        .fixup name 4 .mov true :: (leBytes 4 (0 : BitVec 32)).map .byte)
  | short (name : Label) (rel : Word) (type : isControlflow inst.type = true)
      (operands : inst.operands = [.label name]) (reach : shortBranch env name = some rel) :
      EncodedAs inst env ([shortOpcode inst.type, rel.setWidth 8].map .byte)
  | near (name : Label) (type : isControlflow inst.type = true)
      (operands : inst.operands = [.label name]) :
      EncodedAs inst env ((nearOpcode inst.type).map .byte ++
        .fixup name 4 inst.type false :: (leBytes 4 (0 : BitVec 32)).map .byte)

def Shapes (inst : ParsedInstruction) (m : Encoder Unit) : Prop :=
  ∀ env es, m env = (es, .ok ()) → EncodedAs inst env es

theorem shapes_diag {inst : ParsedInstruction} {line : Nat} {category message : String} :
    Shapes inst (diag line category message) := fun _ _ h => nomatch h

theorem shapes_plain {inst : ParsedInstruction} {m : Encoder Unit} (hm : Plain m)
    (hops : ∀ op ∈ inst.operands, isPlainOperand op = true) : Shapes inst m := by
  intro env es h
  obtain ⟨bs, rfl⟩ := hm.bytes env es () h
  exact .plain bs fun op hop => .inl (hops op hop)

theorem shapes_modrm {inst : ParsedInstruction} {m : Encoder Unit} (digit : Byte) (op : Operand)
    (n : Nat) (hm : AroundModrm digit op n m) (hop : op ∈ inst.operands)
    (hothers : ∀ other ∈ inst.operands, other = op ∨ isPlainOperand other = true)
    (hn : ∀ mem, op = .mem mem → n = immediateBytes inst) : Shapes inst m := by
  intro env es h
  obtain ⟨pre, post, ms, env', rfl, hlen, hms⟩ := hm.split env es () h
  have hplain : isPlainOperand op = true → ∀ bs : List Byte, ms = bs.map .byte →
      EncodedAs inst env (pre.map .byte ++ ms ++ post.map .byte) := by
    rintro hop bs rfl
    rw [← List.map_append, ← List.map_append]
    refine .plain _ fun other hother => .inl ?_
    rcases hothers other hother with rfl | hother
    · exact hop
    · exact hother
  cases op with
  | reg r size =>
      cases hms
      exact hplain rfl [_] rfl
  | mem mem =>
      rcases emitModrmSib_mem hms with ⟨hnone, bs, hbs⟩ | ⟨rip, hrip, mid, rfl⟩
      · exact hplain (by simp [isPlainOperand, hnone]) bs hbs
      · have h : EncodedAs inst env _ := .memory (pre ++ mid) post mem rip hop hrip hothers
          (hlen.trans (hn mem rfl))
        simpa using h
  | none | imm _ | label _ | labelDiff _ _ | string _ => cases hms

section Encoders

variable {inst : ParsedInstruction}

instance (r : Reg) (size : RegSize) (v : Word) : Plain (encodeMovRegImm r size v) := by
  unfold encodeMovRegImm
  have hmodrm : Plain (emitModrmSib 0 (Operand.reg r size)) :=
    inferInstanceAs (Plain (emitByte _))
  infer_instance

theorem shapes_encodeMov (himm : ∀ m v, inst.operands = [.mem m, .imm v] → immediateBytes inst = 4) :
    Shapes inst (encodeMov inst) := by
  unfold encodeMov
  split
  · rename_i dst src hops
    split
    · exact shapes_diag
    · rename_i hrex
      dsimp only
      split
      · rename_i r size name
        intro env es h
        obtain ⟨es₁, _, es₂, hhead, hrest, rfl⟩ := bind_eq_ok h
        obtain ⟨bs, rfl⟩ := Plain.bytes env es₁ _ hhead
        cases hrest
        have h : EncodedAs inst env _ :=
          .movLabel (bs ++ [0x8B, makeModrm 0 r.low 5]) name r size hops
        rw [List.map_append, List.append_assoc] at h
        exact h
      · exact shapes_plain inferInstance (by simp [hops, isPlainOperand])
      · rename_i r₁ size₁ r size
        exact shapes_modrm r.low (.reg r₁ size₁) 0 inferInstance (by simp [hops])
          (by simp [hops, isPlainOperand]) (fun _ h => nomatch h)
      · rename_i r size m
        exact shapes_modrm r.low (.mem m) 0 inferInstance (by simp [hops])
          (by simp [hops, isPlainOperand]) (fun _ _ => by simp [immediateBytes, hops])
      · rename_i m r size
        exact shapes_modrm r.low (.mem m) 0 inferInstance (by simp [hops])
          (by simp [hops, isPlainOperand]) (fun _ _ => by simp [immediateBytes, hops])
      · rename_i m v
        have hsize : operationSize (.mem m) (.imm v) = .size64 := rfl
        have haround : AroundModrm 0 (.mem m) 4 (encodeMovMemImm m .size64 v) :=
          inferInstanceAs (AroundModrm 0 (.mem m) 4
            (pure () >>= fun _ => emitRex true none (Operand.mem m) none >>= fun _ =>
              emitByte 0xC7 >>= fun _ => emitModrmSib 0 (.mem m) >>= fun _ =>
                emitLe32 (v.setWidth 32)))
        exact shapes_modrm 0 (.mem m) 4 haround (by simp [hops])
          (by simp [hops, isPlainOperand]) (fun _ _ => (himm m v hops).symm)
      · exact shapes_diag
  · exact shapes_diag

theorem shapes_encodePushPop : Shapes inst (encodePushPop inst) := by
  unfold encodePushPop
  dsimp only
  split
  · rename_i hops
    exact shapes_plain inferInstance (by simp [hops, isPlainOperand])
  · rename_i hops
    exact shapes_plain inferInstance (by simp [hops, isPlainOperand])
  · rename_i m hops
    exact shapes_modrm (if (inst.type == .push) = true then 6 else 0) (.mem m) 0 inferInstance
      (by simp [hops]) (by simp [hops]) (fun _ _ => by simp [immediateBytes, hops])
  · exact shapes_diag
  · exact shapes_diag

instance (regOpcode : Byte) (r : Reg) (size : RegSize) (v : Word) :
    Plain (encodeArithmeticRegImm inst regOpcode r size v) := by
  unfold encodeArithmeticRegImm
  have hmodrm : Plain (emitModrmSib regOpcode (Operand.reg r size)) :=
    inferInstanceAs (Plain (emitByte _))
  infer_instance

theorem shapes_orDiag {α : Type} {line : Nat} {category message : String} {o : Option α}
    {f : α → Encoder Unit} (h : ∀ a, o = some a → Shapes inst (f a)) :
    Shapes inst (orDiag line category message o >>= f) := by
  intro env es hrun
  cases o with
  | none => cases hrun
  | some a =>
      obtain ⟨es₁, b, es₂, hpure, hf, rfl⟩ := bind_eq_ok hrun
      cases hpure
      rw [after_nil] at hf
      exact h a rfl env es₂ hf

theorem shapes_encodeArithmetic : Shapes inst (encodeArithmetic inst) := by
  unfold encodeArithmetic
  split
  · rename_i dst src hops
    split
    · exact shapes_diag
    · rename_i hrex
      dsimp only
      refine shapes_orDiag fun regOpcode hcode => ?_
      split
      · exact shapes_plain inferInstance (by simp [hops, isPlainOperand])
      · rename_i r₁ size₁ r size
        exact shapes_modrm r.low (.reg r₁ size₁) 0 inferInstance (by simp [hops])
          (by simp [hops, isPlainOperand]) (fun _ h => nomatch h)
      · rename_i r size m
        exact shapes_modrm r.low (.mem m) 0 inferInstance (by simp [hops])
          (by simp [hops, isPlainOperand]) (fun _ _ => by simp [immediateBytes, hops])
      · rename_i m r size
        exact shapes_modrm r.low (.mem m) 0 inferInstance (by simp [hops])
          (by simp [hops, isPlainOperand]) (fun _ _ => by simp [immediateBytes, hops])
      · rename_i m v
        by_cases hfits : fitsInInt8 (v.setWidth 32) = true
        · have haround : AroundModrm regOpcode (.mem m) 1 (encodeArithmeticMemImm regOpcode m v) := by
            simp only [encodeArithmeticMemImm, hfits, if_true]
            infer_instance
          exact shapes_modrm _ (.mem m) 1 haround (by simp [hops]) (by simp [hops, isPlainOperand])
            (fun _ _ => by simp [immediateBytes, hops, hcode, hfits])
        · have haround : AroundModrm regOpcode (.mem m) 4 (encodeArithmeticMemImm regOpcode m v) := by
            simp only [encodeArithmeticMemImm, hfits, if_false, Bool.false_eq_true]
            infer_instance
          exact shapes_modrm _ (.mem m) 4 haround (by simp [hops]) (by simp [hops, isPlainOperand])
            (fun _ _ => by simp [immediateBytes, hops, hcode, hfits])
      · exact shapes_diag
  · exact shapes_diag

theorem shapes_encodeUnaryArithmetic : Shapes inst (encodeUnaryArithmetic inst) := by
  unfold encodeUnaryArithmetic
  split
  · rename_i op hops
    refine shapes_orDiag fun regOpcode _ => ?_
    dsimp only
    split
    · rename_i r size
      exact shapes_modrm regOpcode (.reg r size) 0 inferInstance (by simp [hops])
        (by simp [hops]) (fun _ h => nomatch h)
    · rename_i m
      exact shapes_modrm regOpcode (.mem m) 0 inferInstance (by simp [hops]) (by simp [hops])
        (fun _ _ => by simp [immediateBytes, hops])
    · exact shapes_diag
  · exact shapes_diag

theorem shapes_encodeLea : Shapes inst (encodeLea inst) := by
  unfold encodeLea
  split
  · rename_i r size m hops
    split
    · exact shapes_diag
    · exact shapes_modrm r.low (.mem m) 0 inferInstance (by simp [hops])
        (by simp [hops, isPlainOperand]) (fun _ _ => by simp [immediateBytes, hops])
  · exact shapes_diag
  · exact shapes_diag

theorem plainOperands_nil (hops : inst.operands = []) :
    ∀ op ∈ inst.operands, isPlainOperand op = true := by
  rw [hops]
  exact fun _ h => nomatch h

theorem shapes_encodeString : Shapes inst (encodeString inst) := by
  unfold encodeString
  split
  · exact shapes_diag
  · rename_i hlen
    have hops : inst.operands = [] := List.eq_nil_of_length_eq_zero (not_not.mp hlen)
    exact shapes_plain inferInstance (plainOperands_nil hops)

theorem shapes_encodeFixed (bytes : InstType → Option (List Byte)) (operandsMessage : String)
    (unknownMessage : String) : Shapes inst (encodeFixed bytes operandsMessage unknownMessage inst) := by
  unfold encodeFixed
  split
  · exact shapes_diag
  · rename_i hops
    exact shapes_plain inferInstance (plainOperands_nil (not_not.mp hops))

theorem shapes_ignored {m : Encoder Unit} (hm : Plain m) (hi : ignoresOperands inst.type = true) :
    Shapes inst m := by
  intro env es h
  obtain ⟨bs, rfl⟩ := hm.bytes env es () h
  exact .plain bs fun op _ => .inr (by simp [ignoresOperand, hi])

instance : Plain (encodeFlag inst) := by
  unfold encodeFlag
  infer_instance

instance : Plain (encodeClcStcCmc inst) := inferInstanceAs (Plain (encodeFlag inst))
instance : Plain (encodeCldStd inst) := inferInstanceAs (Plain (encodeFlag inst))
instance : Plain (encodeCliSti inst) := inferInstanceAs (Plain (encodeFlag inst))
instance : Plain (encodeSyscall inst) := inferInstanceAs (Plain (emitBytes _))
instance : Plain (encodeSysret inst) := inferInstanceAs (Plain (emitBytes _))
instance : Plain (encodeHlt inst) := inferInstanceAs (Plain (emitByte _))
instance : Plain (encodeLeave inst) := inferInstanceAs (Plain (emitByte _))

theorem shapes_encodeNop : Shapes inst (encodeNop inst) := by
  unfold encodeNop
  split
  · rename_i hops
    exact shapes_plain inferInstance (plainOperands_nil hops)
  · exact shapes_diag

theorem shapes_encodeInt : Shapes inst (encodeInt inst) := by
  unfold encodeInt
  split
  · rename_i hops
    exact shapes_plain inferInstance (by simp [hops, isPlainOperand])
  · exact shapes_diag

theorem shapes_encodeEnter : Shapes inst (encodeEnter inst) := by
  unfold encodeEnter
  split
  · rename_i hops
    exact shapes_plain inferInstance (by simp [hops, isPlainOperand])
  · exact shapes_diag
  · exact shapes_diag

instance (code : SseOpcode) (r x b : Bool) : Plain (emitSseHead code r x b) := by
  unfold emitSseHead
  infer_instance

theorem isPlainOperand_of_xmm {op : Operand} (h : isXmmOperand op = true) :
    isPlainOperand op = true := by
  cases op with
  | reg r size => rfl
  | none | imm _ | mem _ | label _ | labelDiff _ _ | string _ => cases h

theorem eq_mem_of_isMemOperand {op : Operand} (h : isMemOperand op = true) : ∃ m, op = .mem m := by
  cases op with
  | mem m => exact ⟨m, rfl⟩
  | none | imm _ | reg _ _ | label _ | labelDiff _ _ | string _ => cases h

theorem immediateBytes_of_xmm {dst src : Operand} (hops : inst.operands = [dst, src])
    (h : isXmmOperand dst = true ∨ isXmmOperand src = true) : immediateBytes inst = 0 := by
  rw [immediateBytes, hops]
  split
  · rename_i heq
    cases heq
    rcases h with h | h <;> cases h
  · rename_i heq
    cases heq
  · rename_i heq
    cases heq
  · rfl

theorem shapes_encodeSseMov : Shapes inst (encodeSseMov inst) := by
  unfold encodeSseMov
  split
  · rename_i dst src hops
    dsimp only
    split
    · exact shapes_diag
    split
    · exact shapes_diag
    split
    · exact shapes_diag
    split
    · exact shapes_diag
    split
    · exact shapes_diag
    split
    · exact shapes_diag
    rename_i hmems hstore hload hxmm
    refine shapes_orDiag fun code hcode => ?_
    by_cases hdst : isMemOperand dst = true
    · obtain ⟨m, rfl⟩ := eq_mem_of_isMemOperand hdst
      have hsrc : isXmmOperand src = true := by simpa [hdst] using hstore
      simp only [hdst, if_true]
      exact shapes_modrm (regField src).low (.mem m) 0 inferInstance (by simp [hops])
        (by simp [hops, isPlainOperand_of_xmm hsrc])
        (fun _ _ => (immediateBytes_of_xmm hops (.inr hsrc)).symm)
    · simp only [hdst, if_false, Bool.false_eq_true]
      by_cases hsrc : isMemOperand src = true
      · obtain ⟨m, rfl⟩ := eq_mem_of_isMemOperand hsrc
        have hdst : isXmmOperand dst = true := by simpa [isXmmOperand] using hxmm
        simp only [hsrc, if_true]
        exact shapes_modrm (regField dst).low (.mem m) 0 inferInstance (by simp [hops])
          (by simp [hops, isPlainOperand_of_xmm hdst])
          (fun _ _ => (immediateBytes_of_xmm hops (.inl hdst)).symm)
      · simp only [hsrc, if_false, Bool.false_eq_true]
        intro env es h
        obtain ⟨bs, rfl⟩ := Plain.bytes env es () h
        refine .plain bs fun op hop => .inr ?_
        have hmem : isMemOperand op = false := by
          simp only [hops, List.mem_cons, List.not_mem_nil, or_false] at hop
          rcases hop with rfl | rfl
          · simpa using hdst
          · simpa using hsrc
        have hsse : (sseMovOpcode false inst.type).isSome = true := by
          rw [Bool.not_eq_true] at hdst
          rw [hdst] at hcode
          rw [hcode]
          rfl
        simp [ignoresOperand, hsse, hmem]
  · exact shapes_diag

theorem shapes_encodeSseBinary (opcode : InstType → Option SseOpcode)
    (name dstSizeMessage unknownMessage : String) :
    Shapes inst (encodeSseBinary opcode name dstSizeMessage unknownMessage inst) := by
  unfold encodeSseBinary
  split
  · rename_i dst src hops
    dsimp only
    split
    · exact shapes_diag
    split
    · exact shapes_diag
    split
    · exact shapes_diag
    split
    · exact shapes_diag
    rename_i hxmm _ _ hsrc
    have hdst : isXmmOperand dst = true := by simpa using hxmm
    refine shapes_orDiag fun code _ => ?_
    refine shapes_modrm (regField dst).low src 0 inferInstance (by simp [hops]) ?_
      (fun _ _ => (immediateBytes_of_xmm hops (.inl hdst)).symm)
    simp [hops, isPlainOperand_of_xmm hdst]
  · exact shapes_diag

instance (regOpcode : Byte) (op : Operand) :
    AroundModrm regOpcode op 0 (encodeIndirect regOpcode op) := by
  unfold encodeIndirect
  infer_instance

theorem shapes_encodeBranch {name : Label} (htype : isControlflow inst.type = true)
    (hops : inst.operands = [.label name]) :
    Shapes inst (encodeBranch (shortOpcode inst.type) (nearOpcode inst.type) inst.type name) := by
  intro env es h
  obtain ⟨es₁, _, es₂, hget, hbranch, rfl⟩ := bind_eq_ok h
  cases hget
  rw [after_nil] at hbranch
  cases hreach : shortBranch env name with
  | some rel =>
      rw [hreach] at hbranch
      cases hbranch
      exact .short name rel htype hops hreach
  | none =>
      rw [hreach] at hbranch
      cases hbranch
      exact .near name htype hops

theorem shapes_encodeJmp (ht : inst.type = .jmp) : Shapes inst (encodeJmp inst) := by
  unfold encodeJmp
  split
  · rename_i name hops
    have h := shapes_encodeBranch (by rw [ht]; rfl) hops
    rw [ht] at h
    exact h
  · rename_i r size hops
    exact shapes_modrm 4 (.reg r size) 0 inferInstance (by simp [hops]) (by simp [hops])
      (fun _ h => nomatch h)
  · rename_i m hops
    exact shapes_modrm 4 (.mem m) 0 inferInstance (by simp [hops]) (by simp [hops])
      (fun _ _ => by simp [immediateBytes, hops])
  · exact shapes_diag
  · exact shapes_diag

theorem isControlflow_of_jccCode {type : InstType} {cc : Byte} (h : jccCode type = some cc) :
    isControlflow type = true := by
  cases type <;> first
    | rfl
    | cases h

theorem shapes_encodeJcc : Shapes inst (encodeJcc inst) := by
  unfold encodeJcc
  split
  · rename_i name hops
    refine shapes_orDiag fun cc hcode => ?_
    have h := shapes_encodeBranch (isControlflow_of_jccCode hcode) hops
    simp only [shortOpcode, nearOpcode, hcode] at h
    exact h
  · exact shapes_diag
  · exact shapes_diag

theorem shapes_encodeCallRet : Shapes inst (encodeCallRet inst) := by
  unfold encodeCallRet
  split
  · split
    · rename_i hops
      exact shapes_plain inferInstance (plainOperands_nil hops)
    · rename_i hops
      exact shapes_plain inferInstance (by simp [hops, isPlainOperand])
    · exact shapes_diag
  split
  · rename_i _ hcall
    split
    · rename_i name hops
      intro env es h
      cases h
      have h : EncodedAs inst env _ := .near name (by rw [hcall]; rfl) hops
      rw [hcall] at h
      exact h
    · rename_i r size hops
      exact shapes_modrm 2 (.reg r size) 0 inferInstance (by simp [hops]) (by simp [hops])
        (fun _ h => nomatch h)
    · rename_i m hops
      exact shapes_modrm 2 (.mem m) 0 inferInstance (by simp [hops]) (by simp [hops])
        (fun _ _ => by simp [immediateBytes, hops])
    · exact shapes_diag
    · exact shapes_diag
  · exact shapes_diag

theorem shapes_encodeSetcc : Shapes inst (encodeSetcc inst) := by
  unfold encodeSetcc
  split
  · rename_i op hops
    split
    · rename_i r size
      split
      · exact shapes_diag
      · refine shapes_orDiag fun cc _ => ?_
        exact shapes_modrm 0 (.reg r size) 0 inferInstance (by simp [hops]) (by simp [hops])
          (fun _ h => nomatch h)
    · rename_i m
      split
      · exact shapes_diag
      · refine shapes_orDiag fun cc _ => ?_
        exact shapes_modrm 0 (.mem m) 0 inferInstance (by simp [hops]) (by simp [hops])
          (fun _ _ => by simp [immediateBytes, hops])
    · exact shapes_diag
  · exact shapes_diag

theorem shapes_encodeCmov : Shapes inst (encodeCmov inst) := by
  unfold encodeCmov
  split
  · rename_i r size src hops
    split
    · rename_i r₁ size₁
      split
      · exact shapes_diag
      split
      · exact shapes_diag
      · refine shapes_orDiag fun cc _ => ?_
        exact shapes_modrm r.low (.reg r₁ size₁) 0 inferInstance (by simp [hops])
          (by simp [hops, isPlainOperand]) (fun _ h => nomatch h)
    · rename_i m
      split
      · exact shapes_diag
      split
      · exact shapes_diag
      · refine shapes_orDiag fun cc _ => ?_
        exact shapes_modrm r.low (.mem m) 0 inferInstance (by simp [hops])
          (by simp [hops, isPlainOperand]) (fun _ _ => by simp [immediateBytes, hops])
    · exact shapes_diag
  · exact shapes_diag
  · exact shapes_diag

theorem shapes_encodeBswap : Shapes inst (encodeBswap inst) := by
  unfold encodeBswap
  split
  · rename_i hops
    split
    · exact shapes_diag
    · exact shapes_plain inferInstance (by simp [hops, isPlainOperand])
  · exact shapes_diag
  · exact shapes_diag

instance (r : Reg) (size : RegSize) (rm : Operand) (w : Bool) :
    AroundModrm r.low rm 0 (encodeXchgRm r size rm w) := by
  unfold encodeXchgRm
  infer_instance

theorem shapes_encodeXchg : Shapes inst (encodeXchg inst) := by
  unfold encodeXchg
  split
  · rename_i op1 op2 hops
    split
    · exact shapes_diag
    rename_i hrex
    split
    · rename_i r₁ size₁ r₂ size₂
      split
      · exact shapes_plain inferInstance (by simp [hops, isPlainOperand])
      · exact shapes_modrm r₂.low (.reg r₁ size₁) 0 inferInstance (by simp [hops])
          (by simp [hops, isPlainOperand]) (fun _ h => nomatch h)
    · rename_i r size m
      exact shapes_modrm r.low (.mem m) 0 inferInstance (by simp [hops])
        (by simp [hops, isPlainOperand]) (fun _ _ => by simp [immediateBytes, hops])
    · rename_i m r size
      exact shapes_modrm r.low (.mem m) 0 inferInstance (by simp [hops])
        (by simp [hops, isPlainOperand]) (fun _ _ => by simp [immediateBytes, hops])
    · exact shapes_diag
  · exact shapes_diag

instance (regOpcode : Byte) (op : Operand) : AroundModrm regOpcode op 0 (encodeGroup3 regOpcode op) := by
  unfold encodeGroup3
  infer_instance

theorem shapes_encodeDivIdivMul : Shapes inst (encodeDivIdivMul inst) := by
  unfold encodeDivIdivMul
  split
  · rename_i op hops
    refine shapes_orDiag fun regOpcode _ => ?_
    exact shapes_modrm regOpcode op 0 inferInstance (by simp [hops]) (by simp [hops])
      (fun _ _ => by simp [immediateBytes, hops])
  · exact shapes_diag

theorem shapes_encodeImul : Shapes inst (encodeImul inst) := by
  unfold encodeImul
  split
  · rename_i op hops
    exact shapes_modrm 5 op 0 inferInstance (by simp [hops]) (by simp [hops])
      (fun _ _ => by simp [immediateBytes, hops])
  · rename_i r size src hops
    exact shapes_modrm r.low src 0 inferInstance (by simp [hops])
      (by simp [hops, isPlainOperand]) (fun _ _ => by simp [immediateBytes, hops])
  · exact shapes_diag
  · rename_i r size src v hops
    dsimp only
    by_cases hfits : fitsInInt8 (v.setWidth 32) = true
    · simp only [hfits, if_true]
      exact shapes_modrm r.low src 1 inferInstance (by simp [hops])
        (by simp [hops, isPlainOperand]) (fun m hm => by simp [immediateBytes, hops, hm, hfits])
    · simp only [hfits, if_false, Bool.false_eq_true]
      exact shapes_modrm r.low src 4 inferInstance (by simp [hops])
        (by simp [hops, isPlainOperand]) (fun m hm => by simp [immediateBytes, hops, hm, hfits])
  · exact shapes_diag
  · exact shapes_diag

theorem shapes_encodeTest
    (himm : ∀ m v, inst.operands = [.mem m, .imm v] → immediateBytes inst = 4) :
    Shapes inst (encodeTest inst) := by
  unfold encodeTest
  split
  · rename_i op1 op2 hops
    split
    · exact shapes_diag
    rename_i hrex
    split
    · rename_i r size v
      have hmodrm : Plain (emitModrmSib 0 (Operand.reg r size)) :=
        inferInstanceAs (Plain (emitByte _))
      refine shapes_plain ?_ (by simp [hops, isPlainOperand])
      unfold encodeTestImm
      infer_instance
    · rename_i m v
      have haround : AroundModrm 0 (.mem m) 4 (encodeTestImm (.mem m) v) :=
        inferInstanceAs (AroundModrm 0 (.mem m) 4
          (emitRex true none (Operand.mem m) none >>= fun _ => emitByte 0xF7 >>= fun _ =>
            emitModrmSib 0 (.mem m) >>= fun _ => emitLe32 (v.setWidth 32)))
      exact shapes_modrm 0 (.mem m) 4 haround (by simp [hops]) (by simp [hops, isPlainOperand])
        (fun _ _ => (himm m v hops).symm)
    · rename_i _ _ r size
      exact shapes_modrm r.low op1 0 inferInstance (by simp [hops])
        (by simp [hops, isPlainOperand]) (fun _ hm => by simp [immediateBytes, hops, hm])
    · exact shapes_diag
  · exact shapes_diag

def ShiftCount.bytes : ShiftCount → Nat
  | .cl => 0
  | .number n => if n == 1 then 0 else 1

theorem aroundModrm_encodeShiftBy (regOpcode : Byte) (op : Operand) (count : ShiftCount) :
    AroundModrm regOpcode op count.bytes (encodeShiftBy regOpcode op count) := by
  unfold encodeShiftBy
  cases count with
  | cl =>
      dsimp only [ShiftCount.bytes]
      infer_instance
  | number n =>
      by_cases hone : (n == 1) = true
      · simp only [ShiftCount.bytes, hone, if_true]
        infer_instance
      · simp only [ShiftCount.bytes, hone, if_false, Bool.false_eq_true]
        infer_instance

theorem shiftCount_eq_ok {op2 : Option Operand} {env : EncodeEnv} {es : List Emission}
    {count : ShiftCount} (h : shiftCount inst op2 env = (es, .ok count)) :
    es = [] ∧ ((op2 = none ∧ count = .number 1) ∨
      (∃ r size, op2 = some (.reg r size) ∧ count = .cl) ∨
      ∃ v : Word, op2 = some (.imm v) ∧ count = .number (v.setWidth 32)) := by
  cases op2 with
  | none =>
      cases h
      exact ⟨rfl, .inl ⟨rfl, rfl⟩⟩
  | some op =>
      cases op with
      | reg r size =>
          simp only [shiftCount] at h
          split at h
          · cases h
            exact ⟨rfl, .inr (.inl ⟨r, size, rfl, rfl⟩)⟩
          · cases h
      | imm v =>
          cases h
          exact ⟨rfl, .inr (.inr ⟨v, rfl, rfl⟩)⟩
      | none | mem _ | label _ | labelDiff _ _ | string _ => cases h

theorem shapes_encodeShift : Shapes inst (encodeShift inst) := by
  unfold encodeShift
  split
  · rename_i op1 rest hops
    split
    · exact shapes_diag
    rename_i hlen
    refine shapes_orDiag fun regOpcode hcode => ?_
    have hgroup : lookupGroup1RegOpcode inst.type = none := by
      cases ht : inst.type <;> first
        | rfl
        | (rw [ht] at hcode; cases hcode)
    intro env es h
    obtain ⟨es₁, count, es₂, hcount, hby, rfl⟩ := bind_eq_ok h
    obtain ⟨hnil, hkind⟩ := shiftCount_eq_ok hcount
    subst hnil
    rw [after_nil] at hby
    have haround := aroundModrm_encodeShiftBy regOpcode op1 count
    have hrest : ∀ op, rest.head? = some op → inst.operands = [op1, op] := by
      intro op hop
      cases rest with
      | nil => cases hop
      | cons op' rest =>
          cases hop
          have hnil : rest = [] := by
            simpa using hlen
          rw [hops, hnil]
    clear hcount
    rcases hkind with ⟨hnone, rfl⟩ | ⟨r, size, hsome, rfl⟩ | ⟨v, hsome, rfl⟩
    · have hops : inst.operands = [op1] := by rw [hops, List.head?_eq_none_iff.mp hnone]
      exact shapes_modrm regOpcode op1 0 haround (by simp [hops]) (by simp [hops])
        (fun _ _ => by simp [immediateBytes, hops]) env es₂ hby
    · have hops := hrest _ hsome
      exact shapes_modrm regOpcode op1 0 haround (by simp [hops]) (by simp [hops, isPlainOperand])
        (fun _ hm => by simp [immediateBytes, hops, hm]) env es₂ hby
    · have hops := hrest _ hsome
      refine shapes_modrm regOpcode op1 _ haround (by simp [hops]) (by simp [hops, isPlainOperand])
        (fun _ hm => ?_) env es₂ hby
      simp [immediateBytes, hops, hm, hgroup, hcode, ShiftCount.bytes]
  · exact shapes_diag

theorem shapes_encodeBitManip : Shapes inst (encodeBitManip inst) := by
  unfold encodeBitManip
  split
  · rename_i op1 op2 hops
    dsimp only
    refine shapes_orDiag fun codes hcode => ?_
    have hgroup : lookupGroup1RegOpcode inst.type = none ∧ shiftRegOpcode inst.type = none := by
      cases ht : inst.type <;> first
        | exact ⟨rfl, rfl⟩
        | (rw [ht] at hcode; cases hcode)
    split
    · rename_i v
      refine shapes_modrm codes.1 op1 1 inferInstance (by simp [hops])
        (by simp [hops, isPlainOperand]) (fun m hm => ?_)
      simp [immediateBytes, hops, hm, hcode, hgroup]
    · rename_i r size
      split
      · exact shapes_modrm r.code op1 0 inferInstance (by simp [hops])
          (by simp [hops, isPlainOperand]) (fun _ hm => by simp [immediateBytes, hops, hm])
      · exact shapes_diag
    · exact shapes_diag
  · exact shapes_diag

theorem shapes_encodeShldShrd : Shapes inst (encodeShldShrd inst) := by
  unfold encodeShldShrd
  split
  · rename_i dst r size cnt hops
    dsimp only
    split
    · exact shapes_modrm r.code dst 1 inferInstance (by simp [hops])
        (by simp [hops, isPlainOperand]) (fun _ hm => by simp [immediateBytes, hops, hm])
    · rename_i hcnt
      cases cnt with
      | reg c csize =>
          dsimp only
          split
          · exact shapes_modrm r.code dst 0 inferInstance (by simp [hops])
              (by simp [hops, isPlainOperand]) (fun _ hm => by simp [immediateBytes, hops, hm])
          · exact shapes_diag
      | none | imm _ | mem _ | label _ | labelDiff _ _ | string _ => exact shapes_diag
  · exact shapes_diag
  · exact shapes_diag

theorem shapes_encodeBitScan : Shapes inst (encodeBitScan inst) := by
  unfold encodeBitScan
  split
  · rename_i r size src hops
    exact shapes_modrm r.code src 0 inferInstance (by simp [hops])
      (by simp [hops, isPlainOperand]) (fun _ hm => by simp [immediateBytes, hops, hm])
  · exact shapes_diag
  · exact shapes_diag

theorem machineEncoder_shapes {encode : ParsedInstruction → Encoder Unit}
    (hm : machineEncoder inst.type = some encode) : Shapes inst (encode inst) := by
  have hfour : ∀ {m : MemOperand} {v : Word}, inst.operands = [.mem m, .imm v] →
      lookupGroup1RegOpcode inst.type = none → shiftRegOpcode inst.type = none →
      bitManipCodes inst.type = none → immediateBytes inst = 4 := by
    intro m v hops hgroup hshift hbit
    simp [immediateBytes, hops, hgroup, hshift, hbit]
  cases ht : inst.type <;> rw [ht] at hm <;> cases hm
  all_goals first
    | exact shapes_encodeMov fun _ _ hops =>
        hfour hops (by rw [ht]; rfl) (by rw [ht]; rfl) (by rw [ht]; rfl)
    | exact shapes_encodePushPop
    | exact shapes_encodeArithmetic
    | exact shapes_encodeUnaryArithmetic
    | exact shapes_encodeLea
    | exact shapes_encodeJmp ht
    | exact shapes_encodeJcc
    | exact shapes_encodeCallRet
    | exact shapes_encodeInt
    | exact shapes_encodeNop
    | exact shapes_encodeFixed _ _ _
    | exact shapes_encodeEnter
    | exact shapes_encodeSetcc
    | exact shapes_encodeCmov
    | exact shapes_encodeXchg
    | exact shapes_encodeBswap
    | exact shapes_encodeImul
    | exact shapes_encodeDivIdivMul
    | exact shapes_encodeTest fun _ _ hops =>
        hfour hops (by rw [ht]; rfl) (by rw [ht]; rfl) (by rw [ht]; rfl)
    | exact shapes_encodeShift
    | exact shapes_encodeShldShrd
    | exact shapes_encodeBitManip
    | exact shapes_encodeBitScan
    | exact shapes_encodeString
    | exact shapes_encodeSseMov
    | exact shapes_encodeSseBinary _ _ _ _
    | exact shapes_ignored inferInstance (by rw [ht]; rfl)

theorem statement_encoded {encode : ParsedInstruction → Encoder Unit} {env : EncodeEnv}
    {es : List Emission} (hm : machineEncoder inst.type = some encode)
    (h : statement encode inst env = (es, .ok ())) : EncodedAs inst env es := by
  obtain ⟨es₁, _, es₂, hseg, henc, rfl⟩ := bind_eq_ok h
  rw [segmentPrefix_bytes hseg] at henc ⊢
  have hlabel : ∀ name, inst.operands = [.label name] → segmentBytes inst = [] := by
    intro name hops
    rw [segmentBytes, hops]
    rfl
  rcases machineEncoder_shapes hm _ _ henc with ⟨bs, hops⟩ |
    ⟨pre, post, m, rip, hop, href, hothers, himm⟩ | ⟨pre, name, r, size, hops⟩ |
    ⟨name, rel, htype, hops, hreach⟩ | ⟨name, htype, hops⟩
  · rw [← List.map_append]
    exact .plain _ hops
  · rw [← List.append_assoc, ← List.map_append]
    exact .memory _ post m rip hop href hothers himm
  · rw [← List.append_assoc, ← List.map_append]
    exact .movLabel _ name r size hops
  · rw [hlabel name hops] at hreach ⊢
    rw [List.map_nil, after_nil] at hreach
    exact .short name rel htype hops hreach
  · rw [hlabel name hops]
    exact .near name htype hops

end Encoders

end X86Assembler.Encoder
