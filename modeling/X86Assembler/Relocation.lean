import X86Assembler.AddressEncoding

namespace X86Assembler

open CString (Byte)
open Encoder
open LittleEndian (leBytes)

/-- The number that a reference to a label becomes: from its name, whether it is RIP-relative, and
the number written next to it. -/
abbrev Placement := Label → Bool → BitVec 32 → BitVec 32

variable {place : Placement} {α β : Type}

def MemOperand.located (place : Placement) (m : MemOperand) : MemOperand :=
  { m with
    displacement := match memReference m with
      | some rip => place m.label rip m.displacement
      | none => m.displacement
    hasDisplacement := m.hasDisplacement || (memReference m).isSome
    label := if (memReference m).isSome then Label.empty else m.label }

def Operand.located (place : Placement) : Operand → Operand
  | .mem m => .mem (m.located place)
  | op => op

def ParsedInstruction.located (place : Placement) (inst : ParsedInstruction) : ParsedInstruction :=
  { inst with operands := inst.operands.map (Operand.located place) }

theorem located_of_none {m : MemOperand} (h : memReference m = none) : m.located place = m := by
  rw [MemOperand.located, h]
  simp

theorem memReference_located (m : MemOperand) : memReference (m.located place) = none := by
  cases h : memReference m with
  | none => rw [located_of_none h, h]
  | some rip =>
      have hlabel : (m.located place).label = Label.empty := by
        rw [MemOperand.located, h]
        rfl
      rw [memReference, if_pos hlabel]

section Seen

variable (op op' : Operand)

@[simp] theorem needsRex_located : needsRex (op.located place) = needsRex op := by
  cases op <;> rfl

@[simp] theorem isHigh8bitReg_located : isHigh8bitReg (op.located place) = isHigh8bitReg op := by
  cases op <;> rfl

@[simp] theorem isMemOperand_located : isMemOperand (op.located place) = isMemOperand op := by
  cases op <;> rfl

@[simp] theorem isXmmOperand_located : isXmmOperand (op.located place) = isXmmOperand op := by
  cases op <;> rfl

@[simp] theorem hasXmmSize_located : hasXmmSize (op.located place) = hasXmmSize op := by
  cases op <;> rfl

@[simp] theorem isHighXmm_located : isHighXmm (op.located place) = isHighXmm op := by
  cases op <;> rfl

@[simp] theorem memBaseExtended_located :
    memBaseExtended (op.located place) = memBaseExtended op := by
  cases op <;> rfl

@[simp] theorem memIndexExtended_located :
    memIndexExtended (op.located place) = memIndexExtended op := by
  cases op <;> rfl

@[simp] theorem regField_located : regField (op.located place) = regField op := by
  cases op <;> rfl

@[simp] theorem operandSize_located : Encoder.operandSize (op.located place) = Encoder.operandSize op := by
  cases op <;> rfl

@[simp] theorem operationSize_located :
    operationSize (op.located place) (op'.located place) = operationSize op op' := by
  cases op <;> cases op' <;> rfl

@[simp] theorem checkRexConflict_located :
    checkRexConflict (op.located place) (op'.located place) = checkRexConflict op op' := by
  rw [checkRexConflict, checkRexConflict, isHigh8bitReg_located, isHigh8bitReg_located,
    needsRex_located, needsRex_located]

@[simp] theorem emitRex_located (w : Bool) (regOp : Option Operand) :
    emitRex w regOp (some (op.located place)) none = emitRex w regOp (some op) none := by
  cases op <;> rfl

@[simp] theorem emitRex_located_reg (w : Bool) (rmOp : Option Operand) :
    emitRex w (some (op.located place)) rmOp none = emitRex w (some op) rmOp none := by
  cases op <;> rfl

end Seen

/-- The same calls, with the numbers of the references to labels in place of their fixups. -/
inductive Relocated (place : Placement) : List Emission → List Emission → Prop
  | nil : Relocated place [] []
  | keep (e : Emission) {es es' : List Emission} : Relocated place es es' →
      Relocated place (e :: es) (e :: es')
  | field (name : Label) (rip : Bool) (v : BitVec 32) {es es' : List Emission} :
      Relocated place es es' → Relocated place
        (.fixup name 4 .mov rip :: ((leBytes 4 v).map .byte ++ es))
        ((leBytes 4 (place name rip v)).map .byte ++ es')

theorem Relocated.refl (es : List Emission) : Relocated place es es := by
  induction es with
  | nil => exact .nil
  | cons e es ih => exact .keep e ih

theorem Relocated.append {es es' fs fs' : List Emission} (he : Relocated place es es')
    (hf : Relocated place fs fs') : Relocated place (es ++ fs) (es' ++ fs') := by
  induction he with
  | nil => exact hf
  | keep e _ ih => exact .keep e ih
  | field name rip v _ ih =>
      rw [List.cons_append, List.append_assoc, List.append_assoc]
      exact .field name rip v ih

theorem Relocated.length {es es' : List Emission} (h : Relocated place es es') :
    (bytesOf es).length = (bytesOf es').length := by
  induction h with
  | nil => rfl
  | keep e _ ih =>
      rw [bytesOf, bytesOf, List.filterMap_cons, List.filterMap_cons]
      cases e with
      | byte b => exact congrArg (· + 1) ih
      | fixup => exact ih
  | field name rip v _ ih =>
      rw [bytesOf_fixup, bytesOf_append, bytesOf_append, bytesOf_map_byte, bytesOf_map_byte,
        List.length_append, List.length_append, LittleEndian.leBytes_length,
        LittleEndian.leBytes_length, ih]

theorem Relocated.of_bytes {bs : List Byte} {es' : List Emission}
    (h : Relocated place (bs.map .byte) es') : es' = bs.map .byte := by
  induction bs generalizing es' with
  | nil =>
      cases h
      rfl
  | cons b bs ih =>
      cases h with
      | keep _ h => rw [ih h, List.map_cons]

theorem Relocated.fixup_cases {name : Label} {rip : Bool} {fs es' : List Emission}
    (h : Relocated place (.fixup name 4 .mov rip :: fs) es') :
    (∃ es'', es' = .fixup name 4 .mov rip :: es'') ∨
      ∃ v es es'', fs = (leBytes 4 v).map .byte ++ es ∧
        es' = (leBytes 4 (place name rip v)).map .byte ++ es'' ∧ Relocated place es es'' := by
  generalize hgs : Emission.fixup name 4 .mov rip :: fs = gs at h
  cases h with
  | nil => cases hgs
  | keep e _ =>
      cases hgs
      exact .inl ⟨_, rfl⟩
  | field name' rip' v hrest =>
      injection hgs with hhead hfs
      cases hhead
      exact .inr ⟨v, _, _, hfs, rfl, hrest⟩

theorem Relocated.of_field {pre post cs : List Byte} {name : Label} {rip : Bool} {v : BitVec 32}
    (h : Relocated place
      (pre.map .byte ++ .fixup name 4 .mov rip :: (leBytes 4 v ++ post).map .byte)
      (cs.map .byte)) : cs = pre ++ leBytes 4 (place name rip v) ++ post := by
  induction pre generalizing cs with
  | nil =>
      rcases h.fixup_cases with ⟨es'', hkept⟩ | ⟨u, es, es'', hfs, hes', hrest⟩
      · cases cs <;> cases hkept
      · have hbytes := congrArg bytesOf hfs
        rw [bytesOf_map_byte, bytesOf_append, bytesOf_map_byte] at hbytes
        have hlen : (leBytes 4 v).length = (leBytes 4 u).length := by
          rw [LittleEndian.leBytes_length, LittleEndian.leBytes_length]
        obtain ⟨hnumber, -⟩ := List.append_inj hbytes hlen
        have hv : v = u := by
          have hword := congrArg (LittleEndian.ofLeBytes 32) hnumber
          rwa [LittleEndian.ofLeBytes_leBytes (by decide), LittleEndian.ofLeBytes_leBytes (by decide)]
            at hword
        subst hv
        rw [List.map_append] at hfs
        have hpost := List.append_cancel_left hfs
        subst hpost
        rw [hrest.of_bytes] at hes'
        have hcs := congrArg bytesOf hes'
        rw [bytesOf_map_byte, bytesOf_append, bytesOf_map_byte, bytesOf_map_byte] at hcs
        exact hcs
  | cons b pre ih =>
      cases cs with
      | nil => cases h
      | cons c cs =>
          cases h with
          | keep _ h => rw [ih h, List.cons_append, List.cons_append]

/-- A second encoder does what the first one does, with the labels put in. -/
class Relocates (place : Placement) (m m' : Encoder α) : Prop where
  run : ∀ env es a, m env = (es, .ok a) → ∃ es', m' env = (es', .ok a) ∧ Relocated place es es'

section Instances

instance relocates_refl (m : Encoder α) : Relocates place m m where
  run := fun _ es _ h => ⟨es, h, .refl es⟩

instance (line : Nat) (category message : String) (m' : Encoder α) :
    Relocates place (diag line category message) m' where
  run := fun _ _ _ h => nomatch h

instance (m m' : Encoder α) (f f' : α → Encoder β) [hm : Relocates place m m']
    [hf : ∀ a, Relocates place (f a) (f' a)] : Relocates place (m >>= f) (m' >>= f') where
  run := fun env es b h => by
    obtain ⟨es₁, a, es₂, hrun, hrest, rfl⟩ := bind_eq_ok h
    obtain ⟨es₁', hrun', hes₁⟩ := hm.run env es₁ a hrun
    obtain ⟨es₂', hrest', hes₂⟩ := (hf a).run _ es₂ b hrest
    have henv : env.after es₁ = env.after es₁' := by
      rw [EncodeEnv.after, EncodeEnv.after, hes₁.length]
    rw [henv] at hrest'
    refine ⟨es₁' ++ es₂', ?_, hes₁.append hes₂⟩
    rw [encoder_bind hrun', hrest']

theorem relocates_ite {c : Prop} {d d' : Decidable c} {m m' e e' : Encoder α}
    (hm : Relocates place m m') (he : Relocates place e e') :
    Relocates place (@ite _ c d m e) (@ite _ c d' m' e') := by
  cases Subsingleton.elim d d'
  split
  · exact hm
  · exact he

instance (c : Prop) [Decidable c] (m m' e e' : Encoder α) [Relocates place m m']
    [Relocates place e e'] : Relocates place (if c then m else e) (if c then m' else e') :=
  relocates_ite inferInstance inferInstance

theorem memReference_cases {m : MemOperand} {rip : Bool} (h : memReference m = some rip) :
    m.label ≠ Label.empty ∧ m.isRipRelative = rip ∧
      (rip = false → m.base = none ∧ m.index = none) := by
  rw [memReference] at h
  split at h
  · cases h
  · next hlabel =>
      split at h
      · next hrip =>
          cases h
          exact ⟨hlabel, hrip, nofun⟩
      · next hrip =>
          split at h
          · next hplain =>
              cases h
              simp only [Bool.and_eq_true, Option.isNone_iff_eq_none] at hplain
              exact ⟨hlabel, by simpa using hrip, fun _ => hplain⟩
          · cases h

theorem emitModrmSib_rip {digit : Byte} {m : MemOperand} {env : EncodeEnv}
    (hrip : m.isRipRelative = true) (hplain : m.base = none ∧ m.index = none) :
    emitModrmSib digit (.mem m) env =
      ((.byte (makeModrm 0 digit 5) ::
        (if m.label ≠ Label.empty then [.fixup m.label 4 .mov true] else []) ++
          (leBytes 4 m.displacement).map .byte), .ok ()) := by
  rw [emitModrmSib, hrip, hplain.1, hplain.2]
  by_cases hlabel : m.label = Label.empty
  · simp only [hlabel, ne_eq, not_true_eq_false, decide_false, when, Bool.false_eq_true, if_false]
    rfl
  · simp only [hlabel, ne_eq, not_false_eq_true, decide_true, when, if_true]
    rfl

theorem emitModrmSib_absolute {digit : Byte} {m : MemOperand} {env : EncodeEnv}
    (hrip : m.isRipRelative = false) (hplain : m.base = none ∧ m.index = none) :
    emitModrmSib digit (.mem m) env =
      ((.byte (makeModrm 0 digit 4) :: .byte (makeSib 1 4 5) ::
        (if m.label ≠ Label.empty then [.fixup m.label 4 .mov false] else []) ++
          (leBytes 4 m.displacement).map .byte), .ok ()) := by
  rw [emitModrmSib, hrip, hplain.1, hplain.2]
  by_cases hlabel : m.label = Label.empty
  · simp only [hlabel, ne_eq, not_true_eq_false, decide_false, when, Bool.false_eq_true, if_false]
    rfl
  · simp only [hlabel, ne_eq, not_false_eq_true, decide_true, when, if_true]
    rfl

instance relocates_modrm (digit : Byte) (op : Operand) :
    Relocates place (emitModrmSib digit op) (emitModrmSib digit (op.located place)) := by
  cases op with
  | mem m =>
      show Relocates place (emitModrmSib digit (.mem m)) (emitModrmSib digit (.mem (m.located place)))
      cases href : memReference m with
      | none =>
          rw [located_of_none href]
          infer_instance
      | some rip =>
          obtain ⟨hlabel, hrip, hregs⟩ := memReference_cases href
          have hempty : (m.located place).label = Label.empty := by rw [MemOperand.located, href]; rfl
          have hnumber : (m.located place).displacement = place m.label rip m.displacement := by
            rw [MemOperand.located, href]
          constructor
          intro env es _ h
          cases rip with
          | true =>
              have hplain := (addressable_of_ok h).plain hrip
              rw [emitModrmSib_rip hrip hplain, if_pos hlabel] at h
              cases h
              have hrun := @emitModrmSib_rip digit (m.located place) env hrip hplain
              rw [hempty, hnumber] at hrun
              refine ⟨_, hrun, .keep _ ?_⟩
              have hfield := Relocated.field m.label true m.displacement (@Relocated.refl place [])
              rw [List.append_nil, List.append_nil] at hfield
              exact hfield
          | false =>
              have hplain := hregs rfl
              rw [emitModrmSib_absolute hrip hplain, if_pos hlabel] at h
              cases h
              have hrun := @emitModrmSib_absolute digit (m.located place) env hrip hplain
              rw [hempty, hnumber] at hrun
              refine ⟨_, hrun, .keep _ (.keep _ ?_)⟩
              have hfield := Relocated.field m.label false m.displacement (@Relocated.refl place [])
              rw [List.append_nil, List.append_nil] at hfield
              exact hfield
  | reg _ _ | none | imm _ | label _ | labelDiff _ _ | string _ => exact relocates_refl _

instance relocates_modrmMem (digit : Byte) (m : MemOperand) :
    Relocates place (emitModrmSib digit (.mem m)) (emitModrmSib digit (.mem (m.located place))) :=
  relocates_modrm digit (.mem m)

instance relocates_rexMem (w : Bool) (regOp : Option Operand) (m : MemOperand) :
    Relocates place (emitRex w regOp (some (.mem m)) none)
      (emitRex w regOp (some (.mem (m.located place))) none) :=
  relocates_refl _

end Instances

section Encoders

variable {inst : ParsedInstruction}

@[simp] theorem located_operands :
    (inst.located place).operands = inst.operands.map (Operand.located place) := rfl

@[simp] theorem located_type : (inst.located place).type = inst.type := rfl

@[simp] theorem located_line : (inst.located place).lineNumber = inst.lineNumber := rfl

instance (m : MemOperand) (size : RegSize) (v : Word) :
    Relocates place (encodeMovMemImm m size v) (encodeMovMemImm (m.located place) size v) := by
  unfold encodeMovMemImm
  infer_instance

instance (digit : Byte) (m : MemOperand) (v : Word) :
    Relocates place (encodeArithmeticMemImm digit m v)
      (encodeArithmeticMemImm digit (m.located place) v) := by
  unfold encodeArithmeticMemImm
  infer_instance

instance relocates_rex (w : Bool) (regOp : Option Operand) (op : Operand) :
    Relocates place (emitRex w regOp (some op) none)
      (emitRex w regOp (some (op.located place)) none) := by
  rw [emitRex_located]
  infer_instance

instance relocates_indirect (digit : Byte) (op : Operand) :
    Relocates place (encodeIndirect digit op) (encodeIndirect digit (op.located place)) := by
  unfold encodeIndirect
  infer_instance

instance relocates_group3 (digit : Byte) (op : Operand) :
    Relocates place (encodeGroup3 digit op) (encodeGroup3 digit (op.located place)) := by
  unfold encodeGroup3
  rw [operandSize_located]
  infer_instance

instance relocates_xchgRm (r : Reg) (size : RegSize) (op : Operand) (w : Bool) :
    Relocates place (encodeXchgRm r size op w) (encodeXchgRm r size (op.located place) w) := by
  unfold encodeXchgRm
  infer_instance

instance relocates_testImm (op : Operand) (v : Word) :
    Relocates place (encodeTestImm op v) (encodeTestImm (op.located place) v) := by
  unfold encodeTestImm
  simp only [operandSize_located, isMemOperand_located, regField_located]
  infer_instance

instance relocates_shiftBy (digit : Byte) (op : Operand) (count : ShiftCount) :
    Relocates place (encodeShiftBy digit op count) (encodeShiftBy digit (op.located place) count) := by
  unfold encodeShiftBy
  simp only [operandSize_located]
  cases count <;> infer_instance

instance (digit : Byte) (m : MemOperand) :
    Relocates place (encodeIndirect digit (.mem m)) (encodeIndirect digit (.mem (m.located place))) :=
  relocates_indirect digit (.mem m)

instance (r : Reg) (size : RegSize) (m : MemOperand) (w : Bool) :
    Relocates place (encodeXchgRm r size (.mem m) w) (encodeXchgRm r size (.mem (m.located place)) w) :=
  relocates_xchgRm r size (.mem m) w

instance (m : MemOperand) (v : Word) :
    Relocates place (encodeTestImm (.mem m) v) (encodeTestImm (.mem (m.located place)) v) :=
  relocates_testImm (.mem m) v

theorem located_eq {ops : List Operand} (hops : inst.operands = ops) :
    inst.located place = { inst with operands := ops.map (Operand.located place) } := by
  rw [ParsedInstruction.located, hops]

section Constructors

@[simp] theorem located_mem (m : MemOperand) :
    (Operand.mem m).located place = .mem (m.located place) := rfl

@[simp] theorem located_reg (r : Reg) (size : RegSize) :
    (Operand.reg r size).located place = .reg r size := rfl

@[simp] theorem located_imm (v : Word) : (Operand.imm v).located place = .imm v := rfl

@[simp] theorem located_label (name : Label) :
    (Operand.label name).located place = .label name := rfl

@[simp] theorem located_labelDiff (lhs rhs : Label) :
    (Operand.labelDiff lhs rhs).located place = .labelDiff lhs rhs := rfl

@[simp] theorem located_string (text : Text) :
    (Operand.string text).located place = .string text := rfl

@[simp] theorem located_none : Operand.none.located place = .none := rfl

end Constructors

theorem relocates_encodeMov : Relocates place (encodeMov inst) (encodeMov (inst.located place)) := by
  generalize hother : encodeMov (inst.located place) = other
  unfold encodeMov
  split
  · next op op' hops =>
      rw [← hother, located_eq hops]
      unfold encodeMov
      dsimp only [List.map]
      rw [checkRexConflict_located, operationSize_located]
      split
      · infer_instance
      · cases op <;> cases op' <;> first
          | exact relocates_refl _
          | dsimp only [located_mem, located_reg, located_imm, located_label]; infer_instance
  · infer_instance

theorem relocates_encodeArithmetic : Relocates place (encodeArithmetic inst) (encodeArithmetic (inst.located place)) := by
  generalize hother : encodeArithmetic (inst.located place) = other
  unfold encodeArithmetic
  split
  · next op op' hops =>
      rw [← hother, located_eq hops]
      unfold encodeArithmetic
      dsimp only [List.map]
      rw [checkRexConflict_located, operationSize_located]
      split
      · infer_instance
      · cases op <;> cases op' <;> first
          | exact relocates_refl _
          | dsimp only [located_mem, located_reg, located_imm, located_label]; infer_instance
  · infer_instance

theorem relocates_encodeXchg : Relocates place (encodeXchg inst) (encodeXchg (inst.located place)) := by
  generalize hother : encodeXchg (inst.located place) = other
  unfold encodeXchg
  split
  · next op op' hops =>
      rw [← hother, located_eq hops]
      unfold encodeXchg
      dsimp only [List.map]
      rw [checkRexConflict_located]
      split
      · infer_instance
      · cases op <;> cases op' <;> first
          | exact relocates_refl _
          | dsimp only [located_mem, located_reg, located_imm, located_label]; infer_instance
  · infer_instance

theorem relocates_encodeTest : Relocates place (encodeTest inst) (encodeTest (inst.located place)) := by
  generalize hother : encodeTest (inst.located place) = other
  unfold encodeTest
  split
  · next op op' hops =>
      rw [← hother, located_eq hops]
      unfold encodeTest
      dsimp only [List.map]
      rw [checkRexConflict_located]
      split
      · infer_instance
      · cases op <;> cases op' <;> first
          | exact relocates_refl _
          | dsimp only [located_mem, located_reg, located_imm, located_label]; infer_instance
  · infer_instance

theorem relocates_encodePushPop : Relocates place (encodePushPop inst) (encodePushPop (inst.located place)) := by
  generalize hother : encodePushPop (inst.located place) = other
  unfold encodePushPop
  dsimp only
  split
  all_goals
    first
    | infer_instance
    | next hops =>
        rw [← hother, located_eq hops]
        unfold encodePushPop
        dsimp only [List.map, located_mem, located_reg, located_imm, located_label]
        infer_instance

theorem relocates_encodeLea : Relocates place (encodeLea inst) (encodeLea (inst.located place)) := by
  generalize hother : encodeLea (inst.located place) = other
  unfold encodeLea
  split
  all_goals
    first
    | infer_instance
    | next hops =>
        rw [← hother, located_eq hops]
        unfold encodeLea
        dsimp only [List.map, located_mem, located_reg, located_imm, located_label]
        infer_instance

theorem relocates_encodeJmp : Relocates place (encodeJmp inst) (encodeJmp (inst.located place)) := by
  generalize hother : encodeJmp (inst.located place) = other
  unfold encodeJmp
  split
  all_goals
    first
    | infer_instance
    | next hops =>
        rw [← hother, located_eq hops]
        unfold encodeJmp
        dsimp only [List.map, located_mem, located_reg, located_imm, located_label]
        infer_instance

theorem relocates_encodeImul : Relocates place (encodeImul inst) (encodeImul (inst.located place)) := by
  generalize hother : encodeImul (inst.located place) = other
  unfold encodeImul
  split
  all_goals
    first
    | infer_instance
    | next hops =>
        rw [← hother, located_eq hops]
        unfold encodeImul
        dsimp only [List.map, located_mem, located_reg, located_imm, located_label]
        infer_instance

theorem relocates_encodeDivIdivMul : Relocates place (encodeDivIdivMul inst) (encodeDivIdivMul (inst.located place)) := by
  generalize hother : encodeDivIdivMul (inst.located place) = other
  unfold encodeDivIdivMul
  split
  all_goals
    first
    | infer_instance
    | next hops =>
        rw [← hother, located_eq hops]
        unfold encodeDivIdivMul
        dsimp only [List.map, located_mem, located_reg, located_imm, located_label]
        infer_instance

theorem relocates_encodeBitScan : Relocates place (encodeBitScan inst) (encodeBitScan (inst.located place)) := by
  generalize hother : encodeBitScan (inst.located place) = other
  unfold encodeBitScan
  split
  all_goals
    first
    | infer_instance
    | next hops =>
        rw [← hother, located_eq hops]
        unfold encodeBitScan
        dsimp only [List.map, located_mem, located_reg, located_imm, located_label]
        infer_instance

theorem relocates_encodeNop : Relocates place (encodeNop inst) (encodeNop (inst.located place)) := by
  generalize hother : encodeNop (inst.located place) = other
  unfold encodeNop
  split
  all_goals
    first
    | infer_instance
    | next hops =>
        rw [← hother, located_eq hops]
        unfold encodeNop
        dsimp only [List.map, located_mem, located_reg, located_imm, located_label]
        infer_instance

theorem relocates_encodeInt : Relocates place (encodeInt inst) (encodeInt (inst.located place)) := by
  generalize hother : encodeInt (inst.located place) = other
  unfold encodeInt
  split
  all_goals
    first
    | infer_instance
    | next hops =>
        rw [← hother, located_eq hops]
        unfold encodeInt
        dsimp only [List.map, located_mem, located_reg, located_imm, located_label]
        infer_instance

theorem relocates_encodeEnter : Relocates place (encodeEnter inst) (encodeEnter (inst.located place)) := by
  generalize hother : encodeEnter (inst.located place) = other
  unfold encodeEnter
  split
  all_goals
    first
    | infer_instance
    | next hops =>
        rw [← hother, located_eq hops]
        unfold encodeEnter
        dsimp only [List.map, located_mem, located_reg, located_imm, located_label]
        infer_instance

theorem relocates_encodeBswap : Relocates place (encodeBswap inst) (encodeBswap (inst.located place)) := by
  generalize hother : encodeBswap (inst.located place) = other
  unfold encodeBswap
  split
  all_goals
    first
    | infer_instance
    | next hops =>
        rw [← hother, located_eq hops]
        unfold encodeBswap
        dsimp only [List.map, located_mem, located_reg, located_imm, located_label]
        infer_instance

theorem relocates_encodeJcc : Relocates place (encodeJcc inst) (encodeJcc (inst.located place)) := by
  generalize hother : encodeJcc (inst.located place) = other
  unfold encodeJcc
  split
  all_goals
    first
    | infer_instance
    | next hops =>
        rw [← hother, located_eq hops]
        unfold encodeJcc
        dsimp only [List.map, located_mem, located_reg, located_imm, located_label]
        infer_instance

theorem relocates_encodeUnaryArithmetic : Relocates place (encodeUnaryArithmetic inst) (encodeUnaryArithmetic (inst.located place)) := by
  generalize hother : encodeUnaryArithmetic (inst.located place) = other
  unfold encodeUnaryArithmetic
  split
  · next op hops =>
      rw [← hother, located_eq hops]
      unfold encodeUnaryArithmetic
      dsimp only [List.map]
      cases op with
      | mem m =>
          have hsize : Encoder.operandSize (.mem (m.located place)) = Encoder.operandSize (.mem m) := rfl
          dsimp only [located_mem]
          rw [hsize]
          infer_instance
      | reg _ _ | none | imm _ | label _ | labelDiff _ _ | string _ => exact relocates_refl _
  · infer_instance

theorem relocates_encodeSetcc : Relocates place (encodeSetcc inst) (encodeSetcc (inst.located place)) := by
  generalize hother : encodeSetcc (inst.located place) = other
  unfold encodeSetcc
  split
  · next op hops =>
      rw [← hother, located_eq hops]
      unfold encodeSetcc
      dsimp only [List.map]
      cases op with
      | mem m =>
          have hsize : Encoder.operandSize (.mem (m.located place)) = Encoder.operandSize (.mem m) := rfl
          dsimp only [located_mem, isMemOperand]
          rw [hsize]
          exact relocates_ite inferInstance inferInstance
      | reg _ _ | none | imm _ | label _ | labelDiff _ _ | string _ => exact relocates_refl _
  · infer_instance

theorem relocates_encodeCallRet :
    Relocates place (encodeCallRet inst) (encodeCallRet (inst.located place)) := by
  generalize hother : encodeCallRet (inst.located place) = other
  unfold encodeCallRet
  split
  · next hret =>
      split
      all_goals
        first
        | infer_instance
        | next hops =>
            rw [← hother, located_eq hops]
            unfold encodeCallRet
            rw [if_pos hret]
            dsimp only [List.map, located_imm]
            infer_instance
  · next hret =>
      split
      · next hcall =>
          split
          all_goals
            first
            | infer_instance
            | next hops =>
                rw [← hother, located_eq hops]
                unfold encodeCallRet
                rw [if_neg hret, if_pos hcall]
                dsimp only [List.map, located_mem, located_reg, located_label]
                infer_instance
      · infer_instance

theorem relocates_encodeCmov : Relocates place (encodeCmov inst) (encodeCmov (inst.located place)) := by
  generalize hother : encodeCmov (inst.located place) = other
  unfold encodeCmov
  split
  · next r size src hops =>
      rw [← hother, located_eq hops]
      unfold encodeCmov
      dsimp only [List.map, located_reg]
      cases src with
      | mem m =>
          have hsize : Encoder.operandSize (.mem (m.located place)) = Encoder.operandSize (.mem m) := rfl
          dsimp only [located_mem, isMemOperand]
          rw [hsize]
          exact relocates_ite inferInstance (relocates_ite inferInstance inferInstance)
      | reg _ _ | none | imm _ | label _ | labelDiff _ _ | string _ => exact relocates_refl _
  · infer_instance
  · infer_instance

theorem shiftCount_located (op2 : Option Operand) :
    shiftCount (inst.located place) (op2.map (Operand.located place)) = shiftCount inst op2 := by
  cases op2 with
  | none => rfl
  | some op => cases op <;> rfl

theorem relocates_encodeShift : Relocates place (encodeShift inst) (encodeShift (inst.located place)) := by
  generalize hother : encodeShift (inst.located place) = other
  unfold encodeShift
  split
  · next op1 rest hops =>
      have hcount := @shiftCount_located place inst rest.head?
      rw [← List.head?_map, located_eq hops] at hcount
      rw [← hother, located_eq hops]
      unfold encodeShift
      dsimp only [List.map] at hcount ⊢
      rw [hcount, List.length_map]
      infer_instance
  · infer_instance

theorem relocates_encodeBitManip :
    Relocates place (encodeBitManip inst) (encodeBitManip (inst.located place)) := by
  generalize hother : encodeBitManip (inst.located place) = other
  unfold encodeBitManip
  split
  · next op1 op2 hops =>
      rw [← hother, located_eq hops]
      unfold encodeBitManip
      dsimp only [List.map]
      rw [operandSize_located]
      cases op2
      all_goals
        dsimp only [located_mem, located_reg, located_imm, located_label, located_labelDiff,
          located_string, located_none]
        infer_instance
  · infer_instance

theorem relocates_encodeShldShrd :
    Relocates place (encodeShldShrd inst) (encodeShldShrd (inst.located place)) := by
  generalize hother : encodeShldShrd (inst.located place) = other
  unfold encodeShldShrd
  split
  · next dst r size cnt hops =>
      rw [← hother, located_eq hops]
      unfold encodeShldShrd
      dsimp only [List.map, located_reg]
      rw [operandSize_located]
      cases cnt
      all_goals
        dsimp only [located_mem, located_reg, located_imm, located_label, located_labelDiff,
          located_string, located_none]
        first
          | infer_instance
          | exact relocates_ite inferInstance inferInstance
  · infer_instance
  · infer_instance

theorem relocates_encodeSseMov :
    Relocates place (encodeSseMov inst) (encodeSseMov (inst.located place)) := by
  generalize hother : encodeSseMov (inst.located place) = other
  unfold encodeSseMov
  split
  · next dst src hops =>
      rw [← hother, located_eq hops]
      unfold encodeSseMov
      dsimp only [List.map]
      rw [isXmmOperand_located, hasXmmSize_located, isXmmOperand_located, hasXmmSize_located,
        isMemOperand_located, isMemOperand_located, memBaseExtended_located, memBaseExtended_located,
        memIndexExtended_located, memIndexExtended_located, regField_located, regField_located]
      cases isMemOperand dst
      · simp only [Bool.false_eq_true, if_false, isHighXmm_located]
        infer_instance
      · simp only [if_true, isHighXmm_located]
        infer_instance
  · infer_instance

theorem relocates_encodeSseBinary (opcode : InstType → Option SseOpcode)
    (name dstSizeMessage unknownMessage : String) :
    Relocates place (encodeSseBinary opcode name dstSizeMessage unknownMessage inst)
      (encodeSseBinary opcode name dstSizeMessage unknownMessage (inst.located place)) := by
  generalize hother :
    encodeSseBinary opcode name dstSizeMessage unknownMessage (inst.located place) = other
  unfold encodeSseBinary
  split
  · next dst src hops =>
      rw [← hother, located_eq hops]
      unfold encodeSseBinary
      dsimp only [List.map]
      rw [isXmmOperand_located, hasXmmSize_located, isXmmOperand_located, isMemOperand_located,
        hasXmmSize_located, isHighXmm_located, isHighXmm_located, memBaseExtended_located,
        memIndexExtended_located, regField_located]
      infer_instance
  · infer_instance

theorem relocates_encodeFixed (bytes : InstType → Option (List Byte))
    (operandsMessage unknownMessage : String) :
    Relocates place (encodeFixed bytes operandsMessage unknownMessage inst)
      (encodeFixed bytes operandsMessage unknownMessage (inst.located place)) := by
  generalize hother : encodeFixed bytes operandsMessage unknownMessage (inst.located place) = other
  unfold encodeFixed
  split
  · infer_instance
  · next hops =>
      rw [← hother, located_eq (not_not.mp hops)]
      exact relocates_refl _

theorem relocates_encodeString :
    Relocates place (encodeString inst) (encodeString (inst.located place)) := by
  generalize hother : encodeString (inst.located place) = other
  unfold encodeString
  split
  · infer_instance
  · next hops =>
      rw [← hother, located_eq (List.eq_nil_of_length_eq_zero (not_not.mp hops))]
      exact relocates_refl _

theorem relocates_machineEncoder {encode : ParsedInstruction → Encoder Unit}
    (hm : machineEncoder inst.type = some encode) :
    Relocates place (encode inst) (encode (inst.located place)) := by
  cases ht : inst.type
  all_goals
    rw [ht] at hm
    first
    | cases hm
      first
      | exact relocates_refl _
      | exact relocates_encodeMov
      | exact relocates_encodePushPop
      | exact relocates_encodeArithmetic
      | exact relocates_encodeUnaryArithmetic
      | exact relocates_encodeLea
      | exact relocates_encodeJmp
      | exact relocates_encodeJcc
      | exact relocates_encodeCallRet
      | exact relocates_encodeInt
      | exact relocates_encodeNop
      | exact relocates_encodeFixed _ _ _
      | exact relocates_encodeEnter
      | exact relocates_encodeSetcc
      | exact relocates_encodeCmov
      | exact relocates_encodeXchg
      | exact relocates_encodeBswap
      | exact relocates_encodeImul
      | exact relocates_encodeDivIdivMul
      | exact relocates_encodeTest
      | exact relocates_encodeShift
      | exact relocates_encodeShldShrd
      | exact relocates_encodeBitManip
      | exact relocates_encodeBitScan
      | exact relocates_encodeString
      | exact relocates_encodeSseMov
      | exact relocates_encodeSseBinary _ _ _ _
    | cases hm

end Encoders

def NoLabelOperand (inst : ParsedInstruction) : Prop := ∀ name, .label name ∉ inst.operands

def Operand.isLabel : Operand → Bool
  | .label _ => true
  | _ => false

theorem noLabelOperand_of {inst : ParsedInstruction}
    (h : inst.operands.any Operand.isLabel = false) : NoLabelOperand inst := by
  intro name hname
  have hlabel := List.any_eq_false.mp h _ hname
  exact hlabel rfl

theorem noLabelOperand_located {place : Placement} {inst : ParsedInstruction}
    (h : NoLabelOperand inst) : NoLabelOperand (inst.located place) := by
  intro name hname
  obtain ⟨op, hop, heq⟩ := List.mem_map.mp hname
  cases op with
  | label name' =>
      cases heq
      exact h _ hop
  | none | imm _ | reg _ _ | mem _ | labelDiff _ _ | string _ => cases heq

theorem located_bytes {place : Placement} {inst : ParsedInstruction}
    {encode : ParsedInstruction → Encoder Unit} (hm : machineEncoder inst.type = some encode)
    (hno : NoLabelOperand inst) {env : EncodeEnv} {es : List Emission}
    (h : encode (inst.located place) env = (es, .ok ())) : ∃ bs : List Byte, es = bs.map .byte := by
  have hnames := @noLabelOperand_located place _ hno
  have hshape := @Encoder.machineEncoder_shapes (inst.located place) encode hm _ _ h
  rcases hshape with ⟨bs, -⟩ | ⟨-, -, m, rip, hop, href, -, -⟩ | ⟨-, name, r, size, hops⟩ |
    ⟨name, rel, -, hops, -⟩ | ⟨name, -, hops⟩
  · exact ⟨bs, rfl⟩
  · obtain ⟨op, -, heq⟩ := List.mem_map.mp hop
    cases op with
    | mem m' =>
        cases heq
        rw [memReference_located] at href
        cases href
    | none | imm _ | reg _ _ | label _ | labelDiff _ _ | string _ => cases heq
  · exact absurd (by rw [hops]; exact List.mem_cons_of_mem _ List.mem_cons_self) (hnames name)
  · exact absurd (by rw [hops]; exact List.mem_cons_self) (hnames name)
  · exact absurd (by rw [hops]; exact List.mem_cons_self) (hnames name)

end X86Assembler
