import X86Assembler.EncoderShapes

namespace X86Assembler.Encoder

open CString (Byte)
open LittleEndian (leBytes)

variable {α β : Type}

/-- The REX prefix of `emit_rex`. -/
def rexByte (w : Bool) (regOp rmOp sibIndexOp : Option Operand) : Option Byte :=
  let r := extendedReg regOp
  let x := extendedReg sibIndexOp || extendedIndex rmOp
  let b := extendedReg rmOp || extendedBase rmOp
  if !w && !r && !x && !b then none else some (makeRex w r x b)

def baseBytes (digit : Byte) (m : MemOperand) (base : Reg) : List Byte :=
  let sib := if base.low == 4#8 then [makeSib 1 4 base.low] else []
  if !m.hasDisplacement && base.low != 4#8 && base.low != 5#8 then [makeModrm 0 digit base.low]
  else if !m.hasDisplacement && base.low == 5#8 then [makeModrm 1 digit 5, 0]
  else if m.hasDisplacement && fitsInInt8 m.displacement then
    makeModrm 1 digit base.low :: (sib ++ [m.displacement.setWidth 8])
  else makeModrm 2 digit base.low :: (sib ++ leBytes 4 m.displacement)

def indexedBytes (digit : Byte) (m : MemOperand) (index : Reg) : List Byte :=
  let base := (m.base.map Reg.low).getD 5#8
  let needSibDisp := (m.base.isNone || base == 5#8) && m.displacement == 0
  if m.hasDisplacement && fitsInInt8 m.displacement && !needSibDisp then
    [makeModrm 1 digit 4, makeSib m.scale index.low base, m.displacement.setWidth 8]
  else
    let mod : Byte := if m.hasDisplacement || m.base.isNone then 2 else 0
    makeModrm mod digit 4 :: makeSib m.scale index.low base ::
      (if mod != 0 || m.base.isNone then leBytes 4 m.displacement else [])

def memBytes (digit : Byte) (m : MemOperand) : List Byte :=
  if m.isRipRelative then makeModrm 0 digit 5 :: leBytes 4 m.displacement
  else
    match m.base, m.index with
    | none, none => makeModrm 0 digit 4 :: makeSib 1 4 5 :: leBytes 4 m.displacement
    | some base, none => baseBytes digit m base
    | _, some index => indexedBytes digit m index

/-- The bytes that `emit_modrm_sib` writes for the operands it accepts. -/
def modrmBytes (digit : Byte) : Operand → List Byte
  | .reg r _ => [makeModrm 3 digit r.low]
  | .mem m => memBytes digit m
  | _ => []

/-- An encoder that writes these bytes whenever it succeeds. -/
class Writes (m : Encoder α) (bs : outParam (List Byte)) : Prop where
  bytes : ∀ env es a, m env = (es, .ok a) → bytesOf es = bs

section Instances

instance (a : α) : Writes (pure a : Encoder α) [] where
  bytes := fun _ _ _ h => by cases h; rfl

instance (bs : List Byte) : Writes (emitBytes bs) bs where
  bytes := fun _ _ _ h => by cases h; exact bytesOf_map_byte bs

instance (b : Byte) : Writes (emitByte b) [b] := inferInstanceAs (Writes (emitBytes [b]) [b])
instance (v : BitVec 16) : Writes (emitLe16 v) (leBytes 2 v) := inferInstanceAs (Writes (emitBytes _) _)
instance (v : BitVec 32) : Writes (emitLe32 v) (leBytes 4 v) := inferInstanceAs (Writes (emitBytes _) _)
instance (v : BitVec 64) : Writes (emitLe64 v) (leBytes 8 v) := inferInstanceAs (Writes (emitBytes _) _)

instance (label : Label) (size : Nat) (type : InstType) : Writes (addFixup label size type) [] where
  bytes := fun _ _ _ h => by cases h; rfl

instance (label : Label) : Writes (addFixupRipRelative label) [] where
  bytes := fun _ _ _ h => by cases h; rfl

instance (line : Nat) (category message : String) :
    Writes (diag line category message : Encoder α) [] where
  bytes := fun _ _ _ h => nomatch h

theorem writes_bind {m : Encoder α} {f : α → Encoder β} {bs cs : List Byte} (hm : Writes m bs)
    (hf : ∀ a, Writes (f a) cs) : Writes (m >>= f) (bs ++ cs) where
  bytes := fun env es b h => by
    obtain ⟨es₁, a, es₂, hrun, hrest, rfl⟩ := bind_eq_ok h
    rw [bytesOf_append, hm.bytes _ _ _ hrun, (hf a).bytes _ _ _ hrest]

instance (m : Encoder α) (f : α → Encoder β) (bs cs : List Byte) [hm : Writes m bs]
    [hf : ∀ a, Writes (f a) cs] : Writes (m >>= f) (bs ++ cs) := writes_bind hm hf

instance (c : Prop) [Decidable c] (m m' : Encoder α) (bs cs : List Byte) [hm : Writes m bs]
    [hm' : Writes m' cs] : Writes (if c then m else m') (if c then bs else cs) := by
  split
  · exact hm
  · exact hm'

instance (c : Bool) (m : Encoder Unit) (bs : List Byte) [Writes m bs] :
    Writes (when c m) (if c then bs else []) :=
  inferInstanceAs (Writes (if c then m else pure ()) _)

instance (w : Bool) (regOp rmOp sibIndexOp : Option Operand) :
    Writes (emitRex w regOp rmOp sibIndexOp) (rexByte w regOp rmOp sibIndexOp).toList where
  bytes := fun env es a h => by
    rw [rexByte]
    unfold emitRex at h
    split at h
    · next hnone =>
        cases h
        rw [if_pos hnone]
        rfl
    · next hsome =>
        cases h
        rw [if_neg hsome]
        rfl

theorem writes_of_eq {m : Encoder α} {bs cs : List Byte} (h : Writes m bs) (heq : bs = cs) :
    Writes m cs := heq ▸ h

theorem writes_emitBaseOnly (digit : Byte) (m : MemOperand) (base : Reg) :
    Writes (emitBaseOnly digit m base) (baseBytes digit m base) := by
  unfold emitBaseOnly baseBytes
  exact writes_of_eq inferInstance rfl

theorem writes_emitIndexed (digit : Byte) (m : MemOperand) (index : Reg) :
    Writes (emitIndexed digit m index) (indexedBytes digit m index) := by
  unfold emitIndexed indexedBytes
  exact writes_of_eq inferInstance rfl

instance (digit : Byte) (op : Operand) :
    Writes (emitModrmSib digit op) (modrmBytes digit op) where
  bytes := fun env es a h => by
    rw [emitModrmSib.eq_def] at h
    split at h
    · cases h
      rfl
    · next m =>
        split at h
        · cases h
        split at h
        · cases h
        rw [modrmBytes, memBytes]
        split at h
        · next hrip =>
            rw [if_pos hrip]
            rw [Writes.bytes _ _ _ h]
            cases decide (m.label ≠ Label.empty) <;> rfl
        · next hrip =>
            rw [if_neg hrip]
            cases hbase : m.base with
            | some base =>
                cases hindex : m.index with
                | none =>
                    rw [hbase, hindex] at h
                    exact (writes_emitBaseOnly digit m base).bytes _ _ _ h
                | some index =>
                    rw [hbase, hindex] at h
                    exact (writes_emitIndexed digit m index).bytes _ _ _ h
            | none =>
                cases hindex : m.index with
                | none =>
                    rw [hbase, hindex] at h
                    rw [Writes.bytes _ _ _ h]
                    cases decide (m.label ≠ Label.empty) <;> rfl
                | some index =>
                    rw [hbase, hindex] at h
                    exact (writes_emitIndexed digit m index).bytes _ _ _ h
    · cases h

end Instances

/-- An encoder that makes no fixup and succeeds with these bytes. -/
class Puts (m : Encoder Unit) (bs : outParam (List Byte)) : Prop where
  runs : ∀ env, m env = (bs.map .byte, .ok ())

section Puts

instance (bs : List Byte) : Puts (emitBytes bs) bs where
  runs := fun _ => rfl

instance : Puts (pure () : Encoder Unit) [] where
  runs := fun _ => rfl

instance (b : Byte) : Puts (emitByte b) [b] := inferInstanceAs (Puts (emitBytes [b]) [b])
instance (v : BitVec 32) : Puts (emitLe32 v) (leBytes 4 v) := inferInstanceAs (Puts (emitBytes _) _)

instance (m : Encoder Unit) (f : Unit → Encoder Unit) (bs cs : List Byte) [hm : Puts m bs]
    [hf : ∀ a, Puts (f a) cs] : Puts (m >>= f) (bs ++ cs) where
  runs := fun env => by
    rw [encoder_bind (hm.runs env), (hf ()).runs, List.map_append]

instance (line : Nat) (category message : String) (a : α) (f : α → Encoder Unit) (bs : List Byte)
    [hf : Puts (f a) bs] : Puts (orDiag line category message (some a) >>= f) bs where
  runs := fun env => by
    have hsome : orDiag line category message (some a) env = ([], .ok a) := rfl
    rw [encoder_bind hsome, hf.runs, List.nil_append]

instance (c : Prop) [Decidable c] (m m' : Encoder Unit) (bs cs : List Byte) [hm : Puts m bs]
    [hm' : Puts m' cs] : Puts (if c then m else m') (if c then bs else cs) := by
  split
  · exact hm
  · exact hm'

instance (c : Bool) (m : Encoder Unit) (bs : List Byte) [Puts m bs] :
    Puts (when c m) (if c then bs else []) :=
  inferInstanceAs (Puts (if c then m else pure ()) _)

instance (w : Bool) (regOp rmOp sibIndexOp : Option Operand) :
    Puts (emitRex w regOp rmOp sibIndexOp) (rexByte w regOp rmOp sibIndexOp).toList where
  runs := fun env => by
    rw [rexByte]
    unfold emitRex
    split <;> rfl

instance (digit : Byte) (r : Reg) (size : RegSize) :
    Puts (emitModrmSib digit (.reg r size)) (modrmBytes digit (.reg r size)) where
  runs := fun _ => rfl

theorem puts_of_eq {m : Encoder Unit} {bs cs : List Byte} (h : Puts m bs) (heq : bs = cs) :
    Puts m cs := heq ▸ h

theorem puts_emitBaseOnly (digit : Byte) (m : MemOperand) (base : Reg) :
    Puts (emitBaseOnly digit m base) (baseBytes digit m base) := by
  unfold emitBaseOnly baseBytes
  exact puts_of_eq inferInstance rfl

theorem Puts.run {m : Encoder Unit} {bs : List Byte} (h : Puts m bs) {ctx : AssemblerContext}
    (hroom : bs.length ≤ ctx.room) :
    ∃ ctx', Encoder.run m ctx = (some (), ctx') ∧ ctx'.buffer = ctx.buffer ++ bs := by
  have hperforms : ∀ (cs : List Byte) (c : AssemblerContext), cs.length ≤ c.room →
      ∃ c', Fallible.each Emission.perform (cs.map .byte) c = (some (), c') := by
    intro cs
    induction cs with
    | nil => exact fun c _ => ⟨c, rfl⟩
    | cons b cs ih =>
        intro c hlen
        rw [List.length_cons] at hlen
        have hlt : c.buffer.length < c.capacity := by
          rw [AssemblerContext.room] at hlen
          omega
        obtain ⟨c₁, h₁, hem, -⟩ := emitByte_emits b hlt
        obtain ⟨c₂, h₂⟩ := ih c₁ (by rw [hem.room, List.length_singleton]; omega)
        refine ⟨c₂, ?_⟩
        rw [List.map_cons]
        exact Fallible.bind_eq_some.mpr ⟨(), c₁, h₁, h₂⟩
  obtain ⟨ctx', heach⟩ := hperforms bs ctx hroom
  have hrun : Encoder.run m ctx = (some (), ctx') := by
    rw [Encoder.run, Fallible.bind_run, Fallible.get_run]
    simp only [h.runs]
    exact Fallible.bind_eq_some.mpr ⟨(), ctx', heach, rfl⟩
  obtain ⟨es, hes, hemits, -⟩ := run_eq_some hrun
  rw [h.runs] at hes
  cases hes
  refine ⟨ctx', hrun, ?_⟩
  rw [hemits.buffer, bytesOf_map_byte]

end Puts

end X86Assembler.Encoder
