import X86Assembler.EncodedInstruction

namespace X86Assembler

open CString (Byte)
open Encoder (memBytes baseBytes indexedBytes)
open LittleEndian (leBytes)
open MachineCode

/-- The registers of the operand are among the sixteen general ones. -/
def generalRegisters (m : MemOperand) : Bool :=
  (m.base.all fun r => r.val < 16) && (m.index.all fun r => r.val < 16)

/-- The address that a memory operand stands for, over the sixteen general registers. A label is
left to the fixup of its field. -/
def addressOf (m : MemOperand) : Option Address :=
  if generalRegisters m then
    some {
      base := m.base.map Fin.val
      index := m.index.map fun r => (r.val, m.scale)
      displacement := m.offset
      ripRelative := m.isRipRelative }
  else none

/-- Without `hasDisplacement` no number is left where it is written all the same. -/
def NoStrayDisplacement (m : MemOperand) : Prop := m.hasDisplacement = true ∨ m.displacement = 0

/-- The operands whose bytes are their address: an index register needs a base register and is not
`rsp`, and `rbp` and `r13` with an index need a displacement. -/
def AddressFits (m : MemOperand) : Prop :=
  generalRegisters m = true ∧
    match m.base, m.index with
    | none, none => NoStrayDisplacement m
    | some base, none => base.low = 4#8 → NoStrayDisplacement m
    | none, some _ => False
    | some base, some index => index.val ≠ 4 ∧ (base.low = 5#8 → m.hasDisplacement = true)

instance (m : MemOperand) : Decidable (NoStrayDisplacement m) := inferInstanceAs (Decidable (_ ∨ _))

instance (m : MemOperand) : Decidable (AddressFits m) :=
  match hbase : m.base, hindex : m.index with
  | none, none => decidable_of_iff (generalRegisters m = true ∧ NoStrayDisplacement m)
      (by rw [AddressFits, hbase, hindex])
  | some base, none => decidable_of_iff
      (generalRegisters m = true ∧ (base.low = 4#8 → NoStrayDisplacement m))
      (by rw [AddressFits, hbase, hindex])
  | none, some _ => .isFalse (by
      rw [AddressFits, hbase, hindex]
      exact And.right)
  | some base, some index => decidable_of_iff
      (generalRegisters m = true ∧ index.val ≠ 4 ∧ (base.low = 5#8 → m.hasDisplacement = true))
      (by rw [AddressFits, hbase, hindex])

/-- What `emit_modrm_sib` checks. -/
structure Addressable (m : MemOperand) : Prop where
  scale : m.index.isSome = true → validScale m.scale = true
  plain : m.isRipRelative = true → m.base = none ∧ m.index = none

theorem addressable_of_ok {digit : Byte} {m : MemOperand} {env : EncodeEnv} {es : List Emission}
    (h : Encoder.emitModrmSib digit (.mem m) env = (es, .ok ())) : Addressable m := by
  refine ⟨validScale_of_ok h, ?_⟩
  intro hrip
  by_contra hboth
  have hsome : (m.index.isSome || m.base.isSome) = true := by
    cases hbase : m.base with
    | some base => exact Bool.or_true _
    | none =>
        cases hindex : m.index with
        | some index => rfl
        | none => exact absurd ⟨hbase, hindex⟩ hboth
  rw [Encoder.emitModrmSib] at h
  simp only [hrip, hsome, Bool.and_true, if_true] at h
  split at h
  · cases h
  · cases h

section Forms

variable {rex : Option Byte} {digit : Byte} {m : MemOperand}

theorem offset_of_noStray (h : NoStrayDisplacement m) : m.offset = m.displacement := by
  rw [MemOperand.offset]
  rcases h with h | h
  · rw [if_pos h]
  · rw [h]
    exact ite_self _

theorem noStray_of_offset (h : m.displacement = m.offset) : NoStrayDisplacement m := by
  cases hdisp : m.hasDisplacement with
  | true => exact .inl hdisp
  | false =>
      rw [MemOperand.offset, hdisp] at h
      exact .inr h

theorem readSigned_dword (v : BitVec 32) : readSigned 4 32 (leBytes 4 v) = some (v, []) := by
  have h := @readSigned_append 4 32 (leBytes 4 v) [] (LittleEndian.leBytes_length 4 v)
  have hword : LittleEndian.ofLeBytes (8 * 4) (leBytes 4 v) = v :=
    @LittleEndian.ofLeBytes_leBytes 32 4 (Nat.le_refl 32) v
  rwa [List.append_nil, hword, BitVec.signExtend_eq] at h

theorem readModRm_rip (v : BitVec 32) :
    readModRm rex (makeModrm 0 digit 5 :: leBytes 4 v) =
      some (⟨(digit &&& 7#8).toNat, .memory { displacement := v, ripRelative := true }⟩, []) := by
  have hplain : readPlain rex 0 ((5 : Byte) &&& 7#8) (leBytes 4 v) =
      (readSigned 4 32 (leBytes 4 v)).map fun found =>
        ({ displacement := found.1, ripRelative := true }, found.2) := rfl
  rw [readModRm_byPlain rfl (by decide) (by decide), hplain, readSigned_dword]
  rfl

theorem readModRm_absolute (hx : rexBit rex 1 = 0) (v : BitVec 32) :
    readModRm rex (makeModrm 0 digit 4 :: makeSib 1 4 5 :: leBytes 4 v) =
      some (⟨(digit &&& 7#8).toNat, .memory { displacement := v }⟩, []) := by
  have hsib : MachineCode.readSib rex 0 (makeSib 1 4 5 :: leBytes 4 v) =
      (readSigned 4 32 (leBytes 4 v)).map fun found =>
        ({ index := if rexBit rex 1 + 4 = 4 then none else some (rexBit rex 1 + 4, 1)
           displacement := found.1 }, found.2) := rfl
  rw [readModRm_bySib rfl (by decide) (by decide), hsib, readSigned_dword, hx]
  rfl

theorem nil_of_zero {mod : Byte} {v : BitVec 32} {tail : List Byte} (h : DispForm mod v tail)
    (hmod : mod = 0) : tail = [] := by
  cases h with
  | none => rfl
  | byte v hfits => exact absurd hmod (by decide)
  | dword v => exact absurd hmod (by decide)

theorem readModRm_cut {base index : Byte} {scale : Nat} (hfive : base &&& 7#8 = 5) :
    readModRm rex [makeModrm 0 digit 4, makeSib scale index base] = none := by
  have hsib : MachineCode.readSib rex 0 [makeSib scale index base] = none := by
    have hlow : makeSib scale index base &&& 7 = 5 := by
      rw [makeSib_eq]
      exact (makeModrm_rm _ _ _).trans hfive
    have hlen : dispLength 0 (decide ((0 : Byte) = 0) &&
        decide (makeSib scale index base &&& 7 = 5)) = 4 := by
      rw [decide_eq_true hlow]
      rfl
    rw [MachineCode.readSib, hlen]
    rfl
  rw [readModRm_bySib rfl (by decide) (by decide), hsib]
  rfl

end Forms

/-- The bytes of the operand are its address, under a REX prefix with the bits of its registers. -/
def ReadsAddress (rex : Option Byte) (digit : Byte) (m : MemOperand) : Prop :=
  ∃ a, addressOf m = some a ∧
    readModRm rex (memBytes digit m) = some (⟨(digit &&& 7#8).toNat, .memory a⟩, [])

section Matches

variable {rex : Option Byte} {digit : Byte} {m : MemOperand} {a : Address}

theorem addressOf_eq_some (hgeneral : generalRegisters m = true) :
    addressOf m = some {
      base := m.base.map Fin.val
      index := m.index.map fun r => (r.val, m.scale)
      displacement := m.offset
      ripRelative := m.isRipRelative } := if_pos hgeneral

theorem generalRegisters_of_address (h : addressOf m = some a) : generalRegisters m = true := by
  rw [addressOf] at h
  split at h
  · next hgeneral => exact hgeneral
  · cases h

theorem general_base {base : Reg} (hgeneral : generalRegisters m = true) (hbase : m.base = some base) :
    base.val < 16 := by
  rw [generalRegisters, hbase] at hgeneral
  exact of_decide_eq_true (Bool.and_eq_true_iff.mp hgeneral).1

theorem general_index {index : Reg} (hgeneral : generalRegisters m = true)
    (hindex : m.index = some index) : index.val < 16 := by
  rw [generalRegisters, hindex] at hgeneral
  exact of_decide_eq_true (Bool.and_eq_true_iff.mp hgeneral).2

theorem readsAddress_iff
    (hread : readModRm rex (memBytes digit m) = some (⟨(digit &&& 7#8).toNat, .memory a⟩, [])) :
    ReadsAddress rex digit m ↔ addressOf m = some a := by
  constructor
  · rintro ⟨a', ha, hread'⟩
    cases hread.symm.trans hread'
    exact ha
  · intro ha
    exact ⟨a, ha, hread⟩

theorem readsAddress_plain (hbase : m.base = none) (hindex : m.index = none)
    (hread : readModRm rex (memBytes digit m) = some (⟨(digit &&& 7#8).toNat,
      .memory { displacement := m.displacement, ripRelative := m.isRipRelative }⟩, [])) :
    ReadsAddress rex digit m ↔ AddressFits m := by
  have hgeneral : generalRegisters m = true := by
    rw [generalRegisters, hbase, hindex]
    rfl
  rw [readsAddress_iff hread, addressOf_eq_some hgeneral, AddressFits, hbase, hindex]
  constructor
  · intro h
    injection h with h
    injection h with _ _ hdisp
    exact ⟨hgeneral, noStray_of_offset hdisp.symm⟩
  · rintro ⟨-, h⟩
    rw [offset_of_noStray h]
    rfl

theorem readsAddress_rip (hrip : m.isRipRelative = true) (hbase : m.base = none)
    (hindex : m.index = none) : ReadsAddress rex digit m ↔ AddressFits m := by
  apply readsAddress_plain hbase hindex
  rw [memBytes, if_pos hrip, hrip]
  exact readModRm_rip m.displacement

theorem readsAddress_absolute (hrip : m.isRipRelative = false) (hbase : m.base = none)
    (hindex : m.index = none) (hx : rexBit rex 1 = 0) :
    ReadsAddress rex digit m ↔ AddressFits m := by
  apply readsAddress_plain hbase hindex
  rw [memBytes, hrip, hbase, hindex]
  exact readModRm_absolute hx m.displacement

theorem offset_eq_baseDisplacement (base : Reg) :
    m.offset = baseDisplacement m base ↔ (base.low = 4#8 → NoStrayDisplacement m) := by
  rw [MemOperand.offset, baseDisplacement, NoStrayDisplacement]
  cases hdisp : m.hasDisplacement with
  | true => exact ⟨fun _ _ => .inl rfl, fun _ => rfl⟩
  | false =>
      by_cases hfour : base.low = 4#8
      · have htrue : (base.low == 4#8) = true := by
          rw [hfour]
          rfl
        rw [htrue]
        constructor
        · intro h _
          exact .inr h.symm
        · intro h
          rcases h hfour with h | h
          · cases h
          · exact h.symm
      · rw [beq_false_of_ne hfour]
        exact ⟨fun _ h => absurd h hfour, fun _ => rfl⟩

theorem readsAddress_base {base : Reg} (hrip : m.isRipRelative = false) (hbase : m.base = some base)
    (hindex : m.index = none) (hx : rexBit rex 1 = 0)
    (hb : rexBit rex 0 = if base.isExtended then 8 else 0) :
    ReadsAddress rex digit m ↔ AddressFits m := by
  have hbytes : memBytes digit m = baseBytes digit m base := by
    rw [memBytes, hrip, hbase, hindex]
    rfl
  have hread := @readModRm_baseBytes rex digit m base hx []
  rw [List.append_nil, hb, ← hbytes] at hread
  rw [readsAddress_iff hread]
  constructor
  · intro ha
    have hgeneral := generalRegisters_of_address ha
    rw [addressOf_eq_some hgeneral] at ha
    injection ha with ha
    injection ha with _ _ hdisp
    refine ⟨hgeneral, ?_⟩
    rw [hbase, hindex]
    exact (offset_eq_baseDisplacement base).mp hdisp
  · rintro ⟨hgeneral, hstray⟩
    rw [hbase, hindex] at hstray
    have hnumber : (if base.isExtended then 8 else 0) + (base.low &&& 7#8).toNat = base.val :=
      low_number (general_base hgeneral hbase)
    rw [addressOf_eq_some hgeneral, hbase, hindex, hrip, hnumber,
      (offset_eq_baseDisplacement base).mpr hstray]
    rfl

theorem sibIndex_number {index : Reg} (hindex : index.val < 16) (scale : Nat)
    (hx : rexBit rex 1 = if index.isExtended then 8 else 0) :
    sibIndex rex scale index.low = if index.val = 4 then none else some (index.val, scale) := by
  have hnumber : (if index.isExtended then 8 else 0) + (index.low &&& 7#8).toNat = index.val :=
    low_number hindex
  rw [sibIndex, hx, hnumber]

theorem readsAddress_indexed {base index : Reg} (hscale : validScale m.scale = true)
    (hrip : m.isRipRelative = false) (hbase : m.base = some base) (hindex : m.index = some index)
    (hx : rexBit rex 1 = if index.isExtended then 8 else 0)
    (hb : rexBit rex 0 = if base.isExtended then 8 else 0) :
    ReadsAddress rex digit m ↔ AddressFits m := by
  have hbytes : memBytes digit m = indexedBytes digit m index := by
    rw [memBytes, hrip, hbase, hindex]
    rfl
  obtain ⟨mod, tail, hform, hzero, hlayout⟩ := indexedBytes_layout digit index hbase
  by_cases hcut : mod = 0 ∧ base.low = 5#8
  · obtain ⟨rfl, hfive⟩ := hcut
    have htail := nil_of_zero hform rfl
    have hnone : readModRm rex (memBytes digit m) = none := by
      rw [hbytes, hlayout, htail]
      apply readModRm_cut
      rw [hfive]
      rfl
    constructor
    · rintro ⟨a, -, hread⟩
      rw [hnone] at hread
      cases hread
    · rintro ⟨-, h⟩
      rw [hbase, hindex] at h
      have hdisp := h.2 hfive
      rw [hzero.mp rfl] at hdisp
      cases hdisp
  · have hfive : mod = 0 → base.low &&& 7 ≠ 5 := by
      intro hmod hlow
      exact hcut ⟨hmod, (low_and base).symm.trans hlow⟩
    have hread := @readModRm_sib rex mod digit index.low base.low m.scale _ tail hform hscale hfive []
    rw [List.append_nil, ← hlayout, ← hbytes, hb] at hread
    rw [readsAddress_iff hread]
    constructor
    · intro ha
      have hgeneral := generalRegisters_of_address ha
      rw [addressOf_eq_some hgeneral, sibIndex_number (general_index hgeneral hindex) _ hx] at ha
      injection ha with ha
      injection ha with _ hindex'
      refine ⟨hgeneral, ?_⟩
      rw [hbase, hindex]
      rw [hindex] at hindex'
      refine ⟨?_, ?_⟩
      · intro hfour
        rw [if_pos hfour] at hindex'
        cases hindex'
      · intro hlow
        cases hdisp : m.hasDisplacement with
        | true => rfl
        | false => exact absurd ⟨hzero.mpr hdisp, hlow⟩ hcut
    · rintro ⟨hgeneral, h⟩
      rw [hbase, hindex] at h
      have hnumber : (if base.isExtended then 8 else 0) + (base.low &&& 7#8).toNat = base.val :=
        low_number (general_base hgeneral hbase)
      have hsib := sibIndex_number (general_index hgeneral hindex) m.scale hx
      rw [if_neg h.1] at hsib
      rw [addressOf_eq_some hgeneral, hbase, hindex, hrip, hsib]
      exact congrArg (fun n => some ({ base := some n, index := some (index.val, m.scale),
                                       displacement := m.offset } : Address)) hnumber.symm

theorem readsAddress_indexOnly {index : Reg} (hscale : validScale m.scale = true)
    (hrip : m.isRipRelative = false) (hbase : m.base = none) (hindex : m.index = some index) :
    ReadsAddress rex digit m ↔ AddressFits m := by
  have hbytes : memBytes digit m = indexedBytes digit m index := by
    rw [memBytes, hrip, hbase, hindex]
    rfl
  obtain ⟨mod, tail, hmod, hform, hlayout⟩ := indexOnlyBytes_layout digit index hbase
  have hread := @readModRm_sib rex mod digit index.low 5 m.scale _ tail hform hscale
    (fun h => absurd h hmod) []
  rw [List.append_nil, ← hlayout, ← hbytes] at hread
  rw [readsAddress_iff hread]
  constructor
  · intro ha
    have hgeneral := generalRegisters_of_address ha
    rw [addressOf_eq_some hgeneral, hbase] at ha
    injection ha with ha
    injection ha with hnone
    cases hnone
  · rintro ⟨-, h⟩
    rw [hbase, hindex] at h
    exact h.elim

theorem readsAddress_fits (hm : Addressable m)
    (hb : rexBit rex 0 = if m.base.any Reg.isExtended then 8 else 0)
    (hx : rexBit rex 1 = if m.index.any Reg.isExtended then 8 else 0) :
    ReadsAddress rex digit m ↔ AddressFits m := by
  cases hrip : m.isRipRelative with
  | true =>
      obtain ⟨hbase, hindex⟩ := hm.plain hrip
      exact readsAddress_rip hrip hbase hindex
  | false =>
      cases hindex : m.index with
      | none =>
          rw [hindex] at hx
          cases hbase : m.base with
          | none => exact readsAddress_absolute hrip hbase hindex hx
          | some base =>
              rw [hbase] at hb
              exact readsAddress_base hrip hbase hindex hx hb
      | some index =>
          have hscale := hm.scale (by rw [hindex]; rfl)
          rw [hindex] at hx
          cases hbase : m.base with
          | none => exact readsAddress_indexOnly hscale hrip hbase hindex
          | some base =>
              rw [hbase] at hb
              exact readsAddress_indexed hscale hrip hbase hindex hx hb

end Matches

end X86Assembler
