import X86Assembler.ByteRegisters

namespace X86Assembler

open CString (Byte)
open CheckedRead
open MachineCode (rexBit)
open Encoder (rexByte baseBytes indexedBytes memBytes)
open LittleEndian (leBytes)

/-- The memory operand that `format_rm_operand` prints, and its displacement. -/
def readMemory (code : List Byte) (pos : Nat) (p : Prefixes) :
    CheckedRead (RmMemory × BitVec 32) := do
  let modrm ← fetchChecked code pos
  let m ← if rmBits modrm = 4 then readSib code p (modField modrm) (pos + 1)
    else pure (readRmBase p (modField modrm) (rmBits modrm) (pos + 1))
  let disp ← readDisp code m
  pure (m, disp)

theorem formatRmOperand_memory {code : List Byte} {pos : Nat} {p : Prefixes} {size : Nat} {modrm : Byte}
    (hmodrm : fetchChecked code pos = ok modrm) (hmod : modField modrm ≠ 3) :
    formatRmOperand code pos p size = readMemory code pos p >>= fun found =>
      pure (memoryText found.1 found.2, found.1.cursor + found.1.dispSize) := by
  have hprint : ∀ found : CheckedRead RmMemory,
      (found >>= fun m => readDisp code m >>= fun disp =>
        pure (memoryText m disp, m.cursor + m.dispSize)) =
      (found >>= fun m => readDisp code m >>= fun disp => pure (m, disp)) >>= fun found =>
        pure (memoryText found.1 found.2, found.1.cursor + found.1.dispSize) := by
    intro found
    cases found with
    | fault | error | overrun => rfl
    | ok m =>
        cases hdisp : readDisp code m with
        | fault | error | overrun => simp only [ok_bind, hdisp]; rfl
        | ok disp => simp only [ok_bind, hdisp, pure_eq_ok]
  rw [formatRmOperand, readMemory, hmodrm, ok_bind, ok_bind]
  simp only [if_neg hmod]
  split
  · exact hprint _
  · exact hprint _

theorem modField_makeModrm (mod digit rm : Byte) :
    modField (makeModrm mod digit rm) = (mod &&& 3#8).toNat := by
  rw [modField, makeModrm_mod]

theorem rmBits_makeModrm (mod digit rm : Byte) :
    rmBits (makeModrm mod digit rm) = (rm &&& 7#8).toNat := by
  have h := makeModrm_rm mod digit rm
  rw [rmBits]
  exact congrArg BitVec.toNat h

theorem regBits_makeModrm (mod digit rm : Byte) :
    regBits (makeModrm mod digit rm) = (digit &&& 7#8).toNat := by
  have h := makeModrm_reg mod digit rm
  rw [regBits]
  exact congrArg BitVec.toNat h

theorem makeSib_eq (scale : Nat) (index base : Byte) :
    makeSib scale index base = makeModrm (scaleBits scale) index base := by
  have hscale : scaleBits scale &&& 3#8 = scaleBits scale := by
    rw [scaleBits]
    split
    · rfl
    split
    · rfl
    split <;> rfl
  rw [makeSib, makeModrm, hscale]

theorem pow_scaleBits {scale : Nat} (h : validScale scale = true) :
    2 ^ (scaleBits scale &&& 3#8).toNat = scale := by
  have hcases : scale = 1 ∨ scale = 2 ∨ scale = 4 ∨ scale = 8 := by
    simpa [validScale, or_assoc] using h
  rcases hcases with rfl | rfl | rfl | rfl <;> rfl

theorem rexByte_mem (w : Bool) (regOp : Option Operand) (m : MemOperand) :
    rexByte w regOp (some (.mem m)) none =
      if !w && !extendedReg regOp && !m.index.any Reg.isExtended && !m.base.any Reg.isExtended then none
      else some (makeRex w (extendedReg regOp) (m.index.any Reg.isExtended)
        (m.base.any Reg.isExtended)) := rfl

theorem rexBits_of_rex {p : Prefixes} {rex : Option Byte} (h : p.rex = rex.getD 0) :
    p.rexR = rexBit rex 2 ∧ p.rexB = rexBit rex 0 := by
  rw [Prefixes.rexR, Prefixes.rexB, h]
  cases rex with
  | none => exact ⟨rfl, rfl⟩
  | some b => exact ⟨rfl, rfl⟩

theorem rexB_of_rexByte {p : Prefixes} {w : Bool} {regOp : Option Operand} {m : MemOperand}
    (h : p.rex = (rexByte w regOp (some (.mem m)) none).getD 0) :
    p.rexB = if m.base.any Reg.isExtended then 8 else 0 :=
  (rexBits_of_rex h).2.trans (rexBit_rm w regOp (some (.mem m)))

theorem rexX_of_rexByte {p : Prefixes} {w : Bool} {regOp : Option Operand} {m : MemOperand}
    (h : p.rex = (rexByte w regOp (some (.mem m)) none).getD 0) :
    p.rexX = if m.index.any Reg.isExtended then 8 else 0 := by
  rw [Prefixes.rexX, h, rexByte_mem]
  cases w <;> cases extendedReg regOp <;> cases m.base.any Reg.isExtended <;>
    cases m.index.any Reg.isExtended <;> rfl

theorem low_add_rex {r : Reg} (h : r.val < 16) :
    (r.low &&& 7#8).toNat + (if r.isExtended then 8 else 0) = r.val := by
  rw [Nat.add_comm]
  exact low_number h

/-- A displacement in the bytes that the `mod` field announces for it. -/
inductive DispForm : Byte → BitVec 32 → List Byte → Prop
  | none : DispForm 0 0 []
  | byte (v : BitVec 32) : fitsInInt8 v = true → DispForm 1 v [v.setWidth 8]
  | dword (v : BitVec 32) : DispForm 2 v (leBytes 4 v)

def baseSib (base : Reg) : List Byte := if base.low == 4#8 then [makeSib 1 4 base.low] else []

/-- The displacement that is written behind a base register alone. -/
def baseDisplacement (m : MemOperand) (base : Reg) : BitVec 32 :=
  if m.hasDisplacement || base.low == 4#8 then m.displacement else 0

theorem baseBytes_layout (digit : Byte) (m : MemOperand) (base : Reg) :
    ∃ mod tail, DispForm mod (baseDisplacement m base) tail ∧ (mod = 0 → base.low ≠ 5#8) ∧
      baseBytes digit m base = makeModrm mod digit base.low :: (baseSib base ++ tail) := by
  rw [baseBytes, baseDisplacement, baseSib]
  cases hdisp : m.hasDisplacement with
  | false =>
      by_cases hfour : base.low = 4#8
      · refine ⟨2, leBytes 4 m.displacement, ?_, fun h => absurd h (by decide), ?_⟩
        · rw [hfour]
          exact .dword _
        · rw [hfour]
          rfl
      · by_cases hfive : base.low = 5#8
        · refine ⟨1, [0], ?_, fun h => absurd h (by decide), ?_⟩
          · rw [hfive]
            exact .byte 0 rfl
          · rw [hfive]
            rfl
        · refine ⟨0, [], ?_, fun _ => hfive, ?_⟩
          · rw [beq_false_of_ne hfour]
            exact .none
          · simp [hfour, hfive]
  | true =>
      cases hfits : fitsInInt8 m.displacement with
      | true => exact ⟨1, _, .byte _ hfits, fun h => absurd h (by decide), rfl⟩
      | false => exact ⟨2, _, .dword _, fun h => absurd h (by decide), rfl⟩

theorem indexedBytes_layout (digit : Byte) {m : MemOperand} {base : Reg} (index : Reg)
    (hbase : m.base = some base) :
    ∃ mod tail, DispForm mod (if m.hasDisplacement then m.displacement else 0) tail ∧
      (mod = 0 ↔ m.hasDisplacement = false) ∧ indexedBytes digit m index =
        makeModrm mod digit 4 :: makeSib m.scale index.low base.low :: tail := by
  rw [indexedBytes, hbase]
  cases hdisp : m.hasDisplacement with
  | false => exact ⟨0, [], .none, by decide, rfl⟩
  | true =>
      by_cases hshort : (fitsInInt8 m.displacement &&
        !(base.low == 5#8 && m.displacement == 0)) = true
      · have hfits : fitsInInt8 m.displacement = true := (Bool.and_eq_true _ _ ▸ hshort).1
        exact ⟨1, _, .byte _ hfits, by decide, if_pos hshort⟩
      · exact ⟨2, _, .dword _, by decide, if_neg hshort⟩

theorem indexOnlyBytes_layout (digit : Byte) {m : MemOperand} (index : Reg) (hbase : m.base = none) :
    ∃ mod tail, mod ≠ 0 ∧ DispForm mod m.displacement tail ∧ indexedBytes digit m index =
      makeModrm mod digit 4 :: makeSib m.scale index.low 5 :: tail := by
  rw [indexedBytes, hbase]
  split
  · next h =>
      have hfits : fitsInInt8 m.displacement = true := by
        simp only [Bool.and_eq_true] at h
        exact h.1.2
      exact ⟨1, _, by decide, .byte _ hfits, rfl⟩
  · refine ⟨2, leBytes 4 m.displacement, by decide, .dword _, ?_⟩
    cases m.hasDisplacement <;> rfl

theorem signExtend_of_fitsInInt8 {v : BitVec 32} (h : fitsInInt8 v = true) :
    (v.setWidth 8).signExtend 32 = v := by
  have hfits : -128 ≤ v.toInt ∧ v.toInt ≤ 127 := by
    simpa [fitsInInt8] using h
  apply BitVec.eq_of_toInt_eq
  rw [BitVec.toInt_signExtend_of_le (by decide), BitVec.toInt_setWidth]
  have hmod : Int.bmod v.toNat (2 ^ 8) = Int.bmod v.toInt (2 ^ 8) := by
    rw [BitVec.toInt_eq_toNat_bmod, Int.bmod_bmod_of_dvd]
    exact Nat.pow_dvd_pow 2 (by decide)
  rw [hmod]
  apply Int.bmod_eq_of_le <;> omega

theorem readDisp_form {code : List Byte} {m : RmMemory} {mod : Byte} {v : BitVec 32}
    {tail : List Byte} (h : DispForm mod v tail) (hat : CheckedRead.StandsAt code m.cursor tail)
    (hsize : m.dispSize = tail.length) : readDisp code m = ok v := by
  rw [readDisp]
  cases h with
  | none => rw [hsize]; rfl
  | byte v hfits =>
      rw [if_pos (show m.dispSize = 1 from hsize), hat.fetchChecked, ok_bind, signExtend_of_fitsInInt8 hfits]
      rfl
  | dword v =>
      rw [LittleEndian.leBytes_length] at hsize
      rw [if_neg (by rw [hsize]; decide), if_pos hsize]
      exact CheckedRead.StandsAt.readLe hat (by decide)

theorem DispForm.length_eq {mod : Byte} {v : BitVec 32} {tail : List Byte} {special : Bool}
    (h : DispForm mod v tail) (hspecial : mod = 0 → special = false) :
    dispSizeOf (mod &&& 3#8).toNat special = tail.length := by
  cases h with
  | none => rw [hspecial rfl]; rfl
  | byte _ _ => rfl
  | dword v => exact (LittleEndian.leBytes_length 4 v).symm

theorem DispForm.mod_zero {mod : Byte} {v : BitVec 32} {tail : List Byte} (h : DispForm mod v tail) :
    (mod &&& 3#8).toNat = 0 ↔ mod = 0 := by
  cases h <;> decide

def sibMemory (p : Prefixes) (mod : Nat) (sib : Byte) (cursor : Nat) : RmMemory :=
  let noBase := mod = 0 && rmBits sib = 5
  { base := if noBase then none else some (rmBits sib + p.rexB)
    index := if regBits sib = 4 then none else some (regBits sib + p.rexX)
    scale := 2 ^ modField sib
    dispSize := dispSizeOf mod noBase
    cursor := cursor + 1 }

theorem readMemory_sib {code : List Byte} {pos : Nat} {p : Prefixes} {mod digit sib : Byte}
    {tail : List Byte} (h : CheckedRead.StandsAt code pos (makeModrm mod digit 4 :: sib :: tail)) :
    readMemory code pos p = (readDisp code (sibMemory p (mod &&& 3#8).toNat sib (pos + 1)) >>=
      fun disp => pure (sibMemory p (mod &&& 3#8).toNat sib (pos + 1), disp)) := by
  have hrm : rmBits (makeModrm mod digit 4) = 4 := rmBits_makeModrm mod digit 4
  rw [readMemory, h.fetchChecked, ok_bind]
  simp only [hrm, if_true, readSib, h.tail.fetchChecked, ok_bind, modField_makeModrm]
  rfl

theorem readMemory_base {code : List Byte} {pos : Nat} {p : Prefixes} {mod digit rm : Byte}
    {tail : List Byte} (h : CheckedRead.StandsAt code pos (makeModrm mod digit rm :: tail))
    (hrm : (rm &&& 7#8).toNat ≠ 4) :
    readMemory code pos p =
      (readDisp code (readRmBase p (mod &&& 3#8).toNat (rm &&& 7#8).toNat (pos + 1)) >>=
      fun disp => pure (readRmBase p (mod &&& 3#8).toNat (rm &&& 7#8).toNat (pos + 1), disp)) := by
  rw [readMemory, h.fetchChecked, ok_bind]
  simp only [rmBits_makeModrm, hrm, if_false, modField_makeModrm]
  rfl

theorem sibMemory_base {p : Prefixes} {mod scale cursor : Nat} {index base : Byte}
    (h : mod = 0 → (base &&& 7#8).toNat ≠ 5) :
    (sibMemory p mod (makeSib scale index base) cursor).base =
      some ((base &&& 7#8).toNat + p.rexB) := by
  have hno : (decide (mod = 0) && decide ((base &&& 7#8).toNat = 5)) = false := by
    simpa using h
  simp only [sibMemory, makeSib_eq, rmBits_makeModrm, hno, Bool.false_eq_true, if_false]

theorem sibMemory_noBase {p : Prefixes} {scale cursor : Nat} {index base : Byte}
    (h : (base &&& 7#8).toNat = 5) :
    (sibMemory p 0 (makeSib scale index base) cursor).base = none := by
  simp only [sibMemory, makeSib_eq, rmBits_makeModrm, h]
  rfl

theorem sibMemory_index (p : Prefixes) (mod scale cursor : Nat) (index base : Byte) :
    (sibMemory p mod (makeSib scale index base) cursor).index =
      if (index &&& 7#8).toNat = 4 then none else some ((index &&& 7#8).toNat + p.rexX) := by
  simp only [sibMemory, makeSib_eq, regBits_makeModrm]

theorem sibMemory_scale {p : Prefixes} {mod scale cursor : Nat} {index base : Byte}
    (h : validScale scale = true) :
    (sibMemory p mod (makeSib scale index base) cursor).scale = scale := by
  simp only [sibMemory, makeSib_eq, modField_makeModrm, pow_scaleBits h]

theorem sibMemory_dispSize {p : Prefixes} {scale cursor : Nat} {index base mod : Byte}
    {v : BitVec 32} {tail : List Byte} (hform : DispForm mod v tail)
    (h : mod = 0 → (base &&& 7#8).toNat ≠ 5) :
    (sibMemory p (mod &&& 3#8).toNat (makeSib scale index base) cursor).dispSize = tail.length := by
  simp only [sibMemory, makeSib_eq, rmBits_makeModrm]
  refine hform.length_eq ?_
  intro hzero
  simpa [hzero] using h hzero

theorem readMemory_sibBase {code : List Byte} {pos scale : Nat} {p : Prefixes}
    {mod digit index base : Byte} {v : BitVec 32} {tail : List Byte}
    (hat : CheckedRead.StandsAt code pos (makeModrm mod digit 4 :: makeSib scale index base :: tail))
    (hform : DispForm mod v tail) (h : mod = 0 → (base &&& 7#8).toNat ≠ 5) :
    readMemory code pos p =
      ok (sibMemory p (mod &&& 3#8).toNat (makeSib scale index base) (pos + 1), v) := by
  rw [readMemory_sib hat, readDisp_form hform hat.tail.tail (sibMemory_dispSize hform h), ok_bind]
  rfl

def MemOperand.offset (m : MemOperand) : BitVec 32 := if m.hasDisplacement then m.displacement else 0

structure ReadAs (m : MemOperand) (r : RmMemory) (disp : BitVec 32) : Prop where
  base : r.base = m.base.map Fin.val
  index : r.index = m.index.map Fin.val
  scale : m.index.isSome = true → r.scale = m.scale
  displacement : disp = m.offset
  plain : r.isRipRelative = false

/-- `format_rm_operand` reads the operand back behind any bytes and before any others, and the
bytes that it reads are those that were written. -/
def DecodesBack (rex : List Byte) (m : MemOperand) (bs : List Byte) : Prop :=
  ∀ (pre rest : List Byte) (p : Prefixes), p.rex = rex.headD 0 → ∃ r disp, ReadAs m r disp ∧
    readMemory (pre ++ (bs ++ rest)) pre.length p = ok (r, disp) ∧
    ∀ size, formatRmOperand (pre ++ (bs ++ rest)) pre.length p size =
      ok (memoryText r disp, pre.length + bs.length)

/-- The operands that come back: an index register needs a base register and is not `rsp` or `r12`,
`rbp` and `r13` with an index need a displacement, and without `hasDisplacement` no number is left
where it is written all the same. -/
def ComesBack (m : MemOperand) : Prop :=
  match m.base, m.index with
  | none, none => m.hasDisplacement = true ∨ m.displacement = 0
  | some base, none => base.low = 4#8 → m.hasDisplacement = true ∨ m.displacement = 0
  | none, some _ => False
  | some base, some index =>
      index.low ≠ 4#8 ∧ (base.low = 5#8 → m.hasDisplacement = true)

instance (m : MemOperand) : Decidable (ComesBack m) := by
  unfold ComesBack
  split <;> infer_instance

theorem formatRmOperand_layout {code : List Byte} {pos size : Nat} {p : Prefixes}
    {mod digit rm : Byte} {tail : List Byte} {r : RmMemory} {disp : BitVec 32}
    (hat : CheckedRead.StandsAt code pos (makeModrm mod digit rm :: tail)) (hmod : (mod &&& 3#8).toNat ≠ 3)
    (hread : readMemory code pos p = ok (r, disp)) :
    formatRmOperand code pos p size = ok (memoryText r disp, r.cursor + r.dispSize) := by
  have hne : modField (makeModrm mod digit rm) ≠ 3 := by
    rw [modField_makeModrm]
    exact hmod
  rw [formatRmOperand_memory hat.fetchChecked hne, hread, ok_bind]
  rfl

theorem DispForm.mod_ne {mod : Byte} {v : BitVec 32} {tail : List Byte} (h : DispForm mod v tail) :
    (mod &&& 3#8).toNat ≠ 3 := by
  cases h <;> decide

theorem low_four (r : Reg) : (r.low &&& 7#8).toNat = 4 ↔ r.low = 4#8 := by
  revert r
  decide

theorem low_five (r : Reg) : (r.low &&& 7#8).toNat = 5 ↔ r.low = 5#8 := by
  revert r
  decide

theorem readMemory_baseOnly {code : List Byte} {pos : Nat} {p : Prefixes} {digit : Byte}
    {m : MemOperand} {base : Reg} (hbase : base.val < 16)
    (hrex : p.rexB = if base.isExtended then 8 else 0)
    (hat : CheckedRead.StandsAt code pos (baseBytes digit m base)) :
    ∃ r, readMemory code pos p = ok (r, baseDisplacement m base) ∧ r.base = some base.val ∧
      r.index = none ∧ r.isRipRelative = false ∧
      r.cursor + r.dispSize = pos + (baseBytes digit m base).length := by
  obtain ⟨mod, tail, hform, hfive, hbytes⟩ := baseBytes_layout digit m base
  have hnumber := low_add_rex hbase
  rw [hbytes] at hat ⊢
  by_cases hfour : base.low = 4#8
  · have hlow : (base.low &&& 7#8).toNat = 4 := (low_four base).mpr hfour
    have hne : mod = 0 → (base.low &&& 7#8).toNat ≠ 5 := by
      intro _
      omega
    have hsib : baseSib base = [makeSib 1 4 base.low] := by
      rw [baseSib, hfour]
      rfl
    rw [hsib] at hat ⊢
    have hmodrm : makeModrm mod digit base.low = makeModrm mod digit 4 := by
      rw [hfour]
      rfl
    rw [hmodrm] at hat
    refine ⟨_, readMemory_sibBase hat hform hne, ?_, ?_, rfl, ?_⟩
    · rw [sibMemory_base (fun h => hne (hform.mod_zero.mp h)), hrex, hnumber]
    · rw [sibMemory_index]
      rfl
    · rw [sibMemory_dispSize hform hne]
      simp only [sibMemory, List.length_cons, List.length_append, List.length_nil]
      omega
  · have hlow : (base.low &&& 7#8).toNat ≠ 4 := mt (low_four base).mp hfour
    have hsib : baseSib base = [] := by
      rw [baseSib, beq_false_of_ne hfour]
      rfl
    rw [hsib, List.nil_append] at hat ⊢
    have hspecial : mod = 0 → (decide ((mod &&& 3#8).toNat = 0) &&
        decide ((base.low &&& 7#8).toNat = 5)) = false := by
      intro h
      have hnot : (base.low &&& 7#8).toNat ≠ 5 := mt (low_five base).mp (hfive h)
      rw [decide_eq_false hnot, Bool.and_false]
    have hsize : (readRmBase p (mod &&& 3#8).toNat (base.low &&& 7#8).toNat (pos + 1)).dispSize =
        tail.length := hform.length_eq hspecial
    have hrip : (readRmBase p (mod &&& 3#8).toNat (base.low &&& 7#8).toNat
        (pos + 1)).isRipRelative = false := by
      by_cases hzero : mod = 0
      · exact hspecial hzero
      · have hnot : (mod &&& 3#8).toNat ≠ 0 := mt hform.mod_zero.mp hzero
        show (decide ((mod &&& 3#8).toNat = 0) && _) = false
        rw [decide_eq_false hnot, Bool.false_and]
    refine ⟨_, ?_, ?_, rfl, hrip, ?_⟩
    · rw [readMemory_base hat hlow, readDisp_form hform hat.tail hsize, ok_bind]
      rfl
    · rw [readRmBase, hrex, hnumber]
    · rw [hsize, List.length_cons]
      show pos + 1 + tail.length = pos + (tail.length + 1)
      omega

theorem readMemory_indexed {code : List Byte} {pos : Nat} {p : Prefixes} {digit : Byte}
    {m : MemOperand} {base index : Reg} (hbase : base.val < 16) (hindex : index.val < 16)
    (hm : m.base = some base) (hscale : validScale m.scale = true)
    (hback : index.low ≠ 4#8 ∧ (base.low = 5#8 → m.hasDisplacement = true))
    (hB : p.rexB = if base.isExtended then 8 else 0) (hX : p.rexX = if index.isExtended then 8 else 0)
    (hat : CheckedRead.StandsAt code pos (indexedBytes digit m index)) :
    ∃ r, readMemory code pos p = ok (r, m.offset) ∧ r.base = some base.val ∧
      r.index = some index.val ∧ r.scale = m.scale ∧ r.isRipRelative = false ∧
      r.cursor + r.dispSize = pos + (indexedBytes digit m index).length := by
  obtain ⟨mod, tail, hform, hzero, hbytes⟩ := indexedBytes_layout digit index hm
  have hne : mod = 0 → (base.low &&& 7#8).toNat ≠ 5 := by
    intro h hfive
    have htrue := hback.2 ((low_five base).mp hfive)
    rw [hzero.mp h] at htrue
    cases htrue
  rw [hbytes] at hat ⊢
  refine ⟨_, readMemory_sibBase hat hform hne, ?_, ?_, sibMemory_scale hscale, rfl, ?_⟩
  · rw [sibMemory_base (fun h => hne (hform.mod_zero.mp h)), hB, low_add_rex hbase]
  · rw [sibMemory_index, if_neg (mt (low_four index).mp hback.1), hX, low_add_rex hindex]
  · rw [sibMemory_dispSize hform hne]
    simp only [sibMemory, List.length_cons]
    omega

theorem readMemory_absolute {code : List Byte} {pos : Nat} {p : Prefixes} {digit : Byte}
    {v : BitVec 32}
    (hat : CheckedRead.StandsAt code pos (makeModrm 0 digit 4 :: makeSib 1 4 5 :: leBytes 4 v)) :
    ∃ r, readMemory code pos p = ok (r, v) ∧ r.base = none ∧ r.index = none ∧
      r.isRipRelative = false ∧ r.cursor + r.dispSize = pos + 6 := by
  have hdisp : readDisp code (sibMemory p 0 (makeSib 1 4 5) (pos + 1)) = ok v :=
    CheckedRead.StandsAt.readLe hat.tail.tail (by decide)
  refine ⟨sibMemory p 0 (makeSib 1 4 5) (pos + 1), ?_, sibMemory_noBase rfl,
    sibMemory_index _ _ _ _ _ _, rfl, rfl⟩
  rw [readMemory_sib hat]
  show readDisp code (sibMemory p 0 (makeSib 1 4 5) (pos + 1)) >>= _ = _
  rw [hdisp, ok_bind]
  rfl

theorem memBytes_head (digit : Byte) {m : MemOperand} (hrip : m.isRipRelative = false) :
    ∃ mod rm tail, (mod &&& 3#8).toNat ≠ 3 ∧ memBytes digit m = makeModrm mod digit rm :: tail := by
  rw [memBytes, hrip]
  cases hbase : m.base with
  | none =>
      cases m.index with
      | none => exact ⟨0, 4, _, by decide, rfl⟩
      | some index =>
          obtain ⟨mod, tail, -, hform, hbytes⟩ := indexOnlyBytes_layout digit index hbase
          exact ⟨mod, 4, _, hform.mod_ne, hbytes⟩
  | some base =>
      cases m.index with
      | none =>
          obtain ⟨mod, tail, hform, -, hbytes⟩ := baseBytes_layout digit m base
          exact ⟨mod, _, _, hform.mod_ne, hbytes⟩
      | some index =>
          obtain ⟨mod, tail, hform, -, hbytes⟩ := indexedBytes_layout digit index hbase
          exact ⟨mod, 4, _, hform.mod_ne, hbytes⟩

section RoundTrip

variable {m : MemOperand} {w : Bool} {regOp : Option Operand} {digit : Byte}
  (hregs : ∀ r : Reg, m.base = some r ∨ m.index = some r → r.val < 16)
  (hrip : m.isRipRelative = false) (hscale : m.index.isSome = true → validScale m.scale = true)

include hregs hrip hscale

theorem readMemory_comesBack (hback : ComesBack m) {code : List Byte} {pos : Nat} {p : Prefixes}
    (hrex : p.rex = (rexByte w regOp (some (.mem m)) none).getD 0)
    (hat : CheckedRead.StandsAt code pos (memBytes digit m)) :
    ∃ r disp, ReadAs m r disp ∧ readMemory code pos p = ok (r, disp) ∧
      r.cursor + r.dispSize = pos + (memBytes digit m).length := by
  have hB := rexB_of_rexByte hrex
  have hX := rexX_of_rexByte hrex
  unfold ComesBack at hback
  rw [memBytes, hrip] at hat ⊢
  cases hbase : m.base with
  | none =>
      cases hindex : m.index with
      | none =>
          rw [hbase, hindex] at hat hback
          obtain ⟨r, hread, hb, hi, hplain, hlen⟩ := readMemory_absolute hat
          have hoffset : m.displacement = m.offset := by
            rw [MemOperand.offset]
            rcases hback with h | h
            · rw [if_pos h]
            · rw [h, ite_self]
          refine ⟨r, _, ⟨?_, ?_, fun h => ?_, hoffset, hplain⟩, hread, hlen⟩
          · rw [hb, hbase]
            rfl
          · rw [hi, hindex]
            rfl
          · rw [hindex] at h
            cases h
      | some index =>
          rw [hbase, hindex] at hback
          exact absurd hback id
  | some base =>
      rw [hbase] at hB
      cases hindex : m.index with
      | none =>
          rw [hbase, hindex] at hat hback
          obtain ⟨r, hread, hb, hi, hplain, hlen⟩ :=
            readMemory_baseOnly (hregs base (.inl hbase)) hB hat
          have hoffset : baseDisplacement m base = m.offset := by
            rw [baseDisplacement, MemOperand.offset]
            by_cases hfour : base.low = 4#8
            · rcases hback hfour with h | h
              · rw [h]
                rfl
              · rw [h, ite_self, ite_self]
            · rw [beq_false_of_ne hfour, Bool.or_false]
          refine ⟨r, _, ⟨?_, ?_, fun h => ?_, hoffset, hplain⟩, hread, hlen⟩
          · rw [hb, hbase]
            rfl
          · rw [hi, hindex]
            rfl
          · rw [hindex] at h
            cases h
      | some index =>
          rw [hindex] at hX
          rw [hbase, hindex] at hat hback
          obtain ⟨r, hread, hb, hi, hs, hplain, hlen⟩ :=
            readMemory_indexed (hregs base (.inl hbase)) (hregs index (.inr hindex)) hbase
              (hscale (by rw [hindex]; rfl)) hback hB hX hat
          refine ⟨r, _, ⟨?_, ?_, fun _ => hs, rfl, hplain⟩, hread, hlen⟩
          · rw [hb, hbase]
            rfl
          · rw [hi, hindex]
            rfl

omit hregs hscale in
theorem comesBack_of_read {code : List Byte} {pos : Nat} {p : Prefixes} {r : RmMemory}
    {disp : BitVec 32} (hat : CheckedRead.StandsAt code pos (memBytes digit m))
    (hread : readMemory code pos p = ok (r, disp)) (has : ReadAs m r disp) : ComesBack m := by
  have hbaseRead := has.base
  have hindexRead := has.index
  have hdisp := has.displacement
  rw [MemOperand.offset] at hdisp
  unfold ComesBack
  rw [memBytes, hrip] at hat
  cases hbase : m.base with
  | none =>
      cases hindex : m.index with
      | none =>
          rw [hbase, hindex] at hat
          obtain ⟨r', hread', -⟩ := readMemory_absolute hat
          rw [hread'] at hread
          cases hread
          show m.hasDisplacement = true ∨ m.displacement = 0
          by_cases h : m.hasDisplacement = true
          · exact .inl h
          · rw [if_neg h] at hdisp
            exact .inr hdisp
      | some index =>
          rw [hbase, hindex] at hat
          obtain ⟨mod, tail, hmod, hform, hbytes⟩ := indexOnlyBytes_layout digit index hbase
          have hat' : CheckedRead.StandsAt code pos
              (makeModrm mod digit 4 :: makeSib m.scale index.low 5 :: tail) := hbytes ▸ hat
          rw [readMemory_sibBase hat' hform fun h => absurd h hmod] at hread
          cases hread
          rw [sibMemory_base (fun h => absurd (hform.mod_zero.mp h) hmod), hbase] at hbaseRead
          cases hbaseRead
  | some base =>
      cases hindex : m.index with
      | none =>
          rw [hbase, hindex] at hat
          intro hfour
          obtain ⟨mod, tail, hform, -, hbytes⟩ := baseBytes_layout digit m base
          have hat' : CheckedRead.StandsAt code pos
              (makeModrm mod digit 4 :: makeSib 1 4 base.low :: tail) := by
            have hsib : baseSib base = [makeSib 1 4 base.low] := by
              rw [baseSib, hfour]
              rfl
            have hat'' : CheckedRead.StandsAt code pos (baseBytes digit m base) := hat
            rw [hbytes, hsib] at hat''
            rw [hfour] at hat'' ⊢
            exact hat''
          have hne : mod = 0 → (base.low &&& 7#8).toNat ≠ 5 := by
            intro _ h
            rw [hfour] at h
            cases h
          rw [readMemory_sibBase hat' hform hne] at hread
          cases hread
          rw [baseDisplacement, hfour] at hdisp
          by_cases h : m.hasDisplacement = true
          · exact .inl h
          · have hfalse : m.hasDisplacement = false := Bool.not_eq_true _ ▸ h
            rw [if_neg h, hfalse] at hdisp
            exact .inr hdisp
      | some index =>
          rw [hbase, hindex] at hat
          obtain ⟨mod, tail, hform, hzero, hbytes⟩ := indexedBytes_layout digit index hbase
          have hat' : CheckedRead.StandsAt code pos
              (makeModrm mod digit 4 :: makeSib m.scale index.low base.low :: tail) := hbytes ▸ hat
          rw [readMemory_sib hat', bind_eq_ok] at hread
          obtain ⟨d, -, hpure⟩ := hread
          cases hpure
          constructor
          · intro hfour
            rw [sibMemory_index, if_pos ((low_four index).mpr hfour), hindex] at hindexRead
            cases hindexRead
          · intro hfive
            by_contra hno
            have hmod : mod = 0 := hzero.mpr (Bool.not_eq_true _ ▸ hno)
            rw [hmod] at hbaseRead
            have hnone : (sibMemory p (0 &&& 3#8).toNat (makeSib m.scale index.low base.low)
                (pos + 1)).base = none := sibMemory_noBase ((low_five base).mpr hfive)
            rw [hnone, hbase] at hbaseRead
            cases hbaseRead

end RoundTrip

/-- `[base]` or `[base + displacement]` over the sixteen general registers. -/
structure BaseOnly (m : MemOperand) (base : Reg) : Prop where
  base_eq : m.base = some base
  general : base.val < 16
  index : m.index = none
  plain : m.isRipRelative = false
  displacement : m.hasDisplacement = false → m.displacement = 0

section BaseOnly

variable {m : MemOperand} {base : Reg} (h : BaseOnly m base)

include h

theorem BaseOnly.memBytes (digit : Byte) : memBytes digit m = baseBytes digit m base := by
  rw [Encoder.memBytes, h.plain, h.base_eq, h.index]
  rfl

theorem BaseOnly.emit (digit : Byte) :
    Encoder.emitModrmSib digit (.mem m) = Encoder.emitBaseOnly digit m base := by
  rw [Encoder.emitModrmSib, h.plain, h.base_eq, h.index]
  rfl

theorem BaseOnly.puts (digit : Byte) :
    Encoder.Puts (Encoder.emitModrmSib digit (.mem m)) (Encoder.modrmBytes digit (.mem m)) := by
  rw [h.emit]
  exact Encoder.puts_of_eq (Encoder.puts_emitBaseOnly digit m base) (h.memBytes digit).symm

theorem BaseOnly.displacement_eq : baseDisplacement m base = m.displacement ∧
    m.offset = m.displacement := by
  rw [baseDisplacement, MemOperand.offset]
  cases hdisp : m.hasDisplacement with
  | true => exact ⟨rfl, rfl⟩
  | false =>
      rw [h.displacement hdisp]
      exact ⟨ite_self _, rfl⟩

end BaseOnly

theorem validScale_of_ok {digit : Byte} {m : MemOperand} {env : EncodeEnv} {es : List Emission}
    (h : Encoder.emitModrmSib digit (.mem m) env = (es, .ok ())) (hindex : m.index.isSome = true) :
    validScale m.scale = true := by
  by_contra hbad
  have hfalse : validScale m.scale = false := Bool.not_eq_true _ ▸ hbad
  rw [Encoder.emitModrmSib, hindex, hfalse] at h
  cases h

/-- A memory operand with general registers that is accepted comes back through
`format_rm_operand`, and is not one with the index `rsp`, exactly when it is one of
`ComesBack`. -/
theorem emitModrmSib_decodesBack {m : MemOperand} {w : Bool} {regOp : Option Operand} {digit : Byte}
    {env env' : EncodeEnv} {rs es : List Emission}
    (hregs : ∀ r : Reg, m.base = some r ∨ m.index = some r → r.val < 16)
    (hrip : m.isRipRelative = false)
    (hrex : Encoder.emitRex w regOp (some (.mem m)) none env = (rs, .ok ()))
    (h : Encoder.emitModrmSib digit (.mem m) env' = (es, .ok ())) :
    (DecodesBack (bytesOf rs) m (bytesOf es) ∧ m.index ≠ some 4) ↔ ComesBack m := by
  have hbytes : bytesOf es = memBytes digit m := Encoder.Writes.bytes _ _ _ h
  have hhead : (bytesOf rs).headD 0 = (rexByte w regOp (some (.mem m)) none).getD 0 := by
    rw [Encoder.Writes.bytes _ _ _ hrex]
    cases rexByte w regOp (some (.mem m)) none <;> rfl
  have hscale := validScale_of_ok h
  rw [hbytes]
  constructor
  · rintro ⟨hback, -⟩
    obtain ⟨r, disp, has, hread, -⟩ :=
      hback [] [] { rex := (bytesOf rs).headD 0, cursor := 0 } rfl
    exact comesBack_of_read hrip (standsAt_append [] (memBytes digit m) []) hread has
  · intro hback
    refine ⟨?_, ?_⟩
    · intro pre rest p hp
      have hat := standsAt_append pre (memBytes digit m) rest
      obtain ⟨r, disp, has, hread, hlen⟩ :=
        readMemory_comesBack hregs hrip hscale hback (hp.trans hhead) hat
      obtain ⟨mod, rm, tail, hmod, hcons⟩ := memBytes_head digit hrip
      refine ⟨r, disp, has, hread, ?_⟩
      intro size
      rw [← hlen]
      refine @formatRmOperand_layout _ _ size p mod digit rm tail r disp ?_ hmod hread
      rw [← hcons]
      exact hat
    · intro hindex
      unfold ComesBack at hback
      rw [hindex] at hback
      cases hbase : m.base with
      | none =>
          rw [hbase] at hback
          exact hback
      | some base =>
          rw [hbase] at hback
          exact hback.1 rfl

/-- `[rbp + rax]` as the parser builds it. -/
def rbpPlusRax : MemOperand := { base := some 5, index := some 0 }

theorem emitModrmSib_decodesBack_rspR8 :
    (DecodesBack (bytesOf [.byte 0x4A#8]) { base := some 4, index := some 8, scale := 8 }
      (bytesOf [.byte 0x04#8, .byte 0xC4#8]) ∧
        (some (8 : Reg)) ≠ some 4) ↔ ComesBack { base := some 4, index := some 8, scale := 8 } := by
  apply @emitModrmSib_decodesBack { base := some 4, index := some 8, scale := 8 } true none 0
    ⟨0, true, fun _ => none⟩ ⟨0, true, fun _ => none⟩ [.byte 0x4A#8] [.byte 0x04#8, .byte 0xC4#8]
  · decide
  · rfl
  · rfl
  · rfl

/-- The bytes of `[rbp + rax]` have no base register for the reader. -/
theorem emitModrmSib_rbp_index :
    ∃ rs es, Encoder.emitRex true none (some (.mem rbpPlusRax)) none ⟨0, true, fun _ => none⟩ =
        (rs, .ok ()) ∧
      Encoder.emitModrmSib 0 (.mem rbpPlusRax) ⟨0, true, fun _ => none⟩ = (es, .ok ()) ∧
      ¬ DecodesBack (bytesOf rs) rbpPlusRax (bytesOf es) := by
  refine ⟨[.byte 0x48#8], [.byte 0x04#8, .byte 0x05#8], rfl, rfl, ?_⟩
  intro hback
  obtain ⟨r, disp, -, hread, -⟩ := hback [] [] { rex := 0x48, cursor := 0 } rfl
  have hnone : readMemory [0x04#8, 0x05#8] 0 { rex := 0x48, cursor := 0 } = .error := by rfl
  cases hnone.symm.trans hread

end X86Assembler
