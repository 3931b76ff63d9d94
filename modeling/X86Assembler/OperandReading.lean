import X86Assembler.Library.InstructionStream
import X86Assembler.SseMoves

namespace X86Assembler

open CString (Byte)
open Encoder (rexByte modrmBytes memBytes)
open MachineCode

/-- A written operand as an operand of `w` bits, memory by its whole address. -/
def argIn (w : Nat) : Operand → Option Arg
  | .mem m => (addressOf m).map (.mem w)
  | op => argOf w op

/-- The operands that `emit_modrm_sib` accepts. -/
inductive Accepted : Operand → Prop
  | reg (r : Reg) (size : RegSize) : Accepted (.reg r size)
  | mem (m : MemOperand) : Addressable m → Accepted (.mem m)

/-- The operands of the `rm` field that are read as written: general registers of the width that is
read, and memory whose address can be encoded. -/
def RmFits (w : Nat) : Operand → Prop
  | .reg r size => r.val < 16 ∧ widthBits size = w
  | .mem m => AddressFits m
  | _ => False

instance (w : Nat) (op : Operand) : Decidable (RmFits w op) :=
  match op with
  | .reg r size => inferInstanceAs (Decidable (r.val < 16 ∧ widthBits size = w))
  | .mem m => inferInstanceAs (Decidable (AddressFits m))
  | .none | .imm _ | .label _ | .labelDiff _ _ | .string _ => isFalse id

/-- The bits of the REX prefix that belong to the `rm` operand. -/
structure RexFor (rex : Option Byte) (op : Operand) : Prop where
  b : rexBit rex 0 = if extendedReg (some op) || extendedBase (some op) then 8 else 0
  x : rexBit rex 1 = if extendedIndex (some op) then 8 else 0

theorem rexFor_rexByte (w : Bool) (regOp : Option Operand) (op : Operand) :
    RexFor (rexByte w regOp (some op) none) op :=
  ⟨rexBit_rm w regOp (some op), rexBit_index w regOp (some op)⟩

theorem digitOf_accepted {digit : Byte} {op : Operand} (hop : Accepted op) (rest : List Byte) :
    digitOf (modrmBytes digit op ++ rest) = (digit &&& 7#8).toNat := by
  have hfirst : ∃ mod rm tail, modrmBytes digit op = makeModrm mod digit rm :: tail := by
    cases hop with
    | reg r size => exact ⟨3, r.low, [], rfl⟩
    | mem m hm => exact memBytes_first digit m
  obtain ⟨mod, rm, tail, hcons⟩ := hfirst
  have hreg := makeModrm_reg mod digit rm
  rw [digitOf, hcons, List.cons_append, List.headD_cons, hreg]

section Memory

variable {rex : Option Byte} {digit : Byte} {m : MemOperand}

/-- An index register with a base register that needs a displacement, and none is written. -/
def CutShort (m : MemOperand) : Prop :=
  ∃ base index, m.base = some base ∧ m.index = some index ∧ m.isRipRelative = false ∧
    base.low = 5#8 ∧ m.hasDisplacement = false

theorem CutShort.not_fits (h : CutShort m) : ¬ AddressFits m := by
  obtain ⟨base, index, hbase, hindex, -, hlow, hdisp⟩ := h
  rintro ⟨-, hfits⟩
  rw [hbase, hindex] at hfits
  have hno := hfits.2 hlow
  rw [hdisp] at hno
  cases hno

theorem readModRm_cutShort (h : CutShort m) (tail : List Byte) : ∃ found,
    readModRm rex (memBytes digit m ++ tail) =
      if 4 ≤ tail.length then some (found, tail.drop 4) else none := by
  obtain ⟨base, index, hbase, hindex, hrip, hlow, hdisp⟩ := h
  obtain ⟨mod, disp, hform, hzero, hlayout⟩ := indexedBytes_layout digit index hbase
  have hbytes : memBytes digit m = Encoder.indexedBytes digit m index := by
    rw [memBytes, hrip, hbase, hindex]
    rfl
  have hmod := hzero.mpr hdisp
  subst hmod
  rw [hbytes, hlayout, nil_of_zero hform rfl]
  have hfive : makeSib m.scale index.low base.low &&& 7 = 5 := by
    have hbase := makeModrm_rm (scaleBits m.scale) index.low base.low
    rw [hlow] at hbase ⊢
    rw [makeSib_eq]
    exact hbase
  have hlength : dispLength 0 (decide ((0 : Byte) = 0) &&
      decide (makeSib m.scale index.low base.low &&& 7 = 5)) = 4 := by
    rw [decide_eq_true hfive]
    rfl
  show ∃ found, readModRm rex (makeModrm 0 digit 4 :: makeSib m.scale index.low base.low :: tail) = _
  rw [readModRm_bySib rfl (by decide) (by decide), MachineCode.readSib, hlength, readSigned]
  by_cases hlong : 4 ≤ tail.length
  · simp only [if_pos hlong]
    exact ⟨_, rfl⟩
  · simp only [if_neg hlong]
    exact ⟨⟨0, .register 0⟩, rfl⟩

theorem readModRm_memBytes (hm : Addressable m) (hrex : RexFor rex (.mem m)) :
    CutShort m ∨ ∃ a, readModRm rex (memBytes digit m) =
      some (⟨(digit &&& 7#8).toNat, .memory a⟩, []) := by
  have hx := hrex.x
  cases hrip : m.isRipRelative with
  | true =>
      have hread := @readModRm_rip rex digit m.displacement
      rw [memBytes, if_pos hrip]
      exact .inr ⟨_, hread⟩
  | false =>
      cases hindex : m.index with
      | none =>
          rw [extendedIndex, hindex] at hx
          cases hbase : m.base with
          | none =>
              have hread := @readModRm_absolute rex digit hx m.displacement
              rw [memBytes, hrip, hbase, hindex]
              exact .inr ⟨_, hread⟩
          | some base =>
              have hread := @readModRm_baseBytes rex digit m base hx []
              rw [List.append_nil] at hread
              rw [memBytes, hrip, hbase, hindex]
              exact .inr ⟨_, hread⟩
      | some index =>
          have hscale := hm.scale (by rw [hindex]; rfl)
          have hbytes : memBytes digit m = Encoder.indexedBytes digit m index := by
            rw [memBytes, hrip, hindex]
            cases m.base <;> rfl
          cases hbase : m.base with
          | none =>
              obtain ⟨mod, tail, hmod, hform, hlayout⟩ := indexOnlyBytes_layout digit index hbase
              have hread := @readModRm_sib rex mod digit index.low 5 m.scale _ tail hform hscale
                (fun h => absurd h hmod) []
              rw [List.append_nil, ← hlayout, ← hbytes] at hread
              exact .inr ⟨_, hread⟩
          | some base =>
              obtain ⟨mod, tail, hform, hzero, hlayout⟩ := indexedBytes_layout digit index hbase
              by_cases hcut : mod = 0 ∧ base.low = 5#8
              · exact .inl ⟨base, index, hbase, hindex, hrip, hcut.2, hzero.mp hcut.1⟩
              · have hfive : mod = 0 → base.low &&& 7 ≠ 5 := by
                  intro hmod hlow
                  exact hcut ⟨hmod, (low_and base).symm.trans hlow⟩
                have hread := @readModRm_sib rex mod digit index.low base.low m.scale _ tail hform
                  hscale hfive []
                rw [List.append_nil, ← hlayout, ← hbytes] at hread
                exact .inr ⟨_, hread⟩

end Memory

/-- The field is the written operand exactly where it fits; a byte register is left out. -/
def ReadAsField (rex : Option Byte) (op : Operand) (field : RmField) : Prop :=
  ∀ w u, (u ≠ 8 ∨ ∃ m, op = .mem m) → (argIn w op = some (rmArg rex u field) ↔ w = u ∧ RmFits u op)

theorem readAsField_reg {rex : Option Byte} {r : Reg} {size : RegSize}
    (hrex : RexFor rex (.reg r size)) : ReadAsField rex (.reg r size)
      (.register (rexBit rex 0 + (r.low &&& 7#8).toNat)) := by
  intro w u hu
  have hne : u ≠ 8 := by
    rcases hu with hu | ⟨m, hm⟩
    · exact hu
    · cases hm
  have hb : rexBit rex 0 = if r.isExtended then 8 else 0 := by
    rw [hrex.b]
    show (if r.isExtended || false then 8 else 0) = _
    rw [Bool.or_false]
  rw [argIn, rmArg, regArg_wide hne, argOf_reg_wide hne, RmFits, hb]
  constructor
  · rintro ⟨hw, -, hr, hsize⟩
    exact ⟨hw, hr, hsize⟩
  · rintro ⟨hw, hr, hsize⟩
    exact ⟨hw, low_number hr, hr, hsize⟩
  · rintro m ⟨⟩

theorem readAsField_mem {rex : Option Byte} {digit : Byte} {m : MemOperand} {a : Address}
    (hm : Addressable m) (hrex : RexFor rex (.mem m))
    (hread : readModRm rex (memBytes digit m) = some (⟨(digit &&& 7#8).toNat, .memory a⟩, [])) :
    ReadAsField rex (.mem m) (.memory a) := by
  intro w u _
  have hfits := (readsAddress_iff hread).symm.trans (readsAddress_fits hm hrex.b hrex.x)
  rw [argIn, rmArg, RmFits, ← hfits]
  constructor
  · intro h
    obtain ⟨a', ha, heq⟩ := Option.map_eq_some_iff.mp h
    cases heq
    exact ⟨rfl, ha⟩
  · rintro ⟨rfl, ha⟩
    rw [ha]
    rfl

/-- An accepted operand of the `rm` field: what is read is a field that is the operand where it
fits, or it does not fit and takes in four bytes more. -/
theorem readModRm_accepted {rex : Option Byte} {op : Operand} (digit : Byte) (hop : Accepted op)
    (hrex : RexFor rex op) :
    (∃ field, ReadAsField rex op field ∧ ∀ tail, readModRm rex (modrmBytes digit op ++ tail) =
      some (⟨(digit &&& 7#8).toNat, field⟩, tail)) ∨
    (∀ u, ¬ RmFits u op) ∧ ∀ tail : List Byte, ∃ found,
      readModRm rex (modrmBytes digit op ++ tail) =
        if 4 ≤ tail.length then some (found, tail.drop 4) else none := by
  cases hop with
  | reg r size =>
      have hx : rexBit rex 1 = 0 := hrex.x
      exact .inl ⟨_, readAsField_reg hrex, readModRm_modrmBytes (.reg r size) hx⟩
  | mem m hm =>
      rcases @readModRm_memBytes rex digit m hm hrex with hcut | ⟨a, hread⟩
      · exact .inr ⟨fun _ => hcut.not_fits, readModRm_cutShort hcut⟩
      · refine .inl ⟨.memory a, readAsField_mem hm hrex hread, fun tail => ?_⟩
        exact continues_readModRm rex _ _ _ tail hread

theorem readRm_accepted {rex : Option Byte} {op : Operand} (digit : Byte) (hop : Accepted op)
    (hrex : RexFor rex op) :
    (∃ field, ReadAsField rex op field ∧
      ∀ (args : ModRm → List Arg) (next : List Byte → Option (List Arg × List Byte))
        (tail : List Byte) (more : List Arg), next tail = some (more, []) →
          readRm rex (modrmBytes digit op ++ tail) args next =
            some (args ⟨(digit &&& 7#8).toNat, field⟩ ++ more, [])) ∨
    (∀ u, ¬ RmFits u op) ∧ ∀ (args : ModRm → List Arg)
      (next : List Byte → Option (List Arg × List Byte)) (tail : List Byte),
        tail.length < 4 ∨ next (tail.drop 4) = none →
          readRm rex (modrmBytes digit op ++ tail) args next = none := by
  rcases readModRm_accepted digit hop hrex with ⟨field, hfield, hread⟩ | ⟨hno, hread⟩
  · refine .inl ⟨field, hfield, fun args next tail more hnext => ?_⟩
    exact readRm_of (hread tail) hnext
  · refine .inr ⟨hno, fun args next tail htail => ?_⟩
    obtain ⟨found, hfound⟩ := hread tail
    rw [readRm, hfound]
    split
    · next hlong =>
        have hnone := htail.resolve_left (Nat.not_lt.mpr hlong)
        show (next (tail.drop 4)).bind _ = none
        rw [hnone]
        rfl
    · rfl

end X86Assembler
