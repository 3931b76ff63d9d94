import X86Assembler.DebugSections

namespace X86Assembler

open CString (Byte)
open Leb128
open Fill

variable {cap : Nat}

theorem toNat_lowSeven (v : BitVec 32) : ((v &&& 0x7F).setWidth 8).toNat = v.toNat % 128 := by
  have hand : (v &&& 0x7F).toNat = v.toNat % 128 := by
    rw [BitVec.toNat_and]
    exact Nat.and_two_pow_sub_one_eq_mod v.toNat 7
  rw [BitVec.toNat_setWidth, hand]
  omega

theorem toNat_or_more : ∀ b : Byte, b.toNat < 128 → (b ||| 0x80).toNat = b.toNat + 128 := by
  decide +kernel

theorem signBit_iff : ∀ b : Byte, b.toNat < 128 → (b &&& 0x40 ≠ 0 ↔ 64 ≤ b.toNat) := by
  decide +kernel

theorem lowSeven_eq_group (v : BitVec 32) : (v &&& 0x7F).setWidth 8 = group v.toNat false := by
  apply BitVec.eq_of_toNat_eq
  rw [toNat_lowSeven, toNat_group, if_neg Bool.false_ne_true, Nat.add_zero]

theorem lowSeven_or_eq_group (v : BitVec 32) :
    (v &&& 0x7F).setWidth 8 ||| 0x80 = group v.toNat true := by
  have hlow := toNat_lowSeven v
  apply BitVec.eq_of_toNat_eq
  rw [toNat_or_more _ (by omega), hlow, toNat_group, if_pos rfl]

theorem group_mod {n m : Nat} (h : n % 128 = m % 128) (more : Bool) : group n more = group m more := by
  rw [group, group, h]

theorem toNat_shiftSeven (v : BitVec 32) : (v >>> 7).toNat = v.toNat / 128 := by
  rw [BitVec.toNat_ushiftRight, Nat.shiftRight_eq_div_pow]

theorem uleb_last_iff (v : BitVec 32) : v >>> 7 = 0 ↔ v.toNat < 128 := by
  have hdiv := toNat_shiftSeven v
  rw [← BitVec.toNat_inj, hdiv]
  simp

theorem toNat_lowSeven_int (v : BitVec 32) : (v.toInt % 128).toNat = v.toNat % 128 := by
  rw [BitVec.toInt_eq_toNat_cond]
  split <;> omega

theorem group_toInt (v : BitVec 32) (more : Bool) :
    group (v.toInt % 128).toNat more = group v.toNat more := by
  apply group_mod
  rw [toNat_lowSeven_int]
  omega

theorem toInt_shiftSeven (v : BitVec 32) : (v.sshiftRight 7).toInt = v.toInt / 128 := by
  rw [BitVec.toInt_sshiftRight, Int.shiftRight_eq_div_pow]
  rfl

theorem sleb_last_iff (v : BitVec 32) :
    (v.sshiftRight 7 = 0 ∧ ¬((v &&& 0x7F).setWidth 8 &&& 0x40 ≠ (0 : Byte)) ∨
      v.sshiftRight 7 = -1 ∧ (v &&& 0x7F).setWidth 8 &&& 0x40 ≠ (0 : Byte)) ↔
        FitsGroup v.toInt := by
  have hlow := toNat_lowSeven v
  have hint := toNat_lowSeven_int v
  have hdiv := toInt_shiftSeven v
  have hzero : v.sshiftRight 7 = 0 ↔ v.toInt / 128 = 0 := by
    rw [← hdiv, ← BitVec.toInt_inj]
    rfl
  have hone : v.sshiftRight 7 = -1 ↔ v.toInt / 128 = -1 := by
    rw [← hdiv, ← BitVec.toInt_inj]
    rfl
  rw [signBit_iff _ (by omega), hzero, hone, hlow, FitsGroup]
  omega

theorem ulebRounds_eq {n : Nat} {v : BitVec 32} (h : v.toNat < 128 ^ (n + 1)) :
    (ulebRounds (n + 1) v : Fill cap Unit) = append (uleb v.toNat) := by
  induction n generalizing v with
  | zero =>
      have hlt : v.toNat < 128 := by omega
      rw [ulebRounds, uleb, if_pos hlt, if_neg (not_not.mpr ((uleb_last_iff v).mpr hlt)),
        lowSeven_eq_group]
      rfl
  | succ n ih =>
      rw [ulebRounds, uleb]
      by_cases hlt : v.toNat < 128
      · rw [if_pos hlt, if_neg (not_not.mpr ((uleb_last_iff v).mpr hlt)), lowSeven_eq_group]
        rfl
      · have hrest : (v >>> 7).toNat < 128 ^ (n + 1) := by
          rw [toNat_shiftSeven]
          rw [Nat.pow_succ] at h
          omega
        rw [if_neg hlt, if_pos fun hzero => hlt ((uleb_last_iff v).mp hzero), ih hrest,
          lowSeven_or_eq_group, toNat_shiftSeven]
        exact append_bind_append [_] _

theorem appendUleb128Checked_eq (v : BitVec 32) :
    (appendUleb128Checked v : Fill cap Unit) = append (uleb v.toNat) := by
  apply ulebRounds_eq
  have hlt := v.isLt
  omega

theorem slebRounds_eq {n : Nat} {v : BitVec 32} (hlo : -(64 * 128 ^ n) ≤ v.toInt)
    (hhi : v.toInt < 64 * 128 ^ n) :
    (slebRounds (n + 1) v : Fill cap Unit) = append (sleb v.toInt) := by
  induction n generalizing v with
  | zero =>
      have hfits : FitsGroup v.toInt := ⟨by omega, by omega⟩
      rw [slebRounds, sleb, if_pos hfits, if_pos ((sleb_last_iff v).mpr hfits), group_toInt,
        lowSeven_eq_group]
      rfl
  | succ n ih =>
      rw [slebRounds, sleb]
      by_cases hfits : FitsGroup v.toInt
      · rw [if_pos hfits, if_pos ((sleb_last_iff v).mpr hfits), group_toInt, lowSeven_eq_group]
        rfl
      · have hdiv := toInt_shiftSeven v
        rw [Int.pow_succ] at hlo hhi
        have hrest := @ih (v.sshiftRight 7) (by rw [hdiv]; omega) (by rw [hdiv]; omega)
        rw [if_neg hfits, if_neg fun h => hfits ((sleb_last_iff v).mp h), group_toInt, hrest,
          lowSeven_or_eq_group, hdiv]
        exact append_bind_append [_] _

theorem appendSleb128Checked_eq (v : BitVec 32) :
    (appendSleb128Checked v : Fill cap Unit) = append (sleb v.toInt) := by
  have hlo := @BitVec.le_toInt 32 v
  have hhi := @BitVec.toInt_lt 32 v
  apply slebRounds_eq
  · omega
  · omega

theorem yields_uleb (v : BitVec 32) (bs : List Byte) :
    Yields (appendUleb128Checked v : Fill cap Unit) bs (bs ++ uleb v.toNat) () := by
  rw [appendUleb128Checked_eq]
  exact yields_append _ _

theorem yields_sleb (v : BitVec 32) (bs : List Byte) :
    Yields (appendSleb128Checked v : Fill cap Unit) bs (bs ++ sleb v.toInt) () := by
  rw [appendSleb128Checked_eq]
  exact yields_append _ _

end X86Assembler
