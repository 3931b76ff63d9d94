import Mathlib.Data.Nat.ModEq

namespace X86Assembler.Alignment

variable {w k : Nat} {a n : BitVec w}

/-- The next multiple of `n`, as bit arithmetic computes it. -/
def roundUp (a n : BitVec w) : BitVec w := (a + n - 1) &&& ~~~(n - 1)

theorem and_not_eq_sub (x m : BitVec w) : x &&& ~~~m = x - (x &&& m) := by
  have hdisjoint : (x &&& m) &&& (x &&& ~~~m) = 0 := by
    ext i hi
    cases hx : x[i] <;> simp [hx]
  have hsum : (x &&& m) + (x &&& ~~~m) = x := by
    rw [BitVec.add_eq_or_of_and_eq_zero _ _ hdisjoint]
    ext i hi
    cases hx : x[i] <;> simp [hx]
  rw [BitVec.eq_sub_iff_add_eq, BitVec.add_comm]
  exact hsum

theorem exponent_lt (hn : n.toNat = 2 ^ k) : k < w :=
  (Nat.pow_lt_pow_iff_right (by decide)).mp (hn ▸ n.isLt)

theorem toNat_sub_one (hn : n.toNat = 2 ^ k) : (n - 1).toNat = 2 ^ k - 1 := by
  have hk := exponent_lt hn
  have hpos : 0 < 2 ^ k := Nat.two_pow_pos k
  have hone : (1 : BitVec w).toNat = 1 := by
    rw [BitVec.ofNat_eq_ofNat, BitVec.toNat_ofNat]
    exact Nat.mod_eq_of_lt (Nat.one_lt_two_pow (by omega))
  rw [BitVec.toNat_sub_of_le (by rw [BitVec.le_def, hone, hn]; exact hpos), hn, hone]

theorem toNat_low (x : BitVec w) (hn : n.toNat = 2 ^ k) :
    (x &&& (n - 1)).toNat = x.toNat % 2 ^ k := by
  rw [BitVec.toNat_and, toNat_sub_one hn, Nat.and_two_pow_sub_one_eq_mod]

theorem toNat_high (x : BitVec w) (hn : n.toNat = 2 ^ k) :
    (x &&& ~~~(n - 1)).toNat = x.toNat - x.toNat % 2 ^ k := by
  have hle : x &&& (n - 1) ≤ x := by
    rw [BitVec.le_def, toNat_low x hn]
    exact Nat.mod_le _ _
  rw [and_not_eq_sub, BitVec.toNat_sub_of_le hle, toNat_low x hn]

theorem toNat_add_mod (hk : k ≤ w) (a b : BitVec w) :
    (a + b).toNat % 2 ^ k = (a.toNat + b.toNat) % 2 ^ k := by
  rw [BitVec.toNat_add, Nat.mod_mod_of_dvd _ (Nat.pow_dvd_pow 2 hk)]

theorem dvd_roundUp (a : BitVec w) (hn : n.toNat = 2 ^ k) : n.toNat ∣ (roundUp a n).toNat := by
  rw [roundUp, toNat_high _ hn, hn]
  exact Nat.dvd_sub_mod _

theorem roundUp_sub (a n : BitVec w) :
    roundUp a n - a = (n - 1) - ((a + (n - 1)) &&& (n - 1)) := by
  have hsum : a + n - 1 = a + (n - 1) := by
    rw [BitVec.sub_eq_add_neg, BitVec.sub_eq_add_neg, BitVec.add_assoc]
  have hround : roundUp a n = a + (n - 1) - ((a + (n - 1)) &&& (n - 1)) := by
    rw [roundUp, hsum, and_not_eq_sub]
  rw [hround, BitVec.sub_eq_iff_eq_add, BitVec.sub_eq_add_neg (n - 1), BitVec.sub_eq_add_neg (a + _)]
  ac_rfl

theorem roundUp_sub_lt (a : BitVec w) (hn : n.toNat = 2 ^ k) :
    (roundUp a n - a).toNat < n.toNat := by
  have hle : (a + (n - 1)) &&& (n - 1) ≤ n - 1 := by
    rw [BitVec.le_def, toNat_low _ hn, toNat_sub_one hn]
    exact Nat.le_sub_one_of_lt (Nat.mod_lt _ (Nat.two_pow_pos k))
  have hpos : 0 < 2 ^ k := Nat.two_pow_pos k
  rw [roundUp_sub, BitVec.toNat_sub_of_le hle, toNat_sub_one hn, hn]
  omega

theorem dvd_add_iff (a : BitVec w) (hn : n.toNat = 2 ^ k) {j : Nat} (hj : j < n.toNat) :
    n.toNat ∣ (a + BitVec.ofNat w j).toNat ↔ j = (roundUp a n - a).toNat := by
  have hk := exponent_lt hn
  have hup : a + (roundUp a n - a) = roundUp a n := by
    rw [BitVec.add_comm, BitVec.sub_add_cancel]
  have hzero : (a.toNat + (roundUp a n - a).toNat) % 2 ^ k = 0 := by
    rw [← toNat_add_mod (Nat.le_of_lt hk), hup]
    exact Nat.mod_eq_zero_of_dvd (hn ▸ dvd_roundUp a hn)
  have hlt : (roundUp a n - a).toNat < 2 ^ k := hn ▸ roundUp_sub_lt a hn
  have hword : (BitVec.ofNat w j).toNat = j := by
    rw [BitVec.toNat_ofNat]
    exact Nat.mod_eq_of_lt (Nat.lt_trans hj n.isLt)
  rw [hn] at hj ⊢
  rw [Nat.dvd_iff_mod_eq_zero, toNat_add_mod (Nat.le_of_lt hk), hword]
  constructor
  · intro h
    have hsame : j ≡ (roundUp a n - a).toNat [MOD 2 ^ k] :=
      Nat.ModEq.add_left_cancel' a.toNat (h.trans hzero.symm)
    exact hsame.eq_of_lt_of_lt hj hlt
  · rintro rfl
    exact hzero

theorem and_sub_one_eq_zero_iff (hn : n ≠ 0) : n &&& (n - 1) = 0 ↔ ∃ k, n.toNat = 2 ^ k := by
  have hne : n.toNat ≠ 0 := fun h => hn (BitVec.eq_of_toNat_eq (by rw [h]; simp))
  have hsub : (n - 1).toNat = n.toNat - 1 := by
    have hone : (1 : BitVec w).toNat ≤ 1 := by
      rw [BitVec.ofNat_eq_ofNat, BitVec.toNat_ofNat]
      exact Nat.mod_le _ _
    have hle : (1 : BitVec w) ≤ n := by
      rw [BitVec.le_def]
      omega
    have hw : 0 < w := by
      apply Nat.pos_of_ne_zero
      rintro rfl
      exact hne (BitVec.toNat_of_zero_length rfl n)
    rw [BitVec.toNat_sub_of_le hle, BitVec.ofNat_eq_ofNat, BitVec.toNat_ofNat,
      Nat.mod_eq_of_lt (Nat.one_lt_two_pow (by omega))]
  have htest := Nat.and_sub_one_eq_zero_iff_isPowerOfTwo hne
  rw [← hsub, ← BitVec.toNat_and] at htest
  have hzero : (0 : BitVec w).toNat = 0 := BitVec.toNat_zero
  rw [BitVec.toNat_eq, hzero]
  exact htest

end X86Assembler.Alignment
