import Mathlib.Algebra.Group.Int.Defs
import X86Assembler.Library.CString

namespace X86Assembler.Leb128

open CString (Byte)

/-- The low seven bits, with the bit that says whether another byte follows. -/
def group (n : Nat) (more : Bool) : Byte := BitVec.ofNat 8 (n % 128 + if more then 128 else 0)

def uleb (n : Nat) : List Byte :=
  if n < 128 then [group n false] else group n true :: uleb (n / 128)
termination_by n
decreasing_by omega

theorem uleb_of_lt {n : Nat} (h : n < 128) : uleb n = [group n false] := by
  rw [uleb, if_pos h]

theorem uleb_ne_nil (n : Nat) : uleb n ≠ [] := by
  rw [uleb]
  split <;> exact List.cons_ne_nil _ _

theorem length_uleb_le {n k : Nat} (h : k < 128 ^ (n + 1)) : (uleb k).length ≤ n + 1 := by
  induction n generalizing k with
  | zero =>
      rw [uleb_of_lt (by omega)]
      exact Nat.le_refl 1
  | succ n ih =>
      rw [uleb]
      by_cases hlt : k < 128
      · rw [if_pos hlt, List.length_singleton]
        omega
      · rw [Nat.pow_succ] at h
        have hrest := @ih (k / 128) (by omega)
        rw [if_neg hlt, List.length_cons]
        omega

/-- An unsigned number at the start of a text, and what follows it. -/
def readUleb : List Byte → Option (Nat × List Byte)
  | [] => none
  | b :: bs =>
    if b.toNat < 128 then some (b.toNat, bs)
    else (readUleb bs).map fun p => (b.toNat - 128 + 128 * p.1, p.2)

theorem toNat_group (n : Nat) (more : Bool) :
    (group n more).toNat = n % 128 + if more then 128 else 0 := by
  rw [group, BitVec.toNat_ofNat]
  cases more <;> simp <;> omega

theorem readUleb_uleb (n : Nat) (rest : List Byte) : readUleb (uleb n ++ rest) = some (n, rest) := by
  induction n using Nat.strongRecOn with
  | ind n ih =>
      rw [uleb]
      by_cases h : n < 128
      · have hb : (group n false).toNat = n := by
          rw [toNat_group, if_neg Bool.false_ne_true]
          omega
        rw [if_pos h, List.singleton_append, readUleb, hb, if_pos h]
      · have hb : (group n true).toNat = n % 128 + 128 := by rw [toNat_group, if_pos rfl]
        rw [if_neg h, List.cons_append, readUleb, hb, if_neg (by omega), ih (n / 128) (by omega),
          Option.map_some]
        have hsum : n % 128 + 128 - 128 + 128 * (n / 128) = n := by omega
        rw [hsum]

def FitsGroup (z : Int) : Prop := -64 ≤ z ∧ z < 64

instance (z : Int) : Decidable (FitsGroup z) := inferInstanceAs (Decidable (_ ∧ _))

def sleb (z : Int) : List Byte :=
  if FitsGroup z then [group (z % 128).toNat false]
  else group (z % 128).toNat true :: sleb (z / 128)
termination_by z.natAbs
decreasing_by
  rename_i h
  rw [FitsGroup] at h
  omega

theorem sleb_ne_nil (z : Int) : sleb z ≠ [] := by
  rw [sleb]
  split <;> exact List.cons_ne_nil _ _

theorem length_sleb_le {n : Nat} {z : Int} (hlo : -(64 * 128 ^ n) ≤ z) (hhi : z < 64 * 128 ^ n) :
    (sleb z).length ≤ n + 1 := by
  induction n generalizing z with
  | zero =>
      have hfits : FitsGroup z := ⟨by omega, by omega⟩
      rw [sleb, if_pos hfits]
      exact Nat.le_refl 1
  | succ n ih =>
      rw [sleb]
      by_cases hfits : FitsGroup z
      · rw [if_pos hfits, List.length_singleton]
        omega
      · rw [Int.pow_succ] at hlo hhi
        have hrest := @ih (z / 128) (by omega) (by omega)
        rw [if_neg hfits, List.length_cons]
        omega

def readSleb : List Byte → Option (Int × List Byte)
  | [] => none
  | b :: bs =>
    if b.toNat < 64 then some (b.toNat, bs)
    else if b.toNat < 128 then some ((b.toNat : Int) - 128, bs)
    else (readSleb bs).map fun p => (b.toNat - 128 + 128 * p.1, p.2)

theorem readSleb_sleb (z : Int) (rest : List Byte) : readSleb (sleb z ++ rest) = some (z, rest) := by
  induction hn : z.natAbs using Nat.strongRecOn generalizing z with
  | ind n ih =>
      rw [sleb]
      have hmod : ((z % 128).toNat : Int) = z % 128 := Int.toNat_of_nonneg (by omega)
      have hlt : (z % 128).toNat < 128 := by omega
      by_cases h : FitsGroup z
      · have hb : (group (z % 128).toNat false).toNat = (z % 128).toNat := by
          rw [toNat_group, Nat.mod_eq_of_lt hlt, if_neg Bool.false_ne_true, Nat.add_zero]
        rw [if_pos h, List.singleton_append, readSleb, hb]
        rw [FitsGroup] at h
        by_cases hneg : z < 0
        · rw [if_neg (by omega), if_pos hlt, hmod]
          have hz : z % 128 - 128 = z := by omega
          rw [hz]
        · rw [if_pos (by omega), hmod]
          have hz : z % 128 = z := by omega
          rw [hz]
      · have hb : (group (z % 128).toNat true).toNat = (z % 128).toNat + 128 := by
          rw [toNat_group, Nat.mod_eq_of_lt hlt, if_pos rfl]
        rw [if_neg h, List.cons_append, readSleb, hb, if_neg (by omega), if_neg (by omega)]
        rw [FitsGroup] at h
        rw [ih (z / 128).natAbs (by omega) (z / 128) rfl, Option.map_some]
        have hz : ((z % 128).toNat + 128 : Nat) - (128 : Int) + 128 * (z / 128) = z := by omega
        rw [hz]

end X86Assembler.Leb128
