import Mathlib.Algebra.Order.Ring.Nat
import Mathlib.Data.List.Induction
import Mathlib.Tactic.Ring

namespace X86Assembler

namespace Digits

variable {α : Type} (digit : α → Nat) (base : Nat)

/-- The number that a text of digits writes, the first digit being the highest. -/
def value (ds : List α) : Nat := ds.foldl (fun acc d => acc * base + digit d) 0

theorem value_nil : value digit base [] = 0 := rfl

theorem value_concat (ds : List α) (d : α) :
    value digit base (ds ++ [d]) = value digit base ds * base + digit d := by
  rw [value, List.foldl_append]
  rfl

theorem value_append (ds es : List α) : value digit base (ds ++ es) =
    value digit base ds * base ^ es.length + value digit base es := by
  induction es using List.reverseRecOn with
  | nil => simp [value_nil]
  | append_singleton es e ih =>
      rw [← List.append_assoc, value_concat, ih, value_concat, List.length_append,
        List.length_singleton, pow_succ]
      ring

theorem value_take_le (hbase : 1 ≤ base) (n : Nat) (ds : List α) :
    value digit base (ds.take n) ≤ value digit base ds := by
  have happend := value_append digit base (ds.take n) (ds.drop n)
  rw [List.take_append_drop] at happend
  have hmul := Nat.le_mul_of_pos_right (value digit base (ds.take n))
    (Nat.pow_pos hbase : 0 < base ^ (ds.drop n).length)
  omega

theorem value_take_lt (hbase : 2 ≤ base) {n : Nat} {ds : List α} (hn : n < ds.length)
    (hne : value digit base ds ≠ 0) : value digit base (ds.take n) < value digit base ds := by
  have happend := value_append digit base (ds.take n) (ds.drop n)
  rw [List.take_append_drop, List.length_drop] at happend
  by_cases hzero : value digit base (ds.take n) = 0
  · rw [hzero]
    exact Nat.pos_of_ne_zero hne
  · have hpow : 2 ≤ base ^ (ds.length - n) := by
      calc 2 ≤ base := hbase
        _ = base ^ 1 := (pow_one base).symm
        _ ≤ base ^ (ds.length - n) := Nat.pow_le_pow_right (by omega) (by omega)
    have hmul := Nat.mul_le_mul_left (value digit base (ds.take n)) hpow
    omega

end Digits

end X86Assembler
