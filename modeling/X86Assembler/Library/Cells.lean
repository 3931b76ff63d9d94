import Mathlib.Logic.Function.Basic
import X86Assembler.Library.CString

namespace X86Assembler

open CString (Byte)

/-- The memory from the start of an array on, past its end too, with the place to write next. -/
structure Cells where
  bytes : Nat → Byte
  len : Nat

namespace Cells

def between (m : Cells) (start stop : Nat) : List Byte :=
  (List.range' start (stop - start)).map m.bytes

/-- `buf[len++] = b`. -/
def put (m : Cells) (b : Byte) : Cells := ⟨Function.update m.bytes m.len b, m.len + 1⟩

def putAll (m : Cells) (bs : List Byte) : Cells := bs.foldl put m

@[simp] theorem put_len (m : Cells) (b : Byte) : (m.put b).len = m.len + 1 := rfl

theorem put_bytes (m : Cells) (b : Byte) {i : Nat} (h : i ≠ m.len) :
    (m.put b).bytes i = m.bytes i := by
  rw [put]
  exact Function.update_of_ne h b m.bytes

@[simp] theorem putAll_cons (m : Cells) (b : Byte) (bs : List Byte) :
    m.putAll (b :: bs) = (m.put b).putAll bs := rfl

theorem putAll_append (m : Cells) (bs bs' : List Byte) :
    m.putAll (bs ++ bs') = (m.putAll bs).putAll bs' :=
  List.foldl_append

@[simp] theorem putAll_len (m : Cells) (bs : List Byte) : (m.putAll bs).len = m.len + bs.length := by
  induction bs generalizing m with
  | nil => rfl
  | cons b bs ih =>
      rw [putAll_cons, ih, put_len, List.length_cons]
      omega

theorem putAll_bytes (m : Cells) (bs : List Byte) {i : Nat}
    (h : i < m.len ∨ m.len + bs.length ≤ i) : (m.putAll bs).bytes i = m.bytes i := by
  induction bs generalizing m with
  | nil => rfl
  | cons b bs ih =>
      rw [List.length_cons] at h
      have hrest : i < (m.put b).len ∨ (m.put b).len + bs.length ≤ i := by
        rw [put_len]
        omega
      rw [putAll_cons, ih (m.put b) hrest]
      exact put_bytes m b (by omega)

theorem between_self (m : Cells) (i : Nat) : m.between i i = [] := by
  rw [between, Nat.sub_self]
  rfl

theorem between_succ {m : Cells} {start stop : Nat} (h : start < stop) :
    m.between start stop = m.bytes start :: m.between (start + 1) stop := by
  obtain ⟨n, rfl⟩ : ∃ n, stop = start + (n + 1) := ⟨stop - start - 1, by omega⟩
  have hn : start + (n + 1) - (start + 1) = n := by omega
  rw [between, between, Nat.add_sub_cancel_left, hn]
  rfl

theorem between_append (m : Cells) {start mid stop : Nat} (h : start ≤ mid) (h' : mid ≤ stop) :
    m.between start stop = m.between start mid ++ m.between mid stop := by
  obtain ⟨n, rfl⟩ := Nat.exists_eq_add_of_le h
  obtain ⟨k, rfl⟩ := Nat.exists_eq_add_of_le h'
  rw [between, between, between, Nat.add_sub_cancel_left, Nat.add_sub_cancel_left,
    Nat.add_assoc, Nat.add_sub_cancel_left, ← List.map_append, List.range'_append_1]

theorem between_congr {m m' : Cells} {start stop : Nat}
    (h : ∀ i, start ≤ i → i < stop → m.bytes i = m'.bytes i) :
    m.between start stop = m'.between start stop := by
  apply List.map_congr_left
  intro i hi
  rw [List.mem_range'_1] at hi
  exact h i hi.1 (by omega)

theorem putAll_between (m : Cells) (bs : List Byte) :
    (m.putAll bs).between m.len (m.len + bs.length) = bs := by
  induction bs generalizing m with
  | nil => exact between_self _ _
  | cons b bs ih =>
      have hrest := ih (m.put b)
      have hsum : m.len + (b :: bs).length = (m.put b).len + bs.length := by
        rw [put_len, List.length_cons]
        omega
      have hfirst : (m.putAll (b :: bs)).bytes m.len = b := by
        rw [putAll_cons, putAll_bytes _ _ (.inl (Nat.lt_succ_self _))]
        exact Function.update_self _ _ _
      have hlt : m.len < (m.put b).len + bs.length := by
        rw [put_len]
        omega
      rw [hsum, between_succ hlt, hfirst]
      exact congrArg (b :: ·) hrest

end Cells

end X86Assembler
