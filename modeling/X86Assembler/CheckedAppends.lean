import X86Assembler.Library.Cells
import X86Assembler.DebugNumbers

namespace X86Assembler

open CString (Byte)
open Leb128

namespace Cells

def appendU8Checked (capacity : Nat) (value : Byte) : StateM Cells Bool := fun m =>
  if m.len + 1 > capacity then (false, m)
  else (true, m.put value)

def appendUleb128Checked (capacity : Nat) (value : BitVec 32) : StateM Cells Bool := do
  let byte := (value &&& 0x7F).setWidth 8
  let rest := value >>> 7
  let byte := if rest ≠ 0 then byte ||| 0x80 else byte
  if !(← appendU8Checked capacity byte) then return false
  if rest ≠ 0 then appendUleb128Checked capacity rest else return true
termination_by value.toNat
decreasing_by
  rename_i hrest
  have hlt : ¬value.toNat < 128 := fun hlt => hrest ((uleb_last_iff value).mpr hlt)
  rw [toNat_shiftSeven]
  omega

def appendSleb128Checked (capacity : Nat) (value : BitVec 32) : StateM Cells Bool := do
  let byte := (value &&& 0x7F).setWidth 8
  let signBit := byte &&& 0x40 ≠ 0
  let rest := value.sshiftRight 7
  let last := rest = 0 ∧ ¬signBit ∨ rest = -1 ∧ signBit
  let byte := if last then byte else byte ||| 0x80
  if !(← appendU8Checked capacity byte) then return false
  if last then return true else appendSleb128Checked capacity rest
termination_by value.toInt.natAbs
decreasing_by
  rename_i hlast
  have hfits : ¬FitsGroup value.toInt := fun hfits => hlast ((sleb_last_iff value).mpr hfits)
  rw [FitsGroup] at hfits
  rw [toInt_shiftSeven]
  omega

def appendEach (capacity : Nat) : List Byte → StateM Cells Bool
  | [] => return true
  | b :: bs => do
    if !(← appendU8Checked capacity b) then return false
    appendEach capacity bs

variable {capacity : Nat}

theorem appendU8Checked_full {m : Cells} (b : Byte) (h : capacity ≤ m.len) :
    appendU8Checked capacity b m = (false, m) := by
  rw [appendU8Checked, if_pos (by omega)]

theorem appendU8Checked_room {m : Cells} (b : Byte) (h : m.len < capacity) :
    appendU8Checked capacity b m = (true, m.put b) := by
  rw [appendU8Checked, if_neg (by omega)]

theorem bind_run {α β : Type} (x : StateM Cells α) (f : α → StateM Cells β) (m : Cells) :
    (x >>= f) m = f (x m).1 (x m).2 :=
  rfl

theorem appendEach_full {m : Cells} (b : Byte) (bs : List Byte) (h : capacity ≤ m.len) :
    appendEach capacity (b :: bs) m = (false, m) := by
  rw [appendEach, bind_run, appendU8Checked_full b h]
  rfl

theorem appendEach_room {m : Cells} (b : Byte) (bs : List Byte) (h : m.len < capacity) :
    appendEach capacity (b :: bs) m = appendEach capacity bs (m.put b) := by
  rw [appendEach, bind_run, appendU8Checked_room b h]
  rfl

theorem appendUleb128Checked_last {v : BitVec 32} (h : v.toNat < 128) :
    appendUleb128Checked capacity v = appendEach capacity [group v.toNat false] := by
  have hlast := not_not.mpr ((uleb_last_iff v).mpr h)
  rw [appendUleb128Checked, if_neg hlast, lowSeven_eq_group]
  simp only [if_neg hlast]
  rfl

theorem appendUleb128Checked_more {v : BitVec 32} (h : ¬v.toNat < 128) :
    appendUleb128Checked capacity v = (do
      if !(← appendU8Checked capacity (group v.toNat true)) then return false
      appendUleb128Checked capacity (v >>> 7)) := by
  have hmore : v >>> 7 ≠ 0 := fun hzero => h ((uleb_last_iff v).mp hzero)
  rw [appendUleb128Checked, if_pos hmore, lowSeven_or_eq_group]
  simp only [if_pos hmore]

theorem appendUleb128Checked_eq (v : BitVec 32) :
    appendUleb128Checked capacity v = appendEach capacity (uleb v.toNat) := by
  induction hn : v.toNat using Nat.strongRecOn generalizing v with
  | ind n ih =>
      subst hn
      rw [uleb]
      by_cases hlt : v.toNat < 128
      · rw [if_pos hlt, appendUleb128Checked_last hlt]
      · have hrest := ih (v.toNat / 128) (by omega) (v >>> 7) (toNat_shiftSeven v)
        rw [if_neg hlt, appendUleb128Checked_more hlt, hrest]
        rfl

theorem appendSleb128Checked_last {v : BitVec 32} (h : FitsGroup v.toInt) :
    appendSleb128Checked capacity v = appendEach capacity [group v.toNat false] := by
  have hlast := (sleb_last_iff v).mpr h
  rw [appendSleb128Checked, if_pos hlast, lowSeven_eq_group]
  simp only [← lowSeven_eq_group, if_pos hlast]
  rfl

theorem appendSleb128Checked_more {v : BitVec 32} (h : ¬FitsGroup v.toInt) :
    appendSleb128Checked capacity v = (do
      if !(← appendU8Checked capacity (group v.toNat true)) then return false
      appendSleb128Checked capacity (v.sshiftRight 7)) := by
  have hmore := fun hlast => h ((sleb_last_iff v).mp hlast)
  rw [appendSleb128Checked, if_neg hmore, lowSeven_or_eq_group]
  simp only [if_neg hmore]

theorem appendSleb128Checked_eq (v : BitVec 32) :
    appendSleb128Checked capacity v = appendEach capacity (sleb v.toInt) := by
  induction hn : v.toInt.natAbs using Nat.strongRecOn generalizing v with
  | ind n ih =>
      rw [sleb]
      by_cases hfits : FitsGroup v.toInt
      · rw [if_pos hfits, appendSleb128Checked_last hfits, group_toInt]
      · have hdiv := toInt_shiftSeven v
        have hsmall : (v.sshiftRight 7).toInt.natAbs < n := by
          rw [FitsGroup] at hfits
          omega
        have hrest := ih _ hsmall (v.sshiftRight 7) rfl
        rw [if_neg hfits, appendSleb128Checked_more hfits, hrest, group_toInt, hdiv]
        rfl

theorem appendEach_bytes (bs : List Byte) (m : Cells) {i : Nat} (h : i < m.len ∨ capacity ≤ i) :
    (appendEach capacity bs m).2.bytes i = m.bytes i := by
  induction bs generalizing m with
  | nil => rfl
  | cons b bs ih =>
      by_cases hroom : m.len < capacity
      · have hkept : i < (m.put b).len ∨ capacity ≤ i := by
          rw [put_len]
          omega
        rw [appendEach_room b bs hroom, ih (m.put b) hkept]
        exact put_bytes m b (by omega)
      · rw [appendEach_full b bs (by omega)]

theorem appendEach_fits {bs : List Byte} {m : Cells} (h : m.len + bs.length ≤ capacity) :
    appendEach capacity bs m = (true, m.putAll bs) := by
  induction bs generalizing m with
  | nil => rfl
  | cons b bs ih =>
      rw [List.length_cons] at h
      rw [appendEach_room b bs (by omega), putAll_cons]
      apply ih
      rw [put_len]
      omega

theorem appendEach_tooLong {bs : List Byte} (hne : bs ≠ []) {m : Cells}
    (h : capacity < m.len + bs.length) : (appendEach capacity bs m).1 = false := by
  induction bs generalizing m with
  | nil => exact absurd rfl hne
  | cons b bs ih =>
      by_cases hroom : m.len < capacity
      · rw [List.length_cons] at h
        rw [appendEach_room b bs hroom]
        apply ih
        · rintro rfl
          rw [List.length_nil] at h
          omega
        · rw [put_len]
          omega
      · rw [appendEach_full b bs (by omega)]

theorem appendEach_iff {bs : List Byte} (hne : bs ≠ []) {m : Cells} :
    (appendEach capacity bs m).1 = true ↔ m.len + bs.length ≤ capacity := by
  constructor
  · intro hok
    by_contra hlong
    rw [appendEach_tooLong hne (by omega)] at hok
    cases hok
  · intro hfits
    rw [appendEach_fits hfits]

def Holds {cap : Nat} (m : Cells) (buf : Buffer cap) : Prop := m.between 0 m.len = buf.bytes

theorem Holds.length {cap : Nat} {m : Cells} {buf : Buffer cap} (h : Holds m buf) :
    buf.bytes.length = m.len := by
  rw [← h, between, List.length_map, List.length_range', Nat.sub_zero]

/-- The function on the memory does what the program on the buffer does. -/
structure Simulates {cap : Nat} (f : StateM Cells Bool) (p : Fill cap Unit) : Prop where
  succeeds : ∀ m buf, Holds m buf → ((f m).1 = true ↔ ∃ r, p buf = some r)
  leaves : ∀ m buf, Holds m buf → ∀ r, p buf = some r → Holds (f m).2 r.2

theorem simulates_append {cap : Nat} {bs : List Byte} (hne : bs ≠ []) :
    Simulates (appendEach cap bs) (Fill.append bs : Fill cap Unit) := by
  constructor
  · intro m buf hholds
    rw [appendEach_iff hne, ← hholds.length, Fill.append]
    by_cases hfits : buf.bytes.length + bs.length ≤ cap
    · rw [dif_pos hfits]
      exact ⟨fun _ => ⟨_, rfl⟩, fun _ => hfits⟩
    · rw [dif_neg hfits]
      refine ⟨fun h => absurd h hfits, ?_⟩
      rintro ⟨r, hr⟩
      cases hr
  · intro m buf hholds r hr
    rw [Fill.append] at hr
    by_cases hfits : buf.bytes.length + bs.length ≤ cap
    · rw [dif_pos hfits] at hr
      cases hr
      rw [hholds.length] at hfits
      have hold : (m.putAll bs).between 0 m.len = buf.bytes := by
        rw [← hholds]
        apply between_congr
        intro i _ hi
        exact putAll_bytes m bs (.inl hi)
      rw [appendEach_fits hfits, Holds, putAll_len,
        between_append _ (Nat.zero_le m.len) (Nat.le_add_right _ _), hold, putAll_between]
    · rw [dif_neg hfits] at hr
      cases hr

end Cells

open Cells (Simulates)

theorem appendUleb128Checked_simulates {cap : Nat} (v : BitVec 32) :
    Simulates (Cells.appendUleb128Checked cap v) (appendUleb128Checked v : Fill cap Unit) := by
  rw [appendUleb128Checked_eq, Cells.appendUleb128Checked_eq]
  exact Cells.simulates_append (uleb_ne_nil _)

theorem appendSleb128Checked_simulates {cap : Nat} (v : BitVec 32) :
    Simulates (Cells.appendSleb128Checked cap v) (appendSleb128Checked v : Fill cap Unit) := by
  rw [appendSleb128Checked_eq, Cells.appendSleb128Checked_eq]
  exact Cells.simulates_append (sleb_ne_nil _)

/-- What an append of a number does to every buffer, with the reader of such numbers. The number
of bytes depends on the number alone; without room for them the append fails. -/
def AppendsNumber {α : Type} (append : Nat → StateM Cells Bool)
    (read : List Byte → Option (α × List Byte)) (value : α) : Prop :=
  ∃ size, 0 < size ∧ size ≤ 5 ∧ ∀ capacity (m : Cells), ∀ ok m', append capacity m = (ok, m') →
    (ok = true ↔ m.len + size ≤ capacity) ∧
    (ok = true → m'.len = m.len + size ∧
      ∀ rest, read (m'.between m.len m'.len ++ rest) = some (value, rest)) ∧
    (∀ i, i < m.len → m'.bytes i = m.bytes i) ∧ ∀ i, capacity ≤ i → m'.bytes i = m.bytes i

theorem appendsNumber_of_bytes {α : Type} {append : Nat → StateM Cells Bool}
    {read : List Byte → Option (α × List Byte)} {value : α} {bs : List Byte}
    (happend : ∀ capacity, append capacity = Cells.appendEach capacity bs) (hne : bs ≠ [])
    (hlen : bs.length ≤ 5) (hread : ∀ rest, read (bs ++ rest) = some (value, rest)) :
    AppendsNumber append read value := by
  refine ⟨bs.length, List.length_pos_iff.mpr hne, hlen, ?_⟩
  intro capacity m ok m' hrun
  rw [happend] at hrun
  have hok : (Cells.appendEach capacity bs m).1 = ok := by rw [hrun]
  have hm : (Cells.appendEach capacity bs m).2 = m' := by rw [hrun]
  subst hok hm
  refine ⟨Cells.appendEach_iff hne, ?_, ?_, ?_⟩
  · intro hok
    rw [Cells.appendEach_fits ((Cells.appendEach_iff hne).mp hok)]
    refine ⟨Cells.putAll_len m bs, ?_⟩
    intro rest
    rw [Cells.putAll_len, Cells.putAll_between, hread]
  · intro i hi
    exact Cells.appendEach_bytes bs m (.inl hi)
  · intro i hi
    exact Cells.appendEach_bytes bs m (.inr hi)

/-- The numbers of variable length are read back as they were appended. -/
theorem leb128_readBack :
    (∀ value : BitVec 32,
      AppendsNumber (Cells.appendUleb128Checked · value) readUleb value.toNat) ∧
    ∀ value : BitVec 32,
      AppendsNumber (Cells.appendSleb128Checked · value) readSleb value.toInt := by
  constructor
  · intro value
    have hlt := value.isLt
    apply appendsNumber_of_bytes (fun _ => Cells.appendUleb128Checked_eq value) (uleb_ne_nil _)
    · exact length_uleb_le (n := 4) (by omega)
    · exact readUleb_uleb _
  · intro value
    have hlo := @BitVec.le_toInt 32 value
    have hhi := @BitVec.toInt_lt 32 value
    apply appendsNumber_of_bytes (fun _ => Cells.appendSleb128Checked_eq value) (sleb_ne_nil _)
    · exact length_sleb_le (n := 4) (by omega) (by omega)
    · exact readSleb_sleb _

end X86Assembler
