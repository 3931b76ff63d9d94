import X86Assembler.Library.LittleEndian

namespace X86Assembler

open CString (Byte)

/-- The result of code that reads a buffer: `fault` is a read past its end, `overrun` a write
past the end of the array that takes what was read, `error` a return code of `-1`. -/
inductive CheckedRead (α : Type)
  | fault
  | overrun
  | error
  | ok (a : α)
deriving DecidableEq

namespace CheckedRead

variable {α β : Type}

instance : Monad CheckedRead where
  pure := ok
  bind m f := match m with
    | fault => fault
    | overrun => overrun
    | error => error
    | ok a => f a

def orError : Option α → CheckedRead α
  | some a => ok a
  | none => error

def fetch (code : List Byte) (i : Nat) : CheckedRead Byte :=
  match code[i]? with
  | some b => ok b
  | none => fault

/-- A check that returns `-1` when it fails. -/
def guardThat (c : Bool) : CheckedRead Unit := if c then ok () else error

def fetchChecked (code : List Byte) (i : Nat) : CheckedRead Byte := do
  guardThat (i < code.length)
  fetch code i

/-- `n` reads in a row. -/
def copy (code : List Byte) (i : Nat) : Nat → CheckedRead (List Byte)
  | 0 => pure []
  | n + 1 => do
    let b ← fetch code i
    let bs ← copy code (i + 1) n
    pure (b :: bs)

/-- `memcpy` of `n` bytes into an array of `room` bytes. -/
def copyInto (room : Nat) (code : List Byte) (i n : Nat) : CheckedRead (List Byte) :=
  if n ≤ room then copy code i n else overrun

/-- A little-endian number of `n` bytes after a check of its last position. -/
def readLe (code : List Byte) (i n : Nat) : CheckedRead (BitVec (8 * n)) := do
  guardThat (i + n ≤ code.length)
  let bs ← copy code i n
  pure (LittleEndian.ofLeBytes (8 * n) bs)

/-- Whether the string in a buffer is a word; the comparison ends at the first difference. -/
def strEq (buf : List Byte) (i : Nat) : List Byte → CheckedRead Bool
  | [] => do
    let b ← fetch buf i
    pure (b == 0)
  | c :: cs => do
    let b ← fetch buf i
    if b = c then strEq buf (i + 1) cs else pure false

@[simp] theorem pure_eq_ok (a : α) : (pure a : CheckedRead α) = ok a := rfl
@[simp] theorem ok_bind (a : α) (f : α → CheckedRead β) : (ok a >>= f) = f a := rfl
@[simp] theorem error_bind (f : α → CheckedRead β) : ((error : CheckedRead α) >>= f) = error := rfl
@[simp] theorem overrun_bind (f : α → CheckedRead β) :
    ((overrun : CheckedRead α) >>= f) = overrun := rfl

theorem fetch_of_lt {code : List Byte} {i : Nat} (h : i < code.length) :
    fetch code i = ok code[i] := by
  rw [fetch, List.getElem?_eq_getElem h]

theorem fetchChecked_of_lt {code : List Byte} {i : Nat} (h : i < code.length) :
    fetchChecked code i = ok code[i] := by
  rw [fetchChecked, guardThat, if_pos (by simpa using h), ok_bind, fetch_of_lt h]

theorem fetchChecked_of_le {code : List Byte} {i : Nat} (h : code.length ≤ i) :
    fetchChecked code i = error := by
  rw [fetchChecked, guardThat, if_neg (by simpa using h), error_bind]

theorem copy_of_le {code : List Byte} {i n : Nat} (h : i + n ≤ code.length) :
    copy code i n = ok (LittleEndian.slice code i n) := by
  induction n generalizing i with
  | zero => simp [copy, LittleEndian.slice]
  | succ n ih =>
      have hi : i < code.length := by omega
      rw [copy, fetch_of_lt hi, ok_bind, ih (by omega), ok_bind, pure_eq_ok, LittleEndian.slice,
        LittleEndian.slice, List.drop_eq_getElem_cons hi, List.take_succ_cons]

theorem copyInto_of_le {room : Nat} {code : List Byte} {i n : Nat} (hroom : n ≤ room)
    (h : i + n ≤ code.length) : copyInto room code i n = ok (LittleEndian.slice code i n) := by
  rw [copyInto, if_pos hroom, copy_of_le h]

theorem copyInto_of_lt {room : Nat} {code : List Byte} {i n : Nat} (hroom : room < n) :
    copyInto room code i n = overrun :=
  if_neg (Nat.not_le_of_lt hroom)

theorem guardThat_bind_of {c : Bool} {f : Unit → CheckedRead β} (h : c = true) :
    guardThat c >>= f = f () := by
  rw [guardThat, if_pos h, ok_bind]

theorem guardThat_bind_eq_ok {c : Bool} {f : Unit → CheckedRead β} {b : β} :
    guardThat c >>= f = ok b ↔ c = true ∧ f () = ok b := by
  cases c <;> simp [guardThat]

theorem guardThat_bind_eq_fault {c : Bool} {f : Unit → CheckedRead β} :
    guardThat c >>= f = fault ↔ c = true ∧ f () = fault := by
  cases c <;> simp [guardThat]

theorem guardThat_bind_ne_error {c : Bool} {f : Unit → CheckedRead β} :
    guardThat c >>= f ≠ error ↔ c = true ∧ f () ≠ error := by
  cases c <;> simp [guardThat]

theorem bind_eq_ok {m : CheckedRead α} {f : α → CheckedRead β} {b : β} :
    m >>= f = ok b ↔ ∃ a, m = ok a ∧ f a = ok b := by
  cases m with
  | fault => exact iff_of_false (fun h => nomatch h) (by simp)
  | overrun => simp
  | error => simp
  | ok a => simp

theorem bind_eq_fault {m : CheckedRead α} {f : α → CheckedRead β} :
    m >>= f = fault ↔ m = fault ∨ ∃ a, m = ok a ∧ f a = fault := by
  cases m with
  | fault => exact iff_of_true rfl (Or.inl rfl)
  | overrun => simp
  | error => simp
  | ok a => simp

/-- A string can be compared with a word unless the buffer ends in it at a part of the word. -/
theorem strEq_eq {buf word : List Byte} {i : Nat} (h : ¬buf.drop i <+: word) :
    strEq buf i word = ok (decide (word ++ [0] <+: buf.drop i)) := by
  have hi : i < buf.length := by
    by_contra hi
    rw [List.drop_of_length_le (Nat.le_of_not_lt hi)] at h
    exact h List.nil_prefix
  have hdrop := List.drop_eq_getElem_cons hi
  induction word generalizing i with
  | nil =>
      rw [strEq, fetch_of_lt hi, ok_bind, pure_eq_ok, hdrop, List.nil_append]
      congr 1
      rw [Bool.eq_iff_iff, beq_iff_eq, decide_eq_true_iff, List.cons_prefix_cons]
      constructor
      · intro h
        exact ⟨h.symm, List.nil_prefix⟩
      · rintro ⟨h, -⟩
        exact h.symm
  | cons c cs ih =>
      rw [strEq, fetch_of_lt hi, ok_bind, hdrop, List.cons_append]
      by_cases hc : buf[i] = c
      · have hrest : ¬buf.drop (i + 1) <+: cs := by
          intro hrest
          apply h
          rw [hdrop, hc]
          exact List.cons_prefix_cons.mpr ⟨rfl, hrest⟩
        have hi' : i + 1 < buf.length := by
          by_contra hi'
          rw [List.drop_of_length_le (Nat.le_of_not_lt hi')] at hrest
          exact hrest List.nil_prefix
        rw [if_pos hc, ih hrest hi' (List.drop_eq_getElem_cons hi'), hc]
        congr 1
        rw [decide_eq_decide, List.cons_prefix_cons]
        exact (and_iff_right rfl).symm
      · rw [if_neg hc, pure_eq_ok]
        congr 1
        rw [eq_comm, decide_eq_false_iff_not, List.cons_prefix_cons]
        rintro ⟨hsame, -⟩
        exact hc hsame.symm

theorem strEq_unfinished {buf word : List Byte} {i : Nat} (h : buf.drop i <+: word) :
    strEq buf i word = fault := by
  induction word generalizing i with
  | nil =>
      have hend := List.drop_eq_nil_iff.mp (List.prefix_nil.mp h)
      rw [strEq, fetch, List.getElem?_eq_none hend]
      rfl
  | cons c cs ih =>
      by_cases hi : i < buf.length
      · rw [List.drop_eq_getElem_cons hi, List.cons_prefix_cons] at h
        rw [strEq, fetch_of_lt hi, ok_bind, if_pos h.1, ih h.2]
      · rw [strEq, fetch, List.getElem?_eq_none (Nat.le_of_not_lt hi)]
        rfl

theorem readLe_of_le {code : List Byte} {i n : Nat} (h : i + n ≤ code.length) :
    ∃ v, readLe code i n = ok v := by
  refine ⟨LittleEndian.ofLeBytes (8 * n) (LittleEndian.slice code i n), ?_⟩
  rw [readLe, guardThat, if_pos (by simpa using h), ok_bind, copy_of_le h, ok_bind, pure_eq_ok]

theorem readLe_of_lt {code : List Byte} {i n : Nat} (h : code.length < i + n) :
    readLe code i n = error := by
  rw [readLe, guardThat, if_neg (by simpa using h), error_bind]

def StandsAt (code : List Byte) (i : Nat) (bs : List Byte) : Prop := bs <+: code.drop i

theorem standsAt_append (pre bs rest : List Byte) :
    StandsAt (pre ++ (bs ++ rest)) pre.length bs := by
  rw [StandsAt, List.drop_left]
  exact List.prefix_append bs rest

theorem StandsAt.length_le {code : List Byte} {i : Nat} {bs : List Byte} (h : StandsAt code i bs)
    (hne : bs ≠ []) : i + bs.length ≤ code.length := by
  have hlen := List.IsPrefix.length_le h
  have hpos := List.length_pos_iff.mpr hne
  rw [List.length_drop] at hlen
  omega

theorem StandsAt.slice {code : List Byte} {i : Nat} {bs : List Byte} (h : StandsAt code i bs) :
    LittleEndian.slice code i bs.length = bs := by
  rw [LittleEndian.slice]
  exact (List.prefix_iff_eq_take.mp h).symm

theorem StandsAt.drop {code : List Byte} {i : Nat} {bs cs : List Byte}
    (h : StandsAt code i (bs ++ cs)) : StandsAt code (i + bs.length) cs := by
  obtain ⟨rest, hrest⟩ := h
  rw [StandsAt, ← List.drop_drop, ← hrest, List.append_assoc, List.drop_left]
  exact List.prefix_append cs rest

theorem StandsAt.tail {code : List Byte} {i : Nat} {b : Byte} {bs : List Byte}
    (h : StandsAt code i (b :: bs)) : StandsAt code (i + 1) bs :=
  @StandsAt.drop code i [b] bs h

theorem StandsAt.fetchChecked {code : List Byte} {i : Nat} {b : Byte} {bs : List Byte}
    (h : StandsAt code i (b :: bs)) : fetchChecked code i = ok b := by
  have hlen := h.length_le (List.cons_ne_nil b bs)
  rw [List.length_cons] at hlen
  rw [fetchChecked_of_lt (by omega)]
  obtain ⟨rest, hrest⟩ := h
  have hdrop := List.drop_eq_getElem_cons (show i < code.length by omega)
  rw [hdrop, List.cons_append] at hrest
  rw [(List.cons.inj hrest).1]

theorem StandsAt.readLe {code : List Byte} {i n : Nat} {v : BitVec (8 * n)}
    (h : StandsAt code i (LittleEndian.leBytes n v)) (hn : 0 < n) : readLe code i n = ok v := by
  have hne : LittleEndian.leBytes n v ≠ [] := by
    rw [← List.length_pos_iff, LittleEndian.leBytes_length]
    exact hn
  have hlen := h.length_le hne
  have hslice := h.slice
  rw [LittleEndian.leBytes_length] at hlen hslice
  rw [CheckedRead.readLe, guardThat_bind_of (by simpa using hlen), copy_of_le hlen, ok_bind, hslice,
    LittleEndian.ofLeBytes_leBytes (Nat.le_refl _), pure_eq_ok]

end CheckedRead

end X86Assembler
