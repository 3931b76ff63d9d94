import X86Assembler.Library.CString
import X86Assembler.Library.EditDistance

namespace X86Assembler.NameDistance

open CString (Byte toLower eqIgnoreCase)
open EditDistance

/-- An `int[64]`. -/
abbrev Row := Vector Nat 64

namespace Row

def read (row : Row) (j : Nat) : Option Nat := row[j]?

def write (row : Row) (j value : Nat) : Option Row :=
  if h : j < 64 then some (row.set j value h) else none

end Row

structure Rows where
  prev : Row
  curr : Row

def min3Int (a b c : Nat) : Nat :=
  let m := if a < b then a else b
  if m < c then m else c

def firstRow (rhs : List Byte) (prev : Row) : Option Row :=
  (List.range' 0 (rhs.length + 1)).foldlM (fun prev j => Row.write prev j j) prev

/-- The body of the loop over `rhs`. -/
def fillCell (rhs : List Byte) (lc : Byte) (rows : Rows) (j : Nat) : Option Rows := do
  let rc := toLower (← rhs[j - 1]?)
  let cost := if lc = rc then 0 else 1
  let value := min3Int ((← rows.prev.read j) + 1) ((← rows.curr.read (j - 1)) + 1)
    ((← rows.prev.read (j - 1)) + cost)
  return { rows with curr := ← rows.curr.write j value }

/-- The body of the loop that copies `curr` to `prev`. -/
def copyCell (rows : Rows) (j : Nat) : Option Rows := do
  return { rows with prev := ← rows.prev.write j (← rows.curr.read j) }

/-- The body of the loop over `lhs`. -/
def nextRow (lhs rhs : List Byte) (rows : Rows) (i : Nat) : Option Rows := do
  let curr ← rows.curr.write 0 i
  let lc := toLower (← lhs[i - 1]?)
  let rows ← (List.range' 1 rhs.length).foldlM (fillCell rhs lc) { rows with curr }
  (List.range' 0 (rhs.length + 1)).foldlM copyCell rows

/-- The distance, from what the rows hold before anything is written to them. -/
def nameDistance (rows : Rows) (lhs rhs : List Byte) : Option Nat := do
  if lhs.length > 63 ∨ rhs.length > 63 then return 999
  let prev ← firstRow rhs rows.prev
  let rows ← (List.range' 1 lhs.length).foldlM (nextRow lhs rhs) { rows with prev }
  rows.prev.read rhs.length

def symbolNameDistance : Rows → List Byte → List Byte → Option Nat := nameDistance
def instructionNameDistance : Rows → List Byte → List Byte → Option Nat := nameDistance

theorem foldlM_range' {σ : Type} {f : σ → Nat → Option σ} (I : Nat → σ → Prop) {start n : Nat}
    (hround : ∀ j s, start ≤ j → j < start + n → I j s → ∃ s', f s j = some s' ∧ I (j + 1) s')
    {s : σ} (hs : I start s) :
    ∃ s', (List.range' start n).foldlM f s = some s' ∧ I (start + n) s' := by
  induction n generalizing start s with
  | zero => exact ⟨s, rfl, hs⟩
  | succ n ih =>
      obtain ⟨t, ht, hkept⟩ := hround start s (Nat.le_refl _) (by omega) hs
      obtain ⟨s', hrun, hend⟩ :=
        @ih (start + 1) (fun j s hj hlt => hround j s (by omega) (by omega)) _ hkept
      refine ⟨s', ?_, ?_⟩
      · rw [List.range'_succ, List.foldlM_cons, ht]
        exact hrun
      · have hsum : start + (n + 1) = start + 1 + n := by omega
        exact hsum ▸ hend

def RowIs (row : Row) (n : Nat) (f : Nat → Nat) : Prop := ∀ j, j < n → row.read j = some (f j)

theorem write_eq (row : Row) {j : Nat} (value : Nat) (h : j < 64) :
    ∃ row', row.write j value = some row' ∧ row'.read j = some value ∧
      ∀ k, k ≠ j → row'.read k = row.read k := by
  refine ⟨row.set j value h, dif_pos h, ?_, ?_⟩
  · rw [Row.read, Vector.getElem?_set_self]
  · intro k hk
    rw [Row.read, Row.read, Vector.getElem?_set_ne _ (Ne.symm hk)]

theorem rowIs_write {row row' : Row} {n : Nat} {f : Nat → Nat} {value : Nat} (h : RowIs row n f)
    (hself : row'.read n = some value) (hother : ∀ k, k ≠ n → row'.read k = row.read k)
    (hvalue : value = f n) : RowIs row' (n + 1) f := by
  intro j hj
  by_cases hn : j = n
  · rw [hn, hself, hvalue]
  · rw [hother j hn]
    exact h j (by omega)

theorem min3Int_eq (a b c : Nat) : min3Int a b c = min (min a b) c := by
  rw [min3Int]
  split <;> split <;> omega

/-- The distance of two names, upper and lower case taken as one. -/
def caselessDistance (lhs rhs : List Byte) : Nat := distance (lhs.map toLower) (rhs.map toLower)

def table (lhs rhs : List Byte) (i j : Nat) : Nat := caselessDistance (lhs.take i) (rhs.take j)

section

variable {lhs rhs : List Byte}

theorem table_zero_left {j : Nat} (h : j ≤ rhs.length) : table lhs rhs 0 j = j := by
  rw [table, caselessDistance, List.take_zero, List.map_nil, distance_nil_left, List.length_map,
    List.length_take]
  omega

theorem table_zero_right {i : Nat} (h : i ≤ lhs.length) : table lhs rhs i 0 = i := by
  rw [table, caselessDistance, List.take_zero, List.map_nil, distance_nil_right, List.length_map,
    List.length_take]
  omega

theorem table_succ {i j : Nat} {a b : Byte} (ha : lhs[i]? = some a) (hb : rhs[j]? = some b) :
    table lhs rhs (i + 1) (j + 1) =
      min (min (table lhs rhs i (j + 1) + 1) (table lhs rhs (i + 1) j + 1))
        (table lhs rhs i j + cost (toLower a) (toLower b)) := by
  simp only [table, caselessDistance, List.map_take]
  apply distance_take_succ
  · rw [List.getElem?_map, ha, Option.map_some]
  · rw [List.getElem?_map, hb, Option.map_some]

theorem table_length : table lhs rhs lhs.length rhs.length = caselessDistance lhs rhs := by
  rw [table, List.take_length, List.take_length]

theorem firstRow_spec (hrhs : rhs.length ≤ 63) (prev : Row) :
    ∃ prev', firstRow rhs prev = some prev' ∧ RowIs prev' (rhs.length + 1) (table lhs rhs 0) := by
  have hround : ∀ j row, 0 ≤ j → j < 0 + (rhs.length + 1) → RowIs row j (table lhs rhs 0) →
      ∃ row', Row.write row j j = some row' ∧ RowIs row' (j + 1) (table lhs rhs 0) := by
    intro j row _ hj hrow
    obtain ⟨row', hwrite, hself, hother⟩ := @write_eq row j j (by omega)
    exact ⟨row', hwrite, rowIs_write hrow hself hother (table_zero_left (by omega)).symm⟩
  have hnone : RowIs prev 0 (table lhs rhs 0) := by
    intro j hj
    omega
  obtain ⟨prev', hrun, hrow⟩ := foldlM_range' _ hround hnone
  rw [Nat.zero_add] at hrow
  exact ⟨prev', hrun, hrow⟩

theorem fillCell_spec {i j : Nat} {a : Byte} {rows : Rows} (hrhs : rhs.length ≤ 63)
    (ha : lhs[i]? = some a) (hj : j < rhs.length)
    (hprev : RowIs rows.prev (rhs.length + 1) (table lhs rhs i))
    (hcurr : RowIs rows.curr (j + 1) (table lhs rhs (i + 1))) :
    ∃ rows', fillCell rhs (toLower a) rows (j + 1) = some rows' ∧ rows'.prev = rows.prev ∧
      RowIs rows'.curr (j + 2) (table lhs rhs (i + 1)) := by
  have hb : rhs[j]? = some rhs[j] := List.getElem?_eq_getElem hj
  obtain ⟨curr, hwrite, hself, hother⟩ := @write_eq rows.curr (j + 1)
    (table lhs rhs (i + 1) (j + 1)) (by omega)
  refine ⟨{ rows with curr }, ?_, rfl, rowIs_write hcurr hself hother rfl⟩
  have hup := hprev (j + 1) (by omega)
  have hleft := hcurr j (by omega)
  have hdiagonal := hprev j (by omega)
  rw [table_succ ha hb, ← min3Int_eq, cost] at hwrite
  rw [fillCell, Nat.add_sub_cancel, hb]
  simp only [Option.pure_def, Option.bind_eq_bind, Option.bind_some, hup, hleft, hdiagonal, hwrite]

theorem copyCell_spec {n : Nat} {f : Nat → Nat} {rows : Rows} {j : Nat} (hn : n ≤ 64) (hj : j < n)
    (hprev : RowIs rows.prev j f) (hcurr : RowIs rows.curr n f) :
    ∃ rows', copyCell rows j = some rows' ∧ RowIs rows'.prev (j + 1) f ∧ RowIs rows'.curr n f := by
  obtain ⟨prev, hwrite, hself, hother⟩ := @write_eq rows.prev j (f j) (by omega)
  refine ⟨{ rows with prev }, ?_, rowIs_write hprev hself hother rfl, hcurr⟩
  simp only [copyCell, Option.pure_def, Option.bind_eq_bind, Option.bind_some, hcurr j hj, hwrite]

theorem nextRow_spec {i : Nat} {rows : Rows} (hrhs : rhs.length ≤ 63) (hi : i < lhs.length)
    (hprev : RowIs rows.prev (rhs.length + 1) (table lhs rhs i)) :
    ∃ rows', nextRow lhs rhs rows (i + 1) = some rows' ∧
      RowIs rows'.prev (rhs.length + 1) (table lhs rhs (i + 1)) := by
  have ha : lhs[i]? = some lhs[i] := List.getElem?_eq_getElem hi
  obtain ⟨curr, hwrite, hself, hother⟩ := @write_eq rows.curr 0 (i + 1) (by omega)
  have hstart : RowIs curr 1 (table lhs rhs (i + 1)) := by
    have hnone : RowIs rows.curr 0 (table lhs rhs (i + 1)) := by
      intro j hj
      omega
    exact rowIs_write hnone hself hother (table_zero_right (by omega)).symm
  have hfillRound : ∀ j (r : Rows), 1 ≤ j → j < 1 + rhs.length →
      r.prev = rows.prev ∧ RowIs r.curr j (table lhs rhs (i + 1)) →
      ∃ r', fillCell rhs (toLower lhs[i]) r j = some r' ∧
        r'.prev = rows.prev ∧ RowIs r'.curr (j + 1) (table lhs rhs (i + 1)) := by
    rintro j r hpos hj ⟨hkept, hrow⟩
    obtain ⟨k, rfl⟩ : ∃ k, j = k + 1 := ⟨j - 1, by omega⟩
    obtain ⟨r', hrun, hsame, hrow'⟩ := fillCell_spec hrhs ha (by omega) (hkept ▸ hprev) hrow
    exact ⟨r', hrun, hsame.trans hkept, hrow'⟩
  obtain ⟨filled, hfill, -, hrow⟩ :=
    foldlM_range' _ hfillRound (s := { rows with curr }) ⟨rfl, hstart⟩
  rw [Nat.add_comm] at hrow
  have hcopyRound : ∀ j (r : Rows), 0 ≤ j → j < 0 + (rhs.length + 1) →
      RowIs r.prev j (table lhs rhs (i + 1)) ∧
        RowIs r.curr (rhs.length + 1) (table lhs rhs (i + 1)) →
      ∃ r', copyCell r j = some r' ∧ RowIs r'.prev (j + 1) (table lhs rhs (i + 1)) ∧
        RowIs r'.curr (rhs.length + 1) (table lhs rhs (i + 1)) := by
    rintro j r _ hj ⟨hdone, hrow⟩
    exact copyCell_spec (by omega) (by omega) hdone hrow
  have hnone : RowIs filled.prev 0 (table lhs rhs (i + 1)) := by
    intro j hj
    omega
  obtain ⟨copied, hcopy, hcopied, -⟩ := foldlM_range' _ hcopyRound ⟨hnone, hrow⟩
  rw [Nat.zero_add] at hcopied
  refine ⟨copied, ?_, hcopied⟩
  rw [nextRow, Nat.add_sub_cancel, ha]
  simp only [Option.bind_eq_bind, Option.bind_some, hwrite, hfill, hcopy]

theorem nameDistance_eq (rows : Rows) (hlhs : lhs.length ≤ 63) (hrhs : rhs.length ≤ 63) :
    nameDistance rows lhs rhs = some (caselessDistance lhs rhs) := by
  obtain ⟨prev, hfirst, hzero⟩ := @firstRow_spec lhs rhs hrhs rows.prev
  have hround : ∀ i (r : Rows), 1 ≤ i → i < 1 + lhs.length →
      RowIs r.prev (rhs.length + 1) (table lhs rhs (i - 1)) →
      ∃ r', nextRow lhs rhs r i = some r' ∧
        RowIs r'.prev (rhs.length + 1) (table lhs rhs (i + 1 - 1)) := by
    intro i r hpos hi hprev
    obtain ⟨k, rfl⟩ : ∃ k, i = k + 1 := ⟨i - 1, by omega⟩
    exact nextRow_spec hrhs (by omega) hprev
  obtain ⟨last, hrun, hrow⟩ :=
    foldlM_range' (fun i (r : Rows) => RowIs r.prev (rhs.length + 1) (table lhs rhs (i - 1)))
      hround (s := { rows with prev }) hzero
  have hread := hrow rhs.length (Nat.lt_succ_self _)
  rw [Nat.add_sub_cancel_left, table_length] at hread
  rw [nameDistance, if_neg (by omega)]
  simp only [Option.bind_eq_bind, Option.bind_some, hfirst, hrun, hread]

end

theorem caselessDistance_comm (a b : List Byte) : caselessDistance a b = caselessDistance b a :=
  distance_comm _ _

theorem caselessDistance_eq_zero {a b : List Byte} :
    caselessDistance a b = 0 ↔ eqIgnoreCase a b = true := by
  rw [caselessDistance, distance_eq_zero, eqIgnoreCase, beq_iff_eq]

theorem caselessDistance_triangle (a b c : List Byte) :
    caselessDistance a c ≤ caselessDistance a b + caselessDistance b c :=
  distance_triangle _ _ _

def Short (name : List Byte) : Prop := name.length ≤ 63

/-- What a distance of names does for short names. It has a value, so that each index it reads or
writes at is below 64, and the value does not depend on what the rows held. -/
structure MeasuresNames (f : Rows → List Byte → List Byte → Option Nat) : Prop where
  levenshtein : ∀ rows a b, Short a → Short b → f rows a b = some (caselessDistance a b)
  symmetric : ∀ rows rows' a b, Short a → Short b → f rows a b = f rows' b a
  zero : ∀ rows a b, Short a → Short b → (f rows a b = some 0 ↔ eqIgnoreCase a b = true)
  triangle : ∀ rows a b c, Short a → Short b → Short c → ∃ ac ab bc,
    f rows a c = some ac ∧ f rows a b = some ab ∧ f rows b c = some bc ∧ ac ≤ ab + bc

theorem nameDistance_measures : MeasuresNames nameDistance where
  levenshtein := by
    intro rows a b ha hb
    exact nameDistance_eq rows ha hb
  symmetric := by
    intro rows rows' a b ha hb
    rw [nameDistance_eq rows ha hb, nameDistance_eq rows' hb ha, caselessDistance_comm]
  zero := by
    intro rows a b ha hb
    rw [nameDistance_eq rows ha hb, Option.some_inj, caselessDistance_eq_zero]
  triangle := by
    intro rows a b c ha hb hc
    exact ⟨_, _, _, nameDistance_eq rows ha hc, nameDistance_eq rows ha hb,
      nameDistance_eq rows hb hc, caselessDistance_triangle a b c⟩

/-- Both functions of the suggestions compute the same distance. -/
theorem suggestionDistances :
    MeasuresNames symbolNameDistance ∧ MeasuresNames instructionNameDistance ∧
      ∀ rows rows' a b, Short a → Short b →
        symbolNameDistance rows a b = instructionNameDistance rows' a b := by
  refine ⟨nameDistance_measures, nameDistance_measures, ?_⟩
  intro rows rows' a b ha hb
  exact (nameDistance_eq rows ha hb).trans (nameDistance_eq rows' ha hb).symm

end X86Assembler.NameDistance
