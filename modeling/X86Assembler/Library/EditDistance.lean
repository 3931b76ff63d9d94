import Mathlib.Order.MinMax

namespace X86Assembler.EditDistance

variable {α : Type} [DecidableEq α]

def cost (x y : α) : Nat := if x = y then 0 else 1

def distance : List α → List α → Nat
  | [], ys => ys.length
  | xs, [] => xs.length
  | x :: xs, y :: ys =>
    min (min (distance xs (y :: ys) + 1) (distance (x :: xs) ys + 1)) (distance xs ys + cost x y)

/-- Ways to make one word of another: letters left out, put in or written over, with the price. -/
inductive Edits : List α → List α → Nat → Prop
  | nil : Edits [] [] 0
  | delete (x : α) {xs ys : List α} {n : Nat} : Edits xs ys n → Edits (x :: xs) ys (n + 1)
  | insert (y : α) {xs ys : List α} {n : Nat} : Edits xs ys n → Edits xs (y :: ys) (n + 1)
  | replace (x y : α) {xs ys : List α} {n : Nat} :
      Edits xs ys n → Edits (x :: xs) (y :: ys) (n + cost x y)

theorem cost_self (x : α) : cost x x = 0 := if_pos rfl

theorem cost_comm (x y : α) : cost x y = cost y x := by
  by_cases h : x = y
  · rw [h]
  · rw [cost, cost, if_neg h, if_neg (Ne.symm h)]

theorem cost_eq_zero {x y : α} : cost x y = 0 ↔ x = y := by
  rw [cost]
  by_cases h : x = y <;> simp [h]

theorem cost_le (x y : α) : cost x y ≤ 1 := by
  rw [cost]
  split <;> omega

theorem cost_triangle (x y z : α) : cost x z ≤ cost x y + cost y z := by
  by_cases hxy : x = y
  · have hsum : cost x z = cost x y + cost y z := by rw [hxy, cost_self, Nat.zero_add]
    exact hsum.le
  · have hone : cost x y = 1 := if_neg hxy
    have hle := cost_le x z
    omega

theorem distance_nil_left (ys : List α) : distance [] ys = ys.length := by
  rw [distance]

theorem distance_nil_right (xs : List α) : distance xs [] = xs.length := by
  cases xs with
  | nil => rw [distance]
  | cons x xs =>
      rw [distance]
      rintro ⟨⟩

theorem distance_cons (x y : α) (xs ys : List α) :
    distance (x :: xs) (y :: ys) =
      min (min (distance xs (y :: ys) + 1) (distance (x :: xs) ys + 1))
        (distance xs ys + cost x y) := by
  rw [distance]

theorem distance_delete_le (x : α) (xs ys : List α) :
    distance (x :: xs) ys ≤ distance xs ys + 1 := by
  cases ys with
  | nil =>
      have hle : (x :: xs).length ≤ xs.length + 1 := Nat.le_refl _
      simpa only [distance_nil_right] using hle
  | cons y ys =>
      rw [distance_cons]
      omega

theorem distance_insert_le (y : α) (xs ys : List α) :
    distance xs (y :: ys) ≤ distance xs ys + 1 := by
  cases xs with
  | nil =>
      have hle : (y :: ys).length ≤ ys.length + 1 := Nat.le_refl _
      simpa only [distance_nil_left] using hle
  | cons x xs =>
      rw [distance_cons]
      omega

theorem distance_le {xs ys : List α} {n : Nat} (h : Edits xs ys n) : distance xs ys ≤ n := by
  induction h with
  | nil => exact (distance_nil_left []).le
  | @delete x xs ys n _ ih =>
      have hle := distance_delete_le x xs ys
      omega
  | @insert y xs ys n _ ih =>
      have hle := distance_insert_le y xs ys
      omega
  | replace x y _ ih =>
      rw [distance_cons]
      omega

theorem edits_insert (ys : List α) : Edits [] ys ys.length := by
  induction ys with
  | nil => exact .nil
  | cons y ys ih => exact .insert y ih

theorem edits_delete (xs : List α) : Edits xs [] xs.length := by
  induction xs with
  | nil => exact .nil
  | cons x xs ih => exact .delete x ih

theorem edits_distance (xs ys : List α) : Edits xs ys (distance xs ys) := by
  induction xs, ys using distance.induct with
  | case1 ys =>
      rw [distance_nil_left]
      exact edits_insert ys
  | case2 xs _ =>
      rw [distance_nil_right]
      exact edits_delete xs
  | case3 x xs y ys ihDelete ihInsert ihReplace =>
      rw [distance_cons]
      rcases min_choice (min (distance xs (y :: ys) + 1) (distance (x :: xs) ys + 1))
        (distance xs ys + cost x y) with h | h
      · rw [h]
        rcases min_choice (distance xs (y :: ys) + 1) (distance (x :: xs) ys + 1) with h | h
        · rw [h]
          exact ihDelete.delete x
        · rw [h]
          exact ihInsert.insert y
      · rw [h]
        exact ihReplace.replace x y

theorem Edits.symm {xs ys : List α} {n : Nat} (h : Edits xs ys n) : Edits ys xs n := by
  induction h with
  | nil => exact .nil
  | delete x _ ih => exact ih.insert x
  | insert y _ ih => exact ih.delete y
  | replace x y _ ih =>
      rw [cost_comm]
      exact ih.replace y x

theorem Edits.append {xs ys xs' ys' : List α} {n k : Nat} (h : Edits xs ys n)
    (h' : Edits xs' ys' k) : Edits (xs ++ xs') (ys ++ ys') (n + k) := by
  induction h with
  | nil =>
      rw [Nat.zero_add]
      exact h'
  | delete x _ ih =>
      rw [Nat.add_right_comm]
      exact ih.delete x
  | insert y _ ih =>
      rw [Nat.add_right_comm]
      exact ih.insert y
  | replace x y _ ih =>
      rw [Nat.add_right_comm]
      exact ih.replace x y

theorem Edits.reverse {xs ys : List α} {n : Nat} (h : Edits xs ys n) :
    Edits xs.reverse ys.reverse n := by
  induction h with
  | nil => exact .nil
  | delete x _ ih =>
      rw [List.reverse_cons]
      simpa using ih.append (Edits.nil.delete x)
  | insert y _ ih =>
      rw [List.reverse_cons]
      simpa using ih.append (Edits.nil.insert y)
  | replace x y _ ih =>
      rw [List.reverse_cons, List.reverse_cons]
      simpa using ih.append (Edits.nil.replace x y)

theorem Edits.trans {xs ys zs : List α} {n k : Nat} (h : Edits xs ys n) (h' : Edits ys zs k) :
    ∃ l, l ≤ n + k ∧ Edits xs zs l := by
  induction h generalizing zs k with
  | nil => exact ⟨k, by omega, h'⟩
  | delete x _ ih =>
      obtain ⟨l, hl, hedits⟩ := ih h'
      exact ⟨l + 1, by omega, hedits.delete x⟩
  | @insert y xs ys n _ ih =>
      generalize hword : y :: ys = word at h'
      induction h' with
      | nil => cases hword
      | delete _ hrest _ =>
          cases hword
          obtain ⟨l, hl, hedits⟩ := ih hrest
          exact ⟨l, by omega, hedits⟩
      | insert z _ ihRest =>
          obtain ⟨l, hl, hedits⟩ := ihRest hword
          exact ⟨l + 1, by omega, hedits.insert z⟩
      | replace _ z hrest _ =>
          cases hword
          obtain ⟨l, hl, hedits⟩ := ih hrest
          exact ⟨l + 1, by omega, hedits.insert z⟩
  | @replace x y xs ys n _ ih =>
      generalize hword : y :: ys = word at h'
      induction h' with
      | nil => cases hword
      | delete _ hrest _ =>
          cases hword
          obtain ⟨l, hl, hedits⟩ := ih hrest
          exact ⟨l + 1, by omega, hedits.delete x⟩
      | insert z _ ihRest =>
          obtain ⟨l, hl, hedits⟩ := ihRest hword
          exact ⟨l + 1, by omega, hedits.insert z⟩
      | replace _ z hrest _ =>
          cases hword
          obtain ⟨l, hl, hedits⟩ := ih hrest
          have hcost := cost_triangle x y z
          exact ⟨l + cost x z, by omega, hedits.replace x z⟩

theorem distance_comm (xs ys : List α) : distance xs ys = distance ys xs := by
  apply Nat.le_antisymm
  · exact distance_le (edits_distance ys xs).symm
  · exact distance_le (edits_distance xs ys).symm

theorem distance_triangle (xs ys zs : List α) :
    distance xs zs ≤ distance xs ys + distance ys zs := by
  obtain ⟨l, hl, hedits⟩ := (edits_distance xs ys).trans (edits_distance ys zs)
  exact (distance_le hedits).trans hl

theorem eq_of_edits {xs ys : List α} (h : Edits xs ys 0) : xs = ys := by
  generalize hn : 0 = n at h
  induction h with
  | nil => rfl
  | delete => omega
  | insert => omega
  | replace x y _ ih =>
      have hxy : x = y := cost_eq_zero.mp (by omega)
      rw [hxy, ih (by omega)]

theorem distance_self (xs : List α) : distance xs xs = 0 := by
  induction xs with
  | nil => exact distance_nil_left []
  | cons x xs ih =>
      rw [distance_cons, ih, cost_self]
      omega

theorem distance_eq_zero {xs ys : List α} : distance xs ys = 0 ↔ xs = ys := by
  constructor
  · intro h
    exact eq_of_edits (h ▸ edits_distance xs ys)
  · rintro rfl
    exact distance_self xs

theorem distance_reverse (xs ys : List α) : distance xs.reverse ys.reverse = distance xs ys := by
  apply Nat.le_antisymm
  · exact distance_le (edits_distance xs ys).reverse
  · have hedits := (edits_distance xs.reverse ys.reverse).reverse
    rw [List.reverse_reverse, List.reverse_reverse] at hedits
    exact distance_le hedits

theorem distance_snoc (xs ys : List α) (x y : α) :
    distance (xs ++ [x]) (ys ++ [y]) =
      min (min (distance xs (ys ++ [y]) + 1) (distance (xs ++ [x]) ys + 1))
        (distance xs ys + cost x y) := by
  rw [← distance_reverse (xs ++ [x]), ← distance_reverse xs (ys ++ [y]),
    ← distance_reverse (xs ++ [x]) ys, ← distance_reverse xs ys, List.reverse_concat,
    List.reverse_concat, distance_cons]

theorem distance_take_succ {xs ys : List α} {i j : Nat} {x y : α} (hx : xs[i]? = some x)
    (hy : ys[j]? = some y) :
    distance (xs.take (i + 1)) (ys.take (j + 1)) =
      min (min (distance (xs.take i) (ys.take (j + 1)) + 1)
        (distance (xs.take (i + 1)) (ys.take j) + 1))
        (distance (xs.take i) (ys.take j) + cost x y) := by
  rw [List.take_add_one, List.take_add_one, hx, hy]
  exact distance_snoc _ _ x y

end X86Assembler.EditDistance
