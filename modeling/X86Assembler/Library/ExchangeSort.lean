import Mathlib.Data.List.Sort
import Mathlib.Order.Defs.LinearOrder

namespace X86Assembler.ExchangeSort

variable {α κ : Type} [LinearOrder κ] (key : α → κ)

/-- The inner loop: the element is exchanged with each later one that is smaller. -/
def exchange (x : α) : List α → α × List α
  | [] => (x, [])
  | y :: ys =>
    if key y < key x then
      let r := exchange y ys
      (r.1, x :: r.2)
    else
      let r := exchange x ys
      (r.1, y :: r.2)

def sortFirst : Nat → List α → List α
  | 0, l => l
  | _ + 1, [] => []
  | n + 1, x :: xs =>
    let r := exchange key x xs
    r.1 :: sortFirst n r.2

def sort (l : List α) : List α := sortFirst key l.length l

variable {key}

theorem exchange_perm (x : α) (ys : List α) :
    ((exchange key x ys).1 :: (exchange key x ys).2).Perm (x :: ys) := by
  induction ys generalizing x with
  | nil => exact List.Perm.refl _
  | cons y ys ih =>
      rw [exchange]
      split
      · exact (List.Perm.swap _ _ _).trans ((ih y).cons x)
      · exact (List.Perm.swap _ _ _).trans (((ih x).cons y).trans (List.Perm.swap _ _ _))

theorem exchange_length (x : α) (ys : List α) : (exchange key x ys).2.length = ys.length :=
  Nat.succ.inj (exchange_perm x ys).length_eq

theorem exchange_le (x : α) (ys : List α) :
    key (exchange key x ys).1 ≤ key x ∧ ∀ y ∈ ys, key (exchange key x ys).1 ≤ key y := by
  induction ys generalizing x with
  | nil => exact ⟨le_refl _, List.forall_mem_nil _⟩
  | cons y ys ih =>
      rw [exchange]
      split
      · next hlt =>
          obtain ⟨hy, hys⟩ := ih y
          exact ⟨hy.trans hlt.le, List.forall_mem_cons.mpr ⟨hy, hys⟩⟩
      · next hle =>
          obtain ⟨hx, hys⟩ := ih x
          exact ⟨hx, List.forall_mem_cons.mpr ⟨hx.trans (not_lt.mp hle), hys⟩⟩

theorem sortFirst_perm (n : Nat) (l : List α) : (sortFirst key n l).Perm l := by
  induction n generalizing l with
  | zero => exact List.Perm.refl _
  | succ n ih =>
      cases l with
      | nil => exact List.Perm.refl _
      | cons x xs => exact ((ih _).cons _).trans (exchange_perm x xs)

theorem sort_perm (l : List α) : (sort key l).Perm l := sortFirst_perm l.length l

theorem sortFirst_sorted (n : Nat) {l : List α} (hn : l.length ≤ n) :
    (sortFirst key n l).Pairwise fun a b => key a ≤ key b := by
  induction n generalizing l with
  | zero =>
      cases List.length_eq_zero_iff.mp (Nat.le_zero.mp hn)
      exact List.Pairwise.nil
  | succ n ih =>
      cases l with
      | nil => exact List.Pairwise.nil
      | cons x xs =>
          have hlen : (exchange key x xs).2.length ≤ n := by
            rw [exchange_length]
            exact Nat.le_of_succ_le_succ hn
          refine List.Pairwise.cons ?_ (ih hlen)
          intro b hb
          have hmem := (exchange_perm x xs).subset
            (List.mem_cons_of_mem _ ((sortFirst_perm n _).subset hb))
          obtain ⟨hx, hxs⟩ := @exchange_le α κ _ key x xs
          rcases List.mem_cons.mp hmem with rfl | hmem
          · exact hx
          · exact hxs b hmem

theorem sort_sorted (l : List α) : (sort key l).Pairwise fun a b => key a ≤ key b :=
  sortFirst_sorted l.length (Nat.le_refl _)

end X86Assembler.ExchangeSort
