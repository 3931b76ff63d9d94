import Mathlib.Data.List.Nodup
import Mathlib.Logic.Function.Basic

namespace X86Assembler.HashChain

variable {κ ε : Type} [DecidableEq κ] (key : ε → κ) (index : κ → Nat)

abbrev Table (ε : Type) := Nat → List ε

def lookup (t : Table ε) (k : κ) : Option ε :=
  (t (index k)).find? (fun e => key e == k)

def insert (t : Table ε) (e : ε) : Table ε :=
  Function.update t (index (key e)) (e :: t (index (key e)))

def modifyFirst (p : ε → Bool) (f : ε → ε) : List ε → List ε
  | [] => []
  | e :: es => if p e then f e :: es else e :: modifyFirst p f es

/-- Change the entry that `lookup` finds, where it stands. -/
def modify (t : Table ε) (k : κ) (f : ε → ε) : Table ε :=
  Function.update t (index k) (modifyFirst (fun e => key e == k) f (t (index k)))

variable {key index}

theorem lookup_insert (t : Table ε) (e : ε) (k : κ) :
    lookup key index (insert key index t e) k =
      if key e = k then some e else lookup key index t k := by
  by_cases hk : key e = k
  · subst hk
    simp [lookup, insert]
  · by_cases hi : index k = index (key e)
    · simp [lookup, insert, hi, hk]
    · simp [lookup, insert, hi, hk]

theorem find?_modifyFirst_key (f : ε → ε) (hf : ∀ e, key (f e) = key e) (k j : κ) (es : List ε) :
    (modifyFirst (fun e => key e == k) f es).find? (fun e => key e == j) =
      if k = j then (es.find? (fun e => key e == k)).map f
      else es.find? (fun e => key e == j) := by
  induction es with
  | nil => simp [modifyFirst]
  | cons e es ih =>
      by_cases hk : key e = k
      · subst hk
        by_cases hj : key e = j
        · simp [modifyFirst, hf, hj]
        · simp [modifyFirst, hf, hj]
      · by_cases hj : key e = j
        · subst hj
          simp [modifyFirst, hk, Ne.symm hk]
        · rw [modifyFirst, if_neg (by simpa using hk), List.find?_cons_of_neg (by simpa using hj),
            ih, List.find?_cons_of_neg (by simpa using hk), List.find?_cons_of_neg (by simpa using hj)]

theorem lookup_modify (t : Table ε) (k j : κ) (f : ε → ε) (hf : ∀ e, key (f e) = key e) :
    lookup key index (modify key index t k f) j =
      if k = j then (lookup key index t k).map f else lookup key index t j := by
  by_cases hi : index j = index k
  · rw [lookup, modify, hi, Function.update_self, find?_modifyFirst_key f hf]
    simp only [lookup, hi]
  · have hne : k ≠ j := fun h => hi (h ▸ rfl)
    rw [lookup, modify, Function.update_of_ne hi, if_neg hne, lookup]

omit [DecidableEq κ] in
theorem keys_modifyFirst (p : ε → Bool) (f : ε → ε) (hf : ∀ e, key (f e) = key e) (es : List ε) :
    (modifyFirst p f es).map key = es.map key := by
  induction es with
  | nil => rfl
  | cons e es ih =>
      rw [modifyFirst]
      split
      · rw [List.map_cons, List.map_cons, hf]
      · rw [List.map_cons, List.map_cons, ih]

/-- Every entry is in the chain of its key, and no chain holds a key twice. -/
structure Distinct (key : ε → κ) (index : κ → Nat) (t : Table ε) : Prop where
  placed : ∀ i, ∀ k ∈ (t i).map key, index k = i
  nodup : ∀ i, ((t i).map key).Nodup

omit [DecidableEq κ] in
theorem distinct_empty : Distinct key index (fun _ => ([] : List ε)) :=
  ⟨fun _ _ h => absurd h List.not_mem_nil, fun _ => List.nodup_nil⟩

theorem Distinct.insert {t : Table ε} (h : Distinct key index t) {e : ε}
    (hnone : lookup key index t (key e) = none) : Distinct key index (insert key index t e) := by
  have hnew : key e ∉ (t (index (key e))).map key := by
    intro hmem
    obtain ⟨e', he', hkey⟩ := List.mem_map.mp hmem
    have hne := List.find?_eq_none.mp hnone e' he'
    simp [hkey] at hne
  constructor
  · intro i k hk
    by_cases hi : i = index (key e)
    · subst hi
      rw [HashChain.insert, Function.update_self, List.map_cons] at hk
      rcases List.mem_cons.mp hk with rfl | hk
      · rfl
      · exact h.placed _ k hk
    · rw [HashChain.insert, Function.update_of_ne hi] at hk
      exact h.placed i k hk
  · intro i
    by_cases hi : i = index (key e)
    · subst hi
      rw [HashChain.insert, Function.update_self, List.map_cons]
      exact List.nodup_cons.mpr ⟨hnew, h.nodup _⟩
    · rw [HashChain.insert, Function.update_of_ne hi]
      exact h.nodup i

theorem Distinct.modify {t : Table ε} (h : Distinct key index t) (k : κ) (f : ε → ε)
    (hf : ∀ e, key (f e) = key e) : Distinct key index (modify key index t k f) := by
  have hkeys : ∀ i, (HashChain.modify key index t k f i).map key = (t i).map key := by
    intro i
    by_cases hi : i = index k
    · subst hi
      rw [HashChain.modify, Function.update_self, keys_modifyFirst _ f hf]
    · rw [HashChain.modify, Function.update_of_ne hi]
  constructor
  · intro i k' hk'
    rw [hkeys] at hk'
    exact h.placed i k' hk'
  · intro i
    rw [hkeys]
    exact h.nodup i

end X86Assembler.HashChain
