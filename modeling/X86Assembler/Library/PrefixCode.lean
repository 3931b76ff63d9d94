import Mathlib.Data.List.Basic

namespace X86Assembler.PrefixCode

variable {α ι κ : Type}

/-- A reader of whole words: it takes no empty word, and none that goes on behind another. -/
structure PrefixFree (read : List α → Option ι) : Prop where
  nil : read [] = none
  ends : ∀ {word rest : List α} {i j : ι}, read word = some i → read (word ++ rest) = some j →
    rest = []

/-- A text as words, one after the other, that stand for these values. -/
inductive Spells (read : List α → Option ι) : List α → List ι → Prop
  | nil : Spells read [] []
  | cons {word rest : List α} {i : ι} {is : List ι} : read word = some i → Spells read rest is →
      Spells read (word ++ rest) (i :: is)

variable {read : List α → Option ι}

theorem Spells.one {word : List α} {i : ι} (h : read word = some i) : Spells read word [i] := by
  have hone := Spells.cons h Spells.nil
  rwa [List.append_nil] at hone

theorem Spells.append {as bs : List α} {is js : List ι} (ha : Spells read as is)
    (hb : Spells read bs js) : Spells read (as ++ bs) (is ++ js) := by
  induction ha with
  | nil => exact hb
  | cons hword _ ih =>
      rw [List.append_assoc]
      exact .cons hword ih

section PrefixFree

variable (hfree : PrefixFree read)

include hfree

theorem PrefixFree.ne_nil {word : List α} {i : ι} (h : read word = some i) : word ≠ [] := by
  rintro rfl
  rw [hfree.nil] at h
  cases h

theorem PrefixFree.word_eq {word word' rest rest' : List α} {i i' : ι} (h : read word = some i)
    (h' : read word' = some i') (heq : word ++ rest = word' ++ rest') :
    word = word' ∧ rest = rest' := by
  rcases List.append_eq_append_iff.mp heq with ⟨more, hword, hrest⟩ | ⟨more, hword, hrest⟩
  · rw [hword] at h'
    have hmore := hfree.ends h h'
    subst hmore
    exact ⟨by rw [hword, List.append_nil], hrest⟩
  · rw [hword] at h
    have hmore := hfree.ends h' h
    subst hmore
    exact ⟨by rw [hword, List.append_nil], hrest.symm⟩

theorem PrefixFree.unique {bs : List α} {is js : List ι} (hi : Spells read bs is)
    (hj : Spells read bs js) : is = js := by
  induction hi generalizing js with
  | nil =>
      generalize htext : ([] : List α) = text at hj
      cases hj with
      | nil => rfl
      | cons hword _ =>
          exact absurd (List.append_eq_nil_iff.mp htext.symm).1 (hfree.ne_nil hword)
  | @cons word rest i is hword _ ih =>
      generalize htext : word ++ rest = text at hj
      cases hj with
      | nil => exact absurd (List.append_eq_nil_iff.mp htext).1 (hfree.ne_nil hword)
      | @cons word' rest' j js hword' hrest =>
          obtain ⟨rfl, rfl⟩ := hfree.word_eq hword hword' htext
          cases hword.symm.trans hword'
          rw [ih hrest]

end PrefixFree

/-- The shortest word at the front of a text, with what follows it. -/
def firstWord (read : List α → Option ι) (bs : List α) : Option (ι × List α) :=
  (List.range (bs.length + 1)).findSome? fun n => (read (bs.take n)).map fun i => (i, bs.drop n)

def readAll (read : List α → Option ι) : Nat → List α → Option (List ι)
  | _, [] => some []
  | 0, _ :: _ => none
  | n + 1, bs => (firstWord read bs).bind fun found => (readAll read n found.2).map (found.1 :: ·)

theorem firstWord_eq_some {bs rest : List α} {i : ι} (h : firstWord read bs = some (i, rest)) :
    ∃ word, bs = word ++ rest ∧ read word = some i := by
  obtain ⟨n, -, hn⟩ := List.exists_of_findSome?_eq_some h
  obtain ⟨j, hj, heq⟩ := Option.map_eq_some_iff.mp hn
  cases heq
  exact ⟨bs.take n, (List.take_append_drop n bs).symm, hj⟩

theorem firstWord_append (hfree : PrefixFree read) {word rest : List α} {i : ι}
    (h : read word = some i) : firstWord read (word ++ rest) = some (i, rest) := by
  have hsome : (firstWord read (word ++ rest)).isSome := by
    rw [firstWord, List.findSome?_isSome_iff]
    refine ⟨word.length, List.mem_range.mpr ?_, ?_⟩
    · rw [List.length_append]
      omega
    · rw [List.take_left, h]
      rfl
  obtain ⟨⟨j, rest'⟩, hfound⟩ := Option.isSome_iff_exists.mp hsome
  obtain ⟨word', htext, hword'⟩ := firstWord_eq_some hfound
  obtain ⟨rfl, rfl⟩ := hfree.word_eq h hword' htext
  cases h.symm.trans hword'
  exact hfound

theorem readAll_spells {n : Nat} {bs : List α} {is : List ι} (h : readAll read n bs = some is) :
    Spells read bs is := by
  induction n generalizing bs is with
  | zero =>
      cases bs with
      | nil =>
          cases h
          exact .nil
      | cons b bs => cases h
  | succ n ih =>
      cases bs with
      | nil =>
          cases h
          exact .nil
      | cons b bs =>
          obtain ⟨⟨i, rest⟩, hfirst, hmore⟩ := Option.bind_eq_some_iff.mp h
          obtain ⟨js, hjs, rfl⟩ := Option.map_eq_some_iff.mp hmore
          obtain ⟨word, htext, hword⟩ := firstWord_eq_some hfirst
          rw [htext]
          exact .cons hword (ih hjs)

theorem Spells.readAll (hfree : PrefixFree read) {bs : List α} {is : List ι}
    (h : Spells read bs is) {n : Nat} (hn : bs.length ≤ n) : readAll read n bs = some is := by
  induction h generalizing n with
  | nil => cases n <;> rfl
  | @cons word rest i is hword _ ih =>
      have hpos := List.length_pos_iff.mpr (hfree.ne_nil hword)
      rw [List.length_append] at hn
      obtain ⟨b, tail, htext⟩ := List.exists_cons_of_length_pos
        (by rw [List.length_append]; omega : 0 < (word ++ rest).length)
      cases n with
      | zero => omega
      | succ n =>
          have hfirst := @firstWord_append _ _ _ hfree _ rest _ hword
          rw [htext] at hfirst ⊢
          show (firstWord read (b :: tail)).bind _ = _
          rw [hfirst, Option.bind_some, ih (by omega)]
          rfl

theorem readAll_iff (hfree : PrefixFree read) {bs : List α} {is : List ι} :
    PrefixCode.readAll read bs.length bs = some is ↔ Spells read bs is :=
  ⟨readAll_spells, fun h => h.readAll hfree (Nat.le_refl _)⟩

def either (first : List α → Option ι) (second : List α → Option κ) (bs : List α) :
    Option (ι ⊕ κ) :=
  ((first bs).map .inl).or ((second bs).map .inr)

theorem either_eq_some {first : List α → Option ι} {second : List α → Option κ} {bs : List α}
    {v : ι ⊕ κ} (h : either first second bs = some v) :
    (∃ i, first bs = some i) ∨ ∃ k, second bs = some k := by
  rcases Option.or_eq_some_iff.mp h with h | ⟨-, h⟩
  · obtain ⟨i, hi, -⟩ := Option.map_eq_some_iff.mp h
    exact .inl ⟨i, hi⟩
  · obtain ⟨k, hk, -⟩ := Option.map_eq_some_iff.mp h
    exact .inr ⟨k, hk⟩

theorem PrefixFree.either {first : List α → Option ι} {second : List α → Option κ}
    (h₁ : PrefixFree first) (h₂ : PrefixFree second)
    (h₁₂ : ∀ {word rest i k}, first word = some i → second (word ++ rest) ≠ some k)
    (h₂₁ : ∀ {word rest i k}, second word = some k → first (word ++ rest) ≠ some i) :
    PrefixFree (either first second) where
  nil := by
    rw [PrefixCode.either, h₁.nil, h₂.nil]
    rfl
  ends := by
    intro word rest v w hv hw
    rcases either_eq_some hv with ⟨i, hi⟩ | ⟨k, hk⟩
    · rcases either_eq_some hw with ⟨j, hj⟩ | ⟨l, hl⟩
      · exact h₁.ends hi hj
      · exact absurd hl (h₁₂ hi)
    · rcases either_eq_some hw with ⟨j, hj⟩ | ⟨l, hl⟩
      · exact absurd hj (h₂₁ hk)
      · exact h₂.ends hk hl

end X86Assembler.PrefixCode
