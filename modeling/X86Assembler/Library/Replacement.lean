import Mathlib.Data.List.Basic
import Mathlib.Tactic.Common

namespace X86Assembler

namespace Replacement

variable {α : Type}

/-- What stands for a symbol that others follow, and how many of those it takes with it; nothing
where the symbol stands for itself. -/
abbrev Rule (α : Type) := α → List α → Option (List α × Nat)

/-- Every place of a text replaced at once, passing over `skip` symbols. -/
def replace (rule : Rule α) : Nat → List α → List α
  | _, [] => []
  | skip + 1, _ :: bs => replace rule skip bs
  | 0, b :: bs =>
    match rule b bs with
    | some (text, n) => text ++ replace rule n bs
    | none => b :: replace rule 0 bs

/-- The same with room for a number of symbols. What does not fit is left out. -/
def replaceWithin (rule : Rule α) : Nat → Nat → List α → List α
  | _, _, [] => []
  | room, skip + 1, _ :: bs => replaceWithin rule room skip bs
  | room, 0, b :: bs =>
    if room = 0 then []
    else
      match rule b bs with
      | some (text, n) =>
        let text := if text.length ≤ room then text else []
        text ++ replaceWithin rule (room - text.length) n bs
      | none => b :: replaceWithin rule (room - 1) 0 bs

section Steps

variable {rule : Rule α} {b : α} {bs text : List α} {n room : Nat}

theorem replace_some (h : rule b bs = some (text, n)) :
    replace rule 0 (b :: bs) = text ++ replace rule n bs := by
  rw [replace, h]

theorem replace_none (h : rule b bs = none) :
    replace rule 0 (b :: bs) = b :: replace rule 0 bs := by
  rw [replace, h]

theorem replaceWithin_zero (skip : Nat) (bs : List α) : replaceWithin rule 0 skip bs = [] := by
  induction bs generalizing skip with
  | nil => rw [replaceWithin]
  | cons b bs ih =>
      cases skip with
      | zero => rw [replaceWithin, if_pos rfl]
      | succ skip => rw [replaceWithin, ih]

theorem replaceWithin_fits (hroom : room ≠ 0) (h : rule b bs = some (text, n))
    (hfits : text.length ≤ room) : replaceWithin rule room 0 (b :: bs) =
      text ++ replaceWithin rule (room - text.length) n bs := by
  rw [replaceWithin, if_neg hroom, h]
  dsimp only
  rw [if_pos hfits]

theorem replaceWithin_dropped (hroom : room ≠ 0) (h : rule b bs = some (text, n))
    (hfits : ¬ text.length ≤ room) :
    replaceWithin rule room 0 (b :: bs) = replaceWithin rule room n bs := by
  rw [replaceWithin, if_neg hroom, h]
  dsimp only
  rw [if_neg hfits, List.length_nil, Nat.sub_zero, List.nil_append]

theorem replaceWithin_none (hroom : room ≠ 0) (h : rule b bs = none) :
    replaceWithin rule room 0 (b :: bs) = b :: replaceWithin rule (room - 1) 0 bs := by
  rw [replaceWithin, if_neg hroom, h]

end Steps

theorem length_replaceWithin_le_room (rule : Rule α) (room skip : Nat) (bs : List α) :
    (replaceWithin rule room skip bs).length ≤ room := by
  induction bs generalizing room skip with
  | nil => exact Nat.zero_le _
  | cons b bs ih =>
      cases skip with
      | succ skip => exact ih room skip
      | zero =>
          by_cases hroom : room = 0
          · subst hroom
            rw [replaceWithin_zero]
            exact Nat.le_refl _
          cases hrule : rule b bs with
          | none =>
              have hrest := ih (room - 1) 0
              rw [replaceWithin_none hroom hrule, List.length_cons]
              omega
          | some r =>
              by_cases hfits : r.1.length ≤ room
              · have hrest := ih (room - r.1.length) r.2
                rw [replaceWithin_fits hroom hrule hfits, List.length_append]
                omega
              · rw [replaceWithin_dropped hroom hrule hfits]
                exact ih room r.2

theorem length_replaceWithin_le (rule : Rule α) (room skip : Nat) (bs : List α) :
    (replaceWithin rule room skip bs).length ≤ (replace rule skip bs).length := by
  induction bs generalizing room skip with
  | nil => exact Nat.le_refl _
  | cons b bs ih =>
      cases skip with
      | succ skip => exact ih room skip
      | zero =>
          by_cases hroom : room = 0
          · subst hroom
            rw [replaceWithin_zero]
            exact Nat.zero_le _
          cases hrule : rule b bs with
          | none =>
              have hrest := ih (room - 1) 0
              rw [replaceWithin_none hroom hrule, replace_none hrule, List.length_cons,
                List.length_cons]
              omega
          | some r =>
              rw [replace_some hrule, List.length_append]
              by_cases hfits : r.1.length ≤ room
              · have hrest := ih (room - r.1.length) r.2
                rw [replaceWithin_fits hroom hrule hfits, List.length_append]
                omega
              · have hrest := ih room r.2
                rw [replaceWithin_dropped hroom hrule hfits]
                omega

theorem replaceWithin_of_length_le {rule : Rule α} {room skip : Nat} {bs : List α}
    (h : (replace rule skip bs).length ≤ room) :
    replaceWithin rule room skip bs = replace rule skip bs := by
  induction bs generalizing room skip with
  | nil => rfl
  | cons b bs ih =>
      cases skip with
      | succ skip => exact ih h
      | zero =>
          by_cases hroom : room = 0
          · subst hroom
            rw [replaceWithin_zero, List.length_eq_zero_iff.mp (Nat.le_zero.mp h)]
          cases hrule : rule b bs with
          | none =>
              rw [replace_none hrule, List.length_cons] at h
              rw [replaceWithin_none hroom hrule, replace_none hrule, ih (by omega)]
          | some r =>
              rw [replace_some hrule, List.length_append] at h
              rw [replaceWithin_fits hroom hrule (by omega), replace_some hrule, ih (by omega)]

theorem replaceWithin_eq_iff {rule : Rule α} {room skip : Nat} {bs : List α} :
    replaceWithin rule room skip bs = replace rule skip bs ↔
      (replace rule skip bs).length ≤ room := by
  constructor
  · intro h
    rw [← h]
    exact length_replaceWithin_le_room rule room skip bs
  · exact replaceWithin_of_length_le

/-- A rule that replaces a place that the other one leaves, which nothing passes over, gives
another text in every room. -/
theorem replaceWithin_ne_replace {rule rule' : Rule α} (special : α → List α → Prop)
    (hsame : ∀ b bs, ¬ special b bs → rule' b bs = rule b bs)
    (hleft : ∀ b bs, special b bs → rule b bs = none)
    (htaken : ∀ b bs, special b bs → ∃ c text n, c ≠ b ∧ rule' b bs = some (c :: text, n))
    (hvisit : ∀ b bs text n, rule b bs = some (text, n) →
      ∀ pre c post, bs = pre ++ c :: post → special c post → n ≤ pre.length)
    {room skip : Nat} {pre post : List α} {c : α} (hspecial : special c post)
    (hskip : skip ≤ pre.length) :
    replaceWithin rule room skip (pre ++ c :: post) ≠
      replace rule' skip (pre ++ c :: post) := by
  intro heq
  have hroom : (replace rule' skip (pre ++ c :: post)).length ≤ room := by
    rw [← heq]
    exact length_replaceWithin_le_room rule room skip _
  induction pre generalizing room skip with
  | nil =>
      obtain rfl : skip = 0 := Nat.le_zero.mp hskip
      obtain ⟨d, text, n, hd, htaken⟩ := htaken c post hspecial
      rw [List.nil_append, replace_some htaken] at heq hroom
      have hne : room ≠ 0 := by
        rintro rfl
        cases hroom
      rw [replaceWithin_none hne (hleft c post hspecial)] at heq
      exact hd (List.cons_eq_cons.mp heq).1.symm
  | cons b pre ih =>
      rw [List.cons_append] at heq hroom
      cases skip with
      | succ skip => exact ih (Nat.le_of_succ_le_succ hskip) heq hroom
      | zero =>
          by_cases hb : special b (pre ++ c :: post)
          · obtain ⟨d, text, n, hd, htaken⟩ := htaken b _ hb
            rw [replace_some htaken] at heq hroom
            have hne : room ≠ 0 := by
              rintro rfl
              cases hroom
            rw [replaceWithin_none hne (hleft b _ hb)] at heq
            exact hd (List.cons_eq_cons.mp heq).1.symm
          cases hrule : rule b (pre ++ c :: post) with
          | none =>
              rw [replace_none ((hsame b _ hb).trans hrule)] at heq hroom
              have hne : room ≠ 0 := by
                rintro rfl
                cases hroom
              rw [replaceWithin_none hne hrule] at heq
              rw [List.length_cons] at hroom
              exact ih (Nat.zero_le _) (List.cons_eq_cons.mp heq).2 (by omega)
          | some r =>
              have hn : r.2 ≤ pre.length := hvisit b _ r.1 r.2 hrule pre c post rfl hspecial
              rw [replace_some ((hsame b _ hb).trans hrule)] at heq hroom
              rw [List.length_append] at hroom
              by_cases hne : room = 0
              · subst hne
                rw [replaceWithin_zero] at heq
                have hnil := List.append_eq_nil_iff.mp heq.symm
                have hrest : replaceWithin rule 0 r.2 (pre ++ c :: post) =
                    replace rule' r.2 (pre ++ c :: post) := by
                  rw [replaceWithin_zero, hnil.2]
                apply ih hn hrest
                rw [hnil.2]
                exact Nat.le_refl _
              · rw [replaceWithin_fits hne hrule (by omega)] at heq
                exact ih hn (List.append_cancel_left heq) (by omega)

end Replacement

end X86Assembler
