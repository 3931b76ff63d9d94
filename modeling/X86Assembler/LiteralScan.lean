import X86Assembler.TimesExpansion

namespace X86Assembler

open CString (Byte isSpace)

/-- The characters of a literal after its opening quote, as `next_token` reads it; none where
no literal stands. -/
def literalTail (b : Byte) (bs : List Byte) : Nat :=
  if b = 0x27#8 then bs.length - (lexChar bs).2.length
  else if b = 0x22#8 then bs.length - (lexString (maxLineLength - 1) bs).2.length
  else 0

def startsComment (b : Byte) (bs : List Byte) : Bool :=
  b = 0x3B#8 || (b = 0x2F#8 && bs.head? = some 0x2F#8)

/-- A line up to its comment, passing over the rest of a literal first. -/
def codeTextFrom : Nat → List Byte → List Byte
  | _, [] => []
  | n + 1, b :: bs => b :: codeTextFrom n bs
  | 0, b :: bs => if startsComment b bs then [] else b :: codeTextFrom (literalTail b bs) bs

/-- A line up to its comment, which does not start within a literal. -/
def codeText (line : List Byte) : List Byte := codeTextFrom 0 line

theorem startsComment_space {b : Byte} {bs : List Byte} (h : startsComment b bs = true) :
    isSpace b = false := by
  rw [startsComment, Bool.or_eq_true, decide_eq_true_eq, Bool.and_eq_true, decide_eq_true_eq] at h
  rcases h with rfl | ⟨rfl, -⟩
  · rfl
  · rfl

theorem codeTextFrom_isPrefix (n : Nat) (line : List Byte) : codeTextFrom n line <+: line := by
  induction line generalizing n with
  | nil => cases n <;> exact List.prefix_refl _
  | cons b bs ih =>
      cases n with
      | succ n => exact List.prefix_cons_inj b |>.mpr (ih n)
      | zero =>
          rw [codeTextFrom]
          split
          · exact List.nil_prefix
          · exact List.prefix_cons_inj b |>.mpr (ih _)

theorem codeText_isPrefix (line : List Byte) : codeText line <+: line := codeTextFrom_isPrefix 0 line

theorem uptoComment_cons (b : Byte) (bs : List Byte) : uptoComment (b :: bs) =
    if b = 0x0A#8 ∨ startsComment b bs = true then [] else b :: uptoComment bs := by
  rw [uptoComment, Bool.or_assoc, ← startsComment]
  simp only [Bool.or_eq_true, decide_eq_true_eq]

theorem uptoComment_codeTextFrom {line : List Byte} (hline : 0x0A#8 ∉ line) (n : Nat) :
    codeTextFrom n line = uptoComment line ∨
      ∃ b rest, codeTextFrom n line = uptoComment line ++ b :: rest ∧ isSpace b = false := by
  induction line generalizing n with
  | nil => cases n <;> exact .inl rfl
  | cons b bs ih =>
      rw [List.mem_cons, not_or] at hline
      have hb : b ≠ 0x0A#8 := Ne.symm hline.1
      rw [uptoComment_cons]
      cases n with
      | succ n =>
          rw [codeTextFrom]
          by_cases hmark : startsComment b bs = true
          · rw [if_pos (.inr hmark)]
            exact .inr ⟨b, codeTextFrom n bs, rfl, startsComment_space hmark⟩
          · rw [if_neg (not_or.mpr ⟨hb, hmark⟩)]
            rcases ih hline.2 n with heq | ⟨m, rest, heq, hm⟩
            · exact .inl (congrArg _ heq)
            · exact .inr ⟨m, rest, congrArg _ heq, hm⟩
      | zero =>
          rw [codeTextFrom]
          by_cases hmark : startsComment b bs = true
          · rw [if_pos hmark, if_pos (.inr hmark)]
            exact .inl rfl
          · rw [if_neg hmark, if_neg (not_or.mpr ⟨hb, hmark⟩)]
            rcases ih hline.2 (literalTail b bs) with heq | ⟨m, rest, heq, hm⟩
            · exact .inl (congrArg _ heq)
            · exact .inr ⟨m, rest, congrArg _ heq, hm⟩

theorem length_trimTrailingWs {text rest : List Byte} {b : Byte} (hb : isSpace b = false) :
    text.length < (trimTrailingWs (text ++ b :: rest)).length := by
  have hdrop : ∀ front : List Byte,
      text.length < ((front ++ b :: text.reverse).dropWhile isSpace).length := by
    intro front
    induction front with
    | nil => simp [hb]
    | cons c front ih =>
        rw [List.cons_append, List.dropWhile_cons]
        split
        · exact ih
        · simp only [List.length_cons, List.length_append, List.length_reverse]
          omega
  rw [trimTrailingWs, List.length_reverse, List.reverse_append, List.reverse_cons,
    List.append_assoc]
  exact hdrop _

theorem trimTrailingWs_uptoComment {line : List Byte} (hline : 0x0A#8 ∉ line) :
    uptoComment line = codeText line ∨
      (trimTrailingWs (uptoComment line)).length < (trimTrailingWs (codeText line)).length := by
  rcases uptoComment_codeTextFrom hline 0 with heq | ⟨b, rest, heq, hb⟩
  · exact .inl heq.symm
  · right
    calc (trimTrailingWs (uptoComment line)).length
        ≤ (uptoComment line).length := (trimTrailingWs_isPrefix _).length_le
      _ < (trimTrailingWs (codeText line)).length := by
        rw [codeText, heq]
        exact length_trimTrailingWs hb

end X86Assembler
