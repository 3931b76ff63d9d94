import X86Assembler.SourceLines

namespace X86Assembler

open CString (Byte)

/-- The first line of a text whatever its length, the same with its newline, and what follows. -/
def textLine (text : List Byte) : List Byte × List Byte × List Byte :=
  let line := text.takeWhile fun b => b != 0x0A#8
  let rest := text.drop line.length
  if rest.head? = some 0x0A#8 then (line, line ++ [0x0A#8], rest.tail) else (line, line, rest)

inductive HasLine : List Byte → List Byte → Prop
  | first {text : List Byte} (h : text ≠ []) : HasLine text (textLine text).1
  | later {text line : List Byte} (h : text ≠ []) (hrest : HasLine (textLine text).2.2 line) :
      HasLine text line

/-- Every line of a text is shorter than `MAX_LINE_LENGTH`. -/
def ShortLines (text : List Byte) : Prop :=
  ∀ line, line <:+: text → 0x0A#8 ∉ line → line.length < maxLineLength

theorem shortLines_of_length {text : List Byte} (h : text.length < maxLineLength) :
    ShortLines text :=
  fun _ hline _ => Nat.lt_of_le_of_lt hline.length_le h

theorem textLine_fst (text : List Byte) :
    (textLine text).1 = text.takeWhile fun b => b != 0x0A#8 := by
  rw [textLine]
  split <;> rfl

theorem textLine_no_newline (text : List Byte) : 0x0A#8 ∉ (textLine text).1 := by
  rw [textLine_fst]
  intro hmem
  have hne := List.mem_takeWhile_imp hmem
  simp at hne

theorem mem_of_mem_line {text : List Byte} {b : Byte} (h : b ∈ (textLine text).1) : b ∈ text := by
  rw [textLine_fst] at h
  exact (List.takeWhile_prefix _).subset h

theorem mem_of_mem_rest {text : List Byte} {b : Byte} (h : b ∈ (textLine text).2.2) : b ∈ text := by
  rw [textLine] at h
  split at h
  · exact List.mem_of_mem_drop (List.mem_of_mem_tail h)
  · exact List.mem_of_mem_drop h

theorem readLine_eq_textLine {text : List Byte} (h : (textLine text).1.length < maxLineLength) :
    readLine text = textLine text := by
  rw [textLine_fst] at h
  have htake : (text.takeWhile fun b => b != 0x0A#8).take (maxLineLength - 1) =
      text.takeWhile fun b => b != 0x0A#8 := by
    apply List.take_of_length_le
    omega
  rw [readLine, textLine, htake]

theorem ShortLines.first {text : List Byte} (h : ShortLines text) :
    (textLine text).1.length < maxLineLength := by
  apply h _ _ (textLine_no_newline text)
  rw [textLine_fst]
  exact (List.takeWhile_prefix _).isInfix

theorem ShortLines.suffix {before text : List Byte} (h : ShortLines (before ++ text)) :
    ShortLines text := by
  intro line hline hnewline
  exact h line (hline.trans (List.suffix_append before text).isInfix) hnewline

theorem ShortLines.readLine_eq {text : List Byte} (h : ShortLines text) :
    readLine text = textLine text :=
  readLine_eq_textLine h.first

theorem ShortLines.rest {text : List Byte} (h : ShortLines text) :
    ShortLines (textLine text).2.2 := by
  rw [← h.readLine_eq]
  rw [readLine_split text] at h
  exact h.suffix

def textLinesIn : Nat → List Byte → List (List Byte)
  | 0, _ => []
  | n + 1, text =>
    if text = [] then [] else (textLine text).1 :: textLinesIn n (textLine text).2.2

/-- The lines of a text in their order; each takes at least a character. -/
def textLines (text : List Byte) : List (List Byte) := textLinesIn text.length text

theorem textLine_split (text : List Byte) :
    text = (textLine text).2.1 ++ (textLine text).2.2 := by
  obtain ⟨rest, hrest⟩ := @List.takeWhile_prefix _ text fun b => b != 0x0A#8
  rw [textLine]
  generalize (text.takeWhile fun b => b != 0x0A#8) = line at hrest
  rw [← hrest, List.drop_left]
  cases rest with
  | nil => simp
  | cons b rest =>
      by_cases hb : b = 0x0A#8
      · subst hb
        simp
      · simp [hb]

theorem textLine_rest_lt {text : List Byte} (h : text ≠ []) :
    (textLine text).2.2.length < text.length := by
  obtain ⟨b, bs, rfl⟩ := List.exists_cons_of_ne_nil h
  by_cases hb : b = 0x0A#8
  · subst hb
    exact Nat.lt_succ_self _
  · have hsplit := congrArg List.length (textLine_split (b :: bs))
    have hraw : 0 < (textLine (b :: bs)).2.1.length := by
      rw [textLine, List.takeWhile_cons_of_pos (by simpa using hb)]
      split
      · exact Nat.succ_pos _
      · exact Nat.succ_pos _
    rw [List.length_append] at hsplit
    omega

theorem textLinesIn_succ {n : Nat} {text : List Byte} (h : text ≠ []) :
    textLinesIn (n + 1) text = (textLine text).1 :: textLinesIn n (textLine text).2.2 := if_neg h

theorem textLinesIn_more {n : Nat} {text : List Byte} (h : text.length ≤ n) :
    textLinesIn (n + 1) text = textLinesIn n text := by
  induction n generalizing text with
  | zero =>
      rw [List.length_eq_zero_iff.mp (Nat.le_zero.mp h)]
      rfl
  | succ n ih =>
      by_cases hne : text = []
      · rw [hne]
        rfl
      · have hlt := textLine_rest_lt hne
        rw [textLinesIn_succ hne, textLinesIn_succ hne,
          ih (Nat.le_of_lt_succ (Nat.lt_of_lt_of_le hlt h))]

theorem textLinesIn_enough {n : Nat} {text : List Byte} (h : text.length ≤ n) :
    textLinesIn n text = textLines text := by
  induction n, h using Nat.le_induction with
  | base => rfl
  | succ n h ih => rw [textLinesIn_more h, ih]

theorem textLines_of_ne {text : List Byte} (h : text ≠ []) :
    textLines text = (textLine text).1 :: textLines (textLine text).2.2 := by
  have hlt := textLine_rest_lt h
  obtain ⟨n, hn⟩ := Nat.exists_eq_add_one_of_ne_zero (Nat.ne_of_gt (Nat.zero_lt_of_lt hlt))
  rw [textLines, hn, textLinesIn_succ h]
  rw [hn] at hlt
  exact congrArg _ (textLinesIn_enough (Nat.le_of_lt_succ hlt))

theorem readLine_fst (text : List Byte) :
    (readLine text).1 = (textLine text).1.take (maxLineLength - 1) := by
  rw [readLine, textLine_fst]
  split <;> rfl

theorem textLinesIn_eq {n : Nat} {text : List Byte} (h : ShortLines text) :
    textLinesIn n text = (readLines n text).map Prod.fst := by
  induction n generalizing text with
  | zero => rfl
  | succ n ih =>
      rw [textLinesIn, readLines]
      by_cases hne : text = []
      · rw [if_pos hne, if_pos hne]
        rfl
      · rw [if_neg hne, if_neg hne, ih h.rest, h.readLine_eq]
        rfl

theorem textLines_eq {text : List Byte} (h : ShortLines text) :
    textLines text = (sourceLines text).map Prod.fst :=
  textLinesIn_eq h

end X86Assembler
