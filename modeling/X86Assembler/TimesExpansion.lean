import X86Assembler.Parser

namespace X86Assembler

open CString (Byte str isDigit isXDigit isSpace startsWithIgnoreCase)

/-- The digits of a `times` count, which are summed up in an `int`, and what follows them. -/
def parseTimesDigits (base : Nat) (isBaseDigit : Byte → Bool) (text : List Byte) :
    BitVec 32 × List Byte :=
  ((text.takeWhile isBaseDigit).foldl
      (fun count b => count * BitVec.ofNat 32 base + BitVec.ofNat 32 (digitValue b)) 0,
    text.dropWhile isBaseDigit)

/-- `parse_times_count`: a positive count of at most 10000, decimal or hexadecimal. -/
def parseTimesCount (text : List Byte) : Option (Nat × List Byte) :=
  let text := if text.head? = some 0x24#8 then text.tail else text
  let (count, rest) := match text with
    | 0x30#8 :: b :: digits =>
      if CString.toLower b = 0x78#8 then parseTimesDigits 16 isXDigit digits
      else parseTimesDigits 10 isDigit text
    | _ => parseTimesDigits 10 isDigit text
  if 0 < count.toInt && count.toInt ≤ 10000 then some (count.toNat, rest) else none

def trimTrailingWs (text : List Byte) : List Byte := (text.reverse.dropWhile isSpace).reverse

def uptoComment : List Byte → List Byte
  | [] => []
  | b :: bs =>
    if b = 0x0A#8 || b = 0x3B#8 || (b = 0x2F#8 && bs.head? = some 0x2F#8) then []
    else b :: uptoComment bs

/-- `parse_times_directive`: the count and the statement to repeat. -/
def parseTimesDirective (line : List Byte) : Option (Nat × List Byte) :=
  let line := line.dropWhile isSpace
  if startsWithIgnoreCase line (str "times") then
    match parseTimesCount ((line.drop 5).dropWhile isSpace) with
    | some (count, rest) =>
      let statement :=
        trimTrailingWs ((uptoComment (rest.dropWhile isSpace)).take (maxLineLength - 1))
      if statement = [] then none else some (count, statement)
    | none => none
  else none

def appendOutput (size extra : Nat) (out text : List Byte) : List Byte :=
  if out.length + extra < size - 1 then out ++ text else out

def repeatStatement (size : Nat) (statement : List Byte) : Nat → List Byte → List Byte
  | 0, out => out
  | n + 1, out =>
    repeatStatement size statement n
      (appendOutput size (statement.length + 1) out (statement ++ [0x0A#8]))

/-- The first line of a text, at most `MAX_LINE_LENGTH - 1` characters of it, the same with
its newline, and what follows. -/
def readLine (source : List Byte) : List Byte × List Byte × List Byte :=
  let line := (source.takeWhile fun b => b != 0x0A#8).take (maxLineLength - 1)
  let rest := source.drop line.length
  if rest.head? = some 0x0A#8 then (line, line ++ [0x0A#8], rest.tail) else (line, line, rest)

theorem drop_takeWhile (p : Byte → Bool) (text : List Byte) :
    text.drop (text.takeWhile p).length = text.dropWhile p := by
  calc text.drop (text.takeWhile p).length
      = (text.takeWhile p ++ text.dropWhile p).drop (text.takeWhile p).length := by
        rw [List.takeWhile_append_dropWhile]
    _ = text.dropWhile p := List.drop_left

theorem head_dropWhile {p : Byte → Bool} {text : List Byte} {b : Byte}
    (h : b ∈ (text.dropWhile p).head?) : p b = false := by
  have hhead := List.head?_dropWhile_not p text
  rw [Option.mem_def.mp h] at hhead
  exact hhead

theorem readLine_split (source : List Byte) :
    source = (readLine source).2.1 ++ (readLine source).2.2 := by
  obtain ⟨rest, hrest⟩ := (List.take_prefix (maxLineLength - 1) _).trans
    (@List.takeWhile_prefix _ source fun b => b != 0x0A#8)
  rw [readLine]
  generalize (source.takeWhile fun b => b != 0x0A#8).take (maxLineLength - 1) = line at hrest
  rw [← hrest, List.drop_left]
  split
  · rename_i hnewline
    cases rest with
    | nil => cases hnewline
    | cons b rest =>
        cases hnewline
        simp only [List.tail_cons, List.append_assoc, List.singleton_append]
  · rfl

theorem readLine_rest_lt {source : List Byte} (h : source ≠ []) :
    (readLine source).2.2.length < source.length := by
  cases source with
  | nil => exact absurd rfl h
  | cons b bs =>
      by_cases hb : b = 0x0A#8
      · simp [readLine, hb]
      · have htake : ∃ l, ((b :: bs).takeWhile fun b => b != 0x0A#8).take (maxLineLength - 1) =
            b :: l := by
          refine ⟨(bs.takeWhile fun b => b != 0x0A#8).take (maxLineLength - 2), ?_⟩
          rw [List.takeWhile_cons_of_pos (by simpa using hb)]
          rfl
        obtain ⟨l, hl⟩ := htake
        have hdrop : ((b :: bs).drop (b :: l).length).length < (b :: bs).length := by
          simp only [List.length_drop, List.length_cons]
          omega
        simp only [readLine, hl]
        split
        · exact Nat.lt_of_le_of_lt (by rw [List.length_tail]; exact Nat.sub_le _ _) hdrop
        · exact hdrop

theorem readLine_isPrefix (text : List Byte) : (readLine text).1 <+: (readLine text).2.1 := by
  rw [readLine]
  split
  · exact List.prefix_append _ _
  · exact List.prefix_refl _

theorem uptoComment_isPrefix (text : List Byte) : uptoComment text <+: text := by
  induction text with
  | nil => exact List.prefix_refl _
  | cons b bs ih =>
      rw [uptoComment]
      split
      · exact List.nil_prefix
      · exact List.prefix_cons_inj b |>.mpr ih

theorem trimTrailingWs_isPrefix (text : List Byte) : trimTrailingWs text <+: text := by
  have hsuffix := List.reverse_prefix.mpr (@List.dropWhile_suffix _ text.reverse isSpace)
  rwa [List.reverse_reverse] at hsuffix

theorem parseTimesCount_suffix {text rest : List Byte} {count : Nat}
    (h : parseTimesCount text = some (count, rest)) : rest <:+ text := by
  have hread : ∀ read : BitVec 32 × List Byte, read.2 <:+ text →
      (if 0 < read.1.toInt && read.1.toInt ≤ 10000 then some (read.1.toNat, read.2) else none) =
        some (count, rest) → rest <:+ text := by
    intro read hsuffix hread
    split at hread
    · cases hread
      exact hsuffix
    · cases hread
  refine hread _ ?_ h
  have hbody : (if text.head? = some 0x24#8 then text.tail else text) <:+ text := by
    split
    · exact List.tail_suffix _
    · exact List.suffix_refl _
  generalize (if text.head? = some 0x24#8 then text.tail else text) = body at hbody
  have hdigits : ∀ base p ds, ds <:+ body → (parseTimesDigits base p ds).2 <:+ text := by
    intro base p ds hds
    exact (List.dropWhile_suffix _).trans (hds.trans hbody)
  split
  · next b digits =>
      split
      · exact hdigits _ _ _ ((List.suffix_cons b digits).trans (List.suffix_cons _ _))
      · exact hdigits _ _ _ (List.suffix_refl _)
  · exact hdigits _ _ _ (List.suffix_refl _)

theorem parseTimesDirective_length {line statement : List Byte} {count : Nat}
    (h : parseTimesDirective line = some (count, statement)) : statement.length < line.length := by
  rw [parseTimesDirective] at h
  dsimp only at h
  split at h
  · next hstarts =>
      have hword := congrArg List.length (CString.startsWithIgnoreCase_iff.mp hstarts)
      rw [List.length_map, List.length_map, List.length_take] at hword
      change min 5 _ = 5 at hword
      split at h
      · next count' rest hcount =>
          split at h
          · cases h
          · cases h
            have hline := (List.dropWhile_suffix isSpace (l := line)).length_le
            have hafter := (List.dropWhile_suffix isSpace
              (l := (line.dropWhile isSpace).drop 5)).length_le
            have hrest := (parseTimesCount_suffix hcount).length_le
            have hblank := (List.dropWhile_suffix isSpace (l := rest)).length_le
            have htext := (uptoComment_isPrefix (rest.dropWhile isSpace)).length_le
            have htake := List.length_take_le' (maxLineLength - 1)
              (uptoComment (rest.dropWhile isSpace))
            have htrim := (trimTrailingWs_isPrefix
              ((uptoComment (rest.dropWhile isSpace)).take (maxLineLength - 1))).length_le
            rw [List.length_drop] at hafter
            omega
      · cases h
  · cases h

/-- The loop of `parser_expand_times_only`; the length of the source bounds the rounds. -/
def expandTimesLoop (size : Nat) : Nat → List Byte → List Byte → List Byte
  | 0, _, out => out
  | rounds + 1, source, out =>
    if source = [] then out
    else
      let (line, raw, rest) := readLine source
      match parseTimesDirective line with
      | some (count, statement) =>
        expandTimesLoop size rounds rest (repeatStatement size statement count out)
      | none => expandTimesLoop size rounds rest (appendOutput size raw.length out raw)

/-- `parser_expand_times_only`: the output has four times the room of the source. -/
def parserExpandTimesOnly (source : List Byte) : List Byte :=
  expandTimesLoop (source.length * 4 + 1) source.length source []

/-- The result of `parse_source` within a number of rounds of its main loop. -/
def parseSource (rounds : Nat) (source : List Byte) : Option (Option (List ParsedInstruction)) :=
  parseRounds rounds (parseStart (parserExpandTimesOnly source))

end X86Assembler
