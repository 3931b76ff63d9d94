import Mathlib.Data.List.Infix
import X86Assembler.Dispatch
import X86Assembler.LiteralScan
import X86Assembler.NumberLiterals
import X86Assembler.PlainText

namespace X86Assembler

open CString (Byte str isDigit isXDigit isSpace eqIgnoreCase startsWithIgnoreCase)

/-- A count without its `$`. -/
def timesCountText (text : List Byte) : List Byte :=
  if text.head? = some 0x24#8 then text.tail else text

/-- The text after the word `times` and blanks, from the count on. -/
def timesCount (line : List Byte) : List Byte :=
  timesCountText (((skipSpaces line).drop 5).dropWhile isSpace)

def timesRun (line : List Byte) : List Byte := (timesCount line).takeWhile isIdentifierChar

def timesBody (line : List Byte) : List Byte :=
  ((timesCount line).dropWhile isIdentifierChar).dropWhile isSpace

/-- The first word of a line is `times`. -/
def TimesWord (line : List Byte) : Prop :=
  eqIgnoreCase ((skipSpaces line).takeWhile isIdentifierChar) (str "times") = true

instance (line : List Byte) : Decidable (TimesWord line) := inferInstanceAs (Decidable (_ = true))

def countValue (run : List Byte) : Option Nat :=
  if (numberBase run).1 = 2 then none else literalValue run

/-- The count of a `times` line and its statement, which goes up to a comment. -/
def timesStatement (line : List Byte) : Option (Nat × List Byte) :=
  if TimesWord line then
    (countValue (timesRun line)).bind fun count =>
      let statement := trimTrailingWs (codeText (timesBody line))
      if statement = [] then none else some (count, statement)
  else none

/-- A line with the statement of a `times` repeated where its count is allowed. -/
def meantLine (line : List Byte × List Byte) : List Byte :=
  match timesStatement line.1 with
  | some (count, statement) =>
    if 1 ≤ count ∧ count ≤ 10000 then (List.replicate count (statement ++ [0x0A#8])).flatten
    else line.2
  | none => line.2

/-- The text that the expansion of `times` is to give. -/
def meantText (source : List Byte) : List Byte := (sourceLines source).flatMap meantLine

/-- A line that is taken for a `times` line is one: the word and the count stand alone, the
count is not too large, and no comment mark stands in a literal of the statement. -/
structure ProperTimes (line : List Byte) : Prop where
  word : TimesWord line
  count : (countValue (timesRun line)).any fun count => count ≤ 10000
  body : uptoComment (timesBody line) = codeText (timesBody line)

instance (line : List Byte) : Decidable (ProperTimes line) :=
  decidable_of_iff (_ ∧ _ ∧ _) ⟨fun h => ⟨h.1, h.2.1, h.2.2⟩, fun h => ⟨h.word, h.count, h.body⟩⟩

theorem foldl_ofNat (base : Nat) (ds : List Byte) : ds.foldl
    (fun count b => count * BitVec.ofNat 32 base + BitVec.ofNat 32 (digitValue b)) 0 =
      BitVec.ofNat 32 (Digits.value digitValue base ds) := by
  induction ds using List.reverseRecOn with
  | nil => rfl
  | append_singleton ds d ih =>
      rw [List.foldl_append, ih, Digits.value_concat, BitVec.ofNat_add, BitVec.ofNat_mul]
      rfl

theorem parseTimesDigits_run {base : Nat} {p : Byte → Bool} {ds more : List Byte}
    (hds : ∀ d ∈ ds, p d = true) (hmore : ∀ b ∈ more.head?, p b = false) :
    parseTimesDigits base p (ds ++ more) =
      (BitVec.ofNat 32 (Digits.value digitValue base ds), more) := by
  have hstop : more.takeWhile p = [] ∧ more.dropWhile p = more := by
    cases more with
    | nil => exact ⟨rfl, rfl⟩
    | cons b more =>
        have hb := hmore b rfl
        exact ⟨List.takeWhile_cons_of_neg (by simp [hb]),
          List.dropWhile_cons_of_neg (by simp [hb])⟩
  rw [parseTimesDigits, List.takeWhile_append_of_pos hds, List.dropWhile_append_of_pos hds,
    hstop.1, hstop.2, List.append_nil, foldl_ofNat]

theorem identifierChar_facts : ∀ b : Byte, isIdentifierChar b = false →
    isDigit b = false ∧ isXDigit b = false ∧ CString.toLower b ≠ 0x78#8 := by
  decide +kernel

theorem countValue_eq_some {run : List Byte} {n : Nat} (h : countValue run = some n) :
    (∃ b ds, run = 0x30#8 :: b :: ds ∧ CString.toLower b = 0x78#8 ∧
        ds.all (isDigitOf 16) = true ∧ Digits.value digitValue 16 ds = n) ∨
      run ≠ [] ∧ run.all (isDigitOf 10) = true ∧ Digits.value digitValue 10 run = n := by
  rw [countValue] at h
  split at h
  · cases h
  · next hbase =>
      obtain ⟨hall, hvalue⟩ := literalValue_eq_some h
      have hrun : run ≠ [] := by
        rintro rfl
        cases h
      rw [numberBase.eq_def] at hall hvalue hbase
      split at hall
      · next b ds =>
          by_cases hx : CString.toLower b = 0x78#8
          · simp only [if_pos hx] at hall hvalue
            exact .inl ⟨b, ds, rfl, hx, hall, hvalue⟩
          by_cases hb : CString.toLower b = 0x62#8
          · simp only [if_neg hx, if_pos hb] at hbase
            exact absurd trivial hbase
          · simp only [if_neg hx, if_neg hb] at hall hvalue
            exact .inr ⟨hrun, hall, hvalue⟩
      · next hother =>
          split at hvalue
          · next b ds => exact absurd rfl (hother b ds)
          · exact .inr ⟨hrun, hall, hvalue⟩

theorem parseTimesCount_run {text : List Byte} {n : Nat}
    (h : countValue (timesCountText text |>.takeWhile isIdentifierChar) = some n) :
    parseTimesCount text =
      if 0 < (BitVec.ofNat 32 n).toInt && (BitVec.ofNat 32 n).toInt ≤ 10000 then
        some ((BitVec.ofNat 32 n).toNat, (timesCountText text).dropWhile isIdentifierChar)
      else none := by
  have hread : ∀ read : BitVec 32 × List Byte,
      read = (BitVec.ofNat 32 n, (timesCountText text).dropWhile isIdentifierChar) →
      (if 0 < read.1.toInt && read.1.toInt ≤ 10000 then some (read.1.toNat, read.2) else none) =
        if 0 < (BitVec.ofNat 32 n).toInt && (BitVec.ofNat 32 n).toInt ≤ 10000 then
          some ((BitVec.ofNat 32 n).toNat, (timesCountText text).dropWhile isIdentifierChar)
        else none := by
    rintro read rfl
    rfl
  refine hread _ ?_
  rw [← timesCountText]
  generalize timesCountText text = count at h
  have hsplit := (List.takeWhile_append_dropWhile (p := isIdentifierChar) (l := count))
  have hstop : ∀ b ∈ (count.dropWhile isIdentifierChar).head?, isIdentifierChar b = false :=
    fun b hb => head_dropWhile hb
  generalize count.takeWhile isIdentifierChar = run at h hsplit
  generalize count.dropWhile isIdentifierChar = more at hstop hsplit
  subst hsplit
  rcases countValue_eq_some h with ⟨b, ds, rfl, hx, hall, rfl⟩ | ⟨hne, hall, rfl⟩
  · change (if CString.toLower b = 0x78#8 then parseTimesDigits 16 isXDigit (ds ++ more)
      else parseTimesDigits 10 isDigit (0x30#8 :: b :: (ds ++ more))) = _
    rw [if_pos hx]
    apply parseTimesDigits_run
    · intro d hd
      have hdigit := List.all_eq_true.mp hall d hd
      rw [isDigitOf, Bool.and_eq_true] at hdigit
      exact hdigit.1
    · exact fun b hb => (identifierChar_facts b (hstop b hb)).2.1
  · have hdecimal : parseTimesDigits 10 isDigit (run ++ more) =
        (BitVec.ofNat 32 (Digits.value digitValue 10 run), more) := by
      apply parseTimesDigits_run
      · exact fun d hd => (decimalDigit_facts d (List.all_eq_true.mp hall d hd)).1
      · exact fun b hb => (identifierChar_facts b (hstop b hb)).1
    split
    · next b digits heq =>
        have hb : CString.toLower b ≠ 0x78#8 := by
          cases run with
          | nil => exact absurd rfl hne
          | cons d run =>
              obtain ⟨-, heq⟩ := List.cons_eq_cons.mp heq
              cases run with
              | nil =>
                  exact (identifierChar_facts b (hstop b (by
                    rw [show more = b :: digits from heq]
                    rfl))).2.2
              | cons c run =>
                  obtain ⟨rfl, -⟩ := List.cons_eq_cons.mp heq
                  exact (decimalDigit_facts c (List.all_eq_true.mp hall c (by simp))).2.1
        rw [if_neg hb]
        exact hdecimal
    · exact hdecimal

theorem timesBody_suffix (line : List Byte) : timesBody line <:+ line := by
  have hafter : ((skipSpaces line).drop 5).dropWhile isSpace <:+ line :=
    (List.dropWhile_suffix _).trans ((List.drop_suffix _ _).trans (List.dropWhile_suffix _))
  apply (List.dropWhile_suffix _).trans
  apply (List.dropWhile_suffix _).trans
  rw [timesCount, timesCountText]
  split
  · exact (List.tail_suffix _).trans hafter
  · exact hafter

theorem parseTimesDirective_word {line : List Byte} {n : Nat} (hword : TimesWord line)
    (hcount : countValue (timesRun line) = some n) (hshort : line.length < maxLineLength) :
    parseTimesDirective line =
      if 0 < (BitVec.ofNat 32 n).toInt ∧ (BitVec.ofNat 32 n).toInt ≤ 10000 ∧
          trimTrailingWs (uptoComment (timesBody line)) ≠ [] then
        some ((BitVec.ofNat 32 n).toNat, trimTrailingWs (uptoComment (timesBody line)))
      else none := by
  have hstarts : startsWithIgnoreCase (line.dropWhile isSpace) (str "times") = true := by
    rw [TimesWord, eqIgnoreCase, beq_iff_eq] at hword
    have hlen := congrArg List.length hword
    rw [List.length_map, List.length_map] at hlen
    rw [CString.startsWithIgnoreCase_iff, ← hword, ← hlen]
    exact congrArg _ (List.prefix_iff_eq_take.mp (List.takeWhile_prefix _)).symm
  have hlen : (uptoComment (timesBody line)).length ≤ maxLineLength - 1 :=
    Nat.le_sub_one_of_lt (Nat.lt_of_le_of_lt
      ((uptoComment_isPrefix _).length_le.trans (timesBody_suffix line).length_le) hshort)
  rw [parseTimesDirective]
  dsimp only
  rw [if_pos hstarts, @parseTimesCount_run (((line.dropWhile isSpace).drop 5).dropWhile isSpace) n
    hcount]
  by_cases hrange : 0 < (BitVec.ofNat 32 n).toInt ∧ (BitVec.ofNat 32 n).toInt ≤ 10000
  · rw [if_pos (by simpa using hrange)]
    change (if trimTrailingWs ((uptoComment (timesBody line)).take (maxLineLength - 1)) = [] then
      none else some (_, trimTrailingWs ((uptoComment (timesBody line)).take _))) = _
    rw [List.take_of_length_le hlen]
    split
    · next hempty => rw [if_neg (fun h => h.2.2 hempty)]
    · next hne => rw [if_pos ⟨hrange.1, hrange.2, hne⟩]
  · rw [if_neg (by simpa using hrange), if_neg (fun h => hrange ⟨h.1, h.2.1⟩)]

theorem ofNat_count {n : Nat} (h : n ≤ 10000) :
    (BitVec.ofNat 32 n).toNat = n ∧ (BitVec.ofNat 32 n).toInt = n := by
  have hnat : (BitVec.ofNat 32 n).toNat = n := by
    rw [BitVec.toNat_ofNat]
    omega
  refine ⟨hnat, ?_⟩
  rw [BitVec.toInt_eq_toNat_of_lt (by omega), hnat]

theorem trimTrailingWs_ne_nil {line : List Byte} (hline : 0x0A#8 ∉ line)
    (hne : trimTrailingWs (codeText line) ≠ []) (hblank : ∀ b ∈ line.head?, isSpace b = false) :
    trimTrailingWs (uptoComment line) ≠ [] := by
  cases line with
  | nil => exact absurd rfl hne
  | cons b bs =>
      have hb := hblank b rfl
      have hmark : startsComment b bs = false := by
        rw [Bool.eq_false_iff]
        intro hmark
        rw [codeText, codeTextFrom, if_pos hmark] at hne
        exact hne rfl
      rw [List.mem_cons, not_or] at hline
      rw [uptoComment_cons, if_neg (by simp [Ne.symm hline.1, hmark])]
      have hlen := @length_trimTrailingWs [] (uptoComment bs) b hb
      intro hnil
      rw [List.nil_append, hnil] at hlen
      exact Nat.lt_irrefl 0 hlen

section Lines

variable {line : List Byte}

theorem timesStatement_eq_some {n : Nat} {statement : List Byte}
    (h : timesStatement line = some (n, statement)) : TimesWord line ∧
      countValue (timesRun line) = some n ∧ statement ≠ [] ∧
      statement = trimTrailingWs (codeText (timesBody line)) := by
  rw [timesStatement] at h
  split at h
  · next hword =>
      obtain ⟨count, hcount, h⟩ := Option.bind_eq_some_iff.mp h
      dsimp only at h
      split at h
      · cases h
      · next hne =>
          cases h
          exact ⟨hword, hcount, hne, rfl⟩
  · cases h

theorem parseTimesDirective_of_statement {n : Nat} {statement : List Byte}
    (hline : 0x0A#8 ∉ line) (hshort : line.length < maxLineLength)
    (h : timesStatement line = some (n, statement)) (hpos : 1 ≤ n) (hmax : n ≤ 10000) :
    parseTimesDirective line = some (n, trimTrailingWs (uptoComment (timesBody line))) := by
  obtain ⟨hword, hcount, hne, rfl⟩ := timesStatement_eq_some h
  obtain ⟨hnat, hint⟩ := ofNat_count hmax
  have hbody : 0x0A#8 ∉ timesBody line := fun hmem => hline ((timesBody_suffix line).subset hmem)
  have hcut := trimTrailingWs_ne_nil hbody hne (by
    intro b hb
    rw [timesBody] at hb
    exact head_dropWhile hb)
  rw [parseTimesDirective_word hword hcount hshort, hnat, hint,
    if_pos ⟨by omega, by omega, hcut⟩]

theorem timesLine_eq_meantLine {raw : List Byte} (hline : 0x0A#8 ∉ line)
    (hshort : line.length < maxLineLength) (h : parseTimesDirective line ≠ none → ProperTimes line) :
    timesLine (line, raw) = meantLine (line, raw) := by
  cases htimes : parseTimesDirective line with
  | none =>
      rw [timesLine, meantLine]
      simp only [htimes]
      cases hmeant : timesStatement line with
      | none => rfl
      | some found =>
          obtain ⟨n, statement⟩ := found
          dsimp only
          split
          · next hrange =>
              rw [parseTimesDirective_of_statement hline hshort hmeant hrange.1 hrange.2] at htimes
              cases htimes
          · rfl
  | some found =>
      obtain ⟨hword, hcount, hbody⟩ := h (by rw [htimes]; exact Option.some_ne_none _)
      obtain ⟨n, hcount, hmax⟩ := (Option.any_eq_true _ _).mp hcount
      have hmax : n ≤ 10000 := by simpa using hmax
      obtain ⟨hnat, hint⟩ := ofNat_count hmax
      have hword' := parseTimesDirective_word hword hcount hshort
      rw [hnat, hint, hbody] at hword'
      rw [timesLine, meantLine, timesStatement]
      simp only [hword', if_pos hword, hcount, Option.bind_some]
      rw [hword'] at htimes
      split at htimes
      · next hrange =>
          rw [if_pos hrange, if_neg hrange.2.2]
          simp only
          rw [if_pos ⟨by omega, hmax⟩]
      · cases htimes

theorem meantLine_longer {raw statement : List Byte} {count : Nat} (hline : 0x0A#8 ∉ line)
    (hshort : line.length < maxLineLength) (hraw : line <+: raw)
    (htimes : parseTimesDirective line = some (count, statement)) (h : ¬ ProperTimes line) :
    ∃ longer, longer <+: meantLine (line, raw) ∧ statement.length < longer.length ∧
      0x0A#8 ∉ longer := by
  have hwhole : ∃ longer, longer <+: raw ∧ statement.length < longer.length ∧ 0x0A#8 ∉ longer :=
    ⟨line, hraw, parseTimesDirective_length htimes, hline⟩
  rw [meantLine]
  cases hmeant : timesStatement line with
  | none => exact hwhole
  | some found =>
      obtain ⟨n, meant⟩ := found
      dsimp only
      split
      · next hrange =>
          obtain ⟨hword, hcount, -, rfl⟩ := timesStatement_eq_some hmeant
          rw [parseTimesDirective_of_statement hline hshort hmeant hrange.1 hrange.2] at htimes
          cases htimes
          have hbody : 0x0A#8 ∉ timesBody line :=
            fun hmem => hline ((timesBody_suffix line).subset hmem)
          obtain ⟨k, hk⟩ := Nat.exists_eq_add_one_of_ne_zero (Nat.ne_of_gt hrange.1)
          refine ⟨trimTrailingWs (codeText (timesBody line)), ?_, ?_, ?_⟩
          · rw [hk, List.replicate_succ, List.flatten_cons, List.append_assoc]
            exact List.prefix_append _ _
          · rcases trimTrailingWs_uptoComment hbody with heq | hlt
            · refine absurd ⟨hword, ?_, heq⟩ h
              rw [hcount]
              simpa using hrange.2
            · exact hlt
          · intro hmem
            apply hbody
            exact (codeText_isPrefix _).subset ((trimTrailingWs_isPrefix _).subset hmem)
      · exact hwhole

end Lines

theorem meantText_of_ne {text : List Byte} (h : text ≠ []) : meantText text =
    meantLine ((readLine text).1, (readLine text).2.1) ++ meantText (readLine text).2.2 := by
  rw [meantText, sourceLines_of_ne h, List.flatMap_cons]
  rfl

theorem repeatStatement_lt {size count : Nat} {statement out : List Byte}
    (h : out.length < size - 1) : (repeatStatement size statement count out).length < size - 1 := by
  induction count generalizing out with
  | zero => exact h
  | succ count ih =>
      apply ih
      rw [appendOutput]
      split
      · simp only [List.length_append, List.length_singleton]
        omega
      · exact h

theorem repeatStatement_isPrefix (size count : Nat) (statement out : List Byte) :
    out <+: repeatStatement size statement count out := by
  induction count generalizing out with
  | zero => exact List.prefix_refl _
  | succ count ih =>
      refine List.IsPrefix.trans ?_ (ih _)
      rw [appendOutput]
      split
      · exact List.prefix_append _ _
      · exact List.prefix_refl _

theorem expandTimesLoop_bound {size rounds : Nat} {source out : List Byte}
    (h : out.length < size - 1) : out <+: expandTimesLoop size rounds source out ∧
      (expandTimesLoop size rounds source out).length < size - 1 := by
  induction rounds generalizing source out with
  | zero => exact ⟨List.prefix_refl _, h⟩
  | succ rounds ih =>
      rw [expandTimesLoop]
      split
      · exact ⟨List.prefix_refl _, h⟩
      · dsimp only
        split
        · next count statement _ =>
            obtain ⟨hpre, hlt⟩ := @ih (readLine source).2.2
              (repeatStatement size statement count out) (repeatStatement_lt h)
            exact ⟨(repeatStatement_isPrefix _ _ _ _).trans hpre, hlt⟩
        · rw [appendOutput]
          split
          · obtain ⟨hpre, hlt⟩ := @ih (readLine source).2.2 (out ++ (readLine source).2.1)
              (by rw [List.length_append]; assumption)
            exact ⟨(List.prefix_append _ _).trans hpre, hlt⟩
          · exact ih h

/-- Where the loop writes the text that is meant, every line it expands is to be expanded. -/
theorem properTimes_of_expandTimesLoop {size rounds : Nat} {source out : List Byte}
    (hrounds : source.length ≤ rounds) (hshort : ShortLines source) (hout : out.length < size - 1)
    (h : expandTimesLoop size rounds source out = out ++ meantText source) :
    ∀ line ∈ textLines source, parseTimesDirective line ≠ none → ProperTimes line := by
  induction rounds generalizing source out with
  | zero =>
      rw [List.length_eq_zero_iff.mp (Nat.le_zero.mp hrounds)]
      exact List.forall_mem_nil _
  | succ rounds ih =>
      by_cases hne : source = []
      · rw [hne]
        exact List.forall_mem_nil _
      have hlt := readLine_rest_lt hne
      have hrest := hshort.rest
      have hfirst := hshort.first
      have hline := textLine_no_newline source
      have hraw := readLine_isPrefix source
      have hbound := (@expandTimesLoop_bound size (rounds + 1) source out hout).2
      rw [h, meantText_of_ne hne, List.length_append, List.length_append] at hbound
      rw [expandTimesLoop, if_neg hne, meantText_of_ne hne, ← List.append_assoc] at h
      rw [textLines_of_ne hne]
      rw [← hshort.readLine_eq] at hrest hfirst hline ⊢
      generalize readLine source = read at *
      obtain ⟨line, raw, rest⟩ := read
      dsimp only at *
      have hkept : (parseTimesDirective line ≠ none → ProperTimes line) →
          ∀ l ∈ line :: textLines rest, parseTimesDirective l ≠ none → ProperTimes l := by
        intro hproper
        rw [← timesLine_eq_meantLine hline hfirst hproper] at h hbound
        rw [List.forall_mem_cons]
        refine ⟨hproper, ?_⟩
        cases htimes : parseTimesDirective line with
        | none =>
            simp only [timesLine, htimes] at h hbound
            rw [appendOutput, if_pos (by omega)] at h
            exact ih (by omega) hrest (by rw [List.length_append]; omega) h
        | some found =>
            obtain ⟨count, statement⟩ := found
            simp only [timesLine, htimes] at h hbound
            have hcopies : (List.replicate count (statement ++ [0x0A#8])).flatten.length =
                count * (statement.length + 1) := by
              simp only [List.length_flatten, List.map_replicate, List.sum_replicate_nat,
                List.length_append, List.length_singleton]
            rw [repeatStatement_room (by omega)] at h
            exact ih (by omega) hrest (by rw [List.length_append]; omega) h
      cases htimes : parseTimesDirective line with
      | none => exact hkept fun hsome => absurd htimes hsome
      | some found =>
          obtain ⟨count, statement⟩ := found
          by_cases hproper : ProperTimes line
          · exact hkept fun _ => hproper
          obtain ⟨longer, hlonger, hlength, hnewline⟩ :=
            meantLine_longer hline hfirst hraw htimes hproper
          obtain ⟨n, hn⟩ := Nat.exists_eq_add_one_of_ne_zero
            (Nat.ne_of_gt (parseTimesDirective_pos htimes))
          have hfits := hlonger.length_le
          simp only [htimes] at h
          rw [hn, repeatStatement, appendOutput, if_pos (by omega)] at h
          have hpre : out ++ (statement ++ [0x0A#8]) <+:
              out ++ (meantLine (line, raw) ++ meantText rest) := by
            rw [← List.append_assoc out (meantLine _), ← h]
            apply (repeatStatement_isPrefix size n statement _).trans
            refine (expandTimesLoop_bound ?_).1
            apply repeatStatement_lt
            simp only [List.length_append, List.length_singleton]
            omega
          obtain ⟨more, hmore⟩ := hlonger
          rw [List.prefix_append_right_inj, ← hmore, List.append_assoc] at hpre
          exact absurd hpre (not_prefix_of_shorter hlength hnewline)

theorem textLines_facts {text : List Byte} (h : ShortLines text) :
    ∀ line ∈ textLines text, 0x0A#8 ∉ line ∧ line.length < maxLineLength := by
  induction text using lineInduction with
  | nil => exact List.forall_mem_nil _
  | line text hne ih =>
      rw [h.readLine_eq] at ih
      rw [textLines_of_ne hne, List.forall_mem_cons]
      exact ⟨⟨textLine_no_newline text, h.first⟩, ih h.rest⟩

/-- The expansion gives the text that is meant just where the buffer has room for it and no
line is taken for a `times` line by mistake. -/
theorem parserExpandTimesOnly_iff {source : List Byte} (hshort : ShortLines source) :
    parserExpandTimesOnly source = meantText source ↔
      (meantText source).length ≤ source.length * 4 - 1 ∧
        ∀ line ∈ textLines source, parseTimesDirective line ≠ none → ProperTimes line := by
  constructor
  · intro h
    by_cases hne : source = []
    · rw [hne]
      exact ⟨Nat.zero_le _, List.forall_mem_nil _⟩
    have hroom : ([] : List Byte).length < source.length * 4 + 1 - 1 := by
      have hpos := List.length_pos_iff.mpr hne
      simp only [List.length_nil]
      omega
    have hbound := (@expandTimesLoop_bound _ source.length source [] hroom).2
    rw [parserExpandTimesOnly] at h
    rw [h] at hbound
    exact ⟨by omega, properTimes_of_expandTimesLoop (Nat.le_refl _) hshort hroom h⟩
  · rintro ⟨hroom, hproper⟩
    have hsame : timesText source = meantText source := by
      apply List.flatMap_congr
      rintro ⟨line, raw⟩ hmem
      have hline : line ∈ textLines source := by
        rw [textLines_eq hshort]
        exact List.mem_map_of_mem hmem
      obtain ⟨hnewline, hlength⟩ := textLines_facts hshort line hline
      exact timesLine_eq_meantLine hnewline hlength (hproper line hline)
    rw [parserExpandTimesOnly_fit, hsame]
    rwa [TimesFit, hsame]

theorem skipWhitespace_blanks {line more : List Byte} (hline : 0x0A#8 ∉ line)
    (hne : skipSpaces line ≠ [])
    (hhead : ∀ b ∈ (skipSpaces line).head?, b ≠ 0x3B#8 ∧ b ≠ 0x2F#8) :
    skipWhitespace (line ++ more) = skipSpaces line ++ more := by
  have hspace : ∀ b : Byte, isSpace b = true → b ≠ 0x3B#8 ∧ b ≠ 0x2F#8 := by decide +kernel
  induction line with
  | nil => exact absurd rfl hne
  | cons b bs ih =>
      rw [List.mem_cons, not_or] at hline
      rw [List.cons_append, skipWhitespace]
      by_cases hb : isSpace b = true
      · obtain ⟨hsemicolon, hslash⟩ := hspace b hb
        rw [skipSpaces, List.dropWhile_cons_of_pos hb] at hne hhead ⊢
        rw [if_neg (by simp [hsemicolon, hslash]), if_neg (Ne.symm hline.1), if_pos hb]
        exact ih hline.2 hne hhead
      · rw [skipSpaces, List.dropWhile_cons_of_neg hb] at hhead ⊢
        obtain ⟨hsemicolon, hslash⟩ := hhead b rfl
        rw [if_neg (by simp [hsemicolon, hslash]), if_neg (Ne.symm hline.1), if_neg hb]
        rfl

theorem lexIdentifier_word {room : Nat} {word more : List Byte}
    (hword : ∀ b ∈ word, isIdentifierChar b = true)
    (hmore : ∀ b ∈ more.head?, isIdentifierChar b = false) (hroom : word.length < room) :
    lexIdentifier room (word ++ more) = (word, more) := by
  induction word generalizing room with
  | nil =>
      obtain ⟨room, rfl⟩ := Nat.exists_eq_add_one_of_ne_zero (Nat.ne_of_gt hroom)
      cases more with
      | nil => rfl
      | cons b more =>
          rw [List.nil_append, lexIdentifier, if_neg (by simp [hmore b rfl])]
  | cons b word ih =>
      obtain ⟨room, rfl⟩ := Nat.exists_eq_add_one_of_ne_zero (Nat.ne_of_gt (Nat.zero_lt_of_lt hroom))
      rw [List.cons_append, lexIdentifier, if_pos (hword b List.mem_cons_self),
        ih (fun c hc => hword c (List.mem_cons_of_mem b hc)) (by simpa using hroom)]

theorem letter_facts : ∀ b : Byte, CString.toLower b = 0x74#8 →
    b ≠ 0x3B#8 ∧ b ≠ 0x2F#8 ∧ b ≠ 0x0A#8 ∧ punctuation b = none ∧ b ≠ 0x27#8 ∧ b ≠ 0x22#8 ∧
      isDigit b = false ∧ isIdentifierStart b = true := by
  decide +kernel

theorem identifierChar_ne_zero : ∀ b : Byte, isIdentifierChar b = true → b ≠ 0 := by
  decide +kernel

theorem nextToken_times {lx : Lexer} (h : TimesWord (textLine lx.rest).1) :
    (nextToken lx).1.type = .identifier ∧
      eqIgnoreCase (nextToken lx).1.text.bytes (str "times") = true ∧
      ∃ more, (nextToken lx).2.rest = (skipSpaces (textLine lx.rest).1).drop 5 ++ more ∧
        ∀ b ∈ more.head?, b = 0x0A#8 := by
  have hline := textLine_no_newline lx.rest
  have htext : lx.rest = (textLine lx.rest).1 ++ lx.rest.dropWhile fun b => b != 0x0A#8 := by
    rw [textLine_fst, List.takeWhile_append_dropWhile]
  have hmore : ∀ b ∈ (lx.rest.dropWhile fun b => b != 0x0A#8).head?, b = 0x0A#8 := by
    intro b hb
    simpa using head_dropWhile hb
  generalize (textLine lx.rest).1 = line at h hline htext ⊢
  generalize (lx.rest.dropWhile fun b => b != 0x0A#8) = more at hmore htext
  have hafter := fun b => @head_dropWhile isIdentifierChar (skipSpaces line) b
  have hsplit := List.takeWhile_append_dropWhile (p := isIdentifierChar) (l := skipSpaces line)
  have hall : ∀ b ∈ (skipSpaces line).takeWhile isIdentifierChar, isIdentifierChar b = true :=
    fun b hb => List.mem_takeWhile_imp hb
  rw [TimesWord] at h
  have hsame := h
  rw [eqIgnoreCase, beq_iff_eq] at hsame
  generalize (skipSpaces line).takeWhile isIdentifierChar = word at h hsplit hsame hall
  generalize (skipSpaces line).dropWhile isIdentifierChar = after at hsplit hafter
  have hlen : word.length = 5 := by
    have hlen := congrArg List.length hsame
    rwa [List.length_map, List.length_map] at hlen
  have hroom : word.length < maxLineLength - 1 := by
    rw [hlen]
    decide
  cases word with
  | nil => cases hlen
  | cons b word =>
      obtain ⟨hsemicolon, hslash, hnewline, hpunct, hquote, hdouble, hdigit, hstart⟩ :=
        letter_facts b (List.cons_eq_cons.mp hsame).1
      have hskip : skipWhitespace lx.rest = b :: (word ++ (after ++ more)) := by
        rw [htext, skipWhitespace_blanks hline (by rw [← hsplit]; exact List.cons_ne_nil _ _),
          ← hsplit, List.append_assoc]
        · rfl
        · rw [← hsplit]
          rintro c hc
          cases hc
          exact ⟨hsemicolon, hslash⟩
      have hstop : ∀ c ∈ (after ++ more).head?, isIdentifierChar c = false := by
        intro c hc
        cases after with
        | nil =>
            rw [hmore c hc]
            rfl
        | cons d after => exact hafter c hc
      have hlex := @lexIdentifier_word _ (b :: word) (after ++ more) hall hstop hroom
      have hzero : 0 ∉ b :: word := fun hmem => identifierChar_ne_zero 0 (hall 0 hmem) rfl
      rw [List.cons_append] at hlex
      rw [nextToken, hskip]
      simp only [lexToken, if_neg hnewline, hpunct, if_neg hquote, if_neg hdouble, hdigit,
        Bool.false_eq_true, if_false, if_pos hstart, hlex]
      refine ⟨trivial, ?_, more, ?_, hmore⟩
      · rw [CString.copyBounded_bytes_of_fits (Nat.lt_trans hroom (by decide)) hzero]
        exact h
      · rw [← hsplit, List.drop_left' hlen]

theorem countValue_head {run : List Byte} {n : Nat} (h : countValue run = some n) :
    ∃ b bs, run = b :: bs ∧ isDigit b = true := by
  rcases countValue_eq_some h with ⟨b, ds, rfl, -⟩ | ⟨hne, hall, -⟩
  · exact ⟨_, _, rfl, rfl⟩
  · cases run with
    | nil => exact absurd rfl hne
    | cons b bs =>
        exact ⟨b, bs, rfl, (decimalDigit_facts b (List.all_eq_true.mp hall b (by simp))).1⟩

theorem nextToken_count {lx : Lexer} {line more : List Byte} {n : Nat} (hline : 0x0A#8 ∉ line)
    (hlx : lx.rest = (skipSpaces line).drop 5 ++ more)
    (hcount : countValue (timesRun line) = some n) :
    (nextToken lx).1.type = .dollar ∨ (nextToken lx).1.type = .number := by
  have hafter : 0x0A#8 ∉ (skipSpaces line).drop 5 := fun hmem =>
    hline (((List.drop_suffix _ _).trans (List.dropWhile_suffix _)).subset hmem)
  obtain ⟨b, bs, hrun, hb⟩ := countValue_head hcount
  obtain ⟨rest, hrest⟩ := @List.takeWhile_prefix _ (timesCount line) isIdentifierChar
  rw [show (timesCount line).takeWhile isIdentifierChar = b :: bs from hrun] at hrest
  by_cases hdollar : (skipSpaces ((skipSpaces line).drop 5)).head? = some 0x24#8
  · left
    have hskip : skipWhitespace lx.rest = skipSpaces ((skipSpaces line).drop 5) ++ more := by
      rw [hlx]
      apply skipWhitespace_blanks hafter
      · intro hnil
        rw [hnil] at hdollar
        cases hdollar
      · intro c hc
        rw [hdollar] at hc
        cases hc
        decide
    cases htext : skipSpaces ((skipSpaces line).drop 5) with
    | nil =>
        rw [htext] at hdollar
        cases hdollar
    | cons c cs =>
        rw [htext] at hdollar hskip
        cases hdollar
        rw [nextToken, hskip]
        rfl
  · right
    obtain ⟨hsemicolon, hslash, hnewline, -, hpunct, hquote, hdouble⟩ := digit_facts b hb
    have htext : skipSpaces ((skipSpaces line).drop 5) = b :: bs ++ rest := by
      rw [hrest]
      exact (if_neg hdollar).symm
    have hskip : skipWhitespace lx.rest = b :: (bs ++ rest ++ more) := by
      rw [hlx, skipWhitespace_blanks hafter, htext]
      · rfl
      · rw [htext]
        exact List.cons_ne_nil _ _
      · rw [htext]
        rintro c hc
        cases hc
        exact ⟨hsemicolon, hslash⟩
    rw [nextToken, hskip]
    simp only [lexToken, if_neg hnewline, hpunct, if_neg hquote, if_neg hdouble, if_pos hb]

theorem lookupInstructionType_times {word : Text}
    (h : eqIgnoreCase word.bytes (str "times") = true) :
    lookupInstructionType word = some .times := by
  have hsame : ∀ entry : String × InstType, eqIgnoreCase word.bytes (str entry.1) =
      eqIgnoreCase (str "times") (str entry.1) := by
    rw [eqIgnoreCase, beq_iff_eq] at h
    intro entry
    rw [eqIgnoreCase, eqIgnoreCase, h]
  rw [lookupInstructionType]
  simp only [hsame]
  decide +kernel

/-- A statement that is left with its `times` is one of its own, with whatever operands can be
read of it. -/
theorem parseInstruction_times {p : ParserState} (htype : p.current.type = .identifier)
    (hword : eqIgnoreCase p.current.text.bytes (str "times") = true)
    (hpeek : p.peek.type = .dollar ∨ p.peek.type = .number) :
    ∃ inst : ParsedInstruction, inst.type = .times ∧ (Parser.parseInstruction p).1 =
      (Parser.parseOperandsUntilEol p.advance).1.map fun ops => { inst with operands := ops } := by
  have hcolon : p.peek.type ≠ .colon := by
    rcases hpeek with h | h <;> rw [h] <;> decide
  have hidentifier : p.peek.type ≠ .identifier := by
    rcases hpeek with h | h <;> rw [h] <;> decide
  have hlabel : ∀ inst, Parser.parseLabel inst p = (some inst, p) := by
    intro inst
    rw [Parser.parseLabel, Fallible.bind_run, Fallible.get_run]
    simp [hcolon]
  have hequ : ∀ inst, Parser.maybeParseEquDirective inst p = (some none, p) := by
    intro inst
    rw [Parser.maybeParseEquDirective, Fallible.bind_run, Fallible.get_run]
    simp [hidentifier]
  have hcurrent : Parser.current p = (some p.current, p) := rfl
  have hadvance : Parser.advance p = (some (), p.advance) := rfl
  have hmnemonic : ∀ inst, (Parser.parseMnemonic inst p.current.text p).1 =
      (Parser.parseOperandsUntilEol p.advance).1.map fun ops =>
        { inst with type := .times, operands := ops } := by
    intro inst
    rw [Parser.parseMnemonic, lookupInstructionType_times hword]
    dsimp only
    rw [Fallible.bind_of_some hadvance, if_neg (by simp), if_neg (by simp)]
    cases hparse : Parser.parseOperandsUntilEol p.advance with
    | mk ops q =>
        cases ops with
        | none =>
            rw [Fallible.bind_of_none hparse]
            rfl
        | some ops =>
            rw [Fallible.bind_of_some hparse]
            rfl
  refine ⟨{ type := .times, lineNumber := p.lexer.line,
            originalLine := Parser.captureOriginalLine p.lexer }, rfl, ?_⟩
  rw [Parser.parseInstruction, Fallible.bind_of_some (Fallible.get_run p)]
  dsimp only
  rw [if_neg (by rw [htype]; decide), Fallible.bind_of_some (hlabel _), Parser.parseBody,
    Fallible.bind_of_some (hequ _)]
  dsimp only
  rw [Fallible.bind_of_some hcurrent, if_pos htype, hmnemonic]

/-- The encoder passes over a statement that is left with its `times`, unless the segments of
its operands are at odds. -/
theorem encodeInstruction_times {inst : ParsedInstruction} (htype : inst.type = .times) :
    (∀ ctx, (encodeInstruction inst ctx).1 = none) ↔ segmentOverride inst.operands = none := by
  have hrun : ∀ ctx, (encodeInstruction inst ctx).1 =
      (Encoder.run (Encoder.segmentPrefix inst) ctx).1 := by
    intro ctx
    rw [encodeInstruction, htype]
    cases hpre : Encoder.run (Encoder.segmentPrefix inst) ctx with
    | mk r ctx' =>
        cases r with
        | none => rw [Fallible.bind_of_none hpre]
        | some u =>
            rw [Fallible.bind_of_some hpre]
            change (encodeDirective inst ctx').1 = _
            rw [encodeDirective, htype]
            rfl
  simp only [hrun]
  constructor
  · intro h
    have hfresh := h {}
    rw [Encoder.segmentPrefix] at hfresh
    cases hseg : segmentOverride inst.operands with
    | none => rfl
    | some seg =>
        rw [hseg] at hfresh
        cases seg <;> cases hfresh
  · intro hseg ctx
    rw [Encoder.segmentPrefix, hseg]
    rfl

/-- What a line leads to that is left with its `times`: the statement that stands there does
not parse, or no context lets it be encoded. -/
def FailsLater (p : ParserState) : Prop :=
  (Parser.parseInstruction p).1 = none ∨
    ∃ inst, (Parser.parseInstruction p).1 = some inst ∧ ∀ ctx, (encodeInstruction inst ctx).1 = none

theorem failsLater_iff {source : List Byte} {k : Nat} {p : ParserState} (hp : StandsAt source k p)
    {n : Nat} {statement : List Byte}
    (h : timesStatement (textLine (lexerAt source k).rest).1 = some (n, statement)) :
    FailsLater p ↔ ∀ ops, (Parser.parseOperandsUntilEol p.advance).1 = some ops →
      segmentOverride ops = none := by
  obtain ⟨hword, hcount, -⟩ := timesStatement_eq_some h
  obtain ⟨htype, hname, more, hrest, -⟩ := nextToken_times hword
  have hpeek := @nextToken_count (lexerAt source (k + 1)) _ more n
    (textLine_no_newline (lexerAt source k).rest) hrest hcount
  obtain ⟨inst, hinst, hparse⟩ := @parseInstruction_times p (by rw [hp.current]; exact htype)
    (by rw [hp.current]; exact hname) (by rw [hp.peek]; exact hpeek)
  rw [FailsLater, hparse]
  cases hops : (Parser.parseOperandsUntilEol p.advance).1 with
  | none => exact iff_of_true (.inl rfl) fun ops hnone => by cases hnone
  | some ops =>
      have hencode := @encodeInstruction_times { inst with operands := ops } hinst
      constructor
      · rintro (hnone | ⟨inst', hsome, hfails⟩) ops' heq
        · cases hnone
        · cases hsome
          cases heq
          exact hencode.mp hfails
      · intro hall
        exact .inr ⟨_, rfl, hencode.mpr (hall ops rfl)⟩

/-- A `times` line whose count is not allowed. -/
def RejectedTimes (line : List Byte) : Prop :=
  (timesStatement line).any (fun found => !decide (1 ≤ found.1 ∧ found.1 ≤ 10000)) = true

instance (line : List Byte) : Decidable (RejectedTimes line) :=
  inferInstanceAs (Decidable (_ = true))

def LineStart (text : List Byte) (k : Nat) : Prop :=
  k = 0 ∨ ∃ j, k = j + 1 ∧ (tokenAt text j).type = .newline

/-- A parser that has come to a `times` line whose count is not allowed. -/
structure AtRejectedTimes (text : List Byte) (k : Nat) (p : ParserState) : Prop where
  stands : StandsAt text k p
  start : LineStart text k
  rejected : RejectedTimes (textLine (lexerAt text k).rest).1

/-- The expansion of `times` as it is meant: the text, and the lines that are left over for the
parser and the encoder to refuse. -/
structure TimesHandled (source : List Byte) : Prop where
  expands : parserExpandTimesOnly source = meantText source
  rejects : ∀ k p, AtRejectedTimes (parserExpandTimesOnly source) k p → FailsLater p

/-- The expansion of `times` is as it is meant just where the output buffer has room for it, no
line is taken for a `times` line by mistake, and the operands of a line whose count is not
allowed cannot be read or have segments at odds. -/
theorem timesHandled_iff {source : List Byte} (hshort : ShortLines source) :
    TimesHandled source ↔ (meantText source).length ≤ source.length * 4 - 1 ∧
      (∀ line ∈ textLines source, parseTimesDirective line ≠ none → ProperTimes line) ∧
      ∀ k p, AtRejectedTimes (meantText source) k p →
        ∀ ops, (Parser.parseOperandsUntilEol p.advance).1 = some ops →
          segmentOverride ops = none := by
  have hfails : ∀ {text k p}, AtRejectedTimes text k p → (FailsLater p ↔
      ∀ ops, (Parser.parseOperandsUntilEol p.advance).1 = some ops → segmentOverride ops = none) := by
    intro text k p hat
    obtain ⟨found, hfound, -⟩ := (Option.any_eq_true _ _).mp hat.rejected
    exact failsLater_iff hat.stands (Option.mem_def.mp hfound)
  constructor
  · rintro ⟨hexpands, hrejects⟩
    obtain ⟨hroom, hproper⟩ := (parserExpandTimesOnly_iff hshort).mp hexpands
    refine ⟨hroom, hproper, fun k p hat => ?_⟩
    rw [← hexpands] at hat
    exact (hfails hat).mp (hrejects k p hat)
  · rintro ⟨hroom, hproper, hrejects⟩
    have hexpands := (parserExpandTimesOnly_iff hshort).mpr ⟨hroom, hproper⟩
    refine ⟨hexpands, fun k p hat => (hfails hat).mpr ?_⟩
    rw [hexpands] at hat
    exact hrejects k p hat

theorem lexerAt_suffix (source : List Byte) (k : Nat) : (lexerAt source k).rest <:+ source := by
  cases k with
  | zero => exact List.suffix_refl _
  | succ k =>
      refine List.IsSuffix.trans ?_ (tokenStart_suffix source k)
      rw [tokenBytes_split]
      exact List.suffix_append _ _

/-- Three copies of an instruction, and a comment mark in a string beside them. -/
theorem timesHandled_threeNops : TimesHandled (str "  TIMES $0x3 nop ; three\ndb \";\"\n") := by
  refine (timesHandled_iff (shortLines_of_length (by decide +kernel))).mpr
    ⟨by decide +kernel, by decide +kernel, ?_⟩
  intro k p hat
  have hnone : ∀ text ∈ (meantText (str "  TIMES $0x3 nop ; three\ndb \";\"\n")).tails,
      ¬ RejectedTimes (textLine text).1 := by decide +kernel
  exact absurd hat.rejected (hnone _ ((List.mem_tails _ _).mpr (lexerAt_suffix _ k)))

/-- Copies that do not fit into the output buffer are left out, a count is read modulo `2^32`,
a label is taken for a directive, and a line with the count 0 vanishes. -/
theorem not_timesHandled : ¬ TimesHandled (str "times 99 nop") ∧
    ¬ TimesHandled (str "times 4294967297 nop") ∧ ¬ TimesHandled (str "times3: nop") ∧
      ¬ TimesHandled (str "times 0 nop") := by
  have htext : ∀ source, parserExpandTimesOnly source ≠ meantText source →
      ¬ TimesHandled source := fun source hne h => hne h.expands
  refine ⟨htext _ (by decide +kernel), htext _ (by decide +kernel), htext _ (by decide +kernel), ?_⟩
  intro h
  have hfails := h.rejects 0 _ ⟨standsAt_start _, .inl rfl, by decide +kernel⟩
  obtain ⟨found, hfound, -⟩ := (Option.any_eq_true _ _).mp
    (show RejectedTimes (str "times 0 nop") by decide +kernel)
  have hline : (textLine (lexerAt (parserExpandTimesOnly (str "times 0 nop")) 0).rest).1 =
      str "times 0 nop" := by decide +kernel
  rw [← hline] at hfound
  have hall := (failsLater_iff (standsAt_start _) (Option.mem_def.mp hfound)).mp hfails
  have hread : ((Parser.parseOperandsUntilEol
      (initTokens (parserExpandTimesOnly (str "times 0 nop"))).advance).1.any
        fun ops => segmentOverride ops ≠ none) = true := by decide +kernel
  obtain ⟨ops, hops, hne⟩ := (Option.any_eq_true _ _).mp hread
  have hne : segmentOverride ops ≠ none := by simpa using hne
  exact hne (hall ops (Option.mem_def.mp hops))

end X86Assembler
