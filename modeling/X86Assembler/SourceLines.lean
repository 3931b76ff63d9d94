import X86Assembler.Includes
import X86Assembler.TimesExpansion

namespace X86Assembler

open CString (Byte str)

def EndsLine (text : List Byte) : Prop := ∀ b ∈ text.getLast?, b = 0x0A#8

instance (text : List Byte) : Decidable (EndsLine text) := by
  unfold EndsLine
  infer_instance

theorem EndsLine.suffix {before text : List Byte} (h : EndsLine (before ++ text)) :
    EndsLine text := by
  intro b hb
  refine h b ?_
  rw [Option.mem_def] at hb ⊢
  rw [List.getLast?_append, hb, Option.some_or]

theorem EndsLine.append {text more : List Byte} (h : EndsLine text) (h' : EndsLine more) :
    EndsLine (text ++ more) := by
  intro b hb
  rw [List.getLast?_append, Option.mem_def, Option.or_eq_some_iff] at hb
  rcases hb with hb | ⟨-, hb⟩
  · exact h' b hb
  · exact h b hb

theorem EndsLine.newline_mem {text : List Byte} (h : EndsLine text) (hne : text ≠ []) :
    (0x0A#8 : Byte) ∈ text := by
  have hlast := h _ (List.getLast?_eq_some_getLast hne)
  rw [← hlast]
  exact List.getLast_mem hne

theorem EndsLine.rest {text : List Byte} (h : EndsLine text) : EndsLine (readLine text).2.2 := by
  rw [readLine_split text] at h
  exact h.suffix

theorem readLine_append {text : List Byte} (h : EndsLine text) (hne : text ≠ [])
    (more : List Byte) : readLine (text ++ more) =
      ((readLine text).1, (readLine text).2.1, (readLine text).2.2 ++ more) := by
  have hmem := h.newline_mem hne
  have hprefix := @List.takeWhile_prefix _ text fun b => b != 0x0A#8
  have hlt : (text.takeWhile fun b => b != 0x0A#8).length < text.length := by
    refine Nat.lt_of_le_of_ne hprefix.length_le ?_
    intro hlen
    have hall := hprefix.eq_of_length hlen
    rw [List.takeWhile_eq_self_iff] at hall
    have hnewline := hall _ hmem
    simp at hnewline
  have htake : (text ++ more).takeWhile (fun b => b != 0x0A#8) =
      text.takeWhile fun b => b != 0x0A#8 := by
    rw [List.takeWhile_append, if_neg (Nat.ne_of_lt hlt)]
  rw [readLine, readLine, htake]
  have hle : ((text.takeWhile fun b => b != 0x0A#8).take (maxLineLength - 1)).length <
      text.length := Nat.lt_of_le_of_lt (List.length_take_le' _ _) hlt
  generalize (text.takeWhile fun b => b != 0x0A#8).take (maxLineLength - 1) = line at hle
  rw [List.drop_append_of_le_length (Nat.le_of_lt hle)]
  have hrest : text.drop line.length ≠ [] := by
    rw [ne_eq, List.drop_eq_nil_iff]
    omega
  generalize text.drop line.length = rest at hrest
  cases rest with
  | nil => exact absurd rfl hrest
  | cons b rest =>
      rw [List.cons_append, List.head?_cons, List.head?_cons, List.tail_cons, List.tail_cons]
      by_cases hb : some b = some 0x0A#8
      · rw [if_pos hb, if_pos hb]
      · rw [if_neg hb, if_neg hb]
        rfl

/-- The lines of a text as every pass over it reads them, each with what is copied of it. -/
def readLines : Nat → List Byte → List (List Byte × List Byte)
  | 0, _ => []
  | rounds + 1, text =>
    if text = [] then []
    else
      let (line, raw, rest) := readLine text
      (line, raw) :: readLines rounds rest

def sourceLines (text : List Byte) : List (List Byte × List Byte) := readLines text.length text

theorem readLines_more {rounds : Nat} {text : List Byte} (h : text.length ≤ rounds) :
    readLines (rounds + 1) text = readLines rounds text := by
  induction rounds generalizing text with
  | zero =>
      rw [List.length_eq_zero_iff.mp (Nat.le_zero.mp h)]
      rfl
  | succ rounds ih =>
      rw [readLines, readLines]
      split
      · rfl
      · rename_i hne
        have hlt := readLine_rest_lt hne
        exact congrArg _ (ih (Nat.le_of_lt_succ (Nat.lt_of_lt_of_le hlt h)))

theorem readLines_enough {rounds : Nat} {text : List Byte} (h : text.length ≤ rounds) :
    readLines rounds text = sourceLines text := by
  induction rounds, h using Nat.le_induction with
  | base => rfl
  | succ rounds h ih => rw [readLines_more h, ih]

@[simp] theorem sourceLines_nil : sourceLines [] = [] := rfl

theorem sourceLines_of_ne {text : List Byte} (h : text ≠ []) : sourceLines text =
    ((readLine text).1, (readLine text).2.1) :: sourceLines (readLine text).2.2 := by
  have hlt := readLine_rest_lt h
  obtain ⟨n, hn⟩ := Nat.exists_eq_add_one_of_ne_zero (Nat.ne_of_gt (Nat.zero_lt_of_lt hlt))
  rw [sourceLines, hn, readLines, if_neg h]
  rw [hn] at hlt
  exact congrArg _ (readLines_enough (Nat.le_of_lt_succ hlt))

theorem lineInduction {motive : List Byte → Prop} (nil : motive [])
    (line : ∀ text, text ≠ [] → motive (readLine text).2.2 → motive text) (text : List Byte) :
    motive text := by
  generalize hn : text.length = n
  induction n using Nat.strong_induction_on generalizing text with
  | _ n ih =>
      by_cases hne : text = []
      · rw [hne]
        exact nil
      · exact line text hne (ih _ (hn ▸ readLine_rest_lt hne) _ rfl)

theorem sourceLines_append {text : List Byte} (h : EndsLine text) (more : List Byte) :
    sourceLines (text ++ more) = sourceLines text ++ sourceLines more := by
  induction text using lineInduction with
  | nil => rfl
  | line text hne ih =>
      rw [sourceLines_of_ne hne, sourceLines_of_ne (List.append_ne_nil_of_left_ne_nil hne _),
        readLine_append h hne, List.cons_append, ← ih h.rest]

theorem not_prefix_of_shorter {short line more : List Byte} (hlen : short.length < line.length)
    (hline : 0x0A#8 ∉ line) : ¬ short ++ [0x0A#8] <+: line ++ more := by
  intro hprefix
  have hget := hprefix.getElem (i := short.length) (by simp)
  rw [List.getElem_append_right (Nat.le_refl _), List.getElem_append_left hlen] at hget
  have hnewline : 0x0A#8 = line.get ⟨short.length, hlen⟩ := by simpa using hget
  exact hline (hnewline ▸ List.get_mem line _)

/-- What the expansion of `times` makes of a line. -/
def timesLine (line : List Byte × List Byte) : List Byte :=
  match parseTimesDirective line.1 with
  | some (count, statement) => (List.replicate count (statement ++ [0x0A#8])).flatten
  | none => line.2

/-- The text after the expansion of `times`, had the output buffer no limit. -/
def timesText (source : List Byte) : List Byte := (sourceLines source).flatMap timesLine

theorem timesText_append {text : List Byte} (h : EndsLine text) (more : List Byte) :
    timesText (text ++ more) = timesText text ++ timesText more := by
  rw [timesText, sourceLines_append h, List.flatMap_append]
  rfl

theorem timesText_of_ne {text : List Byte} (h : text ≠ []) : timesText text =
    timesLine ((readLine text).1, (readLine text).2.1) ++ timesText (readLine text).2.2 := by
  rw [timesText, sourceLines_of_ne h, List.flatMap_cons]
  rfl

theorem parseTimesCount_pos {text rest : List Byte} {count : Nat}
    (h : parseTimesCount text = some (count, rest)) : 0 < count := by
  have hread : ∀ read : BitVec 32 × List Byte,
      (if 0 < read.1.toInt && read.1.toInt ≤ 10000 then some (read.1.toNat, read.2) else none) =
        some (count, rest) → 0 < count := by
    intro read hread
    split at hread
    · rename_i hpos
      cases hread
      rw [Bool.and_eq_true, decide_eq_true_eq] at hpos
      rw [Nat.pos_iff_ne_zero]
      intro hzero
      have hzero : read.1 = 0#32 := BitVec.eq_of_toNat_eq hzero
      rw [hzero] at hpos
      exact absurd hpos.1 (by decide)
    · cases hread
  exact hread _ h

theorem parseTimesDirective_pos {line statement : List Byte} {count : Nat}
    (h : parseTimesDirective line = some (count, statement)) : 0 < count := by
  rw [parseTimesDirective] at h
  simp only at h
  split at h
  · split at h
    · rename_i hcount
      split at h
      · cases h
      · cases h
        exact parseTimesCount_pos hcount
    · cases h
  · cases h

theorem readLine_raw_ne {text : List Byte} (h : text ≠ []) : (readLine text).2.1 ≠ [] := by
  intro hnil
  have hlt := readLine_rest_lt h
  have hsplit := congrArg List.length (readLine_split text)
  rw [hnil, List.nil_append] at hsplit
  omega

theorem timesText_ne {text : List Byte} (h : text ≠ []) : timesText text ≠ [] := by
  rw [timesText_of_ne h, timesLine]
  refine List.append_ne_nil_of_left_ne_nil ?_ _
  split
  · rename_i count statement htimes
    obtain ⟨n, hn⟩ := Nat.exists_eq_add_one_of_ne_zero
      (Nat.ne_of_gt (parseTimesDirective_pos htimes))
    rw [hn, List.replicate_succ, List.flatten_cons, List.append_assoc]
    exact List.append_ne_nil_of_right_ne_nil _ (List.cons_ne_nil _ _)
  · exact readLine_raw_ne h

theorem EndsLine.flatten_replicate (count : Nat) {text : List Byte} (h : EndsLine text) :
    EndsLine (List.replicate count text).flatten := by
  induction count with
  | zero => exact nofun
  | succ count ih =>
      rw [List.replicate_succ, List.flatten_cons]
      exact h.append ih

theorem EndsLine.times {text : List Byte} (h : EndsLine text) : EndsLine (timesText text) := by
  induction text using lineInduction with
  | nil => exact h
  | line text hne ih =>
      rw [timesText_of_ne hne]
      by_cases hrest : (readLine text).2.2 = []
      · have hraw := readLine_split text
        rw [hrest, List.append_nil] at hraw
        rw [hrest, ← hraw, timesLine]
        refine EndsLine.append ?_ nofun
        split
        · refine EndsLine.flatten_replicate _ ?_
          intro b hb
          rw [Option.mem_def, List.getLast?_concat] at hb
          exact (Option.some.inj hb).symm
        · exact h
      · intro b hb
        refine ih h.rest b ?_
        rw [List.getLast?_append, Option.mem_def, Option.or_eq_some_iff] at hb
        rcases hb with hb | ⟨hb, -⟩
        · exact hb
        · exact absurd (List.getLast?_eq_none_iff.mp hb) (timesText_ne hrest)

theorem repeatStatement_room {size count : Nat} {statement out : List Byte}
    (h : out.length + count * (statement.length + 1) < size - 1) :
    repeatStatement size statement count out =
      out ++ (List.replicate count (statement ++ [0x0A#8])).flatten := by
  induction count generalizing out with
  | zero =>
      rw [List.replicate_zero, List.flatten_nil, List.append_nil]
      rfl
  | succ count ih =>
      rw [Nat.succ_mul] at h
      have hroom : out.length + (statement.length + 1) < size - 1 := by omega
      rw [repeatStatement, appendOutput, if_pos hroom, ih, List.replicate_succ,
        List.flatten_cons, List.append_assoc]
      simp only [List.length_append, List.length_singleton]
      omega

theorem expandTimesLoop_room {size rounds : Nat} {source out : List Byte}
    (hrounds : source.length ≤ rounds)
    (h : source = [] ∨ out.length + (timesText source).length < size - 1) :
    expandTimesLoop size rounds source out = out ++ timesText source := by
  induction rounds generalizing source out with
  | zero =>
      rw [List.length_eq_zero_iff.mp (Nat.le_zero.mp hrounds)]
      exact (List.append_nil _).symm
  | succ rounds ih =>
      rw [expandTimesLoop]
      split
      · rename_i hnil
        rw [hnil]
        exact (List.append_nil _).symm
      · rename_i hne
        have hroom := h.resolve_left hne
        have hlt := readLine_rest_lt hne
        rw [timesText_of_ne hne, List.length_append] at hroom
        rw [timesText_of_ne hne]
        generalize readLine source = read at hroom hlt ⊢
        obtain ⟨line, raw, rest⟩ := read
        simp only [timesLine] at hroom hlt ⊢
        cases htimes : parseTimesDirective line with
        | some found =>
            obtain ⟨count, statement⟩ := found
            simp only [htimes, List.length_flatten, List.map_replicate, List.sum_replicate_nat,
              List.length_append, List.length_singleton] at hroom ⊢
            rw [repeatStatement_room (by omega), ih (by omega), List.append_assoc]
            right
            simp only [List.length_append, List.length_flatten, List.map_replicate,
              List.sum_replicate_nat, List.length_singleton]
            omega
        | none =>
            simp only [htimes] at hroom ⊢
            rw [appendOutput, if_pos (by omega), ih (by omega), List.append_assoc]
            right
            rw [List.length_append]
            omega

/-- The output buffer, four times as long as the source, has room for the whole expansion. -/
def TimesFit (source : List Byte) : Prop := (timesText source).length ≤ source.length * 4 - 1

theorem parserExpandTimesOnly_fit {source : List Byte} (h : TimesFit source) :
    parserExpandTimesOnly source = timesText source := by
  rw [TimesFit] at h
  rw [parserExpandTimesOnly, expandTimesLoop_room (Nat.le_refl _), List.nil_append]
  cases source with
  | nil => exact .inl rfl
  | cons b source =>
      right
      simp only [List.length_nil, List.length_cons] at h ⊢
      omega

section Includes

variable (env : IncludeEnv) (expandChild : Path → List Byte → Fallible (List Path) (List Byte))
  (baseDir : Path)

def includeLine (line raw : List Byte) : Fallible (List Path) (List Byte) :=
  match parseIncludeFilename line with
  | none => Fallible.failure
  | some none => pure raw
  | some (some name) => do
    let (path, content) ← openInclude env baseDir name
    fun tracker =>
      let (expanded, tracker) := expandChild (dirnameFromPath path) content tracker
      (expanded, tracker.dropLast)

theorem expandLines_of_ne {rounds : Nat} {text : List Byte} (h : text ≠ []) :
    expandLines env expandChild baseDir (rounds + 1) text = (do
      let line ← includeLine env expandChild baseDir (readLine text).1 (readLine text).2.1
      let out ← expandLines env expandChild baseDir rounds (readLine text).2.2
      pure (line ++ out)) := by
  funext tracker
  rw [expandLines, if_neg h, includeLine]
  simp only
  cases parseIncludeFilename (readLine text).1 with
  | none => rfl
  | some found =>
      cases found with
      | none => rfl
      | some name => exact (congrFun (Fallible.bind_assoc _ _ _) tracker).symm

theorem expandLines_more {rounds : Nat} {text : List Byte} (h : text.length ≤ rounds) :
    expandLines env expandChild baseDir (rounds + 1) text =
      expandLines env expandChild baseDir rounds text := by
  induction rounds generalizing text with
  | zero =>
      rw [List.length_eq_zero_iff.mp (Nat.le_zero.mp h)]
      rfl
  | succ rounds ih =>
      by_cases hne : text = []
      · rw [hne]
        rfl
      · have hlt := readLine_rest_lt hne
        rw [expandLines_of_ne _ _ _ hne, expandLines_of_ne _ _ _ hne,
          ih (Nat.le_of_lt_succ (Nat.lt_of_lt_of_le hlt h))]

theorem expandLines_enough {rounds : Nat} {text : List Byte} (h : text.length ≤ rounds) :
    expandLines env expandChild baseDir rounds text =
      expandLines env expandChild baseDir text.length text := by
  induction rounds, h using Nat.le_induction with
  | base => rfl
  | succ rounds h ih => rw [expandLines_more _ _ _ h, ih]

end Includes

theorem expandIncludes_of_ne (env : IncludeEnv) (levels : Nat) (baseDir : Path) {text : List Byte}
    (h : text ≠ []) : expandIncludes env (levels + 1) baseDir text = (do
      let line ← includeLine env (expandIncludes env levels) baseDir
        (readLine text).1 (readLine text).2.1
      let out ← expandIncludes env (levels + 1) baseDir (readLine text).2.2
      pure (line ++ out)) := by
  have hlt := readLine_rest_lt h
  obtain ⟨n, hn⟩ := Nat.exists_eq_add_one_of_ne_zero (Nat.ne_of_gt (Nat.zero_lt_of_lt hlt))
  rw [expandIncludes, hn, expandLines_of_ne _ _ _ h]
  rw [hn] at hlt
  rw [expandLines_enough _ _ _ (Nat.le_of_lt_succ hlt)]
  rfl

theorem expandIncludes_append (env : IncludeEnv) (levels : Nat) (baseDir : Path)
    {text : List Byte} (h : EndsLine text) (more : List Byte) :
    expandIncludes env (levels + 1) baseDir (text ++ more) = (do
      let out ← expandIncludes env (levels + 1) baseDir text
      let out' ← expandIncludes env (levels + 1) baseDir more
      pure (out ++ out')) := by
  funext tracker
  induction text using lineInduction generalizing tracker with
  | nil =>
      show expandIncludes env (levels + 1) baseDir more tracker =
        (expandIncludes env (levels + 1) baseDir more >>= fun out' => pure ([] ++ out')) tracker
      rw [Fallible.bind_run]
      cases expandIncludes env (levels + 1) baseDir more tracker with
      | mk out tracker' => cases out <;> rfl
  | line text hne ih =>
      rw [expandIncludes_of_ne _ _ _ hne,
        expandIncludes_of_ne _ _ _ (List.append_ne_nil_of_left_ne_nil hne _),
        readLine_append h hne]
      simp only [Fallible.bind_run]
      cases includeLine env (expandIncludes env levels) baseDir (readLine text).1
          (readLine text).2.1 tracker with
      | mk line tracker' =>
          cases line with
          | none => rfl
          | some line =>
              simp only [ih h.rest, Fallible.bind_run]
              cases expandIncludes env (levels + 1) baseDir (readLine text).2.2 tracker' with
              | mk out tracker'' =>
                  cases out with
                  | none => rfl
                  | some out =>
                      simp only [Fallible.pure_run]
                      cases expandIncludes env (levels + 1) baseDir more tracker'' with
                      | mk out' _ =>
                          cases out' with
                          | none => rfl
                          | some out' => simp only [List.append_assoc]

theorem expandIncludes_plain (env : IncludeEnv) (levels : Nat) (baseDir : Path)
    {text : List Byte} (h : ∀ line ∈ sourceLines text, parseIncludeFilename line.1 = some none) :
    expandIncludes env (levels + 1) baseDir text = pure text := by
  induction text using lineInduction with
  | nil => rfl
  | line text hne ih =>
      rw [sourceLines_of_ne hne, List.forall_mem_cons] at h
      obtain ⟨hline, hrest⟩ := h
      rw [expandIncludes_of_ne _ _ _ hne, includeLine]
      simp only at hline
      rw [hline, ih hrest]
      funext tracker
      show (some ((readLine text).2.1 ++ (readLine text).2.2), tracker) = (some text, tracker)
      rw [← readLine_split]

end X86Assembler
