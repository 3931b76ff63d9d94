import Mathlib.Data.List.DropRight
import X86Assembler.PreprocessorTermination

namespace X86Assembler

open CString (Byte isSpace)

/-- How many of the brackets that a text opens it does not close. -/
def depth (opening closing : Byte) (text : List Byte) : Int :=
  text.count opening - text.count closing

def OpenBrackets (text : List Byte) : Prop :=
  0 < depth 0x28#8 0x29#8 text ∨ 0 < depth 0x5B#8 0x5D#8 text

instance (text : List Byte) : Decidable (OpenBrackets text) :=
  inferInstanceAs (Decidable (_ ∨ _))

def StopsArg (parens brackets : Int) (b : Byte) (bs : List Byte) : Prop :=
  b = 0x2C#8 ∧ parens ≤ 0 ∧ brackets ≤ 0 ∨ b = 0x3B#8 ∨ b = 0x2F#8 ∧ bs.head? = some 0x2F#8

def ScansOver (parens brackets : Int) (text rest : List Byte) : Prop :=
  ∀ front b back, text = front ++ b :: back →
    ¬ StopsArg (parens + depth 0x28#8 0x29#8 front) (brackets + depth 0x5B#8 0x5D#8 front) b
      (back ++ rest)

theorem depth_nil (opening closing : Byte) : depth opening closing [] = 0 := rfl

theorem depth_cons {opening closing : Byte} (hne : opening ≠ closing) (n : Int) (b : Byte)
    (bs : List Byte) : n + depth opening closing (b :: bs) =
      (if b = opening then n + 1 else if b = closing then n - 1 else n) +
        depth opening closing bs := by
  simp only [depth, List.count_cons, beq_iff_eq]
  by_cases hopen : b = opening
  · subst hopen
    rw [if_pos rfl, if_neg hne, if_pos rfl]
    omega
  · rw [if_neg hopen, if_neg hopen]
    split
    · omega
    · omega

theorem scansOver_cons {parens brackets : Int} {b : Byte} {bs rest : List Byte} :
    ScansOver parens brackets (b :: bs) rest ↔
      ¬ StopsArg parens brackets b (bs ++ rest) ∧
        ScansOver (if b = 0x28#8 then parens + 1 else if b = 0x29#8 then parens - 1 else parens)
          (if b = 0x5B#8 then brackets + 1 else if b = 0x5D#8 then brackets - 1 else brackets)
          bs rest := by
  constructor
  · intro h
    refine ⟨?_, ?_⟩
    · have hfirst := h [] b bs rfl
      rwa [depth_nil, depth_nil, Int.add_zero, Int.add_zero] at hfirst
    · intro front c back heq
      have hlater := h (b :: front) c back (congrArg _ heq)
      rwa [depth_cons (by decide), depth_cons (by decide)] at hlater
  · rintro ⟨hfirst, hlater⟩ front c back heq
    cases front with
    | nil =>
        obtain ⟨rfl, rfl⟩ := List.cons.inj heq
        rwa [depth_nil, depth_nil, Int.add_zero, Int.add_zero]
    | cons d front =>
        obtain ⟨rfl, htail⟩ := List.cons.inj heq
        rw [depth_cons (by decide), depth_cons (by decide)]
        exact hlater front c back htail

theorem scansOver_nil (parens brackets : Int) (rest : List Byte) :
    ScansOver parens brackets [] rest := by
  intro front b back heq
  cases front <;> cases heq

theorem macroArg_nil (room : Nat) (parens brackets : Int) :
    macroArg room parens brackets [] = [] := by
  cases room <;> rfl

theorem macroArg_stops {room : Nat} {parens brackets : Int} {b : Byte} {bs : List Byte}
    (h : StopsArg parens brackets b bs) : macroArg room parens brackets (b :: bs) = [] := by
  cases room with
  | zero => rfl
  | succ room =>
      rw [macroArg, if_pos]
      rw [StopsArg, ← and_assoc] at h
      simpa [or_assoc] using h

theorem macroArg_passes {room : Nat} {parens brackets : Int} {b : Byte} {bs : List Byte}
    (h : ¬ StopsArg parens brackets b bs) : macroArg (room + 1) parens brackets (b :: bs) =
      b :: macroArg room
        (if b = 0x28#8 then parens + 1 else if b = 0x29#8 then parens - 1 else parens)
        (if b = 0x5B#8 then brackets + 1 else if b = 0x5D#8 then brackets - 1 else brackets) bs := by
  rw [macroArg, if_neg]
  rw [StopsArg, ← and_assoc] at h
  simpa [or_assoc] using h

theorem macroArg_append {text rest : List Byte} {room : Nat} {parens brackets : Int}
    (hroom : text.length ≤ room) (h : ScansOver parens brackets text rest) :
    macroArg room parens brackets (text ++ rest) =
      text ++ macroArg (room - text.length) (parens + depth 0x28#8 0x29#8 text)
        (brackets + depth 0x5B#8 0x5D#8 text) rest := by
  induction text generalizing room parens brackets with
  | nil =>
      rw [depth_nil, depth_nil, Int.add_zero, Int.add_zero]
      rfl
  | cons b bs ih =>
      obtain ⟨hb, hbs⟩ := scansOver_cons.mp h
      cases room with
      | zero => cases hroom
      | succ room =>
          rw [List.cons_append, macroArg_passes hb, ih (Nat.le_of_succ_le_succ hroom) hbs,
            depth_cons (by decide), depth_cons (by decide), List.length_cons,
            Nat.add_sub_add_right, List.cons_append]

theorem scansOver_of_isPrefix {text rest : List Byte} {room : Nat} {parens brackets : Int}
    (h : text <+: macroArg room parens brackets (text ++ rest)) :
    text.length ≤ room ∧ ScansOver parens brackets text rest := by
  induction text generalizing room parens brackets with
  | nil => exact ⟨Nat.zero_le _, scansOver_nil _ _ _⟩
  | cons b bs ih =>
      cases room with
      | zero => cases List.prefix_nil.mp h
      | succ room =>
          have hb : ¬ StopsArg parens brackets b (bs ++ rest) := by
            intro hstops
            rw [List.cons_append, macroArg_stops hstops] at h
            cases List.prefix_nil.mp h
          rw [List.cons_append, macroArg_passes hb, List.prefix_cons_inj] at h
          obtain ⟨hroom, hbs⟩ := ih h
          exact ⟨Nat.succ_le_succ hroom, scansOver_cons.mpr ⟨hb, hbs⟩⟩

theorem macroArg_isPrefix (room : Nat) (parens brackets : Int) (text : List Byte) :
    macroArg room parens brackets text <+: text := by
  induction text generalizing room parens brackets with
  | nil =>
      cases room with
      | zero => exact List.nil_prefix
      | succ room => exact List.nil_prefix
  | cons b bs ih =>
      cases room with
      | zero => exact List.nil_prefix
      | succ room =>
          by_cases hstops : StopsArg parens brackets b bs
          · rw [macroArg_stops hstops]
            exact List.nil_prefix
          · rw [macroArg_passes hstops]
            exact (List.prefix_cons_inj b).mpr (ih _ _ _)

def Blank (text : List Byte) : Prop := ∀ b ∈ text, isSpace b = true

instance (text : List Byte) : Decidable (Blank text) :=
  inferInstanceAs (Decidable (∀ b ∈ text, isSpace b = true))

structure Trimmed (text : List Byte) : Prop where
  first : ∀ b ∈ text.head?, isSpace b = false
  last : ∀ b ∈ text.getLast?, isSpace b = false

theorem Blank.skipSpaces {gap rest : List Byte} (hgap : Blank gap) :
    skipSpaces (gap ++ rest) = skipSpaces rest :=
  List.dropWhile_append_of_pos hgap

theorem skipSpaces_of_head {text : List Byte} (h : ∀ b ∈ text.head?, isSpace b = false) :
    skipSpaces text = text := by
  cases text with
  | nil => rfl
  | cons b bs =>
      rw [skipSpaces, List.dropWhile_cons_of_neg]
      rw [h b rfl]
      decide

theorem Trimmed.trimTrailingWs {text gap : List Byte} (h : Trimmed text) (hgap : Blank gap) :
    trimTrailingWs (text ++ gap) = text := by
  have hblank : ∀ b ∈ gap.reverse, isSpace b = true := fun b hb => hgap b (List.mem_reverse.mp hb)
  have hlast : skipSpaces text.reverse = text.reverse := by
    apply skipSpaces_of_head
    rw [List.head?_reverse]
    exact h.last
  rw [X86Assembler.trimTrailingWs, List.reverse_append, List.dropWhile_append_of_pos hblank]
  exact (congrArg List.reverse hlast).trans (List.reverse_reverse text)

theorem trimTrailingWs_split (text : List Byte) :
    ∃ gap, Blank gap ∧ text = trimTrailingWs text ++ gap := by
  refine ⟨text.rtakeWhile isSpace, ?_, ?_⟩
  · intro b hb
    rw [List.rtakeWhile, List.mem_reverse] at hb
    exact List.mem_takeWhile_imp hb
  · exact (List.rdropWhile_append_rtakeWhile).symm

theorem Blank.scansOver {gap : List Byte} (hgap : Blank gap) (parens brackets : Int)
    (rest : List Byte) : ScansOver parens brackets gap rest := by
  intro front b back heq hstops
  have hb : isSpace b = true := by
    apply hgap
    rw [heq]
    exact List.mem_append_right _ List.mem_cons_self
  rcases hstops with ⟨rfl, -⟩ | rfl | ⟨rfl, -⟩
  · cases hb
  · cases hb
  · cases hb

theorem Blank.count {gap : List Byte} (hgap : Blank gap) {c : Byte} (hc : isSpace c = false) :
    gap.count c = 0 := by
  apply List.count_eq_zero_of_not_mem
  intro hmem
  rw [hgap c hmem] at hc
  cases hc

theorem Blank.depth {gap : List Byte} (hgap : Blank gap) {opening closing : Byte}
    (hopening : isSpace opening = false) (hclosing : isSpace closing = false) :
    depth opening closing gap = 0 := by
  rw [X86Assembler.depth, hgap.count hopening, hgap.count hclosing]
  rfl

structure WrittenArg where
  before : List Byte := []
  text : List Byte
  after : List Byte := []
deriving DecidableEq

structure WrittenArg.WellFormed (a : WrittenArg) : Prop where
  before : Blank a.before
  trimmed : Trimmed a.text
  noNul : 0x00#8 ∉ a.text
  after : Blank a.after

def WrittenArg.padded (a : WrittenArg) : List Byte := a.before ++ a.text ++ a.after

def argsText (args : List WrittenArg) : List Byte :=
  [0x2C#8].intercalate (args.map WrittenArg.padded)

def moreArgs (more : List WrittenArg) : List Byte :=
  if more = [] then [] else 0x2C#8 :: argsText more

theorem argsText_cons (a : WrittenArg) (more : List WrittenArg) :
    argsText (a :: more) = a.before ++ (a.text ++ (a.after ++ moreArgs more)) := by
  cases more with
  | nil =>
      rw [argsText, List.map_singleton, List.intercalate_singleton, moreArgs, if_pos rfl,
        List.append_nil, WrittenArg.padded, List.append_assoc]
  | cons b more =>
      rw [argsText, List.map_cons, List.intercalate_cons_of_ne_nil (by simp), moreArgs,
        if_neg (List.cons_ne_nil _ _), ← argsText, WrittenArg.padded]
      simp only [List.append_assoc, List.singleton_append]

/-- The scan of an argument reads it to its end and no further. -/
structure ReadWhole (text : List Byte) : Prop where
  nonempty : text ≠ []
  noSlash : text.head? ≠ some 0x2F#8
  commas : ∀ i < text.length, text[i]? = some 0x2C#8 → OpenBrackets (text.take i)
  noSemicolon : 0x3B#8 ∉ text
  noSlashes : ∀ i < text.length, text[i]? = some 0x2F#8 → text[i + 1]? ≠ some 0x2F#8
  short : text.length < maxLineLength

/-- The comma behind an argument ends it: its brackets are closed, or the white space in between
fills the buffer. -/
def WrittenArg.Closed (a : WrittenArg) : Prop :=
  OpenBrackets a.text → maxLineLength ≤ a.text.length + a.after.length + 1

theorem scansOver_iff {text rest : List Byte} (hrest : rest.head? ≠ some 0x2F#8) :
    ScansOver 0 0 text rest ↔
      (∀ i < text.length, text[i]? = some 0x2C#8 → OpenBrackets (text.take i)) ∧
        0x3B#8 ∉ text ∧
          ∀ i < text.length, text[i]? = some 0x2F#8 → text[i + 1]? ≠ some 0x2F#8 := by
  have hsplit : ∀ {i b}, i < text.length → text[i]? = some b →
      text = text.take i ++ b :: text.drop (i + 1) := by
    intro i b hi hb
    rw [List.getElem?_eq_getElem hi] at hb
    rw [← Option.some.inj hb, ← List.drop_eq_getElem_cons, List.take_append_drop]
  constructor
  · intro h
    refine ⟨?_, ?_, ?_⟩
    · intro i hi hcomma
      have hnot := h _ _ _ (hsplit hi hcomma)
      rw [Int.zero_add, Int.zero_add] at hnot
      by_contra hclosed
      rw [OpenBrackets, not_or, Int.not_lt, Int.not_lt] at hclosed
      exact hnot (.inl ⟨rfl, hclosed⟩)
    · intro hmem
      obtain ⟨front, back, heq⟩ := List.append_of_mem hmem
      exact h front _ back heq (.inr (.inl rfl))
    · intro i hi hslash hnext
      apply h _ _ _ (hsplit hi hslash)
      right
      right
      refine ⟨rfl, ?_⟩
      rw [List.head?_append, List.head?_drop, hnext]
      rfl
  · rintro ⟨hcommas, hsemicolon, hslashes⟩ front b back rfl hstops
    rw [Int.zero_add, Int.zero_add] at hstops
    rcases hstops with ⟨rfl, hparens, hbrackets⟩ | rfl | ⟨rfl, hnext⟩
    · have hopen := hcommas front.length (by simp) (by simp)
      rw [List.take_left] at hopen
      rcases hopen with hopen | hopen
      · exact absurd hopen (Int.not_lt.mpr hparens)
      · exact absurd hopen (Int.not_lt.mpr hbrackets)
    · exact hsemicolon (List.mem_append_right _ List.mem_cons_self)
    · cases back with
      | nil => exact hrest hnext
      | cons c back =>
          obtain rfl := Option.some.inj hnext
          exact hslashes front.length (by simp) (by simp) (by simp)

def rawArg (text : List Byte) : List Byte := macroArg (maxLineLength - 1) 0 0 text

def readArg (text : List Byte) : Text := CString.copyBounded _ (trimTrailingWs (rawArg text))

def afterArg (text : List Byte) : List Byte :=
  skipComma (skipSpaces (text.drop (rawArg text).length))

/-- The first character of an argument that the loop reads. -/
structure StartsArg (b : Byte) : Prop where
  notSpace : isSpace b = false
  notComma : b ≠ 0x2C#8
  notSemicolon : b ≠ 0x3B#8
  notSlash : b ≠ 0x2F#8

theorem StartsArg.rawArg_ne_nil {b : Byte} (hb : StartsArg b) (bs : List Byte) :
    rawArg (b :: bs) ≠ [] :=
  macroArg_ne_nil hb.notComma hb.notSemicolon hb.notSlash 0 0

theorem macroArgs_round {b : Byte} {bs : List Byte} (hb : StartsArg b) {args : List Text}
    (hcount : args.length < maxMacroParams) (rounds : Nat) :
    macroArgs (rounds + 1) (b :: bs) args =
      macroArgs rounds (afterArg (b :: bs)) (args ++ [readArg (b :: bs)]) := by
  have hends : endsList (b :: bs) = false := by
    simp [endsList, hb.notSemicolon, hb.notSlash]
  have hsame : skipSpaces (skipComma (b :: bs)) = b :: bs := by
    have hcomma : skipComma (b :: bs) = b :: bs := by
      rw [skipComma.eq_def]
      simp [hb.notComma]
    rw [hcomma, skipSpaces, List.dropWhile_cons_of_neg]
    rw [hb.notSpace]
    decide
  rw [macroArgs, if_neg]
  · simp only [hsame]
    rw [← rawArg, if_neg (hb.rawArg_ne_nil bs)]
    rfl
  · rw [hends, Bool.false_or, decide_eq_true_iff]
    omega

theorem macroArgs_full {args : List Text} (hcount : maxMacroParams ≤ args.length) (rounds : Nat)
    (text : List Byte) : macroArgs (rounds + 1) text args = .returns args := by
  rw [macroArgs, if_pos]
  rw [decide_eq_true hcount, Bool.or_true]

theorem macroArgs_stop {text : List Byte} (hends : endsList text = true) (rounds : Nat)
    (args : List Text) : macroArgs (rounds + 1) text args = .returns args := by
  rw [macroArgs, if_pos]
  rw [hends, Bool.true_or]

theorem macroArgs_ne_null (rounds : Nat) (text : List Byte) (args : List Text) :
    macroArgs rounds text args ≠ .null := by
  induction rounds generalizing text args with
  | zero =>
      intro h
      cases h
  | succ rounds ih =>
      rw [macroArgs]
      split
      · intro h
        cases h
      · exact ih _ _

theorem rawArg_head {text : List Byte} (hne : rawArg text ≠ []) :
    ∃ b bs, text = b :: bs ∧ b ≠ 0x2C#8 ∧ b ≠ 0x3B#8 ∧ (rawArg text).head? = some b := by
  cases text with
  | nil => exact absurd (macroArg_nil _ _ _) hne
  | cons b bs =>
      have hpasses : ¬ StopsArg 0 0 b bs := fun hstops => hne (macroArg_stops hstops)
      refine ⟨b, bs, rfl, ?_, ?_, ?_⟩
      · rintro rfl
        exact hpasses (.inl ⟨rfl, Int.le_refl _, Int.le_refl _⟩)
      · rintro rfl
        exact hpasses (.inr (.inl rfl))
      · obtain ⟨more, heq⟩ := macroArg_isPrefix (maxLineLength - 1) 0 0 (b :: bs)
        rw [rawArg] at hne ⊢
        cases hraw : macroArg (maxLineLength - 1) 0 0 (b :: bs) with
        | nil => exact absurd hraw hne
        | cons c cs =>
            rw [hraw] at heq
            rw [(List.cons.inj heq).1, List.head?_cons]

theorem rawArg_split (text : List Byte) : rawArg text ++ text.drop (rawArg text).length = text :=
  List.prefix_iff_eq_append.mp (macroArg_isPrefix _ _ _ text)

theorem rawArg_length (text : List Byte) : (rawArg text).length < maxLineLength := by
  have hpre : rawArg text <+:
      macroArg (maxLineLength - 1) 0 0 (rawArg text ++ text.drop (rawArg text).length) :=
    (rawArg_split text).symm ▸ List.prefix_refl _
  exact Nat.lt_of_le_of_lt (scansOver_of_isPrefix hpre).1 (by decide)

theorem readArg_bytes {text : List Byte} (hnul : 0x00#8 ∉ text) :
    (readArg text).bytes = trimTrailingWs (rawArg text) := by
  have hpre := trimTrailingWs_isPrefix (rawArg text)
  apply CString.copyBounded_bytes_of_fits
  · exact Nat.lt_of_le_of_lt hpre.length_le (rawArg_length text)
  · intro hmem
    exact hnul ((hpre.trans (macroArg_isPrefix _ _ _ text)).subset hmem)

theorem readArg_head {text : List Byte} (hnul : 0x00#8 ∉ text)
    (hspace : ∀ b ∈ text.head?, isSpace b = false) (hne : rawArg text ≠ []) :
    ∃ b, (readArg text).bytes.head? = some b ∧ isSpace b = false ∧ b ≠ 0x2C#8 ∧ b ≠ 0x3B#8 := by
  obtain ⟨b, bs, rfl, hcomma, hsemicolon, hhead⟩ := rawArg_head hne
  refine ⟨b, ?_, hspace b rfl, hcomma, hsemicolon⟩
  rw [readArg_bytes hnul]
  obtain ⟨gap, hgap, hsplit⟩ := trimTrailingWs_split (rawArg (b :: bs))
  rw [hsplit] at hhead
  cases htrim : trimTrailingWs (rawArg (b :: bs)) with
  | nil =>
      rw [htrim] at hhead
      have hb := hgap b (List.mem_of_mem_head? hhead)
      rw [hspace b rfl] at hb
      cases hb
  | cons c cs =>
      rw [htrim] at hhead
      exact hhead

theorem skipComma_suffix (text : List Byte) : skipComma text <:+ text := by
  rw [skipComma.eq_def]
  split
  · exact (List.dropWhile_suffix _).trans (List.suffix_cons _ _)
  · exact List.suffix_refl _

theorem afterArg_suffix (text : List Byte) : afterArg text <:+ text.drop (rawArg text).length :=
  (skipComma_suffix _).trans (List.dropWhile_suffix _)

/-- The arguments that the loop adds are pieces of the text, one behind the other, and none is
empty. -/
theorem macroArgs_new {rounds : Nat} {text : List Byte} {args out : List Text}
    (hnul : 0x00#8 ∉ text) (h : macroArgs rounds text args = .returns out) :
    ∃ new, out = args ++ new ∧ (new.map (·.bytes)).flatten.Sublist text ∧
      ∀ a ∈ new, ∃ b, a.bytes.head? = some b ∧ isSpace b = false ∧ b ≠ 0x2C#8 ∧ b ≠ 0x3B#8 := by
  induction rounds generalizing text args with
  | zero => cases h
  | succ rounds ih =>
      rw [macroArgs] at h
      split at h
      · cases h
        exact ⟨[], (List.append_nil _).symm, List.nil_sublist _, List.forall_mem_nil _⟩
      · dsimp only at h
        have hsuffix : skipSpaces (skipComma text) <:+ text :=
          (List.dropWhile_suffix _).trans (skipComma_suffix _)
        have hspace : ∀ b ∈ (skipSpaces (skipComma text)).head?, isSpace b = false :=
          fun b hb => head_dropWhile hb
        generalize skipSpaces (skipComma text) = text' at h hsuffix hspace
        have hafter := afterArg_suffix text'
        have hnul' : 0x00#8 ∉ text' := fun hmem => hnul (hsuffix.subset hmem)
        have hnul'' : 0x00#8 ∉ afterArg text' := by
          intro hmem
          exact hnul' (List.mem_of_mem_drop (hafter.subset hmem))
        by_cases hraw : rawArg text' = []
        · rw [← rawArg, if_pos hraw] at h
          obtain ⟨new, heq, hsub, hheads⟩ := ih hnul'' h
          rw [hraw, List.length_nil, List.drop_zero] at hafter
          exact ⟨new, heq, hsub.trans (hafter.sublist.trans hsuffix.sublist), hheads⟩
        · rw [← rawArg, if_neg hraw] at h
          obtain ⟨new, heq, hsub, hheads⟩ := ih hnul'' h
          refine ⟨readArg text' :: new, ?_, ?_, ?_⟩
          · rw [heq, List.append_assoc, List.singleton_append]
            rfl
          · rw [List.map_cons, List.flatten_cons, readArg_bytes hnul']
            have hall := (trimTrailingWs_isPrefix (rawArg text')).sublist.append
              (hsub.trans hafter.sublist)
            rw [rawArg_split] at hall
            exact hall.trans hsuffix.sublist
          · exact List.forall_mem_cons.mpr ⟨readArg_head hnul' hspace hraw, hheads⟩

theorem macroArg_gap {gap rest : List Byte} (hgap : Blank gap) {room : Nat} {parens brackets : Int}
    (hstop : rest = [] ∨ room ≤ gap.length ∨
      rest.head? = some 0x2C#8 ∧ parens ≤ 0 ∧ brackets ≤ 0) :
    macroArg room parens brackets (gap ++ rest) = gap.take room := by
  by_cases hroom : room ≤ gap.length
  · have htake : (gap.take room).length = room := List.length_take_of_le hroom
    have hblank : Blank (gap.take room) := fun b hb => hgap b (List.mem_of_mem_take hb)
    have hsplit : gap ++ rest = gap.take room ++ (gap.drop room ++ rest) := by
      rw [← List.append_assoc, List.take_append_drop]
    rw [hsplit, macroArg_append (Nat.le_of_eq htake) (hblank.scansOver _ _ _), htake, Nat.sub_self]
    exact List.append_nil _
  · have hle := Nat.le_of_not_le hroom
    rw [macroArg_append hle (hgap.scansOver _ _ _), hgap.depth rfl rfl, hgap.depth rfl rfl,
      Int.add_zero, Int.add_zero, List.take_of_length_le hle]
    rcases hstop with rfl | hstop | ⟨hhead, hparens, hbrackets⟩
    · rw [macroArg_nil, List.append_nil]
    · exact absurd hstop hroom
    · cases rest with
      | nil => cases hhead
      | cons c rest =>
          rw [macroArg_stops (.inl ⟨Option.some.inj hhead, hparens, hbrackets⟩), List.append_nil]

theorem moreArgs_head (more : List WrittenArg) (hne : more ≠ []) :
    moreArgs more = 0x2C#8 :: argsText more := if_neg hne

theorem WrittenArg.WellFormed.following_head {a : WrittenArg} (ha : a.WellFormed)
    (more : List WrittenArg) : (a.after ++ moreArgs more).head? ≠ some 0x2F#8 := by
  cases hafter : a.after with
  | nil =>
      rw [List.nil_append, moreArgs]
      split
      · simp
      · simp
  | cons c gap =>
      have hc : isSpace c = true := ha.after c (hafter ▸ List.mem_cons_self)
      intro hhead
      rw [Option.some.inj hhead] at hc
      cases hc

theorem rawArg_written {a : WrittenArg} (ha : a.WellFormed) {more : List WrittenArg}
    (hwhole : ReadWhole a.text) (hclosed : more ≠ [] → a.Closed) :
    rawArg (a.text ++ (a.after ++ moreArgs more)) =
      a.text ++ a.after.take (maxLineLength - 1 - a.text.length) := by
  have hscan := (scansOver_iff (ha.following_head more)).mpr
    ⟨hwhole.commas, hwhole.noSemicolon, hwhole.noSlashes⟩
  have hshort := hwhole.short
  rw [rawArg, macroArg_append (Nat.le_sub_one_of_lt hshort) hscan]
  congr 1
  apply macroArg_gap ha.after
  by_cases hmore : more = []
  · exact .inl (if_pos hmore)
  by_cases hopen : OpenBrackets a.text
  · have hfull := hclosed hmore hopen
    exact .inr (.inl (by omega))
  · rw [OpenBrackets, not_or, Int.not_lt, Int.not_lt] at hopen
    rw [Int.zero_add, Int.zero_add, moreArgs_head more hmore]
    exact .inr (.inr ⟨rfl, hopen⟩)

theorem readWhole_of_readArg {a : WrittenArg} (ha : a.WellFormed) {more : List WrittenArg}
    (hnul : 0x00#8 ∉ a.text ++ (a.after ++ moreArgs more)) (hne : a.text ≠ [])
    (hslash : a.text.head? ≠ some 0x2F#8)
    (h : (readArg (a.text ++ (a.after ++ moreArgs more))).bytes = a.text) :
    ReadWhole a.text ∧ (more ≠ [] → a.Closed) := by
  rw [readArg_bytes hnul] at h
  obtain ⟨gap, hgap, hsplit⟩ := trimTrailingWs_split (rawArg (a.text ++ (a.after ++ moreArgs more)))
  rw [h, rawArg] at hsplit
  have hpre : a.text <+:
      macroArg (maxLineLength - 1) 0 0 (a.text ++ (a.after ++ moreArgs more)) := by
    rw [hsplit]
    exact List.prefix_append _ _
  obtain ⟨hroom, hscan⟩ := scansOver_of_isPrefix hpre
  obtain ⟨hcommas, hsemicolon, hslashes⟩ := (scansOver_iff (ha.following_head more)).mp hscan
  refine ⟨⟨hne, hslash, hcommas, hsemicolon, hslashes, Nat.lt_of_le_of_lt hroom (by decide)⟩, ?_⟩
  intro hmore hopen
  by_contra hroom'
  have hlt : a.after.length < maxLineLength - 1 - a.text.length := by omega
  rw [macroArg_append hroom hscan, List.append_cancel_left_eq,
    macroArg_append (Nat.le_of_lt hlt) (ha.after.scansOver _ _ _), ha.after.depth rfl rfl,
    ha.after.depth rfl rfl, moreArgs_head more hmore] at hsplit
  simp only [Int.zero_add, Int.add_zero] at hsplit
  obtain ⟨room, hroom''⟩ := Nat.exists_eq_add_of_lt hlt
  have hpasses : ¬ StopsArg (depth 0x28#8 0x29#8 a.text) (depth 0x5B#8 0x5D#8 a.text) 0x2C#8
      (argsText more) := by
    rintro (⟨-, hparens, hbrackets⟩ | hmark | ⟨hmark, -⟩)
    · rcases hopen with hopen | hopen
      · exact absurd hopen (Int.not_lt.mpr hparens)
      · exact absurd hopen (Int.not_lt.mpr hbrackets)
    · cases hmark
    · cases hmark
  rw [hroom'', Nat.add_assoc, Nat.add_sub_cancel_left, macroArg_passes hpasses] at hsplit
  have hcomma : isSpace 0x2C#8 = true := by
    apply hgap
    rw [← hsplit]
    exact List.mem_append_right _ List.mem_cons_self
  cases hcomma

theorem argsText_count {args : List WrittenArg} (hargs : ∀ a ∈ args, a.WellFormed) {c : Byte}
    (hspace : isSpace c = false) (hcomma : c ≠ 0x2C#8) :
    (argsText args).count c = (args.map (·.text)).flatten.count c := by
  induction args with
  | nil => rfl
  | cons a more ih =>
      obtain ⟨ha, hmore⟩ := List.forall_mem_cons.mp hargs
      have hrest : (moreArgs more).count c = (more.map (·.text)).flatten.count c := by
        rw [moreArgs]
        split
        · next hnil =>
            rw [hnil]
            rfl
        · rw [List.count_cons_of_ne (Ne.symm hcomma), ih hmore]
      rw [argsText_cons, List.map_cons, List.flatten_cons]
      simp only [List.count_append, ha.before.count hspace, ha.after.count hspace, hrest]
      omega

theorem argsText_noNul {args : List WrittenArg} (hargs : ∀ a ∈ args, a.WellFormed) :
    0x00#8 ∉ argsText args := by
  rw [← List.count_eq_zero, argsText_count hargs rfl (by decide), List.count_eq_zero]
  simp only [List.mem_flatten, List.mem_map, not_exists, not_and]
  rintro _ ⟨a, ha, rfl⟩
  exact (hargs a ha).noNul

theorem skipSpaces_argsText {a : WrittenArg} (ha : a.WellFormed) {b : Byte} {bs : List Byte}
    (htext : a.text = b :: bs) (more : List WrittenArg) :
    skipSpaces (argsText (a :: more)) = a.text ++ (a.after ++ moreArgs more) := by
  rw [argsText_cons, ha.before.skipSpaces]
  apply skipSpaces_of_head
  rw [htext]
  rintro c ⟨⟩
  exact ha.trimmed.first b (htext ▸ rfl)

theorem afterArg_written {a : WrittenArg} (ha : a.WellFormed) {more : List WrittenArg}
    (hwhole : ReadWhole a.text) (hclosed : more ≠ [] → a.Closed) :
    afterArg (a.text ++ (a.after ++ moreArgs more)) = skipSpaces (argsText more) := by
  rw [afterArg, rawArg_written ha hwhole hclosed]
  generalize maxLineLength - 1 - a.text.length = k
  have hdrop : (a.text ++ (a.after ++ moreArgs more)).drop (a.text ++ a.after.take k).length =
      a.after.drop k ++ moreArgs more := by
    have hsplit : a.text ++ (a.after ++ moreArgs more) =
        (a.text ++ a.after.take k) ++ (a.after.drop k ++ moreArgs more) := by
      rw [List.append_assoc, ← List.append_assoc (a.after.take k), List.take_append_drop]
    rw [hsplit, List.drop_left]
  have hblank : Blank (a.after.drop k) := fun b hb => ha.after b (List.mem_of_mem_drop hb)
  rw [hdrop, hblank.skipSpaces, moreArgs]
  split
  · next hmore =>
      rw [hmore]
      rfl
  · rfl

theorem ReadWhole.startsArg {b : Byte} {bs : List Byte} (h : ReadWhole (b :: bs))
    (hspace : isSpace b = false) : StartsArg b := by
  refine ⟨hspace, ?_, ?_, ?_⟩
  · rintro rfl
    rcases h.commas 0 (Nat.succ_pos _) rfl with hopen | hopen
    · exact absurd hopen (Int.lt_irrefl 0)
    · exact absurd hopen (Int.lt_irrefl 0)
  · rintro rfl
    exact h.noSemicolon List.mem_cons_self
  · rintro rfl
    exact h.noSlash rfl

section Round

variable {a : WrittenArg} {more : List WrittenArg} (hargs : ∀ c ∈ a :: more, c.WellFormed)
  {b : Byte} {bs : List Byte} (htext : a.text = b :: bs) (hb : StartsArg b) {rounds : Nat}
  {acc : List Text}

def firstArg (a : WrittenArg) (more : List WrittenArg) : Text :=
  readArg (a.text ++ (a.after ++ moreArgs more))

include hargs htext hb

theorem macroArgs_written_round (hcount : acc.length < maxMacroParams) :
    macroArgs (rounds + 1) (skipSpaces (argsText (a :: more))) acc =
      macroArgs rounds (afterArg (a.text ++ (a.after ++ moreArgs more)))
        (acc ++ [firstArg a more]) := by
  rw [skipSpaces_argsText (hargs a List.mem_cons_self) htext, firstArg, htext]
  exact macroArgs_round hb hcount rounds

theorem argsText_shrinks (hwhole : ReadWhole a.text) (hclosed : more ≠ [] → a.Closed) :
    (skipSpaces (argsText more)).length < (skipSpaces (argsText (a :: more))).length := by
  have ha := hargs a List.mem_cons_self
  have hlen := (afterArg_suffix (a.text ++ (a.after ++ moreArgs more))).length_le
  have hpos : 0 < (rawArg (a.text ++ (a.after ++ moreArgs more))).length := by
    rw [htext]
    exact List.length_pos_iff.mpr (hb.rawArg_ne_nil _)
  have hne : 0 < (a.text ++ (a.after ++ moreArgs more)).length := by
    rw [htext]
    exact Nat.succ_pos _
  rw [afterArg_written ha hwhole hclosed, List.length_drop] at hlen
  rw [skipSpaces_argsText ha htext]
  omega

end Round

theorem macroArgs_reads_first {a : WrittenArg} {more : List WrittenArg}
    (hargs : ∀ c ∈ a :: more, c.WellFormed) {rounds : Nat} {acc new : List Text} {x : Text}
    (hx : x.bytes = a.text)
    (h : macroArgs (rounds + 1) (skipSpaces (argsText (a :: more))) acc =
      .returns (acc ++ x :: new)) :
    acc.length < maxMacroParams ∧ ReadWhole a.text ∧ (more ≠ [] → a.Closed) ∧
      (skipSpaces (argsText more)).length < (skipSpaces (argsText (a :: more))).length ∧
      macroArgs rounds (skipSpaces (argsText more)) (acc ++ [x]) = .returns (acc ++ [x] ++ new) := by
  have ha := hargs a List.mem_cons_self
  have hnul : 0x00#8 ∉ skipSpaces (argsText (a :: more)) := fun hmem =>
    argsText_noNul hargs ((List.dropWhile_sublist _).subset hmem)
  obtain ⟨_, heq, -, hheads⟩ := macroArgs_new hnul h
  obtain rfl := List.append_cancel_left heq
  obtain ⟨b, hhead, hspace, hcomma, hsemicolon⟩ := hheads x List.mem_cons_self
  rw [hx] at hhead
  obtain ⟨bs, htext⟩ : ∃ bs, a.text = b :: bs := List.head?_eq_some_iff.mp hhead
  have hstart := skipSpaces_argsText ha htext more
  have hmoves : ∀ {out}, Outcome.returns acc = .returns out → out ≠ acc ++ x :: new := by
    intro out hsame hout
    rw [← Outcome.returns.inj hsame] at hout
    simp at hout
  have hslash : b ≠ 0x2F#8 := by
    rintro rfl
    have hends : endsList (skipSpaces (argsText (a :: more))) = true := by
      rw [hstart, htext]
      rfl
    rw [macroArgs_stop hends] at h
    exact hmoves h rfl
  have hcount : acc.length < maxMacroParams := by
    by_contra hfull
    rw [macroArgs_full (Nat.le_of_not_lt hfull)] at h
    exact hmoves h rfl
  have hb : StartsArg b := ⟨hspace, hcomma, hsemicolon, hslash⟩
  rw [macroArgs_written_round hargs htext hb hcount] at h
  rw [hstart] at hnul
  obtain ⟨new', heq', -, -⟩ := macroArgs_new (fun hmem => hnul
    (List.mem_of_mem_drop ((afterArg_suffix _).subset hmem))) h
  rw [List.append_assoc, List.append_cancel_left_eq, List.singleton_append] at heq'
  obtain ⟨hread, rfl⟩ := List.cons.inj heq'
  rw [hread, firstArg] at hx
  obtain ⟨hwhole, hclosed⟩ := readWhole_of_readArg ha hnul (htext ▸ List.cons_ne_nil _ _)
    (by rw [hhead]; exact fun hsame => hslash (Option.some.inj hsame)) hx
  refine ⟨hcount, hwhole, hclosed, argsText_shrinks hargs htext hb hwhole hclosed, ?_⟩
  rw [afterArg_written ha hwhole hclosed, ← hread] at h
  rw [h, List.append_assoc, List.singleton_append]

theorem macroArgs_first {a : WrittenArg} {more : List WrittenArg}
    (hargs : ∀ c ∈ a :: more, c.WellFormed) (hwhole : ReadWhole a.text)
    (hclosed : more ≠ [] → a.Closed) :
    (firstArg a more).bytes = a.text ∧
      (skipSpaces (argsText more)).length < (skipSpaces (argsText (a :: more))).length ∧
      ∀ (rounds : Nat) (acc : List Text), acc.length < maxMacroParams →
        macroArgs (rounds + 1) (skipSpaces (argsText (a :: more))) acc =
          macroArgs rounds (skipSpaces (argsText more)) (acc ++ [firstArg a more]) := by
  have ha := hargs a List.mem_cons_self
  obtain ⟨b, bs, htext⟩ := List.exists_cons_of_ne_nil hwhole.nonempty
  have hb : StartsArg b := by
    rw [htext] at hwhole
    exact hwhole.startsArg (ha.trimmed.first b (htext ▸ rfl))
  refine ⟨?_, argsText_shrinks hargs htext hb hwhole hclosed, ?_⟩
  · have hnul : 0x00#8 ∉ skipSpaces (argsText (a :: more)) := fun hmem =>
      argsText_noNul hargs ((List.dropWhile_sublist _).subset hmem)
    rw [skipSpaces_argsText ha htext] at hnul
    rw [firstArg, readArg_bytes hnul, rawArg_written ha hwhole hclosed, ha.trimmed.trimTrailingWs]
    exact fun c hc => ha.after c (List.mem_of_mem_take hc)
  · intro rounds acc hcount
    rw [macroArgs_written_round hargs htext hb hcount, afterArg_written ha hwhole hclosed]

theorem macroArgs_written {args : List WrittenArg} (hargs : ∀ a ∈ args, a.WellFormed)
    {rounds : Nat} (hrounds : (skipSpaces (argsText args)).length < rounds) {acc : List Text}
    (hacc : acc.length ≤ maxMacroParams) :
    (∃ new : List Text, new.map (·.bytes) = args.map (·.text) ∧
        macroArgs rounds (skipSpaces (argsText args)) acc = .returns (acc ++ new)) ↔
      acc.length + args.length ≤ maxMacroParams ∧ (∀ a ∈ args, ReadWhole a.text) ∧
        ∀ a ∈ args.dropLast, a.Closed := by
  induction args generalizing rounds acc with
  | nil =>
      obtain ⟨rounds, rfl⟩ := Nat.exists_eq_succ_of_ne_zero (Nat.ne_zero_of_lt hrounds)
      constructor
      · intro _
        exact ⟨hacc, List.forall_mem_nil _, List.forall_mem_nil _⟩
      · intro _
        refine ⟨[], rfl, ?_⟩
        rw [List.append_nil]
        exact macroArgs_stop rfl _ _
  | cons a more ih =>
      obtain ⟨rounds, rfl⟩ := Nat.exists_eq_succ_of_ne_zero (Nat.ne_zero_of_lt hrounds)
      have hmore := (List.forall_mem_cons.mp hargs).2
      have hlength : ∀ x : Text, (acc ++ [x]).length = acc.length + 1 := by
        intro x
        rw [List.length_append, List.length_singleton]
      have hclosedIff : (∀ c ∈ (a :: more).dropLast, c.Closed) ↔
          (more ≠ [] → a.Closed) ∧ ∀ c ∈ more.dropLast, c.Closed := by
        cases more with
        | nil => simp
        | cons c more => simp
      rw [hclosedIff, List.forall_mem_cons, List.length_cons]
      constructor
      · rintro ⟨new, hbytes, hreturns⟩
        cases new with
        | nil => cases hbytes
        | cons x new =>
            obtain ⟨hx, hbytes⟩ := List.cons.inj hbytes
            obtain ⟨hcount, hwhole, hclosed, hshrinks, hreturns⟩ :=
              macroArgs_reads_first hargs hx hreturns
            obtain ⟨hlen, hwholes, hcloseds⟩ :=
              (ih hmore (by omega) (by rw [hlength]; exact hcount)).mp ⟨new, hbytes, hreturns⟩
            rw [hlength] at hlen
            exact ⟨by omega, ⟨hwhole, hwholes⟩, hclosed, hcloseds⟩
      · rintro ⟨hlen, ⟨hwhole, hwholes⟩, hclosed, hcloseds⟩
        obtain ⟨hbytes, hshrinks, hround⟩ := macroArgs_first hargs hwhole hclosed
        have hcount : (acc ++ [firstArg a more]).length + more.length ≤ maxMacroParams := by
          rw [hlength]
          omega
        obtain ⟨new, hnew, hreturns⟩ := (@ih hmore rounds (by omega) (acc ++ [firstArg a more])
          (by omega)).mpr ⟨hcount, hwholes, hcloseds⟩
        refine ⟨firstArg a more :: new, ?_, ?_⟩
        · rw [List.map_cons, List.map_cons, hbytes, hnew]
        · rw [hround rounds acc (by omega), hreturns, List.append_assoc, List.singleton_append]

end X86Assembler
