import Mathlib.Data.List.Forall2
import X86Assembler.ParserTermination

namespace X86Assembler

open CString (Byte str)
open Fallible (Ensures ensures_pure)
open X86Assembler.Parser (captureOriginalLine)

/-- The parser has read the source up to a token, which is at hand. -/
structure StandsAt (source : List Byte) (k : Nat) (p : ParserState) : Prop where
  current : p.current = tokenAt source k
  peek : p.peek = tokenAt source (k + 1)
  lexer : p.lexer = lexerAt source (k + 2)

theorem StandsAt.of_place {source : List Byte} {k : Nat} {p q : ParserState}
    (h : StandsAt source k p) (hplace : q.place = p.place) : StandsAt source k q :=
  ⟨(congrArg Prod.fst hplace).trans h.current,
    (congrArg (fun place => place.2.1) hplace).trans h.peek,
    (congrArg (fun place => place.2.2) hplace).trans h.lexer⟩

theorem nextToken_of_blank {lx : Lexer} (h : skipWhitespace lx.rest = []) :
    nextToken lx =
      ({ type := .eof, line := lx.line, column := Lexer.column { lx with rest := [] } },
        { lx with rest := [] }) := by
  rw [nextToken]
  simp only [h]

theorem eof_stays {source : List Byte} {k : Nat} (h : (tokenAt source k).type = .eof) :
    tokenAt source (k + 1) = tokenAt source k ∧ lexerAt source (k + 2) = lexerAt source (k + 1) := by
  have hblank : skipWhitespace (lexerAt source k).rest = [] := by
    cases nextToken_at source k with
    | eof _ hblank _ => exact hblank
    | newline htype _ _ =>
        rw [h] at htype
        cases htype
    | other hne _ _ _ _ => exact absurd h hne
  have hnext := nextToken_of_blank hblank
  have hlexer : lexerAt source (k + 1) = { lexerAt source k with rest := [] } := by
    rw [lexerAt, hnext]
  have hagain := @nextToken_of_blank { lexerAt source k with rest := [] } rfl
  constructor
  · rw [tokenAt, tokenAt, hlexer, hagain, hnext]
  · rw [lexerAt, hlexer, hagain]

theorem standsAt_advance {source : List Byte} {k : Nat} {p : ParserState}
    (h : StandsAt source k p) : StandsAt source (k + 1) p.advance := by
  rw [ParserState.advance]
  split
  · rename_i heof
    rw [h.peek] at heof
    obtain ⟨htoken, hlexer⟩ := eof_stays heof
    exact ⟨h.peek, h.peek.trans htoken.symm, h.lexer.trans hlexer.symm⟩
  · refine ⟨h.peek, ?_, ?_⟩
    · rw [h.lexer]
      rfl
    · rw [h.lexer]
      rfl

theorem standsAt_start (source : List Byte) : StandsAt source 0 (initTokens source) := by
  have hinit : initTokens source =
      ParserState.advance { lexer := lexerAt source 1, peek := tokenAt source 0 } := rfl
  rw [hinit, ParserState.advance]
  split
  · rename_i heof
    obtain ⟨htoken, hlexer⟩ := eof_stays heof
    exact ⟨rfl, htoken.symm, hlexer.symm⟩
  · exact ⟨rfl, rfl, rfl⟩

theorem standsAt_reads {source : List Byte} {k : Nat} {p q : ParserState}
    (h : StandsAt source k p) (hreads : ReadsOn p q) : ∃ k', StandsAt source k' q := by
  obtain ⟨n, hn⟩ := hreads
  induction n generalizing k p with
  | zero => exact ⟨k, h.of_place hn⟩
  | succ n ih => exact ih (standsAt_advance h) hn

def KeepsLine (inst : ParsedInstruction) (m : Parser ParsedInstruction) : Prop :=
  ∀ p, Ensures m (fun out _ => out.lineNumber = inst.lineNumber ∧
    out.originalLine = inst.originalLine) (fun _ => True) p

section Rules

variable {α : Type} {inst : ParsedInstruction}

theorem keepsLine_pure {out : ParsedInstruction} (hline : out.lineNumber = inst.lineNumber)
    (htext : out.originalLine = inst.originalLine) : KeepsLine inst (pure out) :=
  fun _ => ensures_pure ⟨hline, htext⟩

theorem keepsLine_error (category message : String) (args : List (List Byte)) :
    KeepsLine inst (Parser.error category message args) := fun _ => Ensures.of_none rfl trivial

theorem keepsLine_bind {m : Parser α} {f : α → Parser ParsedInstruction}
    (hf : ∀ a, KeepsLine inst (f a)) : KeepsLine inst (m >>= f) := by
  intro p
  have hm : Ensures m (fun _ _ => True) (fun _ => True) p :=
    ⟨fun _ _ _ => trivial, fun _ _ => trivial⟩
  exact hm.bind (fun a q _ => hf a q) fun _ h => h

theorem keepsLine_ite {c : Prop} [Decidable c] {m m' : Parser ParsedInstruction}
    (h : KeepsLine inst m) (h' : KeepsLine inst m') : KeepsLine inst (if c then m else m') := by
  split
  · exact h
  · exact h'

end Rules

namespace Parser

theorem applySectionShorthand_keepsLine (inst : ParsedInstruction) (mnemonic : Text) :
    KeepsLine inst (applySectionShorthand inst mnemonic) := by
  apply keepsLine_bind
  intro tok
  apply keepsLine_ite
  · exact keepsLine_pure rfl rfl
  · exact keepsLine_error _ _ _

theorem parseMnemonic_keepsLine (inst : ParsedInstruction) (mnemonic : Text) :
    KeepsLine inst (parseMnemonic inst mnemonic) := by
  rw [parseMnemonic.eq_def]
  split
  · exact keepsLine_error _ _ _
  · apply keepsLine_bind
    intro _
    apply keepsLine_ite
    · exact applySectionShorthand_keepsLine { inst with type := _ } mnemonic
    · apply keepsLine_ite
      · exact keepsLine_bind fun _ => keepsLine_pure rfl rfl
      · apply keepsLine_bind
        intro operands
        exact keepsLine_bind fun _ => keepsLine_pure rfl rfl

theorem equDefinition_keepsLine (inst : ParsedInstruction) (name : Token) :
    KeepsLine inst (equDefinition inst name) := by
  apply keepsLine_bind
  intro _
  apply keepsLine_bind
  intro _
  apply keepsLine_bind
  intro op
  split
  · exact keepsLine_pure rfl rfl
  · exact keepsLine_pure rfl rfl
  · exact keepsLine_pure rfl rfl
  · exact keepsLine_error _ _ _

theorem maybeParseEquDirective_keepsLine (inst : ParsedInstruction) (p : ParserState) :
    Ensures (maybeParseEquDirective inst) (fun r _ => ∀ out, r = some out →
      out.lineNumber = inst.lineNumber ∧ out.originalLine = inst.originalLine)
      (fun _ => True) p := by
  show Ensures (if _ then _ else _) _ _ p
  split
  · refine (equDefinition_keepsLine inst p.current p).bind (fun out q hout => ?_) fun _ h => h
    apply ensures_pure
    rintro _ ⟨⟩
    exact hout
  · apply ensures_pure
    intro out hnone
    cases hnone

theorem parseBody_keepsLine (inst : ParsedInstruction) : KeepsLine inst (parseBody inst) := by
  intro p
  refine (maybeParseEquDirective_keepsLine inst p).bind (fun r q hr => ?_) fun _ h => h
  cases r with
  | some out => exact ensures_pure (hr out rfl)
  | none =>
      have hrest : KeepsLine inst (current >>= fun tok =>
          if tok.type = .identifier then parseMnemonic inst tok.text else pure inst) := by
        apply keepsLine_bind
        intro tok
        apply keepsLine_ite
        · exact parseMnemonic_keepsLine inst tok.text
        · exact keepsLine_pure rfl rfl
      exact hrest q

theorem parseLabel_keepsLine (inst : ParsedInstruction) : KeepsLine inst (parseLabel inst) := by
  apply keepsLine_bind
  intro p
  apply keepsLine_ite
  · exact keepsLine_bind fun _ => keepsLine_bind fun _ => keepsLine_pure rfl rfl
  · exact keepsLine_pure rfl rfl

theorem parseInstruction_line {p q : ParserState} {inst : ParsedInstruction}
    (h : parseInstruction p = (some inst, q)) :
    inst.lineNumber = p.lexer.line ∧ inst.originalLine = captureOriginalLine p.lexer := by
  have hspec : Ensures parseInstruction (fun out _ => out.lineNumber = p.lexer.line ∧
      out.originalLine = captureOriginalLine p.lexer) (fun _ => True) p := by
    show Ensures (if _ then _ else _) _ _ p
    split
    · exact ensures_pure ⟨rfl, rfl⟩
    · refine (parseLabel_keepsLine _ p).bind (fun out r hout => ?_) fun _ h => h
      refine (parseBody_keepsLine out r).mono (fun _ _ h => ?_) fun _ h => h
      exact ⟨h.1.trans hout.1, h.2.trans hout.2⟩
  exact hspec.1 inst q h

theorem parseInstruction_reads {p q : ParserState} {inst : ParsedInstruction}
    (h : parseInstruction p = (some inst, q)) : ReadsOn p q := by
  by_cases hp : p.current.type = .identifier
  · exact ((parseInstruction_spec p hp).1 inst q h).reads
  · obtain ⟨out, hrun, -, -⟩ := parseInstruction_of_ne p hp
    rw [h] at hrun
    cases hrun
    exact .refl p

end Parser

/-- The parser states in front of the statements that are still to be kept. -/
def keptStates : Nat → ParseLoop → List ParserState
  | 0, _ => []
  | rounds + 1, s =>
    match parseRound s with
    | .parsed _ => []
    | .failed _ => []
    | .next s' =>
      (if s'.insts.length = s.insts.length then [] else [s.parser]) ++ keptStates rounds s'

/-- A kept statement and the state in front of it: it starts with a name, and has the line that
the lexer stands in. -/
structure StartedIn (source : List Byte) (p : ParserState) (inst : ParsedInstruction) : Prop where
  stands : ∃ k, StandsAt source k p
  name : p.current.type = .identifier
  lineNumber : inst.lineNumber = p.lexer.line
  originalLine : inst.originalLine = captureOriginalLine p.lexer

theorem parseRound_next {source : List Byte} {s s' : ParseLoop} (h : parseRound s = .next s')
    (hs : ∃ k, StandsAt source k s.parser) : (∃ k, StandsAt source k s'.parser) ∧
      (s'.insts = s.insts ∨
        ∃ inst, s'.insts = s.insts ++ [inst] ∧ StartedIn source s.parser inst) := by
  rw [parseRound] at h
  split at h
  · cases h
  split at h
  · cases h
  rename_i inst p hparse
  cases h
  obtain ⟨k, hk⟩ := hs
  refine ⟨?_, ?_⟩
  · apply standsAt_reads hk
    exact (Parser.parseInstruction_reads hparse).trans (skipNewline_after p).reads
  · simp only
    split
    · rename_i hkeep
      obtain ⟨hline, htext⟩ := Parser.parseInstruction_line hparse
      refine .inr ⟨inst, rfl, ⟨k, hk⟩, ?_, hline, htext⟩
      by_contra hname
      obtain ⟨out, hrun, htype, hlabel⟩ := Parser.parseInstruction_of_ne s.parser hname
      rw [hparse] at hrun
      cases hrun
      rw [shouldKeepInstruction, htype, hlabel] at hkeep
      simp [hname] at hkeep
    · exact .inl rfl

theorem keptStates_started {source : List Byte} {rounds : Nat} {s : ParseLoop}
    {insts : List ParsedInstruction} (h : parseRounds rounds s = some (some insts))
    (hs : ∃ k, StandsAt source k s.parser) :
    ∃ rest, insts = s.insts ++ rest ∧ List.Forall₂ (StartedIn source) (keptStates rounds s) rest := by
  induction rounds generalizing s with
  | zero => cases h
  | succ rounds ih =>
      rw [parseRounds] at h
      rw [keptStates]
      cases hround : parseRound s with
      | parsed out =>
          rw [hround] at h
          cases h
          rw [parseRound] at hround
          split at hround
          · cases hround
            exact ⟨[], (List.append_nil _).symm, .nil⟩
          · split at hround <;> cases hround
      | failed stderr =>
          rw [hround] at h
          cases h
      | next s' =>
          rw [hround] at h
          obtain ⟨hs', hkept⟩ := parseRound_next hround hs
          obtain ⟨rest, hinsts, hall⟩ := ih h hs'
          simp only
          rcases hkept with hsame | ⟨inst, hmore, hstarted⟩
          · rw [hsame] at hinsts
            rw [hsame, if_pos rfl]
            exact ⟨rest, hinsts, hall⟩
          · rw [hmore, List.append_assoc] at hinsts
            rw [hmore, List.length_append, List.length_singleton, if_neg (by omega)]
            exact ⟨inst :: rest, hinsts, .cons hstarted hall⟩

def textBefore (source start : List Byte) : List Byte := source.take (source.length - start.length)

/-- The number of the physical line in which a place lies. -/
def lineNumberAt (source start : List Byte) : Nat := 1 + (textBefore source start).count 0x0A#8

/-- The physical line in which a place lies, without its newline. -/
def lineAt (source start : List Byte) : List Byte :=
  ((textBefore source start).reverse.takeWhile (· != 0x0A#8)).reverse ++
    start.takeWhile (· != 0x0A#8)

/-- A line without the return of a line end of two characters. -/
def withoutReturn (line : List Byte) : List Byte :=
  if line.getLast? = some 0x0D#8 then line.dropLast else line

/-- The line after the one in which a place lies, up to a return. -/
def lineAfter (start : List Byte) : List Byte :=
  (start.dropWhile (· != 0x0A#8)).tail.takeWhile fun b => b != 0x0A#8 && b != 0x0D#8

/-- A statement has the number and the text of the physical line of its first token. -/
structure Attributed (source : List Byte) (k : Nat) (inst : ParsedInstruction) : Prop where
  lineNumber : inst.lineNumber = lineNumberAt source (tokenStart source k)
  originalLine : inst.originalLine =
    CString.copyBounded _ (withoutReturn (lineAt source (tokenStart source k)))

/-- The lexer stands in the line of a token when it has read the token after it, or a newline in
a literal before makes up for the line that it is ahead. -/
def ReadInLine (source : List Byte) (k : Nat) : Prop :=
  (literalNewlines source k = 0 ∧ (tokenAt source (k + 1)).type ≠ .newline ∧
    0x0D#8 ∉ (withoutReturn (lineAt source (tokenStart source k))).take (maxLineLength - 1)) ∨
  (literalNewlines source k = 1 ∧ (tokenAt source (k + 1)).type = .newline ∧
    (withoutReturn (lineAt source (tokenStart source k))).take (maxLineLength - 1) =
      (lineAfter (tokenStart source k)).take (maxLineLength - 1))

theorem textBefore_append (before start : List Byte) : textBefore (before ++ start) start = before := by
  rw [textBefore, List.length_append, Nat.add_sub_cancel, List.take_left]

theorem takeWhile_withoutReturn (line : List Byte) :
    line.takeWhile (· != 0x0D#8) = (withoutReturn line).takeWhile (· != 0x0D#8) := by
  rw [withoutReturn]
  split
  · rename_i hlast
    obtain ⟨front, rfl⟩ := List.getLast?_eq_some_iff.mp hlast
    have hreturn : ([0x0D#8] : List Byte).takeWhile (· != 0x0D#8) = [] := rfl
    rw [List.dropLast_concat, List.takeWhile_append, hreturn, List.append_nil]
    split
    · rename_i hall
      exact ((List.takeWhile_prefix _).eq_of_length hall).symm
    · rfl
  · rfl

theorem take_takeWhile_eq_iff {b : Byte} (xs : List Byte) (n : Nat) :
    (xs.takeWhile (· != b)).take n = xs.take n ↔ b ∉ xs.take n := by
  induction xs generalizing n with
  | nil => exact iff_of_true rfl (by rw [List.take_nil]; exact List.not_mem_nil)
  | cons x xs ih =>
      cases n with
      | zero => exact iff_of_true rfl List.not_mem_nil
      | succ n =>
          rw [List.takeWhile_cons, List.take_succ_cons, List.mem_cons, not_or]
          by_cases hx : x = b
          · subst hx
            simp
          · have hne : (x != b) = true := bne_iff_ne.mpr hx
            rw [if_pos hne, List.take_succ_cons, List.cons.injEq, ih]
            exact ⟨fun h => ⟨fun heq => hx heq.symm, h.2⟩, fun h => ⟨rfl, h.2⟩⟩

theorem copyBounded_eq_iff {xs ys : List Byte} (hx : (0 : Byte) ∉ xs) (hy : (0 : Byte) ∉ ys) :
    CString.copyBounded maxLineLength xs = CString.copyBounded maxLineLength ys ↔
      xs.take (maxLineLength - 1) = ys.take (maxLineLength - 1) := by
  rw [← CString.CStr.bytes_inj, CString.copyBounded_bytes_take hx,
    CString.copyBounded_bytes_take hy]

theorem lineUpTo_eq {front mid : List Byte} (hopens : front = [] ∨ ∃ before, front = before ++ [0x0A#8])
    (hmid : 0x0A#8 ∉ mid) :
    ((front ++ mid).reverse.takeWhile (· != 0x0A#8)).reverse = mid := by
  have hall : ∀ b ∈ mid.reverse, (b != 0x0A#8) = true := by
    intro b hb
    rw [bne_iff_ne]
    rintro rfl
    exact hmid (List.mem_reverse.mp hb)
  have hstop : front.reverse.takeWhile (· != 0x0A#8) = [] := by
    rcases hopens with rfl | ⟨before, rfl⟩
    · rfl
    · rw [List.reverse_append]
      rfl
  rw [List.reverse_append, List.takeWhile_append_of_pos hall, hstop, List.append_nil,
    List.reverse_reverse]

section Places

variable (source : List Byte) (k : Nat)

/-- Where a token starts, `front` before its line and `mid` in front of it on the line, as the
lexer sees lines. -/
theorem token_place : ∃ front mid, source = front ++ mid ++ tokenStart source k ∧
    (lexerAt source k).lineStart = mid ++ tokenStart source k ∧
    (front = [] ∨ ∃ before, front = before ++ [0x0A#8]) ∧
    (front ++ mid).count 0x0A#8 = tokenNewlines source k + literalNewlines source k ∧
    mid.count 0x0A#8 ≤ literalNewlines source k := by
  obtain ⟨front, mid, ⟨hwhole, hline, hopens⟩, hcount, hliteral⟩ := lexedUpTo source k
  obtain ⟨skipped, hskip, hnone⟩ := tokenStart_split source k
  have hskipped := List.count_eq_zero.mpr hnone
  rw [hskip] at hline hwhole
  refine ⟨front, mid ++ skipped, ?_, ?_, hopens, ?_, ?_⟩
  · rw [List.append_assoc, List.append_assoc, ← hwhole]
  · rw [hline, List.append_assoc]
  · simp only [List.count_append, hskipped]
    omega
  · simp only [List.count_append, hskipped]
    omega

theorem lineNumberAt_token : lineNumberAt source (tokenStart source k) =
    1 + (tokenNewlines source k + literalNewlines source k) := by
  obtain ⟨front, mid, hwhole, -, -, hcount, -⟩ := token_place source k
  have hbefore : textBefore source (tokenStart source k) = front ++ mid := by
    generalize tokenStart source k = start at hwhole
    rw [hwhole, textBefore_append]
  rw [lineNumberAt, hbefore, hcount]

theorem lineAt_token (h : literalNewlines source k = 0) :
    lineAt source (tokenStart source k) =
      (lexerAt source k).lineStart.takeWhile (· != 0x0A#8) := by
  obtain ⟨front, mid, hwhole, hline, hopens, -, hliteral⟩ := token_place source k
  have hmid : 0x0A#8 ∉ mid := List.count_eq_zero.mp (by omega)
  have hbefore : textBefore source (tokenStart source k) = front ++ mid := by
    generalize tokenStart source k = start at hwhole
    rw [hwhole, textBefore_append]
  have hall : ∀ b ∈ mid, (b != 0x0A#8) = true := by
    intro b hb
    rw [bne_iff_ne]
    rintro rfl
    exact hmid hb
  rw [lineAt, hbefore, lineUpTo_eq hopens hmid, hline, List.takeWhile_append_of_pos hall]

theorem lineStart_after (hname : (tokenAt source k).type = .identifier)
    (h : (tokenAt source (k + 1)).type = .newline) :
    (lexerAt source (k + 2)).lineStart = ((tokenStart source k).dropWhile (· != 0x0A#8)).tail := by
  obtain ⟨hstart, -, hopened⟩ := lexerAt_newline source (k + 1) h
  obtain ⟨skipped, hskip, hnone⟩ := tokenStart_split source (k + 1)
  have hsplit := tokenBytes_split source k
  rw [hskip, hstart] at hsplit
  have hall : ∀ b ∈ tokenBytes source k ++ skipped, (b != 0x0A#8) = true := by
    intro b hb
    rw [bne_iff_ne]
    rintro rfl
    rcases List.mem_append.mp hb with hb | hb
    · exact tokenBytes_name source k hname hb
    · exact hnone hb
  rw [hopened, hsplit, ← List.append_assoc, List.dropWhile_append_of_pos hall]
  rfl

theorem lexerAt_two (hname : (tokenAt source k).type = .identifier) :
    (lexerAt source (k + 2)).line =
      1 + tokenNewlines source k + if (tokenAt source (k + 1)).type = .newline then 1 else 0 := by
  have hne : TokenType.identifier ≠ .newline := by decide
  rw [lexerAt_line, tokenNewlines, tokenNewlines, hname, if_neg hne, Nat.add_zero, Nat.add_assoc]

end Places

theorem nul_notMem_line {source start : List Byte} (hsource : (0 : Byte) ∉ source)
    (hstart : start <:+ source) : (0 : Byte) ∉ withoutReturn (lineAt source start) ∧
      (0 : Byte) ∉ lineAfter start := by
  have hsub : ∀ b, b ∈ lineAt source start → b ∈ source := by
    intro b hb
    rcases List.mem_append.mp hb with hb | hb
    · exact List.mem_of_mem_take
        (List.mem_reverse.mp ((List.takeWhile_sublist _).subset (List.mem_reverse.mp hb)))
    · exact hstart.subset ((List.takeWhile_sublist _).subset hb)
  constructor
  · intro h
    rw [withoutReturn] at h
    split at h
    · exact hsource (hsub _ (List.dropLast_subset _ h))
    · exact hsource (hsub _ h)
  · intro h
    have hdrop := List.mem_of_mem_tail ((List.takeWhile_sublist _).subset h)
    exact hsource (hstart.subset ((List.dropWhile_sublist _).subset hdrop))

theorem tokenStart_suffix (source : List Byte) (k : Nat) : tokenStart source k <:+ source := by
  obtain ⟨front, mid, hwhole, -⟩ := token_place source k
  exact ⟨front ++ mid, hwhole.symm⟩

/-- A kept statement has the line of its first token exactly when the lexer stands in it. -/
theorem attributed_started {source : List Byte} (hsource : (0 : Byte) ∉ source) {k : Nat}
    {p : ParserState} {inst : ParsedInstruction} (hstands : StandsAt source k p)
    (hstarted : StartedIn source p inst) : Attributed source k inst ↔ ReadInLine source k := by
  have hname : (tokenAt source k).type = .identifier := by
    rw [← hstands.current, hstarted.name]
  have hline : inst.lineNumber = lineNumberAt source (tokenStart source k) ↔
      literalNewlines source k = if (tokenAt source (k + 1)).type = .newline then 1 else 0 := by
    rw [hstarted.lineNumber, hstands.lexer, lexerAt_two source k hname, lineNumberAt_token]
    omega
  obtain ⟨hnul, hnul'⟩ := nul_notMem_line hsource (tokenStart_suffix source k)
  have htext : inst.originalLine = CString.copyBounded _
      ((lexerAt source (k + 2)).lineStart.takeWhile fun b => b != 0x0A#8 && b != 0x0D#8) := by
    rw [hstarted.originalLine, hstands.lexer]
    rfl
  by_cases hnewline : (tokenAt source (k + 1)).type = .newline
  · rw [if_pos hnewline] at hline
    have hcopy : inst.originalLine =
        CString.copyBounded _ (lineAfter (tokenStart source k)) := by
      rw [htext, lineStart_after source k hname hnewline, lineAfter]
    have horiginal : inst.originalLine = CString.copyBounded _
        (withoutReturn (lineAt source (tokenStart source k))) ↔
        (withoutReturn (lineAt source (tokenStart source k))).take (maxLineLength - 1) =
          (lineAfter (tokenStart source k)).take (maxLineLength - 1) := by
      rw [hcopy, copyBounded_eq_iff hnul' hnul]
      exact eq_comm
    constructor
    · rintro ⟨hnumber, horig⟩
      exact .inr ⟨hline.mp hnumber, hnewline, horiginal.mp horig⟩
    · rintro (⟨-, hne, -⟩ | ⟨hone, -, hsame⟩)
      · exact absurd hnewline hne
      · exact ⟨hline.mpr hone, horiginal.mpr hsame⟩
  · rw [if_neg hnewline] at hline
    have hsame : literalNewlines source k = 0 → (inst.originalLine = CString.copyBounded _
        (withoutReturn (lineAt source (tokenStart source k))) ↔
        0x0D#8 ∉ (withoutReturn (lineAt source (tokenStart source k))).take (maxLineLength - 1)) := by
      intro hzero
      have hne : (tokenAt source k).type ≠ .newline := by
        rw [hname]
        exact nofun
      have hstart : (lexerAt source (k + 2)).lineStart = (lexerAt source k).lineStart :=
        (lexerAt_within source (k + 1) hnewline).2.trans (lexerAt_within source k hne).2
      have hcaptured : ((lexerAt source (k + 2)).lineStart.takeWhile
          fun b => b != 0x0A#8 && b != 0x0D#8) =
          (withoutReturn (lineAt source (tokenStart source k))).takeWhile (· != 0x0D#8) := by
        rw [← takeWhile_withoutReturn, lineAt_token source k hzero, List.takeWhile_takeWhile, hstart]
        congr 1
        funext b
        rw [Bool.and_comm, Bool.decide_and, Bool.decide_eq_true, Bool.decide_eq_true]
      have hnul'' : (0 : Byte) ∉
          (withoutReturn (lineAt source (tokenStart source k))).takeWhile (· != 0x0D#8) :=
        fun h => hnul ((List.takeWhile_sublist _).subset h)
      rw [htext, hcaptured, copyBounded_eq_iff hnul'' hnul, take_takeWhile_eq_iff]
    constructor
    · rintro ⟨hnumber, horig⟩
      have hzero := hline.mp hnumber
      exact .inl ⟨hzero, hnewline, (hsame hzero).mp horig⟩
    · rintro (⟨hzero, -, hplain⟩ | ⟨-, hnl, -⟩)
      · exact ⟨hline.mpr hzero, (hsame hzero).mpr hplain⟩
      · exact absurd hnl hnewline

/-- The lines of a source, as `parser_expand_times_only` reads them, have no `times` statement. -/
def timesFree : Nat → List Byte → Bool
  | 0, _ => true
  | rounds + 1, source =>
    if source = [] then true
    else (parseTimesDirective (readLine source).1).isNone && timesFree rounds (readLine source).2.2

theorem expandTimesLoop_free {size rounds : Nat} {source out : List Byte}
    (hfree : timesFree rounds source = true) (hrounds : source.length ≤ rounds)
    (hsize : source = [] ∨ out.length + source.length < size - 1) :
    expandTimesLoop size rounds source out = out ++ source := by
  induction rounds generalizing source out with
  | zero =>
      have hnil := List.eq_nil_of_length_eq_zero (Nat.le_zero.mp hrounds)
      rw [hnil, List.append_nil]
      rfl
  | succ rounds ih =>
      rw [expandTimesLoop]
      split
      · rename_i hnil
        rw [hnil, List.append_nil]
      · rename_i hne
        rw [timesFree, if_neg hne, Bool.and_eq_true] at hfree
        obtain ⟨hline, hrest⟩ := hfree
        have hsplit := readLine_split source
        have hshort := readLine_rest_lt hne
        have hroom := hsize.resolve_left hne
        rw [Option.isNone_iff_eq_none] at hline
        generalize readLine source = read at hline hrest hsplit hshort ⊢
        obtain ⟨line, raw, rest⟩ := read
        simp only at hline hrest hsplit hshort
        have hlen := congrArg List.length hsplit
        rw [List.length_append] at hlen
        simp only [hline]
        rw [appendOutput, if_pos (by omega), ih hrest (by omega), List.append_assoc, ← hsplit]
        right
        rw [List.length_append]
        omega

theorem parserExpandTimesOnly_free {source : List Byte}
    (h : timesFree source.length source = true) : parserExpandTimesOnly source = source := by
  rw [parserExpandTimesOnly, expandTimesLoop_free h (Nat.le_refl _), List.nil_append]
  cases source with
  | nil => exact .inl rfl
  | cons b bs =>
      right
      simp only [List.length_nil, List.length_cons]
      omega

def FirstToken (rounds : Nat) (source : List Byte) (i k : Nat) : Prop :=
  ∃ p, (keptStates rounds (parseStart source))[i]? = some p ∧ StandsAt source k p

/-- A statement has the number and the text of its line exactly when its first token is not the
last one of the line, no literal in front of it contains a newline, and the line has no return
within it, or when a newline in a literal and the next line make up for that. -/
theorem lineAttribution_iff {rounds : Nat} {source : List Byte} {insts : List ParsedInstruction}
    (hsource : (0 : Byte) ∉ source) (htimes : timesFree source.length source = true)
    (h : parseSource rounds source = some (some insts)) :
    ∀ i inst, insts[i]? = some inst → (∃ k, FirstToken rounds source i k) ∧
      ∀ k, FirstToken rounds source i k → (Attributed source k inst ↔ ReadInLine source k) := by
  intro i inst hi
  rw [parseSource, parserExpandTimesOnly_free htimes] at h
  obtain ⟨rest, hinsts, hall⟩ := keptStates_started h ⟨0, standsAt_start source⟩
  rw [parseStart, List.nil_append] at hinsts
  subst hinsts
  obtain ⟨hlen, hget⟩ := List.forall₂_iff_get.mp hall
  have hlt : i < insts.length := (List.getElem?_eq_some_iff.mp hi).1
  have hstarted : ∀ p, (keptStates rounds (parseStart source))[i]? = some p →
      StartedIn source p inst := by
    intro p hp
    obtain ⟨hlt', rfl⟩ := List.getElem?_eq_some_iff.mp hp
    obtain ⟨_, rfl⟩ := List.getElem?_eq_some_iff.mp hi
    exact hget i hlt' hlt
  constructor
  · have hlt' : i < (keptStates rounds (parseStart source)).length := by omega
    have hp := List.getElem?_eq_getElem hlt'
    obtain ⟨k, hk⟩ := (hstarted _ hp).stands
    exact ⟨k, _, hp, hk⟩
  · rintro k ⟨p, hp, hstands⟩
    exact attributed_started hsource hstands (hstarted p hp)

theorem returnLine_parses : parseSource 40 (str "ret\n") =
    some (some [{ type := .ret, lineNumber := 2, originalLine := CString.lit _ "" }]) := by
  decide +kernel

theorem lineAttribution_iff_returnLine : (∃ k, FirstToken 40 (str "ret\n") 0 k) ∧
    ∀ k, FirstToken 40 (str "ret\n") 0 k →
      (Attributed (str "ret\n") k
          { type := .ret, lineNumber := 2, originalLine := CString.lit _ "" } ↔
        ReadInLine (str "ret\n") k) :=
  lineAttribution_iff (by decide) (by decide +kernel) returnLine_parses 0 _ rfl

/-- It gets the number and the text of the line after it. -/
theorem lineAttribution_returnLine : ∃ insts inst k, parseSource 40 (str "ret\n") = some (some insts) ∧
    insts[0]? = some inst ∧ FirstToken 40 (str "ret\n") 0 k ∧ inst.lineNumber = 2 ∧
      lineNumberAt (str "ret\n") (tokenStart (str "ret\n") k) = 1 ∧
      ¬ Attributed (str "ret\n") k inst := by
  refine ⟨_, _, 0, returnLine_parses, rfl, ⟨_, rfl, ?_⟩, rfl, by decide +kernel, ?_⟩
  · exact standsAt_start (str "ret\n")
  · rintro ⟨hnumber, -⟩
    exact absurd hnumber (by decide +kernel)

end X86Assembler
