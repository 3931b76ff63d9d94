import X86Assembler.Lexer

namespace X86Assembler

open CString (Byte isAlnum isAlpha isDigit isXDigit)

/-- The lexer in front of the token with a number, and behind all those before it. -/
def lexerAt (source : List Byte) : Nat → Lexer
  | 0 => { rest := source, lineStart := source }
  | k + 1 => (nextToken (lexerAt source k)).2

def tokenAt (source : List Byte) (k : Nat) : Token := (nextToken (lexerAt source k)).1

def tokenStart (source : List Byte) (k : Nat) : List Byte := skipWhitespace (lexerAt source k).rest

def tokenBytes (source : List Byte) (k : Nat) : List Byte :=
  (tokenStart source k).take
    ((tokenStart source k).length - (lexerAt source (k + 1)).rest.length)

theorem skipComment_split (bs : List Byte) :
    ∃ skipped, bs = skipped ++ skipComment bs ∧ 0x0A#8 ∉ skipped := by
  induction bs with
  | nil => exact ⟨[], rfl, List.not_mem_nil⟩
  | cons b bs ih =>
      obtain ⟨skipped, hbs, hmem⟩ := ih
      rw [skipComment]
      split
      · exact ⟨[], rfl, List.not_mem_nil⟩
      · rename_i hb
        refine ⟨b :: skipped, by rw [List.cons_append, ← hbs], ?_⟩
        rw [List.mem_cons, not_or]
        exact ⟨fun h => hb h.symm, hmem⟩

theorem skipWhitespace_split (bs : List Byte) :
    ∃ skipped, bs = skipped ++ skipWhitespace bs ∧ 0x0A#8 ∉ skipped := by
  induction bs with
  | nil => exact ⟨[], rfl, List.not_mem_nil⟩
  | cons b bs ih =>
      obtain ⟨skipped, hbs, hmem⟩ := ih
      rw [skipWhitespace]
      split
      · rename_i hcomment
        obtain ⟨skipped', hbs', hmem'⟩ := skipComment_split bs
        refine ⟨b :: skipped', by rw [List.cons_append, ← hbs'], ?_⟩
        rw [List.mem_cons, not_or]
        refine ⟨?_, hmem'⟩
        rintro rfl
        simp at hcomment
      split
      · exact ⟨[], rfl, List.not_mem_nil⟩
      split
      · rename_i hb _
        refine ⟨b :: skipped, by rw [List.cons_append, ← hbs], ?_⟩
        rw [List.mem_cons, not_or]
        exact ⟨fun h => hb h.symm, hmem⟩
      · exact ⟨[], rfl, List.not_mem_nil⟩

theorem dropQuote_suffix (quote : Byte) (bs : List Byte) : dropQuote quote bs <:+ bs := by
  cases bs with
  | nil => exact List.suffix_refl _
  | cons b bs =>
      rw [dropQuote]
      split
      · exact List.suffix_cons b bs
      · exact List.suffix_refl _

theorem lexChar_suffix (bs : List Byte) : (lexChar bs).2 <:+ bs := by
  rw [lexChar.eq_def]
  split
  · rename_i b rest
    apply (dropQuote_suffix 0x27#8 rest).trans
    exact (List.suffix_cons b rest).trans (List.suffix_cons _ _)
  · rename_i b rest _
    split
    · exact List.suffix_cons b rest
    · exact (dropQuote_suffix 0x27#8 rest).trans (List.suffix_cons b rest)
  · exact List.suffix_refl _

theorem lexString_suffix (room : Nat) (bs : List Byte) : (lexString room bs).2 <:+ bs := by
  induction room, bs using lexString.induct with
  | case1 bs => exact dropQuote_suffix _ bs
  | case2 room => exact List.suffix_refl _
  | case3 room b rest text more hlex ih =>
      rw [lexString]
      apply ih.trans
      exact (List.suffix_cons b rest).trans (List.suffix_cons _ _)
  | case4 room rest h =>
      rw [lexString]
      · exact List.suffix_cons _ rest
      · exact h
  | case5 room b rest h hb text more hlex ih =>
      rw [lexString]
      · rw [if_neg hb]
        exact ih.trans (List.suffix_cons b rest)
      · exact h

theorem lexIdentifier_split (room : Nat) (bs : List Byte) :
    bs = (lexIdentifier room bs).1 ++ (lexIdentifier room bs).2 ∧
      ∀ b ∈ (lexIdentifier room bs).1, isIdentifierChar b := by
  induction room generalizing bs with
  | zero => exact ⟨rfl, List.forall_mem_nil _⟩
  | succ room ih =>
      cases bs with
      | nil => exact ⟨rfl, List.forall_mem_nil _⟩
      | cons b bs =>
          rw [lexIdentifier]
          split
          · rename_i hb
            obtain ⟨hbs, hall⟩ := ih bs
            refine ⟨?_, List.forall_mem_cons.mpr ⟨hb, hall⟩⟩
            rw [List.cons_append, ← hbs]
          · exact ⟨rfl, List.forall_mem_nil _⟩

theorem lexIdentifier_eq (room : Nat) (bs : List Byte) :
    (lexIdentifier room bs).1 = (bs.takeWhile isIdentifierChar).take room := by
  induction room generalizing bs with
  | zero => rw [lexIdentifier, List.take_zero]
  | succ room ih =>
      cases bs with
      | nil => rfl
      | cons b bs =>
          rw [lexIdentifier]
          split
          · next hb =>
              rw [List.takeWhile_cons_of_pos hb, List.take_succ_cons]
              exact congrArg _ (ih bs)
          · next hb =>
              rw [List.takeWhile_cons_of_neg hb]
              rfl

theorem lexNumber_suffix (bs : List Byte) : (lexNumber bs).2 <:+ bs :=
  (List.dropWhile_suffix _).trans (List.drop_suffix _ _)

theorem lexToken_suffix (tok : Token) (b : Byte) (bs : List Byte) :
    (lexToken tok b bs).2 <:+ b :: bs := by
  have hcons := List.suffix_cons b bs
  rw [lexToken]
  split
  · exact hcons
  split
  · exact (lexChar_suffix bs).trans hcons
  split
  · exact (lexString_suffix _ bs).trans hcons
  split
  · exact lexNumber_suffix (b :: bs)
  split
  · have hsplit := (lexIdentifier_split (maxLineLength - 1) (b :: bs)).1
    exact ⟨_, hsplit.symm⟩
  · exact hcons

theorem punctuation_type {b : Byte} {type : TokenType} (h : punctuation b = some type) :
    type ≠ .eof ∧ type ≠ .newline := by
  rw [punctuation] at h
  repeat
    split at h
    · cases h
      exact ⟨by decide, by decide⟩
  cases h

theorem lexToken_type {tok : Token} (htok : tok.type = .none) (b : Byte) (bs : List Byte) :
    (lexToken tok b bs).1.type ≠ .eof ∧ (lexToken tok b bs).1.type ≠ .newline := by
  rw [lexToken]
  split
  · rename_i hpunct
    exact punctuation_type hpunct
  split
  · exact ⟨nofun, nofun⟩
  split
  · exact ⟨nofun, nofun⟩
  split
  · exact ⟨nofun, nofun⟩
  split
  · exact ⟨nofun, nofun⟩
  · rw [htok]
    exact ⟨nofun, nofun⟩

theorem newline_notMem_identifier {bs : List Byte} (h : ∀ b ∈ bs, isIdentifierChar b) :
    0x0A#8 ∉ bs := fun hmem => absurd (h _ hmem) (by decide)

theorem lexToken_name {tok : Token} {b : Byte} {bs : List Byte}
    (h : (lexToken tok b bs).1.type = .identifier) (htok : tok.type = .none) :
    (lexToken tok b bs).2 = (lexIdentifier (maxLineLength - 1) (b :: bs)).2 := by
  have hpunct : ∀ type, punctuation b = some type → type ≠ .identifier := by
    intro type hp
    rw [punctuation] at hp
    repeat
      split at hp
      · cases hp
        exact nofun
    cases hp
  rw [lexToken] at h ⊢
  split
  · rename_i type hp
    rw [hp] at h
    exact absurd h (hpunct type hp)
  rename_i hp
  rw [hp] at h
  simp only at h
  split
  · rename_i hquote
    rw [if_pos hquote] at h
    cases h
  rename_i hquote
  rw [if_neg hquote] at h
  split
  · rename_i hstring
    rw [if_pos hstring] at h
    cases h
  rename_i hstring
  rw [if_neg hstring] at h
  split
  · rename_i hdigit
    rw [if_pos hdigit] at h
    cases h
  rename_i hdigit
  rw [if_neg hdigit] at h
  split
  · rfl
  · rename_i hstart
    rw [if_neg hstart, htok] at h
    cases h

theorem lexToken_identifier {tok : Token} {b : Byte} {bs : List Byte}
    (h : (lexToken tok b bs).1.type = .identifier) (htok : tok.type = .none) :
    ∃ word, b :: bs = word ++ (lexToken tok b bs).2 ∧ 0x0A#8 ∉ word := by
  obtain ⟨hsplit, hall⟩ := lexIdentifier_split (maxLineLength - 1) (b :: bs)
  rw [lexToken_name h htok]
  exact ⟨_, hsplit, newline_notMem_identifier hall⟩

/-- What the next token can be: the end of the input, a newline, or a token within a line. -/
inductive NextToken (lx : Lexer) (tok : Token) (lx' : Lexer) : Prop
  | eof : tok.type = .eof → skipWhitespace lx.rest = [] → lx' = { lx with rest := [] } →
      NextToken lx tok lx'
  | newline : tok.type = .newline → skipWhitespace lx.rest = 0x0A#8 :: lx'.rest →
      lx' = { rest := lx'.rest, line := lx.line + 1, lineStart := lx'.rest } → NextToken lx tok lx'
  | other : tok.type ≠ .eof → tok.type ≠ .newline → lx'.rest <:+ skipWhitespace lx.rest →
      (tok.type = .identifier →
        ∃ word, skipWhitespace lx.rest = word ++ lx'.rest ∧ 0x0A#8 ∉ word) →
      lx' = { lx with rest := lx'.rest } → NextToken lx tok lx'

theorem nextToken_cases (lx : Lexer) : NextToken lx (nextToken lx).1 (nextToken lx).2 := by
  rw [nextToken]
  simp only
  split
  · rename_i hrest
    rw [hrest]
    exact .eof rfl hrest rfl
  · rename_i b bs hrest
    rw [hrest]
    split
    · rename_i hb
      subst hb
      exact .newline rfl hrest rfl
    · refine .other (lexToken_type rfl b bs).1 (lexToken_type rfl b bs).2 ?_ ?_ rfl
      · rw [hrest]
        exact lexToken_suffix _ b bs
      · intro hword
        rw [hrest]
        exact lexToken_identifier hword rfl

section Stream

variable (source : List Byte) (k : Nat)

theorem tokenStart_split : ∃ skipped,
    (lexerAt source k).rest = skipped ++ tokenStart source k ∧ 0x0A#8 ∉ skipped :=
  skipWhitespace_split _

theorem nextToken_at : NextToken (lexerAt source k) (tokenAt source k) (lexerAt source (k + 1)) :=
  nextToken_cases _

theorem tokenBytes_split :
    tokenStart source k = tokenBytes source k ++ (lexerAt source (k + 1)).rest := by
  have hsuffix : (lexerAt source (k + 1)).rest <:+ tokenStart source k := by
    cases nextToken_at source k with
    | eof _ _ heq =>
        rw [heq]
        exact List.nil_suffix
    | newline _ hstart _ =>
        rw [tokenStart, hstart]
        exact List.suffix_cons _ _
    | other _ _ hrest _ _ => exact hrest
  obtain ⟨word, hword⟩ := hsuffix
  rw [tokenBytes, ← hword, List.length_append, Nat.add_sub_cancel, List.take_left]

theorem lexerAt_newline (h : (tokenAt source k).type = .newline) :
    tokenStart source k = [0x0A#8] ++ (lexerAt source (k + 1)).rest ∧
      (lexerAt source (k + 1)).line = (lexerAt source k).line + 1 ∧
      (lexerAt source (k + 1)).lineStart = (lexerAt source (k + 1)).rest := by
  cases nextToken_at source k with
  | eof htype _ _ =>
      rw [h] at htype
      cases htype
  | newline _ hstart heq =>
      have hline := congrArg Lexer.line heq
      have hopened := congrArg Lexer.lineStart heq
      exact ⟨hstart, hline, hopened⟩
  | other _ hne _ _ _ => exact absurd h hne

theorem lexerAt_within (h : (tokenAt source k).type ≠ .newline) :
    (lexerAt source (k + 1)).line = (lexerAt source k).line ∧
      (lexerAt source (k + 1)).lineStart = (lexerAt source k).lineStart := by
  cases nextToken_at source k with
  | eof _ _ heq =>
      have hline := congrArg Lexer.line heq
      have hopened := congrArg Lexer.lineStart heq
      exact ⟨hline, hopened⟩
  | newline htype _ _ => exact absurd htype h
  | other _ _ _ _ heq =>
      have hline := congrArg Lexer.line heq
      have hopened := congrArg Lexer.lineStart heq
      exact ⟨hline, hopened⟩

theorem tokenBytes_name (h : (tokenAt source k).type = .identifier) :
    0x0A#8 ∉ tokenBytes source k := by
  have hbytes := tokenBytes_split source k
  cases nextToken_at source k with
  | eof htype _ _ =>
      rw [h] at htype
      cases htype
  | newline htype _ _ =>
      rw [h] at htype
      cases htype
  | other _ _ _ hword _ =>
      obtain ⟨word, hsplit, hnone⟩ := hword h
      rw [tokenStart, hsplit] at hbytes
      rwa [← List.append_cancel_right hbytes]

def tokenNewlines : Nat → Nat
  | 0 => 0
  | k + 1 => tokenNewlines k + if (tokenAt source k).type = .newline then 1 else 0

/-- The newline characters inside the literals in front of a token. -/
def literalNewlines : Nat → Nat
  | 0 => 0
  | k + 1 => literalNewlines k +
      if (tokenAt source k).type = .newline then 0 else (tokenBytes source k).count 0x0A#8

theorem lexerAt_line : (lexerAt source k).line = 1 + tokenNewlines source k := by
  induction k with
  | zero => rfl
  | succ k ih =>
      rw [tokenNewlines, ← Nat.add_assoc, ← ih]
      by_cases h : (tokenAt source k).type = .newline
      · rw [if_pos h]
        exact (lexerAt_newline source k h).2.1
      · rw [if_neg h]
        exact (lexerAt_within source k h).1

/-- Where the lexer stands: `front` is what lies before its line, `mid` what it has read of
the line. -/
structure LexedUpTo (lx : Lexer) (front mid : List Byte) : Prop where
  whole : source = front ++ (mid ++ lx.rest)
  line : lx.lineStart = mid ++ lx.rest
  opens : front = [] ∨ ∃ before, front = before ++ [0x0A#8]

theorem lexedUpTo : ∃ front mid, LexedUpTo source (lexerAt source k) front mid ∧
    front.count 0x0A#8 + mid.count 0x0A#8 = tokenNewlines source k + literalNewlines source k ∧
    mid.count 0x0A#8 ≤ literalNewlines source k := by
  induction k with
  | zero => exact ⟨[], [], ⟨rfl, rfl, .inl rfl⟩, rfl, Nat.le_refl _⟩
  | succ k ih =>
      obtain ⟨front, mid, ⟨hwhole, hline, hopens⟩, hcount, hliteral⟩ := ih
      obtain ⟨skipped, hskip, hnone⟩ := tokenStart_split source k
      have hskipped := List.count_eq_zero.mpr hnone
      rw [tokenNewlines, literalNewlines]
      by_cases h : (tokenAt source k).type = .newline
      · obtain ⟨hstart, -, hnext⟩ := lexerAt_newline source k h
        rw [hskip, hstart] at hwhole
        refine ⟨front ++ (mid ++ (skipped ++ [0x0A#8])), [], ⟨?_, hnext, .inr ?_⟩, ?_, Nat.zero_le _⟩
        · refine hwhole.trans ?_
          simp only [List.append_assoc, List.nil_append]
        · exact ⟨front ++ (mid ++ skipped), by simp only [List.append_assoc]⟩
        · simp only [List.count_append, hskipped, if_pos h, List.count_singleton_self,
            List.count_nil]
          omega
      · obtain ⟨-, hnext⟩ := lexerAt_within source k h
        rw [hskip, tokenBytes_split source k] at hwhole hline
        refine ⟨front, mid ++ (skipped ++ tokenBytes source k), ⟨?_, ?_, hopens⟩, ?_, ?_⟩
        · refine hwhole.trans ?_
          simp only [List.append_assoc]
        · rw [hnext, hline]
          simp only [List.append_assoc]
        · simp only [List.count_append, hskipped, if_neg h]
          omega
        · simp only [List.count_append, hskipped, if_neg h]
          omega

end Stream

end X86Assembler
