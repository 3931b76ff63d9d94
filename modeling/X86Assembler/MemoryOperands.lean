import X86Assembler.LineAttribution
import X86Assembler.MemoryTerms

namespace X86Assembler

open CString (Byte str eqIgnoreCase)

/-- A term that is written from a token on, and the token after it. -/
inductive TermAt (source : List Byte) : Nat → MemTerm → Nat → Prop
  | reg {k : Nat} {r : Reg} {size : RegSize} :
      (tokenAt source k).type = .identifier →
      parseRegister (tokenAt source k).text = some (r, size) →
      TermAt source k (.reg r size none) (k + 1)
  | scaled {k : Nat} {r : Reg} {size : RegSize} :
      (tokenAt source k).type = .identifier →
      parseRegister (tokenAt source k).text = some (r, size) →
      (tokenAt source (k + 1)).type = .star → (tokenAt source (k + 2)).type = .number →
      TermAt source k (.reg r size (some (tokenAt source (k + 2)).value)) (k + 3)
  | num {k : Nat} : (tokenAt source k).type = .number →
      TermAt source k (.num (tokenAt source k).value) (k + 1)
  | label {k : Nat} : (tokenAt source k).type = .identifier →
      parseRegister (tokenAt source k).text = none →
      TermAt source k (.label (tokenAt source k).text) (k + 1)

/-- Terms after the first one, each with its sign, up to the closing bracket. -/
inductive TermsAt (source : List Byte) : Nat → List SignedTerm → Nat → Prop
  | close {k : Nat} : (tokenAt source k).type = .rbracket → TermsAt source k [] k
  | plus {k j m : Nat} {t : MemTerm} {terms : List SignedTerm} :
      (tokenAt source k).type = .plus → TermAt source (k + 1) t j → TermsAt source j terms m →
      TermsAt source k ((false, t) :: terms) m
  | minus {k j m : Nat} {t : MemTerm} {terms : List SignedTerm} :
      (tokenAt source k).type = .minus → TermAt source (k + 1) t j → TermsAt source j terms m →
      TermsAt source k ((true, t) :: terms) m

inductive SumAt (source : List Byte) (k : Nat) (first : MemTerm) (more : List SignedTerm) : Prop
  | intro {j m : Nat} : (tokenAt source k).type = .lbracket → TermAt source (k + 1) first j →
      TermsAt source j more m → SumAt source k first more

def EndsTerm (type : TokenType) : Prop := type = .plus ∨ type = .minus ∨ type = .rbracket

theorem TermsAt.ends {source : List Byte} {k m : Nat} {terms : List SignedTerm}
    (h : TermsAt source k terms m) : EndsTerm (tokenAt source k).type := by
  cases h with
  | close h => exact .inr (.inr h)
  | plus h => exact .inl h
  | minus h => exact .inr (.inl h)

def HasText (type : TokenType) : Prop :=
  type = .char ∨ type = .string ∨ type = .number ∨ type = .identifier

theorem lexToken_text (tok : Token) (b : Byte) (bs : List Byte) :
    HasText (lexToken tok b bs).1.type ∨ (lexToken tok b bs).1.text = tok.text := by
  rw [lexToken]
  split
  · exact .inr rfl
  · split
    · exact .inl (.inl rfl)
    split
    · exact .inl (.inr (.inl rfl))
    split
    · exact .inl (.inr (.inr (.inl rfl)))
    split
    · exact .inl (.inr (.inr (.inr rfl)))
    · exact .inr rfl

theorem nextToken_text (lx : Lexer) :
    HasText (nextToken lx).1.type ∨ (nextToken lx).1.text = CString.lit _ "" := by
  rw [nextToken]
  dsimp only
  split
  · exact .inr rfl
  · split
    · exact .inr rfl
    · exact lexToken_text _ _ _

theorem not_rip {source : List Byte} {k : Nat} (h : ¬ HasText (tokenAt source k).type) :
    eqIgnoreCase (tokenAt source k).text.bytes (str "rip") = false := by
  have htext := (nextToken_text (lexerAt source k)).resolve_left h
  rw [tokenAt, htext]
  rfl

theorem EndsTerm.not_hasText {type : TokenType} (h : EndsTerm type) : ¬ HasText type := by
  rcases h with rfl | rfl | rfl <;> simp [HasText]

/-- A parser that reads up to a token and gives an operand, or refuses. -/
def Reads (source : List Byte) (m : Parser MemOperand) (p : ParserState) (j : Nat) :
    Option MemOperand → Prop
  | some mem => ∃ q, m p = (some mem, q) ∧ StandsAt source j q
  | none => (m p).1 = none

section Run

variable {source : List Byte} {k j : Nat} {p : ParserState}

theorem Reads.bind {m : Parser MemOperand} {f : MemOperand → Parser MemOperand}
    {r : Option MemOperand} {g : MemOperand → Option MemOperand} {i : Nat}
    (hm : Reads source m p j r)
    (hf : ∀ mem q, r = some mem → m p = (some mem, q) → StandsAt source j q →
      Reads source (f mem) q i (g mem)) : Reads source (m >>= f) p i (r.bind g) := by
  cases r with
  | none =>
      cases hrun : m p with
      | mk out q =>
          rw [Reads, hrun] at hm
          cases hm
          rw [Option.bind_none, Reads, Fallible.bind_of_none hrun]
  | some mem =>
      obtain ⟨q, hrun, hq⟩ := hm
      have hmore := hf mem q rfl hrun hq
      rw [Option.bind_some]
      cases hg : g mem with
      | none =>
          rw [hg] at hmore
          rw [Reads, Fallible.bind_of_some hrun]
          exact hmore
      | some mem' =>
          rw [hg] at hmore
          rw [Reads, Fallible.bind_of_some hrun]
          exact hmore

theorem Reads.of_eq {m : Parser MemOperand} (m' : Parser MemOperand) (q : ParserState)
    {r : Option MemOperand} (hsame : m p = m' q) (h : Reads source m' q j r) :
    Reads source m p j r := by
  cases r with
  | none => exact (congrArg Prod.fst hsame).trans h
  | some mem =>
      obtain ⟨s, hrun, hs⟩ := h
      exact ⟨s, hsame.trans hrun, hs⟩

theorem reads_pure (hp : StandsAt source k p) (mem : MemOperand) :
    Reads source (pure mem) p k (some mem) := ⟨p, rfl, hp⟩

theorem scaleFactor_run (hp : StandsAt source k p) (htype : (tokenAt source k).type = .number)
    (f : Nat → MemOperand) :
    Reads source (Parser.scaleFactor p.current >>= fun s => pure (f s)) p (k + 1)
      (if isValidScaleFactor (tokenAt source k).value then some (f (tokenAt source k).value.toNat)
      else none) := by
  rw [hp.current, Parser.scaleFactor]
  cases hvalid : isValidScaleFactor (tokenAt source k).value with
  | false =>
      rw [if_neg (by simp), if_neg (by simp)]
      rfl
  | true =>
      rw [if_pos (by simp [htype]), if_pos rfl]
      exact ⟨p.advance, rfl, standsAt_advance hp⟩

theorem current_run (p : ParserState) : Parser.current p = (some p.current, p) := rfl

theorem advance_run (p : ParserState) : Parser.advance p = (some (), p.advance) := rfl

theorem expect_run {type : TokenType} (h : p.current.type = type) :
    Parser.expect type p = (some true, p.advance) := by
  rw [Parser.expect, Fallible.bind_of_some (current_run p), if_pos h]
  rfl

theorem expect_run_of_ne {type : TokenType} (h : p.current.type ≠ type) :
    Parser.expect type p = (some false, p) := by
  rw [Parser.expect, Fallible.bind_of_some (current_run p), if_neg h]
  rfl

theorem EndsTerm.ne_star {type : TokenType} (h : EndsTerm type) : type ≠ .star := by
  rcases h with rfl | rfl | rfl <;> decide

theorem scaled_run (hp : StandsAt source k p) (hstar : (tokenAt source k).type = .star)
    (hnumber : (tokenAt source (k + 1)).type = .number) (f : Nat → MemOperand)
    (g : Parser MemOperand) :
    Reads source (do
      if ← Parser.expect .star then do
        let tok ← Parser.current
        let scale ← Parser.scaleFactor tok
        pure (f scale)
      else g) p (k + 2)
      (if isValidScaleFactor (tokenAt source (k + 1)).value then
        some (f (tokenAt source (k + 1)).value.toNat) else none) := by
  have hexpect := @expect_run p .star (by rw [hp.current]; exact hstar)
  refine Reads.of_eq _ _ ?_ (scaleFactor_run (standsAt_advance hp) hnumber f)
  rw [Fallible.bind_of_some hexpect]
  rfl

theorem memSigned_run {t : MemTerm} {negative : Bool} {mem : MemOperand}
    (hp : StandsAt source k p) (ht : TermAt source k t j) (hends : EndsTerm (tokenAt source j).type) :
    Reads source (Parser.memSigned mem negative) p j (nextTerm mem (negative, t)) := by
  have hadvance := standsAt_advance hp
  rw [Parser.memSigned]
  cases ht with
  | @reg r size htype hreg =>
      refine Reads.of_eq (Parser.memIndex mem r) p.advance ?_ ?_
      · rw [Fallible.bind_of_some (current_run p), hp.current, if_neg (by rw [htype]; decide),
          if_pos htype, hreg]
        rfl
      · have hstar := @expect_run_of_ne p.advance .star (by
          rw [hadvance.current]
          exact hends.ne_star)
        refine Reads.of_eq _ _ ?_ (reads_pure hadvance { mem with index := some r, scale := 1 })
        rw [Parser.memIndex, Fallible.bind_of_some hstar]
        rfl
  | @scaled r size htype hreg hstar hnumber =>
      refine Reads.of_eq (Parser.memIndex mem r) p.advance ?_
        (scaled_run hadvance hstar hnumber _ _)
      rw [Fallible.bind_of_some (current_run p), hp.current, if_neg (by rw [htype]; decide),
        if_pos htype, hreg]
      rfl
  | num htype =>
      refine Reads.of_eq _ _ ?_ (reads_pure hadvance _)
      rw [Fallible.bind_of_some (current_run p), hp.current, if_pos htype]
      rfl
  | label htype hreg =>
      refine Reads.of_eq (if negative && mem.isRipRelative then
          Parser.error "Constraint" "Negative displacement with label reference not supported"
        else Parser.advance >>= fun _ => pure { mem with label := (tokenAt source k).text.toLabel })
        p ?_ ?_
      · rw [Fallible.bind_of_some (current_run p), hp.current, if_neg (by rw [htype]; decide),
          if_pos htype, hreg]
      · change Reads source _ p (k + 1) (if negative && mem.isRipRelative then none else _)
        split
        · rfl
        · exact ⟨p.advance, rfl, hadvance⟩

theorem memComponent_run {t : MemTerm} {negative : Bool} {mem : MemOperand}
    (hp : StandsAt source k p)
    (hsign : (tokenAt source k).type = if negative then .minus else .plus)
    (ht : TermAt source (k + 1) t j) (hends : EndsTerm (tokenAt source j).type) :
    Reads source (Parser.memComponent mem) p j (nextTerm mem (negative, t)) := by
  refine Reads.of_eq _ _ ?_ (memSigned_run (standsAt_advance hp) ht hends)
  rw [Parser.memComponent, Fallible.bind_of_some (current_run p), hp.current, hsign]
  cases negative <;> rfl

theorem memComponents_close {rounds : Nat} {mem : MemOperand} (hp : StandsAt source k p)
    (hclose : (tokenAt source k).type = .rbracket) :
    Reads source (Parser.memComponents rounds mem) p k (some mem) := by
  cases rounds with
  | zero => exact reads_pure hp mem
  | succ rounds =>
      refine Reads.of_eq _ _ ?_ (reads_pure hp mem)
      rw [Parser.memComponents, Fallible.bind_of_some (current_run p), hp.current,
        if_pos (by simp [hclose])]

theorem memComponents_succ {rounds : Nat} {mem : MemOperand}
    (hclose : p.current.type ≠ .rbracket) (heof : p.current.type ≠ .eof) :
    Parser.memComponents (rounds + 1) mem p =
      (Parser.memComponent mem >>= Parser.memComponents rounds) p := by
  rw [Parser.memComponents, Fallible.bind_of_some (current_run p),
    if_neg (by simp [hclose, heof])]

theorem memComponents_step {rounds i : Nat} {mem : MemOperand} {r : Option MemOperand}
    {g : MemOperand → Option MemOperand} (hclose : p.current.type ≠ .rbracket)
    (heof : p.current.type ≠ .eof) (hrounds : p.remaining ≤ rounds)
    (hfirst : Reads source (Parser.memComponent mem) p j r)
    (hmore : ∀ mem' q n, r = some mem' → StandsAt source j q → q.remaining ≤ n →
      Reads source (Parser.memComponents n mem') q i (g mem')) :
    Reads source (Parser.memComponents rounds mem) p i (r.bind g) := by
  cases rounds with
  | zero => exact absurd (Parser.eof_of_remaining (Nat.le_zero.mp hrounds)) heof
  | succ rounds =>
      refine Reads.of_eq _ _ (memComponents_succ hclose heof) (hfirst.bind ?_)
      intro mem' q hr hrun hq
      have hfurther := (Parser.memComponent_consumes mem p heof).1 mem' q hrun
      exact hmore mem' q rounds hr hq (by have := hfurther.remaining; omega)

theorem memComponents_run {terms : List SignedTerm} (h : TermsAt source k terms j)
    {rounds : Nat} {mem : MemOperand} (hp : StandsAt source k p) (hrounds : p.remaining ≤ rounds) :
    Reads source (Parser.memComponents rounds mem) p j (terms.foldlM nextTerm mem) := by
  induction h generalizing p mem rounds with
  | close hclose => exact memComponents_close hp hclose
  | plus hsign ht hterms ih =>
      rw [List.foldlM_cons]
      refine memComponents_step (by rw [hp.current, hsign]; decide)
        (by rw [hp.current, hsign]; decide) hrounds
        (memComponent_run hp hsign ht hterms.ends) ?_
      exact fun mem' q n _ hq hn => ih hq hn
  | minus hsign ht hterms ih =>
      rw [List.foldlM_cons]
      refine memComponents_step (by rw [hp.current, hsign]; decide)
        (by rw [hp.current, hsign]; decide) hrounds
        (memComponent_run hp hsign ht hterms.ends) ?_
      exact fun mem' q n _ hq hn => ih hq hn

theorem memRegister_run {r : Reg} {size : RegSize} (hr : r ≠ Reg.rip)
    (hp : StandsAt source k p) (htext : ¬ HasText (tokenAt source k).type) :
    Parser.memRegister {} r size p = (do
      if ← Parser.expect .star then do
        let tok ← Parser.current
        let scale ← Parser.scaleFactor tok
        pure { index := some r, scale := scale }
      else pure { base := some r } : Parser MemOperand) p := by
  have hrip := not_rip htext
  rw [Parser.memRegister, Fallible.bind_of_some (current_run p), hp.current,
    if_neg (by simp [hr, hrip])]
  rfl

theorem memComponent_register {mem : MemOperand} {r : Reg} {size : RegSize}
    (hp : StandsAt source k p) (htype : (tokenAt source k).type = .identifier)
    (hreg : parseRegister (tokenAt source k).text = some (r, size)) :
    Parser.memComponent mem p = Parser.memRegister mem r size p.advance := by
  rw [Parser.memComponent, Fallible.bind_of_some (current_run p), hp.current, if_pos htype,
    Fallible.bind_of_some (advance_run p), hreg]

theorem memRegister_rip (mem : MemOperand) (size : RegSize) (q : ParserState) :
    Parser.memRegister mem Reg.rip size q = (some { mem with isRipRelative := true }, q) := by
  rw [Parser.memRegister, Fallible.bind_of_some (current_run q), if_pos (by simp)]
  rfl

theorem firstComponent_run {first : MemTerm} (hp : StandsAt source k p)
    (ht : TermAt source k first j) (hends : EndsTerm (tokenAt source j).type)
    (hscaled : first.isRip = true → first.isScaled = false)
    (habs : ∀ name, first = .label name → eqIgnoreCase name.bytes (str "abs") = false) :
    Reads source (Parser.memComponent {}) p j (firstTerm first) := by
  have hadvance := standsAt_advance hp
  cases ht with
  | @reg r size htype hreg =>
      by_cases hr : r = Reg.rip
      · subst hr
        exact ⟨p.advance, (memComponent_register hp htype hreg).trans (memRegister_rip _ _ _),
          hadvance⟩
      · have hstar := @expect_run_of_ne p.advance .star (by
          rw [hadvance.current]
          exact hends.ne_star)
        have hrun : Parser.memRegister {} r size p.advance = _ :=
          memRegister_run hr hadvance hends.not_hasText
        rw [Fallible.bind_of_some hstar] at hrun
        rw [firstTerm, if_neg hr]
        exact ⟨p.advance, (memComponent_register hp htype hreg).trans hrun, hadvance⟩
  | @scaled r size htype hreg hstar hnumber =>
      have hr : r ≠ Reg.rip := by
        intro hr
        have := hscaled (by simp [MemTerm.isRip, hr])
        cases this
      have htext : ¬ HasText (tokenAt source (k + 1)).type := by
        rw [hstar]
        simp [HasText]
      rw [firstTerm, if_neg hr]
      refine Reads.of_eq _ _ ((memComponent_register hp htype hreg).trans
        (memRegister_run hr hadvance htext)) ?_
      exact scaled_run hadvance hstar hnumber (fun s => { index := some r, scale := s }) _
  | num htype =>
      refine ⟨p.advance, ?_, hadvance⟩
      rw [Parser.memComponent, Fallible.bind_of_some (current_run p), hp.current,
        if_neg (by rw [htype]; decide), if_pos htype]
      have hzero : ∀ v : BitVec 32, (0 : BitVec 32) + v = v := BitVec.zero_add
      change (some ({ displacement := 0 + _, hasDisplacement := true } : MemOperand), _) = _
      rw [hzero]
  | label htype hreg =>
      have hname := habs _ rfl
      rw [firstTerm, if_neg (by rw [hname]; exact Bool.false_ne_true)]
      refine ⟨p.advance, ?_, hadvance⟩
      rw [Parser.memComponent, Fallible.bind_of_some (current_run p), hp.current, if_pos htype,
        Fallible.bind_of_some (advance_run p), hreg]
      rfl

theorem memComponent_star {mem : MemOperand} (hp : StandsAt source k p)
    (hstar : (tokenAt source k).type = .star) (hnumber : (tokenAt source (k + 1)).type = .number)
    (hindex : mem.index = none) : (Parser.memComponent mem p).1 = none := by
  rw [Parser.memComponent, Fallible.bind_of_some (current_run p), hp.current,
    if_neg (by rw [hstar]; decide), if_neg (by rw [hstar]; decide), if_neg (by rw [hstar]; decide),
    if_pos hstar, Fallible.bind_of_some (advance_run p), Parser.memScale,
    Fallible.bind_of_some (current_run _), (standsAt_advance hp).current, if_pos hnumber,
    if_pos (by rw [hindex]; rfl)]
  rfl

theorem TermAt.head {first : MemTerm} (h : TermAt source k first j) :
    (tokenAt source k).type = .identifier ∨ (tokenAt source k).type = .number := by
  cases h with
  | reg h => exact .inl h
  | scaled h => exact .inl h
  | num h => exact .inr h
  | label h => exact .inl h

theorem memComponents_sum {first : MemTerm} {more : List SignedTerm} {m rounds : Nat}
    (hp : StandsAt source k p) (ht : TermAt source k first j) (hterms : TermsAt source j more m)
    (habs : ∀ name, first = .label name → eqIgnoreCase name.bytes (str "abs") = false)
    (hrounds : p.remaining ≤ rounds) :
    Reads source (Parser.memComponents rounds {}) p m
      ((firstTerm first).bind fun mem => more.foldlM nextTerm mem) := by
  have hhead : p.current.type ≠ .rbracket ∧ p.current.type ≠ .eof := by
    rw [hp.current]
    rcases ht.head with h | h <;> rw [h] <;> decide
  by_cases hscaled : first.isRip = true → first.isScaled = false
  · refine memComponents_step hhead.1 hhead.2 hrounds
      (firstComponent_run hp ht hterms.ends hscaled habs) ?_
    exact fun mem q n _ hq hn => memComponents_run hterms hq hn
  · cases ht with
    | reg => exact absurd (fun _ => rfl) hscaled
    | num => exact absurd (fun _ => rfl) hscaled
    | label => exact absurd (fun _ => rfl) hscaled
    | @scaled r size htype hreg hstar hnumber =>
        have hr : r = Reg.rip := by
          by_contra hr
          exact hscaled fun h => absurd (by simpa [MemTerm.isRip] using h) hr
        subst hr
        have hfirst : Reads source (Parser.memComponent {}) p (k + 1)
            (some { isRipRelative := true }) :=
          ⟨p.advance, (memComponent_register hp htype hreg).trans (memRegister_rip _ _ _),
            standsAt_advance hp⟩
        refine memComponents_step (g := fun _ => none) hhead.1 hhead.2 hrounds hfirst ?_
        rintro mem q n heq hq hn
        cases heq
        refine memComponents_step (j := 0) (r := none) (g := fun _ => none)
          (by rw [hq.current, hstar]; decide) (by rw [hq.current, hstar]; decide) hn
          (memComponent_star hq hstar hnumber rfl) ?_
        intro mem' q' n' heq
        cases heq

theorem parseRegister_abs {name : Text} (h : eqIgnoreCase name.bytes (str "abs") = true) :
    parseRegister name = none := by
  have hsame : ∀ entry : String × Reg × RegSize, eqIgnoreCase name.bytes (str entry.1) =
      eqIgnoreCase (str "abs") (str entry.1) := by
    rw [eqIgnoreCase, beq_iff_eq] at h
    intro entry
    rw [eqIgnoreCase, eqIgnoreCase, h]
  rw [parseRegister]
  simp only [hsame]
  decide +kernel

theorem require_run {type : TokenType} {message : String} (h : p.current.type = type) :
    Parser.require type message p = (some (), p.advance) := by
  rw [Parser.require, Fallible.bind_of_some (expect_run h)]
  rfl

theorem TermsAt.closed {more : List SignedTerm} {m : Nat} (h : TermsAt source k more m) :
    (tokenAt source m).type = .rbracket := by
  induction h with
  | close h => exact h
  | plus _ _ _ ih => exact ih
  | minus _ _ _ ih => exact ih

theorem parseMemoryOperand_sum {first : MemTerm} {more : List SignedTerm}
    (hp : StandsAt source k p) (h : SumAt source k first more) :
    (Parser.parseMemoryOperand p).1 = sumOperand first more := by
  obtain ⟨hopen, ht, hterms⟩ := h
  have hadvance := standsAt_advance hp
  have hcurrent := hadvance.current
  rw [Parser.parseMemoryOperand, Fallible.bind_of_some (require_run (by rw [hp.current, hopen])),
    Fallible.bind_of_some (current_run _), hcurrent]
  by_cases habs : (tokenAt source (k + 1)).type = .identifier ∧
      eqIgnoreCase (tokenAt source (k + 1)).text.bytes (str "abs") = true
  · rw [if_pos (by simp [habs]), Fallible.bind_of_some (advance_run _), Parser.absoluteAddress,
      Fallible.bind_of_some (current_run _), (standsAt_advance hadvance).current]
    have hnone := parseRegister_abs habs.2
    cases ht with
    | reg _ hreg =>
        rw [hnone] at hreg
        cases hreg
    | scaled _ hreg =>
        rw [hnone] at hreg
        cases hreg
    | num htype =>
        rw [htype] at habs
        cases habs.1
    | label =>
        have hends := hterms.ends
        rw [if_neg (by rcases hends with h | h | h <;> rw [h] <;> decide), sumOperand, firstTerm,
          if_pos habs.2]
        rfl
  · rw [if_neg (by simpa using habs), Fallible.bind_of_some (Fallible.get_run _)]
    have hrun := memComponents_sum hadvance ht hterms (fun name hname => by
      subst hname
      cases ht with
      | label htype => exact Bool.eq_false_iff.mpr fun h => habs ⟨htype, h⟩) (Nat.le_refl _)
    have hassoc : sumOperand first more =
        ((firstTerm first).bind fun mem => more.foldlM nextTerm mem).bind ripAlone := by
      rw [Option.bind_assoc]
      rfl
    rw [hassoc]
    cases hmem : (firstTerm first).bind fun mem => more.foldlM nextTerm mem with
    | none =>
        rw [hmem] at hrun
        cases hout : Parser.memComponents p.advance.remaining {} p.advance with
        | mk out q =>
            rw [Reads, hout] at hrun
            cases hrun
            rw [Fallible.bind_of_none hout]
            rfl
    | some mem =>
        rw [hmem] at hrun
        obtain ⟨q, hout, hq⟩ := hrun
        rw [Fallible.bind_of_some hout, Parser.closeBracket,
          Fallible.bind_of_some (require_run (by rw [hq.current, hterms.closed]))]
        rw [Option.bind_some, ripAlone]
        split
        · rfl
        · rfl

end Run

/-- A sum that is parsed faithfully: it can be addressed and the operand stands for it, or it is
refused. -/
def ParsedFaithfully (p : ParserState) (first : MemTerm) (more : List SignedTerm) : Prop :=
  ∀ mem, (Parser.parseMemoryOperand p).1 = some mem →
    IsAddress ((false, first) :: more) ∧ Denotes mem ((false, first) :: more)

/-- A bracketed sum is parsed faithfully just where it is refused, or can be addressed and has a
place for each of its registers. -/
theorem parseMemoryOperand_faithful_iff {source : List Byte} {k : Nat} {p : ParserState}
    (hp : StandsAt source k p) {first : MemTerm} {more : List SignedTerm}
    (h : SumAt source k first more) :
    ParsedFaithfully p first more ↔
      RefusedSum first more ∨ IsAddress ((false, first) :: more) ∧ InPlace first more := by
  rw [ParsedFaithfully, parseMemoryOperand_sum hp h]
  exact sumOperand_faithful

theorem TermAt.scaled_of {source : List Byte} {k : Nat} {r : Reg} {size : RegSize} {s : Word}
    (htype : (tokenAt source k).type = .identifier)
    (hreg : parseRegister (tokenAt source k).text = some (r, size))
    (hstar : (tokenAt source (k + 1)).type = .star)
    (hnumber : (tokenAt source (k + 2)).type = .number ∧ (tokenAt source (k + 2)).value = s) :
    TermAt source k (.reg r size (some s)) (k + 3) := by
  rw [← hnumber.2]
  exact .scaled htype hreg hstar hnumber.1

theorem TermAt.num_of {source : List Byte} {k : Nat} {v : Word}
    (h : (tokenAt source k).type = .number ∧ (tokenAt source k).value = v) :
    TermAt source k (.num v) (k + 1) := by
  rw [← h.2]
  exact .num h.1

/-- A base, a scaled index and a displacement. -/
theorem parseMemoryOperand_faithful_table :
    ParsedFaithfully (initTokens (str "[rax+rbx*4-8]")) (.reg 0 .size64 none)
      [(false, .reg 3 .size64 (some 4)), (true, .num 8)] := by
  refine (parseMemoryOperand_faithful_iff (standsAt_start _) ?_).mpr (.inr ⟨?_, ?_⟩)
  · exact ⟨by decide +kernel, .reg (by decide +kernel) (by decide +kernel),
      .plus (by decide +kernel) (.scaled_of (by decide +kernel) (by decide +kernel)
        (by decide +kernel) (by decide +kernel))
        (.minus (by decide +kernel) (.num_of (by decide +kernel)) (.close (by decide +kernel)))⟩
  · exact ⟨by decide, by decide, by decide, by decide, by decide, by decide⟩
  · exact ⟨by decide, by decide, by decide⟩

/-- The register `rax` is lost where the other one takes its place, and `rbx` is added where it
is to be subtracted. -/
theorem not_parsedFaithfully :
    (SumAt (str "[rax*4+rbx]") 0 (.reg 0 .size64 (some 4)) [(false, .reg 3 .size64 none)] ∧
      ¬ ParsedFaithfully (initTokens (str "[rax*4+rbx]")) (.reg 0 .size64 (some 4))
        [(false, .reg 3 .size64 none)]) ∧
    SumAt (str "[rax-rbx]") 0 (.reg 0 .size64 none) [(true, .reg 3 .size64 none)] ∧
      ¬ ParsedFaithfully (initTokens (str "[rax-rbx]")) (.reg 0 .size64 none)
        [(true, .reg 3 .size64 none)] := by
  refine ⟨⟨?_, ?_⟩, ?_, ?_⟩
  · exact ⟨by decide +kernel, .scaled_of (by decide +kernel) (by decide +kernel)
      (by decide +kernel) (by decide +kernel), .plus (by decide +kernel)
        (.reg (by decide +kernel) (by decide +kernel)) (.close (by decide +kernel))⟩
  · intro h
    have hparse : (Parser.parseMemoryOperand (initTokens (str "[rax*4+rbx]"))).1 =
        some { index := some 3, scale := 1 } := by decide +kernel
    have hlost := (h _ hparse).2.registers 0
    revert hlost
    decide
  · exact ⟨by decide +kernel, .reg (by decide +kernel) (by decide +kernel),
      .minus (by decide +kernel) (.reg (by decide +kernel) (by decide +kernel))
        (.close (by decide +kernel))⟩
  · intro h
    have hparse : (Parser.parseMemoryOperand (initTokens (str "[rax-rbx]"))).1 =
        some { base := some 0, index := some 3, scale := 1 } := by decide +kernel
    have hadded := (h _ hparse).1.added
    revert hadded
    decide

end X86Assembler
