import X86Assembler.LineAttribution
import X86Assembler.PlainText

namespace X86Assembler

open CString (Byte str)

/-- A name with what stands in its place, from a character of the text on. -/
structure Replaced where
  start : Nat
  name : List Byte
  value : List Byte
deriving DecidableEq

/-- A part of a text: it is copied, or it is a name that is replaced. -/
inductive Piece
  | copied (text : List Byte)
  | replaced (r : Replaced)
deriving DecidableEq

def Piece.source : Piece → List Byte
  | .copied text => text
  | .replaced r => r.name

def Piece.output : Piece → List Byte
  | .copied text => text
  | .replaced r => r.value

/-- What the loop of `pp_substitute_defines` makes of a text in order, with the number of
characters in front. -/
def substitutionPieces (defines : List Define) :
    Nat → Nat → Bool → Bool → List Byte → List Piece
  | _, _, _, _, [] => []
  | start, skip + 1, single, double, _ :: bs =>
    substitutionPieces defines (start + 1) skip single double bs
  | start, 0, single, double, b :: bs =>
    if !single && b = 0x22#8 then
      .copied [b] :: substitutionPieces defines (start + 1) 0 single (!double) bs
    else if !double && b = 0x27#8 then
      .copied [b] :: substitutionPieces defines (start + 1) 0 (!single) double bs
    else if !single && !double && isIdentStart b then
      let name := parseSymbol (b :: bs)
      let piece := match lookupDefine defines name with
        | some d => Piece.replaced ⟨start, name, d.value.bytes⟩
        | none => Piece.copied name
      piece :: substitutionPieces defines (start + 1) (name.length - 1) single double bs
    else .copied [b] :: substitutionPieces defines (start + 1) 0 single double bs

def piecesOf (defines : List Define) (text : List Byte) : List Piece :=
  substitutionPieces defines 0 0 false false text

section Pieces

variable {defines : List Define}

theorem substitutionPieces_source {start skip : Nat} {single double : Bool} {bs : List Byte}
    (h : skip ≤ bs.length) :
    (substitutionPieces defines start skip single double bs).flatMap Piece.source =
      bs.drop skip := by
  induction bs generalizing start skip single double with
  | nil => rw [substitutionPieces, List.drop_nil, List.flatMap_nil]
  | cons b bs ih =>
      rw [List.length_cons] at h
      cases skip with
      | succ skip =>
          rw [substitutionPieces]
          exact ih (by omega)
      | zero =>
          have hcopied : ∀ single double, (Piece.copied [b] ::
              substitutionPieces defines (start + 1) 0 single double bs).flatMap Piece.source =
                (b :: bs).drop 0 := by
            intro single double
            rw [List.flatMap_cons, ih (Nat.zero_le _)]
            rfl
          rw [substitutionPieces]
          split
          · exact hcopied _ _
          split
          · exact hcopied _ _
          split
          · next hstart =>
              rw [Bool.and_eq_true] at hstart
              obtain ⟨name, hname, more, rfl⟩ := parseSymbol_cons hstart.2 bs
              have hsource : ∀ found : Option Define, (match found with
                  | some d => Piece.replaced ⟨start, b :: name, d.value.bytes⟩
                  | none => Piece.copied (b :: name)).source = b :: name := by
                intro found
                cases found <;> rfl
              rw [List.length_append] at ih
              rw [hname]
              dsimp only
              rw [List.flatMap_cons, hsource, List.length_cons, Nat.add_sub_cancel,
                ih (Nat.le_add_right _ _), List.drop_left]
              rfl
          · exact hcopied _ _

theorem substituteDefinesLoop_pieces {size start skip : Nat} {single double : Bool}
    {bs front out : List Byte}
    (h : substituteDefinesLoop defines size skip single double bs front = some out) :
    out = front ++
      (substitutionPieces defines start skip single double bs).flatMap Piece.output := by
  induction bs generalizing start skip single double front with
  | nil =>
      rw [substituteDefinesLoop] at h
      rw [substitutionPieces, List.flatMap_nil, List.append_nil]
      exact (Option.some.inj h).symm
  | cons b bs ih =>
      cases skip with
      | succ skip =>
          rw [substituteDefinesLoop] at h
          rw [substitutionPieces]
          exact ih h
      | zero =>
          have hpiece : ∀ (piece : Piece) (skip : Nat) (single double : Bool),
              substituteDefinesLoop defines size skip single double bs (front ++ piece.output) =
                some out →
              out = front ++ (piece ::
                substitutionPieces defines (start + 1) skip single double bs).flatMap
                  Piece.output := by
            intro piece skip single double hloop
            rw [List.flatMap_cons, ← List.append_assoc]
            exact ih hloop
          rw [substituteDefinesLoop] at h
          split at h
          · cases h
          rw [substitutionPieces]
          split at h
          · next hquote =>
              rw [if_pos hquote]
              exact hpiece (.copied [b]) _ _ _ h
          next hquote =>
          rw [if_neg hquote]
          split at h
          · next hquote =>
              rw [if_pos hquote]
              exact hpiece (.copied [b]) _ _ _ h
          next hquote =>
          rw [if_neg hquote]
          split at h
          · next hstart =>
              rw [if_pos hstart]
              dsimp only at h ⊢
              cases hfound : lookupDefine defines (parseSymbol (b :: bs)) with
              | none =>
                  simp only [hfound] at h ⊢
                  split at h
                  · cases h
                  · exact hpiece (.copied _) _ _ _ h
              | some d =>
                  simp only [hfound] at h ⊢
                  split at h
                  · cases h
                  · exact hpiece (.replaced ⟨start, _, d.value.bytes⟩) _ _ _ h
          next hstart =>
          rw [if_neg hstart]
          exact hpiece (.copied [b]) _ _ _ h

theorem substituteDefines_pieces {size : Nat} {text out : List Byte}
    (h : substituteDefines defines size text = some out) :
    text = (piecesOf defines text).flatMap Piece.source ∧
      out = (piecesOf defines text).flatMap Piece.output :=
  ⟨(substitutionPieces_source (Nat.zero_le _)).symm, substituteDefinesLoop_pieces h⟩

/-- What has been seen of a text: which quotes are open, each quote being taken for one that
opens or closes a literal, and how much of a name. -/
structure Seen where
  single : Bool := false
  double : Bool := false
  name : Nat := 0
deriving DecidableEq

namespace Seen

def continues (s : Seen) (b : Byte) : Bool :=
  0 < s.name && s.name < maxLabelLength - 1 && isIdentChar b

def starts (s : Seen) (b : Byte) : Bool :=
  !s.continues b && !s.single && !s.double && isIdentStart b

def after (s : Seen) (b : Byte) : Seen :=
  if s.continues b then { s with name := s.name + 1 }
  else if !s.single && b = 0x22#8 then { s with double := !s.double, name := 0 }
  else if !s.double && b = 0x27#8 then { s with single := !s.single, name := 0 }
  else { s with name := if s.starts b then 1 else 0 }

end Seen

def seen (text : List Byte) : Seen := text.foldl Seen.after {}

/-- A name starts at a character: no quote is open and the character is a letter or an underscore
that goes on with no name. -/
def NameStarts (text : List Byte) (i : Nat) : Prop :=
  text[i]?.any (seen (text.take i)).starts = true

instance (text : List Byte) (i : Nat) : Decidable (NameStarts text i) :=
  inferInstanceAs (Decidable (_ = true))

/-- The loop passes over what is left of a name of which it has seen a part. -/
structure PassesOver (s : Seen) (skip : Nat) (bs : List Byte) : Prop where
  room : s.name + skip ≤ maxLabelLength - 1
  some : 0 < skip → 0 < s.name
  chars : ∀ b ∈ bs.take skip, isIdentChar b = true
  stops : ∀ b ∈ (bs.drop skip).head?, isIdentChar b = true →
    s.name + skip = maxLabelLength - 1 ∨ s.name + skip = 0

theorem PassesOver.continues {s : Seen} {skip : Nat} {b : Byte} {bs : List Byte}
    (h : PassesOver s (skip + 1) (b :: bs)) :
    s.continues b = true ∧ s.after b = { s with name := s.name + 1 } ∧
      PassesOver (s.after b) skip bs := by
  have hroom := h.room
  have hcontinues : s.continues b = true := by
    rw [Seen.continues, h.chars b (by simp), Bool.and_true, Bool.and_eq_true, decide_eq_true_eq,
      decide_eq_true_eq]
    exact ⟨h.some (Nat.succ_pos skip), by omega⟩
  have hafter : s.after b = { s with name := s.name + 1 } := by
    rw [Seen.after, if_pos hcontinues]
  rw [hafter]
  refine ⟨hcontinues, rfl, ?_, fun _ => Nat.succ_pos _, ?_, ?_⟩
  · dsimp only
    omega
  · intro c hc
    exact h.chars c (by simp [hc])
  · intro c hc hident
    have hstops := h.stops c hc hident
    dsimp only
    omega

theorem PassesOver.stopped {s : Seen} {b : Byte} {bs : List Byte} (h : PassesOver s 0 (b :: bs)) :
    s.continues b = false := by
  rw [Bool.eq_false_iff]
  intro hcontinues
  rw [Seen.continues, Bool.and_eq_true, Bool.and_eq_true, decide_eq_true_eq,
    decide_eq_true_eq] at hcontinues
  have hstops := h.stops b rfl hcontinues.2
  omega

theorem passesOver_none {s : Seen} (h : s.name = 0) (bs : List Byte) : PassesOver s 0 bs := by
  refine ⟨by rw [h]; exact Nat.zero_le _, fun h => absurd h (Nat.lt_irrefl 0), ?_, fun _ _ _ => .inr h⟩
  rw [List.take_zero]
  exact List.forall_mem_nil _

theorem passesOver_symbol {s : Seen} {b : Byte} (h : s.name = 1) (hb : isIdentStart b = true)
    (bs : List Byte) : PassesOver s ((parseSymbol (b :: bs)).length - 1) bs := by
  have hprefix := List.prefix_iff_eq_take.mp ((List.take_prefix (maxLabelLength - 2) _).trans
    (@List.takeWhile_prefix _ bs isIdentChar))
  have hlen := List.length_take_le (maxLabelLength - 2) (bs.takeWhile isIdentChar)
  have hmax : maxLabelLength = 256 := rfl
  rw [parseSymbol_eq hb, List.length_cons, Nat.add_sub_cancel]
  refine ⟨?_, fun _ => by rw [h]; exact Nat.one_pos, ?_, ?_⟩
  · rw [h]
    omega
  · rw [← hprefix]
    intro c hc
    exact List.mem_takeWhile_imp (List.mem_of_mem_take hc)
  · intro c hc hident
    left
    rw [h]
    by_contra hne
    have hshort : (bs.takeWhile isIdentChar).length ≤ maxLabelLength - 2 := by
      rw [List.length_take] at hlen hne
      omega
    rw [List.take_of_length_le hshort, drop_takeWhile] at hc
    rw [head_dropWhile hc] at hident
    cases hident

/-- A name that is to be replaced in the eyes of the loop. -/
structure Replaces (defines : List Define) (text : List Byte) (r : Replaced) : Prop where
  starts : NameStarts text r.start
  name : r.name = parseSymbol (text.drop r.start)
  value : ∃ d, lookupDefine defines r.name = some d ∧ r.value = d.value.bytes

theorem nameStarts_length (front bs : List Byte) (b : Byte) :
    NameStarts (front ++ b :: bs) front.length ↔ (seen front).starts b = true := by
  rw [NameStarts, List.getElem?_append_right (Nat.le_refl _), Nat.sub_self, List.take_left' rfl]
  rfl

theorem not_nameStarts {text : List Byte} {i : Nat} (h : text.length ≤ i) : ¬ NameStarts text i := by
  rw [NameStarts, List.getElem?_eq_none h]
  exact Bool.false_ne_true

theorem seen_concat (front : List Byte) (b : Byte) : seen (front ++ [b]) = (seen front).after b := by
  rw [seen, List.foldl_append]
  rfl

section Place

variable {front bs : List Byte} {b : Byte} {r : Replaced}

theorem replaces_from_iff : front.length ≤ r.start ∧ Replaces defines (front ++ b :: bs) r ↔
    front.length = r.start ∧ Replaces defines (front ++ b :: bs) r ∨
      front.length + 1 ≤ r.start ∧ Replaces defines (front ++ b :: bs) r := by
  rw [Nat.le_iff_lt_or_eq, or_and_right, or_comm]
  rfl

theorem replaces_at_iff (hstarts : (seen front).starts b = true) :
    front.length = r.start ∧ Replaces defines (front ++ b :: bs) r ↔
      ∃ d, lookupDefine defines (parseSymbol (b :: bs)) = some d ∧
        r = ⟨front.length, parseSymbol (b :: bs), d.value.bytes⟩ := by
  have hdrop : (front ++ b :: bs).drop front.length = b :: bs := List.drop_left
  constructor
  · rintro ⟨heq, -, hname, d, hfound, hvalue⟩
    obtain ⟨start, name, value⟩ := r
    dsimp only at heq hname hfound hvalue
    subst heq
    rw [hdrop] at hname
    subst hname hvalue
    exact ⟨d, hfound, rfl⟩
  · rintro ⟨d, hfound, rfl⟩
    refine ⟨rfl, (nameStarts_length front bs b).mpr hstarts, ?_, d, hfound, rfl⟩
    rw [hdrop]

theorem not_replaces_at (hstarts : (seen front).starts b = false) :
    ¬ (front.length = r.start ∧ Replaces defines (front ++ b :: bs) r) := by
  rintro ⟨heq, hreplaces⟩
  have hname := hreplaces.starts
  rw [← heq, nameStarts_length, hstarts] at hname
  cases hname

end Place

theorem not_starts {s : Seen} {b c : Byte} (hc : isIdentStart c = false) (hb : b = c) :
    s.starts b = false := by
  rw [Seen.starts, hb, hc, Bool.and_false]

theorem replaced_mem_iff {front bs : List Byte} {skip : Nat} {r : Replaced}
    (h : PassesOver (seen front) skip bs) :
    .replaced r ∈ substitutionPieces defines front.length skip (seen front).single
        (seen front).double bs ↔
      front.length ≤ r.start ∧ Replaces defines (front ++ bs) r := by
  induction bs generalizing front skip with
  | nil =>
      rw [substitutionPieces, List.append_nil]
      constructor
      · intro hmem
        cases hmem
      · rintro ⟨hle, hreplaces⟩
        exact absurd hreplaces.starts (not_nameStarts hle)
  | cons b bs ih =>
      have htail : ∀ {skip single double name},
          (seen front).after b = ⟨single, double, name⟩ →
          PassesOver ((seen front).after b) skip bs →
          (.replaced r ∈ substitutionPieces defines (front.length + 1) skip single double bs ↔
            front.length + 1 ≤ r.start ∧ Replaces defines (front ++ b :: bs) r) := by
        intro skip single double name hafter hpass
        have hih := @ih (front ++ [b]) skip (by rw [seen_concat]; exact hpass)
        rw [seen_concat, hafter, List.length_append, List.length_singleton, List.append_assoc] at hih
        exact hih
      rw [replaces_from_iff]
      cases skip with
      | succ skip =>
          obtain ⟨hcontinues, hafter, hpass⟩ := h.continues
          have hstarts : (seen front).starts b = false := by
            rw [Seen.starts, hcontinues]
            rfl
          rw [substitutionPieces, htail hafter hpass, or_iff_right (not_replaces_at hstarts)]
      | zero =>
          have hstopped := h.stopped
          have hcopied : ∀ {single double},
              (seen front).after b = ⟨single, double, 0⟩ → (seen front).starts b = false →
              (.replaced r ∈ .copied [b] ::
                  substitutionPieces defines (front.length + 1) 0 single double bs ↔
                front.length = r.start ∧ Replaces defines (front ++ b :: bs) r ∨
                  front.length + 1 ≤ r.start ∧ Replaces defines (front ++ b :: bs) r) := by
            intro single double hafter hstarts
            rw [or_iff_right (not_replaces_at hstarts),
              ← htail hafter (passesOver_none (by rw [hafter]) bs)]
            simp
          rw [substitutionPieces]
          split
          · next hquote =>
              refine hcopied ?_ (@not_starts _ _ 0x22#8 rfl ?_)
              · rw [Seen.after, if_neg (by simp [hstopped]), if_pos hquote]
              · simp only [Bool.and_eq_true, decide_eq_true_eq] at hquote
                exact hquote.2
          next hdouble =>
          split
          · next hquote =>
              refine hcopied ?_ (@not_starts _ _ 0x27#8 rfl ?_)
              · rw [Seen.after, if_neg (by simp [hstopped]), if_neg hdouble, if_pos hquote]
              · simp only [Bool.and_eq_true, decide_eq_true_eq] at hquote
                exact hquote.2
          next hsingle =>
          have hafter : (seen front).after b = { seen front with
              name := if (seen front).starts b then 1 else 0 } := by
            rw [Seen.after, if_neg (by simp [hstopped]), if_neg hdouble, if_neg hsingle]
          split
          · next hstart =>
              have hstarts : (seen front).starts b = true := by
                rw [Seen.starts, hstopped]
                exact hstart
              rw [hstarts, if_pos rfl] at hafter
              have hident : isIdentStart b = true := by
                rw [Bool.and_eq_true] at hstart
                exact hstart.2
              dsimp only
              rw [List.mem_cons, htail hafter (passesOver_symbol (by rw [hafter]) hident bs),
                replaces_at_iff hstarts]
              apply or_congr_left
              cases lookupDefine defines (parseSymbol (b :: bs)) with
              | none => simp
              | some d => simp
          · next hstart =>
              have hstarts : (seen front).starts b = false := by
                rw [Seen.starts, hstopped]
                exact Bool.eq_false_iff.mpr hstart
              rw [hstarts] at hafter
              exact hcopied hafter hstarts

theorem replaced_mem_piecesOf {text : List Byte} {r : Replaced} :
    .replaced r ∈ piecesOf defines text ↔ Replaces defines text r := by
  have hmem := @replaced_mem_iff defines [] text 0 r (passesOver_none rfl text)
  rw [List.length_nil, List.nil_append] at hmem
  exact hmem.trans ⟨fun h => h.2, fun h => ⟨Nat.zero_le _, h⟩⟩

def tokenOffset (text : List Byte) (k : Nat) : Nat := text.length - (tokenStart text k).length

def InToken (text : List Byte) (k i : Nat) : Prop :=
  tokenOffset text k ≤ i ∧ i < tokenOffset text k + (tokenBytes text k).length

def IsLiteral (text : List Byte) (k : Nat) : Prop :=
  (tokenAt text k).type = .string ∨ (tokenAt text k).type = .char

/-- A substitution that leaves the string and character literals of a text as they are, and
replaces every identifier that is a defined name by its value. -/
structure RespectsLiterals (defines : List Define) (text : List Byte) : Prop where
  literals : ∀ k, IsLiteral text k → ∀ r, .replaced r ∈ piecesOf defines text →
    InToken text k r.start → r.value = r.name
  names : ∀ k d, (tokenAt text k).type = .identifier →
    lookupDefine defines (tokenBytes text k) = some d →
    .replaced ⟨tokenOffset text k, tokenBytes text k, d.value.bytes⟩ ∈ piecesOf defines text

theorem drop_tokenOffset (text : List Byte) (k : Nat) :
    text.drop (tokenOffset text k) = tokenStart text k :=
  (List.suffix_iff_eq_drop.mp (tokenStart_suffix text k)).symm

theorem nextToken_name {lx : Lexer} (h : (nextToken lx).1.type = .identifier) :
    (nextToken lx).2.rest = (lexIdentifier (maxLineLength - 1) (skipWhitespace lx.rest)).2 := by
  rw [nextToken] at h ⊢
  dsimp only at h ⊢
  split at h
  · cases h
  · next b bs hrest =>
      rw [hrest]
      split at h
      · cases h
      · next hb =>
          rw [if_neg hb]
          rw [hrest] at h
          exact lexToken_name h rfl

theorem tokenBytes_identifier {text : List Byte} {k : Nat}
    (h : (tokenAt text k).type = .identifier) :
    tokenBytes text k = ((tokenStart text k).takeWhile isIdentifierChar).take (maxLineLength - 1) := by
  have hsplit := tokenBytes_split text k
  have hlex := (lexIdentifier_split (maxLineLength - 1) (tokenStart text k)).1
  have hrest : (lexerAt text (k + 1)).rest =
      (lexIdentifier (maxLineLength - 1) (tokenStart text k)).2 := nextToken_name h
  rw [← lexIdentifier_eq]
  rw [hrest] at hsplit
  exact List.append_cancel_right (hsplit.symm.trans hlex)

/-- An identifier that is defined is read as that name where it has only letters, digits and
underscores. -/
theorem tokenBytes_eq_parseSymbol {text : List Byte} {k : Nat} {d : Define}
    (h : (tokenAt text k).type = .identifier)
    (hdefined : lookupDefine defines (tokenBytes text k) = some d) :
    tokenBytes text k = parseSymbol (text.drop (tokenOffset text k)) ↔
      (tokenBytes text k).all isIdentChar = true := by
  have hsub : ∀ b : Byte, isIdentChar b = true → isIdentifierChar b = true := by decide +kernel
  have hname : d.name.bytes = tokenBytes text k := by
    have hfound := List.find?_some hdefined
    simpa using hfound
  have hlen : (tokenBytes text k).length ≤ maxLabelLength - 1 := by
    rw [← hname]
    exact Nat.le_sub_one_of_lt d.name.length_lt
  have hbytes := tokenBytes_identifier h
  rw [drop_tokenOffset, parseSymbol]
  have hwhole : tokenBytes text k = (tokenStart text k).takeWhile isIdentifierChar := by
    rw [hbytes, List.length_take] at hlen
    rw [hbytes, List.take_of_length_le]
    have hlabel : maxLabelLength = 256 := rfl
    have hline : maxLineLength = 1024 := rfl
    omega
  constructor
  · intro heq
    rw [heq, List.all_eq_true]
    exact fun b hb => List.mem_takeWhile_imp (List.mem_of_mem_take hb)
  · intro hall
    rw [List.all_eq_true] at hall
    have hsplit : tokenStart text k =
        tokenBytes text k ++ (tokenStart text k).dropWhile isIdentifierChar := by
      rw [hwhole, List.takeWhile_append_dropWhile]
    have hstop : ((tokenStart text k).dropWhile isIdentifierChar).takeWhile isIdentChar = [] := by
      cases hrest : (tokenStart text k).dropWhile isIdentifierChar with
      | nil => rfl
      | cons b rest =>
          have hb : isIdentifierChar b = false :=
            @head_dropWhile _ (tokenStart text k) b (by rw [hrest]; rfl)
          apply List.takeWhile_cons_of_neg
          intro hident
          rw [hsub b hident] at hb
          cases hb
    rw [hsplit, List.takeWhile_append_of_pos hall, hstop, List.append_nil,
      List.take_of_length_le hlen]

/-- The substitution writes a text piece by piece. It respects literals just where no name that
is defined otherwise starts within one, with each quote taken for one that opens or closes a
literal, and every identifier that is defined is a name that starts at its place. -/
theorem substituteDefines_respects_iff {size : Nat} {text out : List Byte}
    (h : substituteDefines defines size text = some out) :
    (text = (piecesOf defines text).flatMap Piece.source ∧
      out = (piecesOf defines text).flatMap Piece.output) ∧
    (RespectsLiterals defines text ↔
      (∀ k i d, IsLiteral text k → InToken text k i → NameStarts text i →
        lookupDefine defines (parseSymbol (text.drop i)) = some d →
          d.value.bytes = parseSymbol (text.drop i)) ∧
      ∀ k d, (tokenAt text k).type = .identifier →
        lookupDefine defines (tokenBytes text k) = some d →
          NameStarts text (tokenOffset text k) ∧ (tokenBytes text k).all isIdentChar = true) := by
  refine ⟨substituteDefines_pieces h, ?_, ?_⟩
  · rintro ⟨hliterals, hnames⟩
    constructor
    · intro k i d hliteral hin hstarts hdefined
      exact hliterals k hliteral ⟨i, _, d.value.bytes⟩
        (replaced_mem_piecesOf.mpr ⟨hstarts, rfl, d, hdefined, rfl⟩) hin
    · intro k d htype hdefined
      have hreplaces := replaced_mem_piecesOf.mp (hnames k d htype hdefined)
      exact ⟨hreplaces.starts, (tokenBytes_eq_parseSymbol htype hdefined).mp hreplaces.name⟩
  · rintro ⟨hliterals, hnames⟩
    constructor
    · intro k hliteral r hr hin
      obtain ⟨hstarts, hname, d, hdefined, hvalue⟩ := replaced_mem_piecesOf.mp hr
      rw [hname] at hdefined
      rw [hvalue, hname]
      exact hliterals k r.start d hliteral hin hstarts hdefined
    · intro k d htype hdefined
      obtain ⟨hstarts, hall⟩ := hnames k d htype hdefined
      exact replaced_mem_piecesOf.mpr
        ⟨hstarts, (tokenBytes_eq_parseSymbol htype hdefined).mpr hall, d, hdefined, rfl⟩

end Pieces

theorem tokenAt_eof {source : List Byte} {k : Nat} (h : (tokenAt source k).type = .eof) (n : Nat) :
    (tokenAt source (k + n)).type = .eof := by
  induction n with
  | zero => exact h
  | succ n ih =>
      rw [← Nat.add_assoc, (eof_stays ih).1]
      exact ih

def oneDefine : List Define := [⟨CString.lit _ "X", CString.lit _ "1"⟩]

/-- A name in a string stays, and the same name behind it is replaced. -/
theorem substituteDefines_respects_string :
    substituteDefines oneDefine 4096 (str "db \"X\", X") = some (str "db \"X\", 1") ∧
      RespectsLiterals oneDefine (str "db \"X\", X") := by
  have hsubst : substituteDefines oneDefine 4096 (str "db \"X\", X") = some (str "db \"X\", 1") := by
    decide +kernel
  have hend : ∀ k, 4 ≤ k → (tokenAt (str "db \"X\", X") k).type = .eof := by
    intro k hk
    obtain ⟨n, rfl⟩ := Nat.exists_eq_add_of_le hk
    exact tokenAt_eof (by decide +kernel) n
  refine ⟨hsubst, (substituteDefines_respects_iff hsubst).2.mpr ⟨?_, ?_⟩⟩
  · intro k i d hliteral hin hstarts
    exfalso
    have hk : k < 4 := by
      by_contra hk
      rw [IsLiteral, hend k (Nat.le_of_not_lt hk)] at hliteral
      simp at hliteral
    have hlen : (str "db \"X\", X").length = 9 := by decide +kernel
    have hi : i < 9 := by
      by_contra hi
      exact not_nameStarts (by omega) hstarts
    have hnone : ∀ k < 4, ∀ i < 9, ((tokenAt (str "db \"X\", X") k).type = .string ∨
        (tokenAt (str "db \"X\", X") k).type = .char) →
        (tokenOffset (str "db \"X\", X") k ≤ i ∧
          i < tokenOffset (str "db \"X\", X") k + (tokenBytes (str "db \"X\", X") k).length) →
        ¬ NameStarts (str "db \"X\", X") i := by decide +kernel
    exact hnone k hk i hi hliteral hin hstarts
  · intro k d htype _
    have hk : k < 4 := by
      by_contra hk
      rw [hend k (Nat.le_of_not_lt hk)] at htype
      cases htype
    have hall : ∀ k < 4, (tokenAt (str "db \"X\", X") k).type = .identifier →
        NameStarts (str "db \"X\", X") (tokenOffset (str "db \"X\", X") k) ∧
          (tokenBytes (str "db \"X\", X") k).all isIdentChar = true := by decide +kernel
    exact hall k hk htype

/-- An escaped quote in a string and an apostrophe in a comment turn the substitution around. -/
theorem not_respectsLiterals :
    (substituteDefines oneDefine 4096 (str "db \"\\\"X\"") = some (str "db \"\\\"1\"") ∧
      ¬ RespectsLiterals oneDefine (str "db \"\\\"X\"")) ∧
    substituteDefines oneDefine 4096 (str "; it's\ndb X") = some (str "; it's\ndb X") ∧
      ¬ RespectsLiterals oneDefine (str "; it's\ndb X") := by
  refine ⟨⟨by decide +kernel, ?_⟩, by decide +kernel, ?_⟩
  · intro h
    have hvalue := h.literals 1 (.inl (by decide +kernel)) ⟨6, str "X", str "1"⟩
      (by decide +kernel) ⟨by decide +kernel, by decide +kernel⟩
    revert hvalue
    decide +kernel
  · intro h
    have hreplaced := h.names 2 ⟨CString.lit _ "X", CString.lit _ "1"⟩ (by decide +kernel)
      (by decide +kernel)
    revert hreplaced
    decide +kernel

end X86Assembler
