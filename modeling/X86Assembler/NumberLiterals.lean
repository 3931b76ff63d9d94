import X86Assembler.Library.Digits
import X86Assembler.LineAttribution

namespace X86Assembler

open CString (Byte str isDigit isXDigit)

/-- A run of digits of a number, with its mark, that ends where other text begins. -/
structure DigitRun (run more : List Byte) : Prop where
  digit : run.head?.any isDigit
  reads : lexNumber (run ++ more) = (run, more)

def isDigitOf (base : Nat) (b : Byte) : Bool := isXDigit b && digitValue b < base

/-- The number that a digit run writes, if it is a literal of its base. -/
def literalValue (run : List Byte) : Option Nat :=
  let (base, digits) := numberBase run
  if digits ≠ [] && digits.all (isDigitOf base) then some (Digits.value digitValue base digits)
  else none

/-- The number that an operand is to stand for; none for a malformed digit run, and beyond
64 bits. -/
def meantNumber (negative : Bool) (run : List Byte) : Option Int :=
  match literalValue run with
  | none => none
  | some v =>
    if negative then if v ≤ 2 ^ 63 then some (-v) else none
    else if v < 2 ^ 64 then some v else none

def numberText (dollar negative : Bool) (run : List Byte) : List Byte :=
  (if dollar then str "$" else []) ++ (if negative then str "-" else []) ++ run

theorem digit_facts : ∀ b : Byte, isDigit b = true → b ≠ 0x3B#8 ∧ b ≠ 0x2F#8 ∧ b ≠ 0x0A#8 ∧
    CString.isSpace b = false ∧ punctuation b = none ∧ b ≠ 0x27#8 ∧ b ≠ 0x22#8 := by
  decide +kernel

theorem skipWhitespace_digit {b : Byte} (hb : isDigit b = true) (bs : List Byte) :
    skipWhitespace (b :: bs) = b :: bs := by
  obtain ⟨hsemicolon, hslash, hnewline, hspace, -⟩ := digit_facts b hb
  rw [skipWhitespace, if_neg (by simp [hsemicolon, hslash]), if_neg hnewline, if_neg (by simp [hspace])]

theorem DigitRun.cons {run more : List Byte} (h : DigitRun run more) :
    ∃ b bs, isDigit b = true ∧ run = b :: bs := by
  obtain ⟨hdigit, -⟩ := h
  cases run with
  | nil => cases hdigit
  | cons b bs => exact ⟨b, bs, by simpa using hdigit, rfl⟩

theorem nextToken_run {run more : List Byte} (h : DigitRun run more) {lx : Lexer}
    (hlx : lx.rest = run ++ more) :
    (nextToken lx).1.type = .number ∧
      (nextToken lx).1.value = parseNumber (CString.copyBounded maxLineLength run).bytes ∧
        (nextToken lx).2.rest = more := by
  obtain ⟨b, bs, hb, rfl⟩ := h.cons
  obtain ⟨-, -, hnewline, -, hpunct, hquote, hdouble⟩ := digit_facts b hb
  have hskip : skipWhitespace lx.rest = b :: (bs ++ more) := by
    rw [hlx]
    exact skipWhitespace_digit hb _
  have hreads := h.reads
  rw [List.cons_append] at hreads
  rw [nextToken, hskip]
  simp only [lexToken, if_neg hnewline, hpunct, if_neg hquote, if_neg hdouble, if_pos hb, hreads,
    and_self]

theorem nextToken_dollar {lx : Lexer} {more : List Byte} (hlx : lx.rest = 0x24#8 :: more) :
    (nextToken lx).1.type = .dollar ∧ (nextToken lx).2.rest = more := by
  rw [nextToken, hlx]
  exact ⟨rfl, rfl⟩

theorem nextToken_minus {lx : Lexer} {more : List Byte} (hlx : lx.rest = 0x2D#8 :: more) :
    (nextToken lx).1.type = .minus ∧ (nextToken lx).2.rest = more := by
  rw [nextToken, hlx]
  exact ⟨rfl, rfl⟩

theorem strtoll_digits {base : Nat} {ds : List Byte} (h : ds.all (isDigitOf base) = true) :
    strtoll base ds = BitVec.ofNat 64 (min (Digits.value digitValue base ds) (2 ^ 63 - 1)) := by
  have htake : ds.takeWhile (fun b => isXDigit b && digitValue b < base) = ds := by
    rw [List.takeWhile_eq_self_iff]
    intro b hb
    exact List.all_eq_true.mp h b hb
  rw [strtoll, htake]
  rfl

theorem numberBase_spec (run : List Byte) :
    (∃ b rest, run = 0x30#8 :: b :: rest ∧ b ≠ 0 ∧ (numberBase run).2 = rest) ∨
      (numberBase run).2 = run := by
  have hmark : ∀ b : Byte, CString.toLower b = 0x78#8 ∨ CString.toLower b = 0x62#8 → b ≠ 0 := by
    decide +kernel
  rw [numberBase.eq_def]
  split
  · next b rest =>
      split
      · next hx => exact .inl ⟨b, rest, rfl, hmark b (.inl hx), rfl⟩
      split
      · next hx => exact .inl ⟨b, rest, rfl, hmark b (.inr hx), rfl⟩
      · exact .inr rfl
  · exact .inr rfl

theorem two_le_numberBase (run : List Byte) : 2 ≤ (numberBase run).1 := by
  rw [numberBase.eq_def]
  split
  · split
    · exact Nat.le_of_ble_eq_true rfl
    split
    · exact Nat.le_refl 2
    · exact Nat.le_of_ble_eq_true rfl
  · exact Nat.le_of_ble_eq_true rfl

theorem numberBase_take {run : List Byte} {n : Nat} (hn : 2 ≤ n) (hlt : n < run.length) :
    ∃ m, m < (numberBase run).2.length ∧
      numberBase (run.take n) = ((numberBase run).1, (numberBase run).2.take m) := by
  obtain ⟨k, rfl⟩ := Nat.exists_eq_add_of_le' hn
  match run, hlt with
  | a :: b :: rest, hlt =>
      rw [List.length_cons, List.length_cons] at hlt
      rw [List.take_succ_cons, List.take_succ_cons]
      by_cases ha : a = 0x30#8
      · subst ha
        have hmarked : ∀ l, numberBase (0x30#8 :: b :: l) =
            if CString.toLower b = 0x78#8 then (16, l)
            else if CString.toLower b = 0x62#8 then (2, l)
            else (10, 0x30#8 :: b :: l) := fun _ => rfl
        rw [hmarked, hmarked]
        by_cases hx : CString.toLower b = 0x78#8
        · rw [if_pos hx, if_pos hx]
          exact ⟨k, by simpa using hlt, rfl⟩
        rw [if_neg hx, if_neg hx]
        by_cases hb : CString.toLower b = 0x62#8
        · rw [if_pos hb, if_pos hb]
          exact ⟨k, by simpa using hlt, rfl⟩
        · rw [if_neg hb, if_neg hb]
          exact ⟨k + 2, by simpa using hlt, rfl⟩
      · have hplain : ∀ l, numberBase (a :: b :: l) = (10, a :: b :: l) := by
          intro l
          simp [numberBase, ha]
        rw [hplain, hplain]
        exact ⟨k + 2, by simpa using hlt, rfl⟩

theorem literalValue_eq_some {run : List Byte} {v : Nat} (h : literalValue run = some v) :
    (numberBase run).2.all (isDigitOf (numberBase run).1) = true ∧
      Digits.value digitValue (numberBase run).1 (numberBase run).2 = v := by
  rw [literalValue] at h
  dsimp only at h
  split at h
  · next hall =>
      rw [Bool.and_eq_true] at hall
      exact ⟨hall.2, Option.some.inj h⟩
  · cases h

theorem zero_notMem_run {run : List Byte} {v : Nat} (h : literalValue run = some v) :
    0 ∉ run := by
  obtain ⟨hall, -⟩ := literalValue_eq_some h
  have hdigits : 0 ∉ (numberBase run).2 := by
    intro hmem
    have hzero := List.all_eq_true.mp hall 0 hmem
    cases hzero
  rcases numberBase_spec run with ⟨b, rest, hrun, hb, hrest⟩ | hrun
  · rw [hrest] at hdigits
    rw [hrun]
    intro hmem
    rcases List.mem_cons.mp hmem with h0 | hmem
    · cases h0
    rcases List.mem_cons.mp hmem with h0 | hmem
    · exact hb h0.symm
    · exact hdigits hmem
  · rwa [hrun] at hdigits

/-- The token's value is that of what the token holds of the run, cut off at `INT64_MAX`. -/
theorem parseNumber_run {run : List Byte} {v : Nat} (h : literalValue run = some v) :
    ∃ w, parseNumber (CString.copyBounded maxLineLength run).bytes =
        BitVec.ofNat 64 (min w (2 ^ 63 - 1)) ∧ w ≤ v ∧
      (w = v ↔ run.length < maxLineLength ∨ v = 0) := by
  obtain ⟨hall, hv⟩ := literalValue_eq_some h
  rw [CString.copyBounded_bytes_take (zero_notMem_run h), parseNumber]
  by_cases hlen : run.length < maxLineLength
  · rw [List.take_of_length_le (Nat.le_sub_one_of_lt hlen)]
    exact ⟨v, by rw [strtoll_digits hall, hv], Nat.le_refl _, iff_of_true rfl (.inl hlen)⟩
  · have hlong : maxLineLength - 1 < run.length := by
      change 1023 < run.length
      change ¬ run.length < 1024 at hlen
      omega
    obtain ⟨m, hm, hbase⟩ := numberBase_take (by decide) hlong
    have htake : ((numberBase run).2.take m).all (isDigitOf (numberBase run).1) = true := by
      rw [List.all_eq_true] at hall ⊢
      intro b hb
      exact hall b (List.mem_of_mem_take hb)
    have htwo := two_le_numberBase run
    refine ⟨Digits.value digitValue (numberBase run).1 ((numberBase run).2.take m),
      by rw [hbase]; exact strtoll_digits htake, ?_, ?_⟩
    · rw [← hv]
      exact Digits.value_take_le digitValue _ (by omega) m _
    · constructor
      · intro heq
        by_contra hnot
        rw [not_or] at hnot
        have hlt := Digits.value_take_lt digitValue _ htwo hm (hv.symm ▸ hnot.2)
        omega
      · intro hor
        have hzero := hor.resolve_left hlen
        have hle := Digits.value_take_le digitValue (numberBase run).1 (by omega) m
          (numberBase run).2
        omega

theorem ofNat_min_eq_iff {v w : Nat} (hw : w ≤ v) (hv : v < 2 ^ 64) :
    BitVec.ofNat 64 (min w (2 ^ 63 - 1)) = BitVec.ofInt 64 v ↔ v < 2 ^ 63 ∧ w = v := by
  have hint : BitVec.ofInt 64 v = BitVec.ofNat 64 v := by
    rw [BitVec.ofInt_natCast]
  rw [hint, ← BitVec.toNat_inj, BitVec.toNat_ofNat, BitVec.toNat_ofNat,
    Nat.mod_eq_of_lt (by omega), Nat.mod_eq_of_lt hv]
  omega

/-- An operand parsed exactly: as the number it is to stand for, with nothing else read of the
source, and not at all where it is to stand for none. -/
def ParsedExactly (source : List Byte) (p : ParserState) (more : List Byte) :
    Option Int → Prop
  | some n => ∃ q j, Parser.parseOperand p = (some (.imm (BitVec.ofInt 64 n)), q) ∧
      StandsAt source j q ∧ (lexerAt source j).rest = more
  | none => (Parser.parseOperand p).1 = none

section Operand

variable {source : List Byte} {k : Nat} {p : ParserState}

theorem parseOperand_number (h : p.current.type = .number) :
    Parser.parseOperand p = (some (.imm p.current.value), p.advance) := by
  rw [Parser.parseOperand, Fallible.bind_of_some (Fallible.get_run p)]
  simp only [h]
  rfl

theorem parseOperand_dollar (h : p.current.type = .dollar) :
    Parser.parseOperand p = Parser.dollarOperand p.advance := by
  rw [Parser.parseOperand, Fallible.bind_of_some (Fallible.get_run p)]
  simp only [h]
  rfl

theorem parseOperand_minus (h : p.current.type = .minus) : (Parser.parseOperand p).1 = none := by
  rw [Parser.parseOperand, Fallible.bind_of_some (Fallible.get_run p)]
  simp only [h]
  rfl

theorem dollarOperand_number (h : p.current.type = .number) :
    Parser.dollarOperand p = (some (.imm p.current.value), p.advance) := by
  have hcurrent : Parser.current p = (some p.current, p) := rfl
  rw [Parser.dollarOperand, Fallible.bind_of_some hcurrent, if_pos h]
  rfl

theorem dollarOperand_minus (h : p.current.type = .minus) : (Parser.dollarOperand p).1 = none := by
  have hcurrent : Parser.current p = (some p.current, p) := rfl
  rw [Parser.dollarOperand, Fallible.bind_of_some hcurrent, if_neg (by rw [h]; decide),
    if_neg (by rw [h]; decide)]
  rfl

theorem parseOperand_unsigned (hp : StandsAt source k p) {dollar : Bool} {run more : List Byte}
    (hrun : DigitRun run more) (hrest : (lexerAt source k).rest = numberText dollar false run ++ more) :
    ∃ q j, Parser.parseOperand p =
        (some (.imm (parseNumber (CString.copyBounded maxLineLength run).bytes)), q) ∧
      StandsAt source j q ∧ (lexerAt source j).rest = more := by
  cases dollar with
  | false =>
      obtain ⟨htype, hvalue, hmore⟩ := nextToken_run hrun hrest
      refine ⟨p.advance, k + 1, ?_, standsAt_advance hp, hmore⟩
      rw [parseOperand_number (by rw [hp.current]; exact htype), hp.current]
      exact congrArg (fun v => (some (Operand.imm v), p.advance)) hvalue
  | true =>
      obtain ⟨hdollar, hafter⟩ := nextToken_dollar hrest
      have hp' := standsAt_advance hp
      obtain ⟨htype, hvalue, hmore⟩ := @nextToken_run _ _ hrun (lexerAt source (k + 1)) hafter
      refine ⟨p.advance.advance, k + 2, ?_, standsAt_advance hp', hmore⟩
      rw [parseOperand_dollar (by rw [hp.current]; exact hdollar),
        dollarOperand_number (by rw [hp'.current]; exact htype), hp'.current]
      exact congrArg (fun v => (some (Operand.imm v), p.advance.advance)) hvalue

theorem parseOperand_signed (hp : StandsAt source k p) {dollar : Bool} {run more : List Byte}
    (hrest : (lexerAt source k).rest = numberText dollar true run ++ more) :
    (Parser.parseOperand p).1 = none := by
  cases dollar with
  | false =>
      obtain ⟨htype, -⟩ := nextToken_minus hrest
      exact parseOperand_minus (by rw [hp.current]; exact htype)
  | true =>
      obtain ⟨hdollar, hafter⟩ := nextToken_dollar hrest
      have hp' := standsAt_advance hp
      obtain ⟨htype, -⟩ := @nextToken_minus (lexerAt source (k + 1)) _ hafter
      rw [parseOperand_dollar (by rw [hp.current]; exact hdollar)]
      exact dollarOperand_minus (by rw [hp'.current]; exact htype)

/-- A number is parsed exactly where it has no sign, is a literal below `2^63` and fits into a
token, and where it has a sign and is no literal of the 64 bits. -/
theorem parseOperand_number_iff (hp : StandsAt source k p) (dollar negative : Bool)
    {run more : List Byte} (hrun : DigitRun run more)
    (hrest : (lexerAt source k).rest = numberText dollar negative run ++ more) :
    ParsedExactly source p more (meantNumber negative run) ↔
      if negative then meantNumber negative run = none
      else ∃ v, literalValue run = some v ∧ v < 2 ^ 63 ∧ (run.length < maxLineLength ∨ v = 0) := by
  cases negative with
  | true =>
      have hnone := parseOperand_signed hp hrest
      rw [if_pos rfl]
      cases hmeant : meantNumber true run with
      | none => exact iff_of_true hnone rfl
      | some n =>
          apply iff_of_false
          · rintro ⟨q, j, hparse, -⟩
            rw [hparse] at hnone
            cases hnone
          · intro h
            cases h
  | false =>
      obtain ⟨q, j, hparse, hq, hmore⟩ := parseOperand_unsigned hp hrun hrest
      rw [if_neg Bool.false_ne_true, meantNumber]
      cases hvalue : literalValue run with
      | none =>
          apply iff_of_false
          · intro h
            rw [ParsedExactly, hparse] at h
            cases h
          · rintro ⟨v, hv, -⟩
            cases hv
      | some v =>
          obtain ⟨w, htoken, hw, hwv⟩ := parseNumber_run hvalue
          dsimp only
          rw [if_neg Bool.false_ne_true]
          by_cases hbound : v < 2 ^ 64
          · rw [if_pos hbound]
            have hexact := ofNat_min_eq_iff hw hbound
            rw [hwv] at hexact
            constructor
            · rintro ⟨q', j', hparse', -⟩
              rw [hparse'] at hparse
              obtain ⟨himm, -⟩ := Prod.mk.inj hparse
              have heq := Operand.imm.inj (Option.some.inj himm)
              rw [htoken] at heq
              exact ⟨v, rfl, hexact.mp heq.symm⟩
            · rintro ⟨v', hv', hfits⟩
              cases hv'
              exact ⟨q, j, by rw [hparse, htoken, hexact.mpr hfits], hq, hmore⟩
          · rw [if_neg hbound]
            apply iff_of_false
            · intro h
              rw [ParsedExactly, hparse] at h
              cases h
            · rintro ⟨v', hv', hlt, -⟩
              cases hv'
              omega

end Operand

inductive LiteralBase
  | decimal | hex | binary
deriving DecidableEq

namespace LiteralBase

def base : LiteralBase → Nat
  | .decimal => 10
  | .hex => 16
  | .binary => 2

def mark : LiteralBase → List Byte
  | .decimal => []
  | .hex => str "0x"
  | .binary => str "0b"

end LiteralBase

def numberDigits (base n : Nat) : List Byte := (Nat.toDigits base n).map CString.chr

def numberLiteral (b : LiteralBase) (n : Nat) : List Byte := b.mark ++ numberDigits b.base n

theorem digitChar_facts : ∀ d < 16, isXDigit (CString.chr d.digitChar) = true ∧
    digitValue (CString.chr d.digitChar) = d := by
  decide

theorem isDigitOf_digitChar {base d : Nat} (hbase : base ≤ 16) (hd : d < base) :
    isDigitOf base (CString.chr d.digitChar) = true := by
  obtain ⟨hxdigit, hvalue⟩ := digitChar_facts d (by omega)
  rw [isDigitOf, hxdigit, hvalue, Bool.true_and]
  exact decide_eq_true hd

theorem numberDigits_of_lt {base n : Nat} (h : n < base) :
    numberDigits base n = [CString.chr n.digitChar] := by
  rw [numberDigits, Nat.toDigits_of_lt_base h, List.map_singleton]

theorem numberDigits_of_le {base n : Nat} (hbase : 1 < base) (h : base ≤ n) :
    numberDigits base n =
      numberDigits base (n / base) ++ [CString.chr (n % base).digitChar] := by
  rw [numberDigits, Nat.toDigits_of_base_le hbase h, List.map_append, List.map_singleton]
  rfl

theorem numberDigits_spec {base : Nat} (hbase : 1 < base) (hle : base ≤ 16) (n : Nat) :
    (numberDigits base n).all (isDigitOf base) = true ∧
      Digits.value digitValue base (numberDigits base n) = n := by
  induction n using Nat.strong_induction_on with
  | _ n ih =>
      by_cases h : n < base
      · rw [numberDigits_of_lt h]
        constructor
        · rw [List.all_cons, isDigitOf_digitChar hle h]
          rfl
        · change 0 * base + digitValue _ = n
          rw [(digitChar_facts n (by omega)).2]
          omega
      · have hmod := Nat.mod_lt n (by omega : base > 0)
        obtain ⟨hall, hvalue⟩ := ih (n / base) (Nat.div_lt_self (by omega) hbase)
        rw [numberDigits_of_le hbase (by omega)]
        constructor
        · rw [List.all_append, hall, List.all_cons, isDigitOf_digitChar hle hmod]
          rfl
        · rw [Digits.value_concat, hvalue, (digitChar_facts _ (by omega)).2]
          exact Nat.div_add_mod' n base

theorem numberDigits_ne_nil (base n : Nat) : numberDigits base n ≠ [] := by
  rw [numberDigits, Ne, List.map_eq_nil_iff]
  exact Nat.toDigits_ne_nil

theorem decimalDigit_facts : ∀ b : Byte, isDigitOf 10 b = true →
    isDigit b = true ∧ CString.toLower b ≠ 0x78#8 ∧ CString.toLower b ≠ 0x62#8 := by
  decide +kernel

theorem numberBase_decimal {ds : List Byte} (h : ds.all (isDigitOf 10) = true) :
    numberBase ds = (10, ds) := by
  rw [numberBase.eq_def]
  split
  · next b rest =>
      obtain ⟨-, hx, hb⟩ := decimalDigit_facts b (List.all_eq_true.mp h b (by simp))
      rw [if_neg hx, if_neg hb]
  · rfl

theorem literalValue_numberLiteral (b : LiteralBase) (n : Nat) :
    literalValue (numberLiteral b n) = some n := by
  have hbase : numberBase (numberLiteral b n) = (b.base, numberDigits b.base n) := by
    cases b with
    | decimal => exact numberBase_decimal (numberDigits_spec (by decide) (by decide) n).1
    | hex => rfl
    | binary => rfl
  obtain ⟨hall, hvalue⟩ := @numberDigits_spec b.base (by cases b <;> decide)
    (by cases b <;> decide) n
  rw [literalValue, hbase]
  simp only [hall, hvalue, numberDigits_ne_nil, Bool.and_true, ne_eq, not_false_eq_true,
    decide_true, if_true]

def EndsNumber (more : List Byte) : Prop :=
  ∀ b ∈ more.head?, isXDigit b = false ∧ CString.toLower b ≠ 0x78#8

theorem lexNumber_digits {ds more : List Byte} (hds : ds.all isXDigit = true)
    (hmore : EndsNumber more) : (ds ++ more).takeWhile isXDigit = ds ∧
      (ds ++ more).dropWhile isXDigit = more := by
  rw [List.takeWhile_append_of_pos (List.all_eq_true.mp hds),
    List.dropWhile_append_of_pos (List.all_eq_true.mp hds)]
  cases more with
  | nil => exact ⟨List.append_nil ds, rfl⟩
  | cons b more =>
      have hb : isXDigit b = false := (hmore b rfl).1
      rw [List.takeWhile_cons_of_neg (by simp [hb]), List.dropWhile_cons_of_neg (by simp [hb]),
        List.append_nil]
      exact ⟨rfl, rfl⟩

theorem numberMark_decimal {ds more : List Byte} (hne : ds ≠ [])
    (hds : ds.all (isDigitOf 10) = true) (hmore : EndsNumber more) :
    numberMark (ds ++ more) = 0 := by
  have hxdigit : ∀ b : Byte, isXDigit b = false → CString.toLower b ≠ 0x62#8 := by decide +kernel
  rw [numberMark.eq_def]
  split
  · next b rest heq =>
      cases ds with
      | nil => exact absurd rfl hne
      | cons d ds =>
          obtain ⟨-, hrest⟩ := List.cons_eq_cons.mp heq
          apply if_neg
          rw [Bool.or_eq_true, decide_eq_true_iff, decide_eq_true_iff, not_or]
          cases ds with
          | nil =>
              obtain ⟨hdigit, hx⟩ := hmore b (by rw [show more = b :: rest from hrest]; rfl)
              exact ⟨hx, hxdigit b hdigit⟩
          | cons c ds =>
              obtain ⟨rfl, -⟩ := List.cons_eq_cons.mp hrest
              exact (decimalDigit_facts c (List.all_eq_true.mp hds c (by simp))).2
  · rfl

theorem digitRun_numberLiteral (b : LiteralBase) (n : Nat) {more : List Byte}
    (hmore : EndsNumber more) : DigitRun (numberLiteral b n) more := by
  obtain ⟨hall, -⟩ := @numberDigits_spec b.base (by cases b <;> decide)
    (by cases b <;> decide) n
  have hxdigits : (numberDigits b.base n).all isXDigit = true := by
    rw [List.all_eq_true] at hall ⊢
    intro d hd
    exact (Bool.and_eq_true _ _ ▸ hall d hd).1
  obtain ⟨htake, hdrop⟩ := lexNumber_digits hxdigits hmore
  cases b with
  | hex =>
      refine ⟨rfl, ?_⟩
      change (str "0x" ++ (numberDigits 16 n ++ more).takeWhile isXDigit,
        (numberDigits 16 n ++ more).dropWhile isXDigit) = _
      exact Prod.ext (congrArg (str "0x" ++ ·) htake) hdrop
  | binary =>
      refine ⟨rfl, ?_⟩
      change (str "0b" ++ (numberDigits 2 n ++ more).takeWhile isXDigit,
        (numberDigits 2 n ++ more).dropWhile isXDigit) = _
      exact Prod.ext (congrArg (str "0b" ++ ·) htake) hdrop
  | decimal =>
      have hne := numberDigits_ne_nil 10 n
      constructor
      · change (numberDigits 10 n).head?.any isDigit = true
        change (numberDigits 10 n).all (isDigitOf 10) = true at hall
        cases hds : numberDigits 10 n with
        | nil => exact absurd hds hne
        | cons d ds =>
            rw [hds] at hall
            exact (decimalDigit_facts d (List.all_eq_true.mp hall d List.mem_cons_self)).1
      · have hmark : numberMark (numberLiteral .decimal n ++ more) = 0 :=
          numberMark_decimal hne hall hmore
        rw [lexNumber, hmark]
        exact Prod.ext htake hdrop

/-- `42` as the last operand of a source. -/
theorem parseOperand_number_fortyTwo :
    ParsedExactly (str "$42") (initTokens (str "$42")) [] (meantNumber false (str "42")) :=
  (parseOperand_number_iff (standsAt_start _) true false ⟨by decide, by decide⟩
      (by decide)).mpr
    ⟨42, by decide, by decide, .inl (by decide)⟩

/-- A negative number is not read. -/
theorem parseOperand_minusFive :
    ¬ ParsedExactly (str "$-5") (initTokens (str "$-5")) [] (meantNumber true (str "5")) := by
  have hmeant : meantNumber true (str "5") = some (-5) := by decide
  have hnone : (Parser.parseOperand (initTokens (str "$-5"))).1 = none := by decide
  rw [hmeant]
  rintro ⟨q, j, hparse, -⟩
  rw [hparse] at hnone
  cases hnone

end X86Assembler
