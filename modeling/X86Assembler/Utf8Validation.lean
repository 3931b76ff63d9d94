import X86Assembler.Library.Utf8

namespace X86Assembler

open CString (Byte)
open Utf8

def utf8ExpectedLen (lead : Byte) : Int :=
  if lead < 0x80 then 1
  else if lead &&& 0xE0 = 0xC0 then 2
  else if lead &&& 0xF0 = 0xE0 then 3
  else if lead &&& 0xF8 = 0xF0 then 4
  else -1

/-- The rounds of the loop over `s[i]`. A read past the end of the array has no value. -/
def continuationsFrom (s : List Byte) (i : Nat) : Nat → Option Bool
  | 0 => some true
  | n + 1 => do
    let b ← s[i]?
    if b = 0 ∨ b &&& 0xC0 ≠ 0x80 then return false
    continuationsFrom s (i + 1) n

def utf8HasValidContinuations (s : List Byte) (expectedLen : Int) : Option Bool :=
  continuationsFrom s 1 (expectedLen - 1).toNat

theorem utf8ExpectedLen_pos {lead : Byte} (h : ¬utf8ExpectedLen lead < 0) :
    0 < (utf8ExpectedLen lead).toNat := by
  rw [utf8ExpectedLen] at h ⊢
  split_ifs at h ⊢ <;> omega

/-- The test of a sequence in `validate_utf8`. -/
def continued (s : List Byte) (expectedLen : Int) : Option Bool :=
  if expectedLen > 1 then utf8HasValidContinuations s expectedLen else some true

/-- The loop of `validate_utf8`, from the array behind `s`; `count` is an `int`. -/
def validateUtf8From : List Byte → BitVec 32 → Option Int
  | [], _ => none
  | lead :: rest, count =>
    if lead = 0 then some count.toInt
    else if hneg : utf8ExpectedLen lead < 0 then some (-1)
    else do
      let valid ← continued (lead :: rest) (utf8ExpectedLen lead)
      if !valid then some (-1)
      else validateUtf8From ((lead :: rest).drop (utf8ExpectedLen lead).toNat) (count + 1)
termination_by s => s.length
decreasing_by
  have hpos := utf8ExpectedLen_pos hneg
  rw [List.length_drop, List.length_cons]
  omega

/-- `str` is the array that holds the string with its NUL. -/
def validateUtf8 (str : List Byte) : Option Int := validateUtf8From str 0

theorem utf8ExpectedLen_eq : ∀ lead : Byte, utf8ExpectedLen lead =
    if lead.toNat < 0x80 then 1 else if lead.toNat < 0xC0 then -1
    else if lead.toNat < 0xE0 then 2 else if lead.toNat < 0xF0 then 3
    else if lead.toNat < 0xF8 then 4 else -1 := by
  decide +kernel

theorem continuation_iff : ∀ b : Byte, b &&& 0xC0 = 0x80 ↔ 0x80 ≤ b.toNat ∧ b.toNat < 0xC0 := by
  decide +kernel

theorem sequence_cons_iff {lead : Byte} {rest : List Byte} :
    Sequence (lead :: rest) ↔
      utf8ExpectedLen lead = rest.length + 1 ∧ ∀ b ∈ rest, IsContinuation b := by
  rw [utf8ExpectedLen_eq]
  constructor
  · intro h
    cases h with
    | one ha => simp [ha]
    | two hlo hhi hb =>
        rw [if_neg (by omega), if_neg (by omega), if_pos hhi]
        simpa using hb
    | three hlo hhi hb hc =>
        rw [if_neg (by omega), if_neg (by omega), if_neg (by omega), if_pos hhi]
        simpa using ⟨hb, hc⟩
    | four hlo hhi hb hc hd =>
        rw [if_neg (by omega), if_neg (by omega), if_neg (by omega), if_neg (by omega),
          if_pos hhi]
        simpa using ⟨hb, hc, hd⟩
  · rintro ⟨hlen, hall⟩
    match rest, hlen, hall with
    | [], hlen, _ =>
        apply Sequence.one
        rw [List.length_nil] at hlen
        split_ifs at hlen <;> omega
    | [b], hlen, hall =>
        rw [List.length_singleton] at hlen
        have hlead : 0xC0 ≤ lead.toNat ∧ lead.toNat < 0xE0 := by
          split_ifs at hlen <;> omega
        exact .two hlead.1 hlead.2 (hall b (by simp))
    | [b, c], hlen, hall =>
        simp only [List.length_cons, List.length_nil] at hlen
        have hlead : 0xE0 ≤ lead.toNat ∧ lead.toNat < 0xF0 := by
          split_ifs at hlen <;> omega
        exact .three hlead.1 hlead.2 (hall b (by simp)) (hall c (by simp))
    | [b, c, d], hlen, hall =>
        simp only [List.length_cons, List.length_nil] at hlen
        have hlead : 0xF0 ≤ lead.toNat ∧ lead.toNat < 0xF8 := by
          split_ifs at hlen <;> omega
        exact .four hlead.1 hlead.2 (hall b (by simp)) (hall c (by simp)) (hall d (by simp))
    | b :: c :: d :: e :: more, hlen, _ =>
        simp only [List.length_cons] at hlen
        split_ifs at hlen <;> omega

theorem continuationsFrom_eq {s : List Byte} (n : Nat) {i : Nat} {text : List Byte}
    (hs : s.drop i = text ++ [0]) (h0 : 0 ∉ text) :
    ∃ valid, continuationsFrom s i n = some valid ∧
      (valid = true ↔ n ≤ text.length ∧ ∀ b ∈ text.take n, IsContinuation b) := by
  induction n generalizing i text with
  | zero => exact ⟨true, rfl, by simp⟩
  | succ n ih =>
      have hget : s[i]? = (text ++ [0]).head? := by rw [← hs, List.head?_drop]
      cases text with
      | nil =>
          refine ⟨false, ?_, by simp⟩
          rw [continuationsFrom, hget]
          rfl
      | cons b text =>
          have hne : b ≠ 0 := fun h => h0 (h ▸ List.mem_cons_self)
          by_cases hb : IsContinuation b
          · have hmask : ¬(b = 0 ∨ b &&& 0xC0 ≠ 0x80) := by
              rw [not_or, not_not]
              exact ⟨hne, (continuation_iff b).mpr hb⟩
            have hdrop : s.drop (i + 1) = text ++ [0] := by
              rw [← List.drop_drop, hs]
              rfl
            obtain ⟨valid, hrun, hvalid⟩ := ih hdrop fun h => h0 (List.mem_cons_of_mem _ h)
            refine ⟨valid, ?_, ?_⟩
            · rw [continuationsFrom, hget]
              change (if b = 0 ∨ b &&& 0xC0 ≠ 0x80 then _ else _) = _
              rw [if_neg hmask]
              exact hrun
            · rw [hvalid, List.take_succ_cons, List.length_cons, Nat.succ_le_succ_iff]
              simp [hb]
          · have hmask : b = 0 ∨ b &&& 0xC0 ≠ 0x80 :=
              .inr fun h => hb ((continuation_iff b).mp h)
            refine ⟨false, ?_, ?_⟩
            · rw [continuationsFrom, hget]
              change (if b = 0 ∨ b &&& 0xC0 ≠ 0x80 then _ else _) = _
              rw [if_pos hmask]
              rfl
            · simp [hb]

theorem validateUtf8From_nil (count : BitVec 32) :
    validateUtf8From ([] ++ [0]) count = some count.toInt := by
  rw [List.nil_append, validateUtf8From.eq_2]
  rfl

/-- One round: a sequence is passed over, and where none stands the answer is `-1`. -/
theorem validateUtf8From_round {lead : Byte} {rest : List Byte} (h0 : 0 ∉ lead :: rest)
    (count : BitVec 32) :
    (∃ s text, lead :: rest = s ++ text ∧ Sequence s ∧
      validateUtf8From (lead :: rest ++ [0]) count = validateUtf8From (text ++ [0]) (count + 1)) ∨
    (∀ s text, lead :: rest = s ++ text → ¬Sequence s) ∧
      validateUtf8From (lead :: rest ++ [0]) count = some (-1) := by
  have hlead : lead ≠ 0 := fun h => h0 (h ▸ List.mem_cons_self)
  have hrest : 0 ∉ rest := fun h => h0 (List.mem_cons_of_mem _ h)
  have hsplit : ∀ s text, lead :: rest = s ++ text → Sequence s →
      ∃ k : Nat, utf8ExpectedLen lead = (k : Int) + 1 ∧ k ≤ rest.length ∧
        ∀ b ∈ rest.take k, IsContinuation b := by
    intro s text heq hseq
    obtain ⟨lead', tail, rfl, -⟩ := hseq.width_eq
    rw [List.cons_append, List.cons.injEq] at heq
    obtain ⟨rfl, rfl⟩ := heq
    obtain ⟨hlen, hall⟩ := sequence_cons_iff.mp hseq
    refine ⟨tail.length, hlen, ?_, ?_⟩
    · rw [List.length_append]
      omega
    · rw [List.take_left]
      exact hall
  rw [List.cons_append, validateUtf8From.eq_2, if_neg hlead]
  by_cases hneg : utf8ExpectedLen lead < 0
  · right
    refine ⟨?_, by rw [dif_pos hneg]⟩
    intro s text heq hseq
    obtain ⟨k, hk, -⟩ := hsplit s text heq hseq
    omega
  · have hpos := utf8ExpectedLen_pos hneg
    obtain ⟨k, hk⟩ : ∃ k : Nat, utf8ExpectedLen lead = (k : Int) + 1 :=
      ⟨(utf8ExpectedLen lead).toNat - 1, by omega⟩
    obtain ⟨valid, hrun, hvalid⟩ :=
      @continuationsFrom_eq (lead :: (rest ++ [0])) k 1 rest rfl hrest
    have htest : continued (lead :: (rest ++ [0])) (utf8ExpectedLen lead) = some valid := by
      rw [continued]
      by_cases hone : utf8ExpectedLen lead > 1
      · rw [if_pos hone, utf8HasValidContinuations, hk, Int.add_sub_cancel, Int.toNat_natCast, hrun]
      · have hzero : k = 0 := by omega
        rw [if_neg hone, ← hrun, hzero]
        rfl
    rw [dif_neg hneg, htest]
    cases valid with
    | true =>
        left
        obtain ⟨hle, hall⟩ := hvalid.mp rfl
        refine ⟨lead :: rest.take k, rest.drop k, ?_, ?_, ?_⟩
        · rw [List.cons_append, List.take_append_drop]
        · rw [sequence_cons_iff, List.length_take, Nat.min_eq_left hle]
          exact ⟨hk, hall⟩
        · have hdrop : (lead :: (rest ++ [0])).drop (utf8ExpectedLen lead).toNat =
              rest.drop k ++ [0] := by
            have hnat : (utf8ExpectedLen lead).toNat = k + 1 := by omega
            rw [hnat, List.drop_succ_cons, List.drop_append_of_le_length hle]
          rw [hdrop]
          rfl
    | false =>
        right
        refine ⟨?_, rfl⟩
        intro s text heq hseq
        obtain ⟨k', hk', hle, hall⟩ := hsplit s text heq hseq
        obtain rfl : k = k' := by omega
        cases hvalid.mpr ⟨hle, hall⟩

theorem validateUtf8From_splits {seqs : List (List Byte)} {text : List Byte}
    (h : Splits seqs text) (h0 : 0 ∉ text) (count : BitVec 32) :
    validateUtf8From (text ++ [0]) count = some (count + BitVec.ofNat 32 seqs.length).toInt := by
  induction seqs generalizing text count with
  | nil =>
      obtain ⟨rfl, -⟩ := h
      rw [List.flatten_nil, validateUtf8From_nil]
      simp
  | cons s seqs ih =>
      obtain ⟨rfl, hall⟩ := h
      have hs := hall s List.mem_cons_self
      have hrest : Splits seqs seqs.flatten := ⟨rfl, fun t ht => hall t (List.mem_cons_of_mem _ ht)⟩
      obtain ⟨lead, tail, rfl, -⟩ := hs.width_eq
      rw [List.flatten_cons] at h0 ⊢
      rcases @validateUtf8From_round lead (tail ++ seqs.flatten) h0 count with
        ⟨s', text', heq, hs', hrun⟩ | ⟨hnone, -⟩
      · obtain ⟨-, rfl⟩ := hs.append_inj hs' heq
        have hsum : count + 1 + BitVec.ofNat 32 seqs.length =
            count + BitVec.ofNat 32 (seqs.length + 1) := by
          rw [BitVec.add_assoc, BitVec.add_comm 1, BitVec.ofNat_add]
          rfl
        rw [List.cons_append, hrun, ih hrest fun h => h0 (List.mem_append_right _ h), hsum,
          List.length_cons]
      · exact absurd hs (hnone _ _ rfl)

theorem validateUtf8From_unsplit {text : List Byte} (h : ¬∃ seqs, Splits seqs text)
    (h0 : 0 ∉ text) (count : BitVec 32) : validateUtf8From (text ++ [0]) count = some (-1) := by
  induction hn : text.length using Nat.strongRecOn generalizing text count with
  | ind n ih =>
      cases text with
      | nil => exact absurd ⟨[], rfl, fun s hs => absurd hs List.not_mem_nil⟩ h
      | cons lead rest =>
          rcases validateUtf8From_round h0 count with ⟨s, text', heq, hs, hrun⟩ | ⟨-, hrun⟩
          · rw [hrun]
            have hpos : 0 < s.length := by
              obtain ⟨a, tail, rfl, -⟩ := hs.width_eq
              exact Nat.succ_pos _
            have hlen := congrArg List.length heq
            rw [List.length_append] at hlen
            apply ih text'.length (by omega) _ _ _ rfl
            · rintro ⟨seqs, hseqs⟩
              exact h ⟨s :: seqs, heq ▸ hseqs.cons hs⟩
            · intro hmem
              exact h0 (heq ▸ List.mem_append_right s hmem)
          · exact hrun

/-- The answer for a string is the number of its characters, or `-1` where it is not the form of
any, and no read goes past the NUL. -/
def Validates (text : List Byte) : Prop :=
  ∃ r, validateUtf8 (text ++ [0]) = some r ∧ (∀ cs, Encodes cs text → r = cs.length) ∧
    ((¬∃ cs, Encodes cs text) → r = -1)

/-- How a string that is a row of sequences is answered for rightly: none is overlong, a surrogate
or too large, and an `int` can count them. The other way is that the count of a row that is not
proper comes round to `-1`. -/
def RightlyCounted (seqs : List (List Byte)) : Prop :=
  (∀ s ∈ seqs, Proper s) ∧ seqs.length < 2 ^ 31 ∨
    (∃ s ∈ seqs, ¬Proper s) ∧ seqs.length % 2 ^ 32 = 2 ^ 32 - 1

def SplitsProperly (text : List Byte) : Prop := ∀ seqs, Splits seqs text → RightlyCounted seqs

theorem validateUtf8_splits {seqs : List (List Byte)} {text : List Byte} (h : Splits seqs text)
    (h0 : 0 ∉ text) :
    validateUtf8 (text ++ [0]) = some (BitVec.ofNat 32 seqs.length).toInt := by
  have hsum : (0 : BitVec 32) + BitVec.ofNat 32 seqs.length = BitVec.ofNat 32 seqs.length :=
    BitVec.zero_add _
  rw [validateUtf8, validateUtf8From_splits h h0, hsum]

theorem validateUtf8_reads {text : List Byte} (h0 : 0 ∉ text) :
    ∃ r, validateUtf8 (text ++ [0]) = some r := by
  by_cases h : ∃ seqs, Splits seqs text
  · obtain ⟨seqs, hseqs⟩ := h
    exact ⟨_, validateUtf8_splits hseqs h0⟩
  · exact ⟨_, validateUtf8From_unsplit h h0 0⟩

theorem toInt_count (n : Nat) : (BitVec.ofNat 32 n).toInt =
    if n % 2 ^ 32 < 2 ^ 31 then ((n % 2 ^ 32 : Nat) : Int)
    else ((n % 2 ^ 32 : Nat) : Int) - 0x100000000 := by
  rw [BitVec.toInt_eq_toNat_cond, BitVec.toNat_ofNat]
  split <;> split <;> omega

theorem validates_splits_iff {seqs : List (List Byte)} {text : List Byte} (h : Splits seqs text)
    (h0 : 0 ∉ text) : Validates text ↔ RightlyCounted seqs := by
  have hrun := validateUtf8_splits h h0
  have hint := toInt_count seqs.length
  by_cases hform : ∃ cs, Encodes cs text
  · obtain ⟨cs, hcs⟩ := hform
    obtain ⟨hproper, hlen⟩ := h.of_encodes hcs
    constructor
    · rintro ⟨r, hr, hcount, -⟩
      obtain rfl := Option.some.inj (hrun.symm.trans hr)
      have hlength := hcount cs hcs
      refine .inl ⟨hproper, ?_⟩
      split at hint <;> omega
    · rintro (⟨-, hsmall⟩ | ⟨⟨s, hs, hnot⟩, -⟩)
      · refine ⟨_, hrun, ?_, fun hnone => absurd ⟨cs, hcs⟩ hnone⟩
        intro cs' hcs'
        obtain ⟨-, hlen'⟩ := h.of_encodes hcs'
        rw [hint, if_pos (by omega)]
        omega
      · exact absurd (hproper s hs) hnot
  · have himproper : ∃ s ∈ seqs, ¬Proper s := by
      by_contra hnone
      have hproper : ∀ s ∈ seqs, Proper s := fun s hs => by_contra fun hnot => hnone ⟨s, hs, hnot⟩
      obtain ⟨cs, hcs, -⟩ := h.encodes hproper
      exact hform ⟨cs, hcs⟩
    constructor
    · rintro ⟨r, hr, -, hrefused⟩
      obtain rfl := Option.some.inj (hrun.symm.trans hr)
      have hminus := hrefused hform
      refine .inr ⟨himproper, ?_⟩
      split at hint <;> omega
    · rintro (⟨hproper, -⟩ | ⟨-, hround⟩)
      · obtain ⟨s, hs, hnot⟩ := himproper
        exact absurd (hproper s hs) hnot
      · refine ⟨_, hrun, fun cs hcs => absurd ⟨cs, hcs⟩ hform, ?_⟩
        intro _
        rw [hint, if_neg (by omega)]
        omega

theorem validates_iff {text : List Byte} (h0 : 0 ∉ text) :
    Validates text ↔ SplitsProperly text := by
  by_cases hsplit : ∃ seqs, Splits seqs text
  · obtain ⟨seqs, hseqs⟩ := hsplit
    rw [validates_splits_iff hseqs h0]
    constructor
    · intro h seqs' hseqs'
      exact hseqs.unique hseqs' ▸ h
    · intro h
      exact h seqs hseqs
  · constructor
    · intro _ seqs hseqs
      exact absurd ⟨seqs, hseqs⟩ hsplit
    · intro _
      refine ⟨_, validateUtf8From_unsplit hsplit h0 0, ?_, fun _ => rfl⟩
      intro cs hcs
      exact absurd ⟨_, splits_encode hcs⟩ hsplit

/-- No read goes past the NUL, and the answer is right just for the strings whose sequences are
proper. -/
theorem validateUtf8_iff {text : List Byte} (h0 : 0 ∉ text) :
    (∃ r, validateUtf8 (text ++ [0]) = some r) ∧ (Validates text ↔ SplitsProperly text) :=
  ⟨validateUtf8_reads h0, validates_iff h0⟩

theorem validateUtf8_iff_euro :
    0 ∉ [0xE2#8, 0x82#8, 0xAC#8] ∧ (∃ r, validateUtf8 ([0xE2#8, 0x82#8, 0xAC#8] ++ [0]) = some r) ∧
      (Validates [0xE2#8, 0x82#8, 0xAC#8] ↔ SplitsProperly [0xE2#8, 0x82#8, 0xAC#8]) :=
  ⟨by decide, validateUtf8_iff (by decide)⟩

/-- The two bytes `C0 80`, an overlong form of U+0000, count as a character. -/
theorem not_validates_overlong :
    0 ∉ [0xC0#8, 0x80#8] ∧ validateUtf8 ([0xC0#8, 0x80#8] ++ [0]) = some 1 ∧
      ¬Validates [0xC0#8, 0x80#8] := by
  have hseq : Sequence [0xC0#8, 0x80#8] :=
    .two (by decide) (by decide) ⟨by decide, by decide⟩
  have hsplit : Splits [[0xC0#8, 0x80#8]] [0xC0#8, 0x80#8] := by
    refine ⟨rfl, ?_⟩
    intro s hs
    rw [List.mem_singleton.mp hs]
    exact hseq
  have hlong : ¬Proper [0xC0#8, 0x80#8] := by
    intro h
    apply h.not_overlong
    rw [Overlong, value]
    decide
  refine ⟨by decide, validateUtf8_splits hsplit (by decide), ?_⟩
  rw [validates_splits_iff hsplit (by decide)]
  rintro (⟨hproper, -⟩ | ⟨-, hround⟩)
  · exact hlong (hproper _ (List.mem_singleton_self _))
  · exact absurd hround (by decide)

end X86Assembler
