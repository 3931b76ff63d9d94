import X86Assembler.Library.CString

namespace X86Assembler.Utf8

open CString (Byte)

def continuation (v : Nat) : Byte := BitVec.ofNat 8 (0x80 + v % 64)

def encode (v : Nat) : List Byte :=
  if v < 0x80 then [BitVec.ofNat 8 v]
  else if v < 0x800 then [BitVec.ofNat 8 (0xC0 + v / 64), continuation v]
  else if v < 0x10000 then
    [BitVec.ofNat 8 (0xE0 + v / 4096), continuation (v / 64), continuation v]
  else
    [BitVec.ofNat 8 (0xF0 + v / 262144), continuation (v / 4096), continuation (v / 64),
      continuation v]

/-- A text is the UTF-8 form of some characters, which are the scalar values of Unicode. -/
def Encodes (cs : List Char) (text : List Byte) : Prop :=
  text = cs.flatMap fun c => encode c.toNat

theorem encode_one {v : Nat} (h : v < 0x80) : encode v = [BitVec.ofNat 8 v] := by
  rw [encode, if_pos h]

theorem encode_two {v : Nat} (h : 0x80 ≤ v) (h' : v < 0x800) :
    encode v = [BitVec.ofNat 8 (0xC0 + v / 64), continuation v] := by
  rw [encode, if_neg (by omega), if_pos h']

theorem encode_three {v : Nat} (h : 0x800 ≤ v) (h' : v < 0x10000) :
    encode v = [BitVec.ofNat 8 (0xE0 + v / 4096), continuation (v / 64), continuation v] := by
  rw [encode, if_neg (by omega), if_neg (by omega), if_pos h']

theorem encode_four {v : Nat} (h : 0x10000 ≤ v) :
    encode v = [BitVec.ofNat 8 (0xF0 + v / 262144), continuation (v / 4096),
      continuation (v / 64), continuation v] := by
  rw [encode, if_neg (by omega), if_neg (by omega), if_neg (by omega)]

theorem toNat_continuation (v : Nat) : (continuation v).toNat = 0x80 + v % 64 := by
  rw [continuation, BitVec.toNat_ofNat]
  omega

theorem toNat_lead {n : Nat} (h : n < 256) : (BitVec.ofNat 8 n).toNat = n := by
  rw [BitVec.toNat_ofNat, Nat.mod_eq_of_lt h]

def IsContinuation (b : Byte) : Prop := 0x80 ≤ b.toNat ∧ b.toNat < 0xC0

/-- A first byte and as many continuation bytes as it announces, whatever they stand for. -/
inductive Sequence : List Byte → Prop
  | one {a : Byte} : a.toNat < 0x80 → Sequence [a]
  | two {a b : Byte} : 0xC0 ≤ a.toNat → a.toNat < 0xE0 → IsContinuation b → Sequence [a, b]
  | three {a b c : Byte} : 0xE0 ≤ a.toNat → a.toNat < 0xF0 → IsContinuation b →
      IsContinuation c → Sequence [a, b, c]
  | four {a b c d : Byte} : 0xF0 ≤ a.toNat → a.toNat < 0xF8 → IsContinuation b →
      IsContinuation c → IsContinuation d → Sequence [a, b, c, d]

def value : List Byte → Nat
  | [a] => a.toNat
  | [a, b] => a.toNat % 32 * 64 + b.toNat % 64
  | [a, b, c] => a.toNat % 16 * 4096 + b.toNat % 64 * 64 + c.toNat % 64
  | [a, b, c, d] =>
    a.toNat % 8 * 262144 + b.toNat % 64 * 4096 + c.toNat % 64 * 64 + d.toNat % 64
  | _ => 0

def least : Nat → Nat
  | 2 => 0x80
  | 3 => 0x800
  | 4 => 0x10000
  | _ => 0

def Overlong (s : List Byte) : Prop := value s < least s.length

def Surrogate (s : List Byte) : Prop := 0xD800 ≤ value s ∧ value s ≤ 0xDFFF

def TooLarge (s : List Byte) : Prop := 0x10FFFF < value s

structure Proper (s : List Byte) : Prop where
  not_overlong : ¬Overlong s
  not_surrogate : ¬Surrogate s
  not_tooLarge : ¬TooLarge s

theorem isContinuation_continuation (v : Nat) : IsContinuation (continuation v) := by
  rw [IsContinuation, toNat_continuation]
  omega

theorem sequence_encode {v : Nat} (h : v < 0x200000) : Sequence (encode v) := by
  by_cases hone : v < 0x80
  · rw [encode_one hone]
    apply Sequence.one
    rwa [toNat_lead (by omega)]
  by_cases htwo : v < 0x800
  · rw [encode_two (by omega) htwo]
    have hlead := @toNat_lead (0xC0 + v / 64) (by omega)
    exact .two (by omega) (by omega) (isContinuation_continuation _)
  by_cases hthree : v < 0x10000
  · rw [encode_three (by omega) hthree]
    have hlead := @toNat_lead (0xE0 + v / 4096) (by omega)
    exact .three (by omega) (by omega) (isContinuation_continuation _)
      (isContinuation_continuation _)
  · rw [encode_four (by omega)]
    have hlead := @toNat_lead (0xF0 + v / 262144) (by omega)
    exact .four (by omega) (by omega) (isContinuation_continuation _)
      (isContinuation_continuation _) (isContinuation_continuation _)

theorem value_encode {v : Nat} (h : v < 0x200000) : value (encode v) = v := by
  by_cases hone : v < 0x80
  · rw [encode_one hone, value, toNat_lead (by omega)]
  by_cases htwo : v < 0x800
  · rw [encode_two (by omega) htwo, value, toNat_lead (by omega), toNat_continuation]
    omega
  by_cases hthree : v < 0x10000
  · rw [encode_three (by omega) hthree, value, toNat_lead (by omega), toNat_continuation,
      toNat_continuation]
    omega
  · rw [encode_four (by omega), value, toNat_lead (by omega), toNat_continuation,
      toNat_continuation, toNat_continuation]
    omega

theorem least_encode (v : Nat) : least (encode v).length ≤ v := by
  by_cases hone : v < 0x80
  · rw [encode_one hone]
    exact Nat.zero_le v
  by_cases htwo : v < 0x800
  · rw [encode_two (by omega) htwo]
    exact Nat.le_of_not_lt hone
  by_cases hthree : v < 0x10000
  · rw [encode_three (by omega) hthree]
    exact Nat.le_of_not_lt htwo
  · rw [encode_four (by omega)]
    exact Nat.le_of_not_lt hthree

theorem eq_continuation {b : Byte} {v : Nat} (hb : IsContinuation b)
    (h : v % 64 = b.toNat % 64) : continuation v = b := by
  obtain ⟨hlo, hhi⟩ := hb
  apply BitVec.eq_of_toNat_eq
  rw [toNat_continuation]
  omega

theorem eq_lead {b : Byte} {n : Nat} (h : n = b.toNat) : BitVec.ofNat 8 n = b := by
  rw [h, BitVec.ofNat_toNat, BitVec.setWidth_eq]

theorem encode_value {s : List Byte} (h : Sequence s) (hlong : ¬Overlong s) :
    encode (value s) = s := by
  cases h with
  | @one a ha => rw [value, encode_one ha, eq_lead rfl]
  | @two a b hlo hhi hb =>
      change ¬value [a, b] < 0x80 at hlong
      rw [value] at hlong ⊢
      generalize hv : a.toNat % 32 * 64 + b.toNat % 64 = v at hlong ⊢
      have hlast := @eq_continuation b v hb (by omega)
      have hlead := @eq_lead a (0xC0 + v / 64) (by omega)
      rw [encode_two (by omega) (by omega), hlead, hlast]
  | @three a b c hlo hhi hb hc =>
      change ¬value [a, b, c] < 0x800 at hlong
      rw [value] at hlong ⊢
      generalize hv : a.toNat % 16 * 4096 + b.toNat % 64 * 64 + c.toNat % 64 = v at hlong ⊢
      have hmid := @eq_continuation b (v / 64) hb (by omega)
      have hlast := @eq_continuation c v hc (by omega)
      have hlead := @eq_lead a (0xE0 + v / 4096) (by omega)
      rw [encode_three (by omega) (by omega), hlead, hmid, hlast]
  | @four a b c d hlo hhi hb hc hd =>
      change ¬value [a, b, c, d] < 0x10000 at hlong
      rw [value] at hlong ⊢
      generalize hv : a.toNat % 8 * 262144 + b.toNat % 64 * 4096 + c.toNat % 64 * 64 +
        d.toNat % 64 = v at hlong ⊢
      have hsecond := @eq_continuation b (v / 4096) hb (by omega)
      have hthird := @eq_continuation c (v / 64) hc (by omega)
      have hlast := @eq_continuation d v hd (by omega)
      have hlead := @eq_lead a (0xF0 + v / 262144) (by omega)
      rw [encode_four (by omega), hlead, hsecond, hthird, hlast]

theorem proper_iff {s : List Byte} (h : Sequence s) :
    Proper s ↔ ∃ c : Char, encode c.toNat = s := by
  constructor
  · rintro ⟨hlong, hsurrogate, hlarge⟩
    have hvalid : (value s).isValidChar := by
      rw [Surrogate] at hsurrogate
      rw [TooLarge] at hlarge
      rw [Nat.isValidChar]
      omega
    have hnat : (Char.ofNatAux (value s) hvalid).toNat = value s := rfl
    refine ⟨Char.ofNatAux (value s) hvalid, ?_⟩
    rw [hnat]
    exact encode_value h hlong
  · rintro ⟨c, rfl⟩
    have hvalid : c.toNat.isValidChar := c.valid
    rw [Nat.isValidChar] at hvalid
    have hvalue := @value_encode c.toNat (by omega)
    have hleast := least_encode c.toNat
    refine ⟨?_, ?_, ?_⟩
    · rw [Overlong, hvalue]
      omega
    · rw [Surrogate, hvalue]
      omega
    · rw [TooLarge, hvalue]
      omega

theorem sequence_char (c : Char) : Sequence (encode c.toNat) := by
  have hvalid : c.toNat.isValidChar := c.valid
  rw [Nat.isValidChar] at hvalid
  exact sequence_encode (by omega)

theorem proper_char (c : Char) : Proper (encode c.toNat) :=
  (proper_iff (sequence_char c)).mpr ⟨c, rfl⟩

structure Splits (seqs : List (List Byte)) (text : List Byte) : Prop where
  flatten_eq : seqs.flatten = text
  sequences : ∀ s ∈ seqs, Sequence s

def width (lead : Byte) : Nat :=
  if lead.toNat < 0x80 then 1 else if lead.toNat < 0xE0 then 2 else if lead.toNat < 0xF0 then 3
  else 4

theorem Sequence.width_eq {s : List Byte} (h : Sequence s) :
    ∃ lead rest, s = lead :: rest ∧ s.length = width lead := by
  cases h with
  | @one a ha =>
      refine ⟨a, [], rfl, ?_⟩
      rw [width, if_pos ha]
      rfl
  | @two a b hlo hhi _ =>
      refine ⟨a, [b], rfl, ?_⟩
      rw [width, if_neg (by omega), if_pos hhi]
      rfl
  | @three a b c hlo hhi _ _ =>
      refine ⟨a, [b, c], rfl, ?_⟩
      rw [width, if_neg (by omega), if_neg (by omega), if_pos hhi]
      rfl
  | @four a b c d hlo hhi _ _ _ =>
      refine ⟨a, [b, c, d], rfl, ?_⟩
      rw [width, if_neg (by omega), if_neg (by omega), if_neg (by omega)]
      rfl

theorem Sequence.append_inj {s s' rest rest' : List Byte} (h : Sequence s) (h' : Sequence s')
    (heq : s ++ rest = s' ++ rest') : s = s' ∧ rest = rest' := by
  obtain ⟨lead, tail, rfl, hlen⟩ := h.width_eq
  obtain ⟨lead', tail', rfl, hlen'⟩ := h'.width_eq
  have hlead : lead = lead' := (List.cons.inj heq).1
  apply List.append_inj heq
  rw [hlen, hlen', hlead]

theorem Splits.unique {seqs seqs' : List (List Byte)} {text : List Byte} (h : Splits seqs text)
    (h' : Splits seqs' text) : seqs = seqs' := by
  obtain ⟨rfl, hall⟩ := h
  obtain ⟨heq, hall'⟩ := h'
  induction seqs generalizing seqs' with
  | nil =>
      cases seqs' with
      | nil => rfl
      | cons s' seqs' =>
          obtain ⟨lead, tail, hs, -⟩ := (hall' s' List.mem_cons_self).width_eq
          rw [hs] at heq
          cases heq
  | cons s seqs ih =>
      cases seqs' with
      | nil =>
          obtain ⟨lead, tail, hs, -⟩ := (hall s List.mem_cons_self).width_eq
          rw [hs] at heq
          cases heq
      | cons s' seqs' =>
          obtain ⟨hs, hrest⟩ := (hall s List.mem_cons_self).append_inj
            (hall' s' List.mem_cons_self) heq.symm
          rw [hs, ih (fun t ht => hall t (List.mem_cons_of_mem _ ht)) hrest.symm
            fun t ht => hall' t (List.mem_cons_of_mem _ ht)]

theorem Splits.cons {s : List Byte} {seqs : List (List Byte)} {text : List Byte} (hs : Sequence s)
    (h : Splits seqs text) : Splits (s :: seqs) (s ++ text) := by
  obtain ⟨rfl, hall⟩ := h
  refine ⟨rfl, ?_⟩
  intro t ht
  rcases List.mem_cons.mp ht with rfl | ht
  · exact hs
  · exact hall t ht

theorem splits_encode {cs : List Char} {text : List Byte} (h : Encodes cs text) :
    Splits (cs.map fun c => encode c.toNat) text := by
  refine ⟨h.symm, ?_⟩
  intro s hs
  obtain ⟨c, -, rfl⟩ := List.mem_map.mp hs
  exact sequence_char c

theorem Splits.encodes {seqs : List (List Byte)} {text : List Byte} (h : Splits seqs text)
    (hproper : ∀ s ∈ seqs, Proper s) : ∃ cs, Encodes cs text ∧ cs.length = seqs.length := by
  obtain ⟨rfl, hall⟩ := h
  induction seqs with
  | nil => exact ⟨[], rfl, rfl⟩
  | cons s seqs ih =>
      obtain ⟨c, hc⟩ := (proper_iff (hall s List.mem_cons_self)).mp (hproper s List.mem_cons_self)
      obtain ⟨cs, hcs, hlen⟩ := ih (fun t ht => hproper t (List.mem_cons_of_mem _ ht))
        fun t ht => hall t (List.mem_cons_of_mem _ ht)
      refine ⟨c :: cs, ?_, congrArg (· + 1) hlen⟩
      rw [Encodes, List.flatMap_cons, hc, List.flatten_cons, ← hcs]

/-- In a text of characters each sequence is proper, and there are as many as characters. -/
theorem Splits.of_encodes {seqs : List (List Byte)} {text : List Byte} {cs : List Char}
    (h : Splits seqs text) (hcs : Encodes cs text) :
    (∀ s ∈ seqs, Proper s) ∧ seqs.length = cs.length := by
  rw [h.unique (splits_encode hcs)]
  refine ⟨?_, List.length_map _⟩
  intro s hs
  obtain ⟨c, -, rfl⟩ := List.mem_map.mp hs
  exact proper_char c

end X86Assembler.Utf8
