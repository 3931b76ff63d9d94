import Mathlib.Algebra.GroupWithZero.Nat
import Mathlib.Data.List.TakeWhile

namespace X86Assembler.CString

abbrev Byte := BitVec 8

instance : LawfulBEq Byte := inferInstance

def chr (c : Char) : Byte := BitVec.ofNat 8 c.toNat

/-- The bytes of an ASCII literal, without the terminating NUL. -/
def str (s : String) : List Byte := s.toList.map chr

/-- The contents of a `char[cap]` that holds a NUL-terminated string. -/
structure CStr (cap : Nat) where
  bytes : List Byte
  length_lt : bytes.length < cap
  no_nul : 0 ∉ bytes
deriving DecidableEq

/-- What a C string function sees of a buffer: everything before the first NUL. -/
def untilNul (bs : List Byte) : List Byte := bs.takeWhile (· != 0)

theorem zero_notMem_untilNul (bs : List Byte) : 0 ∉ untilNul bs := by
  intro h
  simpa using List.mem_takeWhile_imp h

theorem untilNul_of_notMem {bs : List Byte} (h : 0 ∉ bs) : untilNul bs = bs := by
  rw [untilNul, List.takeWhile_eq_self_iff]
  intro b hb
  have hne : b ≠ 0 := fun h0 => h (h0 ▸ hb)
  simpa using hne

variable {cap : Nat} [NeZero cap]

theorem take_length_lt (bs : List Byte) : (bs.take (cap - 1)).length < cap := by
  have hc : 0 < cap := Nat.pos_of_ne_zero (NeZero.ne cap)
  rw [List.length_take]
  omega

/-- Bounded copy: at most `cap - 1` bytes, cut at the first NUL. -/
def copyBounded (cap : Nat) [NeZero cap] (src : List Byte) : CStr cap where
  bytes := (untilNul src).take (cap - 1)
  length_lt := take_length_lt _
  no_nul := fun h => zero_notMem_untilNul src (List.mem_of_mem_take h)

omit [NeZero cap] in
@[ext] theorem CStr.ext {a b : CStr cap} (h : a.bytes = b.bytes) : a = b := by
  cases a; cases b; cases h; rfl

omit [NeZero cap] in
theorem CStr.bytes_inj {a b : CStr cap} : a.bytes = b.bytes ↔ a = b :=
  ⟨CStr.ext, fun h => h ▸ rfl⟩

@[simp] theorem copyBounded_bytes (s : CStr cap) : copyBounded cap s.bytes = s := by
  apply CStr.ext
  simp only [copyBounded, untilNul_of_notMem s.no_nul]
  exact List.take_of_length_le (by have := s.length_lt; omega)

theorem copyBounded_bytes_of_fits {bs : List Byte} (hlen : bs.length < cap) (h0 : 0 ∉ bs) :
    (copyBounded cap bs).bytes = bs := by
  simp only [copyBounded, untilNul_of_notMem h0]
  exact List.take_of_length_le (by omega)

theorem copyBounded_bytes_take {bs : List Byte} (h0 : 0 ∉ bs) :
    (copyBounded cap bs).bytes = bs.take (cap - 1) := by
  simp only [copyBounded, untilNul_of_notMem h0]

def lit (cap : Nat) [NeZero cap] (s : String) : CStr cap := copyBounded cap (str s)

def isUpper (b : Byte) : Bool := 0x41#8 ≤ b && b ≤ 0x5A#8
def isLower (b : Byte) : Bool := 0x61#8 ≤ b && b ≤ 0x7A#8
def isAlpha (b : Byte) : Bool := isUpper b || isLower b
def isDigit (b : Byte) : Bool := 0x30#8 ≤ b && b ≤ 0x39#8
def isAlnum (b : Byte) : Bool := isAlpha b || isDigit b
def isXDigit (b : Byte) : Bool :=
  isDigit b || (0x61#8 ≤ b && b ≤ 0x66#8) || (0x41#8 ≤ b && b ≤ 0x46#8)

/-- `isspace` in the C locale: blank, tab, newline, vertical tab, form feed, return. -/
def isSpace (b : Byte) : Bool := b == 0x20#8 || (0x09#8 ≤ b && b ≤ 0x0D#8)

def toLower (b : Byte) : Byte := if isUpper b then b + 0x20#8 else b

/-- `strcasecmp (a, b) == 0`. -/
def eqIgnoreCase (a b : List Byte) : Bool := a.map toLower == b.map toLower

/-- `strncasecmp (text, word, strlen (word)) == 0`. -/
def startsWithIgnoreCase (text word : List Byte) : Bool :=
  eqIgnoreCase (text.take word.length) word

theorem startsWithIgnoreCase_iff {text word : List Byte} :
    startsWithIgnoreCase text word = true ↔
      (text.take word.length).map toLower = word.map toLower := by
  rw [startsWithIgnoreCase, eqIgnoreCase, beq_iff_eq]

theorem startsWithIgnoreCase_get {text word : List Byte} (h : startsWithIgnoreCase text word = true)
    {i : Nat} (hi : i < word.length) : text[i]?.map toLower = word[i]?.map toLower := by
  have hget := congrArg (fun l => l[i]?) (startsWithIgnoreCase_iff.mp h)
  simpa only [List.getElem?_map, List.getElem?_take_of_lt hi] using hget

theorem startsWithIgnoreCase_clash {text word word' : List Byte} (i : Nat)
    (hi : i < word.length) (hi' : i < word'.length)
    (hne : word[i]?.map toLower ≠ word'[i]?.map toLower)
    (h : startsWithIgnoreCase text word = true) : startsWithIgnoreCase text word' = false := by
  rw [Bool.eq_false_iff]
  intro h'
  apply hne
  rw [← startsWithIgnoreCase_get h hi, ← startsWithIgnoreCase_get h' hi']

theorem startsWithIgnoreCase_concat {text word : List Byte} {b : Byte}
    (hb : toLower b ∉ word.map toLower) :
    startsWithIgnoreCase (text ++ [b]) word = startsWithIgnoreCase text word := by
  by_cases hlen : word.length ≤ text.length
  · rw [startsWithIgnoreCase, startsWithIgnoreCase, List.take_append_of_le_length hlen]
  · have hlen : text.length < word.length := Nat.lt_of_not_le hlen
    have hfalse : startsWithIgnoreCase text word = false := by
      rw [Bool.eq_false_iff]
      intro h
      have hsame := congrArg List.length (startsWithIgnoreCase_iff.mp h)
      rw [List.length_map, List.length_map, List.length_take] at hsame
      omega
    rw [hfalse, Bool.eq_false_iff]
    intro h
    apply hb
    have hget := startsWithIgnoreCase_get h hlen
    rw [List.getElem?_concat_length, Option.map_some, ← List.getElem?_map] at hget
    exact List.mem_of_getElem? hget.symm

/-- The digits `%d` prints for a non-negative number. -/
def decimal (n : Nat) : List Byte := (Nat.toDigits 10 n).map chr

theorem toNat_chr_of_isDigit {c : Char} (h : c.isDigit) :
    (chr c).toNat = c.toNat ∧ 48 ≤ c.toNat ∧ c.toNat ≤ 57 := by
  obtain ⟨hlo, hhi⟩ := Char.isDigit_iff_toNat.mp h
  have hlo' : 48 ≤ c.toNat := hlo
  have hhi' : c.toNat ≤ 57 := hhi
  refine ⟨?_, hlo', hhi'⟩
  rw [chr, BitVec.toNat_ofNat, Nat.mod_eq_of_lt (by omega)]

theorem isDigit_of_mem_decimal {n : Nat} {b : Byte} (h : b ∈ decimal n) : isDigit b := by
  obtain ⟨c, hc, rfl⟩ := List.mem_map.mp h
  obtain ⟨hchr, hlo, hhi⟩ :=
    toNat_chr_of_isDigit (Nat.isDigit_of_mem_toDigits (by decide) (by decide) hc)
  rw [isDigit, Bool.and_eq_true, decide_eq_true_iff, decide_eq_true_iff, BitVec.le_def,
    BitVec.le_def, hchr]
  exact ⟨hlo, hhi⟩

theorem decimal_injective : Function.Injective decimal := by
  intro n m h
  have hdigits : ∀ k, (decimal k).map (fun b => Char.ofNat b.toNat) = Nat.toDigits 10 k := by
    intro k
    rw [decimal, List.map_map]
    refine (List.map_congr_left fun c hc => ?_).trans (List.map_id _)
    have hdigit := Nat.isDigit_of_mem_toDigits (by decide) (by decide) hc
    rw [Function.comp, (toNat_chr_of_isDigit hdigit).1, Char.ofNat_toNat, id]
  rw [← Nat.ofDigitChars_ten_toDigits (n := n), ← hdigits n, h, hdigits m,
    Nat.ofDigitChars_ten_toDigits]

theorem length_decimal_le {n k : Nat} (hk : 0 < k) (h : n < 10 ^ k) : (decimal n).length ≤ k := by
  rw [decimal, List.length_map]
  exact (Nat.length_toDigits_le_iff (by decide) hk).mpr h

end X86Assembler.CString
