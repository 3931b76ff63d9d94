import X86Assembler.Library.Utf8

namespace X86Assembler.JsonString

open CString (Byte)

def hexValue (b : Byte) : Option Nat :=
  if 0x30 ≤ b.toNat ∧ b.toNat ≤ 0x39 then some (b.toNat - 0x30)
  else if 0x41 ≤ b.toNat ∧ b.toNat ≤ 0x46 then some (b.toNat - 0x41 + 10)
  else if 0x61 ≤ b.toNat ∧ b.toNat ≤ 0x66 then some (b.toNat - 0x61 + 10)
  else none

def unit : List Byte → Option (Nat × List Byte)
  | a :: b :: c :: d :: text => do
    let a ← hexValue a
    let b ← hexValue b
    let c ← hexValue c
    let d ← hexValue d
    return (((a * 16 + b) * 16 + c) * 16 + d, text)
  | _ => none

def shortEscape (b : Byte) : Option Byte :=
  if b = 0x22 ∨ b = 0x5C ∨ b = 0x2F then some b
  else if b = 0x62 then some 0x08
  else if b = 0x66 then some 0x0C
  else if b = 0x6E then some 0x0A
  else if b = 0x72 then some 0x0D
  else if b = 0x74 then some 0x09
  else none

/-- What follows `\u`: a code point, or the two halves of one. -/
def unicodeEscape (text : List Byte) : Option (List Byte × List Byte) := do
  let (high, text) ← unit text
  if high < 0xD800 ∨ 0xDFFF < high then return (Utf8.encode high, text)
  if 0xDBFF < high ∨ text.take 2 ≠ [0x5C, 0x75] then none
  let (low, text) ← unit (text.drop 2)
  if low < 0xDC00 ∨ 0xDFFF < low then none
  return (Utf8.encode (0x10000 + (high - 0xD800) * 1024 + (low - 0xDC00)), text)

def escape : List Byte → Option (List Byte × List Byte)
  | [] => none
  | e :: text =>
    if e = 0x75 then unicodeEscape text else (shortEscape e).map fun v => ([v], text)

/-- The bytes of one character, and what follows it. A quote or a control character has to be
escaped. -/
def item : List Byte → Option (List Byte × List Byte)
  | [] => none
  | b :: text =>
    if b = 0x22 ∨ b.toNat < 0x20 then none
    else if b = 0x5C then escape text
    else some ([b], text)

def decode (text : List Byte) : Option (List Byte) :=
  if text = [] then some []
  else
    match item text with
    | none => none
    | some (bytes, rest) =>
      if rest.length < text.length then (decode rest).map (bytes ++ ·) else none
termination_by text.length

theorem decode_nil : decode [] = some [] := by
  rw [decode, if_pos rfl]

theorem decode_item {text bytes rest : List Byte} (h : item text = some (bytes, rest))
    (hlt : rest.length < text.length) : decode text = (decode rest).map (bytes ++ ·) := by
  have hne : text ≠ [] := by
    rintro rfl
    cases h
  rw [decode, if_neg hne, h]
  exact if_pos hlt

theorem item_plain {b : Byte} (hquote : b ≠ 0x22) (hslash : b ≠ 0x5C) (hcontrol : 0x20 ≤ b.toNat)
    (text : List Byte) : item (b :: text) = some ([b], text) := by
  have hno : ¬(b = 0x22 ∨ b.toNat < 0x20) := by
    rintro (h | h)
    · exact hquote h
    · omega
  rw [item, if_neg hno, if_neg hslash]

theorem item_short {e v : Byte} (h : shortEscape e = some v) (text : List Byte) :
    item (0x5C :: e :: text) = some ([v], text) := by
  have hu : e ≠ 0x75 := by
    rintro rfl
    cases h
  have hno : ¬((0x5C : Byte) = 0x22 ∨ (0x5C : Byte).toNat < 0x20) := by decide
  rw [item, if_neg hno, if_pos rfl, escape, if_neg hu, h]
  rfl

theorem item_unicode {a b c d : Byte} {va vb vc vd v : Nat} (ha : hexValue a = some va)
    (hb : hexValue b = some vb) (hc : hexValue c = some vc) (hd : hexValue d = some vd)
    (hv : ((va * 16 + vb) * 16 + vc) * 16 + vd = v) (hlt : v < 0xD800) (text : List Byte) :
    item (0x5C :: 0x75 :: a :: b :: c :: d :: text) = some (Utf8.encode v, text) := by
  have hno : ¬((0x5C : Byte) = 0x22 ∨ (0x5C : Byte).toNat < 0x20) := by decide
  have hunit : unit (a :: b :: c :: d :: text) = some (v, text) := by
    simp only [unit, ha, hb, hc, hd, hv, Option.bind_eq_bind, Option.bind_some, Option.pure_def]
  rw [item, if_neg hno, if_pos rfl, escape, if_pos rfl, unicodeEscape, hunit]
  simp only [Option.bind_eq_bind, Option.bind_some, if_pos (Or.inl hlt), Option.pure_def]

end X86Assembler.JsonString
