import X86Assembler.Library.Digits
import X86Assembler.Library.JsonString

namespace X86Assembler.JsonObject

open CString (Byte isDigit decimal)
open JsonString (decode)

inductive Value
  | string (bytes : List Byte)
  | number (n : Nat)

abbrev Members := List (List Byte × Value)

def isBlank (b : Byte) : Bool := b == 0x20 || b == 0x09 || b == 0x0A || b == 0x0D

def skipBlanks (text : List Byte) : List Byte := text.dropWhile isBlank

/-- What stands before the closing quote, escapes as they are written, and what follows it. -/
def body : List Byte → Option (List Byte × List Byte)
  | [] => none
  | b :: text =>
    if b = 0x22 then some ([], text)
    else if b = 0x5C then
      match text with
      | [] => none
      | e :: text => (body text).map fun r => (b :: e :: r.1, r.2)
    else (body text).map fun r => (b :: r.1, r.2)

def readString : List Byte → Option (List Byte × List Byte)
  | [] => none
  | b :: text =>
    if b = 0x22 then do
      let (raw, rest) ← body text
      let bytes ← decode raw
      pure (bytes, rest)
    else none

def number (ds : List Byte) : Nat := Digits.value (fun b : Byte => b.toNat - 48) 10 ds

def readNumber (text : List Byte) : Option (Nat × List Byte) :=
  let ds := text.takeWhile isDigit
  if decimal (number ds) = ds then some (number ds, text.drop ds.length) else none

def readValue (text : List Byte) : Option (Value × List Byte) :=
  match readString text with
  | some (bytes, rest) => some (.string bytes, rest)
  | none => (readNumber text).map fun r => (.number r.1, r.2)

def readMember (text : List Byte) : Option ((List Byte × Value) × List Byte) := do
  let (key, text) ← readString (skipBlanks text)
  match skipBlanks text with
  | [] => none
  | b :: text =>
    if b = 0x3A then do
      let (value, rest) ← readValue (skipBlanks text)
      pure ((key, value), rest)
    else none

def readMembers : Nat → List Byte → Option (Members × List Byte)
  | 0, _ => none
  | n + 1, text => do
    let (m, text) ← readMember text
    match skipBlanks text with
    | [] => none
    | b :: text =>
      if b = 0x7D then some ([m], text)
      else if b = 0x2C then do
        let (ms, rest) ← readMembers n text
        pure (m :: ms, rest)
      else none

def readObject : List Byte → Option (Members × List Byte)
  | [] => none
  | b :: text => if b = 0x7B then readMembers text.length text else none

/-- Objects that follow each other, up to the end of the text. -/
def readObjects : Nat → List Byte → Option (List Members)
  | 0, text => if skipBlanks text = [] then some [] else none
  | n + 1, text =>
    if skipBlanks text = [] then some []
    else do
      let (m, rest) ← readObject (skipBlanks text)
      let ms ← readObjects n rest
      pure (m :: ms)

def readStream (text : List Byte) : Option (List Members) := readObjects text.length text

def quote (raw : List Byte) : List Byte := 0x22 :: (raw ++ [0x22])

structure Spells (raw bytes : List Byte) : Prop where
  closed : ∀ rest, body (raw ++ 0x22 :: rest) = some (raw, rest)
  decoded : decode raw = some bytes

inductive WritesValue : Value → List Byte → Prop
  | string {raw bytes : List Byte} : Spells raw bytes → WritesValue (.string bytes) (quote raw)
  | number (n : Nat) : WritesValue (.number n) (decimal n)

inductive WritesMember : List Byte × Value → List Byte → Prop
  | mk {raw key text : List Byte} {value : Value} : Spells raw key → WritesValue value text →
      WritesMember (key, value) (quote raw ++ 0x3A :: text)

/-- Members with commas between them, and the closing brace. -/
def membersText : List (List Byte) → List Byte
  | [] => [0x7D]
  | [text] => text ++ [0x7D]
  | text :: texts => text ++ 0x2C :: membersText texts

def objectText (texts : List (List Byte)) : List Byte := 0x7B :: membersText texts

theorem body_quote (text : List Byte) : body (0x22 :: text) = some ([], text) := by
  rw [body.eq_def]
  exact if_pos rfl

theorem body_plain {b : Byte} (hquote : b ≠ 0x22) (hslash : b ≠ 0x5C) (text : List Byte) :
    body (b :: text) = (body text).map fun r => (b :: r.1, r.2) := by
  rw [body.eq_def]
  dsimp only
  rw [if_neg hquote, if_neg hslash]

theorem body_escape (e : Byte) (text : List Byte) :
    body (0x5C :: e :: text) = (body text).map fun r => (0x5C :: e :: r.1, r.2) := by
  rw [body.eq_def]
  dsimp only
  rw [if_neg (by decide), if_pos rfl]

theorem readString_quote {raw bytes : List Byte} (h : Spells raw bytes) (rest : List Byte) :
    readString (quote raw ++ rest) = some (bytes, rest) := by
  rw [quote, List.cons_append, readString, if_pos rfl, List.append_assoc, List.singleton_append,
    h.closed rest]
  show (decode raw >>= fun bytes => pure (bytes, rest)) = some (bytes, rest)
  rw [h.decoded]
  rfl

theorem skipBlanks_quote (raw rest : List Byte) :
    skipBlanks (quote raw ++ rest) = quote raw ++ rest := rfl

theorem number_decimal (n : Nat) : number (decimal n) = n := by
  have hdigit : ∀ d, d < 10 → (CString.chr (Nat.digitChar d)).toNat - 48 = d := by decide
  induction n using Nat.strongRecOn with
  | ind n ih =>
      by_cases h : n < 10
      · rw [decimal, Nat.toDigits_of_lt_base h, List.map_singleton]
        have hone := Digits.value_concat (fun b : Byte => b.toNat - 48) 10 []
          (CString.chr (Nat.digitChar n))
        rw [List.nil_append, Digits.value_nil, Nat.zero_mul, Nat.zero_add, hdigit n h] at hone
        exact hone
      · have hdiv := ih (n / 10) (by omega)
        rw [decimal, Nat.toDigits_of_base_le (by decide) (by omega), List.map_append,
          List.map_singleton, number, Digits.value_concat, hdigit _ (Nat.mod_lt n (by decide))]
        rw [number, decimal] at hdiv
        rw [hdiv]
        omega

theorem readNumber_decimal (n : Nat) {b : Byte} (hb : isDigit b = false) (rest : List Byte) :
    readNumber (decimal n ++ b :: rest) = some (n, b :: rest) := by
  have htake : (decimal n ++ b :: rest).takeWhile isDigit = decimal n := by
    rw [List.takeWhile_append_of_pos fun c hc => CString.isDigit_of_mem_decimal hc,
      List.takeWhile_cons_of_neg (by rw [hb]; exact Bool.false_ne_true), List.append_nil]
  rw [readNumber, htake, number_decimal, if_pos rfl, List.drop_left]

theorem decimal_starts (n : Nat) : ∃ d ds, decimal n = d :: ds ∧ isDigit d = true := by
  cases hd : decimal n with
  | nil =>
      rw [decimal, List.map_eq_nil_iff] at hd
      exact absurd hd Nat.toDigits_ne_nil
  | cons d ds =>
      have hmem : d ∈ decimal n := by
        rw [hd]
        exact List.mem_cons_self
      exact ⟨d, ds, rfl, CString.isDigit_of_mem_decimal hmem⟩

theorem digit_not_quote : ∀ b : Byte, isDigit b = true → b ≠ 0x22 ∧ isBlank b = false := by
  decide +kernel

theorem readValue_text {value : Value} {text : List Byte} (h : WritesValue value text) {b : Byte}
    (hb : isDigit b = false) (rest : List Byte) :
    skipBlanks (text ++ b :: rest) = text ++ b :: rest ∧
      readValue (text ++ b :: rest) = some (value, b :: rest) := by
  cases h with
  | string hspells =>
      refine ⟨rfl, ?_⟩
      rw [readValue, readString_quote hspells]
  | number n =>
      have hread := readNumber_decimal n hb rest
      obtain ⟨d, ds, hcons, hdigit⟩ := decimal_starts n
      obtain ⟨hquote, hblank⟩ := digit_not_quote d hdigit
      have hnone : readString (decimal n ++ b :: rest) = none := by
        rw [hcons, List.cons_append, readString, if_neg hquote]
      constructor
      · rw [hcons, List.cons_append]
        exact List.dropWhile_cons_of_neg (by rw [hblank]; exact Bool.false_ne_true)
      · rw [readValue, hnone, hread]
        rfl

theorem readMember_text {m : List Byte × Value} {text : List Byte} (h : WritesMember m text)
    {b : Byte} (hb : isDigit b = false) (rest : List Byte) :
    readMember (text ++ b :: rest) = some (m, b :: rest) := by
  cases h with
  | mk hkey hvalue =>
      obtain ⟨hskip, hread⟩ := readValue_text hvalue hb rest
      have hcolon : ∀ more, skipBlanks (0x3A :: more) = 0x3A :: more := fun _ => rfl
      rw [List.append_assoc, List.cons_append, readMember, skipBlanks_quote,
        readString_quote hkey]
      simp only [Option.bind_eq_bind, Option.bind_some, hcolon, if_true, hskip, hread,
        Option.pure_def]

theorem readMembers_text {ms : Members} {texts : List (List Byte)}
    (h : List.Forall₂ WritesMember ms texts) (hne : ms ≠ []) {n : Nat} (hn : texts.length ≤ n)
    (rest : List Byte) : readMembers n (membersText texts ++ rest) = some (ms, rest) := by
  induction h generalizing n with
  | nil => exact absurd rfl hne
  | @cons m text ms texts hm hms ih =>
      obtain ⟨n, rfl⟩ : ∃ k, n = k + 1 := ⟨n - 1, by rw [List.length_cons] at hn; omega⟩
      cases hms with
      | nil =>
          have hread := readMember_text hm (by decide : isDigit 0x7D = false) rest
          rw [membersText, List.append_assoc, List.singleton_append, readMembers, hread]
          rfl
      | @cons m' text' ms texts hm' hms' =>
          have hmore := ih (List.cons_ne_nil _ _) (Nat.le_of_succ_le_succ hn)
          have hread := readMember_text hm (by decide : isDigit 0x2C = false)
            (membersText (text' :: texts) ++ rest)
          rw [membersText, List.append_assoc, List.cons_append, readMembers, hread]
          · show (readMembers n (membersText (text' :: texts) ++ rest) >>= _) = _
            rw [hmore]
            rfl
          · exact List.cons_ne_nil _ _

theorem length_membersText (texts : List (List Byte)) :
    texts.length ≤ (membersText texts).length := by
  induction texts with
  | nil => exact Nat.zero_le _
  | cons text texts ih =>
      cases texts with
      | nil =>
          rw [membersText, List.length_append]
          exact Nat.le_add_left _ _
      | cons text' texts =>
          rw [membersText, List.length_append]
          · exact Nat.le_trans (Nat.succ_le_succ ih) (Nat.le_add_left _ _)
          · exact List.cons_ne_nil _ _

theorem readObject_text {ms : Members} {texts : List (List Byte)}
    (h : List.Forall₂ WritesMember ms texts) (hne : ms ≠ []) (rest : List Byte) :
    readObject (objectText texts ++ rest) = some (ms, rest) := by
  have hlength := length_membersText texts
  rw [objectText, List.cons_append, readObject, if_pos rfl]
  apply readMembers_text h hne
  rw [List.length_append]
  omega

def WritesObject (ms : Members) (text : List Byte) : Prop :=
  ∃ texts, text = objectText texts ∧ ms ≠ [] ∧ List.Forall₂ WritesMember ms texts

theorem readObjects_newline (n : Nat) (text : List Byte) :
    readObjects n (0x0A :: text) = readObjects n text := by
  cases n with
  | zero => rfl
  | succ n => rfl

def linesOf (texts : List (List Byte)) : List Byte := texts.flatMap fun text => text ++ [0x0A]

theorem readObjects_lines {mss : List Members} {texts : List (List Byte)}
    (h : List.Forall₂ WritesObject mss texts) {n : Nat} (hn : texts.length ≤ n) :
    readObjects n (linesOf texts) = some mss := by
  induction h generalizing n with
  | nil =>
      cases n with
      | zero => rfl
      | succ n => rfl
  | @cons ms text mss texts hm hms ih =>
      obtain ⟨n, rfl⟩ : ∃ k, n = k + 1 := ⟨n - 1, by rw [List.length_cons] at hn; omega⟩
      have hmore := ih (Nat.le_of_succ_le_succ hn)
      obtain ⟨members, rfl, hne, hmembers⟩ := hm
      have hread := readObject_text hmembers hne (0x0A :: linesOf texts)
      have hskip : ∀ more, skipBlanks (objectText members ++ more) = objectText members ++ more :=
        fun _ => rfl
      have hcons : ∀ more, objectText members ++ more ≠ [] := fun _ => List.cons_ne_nil _ _
      rw [linesOf, List.flatMap_cons, List.append_assoc, List.singleton_append, ← linesOf,
        readObjects, hskip, if_neg (hcons _), hread]
      show (readObjects n (0x0A :: linesOf texts) >>= _) = _
      rw [readObjects_newline, hmore]
      rfl

theorem length_linesOf (texts : List (List Byte)) : texts.length ≤ (linesOf texts).length := by
  induction texts with
  | nil => exact Nat.zero_le _
  | cons text texts ih =>
      rw [linesOf, List.flatMap_cons, ← linesOf, List.length_append, List.length_append,
        List.length_cons, List.length_singleton]
      omega

theorem readStream_lines {mss : List Members} {texts : List (List Byte)}
    (h : List.Forall₂ WritesObject mss texts) : readStream (linesOf texts) = some mss :=
  readObjects_lines h (length_linesOf texts)

end X86Assembler.JsonObject
