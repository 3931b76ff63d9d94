import X86Assembler.Disassembler

namespace X86Assembler

open CString (Byte)
open CheckedRead

/-- The length of a ModRM operand, from its ModRM byte on. -/
def rmLength : List Byte → Nat
  | [] => 1
  | modrm :: rest =>
    let mod := modField modrm
    if mod = 3 then 1
    else if rmBits modrm = 4 then
      2 + dispSizeOf mod (mod = 0 && rest.head?.any fun sib => rmBits sib = 5)
    else 1 + dispSizeOf mod (mod = 0 && rmBits modrm = 5)

def immOfGroup3 (p : Prefixes) (opcode : Byte) (ext : Nat) : Option Nat :=
  if ext = 0 then some (if opcode = 0xF6#8 then 1 else if p.rexW then 4 else wideImm p)
  else if ext = 2 || ext = 3 then some 0
  else none

def immOfExtension (p : Prefixes) (opcode : Byte) (ext : Nat) : Option Nat :=
  if opcode = 0xC7#8 then if ext ≠ 0 then none else some (wideImm p)
  else if opcode = 0x80#8 || opcode = 0x81#8 || opcode = 0x83#8 then
    (lookupGroup1Mnemonic ext).map fun _ => if opcode = 0x81#8 then wideImm p else 1
  else if opcode = 0xFF#8 then (group5Name ext).map fun _ => 0
  else if opcode = 0x8F#8 then if ext = 0 then some 0 else none
  else immOfGroup3 p opcode ext

/-- The bytes of the immediate after a ModRM operand; `none` where the form is unknown. -/
def immAfterRm (p : Prefixes) (opcode : Byte) (ext : Nat) : Option Nat :=
  if [0x8D#8, 0x63#8, 0x89#8, 0x8B#8, 0x88#8, 0x8A#8, 0x85#8].contains opcode then some 0
  else if opcode = 0xC0#8 || opcode = 0xC1#8 then (lookupGroup2Mnemonic ext).map fun _ => 1
  else if (arithName opcode).isSome then some 0
  else immOfExtension p opcode ext

/-- The extension digit in the ModRM byte; 8, which no form has, when the byte is missing. -/
def extDigit (bs : List Byte) : Nat := (bs.head?.map regBits).getD 8

/-- The length of what follows `0F` and the opcode. -/
def twoByteTail (op2 : Byte) (bs : List Byte) : Option Nat :=
  if op2 = 0x05#8 then some 0
  else if op2 = 0x1F#8 then if extDigit bs = 0 then some (rmLength bs) else none
  else if inRange 0x80 0x8F op2 then some 4
  else if inRange 0x40 0x4F op2 || inRange 0x90 0x9F op2 ||
      [0xB6#8, 0xB7#8, 0xBE#8, 0xBF#8, 0xAF#8, 0xBC#8, 0xBD#8, 0xC0#8, 0xC1#8, 0xB0#8, 0xB1#8,
        0xA3#8, 0xAB#8, 0xB3#8, 0xBB#8].contains op2 then some (rmLength bs)
  else if op2 = 0xBA#8 then (bitTestName (extDigit bs)).map fun _ => rmLength bs + 1
  else none

def oneByteTail (p : Prefixes) (opcode : Byte) (bs : List Byte) : Option Nat :=
  if inRange 0x50 0x57 opcode || inRange 0x58 0x5F opcode ||
      [0x90#8, 0xC9#8, 0xC3#8].contains opcode then some 0
  else if opcode = 0x6A#8 || inRange 0x70 0x7F opcode || opcode = 0xEB#8 then some 1
  else if [0x68#8, 0xE8#8, 0xE9#8].contains opcode then some 4
  else if inRange 0xB8 0xBF opcode then some (movImmSize p)
  else if hasModrm opcode then
    (immAfterRm p opcode (extDigit bs)).map fun n => rmLength bs + n
  else none

def twoByteBody : List Byte → Option Nat
  | [] => none
  | op2 :: rest => (twoByteTail op2 rest).map fun n => n + 2

def bodyLength (p : Prefixes) : List Byte → Option Nat
  | [] => none
  | opcode :: rest =>
    if opcode = 0x0F#8 then twoByteBody rest
    else (oneByteTail p opcode rest).map fun n => n + 1

/-- A form that ends at `stop`: it is read when the buffer holds all of it, and is an error
otherwise. -/
def EndsAt (size : Nat) (m : CheckedRead Body) (stop : Nat) : Prop :=
  (stop ≤ size → ∃ text, m = .ok (some (text, stop))) ∧ (size < stop → m = .error)

def Decodes (size : Nat) (m : CheckedRead Body) : Option Nat → Prop
  | some stop => EndsAt size m stop
  | none => m = .error ∨ m = .ok none

variable {code : List Byte}

theorem endsAt_ok {size stop : Nat} (h : stop ≤ size) (text : String) :
    EndsAt size (.ok (some (text, stop))) stop :=
  ⟨fun _ => ⟨text, rfl⟩, fun hlt => absurd h (by omega)⟩

theorem endsAt_error {size stop : Nat} (h : size < stop) : EndsAt size .error stop :=
  ⟨fun hle => absurd hle (by omega), fun _ => rfl⟩

theorem decodes_error {size : Nat} {stop : Option Nat} (h : ∀ n, stop = some n → size < n) :
    Decodes size .error stop := by
  cases stop with
  | none => exact Or.inl rfl
  | some n => exact endsAt_error (h n rfl)

theorem decodes_ite {size : Nat} {c : Prop} [Decidable c] {m₁ m₂ : CheckedRead Body}
    {stop : Option Nat} (h₁ : c → Decodes size m₁ stop) (h₂ : ¬c → Decodes size m₂ stop) :
    Decodes size (if c then m₁ else m₂) stop := by
  by_cases h : c
  · rw [if_pos h]
    exact h₁ h
  · rw [if_neg h]
    exact h₂ h

theorem decodes_named {size : Nat} (stop : Nat) {names : Option String} {f : String → CheckedRead Body}
    (h : ∀ name, EndsAt size (f name) stop) :
    Decodes size
      (match names with
        | none => pure none
        | some name => f name)
      (names.map fun _ => stop) := by
  cases names with
  | none => exact Or.inr rfl
  | some name => exact h name

theorem readSib_of_lt (p : Prefixes) (mod : Nat) {cursor : Nat} (h : cursor < code.length) :
    ∃ m, readSib code p mod cursor = .ok m ∧ m.cursor = cursor + 1 ∧
      m.dispSize = dispSizeOf mod (mod = 0 && rmBits code[cursor] = 5) := by
  rw [readSib, fetchChecked_of_lt h, ok_bind]
  exact ⟨_, rfl, rfl, rfl⟩

theorem readDisp_cases (code : List Byte) {m : RmMemory} {mod : Nat} {special : Bool}
    (hd : m.dispSize = dispSizeOf mod special) (hc : m.cursor ≤ code.length) :
    (m.cursor + m.dispSize ≤ code.length → ∃ v, readDisp code m = .ok v) ∧
      (code.length < m.cursor + m.dispSize → readDisp code m = .error) := by
  have hsize : m.dispSize = 0 ∨ m.dispSize = 1 ∨ m.dispSize = 4 := by
    rw [hd, dispSizeOf]
    split
    · exact Or.inr (Or.inl rfl)
    · split
      · exact Or.inr (Or.inr rfl)
      · split
        · exact Or.inr (Or.inr rfl)
        · exact Or.inl rfl
  rcases hsize with h0 | h1 | h4
  · rw [h0, readDisp, if_neg (by omega), if_neg (by omega)]
    exact ⟨fun _ => ⟨0, rfl⟩, fun h => absurd h (by omega)⟩
  · rw [h1, readDisp, if_pos h1]
    refine ⟨fun h => ?_, fun h => ?_⟩
    · rw [fetchChecked_of_lt (by omega)]
      exact ⟨_, rfl⟩
    · rw [fetchChecked_of_le (by omega), error_bind]
  · rw [h4, readDisp, if_neg (by omega), if_pos h4]
    exact ⟨readLe_of_le, readLe_of_lt⟩

theorem formatRmOperand_cases (code : List Byte) (p : Prefixes) (pos sizeBits : Nat) :
    (pos + rmLength (code.drop pos) ≤ code.length → ∃ text,
      formatRmOperand code pos p sizeBits = .ok (text, pos + rmLength (code.drop pos))) ∧
    (code.length < pos + rmLength (code.drop pos) →
      formatRmOperand code pos p sizeBits = .error) := by
  by_cases hpos : pos < code.length
  · have hdrop : code.drop pos = code[pos] :: code.drop (pos + 1) := List.drop_eq_getElem_cons hpos
    rw [hdrop, rmLength, formatRmOperand, fetchChecked_of_lt hpos, ok_bind]
    by_cases h3 : modField code[pos] = 3
    · simp only [h3, if_true]
      exact ⟨fun _ => ⟨_, rfl⟩, fun h => absurd h (by omega)⟩
    · simp only [h3, if_false]
      by_cases h4 : rmBits code[pos] = 4
      · simp only [h4, if_true]
        by_cases hsib : pos + 1 < code.length
        · obtain ⟨m, hm, hcur, hd⟩ :=
            readSib_of_lt p (modField code[pos]) hsib
          have hhead : (code.drop (pos + 1)).head? = some code[pos + 1] := by
            rw [List.head?_drop, List.getElem?_eq_getElem hsib]
          obtain ⟨hok, herr⟩ := readDisp_cases code hd (by omega)
          rw [hm, ok_bind]
          simp only [hhead, Option.any_some]
          rw [← hd]
          refine ⟨fun h => ?_, fun h => ?_⟩
          · obtain ⟨v, hv⟩ := hok (by omega)
            have hstop : m.cursor + m.dispSize = pos + (2 + m.dispSize) := by omega
            rw [hv, ok_bind, hstop]
            exact ⟨_, rfl⟩
          · rw [herr (by omega), error_bind]
        · have hsib' : readSib code p (modField code[pos]) (pos + 1) = .error := by
            rw [readSib, fetchChecked_of_le (by omega), error_bind]
          rw [hsib', error_bind]
          exact ⟨fun h => absurd h (by omega), fun _ => rfl⟩
      · simp only [h4, if_false]
        obtain ⟨hok, herr⟩ := readDisp_cases code
          (m := readRmBase p (modField code[pos]) (rmBits code[pos]) (pos + 1)) rfl hpos
        refine ⟨fun h => ?_, fun h => ?_⟩
        · obtain ⟨v, hv⟩ := hok (by simp only [readRmBase]; omega)
          refine ⟨memoryText (readRmBase p (modField code[pos]) (rmBits code[pos]) (pos + 1)) v, ?_⟩
          rw [pure_eq_ok, ok_bind, hv, ok_bind, pure_eq_ok]
          simp only [readRmBase, Nat.add_assoc]
        · rw [pure_eq_ok, ok_bind, herr (by simp only [readRmBase]; omega), error_bind]
  · have hdrop : code.drop pos = [] := List.drop_of_length_le (by omega)
    rw [hdrop, rmLength, formatRmOperand, fetchChecked_of_le (by omega), error_bind]
    exact ⟨fun h => absurd h (by omega), fun _ => rfl⟩

/-- What follows a ModRM operand may be taken to start inside the buffer: a form whose
operand does not fit is an error. -/
theorem decodes_afterRm {p : Prefixes} {cursor sizeBits : Nat} (tail : Option Nat)
    {f : String × Nat → CheckedRead Body}
    (h : ∀ text, cursor + rmLength (code.drop cursor) ≤ code.length →
      Decodes code.length (f (text, cursor + rmLength (code.drop cursor)))
        (tail.map fun n => cursor + (rmLength (code.drop cursor) + n))) :
    Decodes code.length (formatRmOperand code cursor p sizeBits >>= f)
      (tail.map fun n => cursor + (rmLength (code.drop cursor) + n)) := by
  obtain ⟨hok, herr⟩ := formatRmOperand_cases code p cursor sizeBits
  by_cases hfit : cursor + rmLength (code.drop cursor) ≤ code.length
  · obtain ⟨text, ht⟩ := hok hfit
    rw [ht, ok_bind]
    exact h text hfit
  · rw [herr (by omega), error_bind]
    apply decodes_error
    intro n hn
    cases tail with
    | none => cases hn
    | some m =>
        simp only [Option.map_some, Option.some.injEq] at hn
        omega

theorem endsAt_afterRm {p : Prefixes} {cursor sizeBits : Nat} (name : String → String) :
    EndsAt code.length
      (formatRmOperand code cursor p sizeBits >>= fun rm => pure (some (name rm.1, rm.2)))
      (cursor + rmLength (code.drop cursor)) := by
  refine decodes_afterRm (some 0) fun text hfit => ?_
  exact endsAt_ok hfit (name text)

theorem fetchChecked_then {cursor : Nat} {f : Byte → CheckedRead Body} (stop : Option Nat)
    (hstop : code.length ≤ cursor → ∀ n, stop = some n → code.length < n)
    (h : ∀ hlt : cursor < code.length, Decodes code.length (f code[cursor]) stop) :
    Decodes code.length (fetchChecked code cursor >>= f) stop := by
  by_cases hlt : cursor < code.length
  · rw [fetchChecked_of_lt hlt, ok_bind]
    exact h hlt
  · rw [fetchChecked_of_le (by omega), error_bind]
    exact decodes_error (hstop (by omega))

theorem rmLength_pos (bs : List Byte) : 0 < rmLength bs := by
  cases bs with
  | nil => exact Nat.one_pos
  | cons modrm rest =>
      rw [rmLength]
      split
      · exact Nat.one_pos
      · split <;> omega

theorem decodeRegRm_endsAt (p : Prefixes) (cursor : Nat) (name : String) (regSize rmSize : Nat) :
    EndsAt code.length (decodeRegRm code p cursor name regSize rmSize)
      (cursor + rmLength (code.drop cursor)) := by
  have hpos := rmLength_pos (code.drop cursor)
  refine fetchChecked_then (some (cursor + rmLength (code.drop cursor))) ?_ ?_
  · intro hle n hn
    cases hn
    omega
  · intro hlt
    exact endsAt_afterRm fun rm => name ++ " " ++ regFieldName p code[cursor] regSize ++ ", " ++ rm

theorem decodeRmReg_endsAt (p : Prefixes) (cursor : Nat) (name : String) (size : Nat) :
    EndsAt code.length (decodeRmReg code p cursor name size)
      (cursor + rmLength (code.drop cursor)) := by
  have hpos := rmLength_pos (code.drop cursor)
  refine fetchChecked_then (some (cursor + rmLength (code.drop cursor))) ?_ ?_
  · intro hle n hn
    cases hn
    omega
  · intro hlt
    exact endsAt_afterRm fun rm => name ++ " " ++ rm ++ ", " ++ regFieldName p code[cursor] size

theorem readLe_then {cursor n : Nat} (text : BitVec (8 * n) → String) :
    EndsAt code.length
      (readLe code cursor n >>= fun v => pure (some (text v, cursor + n))) (cursor + n) := by
  by_cases hfit : cursor + n ≤ code.length
  · obtain ⟨v, hv⟩ := readLe_of_le hfit
    rw [hv, ok_bind]
    exact endsAt_ok hfit (text v)
  · rw [readLe_of_lt (by omega), error_bind]
    exact endsAt_error (by omega)

theorem fetchByte_then {cursor : Nat} (text : Byte → String) :
    EndsAt code.length
      (fetchChecked code cursor >>= fun v => pure (some (text v, cursor + 1))) (cursor + 1) := by
  refine fetchChecked_then (some (cursor + 1)) ?_ ?_
  · intro hle n hn
    cases hn
    omega
  · exact fun hlt => endsAt_ok hlt (text code[cursor])

theorem decodeImm_endsAt (name rm : String) (cursor n : Nat) :
    EndsAt code.length (decodeImm code name rm cursor n) (cursor + n) :=
  readLe_then fun v => name ++ " " ++ rm ++ ", " ++ hex v.toNat

theorem decodeSignedImm8_endsAt (name rm : String) (cursor : Nat) :
    EndsAt code.length (decodeSignedImm8 code name rm cursor) (cursor + 1) :=
  fetchByte_then fun v =>
    name ++ " " ++ rm ++ ", " ++ if v.toInt < 0 then "-" ++ hex v.toInt.natAbs else hex v.toNat

theorem decodeGroup1_decodes (p : Prefixes) (opcode : Byte) (ext : Nat) (rm : String)
    (cursor : Nat) :
    Decodes code.length (decodeGroup1 code p opcode ext rm cursor)
      (((lookupGroup1Mnemonic ext).map fun _ => if opcode = 0x81#8 then wideImm p else 1).map
        fun n => cursor + n) := by
  rw [decodeGroup1, Option.map_map]
  refine decodes_named (cursor + if opcode = 0x81#8 then wideImm p else 1) fun name => ?_
  by_cases h80 : opcode = 0x80#8
  · subst h80
    exact decodeImm_endsAt name rm cursor 1
  · rw [if_neg h80]
    by_cases h81 : opcode = 0x81#8
    · subst h81
      exact decodeImm_endsAt name rm cursor (wideImm p)
    · rw [if_neg h81, if_neg h81]
      exact decodeSignedImm8_endsAt name rm cursor

theorem decodeGroup3_decodes (p : Prefixes) (opcode : Byte) (ext : Nat) (rm : String)
    {cursor : Nat} (hc : cursor ≤ code.length) :
    Decodes code.length (decodeGroup3 code p opcode ext rm cursor)
      ((immOfGroup3 p opcode ext).map fun n => cursor + n) := by
  rw [decodeGroup3, immOfGroup3]
  by_cases h0 : ext = 0
  · rw [if_pos h0, if_pos h0]
    by_cases hf6 : opcode = 0xF6#8
    · rw [if_pos hf6, if_pos hf6]
      exact decodeImm_endsAt "test" rm cursor 1
    · rw [if_neg hf6, if_neg hf6]
      exact decodeImm_endsAt "test" rm cursor _
  · rw [if_neg h0, if_neg h0]
    by_cases h2 : ext = 2
    · subst h2
      exact endsAt_ok hc _
    · by_cases h3 : ext = 3
      · subst h3
        exact endsAt_ok hc _
      · rw [if_neg h2, if_neg h3, if_neg (by simp [h2, h3])]
        exact Or.inr rfl

theorem decodeExtension_decodes (p : Prefixes) (opcode : Byte) (ext : Nat) (rm : String)
    {cursor : Nat} (hc : cursor ≤ code.length) :
    Decodes code.length (decodeExtension code p opcode ext rm cursor)
      ((immOfExtension p opcode ext).map fun n => cursor + n) := by
  rw [decodeExtension, immOfExtension]
  by_cases hc7 : opcode = 0xC7#8
  · rw [if_pos hc7, if_pos hc7]
    by_cases h0 : ext = 0
    · subst h0
      exact decodeImm_endsAt "mov" rm cursor (wideImm p)
    · rw [if_pos h0, if_pos h0]
      exact Or.inr rfl
  rw [if_neg hc7, if_neg hc7]
  by_cases hgroup1 : (opcode = 0x80#8 || opcode = 0x81#8 || opcode = 0x83#8) = true
  · rw [if_pos hgroup1, if_pos hgroup1]
    exact decodeGroup1_decodes p opcode ext rm cursor
  rw [if_neg hgroup1, if_neg hgroup1]
  by_cases hff : opcode = 0xFF#8
  · rw [if_pos hff, if_pos hff]
    cases group5Name ext with
    | none => exact Or.inr rfl
    | some name => exact endsAt_ok hc (name ++ " " ++ rm)
  rw [if_neg hff, if_neg hff]
  by_cases h8f : opcode = 0x8F#8
  · rw [if_pos h8f, if_pos h8f]
    by_cases h0 : ext = 0
    · subst h0
      exact endsAt_ok hc ("pop " ++ rm)
    · rw [if_neg h0, if_neg h0]
      exact Or.inr rfl
  rw [if_neg h8f, if_neg h8f]
  exact decodeGroup3_decodes p opcode ext rm hc

theorem decodeAfterRm_decodes (p : Prefixes) (opcode modrm : Byte) (rm : String) {cursor : Nat}
    (hc : cursor ≤ code.length) :
    Decodes code.length (decodeAfterRm code p opcode modrm rm cursor)
      ((immAfterRm p opcode (regBits modrm)).map fun n => cursor + n) := by
  have plain (text : String) (h0 : immAfterRm p opcode (regBits modrm) = some 0) :
      Decodes code.length (pure (some (text, cursor)))
        ((immAfterRm p opcode (regBits modrm)).map fun n => cursor + n) := by
    rw [h0]
    exact endsAt_ok hc text
  rw [decodeAfterRm]
  refine decodes_ite (fun h => plain _ (h ▸ rfl)) (fun h1 => ?_)
  refine decodes_ite (fun h => plain _ (h ▸ rfl)) (fun h2 => ?_)
  refine decodes_ite (fun h => plain _ (h ▸ rfl)) (fun h3 => ?_)
  refine decodes_ite (fun h => plain _ (h ▸ rfl)) (fun h4 => ?_)
  refine decodes_ite (fun h => plain _ (h ▸ rfl)) (fun h5 => ?_)
  refine decodes_ite (fun h => plain _ (h ▸ rfl)) (fun h6 => ?_)
  refine decodes_ite (fun h => plain _ (h ▸ rfl)) (fun h7 => ?_)
  have hplain : [0x8D#8, 0x63#8, 0x89#8, 0x8B#8, 0x88#8, 0x8A#8, 0x85#8].contains opcode = false := by
    simp [h1, h2, h3, h4, h5, h6, h7]
  refine decodes_ite (fun h => ?_) (fun h8 => ?_)
  · rw [immAfterRm, hplain, if_neg Bool.false_ne_true, if_pos h]
    rw [Option.map_map]
    exact decodes_named (cursor + 1) fun name => decodeImm_endsAt name rm cursor 1
  rw [immAfterRm, hplain, if_neg Bool.false_ne_true, if_neg h8]
  cases harith : arithName opcode with
  | some entry =>
      obtain ⟨name, regDst⟩ := entry
      cases regDst
      · exact endsAt_ok hc _
      · exact endsAt_ok hc _
  | none =>
      rw [Option.isSome_none, if_neg Bool.false_ne_true]
      exact decodeExtension_decodes p opcode (regBits modrm) rm hc

theorem extDigit_drop {cursor : Nat} (h : cursor < code.length) :
    extDigit (code.drop cursor) = regBits code[cursor] := by
  rw [extDigit, List.drop_eq_getElem_cons h]
  rfl

theorem decodeModrm_decodes (p : Prefixes) (cursor : Nat) (opcode : Byte) :
    Decodes code.length (decodeModrm code p cursor opcode)
      ((immAfterRm p opcode (extDigit (code.drop cursor))).map fun n =>
        cursor + (rmLength (code.drop cursor) + n)) := by
  have hpos := rmLength_pos (code.drop cursor)
  refine fetchChecked_then _ ?_ fun hlt => ?_
  · intro hle n hn
    obtain ⟨m, -, rfl⟩ := Option.map_eq_some_iff.mp hn
    omega
  · rw [extDigit_drop hlt]
    refine decodes_afterRm _ fun text hfit => ?_
    simpa only [Nat.add_assoc] using decodeAfterRm_decodes p opcode code[cursor] text hfit

theorem decodeLongNop_decodes (p : Prefixes) (cursor : Nat) :
    Decodes code.length (decodeLongNop code p cursor)
      ((if extDigit (code.drop cursor) = 0 then some (rmLength (code.drop cursor)) else none).map
        fun n => cursor + n) := by
  have hpos := rmLength_pos (code.drop cursor)
  refine fetchChecked_then _ ?_ fun hlt => ?_
  · intro hle n hn
    obtain ⟨m, hm, rfl⟩ := Option.map_eq_some_iff.mp hn
    split at hm
    · cases hm
      omega
    · cases hm
  · rw [extDigit_drop hlt]
    by_cases h0 : regBits code[cursor] = 0
    · rw [if_pos h0, if_neg (not_not.mpr h0)]
      exact endsAt_afterRm fun rm => if modField code[cursor] = 3 then "nop" else "nop " ++ rm
    · rw [if_neg h0, if_pos h0]
      exact Or.inr rfl

theorem decodeBitTestImm_decodes (p : Prefixes) (cursor : Nat) :
    Decodes code.length (decodeBitTestImm code p cursor)
      (((bitTestName (extDigit (code.drop cursor))).map fun _ =>
        rmLength (code.drop cursor) + 1).map fun n => cursor + n) := by
  have hpos := rmLength_pos (code.drop cursor)
  refine fetchChecked_then _ ?_ fun hlt => ?_
  · intro hle n hn
    obtain ⟨m, hm, rfl⟩ := Option.map_eq_some_iff.mp hn
    obtain ⟨name, -, rfl⟩ := Option.map_eq_some_iff.mp hm
    omega
  · rw [extDigit_drop hlt]
    cases bitTestName (regBits code[cursor]) with
    | none => exact Or.inr rfl
    | some name =>
        refine decodes_afterRm (some 1) fun text hfit => ?_
        have h : EndsAt code.length _ _ :=
          decodeImm_endsAt name text (cursor + rmLength (code.drop cursor)) 1
        rw [Nat.add_assoc] at h
        exact h

theorem decodeRel32_endsAt (base : Word) (cursor : Nat) (name : String) :
    EndsAt code.length (decodeRel32 code base cursor name) (cursor + 4) :=
  readLe_then fun rel => branchText base name (cursor + 4) (BitVec.signExtend 64 rel)

theorem decodeRel8_endsAt (base : Word) (cursor : Nat) (name : String) :
    EndsAt code.length (decodeRel8 code base cursor name) (cursor + 1) :=
  fetchByte_then fun rel => branchText base name (cursor + 1) (rel.signExtend 64)

theorem decodeSetcc_endsAt (p : Prefixes) (cursor : Nat) (name : String) :
    EndsAt code.length (decodeSetcc code p cursor name) (cursor + rmLength (code.drop cursor)) :=
  endsAt_afterRm fun rm => name ++ " " ++ rm

theorem decodeTwoByte_decodes (base : Word) (p : Prefixes) {cursor : Nat}
    (hlt : cursor < code.length) :
    Decodes code.length (decodeTwoByte code base p cursor)
      ((twoByteTail code[cursor] (code.drop (cursor + 1))).map fun n => cursor + 1 + n) := by
  have rmForm {m : CheckedRead Body}
      (hm : EndsAt code.length m (cursor + 1 + rmLength (code.drop (cursor + 1))))
      (ht : twoByteTail code[cursor] (code.drop (cursor + 1)) =
        some (rmLength (code.drop (cursor + 1)))) :
      Decodes code.length m
        ((twoByteTail code[cursor] (code.drop (cursor + 1))).map fun n => cursor + 1 + n) := by
    rw [ht]
    exact hm
  rw [decodeTwoByte, fetchChecked_of_lt hlt, ok_bind]
  generalize code[cursor] = op2 at *
  refine decodes_ite (fun h => ?_) (fun h05 => ?_)
  · subst h
    exact endsAt_ok hlt "syscall"
  refine decodes_ite (fun h => ?_) (fun h1f => ?_)
  · subst h
    exact decodeLongNop_decodes p (cursor + 1)
  refine decodes_ite (fun h => ?_) (fun hjcc => ?_)
  · rw [twoByteTail, if_neg h05, if_neg h1f, if_pos h]
    exact decodeRel32_endsAt base (cursor + 1) _
  have hrm (h : (inRange 0x40 0x4F op2 || inRange 0x90 0x9F op2) = true) :
      twoByteTail op2 (code.drop (cursor + 1)) = some (rmLength (code.drop (cursor + 1))) := by
    rw [twoByteTail, if_neg h05, if_neg h1f, if_neg hjcc, if_pos (by rw [h, Bool.true_or])]
  refine decodes_ite (fun h => ?_) (fun hcmov => ?_)
  · exact rmForm (decodeRegRm_endsAt p _ _ _ _) (hrm (by rw [h, Bool.true_or]))
  refine decodes_ite (fun h => ?_) (fun hset => ?_)
  · exact rmForm (decodeSetcc_endsAt p _ _) (hrm (by rw [h, Bool.or_true]))
  refine decodes_ite (fun h => rmForm (decodeRegRm_endsAt p _ _ _ _) (h ▸ rfl)) (fun hb6 => ?_)
  refine decodes_ite (fun h => rmForm (decodeRegRm_endsAt p _ _ _ _) (h ▸ rfl)) (fun hb7 => ?_)
  refine decodes_ite (fun h => rmForm (decodeRegRm_endsAt p _ _ _ _) (h ▸ rfl)) (fun hbe => ?_)
  refine decodes_ite (fun h => rmForm (decodeRegRm_endsAt p _ _ _ _) (h ▸ rfl)) (fun hbf => ?_)
  refine decodes_ite (fun h => rmForm (decodeRegRm_endsAt p _ _ _ _) (h ▸ rfl)) (fun haf => ?_)
  refine decodes_ite (fun h => rmForm (decodeRegRm_endsAt p _ _ _ _) (h ▸ rfl)) (fun hbc => ?_)
  refine decodes_ite (fun h => rmForm (decodeRegRm_endsAt p _ _ _ _) (h ▸ rfl)) (fun hbd => ?_)
  refine decodes_ite (fun h => rmForm (decodeRmReg_endsAt p _ _ _) (h ▸ rfl)) (fun hc0 => ?_)
  refine decodes_ite (fun h => rmForm (decodeRmReg_endsAt p _ _ _) (h ▸ rfl)) (fun hc1 => ?_)
  refine decodes_ite (fun h => rmForm (decodeRmReg_endsAt p _ _ _) (h ▸ rfl)) (fun hb0 => ?_)
  refine decodes_ite (fun h => rmForm (decodeRmReg_endsAt p _ _ _) (h ▸ rfl)) (fun hb1 => ?_)
  refine decodes_ite (fun h => rmForm (decodeRmReg_endsAt p _ _ _) (h ▸ rfl)) (fun ha3 => ?_)
  refine decodes_ite (fun h => rmForm (decodeRmReg_endsAt p _ _ _) (h ▸ rfl)) (fun hab => ?_)
  refine decodes_ite (fun h => rmForm (decodeRmReg_endsAt p _ _ _) (h ▸ rfl)) (fun hb3 => ?_)
  refine decodes_ite (fun h => rmForm (decodeRmReg_endsAt p _ _ _) (h ▸ rfl)) (fun hbb => ?_)
  refine decodes_ite (fun h => ?_) (fun hba => ?_)
  · subst h
    exact decodeBitTestImm_decodes p (cursor + 1)
  · have hrest : ¬(inRange 0x40 0x4F op2 || inRange 0x90 0x9F op2 ||
        [0xB6#8, 0xB7#8, 0xBE#8, 0xBF#8, 0xAF#8, 0xBC#8, 0xBD#8, 0xC0#8, 0xC1#8, 0xB0#8, 0xB1#8,
          0xA3#8, 0xAB#8, 0xB3#8, 0xBB#8].contains op2) = true := by
      rw [Bool.not_eq_true] at hcmov hset
      rw [hcmov, hset]
      simp [hb6, hb7, hbe, hbf, haf, hbc, hbd, hc0, hc1, hb0, hb1, ha3, hab, hb3, hbb]
    rw [twoByteTail, if_neg h05, if_neg h1f, if_neg hjcc, if_neg hrest, if_neg hba]
    exact Or.inr rfl

theorem bodyLength_oneByte (p : Prefixes) {opcode : Byte} (h : opcode ≠ 0x0F#8) (bs : List Byte) :
    bodyLength p (opcode :: bs) = (oneByteTail p opcode bs).map fun n => n + 1 := by
  rw [bodyLength, if_neg h]

theorem decodes_oneByte {p : Prefixes} {opcode : Byte} {cursor : Nat} {m : CheckedRead Body}
    {bs : List Byte} {n : Nat} (h0f : opcode ≠ 0x0F#8) (ht : oneByteTail p opcode bs = some n)
    (hm : EndsAt code.length m (cursor + 1 + n)) :
    Decodes code.length m ((bodyLength p (opcode :: bs)).map fun n => cursor + n) := by
  rw [bodyLength_oneByte p h0f, ht]
  have hstop : cursor + 1 + n = cursor + (n + 1) := by omega
  rw [hstop] at hm
  exact hm

theorem decodes_twoByte (base : Word) (p : Prefixes) {cursor : Nat} (hlt : cursor < code.length) :
    Decodes code.length (decodeTwoByte code base p (cursor + 1))
      ((bodyLength p (0x0F#8 :: code.drop (cursor + 1))).map fun n => cursor + n) := by
  by_cases hlt2 : cursor + 1 < code.length
  · have h := decodeTwoByte_decodes base p hlt2
    rw [List.drop_eq_getElem_cons hlt2, bodyLength, if_pos rfl, twoByteBody, Option.map_map]
    have hstop : (fun n => cursor + 1 + 1 + n) = (fun n => cursor + n) ∘ fun n => n + 2 := by
      funext n
      simp only [Function.comp]
      omega
    rw [← hstop]
    exact h
  · rw [List.drop_of_length_le (by omega), decodeTwoByte, fetchChecked_of_le (by omega), error_bind]
    exact Or.inl rfl

theorem inRange_ne {lo hi b c : Byte} (h : inRange lo hi b = true) (hc : inRange lo hi c = false) :
    b ≠ c := by
  rintro rfl
  rw [h] at hc
  cases hc

theorem oneByteTail_of_not_plain (p : Prefixes) {opcode : Byte} {bs : List Byte}
    (hpush : ¬inRange 0x50 0x57 opcode = true) (hpop : ¬inRange 0x58 0x5F opcode = true)
    (h90 : opcode ≠ 0x90#8) (hc9 : opcode ≠ 0xC9#8) (hc3 : opcode ≠ 0xC3#8) :
    oneByteTail p opcode bs =
      if opcode = 0x6A#8 || inRange 0x70 0x7F opcode || opcode = 0xEB#8 then some 1
      else if [0x68#8, 0xE8#8, 0xE9#8].contains opcode then some 4
      else if inRange 0xB8 0xBF opcode then some (movImmSize p)
      else if hasModrm opcode then
        (immAfterRm p opcode (extDigit bs)).map fun n => rmLength bs + n
      else none := by
  have hplain : [0x90#8, 0xC9#8, 0xC3#8].contains opcode = false := by simp [h90, hc9, hc3]
  rw [Bool.not_eq_true] at hpush hpop
  rw [oneByteTail, hpush, hpop, hplain]
  rfl

theorem decodeBody_decodes (base : Word) (p : Prefixes) {cursor : Nat}
    (hlt : cursor < code.length) :
    Decodes code.length (decodeBody code base p code[cursor] (cursor + 1))
      ((bodyLength p (code.drop cursor)).map fun n => cursor + n) := by
  rw [List.drop_eq_getElem_cons hlt]
  generalize code[cursor] = opcode
  generalize hbs : code.drop (cursor + 1) = bs
  have plain (text : String) : EndsAt code.length (.ok (some (text, cursor + 1))) (cursor + 1 + 0) :=
    endsAt_ok hlt text
  rw [decodeBody]
  refine decodes_ite (fun h => ?_) (fun hpush => ?_)
  · refine decodes_oneByte (inRange_ne h rfl) ?_ (plain _)
    rw [oneByteTail, if_pos (by rw [h, Bool.true_or, Bool.true_or])]
  refine decodes_ite (fun h => ?_) (fun hpop => ?_)
  · refine decodes_oneByte (inRange_ne h rfl) ?_ (plain _)
    rw [oneByteTail, if_pos (by rw [h, Bool.or_true, Bool.true_or])]
  refine decodes_ite (fun h => ?_) (fun h6a => ?_)
  · subst h
    exact decodes_oneByte (by decide) rfl (fetchByte_then _)
  refine decodes_ite (fun h => ?_) (fun h68 => ?_)
  · subst h
    exact decodes_oneByte (by decide) rfl (readLe_then _)
  refine decodes_ite (fun h => ?_) (fun hjcc => ?_)
  · refine decodes_oneByte (inRange_ne h rfl) ?_ (decodeRel8_endsAt base (cursor + 1) _)
    rw [oneByteTail_of_not_plain p hpush hpop (inRange_ne h rfl) (inRange_ne h rfl)
      (inRange_ne h rfl), if_pos (by rw [h, Bool.or_true, Bool.true_or])]
  refine decodes_ite (fun h => ?_) (fun heb => ?_)
  · subst h
    exact decodes_oneByte (by decide) rfl (decodeRel8_endsAt base (cursor + 1) _)
  have hshort (hjcc : ¬inRange 0x70 0x7F opcode = true) :
      ¬(opcode = 0x6A#8 || inRange 0x70 0x7F opcode || opcode = 0xEB#8) = true := by
    rw [Bool.not_eq_true] at hjcc
    rw [hjcc]
    simp [h6a, heb]
  refine decodes_ite (fun h => ?_) (fun h90 => ?_)
  · subst h
    exact decodes_oneByte (by decide) rfl (plain _)
  refine decodes_ite (fun h => ?_) (fun hc9 => ?_)
  · subst h
    exact decodes_oneByte (by decide) rfl (plain _)
  refine decodes_ite (fun h => ?_) (fun h0f => ?_)
  · subst h hbs
    exact decodes_twoByte base p hlt
  refine decodes_ite (fun h => ?_) (fun hmov => ?_)
  · refine decodes_oneByte h0f ?_ (decodeImm_endsAt _ _ (cursor + 1) (movImmSize p))
    have hmovTail : [0x68#8, 0xE8#8, 0xE9#8].contains opcode = false := by
      simp [h68, inRange_ne h (c := 0xE8#8) rfl, inRange_ne h (c := 0xE9#8) rfl]
    rw [oneByteTail_of_not_plain p hpush hpop h90 hc9 (inRange_ne h rfl), if_neg (hshort hjcc),
      hmovTail, if_neg Bool.false_ne_true, if_pos h]
  refine decodes_ite (fun h => ?_) (fun he8 => ?_)
  · subst h
    exact decodes_oneByte (by decide) rfl (decodeRel32_endsAt base (cursor + 1) _)
  refine decodes_ite (fun h => ?_) (fun he9 => ?_)
  · subst h
    exact decodes_oneByte (by decide) rfl (decodeRel32_endsAt base (cursor + 1) _)
  refine decodes_ite (fun h => ?_) (fun hc3 => ?_)
  · subst h
    exact decodes_oneByte (by decide) rfl (plain _)
  have hrest : [0x68#8, 0xE8#8, 0xE9#8].contains opcode = false := by simp [h68, he8, he9]
  rw [bodyLength_oneByte p h0f, oneByteTail_of_not_plain p hpush hpop h90 hc9 hc3,
    if_neg (hshort hjcc), hrest, if_neg Bool.false_ne_true, if_neg hmov, Option.map_map]
  refine decodes_ite (fun h => ?_) (fun h => ?_)
  · rw [if_pos h, Option.map_map, ← hbs]
    have hstop : (fun n => cursor + 1 + (rmLength (code.drop (cursor + 1)) + n)) =
        ((fun n => cursor + n) ∘ fun n => n + 1) ∘
          fun n => rmLength (code.drop (cursor + 1)) + n := by
      funext n
      simp only [Function.comp]
      omega
    rw [← hstop]
    exact decodeModrm_decodes p (cursor + 1) opcode
  · rw [if_neg h]
    exact Or.inr rfl

def isPrefixByte (b : Byte) : Bool := b = 0x66#8 || isLegacyPrefix b || isRexByte b

def prefixCount (bs : List Byte) : Nat := (bs.takeWhile isPrefixByte).length

theorem scanPrefixes_cursor (p : Prefixes) (bs : List Byte) :
    (scanPrefixes p bs).cursor = p.cursor + prefixCount bs := by
  induction bs generalizing p with
  | nil => rfl
  | cons b bs ih =>
      rw [scanPrefixes, prefixCount]
      split
      · next h => simp [ih, isPrefixByte, h, prefixCount]; omega
      · split
        · next h => simp [ih, isPrefixByte, h, prefixCount]; omega
        · split
          · next h => simp [ih, isPrefixByte, h, prefixCount]; omega
          · next h₁ h₂ h₃ => simp [isPrefixByte, h₁, h₂, h₃]

/-- The length of the instruction at an offset, its prefixes included; `none` where the bytes
are no known form. -/
def instructionLength (code : List Byte) (start : Nat) : Option Nat :=
  let rest := code.drop start
  (bodyLength (scanPrefixes { cursor := start } rest) (rest.drop (prefixCount rest))).map
    fun n => prefixCount rest + n

theorem bodyLength_pos {p : Prefixes} {bs : List Byte} {n : Nat} (h : bodyLength p bs = some n) :
    0 < n := by
  cases bs with
  | nil => cases h
  | cons opcode bs =>
      rw [bodyLength] at h
      split at h
      · cases bs with
        | nil => cases h
        | cons op2 bs =>
            obtain ⟨m, -, rfl⟩ := Option.map_eq_some_iff.mp h
            omega
      · obtain ⟨m, -, rfl⟩ := Option.map_eq_some_iff.mp h
        omega

theorem decodeSpan_known (base : Word) {start n : Nat} (hs : start < code.length)
    (hn : instructionLength code start = some n) :
    (start + n ≤ code.length → ∃ text, decodeSpan code base start = .ok (some (text, start + n))) ∧
    (code.length < start + n → decodeSpan code base start = .error) := by
  obtain ⟨m, hm, rfl⟩ := Option.map_eq_some_iff.mp hn
  have hpos := bodyLength_pos hm
  rw [decodeSpan, guardThat, if_pos (by simpa using hs), ok_bind]
  simp only [scanPrefixes_cursor]
  generalize hp : scanPrefixes { cursor := start } (code.drop start) = p at *
  generalize prefixCount (code.drop start) = k at *
  rw [List.drop_drop] at hm
  by_cases hk : start + k < code.length
  · have hdec := decodeBody_decodes base p hk
    rw [hm] at hdec
    obtain ⟨hok, herr⟩ : EndsAt code.length _ (start + k + m) := hdec
    rw [fetchChecked_of_lt hk, ok_bind, ← Nat.add_assoc]
    exact ⟨hok, herr⟩
  · rw [fetchChecked_of_le (by omega), error_bind]
    exact ⟨fun hfit => absurd hfit (by omega), fun _ => rfl⟩

theorem decodeSpan_unknown (base : Word) {start : Nat} (hs : start < code.length)
    (hn : instructionLength code start = none) :
    decodeSpan code base start = .error ∨ decodeSpan code base start = .ok none := by
  have hm := Option.map_eq_none_iff.mp hn
  rw [decodeSpan, guardThat, if_pos (by simpa using hs), ok_bind]
  simp only [scanPrefixes_cursor]
  generalize scanPrefixes { cursor := start } (code.drop start) = p at *
  generalize prefixCount (code.drop start) = k at *
  rw [List.drop_drop] at hm
  by_cases hk : start + k < code.length
  · have hdec := decodeBody_decodes base p hk
    rw [hm] at hdec
    rw [fetchChecked_of_lt hk, ok_bind]
    exact hdec
  · rw [fetchChecked_of_le (by omega), error_bind]
    exact Or.inl rfl

/-- `decode_one` on a known form copies exactly its bytes, or fails when the buffer ends in
the middle of it; the copy of more than fifteen of them does not fit. -/
theorem decodeOne_known (base : Word) {start n : Nat} (hs : start < code.length)
    (hn : instructionLength code start = some n) :
    (start + n ≤ code.length → n ≤ disMaxInstBytes → ∃ text, decodeOne code base start =
      .ok { consumed := n, bytes := LittleEndian.slice code start n, text }) ∧
    (start + n ≤ code.length → disMaxInstBytes < n → decodeOne code base start = .overrun) ∧
    (code.length < start + n → decodeOne code base start = .error) := by
  obtain ⟨hok, herr⟩ := decodeSpan_known base hs hn
  rw [decodeOne]
  refine ⟨fun hfit hroom => ?_, fun hfit hroom => ?_, fun hlong => ?_⟩
  · obtain ⟨text, ht⟩ := hok hfit
    rw [ht, ok_bind, recordSpan]
    simp only [Nat.add_sub_cancel_left]
    rw [copyInto_of_le hroom hfit, ok_bind]
    exact ⟨text, rfl⟩
  · obtain ⟨text, ht⟩ := hok hfit
    rw [ht, ok_bind, recordSpan]
    simp only [Nat.add_sub_cancel_left]
    rw [copyInto_of_lt hroom, overrun_bind]
  · rw [herr hlong, error_bind]

theorem decodeOne_unknown (base : Word) {start : Nat} (hs : start < code.length)
    (hn : instructionLength code start = none) :
    decodeOne code base start = .error ∨ ∃ text, decodeOne code base start =
      .ok { consumed := 1, bytes := [code[start]], text } := by
  rw [decodeOne]
  rcases decodeSpan_unknown base hs hn with herr | hnone
  · rw [herr, error_bind]
    exact Or.inl rfl
  · rw [hnone, ok_bind, recordSpan, fetch_of_lt hs, ok_bind]
    exact Or.inr ⟨_, rfl⟩

theorem decodeOne_of_length_le (base : Word) {start : Nat} (hs : code.length ≤ start) :
    decodeOne code base start = .error := by
  rw [decodeOne, decodeSpan, guardThat, if_neg (by simpa using hs), error_bind, error_bind]

/-- No read past the end of the buffer, and no copy past the end of `out->bytes`. -/
def DecodeSafe (code : List Byte) (base : Word) (start : Nat) : Prop :=
  decodeOne code base start ≠ .fault ∧ decodeOne code base start ≠ .overrun ∧
    ∀ d, decodeOne code base start = .ok d → d.bytes.length ≤ disMaxInstBytes

/-- The whole instruction at an offset has at most fifteen bytes, when the buffer holds it. -/
def FitsRecord (code : List Byte) (start : Nat) : Prop :=
  ∀ n, instructionLength code start = some n → start + n ≤ code.length → n ≤ disMaxInstBytes

theorem decodeSafe_of_error {base : Word} {start : Nat} (h : decodeOne code base start = .error) :
    DecodeSafe code base start := by
  rw [DecodeSafe, h]
  refine ⟨?_, ?_, ?_⟩
  · exact fun hf => nomatch hf
  · exact fun ho => nomatch ho
  · exact fun d hd => nomatch hd

theorem decodeSafe_of_ok {base : Word} {start : Nat} {d : Decoded}
    (h : decodeOne code base start = .ok d) (hlen : d.bytes.length ≤ disMaxInstBytes) :
    DecodeSafe code base start := by
  rw [DecodeSafe, h]
  refine ⟨?_, ?_, ?_⟩
  · exact fun hf => nomatch hf
  · exact fun ho => nomatch ho
  · intro d' hd
    cases hd
    exact hlen

theorem decodeSafe_iff (base : Word) {start : Nat} (hs : start < code.length) :
    DecodeSafe code base start ↔ FitsRecord code start := by
  constructor
  · intro h n hn hfit
    by_contra hroom
    exact h.2.1 ((decodeOne_known base hs hn).2.1 hfit (Nat.lt_of_not_le hroom))
  · intro h
    cases hn : instructionLength code start with
    | none =>
        rcases decodeOne_unknown base hs hn with he | ⟨text, ht⟩
        · exact decodeSafe_of_error he
        · exact decodeSafe_of_ok ht (by simp [disMaxInstBytes])
    | some n =>
        obtain ⟨hok, -, herr⟩ := decodeOne_known base hs hn
        by_cases hfit : start + n ≤ code.length
        · have hroom := h n hn hfit
          obtain ⟨text, ht⟩ := hok hfit hroom
          refine decodeSafe_of_ok ht ?_
          simpa [LittleEndian.slice_length hfit] using hroom
        · exact decodeSafe_of_error (herr (by omega))

theorem hexByte_length : ∀ b : Byte, (hexByte b).length = 2 := by decide +kernel

theorem formatBytes_isSome {bs : List Byte} {pos : Nat}
    (h : pos + 3 * bs.length ≤ 3 * disMaxInstBytes) : ∃ s, formatBytes pos bs = some s := by
  induction bs generalizing pos with
  | nil => exact ⟨"", rfl⟩
  | cons b bs ih =>
      simp only [List.length_cons] at h
      have hcol : (if pos = 0 then hexByte b else " " ++ hexByte b).length ≤ 3 := by
        split
        · rw [hexByte_length]
          decide
        · rw [String.length_append, hexByte_length]
          decide
      have hroom : ¬bytesBufSize - pos ≤
          (if pos = 0 then hexByte b else " " ++ hexByte b).length := by
        rw [bytesBufSize]
        omega
      obtain ⟨s, hs⟩ := @ih (pos + (if pos = 0 then hexByte b else " " ++ hexByte b).length)
        (by omega)
      rw [formatBytes, if_neg hroom, hs]
      exact ⟨_, rfl⟩

theorem disassembleLoop_of_safe (base : Word) (h : ∀ start < code.length, DecodeSafe code base start)
    (rounds offset : Nat) : ∃ lines, disassembleLoop code base rounds offset = .ok (true, lines) := by
  induction rounds generalizing offset with
  | zero => exact ⟨[], rfl⟩
  | succ rounds ih =>
      rw [disassembleLoop]
      by_cases hlt : offset < code.length
      · rw [if_pos hlt]
        have hline : ∃ line, dataLine code base offset = .ok line := by
          rw [dataLine, fetch_of_lt hlt, ok_bind]
          exact ⟨_, rfl⟩
        obtain ⟨line, hline⟩ := hline
        obtain ⟨lines, hlines⟩ := ih (offset + 1)
        obtain ⟨hfault, hover, hlen⟩ := h offset hlt
        cases hd : decodeOne code base offset with
        | fault => exact absurd hd hfault
        | overrun => exact absurd hd hover
        | error =>
            simp only [hline, ok_bind, hlines]
            exact ⟨_, rfl⟩
        | ok inst =>
            by_cases h0 : inst.consumed = 0
            · simp only [if_pos h0, hline, ok_bind, hlines]
              exact ⟨_, rfl⟩
            · have hb := hlen inst hd
              have hroom : 0 + 3 * inst.bytes.length ≤ 3 * disMaxInstBytes := by omega
              obtain ⟨s, hs⟩ := formatBytes_isSome hroom
              obtain ⟨lines, hlines⟩ := ih (offset + inst.consumed)
              simp only [if_neg h0, hs, hlines, ok_bind]
              exact ⟨_, rfl⟩
      · rw [if_neg hlt]
        exact ⟨[], rfl⟩

theorem decodeOne_ne_fault (code : List Byte) (base : Word) (start : Nat) :
    decodeOne code base start ≠ .fault := by
  by_cases hs : start < code.length
  · cases hn : instructionLength code start with
    | none =>
        rcases decodeOne_unknown base hs hn with he | ⟨text, ht⟩
        · rw [he]
          exact fun hf => nomatch hf
        · rw [ht]
          exact fun hf => nomatch hf
    | some n =>
        obtain ⟨hok, hover, herr⟩ := decodeOne_known base hs hn
        by_cases hfit : start + n ≤ code.length
        · by_cases hroom : n ≤ disMaxInstBytes
          · obtain ⟨text, ht⟩ := hok hfit hroom
            rw [ht]
            exact fun hf => nomatch hf
          · rw [hover hfit (Nat.lt_of_not_le hroom)]
            exact fun hf => nomatch hf
        · rw [herr (by omega)]
          exact fun hf => nomatch hf
  · rw [decodeOne_of_length_le base (Nat.le_of_not_lt hs)]
    exact fun hf => nomatch hf

def DisassemblerSafe (code : List Byte) (base : Word) : Prop :=
  (∀ start < code.length, DecodeSafe code base start) ∧
    ∃ lines, disassembleCodeBuffer code base = .ok (true, lines)

/-- The decoder is safe on a buffer exactly when no instruction in it, with the run of
prefixes in front of it, is longer than the record that takes its bytes. -/
theorem disassemblerSafe_iff (code : List Byte) (base : Word) :
    DisassemblerSafe code base ↔ ∀ start < code.length, FitsRecord code start := by
  constructor
  · exact fun h start hs => (decodeSafe_iff base hs).mp (h.1 start hs)
  · intro h
    have hsafe : ∀ start < code.length, DecodeSafe code base start :=
      fun start hs => (decodeSafe_iff base hs).mpr (h start hs)
    exact ⟨hsafe, disassembleLoop_of_safe base hsafe code.length 0⟩

/-- Fifteen operand-size prefixes in front of a `nop` are read as a form of sixteen bytes, whose
copy ends the listing. -/
theorem disassembler_overlong_nop :
    decodeSpan (List.replicate 15 0x66#8 ++ [0x90#8]) 0x400000 0 = .ok (some ("nop", 16)) ∧
      decodeOne (List.replicate 15 0x66#8 ++ [0x90#8]) 0x400000 0 = .overrun ∧
      disassembleCodeBuffer (List.replicate 15 0x66#8 ++ [0x90#8]) 0x400000 = .overrun ∧
      ¬DisassemblerSafe (List.replicate 15 0x66#8 ++ [0x90#8]) 0x400000 := by
  have hlisting :
      disassembleCodeBuffer (List.replicate 15 0x66#8 ++ [0x90#8]) 0x400000 = .overrun := by
    decide +kernel
  refine ⟨by decide +kernel, by decide +kernel, hlisting, ?_⟩
  rintro ⟨-, lines, hlines⟩
  rw [hlisting] at hlines
  cases hlines

end X86Assembler
