import X86Assembler.Library.Cells
import X86Assembler.Library.JsonString

namespace X86Assembler.JsonEscape

open CString (Byte str)
open JsonString

/-- `"0123456789abcdef"[n]`. -/
def hexChar (n : Nat) : Byte := (str "0123456789abcdef").getD n 0

/-- The loop over `in`, which ends with its NUL; `out` and `j` are the cells. -/
def escapeLoop (outSize : Nat) : List Byte → Cells → Cells
  | [], out => out
  | c :: input, out =>
    if out.len + 1 < outSize then
      if c = 0x22 ∨ c = 0x5C then
        if out.len + 2 ≥ outSize then out
        else escapeLoop outSize input ((out.put 0x5C).put c)
      else if c < 0x20 then
        if out.len + 6 ≥ outSize then out
        else
          let out := (((out.put 0x5C).put 0x75).put 0x30).put 0x30
          escapeLoop outSize input
            ((out.put (hexChar (c >>> 4).toNat)).put (hexChar (c &&& 0x0F).toNat))
      else escapeLoop outSize input (out.put c)
    else out

/-- The number returned and the memory from `out` on. -/
def jsonEscapeString (input : List Byte) (out : Nat → Byte) (outSize : Nat) :
    Nat × (Nat → Byte) :=
  let m := escapeLoop outSize input ⟨out, 0⟩
  (m.len,
    if m.len < outSize then Function.update m.bytes m.len 0
    else if outSize > 0 then Function.update m.bytes (outSize - 1) 0
    else m.bytes)

def escapeByte (c : Byte) : List Byte :=
  if c = 0x22 ∨ c = 0x5C then [0x5C, c]
  else if c < 0x20 then
    [0x5C, 0x75, 0x30, 0x30, hexChar (c >>> 4).toNat, hexChar (c &&& 0x0F).toNat]
  else [c]

theorem escapeLoop_cons (outSize : Nat) (c : Byte) (input : List Byte) (out : Cells) :
    escapeLoop outSize (c :: input) out =
      if out.len + (escapeByte c).length < outSize then
        escapeLoop outSize input (out.putAll (escapeByte c))
      else out := by
  rw [escapeLoop, escapeByte]
  by_cases hshort : c = 0x22 ∨ c = 0x5C
  · rw [if_pos hshort, if_pos hshort]
    by_cases hroom : out.len + 2 < outSize
    · rw [if_pos (by omega), if_neg (by omega)]
      exact (if_pos hroom).symm
    · rw [if_pos (by omega : out.len + 2 ≥ outSize), ite_self]
      exact (if_neg hroom).symm
  · rw [if_neg hshort, if_neg hshort]
    by_cases hcontrol : c < 0x20
    · rw [if_pos hcontrol, if_pos hcontrol]
      by_cases hroom : out.len + 6 < outSize
      · rw [if_pos (by omega), if_neg (by omega)]
        exact (if_pos hroom).symm
      · rw [if_pos (by omega : out.len + 6 ≥ outSize), ite_self]
        exact (if_neg hroom).symm
    · rw [if_neg hcontrol, if_neg hcontrol]
      rfl

theorem hexValue_hexChar : ∀ c : Byte, hexValue (hexChar (c >>> 4).toNat) = some (c.toNat / 16) ∧
    hexValue (hexChar (c &&& 0x0F).toNat) = some (c.toNat % 16) := by
  decide +kernel

theorem item_escapeByte (c : Byte) (text : List Byte) :
    item (escapeByte c ++ text) = some ([c], text) := by
  rw [escapeByte]
  by_cases hshort : c = 0x22 ∨ c = 0x5C
  · have hescape : shortEscape c = some c := by
      rcases hshort with rfl | rfl <;> rfl
    rw [if_pos hshort]
    exact item_short hescape text
  · rw [if_neg hshort]
    rw [not_or] at hshort
    by_cases hcontrol : c < 0x20
    · rw [if_pos hcontrol]
      have hlt : c.toNat < 0x20 := BitVec.lt_def.mp hcontrol
      obtain ⟨hhigh, hlow⟩ := hexValue_hexChar c
      have hzero : hexValue 0x30 = some 0 := rfl
      have hitem := item_unicode (v := c.toNat) hzero hzero hhigh hlow (by omega) (by omega) text
      have hencode : Utf8.encode c.toNat = [c] := by
        rw [Utf8.encode_one (by omega), Utf8.eq_lead rfl]
      rw [hencode] at hitem
      exact hitem
    · rw [if_neg hcontrol]
      have hle : 0x20 ≤ c.toNat := by
        rw [BitVec.lt_def] at hcontrol
        exact Nat.le_of_not_lt hcontrol
      exact item_plain hshort.1 hshort.2 hle text

theorem escapeByte_ne_nil (c : Byte) : 0 < (escapeByte c).length := by
  rw [escapeByte]
  split_ifs <;> exact Nat.succ_pos _

theorem decode_escaped (input : List Byte) : decode (input.flatMap escapeByte) = some input := by
  induction input with
  | nil => exact decode_nil
  | cons c input ih =>
      have hpos := escapeByte_ne_nil c
      rw [List.flatMap_cons, decode_item (item_escapeByte c _), ih]
      · rfl
      · rw [List.length_append]
        omega

/-- The loop writes the escaped form of a beginning of the input, the whole where it fits. -/
theorem escapeLoop_eq {outSize : Nat} (input : List Byte) {out : Cells} (h : out.len < outSize) :
    ∃ k, escapeLoop outSize input out = out.putAll ((input.take k).flatMap escapeByte) ∧
      out.len + ((input.take k).flatMap escapeByte).length < outSize ∧
      (out.len + (input.flatMap escapeByte).length < outSize → input.take k = input) := by
  induction input generalizing out with
  | nil => exact ⟨0, rfl, h, fun _ => rfl⟩
  | cons c input ih =>
      rw [escapeLoop_cons]
      by_cases hroom : out.len + (escapeByte c).length < outSize
      · rw [if_pos hroom]
        obtain ⟨k, hrun, hfits, hwhole⟩ :=
          @ih (out.putAll (escapeByte c)) (by rwa [Cells.putAll_len])
        rw [Cells.putAll_len] at hfits hwhole
        refine ⟨k + 1, ?_, ?_, ?_⟩
        · rw [hrun, List.take_succ_cons, List.flatMap_cons, Cells.putAll_append]
        · rw [List.take_succ_cons, List.flatMap_cons, List.length_append]
          omega
        · intro hlen
          rw [List.flatMap_cons, List.length_append] at hlen
          rw [List.take_succ_cons, hwhole (by omega)]
      · rw [if_neg hroom]
        refine ⟨0, rfl, h, ?_⟩
        intro hlen
        rw [List.flatMap_cons, List.length_append] at hlen
        omega

/-- What the escaping of a string does to the memory behind `out`. -/
structure Escapes (input : List Byte) (out : Nat → Byte) (outSize : Nat) (size : Nat)
    (out' : Nat → Byte) : Prop where
  /-- Nothing is written behind the array. -/
  within : ∀ i, outSize ≤ i → out' i = out i
  /-- The NUL at the number returned. -/
  terminated : size < outSize ∧ out' size = 0
  /-- The output is the body of a JSON string, of a beginning of the input. -/
  reads : ∃ k, decode ((List.range size).map out') = some (input.take k) ∧
    ((input.flatMap escapeByte).length < outSize → input.take k = input)

theorem jsonEscapeString_escapes (input : List Byte) (out : Nat → Byte) {outSize : Nat}
    (h : 1 ≤ outSize) :
    Escapes input out outSize (jsonEscapeString input out outSize).1
      (jsonEscapeString input out outSize).2 := by
  obtain ⟨k, hrun, hfits, hwhole⟩ := @escapeLoop_eq outSize input ⟨out, 0⟩ h
  generalize hbs : (input.take k).flatMap escapeByte = bs at hrun hfits
  have hlen : (escapeLoop outSize input ⟨out, 0⟩).len = bs.length := by
    rw [hrun, Cells.putAll_len]
    exact Nat.zero_add _
  change 0 + bs.length < outSize at hfits
  rw [Nat.zero_add] at hfits
  have hmemory : (jsonEscapeString input out outSize).2 =
      Function.update (Cells.putAll ⟨out, 0⟩ bs).bytes bs.length 0 := by
    rw [jsonEscapeString]
    simp only [hlen]
    rw [if_pos hfits, hrun]
  have hsize : (jsonEscapeString input out outSize).1 = bs.length := hlen
  rw [hmemory, hsize]
  refine ⟨?_, ⟨hfits, Function.update_self _ _ _⟩, k, ?_, ?_⟩
  · intro i hi
    rw [Function.update_of_ne (by omega)]
    apply Cells.putAll_bytes
    right
    change 0 + bs.length ≤ i
    omega
  · have hwritten : (List.range bs.length).map
        (Function.update (Cells.putAll ⟨out, 0⟩ bs).bytes bs.length 0) = bs := by
      have hbetween := Cells.putAll_between ⟨out, 0⟩ bs
      change Cells.between _ 0 (0 + bs.length) = bs at hbetween
      rw [Nat.zero_add, Cells.between, Nat.sub_zero] at hbetween
      rw [List.range_eq_range']
      refine Eq.trans ?_ hbetween
      apply List.map_congr_left
      intro i hi
      rw [List.mem_range'_1] at hi
      exact Function.update_of_ne (by omega) _ _
    rw [hwritten, ← hbs, decode_escaped]
  · intro hlen
    apply hwhole
    change 0 + _ < outSize
    rwa [Nat.zero_add]

theorem jsonEscapeString_escapes_cut :
    1 ≤ 4 ∧ Escapes [0x61#8, 0x22#8, 0x62#8] (fun _ => 0xFF#8) 4
      (jsonEscapeString [0x61#8, 0x22#8, 0x62#8] (fun _ => 0xFF#8) 4).1
      (jsonEscapeString [0x61#8, 0x22#8, 0x62#8] (fun _ => 0xFF#8) 4).2 :=
  ⟨by decide, jsonEscapeString_escapes _ _ (by decide)⟩

end X86Assembler.JsonEscape
