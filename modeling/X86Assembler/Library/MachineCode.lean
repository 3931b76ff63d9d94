import Mathlib.Data.List.TakeWhile
import X86Assembler.Library.CString

namespace X86Assembler.MachineCode

open CString (Byte)

/-- The prefixes that may stand in front of a REX prefix: segment, operand and address size,
lock and repeat. -/
def isLegacyPrefix (b : Byte) : Bool :=
  b ∈ [0x26#8, 0x2E, 0x36, 0x3E, 0x64, 0x65, 0x66, 0x67, 0xF0, 0xF2, 0xF3]

def isRex (b : Byte) : Bool := b &&& 0xF0#8 == 0x40#8

def afterLegacy (bs : List Byte) : List Byte := bs.dropWhile isLegacyPrefix

def rexOf (bs : List Byte) : Option Byte := (afterLegacy bs).head?.filter isRex

def opcodeOn (bs : List Byte) : List Byte :=
  if (rexOf bs).isSome then (afterLegacy bs).tail else afterLegacy bs

structure Prefixed (bs : List Byte) (rex : Option Byte) (rest : List Byte) : Prop where
  rex : rexOf bs = rex
  rest : opcodeOn bs = rest

def isOpcode (b : Byte) : Bool := !isLegacyPrefix b && !isRex b

theorem afterLegacy_append {legacy rest : List Byte} (hlegacy : legacy.all isLegacyPrefix = true)
    (hrest : ∀ b ∈ rest.head?, isLegacyPrefix b = false) : afterLegacy (legacy ++ rest) = rest := by
  rw [afterLegacy, List.dropWhile_append_of_pos (List.all_eq_true.mp hlegacy)]
  cases rest with
  | nil => rfl
  | cons b rest => exact List.dropWhile_cons_of_neg (by simp [hrest b rfl])

theorem rex_not_legacy {b : Byte} (h : isRex b = true) : isLegacyPrefix b = false := by
  have hall : ∀ b : Byte, isRex b = true → isLegacyPrefix b = false := by decide +kernel
  exact hall b h

theorem prefixed_append {legacy rest : List Byte} {rex : Option Byte} {b : Byte}
    (hlegacy : legacy.all isLegacyPrefix = true) (hrex : ∀ p ∈ rex, isRex p = true)
    (hb : isOpcode b = true) : Prefixed (legacy ++ (rex.toList ++ b :: rest)) rex (b :: rest) := by
  obtain ⟨hnot, hnotRex⟩ : isLegacyPrefix b = false ∧ isRex b = false := by
    simpa [isOpcode] using hb
  cases rex with
  | none =>
      have hafter : afterLegacy (legacy ++ b :: rest) = b :: rest := by
        apply afterLegacy_append hlegacy
        rintro c hc
        cases hc
        exact hnot
      have hnone : rexOf (legacy ++ b :: rest) = none := by
        rw [rexOf, hafter]
        simp [hnotRex]
      refine ⟨hnone, ?_⟩
      rw [opcodeOn, Option.toList_none, List.nil_append, hnone, hafter]
      rfl
  | some p =>
      have hp := hrex p rfl
      have hafter : afterLegacy (legacy ++ p :: b :: rest) = p :: b :: rest := by
        apply afterLegacy_append hlegacy
        rintro c hc
        cases hc
        exact rex_not_legacy hp
      have hsome : rexOf (legacy ++ p :: b :: rest) = some p := by
        rw [rexOf, hafter]
        simp [hp]
      refine ⟨hsome, ?_⟩
      rw [opcodeOn, Option.toList_some, List.singleton_append, hsome, hafter]
      rfl

def rexBit (rex : Option Byte) (i : Nat) : Nat :=
  if rex.any fun b => b.getLsbD i then 8 else 0

/-- The numbers four to seven of a byte register stand for the high bytes without a REX prefix. -/
def isHighByte (rex : Option Byte) (number : Nat) : Bool := rex.isNone && 4 ≤ number && number < 8

end X86Assembler.MachineCode
