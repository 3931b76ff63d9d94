import Mathlib.Logic.Relation
import X86Assembler.Library.InstructionStream

namespace X86Assembler

namespace PrefixCode

variable {α ι : Type} {read : List α → Option ι}

/-- A word of the text at an offset, and the offset behind it. -/
def WordAt (read : List α → Option ι) (text : List α) (offset : Nat) (i : ι) (next : Nat) : Prop :=
  ∃ word rest, text.drop offset = word ++ rest ∧ read word = some i ∧ next = offset + word.length

theorem Spells.front (hfree : PrefixFree read) {word rest : List α} {i j : ι} {js : List ι}
    (hi : read word = some i) {bs : List α} (hjs : Spells read bs (j :: js))
    {more : List α} (htext : bs ++ more = word ++ rest) :
    i = j ∧ ∃ tail, bs = word ++ tail ∧ rest = tail ++ more ∧ Spells read tail js := by
  cases hjs with
  | @cons word' rest' _ _ hj hrest =>
      rw [List.append_assoc] at htext
      obtain ⟨rfl, htail⟩ := hfree.word_eq hj hi htext
      cases hi.symm.trans hj
      exact ⟨rfl, rest', rfl, htail.symm, hrest⟩

theorem WordAt.lt (hfree : PrefixFree read) {text : List α} {offset next : Nat} {i : ι}
    (h : WordAt read text offset i next) : offset < text.length := by
  obtain ⟨word, rest, htext, hi, -⟩ := h
  by_contra hge
  rw [List.drop_eq_nil_of_le (Nat.le_of_not_lt hge)] at htext
  exact hfree.ne_nil hi (List.append_eq_nil_iff.mp htext.symm).1

end PrefixCode

namespace MachineCode

open CString (Byte)
open PrefixCode (WordAt)

def endsFlow : AnyInstruction → Bool
  | .inr ⟨.jmp, _⟩ | .inr ⟨.jmpTo, _⟩ | .inr ⟨.ret, _⟩ | .inr ⟨.sysret, _⟩ => true
  | _ => false

/-- The distance of a direct jump or call from the end of the instruction. -/
def displacementOf : AnyInstruction → Option (BitVec 64)
  | .inr ⟨.jmp, [.imm d]⟩ | .inr ⟨.jcc _, [.imm d]⟩ | .inr ⟨.call, [.imm d]⟩ => some (BitVec.ofNat 64 d)
  | _ => none

/-- A step of the processor that is known from the text alone: to the next instruction, or along a
direct jump or call. The text begins at `base`. -/
inductive DirectStep (base : BitVec 64) (text : List Byte) : BitVec 64 → BitVec 64 → Prop
  | next {offset next : Nat} {j : AnyInstruction} :
      WordAt anyInstructionOf text offset j next → endsFlow j = false →
      DirectStep base text (base + BitVec.ofNat 64 offset) (base + BitVec.ofNat 64 next)
  | branch {offset next : Nat} {j : AnyInstruction} {d : BitVec 64} :
      WordAt anyInstructionOf text offset j next → displacementOf j = some d →
      DirectStep base text (base + BitVec.ofNat 64 offset) (base + BitVec.ofNat 64 next + d)

/-- The addresses that control comes to from one address by these steps. -/
def Reaches (base : BitVec 64) (text : List Byte) : BitVec 64 → BitVec 64 → Prop :=
  Relation.ReflTransGen (DirectStep base text)

/-- A set of offsets that no step leaves, where the text is short enough for the addresses. -/
theorem Reaches.stays {base : BitVec 64} {text : List Byte} (hlen : text.length < 2 ^ 64)
    {S : Nat → Prop} (hin : ∀ offset, S offset → offset ≤ text.length)
    (hnext : ∀ offset j next, S offset → WordAt anyInstructionOf text offset j next → S next)
    (hbranch : ∀ offset j next d, S offset → WordAt anyInstructionOf text offset j next →
      displacementOf j = some d → ∃ target, S target ∧
        base + BitVec.ofNat 64 next + d = base + BitVec.ofNat 64 target)
    {offset : Nat} (hstart : S offset) {a : BitVec 64}
    (h : Reaches base text (base + BitVec.ofNat 64 offset) a) :
    ∃ offset', S offset' ∧ a = base + BitVec.ofNat 64 offset' := by
  have hsame : ∀ {m n : Nat}, m ≤ text.length → n < text.length →
      base + BitVec.ofNat 64 m = base + BitVec.ofNat 64 n → m = n := by
    intro m n hm hn heq
    have hnat := congrArg BitVec.toNat ((BitVec.add_right_inj _).mp heq)
    rwa [BitVec.toNat_ofNat, BitVec.toNat_ofNat, Nat.mod_eq_of_lt (by omega),
      Nat.mod_eq_of_lt (by omega)] at hnat
  induction h with
  | refl => exact ⟨offset, hstart, rfl⟩
  | @tail b c _ hstep ih =>
      obtain ⟨m, hm, rfl⟩ := ih
      generalize hb : base + BitVec.ofNat 64 m = b at hstep
      cases hstep with
      | next hword _ =>
          cases hsame (hin m hm) (hword.lt prefixFree_anyInstructionOf) hb
          exact ⟨_, hnext _ _ _ hm hword, rfl⟩
      | branch hword hd =>
          cases hsame (hin m hm) (hword.lt prefixFree_anyInstructionOf) hb
          exact hbranch _ _ _ _ hm hword hd

end MachineCode

end X86Assembler
