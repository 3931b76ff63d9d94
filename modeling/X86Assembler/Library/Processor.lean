import X86Assembler.Library.InstructionFlow

namespace X86Assembler.MachineCode

open CString (Byte)

/-- What is left of an address once the instruction is fetched: registers, and a number that has the
address behind the instruction in it where that counts. -/
structure Place where
  base : Option Nat
  index : Option (Nat × Nat)
  offset : BitVec 64
deriving DecidableEq

inductive Value
  | reg (width number : Nat)
  | high (number : Nat)
  | xmm (number : Nat)
  | mem (width : Nat) (place : Place)
  | imm (value : Nat)
deriving DecidableEq

/-- An operation on such operands; an operation on XMM registers knows its widths. -/
inductive Action
  | general (op : Operation) (values : List Value)
  | sse (op : SseOperation) (values : List Value)
  | further (op : FurtherOperation) (values : List Value)
deriving DecidableEq

/-- `next` is the address behind the instruction. -/
def Address.place (next : BitVec 64) (a : Address) : Place where
  base := a.base
  index := a.index
  offset := a.displacement.signExtend 64 + if a.ripRelative then next else 0

def Arg.value (next : BitVec 64) : Arg → Value
  | .reg width number => .reg width number
  | .high number => .high number
  | .mem width a => .mem width (a.place next)
  | .imm value => .imm value

def SseArg.value (next : BitVec 64) : SseArg → Value
  | .xmm number => .xmm number
  | .mem a => .mem 128 (a.place next)

def actionOf (next : BitVec 64) : AnyInstruction → Action
  | .inl (.inl i) => .general i.op (i.args.map (Arg.value next))
  | .inl (.inr i) => .sse i.op [i.dst.value next, i.src.value next]
  | .inr i => .further i.op (i.args.map (Arg.value next))

/-- A processor, whatever it does with its state, which has all of its memory but the text that it
runs. `act` gives the state behind an instruction and where control goes, `branch` for a direct jump
or call whether it is taken. -/
structure Processor (σ : Type) where
  act : Action → BitVec 64 → σ → Option (σ × BitVec 64)
  branch : FurtherOperation → BitVec 64 → σ → Option (σ × Bool)
  nop : ∀ next s, act (.general .nop []) next s = some (s, next)
  /-- Writing 32 bits of a register clears the others. -/
  movNumber : ∀ n v, act (.general .mov [.reg 32 n, .imm v]) = act (.general .mov [.reg 64 n, .imm v])
  xchgSwap : ∀ a b, act (.general .xchg [a, b]) = act (.general .xchg [b, a])

abbrev Memory := BitVec 64 → Option Byte

def Memory.Holds (m : Memory) (a : BitVec 64) (bs : List Byte) : Prop :=
  ∀ k (h : k < bs.length), m (a + BitVec.ofNat 64 k) = some bs[k]

/-- The instruction at an address, and the address behind it. -/
def Memory.Fetches (m : Memory) (a : BitVec 64) (i : AnyInstruction) (next : BitVec 64) : Prop :=
  ∃ word, anyInstructionOf word = some i ∧ m.Holds a word ∧ next = a + BitVec.ofNat 64 word.length

/-- The operation of a direct jump or call, with its distance. -/
def directBranch : AnyInstruction → Option (FurtherOperation × BitVec 64)
  | .inr i => (displacementOf (.inr i)).map (i.op, ·)
  | _ => none

section Steps

variable {σ : Type} (p : Processor σ) (m : Memory)

inductive Step : BitVec 64 × σ → BitVec 64 × σ → Prop
  | act {a next a' : BitVec 64} {s s' : σ} {i : AnyInstruction} : m.Fetches a i next →
      directBranch i = none → p.act (actionOf next i) next s = some (s', a') → Step (a, s) (a', s')
  | branch {a next d : BitVec 64} {s s' : σ} {i : AnyInstruction} {op : FurtherOperation}
      {taken : Bool} : m.Fetches a i next → directBranch i = some (op, d) →
      p.branch op next s = some (s', taken) → Step (a, s) (if taken then next + d else next, s')

def Runs : BitVec 64 × σ → BitVec 64 × σ → Prop := Relation.ReflTransGen (Step p m)

end Steps

namespace Memory

variable {m : Memory} {a : BitVec 64}

theorem holds_append {bs cs : List Byte} :
    m.Holds a (bs ++ cs) ↔ m.Holds a bs ∧ m.Holds (a + BitVec.ofNat 64 bs.length) cs := by
  constructor
  · intro h
    constructor
    · intro k hk
      rw [h k (by rw [List.length_append]; omega), List.getElem_append_left hk]
    · intro k hk
      have hlen : bs.length + k < (bs ++ cs).length := by rw [List.length_append]; omega
      have hbyte := h (bs.length + k) hlen
      rw [List.getElem_append_right (by omega), BitVec.ofNat_add, ← BitVec.add_assoc] at hbyte
      simpa only [Nat.add_sub_cancel_left] using hbyte
  · rintro ⟨hfront, hback⟩ k hk
    rw [List.length_append] at hk
    by_cases hlt : k < bs.length
    · rw [hfront k hlt, List.getElem_append_left hlt]
    · have hbyte := hback (k - bs.length) (by omega)
      rw [BitVec.add_assoc, ← BitVec.ofNat_add, Nat.add_sub_cancel' (by omega)] at hbyte
      rw [hbyte, List.getElem_append_right (by omega)]

theorem Holds.get {bs cs : List Byte} (hb : m.Holds a bs) (hc : m.Holds a cs) (hle : bs.length ≤ cs.length) :
    cs = bs ++ cs.drop bs.length := by
  have hfront : cs.take bs.length = bs := by
    apply List.ext_getElem
    · rw [List.length_take, Nat.min_eq_left hle]
    · intro k hk hk'
      rw [List.getElem_take]
      exact Option.some.inj ((hc k (by omega)).symm.trans (hb k hk'))
  calc cs = cs.take bs.length ++ cs.drop bs.length := (List.take_append_drop _ _).symm
    _ = bs ++ cs.drop bs.length := by rw [hfront]

theorem Fetches.unique {i j : AnyInstruction} {next next' : BitVec 64} (hi : m.Fetches a i next)
    (hj : m.Fetches a j next') : i = j ∧ next = next' := by
  obtain ⟨word, hword, hholds, rfl⟩ := hi
  obtain ⟨word', hword', hholds', rfl⟩ := hj
  have hsame : word = word' := by
    rcases Nat.le_total word.length word'.length with hle | hle
    · have htext := hholds.get hholds' hle
      have heq : word' ++ [] = word ++ word'.drop word.length := by rw [List.append_nil, ← htext]
      exact (prefixFree_anyInstructionOf.word_eq hword' hword heq).1.symm
    · have htext := hholds'.get hholds hle
      have heq : word ++ [] = word' ++ word.drop word'.length := by rw [List.append_nil, ← htext]
      exact (prefixFree_anyInstructionOf.word_eq hword hword' heq).1
  subst hsame
  exact ⟨Option.some.inj (hword.symm.trans hword'), rfl⟩

end Memory

section Determinism

variable {σ : Type} {p : Processor σ} {m : Memory}

theorem Step.unique {c d d' : BitVec 64 × σ} (h : Step p m c d) (h' : Step p m c d') : d = d' := by
  cases h with
  | act hfetch hno hact =>
      cases h' with
      | act hfetch' _ hact' =>
          obtain ⟨rfl, rfl⟩ := hfetch.unique hfetch'
          cases hact.symm.trans hact'
          rfl
      | branch hfetch' hd' _ =>
          obtain ⟨rfl, -⟩ := hfetch.unique hfetch'
          cases hno.symm.trans hd'
  | branch hfetch hd hbranch =>
      cases h' with
      | act hfetch' hno' _ =>
          obtain ⟨rfl, -⟩ := hfetch.unique hfetch'
          cases hno'.symm.trans hd
      | branch hfetch' hd' hbranch' =>
          obtain ⟨rfl, rfl⟩ := hfetch.unique hfetch'
          cases hd.symm.trans hd'
          cases hbranch.symm.trans hbranch'
          rfl

theorem Runs.total {c d d' : BitVec 64 × σ} (h : Runs p m c d) (h' : Runs p m c d') :
    Runs p m d d' ∨ Runs p m d' d :=
  Relation.ReflTransGen.total_of_right_unique (fun _ _ _ => Step.unique) h h'

end Determinism

section Stretches

variable {σ : Type} (p : Processor σ) {m : Memory}

theorem runs_act {a : BitVec 64} {word : List Byte} {i : AnyInstruction} {s s' : σ} {a' : BitVec 64}
    (hword : anyInstructionOf word = some i) (hholds : m.Holds a word) (hno : directBranch i = none)
    (hact : p.act (actionOf (a + BitVec.ofNat 64 word.length) i) (a + BitVec.ofNat 64 word.length) s =
      some (s', a')) : Runs p m (a, s) (a', s') :=
  .single (.act ⟨word, hword, hholds, rfl⟩ hno hact)

theorem runs_branch {a d : BitVec 64} {word : List Byte} {i : AnyInstruction} {s s' : σ}
    {op : FurtherOperation} {taken : Bool} (hword : anyInstructionOf word = some i)
    (hholds : m.Holds a word) (hd : directBranch i = some (op, d))
    (hbranch : p.branch op (a + BitVec.ofNat 64 word.length) s = some (s', taken)) :
    Runs p m (a, s) (if taken then a + BitVec.ofNat 64 word.length + d
      else a + BitVec.ofNat 64 word.length, s') :=
  .single (.branch ⟨word, hword, hholds, rfl⟩ hd hbranch)

theorem runs_nops {bs : List Byte} {n : Nat}
    (hbs : PrefixCode.Spells anyInstructionOf bs (List.replicate n (.inl (.inl ⟨.nop, []⟩))))
    {a : BitVec 64} (hholds : m.Holds a bs) (s : σ) :
    Runs p m (a, s) (a + BitVec.ofNat 64 bs.length, s) := by
  induction n generalizing a bs with
  | zero =>
      cases hbs
      rw [List.length_nil, BitVec.add_zero]
      exact .refl
  | succ n ih =>
      rw [List.replicate_succ] at hbs
      cases hbs with
      | @cons word rest _ _ hword hrest =>
          obtain ⟨hfront, hback⟩ := Memory.holds_append.mp hholds
          have hfirst := runs_act p hword hfront rfl (p.nop _ s)
          rw [List.length_append, BitVec.ofNat_add, ← BitVec.add_assoc]
          exact hfirst.trans (ih hrest hback)

end Stretches

end X86Assembler.MachineCode
