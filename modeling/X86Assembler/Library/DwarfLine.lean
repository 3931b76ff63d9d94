import X86Assembler.Library.Leb128
import X86Assembler.Library.LittleEndian

namespace X86Assembler.DwarfLine

open CString (Byte)
open LittleEndian
open Leb128

/-- The DWARF 4 line-number machine: the fields of a header that the opcodes depend on. -/
structure Machine where
  minimumInstructionLength : Nat
  maximumOperationsPerInstruction : Nat
  defaultIsStmt : Bool
  lineBase : Int
  lineRange : Nat
  opcodeBase : Nat
deriving DecidableEq

structure Header where
  unitLength : Nat
  version : Nat
  headerLength : Nat
  machine : Machine
deriving DecidableEq

/-- The header of a 32-bit unit and the program that `header_length` leads to. -/
def readHeader (unit : List Byte) : Option (Header × List Byte) :=
  match unit.drop 10 with
  | minLength :: maxOps :: isStmt :: lineBase :: lineRange :: opcodeBase :: _ =>
    let headerLength := (ofLeBytes 32 (slice unit 6 4)).toNat
    some ({
        unitLength := (ofLeBytes 32 (slice unit 0 4)).toNat
        version := (ofLeBytes 16 (slice unit 4 2)).toNat
        headerLength
        machine := {
          minimumInstructionLength := minLength.toNat
          maximumOperationsPerInstruction := maxOps.toNat
          defaultIsStmt := isStmt != 0
          lineBase := lineBase.toInt
          lineRange := lineRange.toNat
          opcodeBase := opcodeBase.toNat } },
      unit.drop (10 + headerLength))
  | _ => none

/-- The registers of the line-number state machine; a row is a copy of them. -/
structure Registers where
  address : BitVec 64 := 0
  opIndex : Nat := 0
  file : Nat := 1
  line : Int := 1
  column : Nat := 0
  isStmt : Bool
  basicBlock : Bool := false
  endSequence : Bool := false
  prologueEnd : Bool := false
  epilogueBegin : Bool := false
  isa : Nat := 0
  discriminator : Nat := 0
deriving DecidableEq

def Registers.afterRow (r : Registers) : Registers :=
  { r with discriminator := 0, basicBlock := false, prologueEnd := false, epilogueBegin := false }

namespace Machine

variable (m : Machine)

def initial : Registers := { isStmt := m.defaultIsStmt }

def advance (r : Registers) (n : Nat) : Registers :=
  let ops := r.opIndex + n
  { r with
    address := r.address + BitVec.ofNat 64
      (m.minimumInstructionLength * (ops / m.maximumOperationsPerInstruction))
    opIndex := ops % m.maximumOperationsPerInstruction }

/-- A standard opcode or a special one, from the bytes behind it: the row it appends, the
registers, and what is left. -/
def stepOpcode (r : Registers) (opcode : Nat) (bs : List Byte) :
    Option (Option Registers × Registers × List Byte) :=
  if m.opcodeBase ≤ opcode then
    let adjusted := opcode - m.opcodeBase
    let r := m.advance r (adjusted / m.lineRange)
    let r := { r with line := r.line + m.lineBase + (adjusted % m.lineRange : Nat) }
    some (some r, r.afterRow, bs)
  else match opcode with
  | 1 => some (some r, r.afterRow, bs)
  | 2 => (readUleb bs).map fun p => (none, m.advance r p.1, p.2)
  | 3 => (readSleb bs).map fun p => (none, { r with line := r.line + p.1 }, p.2)
  | 4 => (readUleb bs).map fun p => (none, { r with file := p.1 }, p.2)
  | 5 => (readUleb bs).map fun p => (none, { r with column := p.1 }, p.2)
  | 6 => some (none, { r with isStmt := !r.isStmt }, bs)
  | 7 => some (none, { r with basicBlock := true }, bs)
  | 8 => some (none, m.advance r ((255 - m.opcodeBase) / m.lineRange), bs)
  | 9 => match bs with
    | b₀ :: b₁ :: bs => some (none, { r with
        address := r.address + (ofLeBytes 64 [b₀, b₁]), opIndex := 0 }, bs)
    | _ => none
  | 10 => some (none, { r with prologueEnd := true }, bs)
  | 11 => some (none, { r with epilogueBegin := true }, bs)
  | 12 => (readUleb bs).map fun p => (none, { r with isa := p.1 }, p.2)
  | _ => none

def stepExtended (r : Registers) (payload : List Byte) : Option (Option Registers × Registers) :=
  match payload with
  | [] => none
  | opcode :: operands =>
    if opcode = 1 then
      some (some { r with endSequence := true }, m.initial)
    else if opcode = 2 then
      some (none, { r with address := ofLeBytes 64 operands, opIndex := 0 })
    else if opcode = 4 then
      (readUleb operands).map fun p => (none, { r with discriminator := p.1 })
    else some (none, r)

def step (r : Registers) : List Byte → Option (Option Registers × Registers × List Byte)
  | [] => none
  | opcode :: bs =>
    if opcode = 0 then do
      let (length, bs) ← readUleb bs
      if bs.length < length then none
      else do
        let (row, r) ← m.stepExtended r (bs.take length)
        pure (row, r, bs.drop length)
    else m.stepOpcode r opcode.toNat bs

/-- The rows of a program that runs to its end, at most a number of instructions. -/
def runSteps : Nat → Registers → List Byte → Option (List Registers)
  | _, _, [] => some []
  | 0, _, _ => none
  | n + 1, r, bs => do
    let (row, r, bs) ← m.step r bs
    let rows ← runSteps n r bs
    pure (row.toList ++ rows)

/-- The rows of a line-number program; no instruction is shorter than a byte. -/
def rows (program : List Byte) : Option (List Registers) :=
  m.runSteps program.length m.initial program

/-- From some registers a text appends rows and leaves other registers, whatever follows. -/
inductive Runs : Registers → List Byte → List Registers → Registers → Prop
  | done (r : Registers) : Runs r [] [] r
  | step {r r' r'' : Registers} {bs bs' : List Byte} {row : Option Registers}
      {rows : List Registers}
      (hstep : ∀ more, m.step r (bs ++ bs' ++ more) = some (row, r', bs' ++ more))
      (hne : bs ≠ []) (hrest : Runs r' bs' rows r'') : Runs r (bs ++ bs') (row.toList ++ rows) r''

variable {m}

theorem runSteps_succ {bs : List Byte} (hne : bs ≠ []) (n : Nat) (r : Registers) :
    m.runSteps (n + 1) r bs = (m.step r bs).bind fun p =>
      (m.runSteps n p.2.1 p.2.2).bind fun rows => some (p.1.toList ++ rows) := by
  cases bs with
  | nil => exact absurd rfl hne
  | cons b bs =>
      rw [runSteps]
      · rfl
      · exact List.cons_ne_nil _ _

theorem Runs.one {r r' : Registers} {bs : List Byte} (row : Option Registers) (hne : bs ≠ [])
    (hstep : ∀ more, m.step r (bs ++ more) = some (row, r', more)) :
    m.Runs r bs row.toList r' := by
  have hrun := @Runs.step m r r' r' bs [] row [] (by simpa using hstep) hne (.done r')
  rwa [List.append_nil, List.append_nil] at hrun

theorem Runs.trans {r r' r'' : Registers} {bs bs' : List Byte} {rows rows' : List Registers}
    (h₁ : m.Runs r bs rows r') (h₂ : m.Runs r' bs' rows' r'') :
    m.Runs r (bs ++ bs') (rows ++ rows') r'' := by
  induction h₁ with
  | done r => exact h₂
  | @step r r₁ r₂ cs cs' row rows hstep hne hrest ih =>
      rw [List.append_assoc, List.append_assoc]
      refine .step ?_ hne (ih h₂)
      intro more
      have hmore := hstep (bs' ++ more)
      simpa only [List.append_assoc] using hmore

theorem Runs.runSteps {r r' : Registers} {bs : List Byte} {rows : List Registers}
    (hrun : m.Runs r bs rows r') {n : Nat} (hn : bs.length ≤ n) :
    m.runSteps n r bs = some rows := by
  induction hrun generalizing n with
  | done r => cases n <;> rfl
  | @step r r₁ r₂ cs cs' row rows hstep hne hrest ih =>
      have hpos := List.length_pos_iff.mpr hne
      rw [List.length_append] at hn
      obtain ⟨k, rfl⟩ := Nat.exists_eq_add_one_of_ne_zero (by omega : n ≠ 0)
      have hfirst := hstep []
      rw [List.append_nil, List.append_nil] at hfirst
      rw [runSteps_succ (List.append_ne_nil_of_left_ne_nil hne _), hfirst, Option.bind_some,
        ih (by omega), Option.bind_some]

theorem Runs.rows {r' : Registers} {program : List Byte} {rows : List Registers}
    (hrun : m.Runs m.initial program rows r') : m.rows program = some rows :=
  hrun.runSteps (Nat.le_refl _)

end Machine

end X86Assembler.DwarfLine
