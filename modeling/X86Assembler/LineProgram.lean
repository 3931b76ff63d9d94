import X86Assembler.DebugNumbers
import X86Assembler.Library.DwarfLine

namespace X86Assembler

open CString (Byte)
open LittleEndian
open Leb128
open Fill
open DwarfLine (Header Machine Registers)

variable {cap : Nat}

def lineMachine : Machine where
  minimumInstructionLength := 1
  maximumOperationsPerInstruction := 1
  defaultIsStmt := true
  lineBase := -5
  lineRange := 14
  opcodeBase := 13

/-- A row at an address and a line, with the other registers as they are at the start. -/
def rowAt (address : Word) (line : Int) : Registers := { address, line, isStmt := true }

section

variable {a : Word} {l : Int}

theorem runs_setAddress (b : Word) :
    lineMachine.Runs (rowAt a l) (0 :: 9 :: 2 :: leBytes 8 b) [] (rowAt b l) := by
  refine Machine.Runs.one none (List.cons_ne_nil _ _) ?_
  intro more
  rw [List.cons_append, Machine.step, if_pos rfl]
  have hread : readUleb (9 :: 2 :: leBytes 8 b ++ more) = some (9, 2 :: leBytes 8 b ++ more) := rfl
  have hlen : (2 :: leBytes 8 b).length = 9 := by rw [List.length_cons, leBytes_length]
  have htake : (2 :: leBytes 8 b ++ more).take 9 = 2 :: leBytes 8 b := by rw [← hlen, List.take_left]
  have hdrop : (2 :: leBytes 8 b ++ more).drop 9 = more := by rw [← hlen, List.drop_left]
  have hroom : ¬(2 :: leBytes 8 b ++ more).length < 9 := by
    rw [List.length_append, hlen]
    omega
  rw [hread, Option.bind_eq_bind, Option.bind_some]
  dsimp only
  rw [if_neg hroom, htake, hdrop]
  have hword : ofLeBytes 64 (leBytes 8 b) = b := ofLeBytes_leBytes (by decide) b
  rw [Machine.stepExtended, if_neg (by decide), if_pos rfl, hword]
  rfl

theorem runs_endSequence :
    lineMachine.Runs (rowAt a l) [0, 1, 1] [{ rowAt a l with endSequence := true }]
      lineMachine.initial :=
  Machine.Runs.one (some _) (List.cons_ne_nil _ _) fun _ => rfl

theorem runs_copy : lineMachine.Runs (rowAt a l) [1] [rowAt a l] (rowAt a l) :=
  Machine.Runs.one (some _) (List.cons_ne_nil _ _) fun _ => rfl

theorem runs_advancePc (n : Nat) :
    lineMachine.Runs (rowAt a l) (2 :: uleb n) [] (rowAt (a + BitVec.ofNat 64 n) l) := by
  refine Machine.Runs.one none (List.cons_ne_nil _ _) ?_
  intro more
  change (readUleb (uleb n ++ more)).map _ = _
  rw [readUleb_uleb, Option.map_some, Machine.advance]
  simp [lineMachine, rowAt, Nat.mod_one]

theorem runs_advanceLine (z : Int) :
    lineMachine.Runs (rowAt a l) (3 :: sleb z) [] (rowAt a (l + z)) := by
  refine Machine.Runs.one none (List.cons_ne_nil _ _) ?_
  intro more
  change (readSleb (sleb z ++ more)).map _ = _
  rw [readSleb_sleb]
  rfl

end

theorem LineRow.targetLine_pos (row : LineRow) : 0 < row.targetLine.toInt := by
  rw [LineRow.targetLine]
  split
  · assumption
  · decide

theorem LineRow.targetLine_toInt (row : LineRow) : row.targetLine.toInt = max row.line.toInt 1 := by
  rw [LineRow.targetLine]
  split
  · rw [max_eq_left (by omega)]
  · rw [max_eq_right (by omega)]
    rfl

theorem address_distance {base size a b : Word} (hsize : size.toNat < 2 ^ 32) (ha : base ≤ a)
    (hab : a ≤ b) (hb : b ≤ base + size) :
    BitVec.ofNat 64 ((b - a).setWidth 32).toNat = b - a := by
  have h₁ := BitVec.le_def.mp ha
  have h₂ := BitVec.le_def.mp hab
  have h₃ := BitVec.le_def.mp hb
  rw [BitVec.toNat_add] at h₃
  have hbase := base.isLt
  have hle : (base.toNat + size.toNat) % 2 ^ 64 ≤ base.toNat + size.toNat := Nat.mod_le _ _
  have hdist : (b - a).toNat = b.toNat - a.toNat := BitVec.toNat_sub_of_le hab
  apply BitVec.eq_of_toNat_eq
  rw [BitVec.toNat_ofNat, BitVec.toNat_setWidth, hdist]
  omega

section

variable {base size : Word} (hsize : size.toNat < 2 ^ 32)

include hsize

theorem yields_advancePc {a b : Word} (ha : base ≤ a) (hab : a ≤ b) (hb : b ≤ base + size) (l : Int)
    (bs : List Byte) : ∃ new, Yields (appendAdvancePc a b : Fill cap Unit) bs (bs ++ new) () ∧
      lineMachine.Runs (rowAt a l) new [] (rowAt b l) := by
  refine ⟨2 :: uleb ((b - a).setWidth 32).toNat, ?_, ?_⟩
  · apply Yields.of_eq ((yields_append bs [2]).bind (yields_uleb _ _))
    rw [List.append_assoc, List.singleton_append]
  · have hrun := @runs_advancePc a l ((b - a).setWidth 32).toNat
    rwa [address_distance hsize ha hab hb, BitVec.add_comm, BitVec.sub_add_cancel] at hrun

omit hsize in
theorem yields_advanceLine {l l' : BitVec 32} (hl : 0 < l.toInt) (hl' : 0 < l'.toInt) (a : Word)
    (bs : List Byte) : ∃ new, Yields (appendAdvanceLine l l' : Fill cap Unit) bs (bs ++ new) () ∧
      lineMachine.Runs (rowAt a l.toInt) new [] (rowAt a l'.toInt) := by
  have hdiff : (l' - l).toInt = l'.toInt - l.toInt := by
    have hlt := @BitVec.toInt_lt 32 l
    have hlt' := @BitVec.toInt_lt 32 l'
    rw [BitVec.toInt_sub]
    apply Int.bmod_eq_of_le <;> omega
  refine ⟨3 :: sleb (l' - l).toInt, ?_, ?_⟩
  · apply Yields.of_eq ((yields_append bs [3]).bind (yields_sleb _ _))
    rw [List.append_assoc, List.singleton_append]
  · have hrun := @runs_advanceLine a l.toInt (l' - l).toInt
    have hsum : l.toInt + (l'.toInt - l.toInt) = l'.toInt := by omega
    rw [hdiff]
    rwa [hdiff, hsum] at hrun

theorem yields_appendRow {lastAddr : Word} {lastLine : BitVec 32} {row : LineRow}
    (hbase : base ≤ lastAddr) (hle : lastAddr ≤ row.address) (hend : row.address ≤ base + size)
    (hline : 0 < lastLine.toInt) (bs : List Byte) :
    ∃ new, Yields (appendRow lastAddr lastLine row : Fill cap Unit) bs (bs ++ new) () ∧
      lineMachine.Runs (rowAt lastAddr lastLine.toInt) new
        [rowAt row.address row.targetLine.toInt] (rowAt row.address row.targetLine.toInt) := by
  have hpc : ∃ new, Yields (if lastAddr < row.address then appendAdvancePc lastAddr row.address
        else pure () : Fill cap Unit) bs (bs ++ new) () ∧
      lineMachine.Runs (rowAt lastAddr lastLine.toInt) new []
        (rowAt row.address lastLine.toInt) := by
    by_cases hlt : lastAddr < row.address
    · rw [if_pos hlt]
      exact yields_advancePc hsize hbase hle hend _ bs
    · have hsame : lastAddr = row.address := BitVec.le_antisymm hle (BitVec.not_lt.mp hlt)
      refine ⟨[], ?_, ?_⟩
      · rw [if_neg hlt, List.append_nil]
        exact yields_pure bs ()
      · rw [hsame]
        exact .done _
  obtain ⟨pc, hpc, hrunPc⟩ := hpc
  have hadv : ∃ new, Yields (if row.targetLine ≠ lastLine then
        appendAdvanceLine lastLine row.targetLine else pure () : Fill cap Unit) (bs ++ pc)
        (bs ++ pc ++ new) () ∧
      lineMachine.Runs (rowAt row.address lastLine.toInt) new []
        (rowAt row.address row.targetLine.toInt) := by
    by_cases hne : row.targetLine ≠ lastLine
    · rw [if_pos hne]
      exact yields_advanceLine hline row.targetLine_pos _ _
    · refine ⟨[], ?_, ?_⟩
      · rw [if_neg hne, List.append_nil]
        exact yields_pure _ ()
      · rw [not_not.mp hne]
        exact .done _
  obtain ⟨adv, hadv, hrunAdv⟩ := hadv
  refine ⟨pc ++ adv ++ [1], ?_, ?_⟩
  · apply Yields.of_eq (hpc.bind (hadv.bind (yields_append _ [1])))
    simp only [List.append_assoc]
  · exact (hrunPc.trans hrunAdv).trans runs_copy

theorem yields_appendRows {rows : List LineRow} {lastAddr : Word} {lastLine : BitVec 32}
    (hbase : base ≤ lastAddr) (hsorted : (lastAddr :: rows.map LineRow.address).IsChain (· ≤ ·))
    (hend : ∀ row ∈ rows, row.address ≤ base + size) (hline : 0 < lastLine.toInt)
    (bs : List Byte) :
    ∃ new endAddr endLine, Yields (appendRows lastAddr lastLine rows : Fill cap Word) bs (bs ++ new)
        endAddr ∧
      lineMachine.Runs (rowAt lastAddr lastLine.toInt) new
        (rows.map fun row => rowAt row.address row.targetLine.toInt) (rowAt endAddr endLine) ∧
      base ≤ endAddr ∧ endAddr = (rows.map LineRow.address).getLastD lastAddr ∧
        endLine = (rows.map fun row => row.targetLine.toInt).getLastD lastLine.toInt := by
  induction rows generalizing lastAddr lastLine bs with
  | nil =>
      refine ⟨[], lastAddr, lastLine.toInt, ?_, .done _, hbase, rfl, rfl⟩
      rw [appendRows, List.append_nil]
      exact yields_pure _ _
  | cons row rows ih =>
      have hchain := List.isChain_cons_cons.mp hsorted
      have hnext : (if lastAddr < row.address then row.address else lastAddr) = row.address := by
        split
        · rfl
        · exact BitVec.le_antisymm hchain.1 (BitVec.not_lt.mp ‹_›)
      obtain ⟨first, hfirst, hrunFirst⟩ := @yields_appendRow cap base size hsize
        lastAddr lastLine row hbase hchain.1
        (hend row List.mem_cons_self) hline bs
      obtain ⟨rest, endAddr, endLine, hrest, hrunRest, hle, haddr, hlast⟩ :=
        ih (BitVec.le_trans hbase hchain.1) hchain.2
          (fun r hr => hend r (List.mem_cons_of_mem _ hr)) row.targetLine_pos (bs ++ first)
      refine ⟨first ++ rest, endAddr, endLine, ?_, hrunFirst.trans hrunRest, hle, ?_, ?_⟩
      · rw [appendRows, hnext]
        apply Yields.of_eq (hfirst.bind hrest)
        rw [List.append_assoc]
      · rw [haddr, List.map_cons, List.getLastD_cons]
      · rw [hlast, List.map_cons, List.getLastD_cons]

end

/-- The part of the header behind `header_length`. -/
def lineTables (ctx : OutputContext) : List Byte :=
  [1, 1, 1, -5, 14, 13] ++ List.replicate 12 0 ++ pathDirname ctx.sourceName ++ [0, 0] ++
    pathBasename ctx.sourceName ++ [0] ++ uleb 1 ++ uleb 0 ++ uleb 0 ++ [0]

def lineFront (ctx : OutputContext) (unitLength : BitVec 32) : List Byte :=
  leBytes 4 unitLength ++ leBytes 2 (4 : BitVec 16) ++
    leBytes 4 (BitVec.ofNat 32 (lineTables ctx).length) ++ lineTables ctx

theorem lineFront_length (ctx : OutputContext) (unitLength : BitVec 32) :
    (lineFront ctx unitLength).length = 10 + (lineTables ctx).length := by
  rw [lineFront, List.length_append, List.length_append, List.length_append, leBytes_length,
    leBytes_length, leBytes_length]

theorem yields_lineHeader (ctx : OutputContext) :
    Yields (appendLineHeader ctx) [] (lineFront ctx 0) () := by
  have hzero : (0 : BitVec 32).toNat = 0 := rfl
  have hone : (1 : BitVec 32).toNat = 1 := rfl
  apply Yields.of_eq
  · exact (yields_append _ _).bind <| (yields_append _ _).bind <| (yields_position _).bind <|
      (yields_append _ _).bind <| (yields_position _).bind <| (yields_append _ _).bind <|
      (yields_append _ _).bind <| (yields_append _ _).bind <| (yields_append _ _).bind <|
      (yields_append _ _).bind <| (yields_append _ _).bind <| (yields_append _ _).bind <|
      (yields_append _ _).bind <| (yields_append _ _).bind <| (yields_append _ _).bind <|
      (yields_uleb _ _).bind <| (yields_uleb _ _).bind <| (yields_uleb _ _).bind <|
      (yields_append _ _).bind <| (yields_position _).bind <| yields_writeAt _ _ _
  · have hpatch := patch_append (leBytes 4 (0 : BitVec 32) ++ leBytes 2 (4 : BitVec 16))
      (leBytes 4 (0 : BitVec 32)) (lineTables ctx)
      (leBytes 4 (BitVec.ofNat 32 (lineTables ctx).length)) (by simp)
    have hlength : ∀ a b c d : Nat, a + (b + (c + d)) - (a + (b + c)) = d := by omega
    rw [lineFront, ← hpatch, lineTables]
    simp only [List.nil_append, List.append_assoc, List.length_append, hzero, hone,
      List.cons_append, hlength]

/-- What the DWARF machine makes of a line table: a row for each entry, a row behind the text
where the last entry is in front of its end, and the end of the sequence. -/
def lineTableRows (ctx : OutputContext) : List Registers :=
  let lastAddr := (ctx.lineMap.map LineRow.address).getLastD ctx.baseAddress
  let lastLine := (ctx.lineMap.map fun row => max row.line.toInt 1).getLastD 1
  ctx.lineMap.map (fun row => rowAt row.address (max row.line.toInt 1)) ++
    (if lastAddr < ctx.textEnd then
      [rowAt ctx.textEnd lastLine, { rowAt ctx.textEnd lastLine with endSequence := true }]
    else [{ rowAt lastAddr lastLine with endSequence := true }])

/-- The entries are in the order of their addresses, and in the text. -/
structure OutputContext.LineMapOrdered (ctx : OutputContext) : Prop where
  sorted : (ctx.lineMap.map LineRow.address).Pairwise (· ≤ ·)
  starts : ∀ row ∈ ctx.lineMap, ctx.baseAddress ≤ row.address
  ends : ∀ row ∈ ctx.lineMap, row.address ≤ ctx.textEnd

theorem yields_endRow {ctx : OutputContext} (hsize : ctx.textSection.length < 2 ^ 32)
    {lastAddr : Word} (hbase : ctx.baseAddress ≤ lastAddr) (l : Int) (bs : List Byte) :
    ∃ new, Yields (appendEndRow lastAddr ctx.textEnd : Fill cap Unit) bs (bs ++ new) () ∧
      lineMachine.Runs (rowAt lastAddr l) new
        (if lastAddr < ctx.textEnd then [rowAt ctx.textEnd l] else [])
        (rowAt (if lastAddr < ctx.textEnd then ctx.textEnd else lastAddr) l) := by
  rw [appendEndRow]
  by_cases hlt : lastAddr < ctx.textEnd
  · have hsize' : ctx.textSize.toNat < 2 ^ 32 := by
      rw [OutputContext.textSize, BitVec.toNat_ofNat]
      omega
    obtain ⟨pc, hpc, hrun⟩ := @yields_advancePc cap ctx.baseAddress ctx.textSize hsize'
      lastAddr ctx.textEnd hbase (BitVec.le_of_lt hlt)
      (BitVec.le_refl _) l bs
    rw [if_pos hlt, if_pos hlt, if_pos hlt]
    refine ⟨pc ++ [1], ?_, hrun.trans runs_copy⟩
    apply Yields.of_eq (hpc.bind (yields_append _ [1]))
    rw [List.append_assoc]
  · rw [if_neg hlt, if_neg hlt, if_neg hlt]
    refine ⟨[], ?_, .done _⟩
    rw [List.append_nil]
    exact yields_pure _ ()

theorem yields_lineProgram {ctx : OutputContext} (hmap : ctx.LineMapOrdered)
    (hsize : ctx.textSection.length < 2 ^ 32) (bs : List Byte) :
    ∃ program, Yields (appendLineProgram ctx) bs (bs ++ program) () ∧
      lineMachine.rows program = some (lineTableRows ctx) := by
  have hsize' : ctx.textSize.toNat < 2 ^ 32 := by
    rw [OutputContext.textSize, BitVec.toNat_ofNat]
    omega
  have hchain : (ctx.baseAddress :: ctx.lineMap.map LineRow.address).IsChain (· ≤ ·) := by
    apply List.Pairwise.isChain
    refine List.Pairwise.cons ?_ hmap.sorted
    intro a ha
    obtain ⟨row, hrow, rfl⟩ := List.mem_map.mp ha
    exact hmap.starts row hrow
  obtain ⟨rows, endAddr, endLine, hrows, hrunRows, hle, haddr, hline⟩ :=
    @yields_appendRows debugLineCapacity ctx.baseAddress ctx.textSize hsize' ctx.lineMap
      ctx.baseAddress 1 (BitVec.le_refl _) hchain hmap.ends (by decide) (bs ++ [0] ++ [9] ++ [2] ++ leBytes 8 ctx.baseAddress)
  obtain ⟨last, hlast, hrunLast⟩ := @yields_endRow debugLineCapacity ctx hsize endAddr hle endLine
    (bs ++ [0] ++ [9] ++ [2] ++ leBytes 8 ctx.baseAddress ++ rows)
  refine ⟨0 :: 9 :: 2 :: leBytes 8 ctx.baseAddress ++ rows ++ last ++ [0, 1, 1], ?_, ?_⟩
  · apply Yields.of_eq
    · exact (yields_append _ _).bind <| (yields_append _ _).bind <| (yields_append _ _).bind <|
        (yields_append _ _).bind <| hrows.bind <| hlast.bind <| (yields_append _ _).bind <|
        (yields_append _ _).bind <| yields_append _ _
    · simp only [List.append_assoc, List.cons_append, List.nil_append]
  · have hrun := (((@runs_setAddress 0 1 ctx.baseAddress).trans hrunRows).trans hrunLast).trans
      runs_endSequence
    have hrun : lineMachine.Runs lineMachine.initial _ _ _ := hrun
    have hone : (1 : BitVec 32).toInt = 1 := rfl
    simp only [LineRow.targetLine_toInt, hone] at hline
    rw [hrun.rows, lineTableRows, ← haddr, ← hline]
    simp only [LineRow.targetLine_toInt, List.nil_append, List.append_assoc]
    by_cases hlt : endAddr < ctx.textEnd
    · rw [if_pos hlt, if_pos hlt, if_pos hlt, List.singleton_append]
    · rw [if_neg hlt, if_neg hlt, if_neg hlt, List.nil_append]

theorem yields_debugLine {ctx : OutputContext} (hmap : ctx.LineMapOrdered)
    (hsize : ctx.textSection.length < 2 ^ 32) : ∃ program,
      Yields (debugLine ctx) []
        (lineFront ctx (BitVec.ofNat 32 ((lineFront ctx 0 ++ program).length - 4)) ++ program) () ∧
          lineMachine.rows program = some (lineTableRows ctx) := by
  obtain ⟨program, hprogram, hrows⟩ := yields_lineProgram hmap hsize (lineFront ctx 0)
  refine ⟨program, ?_, hrows⟩
  apply Yields.of_eq
  · exact (yields_position _).bind <| (yields_lineHeader ctx).bind <| hprogram.bind <|
      (yields_position _).bind <| yields_writeAt _ _ _
  · have hpatch := patch_append [] (leBytes 4 (0 : BitVec 32)) (leBytes 2 (4 : BitVec 16) ++
      leBytes 4 (BitVec.ofNat 32 (lineTables ctx).length) ++ lineTables ctx ++ program)
      (leBytes 4 (BitVec.ofNat 32 ((lineFront ctx 0 ++ program).length - 4))) (by simp)
    simpa only [lineFront, List.nil_append, List.append_assoc, List.length_nil] using hpatch

theorem readHeader_lineFront (ctx : OutputContext) (unitLength : BitVec 32) (program : List Byte)
    (hlen : (lineTables ctx).length < 2 ^ 32) :
    DwarfLine.readHeader (lineFront ctx unitLength ++ program) =
      some ({ unitLength := unitLength.toNat, version := 4,
              headerLength := (lineTables ctx).length, machine := lineMachine }, program) := by
  have hword : ∀ v : BitVec 32, ofLeBytes 32 (leBytes 4 v) = v := ofLeBytes_leBytes (by decide)
  have hunit : slice (lineFront ctx unitLength ++ program) 0 4 = leBytes 4 unitLength := rfl
  have hversion : slice (lineFront ctx unitLength ++ program) 4 2 = leBytes 2 (4 : BitVec 16) := rfl
  have hheader : slice (lineFront ctx unitLength ++ program) 6 4 =
      leBytes 4 (BitVec.ofNat 32 (lineTables ctx).length) := rfl
  have hlength : (ofLeBytes 32 (leBytes 4 (BitVec.ofNat 32 (lineTables ctx).length))).toNat =
      (lineTables ctx).length := by
    rw [hword, BitVec.toNat_ofNat, Nat.mod_eq_of_lt hlen]
  have hrest : (lineFront ctx unitLength ++ program).drop (10 + (lineTables ctx).length) =
      program := by
    rw [← lineFront_length ctx unitLength, List.drop_left]
  have htables : (lineFront ctx unitLength ++ program).drop 10 =
      1 :: 1 :: 1 :: -5 :: 14 :: 13 :: ((lineTables ctx).drop 6 ++ program) := rfl
  rw [DwarfLine.readHeader, htables]
  dsimp only
  rw [hunit, hversion, hheader, hlength, hword, hrest]
  rfl

/-- The `.debug_line` bytes of a context as a DWARF 4 unit: its lengths are right, its header
leads to what is appended behind it, and the machine makes the rows of the line map. -/
theorem debugLine_right {ctx : OutputContext} (hmap : ctx.LineMapOrdered)
    (hsize : ctx.textSection.length < 2 ^ 32) {d : DebugSections} (h : debugSections ctx = some d) :
    ∃ header front program, DwarfLine.readHeader d.line = some (header, program) ∧
      header.version = 4 ∧ header.unitLength + 4 = d.line.length ∧
        build (appendLineHeader ctx) = some ((), front) ∧
          10 + header.headerLength = front.length ∧
            header.machine.rows program = some (lineTableRows ctx) := by
  obtain ⟨program, hyields, hrows⟩ := yields_debugLine hmap hsize
  obtain ⟨off, -, -, -, hline⟩ := debugSections_eq_some h
  obtain ⟨hbytes, hcap⟩ := hyields.build hline
  have hbytes : d.line = lineFront ctx
      (BitVec.ofNat 32 ((lineFront ctx 0 ++ program).length - 4)) ++ program :=
    congrArg Prod.snd hbytes
  obtain ⟨⟨⟨⟩, front⟩, hfront⟩ := build_of_bind ((build_position_bind _).symm.trans hline)
  have hfrontBytes : front = lineFront ctx 0 :=
    congrArg Prod.snd ((yields_lineHeader ctx).build hfront).1
  have hlen := lineFront_length ctx
  rw [List.length_append, hlen, debugLineCapacity] at hcap
  have hread := readHeader_lineFront ctx
    (BitVec.ofNat 32 ((lineFront ctx 0 ++ program).length - 4)) program (by omega)
  rw [← hbytes] at hread
  refine ⟨_, front, program, hread, rfl, ?_, hfront, ?_, hrows⟩
  · rw [hbytes, List.length_append, List.length_append, hlen, hlen, BitVec.toNat_ofNat]
    dsimp only
    omega
  · rw [hfrontBytes, hlen]

/-- Three rows with a step back in the lines, and a last instruction behind them. -/
def threeRows : OutputContext where
  textSection := [0x90, 0x90, 0xC3]
  lineMap := [⟨0x400000, 5⟩, ⟨0x400001, 3⟩, ⟨0x400001, -2⟩]

theorem debugLine_right_threeRows : ∃ d, debugSections threeRows = some d ∧
    ∃ header front program, DwarfLine.readHeader d.line = some (header, program) ∧
      header.version = 4 ∧ header.unitLength + 4 = d.line.length ∧
        build (appendLineHeader threeRows) = some ((), front) ∧
          10 + header.headerLength = front.length ∧
            header.machine.rows program = some (lineTableRows threeRows) := by
  have hbuilt : (debugSections threeRows).isSome = true := by decide +kernel
  obtain ⟨d, hd⟩ := Option.isSome_iff_exists.mp hbuilt
  have hmap : threeRows.LineMapOrdered := ⟨by decide, by decide, by decide⟩
  exact ⟨d, hd, debugLine_right hmap (by decide) hd⟩

end X86Assembler
