import X86Assembler.LocatedProgram
import X86Assembler.StatementMeaning

namespace X86Assembler

open CString (Byte)
open Encoder (machineEncoder memReference ignoresOperands shortOpcode nearOpcode jccCode)
open LittleEndian (leBytes ofLeBytes slice)
open MachineCode
open PrefixCode (Spells)

/-- Statements that leave no bytes: declarations, constants and labels on their own. -/
def Silent (b : ParsedInstruction) : Prop :=
  isUnencoded b = true ∨ directiveKind b.type = some .silent ∧ segmentBytes b = []

def branchOperation (type : InstType) : FurtherOperation :=
  match conditionOf type with
  | some c => .jcc c
  | none => if type = .call then .call else .jmp

def nopInstruction : AnyInstruction := .inl (.inl ⟨.nop, []⟩)

/-- A label in a memory operand, with or without registers, gets a number. -/
def HeedsLabels (b : ParsedInstruction) : Prop :=
  ∀ m, .mem m ∈ b.operands → m.label ≠ Label.empty → (memReference m).isSome = true

namespace AssemblyRun

variable {insts : List ParsedInstruction} {ctx final : AssemblerContext}
  (run : AssemblyRun insts ctx final)

/-- The number stands for the address of the label, plus the number written next to it. -/
def LeadsTo (i : Nat) (m : MemOperand) : Prop :=
  ∀ rip, memReference m = some rip → ∃ target, findSymbolAddress final m.label = some target ∧
    (run.placement i m.label rip m.displacement).signExtend 64 + run.origin i rip =
      target + m.displacement.signExtend 64

/-- The instructions that a statement stands for at its place. -/
inductive TextMeaning (i : Nat) (b : ParsedInstruction) : List AnyInstruction → Prop
  | silent : Silent b → TextMeaning i b []
  | padding (n : Nat) : b.type = .align → TextMeaning i b (List.replicate n nopInstruction)
  | instruction (j : AnyInstruction) : PlainStatement b → HeedsLabels b →
      (ignoresOperands b.type = false → ∀ m, .mem m ∈ b.operands → run.LeadsTo i m) →
      Means (b.located (run.placement i)) j → TextMeaning i b [j]
  | branch (name : Label) (target d : Word) : isControlflow b.type = true →
      b.operands = [.label name] → findSymbolAddress final name = some target →
      run.endAddress i + d = target →
      TextMeaning i b [.inr ⟨branchOperation b.type, [.imm d.toNat]⟩]

inductive TextFits (i : Nat) (b : ParsedInstruction) : Prop
  | silent : Silent b → TextFits i b
  | padding : b.type = .align → segmentBytes b = [] → TextFits i b
  | instruction : PlainStatement b → HeedsLabels b → RipAtEnd b →
      StatementFits (b.located (run.placement i)) → TextFits i b
  | branch (name : Label) : isControlflow b.type = true → b.operands = [.label name] →
      (∃ j target, InText run.program j target ∧ target.label = some name ∧
        placesLabel target.type = true) → TextFits i b

/-- The bytes of a statement are the instructions that it stands for. -/
def TextRight (i : Nat) (b : ParsedInstruction) : Prop :=
  ∃ js, run.TextMeaning i b js ∧ Spells anyInstructionOf (run.textBytes i) js

end AssemblyRun

theorem statementFits_machine {inst : ParsedInstruction} (h : StatementFits inst) :
    ∃ encode, machineEncoder inst.type = some encode := by
  rw [StatementFits] at h
  cases htype : inst.type
  all_goals
    first
    | exact ⟨_, rfl⟩
    | rw [htype] at h
      exact absurd h nofun

theorem silent_directive {type : InstType} (h : directiveKind type = some .silent) :
    machineEncoder type = none ∧ isControlflow type = false := by
  cases type
  all_goals
    first
    | exact ⟨rfl, rfl⟩
    | exact absurd h (by decide)

theorem spells_nops (n : Nat) :
    Spells anyInstructionOf (List.replicate n 0x90) (List.replicate n nopInstruction) := by
  induction n with
  | zero => exact .nil
  | succ n ih => exact @PrefixCode.Spells.cons _ _ _ [0x90] _ _ _ (by rfl) ih

section Branches

variable {opcode : Byte} {o : FurtherOperation}

theorem further_short (hopcode : isOpcode opcode = true ∧ opcode ≠ 0x0F)
    (hentry : ∀ digit, furtherOneByte opcode digit = some ⟨o, .wide, .signed 1⟩) (v : BitVec 8) :
    furtherInstructionOf [opcode, v] = some ⟨o, [.imm (v.signExtend 64).toNat]⟩ := by
  have hread := @furtherInstructionOf_oneByte [] [v] none opcode _ (.inl rfl) nofun hopcode.1 hopcode.2
    (hentry _)
  refine hread.trans (readFurtherEntry_of (fun _ => rfl) ?_)
  show oneMore (readImm 1 64) [v] = _
  rw [oneMore, readImm_byte]
  rfl

theorem oneMore_displacement (v : BitVec 32) :
    oneMore (readImm 4 64) (leBytes 4 v) = some ([.imm (v.signExtend 64).toNat], []) := by
  have himm := readImm_leBytes 4 64 v
  have hsame : v.setWidth (8 * 4) = v := BitVec.setWidth_eq v
  rw [hsame] at himm
  rw [oneMore, himm]
  rfl

theorem further_near (hopcode : isOpcode opcode = true ∧ opcode ≠ 0x0F)
    (hentry : ∀ digit, furtherOneByte opcode digit = some ⟨o, .wide, .signed 4⟩) (v : BitVec 32) :
    furtherInstructionOf (opcode :: leBytes 4 v) = some ⟨o, [.imm (v.signExtend 64).toNat]⟩ := by
  have hread := @furtherInstructionOf_oneByte [] (leBytes 4 v) none opcode _ (.inl rfl) nofun hopcode.1
    hopcode.2 (hentry _)
  exact hread.trans (readFurtherEntry_of (fun _ => rfl) (oneMore_displacement v))

theorem further_nearTwo (hentry : ∀ digit, furtherTwoByte opcode digit = some ⟨o, .wide, .signed 4⟩)
    (v : BitVec 32) :
    furtherInstructionOf (0x0F :: opcode :: leBytes 4 v) = some ⟨o, [.imm (v.signExtend 64).toNat]⟩ := by
  have hread := @furtherInstructionOf_twoByte [] (leBytes 4 v) none opcode _ (.inl rfl) nofun (hentry _)
  exact hread.trans (readFurtherEntry_of (fun _ => rfl) (oneMore_displacement v))

end Branches

/-- The short form of a branch; a call has none. -/
theorem short_read {type : InstType} (hb : isControlflow type = true) (hcall : type ≠ .call)
    (v : BitVec 8) : furtherInstructionOf [shortOpcode type, v] =
      some ⟨branchOperation type, [.imm (v.signExtend 64).toNat]⟩ := by
  cases type
  all_goals
    first
    | exact absurd hb Bool.false_ne_true
    | exact absurd rfl hcall
    | exact further_short ⟨by decide, by decide⟩ (fun _ => rfl) v

theorem near_read {type : InstType} (hb : isControlflow type = true) (v : BitVec 32) :
    furtherInstructionOf (nearOpcode type ++ leBytes 4 v) =
      some ⟨branchOperation type, [.imm (v.signExtend 64).toNat]⟩ := by
  cases type
  all_goals
    first
    | exact absurd hb Bool.false_ne_true
    | exact further_near ⟨by decide, by decide⟩ (fun _ => rfl) v
    | exact further_nearTwo (fun _ => rfl) v

namespace AssemblyRun

variable {insts : List ParsedInstruction} {ctx final : AssemblerContext}
  (run : AssemblyRun insts ctx final)

section Statement

variable {i : Nat} {b : ParsedInstruction} (hb : InText run.program i b)

include hb

theorem textBytes_unencoded (hu : isUnencoded b = true) : run.textBytes i = [] := by
  obtain ⟨a, ha, -, hemit⟩ := run.text_statement hb
  have he := emitTextStatement_unencoded hu hemit
  have hsect : (placeLabel (run.textAt i) a).currentSection = .text := by
    rw [(placeLabel_text a (run.textAt i)).2.2.2.2, textAt,
      textAt_sect run.lastPass run.start (Nat.le_of_lt ha.lt), ha.sect]
  have htext := he.text_of_text hsect
  rw [List.append_nil, (placeLabel_text a (run.textAt i)).1] at htext
  have hsame : run.textOffset (i + 1) = run.textOffset i := by rw [textOffset, htext, textOffset]
  rw [textBytes, hsame, Nat.sub_self, slice, List.take_zero]

theorem textBytes_request (hm : machineEncoder b.type = none) (hu : isUnencoded b = false)
    (hseg : segmentBytes b = []) : run.textBytes i =
      ((directiveBytes ((run.textAt i).afterSegment b) b).getD []).take (run.textAt i).room := by
  rw [run.textBytes_directive hb hm, textRequest, hu, hm, Option.isSome_none, Bool.or_false,
    if_neg Bool.false_ne_true, encodedRequest, hseg, List.nil_append]

theorem textBytes_silent (h : Silent b) : run.textBytes i = [] := by
  by_cases hu : isUnencoded b = true
  · exact run.textBytes_unencoded hb hu
  · obtain ⟨hkind, hseg⟩ := h.resolve_left hu
    rw [run.textBytes_request hb (silent_directive hkind).1 (Bool.eq_false_of_not_eq_true hu) hseg, directiveBytes, hkind]
    exact List.take_nil

theorem silent_right (h : Silent b) : run.TextRight i b := by
  refine ⟨[], .silent h, ?_⟩
  rw [run.textBytes_silent hb h]
  exact .nil

theorem textBytes_padding (htype : b.type = .align) (hseg : segmentBytes b = []) :
    ∃ n, Spells anyInstructionOf (run.textBytes i) (List.replicate n nopInstruction) := by
  have hu : isUnencoded b = false := by rw [isUnencoded, isLabelOnly, htype]; rfl
  have hbytes := run.textBytes_request hb (by rw [htype]; rfl) hu hseg
  have hsect : ((run.textAt i).afterSegment b).currentSection = .text := by
    obtain ⟨a, ha, -, -⟩ := run.text_statement hb
    show (run.textAt i).currentSection = .text
    rw [textAt, textAt_sect run.lastPass run.start (Nat.le_of_lt ha.lt), ha.sect]
  obtain ⟨n, hn⟩ : ∃ n, (directiveBytes ((run.textAt i).afterSegment b) b).getD [] =
      List.replicate n 0x90 := by
    rw [directiveBytes, htype]
    show ∃ n, (alignBytes _ b.operands).getD [] = _
    rw [alignBytes.eq_def]
    split
    · split
      · exact ⟨_, by rw [Option.getD_some, hsect]; rfl⟩
      · exact ⟨0, rfl⟩
    · exact ⟨0, rfl⟩
  rw [hn, List.take_replicate] at hbytes
  exact ⟨min (run.textAt i).room n, by rw [hbytes]; exact spells_nops _⟩

theorem padding_right (htype : b.type = .align) (hseg : segmentBytes b = []) :
    run.TextRight i b := by
  obtain ⟨n, hn⟩ := run.textBytes_padding hb htype hseg
  exact ⟨_, .padding n htype, hn⟩

theorem textBytes_instruction (hs : PlainStatement b) (hrip : RipAtEnd b)
    (hfits : StatementFits (b.located (run.placement i))) :
    ∃ j, anyInstructionOf (run.textBytes i) = some j ∧ Means (b.located (run.placement i)) j ∧
      (ignoresOperands b.type = false → ∀ m, .mem m ∈ b.operands → run.LeadsTo i m) := by
  obtain ⟨encode, hm⟩ := statementFits_machine hfits
  obtain ⟨env, es, hes, hbytes, hleads⟩ := run.text_located hb hm hs
  rw [run.located_stored hrip] at hes
  obtain ⟨j, hread, hmeans⟩ :=
    (yields_statement hm (noLabelOperand_located hs.names) env es hes).mpr hfits
  refine ⟨j, hbytes ▸ hread, hmeans, ?_⟩
  intro hreads m hmem rip href
  obtain ⟨target, htarget, hsum⟩ := hleads hreads m rip hmem href
  refine ⟨target, htarget, ?_⟩
  cases rip with
  | false => simpa [storedPlacement, placement] using hsum
  | true => simpa [storedPlacement, placement, hrip m hmem href] using hsum

theorem instruction_right (hs : PlainStatement b) (hl : HeedsLabels b) (hrip : RipAtEnd b)
    (hfits : StatementFits (b.located (run.placement i))) : run.TextRight i b := by
  obtain ⟨j, hread, hmeans, hleads⟩ := run.textBytes_instruction hb hs hrip hfits
  exact ⟨[j], .instruction j hs hl hleads hmeans, .one hread⟩

theorem textBytes_branch (hc : Consistent ctx) (hsettled : run.ShortTargetsSettled) {name : Label}
    (htype : isControlflow b.type = true) (hops : b.operands = [.label name])
    (hdefined : ∃ j target, InText run.program j target ∧ target.label = some name ∧
      placesLabel target.type = true) :
    ∃ target d, anyInstructionOf (run.textBytes i) =
      some (.inr ⟨branchOperation b.type, [.imm d.toNat]⟩) ∧
        findSymbolAddress final name = some target ∧ run.endAddress i + d = target := by
  obtain ⟨inst, hinst, hrw⟩ := run.program_rewrites.inText_back hb
  have hrewrite := hrw.operands
  rw [hops, List.forall₂_cons_right_iff] at hrewrite
  obtain ⟨op, rest, hop, hrest, hinstOps⟩ := hrewrite
  rw [List.forall₂_nil_right_iff] at hrest
  subst hrest
  have hname : op = .label name := by
    rcases hop with heq | ⟨_, _, _, heq⟩
    · exact heq.symm
    · cases heq
  subst hname
  have hbranch : run.BranchTo i inst name := by
    refine ⟨hinst, by rw [← hrw.type, htype], hinstOps, ?_⟩
    obtain ⟨j, target, hj, hlabel, hplaces⟩ := hdefined
    obtain ⟨a, ha, hra⟩ := run.program_rewrites.inText_back hj
    exact ⟨j, a, ha, hra.label.symm.trans hlabel, hra.type ▸ hplaces⟩
  cases hform : branchForm (run.envAt i inst) inst.type name with
  | none =>
      obtain ⟨v, target, hbytes, htarget, hlead⟩ := hbranch.near hform
      refine ⟨target, _, ?_, htarget, hlead⟩
      rw [hbytes, ← hrw.type]
      exact anyInstructionOf_further (near_read htype v)
  | some rel =>
      have hcall : b.type ≠ .call := by
        intro hcall
        rw [branchForm, ← hrw.type, if_pos hcall] at hform
        cases hform
      obtain ⟨-, -, hbytes, hsign, -⟩ := hbranch.short hform
      obtain ⟨d, target, hd, htarget, hlead⟩ :=
        (run.branchTargetsRight_run hc).mpr hsettled i inst name hbranch
      rw [StoresDisplacement.short run hd hbytes] at hlead
      refine ⟨target, _, ?_, htarget, hlead⟩
      rw [hbytes, ← hrw.type]
      exact anyInstructionOf_further (short_read htype hcall _)

theorem branch_right (hc : Consistent ctx) (hsettled : run.ShortTargetsSettled) {name : Label}
    (htype : isControlflow b.type = true) (hops : b.operands = [.label name])
    (hdefined : ∃ j target, InText run.program j target ∧ target.label = some name ∧
      placesLabel target.type = true) : run.TextRight i b := by
  obtain ⟨target, d, hread, htarget, hlead⟩ := run.textBytes_branch hb hc hsettled htype hops hdefined
  exact ⟨_, .branch name target d htype hops htarget hlead, .one hread⟩

theorem text_right (hc : Consistent ctx) (hsettled : run.ShortTargetsSettled)
    (hfits : run.TextFits i b) : run.TextRight i b := by
  cases hfits with
  | silent h => exact run.silent_right hb h
  | padding htype hseg => exact run.padding_right hb htype hseg
  | instruction hs hl hrip hfits => exact run.instruction_right hb hs hl hrip hfits
  | branch name htype hops hdefined => exact run.branch_right hb hc hsettled htype hops hdefined

end Statement

/-- The instructions of the statements from a position on. -/
def instructionsFrom (js : Nat → List AnyInstruction) (i : Nat) : List AnyInstruction :=
  (List.range' i (run.program.length - i)).flatMap js

theorem textOffset_end : run.textOffset run.program.length = final.textSection.length := by
  rw [textOffset, run.program_length, run.textAt_end, run.final_length]

theorem text_drop_succ {i : Nat} (hi : i < run.program.length) :
    final.textSection.drop (run.textOffset i) =
      run.textBytes i ++ final.textSection.drop (run.textOffset (i + 1)) := by
  have hmono := run.textOffset_mono hi
  have hsplit := List.take_append_drop (run.textOffset (i + 1) - run.textOffset i)
    (final.textSection.drop (run.textOffset i))
  rw [List.drop_drop, Nat.add_sub_cancel' hmono] at hsplit
  exact hsplit.symm

theorem spells_from {js : Nat → List AnyInstruction}
    (hjs : ∀ i < run.program.length, Spells anyInstructionOf (run.textBytes i) (js i)) {i : Nat}
    (hi : i ≤ run.program.length) :
    Spells anyInstructionOf (final.textSection.drop (run.textOffset i)) (run.instructionsFrom js i) := by
  induction hn : run.program.length - i generalizing i with
  | zero =>
      have hlast : i = run.program.length := by omega
      have hnone : run.instructionsFrom js i = [] := by
        rw [instructionsFrom, hn]
        rfl
      rw [hnone, hlast, run.textOffset_end, List.drop_length]
      exact .nil
  | succ n ih =>
      have hlt : i < run.program.length := by omega
      have hfront : run.instructionsFrom js i = js i ++ run.instructionsFrom js (i + 1) := by
        rw [instructionsFrom, instructionsFrom, hn, List.range'_succ, List.flatMap_cons,
          show run.program.length - (i + 1) = n by omega]
      rw [hfront, run.text_drop_succ hlt]
      exact (hjs i hlt).append (ih hlt (by omega))

theorem text_instructions (hall : ∀ i b, InText run.program i b → run.TextRight i b) :
    ∃ js : Nat → List AnyInstruction,
      (∀ i b, InText run.program i b → run.TextMeaning i b (js i)) ∧
        ∀ i < run.program.length, Spells anyInstructionOf (run.textBytes i) (js i) := by
  have hone : ∀ i, ∃ js, (∀ b, InText run.program i b → run.TextMeaning i b js) ∧
      (i < run.program.length → Spells anyInstructionOf (run.textBytes i) js) := by
    intro i
    by_cases hin : ∃ b, InText run.program i b
    · obtain ⟨b, hb⟩ := hin
      obtain ⟨js, hmeaning, hspells⟩ := hall i b hb
      refine ⟨js, fun b' hb' => ?_, fun _ => hspells⟩
      cases hb.get.symm.trans hb'.get
      exact hmeaning
    · push Not at hin
      refine ⟨[], fun b hb => absurd hb (hin b), fun hlt => ?_⟩
      rw [run.textBytes_skip (run.program_length ▸ hlt) hin]
      exact .nil
  choose js hmeaning hspells using hone
  exact ⟨js, hmeaning, hspells⟩

end AssemblyRun

/-- Read from the address of any of its statements on, instruction after instruction, the text
section is exactly the instructions that the statements from there on stand for, when each
statement is one of `TextFits` and short branches are settled. -/
theorem textSection_reads {insts : List ParsedInstruction} {ctx final : AssemblerContext}
    (hfresh : Fresh ctx) (h : asmAssemble insts ctx = (some (), final)) :
    Nonempty (AssemblyRun insts ctx final) ∧ ∀ run : AssemblyRun insts ctx final,
      run.ShortTargetsSettled → (∀ i b, InText run.program i b → run.TextFits i b) →
        ∃ js : Nat → List AnyInstruction,
          (∀ i b, InText run.program i b → run.TextMeaning i b (js i)) ∧
          ∀ i ≤ run.program.length,
            PrefixCode.readAll anyInstructionOf (final.textSection.drop (run.textOffset i)).length
              (final.textSection.drop (run.textOffset i)) = some (run.instructionsFrom js i) := by
  refine ⟨assemblyRun_of_success h, fun run hsettled hfits => ?_⟩
  have hright := fun i b hb => run.text_right hb hfresh.consistent hsettled (hfits i b hb)
  obtain ⟨js, hmeaning, hspells⟩ := run.text_instructions hright
  refine ⟨js, hmeaning, fun i hi => ?_⟩
  exact (PrefixCode.readAll_iff prefixFree_anyInstructionOf).mpr (run.spells_from hspells hi)

/-- Words behind a label are added up, the last one first. -/
def sumWords : List ParsedInstruction :=
  [{ type := .lea, label := some (CString.lit _ "_start"), lineNumber := 1
     operands := [.reg 6 .size64, .mem { isRipRelative := true, label := CString.lit _ "words" }]
     originalLine := CString.lit _ "_start: lea rsi, [rip + words]" },
   { type := .align, operands := [.imm 8], lineNumber := 2
     originalLine := CString.lit _ "align 8" },
   { type := .add, label := some (CString.lit _ "again"), lineNumber := 3
     operands := [.reg 0 .size64, .mem { base := some 6, index := some 1, scale := 8 }]
     originalLine := CString.lit _ "again: add rax, [rsi + rcx*8]" },
   { type := .dec, operands := [.reg 1 .size64], lineNumber := 4
     originalLine := CString.lit _ "dec rcx" },
   { type := .jne, operands := [.label (CString.lit _ "again")], lineNumber := 5
     originalLine := CString.lit _ "jne again" },
   { type := .ret, lineNumber := 6
     originalLine := CString.lit _ "ret" },
   { type := .sectionDir, operands := [.label (CString.lit _ "data")], lineNumber := 7
     originalLine := CString.lit _ "section data" },
   { type := .dq, label := some (CString.lit _ "words"), operands := [.imm 1], lineNumber := 8
     originalLine := CString.lit _ "words: dq 1" }]

def sumWordsProgram : List ParsedInstruction :=
  (sumWords.zip [0x400000#64, 0x400007, 0x400008, 0x40000C, 0x40000F, 0x400011, 0, 0]).map
    fun (inst, address) => { inst with address := address }

theorem sumWords_canonical : canonicalProgram sumWords = sumWords := by decide +kernel
theorem sumWords_program : assembledProgram sumWords emptyContext = sumWordsProgram := by
  decide +kernel
theorem addressOperand_eq {r : Reg} {size : RegSize} {m m' : MemOperand}
    (h : Operand.mem m ∈ [.reg r size, .mem m']) : m = m' := by
  cases List.mem_cons.mp h with
  | inl h => cases h
  | inr h => exact Operand.mem.inj (List.mem_singleton.mp h)

section SumWords

variable {final : AssemblerContext} (run : AssemblyRun sumWords emptyContext final)

theorem sumWords_fits {i : Nat} {b : ParsedInstruction} (hb : InText run.program i b) :
    run.TextFits i b := by
  have hprogram : run.program = sumWordsProgram := run.program_eq.trans sumWords_program
  have hget := hb.get
  have hsect := hb.sect
  have htext := hb.statement
  rw [hprogram] at hget hsect
  rcases i with _ | _ | _ | _ | _ | _ | _ | _ | i
  all_goals cases hget
  · refine .instruction ⟨rfl, rfl, noLabelOperand_of rfl⟩ ?_ ?_
      ⟨⟨by decide, rfl⟩, by decide, rfl, .inl rfl⟩
    · intro m hm _
      cases addressOperand_eq hm
      rfl
    · intro _ _ _
      rfl
  · exact .padding rfl rfl
  · refine .instruction ⟨rfl, rfl, noLabelOperand_of rfl⟩ ?_ ?_ ?_
    · intro m hm hlabel
      cases addressOperand_eq hm
      exact absurd rfl hlabel
    · intro _ _ _
      rfl
    · exact ⟨⟨rfl, by decide, fun h => absurd h (by decide)⟩, by decide, .inr rfl⟩
  · refine .instruction ⟨rfl, rfl, noLabelOperand_of rfl⟩ ?_ ?_ ⟨by decide, .inr rfl⟩
    · intro m hm
      cases List.mem_singleton.mp hm
    · intro _ _ _
      rfl
  · refine .branch _ rfl rfl ⟨2, _, ⟨by rw [hprogram]; rfl, rfl, ?_⟩, rfl, rfl⟩
    rw [hprogram]
    rfl
  · refine .instruction ⟨rfl, rfl, noLabelOperand_of rfl⟩ ?_ ?_ (.inl rfl)
    · intro m hm
      cases hm
    · intro _ _ _
      rfl
  · cases htext
  · cases hsect

theorem sumWords_settled : run.ShortTargetsSettled := by
  have hcanon : run.canon = sumWords := run.canon_eq.trans sumWords_canonical
  intro i inst name h _ k hk
  obtain ⟨other, hother, hlabel⟩ := hk.carries
  have hget := hother.elim InText.get InData.get
  have hbranch := h.text.get
  have hafter := hk.after
  rw [AssemblyRun.passOrder] at hafter
  rw [hcanon] at hget hbranch hafter
  have hi : i = 4 ∧ name = CString.lit _ "again" := by
    have htype := h.branch
    have hops := h.operands
    rcases i with _ | _ | _ | _ | _ | _ | _ | _ | i
    all_goals cases hbranch
    case succ.succ.succ.succ.zero =>
      cases hops
      exact ⟨rfl, rfl⟩
    all_goals cases htype
  obtain ⟨rfl, rfl⟩ := hi
  rcases k with _ | _ | _ | _ | _ | _ | _ | _ | k
  case succ.succ.zero => exact absurd hafter (by decide)
  all_goals cases hget
  all_goals exact absurd hlabel (by decide)

end SumWords

theorem textSection_reads_sumWords :
    Nonempty (AssemblyRun sumWords emptyContext (asmAssemble sumWords emptyContext).2) ∧
      ∀ run : AssemblyRun sumWords emptyContext (asmAssemble sumWords emptyContext).2,
        ∃ js : Nat → List AnyInstruction,
          (∀ i b, InText run.program i b → run.TextMeaning i b (js i)) ∧
          ∀ i ≤ run.program.length, PrefixCode.readAll anyInstructionOf
            ((asmAssemble sumWords emptyContext).2.textSection.drop (run.textOffset i)).length
            ((asmAssemble sumWords emptyContext).2.textSection.drop (run.textOffset i)) =
              some (run.instructionsFrom js i) := by
  have hfresh : Fresh emptyContext := fresh_asmInit _
  have hdone : asmAssemble sumWords emptyContext = _ := asmAssemble_success (by decide +kernel)
  have h := textSection_reads hfresh hdone
  exact ⟨h.1, fun run => h.2 run (sumWords_settled run) fun i b hb => sumWords_fits run hb⟩

end X86Assembler
