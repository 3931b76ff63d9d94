import Mathlib.Data.BitVec
import Mathlib.Tactic.Ring
import X86Assembler.FinalText
import X86Assembler.TimesExpansion

namespace X86Assembler

open CString (Byte)
open Encoder (ignoresOperands immediateBytes memReference isPlainOperand)
open LittleEndian (leBytes ofLeBytes slice)

namespace AssemblyRun

variable {insts : List ParsedInstruction} {ctx final : AssemblerContext}
  (run : AssemblyRun insts ctx final)

/-- A machine instruction of the text section with an operand `[rip + label]`, of a form that
reads its operands. -/
structure RipReference (i : Nat) (inst : ParsedInstruction) (m : MemOperand) : Prop where
  text : InText run.program i inst
  machine : (Encoder.machineEncoder inst.type).isSome = true
  reads : ignoresOperands inst.type = false
  operand : .mem m ∈ inst.operands
  rip : m.isRipRelative = true
  label : m.label ≠ Label.empty

/-- The address of the first byte after a statement of the text section. -/
def endAddress (i : Nat) : Word := final.baseAddress + BitVec.ofNat 64 (run.textOffset (i + 1))

/-- The disp32 of a statement: the four bytes in front of its immediate. -/
def disp32 (i : Nat) (inst : ParsedInstruction) : BitVec 32 :=
  ofLeBytes 32 (slice final.textSection (run.textOffset (i + 1) - (immediateBytes inst + 4)) 4)

/-- What the processor computes for the reference is the final address of the label, plus the
number written next to it. -/
def RipReferencesRight : Prop :=
  ∀ i inst m, run.RipReference i inst m → ∃ target, findSymbolAddress final m.label = some target ∧
    run.endAddress i + (run.disp32 i inst).signExtend 64 = target + m.displacement.signExtend 64

theorem RipReference.reference {i : Nat} {inst : ParsedInstruction} {m : MemOperand}
    (h : run.RipReference i inst m) : memReference m = some true := by
  rw [memReference, if_neg h.label, if_pos h.rip]

theorem RipReference.not_plain {i : Nat} {inst : ParsedInstruction} {m : MemOperand}
    (h : run.RipReference i inst m) : isPlainOperand (.mem m) = false := by
  rw [isPlainOperand, h.reference]
  rfl

theorem RipReference.encoded {i : Nat} {inst : ParsedInstruction} {m : MemOperand}
    (h : run.RipReference i inst m) : ∃ (env : EncodeEnv) (pre post : List Byte),
      post.length = immediateBytes inst ∧ run.Encodes i inst env (pre.map .byte ++
        .fixup m.label 4 .mov true :: (leBytes 4 m.displacement ++ post).map .byte) := by
  obtain ⟨encode, hm⟩ := Option.isSome_iff_exists.mp h.machine
  have hl : isLabelOnly inst = false := by
    have hne : inst.operands.isEmpty = false := by
      rw [List.isEmpty_eq_false_iff]
      exact List.ne_nil_of_mem h.operand
    rw [isLabelOnly, hne, Bool.and_false, Bool.false_and]
  obtain ⟨a, es, -, henc⟩ := run.text_encodes h.text hm hl
  refine ⟨(placeLabel (run.textAt i) a).encodeEnv, ?_⟩
  rcases henc.encoded with ⟨bs, hops⟩ | ⟨pre, post, m', rip, hop, href, hothers, himm⟩ |
    ⟨pre, name, r, size, hops⟩ | ⟨name, rel, htype, hops, hreach⟩ | ⟨name, htype, hops⟩
  · rcases hops _ h.operand with hplain | hignored
    · rw [h.not_plain] at hplain
      cases hplain
    · simp [Encoder.ignoresOperand, h.reads, Encoder.isMemOperand] at hignored
  · rcases hothers _ h.operand with heq | hplain
    · cases heq
      rw [h.reference] at href
      cases href
      exact ⟨pre, post, himm, henc⟩
    · rw [h.not_plain] at hplain
      cases hplain
  · have hmem := h.operand
    simp [hops] at hmem
  · have hmem := h.operand
    simp [hops] at hmem
  · have hmem := h.operand
    simp [hops] at hmem

theorem ripReference_displacement {i : Nat} {inst : ParsedInstruction} {m : MemOperand}
    (h : run.RipReference i inst m) : ∃ target, findSymbolAddress final m.label = some target ∧
      run.endAddress i + (run.disp32 i inst).signExtend 64 =
        target + m.displacement.signExtend 64 + BitVec.ofNat 64 (immediateBytes inst) := by
  obtain ⟨env, pre, post, hpost, henc⟩ := h.encoded
  have hes : bytesOf (pre.map .byte ++ .fixup m.label 4 .mov true ::
      (leBytes 4 m.displacement ++ post).map .byte) = pre ++ leBytes 4 m.displacement ++ post := by
    rw [bytesOf_append, bytesOf_map_byte, bytesOf_fixup, bytesOf_map_byte, List.append_assoc]
  have hfs : fixupsOf (final.baseAddress + BitVec.ofNat 64 (run.textOffset i)) (pre.map .byte ++
      .fixup m.label 4 .mov true :: (leBytes 4 m.displacement ++ post).map .byte) =
        [⟨m.label, final.baseAddress + BitVec.ofNat 64 (run.textOffset i) +
          BitVec.ofNat 64 pre.length, 4, .mov, true⟩] := by
    rw [fixupsOf_append, fixupsOf_map_byte, bytesOf_map_byte, fixupsOf, fixupsOf_map_byte]
    rfl
  obtain ⟨target, htarget, hvalue⟩ := henc.final_fixup hes hfs
  have hend : run.textOffset (i + 1) = run.textOffset i + pre.length + 4 + immediateBytes inst := by
    rw [henc.offset_succ, hes, List.length_append, List.length_append,
      LittleEndian.leBytes_length, hpost]
    omega
  have hplace : run.textOffset (i + 1) - (immediateBytes inst + 4) =
      run.textOffset i + pre.length := by omega
  refine ⟨target, htarget, ?_⟩
  rw [disp32, hplace, hvalue, endAddress, hend]
  simp only [Fixup.value, Bool.true_or, if_true, BitVec.ofNat_add]
  ring

theorem immediateBytes_le (inst : ParsedInstruction) : immediateBytes inst ≤ 4 := by
  rw [immediateBytes]
  repeat' split
  all_goals omega

theorem ofNat_eq_zero_iff {n : Nat} (h : n ≤ 4) : BitVec.ofNat 64 n = 0 ↔ n = 0 := by
  constructor
  · intro heq
    have hnat := congrArg BitVec.toNat heq
    rw [BitVec.toNat_ofNat, Nat.mod_eq_of_lt (by omega)] at hnat
    exact hnat
  · rintro rfl
    rfl

theorem ripReferencesRight_run : run.RipReferencesRight ↔
    ∀ i inst m, run.RipReference i inst m → immediateBytes inst = 0 := by
  constructor
  · intro hright i inst m h
    obtain ⟨target, htarget, hvalue⟩ := run.ripReference_displacement h
    obtain ⟨target', htarget', hvalue'⟩ := hright i inst m h
    rw [htarget] at htarget'
    cases htarget'
    rw [hvalue] at hvalue'
    apply (ofNat_eq_zero_iff (immediateBytes_le inst)).mp
    simpa using hvalue'
  · intro hnone i inst m h
    obtain ⟨target, htarget, hvalue⟩ := run.ripReference_displacement h
    refine ⟨target, htarget, ?_⟩
    rw [hvalue, hnone i inst m h, BitVec.add_zero]

end AssemblyRun

/-- A RIP-relative operand names its label right exactly when no immediate follows the
displacement. -/
theorem ripReferencesRight_iff {insts : List ParsedInstruction} {ctx final : AssemblerContext}
    (h : asmAssemble insts ctx = (some (), final)) :
    Nonempty (AssemblyRun insts ctx final) ∧
      ∀ run : AssemblyRun insts ctx final, run.RipReferencesRight ↔
        ∀ i inst m, run.RipReference i inst m → immediateBytes inst = 0 :=
  ⟨assemblyRun_of_success h, fun run => run.ripReferencesRight_run⟩

/-- What the parser makes of a store of a number to a label. -/
def storeProgram : List ParsedInstruction :=
  [{ type := .nop, label := some (CString.lit _ "x"), originalLine := CString.lit _ "x:" },
   { type := .mov
     operands := [.mem { isRipRelative := true, label := CString.lit _ "x" }, .imm 1]
     lineNumber := 2
     originalLine := CString.lit _ "mov [rip + x], 1" }]

theorem storeProgram_assembles : (asmAssemble storeProgram emptyContext).1 = some () := by
  decide +kernel

theorem ripReferencesRight_iff_store :
    Nonempty (AssemblyRun storeProgram emptyContext (asmAssemble storeProgram emptyContext).2) ∧
      ∀ run : AssemblyRun storeProgram emptyContext (asmAssemble storeProgram emptyContext).2,
        run.RipReferencesRight ↔
          ∀ i inst m, run.RipReference i inst m → immediateBytes inst = 0 :=
  ripReferencesRight_iff (asmAssemble_success storeProgram_assembles)

/-- The four bytes of the number stand between the displacement and the next instruction. -/
theorem ripReferences_store :
    parseSource 40 (CString.str "x:\nmov [rip + x], 1") = some (some storeProgram) ∧
      ∃ final, asmAssemble storeProgram emptyContext = (some (), final) ∧
        ∀ run : AssemblyRun storeProgram emptyContext final, ¬ run.RipReferencesRight := by
  refine ⟨by decide +kernel, _, asmAssemble_success storeProgram_assembles, ?_⟩
  intro run hright
  have hget : run.program[1]? = some
      { type := .mov
        operands := [.mem { isRipRelative := true, label := CString.lit _ "x" }, .imm 1]
        address := 0x400000
        lineNumber := 2
        originalLine := CString.lit _ "mov [rip + x], 1" } := by
    rw [run.program_eq]
    decide +kernel
  have hsect : sectionBefore run.program 1 = .text := by
    rw [run.program_eq]
    decide +kernel
  have hzero := run.ripReferencesRight_run.mp hright 1 _ _
    ⟨⟨hget, rfl, hsect⟩, rfl, rfl, List.mem_cons_self, rfl, by decide⟩
  exact absurd hzero (by decide)

end X86Assembler
