import X86Assembler.Library.InstructionFlow
import X86Assembler.ProgramText

namespace X86Assembler

open CString (Byte)
open MachineCode
open PrefixCode (Spells WordAt)

theorem furtherOperation_indirect {type : InstType} {o : FurtherOperation}
    (h : furtherOperation type = some o) :
    o ≠ .jmp ∧ o ≠ .call ∧ ∀ c, o ≠ .jcc c := by
  cases type <;> cases h <;> exact ⟨by decide, by decide, nofun⟩

theorem displacementOf_op {i : FurtherInstruction} {d : Word} (h : displacementOf (.inr i) = some d) :
    i.op = .jmp ∨ i.op = .call ∨ ∃ c, i.op = .jcc c := by
  obtain ⟨op, args⟩ := i
  cases op with
  | jmp => exact .inl rfl
  | call => exact .inr (.inl rfl)
  | jcc c => exact .inr (.inr ⟨c, rfl⟩)
  | _ => cases h

theorem Means.no_displacement {inst : ParsedInstruction} {j : AnyInstruction} (h : Means inst j) :
    displacementOf j = none := by
  rcases j with (i | i) | i
  · rfl
  · rfl
  · have hmeaning : furtherMeaning inst = some i := h
    obtain ⟨o, ho, hargs⟩ := Option.bind_eq_some_iff.mp hmeaning
    obtain ⟨args, -, rfl⟩ := Option.map_eq_some_iff.mp hargs
    obtain ⟨hjmp, hcall, hjcc⟩ := furtherOperation_indirect ho
    rw [Option.eq_none_iff_forall_not_mem]
    intro d hd
    rcases displacementOf_op hd with h | h | ⟨c, h⟩
    · exact hjmp h
    · exact hcall h
    · exact hjcc c h

theorem displacementOf_branch {type : InstType} (hb : isControlflow type = true) (d : Word) :
    displacementOf (.inr ⟨branchOperation type, [.imm d.toNat]⟩) = some d := by
  have hsame : BitVec.ofNat 64 d.toNat = d := by rw [BitVec.ofNat_toNat, BitVec.setWidth_eq]
  cases type
  all_goals
    first
    | exact absurd hb Bool.false_ne_true
    | exact congrArg some hsame

namespace AssemblyRun

variable {insts : List ParsedInstruction} {ctx final : AssemblerContext}
  (run : AssemblyRun insts ctx final)

/-- An offset at an instruction of a statement, or at its end; `back` are its instructions from
there on. -/
structure Within (js : Nat → List AnyInstruction) (i offset : Nat) (back : List AnyInstruction) :
    Prop where
  lt : i < run.program.length
  start : run.textOffset i ≤ offset
  suffix : back <:+ js i
  bytes : ∃ tail, final.textSection.drop offset =
    tail ++ final.textSection.drop (run.textOffset (i + 1)) ∧
      offset + tail.length = run.textOffset (i + 1) ∧ Spells anyInstructionOf tail back

variable {js : Nat → List AnyInstruction}
  (hjs : ∀ i < run.program.length, Spells anyInstructionOf (run.textBytes i) (js i))

include hjs

theorem within_start {i : Nat} (hi : i < run.program.length) :
    run.Within js i (run.textOffset i) (js i) := by
  refine ⟨hi, Nat.le_refl _, List.suffix_refl _, run.textBytes i, run.text_drop_succ hi, ?_, hjs i hi⟩
  have hlen := congrArg List.length (run.text_drop_succ hi)
  rw [List.length_append, List.length_drop, List.length_drop] at hlen
  have hle : run.textOffset (i + 1) ≤ final.textSection.length :=
    run.final_end (run.program_length ▸ hi)
  have hmono := run.textOffset_mono hi
  omega

theorem Within.inText {i offset : Nat} {j : AnyInstruction} {back : List AnyInstruction}
    (h : run.Within js i offset (j :: back)) : ∃ b, InText run.program i b := by
  by_contra hno
  push Not at hno
  have hspells := hjs i h.lt
  rw [run.textBytes_skip (run.program_length ▸ h.lt) hno] at hspells
  have hsuffix := h.suffix
  rw [prefixFree_anyInstructionOf.unique hspells .nil] at hsuffix
  cases List.suffix_nil.mp hsuffix

theorem within_instruction {i offset : Nat} {back : List AnyInstruction}
    (h : run.Within js i offset back) : offset = final.textSection.length ∨
      ∃ i j back, run.Within js i offset (j :: back) := by
  induction hn : run.program.length - i generalizing i back with
  | zero => exact absurd h.lt (by omega)
  | succ n ih =>
      cases back with
      | cons j back => exact .inr ⟨i, j, back, h⟩
      | nil =>
          obtain ⟨tail, -, hend, hspells⟩ := h.bytes
          cases hspells
          by_cases hlast : i + 1 < run.program.length
          · have hnext := run.within_start hjs hlast
            rw [← hend] at hnext
            exact ih hnext (by omega)
          · have hlength : i + 1 = run.program.length := by have := h.lt; omega
            left
            rw [← run.textOffset_end, ← hlength, ← hend]
            rfl

omit hjs in
/-- The instruction that is read there is the one of the statement, and behind it lies the next. -/
theorem Within.step {i offset next : Nat} {j j' : AnyInstruction} {back : List AnyInstruction}
    (h : run.Within js i offset (j :: back)) (hword : WordAt anyInstructionOf final.textSection offset j' next) :
    j' = j ∧ run.Within js i next back := by
  obtain ⟨tail, htext, hend, hspells⟩ := h.bytes
  obtain ⟨word, rest, hdrop, hread, rfl⟩ := hword
  obtain ⟨rfl, tail', rfl, hrest, hspells'⟩ :=
    hspells.front prefixFree_anyInstructionOf hread (htext.symm.trans hdrop)
  refine ⟨rfl, h.lt, Nat.le_add_right_of_le h.start, (List.suffix_cons _ _).trans h.suffix, tail', ?_, ?_,
    hspells'⟩
  · rw [← hrest, ← List.drop_drop, hdrop, List.drop_left]
  · rw [List.length_append] at hend
    omega

/-- What control can come to: the instructions of the statements, and the end of the text. -/
def AtInstruction (js : Nat → List AnyInstruction) (offset : Nat) : Prop :=
  offset = final.textSection.length ∨ ∃ i j back, run.Within js i offset (j :: back)

theorem atInstruction_statement {i : Nat} (hi : i ≤ run.program.length) :
    run.AtInstruction js (run.textOffset i) := by
  rcases Nat.lt_or_eq_of_le hi with hlt | rfl
  · exact run.within_instruction hjs (run.within_start hjs hlt)
  · exact .inl run.textOffset_end

theorem atInstruction_word {offset : Nat} (h : run.AtInstruction js offset) :
    offset = final.textSection.length ∨ ∃ k b j next, InText run.program k b ∧
      run.textOffset k ≤ offset ∧ next ≤ run.textOffset (k + 1) ∧ j ∈ js k ∧
      WordAt anyInstructionOf final.textSection offset j next := by
  rcases h with hend | ⟨i, j, back, h⟩
  · exact .inl hend
  · obtain ⟨b, hb⟩ := h.inText run hjs
    obtain ⟨tail, htext, hend, hspells⟩ := h.bytes
    cases hspells with
    | @cons word rest _ _ hword _ =>
        rw [List.length_append] at hend
        refine .inr ⟨i, b, j, offset + word.length, hb, h.start, by omega,
          h.suffix.mem List.mem_cons_self, word,
          rest ++ final.textSection.drop (run.textOffset (i + 1)), ?_, hword, rfl⟩
        rw [htext, List.append_assoc]

theorem atInstruction_next {offset next : Nat} {j : AnyInstruction} (h : run.AtInstruction js offset)
    (hword : WordAt anyInstructionOf final.textSection offset j next) : run.AtInstruction js next := by
  rcases h with rfl | ⟨i, j', back, h⟩
  · exact absurd (hword.lt prefixFree_anyInstructionOf) (Nat.lt_irrefl _)
  · exact run.within_instruction hjs (Within.step run h hword).2

omit hjs in
/-- Only a branch to a label has a displacement, and it is the last instruction of its statement. -/
theorem TextMeaning.branch_of_displacement {i : Nat} {b : ParsedInstruction} {is : List AnyInstruction}
    (h : run.TextMeaning i b is) {j : AnyInstruction} {back : List AnyInstruction}
    (hsuffix : (j :: back) <:+ is) {d : Word} (hd : displacementOf j = some d) :
    back = [] ∧ ∃ name target, b.operands = [.label name] ∧ isControlflow b.type = true ∧
      findSymbolAddress final name = some target ∧ run.endAddress i + d = target := by
  have hone : ∀ j', is = [j'] → j = j' ∧ back = [] := by
    rintro j' rfl
    have hmem := hsuffix.mem List.mem_cons_self
    have hlen := hsuffix.length_le
    simp only [List.length_cons, List.length_nil] at hlen
    exact ⟨List.mem_singleton.mp hmem, List.eq_nil_of_length_eq_zero (by omega)⟩
  cases h with
  | silent _ => cases List.suffix_nil.mp hsuffix
  | padding n _ =>
      have hmem := List.eq_of_mem_replicate (hsuffix.mem List.mem_cons_self)
      rw [hmem] at hd
      cases hd
  | instruction j' _ _ _ hmeans =>
      obtain ⟨rfl, -⟩ := hone j' rfl
      rw [hmeans.no_displacement] at hd
      cases hd
  | branch name target d' htype hops htarget hlead =>
      obtain ⟨rfl, hback⟩ := hone _ rfl
      rw [displacementOf_branch htype] at hd
      cases hd
      exact ⟨hback, name, target, hops, htype, htarget, hlead⟩

omit hjs in
theorem atInstruction_le {offset : Nat} (h : run.AtInstruction js offset) :
    offset ≤ final.textSection.length := by
  rcases h with rfl | ⟨i, j, back, h⟩
  · exact Nat.le_refl _
  · obtain ⟨tail, -, hend, -⟩ := h.bytes
    have hle : run.textOffset (i + 1) ≤ final.textSection.length :=
      run.final_end (run.program_length ▸ h.lt)
    omega

omit hjs in
theorem branch_target (hc : Consistent ctx) (hd : DistinctLabels run.canon)
    (hroom : final.symbols.length < maxSymbols) {i : Nat} {b : ParsedInstruction} {name : Label}
    (hfits : run.TextFits i b) (htype : isControlflow b.type = true) (hops : b.operands = [.label name]) :
    ∃ k ≤ run.program.length,
      findSymbolAddress final name = some (final.baseAddress + BitVec.ofNat 64 (run.textOffset k)) := by
  cases hfits with
  | silent h =>
      rcases h with hu | ⟨hkind, -⟩
      · rw [isUnencoded, isLabelOnly, hops, List.isEmpty_cons, Bool.and_false, Bool.false_and,
          Bool.or_false, Bool.or_eq_true, beq_iff_eq, beq_iff_eq] at hu
        rcases hu with h | h <;> rw [h] at htype <;> cases htype
      · rw [(silent_directive hkind).2] at htype
        cases htype
  | padding h _ =>
      rw [h] at htype
      cases htype
  | instruction hs _ _ _ =>
      refine absurd ?_ (hs.names name)
      rw [hops]
      exact List.mem_cons_self
  | branch name' _ hops' hdefined =>
      cases hops.symm.trans hops'
      obtain ⟨k, target, hk, hlabel, -⟩ := hdefined
      obtain ⟨a, ha, hra⟩ := run.program_rewrites.inText_back hk
      have hplaced := (run.placed_distinct hc hd hroom (.inl ha) (hra.label.symm.trans hlabel)).hash
      rw [labelAddress, ha.sect] at hplaced
      exact ⟨k, Nat.le_of_lt hk.lt, hplaced⟩

theorem atInstruction_branch (hc : Consistent ctx) (hd : DistinctLabels run.canon)
    (hroom : final.symbols.length < maxSymbols)
    (hmeaning : ∀ i b, InText run.program i b → run.TextMeaning i b (js i))
    (hfits : ∀ i b, InText run.program i b → run.TextFits i b) {offset next : Nat}
    {j : AnyInstruction} {d : Word} (h : run.AtInstruction js offset)
    (hword : WordAt anyInstructionOf final.textSection offset j next)
    (hdisp : displacementOf j = some d) : ∃ target, run.AtInstruction js target ∧
      final.baseAddress + BitVec.ofNat 64 next + d = final.baseAddress + BitVec.ofNat 64 target := by
  rcases h with rfl | ⟨i, j', back, h⟩
  · exact absurd (hword.lt prefixFree_anyInstructionOf) (Nat.lt_irrefl _)
  · obtain ⟨rfl, hnext⟩ := Within.step run h hword
    obtain ⟨b, hb⟩ := h.inText run hjs
    obtain ⟨rfl, name, target, hops, htype, htarget, hlead⟩ :=
      (hmeaning i b hb).branch_of_displacement run h.suffix hdisp
    obtain ⟨tail, -, hend, hspells⟩ := hnext.bytes
    cases hspells
    obtain ⟨k, hk, haddress⟩ := run.branch_target hc hd hroom (hfits i b hb) htype hops
    refine ⟨_, run.atInstruction_statement hjs hk, ?_⟩
    rw [← Option.some.inj (htarget.symm.trans haddress), ← hlead, endAddress, ← hend]
    rfl

end AssemblyRun

/-- From the address of any statement on, control comes to nothing but the instructions of
statements and the end of the text section, as long as it goes from one instruction to the next and
along jumps and calls to labels. -/
theorem control_stays {insts : List ParsedInstruction} {ctx final : AssemblerContext}
    (hfresh : Fresh ctx) (hlabels : DistinctLabels (canonicalProgram insts))
    (h : asmAssemble insts ctx = (some (), final)) (hroom : final.symbols.length < maxSymbols) :
    Nonempty (AssemblyRun insts ctx final) ∧ ∀ run : AssemblyRun insts ctx final,
      run.ShortTargetsSettled → (∀ i b, InText run.program i b → run.TextFits i b) →
        ∃ js : Nat → List AnyInstruction,
          (∀ i b, InText run.program i b → run.TextMeaning i b (js i)) ∧
          ∀ i ≤ run.program.length, ∀ a,
            Reaches final.baseAddress final.textSection
              (final.baseAddress + BitVec.ofNat 64 (run.textOffset i)) a →
            ∃ offset, a = final.baseAddress + BitVec.ofNat 64 offset ∧
              (offset = final.textSection.length ∨ ∃ k b j next, InText run.program k b ∧
                run.textOffset k ≤ offset ∧ next ≤ run.textOffset (k + 1) ∧ j ∈ js k ∧
                WordAt anyInstructionOf final.textSection offset j next) := by
  refine ⟨assemblyRun_of_success h, fun run hsettled hfits => ?_⟩
  have hc := hfresh.consistent
  have hd : DistinctLabels run.canon := by
    rw [run.canon_eq]
    exact hlabels
  have hright := fun i b hb => run.text_right hb hc hsettled (hfits i b hb)
  obtain ⟨js, hmeaning, hjs⟩ := run.text_instructions hright
  refine ⟨js, hmeaning, fun i hi a ha => ?_⟩
  have hlen : final.textSection.length < 2 ^ 64 := by
    rw [← run.textOffset_end]
    exact textAt_length_lt run.lastPass run.start (Nat.le_of_eq run.program_length)
  obtain ⟨offset, hoffset, rfl⟩ := ha.stays hlen (S := run.AtInstruction js)
    (fun offset hoffset => run.atInstruction_le hoffset)
    (fun offset j next hoffset hword => run.atInstruction_next hjs hoffset hword)
    (fun offset j next d hoffset hword hdisp =>
      run.atInstruction_branch hjs hc hd hroom hmeaning hfits hoffset hword hdisp)
    (run.atInstruction_statement hjs hi)
  exact ⟨offset, rfl, run.atInstruction_word hjs hoffset⟩

theorem control_stays_sumWords :
    Nonempty (AssemblyRun sumWords emptyContext (asmAssemble sumWords emptyContext).2) ∧
      ∀ run : AssemblyRun sumWords emptyContext (asmAssemble sumWords emptyContext).2,
        ∃ js : Nat → List AnyInstruction,
          (∀ i b, InText run.program i b → run.TextMeaning i b (js i)) ∧
          ∀ i ≤ run.program.length, ∀ a,
            Reaches (asmAssemble sumWords emptyContext).2.baseAddress
              (asmAssemble sumWords emptyContext).2.textSection
              ((asmAssemble sumWords emptyContext).2.baseAddress +
                BitVec.ofNat 64 (run.textOffset i)) a →
            ∃ offset, a = (asmAssemble sumWords emptyContext).2.baseAddress +
                BitVec.ofNat 64 offset ∧
              (offset = (asmAssemble sumWords emptyContext).2.textSection.length ∨
                ∃ k b j next, InText run.program k b ∧
                  run.textOffset k ≤ offset ∧ next ≤ run.textOffset (k + 1) ∧ j ∈ js k ∧
                  WordAt anyInstructionOf (asmAssemble sumWords emptyContext).2.textSection
                    offset j next) := by
  have hfresh : Fresh emptyContext := fresh_asmInit _
  have hlabels : DistinctLabels (canonicalProgram sumWords) := by
    unfold DistinctLabels
    decide +kernel
  have hdone : asmAssemble sumWords emptyContext = _ := asmAssemble_success (by decide +kernel)
  have h := control_stays hfresh hlabels hdone (by decide +kernel)
  exact ⟨h.1, fun run => h.2 run (sumWords_settled run) fun i b hb => sumWords_fits run hb⟩

end X86Assembler
