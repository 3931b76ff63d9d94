import X86Assembler.StatementBytes
import X86Assembler.TimesExpansion

namespace X86Assembler

theorem count_mono {f : Nat → Nat} {n : Nat} (h : ∀ i < n, f i ≤ f (i + 1)) : f 0 ≤ f n := by
  induction n with
  | zero => exact Nat.le_refl _
  | succ n ih =>
      apply Nat.le_trans (ih fun i hi => h i (Nat.lt_succ_of_lt hi))
      exact h n (Nat.lt_succ_self n)

theorem count_unchanged_iff {f : Nat → Nat} {n : Nat} (h : ∀ i < n, f i ≤ f (i + 1)) :
    f n = f 0 ↔ ∀ i < n, f (i + 1) = f i := by
  induction n with
  | zero => exact ⟨fun _ i hi => absurd hi (Nat.not_lt_zero i), fun _ => rfl⟩
  | succ n ih =>
      have hbefore : ∀ i < n, f i ≤ f (i + 1) := fun i hi => h i (Nat.lt_succ_of_lt hi)
      have hmono := count_mono hbefore
      have hlast := h n (Nat.lt_succ_self n)
      constructor
      · intro heq i hi
        cases Nat.lt_succ_iff_lt_or_eq.mp hi with
        | inl hlt => exact (ih hbefore).mp (by omega) i hlt
        | inr heq' =>
            subst heq'
            omega
      · intro hall
        rw [hall n (Nat.lt_succ_self n)]
        exact (ih hbefore).mpr fun i hi => hall i (Nat.lt_succ_of_lt hi)

namespace AssemblyRun

variable {insts : List ParsedInstruction} {ctx final : AssemblerContext}
  (run : AssemblyRun insts ctx final)

/-- Every call of `emit_byte` in the last text iteration and in the data pass succeeds: a
call that fails reports the overflow. -/
structure NothingLost : Prop where
  text : run.texted.overflows = (resetForTextPass run.entry).overflows
  data : run.emitted.overflows = (resetForDataPass run.attributed).overflows

/-- Every directive finds room for all its bytes where it is reached. -/
structure DirectivesFit : Prop where
  text : ∀ i b, InText run.program i b →
    (textRequest (run.textAt i) b).length ≤ (run.textAt i).room
  data : ∀ i b, InData run.program i b →
    (dataRequest (run.dataAt i) (run.dataStatement i b)).length ≤ (run.dataAt i).room

theorem text_skip {i : Nat} (hi : i < run.source.length)
    (h : ∀ b, ¬ InText run.program i b) :
    (run.textAt (i + 1)).overflows = (run.textAt i).overflows := by
  have hget : run.source[i]? = some run.source[i] := List.getElem?_eq_getElem hi
  have hnot : ¬ InText run.source i run.source[i] := by
    intro ha
    obtain ⟨b, hb, -⟩ := (textPass_rewrites run.lastPass run.start).inText ha
    exact h b hb
  rw [textAt, (textAt_skip run.lastPass run.start hget hnot).2]
  rfl

theorem data_skip {i : Nat} (hi : i < run.program.length)
    (h : ∀ b, ¬ InData run.program i b) :
    (run.dataAt (i + 1)).overflows = (run.dataAt i).overflows := by
  have hget : run.program[i]? = some run.program[i] := List.getElem?_eq_getElem hi
  rw [dataAt, dataAt_skip run.dataEmitted hget (h _)]
  rfl

theorem text_overflows_iff {i : Nat} (hi : i < run.source.length) :
    (run.textAt i).overflows ≤ (run.textAt (i + 1)).overflows ∧
      ((run.textAt (i + 1)).overflows = (run.textAt i).overflows ↔
        ∀ b, InText run.program i b →
          (textRequest (run.textAt i) b).length ≤ (run.textAt i).room) := by
  by_cases h : ∃ b, InText run.program i b
  · obtain ⟨b, hb⟩ := h
    have hlost := run.text_lost hb
    refine ⟨by omega, ?_⟩
    constructor
    · intro heq b' hb'
      have hsame : b' = b := Option.some.inj (hb'.get.symm.trans hb.get)
      subst hsame
      omega
    · intro hfit
      have hb := hfit b hb
      omega
  · have hnone : ∀ b, ¬ InText run.program i b := fun b hb => h ⟨b, hb⟩
    have hskip := run.text_skip hi hnone
    exact ⟨Nat.le_of_eq hskip.symm, fun _ b hb => absurd hb (hnone b), fun _ => hskip⟩

theorem data_overflows_iff {i : Nat} (hi : i < run.program.length) :
    (run.dataAt i).overflows ≤ (run.dataAt (i + 1)).overflows ∧
      ((run.dataAt (i + 1)).overflows = (run.dataAt i).overflows ↔
        ∀ b, InData run.program i b →
          (dataRequest (run.dataAt i) (run.dataStatement i b)).length ≤ (run.dataAt i).room) := by
  by_cases h : ∃ b, InData run.program i b
  · obtain ⟨b, hb⟩ := h
    have hlost := run.data_lost hb
    refine ⟨by omega, ?_⟩
    constructor
    · intro heq b' hb'
      have hsame : b' = b := Option.some.inj (hb'.get.symm.trans hb.get)
      subst hsame
      omega
    · intro hfit
      have hb := hfit b hb
      omega
  · have hnone : ∀ b, ¬ InData run.program i b := fun b hb => h ⟨b, hb⟩
    have hskip := run.data_skip hi hnone
    exact ⟨Nat.le_of_eq hskip.symm, fun _ b hb => absurd hb (hnone b), fun _ => hskip⟩

/-- An instruction whose bytes find no room makes the assembly fail, a directive does not. -/
theorem nothingLost_run : run.NothingLost ↔ run.DirectivesFit := by
  have htext := count_unchanged_iff (f := fun i => (run.textAt i).overflows)
    fun i hi => (run.text_overflows_iff hi).1
  have hdata := count_unchanged_iff (f := fun i => (run.dataAt i).overflows)
    fun i hi => (run.data_overflows_iff hi).1
  simp only [run.textAt_end] at htext
  simp only [run.dataAt_end] at hdata
  constructor
  · rintro ⟨ht, hd⟩
    constructor
    · intro i b hb
      have hi : i < run.source.length := run.program_length ▸ hb.lt
      exact (run.text_overflows_iff hi).2.mp (htext.mp ht i hi) b hb
    · intro i b hb
      exact (run.data_overflows_iff hb.lt).2.mp (hdata.mp hd i hb.lt) b hb
  · rintro ⟨ht, hd⟩
    constructor
    · exact htext.mpr fun i hi => (run.text_overflows_iff hi).2.mpr (ht i)
    · exact hdata.mpr fun i hi => (run.data_overflows_iff hi).2.mpr (hd i)

end AssemblyRun

/-- Bytes are lost in a run that returns 0 exactly where a directive asks for more than there
is room for. -/
theorem nothingLost_iff {insts : List ParsedInstruction} {ctx final : AssemblerContext}
    (h : asmAssemble insts ctx = (some (), final)) :
    Nonempty (AssemblyRun insts ctx final) ∧
      ∀ run : AssemblyRun insts ctx final, run.NothingLost ↔ run.DirectivesFit :=
  ⟨assemblyRun_of_success h, fun run => run.nothingLost_run⟩

def narrowContext : AssemblerContext := { emptyContext with dataCapacity := 2 }

def threeBytes : List ParsedInstruction :=
  [{ type := .sectionDir, operands := [.label (CString.lit _ "data")]
     originalLine := CString.lit _ "section data" },
   { type := .db, operands := [.imm 1, .imm 2, .imm 3], lineNumber := 2
     originalLine := CString.lit _ "db 1, 2, 3" }]

theorem nothingLost_iff_threeBytes :
    Nonempty (AssemblyRun threeBytes narrowContext (asmAssemble threeBytes narrowContext).2) ∧
      ∀ run : AssemblyRun threeBytes narrowContext (asmAssemble threeBytes narrowContext).2,
        run.NothingLost ↔ run.DirectivesFit :=
  nothingLost_iff (asmAssemble_success (by decide +kernel))

/-- The third byte is lost, and the assembly succeeds. -/
theorem nothingLost_threeBytes :
    parseSource 40 (CString.str "section data\ndb 1, 2, 3") = some (some threeBytes) ∧
      ∃ final, asmAssemble threeBytes narrowContext = (some (), final) ∧
        final.dataSection = [1, 2] ∧
        ∀ run : AssemblyRun threeBytes narrowContext final, ¬ run.NothingLost := by
  refine ⟨by decide +kernel, _, asmAssemble_success (by decide +kernel), by decide +kernel, ?_⟩
  intro run hkept
  have hget : run.program[1]? = some
      { type := .db, operands := [.imm 1, .imm 2, .imm 3], lineNumber := 2
        originalLine := CString.lit _ "db 1, 2, 3" } := by
    rw [run.program_eq]
    decide +kernel
  have hsect : sectionBefore run.program 1 = .data := by
    rw [run.program_eq]
    decide +kernel
  have hfit := (run.nothingLost_run.mp hkept).data 1 _ ⟨hget, by decide, hsect⟩
  rw [AssemblyRun.dataStatement, AssemblyRun.dataAt, run.program_eq, run.attributed_eq] at hfit
  revert hfit
  decide +kernel

end X86Assembler
