import X86Assembler.ElfLoader
import X86Assembler.SourceSteps

namespace X86Assembler

open CString (Byte str)
open Encoder (ignoresOperands memReference)
open LittleEndian (slice)
open MachineCode
open PrefixCode (Spells)

namespace AssemblyRun

variable {insts : List ParsedInstruction} {ctx final : AssemblerContext}
  (run : AssemblyRun insts ctx final)

def addressAt (i : Nat) : Word := final.baseAddress + BitVec.ofNat 64 (run.textOffset i)

theorem addressAt_succ {i : Nat} (hi : i < run.program.length) :
    run.addressAt (i + 1) = run.addressAt i + BitVec.ofNat 64 (run.textBytes i).length := by
  have hmono := run.textOffset_mono hi
  have hend : run.textOffset (i + 1) ≤ final.textSection.length :=
    run.final_end (run.program_length ▸ hi)
  have hlen : run.textOffset (i + 1) = run.textOffset i + (run.textBytes i).length := by
    rw [textBytes, LittleEndian.slice_length (by omega)]
    omega
  rw [addressAt, addressAt, hlen, BitVec.ofNat_add, BitVec.add_assoc]

theorem addressAt_of_empty {i : Nat} (hi : i < run.program.length) (h : run.textBytes i = []) :
    run.addressAt (i + 1) = run.addressAt i := by
  rw [run.addressAt_succ hi, h]
  exact BitVec.add_zero _

theorem holds_textBytes {m : Memory} (hm : m.Holds final.baseAddress final.textSection) {i : Nat}
    (hi : i < run.program.length) : m.Holds (run.addressAt i) (run.textBytes i) := by
  have hend : run.textOffset i ≤ final.textSection.length :=
    Nat.le_trans (run.textOffset_mono hi) (run.final_end (run.program_length ▸ hi))
  have hsplit : final.textSection = final.textSection.take (run.textOffset i) ++
      (run.textBytes i ++ final.textSection.drop (run.textOffset (i + 1))) := by
    rw [← run.text_drop_succ hi, List.take_append_drop]
  rw [hsplit, Memory.holds_append, Memory.holds_append, List.length_take, Nat.min_eq_left hend] at hm
  exact hm.2.1

theorem address_of_label (hc : Consistent ctx) (hd : DistinctLabels run.canon)
    (hroom : final.symbols.length < maxSymbols) {k : Nat} {target : ParsedInstruction} {name : Label}
    (hk : InText run.program k target) (hlabel : target.label = some name) :
    HasAddress final name (run.addressAt k) := by
  obtain ⟨a, ha, hra⟩ := run.program_rewrites.inText_back hk
  have hplaced := run.placed_distinct hc hd hroom (.inl ha) (hra.label.symm.trans hlabel)
  rwa [labelAddress, ha.sect] at hplaced

section Statement

variable {σ : Type} (p : Processor σ) {m : Memory}
  (hm : m.Holds final.baseAddress final.textSection) {i : Nat} {b : ParsedInstruction}
  (hb : InText run.program i b)

include hm hb

theorem runs_padding (htype : b.type = .align) (hfits : run.TextFits i b) (s : σ) :
    Runs p m (run.addressAt i, s) (run.addressAt (i + 1), s) := by
  have hright : ∃ n, Spells anyInstructionOf (run.textBytes i) (List.replicate n nopInstruction) := by
    cases hfits with
    | silent h => exact ⟨0, by rw [run.textBytes_silent hb h]; exact .nil⟩
    | padding _ hseg => exact run.textBytes_padding hb htype hseg
    | instruction _ _ _ hstatement =>
        rw [StatementFits, ParsedInstruction.located, htype] at hstatement
        cases hstatement
    | branch _ hbranch _ _ =>
        rw [htype] at hbranch
        cases hbranch
  obtain ⟨n, hn⟩ := hright
  rw [run.addressAt_succ hb.lt]
  exact runs_nops p hn (run.holds_textBytes hm hb.lt) s

theorem runs_instruction (hplain : PlainStatement b) (hfits : run.TextFits i b) {action : Action}
    (haction : writtenAction (findSymbolAddress final) (run.addressAt (i + 1)) b = some action)
    {s s' : σ} {a : Word} (hact : p.act action (run.addressAt (i + 1)) s = some (s', a)) :
    Runs p m (run.addressAt i, s) (a, s') := by
  cases hfits with
  | silent h => cases haction.symm.trans (silent_noAction hplain h)
  | padding htype _ => cases haction.symm.trans (directive_noAction (by rw [htype]; rfl))
  | instruction _ hheeds hrip hstatement =>
      obtain ⟨j, hread, hmeans, hleads⟩ := run.textBytes_instruction hb hplain hrip hstatement
      have hlead : OperandsLead (findSymbolAddress final) (run.addressAt (i + 1)) (run.placement i)
          b.operands := by
        intro m hmem
        have hseen : ignoresOperands b.type = false := by
          rw [← Bool.not_eq_true]
          intro hignores
          rw [operands_of_ignored haction hignores] at hmem
          cases hmem
        exact ⟨hheeds m hmem, hleads hseen m hmem⟩
      obtain ⟨action', haction', hsame⟩ := hmeans.act_written p hlead
      cases haction.symm.trans haction'
      have hnext := run.addressAt_succ hb.lt
      rw [← hsame, hnext] at hact
      exact runs_act p hread (run.holds_textBytes hm hb.lt) hmeans.no_branch hact
  | branch name _ hops _ =>
      refine absurd ?_ (hplain.names name)
      rw [hops]
      exact List.mem_cons_self

theorem runs_label (hc : Consistent ctx) (hd : DistinctLabels run.canon)
    (hroom : final.symbols.length < maxSymbols) (hsettled : run.ShortTargetsSettled)
    (htype : isControlflow b.type = true) {name : Label} (hops : b.operands = [.label name])
    {k : Nat} {target : ParsedInstruction} (hk : InText run.program k target)
    (hlabel : target.label = some name) (hplaces : placesLabel target.type = true) {s s' : σ}
    {taken : Bool}
    (hbranch : p.branch (branchOperation b.type) (run.addressAt (i + 1)) s = some (s', taken)) :
    Runs p m (run.addressAt i, s) (run.addressAt (if taken then k else i + 1), s') := by
  obtain ⟨a, d, hread, haddress, hlead⟩ :=
    run.textBytes_branch hb hc hsettled htype hops ⟨k, target, hk, hlabel, hplaces⟩
  cases haddress.symm.trans (run.address_of_label hc hd hroom hk hlabel).hash
  have hnext := run.addressAt_succ hb.lt
  rw [hnext] at hbranch
  have hstep := runs_branch p hread (run.holds_textBytes hm hb.lt) (directBranch_label htype d) hbranch
  rw [← hnext] at hstep
  cases taken with
  | true =>
      rw [if_pos rfl] at hstep ⊢
      rwa [show run.addressAt (i + 1) + d = run.addressAt k from hlead] at hstep
  | false => exact hstep

end Statement

section Program

variable {σ : Type} (p : Processor σ) {m : Memory}
  (hm : m.Holds final.baseAddress final.textSection) (hc : Consistent ctx)
  (hd : DistinctLabels run.canon) (hroom : final.symbols.length < maxSymbols)
  (hsettled : run.ShortTargetsSettled) (hfits : ∀ i b, InText run.program i b → run.TextFits i b)

include hm hc hd hroom hsettled hfits

theorem runs_step {i k : Nat} {s s' : σ}
    (h : SourceStep p run.program (findSymbolAddress final) run.addressAt (i, s) (k, s')) :
    Runs p m (run.addressAt i, s) (run.addressAt k, s') := by
  cases h with
  | @skip _ b _ hget hkind =>
      have hi : i < run.program.length := (List.getElem?_eq_some_iff.mp hget).1
      by_cases hb : InText run.program i b
      · rcases hkind hb with hsilent | halign
        · rw [run.addressAt_of_empty hi (run.textBytes_silent hb hsilent)]
          exact .refl
        · exact run.runs_padding p hm hb halign (hfits i b hb) s
      · have hnone : ∀ b', ¬ InText run.program i b' := by
          intro b' hb'
          cases hget.symm.trans hb'.get
          exact hb hb'
        rw [run.addressAt_of_empty hi (run.textBytes_skip (run.program_length ▸ hi) hnone)]
        exact .refl
  | act hb hplain haction hact =>
      exact run.runs_instruction p hm hb hplain (hfits i _ hb) haction hact
  | branch hb htype hops hk hlabel hplaces hbranch =>
      exact run.runs_label p hm hb hc hd hroom hsettled htype hops hk hlabel hplaces hbranch

theorem runs_program {i k : Nat} {s s' : σ}
    (h : SourceRuns p run.program (findSymbolAddress final) run.addressAt (i, s) (k, s')) :
    Runs p m (run.addressAt i, s) (run.addressAt k, s') := by
  generalize hstart : (i, s) = c at h
  generalize hend : (k, s') = c' at h
  induction h generalizing k s' with
  | refl =>
      cases hstart.trans hend.symm
      exact .refl
  | @tail c₁ c₂ _ hstep ih =>
      subst hend
      exact (@ih c₁.1 c₁.2 rfl).trans (run.runs_step p hm hc hd hroom hsettled hfits hstep)

end Program

theorem holds_dataBytes {m : Memory}
    (hm : m.Holds final.baseAddress (final.textSection ++ final.dataSection)) {i : Nat}
    (hi : i < run.program.length) :
    m.Holds (final.baseAddress + BitVec.ofNat 64 final.textSection.length +
      BitVec.ofNat 64 (run.dataOffset i)) (run.dataBytes i) := by
  have hend := run.dataOffset_end (Nat.le_of_lt hi)
  have hback := (Memory.holds_append.mp hm).2
  have hsplit : final.dataSection = final.dataSection.take (run.dataOffset i) ++
      (run.dataBytes i ++ (final.dataSection.drop (run.dataOffset i)).drop
        (run.dataOffset (i + 1) - run.dataOffset i)) := by
    rw [dataBytes, slice, List.take_append_drop, List.take_append_drop]
  rw [hsplit, Memory.holds_append, Memory.holds_append, List.length_take,
    Nat.min_eq_left (by omega)] at hback
  exact hback.2.1

theorem data_of_label (hc : Consistent ctx) (hd : DistinctLabels run.canon)
    (hroom : final.symbols.length < maxSymbols) {k : Nat} {b : ParsedInstruction} {name : Label}
    (hk : InData run.program k b) (hlabel : b.label = some name) :
    findSymbolAddress final name = some (final.baseAddress +
      BitVec.ofNat 64 final.textSection.length + BitVec.ofNat 64 (run.dataOffset k)) := by
  obtain ⟨a, ha, hra⟩ := run.program_rewrites.inData_back hk
  have hplaced := (run.placed_distinct hc hd hroom (.inr ha) (hra.label.symm.trans hlabel)).hash
  rwa [labelAddress, ha.sect] at hplaced

end AssemblyRun

/-- A context as `asm_init` leaves it, up to the options. -/
structure Initial (ctx : AssemblerContext) : Prop where
  fresh : Fresh ctx
  base : ctx.baseAddress = 0x400000
  textCapacity : ctx.textCapacity = BitVec.ofNat 64 maxOutputSize
  dataCapacity : ctx.dataCapacity = BitVec.ofNat 64 maxOutputSize

theorem initial_asmInit (files : Text → Option (List Byte)) : Initial (asmInit files) :=
  ⟨fresh_asmInit files, rfl, rfl, rfl⟩

theorem entryPoint_of_array {ctx : OutputContext} {final : AssemblerContext} {name : Label} {a : Word}
    (hsymbols : ctx.symbols = final.symbols) (hname : name.bytes = str "_start")
    (h : (findSymbolEntry final name).map Symbol.address = some a) : entryPoint ctx = a := by
  have hsame : (ctx.symbols.find? fun sym => sym.name.bytes == str "_start") =
      findSymbolEntry final name := by
    rw [hsymbols, findSymbolEntry]
    congr 1
    funext sym
    rw [← hname]
    exact Bool.eq_iff_iff.mpr (by rw [beq_iff_eq, beq_iff_eq, CString.CStr.ext_iff])
  rw [entryPoint, hsame, h]
  rfl

/-- The written file, once loaded, runs as the program: it has the data behind the labels of the
data section, starts at `_start`, and whatever the statements do one after the other, by whatever
rules of the instructions, the processor does with the bytes. -/
theorem loadedFile_runs {insts : List ParsedInstruction} {ctx final : AssemblerContext}
    (hinit : Initial ctx) (hlabels : DistinctLabels (canonicalProgram insts))
    (h : asmAssemble insts ctx = (some (), final)) (hroom : final.symbols.length < maxSymbols) :
    Nonempty (AssemblyRun insts ctx final) ∧ ∀ run : AssemblyRun insts ctx final,
      run.ShortTargetsSettled → (∀ i b, InText run.program i b → run.TextFits i b) →
        ∀ filename emitDebugMap image,
          asmWriteElf64 (final.toOutput filename emitDebugMap) = some image →
            ∃ process, loadElf image = some process ∧
              (∀ i b name, InText run.program i b → b.label = some name → name.bytes = str "_start" →
                process.entry = run.addressAt i) ∧
              (∀ i b name, InData run.program i b → b.label = some name →
                ∃ a, findSymbolAddress final name = some a ∧
                  process.readable.Holds a (run.dataBytes i)) ∧
              ∀ (σ : Type) (p : Processor σ) i k s s',
                SourceRuns p run.program (findSymbolAddress final) run.addressAt (i, s) (k, s') →
                  Runs p process.code (run.addressAt i, s) (run.addressAt k, s') ∧
                    ∀ c, Runs p process.code (run.addressAt i, s) c →
                      Runs p process.code c (run.addressAt k, s') ∨
                        Runs p process.code (run.addressAt k, s') c := by
  refine ⟨assemblyRun_of_success h, fun run hsettled hfits filename emitDebugMap image himage => ?_⟩
  have hc := hinit.fresh.consistent
  have hd : DistinctLabels run.canon := by
    rw [run.canon_eq]
    exact hlabels
  have htext := run.final_text_fits
  have hdata := run.final_data_fits
  rw [hinit.textCapacity] at htext
  rw [hinit.dataCapacity] at hdata
  have hbase : final.baseAddress = 0x400000 := (run.base_eq hc).trans hinit.base
  obtain ⟨process, hload, hloads⟩ := asmWriteElf64_loads hbase htext hdata himage
  have hheld : process.code.Holds final.baseAddress (final.textSection ++ final.dataSection) :=
    hloads.code
  have hcode := (Memory.holds_append.mp hheld).1
  refine ⟨process, hload, ?_, ?_, ?_⟩
  · intro i b name hi hlabel hname
    have haddress := run.address_of_label hc hd hroom hi hlabel
    exact hloads.entry.trans (entryPoint_of_array rfl hname haddress.array)
  · intro i b name hi hlabel
    refine ⟨_, run.data_of_label hc hd hroom hi hlabel, ?_⟩
    rw [hloads.readable]
    exact run.holds_dataBytes hheld hi.lt
  · intro σ p i k s s' hruns
    have hcome := run.runs_program p hcode hc hd hroom hsettled hfits hruns
    exact ⟨hcome, fun c hother => hother.total hcome⟩

structure WordState where
  registers : Nat → Word
  zero : Bool
  memory : Word → Word

namespace WordState

def set (s : WordState) (n : Nat) (v : Word) : WordState :=
  { s with registers := Function.update s.registers n v }

def lies (s : WordState) (place : Place) : Word :=
  (place.base.map s.registers).getD 0 +
    (place.index.map fun i => s.registers i.1 * BitVec.ofNat 64 i.2).getD 0 + place.offset

def read (s : WordState) : Value → Option Word
  | .reg w n => if w = 64 then some (s.registers n) else none
  | .mem w place => if w = 64 then some (s.memory (s.lies place)) else none
  | .imm v => some (BitVec.ofNat 64 v)
  | _ => none

end WordState

def wideRegister : Value → Option Nat
  | .reg w n => if w = 64 then some n else none
  | _ => none

/-- The register that a number is moved into; 32 bits of it are as good as all. -/
def movedRegister : Value → Option Nat
  | .reg w n => if w = 32 ∨ w = 64 then some n else none
  | _ => none

def wordAct : Action → Word → WordState → Option (WordState × Word)
  | .general .nop [], next, s => some (s, next)
  | .general .mov [dst, .imm v], next, s =>
      (movedRegister dst).map fun n => (s.set n (BitVec.ofNat 64 v), next)
  | .general .xchg [a, b], next, s =>
      (wideRegister a).bind fun i => (wideRegister b).map fun j =>
        ({ s with registers := s.registers ∘ Equiv.swap i j }, next)
  | .general .add [dst, src], next, s =>
      (wideRegister dst).bind fun n => (s.read src).map fun v =>
        ({ s.set n (s.registers n + v) with zero := s.registers n + v == 0 }, next)
  | .general .dec [dst], next, s =>
      (wideRegister dst).map fun n =>
        ({ s.set n (s.registers n - 1) with zero := s.registers n - 1 == 0 }, next)
  | .further .lea [dst, .mem _ place], next, s =>
      (wideRegister dst).map fun n => (s.set n (s.lies place), next)
  | _, _, _ => none

def wordBranch : FurtherOperation → Word → WordState → Option (WordState × Bool)
  | .jmp, _, s => some (s, true)
  | .jcc c, _, s => if c = 5 then some (s, !s.zero) else none
  | _, _, _ => none

def wordProcessor : Processor WordState where
  act := wordAct
  branch := wordBranch
  nop := fun _ _ => rfl
  movNumber := fun _ _ => rfl
  xchgSwap := fun a b => by
    funext next s
    rw [wordAct, wordAct]
    cases wideRegister a <;> cases wideRegister b
    all_goals simp [Equiv.swap_comm]

/-- The state behind `add rax, [rsi + rcx*8]` and `dec rcx`. -/
def WordState.addWord (s : WordState) : WordState :=
  let sum := s.registers 0 + s.memory (s.lies ⟨some 6, some (1, 8), 0⟩)
  { s.set 0 sum |>.set 1 (s.registers 1 - 1) with zero := s.registers 1 - 1 == 0 }

section SumWords

variable (labels : Label → Option Word) (address : Nat → Word)

theorem sumWords_inText : ∀ i : Fin 6, InText sumWordsProgram i sumWordsProgram[i] := by
  have hall : ∀ i : Fin 6, sumWordsProgram[i.val]? = some sumWordsProgram[i] ∧
      isTextStatement sumWordsProgram[i] = true ∧ sectionBefore sumWordsProgram i = .text := by
    decide
  exact fun i => ⟨(hall i).1, (hall i).2.1, (hall i).2.2⟩

theorem sumWords_round (s : WordState) {taken : Bool} (htaken : (!(s.registers 1 - 1 == 0)) = taken) :
    SourceRuns wordProcessor sumWordsProgram labels address (2, s)
      (if taken then 2 else 5, s.addWord) := by
  have hadd : SourceStep wordProcessor sumWordsProgram labels address (2, s)
      (3, { s.set 0 (s.registers 0 + s.memory (s.lies ⟨some 6, some (1, 8), 0⟩)) with
        zero := s.registers 0 + s.memory (s.lies ⟨some 6, some (1, 8), 0⟩) == 0 }) :=
    .act (sumWords_inText 2) ⟨rfl, rfl, noLabelOperand_of rfl⟩ rfl rfl
  have hdec : SourceStep wordProcessor sumWordsProgram labels address
      (3, { s.set 0 (s.registers 0 + s.memory (s.lies ⟨some 6, some (1, 8), 0⟩)) with
        zero := s.registers 0 + s.memory (s.lies ⟨some 6, some (1, 8), 0⟩) == 0 }) (4, s.addWord) :=
    .act (sumWords_inText 3) ⟨rfl, rfl, noLabelOperand_of rfl⟩ rfl rfl
  have hbranch : wordProcessor.branch (.jcc 5) (address 5) s.addWord = some (s.addWord, taken) :=
    congrArg (fun t => some (s.addWord, t)) htaken
  have hjne : SourceStep wordProcessor sumWordsProgram labels address (4, s.addWord)
      (if taken then 2 else 5, s.addWord) :=
    .branch (sumWords_inText 4) rfl rfl (sumWords_inText 2) rfl rfl hbranch
  exact .head hadd (.head hdec (.single hjne))

variable {labels}

theorem sumWords_lea {words : Word} (hwords : labels (CString.lit _ "words") = some words)
    (next : Word) : writtenAction labels next sumWordsProgram[0] =
      some (.further .lea [.reg 64 6, .mem 64 ⟨none, none, words⟩]) := by
  have hplace : ({ isRipRelative := true, label := CString.lit _ "words" } : MemOperand).place
      labels next = some ⟨none, none, words⟩ := by
    rw [MemOperand.place, if_pos (by decide), if_neg (by decide), hwords]
    simp
  have haction : writtenAction labels next sumWordsProgram[0] =
      (writtenValues labels next [64, 64] sumWordsProgram[0].operands).map
        fun values => .further .lea (values ++ []) := rfl
  have hvalue : writtenValue labels next 64
      (.mem { isRipRelative := true, label := CString.lit _ "words" }) =
        some (.mem 64 ⟨none, none, words⟩) := by
    rw [writtenValue, hplace]
    rfl
  rw [haction]
  change ((writtenValue labels next 64 (.reg 6 .size64)).bind fun v =>
    ((writtenValue labels next 64 (.mem { isRipRelative := true, label := CString.lit _ "words" })).bind
      fun v => (some []).map (v :: ·)).map (v :: ·)).map _ = _
  rw [hvalue]
  rfl

theorem sumWords_runs {words : Word} (hwords : labels (CString.lit _ "words") = some words)
    (s : WordState) : SourceRuns wordProcessor sumWordsProgram labels address (0, s)
      (2, s.set 6 (s.lies ⟨none, none, words⟩)) := by
  have hlea : SourceStep wordProcessor sumWordsProgram labels address (0, s)
      (1, s.set 6 (s.lies ⟨none, none, words⟩)) :=
    .act (sumWords_inText 0) ⟨rfl, rfl, noLabelOperand_of rfl⟩ (sumWords_lea hwords _) rfl
  have halign : SourceStep wordProcessor sumWordsProgram labels address
      (1, s.set 6 (s.lies ⟨none, none, words⟩)) (2, s.set 6 (s.lies ⟨none, none, words⟩)) :=
    .skip (sumWords_inText 1).get fun _ => .inr rfl
  exact .head hlea (.single halign)

def twoWords : WordState where
  registers := fun n => if n = 1 then 2 else 0
  zero := false
  memory := fun _ => 21

theorem sumWords_twice {words : Word} (hwords : labels (CString.lit _ "words") = some words) :
    SourceRuns wordProcessor sumWordsProgram labels address (0, twoWords)
      (5, (twoWords.set 6 (twoWords.lies ⟨none, none, words⟩)).addWord.addWord) := by
  have hfirst := @sumWords_round labels address
    (twoWords.set 6 (twoWords.lies ⟨none, none, words⟩)) true
    (show (!((2 : Word) - 1 == 0)) = true by decide)
  have hsecond := @sumWords_round labels address
    (twoWords.set 6 (twoWords.lies ⟨none, none, words⟩)).addWord false
    (show (!((2 : Word) - 1 - 1 == 0)) = false by decide)
  exact (sumWords_runs address hwords twoWords).trans (hfirst.trans hsecond)

theorem sumWords_sum (words : Word) :
    (twoWords.set 6 (twoWords.lies ⟨none, none, words⟩)).addWord.addWord.registers 0 = 42 := rfl

end SumWords

theorem loadedFile_runs_sumWords :
    Nonempty (AssemblyRun sumWords emptyContext (asmAssemble sumWords emptyContext).2) ∧
      ∀ run : AssemblyRun sumWords emptyContext (asmAssemble sumWords emptyContext).2,
        ∃ image process,
          asmWriteElf64 ((asmAssemble sumWords emptyContext).2.toOutput (CString.lit _ "sum") false) =
            some image ∧
          loadElf image = some process ∧ process.entry = run.addressAt 0 ∧
            ∃ s, Runs wordProcessor process.code (process.entry, twoWords) (run.addressAt 5, s) ∧
              s.registers 0 = 42 := by
  have hinit : Initial emptyContext := initial_asmInit _
  have hlabels : DistinctLabels (canonicalProgram sumWords) := by
    unfold DistinctLabels
    decide +kernel
  have hdone : asmAssemble sumWords emptyContext = _ := asmAssemble_success (by decide +kernel)
  have hwritten : (asmWriteElf64 ((asmAssemble sumWords emptyContext).2.toOutput
      (CString.lit _ "sum") false)).isSome = true := by
    decide +kernel
  obtain ⟨image, himage⟩ := Option.isSome_iff_exists.mp hwritten
  have h := loadedFile_runs hinit hlabels hdone (by decide +kernel)
  refine ⟨h.1, fun run => ?_⟩
  obtain ⟨process, hload, hentry, -, hruns⟩ := h.2 run (sumWords_settled run)
    (fun i b hb => sumWords_fits run hb) _ _ image himage
  have hprogram : run.program = sumWordsProgram := run.program_eq.trans sumWords_program
  have hfirst : InText run.program 0 sumWordsProgram[0] := by
    rw [hprogram]
    exact sumWords_inText 0
  have hstart : process.entry = run.addressAt 0 :=
    hentry 0 _ (CString.lit _ "_start") hfirst rfl (by decide)
  have hwords : findSymbolAddress (asmAssemble sumWords emptyContext).2 (CString.lit _ "words") =
      some 0x400012 := by
    decide +kernel
  have hsource := sumWords_twice run.addressAt hwords
  rw [← hprogram] at hsource
  refine ⟨image, process, himage, hload, hstart, _, ?_, sumWords_sum 0x400012⟩
  rw [hstart]
  exact (hruns WordState wordProcessor 0 5 twoWords _ hsource).1

end X86Assembler
