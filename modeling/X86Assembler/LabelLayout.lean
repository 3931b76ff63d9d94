import Mathlib.Data.Set.Finite.Lemmas
import X86Assembler.FinalText
import X86Assembler.TimesExpansion

namespace X86Assembler

open CString (Byte)

/-- A context as `asm_init` leaves it, up to its options. -/
structure Fresh (ctx : AssemblerContext) : Prop where
  symbols : ctx.symbols = []
  symbolHash : ctx.symbolHash = fun _ => []

theorem Fresh.consistent {ctx : AssemblerContext} (h : Fresh ctx) : Consistent ctx :=
  consistent_empty h.symbols h.symbolHash

theorem fresh_asmInit (files : Text → Option (List Byte)) : Fresh (asmInit files) := ⟨rfl, rfl⟩

/-- The array and the hash table both give a name this address. -/
structure HasAddress (ctx : AssemblerContext) (name : Label) (address : Word) : Prop where
  array : (findSymbolEntry ctx name).map Symbol.address = some address
  hash : findSymbolAddress ctx name = some address

theorem Consistent.hasAddress {ctx : AssemblerContext} (h : Consistent ctx) {name : Label}
    {v : SymbolView} (hv : ctx.view name = some v) : HasAddress ctx name v.address where
  array := by
    obtain ⟨sym, hsym, rfl⟩ := Option.map_eq_some_iff.mp hv
    rw [hsym]
    rfl
  hash := by rw [h.findSymbolAddress, hv]; rfl

def DistinctLabels (insts : List ParsedInstruction) : Prop :=
  (insts.filterMap ParsedInstruction.label).Nodup

theorem DistinctLabels.index_eq {insts : List ParsedInstruction} (h : DistinctLabels insts)
    {i j : Nat} {a b : ParsedInstruction} (ha : insts[i]? = some a) (hb : insts[j]? = some b)
    {name : Label} (hla : a.label = some name) (hlb : b.label = some name) : i = j := by
  rw [DistinctLabels, List.Nodup, List.pairwise_filterMap, List.pairwise_iff_getElem] at h
  obtain ⟨hi, rfl⟩ := List.getElem?_eq_some_iff.mp ha
  obtain ⟨hj, rfl⟩ := List.getElem?_eq_some_iff.mp hb
  by_contra hne
  rcases Nat.lt_or_gt_of_ne hne with hlt | hlt
  · exact h i j hi hj hlt name hla name hlb rfl
  · exact h j i hj hi hlt name hlb name hla rfl

namespace AssemblyRun

variable {insts : List ParsedInstruction} {ctx final : AssemblerContext}
  (run : AssemblyRun insts ctx final)

theorem layout_keeps (hc : Consistent ctx) : LayoutKeeps ctx run.layout :=
  (LayoutKeeps.mk (.of_eq rfl rfl) rfl : LayoutKeeps ctx { ctx with lastError := none }).trans
    (layoutProgram_keeps (hc.congr rfl rfl) run.laidOut)

theorem entry_table (hc : Consistent ctx) :
    TableKeeps ctx (resetForTextPass run.entry) :=
  ((run.layout_keeps hc).table.trans (textReaches_keeps run.reached).table).trans (.of_eq rfl rfl)

theorem final_table : TableKeeps run.texted final := by
  have hdata : TableKeeps (resetForDataPass run.attributed) run.emitted := run.emitted_grows.table
  have hreset : TableKeeps run.attributed (resetForDataPass run.attributed) := .of_eq rfl rfl
  have hresolve : TableKeeps run.emitted final :=
    .of_eq run.resolves.symbols run.resolves.symbolHash
  exact ((run.attributed_emits.table.keeps.trans hreset).trans hdata).trans hresolve

theorem texted_table : TableKeeps (resetForTextPass run.entry) run.texted := by
  have h := (textGrows_between run.lastPass run.start (Nat.zero_le _) (Nat.le_refl _)).table
  rwa [textAt_zero, textAt_length run.lastPass] at h

include run in
theorem consistent (hc : Consistent ctx) : Consistent final :=
  run.final_table.consistent (run.texted_table.consistent ((run.entry_table hc).consistent hc))

include run in
theorem base_eq (hc : Consistent ctx) : final.baseAddress = ctx.baseAddress := by
  rw [run.final_base, (textReaches_keeps run.reached).setup.baseAddress]
  exact congrArg Settings.baseAddress (run.layout_keeps hc).settings

theorem source_rewrites : RewritesAll run.canon run.source :=
  (textReaches_keeps run.reached).rewrites

theorem program_rewrites : RewritesAll run.canon run.program :=
  run.source_rewrites.trans (textPass_rewrites run.lastPass run.start)

theorem label_entry (hc : Consistent ctx) (hroom : final.symbols.length < maxSymbols)
    {inst : ParsedInstruction} (hmem : inst ∈ run.canon) (ht : inst.type ≠ .sectionDir)
    {name : Label} (hl : inst.label = some name) :
    ((resetForTextPass run.entry).view name).isSome := by
  have hentry : TableKeeps run.layout (resetForTextPass run.entry) :=
    (textReaches_keeps run.reached).table.trans (.of_eq rfl rfl)
  have hlen := Nat.le_trans hentry.length_le
    (Nat.le_trans run.texted_table.length_le run.final_table.length_le)
  have hstart : Consistent { ctx with lastError := none } := hc.congr rfl rfl
  have hknown := layoutProgram_known hstart run.laidOut (Nat.lt_of_le_of_lt hlen hroom) hmem ht hl
  exact hentry.known ((run.layout_keeps hc).table.consistent hc) name hknown

theorem final_view (name : Label) : final.view name = run.emitted.view name :=
  view_congr run.resolves.symbols name

def Carries (k : Nat) (name : Label) : Prop :=
  ∃ inst, (InText run.canon k inst ∨ InData run.canon k inst) ∧ inst.label = some name

/-- The order in which the last text pass and the data pass come to the statements. -/
def passOrder (k : Nat) : Nat :=
  match sectionBefore run.canon k with
  | .text => k
  | .data => run.canon.length + k

def labelAddress (k : Nat) : Word :=
  match sectionBefore run.canon k with
  | .text => final.baseAddress + BitVec.ofNat 64 (run.textOffset k)
  | .data => final.baseAddress + BitVec.ofNat 64 final.textSection.length +
      BitVec.ofNat 64 (run.dataOffset k)

theorem InText.passOrder {k : Nat} {inst : ParsedInstruction} (h : InText run.canon k inst) :
    run.passOrder k = k := by
  rw [AssemblyRun.passOrder, h.sect]

theorem InData.passOrder {k : Nat} {inst : ParsedInstruction} (h : InData run.canon k inst) :
    run.passOrder k = run.canon.length + k := by
  rw [AssemblyRun.passOrder, h.sect]

theorem exists_last {k : Nat} {name : Label} (hk : run.Carries k name) :
    ∃ m, run.Carries m name ∧ ∀ j, run.Carries j name → run.passOrder j ≤ run.passOrder m := by
  have hfinite : {k | run.Carries k name}.Finite := by
    refine (Set.finite_lt_nat run.canon.length).subset ?_
    rintro j ⟨other, hj | hj, -⟩
    · exact hj.lt
    · exact hj.lt
  exact Set.exists_max_image _ run.passOrder hfinite ⟨k, hk⟩

section Placed

variable (hc : Consistent ctx)

include hc

theorem textAt_consistent {i : Nat} (hi : i ≤ run.source.length) :
    Consistent (run.textAt i) :=
  (textGrows_between run.lastPass run.start (Nat.zero_le i) hi).table.consistent
    ((run.entry_table hc).consistent hc)

theorem texted_consistent : Consistent run.texted :=
  run.texted_table.consistent ((run.entry_table hc).consistent hc)

theorem attributed_consistent : Consistent run.attributed :=
  run.attributed_emits.table.consistent (run.texted_consistent hc)

theorem dataAt_consistent {i : Nat} (hi : i ≤ run.program.length) : Consistent (run.dataAt i) := by
  have hstart : Consistent (resetForDataPass run.attributed) :=
    (run.attributed_consistent hc).congr rfl rfl
  exact (dataGrows_between run.dataEmitted (Nat.zero_le i) hi).table.consistent hstart

omit hc in
theorem data_address {i : Nat} (hi : i ≤ run.program.length) : (run.dataAt i).currentAddress =
    final.baseAddress + BitVec.ofNat 64 final.textSection.length +
      BitVec.ofNat 64 (run.dataOffset i) := by
  have hlength : run.attributed.textSection.length = final.textSection.length := by
    rw [run.final_length, ← run.emitted_text]
    exact congrArg List.length run.emitted_grows.text.symm
  have hbase : run.attributed.baseAddress = final.baseAddress := by
    rw [run.resolves.baseAddress]
    exact (congrArg Settings.baseAddress run.emitted_grows.settings).symm
  rw [← hlength, ← hbase]
  exact dataAt_address run.dataEmitted hi

/-- What the text pass has made of a name at some position stays if no later statement moves it. -/
theorem view_unmoved_from {i : Nat} (hi : i ≤ run.source.length) {name : Label} {v : SymbolView}
    (hv : (run.textAt i).view name = some v)
    (htext : ∀ k b, i ≤ k → InText run.source k b → b.label = some name →
      labelMoves (run.textAt k) b = false)
    (hdata : ∀ k b, InData run.program k b → b.label = some name →
      labelMoves (run.dataAt k) b = false) : final.view name = some v := by
  have hcstart := (run.entry_table hc).consistent hc
  have hend := textAt_view_unmoved run.lastPass run.start hcstart hi (Nat.le_refl _) hv
    fun k b hk _ => htext k b hk
  rw [textAt_length run.lastPass] at hend
  have hattr := run.attributed_emits.table.kept (run.texted_consistent hc) name _ hend
  have hlast := dataAt_view_unmoved run.dataEmitted (run.attributed_consistent hc) (Nat.zero_le _)
    (Nat.le_refl _) hattr fun k b _ _ => hdata k b
  rwa [dataAt_length run.dataEmitted, ← run.final_view] at hlast

theorem view_kept_from {i : Nat} (hi : i ≤ run.source.length) {name : Label} {v : SymbolView}
    (hv : (run.textAt i).view name = some v)
    (hlast : ∀ k, run.Carries k name → run.passOrder k < i) : final.view name = some v := by
  refine run.view_unmoved_from hc hi hv (fun k b hk hb hlb => ?_) fun k b hb hlb => ?_
  · obtain ⟨b', hb', hrw⟩ := run.source_rewrites.inText_back hb
    have hlt := hlast k ⟨b', .inl hb', hrw.label.symm.trans hlb⟩
    rw [InText.passOrder run hb'] at hlt
    omega
  · obtain ⟨b', hb', hrw⟩ := run.program_rewrites.inData_back hb
    have hlt := hlast k ⟨b', .inr hb', hrw.label.symm.trans hlb⟩
    rw [InData.passOrder run hb', ← run.source_rewrites.length] at hlt
    omega

theorem placed_last {i k : Nat} (hi : i ≤ run.source.length) {name : Label}
    (hknown : ((run.textAt i).view name).isSome) (hk : run.Carries k name)
    (hle : i ≤ run.passOrder k) (hlast : ∀ j, run.Carries j name → run.passOrder j ≤ run.passOrder k) :
    HasAddress final name (run.labelAddress k) := by
  have hcstart := (run.entry_table hc).consistent hc
  obtain ⟨inst, hsect | hsect, hl⟩ := hk
  · obtain ⟨a, ha, hrw⟩ := run.source_rewrites.inText hsect
    have hla : a.label = some name := hrw.label.trans hl
    rw [InText.passOrder run hsect] at hle hlast
    have hgrows := textGrows_between run.lastPass run.start hle (Nat.le_of_lt ha.lt)
    obtain ⟨v, hv⟩ := Option.isSome_iff_exists.mp
      (hgrows.table.known (run.textAt_consistent hc hi) name hknown)
    have hplaced := textAt_view_placed run.lastPass run.start hcstart ha hla hv
    have hfinal := run.view_kept_from hc (Nat.succ_le_of_lt ha.lt) hplaced fun j hj =>
      Nat.lt_succ_of_le (hlast j hj)
    have h := (run.consistent hc).hasAddress hfinal
    have haddr : (X86Assembler.textAt run.source (resetForTextPass run.entry) k).currentAddress =
        run.labelAddress k := by
      rw [labelAddress, hsect.sect]
      exact run.text_address (Nat.le_of_lt ha.lt)
    rw [haddr] at h
    exact h
  · obtain ⟨b, hb, hrw⟩ := run.program_rewrites.inData hsect
    have hlb : b.label = some name := hrw.label.trans hl
    have hctext := run.texted_consistent hc
    have hcattr := run.attributed_consistent hc
    have hcdata := run.dataAt_consistent hc (Nat.zero_le _)
    have htext := (textGrows_between run.lastPass run.start hi (Nat.le_refl _)).table.known
      (run.textAt_consistent hc hi) name hknown
    rw [textAt_length run.lastPass] at htext
    have hattr := run.attributed_emits.table.keeps.known hctext name htext
    have hgrows := dataGrows_between run.dataEmitted (Nat.zero_le k) (Nat.le_of_lt hb.lt)
    obtain ⟨v, hv⟩ := Option.isSome_iff_exists.mp (hgrows.table.known hcdata name hattr)
    have hplaced := dataAt_view_placed run.dataEmitted hcattr hb hlb hv
    have hdata := dataAt_view_kept run.dataEmitted hcattr (Nat.succ_le_of_lt hb.lt) (Nat.le_refl _)
      hplaced fun j c hj _ hcj hlc => by
        obtain ⟨c', hc', hrw'⟩ := run.program_rewrites.inData_back hcj
        have hle' := hlast j ⟨c', .inr hc', hrw'.label.symm.trans hlc⟩
        rw [InData.passOrder run hsect, InData.passOrder run hc'] at hle'
        omega
    rw [dataAt_length run.dataEmitted, ← run.final_view] at hdata
    have h := (run.consistent hc).hasAddress hdata
    rw [show (X86Assembler.dataAt run.program run.attributed k).currentAddress = _ from
      run.data_address (Nat.le_of_lt hb.lt)] at h
    rw [labelAddress, hsect.sect]
    exact h

end Placed

section Distinct

variable (hc : Consistent ctx) (hd : DistinctLabels run.canon)
  (hroom : final.symbols.length < maxSymbols)

include hc hd hroom

theorem placed_distinct {k : Nat} {inst : ParsedInstruction}
    (hk : InText run.canon k inst ∨ InData run.canon k inst) {name : Label}
    (hl : inst.label = some name) : HasAddress final name (run.labelAddress k) := by
  have hget : run.canon[k]? = some inst := hk.elim InText.get InData.get
  have hne : inst.type ≠ .sectionDir := hk.elim InText.not_section InData.not_section
  refine run.placed_last hc (Nat.zero_le _)
    (run.label_entry hc hroom (List.mem_of_getElem? hget) hne hl) ⟨inst, hk, hl⟩ (Nat.zero_le _) ?_
  rintro j ⟨other, hj, hlj⟩
  have heq := hd.index_eq (hj.elim InText.get InData.get) hget hlj hl
  rw [heq]

end Distinct

/-- A statement whose label stands for the place where it lies. -/
def placesLabel (type : InstType) : Bool :=
  type != .equ && type != .sectionDir && type != .weak && type != .hidden

/-- Every label has the address of the bytes behind it, in the array and in the hash table. -/
def LabelsPlaced : Prop :=
  ∀ i inst name, run.canon[i]? = some inst → inst.label = some name →
    placesLabel inst.type = true →
    (sectionBefore run.canon i = .text →
      HasAddress final name (ctx.baseAddress + BitVec.ofNat 64 (run.textOffset i))) ∧
    (sectionBefore run.canon i = .data →
      HasAddress final name (ctx.baseAddress + BitVec.ofNat 64 final.textSection.length +
        BitVec.ofNat 64 (run.dataOffset i)))

theorem labelsPlaced_run (hc : Consistent ctx) (hd : DistinctLabels run.canon)
    (hroom : final.symbols.length < maxSymbols) : run.LabelsPlaced := by
  intro i inst name hget hl htype
  simp only [placesLabel, Bool.and_eq_true, bne_iff_ne] at htype
  constructor
  · intro hsect
    have hstatement : isTextStatement inst = true := by
      simp [isTextStatement, htype.1.1.2, htype.1.2, htype.2]
    have h := run.placed_distinct hc hd hroom (.inl ⟨hget, hstatement, hsect⟩) hl
    rwa [labelAddress, hsect, run.base_eq hc] at h
  · intro hsect
    have h := run.placed_distinct hc hd hroom (.inr ⟨hget, htype.1.1.2, hsect⟩) hl
    rwa [labelAddress, hsect, run.base_eq hc] at h

end AssemblyRun

/-- Label layout, for labels that are distinct once the local ones are made global. -/
theorem labelsPlaced {insts : List ParsedInstruction} {ctx final : AssemblerContext}
    (hfresh : Fresh ctx) (hlabels : DistinctLabels (canonicalProgram insts))
    (h : asmAssemble insts ctx = (some (), final)) (hroom : final.symbols.length < maxSymbols) :
    Nonempty (AssemblyRun insts ctx final) ∧
      ∀ run : AssemblyRun insts ctx final, run.LabelsPlaced := by
  refine ⟨assemblyRun_of_success h, ?_⟩
  intro run
  apply run.labelsPlaced_run hfresh.consistent
  · rw [run.canon_eq]
    exact hlabels
  · exact hroom

def twoSections : List ParsedInstruction :=
  [{ type := .sectionDir, operands := [.label (CString.lit _ "data")]
     originalLine := CString.lit _ "section data" },
   { type := .db, label := some (CString.lit _ "d"), operands := [.imm 1], lineNumber := 2
     originalLine := CString.lit _ "d: db 1" },
   { type := .sectionDir, operands := [.label (CString.lit _ "text")], lineNumber := 3
     originalLine := CString.lit _ "section text" },
   { type := .ret, label := some (CString.lit _ "a"), lineNumber := 4
     originalLine := CString.lit _ "a: ret" }]

theorem labelsPlaced_twoSections :
    Nonempty (AssemblyRun twoSections emptyContext (asmAssemble twoSections emptyContext).2) ∧
      ∀ run : AssemblyRun twoSections emptyContext (asmAssemble twoSections emptyContext).2,
        run.LabelsPlaced :=
  labelsPlaced (fresh_asmInit _) (by unfold DistinctLabels; decide +kernel)
    (asmAssemble_success (by decide +kernel)) (by decide +kernel)

def collidingLabels : List ParsedInstruction :=
  [{ type := .ret, label := some (CString.lit _ "__loc_1_x")
     originalLine := CString.lit _ "__loc_1_x: ret" },
   { type := .ret, label := some (CString.lit _ ".x"), lineNumber := 2
     originalLine := CString.lit _ ".x: ret" }]

/-- Both statements share one symbol, which ends up at the second. -/
theorem labelsPlaced_colliding :
    parseSource 40 (CString.str "__loc_1_x: ret\n.x: ret") = some (some collidingLabels) ∧
      DistinctLabels collidingLabels ∧
      ∃ final, asmAssemble collidingLabels emptyContext = (some (), final) ∧
        ∀ run : AssemblyRun collidingLabels emptyContext final, ¬ run.LabelsPlaced := by
  refine ⟨by decide +kernel, by unfold DistinctLabels; decide +kernel, _,
    asmAssemble_success (by decide +kernel), ?_⟩
  intro run hplaced
  have hget : run.canon[0]? = some
      { type := .ret, label := some (CString.lit _ "__loc_1_x")
        originalLine := CString.lit _ "__loc_1_x: ret" } := by
    rw [run.canon_eq]
    decide +kernel
  have haddress := ((hplaced 0 _ _ hget rfl rfl).1 rfl).hash
  have hmoved : findSymbolAddress (asmAssemble collidingLabels emptyContext).2
      (CString.lit _ "__loc_1_x") = some 0x400001 := by
    decide +kernel
  have hfirst : run.textOffset 0 = 0 := rfl
  rw [hmoved, hfirst] at haddress
  exact absurd haddress (by decide)

end X86Assembler
