import X86Assembler.TextPass

namespace X86Assembler

open CString (Byte)
open Fallible (each ignore eachAt)

theorem listed_requests {inst : ParsedInstruction} {m : Asm Unit} {ctx ctx' : AssemblerContext}
    (h : listed inst m ctx = (some (), ctx')) :
    ∃ ctx₁ ctx₂, Emits ctx ctx₁ [] [] 0 ∧ m ctx₁ = (some (), ctx₂) ∧ Emits ctx₂ ctx' [] [] 0 := by
  obtain ⟨_, ctx₁, hstart, hrest⟩ := Fallible.bind_eq_some.mp h
  cases hstart
  obtain ⟨_, ctx₂, hm, hend⟩ := Fallible.bind_eq_some.mp hrest
  cases hend
  exact ⟨_, ctx₂, listingStart_emits _ _ _, hm, listingEnd_emits ctx₂⟩

theorem machineEncoder_directive {type : InstType} (h : directiveKind type ≠ none) :
    Encoder.machineEncoder type = none := by
  cases type <;> first
    | rfl
    | exact absurd rfl h

theorem encodeListed_directive {what : String} {inst : ParsedInstruction}
    {ctx ctx' : AssemblerContext} (hk : directiveKind inst.type ≠ none)
    (hs : inst.type ≠ .sectionDir) (h : encodeListed what inst ctx = (some (), ctx')) :
    ∃ ctx₁ bs, Emits ctx ctx₁ (segmentBytes inst) [] 0 ∧ directiveBytes ctx₁ inst = some bs ∧
      Requests ctx₁ ctx' bs := by
  obtain ⟨ctx₁, ctx₂, he₁, -, henc, he₂⟩ := encodeListed_eq_some h
  obtain ⟨ctx₃, bs, hseg, hbs, hreq⟩ := encodeInstruction_directive (machineEncoder_directive hk)
    (fun hk => hs (directiveKind_sectionChange.mp hk)) henc
  exact ⟨ctx₃, bs, he₁.then hseg, hbs, Requests.of_emits (.refl _) hreq he₂⟩

/-- A directive that the data pass leaves to `encode_instruction`. -/
def isEncodedData (inst : ParsedInstruction) : Bool :=
  match directiveKind inst.type with
  | some .align | some .incbin | some .comm => true
  | _ => false

theorem emitDataStatement_encoded {inst : ParsedInstruction} {ctx ctx' : AssemblerContext}
    (hk : isEncodedData inst = true) (h : emitDataStatement inst ctx = (some (), ctx')) :
    ∃ ctx₁ bs, Emits ctx ctx₁ (segmentBytes inst) [] 0 ∧ directiveBytes ctx₁ inst = some bs ∧
      Requests ctx₁ ctx' bs := by
  rw [isEncodedData] at hk
  rw [emitDataStatement] at h
  cases hd : directiveKind inst.type with
  | none =>
      rw [hd] at hk
      cases hk
  | some kind =>
      have hne : directiveKind inst.type ≠ none := by simp [hd]
      have hs : inst.type ≠ .sectionDir := by
        intro heq
        rw [directiveKind_sectionChange.mpr heq] at hk
        cases hk
      rw [hd] at h hk
      cases kind with
      | align => exact encodeListed_directive hne hs h
      | incbin => exact encodeListed_directive hne hs h
      | comm => exact encodeListed_directive hne hs h
      | data | reserve | silent | sectionChange => cases hk

theorem emitDataStatement_data {inst : ParsedInstruction} {ctx ctx' : AssemblerContext}
    (hk : directiveKind inst.type = some .data)
    (h : emitDataStatement inst ctx = (some (), ctx')) :
    Requests ctx ctx' (inst.operands.flatMap (dataItemBytes inst.type)) := by
  rw [emitDataStatement, hk] at h
  obtain ⟨ctx₁, ctx₂, he₁, hm, he₂⟩ := listed_requests h
  exact Requests.of_emits he₁ (requests_emitUnchecked hm) he₂

theorem emitDataStatement_reserve {inst : ParsedInstruction} {ctx ctx' : AssemblerContext}
    (hk : directiveKind inst.type = some .reserve)
    (h : emitDataStatement inst ctx = (some (), ctx')) :
    Requests ctx ctx' (List.replicate (reserveSize inst) 0) := by
  rw [emitDataStatement, hk] at h
  have h : (if (reserveBytes inst).isSome then listed inst (encodeReserve inst) else pure ()) ctx =
    (some (), ctx') := h
  split at h
  · obtain ⟨ctx₁, ctx₂, he₁, hm, he₂⟩ := listed_requests h
    exact Requests.of_emits he₁ (requests_emitUnchecked hm) he₂
  · rename_i hnone
    obtain ⟨-, rfl⟩ := Fallible.pure_eq_some.mp h
    have hzero : reserveSize inst = 0 := by
      rw [reserveSize]
      rw [reserveBytes] at hnone
      split
      · rename_i hops
        rw [hops] at hnone
        exact absurd rfl hnone
      · rfl
    rw [hzero]
    exact (Emits.refl ctx).requests

theorem emitDataStatement_skip {inst : ParsedInstruction} {ctx ctx' : AssemblerContext}
    (hk : isEncodedData inst = false) (hd : directiveKind inst.type ≠ some .data)
    (hr : directiveKind inst.type ≠ some .reserve)
    (h : emitDataStatement inst ctx = (some (), ctx')) : ctx' = ctx := by
  rw [isEncodedData] at hk
  rw [emitDataStatement] at h
  cases hc : directiveKind inst.type with
  | none =>
      rw [hc] at h
      exact (Fallible.pure_eq_some.mp h).2.symm
  | some kind =>
      rw [hc] at h hk
      cases kind with
      | data => exact absurd hc hd
      | reserve => exact absurd hc hr
      | silent | sectionChange => exact (Fallible.pure_eq_some.mp h).2.symm
      | align | incbin | comm => cases hk

theorem emitDataStatement_emits {inst : ParsedInstruction} {ctx ctx' : AssemblerContext}
    (h : emitDataStatement inst ctx = (some (), ctx')) :
    ∃ bs lost, Emits ctx ctx' bs [] lost := by
  by_cases hk : isEncodedData inst = true
  · obtain ⟨ctx₁, bs, hseg, -, hreq⟩ := emitDataStatement_encoded hk h
    exact ⟨_, _, hseg.trans hreq⟩
  · by_cases hd : directiveKind inst.type = some .data
    · exact ⟨_, _, emitDataStatement_data hd h⟩
    · by_cases hr : directiveKind inst.type = some .reserve
      · exact ⟨_, _, emitDataStatement_reserve hr h⟩
      · rw [emitDataStatement_skip (by simpa using hk) hd hr h]
        exact ⟨_, _, .refl ctx⟩

def dataRewrite (ctx : AssemblerContext) (inst : ParsedInstruction) : ParsedInstruction :=
  rewriteConstantLabelOperands (placeLabel ctx inst) inst

theorem dataStep_cases {inst : ParsedInstruction} {ctx ctx' : AssemblerContext}
    (h : dataStep inst ctx = (some (), ctx')) :
    (inst.type = .sectionDir ∧ ctx' = applySectionDirective ctx inst) ∨
    (inst.type ≠ .sectionDir ∧ ctx.currentSection = .text ∧ ctx' = ctx) ∨
    (inst.type ≠ .sectionDir ∧ ctx.currentSection = .data ∧
      emitDataStatement (dataRewrite ctx inst) (placeLabel ctx inst) = (some (), ctx')) := by
  rw [dataStep, Fallible.bind_run, Fallible.get_run] at h
  simp only at h
  split at h
  · rename_i ht
    cases h
    exact .inl ⟨ht, rfl⟩
  · rename_i ht
    split at h
    · rename_i htext
      obtain ⟨-, rfl⟩ := Fallible.pure_eq_some.mp h
      exact .inr (.inl ⟨ht, htext, rfl⟩)
    · rename_i htext
      have hdata : ctx.currentSection = .data := by
        cases hs : ctx.currentSection with
        | text => exact absurd hs htext
        | data => rfl
      obtain ⟨_, ctx₁, hmod, h⟩ := Fallible.bind_eq_some.mp h
      cases hmod
      exact .inr (.inr ⟨ht, hdata, h⟩)

/-- The context in which the data pass reaches the statement at a position. -/
def dataAt (insts : List ParsedInstruction) (ctx : AssemblerContext) (i : Nat) :
    AssemblerContext := eachAt dataStep insts (resetForDataPass ctx) i

section DataRun

variable {insts : List ParsedInstruction} {ctx ctx' : AssemblerContext}

theorem dataAt_zero : dataAt insts ctx 0 = resetForDataPass ctx := rfl

theorem dataPass_each (h : dataPass insts ctx = (some (), ctx')) :
    each dataStep insts (resetForDataPass ctx) = (some (), ctx') := by
  obtain ⟨_, ctx₁, hmod, h⟩ := Fallible.bind_eq_some.mp h
  cases hmod
  exact h

theorem dataAt_length (h : dataPass insts ctx = (some (), ctx')) :
    dataAt insts ctx insts.length = ctx' := Fallible.eachAt_length (dataPass_each h)

theorem dataAt_sect (h : dataPass insts ctx = (some (), ctx')) {i : Nat}
    (hi : i ≤ insts.length) : (dataAt insts ctx i).currentSection = sectionBefore insts i := by
  refine Fallible.each_invariant (dataPass_each h)
    (fun i c => c.currentSection = sectionBefore insts i) rfl (fun i inst hget hstep ih => ?_) hi
  rw [sectionBefore_succ hget, sectionStep, ← ih]
  rcases dataStep_cases hstep with ⟨ht, hctx⟩ | ⟨ht, -, hctx⟩ | ⟨ht, -, hemit⟩
  · rw [if_pos ht, hctx]
    rfl
  · rw [if_neg ht, hctx]
  · obtain ⟨bs, lost, he⟩ := emitDataStatement_emits hemit
    rw [if_neg ht, he.sect]
    exact congrArg Output.sect (placeLabel_output _ inst)

structure InData (insts : List ParsedInstruction) (i : Nat) (inst : ParsedInstruction) : Prop where
  get : insts[i]? = some inst
  not_section : inst.type ≠ .sectionDir
  sect : sectionBefore insts i = .data

theorem InData.lt {i : Nat} {inst : ParsedInstruction} (hi : InData insts i inst) :
    i < insts.length := (List.getElem?_eq_some_iff.mp hi.get).1

theorem dataAt_step (h : dataPass insts ctx = (some (), ctx')) {i : Nat}
    {inst : ParsedInstruction} (hi : InData insts i inst) :
    emitDataStatement (dataRewrite (dataAt insts ctx i) inst)
      (placeLabel (dataAt insts ctx i) inst) = (some (), dataAt insts ctx (i + 1)) := by
  have hstep := Fallible.each_step (dataPass_each h) hi.get
  rcases dataStep_cases hstep with ⟨ht, -⟩ | ⟨-, htext, -⟩ | ⟨-, -, hemit⟩
  · exact absurd ht hi.not_section
  · have htext : (dataAt insts ctx i).currentSection = .text := htext
    rw [dataAt_sect h (Nat.le_of_lt hi.lt), hi.sect] at htext
    cases htext
  · exact hemit

theorem dataAt_emits (h : dataPass insts ctx = (some (), ctx')) {i : Nat}
    {inst : ParsedInstruction} (hi : InData insts i inst) :
    ∃ bs lost, Emits (placeLabel (dataAt insts ctx i) inst) (dataAt insts ctx (i + 1))
      bs [] lost := emitDataStatement_emits (dataAt_step h hi)

theorem dataAt_skip (h : dataPass insts ctx = (some (), ctx')) {i : Nat}
    {inst : ParsedInstruction} (hget : insts[i]? = some inst) (hi : ¬ InData insts i inst) :
    dataAt insts ctx (i + 1) =
      { dataAt insts ctx i with currentSection := sectionBefore insts (i + 1) } := by
  have hlt : i < insts.length := (List.getElem?_eq_some_iff.mp hget).1
  have hstep := Fallible.each_step (dataPass_each h) hget
  have hsect := dataAt_sect h (Nat.le_of_lt hlt)
  rw [sectionBefore_succ hget, sectionStep, ← hsect]
  rcases dataStep_cases hstep with ⟨ht, hctx⟩ | ⟨ht, -, hctx⟩ | ⟨ht, hdata, -⟩
  · rw [if_pos ht]
    exact hctx
  · rw [if_neg ht]
    exact hctx
  · have hdata : (dataAt insts ctx i).currentSection = .data := hdata
    exact absurd ⟨hget, ht, hsect.symm.trans hdata⟩ hi

/-- Between two positions of the data pass the data section grows, the location counter
follows it, and everything else stays. -/
structure DataGrows (a b : AssemblerContext) : Prop where
  data : ∃ bs, b.dataSection = a.dataSection ++ bs ∧
    b.currentAddress = a.currentAddress + BitVec.ofNat 64 bs.length
  fixups : b.fixups = a.fixups
  settings : b.settings = a.settings
  text : b.textSection = a.textSection
  table : TableKeeps a b

theorem DataGrows.refl (a : AssemblerContext) : DataGrows a a :=
  ⟨⟨[], by simp⟩, rfl, rfl, rfl, .of_eq rfl rfl⟩

theorem DataGrows.trans {a b c : AssemblerContext} (hab : DataGrows a b) (hbc : DataGrows b c) :
    DataGrows a c := by
  obtain ⟨bs, ht, ha⟩ := hab.data
  obtain ⟨cs, ht', ha'⟩ := hbc.data
  refine ⟨⟨bs ++ cs, by rw [ht', ht, List.append_assoc], ?_⟩, hbc.fixups.trans hab.fixups,
    hbc.settings.trans hab.settings, hbc.text.trans hab.text,
    hab.table.trans hbc.table⟩
  rw [ha', ha, List.length_append, BitVec.ofNat_add, BitVec.add_assoc]

theorem dataGrows_step (h : dataPass insts ctx = (some (), ctx')) {i : Nat}
    (hi : i < insts.length) : DataGrows (dataAt insts ctx i) (dataAt insts ctx (i + 1)) := by
  have hget : insts[i]? = some insts[i] := List.getElem?_eq_getElem hi
  by_cases hin : InData insts i insts[i]
  · obtain ⟨bs, lost, he⟩ := dataAt_emits h hin
    obtain ⟨htext, haddr, hfix, hdata, hsect⟩ := placeLabel_text insts[i] (dataAt insts ctx i)
    have hsect : (placeLabel (dataAt insts ctx i) insts[i]).currentSection = .data := by
      rw [hsect, dataAt_sect h (Nat.le_of_lt hi), hin.sect]
    refine ⟨⟨bs, ?_, ?_⟩, ?_, ?_, ?_, (placeLabel_keeps _ _).trans he.table.keeps⟩
    · rw [he.data_of_data hsect, hdata]
    · rw [he.address, haddr]
    · rw [he.fixups, hfix, List.append_nil]
    · rw [he.settings, placeLabel_settings]
    · rw [he.text_of_data hsect, htext]
  · rw [dataAt_skip h hget hin]
    exact ⟨⟨[], by simp⟩, rfl, rfl, rfl, .of_eq rfl rfl⟩

theorem dataGrows_between (h : dataPass insts ctx = (some (), ctx')) {i j : Nat} (hij : i ≤ j)
    (hj : j ≤ insts.length) : DataGrows (dataAt insts ctx i) (dataAt insts ctx j) :=
  Fallible.each_between (dataPass_each h) DataGrows DataGrows.refl DataGrows.trans hij hj
    fun k _ _ hkj _ _ => dataGrows_step h (by omega)

theorem dataAt_address (h : dataPass insts ctx = (some (), ctx')) {i : Nat}
    (hi : i ≤ insts.length) :
    (dataAt insts ctx i).currentAddress =
      ctx.baseAddress + BitVec.ofNat 64 ctx.textSection.length +
        BitVec.ofNat 64 (dataAt insts ctx i).dataSection.length := by
  obtain ⟨bs, hd, ha⟩ := (dataGrows_between h (Nat.zero_le i) hi).data
  rw [dataAt_zero] at hd ha
  have hstart : (resetForDataPass ctx).dataSection = [] := rfl
  rw [ha, hd, hstart, List.nil_append]
  rfl

theorem dataAt_fits (h : dataPass insts ctx = (some (), ctx')) {i : Nat}
    (hi : i ≤ insts.length) :
    (dataAt insts ctx i).dataSection.length ≤ ctx.dataCapacity.toNat := by
  induction i with
  | zero =>
      rw [dataAt_zero]
      exact Nat.zero_le _
  | succ i ih =>
      have hget : insts[i]? = some insts[i] := List.getElem?_eq_getElem hi
      have hprev := ih (Nat.le_of_succ_le hi)
      by_cases hin : InData insts i insts[i]
      · obtain ⟨bs, lost, he⟩ := dataAt_emits h hin
        obtain ⟨-, -, -, hdata, hsect⟩ := placeLabel_text insts[i] (dataAt insts ctx i)
        have hsect : (placeLabel (dataAt insts ctx i) insts[i]).currentSection = .data := by
          rw [hsect, dataAt_sect h (Nat.le_of_succ_le hi), hin.sect]
        have hcap : (placeLabel (dataAt insts ctx i) insts[i]).dataCapacity = ctx.dataCapacity := by
          have hg := (dataGrows_between h (Nat.zero_le i) (Nat.le_of_succ_le hi)).settings
          exact congrArg Settings.dataCapacity ((placeLabel_settings _ _).trans hg)
        have hfits := he.fits
        simp only [AssemblerContext.room, AssemblerContext.capacity, AssemblerContext.buffer,
          hsect, hcap, hdata] at hfits
        rw [he.data_of_data hsect, hdata, List.length_append]
        omega
      · rw [dataAt_skip h hget hin]
        exact hprev

theorem dataAt_view_unmoved (h : dataPass insts ctx = (some (), ctx')) (hc : Consistent ctx)
    {i j : Nat} (hij : i ≤ j) (hj : j ≤ insts.length) {name : Label} {v : SymbolView}
    (hv : (dataAt insts ctx i).view name = some v)
    (hname : ∀ k inst, i ≤ k → k < j → InData insts k inst → inst.label = some name →
      labelMoves (dataAt insts ctx k) inst = false) :
    (dataAt insts ctx j).view name = some v := by
  have hstart : Consistent (resetForDataPass ctx) := hc.congr rfl rfl
  have hkeep : ∀ k, i ≤ k → k ≤ j → (dataAt insts ctx k).view name = some v := by
    intro k hik hkj
    induction hik with
    | refl => exact hv
    | @step k hik ih =>
        have hlt : k < insts.length := by omega
        have hget : insts[k]? = some insts[k] := List.getElem?_eq_getElem hlt
        have hprev := ih (by omega)
        have hck : Consistent (dataAt insts ctx k) :=
          (dataGrows_between h (Nat.zero_le k) (Nat.le_of_lt hlt)).table.consistent hstart
        by_cases hin : InData insts k insts[k]
        · obtain ⟨bs, lost, he⟩ := dataAt_emits h hin
          exact he.table.kept (consistent_placeLabel _ _ hck) name v
            (placeLabel_view_unmoved hck hprev (hname k _ hik (by omega) hin))
        · rw [dataAt_skip h hget hin]
          exact hprev
  exact hkeep j hij (Nat.le_refl j)

theorem dataAt_view_kept (h : dataPass insts ctx = (some (), ctx')) (hc : Consistent ctx)
    {i j : Nat} (hij : i ≤ j) (hj : j ≤ insts.length) {name : Label} {v : SymbolView}
    (hv : (dataAt insts ctx i).view name = some v)
    (hname : ∀ k inst, i ≤ k → k < j → InData insts k inst → inst.label ≠ some name) :
    (dataAt insts ctx j).view name = some v :=
  dataAt_view_unmoved h hc hij hj hv fun k inst hik hkj hin hl =>
    absurd hl (hname k inst hik hkj hin)

theorem dataAt_view_placed (h : dataPass insts ctx = (some (), ctx')) (hc : Consistent ctx)
    {i : Nat} {inst : ParsedInstruction} (hi : InData insts i inst) {name : Label}
    (hl : inst.label = some name) {v : SymbolView}
    (hv : (dataAt insts ctx i).view name = some v) :
    (dataAt insts ctx (i + 1)).view name =
      some { v with address := (dataAt insts ctx i).currentAddress } := by
  have hstart : Consistent (resetForDataPass ctx) := hc.congr rfl rfl
  have hci : Consistent (dataAt insts ctx i) :=
    (dataGrows_between h (Nat.zero_le i) (Nat.le_of_lt hi.lt)).table.consistent hstart
  obtain ⟨bs, lost, he⟩ := dataAt_emits h hi
  refine he.table.kept (consistent_placeLabel _ _ hci) name _ ?_
  rw [placeLabel_view _ _ hci, if_pos hl, hv]
  rfl

end DataRun

end X86Assembler
