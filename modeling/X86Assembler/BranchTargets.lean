import X86Assembler.LabelLayout
import X86Assembler.Listing
import X86Assembler.RipReferences

namespace X86Assembler

open CString (Byte)
open Encoder (shortBranch shortOpcode nearOpcode jccCode)
open LittleEndian (leBytes ofLeBytes slice)

/-- The displacement of the short form, where a branch to a label takes that form. -/
def branchForm (env : EncodeEnv) (type : InstType) (name : Label) : Option Word :=
  if type = .call then none else shortBranch env name

def branchEmissions (env : EncodeEnv) (type : InstType) (name : Label) : List Emission :=
  match branchForm env type name with
  | some rel => [shortOpcode type, rel.setWidth 8].map .byte
  | none => (nearOpcode type).map .byte ++
      .fixup name 4 type false :: (leBytes 4 (0 : BitVec 32)).map .byte

theorem encodeBranch_emits (env : EncodeEnv) {type : InstType} (hcall : type ≠ .call)
    (name : Label) : Encoder.encodeBranch (shortOpcode type) (nearOpcode type) type name env =
      (branchEmissions env type name, .ok ()) := by
  rw [Encoder.encodeBranch, encoder_bind (show Encoder.getEnv env = ([], .ok env) from rfl),
    branchEmissions, branchForm, if_neg hcall]
  cases shortBranch env name with
  | some rel => rfl
  | none => rfl

theorem encode_branch {inst : ParsedInstruction} {encode : ParsedInstruction → Encoder Unit}
    (hm : Encoder.machineEncoder inst.type = some encode) (hb : isControlflow inst.type = true)
    (env : EncodeEnv) :
    (∀ name, inst.operands = [.label name] →
      encode inst env = (branchEmissions env inst.type name, .ok ())) ∧
    (∀ v, inst.operands = [.imm v] → ∀ es, encode inst env ≠ (es, .ok ())) := by
  by_cases hcall : inst.type = .call
  · rw [hcall] at hm ⊢
    cases hm
    constructor
    · intro name hops
      rw [Encoder.encodeCallRet, hcall, hops]
      rfl
    · intro v hops es
      rw [Encoder.encodeCallRet, hcall, hops]
      intro h
      cases h
  · by_cases hjmp : inst.type = .jmp
    · have hbranch := fun name => encodeBranch_emits env hcall name
      rw [hjmp] at hm hbranch ⊢
      cases hm
      constructor
      · intro name hops
        rw [Encoder.encodeJmp, hops]
        exact hbranch name
      · intro v hops es
        rw [Encoder.encodeJmp, hops]
        intro h
        cases h
    · obtain ⟨cc, hcc⟩ : ∃ cc, jccCode inst.type = some cc := by
        cases ht : inst.type <;> simp_all [isControlflow, jccCode]
      have hencode : encode = Encoder.encodeJcc := by
        cases ht : inst.type <;> rw [ht] at hm hcc <;> first
          | exact (Option.some.inj hm).symm
          | cases hcc
      rw [hencode]
      constructor
      · intro name hops
        have hbranch := encodeBranch_emits env hcall name
        simp only [shortOpcode, nearOpcode, hcc] at hbranch
        rw [Encoder.encodeJcc, hops]
        simp only [hcc]
        rw [encoder_bind (show Encoder.orDiag inst.lineNumber "Encoding"
          "Unknown conditional jump mnemonic." (some cc) env = ([], .ok cc) from rfl), Encoder.after_nil]
        rw [hbranch]
        rfl
      · intro v hops es
        rw [Encoder.encodeJcc, hops]
        intro h
        cases h

theorem statement_branch {inst : ParsedInstruction} {encode : ParsedInstruction → Encoder Unit}
    (hseg : segmentOverride inst.operands = some .default) (env : EncodeEnv) :
    Encoder.statement encode inst env = encode inst env := by
  have hprefix : Encoder.segmentPrefix inst env = ([], .ok ()) := by
    rw [Encoder.segmentPrefix, hseg]
    rfl
  rw [Encoder.statement, encoder_bind hprefix, Encoder.after_nil]
  rfl

theorem shortBranch_eq_some {ctx : AssemblerContext} {name : Label} {rel : Word}
    (h : shortBranch ctx.encodeEnv name = some rel) : ∃ address,
      findSymbolAddress ctx name = some address ∧ ctx.currentAddress + 2 + rel = address ∧
        (rel.setWidth 8).signExtend 64 = rel ∧
          (ctx.enableForwardShortBranches = false → address < ctx.currentAddress) := by
  rw [shortBranch] at h
  cases hsym : ctx.encodeEnv.getSymbolInfo name with
  | none =>
      rw [hsym] at h
      cases h
  | some sym =>
      rw [hsym] at h
      simp only at h
      split at h
      · rename_i hpick
        cases h
        simp only [Bool.and_eq_true, Encoder.fitsInByte, decide_eq_true_eq] at hpick
        obtain ⟨⟨hresolved, hmode⟩, hlo, hhi⟩ := hpick
        refine ⟨sym.address, ?_, ?_, @LittleEndian.signExtend_setWidth 7 _ (by decide) hlo ?_, ?_⟩
        · have hsym : symbolHashLookup ctx name = some sym := hsym
          rw [findSymbolAddress, hsym]
          exact if_pos hresolved
        · rw [Encoder.shortDisplacement]
          show ctx.currentAddress + 2 + (sym.address - (ctx.currentAddress + 2)) = sym.address
          ring
        · exact Int.lt_of_le_of_lt hhi (by decide)
        · intro hbackward
          have hmode : (ctx.enableForwardShortBranches || decide (sym.address < ctx.currentAddress)) =
              true := hmode
          rw [hbackward, Bool.false_or] at hmode
          exact of_decide_eq_true hmode
      · cases h

namespace AssemblyRun

variable {insts : List ParsedInstruction} {ctx final : AssemblerContext}
  (run : AssemblyRun insts ctx final)

/-- A branch in the text section to a label that stands in the text section. -/
structure BranchTo (i : Nat) (inst : ParsedInstruction) (name : Label) : Prop where
  text : InText run.canon i inst
  branch : isControlflow inst.type = true
  operands : inst.operands = [.label name]
  defined : ∃ j target, InText run.canon j target ∧ target.label = some name ∧
    placesLabel target.type = true

/-- The bytes of a branch hold a displacement, in the short or in the near form. -/
def StoresDisplacement (i : Nat) (type : InstType) (d : Word) : Prop :=
  (∃ v : BitVec 8, run.textBytes i = [shortOpcode type, v] ∧ v.signExtend 64 = d) ∨
    ∃ v : BitVec 32, run.textBytes i = nearOpcode type ++ leBytes 4 v ∧ v.signExtend 64 = d

/-- Each branch to a label of the text section leads to the final address of the label. -/
def BranchTargetsRight : Prop :=
  ∀ i inst name, run.BranchTo i inst name → ∃ d target, run.StoresDisplacement i inst.type d ∧
    findSymbolAddress final name = some target ∧ run.endAddress i + d = target

/-- The statement that gives a name its final address comes behind a position. -/
structure PlacedAfter (i : Nat) (name : Label) (k : Nat) : Prop where
  carries : run.Carries k name
  after : i < run.passOrder k
  last : ∀ j, run.Carries j name → run.passOrder j ≤ run.passOrder k

/-- Where a branch takes the short form, and its label is placed after it, the label is placed
where the symbol table has it when the branch is encoded. -/
def ShortTargetsSettled : Prop :=
  ∀ i inst name, run.BranchTo i inst name →
    (branchForm (run.envAt i inst) inst.type name).isSome →
      ∀ k, run.PlacedAfter i name k →
        findSymbolAddress (placeLabel (run.textAt i) inst) name = some (run.labelAddress k)

theorem BranchTo.encodes {run : AssemblyRun insts ctx final} {i : Nat} {inst : ParsedInstruction}
    {name : Label} (h : run.BranchTo i inst name) : ∃ b,
      run.Encodes i b (run.envAt i inst) (branchEmissions (run.envAt i inst) inst.type name) := by
  obtain ⟨b, hb, hrw⟩ := run.program_rewrites.inText h.text
  have hbranch : isControlflow b.type = true := by rw [hrw.type, h.branch]
  obtain ⟨encode, hm⟩ : ∃ encode, Encoder.machineEncoder b.type = some encode := by
    cases ht : b.type <;> rw [ht] at hbranch <;> first
      | exact ⟨_, rfl⟩
      | cases hbranch
  have hops := hrw.operands
  rw [h.operands, List.forall₂_cons_left_iff] at hops
  obtain ⟨op, tail, hop, htail, hops⟩ := hops
  rw [List.forall₂_nil_left_iff] at htail
  rw [htail] at hops
  have hl : isLabelOnly b = false := by
    rw [isLabelOnly, hops, List.isEmpty_cons, Bool.and_false, Bool.false_and]
  obtain ⟨a, es, -, hrewrite, hes, henc⟩ := run.text_emission hb hm hl
  have henv : (placeLabel (run.textAt i) a).encodeEnv = run.envAt i inst := by
    have hlabel : a.label = inst.label := by
      rw [← hrw.label, hrewrite]
      rfl
    rw [envAt, placeLabel, placeLabel, hlabel]
  have hencode := encode_branch hm hbranch (run.envAt i inst)
  rw [henv] at hes henc
  rcases hop with rfl | ⟨other, v, -, rfl⟩
  · rw [statement_branch (by rw [hops]; rfl), hencode.1 name hops] at hes
    cases hes
    rw [hrw.type] at henc
    exact ⟨b, henc⟩
  · rw [statement_branch (by rw [hops]; rfl)] at hes
    exact absurd hes (hencode.2 v hops es)

section

variable {run} {i : Nat} {inst : ParsedInstruction} {name : Label} (h : run.BranchTo i inst name)

include h

theorem BranchTo.short {rel : Word}
    (hform : branchForm (run.envAt i inst) inst.type name = some rel) :
    ∃ address, findSymbolAddress (placeLabel (run.textAt i) inst) name = some address ∧
      run.textBytes i = [shortOpcode inst.type, rel.setWidth 8] ∧
      (rel.setWidth 8).signExtend 64 = rel ∧ run.endAddress i + rel = address ∧
      ((run.textAt i).enableForwardShortBranches = false → address < (run.textAt i).currentAddress) := by
  obtain ⟨b, henc⟩ := h.encodes
  rw [branchEmissions, hform] at henc
  have hbytes := henc.textBytes_plain (fixupsOf_map_byte _ _)
  rw [bytesOf_map_byte] at hbytes
  have hshort : shortBranch (placeLabel (run.textAt i) inst).encodeEnv name = some rel := by
    rw [branchForm] at hform
    split at hform
    · cases hform
    · exact hform
  obtain ⟨address, haddress, hrel, hsign, hbackward⟩ := shortBranch_eq_some hshort
  rw [(placeLabel_text inst (run.textAt i)).2.1] at hrel hbackward
  have hflag := congrArg Settings.enableForwardShortBranches
    (@placeLabel_settings (run.textAt i) inst)
  refine ⟨address, haddress, hbytes, hsign, ?_, fun hoff => hbackward (hflag.trans hoff)⟩
  rw [endAddress, henc.offset_succ, bytesOf_map_byte]
  rw [run.text_address (Nat.le_of_lt henc.lt)] at hrel
  rw [← hrel, BitVec.ofNat_add, ← BitVec.add_assoc]
  rfl

theorem BranchTo.near (hform : branchForm (run.envAt i inst) inst.type name = none) :
    ∃ (v : BitVec 32) (target : Word), run.textBytes i = nearOpcode inst.type ++ leBytes 4 v ∧
      findSymbolAddress final name = some target ∧
        run.endAddress i + v.signExtend 64 = target := by
  obtain ⟨b, henc⟩ := h.encodes
  rw [branchEmissions, hform] at henc
  have hes : bytesOf ((nearOpcode inst.type).map .byte ++
      .fixup name 4 inst.type false :: (leBytes 4 (0 : BitVec 32)).map .byte) =
        nearOpcode inst.type ++ leBytes 4 (0 : BitVec 32) ++ [] := by
    rw [bytesOf_append, bytesOf_map_byte, bytesOf_fixup, bytesOf_map_byte, List.append_nil]
  have hfs : fixupsOf (final.baseAddress + BitVec.ofNat 64 (run.textOffset i))
      ((nearOpcode inst.type).map .byte ++
        .fixup name 4 inst.type false :: (leBytes 4 (0 : BitVec 32)).map .byte) =
        [⟨name, final.baseAddress + BitVec.ofNat 64 (run.textOffset i) +
          BitVec.ofNat 64 (nearOpcode inst.type).length, 4, inst.type, false⟩] := by
    rw [fixupsOf_append, fixupsOf_map_byte, bytesOf_map_byte, fixupsOf, fixupsOf_map_byte]
    rfl
  obtain ⟨target, htarget, hfits, hbytes⟩ := henc.textBytes_fixup hes hfs
  rw [fixupValue_branch _ h.branch] at hfits hbytes
  rw [show (0 : BitVec 32).signExtend 64 = 0 from rfl, add_zero] at hfits hbytes
  rw [List.append_nil] at hbytes
  rw [← LittleEndian.leBytes_setWidth _ (by decide : 8 * 4 ≤ 32)] at hbytes
  simp only [fitsFixup, Bool.and_eq_true, decide_eq_true_eq] at hfits
  refine ⟨_, target, hbytes, htarget, ?_⟩
  have hsign := @LittleEndian.signExtend_setWidth 31 _ (by decide) hfits.1
    (Int.lt_of_le_of_lt hfits.2 (by decide))
  rw [hsign, endAddress, henc.offset_succ, hes]
  simp only [List.length_append, LittleEndian.leBytes_length, List.length_nil, Nat.add_zero,
    BitVec.ofNat_add]
  ring

end

theorem shortOpcode_ne_near (type : InstType) (b : Byte) (v : BitVec 32) :
    [shortOpcode type, b] ≠ nearOpcode type ++ leBytes 4 v := by
  intro heq
  have hlen := congrArg List.length heq
  rw [List.length_append, LittleEndian.leBytes_length] at hlen
  simp only [List.length_cons, List.length_nil] at hlen
  omega

theorem StoresDisplacement.short {i : Nat} {type : InstType} {d : Word} {b : Byte}
    (h : run.StoresDisplacement i type d) (hbytes : run.textBytes i = [shortOpcode type, b]) :
    d = b.signExtend 64 := by
  rcases h with ⟨v, hv, rfl⟩ | ⟨v, hv, -⟩
  · rw [hbytes] at hv
    cases hv
    rfl
  · rw [hbytes] at hv
    exact absurd hv (shortOpcode_ne_near type b v)

/-- A short branch that leads to the final address of its label found it there. -/
theorem BranchTo.short_final {run : AssemblyRun insts ctx final} {i : Nat}
    {inst : ParsedInstruction} {name : Label} (h : run.BranchTo i inst name) {rel : Word}
    (hform : branchForm (run.envAt i inst) inst.type name = some rel)
    (hright : ∃ d target, run.StoresDisplacement i inst.type d ∧
      findSymbolAddress final name = some target ∧ run.endAddress i + d = target) :
    ∃ address, findSymbolAddress (placeLabel (run.textAt i) inst) name = some address ∧
      findSymbolAddress final name = some address ∧
      ((run.textAt i).enableForwardShortBranches = false →
        address < (run.textAt i).currentAddress) := by
  obtain ⟨address, haddress, hbytes, hsign, hend, hbackward⟩ := h.short hform
  obtain ⟨d, target, hd, htarget, hlead⟩ := hright
  rw [StoresDisplacement.short run hd hbytes, hsign, hend] at hlead
  exact ⟨address, haddress, hlead ▸ htarget, hbackward⟩

section

variable (hc : Consistent ctx) {i : Nat} {inst : ParsedInstruction} {name : Label}

include hc

/-- Behind a branch the table has its label where the branch found it. -/
theorem view_behind (hi : InText run.canon i inst) {address : Word}
    (haddress : findSymbolAddress (placeLabel (run.textAt i) inst) name = some address) :
    ∃ v, v.address = address ∧ (run.textAt (i + 1)).view name = some v := by
  obtain ⟨a, ha, hrw⟩ := run.source_rewrites.inText hi
  have hci := consistent_placeLabel _ inst (run.textAt_consistent hc (Nat.le_of_lt ha.lt))
  rw [hci.findSymbolAddress] at haddress
  obtain ⟨v, hv, hv'⟩ := Option.map_eq_some_iff.mp haddress
  obtain ⟨bs, fs, lost, he⟩ := textAt_emits run.lastPass run.start ha
  have hplace : placeLabel (run.textAt i) a = placeLabel (run.textAt i) inst := by
    rw [placeLabel, placeLabel, hrw.label]
  refine ⟨v, hv', he.table.kept ?_ name v ?_⟩
  · exact hplace ▸ hci
  · exact hplace ▸ hv

/-- A name that no statement behind a position carries has its final address there. -/
theorem address_settled (hi : InText run.canon i inst) {address : Word}
    (haddress : findSymbolAddress (placeLabel (run.textAt i) inst) name = some address)
    (hnone : ∀ k, run.Carries k name → run.passOrder k ≤ i) :
    findSymbolAddress final name = some address := by
  obtain ⟨v, rfl, hv⟩ := run.view_behind hc hi haddress
  have hlt : i < run.source.length := run.source_rewrites.length ▸ hi.lt
  have hfinal := run.view_kept_from hc (Nat.succ_le_of_lt hlt) hv fun k hk =>
    Nat.lt_succ_of_le (hnone k hk)
  exact ((run.consistent hc).hasAddress hfinal).hash

theorem address_placed (hi : InText run.canon i inst) {address : Word} {k : Nat}
    (haddress : findSymbolAddress (placeLabel (run.textAt i) inst) name = some address)
    (hk : run.PlacedAfter i name k) : findSymbolAddress final name = some (run.labelAddress k) := by
  obtain ⟨a, ha, hrw⟩ := run.source_rewrites.inText hi
  have hci := run.textAt_consistent hc (Nat.le_of_lt ha.lt)
  rw [(consistent_placeLabel _ inst hci).findSymbolAddress, placeLabel_view _ _ hci] at haddress
  have hknown : ((run.textAt i).view name).isSome := by
    obtain ⟨v, hv, -⟩ := Option.map_eq_some_iff.mp haddress
    split at hv
    · obtain ⟨u, hu, -⟩ := Option.map_eq_some_iff.mp hv
      rw [hu]
      rfl
    · rw [hv]
      rfl
  exact (run.placed_last hc (Nat.le_of_lt ha.lt) hknown hk.carries (Nat.le_of_lt hk.after)
    hk.last).hash

omit hc in
theorem exists_placedAfter {k : Nat} (hk : run.Carries k name) (hi : i < run.passOrder k) :
    ∃ k, run.PlacedAfter i name k := by
  obtain ⟨m, hm, hmax⟩ := run.exists_last hk
  exact ⟨m, hm, Nat.lt_of_lt_of_le hi (hmax k hk), hmax⟩

omit hc in
theorem exists_placedAfter_data {k : Nat} {target : ParsedInstruction}
    (hk : InData run.canon k target) (hl : target.label = some name) (hi : i < run.canon.length) :
    ∃ m other, InData run.canon m other ∧ run.PlacedAfter i name m := by
  have hafter : i < run.passOrder k := by
    rw [InData.passOrder run hk]
    exact Nat.lt_of_lt_of_le hi (Nat.le_add_right _ _)
  obtain ⟨m, hm⟩ := run.exists_placedAfter ⟨target, .inr hk, hl⟩ hafter
  obtain ⟨other, hother | hother, -⟩ := hm.carries
  · have hle := hm.last k ⟨target, .inr hk, hl⟩
    rw [InData.passOrder run hk, InText.passOrder run hother] at hle
    have hlt := hother.lt
    omega
  · exact ⟨m, other, hother, hm⟩

theorem branchTargetsRight_run : run.BranchTargetsRight ↔ run.ShortTargetsSettled := by
  constructor
  · intro hright i inst name h hshort k hk
    obtain ⟨rel, hform⟩ := Option.isSome_iff_exists.mp hshort
    obtain ⟨address, haddress, hfinal, -⟩ := h.short_final hform (hright i inst name h)
    rw [haddress, ← hfinal, run.address_placed hc h.text haddress hk]
  · intro hsettled i inst name h
    cases hform : branchForm (run.envAt i inst) inst.type name with
    | none =>
        obtain ⟨v, target, hbytes, htarget, hlead⟩ := h.near hform
        exact ⟨_, target, .inr ⟨v, hbytes, rfl⟩, htarget, hlead⟩
    | some rel =>
        obtain ⟨address, haddress, hbytes, hsign, hend, -⟩ := h.short hform
        refine ⟨rel, address, .inl ⟨_, hbytes, hsign⟩, ?_, hend⟩
        by_cases hnone : ∀ k, run.Carries k name → run.passOrder k ≤ i
        · exact run.address_settled hc h.text haddress hnone
        · push Not at hnone
          obtain ⟨k, hk, hi⟩ := hnone
          obtain ⟨m, hm⟩ := run.exists_placedAfter hk hi
          have hsame := hsettled i inst name h (by rw [hform]; rfl) m hm
          rw [run.address_placed hc h.text haddress hm, ← hsame, haddress]

end

theorem offset_of_label (hc : Consistent ctx) (hd : DistinctLabels run.canon)
    (hroom : final.symbols.length < maxSymbols) {i : Nat} {inst : ParsedInstruction}
    (hi : InText run.canon i inst) {name : Label} (hl : inst.label = some name) {address : Word}
    (haddress : findSymbolAddress final name = some address) :
    run.textOffset i = (address - final.baseAddress).toNat := by
  have hplaced := (run.placed_distinct hc hd hroom (.inl hi) hl).hash
  have hlt : run.textOffset i < 2 ^ 64 :=
    textAt_length_lt run.lastPass run.start (Nat.le_of_lt (run.source_rewrites.length ▸ hi.lt))
  rw [haddress, labelAddress, hi.sect] at hplaced
  rw [Option.some.inj hplaced, BitVec.add_comm, BitVec.add_sub_cancel, BitVec.toNat_ofNat,
    Nat.mod_eq_of_lt hlt]

/-- A branch is near, or the last text pass is in its first mode or finds no label of that name
further on. Where a statement of the data section carries the name, too, the last of them lies
where the table has the name when the data pass begins. -/
def ForwardBranchesAllowed : Prop :=
  ∀ i inst name, run.BranchTo i inst name →
    branchForm (run.envAt i inst) inst.type name = none ∨
      ((run.textAt i).enableForwardShortBranches = true ∨
        ∀ k target, InText run.canon k target → target.label = some name → k ≤ i) ∧
      ∀ k target, InData run.canon k target → run.PlacedAfter i name k →
        findSymbolAddress run.attributed name = some (run.dataAt k).currentAddress

/-- A last text pass in the first mode moves no label. -/
theorem unmoved_of_forward {i : Nat} (hi : i ≤ run.source.length)
    (hforward : (run.textAt i).enableForwardShortBranches = true) {k : Nat} {b : ParsedInstruction}
    (hb : InText run.source k b) : labelMoves (run.textAt k) b = false := by
  have hsettings := (textGrows_between run.lastPass run.start hi (Nat.le_refl _)).settings
  rw [textAt_length run.lastPass] at hsettings
  have hflag := (congrArg Settings.enableForwardShortBranches hsettings).trans hforward
  exact textPass_unmoved run.lastPass run.start (textModes_converged run.modes hflag) hb

theorem labelAddress_of_data {k : Nat} {target : ParsedInstruction} (hk : InData run.canon k target) :
    run.labelAddress k = (run.dataAt k).currentAddress := by
  have hlt : k < run.program.length := run.program_rewrites.length ▸ hk.lt
  rw [labelAddress, hk.sect, run.data_address (Nat.le_of_lt hlt)]

section Allowed

variable (hc : Consistent ctx) {i : Nat} {inst : ParsedInstruction} {name : Label}

include hc

/-- Where a branch is allowed its form, the text passes have its label where it found it. -/
theorem attributed_view (hi : InText run.canon i inst)
    (hallowed : (run.textAt i).enableForwardShortBranches = true ∨
      ∀ k target, InText run.canon k target → target.label = some name → k ≤ i)
    {v : SymbolView} (hv : (run.textAt (i + 1)).view name = some v) :
    run.attributed.view name = some v := by
  have hlt : i < run.source.length := run.source_rewrites.length ▸ hi.lt
  have htext := textAt_view_unmoved run.lastPass run.start ((run.entry_table hc).consistent hc)
    (Nat.succ_le_of_lt hlt) (Nat.le_refl _) hv fun k b hik _ hb hl => by
      rcases hallowed with hforward | hnone
      · exact run.unmoved_of_forward (Nat.le_of_lt hlt) hforward hb
      · obtain ⟨b', hb', hrw⟩ := run.source_rewrites.inText_back hb
        have hle := hnone k b' hb' (hrw.label.symm.trans hl)
        omega
  rw [textAt_length run.lastPass] at htext
  exact run.attributed_emits.table.kept (run.texted_consistent hc) name v htext

/-- A name that no statement of the data section carries keeps what the text passes gave it. -/
theorem final_of_attributed {v : SymbolView} (hv : run.attributed.view name = some v)
    (hnone : ∀ k target, InData run.canon k target → target.label ≠ some name) :
    findSymbolAddress final name = some v.address := by
  have hlast := dataAt_view_unmoved run.dataEmitted (run.attributed_consistent hc) (Nat.zero_le _)
    (Nat.le_refl _) hv fun k b _ _ hb hl => by
      obtain ⟨b', hb', hrw⟩ := run.program_rewrites.inData_back hb
      exact absurd (hrw.label.symm.trans hl) (hnone k b' hb')
  rw [dataAt_length run.dataEmitted, ← run.final_view] at hlast
  exact ((run.consistent hc).hasAddress hlast).hash

theorem right_of_allowed (h : run.ForwardBranchesAllowed) : run.BranchTargetsRight := by
  intro i inst name hbranch
  cases hform : branchForm (run.envAt i inst) inst.type name with
  | none =>
      obtain ⟨v, target, hbytes, htarget, hlead⟩ := hbranch.near hform
      exact ⟨_, target, .inr ⟨v, hbytes, rfl⟩, htarget, hlead⟩
  | some rel =>
      obtain ⟨address, haddress, hbytes, hsign, hend, -⟩ := hbranch.short hform
      refine ⟨rel, address, .inl ⟨_, hbytes, hsign⟩, ?_, hend⟩
      obtain ⟨hallowed, hdata⟩ := (h i inst name hbranch).resolve_left
        (by rw [hform]; exact Option.some_ne_none rel)
      obtain ⟨v, rfl, hv⟩ := run.view_behind hc hbranch.text haddress
      have hattr := run.attributed_view hc hbranch.text hallowed hv
      by_cases hcarried : ∃ k target, InData run.canon k target ∧ target.label = some name
      · obtain ⟨k, target, hk, hl⟩ := hcarried
        obtain ⟨m, other, hm, hplaced⟩ := run.exists_placedAfter_data hk hl hbranch.text.lt
        have htable := hdata m other hm hplaced
        rw [(run.attributed_consistent hc).findSymbolAddress, hattr, Option.map_some] at htable
        rw [run.address_placed hc hbranch.text haddress hplaced, run.labelAddress_of_data hm, htable]
      · push Not at hcarried
        exact run.final_of_attributed hc hattr hcarried

theorem currentAddress_le_labelAddress
    (hspace : ctx.baseAddress.toNat + ctx.textCapacity.toNat + ctx.dataCapacity.toNat < 2 ^ 64)
    {k : Nat} (hi : InText run.canon i inst) (hk : run.PlacedAfter i name k) :
    (run.textAt i).currentAddress ≤ run.labelAddress k := by
  have hilt : i ≤ run.source.length := Nat.le_of_lt (run.source_rewrites.length ▸ hi.lt)
  have hfits := run.final_text_fits
  have hstart := run.final_end hilt
  have hbase := run.base_eq hc
  have hileft : (final.baseAddress + BitVec.ofNat 64 (run.textOffset i)).toNat =
      final.baseAddress.toNat + run.textOffset i :=
    toNat_add_ofNat (by rw [hbase]; omega)
  rw [run.text_address hilt, BitVec.le_def, hileft, labelAddress]
  obtain ⟨target, htarget | htarget, -⟩ := hk.carries
  · have hlt := hk.after
    rw [InText.passOrder run htarget] at hlt
    have hklt : k ≤ run.source.length := Nat.le_of_lt (run.source_rewrites.length ▸ htarget.lt)
    have hmono := run.textOffset_le (Nat.le_of_lt hlt) hklt
    have hend := run.final_end hklt
    rw [htarget.sect]
    show _ ≤ (final.baseAddress + BitVec.ofNat 64 (run.textOffset k)).toNat
    rw [toNat_add_ofNat (by rw [hbase]; omega)]
    omega
  · have hklt : k ≤ run.program.length :=
      Nat.le_of_lt (run.program_rewrites.length ▸ htarget.lt)
    have hend := run.dataOffset_end hklt
    have hdatafits := run.final_data_fits
    rw [htarget.sect]
    show _ ≤ (final.baseAddress + BitVec.ofNat 64 final.textSection.length +
      BitVec.ofNat 64 (run.dataOffset k)).toNat
    have htextend : (final.baseAddress + BitVec.ofNat 64 final.textSection.length).toNat =
        final.baseAddress.toNat + final.textSection.length :=
      toNat_add_ofNat (by rw [hbase]; omega)
    rw [toNat_add_ofNat (by rw [htextend, hbase]; omega), htextend]
    omega

theorem allowed_of_right
    (hspace : ctx.baseAddress.toNat + ctx.textCapacity.toNat + ctx.dataCapacity.toNat < 2 ^ 64)
    (h : run.BranchTargetsRight) : run.ForwardBranchesAllowed := by
  intro i inst name hbranch
  cases hform : branchForm (run.envAt i inst) inst.type name with
  | none => exact .inl rfl
  | some rel =>
      right
      obtain ⟨address, haddress, hfinal, hbackward⟩ := hbranch.short_final hform (h i inst name hbranch)
      have hplaced : ∀ k, run.PlacedAfter i name k → address = run.labelAddress k := fun k hk =>
        Option.some.inj (hfinal.symm.trans (run.address_placed hc hbranch.text haddress hk))
      have hallowed : (run.textAt i).enableForwardShortBranches = true ∨
          ∀ k target, InText run.canon k target → target.label = some name → k ≤ i := by
        by_contra hneg
        push Not at hneg
        obtain ⟨hoff, k, target, hk, hl, hik⟩ := hneg
        obtain ⟨m, hm⟩ := run.exists_placedAfter ⟨target, .inl hk, hl⟩
          (by rwa [InText.passOrder run hk])
        have hlt := hbackward (Bool.eq_false_of_not_eq_true hoff)
        have hle := run.currentAddress_le_labelAddress hc hspace hbranch.text hm
        rw [hplaced m hm, BitVec.lt_def] at hlt
        rw [BitVec.le_def] at hle
        omega
      refine ⟨hallowed, fun k target hk hlast => ?_⟩
      obtain ⟨v, rfl, hv⟩ := run.view_behind hc hbranch.text haddress
      have hattr := run.attributed_view hc hbranch.text hallowed hv
      rw [(run.attributed_consistent hc).findSymbolAddress, hattr, Option.map_some,
        hplaced k hlast, run.labelAddress_of_data hk]

end Allowed

end AssemblyRun

/-- Branches lead to the final addresses of their labels exactly when no branch to a label further
on is short in the second mode, which takes only labels that the table has in front of the
branch, and no statement of the data section moves the label of a short branch. -/
theorem branchTargetsRight_iff {insts : List ParsedInstruction} {ctx final : AssemblerContext}
    (hfresh : Fresh ctx)
    (hspace : ctx.baseAddress.toNat + ctx.textCapacity.toNat + ctx.dataCapacity.toNat < 2 ^ 64)
    (h : asmAssemble insts ctx = (some (), final)) :
    Nonempty (AssemblyRun insts ctx final) ∧
      ∀ run : AssemblyRun insts ctx final, run.BranchTargetsRight ↔ run.ForwardBranchesAllowed := by
  refine ⟨assemblyRun_of_success h, fun run => ?_⟩
  have hc := hfresh.consistent
  exact ⟨run.allowed_of_right hc hspace, run.right_of_allowed hc⟩

def skipOver : List ParsedInstruction :=
  [{ type := .jmp, operands := [.label (CString.lit _ "a")]
     originalLine := CString.lit _ "jmp a" },
   { type := .nop, lineNumber := 2, originalLine := CString.lit _ "nop" },
   { type := .ret, label := some (CString.lit _ "a"), lineNumber := 3
     originalLine := CString.lit _ "a: ret" }]

theorem branchTargetsRight_iff_skipOver :
    Nonempty (AssemblyRun skipOver emptyContext (asmAssemble skipOver emptyContext).2) ∧
      ∀ run : AssemblyRun skipOver emptyContext (asmAssemble skipOver emptyContext).2,
        run.BranchTargetsRight ↔ run.ForwardBranchesAllowed := by
  exact branchTargetsRight_iff (fresh_asmInit _) (by decide)
    (asmAssemble_success (by decide +kernel))

def branchChainSource : List Byte := CString.str
  ("resb 2\njmp a\nje b\nresb 122\na: align 8\nb: jmp c\nc: jmp d\n" ++
    "d: jmp e\ne: jmp f\nf: jmp g\ng: jmp h\nh: jmp i\ni:\n")

def branchChain : List ParsedInstruction :=
  [{ type := .resb, operands := [.imm 2]
     originalLine := CString.lit _ "resb 2" },
   { type := .jmp, operands := [.label (CString.lit _ "a")], lineNumber := 2
     originalLine := CString.lit _ "jmp a" },
   { type := .je, operands := [.label (CString.lit _ "b")], lineNumber := 3
     originalLine := CString.lit _ "je b" },
   { type := .resb, operands := [.imm 122], lineNumber := 4
     originalLine := CString.lit _ "resb 122" },
   { type := .align, label := some (CString.lit _ "a"), operands := [.imm 8], lineNumber := 5
     originalLine := CString.lit _ "a: align 8" },
   { type := .jmp, label := some (CString.lit _ "b"), operands := [.label (CString.lit _ "c")], lineNumber := 6
     originalLine := CString.lit _ "b: jmp c" },
   { type := .jmp, label := some (CString.lit _ "c"), operands := [.label (CString.lit _ "d")], lineNumber := 7
     originalLine := CString.lit _ "c: jmp d" },
   { type := .jmp, label := some (CString.lit _ "d"), operands := [.label (CString.lit _ "e")], lineNumber := 8
     originalLine := CString.lit _ "d: jmp e" },
   { type := .jmp, label := some (CString.lit _ "e"), operands := [.label (CString.lit _ "f")], lineNumber := 9
     originalLine := CString.lit _ "e: jmp f" },
   { type := .jmp, label := some (CString.lit _ "f"), operands := [.label (CString.lit _ "g")], lineNumber := 10
     originalLine := CString.lit _ "f: jmp g" },
   { type := .jmp, label := some (CString.lit _ "g"), operands := [.label (CString.lit _ "h")], lineNumber := 11
     originalLine := CString.lit _ "g: jmp h" },
   { type := .jmp, label := some (CString.lit _ "h"), operands := [.label (CString.lit _ "i")], lineNumber := 12
     originalLine := CString.lit _ "h: jmp i" },
   { type := .nop, label := some (CString.lit _ "i"), lineNumber := 13
     originalLine := CString.lit _ "i:" }]

/-- The last branch, to the next statement, ends up leading three bytes in front of it. -/
theorem branchTargetsRight_branchChain :
    parseSource 60 branchChainSource = some (some branchChain) ∧ DistinctLabels branchChain ∧
      ∃ final, asmAssemble branchChain emptyContext = (some (), final) ∧
        ∀ run : AssemblyRun branchChain emptyContext final, ¬ run.BranchTargetsRight := by
  have hparse : parseSource 60 branchChainSource = some (some branchChain) := by decide +kernel
  have hfinal : (asmAssemble branchChain emptyContext).1 = some () ∧
      findSymbolAddress (asmAssemble branchChain emptyContext).2 (CString.lit _ "h") =
        some 0x4000A6 ∧
      findSymbolAddress (asmAssemble branchChain emptyContext).2 (CString.lit _ "i") =
        some 0x4000A8 ∧
      slice (asmAssemble branchChain emptyContext).2.textSection 0xA6 2 = [0xEB, 0xFD] ∧
      (asmAssemble branchChain emptyContext).2.symbols.length < maxSymbols := by
    decide +kernel
  obtain ⟨hsuccess, hstart, hend, hbytes, hroom⟩ := hfinal
  refine ⟨hparse, by unfold DistinctLabels; decide +kernel, _, asmAssemble_success hsuccess, ?_⟩
  generalize (asmAssemble branchChain emptyContext).2 = final at hstart hend hbytes hroom ⊢
  intro run hright
  have hdistinct : DistinctLabels run.canon := by
    rw [run.canon_eq]
    unfold DistinctLabels
    decide +kernel
  have hbranch : InText run.canon 11
      { type := .jmp, label := some (CString.lit _ "h"), lineNumber := 12
        operands := [.label (CString.lit _ "i")], originalLine := CString.lit _ "h: jmp i" } := by
    rw [run.canon_eq]
    exact ⟨by decide +kernel, rfl, by decide +kernel⟩
  have htarget : InText run.canon 12
      { type := .nop, label := some (CString.lit _ "i"), lineNumber := 13
        originalLine := CString.lit _ "i:" } := by
    rw [run.canon_eq]
    exact ⟨by decide +kernel, rfl, by decide +kernel⟩
  have hc := (fresh_asmInit fun _ => none).consistent
  have hbase : final.baseAddress = 0x400000 := run.base_eq hc
  have hoffset := run.offset_of_label hc hdistinct hroom hbranch rfl hstart
  have hoffset' := run.offset_of_label hc hdistinct hroom htarget rfl hend
  obtain ⟨d, address, hd, haddress, hlead⟩ :=
    hright 11 _ _ ⟨hbranch, rfl, rfl, 12, _, htarget, rfl, rfl⟩
  rw [hbase] at hoffset hoffset'
  have hstored := AssemblyRun.StoresDisplacement.short run hd (b := 0xFD) (by
    rw [AssemblyRun.textBytes, hoffset, hoffset']
    exact hbytes)
  rw [hend] at haddress
  cases haddress
  rw [AssemblyRun.endAddress, hoffset', hbase, hstored] at hlead
  exact absurd hlead (by decide +kernel)

end X86Assembler
