import X86Assembler.LocalScopes

namespace X86Assembler

open CString (Byte)

/-- What a reference may become: a local name its scoped one, an anonymous reference the
number of a definition, and any other name stays. -/
inductive Renamed (x : Label) : Label → Prop
  | localName {n : Nat} {c : Label} : isLocalLabelName x → c.bytes = scopedLocalBytes n x → Renamed x c
  | numbered {k : Nat} : (isAnonymousForwardRef x || isAnonymousBackwardRef x) = true →
      k < maxSymbols → Renamed x (anonymousLabel k)
  | kept : isLocalLabelName x = false → Renamed x x

inductive OperandRenamed : Operand → Operand → Prop
  | label {x c : Label} : Renamed x c → OperandRenamed (.label x) (.label c)
  | labelDiff {x y c d : Label} : Renamed x c → Renamed y d →
      OperandRenamed (.labelDiff x y) (.labelDiff c d)
  | mem {m : MemOperand} {c : Label} : Renamed m.label c →
      OperandRenamed (.mem m) (.mem { m with label := c })
  | none : OperandRenamed .none .none
  | reg {r : Reg} {size : RegSize} : OperandRenamed (.reg r size) (.reg r size)
  | imm {v : Word} : OperandRenamed (.imm v) (.imm v)
  | string {text : Text} : OperandRenamed (.string text) (.string text)

structure Canonical (inst out : ParsedInstruction) : Prop where
  type : out.type = inst.type
  labelled : out.label.isSome = inst.label.isSome
  operands : List.Forall₂ OperandRenamed inst.operands out.operands

theorem mem_anonDefs {st : CanonState} (h : Named st) {d : AnonymousDef} (hd : d ∈ st.anonDefs) :
    ∃ k < maxSymbols, d.scopedName = anonymousLabel k := by
  have hmem : d.scopedName ∈ st.anonDefs.map AnonymousDef.scopedName := List.mem_map_of_mem hd
  rw [h.anonymous, List.mem_map] at hmem
  obtain ⟨k, hk, heq⟩ := hmem
  exact ⟨k, Nat.lt_of_lt_of_le (List.mem_range.mp hk) h.few, heq.symm⟩

theorem lookupForwardRef_eq {st : CanonState} (h : Named st) {i : Nat} {c : Label}
    (hc : lookupForwardRef st.anonDefs i = some c) : ∃ k < maxSymbols, c = anonymousLabel k := by
  obtain ⟨d, hd, rfl⟩ := Option.map_eq_some_iff.mp hc
  exact mem_anonDefs h (List.mem_of_find?_eq_some hd)

theorem lookupBackwardRef_eq {st : CanonState} (h : Named st) {i : Nat} {c : Label}
    (hc : lookupBackwardRef st.anonDefs i = some c) : ∃ k < maxSymbols, c = anonymousLabel k := by
  obtain ⟨d, hd, rfl⟩ := Option.map_eq_some_iff.mp hc
  exact mem_anonDefs h (List.mem_reverse.mp (List.mem_of_find?_eq_some hd))

theorem normalizeLabelReference_renamed {i line : Nat} {st st' : CanonState} {x c : Label}
    (hst : Named st) (h : normalizeLabelReference i line st x = .ok (st', c)) : Renamed x c := by
  have hscoped := (normalizeLabelReference_scoped hst h).2.2
  cases hlocal : isLocalLabelName x with
  | true => exact .localName hlocal (hscoped hlocal)
  | false =>
      rw [normalizeLabelReference, hlocal, if_neg Bool.false_ne_true] at h
      split at h
      · rename_i hforward
        split at h
        · rename_i d hd
          cases h
          obtain ⟨k, hk, rfl⟩ := lookupForwardRef_eq hst hd
          exact .numbered (by rw [hforward, Bool.true_or]) hk
        · cases h
      split at h
      · rename_i hbackward
        split at h
        · rename_i d hd
          cases h
          obtain ⟨k, hk, rfl⟩ := lookupBackwardRef_eq hst hd
          exact .numbered (by rw [hbackward, Bool.or_true]) hk
        · cases h
      · cases h
        exact .kept hlocal

theorem normalizeOperand_renamed {i line : Nat} {st st' : CanonState} {op op' : Operand}
    (hst : Named st) (h : normalizeOperand i line st op = .ok (st', op')) :
    OperandRenamed op op' := by
  cases op with
  | label name =>
      obtain ⟨⟨st₁, c⟩, hname, h⟩ := exceptBind_eq_ok.mp h
      cases h
      exact .label (normalizeLabelReference_renamed hst hname)
  | labelDiff lhs rhs =>
      obtain ⟨⟨st₁, c⟩, hlhs, h⟩ := exceptBind_eq_ok.mp h
      obtain ⟨⟨st₂, d⟩, hrhs, h⟩ := exceptBind_eq_ok.mp h
      cases h
      have hst₁ := (normalizeLabelReference_scoped hst hlhs).1
      exact .labelDiff (normalizeLabelReference_renamed hst hlhs)
        (normalizeLabelReference_renamed hst₁ hrhs)
  | mem m =>
      obtain ⟨⟨st₁, c⟩, hname, h⟩ := exceptBind_eq_ok.mp h
      cases h
      exact .mem (normalizeLabelReference_renamed hst hname)
  | none =>
      cases h
      exact .none
  | reg r size =>
      cases h
      exact .reg
  | imm value =>
      cases h
      exact .imm
  | string text =>
      cases h
      exact .string

theorem rewriteOperands_renamed {i line : Nat} {st st' : CanonState} {ops ops' : List Operand}
    (hst : Named st) (h : rewriteEach (normalizeOperand i line) st ops = .ok (st', ops')) :
    List.Forall₂ OperandRenamed ops ops' := by
  induction ops generalizing st ops' with
  | nil =>
      cases h
      exact .nil
  | cons op ops ih =>
      obtain ⟨st₁, op', rest, hone, hrest, rfl⟩ := rewriteEach_cons h
      have hst₁ := (normalizeOperand_scoped hst hone).1
      exact .cons (normalizeOperand_renamed hst hone) (ih hst₁ hrest)

theorem defineLabel_kept (i : Nat) (st : CanonState) (inst : ParsedInstruction) (st' : CanonState)
    (inst' : ParsedInstruction) (hst : Named st) (h : defineLabel i st inst = .ok (st', inst')) :
    Named st' ∧ st'.scopeId = st.scopeId + (if startsScope inst then 1 else 0) ∧
      inst'.type = inst.type ∧ inst'.label.isSome = inst.label.isSome ∧
        inst'.operands = inst.operands := by
  obtain ⟨hst', hscope, hdefined⟩ := defineLabel_step i st inst st' inst' hst h
  refine ⟨hst', hscope, ?_, ?_, hdefined.operands⟩
  · obtain ⟨-, -, rfl⟩ | ⟨-, -, -, -, -, rfl⟩ | ⟨-, -, -, -, -, -, -, rfl⟩ := defineLabel_cases h
    · rfl
    · rfl
    · rfl
  · obtain ⟨-, -, rfl⟩ | ⟨x, hx, -, -, -, rfl⟩ | ⟨x, c, hx, -, -, -, -, rfl⟩ := defineLabel_cases h
    · rfl
    · rw [hx]
      rfl
    · rw [hx]
      rfl

theorem normalizeOperands_kept (i : Nat) (st : CanonState) (inst : ParsedInstruction)
    (st' : CanonState) (inst' : ParsedInstruction) (hst : Named st)
    (h : normalizeOperands i st inst = .ok (st', inst')) :
    Named st' ∧ st'.scopeId = st.scopeId + (if opensScope inst then 1 else 0) ∧
      Canonical inst inst' := by
  obtain ⟨hst', hscope, -⟩ := normalizeOperands_step i st inst st' inst' hst h
  refine ⟨hst', hscope, ?_⟩
  obtain ⟨⟨st₁, ops⟩, hops, h⟩ := exceptBind_eq_ok.mp h
  cases h
  refine ⟨rfl, rfl, rewriteOperands_renamed ?_ hops⟩
  split
  · exact named_rescoped hst _
  · exact hst

theorem canonicalize_canonical {insts canon : List ParsedInstruction}
    (h : canonicalizeSymbolLabels insts = .ok canon) : canon.length = insts.length ∧
      ∀ (k : Nat) (inst : ParsedInstruction), insts[k]? = some inst →
        ∃ out, canon[k]? = some out ∧ Canonical inst out := by
  rw [canonicalizeSymbolLabels] at h
  obtain ⟨⟨st, renamed⟩, hdefine, h⟩ := exceptBind_eq_ok.mp h
  obtain ⟨⟨st', canon'⟩, hrefer, h⟩ := exceptBind_eq_ok.mp h
  obtain rfl : canon' = canon := Except.ok.inj h
  obtain ⟨hst, -, hlen, hdefs⟩ := rewriteIndexed_scopes
    (R := fun _ inst inst' => inst'.type = inst.type ∧
      inst'.label.isSome = inst.label.isSome ∧ inst'.operands = inst.operands)
    defineLabel_kept named_empty hdefine
  obtain ⟨-, -, hlen', hrefs⟩ := rewriteIndexed_scopes
    (R := fun _ inst inst' => Canonical inst inst') normalizeOperands_kept
    (named_rescoped hst 0) hrefer
  refine ⟨hlen'.trans hlen, ?_⟩
  intro k inst hk
  obtain ⟨inst', hinst', htype, hlabel, hops⟩ := hdefs k inst hk
  obtain ⟨out, hout, hcanon⟩ := hrefs k inst' hinst'
  exact ⟨out, hout, hcanon.type.trans htype, hcanon.labelled.trans hlabel, hops ▸ hcanon.operands⟩

end X86Assembler
