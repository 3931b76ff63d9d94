import X86Assembler.DataPass

namespace X86Assembler

/-- An operand, or the immediate that stands for a constant. -/
def OperandRewrites (x y : Operand) : Prop := y = x ∨ ∃ name v, x = .label name ∧ y = .imm v

structure Rewrites (a b : ParsedInstruction) : Prop where
  type : b.type = a.type
  label : b.label = a.label
  operands : List.Forall₂ OperandRewrites a.operands b.operands
  skipped : isTextStatement a = false → b = a

theorem OperandRewrites.trans {x y z : Operand} (hxy : OperandRewrites x y)
    (hyz : OperandRewrites y z) : OperandRewrites x z := by
  rcases hxy with rfl | ⟨name, v, rfl, rfl⟩
  · exact hyz
  · rcases hyz with rfl | ⟨other, w, heq, -⟩
    · exact .inr ⟨name, v, rfl, rfl⟩
    · cases heq

theorem operandsRewrite_refl (ops : List Operand) : List.Forall₂ OperandRewrites ops ops := by
  induction ops with
  | nil => exact .nil
  | cons op ops ih => exact .cons (.inl rfl) ih

theorem operandsRewrite_trans {xs ys zs : List Operand}
    (hxy : List.Forall₂ OperandRewrites xs ys) (hyz : List.Forall₂ OperandRewrites ys zs) :
    List.Forall₂ OperandRewrites xs zs := by
  induction hxy generalizing zs with
  | nil => exact hyz
  | cons hop _ ih =>
      cases hyz with
      | cons hop' htail => exact .cons (hop.trans hop') (ih htail)

theorem Rewrites.refl (a : ParsedInstruction) : Rewrites a a :=
  ⟨rfl, rfl, operandsRewrite_refl _, fun _ => rfl⟩

theorem Rewrites.trans {a b c : ParsedInstruction} (hab : Rewrites a b) (hbc : Rewrites b c) :
    Rewrites a c where
  type := hbc.type.trans hab.type
  label := hbc.label.trans hab.label
  operands := operandsRewrite_trans hab.operands hbc.operands
  skipped := fun h => by
    have hb := hab.skipped h
    subst hb
    exact hbc.skipped h

theorem operandRewrites_constant (ctx : AssemblerContext) (op : Operand) :
    OperandRewrites op (rewriteConstantOperand ctx op) := by
  cases op with
  | label name =>
      rw [rewriteConstantOperand]
      split
      · split
        · exact .inr ⟨name, _, rfl, rfl⟩
        · exact .inl rfl
      · exact .inl rfl
  | none | reg _ _ | imm _ | mem _ | labelDiff _ _ | string _ => exact .inl rfl

theorem operandsRewrite_constant (ctx : AssemblerContext) (ops : List Operand) :
    List.Forall₂ OperandRewrites ops (ops.map (rewriteConstantOperand ctx)) := by
  induction ops with
  | nil => exact .nil
  | cons op ops ih => exact .cons (operandRewrites_constant ctx op) ih

/-- Position by position, one program is what the passes make of the other. -/
structure RewritesAll (xs ys : List ParsedInstruction) : Prop where
  length : ys.length = xs.length
  get : ∀ (i : Nat) (a : ParsedInstruction), xs[i]? = some a → ∃ b, ys[i]? = some b ∧ Rewrites a b

theorem RewritesAll.refl (xs : List ParsedInstruction) : RewritesAll xs xs :=
  ⟨rfl, fun _ a h => ⟨a, h, .refl a⟩⟩

theorem RewritesAll.trans {xs ys zs : List ParsedInstruction} (hxy : RewritesAll xs ys)
    (hyz : RewritesAll ys zs) : RewritesAll xs zs where
  length := hyz.length.trans hxy.length
  get := fun i a ha => by
    obtain ⟨b, hb, hab⟩ := hxy.get i a ha
    obtain ⟨c, hc, hbc⟩ := hyz.get i b hb
    exact ⟨c, hc, hab.trans hbc⟩

theorem RewritesAll.sectionBefore {xs ys : List ParsedInstruction} (h : RewritesAll xs ys)
    {i : Nat} (hi : i ≤ xs.length) : sectionBefore ys i = sectionBefore xs i := by
  induction i with
  | zero => rfl
  | succ i ih =>
      have hget : xs[i]? = some xs[i] := List.getElem?_eq_getElem hi
      obtain ⟨b, hb, hab⟩ := h.get i _ hget
      rw [sectionBefore_succ hb, sectionBefore_succ hget, ih (Nat.le_of_succ_le hi), sectionStep,
        sectionStep, hab.type]
      split
      · rename_i ht
        have hskip : isTextStatement xs[i] = false := by simp [isTextStatement, ht]
        rw [hab.skipped hskip]
      · rfl

theorem isTextStatement_congr {a b : ParsedInstruction} (h : b.type = a.type) :
    isTextStatement b = isTextStatement a := by
  simp only [isTextStatement, h]

theorem RewritesAll.inText {xs ys : List ParsedInstruction} (h : RewritesAll xs ys) {i : Nat}
    {a : ParsedInstruction} (hi : InText xs i a) : ∃ b, InText ys i b ∧ Rewrites a b := by
  obtain ⟨b, hb, hab⟩ := h.get i a hi.get
  refine ⟨b, ⟨hb, ?_, ?_⟩, hab⟩
  · rw [isTextStatement_congr hab.type, hi.statement]
  · rw [h.sectionBefore (Nat.le_of_lt hi.lt), hi.sect]

theorem RewritesAll.inText_back {xs ys : List ParsedInstruction} (h : RewritesAll xs ys) {i : Nat}
    {b : ParsedInstruction} (hi : InText ys i b) : ∃ a, InText xs i a ∧ Rewrites a b := by
  have hlt : i < xs.length := h.length ▸ hi.lt
  obtain ⟨b', hb', hab⟩ := h.get i xs[i] (List.getElem?_eq_getElem hlt)
  rw [hi.get] at hb'
  cases hb'
  refine ⟨xs[i], ⟨List.getElem?_eq_getElem hlt, ?_, ?_⟩, hab⟩
  · rw [← isTextStatement_congr hab.type, hi.statement]
  · rw [← h.sectionBefore (Nat.le_of_lt hlt), hi.sect]

theorem RewritesAll.inData {xs ys : List ParsedInstruction} (h : RewritesAll xs ys) {i : Nat}
    {a : ParsedInstruction} (hi : InData xs i a) : ∃ b, InData ys i b ∧ Rewrites a b := by
  obtain ⟨b, hb, hab⟩ := h.get i a hi.get
  refine ⟨b, ⟨hb, ?_, ?_⟩, hab⟩
  · rw [hab.type]
    exact hi.not_section
  · rw [h.sectionBefore (Nat.le_of_lt hi.lt), hi.sect]

theorem RewritesAll.inData_back {xs ys : List ParsedInstruction} (h : RewritesAll xs ys) {i : Nat}
    {b : ParsedInstruction} (hi : InData ys i b) : ∃ a, InData xs i a ∧ Rewrites a b := by
  have hlt : i < xs.length := h.length ▸ hi.lt
  obtain ⟨b', hb', hab⟩ := h.get i xs[i] (List.getElem?_eq_getElem hlt)
  rw [hi.get] at hb'
  cases hb'
  refine ⟨xs[i], ⟨List.getElem?_eq_getElem hlt, ?_, ?_⟩, hab⟩
  · rw [← hab.type]
    exact hi.not_section
  · rw [← h.sectionBefore (Nat.le_of_lt hlt), hi.sect]

theorem rewrites_textRewrite (ctx : AssemblerContext) {inst : ParsedInstruction}
    (ht : isTextStatement inst = true) : Rewrites inst (textRewrite ctx inst) where
  type := rfl
  label := rfl
  operands := operandsRewrite_constant _ _
  skipped := fun h => by
    rw [ht] at h
    cases h

theorem textPass_rewrites {insts out : List ParsedInstruction} {ctx ctx' : AssemblerContext}
    {st : TextPassState} (h : textPass {} insts ctx = (some (st, out), ctx'))
    (hs : PassStart ctx) : RewritesAll insts out where
  length := Fallible.walk_length h
  get := fun i a ha => by
    by_cases hin : InText insts i a
    · exact ⟨_, (textAt_step h hs hin).1, rewrites_textRewrite _ hin.statement⟩
    · exact ⟨a, (textAt_skip h hs ha hin).1, .refl a⟩

end X86Assembler
