import Mathlib.Data.List.Forall2
import Mathlib.Data.List.Nodup
import X86Assembler.Canonicalize

namespace X86Assembler

open CString (Byte)

def Operand.references : Operand → List Label
  | .label name => [name]
  | .labelDiff lhs rhs => [lhs, rhs]
  | .mem m => [m.label]
  | _ => []

def ParsedInstruction.references (inst : ParsedInstruction) : List Label :=
  inst.operands.flatMap Operand.references

/-- Whether the written label of an instruction starts a scope: it is neither local nor
anonymous, nor the name of a constant. -/
def startsScope (inst : ParsedInstruction) : Bool :=
  match inst.label with
  | none => false
  | some label =>
      !isAnonymousLabelDefinition label && !isLocalLabelName label && inst.type != .equ

/-- No label after the earlier of two instructions, up to the later one, starts a scope. -/
def SameScope (insts : List ParsedInstruction) (i j : Nat) : Prop :=
  ∀ k inst, min i j < k → k ≤ max i j → insts[k]? = some inst → startsScope inst = false

def scopeNumber (insts : List ParsedInstruction) (i : Nat) : Nat :=
  (insts.take (i + 1)).countP startsScope

theorem scopeNumber_eq_iff_of_le {insts : List ParsedInstruction} {i j : Nat} (h : i ≤ j) :
    scopeNumber insts i = scopeNumber insts j ↔ SameScope insts i j := by
  have hsplit : insts.take (j + 1) =
      insts.take (i + 1) ++ (insts.drop (i + 1)).take (j - i) := by
    rw [← List.take_add, show i + 1 + (j - i) = j + 1 by omega]
  rw [scopeNumber, scopeNumber, hsplit, List.countP_append, SameScope, min_eq_left h,
    max_eq_right h]
  constructor
  · intro heq k inst hik hkj hk
    have hzero : ((insts.drop (i + 1)).take (j - i)).countP startsScope = 0 := by omega
    rw [← Bool.not_eq_true]
    apply List.countP_eq_zero.mp hzero
    apply List.mem_of_getElem? (i := k - (i + 1))
    rw [List.getElem?_take_of_lt (by omega), List.getElem?_drop,
      show i + 1 + (k - (i + 1)) = k by omega, hk]
  · intro hall
    have hzero : ((insts.drop (i + 1)).take (j - i)).countP startsScope = 0 := by
      rw [List.countP_eq_zero]
      intro inst hinst
      obtain ⟨k, hk, rfl⟩ := List.mem_iff_getElem.mp hinst
      rw [List.length_take] at hk
      rw [Bool.not_eq_true]
      apply hall (i + 1 + k) _ (by omega) (by omega)
      rw [List.getElem_take, List.getElem_drop, List.getElem?_eq_getElem]
    omega

theorem SameScope.symm {insts : List ParsedInstruction} {i j : Nat} (h : SameScope insts i j) :
    SameScope insts j i := by
  rw [SameScope, min_comm, max_comm]
  exact h

theorem scopeNumber_eq_iff {insts : List ParsedInstruction} {i j : Nat} :
    scopeNumber insts i = scopeNumber insts j ↔ SameScope insts i j := by
  cases Nat.le_total i j with
  | inl h => exact scopeNumber_eq_iff_of_le h
  | inr h =>
      rw [eq_comm, scopeNumber_eq_iff_of_le h]
      exact ⟨SameScope.symm, SameScope.symm⟩

theorem zero_notMem_decimal (n : Nat) : (0 : Byte) ∉ CString.decimal n := by
  intro h
  exact absurd (CString.isDigit_of_mem_decimal h) (by decide)

theorem underscore_notMem_decimal (n : Nat) : (0x5F#8 : Byte) ∉ CString.decimal n := by
  intro h
  exact absurd (CString.isDigit_of_mem_decimal h) (by decide)

theorem isLocalLabelName_eq {name : Label} (h : isLocalLabelName name) :
    name.bytes = 0x2E#8 :: name.bytes.tail := by
  rw [isLocalLabelName, Bool.and_eq_true, beq_iff_eq] at h
  exact (List.cons_head?_tail h.1).symm

theorem append_sep_inj {α : Type} {sep : α} {xs ys as bs : List α} (hx : sep ∉ xs) (hy : sep ∉ ys)
    (h : xs ++ sep :: as = ys ++ sep :: bs) : xs = ys ∧ as = bs := by
  induction xs generalizing ys with
  | nil =>
      cases ys with
      | nil => exact ⟨rfl, (List.cons.inj h).2⟩
      | cons y ys => exact absurd ((List.cons.inj h).1 ▸ List.mem_cons_self) hy
  | cons x xs ih =>
      cases ys with
      | nil => exact absurd ((List.cons.inj h).1 ▸ List.mem_cons_self) hx
      | cons y ys =>
          obtain ⟨rfl, htail⟩ := List.cons.inj h
          obtain ⟨rfl, rfl⟩ := ih (List.not_mem_of_not_mem_cons hx)
            (List.not_mem_of_not_mem_cons hy) htail
          exact ⟨rfl, rfl⟩

theorem scopedLocalBytes_inj {n m : Nat} {x y : Label} (hx : isLocalLabelName x)
    (hy : isLocalLabelName y) (h : scopedLocalBytes n x = scopedLocalBytes m y) :
    n = m ∧ x = y := by
  rw [scopedLocalBytes, scopedLocalBytes, List.append_assoc, List.append_assoc, List.append_assoc,
    List.append_assoc, List.append_cancel_left_eq] at h
  obtain ⟨hdigits, htail⟩ :=
    append_sep_inj (underscore_notMem_decimal n) (underscore_notMem_decimal m) h
  refine ⟨CString.decimal_injective hdigits, CString.CStr.ext ?_⟩
  rw [isLocalLabelName_eq hx, isLocalLabelName_eq hy]
  exact congrArg _ htail

theorem buildScopedLocalLabel_bytes {n : Nat} {x c : Label}
    (h : buildScopedLocalLabel n x = some c) : c.bytes = scopedLocalBytes n x := by
  rw [buildScopedLocalLabel] at h
  split at h
  · rename_i hlen
    cases h
    apply CString.copyBounded_bytes_of_fits hlen
    rw [scopedLocalBytes, List.mem_append, List.mem_append, List.mem_append]
    rintro (((hpre | hdigit) | hsep) | htail)
    · exact absurd hpre (by decide)
    · exact zero_notMem_decimal n hdigit
    · exact absurd hsep (by decide)
    · exact x.no_nul (List.mem_of_mem_tail htail)
  · cases h

theorem anonymousLabel_bytes {k : Nat} (h : k < maxSymbols) :
    (anonymousLabel k).bytes = CString.str "__anon_" ++ CString.decimal k := by
  apply CString.copyBounded_bytes_of_fits
  · have hlen := CString.length_decimal_le (k := 4) (by decide) (n := k)
      (Nat.lt_trans h (by decide))
    rw [List.length_append, show (CString.str "__anon_").length = 7 by decide]
    exact Nat.lt_of_le_of_lt (Nat.add_le_add_left hlen 7) (by decide)
  · rw [List.mem_append]
    rintro (hpre | hdigit)
    · exact absurd hpre (by decide)
    · exact zero_notMem_decimal k hdigit

theorem anonymousLabel_inj {k l : Nat} (hk : k < maxSymbols) (hl : l < maxSymbols)
    (h : anonymousLabel k = anonymousLabel l) : k = l := by
  have hbytes := congrArg CString.CStr.bytes h
  rw [anonymousLabel_bytes hk, anonymousLabel_bytes hl, List.append_cancel_left_eq] at hbytes
  exact CString.decimal_injective hbytes

theorem isPrefixOf_scopedLocalBytes (n : Nat) (x : Label) :
    (CString.str "__loc_").isPrefixOf (scopedLocalBytes n x) = true := by
  rw [List.isPrefixOf_iff_prefix, scopedLocalBytes, List.append_assoc, List.append_assoc]
  exact List.prefix_append _ _

theorem isPrefixOf_anonymousLabel {k : Nat} (h : k < maxSymbols) :
    (CString.str "__anon_").isPrefixOf (anonymousLabel k).bytes = true := by
  rw [List.isPrefixOf_iff_prefix, anonymousLabel_bytes h]
  exact List.prefix_append _ _

theorem scopedLocalBytes_ne_anonymous {n k : Nat} {x : Label} (h : k < maxSymbols) :
    scopedLocalBytes n x ≠ (anonymousLabel k).bytes := by
  intro heq
  have hloc := List.isPrefixOf_iff_prefix.mp (isPrefixOf_scopedLocalBytes n x)
  have hanon := List.isPrefixOf_iff_prefix.mp (isPrefixOf_anonymousLabel h)
  rw [heq] at hloc
  exact absurd (List.prefix_of_prefix_length_le hloc hanon (by decide)) (by decide)

theorem exceptBind_eq_ok {ε α β : Type} {m : Except ε α} {f : α → Except ε β} {b : β} :
    (m >>= f) = .ok b ↔ ∃ a, m = .ok a ∧ f a = .ok b := by
  cases m with
  | error e =>
      constructor
      · intro h
        cases h
      · rintro ⟨a, ha, -⟩
        cases ha
  | ok a =>
      constructor
      · intro h
        exact ⟨a, rfl, h⟩
      · rintro ⟨a', ha, hf⟩
        cases ha
        exact hf

theorem rewriteEach_cons {σ α : Type} {f : σ → α → Except CanonError (σ × α)} {st st' : σ} {a : α}
    {as out : List α} (h : rewriteEach f st (a :: as) = .ok (st', out)) :
    ∃ st₁ b bs, f st a = .ok (st₁, b) ∧ rewriteEach f st₁ as = .ok (st', bs) ∧ out = b :: bs := by
  rw [rewriteEach] at h
  obtain ⟨⟨st₁, b⟩, hone, h⟩ := exceptBind_eq_ok.mp h
  obtain ⟨⟨st₂, bs⟩, hrest, h⟩ := exceptBind_eq_ok.mp h
  cases h
  exact ⟨st₁, b, bs, hone, hrest, rfl⟩

section Pass

variable {f : Nat → CanonState → ParsedInstruction → Except CanonError (CanonState × ParsedInstruction)}

theorem rewriteIndexed_cons {i : Nat} {st st' : CanonState} {inst : ParsedInstruction}
    {insts out : List ParsedInstruction} (h : rewriteIndexed f i st (inst :: insts) = .ok (st', out)) :
    ∃ st₁ inst' rest, f i st inst = .ok (st₁, inst') ∧
      rewriteIndexed f (i + 1) st₁ insts = .ok (st', rest) ∧ out = inst' :: rest := by
  rw [rewriteIndexed] at h
  obtain ⟨⟨st₁, inst'⟩, hone, h⟩ := exceptBind_eq_ok.mp h
  obtain ⟨⟨st₂, rest⟩, hrest, h⟩ := exceptBind_eq_ok.mp h
  cases h
  exact ⟨st₁, inst', rest, hone, hrest, rfl⟩

theorem rewriteIndexed_take {i : Nat} {st st' : CanonState} {insts out : List ParsedInstruction}
    (n : Nat) (h : rewriteIndexed f i st insts = .ok (st', out)) :
    ∃ st₁, rewriteIndexed f i st (insts.take n) = .ok (st₁, out.take n) := by
  induction insts generalizing i st out n with
  | nil =>
      cases h
      rw [List.take_nil]
      exact ⟨st', rfl⟩
  | cons inst insts ih =>
      obtain ⟨st₁, inst', rest, hone, hrest, rfl⟩ := rewriteIndexed_cons h
      cases n with
      | zero => exact ⟨st, rfl⟩
      | succ n =>
          obtain ⟨st₂, htake⟩ := ih n hrest
          refine ⟨st₂, ?_⟩
          rw [List.take_succ_cons, List.take_succ_cons, rewriteIndexed]
          exact exceptBind_eq_ok.mpr ⟨_, hone, exceptBind_eq_ok.mpr ⟨_, htake, rfl⟩⟩

/-- What a pass does at each instruction, when one step keeps `I`, counts the instructions
that satisfy `g`, and relates the instruction to its rewriting under the count so far. -/
theorem rewriteIndexed_scopes {I : CanonState → Prop} {g : ParsedInstruction → Bool}
    {R : Nat → ParsedInstruction → ParsedInstruction → Prop}
    (hstep : ∀ i st inst st' inst', I st → f i st inst = .ok (st', inst') →
      I st' ∧ st'.scopeId = st.scopeId + (if g inst then 1 else 0) ∧ R st'.scopeId inst inst')
    {i : Nat} {st st' : CanonState} {insts out : List ParsedInstruction} (hI : I st)
    (h : rewriteIndexed f i st insts = .ok (st', out)) :
    I st' ∧ st'.scopeId = st.scopeId + insts.countP g ∧ out.length = insts.length ∧
      ∀ k inst, insts[k]? = some inst → ∃ inst', out[k]? = some inst' ∧
        R (st.scopeId + (insts.take (k + 1)).countP g) inst inst' := by
  induction insts generalizing i st out with
  | nil =>
      cases h
      exact ⟨hI, rfl, rfl, fun k inst hk => by cases hk⟩
  | cons inst insts ih =>
      obtain ⟨st₁, inst', rest, hone, hrest, rfl⟩ := rewriteIndexed_cons h
      obtain ⟨hI₁, hscope, hR⟩ := hstep i st inst st₁ inst' hI hone
      obtain ⟨hI', hcount, hlen, hall⟩ := ih hI₁ hrest
      refine ⟨hI', ?_, congrArg (· + 1) hlen, ?_⟩
      · rw [hcount, hscope, List.countP_cons]
        omega
      · intro k other hk
        cases k with
        | zero =>
            cases hk
            refine ⟨inst', rfl, ?_⟩
            rw [List.take_succ_cons, List.take_zero, List.countP_cons, List.countP_nil, Nat.zero_add,
              ← hscope]
            exact hR
        | succ k =>
            obtain ⟨other', hother, hRother⟩ := hall k other hk
            refine ⟨other', hother, ?_⟩
            rw [List.take_succ_cons, List.countP_cons, Nat.add_comm _ (if g inst then 1 else 0),
              ← Nat.add_assoc, ← hscope]
            exact hRother

end Pass

/-- The aliases hold local names under their scoped names, the anonymous definitions are
numbered in order. -/
structure Named (st : CanonState) : Prop where
  aliases : ∀ a ∈ st.aliases, isLocalLabelName a.localName ∧
    a.scopedName.bytes = scopedLocalBytes a.scopeId a.localName
  anonymous : st.anonDefs.map AnonymousDef.scopedName =
    (List.range st.anonDefs.length).map anonymousLabel
  few : st.anonDefs.length ≤ maxSymbols

theorem named_rescoped {st : CanonState} (h : Named st) (n : Nat) :
    Named { st with scopeId := n } :=
  ⟨h.aliases, h.anonymous, h.few⟩

theorem lookupLocalAlias_eq_some {st : CanonState} {x c : Label} (h : Named st)
    (hc : lookupLocalAlias st x = some c) : c.bytes = scopedLocalBytes st.scopeId x := by
  rw [lookupLocalAlias, Option.map_eq_some_iff] at hc
  obtain ⟨a, ha, rfl⟩ := hc
  have hsome := List.find?_some ha
  rw [Bool.and_eq_true, beq_iff_eq, beq_iff_eq] at hsome
  rw [← hsome.1, ← hsome.2]
  exact (h.aliases a (List.mem_of_find?_eq_some ha)).2

/-- What a call of `get_or_create_local_alias` may do: find the name, or add it. -/
theorem getOrCreateLocalAlias_cases {st st' : CanonState} {x c : Label}
    (h : getOrCreateLocalAlias st x = .ok (st', c)) :
    (lookupLocalAlias st x = some c ∧ st' = st) ∨
      (lookupLocalAlias st x = none ∧ c.bytes = scopedLocalBytes st.scopeId x ∧
        st' = { st with aliases := st.aliases ++ [⟨st.scopeId, x, c⟩] }) := by
  rw [getOrCreateLocalAlias] at h
  cases hlookup : lookupLocalAlias st x with
  | some d =>
      rw [hlookup] at h
      cases h
      exact .inl ⟨rfl, rfl⟩
  | none =>
      rw [hlookup] at h
      simp only at h
      split at h
      · cases h
      · cases hbuild : buildScopedLocalLabel st.scopeId x with
        | none =>
            rw [hbuild] at h
            cases h
        | some d =>
            rw [hbuild] at h
            cases h
            exact .inr ⟨rfl, buildScopedLocalLabel_bytes hbuild, rfl⟩

theorem getOrCreateLocalAlias_named {st st' : CanonState} {x c : Label} (hst : Named st)
    (hx : isLocalLabelName x) (h : getOrCreateLocalAlias st x = .ok (st', c)) :
    Named st' ∧ st'.scopeId = st.scopeId ∧ c.bytes = scopedLocalBytes st.scopeId x := by
  obtain ⟨hlookup, rfl⟩ | ⟨-, hc, rfl⟩ := getOrCreateLocalAlias_cases h
  · exact ⟨hst, rfl, lookupLocalAlias_eq_some hst hlookup⟩
  · refine ⟨⟨?_, hst.anonymous, hst.few⟩, rfl, hc⟩
    intro a ha
    cases List.mem_append.mp ha with
    | inl ha => exact hst.aliases a ha
    | inr ha =>
        cases List.mem_singleton.mp ha
        exact ⟨hx, hc⟩

/-- What the first pass may do at an instruction: keep its label, number an anonymous one,
or scope a local one that is new in its scope. -/
theorem defineLabel_cases {i : Nat} {st st' : CanonState} {inst inst' : ParsedInstruction}
    (h : defineLabel i st inst = .ok (st', inst')) :
    ((∀ x, inst.label = some x → isAnonymousLabelDefinition x = false ∧
          isLocalLabelName x = false) ∧
        st' = { st with scopeId := st.scopeId + (if startsScope inst then 1 else 0) } ∧
        inst' = inst) ∨
      (∃ x, inst.label = some x ∧ isAnonymousLabelDefinition x ∧ st.anonDefs.length < maxSymbols ∧
        st' = { st with anonDefs := st.anonDefs ++ [⟨i, anonymousLabel st.anonDefs.length⟩] } ∧
        inst' = { inst with label := some (anonymousLabel st.anonDefs.length) }) ∨
      ∃ x c, inst.label = some x ∧ isLocalLabelName x ∧ lookupLocalAlias st x = none ∧
        c.bytes = scopedLocalBytes st.scopeId x ∧
        st' = { st with aliases := st.aliases ++ [⟨st.scopeId, x, c⟩] } ∧
        inst' = { inst with label := some c } := by
  rw [defineLabel] at h
  cases hlabel : inst.label with
  | none =>
      rw [hlabel] at h
      cases h
      left
      refine ⟨?_, ?_, rfl⟩
      · intro x hx
        cases hx
      · rw [startsScope, hlabel]
        rfl
  | some x =>
      rw [hlabel] at h
      cases hanon : isAnonymousLabelDefinition x with
      | true =>
          simp only [hanon, if_true] at h
          split at h
          · cases h
          · cases h
            exact .inr (.inl ⟨x, rfl, hanon, Nat.lt_of_not_le ‹_›, rfl, rfl⟩)
      | false =>
          simp only [hanon, Bool.false_eq_true, if_false] at h
          cases hlocal : isLocalLabelName x with
          | true =>
              simp only [hlocal, if_true] at h
              cases hlookup : lookupLocalAlias st x with
              | some c =>
                  rw [hlookup] at h
                  cases h
              | none =>
                  rw [hlookup] at h
                  obtain ⟨⟨st₁, c⟩, hcreate, h⟩ := exceptBind_eq_ok.mp h
                  cases h
                  obtain ⟨hsome, -⟩ | ⟨-, hc, rfl⟩ := getOrCreateLocalAlias_cases hcreate
                  · rw [hlookup] at hsome
                    cases hsome
                  · exact .inr (.inr ⟨x, c, rfl, hlocal, hlookup, hc, rfl, rfl⟩)
          | false =>
              simp only [hlocal, Bool.false_eq_true, if_false] at h
              left
              refine ⟨fun y hy => by cases hy; exact ⟨hanon, hlocal⟩, ?_⟩
              split at h
              · cases h
                rename_i hequ
                refine ⟨?_, rfl⟩
                simp [startsScope, hlabel, hanon, hlocal, hequ]
              · cases h
                rename_i hequ
                refine ⟨?_, rfl⟩
                simp [startsScope, hlabel, hanon, hlocal, hequ]

theorem startsScope_anonymous {inst : ParsedInstruction} {x : Label} (hx : inst.label = some x)
    (h : isAnonymousLabelDefinition x) : startsScope inst = false := by
  simp only [startsScope, hx, h, Bool.not_true, Bool.false_and]

theorem startsScope_local {inst : ParsedInstruction} {x : Label} (hx : inst.label = some x)
    (h : isLocalLabelName x) : startsScope inst = false := by
  simp only [startsScope, hx, h, Bool.not_true, Bool.and_false, Bool.false_and]

def Unprefixed (inst : ParsedInstruction) : Prop :=
  ∀ label, inst.label = some label → ¬ CString.str "__loc_" <+: label.bytes ∧
    ¬ CString.str "__anon_" <+: label.bytes

/-- The first pass leaves everything but the label, scopes a local label, and leaves the
question whether a scope starts here to be answered as before. -/
structure DefinedAs (n : Nat) (inst inst' : ParsedInstruction) : Prop where
  operands : inst'.operands = inst.operands
  scopedLabel : ∀ x, inst.label = some x → isLocalLabelName x →
    ∃ c, inst'.label = some c ∧ c.bytes = scopedLocalBytes n x
  opens : Unprefixed inst → opensScope inst' = startsScope inst

theorem opensScope_of_isPrefixOf {inst : ParsedInstruction} {c : Label} (hc : inst.label = some c)
    (h : (CString.str "__loc_").isPrefixOf c.bytes = true ∨
      (CString.str "__anon_").isPrefixOf c.bytes = true) : opensScope inst = false := by
  rw [opensScope, hc]
  cases h with
  | inl h => simp only [h, Bool.not_true, Bool.and_false, Bool.false_and]
  | inr h => simp only [h, Bool.not_true, Bool.and_false]

theorem opensScope_of_unprefixed {inst : ParsedInstruction} (h : Unprefixed inst)
    (hplain : ∀ x, inst.label = some x → isAnonymousLabelDefinition x = false) :
    opensScope inst = startsScope inst := by
  cases hx : inst.label with
  | none => rw [opensScope, startsScope, hx]
  | some x =>
      obtain ⟨hloc, hanon⟩ := h x hx
      rw [← List.isPrefixOf_iff_prefix, Bool.not_eq_true] at hloc hanon
      simp only [opensScope, startsScope, hx, hloc, hanon, hplain x hx, Bool.not_false,
        Bool.true_and, Bool.and_comm]

theorem defineLabel_step (i : Nat) (st : CanonState) (inst : ParsedInstruction) (st' : CanonState)
    (inst' : ParsedInstruction) (hst : Named st) (h : defineLabel i st inst = .ok (st', inst')) :
    Named st' ∧ st'.scopeId = st.scopeId + (if startsScope inst then 1 else 0) ∧
      DefinedAs st'.scopeId inst inst' := by
  obtain ⟨hplain, rfl, rfl⟩ | ⟨x, hx, hanon, hfew, rfl, rfl⟩ | ⟨x, c, hx, hlocal, -, hc, rfl, rfl⟩ :=
    defineLabel_cases h
  · refine ⟨named_rescoped hst _, rfl, rfl, ?_, ?_⟩
    · intro x hx hlocal
      rw [(hplain x hx).2] at hlocal
      cases hlocal
    · intro hwritten
      exact opensScope_of_unprefixed hwritten fun x hx => (hplain x hx).1
  · refine ⟨⟨hst.aliases, ?_, ?_⟩, ?_, rfl, ?_, ?_⟩
    · rw [List.map_append, hst.anonymous, List.length_append, List.length_singleton,
        List.range_succ, List.map_append]
      rfl
    · rw [List.length_append]
      exact hfew
    · rw [startsScope_anonymous hx hanon]
      rfl
    · intro y hy hlocal
      rw [hx] at hy
      cases hy
      rw [isAnonymousLabelDefinition, beq_iff_eq] at hanon
      rw [hanon] at hlocal
      exact absurd hlocal (by decide)
    · intro _
      rw [startsScope_anonymous hx hanon]
      exact opensScope_of_isPrefixOf rfl (.inr (isPrefixOf_anonymousLabel hfew))
  · refine ⟨⟨?_, hst.anonymous, hst.few⟩, ?_, rfl, ?_, ?_⟩
    · intro a ha
      cases List.mem_append.mp ha with
      | inl ha => exact hst.aliases a ha
      | inr ha =>
          cases List.mem_singleton.mp ha
          exact ⟨hlocal, hc⟩
    · rw [startsScope_local hx hlocal]
      rfl
    · intro y hy _
      rw [hx] at hy
      cases hy
      exact ⟨c, rfl, hc⟩
    · intro _
      rw [startsScope_local hx hlocal]
      apply opensScope_of_isPrefixOf rfl
      left
      rw [hc]
      exact isPrefixOf_scopedLocalBytes _ _

/-- A name and what it becomes in a scope, when it is local. -/
def ScopedAs (n : Nat) (x c : Label) : Prop :=
  isLocalLabelName x → c.bytes = scopedLocalBytes n x

theorem normalizeLabelReference_scoped {i line : Nat} {st st' : CanonState} {x c : Label}
    (hst : Named st) (h : normalizeLabelReference i line st x = .ok (st', c)) :
    Named st' ∧ st'.scopeId = st.scopeId ∧ ScopedAs st.scopeId x c := by
  rw [normalizeLabelReference] at h
  cases hlocal : isLocalLabelName x with
  | true =>
      rw [hlocal, if_pos rfl] at h
      obtain ⟨hst', hscope, hc⟩ := getOrCreateLocalAlias_named hst hlocal h
      exact ⟨hst', hscope, fun _ => hc⟩
  | false =>
      have hkeep : st' = st := by
        rw [hlocal, if_neg Bool.false_ne_true] at h
        split at h
        · split at h
          · cases h
            rfl
          · cases h
        split at h
        · split at h
          · cases h
            rfl
          · cases h
        · cases h
          rfl
      subst hkeep
      refine ⟨hst, rfl, fun hx => ?_⟩
      rw [hlocal] at hx
      cases hx

theorem normalizeOperand_scoped {i line : Nat} {st st' : CanonState} {op op' : Operand}
    (hst : Named st) (h : normalizeOperand i line st op = .ok (st', op')) :
    Named st' ∧ st'.scopeId = st.scopeId ∧
      List.Forall₂ (ScopedAs st.scopeId) op.references op'.references := by
  cases op with
  | label name =>
      obtain ⟨⟨st₁, c⟩, hname, h⟩ := exceptBind_eq_ok.mp h
      cases h
      obtain ⟨hst', hscope, hc⟩ := normalizeLabelReference_scoped hst hname
      exact ⟨hst', hscope, .cons hc .nil⟩
  | labelDiff lhs rhs =>
      obtain ⟨⟨st₁, c⟩, hlhs, h⟩ := exceptBind_eq_ok.mp h
      obtain ⟨⟨st₂, d⟩, hrhs, h⟩ := exceptBind_eq_ok.mp h
      cases h
      obtain ⟨hst₁, hscope₁, hc⟩ := normalizeLabelReference_scoped hst hlhs
      obtain ⟨hst₂, hscope₂, hd⟩ := normalizeLabelReference_scoped hst₁ hrhs
      rw [hscope₁] at hd
      exact ⟨hst₂, hscope₂.trans hscope₁, .cons hc (.cons hd .nil)⟩
  | mem m =>
      obtain ⟨⟨st₁, c⟩, hname, h⟩ := exceptBind_eq_ok.mp h
      cases h
      obtain ⟨hst', hscope, hc⟩ := normalizeLabelReference_scoped hst hname
      exact ⟨hst', hscope, .cons hc .nil⟩
  | none =>
      cases h
      exact ⟨hst, rfl, .nil⟩
  | reg r size =>
      cases h
      exact ⟨hst, rfl, .nil⟩
  | imm value =>
      cases h
      exact ⟨hst, rfl, .nil⟩
  | string text =>
      cases h
      exact ⟨hst, rfl, .nil⟩

theorem rewriteOperands_scoped {i line : Nat} {st st' : CanonState} {ops ops' : List Operand}
    (hst : Named st) (h : rewriteEach (normalizeOperand i line) st ops = .ok (st', ops')) :
    Named st' ∧ st'.scopeId = st.scopeId ∧
      List.Forall₂ (ScopedAs st.scopeId) (ops.flatMap Operand.references)
        (ops'.flatMap Operand.references) := by
  induction ops generalizing st ops' with
  | nil =>
      cases h
      exact ⟨hst, rfl, .nil⟩
  | cons op ops ih =>
      obtain ⟨st₁, op', rest, hone, hrest, rfl⟩ := rewriteEach_cons h
      obtain ⟨hst₁, hscope₁, hop⟩ := normalizeOperand_scoped hst hone
      obtain ⟨hst₂, hscope₂, hops⟩ := ih hst₁ hrest
      rw [hscope₁] at hops
      exact ⟨hst₂, hscope₂.trans hscope₁, List.rel_append hop hops⟩

/-- The second pass leaves the label and scopes the local references. -/
structure ReferredAs (n : Nat) (inst inst' : ParsedInstruction) : Prop where
  label : inst'.label = inst.label
  references : List.Forall₂ (ScopedAs n) inst.references inst'.references

theorem normalizeOperands_step (i : Nat) (st : CanonState) (inst : ParsedInstruction)
    (st' : CanonState) (inst' : ParsedInstruction) (hst : Named st)
    (h : normalizeOperands i st inst = .ok (st', inst')) :
    Named st' ∧ st'.scopeId = st.scopeId + (if opensScope inst then 1 else 0) ∧
      ReferredAs st'.scopeId inst inst' := by
  rw [normalizeOperands] at h
  obtain ⟨⟨st₁, ops⟩, hops, h⟩ := exceptBind_eq_ok.mp h
  cases h
  cases hopens : opensScope inst with
  | true =>
      rw [hopens, if_pos rfl] at hops
      obtain ⟨hst', hscope, hrefs⟩ := rewriteOperands_scoped
        (named_rescoped hst (st.scopeId + 1)) hops
      refine ⟨hst', hscope, rfl, ?_⟩
      rw [hscope]
      exact hrefs
  | false =>
      rw [hopens, if_neg Bool.false_ne_true] at hops
      obtain ⟨hst', hscope, hrefs⟩ := rewriteOperands_scoped hst hops
      refine ⟨hst', hscope, rfl, ?_⟩
      rw [hscope]
      exact hrefs

theorem named_empty : Named {} where
  aliases := List.forall_mem_nil _
  anonymous := rfl
  few := Nat.zero_le _

/-- What canonicalisation does at each instruction: a local label and the local references
get the names of the scope the instruction lies in. -/
structure CanonicalAs (insts : List ParsedInstruction) (k : Nat)
    (inst out : ParsedInstruction) : Prop where
  scopedLabel : ∀ x, inst.label = some x → isLocalLabelName x →
    ∃ c, out.label = some c ∧ c.bytes = scopedLocalBytes (scopeNumber insts k) x
  references : List.Forall₂ (ScopedAs (scopeNumber insts k)) inst.references out.references

section Passes

variable {insts renamed canon : List ParsedInstruction} {st st' : CanonState}

theorem opensScope_counts (hwritten : ∀ inst ∈ insts, Unprefixed inst)
    (h : rewriteIndexed defineLabel 0 {} insts = .ok (st, renamed)) (n : Nat) :
    (renamed.take n).countP opensScope = (insts.take n).countP startsScope := by
  obtain ⟨-, -, hlen, hall⟩ := rewriteIndexed_scopes defineLabel_step named_empty h
  have hmap : renamed.map opensScope = insts.map startsScope := by
    apply List.ext_getElem?
    intro k
    rw [List.getElem?_map, List.getElem?_map]
    cases hk : insts[k]? with
    | none =>
        rw [List.getElem?_eq_none_iff, ← hlen, ← List.getElem?_eq_none_iff] at hk
        rw [hk]
        rfl
    | some inst =>
        obtain ⟨inst', hinst', hdefined⟩ := hall k inst hk
        rw [hinst', Option.map_some, Option.map_some,
          hdefined.opens (hwritten inst (List.mem_of_getElem? hk))]
  have htake := congrArg (fun l => (l.take n).countP id) hmap
  simp only [← List.map_take, List.countP_map, Function.id_comp] at htake
  exact htake

theorem canonical_scoped (hwritten : ∀ inst ∈ insts, Unprefixed inst)
    (hdefine : rewriteIndexed defineLabel 0 {} insts = .ok (st, renamed))
    (hrefer : rewriteIndexed normalizeOperands 0 { st with scopeId := 0 } renamed =
      .ok (st', canon)) {k : Nat} {inst : ParsedInstruction} (hk : insts[k]? = some inst) :
    ∃ out, canon[k]? = some out ∧ CanonicalAs insts k inst out := by
  obtain ⟨hst, -, -, hdefs⟩ := rewriteIndexed_scopes defineLabel_step named_empty hdefine
  obtain ⟨-, -, -, hrefs⟩ := rewriteIndexed_scopes (I := Named) normalizeOperands_step
    (named_rescoped hst 0) hrefer
  obtain ⟨inst', hinst', hdefined⟩ := hdefs k inst hk
  obtain ⟨out, hout, hreferred⟩ := hrefs k inst' hinst'
  rw [Nat.zero_add] at hdefined
  rw [Nat.zero_add, opensScope_counts hwritten hdefine] at hreferred
  refine ⟨out, hout, ?_, ?_⟩
  · intro x hx hlocal
    rw [hreferred.label]
    exact hdefined.scopedLabel x hx hlocal
  · have hsame : inst'.references = inst.references := by
      rw [ParsedInstruction.references, hdefined.operands]
      rfl
    rw [← hsame]
    exact hreferred.references

end Passes

def isScopedDefinition (inst : ParsedInstruction) : Bool :=
  inst.label.any fun x => isAnonymousLabelDefinition x || isLocalLabelName x

/-- The canonical names of the local and anonymous definitions, in order. -/
def canonicalDefinitions (insts canon : List ParsedInstruction) : List Label :=
  (insts.zip (canon.map ParsedInstruction.label)).filterMap fun p =>
    if isScopedDefinition p.1 then p.2 else none

def usedNames (st : CanonState) : List Label :=
  st.aliases.map LocalAlias.scopedName ++ st.anonDefs.map AnonymousDef.scopedName

theorem mem_usedNames {st : CanonState} (hst : Named st) {c : Label} :
    c ∈ usedNames st ↔ (∃ a ∈ st.aliases, a.scopedName = c) ∨
      ∃ k < st.anonDefs.length, anonymousLabel k = c := by
  rw [usedNames, List.mem_append, hst.anonymous, List.mem_map, List.mem_map]
  simp only [List.mem_range]

theorem scopedLocal_unused {st : CanonState} (hst : Named st) {x c : Label}
    (hlocal : isLocalLabelName x) (hlookup : lookupLocalAlias st x = none)
    (hc : c.bytes = scopedLocalBytes st.scopeId x) : c ∉ usedNames st := by
  rw [mem_usedNames hst]
  rintro (⟨a, ha, rfl⟩ | ⟨k, hk, rfl⟩)
  · obtain ⟨halocal, habytes⟩ := hst.aliases a ha
    rw [habytes] at hc
    obtain ⟨hscope, hname⟩ := scopedLocalBytes_inj halocal hlocal hc
    rw [lookupLocalAlias, Option.map_eq_none_iff, List.find?_eq_none] at hlookup
    apply hlookup a ha
    rw [hscope, hname, beq_self_eq_true, beq_self_eq_true, Bool.and_self]
  · exact scopedLocalBytes_ne_anonymous (Nat.lt_of_lt_of_le hk hst.few) hc.symm

theorem anonymousLabel_unused {st : CanonState} (hst : Named st)
    (hfew : st.anonDefs.length < maxSymbols) :
    anonymousLabel st.anonDefs.length ∉ usedNames st := by
  rw [mem_usedNames hst]
  rintro (⟨a, ha, heq⟩ | ⟨k, hk, heq⟩)
  · have hbytes := (hst.aliases a ha).2
    rw [heq] at hbytes
    exact scopedLocalBytes_ne_anonymous hfew hbytes.symm
  · exact Nat.ne_of_lt hk (anonymousLabel_inj (Nat.lt_trans hk hfew) hfew heq)

theorem definedNames_step {i : Nat} {st st' : CanonState} {inst inst' : ParsedInstruction}
    (hst : Named st) (h : defineLabel i st inst = .ok (st', inst')) :
    (∀ c ∈ usedNames st, c ∈ usedNames st') ∧ (isScopedDefinition inst = true →
      ∃ c, inst'.label = some c ∧ c ∉ usedNames st ∧ c ∈ usedNames st') := by
  obtain ⟨hplain, rfl, rfl⟩ | ⟨x, hx, -, hfew, rfl, rfl⟩ | ⟨x, c, hx, hlocal, hlookup, hc, rfl, rfl⟩ :=
    defineLabel_cases h
  · refine ⟨fun c hc => hc, fun hscoped => ?_⟩
    rw [isScopedDefinition] at hscoped
    cases hx : inst'.label with
    | none =>
        rw [hx] at hscoped
        cases hscoped
    | some x =>
        rw [hx, Option.any_some, (hplain x hx).1, (hplain x hx).2] at hscoped
        cases hscoped
  · refine ⟨fun c hc => ?_, fun _ => ⟨_, rfl, anonymousLabel_unused hst hfew, ?_⟩⟩
    · rw [usedNames, List.map_append, ← List.append_assoc]
      exact List.mem_append_left _ hc
    · rw [usedNames, List.map_append]
      exact List.mem_append_right _ (List.mem_append_right _ (List.mem_singleton_self _))
  · refine ⟨fun d hd => ?_, fun _ => ⟨c, rfl, scopedLocal_unused hst hlocal hlookup hc, ?_⟩⟩
    · rw [usedNames, List.map_append]
      cases List.mem_append.mp hd with
      | inl hd => exact List.mem_append_left _ (List.mem_append_left _ hd)
      | inr hd => exact List.mem_append_right _ hd
    · rw [usedNames, List.map_append]
      exact List.mem_append_left _ (List.mem_append_right _ (List.mem_singleton_self _))

theorem canonicalDefinitions_cons (inst inst' : ParsedInstruction)
    (insts canon : List ParsedInstruction) :
    canonicalDefinitions (inst :: insts) (inst' :: canon) =
      (if isScopedDefinition inst then inst'.label else none).toList ++
        canonicalDefinitions insts canon := by
  rw [canonicalDefinitions, List.map_cons, List.zip_cons_cons, List.filterMap_cons]
  cases (if isScopedDefinition inst then inst'.label else none) with
  | none => rfl
  | some c => rfl

theorem definedNames_nodup {i : Nat} {st st' : CanonState} {insts renamed : List ParsedInstruction}
    (hst : Named st) (h : rewriteIndexed defineLabel i st insts = .ok (st', renamed)) :
    (canonicalDefinitions insts renamed).Nodup ∧
      ∀ c ∈ canonicalDefinitions insts renamed, c ∉ usedNames st := by
  induction insts generalizing i st renamed with
  | nil => exact ⟨List.nodup_nil, List.forall_mem_nil _⟩
  | cons inst insts ih =>
      obtain ⟨st₁, inst', rest, hone, hrest, rfl⟩ := rewriteIndexed_cons h
      obtain ⟨hgrows, hnew⟩ := definedNames_step hst hone
      obtain ⟨hnodup, hunused⟩ := ih (defineLabel_step i st inst st₁ inst' hst hone).1 hrest
      have hrestUnused : ∀ c ∈ canonicalDefinitions insts rest, c ∉ usedNames st :=
        fun c hc hused => hunused c hc (hgrows c hused)
      rw [canonicalDefinitions_cons]
      cases hscoped : isScopedDefinition inst with
      | false => exact ⟨hnodup, hrestUnused⟩
      | true =>
          obtain ⟨c, hlabel, hc, hc₁⟩ := hnew hscoped
          rw [if_pos rfl, hlabel]
          refine ⟨List.nodup_cons.mpr ⟨fun hmem => hunused c hmem hc₁, hnodup⟩, ?_⟩
          intro d hd
          cases List.mem_cons.mp hd with
          | inl hd => rwa [hd]
          | inr hd => exact hrestUnused d hd

/-- The scope number in force at an instruction when the first pass has handled its label. -/
def definitionScope (insts : List ParsedInstruction) (i : Nat) : Option Nat :=
  match rewriteIndexed defineLabel 0 {} (insts.take (i + 1)) with
  | .ok (st, _) => some st.scopeId
  | .error _ => none

/-- The scope number the second pass uses for the operands of an instruction. -/
def referenceScope (insts : List ParsedInstruction) (i : Nat) : Option Nat :=
  match rewriteIndexed defineLabel 0 {} insts with
  | .error _ => none
  | .ok (st, renamed) =>
      match rewriteIndexed normalizeOperands 0 { st with scopeId := 0 } (renamed.take (i + 1)) with
      | .ok (st', _) => some st'.scopeId
      | .error _ => none

/-- A written local name and its canonical name, at an instruction. -/
inductive LocalOccurrence (insts canon : List ParsedInstruction) : Nat → Label → Label → Prop
  | definition {i : Nat} {inst out : ParsedInstruction} {x c : Label} : insts[i]? = some inst →
      canon[i]? = some out → inst.label = some x → isLocalLabelName x → out.label = some c →
      LocalOccurrence insts canon i x c
  | reference {i p : Nat} {inst out : ParsedInstruction} {x c : Label} : insts[i]? = some inst →
      canon[i]? = some out → inst.references[p]? = some x → isLocalLabelName x →
      out.references[p]? = some c → LocalOccurrence insts canon i x c

structure LocalScoping (insts canon : List ParsedInstruction) : Prop where
  renamed : ∀ i inst x, insts[i]? = some inst → isLocalLabelName x →
    inst.label = some x ∨ x ∈ inst.references → ∃ c, LocalOccurrence insts canon i x c
  sameName : ∀ i j x y c d, LocalOccurrence insts canon i x c → LocalOccurrence insts canon j y d →
    (c = d ↔ x = y ∧ SameScope insts i j)
  definitionsDistinct : (canonicalDefinitions insts canon).Nodup
  definedOnce : ∀ i j inst other x, insts[i]? = some inst → insts[j]? = some other →
    inst.label = some x → other.label = some x → isLocalLabelName x → SameScope insts i j → i = j
  scopesAgree : ∀ i < insts.length, ∃ n, definitionScope insts i = some n ∧
    referenceScope insts i = some n

section Scoping

variable {insts renamed canon : List ParsedInstruction} {st st' : CanonState}

theorem LocalOccurrence.named
    (hcanon : ∀ k inst, insts[k]? = some inst →
      ∃ out, canon[k]? = some out ∧ CanonicalAs insts k inst out)
    {i : Nat} {x c : Label} (h : LocalOccurrence insts canon i x c) :
    isLocalLabelName x ∧ c.bytes = scopedLocalBytes (scopeNumber insts i) x := by
  cases h with
  | definition hi hout hx hlocal hc =>
      obtain ⟨out, hout', has⟩ := hcanon _ _ hi
      rw [hout] at hout'
      cases hout'
      obtain ⟨d, hd, hbytes⟩ := has.scopedLabel x hx hlocal
      rw [hc] at hd
      cases hd
      exact ⟨hlocal, hbytes⟩
  | reference hi hout hx hlocal hc =>
      obtain ⟨out, hout', has⟩ := hcanon _ _ hi
      rw [hout] at hout'
      cases hout'
      obtain ⟨hp, rfl⟩ := List.getElem?_eq_some_iff.mp hx
      obtain ⟨hp', rfl⟩ := List.getElem?_eq_some_iff.mp hc
      exact ⟨hlocal, has.references.get hp hp' hlocal⟩

theorem definition_index_eq (hnodup : (canonicalDefinitions insts canon).Nodup) {i j : Nat}
    {inst other out out' : ParsedInstruction} {c : Label} (hi : insts[i]? = some inst)
    (hj : insts[j]? = some other) (hout : canon[i]? = some out) (hout' : canon[j]? = some out')
    (hscoped : isScopedDefinition inst) (hscoped' : isScopedDefinition other)
    (hc : out.label = some c) (hc' : out'.label = some c) : i = j := by
  have hpair := List.pairwise_iff_getElem.mp (List.pairwise_filterMap.mp hnodup)
  have hat : ∀ {k : Nat} {a b : ParsedInstruction}, insts[k]? = some a → canon[k]? = some b →
      b.label = some c → (insts.zip (canon.map ParsedInstruction.label))[k]? = some (a, some c) := by
    intro k a b ha hb hlabel
    apply List.getElem?_zip_eq_some.mpr
    refine ⟨ha, ?_⟩
    rw [List.getElem?_map, hb, Option.map_some, hlabel]
  obtain ⟨hli, heqi⟩ := List.getElem?_eq_some_iff.mp (hat hi hout hc)
  obtain ⟨hlj, heqj⟩ := List.getElem?_eq_some_iff.mp (hat hj hout' hc')
  obtain hlt | heq | hgt := Nat.lt_trichotomy i j
  · apply absurd rfl (hpair i j hli hlj hlt c ?_ c ?_)
    · rw [heqi, if_pos hscoped]
    · rw [heqj, if_pos hscoped']
  · exact heq
  · apply absurd rfl (hpair j i hlj hli hgt c ?_ c ?_)
    · rw [heqj, if_pos hscoped']
    · rw [heqi, if_pos hscoped]

theorem canonicalDefinitions_congr (h : canon.map ParsedInstruction.label =
    renamed.map ParsedInstruction.label) :
    canonicalDefinitions insts canon = canonicalDefinitions insts renamed := by
  rw [canonicalDefinitions, canonicalDefinitions, h]

theorem normalized_labels (hst : Named st)
    (h : rewriteIndexed normalizeOperands 0 st renamed = .ok (st', canon)) :
    canon.map ParsedInstruction.label = renamed.map ParsedInstruction.label := by
  obtain ⟨-, -, hlen, hall⟩ := rewriteIndexed_scopes normalizeOperands_step hst h
  apply List.ext_getElem?
  intro k
  rw [List.getElem?_map, List.getElem?_map]
  cases hk : renamed[k]? with
  | none =>
      rw [List.getElem?_eq_none_iff, ← hlen, ← List.getElem?_eq_none_iff] at hk
      rw [hk]
  | some inst =>
      obtain ⟨out, hout, hreferred⟩ := hall k inst hk
      rw [hout, Option.map_some, Option.map_some, hreferred.label]

theorem definitionScope_eq (h : rewriteIndexed defineLabel 0 {} insts = .ok (st, renamed)) (i : Nat) :
    definitionScope insts i = some (scopeNumber insts i) := by
  obtain ⟨st₁, htake⟩ := rewriteIndexed_take (i + 1) h
  obtain ⟨-, hcount, -⟩ := rewriteIndexed_scopes defineLabel_step named_empty htake
  rw [definitionScope, htake]
  simp only [hcount, Nat.zero_add]
  rfl

theorem referenceScope_eq (hwritten : ∀ inst ∈ insts, Unprefixed inst)
    (hdefine : rewriteIndexed defineLabel 0 {} insts = .ok (st, renamed)) (hst : Named st)
    (hrefer : rewriteIndexed normalizeOperands 0 { st with scopeId := 0 } renamed =
      .ok (st', canon)) (i : Nat) : referenceScope insts i = some (scopeNumber insts i) := by
  obtain ⟨st₁, htake⟩ := rewriteIndexed_take (i + 1) hrefer
  obtain ⟨-, hcount, -⟩ := rewriteIndexed_scopes (I := Named) normalizeOperands_step
    (named_rescoped hst 0) htake
  rw [referenceScope, hdefine]
  simp only [htake, hcount, Nat.zero_add, opensScope_counts hwritten hdefine]
  rfl

theorem localOccurrence_exists
    (hcanon : ∀ k inst, insts[k]? = some inst →
      ∃ out, canon[k]? = some out ∧ CanonicalAs insts k inst out)
    {i : Nat} {inst : ParsedInstruction} {x : Label} (hi : insts[i]? = some inst)
    (hlocal : isLocalLabelName x) (h : inst.label = some x ∨ x ∈ inst.references) :
    ∃ c, LocalOccurrence insts canon i x c := by
  obtain ⟨out, hout, has⟩ := hcanon i inst hi
  cases h with
  | inl hx =>
      obtain ⟨c, hc, -⟩ := has.scopedLabel x hx hlocal
      exact ⟨c, .definition hi hout hx hlocal hc⟩
  | inr hx =>
      obtain ⟨p, hp⟩ := List.mem_iff_getElem?.mp hx
      obtain ⟨hlt, -⟩ := List.getElem?_eq_some_iff.mp hp
      rw [has.references.length_eq] at hlt
      exact ⟨out.references[p], .reference hi hout hp hlocal (List.getElem?_eq_getElem hlt)⟩

theorem localOccurrence_eq_iff
    (hcanon : ∀ k inst, insts[k]? = some inst →
      ∃ out, canon[k]? = some out ∧ CanonicalAs insts k inst out)
    {i j : Nat} {x y c d : Label} (hx : LocalOccurrence insts canon i x c)
    (hy : LocalOccurrence insts canon j y d) : c = d ↔ x = y ∧ SameScope insts i j := by
  obtain ⟨hlocal, hc⟩ := hx.named hcanon
  obtain ⟨hlocal', hd⟩ := hy.named hcanon
  rw [← scopeNumber_eq_iff]
  constructor
  · rintro rfl
    rw [hc] at hd
    exact (scopedLocalBytes_inj hlocal hlocal' hd).symm
  · rintro ⟨rfl, hscope⟩
    apply CString.CStr.ext
    rw [hc, hd, hscope]

end Scoping

/-- Local and anonymous labels are scoped: two occurrences of local names agree after
canonicalisation exactly when they agree before it and lie in one scope. -/
theorem localLabels_scoped {insts canon : List ParsedInstruction}
    (hwritten : ∀ inst ∈ insts, Unprefixed inst)
    (h : canonicalizeSymbolLabels insts = .ok canon) : LocalScoping insts canon := by
  rw [canonicalizeSymbolLabels] at h
  obtain ⟨⟨st, renamed⟩, hdefine, h⟩ := exceptBind_eq_ok.mp h
  obtain ⟨⟨st', canon'⟩, hrefer, h⟩ := exceptBind_eq_ok.mp h
  obtain rfl : canon' = canon := Except.ok.inj h
  obtain ⟨hst, -⟩ := rewriteIndexed_scopes defineLabel_step named_empty hdefine
  have hcanon : ∀ k inst, insts[k]? = some inst →
      ∃ out, canon'[k]? = some out ∧ CanonicalAs insts k inst out :=
    fun k inst hk => canonical_scoped hwritten hdefine hrefer hk
  have hnodup : (canonicalDefinitions insts canon').Nodup := by
    rw [canonicalDefinitions_congr (normalized_labels (named_rescoped hst 0) hrefer)]
    exact (definedNames_nodup named_empty hdefine).1
  refine ⟨?_, ?_, hnodup, ?_, ?_⟩
  · intro i inst x hi hlocal hx
    exact localOccurrence_exists hcanon hi hlocal hx
  · intro i j x y c d hx hy
    exact localOccurrence_eq_iff hcanon hx hy
  · intro i j inst other x hi hj hx hx' hlocal hscope
    obtain ⟨out, hout, has⟩ := hcanon i inst hi
    obtain ⟨out', hout', has'⟩ := hcanon j other hj
    obtain ⟨c, hc, hbytes⟩ := has.scopedLabel x hx hlocal
    obtain ⟨d, hd, hbytes'⟩ := has'.scopedLabel x hx' hlocal
    have hcd : c = d := by
      apply CString.CStr.ext
      rw [hbytes, hbytes', scopeNumber_eq_iff.mpr hscope]
    subst hcd
    apply definition_index_eq hnodup hi hj hout hout' _ _ hc hd
    · rw [isScopedDefinition, hx, Option.any_some, hlocal, Bool.or_true]
    · rw [isScopedDefinition, hx', Option.any_some, hlocal, Bool.or_true]
  · intro i _
    exact ⟨_, definitionScope_eq hdefine i, referenceScope_eq hwritten hdefine hst hrefer i⟩

/-- `.a: @@: f: jmp .a; .a: jmp @F; c equ 1; @@:`. -/
def scopedProgram : List ParsedInstruction :=
  [{ type := .nop, label := some (CString.lit _ ".a") },
    { type := .nop, label := some (CString.lit _ "@@") },
    { type := .nop, label := some (CString.lit _ "f") },
    { type := .jmp, operands := [.label (CString.lit _ ".a")] },
    { type := .nop, label := some (CString.lit _ ".a") },
    { type := .jmp, operands := [.label (CString.lit _ "@F")] },
    { type := .equ, label := some (CString.lit _ "c"), operands := [.imm 1] },
    { type := .nop, label := some (CString.lit _ "@@") }]

theorem localLabels_scoped_program :
    ∃ canon, canonicalizeSymbolLabels scopedProgram = .ok canon ∧
      LocalScoping scopedProgram canon := by
  have hok : (canonicalizeSymbolLabels scopedProgram).isOk = true := by decide +kernel
  cases hcanon : canonicalizeSymbolLabels scopedProgram with
  | error e =>
      rw [hcanon] at hok
      cases hok
  | ok canon =>
      refine ⟨canon, rfl, localLabels_scoped ?_ hcanon⟩
      intro inst hinst label hlabel
      rw [← List.isPrefixOf_iff_prefix, ← List.isPrefixOf_iff_prefix]
      have hall : ∀ inst ∈ scopedProgram, ∀ label ∈ inst.label,
          ¬ (CString.str "__loc_").isPrefixOf label.bytes = true ∧
            ¬ (CString.str "__anon_").isPrefixOf label.bytes = true := by
        decide +kernel
      exact hall inst hinst label hlabel

end X86Assembler
