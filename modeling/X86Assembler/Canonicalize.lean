import X86Assembler.Types

namespace X86Assembler

open CString (Byte)

/-- `canonicalize_symbol_labels` prints some of its diagnostics and stores the others in
`last_error`. -/
inductive CanonError
  | printed (d : Diagnostic)
  | recorded (d : Diagnostic)

structure LocalAlias where
  scopeId : Nat
  localName : Label
  scopedName : Label
deriving DecidableEq

structure AnonymousDef where
  instructionIndex : Nat
  scopedName : Label
deriving DecidableEq

structure CanonState where
  aliases : List LocalAlias := []
  anonDefs : List AnonymousDef := []
  scopeId : Nat := 0
deriving DecidableEq

def isLocalLabelName (name : Label) : Bool :=
  name.bytes.head? == some 0x2E#8 && 1 < name.bytes.length

def isAnonymousLabelDefinition (name : Label) : Bool := name == CString.lit _ "@@"
def isAnonymousForwardRef (name : Label) : Bool :=
  CString.eqIgnoreCase name.bytes (CString.str "@F")
def isAnonymousBackwardRef (name : Label) : Bool :=
  CString.eqIgnoreCase name.bytes (CString.str "@B")

def scopedLocalBytes (scopeId : Nat) (localName : Label) : List Byte :=
  CString.str "__loc_" ++ CString.decimal scopeId ++ CString.str "_" ++ localName.bytes.tail

def buildScopedLocalLabel (scopeId : Nat) (localName : Label) : Option Label :=
  let bytes := scopedLocalBytes scopeId localName
  if bytes.length < maxLabelLength then some (CString.copyBounded _ bytes) else none

def anonymousLabel (counter : Nat) : Label :=
  CString.copyBounded _ (CString.str "__anon_" ++ CString.decimal counter)

def lookupLocalAlias (st : CanonState) (localName : Label) : Option Label :=
  (st.aliases.find? fun a => a.scopeId == st.scopeId && a.localName == localName).map
    LocalAlias.scopedName

def getOrCreateLocalAlias (st : CanonState) (localName : Label) :
    Except CanonError (CanonState × Label) :=
  match lookupLocalAlias st localName with
  | some scopedName => .ok (st, scopedName)
  | none =>
    if maxSymbols ≤ st.aliases.length then
      .error (.printed
        { line := 1, category := "Symbol", message := "Too many local label aliases" })
    else
      match buildScopedLocalLabel st.scopeId localName with
      | none => .error (.printed
          { line := 1, category := "Symbol", message := "Local label name too long: '%s'",
            args := [localName.bytes] })
      | some scopedName =>
        .ok ({ st with aliases := st.aliases ++ [⟨st.scopeId, localName, scopedName⟩] }, scopedName)

def lookupForwardRef (defs : List AnonymousDef) (i : Nat) : Option Label :=
  (defs.find? fun d => i < d.instructionIndex).map AnonymousDef.scopedName

def lookupBackwardRef (defs : List AnonymousDef) (i : Nat) : Option Label :=
  (defs.reverse.find? fun d => d.instructionIndex < i).map AnonymousDef.scopedName

def normalizeLabelReference (i line : Nat) (st : CanonState) (label : Label) :
    Except CanonError (CanonState × Label) :=
  if isLocalLabelName label then getOrCreateLocalAlias st label
  else if isAnonymousForwardRef label then
    match lookupForwardRef st.anonDefs i with
    | some scopedName => .ok (st, scopedName)
    | none => .error (.recorded
        { line, category := "Symbol", message := "@F has no matching forward @@ label" })
  else if isAnonymousBackwardRef label then
    match lookupBackwardRef st.anonDefs i with
    | some scopedName => .ok (st, scopedName)
    | none => .error (.recorded
        { line, category := "Symbol", message := "@B has no matching backward @@ label" })
  else .ok (st, label)

/-- The first pass on one instruction: rewrite its own label. The number of anonymous
definitions so far is the value of `anonymous_counter`. -/
def defineLabel (i : Nat) (st : CanonState) (inst : ParsedInstruction) :
    Except CanonError (CanonState × ParsedInstruction) :=
  match inst.label with
  | none => .ok (st, inst)
  | some label =>
    if isAnonymousLabelDefinition label then
      if maxSymbols ≤ st.anonDefs.length then
        .error (.recorded
          { line := inst.lineNumber, category := "Symbol", message := "Too many anonymous labels" })
      else
        let scopedName := anonymousLabel st.anonDefs.length
        .ok ({ st with anonDefs := st.anonDefs ++ [⟨i, scopedName⟩] },
          { inst with label := some scopedName })
    else if isLocalLabelName label then
      match lookupLocalAlias st label with
      | some _ => .error (.recorded
          { line := inst.lineNumber, category := "Symbol",
            message := "Redefined local label '%s' in the same scope", args := [label.bytes] })
      | none => do
        let (st, scopedName) ← getOrCreateLocalAlias st label
        .ok (st, { inst with label := some scopedName })
    else if inst.type = .equ then .ok (st, inst)
    else .ok ({ st with scopeId := st.scopeId + 1 }, inst)

def normalizeOperand (i line : Nat) (st : CanonState) (op : Operand) :
    Except CanonError (CanonState × Operand) :=
  match op with
  | .label name => do
    let (st, name) ← normalizeLabelReference i line st name
    .ok (st, .label name)
  | .labelDiff lhs rhs => do
    let (st, lhs) ← normalizeLabelReference i line st lhs
    let (st, rhs) ← normalizeLabelReference i line st rhs
    .ok (st, .labelDiff lhs rhs)
  | .mem m => do
    let (st, name) ← normalizeLabelReference i line st m.label
    .ok (st, .mem { m with label := name })
  | op => .ok (st, op)

/-- Thread a state through a list of items that are rewritten one by one. -/
def rewriteEach {σ α : Type} (f : σ → α → Except CanonError (σ × α)) (st : σ) :
    List α → Except CanonError (σ × List α)
  | [] => .ok (st, [])
  | a :: as => do
    let (st, a) ← f st a
    let (st, as) ← rewriteEach f st as
    .ok (st, a :: as)

/-- Whether the second pass opens a new scope at an instruction. -/
def opensScope (inst : ParsedInstruction) : Bool :=
  match inst.label with
  | none => false
  | some label =>
    inst.type != .equ && !isLocalLabelName label &&
      !((CString.str "__loc_").isPrefixOf label.bytes) &&
      !((CString.str "__anon_").isPrefixOf label.bytes)

/-- The second pass on one instruction: rewrite the labels in its operands. -/
def normalizeOperands (i : Nat) (st : CanonState) (inst : ParsedInstruction) :
    Except CanonError (CanonState × ParsedInstruction) := do
  let st := if opensScope inst then { st with scopeId := st.scopeId + 1 } else st
  let (st, operands) ← rewriteEach (normalizeOperand i inst.lineNumber) st inst.operands
  .ok (st, { inst with operands := operands })

def rewriteIndexed (f : Nat → CanonState → ParsedInstruction →
      Except CanonError (CanonState × ParsedInstruction)) :
    Nat → CanonState → List ParsedInstruction → Except CanonError (CanonState × List ParsedInstruction)
  | _, st, [] => .ok (st, [])
  | i, st, inst :: insts => do
    let (st, inst) ← f i st inst
    let (st, insts) ← rewriteIndexed f (i + 1) st insts
    .ok (st, inst :: insts)

def canonicalizeSymbolLabels (insts : List ParsedInstruction) :
    Except CanonError (List ParsedInstruction) := do
  let (st, insts) ← rewriteIndexed defineLabel 0 {} insts
  let (_, insts) ← rewriteIndexed normalizeOperands 0 { st with scopeId := 0 } insts
  .ok insts

end X86Assembler
