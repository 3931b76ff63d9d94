import Mathlib.Algebra.Ring.Int.Defs
import Mathlib.Data.List.Induction
import X86Assembler.Parser

namespace X86Assembler

open CString (Byte str eqIgnoreCase)

/-- A term of a memory operand: a register, which may be scaled, a number or a label. -/
inductive MemTerm
  | reg (reg : Reg) (size : RegSize) (scale : Option Word)
  | num (value : Word)
  | label (name : Text)
deriving DecidableEq

namespace MemTerm

/-- The register of a term and the number of times it counts. -/
def register? : MemTerm → Option (Reg × Nat)
  | .reg r _ scale => some (r, (scale.map BitVec.toNat).getD 1)
  | _ => none

def amount : MemTerm → Int
  | .num v => v.toInt
  | _ => 0

def label? : MemTerm → Option Label
  | .label name => some name.toLabel
  | _ => none

def isNum : MemTerm → Bool
  | .num _ => true
  | _ => false

def isScaled : MemTerm → Bool
  | .reg _ _ scale => scale.isSome
  | _ => false

def isWide : MemTerm → Bool
  | .reg _ size _ => size == .size64
  | _ => true

end MemTerm

abbrev SignedTerm := Bool × MemTerm

namespace SignedTerm

def sign (t : SignedTerm) : Int := if t.1 then -1 else 1

def coefficient (r : Reg) (t : SignedTerm) : Int :=
  match t.2.register? with
  | some x => if x.1 = r then t.sign * x.2 else 0
  | none => 0

def amount (t : SignedTerm) : Int := t.sign * t.2.amount

end SignedTerm

/-- The registers of a sum in order, with the number of times each counts. -/
def registersOf (terms : List SignedTerm) : List (Reg × Nat) :=
  terms.filterMap fun t => t.2.register?

def labelsOf (terms : List SignedTerm) : List Label := terms.filterMap fun t => t.2.label?

theorem registersOf_cons (t : SignedTerm) (terms : List SignedTerm) :
    registersOf (t :: terms) = t.2.register?.toList ++ registersOf terms := by
  rw [registersOf, List.filterMap_cons]
  cases t.2.register? <;> rfl

def coefficient (terms : List SignedTerm) (r : Reg) : Int :=
  (terms.map (SignedTerm.coefficient r)).sum

def amount (terms : List SignedTerm) : Int := (terms.map SignedTerm.amount).sum

structure IsAddress (terms : List SignedTerm) : Prop where
  added : ∀ t ∈ terms, t.1 = true → t.2.isNum = true
  registers : (registersOf terms).length ≤ 2
  scaled : terms.countP (fun t => t.2.isScaled) ≤ 1
  labels : (labelsOf terms).length ≤ 1
  displacement : -2 ^ 31 ≤ amount terms ∧ amount terms < 2 ^ 31
  wide : ∀ t ∈ terms, t.2.isWide = true

/-- The number of times that a register counts in an operand; `rip` stands alone. -/
def MemOperand.coefficient (mem : MemOperand) (r : Reg) : Int :=
  if r = Reg.rip then if mem.isRipRelative then 1 else 0
  else (if mem.base = some r then 1 else 0) + if mem.index = some r then (mem.scale : Int) else 0

structure Denotes (mem : MemOperand) (terms : List SignedTerm) : Prop where
  registers : ∀ r, mem.coefficient r = coefficient terms r
  displacement : mem.displacement.toInt = amount terms
  label : mem.label = (labelsOf terms).getLast?.getD Label.empty

def firstTerm : MemTerm → Option MemOperand
  | .reg r _ scale =>
    if r = Reg.rip then if scale.isSome then none else some { isRipRelative := true }
    else
      match scale with
      | none => some { base := some r }
      | some s =>
        if isValidScaleFactor s then some { index := some r, scale := s.toNat } else none
  | .num v => some { displacement := v.setWidth 32, hasDisplacement := true }
  | .label name =>
    if eqIgnoreCase name.bytes (str "abs") then none else some { label := name.toLabel }

def nextTerm (mem : MemOperand) (t : SignedTerm) : Option MemOperand :=
  match t.2 with
  | .reg r _ none => some { mem with index := some r, scale := 1 }
  | .reg r _ (some s) =>
    if isValidScaleFactor s then some { mem with index := some r, scale := s.toNat } else none
  | .num v =>
    some { mem with
      displacement := mem.displacement + (if t.1 then -v.setWidth 32 else v.setWidth 32)
      hasDisplacement := true }
  | .label name =>
    if t.1 && mem.isRipRelative then none else some { mem with label := name.toLabel }

def ripAlone (mem : MemOperand) : Option MemOperand :=
  if mem.isRipRelative && (mem.base.isSome || mem.index.isSome) then none else some mem

def sumOperand (first : MemTerm) (more : List SignedTerm) : Option MemOperand := do
  let mem ← firstTerm first
  let mem ← more.foldlM nextTerm mem
  ripAlone mem

def RefusedTerm (rip : Bool) (t : SignedTerm) : Prop :=
  match t.2 with
  | .reg _ _ (some s) => isValidScaleFactor s = false
  | .label _ => t.1 = true ∧ rip = true
  | _ => False

theorem nextTerm_eq_none {mem : MemOperand} {t : SignedTerm} :
    nextTerm mem t = none ↔ RefusedTerm mem.isRipRelative t := by
  obtain ⟨negative, term⟩ := t
  cases term with
  | reg r size scale =>
      cases scale with
      | none => simp [nextTerm, RefusedTerm]
      | some s => simp [nextTerm, RefusedTerm]
  | num v => simp [nextTerm, RefusedTerm]
  | label name => simp [nextTerm, RefusedTerm]

theorem nextTerm_rip {mem mem' : MemOperand} {t : SignedTerm} (h : nextTerm mem t = some mem') :
    mem'.isRipRelative = mem.isRipRelative := by
  obtain ⟨negative, term⟩ := t
  rw [nextTerm.eq_def] at h
  split at h
  · cases h
    rfl
  · split at h
    · cases h
      rfl
    · cases h
  · cases h
    rfl
  · split at h
    · cases h
    · cases h
      rfl

theorem foldlM_nextTerm_eq_none {mem : MemOperand} {terms : List SignedTerm} :
    terms.foldlM nextTerm mem = none ↔ ∃ t ∈ terms, RefusedTerm mem.isRipRelative t := by
  induction terms generalizing mem with
  | nil => simp
  | cons t terms ih =>
      have hsplit : (∃ s ∈ t :: terms, RefusedTerm mem.isRipRelative s) ↔
          nextTerm mem t = none ∨ ∃ s ∈ terms, RefusedTerm mem.isRipRelative s := by
        rw [nextTerm_eq_none]
        simp only [List.mem_cons, exists_eq_or_imp]
      rw [List.foldlM_cons, hsplit]
      cases hnext : nextTerm mem t with
      | none => simp
      | some mem' =>
          rw [Option.bind_eq_bind, Option.bind_some, ih, nextTerm_rip hnext]
          simp

structure Extends (mem : MemOperand) (terms : List SignedTerm) (mem' : MemOperand) : Prop where
  base : mem'.base = mem.base
  rip : mem'.isRipRelative = mem.isRipRelative
  index : mem'.index = ((registersOf terms).getLast?.map Prod.fst).or mem.index
  scale : mem'.scale = ((registersOf terms).getLast?.map Prod.snd).getD mem.scale
  displacement : mem'.displacement = mem.displacement + BitVec.ofInt 32 (amount terms)
  label : mem'.label = (labelsOf terms).getLast?.getD mem.label

theorem setWidth_ofInt (v : Word) : v.setWidth 32 = BitVec.ofInt 32 v.toInt :=
  (BitVec.signExtend_eq_setWidth_of_le v (by decide)).symm

theorem Extends.trans {mem mid mem' : MemOperand} {terms more : List SignedTerm}
    (h : Extends mem terms mid) (h' : Extends mid more mem') : Extends mem (terms ++ more) mem' := by
  have hregs : (registersOf (terms ++ more)).getLast? =
      (registersOf more).getLast?.or (registersOf terms).getLast? := by
    rw [registersOf, List.filterMap_append, List.getLast?_append]
    rfl
  have hlabels : (labelsOf (terms ++ more)).getLast? =
      (labelsOf more).getLast?.or (labelsOf terms).getLast? := by
    rw [labelsOf, List.filterMap_append, List.getLast?_append]
    rfl
  have hamount : amount (terms ++ more) = amount terms + amount more := by
    rw [amount, List.map_append, List.sum_append]
    rfl
  refine ⟨h'.base.trans h.base, h'.rip.trans h.rip, ?_, ?_, ?_, ?_⟩
  · rw [h'.index, h.index, hregs]
    cases (registersOf more).getLast? <;> rfl
  · rw [h'.scale, h.scale, hregs]
    cases (registersOf more).getLast? <;> rfl
  · rw [h'.displacement, h.displacement, hamount, BitVec.ofInt_add, BitVec.add_assoc]
  · rw [h'.label, h.label, hlabels]
    cases (labelsOf more).getLast? <;> rfl

theorem extends_nextTerm {mem mem' : MemOperand} {t : SignedTerm} (h : nextTerm mem t = some mem') :
    Extends mem [t] mem' := by
  obtain ⟨negative, term⟩ := t
  have hzero : ∀ term : MemTerm, term.amount = 0 → mem.displacement =
      mem.displacement + BitVec.ofInt 32 (amount [(negative, term)]) := by
    intro term hterm
    simp [amount, SignedTerm.amount, hterm]
  cases term with
  | reg r size scale =>
      cases scale with
      | none =>
          cases h
          exact ⟨rfl, rfl, rfl, rfl, hzero _ rfl, rfl⟩
      | some s =>
          change (if isValidScaleFactor s then _ else none) = _ at h
          split at h
          · cases h
            exact ⟨rfl, rfl, rfl, rfl, hzero _ rfl, rfl⟩
          · cases h
  | num v =>
      cases h
      refine ⟨rfl, rfl, rfl, rfl, ?_, rfl⟩
      change mem.displacement + (if negative then -v.setWidth 32 else v.setWidth 32) = _
      rw [setWidth_ofInt, amount, List.map_singleton, List.sum_singleton]
      cases negative with
      | false =>
          change _ = mem.displacement + BitVec.ofInt 32 (1 * v.toInt)
          rw [Int.one_mul]
          rfl
      | true =>
          change _ = mem.displacement + BitVec.ofInt 32 (-1 * v.toInt)
          rw [Int.neg_one_mul, BitVec.ofInt_neg]
          rfl
  | label name =>
      change (if negative && mem.isRipRelative then none else _) = _ at h
      split at h
      · cases h
      · cases h
        exact ⟨rfl, rfl, rfl, rfl, hzero _ rfl, rfl⟩

theorem extends_foldlM {mem mem' : MemOperand} {terms : List SignedTerm}
    (h : terms.foldlM nextTerm mem = some mem') : Extends mem terms mem' := by
  induction terms generalizing mem with
  | nil =>
      cases h
      exact ⟨rfl, rfl, rfl, rfl, (BitVec.add_zero _).symm, rfl⟩
  | cons t terms ih =>
      rw [List.foldlM_cons] at h
      obtain ⟨mid, hmid, h⟩ := Option.bind_eq_some_iff.mp h
      exact (extends_nextTerm hmid).trans (ih h)

def MemTerm.isRip : MemTerm → Bool
  | .reg r _ _ => r == Reg.rip
  | _ => false

def RefusedFirst : MemTerm → Prop
  | .reg r _ (some s) => r = Reg.rip ∨ isValidScaleFactor s = false
  | .label name => eqIgnoreCase name.bytes (str "abs") = true
  | _ => False

/-- A sum that is refused: for a scale that is none of the four, for a scaled `rip` or the word
`abs` in front, and with `rip` in front for another register or a label that is subtracted. -/
def RefusedSum (first : MemTerm) (more : List SignedTerm) : Prop :=
  RefusedFirst first ∨ (∃ t ∈ more, RefusedTerm first.isRip t) ∨
    first.isRip = true ∧ registersOf more ≠ []

/-- A sum whose registers have a place of their own each: after the first term there is at most
one, which is not `rip`, and none when the first term is scaled. -/
structure InPlace (first : MemTerm) (more : List SignedTerm) : Prop where
  one : (registersOf more).length ≤ 1
  unscaled : first.isScaled = true → registersOf more = []
  notRip : ∀ x ∈ registersOf more, x.1 ≠ Reg.rip

theorem firstTerm_eq_none {first : MemTerm} : firstTerm first = none ↔ RefusedFirst first := by
  cases first with
  | reg r size scale =>
      cases scale with
      | none => by_cases hr : r = Reg.rip <;> simp [firstTerm, RefusedFirst, hr]
      | some s => by_cases hr : r = Reg.rip <;> simp [firstTerm, RefusedFirst, hr]
  | num v => simp [firstTerm, RefusedFirst]
  | label name => simp [firstTerm, RefusedFirst]

theorem firstTerm_cases {first : MemTerm} {mem : MemOperand} (h : firstTerm first = some mem) :
    (∃ size, first = .reg Reg.rip size none ∧ mem = { isRipRelative := true }) ∨
      (∃ r size, r ≠ Reg.rip ∧ first = .reg r size none ∧ mem = { base := some r }) ∨
      (∃ r size s, r ≠ Reg.rip ∧ isValidScaleFactor s = true ∧ first = .reg r size (some s) ∧
        mem = { index := some r, scale := s.toNat }) ∨
      (∃ v, first = .num v ∧ mem = { displacement := v.setWidth 32, hasDisplacement := true }) ∨
      ∃ name, first = .label name ∧ mem = { label := name.toLabel } := by
  cases first with
  | reg r size scale =>
      change (if r = Reg.rip then _ else _) = _ at h
      split at h
      · next hr =>
          subst hr
          cases scale with
          | none =>
              cases h
              exact .inl ⟨size, rfl, rfl⟩
          | some s => cases h
      · next hr =>
          cases scale with
          | none =>
              cases h
              exact .inr (.inl ⟨r, size, hr, rfl, rfl⟩)
          | some s =>
              change (if isValidScaleFactor s then _ else none) = _ at h
              split at h
              · next hs =>
                  cases h
                  exact .inr (.inr (.inl ⟨r, size, s, hr, hs, rfl, rfl⟩))
              · cases h
  | num v =>
      cases h
      exact .inr (.inr (.inr (.inl ⟨v, rfl, rfl⟩)))
  | label name =>
      change (if eqIgnoreCase name.bytes (str "abs") then none else _) = _ at h
      split at h
      · cases h
      · cases h
        exact .inr (.inr (.inr (.inr ⟨name, rfl, rfl⟩)))

theorem firstTerm_rip {first : MemTerm} {mem : MemOperand} (h : firstTerm first = some mem) :
    mem.isRipRelative = first.isRip ∧
      (first.isRip = true → mem.base = none ∧ mem.index = none) := by
  rcases firstTerm_cases h with ⟨size, rfl, rfl⟩ | ⟨r, size, hr, rfl, rfl⟩ |
    ⟨r, size, s, hr, -, rfl, rfl⟩ | ⟨v, rfl, rfl⟩ | ⟨name, rfl, rfl⟩
  · exact ⟨rfl, fun _ => ⟨rfl, rfl⟩⟩
  · simp [MemTerm.isRip, hr]
  · simp [MemTerm.isRip, hr]
  · simp [MemTerm.isRip]
  · simp [MemTerm.isRip]

theorem sumOperand_eq_none {first : MemTerm} {more : List SignedTerm} :
    sumOperand first more = none ↔ RefusedSum first more := by
  rw [sumOperand, RefusedSum, ← firstTerm_eq_none]
  cases hfirst : firstTerm first with
  | none => simp
  | some mem =>
      obtain ⟨hrip, hbare⟩ := firstTerm_rip hfirst
      rw [← hrip, ← foldlM_nextTerm_eq_none]
      cases hfold : more.foldlM nextTerm mem with
      | none => simp [hfold]
      | some mem' =>
          have hext := extends_foldlM hfold
          have hlast : (registersOf more).getLast? = none ↔ registersOf more = [] :=
            List.getLast?_eq_none_iff
          rw [Option.bind_eq_bind, Option.bind_some, hfold, Option.bind_some, ripAlone, hext.rip]
          cases hmem : mem.isRipRelative with
          | false => simp
          | true =>
              obtain ⟨hbase, hindex⟩ := hbare (hrip.symm.trans hmem)
              rw [hext.base, hext.index, hbase, hindex, Ne, ← hlast]
              cases (registersOf more).getLast? <;> simp

theorem coefficient_eq {terms : List SignedTerm}
    (h : ∀ t ∈ terms, t.1 = true → t.2.isNum = true) (r : Reg) : coefficient terms r =
      ((registersOf terms).map fun x => if x.1 = r then (x.2 : Int) else 0).sum := by
  induction terms with
  | nil => rfl
  | cons t terms ih =>
      obtain ⟨ht, hterms⟩ := List.forall_mem_cons.mp h
      have hsum : coefficient (t :: terms) r = t.coefficient r + coefficient terms r := by
        rw [coefficient, List.map_cons, List.sum_cons]
        rfl
      rw [hsum, ih hterms, registersOf_cons, List.map_append, List.sum_append,
        SignedTerm.coefficient]
      obtain ⟨negative, term⟩ := t
      cases term with
      | reg reg size scale =>
          have hpositive : negative = false := by
            cases negative with
            | false => rfl
            | true => exact absurd (ht rfl) Bool.false_ne_true
          rw [hpositive]
          simp [MemTerm.register?, SignedTerm.sign]
      | num v => simp [MemTerm.register?]
      | label name => simp [MemTerm.register?]

theorem toInt_ofInt_amount {n : Int} (hlow : -2 ^ 31 ≤ n) (hhigh : n < 2 ^ 31) :
    (BitVec.ofInt 32 n).toInt = n := by
  rw [BitVec.toInt_ofInt]
  exact Int.bmod_eq_of_le (by omega) (by omega)

theorem firstTerm_fields {first : MemTerm} {mem : MemOperand} (h : firstTerm first = some mem) :
    mem.displacement = BitVec.ofInt 32 (amount [(false, first)]) ∧
      mem.label = first.label?.getD Label.empty := by
  rcases firstTerm_cases h with ⟨size, rfl, rfl⟩ | ⟨r, size, hr, rfl, rfl⟩ |
    ⟨r, size, s, hr, -, rfl, rfl⟩ | ⟨v, rfl, rfl⟩ | ⟨name, rfl, rfl⟩
  · exact ⟨rfl, rfl⟩
  · exact ⟨rfl, rfl⟩
  · exact ⟨rfl, rfl⟩
  · refine ⟨?_, rfl⟩
    change v.setWidth 32 = BitVec.ofInt 32 (1 * v.toInt + 0)
    rw [setWidth_ofInt, Int.one_mul, Int.add_zero]
  · exact ⟨rfl, rfl⟩

theorem scale_pos {s : Word} (h : isValidScaleFactor s = true) : 0 < s.toNat := by
  rw [Nat.pos_iff_ne_zero]
  intro hzero
  rw [BitVec.eq_of_toNat_eq (y := 0) hzero] at h
  cases h

theorem registersOf_pos {rip : Bool} {terms : List SignedTerm}
    (h : ¬ ∃ t ∈ terms, RefusedTerm rip t) : ∀ x ∈ registersOf terms, 0 < x.2 := by
  intro x hx
  obtain ⟨⟨negative, term⟩, hmem, hreg⟩ := List.mem_filterMap.mp hx
  cases term with
  | reg r size scale =>
      cases scale with
      | none =>
          cases hreg
          exact Nat.one_pos
      | some s =>
          cases hreg
          apply scale_pos
          by_contra hs
          exact h ⟨_, hmem, by simpa [RefusedTerm] using hs⟩
  | num v => cases hreg
  | label name => cases hreg

theorem coefficient_index_iff {mem : MemOperand} {x : Reg × Nat} (hx : 0 < x.2)
    (hrip : mem.isRipRelative = false) (hbase : mem.base ≠ some Reg.rip) :
    (∀ r, MemOperand.coefficient { mem with index := some x.1, scale := x.2 } r =
      (if mem.base = some r then 1 else 0) + if x.1 = r then (x.2 : Int) else 0) ↔
    x.1 ≠ Reg.rip := by
  constructor
  · intro h hindex
    have hzero := h Reg.rip
    simp only [MemOperand.coefficient, hrip, hbase, hindex, if_true, if_false] at hzero
    simp at hzero
    omega
  · intro hindex r
    by_cases hr : r = Reg.rip
    · simp [MemOperand.coefficient, hr, hindex, hrip, hbase]
    · simp [MemOperand.coefficient, hr]

/-- How the registers of a sum stand in an operand that holds the first one as base or index and
the last one as index. -/
theorem coefficient_iff {first : MemTerm} {mem : MemOperand} {L : List (Reg × Nat)}
    (hfirst : firstTerm first = some mem) (hpos : ∀ x ∈ L, 0 < x.2)
    (hcount : (first.register?.toList ++ L).length ≤ 2) (hrip : first.isRip = true → L = []) :
    (∀ r, MemOperand.coefficient { mem with
        index := (L.getLast?.map Prod.fst).or mem.index
        scale := (L.getLast?.map Prod.snd).getD mem.scale } r =
      ((first.register?.toList ++ L).map fun x => if x.1 = r then (x.2 : Int) else 0).sum) ↔
    L.length ≤ 1 ∧ (first.isScaled = true → L = []) ∧ ∀ x ∈ L, x.1 ≠ Reg.rip := by
  rcases firstTerm_cases hfirst with ⟨size, rfl, rfl⟩ | ⟨r₀, size, hr₀, rfl, rfl⟩ |
    ⟨r₀, size, s, hr₀, hs, rfl, rfl⟩ | hother
  · rw [hrip rfl]
    apply iff_of_true
    · intro r
      by_cases hr : r = Reg.rip
      · simp [MemOperand.coefficient, MemTerm.register?, hr]
      · simp [MemOperand.coefficient, MemTerm.register?, hr, Ne.symm hr]
    · simp
  · rcases L with _ | ⟨x, _ | ⟨y, L⟩⟩
    · apply iff_of_true
      · intro r
        by_cases hr : r = Reg.rip
        · simp [MemOperand.coefficient, MemTerm.register?, hr, hr₀]
        · simp [MemOperand.coefficient, MemTerm.register?, hr]
      · simp
    · have hindex := @coefficient_index_iff { base := some r₀ } x (hpos x (by simp)) rfl
        (by simpa using hr₀)
      simpa [MemTerm.register?, MemTerm.isScaled] using hindex
    · simp [MemTerm.register?] at hcount
  · rcases L with _ | ⟨x, _ | ⟨y, L⟩⟩
    · apply iff_of_true
      · intro r
        by_cases hr : r = Reg.rip
        · simp [MemOperand.coefficient, MemTerm.register?, hr, hr₀]
        · simp [MemOperand.coefficient, MemTerm.register?, hr]
      · simp
    · apply iff_of_false
      · intro h
        have hlost := h r₀
        have hpos := scale_pos hs
        simp [MemOperand.coefficient, MemTerm.register?, hr₀] at hlost
        omega
      · simp [MemTerm.isScaled]
    · simp [MemTerm.register?] at hcount
  · have hnone : first.register? = none ∧ first.isScaled = false ∧ mem.base = none ∧
        mem.index = none ∧ mem.isRipRelative = false := by
      rcases hother with ⟨v, rfl, rfl⟩ | ⟨name, rfl, rfl⟩
      · exact ⟨rfl, rfl, rfl, rfl, rfl⟩
      · exact ⟨rfl, rfl, rfl, rfl, rfl⟩
    obtain ⟨hreg, hscaled, hbase, hindex, hmem⟩ := hnone
    rw [hreg] at hcount ⊢
    rcases L with _ | ⟨x, _ | ⟨y, _ | ⟨z, L⟩⟩⟩
    · apply iff_of_true
      · intro r
        simp [MemOperand.coefficient, hbase, hindex, hmem]
      · simp
    · have hindex := coefficient_index_iff (hpos x (by simp)) hmem (by simp [hbase])
      simpa [hscaled, hbase] using hindex
    · apply iff_of_false
      · intro h
        have hlost := h x.1
        have hx := hpos x (by simp)
        by_cases hr : x.1 = Reg.rip
        · simp [MemOperand.coefficient, hr, hmem] at hlost
          omega
        · simp [MemOperand.coefficient, hr, hbase] at hlost
          omega
      · simp
    · simp at hcount

theorem denotes_iff {first : MemTerm} {more : List SignedTerm} {mem : MemOperand}
    (h : sumOperand first more = some mem) (hsum : IsAddress ((false, first) :: more)) :
    Denotes mem ((false, first) :: more) ↔ InPlace first more := by
  have hrefused : ¬ RefusedSum first more := by
    rw [← sumOperand_eq_none, h]
    exact Option.some_ne_none mem
  obtain ⟨start, hfirst, h⟩ := Option.bind_eq_some_iff.mp h
  obtain ⟨mem', hfold, h⟩ := Option.bind_eq_some_iff.mp h
  have hmem : mem' = mem := by
    rw [ripAlone] at h
    split at h
    · cases h
    · exact Option.some.inj h
  rw [hmem] at hfold
  have hext := extends_foldlM hfold
  obtain ⟨hdisplacement, hlabel⟩ := firstTerm_fields hfirst
  have hregs : registersOf ((false, first) :: more) =
      first.register?.toList ++ registersOf more := registersOf_cons _ _
  have hcount := hsum.registers
  rw [hregs] at hcount
  have hplaces := coefficient_iff hfirst
    (registersOf_pos fun hmore => hrefused (.inr (.inl hmore))) hcount (fun hrip => by
      by_contra hne
      exact hrefused (.inr (.inr ⟨hrip, hne⟩)))
  have hsame : ∀ r, mem.coefficient r = MemOperand.coefficient { start with
      index := ((registersOf more).getLast?.map Prod.fst).or start.index
      scale := ((registersOf more).getLast?.map Prod.snd).getD start.scale } r := by
    intro r
    rw [MemOperand.coefficient, hext.base, hext.rip, hext.index, hext.scale]
    rfl
  constructor
  · intro hdenotes
    obtain ⟨hone, hunscaled, hrip⟩ := hplaces.mp fun r => by
      rw [← hsame r, hdenotes.registers r, coefficient_eq hsum.added, hregs]
    exact ⟨hone, hunscaled, hrip⟩
  · rintro ⟨hone, hunscaled, hrip⟩
    refine ⟨fun r => ?_, ?_, ?_⟩
    · rw [hsame r, hplaces.mpr ⟨hone, hunscaled, hrip⟩ r, coefficient_eq hsum.added, hregs]
    · have hamount : amount ((false, first) :: more) = amount [(false, first)] + amount more := by
        rw [amount, List.map_cons, List.sum_cons, amount, List.map_singleton, List.sum_singleton]
        rfl
      rw [hext.displacement, hdisplacement, ← BitVec.ofInt_add, ← hamount]
      exact toInt_ofInt_amount hsum.displacement.1 hsum.displacement.2
    · have hlabels : labelsOf ((false, first) :: more) =
          first.label?.toList ++ labelsOf more := by
        rw [labelsOf, List.filterMap_cons]
        cases first.label? <;> rfl
      rw [hext.label, hlabel, hlabels, List.getLast?_append]
      cases (labelsOf more).getLast? with
      | none => cases first.label? <;> rfl
      | some name => rfl

/-- A sum is parsed faithfully just where it is refused, or can be addressed and has a place for
each register. -/
theorem sumOperand_faithful {first : MemTerm} {more : List SignedTerm} :
    (∀ mem, sumOperand first more = some mem →
      IsAddress ((false, first) :: more) ∧ Denotes mem ((false, first) :: more)) ↔
    RefusedSum first more ∨ IsAddress ((false, first) :: more) ∧ InPlace first more := by
  rw [← sumOperand_eq_none]
  cases hmem : sumOperand first more with
  | none => simp
  | some mem =>
      constructor
      · intro h
        obtain ⟨hsum, hdenotes⟩ := h mem rfl
        exact .inr ⟨hsum, (denotes_iff hmem hsum).mp hdenotes⟩
      · rintro (hnone | ⟨hsum, hplace⟩) mem' heq
        · cases hnone
        · cases heq
          exact ⟨hsum, (denotes_iff hmem hsum).mpr hplace⟩

end X86Assembler
