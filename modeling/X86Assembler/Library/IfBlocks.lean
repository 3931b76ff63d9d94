import Mathlib.Data.List.Basic
import Mathlib.Data.Nat.Init

namespace X86Assembler

inductive LineKind
  | opens
  | elses
  | closes
  | plain
deriving DecidableEq

/-- A language of lines with conditional blocks: what kind of line a line is, whether the
condition of an opening line holds, and what a plain line does. -/
structure BlockLanguage (Line σ : Type) where
  kind : Line → LineKind
  holds : σ → Line → Option Bool
  run : σ → Line → Option σ

namespace BlockLanguage

variable {Line σ : Type}

/-- A run over lines that are selected or not, or over the branches of a block from one on. -/
inductive Mode
  | lines (active : Bool)
  | branches (select : Nat → Bool) (i : Nat)

/-- The branch of a block that is selected: in a block that is not, none is. -/
def selected (active holds : Bool) (i : Nat) : Bool :=
  active && decide (i = if holds then 0 else 1)

inductive Exec (L : BlockLanguage Line σ) : Mode → σ → List Line → σ → Prop
  | nil {active : Bool} {s : σ} : Exec L (.lines active) s [] s
  | plain {s s' t : σ} {line : Line} {rest : List Line} (hkind : L.kind line = .plain)
      (hrun : L.run s line = some s') (hrest : Exec L (.lines true) s' rest t) :
      Exec L (.lines true) s (line :: rest) t
  | skip {s t : σ} {line : Line} {rest : List Line} (hkind : L.kind line = .plain)
      (hrest : Exec L (.lines false) s rest t) : Exec L (.lines false) s (line :: rest) t
  | block {active holds : Bool} {s s' t : σ} {line : Line} {inner rest : List Line}
      (hkind : L.kind line = .opens) (hholds : active = true → L.holds s line = some holds)
      (hinner : Exec L (.branches (selected active holds) 0) s inner s')
      (hrest : Exec L (.lines active) s' rest t) :
      Exec L (.lines active) s (line :: (inner ++ rest)) t
  | last {select : Nat → Bool} {i : Nat} {s t : σ} {body : List Line} {line : Line}
      (hbody : Exec L (.lines (select i)) s body t) (hkind : L.kind line = .closes) :
      Exec L (.branches select i) s (body ++ [line]) t
  | more {select : Nat → Bool} {i : Nat} {s s' t : σ} {body : List Line} {line : Line}
      {rest : List Line} (hbody : Exec L (.lines (select i)) s body s')
      (hkind : L.kind line = .elses) (hrest : Exec L (.branches select (i + 1)) s' rest t) :
      Exec L (.branches select i) s (body ++ line :: rest) t

/-- An open block: whether the lines around it are selected, and whether one of its branches has
been. -/
structure Frame where
  parent : Bool
  taken : Bool

structure Flat (σ : Type) where
  stack : List Frame
  active : Bool
  data : σ

variable (L : BlockLanguage Line σ)

def Flat.enter (c : Flat σ) (holds : Bool) : Flat σ :=
  ⟨⟨c.active, c.active && holds⟩ :: c.stack, c.active && holds, c.data⟩

def step (c : Flat σ) (line : Line) : Option (Flat σ) :=
  match L.kind line, c.stack with
  | .opens, _ => if c.active then (L.holds c.data line).map c.enter else some (c.enter false)
  | .elses, f :: fs => some ⟨⟨f.parent, true⟩ :: fs, f.parent && !f.taken, c.data⟩
  | .closes, f :: fs => some ⟨fs, f.parent, c.data⟩
  | .plain, _ =>
    if c.active then (L.run c.data line).map fun data => { c with data } else some c
  | _, [] => none

def runLines : Flat σ → List Line → Option (Flat σ)
  | c, [] => some c
  | c, line :: rest => (L.step c line).bind fun c => runLines c rest

variable {L}

theorem runLines_cons {c u : Flat σ} {line : Line} {rest : List Line}
    (h : L.runLines c (line :: rest) = some u) :
    ∃ c', L.step c line = some c' ∧ L.runLines c' rest = some u :=
  Option.bind_eq_some_iff.mp h

theorem runLines_append {c c' : Flat σ} {lines rest : List Line}
    (h : L.runLines c lines = some c') : L.runLines c (lines ++ rest) = L.runLines c' rest := by
  induction lines generalizing c with
  | nil =>
      cases h
      rfl
  | cons line lines ih =>
      obtain ⟨c₁, hstep, hlines⟩ := runLines_cons h
      rw [List.cons_append, runLines, hstep, Option.bind_some, ih hlines]

def frame (active holds : Bool) (i : Nat) : Frame := ⟨active, decide (0 < i) || (active && holds)⟩

theorem selected_zero (active holds : Bool) : selected active holds 0 = (active && holds) := by
  cases active <;> cases holds <;> rfl

theorem selected_next (active holds : Bool) (i : Nat) :
    selected active holds (i + 1) = (active && !(frame active holds i).taken) := by
  cases i <;> cases active <;> cases holds <;> rfl

theorem step_elses {active holds : Bool} {i : Nat} {stack : List Frame} {b : Bool} {s : σ}
    {line : Line} (hkind : L.kind line = .elses) :
    L.step ⟨frame active holds i :: stack, b, s⟩ line =
      some ⟨frame active holds (i + 1) :: stack, selected active holds (i + 1), s⟩ := by
  rw [selected_next]
  simp only [step, hkind]
  rfl

theorem step_closes {active holds : Bool} {i : Nat} {stack : List Frame} {b : Bool} {s : σ}
    {line : Line} (hkind : L.kind line = .closes) :
    L.step ⟨frame active holds i :: stack, b, s⟩ line = some ⟨stack, active, s⟩ := by
  simp only [step, hkind]
  rfl

theorem enter_eq (c : Flat σ) (holds : Bool) :
    c.enter holds = ⟨frame c.active holds 0 :: c.stack, selected c.active holds 0, c.data⟩ := by
  rw [selected_zero]
  rfl

theorem step_opens {c c' : Flat σ} {line : Line} (hkind : L.kind line = .opens)
    (h : L.step c line = some c') : ∃ holds, (c.active = true → L.holds c.data line = some holds) ∧
      c' = ⟨frame c.active holds 0 :: c.stack, selected c.active holds 0, c.data⟩ := by
  simp only [step, hkind] at h
  split at h
  · obtain ⟨holds, hholds, rfl⟩ := Option.map_eq_some_iff.mp h
    exact ⟨holds, fun _ => hholds, enter_eq c holds⟩
  · next hoff =>
      cases h
      exact ⟨false, fun hon => absurd hon hoff, enter_eq c false⟩

variable (L)

/-- Lines up to a number are split where the block around them goes on or ends. -/
def SplitsLines (n : Nat) : Prop :=
  ∀ (lines : List Line) (c u : Flat σ), lines.length ≤ n → L.runLines c lines = some u →
    u.stack.length ≤ c.stack.length → ∃ seg rest t, lines = seg ++ rest ∧
      Exec L (.lines c.active) c.data seg t ∧ L.runLines ⟨c.stack, c.active, t⟩ rest = some u ∧
        (rest = [] ∨ ∃ line more, rest = line :: more ∧
          (L.kind line = .elses ∨ L.kind line = .closes))

/-- Lines up to a number are split behind the block that they start in. -/
def SplitsBranches (n : Nat) : Prop :=
  ∀ (lines : List Line) (active holds : Bool) (i : Nat) (stack : List Frame) (s : σ) (u : Flat σ),
    lines.length ≤ n →
      L.runLines ⟨frame active holds i :: stack, selected active holds i, s⟩ lines = some u →
        u.stack.length ≤ stack.length → ∃ seg rest t, lines = seg ++ rest ∧
          rest.length < lines.length ∧ Exec L (.branches (selected active holds) i) s seg t ∧
            L.runLines ⟨stack, active, t⟩ rest = some u

variable {L}

theorem splitsBranches_of {n : Nat} (hlines : L.SplitsLines n)
    (hbranches : ∀ m < n, L.SplitsBranches m) : L.SplitsBranches n := by
  intro lines active holds i stack s u hlen hrun hu
  obtain ⟨seg, rest, t, rfl, hexec, hrest, hend⟩ := hlines lines _ u hlen hrun
    (Nat.le_trans hu (Nat.le_succ _))
  rcases hend with rfl | ⟨line, more, rfl, hkind | hkind⟩
  · cases hrest
    exact absurd hu (by simp)
  · obtain ⟨c, hstep, hmore⟩ := runLines_cons hrest
    cases hstep.symm.trans (step_elses hkind)
    rw [List.length_append, List.length_cons] at hlen
    obtain ⟨seg', rest, t', rfl, hlt, hexec', hrest'⟩ := hbranches more.length (by omega) more active
      holds (i + 1) stack t u (Nat.le_refl _) hmore hu
    refine ⟨seg ++ line :: seg', rest, t', by simp, ?_, Exec.more hexec hkind hexec', hrest'⟩
    simp only [List.length_append, List.length_cons]
    omega
  · obtain ⟨c, hstep, hmore⟩ := runLines_cons hrest
    cases hstep.symm.trans (step_closes hkind)
    refine ⟨seg ++ [line], more, t, by simp, ?_, Exec.last hexec hkind, hmore⟩
    rw [List.length_append, List.length_cons]
    omega

theorem splitsLines_of {n : Nat} (hlines : ∀ m < n, L.SplitsLines m)
    (hbranches : ∀ m < n, L.SplitsBranches m) : L.SplitsLines n := by
  intro lines c u hlen hrun hu
  cases lines with
  | nil => exact ⟨[], [], c.data, rfl, Exec.nil, hrun, .inl rfl⟩
  | cons line lines =>
      rw [List.length_cons] at hlen
      obtain ⟨c', hstep, hmore⟩ := runLines_cons hrun
      cases hkind : L.kind line with
      | elses => exact ⟨[], line :: lines, c.data, rfl, Exec.nil, hrun, .inr ⟨line, lines, rfl, .inl hkind⟩⟩
      | closes => exact ⟨[], line :: lines, c.data, rfl, Exec.nil, hrun, .inr ⟨line, lines, rfl, .inr hkind⟩⟩
      | plain =>
          obtain ⟨stack, active, data⟩ := c
          simp only [step, hkind] at hstep
          cases active with
          | true =>
              obtain ⟨data', hdata, rfl⟩ := Option.map_eq_some_iff.mp hstep
              obtain ⟨seg, rest, t, rfl, hexec, hrest, hend⟩ := hlines lines.length (by omega) lines
                _ u (Nat.le_refl _) hmore hu
              exact ⟨line :: seg, rest, t, rfl, Exec.plain hkind hdata hexec, hrest, hend⟩
          | false =>
              cases hstep
              obtain ⟨seg, rest, t, rfl, hexec, hrest, hend⟩ := hlines lines.length (by omega) lines
                _ u (Nat.le_refl _) hmore hu
              exact ⟨line :: seg, rest, t, rfl, Exec.skip hkind hexec, hrest, hend⟩
      | opens =>
          obtain ⟨holds, hholds, rfl⟩ := step_opens hkind hstep
          obtain ⟨seg, rest, t, rfl, hlt, hexec, hrest⟩ := hbranches lines.length (by omega) lines
            c.active holds 0 c.stack c.data u (Nat.le_refl _) hmore hu
          obtain ⟨seg', rest', t', rfl, hexec', hrest', hend⟩ := hlines rest.length (by omega) rest
            ⟨c.stack, c.active, t⟩ u (Nat.le_refl _) hrest hu
          exact ⟨line :: (seg ++ seg'), rest', t', by simp, Exec.block hkind hholds hexec hexec',
            hrest', hend⟩

theorem splits (n : Nat) : L.SplitsLines n ∧ L.SplitsBranches n := by
  induction n using Nat.strong_induction_on with
  | _ n ih =>
      have hlines : L.SplitsLines n := splitsLines_of (fun m hm => (ih m hm).1) fun m hm => (ih m hm).2
      exact ⟨hlines, splitsBranches_of hlines fun m hm => (ih m hm).2⟩

theorem exec_of_run {s : σ} {lines : List Line} {u : Flat σ}
    (h : L.runLines ⟨[], true, s⟩ lines = some u) (hu : u.stack = []) :
    Exec L (.lines true) s lines u.data := by
  obtain ⟨seg, rest, t, rfl, hexec, hrest, hend⟩ := (splits lines.length).1 lines _ u
    (Nat.le_refl _) h (hu ▸ Nat.le_refl _)
  rcases hend with rfl | ⟨line, more, rfl, hkind⟩
  · cases hrest
    rwa [List.append_nil]
  · obtain ⟨c, hstep, -⟩ := runLines_cons hrest
    rcases hkind with hkind | hkind
    · simp [step, hkind] at hstep
    · simp [step, hkind] at hstep

def Runs (L : BlockLanguage Line σ) : Mode → σ → List Line → σ → Prop
  | .lines active, s, lines, t => ∀ stack, L.runLines ⟨stack, active, s⟩ lines = some ⟨stack, active, t⟩
  | .branches select i, s, lines, t => ∀ active holds, select = selected active holds → ∀ stack,
      L.runLines ⟨frame active holds i :: stack, select i, s⟩ lines = some ⟨stack, active, t⟩

theorem runs_of_exec {mode : Mode} {s t : σ} {lines : List Line} (h : Exec L mode s lines t) :
    Runs L mode s lines t := by
  induction h with
  | nil =>
      intro stack
      rfl
  | plain hkind hrun _ ih =>
      intro stack
      rw [runLines]
      simp only [step, hkind, if_true, hrun, Option.map_some, Option.bind_some]
      exact ih stack
  | skip hkind _ ih =>
      intro stack
      rw [runLines]
      simp only [step, hkind, Bool.false_eq_true, if_false, Option.bind_some]
      exact ih stack
  | @block active holds s s' t line inner rest hkind hholds _ _ ihinner ihrest =>
      intro stack
      have hstep : L.step ⟨stack, active, s⟩ line =
          some ⟨frame active holds 0 :: stack, selected active holds 0, s⟩ := by
        simp only [step, hkind]
        cases active with
        | true => rw [if_pos rfl, hholds rfl, Option.map_some, enter_eq]
        | false =>
            rw [if_neg Bool.false_ne_true, enter_eq]
            rfl
      rw [runLines, hstep, Option.bind_some, runLines_append (ihinner active holds rfl stack)]
      exact ihrest stack
  | last _ hkind ih =>
      intro active holds hselect stack
      rw [runLines_append (ih _), runLines, step_closes hkind]
      rfl
  | more _ hkind _ ih ihrest =>
      intro active holds hselect stack
      rw [runLines_append (ih _), runLines, step_elses hkind, Option.bind_some]
      subst hselect
      exact ihrest active holds rfl stack

theorem Exec.unique {active : Bool} {s t t' : σ} {lines : List Line}
    (h : Exec L (.lines active) s lines t) (h' : Exec L (.lines active) s lines t') : t' = t := by
  have hrun := (runs_of_exec h []).symm.trans (runs_of_exec h' [])
  cases hrun
  rfl

end BlockLanguage

end X86Assembler
