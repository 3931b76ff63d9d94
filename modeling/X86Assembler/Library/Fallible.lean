import Mathlib.Logic.Basic

namespace X86Assembler

/-- Stateful code that may fail. A failure keeps the changes made before it, as a C
function that returns `-1` does. -/
def Fallible (σ α : Type) : Type := σ → Option α × σ

namespace Fallible

variable {σ α β : Type}

instance : Monad (Fallible σ) where
  pure a := fun s => (some a, s)
  bind m f := fun s => match m s with
    | (some a, t) => f a t
    | (none, t) => (none, t)

def failure : Fallible σ α := fun s => (none, s)
def get : Fallible σ σ := fun s => (some s, s)
def modify (f : σ → σ) : Fallible σ Unit := fun s => (some (), f s)

def ignore (m : Fallible σ α) : Fallible σ Unit := fun s => (some (), (m s).2)

/-- One call after the other, stopping at the first failure. -/
def each (f : α → Fallible σ Unit) : List α → Fallible σ Unit
  | [] => pure ()
  | a :: as => do
    f a
    each f as

@[simp] theorem pure_run (a : α) (s : σ) : (pure a : Fallible σ α) s = (some a, s) := rfl
@[simp] theorem failure_run (s : σ) : (failure : Fallible σ α) s = (none, s) := rfl
@[simp] theorem get_run (s : σ) : (get : Fallible σ σ) s = (some s, s) := rfl
@[simp] theorem modify_run (f : σ → σ) (s : σ) : modify f s = (some (), f s) := rfl
@[simp] theorem ignore_run (m : Fallible σ α) (s : σ) : ignore m s = (some (), (m s).2) := rfl

theorem bind_run (m : Fallible σ α) (f : α → Fallible σ β) (s : σ) :
    (m >>= f) s = match m s with
      | (some a, t) => f a t
      | (none, t) => (none, t) := rfl

theorem bind_of_some {m : Fallible σ α} {f : α → Fallible σ β} {s t : σ} {a : α}
    (h : m s = (some a, t)) : (m >>= f) s = f a t := by
  rw [bind_run, h]

theorem bind_of_none {m : Fallible σ α} {f : α → Fallible σ β} {s t : σ}
    (h : m s = (none, t)) : (m >>= f) s = (none, t) := by
  rw [bind_run, h]

theorem pure_bind (a : α) (f : α → Fallible σ β) : pure a >>= f = f a := rfl

theorem bind_assoc {γ : Type} (m : Fallible σ α) (f : α → Fallible σ β) (g : β → Fallible σ γ) :
    m >>= f >>= g = m >>= fun a => f a >>= g := by
  funext s
  cases hm : m s with
  | mk r t =>
      cases r with
      | none => rw [bind_of_none hm, bind_of_none (bind_of_none hm)]
      | some a =>
          rw [bind_of_some hm]
          simp only [bind_run, hm]

/-- What holds of the state after the first part of a sequence that fails there, and after the
second part, holds at the end. -/
theorem bind_state (P : σ → Prop) {m : Fallible σ α} {f : α → Fallible σ β} {s : σ}
    (hfail : ∀ t, m s = (none, t) → P t) (hmore : ∀ a t, m s = (some a, t) → P (f a t).2) :
    P ((m >>= f) s).2 := by
  cases hm : m s with
  | mk r t =>
      cases r with
      | none =>
          rw [bind_of_none hm]
          exact hfail t hm
      | some a =>
          rw [bind_of_some hm]
          exact hmore a t hm

theorem bind_eq_some {m : Fallible σ α} {f : α → Fallible σ β} {s u : σ} {b : β} :
    (m >>= f) s = (some b, u) ↔ ∃ a t, m s = (some a, t) ∧ f a t = (some b, u) := by
  constructor
  · intro h
    cases hm : m s with
    | mk r t =>
        cases r with
        | none => rw [bind_of_none hm] at h; cases h
        | some a => exact ⟨a, t, rfl, by rwa [bind_of_some hm] at h⟩
  · rintro ⟨a, t, hm, hf⟩
    rwa [bind_of_some hm]

theorem pure_eq_some {a b : α} {s t : σ} :
    (pure a : Fallible σ α) s = (some b, t) ↔ a = b ∧ s = t := by
  rw [pure_run, Prod.mk.injEq, Option.some.injEq]

@[simp] theorem failure_ne_some {a : α} {s t : σ} :
    (failure : Fallible σ α) s ≠ (some a, t) := by
  rw [failure_run]
  exact fun h => nomatch h

/-- Whatever its result, a run relates the states before and after it. -/
def Along (R : σ → σ → Prop) (m : Fallible σ α) : Prop := ∀ s, R s (m s).2

section Along

variable {R : σ → σ → Prop}

theorem Along.pure (hrefl : ∀ s, R s s) (a : α) : Along R (Pure.pure a) := hrefl

theorem Along.ignore {m : Fallible σ α} (h : Along R m) : Along R (ignore m) := h

theorem Along.bind (htrans : ∀ s t u, R s t → R t u → R s u) {m : Fallible σ α}
    {f : α → Fallible σ β} (hm : Along R m) (hf : ∀ a, Along R (f a)) : Along R (m >>= f) := by
  intro s
  have hone := hm s
  cases hr : m s with
  | mk r t =>
      rw [hr] at hone
      cases r with
      | none =>
          rw [bind_of_none hr]
          exact hone
      | some a =>
          rw [bind_of_some hr]
          exact htrans s t _ hone (hf a t)

theorem Along.each (hrefl : ∀ s, R s s) (htrans : ∀ s t u, R s t → R t u → R s u)
    {f : α → Fallible σ Unit} (hf : ∀ a, Along R (f a)) (as : List α) : Along R (each f as) := by
  induction as with
  | nil => exact .pure hrefl ()
  | cons a as ih => exact (hf a).bind htrans fun _ => ih

end Along

/-- A run from `s` ends in `Q` when it succeeds and in `E` when it fails. -/
def Ensures (m : Fallible σ α) (Q : α → σ → Prop) (E : σ → Prop) (s : σ) : Prop :=
  (∀ a t, m s = (some a, t) → Q a t) ∧ ∀ t, m s = (none, t) → E t

section Ensures

variable {Q Q' : α → σ → Prop} {E E' : σ → Prop} {m : Fallible σ α} {s : σ}

theorem Ensures.of_some {a : α} {t : σ} (hm : m s = (some a, t)) (h : Q a t) :
    Ensures m Q E s := by
  constructor
  · intro b u hb
    rw [hm] at hb
    cases hb
    exact h
  · intro u hu
    rw [hm] at hu
    cases hu

theorem Ensures.of_none {t : σ} (hm : m s = (none, t)) (h : E t) : Ensures m Q E s := by
  constructor
  · intro b u hb
    rw [hm] at hb
    cases hb
  · intro u hu
    rw [hm] at hu
    cases hu
    exact h

theorem ensures_pure {a : α} (h : Q a s) : Ensures (pure a) Q E s :=
  Ensures.of_some rfl h

theorem Ensures.mono (h : Ensures m Q E s) (hQ : ∀ a t, Q a t → Q' a t) (hE : ∀ t, E t → E' t) :
    Ensures m Q' E' s :=
  ⟨fun a t hm => hQ a t (h.1 a t hm), fun t hm => hE t (h.2 t hm)⟩

theorem Ensures.bind {f : α → Fallible σ β} {R : β → σ → Prop} (hm : Ensures m Q E' s)
    (hf : ∀ a t, Q a t → Ensures (f a) R E t) (hE : ∀ t, E' t → E t) :
    Ensures (m >>= f) R E s := by
  cases hr : m s with
  | mk r t =>
      cases r with
      | none => exact Ensures.of_none (bind_of_none hr) (hE t (hm.2 t hr))
      | some a =>
          have ha := hf a t (hm.1 a t hr)
          unfold Ensures
          rw [bind_of_some hr]
          exact ha

end Ensures

end Fallible

end X86Assembler
