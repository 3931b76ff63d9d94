import Mathlib.Data.List.TakeDrop
import X86Assembler.Library.Fallible

namespace X86Assembler.Fallible

variable {σ τ α β : Type}

/-- Thread an accumulator through a list of items and rewrite them one by one, stopping at
the first failure. -/
def walk (f : τ → α → Fallible σ (τ × β)) : τ → List α → Fallible σ (τ × List β)
  | t, [] => pure (t, [])
  | t, a :: as => do
    let (t, b) ← f t a
    let (t, bs) ← walk f t as
    pure (t, b :: bs)

variable {f : τ → α → Fallible σ (τ × β)}

theorem walk_cons_eq_some {t u : τ} {a : α} {as : List α} {s s' : σ} {out : List β} :
    walk f t (a :: as) s = (some (u, out), s') ↔
      ∃ t₁ b s₁ bs, f t a s = (some (t₁, b), s₁) ∧ walk f t₁ as s₁ = (some (u, bs), s') ∧
        out = b :: bs := by
  constructor
  · intro h
    obtain ⟨⟨t₁, b⟩, s₁, hf, h⟩ := bind_eq_some.mp h
    obtain ⟨⟨t₂, bs⟩, s₂, hw, h⟩ := bind_eq_some.mp h
    obtain ⟨hpair, rfl⟩ := pure_eq_some.mp h
    obtain ⟨rfl, rfl⟩ := Prod.mk.injEq .. ▸ hpair
    exact ⟨t₁, b, s₁, bs, hf, hw, rfl⟩
  · rintro ⟨t₁, b, s₁, bs, hf, hw, rfl⟩
    exact bind_eq_some.mpr ⟨(t₁, b), s₁, hf, bind_eq_some.mpr ⟨(u, bs), s', hw, rfl⟩⟩

theorem walk_length {t u : τ} {as : List α} {s s' : σ} {out : List β}
    (h : walk f t as s = (some (u, out), s')) : out.length = as.length := by
  induction as generalizing t s out with
  | nil =>
      obtain ⟨hpair, -⟩ := pure_eq_some.mp h
      cases hpair
      rfl
  | cons a as ih =>
      obtain ⟨t₁, b, s₁, bs, -, hw, rfl⟩ := walk_cons_eq_some.mp h
      simp only [List.length_cons, ih hw]

/-- The state in which a walk reaches the item at a position. -/
def stateAt (f : τ → α → Fallible σ (τ × β)) (t : τ) (as : List α) (s : σ) (i : Nat) : σ :=
  (walk f t (as.take i) s).2

@[simp] theorem stateAt_zero (t : τ) (as : List α) (s : σ) : stateAt f t as s 0 = s := rfl

theorem walk_take {t u : τ} {as : List α} {s s' : σ} {out : List β}
    (h : walk f t as s = (some (u, out), s')) (i : Nat) :
    ∃ t₁, walk f t (as.take i) s = (some (t₁, out.take i), stateAt f t as s i) := by
  induction as generalizing t s out i with
  | nil =>
      obtain ⟨hpair, -⟩ := pure_eq_some.mp h
      cases hpair
      exact ⟨_, by rw [stateAt, List.take_nil, List.take_nil]; rfl⟩
  | cons a as ih =>
      cases i with
      | zero => exact ⟨t, rfl⟩
      | succ i =>
          obtain ⟨t₁, b, s₁, bs, hf, hw, rfl⟩ := walk_cons_eq_some.mp h
          obtain ⟨t₂, ht⟩ := ih hw i
          refine ⟨t₂, ?_⟩
          have hc := walk_cons_eq_some.mpr ⟨t₁, b, s₁, bs.take i, hf, ht, rfl⟩
          rw [stateAt, List.take_succ_cons, hc, List.take_succ_cons]

theorem stateAt_length {t u : τ} {as : List α} {s s' : σ} {out : List β}
    (h : walk f t as s = (some (u, out), s')) : stateAt f t as s as.length = s' := by
  rw [stateAt, List.take_length, h]

theorem walk_step {t u : τ} {as : List α} {s s' : σ} {out : List β}
    (h : walk f t as s = (some (u, out), s')) {i : Nat} {a : α} (ha : as[i]? = some a) :
    ∃ t₁ t₂ b, out[i]? = some b ∧
      f t₁ a (stateAt f t as s i) = (some (t₂, b), stateAt f t as s (i + 1)) := by
  induction as generalizing t s out i with
  | nil => cases ha
  | cons a' as ih =>
      obtain ⟨t₁, b, s₁, bs, hf, hw, rfl⟩ := walk_cons_eq_some.mp h
      cases i with
      | zero =>
          cases ha
          refine ⟨t, t₁, b, rfl, ?_⟩
          have hone : walk f t [a] s = (some (t₁, [b]), s₁) :=
            walk_cons_eq_some.mpr ⟨t₁, b, s₁, [], hf, rfl, rfl⟩
          rw [stateAt_zero, stateAt, List.take_succ_cons, List.take_zero, hone, hf]
      | succ i =>
          obtain ⟨u₁, u₂, c, hc, hstep⟩ := ih hw ha
          refine ⟨u₁, u₂, c, hc, ?_⟩
          have hstate : ∀ j, stateAt f t (a' :: as) s (j + 1) = stateAt f t₁ as s₁ j := by
            intro j
            obtain ⟨t₃, ht⟩ := walk_take hw j
            have hcons := walk_cons_eq_some.mpr ⟨t₁, b, s₁, bs.take j, hf, ht, rfl⟩
            rw [stateAt, List.take_succ_cons, hcons]
          rw [hstate, hstate]
          exact hstep

/-- What holds of the accumulator in the end and was true in front of each step behind which it is
true, is true behind every step. -/
theorem walk_step_back {P : τ → Prop}
    (hback : ∀ t a s t' b s', f t a s = (some (t', b), s') → P t' → P t) {t u : τ} {as : List α}
    {s s' : σ} {out : List β} (h : walk f t as s = (some (u, out), s')) (hu : P u) :
    P t ∧ ∀ i a, as[i]? = some a → ∃ t₁ t₂ b,
      f t₁ a (stateAt f t as s i) = (some (t₂, b), stateAt f t as s (i + 1)) ∧ P t₂ := by
  induction as generalizing t s out with
  | nil =>
      obtain ⟨hpair, -⟩ := pure_eq_some.mp h
      cases hpair
      exact ⟨hu, fun i a ha => by cases ha⟩
  | cons a' as ih =>
      obtain ⟨t₁, b, s₁, bs, hf, hw, rfl⟩ := walk_cons_eq_some.mp h
      obtain ⟨ht₁, hsteps⟩ := ih hw
      refine ⟨hback _ _ _ _ _ _ hf ht₁, fun i a ha => ?_⟩
      have hstate : ∀ j, stateAt f t (a' :: as) s (j + 1) = stateAt f t₁ as s₁ j := by
        intro j
        obtain ⟨t₃, ht⟩ := walk_take hw j
        have hcons := walk_cons_eq_some.mpr ⟨t₁, b, s₁, bs.take j, hf, ht, rfl⟩
        rw [stateAt, List.take_succ_cons, hcons]
      rw [hstate]
      cases i with
      | zero =>
          cases ha
          exact ⟨t, t₁, b, hf, ht₁⟩
      | succ i =>
          rw [hstate]
          exact hsteps i a ha

/-- A property of positions that every step carries on holds all along a successful walk. -/
theorem walk_invariant {t u : τ} {as : List α} {s s' : σ} {out : List β}
    (h : walk f t as s = (some (u, out), s')) (P : Nat → σ → Prop) (hzero : P 0 s)
    (hstep : ∀ i a t₁ t₂ b, as[i]? = some a → out[i]? = some b →
      f t₁ a (stateAt f t as s i) = (some (t₂, b), stateAt f t as s (i + 1)) →
      P i (stateAt f t as s i) → P (i + 1) (stateAt f t as s (i + 1)))
    {i : Nat} (hi : i ≤ as.length) : P i (stateAt f t as s i) := by
  induction i with
  | zero => exact hzero
  | succ i ih =>
      have hget : as[i]? = some as[i] := List.getElem?_eq_getElem hi
      obtain ⟨t₁, t₂, b, hb, hf⟩ := walk_step h hget
      exact hstep i _ t₁ t₂ b hget hb hf (ih (Nat.le_of_succ_le hi))

theorem walk_between {t u : τ} {as : List α} {s s' : σ} {out : List β}
    (h : walk f t as s = (some (u, out), s')) (R : σ → σ → Prop) (hrefl : ∀ s, R s s)
    (htrans : ∀ {a b c}, R a b → R b c → R a c)
    {i j : Nat} (hij : i ≤ j) (hj : j ≤ as.length)
    (hstep : ∀ k a t₁ t₂ b, i ≤ k → k < j → as[k]? = some a → out[k]? = some b →
      f t₁ a (stateAt f t as s k) = (some (t₂, b), stateAt f t as s (k + 1)) →
      R (stateAt f t as s k) (stateAt f t as s (k + 1))) :
    R (stateAt f t as s i) (stateAt f t as s j) := by
  induction hij with
  | refl => exact hrefl _
  | @step j hij ih =>
      have hget : as[j]? = some as[j] := List.getElem?_eq_getElem hj
      obtain ⟨t₁, t₂, b, hb, hf⟩ := walk_step h hget
      have hprev := ih (Nat.le_of_succ_le hj) fun k a t₁ t₂ b hik hkj =>
        hstep k a t₁ t₂ b hik (Nat.lt_succ_of_lt hkj)
      exact htrans hprev (hstep j _ t₁ t₂ b hij (Nat.lt_succ_self j) hget hb hf)

section Each

variable {f : α → Fallible σ Unit}

/-- The state in which `each` reaches the item at a position. -/
def eachAt (f : α → Fallible σ Unit) (as : List α) (s : σ) (i : Nat) : σ :=
  (each f (as.take i) s).2

def asStep (f : α → Fallible σ Unit) : Unit → α → Fallible σ (Unit × Unit) := fun _ a => do
  f a
  pure ((), ())

theorem asStep_eq_some {a : α} {s s' : σ} {p : Unit × Unit} :
    asStep f () a s = (some p, s') ↔ f a s = (some (), s') := by
  constructor
  · intro h
    obtain ⟨_, s₁, hf, h⟩ := bind_eq_some.mp h
    obtain ⟨-, rfl⟩ := pure_eq_some.mp h
    exact hf
  · intro h
    exact bind_eq_some.mpr ⟨(), s', h, rfl⟩

theorem each_eq_some {as : List α} {s s' : σ} :
    each f as s = (some (), s') ↔ ∃ out, walk (asStep f) () as s = (some ((), out), s') := by
  induction as generalizing s with
  | nil =>
      constructor
      · intro h
        obtain ⟨-, rfl⟩ := pure_eq_some.mp h
        exact ⟨[], rfl⟩
      · rintro ⟨out, h⟩
        obtain ⟨-, rfl⟩ := pure_eq_some.mp h
        rfl
  | cons a as ih =>
      constructor
      · intro h
        obtain ⟨_, s₁, hf, h⟩ := bind_eq_some.mp h
        obtain ⟨out, hw⟩ := ih.mp h
        exact ⟨() :: out,
          walk_cons_eq_some.mpr ⟨(), (), s₁, out, asStep_eq_some.mpr hf, hw, rfl⟩⟩
      · rintro ⟨out, h⟩
        obtain ⟨_, _, s₁, bs, hf, hw, -⟩ := walk_cons_eq_some.mp h
        exact bind_eq_some.mpr ⟨(), s₁, asStep_eq_some.mp hf, ih.mpr ⟨bs, hw⟩⟩

theorem stateAt_asStep {as : List α} {s s' : σ} (h : each f as s = (some (), s')) (i : Nat) :
    stateAt (asStep f) () as s i = eachAt f as s i := by
  obtain ⟨out, hw⟩ := each_eq_some.mp h
  obtain ⟨_, ht⟩ := walk_take hw i
  rw [eachAt, each_eq_some.mpr ⟨_, ht⟩]

theorem eachAt_length {as : List α} {s s' : σ} (h : each f as s = (some (), s')) :
    eachAt f as s as.length = s' := by
  rw [eachAt, List.take_length, h]

theorem each_step {as : List α} {s s' : σ} (h : each f as s = (some (), s')) {i : Nat} {a : α}
    (ha : as[i]? = some a) : f a (eachAt f as s i) = (some (), eachAt f as s (i + 1)) := by
  obtain ⟨out, hw⟩ := each_eq_some.mp h
  obtain ⟨t₁, t₂, b, -, hf⟩ := walk_step hw ha
  rw [stateAt_asStep h, stateAt_asStep h] at hf
  exact asStep_eq_some.mp hf

theorem each_invariant {as : List α} {s s' : σ} (h : each f as s = (some (), s'))
    (P : Nat → σ → Prop) (hzero : P 0 s)
    (hstep : ∀ i a, as[i]? = some a →
      f a (eachAt f as s i) = (some (), eachAt f as s (i + 1)) →
      P i (eachAt f as s i) → P (i + 1) (eachAt f as s (i + 1)))
    {i : Nat} (hi : i ≤ as.length) : P i (eachAt f as s i) := by
  induction i with
  | zero => exact hzero
  | succ i ih =>
      have hget : as[i]? = some as[i] := List.getElem?_eq_getElem hi
      exact hstep i _ hget (each_step h hget) (ih (Nat.le_of_succ_le hi))

theorem each_between {as : List α} {s s' : σ} (h : each f as s = (some (), s'))
    (R : σ → σ → Prop) (hrefl : ∀ s, R s s) (htrans : ∀ {a b c}, R a b → R b c → R a c)
    {i j : Nat} (hij : i ≤ j) (hj : j ≤ as.length)
    (hstep : ∀ k a, i ≤ k → k < j → as[k]? = some a →
      f a (eachAt f as s k) = (some (), eachAt f as s (k + 1)) →
      R (eachAt f as s k) (eachAt f as s (k + 1))) :
    R (eachAt f as s i) (eachAt f as s j) := by
  induction hij with
  | refl => exact hrefl _
  | @step j hij ih =>
      have hget : as[j]? = some as[j] := List.getElem?_eq_getElem hj
      have hprev := ih (Nat.le_of_succ_le hj) fun k a hik hkj =>
        hstep k a hik (Nat.lt_succ_of_lt hkj)
      exact htrans hprev (hstep j _ hij (Nat.lt_succ_self j) hget (each_step h hget))

end Each

end X86Assembler.Fallible
