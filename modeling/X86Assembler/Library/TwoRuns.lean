import X86Assembler.Library.Walk

namespace X86Assembler.Fallible

variable {σ α β τ : Type}

/-- Two runs return the same or both fail, and end in related states. -/
def Matched (R : σ → σ → Prop) (m n : Fallible σ α) (s t : σ) : Prop :=
  (m s).1 = (n t).1 ∧ R (m s).2 (n t).2

/-- Two computations whose runs match from related states on. -/
def Alike (R : σ → σ → Prop) (m n : Fallible σ α) : Prop := ∀ s t, R s t → Matched R m n s t

def Returns (P : α → Prop) (m : Fallible σ α) : Prop := ∀ s a t, m s = (some a, t) → P a

variable {R S : σ → σ → Prop}

theorem Alike.pure (a : α) : Alike R (Pure.pure a) (Pure.pure a) := fun _ _ h => ⟨rfl, h⟩

theorem Alike.modify {f g : σ → σ} (h : ∀ s t, R s t → R (f s) (g t)) :
    Alike R (modify f) (modify g) := fun s t hst => ⟨rfl, h s t hst⟩

theorem Alike.ignore {m n : Fallible σ α} (h : Alike R m n) : Alike R (ignore m) (ignore n) :=
  fun s t hst => ⟨rfl, (h s t hst).2⟩

theorem Alike.get {f g : σ → Fallible σ α}
    (h : ∀ s t, R s t → Matched R (f s) (g t) s t) :
    Alike R (get >>= f) (get >>= g) := fun s t hst => h s t hst

theorem Matched.bind {P : α → Prop} {m n : Fallible σ α} {f g : α → Fallible σ β} {s t : σ}
    (hm : Matched R m n s t) (hP : Returns P m)
    (hf : ∀ a, P a → ∀ s t, R s t → Matched S (f a) (g a) s t) (hfail : ∀ s t, R s t → S s t) :
    Matched S (m >>= f) (n >>= g) s t := by
  obtain ⟨hresult, hstate⟩ := hm
  unfold Matched
  cases hr : m s with
  | mk r s' =>
      cases hr' : n t with
      | mk r' t' =>
          rw [hr, hr'] at hresult hstate
          cases (show r = r' from hresult)
          cases r with
          | none =>
              rw [bind_of_none hr, bind_of_none hr']
              exact ⟨rfl, hfail s' t' hstate⟩
          | some a =>
              rw [bind_of_some hr, bind_of_some hr']
              exact hf a (hP s a s' hr) s' t' hstate

/-- Two runs return the same or both fail, and end in related states when they succeed. -/
def Ends (R : σ → σ → Prop) (m n : Fallible σ α) (s t : σ) : Prop :=
  (m s).1 = (n t).1 ∧ ((n t).1.isSome = true → R (m s).2 (n t).2)

theorem Matched.ends {m n : Fallible σ α} {s t : σ} (h : Matched R m n s t) : Ends R m n s t :=
  ⟨h.1, fun _ => h.2⟩

theorem Ends.bind {P : α → Prop} {m n : Fallible σ α} {f g : α → Fallible σ β} {s t : σ}
    (hm : Ends R m n s t) (hP : Returns P m)
    (hf : ∀ a, P a → ∀ s t, R s t → Ends S (f a) (g a) s t) :
    Ends S (m >>= f) (n >>= g) s t := by
  obtain ⟨hresult, hstate⟩ := hm
  unfold Ends
  cases hr : m s with
  | mk r s' =>
      cases hr' : n t with
      | mk r' t' =>
          rw [hr, hr'] at hresult hstate
          cases (show r = r' from hresult)
          cases r with
          | none =>
              rw [bind_of_none hr, bind_of_none hr']
              exact ⟨rfl, fun h => nomatch h⟩
          | some a =>
              rw [bind_of_some hr, bind_of_some hr']
              exact hf a (hP s a s' hr) s' t' (hstate rfl)

theorem Ends.some {m n : Fallible σ α} {s t : σ} (h : Ends R m n s t)
    (hn : (n t).1.isSome = true) :
    ∃ a s' t', m s = (some a, s') ∧ n t = (some a, t') ∧ R s' t' := by
  obtain ⟨a, ha⟩ := Option.isSome_iff_exists.mp hn
  exact ⟨a, _, _, Prod.ext (h.1.trans ha) rfl, Prod.ext ha rfl, h.2 hn⟩

theorem Matched.bind_some {m n : Fallible σ α} {f g : α → Fallible σ β} {s t s' t' : σ} {a : α}
    (hm : m s = (some a, s')) (hn : n t = (some a, t')) (h : Matched S (f a) (g a) s' t') :
    Matched S (m >>= f) (n >>= g) s t := by
  unfold Matched
  rw [bind_of_some hm, bind_of_some hn]
  exact h

theorem Alike.bind_of {P : α → Prop} {m n : Fallible σ α} {f g : α → Fallible σ β}
    (hm : Alike R m n) (hP : Returns P m) (hf : ∀ a, P a → Alike R (f a) (g a)) :
    Alike R (m >>= f) (n >>= g) :=
  fun s t hst => (hm s t hst).bind hP hf fun _ _ h => h

theorem Alike.bind {m n : Fallible σ α} {f g : α → Fallible σ β} (hm : Alike R m n)
    (hf : ∀ a, Alike R (f a) (g a)) : Alike R (m >>= f) (n >>= g) :=
  hm.bind_of (P := fun _ => True) (fun _ _ _ _ => trivial) fun a _ => hf a

theorem Alike.each {f g : α → Fallible σ Unit} {as : List α} (h : ∀ a ∈ as, Alike R (f a) (g a)) :
    Alike R (each f as) (each g as) := by
  induction as with
  | nil => exact .pure ()
  | cons a as ih =>
      rw [List.forall_mem_cons] at h
      exact h.1.bind fun _ => ih h.2

theorem Alike.walk {P : τ → Prop} {f g : τ → α → Fallible σ (τ × β)} {as : List α} {t : τ}
    (ht : P t) (hstep : ∀ t, P t → ∀ a ∈ as, Alike R (f t a) (g t a))
    (hP : ∀ t, P t → ∀ a ∈ as, Returns (fun r => P r.1) (f t a)) :
    Alike R (walk f t as) (walk g t as) := by
  induction as generalizing t with
  | nil => exact .pure _
  | cons a as ih =>
      refine (hstep t ht a List.mem_cons_self).bind_of (hP t ht a List.mem_cons_self) ?_
      rintro ⟨u, b⟩ hu
      refine (ih hu (fun t ht a ha => hstep t ht a (List.mem_cons_of_mem _ ha))
        fun t ht a ha => hP t ht a (List.mem_cons_of_mem _ ha)).bind fun _ => .pure _

theorem returns_pure {P : α → Prop} {a : α} (h : P a) : Returns P (pure a : Fallible σ α) := by
  rintro s b t heq
  cases heq
  exact h

theorem Returns.bind {P : β → Prop} {m : Fallible σ α} {f : α → Fallible σ β}
    (h : ∀ a, Returns P (f a)) : Returns P (m >>= f) := by
  intro s b t hrun
  obtain ⟨a, u, -, hf⟩ := bind_eq_some.mp hrun
  exact h a u b t hf

theorem Returns.bind_of {Q : α → Prop} {P : β → Prop} {m : Fallible σ α} {f : α → Fallible σ β}
    (hm : Returns Q m) (h : ∀ a, Q a → Returns P (f a)) : Returns P (m >>= f) := by
  intro s b t hrun
  obtain ⟨a, u, ha, hf⟩ := bind_eq_some.mp hrun
  exact h a (hm s a u ha) u b t hf

theorem Returns.walk {P : τ → Prop} {Q : β → Prop} {f : τ → α → Fallible σ (τ × β)} {as : List α}
    {t : τ} (ht : P t) (h : ∀ t, P t → ∀ a ∈ as, Returns (fun r => P r.1 ∧ Q r.2) (f t a)) :
    Returns (fun r => P r.1 ∧ ∀ b ∈ r.2, Q b) (walk f t as) := by
  induction as generalizing t with
  | nil => exact returns_pure ⟨ht, fun _ hb => nomatch hb⟩
  | cons a as ih =>
      refine (h t ht a List.mem_cons_self).bind_of ?_
      rintro ⟨u, b⟩ ⟨hu, hb⟩
      refine (ih hu fun t ht a ha => h t ht a (List.mem_cons_of_mem _ ha)).bind_of ?_
      rintro ⟨v, bs⟩ ⟨hv, hbs⟩
      exact returns_pure ⟨hv, List.forall_mem_cons.mpr ⟨hb, hbs⟩⟩

end X86Assembler.Fallible
