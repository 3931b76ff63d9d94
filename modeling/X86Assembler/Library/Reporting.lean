import X86Assembler.Library.Walk

namespace X86Assembler.Fallible

variable {σ δ τ α β : Type}

/-- The log grew, and its last entry is one that `L` allows. -/
def Explained (L : δ → Prop) (before after : List δ) : Prop :=
  ∃ more d, after = before ++ (more ++ [d]) ∧ L d

section Explained

variable {L L' : δ → Prop} {xs ys zs : List δ}

theorem explained_concat {d : δ} (hd : L d) : Explained L xs (xs ++ [d]) := ⟨[], d, rfl, hd⟩

theorem Explained.after (hxy : xs <+: ys) (h : Explained L ys zs) : Explained L xs zs := by
  obtain ⟨more, d, rfl, hd⟩ := h
  obtain ⟨early, rfl⟩ := hxy
  exact ⟨early ++ more, d, by simp only [List.append_assoc], hd⟩

end Explained

/-- A success keeps what is in the log and returns a value of `P`; a failure leaves an entry
of `L` at the end of the log, behind what was in it. -/
def Explains (log : σ → List δ) (L : δ → Prop) (P : α → Prop) (m : Fallible σ α) : Prop :=
  ∀ s, Ensures m (fun a t => log s <+: log t ∧ P a) (fun t => Explained L (log s) (log t)) s

def Accounted (log : σ → List δ) (L : δ → Prop) (P : α → Prop) (before : List δ) :
    Option α × σ → Prop
  | (some a, t) => before <+: log t ∧ P a
  | (none, t) => Explained L before (log t)

section Rules

variable {log : σ → List δ} {L : δ → Prop} {P : α → Prop} {Q : β → Prop}

theorem explains_iff {m : Fallible σ α} :
    Explains log L P m ↔ ∀ s, Accounted log L P (log s) (m s) := by
  constructor
  · intro h s
    cases hr : m s with
    | mk r t =>
        cases r with
        | none => exact (h s).2 t hr
        | some a => exact (h s).1 a t hr
  · intro h s
    have hs := h s
    cases hr : m s with
    | mk r t =>
        rw [hr] at hs
        cases r with
        | none => exact .of_none hr hs
        | some a => exact .of_some hr hs

theorem Explains.pure {a : α} (ha : P a) : Explains log L P (Pure.pure a : Fallible σ α) :=
  fun _ => ensures_pure ⟨List.prefix_rfl, ha⟩

theorem Explains.get : Explains log L (fun _ => True) (get : Fallible σ σ) :=
  fun _ => .of_some rfl ⟨List.prefix_rfl, trivial⟩

theorem Explains.modify {f : σ → σ} (hf : ∀ s, log s <+: log (f s)) :
    Explains log L (fun _ => True) (modify f) :=
  fun s => .of_some rfl ⟨hf s, trivial⟩

theorem Explains.ignore {m : Fallible σ α} (hm : Along (fun s t => log s <+: log t) m) :
    Explains log L (fun _ => True) (ignore m) :=
  fun s => .of_some rfl ⟨hm s, trivial⟩

theorem Explains.bind {m : Fallible σ α} {f : α → Fallible σ β} (hm : Explains log L P m)
    (hf : ∀ a, P a → Explains log L Q (f a)) : Explains log L Q (m >>= f) := by
  intro s
  refine (hm s).bind (fun a t ht => ?_) fun _ => id
  exact (hf a ht.2 t).mono (fun _ _ hu => ⟨ht.1.trans hu.1, hu.2⟩) fun _ => .after ht.1

theorem Explains.each {f : α → Fallible σ Unit} {as : List α}
    (hf : ∀ a ∈ as, Explains log L (fun _ => True) (f a)) :
    Explains log L (fun _ => True) (each f as) := by
  induction as with
  | nil => exact .pure trivial
  | cons a as ih =>
      rw [List.forall_mem_cons] at hf
      exact hf.1.bind fun _ _ => ih hf.2

theorem Explains.walk {f : τ → α → Fallible σ (τ × β)} {as : List α}
    (hf : ∀ t, ∀ a ∈ as, Explains log L (fun r => Q r.2) (f t a)) (t : τ) :
    Explains log L (fun r => ∀ b ∈ r.2, Q b) (walk f t as) := by
  induction as generalizing t with
  | nil => exact .pure fun b hb => by cases hb
  | cons a as ih =>
      refine (hf t a List.mem_cons_self).bind fun r hr => ?_
      refine (ih (fun t a ha => hf t a (List.mem_cons_of_mem _ ha)) r.1).bind fun rs hrs => ?_
      exact .pure (List.forall_mem_cons.mpr ⟨hr, hrs⟩)

end Rules

end X86Assembler.Fallible
