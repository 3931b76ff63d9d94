import Mathlib.Data.Nat.Init

namespace X86Assembler

/-- How a C function ends that returns a pointer: with a value, with NULL, or not at all. -/
inductive Outcome (α : Type)
  | returns (value : α)
  | null
  | diverges
deriving DecidableEq

namespace Outcome

variable {α β : Type}

def ofOption : Option α → Outcome α
  | some a => .returns a
  | none => .null

def bind (o : Outcome α) (f : α → Outcome β) : Outcome β :=
  match o with
  | .returns a => f a
  | .null => .null
  | .diverges => .diverges

theorem bind_eq_returns {o : Outcome α} {f : α → Outcome β} {b : β} :
    o.bind f = .returns b ↔ ∃ a, o = .returns a ∧ f a = .returns b := by
  cases o with
  | returns a =>
      constructor
      · intro h
        exact ⟨a, rfl, h⟩
      · rintro ⟨a', ha, h⟩
        cases ha
        exact h
  | null => simp [bind]
  | diverges => simp [bind]

theorem bind_eq_diverges {o : Outcome α} {f : α → Outcome β} :
    o.bind f = .diverges ↔ o = .diverges ∨ ∃ a, o = .returns a ∧ f a = .diverges := by
  cases o <;> simp [bind]

theorem ofOption_ne_diverges (o : Option α) : ofOption o ≠ .diverges := by
  cases o <;> simp [ofOption]

theorem ofOption_bind_eq_diverges {o : Option α} {f : α → Outcome β} :
    (ofOption o).bind f = .diverges ↔ ∃ a, o = some a ∧ f a = .diverges := by
  cases o <;> simp [ofOption, bind]

theorem bind_congr {o : Outcome α} {f g : α → Outcome β}
    (h : ∀ a, o = .returns a → f a = g a) : o.bind f = o.bind g := by
  cases o with
  | returns a => exact h a rfl
  | null => rfl
  | diverges => rfl

theorem ofOption_eq_returns {o : Option α} {a : α} : ofOption o = .returns a ↔ o = some a := by
  cases o <;> simp [ofOption]

end Outcome

namespace Loop

variable {σ τ κ : Type}

/-- A loop whose body takes `step` until `done`, at most a number of rounds. -/
def run (done : σ → Bool) (step : σ → Outcome σ) : Nat → σ → Outcome σ
  | 0, s => .returns s
  | n + 1, s => if done s then .returns s else (step s).bind (run done step n)

def visited (done : σ → Bool) (step : σ → Outcome σ) : Nat → σ → List σ
  | 0, _ => []
  | n + 1, s =>
    if done s then []
    else
      s :: match step s with
        | .returns t => visited done step n t
        | _ => []

section Run

variable {done : σ → Bool} {step : σ → Outcome σ}

theorem run_done {n : Nat} {s : σ} (h : done s = true) : run done step n s = .returns s := by
  cases n with
  | zero => rfl
  | succ n => rw [run, if_pos h]

theorem visited_done {n : Nat} {s : σ} (h : done s = true) : visited done step n s = [] := by
  cases n with
  | zero => rfl
  | succ n => rw [visited, if_pos h]

theorem run_succ {n : Nat} {s u : σ} (h : done s = false)
    (hr : run done step (n + 1) s = .returns u) :
    ∃ t, step s = .returns t ∧ run done step n t = .returns u ∧
      visited done step (n + 1) s = s :: visited done step n t := by
  rw [run, if_neg (by simp [h])] at hr
  obtain ⟨t, hstep, hrest⟩ := Outcome.bind_eq_returns.mp hr
  refine ⟨t, hstep, hrest, ?_⟩
  rw [visited, if_neg (by simp [h]), hstep]

theorem visited_first {n : Nat} {s u : σ} (hs : done s = false) (hu : done u = true)
    (hr : run done step n s = .returns u) : ∃ l, visited done step n s = s :: l := by
  cases n with
  | zero =>
      cases hr
      rw [hs] at hu
      cases hu
  | succ n =>
      obtain ⟨_, -, -, hvisited⟩ := run_succ hs hr
      exact ⟨_, hvisited⟩

theorem run_diverges_iff {n : Nat} {s : σ} :
    run done step n s = .diverges ↔ ∃ v ∈ visited done step n s, step v = .diverges := by
  induction n generalizing s with
  | zero =>
      constructor
      · intro h
        cases h
      · rintro ⟨v, hv, -⟩
        cases hv
  | succ n ih =>
      rw [run, visited]
      cases hd : done s with
      | true => simp
      | false =>
          rw [if_neg Bool.false_ne_true, if_neg Bool.false_ne_true]
          cases ht : step s with
          | null => simp [Outcome.bind, ht]
          | diverges => simp [Outcome.bind, ht]
          | returns t => simp [Outcome.bind, ht, ih]

/-- What holds at the start and is kept by the body holds in every state it is entered in, and
at the end. -/
theorem run_invariant (P : σ → Prop) (hstep : ∀ s t, P s → done s = false →
      step s = .returns t → P t) {n : Nat} {s u : σ} (hs : P s)
    (hr : run done step n s = .returns u) : (∀ v ∈ visited done step n s, P v) ∧ P u := by
  induction n generalizing s with
  | zero =>
      cases hr
      exact ⟨List.forall_mem_nil _, hs⟩
  | succ n ih =>
      cases hd : done s with
      | true =>
          rw [run_done hd] at hr
          cases hr
          rw [visited_done hd]
          exact ⟨List.forall_mem_nil _, hs⟩
      | false =>
          obtain ⟨t, ht, hrest, hvisited⟩ := run_succ hd hr
          obtain ⟨hall, hu⟩ := ih (hstep s t hs hd ht) hrest
          rw [hvisited]
          exact ⟨List.forall_mem_cons.mpr ⟨hs, hall⟩, hu⟩

theorem run_ends (size : σ → Nat) (hzero : ∀ s, size s = 0 → done s = true)
    (hstep : ∀ s t, done s = false → step s = .returns t → size t < size s) {n : Nat} {s u : σ}
    (hn : size s ≤ n) (hr : run done step n s = .returns u) : done u = true := by
  induction n generalizing s with
  | zero =>
      cases hr
      exact hzero _ (Nat.le_zero.mp hn)
  | succ n ih =>
      cases hd : done s with
      | true =>
          rw [run_done hd] at hr
          cases hr
          exact hd
      | false =>
          obtain ⟨t, ht, hrest, -⟩ := run_succ hd hr
          have hlt := hstep s t hd ht
          exact ih (by omega) hrest

theorem visited_next {n : Nat} {s u v : σ} (hr : run done step n s = .returns u)
    (hv : v ∈ visited done step n s) : ∃ m w, step v = .returns w ∧
      run done step m w = .returns u ∧
        (done w = false → done u = true → w ∈ visited done step n s) := by
  induction n generalizing s with
  | zero => cases hv
  | succ n ih =>
      cases hd : done s with
      | true =>
          rw [visited_done hd] at hv
          cases hv
      | false =>
          obtain ⟨t, ht, hrest, hvisited⟩ := run_succ hd hr
          rw [hvisited] at hv ⊢
          rcases List.mem_cons.mp hv with rfl | hv
          · refine ⟨n, t, ht, hrest, fun hw hu => List.mem_cons_of_mem _ ?_⟩
            obtain ⟨l, hfirst⟩ := visited_first hw hu hrest
            rw [hfirst]
            exact List.mem_cons_self
          · obtain ⟨m, w, hw, hrun, hmem⟩ := ih hrest hv
            exact ⟨m, w, hw, hrun, fun hdw hdu => List.mem_cons_of_mem _ (hmem hdw hdu)⟩

/-- A relation that the body keeps holds between each state it is entered in and the end. -/
theorem visited_related (R : σ → σ → Prop) (hrefl : ∀ s, R s s)
    (htrans : ∀ a b c, R a b → R b c → R a c)
    (hstep : ∀ s t, done s = false → step s = .returns t → R s t) {n : Nat} {s u : σ}
    (hr : run done step n s = .returns u) : R s u ∧ ∀ v ∈ visited done step n s, R v u := by
  induction n generalizing s with
  | zero =>
      cases hr
      exact ⟨hrefl _, List.forall_mem_nil _⟩
  | succ n ih =>
      cases hd : done s with
      | true =>
          rw [run_done hd] at hr
          cases hr
          rw [visited_done hd]
          exact ⟨hrefl _, List.forall_mem_nil _⟩
      | false =>
          obtain ⟨t, ht, hrest, hvisited⟩ := run_succ hd hr
          obtain ⟨hu, hall⟩ := ih hrest
          have hsu := htrans s t u (hstep s t hd ht) hu
          rw [hvisited]
          exact ⟨hsu, List.forall_mem_cons.mpr ⟨hsu, hall⟩⟩

end Run

/-- Two loops that run in lockstep as long as `P` holds of the first one, and take different
ways where it fails, go through the same observed states exactly when it never fails. -/
theorem visited_eq_iff {done : σ → Bool} {step : σ → Outcome σ} {done' : τ → Bool}
    {step' : τ → Outcome τ} (R : σ → τ → Prop) (P : σ → Prop) (f : σ → κ) (g : τ → κ)
    (hobs : ∀ s t, R s t → f s = g t) (hdone : ∀ s t, R s t → done s = done' t)
    (hkeep : ∀ s t s' t', R s t → done s = false → P s → step s = .returns s' →
      step' t = .returns t' → R s' t')
    {ends : σ → Prop} {ends' : τ → Prop}
    (hsplit : ∀ s t s' t', R s t → done s = false → ¬ P s → step s = .returns s' →
      step' t = .returns t' → ∀ n u u', run done step n s' = .returns u → ends u →
        run done' step' n t' = .returns u' → ends' u' →
          (visited done step n s').map f ≠ (visited done' step' n t').map g)
    {n : Nat} {s u : σ} {t u' : τ} (hst : R s t) (hr : run done step n s = .returns u)
    (hu : ends u) (hr' : run done' step' n t = .returns u') (hu' : ends' u') :
    (visited done step n s).map f = (visited done' step' n t).map g ↔
      ∀ v ∈ visited done step n s, P v := by
  induction n generalizing s t with
  | zero => exact iff_of_true rfl (List.forall_mem_nil _)
  | succ n ih =>
      cases hd : done s with
      | true =>
          have hd' : done' t = true := (hdone s t hst).symm.trans hd
          rw [visited_done hd, visited_done hd']
          exact iff_of_true rfl (List.forall_mem_nil _)
      | false =>
          have hd' : done' t = false := (hdone s t hst).symm.trans hd
          obtain ⟨s₁, hs₁, hrest, hvisited⟩ := run_succ hd hr
          obtain ⟨t₁, ht₁, hrest', hvisited'⟩ := run_succ hd' hr'
          rw [hvisited, hvisited', List.map_cons, List.map_cons, List.cons_eq_cons,
            List.forall_mem_cons]
          by_cases hp : P s
          · rw [ih (hkeep s t s₁ t₁ hst hd hp hs₁ ht₁) hrest hrest']
            exact and_congr_left' (iff_of_true (hobs s t hst) hp)
          · constructor
            · rintro ⟨-, heq⟩
              exact absurd heq (hsplit s t s₁ t₁ hst hd hp hs₁ ht₁ n u u' hrest hu hrest' hu')
            · rintro ⟨h, -⟩
              exact absurd h hp

/-- The part of a state that a loop reads from front to back. -/
structure Cursor (σ β : Type) where
  rest : σ → List β
  set : σ → List β → σ
  rest_set : ∀ s l, rest (set s l) = l
  set_set : ∀ s l l', set (set s l) l' = set s l'
  set_rest : ∀ s, set s (rest s) = s

section Scan

variable {β : Type} (c : Cursor σ β) (step : σ → Outcome σ)

/-- The loop that takes steps until nothing is left to read. -/
def scan (s : σ) : Outcome σ := run (fun s => c.rest s = []) step (c.rest s).length s

variable {c step}

theorem run_more
    (hstep : ∀ s t, c.rest s ≠ [] → step s = .returns t → (c.rest t).length < (c.rest s).length)
    {n : Nat} {s : σ} (hn : (c.rest s).length ≤ n) :
    run (fun s => c.rest s = []) step (n + 1) s = run (fun s => c.rest s = []) step n s := by
  induction n generalizing s with
  | zero =>
      have hnil := List.length_eq_zero_iff.mp (Nat.le_zero.mp hn)
      exact @run_done σ (fun s => c.rest s = []) step 1 s (decide_eq_true hnil)
  | succ n ih =>
      rw [run, run]
      by_cases hs : c.rest s = []
      · rw [if_pos (decide_eq_true hs), if_pos (decide_eq_true hs)]
      · rw [if_neg (by simp [hs]), if_neg (by simp [hs])]
        cases ht : step s with
        | null => rfl
        | diverges => rfl
        | returns t => exact ih (Nat.le_of_lt_succ (Nat.lt_of_lt_of_le (hstep s t hs ht) hn))

theorem run_enough
    (hstep : ∀ s t, c.rest s ≠ [] → step s = .returns t → (c.rest t).length < (c.rest s).length)
    {n : Nat} {s : σ} (hn : (c.rest s).length ≤ n) :
    run (fun s => c.rest s = []) step n s = scan c step s := by
  induction n, hn using Nat.le_induction with
  | base => rfl
  | succ n hn ih => rw [run_more hstep hn, ih]

theorem scan_nil {s : σ} (hs : c.rest s = []) : scan c step s = .returns s :=
  run_done (decide_eq_true hs)

theorem scan_step
    (hstep : ∀ s t, c.rest s ≠ [] → step s = .returns t → (c.rest t).length < (c.rest s).length)
    {s : σ} (hs : c.rest s ≠ []) : scan c step s = (step s).bind (scan c step) := by
  obtain ⟨n, hn⟩ := Nat.exists_eq_add_one_of_ne_zero (mt List.length_eq_zero_iff.mp hs)
  rw [scan, hn, run, if_neg (by simp [hs])]
  cases ht : step s with
  | null => rfl
  | diverges => rfl
  | returns t =>
      have hlt := hstep s t hs ht
      rw [hn] at hlt
      exact run_enough hstep (Nat.le_of_lt_succ hlt)

/-- A loop whose steps do not look beyond a text of a certain shape reads that text first, and
goes on from where this leads with what follows it. `stops` tells where a step may have looked
for more and found the end. -/
theorem scan_append {whole : List β → Prop} {stops : σ → Prop}
    (hstep : ∀ s t, c.rest s ≠ [] → step s = .returns t → (c.rest t).length < (c.rest s).length)
    (hwhole : ∀ s t, whole (c.rest s) → c.rest s ≠ [] → step s = .returns t → whole (c.rest t))
    (hlocal : ∀ s, whole (c.rest s) → c.rest s ≠ [] →
      (∀ t, step s = .returns t → c.rest t = [] → ¬ stops t) → ∀ more,
        step (c.set s (c.rest s ++ more)) =
          (step s).bind fun t => .returns (c.set t (c.rest t ++ more)))
    {s : σ} (hs : whole (c.rest s)) (hends : ∀ t, scan c step s = .returns t → ¬ stops t)
    (more : List β) : scan c step (c.set s (c.rest s ++ more)) =
      (scan c step s).bind fun t => scan c step (c.set t more) := by
  generalize hn : (c.rest s).length = n
  induction n using Nat.strong_induction_on generalizing s with
  | _ n ih =>
      by_cases hne : c.rest s = []
      · rw [scan_nil hne, hne, List.nil_append]
        rfl
      · have hne' : c.rest (c.set s (c.rest s ++ more)) ≠ [] := by
          rw [c.rest_set]
          exact List.append_ne_nil_of_left_ne_nil hne _
        rw [scan_step hstep hne] at hends
        rw [scan_step hstep hne, scan_step hstep hne', hlocal s hs hne ?_ more]
        · cases ht : step s with
          | null => rfl
          | diverges => rfl
          | returns t =>
              rw [ht] at hends
              exact ih _ (hn ▸ hstep s t hne ht) (hwhole s t hs hne ht) hends rfl
        · intro t ht hnil
          rw [ht] at hends
          exact hends t (scan_nil hnil)

end Scan

end Loop

end X86Assembler
