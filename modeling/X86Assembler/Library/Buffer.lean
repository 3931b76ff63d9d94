import Mathlib.Control.Lawful
import X86Assembler.Library.Leb128
import X86Assembler.Library.LittleEndian

namespace X86Assembler

open CString (Byte)
open LittleEndian

structure Buffer (cap : Nat) where
  bytes : List Byte := []
  length_le : bytes.length ≤ cap := by exact Nat.zero_le _

abbrev Fill (cap : Nat) := StateT (Buffer cap) Option

namespace Fill

variable {cap : Nat} {α β : Type}

def append (bs : List Byte) : Fill cap Unit := fun buf =>
  if h : buf.bytes.length + bs.length ≤ cap then
    some ((), ⟨buf.bytes ++ bs, by rwa [List.length_append]⟩)
  else none

def position : Fill cap Nat := fun buf => some (buf.bytes.length, buf)

def writeAt (offset : Nat) (bs : List Byte) : Fill cap Unit := fun buf =>
  if h : offset + bs.length ≤ buf.bytes.length then
    some ((), ⟨patch buf.bytes offset bs, by rw [patch_length h]; exact buf.length_le⟩)
  else none

/-- The bytes that a program leaves in an empty buffer, with its result. -/
def build (m : Fill cap α) : Option (α × List Byte) :=
  (m {}).map fun r => (r.1, r.2.bytes)

/-- Where a program that starts with some bytes in the buffer does not stop, its result and the
bytes it leaves have a property. -/
structure Ensures (m : Fill cap α) (bs : List Byte) (Q : α → List Byte → Prop) : Prop where
  run : ∀ buf : Buffer cap, buf.bytes = bs → ∀ r, m buf = some r → Q r.1 r.2.bytes

/-- From a buffer of some bytes a program can only end in a buffer of others, with a result. -/
def Yields (m : Fill cap α) (bs bs' : List Byte) (a : α) : Prop :=
  Ensures m bs fun x xs => x = a ∧ xs = bs'

theorem ensures_pure {bs : List Byte} {a : α} {Q : α → List Byte → Prop} (h : Q a bs) :
    Ensures (pure a : Fill cap α) bs Q := by
  constructor
  intro buf hbuf r hr
  cases hr
  exact hbuf ▸ h

theorem Ensures.bind {m : Fill cap α} {f : α → Fill cap β} {bs : List Byte}
    {P : α → List Byte → Prop} {Q : β → List Byte → Prop} (hm : Ensures m bs P)
    (hf : ∀ a bs', P a bs' → Ensures (f a) bs' Q) : Ensures (m >>= f) bs Q := by
  constructor
  intro buf hbuf r hr
  obtain ⟨⟨a, buf'⟩, hrun, hrest⟩ := Option.bind_eq_some_iff.mp hr
  exact (hf a buf'.bytes (hm.run buf hbuf _ hrun)).run buf' rfl r hrest

theorem Ensures.mono {m : Fill cap α} {bs : List Byte} {P Q : α → List Byte → Prop}
    (h : Ensures m bs P) (hPQ : ∀ a bs', P a bs' → Q a bs') : Ensures m bs Q :=
  ⟨fun buf hbuf r hr => hPQ _ _ (h.run buf hbuf r hr)⟩

theorem Ensures.of_start {m : Fill cap α} {bs bs' : List Byte} {Q : α → List Byte → Prop}
    (h : Ensures m bs Q) (heq : bs' = bs) : Ensures m bs' Q := heq ▸ h

theorem Yields.then {m : Fill cap α} {f : α → Fill cap β} {bs bs' : List Byte} {a : α}
    {Q : β → List Byte → Prop} (hm : Yields m bs bs' a) (hf : Ensures (f a) bs' Q) :
    Ensures (m >>= f) bs Q := by
  have hm : Ensures m bs fun x xs => x = a ∧ xs = bs' := hm
  apply hm.bind
  rintro x xs ⟨rfl, rfl⟩
  exact hf

theorem yields_pure (bs : List Byte) (a : α) : Yields (pure a : Fill cap α) bs bs a :=
  ensures_pure ⟨rfl, rfl⟩

theorem Yields.bind {m : Fill cap α} {f : α → Fill cap β} {bs₀ bs₁ bs₂ : List Byte} {a : α}
    {b : β} (hm : Yields m bs₀ bs₁ a) (hf : Yields (f a) bs₁ bs₂ b) : Yields (m >>= f) bs₀ bs₂ b :=
  hm.then hf

theorem yields_append (bs new : List Byte) : Yields (append new : Fill cap Unit) bs (bs ++ new) () := by
  constructor
  intro buf hbuf r hr
  rw [append] at hr
  split at hr
  · cases hr
    exact ⟨rfl, congrArg (· ++ new) hbuf⟩
  · cases hr

theorem append_bind_append (bs bs' : List Byte) :
    (append bs >>= fun _ => append bs' : Fill cap Unit) = append (bs ++ bs') := by
  funext buf
  change ((append bs buf).bind fun r => append bs' r.2) = _
  simp only [append]
  by_cases hfits : buf.bytes.length + (bs ++ bs').length ≤ cap
  · rw [dif_pos hfits]
    rw [List.length_append] at hfits
    rw [dif_pos (by omega), Option.bind_some, dif_pos (by rw [List.length_append]; omega)]
    simp only [List.append_assoc]
  · rw [dif_neg hfits]
    rw [List.length_append] at hfits
    by_cases hfirst : buf.bytes.length + bs.length ≤ cap
    · rw [dif_pos hfirst, Option.bind_some, dif_neg (by rw [List.length_append]; omega)]
    · rw [dif_neg hfirst, Option.bind_none]

theorem yields_position (bs : List Byte) : Yields (position : Fill cap Nat) bs bs bs.length := by
  constructor
  intro buf hbuf r hr
  cases hr
  exact ⟨congrArg List.length hbuf, hbuf⟩

theorem yields_position_of {bs : List Byte} {n : Nat} (h : bs.length = n) :
    Yields (position : Fill cap Nat) bs bs n :=
  h ▸ yields_position bs

theorem yields_writeAt (bs new : List Byte) (offset : Nat) :
    Yields (writeAt offset new : Fill cap Unit) bs (patch bs offset new) () := by
  constructor
  intro buf hbuf r hr
  rw [writeAt] at hr
  split at hr
  · cases hr
    exact ⟨rfl, congrArg (patch · offset new) hbuf⟩
  · cases hr

theorem Yields.of_eq {m : Fill cap α} {bs₀ bs₁ bs₂ : List Byte} {a : α} (h : Yields m bs₀ bs₁ a)
    (heq : bs₁ = bs₂) : Yields m bs₀ bs₂ a := heq ▸ h

theorem Ensures.and {m : Fill cap α} {bs : List Byte} {P Q : α → List Byte → Prop}
    (hP : Ensures m bs P) (hQ : Ensures m bs Q) : Ensures m bs fun a bs' => P a bs' ∧ Q a bs' :=
  ⟨fun buf hbuf r hr => ⟨hP.run buf hbuf r hr, hQ.run buf hbuf r hr⟩⟩

def Grows (m : Fill cap α) : Prop := ∀ bs, Ensures m bs fun _ bs' => bs <+: bs'

theorem grows_pure (a : α) : Grows (pure a : Fill cap α) := fun _ => ensures_pure List.prefix_rfl

theorem Grows.bind {m : Fill cap α} {f : α → Fill cap β} (hm : Grows m) (hf : ∀ a, Grows (f a)) :
    Grows (m >>= f) := by
  intro bs
  apply (hm bs).bind
  intro a bs' hbs'
  apply (hf a bs').mono
  intro b bs'' hbs''
  exact hbs'.trans hbs''

theorem grows_append (new : List Byte) : Grows (append new : Fill cap Unit) := by
  intro bs
  apply (yields_append bs new).mono
  rintro _ _ ⟨rfl, rfl⟩
  exact List.prefix_append bs new

theorem grows_position : Grows (position : Fill cap Nat) := by
  intro bs
  apply (yields_position bs).mono
  rintro _ _ ⟨rfl, rfl⟩
  exact List.prefix_rfl

theorem Ensures.build {m : Fill cap α} {Q : α → List Byte → Prop} (h : Ensures m [] Q)
    {r : α × List Byte} (hr : build m = some r) : Q r.1 r.2 ∧ r.2.length ≤ cap := by
  obtain ⟨⟨a, buf⟩, hrun, rfl⟩ := Option.map_eq_some_iff.mp hr
  exact ⟨h.run {} rfl _ hrun, buf.length_le⟩

theorem Yields.build {m : Fill cap α} {bs : List Byte} {a : α} (h : Yields m [] bs a)
    {r : α × List Byte} (hr : build m = some r) : r = (a, bs) ∧ bs.length ≤ cap := by
  obtain ⟨⟨ha, hbs⟩, hlen⟩ := Ensures.build h hr
  exact ⟨Prod.ext ha hbs, hbs ▸ hlen⟩

theorem build_length_le {m : Fill cap α} {r : α × List Byte} (h : build m = some r) :
    r.2.length ≤ cap := by
  obtain ⟨p, -, rfl⟩ := Option.map_eq_some_iff.mp h
  exact p.2.length_le

theorem build_of_bind {m : Fill cap α} {f : α → Fill cap β} {r : β × List Byte}
    (h : build (m >>= f) = some r) : ∃ s, build m = some s := by
  obtain ⟨p, hp, -⟩ := Option.map_eq_some_iff.mp h
  obtain ⟨q, hq, -⟩ := Option.bind_eq_some_iff.mp hp
  exact ⟨(q.1, q.2.bytes), Option.map_eq_some_iff.mpr ⟨q, hq, rfl⟩⟩

theorem build_position_bind (f : Nat → Fill cap β) : build (position >>= f) = build (f 0) := rfl

end Fill

end X86Assembler
