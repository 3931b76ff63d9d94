import X86Assembler.FixupResolution

namespace X86Assembler

open CString (Byte)
open Fallible (each)
open LittleEndian (leBytes ofLeBytes slice patch)

def Fixup.asked (f : Fixup) (target : Word) : Int :=
  if f.isRipRelative || isControlflow f.instructionType then
    target.toInt - (f.location.toInt + f.size)
  else target.toInt

/-- The asked number and the signed addend that stands in the field. -/
def Fixup.wanted (f : Fixup) (base target : Word) (text : List Byte) : Int :=
  f.asked target + (addend text (f.offset base) f.size).toInt

/-- A field of eight bytes takes every number, a shorter one the signed numbers of its width. -/
def FitsField (size : Nat) (v : Int) : Prop :=
  size = 8 ∨ -2 ^ (8 * size - 1) ≤ v ∧ v < 2 ^ (8 * size - 1)

/-- The fixups have a size that is written, and lie apart from each other in the text. -/
structure Placed (base : Word) (text : Nat) (fs : List Fixup) : Prop where
  sized : ∀ f ∈ fs, f.size = 1 ∨ f.size = 4 ∨ f.size = 8
  inText : ∀ f ∈ fs, f.offset base + f.size ≤ text
  apart : fs.Pairwise fun f g =>
    f.offset base + f.size ≤ g.offset base ∨ g.offset base + g.size ≤ f.offset base

structure SmallAddresses (ctx : AssemblerContext) (fs : List Fixup) : Prop where
  location : ∀ f ∈ fs, |f.location.toInt| < 2 ^ 62
  target : ∀ f ∈ fs, ∀ target, findSymbolAddress ctx f.label = some target →
    |target.toInt| < 2 ^ 62

theorem Placed.tail {base : Word} {text : Nat} {f : Fixup} {fs : List Fixup}
    (h : Placed base text (f :: fs)) : Placed base text fs where
  sized := fun g hg => h.sized g (List.mem_cons_of_mem _ hg)
  inText := fun g hg => h.inText g (List.mem_cons_of_mem _ hg)
  apart := (List.pairwise_cons.mp h.apart).2

theorem SmallAddresses.tail {ctx : AssemblerContext} {f : Fixup} {fs : List Fixup}
    (h : SmallAddresses ctx (f :: fs)) : SmallAddresses ctx fs where
  location := fun g hg => h.location g (List.mem_cons_of_mem _ hg)
  target := fun g hg => h.target g (List.mem_cons_of_mem _ hg)

theorem fixupBytes_eq {size : Nat} (h : size = 1 ∨ size = 4 ∨ size = 8) (v : Word) :
    fixupBytes v size = leBytes size v := by
  rcases h with rfl | rfl | rfl <;> rfl

theorem value_eq_ofInt (f : Fixup) (target : Word) :
    f.value target = BitVec.ofInt 64 (f.asked target) := by
  rw [Fixup.value, Fixup.asked]
  split
  · rw [Int.sub_eq_add_neg, BitVec.ofInt_add, BitVec.ofInt_neg, BitVec.ofInt_add, BitVec.ofInt_toInt,
      BitVec.ofInt_toInt, BitVec.ofInt_natCast, BitVec.sub_eq_add_neg]
  · rw [BitVec.ofInt_toInt]

theorem stored_eq_ofInt (f : Fixup) (base target : Word) (text : List Byte) :
    f.value target + addend text (f.offset base) f.size =
      BitVec.ofInt 64 (f.wanted base target text) := by
  rw [Fixup.wanted, BitVec.ofInt_add, BitVec.ofInt_toInt, value_eq_ofInt]

theorem addend_toInt_one (text : List Byte) (offset : Nat) :
    -2 ^ 7 ≤ (addend text offset 1).toInt ∧ (addend text offset 1).toInt < 2 ^ 7 := by
  have hext := BitVec.toInt_signExtend_of_le (x := ofLeBytes 8 (slice text offset 1))
    (by decide : 8 ≤ 64)
  have hlo := BitVec.le_toInt (ofLeBytes 8 (slice text offset 1))
  have hhi := BitVec.toInt_lt (x := ofLeBytes 8 (slice text offset 1))
  rw [addend, hext]
  omega

theorem addend_toInt_four (text : List Byte) (offset : Nat) :
    -2 ^ 31 ≤ (addend text offset 4).toInt ∧ (addend text offset 4).toInt < 2 ^ 31 := by
  have hext := BitVec.toInt_signExtend_of_le (x := ofLeBytes 32 (slice text offset 4))
    (by decide : 32 ≤ 64)
  have hlo := BitVec.le_toInt (ofLeBytes 32 (slice text offset 4))
  have hhi := BitVec.toInt_lt (x := ofLeBytes 32 (slice text offset 4))
  rw [addend, hext]
  omega

/-- A number that is not much larger than a signed word fits in four bytes only as itself: its
remainder is larger than four bytes when it is not the number. -/
theorem toInt_ofInt_bounds {v : Int} {n : Int} (hlo : -2 ^ 63 - 2 ^ 33 < v) (hhi : v < 2 ^ 63 + 2 ^ 33)
    (hn : n ≤ 2 ^ 31) :
    (-n ≤ (BitVec.ofInt 64 v).toInt ∧ (BitVec.ofInt 64 v).toInt < n) ↔ (-n ≤ v ∧ v < n) := by
  have hpow : ((2 ^ 64 : Nat) : Int) = 18446744073709551616 := rfl
  rw [BitVec.toInt_ofInt, Int.bmod_def, hpow]
  split <;> omega

theorem fitsFixup_ofInt {size : Nat} {v : Int} (h : size = 1 ∨ size = 4 ∨ size = 8)
    (hv : size ≠ 8 → -2 ^ 63 - 2 ^ 33 < v ∧ v < 2 ^ 63 + 2 ^ 33) :
    fitsFixup (BitVec.ofInt 64 v) size = true ↔ FitsField size v := by
  rcases h with rfl | rfl | rfl
  · obtain ⟨hlo, hhi⟩ := hv (by decide)
    have h := @toInt_ofInt_bounds v 128 hlo hhi (by decide)
    simp only [fitsFixup, FitsField, Bool.and_eq_true, decide_eq_true_eq]
    omega
  · obtain ⟨hlo, hhi⟩ := hv (by decide)
    have h := @toInt_ofInt_bounds v 2147483648 hlo hhi (by decide)
    simp only [fitsFixup, FitsField, Bool.and_eq_true, decide_eq_true_eq]
    omega
  · exact ⟨fun _ => .inl rfl, fun _ => rfl⟩

theorem wanted_bounds {f : Fixup} {base target : Word} {text : List Byte}
    (hsize : f.size = 1 ∨ f.size = 4 ∨ f.size = 8) (hlocation : |f.location.toInt| < 2 ^ 62)
    (htarget : |target.toInt| < 2 ^ 62) (h : f.size ≠ 8) :
    -2 ^ 63 - 2 ^ 33 < f.wanted base target text ∧ f.wanted base target text < 2 ^ 63 + 2 ^ 33 := by
  obtain ⟨hl₁, hl₂⟩ := abs_lt.mp hlocation
  obtain ⟨ht₁, ht₂⟩ := abs_lt.mp htarget
  have hadd : -2 ^ 31 ≤ (addend text (f.offset base) f.size).toInt ∧
      (addend text (f.offset base) f.size).toInt < 2 ^ 31 := by
    rcases hsize with hs | hs | hs
    · have := addend_toInt_one text (f.offset base)
      rw [hs]
      omega
    · rw [hs]
      exact addend_toInt_four text _
    · exact absurd hs h
  rw [Fixup.wanted, Fixup.asked]
  split <;> omega

def Unresolvable (ctx : AssemblerContext) (f : Fixup) : Prop :=
  findSymbolAddress ctx f.label = none ∨ ∃ target, findSymbolAddress ctx f.label = some target ∧
    ¬ FitsField f.size (f.wanted ctx.baseAddress target ctx.textSection)

/-- One fixup: it fails when nothing can be stored, and changes its own field alone otherwise. -/
theorem resolveFixup_cases {f : Fixup} {ctx : AssemblerContext}
    (hsize : f.size = 1 ∨ f.size = 4 ∨ f.size = 8)
    (hin : f.offset ctx.baseAddress + f.size ≤ ctx.textSection.length)
    (hlocation : |f.location.toInt| < 2 ^ 62)
    (htarget : ∀ target, findSymbolAddress ctx f.label = some target → |target.toInt| < 2 ^ 62) :
    (Unresolvable ctx f ∧ (resolveFixup f ctx).1 = none) ∨
    ∃ target, findSymbolAddress ctx f.label = some target ∧
      FitsField f.size (f.wanted ctx.baseAddress target ctx.textSection) ∧
      resolveFixup f ctx = (some (), { ctx with
        textSection := patch ctx.textSection (f.offset ctx.baseAddress)
          (leBytes f.size
            (BitVec.ofInt 64 (f.wanted ctx.baseAddress target ctx.textSection))) }) := by
  have hbound : ¬ ctx.textSection.length <
      (f.location - ctx.baseAddress + BitVec.ofNat 64 f.size).toNat := by
    rw [BitVec.toNat_add]
    have hmod := Nat.mod_le ((f.location - ctx.baseAddress).toNat + (BitVec.ofNat 64 f.size).toNat)
      (2 ^ 64)
    have hs : (BitVec.ofNat 64 f.size).toNat = f.size :=
      Nat.mod_eq_of_lt (by omega)
    rw [Fixup.offset] at hin
    omega
  rw [resolveFixup]
  cases hfind : findSymbolAddress ctx f.label with
  | none => exact .inl ⟨.inl hfind, rfl⟩
  | some target =>
      have hfits := @fitsFixup_ofInt f.size (f.wanted ctx.baseAddress target ctx.textSection) hsize
        (wanted_bounds hsize hlocation (htarget target hfind))
      have hstored := stored_eq_ofInt f ctx.baseAddress target ctx.textSection
      rw [Fixup.offset] at hstored
      simp only [if_neg hbound, hstored, fixupBytes_eq hsize]
      by_cases h : FitsField f.size (f.wanted ctx.baseAddress target ctx.textSection)
      · rw [if_pos (hfits.mpr h)]
        exact .inr ⟨target, rfl, h, rfl⟩
      · rw [if_neg (mt hfits.mp h)]
        exact .inl ⟨.inr ⟨target, hfind, h⟩, rfl⟩

/-- What resolving fixups that lie apart does to the text. -/
structure Patched (fs : List Fixup) (ctx ctx' : AssemblerContext) : Prop where
  same : ctx' = { ctx with textSection := ctx'.textSection }
  length : ctx'.textSection.length = ctx.textSection.length
  outside : ∀ i : Nat, (∀ f ∈ fs, i < f.offset ctx.baseAddress ∨
    f.offset ctx.baseAddress + f.size ≤ i) → ctx'.textSection[i]? = ctx.textSection[i]?
  field : ∀ f ∈ fs, ∃ target, findSymbolAddress ctx f.label = some target ∧
    FitsField f.size (f.wanted ctx.baseAddress target ctx.textSection) ∧
    slice ctx'.textSection (f.offset ctx.baseAddress) f.size =
      leBytes f.size (BitVec.ofInt 64 (f.wanted ctx.baseAddress target ctx.textSection))

theorem addend_congr {bs bs' : List Byte} {i n : Nat} (h : slice bs i n = slice bs' i n) :
    addend bs i n = addend bs' i n := by
  unfold addend
  split <;> first
    | rw [h]
    | rfl

theorem wanted_congr {f : Fixup} {base target : Word} {text text' : List Byte}
    (h : slice text (f.offset base) f.size = slice text' (f.offset base) f.size) :
    f.wanted base target text = f.wanted base target text' := by
  rw [Fixup.wanted, Fixup.wanted, addend_congr h]

section Step

variable {f : Fixup} {fs : List Fixup} {ctx : AssemblerContext} {new : List Byte}
  (hnew : new.length = f.size) (hp : Placed ctx.baseAddress ctx.textSection.length (f :: fs))

include hnew hp

theorem inText_new : f.offset ctx.baseAddress + new.length ≤ ctx.textSection.length := by
  rw [hnew]
  exact hp.inText f List.mem_cons_self

theorem slice_patched {g : Fixup} (hg : g ∈ fs) :
    slice (patch ctx.textSection (f.offset ctx.baseAddress) new) (g.offset ctx.baseAddress) g.size =
      slice ctx.textSection (g.offset ctx.baseAddress) g.size := by
  refine LittleEndian.slice_patch_disjoint (inText_new hnew hp) ?_
  rw [hnew]
  exact ((List.pairwise_cons.mp hp.apart).1 g hg).symm

theorem wanted_patched {g : Fixup} (hg : g ∈ fs) (target : Word) :
    g.wanted ctx.baseAddress target (patch ctx.textSection (f.offset ctx.baseAddress) new) =
      g.wanted ctx.baseAddress target ctx.textSection :=
  wanted_congr (slice_patched hnew hp hg)

theorem unresolvable_patched {g : Fixup} (hg : g ∈ fs) :
    Unresolvable { ctx with
      textSection := patch ctx.textSection (f.offset ctx.baseAddress) new } g ↔
      Unresolvable ctx g := by
  simp only [Unresolvable, wanted_patched hnew hp hg]
  exact Iff.rfl

theorem placed_patched : Placed ctx.baseAddress
    (patch ctx.textSection (f.offset ctx.baseAddress) new).length fs := by
  rw [LittleEndian.patch_length (inText_new hnew hp)]
  exact hp.tail

end Step

theorem resolves_fields {fs : List Fixup} {ctx : AssemblerContext}
    (hp : Placed ctx.baseAddress ctx.textSection.length fs) (hb : SmallAddresses ctx fs) :
    ((∃ f ∈ fs, Unresolvable ctx f) ∧ (each resolveFixup fs ctx).1 = none) ∨
    ∃ ctx', each resolveFixup fs ctx = (some (), ctx') ∧ Patched fs ctx ctx' := by
  induction fs generalizing ctx with
  | nil =>
      exact .inr ⟨ctx, rfl, rfl, rfl, fun _ _ => rfl, List.forall_mem_nil _⟩
  | cons f fs ih =>
      have hmem : f ∈ f :: fs := List.mem_cons_self
      rcases resolveFixup_cases (hp.sized f hmem) (hp.inText f hmem) (hb.location f hmem)
        (hb.target f hmem) with ⟨hun, hnone⟩ | ⟨target, htarget, hfits, hone⟩
      · refine .inl ⟨⟨f, hmem, hun⟩, ?_⟩
        rw [each, Fallible.bind_run]
        cases hr : resolveFixup f ctx with
        | mk r ctx₁ =>
            rw [hr] at hnone
            cases hnone
            rfl
      · have hnew := LittleEndian.leBytes_length f.size
          (BitVec.ofInt 64 (f.wanted ctx.baseAddress target ctx.textSection))
        have hin := inText_new hnew hp
        have hb' : SmallAddresses { ctx with
            textSection := patch ctx.textSection (f.offset ctx.baseAddress)
              (leBytes f.size
                (BitVec.ofInt 64 (f.wanted ctx.baseAddress target ctx.textSection))) } fs :=
          ⟨hb.tail.location, hb.tail.target⟩
        have hrun : each resolveFixup (f :: fs) ctx = each resolveFixup fs { ctx with
            textSection := patch ctx.textSection (f.offset ctx.baseAddress)
              (leBytes f.size
                (BitVec.ofInt 64 (f.wanted ctx.baseAddress target ctx.textSection))) } := by
          rw [each, Fallible.bind_run, hone]
        rw [hrun]
        rcases ih (placed_patched hnew hp) hb' with ⟨⟨g, hg, hun⟩, hnone⟩ | ⟨ctx', hrest, hpat⟩
        · exact .inl ⟨⟨g, List.mem_cons_of_mem _ hg, (unresolvable_patched hnew hp hg).mp hun⟩, hnone⟩
        · refine .inr ⟨ctx', hrest, hpat.same,
            hpat.length.trans (LittleEndian.patch_length hin), ?_, ?_⟩
          · intro i hi
            rw [hpat.outside i fun g hg => hi g (List.mem_cons_of_mem _ hg)]
            refine LittleEndian.getElem?_patch_of_notMem hin ?_
            rw [hnew]
            exact hi f hmem
          · intro g hg
            rcases List.mem_cons.mp hg with rfl | hg
            · refine ⟨target, htarget, hfits, ?_⟩
              have hsame := LittleEndian.slice_patch_same hin
              rw [hnew] at hsame
              rw [← hsame]
              apply LittleEndian.slice_congr
              intro j hlo hhi
              apply hpat.outside
              intro g' hg'
              rcases (List.pairwise_cons.mp hp.apart).1 g' hg' with h | h
              · exact .inl (Nat.lt_of_lt_of_le hhi h)
              · exact .inr (Nat.le_trans h hlo)
            · obtain ⟨target', htarget', hfits', hslice⟩ := hpat.field g hg
              simp only [wanted_patched hnew hp hg] at hfits' hslice
              exact ⟨target', htarget', hfits', hslice⟩

/-- Resolving the fixups of a context: nothing but the fields changes, each field holds the asked
number and the addend that stood there, and it fails exactly when a label is unknown or a number
does not fit. -/
theorem resolveFixups_fields {ctx : AssemblerContext}
    (hp : Placed ctx.baseAddress ctx.textSection.length ctx.fixups)
    (hb : SmallAddresses ctx ctx.fixups) :
    (∀ ctx', resolveFixups ctx = (some (), ctx') → Patched ctx.fixups ctx ctx') ∧
    ((resolveFixups ctx).1 = none ↔ ∃ f ∈ ctx.fixups, Unresolvable ctx f) := by
  have hrun : resolveFixups ctx = each resolveFixup ctx.fixups ctx := rfl
  rw [hrun]
  rcases resolves_fields hp hb with ⟨hun, hnone⟩ | ⟨ctx', hr, hpat⟩
  · refine ⟨?_, fun _ => hun, fun _ => hnone⟩
    intro ctx' h
    rw [h] at hnone
    cases hnone
  · refine ⟨?_, ?_, ?_⟩
    · intro ctx'' h
      rw [hr] at h
      cases h
      exact hpat
    · intro h
      rw [hr] at h
      cases h
    · rintro ⟨f, hf, hun⟩
      obtain ⟨target, htarget, hfits, -⟩ := hpat.field f hf
      rcases hun with hnone | ⟨target', htarget', hnot⟩
      · rw [htarget] at hnone
        cases hnone
      · rw [htarget] at htarget'
        cases htarget'
        exact absurd hfits hnot

/-- A call of the address before the buffer and, behind it, an absolute address with an addend. -/
def callAndPointer : AssemblerContext :=
  { symbolHashInsert {} (CString.lit _ "f") 0x3FFFF0 false false (some .text) with
    textSection := [0xE8, 0, 0, 0, 0, 2, 0, 0, 0, 0, 0, 0, 0]
    fixups := [⟨CString.lit _ "f", 0x400001, 4, .call, false⟩,
      ⟨CString.lit _ "f", 0x400005, 8, .mov, false⟩] }

theorem resolveFixups_fields_callAndPointer :
    (∀ ctx', resolveFixups callAndPointer = (some (), ctx') →
      Patched callAndPointer.fixups callAndPointer ctx') ∧
    ((resolveFixups callAndPointer).1 = none ↔
      ∃ f ∈ callAndPointer.fixups, Unresolvable callAndPointer f) := by
  have hfind : findSymbolAddress callAndPointer (CString.lit _ "f") = some 0x3FFFF0 := by
    decide +kernel
  apply resolveFixups_fields
  · constructor <;> decide +kernel
  · constructor
    · decide +kernel
    · intro f hf target htarget
      have hlabel : f.label = CString.lit _ "f" := by
        rcases List.mem_pair.mp hf with rfl | rfl <;> rfl
      rw [hlabel, hfind] at htarget
      cases htarget
      decide +kernel

end X86Assembler
