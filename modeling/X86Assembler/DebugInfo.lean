import X86Assembler.LineProgram
import X86Assembler.Library.DwarfInfo

namespace X86Assembler

open CString (Byte str)
open LittleEndian
open Leb128
open Fill
open DwarfInfo

def HasString (bs : List Byte) (off : Nat) (s : List Byte) : Prop := s ++ [0] <+: bs.drop off

theorem HasString.append {bs s : List Byte} {off : Nat} (h : HasString bs off s) (more : List Byte) :
    HasString (bs ++ more) off s := by
  rw [HasString, List.drop_append]
  exact h.trans (List.prefix_append _ _)

theorem HasString.mono {bs bs' s : List Byte} {off : Nat} (h : HasString bs off s)
    (hbs : bs <+: bs') : HasString bs' off s := by
  obtain ⟨more, rfl⟩ := hbs
  exact h.append more

theorem hasString_end (bs s : List Byte) : HasString (bs ++ (s ++ [0])) bs.length s := by
  have hdrop : (bs ++ (s ++ [0])).drop bs.length = s ++ [0] := List.drop_left
  unfold HasString
  exact hdrop.symm ▸ List.prefix_rfl

theorem HasString.lt {bs s : List Byte} {off : Nat} (h : HasString bs off s) : off < bs.length := by
  have hlen := h.length_le
  rw [List.length_append, List.length_drop, List.length_singleton] at hlen
  omega

theorem HasString.stringAt {bs s : List Byte} {off : Nat} (h : HasString bs off s) (h0 : 0 ∉ s) :
    stringAt bs off = s := by
  obtain ⟨rest, hrest⟩ := h
  have hs : ∀ b ∈ s, (b != 0) = true := by
    intro b hb
    have hne : b ≠ 0 := fun hzero => h0 (hzero ▸ hb)
    simpa using hne
  rw [DwarfInfo.stringAt, ← hrest, CString.untilNul, List.append_assoc,
    List.takeWhile_append_of_pos hs, List.singleton_append, List.takeWhile_cons_of_neg (by simp),
    List.append_nil]

section

variable (ctx : OutputContext)

/-- Each offset that is set is that of the name of its symbol. -/
def NamesSymbols (ix : SymbolIndexes) (bs : List Byte) : Prop :=
  ∀ j v, ix.symbolStrOff j = some v → ∃ sym off, ctx.symbols[j]? = some sym ∧
    v = BitVec.ofNat 32 off ∧ HasString bs off sym.name.bytes

/-- The indexes of a list of symbols that have a property, counted from a number. -/
def indicesFrom (p : Symbol → Bool) : Nat → List Symbol → List Nat
  | _, [] => []
  | i, sym :: syms => if p sym then i :: indicesFrom p (i + 1) syms else indicesFrom p (i + 1) syms

variable {ctx}

theorem NamesSymbols.append {ix : SymbolIndexes} {bs : List Byte} (h : NamesSymbols ctx ix bs)
    (more : List Byte) : NamesSymbols ctx ix (bs ++ more) := by
  intro j v hj
  obtain ⟨sym, off, hsym, hv, hstr⟩ := h j v hj
  exact ⟨sym, off, hsym, hv, hstr.append more⟩

theorem drop_cons {α : Type} {l xs : List α} {x : α} {i : Nat} (h : l.drop i = x :: xs) :
    l[i]? = some x ∧ l.drop (i + 1) = xs := by
  constructor
  · rw [← List.head?_drop, h, List.head?_cons]
  · rw [← List.drop_drop, h, List.drop_one, List.tail_cons]

theorem indices_symbols {p : Symbol → Bool} {i : Nat} {syms l : List Symbol}
    (h : l.drop i = syms) : (indicesFrom p i syms).filterMap (l[·]?) = syms.filter p := by
  induction syms generalizing i with
  | nil => rfl
  | cons sym syms ih =>
      obtain ⟨hget, hrest⟩ := drop_cons h
      rw [indicesFrom, List.filter_cons]
      split
      · rw [List.filterMap_cons_some hget, ih hrest]
      · exact ih hrest

theorem yields_string {cap : Nat} (s bs : List Byte) :
    Yields (appendStringAt s : Fill cap (BitVec 32)) bs (bs ++ (s ++ [0]))
      (BitVec.ofNat 32 bs.length) :=
  (yields_position _).bind ((yields_append _ _).bind (yields_pure _ _))

theorem ensures_appendSymbolName {i : Nat} {sym : Symbol} {ix : SymbolIndexes} {bs : List Byte}
    (hnamed : NamesSymbols ctx ix bs) (hi : ctx.symbols[i]? = some sym) :
    Ensures (appendSymbolName i sym ix) bs fun ix' bs' => NamesSymbols ctx ix' bs' ∧
      ix'.functions = ix.functions ∧ ix'.labels = ix.labels ∧ (ix'.symbolStrOff i).isSome ∧
        ∀ j, (ix.symbolStrOff j).isSome → (ix'.symbolStrOff j).isSome := by
  rw [appendSymbolName]
  split
  · next hsome => exact ensures_pure ⟨hnamed, rfl, rfl, hsome, fun _ h => h⟩
  · apply (yields_position bs).then
    apply (yields_append bs (sym.name.bytes ++ [0])).then
    apply ensures_pure
    refine ⟨?_, rfl, rfl, by simp, ?_⟩
    · intro j v hj
      dsimp only at hj
      split at hj
      · next heq =>
          cases hj
          exact ⟨sym, bs.length, heq ▸ hi, rfl, hasString_end bs _⟩
      · exact hnamed.append _ j v hj
    · intro j hj
      dsimp only
      split
      · rfl
      · exact hj

theorem ensures_indexSymbols {i : Nat} {syms : List Symbol} (hsyms : ctx.symbols.drop i = syms)
    {ix : SymbolIndexes} {bs : List Byte} (hnamed : NamesSymbols ctx ix bs)
    (hknown : ∀ j ∈ ix.functions ++ ix.labels, (ix.symbolStrOff j).isSome) :
    Ensures (indexSymbols ctx i syms ix) bs fun ix' bs' => NamesSymbols ctx ix' bs' ∧
      ix'.functions = ix.functions ++
        indicesFrom (fun sym => ctx.hasDie sym && sym.isFunction) i syms ∧
      ix'.labels = ix.labels ++
        indicesFrom (fun sym => ctx.hasDie sym && !sym.isFunction) i syms ∧
      ∀ j ∈ ix'.functions ++ ix'.labels, (ix'.symbolStrOff j).isSome := by
  induction syms generalizing i ix bs with
  | nil =>
      apply ensures_pure
      refine ⟨hnamed, ?_, ?_, hknown⟩
      · rw [indicesFrom, List.append_nil]
      · rw [indicesFrom, List.append_nil]
  | cons sym syms ih =>
      obtain ⟨hget, hrest⟩ := drop_cons hsyms
      rw [indexSymbols]
      by_cases hdie : ctx.hasDie sym = true
      · rw [if_pos hdie]
        apply (ensures_appendSymbolName hnamed hget).bind
        rintro ix₁ bs₁ ⟨hnamed₁, hfun₁, hlab₁, hsome, hkeep⟩
        have hknown₁ : ∀ j ∈ ix₁.functions ++ ix₁.labels, (ix₁.symbolStrOff j).isSome := by
          rw [hfun₁, hlab₁]
          exact fun j hj => hkeep j (hknown j hj)
        cases hfn : sym.isFunction with
        | true =>
            apply (@ih (i + 1) hrest { ix₁ with functions := ix₁.functions ++ [i] } bs₁ hnamed₁ ?_).mono
            · rintro ix₂ bs₂ ⟨h₁, h₂, h₃, h₄⟩
              refine ⟨h₁, ?_, ?_, h₄⟩
              · rw [h₂, indicesFrom, if_pos (by simp [hdie, hfn]), hfun₁, List.append_assoc,
                  List.singleton_append]
              · rw [h₃, indicesFrom, if_neg (by simp [hfn]), hlab₁]
            · intro j hj
              simp only [List.mem_append, List.mem_singleton] at hj
              rcases hj with (hj | rfl) | hj
              · exact hknown₁ j (List.mem_append_left _ hj)
              · exact hsome
              · exact hknown₁ j (List.mem_append_right _ hj)
        | false =>
            apply (@ih (i + 1) hrest { ix₁ with labels := ix₁.labels ++ [i] } bs₁ hnamed₁ ?_).mono
            · rintro ix₂ bs₂ ⟨h₁, h₂, h₃, h₄⟩
              refine ⟨h₁, ?_, ?_, h₄⟩
              · rw [h₂, indicesFrom, if_neg (by simp [hfn]), hfun₁]
              · rw [h₃, indicesFrom, if_pos (by simp [hdie, hfn]), hlab₁, List.append_assoc,
                  List.singleton_append]
            · intro j hj
              simp only [List.mem_append, List.mem_singleton] at hj
              rcases hj with hj | hj | rfl
              · exact hknown₁ j (List.mem_append_left _ hj)
              · exact hknown₁ j (List.mem_append_right _ hj)
              · exact hsome
      · rw [if_neg hdie]
        apply (ih hrest hnamed hknown).mono
        rintro ix₂ bs₂ ⟨h₁, h₂, h₃, h₄⟩
        refine ⟨h₁, ?_, ?_, h₄⟩
        · rw [h₂, indicesFrom, if_neg (by simp [hdie])]
        · rw [h₃, indicesFrom, if_neg (by simp [hdie])]

/-- The symbols with a DIE that are functions, or are not. -/
def functionIndices (ctx : OutputContext) : List Nat :=
  indicesFrom (fun sym => ctx.hasDie sym && sym.isFunction) 0 ctx.symbols

def labelIndices (ctx : OutputContext) : List Nat :=
  indicesFrom (fun sym => ctx.hasDie sym && !sym.isFunction) 0 ctx.symbols

/-- The first text symbol `_start`. -/
def startIndex (ctx : OutputContext) : Option Nat :=
  ctx.symbols.findIdx? fun sym => sym.sect == some .text && sym.name.bytes == str "_start"

def subprogramIndices (ctx : OutputContext) : List Nat :=
  if functionIndices ctx = [] then (startIndex ctx).toList else functionIndices ctx

theorem ensures_indexStart {ix : SymbolIndexes} {bs : List Byte} (hnamed : NamesSymbols ctx ix bs)
    (hknown : ∀ j ∈ ix.functions ++ ix.labels, (ix.symbolStrOff j).isSome) :
    Ensures (indexStart ctx ix) bs fun ix' bs' => NamesSymbols ctx ix' bs' ∧
      ix'.functions = (if ix.functions = [] then (startIndex ctx).toList else ix.functions) ∧
      ix'.labels = ix.labels ∧ ∀ j ∈ ix'.functions ++ ix'.labels, (ix'.symbolStrOff j).isSome := by
  rw [indexStart]
  by_cases hnil : ix.functions = []
  · rw [if_pos hnil, if_pos hnil]
    have hlabels : ∀ j ∈ ix.labels, (ix.symbolStrOff j).isSome :=
      fun j hj => hknown j (List.mem_append_right _ hj)
    cases hstart : startIndex ctx with
    | none =>
        rw [startIndex] at hstart
        simp only [hstart]
        apply ensures_pure
        refine ⟨hnamed, by rw [hnil]; rfl, rfl, ?_⟩
        rw [hnil, List.nil_append]
        exact hlabels
    | some i =>
        rw [startIndex] at hstart
        obtain ⟨hlt, -, -⟩ := List.findIdx?_eq_some_iff_getElem.mp hstart
        have hget := List.getElem?_eq_getElem hlt
        simp only [hstart, hget]
        have hnamed' : NamesSymbols ctx { ix with functions := [i] } bs := hnamed
        apply (ensures_appendSymbolName hnamed' hget).mono
        rintro ix' bs' ⟨h₁, h₂, h₃, h₄, h₅⟩
        refine ⟨h₁, h₂, h₃, ?_⟩
        rw [h₂, h₃]
        intro j hj
        rcases List.mem_cons.mp hj with rfl | hj
        · exact h₄
        · exact h₅ j (hlabels j hj)
  · rw [if_neg hnil, if_neg hnil]
    exact ensures_pure ⟨hnamed, rfl, rfl, hknown⟩

theorem grows_appendSymbolName (i : Nat) (sym : Symbol) (ix : SymbolIndexes) :
    Grows (appendSymbolName i sym ix) := by
  rw [appendSymbolName]
  split
  · exact grows_pure ix
  · apply grows_position.bind
    intro off
    apply (grows_append _).bind
    intro
    exact grows_pure _

theorem grows_indexSymbols (i : Nat) (syms : List Symbol) (ix : SymbolIndexes) :
    Grows (indexSymbols ctx i syms ix) := by
  induction syms generalizing i ix with
  | nil => exact grows_pure ix
  | cons sym syms ih =>
      rw [indexSymbols]
      split
      · apply (grows_appendSymbolName i sym ix).bind
        intro ix'
        exact ih _ _
      · exact ih _ _

theorem grows_indexStart (ix : SymbolIndexes) : Grows (indexStart ctx ix) := by
  rw [indexStart]
  split
  · split
    · dsimp only
      split
      · exact grows_appendSymbolName _ _ _
      · exact grows_pure _
    · exact grows_pure _
  · exact grows_pure _

def NamesString (bs : List Byte) (v : BitVec 32) (s : List Byte) : Prop :=
  ∃ off, v = BitVec.ofNat 32 off ∧ HasString bs off s

structure FixedStrings (ctx : OutputContext) (off : StringOffsets) (bs : List Byte) : Prop where
  producer : NamesString bs off.producer (str "x86_64-asm")
  name : NamesString bs off.name ctx.sourceName
  compDir : NamesString bs off.compDir (pathDirname ctx.sourceName)
  typeU64 : NamesString bs off.typeU64 (str "u64")
  typeU64Ptr : NamesString bs off.typeU64Ptr (str "u64*")

/-- What `.debug_str` holds, and the order of the DIEs. -/
structure StringsRight (ctx : OutputContext) (off : StringOffsets) (bs : List Byte) : Prop
    extends FixedStrings ctx off bs where
  named : NamesSymbols ctx off.symbols bs
  functions : off.symbols.functions = ExchangeSort.sort ctx.sortKey (subprogramIndices ctx)
  labels : off.symbols.labels = ExchangeSort.sort ctx.sortKey (labelIndices ctx)
  known : ∀ j ∈ subprogramIndices ctx ++ labelIndices ctx, (off.symbols.symbolStrOff j).isSome

theorem ensures_symbolIndexes (bs : List Byte) :
    Ensures (do
      let ix ← indexSymbols ctx 0 ctx.symbols {}
      indexStart ctx ix) bs fun ix bs' => NamesSymbols ctx ix bs' ∧
        ix.functions = subprogramIndices ctx ∧ ix.labels = labelIndices ctx ∧
          ∀ j ∈ ix.functions ++ ix.labels, (ix.symbolStrOff j).isSome := by
  have hnone : NamesSymbols ctx {} bs := by
    intro j v hj
    cases hj
  have hdrop : ctx.symbols.drop 0 = ctx.symbols := rfl
  apply (ensures_indexSymbols hdrop hnone (by simp)).bind
  rintro ix bs' ⟨hnamed, hfun, hlab, hknown⟩
  apply (ensures_indexStart hnamed hknown).mono
  rintro ix' bs'' ⟨hnamed', hfun', hlab', hknown'⟩
  rw [hfun] at hfun'
  rw [hlab] at hlab'
  exact ⟨hnamed', hfun', hlab', hknown'⟩

theorem grows_symbolIndexes : Grows (do
    let ix ← indexSymbols ctx 0 ctx.symbols {}
    indexStart ctx ix) := by
  apply (grows_indexSymbols _ _ _).bind
  intro ix
  exact grows_indexStart ix

theorem ensures_debugStr (ctx : OutputContext) :
    Ensures (debugStr ctx) [] (StringsRight ctx) := by
  apply (yields_string _ _).then
  apply (yields_string _ _).then
  apply (yields_string _ _).then
  apply (yields_string _ _).then
  apply (yields_string _ _).then
  rw [← bind_assoc]
  apply ((ensures_symbolIndexes _).and (grows_symbolIndexes _)).bind
  rintro ix bs ⟨⟨hnamed, hfun, hlab, hknown⟩, hgrow⟩
  apply ensures_pure
  constructor
  · constructor
    · exact ⟨_, rfl, (((((hasString_end _ _).append _).append _).append _).append _).mono hgrow⟩
    · exact ⟨_, rfl, ((((hasString_end _ _).append _).append _).append _).mono hgrow⟩
    · exact ⟨_, rfl, (((hasString_end _ _).append _).append _).mono hgrow⟩
    · exact ⟨_, rfl, ((hasString_end _ _).append _).mono hgrow⟩
    · exact ⟨_, rfl, (hasString_end _ _).mono hgrow⟩
  · exact hnamed
  · rw [← hfun]
  · rw [← hlab]
  · rw [← hfun, ← hlab]
    exact hknown

end

def abbrevDecls : List AbbrevDecl := [
  ⟨1, 0x11, true, [(0x25, 0x0E), (0x13, 0x05), (0x03, 0x0E), (0x1B, 0x0E), (0x10, 0x17),
    (0x11, 0x01), (0x12, 0x07)]⟩,
  ⟨2, 0x24, false, [(0x03, 0x0E), (0x3E, 0x0B), (0x0B, 0x0B)]⟩,
  ⟨3, 0x0F, false, [(0x03, 0x0E), (0x0B, 0x0B), (0x49, 0x13)]⟩,
  ⟨4, 0x2E, true, [(0x03, 0x0E), (0x3A, 0x0B), (0x3B, 0x0F), (0x39, 0x0F), (0x3F, 0x0C),
    (0x11, 0x01), (0x12, 0x07), (0x49, 0x13)]⟩,
  ⟨5, 0x0B, false, [(0x11, 0x01), (0x12, 0x07)]⟩,
  ⟨6, 0x0A, false, [(0x03, 0x0E), (0x3A, 0x0B), (0x3B, 0x0F), (0x39, 0x0F), (0x11, 0x01)]⟩]

theorem readDecls_debugAbbrev {bs : List Byte} (h : build debugAbbrev = some ((), bs)) :
    readDecls bs = some abbrevDecls := by
  have hread : (build debugAbbrev).map (fun r => readDecls r.2) = some (some abbrevDecls) := by
    decide +kernel
  rw [h] at hread
  exact Option.some.inj hread

end X86Assembler
