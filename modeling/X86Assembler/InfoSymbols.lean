import X86Assembler.InfoUnit

namespace X86Assembler

open CString (Byte str)
open LittleEndian
open Leb128
open Fill
open DwarfInfo

def Symbol.isDefinedText (sym : Symbol) : Bool :=
  sym.isResolved && !sym.isExternal && sym.sect == some .text

def Symbol.isStart (sym : Symbol) : Bool := sym.sect == some .text && sym.name.bytes == str "_start"

def functionSymbols (ctx : OutputContext) : List Symbol :=
  ctx.symbols.filter fun sym => sym.isDefinedText && sym.isFunction

/-- The symbols with a subprogram DIE: without a function the first `_start`. -/
def subprogramSymbols (ctx : OutputContext) : List Symbol :=
  if functionSymbols ctx = [] then (ctx.symbols.find? Symbol.isStart).toList else functionSymbols ctx

def labelSymbols (ctx : OutputContext) : List Symbol :=
  ctx.symbols.filter fun sym => sym.isDefinedText && !sym.isFunction

def OutputContext.InText (ctx : OutputContext) (sym : Symbol) : Prop :=
  ctx.baseAddress ≤ sym.address ∧ sym.address ≤ ctx.textEnd

/-- What is assumed of the symbols: `_start` is not external, and what is not external lies in the
text. -/
structure SymbolsInText (ctx : OutputContext) : Prop where
  start : ∀ sym ∈ ctx.symbols, sym.name.bytes = str "_start" → sym.isExternal = false
  inText : ∀ sym ∈ ctx.symbols, sym.isExternal = false → sym.sect = some .text → ctx.InText sym

section

variable {ctx : OutputContext}

theorem SymbolsInText.hasDie (h : SymbolsInText ctx) {sym : Symbol} (hsym : sym ∈ ctx.symbols) :
    ctx.hasDie sym = sym.isDefinedText := by
  rw [OutputContext.hasDie]
  cases hdef : sym.isDefinedText with
  | false =>
      rw [Symbol.isDefinedText] at hdef
      rw [hdef, Bool.false_and, Bool.false_and]
  | true =>
      have hdef' := hdef
      simp only [Symbol.isDefinedText, Bool.and_eq_true, Bool.not_eq_true', beq_iff_eq] at hdef'
      obtain ⟨hlo, hhi⟩ := h.inText sym hsym hdef'.1.2 hdef'.2
      rw [Symbol.isDefinedText] at hdef
      rw [hdef, decide_eq_false (BitVec.not_lt.mpr hlo), decide_eq_false (BitVec.not_lt.mpr hhi)]
      rfl

theorem mem_indicesFrom {p : Symbol → Bool} {i j : Nat} {syms l : List Symbol}
    (h : l.drop i = syms) (hj : j ∈ indicesFrom p i syms) : ∃ sym, l[j]? = some sym ∧ p sym = true := by
  induction syms generalizing i with
  | nil => cases hj
  | cons sym syms ih =>
      obtain ⟨hget, hrest⟩ := drop_cons h
      rw [indicesFrom] at hj
      split at hj
      · next hp =>
          rcases List.mem_cons.mp hj with rfl | hj
          · exact ⟨sym, hget, hp⟩
          · exact ih hrest hj
      · exact ih hrest hj

theorem startIndex_symbol {i : Nat} (h : startIndex ctx = some i) :
    ∃ sym, ctx.symbols[i]? = some sym ∧ sym.isStart = true := by
  obtain ⟨hlt, hp, -⟩ := List.findIdx?_eq_some_iff_getElem.mp h
  exact ⟨_, List.getElem?_eq_getElem hlt, hp⟩

theorem startIndex_symbols (ctx : OutputContext) :
    (startIndex ctx).toList.filterMap (ctx.symbols[·]?) =
      (ctx.symbols.find? Symbol.isStart).toList := by
  have hstart : startIndex ctx = ctx.symbols.findIdx? Symbol.isStart := rfl
  rw [hstart]
  cases hfind : ctx.symbols.findIdx? Symbol.isStart with
  | none =>
      rw [List.find?_eq_none.mpr fun sym hsym => by simp [List.findIdx?_eq_none_iff.mp hfind sym hsym]]
      rfl
  | some i =>
      obtain ⟨hlt, hp, hfirst⟩ := List.findIdx?_eq_some_iff_getElem.mp hfind
      have hsym : ctx.symbols.find? Symbol.isStart = some ctx.symbols[i] :=
        List.find?_eq_some_iff_getElem.mpr ⟨hp, i, hlt, rfl, fun j hj => by simpa using hfirst j hj⟩
      rw [hsym, Option.toList_some, Option.toList_some, List.filterMap_cons_some
        (List.getElem?_eq_getElem hlt), List.filterMap_nil]

theorem SymbolsInText.of_subprogram (h : SymbolsInText ctx) {i : Nat}
    (hi : i ∈ subprogramIndices ctx) : ∃ sym, ctx.symbols[i]? = some sym ∧ ctx.InText sym := by
  rw [subprogramIndices] at hi
  split at hi
  · obtain ⟨sym, hsym, hstart⟩ := startIndex_symbol (Option.mem_toList.mp hi)
    simp only [Symbol.isStart, Bool.and_eq_true, beq_iff_eq] at hstart
    have hmem := List.mem_of_getElem? hsym
    exact ⟨sym, hsym, h.inText sym hmem (h.start sym hmem hstart.2) hstart.1⟩
  · obtain ⟨sym, hsym, hp⟩ := mem_indicesFrom List.drop_zero hi
    rw [h.hasDie (List.mem_of_getElem? hsym)] at hp
    simp only [Symbol.isDefinedText, Bool.and_eq_true, Bool.not_eq_true', beq_iff_eq] at hp
    exact ⟨sym, hsym, h.inText sym (List.mem_of_getElem? hsym) hp.1.1.2 hp.1.2⟩

theorem SymbolsInText.functionIndices_symbols (h : SymbolsInText ctx) :
    (functionIndices ctx).filterMap (ctx.symbols[·]?) = functionSymbols ctx := by
  rw [functionIndices, indices_symbols List.drop_zero, functionSymbols]
  apply List.filter_congr
  intro sym hsym
  rw [h.hasDie hsym]

theorem SymbolsInText.labelIndices_symbols (h : SymbolsInText ctx) :
    (labelIndices ctx).filterMap (ctx.symbols[·]?) = labelSymbols ctx := by
  rw [labelIndices, indices_symbols List.drop_zero, labelSymbols]
  apply List.filter_congr
  intro sym hsym
  rw [h.hasDie hsym]

theorem SymbolsInText.functionIndices_eq_nil_iff (h : SymbolsInText ctx) :
    functionIndices ctx = [] ↔ functionSymbols ctx = [] := by
  rw [← h.functionIndices_symbols]
  constructor
  · intro hnil
    rw [hnil]
    rfl
  · intro hnil
    apply List.eq_nil_iff_forall_not_mem.mpr
    intro i hi
    obtain ⟨sym, hsym, -⟩ := mem_indicesFrom List.drop_zero hi
    exact Option.some_ne_none sym (hsym.symm.trans (List.filterMap_eq_nil_iff.mp hnil i hi))

theorem SymbolsInText.subprogramIndices_symbols (h : SymbolsInText ctx) :
    (subprogramIndices ctx).filterMap (ctx.symbols[·]?) = subprogramSymbols ctx := by
  rw [subprogramIndices, subprogramSymbols]
  by_cases hnil : functionIndices ctx = []
  · rw [if_pos hnil, if_pos (h.functionIndices_eq_nil_iff.mp hnil), startIndex_symbols]
  · rw [if_neg hnil, if_neg fun hsyms => hnil (h.functionIndices_eq_nil_iff.mpr hsyms),
      h.functionIndices_symbols]

theorem withNext_fst (is : List Nat) : (withNext ctx is).map Prod.fst = is := by
  induction is with
  | nil => rfl
  | cons i rest ih => rw [withNext, List.map_cons, ih]

theorem withNext_ne_nil (i : Nat) (rest : List Nat) : withNext ctx (i :: rest) ≠ [] := by
  simp [withNext]

theorem withNext_last {is : List Nat} {r : Nat × Word} (h : (withNext ctx is).getLast? = some r) :
    r.2 = ctx.textEnd := by
  induction is with
  | nil => cases h
  | cons i rest ih =>
      cases rest with
      | nil =>
          cases h
          rfl
      | cons j rest =>
          rw [withNext, List.getLast?_cons_of_ne_nil (withNext_ne_nil j rest)] at h
          exact ih h

structure Spans (ctx : OutputContext) (rs : List (Nat × Word)) : Prop where
  inside : ∀ r ∈ rs, ctx.baseAddress ≤ ctx.addressOf r.1 ∧ ctx.addressOf r.1 ≤ r.2 ∧
    r.2 ≤ ctx.textEnd
  ordered : rs.Pairwise fun r r' => r.2 ≤ ctx.addressOf r'.1

theorem spans_withNext {is : List Nat}
    (hsorted : is.Pairwise fun i j => ctx.sortKey i ≤ ctx.sortKey j)
    (hin : ∀ i ∈ is, ctx.baseAddress ≤ ctx.addressOf i ∧ ctx.addressOf i ≤ ctx.textEnd) :
    Spans ctx (withNext ctx is) := by
  induction is with
  | nil => exact ⟨List.forall_mem_nil _, List.Pairwise.nil⟩
  | cons i rest ih =>
      obtain ⟨hi, hrest⟩ := List.forall_mem_cons.mp hin
      obtain ⟨hfirst, hsorted⟩ := List.pairwise_cons.mp hsorted
      have hspans := ih hsorted hrest
      rw [withNext]
      cases rest with
      | nil => exact ⟨List.forall_mem_cons.mpr ⟨⟨hi.1, hi.2, BitVec.le_refl _⟩, hspans.inside⟩,
          List.pairwise_cons.mpr ⟨List.forall_mem_nil _, hspans.ordered⟩⟩
      | cons j rest =>
          obtain ⟨hj, -⟩ := List.forall_mem_cons.mp hrest
          have hle : ∀ k ∈ j :: rest, ctx.addressOf j ≤ ctx.addressOf k := by
            intro k hk
            rcases List.mem_cons.mp hk with rfl | hk
            · exact BitVec.le_refl _
            · exact BitVec.le_def.mpr ((List.pairwise_cons.mp hsorted).1 k hk)
          refine ⟨List.forall_mem_cons.mpr ⟨⟨hi.1, ?_, hj.2⟩, hspans.inside⟩,
            List.pairwise_cons.mpr ⟨?_, hspans.ordered⟩⟩
          · exact BitVec.le_def.mpr (hfirst j List.mem_cons_self)
          · intro r hr
            apply hle
            rw [← withNext_fst (j :: rest)]
            exact List.mem_map_of_mem hr

/-- The first address of an entry and the address behind its last one. -/
def dieRange (die : Die) : Nat × Nat :=
  ((die.attr 0x11).getD 0, (die.attr 0x11).getD 0 + (die.attr 0x12).getD 0)

theorem dieRange_subprogram {ix : SymbolIndexes} {typeRef : BitVec 32} {r : Nat × Word} {die : Die}
    (h : IsSubprogram ctx ix typeRef r die) (hle : ctx.addressOf r.1 ≤ r.2) :
    dieRange die = ((ctx.addressOf r.1).toNat, r.2.toNat) := by
  obtain ⟨strOff, sym, start, hat, rfl⟩ := h
  obtain ⟨sym', hsym, heq⟩ := Option.map_eq_some_iff.mp hat
  cases heq
  have haddr : ctx.addressOf r.1 = sym.address := by rw [OutputContext.addressOf, hsym]; rfl
  rw [haddr] at hle ⊢
  have hspan : sym.address.toNat + (subprogramSpan sym r.2).toNat = r.2.toNat := by
    have hnat := BitVec.le_def.mp hle
    rw [subprogramSpan, spanTo]
    split
    · next hlt =>
        rw [BitVec.toNat_sub_of_le hle]
        omega
    · next hnot =>
        have hge := BitVec.not_lt.mp hnot
        rw [BitVec.le_def] at hge
        simp
        omega
  have hrange : ∀ strOff, dieRange (subprogramDie strOff typeRef sym r.2 start) =
      (sym.address.toNat, sym.address.toNat + (subprogramSpan sym r.2).toNat) := fun _ => rfl
  rw [hrange, hspan]

theorem dieRanges_eq {ix : SymbolIndexes} {typeRef : BitVec 32} {rs : List (Nat × Word)}
    {dies : List Die} (h : List.Forall₂ (IsSubprogram ctx ix typeRef) rs dies)
    (hle : ∀ r ∈ rs, ctx.addressOf r.1 ≤ r.2) :
    dies.map dieRange = rs.map fun r => ((ctx.addressOf r.1).toNat, r.2.toNat) := by
  induction h with
  | nil => rfl
  | cons hdie _ ih =>
      obtain ⟨hr, hrs⟩ := List.forall_mem_cons.mp hle
      rw [List.map_cons, List.map_cons, ih hrs, dieRange_subprogram hdie hr]

end

/-- An attribute of an entry is the offset of a string in `.debug_str`. -/
def HasName (strs : List Byte) (die : Die) (attr : Nat) (s : List Byte) : Prop :=
  ∃ off, die.attr attr = some off ∧ stringAt strs off = s

/-- The subprogram DIE of a symbol, with its lexical block. -/
structure SubprogramDie (strs : List Byte) (typeRef : Nat) (sym : Symbol) (die : Die) : Prop where
  tag : die.tag = 0x2E
  name : HasName strs die 0x03 sym.name.bytes
  lowPc : die.attr 0x11 = some sym.address.toNat
  highPc : (die.attr 0x12).isSome
  type : die.attr 0x49 = some typeRef
  block : ∃ block : Die, die.children = [block] ∧ block.tag = 0x0B ∧ block.children = [] ∧
    dieRange block = dieRange die

structure LabelDie (strs : List Byte) (sym : Symbol) (die : Die) : Prop where
  tag : die.tag = 0x0A
  name : HasName strs die 0x03 sym.name.bytes
  lowPc : die.attr 0x11 = some sym.address.toNat
  leaf : die.children = []

/-- What a reader of `.debug_info` finds by the abbreviation table. -/
structure InfoParse (ctx : OutputContext) (d : DebugSections) where
  decls : List AbbrevDecl
  unit : Die
  baseType : Die
  pointerType : Die
  subprograms : List Die
  labels : List Die
  functions : List Symbol
  labelled : List Symbol
  readDecls_eq : readDecls d.abbrevs = some decls
  /-- The whole section is one unit. -/
  readUnit_eq : readUnit decls d.info = some unit
  unit_tag : unit.tag = 0x11
  unit_names : HasName d.str unit 0x25 (str "x86_64-asm") ∧ HasName d.str unit 0x03 ctx.sourceName ∧
    HasName d.str unit 0x1B (pathDirname ctx.sourceName)
  children_eq : unit.children = baseType :: pointerType :: (subprograms ++ labels)
  baseType_right : baseType.tag = 0x24 ∧ HasName d.str baseType 0x03 (str "u64")
  pointerType_right : pointerType.tag = 0x0F ∧ HasName d.str pointerType 0x03 (str "u64*") ∧
    pointerType.attr 0x49 = some baseType.offset
  /-- One subprogram DIE for each function, and one label DIE for each other text symbol. -/
  functions_perm : functions.Perm (subprogramSymbols ctx)
  labelled_perm : labelled.Perm (labelSymbols ctx)
  subprograms_right : List.Forall₂ (SubprogramDie d.str pointerType.offset) functions subprograms
  labels_right : List.Forall₂ (LabelDie d.str) labelled labels
  /-- The ranges are sorted and disjoint, and lie in the text up to its end. -/
  ranges_ordered : (subprograms.map dieRange).Pairwise fun r r' => r.1 ≤ r'.1 ∧ r.2 ≤ r'.1
  ranges_inside : ∀ r ∈ subprograms.map dieRange,
    ctx.baseAddress.toNat ≤ r.1 ∧ r.1 ≤ r.2 ∧ r.2 ≤ ctx.textEnd.toNat
  ranges_last : ∀ r, (subprograms.map dieRange).getLast? = some r → r.2 = ctx.textEnd.toNat

section

variable {ctx : OutputContext}

theorem NamesString.stringAt {bs s : List Byte} {v : BitVec 32} (h : NamesString bs v s)
    (hcap : bs.length ≤ debugStrCapacity) (h0 : 0 ∉ s) : stringAt bs v.toNat = s := by
  obtain ⟨off, rfl, hstr⟩ := h
  have hlt := hstr.lt
  rw [debugStrCapacity] at hcap
  rw [BitVec.toNat_ofNat, Nat.mod_eq_of_lt (by omega)]
  exact hstr.stringAt h0

theorem sourceName_no_nul (ctx : OutputContext) : 0 ∉ ctx.sourceName := by
  rw [OutputContext.sourceName]
  split
  · decide
  · exact ctx.currentFilename.no_nul

theorem pathDirname_no_nul {path : Path} (h : 0 ∉ path) : 0 ∉ pathDirname path := by
  rw [pathDirname, dirnameFromPath]
  split
  · decide
  · dsimp only
    split
    · decide
    · intro hmem
      have hmem := List.mem_reverse.mp (List.mem_of_mem_take hmem)
      exact h (List.mem_reverse.mp (List.dropWhile_subset _ (List.mem_of_mem_tail hmem)))

theorem symbolAt_named {ix : SymbolIndexes} {bs : List Byte} (hnamed : NamesSymbols ctx ix bs)
    {i : Nat} (hknown : (ix.symbolStrOff i).isSome) {strOff : BitVec 32} {sym : Symbol}
    (h : symbolAt ctx ix i = some (strOff, sym)) :
    ctx.symbols[i]? = some sym ∧ NamesString bs strOff sym.name.bytes := by
  obtain ⟨sym', hsym, heq⟩ := Option.map_eq_some_iff.mp h
  obtain ⟨v, hv⟩ := Option.isSome_iff_exists.mp hknown
  rw [hv, Option.getD_some] at heq
  cases heq
  obtain ⟨sym', off, hsym', rfl, hstr⟩ := hnamed i strOff hv
  cases hsym.symm.trans hsym'
  exact ⟨hsym, off, rfl, hstr⟩

theorem forall₂_filterMap {α β γ : Type} {R : α → γ → Prop} {P : β → γ → Prop} {f : α → Option β}
    {xs : List α} {ds : List γ} (h : List.Forall₂ R xs ds)
    (hstep : ∀ x ∈ xs, ∀ d, R x d → ∃ y, f x = some y ∧ P y d) :
    List.Forall₂ P (xs.filterMap f) ds := by
  induction h with
  | nil => exact List.Forall₂.nil
  | cons hd _ ih =>
      obtain ⟨hx, hxs⟩ := List.forall_mem_cons.mp hstep
      obtain ⟨y, hy, hP⟩ := hx _ hd
      rw [List.filterMap_cons_some hy]
      exact List.Forall₂.cons hP (ih hxs)

theorem subprogramDie_right {ix : SymbolIndexes} {strs : List Byte}
    (hnamed : NamesSymbols ctx ix strs) (hcap : strs.length ≤ debugStrCapacity) {r : Nat × Word}
    (hknown : (ix.symbolStrOff r.1).isSome) {typeRef : BitVec 32} {die : Die}
    (h : IsSubprogram ctx ix typeRef r die) :
    ∃ sym, ctx.symbols[r.1]? = some sym ∧ SubprogramDie strs typeRef.toNat sym die := by
  obtain ⟨strOff, sym, start, hat, rfl⟩ := h
  obtain ⟨hsym, hstr⟩ := symbolAt_named hnamed hknown hat
  refine ⟨sym, hsym, ?_⟩
  constructor
  · rfl
  · exact ⟨strOff.toNat, rfl, hstr.stringAt hcap sym.name.no_nul⟩
  · rfl
  · rfl
  · rfl
  · exact ⟨_, rfl, rfl, rfl, rfl⟩

theorem labelDie_right {ix : SymbolIndexes} {strs : List Byte} (hnamed : NamesSymbols ctx ix strs)
    (hcap : strs.length ≤ debugStrCapacity) {i : Nat} (hknown : (ix.symbolStrOff i).isSome)
    {die : Die} (h : IsLabel ctx ix i die) :
    ∃ sym, ctx.symbols[i]? = some sym ∧ LabelDie strs sym die := by
  obtain ⟨strOff, sym, start, hat, rfl⟩ := h
  obtain ⟨hsym, hstr⟩ := symbolAt_named hnamed hknown hat
  refine ⟨sym, hsym, ?_⟩
  constructor
  · rfl
  · exact ⟨strOff.toNat, rfl, hstr.stringAt hcap sym.name.no_nul⟩
  · rfl
  · rfl

theorem mem_sort {key : Nat → Nat} {i : Nat} {is : List Nat} :
    i ∈ ExchangeSort.sort key is ↔ i ∈ is :=
  (ExchangeSort.sort_perm is).mem_iff

theorem readUnit_debugInfo {off : StringOffsets} {info entries : List Byte} {dies : List Die}
    (hcap : info.length ≤ debugInfoCapacity)
    (hinfo : info = leBytes 4 (BitVec.ofNat 32 (info.length - 4)) ++ infoFront ctx off ++
      (entries ++ [0]))
    (hreads : ∀ size, Reads abbrevDecls size 63 entries dies 2) :
    readUnit abbrevDecls info = some (.mk 11 0x11 (unitValues ctx off)
      (baseTypeDie off :: pointerTypeDie off :: dies)) := by
  rw [debugInfoCapacity] at hcap
  have hlen : (typeEntries off).length = 17 := by
    simp [typeEntries, baseTypeBytes, pointerTypeBytes, uleb_of_lt]
  have hentries : Reads abbrevDecls info.length (11 + (uleb 1 ++ unitBytes ctx off).length)
      (typeEntries off ++ entries) ([baseTypeDie off, pointerTypeDie off] ++ dies) 2 := by
    have hstart : 11 + (uleb 1 ++ unitBytes ctx off).length = 46 := by
      simp [unitBytes, uleb_of_lt]
    rw [hstart]
    apply (reads_typeEntries off info.length).append
    rw [hlen]
    exact hreads info.length
  refine @readUnit_node abbrevDecls 2 ⟨1, 0x11, true, [(0x25, 0x0E), (0x13, 0x05), (0x03, 0x0E),
    (0x1B, 0x0E), (0x10, 0x17), (0x11, 0x01), (0x12, 0x07)]⟩ _ (BitVec.ofNat 32 (info.length - 4)) _
    (typeEntries off ++ entries) info _ rfl rfl (encodes_unit ctx off) ?_ ?_ (by decide) hentries
  · simpa only [infoFront, List.append_assoc] using hinfo
  · rw [BitVec.toNat_ofNat, Nat.mod_eq_of_lt (by omega)]

/-- The `.debug_info` bytes of a written file, read by the abbreviation table. -/
theorem debugInfo_right {image : List Byte} (hemit : ctx.emitDebugMap = true)
    (hsyms : SymbolsInText ctx) (h : asmWriteElf64 ctx = some image) :
    ∃ d, debugSections ctx = some d ∧ image = fileImage ctx d ∧ Nonempty (InfoParse ctx d) := by
  obtain ⟨d, hd, himage⟩ := asmWriteElf64_eq_some hemit h
  refine ⟨d, hd, himage, ?_⟩
  obtain ⟨off, hstr, habbrevs, hinfo, -⟩ := debugSections_eq_some hd
  obtain ⟨hstrs, hcap⟩ := (ensures_debugStr ctx).build hstr
  have hstart : ∀ i ∈ off.symbols.functions, i ∈ subprogramIndices ctx := by
    rw [hstrs.functions]
    exact fun i hi => mem_sort.mp hi
  have hlabel : ∀ i ∈ off.symbols.labels, i ∈ labelIndices ctx := by
    rw [hstrs.labels]
    exact fun i hi => mem_sort.mp hi
  have hknownFun : ∀ i ∈ off.symbols.functions, (off.symbols.symbolStrOff i).isSome :=
    fun i hi => hstrs.known i (List.mem_append_left _ (hstart i hi))
  have hknownLabel : ∀ i ∈ off.symbols.labels, (off.symbols.symbolStrOff i).isSome :=
    fun i hi => hstrs.known i (List.mem_append_right _ (hlabel i hi))
  have hfunAt : ∀ i ∈ off.symbols.functions, (symbolAt ctx off.symbols i).isSome := by
    intro i hi
    obtain ⟨sym, hsym, -⟩ := hsyms.of_subprogram (hstart i hi)
    rw [symbolAt, hsym]
    rfl
  have hlabelAt : ∀ i ∈ off.symbols.labels, (symbolAt ctx off.symbols i).isSome := by
    intro i hi
    obtain ⟨sym, hsym, -⟩ := mem_indicesFrom List.drop_zero (hlabel i hi)
    rw [symbolAt, hsym]
    rfl
  obtain ⟨⟨entries, subs, labels, hbytes, hreads, hsubs, hlabels⟩, hinfoCap⟩ :=
    (ensures_debugInfo ctx hfunAt hlabelAt).build hinfo
  have hin : ∀ i ∈ off.symbols.functions, ctx.baseAddress ≤ ctx.addressOf i ∧
      ctx.addressOf i ≤ ctx.textEnd := by
    intro i hi
    obtain ⟨sym, hsym, hbounds⟩ := hsyms.of_subprogram (hstart i hi)
    have haddr : ctx.addressOf i = sym.address := by rw [OutputContext.addressOf, hsym]; rfl
    rw [haddr]
    exact hbounds
  have hsorted : off.symbols.functions.Pairwise fun i j => ctx.sortKey i ≤ ctx.sortKey j := by
    rw [hstrs.functions]
    exact ExchangeSort.sort_sorted _
  have hspans := spans_withNext hsorted hin
  have hranges := dieRanges_eq hsubs fun r hr => (hspans.inside r hr).2.1
  have hfst : ∀ r ∈ withNext ctx off.symbols.functions, r.1 ∈ off.symbols.functions := by
    intro r hr
    rw [← withNext_fst off.symbols.functions]
    exact List.mem_map_of_mem hr
  have hmap : (withNext ctx off.symbols.functions).filterMap (fun r => ctx.symbols[r.1]?) =
      off.symbols.functions.filterMap (ctx.symbols[·]?) := by
    have hcomp := @List.filterMap_map _ _ _ Prod.fst (ctx.symbols[·]?)
      (withNext ctx off.symbols.functions)
    rw [withNext_fst] at hcomp
    exact hcomp.symm
  constructor
  refine {
    decls := abbrevDecls
    unit := .mk 11 0x11 (unitValues ctx off)
      (baseTypeDie off :: pointerTypeDie off :: (subs ++ labels))
    baseType := baseTypeDie off
    pointerType := pointerTypeDie off
    subprograms := subs
    labels := labels
    functions := off.symbols.functions.filterMap (ctx.symbols[·]?)
    labelled := off.symbols.labels.filterMap (ctx.symbols[·]?)
    readDecls_eq := readDecls_debugAbbrev habbrevs
    readUnit_eq := readUnit_debugInfo hinfoCap hbytes hreads
    unit_tag := rfl
    unit_names := ⟨⟨_, rfl, hstrs.producer.stringAt hcap (by decide)⟩,
      ⟨_, rfl, hstrs.name.stringAt hcap (sourceName_no_nul ctx)⟩,
      ⟨_, rfl, hstrs.compDir.stringAt hcap (pathDirname_no_nul (sourceName_no_nul ctx))⟩⟩
    children_eq := rfl
    baseType_right := ⟨rfl, _, rfl, hstrs.typeU64.stringAt hcap (by decide)⟩
    pointerType_right := ⟨rfl, ⟨_, rfl, hstrs.typeU64Ptr.stringAt hcap (by decide)⟩, rfl⟩
    functions_perm := ?_
    labelled_perm := ?_
    subprograms_right := ?_
    labels_right := ?_
    ranges_ordered := ?_
    ranges_inside := ?_
    ranges_last := ?_ }
  · rw [hstrs.functions, ← hsyms.subprogramIndices_symbols]
    exact (ExchangeSort.sort_perm _).filterMap _
  · rw [hstrs.labels, ← hsyms.labelIndices_symbols]
    exact (ExchangeSort.sort_perm _).filterMap _
  · rw [← hmap]
    apply forall₂_filterMap hsubs
    intro r hr die hdie
    exact subprogramDie_right hstrs.named hcap (hknownFun r.1 (hfst r hr)) hdie
  · apply forall₂_filterMap hlabels
    intro i hi die hdie
    exact labelDie_right hstrs.named hcap (hknownLabel i hi) hdie
  · rw [hranges, List.pairwise_map]
    apply hspans.ordered.imp_of_mem
    intro r r' hr _ hle
    have hspan := BitVec.le_def.mp (hspans.inside r hr).2.1
    have hnext := BitVec.le_def.mp hle
    exact ⟨hspan.trans hnext, hnext⟩
  · rw [hranges]
    intro p hp
    obtain ⟨r, hr, rfl⟩ := List.mem_map.mp hp
    obtain ⟨hlo, hmid, hhi⟩ := hspans.inside r hr
    exact ⟨BitVec.le_def.mp hlo, BitVec.le_def.mp hmid, BitVec.le_def.mp hhi⟩
  · rw [hranges]
    intro p hp
    rw [List.getLast?_map] at hp
    obtain ⟨r, hr, rfl⟩ := Option.map_eq_some_iff.mp hp
    exact congrArg BitVec.toNat (withNext_last hr)

end

/-- Two functions, the second one first, and a label at the end of the text. -/
def twoFunctions : OutputContext where
  textSection := [0x90, 0xC3]
  symbols := [
    { name := CString.lit _ "f", address := 0x400001, isFunction := true, sect := some .text },
    { name := CString.lit _ "_start", address := 0x400000, isFunction := true, sect := some .text },
    { name := CString.lit _ "done", address := 0x400002, sect := some .text }]
  emitDebugMap := true

theorem debugInfo_right_twoFunctions : ∃ image, asmWriteElf64 twoFunctions = some image ∧
    ∃ d, debugSections twoFunctions = some d ∧ image = fileImage twoFunctions d ∧
      Nonempty (InfoParse twoFunctions d) := by
  have hwritten : (asmWriteElf64 twoFunctions).isSome = true := by decide +kernel
  obtain ⟨image, himage⟩ := Option.isSome_iff_exists.mp hwritten
  have hsyms : SymbolsInText twoFunctions := by
    constructor
    · decide
    · unfold OutputContext.InText
      decide
  exact ⟨image, himage, debugInfo_right rfl hsyms himage⟩

def subprogramNames (ctx : OutputContext) : Option (List (List Byte)) := do
  let d ← debugSections ctx
  let unit ← readUnit (← readDecls d.abbrevs) d.info
  pure ((unit.children.filter (·.tag = 0x2E)).map fun die =>
    stringAt d.str ((die.attr 0x03).getD 0))

/-- A `_start` that is no function, and a function that is not resolved. -/
def startLabel : OutputContext where
  textSection := [0xC3]
  symbols := [
    { name := CString.lit _ "_start", address := 0x400000, sect := some .text },
    { name := CString.lit _ "later", address := 0x400000, isResolved := false, isFunction := true,
      sect := some .text }]
  emitDebugMap := true

/-- The one subprogram DIE is that of `_start`, and not that of the one function. -/
theorem startLabel_subprograms : SymbolsInText startLabel ∧ (asmWriteElf64 startLabel).isSome ∧
    subprogramNames startLabel = some [str "_start"] ∧
      (startLabel.symbols.filter fun sym => !sym.isExternal && sym.sect == some .text &&
        sym.isFunction).map (·.name.bytes) = [str "later"] := by
  refine ⟨⟨by decide, ?_⟩, by decide +kernel, by decide +kernel, by decide⟩
  unfold OutputContext.InText
  decide

end X86Assembler
