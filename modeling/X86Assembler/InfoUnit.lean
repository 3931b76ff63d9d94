import X86Assembler.DebugInfo
import X86Assembler.ElfRoundTrip

namespace X86Assembler

open CString (Byte str)
open LittleEndian
open Leb128
open Fill
open DwarfInfo

variable {cap : Nat}

theorem yields_u8 (bs : List Byte) (v : Byte) :
    Yields (appendU8Checked v : Fill cap Unit) bs (bs ++ [v]) () :=
  yields_append bs [v]

theorem yields_le16 (bs : List Byte) (v : BitVec 16) :
    Yields (appendLe16BufChecked v : Fill cap Unit) bs (bs ++ leBytes 2 v) () :=
  yields_append bs (leBytes 2 v)

theorem yields_le32 (bs : List Byte) (v : BitVec 32) :
    Yields (appendLe32BufChecked v : Fill cap Unit) bs (bs ++ leBytes 4 v) () :=
  yields_append bs (leBytes 4 v)

theorem yields_le64 (bs : List Byte) (v : BitVec 64) :
    Yields (appendLe64BufChecked v : Fill cap Unit) bs (bs ++ leBytes 8 v) () :=
  yields_append bs (leBytes 8 v)

section

variable (strOff typeRef : BitVec 32) (sym : Symbol) (nextAddr : Word)

def labelBytes : List Byte :=
  leBytes 4 strOff ++ ([1] ++ (uleb (declNumber sym.declLine).toNat ++
    (uleb (declNumber sym.declColumn).toNat ++ (leBytes 8 sym.address ++ []))))

def labelValues : List (Nat × Nat) := [(0x03, strOff.toNat), (0x3A, 1),
  (0x3B, (declNumber sym.declLine).toNat), (0x39, (declNumber sym.declColumn).toNat),
  (0x11, sym.address.toNat)]

def labelDie (start : Nat) : Die := .mk start 0x0A (labelValues strOff sym) []

theorem yields_appendLabel (bs : List Byte) :
    Yields (appendLabel strOff sym) bs (bs ++ (uleb 6 ++ labelBytes strOff sym)) () := by
  apply Yields.of_eq
  · apply (yields_uleb _ _).bind
    apply (yields_le32 _ _).bind
    apply (yields_u8 _ _).bind
    apply (yields_uleb _ _).bind
    apply (yields_uleb _ _).bind
    exact yields_le64 _ _
  · simp only [labelBytes, List.append_assoc, List.append_nil]
    rfl

theorem encodes_label :
    EncodesAll [(0x03, 0x0E), (0x3A, 0x0B), (0x3B, 0x0F), (0x39, 0x0F), (0x11, 0x01)]
      (labelBytes strOff sym) (labelValues strOff sym) := by
  apply EncodesAll.cons (encodes_strp _)
  apply EncodesAll.cons (encodes_data1 _)
  apply EncodesAll.cons (encodes_udata _)
  apply EncodesAll.cons (encodes_udata _)
  apply EncodesAll.cons (encodes_addr _)
  exact EncodesAll.nil

theorem reads_label (size start depth : Nat) :
    Reads abbrevDecls size start (uleb 6 ++ labelBytes strOff sym) [labelDie strOff sym start]
      depth :=
  @reads_leaf abbrevDecls size start
    ⟨6, 0x0A, false, [(0x03, 0x0E), (0x3A, 0x0B), (0x3B, 0x0F), (0x39, 0x0F), (0x11, 0x01)]⟩ _ _
    rfl (by decide) rfl (encodes_label strOff sym) depth

def subprogramSpan : Word := spanTo sym.address nextAddr

def subprogramBytes : List Byte :=
  leBytes 4 strOff ++ ([1] ++ (uleb (declNumber sym.declLine).toNat ++
    (uleb (declNumber sym.declColumn).toNat ++ ([if sym.isGlobal then 1 else 0] ++
      (leBytes 8 sym.address ++ (leBytes 8 (subprogramSpan sym nextAddr) ++
        (leBytes 4 typeRef ++ [])))))))

def subprogramValues : List (Nat × Nat) := [(0x03, strOff.toNat), (0x3A, 1),
  (0x3B, (declNumber sym.declLine).toNat), (0x39, (declNumber sym.declColumn).toNat),
  (0x3F, (if sym.isGlobal then 1 else 0 : Byte).toNat), (0x11, sym.address.toNat),
  (0x12, (subprogramSpan sym nextAddr).toNat), (0x49, typeRef.toNat)]

def blockBytes : List Byte :=
  leBytes 8 sym.address ++ (leBytes 8 (subprogramSpan sym nextAddr) ++ [])

def blockValues : List (Nat × Nat) := [(0x11, sym.address.toNat),
  (0x12, (subprogramSpan sym nextAddr).toNat)]

def subprogramDie (start : Nat) : Die :=
  .mk start 0x2E (subprogramValues strOff typeRef sym nextAddr)
    [.mk (start + (uleb 4 ++ subprogramBytes strOff typeRef sym nextAddr).length) 0x0B
      (blockValues sym nextAddr) []]

def subprogramEntry : List Byte :=
  uleb 4 ++ subprogramBytes strOff typeRef sym nextAddr ++ (uleb 5 ++ blockBytes sym nextAddr ++ [0])

theorem yields_appendSubprogram (bs : List Byte) :
    Yields (appendSubprogram strOff sym nextAddr typeRef) bs
      (bs ++ subprogramEntry strOff typeRef sym nextAddr) () := by
  apply Yields.of_eq
  · apply (yields_uleb _ _).bind
    apply (yields_le32 _ _).bind
    apply (yields_u8 _ _).bind
    apply (yields_uleb _ _).bind
    apply (yields_uleb _ _).bind
    apply (yields_u8 _ _).bind
    apply (yields_le64 _ _).bind
    apply (yields_le64 _ _).bind
    apply (yields_le32 _ _).bind
    apply (yields_uleb _ _).bind
    apply (yields_le64 _ _).bind
    apply (yields_le64 _ _).bind
    exact yields_u8 _ _
  · simp only [subprogramEntry, subprogramBytes, blockBytes, subprogramSpan, List.append_assoc,
      List.append_nil]
    rfl

theorem encodes_subprogram :
    EncodesAll [(0x03, 0x0E), (0x3A, 0x0B), (0x3B, 0x0F), (0x39, 0x0F), (0x3F, 0x0C),
      (0x11, 0x01), (0x12, 0x07), (0x49, 0x13)]
      (subprogramBytes strOff typeRef sym nextAddr)
      (subprogramValues strOff typeRef sym nextAddr) := by
  apply EncodesAll.cons (encodes_strp _)
  apply EncodesAll.cons (encodes_data1 _)
  apply EncodesAll.cons (encodes_udata _)
  apply EncodesAll.cons (encodes_udata _)
  apply EncodesAll.cons (encodes_flag _)
  apply EncodesAll.cons (encodes_addr _)
  apply EncodesAll.cons (encodes_data8 _)
  apply EncodesAll.cons (encodes_ref4 _)
  exact EncodesAll.nil

theorem encodes_block :
    EncodesAll [(0x11, 0x01), (0x12, 0x07)] (blockBytes sym nextAddr) (blockValues sym nextAddr) := by
  apply EncodesAll.cons (encodes_addr _)
  apply EncodesAll.cons (encodes_data8 _)
  exact EncodesAll.nil

theorem reads_subprogram (size start : Nat) :
    Reads abbrevDecls size start (subprogramEntry strOff typeRef sym nextAddr)
      [subprogramDie strOff typeRef sym nextAddr start] 2 := by
  have hblock := @reads_leaf abbrevDecls size
    (start + (uleb 4 ++ subprogramBytes strOff typeRef sym nextAddr).length)
    ⟨5, 0x0B, false, [(0x11, 0x01), (0x12, 0x07)]⟩ _ _ rfl (by decide) rfl
    (encodes_block sym nextAddr) 0
  exact @reads_node abbrevDecls size start 0
    ⟨4, 0x2E, true, [(0x03, 0x0E), (0x3A, 0x0B), (0x3B, 0x0F), (0x39, 0x0F), (0x3F, 0x0C),
      (0x11, 0x01), (0x12, 0x07), (0x49, 0x13)]⟩ _ _ _ _ rfl (by decide) rfl
    (encodes_subprogram strOff typeRef sym nextAddr) hblock

end

section

variable {ctx : OutputContext} {ix : SymbolIndexes} {typeRef : BitVec 32}

def withNext (ctx : OutputContext) : List Nat → List (Nat × Word)
  | [] => []
  | i :: rest => (i, (rest.head?.map ctx.addressOf).getD ctx.textEnd) :: withNext ctx rest

def IsSubprogram (ctx : OutputContext) (ix : SymbolIndexes) (typeRef : BitVec 32)
    (r : Nat × Word) (die : Die) : Prop :=
  ∃ strOff sym start, symbolAt ctx ix r.1 = some (strOff, sym) ∧
    die = subprogramDie strOff typeRef sym r.2 start

def IsLabel (ctx : OutputContext) (ix : SymbolIndexes) (i : Nat) (die : Die) : Prop :=
  ∃ strOff sym start, symbolAt ctx ix i = some (strOff, sym) ∧ die = labelDie strOff sym start

theorem ensures_appendSubprograms {is : List Nat} (his : ∀ i ∈ is, (symbolAt ctx ix i).isSome)
    (bs : List Byte) :
    Ensures (appendSubprograms ctx ix typeRef is) bs fun _ bs' => ∃ new dies, bs' = bs ++ new ∧
      (∀ size, Reads abbrevDecls size bs.length new dies 2) ∧
        List.Forall₂ (IsSubprogram ctx ix typeRef) (withNext ctx is) dies := by
  induction is generalizing bs with
  | nil =>
      apply ensures_pure
      exact ⟨[], [], (List.append_nil bs).symm, fun size => reads_nil _ _, List.Forall₂.nil⟩
  | cons i rest ih =>
      obtain ⟨hi, hrest⟩ := List.forall_mem_cons.mp his
      obtain ⟨⟨strOff, sym⟩, hat⟩ := Option.isSome_iff_exists.mp hi
      rw [appendSubprograms]
      simp only [hat]
      apply (yields_appendSubprogram _ _ _ _ _).then
      apply (ih hrest _).mono
      rintro _ bs' ⟨new, dies, rfl, hreads, hdies⟩
      refine ⟨_ ++ new, _ :: dies, List.append_assoc _ _ _, ?_,
        List.Forall₂.cons ⟨strOff, sym, bs.length, hat, rfl⟩ hdies⟩
      intro size
      apply (reads_subprogram _ _ _ _ size bs.length).append
      have hrest := hreads size
      rwa [List.length_append] at hrest

theorem ensures_appendLabels {is : List Nat} (his : ∀ i ∈ is, (symbolAt ctx ix i).isSome)
    (bs : List Byte) :
    Ensures (appendLabels ctx ix is) bs fun _ bs' => ∃ new dies, bs' = bs ++ new ∧
      (∀ size, Reads abbrevDecls size bs.length new dies 2) ∧
        List.Forall₂ (IsLabel ctx ix) is dies := by
  induction is generalizing bs with
  | nil =>
      apply ensures_pure
      exact ⟨[], [], (List.append_nil bs).symm, fun size => reads_nil _ _, List.Forall₂.nil⟩
  | cons i rest ih =>
      obtain ⟨hi, hrest⟩ := List.forall_mem_cons.mp his
      obtain ⟨⟨strOff, sym⟩, hat⟩ := Option.isSome_iff_exists.mp hi
      rw [appendLabels]
      simp only [hat]
      apply (yields_appendLabel _ _ _).then
      apply (ih hrest _).mono
      rintro _ bs' ⟨new, dies, rfl, hreads, hdies⟩
      refine ⟨_ ++ new, _ :: dies, List.append_assoc _ _ _, ?_,
        List.Forall₂.cons ⟨strOff, sym, bs.length, hat, rfl⟩ hdies⟩
      intro size
      apply (reads_label _ _ size bs.length 2).append
      have hrest := hreads size
      rwa [List.length_append] at hrest

end

section

variable (ctx : OutputContext) (off : StringOffsets)

def unitBytes : List Byte :=
  leBytes 4 off.producer ++ (leBytes 2 (1 : BitVec 16) ++ (leBytes 4 off.name ++
    (leBytes 4 off.compDir ++ (leBytes 4 (0 : BitVec 32) ++ (leBytes 8 ctx.baseAddress ++
      (leBytes 8 ctx.textSize ++ []))))))

def unitValues : List (Nat × Nat) := [(0x25, off.producer.toNat), (0x13, 1),
  (0x03, off.name.toNat), (0x1B, off.compDir.toNat), (0x10, 0), (0x11, ctx.baseAddress.toNat),
  (0x12, ctx.textSize.toNat)]

def baseTypeBytes : List Byte := leBytes 4 off.typeU64 ++ ([7] ++ ([8] ++ []))

def baseTypeDie : Die := .mk 46 0x24 [(0x03, off.typeU64.toNat), (0x3E, 7), (0x0B, 8)] []

def pointerTypeBytes : List Byte :=
  leBytes 4 off.typeU64Ptr ++ ([8] ++ (leBytes 4 (46 : BitVec 32) ++ []))

def pointerTypeDie : Die := .mk 53 0x0F [(0x03, off.typeU64Ptr.toNat), (0x0B, 8), (0x49, 46)] []

def typeEntries : List Byte := uleb 2 ++ baseTypeBytes off ++ (uleb 3 ++ pointerTypeBytes off)

theorem encodes_unit :
    EncodesAll [(0x25, 0x0E), (0x13, 0x05), (0x03, 0x0E), (0x1B, 0x0E), (0x10, 0x17),
      (0x11, 0x01), (0x12, 0x07)] (unitBytes ctx off) (unitValues ctx off) := by
  apply EncodesAll.cons (encodes_strp _)
  apply EncodesAll.cons (encodes_data2 _)
  apply EncodesAll.cons (encodes_strp _)
  apply EncodesAll.cons (encodes_strp _)
  apply EncodesAll.cons (encodes_secOffset _)
  apply EncodesAll.cons (encodes_addr _)
  apply EncodesAll.cons (encodes_data8 _)
  exact EncodesAll.nil

theorem encodes_baseType :
    EncodesAll [(0x03, 0x0E), (0x3E, 0x0B), (0x0B, 0x0B)] (baseTypeBytes off)
      (baseTypeDie off).attrs := by
  apply EncodesAll.cons (encodes_strp _)
  apply EncodesAll.cons (encodes_data1 _)
  apply EncodesAll.cons (encodes_data1 _)
  exact EncodesAll.nil

theorem encodes_pointerType :
    EncodesAll [(0x03, 0x0E), (0x0B, 0x0B), (0x49, 0x13)] (pointerTypeBytes off)
      (pointerTypeDie off).attrs := by
  apply EncodesAll.cons (encodes_strp _)
  apply EncodesAll.cons (encodes_data1 _)
  apply EncodesAll.cons (encodes_ref4 _)
  exact EncodesAll.nil

theorem reads_typeEntries (size : Nat) :
    Reads abbrevDecls size 46 (typeEntries off) [baseTypeDie off, pointerTypeDie off] 2 := by
  have hbase := @reads_leaf abbrevDecls size 46
    ⟨2, 0x24, false, [(0x03, 0x0E), (0x3E, 0x0B), (0x0B, 0x0B)]⟩ _ _ rfl (by decide) rfl
    (encodes_baseType off) 2
  have hpointer := @reads_leaf abbrevDecls size 53
    ⟨3, 0x0F, false, [(0x03, 0x0E), (0x0B, 0x0B), (0x49, 0x13)]⟩ _ _ rfl (by decide) rfl
    (encodes_pointerType off) 2
  have hstart : 46 + (uleb 2 ++ baseTypeBytes off).length = 53 := by
    simp [uleb_of_lt, baseTypeBytes]
  apply hbase.append
  rw [hstart]
  exact hpointer

/-- The bytes behind the length of the unit, up to the entries of the symbols. -/
def infoFront : List Byte := unitHeader ++ (uleb 1 ++ unitBytes ctx off) ++ typeEntries off

theorem infoFront_length : (infoFront ctx off).length = 59 := by
  simp [infoFront, unitHeader, unitBytes, typeEntries, baseTypeBytes, pointerTypeBytes, uleb_of_lt]

variable {off}

theorem ensures_infoEntries
    (hfun : ∀ i ∈ off.symbols.functions, (symbolAt ctx off.symbols i).isSome)
    (hlab : ∀ i ∈ off.symbols.labels, (symbolAt ctx off.symbols i).isSome) :
    Ensures (do
      appendSubprograms ctx off.symbols 53 off.symbols.functions
      appendLabels ctx off.symbols off.symbols.labels
      appendU8Checked 0
      let size ← position
      writeLe32AtChecked 0 (BitVec.ofNat 32 (size - 4)))
      (leBytes 4 (0 : BitVec 32) ++ infoFront ctx off) fun _ info => ∃ entries subs labels,
        info = leBytes 4 (BitVec.ofNat 32 (info.length - 4)) ++ infoFront ctx off ++
          (entries ++ [0]) ∧
        (∀ size, Reads abbrevDecls size 63 entries (subs ++ labels) 2) ∧
        List.Forall₂ (IsSubprogram ctx off.symbols 53) (withNext ctx off.symbols.functions) subs ∧
        List.Forall₂ (IsLabel ctx off.symbols) off.symbols.labels labels := by
  have hlen : (leBytes 4 (0 : BitVec 32) ++ infoFront ctx off).length = 63 := by
    rw [List.length_append, leBytes_length, infoFront_length]
  apply (ensures_appendSubprograms hfun _).bind
  rintro _ bs₁ ⟨subBytes, subs, rfl, hsubs, hfuns⟩
  apply (ensures_appendLabels hlab _).bind
  rintro _ bs₂ ⟨labelBytes, labels, rfl, hlabels, hlabs⟩
  apply (yields_u8 _ _).then
  apply (yields_position _).then
  apply (yields_writeAt _ _ _).mono
  rintro _ info ⟨-, hinfo⟩
  rw [hlen] at hsubs
  rw [List.length_append, hlen] at hlabels
  refine ⟨subBytes ++ labelBytes, subs, labels, ?_, fun size => (hsubs size).append (hlabels size),
    hfuns, hlabs⟩
  have hsplit : leBytes 4 (0 : BitVec 32) ++ infoFront ctx off ++ subBytes ++ labelBytes ++ [0] =
      [] ++ leBytes 4 (0 : BitVec 32) ++ (infoFront ctx off ++ (subBytes ++ labelBytes ++ [0])) := by
    simp only [List.append_assoc, List.nil_append]
  rw [hsplit] at hinfo
  have hpatch : info = [] ++ _ ++ _ :=
    hinfo.trans (patch_append [] (leBytes 4 (0 : BitVec 32)) _ _ (by simp))
  have hsize : info.length = ([] ++ leBytes 4 (0 : BitVec 32) ++
      (infoFront ctx off ++ (subBytes ++ labelBytes ++ [0]))).length := by
    rw [hpatch]
    simp
  rw [← hsize] at hpatch
  simpa only [List.append_assoc, List.nil_append] using hpatch

theorem ensures_debugInfo (hfun : ∀ i ∈ off.symbols.functions, (symbolAt ctx off.symbols i).isSome)
    (hlab : ∀ i ∈ off.symbols.labels, (symbolAt ctx off.symbols i).isSome) :
    Ensures (debugInfo ctx off) [] fun _ info => ∃ entries subs labels,
      info = leBytes 4 (BitVec.ofNat 32 (info.length - 4)) ++ infoFront ctx off ++
        (entries ++ [0]) ∧
      (∀ size, Reads abbrevDecls size 63 entries (subs ++ labels) 2) ∧
      List.Forall₂ (IsSubprogram ctx off.symbols 53) (withNext ctx off.symbols.functions) subs ∧
      List.Forall₂ (IsLabel ctx off.symbols) off.symbols.labels labels := by
  apply (yields_position_of List.length_nil).then
  apply (yields_le32 _ _).then
  apply (yields_le16 _ _).then
  apply (yields_le32 _ _).then
  apply (yields_u8 _ _).then
  apply (yields_uleb _ _).then
  apply (yields_le32 _ _).then
  apply (yields_le16 _ _).then
  apply (yields_le32 _ _).then
  apply (yields_le32 _ _).then
  apply (yields_le32 _ _).then
  apply (yields_le64 _ _).then
  apply (yields_le64 _ _).then
  apply (@yields_position_of _ _ 46 (by simp [uleb_of_lt])).then
  apply (yields_uleb _ _).then
  apply (yields_le32 _ _).then
  apply (yields_u8 _ _).then
  apply (yields_u8 _ _).then
  apply (@yields_position_of _ _ 53 (by simp [uleb_of_lt])).then
  apply (yields_uleb _ _).then
  apply (yields_le32 _ _).then
  apply (yields_u8 _ _).then
  apply (yields_le32 _ _).then
  apply (ensures_infoEntries ctx hfun hlab).of_start
  simp only [infoFront, unitHeader, unitBytes, typeEntries, baseTypeBytes, pointerTypeBytes,
    List.append_assoc, List.append_nil, List.nil_append]
  rfl

end

end X86Assembler
