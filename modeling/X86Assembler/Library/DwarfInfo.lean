import X86Assembler.Library.Leb128
import X86Assembler.Library.LittleEndian

namespace X86Assembler.DwarfInfo

open CString (Byte untilNul)
open LittleEndian
open Leb128

/-- A declaration of an abbreviation table; each attribute comes with its form. -/
structure AbbrevDecl where
  code : Nat
  tag : Nat
  hasChildren : Bool
  attrs : List (Nat × Nat)
deriving DecidableEq

/-- The attributes of a declaration, up to a pair of zeros; at most a number of pairs. -/
def readAttrs : Nat → List Byte → Option (List (Nat × Nat) × List Byte)
  | 0, _ => none
  | n + 1, bs => do
    let (attr, bs) ← readUleb bs
    let (form, bs) ← readUleb bs
    if attr = 0 ∧ form = 0 then pure ([], bs)
    else do
      let (attrs, bs) ← readAttrs n bs
      pure ((attr, form) :: attrs, bs)

def readDeclsFrom : Nat → List Byte → Option (List AbbrevDecl)
  | 0, _ => none
  | n + 1, bs => do
    let (code, bs) ← readUleb bs
    if code = 0 then pure []
    else do
      let (tag, bs) ← readUleb bs
      match bs with
      | [] => none
      | children :: bs => do
        let (attrs, bs) ← readAttrs bs.length bs
        let decls ← readDeclsFrom n bs
        pure ({ code, tag, hasChildren := children != 0, attrs } :: decls)

/-- The declarations of an abbreviation table, up to the code 0. -/
def readDecls (bs : List Byte) : Option (List AbbrevDecl) := readDeclsFrom bs.length bs

def readFixed (n : Nat) (bs : List Byte) : Option (Nat × List Byte) :=
  if n ≤ bs.length then some ((ofLeBytes (8 * n) (bs.take n)).toNat, bs.drop n) else none

/-- The value of an attribute, for the forms of DWARF 4 that hold one number, in a 32-bit unit
with addresses of eight bytes. -/
def readForm (form : Nat) (bs : List Byte) : Option (Nat × List Byte) :=
  match form with
  | 0x01 => readFixed 8 bs -- addr
  | 0x05 => readFixed 2 bs -- data2
  | 0x06 => readFixed 4 bs -- data4
  | 0x07 => readFixed 8 bs -- data8
  | 0x0B => readFixed 1 bs -- data1
  | 0x0C => readFixed 1 bs -- flag
  | 0x0E => readFixed 4 bs -- strp
  | 0x0F => readUleb bs -- udata
  | 0x10 => readFixed 4 bs -- ref_addr
  | 0x11 => readFixed 1 bs -- ref1
  | 0x12 => readFixed 2 bs -- ref2
  | 0x13 => readFixed 4 bs -- ref4
  | 0x14 => readFixed 8 bs -- ref8
  | 0x15 => readUleb bs -- ref_udata
  | 0x17 => readFixed 4 bs -- sec_offset
  | 0x19 => some (1, bs) -- flag_present
  | 0x20 => readFixed 8 bs -- ref_sig8
  | _ => none

def readValues : List (Nat × Nat) → List Byte → Option (List (Nat × Nat) × List Byte)
  | [], bs => some ([], bs)
  | (attr, form) :: attrs, bs => do
    let (value, bs) ← readForm form bs
    let (values, bs) ← readValues attrs bs
    pure ((attr, value) :: values, bs)

/-- A debugging information entry at an offset of its unit. -/
inductive Die
  | mk (offset tag : Nat) (attrs : List (Nat × Nat)) (children : List Die)

namespace Die

def offset : Die → Nat | mk o _ _ _ => o
def tag : Die → Nat | mk _ t _ _ => t
def attrs : Die → List (Nat × Nat) | mk _ _ as _ => as
def children : Die → List Die | mk _ _ _ cs => cs

def attr (die : Die) (name : Nat) : Option Nat := die.attrs.lookup name

end Die

section

variable (decls : List AbbrevDecl) (size : Nat)

/-- Sibling entries up to the null entry, in a unit of a size; at most so many entries deep and
long. -/
def readSiblings : Nat → List Byte → Option (List Die × List Byte)
  | 0, _ => none
  | n + 1, bs => do
    let (code, rest) ← readUleb bs
    if code = 0 then pure ([], rest)
    else do
      let decl ← decls.find? (·.code = code)
      let (values, rest) ← readValues decl.attrs rest
      let (children, rest) ← if decl.hasChildren then readSiblings n rest else pure ([], rest)
      let (siblings, rest) ← readSiblings n rest
      pure (.mk (size - bs.length) decl.tag values children :: siblings, rest)

end

/-- A unit of DWARF 4 with one entry that has all others under it, and nothing behind it. -/
def readUnit (decls : List AbbrevDecl) (info : List Byte) : Option Die := do
  let (length, bs) ← readFixed 4 info
  let (version, bs) ← readFixed 2 bs
  let (_, bs) ← readFixed 4 bs
  let (addressSize, bs) ← readFixed 1 bs
  if length = info.length - 4 ∧ version = 4 ∧ addressSize = 8 then do
    let (code, bs') ← readUleb bs
    let decl ← decls.find? (·.code = code)
    let (values, bs') ← readValues decl.attrs bs'
    let (children, bs') ←
      if decl.hasChildren then readSiblings decls info.length info.length bs' else pure ([], bs')
    if bs' = [] then pure (.mk (info.length - bs.length) decl.tag values children) else none
  else none

/-- The string at an offset of `.debug_str`. -/
def stringAt (str : List Byte) (offset : Nat) : List Byte := untilNul (str.drop offset)

theorem readFixed_append {n : Nat} (v : BitVec (8 * n)) (rest : List Byte) :
    readFixed n (leBytes n v ++ rest) = some (v.toNat, rest) := by
  have htake : (leBytes n v ++ rest).take n = leBytes n v := by
    have h := @List.take_left _ (leBytes n v) rest
    rwa [leBytes_length] at h
  have hdrop : (leBytes n v ++ rest).drop n = rest := by
    have h := @List.drop_left _ (leBytes n v) rest
    rwa [leBytes_length] at h
  rw [readFixed, if_pos (by rw [List.length_append, leBytes_length]; omega), htake, hdrop,
    ofLeBytes_leBytes (Nat.le_refl _)]

def Encodes (form : Nat) (bs : List Byte) (value : Nat) : Prop :=
  ∀ rest, readForm form (bs ++ rest) = some (value, rest)

theorem encodes_addr (v : BitVec 64) : Encodes 0x01 (leBytes 8 v) v.toNat :=
  @readFixed_append 8 v

theorem encodes_data2 (v : BitVec 16) : Encodes 0x05 (leBytes 2 v) v.toNat :=
  @readFixed_append 2 v

theorem encodes_data8 (v : BitVec 64) : Encodes 0x07 (leBytes 8 v) v.toNat :=
  @readFixed_append 8 v

theorem encodes_data1 (v : Byte) : Encodes 0x0B [v] v.toNat := by
  have hbyte : leBytes 1 v = [v] := by rw [leBytes, leBytes, BitVec.setWidth_eq]
  rw [← hbyte]
  exact @readFixed_append 1 v

theorem encodes_flag (v : Byte) : Encodes 0x0C [v] v.toNat := encodes_data1 v

theorem encodes_strp (v : BitVec 32) : Encodes 0x0E (leBytes 4 v) v.toNat :=
  @readFixed_append 4 v

theorem encodes_udata (n : Nat) : Encodes 0x0F (uleb n) n := readUleb_uleb n

theorem encodes_ref4 (v : BitVec 32) : Encodes 0x13 (leBytes 4 v) v.toNat :=
  @readFixed_append 4 v

theorem encodes_secOffset (v : BitVec 32) : Encodes 0x17 (leBytes 4 v) v.toNat :=
  @readFixed_append 4 v

inductive EncodesAll : List (Nat × Nat) → List Byte → List (Nat × Nat) → Prop
  | nil : EncodesAll [] [] []
  | cons {attr form value : Nat} {attrs values : List (Nat × Nat)} {bs bs' : List Byte}
      (h : Encodes form bs value) (hrest : EncodesAll attrs bs' values) :
      EncodesAll ((attr, form) :: attrs) (bs ++ bs') ((attr, value) :: values)

theorem EncodesAll.read {attrs values : List (Nat × Nat)} {bs : List Byte}
    (h : EncodesAll attrs bs values) (rest : List Byte) :
    readValues attrs (bs ++ rest) = some (values, rest) := by
  induction h with
  | nil => rfl
  | cons h hrest ih =>
      rw [List.append_assoc, readValues, h, Option.bind_eq_bind, Option.bind_some]
      dsimp only
      rw [ih]
      rfl

section

variable {decls : List AbbrevDecl} {size : Nat}

/-- From an offset on the bytes are sibling entries, read with some depth left. -/
structure Reads (decls : List AbbrevDecl) (size start : Nat) (bs : List Byte) (dies : List Die)
    (depth : Nat) : Prop where
  run : ∀ n rest, depth ≤ n → start + bs.length + rest.length = size →
    readSiblings decls size (dies.length + n) (bs ++ rest) =
      (readSiblings decls size n rest).map fun p => (dies ++ p.1, p.2)
  length_le : dies.length ≤ bs.length

theorem reads_nil (start depth : Nat) : Reads decls size start [] [] depth := by
  constructor
  · intro n rest _ _
    rw [List.length_nil, Nat.zero_add, List.nil_append]
    cases readSiblings decls size n rest with
    | none => rfl
    | some p => rfl
  · exact Nat.le_refl 0

theorem Reads.append {start depth : Nat} {bs bs' : List Byte} {dies dies' : List Die}
    (h : Reads decls size start bs dies depth)
    (h' : Reads decls size (start + bs.length) bs' dies' depth) :
    Reads decls size start (bs ++ bs') (dies ++ dies') depth := by
  constructor
  · intro n rest hn hsize
    rw [List.length_append] at hsize
    rw [List.length_append, List.append_assoc, Nat.add_assoc,
      h.run (dies'.length + n) (bs' ++ rest) (by omega) (by rw [List.length_append]; omega),
      h'.run n rest hn (by omega), Option.map_map]
    congr 1
    funext p
    simp only [Function.comp, List.append_assoc]
  · rw [List.length_append, List.length_append]
    exact Nat.add_le_add h.length_le h'.length_le

theorem uleb_length_pos (n : Nat) : 0 < (uleb n).length := by
  rw [uleb]
  split <;> exact Nat.succ_pos _

theorem reads_leaf {start : Nat} {decl : AbbrevDecl} {values : List (Nat × Nat)} {bs : List Byte}
    (hfind : decls.find? (·.code = decl.code) = some decl) (hcode : decl.code ≠ 0)
    (hleaf : decl.hasChildren = false) (h : EncodesAll decl.attrs bs values) (depth : Nat) :
    Reads decls size start (uleb decl.code ++ bs) [.mk start decl.tag values []] depth := by
  constructor
  · intro n rest _ hsize
    have hstart : size - (uleb decl.code ++ bs ++ rest).length = start := by
      rw [List.length_append]
      omega
    rw [List.length_singleton, Nat.add_comm, readSiblings, hstart, List.append_assoc,
      readUleb_uleb, Option.bind_eq_bind, Option.bind_some]
    dsimp only
    rw [if_neg hcode, hfind]
    simp only [Option.bind_eq_bind, Option.bind_some, h.read, hleaf,
      Bool.false_eq_true, if_false, Option.pure_def]
    cases readSiblings decls size n rest with
    | none => rfl
    | some p => rfl
  · have hpos := uleb_length_pos decl.code
    rw [List.length_append, List.length_singleton]
    omega

theorem readSiblings_end (n : Nat) (rest : List Byte) :
    readSiblings decls size (n + 1) (0 :: rest) = some ([], rest) := rfl

theorem Reads.children {start depth : Nat} {bs : List Byte} {dies : List Die}
    (h : Reads decls size start bs dies depth) {n : Nat} (hn : dies.length + depth < n)
    {rest : List Byte} (hsize : start + (bs.length + 1) + rest.length = size) :
    readSiblings decls size n (bs ++ [0] ++ rest) = some (dies, rest) := by
  obtain ⟨m, rfl⟩ := Nat.exists_eq_add_of_lt hn
  have hfuel : dies.length + depth + m + 1 = dies.length + (depth + m + 1) := by omega
  have hrest : start + bs.length + (0 :: rest).length = size := by
    rw [List.length_cons]
    omega
  rw [hfuel, List.append_assoc, List.singleton_append, h.run _ _ (by omega) hrest,
    readSiblings_end, Option.map_some, List.append_nil]

theorem reads_node {start depth : Nat} {decl : AbbrevDecl} {values : List (Nat × Nat)}
    {bs inner : List Byte} {children : List Die}
    (hfind : decls.find? (·.code = decl.code) = some decl) (hcode : decl.code ≠ 0)
    (hnode : decl.hasChildren = true) (h : EncodesAll decl.attrs bs values)
    (hinner : Reads decls size (start + (uleb decl.code ++ bs).length) inner children depth) :
    Reads decls size start (uleb decl.code ++ bs ++ (inner ++ [0]))
      [.mk start decl.tag values children] (children.length + depth + 1) := by
  constructor
  · intro n rest hn hsize
    have hstart : size - (uleb decl.code ++ bs ++ (inner ++ [0]) ++ rest).length = start := by
      rw [List.length_append]
      omega
    have hread : readSiblings decls size n (inner ++ [0] ++ rest) = some (children, rest) := by
      apply hinner.children hn
      simp only [List.length_append, List.length_singleton] at hsize
      rw [List.length_append]
      omega
    rw [List.length_singleton, Nat.add_comm, readSiblings, hstart, List.append_assoc,
      List.append_assoc, readUleb_uleb, Option.bind_eq_bind, Option.bind_some]
    dsimp only
    rw [if_neg hcode, hfind]
    simp only [Option.bind_eq_bind, Option.bind_some, h.read, hnode, if_true, hread,
      Option.pure_def]
    cases readSiblings decls size n rest with
    | none => rfl
    | some p => rfl
  · have hpos := uleb_length_pos decl.code
    rw [List.length_append, List.length_append, List.length_singleton]
    omega

def unitHeader : List Byte := leBytes 2 (4 : BitVec 16) ++ (leBytes 4 (0 : BitVec 32) ++ [8])

theorem readUnit_node {depth : Nat} {decl : AbbrevDecl} {values : List (Nat × Nat)}
    {length : BitVec 32} {bs inner info : List Byte} {children : List Die}
    (hfind : decls.find? (·.code = decl.code) = some decl)
    (hnode : decl.hasChildren = true) (h : EncodesAll decl.attrs bs values)
    (hinfo : info = leBytes 4 length ++ unitHeader ++ (uleb decl.code ++ bs) ++ (inner ++ [0]))
    (hlength : length.toNat = info.length - 4) (hdepth : depth ≤ 10)
    (hinner : Reads decls info.length (11 + (uleb decl.code ++ bs).length) inner children depth) :
    readUnit decls info = some (.mk 11 decl.tag values children) := by
  have hlen : info.length =
      4 + 7 + (uleb decl.code ++ bs).length + (inner.length + 1) := by
    rw [hinfo]
    simp only [List.length_append, unitHeader, leBytes_length, List.length_singleton]
  have hread : readSiblings decls info.length info.length (inner ++ [0]) = some (children, []) := by
    have hchildren := @Reads.children decls _ _ _ _ _ hinner info.length
      (by have := hinner.length_le; omega) [] (by rw [List.length_nil]; omega)
    rwa [List.append_nil] at hchildren
  obtain ⟨entry, hentry⟩ : ∃ entry, entry = uleb decl.code ++ (bs ++ (inner ++ [0])) := ⟨_, rfl⟩
  have hfirst : readFixed 4 info = some (length.toNat, leBytes 2 (4 : BitVec 16) ++
      (leBytes 4 (0 : BitVec 32) ++ (leBytes 1 (8 : Byte) ++ entry))) := by
    have hassoc : info = leBytes 4 length ++ (leBytes 2 (4 : BitVec 16) ++
        (leBytes 4 (0 : BitVec 32) ++ (leBytes 1 (8 : Byte) ++ entry))) := by
      rw [hinfo, hentry]
      simp only [unitHeader, List.append_assoc]
      rfl
    rw [hassoc]
    exact @readFixed_append 4 length _
  have hversion : readFixed 2 (leBytes 2 (4 : BitVec 16) ++
      (leBytes 4 (0 : BitVec 32) ++ (leBytes 1 (8 : Byte) ++ entry))) =
        some (4, leBytes 4 (0 : BitVec 32) ++ (leBytes 1 (8 : Byte) ++ entry)) :=
    @readFixed_append 2 4 _
  have habbrevs : readFixed 4 (leBytes 4 (0 : BitVec 32) ++ (leBytes 1 (8 : Byte) ++ entry)) =
      some (0, leBytes 1 (8 : Byte) ++ entry) :=
    @readFixed_append 4 0 _
  have hsize : readFixed 1 (leBytes 1 (8 : Byte) ++ entry) = some (8, entry) :=
    @readFixed_append 1 8 _
  have hoffset : info.length - entry.length = 11 := by
    rw [hentry]
    simp only [List.length_append, List.length_singleton] at hlen ⊢
    omega
  have hcode : readUleb entry = some (decl.code, bs ++ (inner ++ [0])) := by
    rw [hentry]
    exact readUleb_uleb _ _
  rw [readUnit, hfirst]
  simp only [Option.bind_eq_bind, Option.bind_some, hversion, habbrevs, hsize]
  rw [if_pos ⟨hlength, trivial, trivial⟩, hcode, Option.bind_some]
  dsimp only
  rw [hfind, Option.bind_some, h.read, Option.bind_some]
  dsimp only
  rw [if_pos hnode, hread, Option.bind_some]
  dsimp only
  rw [if_pos rfl, hoffset, Option.pure_def]

end

end X86Assembler.DwarfInfo
