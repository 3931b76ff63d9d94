import X86Assembler.Library.FurtherReader
import X86Assembler.Library.PrefixCode

namespace X86Assembler.MachineCode

open CString (Byte)
open PrefixCode

def Continues {β : Type} (f : List Byte → Option (β × List Byte)) : Prop :=
  ∀ (bs tail : List Byte) (v : β) (more : List Byte), f bs = some (v, tail) →
    f (bs ++ more) = some (v, tail ++ more)

section Continues

variable {β γ : Type}

theorem continues_some (v : β) : Continues fun bs => some (v, bs) := by
  intro bs tail w more h
  cases h
  rfl

theorem Continues.map {f : List Byte → Option (β × List Byte)} (hf : Continues f) (g : β → γ) :
    Continues fun bs => (f bs).map fun found => (g found.1, found.2) := by
  intro bs tail w more h
  obtain ⟨⟨v, tail'⟩, hv, heq⟩ := Option.map_eq_some_iff.mp h
  cases heq
  show (f (bs ++ more)).map _ = _
  rw [hf _ _ _ more hv]
  rfl

theorem Continues.bind {f : List Byte → Option (β × List Byte)}
    {g : β → List Byte → Option (γ × List Byte)} (hf : Continues f) (hg : ∀ v, Continues (g v)) :
    Continues fun bs => (f bs).bind fun found => g found.1 found.2 := by
  intro bs tail w more h
  obtain ⟨⟨v, tail'⟩, hv, hw⟩ := Option.bind_eq_some_iff.mp h
  show (f (bs ++ more)).bind _ = _
  rw [hf _ _ _ more hv]
  exact hg v _ _ _ more hw

theorem take_more {n : Nat} {bs : List Byte} (h : n ≤ bs.length) (more : List Byte) :
    n ≤ (bs ++ more).length ∧ (bs ++ more).take n = bs.take n ∧
      (bs ++ more).drop n = bs.drop n ++ more := by
  refine ⟨?_, List.take_append_of_le_length h, List.drop_append_of_le_length h⟩
  rw [List.length_append]
  omega

theorem continues_readSigned (n width : Nat) : Continues (readSigned n width) := by
  intro bs tail w more h
  rw [readSigned] at h ⊢
  split at h
  · next hlen =>
      cases h
      obtain ⟨hmore, htake, hdrop⟩ := take_more hlen more
      rw [if_pos hmore, htake, hdrop]
  · cases h

theorem continues_readImm (n width : Nat) : Continues (readImm n width) :=
  (continues_readSigned n width).map fun v => Arg.imm v.toNat

theorem continues_readUnsigned (n : Nat) : Continues (readUnsigned n) := by
  intro bs tail w more h
  rw [readUnsigned] at h ⊢
  split at h
  · next hlen =>
      cases h
      obtain ⟨hmore, htake, hdrop⟩ := take_more hlen more
      rw [if_pos hmore, htake, hdrop]
  · cases h

theorem continues_readCount : Continues readCount := by
  intro bs tail w more h
  cases bs with
  | nil => cases h
  | cons b bs =>
      cases h
      rfl

theorem Continues.oneMore {f : List Byte → Option (Arg × List Byte)} (hf : Continues f) :
    Continues (oneMore f) := hf.map fun a => [a]

theorem continues_readSib (rex : Option Byte) (mod : Byte) : Continues (readSib rex mod) := by
  intro bs tail w more h
  cases bs with
  | nil => cases h
  | cons sib bs =>
      exact (continues_readSigned _ 32).map
        (fun v => ({
          base := if mod = 0 && sib &&& 7 = 5 then none
            else some (rexBit rex 0 + (sib &&& 7).toNat)
          index := if rexBit rex 1 + ((sib >>> 3) &&& 7).toNat = 4 then none
            else some (rexBit rex 1 + ((sib >>> 3) &&& 7).toNat, 2 ^ (sib >>> 6).toNat)
          displacement := v } : Address)) _ _ _ more h

theorem continues_readPlain (rex : Option Byte) (mod rm : Byte) :
    Continues (readPlain rex mod rm) :=
  (continues_readSigned _ 32).map fun v =>
    ({
      base := if mod = 0 && rm = 5 then none else some (rexBit rex 0 + rm.toNat)
      displacement := v
      ripRelative := mod = 0 && rm = 5 } : Address)

theorem continues_readModRm (rex : Option Byte) : Continues (readModRm rex) := by
  intro bs tail w more h
  cases bs with
  | nil => cases h
  | cons b bs =>
      rw [List.cons_append]
      rw [readModRm] at h ⊢
      split at h
      · next hthree =>
          cases h
          rw [if_pos hthree]
      · next hthree =>
          rw [if_neg hthree]
          split at h
          · next hfour =>
              rw [if_pos hfour]
              exact (continues_readSib rex (b >>> 6)).map
                (fun a => (⟨((b >>> 3) &&& 7).toNat, .memory a⟩ : ModRm)) _ _ _ more h
          · next hfour =>
              rw [if_neg hfour]
              exact (continues_readPlain rex (b >>> 6) (b &&& 7)).map
                (fun a => (⟨((b >>> 3) &&& 7).toNat, .memory a⟩ : ModRm)) _ _ _ more h

theorem continues_readRm (rex : Option Byte) (args : ModRm → List Arg)
    {next : List Byte → Option (List Arg × List Byte)} (hnext : Continues next) :
    Continues fun bs => readRm rex bs args next := by
  intro bs tail v more h
  obtain ⟨⟨m, tail₁⟩, hm, h⟩ := Option.bind_eq_some_iff.mp h
  obtain ⟨⟨found, tail₂⟩, hfound, h⟩ := Option.bind_eq_some_iff.mp h
  cases h
  exact readRm_of (continues_readModRm rex _ _ _ more hm) (hnext _ _ _ more hfound)

theorem continues_readArgs (rex : Option Byte) (opcode : Byte) (width : Nat) (layout : Layout) :
    Continues fun bs => readArgs rex opcode width bs layout := by
  cases layout <;> simp only [readArgs]
  case rmReg | regRm | regRmOf | rm => exact continues_readRm rex _ (continues_some [])
  case rmOne => exact continues_readRm rex _ (continues_some [Arg.imm 1])
  case rmCl => exact continues_readRm rex _ (continues_some [Arg.reg 8 1])
  case rmCount => exact continues_readRm rex _ continues_readCount.oneMore
  case rmImm | rmImm8 | regRmImm | regRmImm8 =>
    exact continues_readRm rex _ (continues_readImm _ _).oneMore
  case accImm => exact (continues_readImm _ _).map fun a => [.reg width 0, a]
  case accOpcode => exact continues_some _
  case opcodeImm =>
    exact (continues_readImm _ _).map fun a =>
      [regArg rex width (rexBit rex 0 + (opcode &&& 7).toNat), a]

theorem continues_readRegMem (rex : Option Byte) (width : Nat) :
    Continues (readRegMem rex width) := by
  intro bs tail v more h
  obtain ⟨⟨m, tail'⟩, hm, h⟩ := Option.bind_eq_some_iff.mp h
  rw [readRegMem, continues_readModRm rex _ _ _ more hm, Option.bind_some]
  dsimp only at h ⊢
  split at h
  · cases h
    rfl
  · cases h

theorem continues_readFurtherArgs (rex : Option Byte) (opcode : Byte) (width : Nat)
    (layout : FurtherLayout) : Continues fun bs => readFurtherArgs rex opcode width bs layout := by
  cases layout <;> simp only [readFurtherArgs]
  case nothing | opcodeReg | accumulator | accumulatorPair | strings => exact continues_some _
  case shown layout => exact continues_readArgs rex opcode width layout
  case regMem => exact continues_readRegMem rex width
  case rmRegCount => exact continues_readRm rex _ continues_readCount.oneMore
  case rmRegCl => exact continues_readRm rex _ (continues_some [Arg.reg 8 1])
  case signed n => exact (continues_readImm n 64).oneMore
  case byte => exact (continues_readUnsigned 1).oneMore
  case word => exact (continues_readUnsigned 2).oneMore
  case wordByte =>
    exact (continues_readUnsigned 2).bind fun a => (continues_readUnsigned 1).map fun b => [a, b]

end Continues

/-- The opcode, with the bytes behind it and whether `0F` stands in front of it. -/
inductive OpcodeAt (bs : List Byte) : Bool → Byte → List Byte → Prop
  | one {opcode : Byte} {rest : List Byte} : opcodeOn bs = opcode :: rest → opcode ≠ 0x0F →
      OpcodeAt bs false opcode rest
  | two {opcode : Byte} {rest : List Byte} : opcodeOn bs = 0x0F :: opcode :: rest →
      OpcodeAt bs true opcode rest

theorem opcodeOn_more {bs : List Byte} (h : opcodeOn bs ≠ []) (more : List Byte) :
    legacyOf (bs ++ more) = legacyOf bs ∧ rexOf (bs ++ more) = rexOf bs ∧
      opcodeOn (bs ++ more) = opcodeOn bs ++ more := by
  have hafter : afterLegacy bs ≠ [] := by
    intro hnil
    apply h
    rw [opcodeOn, hnil]
    split <;> rfl
  have hmore : afterLegacy (bs ++ more) = afterLegacy bs ++ more := by
    rw [afterLegacy, List.dropWhile_append, if_neg]
    · rfl
    · rw [List.isEmpty_iff]
      exact hafter
  have hlegacy : legacyOf (bs ++ more) = legacyOf bs := by
    rw [legacyOf, List.takeWhile_append, if_neg]
    · rfl
    · intro hlen
      apply hafter
      have hsplit := congrArg List.length (List.takeWhile_append_dropWhile (p := isLegacyPrefix) (l := bs))
      rw [List.length_append, hlen] at hsplit
      exact List.eq_nil_of_length_eq_zero (by rw [afterLegacy]; omega)
  have hrex : rexOf (bs ++ more) = rexOf bs := by
    rw [rexOf, rexOf, hmore, List.head?_append_of_ne_nil _ hafter]
  refine ⟨hlegacy, hrex, ?_⟩
  rw [opcodeOn, opcodeOn, hrex, hmore]
  split
  · rw [List.tail_append_of_ne_nil hafter]
  · rfl

section OpcodeAt

variable {bs rest : List Byte} {escape : Bool} {opcode : Byte}

theorem OpcodeAt.more (h : OpcodeAt bs escape opcode rest) (more : List Byte) :
    OpcodeAt (bs ++ more) escape opcode (rest ++ more) ∧ legacyOf (bs ++ more) = legacyOf bs ∧
      rexOf (bs ++ more) = rexOf bs := by
  cases h with
  | one hopcode hne =>
      obtain ⟨hlegacy, hrex, hon⟩ := opcodeOn_more (hopcode ▸ List.cons_ne_nil _ _) more
      exact ⟨.one (by rw [hon, hopcode]; rfl) hne, hlegacy, hrex⟩
  | two hopcode =>
      obtain ⟨hlegacy, hrex, hon⟩ := opcodeOn_more (hopcode ▸ List.cons_ne_nil _ _) more
      exact ⟨.two (by rw [hon, hopcode]; rfl), hlegacy, hrex⟩

theorem OpcodeAt.unique {escape' : Bool} {opcode' : Byte} {rest' : List Byte}
    (h : OpcodeAt bs escape opcode rest) (h' : OpcodeAt bs escape' opcode' rest') :
    escape = escape' ∧ opcode = opcode' ∧ rest = rest' := by
  cases h with
  | one hone hne =>
      cases h' with
      | one hone' hne' =>
          cases hone.symm.trans hone'
          exact ⟨rfl, rfl, rfl⟩
      | two htwo =>
          cases hone.symm.trans htwo
          exact absurd rfl hne
  | two htwo =>
      cases h' with
      | one hone hne =>
          cases htwo.symm.trans hone
          exact absurd rfl hne
      | two htwo' =>
          cases htwo.symm.trans htwo'
          exact ⟨rfl, rfl, rfl⟩

end OpcodeAt

theorem digitOf_more {rest : List Byte} (h : rest ≠ []) (more : List Byte) :
    digitOf (rest ++ more) = digitOf rest := by
  obtain ⟨b, tail, rfl⟩ := List.exists_cons_of_ne_nil h
  rfl

theorem digitOf_lt (bs : List Byte) : digitOf bs < 8 := by
  have hall : ∀ b : Byte, ((b >>> 3) &&& 7).toNat < 8 := by decide +kernel
  exact hall _

/-- A table of opcodes in which only those that have operands depend on the digit behind them. -/
def DigitFree {ε β : Type} (table : Nat → Option ε) (read : ε → List Byte → Option β) : Prop :=
  ∀ (d d' : Fin 8) (e : ε) (v : β), table d.val = some e → read e [] = some v →
    table d'.val = some e

theorem DigitFree.more {ε β : Type} {table : Nat → Option ε} {read : ε → List Byte → Option β}
    (h : DigitFree table read) {rest : List Byte} {e : ε} {v : β}
    (hentry : table (digitOf rest) = some e) (hread : read e rest = some v) (more : List Byte) :
    table (digitOf (rest ++ more)) = some e := by
  by_cases hnil : rest = []
  · subst hnil
    exact h ⟨_, digitOf_lt []⟩ ⟨_, digitOf_lt more⟩ e v hentry hread
  · rw [digitOf_more hnil more]
    exact hentry

theorem DigitFree.ends {ε β : Type} {table : Nat → Option ε}
    {read : ε → List Byte → Option (β × List Byte)} (h : DigitFree table read)
    (hread : ∀ e, Continues (read e)) {rest more : List Byte} {e e' : ε} {v v' : β}
    (hentry : table (digitOf rest) = some e) (hv : read e rest = some (v, []))
    (hentry' : table (digitOf (rest ++ more)) = some e')
    (hv' : read e' (rest ++ more) = some (v', [])) : more = [] := by
  cases (h.more hentry hv more).symm.trans hentry'
  cases (hread e _ _ _ more hv).symm.trans hv'
  rfl

theorem operandWidth_pos (legacy : List Byte) (rex : Option Byte) (byte : Bool) :
    0 < operandWidth legacy rex byte / 8 := by
  rw [operandWidth]
  split
  · decide
  · split
    · decide
    · split <;> decide

theorem immLength_pos (width : Nat) : 0 < immLength width := by
  rw [immLength]
  split
  · decide
  · split <;> decide

theorem readSigned_nil {n width : Nat} (h : 0 < n) : readSigned n width [] = none :=
  if_neg (Nat.not_le.mpr h)

theorem readArgs_nil {rex : Option Byte} {opcode : Byte} {width : Nat} {layout : Layout}
    {found : List Arg × List Byte} (hwidth : 0 < width / 8)
    (h : readArgs rex opcode width [] layout = some found) : layout = .accOpcode := by
  cases layout with
  | accOpcode => rfl
  | accImm =>
      rw [readArgs, readImm, readSigned_nil (immLength_pos width)] at h
      cases h
  | opcodeImm =>
      rw [readArgs, readImm, readSigned_nil hwidth] at h
      cases h
  | rmReg | regRm | regRmOf | rm | rmOne | rmCl | rmCount | rmImm | rmImm8 | regRmImm
    | regRmImm8 => cases h

/-- The table of one instruction set, behind `0F` or not. -/
def generalEntry (escape : Bool) (opcode : Byte) (digit : Nat) : Option Entry :=
  if escape then twoByteEntry opcode else oneByteEntry opcode digit

def furtherEntry (escape : Bool) (opcode : Byte) (digit : Nat) : Option FurtherEntry :=
  if escape then furtherTwoByte opcode digit else furtherOneByte opcode digit

theorem instructionOf_cases {bs : List Byte} {i : Instruction} (h : instructionOf bs = some i) :
    ∃ escape opcode rest entry args, OpcodeAt bs escape opcode rest ∧
      generalEntry escape opcode (digitOf rest) = some entry ∧
      readArgs (rexOf bs) opcode (operandWidth (legacyOf bs) (rexOf bs) entry.byte) rest
        entry.layout = some (args, []) := by
  have hfound : ∀ {opcode : Byte} {rest : List Byte} {entry : Entry} {j : Instruction},
      readEntry (legacyOf bs) (rexOf bs) opcode rest entry = some j →
        ∃ args, readArgs (rexOf bs) opcode (operandWidth (legacyOf bs) (rexOf bs) entry.byte) rest
          entry.layout = some (args, []) := by
    intro opcode rest entry j hread
    rw [readEntry] at hread
    split at hread
    · next args hargs => exact ⟨args, hargs⟩
    · cases hread
  rw [instructionOf] at h
  split at h
  · split at h
    · next opcode rest hon =>
        obtain ⟨entry, hentry, hread⟩ := Option.bind_eq_some_iff.mp h
        obtain ⟨args, hargs⟩ := hfound hread
        exact ⟨true, opcode, rest, entry, args, .two hon, hentry, hargs⟩
    · next opcode rest hnot hon =>
        obtain ⟨j, hj, -⟩ := Option.map_eq_some_iff.mp h
        obtain ⟨entry, hentry, hread⟩ := Option.bind_eq_some_iff.mp hj
        obtain ⟨args, hargs⟩ := hfound hread
        refine ⟨false, opcode, rest, entry, args, .one hon ?_, hentry, hargs⟩
        rintro rfl
        cases hentry
    · cases h
  · cases h

theorem furtherInstructionOf_cases {bs : List Byte} {i : FurtherInstruction}
    (h : furtherInstructionOf bs = some i) :
    ∃ escape opcode rest entry args, OpcodeAt bs escape opcode rest ∧
      furtherEntry escape opcode (digitOf rest) = some entry ∧
      readFurtherArgs (rexOf bs) opcode (entry.width.width (legacyOf bs) (rexOf bs)) rest
        entry.layout = some (args, []) := by
  have hfound : ∀ {opcode : Byte} {rest : List Byte} {entry : FurtherEntry} {j : FurtherInstruction},
      readFurtherEntry (legacyOf bs) (rexOf bs) opcode rest entry = some j →
        ∃ args, readFurtherArgs (rexOf bs) opcode (entry.width.width (legacyOf bs) (rexOf bs)) rest
          entry.layout = some (args, []) := by
    intro opcode rest entry j hread
    rw [readFurtherEntry] at hread
    split at hread
    · cases hread
    · split at hread
      · next args hargs => exact ⟨args, hargs⟩
      · cases hread
  rw [furtherInstructionOf] at h
  split at h
  · split at h
    · next opcode rest hon =>
        obtain ⟨entry, hentry, hread⟩ := Option.bind_eq_some_iff.mp h
        obtain ⟨args, hargs⟩ := hfound hread
        exact ⟨true, opcode, rest, entry, args, .two hon, hentry, hargs⟩
    · next opcode rest hnot hon =>
        obtain ⟨entry, hentry, hread⟩ := Option.bind_eq_some_iff.mp h
        obtain ⟨args, hargs⟩ := hfound hread
        refine ⟨false, opcode, rest, entry, args, .one hon ?_, hentry, hargs⟩
        rintro rfl
        cases hentry
    · cases h
  · cases h

theorem oneByteEntry_accOpcode : ∀ (opcode : Byte) (d : Fin 8),
    (oneByteEntry opcode d.val).any (fun entry => entry.layout = .accOpcode) = true →
      opcode ∈ [0x90#8, 0x91, 0x92, 0x93, 0x94, 0x95, 0x96, 0x97] := by decide +kernel

theorem digitFree_general (escape : Bool) (opcode : Byte) (legacy : List Byte) (rex : Option Byte) :
    DigitFree (generalEntry escape opcode)
      fun entry bs => readArgs rex opcode (operandWidth legacy rex entry.byte) bs entry.layout := by
  intro d d' entry v hentry hread
  have hlayout := readArgs_nil (operandWidth_pos legacy rex entry.byte) hread
  cases escape with
  | true => exact hentry
  | false =>
      have hmem := oneByteEntry_accOpcode opcode d (by
        have hone : oneByteEntry opcode d.val = some entry := hentry
        rw [hone, Option.any_some, hlayout]
        rfl)
      simp only [List.mem_cons, List.not_mem_nil, or_false] at hmem
      rcases hmem with rfl | rfl | rfl | rfl | rfl | rfl | rfl | rfl <;> exact hentry

theorem furtherOneByte_digit {opcode : Byte} {d : Nat} {entry : FurtherEntry}
    (h : furtherOneByte opcode d = some entry) :
    entry.layout = .shown .rm ∨ ∀ d', furtherOneByte opcode d' = some entry := by
  by_cases hpop : opcode = 0x8F
  · subst hpop
    refine .inl ?_
    have hone : (if d = 0 then some ⟨.pop, .wide, .shown .rm⟩ else none) = some entry := h
    split at hone <;> cases hone
    rfl
  · by_cases hgroup : opcode = 0xFF
    · subst hgroup
      refine .inl ?_
      have hone : group5 d = some entry := h
      unfold group5 at hone
      split at hone <;> cases hone <;> rfl
    · refine .inr fun d' => ?_
      rw [← h]
      simp only [furtherOneByte, hpop, hgroup, if_false]

theorem furtherTwoByte_digit {opcode : Byte} {d : Nat} {entry : FurtherEntry}
    (h : furtherTwoByte opcode d = some entry) :
    entry.layout = .shown .rmCount ∨ ∀ d', furtherTwoByte opcode d' = some entry := by
  by_cases hgroup : opcode = 0xBA
  · subst hgroup
    refine .inl ?_
    have hone : group8 d = some entry := h
    unfold group8 at hone
    split at hone <;> cases hone <;> rfl
  · refine .inr fun d' => ?_
    rw [← h]
    simp only [furtherTwoByte, hgroup, if_false]

theorem digitFree_further (escape : Bool) (opcode : Byte) (legacy : List Byte) (rex : Option Byte) :
    DigitFree (furtherEntry escape opcode)
      fun entry bs => readFurtherArgs rex opcode (entry.width.width legacy rex) bs entry.layout := by
  intro d d' entry v hentry hread
  cases escape with
  | true =>
      rcases furtherTwoByte_digit hentry with hlayout | hall
      · dsimp only at hread
        rw [hlayout] at hread
        cases hread
      · exact hall _
  | false =>
      rcases furtherOneByte_digit hentry with hlayout | hall
      · dsimp only at hread
        rw [hlayout] at hread
        cases hread
      · exact hall _

theorem prefixFree_instructionOf : PrefixFree instructionOf where
  nil := rfl
  ends := by
    intro word more i j hi hj
    obtain ⟨escape, opcode, rest, entry, args, hat, hentry, hread⟩ := instructionOf_cases hi
    obtain ⟨hmore, hlegacy, hrex⟩ := hat.more more
    obtain ⟨escape', opcode', rest', entry', args', hat', hentry', hread'⟩ := instructionOf_cases hj
    obtain ⟨rfl, rfl, rfl⟩ := hmore.unique hat'
    rw [hlegacy, hrex] at hread'
    exact (digitFree_general escape opcode (legacyOf word) (rexOf word)).ends
      (fun entry => continues_readArgs _ _ _ entry.layout) hentry hread hentry' hread'

theorem prefixFree_furtherInstructionOf : PrefixFree furtherInstructionOf where
  nil := rfl
  ends := by
    intro word more i j hi hj
    obtain ⟨escape, opcode, rest, entry, args, hat, hentry, hread⟩ := furtherInstructionOf_cases hi
    obtain ⟨hmore, hlegacy, hrex⟩ := hat.more more
    obtain ⟨escape', opcode', rest', entry', args', hat', hentry', hread'⟩ :=
      furtherInstructionOf_cases hj
    obtain ⟨rfl, rfl, rfl⟩ := hmore.unique hat'
    rw [hlegacy, hrex] at hread'
    exact (digitFree_further escape opcode (legacyOf word) (rexOf word)).ends
      (fun entry => continues_readFurtherArgs _ _ _ entry.layout) hentry hread hentry' hread'

theorem sseInstructionOf_cases {bs : List Byte} {i : SseInstruction}
    (h : sseInstructionOf bs = some i) :
    ∃ opcode rest entry tail m, OpcodeAt bs true opcode rest ∧
      sseEntry (legacyOf bs) (opcode :: rest) = some (entry, tail) ∧
      readModRm (rexOf bs) tail = some (m, []) := by
  rw [sseInstructionOf] at h
  split at h
  · next rest hon =>
      obtain ⟨⟨entry, tail⟩, hentry, hread⟩ := Option.bind_eq_some_iff.mp h
      cases rest with
      | nil => cases hentry
      | cons opcode rest =>
          rw [readSse] at hread
          split at hread
          · next m hm => exact ⟨opcode, rest, entry, tail, m, .two hon, hentry, hm⟩
          · cases hread
  · cases h

theorem sseEntry_more {legacy rest tail : List Byte} {opcode : Byte} {entry : SseEntry}
    (h : sseEntry legacy (opcode :: rest) = some (entry, tail)) (more : List Byte) :
    sseEntry legacy (opcode :: (rest ++ more)) = some (entry, tail ++ more) := by
  by_cases hthree : opcode = 0x38
  · subst hthree
    cases rest with
    | nil =>
        obtain ⟨e, he, -⟩ := Option.map_eq_some_iff.mp h
        have hnone : sseTwoByte legacy 0x38 = none := by
          simp [sseTwoByte, sseMove, sseArithmetic, ssePacked, byPrefix]
        cases hnone.symm.trans he
    | cons op rest =>
        obtain ⟨o, ho, heq⟩ := Option.map_eq_some_iff.mp h
        cases heq
        show (byPrefix none (sseThreeByte op) none none legacy).map _ = _
        rw [ho]
        rfl
  · have htwo : ∀ tail', sseEntry legacy (opcode :: tail') =
        (sseTwoByte legacy opcode).map fun entry => (entry, tail') := by
      intro tail'
      rw [sseEntry.eq_def]
      split
      · next heq =>
          cases heq
          exact absurd rfl hthree
      · next heq =>
          cases heq
          rfl
      · next heq => cases heq
    rw [htwo] at h ⊢
    obtain ⟨e, he, heq⟩ := Option.map_eq_some_iff.mp h
    cases heq
    rw [he]
    rfl

theorem prefixFree_sseInstructionOf : PrefixFree sseInstructionOf where
  nil := rfl
  ends := by
    intro word more i j hi hj
    obtain ⟨opcode, rest, entry, tail, m, hat, hentry, hread⟩ := sseInstructionOf_cases hi
    obtain ⟨hmore, hlegacy, hrex⟩ := hat.more more
    obtain ⟨opcode', rest', entry', tail', m', hat', hentry', hread'⟩ := sseInstructionOf_cases hj
    obtain ⟨-, rfl, rfl⟩ := hmore.unique hat'
    rw [hlegacy, sseEntry_more hentry more] at hentry'
    cases hentry'
    rw [hrex, continues_readModRm _ _ _ _ more hread] at hread'
    cases hread'
    rfl

def sseOpcodes : List Byte :=
  [0x10, 0x11, 0x28, 0x29, 0x38, 0x58, 0x59, 0x5C, 0x5E, 0x64, 0x65, 0x66, 0x6F, 0x74, 0x75, 0x76,
   0x7F, 0xD4, 0xDB, 0xDF, 0xEB, 0xEF, 0xF8, 0xF9, 0xFA, 0xFB, 0xFC, 0xFD, 0xFE]

theorem sseEntry_opcode {legacy rest tail : List Byte} {opcode : Byte} {entry : SseEntry}
    (h : sseEntry legacy (opcode :: rest) = some (entry, tail)) : opcode ∈ sseOpcodes := by
  by_contra hno
  simp only [sseOpcodes, List.mem_cons, List.not_mem_nil, or_false, not_or] at hno
  have hthree : opcode ≠ 0x38 := by tauto
  rw [sseEntry.eq_def] at h
  split at h
  · next heq =>
      cases heq
      exact absurd rfl hthree
  · next heq =>
      cases heq
      obtain ⟨e, he, -⟩ := Option.map_eq_some_iff.mp h
      simp only [sseTwoByte, sseMove, sseArithmetic, ssePacked, byPrefix, hno, or_self, if_false,
        ite_self, Option.or_none, Option.map_none, reduceCtorEq] at he
  · next heq => cases heq

theorem general_further : ∀ (opcode : Byte) (d : Fin 8),
    ((oneByteEntry opcode d.val).isSome = true → furtherOneByte opcode d.val = none) ∧
      ((twoByteEntry opcode).isSome = true → furtherTwoByte opcode d.val = none) := by
  decide +kernel

theorem sse_further : ∀ opcode ∈ sseOpcodes, ∀ d : Fin 8,
    twoByteEntry opcode = none ∧ furtherTwoByte opcode d.val = none := by decide +kernel

theorem generalEntry_further {escape : Bool} {opcode : Byte} {bs : List Byte} {entry : Entry}
    (h : generalEntry escape opcode (digitOf bs) = some entry) :
    furtherEntry escape opcode (digitOf bs) = none := by
  obtain ⟨hone, htwo⟩ := general_further opcode ⟨_, digitOf_lt bs⟩
  have hsome : (generalEntry escape opcode (digitOf bs)).isSome = true := by rw [h]; rfl
  cases escape with
  | true => exact htwo hsome
  | false => exact hone hsome

abbrev AnyInstruction := (Instruction ⊕ SseInstruction) ⊕ FurtherInstruction

def anyInstructionOf : List Byte → Option AnyInstruction :=
  either (either instructionOf sseInstructionOf) furtherInstructionOf

theorem prefixFree_moves : PrefixFree (either instructionOf sseInstructionOf) := by
  apply prefixFree_instructionOf.either prefixFree_sseInstructionOf
  · intro word more i k hi hk
    obtain ⟨escape, opcode, rest, entry, args, hat, hentry, -⟩ := instructionOf_cases hi
    obtain ⟨hmore, -, -⟩ := hat.more more
    obtain ⟨opcode', rest', entry', tail, m, hat', hentry', -⟩ := sseInstructionOf_cases hk
    obtain ⟨rfl, rfl, rfl⟩ := hmore.unique hat'
    have hnone := (sse_further _ (sseEntry_opcode hentry') 0).1
    exact nomatch hnone.symm.trans hentry
  · intro word more i k hk hi
    obtain ⟨opcode, rest, entry, tail, m, hat, hentry, -⟩ := sseInstructionOf_cases hk
    obtain ⟨hmore, -, -⟩ := hat.more more
    obtain ⟨escape, opcode', rest', entry', args, hat', hentry', -⟩ := instructionOf_cases hi
    obtain ⟨rfl, rfl, rfl⟩ := hmore.unique hat'
    have hnone := (sse_further _ (sseEntry_opcode hentry) 0).1
    exact nomatch hnone.symm.trans hentry'

theorem prefixFree_anyInstructionOf : PrefixFree anyInstructionOf := by
  apply prefixFree_moves.either prefixFree_furtherInstructionOf
  · intro word more i k hi hk
    obtain ⟨escape', opcode', rest', entry', args', hat', hentry', -⟩ :=
      furtherInstructionOf_cases hk
    rcases either_eq_some hi with ⟨i, hi⟩ | ⟨i, hi⟩
    · obtain ⟨escape, opcode, rest, entry, args, hat, hentry, hread⟩ := instructionOf_cases hi
      obtain ⟨hmore, -, -⟩ := hat.more more
      obtain ⟨rfl, rfl, rfl⟩ := hmore.unique hat'
      have hkept := (digitFree_general escape opcode (legacyOf word) (rexOf word)).more hentry hread
        more
      exact nomatch (generalEntry_further hkept).symm.trans hentry'
    · obtain ⟨opcode, rest, entry, tail, m, hat, hentry, -⟩ := sseInstructionOf_cases hi
      obtain ⟨hmore, -, -⟩ := hat.more more
      obtain ⟨rfl, rfl, rfl⟩ := hmore.unique hat'
      have hnone := (sse_further _ (sseEntry_opcode hentry) ⟨_, digitOf_lt (rest ++ more)⟩).2
      exact nomatch hnone.symm.trans hentry'
  · intro word more i k hk hi
    obtain ⟨escape, opcode, rest, entry, args, hat, hentry, hread⟩ := furtherInstructionOf_cases hk
    obtain ⟨hmore, -, -⟩ := hat.more more
    have hkept := (digitFree_further escape opcode (legacyOf word) (rexOf word)).more hentry hread
      more
    rcases either_eq_some hi with ⟨i, hi⟩ | ⟨i, hi⟩
    · obtain ⟨escape', opcode', rest', entry', args', hat', hentry', -⟩ := instructionOf_cases hi
      obtain ⟨rfl, rfl, rfl⟩ := hmore.unique hat'
      exact nomatch (generalEntry_further hentry').symm.trans hkept
    · obtain ⟨opcode', rest', entry', tail, m, hat', hentry', -⟩ := sseInstructionOf_cases hi
      obtain ⟨rfl, rfl, rfl⟩ := hmore.unique hat'
      have hnone := (sse_further _ (sseEntry_opcode hentry') ⟨_, digitOf_lt (rest ++ more)⟩).2
      exact nomatch hnone.symm.trans hkept

theorem anyInstructionOf_general {bs : List Byte} {i : Instruction} (h : instructionOf bs = some i) :
    anyInstructionOf bs = some (.inl (.inl i)) := by
  rw [anyInstructionOf, either, either, h]
  rfl

theorem anyInstructionOf_sse {bs : List Byte} {i : SseInstruction}
    (h : sseInstructionOf bs = some i) : anyInstructionOf bs = some (.inl (.inr i)) := by
  have hnone : instructionOf bs = none := by
    cases hi : instructionOf bs with
    | none => rfl
    | some j =>
        exfalso
        obtain ⟨escape, opcode, rest, entry, args, hat, hentry, -⟩ := instructionOf_cases hi
        obtain ⟨opcode', rest', entry', tail, m, hat', hentry', -⟩ := sseInstructionOf_cases h
        obtain ⟨rfl, rfl, rfl⟩ := hat.unique hat'
        have hnone := (sse_further _ (sseEntry_opcode hentry') 0).1
        exact nomatch hnone.symm.trans hentry
  rw [anyInstructionOf, either, either, hnone, h]
  rfl

theorem anyInstructionOf_further {bs : List Byte} {i : FurtherInstruction}
    (h : furtherInstructionOf bs = some i) : anyInstructionOf bs = some (.inr i) := by
  obtain ⟨escape, opcode, rest, entry, args, hat, hentry, -⟩ := furtherInstructionOf_cases h
  have hgeneral : instructionOf bs = none := by
    cases hi : instructionOf bs with
    | none => rfl
    | some j =>
        exfalso
        obtain ⟨escape', opcode', rest', entry', args', hat', hentry', -⟩ := instructionOf_cases hi
        obtain ⟨rfl, rfl, rfl⟩ := hat.unique hat'
        exact nomatch (generalEntry_further hentry').symm.trans hentry
  have hsse : sseInstructionOf bs = none := by
    cases hi : sseInstructionOf bs with
    | none => rfl
    | some j =>
        exfalso
        obtain ⟨opcode', rest', entry', tail, m, hat', hentry', -⟩ := sseInstructionOf_cases hi
        obtain ⟨rfl, rfl, rfl⟩ := hat.unique hat'
        have hnone := (sse_further _ (sseEntry_opcode hentry') ⟨_, digitOf_lt rest⟩).2
        exact nomatch hnone.symm.trans hentry
  rw [anyInstructionOf, either, either, hgeneral, hsse, h]
  rfl

end X86Assembler.MachineCode
