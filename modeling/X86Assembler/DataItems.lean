import X86Assembler.LabelLayout
import X86Assembler.ParserTermination
import X86Assembler.StatementBytes

namespace X86Assembler

open CString (Byte)
open LittleEndian (leBytes)

/-- An item of a data directive as it is written. The characters of a string literal are
those after its escapes are processed; literals without a comma between them are one item. -/
inductive DataItem
  | number (v : Word)
  | strings (first : List Byte) (more : List (List Byte))
  | label (name : Label)
  | difference (lhs rhs : Label)

def literalText (chars : List Byte) : Text := CString.copyBounded _ chars

def concatText (first : List Byte) (more : List (List Byte)) : Text :=
  more.foldl (fun text chars => Parser.appendString text (literalText chars)) (literalText first)

def DataItem.operand : DataItem → Operand
  | .number v => .imm v
  | .strings first more => .string (concatText first more)
  | .label name => .label name
  | .difference lhs rhs => .labelDiff lhs rhs

/-- The bytes that an item stands for, with the final addresses of its names. -/
def DataItem.encoding (final : AssemblerContext) (type : InstType) : DataItem → Option (List Byte)
  | .number v => some (leBytes (itemSize type) v)
  | .strings first more => some (first ++ more.flatten)
  | .label name => (findSymbolAddress final name).map (leBytes (itemSize type))
  | .difference lhs rhs =>
      match findSymbolAddress final lhs, findSymbolAddress final rhs with
      | some l, some r => some (leBytes (itemSize type) (l - r))
      | _, _ => none

def StringKept (first : List Byte) (more : List (List Byte)) : Prop :=
  (0 : Byte) ∉ first ++ more.flatten ∧ first.length < maxLineLength ∧
    (more.flatten = [] ∨ (first ++ more.flatten).length < maxLineLength - 1)

theorem literalText_bytes {chars : List Byte} (h : (0 : Byte) ∉ chars)
    (hlen : chars.length < maxLineLength) : (literalText chars).bytes = chars :=
  CString.copyBounded_bytes_of_fits hlen h

theorem literalText_length (chars : List Byte) :
    (literalText chars).bytes.length ≤ chars.length := by
  rw [literalText, CString.copyBounded, List.length_take, CString.untilNul]
  exact Nat.le_trans (Nat.min_le_right _ _) (List.takeWhile_prefix _).length_le

theorem appendString_length (text more : Text) :
    (Parser.appendString text more).bytes.length ≤ text.bytes.length + more.bytes.length := by
  rw [Parser.appendString]
  split
  · exact Nat.le_trans (literalText_length _) (Nat.le_of_eq List.length_append)
  · exact Nat.le_add_right _ _

theorem appendString_kept (text more : Text) :
    Parser.appendString text more = text ∨ (Parser.appendString text more).bytes.length < maxLineLength - 1 := by
  rw [Parser.appendString]
  split
  · rename_i hlt
    right
    apply Nat.lt_of_le_of_lt (literalText_length _)
    rwa [List.length_append]
  · exact .inl rfl

theorem appendString_bytes {text more : Text}
    (h : text.bytes.length + more.bytes.length < maxLineLength - 1) :
    (Parser.appendString text more).bytes = text.bytes ++ more.bytes := by
  rw [Parser.appendString, if_pos h]
  apply CString.copyBounded_bytes_of_fits
  · rw [List.length_append]
    exact Nat.lt_of_lt_of_le h (Nat.sub_le _ _)
  · rw [List.mem_append]
    rintro (hmem | hmem)
    · exact text.no_nul hmem
    · exact more.no_nul hmem

section Fold

variable (more : List (List Byte)) (text : Text)

theorem foldl_append_length :
    (more.foldl (fun text chars => Parser.appendString text (literalText chars)) text).bytes.length ≤
      text.bytes.length + more.flatten.length := by
  induction more generalizing text with
  | nil => exact Nat.le_add_right _ _
  | cons chars more ih =>
      apply Nat.le_trans (ih (Parser.appendString text (literalText chars)))
      rw [List.flatten_cons, List.length_append]
      have hone := appendString_length text (literalText chars)
      have hchars := literalText_length chars
      omega

theorem foldl_append_kept :
    more.foldl (fun text chars => Parser.appendString text (literalText chars)) text = text ∨
      (more.foldl (fun text chars => Parser.appendString text (literalText chars)) text).bytes.length <
        maxLineLength - 1 := by
  induction more generalizing text with
  | nil => exact .inl rfl
  | cons chars more ih =>
      cases ih (Parser.appendString text (literalText chars)) with
      | inr hlt => exact .inr hlt
      | inl hsame =>
          rw [List.foldl_cons, hsame]
          exact appendString_kept text (literalText chars)

theorem foldl_append_empty (h : more.flatten = []) :
    more.foldl (fun text chars => Parser.appendString text (literalText chars)) text = text := by
  induction more with
  | nil => rfl
  | cons chars more ih =>
      rw [List.flatten_cons, List.append_eq_nil_iff] at h
      obtain ⟨rfl, hmore⟩ := h
      have hone : Parser.appendString text (literalText []) = text := by
        rw [Parser.appendString]
        split
        · have hnil : (literalText []).bytes = [] := literalText_bytes List.not_mem_nil (by decide)
          rw [hnil, List.append_nil, CString.copyBounded_bytes]
        · rfl
      rw [List.foldl_cons, hone]
      exact ih hmore

theorem foldl_append_bytes (h : (0 : Byte) ∉ more.flatten)
    (hlen : (text.bytes ++ more.flatten).length < maxLineLength - 1) :
    (more.foldl (fun text chars => Parser.appendString text (literalText chars)) text).bytes =
      text.bytes ++ more.flatten := by
  induction more generalizing text with
  | nil => exact (List.append_nil _).symm
  | cons chars more ih =>
      rw [List.flatten_cons, List.mem_append, not_or] at h
      rw [List.flatten_cons, ← List.append_assoc, List.length_append, List.length_append] at hlen
      have hchars : (literalText chars).bytes = chars :=
        literalText_bytes h.1 (by omega)
      have hone : (Parser.appendString text (literalText chars)).bytes = text.bytes ++ chars := by
        rw [appendString_bytes, hchars]
        rw [hchars]
        omega
      rw [List.foldl_cons, ih _ h.2, hone, List.flatten_cons, List.append_assoc]
      rw [hone, List.length_append, List.length_append]
      exact hlen

end Fold

theorem concatText_length (first : List Byte) (more : List (List Byte)) :
    (concatText first more).bytes.length ≤ (first ++ more.flatten).length := by
  apply Nat.le_trans (foldl_append_length more _)
  rw [List.length_append]
  exact Nat.add_le_add_right (literalText_length first) _

theorem concatText_bytes_iff (first : List Byte) (more : List (List Byte)) :
    (concatText first more).bytes = first ++ more.flatten ↔ StringKept first more := by
  constructor
  · intro heq
    have hnul : (0 : Byte) ∉ first ++ more.flatten := heq ▸ (concatText first more).no_nul
    have hlt : (first ++ more.flatten).length < maxLineLength :=
      heq ▸ (concatText first more).length_lt
    rw [List.length_append] at hlt
    refine ⟨hnul, by omega, ?_⟩
    cases foldl_append_kept more (literalText first) with
    | inl hsame =>
        left
        rw [concatText, hsame] at heq
        have hshort := literalText_length first
        rw [heq, List.length_append] at hshort
        exact List.eq_nil_of_length_eq_zero (by omega)
    | inr hshort =>
        right
        rw [← heq]
        exact hshort
  · rintro ⟨hnul, hfirst, hmore⟩
    rw [List.mem_append, not_or] at hnul
    have hbytes := literalText_bytes hnul.1 hfirst
    cases hmore with
    | inl hnil => rw [concatText, foldl_append_empty more _ hnil, hbytes, hnil, List.append_nil]
    | inr hlen =>
        rw [concatText, foldl_append_bytes more _ hnul.2 (by rwa [hbytes]), hbytes]

/-- The tokens at hand are string literals with these characters, and no more follow. -/
inductive StringsAhead : ParserState → List Byte → List (List Byte) → Prop
  | last {p : ParserState} {chars : List Byte} : p.current.type = .string →
      p.current.text = literalText chars → p.advance.current.type ≠ .string →
      StringsAhead p chars []
  | more {p : ParserState} {chars next : List Byte} {more : List (List Byte)} :
      p.current.type = .string → p.current.text = literalText chars →
      StringsAhead p.advance next more → StringsAhead p chars (next :: more)

theorem nextToken_string (lx : Lexer) {bs : List Byte}
    (h : skipWhitespace lx.rest = 0x22#8 :: bs) :
    (nextToken lx).1.type = .string ∧
      (nextToken lx).1.text = literalText (lexString (maxLineLength - 1) bs).1 := by
  rw [nextToken]
  simp only [h]
  exact ⟨rfl, rfl⟩

theorem StringsAhead.string {p : ParserState} {chars : List Byte} {more : List (List Byte)}
    (h : StringsAhead p chars more) :
    p.current.type = .string ∧ p.current.text = literalText chars := by
  cases h with
  | last htype htext _ => exact ⟨htype, htext⟩
  | more htype htext _ => exact ⟨htype, htext⟩

theorem stringConcat_ahead {p : ParserState} {chars : List Byte} {more : List (List Byte)}
    (h : StringsAhead p chars more) {n : Nat} (hn : p.advance.remaining ≤ n) (text : Text) :
    ∃ p', Parser.stringConcat n text p.advance =
      (some (more.foldl (fun text chars => Parser.appendString text (literalText chars)) text), p') := by
  induction h generalizing n text with
  | @last p chars _ _ hnext =>
      cases n with
      | zero => exact ⟨p.advance, rfl⟩
      | succ n =>
          refine ⟨p.advance, ?_⟩
          show (if p.advance.current.type = .string then _ else pure text : Parser Text) p.advance = _
          rw [if_neg hnext]
          rfl
  | @more p chars next more _ _ hahead ih =>
      obtain ⟨htype, htext⟩ := hahead.string
      have hfurther : p.advance.advance.remaining < p.advance.remaining := by
        apply (advance_further _).1
        rw [htype]
        decide
      cases n with
      | zero => omega
      | succ n =>
          obtain ⟨p', hp'⟩ := ih (n := n) (by omega) (Parser.appendString text (literalText next))
          refine ⟨p', ?_⟩
          show (if p.advance.current.type = .string then
            (do
              Parser.advance
              Parser.stringConcat n (Parser.appendString text p.advance.current.text))
            else pure text : Parser Text) p.advance = _
          rw [if_pos htype, htext]
          exact hp'

theorem parseOperand_strings {p : ParserState} {first : List Byte} {more : List (List Byte)}
    (h : StringsAhead p first more) :
    ∃ p', Parser.parseOperand p = (some (DataItem.strings first more).operand, p') := by
  obtain ⟨htype, htext⟩ := h.string
  obtain ⟨p', hp'⟩ := stringConcat_ahead h (Nat.le_refl _) (literalText first)
  refine ⟨p', ?_⟩
  have hbody : Parser.parseOperand p = (do
      Parser.advance
      let q ← Fallible.get
      let text ← Parser.stringConcat q.remaining p.current.text
      pure (.string text) : Parser Operand) p := by
    rw [Parser.parseOperand, Fallible.bind_of_some (Fallible.get_run p)]
    simp only [htype, reduceCtorEq, decide_false, Bool.false_and, Bool.false_eq_true, if_false]
  rw [hbody, htext]
  have hadvance : Parser.advance p = (some (), p.advance) := rfl
  rw [Fallible.bind_of_some hadvance, Fallible.bind_of_some (Fallible.get_run p.advance),
    Fallible.bind_of_some hp']
  rfl

/-- What the layout passes count for an operand of a data directive. -/
def operandSize (type : InstType) : Operand → Nat
  | .string text => if type = .db then text.bytes.length else itemSize type
  | _ => itemSize type

theorem dataSize_eq (inst : ParsedInstruction) :
    dataSize inst = (inst.operands.map (operandSize inst.type)).sum := by
  rw [dataSize]
  rfl

theorem itemSize_pos {type : InstType} (h : isData type) : 0 < itemSize type := by
  cases type <;> first
    | exact absurd h (by decide)
    | decide

section Items

variable (final : AssemblerContext) (type : InstType)

/-- An item comes out as it is written, when `op` is what its operand has become. -/
def DataItem.Survives (item : DataItem) (op : Operand) : Prop :=
  match item with
  | .number _ => True
  | .strings first more => type = .db ∧ StringKept first more
  | .label name => ∃ v target, op = .imm v ∧ findSymbolAddress final name = some target ∧
      leBytes (itemSize type) v = leBytes (itemSize type) target
  | .difference _ _ => False

/-- The bytes of an item and the size counted for it are right. -/
def DataItem.Right (item : DataItem) (op : Operand) : Prop :=
  ∃ part, item.encoding final type = some part ∧ dataItemBytes type op = part ∧
    operandSize type item.operand = part.length

theorem number_rewrites {v : Word} {op : Operand} (h : OperandRewrites (.imm v) op) :
    op = .imm v := by
  obtain rfl | ⟨name, w, heq, -⟩ := h
  · rfl
  · cases heq

theorem string_rewrites {text : Text} {op : Operand} (h : OperandRewrites (.string text) op) :
    op = .string text := by
  obtain rfl | ⟨name, w, heq, -⟩ := h
  · rfl
  · cases heq

theorem difference_rewrites {lhs rhs : Label} {op : Operand}
    (h : OperandRewrites (.labelDiff lhs rhs) op) : op = .labelDiff lhs rhs := by
  obtain rfl | ⟨name, w, heq, -⟩ := h
  · rfl
  · cases heq

theorem ne_nil_of_length_eq {part : List Byte} {n : Nat} (h : n = part.length) (hn : 0 < n) :
    [] ≠ part := by
  rintro rfl
  rw [h] at hn
  exact Nat.lt_irrefl _ hn

variable {final type}

theorem DataItem.right_iff (htype : isData type) {item : DataItem} {op : Operand}
    (h : OperandRewrites item.operand op) : item.Right final type op ↔ item.Survives final type op := by
  cases item with
  | number v =>
      rw [number_rewrites h]
      exact ⟨fun _ => trivial, fun _ => ⟨_, rfl, rfl, (LittleEndian.leBytes_length _ _).symm⟩⟩
  | strings first more =>
      rw [string_rewrites h]
      constructor
      · rintro ⟨part, hpart, hbytes, hsize⟩
        cases hpart
        by_cases hdb : type = .db
        · rw [dataItemBytes, if_pos hdb] at hbytes
          exact ⟨hdb, (concatText_bytes_iff first more).mp hbytes⟩
        · rw [dataItemBytes, if_neg hdb] at hbytes
          have hsize : itemSize type = (first ++ more.flatten).length := by
            rw [← hsize, DataItem.operand, operandSize, if_neg hdb]
          exact absurd hbytes (ne_nil_of_length_eq hsize (itemSize_pos htype))
      · rintro ⟨hdb, hkept⟩
        have hbytes := (concatText_bytes_iff first more).mpr hkept
        refine ⟨_, rfl, ?_, ?_⟩
        · rw [dataItemBytes, if_pos hdb, hbytes]
        · rw [DataItem.operand, operandSize, if_pos hdb, hbytes]
  | label name =>
      constructor
      · rintro ⟨part, hpart, hbytes, hsize⟩
        obtain rfl | ⟨-, v, -, rfl⟩ := h
        · exact absurd hbytes (ne_nil_of_length_eq hsize (itemSize_pos htype))
        · obtain ⟨target, htarget, rfl⟩ := Option.map_eq_some_iff.mp hpart
          exact ⟨v, target, rfl, htarget, hbytes⟩
      · rintro ⟨v, target, rfl, htarget, hsame⟩
        refine ⟨_, ?_, hsame, (LittleEndian.leBytes_length _ _).symm⟩
        rw [DataItem.encoding, htarget, Option.map_some]
  | difference lhs rhs =>
      rw [difference_rewrites h]
      constructor
      · rintro ⟨part, -, hbytes, hsize⟩
        exact absurd hbytes (ne_nil_of_length_eq hsize (itemSize_pos htype))
      · exact False.elim

theorem DataItem.emitted_le {item : DataItem} {op : Operand} {part : List Byte}
    (h : OperandRewrites item.operand op) (hpart : item.encoding final type = some part) :
    (dataItemBytes type op).length ≤ part.length := by
  cases item with
  | number v =>
      rw [number_rewrites h]
      cases hpart
      exact Nat.le_refl _
  | strings first more =>
      rw [string_rewrites h]
      cases hpart
      rw [dataItemBytes]
      split
      · exact concatText_length first more
      · exact Nat.zero_le _
  | label name =>
      obtain ⟨target, -, rfl⟩ := Option.map_eq_some_iff.mp hpart
      obtain rfl | ⟨-, v, -, rfl⟩ := h
      · exact Nat.zero_le _
      · rw [dataItemBytes, LittleEndian.leBytes_length, LittleEndian.leBytes_length]
  | difference lhs rhs =>
      rw [difference_rewrites h]
      exact Nat.zero_le _

theorem DataItem.counted_ge {item : DataItem} {op : Operand}
    {part : List Byte} (h : OperandRewrites item.operand op)
    (hpart : item.encoding final type = some part) (hbytes : dataItemBytes type op = part) :
    part.length ≤ operandSize type item.operand := by
  cases item with
  | number v =>
      cases hpart
      exact Nat.le_of_eq (LittleEndian.leBytes_length _ _)
  | strings first more =>
      rw [string_rewrites h, dataItemBytes] at hbytes
      rw [DataItem.operand, operandSize, ← hbytes]
      split
      · exact Nat.le_refl _
      · exact Nat.zero_le _
  | label name =>
      obtain ⟨target, -, rfl⟩ := Option.map_eq_some_iff.mp hpart
      exact Nat.le_of_eq (LittleEndian.leBytes_length _ _)
  | difference lhs rhs =>
      rw [difference_rewrites h] at hbytes
      rw [← hbytes]
      exact Nat.zero_le _

end Items

theorem forall₂_sum_eq {α β : Type} {f : α → Nat} {g : β → Nat} {xs : List α} {ys : List β}
    (h : List.Forall₂ (fun x y => f x ≤ g y) xs ys) :
    (xs.map f).sum ≤ (ys.map g).sum ∧ ((ys.map g).sum ≤ (xs.map f).sum →
      List.Forall₂ (fun x y => f x = g y) xs ys) := by
  induction h with
  | nil => exact ⟨Nat.le_refl _, fun _ => .nil⟩
  | @cons x y xs ys hxy _ ih =>
      obtain ⟨hle, heq⟩ := ih
      rw [List.map_cons, List.map_cons, List.sum_cons, List.sum_cons]
      refine ⟨by omega, fun hge => .cons (by omega) (heq (by omega))⟩

theorem flatten_length_eq (parts : List (List Byte)) :
    parts.flatten.length = (parts.map List.length).sum := List.length_flatten

/-- Lists that are not longer part by part agree as a whole only when they agree part by
part. -/
theorem flatten_eq_of_le {es ws : List (List Byte)}
    (h : List.Forall₂ (fun e w => e.length ≤ w.length) es ws) (heq : es.flatten = ws.flatten) :
    es = ws := by
  induction h with
  | nil => rfl
  | @cons e w es ws hle hrest ih =>
      have htail := (forall₂_sum_eq hrest).1
      rw [← flatten_length_eq, ← flatten_length_eq] at htail
      have hlen := congrArg List.length heq
      rw [List.flatten_cons, List.flatten_cons, List.length_append, List.length_append] at hlen
      obtain ⟨rfl, hflat⟩ := List.append_inj heq (by omega)
      rw [ih hflat]

theorem take_eq_of_le {es ws : List Byte} {n : Nat} (hle : es.length ≤ ws.length)
    (h : es.take n = ws) : es.length ≤ n ∧ es = ws := by
  have hlen := congrArg List.length h
  rw [List.length_take] at hlen
  have hn : es.length ≤ n := by omega
  rw [List.take_of_length_le hn] at h
  exact ⟨hn, h⟩

section Directive

variable {final : AssemblerContext} {type : InstType}

def Written (final : AssemblerContext) (type : InstType) (items : List DataItem)
    (parts : List (List Byte)) : Prop :=
  List.Forall₂ (fun item part => item.encoding final type = some part) items parts

theorem written_le {items : List DataItem} {ops : List Operand} {parts : List (List Byte)}
    (h : List.Forall₂ OperandRewrites (items.map DataItem.operand) ops)
    (hw : Written final type items parts) :
    List.Forall₂ (fun e w => e.length ≤ w.length) (ops.map (dataItemBytes type)) parts := by
  induction hw generalizing ops with
  | nil =>
      cases h
      exact .nil
  | cons hpart _ ih =>
      cases h with
      | cons hop hops => exact .cons (DataItem.emitted_le hop hpart) (ih hops)

theorem written_counted {items : List DataItem} {ops : List Operand}
    (h : List.Forall₂ OperandRewrites (items.map DataItem.operand) ops)
    (hw : Written final type items (ops.map (dataItemBytes type))) :
    List.Forall₂ (fun part op => part.length ≤ operandSize type op)
      (ops.map (dataItemBytes type)) (items.map DataItem.operand) := by
  induction items generalizing ops with
  | nil =>
      cases h
      exact .nil
  | cons item items ih =>
      cases h with
      | cons hop hops =>
          cases hw with
          | cons hpart hrest => exact .cons (DataItem.counted_ge hop hpart rfl) (ih hops hrest)

theorem right_of_parts {items : List DataItem} {ops : List Operand}
    (h : List.Forall₂ OperandRewrites (items.map DataItem.operand) ops)
    (hw : Written final type items (ops.map (dataItemBytes type)))
    (hs : List.Forall₂ (fun part op => part.length = operandSize type op)
      (ops.map (dataItemBytes type)) (items.map DataItem.operand)) :
    List.Forall₂ (DataItem.Right final type) items ops := by
  induction items generalizing ops with
  | nil =>
      cases h
      exact .nil
  | cons item items ih =>
      cases h with
      | cons hop hops =>
          cases hw with
          | cons hpart hrest =>
              cases hs with
              | cons hsize hsizes =>
                  exact .cons ⟨_, hpart, rfl, hsize.symm⟩ (ih hops hrest hsizes)

theorem parts_of_right {items : List DataItem} {ops : List Operand}
    (h : List.Forall₂ (DataItem.Right final type) items ops) :
    Written final type items (ops.map (dataItemBytes type)) ∧
      (ops.flatMap (dataItemBytes type)).length =
        ((items.map DataItem.operand).map (operandSize type)).sum := by
  induction h with
  | nil => exact ⟨.nil, rfl⟩
  | cons hone _ ih =>
      obtain ⟨part, hpart, hbytes, hsize⟩ := hone
      refine ⟨.cons (hbytes ▸ hpart) ih.1, ?_⟩
      rw [List.flatMap_cons, List.length_append, ih.2, List.map_cons, List.map_cons, List.sum_cons,
        hbytes, hsize]

theorem items_right_iff (htype : isData type) {items : List DataItem} {ops : List Operand}
    (h : List.Forall₂ OperandRewrites (items.map DataItem.operand) ops) :
    List.Forall₂ (DataItem.Right final type) items ops ↔
      List.Forall₂ (DataItem.Survives final type) items ops := by
  induction items generalizing ops with
  | nil =>
      cases h
      exact ⟨fun _ => .nil, fun _ => .nil⟩
  | cons item items ih =>
      cases h with
      | cons hop hops =>
          rw [List.forall₂_cons, List.forall₂_cons, DataItem.right_iff htype hop, ih hops]

theorem directive_right_iff {items : List DataItem} {ops : List Operand} {n : Nat}
    (h : List.Forall₂ OperandRewrites (items.map DataItem.operand) ops) :
    (∃ parts, Written final type items parts ∧
        (ops.flatMap (dataItemBytes type)).take n = parts.flatten ∧
        ((ops.flatMap (dataItemBytes type)).take n).length =
          ((items.map DataItem.operand).map (operandSize type)).sum) ↔
      List.Forall₂ (DataItem.Right final type) items ops ∧
        (ops.flatMap (dataItemBytes type)).length ≤ n := by
  rw [List.flatMap_def]
  constructor
  · rintro ⟨parts, hw, hbytes, hsize⟩
    have hle := written_le h hw
    have hsum := (forall₂_sum_eq hle).1
    rw [← flatten_length_eq, ← flatten_length_eq] at hsum
    obtain ⟨hroom, hflat⟩ := take_eq_of_le hsum hbytes
    have hparts := flatten_eq_of_le hle hflat
    subst hparts
    rw [List.take_of_length_le hroom, flatten_length_eq] at hsize
    refine ⟨right_of_parts h hw ?_, hroom⟩
    exact (forall₂_sum_eq (written_counted h hw)).2 (Nat.le_of_eq hsize.symm)
  · rintro ⟨hright, hroom⟩
    obtain ⟨hw, hlen⟩ := parts_of_right hright
    rw [List.flatMap_def] at hlen
    refine ⟨_, hw, ?_, ?_⟩
    · rw [List.take_of_length_le hroom]
    · rw [List.take_of_length_le hroom, hlen]

end Directive

theorem segmentBytes_nil {inst : ParsedInstruction}
    (h : ∀ op ∈ inst.operands, segmentOf op = .default) : segmentBytes inst = [] := by
  have hfold : ∀ ops : List Operand, (∀ op ∈ ops, segmentOf op = .default) →
      segmentOverride ops = some .default := by
    intro ops hops
    rw [segmentOverride]
    induction ops with
    | nil => rfl
    | cons op ops ih =>
        rw [List.foldl_cons, Option.bind_some, if_pos (hops op List.mem_cons_self)]
        exact ih fun op hop => hops op (List.mem_cons_of_mem _ hop)
  rw [segmentBytes, hfold _ h]

theorem segmentOf_rewrites {item : DataItem} {op : Operand} (h : OperandRewrites item.operand op) :
    segmentOf op = .default := by
  obtain rfl | ⟨name, v, -, rfl⟩ := h
  · cases item <;> rfl
  · rfl

theorem items_unsegmented {items : List DataItem} {ops : List Operand}
    (h : List.Forall₂ OperandRewrites (items.map DataItem.operand) ops) :
    ∀ op ∈ ops, segmentOf op = .default := by
  induction items generalizing ops with
  | nil =>
      cases h
      exact List.forall_mem_nil _
  | cons item items ih =>
      cases h with
      | cons hop hops => exact List.forall_mem_cons.mpr ⟨segmentOf_rewrites hop, ih hops⟩

theorem directiveKind_data {type : InstType} (h : isData type) :
    directiveKind type = some .data := by
  cases type <;> first
    | rfl
    | exact absurd h (by decide)

theorem isData_ne {type : InstType} (other : InstType) (h : isData type)
    (hother : isData other = false) :
    type ≠ other := by
  rintro rfl
  rw [h] at hother
  cases hother

theorem textRequest_data {ctx : AssemblerContext} {inst : ParsedInstruction}
    (h : isData inst.type) (hops : ∀ op ∈ inst.operands, segmentOf op = .default) :
    textRequest ctx inst = inst.operands.flatMap (dataItemBytes inst.type) := by
  have hkind := directiveKind_data h
  have hmachine : Encoder.machineEncoder inst.type = none :=
    machineEncoder_directive (by rw [hkind]; exact nofun)
  have hglobal := isData_ne .global h rfl
  have hextern := isData_ne .externSym h rfl
  have hnop := isData_ne .nop h rfl
  have hunencoded : isUnencoded inst = false := by
    simp [isUnencoded, isLabelOnly, hglobal, hextern, hnop]
  rw [textRequest, hunencoded, hmachine, Option.isSome_none, Bool.or_false,
    if_neg Bool.false_ne_true, encodedRequest, segmentBytes_nil hops, directiveBytes, hkind]
  rfl

theorem dataRequest_data {ctx : AssemblerContext} {inst : ParsedInstruction}
    (h : isData inst.type) :
    dataRequest ctx inst = inst.operands.flatMap (dataItemBytes inst.type) := by
  rw [dataRequest, directiveKind_data h]

namespace AssemblyRun

variable {insts : List ParsedInstruction} {ctx final : AssemblerContext}
  (run : AssemblyRun insts ctx final)

/-- The operands with which the statement at a position is encoded in the end. -/
def encodedOperands (i : Nat) : List Operand :=
  match run.program[i]?, sectionBefore run.program i with
  | none, _ => []
  | some b, .text => b.operands
  | some b, .data => (run.dataStatement i b).operands

/-- The room that the statement at a position finds in its section. -/
def statementRoom (i : Nat) : Nat :=
  match sectionBefore run.program i with
  | .text => (run.textAt i).room
  | .data => (run.dataAt i).room

/-- The bytes of the statement at a position in the final buffer of its section. -/
def statementBytes (i : Nat) : List Byte :=
  match sectionBefore run.program i with
  | .text => run.textBytes i
  | .data => run.dataBytes i

/-- A data directive of the program, local names made global, with its written items. -/
structure DataDirective (i : Nat) (inst : ParsedInstruction) (items : List DataItem) : Prop where
  get : run.canon[i]? = some inst
  data : isData inst.type
  operands : inst.operands = items.map DataItem.operand

/-- The directive emits the bytes of its items, as many as the layout counts for it. -/
def EmitsWritten (i : Nat) (inst : ParsedInstruction) (items : List DataItem) : Prop :=
  ∃ parts, Written final inst.type items parts ∧ run.statementBytes i = parts.flatten ∧
    (run.statementBytes i).length = dataSize inst

theorem data_directive {i : Nat} {inst : ParsedInstruction} {items : List DataItem}
    (h : run.DataDirective i inst items) :
    List.Forall₂ OperandRewrites (items.map DataItem.operand) (run.encodedOperands i) ∧
      run.statementBytes i = ((run.encodedOperands i).flatMap (dataItemBytes inst.type)).take
        (run.statementRoom i) := by
  obtain ⟨b, hb, hrewrites⟩ := run.program_rewrites.get i inst h.get
  have hdata : isData b.type := hrewrites.type.symm ▸ h.data
  have hops : List.Forall₂ OperandRewrites (items.map DataItem.operand) b.operands :=
    h.operands ▸ hrewrites.operands
  have hne := isData_ne .sectionDir hdata rfl
  rw [statementBytes, statementRoom, encodedOperands, hb, ← hrewrites.type]
  cases hsect : sectionBefore run.program i with
  | text =>
      have hstatement : isTextStatement b = true := by
        simp [isTextStatement, hne, isData_ne .weak hdata rfl,
          isData_ne .hidden hdata rfl]
      have hkind : directiveKind b.type ≠ none := by
        rw [directiveKind_data hdata]
        exact Option.some_ne_none _
      refine ⟨hops, ?_⟩
      simp only
      rw [run.textBytes_directive ⟨hb, hstatement, hsect⟩ (machineEncoder_directive hkind),
        textRequest_data hdata (items_unsegmented hops)]
  | data =>
      refine ⟨operandsRewrite_trans hops (operandsRewrite_constant _ _), ?_⟩
      simp only
      rw [run.dataBytes_directive ⟨hb, hne, hsect⟩]
      congr 1
      have hstatement : isData (run.dataStatement i b).type := hdata
      exact dataRequest_data hstatement

theorem emitsWritten_run {i : Nat} {inst : ParsedInstruction} {items : List DataItem}
    (h : run.DataDirective i inst items) : run.EmitsWritten i inst items ↔
      List.Forall₂ (DataItem.Survives final inst.type) items (run.encodedOperands i) ∧
        ((run.encodedOperands i).flatMap (dataItemBytes inst.type)).length ≤ run.statementRoom i := by
  obtain ⟨hops, hbytes⟩ := run.data_directive h
  rw [EmitsWritten, hbytes, dataSize_eq, h.operands, directive_right_iff hops]
  rw [items_right_iff h.data hops]

end AssemblyRun

/-- A data directive emits what is written exactly when no item is a difference, each string
stands under `db` and fits a C string, each label has become a number with the low bytes of its
final address, and there is room. -/
theorem dataDirectives_iff {insts : List ParsedInstruction} {ctx final : AssemblerContext}
    (h : asmAssemble insts ctx = (some (), final)) :
    (∀ p first more, StringsAhead p first more →
      ∃ p', Parser.parseOperand p = (some (DataItem.strings first more).operand, p')) ∧
    Nonempty (AssemblyRun insts ctx final) ∧
      ∀ run : AssemblyRun insts ctx final, ∀ i inst items, run.DataDirective i inst items →
        (run.EmitsWritten i inst items ↔
          List.Forall₂ (DataItem.Survives final inst.type) items (run.encodedOperands i) ∧
            ((run.encodedOperands i).flatMap (dataItemBytes inst.type)).length ≤
              run.statementRoom i) :=
  ⟨fun _ _ _ => parseOperand_strings, assemblyRun_of_success h,
    fun run _ _ _ => run.emitsWritten_run⟩

def selfReference : List ParsedInstruction :=
  [{ type := .dw, label := some (CString.lit _ "x"), operands := [.label (CString.lit _ "x")]
     originalLine := CString.lit _ "x: dw x" }]

theorem dataDirectives_iff_selfReference :
    (∀ p first more, StringsAhead p first more →
      ∃ p', Parser.parseOperand p = (some (DataItem.strings first more).operand, p')) ∧
    Nonempty (AssemblyRun selfReference emptyContext (asmAssemble selfReference emptyContext).2) ∧
      ∀ run : AssemblyRun selfReference emptyContext (asmAssemble selfReference emptyContext).2,
        ∀ i inst items, run.DataDirective i inst items →
        (run.EmitsWritten i inst items ↔
          List.Forall₂
            (DataItem.Survives (asmAssemble selfReference emptyContext).2 inst.type) items
            (run.encodedOperands i) ∧
            ((run.encodedOperands i).flatMap (dataItemBytes inst.type)).length ≤
              run.statementRoom i) :=
  dataDirectives_iff (asmAssemble_success (by decide +kernel))

/-- The label emits nothing, though two bytes are counted for it. -/
theorem dataDirectives_selfReference :
    parseSource 40 (CString.str "x: dw x") = some (some selfReference) ∧
      ∃ final, asmAssemble selfReference emptyContext = (some (), final) ∧
        ∀ run : AssemblyRun selfReference emptyContext final, ∃ inst,
          run.DataDirective 0 inst [.label (CString.lit _ "x")] ∧
            ¬ run.EmitsWritten 0 inst [.label (CString.lit _ "x")] := by
  refine ⟨by decide +kernel, _, asmAssemble_success (by decide +kernel), ?_⟩
  intro run
  have hcanon : run.canon = selfReference := by
    rw [run.canon_eq]
    decide +kernel
  have hdirective : run.DataDirective 0 selfReference[0] [.label (CString.lit _ "x")] :=
    ⟨by rw [hcanon]; rfl, rfl, rfl⟩
  refine ⟨_, hdirective, ?_⟩
  intro hwritten
  have hsurvives := ((run.emitsWritten_run hdirective).mp hwritten).1
  have hops : run.encodedOperands 0 = [.label (CString.lit _ "x")] := by
    have hget : run.program[0]? = some { selfReference[0] with address := 0x400000 } := by
      rw [run.program_eq]
      decide +kernel
    have hsect : sectionBefore run.program 0 = .text := rfl
    rw [AssemblyRun.encodedOperands, hget, hsect]
    rfl
  rw [hops] at hsurvives
  cases hsurvives with
  | cons hlabel _ =>
      obtain ⟨v, -, heq, -⟩ := hlabel
      cases heq

end X86Assembler
