import X86Assembler.DataItems
import X86Assembler.LineAttribution
import X86Assembler.SectionNames

namespace X86Assembler

open CString (Byte)
open LittleEndian (slice)

/-- Whether the statement that starts at a token has a mnemonic behind its label. -/
def hasMnemonic (p : ParserState) : Bool :=
  (Parser.parseLabel { type := .nop } p).2.current.type == .identifier

/-- Whether the statement at a position of a parsed source is written with a mnemonic. -/
def writtenWithMnemonic (rounds : Nat) (source : List Byte) (i : Nat) : Bool :=
  ((keptStates rounds (parseStart (parserExpandTimesOnly source)))[i]?.map hasMnemonic).getD false

/-- A statement that stands for bytes. A `nop` without a mnemonic only carries a label. -/
def standsForBytes (mnemonic : Bool) (type : InstType) : Bool :=
  if type = .nop then mnemonic
  else if (Encoder.machineEncoder type).isSome then true
  else
    match directiveKind type with
    | some .data | some .reserve | some .align | some .incbin | some .comm => true
    | some .silent => type == .times
    | some .sectionChange | none => false

def isEncodable (type : InstType) : Operand → Bool
  | .imm _ => true
  | .string _ => type == .db
  | _ => false

/-- What `encode_instruction` puts in front of a directive, and the data pass does not put in
front of reserved cells. -/
def frontBytes (sect : SectionId) (inst : ParsedInstruction) : List Byte :=
  match sect with
  | .text => segmentBytes inst
  | .data => []

/-- The bytes that a directive stands for; `none` for an operand or a count that has none. A
`times` that is still there was not expanded. -/
def directiveEncoding (sect : SectionId) (ctx : AssemblerContext) (inst : ParsedInstruction) :
    Option (List Byte) :=
  match directiveKind inst.type with
  | some .data =>
    if inst.operands.all (isEncodable inst.type) then
      some (inst.operands.flatMap (dataItemBytes inst.type))
    else none
  | some .reserve =>
    match inst.operands with
    | .imm count :: _ =>
      if 0 ≤ count.toInt then
        some (frontBytes sect inst ++ List.replicate (count.toInt.toNat * itemSize inst.type) 0)
      else none
    | _ => none
  | some .align | some .incbin | some .comm => some (encodedRequest ctx inst)
  | some .silent | some .sectionChange | none => none

/-- The operands and the count of a directive have an encoding that the directive can ask for. -/
def countAllowed (inst : ParsedInstruction) : Bool :=
  match directiveKind inst.type with
  | some .data => inst.operands.all (isEncodable inst.type)
  | some .reserve =>
    match inst.operands with
    | .imm count :: _ => 0 ≤ count.toInt && count.toInt.toNat * itemSize inst.type < 2 ^ 63
    | _ => false
  | some .align | some .incbin | some .comm => true
  | some .silent | some .sectionChange | none => false

def directiveRequest (sect : SectionId) (ctx : AssemblerContext) (inst : ParsedInstruction) :
    List Byte :=
  match sect with
  | .text => textRequest ctx inst
  | .data => dataRequest ctx inst

theorem isEncodable_segment {type : InstType} {op : Operand} (h : isEncodable type op = true) :
    segmentOf op = .default := by
  cases op with
  | mem _ => cases h
  | none | reg _ _ | imm _ | label _ | labelDiff _ _ | string _ => rfl

theorem isUnencoded_directive {inst : ParsedInstruction} {kind : DirectiveKind}
    (h : directiveKind inst.type = some kind) (hkind : kind ≠ .silent) :
    isUnencoded inst = false := by
  have hne : ∀ type, inst.type = type → directiveKind type = some kind := by
    rintro type rfl
    exact h
  simp only [isUnencoded, isLabelOnly, Bool.or_eq_false_iff, Bool.and_eq_false_iff, beq_eq_false_iff_ne]
  refine ⟨⟨?_, ?_⟩, .inl (.inl ?_)⟩
  · intro heq
    exact hkind (Option.some.inj (hne _ heq)).symm
  · intro heq
    exact hkind (Option.some.inj (hne _ heq)).symm
  · intro heq
    cases hne _ heq

theorem directiveRequest_eq (sect : SectionId) (ctx : AssemblerContext) (inst : ParsedInstruction) :
    match directiveKind inst.type with
    | some .data => inst.operands.all (isEncodable inst.type) →
        directiveRequest sect ctx inst = inst.operands.flatMap (dataItemBytes inst.type)
    | some .reserve => directiveRequest sect ctx inst =
        frontBytes sect inst ++ List.replicate (reserveSize inst) 0
    | some .align | some .incbin | some .comm =>
        directiveRequest sect ctx inst = encodedRequest ctx inst
    | some .silent | some .sectionChange | none => True := by
  have htext : ∀ kind, directiveKind inst.type = some kind → kind ≠ .silent →
      textRequest ctx inst = encodedRequest ctx inst := by
    intro kind hkind hne
    have hmachine : Encoder.machineEncoder inst.type = none :=
      machineEncoder_directive (hkind ▸ Option.some_ne_none kind)
    rw [textRequest, isUnencoded_directive hkind hne, hmachine, Option.isSome_none, Bool.or_false,
      if_neg Bool.false_ne_true]
  cases hkind : directiveKind inst.type with
  | none => trivial
  | some kind =>
      cases kind with
      | silent => trivial
      | sectionChange => trivial
      | data =>
          intro hall
          rw [List.all_eq_true] at hall
          have hseg := segmentBytes_nil fun op hop => isEncodable_segment (hall op hop)
          cases sect with
          | text =>
              rw [directiveRequest, htext _ hkind (by decide), encodedRequest, hseg, directiveBytes, hkind]
              rfl
          | data => rw [directiveRequest, dataRequest, hkind]
      | reserve =>
          cases sect with
          | text =>
              rw [directiveRequest, htext _ hkind (by decide), encodedRequest, directiveBytes, hkind]
              rfl
          | data => rw [directiveRequest, dataRequest, hkind, frontBytes, List.nil_append]
      | align =>
          cases sect with
          | text => exact htext _ hkind (by decide)
          | data => rw [directiveRequest, dataRequest, hkind]
      | incbin =>
          cases sect with
          | text => exact htext _ hkind (by decide)
          | data => rw [directiveRequest, dataRequest, hkind]
      | comm =>
          cases sect with
          | text => exact htext _ hkind (by decide)
          | data => rw [directiveRequest, dataRequest, hkind]

theorem itemSize_le (type : InstType) : itemSize type ≤ 8 := by
  cases type <;> decide

theorem reserveSize_eq {inst : ParsedInstruction} {count : Word} {rest : List Operand}
    (hops : inst.operands = .imm count :: rest) (hcount : 0 ≤ count.toInt)
    (h : count.toInt.toNat * itemSize inst.type < 2 ^ 63) :
    reserveSize inst = count.toInt.toNat * itemSize inst.type := by
  have hsize := itemSize_le inst.type
  have hnat : count.toInt.toNat = count.toNat := by
    have hcond := BitVec.toInt_eq_toNat_cond count
    split at hcond <;> omega
  rw [reserveSize, hops]
  show (count * BitVec.ofNat 64 (itemSize inst.type)).toInt.toNat = _
  rw [hnat] at h ⊢
  have hprod : (count * BitVec.ofNat 64 (itemSize inst.type)).toNat =
      count.toNat * itemSize inst.type := by
    rw [BitVec.toNat_mul, BitVec.toNat_ofNat, Nat.mod_eq_of_lt (a := itemSize inst.type) (by omega),
      Nat.mod_eq_of_lt (by omega)]
  have hcond := BitVec.toInt_eq_toNat_cond (count * BitVec.ofNat 64 (itemSize inst.type))
  rw [hprod] at hcond
  split at hcond <;> omega

theorem reserveSize_lt (inst : ParsedInstruction) : reserveSize inst < 2 ^ 63 := by
  rw [reserveSize]
  split
  · have hlt := BitVec.toInt_lt (x := ‹Word› * BitVec.ofNat 64 (itemSize inst.type))
    omega
  · decide

theorem reserve_emits_iff {front request : List Byte} {inst : ParsedInstruction} {room : Nat}
    (hrequest : request = front ++ List.replicate (reserveSize inst) 0) :
    (match inst.operands with
      | .imm count :: _ =>
        if 0 ≤ count.toInt then
          some (front ++ List.replicate (count.toInt.toNat * itemSize inst.type) 0)
        else none
      | _ => none) = some (request.take room) ↔
    (match inst.operands with
      | .imm count :: _ => 0 ≤ count.toInt && count.toInt.toNat * itemSize inst.type < 2 ^ 63
      | _ => false) = true ∧ request.length ≤ room := by
  split
  · rename_i count rest hops
    by_cases hcount : 0 ≤ count.toInt
    · rw [if_pos hcount, decide_eq_true hcount, Bool.true_and, decide_eq_true_eq,
        Option.some.injEq]
      constructor
      · intro heq
        have hlen := congrArg List.length heq
        rw [List.length_take, hrequest, List.length_append, List.length_append,
          List.length_replicate, List.length_replicate] at hlen
        have hlt := reserveSize_lt inst
        have hsmall : count.toInt.toNat * itemSize inst.type < 2 ^ 63 := by omega
        have hsame := reserveSize_eq hops hcount hsmall
        refine ⟨hsmall, ?_⟩
        rw [hrequest, List.length_append, List.length_replicate]
        omega
      · rintro ⟨hsmall, hroom⟩
        rw [List.take_of_length_le hroom, hrequest, reserveSize_eq hops hcount hsmall]
    · simp only [if_neg hcount, decide_eq_false hcount, Bool.false_and, reduceCtorEq,
        Bool.false_eq_true, false_and]
  · simp only [reduceCtorEq, Bool.false_eq_true, false_and]

/-- A directive stands for what it emits exactly when its count is allowed and it finds room. -/
theorem directive_emits_iff (sect : SectionId) (ctx : AssemblerContext) (inst : ParsedInstruction)
    (room : Nat) :
    directiveEncoding sect ctx inst = some ((directiveRequest sect ctx inst).take room) ↔
      countAllowed inst ∧ (directiveRequest sect ctx inst).length ≤ room := by
  have hrequest := directiveRequest_eq sect ctx inst
  rw [directiveEncoding, countAllowed]
  cases hkind : directiveKind inst.type with
  | none => simp only [reduceCtorEq, Bool.false_eq_true, false_and]
  | some kind =>
      rw [hkind] at hrequest
      cases kind with
      | silent => simp only [reduceCtorEq, Bool.false_eq_true, false_and]
      | sectionChange => simp only [reduceCtorEq, Bool.false_eq_true, false_and]
      | data =>
          simp only
          split
          · rename_i hall
            rw [hrequest hall, Option.some.injEq, eq_comm, List.take_eq_self_iff, hall]
            exact (and_iff_right rfl).symm
          · rename_i hall
            simp only [hall, reduceCtorEq, Bool.false_eq_true, false_and]
      | reserve => exact reserve_emits_iff hrequest
      | align =>
          rw [hrequest, Option.some.injEq, eq_comm, List.take_eq_self_iff]
          exact (and_iff_right rfl).symm
      | incbin =>
          rw [hrequest, Option.some.injEq, eq_comm, List.take_eq_self_iff]
          exact (and_iff_right rfl).symm
      | comm =>
          rw [hrequest, Option.some.injEq, eq_comm, List.take_eq_self_iff]
          exact (and_iff_right rfl).symm

/-- The last section directive in front of a statement that names a section. -/
def namedStep (last : Option ParsedInstruction) (inst : ParsedInstruction) :
    Option ParsedInstruction :=
  if inst.type = .sectionDir && (sectionNameFromInstruction inst).isSome then some inst else last

def lastNamedDirective (insts : List ParsedInstruction) (i : Nat) : Option ParsedInstruction :=
  (insts.take i).foldl namedStep none

/-- The section that a directive puts the statements behind it in. -/
def namedSection (last : Option ParsedInstruction) : SectionId :=
  match last.bind sectionNameFromInstruction with
  | some name => classifySectionName name
  | none => .text

theorem sectionBefore_eq (insts : List ParsedInstruction) (i : Nat) :
    sectionBefore insts i = namedSection (lastNamedDirective insts i) := by
  have hfold : ∀ (xs : List ParsedInstruction) (last : Option ParsedInstruction),
      xs.foldl sectionStep (namedSection last) = namedSection (xs.foldl namedStep last) := by
    intro xs
    induction xs with
    | nil => exact fun _ => rfl
    | cons inst xs ih =>
        intro last
        rw [List.foldl_cons, List.foldl_cons, ← ih, sectionStep, namedStep]
        congr 1
        split
        · rename_i ht
          rw [sectionAfterDirective, decide_eq_true ht, Bool.true_and]
          cases hname : sectionNameFromInstruction inst with
          | none => rfl
          | some name =>
              rw [Option.isSome_some, if_pos rfl, namedSection.eq_def (some inst),
                Option.bind_some, hname]
        · rename_i ht
          rw [decide_eq_false ht, Bool.false_and, if_neg Bool.false_ne_true]
  exact hfold _ none

theorem sectionName_isSome {d d' : ParsedInstruction} (h : Canonical d d') :
    (sectionNameFromInstruction d').isSome = (sectionNameFromInstruction d).isSome := by
  have hname := sectionName_canonical h
  split at hname
  · obtain ⟨name, name', hn, -, hn', -⟩ := hname
    rw [hn, hn', Option.isSome_some, Option.isSome_some]
  · rw [← Option.isSome_map (f := classifySectionName), hname, Option.isSome_map]

theorem lastNamedDirective_canonical {insts canon : List ParsedInstruction}
    (h : List.Forall₂ Canonical insts canon) (i : Nat) :
    Option.Rel Canonical (lastNamedDirective insts i) (lastNamedDirective canon i) := by
  have hfold : ∀ {xs ys : List ParsedInstruction}, List.Forall₂ Canonical xs ys →
      ∀ {a b : Option ParsedInstruction}, Option.Rel Canonical a b →
        Option.Rel Canonical (xs.foldl namedStep a) (ys.foldl namedStep b) := by
    intro xs ys hxy
    induction hxy with
    | nil => exact fun hab => hab
    | cons hone _ ih =>
        intro a b hab
        apply ih
        rw [namedStep, namedStep, hone.type, sectionName_isSome hone]
        split
        · exact .some hone
        · exact hab
  exact hfold (List.forall₂_take i h) .none

/-- A statement stays in its section exactly when the directive that names the section is not
dotted data. -/
theorem sectionBefore_canonical {insts canon : List ParsedInstruction}
    (h : List.Forall₂ Canonical insts canon) (i : Nat) :
    sectionBefore canon i = sectionBefore insts i ↔
      ∀ d, lastNamedDirective insts i = some d → isDottedData d = false := by
  have hrel := lastNamedDirective_canonical h i
  rw [sectionBefore_eq, sectionBefore_eq]
  cases hd : lastNamedDirective insts i with
  | none =>
      rw [hd] at hrel
      cases hd' : lastNamedDirective canon i with
      | none => exact ⟨fun _ => nofun, fun _ => rfl⟩
      | some d' =>
          rw [hd'] at hrel
          cases hrel
  | some d =>
      rw [hd] at hrel
      cases hd' : lastNamedDirective canon i with
      | none =>
          rw [hd'] at hrel
          cases hrel
      | some d' =>
          rw [hd'] at hrel
          cases hrel with
          | some hone =>
              have hname := sectionName_canonical hone
              simp only [namedSection, Option.bind_some, Option.some.injEq, forall_eq']
              split at hname
              · rename_i hdotted
                obtain ⟨name, name', hn, hdata, hn', htext⟩ := hname
                rw [hn, hn']
                simp only [hdata, htext, hdotted, reduceCtorEq]
              · rename_i hdotted
                rw [Bool.not_eq_true] at hdotted
                simp only [hdotted, iff_true]
                cases hn : sectionNameFromInstruction d with
                | none =>
                    rw [hn, Option.map_none, Option.map_eq_none_iff] at hname
                    rw [hname]
                | some name =>
                    rw [hn, Option.map_some] at hname
                    obtain ⟨name', hn', hsame⟩ := Option.map_eq_some_iff.mp hname
                    rw [hn']
                    exact hsame

namespace AssemblyRun

variable {insts : List ParsedInstruction} {ctx final : AssemblerContext}
  (run : AssemblyRun insts ctx final)

/-- What the encoder of a statement in the text section sees. -/
def envAt (i : Nat) (b : ParsedInstruction) : EncodeEnv := (placeLabel (run.textAt i) b).encodeEnv

/-- The bytes of a statement are the encoding of the machine instruction, but for the places
that resolved fixups fill. -/
def EncodedAt (i : Nat) (b : ParsedInstruction) (encode : ParsedInstruction → Encoder Unit) : Prop :=
  ∃ es, Encoder.statement encode b (run.envAt i b) = (es, .ok ()) ∧
    (run.textBytes i).length = (bytesOf es).length ∧
    ∀ lo n, lo + n ≤ (bytesOf es).length →
      (∀ f ∈ fixupsOf (final.baseAddress + BitVec.ofNat 64 (run.textOffset i)) es,
        run.textOffset i + lo + n ≤ f.offset final.baseAddress ∨
          f.offset final.baseAddress + 4 ≤ run.textOffset i + lo) →
      slice (run.textBytes i) lo n = slice (bytesOf es) lo n

/-- A statement stands in a section and leaves its encoding there, and nothing elsewhere. -/
def EmittedIn (s : SectionId) (i : Nat) (b : ParsedInstruction) : Prop :=
  sectionBefore run.program i = s ∧
  match s with
  | .text => run.dataBytes i = [] ∧
      match Encoder.machineEncoder b.type with
      | some encode => run.EncodedAt i b encode
      | none => directiveEncoding .text (run.textAt i) b = some (run.textBytes i)
  | .data => run.textBytes i = [] ∧ Encoder.machineEncoder b.type = none ∧
      directiveEncoding .data (run.dataAt i) (run.dataStatement i b) = some (run.dataBytes i)

/-- Each buffer consists of what the statements leave in source order, and each statement that
stands for bytes leaves its encoding in the section in which it is written. -/
structure NothingDropped (mnemonic : Nat → Bool) : Prop where
  text : final.textSection = (List.range run.program.length).flatMap run.textBytes
  data : final.dataSection = (List.range run.program.length).flatMap run.dataBytes
  statements : ∀ (i : Nat) (inst b : ParsedInstruction), insts[i]? = some inst →
    run.program[i]? = some b → standsForBytes (mnemonic i) inst.type →
      run.EmittedIn (sectionBefore insts i) i b

/-- What a section and a count must allow, for each statement that stands for bytes. -/
def EachAllowed (mnemonic : Nat → Bool) : Prop :=
  ∀ (i : Nat) (inst b : ParsedInstruction), insts[i]? = some inst → run.program[i]? = some b →
    standsForBytes (mnemonic i) inst.type →
      (∀ d, lastNamedDirective insts i = some d → isDottedData d = false) ∧
      match sectionBefore insts i with
      | .text =>
        if (Encoder.machineEncoder b.type).isSome then isLabelOnly b = false
        else countAllowed b ∧ (textRequest (run.textAt i) b).length ≤ (run.textAt i).room
      | .data => Encoder.machineEncoder b.type = none ∧ countAllowed (run.dataStatement i b) ∧
          (dataRequest (run.dataAt i) (run.dataStatement i b)).length ≤ (run.dataAt i).room

theorem textOffset_zero : run.textOffset 0 = 0 := rfl

theorem dataOffset_zero : run.dataOffset 0 = 0 := rfl

theorem textOffset_mono {i : Nat} (hi : i < run.program.length) :
    run.textOffset i ≤ run.textOffset (i + 1) :=
  run.textOffset_le (Nat.le_succ i) (run.program_length ▸ hi)

theorem dataOffset_le {i j : Nat} (hij : i ≤ j) (hj : j ≤ run.program.length) :
    run.dataOffset i ≤ run.dataOffset j := by
  obtain ⟨bs, hbs, -⟩ := (dataGrows_between run.dataEmitted hij hj).data
  rw [dataOffset, dataOffset, dataAt, dataAt, hbs, List.length_append]
  exact Nat.le_add_right _ _

theorem dataOffset_mono {i : Nat} (hi : i < run.program.length) :
    run.dataOffset i ≤ run.dataOffset (i + 1) := run.dataOffset_le (Nat.le_succ i) hi

theorem dataOffset_end {i : Nat} (hi : i ≤ run.program.length) :
    run.dataOffset i ≤ final.dataSection.length := by
  rw [run.final_data, ← run.dataAt_end]
  exact run.dataOffset_le hi (Nat.le_refl _)

theorem text_concatenated :
    final.textSection = (List.range run.program.length).flatMap run.textBytes := by
  have hslices := @LittleEndian.flatMap_slices final.textSection _ _ run.textOffset_zero
    fun i hi => run.textOffset_mono (i := i) hi
  have hend : run.textOffset run.program.length = final.textSection.length := by
    rw [textOffset, run.program_length, run.textAt_end, run.final_length]
  rw [hend, List.take_length] at hslices
  exact hslices.symm

theorem data_concatenated :
    final.dataSection = (List.range run.program.length).flatMap run.dataBytes := by
  have hslices := @LittleEndian.flatMap_slices final.dataSection _ _ run.dataOffset_zero
    fun i hi => run.dataOffset_mono (i := i) hi
  have hend : run.dataOffset run.program.length = final.dataSection.length := by
    rw [dataOffset, run.dataAt_end, run.final_data]
  rw [hend, List.take_length] at hslices
  exact hslices.symm

theorem textBytes_skip {i : Nat} (hi : i < run.source.length)
    (h : ∀ b, ¬ InText run.program i b) : run.textBytes i = [] := by
  have hget : run.source[i]? = some run.source[i] := List.getElem?_eq_getElem hi
  have hnot : ¬ InText run.source i run.source[i] := by
    intro ha
    obtain ⟨b, hb, -⟩ := (textPass_rewrites run.lastPass run.start).inText ha
    exact h b hb
  have hsame : run.textOffset (i + 1) = run.textOffset i := by
    rw [textOffset, textOffset, textAt, (textAt_skip run.lastPass run.start hget hnot).2]
    rfl
  rw [textBytes, hsame, Nat.sub_self, slice, List.take_zero]

theorem dataBytes_skip {i : Nat} (hi : i < run.program.length)
    (h : ∀ b, ¬ InData run.program i b) : run.dataBytes i = [] := by
  have hget : run.program[i]? = some run.program[i] := List.getElem?_eq_getElem hi
  have hsame : run.dataOffset (i + 1) = run.dataOffset i := by
    rw [dataOffset, dataOffset, dataAt, dataAt_skip run.dataEmitted hget (h _)]
    rfl
  rw [dataBytes, hsame, Nat.sub_self, slice, List.take_zero]

theorem encodedAt {i : Nat} {b : ParsedInstruction} (hb : InText run.program i b)
    {encode : ParsedInstruction → Encoder Unit}
    (hm : Encoder.machineEncoder b.type = some encode) (hl : isLabelOnly b = false) :
    run.EncodedAt i b encode := by
  obtain ⟨a, ha, hrewrite, hemit⟩ := run.text_statement hb
  obtain ⟨es, hes, he⟩ := emitTextStatement_machine hm hl hemit
  obtain ⟨htext, haddr, hfix, -, hsect⟩ := placeLabel_text a (run.textAt i)
  have hsect : (placeLabel (run.textAt i) a).currentSection = .text := by
    rw [hsect, textAt, textAt_sect run.lastPass run.start (Nat.le_of_lt ha.lt), ha.sect]
  have hout : (run.textAt (i + 1)).textSection = (run.textAt i).textSection ++ bytesOf es := by
    rw [he.text_of_text hsect, htext]
  have hfixups : (run.textAt (i + 1)).fixups = (run.textAt i).fixups ++
      fixupsOf (final.baseAddress + BitVec.ofNat 64 (run.textOffset i)) es := by
    rw [he.fixups, hfix, haddr, run.text_address (Nat.le_of_lt ha.lt)]
  have hsucc : run.textOffset (i + 1) = run.textOffset i + (bytesOf es).length := by
    rw [textOffset, hout, List.length_append, textOffset]
  have hlabel : b.label = a.label := by
    rw [hrewrite]
    rfl
  have henv : run.envAt i b = (placeLabel (run.textAt i) a).encodeEnv := by
    rw [envAt, placeLabel, placeLabel, hlabel]
  have hend : run.textOffset (i + 1) ≤ final.textSection.length := by
    have hgrow := (textGrows_between run.lastPass run.start (Nat.succ_le_of_lt ha.lt)
      (Nat.le_refl _)).text
    rw [textAt_length run.lastPass] at hgrow
    obtain ⟨bs, hbs, -⟩ := hgrow
    rw [run.final_length, hbs, List.length_append]
    exact Nat.le_add_right _ _
  refine ⟨es, henv ▸ hes, ?_, ?_⟩
  · rw [textBytes, LittleEndian.slice_length (by omega)]
    omega
  · intro lo n hn houtside
    rw [textBytes, LittleEndian.slice_slice (by omega),
      run.final_slice ha.lt _ _ (Nat.le_add_right _ _) (by omega) hfixups houtside, hout, textOffset,
      LittleEndian.slice_append_right]

theorem not_encodedAt_label {i : Nat} {b : ParsedInstruction} (hb : InText run.program i b)
    {encode : ParsedInstruction → Encoder Unit}
    (hm : Encoder.machineEncoder b.type = some encode) (hl : isLabelOnly b = true) :
    ¬ run.EncodedAt i b encode := by
  rintro ⟨es, hes, hlen, -⟩
  obtain ⟨a, ha, -, hemit⟩ := run.text_statement hb
  have hu : isUnencoded b = true := by rw [isUnencoded, hl, Bool.or_true]
  have he := emitTextStatement_unencoded hu hemit
  obtain ⟨htext, -, -, -, hsect⟩ := placeLabel_text a (run.textAt i)
  have hsect : (placeLabel (run.textAt i) a).currentSection = .text := by
    rw [hsect, textAt, textAt_sect run.lastPass run.start (Nat.le_of_lt ha.lt), ha.sect]
  have hsame : run.textOffset (i + 1) = run.textOffset i := by
    rw [textOffset, he.text_of_text hsect, htext, List.append_nil, textOffset]
  have hnone : run.textBytes i = [] := by rw [textBytes, hsame, Nat.sub_self, slice, List.take_zero]
  simp only [isLabelOnly, Bool.and_eq_true, beq_iff_eq, List.isEmpty_iff] at hl
  obtain ⟨⟨htype, hops⟩, -⟩ := hl
  rw [htype] at hm
  cases hm
  have hone : bytesOf es = [0x90] := by
    rw [Encoder.statement, Encoder.segmentPrefix, hops] at hes
    have hnop : (pure () >>= fun _ => Encoder.encodeNop b : Encoder Unit) (run.envAt i b) =
      (es, .ok ()) := hes
    have hnone : (pure () : Encoder Unit) (run.envAt i b) = ([], .ok ()) := rfl
    rw [encoder_bind hnone, Encoder.encodeNop, hops] at hnop
    cases hnop
    rfl
  rw [hnone, hone] at hlen
  cases hlen

theorem emittedIn_text_iff {i : Nat} {b : ParsedInstruction} (hget : run.program[i]? = some b)
    (hstatement : isTextStatement b = true) (hsect : sectionBefore run.program i = .text) :
    run.EmittedIn .text i b ↔
      if (Encoder.machineEncoder b.type).isSome then isLabelOnly b = false
      else countAllowed b ∧ (textRequest (run.textAt i) b).length ≤ (run.textAt i).room := by
  have hb : InText run.program i b := ⟨hget, hstatement, hsect⟩
  have hskip : run.dataBytes i = [] := by
    apply run.dataBytes_skip hb.lt
    intro b' hb'
    have hdata := hb'.sect
    rw [hsect] at hdata
    cases hdata
  simp only [EmittedIn, hsect, hskip, true_and]
  cases hm : Encoder.machineEncoder b.type with
  | none =>
      rw [Option.isSome_none, if_neg Bool.false_ne_true, run.textBytes_directive hb hm]
      exact directive_emits_iff .text (run.textAt i) b (run.textAt i).room
  | some encode =>
      rw [Option.isSome_some, if_pos rfl]
      cases hl : isLabelOnly b with
      | true => exact iff_of_false (run.not_encodedAt_label hb hm hl) nofun
      | false => exact iff_of_true (run.encodedAt hb hm hl) rfl

theorem emittedIn_data_iff {i : Nat} {b : ParsedInstruction} (hget : run.program[i]? = some b)
    (hne : b.type ≠ .sectionDir) (hsect : sectionBefore run.program i = .data) :
    run.EmittedIn .data i b ↔
      Encoder.machineEncoder b.type = none ∧ countAllowed (run.dataStatement i b) ∧
        (dataRequest (run.dataAt i) (run.dataStatement i b)).length ≤ (run.dataAt i).room := by
  have hb : InData run.program i b := ⟨hget, hne, hsect⟩
  have hskip : run.textBytes i = [] := by
    apply run.textBytes_skip (run.program_length ▸ hb.lt)
    intro b' hb'
    have htext := hb'.sect
    rw [hsect] at htext
    cases htext
  simp only [EmittedIn, hsect, hskip, true_and, run.dataBytes_directive hb]
  apply and_congr_right
  intro _
  exact directive_emits_iff .data (run.dataAt i) (run.dataStatement i b) (run.dataAt i).room

theorem standsForBytes_statement {mnemonic : Bool} {type : InstType}
    (h : standsForBytes mnemonic type) : type ≠ .sectionDir ∧ type ≠ .weak ∧ type ≠ .hidden := by
  refine ⟨?_, ?_, ?_⟩
  · rintro rfl
    cases h
  · rintro rfl
    cases h
  · rintro rfl
    cases h

theorem canonical_all : List.Forall₂ Canonical insts run.canon := by
  obtain ⟨hlen, hget⟩ := canonicalize_canonical run.canonicalized
  rw [List.forall₂_iff_get]
  refine ⟨hlen.symm, fun i hi hi' => ?_⟩
  obtain ⟨out, hout, hone⟩ := hget i insts[i] (List.getElem?_eq_getElem hi)
  rw [List.getElem?_eq_getElem hi'] at hout
  cases hout
  exact hone

theorem program_type {i : Nat} {inst b : ParsedInstruction} (hi : insts[i]? = some inst)
    (hb : run.program[i]? = some b) : b.type = inst.type := by
  obtain ⟨out, hout, hone⟩ := (canonicalize_canonical run.canonicalized).2 i inst hi
  obtain ⟨b', hb', hrewrites⟩ := run.program_rewrites.get i out hout
  rw [hb] at hb'
  cases hb'
  exact hrewrites.type.trans hone.type

theorem program_section {i : Nat} {inst : ParsedInstruction} (hi : insts[i]? = some inst) :
    sectionBefore run.program i = sectionBefore insts i ↔
      ∀ d, lastNamedDirective insts i = some d → isDottedData d = false := by
  have hle : i ≤ run.canon.length := by
    rw [(canonicalize_canonical run.canonicalized).1]
    exact Nat.le_of_lt (List.getElem?_eq_some_iff.mp hi).1
  rw [run.program_rewrites.sectionBefore hle]
  exact sectionBefore_canonical run.canonical_all i

theorem nothingDropped_run (mnemonic : Nat → Bool) :
    run.NothingDropped mnemonic ↔ run.EachAllowed mnemonic := by
  have hone : ∀ (i : Nat) (inst b : ParsedInstruction), insts[i]? = some inst →
      run.program[i]? = some b → standsForBytes (mnemonic i) inst.type →
      sectionBefore run.program i = sectionBefore insts i →
      (run.EmittedIn (sectionBefore insts i) i b ↔
        match sectionBefore insts i with
        | .text =>
          if (Encoder.machineEncoder b.type).isSome then isLabelOnly b = false
          else countAllowed b ∧ (textRequest (run.textAt i) b).length ≤ (run.textAt i).room
        | .data => Encoder.machineEncoder b.type = none ∧ countAllowed (run.dataStatement i b) ∧
            (dataRequest (run.dataAt i) (run.dataStatement i b)).length ≤ (run.dataAt i).room) := by
    intro i inst b hi hb hstands hsame
    obtain ⟨hdir, hweak, hhidden⟩ := standsForBytes_statement hstands
    rw [← run.program_type hi hb] at hdir hweak hhidden
    cases hs : sectionBefore insts i with
    | text =>
        apply run.emittedIn_text_iff hb
        · simp [isTextStatement, hdir, hweak, hhidden]
        · rw [hsame, hs]
    | data =>
        apply run.emittedIn_data_iff hb hdir
        rw [hsame, hs]
  constructor
  · rintro ⟨-, -, hall⟩ i inst b hi hb hstands
    have hemitted := hall i inst b hi hb hstands
    have hsame := hemitted.1
    exact ⟨(run.program_section hi).mp hsame, (hone i inst b hi hb hstands hsame).mp hemitted⟩
  · intro hall
    refine ⟨run.text_concatenated, run.data_concatenated, ?_⟩
    intro i inst b hi hb hstands
    obtain ⟨hplain, hallowed⟩ := hall i inst b hi hb hstands
    exact (hone i inst b hi hb hstands ((run.program_section hi).mpr hplain)).mpr hallowed

end AssemblyRun

/-- Nothing is dropped exactly when no statement follows a directive for data with a dotted
name, the machine instructions stand in the text section and none is a `nop` behind a label, no
`times` is left, and the directives have operands that can be encoded and find room. -/
theorem nothingDropped_iff {rounds : Nat} {source : List Byte} {insts : List ParsedInstruction}
    {ctx final : AssemblerContext} (hparse : parseSource rounds source = some (some insts))
    (h : asmAssemble insts ctx = (some (), final)) :
    (keptStates rounds (parseStart (parserExpandTimesOnly source))).length = insts.length ∧
    Nonempty (AssemblyRun insts ctx final) ∧ ∀ run : AssemblyRun insts ctx final,
      run.NothingDropped (writtenWithMnemonic rounds source) ↔
        run.EachAllowed (writtenWithMnemonic rounds source) := by
  refine ⟨?_, assemblyRun_of_success h, fun run => run.nothingDropped_run _⟩
  obtain ⟨rest, hinsts, hall⟩ := keptStates_started hparse ⟨0, standsAt_start _⟩
  rw [hall.length_eq, hinsts]
  rfl

def codeInData : List ParsedInstruction :=
  [{ type := .sectionDir, operands := [.label (CString.lit _ "data")]
     originalLine := CString.lit _ "section data" },
   { type := .ret, lineNumber := 2, originalLine := CString.lit _ "ret" }]

theorem codeInData_parses :
    parseSource 40 (CString.str "section data\nret") = some (some codeInData) := by decide +kernel

theorem nothingDropped_iff_codeInData :
    (keptStates 40 (parseStart (parserExpandTimesOnly
      (CString.str "section data\nret")))).length = codeInData.length ∧
    Nonempty (AssemblyRun codeInData emptyContext (asmAssemble codeInData emptyContext).2) ∧
      ∀ run : AssemblyRun codeInData emptyContext (asmAssemble codeInData emptyContext).2,
        run.NothingDropped (writtenWithMnemonic 40 (CString.str "section data\nret")) ↔
          run.EachAllowed (writtenWithMnemonic 40 (CString.str "section data\nret")) :=
  nothingDropped_iff codeInData_parses (asmAssemble_success (by decide +kernel))

/-- It leaves nothing, and the assembly succeeds. -/
theorem nothingDropped_codeInData :
    parseSource 40 (CString.str "section data\nret") = some (some codeInData) ∧
      ∃ final, asmAssemble codeInData emptyContext = (some (), final) ∧
        final.textSection = [] ∧ final.dataSection = [] ∧
        ∀ run : AssemblyRun codeInData emptyContext final,
          ¬ run.NothingDropped
            (writtenWithMnemonic 40 (CString.str "section data\nret")) := by
  refine ⟨codeInData_parses, _, asmAssemble_success (by decide +kernel), by decide +kernel,
    by decide +kernel, ?_⟩
  intro run hkept
  have hget : run.program[1]? = some codeInData[1] := by
    rw [run.program_eq]
    decide +kernel
  have hallowed := (run.nothingDropped_run _).mp hkept 1 _ _ rfl hget (by decide +kernel)
  have hsect : sectionBefore codeInData 1 = .data := by decide +kernel
  rw [hsect] at hallowed
  exact absurd hallowed.2.1 (by decide)

end X86Assembler
