import X86Assembler.Contributions

namespace X86Assembler

open CString (Byte)
open Fallible (each ignore)
open LittleEndian (leBytes slice)

/-- What the listing keeps of the bytes that are emitted while an entry is open. -/
def ListingEntry.record (bs : List Byte) (entry : ListingEntry) : ListingEntry :=
  { entry with bytes := entry.bytes ++ bs.take (16 - entry.bytes.length) }

theorem ListingEntry.record_nil (entry : ListingEntry) : entry.record [] = entry := by
  simp [record]

theorem ListingEntry.record_append (bs cs : List Byte) (entry : ListingEntry) :
    (entry.record bs).record cs = entry.record (bs ++ cs) := by
  have hroom : 16 - (entry.bytes ++ bs.take (16 - entry.bytes.length)).length =
      16 - entry.bytes.length - bs.length := by
    rw [List.length_append, List.length_take]
    omega
  simp only [record, hroom, List.append_assoc, List.take_append]

def recordIn (active : Option Nat) (bs : List Byte) (entries : List ListingEntry) :
    List ListingEntry :=
  match active with
  | some i => entries.modify i (ListingEntry.record bs)
  | none => entries

theorem recordIn_nil (active : Option Nat) (entries : List ListingEntry) :
    recordIn active [] entries = entries := by
  cases active with
  | none => rfl
  | some i =>
      have hid : ListingEntry.record [] = id := funext ListingEntry.record_nil
      rw [recordIn, hid, List.modify_id]

theorem recordIn_append (active : Option Nat) (bs cs : List Byte) (entries : List ListingEntry) :
    recordIn active cs (recordIn active bs entries) = recordIn active (bs ++ cs) entries := by
  cases active with
  | none => rfl
  | some i =>
      apply List.ext_getElem?
      intro j
      simp only [recordIn, List.getElem?_modify]
      cases hj : entries[j]? with
      | none => rfl
      | some entry =>
          by_cases hij : i = j
          · simp [hij, ListingEntry.record_append]
          · simp [hij]

/-- From `ctx` to `ctx'` the bytes `bs` went to the current section and to the open entry. -/
structure Logs (ctx ctx' : AssemblerContext) (bs : List Byte) : Prop where
  sect : ctx'.currentSection = ctx.currentSection
  buffer : ctx'.buffer = ctx.buffer ++ bs
  emitListing : ctx'.emitListing = ctx.emitListing
  active : ctx'.listingActive = ctx.listingActive
  entries : ctx.emitListing = true →
    ctx'.listingEntries = recordIn ctx.listingActive bs ctx.listingEntries

theorem Logs.refl (ctx : AssemblerContext) : Logs ctx ctx [] :=
  ⟨rfl, (List.append_nil _).symm, rfl, rfl, fun _ => (recordIn_nil _ _).symm⟩

theorem Logs.trans {a b c : AssemblerContext} {bs cs : List Byte} (hab : Logs a b bs)
    (hbc : Logs b c cs) : Logs a c (bs ++ cs) where
  sect := hbc.sect.trans hab.sect
  buffer := by rw [hbc.buffer, hab.buffer, List.append_assoc]
  emitListing := hbc.emitListing.trans hab.emitListing
  active := hbc.active.trans hab.active
  entries := fun h => by
    rw [hbc.entries (hab.emitListing.trans h), hab.active, hab.entries h, recordIn_append]

theorem Logs.of_same {ctx ctx' : AssemblerContext} (ho : ctx'.output = ctx.output)
    (hl : ctx'.emitListing = ctx.emitListing) (ha : ctx'.listingActive = ctx.listingActive)
    (he : ctx'.listingEntries = ctx.listingEntries) : Logs ctx ctx' [] where
  sect := congrArg Output.sect ho
  buffer := buffer_of_output (by rw [ho, Output.push_nil])
  emitListing := hl
  active := ha
  entries := fun _ => by rw [he, recordIn_nil]

/-- Whatever such code emits, it logs, also when it fails. -/
def Logging {α : Type} (m : Asm α) : Prop := ∀ ctx, ∃ bs, Logs ctx (m ctx).2 bs

section Rules

variable {α β : Type}

theorem logging_pure (a : α) : Logging (pure a : Asm α) := fun ctx => ⟨[], .refl ctx⟩

theorem Logging.bind {m : Asm α} {f : α → Asm β} (hm : Logging m) (hf : ∀ a, Logging (f a)) :
    Logging (m >>= f) := by
  intro ctx
  obtain ⟨bs, hbs⟩ := hm ctx
  cases hr : m ctx with
  | mk r ctx₁ =>
      rw [hr] at hbs
      cases r with
      | none =>
          rw [Fallible.bind_of_none hr]
          exact ⟨bs, hbs⟩
      | some a =>
          rw [Fallible.bind_of_some hr]
          obtain ⟨cs, hcs⟩ := hf a ctx₁
          exact ⟨bs ++ cs, hbs.trans hcs⟩

theorem Logging.ignore {m : Asm α} (hm : Logging m) : Logging (ignore m) := hm

theorem Logging.each {f : α → Asm Unit} (hf : ∀ a, Logging (f a)) (as : List α) :
    Logging (each f as) := by
  induction as with
  | nil => exact logging_pure ()
  | cons a as ih => exact (hf a).bind fun _ => ih

theorem logging_get : Logging (Fallible.get : Asm AssemblerContext) := fun ctx => ⟨[], .refl ctx⟩

theorem logging_reportError (d : Diagnostic) : Logging (reportError d : Asm α) :=
  fun _ => ⟨[], .of_same rfl rfl rfl rfl⟩

end Rules

theorem logging_emitByte (b : Byte) : Logging (emitByte b) := by
  intro ctx
  rw [emitByte]
  split
  · refine ⟨[b], ?_⟩
    obtain ⟨ho, hs, -⟩ := listingEmitByte_output (ctx.pushByte b) b
    have hpush : (ctx.pushByte b).output = ctx.output.push [b] [] := by
      simp only [AssemblerContext.pushByte, Output.push, AssemblerContext.output]
      cases ctx.currentSection <;> simp
    have hlist : (ctx.pushByte b).emitListing = ctx.emitListing ∧
        (ctx.pushByte b).listingActive = ctx.listingActive ∧
        (ctx.pushByte b).listingEntries = ctx.listingEntries := by
      rw [AssemblerContext.pushByte]
      split <;> exact ⟨rfl, rfl, rfl⟩
    obtain ⟨hl, ha, he⟩ := hlist
    refine ⟨?_, buffer_of_output (ho.trans hpush), ?_, ?_, fun h => ?_⟩
    · exact congrArg Output.sect (ho.trans hpush)
    · exact (congrArg Settings.emitListing hs).trans hl
    · simp only [AssemblerContext.listingEmitByte]
      split
      · split
        · exact ha
        · exact ha
      · exact ha
    · simp only [AssemblerContext.listingEmitByte, hl, h, if_true, ha]
      cases ctx.listingActive with
      | none => exact he
      | some i =>
          simp only [he, recordIn]
          congr 1
          funext entry
          rw [ListingEntry.record]
          split
          · rename_i hlt
            rw [List.take_of_length_le]
            rw [List.length_singleton]
            omega
          · rename_i hlt
            rw [Nat.sub_eq_zero_of_le (by omega), List.take_zero, List.append_nil]
  · exact ⟨[], .of_same rfl rfl rfl rfl⟩

theorem logging_emitUnchecked (bs : List Byte) : Logging (emitUnchecked bs) := by
  induction bs with
  | nil => exact logging_pure ()
  | cons b bs ih => exact (logging_emitByte b).ignore.bind fun _ => ih

theorem logging_perform (e : Emission) : Logging e.perform := by
  cases e with
  | byte b => exact logging_emitByte b
  | fixup label size type rip =>
      intro ctx
      rw [Emission.perform, addFixup]
      split
      · exact ⟨[], .of_same rfl rfl rfl rfl⟩
      · exact ⟨[], ⟨rfl, (List.append_nil _).symm, rfl, rfl, fun _ => (recordIn_nil _ _).symm⟩⟩

theorem logging_run {α : Type} (m : Encoder α) : Logging (Encoder.run m) := by
  refine logging_get.bind fun ctx => ?_
  refine (Logging.each logging_perform _).bind fun _ => ?_
  cases (m ctx.encodeEnv).2 with
  | error d => exact logging_reportError d
  | ok a => exact logging_pure a

theorem logging_addSymbol (name : Label) (address : Word) (isGlobal isExternal : Bool)
    (sect : Option SectionId) : Logging (addSymbol name address isGlobal isExternal sect) := by
  intro ctx
  rw [addSymbol]
  split
  · exact ⟨[], .of_same rfl rfl rfl rfl⟩
  · split
    · split
      · exact ⟨[], .of_same rfl rfl rfl rfl⟩
      · exact ⟨[], .of_same rfl rfl rfl rfl⟩
    · exact ⟨[], .of_same rfl rfl rfl rfl⟩

theorem logging_encodeAlign (inst : ParsedInstruction) : Logging (encodeAlign inst) := by
  intro ctx
  rw [encodeAlign]
  split
  · simp only
    split
    · exact logging_emitUnchecked _ ctx
    · exact ⟨[], .of_same rfl rfl rfl rfl⟩
  · exact ⟨[], .of_same rfl rfl rfl rfl⟩

theorem logging_encodeIncbin (inst : ParsedInstruction) : Logging (encodeIncbin inst) := by
  intro ctx
  rw [encodeIncbin]
  split
  · split
    · exact logging_emitUnchecked _ ctx
    · exact ⟨[], .of_same rfl rfl rfl rfl⟩
  · exact ⟨[], .of_same rfl rfl rfl rfl⟩

theorem logging_encodeComm (inst : ParsedInstruction) : Logging (encodeComm inst) := by
  intro ctx
  rw [encodeComm]
  split
  · split
    · exact ⟨[], .of_same rfl rfl rfl rfl⟩
    · refine ((logging_emitUnchecked _).bind fun _ => ?_) ctx
      exact (logging_addSymbol _ _ _ _ _).ignore.bind fun _ => logging_emitUnchecked _
  · exact ⟨[], .of_same rfl rfl rfl rfl⟩

theorem logging_encodeDirective {inst : ParsedInstruction} (hs : inst.type ≠ .sectionDir) :
    Logging (encodeDirective inst) := by
  rw [encodeDirective]
  cases hk : directiveKind inst.type with
  | none => exact logging_reportError _
  | some kind =>
      cases kind with
      | data => exact logging_emitUnchecked _
      | reserve => exact logging_emitUnchecked _
      | silent => exact logging_pure ()
      | sectionChange => exact absurd (directiveKind_sectionChange.mp hk) hs
      | align => exact logging_encodeAlign inst
      | incbin => exact logging_encodeIncbin inst
      | comm => exact logging_encodeComm inst

theorem logging_encodeInstruction {inst : ParsedInstruction} (hs : inst.type ≠ .sectionDir) :
    Logging (encodeInstruction inst) := by
  refine (logging_run _).bind fun _ => ?_
  cases Encoder.machineEncoder inst.type with
  | none => exact logging_encodeDirective hs
  | some encode => exact logging_run _

/-- The entry of a statement that emitted some bytes; none for one that emitted nothing. -/
def listingEntry (inst : ParsedInstruction) (address : Word) (bs : List Byte) :
    List ListingEntry :=
  if bs = [] then []
  else
    [{ lineNumber := max inst.lineNumber 1, address, bytes := bs.take 16
       sourceLine := inst.originalLine }]

/-- The bytes that a statement emits come with an entry of the listing. -/
def Lists (inst : ParsedInstruction) (ctx ctx' : AssemblerContext) : Prop :=
  ∃ bs, ctx'.buffer = ctx.buffer ++ bs ∧
    ctx'.listingEntries = ctx.listingEntries ++ listingEntry inst ctx.currentAddress bs

theorem Logs.lists {ctx ctx' : AssemblerContext} (h : Logs ctx ctx' []) (inst : ParsedInstruction)
    (hl : ctx.emitListing = true) : Lists inst ctx ctx' := by
  refine ⟨[], h.buffer, ?_⟩
  rw [h.entries hl, recordIn_nil, listingEntry, if_pos rfl, List.append_nil]

theorem buffer_congr {a b : AssemblerContext} (h : b.output = a.output) : b.buffer = a.buffer := by
  have hpush : b.output = a.output.push [] [] := by rw [h, Output.push_nil]
  rw [buffer_of_output hpush, List.append_nil]

theorem Lists.after {inst : ParsedInstruction} {a b c : AssemblerContext} (h : Lists inst b c)
    (ho : b.output = a.output) (he : b.listingEntries = a.listingEntries) : Lists inst a c := by
  obtain ⟨bs, hb, hentries⟩ := h
  have hbuf : b.buffer = a.buffer := buffer_congr ho
  refine ⟨bs, by rw [hb, hbuf], ?_⟩
  have haddr : b.currentAddress = a.currentAddress := congrArg Output.address ho
  rw [hentries, he, haddr]

theorem modify_append_singleton {α : Type} (f : α → α) (l : List α) (a : α) :
    (l ++ [a]).modify l.length f = l ++ [f a] := by
  induction l with
  | nil => rfl
  | cons b l ih => rw [List.cons_append, List.length_cons, List.modify_succ_cons, ih,
      List.cons_append]

theorem listingStart_output (ctx : AssemblerContext) (line : Nat) (source : Text) :
    (ctx.listingStartInstruction line source).output = ctx.output := by
  rw [AssemblerContext.listingStartInstruction]
  split <;> rfl

theorem listingEnd_output (ctx : AssemblerContext) :
    ctx.listingEndInstruction.output = ctx.output := by
  rw [AssemblerContext.listingEndInstruction]
  split
  · split <;> rfl
  · rfl

theorem Logs.closed {inst : ParsedInstruction} {ctx ctx' : AssemblerContext} {bs : List Byte}
    (hl : ctx.emitListing = true)
    (h : Logs (ctx.listingStartInstruction inst.lineNumber inst.originalLine) ctx' bs) :
    Lists inst ctx ctx'.listingEndInstruction := by
  have hstart : ctx.listingStartInstruction inst.lineNumber inst.originalLine =
      { ctx with
        listingEntries := ctx.listingEntries ++
          [{ lineNumber := max inst.lineNumber 1, address := ctx.currentAddress
             sourceLine := inst.originalLine }]
        listingActive := some ctx.listingEntries.length } := by
    rw [AssemblerContext.listingStartInstruction, if_pos hl]
  have hbuf := buffer_congr (listingStart_output ctx inst.lineNumber inst.originalLine)
  have hentries := h.entries (by rw [hstart]; exact hl)
  have hactive := h.active
  have hlisting := h.emitListing
  rw [hstart] at hentries hactive hlisting
  simp only [recordIn, modify_append_singleton, ListingEntry.record, List.nil_append,
    List.length_nil, Nat.sub_zero] at hentries
  refine ⟨bs, ?_, ?_⟩
  · rw [buffer_congr (listingEnd_output ctx'), h.buffer, hbuf]
  · rw [AssemblerContext.listingEndInstruction, if_pos (hlisting.trans hl), hactive]
    simp only [hentries, List.getElem?_concat_length, Option.map_some, Option.getD_some,
      List.length_append, List.length_singleton, beq_self_eq_true, Bool.and_true,
      List.dropLast_concat]
    cases bs with
    | nil => rw [listingEntry, if_pos rfl, List.append_nil]; rfl
    | cons b bs => rw [listingEntry, if_neg (List.cons_ne_nil b bs)]; rfl

theorem encodeListed_lists {what : String} {inst : ParsedInstruction} {ctx ctx' : AssemblerContext}
    (hs : inst.type ≠ .sectionDir) (hl : ctx.emitListing = true)
    (h : encodeListed what inst ctx = (some (), ctx')) : Lists inst ctx ctx' := by
  rw [encodeListed] at h
  obtain ⟨bs, hlogs⟩ := logging_encodeInstruction hs
    (ctx.listingStartInstruction inst.lineNumber inst.originalLine)
  cases henc : encodeInstruction inst
      (ctx.listingStartInstruction inst.lineNumber inst.originalLine) with
  | mk r ctx₂ =>
      rw [henc] at h hlogs
      cases r with
      | none => cases h
      | some _ =>
          cases h
          exact hlogs.closed hl

theorem listed_lists {inst : ParsedInstruction} {m : Asm Unit} {ctx ctx' : AssemblerContext}
    (hm : Logging m) (hl : ctx.emitListing = true)
    (h : listed inst m ctx = (some (), ctx')) : Lists inst ctx ctx' := by
  obtain ⟨_, ctx₁, hstart, hrest⟩ := Fallible.bind_eq_some.mp h
  cases hstart
  obtain ⟨_, ctx₂, hbody, hend⟩ := Fallible.bind_eq_some.mp hrest
  cases hend
  obtain ⟨bs, hlogs⟩ := hm (ctx.listingStartInstruction inst.lineNumber inst.originalLine)
  rw [hbody] at hlogs
  exact hlogs.closed hl

theorem emitDataStatement_lists {inst : ParsedInstruction} {ctx ctx' : AssemblerContext}
    (hl : ctx.emitListing = true) (h : emitDataStatement inst ctx = (some (), ctx')) :
    Lists inst ctx ctx' := by
  have hskip : (pure () : Asm Unit) ctx = (some (), ctx') → Lists inst ctx ctx' := by
    intro h
    obtain ⟨-, rfl⟩ := Fallible.pure_eq_some.mp h
    exact (Logs.refl ctx).lists inst hl
  rw [emitDataStatement] at h
  cases hk : directiveKind inst.type with
  | none =>
      rw [hk] at h
      exact hskip h
  | some kind =>
      have hsect : kind ≠ .sectionChange → inst.type ≠ .sectionDir := by
        intro hne heq
        rw [directiveKind_sectionChange.mpr heq] at hk
        exact hne (Option.some.inj hk).symm
      rw [hk] at h
      cases kind with
      | data => exact listed_lists (logging_emitUnchecked _) hl h
      | reserve =>
          have h : (if (reserveBytes inst).isSome then listed inst (encodeReserve inst)
            else pure ()) ctx = (some (), ctx') := h
          split at h
          · exact listed_lists (logging_emitUnchecked _) hl h
          · exact hskip h
      | silent => exact hskip h
      | sectionChange => exact hskip h
      | align => exact encodeListed_lists (hsect (by decide)) hl h
      | incbin => exact encodeListed_lists (hsect (by decide)) hl h
      | comm => exact encodeListed_lists (hsect (by decide)) hl h

theorem markGlobals_listing (ops : List Operand) (ctx : AssemblerContext) :
    Logs ctx (ops.foldl markGlobal ctx) [] := by
  induction ops generalizing ctx with
  | nil => exact .refl ctx
  | cons op ops ih =>
      have hop : Logs ctx (markGlobal ctx op) [] := by
        cases op with
        | label name => exact .of_same rfl rfl rfl rfl
        | none | reg _ _ | imm _ | mem _ | labelDiff _ _ | string _ => exact .refl ctx
      exact hop.trans (ih (markGlobal ctx op))

theorem logging_declareExternal (op : Operand) : Logging (declareExternal op) := by
  cases op with
  | label name => exact (logging_addSymbol _ _ _ _ _).ignore
  | none | reg _ _ | imm _ | mem _ | labelDiff _ _ | string _ => exact logging_pure ()

theorem markCallTarget_rest (ctx : AssemblerContext) (inst : ParsedInstruction) :
    ∃ symbols, markCallTarget ctx inst = { ctx with symbols := symbols } := by
  rw [markCallTarget]
  split
  · exact ⟨_, rfl⟩
  · exact ⟨ctx.symbols, rfl⟩

theorem addLineMapEntry_rest (ctx : AssemblerContext) (inst : ParsedInstruction) :
    ∃ lines, addLineMapEntry ctx inst = { ctx with lineMap := lines } := by
  rw [addLineMapEntry]
  split
  · exact ⟨_, rfl⟩
  · exact ⟨ctx.lineMap, rfl⟩

theorem emitTextStatement_lists {inst : ParsedInstruction} {ctx ctx' : AssemblerContext}
    (hs : inst.type ≠ .sectionDir) (hl : ctx.emitListing = true)
    (h : emitTextStatement inst ctx = (some (), ctx')) : Lists inst ctx ctx' := by
  rw [emitTextStatement] at h
  by_cases hglobal : inst.type = .global
  · rw [if_pos hglobal] at h
    cases h
    exact (markGlobals_listing _ _).lists inst hl
  · rw [if_neg hglobal] at h
    by_cases hextern : inst.type = .externSym
    · rw [if_pos hextern] at h
      obtain ⟨bs, hlogs⟩ := Logging.each logging_declareExternal inst.operands ctx
      rw [h] at hlogs
      have hnone : ctx.buffer ++ [] = ctx.buffer ++ bs := by
        rw [← (declareExternals_emits h).buffer, hlogs.buffer]
      rw [← List.append_cancel_left hnone] at hlogs
      exact hlogs.lists inst hl
    · rw [if_neg hextern] at h
      obtain ⟨_, ctx₁, hmark, h⟩ := Fallible.bind_eq_some.mp h
      rw [Fallible.modify_run] at hmark
      cases hmark
      obtain ⟨symbols, hsymbols⟩ := markCallTarget_rest ctx inst
      rw [hsymbols] at h
      split at h
      · obtain ⟨-, rfl⟩ := Fallible.pure_eq_some.mp h
        exact ⟨[], (List.append_nil _).symm, (List.append_nil _).symm⟩
      · obtain ⟨_, ctx₂, hmap, h⟩ := Fallible.bind_eq_some.mp h
        rw [Fallible.modify_run] at hmap
        cases hmap
        obtain ⟨lines, hlines⟩ := addLineMapEntry_rest { ctx with symbols := symbols } inst
        rw [hlines] at h
        exact (encodeListed_lists hs (by exact hl) h).after rfl rfl

theorem applySymbolAttribute_listing {directive : String} {f : Symbol → Symbol}
    {names : List Label} {ctx ctx' : AssemblerContext}
    (h : each (applySymbolAttribute directive f) names ctx = (some (), ctx')) :
    ctx'.listingEntries = ctx.listingEntries := by
  induction names generalizing ctx with
  | nil =>
      obtain ⟨-, rfl⟩ := Fallible.pure_eq_some.mp h
      rfl
  | cons name names ih =>
      obtain ⟨_, ctx₁, hone, hrest⟩ := Fallible.bind_eq_some.mp h
      rw [applySymbolAttribute] at hone
      split at hone
      · cases hone
        have hkept := ih hrest
        exact hkept
      · cases hone

section TextRun

variable {insts out : List ParsedInstruction} {ctx ctx' : AssemblerContext} {st : TextPassState}

theorem placeLabel_listing (ctx : AssemblerContext) (inst : ParsedInstruction) :
    (placeLabel ctx inst).listingEntries = ctx.listingEntries := by
  obtain ⟨symbols, table, h, -⟩ := placeLabel_rest ctx inst
  rw [h]

theorem textAt_emitListing (h : textPass {} insts ctx = (some (st, out), ctx'))
    (hs : PassStart ctx) {i : Nat} (hi : i ≤ insts.length) :
    (textAt insts ctx i).emitListing = ctx.emitListing :=
  congrArg Settings.emitListing (textGrows_between h hs (Nat.zero_le i) hi).settings

/-- One statement of a text pass: its entry holds what it adds to the text section. -/
theorem textAt_lists (h : textPass {} insts ctx = (some (st, out), ctx')) (hs : PassStart ctx)
    (hl : ctx.emitListing = true) {i : Nat} {b : ParsedInstruction} (hb : out[i]? = some b) :
    ∃ bs, (textAt insts ctx (i + 1)).textSection = (textAt insts ctx i).textSection ++ bs ∧
      (textAt insts ctx (i + 1)).listingEntries = (textAt insts ctx i).listingEntries ++
        listingEntry b (textAt insts ctx i).currentAddress bs := by
  have hi : i < insts.length := by
    rw [← Fallible.walk_length h]
    exact (List.getElem?_eq_some_iff.mp hb).1
  have hget : insts[i]? = some insts[i] := List.getElem?_eq_getElem hi
  by_cases hin : InText insts i insts[i]
  · obtain ⟨hout, hemit⟩ := textAt_step h hs hin
    rw [hb] at hout
    cases hout
    have hne : (textRewrite (textAt insts ctx i) insts[i]).type ≠ .sectionDir := hin.not_section
    have hlisting : (placeLabel (textAt insts ctx i) insts[i]).emitListing = true := by
      have hsame : (placeLabel (textAt insts ctx i) insts[i]).emitListing =
          (textAt insts ctx i).emitListing :=
        congrArg Settings.emitListing (placeLabel_settings _ _)
      exact hsame.trans ((textAt_emitListing h hs (Nat.le_of_lt hi)).trans hl)
    obtain ⟨bs, hbuf, hentries⟩ := (emitTextStatement_lists hne hlisting hemit).after
      (placeLabel_output _ _) (placeLabel_listing _ _)
    refine ⟨bs, ?_, hentries⟩
    have hsect : (textAt insts ctx i).currentSection = .text :=
      (textAt_sect h hs (Nat.le_of_lt hi)).trans hin.sect
    obtain ⟨bs', fs, lost, he⟩ := textAt_emits h hs hin
    have hsect' : (textAt insts ctx (i + 1)).currentSection = .text := by
      rw [he.sect, (placeLabel_text _ _).2.2.2.2, hsect]
    simp only [AssemblerContext.buffer, hsect, hsect'] at hbuf
    exact hbuf
  · obtain ⟨hout, hnext⟩ := textAt_skip h hs hget hin
    rw [hnext]
    refine ⟨[], (List.append_nil _).symm, ?_⟩
    rw [listingEntry, if_pos rfl, List.append_nil]

end TextRun

section DataRun

variable {insts : List ParsedInstruction} {ctx ctx' : AssemblerContext}

theorem dataAt_lists (h : dataPass insts ctx = (some (), ctx')) (hl : ctx.emitListing = true)
    {i : Nat} {b : ParsedInstruction} (hb : insts[i]? = some b) :
    ∃ bs, (dataAt insts ctx (i + 1)).dataSection = (dataAt insts ctx i).dataSection ++ bs ∧
      (dataAt insts ctx (i + 1)).listingEntries = (dataAt insts ctx i).listingEntries ++
        listingEntry b (dataAt insts ctx i).currentAddress bs := by
  have hi : i < insts.length := (List.getElem?_eq_some_iff.mp hb).1
  by_cases hin : InData insts i b
  · have hemit := dataAt_step h hin
    have hlisting : (placeLabel (dataAt insts ctx i) b).emitListing = true := by
      have hsame : (placeLabel (dataAt insts ctx i) b).emitListing =
          (resetForDataPass ctx).emitListing :=
        congrArg Settings.emitListing ((placeLabel_settings _ _).trans
          (dataGrows_between h (Nat.zero_le i) (Nat.le_of_lt hi)).settings)
      exact hsame.trans hl
    obtain ⟨bs, hbuf, hentries⟩ := (emitDataStatement_lists hlisting hemit).after
      (placeLabel_output _ _) (placeLabel_listing _ _)
    refine ⟨bs, ?_, hentries⟩
    have hsect : (dataAt insts ctx i).currentSection = .data :=
      (dataAt_sect h (Nat.le_of_lt hi)).trans hin.sect
    obtain ⟨bs', lost, he⟩ := dataAt_emits h hin
    have hsect' : (dataAt insts ctx (i + 1)).currentSection = .data := by
      rw [he.sect, (placeLabel_text _ _).2.2.2.2, hsect]
    simp only [AssemblerContext.buffer, hsect, hsect'] at hbuf
    exact hbuf
  · rw [dataAt_skip h hb hin]
    refine ⟨[], (List.append_nil _).symm, ?_⟩
    rw [listingEntry, if_pos rfl, List.append_nil]

end DataRun

theorem listingEntry_mem {inst : ParsedInstruction} {address : Word} {bs : List Byte}
    {e : ListingEntry} (he : e ∈ listingEntry inst address bs) :
    bs ≠ [] ∧ e.address = address := by
  rw [listingEntry] at he
  split at he
  · cases he
  · rename_i hne
    rw [List.mem_singleton.mp he]
    exact ⟨hne, rfl⟩

theorem listingEntry_shows {inst : ParsedInstruction} {address base : Word} {bs all : List Byte}
    {offset : Nat} (ho : (address - base).toNat = offset) :
    (∀ e ∈ listingEntry inst address bs, e.bytes.length ≤ 16 ∧
      e.bytes = slice all (e.address - base).toNat e.bytes.length) ↔
        bs.take 16 = (slice all offset bs.length).take 16 := by
  rw [listingEntry]
  split
  · rename_i hnil
    rw [hnil]
    exact iff_of_true (List.forall_mem_nil _) rfl
  · rw [List.forall_mem_singleton]
    simp only
    rw [ho, List.length_take, slice, slice, List.take_take]
    exact and_iff_right (Nat.min_le_left _ _)

theorem entries_ordered {entries : Nat → List ListingEntry} {start : Nat → Nat} {n : Nat}
    (hone : ∀ i < n, ∃ inst address bs, entries i = listingEntry inst address bs ∧
      (bs ≠ [] → address.toNat = start i))
    (hmono : ∀ i j, i ≤ j → j < n → start i ≤ start j) :
    ((List.range n).flatMap entries).Pairwise fun e e' => e.address.toNat ≤ e'.address.toNat := by
  have haddress : ∀ i < n, ∀ e ∈ entries i, e.address.toNat = start i := by
    intro i hi e he
    obtain ⟨inst, address, bs, hentry, hstart⟩ := hone i hi
    rw [hentry] at he
    obtain ⟨hne, haddress⟩ := listingEntry_mem he
    rw [haddress, hstart hne]
  rw [List.pairwise_flatMap]
  constructor
  · intro i hi
    obtain ⟨inst, address, bs, hentry, -⟩ := hone i (List.mem_range.mp hi)
    rw [hentry, listingEntry]
    split
    · exact .nil
    · exact List.pairwise_singleton _ _
  · refine List.pairwise_lt_range.imp_of_mem fun hi hj hij e he e' he' => ?_
    rw [haddress _ (List.mem_range.mp hi) e he, haddress _ (List.mem_range.mp hj) e' he']
    exact hmono _ _ (Nat.le_of_lt hij) (List.mem_range.mp hj)

theorem toNat_add_ofNat {base : Word} {n : Nat} (h : base.toNat + n < 2 ^ 64) :
    (base + BitVec.ofNat 64 n).toNat = base.toNat + n := by
  rw [BitVec.toNat_add, BitVec.toNat_ofNat, Nat.add_mod_mod, Nat.mod_eq_of_lt h]

/-- The text section, the data section and the base address leave room in 64 bits. -/
def InAddressSpace (ctx : AssemblerContext) : Prop :=
  ctx.baseAddress.toNat + ctx.textCapacity.toNat + ctx.dataCapacity.toNat ≤ 2 ^ 64

namespace AssemblyRun

variable {insts : List ParsedInstruction} {ctx final : AssemblerContext}
  (run : AssemblyRun insts ctx final)

/-- The bytes that the last text pass emitted for a statement. -/
def textEmitted (i : Nat) : List Byte :=
  (run.textAt (i + 1)).textSection.drop (run.textOffset i)

/-- The fixups that the last text pass made for a statement. -/
def textFixups (i : Nat) : List Fixup :=
  (run.textAt (i + 1)).fixups.drop (run.textAt i).fixups.length

def textEntries (i : Nat) : List ListingEntry :=
  match run.program[i]? with
  | some b => listingEntry b (final.baseAddress + BitVec.ofNat 64 (run.textOffset i))
      (run.textEmitted i)
  | none => []

def dataEntries (i : Nat) : List ListingEntry :=
  match run.program[i]? with
  | some b => listingEntry b (final.baseAddress + BitVec.ofNat 64 final.textSection.length +
      BitVec.ofNat 64 (run.dataOffset i)) (run.dataBytes i)
  | none => []

/-- The listing shows what the last text pass and the data pass emitted, in the order of the
addresses, and the bytes that the output has there. -/
structure ListingAgrees : Prop where
  passes : final.listingEntries = (List.range run.program.length).flatMap run.textEntries ++
    (List.range run.program.length).flatMap run.dataEntries
  ordered : ∀ entries, entries = run.textEntries ∨ entries = run.dataEntries →
    ((List.range run.program.length).flatMap entries).Pairwise
      fun e e' => e.address.toNat ≤ e'.address.toNat
  bytes : ∀ e ∈ final.listingEntries, e.bytes.length ≤ 16 ∧
    e.bytes = slice (final.textSection ++ final.dataSection)
      (e.address - final.baseAddress).toNat e.bytes.length

/-- How many of the bytes of a fixup the listing entry of its statement shows. -/
def listedWidth (i : Nat) (f : Fixup) : Nat :=
  min 4 (16 - (f.offset final.baseAddress - run.textOffset i))

/-- No fixup adds anything to the bytes that the listing shows. -/
def FixupsVanish : Prop :=
  ∀ i < run.program.length, ∀ f ∈ run.textFixups i, ∀ target,
    findSymbolAddress run.emitted f.label = some target →
      (f.value target).toNat % 256 ^ run.listedWidth i f = 0

theorem program_get {i : Nat} (hi : i < run.program.length) :
    run.program[i]? = some run.program[i] := List.getElem?_eq_getElem hi

section Entries

variable (hl : run.entry.emitListing = true)

include hl

theorem text_listing {i : Nat} (hi : i < run.program.length) :
    (run.textAt (i + 1)).textSection = (run.textAt i).textSection ++ run.textEmitted i ∧
      (run.textAt (i + 1)).listingEntries = (run.textAt i).listingEntries ++ run.textEntries i := by
  obtain ⟨bs, htext, hentries⟩ :=
    textAt_lists run.lastPass run.start hl (run.program_get hi)
  have hemitted : run.textEmitted i = bs := by
    rw [textEmitted, textAt, htext, textOffset, textAt, List.drop_left]
  have haddr := run.text_address (Nat.le_of_lt (run.program_length ▸ hi))
  rw [hemitted, textEntries, run.program_get hi, hemitted, ← haddr]
  exact ⟨htext, hentries⟩

theorem texted_listing : run.texted.listingEntries =
    (List.range run.program.length).flatMap run.textEntries := by
  have hprefix : ∀ k ≤ run.program.length, (run.textAt k).listingEntries =
      (List.range k).flatMap run.textEntries := by
    intro k hk
    induction k with
    | zero => rfl
    | succ k ih =>
        rw [(run.text_listing hl hk).2, ih (Nat.le_of_succ_le hk), List.range_succ,
          List.flatMap_append, List.flatMap_singleton]
  rw [← hprefix _ (Nat.le_refl _), run.program_length, run.textAt_end]

theorem attributed_listing : run.attributed.emitListing = true := by
  have hsettings := run.attributed_emits.settings.trans run.texted_settings
  exact (congrArg Settings.emitListing hsettings).trans hl

theorem data_listing {i : Nat} (hi : i < run.program.length) :
    (run.dataAt (i + 1)).dataSection = (run.dataAt i).dataSection ++ run.dataBytes i ∧
      (run.dataAt (i + 1)).listingEntries = (run.dataAt i).listingEntries ++ run.dataEntries i := by
  obtain ⟨bs, hdata, hentries⟩ :=
    dataAt_lists run.dataEmitted (run.attributed_listing hl) (run.program_get hi)
  have hdata : (run.dataAt (i + 1)).dataSection = (run.dataAt i).dataSection ++ bs := hdata
  have hentries : (run.dataAt (i + 1)).listingEntries = (run.dataAt i).listingEntries ++
    listingEntry run.program[i] (run.dataAt i).currentAddress bs := hentries
  have hsucc : run.dataOffset (i + 1) = run.dataOffset i + bs.length := by
    rw [dataOffset, hdata, List.length_append, dataOffset]
  obtain ⟨later, hlater, -⟩ := (dataGrows_between run.dataEmitted (Nat.succ_le_of_lt hi)
    (Nat.le_refl run.program.length)).data
  rw [dataAt_length run.dataEmitted] at hlater
  have hlater : run.emitted.dataSection = (run.dataAt (i + 1)).dataSection ++ later := hlater
  have hbytes : run.dataBytes i = bs := by
    rw [dataBytes, hsucc, Nat.add_sub_cancel_left, run.final_data, hlater, hdata, dataOffset]
    exact LittleEndian.slice_append_exact
  have haddr : (run.dataAt i).currentAddress = final.baseAddress +
      BitVec.ofNat 64 final.textSection.length + BitVec.ofNat 64 (run.dataOffset i) := by
    have hat := dataAt_address run.dataEmitted (Nat.le_of_lt hi)
    have hbase : run.attributed.baseAddress = final.baseAddress := by
      rw [run.final_base]
      exact congrArg Settings.baseAddress
        (run.attributed_emits.settings.trans run.texted_settings)
    have htext : run.attributed.textSection.length = final.textSection.length := by
      have hsame := run.attributed_emits.output
      rw [Output.push_nil] at hsame
      rw [run.final_length, show run.attributed.textSection = run.texted.textSection from
        congrArg Output.text hsame]
    rw [hbase, htext] at hat
    exact hat
  rw [hbytes, dataEntries, run.program_get hi, hbytes, ← haddr]
  exact ⟨hdata, hentries⟩

theorem final_listing : final.listingEntries =
    (List.range run.program.length).flatMap run.textEntries ++
      (List.range run.program.length).flatMap run.dataEntries := by
  have hattributed : run.attributed.listingEntries = run.texted.listingEntries := by
    obtain ⟨_, ctx₁, hweak, hhidden⟩ := Fallible.bind_eq_some.mp run.attributesApplied
    rw [applySymbolAttribute_listing hhidden, applySymbolAttribute_listing hweak]
  have hprefix : ∀ k ≤ run.program.length, (run.dataAt k).listingEntries =
      run.texted.listingEntries ++ (List.range k).flatMap run.dataEntries := by
    intro k hk
    induction k with
    | zero =>
        rw [List.range_zero, List.flatMap_nil, List.append_nil, ← hattributed]
        rfl
    | succ k ih =>
        rw [(run.data_listing hl hk).2, ih (Nat.le_of_succ_le hk), List.range_succ,
          List.flatMap_append, List.flatMap_singleton, List.append_assoc]
  have hfinal : final.listingEntries = run.emitted.listingEntries := by
    have hsame := congrArg AssemblerContext.listingEntries run.resolves.same
    exact hsame
  rw [hfinal, ← run.texted_listing hl, ← hprefix _ (Nat.le_refl _), run.dataAt_end]

end Entries

theorem textFixups_cases {i : Nat} (hi : i < run.program.length) :
    (run.textAt (i + 1)).fixups = (run.textAt i).fixups ∨
      ∃ b env es, run.Encodes i b env es := by
  by_cases hb : InText run.program i run.program[i]
  · cases hm : Encoder.machineEncoder run.program[i].type with
    | none => exact .inl (run.text_fixups hb hm)
    | some encode =>
        cases hlabel : isLabelOnly run.program[i] with
        | false =>
            obtain ⟨a, es, -, henc⟩ := run.text_encodes hb hm hlabel
            exact .inr ⟨_, _, es, henc⟩
        | true =>
            obtain ⟨a, -, -, hemit⟩ := run.text_statement hb
            have hu : isUnencoded run.program[i] = true := by
              rw [isUnencoded, hlabel, Bool.or_true]
            have hfix := (emitTextStatement_unencoded hu hemit).fixups
            rw [List.append_nil, (placeLabel_text a (run.textAt i)).2.2.1] at hfix
            exact .inl hfix
  · have hlt : i < run.source.length := run.program_length ▸ hi
    have hget : run.source[i]? = some run.source[i] := List.getElem?_eq_getElem hlt
    have hnot : ¬ InText run.source i run.source[i] := by
      intro ha
      obtain ⟨b, hb', -⟩ := (textPass_rewrites run.lastPass run.start).inText ha
      have heq : b = run.program[i] := Option.some.inj (hb'.get.symm.trans (run.program_get hi))
      exact hb (heq ▸ hb')
    left
    rw [textAt, (textAt_skip run.lastPass run.start hget hnot).2]
    rfl

/-- The listing shows the final bytes of a statement when the fixups do not change them. -/
theorem listed_bytes_iff {i : Nat} (hi : i < run.program.length) :
    (run.textEmitted i).take 16 = (run.textBytes i).take 16 ↔
      ∀ f ∈ run.textFixups i, ∀ target, findSymbolAddress run.emitted f.label = some target →
        (f.value target).toNat % 256 ^ run.listedWidth i f = 0 := by
  have hlt : i < run.source.length := run.program_length ▸ hi
  have hsame : (run.textAt (i + 1)).fixups = (run.textAt i).fixups →
      run.textEmitted i = run.textBytes i := by
    intro hfix
    have hfix : (run.textAt (i + 1)).fixups = (run.textAt i).fixups ++ [] := by
      rw [hfix, List.append_nil]
    obtain ⟨bs, hbs⟩ := textAt_prefix run.lastPass run.start (Nat.le_succ i) hlt
    have hbs : (run.textAt (i + 1)).textSection = (run.textAt i).textSection ++ bs := hbs
    rw [textBytes, run.final_slice hlt _ _ (Nat.le_refl _)
      (Nat.le_of_eq (Nat.add_sub_cancel' (run.textOffset_mono hi))) hfix (List.forall_mem_nil _),
      textEmitted, slice, List.take_of_length_le]
    rw [List.length_drop, textOffset, textOffset]
  have hnone : (run.textAt (i + 1)).fixups = (run.textAt i).fixups → run.textFixups i = [] := by
    intro hfix
    rw [textFixups, hfix, List.drop_length]
  rcases run.textFixups_cases hi with hfix | ⟨b, env, es, henc⟩
  · rw [hsame hfix, hnone hfix]
    exact iff_of_true rfl (List.forall_mem_nil _)
  · rcases henc.encoded.fixups (final.baseAddress + BitVec.ofNat 64 (run.textOffset i)) with
      hnil | ⟨pre, post, label, v, type, rip, hes, hfs⟩
    · have hfix := henc.fixups
      rw [hnil, List.append_nil] at hfix
      rw [hsame hfix, hnone hfix]
      exact iff_of_true rfl (List.forall_mem_nil _)
    · obtain ⟨target, htarget, -, hbytes⟩ := henc.textBytes_fixup hes hfs
      have htarget := (run.resolves.findSymbolAddress label).symm.trans htarget
      have hemitted : run.textEmitted i = bytesOf es := by
        rw [textEmitted, henc.text, textOffset, List.drop_left]
      have hfixups : run.textFixups i =
          fixupsOf (final.baseAddress + BitVec.ofNat 64 (run.textOffset i)) es := by
        rw [textFixups, henc.fixups, List.drop_left]
      have hbound : run.textOffset i + pre.length < 2 ^ 64 := by
        have hlast : run.textOffset (i + 1) < 2 ^ 64 :=
          textAt_length_lt run.lastPass run.start (Nat.succ_le_of_lt henc.lt)
        rw [henc.offset_succ, hes, List.length_append, List.length_append] at hlast
        omega
      generalize hf : (⟨label, final.baseAddress + BitVec.ofNat 64 (run.textOffset i) +
        BitVec.ofNat 64 pre.length, 4, type, rip⟩ : Fixup) = f at hfs hbytes
      have hwidth : run.listedWidth i f = min 4 (16 - pre.length) := by
        have hoff : f.offset final.baseAddress = run.textOffset i + pre.length :=
          offset_eq hbound (by rw [← hf, BitVec.ofNat_add, BitVec.add_assoc])
        rw [listedWidth, hoff, Nat.add_sub_cancel_left]
      have hlabel : findSymbolAddress run.emitted f.label = some target := by
        rw [← hf]
        exact htarget
      rw [hfixups, hfs, List.forall_mem_singleton, hbytes, hemitted, hes, hwidth]
      simp only [hlabel, Option.some.injEq, forall_eq']
      rw [← LittleEndian.leBytes_add_signExtend (Nat.min_le_left 4 _),
        ← LittleEndian.take_leBytes, ← LittleEndian.take_leBytes]
      simp only [List.take_append, List.append_assoc, LittleEndian.leBytes_length]
      constructor
      · intro h
        have hmid := List.append_inj_left (List.append_cancel_left h) (by
          rw [List.length_take, List.length_take, LittleEndian.leBytes_length,
            LittleEndian.leBytes_length])
        exact hmid.symm
      · intro h
        rw [h]

theorem setup : SameSetup ctx run.entry := by
  have hlayout := layoutProgram_settings run.laidOut
  have hstart : SameSetup ctx { ctx with lastError := none } := ⟨rfl, rfl, rfl, rfl, rfl⟩
  exact (hstart.trans (.of_settings hlayout)).trans (textReaches_keeps run.reached).setup

include run in
theorem final_text_fits : final.textSection.length ≤ ctx.textCapacity.toNat := by
  have htext := textAt_fits run.lastPass run.start (Nat.le_refl _)
  have hcap : (resetForTextPass run.entry).textCapacity = ctx.textCapacity :=
    run.setup.textCapacity
  rwa [textAt_length run.lastPass, hcap, ← run.final_length] at htext

include run in
theorem final_data_fits : final.dataSection.length ≤ ctx.dataCapacity.toNat := by
  have hdata := dataAt_fits run.dataEmitted (Nat.le_refl _)
  have hdatacap : run.attributed.dataCapacity = ctx.dataCapacity := by
    have hsettings := run.attributed_emits.settings.trans run.texted_settings
    exact (congrArg Settings.dataCapacity hsettings).trans run.setup.dataCapacity
  rwa [dataAt_length run.dataEmitted, hdatacap, ← run.final_data] at hdata

include run in
theorem final_fits (hspace : InAddressSpace ctx) :
    final.baseAddress.toNat + final.textSection.length + final.dataSection.length ≤ 2 ^ 64 := by
  have htext := run.final_text_fits
  have hdata := run.final_data_fits
  have hbase : final.baseAddress = ctx.baseAddress := run.final_base.trans run.setup.baseAddress
  rw [hbase]
  unfold InAddressSpace at hspace
  omega

theorem textBytes_length {i : Nat} (hi : i < run.program.length) :
    (run.textBytes i).length = (run.textEmitted i).length := by
  have hlt : i < run.source.length := run.program_length ▸ hi
  have hmono := run.textOffset_mono hi
  have hend : run.textOffset (i + 1) ≤ final.textSection.length := run.final_end hlt
  rw [textBytes, LittleEndian.slice_length (by omega), textEmitted, List.length_drop]
  rfl

theorem text_shows {i : Nat} (hi : i < run.program.length) :
    (∀ e ∈ run.textEntries i, e.bytes.length ≤ 16 ∧
      e.bytes = slice (final.textSection ++ final.dataSection)
        (e.address - final.baseAddress).toNat e.bytes.length) ↔
      (run.textEmitted i).take 16 = (run.textBytes i).take 16 := by
  have hlt : i < run.source.length := run.program_length ▸ hi
  have hmono := run.textOffset_mono hi
  have hend : run.textOffset (i + 1) ≤ final.textSection.length := run.final_end hlt
  have hlen := run.textBytes_length hi
  have hbytes : (run.textBytes i).length = run.textOffset (i + 1) - run.textOffset i := by
    rw [textBytes, LittleEndian.slice_length (by omega)]
  have hoff : (final.baseAddress + BitVec.ofNat 64 (run.textOffset i) -
      final.baseAddress).toNat = run.textOffset i := by
    have hbound : run.textOffset i < 2 ^ 64 :=
      textAt_length_lt run.lastPass run.start (Nat.le_of_lt hlt)
    rw [BitVec.add_comm, BitVec.add_sub_cancel, BitVec.toNat_ofNat, Nat.mod_eq_of_lt hbound]
  rw [textEntries, run.program_get hi]
  simp only
  rw [listingEntry_shows hoff, LittleEndian.slice_append_left (by omega), ← hlen, hbytes, textBytes]

theorem dataBytes_length {i : Nat} (hi : i < run.program.length) :
    (run.dataBytes i).length = run.dataOffset (i + 1) - run.dataOffset i := by
  have hmono := run.dataOffset_mono hi
  have hend : run.dataOffset (i + 1) ≤ final.dataSection.length := run.dataOffset_end hi
  rw [dataBytes, LittleEndian.slice_length (by omega)]

theorem data_shows (hspace : InAddressSpace ctx) {i : Nat} (hi : i < run.program.length) :
    ∀ e ∈ run.dataEntries i, e.bytes.length ≤ 16 ∧
      e.bytes = slice (final.textSection ++ final.dataSection)
        (e.address - final.baseAddress).toNat e.bytes.length := by
  have hfits := run.final_fits hspace
  have hend : run.dataOffset (i + 1) ≤ final.dataSection.length := run.dataOffset_end hi
  have hbytes := run.dataBytes_length hi
  rw [dataEntries, run.program_get hi]
  simp only
  cases hnil : run.dataBytes i with
  | nil =>
      rw [listingEntry, if_pos rfl]
      exact List.forall_mem_nil _
  | cons b bs =>
      have hpos : 0 < (run.dataBytes i).length := by rw [hnil]; exact Nat.succ_pos _
      have hoff : (final.baseAddress + BitVec.ofNat 64 final.textSection.length +
          BitVec.ofNat 64 (run.dataOffset i) - final.baseAddress).toNat =
            final.textSection.length + run.dataOffset i := by
        rw [BitVec.add_assoc, BitVec.add_comm, BitVec.add_sub_cancel, ← BitVec.ofNat_add,
          BitVec.toNat_ofNat, Nat.mod_eq_of_lt (by omega)]
      rw [← hnil, listingEntry_shows hoff, LittleEndian.slice_append_right, hbytes, dataBytes]

theorem text_ordered (hspace : InAddressSpace ctx) :
    ((List.range run.program.length).flatMap run.textEntries).Pairwise
      fun e e' => e.address.toNat ≤ e'.address.toNat := by
  have hfits := run.final_fits hspace
  refine @entries_ordered _ (fun i => final.baseAddress.toNat + run.textOffset i) _ ?_ ?_
  · intro i hi
    have hlt : i < run.source.length := run.program_length ▸ hi
    have hend : run.textOffset (i + 1) ≤ final.textSection.length := run.final_end hlt
    refine ⟨run.program[i], _, run.textEmitted i, by rw [textEntries, run.program_get hi],
      fun hne => ?_⟩
    have hpos := List.length_pos_iff.mpr hne
    rw [textEmitted, List.length_drop] at hpos
    have hlast : run.textOffset i < run.textOffset (i + 1) := Nat.lt_of_sub_pos hpos
    apply toNat_add_ofNat
    omega
  · intro i j hij hj
    apply Nat.add_le_add_left
    exact run.textOffset_le hij (Nat.le_of_lt (run.program_length ▸ hj))

theorem data_ordered (hspace : InAddressSpace ctx) :
    ((List.range run.program.length).flatMap run.dataEntries).Pairwise
      fun e e' => e.address.toNat ≤ e'.address.toNat := by
  have hfits := run.final_fits hspace
  refine @entries_ordered _ (fun i => final.baseAddress.toNat +
    (final.textSection.length + run.dataOffset i)) _ ?_ ?_
  · intro i hi
    have hend : run.dataOffset (i + 1) ≤ final.dataSection.length := run.dataOffset_end hi
    refine ⟨run.program[i], _, run.dataBytes i, by rw [dataEntries, run.program_get hi],
      fun hne => ?_⟩
    have hpos := List.length_pos_iff.mpr hne
    rw [run.dataBytes_length hi] at hpos
    rw [BitVec.add_assoc, ← BitVec.ofNat_add]
    apply toNat_add_ofNat
    omega
  · intro i j hij hj
    apply Nat.add_le_add_left
    apply Nat.add_le_add_left
    exact run.dataOffset_le hij (Nat.le_of_lt hj)

theorem listingAgrees_run (hl : ctx.emitListing = true) (hspace : InAddressSpace ctx) :
    run.ListingAgrees ↔ run.FixupsVanish := by
  have hentry : run.entry.emitListing = true := run.setup.emitListing.trans hl
  have hfinal := run.final_listing hentry
  have hiff : (∀ e ∈ final.listingEntries, e.bytes.length ≤ 16 ∧
      e.bytes = slice (final.textSection ++ final.dataSection)
        (e.address - final.baseAddress).toNat e.bytes.length) ↔ run.FixupsVanish := by
    rw [hfinal]
    constructor
    · intro h i hi
      rw [← run.listed_bytes_iff hi, ← run.text_shows hi]
      intro e he
      exact h e (List.mem_append_left _ (List.mem_flatMap.mpr ⟨i, List.mem_range.mpr hi, he⟩))
    · intro h e he
      rcases List.mem_append.mp he with he | he
      · obtain ⟨i, hi, he⟩ := List.mem_flatMap.mp he
        have hi := List.mem_range.mp hi
        exact (run.text_shows hi).mpr ((run.listed_bytes_iff hi).mpr (h i hi)) e he
      · obtain ⟨i, hi, he⟩ := List.mem_flatMap.mp he
        exact run.data_shows hspace (List.mem_range.mp hi) e he
  constructor
  · intro h
    exact hiff.mp h.bytes
  · intro h
    refine ⟨hfinal, ?_, hiff.mpr h⟩
    rintro entries (rfl | rfl)
    · exact run.text_ordered hspace
    · exact run.data_ordered hspace

end AssemblyRun

/-- The listing agrees with the output exactly when every fixup of the last text pass stores
zero into the bytes that a listing entry shows: `resolve_fixups` does not go back to it. -/
theorem listingAgrees_iff {insts : List ParsedInstruction} {ctx final : AssemblerContext}
    (hl : ctx.emitListing = true) (hspace : InAddressSpace ctx)
    (h : asmAssemble insts ctx = (some (), final)) :
    Nonempty (AssemblyRun insts ctx final) ∧
      ∀ run : AssemblyRun insts ctx final, run.ListingAgrees ↔ run.FixupsVanish :=
  ⟨assemblyRun_of_success h, fun run => run.listingAgrees_run hl hspace⟩

def listingContext : AssemblerContext := { emptyContext with emitListing := true }

def callOver : List ParsedInstruction :=
  [{ type := .call, operands := [.label (CString.lit _ "f")]
     originalLine := CString.lit _ "call f" },
   { type := .int, operands := [.imm 3], lineNumber := 2, originalLine := CString.lit _ "int 3" },
   { type := .ret, label := some (CString.lit _ "f"), lineNumber := 3
     originalLine := CString.lit _ "f: ret" }]

theorem listingAgrees_iff_callOver :
    Nonempty (AssemblyRun callOver listingContext (asmAssemble callOver listingContext).2) ∧
      ∀ run : AssemblyRun callOver listingContext (asmAssemble callOver listingContext).2,
        run.ListingAgrees ↔ run.FixupsVanish :=
  listingAgrees_iff rfl (by unfold InAddressSpace; decide)
    (asmAssemble_success (by decide +kernel))

/-- The listing shows `E8 00 00 00 00` where the output has `E8 02 00 00 00`. -/
theorem listingAgrees_callOver :
    parseSource 40 (CString.str "call f\nint 3\nf: ret") = some (some callOver) ∧
      ∃ final, asmAssemble callOver listingContext = (some (), final) ∧
        ∀ run : AssemblyRun callOver listingContext final, ¬ run.ListingAgrees := by
  refine ⟨by decide +kernel, _, asmAssemble_success (by decide +kernel), ?_⟩
  intro run hagrees
  have hshown : ¬ ∀ e ∈ (asmAssemble callOver listingContext).2.listingEntries, e.bytes =
      slice ((asmAssemble callOver listingContext).2.textSection ++
          (asmAssemble callOver listingContext).2.dataSection)
        (e.address - (asmAssemble callOver listingContext).2.baseAddress).toNat
          e.bytes.length := by
    decide +kernel
  exact hshown fun e he => (hagrees.bytes e he).2

end X86Assembler
