import X86Assembler.Dispatch
import X86Assembler.SymbolView

namespace X86Assembler

open CString (Byte)
open Fallible (ignore each)

structure Output where
  text : List Byte
  data : List Byte
  fixups : List Fixup
  address : Word
  sect : SectionId

/-- The part of the context that no pass changes while it runs. -/
structure Settings where
  textCapacity : Word
  dataCapacity : Word
  baseAddress : Word
  enableForwardShortBranches : Bool
  files : Text → Option (List Byte)
  emitListing : Bool

def AssemblerContext.output (ctx : AssemblerContext) : Output where
  text := ctx.textSection
  data := ctx.dataSection
  fixups := ctx.fixups
  address := ctx.currentAddress
  sect := ctx.currentSection

def AssemblerContext.settings (ctx : AssemblerContext) : Settings where
  textCapacity := ctx.textCapacity
  dataCapacity := ctx.dataCapacity
  baseAddress := ctx.baseAddress
  enableForwardShortBranches := ctx.enableForwardShortBranches
  files := ctx.files
  emitListing := ctx.emitListing

def Output.push (o : Output) (bs : List Byte) (fs : List Fixup) : Output where
  text := match o.sect with
    | .text => o.text ++ bs
    | .data => o.text
  data := match o.sect with
    | .text => o.data
    | .data => o.data ++ bs
  fixups := o.fixups ++ fs
  address := o.address + BitVec.ofNat 64 bs.length
  sect := o.sect

@[simp] theorem Output.push_nil (o : Output) : o.push [] [] = o := by
  cases o with
  | mk text data fixups address sect => cases sect <;> simp [Output.push]

@[simp] theorem Output.push_push (o : Output) (as bs : List Byte) (fs gs : List Fixup) :
    (o.push as fs).push bs gs = o.push (as ++ bs) (fs ++ gs) := by
  cases o with
  | mk text data fixups address sect =>
      cases sect <;> simp [Output.push, BitVec.ofNat_add, BitVec.add_assoc]

def isOverflowReport (d : Diagnostic) : Bool :=
  d == overflowReport .text || d == overflowReport .data

def AssemblerContext.overflows (ctx : AssemblerContext) : Nat :=
  ctx.stderr.countP isOverflowReport

/-- New symbols may appear, those that exist stay as they are. -/
structure TableGrows (ctx ctx' : AssemblerContext) : Prop where
  consistent : Consistent ctx → Consistent ctx'
  kept : Consistent ctx → ∀ name v, ctx.view name = some v → ctx'.view name = some v
  length_le : ctx.symbols.length ≤ ctx'.symbols.length

theorem TableGrows.of_eq {ctx ctx' : AssemblerContext} (hs : ctx'.symbols = ctx.symbols)
    (hh : ctx'.symbolHash = ctx.symbolHash) : TableGrows ctx ctx' where
  consistent := fun h => h.congr hs hh
  kept := fun _ name v hv => by rw [view_congr hs, hv]
  length_le := by rw [hs]

theorem TableGrows.trans {a b c : AssemblerContext} (hab : TableGrows a b)
    (hbc : TableGrows b c) : TableGrows a c where
  consistent := fun h => hbc.consistent (hab.consistent h)
  kept := fun h name v hv => hbc.kept (hab.consistent h) name v (hab.kept h name v hv)
  length_le := Nat.le_trans hab.length_le hbc.length_le

/-- The bytes that the current section still has room for. -/
def AssemblerContext.room (ctx : AssemblerContext) : Nat := ctx.capacity - ctx.buffer.length

theorem TableGrows.keeps {a b : AssemblerContext} (h : TableGrows a b) : TableKeeps a b where
  consistent := h.consistent
  known := fun hc name hn => by
    obtain ⟨v, hv⟩ := Option.isSome_iff_exists.mp hn
    rw [h.kept hc name v hv]
    rfl
  length_le := h.length_le

/-- From `ctx` to `ctx'` the bytes `bs` and the fixups `fs` have been emitted, and `lost`
bytes found no room. -/
structure Emits (ctx ctx' : AssemblerContext) (bs : List Byte) (fs : List Fixup) (lost : Nat) :
    Prop where
  output : ctx'.output = ctx.output.push bs fs
  settings : ctx'.settings = ctx.settings
  table : TableGrows ctx ctx'
  overflows : ctx'.overflows = ctx.overflows + lost
  fits : bs.length ≤ ctx.room

theorem buffer_of_output {ctx ctx' : AssemblerContext} {bs : List Byte} {fs : List Fixup}
    (h : ctx'.output = ctx.output.push bs fs) : ctx'.buffer = ctx.buffer ++ bs := by
  have hs : ctx'.currentSection = ctx.currentSection := congrArg Output.sect h
  have ht := congrArg Output.text h
  have hd := congrArg Output.data h
  simp only [Output.push, AssemblerContext.output] at ht hd
  simp only [AssemblerContext.buffer, hs]
  cases hc : ctx.currentSection with
  | text => rw [hc] at ht; exact ht
  | data => rw [hc] at hd; exact hd

theorem capacity_of_settings {ctx ctx' : AssemblerContext} (h : ctx'.settings = ctx.settings)
    (hs : ctx'.currentSection = ctx.currentSection) : ctx'.capacity = ctx.capacity := by
  simp only [AssemblerContext.capacity, hs]
  split
  · exact congrArg (fun s => s.textCapacity.toNat) h
  · exact congrArg (fun s => s.dataCapacity.toNat) h

theorem Emits.refl (ctx : AssemblerContext) : Emits ctx ctx [] [] 0 where
  output := (Output.push_nil _).symm
  settings := rfl
  table := .of_eq rfl rfl
  overflows := rfl
  fits := Nat.zero_le _

theorem Emits.sect {ctx ctx' : AssemblerContext} {bs : List Byte} {fs : List Fixup} {lost : Nat}
    (h : Emits ctx ctx' bs fs lost) : ctx'.currentSection = ctx.currentSection :=
  congrArg Output.sect h.output

theorem Emits.buffer {ctx ctx' : AssemblerContext} {bs : List Byte} {fs : List Fixup} {lost : Nat}
    (h : Emits ctx ctx' bs fs lost) : ctx'.buffer = ctx.buffer ++ bs :=
  buffer_of_output h.output

theorem Emits.capacity {ctx ctx' : AssemblerContext} {bs : List Byte} {fs : List Fixup}
    {lost : Nat} (h : Emits ctx ctx' bs fs lost) : ctx'.capacity = ctx.capacity :=
  capacity_of_settings h.settings h.sect

theorem Emits.room {ctx ctx' : AssemblerContext} {bs : List Byte} {fs : List Fixup}
    {lost : Nat} (h : Emits ctx ctx' bs fs lost) : ctx'.room = ctx.room - bs.length := by
  rw [AssemblerContext.room, AssemblerContext.room, h.buffer, h.capacity, List.length_append]
  omega

theorem Emits.trans {a b c : AssemblerContext} {bs cs : List Byte} {fs gs : List Fixup}
    {k l : Nat} (hab : Emits a b bs fs k) (hbc : Emits b c cs gs l) :
    Emits a c (bs ++ cs) (fs ++ gs) (k + l) where
  output := by rw [hbc.output, hab.output, Output.push_push]
  settings := hbc.settings.trans hab.settings
  table := hab.table.trans hbc.table
  overflows := by rw [hbc.overflows, hab.overflows, Nat.add_assoc]
  fits := by
    have hb := hbc.fits
    have ha := hab.fits
    rw [hab.room] at hb
    rw [List.length_append]
    omega

theorem Emits.then {a b c : AssemblerContext} {bs : List Byte} {fs : List Fixup} {k : Nat}
    (hab : Emits a b [] [] 0) (hbc : Emits b c bs fs k) : Emits a c bs fs k := by
  simpa using hab.trans hbc

theorem Emits.and_then {a b c : AssemblerContext} {bs : List Byte} {fs : List Fixup} {k : Nat}
    (hab : Emits a b bs fs k) (hbc : Emits b c [] [] 0) : Emits a c bs fs k := by
  simpa using hab.trans hbc

theorem Emits.of_output {ctx ctx' : AssemblerContext} (ho : ctx'.output = ctx.output)
    (hs : ctx'.settings = ctx.settings) (ht : TableGrows ctx ctx')
    (hv : ctx'.overflows = ctx.overflows) : Emits ctx ctx' [] [] 0 where
  output := by rw [ho, Output.push_nil]
  settings := hs
  table := ht
  overflows := hv
  fits := Nat.zero_le _

section Fields

variable {ctx ctx' : AssemblerContext} {bs : List Byte} {fs : List Fixup} {lost : Nat}

theorem Emits.address (h : Emits ctx ctx' bs fs lost) :
    ctx'.currentAddress = ctx.currentAddress + BitVec.ofNat 64 bs.length :=
  congrArg Output.address h.output

theorem Emits.fixups (h : Emits ctx ctx' bs fs lost) : ctx'.fixups = ctx.fixups ++ fs :=
  congrArg Output.fixups h.output

theorem Emits.text_of_text (h : Emits ctx ctx' bs fs lost) (hs : ctx.currentSection = .text) :
    ctx'.textSection = ctx.textSection ++ bs := by
  have htext := congrArg Output.text h.output
  simp only [Output.push, AssemblerContext.output, hs] at htext
  exact htext

theorem Emits.text_of_data (h : Emits ctx ctx' bs fs lost) (hs : ctx.currentSection = .data) :
    ctx'.textSection = ctx.textSection := by
  have htext := congrArg Output.text h.output
  simp only [Output.push, AssemblerContext.output, hs] at htext
  exact htext

theorem Emits.data_of_data (h : Emits ctx ctx' bs fs lost) (hs : ctx.currentSection = .data) :
    ctx'.dataSection = ctx.dataSection ++ bs := by
  have hdata := congrArg Output.data h.output
  simp only [Output.push, AssemblerContext.output, hs] at hdata
  exact hdata

theorem Emits.data_of_text (h : Emits ctx ctx' bs fs lost) (hs : ctx.currentSection = .text) :
    ctx'.dataSection = ctx.dataSection := by
  have hdata := congrArg Output.data h.output
  simp only [Output.push, AssemblerContext.output, hs] at hdata
  exact hdata

end Fields

theorem listingEmitByte_output (ctx : AssemblerContext) (b : Byte) :
    (ctx.listingEmitByte b).output = ctx.output ∧
      (ctx.listingEmitByte b).settings = ctx.settings ∧
      (ctx.listingEmitByte b).symbols = ctx.symbols ∧
      (ctx.listingEmitByte b).symbolHash = ctx.symbolHash ∧
      (ctx.listingEmitByte b).stderr = ctx.stderr := by
  rw [AssemblerContext.listingEmitByte]
  split
  · split
    · exact ⟨rfl, rfl, rfl, rfl, rfl⟩
    · exact ⟨rfl, rfl, rfl, rfl, rfl⟩
  · exact ⟨rfl, rfl, rfl, rfl, rfl⟩

theorem emitByte_emits {ctx : AssemblerContext} (b : Byte)
    (h : ctx.buffer.length < ctx.capacity) :
    ∃ ctx', emitByte b ctx = (some (), ctx') ∧ Emits ctx ctx' [b] [] 0 ∧
      ctx'.symbolHash = ctx.symbolHash := by
  obtain ⟨ho, hs, hsym, hhash, herr⟩ := listingEmitByte_output (ctx.pushByte b) b
  refine ⟨_, if_pos h, ⟨?_, ?_, ?_, ?_, ?_⟩, ?_⟩
  · rw [ho]
    simp only [AssemblerContext.pushByte, Output.push, AssemblerContext.output]
    cases ctx.currentSection <;> simp
  · rw [hs, AssemblerContext.pushByte]
    split <;> rfl
  · refine .of_eq (hsym.trans ?_) (hhash.trans ?_)
    · rw [AssemblerContext.pushByte]
      split <;> rfl
    · rw [AssemblerContext.pushByte]
      split <;> rfl
  · rw [AssemblerContext.overflows, herr, AssemblerContext.pushByte]
    split <;> rfl
  · exact Nat.sub_pos_of_lt h
  · rw [hhash, AssemblerContext.pushByte]
    split <;> rfl

theorem emitByte_full {ctx : AssemblerContext} (b : Byte)
    (h : ¬ ctx.buffer.length < ctx.capacity) :
    emitByte b ctx = (none, ctx.report (overflowReport ctx.currentSection)) ∧
      Emits ctx (ctx.report (overflowReport ctx.currentSection)) [] [] 1 := by
  refine ⟨if_neg h, ⟨(Output.push_nil _).symm, rfl, .of_eq rfl rfl, ?_, Nat.zero_le _⟩⟩
  simp only [AssemblerContext.overflows, AssemblerContext.report, List.countP_append]
  cases ctx.currentSection <;> rfl

theorem emitUnchecked_emits (bs : List Byte) (ctx : AssemblerContext) :
    ∃ ctx', emitUnchecked bs ctx = (some (), ctx') ∧
      Emits ctx ctx' (bs.take ctx.room) [] (bs.length - ctx.room) := by
  induction bs generalizing ctx with
  | nil => exact ⟨ctx, rfl, by simpa using Emits.refl ctx⟩
  | cons b bs ih =>
      by_cases h : ctx.buffer.length < ctx.capacity
      · obtain ⟨ctx₁, h₁, he₁, -⟩ := emitByte_emits b h
        obtain ⟨ctx₂, h₂, he₂⟩ := ih ctx₁
        refine ⟨ctx₂, ?_, ?_⟩
        · rw [emitUnchecked, Fallible.bind_of_some (s := ctx) (t := ctx₁) (a := ())]
          · exact h₂
          · rw [Fallible.ignore_run, h₁]
        · have hroom : ctx.room = ctx₁.room + 1 := by
            have hpos : 0 < ctx.room := Nat.sub_pos_of_lt h
            rw [he₁.room, List.length_singleton]
            omega
          have ht := he₁.trans he₂
          rw [hroom, List.take_succ_cons, List.length_cons, Nat.add_sub_add_right]
          simpa using ht
      · obtain ⟨hfull, he₁⟩ := emitByte_full b h
        obtain ⟨ctx₂, h₂, he₂⟩ := ih (ctx.report (overflowReport ctx.currentSection))
        refine ⟨ctx₂, ?_, ?_⟩
        · rw [emitUnchecked, Fallible.bind_of_some (s := ctx)
            (t := ctx.report (overflowReport ctx.currentSection)) (a := ())]
          · exact h₂
          · rw [Fallible.ignore_run, hfull]
        · have hroom : ctx.room = 0 := by
            rw [AssemblerContext.room]
            omega
          have hroom₁ : (ctx.report (overflowReport ctx.currentSection)).room = 0 := hroom
          have ht := he₁.trans he₂
          rw [hroom₁] at ht
          rw [hroom, List.length_cons]
          simpa [Nat.add_comm] using ht

theorem reportError_ne_some {α : Type} {d : Diagnostic} {a : α} {ctx ctx' : AssemblerContext} :
    (reportError d : Asm α) ctx ≠ (some a, ctx') := by
  intro h
  obtain ⟨_, _, -, hf⟩ := Fallible.bind_eq_some.mp h
  cases hf

theorem listingStart_emits (ctx : AssemblerContext) (line : Nat) (source : Text) :
    Emits ctx (ctx.listingStartInstruction line source) [] [] 0 := by
  rw [AssemblerContext.listingStartInstruction]
  split
  · exact .of_output rfl rfl (.of_eq rfl rfl) rfl
  · exact .refl ctx

theorem listingEnd_emits (ctx : AssemblerContext) :
    Emits ctx ctx.listingEndInstruction [] [] 0 := by
  rw [AssemblerContext.listingEndInstruction]
  split
  · split
    · exact .of_output rfl rfl (.of_eq rfl rfl) rfl
    · exact .refl ctx
  · exact .refl ctx

/-- The fixups among the calls of an encoder that starts at an address. -/
def fixupsOf (address : Word) : List Emission → List Fixup
  | [] => []
  | .byte _ :: es => fixupsOf (address + 1) es
  | .fixup label size type rip :: es => ⟨label, address, size, type, rip⟩ :: fixupsOf address es

@[simp] theorem bytesOf_nil : bytesOf [] = [] := rfl

@[simp] theorem bytesOf_byte (b : Byte) (es : List Emission) :
    bytesOf (.byte b :: es) = b :: bytesOf es := rfl

@[simp] theorem bytesOf_fixup (label : Label) (size : Nat) (type : InstType) (rip : Bool)
    (es : List Emission) : bytesOf (.fixup label size type rip :: es) = bytesOf es := rfl

@[simp] theorem bytesOf_append (es fs : List Emission) :
    bytesOf (es ++ fs) = bytesOf es ++ bytesOf fs := List.filterMap_append

@[simp] theorem bytesOf_map_byte (bs : List Byte) : bytesOf (bs.map .byte) = bs := by
  induction bs with
  | nil => rfl
  | cons b bs ih => rw [List.map_cons, bytesOf_byte, ih]

theorem fixupsOf_append (address : Word) (es fs : List Emission) :
    fixupsOf address (es ++ fs) =
      fixupsOf address es ++ fixupsOf (address + BitVec.ofNat 64 (bytesOf es).length) fs := by
  induction es generalizing address with
  | nil => simp [fixupsOf]
  | cons e es ih =>
      cases e with
      | byte b =>
          simp only [List.cons_append, fixupsOf, ih, bytesOf_byte, List.length_cons,
            Nat.add_comm _ 1, BitVec.ofNat_add, BitVec.add_assoc]
          rfl
      | fixup label size type rip =>
          simp only [List.cons_append, fixupsOf, ih, bytesOf_fixup]

@[simp] theorem fixupsOf_map_byte (address : Word) (bs : List Byte) :
    fixupsOf address (bs.map .byte) = [] := by
  induction bs generalizing address with
  | nil => rfl
  | cons b bs ih => rw [List.map_cons, fixupsOf, ih]

theorem perform_emits {e : Emission} {ctx ctx' : AssemblerContext}
    (h : e.perform ctx = (some (), ctx')) :
    Emits ctx ctx' (bytesOf [e]) (fixupsOf ctx.currentAddress [e]) 0 ∧
      ctx'.symbolHash = ctx.symbolHash := by
  cases e with
  | byte b =>
      by_cases hroom : ctx.buffer.length < ctx.capacity
      · obtain ⟨ctx₁, h₁, he, hhash⟩ := emitByte_emits b hroom
        have heq : ctx₁ = ctx' := by
          have := h₁.symm.trans h
          cases this
          rfl
        subst heq
        exact ⟨he, hhash⟩
      · have hfull := (emitByte_full b hroom).1
        rw [show Emission.perform (.byte b) = emitByte b from rfl, hfull] at h
        cases h
  | fixup label size type rip =>
      rw [Emission.perform, addFixup] at h
      split at h
      · cases h
      · cases h
        refine ⟨⟨?_, rfl, .of_eq rfl rfl, rfl, Nat.zero_le _⟩, rfl⟩
        simp only [AssemblerContext.output, Output.push, bytesOf_fixup, bytesOf_nil]
        cases ctx.currentSection <;> simp [fixupsOf]

theorem performs_emit {es : List Emission} {ctx ctx' : AssemblerContext}
    (h : each Emission.perform es ctx = (some (), ctx')) :
    Emits ctx ctx' (bytesOf es) (fixupsOf ctx.currentAddress es) 0 ∧
      ctx'.symbolHash = ctx.symbolHash := by
  induction es generalizing ctx with
  | nil =>
      obtain ⟨-, rfl⟩ := Fallible.pure_eq_some.mp h
      exact ⟨.refl ctx, rfl⟩
  | cons e es ih =>
      obtain ⟨_, ctx₁, he, h⟩ := Fallible.bind_eq_some.mp h
      obtain ⟨hem, hhash⟩ := perform_emits he
      obtain ⟨hes, hhash'⟩ := ih h
      refine ⟨?_, hhash'.trans hhash⟩
      have ht := hem.trans hes
      rw [hem.address, ← fixupsOf_append, ← bytesOf_append] at ht
      exact ht

theorem encodeEnv_after {ctx ctx' : AssemblerContext} {es : List Emission} {fs : List Fixup}
    {lost : Nat} (h : Emits ctx ctx' (bytesOf es) fs lost)
    (hhash : ctx'.symbolHash = ctx.symbolHash) :
    ctx'.encodeEnv = ctx.encodeEnv.after es := by
  have hforward := congrArg Settings.enableForwardShortBranches h.settings
  simp only [AssemblerContext.encodeEnv, EncodeEnv.after, h.address]
  simp only [AssemblerContext.settings] at hforward
  rw [hforward]
  congr 1
  funext name
  rw [getSymbolInfo, getSymbolInfo, symbolHashLookup, symbolHashLookup, hhash]

theorem run_eq_some {m : Encoder Unit} {ctx ctx' : AssemblerContext}
    (h : Encoder.run m ctx = (some (), ctx')) :
    ∃ es, m ctx.encodeEnv = (es, .ok ()) ∧
      Emits ctx ctx' (bytesOf es) (fixupsOf ctx.currentAddress es) 0 ∧
      ctx'.symbolHash = ctx.symbolHash := by
  cases hm : m ctx.encodeEnv with
  | mk es r =>
      rw [Encoder.run, Fallible.bind_run, Fallible.get_run] at h
      simp only [hm] at h
      obtain ⟨_, ctx₁, hes, h⟩ := Fallible.bind_eq_some.mp h
      obtain ⟨hem, hhash⟩ := performs_emit hes
      cases r with
      | error d => exact absurd h reportError_ne_some
      | ok a =>
          obtain ⟨-, rfl⟩ := Fallible.pure_eq_some.mp h
          exact ⟨es, rfl, hem, hhash⟩

theorem encoder_bind {α β : Type} {m : Encoder α} {f : α → Encoder β} {env : EncodeEnv}
    {es : List Emission} {a : α} (hm : m env = (es, .ok a)) :
    (m >>= f) env = (es ++ (f a (env.after es)).1, (f a (env.after es)).2) := by
  simp only [bind, hm]

/-- The segment override and the machine instruction after it. -/
def Encoder.statement (encode : ParsedInstruction → Encoder Unit) (inst : ParsedInstruction) :
    Encoder Unit := segmentPrefix inst >>= fun _ => encode inst

theorem encodeInstruction_machine {inst : ParsedInstruction}
    {encode : ParsedInstruction → Encoder Unit} {ctx ctx' : AssemblerContext}
    (hm : Encoder.machineEncoder inst.type = some encode)
    (h : encodeInstruction inst ctx = (some (), ctx')) :
    ∃ es, Encoder.statement encode inst ctx.encodeEnv = (es, .ok ()) ∧
      Emits ctx ctx' (bytesOf es) (fixupsOf ctx.currentAddress es) 0 := by
  obtain ⟨_, ctx₁, hp, h⟩ := Fallible.bind_eq_some.mp h
  rw [hm] at h
  obtain ⟨ps, hps, hpe, hph⟩ := run_eq_some hp
  obtain ⟨es, hes, hee, -⟩ := run_eq_some h
  refine ⟨ps ++ es, ?_, ?_⟩
  · rw [encodeEnv_after hpe hph] at hes
    rw [Encoder.statement, encoder_bind hps, hes]
  · have ht := hpe.trans hee
    rwa [hpe.address, ← fixupsOf_append, ← bytesOf_append] at ht

theorem modifyFirst_length {ε : Type} (p : ε → Bool) (f : ε → ε) (l : List ε) :
    (HashChain.modifyFirst p f l).length = l.length := by
  induction l with
  | nil => rfl
  | cons e l ih =>
      rw [HashChain.modifyFirst]
      split
      · rfl
      · rw [List.length_cons, List.length_cons, ih]

theorem addSymbol_emits (name : Label) (address : Word) (isGlobal isExternal : Bool)
    (sect : Option SectionId) (ctx : AssemblerContext) :
    Emits ctx (addSymbol name address isGlobal isExternal sect ctx).2 [] [] 0 := by
  have hrest : (addSymbol name address isGlobal isExternal sect ctx).2.output = ctx.output ∧
      (addSymbol name address isGlobal isExternal sect ctx).2.settings = ctx.settings ∧
      (addSymbol name address isGlobal isExternal sect ctx).2.overflows = ctx.overflows ∧
      ctx.symbols.length ≤
        (addSymbol name address isGlobal isExternal sect ctx).2.symbols.length := by
    have hquiet : ∀ d, isOverflowReport d = false → (ctx.report d).overflows = ctx.overflows := by
      intro d hd
      simp [AssemblerContext.overflows, AssemblerContext.report, List.countP_append, hd]
    rw [addSymbol]
    split
    · exact ⟨rfl, rfl, hquiet _ rfl, Nat.le_refl _⟩
    split
    · split
      · exact ⟨rfl, rfl, hquiet _ rfl, Nat.le_refl _⟩
      · exact ⟨rfl, rfl, rfl, Nat.le_of_eq (modifyFirst_length _ _ _).symm⟩
    · refine ⟨rfl, rfl, rfl, ?_⟩
      simp [symbolHashInsert]
  obtain ⟨ho, hs, hv, hl⟩ := hrest
  refine .of_output ho hs ⟨fun h => ?_, fun h other v hv => ?_, hl⟩ hv
  · exact consistent_addSymbol ctx name address isGlobal isExternal sect h
  · rw [addSymbol_view ctx name address isGlobal isExternal sect h, if_neg]
    · exact hv
    · rintro ⟨rfl, hnone, -⟩
      rw [hv] at hnone
      cases hnone

/-- The bytes that `align`, `incbin` and the common directives ask for; `none` when they are
refused. -/
def alignBytes (ctx : AssemblerContext) : List Operand → Option (List Byte)
  | .imm v :: _ =>
    if isPowerOfTwo (v.setWidth 32) then
      some (List.replicate
        (alignPadding ctx.currentAddress ((v.setWidth 32 : BitVec 32).signExtend 64))
        (fillByte ctx.currentSection))
    else none
  | _ => none

def incbinBytes (ctx : AssemblerContext) : List Operand → Option (List Byte)
  | .string filename :: _ => ctx.files filename
  | _ => none

def commBytes (ctx : AssemblerContext) : List Operand → Option (List Byte)
  | .label _ :: .imm size :: rest =>
    if size.toInt ≤ 0 then none
    else
      some (List.replicate (commPadding ctx.currentAddress (commAlignment rest)) 0 ++
        List.replicate size.toInt.toNat 0)
  | _ => none

def directiveBytes (ctx : AssemblerContext) (inst : ParsedInstruction) : Option (List Byte) :=
  match directiveKind inst.type with
  | some .data => some (inst.operands.flatMap (dataItemBytes inst.type))
  | some .reserve => some (List.replicate (reserveSize inst) 0)
  | some .silent => some []
  | some .align => alignBytes ctx inst.operands
  | some .incbin => incbinBytes ctx inst.operands
  | some .comm => commBytes ctx inst.operands
  | _ => none

/-- The effect of a directive: what fits of its bytes is emitted and the rest is lost. -/
def Requests (ctx ctx' : AssemblerContext) (bs : List Byte) : Prop :=
  Emits ctx ctx' (bs.take ctx.room) [] (bs.length - ctx.room)

theorem requests_emitUnchecked {bs : List Byte} {ctx ctx' : AssemblerContext}
    (h : emitUnchecked bs ctx = (some (), ctx')) : Requests ctx ctx' bs := by
  obtain ⟨ctx₁, h₁, he⟩ := emitUnchecked_emits bs ctx
  rw [h] at h₁
  cases h₁
  exact he

theorem Requests.trans {a b c : AssemblerContext} {bs cs : List Byte} (hab : Requests a b bs)
    (hbc : Requests b c cs) : Requests a c (bs ++ cs) := by
  have h := Emits.trans hab hbc
  have hroom : b.room = a.room - bs.length := by
    rw [hab.room, List.length_take]
    omega
  rw [hroom, ← List.take_append] at h
  have hlost : (bs ++ cs).length - a.room =
      bs.length - a.room + (cs.length - (a.room - bs.length)) := by
    rw [List.length_append]
    omega
  rw [Requests, hlost]
  exact h

theorem Emits.requests {a b : AssemblerContext} (h : Emits a b [] [] 0) : Requests a b [] := by
  simpa [Requests] using h

theorem encodeAlign_requests {inst : ParsedInstruction} {ctx ctx' : AssemblerContext}
    (h : encodeAlign inst ctx = (some (), ctx')) :
    ∃ bs, alignBytes ctx inst.operands = some bs ∧ Requests ctx ctx' bs := by
  rw [encodeAlign] at h
  split at h
  · rename_i v rest hops
    simp only at h
    split at h
    · rename_i hpow
      exact ⟨_, by rw [hops, alignBytes, if_pos hpow], requests_emitUnchecked h⟩
    · cases h
  · cases h

theorem encodeIncbin_requests {inst : ParsedInstruction} {ctx ctx' : AssemblerContext}
    (h : encodeIncbin inst ctx = (some (), ctx')) :
    ∃ bs, incbinBytes ctx inst.operands = some bs ∧ Requests ctx ctx' bs := by
  rw [encodeIncbin] at h
  split at h
  · rename_i filename rest hops
    split at h
    · rename_i content hfile
      exact ⟨content, by rw [hops, incbinBytes, hfile], requests_emitUnchecked h⟩
    · cases h
  · cases h

theorem encodeComm_requests {inst : ParsedInstruction} {ctx ctx' : AssemblerContext}
    (h : encodeComm inst ctx = (some (), ctx')) :
    ∃ bs, commBytes ctx inst.operands = some bs ∧ Requests ctx ctx' bs := by
  rw [encodeComm] at h
  split at h
  · rename_i symbol size rest hops
    split at h
    · cases h
    · rename_i hsize
      obtain ⟨_, ctx₁, hpad, h⟩ := Fallible.bind_eq_some.mp h
      obtain ⟨_, ctx₂, hadd, h⟩ := Fallible.bind_eq_some.mp h
      have hsym : Emits ctx₁ ctx₂ [] [] 0 := by
        rw [Fallible.ignore_run] at hadd
        cases hadd
        exact addSymbol_emits _ _ _ _ _ _
      refine ⟨_, by rw [hops, commBytes, if_neg hsize], ?_⟩
      simpa only [List.append_nil] using
        ((requests_emitUnchecked hpad).trans hsym.requests).trans (requests_emitUnchecked h)
  · cases h

theorem encodeDirective_requests {inst : ParsedInstruction} {ctx ctx' : AssemblerContext}
    (hs : directiveKind inst.type ≠ some .sectionChange)
    (h : encodeDirective inst ctx = (some (), ctx')) :
    ∃ bs, directiveBytes ctx inst = some bs ∧ Requests ctx ctx' bs := by
  rw [encodeDirective] at h
  rw [directiveBytes]
  cases hk : directiveKind inst.type with
  | none =>
      rw [hk] at h
      exact absurd h reportError_ne_some
  | some kind =>
      rw [hk] at h
      cases kind with
      | data => exact ⟨_, rfl, requests_emitUnchecked h⟩
      | reserve => exact ⟨_, rfl, requests_emitUnchecked h⟩
      | silent =>
          obtain ⟨-, rfl⟩ := Fallible.pure_eq_some.mp h
          exact ⟨_, rfl, (Emits.refl ctx).requests⟩
      | sectionChange => exact absurd hk hs
      | align => exact encodeAlign_requests h
      | incbin => exact encodeIncbin_requests h
      | comm => exact encodeComm_requests h

/-- The segment override bytes that `encode_instruction` puts in front of every statement,
directives included. -/
def segmentBytes (inst : ParsedInstruction) : List Byte :=
  match segmentOverride inst.operands with
  | some .fs => [0x64]
  | some .gs => [0x65]
  | _ => []

theorem segmentPrefix_bytes {inst : ParsedInstruction} {env : EncodeEnv} {es : List Emission}
    (h : Encoder.segmentPrefix inst env = (es, .ok ())) : es = (segmentBytes inst).map .byte := by
  rw [Encoder.segmentPrefix] at h
  rw [segmentBytes]
  cases hseg : segmentOverride inst.operands with
  | none =>
      rw [hseg] at h
      cases h
  | some seg =>
      rw [hseg] at h
      cases seg with
      | default => cases h; rfl
      | fs => cases h; rfl
      | gs => cases h; rfl

theorem encodeInstruction_directive {inst : ParsedInstruction} {ctx ctx' : AssemblerContext}
    (hm : Encoder.machineEncoder inst.type = none)
    (hs : directiveKind inst.type ≠ some .sectionChange)
    (h : encodeInstruction inst ctx = (some (), ctx')) :
    ∃ ctx₁ bs, Emits ctx ctx₁ (segmentBytes inst) [] 0 ∧ directiveBytes ctx₁ inst = some bs ∧
      Requests ctx₁ ctx' bs := by
  obtain ⟨_, ctx₁, hp, h⟩ := Fallible.bind_eq_some.mp h
  rw [hm] at h
  obtain ⟨ps, hps, hpe, -⟩ := run_eq_some hp
  rw [segmentPrefix_bytes hps, bytesOf_map_byte, fixupsOf_map_byte] at hpe
  obtain ⟨bs, hbs, hr⟩ := encodeDirective_requests hs h
  exact ⟨ctx₁, bs, hpe, hbs, hr⟩

end X86Assembler
