import X86Assembler.EncoderShapes
import X86Assembler.Fixups

namespace X86Assembler

open CString (Byte)
open Fallible (each)
open LittleEndian (leBytes ofLeBytes slice patch)

def Fixup.offset (base : Word) (f : Fixup) : Nat := (f.location - base).toNat

/-- The fixups of a piece of the text section lie in it, one behind the other. -/
structure Spaced (base : Word) (lo : Nat) (fs : List Fixup) (hi : Nat) : Prop where
  le : lo ≤ hi
  sized : ∀ f ∈ fs, f.size = 4
  from_lo : ∀ f ∈ fs, lo ≤ f.offset base
  to_hi : ∀ f ∈ fs, f.offset base + 4 ≤ hi
  apart : fs.Pairwise fun f g => f.offset base + 4 ≤ g.offset base

theorem Spaced.nil {base : Word} {lo hi : Nat} (h : lo ≤ hi) : Spaced base lo [] hi :=
  ⟨h, List.forall_mem_nil _, List.forall_mem_nil _, List.forall_mem_nil _, .nil⟩

theorem Spaced.append {base : Word} {lo mid hi : Nat} {fs gs : List Fixup}
    (hf : Spaced base lo fs mid) (hg : Spaced base mid gs hi) :
    Spaced base lo (fs ++ gs) hi where
  le := Nat.le_trans hf.le hg.le
  sized := fun f h => (List.mem_append.mp h).elim (hf.sized f) (hg.sized f)
  from_lo := fun f h => (List.mem_append.mp h).elim (hf.from_lo f)
    fun h => Nat.le_trans hf.le (hg.from_lo f h)
  to_hi := fun f h => (List.mem_append.mp h).elim
    (fun h => Nat.le_trans (hf.to_hi f h) hg.le) (hg.to_hi f)
  apart := List.pairwise_append.mpr ⟨hf.apart, hg.apart,
    fun f h g h' => Nat.le_trans (hf.to_hi f h) (hg.from_lo g h')⟩

theorem offset_eq {base : Word} {f : Fixup} {n : Nat} (hn : n < 2 ^ 64)
    (h : f.location = base + BitVec.ofNat 64 n) : f.offset base = n := by
  rw [Fixup.offset, h, BitVec.add_comm, BitVec.add_sub_cancel, BitVec.toNat_ofNat,
    Nat.mod_eq_of_lt hn]

theorem Encoder.EncodedAs.fixups {inst : ParsedInstruction} {env : EncodeEnv}
    {es : List Emission} (h : EncodedAs inst env es) (address : Word) :
    fixupsOf address es = [] ∨ ∃ (pre post : List Byte) (label : Label) (v : BitVec 32)
      (type : InstType) (rip : Bool), bytesOf es = pre ++ leBytes 4 v ++ post ∧
        fixupsOf address es = [⟨label, address + BitVec.ofNat 64 pre.length, 4, type, rip⟩] := by
  have hone : ∀ (pre post : List Byte) (label : Label) (v : BitVec 32) (type : InstType)
      (rip : Bool),
      bytesOf (pre.map .byte ++ .fixup label 4 type rip :: (leBytes 4 v ++ post).map .byte) =
        pre ++ leBytes 4 v ++ post ∧
      fixupsOf address (pre.map .byte ++ .fixup label 4 type rip ::
        (leBytes 4 v ++ post).map .byte) =
        [⟨label, address + BitVec.ofNat 64 pre.length, 4, type, rip⟩] := by
    intro pre post label v type rip
    rw [bytesOf_append, fixupsOf_append, bytesOf_map_byte, fixupsOf_map_byte, bytesOf_fixup,
      bytesOf_map_byte, fixupsOf, fixupsOf_map_byte, List.append_assoc]
    exact ⟨rfl, rfl⟩
  rcases h with ⟨bs, -⟩ | ⟨pre, post, m, rip, -, -, -, -⟩ | ⟨pre, name, r, size, -⟩ |
    ⟨name, rel, -, -, -⟩ | ⟨name, -, -⟩
  · exact .inl (fixupsOf_map_byte _ _)
  · exact .inr ⟨pre, post, _, _, _, _, hone pre post _ _ _ _⟩
  · have h := hone pre [] name 0 .mov true
    rw [List.append_nil] at h
    exact .inr ⟨pre, [], _, _, _, _, h⟩
  · exact .inl (fixupsOf_map_byte _ _)
  · have h := hone (nearOpcode inst.type) [] name 0 inst.type false
    rw [List.append_nil] at h
    exact .inr ⟨nearOpcode inst.type, [], _, _, _, _, h⟩

theorem spaced_encoded {inst : ParsedInstruction} {env : EncodeEnv} {es : List Emission}
    (h : Encoder.EncodedAs inst env es) {base : Word} {n : Nat}
    (hn : n + (bytesOf es).length < 2 ^ 64) :
    Spaced base n (fixupsOf (base + BitVec.ofNat 64 n) es) (n + (bytesOf es).length) := by
  rcases h.fixups (base + BitVec.ofNat 64 n) with hnil | ⟨pre, post, label, v, type, rip, hb, hf⟩
  · rw [hnil]
    exact .nil (Nat.le_add_right _ _)
  · have hlen : (bytesOf es).length = pre.length + 4 + post.length := by
      rw [hb, List.length_append, List.length_append, LittleEndian.leBytes_length]
    have hoff : Fixup.offset base ⟨label, base + BitVec.ofNat 64 n + BitVec.ofNat 64 pre.length, 4,
        type, rip⟩ = n + pre.length :=
      offset_eq (by omega) (by rw [BitVec.ofNat_add, BitVec.add_assoc])
    rw [hf]
    refine ⟨Nat.le_add_right _ _, ?_, ?_, ?_, List.pairwise_singleton _ _⟩
    · rintro f hf
      rw [List.mem_singleton.mp hf]
    · rintro f hf
      rw [List.mem_singleton.mp hf, hoff]
      omega
    · rintro f hf
      rw [List.mem_singleton.mp hf, hoff]
      omega

/-- The value that resolving a fixup stores, over the text section it finds. -/
def Fixup.stored (f : Fixup) (base target : Word) (text : List Byte) : Word :=
  f.value target + (ofLeBytes 32 (slice text (f.offset base) 4)).signExtend 64

theorem Fixup.stored_congr {f : Fixup} {base target : Word} {text text' : List Byte}
    (h : slice text (f.offset base) 4 = slice text' (f.offset base) 4) :
    f.stored base target text = f.stored base target text' := by
  rw [Fixup.stored, Fixup.stored, h]

theorem resolveFixup_eq_some {f : Fixup} {ctx ctx' : AssemblerContext} (hsize : f.size = 4)
    (h : resolveFixup f ctx = (some (), ctx')) :
    ∃ target, findSymbolAddress ctx f.label = some target ∧
      fitsFixup (f.stored ctx.baseAddress target ctx.textSection) 4 = true ∧
      ctx' = { ctx with
        textSection := patch ctx.textSection (f.offset ctx.baseAddress)
          (leBytes 4 (f.stored ctx.baseAddress target ctx.textSection)) } := by
  rw [resolveFixup] at h
  cases htarget : findSymbolAddress ctx f.label with
  | none =>
      rw [htarget] at h
      cases h
  | some target =>
      rw [htarget, hsize] at h
      simp only at h
      split at h
      · cases h
      · split at h
        · rename_i hfits
          cases h
          exact ⟨target, rfl, hfits, rfl⟩
        · cases h

structure Resolves (fs : List Fixup) (ctx ctx' : AssemblerContext) : Prop where
  same : ctx' = { ctx with textSection := ctx'.textSection }
  length : ctx'.textSection.length = ctx.textSection.length
  stored : ∀ f ∈ fs, ∃ target, findSymbolAddress ctx f.label = some target ∧
    fitsFixup (f.stored ctx.baseAddress target ctx.textSection) 4 = true ∧
    slice ctx'.textSection (f.offset ctx.baseAddress) 4 =
      leBytes 4 (f.stored ctx.baseAddress target ctx.textSection)
  untouched : ∀ i n, (∀ f ∈ fs, i + n ≤ f.offset ctx.baseAddress ∨
    f.offset ctx.baseAddress + 4 ≤ i) →
      slice ctx'.textSection i n = slice ctx.textSection i n

section Fields

variable {fs : List Fixup} {ctx ctx' : AssemblerContext} (h : Resolves fs ctx ctx')

include h

theorem Resolves.baseAddress : ctx'.baseAddress = ctx.baseAddress := by
  rw [h.same]

theorem Resolves.symbols : ctx'.symbols = ctx.symbols := by
  rw [h.same]

theorem Resolves.symbolHash : ctx'.symbolHash = ctx.symbolHash := by
  rw [h.same]

theorem Resolves.dataSection : ctx'.dataSection = ctx.dataSection := by
  rw [h.same]

theorem Resolves.findSymbolAddress (name : Label) :
    findSymbolAddress ctx' name = findSymbolAddress ctx name := by
  rw [h.same]
  rfl

end Fields

theorem resolves {fs : List Fixup} {ctx ctx' : AssemblerContext} {lo : Nat}
    (hs : Spaced ctx.baseAddress lo fs ctx.textSection.length)
    (h : each resolveFixup fs ctx = (some (), ctx')) : Resolves fs ctx ctx' := by
  induction fs generalizing ctx with
  | nil =>
      obtain ⟨-, rfl⟩ := Fallible.pure_eq_some.mp h
      exact ⟨rfl, rfl, List.forall_mem_nil _, fun _ _ _ => rfl⟩
  | cons f fs ih =>
      obtain ⟨_, ctx₁, hone, hrest⟩ := Fallible.bind_eq_some.mp h
      have hmem : f ∈ f :: fs := List.mem_cons_self
      obtain ⟨target, htarget, hfits, rfl⟩ :=
        resolveFixup_eq_some (hs.sized f hmem) hone
      have hbytes : f.offset ctx.baseAddress +
          (leBytes 4 (f.stored ctx.baseAddress target ctx.textSection)).length ≤
            ctx.textSection.length := by
        rw [LittleEndian.leBytes_length]
        exact hs.to_hi f hmem
      have hlen := LittleEndian.patch_length hbytes
      have hapart := List.pairwise_cons.mp hs.apart
      have hs' : Spaced ctx.baseAddress lo fs
          (patch ctx.textSection (f.offset ctx.baseAddress)
            (leBytes 4 (f.stored ctx.baseAddress target ctx.textSection))).length := by
        rw [hlen]
        exact ⟨hs.le, fun g hg => hs.sized g (List.mem_cons_of_mem _ hg),
          fun g hg => hs.from_lo g (List.mem_cons_of_mem _ hg),
          fun g hg => hs.to_hi g (List.mem_cons_of_mem _ hg), hapart.2⟩
      have hr := ih hs' hrest
      refine ⟨hr.same, hr.length.trans hlen, fun g hg => ?_, fun i n hdisjoint => ?_⟩
      · rcases List.mem_cons.mp hg with rfl | hg
        · refine ⟨target, htarget, hfits, ?_⟩
          rw [hr.untouched _ 4 fun g' hg' => .inl (hapart.1 g' hg')]
          have hsame := LittleEndian.slice_patch_same hbytes
          rwa [LittleEndian.leBytes_length] at hsame
        · obtain ⟨target', htarget', hfits', hslice⟩ := hr.stored g hg
          have hread : g.stored ctx.baseAddress target'
              (patch ctx.textSection (f.offset ctx.baseAddress)
                (leBytes 4 (f.stored ctx.baseAddress target ctx.textSection))) =
              g.stored ctx.baseAddress target' ctx.textSection := by
            refine Fixup.stored_congr (LittleEndian.slice_patch_disjoint hbytes ?_)
            rw [LittleEndian.leBytes_length]
            exact .inr (hapart.1 g hg)
          simp only [hread] at hfits' hslice
          exact ⟨target', htarget', hfits', hslice⟩
      · rw [hr.untouched i n fun g hg => hdisjoint g (List.mem_cons_of_mem _ hg),
          LittleEndian.slice_patch_disjoint hbytes]
        rw [LittleEndian.leBytes_length]
        exact hdisjoint f hmem

end X86Assembler
