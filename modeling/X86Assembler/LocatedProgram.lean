import X86Assembler.BranchTargets
import X86Assembler.Relocation

namespace X86Assembler

open CString (Byte)
open Encoder (immediateBytes ignoresOperands memReference isPlainOperand machineEncoder)
open LittleEndian (leBytes)

/-- A machine instruction whose labels, if any, stand in its memory operands. -/
structure PlainStatement (inst : ParsedInstruction) : Prop where
  encoded : isLabelOnly inst = false
  segment : segmentOverride inst.operands = some .default
  names : NoLabelOperand inst

namespace AssemblyRun

variable {insts : List ParsedInstruction} {ctx final : AssemblerContext}
  (run : AssemblyRun insts ctx final)

/-- The address that the number of a reference is counted from. -/
def origin (i : Nat) (rip : Bool) : Word := if rip then run.endAddress i else 0

/-- The numbers of the references to labels: with each, the processor computes the final address
of the label, plus the number written next to it. -/
def placement (i : Nat) : Placement := fun name rip v =>
  ((findSymbolAddress final name).getD 0 + v.signExtend 64 - run.origin i rip).setWidth 32

/-- The numbers as they are stored: the origin of a RIP-relative one lies in front of the
immediate. -/
def storedPlacement (i : Nat) (inst : ParsedInstruction) : Placement := fun name rip v =>
  ((findSymbolAddress final name).getD 0 + v.signExtend 64 - run.origin i rip +
    if rip then BitVec.ofNat 64 (immediateBytes inst) else 0).setWidth 32

/-- The labels of RIP-relative operands have no immediate behind them. -/
def RipAtEnd (inst : ParsedInstruction) : Prop :=
  ∀ m, .mem m ∈ inst.operands → memReference m = some true → immediateBytes inst = 0

theorem located_stored {i : Nat} {inst : ParsedInstruction} (h : RipAtEnd inst) :
    inst.located (run.storedPlacement i inst) = inst.located (run.placement i) := by
  rw [ParsedInstruction.located, ParsedInstruction.located]
  congr 1
  apply List.map_congr_left
  intro op hop
  cases op with
  | mem m =>
      rw [located_mem, located_mem, MemOperand.located, MemOperand.located]
      cases href : memReference m with
      | none => rfl
      | some rip =>
          cases rip with
          | false => simp [storedPlacement, placement]
          | true => simp [storedPlacement, placement, h m hop href]
  | none | imm _ | reg _ _ | label _ | labelDiff _ _ | string _ => rfl

section

variable {i : Nat} {b : ParsedInstruction} (hb : InText run.program i b)
  {encode : ParsedInstruction → Encoder Unit} (hm : machineEncoder b.type = some encode)
  (hplain : PlainStatement b)

include hb hm hplain

theorem text_plain : ∃ env es, encode b env = (es, .ok ()) ∧ run.Encodes i b env es := by
  obtain ⟨a, es, -, -, hes, henc⟩ := run.text_emission hb hm hplain.encoded
  rw [statement_branch hplain.segment] at hes
  exact ⟨_, es, hes, henc⟩

/-- The bytes of a statement are those of the instruction with numbers for its labels, and each
number leads to its label. -/
theorem text_located : ∃ env es,
    encode (b.located (run.storedPlacement i b)) env = (es, .ok ()) ∧
      run.textBytes i = bytesOf es ∧
      (ignoresOperands b.type = false → ∀ m rip, .mem m ∈ b.operands → memReference m = some rip →
        ∃ target, findSymbolAddress final m.label = some target ∧
          (run.storedPlacement i b m.label rip m.displacement).signExtend 64 + run.origin i rip =
            target + m.displacement.signExtend 64 +
              if rip then BitVec.ofNat 64 (immediateBytes b) else 0) := by
  obtain ⟨env, es, hes, henc⟩ := run.text_plain hb hm hplain
  obtain ⟨es', hes', hrel⟩ :=
    (@relocates_machineEncoder (run.storedPlacement i b) b encode hm).run _ _ _ hes
  obtain ⟨cs, rfl⟩ := located_bytes hm hplain.names hes'
  refine ⟨env, _, hes', ?_⟩
  rcases henc.encoded with ⟨bs, hops⟩ | ⟨pre, post, m, rip, hop, href, hothers, himm⟩ |
    ⟨pre, name, r, size, hops⟩ | ⟨name, rel, -, hops, -⟩ | ⟨name, -, hops⟩
  · refine ⟨?_, fun hreads m rip hmem href => ?_⟩
    · rw [hrel.of_bytes]
      exact henc.textBytes_plain (fixupsOf_map_byte _ _)
    · rcases hops _ hmem with hplain | hignored
      · rw [isPlainOperand, href] at hplain
        cases hplain
      · simp [Encoder.ignoresOperand, hreads, Encoder.isMemOperand] at hignored
  · have hbytes : bytesOf (pre.map .byte ++ .fixup m.label 4 .mov rip ::
        (leBytes 4 m.displacement ++ post).map .byte) = pre ++ leBytes 4 m.displacement ++ post := by
      rw [bytesOf_append, bytesOf_map_byte, bytesOf_fixup, bytesOf_map_byte, List.append_assoc]
    have hfs : fixupsOf (final.baseAddress + BitVec.ofNat 64 (run.textOffset i)) (pre.map .byte ++
        .fixup m.label 4 .mov rip :: (leBytes 4 m.displacement ++ post).map .byte) =
          [⟨m.label, final.baseAddress + BitVec.ofNat 64 (run.textOffset i) +
            BitVec.ofNat 64 pre.length, 4, .mov, rip⟩] := by
      rw [fixupsOf_append, fixupsOf_map_byte, bytesOf_map_byte, fixupsOf, fixupsOf_map_byte]
      rfl
    obtain ⟨target, htarget, hfits, htext⟩ := henc.textBytes_fixup hbytes hfs
    have hvalue : Fixup.value ⟨m.label, final.baseAddress + BitVec.ofNat 64 (run.textOffset i) +
        BitVec.ofNat 64 pre.length, 4, .mov, rip⟩ target + m.displacement.signExtend 64 =
          target + m.displacement.signExtend 64 - run.origin i rip +
            if rip then BitVec.ofNat 64 (immediateBytes b) else 0 := by
      have hend : run.endAddress i = final.baseAddress + BitVec.ofNat 64 (run.textOffset i) +
          BitVec.ofNat 64 pre.length + BitVec.ofNat 64 4 + BitVec.ofNat 64 (immediateBytes b) := by
        rw [endAddress, henc.offset_succ, hbytes, List.length_append, List.length_append,
          LittleEndian.leBytes_length, himm]
        simp only [BitVec.ofNat_add]
        ring
      cases rip with
      | true =>
          simp only [Fixup.value, Bool.true_or, if_true, origin, hend]
          ring
      | false =>
          simp only [Fixup.value, origin, isControlflow, Bool.or_self, Bool.false_eq_true, if_false]
          ring
    have hstored : run.storedPlacement i b m.label rip m.displacement =
        (Fixup.value ⟨m.label, final.baseAddress + BitVec.ofNat 64 (run.textOffset i) +
          BitVec.ofNat 64 pre.length, 4, .mov, rip⟩ target + m.displacement.signExtend 64).setWidth 32 := by
      rw [hvalue, storedPlacement, htarget]
      rfl
    refine ⟨?_, fun hreads m' rip' hmem href' => ?_⟩
    · rw [hrel.of_field, bytesOf_map_byte, htext, hstored,
        LittleEndian.leBytes_setWidth _ (by decide : 8 * 4 ≤ 32)]
    · rcases hothers _ hmem with heq | hplain
      · cases heq
        cases href.symm.trans href'
        simp only [fitsFixup, Bool.and_eq_true, decide_eq_true_eq] at hfits
        have hsign := @LittleEndian.signExtend_setWidth 31 _ (by decide) hfits.1
          (Int.lt_of_le_of_lt hfits.2 (by decide))
        refine ⟨target, htarget, ?_⟩
        rw [hstored, hsign, hvalue]
        ring
      · rw [isPlainOperand, href'] at hplain
        cases hplain
  · exact absurd (by rw [hops]; exact List.mem_cons_of_mem _ List.mem_cons_self) (hplain.names name)
  · exact absurd (by rw [hops]; exact List.mem_cons_self) (hplain.names name)
  · exact absurd (by rw [hops]; exact List.mem_cons_self) (hplain.names name)

end

end AssemblyRun

end X86Assembler
