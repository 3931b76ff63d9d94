import X86Assembler.DecoderSafety

namespace X86Assembler

open CString (Byte)
open CheckedRead

/-- Ranges of a positive length, each given by its start and its length, that follow each other
from one position to another. -/
inductive Tiles : Nat → Nat → List (Nat × Nat) → Prop
  | nil (i : Nat) : Tiles i i []
  | cons {i n stop : Nat} {ranges : List (Nat × Nat)} (pos : 0 < n)
      (rest : Tiles (i + n) stop ranges) : Tiles i stop ((i, n) :: ranges)

theorem Tiles.le {start stop : Nat} {ranges : List (Nat × Nat)} (h : Tiles start stop ranges) :
    start ≤ stop := by
  induction h with
  | nil i => exact Nat.le_refl i
  | cons pos rest ih => omega

theorem Tiles.bounds {start stop : Nat} {ranges : List (Nat × Nat)} (h : Tiles start stop ranges) :
    ∀ r ∈ ranges, start ≤ r.1 ∧ r.1 + r.2 ≤ stop := by
  induction h with
  | nil i => exact List.forall_mem_nil _
  | cons pos rest ih =>
      intro r hr
      rcases List.mem_cons.mp hr with rfl | hr
      · exact ⟨Nat.le_refl _, rest.le⟩
      · have hbound := ih r hr
        exact ⟨by omega, hbound.2⟩

theorem Tiles.existsUnique {start stop : Nat} {ranges : List (Nat × Nat)}
    (h : Tiles start stop ranges) {k : Nat} (hlo : start ≤ k) (hhi : k < stop) :
    ∃! r, r ∈ ranges ∧ r.1 ≤ k ∧ k < r.1 + r.2 := by
  induction h with
  | nil i => omega
  | @cons i n stop ranges pos rest ih =>
      by_cases hk : k < i + n
      · refine ⟨(i, n), ⟨List.mem_cons_self, hlo, hk⟩, ?_⟩
        rintro r ⟨hr, hrlo, -⟩
        rcases List.mem_cons.mp hr with rfl | hr
        · rfl
        · have hbound := rest.bounds r hr
          omega
      · obtain ⟨r, ⟨hr, hrk⟩, huniq⟩ := ih (by omega) hhi
        refine ⟨r, ⟨List.mem_cons_of_mem _ hr, hrk⟩, ?_⟩
        rintro r' ⟨hr', hrk'⟩
        rcases List.mem_cons.mp hr' with rfl | hr'
        · exact absurd hrk'.2 hk
        · exact huniq r' ⟨hr', hrk'⟩

variable {code : List Byte} {base : Word}

theorem decodeOne_consumed {start : Nat} {d : Decoded} (h : decodeOne code base start = .ok d) :
    1 ≤ d.consumed ∧ d.consumed ≤ code.length - start := by
  by_cases hs : start < code.length
  · cases hn : instructionLength code start with
    | none =>
        rcases decodeOne_unknown base hs hn with he | ⟨text, ht⟩
        · rw [he] at h
          cases h
        · rw [ht] at h
          cases h
          exact ⟨Nat.le_refl 1, by show 1 ≤ _; omega⟩
    | some n =>
        obtain ⟨m, hm, rfl⟩ := Option.map_eq_some_iff.mp hn
        have hpos := bodyLength_pos hm
        obtain ⟨hok, hover, herr⟩ := decodeOne_known base hs hn
        by_cases hfit : start + (prefixCount (code.drop start) + m) ≤ code.length
        · by_cases hroom : prefixCount (code.drop start) + m ≤ disMaxInstBytes
          · obtain ⟨text, ht⟩ := hok hfit hroom
            rw [ht] at h
            cases h
            exact ⟨Nat.le_trans hpos (Nat.le_add_left _ _), Nat.le_sub_of_add_le' hfit⟩
          · rw [hover hfit (Nat.lt_of_not_le hroom)] at h
            cases h
        · rw [herr (Nat.lt_of_not_le hfit)] at h
          cases h
  · rw [decodeOne_of_length_le base (Nat.le_of_not_lt hs)] at h
    cases h

/-- How far a round of the loop moves: one byte where `decode_one` fails. -/
def stepSize (code : List Byte) (base : Word) (offset : Nat) : Nat :=
  match decodeOne code base offset with
  | .ok d => d.consumed
  | _ => 1

theorem stepSize_pos (offset : Nat) : 0 < stepSize code base offset := by
  rw [stepSize]
  split
  · next d h => exact (decodeOne_consumed h).1
  · exact Nat.one_pos

theorem stepSize_le {offset : Nat} (h : offset < code.length) :
    offset + stepSize code base offset ≤ code.length := by
  rw [stepSize]
  split
  · next d hd =>
      have hle := (decodeOne_consumed hd).2
      omega
  · omega

/-- A line of the listing for the range that a round visits. -/
structure Printed (code : List Byte) (base : Word) (line : DisLine) (range : Nat × Nat) : Prop where
  address : line.address = base + BitVec.ofNat 64 range.1
  size : range.2 = stepSize code base range.1

/-- How far the sweep is meant to move: over the known form that lies whole at the offset, over one
byte elsewhere. -/
def sweepStep (code : List Byte) (offset : Nat) : Nat :=
  match instructionLength code offset with
  | some n => if offset + n ≤ code.length then n else 1
  | none => 1

inductive Visited (code : List Byte) : Nat → Prop
  | start : Visited code 0
  | next {offset : Nat} (visited : Visited code offset) (lt : offset < code.length) :
      Visited code (offset + sweepStep code offset)

theorem fitsRecord_of_length_le {offset : Nat} (h : code.length ≤ offset) : FitsRecord code offset := by
  intro n hn
  rw [instructionLength, List.drop_eq_nil_of_le h] at hn
  cases hn

theorem stepSize_eq {offset : Nat} (hlt : offset < code.length) (h : FitsRecord code offset) :
    stepSize code base offset = sweepStep code offset := by
  rw [stepSize, sweepStep]
  cases hn : instructionLength code offset with
  | none =>
      rcases decodeOne_unknown base hlt hn with he | ⟨text, ht⟩
      · rw [he]
      · rw [ht]
  | some n =>
      obtain ⟨hok, -, herr⟩ := decodeOne_known base hlt hn
      by_cases hfit : offset + n ≤ code.length
      · obtain ⟨text, ht⟩ := hok hfit (h n hn hfit)
        rw [ht]
        exact (if_pos hfit).symm
      · rw [herr (Nat.lt_of_not_le hfit)]
        exact (if_neg hfit).symm

/-- A round of the loop whose instruction fits prints a line and goes on behind its range. -/
theorem disassembleLoop_round {offset : Nat} (h : offset < code.length)
    (hfits : FitsRecord code offset) :
    ∃ line, Printed code base line (offset, stepSize code base offset) ∧
      ∀ rounds, disassembleLoop code base (rounds + 1) offset =
        disassembleLoop code base rounds (offset + stepSize code base offset) >>=
          fun r => .ok (r.1, line :: r.2) := by
  have hdata : ∃ line, dataLine code base offset = .ok line ∧
      line.address = base + BitVec.ofNat 64 offset := by
    rw [dataLine, fetch_of_lt h, ok_bind]
    exact ⟨_, rfl, rfl⟩
  obtain ⟨line, hline, haddress⟩ := hdata
  obtain ⟨hfault, hover, hbound⟩ := (decodeSafe_iff base h).mpr hfits
  cases hd : decodeOne code base offset with
  | fault => exact absurd hd hfault
  | overrun => exact absurd hd hover
  | error =>
      have hsize : stepSize code base offset = 1 := by rw [stepSize, hd]
      refine ⟨line, ⟨haddress, rfl⟩, fun rounds => ?_⟩
      rw [disassembleLoop, if_pos h, hd, hsize]
      simp only [hline, ok_bind]
      rfl
  | ok d =>
      have hpos : d.consumed ≠ 0 := Nat.ne_of_gt (decodeOne_consumed hd).1
      have hsize : stepSize code base offset = d.consumed := by rw [stepSize, hd]
      have hroom : 0 + 3 * d.bytes.length ≤ 3 * disMaxInstBytes := by
        have hlen := hbound d hd
        omega
      obtain ⟨bytes, hbytes⟩ := formatBytes_isSome hroom
      refine ⟨⟨base + BitVec.ofNat 64 offset, bytes, d.text⟩, ⟨rfl, rfl⟩, fun rounds => ?_⟩
      rw [disassembleLoop, if_pos h, hd, hsize]
      simp only [if_neg hpos, hbytes]
      rfl

theorem fitsRecord_of_round {rounds offset : Nat} {r : Bool × List DisLine}
    (hlt : offset < code.length) (h : disassembleLoop code base (rounds + 1) offset = .ok r) :
    FitsRecord code offset := by
  intro n hn hfit
  by_contra hroom
  have hover := (decodeOne_known base hlt hn).2.1 hfit (Nat.lt_of_not_le hroom)
  rw [disassembleLoop, if_pos hlt, hover] at h
  cases h

theorem disassembleLoop_end {offset : Nat} (h : ¬ offset < code.length) (rounds : Nat) :
    disassembleLoop code base rounds offset = .ok (true, []) := by
  cases rounds with
  | zero => rfl
  | succ rounds =>
      rw [disassembleLoop, if_neg h]
      rfl

/-- The loop returns, and more rounds than there are bytes left do not change its result. -/
theorem disassembleLoop_returns {rounds offset : Nat}
    (hfits : ∀ offset, Visited code offset → FitsRecord code offset) (hvisited : Visited code offset)
    (h : code.length - offset ≤ rounds) :
    ∃ r, ∀ more, disassembleLoop code base (rounds + more) offset = .ok r := by
  induction rounds generalizing offset with
  | zero => exact ⟨_, fun more => disassembleLoop_end (by omega) _⟩
  | succ rounds ih =>
      by_cases hlt : offset < code.length
      · have hpos := @stepSize_pos code base offset
        have hhere := hfits offset hvisited
        have hnext : Visited code (offset + stepSize code base offset) :=
          stepSize_eq hlt hhere ▸ hvisited.next hlt
        obtain ⟨r, hr⟩ := ih hnext (by omega)
        obtain ⟨line, -, hgo⟩ := @disassembleLoop_round code base offset hlt hhere
        refine ⟨(r.1, line :: r.2), fun more => ?_⟩
        rw [Nat.add_right_comm, hgo, hr, ok_bind]
      · exact ⟨_, fun more => disassembleLoop_end hlt _⟩

/-- When the loop returns 0, its lines are those of ranges that tile the rest of the buffer. -/
theorem disassembleLoop_tiles {rounds offset : Nat} {lines : List DisLine}
    (hle : offset ≤ code.length) (hrounds : code.length - offset ≤ rounds)
    (h : disassembleLoop code base rounds offset = .ok (true, lines)) :
    ∃ ranges, Tiles offset code.length ranges ∧ List.Forall₂ (Printed code base) lines ranges := by
  induction rounds generalizing offset lines with
  | zero =>
      have hend : offset = code.length := by omega
      cases h
      exact ⟨[], hend ▸ .nil _, .nil⟩
  | succ rounds ih =>
      by_cases hlt : offset < code.length
      · have hpos := @stepSize_pos code base offset
        have hfit := @stepSize_le code base offset hlt
        obtain ⟨line, hline, hgo⟩ := disassembleLoop_round hlt (fitsRecord_of_round hlt h)
        rw [hgo] at h
        obtain ⟨⟨done, rest⟩, hrest, hr⟩ := bind_eq_ok.mp h
        cases hr
        obtain ⟨ranges, htiles, hprinted⟩ := ih hfit (by omega) hrest
        exact ⟨_, .cons hpos htiles, .cons hline hprinted⟩
      · rw [disassembleLoop_end hlt] at h
        cases h
        have hend : offset = code.length := by omega
        exact ⟨[], hend ▸ .nil _, .nil⟩

theorem Visited.returns {offset : Nat} (hvisited : Visited code offset) {r : Bool × List DisLine}
    (h : disassembleCodeBuffer code base = .ok r) :
    ∃ rounds r, code.length - offset ≤ rounds ∧ disassembleLoop code base rounds offset = .ok r := by
  induction hvisited with
  | start => exact ⟨code.length, r, Nat.sub_le _ _, h⟩
  | @next offset _ hlt ih =>
      obtain ⟨rounds, r', hrounds, hr⟩ := ih
      cases rounds with
      | zero => omega
      | succ rounds =>
          have hfits := fitsRecord_of_round hlt hr
          obtain ⟨line, -, hgo⟩ := @disassembleLoop_round code base offset hlt hfits
          have hpos := @stepSize_pos code base offset
          rw [hgo] at hr
          obtain ⟨r'', hr'', -⟩ := bind_eq_ok.mp hr
          rw [← @stepSize_eq code base offset hlt hfits]
          exact ⟨rounds, r'', by omega, hr''⟩

/-- Whatever is decoded is a part of the buffer, the loop ends, and a listing that is complete has
one line for each range of a tiling, under its address. -/
def SweepTiles (code : List Byte) (base : Word) : Prop :=
  (∀ start d, decodeOne code base start = .ok d →
    1 ≤ d.consumed ∧ d.consumed ≤ code.length - start) ∧
  (∃ r, ∀ more, disassembleLoop code base (code.length + more) 0 = .ok r) ∧
  ∀ lines, disassembleCodeBuffer code base = .ok (true, lines) →
    ∃ ranges, Tiles 0 code.length ranges ∧ List.Forall₂ (Printed code base) lines ranges ∧
      ∀ k < code.length, ∃! r, r ∈ ranges ∧ r.1 ≤ k ∧ k < r.1 + r.2

/-- The sweep tiles its buffer exactly when every instruction that it comes to has at most fifteen
bytes. -/
theorem sweepTiles_iff (code : List Byte) (base : Word) :
    SweepTiles code base ↔ ∀ offset, Visited code offset → FitsRecord code offset := by
  constructor
  · rintro ⟨-, ⟨r, hr⟩, -⟩ offset hvisited
    by_cases hlt : offset < code.length
    · obtain ⟨rounds, r', hrounds, hr'⟩ := hvisited.returns (hr 0)
      cases rounds with
      | zero => omega
      | succ rounds => exact fitsRecord_of_round hlt hr'
    · exact fitsRecord_of_length_le (Nat.le_of_not_lt hlt)
  · intro hfits
    refine ⟨fun start d h => decodeOne_consumed h, ?_, ?_⟩
    · exact disassembleLoop_returns hfits .start (Nat.sub_le _ _)
    · intro lines h
      obtain ⟨ranges, htiles, hprinted⟩ := disassembleLoop_tiles (Nat.zero_le _) (Nat.le_refl _) h
      exact ⟨ranges, htiles, hprinted, fun k hk => htiles.existsUnique (Nat.zero_le k) hk⟩

/-- Four hundred operand-size prefixes in front of a `nop`: the copy runs over the whole record
and the frame around it. -/
theorem sweepTiles_prefixes : ¬SweepTiles (List.replicate 400 0x66#8 ++ [0x90#8]) 0 := by
  rintro ⟨-, ⟨r, hr⟩, -⟩
  have hlisting :
      disassembleCodeBuffer (List.replicate 400 0x66#8 ++ [0x90#8]) 0 = .overrun := by
    decide +kernel
  cases hlisting.symm.trans (hr 0)

end X86Assembler
