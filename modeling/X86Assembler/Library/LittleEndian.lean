import Mathlib.Data.Nat.ModEq
import X86Assembler.Library.CString

namespace X86Assembler.LittleEndian

open CString (Byte)

variable {w u : Nat}

/-- The low `n` bytes of a word, least significant first. -/
def leBytes : Nat → BitVec w → List Byte
  | 0, _ => []
  | n + 1, v => v.setWidth 8 :: leBytes n (v >>> 8)

def ofLeBytes (w : Nat) : List Byte → BitVec w
  | [] => 0
  | b :: bs => b.setWidth w ||| (ofLeBytes w bs <<< 8)

@[simp] theorem leBytes_length (n : Nat) (v : BitVec w) : (leBytes n v).length = n := by
  induction n generalizing v with
  | zero => rfl
  | succ n ih => simp [leBytes, ih]

theorem getLsbD_ofLeBytes (n : Nat) (v : BitVec w) (i : Nat) :
    (ofLeBytes w (leBytes n v)).getLsbD i = (decide (i < 8 * n) && v.getLsbD i) := by
  induction n generalizing v i with
  | zero => simp [leBytes, ofLeBytes]
  | succ n ih =>
      simp only [leBytes, ofLeBytes, BitVec.getLsbD_or, BitVec.getLsbD_setWidth,
        BitVec.getLsbD_shiftLeft, ih, BitVec.getLsbD_ushiftRight]
      by_cases hi : i < 8
      · have hw : v.getLsbD i = true → i < w := fun h => BitVec.lt_of_getLsbD h
        cases hv : v.getLsbD i <;> simp_all
        omega
      · have h8 : 8 + (i - 8) = i := by omega
        have hn : (i - 8 < 8 * n) = (i < 8 * (n + 1)) := by
          apply propext; omega
        cases hv : v.getLsbD i
        · simp [h8, hv]
        · have hw : i < w := BitVec.lt_of_getLsbD hv
          simp [h8, hv, hn, hi, hw]

theorem ofLeBytes_leBytes {n : Nat} (h : w ≤ 8 * n) (v : BitVec w) :
    ofLeBytes w (leBytes n v) = v := by
  apply BitVec.eq_of_getLsbD_eq
  intro i hi
  rw [getLsbD_ofLeBytes]
  simp [show i < 8 * n by omega]

theorem leBytes_congr {w u : Nat} {n : Nat} {v : BitVec w} {v' : BitVec u}
    (h : ∀ i < 8 * n, v.getLsbD i = v'.getLsbD i) : leBytes n v = leBytes n v' := by
  induction n generalizing v v' with
  | zero => rfl
  | succ n ih =>
      have hhead : v.setWidth 8 = v'.setWidth 8 := by
        apply BitVec.eq_of_getLsbD_eq
        intro i hi
        simp only [BitVec.getLsbD_setWidth, h i (by omega)]
      rw [leBytes, leBytes, hhead, ih]
      intro i hi
      simp only [BitVec.getLsbD_ushiftRight]
      exact h (8 + i) (by omega)

theorem leBytes_setWidth {w u n : Nat} (v : BitVec w) (h : 8 * n ≤ u) :
    leBytes n (v.setWidth u) = leBytes n v := by
  apply leBytes_congr
  intro i hi
  rw [BitVec.getLsbD_setWidth, decide_eq_true (by omega), Bool.true_and]

theorem signExtend_setWidth {n : Nat} {v : BitVec 64} (hn : n + 1 ≤ 64) (hlo : -2 ^ n ≤ v.toInt)
    (hhi : v.toInt < 2 ^ n) : (v.setWidth (n + 1)).signExtend 64 = v := by
  have hmod : Int.bmod v.toNat (2 ^ (n + 1)) = Int.bmod v.toInt (2 ^ (n + 1)) := by
    rw [BitVec.toInt_eq_toNat_bmod, Int.bmod_bmod_of_dvd]
    exact Nat.pow_dvd_pow 2 hn
  apply BitVec.eq_of_toInt_eq
  rw [BitVec.toInt_signExtend_of_le hn, BitVec.toInt_setWidth, hmod]
  have hpow : ((2 ^ (n + 1) : Nat) : Int) = 2 * 2 ^ n := by
    rw [Int.natCast_pow, Int.pow_succ]
    exact Int.mul_comm _ _
  apply Int.bmod_eq_of_le <;> omega

theorem signExtend_ofLeBytes {v : BitVec 64} (hlo : -2147483648 ≤ v.toInt) (hhi : v.toInt ≤ 2147483647) :
    (ofLeBytes 32 (leBytes 4 v)).signExtend 64 = v := by
  rw [← leBytes_setWidth v (by decide : 8 * 4 ≤ 32), ofLeBytes_leBytes (by decide)]
  exact @signExtend_setWidth 31 v (by decide) (by omega) (by omega)

/-- `n` bytes of a buffer from an offset on. -/
def slice (bs : List Byte) (off n : Nat) : List Byte := (bs.drop off).take n

def patch (bs : List Byte) (off : Nat) (new : List Byte) : List Byte :=
  bs.take off ++ new ++ bs.drop (off + new.length)

theorem patch_length {bs new : List Byte} {off : Nat} (h : off + new.length ≤ bs.length) :
    (patch bs off new).length = bs.length := by
  simp only [patch, List.length_append, List.length_take, List.length_drop]
  omega

theorem patch_append (as bs cs new : List Byte) (h : new.length = bs.length) :
    patch (as ++ bs ++ cs) as.length new = as ++ new ++ cs := by
  have hdrop : (as ++ bs ++ cs).drop (as.length + bs.length) = cs := by
    rw [← List.length_append, List.drop_left]
  rw [patch, h, hdrop, List.append_assoc as bs cs, List.take_left]

theorem slice_patch_same {bs new : List Byte} {off : Nat} (h : off + new.length ≤ bs.length) :
    slice (patch bs off new) off new.length = new := by
  have hl : (bs.take off).length = off := by rw [List.length_take]; omega
  rw [slice, patch, List.append_assoc, List.drop_append_of_le_length (by omega),
    List.drop_of_length_le (by omega), List.nil_append, List.take_left]

theorem getElem?_patch_of_notMem {bs new : List Byte} {off i : Nat}
    (h : off + new.length ≤ bs.length) (hi : i < off ∨ off + new.length ≤ i) :
    (patch bs off new)[i]? = bs[i]? := by
  have hl : (bs.take off).length = off := by rw [List.length_take]; omega
  rcases hi with hi | hi
  · rw [patch, List.append_assoc, List.getElem?_append_left (by omega), List.getElem?_take_of_lt hi]
  · rw [patch, List.getElem?_append_right (by simp only [List.length_append]; omega),
      List.getElem?_drop]
    congr 1
    simp only [List.length_append]
    omega

theorem slice_patch_disjoint {bs new : List Byte} {off i n : Nat}
    (h : off + new.length ≤ bs.length) (hd : i + n ≤ off ∨ off + new.length ≤ i) :
    slice (patch bs off new) i n = slice bs i n := by
  apply List.ext_getElem?
  intro j
  simp only [slice, List.getElem?_take, List.getElem?_drop]
  split
  · exact getElem?_patch_of_notMem h (by omega)
  · rfl

theorem slice_congr {bs bs' : List Byte} {i n : Nat}
    (h : ∀ j, i ≤ j → j < i + n → bs[j]? = bs'[j]?) : slice bs i n = slice bs' i n := by
  apply List.ext_getElem?
  intro j
  simp only [slice, List.getElem?_take, List.getElem?_drop]
  split
  · exact h (i + j) (Nat.le_add_right _ _) (by omega)
  · rfl

theorem slice_append_left {bs cs : List Byte} {i n : Nat} (h : i + n ≤ bs.length) :
    slice (bs ++ cs) i n = slice bs i n := by
  rw [slice, List.drop_append_of_le_length (by omega),
    List.take_append_of_le_length (by rw [List.length_drop]; omega), slice]

theorem slice_append_exact {bs cs ds : List Byte} :
    slice (bs ++ cs ++ ds) bs.length cs.length = cs := by
  rw [slice, List.append_assoc, List.drop_left, List.take_left]

theorem slice_of_split {image a bs c : List Byte} {i n : Nat} (h : image = a ++ bs ++ c)
    (hi : i = a.length) (hn : n = bs.length) : slice image i n = bs := by
  rw [h, hi, hn, slice_append_exact]

theorem slice_append_right {bs cs : List Byte} {i n : Nat} :
    slice (bs ++ cs) (bs.length + i) n = slice cs i n := by
  rw [slice, slice, List.drop_append, List.drop_of_length_le (Nat.le_add_right _ _),
    Nat.add_sub_cancel_left, List.nil_append]

theorem slice_slice {bs : List Byte} {i n j m : Nat} (h : j + m ≤ n) :
    slice (slice bs i n) j m = slice bs (i + j) m := by
  simp only [slice, List.drop_take, List.take_take, List.drop_drop]
  congr 1
  omega

theorem flatMap_slices {bs : List Byte} {f : Nat → Nat} {n : Nat} (hzero : f 0 = 0)
    (hmono : ∀ i < n, f i ≤ f (i + 1)) :
    (List.range n).flatMap (fun i => slice bs (f i) (f (i + 1) - f i)) = bs.take (f n) := by
  induction n with
  | zero => rw [hzero, List.range_zero, List.flatMap_nil, List.take_zero]
  | succ n ih =>
      have hlast := hmono n (Nat.lt_succ_self n)
      rw [List.range_succ, List.flatMap_append, ih fun i hi => hmono i (Nat.lt_succ_of_lt hi),
        List.flatMap_singleton, slice, ← List.take_add, Nat.add_sub_cancel' hlast]

@[simp] theorem slice_length {bs : List Byte} {i n : Nat} (h : i + n ≤ bs.length) :
    (slice bs i n).length = n := by
  rw [slice, List.length_take, List.length_drop]
  omega

theorem slice_add (bs : List Byte) (i m n : Nat) :
    slice bs i (m + n) = slice bs i m ++ slice bs (i + m) n := by
  rw [slice, slice, slice, List.take_add, List.drop_drop]

theorem take_leBytes (m n : Nat) (v : BitVec w) : (leBytes n v).take m = leBytes (min n m) v := by
  induction n generalizing m v with
  | zero => rw [Nat.zero_min]; exact List.take_nil
  | succ n ih =>
      cases m with
      | zero => rw [Nat.min_zero]; rfl
      | succ m => rw [leBytes, List.take_succ_cons, ih, Nat.succ_min_succ, leBytes]

theorem leBytes_eq_iff (n : Nat) (v : BitVec w) (v' : BitVec u) :
    leBytes n v = leBytes n v' ↔ v.toNat ≡ v'.toNat [MOD 256 ^ n] := by
  induction n generalizing v v' with
  | zero => simp [leBytes, Nat.modEq_one]
  | succ n ih =>
      have hhead : v.setWidth 8 = v'.setWidth 8 ↔ v.toNat % 256 = v'.toNat % 256 := by
        rw [← BitVec.toNat_inj, BitVec.toNat_setWidth, BitVec.toNat_setWidth]
      have hshift : ∀ {k : Nat} (x : BitVec k), (x >>> 8).toNat = x.toNat / 256 :=
        fun x => Nat.shiftRight_eq_div_pow x.toNat 8
      have hpow : 256 ^ (n + 1) = 256 * 256 ^ n := Nat.pow_succ'
      rw [leBytes, leBytes, List.cons_eq_cons, hhead, ih, hshift, hshift, Nat.ModEq, Nat.ModEq, hpow,
        Nat.mod_mul, Nat.mod_mul]
      have hv := Nat.mod_lt v.toNat (by decide : 0 < 256)
      have hv' := Nat.mod_lt v'.toNat (by decide : 0 < 256)
      constructor
      · rintro ⟨h₁, h₂⟩
        rw [h₁, h₂]
      · intro h
        omega

/-- Adding a number to a sign-extended one leaves its low bytes when the number has none. -/
theorem leBytes_add_signExtend {n : Nat} (hn : n ≤ 4) (x : BitVec 64) (v : BitVec 32) :
    leBytes n (x + v.signExtend 64) = leBytes n v ↔ x.toNat % 256 ^ n = 0 := by
  have hv : (v.signExtend 64).toNat ≡ v.toNat [MOD 256 ^ n] := by
    rw [← leBytes_eq_iff]
    apply leBytes_congr
    intro i hi
    rw [BitVec.getLsbD_signExtend, if_pos (by omega), decide_eq_true (by omega), Bool.true_and]
  have hsum : (x + v.signExtend 64).toNat ≡ x.toNat + v.toNat [MOD 256 ^ n] := by
    have hdvd : 256 ^ n ∣ 2 ^ 64 := by
      rw [show (256 : Nat) = 2 ^ 8 from rfl, ← Nat.pow_mul]
      exact Nat.pow_dvd_pow 2 (by omega)
    rw [BitVec.toNat_add]
    exact ((Nat.mod_modEq _ _).of_dvd hdvd).trans (hv.add_left _)
  rw [leBytes_eq_iff]
  constructor
  · intro h
    have hzero : x.toNat + v.toNat ≡ 0 + v.toNat [MOD 256 ^ n] := by
      rw [Nat.zero_add]
      exact hsum.symm.trans h
    exact Nat.ModEq.add_right_cancel' _ hzero
  · intro h
    have hzero : x.toNat ≡ 0 [MOD 256 ^ n] := h
    exact hsum.trans (by simpa using hzero.add_right v.toNat)

end X86Assembler.LittleEndian
