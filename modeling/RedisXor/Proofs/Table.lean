import Mathlib.Tactic.IntervalCases
import RedisXor.Spec.Xor

/-! The fingerprint table is an array of independent cells of `fpSize` bits:
two 4-bit cells share a byte, wider cells are whole little-endian words. -/

namespace RedisXor

open Arrays LittleEndian

/-- The four enumerators. -/
def ValidFp (fpSize : FingerprintSize) : Prop :=
  fpSize = FP4 ∨ fpSize = FP8 ∨ fpSize = FP16 ∨ fpSize = FP32

instance (fpSize : FingerprintSize) : Decidable (ValidFp fpSize) := by
  unfold ValidFp
  infer_instance

/-- The bytes of the buffer that `fp_get` reads and `fp_set` reads or writes. -/
def touchedBytes (fpSize : FingerprintSize) (idx : ℕ) : List ℕ :=
  if fpSize = FP4 then [idx >>> 1]
  else if fpSize = FP8 then List.range' (1 * idx) 1
  else if fpSize = FP16 then List.range' (2 * idx) 2
  else if fpSize = FP32 then List.range' (4 * idx) 4
  else []

/-! Halves of a byte -/

theorem set_low_low (b v : UInt8) : ((b &&& 0xF0) ||| (v &&& 0x0F)) &&& 0x0F = v &&& 0x0F := by
  apply UInt8.toBitVec_inj.1
  ext i hi
  interval_cases i <;> simp

theorem set_low_high (b v : UInt8) : ((b &&& 0xF0) ||| (v &&& 0x0F)) >>> 4 = b >>> 4 := by
  apply UInt8.toBitVec_inj.1
  ext i hi
  interval_cases i <;> simp

theorem set_high_high (b v : UInt8) :
    ((b &&& 0x0F) ||| ((v &&& 0x0F) <<< (4 : UInt8))) >>> 4 = v &&& 0x0F := by
  apply UInt8.toBitVec_inj.1
  ext i hi
  interval_cases i <;> simp

theorem set_high_low (b v : UInt8) :
    ((b &&& 0x0F) ||| ((v &&& 0x0F) <<< (4 : UInt8))) &&& 0x0F = b &&& 0x0F := by
  apply UInt8.toBitVec_inj.1
  ext i hi
  interval_cases i <;> simp

theorem toUInt8_and (v : UInt32) : (v &&& 0x0F).toUInt8 = v.toUInt8 &&& 0x0F := by
  apply UInt8.toBitVec_inj.1
  ext i hi
  interval_cases i <;> simp

theorem toNat_and_0x0F (b : UInt8) : (b &&& 0x0F).toNat = b.toNat % 2 ^ 4 := by
  rw [UInt8.toNat_and]
  exact Nat.and_two_pow_sub_one_eq_mod b.toNat 4

/-! One width at a time -/

section Width

variable {f : XorFilter}

theorem fpGet_fp4 (h : f.fpSize = FP4) (i : ℕ) : fpGet f i =
    if (i &&& 1) = 1 then (f.fingerprints.getD (i >>> 1) 0 >>> 4).toUInt32
    else (f.fingerprints.getD (i >>> 1) 0 &&& 0x0F).toUInt32 := by
  rw [fpGet, if_pos h]

theorem fpGet_fp8 (h : f.fpSize = FP8) (i : ℕ) :
    fpGet f i = UInt32.ofNat (readLE 1 f.fingerprints (1 * i)) := by
  rw [fpGet, if_neg (by rw [h]; decide), if_pos h, Nat.one_mul]

theorem fpGet_fp16 (h : f.fpSize = FP16) (i : ℕ) :
    fpGet f i = UInt32.ofNat (readLE 2 f.fingerprints (2 * i)) := by
  rw [fpGet, if_neg (by rw [h]; decide), if_neg (by rw [h]; decide), if_pos h]

theorem fpGet_fp32 (h : f.fpSize = FP32) (i : ℕ) :
    fpGet f i = UInt32.ofNat (readLE 4 f.fingerprints (4 * i)) := by
  rw [fpGet, if_neg (by rw [h]; decide), if_neg (by rw [h]; decide), if_neg (by rw [h]; decide),
    if_pos h]

theorem fpSet_fp4 (h : f.fpSize = FP4) (i : ℕ) (v : UInt32) : (fpSet f i v).fingerprints =
    f.fingerprints.set (i >>> 1)
      (if (i &&& 1) = 1 then (f.fingerprints.getD (i >>> 1) 0 &&& 0x0F) |||
          ((v.toUInt8 &&& 0x0F) <<< (4 : UInt8))
        else (f.fingerprints.getD (i >>> 1) 0 &&& 0xF0) ||| (v.toUInt8 &&& 0x0F)) := by
  simp only [fpSet, if_pos h, toUInt8_and]
  split_ifs <;> rfl

theorem fpSet_fp8 (h : f.fpSize = FP8) (i : ℕ) (v : UInt32) :
    (fpSet f i v).fingerprints = writeLE 1 f.fingerprints (1 * i) v.toNat := by
  simp only [fpSet]
  rw [if_neg (by rw [h]; decide), if_pos h, Nat.one_mul]

theorem fpSet_fp16 (h : f.fpSize = FP16) (i : ℕ) (v : UInt32) :
    (fpSet f i v).fingerprints = writeLE 2 f.fingerprints (2 * i) v.toNat := by
  simp only [fpSet]
  rw [if_neg (by rw [h]; decide), if_neg (by rw [h]; decide), if_pos h]

theorem fpSet_fp32 (h : f.fpSize = FP32) (i : ℕ) (v : UInt32) :
    (fpSet f i v).fingerprints = writeLE 4 f.fingerprints (4 * i) v.toNat := by
  simp only [fpSet]
  rw [if_neg (by rw [h]; decide), if_neg (by rw [h]; decide), if_neg (by rw [h]; decide), if_pos h]

end Width

/-- The widths above 4 bits: a cell is a word of `w` bytes. -/
structure WordCells (fpSize : FingerprintSize) (w : ℕ) : Prop where
  ne_fp4 : fpSize ≠ FP4
  div_eq : (fpSize / 8).toNat = w
  pow_eq : 256 ^ w = 2 ^ fpSize.toNat
  touchedBytes_eq : ∀ i, touchedBytes fpSize i = List.range' (w * i) w
  fpGet_eq : ∀ f : XorFilter, f.fpSize = fpSize → ∀ i,
    fpGet f i = UInt32.ofNat (readLE w f.fingerprints (w * i))
  fpSet_eq : ∀ f : XorFilter, f.fpSize = fpSize → ∀ (i : ℕ) (v : UInt32),
    (fpSet f i v).fingerprints = writeLE w f.fingerprints (w * i) v.toNat

theorem ValidFp.fp4_or_word {fpSize : FingerprintSize} (h : ValidFp fpSize) :
    fpSize = FP4 ∨ ∃ w, 0 < w ∧ WordCells fpSize w := by
  rcases h with rfl | rfl | rfl | rfl
  · exact Or.inl rfl
  · exact Or.inr ⟨1, by decide, by decide, by decide, by decide, fun i => rfl,
      fun f h i => fpGet_fp8 h i, fun f h i v => fpSet_fp8 h i v⟩
  · exact Or.inr ⟨2, by decide, by decide, by decide, by decide, fun i => rfl,
      fun f h i => fpGet_fp16 h i, fun f h i v => fpSet_fp16 h i v⟩
  · exact Or.inr ⟨4, by decide, by decide, by decide, by decide, fun i => rfl,
      fun f h i => fpGet_fp32 h i, fun f h i v => fpSet_fp32 h i v⟩

theorem WordCells.fpBytes_eq {fpSize : FingerprintSize} {w : ℕ} (h : WordCells fpSize w) (m : ℕ) :
    fpBytes fpSize m = m * w := by
  rw [fpBytes, if_neg h.ne_fp4, h.div_eq]

/-- Cells of `w` bytes laid out one after the other. -/
theorem readLE_writeLE_cell (w : ℕ) (buf : List UInt8) {m i j : ℕ} (hlen : buf.length = m * w)
    (hi : i < m) (v : ℕ) : readLE w (writeLE w buf (w * i) v) (w * j) =
      if i = j then v % 256 ^ w else readLE w buf (w * j) := by
  split_ifs with hij
  · subst hij
    refine readLE_writeLE w buf (w * i) v ?_
    rw [hlen, Nat.mul_comm m w, ← Nat.mul_succ]
    exact Nat.mul_le_mul_left w hi
  · refine readLE_writeLE_of_disjoint buf v ?_
    rw [← Nat.mul_succ, ← Nat.mul_succ]
    rcases Nat.lt_or_gt_of_ne hij with h | h
    · exact Or.inr (Nat.mul_le_mul_left w h)
    · exact Or.inl (Nat.mul_le_mul_left w h)

@[simp] theorem fpSet_fpSize (f : XorFilter) (i : ℕ) (v : UInt32) :
    (fpSet f i v).fpSize = f.fpSize := rfl

@[simp] theorem length_fpSet (f : XorFilter) (i : ℕ) (v : UInt32) :
    (fpSet f i v).fingerprints.length = f.fingerprints.length := by
  simp only [fpSet]
  split_ifs <;> simp

theorem half_eq_iff {i j : ℕ} (h : i >>> 1 = j >>> 1) :
    i = j ↔ ((i &&& 1) = 1 ↔ (j &&& 1) = 1) := by
  rw [Nat.shiftRight_one, Nat.shiftRight_one] at h
  rw [Nat.and_one_is_mod, Nat.and_one_is_mod]
  omega

theorem fpGet_fpSet_fp4 {f : XorFilter} (h : f.fpSize = FP4) {i : ℕ}
    (hi : i >>> 1 < f.fingerprints.length) (v : UInt32) (j : ℕ) : fpGet (fpSet f i v) j =
      if i = j then (v.toUInt8 &&& 0x0F).toUInt32 else fpGet f j := by
  rw [fpGet_fp4 (by exact h), fpGet_fp4 h, fpSet_fp4 h]
  by_cases hb : i >>> 1 = j >>> 1
  · -- one byte: the write replaces one half and rebuilds the other
    rw [← hb, getD_set_self _ hi]
    have hij := half_eq_iff hb
    by_cases hi1 : (i &&& 1) = 1 <;> by_cases hj1 : (j &&& 1) = 1
    · rw [if_pos (hij.2 (by tauto)), if_pos hi1, if_pos hj1, set_high_high]
    · rw [if_neg (fun e => hj1 ((hij.1 e).1 hi1)), if_pos hi1, if_neg hj1, if_neg hj1, set_high_low]
    · rw [if_neg (fun e => hi1 ((hij.1 e).2 hj1)), if_neg hi1, if_pos hj1, if_pos hj1, set_low_high]
    · rw [if_pos (hij.2 (by tauto)), if_neg hi1, if_neg hj1, set_low_low]
  · have hne : i ≠ j := by
      rintro rfl
      exact hb rfl
    rw [getD_set_ne _ hb, if_neg hne]

theorem toUInt32_and_0x0F (v : UInt32) :
    (v.toUInt8 &&& 0x0F).toUInt32 = UInt32.ofNat (v.toNat % 2 ^ 4) := by
  apply UInt32.toNat_inj.1
  rw [UInt8.toNat_toUInt32, toNat_and_0x0F, UInt32.toNat_toUInt8, UInt32.toNat_ofNat']
  omega

/-- The law of an array of cells. -/
theorem fpGet_fpSet {f : XorFilter} (hfp : ValidFp f.fpSize) {m : ℕ}
    (hlen : f.fingerprints.length = fpBytes f.fpSize m) {i : ℕ} (hi : i < m) (v : UInt32) (j : ℕ) :
    fpGet (fpSet f i v) j =
      if i = j then UInt32.ofNat (v.toNat % 2 ^ f.fpSize.toNat) else fpGet f j := by
  rcases hfp.fp4_or_word with h | ⟨w, -, hw⟩
  · rw [h, fpBytes, if_pos rfl] at hlen
    have hi' : i >>> 1 < f.fingerprints.length := by
      rw [Nat.shiftRight_one]
      omega
    rw [fpGet_fpSet_fp4 h hi', toUInt32_and_0x0F, h]
    rfl
  · rw [hw.fpBytes_eq] at hlen
    rw [hw.fpGet_eq (fpSet f i v) rfl, hw.fpGet_eq f rfl, hw.fpSet_eq f rfl,
      readLE_writeLE_cell w _ hlen hi, hw.pow_eq]
    exact apply_ite UInt32.ofNat _ _ _

/-- A cell holds `fpSize` bits. -/
theorem fpGet_lt {f : XorFilter} (hfp : ValidFp f.fpSize) (i : ℕ) :
    (fpGet f i).toNat < 2 ^ f.fpSize.toNat := by
  rcases hfp.fp4_or_word with h | ⟨w, -, hw⟩
  · rw [fpGet_fp4 h, h]
    have hb := UInt8.toNat_lt (f.fingerprints.getD (i >>> 1) 0)
    split_ifs
    · rw [UInt8.toNat_toUInt32, UInt8.toNat_shiftRight]
      change _ >>> 4 < 16
      rw [Nat.shiftRight_eq_div_pow]
      omega
    · rw [UInt8.toNat_toUInt32, toNat_and_0x0F]
      exact Nat.mod_lt _ (by decide)
  · rw [hw.fpGet_eq f rfl, UInt32.toNat_ofNat', ← hw.pow_eq]
    exact (Nat.mod_le _ _).trans_lt (readLE_lt w _ _)

/-- Every cell of a zeroed table reads zero. -/
theorem fpGet_of_zero {f : XorFilter} (h : ∀ i, f.fingerprints.getD i 0 = 0) (i : ℕ) :
    fpGet f i = 0 := by
  have hz (w off : ℕ) : readLE w f.fingerprints off = 0 := by
    induction w generalizing off with
    | zero => rfl
    | succ w ih => rw [readLE, ih, h]; rfl
  simp only [fpGet, hz, h]
  split_ifs <;> rfl

end RedisXor
