import Mathlib.Tactic.Ring
import Mathlib.Tactic.NormNum
import RedisXor.Lib.Arrays

/-! Fixed-width little-endian words in a byte buffer: reading a word at an
offset, overwriting it in place, and the byte list of a word. -/

namespace LittleEndian

open Arrays

/-- The `w`-byte word at `off`; bytes outside the buffer read as zero. -/
def readLE : ℕ → List UInt8 → ℕ → ℕ
  | 0, _, _ => 0
  | w + 1, buf, off => (buf.getD off 0).toNat + 256 * readLE w buf (off + 1)

/-- Overwrite the `w` bytes at `off`; bytes outside the buffer are dropped. -/
def writeLE : ℕ → List UInt8 → ℕ → ℕ → List UInt8
  | 0, buf, _, _ => buf
  | w + 1, buf, off, n => writeLE w (buf.set off (UInt8.ofNat n)) (off + 1) (n / 256)

/-- The `w` little-endian bytes of `n`. -/
def bytesLE : ℕ → ℕ → List UInt8
  | 0, _ => []
  | w + 1, n => UInt8.ofNat n :: bytesLE w (n / 256)

@[simp] theorem length_writeLE (w : ℕ) (buf : List UInt8) (off n : ℕ) :
    (writeLE w buf off n).length = buf.length := by
  induction w generalizing buf off n with
  | zero => rfl
  | succ w ih => rw [writeLE, ih, List.length_set]

@[simp] theorem length_bytesLE (w n : ℕ) : (bytesLE w n).length = w := by
  induction w generalizing n with
  | zero => rfl
  | succ w ih => rw [bytesLE, List.length_cons, ih]

/-- One byte of a word, and the rest. -/
theorem toNat_ofNat_add (w n : ℕ) :
    (UInt8.ofNat n).toNat + 256 * (n / 256 % 256 ^ w) = n % 256 ^ (w + 1) := by
  rw [UInt8.toNat_ofNat', pow_succ' 256]
  exact Nat.mod_mul.symm

theorem readLE_lt (w : ℕ) (buf : List UInt8) (off : ℕ) : readLE w buf off < 256 ^ w := by
  induction w generalizing off with
  | zero => simp [readLE]
  | succ w ih =>
    have hb : (buf.getD off 0).toNat < 256 := UInt8.toNat_lt _
    have hr := ih (off + 1)
    rw [readLE, pow_succ]
    omega

/-- A write leaves every byte outside its word alone. -/
theorem getD_writeLE_of_outside (w : ℕ) (buf : List UInt8) (off n j : ℕ)
    (hj : j < off ∨ off + w ≤ j) : (writeLE w buf off n).getD j 0 = buf.getD j 0 := by
  induction w generalizing buf off n with
  | zero => rfl
  | succ w ih => rw [writeLE, ih _ _ _ (by omega), getD_set_ne _ (by omega)]

/-- The bytes of the word itself do not depend on what was there. -/
theorem getD_writeLE_of_inside (w : ℕ) (buf : List UInt8) (off n : ℕ) {k : ℕ} (hk : k < w)
    (h : off + w ≤ buf.length) :
    (writeLE w buf off n).getD (off + k) 0 = UInt8.ofNat (n / 256 ^ k) := by
  induction w generalizing buf off n k with
  | zero => exact absurd hk (Nat.not_lt_zero k)
  | succ w ih =>
    rw [writeLE]
    rcases k with - | k
    · rw [pow_zero, Nat.div_one, getD_writeLE_of_outside _ _ _ _ _ (by omega)]
      exact getD_set_self _ (by omega) _ _
    · have hrest := ih (buf.set off (UInt8.ofNat n)) (off + 1) (n / 256) (k := k) (by omega)
        (by rw [List.length_set]; omega)
      rw [Nat.div_div_eq_div_mul, ← pow_succ'] at hrest
      rwa [show off + (k + 1) = off + 1 + k by omega]

theorem readLE_congr (w : ℕ) {buf buf' : List UInt8} {off off' : ℕ}
    (h : ∀ i < w, buf.getD (off + i) 0 = buf'.getD (off' + i) 0) :
    readLE w buf off = readLE w buf' off' := by
  induction w generalizing off off' with
  | zero => rfl
  | succ w ih =>
    have h0 := h 0 (by omega)
    rw [Nat.add_zero, Nat.add_zero] at h0
    rw [readLE, readLE, h0, ih fun i hi => ?_]
    have hs := h (i + 1) (by omega)
    rwa [show off + 1 + i = off + (i + 1) by omega, show off' + 1 + i = off' + (i + 1) by omega]

theorem readLE_writeLE_of_disjoint {w w' : ℕ} (buf : List UInt8) {off off' : ℕ} (n : ℕ)
    (h : off' + w' ≤ off ∨ off + w ≤ off') :
    readLE w' (writeLE w buf off n) off' = readLE w' buf off' :=
  readLE_congr w' fun i hi => getD_writeLE_of_outside w buf off n (off' + i) (by omega)

theorem readLE_writeLE (w : ℕ) (buf : List UInt8) (off n : ℕ) (h : off + w ≤ buf.length) :
    readLE w (writeLE w buf off n) off = n % 256 ^ w := by
  induction w generalizing buf off n with
  | zero => simp [readLE, Nat.mod_one]
  | succ w ih =>
    have hlow : (writeLE w (buf.set off (UInt8.ofNat n)) (off + 1) (n / 256)).getD off 0 =
        UInt8.ofNat n := by
      rw [getD_writeLE_of_outside _ _ _ _ _ (by omega), getD_set_self _ (by omega)]
    rw [writeLE, readLE, hlow, ih _ _ _ (by rw [List.length_set]; omega), toNat_ofNat_add]

theorem readLE_append_right (w : ℕ) (pre buf : List UInt8) (off : ℕ) :
    readLE w (pre ++ buf) (pre.length + off) = readLE w buf off :=
  readLE_congr w fun i _ => by
    simp [List.getD_eq_getElem?_getD, List.getElem?_append_right, Nat.add_assoc]

theorem readLE_append_left (w : ℕ) (buf post : List UInt8) (off : ℕ)
    (h : off + w ≤ buf.length) : readLE w (buf ++ post) off = readLE w buf off :=
  readLE_congr w fun i hi => by
    simp [List.getD_eq_getElem?_getD,
      List.getElem?_append_left (show off + i < buf.length by omega)]

theorem readLE_bytesLE (w n : ℕ) : readLE w (bytesLE w n) 0 = n % 256 ^ w := by
  induction w generalizing n with
  | zero => simp [readLE, Nat.mod_one]
  | succ w ih =>
    have hs : readLE w (UInt8.ofNat n :: bytesLE w (n / 256)) 1 = n / 256 % 256 ^ w := by
      rw [← ih]
      exact readLE_append_right w [UInt8.ofNat n] _ 0
    rw [bytesLE, readLE, hs, List.getD_cons_zero, toNat_ofNat_add]

/-- A word behind `pre` bytes, whatever follows it. -/
theorem readLE_field (w : ℕ) (pre post : List UInt8) (n : ℕ) :
    readLE w (pre ++ (bytesLE w n ++ post)) pre.length = n % 256 ^ w := by
  have h := readLE_append_right w pre (bytesLE w n ++ post) 0
  rw [Nat.add_zero] at h
  rw [h, readLE_append_left w _ _ _ (by rw [length_bytesLE, Nat.zero_add]), readLE_bytesLE]

/-- Encoding what was read gives the bytes back. -/
theorem bytesLE_readLE (w : ℕ) (buf : List UInt8) (off : ℕ) (h : off + w ≤ buf.length) :
    bytesLE w (readLE w buf off) = (buf.drop off).take w := by
  induction w generalizing off with
  | zero => simp [bytesLE]
  | succ w ih =>
    have hoff : off < buf.length := by omega
    have hb : (buf.getD off 0).toNat < 256 := UInt8.toNat_lt _
    rw [List.drop_eq_getElem_cons hoff, List.take_succ_cons, bytesLE, readLE,
      Nat.add_mul_div_left _ _ (by norm_num), Nat.div_eq_of_lt hb, Nat.zero_add,
      ih (off + 1) (by omega), List.getD_eq_getElem?_getD, List.getElem?_eq_getElem hoff]
    congr 1
    apply UInt8.toNat_inj.mp
    have := UInt8.toNat_lt buf[off]
    rw [UInt8.toNat_ofNat', Option.getD_some]
    omega

end LittleEndian
