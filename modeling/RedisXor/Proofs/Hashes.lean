import RedisXor.Lib.Words
import RedisXor.Spec.Murmur3

/-! The two hashes are onto: `mix` is a bijection of 64-bit words, and every
word is the `Hash_Build` of some item of 16 bytes, one block without a tail. -/

namespace RedisXor

open LittleEndian Words

/-! Shifts and rotations of unsigned words -/

def unshift (k : ℕ) (x : UInt64) : UInt64 := UInt64.ofBitVec (unxorShift k x.toBitVec)

section Shift

variable {k : ℕ}

theorem toNat_shift (hk : k < 64) : ((UInt64.ofNat k).toBitVec % 64).toNat = k := by
  rw [BitVec.toNat_umod]
  change k % 2 ^ 64 % 64 = k
  omega

theorem toBitVec_xorShift (hk : k < 64) (x : UInt64) :
    (x ^^^ (x >>> UInt64.ofNat k)).toBitVec = xorShift k x.toBitVec := by
  rw [UInt64.toBitVec_xor, UInt64.toBitVec_shiftRight, BitVec.ushiftRight_eq', toNat_shift hk]
  rfl

theorem xorShift_unshift (h1 : 22 ≤ k) (h2 : k < 64) (x : UInt64) :
    unshift k x ^^^ (unshift k x >>> UInt64.ofNat k) = x := by
  apply UInt64.toBitVec_inj.1
  rw [toBitVec_xorShift h2]
  exact xorShift_unxorShift (by omega) x.toBitVec

theorem unshift_xorShift (h1 : 22 ≤ k) (h2 : k < 64) (x : UInt64) :
    unshift k (x ^^^ (x >>> UInt64.ofNat k)) = x := by
  apply UInt64.toBitVec_inj.1
  rw [unshift, toBitVec_xorShift h2]
  exact unxorShift_xorShift (by omega) x.toBitVec

theorem toBitVec_rotl64 (h1 : 0 < k) (h2 : k < 64) (x : UInt64) :
    (rotl64 x (UInt64.ofNat k)).toBitVec = rotl k x.toBitVec := by
  have hsub : (64 - UInt64.ofNat k).toBitVec.toNat = 64 - k := by
    change (64 - UInt64.ofNat k).toNat = 64 - k
    have hk : (UInt64.ofNat k).toNat = k := UInt64.toNat_ofNat_of_lt' (show k < 2 ^ 64 by omega)
    rw [UInt64.toNat_sub_of_le _ _ (by rw [UInt64.le_iff_toNat_le, hk]; exact h2.le), hk]
    rfl
  rw [rotl64, UInt64.toBitVec_or, UInt64.toBitVec_shiftLeft, UInt64.toBitVec_shiftRight,
    BitVec.shiftLeft_eq', BitVec.ushiftRight_eq', toNat_shift h2, BitVec.toNat_umod, hsub]
  rw [show BitVec.toNat (64 : BitVec 64) = 64 from rfl, Nat.mod_eq_of_lt (show 64 - k < 64 by omega)]
  rfl

theorem rotl64_rotl64 (h1 : 0 < k) (h2 : k < 64) (x : UInt64) :
    rotl64 (rotl64 x (UInt64.ofNat (64 - k))) (UInt64.ofNat k) = x := by
  apply UInt64.toBitVec_inj.1
  rw [toBitVec_rotl64 h1 h2, toBitVec_rotl64 (by omega) (by omega)]
  have h := rotl_rotl (w := 64) (k := 64 - k) (by omega) x.toBitVec
  rwa [show 64 - (64 - k) = k by omega] at h

end Shift

theorem mul_unit {c c' : UInt64} (h : c * c' = 1) (x : UInt64) : x * c * c' = x := by
  rw [UInt64.mul_assoc, h, UInt64.mul_one]

/-! The mixer -/

def unmix (h : UInt64) : UInt64 :=
  let h := unshift 31 h * 0x319642b2d24d8ec3
  let h := unshift 27 h * 0x96de1b173f119089
  unshift 30 h

theorem mix_unmix (h : UInt64) : mix (unmix h) = h := by
  have h30 (x : UInt64) : unshift 30 x ^^^ (unshift 30 x >>> 30) = x :=
    xorShift_unshift (by omega) (by omega) x
  have h27 (x : UInt64) : unshift 27 x ^^^ (unshift 27 x >>> 27) = x :=
    xorShift_unshift (by omega) (by omega) x
  have h31 (x : UInt64) : unshift 31 x ^^^ (unshift 31 x >>> 31) = x :=
    xorShift_unshift (by omega) (by omega) x
  simp only [mix, unmix]
  rw [h30, mul_unit (by decide), h27, mul_unit (by decide), h31]

theorem unmix_mix (h : UInt64) : unmix (mix h) = h := by
  have h30 (x : UInt64) : unshift 30 (x ^^^ (x >>> 30)) = x :=
    unshift_xorShift (by omega) (by omega) x
  have h27 (x : UInt64) : unshift 27 (x ^^^ (x >>> 27)) = x :=
    unshift_xorShift (by omega) (by omega) x
  have h31 (x : UInt64) : unshift 31 (x ^^^ (x >>> 31)) = x :=
    unshift_xorShift (by omega) (by omega) x
  simp only [mix, unmix]
  rw [h31, mul_unit (by decide), h27, mul_unit (by decide), h30]

/-! Murmur -/

def unfmix64 (k : UInt64) : UInt64 :=
  let k := unshift 33 k * 0x9cb4b2f8129337db
  let k := unshift 33 k * 0x4f74430c22a54005
  unshift 33 k

theorem fmix64_unfmix64 (k : UInt64) : fmix64 (unfmix64 k) = k := by
  have h33 (x : UInt64) : unshift 33 x ^^^ (unshift 33 x >>> 33) = x :=
    xorShift_unshift (by omega) (by omega) x
  simp only [fmix64, unfmix64]
  rw [h33, mul_unit (by decide), h33, mul_unit (by decide), h33]

def unmixK1 (k : UInt64) : UInt64 := rotl64 (k * 0xa81e14edd9de2c7f) 33 * 0xa98409e882ce4d7d

def unmixK2 (k : UInt64) : UInt64 := rotl64 (k * 0xa98409e882ce4d7d) 31 * 0xa81e14edd9de2c7f

theorem mixK1_unmixK1 (k : UInt64) : mixK1 (unmixK1 k) = k := by
  have hrot (x : UInt64) : rotl64 (rotl64 x 33) 31 = x :=
    rotl64_rotl64 (k := 31) (by omega) (by omega) x
  simp only [mixK1, unmixK1]
  rw [mul_unit (by decide), hrot, mul_unit (by decide)]

theorem mixK2_unmixK2 (k : UInt64) : mixK2 (unmixK2 k) = k := by
  have hrot (x : UInt64) : rotl64 (rotl64 x 31) 33 = x :=
    rotl64_rotl64 (k := 33) (by omega) (by omega) x
  simp only [mixK2, unmixK2]
  rw [mul_unit (by decide), hrot, mul_unit (by decide)]

/-- The two words of a block that takes the state `h` to `g`. -/
def unmurmurBlock (h g : UInt64 × UInt64) : UInt64 × UInt64 :=
  (unmixK1 (h.1 ^^^ rotl64 ((g.1 - 0x52dce729) * 0xcccccccccccccccd - h.2) 37),
    unmixK2 (h.2 ^^^ rotl64 ((g.2 - 0x38495ab5) * 0xcccccccccccccccd - g.1) 33))

theorem murmurBlock_unmurmurBlock (h g : UInt64 × UInt64) :
    murmurBlock h (unmurmurBlock h g).1 (unmurmurBlock h g).2 = g := by
  have hxor (a b : UInt64) : a ^^^ (a ^^^ b) = b := by
    rw [← UInt64.xor_assoc, UInt64.xor_self, UInt64.zero_xor]
  have h37 (x : UInt64) : rotl64 (rotl64 x 37) 27 = x :=
    rotl64_rotl64 (k := 27) (by omega) (by omega) x
  have h33 (x : UInt64) : rotl64 (rotl64 x 33) 31 = x :=
    rotl64_rotl64 (k := 31) (by omega) (by omega) x
  have h5 (x : UInt64) : x * 0xcccccccccccccccd * 5 = x := mul_unit (by decide) x
  have h1 : (murmurBlock h (unmurmurBlock h g).1 (unmurmurBlock h g).2).1 = g.1 := by
    simp only [murmurBlock, unmurmurBlock]
    rw [mixK1_unmixK1, hxor, h37, UInt64.sub_add_cancel, h5, UInt64.sub_add_cancel]
  refine Prod.ext h1 ?_
  simp only [murmurBlock, unmurmurBlock] at h1 ⊢
  rw [h1, mixK2_unmixK2, hxor, h33, UInt64.sub_add_cancel, h5, UInt64.sub_add_cancel]

/-- An item whose `Hash_Build` is `hash`. -/
def hashPreimage (hash : UInt64) : List UInt8 :=
  let h2 := unfmix64 hash
  let k := unmurmurBlock (42, 42) ((0 - h2) ^^^ 16, h2 ^^^ 16)
  bytesLE 8 k.1.toNat ++ bytesLE 8 k.2.toNat

theorem murmurBody_block (k1 k2 : UInt64) (h : UInt64 × UInt64) :
    murmurBody (bytesLE 8 k1.toNat ++ bytesLE 8 k2.toNat) h = murmurBlock h k1 k2 := by
  have hk (k : UInt64) : UInt64.ofNat (readLE 8 (bytesLE 8 k.toNat) 0) = k := by
    rw [readLE_bytesLE]
    apply UInt64.toNat_inj.1
    have := k.toNat_lt
    rw [UInt64.toNat_ofNat']
    omega
  have hsnd := readLE_append_right 8 (bytesLE 8 k1.toNat) (bytesLE 8 k2.toNat) 0
  rw [length_bytesLE] at hsnd
  simp only [murmurBody, List.length_append, length_bytesLE]
  change murmurBlock h _ _ = _
  rw [readLE_append_left 8 _ _ _ (by rw [length_bytesLE]), hsnd, hk, hk]

theorem murmurTail_block {key : List UInt8} (hkey : key.length = 16) (h : UInt64 × UInt64) :
    murmurTail key h = h := by
  simp [murmurTail, hkey]

theorem hashBuild_hashPreimage (hash : UInt64) : hashBuild (hashPreimage hash) = hash := by
  have hlen (k1 k2 : UInt64) : (bytesLE 8 k1.toNat ++ bytesLE 8 k2.toNat).length = 16 := by simp
  simp only [hashBuild, murmurHash3X64128, hashPreimage]
  rw [murmurTail_block (hlen _ _), murmurBody_block, murmurBlock_unmurmurBlock, hlen]
  -- the two halves of the state cancel, so only one of them reaches the result
  have hxor (a : UInt64) : a ^^^ 16 ^^^ UInt64.ofNat 16 = a := by
    rw [UInt64.xor_assoc]
    exact UInt64.xor_zero
  simp only [murmurFinalize, hxor]
  rw [UInt64.sub_add_cancel, UInt64.add_zero, fmix64_unfmix64]
  exact UInt64.zero_add hash

theorem hashPreimage_injective : Function.Injective hashPreimage :=
  Function.LeftInverse.injective hashBuild_hashPreimage

end RedisXor
