import RedisXor.Proofs.Rdb

/-! What `xor_load` makes of a stream it did not write. It checks the version
and nothing else, so the filter it returns can be trusted exactly as far as the
five items of the stream agree with each other; `XOR.LOADCHUNK` checks the same
fields of the same data. -/

namespace RedisXor

/-- The items `xor_load` asks for. -/
def rdbStream (seed segmentSize fpSize reallocations : UInt64) (rawData : Bytes) : List RdbValue :=
  [.unsigned seed, .unsigned segmentSize, .unsigned fpSize, .unsigned reallocations,
    .stringBuffer rawData]

/-- A filter whose header fits its table, and what follows for those who read it. -/
structure SafeToUse (f : XorFilter) : Prop where
  segmentSize_pos : 1 ≤ f.segmentSize.toNat
  fpSize_valid : ValidFp f.fpSize
  length_eq : f.fingerprints.length = fpBytes f.fpSize (3 * f.segmentSize.toNat)
  check : ∀ hashBuild item, CheckSafe hashBuild f item
  save : fpBytes f.fpSize (f.segmentSize.toNat * 3) ≤ f.fingerprints.length
  dump : getFingerprintsBytes f.fpSize (slotCount f) ≤ f.fingerprints.length

/-- NULL, or a filter that is safe to use. -/
def LoadsSafely (encver : ℤ) (rdb : List RdbValue) : Prop :=
  xorLoad rdb encver = some none ∨ ∃ f, xorLoad rdb encver = some (some f) ∧ SafeToUse f

section Use

variable {f : XorFilter}

/-- Cutting the slot count to 32 bits makes the table no longer. -/
theorem getFingerprintsBytes_le (fpSize : FingerprintSize) (count : ℕ) :
    getFingerprintsBytes fpSize (wrap32 count) ≤ fpBytes fpSize count := by
  have hcount := wrap32_le count
  rw [getFingerprintsBytes, fpBytes]
  split_ifs
  · have hrounded := wrap32_le (wrap32 count + 1)
    omega
  · exact Nat.mul_le_mul_right _ hcount

theorem safeToUse_iff : SafeToUse f ↔ 1 ≤ f.segmentSize.toNat ∧ ValidFp f.fpSize ∧
    f.fingerprints.length = fpBytes f.fpSize (3 * f.segmentSize.toNat) := by
  constructor
  · intro h
    exact ⟨h.segmentSize_pos, h.fpSize_valid, h.length_eq⟩
  · rintro ⟨hpos, hfp, hlen⟩
    refine ⟨hpos, hfp, hlen, checkSafe_of_length hpos hlen, ?_, ?_⟩
    · rw [hlen, Nat.mul_comm]
    · rw [hlen, slotCount]
      exact getFingerprintsBytes_le _ _

end Use

/-- `xor_load` is safe exactly on the streams it refuses and on those that are
consistent in themselves. -/
theorem xorLoad_safe_iff (encver : ℤ) (seed segmentSize fpSize reallocations : UInt64)
    (rawData : Bytes) :
    LoadsSafely encver (rdbStream seed segmentSize fpSize reallocations rawData) ↔
      0 < encver ∨ 1 ≤ segmentSize.toUInt32.toNat ∧ ValidFp fpSize.toUInt32 ∧
        rawData.length = fpBytes fpSize.toUInt32 (3 * segmentSize.toUInt32.toNat) := by
  by_cases hver : 0 < encver
  · exact iff_of_true (Or.inl (xorLoad_of_pos hver _)) (Or.inl hver)
  · have hload : xorLoad (rdbStream seed segmentSize fpSize reallocations rawData) encver =
        some (some { fingerprints := rawData, segmentSize := segmentSize.toUInt32
                     seed := seed.toUInt32, fpSize := fpSize.toUInt32
                     reallocations := reallocations.toUInt32 }) := by
      rw [xorLoad, if_neg hver]
      rfl
    simp only [LoadsSafely, hload, Option.some.injEq, reduceCtorEq, false_or, exists_eq_left',
      safeToUse_iff, hver]

/-- Five items without a segment are loaded, and the first lookup divides by zero. -/
theorem xorLoad_divides_by_zero :
    ¬ LoadsSafely 0 (rdbStream 0 0 8 0 []) ∧
      ∃ f, xorLoad (rdbStream 0 0 8 0 []) 0 = some (some f) ∧ f.segmentSize = 0 ∧
        ¬ CheckSafe hashBuild f [] := by
  refine ⟨?_, ⟨[], 0, 0, 8, 0⟩, rfl, rfl, fun h => h.segmentSize_ne_zero rfl⟩
  rintro (hnull | ⟨f, hf, hsafe⟩)
  · cases hnull
  · cases hf
    exact absurd hsafe.segmentSize_pos (by decide)

end RedisXor
