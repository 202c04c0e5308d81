import RedisXor.Proofs.LoadChunk

/-! The RDB callbacks. `xor_save` and `xor_load` agree on the order of the
fields, their widths and the length of the table, but not on the version:
`xor_load` refuses every encoding version above 0, and the module registers
its type with version 1. -/

namespace RedisXor

/-- The filters a module may hold: `xor_build` makes no others. -/
structure WellFormed (f : XorFilter) : Prop where
  segmentSize_pos : 1 ≤ f.segmentSize.toNat
  segmentSize_lt : 3 * f.segmentSize.toNat < 2 ^ 32
  fpSize_valid : ValidFp f.fpSize
  length_eq : f.fingerprints.length = fpBytes f.fpSize (3 * f.segmentSize.toNat)

/-- What is written under a version is read back under it as the same filter,
whatever lies behind the table in memory. -/
def RoundTrips (encver : ℤ) (f : XorFilter) : Prop :=
  ∀ mem, xorLoad (xorSave mem f) encver = some (some f)

theorem toUInt32_toUInt64 (x : UInt32) : x.toUInt64.toUInt32 = x := by
  apply UInt32.toNat_inj.1
  rw [UInt64.toNat_toUInt32, UInt32.toNat_toUInt64]
  exact Nat.mod_eq_of_lt x.toNat_lt

theorem xorLoad_of_pos {encver : ℤ} (h : 0 < encver) (rdb : List RdbValue) :
    xorLoad rdb encver = some none := if_pos h

theorem xorLoad_xorSave {encver : ℤ} (h : encver ≤ 0) (mem : Memory) (f : XorFilter) :
    xorLoad (xorSave mem f) encver = some (some { f with
      fingerprints := readBuffer mem f.fingerprints
        (fpBytes f.fpSize (f.segmentSize.toNat * 3)) }) := by
  rw [xorLoad, if_neg (by omega), xorSave]
  simp only [loadUnsigned, loadStringBuffer, Option.bind_eq_bind, Option.bind_some,
    toUInt32_toUInt64]
  rfl

theorem RoundTrips.encver_le {encver : ℤ} {f : XorFilter} (h : RoundTrips encver f) :
    encver ≤ 0 := by
  by_contra hpos
  have hload := h default
  rw [xorLoad_of_pos (by omega)] at hload
  cases hload

/-- The version gate is all that stands between a filter and its round trip. -/
theorem roundTrips_iff {f : XorFilter} (hf : WellFormed f) (encver : ℤ) :
    RoundTrips encver f ↔ encver ≤ 0 := by
  refine ⟨RoundTrips.encver_le, fun h mem => ?_⟩
  rw [xorLoad_xorSave h, Nat.mul_comm, ← hf.length_eq, readBuffer_length]

/-- Under the registered version no filter comes back, and nothing but the
version stands in the way. -/
theorem registered_version_never_roundTrips (f : XorFilter) :
    ¬ RoundTrips xorFilterTypeEncver f ∧
      (WellFormed f → ∀ encver, RoundTrips encver f ↔ encver ≤ 0) :=
  ⟨fun h => absurd h.encver_le (by decide), roundTrips_iff⟩

theorem wellFormed_one_segment : WellFormed ⟨[7, 1, 2], 1, 3, FP8, 0⟩ :=
  ⟨by decide, by decide, Or.inr (Or.inl rfl), by decide +kernel⟩

/-- One slot in each segment: the filter comes back under version 0. -/
theorem registered_version_never_roundTrips_one_segment :
    ¬ RoundTrips xorFilterTypeEncver ⟨[7, 1, 2], 1, 3, FP8, 0⟩ ∧
      RoundTrips 0 ⟨[7, 1, 2], 1, 3, FP8, 0⟩ := by
  obtain ⟨hnever, hback⟩ := registered_version_never_roundTrips ⟨[7, 1, 2], 1, 3, FP8, 0⟩
  exact ⟨hnever, (hback wellFormed_one_segment 0).2 le_rfl⟩

/-- The same filter is written under the registered version and then lost. -/
theorem one_segment_lost :
    let f : XorFilter := { fingerprints := [7, 1, 2], segmentSize := 1, seed := 3, fpSize := FP8,
                           reallocations := 0 }
    WellFormed f ∧ xorLoad (xorSave default f) 0 = some (some f) ∧
      xorLoad (xorSave default f) xorFilterTypeEncver = some none ∧
      ¬ RoundTrips xorFilterTypeEncver f := by
  intro f
  exact ⟨wellFormed_one_segment, by decide +kernel, by decide +kernel,
    fun h => absurd h.encver_le (by decide)⟩

end RedisXor
