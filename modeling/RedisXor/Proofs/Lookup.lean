import RedisXor.Proofs.Cells

/-! When a lookup is defined: `xor_check` divides by the segment size and reads
three cells, and it checks neither. -/

namespace RedisXor

open Arrays

section Inside

variable {f : XorFilter}

/-- The bound on an access is a bound on each byte it touches. -/
theorem readsInside_iff_touchedBytes (hfp : ValidFp f.fpSize) (idx : ℕ) :
    ReadsInside f idx ↔ ∀ k ∈ touchedBytes f.fpSize idx, k < f.fingerprints.length := by
  rw [ReadsInside]
  rcases hfp with h | h | h | h
  · rw [h, if_pos rfl]
    change _ ↔ ∀ k ∈ [idx >>> 1], _
    rw [List.forall_mem_singleton]
  · rw [h, if_neg (by decide), if_pos rfl]
    change _ ↔ ∀ k ∈ List.range' (1 * idx) 1, _
    rw [forall_mem_range' (by decide)]
    omega
  · rw [h, if_neg (by decide), if_neg (by decide), if_pos rfl]
    exact (forall_mem_range' (by decide)).symm
  · rw [h, if_neg (by decide), if_neg (by decide), if_neg (by decide), if_pos rfl]
    exact (forall_mem_range' (by decide)).symm

/-- The cells of a table are inside it; those of a width that `fp_get` does not
know are not read at all. -/
theorem readsInside_of_lt {m : ℕ} (hlen : f.fingerprints.length = fpBytes f.fpSize m) {idx : ℕ}
    (hidx : idx < m) : ReadsInside f idx := by
  by_cases hfp : ValidFp f.fpSize
  · exact (readsInside_iff_touchedBytes hfp idx).2 (touchedBytes_inside hfp hlen hidx)
  · simp only [ValidFp, not_or] at hfp
    obtain ⟨h4, h8, h16, h32⟩ := hfp
    rw [ReadsInside, if_neg h4, if_neg h8, if_neg h16, if_neg h32]
    trivial

theorem fpRead_of_inside {idx : ℕ} (h : ReadsInside f idx) : fpRead f idx = some (fpGet f idx) :=
  if_pos h

theorem fpRead_of_not_inside {idx : ℕ} (h : ¬ ReadsInside f idx) : fpRead f idx = none := if_neg h

end Inside

/-- The lookup of `item` neither divides by zero nor leaves the table. -/
structure CheckSafe (hashBuild : List UInt8 → UInt64) (f : XorFilter) (item : List UInt8) :
    Prop where
  segmentSize_ne_zero : f.segmentSize.toNat ≠ 0
  inside : let h := hashTransform (hashBuild item) f.segmentSize.toNat f.seed.toNat f.fpSize.toNat
    ReadsInside f h.h0 ∧ ReadsInside f h.h1 ∧ ReadsInside f h.h2

section Check

variable {hashBuild : List UInt8 → UInt64} {f : XorFilter} {item : List UInt8}

/-- The answer of a lookup that is safe. -/
theorem CheckSafe.xorCheck_eq (h : CheckSafe hashBuild f item) : xorCheck hashBuild f item =
    let h := hashTransform (hashBuild item) f.segmentSize.toNat f.seed.toNat f.fpSize.toNat
    some ((fpGet f h.h0 ^^^ fpGet f h.h1 ^^^ fpGet f h.h2) == h.fingerprint) := by
  obtain ⟨hne, hin0, hin1, hin2⟩ := h
  have hseg : f.segmentSize ≠ 0 := fun hzero => hne (by rw [hzero]; rfl)
  simp only [xorCheck, if_neg hseg, fpRead_of_inside hin0, fpRead_of_inside hin1,
    fpRead_of_inside hin2]
  rfl

/-- The lookups that are defined are the safe ones. -/
theorem xorCheck_isSome_iff : (xorCheck hashBuild f item).isSome ↔ CheckSafe hashBuild f item := by
  refine ⟨fun hsome => ?_, fun h => by rw [h.xorCheck_eq]; rfl⟩
  obtain ⟨found, hfound⟩ := Option.isSome_iff_exists.1 hsome
  rw [xorCheck] at hfound
  split_ifs at hfound with hseg
  have hin {idx : ℕ} {value : UInt32} (h : fpRead f idx = some value) : ReadsInside f idx := by
    by_contra hout
    rw [fpRead_of_not_inside hout] at h
    cases h
  obtain ⟨fp0, h0, hfound⟩ := Option.bind_eq_some_iff.1 hfound
  obtain ⟨fp1, h1, hfound⟩ := Option.bind_eq_some_iff.1 hfound
  obtain ⟨fp2, h2, -⟩ := Option.bind_eq_some_iff.1 hfound
  exact ⟨fun hzero => hseg (UInt32.toNat_inj.1 hzero), hin h0, hin h1, hin h2⟩

theorem wrap32_le (n : ℕ) : wrap32 n ≤ n := Nat.mod_le n _

/-- The slots of an item stay below the slot count even where their sum wraps. -/
theorem hashTransform_lt {s : ℕ} (hs : 0 < s) (hash : UInt64) (seed fpBits : ℕ) :
    let h := hashTransform hash s seed fpBits
    h.h0 < 3 * s ∧ h.h1 < 3 * s ∧ h.h2 < 3 * s := by
  have hslot (r c : ℕ) (hc : c ≤ 2 * s) : wrap32 (r % s + c) < 3 * s := by
    have hr := Nat.mod_lt r hs
    have hw := wrap32_le (r % s + c)
    omega
  simp only [hashTransform]
  refine ⟨?_, hslot _ s (by omega), hslot _ (2 * s) le_rfl⟩
  rw [← Nat.add_zero (_ % s)]
  exact hslot _ 0 (Nat.zero_le _)

/-- A table of the full length serves every item. -/
theorem checkSafe_of_length (hpos : 1 ≤ f.segmentSize.toNat)
    (hlen : f.fingerprints.length = fpBytes f.fpSize (3 * f.segmentSize.toNat))
    (hash : List UInt8 → UInt64) (item : List UInt8) : CheckSafe hash f item := by
  obtain ⟨h0, h1, h2⟩ := hashTransform_lt hpos (hash item) f.seed.toNat f.fpSize.toNat
  exact ⟨by omega, readsInside_of_lt hlen h0, readsInside_of_lt hlen h1, readsInside_of_lt hlen h2⟩

end Check

end RedisXor
