import Mathlib.Data.Int.CardIntervalMod
import RedisXor.Proofs.Rates

/-! Where the keys go. Over all 64-bit hashes, at every seed, the first two slots
of `Hash_Transform` are independent of one another, and the third slot of the
fingerprint; each slot is hit as evenly as a remainder allows. -/

namespace RedisXor

open Balance

/-- How many 32-bit words leave the remainder `j`. -/
def share (s j : ℕ) : ℕ := 2 ^ 32 / s + if j < 2 ^ 32 % s then 1 else 0

theorem card_toNat (p : ℕ → Prop) [DecidablePred p] :
    Nat.card {x : UInt32 // p x.toNat} = Nat.count p (2 ^ 32) := by
  let e : {x : UInt32 // p x.toNat} ≃ {k // k ∈ (Finset.range (2 ^ 32)).filter p} :=
    { toFun := fun x => ⟨x.1.toNat, Finset.mem_filter.2 ⟨Finset.mem_range.2 x.1.toNat_lt, x.2⟩⟩
      invFun := fun k => ⟨UInt32.ofNat k.1, by
        obtain ⟨hlt, hp⟩ := Finset.mem_filter.1 k.2
        rwa [UInt32.toNat_ofNat_of_lt' (Finset.mem_range.1 hlt)]⟩
      left_inv := fun x => Subtype.ext (UInt32.ofNat_toNat)
      right_inv := fun k => Subtype.ext
        (UInt32.toNat_ofNat_of_lt' (Finset.mem_range.1 (Finset.mem_filter.1 k.2).1)) }
  rw [Nat.card_congr e, Nat.card_eq_fintype_card, Fintype.card_coe, Nat.count_eq_card_filter_range]

theorem card_remainder {s j : ℕ} (hj : j < s) :
    Nat.card {x : UInt32 // x.toNat % s = j} = share s j := by
  have hcount := Nat.count_modEq_card (2 ^ 32) (Nat.zero_lt_of_lt hj) j
  rw [Nat.mod_eq_of_lt hj] at hcount
  rw [share, ← hcount, ← card_toNat]
  refine Nat.card_congr (Equiv.subtypeEquivRight fun x => ?_)
  rw [Nat.ModEq, Nat.mod_eq_of_lt hj]

/-- The halves of a word are independent. -/
theorem card_halves (p q : UInt32 → Prop) :
    Nat.card {raw : UInt64 // p (raw >>> 32).toUInt32 ∧ q raw.toUInt32} =
      Nat.card {upper // p upper} * Nat.card {lower // q lower} := by
  have h := (balanced_of_bijective joinWord_bijective).card_preimage
    fun raw => p (raw >>> 32).toUInt32 ∧ q raw.toUInt32
  rw [Nat.one_mul] at h
  rw [← h, ← Nat.card_prod, ← Nat.card_congr Equiv.subtypeProdEquivProd]
  refine Nat.card_congr (Equiv.subtypeEquivRight fun w => ?_)
  rw [upper_joinWord, lower_joinWord]

theorem card_mixedRaw0 (seed : ℕ) (p : UInt64 → Prop) :
    Nat.card {hash // p (mixedRaw0 hash seed)} = Nat.card {raw // p raw} := by
  have hbij := (mixedRaw0_injective seed).bijective_of_finite
  rw [(balanced_of_bijective hbij).card_preimage, Nat.one_mul]

theorem card_mixedRaw1 (seed : ℕ) (p : UInt64 → Prop) :
    Nat.card {hash // p (mixedRaw1 hash seed)} = Nat.card {raw // p raw} := by
  have hbij := (mixedRaw1_injective seed).bijective_of_finite
  rw [(balanced_of_bijective hbij).card_preimage, Nat.one_mul]

section Spread

variable {s : ℕ}

/-- The slot is the remainder, moved into its segment. -/
theorem wrap32_slot_iff (hs : 0 < s) {k : ℕ} (hk : (k + 1) * s ≤ 2 ^ 32) (x : UInt32) (j : ℕ) :
    wrap32 (x.toNat % s + k * s) = k * s + j ↔ x.toNat % s = j := by
  have hlt := Nat.mod_lt x.toNat hs
  rw [Nat.add_mul, Nat.one_mul] at hk
  rw [wrap32_of_lt (by omega), Nat.add_comm, Nat.add_left_cancel_iff]

theorem card_first_slots (hs : 0 < s) (h2 : 2 * s ≤ 2 ^ 32) (seed w : ℕ) {i j : ℕ} (hi : i < s)
    (hj : j < s) : Nat.card {hash // (hashTransform hash s seed w).h0 = i ∧
      (hashTransform hash s seed w).h1 = s + j} = share s i * share s j := by
  have hslots (hash : UInt64) : ((hashTransform hash s seed w).h0 = i ∧
      (hashTransform hash s seed w).h1 = s + j) ↔
      ((mixedRaw0 hash seed >>> 32).toUInt32.toNat % s = j ∧
        (mixedRaw0 hash seed).toUInt32.toNat % s = i) := by
    have h0 := wrap32_slot_iff hs (show (0 + 1) * s ≤ 2 ^ 32 by omega)
      (mixedRaw0 hash seed).toUInt32 i
    have h1 := wrap32_slot_iff hs (show (1 + 1) * s ≤ 2 ^ 32 by omega)
      (mixedRaw0 hash seed >>> 32).toUInt32 j
    rw [Nat.zero_mul, Nat.add_zero, Nat.zero_add] at h0
    rw [Nat.one_mul] at h1
    rw [and_comm, hashTransform_eq_cut]
    exact and_congr h1 h0
  rw [Nat.card_congr (Equiv.subtypeEquivRight hslots),
    card_mixedRaw0 seed fun raw => (raw >>> 32).toUInt32.toNat % s = j ∧ raw.toUInt32.toNat % s = i,
    card_halves (fun upper => upper.toNat % s = j) fun lower => lower.toNat % s = i,
    card_remainder hi, card_remainder hj, Nat.mul_comm]

theorem card_last_slot (hs : 0 < s) (h3 : 3 * s ≤ 2 ^ 32) (seed : ℕ) {fpSize : FingerprintSize}
    (hfp : ValidFp fpSize) {j t : ℕ} (hj : j < s) (ht : t < 2 ^ fpSize.toNat) :
    Nat.card {hash // (hashTransform hash s seed fpSize.toNat).h2 = 2 * s + j ∧
      (hashTransform hash s seed fpSize.toNat).fingerprint.toNat = t} =
        share s j * (2 ^ (32 - fpSize.toNat) * codesOf t) := by
  -- the fingerprint is cut from the upper half alone
  have hupper (raw : UInt64) : cutFingerprint raw fpSize.toNat =
      cutFingerprint (joinWord (raw >>> 32).toUInt32 0) fpSize.toNat := by
    unfold cutFingerprint
    rw [upper_joinWord]
  have hslot (hash : UInt64) : ((hashTransform hash s seed fpSize.toNat).h2 = 2 * s + j ∧
      (hashTransform hash s seed fpSize.toNat).fingerprint.toNat = t) ↔
      ((cutFingerprint (joinWord (mixedRaw1 hash seed >>> 32).toUInt32 0) fpSize.toNat).toNat = t ∧
        (mixedRaw1 hash seed).toUInt32.toNat % s = j) := by
    have h2 := wrap32_slot_iff hs (show (2 + 1) * s ≤ 2 ^ 32 by omega)
      (mixedRaw1 hash seed).toUInt32 j
    rw [and_comm, hashTransform_eq_cut, ← hupper]
    exact and_congr Iff.rfl h2
  rw [Nat.card_congr (Equiv.subtypeEquivRight hslot),
    card_mixedRaw1 seed fun raw =>
      (cutFingerprint (joinWord (raw >>> 32).toUInt32 0) fpSize.toNat).toNat = t ∧
        raw.toUInt32.toNat % s = j,
    card_halves (fun upper => (cutFingerprint (joinWord upper 0) fpSize.toNat).toNat = t)
      fun lower => lower.toNat % s = j,
    card_fingerprints hfp ht, card_remainder hj, Nat.mul_comm]

end Spread

/-- For every seed the slots and the fingerprint are spread over the hashes as if
they were drawn by two independent draws each: the first slot and the second, and
the third and the fingerprint, in which a one counts twice and a zero never. -/
theorem hashTransform_spread {s : ℕ} (hs : 0 < s) (h3 : 3 * s ≤ 2 ^ 32) (seed : ℕ)
    {fpSize : FingerprintSize} (hfp : ValidFp fpSize) :
    (∀ i < s, ∀ j < s, Nat.card {hash // (hashTransform hash s seed fpSize.toNat).h0 = i ∧
      (hashTransform hash s seed fpSize.toNat).h1 = s + j} = share s i * share s j) ∧
    (∀ j < s, ∀ t < 2 ^ fpSize.toNat,
      Nat.card {hash // (hashTransform hash s seed fpSize.toNat).h2 = 2 * s + j ∧
        (hashTransform hash s seed fpSize.toNat).fingerprint.toNat = t} =
          share s j * (2 ^ (32 - fpSize.toNat) * codesOf t)) :=
  ⟨fun _ hi _ hj => card_first_slots hs (by omega) seed _ hi hj,
    fun _ hj _ ht => card_last_slot hs h3 seed hfp hj ht⟩

/-- Three slots a segment: the first two share what is left over. -/
theorem hashTransform_spread_three :
    Nat.card {hash // (hashTransform hash 3 0 8).h0 = 0 ∧ (hashTransform hash 3 0 8).h1 = 3 + 2} =
      1431655766 * 1431655765 := by
  have h := (@hashTransform_spread 3 (by decide) (by decide) 0 FP8 (Or.inr (Or.inl rfl))).1
    0 (by decide) 2 (by decide)
  rw [show FP8.toNat = 8 from rfl] at h
  rw [h]
  rfl

end RedisXor
