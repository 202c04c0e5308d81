import RedisXor.Proofs.Dedup
import RedisXor.Proofs.Hashes

/-! The slots and the fingerprint of a key are cut from two 64-bit words. At
every seed both words are injective in the hash of the key, so whatever two keys
share they share because of the reduction, or because their hashes are equal;
and equal hashes do not get past the deduplication. -/

namespace RedisXor

theorem mix_bijective : Function.Bijective mix :=
  ⟨Function.LeftInverse.injective unmix_mix, Function.RightInverse.surjective mix_unmix⟩

/-- The first word of `Hash_Transform` and `Hash_Transform_No_Fingerprint`. -/
def mixedRaw0 (oldHash : UInt64) (seed : ℕ) : UInt64 :=
  mix (oldHash + UInt64.ofNat seed + 0x9E3779B97F4A7C15)

def mixedRaw1 (oldHash : UInt64) (seed : ℕ) : UInt64 :=
  mix (oldHash + UInt64.ofNat seed + 0xBF58476D1CE4E5B9)

/-- What is cut from the two words. -/
def cutSlots (raw0 raw1 : UInt64) (segmentSize : ℕ) : HashNoFP :=
  { h0 := wrap32 (raw0.toUInt32.toNat % segmentSize)
    h1 := wrap32 ((raw0 >>> 32).toUInt32.toNat % segmentSize + segmentSize)
    h2 := wrap32 (raw1.toUInt32.toNat % segmentSize + 2 * segmentSize) }

def cutFingerprint (raw1 : UInt64) (fpBits : ℕ) : UInt32 :=
  let fpMask : UInt32 :=
    if 32 ≤ fpBits then 0xFFFFFFFF else (1 <<< UInt32.ofNat fpBits) - 1
  let fingerprint := (raw1 >>> 32).toUInt32 &&& fpMask
  if fingerprint = 0 then 1 else fingerprint

theorem hashTransformNoFingerprint_eq_cut (oldHash : UInt64) (segmentSize seed : ℕ) :
    hashTransformNoFingerprint oldHash segmentSize seed =
      cutSlots (mixedRaw0 oldHash seed) (mixedRaw1 oldHash seed) segmentSize := rfl

theorem hashTransform_eq_cut (oldHash : UInt64) (segmentSize seed fpBits : ℕ) :
    hashTransform oldHash segmentSize seed fpBits =
      let slots := cutSlots (mixedRaw0 oldHash seed) (mixedRaw1 oldHash seed) segmentSize
      { fingerprint := cutFingerprint (mixedRaw1 oldHash seed) fpBits
        h0 := slots.h0, h1 := slots.h1, h2 := slots.h2 } := rfl

theorem add_seed_injective (seed : ℕ) (c : UInt64) :
    Function.Injective fun oldHash : UInt64 => oldHash + UInt64.ofNat seed + c := by
  intro a b h
  exact (UInt64.add_left_inj _).1 ((UInt64.add_left_inj c).1 h)

theorem mixedRaw0_injective (seed : ℕ) : Function.Injective fun a => mixedRaw0 a seed :=
  mix_bijective.injective.comp (add_seed_injective seed _)

theorem mixedRaw1_injective (seed : ℕ) : Function.Injective fun a => mixedRaw1 a seed :=
  mix_bijective.injective.comp (add_seed_injective seed _)

/-- Before reduction, the seed tells the two hashes apart in either word. -/
def Separates (seed : ℕ) (a b : UInt64) : Prop :=
  mixedRaw0 a seed ≠ mixedRaw0 b seed ∧ mixedRaw1 a seed ≠ mixedRaw1 b seed

theorem separates_iff (seed : ℕ) (a b : UInt64) : Separates seed a b ↔ a ≠ b := by
  refine ⟨?_, fun h => ⟨(mixedRaw0_injective seed).ne h, (mixedRaw1_injective seed).ne h⟩⟩
  rintro ⟨h, -⟩ rfl
  exact h rfl

/-- The mixer merges no keys: every seed separates every two hashes, and so
every two entries of the array that `xor_build` receives. -/
theorem mixer_merges_no_keys :
    Function.Bijective mix ∧
    (∀ oldHash segmentSize seed fpBits,
      hashTransformNoFingerprint oldHash segmentSize seed =
        cutSlots (mixedRaw0 oldHash seed) (mixedRaw1 oldHash seed) segmentSize ∧
      hashTransform oldHash segmentSize seed fpBits =
        let slots := cutSlots (mixedRaw0 oldHash seed) (mixedRaw1 oldHash seed) segmentSize
        { fingerprint := cutFingerprint (mixedRaw1 oldHash seed) fpBits
          h0 := slots.h0, h1 := slots.h1, h2 := slots.h2 }) ∧
    (∀ seed a b, a ≠ b → Separates seed a b) ∧
    ∀ (qsort : Qsort) (raw : List UInt64),
      (∀ a, a ∈ dedup (qsort.run raw) ↔ a ∈ raw) ∧
      (dedup (qsort.run raw)).Pairwise fun a b => ∀ seed, Separates seed a b := by
  refine ⟨mix_bijective, fun oldHash segmentSize seed fpBits =>
    ⟨hashTransformNoFingerprint_eq_cut _ _ _, hashTransform_eq_cut _ _ _ _⟩,
    fun seed a b => (separates_iff seed a b).2, fun qsort raw => ⟨mem_dedup_qsort qsort raw, ?_⟩⟩
  exact (dedup_sorted (qsort.pairwise_le raw)).imp fun hlt seed =>
    (separates_iff seed _ _).2 (UInt64.ne_of_lt hlt)

theorem mixer_separates_two_hashes : Separates 100 1 2 := by
  obtain ⟨-, -, hseparates, -⟩ := mixer_merges_no_keys
  exact hseparates 100 1 2 (by decide)

end RedisXor
