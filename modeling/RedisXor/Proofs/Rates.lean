import Mathlib.Data.Fintype.BigOperators
import RedisXor.Proofs.Load
import RedisXor.Proofs.Mixer
import RedisXor.Proofs.Uniform

/-! How often a filter answers yes. The lookup compares three cells of the table
with the low bits of a 32-bit word that chose none of them, so of the values of
that word it accepts the share that two to the width of a fingerprint leaves;
but because no fingerprint is zero, one is twice as frequent, and zero is never
met. -/

namespace RedisXor

open Balance

/-- What the table holds for the slots cut from the two words. -/
def tableValue (f : XorFilter) (raw0 raw1 : UInt64) : UInt32 :=
  let slots := cutSlots raw0 raw1 f.segmentSize.toNat
  fpGet f slots.h0 ^^^ fpGet f slots.h1 ^^^ fpGet f slots.h2

/-- The answer, from the two words mixed from the hash. -/
def wordsAccepted (f : XorFilter) (raw0 raw1 : UInt64) : Bool :=
  tableValue f raw0 raw1 == cutFingerprint raw1 f.fpSize.toNat

theorem xorCheck_eq_words (hashBuild : List UInt8 → UInt64) {f : XorFilter} (h : SafeToUse f)
    (item : List UInt8) : xorCheck hashBuild f item =
      some (wordsAccepted f (mixedRaw0 (hashBuild item) f.seed.toNat)
        (mixedRaw1 (hashBuild item) f.seed.toNat)) :=
  (h.check hashBuild item).xorCheck_eq

/-- The second word from its halves: `upper` gives the fingerprint, `lower` the
third slot. -/
def joinWord (upper lower : UInt32) : UInt64 :=
  UInt64.ofNat (upper.toNat * 2 ^ 32 + lower.toNat)

theorem toNat_joinWord (upper lower : UInt32) :
    (joinWord upper lower).toNat = upper.toNat * 2 ^ 32 + lower.toNat := by
  have hu := upper.toNat_lt
  have hl := lower.toNat_lt
  rw [joinWord, UInt64.toNat_ofNat']
  omega

theorem card_uInt32 : Nat.card UInt32 = 2 ^ 32 := by
  rw [Nat.card_eq_fintype_card, ← FinEnum.card_eq_fintypeCard]
  exact FinEnum.card_UInt32

theorem joinWord_bijective :
    Function.Bijective fun p : UInt32 × UInt32 => joinWord p.1 p.2 := by
  have hinj : Function.Injective fun p : UInt32 × UInt32 => joinWord p.1 p.2 := by
    rintro ⟨u, l⟩ ⟨u', l'⟩ h
    have hval := congrArg UInt64.toNat h
    simp only [toNat_joinWord] at hval
    have hl := l.toNat_lt
    have hl' := l'.toNat_lt
    obtain rfl : u = u' := UInt32.toNat_inj.1 (by omega)
    obtain rfl : l = l' := UInt32.toNat_inj.1 (by omega)
    rfl
  refine hinj.bijective_of_nat_card_le ?_
  rw [Nat.card_prod, card_uInt64, card_uInt32, ← pow_add]

theorem upper_joinWord (upper lower : UInt32) : (joinWord upper lower >>> 32).toUInt32 = upper := by
  have hu := upper.toNat_lt
  have hl := lower.toNat_lt
  apply UInt32.toNat_inj.1
  rw [UInt64.toNat_toUInt32, UInt64.toNat_shiftRight, toNat_joinWord, Nat.shiftRight_eq_div_pow]
  change (upper.toNat * 2 ^ 32 + lower.toNat) / 2 ^ 32 % 2 ^ 32 = upper.toNat
  omega

theorem lower_joinWord (upper lower : UInt32) : (joinWord upper lower).toUInt32 = lower := by
  have hl := lower.toNat_lt
  apply UInt32.toNat_inj.1
  rw [UInt64.toNat_toUInt32, toNat_joinWord]
  omega

/-- The slots do not depend on the upper half of the second word. -/
theorem tableValue_joinWord (f : XorFilter) (raw0 : UInt64) (upper upper' lower : UInt32) :
    tableValue f raw0 (joinWord upper lower) = tableValue f raw0 (joinWord upper' lower) := by
  simp only [tableValue, cutSlots, lower_joinWord]

/-! Fingerprints -/

/-- The low bits of a word, by position. -/
def lowBits (w : ℕ) (upper : UInt32) : Fin (2 ^ w) :=
  ⟨upper.toNat % 2 ^ w, Nat.mod_lt _ (Nat.two_pow_pos w)⟩

/-- A word from its low bits and the others. -/
def splitWord (w : ℕ) (p : Fin (2 ^ w) × Fin (2 ^ (32 - w))) : UInt32 :=
  UInt32.ofNat (p.1.val + 2 ^ w * p.2.val)

theorem toNat_splitWord {w : ℕ} (hw : w ≤ 32) (p : Fin (2 ^ w) × Fin (2 ^ (32 - w))) :
    (splitWord w p).toNat = p.1.val + 2 ^ w * p.2.val := by
  have hpow : 2 ^ w * 2 ^ (32 - w) = 2 ^ 32 := by rw [← pow_add, Nat.add_sub_cancel' hw]
  have hle : 2 ^ w * (p.2.val + 1) ≤ 2 ^ w * 2 ^ (32 - w) :=
    Nat.mul_le_mul_left _ p.2.isLt
  rw [Nat.mul_succ, hpow] at hle
  have hlt := p.1.isLt
  exact UInt32.toNat_ofNat_of_lt' (show p.1.val + 2 ^ w * p.2.val < 2 ^ 32 by omega)

theorem splitWord_bijective {w : ℕ} (hw : w ≤ 32) : Function.Bijective (splitWord w) := by
  have hinj : Function.Injective (splitWord w) := by
    rintro ⟨a, b⟩ ⟨a', b'⟩ h
    have hval := congrArg UInt32.toNat h
    rw [toNat_splitWord hw, toNat_splitWord hw] at hval
    have hlow := congrArg (· % 2 ^ w) hval
    simp only [Nat.add_mul_mod_self_left, Nat.mod_eq_of_lt a.isLt, Nat.mod_eq_of_lt a'.isLt] at hlow
    rw [hlow, Nat.add_left_cancel_iff] at hval
    have hhigh := Nat.eq_of_mul_eq_mul_left (Nat.two_pow_pos w) hval
    exact Prod.ext (Fin.ext hlow) (Fin.ext hhigh)
  refine hinj.bijective_of_nat_card_le ?_
  rw [Nat.card_prod, Nat.card_fin, Nat.card_fin, card_uInt32, ← pow_add, Nat.add_sub_cancel' hw]

theorem lowBits_balanced {w : ℕ} (hw : w ≤ 32) : Balanced (lowBits w) (2 ^ (32 - w)) := by
  refine Balanced.of_comp_bijective (splitWord_bijective hw) ?_
  have hlow (p : Fin (2 ^ w) × Fin (2 ^ (32 - w))) : lowBits w (splitWord w p) = p.1 := by
    apply Fin.ext
    simp only [lowBits, toNat_splitWord hw, Nat.add_mul_mod_self_left, Nat.mod_eq_of_lt p.1.isLt]
  simp only [hlow]
  have h := balanced_of_fst (f := fun p : Fin (2 ^ w) × Fin (2 ^ (32 - w)) => p.1) (c := 1)
    fun _ => balanced_of_bijective Function.bijective_id
  rwa [Nat.card_fin, Nat.one_mul] at h

theorem ValidFp.bits_bounds {fpSize : FingerprintSize} (hfp : ValidFp fpSize) :
    1 ≤ fpSize.toNat ∧ fpSize.toNat ≤ 32 := by
  rcases hfp with rfl | rfl | rfl | rfl <;> decide

/-- The fingerprint of a word is its low bits, zero counting as one. -/
theorem toNat_cutFingerprint {fpSize : FingerprintSize} (hfp : ValidFp fpSize)
    (upper lower : UInt32) : (cutFingerprint (joinWord upper lower) fpSize.toNat).toNat =
      if (lowBits fpSize.toNat upper).val = 0 then 1 else (lowBits fpSize.toNat upper).val := by
  have hmask (mask : UInt32) (w : ℕ) (hm : mask.toNat = 2 ^ w - 1) :
      (if upper &&& mask = 0 then 1 else upper &&& mask : UInt32).toNat =
        if (lowBits w upper).val = 0 then 1 else (lowBits w upper).val := by
    have hval : (upper &&& mask).toNat = (lowBits w upper).val := by
      rw [UInt32.toNat_and, hm, Nat.and_two_pow_sub_one_eq_mod, lowBits]
    have hzero : upper &&& mask = 0 ↔ (lowBits w upper).val = 0 := by
      rw [← hval, ← UInt32.toNat_inj]
      rfl
    by_cases h : (lowBits w upper).val = 0
    · rw [if_pos (hzero.2 h), if_pos h]
      rfl
    · rw [if_neg fun h' => h (hzero.1 h'), if_neg h, hval]
  simp only [cutFingerprint, upper_joinWord]
  rcases hfp with rfl | rfl | rfl | rfl
  · exact hmask _ 4 (by decide)
  · exact hmask _ 8 (by decide)
  · exact hmask _ 16 (by decide)
  · exact hmask _ 32 (by decide)

/-- How many low bits give a fingerprint. -/
def codesOf (t : ℕ) : ℕ := if t = 0 then 0 else if t = 1 then 2 else 1

theorem card_codes {w t : ℕ} (hw : 1 ≤ w) (ht : t < 2 ^ w) :
    Nat.card {x : Fin (2 ^ w) // (if x.val = 0 then 1 else x.val) = t} = codesOf t := by
  have htwo : 2 ≤ 2 ^ w := by
    have := Nat.pow_le_pow_right (show 0 < 2 by decide) hw
    omega
  rw [Nat.card_eq_fintype_card, Fintype.card_subtype, codesOf]
  by_cases h0 : t = 0
  · rw [if_pos h0, Finset.card_eq_zero, Finset.filter_eq_empty_iff]
    intro x _
    split_ifs <;> omega
  rw [if_neg h0]
  by_cases h1 : t = 1
  · subst h1
    have hpair : (Finset.univ.filter fun x : Fin (2 ^ w) => (if x.val = 0 then 1 else x.val) = 1) =
        {⟨0, by omega⟩, ⟨1, by omega⟩} := by
      ext x
      simp only [Finset.mem_filter, Finset.mem_univ, true_and, Finset.mem_insert,
        Finset.mem_singleton, Fin.ext_iff]
      split_ifs <;> omega
    rw [if_pos rfl, hpair]
    exact Finset.card_pair fun h => absurd (Fin.mk.inj h) (by decide)
  · have hone : (Finset.univ.filter fun x : Fin (2 ^ w) => (if x.val = 0 then 1 else x.val) = t) =
        {⟨t, ht⟩} := by
      ext x
      simp only [Finset.mem_filter, Finset.mem_univ, true_and, Finset.mem_singleton, Fin.ext_iff]
      split_ifs <;> omega
    rw [if_neg h1, hone, Finset.card_singleton]

/-- How many upper halves give a fingerprint. -/
theorem card_fingerprints {fpSize : FingerprintSize} (hfp : ValidFp fpSize) {t : ℕ}
    (ht : t < 2 ^ fpSize.toNat) (lower : UInt32) :
    Nat.card {upper : UInt32 // (cutFingerprint (joinWord upper lower) fpSize.toNat).toNat = t} =
      2 ^ (32 - fpSize.toNat) * codesOf t := by
  obtain ⟨h1, h32⟩ := hfp.bits_bounds
  rw [← card_codes h1 ht, ← (lowBits_balanced h32).card_preimage]
  refine Nat.card_congr (Equiv.subtypeEquivRight fun upper => ?_)
  rw [toNat_cutFingerprint hfp]

/-- Among items that are spread evenly, as many in proportion are accepted as hashes. -/
theorem card_items_accepted (hash : List UInt8 → UInt64) {f : XorFilter} (h : SafeToUse f)
    {n c : ℕ} (hash_balanced : Balanced (fun item : List.Vector UInt8 n => hash item.val) c) :
    Nat.card {item : List.Vector UInt8 n // xorCheck hash f item.val = some true} =
      c * Nat.card {h : UInt64 // wordsAccepted f
        (mixedRaw0 h f.seed.toNat) (mixedRaw1 h f.seed.toNat) = true} := by
  rw [← hash_balanced.card_preimage]
  refine Nat.card_congr (Equiv.subtypeEquivRight fun item => ?_)
  rw [xorCheck_eq_words hash h, Option.some.injEq]

theorem card_items_of_length {f : XorFilter} (h : SafeToUse f) {n : ℕ} (hn : 16 ≤ n) :
    Nat.card {item : List.Vector UInt8 n // xorCheck hashBuild f item.val = some true} =
      2 ^ (8 * n - 64) * Nat.card {hash : UInt64 // wordsAccepted f
        (mixedRaw0 hash f.seed.toNat) (mixedRaw1 hash f.seed.toNat) = true} :=
  card_items_accepted _ h (balanced_of_length hn)

section Rate

variable {f : XorFilter}

theorem tableValue_lt (hfp : ValidFp f.fpSize) (raw0 raw1 : UInt64) :
    (tableValue f raw0 raw1).toNat < 2 ^ f.fpSize.toNat := by
  unfold tableValue
  rw [UInt32.toNat_xor, UInt32.toNat_xor]
  exact Nat.xor_lt_two_pow (Nat.xor_lt_two_pow (fpGet_lt hfp _) (fpGet_lt hfp _)) (fpGet_lt hfp _)

/-- The upper halves that are accepted, once the slots are chosen. -/
theorem card_uppers (hfp : ValidFp f.fpSize) (raw0 : UInt64) (lower : UInt32) :
    Nat.card {upper : UInt32 // wordsAccepted f raw0 (joinWord upper lower) = true} =
      2 ^ (32 - f.fpSize.toNat) * codesOf (tableValue f raw0 (joinWord 0 lower)).toNat := by
  rw [← card_fingerprints hfp (tableValue_lt hfp raw0 _) lower]
  refine Nat.card_congr (Equiv.subtypeEquivRight fun upper => ?_)
  rw [wordsAccepted, beq_iff_eq, tableValue_joinWord f raw0 upper 0 lower, ← UInt32.toNat_inj]
  exact eq_comm

/-- Over all words, at most twice the share that the width of a fingerprint leaves. -/
theorem card_words_le (hfp : ValidFp f.fpSize) :
    Nat.card {raw : UInt64 × UInt64 // wordsAccepted f raw.1 raw.2 = true} *
      2 ^ f.fpSize.toNat ≤ 2 * 2 ^ 128 := by
  obtain ⟨-, h32⟩ := hfp.bits_bounds
  -- sorted by the halves that choose the slots
  let join (p : UInt32 × (UInt64 × UInt32)) : UInt64 × UInt64 := (p.2.1, joinWord p.1 p.2.2)
  have hjoin : Function.Bijective join := by
    constructor
    · rintro ⟨u, r, l⟩ ⟨u', r', l'⟩ h
      obtain ⟨rfl, hword⟩ := Prod.mk.inj h
      have heq : (u, l) = (u', l') := joinWord_bijective.injective hword
      obtain ⟨rfl, rfl⟩ := Prod.mk.inj heq
      rfl
    · rintro ⟨r, raw1⟩
      obtain ⟨⟨u, l⟩, rfl⟩ := joinWord_bijective.surjective raw1
      exact ⟨(u, r, l), rfl⟩
  have hcodes (t : ℕ) : codesOf t ≤ 2 := by
    unfold codesOf
    split_ifs <;> omega
  have hle : Nat.card {p // wordsAccepted f (join p).1 (join p).2 = true} ≤
      2 ^ (32 - f.fpSize.toNat) * 2 * Nat.card (UInt64 × UInt32) := by
    refine card_le_of_fst fun q => ?_
    rw [card_uppers hfp q.1 q.2]
    exact Nat.mul_le_mul_left _ (hcodes _)
  have hcard := (balanced_of_bijective hjoin).card_preimage
    fun raw => wordsAccepted f raw.1 raw.2 = true
  rw [hcard, Nat.one_mul, Nat.card_prod, card_uInt64, card_uInt32] at hle
  have hmul := Nat.mul_le_mul_right (2 ^ f.fpSize.toNat) hle
  have hpow : 2 ^ (32 - f.fpSize.toNat) * 2 ^ f.fpSize.toNat = 2 ^ 32 := by
    rw [← pow_add, Nat.sub_add_cancel h32]
  calc _ ≤ 2 ^ (32 - f.fpSize.toNat) * 2 * (2 ^ 64 * 2 ^ 32) * 2 ^ f.fpSize.toNat := hmul
    _ = 2 ^ (32 - f.fpSize.toNat) * 2 ^ f.fpSize.toNat * (2 * (2 ^ 64 * 2 ^ 32)) := by ring
    _ = 2 * 2 ^ 128 := by rw [hpow]; norm_num

end Rate

/-- How often a filter that is safe to use answers yes, whatever its table holds:
among the items of one length as often as among the hashes, and among the words
that the fingerprint is cut from in the share of its width, doubled where the
table holds a one and void where it holds a zero. -/
theorem acceptance_rate {f : XorFilter} (h : SafeToUse f) :
    (∀ item, xorCheck hashBuild f item = some (wordsAccepted f
      (mixedRaw0 (hashBuild item) f.seed.toNat) (mixedRaw1 (hashBuild item) f.seed.toNat))) ∧
    (∀ n, 16 ≤ n →
      Nat.card {item : List.Vector UInt8 n // xorCheck hashBuild f item.val = some true} =
        2 ^ (8 * n - 64) * Nat.card {hash : UInt64 // wordsAccepted f
          (mixedRaw0 hash f.seed.toNat) (mixedRaw1 hash f.seed.toNat) = true}) ∧
    (∀ raw0 lower,
      Nat.card {upper : UInt32 // wordsAccepted f raw0 (joinWord upper lower) = true} =
        2 ^ (32 - f.fpSize.toNat) * codesOf (tableValue f raw0 (joinWord 0 lower)).toNat) ∧
    Nat.card {raw : UInt64 × UInt64 // wordsAccepted f raw.1 raw.2 = true} *
      2 ^ f.fpSize.toNat ≤ 2 * 2 ^ 128 :=
  ⟨xorCheck_eq_words hashBuild h, fun _ hn => card_items_of_length h hn,
    card_uppers h.fpSize_valid, card_words_le h.fpSize_valid⟩

/-- A filter whose slots hold a one. -/
def filterOfOne : XorFilter :=
  { fingerprints := [1, 0, 0], segmentSize := 1, seed := 0, fpSize := FP8, reallocations := 0 }

theorem filterOfOne_safeToUse : SafeToUse filterOfOne :=
  safeToUse_iff.2 ⟨by decide, Or.inr (Or.inl rfl), rfl⟩

theorem tableValue_filterOfOne : tableValue filterOfOne 5 (joinWord 0 7) = 1 := by
  decide +kernel

/-- The low bytes zero and one are accepted. -/
theorem acceptance_rate_of_one :
    Nat.card {upper : UInt32 // wordsAccepted filterOfOne 5 (joinWord upper 7) = true} =
      2 ^ (32 - 8) * 2 := by
  obtain ⟨-, -, hcount, -⟩ := acceptance_rate filterOfOne_safeToUse
  rw [hcount 5 7, tableValue_filterOfOne]
  rfl

end RedisXor
