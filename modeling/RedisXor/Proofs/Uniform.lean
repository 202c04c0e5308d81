import Mathlib.Data.FinEnum
import Mathlib.Data.Fintype.Vector
import RedisXor.Lib.Balance
import RedisXor.Proofs.Hashes

/-! `Hash_Build` spreads its items evenly: with all other bytes fixed, one block
of an item leads to every 64-bit hash equally often, and so do all items of one
length of 16 bytes or more. How often a filter answers yes among such items is
therefore how often it does among the hashes. -/

namespace RedisXor

open Balance LittleEndian

theorem card_uInt64 : Nat.card UInt64 = 2 ^ 64 := by
  rw [Nat.card_eq_fintype_card, ← FinEnum.card_eq_fintypeCard]
  exact FinEnum.card_UInt64

/-! Every stage of the hash is a bijection of its state, except for the last sum -/

theorem fmix64_bijective : Function.Bijective fmix64 :=
  (Function.RightInverse.surjective fmix64_unfmix64).bijective_of_finite

theorem murmurBlock_bijective (h : UInt64 × UInt64) :
    Function.Bijective fun k : UInt64 × UInt64 => murmurBlock h k.1 k.2 := by
  have hsurj : Function.Surjective fun k : UInt64 × UInt64 => murmurBlock h k.1 k.2 :=
    fun g => ⟨unmurmurBlock h g, murmurBlock_unmurmurBlock h g⟩
  exact hsurj.bijective_of_finite

theorem rotl64_injective {k : ℕ} (h1 : 0 < k) (h2 : k < 64) :
    Function.Injective fun x => rotl64 x (UInt64.ofNat k) := by
  have hsurj : Function.Surjective fun x => rotl64 x (UInt64.ofNat k) :=
    fun x => ⟨_, rotl64_rotl64 h1 h2 x⟩
  exact hsurj.bijective_of_finite.injective

theorem mul_five_injective : Function.Injective fun x : UInt64 => x * 5 := by
  intro x y h
  have hunit (z : UInt64) : z * 5 * 0xcccccccccccccccd = z := mul_unit (by decide) z
  rw [← hunit x, ← hunit y]
  exact congrArg (· * 0xcccccccccccccccd) h

/-- For a fixed block, the second half of the new state gives back the second half
of the old one, and then the first gives back the first. -/
theorem murmurBlock_state_bijective (k1 k2 : UInt64) :
    Function.Bijective fun h => murmurBlock h k1 k2 := by
  have hinj : Function.Injective fun h => murmurBlock h k1 k2 := by
    rintro ⟨a1, a2⟩ ⟨b1, b2⟩ h
    obtain ⟨h1, h2⟩ := Prod.mk.inj h
    rw [h1] at h2
    have hrot2 := (UInt64.add_left_inj _).1 (mul_five_injective ((UInt64.add_left_inj _).1 h2))
    have hsnd := (UInt64.xor_left_inj _).1
      (rotl64_injective (k := 31) (by decide) (by decide) hrot2)
    simp only at hsnd
    subst hsnd
    have hrot1 := (UInt64.add_left_inj _).1 (mul_five_injective ((UInt64.add_left_inj _).1 h1))
    have hfst := (UInt64.xor_left_inj _).1
      (rotl64_injective (k := 27) (by decide) (by decide) hrot1)
    simp only at hfst
    rw [hfst]
  exact hinj.bijective_of_finite

theorem murmurBody_bijective (key : List UInt8) : Function.Bijective (murmurBody key) :=
  bijective_foldl (fun _ => murmurBlock_state_bijective _ _) _

theorem xor_pair_bijective (a b : UInt64) :
    Function.Bijective fun h : UInt64 × UInt64 => (h.1 ^^^ a, h.2 ^^^ b) := by
  have hinj : Function.Injective fun h : UInt64 × UInt64 => (h.1 ^^^ a, h.2 ^^^ b) := by
    intro g h heq
    obtain ⟨h1, h2⟩ := Prod.mk.inj heq
    exact Prod.ext ((UInt64.xor_left_inj a).1 h1) ((UInt64.xor_left_inj b).1 h2)
  exact hinj.bijective_of_finite

/-- The tail adds a constant to each half. -/
theorem murmurTail_bijective (key : List UInt8) : Function.Bijective (murmurTail key) := by
  let rest := key.length % 16
  let tail := key.drop (key.length / 16 * 16)
  have heq : murmurTail key = fun h =>
      (h.1 ^^^ (if 1 ≤ rest then mixK1 (tailWord tail 0 (min rest 8)) else 0),
        h.2 ^^^ (if 9 ≤ rest then mixK2 (tailWord tail 8 rest) else 0)) := by
    funext h
    simp only [murmurTail, rest, tail]
    split_ifs <;> simp only [UInt64.xor_zero]
  rw [heq]
  exact xor_pair_bijective _ _

/-- The state before the two finalizers. -/
def crossAdd (h : UInt64 × UInt64) : UInt64 × UInt64 := (h.1 + h.2, h.2 + (h.1 + h.2))

theorem crossAdd_bijective : Function.Bijective crossAdd := by
  have hinj : Function.Injective crossAdd := by
    rintro ⟨a1, a2⟩ ⟨b1, b2⟩ h
    obtain ⟨h1, h2⟩ := Prod.mk.inj h
    rw [h1] at h2
    obtain rfl : a2 = b2 := (UInt64.add_left_inj _).1 h2
    obtain rfl : a1 = b1 := (UInt64.add_left_inj _).1 h1
    rfl
  exact hinj.bijective_of_finite

/-- Half of the hash is kept, the sum of two words of which each can be chosen
freely. -/
theorem murmurFinalize_balanced (len : ℕ) :
    Balanced (fun h => (murmurFinalize len h).1) (2 ^ 64) := by
  have hsum : Balanced (fun h : UInt64 × UInt64 => fmix64 h.1 + fmix64 h.2) (2 ^ 64) := by
    have hfst (b : UInt64) : Balanced (fun a => fmix64 a + fmix64 b) 1 := by
      apply balanced_of_bijective
      have hinj : Function.Injective fun a => fmix64 a + fmix64 b :=
        fun x y h => fmix64_bijective.injective ((UInt64.add_left_inj _).1 h)
      exact hinj.bijective_of_finite
    have h := balanced_of_fst (f := fun h : UInt64 × UInt64 => fmix64 h.1 + fmix64 h.2) hfst
    rwa [card_uInt64, Nat.one_mul] at h
  have heq : (fun h => (murmurFinalize len h).1) = fun h : UInt64 × UInt64 =>
      fmix64 (crossAdd (h.1 ^^^ UInt64.ofNat len, h.2 ^^^ UInt64.ofNat len)).1 +
        fmix64 (crossAdd (h.1 ^^^ UInt64.ofNat len, h.2 ^^^ UInt64.ofNat len)).2 := by
    funext h
    simp only [murmurFinalize, crossAdd]
  rw [heq]
  have hcross := hsum.comp_bijective crossAdd_bijective
  exact hcross.comp_bijective (xor_pair_bijective (UInt64.ofNat len) (UInt64.ofNat len))

/-! Blocks -/

def blockBytes (k : UInt64 × UInt64) : List UInt8 :=
  bytesLE 8 k.1.toNat ++ bytesLE 8 k.2.toNat

@[simp] theorem length_blockBytes (k : UInt64 × UInt64) : (blockBytes k).length = 16 := by
  simp [blockBytes]

theorem bytesLE_injective : Function.Injective fun k : UInt64 => bytesLE 8 k.toNat := by
  intro a b h
  have hread := congrArg (fun l => readLE 8 l 0) h
  simp only [readLE_bytesLE] at hread
  have ha := a.toNat_lt
  have hb := b.toNat_lt
  exact UInt64.toNat_inj.1 (by omega)

theorem blockBytes_injective : Function.Injective blockBytes := by
  intro a b h
  obtain ⟨h1, h2⟩ := List.append_inj h (by rw [length_bytesLE, length_bytesLE])
  exact Prod.ext (bytesLE_injective h1) (bytesLE_injective h2)

/-- One round of the body. -/
def murmurRound (key : List UInt8) (h : UInt64 × UInt64) (i : ℕ) : UInt64 × UInt64 :=
  murmurBlock h (UInt64.ofNat (readLE 8 key (16 * i))) (UInt64.ofNat (readLE 8 key (16 * i + 8)))

theorem murmurBody_eq (key : List UInt8) (h : UInt64 × UInt64) :
    murmurBody key h = (List.range (key.length / 16)).foldl (murmurRound key) h := rfl

/-- The blocks of the first part are mixed in before those of the second. -/
theorem murmurBody_append {pre : List UInt8} (hpre : 16 ∣ pre.length) (post : List UInt8)
    (h : UInt64 × UInt64) : murmurBody (pre ++ post) h = murmurBody post (murmurBody pre h) := by
  obtain ⟨m, hm⟩ := hpre
  have hcount : (pre ++ post).length / 16 = m + post.length / 16 := by
    rw [List.length_append, hm]
    omega
  have hpre : pre.length / 16 = m := by omega
  have hfirst : (List.range m).foldl (murmurRound (pre ++ post)) h =
      (List.range m).foldl (murmurRound pre) h := by
    refine List.foldl_ext _ _ _ fun h i hi => ?_
    have hlt := List.mem_range.1 hi
    rw [murmurRound, readLE_append_left _ _ _ _ (by omega), readLE_append_left _ _ _ _ (by omega),
      murmurRound]
  have hrest (h : UInt64 × UInt64) (i : ℕ) :
      murmurRound (pre ++ post) h (m + i) = murmurRound post h i := by
    rw [murmurRound, show 16 * (m + i) = pre.length + 16 * i by omega, readLE_append_right,
      Nat.add_assoc, readLE_append_right, murmurRound]
  rw [murmurBody_eq, murmurBody_eq, murmurBody_eq, hcount, hpre, List.range_add, List.foldl_append,
    List.foldl_map, hfirst]
  exact List.foldl_ext _ _ _ fun h i _ => hrest h i

theorem murmurTail_append {pre : List UInt8} (hpre : 16 ∣ pre.length) (post : List UInt8)
    (h : UInt64 × UInt64) : murmurTail (pre ++ post) h = murmurTail post h := by
  obtain ⟨m, hm⟩ := hpre
  have hdrop : (pre ++ post).length / 16 * 16 = pre.length + post.length / 16 * 16 := by
    rw [List.length_append, hm]
    omega
  have hmod : (pre ++ post).length % 16 = post.length % 16 := by
    rw [List.length_append, hm]
    omega
  unfold murmurTail
  rw [hdrop, hmod, List.drop_length_add_append]

theorem hashBuild_block {pre : List UInt8} (hpre : 16 ∣ pre.length) (post : List UInt8)
    (k : UInt64 × UInt64) : hashBuild (pre ++ (blockBytes k ++ post)) =
      (murmurFinalize (pre.length + (16 + post.length)) (murmurTail post (murmurBody post
        (murmurBlock (murmurBody pre (42, 42)) k.1 k.2)))).1 := by
  have hblock : 16 ∣ (blockBytes k).length := by rw [length_blockBytes]
  rw [hashBuild, murmurHash3X64128, murmurBody_append hpre, murmurBody_append hblock,
    murmurTail_append hpre, murmurTail_append hblock, List.length_append, List.length_append,
    length_blockBytes, blockBytes, murmurBody_block]

theorem balanced_block {pre : List UInt8} (hpre : 16 ∣ pre.length) (post : List UInt8) :
    Balanced (fun k => hashBuild (pre ++ (blockBytes k ++ post))) (2 ^ 64) := by
  have hstate : Function.Bijective fun k : UInt64 × UInt64 =>
      murmurTail post (murmurBody post (murmurBlock (murmurBody pre (42, 42)) k.1 k.2)) :=
    (murmurTail_bijective post).comp
      ((murmurBody_bijective post).comp (murmurBlock_bijective (murmurBody pre (42, 42))))
  simp only [hashBuild_block hpre]
  exact (murmurFinalize_balanced _).comp_bijective hstate

/-! All items of one length -/

theorem card_bytes (n : ℕ) : Nat.card (List.Vector UInt8 n) = 256 ^ n := by
  rw [Nat.card_eq_fintype_card, card_vector, ← FinEnum.card_eq_fintypeCard]
  rfl

/-- An item as its first block and the rest. -/
def joinBlock {m : ℕ} (p : (UInt64 × UInt64) × List.Vector UInt8 m) : List.Vector UInt8 (16 + m) :=
  ⟨blockBytes p.1 ++ p.2.val, by rw [List.length_append, length_blockBytes, p.2.property]⟩

theorem joinBlock_bijective (m : ℕ) : Function.Bijective (@joinBlock m) := by
  have hinj : Function.Injective (@joinBlock m) := by
    rintro ⟨k, v⟩ ⟨k', v'⟩ h
    obtain ⟨h1, h2⟩ := List.append_inj (congrArg Subtype.val h)
      (by rw [length_blockBytes, length_blockBytes])
    exact Prod.ext (blockBytes_injective h1) (Subtype.ext h2)
  refine hinj.bijective_of_nat_card_le ?_
  rw [Nat.card_prod, Nat.card_prod, card_uInt64, card_bytes, card_bytes, pow_add,
    show (256 : ℕ) ^ 16 = 2 ^ 64 * 2 ^ 64 by norm_num]

theorem balanced_bytes (m : ℕ) :
    Balanced (fun item : List.Vector UInt8 (16 + m) => hashBuild item.val) (2 ^ 64 * 256 ^ m) := by
  have hblock (v : List.Vector UInt8 m) :
      Balanced (fun k => hashBuild (joinBlock (k, v)).val) (2 ^ 64) := by
    have h := @balanced_block [] (dvd_zero 16) v.val
    simp only [List.nil_append] at h
    exact h
  refine Balanced.of_comp_bijective (joinBlock_bijective m) ?_
  rw [← card_bytes m]
  exact balanced_of_fst hblock

theorem balanced_of_length {n : ℕ} (hn : 16 ≤ n) :
    Balanced (fun item : List.Vector UInt8 n => hashBuild item.val) (2 ^ (8 * n - 64)) := by
  obtain ⟨m, rfl⟩ := Nat.exists_eq_add_of_le hn
  have h := balanced_bytes m
  rwa [show (256 : ℕ) = 2 ^ 8 by norm_num, ← pow_mul, ← pow_add,
    show 64 + 8 * m = 8 * (16 + m) - 64 by omega] at h

/-- Every aligned block of an item decides evenly over the hashes, whatever stands
before and behind it, and so do all items of one length together. -/
theorem hashBuild_balanced :
    (∀ pre post : List UInt8, 16 ∣ pre.length →
      Balanced (fun k => hashBuild (pre ++ (blockBytes k ++ post))) (2 ^ 64)) ∧
    ∀ n, 16 ≤ n →
      Balanced (fun item : List.Vector UInt8 n => hashBuild item.val) (2 ^ (8 * n - 64)) :=
  ⟨fun _ post hpre => balanced_block hpre post, fun _ hn => balanced_of_length hn⟩

/-- Two to the 64th items of 16 bytes have the hash zero. -/
theorem hashBuild_balanced_sixteen :
    Nat.card {item : List.Vector UInt8 16 // hashBuild item.val = 0} = 2 ^ 64 :=
  hashBuild_balanced.2 16 (Nat.le_refl 16) 0

end RedisXor
