import RedisXor.Lib.XorSum
import RedisXor.Proofs.Queue
import RedisXor.Spec.Xor

/-! What the bucket arrays hold after the first loop of `map`: the number of
keys that chose each bucket, cut at 255, and the exclusive or of their indices. -/

namespace RedisXor

open Arrays XorSum

/-- `b` is one of the three slots. -/
def Touches (h : HashNoFP) (b : ℕ) : Prop := b = h.h0 ∨ b = h.h1 ∨ b = h.h2

instance (h : HashNoFP) (b : ℕ) : Decidable (Touches h b) := by
  unfold Touches
  infer_instance

theorem ite_touches {α : Type*} (h : HashNoFP) (b : ℕ) (x y : α) : (if Touches h b then x else y) =
    if b = h.h0 ∨ b = h.h1 ∨ b = h.h2 then x else y := if_congr Iff.rfl rfl rfl

/-- One slot in each of the three segments. -/
structure SlotsOk (s : ℕ) (h : HashNoFP) : Prop where
  h0_lt : h.h0 < s
  le_h1 : s ≤ h.h1
  h1_lt : h.h1 < 2 * s
  le_h2 : 2 * s ≤ h.h2
  h2_lt : h.h2 < 3 * s

theorem SlotsOk.lt {s b : ℕ} {h : HashNoFP} (hs : SlotsOk s h) (hb : Touches h b) : b < 3 * s := by
  have := hs.h0_lt
  have := hs.h1_lt
  have := hs.h2_lt
  rcases hb with rfl | rfl | rfl <;> omega

/-- Updating the three slots in turn updates each bucket at most once. -/
theorem SlotsOk.update_slots {α : Type*} {s : ℕ} {h : HashNoFP} (hs : SlotsOk s h) (b : ℕ)
    (g : α → α) (c : α) :
    (if b = h.h2 then g (if b = h.h1 then g (if b = h.h0 then g c else c)
        else if b = h.h0 then g c else c)
      else if b = h.h1 then g (if b = h.h0 then g c else c)
        else if b = h.h0 then g c else c) = if Touches h b then g c else c := by
  obtain ⟨h0, h1, h1', h2, h2'⟩ := hs
  by_cases e2 : b = h.h2
  · have e1 : b ≠ h.h1 := by omega
    have e0 : b ≠ h.h0 := by omega
    have ht : Touches h b := Or.inr (Or.inr e2)
    simp only [if_pos e2, if_neg e1, if_neg e0, if_pos ht]
  by_cases e1 : b = h.h1
  · have e0 : b ≠ h.h0 := by omega
    have ht : Touches h b := Or.inr (Or.inl e1)
    simp only [if_neg e2, if_pos e1, if_neg e0, if_pos ht]
  by_cases e0 : b = h.h0
  · have ht : Touches h b := Or.inl e0
    simp only [if_neg e2, if_neg e1, if_pos e0, if_pos ht]
  · have ht : ¬ Touches h b := by rintro (e | e | e) <;> contradiction
    simp only [if_neg e2, if_neg e1, if_neg e0, if_neg ht]

theorem hashTransformNoFingerprint_ok {s : ℕ} (h0 : 0 < s) (hs : 3 * s < 2 ^ 32) (hash : UInt64)
    (seed : ℕ) : SlotsOk s (hashTransformNoFingerprint hash s seed) := by
  simp only [hashTransformNoFingerprint]
  generalize (mix (hash + UInt64.ofNat seed + 0x9E3779B97F4A7C15)).toUInt32.toNat = r0
  generalize (mix (hash + UInt64.ofNat seed + 0x9E3779B97F4A7C15) >>> 32).toUInt32.toNat = r1
  generalize (mix (hash + UInt64.ofNat seed + 0xBF58476D1CE4E5B9)).toUInt32.toNat = r2
  have := Nat.mod_lt r0 h0
  have := Nat.mod_lt r1 h0
  have := Nat.mod_lt r2 h0
  rw [wrap32_of_lt (by omega), wrap32_of_lt (by omega), wrap32_of_lt (by omega)]
  constructor <;> simp only <;> omega

/-- The two copies of the slot computation agree. -/
theorem hashTransform_slots (hash : UInt64) (s seed fpBits : ℕ) :
    let h := hashTransform hash s seed fpBits
    hashTransformNoFingerprint hash s seed = ⟨h.h0, h.h1, h.h2⟩ := rfl

theorem keySlots_ok {s : ℕ} (h0 : 0 < s) (hs : 3 * s < 2 ^ 32) (mem : Memory)
    (hashes : List UInt64) (seed x : ℕ) : SlotsOk s (keySlots mem hashes s seed x) :=
  hashTransformNoFingerprint_ok h0 hs _ _

/-! Single buckets -/

structure BucketsOk (m : ℕ) (B : Buckets) : Prop where
  xSum_length : B.xSum.length = m
  counts_length : B.counts.length = m
  capacity_eq : B.capacity = m

theorem bucketPush_ok {m : ℕ} {B : Buckets} (h : BucketsOk m B) (i x : ℕ) :
    BucketsOk m (bucketPush B i x) := by
  refine ⟨by simp [bucketPush, h.xSum_length], ?_, h.capacity_eq⟩
  simp only [bucketPush]
  split_ifs <;> simp [h.counts_length]

theorem bucketRemove_ok {m : ℕ} {B : Buckets} (h : BucketsOk m B) (i x : ℕ) :
    BucketsOk m (bucketRemove B i x) := by
  refine ⟨by simp [bucketRemove, h.xSum_length], ?_, h.capacity_eq⟩
  simp only [bucketRemove]
  split_ifs <;> simp [h.counts_length]

theorem bucketGetCount_push {m : ℕ} {B : Buckets} (h : BucketsOk m B) {i : ℕ} (hi : i < m)
    (x b : ℕ) : bucketGetCount (bucketPush B i x) b =
      if b = i then (if bucketGetCount B b < 255 then bucketGetCount B b + 1
        else bucketGetCount B b) else bucketGetCount B b := by
  have hi : i < B.counts.length := h.counts_length ▸ hi
  rw [bucketGetCount, bucketPush]
  by_cases hc : bucketGetCount B i < 255
  · simp only [if_pos hc]
    by_cases hb : b = i
    · subst hb
      rw [if_pos rfl, if_pos hc, getD_set_self _ hi]
    · rw [if_neg hb, getD_set_ne _ (Ne.symm hb), bucketGetCount]
  · simp only [if_neg hc]
    by_cases hb : b = i
    · subst hb
      rw [if_pos rfl, if_neg hc, bucketGetCount]
    · rw [if_neg hb, bucketGetCount]

theorem bucketGetSingleValue_push {m : ℕ} {B : Buckets} (h : BucketsOk m B) {i : ℕ} (hi : i < m)
    (x b : ℕ) : bucketGetSingleValue (bucketPush B i x) b =
      if b = i then bucketGetSingleValue B b ^^^ x else bucketGetSingleValue B b := by
  have hi : i < B.xSum.length := h.xSum_length ▸ hi
  simp only [bucketPush, bucketGetSingleValue]
  by_cases hb : b = i
  · subst hb
    rw [if_pos rfl, getD_set_self _ hi]
  · rw [if_neg hb, getD_set_ne _ (Ne.symm hb)]

/-- The guard of the decrement makes it a subtraction cut at zero. -/
theorem bucketGetCount_remove {m : ℕ} {B : Buckets} (h : BucketsOk m B) {i : ℕ} (hi : i < m)
    (x b : ℕ) : bucketGetCount (bucketRemove B i x) b =
      if b = i then bucketGetCount B b - 1 else bucketGetCount B b := by
  have hi : i < B.counts.length := h.counts_length ▸ hi
  rw [bucketGetCount, bucketRemove]
  by_cases hc : 0 < bucketGetCount B i
  · simp only [if_pos hc]
    by_cases hb : b = i
    · subst hb
      rw [if_pos rfl, getD_set_self _ hi]
    · rw [if_neg hb, getD_set_ne _ (Ne.symm hb), bucketGetCount]
  · simp only [if_neg hc]
    by_cases hb : b = i
    · subst hb
      rw [if_pos rfl, ← bucketGetCount]
      omega
    · rw [if_neg hb, bucketGetCount]

theorem bucketGetSingleValue_remove {m : ℕ} {B : Buckets} (h : BucketsOk m B) {i : ℕ}
    (hi : i < m) (x b : ℕ) : bucketGetSingleValue (bucketRemove B i x) b =
      if b = i then bucketGetSingleValue B b ^^^ x else bucketGetSingleValue B b := by
  have hi : i < B.xSum.length := h.xSum_length ▸ hi
  simp only [bucketRemove, bucketGetSingleValue]
  by_cases hb : b = i
  · subst hb
    rw [if_pos rfl, getD_set_self _ hi]
  · rw [if_neg hb, getD_set_ne _ (Ne.symm hb)]

/-! Whole keys: the three slots differ, so a key counts once per bucket. -/

theorem bucketsClear_ok (B : Buckets) : BucketsOk B.capacity (bucketsClear B) :=
  ⟨List.length_replicate, List.length_replicate, rfl⟩

@[simp] theorem bucketGetCount_clear (B : Buckets) (b : ℕ) :
    bucketGetCount (bucketsClear B) b = 0 := by
  simp [bucketGetCount, bucketsClear, List.getD_eq_getElem?_getD, List.getElem?_replicate]
  split_ifs <;> rfl

@[simp] theorem bucketGetSingleValue_clear (B : Buckets) (b : ℕ) :
    bucketGetSingleValue (bucketsClear B) b = 0 := by
  simp [bucketGetSingleValue, bucketsClear, List.getD_eq_getElem?_getD, List.getElem?_replicate]
  split_ifs <;> rfl

theorem pushKey_ok {pos : ℕ → HashNoFP} {m : ℕ} {B : Buckets} (h : BucketsOk m B) (i : ℕ) :
    BucketsOk m (pushKey pos B i) :=
  bucketPush_ok (bucketPush_ok (bucketPush_ok h _ _) _ _) _ _

section PushKey

variable {pos : ℕ → HashNoFP} {s : ℕ} {B : Buckets}

theorem bucketGetCount_pushKey (h : BucketsOk (3 * s) B) {i : ℕ} (hi : SlotsOk s (pos i)) (b : ℕ) :
    bucketGetCount (pushKey pos B i) b =
      if Touches (pos i) b then (if bucketGetCount B b < 255 then bucketGetCount B b + 1
        else bucketGetCount B b) else bucketGetCount B b := by
  have ⟨h0, h1, h1', h2, h2'⟩ := hi
  rw [pushKey, bucketGetCount_push (bucketPush_ok (bucketPush_ok h _ _) _ _) (by omega),
    bucketGetCount_push (bucketPush_ok h _ _) (by omega), bucketGetCount_push h (by omega)]
  exact hi.update_slots b (fun c => if c < 255 then c + 1 else c) _

theorem bucketGetSingleValue_pushKey (h : BucketsOk (3 * s) B) {i : ℕ} (hi : SlotsOk s (pos i))
    (b : ℕ) : bucketGetSingleValue (pushKey pos B i) b =
      if Touches (pos i) b then bucketGetSingleValue B b ^^^ wrap32 i
      else bucketGetSingleValue B b := by
  have ⟨h0, h1, h1', h2, h2'⟩ := hi
  rw [pushKey, bucketGetSingleValue_push (bucketPush_ok (bucketPush_ok h _ _) _ _) (by omega),
    bucketGetSingleValue_push (bucketPush_ok h _ _) (by omega),
    bucketGetSingleValue_push h (by omega)]
  exact hi.update_slots b (· ^^^ wrap32 i) _

end PushKey

/-- The keys among `R` that chose bucket `b`. -/
def keysAt (pos : ℕ → HashNoFP) (R : Finset ℕ) (b : ℕ) : Finset ℕ :=
  R.filter fun k => Touches (pos k) b

/-- The number of keys that chose `b`. -/
def load (pos : ℕ → HashNoFP) (n b : ℕ) : ℕ := (keysAt pos (Finset.range n) b).card

theorem fillBuckets_succ (pos : ℕ → HashNoFP) (n : ℕ) (B : Buckets) :
    fillBuckets pos (n + 1) B = pushKey pos (fillBuckets pos n B) n := by
  simp [fillBuckets, List.range_succ, List.foldl_append]

theorem fillBuckets_ok {pos : ℕ → HashNoFP} {m : ℕ} {B : Buckets} (h : BucketsOk m B) (n : ℕ) :
    BucketsOk m (fillBuckets pos n B) := by
  induction n with
  | zero => exact h
  | succ n ih =>
    rw [fillBuckets_succ]
    exact pushKey_ok ih n

theorem fillBuckets_spec {pos : ℕ → HashNoFP} {s n : ℕ} {B : Buckets} (hB : B.capacity = 3 * s)
    (hpos : ∀ x, SlotsOk s (pos x)) (hn : n ≤ 2 ^ 32) :
    BucketsOk (3 * s) (fillBuckets pos n (bucketsClear B)) ∧
      ∀ b, bucketGetCount (fillBuckets pos n (bucketsClear B)) b = min (load pos n b) 255 ∧
        bucketGetSingleValue (fillBuckets pos n (bucketsClear B)) b =
          xorSum id (keysAt pos (Finset.range n) b) := by
  induction n with
  | zero =>
    refine ⟨hB ▸ bucketsClear_ok B, fun b => ?_⟩
    simp [fillBuckets, load, keysAt]
  | succ n ih =>
    obtain ⟨hok, hval⟩ := ih (by omega)
    rw [fillBuckets_succ]
    refine ⟨pushKey_ok hok n, fun b => ?_⟩
    have hmem : n ∉ Finset.range n := Finset.notMem_range_self
    constructor
    · rw [bucketGetCount_pushKey hok (hpos n), (hval b).1, load, load, keysAt, keysAt,
        Finset.range_add_one, Finset.filter_insert]
      split_ifs with ht hlt
      · rw [Finset.card_insert_of_notMem fun h => hmem (Finset.mem_filter.1 h).1]
        omega
      · rw [Finset.card_insert_of_notMem fun h => hmem (Finset.mem_filter.1 h).1]
        omega
      · rfl
    · rw [bucketGetSingleValue_pushKey hok (hpos n), (hval b).2, keysAt, keysAt,
        Finset.range_add_one, xorSum_filter_insert id hmem, wrap32_of_lt (by omega)]
      rfl

end RedisXor
