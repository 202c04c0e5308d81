import Mathlib.Algebra.BigOperators.Group.Finset.Basic
import RedisXor.Lib.Refinement
import RedisXor.Proofs.Buckets

/-! The bucket arrays of `tools/bucket.h` under any sequence of calls: two
numbers a bucket stand for the set of the keys it holds, as long as a key that
is pushed is not there yet and one that is removed is. A bucket that has held
more than 255 keys miscounts until it is empty again, but its sum stays right. -/

namespace RedisXor

open Refinement XorSum

inductive BucketCall where
  | push (idx keyIndex : ℕ)
  | remove (idx keyIndex : ℕ)
  | getCount (idx : ℕ)
  | getSingleValue (idx : ℕ)

def BucketCall.idx : BucketCall → ℕ
  | .push idx _ => idx
  | .remove idx _ => idx
  | .getCount idx => idx
  | .getSingleValue idx => idx

/-- A call may be made for a cell that both arrays have. -/
def bucketMachine : Machine Buckets BucketCall (Option ℕ) where
  pre B call := call.idx < B.xSum.length ∧ call.idx < B.counts.length
  step B
    | .push idx keyIndex => (none, bucketPush B idx keyIndex)
    | .remove idx keyIndex => (none, bucketRemove B idx keyIndex)
    | .getCount idx => (some (bucketGetCount B idx), B)
    | .getSingleValue idx => (some (bucketGetSingleValue B idx), B)

/-- The keys of each bucket, and whether it has been full to the brim since it
was empty. -/
structure Family where
  keys : ℕ → Finset ℕ
  overflowed : ℕ → Bool

namespace Family

def empty : Family := ⟨fun _ => ∅, fun _ => false⟩

def push (S : Family) (idx keyIndex : ℕ) : Family where
  keys := Function.update S.keys idx (insert keyIndex (S.keys idx))
  overflowed := Function.update S.overflowed idx
    (S.overflowed idx || decide (255 ≤ (S.keys idx).card))

def remove (S : Family) (idx keyIndex : ℕ) : Family where
  keys := Function.update S.keys idx ((S.keys idx).erase keyIndex)
  overflowed := Function.update S.overflowed idx
    (S.overflowed idx && decide (2 ≤ (S.keys idx).card))

end Family

/-- Over `m` buckets; the value of a bucket is asked for when it holds one key. -/
def setMachine (m : ℕ) : Machine Family BucketCall (Option ℕ) where
  pre S
    | .push idx keyIndex => idx < m ∧ keyIndex < 2 ^ 32 ∧ keyIndex ∉ S.keys idx
    | .remove idx keyIndex => idx < m ∧ keyIndex ∈ S.keys idx
    | .getCount idx => idx < m ∧ S.overflowed idx = false
    | .getSingleValue idx => idx < m ∧ (S.keys idx).card = 1
  step S
    | .push idx keyIndex => (none, S.push idx keyIndex)
    | .remove idx keyIndex => (none, S.remove idx keyIndex)
    | .getCount idx => (some (S.keys idx).card, S)
    | .getSingleValue idx => (some (∑ x ∈ S.keys idx, x), S)

/-- What the two numbers of a bucket tell of its keys. -/
structure Holds (count sum : ℕ) (keys : Finset ℕ) (overflowed : Bool) : Prop where
  sum_eq : sum = xorSum id keys
  count_le_card : count ≤ keys.card
  count_le : count ≤ 255
  count_eq : overflowed = false → count = keys.card

theorem holds_empty : Holds 0 0 ∅ false :=
  ⟨rfl, Nat.zero_le _, Nat.zero_le _, fun _ => rfl⟩

section Holds

variable {count sum x : ℕ} {keys : Finset ℕ} {overflowed : Bool}

theorem Holds.push (h : Holds count sum keys overflowed) (hx : x ∉ keys) :
    Holds (if count < 255 then count + 1 else count) (sum ^^^ x) (insert x keys)
      (overflowed || decide (255 ≤ keys.card)) := by
  have hcard := Finset.card_insert_of_notMem hx
  have hle := h.count_le_card
  have hmax := h.count_le
  refine ⟨?_, ?_, ?_, fun hov => ?_⟩
  · rw [xorSum_insert id hx, h.sum_eq]
    rfl
  · rw [hcard]
    split_ifs <;> omega
  · split_ifs <;> omega
  · rw [Bool.or_eq_false_iff, decide_eq_false_iff_not] at hov
    have heq := h.count_eq hov.1
    rw [hcard, if_pos (by omega), heq]

theorem Holds.remove (h : Holds count sum keys overflowed) (hx : x ∈ keys) :
    Holds (count - 1) (sum ^^^ x) (keys.erase x) (overflowed && decide (2 ≤ keys.card)) := by
  have hcard := Finset.card_erase_of_mem hx
  have hpos := Finset.card_pos.2 ⟨x, hx⟩
  have hle := h.count_le_card
  have hmax := h.count_le
  refine ⟨?_, ?_, ?_, fun hov => ?_⟩
  · rw [xorSum_erase id hx, h.sum_eq]
    rfl
  · rw [hcard]
    omega
  · omega
  · rw [Bool.and_eq_false_iff, decide_eq_false_iff_not] at hov
    rw [hcard]
    rcases hov with hov | hlast
    · rw [h.count_eq hov]
    · -- the last key leaves: both are zero, however often the count was wrong
      omega

end Holds

/-- The arrays against the family they stand for. -/
structure ArraysHold (m : ℕ) (B : Buckets) (S : Family) : Prop where
  ok : BucketsOk m B
  holds : ∀ b, Holds (bucketGetCount B b) (bucketGetSingleValue B b) (S.keys b) (S.overflowed b)

section Steps

variable {m : ℕ} {B : Buckets} {S : Family} {idx keyIndex : ℕ}

theorem ArraysHold.push (h : ArraysHold m B S) (hidx : idx < m) (hx : keyIndex ∉ S.keys idx) :
    ArraysHold m (bucketPush B idx keyIndex) (S.push idx keyIndex) := by
  refine ⟨bucketPush_ok h.ok _ _, fun b => ?_⟩
  rw [bucketGetCount_push h.ok hidx, bucketGetSingleValue_push h.ok hidx]
  unfold Family.push
  by_cases hb : b = idx
  · subst hb
    simp only [if_true, Function.update_self]
    exact (h.holds b).push hx
  · simp only [if_neg hb, Function.update_of_ne hb]
    exact h.holds b

theorem ArraysHold.remove (h : ArraysHold m B S) (hidx : idx < m) (hx : keyIndex ∈ S.keys idx) :
    ArraysHold m (bucketRemove B idx keyIndex) (S.remove idx keyIndex) := by
  refine ⟨bucketRemove_ok h.ok _ _, fun b => ?_⟩
  rw [bucketGetCount_remove h.ok hidx, bucketGetSingleValue_remove h.ok hidx]
  unfold Family.remove
  by_cases hb : b = idx
  · subst hb
    simp only [if_true, Function.update_self]
    exact (h.holds b).remove hx
  · simp only [if_neg hb, Function.update_of_ne hb]
    exact h.holds b

theorem ArraysHold.single (h : ArraysHold m B S) (hone : (S.keys idx).card = 1) :
    bucketGetSingleValue B idx = ∑ x ∈ S.keys idx, x := by
  obtain ⟨k, hk⟩ := Finset.card_eq_one.1 hone
  rw [(h.holds idx).sum_eq, hk, xorSum_singleton, Finset.sum_singleton]
  rfl

end Steps

theorem bucketsCreate_hold (m : ℕ) : ArraysHold m (bucketsCreate m) Family.empty := by
  refine ⟨⟨List.length_replicate, List.length_replicate, rfl⟩, fun b => ?_⟩
  have hzero : (List.replicate m 0).getD b 0 = 0 := by
    rw [List.getD_eq_getElem?_getD, List.getElem?_replicate]
    split_ifs <;> rfl
  have hcount : bucketGetCount (bucketsCreate m) b = 0 := hzero
  have hsum : bucketGetSingleValue (bucketsCreate m) b = 0 := hzero
  rw [hcount, hsum]
  exact holds_empty

theorem bucket_implements (m : ℕ) :
    Implements bucketMachine (setMachine m) (ArraysHold m) where
  pre := by
    intro B S call h hpre
    have hidx : call.idx < m := by cases call <;> exact hpre.1
    exact ⟨h.ok.xSum_length ▸ hidx, h.ok.counts_length ▸ hidx⟩
  answer := by
    intro B S call h hpre
    cases call with
    | push idx keyIndex => rfl
    | remove idx keyIndex => rfl
    | getCount idx => exact congrArg some ((h.holds idx).count_eq hpre.2)
    | getSingleValue idx => exact congrArg some (h.single hpre.2)
  step := by
    intro B S call h hpre
    cases call with
    | push idx keyIndex => exact h.push hpre.1 hpre.2.2
    | remove idx keyIndex => exact h.remove hpre.1 hpre.2
    | getCount idx => exact h
    | getSingleValue idx => exact h

/-- The bucket arrays stand for sets: a user who keeps the sets in mind stays in
the arrays, reads the number of keys unless the bucket has overflowed, and reads
the key of a bucket with one. Whatever has overflowed, a count never exceeds the
number of keys, nor 255, and a sum is that of the keys. -/
theorem buckets_are_sets (m : ℕ) {calls : List BucketCall}
    (hadm : (setMachine m).Admits Family.empty calls) :
    bucketMachine.Admits (bucketsCreate m) calls ∧
      bucketMachine.answers (bucketsCreate m) calls =
        (setMachine m).answers Family.empty calls ∧
      ∀ b, bucketGetCount (bucketMachine.state (bucketsCreate m) calls) b ≤
          min (((setMachine m).state Family.empty calls).keys b).card 255 ∧
        bucketGetSingleValue (bucketMachine.state (bucketsCreate m) calls) b =
          xorSum id (((setMachine m).state Family.empty calls).keys b) := by
  have himpl := bucket_implements m
  have hstart := bucketsCreate_hold m
  refine ⟨himpl.admits hstart hadm, himpl.answers hstart hadm, fun b => ?_⟩
  have h := (himpl.state hstart hadm).holds b
  exact ⟨Nat.le_min.2 ⟨h.count_le_card, h.count_le⟩, h.sum_eq⟩

/-- Three keys pass through two buckets. -/
theorem buckets_are_sets_two :
    bucketMachine.answers (bucketsCreate 2) [.push 0 5, .push 1 5, .push 0 9, .getCount 0,
      .remove 0 5, .getSingleValue 0, .push 0 3, .remove 0 9, .getSingleValue 0, .getCount 1] =
      [none, none, none, some 2, none, some 9, none, none, some 3, some 1] := by
  have hadm : (setMachine 2).Admits Family.empty [.push 0 5, .push 1 5, .push 0 9, .getCount 0,
      .remove 0 5, .getSingleValue 0, .push 0 3, .remove 0 9, .getSingleValue 0, .getCount 1] := by
    simp only [Machine.Admits, setMachine]
    decide +kernel
  rw [(buckets_are_sets 2 hadm).2.1]
  decide +kernel

end RedisXor
