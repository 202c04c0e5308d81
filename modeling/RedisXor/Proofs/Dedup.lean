import Mathlib.Data.List.Sort
import RedisXor.Spec.Main

/-! The step of `XOR.BUILD` between scanning and building: `qsort`, then a loop
that drops repeats while it overwrites the array it compares with. What it hands
on is the strictly increasing list of the hashes, whatever their order was. -/

namespace RedisXor

/-- `cmp_uint64` is the order of unsigned words. -/
theorem cmpUInt64_le_zero_iff (a b : UInt64) : cmpUInt64 a b ≤ 0 ↔ a ≤ b := by
  simp only [cmpUInt64, gt_iff_lt, UInt64.lt_iff_toNat_lt, UInt64.le_iff_toNat_le]
  split_ifs <;> omega

theorem Qsort.pairwise_le (q : Qsort) (hashes : List UInt64) :
    (q.run hashes).Pairwise (· ≤ ·) :=
  (q.sorted hashes).imp fun h => (cmpUInt64_le_zero_iff _ _).1 h

/-- Insertion sort is such a function. -/
def insertionQsort : Qsort where
  run := List.insertionSort (· ≤ ·)
  perm := List.perm_insertionSort (· ≤ ·)
  sorted hashes := (List.pairwise_insertionSort (· ≤ ·) hashes).imp fun h =>
    (cmpUInt64_le_zero_iff _ _).2 h

/-- The array `orig` after `i` rounds of the loop: only entries before `i - 1`
may have changed, and the prefix written so far lists `orig` up to `i`. -/
structure DedupInv (orig : List UInt64) (i : ℕ) (s : List UInt64 × ℕ) : Prop where
  length_eq : s.1.length = orig.length
  count_le : s.2 ≤ i
  unread : ∀ j, i ≤ j + 1 → s.1.getD j 0 = orig.getD j 0
  mem : ∀ a, a ∈ s.1.take s.2 ↔ a ∈ orig.take i
  sorted : (s.1.take s.2).Pairwise (· < ·)

theorem take_succ_set {l : List UInt64} {u : ℕ} (hu : u < l.length) (a : UInt64) :
    (l.set u a).take (u + 1) = l.take u ++ [a] := by
  rw [List.take_add_one, List.take_set_of_le (le_refl u), List.getElem?_set_self hu]
  rfl

theorem take_succ_getD {l : List UInt64} {i : ℕ} (hi : i < l.length) :
    l.take (i + 1) = l.take i ++ [l.getD i 0] := by
  rw [List.take_add_one, List.getD_eq_getElem?_getD, List.getElem?_eq_getElem hi]
  rfl

theorem DedupInv.init (orig : List UInt64) : DedupInv orig 0 (orig, 0) :=
  ⟨rfl, le_rfl, fun _ _ => rfl, by simp, by simp⟩

section Step

variable {orig : List UInt64} {i : ℕ} {s : List UInt64 × ℕ}

/-- A sorted array puts whatever precedes an entry at or below its neighbour. -/
theorem lt_of_mem_take (hsort : orig.Pairwise (· ≤ ·)) (hi : i < orig.length) (h0 : i ≠ 0)
    (hne : orig.getD i 0 ≠ orig.getD (i - 1) 0) {a : UInt64} (ha : a ∈ orig.take i) :
    a < orig.getD i 0 := by
  have hsplit : orig.take i = orig.take (i - 1) ++ [orig.getD (i - 1) 0] := by
    rw [← take_succ_getD (by omega), Nat.sub_add_cancel (Nat.pos_of_ne_zero h0)]
  have hle := (List.pairwise_append.1 ((hsplit ▸ hsort.sublist (List.take_sublist i orig) :
    (orig.take (i - 1) ++ [orig.getD (i - 1) 0]).Pairwise (· ≤ ·)))).2.2
  have hstep := hsort.sublist (List.take_sublist (i + 1) orig)
  rw [take_succ_getD hi] at hstep
  have hlast := (List.pairwise_append.1 hstep).2.2 (orig.getD (i - 1) 0)
    (by rw [hsplit]; simp) (orig.getD i 0) (by simp)
  have hlt : orig.getD (i - 1) 0 < orig.getD i 0 := UInt64.lt_of_le_of_ne hlast (Ne.symm hne)
  rw [hsplit] at ha
  rcases List.mem_append.1 ha with ha | ha
  · exact UInt64.lt_of_le_of_lt (hle a ha _ (by simp)) hlt
  · rw [List.mem_singleton.1 ha]
    exact hlt

/-- An entry that differs from its neighbour is appended to the prefix. -/
theorem DedupInv.append (hsort : orig.Pairwise (· ≤ ·)) (h : DedupInv orig i s)
    (hi : i < orig.length) (hnew : i = 0 ∨ orig.getD i 0 ≠ orig.getD (i - 1) 0) :
    DedupInv orig (i + 1) (s.1.set s.2 (orig.getD i 0), s.2 + 1) := by
  have hcount := h.count_le
  have hlen := h.length_eq
  have hu : s.2 < s.1.length := by omega
  refine ⟨?_, ?_, fun j hj => ?_, fun a => ?_, ?_⟩
  · rw [List.length_set, hlen]
  · exact Nat.succ_le_succ hcount
  · -- a write at `i` itself stores what is there
    by_cases hj' : s.2 = j
    · have hji : j = i := by omega
      subst hj'
      rw [List.getD_eq_getElem?_getD, List.getElem?_set_self hu, hji, Option.getD_some]
    · rw [List.getD_eq_getElem?_getD, List.getElem?_set_ne hj', ← List.getD_eq_getElem?_getD]
      exact h.unread j (by omega)
  · rw [take_succ_set hu, take_succ_getD hi, List.mem_append, List.mem_append, h.mem]
  · rw [take_succ_set hu]
    refine List.pairwise_append.2 ⟨h.sorted, List.pairwise_singleton _ _, fun a ha b hb => ?_⟩
    rw [List.mem_singleton.1 hb]
    have ha := (h.mem a).1 ha
    rcases Nat.eq_zero_or_pos i with rfl | hpos
    · simp at ha
    · exact lt_of_mem_take hsort hi (by omega) (by simpa [Nat.pos_iff_ne_zero.1 hpos] using hnew) ha

/-- An entry that repeats its neighbour is in the prefix already. -/
theorem DedupInv.drop (h : DedupInv orig i s) (hi : i < orig.length) (hpos : 0 < i)
    (heq : orig.getD i 0 = orig.getD (i - 1) 0) : DedupInv orig (i + 1) s := by
  refine ⟨h.length_eq, h.count_le.trans (Nat.le_succ i), fun j hj => h.unread j (by omega),
    fun a => ?_, h.sorted⟩
  rw [h.mem, take_succ_getD hi, List.mem_append, List.mem_singleton]
  constructor
  · exact Or.inl
  · rintro (ha | rfl)
    · exact ha
    · have hsplit := take_succ_getD (l := orig) (i := i - 1) (by omega)
      rw [Nat.sub_add_cancel hpos] at hsplit
      rw [heq, hsplit]
      simp

theorem DedupInv.step (hsort : orig.Pairwise (· ≤ ·)) (h : DedupInv orig i s)
    (hi : i < orig.length) : DedupInv orig (i + 1) (dedupStep s i) := by
  rw [dedupStep, h.unread i (by omega), h.unread (i - 1) (by omega)]
  split_ifs with hnew
  · exact h.append hsort hi hnew
  · simp only [not_or, not_not] at hnew
    exact h.drop hi (Nat.pos_of_ne_zero hnew.1) hnew.2

end Step

theorem dedup_inv {orig : List UInt64} (hsort : orig.Pairwise (· ≤ ·)) :
    DedupInv orig orig.length ((List.range orig.length).foldl dedupStep (orig, 0)) := by
  have h (i : ℕ) (hi : i ≤ orig.length) :
      DedupInv orig i ((List.range i).foldl dedupStep (orig, 0)) := by
    induction i with
    | zero => exact DedupInv.init orig
    | succ i ih =>
      rw [List.range_succ, List.foldl_append]
      exact (ih (by omega)).step hsort hi
  exact h orig.length le_rfl

theorem mem_dedup {orig : List UInt64} (hsort : orig.Pairwise (· ≤ ·)) (a : UInt64) :
    a ∈ dedup orig ↔ a ∈ orig := by
  have h := (dedup_inv hsort).mem a
  rwa [List.take_length] at h

theorem dedup_sorted {orig : List UInt64} (hsort : orig.Pairwise (· ≤ ·)) :
    (dedup orig).Pairwise (· < ·) := (dedup_inv hsort).sorted

/-! With `qsort` in front -/

theorem mem_dedup_qsort (q : Qsort) (raw : List UInt64) (a : UInt64) :
    a ∈ dedup (q.run raw) ↔ a ∈ raw := by
  rw [mem_dedup (q.pairwise_le raw), (q.perm raw).mem_iff]

/-- The array `xor_build` receives depends on the set of the hashes alone. -/
theorem dedup_qsort_congr (q q' : Qsort) {raw raw' : List UInt64}
    (h : ∀ a, a ∈ raw ↔ a ∈ raw') : dedup (q.run raw) = dedup (q'.run raw') := by
  refine (dedup_sorted (q.pairwise_le raw)).eq_of_mem_iff (dedup_sorted (q'.pairwise_le raw'))
    fun a => ?_
  rw [mem_dedup_qsort, mem_dedup_qsort, h]

end RedisXor
