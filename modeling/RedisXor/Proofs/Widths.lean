import RedisXor.Proofs.Completeness
import RedisXor.Proofs.Stack

/-! The widths that meet in `xor_build`: a `size_t` count, `uint32_t` sizes and
a 30-bit field of `Pair`. Nothing checks the count against any of them. -/

namespace RedisXor

/-- No narrowing loses anything for `n` keys: the slot count is the true one and
not below `n`, and `assign` pops the pairs that `map` pushed. -/
structure WidthsSuffice (n : ℕ) : Prop where
  total_eq : wrap32 (buildSegmentSize n * 3) = 3 * ((41 * n + 99) / 100)
  le_total : n ≤ wrap32 (buildSegmentSize n * 3)
  popped : ∀ pairs : List (ℕ × ℕ), pairs.length ≤ n → (∀ p ∈ pairs, p.1 < n ∧ p.2 < 3) →
    popPairs pairs.length (pushPairs (stackCreate n) pairs) = pairs.reverse

/-- The slot count alone lasts longer than the key index. -/
theorem total_eq_iff {n : ℕ} (hn : n < 2 ^ 32) :
    wrap32 (buildSegmentSize n * 3) = 3 * ((41 * n + 99) / 100) ↔
      3 * ((41 * n + 99) / 100) < 2 ^ 32 := by
  have hs : buildSegmentSize n = (41 * n + 99) / 100 := wrap32_of_lt (by omega)
  rw [hs, wrap32]
  omega

/-- The first key index that does not fit comes back as zero. -/
theorem popPairs_overflow {n : ℕ} (h : 1 ≤ n) :
    popPairs 1 (pushPairs (stackCreate n) [(2 ^ 30, 0)]) = [(0, 0)] :=
  @popPairs_pushPairs n [(2 ^ 30, 0)] h

theorem popped_of_le {n : ℕ} (hn : n ≤ 2 ^ 30) {pairs : List (ℕ × ℕ)} (hlen : pairs.length ≤ n)
    (hpairs : ∀ p ∈ pairs, p.1 < n ∧ p.2 < 3) :
    popPairs pairs.length (pushPairs (stackCreate n) pairs) = pairs.reverse := by
  rw [popPairs_pushPairs hlen]
  congr 1
  refine (List.map_congr_left fun p hp => ?_).trans (List.map_id pairs)
  obtain ⟨hx, hslot⟩ := hpairs p hp
  exact Prod.ext (Nat.mod_eq_of_lt (by omega)) (Nat.mod_eq_of_lt (by omega))

theorem widthsSuffice_iff {n : ℕ} (h0 : 1 ≤ n) (hn : n < 2 ^ 32) :
    WidthsSuffice n ↔ n ≤ 2 ^ 30 := by
  constructor
  · intro h
    by_contra hbig
    have hpop := h.popped [(2 ^ 30, 0)] h0 (by simp; omega)
    rw [List.length_singleton, popPairs_overflow h0] at hpop
    exact absurd hpop (by decide)
  · intro hle
    have htotal := (total_eq_iff hn).2 (by omega)
    exact ⟨htotal, by rw [htotal]; omega, fun pairs => popped_of_le hle⟩

theorem widthsSuffice_five : WidthsSuffice 5 :=
  (widthsSuffice_iff (by decide) (by decide)).2 (by decide)

/-- With one key more than the field can number, the last key is popped as key 0. -/
theorem widths_fail_past_field : ¬ WidthsSuffice (2 ^ 30 + 1) ∧
    popPairs 1 (pushPairs (stackCreate (2 ^ 30 + 1)) [(2 ^ 30, 0)]) = [(0, 0)] := by
  have hpop : popPairs 1 (pushPairs (stackCreate (2 ^ 30 + 1)) [(2 ^ 30, 0)]) = [(0, 0)] :=
    popPairs_overflow (by decide)
  refine ⟨fun h => ?_, hpop⟩
  have hclaim := h.popped [(2 ^ 30, 0)] (by decide) (by simp)
  rw [List.length_singleton, hpop] at hclaim
  exact absurd hclaim (by decide)

end RedisXor
