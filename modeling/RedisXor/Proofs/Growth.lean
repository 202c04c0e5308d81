import RedisXor.Proofs.Queue

/-! How often the ring grows. It doubles only when all its cells but one are
live, so a ring that never holds more than `bound` elements stops growing once
it has more than `bound` cells. -/

namespace RedisXor

/-- The ring has doubled at most twice since it had `start` cells, and no
doubling was cut to 32 bits. -/
structure RingBounded (start : ℕ) (q : Queue) : Prop where
  capacity_eq : q.capacity = start * 2 ^ q.reallocations
  reallocations_le : q.reallocations ≤ 2
  capacity_lt : q.capacity < 2 ^ 32

theorem queueCreate_bounded {start : ℕ} (h : start < 2 ^ 32) :
    RingBounded start (queueCreate start) :=
  ⟨(Nat.mul_one start).symm, Nat.zero_le 2, h⟩

section Grow

variable (mem : Memory) {start bound : ℕ} {q : Queue}

theorem RingBounded.clean (h : RingBounded start q) : RingBounded start (queueClean q) :=
  ⟨h.capacity_eq, h.reallocations_le, h.capacity_lt⟩

theorem RingBounded.get (h : RingBounded start q) : RingBounded start (queueGet q).2 :=
  ⟨h.capacity_eq, h.reallocations_le, h.capacity_lt⟩

/-- A full ring that has doubled twice would hold `bound` elements already. -/
theorem RingBounded.add (h : RingBounded start q) (hq : QueueOk q) (hbound : bound < 2 ^ 31)
    (hstart : bound < 4 * start) (hroom : queueSize q + 1 ≤ bound) (object : ℕ) :
    RingBounded start (queueAdd mem q object) := by
  have hcap := h.capacity_eq
  have hle := h.reallocations_le
  by_cases hfull : RingFull q
  · have hsize := hfull.capacity_eq hq
    have hlt : q.reallocations < 2 := by
      by_contra hnot
      rw [show q.reallocations = 2 by omega] at hcap
      omega
    have hdouble : wrap32 (q.capacity * 2) = q.capacity * 2 := wrap32_of_lt (by omega)
    have hcount : wrap32 (q.reallocations + 1) = q.reallocations + 1 := wrap32_of_lt (by omega)
    rw [queueAdd_of_full mem object hfull]
    refine ⟨?_, ?_, ?_⟩
    · simp only [queueGrow, hdouble, hcount]
      rw [hcap, pow_succ, Nat.mul_assoc]
    · simp only [queueGrow, hcount]
      omega
    · simp only [queueGrow, hdouble]
      omega
  · rw [queueAdd_of_not_full mem object hfull]
    exact ⟨hcap, hle, h.capacity_lt⟩

theorem RingBounded.foldl_add (h : RingBounded start q) (hq : QueueOk q) (hbound : bound < 2 ^ 31)
    (hstart : bound < 4 * start) (objects : List ℕ)
    (hroom : queueSize q + objects.length ≤ bound) :
    RingBounded start (objects.foldl (queueAdd mem) q) := by
  induction objects generalizing q with
  | nil => exact h
  | cons a objects ih =>
    rw [List.length_cons] at hroom
    have hadd := h.add mem hq hbound hstart (by omega) a
    have hok := (queueAdd_spec mem hq a (by omega)).1
    have hsize := queueSize_add mem hq a (by omega)
    exact ih hadd hok (by omega)

end Grow

end RedisXor
