import Mathlib.Tactic.SplitIfs
import RedisXor.Lib.Arrays
import RedisXor.Spec.Tools

/-! The ring of `tools/queue.c` is a FIFO list: `queueGet` takes its head and
`queueAdd` appends to its end, also when the ring wraps around or doubles. One
cell always stays free, so equal indices mean an empty ring. -/

namespace RedisXor

open Arrays

structure QueueOk (q : Queue) : Prop where
  length_eq : q.data.length = q.capacity
  first_lt : q.first < q.capacity
  last_lt : q.last < q.capacity
  capacity_lt : q.capacity < 2 ^ 32

def queueSize (q : Queue) : ℕ :=
  if q.first ≤ q.last then q.last - q.first else q.capacity - q.first + q.last

/-- The elements in the order `queueGet` will return them. -/
def queueList (q : Queue) : List ℕ :=
  (List.range (queueSize q)).map fun i => q.data.getD ((q.first + i) % q.capacity) 0

theorem wrap32_of_lt {n : ℕ} (h : n < 2 ^ 32) : wrap32 n = n := Nat.mod_eq_of_lt h

/-- An index that has gone round at most once. -/
theorem ring_index {a c : ℕ} (h : a < 2 * c) : a % c = if a < c then a else a - c := by
  split_ifs with hlt
  · exact Nat.mod_eq_of_lt hlt
  · rw [Nat.mod_eq_sub_mod (by omega), Nat.mod_eq_of_lt (by omega)]

@[simp] theorem length_queueList (q : Queue) : (queueList q).length = queueSize q := by
  simp [queueList]

theorem queueSize_lt {q : Queue} (h : QueueOk q) : queueSize q < q.capacity := by
  have := h.first_lt
  have := h.last_lt
  unfold queueSize
  split_ifs <;> omega

theorem queueIsEmpty_iff {q : Queue} (h : QueueOk q) :
    queueIsEmpty q = true ↔ queueList q = [] := by
  rw [← List.length_eq_zero_iff, length_queueList, queueIsEmpty, beq_iff_eq]
  have := h.first_lt
  unfold queueSize
  split_ifs <;> omega

theorem queueCreate_ok {capacity : ℕ} (h0 : 0 < capacity) (h : capacity < 2 ^ 32) :
    QueueOk (queueCreate capacity) :=
  ⟨List.length_replicate, h0, h0, h⟩

theorem queueClean_ok {q : Queue} (h : QueueOk q) : QueueOk (queueClean q) := by
  have h0 : 0 < q.capacity := by have := h.first_lt; omega
  exact ⟨h.length_eq, h0, h0, h.capacity_lt⟩

@[simp] theorem queueList_clean (q : Queue) : queueList (queueClean q) = [] := by
  simp [queueList, queueSize, queueClean]

theorem queueGet_ok {q : Queue} (h : QueueOk q) : QueueOk (queueGet q).2 := by
  have h0 : 0 < q.capacity := by have := h.first_lt; omega
  exact ⟨h.length_eq, Nat.mod_lt _ h0, h.last_lt, h.capacity_lt⟩

/-- `Queue_Get` returns the head of the list and leaves its tail. -/
theorem queueGet_spec {q : Queue} (h : QueueOk q) {a : ℕ} {rest : List ℕ}
    (hq : queueList q = a :: rest) :
    (queueGet q).1 = a ∧ queueList (queueGet q).2 = rest := by
  have hf := h.first_lt
  have hl := h.last_lt
  have hc := h.capacity_lt
  have hsize : queueSize q = rest.length + 1 := by rw [← length_queueList, hq, List.length_cons]
  have hsize' : queueSize (queueGet q).2 = rest.length := by
    simp only [queueSize, queueGet, wrap32_of_lt (show q.first + 1 < 2 ^ 32 by omega),
      ring_index (show q.first + 1 < 2 * q.capacity by omega)] at hsize ⊢
    split_ifs at hsize ⊢ <;> omega
  rw [queueList, hsize, List.range_succ_eq_map, List.map_cons, List.map_map] at hq
  obtain ⟨ha, hrest⟩ := List.cons.inj hq
  refine ⟨by rw [← ha, Nat.add_zero, Nat.mod_eq_of_lt hf]; rfl, ?_⟩
  rw [queueList, hsize']
  refine Eq.trans (List.map_congr_left fun i hi => ?_) hrest
  have hi := List.mem_range.1 hi
  have hlt := queueSize_lt h
  simp only [queueGet, Function.comp, wrap32_of_lt (show q.first + 1 < 2 ^ 32 by omega),
    Nat.mod_add_mod]
  rw [Nat.add_assoc, Nat.add_comm 1 i]

theorem queueGrow_spec (mem : Memory) {q : Queue} (h : QueueOk q)
    (hroom : 2 * q.capacity < 2 ^ 32) :
    (queueGrow mem q).capacity = 2 * q.capacity ∧ (queueGrow mem q).first = 0 ∧
      (queueGrow mem q).last = queueSize q ∧
      (queueGrow mem q).data.length = 2 * q.capacity ∧
      ∀ i < queueSize q, (queueGrow mem q).data.getD i 0 =
        q.data.getD ((q.first + i) % q.capacity) 0 := by
  have hf := h.first_lt
  have hl := h.last_lt
  have hlt := queueSize_lt h
  have hsize : (if q.first ≤ q.last then q.last - q.first
      else wrap32 (q.capacity + (2 ^ 32 - q.first) + q.last)) = queueSize q := by
    unfold queueSize wrap32
    split_ifs <;> omega
  have hcap : wrap32 (q.capacity * 2) = 2 * q.capacity := by
    rw [Nat.mul_comm, wrap32_of_lt hroom]
  simp only [queueGrow, hsize, hcap, List.length_map, List.length_range, true_and]
  intro i hi
  rw [getD_map_range _ _ (show i < 2 * q.capacity by omega), if_pos hi,
    wrap32_of_lt (show q.first + i < 2 ^ 32 by omega)]

/-- The index `Queue_Add` moves to. -/
theorem queueNext_eq {q : Queue} (h : QueueOk q) : wrap32 (q.last + 1) % q.capacity =
    if q.last + 1 < q.capacity then q.last + 1 else q.last + 1 - q.capacity := by
  have hl := h.last_lt
  have hc := h.capacity_lt
  rw [wrap32_of_lt (by omega), ring_index (by omega)]

/-- `Queue_Add` finds every cell but one occupied. -/
def RingFull (q : Queue) : Prop := wrap32 (q.last + 1) % q.capacity = q.first

instance (q : Queue) : Decidable (RingFull q) := by
  unfold RingFull
  infer_instance

theorem queueAdd_of_full (mem : Memory) {q : Queue} (object : ℕ) (hfull : RingFull q) :
    queueAdd mem q object = { queueGrow mem q with
      data := (queueGrow mem q).data.set (queueGrow mem q).last object
      last := wrap32 ((queueGrow mem q).last + 1) } := if_pos hfull

theorem queueAdd_of_not_full (mem : Memory) {q : Queue} (object : ℕ) (hfree : ¬ RingFull q) :
    queueAdd mem q object = { q with
      data := q.data.set q.last object, last := wrap32 (q.last + 1) % q.capacity } := if_neg hfree

theorem RingFull.capacity_eq {q : Queue} (hfull : RingFull q) (h : QueueOk q) :
    q.capacity = queueSize q + 1 := by
  have hf := h.first_lt
  have hl := h.last_lt
  rw [RingFull, queueNext_eq h] at hfull
  unfold queueSize
  split_ifs at hfull ⊢ <;> omega

/-- The element is behind the others when a cell is free. -/
theorem queueAdd_free (mem : Memory) {q : Queue} (h : QueueOk q) (object : ℕ)
    (hfree : ¬ RingFull q) :
    QueueOk (queueAdd mem q object) ∧
      queueList (queueAdd mem q object) = queueList q ++ [object] := by
  have hf := h.first_lt
  have hl := h.last_lt
  have hc := h.capacity_lt
  have hlen := h.length_eq
  have hlt := queueSize_lt h
  have hadd := queueAdd_of_not_full mem object hfree
  have hsize : queueSize (queueAdd mem q object) = queueSize q + 1 := by
    rw [hadd, queueSize, queueSize]
    simp only [RingFull, queueNext_eq h] at hfree ⊢
    split_ifs at hfree ⊢ <;> omega
  have hend : (q.first + queueSize q) % q.capacity = q.last := by
    rw [ring_index (by omega)]
    unfold queueSize
    split_ifs <;> omega
  refine ⟨?_, ?_⟩
  · rw [hadd]
    exact ⟨by simp [hlen], hf, Nat.mod_lt _ (by omega), hc⟩
  · rw [queueList, hsize, List.range_succ, List.map_append, List.map_cons, List.map_nil, hadd]
    congr 1
    · refine List.map_congr_left fun i hi => ?_
      have hi : i < queueSize q := List.mem_range.1 hi
      refine getD_set_ne _ ?_ _ _
      dsimp only
      rw [ring_index (by omega)]
      unfold queueSize at hi
      split_ifs at hi ⊢ <;> omega
    · dsimp only
      rw [hend, getD_set_self _ (by omega)]

/-- When every cell but one is live, the ring doubles and is laid out from cell 0. -/
theorem queueAdd_full (mem : Memory) {q : Queue} (h : QueueOk q) (object : ℕ)
    (hfull : RingFull q) (hroom : 2 * (queueSize q + 1) < 2 ^ 32) :
    QueueOk (queueAdd mem q object) ∧
      queueList (queueAdd mem q object) = queueList q ++ [object] := by
  have hcap := hfull.capacity_eq h
  obtain ⟨gcap, gfirst, glast, glen, gdata⟩ := queueGrow_spec mem h (by omega)
  have hadd : queueAdd mem q object = { queueGrow mem q with
      data := (queueGrow mem q).data.set (queueSize q) object, last := queueSize q + 1 } := by
    rw [queueAdd_of_full mem object hfull, glast,
      wrap32_of_lt (show queueSize q + 1 < 2 ^ 32 by omega)]
  have hsize : queueSize (queueAdd mem q object) = queueSize q + 1 := by
    rw [hadd, queueSize]
    simp only [gfirst, Nat.zero_le, if_true, Nat.sub_zero]
  rw [queueList, hsize, hadd]
  refine ⟨⟨?_, ?_, ?_, ?_⟩, ?_⟩
  · simp only [List.length_set, glen, gcap]
  · simp only [gfirst, gcap]
    omega
  · simp only [gcap]
    omega
  · simp only [gcap]
    omega
  · simp only [gfirst, gcap, List.range_succ, List.map_append, List.map_cons, List.map_nil,
      Nat.zero_add]
    congr 1
    · refine List.map_congr_left fun i hi => ?_
      have hi : i < queueSize q := List.mem_range.1 hi
      rw [Nat.mod_eq_of_lt (by omega), getD_set_ne _ (by omega)]
      exact gdata i hi
    · rw [Nat.mod_eq_of_lt (by omega), getD_set_self _ (by omega)]

/-- `Queue_Add` appends, provided the ring can double within 32 bits when it is
full. -/
theorem queueAdd_spec (mem : Memory) {q : Queue} (h : QueueOk q) (object : ℕ)
    (hroom : 2 * (queueSize q + 1) < 2 ^ 32) :
    QueueOk (queueAdd mem q object) ∧
      queueList (queueAdd mem q object) = queueList q ++ [object] := by
  by_cases hfull : RingFull q
  · exact queueAdd_full mem h object hfull hroom
  · exact queueAdd_free mem h object hfull

theorem queueSize_add (mem : Memory) {q : Queue} (h : QueueOk q) (object : ℕ)
    (hroom : 2 * (queueSize q + 1) < 2 ^ 32) :
    queueSize (queueAdd mem q object) = queueSize q + 1 := by
  rw [← length_queueList, (queueAdd_spec mem h object hroom).2, List.length_append,
    length_queueList, List.length_singleton]

/-- `Queue_Add` of several elements in turn. -/
theorem queueAdd_foldl_spec (mem : Memory) {q : Queue} (h : QueueOk q) (objects : List ℕ)
    (hroom : 2 * (queueSize q + objects.length) < 2 ^ 32) :
    QueueOk (objects.foldl (queueAdd mem) q) ∧
      queueList (objects.foldl (queueAdd mem) q) = queueList q ++ objects := by
  induction objects generalizing q with
  | nil => exact ⟨h, (List.append_nil _).symm⟩
  | cons a objects ih =>
    rw [List.length_cons] at hroom
    obtain ⟨hok, hlist⟩ := queueAdd_spec mem h a (by omega)
    have hsize := queueSize_add mem h a (by omega)
    obtain ⟨hok', hlist'⟩ := ih hok (by omega)
    refine ⟨hok', ?_⟩
    rw [List.foldl_cons, hlist', hlist, List.append_assoc]
    rfl

end RedisXor
