import RedisXor.Lib.Refinement
import RedisXor.Proofs.Queue

/-! The queue of `tools/queue.c` under any sequence of calls: it cannot be told
from an unbounded FIFO list, and no call leaves the buffer it works on. -/

namespace RedisXor

open Refinement

/-- The calls between `Queue_Create` and `Queue_Free`. -/
inductive QueueCall where
  | add (object : ℕ)
  | get
  | isEmpty
  | clean
  deriving DecidableEq

inductive QueueAnswer where
  | done
  | object (x : ℕ)
  | flag (b : Bool)
  deriving DecidableEq

/-- `Queue_Get` is called on a nonempty ring only, and fewer than 2^30 elements
are queued at any time. -/
def ringMachine (mem : Memory) : Machine Queue QueueCall QueueAnswer where
  pre q
    | .add _ => queueSize q + 1 < 2 ^ 30
    | .get => queueIsEmpty q = false
    | _ => True
  step q
    | .add object => (.done, queueAdd mem q object)
    | .get => (.object (queueGet q).1, (queueGet q).2)
    | .isEmpty => (.flag (queueIsEmpty q), q)
    | .clean => (.done, queueClean q)

/-- A list whose head is the oldest element. -/
def fifoMachine : Machine (List ℕ) QueueCall QueueAnswer where
  pre l
    | .add _ => l.length + 1 < 2 ^ 30
    | .get => l ≠ []
    | _ => True
  step l
    | .add object => (.done, l ++ [object])
    | .get => (.object (l.headD 0), l.tail)
    | .isEmpty => (.flag l.isEmpty, l)
    | .clean => (.done, [])

def RingHolds (q : Queue) (l : List ℕ) : Prop := QueueOk q ∧ queueList q = l

theorem queueIsEmpty_eq {q : Queue} (h : QueueOk q) : queueIsEmpty q = (queueList q).isEmpty := by
  rw [Bool.eq_iff_iff, queueIsEmpty_iff h, List.isEmpty_iff]

theorem ring_refines (mem : Memory) : Refines (ringMachine mem) fifoMachine RingHolds where
  pre_iff := by
    rintro q _ (object | _ | _ | _) ⟨hq, rfl⟩
    · simp only [ringMachine, fifoMachine, length_queueList]
    · simp only [ringMachine, fifoMachine, queueIsEmpty_eq hq, List.isEmpty_eq_false_iff]
    · exact Iff.rfl
    · exact Iff.rfl
  answer := by
    rintro q _ (object | _ | _ | _) ⟨hq, rfl⟩ hpre
    · rfl
    · obtain ⟨a, rest, hl⟩ := List.exists_cons_of_ne_nil hpre
      simp only [ringMachine, fifoMachine, hl, List.headD_cons, (queueGet_spec hq hl).1]
    · simp only [ringMachine, fifoMachine, queueIsEmpty_eq hq]
    · rfl
  step := by
    rintro q _ (object | _ | _ | _) ⟨hq, rfl⟩ hpre
    · have hroom : queueSize q + 1 < 2 ^ 30 := length_queueList q ▸ hpre
      exact queueAdd_spec mem hq object (by omega)
    · obtain ⟨a, rest, hl⟩ := List.exists_cons_of_ne_nil hpre
      refine ⟨queueGet_ok hq, ?_⟩
      simp only [ringMachine, fifoMachine, hl, List.tail_cons, (queueGet_spec hq hl).2]
    · exact ⟨hq, rfl⟩
    · exact ⟨queueClean_ok hq, queueList_clean q⟩

/-! Cells -/

/-- The cells of the buffer that a call reads: growing copies the live ones. -/
def cellsRead (mem : Memory) (q : Queue) : QueueCall → List ℕ
  | .add _ => if RingFull q then
      (List.range (queueGrow mem q).last).map fun i => wrap32 (q.first + i) % q.capacity else []
  | .get => [q.first]
  | _ => []

/-- The cells that a call writes, in the buffer it leaves. -/
def cellsWritten (mem : Memory) (q : Queue) : QueueCall → List ℕ
  | .add _ => if RingFull q then List.range ((queueGrow mem q).last + 1) else [q.last]
  | _ => []

structure InsideBuffer (mem : Memory) (q : Queue) (call : QueueCall) : Prop where
  read : ∀ i ∈ cellsRead mem q call, i < q.data.length
  written : ∀ i ∈ cellsWritten mem q call, i < ((ringMachine mem).step q call).2.data.length

theorem insideBuffer_add (mem : Memory) {q : Queue} (h : QueueOk q) (object : ℕ)
    (hroom : queueSize q + 1 < 2 ^ 30) : InsideBuffer mem q (.add object) := by
  have hcap : 0 < q.capacity := by have := h.first_lt; omega
  have hlen := h.length_eq
  by_cases hfull : RingFull q
  · have hsize := hfull.capacity_eq h
    obtain ⟨-, -, glast, glen, -⟩ := queueGrow_spec mem h (by omega)
    refine ⟨fun i hi => ?_, fun i hi => ?_⟩
    · rw [cellsRead, if_pos hfull] at hi
      obtain ⟨j, -, rfl⟩ := List.mem_map.1 hi
      rw [hlen]
      exact Nat.mod_lt _ hcap
    · rw [cellsWritten, if_pos hfull, List.mem_range, glast] at hi
      simp only [ringMachine, queueAdd_of_full mem object hfull, List.length_set, glen]
      omega
  · refine ⟨fun i hi => ?_, fun i hi => ?_⟩
    · rw [cellsRead, if_neg hfull] at hi
      exact absurd hi List.not_mem_nil
    · rw [cellsWritten, if_neg hfull, List.mem_singleton] at hi
      have hlast := h.last_lt
      simp only [ringMachine, queueAdd_of_not_full mem object hfull, List.length_set]
      omega

/-- Every allowed call stays inside the buffer. -/
theorem insideBuffer (mem : Memory) {q : Queue} (h : QueueOk q) {call : QueueCall}
    (hpre : (ringMachine mem).pre q call) : InsideBuffer mem q call := by
  cases call with
  | add object => exact insideBuffer_add mem h object hpre
  | get =>
    refine ⟨fun i hi => ?_, fun i hi => absurd hi List.not_mem_nil⟩
    rw [List.mem_singleton.1 hi, h.length_eq]
    exact h.first_lt
  | isEmpty =>
    exact ⟨fun i hi => absurd hi List.not_mem_nil, fun i hi => absurd hi List.not_mem_nil⟩
  | clean =>
    exact ⟨fun i hi => absurd hi List.not_mem_nil, fun i hi => absurd hi List.not_mem_nil⟩

/-! Any sequence of calls -/

/-- The ring is a FIFO queue: its users are allowed the same calls as those of
the list, get the same answers, and leave the same elements queued. -/
theorem queue_is_fifo (mem : Memory) {capacity : ℕ} (h0 : 1 ≤ capacity) (hc : capacity < 2 ^ 30)
    (calls : List QueueCall) :
    let ring := ringMachine mem
    let start := queueCreate capacity
    (ring.Admits start calls ↔ fifoMachine.Admits [] calls) ∧
      (ring.Admits start calls →
        ring.answers start calls = fifoMachine.answers [] calls ∧
        queueList (ring.state start calls) = fifoMachine.state [] calls ∧
        ∀ before call after, calls = before ++ call :: after →
          InsideBuffer mem (ring.state start before) call) := by
  intro ring start
  have href := ring_refines mem
  have hstart : RingHolds start [] := ⟨queueCreate_ok h0 (by omega), rfl⟩
  have hiff := href.admits_iff hstart calls
  refine ⟨hiff, fun hadm => ?_⟩
  have hadm' := hiff.1 hadm
  refine ⟨href.answers hstart hadm', (href.state hstart hadm').2, ?_⟩
  rintro before call after rfl
  obtain ⟨hrel, hpre⟩ := href.call hstart hadm'
  exact insideBuffer mem hrel.1 ((href.pre_iff _ _ _ hrel).2 hpre)

/-- From capacity 1: the ring grows twice while it fills, wraps around and then
grows once more. -/
theorem queue_is_fifo_wrapped :
    let calls : List QueueCall := [.add 7, .add 8, .add 9, .get, .get, .add 10, .add 11, .add 12,
      .get, .isEmpty, .get]
    (ringMachine default).answers (queueCreate 1) calls = [.done, .done, .done, .object 7,
      .object 8, .done, .done, .done, .object 9, .flag false, .object 10] ∧
    ((ringMachine default).state (queueCreate 1) calls).reallocations = 3 := by
  intro calls
  have hadm : (ringMachine default).Admits (queueCreate 1) calls := by
    simp only [calls, Machine.Admits, ringMachine]
    decide +kernel
  obtain ⟨-, h⟩ := queue_is_fifo default (show 1 ≤ 1 by decide) (by decide) calls
  exact ⟨(h hadm).1, by decide +kernel⟩

end RedisXor
