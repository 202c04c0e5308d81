import Mathlib.Data.List.Induction
import RedisXor.Spec.Tools

/-! The stack of `tools/stack.c` as the list of its pairs, the first pushed
first. Popping only lowers `head`, so the list is the part of the array below it. -/

namespace RedisXor

structure StackIs (l : List Pair) (stack : Stack) : Prop where
  head : stack.head = l.length
  data : stack.data.take l.length = l

theorem stackIs_create (capacity : ℕ) : StackIs [] (stackCreate capacity) := ⟨rfl, rfl⟩

theorem StackIs.push {l : List Pair} {stack : Stack} (h : StackIs l stack)
    (hroom : l.length < stack.data.length) (pair : Pair) :
    StackIs (l ++ [pair]) (stackPush stack pair) := by
  refine ⟨?_, ?_⟩
  · simp only [stackPush, h.head, List.length_append, List.length_singleton]
  · simp only [stackPush, h.head, List.length_append, List.length_singleton]
    rw [List.take_add_one, List.take_set_of_le (Nat.le_refl _), h.data,
      List.getElem?_set_self hroom]
    rfl

theorem StackIs.pop {l : List Pair} {pair : Pair} {stack : Stack}
    (h : StackIs (l ++ [pair]) stack) :
    (stackPop stack).1 = pair ∧ StackIs l (stackPop stack).2 := by
  obtain ⟨hhead, hdata⟩ := h
  rw [List.length_append, List.length_singleton] at hhead hdata
  have hget : stack.data[l.length]? = some pair := by
    rw [← List.getElem?_take_of_lt (Nat.lt_succ_self l.length), hdata,
      List.getElem?_append_right (Nat.le_refl _), Nat.sub_self]
    rfl
  have hhead' : (stackPop stack).2.head = l.length := by
    simp only [stackPop, hhead, Nat.add_sub_cancel]
  refine ⟨?_, hhead', ?_⟩
  · simp only [stackPop, hhead, Nat.add_sub_cancel]
    rw [List.getD_eq_getElem?_getD, hget, Option.getD_some]
  · have htake := congrArg (List.take l.length) hdata
    rwa [List.take_take, Nat.min_eq_left (Nat.le_succ _), List.take_left' rfl] at htake

/-- A stack of encoded values. -/
theorem StackIs.pop_map {α : Type*} {f : α → Pair} {l : List α} {a : α} {stack : Stack}
    (h : StackIs ((l ++ [a]).map f) stack) :
    (stackPop stack).1 = f a ∧ StackIs (l.map f) (stackPop stack).2 := by
  rw [List.map_append, List.map_singleton] at h
  exact h.pop

/-! Many pairs -/

def pushPairs (stack : Stack) (pairs : List (ℕ × ℕ)) : Stack :=
  pairs.foldl (fun stack p => stackPush stack (pairOf p.1 p.2)) stack

/-- The fields that `count` calls of `Stack_Pop` return. -/
def popPairs : ℕ → Stack → List (ℕ × ℕ)
  | 0, _ => []
  | count + 1, stack =>
    let (pair, stack) := stackPop stack
    (pair.x.toNat, pair.slot.toNat) :: popPairs count stack

theorem stackIs_pushPairs {l : List Pair} {stack : Stack} (h : StackIs l stack)
    (pairs : List (ℕ × ℕ)) (hroom : l.length + pairs.length ≤ stack.data.length) :
    StackIs (l ++ pairs.map fun p => pairOf p.1 p.2) (pushPairs stack pairs) := by
  induction pairs generalizing l stack with
  | nil => rwa [List.map_nil, List.append_nil]
  | cons p pairs ih =>
    rw [List.length_cons] at hroom
    have hpush := h.push (by omega) (pairOf p.1 p.2)
    have hlen : (stackPush stack (pairOf p.1 p.2)).data.length = stack.data.length :=
      List.length_set
    have hrest := ih hpush (by rw [hlen, List.length_append, List.length_singleton]; omega)
    rwa [List.append_assoc] at hrest

theorem popPairs_eq {l : List Pair} {stack : Stack} (h : StackIs l stack) :
    popPairs l.length stack = (l.map fun pair => (pair.x.toNat, pair.slot.toNat)).reverse := by
  induction l using List.reverseRecOn generalizing stack with
  | nil => rfl
  | append_singleton l pair ih =>
    obtain ⟨hpop, hrest⟩ := h.pop
    rw [List.length_append, List.length_singleton, popPairs, List.map_append, List.reverse_append]
    simp only [hpop, ih hrest]
    rfl

/-- What a stack gives back is what was pushed on it, cut to the two bit-fields. -/
theorem popPairs_pushPairs {n : ℕ} {pairs : List (ℕ × ℕ)} (h : pairs.length ≤ n) :
    popPairs pairs.length (pushPairs (stackCreate n) pairs) =
      (pairs.map fun p => (p.1 % 2 ^ 30, p.2 % 2 ^ 2)).reverse := by
  have hlen : (stackCreate n).data.length = n := List.length_replicate
  have hpush := stackIs_pushPairs (stackIs_create n) pairs
    (by rw [hlen, List.length_nil, Nat.zero_add]; exact h)
  have hpop := popPairs_eq hpush
  rw [List.nil_append, List.length_map, List.map_map] at hpop
  exact hpop

end RedisXor
