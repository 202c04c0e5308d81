import RedisXor.Lib.Peeling
import RedisXor.Proofs.Stack
import RedisXor.Proofs.Work

/-! The invariant of the peeling loop. The ghost list `ks` holds the keys on the
stack with the buckets they were taken from; every count and every sum is a
function of the keys that remain. It survives a round on any queued bucket that
received at most 255 keys. -/

namespace RedisXor

open XorSum Peeling

/-- The keys not yet on the stack. -/
def remaining (n : ℕ) (ks : List (ℕ × ℕ)) : Finset ℕ :=
  (Finset.range n).filter fun k => k ∉ ks.map Prod.fst

theorem mem_remaining {n : ℕ} {ks : List (ℕ × ℕ)} {k : ℕ} :
    k ∈ remaining n ks ↔ k < n ∧ k ∉ ks.map Prod.fst := by
  simp only [remaining, Finset.mem_filter, Finset.mem_range]

@[simp] theorem remaining_nil (n : ℕ) : remaining n [] = Finset.range n := by
  ext k
  simp [mem_remaining]

theorem remaining_snoc (n : ℕ) (ks : List (ℕ × ℕ)) (x b : ℕ) :
    remaining n (ks ++ [(x, b)]) = (remaining n ks).erase x := by
  ext k
  simp only [mem_remaining, Finset.mem_erase, List.map_append, List.mem_append, List.map_cons,
    List.map_nil, List.mem_singleton, not_or]
  tauto

/-- What `Stack_Push` stores for a key taken from bucket `p.2`. -/
def pairAt (s : ℕ) (p : ℕ × ℕ) : Pair := pairOf p.1 (p.2 / s % 2 ^ 8)

structure PeelInv (pos : ℕ → HashNoFP) (n s : ℕ) (ks : List (ℕ × ℕ)) (w : WorkState) : Prop where
  buckets : BucketsOk (3 * s) w.B
  head : w.stack.head = ks.length
  data_length : w.stack.data.length = n
  data : w.stack.data.take ks.length = ks.map (pairAt s)
  nodup : (ks.map Prod.fst).Nodup
  key_lt : ∀ p ∈ ks, p.1 < n
  trace : PeelTrace (fun k b => Touches (pos k) b) ks
  free : ∀ p ∈ ks, ∀ k ∈ remaining n ks, ¬ Touches (pos k) p.2
  run : Relation.ReflTransGen (Step fun k b => Touches (pos k) b) (Finset.range n)
    (remaining n ks)
  count : ∀ b < 3 * s, bucketGetCount w.B b =
    min (load pos n b) 255 - (load pos n b - (keysAt pos (remaining n ks) b).card)
  sum : ∀ b < 3 * s, bucketGetSingleValue w.B b = xorSum id (keysAt pos (remaining n ks) b)
  queued : ∀ b < 3 * s, bucketGetCount w.B b = 1 → b ∈ w.work
  work_lt : ∀ b ∈ w.work, b < 3 * s

section Invariant

variable {pos : ℕ → HashNoFP} {n s : ℕ} {ks : List (ℕ × ℕ)} {w : WorkState}

variable (pos n ks) in
theorem card_keysAt_le_load (b : ℕ) :
    (keysAt pos (remaining n ks) b).card ≤ load pos n b := by
  refine Finset.card_le_card (Finset.filter_subset_filter _ ?_)
  exact Finset.filter_subset _ _

theorem PeelInv.card_remaining (h : PeelInv pos n s ks w) :
    (remaining n ks).card + ks.length = n := by
  have hsub : (ks.map Prod.fst).toFinset ⊆ Finset.range n := by
    intro k hk
    obtain ⟨p, hp, rfl⟩ := List.mem_map.1 (List.mem_toFinset.1 hk)
    exact Finset.mem_range.2 (h.key_lt p hp)
  have hrem : remaining n ks = Finset.range n \ (ks.map Prod.fst).toFinset := by
    ext k
    simp only [mem_remaining, Finset.mem_sdiff, Finset.mem_range, List.mem_toFinset]
  have hcard : (ks.map Prod.fst).toFinset.card = ks.length := by
    rw [List.toFinset_card_of_nodup h.nodup, List.length_map]
  have hle := Finset.card_le_card hsub
  rw [hcard, Finset.card_range] at hle
  rw [hrem, Finset.card_sdiff_of_subset hsub, hcard, Finset.card_range]
  omega

theorem PeelInv.mem_keys (h : PeelInv pos n s ks w) (hlen : ks.length = n) {k : ℕ} (hk : k < n) :
    k ∈ ks.map Prod.fst := by
  have hcard := h.card_remaining
  have hempty : remaining n ks = ∅ := Finset.card_eq_zero.1 (by omega)
  by_contra hnot
  exact Finset.notMem_empty k (hempty ▸ mem_remaining.2 ⟨hk, hnot⟩)

/-- The count of a bucket that was not cut at 255 is the number of its keys
that remain. -/
theorem PeelInv.count_of_load_le (h : PeelInv pos n s ks w) {b : ℕ} (hb : b < 3 * s)
    (hload : load pos n b ≤ 255) :
    bucketGetCount w.B b = (keysAt pos (remaining n ks) b).card := by
  have hle := card_keysAt_le_load pos n ks b
  rw [h.count b hb]
  omega

/-- A bucket that was cut at 255 still has two keys when its count is one. -/
theorem PeelInv.two_le_of_load_gt (h : PeelInv pos n s ks w) {b : ℕ} (hb : b < 3 * s)
    (hc : bucketGetCount w.B b = 1) (hload : 255 < load pos n b) :
    2 ≤ (keysAt pos (remaining n ks) b).card := by
  have hle := card_keysAt_le_load pos n ks b
  rw [h.count b hb] at hc
  omega

/-- The sum of a bucket with one key left is that key. -/
theorem PeelInv.keysAt_eq_singleton (h : PeelInv pos n s ks w) {b : ℕ} (hb : b < 3 * s)
    (hc : bucketGetCount w.B b = 1) (hload : load pos n b ≤ 255) :
    keysAt pos (remaining n ks) b = {bucketGetSingleValue w.B b} := by
  rw [h.count_of_load_le hb hload] at hc
  obtain ⟨x, hx⟩ := Finset.card_eq_one.1 hc
  rw [h.sum b hb, hx, xorSum_singleton, id]

theorem PeelInv.lt_of_mem_rest (h : PeelInv pos n s ks w) {l₁ l₂ : List ℕ} {idx : ℕ}
    (hw : w.work = l₁ ++ idx :: l₂) {b : ℕ} (hb : b ∈ l₁ ++ l₂) : b < 3 * s := by
  refine h.work_lt b ?_
  rw [hw]
  simp only [List.mem_append, List.mem_cons] at hb ⊢
  tauto

theorem PeelInv.skip (h : PeelInv pos n s ks w) {l₁ l₂ : List ℕ} {idx : ℕ}
    (hw : w.work = l₁ ++ idx :: l₂) (hc : bucketGetCount w.B idx ≠ 1) :
    PeelInv pos n s ks (workBody pos s w idx (l₁ ++ l₂)) := by
  rw [workBody_skip hc]
  refine { h with queued := fun b hb h1 => ?_, work_lt := fun b hb => ?_ }
  · have hmem := h.queued b hb h1
    rw [hw] at hmem
    have hne : b ≠ idx := by
      rintro rfl
      exact hc h1
    simp only [List.mem_append, List.mem_cons, hne, false_or] at hmem ⊢
    exact hmem
  · exact h.lt_of_mem_rest hw hb

/-! Taking the key `x` from the bucket `idx`, in which no other key remains -/

variable {x idx : ℕ}

theorem mem_of_keysAt_eq_singleton (hx : keysAt pos (remaining n ks) idx = {x}) :
    x ∈ remaining n ks ∧ Touches (pos x) idx := by
  have hmem := Finset.mem_singleton_self x
  rw [← hx] at hmem
  exact Finset.mem_filter.1 hmem

theorem eq_of_keysAt_eq_singleton (hx : keysAt pos (remaining n ks) idx = {x}) {k : ℕ}
    (hk : k ∈ remaining n ks) (ht : Touches (pos k) idx) : k = x := by
  have hmem : k ∈ keysAt pos (remaining n ks) idx := Finset.mem_filter.2 ⟨hk, ht⟩
  rw [hx] at hmem
  exact Finset.mem_singleton.1 hmem

theorem PeelInv.length_lt (h : PeelInv pos n s ks w) (hx : x ∈ remaining n ks) :
    ks.length < n := by
  have hcard := h.card_remaining
  have hpos : 0 < (remaining n ks).card := Finset.card_pos.2 ⟨x, hx⟩
  omega

theorem PeelInv.stackIs (h : PeelInv pos n s ks w) : StackIs (ks.map (pairAt s)) w.stack :=
  ⟨by rw [h.head, List.length_map], by rw [List.length_map, h.data]⟩

theorem PeelInv.data_push (h : PeelInv pos n s ks w) (hx : x ∈ remaining n ks) (idx : ℕ) :
    (stackPush w.stack (pairAt s (x, idx))).data.take (ks.length + 1) =
      (ks ++ [(x, idx)]).map (pairAt s) := by
  have hlen := h.length_lt hx
  have hpush := (h.stackIs.push (by rw [List.length_map, h.data_length]; exact hlen)
    (pairAt s (x, idx))).data
  rw [List.length_append, List.length_map, List.length_singleton] at hpush
  rw [hpush, List.map_append, List.map_singleton]

theorem PeelInv.nodup_push (h : PeelInv pos n s ks w) (hx : x ∈ remaining n ks) (idx : ℕ) :
    ((ks ++ [(x, idx)]).map Prod.fst).Nodup := by
  rw [List.map_append, List.map_cons, List.map_nil]
  refine List.nodup_append.2 ⟨h.nodup, List.nodup_singleton _, fun a ha b hb hab => ?_⟩
  rw [hab, List.mem_singleton.1 hb] at ha
  exact (mem_remaining.1 hx).2 ha

/-- `x` remained until now, so it avoids the buckets taken before. -/
theorem PeelInv.trace_push (h : PeelInv pos n s ks w)
    (hx : keysAt pos (remaining n ks) idx = {x}) :
    PeelTrace (fun k b => Touches (pos k) b) (ks ++ [(x, idx)]) := by
  obtain ⟨hxR, hxt⟩ := mem_of_keysAt_eq_singleton hx
  refine ⟨fun p hp => ?_, List.pairwise_append.2 ⟨h.trace.2, List.pairwise_singleton _ _, ?_⟩⟩
  · rcases List.mem_append.1 hp with hp | hp
    · exact h.trace.1 p hp
    · rw [List.mem_singleton.1 hp]
      exact hxt
  · intro p hp q hq
    rw [List.mem_singleton.1 hq]
    exact h.free p hp x hxR

theorem PeelInv.free_push (h : PeelInv pos n s ks w)
    (hx : keysAt pos (remaining n ks) idx = {x}) {p : ℕ × ℕ} (hp : p ∈ ks ++ [(x, idx)]) {k : ℕ}
    (hk : k ∈ remaining n (ks ++ [(x, idx)])) : ¬ Touches (pos k) p.2 := by
  rw [remaining_snoc] at hk
  obtain ⟨hkx, hkR⟩ := Finset.mem_erase.1 hk
  rcases List.mem_append.1 hp with hp | hp
  · exact h.free p hp k hkR
  · rw [List.mem_singleton.1 hp]
    exact fun ht => hkx (eq_of_keysAt_eq_singleton hx hkR ht)

theorem PeelInv.count_remove (h : PeelInv pos n s ks w) (hpos : ∀ x, SlotsOk s (pos x))
    (hx : x ∈ remaining n ks) (idx : ℕ) {b : ℕ} (hb : b < 3 * s) :
    bucketGetCount (removeKey w.B (pos x) x) b = min (load pos n b) 255 -
      (load pos n b - (keysAt pos (remaining n (ks ++ [(x, idx)])) b).card) := by
  have hle := card_keysAt_le_load pos n ks b
  rw [bucketGetCount_removeKey h.buckets (hpos x), h.count b hb, remaining_snoc]
  simp only [keysAt] at hle ⊢
  rw [card_filter_erase hx fun k => Touches (pos k) b]
  split_ifs with ht
  · have hcard : 0 < ((remaining n ks).filter fun k => Touches (pos k) b).card :=
      Finset.card_pos.2 ⟨x, Finset.mem_filter.2 ⟨hx, ht⟩⟩
    omega
  · rfl

theorem PeelInv.sum_remove (h : PeelInv pos n s ks w) (hpos : ∀ x, SlotsOk s (pos x))
    (hx : x ∈ remaining n ks) (idx : ℕ) {b : ℕ} (hb : b < 3 * s) :
    bucketGetSingleValue (removeKey w.B (pos x) x) b =
      xorSum id (keysAt pos (remaining n (ks ++ [(x, idx)])) b) := by
  rw [bucketGetSingleValue_removeKey h.buckets (hpos x), h.sum b hb, remaining_snoc]
  simp only [keysAt]
  rw [xorSum_filter_erase id hx fun k => Touches (pos k) b]
  rfl

/-- A bucket whose count falls to one is released by the removal. -/
theorem PeelInv.queued_remove (h : PeelInv pos n s ks w) (hpos : ∀ x, SlotsOk s (pos x))
    (hxt : Touches (pos x) idx) {l₁ l₂ : List ℕ} (hw : w.work = l₁ ++ idx :: l₂) {b : ℕ}
    (hb : b < 3 * s) (h1 : bucketGetCount (removeKey w.B (pos x) x) b = 1) :
    b ∈ l₁ ++ l₂ ++ released w.B (pos x) := by
  rw [bucketGetCount_removeKey h.buckets (hpos x)] at h1
  rw [List.mem_append, mem_released]
  split_ifs at h1 with ht
  · exact Or.inr ⟨ht, by omega⟩
  · have hmem := h.queued b hb h1
    have hne : b ≠ idx := by
      rintro rfl
      exact ht hxt
    rw [hw] at hmem
    simp only [List.mem_append, List.mem_cons, hne, false_or] at hmem
    exact Or.inl (List.mem_append.2 hmem)

/-- A round that takes a bucket with one key left moves that key to the stack. -/
theorem PeelInv.take (hpos : ∀ x, SlotsOk s (pos x)) (h : PeelInv pos n s ks w)
    {l₁ l₂ : List ℕ} {idx : ℕ} (hw : w.work = l₁ ++ idx :: l₂)
    (hc : bucketGetCount w.B idx = 1) (hload : load pos n idx ≤ 255) :
    PeelInv pos n s (ks ++ [(bucketGetSingleValue w.B idx, idx)])
      (workBody pos s w idx (l₁ ++ l₂)) := by
  have hx := h.keysAt_eq_singleton (h.work_lt idx (by simp [hw])) hc hload
  rw [workBody_take hc]
  generalize bucketGetSingleValue w.B idx = x at *
  obtain ⟨hxR, hxt⟩ := mem_of_keysAt_eq_singleton hx
  have hlen : (ks ++ [(x, idx)]).length = ks.length + 1 := by simp
  exact
    { buckets := removeKey_ok h.buckets x
      head := by simp only [stackPush, h.head, hlen]
      data_length := by simp only [stackPush, List.length_set, h.data_length]
      data := hlen ▸ h.data_push hxR idx
      nodup := h.nodup_push hxR idx
      key_lt := fun p hp => by
        rcases List.mem_append.1 hp with hp | hp
        · exact h.key_lt p hp
        · rw [List.mem_singleton.1 hp]
          exact (mem_remaining.1 hxR).1
      trace := h.trace_push hx
      free := fun p hp k hk => h.free_push hx hp hk
      run := h.run.tail ⟨x, hxR, idx, hxt, fun k hk ht => eq_of_keysAt_eq_singleton hx hk ht,
        remaining_snoc n ks x idx⟩
      count := fun b hb => h.count_remove hpos hxR idx hb
      sum := fun b hb => h.sum_remove hpos hxR idx hb
      queued := fun b hb h1 => h.queued_remove hpos hxt hw hb h1
      work_lt := fun b hb => by
        rcases List.mem_append.1 hb with hb | hb
        · exact h.lt_of_mem_rest hw hb
        · exact (hpos x).lt (mem_released.1 hb).1 }

end Invariant

/-! The measure of the loop: a queued bucket or one that can still be queued -/

def measure (s : ℕ) (w : WorkState) : ℕ := w.work.length + (pending s w.B).card

/-- Each round uses up one queued bucket, whatever it takes. -/
theorem measure_workBody {pos : ℕ → HashNoFP} {s : ℕ} {w : WorkState}
    (hpos : ∀ x, SlotsOk s (pos x)) (hB : BucketsOk (3 * s) w.B) {l₁ l₂ : List ℕ} {idx : ℕ}
    (hw : w.work = l₁ ++ idx :: l₂) :
    measure s (workBody pos s w idx (l₁ ++ l₂)) + 1 = measure s w := by
  by_cases hc : bucketGetCount w.B idx = 1
  · have hpend := pending_removeKey hB (hpos (bucketGetSingleValue w.B idx))
      (bucketGetSingleValue w.B idx)
    rw [workBody_take hc]
    simp only [measure, hw, List.length_append, List.length_cons] at hpend ⊢
    omega
  · rw [workBody_skip hc]
    simp only [measure, hw, List.length_append, List.length_cons]
    omega

/-- A round that takes a bucket of the removed key queues at most two others,
so twice the queue and what can still be queued never grow together. -/
theorem room_workBody {pos : ℕ → HashNoFP} {s : ℕ} {w : WorkState}
    (hpos : ∀ x, SlotsOk s (pos x)) (hB : BucketsOk (3 * s) w.B) {l₁ l₂ : List ℕ} {idx : ℕ}
    (hw : w.work = l₁ ++ idx :: l₂)
    (ht : bucketGetCount w.B idx = 1 → Touches (pos (bucketGetSingleValue w.B idx)) idx) :
    (workBody pos s w idx (l₁ ++ l₂)).work.length +
      measure s (workBody pos s w idx (l₁ ++ l₂)) ≤ w.work.length + measure s w := by
  have hm := measure_workBody hpos hB hw
  have hlen : (workBody pos s w idx (l₁ ++ l₂)).work.length ≤ w.work.length + 1 := by
    by_cases hc : bucketGetCount w.B idx = 1
    · have h2 := released_length_le_two (ht hc) hc
      rw [workBody_take hc]
      simp only [hw, List.length_append, List.length_cons]
      omega
    · rw [workBody_skip hc]
      simp only [hw, List.length_append, List.length_cons]
      omega
  omega

end RedisXor
