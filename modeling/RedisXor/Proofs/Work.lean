import RedisXor.Proofs.Buckets

/-! The peeling loop with its ring replaced by a list, from which any element
may be taken next. The loop of the code is the case in which it is the first. -/

namespace RedisXor

structure WorkState where
  work : List ℕ
  B : Buckets
  stack : Stack

def MapState.toWork (st : MapState) : WorkState :=
  { work := queueList st.Q, B := st.B, stack := st.stack }

def removeKey (B : Buckets) (h : HashNoFP) (x : ℕ) : Buckets :=
  bucketRemove (bucketRemove (bucketRemove B h.h0 x) h.h1 x) h.h2 x

/-- The slots of a key that its removal leaves with a count of one. -/
def released (B : Buckets) (h : HashNoFP) : List ℕ :=
  [h.h0, h.h1, h.h2].filter fun b => bucketGetCount B b = 2

/-- One round on the bucket `idx`, with `rest` the other queued buckets. -/
def workBody (pos : ℕ → HashNoFP) (s : ℕ) (w : WorkState) (idx : ℕ) (rest : List ℕ) : WorkState :=
  if bucketGetCount w.B idx = 1 then
    let x := bucketGetSingleValue w.B idx
    { work := rest ++ released w.B (pos x)
      B := removeKey w.B (pos x) x
      stack := stackPush w.stack (pairOf x (idx / s % 2 ^ 8)) }
  else { w with work := rest }

theorem workBody_take {pos : ℕ → HashNoFP} {s : ℕ} {w : WorkState} {idx : ℕ} {rest : List ℕ}
    (hc : bucketGetCount w.B idx = 1) : workBody pos s w idx rest =
      let x := bucketGetSingleValue w.B idx
      { work := rest ++ released w.B (pos x)
        B := removeKey w.B (pos x) x
        stack := stackPush w.stack (pairOf x (idx / s % 2 ^ 8)) } := if_pos hc

theorem workBody_skip {pos : ℕ → HashNoFP} {s : ℕ} {w : WorkState} {idx : ℕ} {rest : List ℕ}
    (hc : bucketGetCount w.B idx ≠ 1) : workBody pos s w idx rest = { w with work := rest } :=
  if_neg hc

/-- A round that takes any of the queued buckets. -/
def WorkStep (pos : ℕ → HashNoFP) (s : ℕ) (w w' : WorkState) : Prop :=
  ∃ l₁ idx l₂, w.work = l₁ ++ idx :: l₂ ∧ w' = workBody pos s w idx (l₁ ++ l₂)

section Remove

variable {s : ℕ} {B : Buckets} {h : HashNoFP}

theorem removeKey_ok {m : ℕ} (hB : BucketsOk m B) (x : ℕ) : BucketsOk m (removeKey B h x) :=
  bucketRemove_ok (bucketRemove_ok (bucketRemove_ok hB _ _) _ _) _ _

theorem bucketGetCount_removeKey (hB : BucketsOk (3 * s) B) (hh : SlotsOk s h) (x b : ℕ) :
    bucketGetCount (removeKey B h x) b =
      if Touches h b then bucketGetCount B b - 1 else bucketGetCount B b := by
  have ⟨h0, h1, h1', h2, h2'⟩ := hh
  rw [removeKey, bucketGetCount_remove (bucketRemove_ok (bucketRemove_ok hB _ _) _ _) (by omega),
    bucketGetCount_remove (bucketRemove_ok hB _ _) (by omega), bucketGetCount_remove hB (by omega)]
  exact hh.update_slots b (· - 1) _

theorem bucketGetSingleValue_removeKey (hB : BucketsOk (3 * s) B) (hh : SlotsOk s h) (x b : ℕ) :
    bucketGetSingleValue (removeKey B h x) b =
      if Touches h b then bucketGetSingleValue B b ^^^ x else bucketGetSingleValue B b := by
  have ⟨h0, h1, h1', h2, h2'⟩ := hh
  rw [removeKey,
    bucketGetSingleValue_remove (bucketRemove_ok (bucketRemove_ok hB _ _) _ _) (by omega),
    bucketGetSingleValue_remove (bucketRemove_ok hB _ _) (by omega),
    bucketGetSingleValue_remove hB (by omega)]
  exact hh.update_slots b (· ^^^ x) _

theorem mem_released {b : ℕ} : b ∈ released B h ↔ Touches h b ∧ bucketGetCount B b = 2 := by
  simp [released, Touches]

theorem released_nodup (hh : SlotsOk s h) : (released B h).Nodup := by
  have ⟨h0, h1, h1', h2, h2'⟩ := hh
  refine List.Nodup.filter _ ?_
  simp only [List.nodup_cons, List.mem_cons, List.not_mem_nil, or_false, List.nodup_nil, and_true,
    not_false_eq_true]
  omega

/-- A bucket with count one that the key touches is not released again. -/
theorem released_length_le_two {idx : ℕ} (hidx : Touches h idx) (hc : bucketGetCount B idx = 1) :
    (released B h).length ≤ 2 := by
  rw [released]
  rcases hidx with rfl | rfl | rfl <;> simp only [List.filter_cons, hc, List.filter_nil] <;>
    split_ifs <;> simp_all

/-- The buckets that can still be queued. -/
def pending (s : ℕ) (B : Buckets) : Finset ℕ :=
  (Finset.range (3 * s)).filter fun b => 2 ≤ bucketGetCount B b

/-- What a removal queues leaves the buckets that can still be queued. -/
theorem pending_removeKey (hB : BucketsOk (3 * s) B) (hh : SlotsOk s h) (x : ℕ) :
    (pending s (removeKey B h x)).card + (released B h).length = (pending s B).card := by
  have hdisj : Disjoint (pending s (removeKey B h x)) (released B h).toFinset := by
    rw [Finset.disjoint_left]
    intro b hb hr
    have hr := mem_released.1 (List.mem_toFinset.1 hr)
    have hb := (Finset.mem_filter.1 hb).2
    rw [bucketGetCount_removeKey hB hh, if_pos hr.1] at hb
    omega
  have hunion : pending s B = pending s (removeKey B h x) ∪ (released B h).toFinset := by
    ext b
    simp only [pending, Finset.mem_union, Finset.mem_filter, Finset.mem_range, List.mem_toFinset,
      mem_released, bucketGetCount_removeKey hB hh]
    by_cases ht : Touches h b
    · have hlt := hh.lt ht
      rw [if_pos ht]
      constructor
      · rintro ⟨-, h2⟩
        by_cases h2' : bucketGetCount B b = 2
        · exact Or.inr ⟨ht, h2'⟩
        · exact Or.inl ⟨hlt, by omega⟩
      · rintro (⟨-, h2⟩ | ⟨-, h2⟩)
        · exact ⟨hlt, by omega⟩
        · exact ⟨hlt, by omega⟩
    · rw [if_neg ht]
      exact ⟨fun h => Or.inl h, fun h => h.resolve_right fun hr => ht hr.1⟩
  rw [hunion, Finset.card_union_of_disjoint hdisj,
    List.toFinset_card_of_nodup (released_nodup hh)]

end Remove

section Refine

variable (mem : Memory) {pos : ℕ → HashNoFP} {s : ℕ}

/-- The arguments `Queue_Add` gets in the test for one bucket. -/
def enteredAt (B : Buckets) (idx : ℕ) : List ℕ := if bucketGetCount B idx = 1 then [idx] else []

theorem enqueueSingle_eq (B : Buckets) (Q : Queue) (idx : ℕ) :
    enqueueSingle mem B Q idx = (enteredAt B idx).foldl (queueAdd mem) Q := by
  rw [enqueueSingle, enteredAt]
  split_ifs <;> rfl

/-- The arguments of `Queue_Add` in the second `for` loop of `map`. -/
def fillEntered (segmentSize : ℕ) (B : Buckets) : List ℕ :=
  (List.range (wrap32 (segmentSize * 3))).flatMap (enteredAt B)

theorem fillQueue_eq (segmentSize : ℕ) (B : Buckets) (Q : Queue) :
    fillQueue mem segmentSize B Q = (fillEntered segmentSize B).foldl (queueAdd mem) Q := by
  simp only [fillQueue, fillEntered, List.foldl_flatMap, ← enqueueSingle_eq]

/-- The arguments of `Queue_Add` in one round of the `while` loop: each of the
three tests follows the removal from its bucket. -/
def roundEntered (pos : ℕ → HashNoFP) (st : MapState) : List ℕ :=
  let idx := (queueGet st.Q).1
  if bucketGetCount st.B idx = 1 then
    let x := bucketGetSingleValue st.B idx
    let h := pos x
    let B0 := bucketRemove st.B h.h0 x
    let B1 := bucketRemove B0 h.h1 x
    let B2 := bucketRemove B1 h.h2 x
    enteredAt B0 h.h0 ++ (enteredAt B1 h.h1 ++ enteredAt B2 h.h2)
  else []

section Body

variable (pos s) (st : MapState)

theorem peelBody_Q : (peelBody mem pos s st).Q =
    (roundEntered pos st).foldl (queueAdd mem) (queueGet st.Q).2 := by
  simp only [peelBody, roundEntered]
  split_ifs
  · simp only [peelBucket, enqueueSingle_eq, List.foldl_append]
  · rfl

theorem peelBody_B : (peelBody mem pos s st).B =
    let x := bucketGetSingleValue st.B (queueGet st.Q).1
    if bucketGetCount st.B (queueGet st.Q).1 = 1 then removeKey st.B (pos x) x else st.B := by
  simp only [peelBody]
  split_ifs <;> rfl

theorem peelBody_stack : (peelBody mem pos s st).stack =
    if bucketGetCount st.B (queueGet st.Q).1 = 1 then
      stackPush st.stack (pairOf (bucketGetSingleValue st.B (queueGet st.Q).1)
        ((queueGet st.Q).1 / s % 2 ^ 8))
    else st.stack := by
  simp only [peelBody]
  split_ifs <;> rfl

end Body

/-- What the test behind `Bucket_Remove` queues. -/
def releasedAt (B : Buckets) (idx : ℕ) : List ℕ := if bucketGetCount B idx = 2 then [idx] else []

theorem released_eq (B : Buckets) (h : HashNoFP) :
    released B h = releasedAt B h.h0 ++ (releasedAt B h.h1 ++ releasedAt B h.h2) := by
  simp only [released, releasedAt, List.filter_cons, List.filter_nil, decide_eq_true_eq]
  split_ifs <;> rfl

theorem enteredAt_remove {B : Buckets} {m : ℕ} (hB : BucketsOk m B) {idx : ℕ} (hidx : idx < m)
    (x : ℕ) : enteredAt (bucketRemove B idx x) idx = releasedAt B idx := by
  rw [enteredAt, bucketGetCount_remove hB hidx, if_pos rfl]
  exact if_congr (by omega) rfl rfl

/-- The slots differ, so a removal does not change the counts tested after it. -/
theorem releasedAt_remove {B : Buckets} {m : ℕ} (hB : BucketsOk m B) {i idx : ℕ} (hi : i < m)
    (hne : idx ≠ i) (x : ℕ) : releasedAt (bucketRemove B i x) idx = releasedAt B idx := by
  rw [releasedAt, bucketGetCount_remove hB hi, if_neg hne, releasedAt]

theorem roundEntered_eq {st : MapState} (hB : BucketsOk (3 * s) st.B)
    (hpos : ∀ x, SlotsOk s (pos x)) : roundEntered pos st =
      if bucketGetCount st.B (queueGet st.Q).1 = 1 then
        released st.B (pos (bucketGetSingleValue st.B (queueGet st.Q).1))
      else [] := by
  simp only [roundEntered]
  split_ifs
  · generalize bucketGetSingleValue st.B (queueGet st.Q).1 = x
    have ⟨h0, h1, h1', h2, h2'⟩ := hpos x
    have hB1 := bucketRemove_ok hB (pos x).h0 x
    have hB2 := bucketRemove_ok hB1 (pos x).h1 x
    rw [released_eq, enteredAt_remove hB (by omega), enteredAt_remove hB1 (by omega),
      enteredAt_remove hB2 (by omega), releasedAt_remove hB (by omega) (by omega),
      releasedAt_remove hB1 (by omega) (by omega), releasedAt_remove hB (by omega) (by omega)]
  · rfl

/-- A round appends to the queue what it enters. -/
theorem workBody_work {st : MapState} (hB : BucketsOk (3 * s) st.B)
    (hpos : ∀ x, SlotsOk s (pos x)) (rest : List ℕ) :
    (workBody pos s st.toWork (queueGet st.Q).1 rest).work = rest ++ roundEntered pos st := by
  rw [roundEntered_eq hB hpos]
  by_cases hc : bucketGetCount st.B (queueGet st.Q).1 = 1
  · rw [workBody_take (w := st.toWork) hc, if_pos hc]
    rfl
  · rw [workBody_skip (w := st.toWork) hc, if_neg hc, List.append_nil]

/-- The body of the loop is a round on the first element of the queue. -/
theorem peelBody_toWork {st : MapState} (hQ : QueueOk st.Q) (hB : BucketsOk (3 * s) st.B)
    (hpos : ∀ x, SlotsOk s (pos x)) {idx : ℕ} {rest : List ℕ}
    (hlist : queueList st.Q = idx :: rest)
    (hroom : 2 * (workBody pos s st.toWork idx rest).work.length < 2 ^ 32) :
    QueueOk (peelBody mem pos s st).Q ∧
      (peelBody mem pos s st).toWork = workBody pos s st.toWork idx rest := by
  obtain ⟨rfl, hrest⟩ := queueGet_spec hQ hlist
  have hwork := workBody_work hB hpos rest
  rw [hwork, List.length_append] at hroom
  obtain ⟨hok, hl⟩ := queueAdd_foldl_spec mem (queueGet_ok hQ) (roundEntered pos st)
    (by rw [← length_queueList, hrest]; exact hroom)
  rw [← peelBody_Q mem pos s st] at hok hl
  refine ⟨hok, ?_⟩
  rw [hrest, ← hwork] at hl
  simp only [MapState.toWork, hl, peelBody_B, peelBody_stack]
  by_cases hc : bucketGetCount st.B (queueGet st.Q).1 = 1
  · simp only [workBody, if_pos hc]
  · simp only [workBody, if_neg hc]

end Refine

end RedisXor
