import RedisXor.Proofs.Peel

/-! The loops of `map` keep the invariant of the peeling loop: it holds when the
queue has been filled, every round that takes no crowded bucket keeps it, and
the loop ends within its fuel. -/

namespace RedisXor

open XorSum Peeling While

/-- What `xor_build` allocates, and every call of `map` leaves, for `n` keys. -/
structure MapReady (n s : ℕ) (st : MapState) : Prop where
  queue : QueueOk st.Q
  stack_length : st.stack.data.length = n
  capacity_eq : st.B.capacity = 3 * s

/-- The buckets with one key, in the order in which they are queued. -/
def singles (s : ℕ) (B : Buckets) : List ℕ :=
  (List.range (3 * s)).filter fun b => bucketGetCount B b = 1

/-- The bucket the next round removes a key from. -/
def Takes (st : MapState) (idx : ℕ) : Prop :=
  queueIsEmpty st.Q = false ∧ (queueGet st.Q).1 = idx ∧ bucketGetCount st.B idx = 1

structure LoopInv (pos : ℕ → HashNoFP) (n s : ℕ) (ks : List (ℕ × ℕ)) (st : MapState) : Prop where
  queue : QueueOk st.Q
  peel : PeelInv pos n s ks st.toWork
  room : st.toWork.work.length + measure s st.toWork < 2 ^ 32

theorem fillEntered_eq {s : ℕ} (hs : 3 * s < 2 ^ 32) (B : Buckets) :
    fillEntered s B = singles s B := by
  have hflat (l : List ℕ) :
      l.flatMap (enteredAt B) = l.filter fun b => bucketGetCount B b = 1 := by
    induction l with
    | nil => rfl
    | cons b l ih =>
      rw [List.flatMap_cons, ih, List.filter_cons, enteredAt]
      by_cases hc : bucketGetCount B b = 1 <;> simp [hc]
  rw [fillEntered, Nat.mul_comm, wrap32_of_lt hs, hflat, singles]

theorem singles_length_add_pending_le (s : ℕ) (B : Buckets) :
    (singles s B).length + (pending s B).card ≤ 3 * s := by
  have hnodup : (singles s B).Nodup := List.Nodup.filter _ List.nodup_range
  have hdisj : Disjoint (singles s B).toFinset (pending s B) := by
    rw [Finset.disjoint_left]
    intro b hb hp
    have h1 := (List.mem_filter.1 (List.mem_toFinset.1 hb)).2
    have h2 := (Finset.mem_filter.1 hp).2
    simp only [decide_eq_true_eq] at h1
    omega
  have hsub : (singles s B).toFinset ∪ pending s B ⊆ Finset.range (3 * s) := by
    refine Finset.union_subset (fun b hb => ?_) (Finset.filter_subset _ _)
    exact Finset.mem_range.2
      (List.mem_range.1 (List.mem_filter.1 (List.mem_toFinset.1 hb)).1)
  have hcard := Finset.card_le_card hsub
  rwa [Finset.card_union_of_disjoint hdisj, List.toFinset_card_of_nodup hnodup,
    Finset.card_range] at hcard

section Init

variable (mem : Memory) {pos : ℕ → HashNoFP} {n s : ℕ} {st : MapState}

/-- The buckets after the first loop, as a function of the slots alone. -/
def filled (pos : ℕ → HashNoFP) (n s : ℕ) : Buckets :=
  fillBuckets pos n (bucketsClear (bucketsCreate (3 * s)))

theorem mapInit_B (hst : MapReady n s st) : (mapInit mem pos n s st).B = filled pos n s := by
  simp only [mapInit, filled, bucketsClear, hst.capacity_eq]
  rfl

theorem mapInit_spec (hst : MapReady n s st) (hpos : ∀ x, SlotsOk s (pos x)) (hn : n ≤ 2 ^ 32)
    (hs : 3 * s < 2 ^ 32)
    (hroom : 2 * (singles s (filled pos n s)).length + (pending s (filled pos n s)).card < 2 ^ 32) :
    LoopInv pos n s [] (mapInit mem pos n s st) ∧
      (mapInit mem pos n s st).toWork.work = singles s (filled pos n s) := by
  have hB : _ = filled pos n s := mapInit_B mem hst
  obtain ⟨hok, hval⟩ := fillBuckets_spec (B := bucketsCreate (3 * s)) rfl hpos hn
  have hfill : fillBuckets pos n (bucketsClear st.B) = filled pos n s := hB
  have hQ : (mapInit mem pos n s st).Q =
      (singles s (filled pos n s)).foldl (queueAdd mem) (queueClean st.Q) := by
    simp only [mapInit, hfill, fillQueue_eq, fillEntered_eq hs]
  have hempty : queueSize (queueClean st.Q) = 0 := by
    rw [← length_queueList, queueList_clean, List.length_nil]
  obtain ⟨hqok, hqlist⟩ := queueAdd_foldl_spec mem (queueClean_ok hst.queue)
    (singles s (filled pos n s)) (by omega)
  rw [queueList_clean, List.nil_append] at hqlist
  have hwork : (mapInit mem pos n s st).toWork.work = singles s (filled pos n s) := by
    simp only [MapState.toWork, hQ]
    exact hqlist
  refine ⟨⟨hQ ▸ hqok, ?_, ?_⟩, hwork⟩
  · refine ⟨?_, rfl, hst.stack_length, rfl, List.nodup_nil, by simp, ⟨by simp, List.Pairwise.nil⟩,
      by simp, by rw [remaining_nil], fun b _ => ?_, fun b _ => ?_, fun b hb h1 => ?_,
      fun b hb => ?_⟩
    · simp only [MapState.toWork, hB]
      exact hok
    · simp only [MapState.toWork, hB]
      rw [filled, (hval b).1, remaining_nil, load]
      omega
    · simp only [MapState.toWork, hB]
      rw [filled, (hval b).2, remaining_nil]
    · rw [hwork]
      simp only [MapState.toWork, hB] at h1
      exact List.mem_filter.2 ⟨List.mem_range.2 hb, by simpa using h1⟩
    · rw [hwork] at hb
      exact List.mem_range.1 (List.mem_filter.1 hb).1
  · simp only [measure, hwork]
    simp only [MapState.toWork, hB]
    omega

theorem measure_mapInit_le (hst : MapReady n s st) (hpos : ∀ x, SlotsOk s (pos x))
    (hn : n ≤ 2 ^ 32) (hs : 3 * s < 2 ^ 32)
    (hroom : 2 * (singles s (filled pos n s)).length + (pending s (filled pos n s)).card < 2 ^ 32) :
    measure s (mapInit mem pos n s st).toWork ≤ 3 * s := by
  have hwork := (mapInit_spec mem hst hpos hn hs hroom).2
  have hle := singles_length_add_pending_le s (filled pos n s)
  simp only [measure, hwork]
  simp only [MapState.toWork, mapInit_B mem hst]
  exact hle

end Init

section Loop

variable (mem : Memory) {pos : ℕ → HashNoFP} {n s : ℕ} {ks : List (ℕ × ℕ)} {st : MapState}

theorem exists_rest {Q : Queue} (h : QueueOk Q) (hne : queueIsEmpty Q = false) :
    ∃ rest, queueList Q = (queueGet Q).1 :: rest := by
  have hlist : queueList Q ≠ [] := by
    intro he
    rw [(queueIsEmpty_iff h).2 he] at hne
    exact Bool.noConfusion hne
  obtain ⟨a, rest, hl⟩ := List.exists_cons_of_ne_nil hlist
  exact ⟨rest, by rw [(queueGet_spec h hl).1, hl]⟩

/-- One round of the loop of the code. -/
theorem LoopInv.step (hpos : ∀ x, SlotsOk s (pos x)) (h : LoopInv pos n s ks st)
    (hne : queueIsEmpty st.Q = false) (hload : ∀ b, Takes st b → load pos n b ≤ 255) :
    (∃ ks', LoopInv pos n s ks' (peelBody mem pos s st)) ∧
      measure s (peelBody mem pos s st).toWork + 1 = measure s st.toWork := by
  obtain ⟨rest, hl⟩ := exists_rest h.queue hne
  have hw : st.toWork.work = [] ++ (queueGet st.Q).1 :: rest := hl
  have hm := measure_workBody hpos h.peel.buckets hw
  have hr := room_workBody hpos h.peel.buckets hw fun hc => by
    have hidx := h.peel.work_lt (queueGet st.Q).1 (by rw [hw]; simp)
    exact (mem_of_keysAt_eq_singleton
      (h.peel.keysAt_eq_singleton hidx hc (hload _ ⟨hne, rfl, hc⟩))).2
  have hroom := h.room
  rw [List.nil_append] at hm hr
  have hlen : (workBody pos s st.toWork (queueGet st.Q).1 rest).work.length ≤
      measure s (workBody pos s st.toWork (queueGet st.Q).1 rest) := Nat.le_add_right _ _
  obtain ⟨hq, hbody⟩ := peelBody_toWork mem h.queue h.peel.buckets hpos hl (by omega)
  rw [← hbody] at hm hr
  refine ⟨?_, hm⟩
  by_cases hc : bucketGetCount st.B (queueGet st.Q).1 = 1
  · have hpeel := h.peel.take hpos hw hc (hload _ ⟨hne, rfl, hc⟩)
    rw [List.nil_append, ← hbody] at hpeel
    exact ⟨_, hq, hpeel, by omega⟩
  · have hpeel := h.peel.skip hw hc
    rw [List.nil_append, ← hbody] at hpeel
    exact ⟨ks, hq, hpeel, by omega⟩

theorem LoopInv.ready (h : LoopInv pos n s ks st) : MapReady n s st :=
  ⟨h.queue, h.peel.data_length, h.peel.buckets.capacity_eq⟩

end Loop

section Run

variable {mem : Memory} {pos : ℕ → HashNoFP} {n s : ℕ} {st : MapState}

/-- The condition of the loop. -/
def peeling (st : MapState) : Bool := !queueIsEmpty st.Q

/-- The state at the `k`-th test of the loop condition, counted from zero. -/
def mapRun (mem : Memory) (pos : ℕ → HashNoFP) (n s : ℕ) (st : MapState) (k : ℕ) : MapState :=
  (peelBody mem pos s)^[k] (mapInit mem pos n s st)

/-- The loop of `map` gets as far as its `k`-th test. -/
def Reaches (mem : Memory) (pos : ℕ → HashNoFP) (n s : ℕ) (st : MapState) (k : ℕ) : Prop :=
  Running peeling (peelBody mem pos s) k (mapInit mem pos n s st)

theorem Reaches.queue_nonempty {k j : ℕ} (h : Reaches mem pos n s st k) (hj : j < k) :
    queueIsEmpty (mapRun mem pos n s st j).Q = false := by
  simpa [peeling, mapRun] using h j hj

/-- The loop keeps the invariant as long as it takes no crowded bucket. -/
theorem mapRun_inv (hst : MapReady n s st) (hpos : ∀ x, SlotsOk s (pos x)) (hn : n ≤ 2 ^ 32)
    (hs : 3 * s < 2 ^ 32)
    (hroom : 2 * (singles s (filled pos n s)).length + (pending s (filled pos n s)).card < 2 ^ 32)
    {k : ℕ} (hk : Reaches mem pos n s st k)
    (hload : ∀ j < k, ∀ b, Takes (mapRun mem pos n s st j) b → load pos n b ≤ 255) :
    ∃ ks, LoopInv pos n s ks (mapRun mem pos n s st k) := by
  refine iterate_of_running (I := fun st => ∃ ks, LoopInv pos n s ks st)
    ⟨[], (mapInit_spec mem hst hpos hn hs hroom).1⟩ fun j hj ⟨ks, hks⟩ => ?_
  rw [Function.iterate_succ_apply']
  exact (hks.step mem hpos (hk.queue_nonempty hj) (hload j hj)).1

variable (mem) in
/-- `map` returns, in a state that has the invariant and an empty queue. -/
theorem mapSlots_spec (hst : MapReady n s st) (hpos : ∀ x, SlotsOk s (pos x)) (hn : n ≤ 2 ^ 32)
    (hs : 3 * s < 2 ^ 32)
    (hroom : 2 * (singles s (filled pos n s)).length + (pending s (filled pos n s)).card < 2 ^ 32)
    (hload : ∀ k, Reaches mem pos n s st k → ∀ b, Takes (mapRun mem pos n s st k) b →
      load pos n b ≤ 255) :
    ∃ ks st', mapSlots mem pos n s st = some (ks.length == n, st') ∧ LoopInv pos n s ks st' ∧
      st'.toWork.work = [] := by
  have hinit := (mapInit_spec mem hst hpos hn hs hroom).1
  have hm := measure_mapInit_le mem hst hpos hn hs hroom
  obtain ⟨st', hloop, ⟨ks, hks⟩, hend⟩ := whileFuel_spec peeling
    (peelBody mem pos s) (I := fun st => ∃ ks, LoopInv pos n s ks st)
    (m := fun st => measure s st.toWork) ⟨[], hinit⟩
    (fun k hk ⟨ks, hks⟩ => by
      have hne := Reaches.queue_nonempty hk (Nat.lt_succ_self k)
      have hstep := hks.step mem hpos hne
        (hload k (hk.mono (Nat.le_succ k)))
      rw [Function.iterate_succ_apply']
      exact ⟨hstep.1, Nat.lt_of_succ_le (Nat.le_of_eq hstep.2)⟩)
    (Nat.lt_succ_of_le hm)
  refine ⟨ks, st', ?_, hks, ?_⟩
  · have hpeel : peelLoop mem pos s (3 * s + 1) (mapInit mem pos n s st) = some st' := hloop
    rw [mapSlots, hpeel, Option.map_some, ← hks.peel.head]
    rfl
  · exact (queueIsEmpty_iff hks.queue).1 (by simpa [peeling] using hend)

end Run

/-! Without any bound on the buckets the loop still ends, and the buffers keep
their shape: the measure falls whatever key a round removes. -/

section Safe

variable (mem : Memory) {pos : ℕ → HashNoFP} {n s : ℕ} {st : MapState}

structure SafeInv (n s : ℕ) (st : MapState) : Prop where
  ready : MapReady n s st
  buckets : BucketsOk (3 * s) st.B
  bounded : measure s st.toWork ≤ 3 * s

/-- A round of the loop is a round on the head of the queue. -/
theorem SafeInv.step (hpos : ∀ x, SlotsOk s (pos x)) (hs : 3 * s < 2 ^ 31) (h : SafeInv n s st)
    (hne : queueIsEmpty st.Q = false) : SafeInv n s (peelBody mem pos s st) ∧
      measure s (peelBody mem pos s st).toWork + 1 = measure s st.toWork ∧
      ∃ rest, st.toWork.work = (queueGet st.Q).1 :: rest ∧
        (peelBody mem pos s st).toWork = workBody pos s st.toWork (queueGet st.Q).1 rest := by
  obtain ⟨rest, hl⟩ := exists_rest h.ready.queue hne
  have hw : st.toWork.work = [] ++ (queueGet st.Q).1 :: rest := hl
  have hm := measure_workBody hpos h.buckets hw
  have hbound := h.bounded
  rw [List.nil_append] at hm
  have hlen : (workBody pos s st.toWork (queueGet st.Q).1 rest).work.length ≤
      measure s (workBody pos s st.toWork (queueGet st.Q).1 rest) := Nat.le_add_right _ _
  obtain ⟨hq, hbody⟩ := peelBody_toWork mem h.ready.queue h.buckets hpos hl (by omega)
  rw [← hbody] at hm
  have hB : (peelBody mem pos s st).B = (workBody pos s st.toWork (queueGet st.Q).1 rest).B :=
    congrArg WorkState.B hbody
  have hstack : (peelBody mem pos s st).stack =
      (workBody pos s st.toWork (queueGet st.Q).1 rest).stack := congrArg WorkState.stack hbody
  have hok : BucketsOk (3 * s) (peelBody mem pos s st).B ∧
      (peelBody mem pos s st).stack.data.length = n := by
    rw [hB, hstack]
    by_cases hc : bucketGetCount st.toWork.B (queueGet st.Q).1 = 1
    · rw [workBody_take hc]
      exact ⟨removeKey_ok h.buckets _, List.length_set.trans h.ready.stack_length⟩
    · rw [workBody_skip hc]
      exact ⟨h.buckets, h.ready.stack_length⟩
  exact ⟨⟨⟨hq, hok.2, hok.1.capacity_eq⟩, hok.1, by omega⟩, hm, rest, hl, hbody⟩

theorem mapInit_safe (hst : MapReady n s st) (hpos : ∀ x, SlotsOk s (pos x)) (hn : n ≤ 2 ^ 32)
    (hs : 3 * s < 2 ^ 31) : LoopInv pos n s [] (mapInit mem pos n s st) ∧
      SafeInv n s (mapInit mem pos n s st) := by
  have hroom : 2 * (singles s (filled pos n s)).length + (pending s (filled pos n s)).card <
      2 ^ 32 := by
    have hle := singles_length_add_pending_le s (filled pos n s)
    omega
  have hinit := (mapInit_spec mem hst hpos hn (by omega) hroom).1
  exact ⟨hinit, hinit.ready, hinit.peel.buckets,
    measure_mapInit_le mem hst hpos hn (by omega) hroom⟩

/-- `map` returns whatever the slots are, leaves its buffers reusable, and ends
in a state that has every property its rounds keep. -/
theorem mapSlots_run (hst : MapReady n s st) (hpos : ∀ x, SlotsOk s (pos x)) (hn : n ≤ 2 ^ 32)
    (hs : 3 * s < 2 ^ 31) {P : WorkState → Prop} (hP : P (mapInit mem pos n s st).toWork)
    (hstep : ∀ w idx rest, BucketsOk (3 * s) w.B → w.work = idx :: rest → P w →
      P (workBody pos s w idx rest)) :
    ∃ st', mapSlots mem pos n s st = some (st'.stack.head == n, st') ∧ MapReady n s st' ∧
      P st'.toWork ∧ st'.toWork.work = [] := by
  have hsafe := (mapInit_safe mem hst hpos hn hs).2
  obtain ⟨st', hloop, ⟨hst', hPst'⟩, hend⟩ := whileFuel_spec peeling
    (peelBody mem pos s) (I := fun st => SafeInv n s st ∧ P st.toWork)
    (m := fun st => measure s st.toWork) ⟨hsafe, hP⟩
    (fun k hk ⟨hks, hPk⟩ => by
      obtain ⟨hsafe, hm, rest, hw, hbody⟩ :=
        hks.step mem hpos hs (Reaches.queue_nonempty hk (Nat.lt_succ_self k))
      rw [Function.iterate_succ_apply']
      refine ⟨⟨hsafe, ?_⟩, Nat.lt_of_succ_le (Nat.le_of_eq hm)⟩
      rw [hbody]
      exact hstep _ _ rest hks.buckets hw hPk)
    (Nat.lt_succ_of_le hsafe.bounded)
  have hpeel : peelLoop mem pos s (3 * s + 1) (mapInit mem pos n s st) = some st' := hloop
  refine ⟨st', by rw [mapSlots, hpeel, Option.map_some], hst'.ready, hPst', ?_⟩
  exact (queueIsEmpty_iff hst'.ready.queue).1 (by simpa [peeling] using hend)

end Safe

section Exit

variable {pos : ℕ → HashNoFP} {n s : ℕ} {ks : List (ℕ × ℕ)} {w : WorkState}

/-- With nothing queued, no remaining key has an uncrowded bucket to itself. -/
theorem PeelInv.exists_ne_touches (h : PeelInv pos n s ks w) (hpos : ∀ x, SlotsOk s (pos x))
    (hwork : w.work = []) {b : ℕ} (hload : load pos n b ≤ 255) {k : ℕ} (hk : k ∈ remaining n ks)
    (hb : Touches (pos k) b) : ∃ k' ∈ remaining n ks, k' ≠ k ∧ Touches (pos k') b := by
  by_contra hnone
  have hlt := (hpos k).lt hb
  have hkeys : keysAt pos (remaining n ks) b = {k} := by
    refine Finset.eq_singleton_iff_unique_mem.2 ⟨Finset.mem_filter.2 ⟨hk, hb⟩, fun k' hk' => ?_⟩
    by_contra hne
    exact hnone ⟨k', (Finset.mem_filter.1 hk').1, hne, (Finset.mem_filter.1 hk').2⟩
  have hcount := h.count_of_load_le hlt hload
  rw [hkeys, Finset.card_singleton] at hcount
  have hmem := h.queued b hlt hcount
  rw [hwork] at hmem
  exact List.not_mem_nil hmem

theorem PeelInv.twoCore (h : PeelInv pos n s ks w) (hpos : ∀ x, SlotsOk s (pos x))
    (hload : ∀ b, load pos n b ≤ 255) (hwork : w.work = []) :
    TwoCore (fun k b => Touches (pos k) b) (remaining n ks) :=
  fun _ hk b hb => h.exists_ne_touches hpos hwork (hload b) hk hb

/-- All keys are on the stack exactly when the keys can be peeled in some order. -/
theorem PeelInv.length_eq_iff (h : PeelInv pos n s ks w) (hpos : ∀ x, SlotsOk s (pos x))
    (hload : ∀ b, load pos n b ≤ 255) (hwork : w.work = []) :
    ks.length = n ↔ Peelable (fun k b => Touches (pos k) b) (Finset.range n) := by
  rw [← run_end_eq_empty_iff h.run (h.twoCore hpos hload hwork), ← Finset.card_eq_zero]
  have hcard := h.card_remaining
  omega

end Exit

end RedisXor
