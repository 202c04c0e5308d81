import RedisXor.Proofs.Growth
import RedisXor.Proofs.NoFalseNegatives

/-! How long the peeling loop runs and how much the queue holds, whatever the
loop reads from `hashes[x]`. A bucket is entered only when its count is one
afterwards: it was one from the start, or a removal has just brought it down
from two. Counts never rise, so no bucket is entered a second time. -/

namespace RedisXor

open While

/-- The buckets entered so far, `k` of which have been popped. -/
structure EnteredOnce (s k : ℕ) (entered : List ℕ) (w : WorkState) : Prop where
  nodup : entered.Nodup
  lt : ∀ b ∈ entered, b < 3 * s
  count_le : ∀ b ∈ entered, bucketGetCount w.B b ≤ 1
  work_eq : w.work = entered.drop k
  popped_le : k ≤ entered.length

section Step

variable {pos : ℕ → HashNoFP} {s k : ℕ} {E : List ℕ} {w : WorkState}

theorem EnteredOnce.length_le (h : EnteredOnce s k E w) : E.length ≤ 3 * s := by
  have hsub : E.toFinset ⊆ Finset.range (3 * s) := fun b hb =>
    Finset.mem_range.2 (h.lt b (List.mem_toFinset.1 hb))
  have hcard := Finset.card_le_card hsub
  rwa [List.toFinset_card_of_nodup h.nodup, Finset.card_range] at hcard

theorem EnteredOnce.pop (h : EnteredOnce s k E w) {idx : ℕ} {rest : List ℕ}
    (hw : w.work = idx :: rest) : k < E.length ∧ E.drop (k + 1) = rest := by
  have hdrop := h.work_eq
  rw [hw] at hdrop
  have hk : k < E.length := by
    by_contra hge
    rw [List.drop_eq_nil_of_le (by omega)] at hdrop
    cases hdrop
  rw [List.drop_eq_getElem_cons hk] at hdrop
  exact ⟨hk, (List.cons.inj hdrop).2.symm⟩

theorem EnteredOnce.skip (h : EnteredOnce s k E w) {idx : ℕ} {rest : List ℕ}
    (hw : w.work = idx :: rest) : EnteredOnce s (k + 1) E { w with work := rest } := by
  obtain ⟨hk, hrest⟩ := h.pop hw
  exact ⟨h.nodup, h.lt, h.count_le, hrest.symm, hk⟩

/-- What a removal releases had count two, what was entered before at most one. -/
theorem EnteredOnce.take (h : EnteredOnce s k E w) (hB : BucketsOk (3 * s) w.B)
    (hpos : ∀ x, SlotsOk s (pos x)) {idx : ℕ} {rest : List ℕ} (hw : w.work = idx :: rest) (x : ℕ)
    (stack : Stack) : EnteredOnce s (k + 1) (E ++ released w.B (pos x))
      { work := rest ++ released w.B (pos x), B := removeKey w.B (pos x) x, stack := stack } := by
  obtain ⟨hk, hrest⟩ := h.pop hw
  refine ⟨?_, fun b hb => ?_, fun b hb => ?_, ?_, ?_⟩
  · refine List.nodup_append.2 ⟨h.nodup, released_nodup (hpos x), fun a ha b hb hab => ?_⟩
    have hone := h.count_le a ha
    have htwo := (mem_released.1 hb).2
    rw [← hab] at htwo
    omega
  · rcases List.mem_append.1 hb with hb | hb
    · exact h.lt b hb
    · exact (hpos x).lt (mem_released.1 hb).1
  · simp only [bucketGetCount_removeKey hB (hpos x)]
    rcases List.mem_append.1 hb with hb | hb
    · have hone := h.count_le b hb
      split_ifs <;> omega
    · obtain ⟨ht, htwo⟩ := mem_released.1 hb
      rw [if_pos ht, htwo]
  · rw [List.drop_append_of_le_length (by omega), hrest]
  · rw [List.length_append]
    omega

theorem EnteredOnce.round {st : MapState} (h : EnteredOnce s k E st.toWork)
    (hB : BucketsOk (3 * s) st.B) (hpos : ∀ x, SlotsOk s (pos x)) {rest : List ℕ}
    (hw : st.toWork.work = (queueGet st.Q).1 :: rest) :
    EnteredOnce s (k + 1) (E ++ roundEntered pos st)
      (workBody pos s st.toWork (queueGet st.Q).1 rest) := by
  rw [roundEntered_eq hB hpos]
  by_cases hc : bucketGetCount st.B (queueGet st.Q).1 = 1
  · rw [if_pos hc, workBody_take (w := st.toWork) hc]
    exact h.take hB hpos hw _ _
  · rw [if_neg hc, workBody_skip (w := st.toWork) hc, List.append_nil]
    exact h.skip hw

end Step

/-! Calls of `map` -/

/-- A call of `map`: the seed, the buffers it finds, and what the read of
`hashes[x]` yields in each round of its `while` loop. -/
structure MapCall where
  seed : ℕ
  st : MapState
  reads : ℕ → ℕ → UInt64

namespace MapCall

variable (mem : Memory) (hashes : List UInt64) (c : MapCall)

/-- The slots of the removals in round `k`. -/
def slots (k x : ℕ) : HashNoFP :=
  hashTransformNoFingerprint (c.reads k x) (buildSegmentSize hashes.length) c.seed

/-- The state at the `k`-th test of the loop condition, counted from zero. -/
def run : ℕ → MapState
  | 0 => mapInit mem (buildSlots mem hashes c.seed) hashes.length
      (buildSegmentSize hashes.length) c.st
  | k + 1 => peelBody mem (c.slots hashes k) (buildSegmentSize hashes.length) (run k)

def Reaches (k : ℕ) : Prop := ∀ j < k, queueIsEmpty (c.run mem hashes j).Q = false

def EndsAt (k : ℕ) : Prop :=
  c.Reaches mem hashes k ∧ queueIsEmpty (c.run mem hashes k).Q = true

/-- The arguments of `Queue_Add` up to the `k`-th test of the loop condition. -/
def entered : ℕ → List ℕ
  | 0 => fillEntered (buildSegmentSize hashes.length) (c.run mem hashes 0).B
  | k + 1 => entered k ++ roundEntered (c.slots hashes k) (c.run mem hashes k)

end MapCall

/-- The calls on the buffers that `xor_build` allocates, each of which hands them
on to the next. The seeds are arbitrary, and so is their number. -/
inductive BuildCalls (mem : Memory) (hashes : List UInt64) : MapCall → Prop
  | first (seed : ℕ) (reads : ℕ → ℕ → UInt64) :
      BuildCalls mem hashes ⟨seed, buildState hashes.length, reads⟩
  | next {c : MapCall} {k : ℕ} (call : BuildCalls mem hashes c) (ends : c.EndsAt mem hashes k)
      (seed : ℕ) (reads : ℕ → ℕ → UInt64) :
      BuildCalls mem hashes ⟨seed, c.run mem hashes k, reads⟩

section Run

variable {mem : Memory} {hashes : List UInt64} {c : MapCall} {start k : ℕ}

theorem MapCall.slots_ok (h0 : 1 ≤ hashes.length) (hn : hashes.length ≤ 2 ^ 30) (k x : ℕ) :
    SlotsOk (buildSegmentSize hashes.length) (c.slots hashes k x) := by
  have hlt := three_mul_buildSegmentSize_lt hn
  exact hashTransformNoFingerprint_ok (buildSegmentSize_pos h0 hn) (by omega) _ _

/-- What each round of a call keeps. -/
structure CallInv (n s start k : ℕ) (entered : List ℕ) (st : MapState) : Prop where
  safe : SafeInv n s st
  ring : RingBounded start st.Q
  once : EnteredOnce s k entered st.toWork

theorem CallInv.init (h0 : 1 ≤ hashes.length) (hn : hashes.length ≤ 2 ^ 30)
    (hst : MapReady hashes.length (buildSegmentSize hashes.length) c.st)
    (hring : RingBounded start c.st.Q)
    (hstart : 3 * buildSegmentSize hashes.length < 4 * start) :
    CallInv hashes.length (buildSegmentSize hashes.length) start 0 (c.entered mem hashes 0)
      (c.run mem hashes 0) := by
  have hlt := three_mul_buildSegmentSize_lt hn
  have hpos := buildSlots_ok mem h0 hn c.seed
  have hB : (c.run mem hashes 0).B = filled (buildSlots mem hashes c.seed) hashes.length
      (buildSegmentSize hashes.length) := mapInit_B mem hst
  have hwork : (c.run mem hashes 0).toWork.work = _ :=
    (mapInit_spec mem hst hpos (by omega) (by omega) (room_of_lt hlt _)).2
  have hentered : c.entered mem hashes 0 = _ := fillEntered_eq (by omega) (c.run mem hashes 0).B
  have hle := singles_length_add_pending_le (buildSegmentSize hashes.length)
    (c.run mem hashes 0).B
  rw [← hB] at hwork
  refine ⟨(mapInit_safe mem hst hpos (by omega) hlt).2, ?_, ?_⟩
  · have hQ : (c.run mem hashes 0).Q =
        (c.entered mem hashes 0).foldl (queueAdd mem) (queueClean c.st.Q) := fillQueue_eq mem _ _ _
    have hempty : queueSize (queueClean c.st.Q) = 0 := by
      rw [← length_queueList, queueList_clean, List.length_nil]
    rw [hQ, hentered]
    exact hring.clean.foldl_add mem (queueClean_ok hst.queue) hlt hstart _ (by omega)
  · rw [hentered]
    refine ⟨List.Nodup.filter _ List.nodup_range, fun b hb => ?_, fun b hb => ?_, hwork,
      Nat.zero_le _⟩
    · exact List.mem_range.1 (List.mem_filter.1 hb).1
    · have hone : bucketGetCount (c.run mem hashes 0).B b = 1 := by
        simpa using (List.mem_filter.1 hb).2
      exact hone.le

theorem CallInv.step (h0 : 1 ≤ hashes.length) (hn : hashes.length ≤ 2 ^ 30)
    (hstart : 3 * buildSegmentSize hashes.length < 4 * start)
    (h : CallInv hashes.length (buildSegmentSize hashes.length) start k (c.entered mem hashes k)
      (c.run mem hashes k)) (hne : queueIsEmpty (c.run mem hashes k).Q = false) :
    CallInv hashes.length (buildSegmentSize hashes.length) start (k + 1)
      (c.entered mem hashes (k + 1)) (c.run mem hashes (k + 1)) := by
  have hlt := three_mul_buildSegmentSize_lt hn
  have hpos := MapCall.slots_ok (c := c) h0 hn k
  obtain ⟨hsafe, -, rest, hw, hbody⟩ := h.safe.step mem hpos hlt hne
  have hround := h.once.round h.safe.buckets hpos hw
  refine ⟨hsafe, ?_, by rw [← hbody] at hround; exact hround⟩
  obtain ⟨-, hrest⟩ := queueGet_spec h.safe.ready.queue hw
  have hlen := congrArg List.length (workBody_work h.safe.buckets hpos rest)
  rw [← hbody, List.length_append, ← hrest, length_queueList] at hlen
  have hle := hsafe.bounded
  have hQ : (c.run mem hashes (k + 1)).Q = _ := peelBody_Q mem (c.slots hashes k) _ _
  rw [hQ]
  refine h.ring.get.foldl_add mem (queueGet_ok h.safe.ready.queue) hlt hstart _ ?_
  simp only [measure] at hle
  omega

theorem MapCall.run_inv (h0 : 1 ≤ hashes.length) (hn : hashes.length ≤ 2 ^ 30)
    (hst : MapReady hashes.length (buildSegmentSize hashes.length) c.st)
    (hring : RingBounded start c.st.Q) (hstart : 3 * buildSegmentSize hashes.length < 4 * start)
    (hk : c.Reaches mem hashes k) :
    CallInv hashes.length (buildSegmentSize hashes.length) start k (c.entered mem hashes k)
      (c.run mem hashes k) := by
  induction k with
  | zero => exact CallInv.init h0 hn hst hring hstart
  | succ k ih =>
    have hprev := ih fun j hj => hk j (by omega)
    exact hprev.step h0 hn hstart (hk k (Nat.lt_succ_self k))

/-- Some test of the condition fails: until then every round pops a bucket that
was entered. -/
theorem MapCall.exists_ends (h0 : 1 ≤ hashes.length) (hn : hashes.length ≤ 2 ^ 30)
    (hst : MapReady hashes.length (buildSegmentSize hashes.length) c.st)
    (hring : RingBounded start c.st.Q) (hstart : 3 * buildSegmentSize hashes.length < 4 * start) :
    ∃ k, c.EndsAt mem hashes k := by
  by_contra hnone
  have hreach (k : ℕ) : c.Reaches mem hashes k := by
    induction k with
    | zero => exact fun j hj => absurd hj (Nat.not_lt_zero j)
    | succ k ih =>
      intro j hj
      rcases Nat.lt_succ_iff_lt_or_eq.1 hj with hj | rfl
      · exact ih j hj
      · by_contra hne
        exact hnone ⟨j, ih, by simpa using hne⟩
  have hinv := MapCall.run_inv h0 hn hst hring hstart
    (hreach (3 * buildSegmentSize hashes.length + 1))
  have hle := hinv.once.popped_le.trans hinv.once.length_le
  omega

/-- The least capacity that two doublings take past every slot. -/
theorem queueCapacity_suffices {s : ℕ} (hs : 0 < s) : 3 * s < 4 * (2 * (3 * s) / 5) := by
  rcases Nat.eq_or_lt_of_le hs with rfl | h2
  · decide
  · omega

theorem BuildCalls.ready (h0 : 1 ≤ hashes.length) (hn : hashes.length ≤ 2 ^ 30)
    (h : BuildCalls mem hashes c) :
    MapReady hashes.length (buildSegmentSize hashes.length) c.st ∧
      RingBounded (2 * (3 * buildSegmentSize hashes.length) / 5) c.st.Q := by
  have hstart := queueCapacity_suffices (buildSegmentSize_pos h0 hn)
  induction h with
  | first seed reads =>
    have hlt := three_mul_buildSegmentSize_lt hn
    refine ⟨buildState_ready h0 hn, ?_⟩
    simp only [buildState, buildQueueCapacity, Nat.mul_comm _ 3,
      wrap32_of_lt (show 3 * buildSegmentSize hashes.length < 2 ^ 32 by omega)]
    exact queueCreate_bounded (by omega)
  | next call ends seed reads ih =>
    have hinv := MapCall.run_inv h0 hn ih.1 ih.2 hstart ends.1
    exact ⟨hinv.safe.ready, hinv.ring⟩

/-- The call the code makes, with a memory that does not change meanwhile. -/
def codeCall (mem : Memory) (hashes : List UInt64) (seed : ℕ) (st : MapState) : MapCall :=
  ⟨seed, st, fun _ => readHash mem hashes⟩

theorem codeCall_run (seed : ℕ) (st : MapState) (k : ℕ) : (codeCall mem hashes seed st).run mem
    hashes k = mapRun mem (buildSlots mem hashes seed) hashes.length
      (buildSegmentSize hashes.length) st k := by
  induction k with
  | zero => rfl
  | succ k ih =>
    rw [mapRun, Function.iterate_succ_apply', ← mapRun, ← ih]
    rfl

theorem map_endsAt {seed : ℕ} {st st' : MapState} {b : Bool}
    (hmap : map mem hashes (buildSegmentSize hashes.length) seed st = some (b, st')) :
    ∃ k, (codeCall mem hashes seed st).EndsAt mem hashes k ∧
      st' = (codeCall mem hashes seed st).run mem hashes k ∧
      b = (st'.stack.head == hashes.length) := by
  rw [map, mapSlots, Option.map_eq_some_iff] at hmap
  obtain ⟨st₁, hloop, heq⟩ := hmap
  obtain ⟨rfl, rfl⟩ := Prod.mk.inj heq
  obtain ⟨k, hk, hst, hend⟩ := exists_running_of_whileFuel hloop
  refine ⟨k, ⟨fun j hj => ?_, ?_⟩, by rw [codeCall_run]; exact hst, rfl⟩
  · rw [codeCall_run]
    exact Reaches.queue_nonempty hk hj
  · rw [codeCall_run]
    change queueIsEmpty (mapRun mem (keySlots mem hashes _ seed) _ _ st k).Q = true
    rw [mapRun, ← hst]
    simpa using hend

/-- `map` returns in every call of the code, at a test of its condition that
fails. -/
theorem BuildCalls.map_eq (h0 : 1 ≤ hashes.length) (hn : hashes.length ≤ 2 ^ 30) {seed : ℕ}
    {st : MapState} (h : BuildCalls mem hashes (codeCall mem hashes seed st)) :
    ∃ k, (codeCall mem hashes seed st).EndsAt mem hashes k ∧
      let st' := (codeCall mem hashes seed st).run mem hashes k
      map mem hashes (buildSegmentSize hashes.length) seed st =
        some (st'.stack.head == hashes.length, st') := by
  have hst : MapReady hashes.length (buildSegmentSize hashes.length) st := (h.ready h0 hn).1
  obtain ⟨st', hmap, -⟩ := mapSlots_run mem hst (buildSlots_ok mem h0 hn seed) (by omega)
    (three_mul_buildSegmentSize_lt hn) (P := fun _ => True) trivial fun _ _ _ _ _ _ => trivial
  obtain ⟨k, hk, rfl, -⟩ := map_endsAt hmap
  exact ⟨k, hk, hmap⟩

/-- The seed loop returns, with a ring that has grown at most twice. -/
theorem seedLoop_bounded (h0 : 1 ≤ hashes.length) (hn : hashes.length ≤ 2 ^ 30) {tries seed : ℕ}
    {st : MapState} (h : BuildCalls mem hashes (codeCall mem hashes seed st)) :
    ∃ r, seedLoop mem hashes (buildSegmentSize hashes.length) tries seed st = some r ∧
      ∀ sd st', r = some (sd, st') → st'.Q.reallocations ≤ 2 := by
  induction tries generalizing seed st with
  | zero => exact ⟨none, rfl, fun sd st' hr => by cases hr⟩
  | succ tries ih =>
    obtain ⟨k, hend, hmap⟩ := h.map_eq h0 hn
    obtain ⟨hst, hring⟩ := h.ready h0 hn
    have hinv := MapCall.run_inv h0 hn hst hring
      (queueCapacity_suffices (buildSegmentSize_pos h0 hn)) hend.1
    rw [seedLoop_succ hmap]
    split_ifs with hfull
    · refine ⟨_, rfl, fun sd st' hr => ?_⟩
      obtain ⟨-, rfl⟩ := Prod.mk.inj (Option.some.inj hr)
      exact hinv.ring.reallocations_le
    · exact ih (h.next hend (seed + 1) _)

variable (mem hashes) in
theorem buildFilter_reallocations_le (fpSize : FingerprintSize) (s sd : ℕ) {st : MapState}
    (h : st.Q.reallocations ≤ 2) :
    (buildFilter mem hashes fpSize s sd st).reallocations.toNat ≤ 2 := by
  have hshape := buildFilter_shape mem hashes fpSize s sd st
  rw [hshape.reallocations_eq, blankFilter, UInt32.toNat_ofNat']
  exact (Nat.mod_le _ _).trans h

variable (mem) in
theorem xorBuild_bounded (h0 : 1 ≤ hashes.length) (hn : hashes.length ≤ 2 ^ 30)
    (fpSize : FingerprintSize) : ∃ r, xorBuild mem hashes fpSize = some r ∧
      ∀ f, r = some f → f.reallocations.toNat ≤ 2 := by
  obtain ⟨r, hloop, hbound⟩ := @seedLoop_bounded mem hashes h0 hn 101 0 _
    (BuildCalls.first 0 _)
  refine ⟨_, by rw [xorBuild, hloop, Option.map_some], fun f hf => ?_⟩
  obtain ⟨⟨sd, st⟩, rfl, rfl⟩ := Option.map_eq_some_iff.1 hf
  exact buildFilter_reallocations_le mem hashes fpSize _ sd (hbound sd st rfl)

end Run

/-- Peeling terminates with a bounded queue. The first part is about every call
of `map` at any seed, and whatever its loop reads from `hashes[x]`: no bucket is
entered twice, `k` rounds have popped the first `k` buckets entered, and the loop
ends with a ring that has doubled at most twice since it was created. A crowd can
push more pairs than the stack has cells; such a push is taken to hit neither the
ring nor the buckets. The other parts say that the calls of the code are among
these, and what it stores. -/
theorem peeling_bounded (mem : Memory) {hashes : List UInt64} (h0 : 1 ≤ hashes.length)
    (hn : hashes.length ≤ 2 ^ 30) :
    let s := buildSegmentSize hashes.length
    (∀ c, BuildCalls mem hashes c →
      (∀ k, c.Reaches mem hashes k →
        (c.entered mem hashes k).Nodup ∧ (∀ b ∈ c.entered mem hashes k, b < 3 * s) ∧
        queueList (c.run mem hashes k).Q = (c.entered mem hashes k).drop k ∧ k ≤ 3 * s ∧
        RingBounded (2 * (3 * s) / 5) (c.run mem hashes k).Q) ∧
      ∃ k, c.EndsAt mem hashes k ∧ ∀ fpSize,
        (buildFilter mem hashes fpSize s c.seed (c.run mem hashes k)).reallocations.toNat ≤ 2) ∧
    (∀ seed st, BuildCalls mem hashes (codeCall mem hashes seed st) →
      ∃ k, (codeCall mem hashes seed st).EndsAt mem hashes k ∧
        let st' := (codeCall mem hashes seed st).run mem hashes k
        map mem hashes s seed st = some (st'.stack.head == hashes.length, st')) ∧
    ∀ fpSize, ∃ r, xorBuild mem hashes fpSize = some r ∧
      ∀ f, r = some f → f.reallocations.toNat ≤ 2 := by
  intro s
  have hstart := queueCapacity_suffices (buildSegmentSize_pos h0 hn)
  refine ⟨fun c hc => ?_, fun seed st h => h.map_eq h0 hn, xorBuild_bounded mem h0 hn⟩
  obtain ⟨hst, hring⟩ := hc.ready h0 hn
  have hinv {k : ℕ} (hk : c.Reaches mem hashes k) := MapCall.run_inv h0 hn hst hring hstart hk
  refine ⟨fun k hk => ⟨(hinv hk).once.nodup, (hinv hk).once.lt, (hinv hk).once.work_eq,
    (hinv hk).once.popped_le.trans (hinv hk).once.length_le, (hinv hk).ring⟩, ?_⟩
  obtain ⟨k, hend⟩ := MapCall.exists_ends h0 hn hst hring hstart
  exact ⟨k, hend, fun fpSize =>
    buildFilter_reallocations_le mem hashes fpSize s c.seed (hinv hend.1).ring.reallocations_le⟩

/-- The first call with four hashes ends, and the filter they get in the end has
counted no more than two doublings. -/
theorem peeling_bounded_four_hashes :
    (∃ k, (codeCall default [1, 2, 3, 4] 0 (buildState 4)).EndsAt default [1, 2, 3, 4] k) ∧
      ∃ f, xorBuild default [1, 2, 3, 4] FP8 = some (some f) ∧ f.reallocations.toNat ≤ 2 := by
  obtain ⟨hcalls, -, hstored⟩ := @peeling_bounded default [1, 2, 3, 4] (by decide) (by decide)
  have hsome : ((xorBuild default [1, 2, 3, 4] FP8).bind id).isSome = true := by decide +kernel
  obtain ⟨r, hbuild, hle⟩ := hstored FP8
  obtain ⟨f, hf⟩ := Option.isSome_iff_exists.1 hsome
  rw [hbuild, Option.bind_some, id] at hf
  obtain ⟨k, hend, -⟩ := (hcalls _ (BuildCalls.first 0 _)).2
  exact ⟨⟨k, hend⟩, f, by rw [hbuild, hf], hle f hf⟩

end RedisXor
