import RedisXor.Proofs.Soundness

/-! The filter does not depend on memory the program never wrote, as long as no
bucket is crowded: two runs of `map` over different memory images differ in the
dead cells of the ring and in nothing else. -/

namespace RedisXor

open While

/-- A queue without the contents of its cells. -/
def Queue.shape (q : Queue) : Queue := { q with data := [] }

section Shape

variable (mem mem' : Memory) {q q' : Queue}

theorem queueIsEmpty_shape (h : q.shape = q'.shape) : queueIsEmpty q = queueIsEmpty q' := by
  simp only [Queue.shape, Queue.mk.injEq] at h
  simp only [queueIsEmpty, h]

theorem queueGet_shape (h : q.shape = q'.shape) :
    (queueGet q).2.shape = (queueGet q').2.shape := by
  simp only [Queue.shape, Queue.mk.injEq] at h
  simp only [Queue.shape, queueGet, h]

theorem queueClean_shape (h : q.shape = q'.shape) :
    (queueClean q).shape = (queueClean q').shape := by
  simp only [Queue.shape, Queue.mk.injEq] at h
  simp only [Queue.shape, queueClean, h]

/-- When a queue grows depends on its indices alone. -/
theorem queueAdd_shape (h : q.shape = q'.shape) (x : ℕ) :
    (queueAdd mem q x).shape = (queueAdd mem' q' x).shape := by
  simp only [Queue.shape, Queue.mk.injEq] at h
  obtain ⟨-, hcap, hlast, hfirst, hre⟩ := h
  simp only [queueAdd, hcap, hlast, hfirst]
  split_ifs <;> simp only [Queue.shape, queueGrow, hcap, hlast, hfirst, hre]

theorem queueAdd_foldl_shape (h : q.shape = q'.shape) (objects : List ℕ) :
    (objects.foldl (queueAdd mem) q).shape = (objects.foldl (queueAdd mem') q').shape :=
  List.foldl_rel (r := fun q q' : Queue => q.shape = q'.shape) h fun x _ _ _ hq =>
    queueAdd_shape mem mem' hq x

theorem fillQueue_shape (h : q.shape = q'.shape) (s : ℕ) (B : Buckets) :
    (fillQueue mem s B q).shape = (fillQueue mem' s B q').shape := by
  rw [fillQueue_eq, fillQueue_eq]
  exact queueAdd_foldl_shape mem mem' h _

end Shape

/-- Two states that the program cannot tell apart. -/
structure Same (st st' : MapState) : Prop where
  work : st.toWork = st'.toWork
  shape : st.Q.shape = st'.Q.shape

theorem Same.stack_eq {st st' : MapState} (h : Same st st') : st.stack = st'.stack :=
  congrArg WorkState.stack h.work

theorem Same.B_eq {st st' : MapState} (h : Same st st') : st.B = st'.B :=
  congrArg WorkState.B h.work

section Body

variable (mem mem' : Memory) {pos pos' : ℕ → HashNoFP} {n s : ℕ} {st st' : MapState}

theorem peelBody_shape (h : Same st st') (hidx : (queueGet st.Q).1 = (queueGet st'.Q).1)
    (hx : bucketGetCount st.B (queueGet st.Q).1 = 1 →
      pos (bucketGetSingleValue st.B (queueGet st.Q).1) =
        pos' (bucketGetSingleValue st.B (queueGet st.Q).1)) :
    (peelBody mem pos s st).Q.shape = (peelBody mem' pos' s st').Q.shape := by
  have hentered : roundEntered pos st = roundEntered pos' st' := by
    simp only [roundEntered, ← h.B_eq, ← hidx]
    split_ifs with hc
    · rw [hx hc]
    · rfl
  rw [peelBody_Q, peelBody_Q, hentered]
  exact queueAdd_foldl_shape mem mem' (queueGet_shape h.shape) _

/-- A round of two runs in step: the keys the first one reads are in range, so
both use the same slots. -/
theorem Same.step (hpos : ∀ x, SlotsOk s (pos x)) (hpos' : ∀ x, SlotsOk s (pos' x))
    (hs : 3 * s < 2 ^ 31) (hagree : ∀ x < n, pos x = pos' x) (hload : ∀ b, load pos n b ≤ 255)
    (hsafe : SafeInv n s st) (hsafe' : SafeInv n s st')
    (hpeel : ∃ ks, PeelInv pos n s ks st.toWork) (h : Same st st')
    (hne : queueIsEmpty st.Q = false) :
    Same (peelBody mem pos s st) (peelBody mem' pos' s st') ∧
      ∃ ks, PeelInv pos n s ks (peelBody mem pos s st).toWork := by
  obtain ⟨ks, hks⟩ := hpeel
  have hne' : queueIsEmpty st'.Q = false := queueIsEmpty_shape h.shape ▸ hne
  obtain ⟨-, -, rest, hw, hbody⟩ := hsafe.step mem hpos hs hne
  obtain ⟨-, -, rest', hw', hbody'⟩ := hsafe'.step mem' hpos' hs hne'
  have hcons : (queueGet st.Q).1 :: rest = (queueGet st'.Q).1 :: rest' := by
    rw [← hw, ← hw', h.work]
  obtain ⟨hidx, hrest⟩ := List.cons.inj hcons
  have hkey (hc : bucketGetCount st.B (queueGet st.Q).1 = 1) :
      pos (bucketGetSingleValue st.B (queueGet st.Q).1) =
        pos' (bucketGetSingleValue st.B (queueGet st.Q).1) := by
    have hlt := hks.work_lt (queueGet st.Q).1 (by rw [hw]; exact List.mem_cons_self)
    have hmem := (mem_of_keysAt_eq_singleton (hks.keysAt_eq_singleton hlt hc (hload _))).1
    exact hagree _ (mem_remaining.1 hmem).1
  refine ⟨⟨?_, peelBody_shape mem mem' h hidx hkey⟩, ?_⟩
  · rw [hbody, hbody', ← hidx, ← hrest, ← h.work]
    by_cases hc : bucketGetCount st.toWork.B (queueGet st.Q).1 = 1
    · have hkey : pos (bucketGetSingleValue st.toWork.B (queueGet st.Q).1) =
          pos' (bucketGetSingleValue st.toWork.B (queueGet st.Q).1) := hkey hc
      rw [workBody_take hc, workBody_take hc]
      simp only [hkey]
    · rw [workBody_skip hc, workBody_skip hc]
  · rw [hbody]
    have hw : st.toWork.work = [] ++ (queueGet st.Q).1 :: rest := hw
    by_cases hc : bucketGetCount st.toWork.B (queueGet st.Q).1 = 1
    · exact ⟨_, hks.take hpos hw hc (hload _)⟩
    · exact ⟨ks, hks.skip hw hc⟩

theorem fillBuckets_congr (hagree : ∀ x < n, pos x = pos' x) (B : Buckets) :
    fillBuckets pos n B = fillBuckets pos' n B := by
  refine List.foldl_ext _ _ _ fun B x hx => ?_
  simp only [pushKey, hagree x (List.mem_range.1 hx)]

theorem mapInit_same (hst : MapReady n s st) (hst' : MapReady n s st')
    (hpos : ∀ x, SlotsOk s (pos x)) (hpos' : ∀ x, SlotsOk s (pos' x)) (hn : n ≤ 2 ^ 32)
    (hs : 3 * s < 2 ^ 31) (hagree : ∀ x < n, pos x = pos' x) (h : Same st st') :
    Same (mapInit mem pos n s st) (mapInit mem' pos' n s st') := by
  have hfilled : filled pos n s = filled pos' n s := fillBuckets_congr hagree _
  have hB : (mapInit mem pos n s st).B = (mapInit mem' pos' n s st').B := by
    rw [mapInit_B mem hst, mapInit_B mem' hst', hfilled]
  have hwork := (mapInit_spec mem hst hpos hn (by omega) (room_of_lt hs _)).2
  have hwork' := (mapInit_spec mem' hst' hpos' hn (by omega) (room_of_lt hs _)).2
  constructor
  · have hstack : (mapInit mem pos n s st).stack = (mapInit mem' pos' n s st').stack :=
      congrArg stackClean h.stack_eq
    have hlist : queueList (mapInit mem pos n s st).Q = queueList (mapInit mem' pos' n s st').Q :=
      hwork.trans ((congrArg (singles s) hfilled).trans hwork'.symm)
    simp only [MapState.toWork, hlist, hB, hstack]
  · have hfill := fillQueue_shape mem mem' (queueClean_shape h.shape) s
      (mapInit mem pos n s st).B
    have hB' := hB
    simp only [mapInit] at hfill hB' ⊢
    rw [hfill, hB']

/-- `map` over two memory images. -/
theorem mapSlots_same (hst : MapReady n s st) (hst' : MapReady n s st')
    (hpos : ∀ x, SlotsOk s (pos x)) (hpos' : ∀ x, SlotsOk s (pos' x)) (hn : n ≤ 2 ^ 32)
    (hs : 3 * s < 2 ^ 31) (hagree : ∀ x < n, pos x = pos' x) (hload : ∀ b, load pos n b ≤ 255)
    (h : Same st st') : ∃ b st₁ st₁', mapSlots mem pos n s st = some (b, st₁) ∧
      mapSlots mem' pos' n s st' = some (b, st₁') ∧ MapReady n s st₁' ∧ Same st₁ st₁' := by
  obtain ⟨hinit, hsafe⟩ := mapInit_safe mem hst hpos hn hs
  have hsafe' := (mapInit_safe mem' hst' hpos' hn hs).2
  have hrel := whileFuel_rel peeling (peelBody mem pos s) peeling (peelBody mem' pos' s)
    (R := fun a b => SafeInv n s a ∧ SafeInv n s b ∧ (∃ ks, PeelInv pos n s ks a.toWork) ∧
      Same a b)
    (fun a b hab => by simp only [peeling, queueIsEmpty_shape hab.2.2.2.shape])
    (fun a b ⟨ha, hb, hpeel, hab⟩ hc => by
      have hne : queueIsEmpty a.Q = false := by simpa [peeling] using hc
      have hne' : queueIsEmpty b.Q = false := queueIsEmpty_shape hab.shape ▸ hne
      obtain ⟨hsame, hpeel⟩ := hab.step mem mem' hpos hpos' hs hagree hload ha hb hpeel hne
      exact ⟨(ha.step mem hpos hs hne).1, (hb.step mem' hpos' hs hne').1, hpeel, hsame⟩)
    (3 * s + 1) ⟨hsafe, hsafe', ⟨[], hinit.peel⟩, mapInit_same mem mem' hst hst' hpos hpos' hn hs
      hagree h⟩
  obtain ⟨st₁, hmap, -⟩ := mapSlots_run mem hst hpos hn hs (P := fun _ => True) trivial
    fun _ _ _ _ _ _ => trivial
  rw [mapSlots, peelLoop] at hmap
  obtain ⟨a, ha, hpair⟩ := Option.map_eq_some_iff.1 hmap
  rw [← show peeling = fun st => !queueIsEmpty st.Q from rfl] at ha
  rw [ha] at hrel
  rcases hb : whileFuel peeling (peelBody mem' pos' s) (3 * s + 1) (mapInit mem' pos' n s st') with
    - | b
  · rw [hb] at hrel
    cases hrel
  · rw [hb] at hrel
    cases hrel with
    | some hR =>
      obtain ⟨-, hsafeb, -, hsame⟩ := hR
      refine ⟨a.stack.head == n, a, b, ?_, ?_, hsafeb.ready, hsame⟩
      · have hpeel : peelLoop mem pos s (3 * s + 1) (mapInit mem pos n s st) = some a := ha
        rw [mapSlots, hpeel, Option.map_some]
      · have hpeel : peelLoop mem' pos' s (3 * s + 1) (mapInit mem' pos' n s st') = some b := hb
        rw [mapSlots, hpeel, Option.map_some, hsame.stack_eq]

end Body

section Build

variable (mem mem' : Memory) {hashes : List UInt64}

theorem readHash_of_lt {x : ℕ} (hx : x < hashes.length) :
    readHash mem hashes x = readHash mem' hashes x := by
  simp only [readHash, List.getD_eq_getElem?_getD, List.getElem?_eq_getElem hx, Option.getD_some]

theorem buildSlots_of_lt (seed : ℕ) {x : ℕ} (hx : x < hashes.length) :
    buildSlots mem hashes seed x = buildSlots mem' hashes seed x := by
  rw [buildSlots, keySlots, readHash_of_lt mem mem' hx]
  rfl

/-- `assign` reads the hashes of the keys on the stack and no others. -/
theorem assignIter_same (s seed : ℕ) {ks : List (ℕ × ℕ)} {stack : Stack}
    (hst : StackIs (ks.map (pairAt s)) stack) (hlt : ∀ p ∈ ks, p.1 < hashes.length)
    (hn : hashes.length ≤ 2 ^ 30) (f : XorFilter) :
    (assignStep mem hashes s seed)^[ks.length] (stack, f) =
      (assignStep mem' hashes s seed)^[ks.length] (stack, f) := by
  induction ks using List.reverseRecOn generalizing stack f with
  | nil => rw [List.length_nil, Function.iterate_zero, Function.iterate_zero]
  | append_singleton ks p ih =>
    have hp := hlt p (List.mem_append_right ks (List.mem_singleton_self p))
    obtain ⟨hpop, hrest⟩ := hst.pop_map
    have hx : (pairAt s p).x.toNat = p.1 := pairAt_x (hp.trans_le hn)
    have hread : readHash mem hashes p.1 = readHash mem' hashes p.1 :=
      readHash_of_lt mem mem' hp
    have hstep : assignStep mem hashes s seed (stack, f) =
        assignStep mem' hashes s seed (stack, f) := by
      simp only [assignStep, hpop, hx, hread]
    have hpair : (stackPop stack).2 = (assignStep mem hashes s seed (stack, f)).1 := rfl
    rw [hpair] at hrest
    rw [List.length_append, List.length_singleton, Function.iterate_succ_apply,
      Function.iterate_succ_apply, ← hstep]
    exact ih hrest (fun q hq => hlt q (List.mem_append_left _ hq)) _

theorem assign_same (s seed : ℕ) {ks : List (ℕ × ℕ)} {stack : Stack}
    (hst : StackIs (ks.map (pairAt s)) stack) (hlt : ∀ p ∈ ks, p.1 < hashes.length)
    (hn : hashes.length ≤ 2 ^ 30) (f : XorFilter) :
    assign mem hashes s seed stack f = assign mem' hashes s seed stack f := by
  rw [assign, assign, hst.head, List.length_map, assignIter_same mem mem' s seed hst hlt hn f]

/-- The seeds the search tries are uncrowded: those up to the first that admits
an order, and up to 100. -/
def TriedUncrowded (mem : Memory) (hashes : List UInt64) : Prop :=
  ∀ seed ≤ 100, (∀ j < seed, ¬ SeedPeelable mem hashes j) → Uncrowded mem hashes seed

theorem seedLoop_same (h0 : 1 ≤ hashes.length) (hn : hashes.length ≤ 2 ^ 30) (tries seed : ℕ)
    {st st' : MapState} (hst : MapReady hashes.length (buildSegmentSize hashes.length) st)
    (hst' : MapReady hashes.length (buildSegmentSize hashes.length) st') (h : Same st st')
    (hfail : ∀ j < seed, ¬ SeedPeelable mem hashes j) (hle : seed + tries ≤ 101)
    (hload : TriedUncrowded mem hashes) :
    (seedLoop mem hashes (buildSegmentSize hashes.length) tries seed st = some none ∧
      seedLoop mem' hashes (buildSegmentSize hashes.length) tries seed st' = some none) ∨
    ∃ sd st₁ st₁' ks,
      seedLoop mem hashes (buildSegmentSize hashes.length) tries seed st = some (some (sd, st₁)) ∧
      seedLoop mem' hashes (buildSegmentSize hashes.length) tries seed st' =
        some (some (sd, st₁')) ∧ Same st₁ st₁' ∧
      LoopInv (buildSlots mem hashes sd) hashes.length (buildSegmentSize hashes.length) ks st₁ := by
  induction tries generalizing seed st st' with
  | zero => exact Or.inl ⟨rfl, rfl⟩
  | succ tries ih =>
    have hseed := hload seed (by omega) hfail
    obtain ⟨ks, st₁, hmap, hks, hiff⟩ := map_spec h0 hn hseed hst
    obtain ⟨b, st₂, st₁', hmap₂, hmap', hready', hsame⟩ := mapSlots_same mem mem' hst hst'
      (buildSlots_ok mem h0 hn seed) (buildSlots_ok mem' h0 hn seed) (by omega)
      (three_mul_buildSegmentSize_lt hn) (fun x hx => buildSlots_of_lt mem mem' seed hx) hseed h
    have heq : some (ks.length == hashes.length, st₁) = some (b, st₂) := hmap.symm.trans hmap₂
    simp only [Option.some.injEq, Prod.mk.injEq] at heq
    obtain ⟨rfl, rfl⟩ := heq
    have hmap' : map mem' hashes (buildSegmentSize hashes.length) seed st' =
        some (ks.length == hashes.length, st₁') := hmap'
    rw [seedLoop_succ hmap, seedLoop_succ hmap']
    by_cases hlen : ks.length = hashes.length
    · rw [if_pos (by simpa using hlen), if_pos (by simpa using hlen)]
      exact Or.inr ⟨seed, st₁, st₁', ks, rfl, rfl, hsame, hks⟩
    · rw [if_neg (by simpa using hlen), if_neg (by simpa using hlen)]
      refine ih (seed + 1) hks.ready hready' hsame (fun j hj => ?_) (by omega)
      rcases Nat.lt_succ_iff_lt_or_eq.1 hj with hj | rfl
      · exact hfail j hj
      · exact fun hp => hlen (hiff.2 hp)

/-- `xor_build` over two memory images returns the same. -/
theorem xorBuild_same (h0 : 1 ≤ hashes.length) (hn : hashes.length ≤ 2 ^ 30)
    (hload : TriedUncrowded mem hashes) (fpSize : FingerprintSize) :
    ∃ r, xorBuild mem hashes fpSize = some r ∧ xorBuild mem' hashes fpSize = some r := by
  have hready := buildState_ready h0 hn
  rcases seedLoop_same mem mem' h0 hn 101 0 hready hready
    ⟨rfl, rfl⟩ (fun j hj => absurd hj (Nat.not_lt_zero j)) (by omega) hload with
    ⟨hnone, hnone'⟩ | ⟨sd, st, st', ks, hsome, hsome', hsame, hks⟩
  · exact ⟨none, by rw [xorBuild, hnone]; rfl, by rw [xorBuild, hnone']; rfl⟩
  · refine ⟨some (buildFilter mem hashes fpSize (buildSegmentSize hashes.length) sd st),
      by rw [xorBuild, hsome]; rfl, ?_⟩
    rw [xorBuild, hsome']
    have hre : st.Q.shape.reallocations = st'.Q.shape.reallocations :=
      congrArg Queue.reallocations hsame.shape
    change st.Q.reallocations = st'.Q.reallocations at hre
    have hstack : StackIs (ks.map (pairAt (buildSegmentSize hashes.length))) st.stack :=
      hks.peel.stackIs
    have hassign := assign_same mem mem' (buildSegmentSize hashes.length) sd hstack
      hks.peel.key_lt hn
    simp only [Option.map_some, buildFilter, ← hsame.stack_eq, ← hre, hassign]

end Build

end RedisXor
