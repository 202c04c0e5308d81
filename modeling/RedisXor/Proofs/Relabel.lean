import Mathlib.Data.Set.Function
import RedisXor.Proofs.Memory
import RedisXor.Proofs.Unrecorded

/-! The order of the hashes does not matter to `xor_build`. Two arrays that list
the same hashes differ in the indices of their keys; the peeling loop moves
indices about without looking at them, so the two runs stay equal up to the
renaming of the keys, and `assign` looks the hashes up again. -/

namespace RedisXor

open While

/-- `σ` takes the keys below `n` to keys with the same slots. -/
structure Relabels (σ : ℕ → ℕ) (n : ℕ) (pos pos' : ℕ → HashNoFP) : Prop where
  lt : ∀ k < n, σ k < n
  injOn : Set.InjOn σ {k | k < n}
  slots : ∀ k < n, pos' (σ k) = pos k

/-- The list of peeled keys after the renaming. -/
def relabel (σ : ℕ → ℕ) (ks : List (ℕ × ℕ)) : List (ℕ × ℕ) := ks.map fun p => (σ p.1, p.2)

@[simp] theorem length_relabel (σ : ℕ → ℕ) (ks : List (ℕ × ℕ)) :
    (relabel σ ks).length = ks.length := List.length_map _

theorem relabel_snoc (σ : ℕ → ℕ) (ks : List (ℕ × ℕ)) (x b : ℕ) :
    relabel σ (ks ++ [(x, b)]) = relabel σ ks ++ [(σ x, b)] := by
  rw [relabel, List.map_append, List.map_singleton]
  rfl

section Keys

variable {σ : ℕ → ℕ} {n : ℕ} {pos pos' : ℕ → HashNoFP}

theorem Relabels.image_range (h : Relabels σ n pos pos') :
    (Finset.range n).image σ = Finset.range n := by
  apply Finset.eq_of_subset_of_card_le
  · intro k hk
    obtain ⟨j, hj, rfl⟩ := Finset.mem_image.1 hk
    exact Finset.mem_range.2 (h.lt j (Finset.mem_range.1 hj))
  · rw [Finset.card_image_of_injOn fun a ha b hb => h.injOn (by simpa using ha) (by simpa using hb)]

theorem Relabels.exists_eq (h : Relabels σ n pos pos') {k : ℕ} (hk : k < n) :
    ∃ j < n, σ j = k := by
  have hmem : k ∈ (Finset.range n).image σ := by
    rw [h.image_range]
    exact Finset.mem_range.2 hk
  obtain ⟨j, hj, rfl⟩ := Finset.mem_image.1 hmem
  exact ⟨j, Finset.mem_range.1 hj, rfl⟩

theorem Relabels.remaining_eq (h : Relabels σ n pos pos') {ks : List (ℕ × ℕ)}
    (hlt : ∀ p ∈ ks, p.1 < n) : remaining n (relabel σ ks) = (remaining n ks).image σ := by
  ext k
  rw [Finset.mem_image, mem_remaining, relabel, List.map_map]
  constructor
  · rintro ⟨hk, hnot⟩
    obtain ⟨j, hj, rfl⟩ := h.exists_eq hk
    refine ⟨j, mem_remaining.2 ⟨hj, fun hmem => hnot ?_⟩, rfl⟩
    obtain ⟨p, hp, rfl⟩ := List.mem_map.1 hmem
    exact List.mem_map.2 ⟨p, hp, rfl⟩
  · rintro ⟨j, hj, rfl⟩
    obtain ⟨hjn, hnot⟩ := mem_remaining.1 hj
    refine ⟨h.lt j hjn, fun hmem => hnot ?_⟩
    obtain ⟨p, hp, heq⟩ := List.mem_map.1 hmem
    exact List.mem_map.2 ⟨p, hp, h.injOn (hlt p hp) hjn heq⟩

theorem Relabels.keysAt_eq (h : Relabels σ n pos pos') {R : Finset ℕ} (hR : ∀ k ∈ R, k < n)
    (b : ℕ) : keysAt pos' (R.image σ) b = (keysAt pos R b).image σ := by
  rw [keysAt, keysAt, Finset.filter_image]
  congr 1
  apply Finset.filter_congr
  intro k hk
  rw [h.slots k (hR k hk)]

theorem Relabels.card_keysAt (h : Relabels σ n pos pos') {R : Finset ℕ} (hR : ∀ k ∈ R, k < n)
    (b : ℕ) : (keysAt pos' (R.image σ) b).card = (keysAt pos R b).card := by
  rw [h.keysAt_eq hR]
  apply Finset.card_image_of_injOn
  intro j hj k hk heq
  exact h.injOn (hR j (Finset.mem_filter.1 hj).1) (hR k (Finset.mem_filter.1 hk).1) heq

theorem Relabels.load_eq (h : Relabels σ n pos pos') (b : ℕ) : load pos' n b = load pos n b := by
  unfold load
  rw [← h.card_keysAt (R := Finset.range n) (fun k hk => Finset.mem_range.1 hk), h.image_range]

end Keys

/-- Two states that differ in the names of the keys. -/
structure Relabelled (σ : ℕ → ℕ) (pos pos' : ℕ → HashNoFP) (n s : ℕ) (ks : List (ℕ × ℕ))
    (st st' : MapState) : Prop where
  safe : SafeInv n s st
  safe' : SafeInv n s st'
  peel : PeelInv pos n s ks st.toWork
  peel' : PeelInv pos' n s (relabel σ ks) st'.toWork
  work : st.toWork.work = st'.toWork.work
  shape : st.Q.shape = st'.Q.shape

section Loop

variable (mem mem' : Memory) {σ : ℕ → ℕ} {pos pos' : ℕ → HashNoFP} {n s : ℕ}
  {ks : List (ℕ × ℕ)} {st st' : MapState}

/-- The counters do not see the names. -/
theorem PeelInv.count_relabel (hσ : Relabels σ n pos pos') (hload : ∀ b, load pos n b ≤ 255)
    {w w' : WorkState} (h : PeelInv pos n s ks w) (h' : PeelInv pos' n s (relabel σ ks) w') {b : ℕ}
    (hb : b < 3 * s) : bucketGetCount w'.B b = bucketGetCount w.B b := by
  have hlt : ∀ k ∈ remaining n ks, k < n := fun k hk => (mem_remaining.1 hk).1
  rw [h.count_of_load_le hb (hload b), h'.count_of_load_le hb (by rw [hσ.load_eq]; exact hload b),
    hσ.remaining_eq h.key_lt, hσ.card_keysAt hlt]

/-- A bucket with one key left names the same key in both runs. -/
theorem PeelInv.single_relabel (hσ : Relabels σ n pos pos') (hload : ∀ b, load pos n b ≤ 255)
    {w w' : WorkState} (h : PeelInv pos n s ks w) (h' : PeelInv pos' n s (relabel σ ks) w') {b : ℕ}
    (hb : b < 3 * s) (hc : bucketGetCount w.B b = 1) :
    bucketGetSingleValue w.B b < n ∧
      bucketGetSingleValue w'.B b = σ (bucketGetSingleValue w.B b) := by
  have hlt : ∀ k ∈ remaining n ks, k < n := fun k hk => (mem_remaining.1 hk).1
  have hx := h.keysAt_eq_singleton hb hc (hload b)
  have hx' := h'.keysAt_eq_singleton hb (by rw [h.count_relabel hσ hload h' hb, hc])
    (by rw [hσ.load_eq]; exact hload b)
  rw [hσ.remaining_eq h.key_lt, hσ.keysAt_eq hlt, hx, Finset.image_singleton] at hx'
  exact ⟨hlt _ (mem_of_keysAt_eq_singleton hx).1, (Finset.singleton_injective hx').symm⟩

/-- Both rounds queue the same buckets. -/
theorem Relabelled.roundEntered_eq (hσ : Relabels σ n pos pos') (hpos : ∀ x, SlotsOk s (pos x))
    (hpos' : ∀ x, SlotsOk s (pos' x)) (hload : ∀ b, load pos n b ≤ 255)
    (h : Relabelled σ pos pos' n s ks st st') (hidx : (queueGet st'.Q).1 = (queueGet st.Q).1)
    (hlt : (queueGet st.Q).1 < 3 * s) : roundEntered pos' st' = roundEntered pos st := by
  have hcount {b : ℕ} (hb : b < 3 * s) : bucketGetCount st'.B b = bucketGetCount st.B b :=
    h.peel.count_relabel hσ hload h.peel' hb
  rw [RedisXor.roundEntered_eq h.safe.buckets hpos, RedisXor.roundEntered_eq h.safe'.buckets hpos',
    hidx, hcount hlt]
  split_ifs with hc
  · obtain ⟨hxn, hx⟩ := h.peel.single_relabel hσ hload h.peel' hlt hc
    have hkey : pos' (bucketGetSingleValue st'.B (queueGet st.Q).1) =
        pos (bucketGetSingleValue st.B (queueGet st.Q).1) :=
      (congrArg pos' hx).trans (hσ.slots _ hxn)
    rw [hkey]
    refine List.filter_congr fun b hb => ?_
    rw [hcount ((hpos _).lt (by simpa [Touches] using hb))]
  · rfl

/-- Rounds on one bucket, in two runs that differ in the names of the keys. -/
theorem Relabelled.step (hσ : Relabels σ n pos pos') (hpos : ∀ x, SlotsOk s (pos x))
    (hpos' : ∀ x, SlotsOk s (pos' x)) (hs : 3 * s < 2 ^ 31) (hload : ∀ b, load pos n b ≤ 255)
    (h : Relabelled σ pos pos' n s ks st st') (hne : queueIsEmpty st.Q = false) :
    ∃ ks', Relabelled σ pos pos' n s ks' (peelBody mem pos s st) (peelBody mem' pos' s st') := by
  have hne' : queueIsEmpty st'.Q = false := queueIsEmpty_shape h.shape ▸ hne
  obtain ⟨hsafe, -, rest, hw, hbody⟩ := h.safe.step mem hpos hs hne
  obtain ⟨hsafe', -, rest', hw', hbody'⟩ := h.safe'.step mem' hpos' hs hne'
  have hcons : (queueGet st'.Q).1 :: rest' = (queueGet st.Q).1 :: rest := by
    rw [← hw, ← hw', h.work]
  obtain ⟨hidx, rfl⟩ := List.cons.inj hcons
  have hlt : (queueGet st.Q).1 < 3 * s :=
    h.peel.work_lt _ (by rw [hw]; exact List.mem_cons_self)
  have hentered := h.roundEntered_eq hσ hpos hpos' hload hidx hlt
  have hwork : (peelBody mem pos s st).toWork.work = (peelBody mem' pos' s st').toWork.work := by
    rw [hbody, hbody', workBody_work h.safe.buckets hpos, workBody_work h.safe'.buckets hpos',
      hentered]
  have hshape : (peelBody mem pos s st).Q.shape = (peelBody mem' pos' s st').Q.shape := by
    rw [peelBody_Q, peelBody_Q, hentered]
    exact queueAdd_foldl_shape mem mem' (queueGet_shape h.shape) _
  rw [hidx] at hbody' hw'
  have hwork₀ : st.toWork.work = [] ++ (queueGet st.Q).1 :: rest' := hw
  have hwork₀' : st'.toWork.work = [] ++ (queueGet st.Q).1 :: rest' := hw'
  have hcount := h.peel.count_relabel hσ hload h.peel' hlt
  by_cases hc : bucketGetCount st.toWork.B (queueGet st.Q).1 = 1
  · have hx := (h.peel.single_relabel hσ hload h.peel' hlt hc).2
    have htake := h.peel.take hpos hwork₀ hc (hload _)
    have htake' := h.peel'.take hpos' hwork₀' (hcount.trans hc)
      (by rw [hσ.load_eq]; exact hload _)
    rw [List.nil_append, ← hbody] at htake
    rw [List.nil_append, ← hbody', hx, ← relabel_snoc] at htake'
    exact ⟨_, hsafe, hsafe', htake, htake', hwork, hshape⟩
  · have hskip := h.peel.skip hwork₀ hc
    have hskip' := h.peel'.skip hwork₀' (by rwa [hcount])
    rw [List.nil_append, ← hbody] at hskip
    rw [List.nil_append, ← hbody'] at hskip'
    exact ⟨ks, hsafe, hsafe', hskip, hskip', hwork, hshape⟩

theorem mapInit_relabelled (hσ : Relabels σ n pos pos') (hpos : ∀ x, SlotsOk s (pos x))
    (hpos' : ∀ x, SlotsOk s (pos' x)) (hn : n ≤ 2 ^ 32) (hs : 3 * s < 2 ^ 31)
    (hload : ∀ b, load pos n b ≤ 255) (hst : MapReady n s st) (hst' : MapReady n s st')
    (hshape : st.Q.shape = st'.Q.shape) :
    Relabelled σ pos pos' n s [] (mapInit mem pos n s st) (mapInit mem' pos' n s st') := by
  obtain ⟨hinit, hsafe⟩ := mapInit_safe mem hst hpos hn hs
  obtain ⟨hinit', hsafe'⟩ := mapInit_safe mem' hst' hpos' hn hs
  have hwork := (mapInit_spec mem hst hpos hn (by omega) (room_of_lt hs _)).2
  have hwork' := (mapInit_spec mem' hst' hpos' hn (by omega) (room_of_lt hs _)).2
  have hsingles : singles s (filled pos' n s) = singles s (filled pos n s) := by
    refine List.filter_congr fun b hb => ?_
    have hcount := hinit.peel.count_relabel hσ hload hinit'.peel (List.mem_range.1 hb)
    simp only [MapState.toWork, mapInit_B mem hst, mapInit_B mem' hst'] at hcount
    rw [hcount]
  refine ⟨hsafe, hsafe', hinit.peel, hinit'.peel, by rw [hwork, hwork', hsingles], ?_⟩
  have hB : fillBuckets pos n (bucketsClear st.B) = filled pos n s := mapInit_B mem hst
  have hB' : fillBuckets pos' n (bucketsClear st'.B) = filled pos' n s := mapInit_B mem' hst'
  simp only [mapInit, hB, hB', fillQueue_eq, fillEntered_eq (show 3 * s < 2 ^ 32 by omega),
    hsingles]
  exact queueAdd_foldl_shape mem mem' (queueClean_shape hshape) _

/-- `map` on two arrays that list the same slots. -/
theorem mapSlots_relabelled (hσ : Relabels σ n pos pos') (hpos : ∀ x, SlotsOk s (pos x))
    (hpos' : ∀ x, SlotsOk s (pos' x)) (hn : n ≤ 2 ^ 32) (hs : 3 * s < 2 ^ 31)
    (hload : ∀ b, load pos n b ≤ 255) (hst : MapReady n s st) (hst' : MapReady n s st')
    (hshape : st.Q.shape = st'.Q.shape) :
    ∃ b st₁ st₁' ks, mapSlots mem pos n s st = some (b, st₁) ∧
      mapSlots mem' pos' n s st' = some (b, st₁') ∧ Relabelled σ pos pos' n s ks st₁ st₁' := by
  have hinit := mapInit_relabelled mem mem' hσ hpos hpos' hn hs hload hst hst' hshape
  have hrel := whileFuel_rel peeling (peelBody mem pos s) peeling (peelBody mem' pos' s)
    (R := fun a b => ∃ ks, Relabelled σ pos pos' n s ks a b)
    (fun a b ⟨ks, hab⟩ => by simp only [peeling, queueIsEmpty_shape hab.shape])
    (fun a b ⟨ks, hab⟩ hc =>
      hab.step mem mem' hσ hpos hpos' hs hload (by simpa [peeling] using hc))
    (3 * s + 1) ⟨[], hinit⟩
  obtain ⟨a, hmap, -⟩ := mapSlots_run mem hst hpos hn hs (P := fun _ => True) trivial
    fun _ _ _ _ _ _ => trivial
  rw [mapSlots, peelLoop] at hmap
  obtain ⟨a, ha, -⟩ := Option.map_eq_some_iff.1 hmap
  rw [← show peeling = fun st => !queueIsEmpty st.Q from rfl] at ha
  rw [ha] at hrel
  rcases hb : whileFuel peeling (peelBody mem' pos' s) (3 * s + 1) (mapInit mem' pos' n s st') with
    - | b
  · rw [hb] at hrel
    cases hrel
  · rw [hb] at hrel
    cases hrel with
    | some hR =>
      obtain ⟨ks, hab⟩ := hR
      have hpeel : peelLoop mem pos s (3 * s + 1) (mapInit mem pos n s st) = some a := ha
      have hpeel' : peelLoop mem' pos' s (3 * s + 1) (mapInit mem' pos' n s st') = some b := hb
      refine ⟨a.stack.head == n, a, b, ks, ?_, ?_, hab⟩
      · rw [mapSlots, hpeel, Option.map_some]
      · have hhead : b.stack.head = a.stack.head :=
          (hab.peel'.head.trans (length_relabel σ ks)).trans hab.peel.head.symm
        rw [mapSlots, hpeel', Option.map_some, hhead]

end Loop

/-! Arrays -/

section Build

variable (mem mem' : Memory) {hashes hashes' : List UInt64} {σ : ℕ → ℕ}

/-- `σ` takes every index to one with the same hash. -/
structure Renames (σ : ℕ → ℕ) (hashes hashes' : List UInt64) : Prop where
  length_eq : hashes'.length = hashes.length
  lt : ∀ k < hashes.length, σ k < hashes.length
  injOn : Set.InjOn σ {k | k < hashes.length}
  get : ∀ k < hashes.length, hashes'[σ k]? = hashes[k]?

/-- Each index goes to one with the same hash, repeats in the order they stand. -/
def permRenaming (h : hashes.Perm hashes') (k : ℕ) : ℕ :=
  if hk : k < hashes.length then (h.idxBij ⟨k, hk⟩).val else k

theorem permRenaming_of_lt (h : hashes.Perm hashes') {k : ℕ} (hk : k < hashes.length) :
    permRenaming h k = (h.idxBij ⟨k, hk⟩).val := dif_pos hk

theorem renames_of_perm (h : hashes.Perm hashes') : Renames (permRenaming h) hashes hashes' := by
  refine ⟨h.length_eq.symm, fun k hk => ?_, fun j hj k hk heq => ?_, fun k hk => ?_⟩
  · rw [permRenaming_of_lt h hk]
    exact (h.idxBij ⟨k, hk⟩).isLt.trans_eq h.length_eq.symm
  · rw [permRenaming_of_lt h hj, permRenaming_of_lt h hk] at heq
    exact congrArg Fin.val (h.idxBij_injective (Fin.ext heq))
  · rw [permRenaming_of_lt h hk, List.getElem?_eq_getElem (h.idxBij ⟨k, hk⟩).isLt,
      List.getElem?_eq_getElem hk, h.getElem_idxBij_eq_getElem]

theorem Renames.readHash_eq (h : Renames σ hashes hashes') {k : ℕ} (hk : k < hashes.length) :
    readHash mem' hashes' (σ k) = readHash mem hashes k := by
  rw [readHash, readHash, List.getD_eq_getElem?_getD, List.getD_eq_getElem?_getD, h.get k hk,
    List.getElem?_eq_getElem hk, Option.getD_some, Option.getD_some]

theorem Renames.relabels (h : Renames σ hashes hashes') (seed : ℕ) :
    Relabels σ hashes.length (buildSlots mem hashes seed) (buildSlots mem' hashes' seed) := by
  refine ⟨h.lt, h.injOn, fun k hk => ?_⟩
  rw [buildSlots, buildSlots, keySlots, keySlots, h.readHash_eq mem mem' hk, h.length_eq]

/-- The pair that is popped leads to the same hash and the same slot. -/
theorem assignIter_relabelled (h : Renames σ hashes hashes') (hn : hashes.length ≤ 2 ^ 30)
    (s seed : ℕ) {ks : List (ℕ × ℕ)} {stack stack' : Stack}
    (hst : StackIs (ks.map (pairAt s)) stack)
    (hst' : StackIs ((relabel σ ks).map (pairAt s)) stack') (hlt : ∀ p ∈ ks, p.1 < hashes.length)
    (f : XorFilter) :
    ((assignStep mem hashes s seed)^[ks.length] (stack, f)).2 =
      ((assignStep mem' hashes' s seed)^[ks.length] (stack', f)).2 := by
  induction ks using List.reverseRecOn generalizing stack stack' f with
  | nil => rw [List.length_nil, Function.iterate_zero, Function.iterate_zero, id, id]
  | append_singleton ks p ih =>
    obtain ⟨x, b⟩ := p
    have hx : x < hashes.length := hlt (x, b) (List.mem_append_right ks (List.mem_singleton_self _))
    rw [relabel_snoc] at hst'
    obtain ⟨hpop, hrest⟩ := hst.pop_map
    obtain ⟨hpop', hrest'⟩ := hst'.pop_map
    have hread : readHash mem' hashes' (pairAt s (σ x, b)).x.toNat =
        readHash mem hashes (pairAt s (x, b)).x.toNat := by
      rw [pairAt_x (p := (σ x, b)) ((h.lt x hx).trans_le hn),
        pairAt_x (p := (x, b)) (hx.trans_le hn)]
      exact h.readHash_eq mem mem' hx
    have hslot : (pairAt s (σ x, b)).slot = (pairAt s (x, b)).slot := rfl
    have hfilter : (assignStep mem' hashes' s seed (stack', f)).2 =
        (assignStep mem hashes s seed (stack, f)).2 := by
      simp only [assignStep, hpop, hpop', hread, hslot]
    have hstack : (assignStep mem hashes s seed (stack, f)).1 = (stackPop stack).2 := rfl
    have hstack' : (assignStep mem' hashes' s seed (stack', f)).1 = (stackPop stack').2 := rfl
    rw [List.length_append, List.length_singleton, Function.iterate_succ_apply,
      Function.iterate_succ_apply, ← Prod.mk.eta (p := assignStep mem hashes s seed (stack, f)),
      ← Prod.mk.eta (p := assignStep mem' hashes' s seed (stack', f)), hfilter, hstack, hstack']
    exact ih hrest hrest' (fun q hq => hlt q (List.mem_append_left _ hq)) _

theorem Renames.map_eq (h : Renames σ hashes hashes') (seed : ℕ) (st' : MapState) :
    map mem' hashes' (buildSegmentSize hashes.length) seed st' =
      mapSlots mem' (buildSlots mem' hashes' seed) hashes.length (buildSegmentSize hashes.length)
        st' := by
  unfold map buildSlots
  rw [h.length_eq]

theorem seedLoop_relabelled (h : Renames σ hashes hashes') (h0 : 1 ≤ hashes.length)
    (hn : hashes.length ≤ 2 ^ 30) (tries seed : ℕ) {st st' : MapState}
    (hst : MapReady hashes.length (buildSegmentSize hashes.length) st)
    (hst' : MapReady hashes.length (buildSegmentSize hashes.length) st')
    (hshape : st.Q.shape = st'.Q.shape) (hfail : ∀ j < seed, ¬ SeedPeelable mem hashes j)
    (hle : seed + tries ≤ 101) (hload : TriedUncrowded mem hashes) :
    (seedLoop mem hashes (buildSegmentSize hashes.length) tries seed st = some none ∧
      seedLoop mem' hashes' (buildSegmentSize hashes.length) tries seed st' = some none) ∨
    ∃ sd st₁ st₁' ks,
      seedLoop mem hashes (buildSegmentSize hashes.length) tries seed st = some (some (sd, st₁)) ∧
      seedLoop mem' hashes' (buildSegmentSize hashes.length) tries seed st' =
        some (some (sd, st₁')) ∧
      Relabelled σ (buildSlots mem hashes sd) (buildSlots mem' hashes' sd) hashes.length
        (buildSegmentSize hashes.length) ks st₁ st₁' := by
  induction tries generalizing seed st st' with
  | zero => exact Or.inl ⟨rfl, rfl⟩
  | succ tries ih =>
    have hseed := hload seed (by omega) hfail
    have hpos' : ∀ x,
        SlotsOk (buildSegmentSize hashes.length) (buildSlots mem' hashes' seed x) := by
      intro x
      have h0' : 1 ≤ hashes'.length := by rwa [h.length_eq]
      have hok := buildSlots_ok mem' h0' (by rwa [h.length_eq]) seed x
      rwa [h.length_eq] at hok
    obtain ⟨ks, st₁, hmap, -, hiff⟩ := map_spec h0 hn hseed hst
    obtain ⟨b, st₂, st₁', ks', hmap₂, hmap', hrel⟩ := mapSlots_relabelled mem mem'
      (h.relabels mem mem' seed) (buildSlots_ok mem h0 hn seed) hpos' (by omega)
      (three_mul_buildSegmentSize_lt hn) hseed hst hst' hshape
    have heq : some (ks.length == hashes.length, st₁) = some (b, st₂) := hmap.symm.trans hmap₂
    simp only [Option.some.injEq, Prod.mk.injEq] at heq
    obtain ⟨rfl, rfl⟩ := heq
    rw [← h.map_eq] at hmap'
    rw [seedLoop_succ hmap, seedLoop_succ hmap']
    by_cases hlen : ks.length = hashes.length
    · rw [if_pos (by simpa using hlen), if_pos (by simpa using hlen)]
      exact Or.inr ⟨seed, st₁, st₁', ks', rfl, rfl, hrel⟩
    · rw [if_neg (by simpa using hlen), if_neg (by simpa using hlen)]
      refine ih (seed + 1) hrel.safe.ready hrel.safe'.ready hrel.shape (fun j hj => ?_) (by omega)
      rcases Nat.lt_succ_iff_lt_or_eq.1 hj with hj | rfl
      · exact hfail j hj
      · exact fun hp => hlen (hiff.2 hp)

theorem Renames.xorBuild_eq (h : Renames σ hashes hashes') (h0 : 1 ≤ hashes.length)
    (hn : hashes.length ≤ 2 ^ 30) (hload : TriedUncrowded mem hashes) (fpSize : FingerprintSize) :
    xorBuild mem' hashes' fpSize = xorBuild mem hashes fpSize := by
  have hready := buildState_ready h0 hn
  unfold xorBuild
  simp only [h.length_eq]
  rcases seedLoop_relabelled mem mem' h h0 hn 101 0 hready hready rfl
    (fun j hj => absurd hj (Nat.not_lt_zero j)) (by omega) hload with
    ⟨hnone, hnone'⟩ | ⟨sd, st, st', ks, hsome, hsome', hrel⟩
  · rw [hnone, hnone', Option.map_some, Option.map_some, Option.map_none, Option.map_none]
  · have hre : st.Q.shape.reallocations = st'.Q.shape.reallocations :=
      congrArg Queue.reallocations hrel.shape
    change st.Q.reallocations = st'.Q.reallocations at hre
    have hhead : st.stack.head = ks.length := hrel.peel.head
    have hhead' : st'.stack.head = ks.length := by
      rw [← length_relabel σ ks]
      exact hrel.peel'.head
    have hassign (f : XorFilter) := @assignIter_relabelled mem mem' hashes hashes' σ h hn
      (buildSegmentSize hashes.length) sd ks st.stack st'.stack
      hrel.peel.stackIs hrel.peel'.stackIs hrel.peel.key_lt f
    rw [hsome, hsome', Option.map_some, Option.map_some, Option.map_some, Option.map_some]
    simp only [buildFilter, assign, hhead, hhead', hre, hassign]

end Build

/-- The filter is a function of the hashes alone: not of their order, and not of
the memory the program never wrote. -/
theorem xorBuild_perm (mem mem' : Memory) {hashes hashes' : List UInt64}
    (hperm : hashes.Perm hashes') (hn : hashes.length ≤ 2 ^ 30)
    (hload : TriedUncrowded mem hashes) (fpSize : FingerprintSize) :
    xorBuild mem' hashes' fpSize = xorBuild mem hashes fpSize := by
  rcases Nat.eq_zero_or_pos hashes.length with hnil | h0
  · obtain rfl := List.length_eq_zero_iff.1 hnil
    obtain rfl := List.nil_perm.1 hperm
    have hhead : (buildState 0).stack.head = 0 := rfl
    simp only [xorBuild, List.length_nil, seedLoop_nil, Option.map_some, buildFilter, assign, hhead,
      Function.iterate_zero, id]
  · exact (renames_of_perm hperm).xorBuild_eq mem mem' h0 hn hload fpSize

theorem xorBuild_perm_four_hashes :
    xorBuild default [3, 1, 4, 2] FP8 = xorBuild default [1, 2, 3, 4] FP8 :=
  xorBuild_perm default default (by decide) (by decide)
    (fun seed _ _ => uncrowded_of_length_le (by decide) seed) FP8

end RedisXor
