import RedisXor.Proofs.SeedSearch
import RedisXor.Proofs.Unrecorded

/-! What is left when the queue runs empty. The keys that are not on the stack
are the greatest set of keys in which every bucket of a key has another, and the
buckets describe that set exactly; no other order of the queue leaves anything
else. Where no key is left, the table is the only one that fits. -/

namespace RedisXor

open Peeling XorSum

/-- Buckets of one size with equal counts and sums are equal. -/
theorem BucketsOk.ext {m : ℕ} {B B' : Buckets} (h : BucketsOk m B) (h' : BucketsOk m B')
    (hcount : ∀ b < m, bucketGetCount B b = bucketGetCount B' b)
    (hsum : ∀ b < m, bucketGetSingleValue B b = bucketGetSingleValue B' b) : B = B' := by
  have hlist {l l' : List ℕ} (hl : l.length = m) (hl' : l'.length = m)
      (hget : ∀ b < m, l.getD b 0 = l'.getD b 0) : l = l' := by
    apply List.ext_getElem (hl.trans hl'.symm)
    intro b hb hb'
    have heq := hget b (hl ▸ hb)
    rwa [List.getD_eq_getElem?_getD, List.getD_eq_getElem?_getD, List.getElem?_eq_getElem hb,
      List.getElem?_eq_getElem hb'] at heq
  rcases B with ⟨xSum, counts, capacity⟩
  rcases B' with ⟨xSum', counts', capacity'⟩
  obtain rfl := hlist h.xSum_length h'.xSum_length hsum
  obtain rfl := hlist h.counts_length h'.counts_length hcount
  rw [show capacity = capacity' from h.capacity_eq.trans h'.capacity_eq.symm]

/-- The buckets hold the keys of `C` and no others. -/
def BucketsHold (pos : ℕ → HashNoFP) (s : ℕ) (C : Finset ℕ) (B : Buckets) : Prop :=
  ∀ b < 3 * s, bucketGetCount B b = (keysAt pos C b).card ∧
    bucketGetSingleValue B b = xorSum id (keysAt pos C b)

section Core

variable {pos : ℕ → HashNoFP} {n s : ℕ} {ks : List (ℕ × ℕ)} {w : WorkState}

theorem PeelInv.bucketsHold (h : PeelInv pos n s ks w) (hload : ∀ b, load pos n b ≤ 255) :
    BucketsHold pos s (remaining n ks) w.B :=
  fun b hb => ⟨h.count_of_load_le hb (hload b), h.sum b hb⟩

theorem PeelInv.core_isGreatest (h : PeelInv pos n s ks w) (hpos : ∀ x, SlotsOk s (pos x))
    (hload : ∀ b, load pos n b ≤ 255) (hwork : w.work = []) :
    IsGreatest {C | C ⊆ Finset.range n ∧ TwoCore (fun k b => Touches (pos k) b) C}
      (remaining n ks) :=
  run_end_isGreatest h.run (h.twoCore hpos hload hwork)

theorem PeelInv.mem_stackKeys_iff (h : PeelInv pos n s ks w) (hn : n ≤ 2 ^ 30) (k : ℕ) :
    k ∈ stackKeys w.stack ↔ k < n ∧ k ∉ remaining n ks := by
  rw [h.stackKeys_eq hn, mem_remaining, not_and, not_not]
  constructor
  · intro hk
    obtain ⟨p, hp, rfl⟩ := List.mem_map.1 hk
    exact ⟨h.key_lt p hp, fun _ => hk⟩
  · intro hk
    exact hk.2 hk.1

theorem PeelInv.nodup_stackKeys (h : PeelInv pos n s ks w) (hn : n ≤ 2 ^ 30) :
    (stackKeys w.stack).Nodup := by
  rw [h.stackKeys_eq hn]
  exact h.nodup

/-- Two rounds of peeling that have run to their ends, in whatever orders. -/
theorem PeelInv.end_unique {ks' : List (ℕ × ℕ)} {w' : WorkState} (h : PeelInv pos n s ks w)
    (h' : PeelInv pos n s ks' w') (hpos : ∀ x, SlotsOk s (pos x)) (hn : n ≤ 2 ^ 30)
    (hload : ∀ b, load pos n b ≤ 255) (hwork : w.work = []) (hwork' : w'.work = []) :
    (stackKeys w'.stack).Perm (stackKeys w.stack) ∧ w'.B = w.B := by
  have hcore : remaining n ks' = remaining n ks :=
    (h'.core_isGreatest hpos hload hwork').unique (h.core_isGreatest hpos hload hwork)
  refine ⟨(List.perm_ext_iff_of_nodup (h'.nodup_stackKeys hn) (h.nodup_stackKeys hn)).2 ?_, ?_⟩
  · intro k
    rw [h'.mem_stackKeys_iff hn, h.mem_stackKeys_iff hn, hcore]
  · have hB := h.bucketsHold hload
    have hB' := h'.bucketsHold hload
    rw [hcore] at hB'
    exact h'.buckets.ext h.buckets (fun b hb => (hB' b hb).1.trans (hB b hb).1.symm)
      fun b hb => (hB' b hb).2.trans (hB b hb).2.symm

end Core

/-- What `map` leaves behind, whether it succeeds or not, from whatever its
buffers held before: the stack misses the greatest 2-core, the buckets hold it,
and serving the queue in any other order would have left the same. -/
theorem map_leaves_core (mem : Memory) {hashes : List UInt64} (h0 : 1 ≤ hashes.length)
    (hn : hashes.length ≤ 2 ^ 30) {seed : ℕ} (hload : Uncrowded mem hashes seed) {st : MapState}
    (hst : MapReady hashes.length (buildSegmentSize hashes.length) st) :
    let n := hashes.length
    let s := buildSegmentSize n
    let pos := buildSlots mem hashes seed
    ∃ b st' core, map mem hashes s seed st = some (b, st') ∧
      IsGreatest {C | C ⊆ Finset.range n ∧ TwoCore (fun k b => Touches (pos k) b) C} core ∧
      (b = true ↔ core = ∅) ∧
      (stackKeys st'.stack).Nodup ∧ (∀ k, k ∈ stackKeys st'.stack ↔ k < n ∧ k ∉ core) ∧
      BucketsHold pos s core st'.B ∧
      ∀ w, Relation.ReflTransGen (WorkStep pos s) (mapInit mem pos n s st).toWork w →
        w.work = [] → (stackKeys w.stack).Perm (stackKeys st'.stack) ∧ w.B = st'.B := by
  intro n s pos
  have hlt := three_mul_buildSegmentSize_lt hn
  have hpos : ∀ x, SlotsOk s (pos x) := buildSlots_ok mem h0 hn seed
  obtain ⟨ks, st', hmap, hks, hwork⟩ := mapSlots_spec mem hst hpos (by omega) (by omega)
    (room_of_lt hlt _) fun _ _ b _ => hload b
  refine ⟨ks.length == n, st', remaining n ks, hmap, hks.peel.core_isGreatest hpos hload hwork, ?_,
    hks.peel.nodup_stackKeys hn, hks.peel.mem_stackKeys_iff hn, hks.peel.bucketsHold hload, ?_⟩
  · have hcard : (remaining n ks).card + ks.length = n := hks.peel.card_remaining
    rw [beq_iff_eq, ← Finset.card_eq_zero]
    omega
  · intro w hrun hend
    have hinit := (mapInit_spec mem hst hpos (by omega) (by omega) (room_of_lt hlt _)).1
    obtain ⟨ks', hks'⟩ := workRun_inv hpos hload hrun ⟨[], hinit.peel⟩
    exact hks.peel.end_unique hks' hpos hn hload hwork hend

/-- Four hashes that seed 0 leaves with a 2-core. -/
theorem map_leaves_core_four_hashes : ∃ st' core,
    map default [1, 2, 3, 4] 2 0 (buildState 4) = some (false, st') ∧ core ≠ ∅ ∧
      BucketsHold (buildSlots default [1, 2, 3, 4] 0) 2 core st'.B := by
  obtain ⟨b, st', core, hmap, -, hb, -, -, hhold, -⟩ := @map_leaves_core default [1, 2, 3, 4]
    (by decide) (by decide) 0 (uncrowded_of_length_le (by decide) 0) (buildState 4)
    (buildState_ready (by decide) (by decide))
  have hfail : (map default [1, 2, 3, 4] 2 0 (buildState 4)).map Prod.fst = some false := by
    decide +kernel
  have hmap : map default [1, 2, 3, 4] 2 0 (buildState 4) = some (b, st') := hmap
  rw [hmap, Option.map_some, Option.some.injEq] at hfail
  obtain rfl : b = false := hfail
  exact ⟨st', core, hmap, fun h => Bool.noConfusion (hb.2 h), hhold⟩

/-! Arrays with a repeat -/

/-- Keys with equal hashes choose equal slots at every seed, so neither is ever
alone in a bucket. -/
theorem not_seedPeelable_of_repeat {mem : Memory} {hashes : List UInt64} (h : ¬ hashes.Nodup)
    (seed : ℕ) : ¬ SeedPeelable mem hashes seed := by
  rw [List.Nodup, List.pairwise_iff_getElem] at h
  push Not at h
  obtain ⟨i, j, hi, hj, hij, heq⟩ := h
  have hslots : buildSlots mem hashes seed i = buildSlots mem hashes seed j := by
    simp only [buildSlots, keySlots, readHash, List.getD_eq_getElem?_getD,
      List.getElem?_eq_getElem hi, List.getElem?_eq_getElem hj, heq, Option.getD_some]
  have hcore : TwoCore (fun k b => Touches (buildSlots mem hashes seed k) b) {i, j} := by
    intro k hk b hb
    rcases Finset.mem_insert.1 hk with rfl | hk
    · refine ⟨j, by simp, hij.ne', ?_⟩
      change Touches (buildSlots mem hashes seed j) b
      rwa [← hslots]
    · obtain rfl := Finset.mem_singleton.1 hk
      refine ⟨i, by simp, hij.ne, ?_⟩
      change Touches (buildSlots mem hashes seed i) b
      rwa [hslots]
  intro hpeel
  have hempty := hpeel.eq_empty_of_twoCore hcore fun k hk => by
    rcases Finset.mem_insert.1 hk with rfl | hk
    · exact Finset.mem_range.2 hi
    · rw [Finset.mem_singleton.1 hk]
      exact Finset.mem_range.2 hj
  exact Finset.insert_ne_empty _ _ hempty

/-- `xor_build` needs the deduplication in front of it: one repeat makes all 101
seeds fail. -/
theorem repeat_never_builds (mem : Memory) {hashes : List UInt64} (hn : hashes.length ≤ 2 ^ 30)
    (hrepeat : ¬ hashes.Nodup) (hload : ∀ seed ≤ 100, Uncrowded mem hashes seed)
    (fpSize : FingerprintSize) : xorBuild mem hashes fpSize = some none := by
  have h0 : 1 ≤ hashes.length := by
    by_contra hlt
    rw [List.length_eq_zero_iff.1 (by omega : hashes.length = 0)] at hrepeat
    exact hrepeat List.nodup_nil
  refine (xorBuild_eq_none_iff h0 hn hload fpSize).2.2 fun seed _ => ?_
  exact not_seedPeelable_of_repeat hrepeat seed

theorem repeat_never_builds_three_hashes : xorBuild default [7, 8, 7] FP8 = some none :=
  repeat_never_builds default (by decide) (by decide)
    (fun seed _ => uncrowded_of_length_le (by decide) seed) FP8

/-! The table as a solution -/

section Table

variable {w s : ℕ} {pos : ℕ → HashNoFP} {fp : ℕ → BitVec w}

/-- The equation of a key determines any one of its cells from the others. -/
theorem Equation.cell_eq {c : ℕ → BitVec w} {k v : ℕ} {a : BitVec w} (hs : SlotsOk s (pos k))
    (hv : Touches (pos k) v) (h : Equation pos fp c k)
    (h' : Equation pos fp (Function.update c v a) k) : a = c v := by
  obtain ⟨h0, h1, h1', h2, h2'⟩ := hs
  have e01 : (pos k).h0 ≠ (pos k).h1 := by omega
  have e02 : (pos k).h0 ≠ (pos k).h2 := by omega
  have e12 : (pos k).h1 ≠ (pos k).h2 := by omega
  have heq := h'.trans h.symm
  rcases hv with rfl | rfl | rfl
  · rw [Function.update_self, Function.update_of_ne e01.symm, Function.update_of_ne e02.symm] at heq
    exact (BitVec.xor_left_inj _).1 ((BitVec.xor_left_inj _).1 heq)
  · rw [Function.update_self, Function.update_of_ne e01, Function.update_of_ne e12.symm] at heq
    exact (BitVec.xor_right_inj _).1 ((BitVec.xor_left_inj _).1 heq)
  · rw [Function.update_self, Function.update_of_ne e02, Function.update_of_ne e12] at heq
    exact (BitVec.xor_right_inj _).1 heq

/-- The cells that were not recorded can be filled at will, and the equations of
the keys leave no choice for the others. -/
theorem PeelInv.existsUnique_solution {n : ℕ} {ks : List (ℕ × ℕ)} {st : WorkState}
    (h : PeelInv pos n s ks st) (hpos : ∀ x, SlotsOk s (pos x)) (hlen : ks.length = n)
    (d : ℕ → BitVec w) : ∃! c, (∀ k < n, Equation pos fp c k) ∧
      ∀ v ∉ ks.map Prod.snd, c v = d v := by
  have hkeys (c : ℕ → BitVec w) :
      (∀ p ∈ ks, Equation pos fp c p.1) ↔ ∀ k < n, Equation pos fp c k := by
    constructor
    · intro hc k hk
      obtain ⟨p, hp, rfl⟩ := List.mem_map.1 (h.mem_keys hlen hk)
      exact hc p hp
    · intro hc p hp
      exact hc p.1 (h.key_lt p hp)
  have hsolution := Peeling.existsUnique_solution (solveCell pos fp)
    (fun c v a k hv hc => Equation.update_of_not_touches hv hc)
    (fun c v a k hv hc hc' => hc.cell_eq (hpos k) hv hc')
    (fun c k v hv => equation_solveCell (hpos k) hv) d h.trace
  simpa only [hkeys] using hsolution

end Table

/-- The table of a filter is the one solution of the equations of its keys that
is zero at the slots recorded for no key; and there is exactly one solution for
every other filling of those slots. -/
theorem table_is_unique {mem : Memory} {hashes : List UInt64} {fpSize : FingerprintSize}
    (hfp : ValidFp fpSize) (h0 : 1 ≤ hashes.length) (hn : hashes.length ≤ 2 ^ 30) {f : XorFilter}
    (hbuild : xorBuild mem hashes fpSize = some (some f))
    (hload : ∀ seed ≤ f.seed.toNat, Uncrowded mem hashes seed) :
    ∃ st, seedLoop mem hashes (buildSegmentSize hashes.length) 101 0 (buildState hashes.length) =
        some (some (f.seed.toNat, st)) ∧
      let pos := buildSlots mem hashes f.seed.toNat
      let fp := keyFingerprints mem hashes (buildSegmentSize hashes.length) f.seed.toNat
        fpSize.toNat
      let Solves := fun c => ∀ k < hashes.length, Equation pos fp c k
      let recorded := recordedSlots pos st.stack
      Solves (cell fpSize.toNat f) ∧ (∀ v ∉ recorded, cell fpSize.toNat f v = 0) ∧
      ∀ d : ℕ → BitVec fpSize.toNat, ∃! c, Solves c ∧ ∀ v ∉ recorded, c v = d v := by
  obtain ⟨sd, st, hloop, rfl⟩ := exists_seed_of_xorBuild hbuild
  have hsd : sd < 2 ^ 32 := by
    have := (bounds_of_seedLoop hloop).2
    omega
  rw [(buildFilter_builtAt mem fpSize hn hsd st).seed_eq] at hload ⊢
  obtain ⟨-, -, ks, hks, hlen⟩ := seedLoop_found h0 hn (buildState_ready h0 hn) hloop
    fun i _ hi => hload i hi
  have hpos := buildSlots_ok mem h0 hn sd
  refine ⟨st, hloop, ?_⟩
  intro pos fp Solves recorded
  have hrec : recorded = ks.map Prod.snd := hks.peel.recordedSlots_eq hn hpos
  have hcell := cell_buildFilter hfp h0 hn hks
  rw [hrec, hcell]
  refine ⟨fun k hk => ?_, fun v hv => assignCells_of_notMem _ _ hv,
    hks.peel.existsUnique_solution hpos hlen⟩
  obtain ⟨p, hp, rfl⟩ := List.mem_map.1 (hks.peel.mem_keys hlen hk)
  exact assignCells_holds _ (fun c v a k hv hc => Equation.update_of_not_touches hv hc)
    (fun c k v hv => equation_solveCell (hpos k) hv) _ hks.peel.trace p hp

/-- Four keys share six slots; the sixth seed is the first that admits an order,
and the slots 0 and 2 are recorded for no key. -/
theorem table_is_unique_four_hashes : ∃ f, xorBuild default [1, 2, 3, 4] FP8 = some (some f) ∧
    f.seed.toNat = 5 ∧ ∀ c : ℕ → BitVec 8,
      (∀ k < 4, Equation (buildSlots default [1, 2, 3, 4] 5)
        (keyFingerprints default [1, 2, 3, 4] 2 5 8) c k) →
      (∀ v ∉ [1, 3, 5, 4], c v = 0) → c = cell 8 f := by
  have hsome : ((xorBuild default [1, 2, 3, 4] FP8).bind id).isSome = true := by decide +kernel
  have hfifth : ((xorBuild default [1, 2, 3, 4] FP8).bind id).map XorFilter.seed = some 5 := by
    decide +kernel
  obtain ⟨f, hf⟩ := Option.isSome_iff_exists.1 hsome
  rw [hf, Option.map_some, Option.some.injEq] at hfifth
  obtain ⟨r, hbuild, rfl⟩ := Option.bind_eq_some_iff.1 hf
  have hseed : f.seed.toNat = 5 := congrArg UInt32.toNat hfifth
  obtain ⟨st, hloop, hsolves, hzero, hunique⟩ := @table_is_unique default [1, 2, 3, 4] FP8
    (Or.inr (Or.inl rfl)) (by decide) (by decide) f hbuild
    fun seed _ => uncrowded_of_length_le (by decide) seed
  have hrecorded : (seedLoop default [1, 2, 3, 4]
      (buildSegmentSize ([1, 2, 3, 4] : List UInt64).length) 101 0
      (buildState ([1, 2, 3, 4] : List UInt64).length)).map (Option.map fun p =>
        recordedSlots (buildSlots default [1, 2, 3, 4] 5) p.2.stack) =
      some (some [1, 3, 5, 4]) := by
    decide +kernel
  rw [hloop, Option.map_some, Option.map_some, Option.some.injEq, Option.some.injEq] at hrecorded
  rw [hseed] at hsolves hzero hunique
  rw [hrecorded] at hzero hunique
  exact ⟨f, hbuild, hseed, fun c hc hfree =>
    (hunique fun _ => 0).unique ⟨hc, hfree⟩ ⟨hsolves, hzero⟩⟩

end RedisXor
