import Mathlib.Order.Interval.Finset.Nat
import RedisXor.Proofs.Soundness

/-! A crowd: 311 hashes that a client can choose so that at seed 0 bucket 0
receives 256 keys. Its counter reaches one while two of them are left, and the
accumulator then names key 329, past the end of the array. -/

namespace RedisXor

open XorSum Peeling

/-- The low 54 bits of each hash; its index stands above them. -/
def crowdOffsets : List ℕ :=
  [1213120, 4307845, 4162144, 2688580, 4045458, 9156398, 2581851, 606370, 1628795, 669845, 793153,
   2654171, 457936, 2287242, 2347326, 1651342, 476729, 1904241, 20081, 1216570, 748097, 4078122,
   766344, 5147761, 1772079, 9888572, 109844, 1751523, 310044, 273399, 4026297, 2857178, 1072322,
   660803, 4261094, 1507650, 590689, 2536233, 1531028, 3722310, 105945, 2932640, 9779500, 686792,
   744430, 3786693, 1089950, 5796703, 637143, 10280, 2966964, 768133, 956039, 273069, 637191,
   4414841, 1190423, 3158460, 2326382, 202830, 821377, 394445, 8822059, 951568, 1572996, 1447994,
   3132589, 3767281, 176974, 288841, 339308, 640, 2961807, 1195319, 948830, 1542957, 5922138,
   2219124, 998559, 2524600, 3475184, 1922304, 5412749, 241921, 332640, 1534498, 919340, 1028219,
   1565801, 2941104, 84650, 428102, 4248932, 581849, 909775, 1044179, 3010967, 155367, 95172,
   202256, 2544133, 804860, 4728064, 3203611, 5036869, 56778, 2299, 102868, 1072920, 6335584,
   434941, 1896857, 5885717, 2140273, 294820, 547759, 1618477, 5482688, 7774863, 4520903, 3717016,
   222327, 3757489, 553230, 468668, 3213764, 286628, 2930095, 3970131, 1619293, 1627690, 881952,
   272128, 1531278, 1594455, 863922, 5675476, 1223926, 1057540, 758224, 1505694, 1133641, 137647,
   855787, 6811021, 1541246, 219308, 7705467, 450664, 4009412, 322669, 897640, 755850, 462954,
   2758460, 2502874, 8037939, 2410906, 1929795, 1626293, 518713, 190791, 1118349, 48730, 1586921,
   185864, 8923969, 1788773, 643634, 309430, 333514, 969391, 780934, 3928405, 4469031, 7163171,
   134354, 593823, 3455822, 697265, 387215, 2992313, 590610, 761084, 1436282, 1037973, 1434816,
   2574333, 2420871, 2547450, 110725, 1792308, 563227, 333585, 2022377, 2694254, 4021363, 6200363,
   740545, 469997, 182271, 4971525, 1066074, 1992751, 14907, 208967, 3060000, 2818092, 3896568,
   1821847, 1589916, 157590, 6677476, 3782626, 1101049, 996409, 2000393, 2729511, 2388876, 2377937,
   2245028, 792124, 2693504, 1322382, 5791376, 1218021, 3668812, 970192, 1939658, 2909078, 822435,
   1131265, 1496124, 1975572, 441263, 1735508, 987087, 3379871, 1398012, 1613225, 531147, 9012,
   7126016, 498599, 625860, 133288, 1471504, 5110, 2969836, 3236815, 2853274, 3802940, 1580568,
   1405936, 2443112, 5186455, 8347405, 1634243, 485350, 414414, 718379, 123120, 3088728, 1458430,
   878825, 2459628, 195830, 40994, 127061, 1384791, 62620, 4226709, 2546836, 2127264, 434775,
   2038384, 2986699, 1310696, 141914, 472610, 1877264, 1817805, 520928, 6356397, 1624810, 125411,
   1048057, 1061014, 1757903, 3750507, 7215757, 1765748, 1806535, 1356501, 1057171, 2815149,
   1006812, 589913, 250715, 1948856, 81495, 798210, 2049113, 1496213, 465281, 6320357, 621082,
   431735, 3159804, 4800437, 766542]

def crowd : List UInt64 := crowdOffsets.mapIdx fun j c => UInt64.ofNat (j * 2 ^ 54 + c)

/-- The slots of the keys at seed 0. Keys 127 and 310 share all three. -/
def crowdSlots (j : ℕ) : HashNoFP :=
  if j < 127 then ⟨0, 128, 257 + j⟩
  else if j = 127 ∨ j = 310 then ⟨0, 128, 256⟩
  else if j < 255 then ⟨0, j + 1, 256⟩
  else ⟨j - 254, j - 126, 256⟩

theorem crowd_length : crowd.length = 311 := by
  rw [crowd, List.length_mapIdx]
  decide +kernel

/-- The index stands above the offset, so the array is in order. -/
theorem crowd_sorted : crowd.Pairwise (· < ·) := by
  have hoff : crowdOffsets.all (· < 2 ^ 54) = true := by decide +kernel
  rw [List.pairwise_iff_getElem]
  intro i j hi hj hij
  have hi' := crowd_length ▸ hi
  have hj' := crowd_length ▸ hj
  simp only [crowd, List.length_mapIdx] at hi hj
  have hci := List.all_eq_true.1 hoff crowdOffsets[i] (List.getElem_mem hi)
  have hcj := List.all_eq_true.1 hoff crowdOffsets[j] (List.getElem_mem hj)
  simp only [decide_eq_true_eq] at hci hcj
  simp only [crowd, List.getElem_mapIdx]
  rw [UInt64.lt_iff_toNat_lt, UInt64.toNat_ofNat_of_lt' (show _ < 2 ^ 64 by omega),
    UInt64.toNat_ofNat_of_lt' (show _ < 2 ^ 64 by omega)]
  omega

theorem crowd_transform :
    crowd.map (fun hash => hashTransformNoFingerprint hash 128 0) =
      (List.range 311).map crowdSlots := by decide +kernel

section Slots

variable (mem : Memory)

theorem crowd_segmentSize : buildSegmentSize crowd.length = 128 := by
  rw [crowd_length]
  rfl

theorem buildSlots_crowd {j : ℕ} (hj : j < 311) : buildSlots mem crowd 0 j = crowdSlots j := by
  have hlen : j < crowd.length := by rwa [crowd_length]
  have hget := congrArg (fun l => l[j]?) crowd_transform
  simp only [List.getElem?_map, List.getElem?_eq_getElem hlen, Option.map_some,
    List.getElem?_range hj, Option.some.injEq] at hget
  rw [buildSlots, keySlots, crowd_segmentSize, readHash, List.getD_eq_getElem?_getD,
    List.getElem?_eq_getElem hlen, Option.getD_some, hget]

theorem crowd_slots_ok (x : ℕ) : SlotsOk 128 (buildSlots mem crowd 0 x) := by
  have hlen := crowd_length
  have hpos : 1 ≤ crowd.length := by omega
  have h := buildSlots_ok mem hpos (by omega) 0 x
  rwa [crowd_segmentSize] at h

/-- The pair that no round can separate. -/
def crowdCore : Finset ℕ := {127, 310}

theorem crowdCore_card : crowdCore.card = 2 := Finset.card_pair (by omega)

theorem mem_crowdCore {k : ℕ} : k ∈ crowdCore ↔ k = 127 ∨ k = 310 := by
  simp [crowdCore]

theorem crowdCore_slots {k : ℕ} (hk : k ∈ crowdCore) :
    buildSlots mem crowd 0 k = ⟨0, 128, 256⟩ := by
  rcases mem_crowdCore.1 hk with rfl | rfl
  · exact buildSlots_crowd mem (by omega)
  · exact buildSlots_crowd mem (by omega)

theorem crowdCore_twoCore :
    TwoCore (fun k b => Touches (buildSlots mem crowd 0 k) b) crowdCore := by
  intro k hk b hb
  rw [crowdCore_slots mem hk] at hb
  rcases mem_crowdCore.1 hk with rfl | rfl
  · have hmem : 310 ∈ crowdCore := by decide
    refine ⟨310, hmem, by decide, ?_⟩
    simpa only [crowdCore_slots mem hmem] using hb
  · have hmem : 127 ∈ crowdCore := by decide
    refine ⟨127, hmem, by decide, ?_⟩
    simpa only [crowdCore_slots mem hmem] using hb

/-- The keys of a bucket, by cases on its segment. -/
theorem touches_crowd {k b : ℕ} (hk : k < 311) (hb : Touches (buildSlots mem crowd 0 k) b) :
    (b = 0 ∧ (k < 255 ∨ k = 310)) ∨ (0 < b ∧ b < 128 ∧ k = b + 254) ∨
      (b = 128 ∧ (k ≤ 127 ∨ k = 310)) ∨ (128 < b ∧ b < 256 ∧ (k + 1 = b ∨ k = b + 126 ∧ k < 310)) ∨
      (b = 256 ∧ 127 ≤ k) ∨ (256 < b ∧ k + 257 = b) := by
  rw [buildSlots_crowd mem hk, crowdSlots] at hb
  split_ifs at hb <;> rcases hb with hb | hb | hb <;> simp only at hb <;> omega

theorem crowd_load_zero : load (buildSlots mem crowd 0) 311 0 = 256 := by
  have hkeys : keysAt (buildSlots mem crowd 0) (Finset.range 311) 0 =
      insert 310 (Finset.range 255) := by
    ext k
    simp only [keysAt, Finset.mem_filter, Finset.mem_range, Finset.mem_insert]
    constructor
    · rintro ⟨hk, hb⟩
      have := touches_crowd mem hk hb
      omega
    · intro hk
      refine ⟨by omega, ?_⟩
      rw [buildSlots_crowd mem (by omega), crowdSlots]
      split_ifs <;> first | omega | exact Or.inl rfl
  rw [load, hkeys, Finset.card_insert_of_notMem (by simp), Finset.card_range]

theorem crowd_load_le {b : ℕ} (hb : b ≠ 0) : load (buildSlots mem crowd 0) 311 b ≤ 255 := by
  have hsub : keysAt (buildSlots mem crowd 0) (Finset.range 311) b ⊆
      if b = 128 then insert 310 (Finset.range 128)
      else if b = 256 then Finset.Ico 127 311
      else {b - 257, b - 1, b + 126, b + 254} := by
    intro k hk
    obtain ⟨hk, ht⟩ := Finset.mem_filter.1 hk
    have hcase := touches_crowd mem (Finset.mem_range.1 hk) ht
    rw [Finset.mem_range] at hk
    split_ifs with h1 h2
    · simp only [Finset.mem_insert, Finset.mem_range]
      omega
    · simp only [Finset.mem_Ico]
      omega
    · simp only [Finset.mem_insert, Finset.mem_singleton]
      omega
  refine (Finset.card_le_card hsub).trans ?_
  split_ifs
  · exact (Finset.card_insert_le _ _).trans (by rw [Finset.card_range]; omega)
  · rw [Nat.card_Ico]
    omega
  · exact Finset.card_le_four.trans (by omega)

end Slots

/-! What the invariant says about the crowd -/

section Run

variable {mem : Memory} {ks : List (ℕ × ℕ)} {w : WorkState}

theorem crowdCore_subset (h : PeelInv (buildSlots mem crowd 0) 311 128 ks w) :
    crowdCore ⊆ remaining 311 ks := by
  refine run_subset_of_twoCore h.run (crowdCore_twoCore mem) fun k hk => ?_
  have := mem_crowdCore.1 hk
  exact Finset.mem_range.2 (by omega)

/-- When the counter of bucket 0 reaches one, the core is what it holds. -/
theorem keysAt_zero_of_count_one (h : PeelInv (buildSlots mem crowd 0) 311 128 ks w)
    (hc : bucketGetCount w.B 0 = 1) :
    keysAt (buildSlots mem crowd 0) (remaining 311 ks) 0 = crowdCore := by
  refine (Finset.eq_of_subset_of_card_le (fun k hk => ?_) ?_).symm
  · refine Finset.mem_filter.2 ⟨crowdCore_subset h hk, ?_⟩
    rw [crowdCore_slots mem hk]
    exact Or.inl rfl
  · have hcount := h.count 0 (by omega)
    have hle := card_keysAt_le_load (buildSlots mem crowd 0) 311 ks 0
    rw [hc, crowd_load_zero] at hcount
    rw [crowd_load_zero] at hle
    have hcard := crowdCore_card
    omega

/-- A key of the middle group goes only after the key `k` of the last group with
which it shares a slot; its other slots are the core's. -/
theorem notMem_of_partner_gone (h : PeelInv (buildSlots mem crowd 0) 311 128 ks w) {k : ℕ}
    (h1 : 255 ≤ k) (h2 : k < 310) (hgone : k - 127 ∉ remaining 311 ks) : k ∉ remaining 311 ks := by
  intro hk
  rw [mem_remaining, not_and, not_not] at hgone
  obtain ⟨p, hp, hpk⟩ := List.mem_map.1 (hgone (by omega))
  have htouch := h.trace.1 p hp
  rw [hpk, buildSlots_crowd mem (by omega), crowdSlots, if_neg (by omega), if_neg (by omega),
    if_pos (by omega)] at htouch
  have hcore0 : 127 ∈ crowdCore := by decide
  rcases htouch with hb | hb | hb
  · refine h.free p hp 127 (crowdCore_subset h hcore0) ?_
    rw [crowdCore_slots mem hcore0, hb]
    exact Or.inl rfl
  · refine h.free p hp k hk ?_
    rw [buildSlots_crowd mem (by omega), crowdSlots, if_neg (by omega), if_neg (by omega),
      if_neg (by omega), hb]
    exact Or.inr (Or.inl (by simp only; omega))
  · refine h.free p hp 127 (crowdCore_subset h hcore0) ?_
    rw [crowdCore_slots mem hcore0, hb]
    exact Or.inr (Or.inr rfl)

/-- When the counter of bucket 0 reaches one, only the core is left: the other
keys of the bucket have gone, and the last group before them. -/
theorem remaining_of_count_one (h : PeelInv (buildSlots mem crowd 0) 311 128 ks w)
    (hc : bucketGetCount w.B 0 = 1) : remaining 311 ks = crowdCore := by
  have hat := keysAt_zero_of_count_one h hc
  refine Finset.Subset.antisymm (fun k hk => ?_) (crowdCore_subset h)
  by_contra hnot
  have hkn := mem_remaining.1 hk
  have h0 : ¬ Touches (buildSlots mem crowd 0 k) 0 := fun ht =>
    hnot (hat ▸ Finset.mem_filter.2 ⟨hk, ht⟩)
  rw [buildSlots_crowd mem hkn.1, crowdSlots] at h0
  have hgroup : 255 ≤ k ∧ k < 310 := by
    have := mt mem_crowdCore.2 hnot
    split_ifs at h0 <;> first | omega | exact absurd (Or.inl rfl) h0
  refine notMem_of_partner_gone h hgroup.1 hgroup.2 (fun hmem => ?_) hk
  have hp : k - 127 ∈ crowdCore := by
    rw [← hat]
    refine Finset.mem_filter.2 ⟨hmem, ?_⟩
    rw [buildSlots_crowd mem (by omega), crowdSlots, if_neg (by omega), if_neg (by omega),
      if_pos (by omega)]
    exact Or.inl rfl
  have := mem_crowdCore.1 hp
  omega

theorem count_of_remaining (h : PeelInv (buildSlots mem crowd 0) 311 128 ks w)
    (hrem : remaining 311 ks = crowdCore) {b : ℕ} (hb : b < 384) : bucketGetCount w.B b =
      if b = 0 then 1 else if b = 128 ∨ b = 256 then 2 else 0 := by
  have hcount := h.count b hb
  have hat : (keysAt (buildSlots mem crowd 0) crowdCore b).card =
      if b = 0 ∨ b = 128 ∨ b = 256 then 2 else 0 := by
    split_ifs with hb3
    · rw [keysAt, Finset.filter_true_of_mem fun k hk => ?_]
      · exact crowdCore_card
      · rw [crowdCore_slots mem hk]
        exact hb3
    · rw [keysAt, Finset.filter_false_of_mem fun k hk => ?_]
      · rfl
      · rw [crowdCore_slots mem hk]
        exact hb3
  rw [hrem, hat] at hcount
  rw [hcount]
  by_cases hb0 : b = 0
  · subst hb0
    rw [crowd_load_zero]
    rfl
  · have hle := crowd_load_le mem hb0
    have hsub := card_keysAt_le_load (buildSlots mem crowd 0) 311 ks b
    rw [hrem, hat] at hsub
    split_ifs at hsub ⊢ <;> omega

/-- With an empty queue the keys of the last group are gone: each of them is
alone in a first slot. -/
theorem last_group_gone (h : PeelInv (buildSlots mem crowd 0) 311 128 ks w) (hwork : w.work = [])
    {k : ℕ} (h1 : 255 ≤ k) (h2 : k < 310) : k ∉ remaining 311 ks := by
  intro hk
  have ht : Touches (buildSlots mem crowd 0 k) (k - 254) := by
    rw [buildSlots_crowd mem (by omega), crowdSlots, if_neg (by omega), if_neg (by omega),
      if_neg (by omega)]
    exact Or.inl rfl
  obtain ⟨k', hk', hne, ht'⟩ := h.exists_ne_touches (crowd_slots_ok mem) hwork
    (crowd_load_le mem (by omega)) hk ht
  have := touches_crowd mem (mem_remaining.1 hk').1 ht'
  omega

theorem remaining_of_done (h : PeelInv (buildSlots mem crowd 0) 311 128 ks w)
    (hwork : w.work = []) : remaining 311 ks = crowdCore := by
  refine Finset.Subset.antisymm (fun k hk => ?_) (crowdCore_subset h)
  by_contra hnot
  have hkn := (mem_remaining.1 hk).1
  have hne := mt mem_crowdCore.2 hnot
  by_cases h1 : k < 127
  · -- alone in its third slot
    have ht : Touches (buildSlots mem crowd 0 k) (k + 257) := by
      rw [buildSlots_crowd mem hkn, crowdSlots, if_pos h1, Nat.add_comm]
      exact Or.inr (Or.inr rfl)
    obtain ⟨k', hk', hk'k, ht'⟩ := h.exists_ne_touches (crowd_slots_ok mem) hwork
      (crowd_load_le mem (by omega)) hk ht
    have := touches_crowd mem (mem_remaining.1 hk').1 ht'
    omega
  · -- in its second slot with a key of the last group
    have h2 : k < 255 := by
      by_contra h2
      exact last_group_gone h hwork (by omega) (by omega) hk
    have ht : Touches (buildSlots mem crowd 0 k) (k + 1) := by
      rw [buildSlots_crowd mem hkn, crowdSlots, if_neg h1, if_neg (by omega), if_pos h2]
      exact Or.inr (Or.inl rfl)
    obtain ⟨k', hk', hk'k, ht'⟩ := h.exists_ne_touches (crowd_slots_ok mem) hwork
      (crowd_load_le mem (by omega)) hk ht
    have := touches_crowd mem (mem_remaining.1 hk').1 ht'
    exact last_group_gone h hwork (by omega) (by omega) hk'

/-- The loop cannot end before bucket 0 is taken. -/
theorem crowd_not_done (h : PeelInv (buildSlots mem crowd 0) 311 128 ks w) : w.work ≠ [] := by
  intro hwork
  have hrem := remaining_of_done h hwork
  have hmem := h.queued 0 (by omega)
    (by rw [count_of_remaining h hrem (by omega), if_pos rfl])
  rw [hwork] at hmem
  exact List.not_mem_nil hmem

end Run

theorem crowd_ready : MapReady 311 128 (buildState 311) :=
  buildState_ready (by omega) (by omega)

theorem crowd_takes_crowded (mem : Memory) :
    ¬ NoCrowdedTake mem (buildSlots mem crowd 0) 311 128 (buildState 311) := by
  intro hload
  obtain ⟨ks, st, -, hks, hwork⟩ := mapSlots_spec mem crowd_ready (crowd_slots_ok mem) (by omega)
    (by omega) (room_of_lt (by omega) _) hload
  exact crowd_not_done hks.peel hwork

/-- With two keys of bucket 0 left, a round takes it for a bucket with one key
and reads the hash of a key that does not exist. -/
theorem crowd_unsound :
    crowd.length = 311 ∧ crowd.Nodup ∧ buildSegmentSize crowd.length = 128 ∧
      ∃ k, Reaches default (buildSlots default crowd 0) 311 128 (buildState 311) k ∧
        let st := mapRun default (buildSlots default crowd 0) 311 128 (buildState 311) k
        Takes st 0 ∧ bucketGetSingleValue st.B 0 = 329 ∧
          ¬ TakeSound (buildSlots default crowd 0) 311 st 0 := by
  refine ⟨crowd_length, crowd_sorted.imp fun h => UInt64.ne_of_lt h, crowd_segmentSize, ?_⟩
  obtain ⟨k, b, hk, hb, hload, hfirst⟩ := exists_first_crowded (crowd_takes_crowded default)
  have hb0 : b = 0 := by
    by_contra hne
    have := crowd_load_le default hne
    omega
  subst hb0
  obtain ⟨ks, hks⟩ := mapRun_inv crowd_ready (crowd_slots_ok default) (by omega) (by omega)
    (room_of_lt (by omega) _) hk hfirst
  have hrem := remaining_of_count_one hks.peel hb.2.2
  have hsum := hks.peel.sum 0 (by omega)
  have hat : keysAt (buildSlots default crowd 0) crowdCore 0 = crowdCore :=
    Finset.filter_true_of_mem fun k hk => by
      rw [crowdCore_slots default hk]
      exact Or.inl rfl
  rw [hrem, hat] at hsum
  have hx : bucketGetSingleValue
      (mapRun default (buildSlots default crowd 0) 311 128 (buildState 311) k).B 0 = 329 :=
    hsum.trans (by decide)
  refine ⟨k, hk, hb, hx, fun hsound => ?_⟩
  have hlt := ((hsound.only_key _).2 rfl).1
  omega

/-! What follows depends on the word that happens to lie where `hashes[329]`
would be. -/

/-- Every word behind the array is `hash`. -/
def heapOf (hash : UInt64) : Memory := { (default : Memory) with pastHashes := fun _ => hash }

theorem buildSlots_heapOf (hash : UInt64) :
    buildSlots (heapOf hash) crowd 0 329 = hashTransformNoFingerprint hash 128 0 := by
  rw [buildSlots, keySlots, crowd_segmentSize, readHash, List.getD_eq_getElem?_getD,
    List.getElem?_eq_none (by rw [crowd_length]; omega)]
  rfl

/-- Nothing is left to take. -/
structure Drained (head : ℕ) (w : WorkState) : Prop where
  head_eq : w.stack.head = head
  count_ne : ∀ b ∈ w.work, bucketGetCount w.B b ≠ 1

/-- Bucket 128, one key short, is queued with the index of key 0. -/
structure Spurious (w : WorkState) : Prop where
  buckets : BucketsOk (3 * 128) w.B
  head_eq : w.stack.head = 310
  count : ∀ b < 384, bucketGetCount w.B b = if b = 128 then 1 else if b = 256 then 2 else 0
  sum : bucketGetSingleValue w.B 128 = 0
  queued : 128 ∈ w.work
  work_lt : ∀ b ∈ w.work, b < 384

section Phases

variable {mem : Memory} {ks : List (ℕ × ℕ)} {w : WorkState} {idx : ℕ} {rest : List ℕ}

theorem Drained.step {pos : ℕ → HashNoFP} {head : ℕ} (h : Drained head w)
    (hw : w.work = idx :: rest) : Drained head (workBody pos 128 w idx rest) := by
  rw [workBody_skip (h.count_ne idx (by rw [hw]; exact List.mem_cons_self))]
  exact ⟨h.head_eq, fun b hb => h.count_ne b (by rw [hw]; exact List.mem_cons_of_mem idx hb)⟩

/-- The slots of the key that does not exist are what the round removes. -/
theorem crowd_take_zero (h : PeelInv (buildSlots mem crowd 0) 311 128 ks w)
    (hw : w.work = 0 :: rest) (hc : bucketGetCount w.B 0 = 1) :
    let w' := workBody (buildSlots mem crowd 0) 128 w 0 rest
    w'.stack.head = 310 ∧ w'.B = removeKey w.B (buildSlots mem crowd 0 329) 329 ∧
      w'.work = rest ++ released w.B (buildSlots mem crowd 0 329) ∧
      (∀ b ∈ w'.work, b < 384) ∧
      (∀ b < 384, bucketGetCount w.B b = if b = 0 then 1 else if b = 128 ∨ b = 256 then 2 else 0) ∧
      bucketGetSingleValue w.B 128 = 329 := by
  intro w'
  have hrem := remaining_of_count_one h hc
  have hlen : ks.length = 309 := by
    have hcard := h.card_remaining
    rw [hrem, crowdCore_card] at hcard
    omega
  have hsum (b : ℕ) (hb : b = 0 ∨ b = 128) : bucketGetSingleValue w.B b = 329 := by
    rw [h.sum b (by omega), hrem, keysAt, Finset.filter_true_of_mem fun k hk => ?_]
    · decide
    · rw [crowdCore_slots mem hk]
      rcases hb with rfl | rfl
      · exact Or.inl rfl
      · exact Or.inr (Or.inl rfl)
  have hw' : workBody (buildSlots mem crowd 0) 128 w 0 rest = _ := workBody_take hc
  change w' = _ at hw'
  rw [hsum 0 (Or.inl rfl)] at hw'
  refine ⟨?_, ?_, ?_, ?_, fun b hb => count_of_remaining h hrem hb, hsum 128 (Or.inr rfl)⟩
  · rw [hw']
    change w.stack.head + 1 = 310
    rw [h.head, hlen]
  · rw [hw']
  · rw [hw']
  · rw [hw']
    intro b hb
    rcases List.mem_append.1 hb with hb | hb
    · exact h.work_lt b (by rw [hw]; exact List.mem_cons_of_mem 0 hb)
    · exact (crowd_slots_ok mem 329).lt (mem_released.1 hb).1

/-- Until bucket 0 is taken, the rounds keep the invariant. -/
theorem crowd_step (h : PeelInv (buildSlots mem crowd 0) 311 128 ks w) (hw : w.work = idx :: rest)
    (hidx : ¬ (idx = 0 ∧ bucketGetCount w.B 0 = 1)) :
    ∃ ks, PeelInv (buildSlots mem crowd 0) 311 128 ks
      (workBody (buildSlots mem crowd 0) 128 w idx rest) := by
  have hw : w.work = [] ++ idx :: rest := hw
  by_cases hc : bucketGetCount w.B idx = 1
  · have hne : idx ≠ 0 := by
      rintro rfl
      exact hidx ⟨rfl, hc⟩
    exact ⟨_, h.take (crowd_slots_ok mem) hw hc (crowd_load_le mem hne)⟩
  · exact ⟨ks, h.skip hw hc⟩

theorem Spurious.step (h : Spurious w) (hw : w.work = idx :: rest) :
    Spurious (workBody (buildSlots mem crowd 0) 128 w idx rest) ∨
      Drained 311 (workBody (buildSlots mem crowd 0) 128 w idx rest) := by
  have hlt := h.work_lt idx (by rw [hw]; exact List.mem_cons_self)
  have hrest (b : ℕ) (hb : b ∈ rest) : b < 384 :=
    h.work_lt b (by rw [hw]; exact List.mem_cons_of_mem idx hb)
  by_cases hidx : idx = 128
  · -- key 0 is pushed a second time
    subst hidx
    right
    have hslots : buildSlots mem crowd 0 0 = ⟨0, 128, 257⟩ := buildSlots_crowd mem (by omega)
    rw [workBody_take (by rw [h.count 128 hlt, if_pos rfl]), h.sum]
    dsimp only
    rw [hslots]
    refine ⟨congrArg (· + 1) h.head_eq, fun b hb => ?_⟩
    have hb384 : b < 384 := by
      rcases List.mem_append.1 hb with hb | hb
      · exact hrest b hb
      · have := (mem_released.1 hb).1
        simp only [Touches] at this
        omega
    have hok := crowd_slots_ok mem 0
    rw [hslots] at hok
    rw [bucketGetCount_removeKey h.buckets hok, h.count b hb384, ite_touches]
    dsimp only
    split_ifs <;> omega
  · left
    have hne : bucketGetCount w.B idx ≠ 1 := by
      rw [h.count idx hlt]
      split_ifs <;> omega
    rw [workBody_skip hne]
    refine ⟨h.buckets, h.head_eq, h.count, h.sum, ?_, hrest⟩
    have hq := h.queued
    rw [hw] at hq
    exact (List.mem_cons.1 hq).resolve_left fun e => hidx e.symm

/-- A run of `map` on the crowd: what holds once bucket 0 has been taken, and is
kept from then on, decides its result. -/
theorem crowd_map {P : WorkState → Prop} (head : ℕ)
    (hzero : ∀ ks w rest, PeelInv (buildSlots mem crowd 0) 311 128 ks w → w.work = 0 :: rest →
      bucketGetCount w.B 0 = 1 → P (workBody (buildSlots mem crowd 0) 128 w 0 rest))
    (hstep : ∀ w idx rest, w.work = idx :: rest → P w →
      P (workBody (buildSlots mem crowd 0) 128 w idx rest))
    (hend : ∀ w, P w → w.work = [] → w.stack.head = head) :
    ∃ st, map mem crowd 128 0 (buildState 311) = some (head == 311, st) := by
  have hrun (w : WorkState) (idx : ℕ) (rest : List ℕ) (_ : BucketsOk (3 * 128) w.B)
      (hw : w.work = idx :: rest)
      (hP : (∃ ks, PeelInv (buildSlots mem crowd 0) 311 128 ks w) ∨ P w) :
      (∃ ks, PeelInv (buildSlots mem crowd 0) 311 128 ks
        (workBody (buildSlots mem crowd 0) 128 w idx rest)) ∨
        P (workBody (buildSlots mem crowd 0) 128 w idx rest) := by
    rcases hP with ⟨ks, hks⟩ | hP
    · by_cases hidx : idx = 0 ∧ bucketGetCount w.B 0 = 1
      · obtain ⟨rfl, hc⟩ := hidx
        exact Or.inr (hzero ks w rest hks hw hc)
      · exact Or.inl (crowd_step hks hw hidx)
    · exact Or.inr (hstep w idx rest hw hP)
  have hinit := (mapInit_safe mem crowd_ready (crowd_slots_ok mem) (by omega)
    (by omega)).1
  obtain ⟨st, hmap, -, hP, hwork⟩ := mapSlots_run mem crowd_ready (crowd_slots_ok mem)
    (by omega) (by omega) (Or.inl ⟨[], hinit.peel⟩) hrun
  refine ⟨st, ?_⟩
  have hhead : st.stack.head = head := by
    rcases hP with ⟨ks, hks⟩ | hP
    · exact absurd hwork (crowd_not_done hks)
    · exact hend _ hP hwork
  have hpos : keySlots mem crowd 128 0 = buildSlots mem crowd 0 := by
    rw [buildSlots, crowd_segmentSize]
  rw [map, crowd_length, hpos, hmap, hhead]

end Phases

/-- With the slots 0 and 128 there, the stack reaches the right height. -/
theorem crowd_map_found {hash : UInt64}
    (hslots : hashTransformNoFingerprint hash 128 0 = ⟨0, 128, 300⟩) :
    ∃ st, map (heapOf hash) crowd 128 0 (buildState 311) = some (true, st) := by
  refine crowd_map 311 (P := fun w => Spurious w ∨ Drained 311 w)
    (fun ks w rest h hw hc => ?_) (fun w idx rest hw hP => ?_) fun w hP hwork => ?_
  · obtain ⟨hhead, hB', hwork', hlt, hcount, hsum⟩ := crowd_take_zero h hw hc
    have hok := crowd_slots_ok (heapOf hash) 329
    rw [buildSlots_heapOf, hslots] at hB' hwork' hok
    refine Or.inl ⟨?_, hhead, fun b hb => ?_, ?_, ?_, hlt⟩
    · rw [hB']
      exact removeKey_ok h.buckets 329
    · rw [hB', bucketGetCount_removeKey h.buckets hok, hcount b hb, ite_touches]
      dsimp only
      split_ifs <;> omega
    · rw [hB', bucketGetSingleValue_removeKey h.buckets hok, hsum, ite_touches,
        if_pos (Or.inr (Or.inl rfl))]
      rfl
    · rw [hwork', List.mem_append, mem_released]
      exact Or.inr ⟨Or.inr (Or.inl rfl), by rw [hcount 128 (by omega)]; rfl⟩
  · rcases hP with hspur | hdrained
    · exact hspur.step hw
    · exact Or.inr (hdrained.step hw)
  · rcases hP with hspur | hdrained
    · have hq := hspur.queued
      rw [hwork] at hq
      exact absurd hq List.not_mem_nil
    · exact hdrained.head_eq

/-- With a slot there that no other key has, it does not. -/
theorem crowd_map_lost {hash : UInt64}
    (hslots : hashTransformNoFingerprint hash 128 0 = ⟨0, 200, 300⟩) :
    ∃ st, map (heapOf hash) crowd 128 0 (buildState 311) = some (false, st) := by
  refine crowd_map 310 (P := Drained 310) (fun ks w rest h hw hc => ?_)
    (fun w idx rest hw hP => hP.step hw) fun w hP _ => hP.head_eq
  obtain ⟨hhead, hB', -, hlt, hcount, -⟩ := crowd_take_zero h hw hc
  have hok := crowd_slots_ok (heapOf hash) 329
  rw [buildSlots_heapOf, hslots] at hB' hok
  refine ⟨hhead, fun b hb => ?_⟩
  rw [hB', bucketGetCount_removeKey h.buckets hok, hcount b (hlt b hb), ite_touches]
  dsimp only
  split_ifs <;> omega

end RedisXor
