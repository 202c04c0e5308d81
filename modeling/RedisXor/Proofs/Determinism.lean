import RedisXor.Proofs.Crowd
import RedisXor.Proofs.LoadChunk
import RedisXor.Proofs.Memory
import RedisXor.Proofs.Scan

/-! `XOR.BUILD` as a whole. Sorting and deduplication remove the order and the
batches of the scan, so the reply and the stored filter are functions of the
set, unless a crowded bucket makes `map` read behind the array. -/

namespace RedisXor

section Command

variable {hashBuild : Bytes → UInt64} {qsort : Qsort} {mem : Memory} {redis : Redis}
  {replies : List ScanReply} {db : Keyspace}

/-- What the command makes of the pointer `xor_build` returns. -/
def buildReply (redis : Redis) (db : Keyspace) (dest : Bytes) (numItems : ℕ) :
    Option XorFilter → Reply × Keyspace
  | none => (.error "Failed to build xor filter", db)
  | some filter =>
    if redis.opensForWriting dest then
      (.integer numItems, Function.update db dest (some (.xorFilter filter)))
    else (.error "Cannot open destination key", db)

/-- The widths the command admits. -/
def admittedBits (redis : Redis) (bits : Bytes) : Option FingerprintSize :=
  match redis.stringToLongLong bits with
  | none => none
  | some fpBits =>
    if fpBits ≠ 4 ∧ fpBits ≠ 8 ∧ fpBits ≠ 16 ∧ fpBits ≠ 32 then none
    else some (UInt32.ofNat fpBits.toNat)

theorem admittedBits_valid {bits : Bytes} {fpSize : FingerprintSize}
    (h : admittedBits redis bits = some fpSize) : ValidFp fpSize := by
  unfold admittedBits at h
  split at h
  · cases h
  next fpBits _ =>
    split_ifs at h with hbits
    obtain rfl := Option.some.inj h
    have hcases : fpBits = 4 ∨ fpBits = 8 ∨ fpBits = 16 ∨ fpBits = 32 := by omega
    rcases hcases with rfl | rfl | rfl | rfl
    · exact Or.inl rfl
    · exact Or.inr (Or.inl rfl)
    · exact Or.inr (Or.inr (Or.inl rfl))
    · exact Or.inr (Or.inr (Or.inr rfl))

theorem xorBuildCommand_of_not_admitted {cmd dest source bits : Bytes}
    (h : admittedBits redis bits = none) :
    xorBuildCommand hashBuild qsort mem redis replies db [cmd, dest, source, bits] =
      some (.error "Fingerprint size must be 4, 8, 16 or 32", db) := by
  rcases hread : redis.stringToLongLong bits with - | fpBits
  · simp only [xorBuildCommand, hread]
  · simp only [admittedBits, hread] at h
    split_ifs at h with hne
    simp only [xorBuildCommand, hread, if_pos hne]

/-- The command once its width is admitted. -/
theorem xorBuildCommand_of_admitted {cmd dest source bits : Bytes} {fpSize : FingerprintSize}
    (h : admittedBits redis bits = some fpSize) :
    xorBuildCommand hashBuild qsort mem redis replies db [cmd, dest, source, bits] =
      match db source with
      | some (.set s) =>
        if s.members.length = 0 then some (.error "SET is empty", db)
        else
          match scanLoop hashBuild s.members.length replies [] with
          | .unanswered => none
          | .failed => some (.error "Failed to scan SET members", db)
          | .loaded hashes =>
            (xorBuild mem (dedup (qsort.run hashes)) fpSize).map
              (buildReply redis db dest s.members.length)
      | _ => some (.error "key is not SET", db) := by
  rcases hread : redis.stringToLongLong bits with - | fpBits
  · simp only [admittedBits, hread] at h
    cases h
  · simp only [admittedBits, hread] at h
    split_ifs at h with hadm
    obtain rfl := Option.some.inj h
    simp only [xorBuildCommand, hread, if_neg hadm]
    rcases db source with - | s | f | -
    · rfl
    · by_cases hlen : s.members.length = 0
      · simp only [if_pos hlen]
      · simp only [if_neg hlen]
        rcases scanLoop hashBuild s.members.length replies [] with - | - | hashes
        · rfl
        · rfl
        · rcases hbuild : xorBuild mem (dedup (qsort.run hashes)) (UInt32.ofNat fpBits.toNat) with
            - | - | filter
          · simp only [hbuild, Option.map_none]
          · simp only [hbuild, Option.map_some, buildReply]
          · simp only [hbuild, Option.map_some, buildReply]
            split_ifs <;> rfl
    · rfl
    · rfl

/-- On a set that is scanned in full, the command answers with what `xor_build`
returns for the sorted array of the hashes. -/
theorem xorBuildCommand_of_scan {cmd dest source bits : Bytes} {fpSize : FingerprintSize}
    {s : RedisSet} (hbits : admittedBits redis bits = some fpSize)
    (hset : db source = some (.set s)) (hne : s.members ≠ []) {hashes : List UInt64}
    (hscan : scanLoop hashBuild s.members.length replies [] = .loaded hashes) :
    xorBuildCommand hashBuild qsort mem redis replies db [cmd, dest, source, bits] =
      (xorBuild mem (dedup (qsort.run hashes)) fpSize).map
        (buildReply redis db dest s.members.length) := by
  have hlen : s.members.length ≠ 0 := fun h => hne (List.length_eq_zero_iff.1 h)
  rw [xorBuildCommand_of_admitted hbits, hset]
  simp only [if_neg hlen, hscan]

/-- A run that replies with a number has stored a filter. -/
theorem xorBuildCommand_integer {db' : Keyspace} {argv : List Bytes} {k : ℤ}
    (h : xorBuildCommand hashBuild qsort mem redis replies db argv = some (.integer k, db')) :
    ∃ cmd dest source bits hashes fpSize f, argv = [cmd, dest, source, bits] ∧
      ValidFp fpSize ∧ xorBuild mem hashes fpSize = some (some f) ∧
      db' = Function.update db dest (some (.xorFilter f)) := by
  have hargv : ∃ cmd dest source bits, argv = [cmd, dest, source, bits] := by
    unfold xorBuildCommand at h
    split at h
    · exact ⟨_, _, _, _, rfl⟩
    · cases h
  obtain ⟨cmd, dest, source, bits, rfl⟩ := hargv
  rcases hbits : admittedBits redis bits with - | fpSize
  · rw [xorBuildCommand_of_not_admitted hbits] at h
    cases h
  rw [xorBuildCommand_of_admitted hbits] at h
  split at h
  · split_ifs at h
    · cases h
    split at h
    · cases h
    · cases h
    next hashes _ =>
      obtain ⟨r, hbuild, hreply⟩ := Option.map_eq_some_iff.1 h
      rcases r with - | f
      · cases hreply
      · simp only [buildReply] at hreply
        split_ifs at hreply
        · exact ⟨cmd, dest, source, bits, _, fpSize, f, rfl, admittedBits_valid hbits, hbuild,
            (Prod.mk.inj hreply).2.symm⟩
        · cases hreply
  · cases h

end Command

/-- The loop loads every member of a set that is delivered once. -/
theorem scanLoop_deliversOnce (hashBuild : Bytes → UInt64) {s : RedisSet}
    {replies : List ScanReply} (h : DeliversOnce s replies) :
    scanLoop hashBuild s.members.length replies [] =
      .loaded ((delivered replies).map hashBuild) := by
  rw [scanLoop_nil hashBuild _ h.full, List.take_of_length_le (Nat.le_of_eq h.perm.length_eq)]

/-- The distinct hashes of the members, in increasing order. -/
def memberHashes (hashBuild : Bytes → UInt64) (qsort : Qsort) (s : RedisSet) : List UInt64 :=
  dedup (qsort.run (s.members.map hashBuild))

theorem memberHashes_eq (hashBuild : Bytes → UInt64) (qsort qsort' : Qsort) {s : RedisSet}
    {replies : List ScanReply} (h : DeliversOnce s replies) :
    dedup (qsort'.run ((delivered replies).map hashBuild)) = memberHashes hashBuild qsort s :=
  dedup_qsort_congr qsort' qsort fun a => by simp only [List.mem_map, h.perm.mem_iff]

theorem memberHashes_ne_nil (hashBuild : Bytes → UInt64) (qsort : Qsort) {s : RedisSet}
    (hne : s.members ≠ []) : memberHashes hashBuild qsort s ≠ [] := by
  obtain ⟨m, hm⟩ := List.exists_mem_of_ne_nil _ hne
  have hmem := (mem_dedup_qsort qsort (s.members.map hashBuild) (hashBuild m)).2
    (List.mem_map_of_mem hm)
  exact List.ne_nil_of_mem hmem

/-- On a set that is delivered once, the command answers with what `xor_build`
returns for the distinct hashes, whatever the order of the scan, its batches and
the sorting function. -/
theorem xorBuildCommand_of_deliversOnce (hashBuild : Bytes → UInt64) (qsort qsort' : Qsort)
    (mem : Memory) {redis : Redis} {db : Keyspace} {s : RedisSet} {cmd dest source bits : Bytes}
    {fpSize : FingerprintSize} (hbits : admittedBits redis bits = some fpSize)
    (hset : db source = some (.set s)) (hne : s.members ≠ []) {replies : List ScanReply}
    (h : DeliversOnce s replies) :
    xorBuildCommand hashBuild qsort' mem redis replies db [cmd, dest, source, bits] =
      (xorBuild mem (memberHashes hashBuild qsort s) fpSize).map
        (buildReply redis db dest s.members.length) := by
  rw [xorBuildCommand_of_scan hbits hset hne (scanLoop_deliversOnce hashBuild h),
    memberHashes_eq hashBuild qsort qsort' h]

/-- The reply and the stored filter are functions of the set, up to 2^30 hashes
and if the seeds that are tried put at most 255 keys into a bucket. -/
theorem xorBuildCommand_deterministic (hashBuild : Bytes → UInt64) (qsort qsort' : Qsort)
    (redis : Redis) {db : Keyspace} {s : RedisSet} {source : Bytes}
    (hset : db source = some (.set s)) {replies replies' : List ScanReply}
    (h : DeliversOnce s replies) (h' : DeliversOnce s replies') {mem : Memory}
    (hlen : (memberHashes hashBuild qsort s).length ≤ 2 ^ 30)
    (hload : TriedUncrowded mem (memberHashes hashBuild qsort s)) (mem' : Memory)
    (cmd dest bits : Bytes) :
    ∃ r, xorBuildCommand hashBuild qsort mem redis replies db [cmd, dest, source, bits] = some r ∧
      xorBuildCommand hashBuild qsort' mem' redis replies' db [cmd, dest, source, bits] =
        some r := by
  rcases hbits : admittedBits redis bits with - | fpSize
  · exact ⟨_, xorBuildCommand_of_not_admitted hbits, xorBuildCommand_of_not_admitted hbits⟩
  by_cases hne : s.members = []
  · have hempty (q : Qsort) (m : Memory) (rs : List ScanReply) :
        xorBuildCommand hashBuild q m redis rs db [cmd, dest, source, bits] =
          some (.error "SET is empty", db) := by
      rw [xorBuildCommand_of_admitted hbits, hset]
      simp only [hne, List.length_nil, if_true]
    exact ⟨_, hempty _ _ _, hempty _ _ _⟩
  have h0 : 1 ≤ (memberHashes hashBuild qsort s).length :=
    List.length_pos_iff.2 (memberHashes_ne_nil hashBuild qsort hne)
  obtain ⟨r, hr, hr'⟩ := xorBuild_same mem mem' h0 hlen hload fpSize
  refine ⟨buildReply redis db dest s.members.length r, ?_, ?_⟩
  · rw [xorBuildCommand_of_deliversOnce hashBuild qsort qsort mem hbits hset hne h, hr]
    rfl
  · rw [xorBuildCommand_of_deliversOnce hashBuild qsort qsort' mem' hbits hset hne h', hr']
    rfl

/-! A set that is built from -/

/-- A database with one set, under the key `s`. -/
def oneSet (s : RedisSet) : Keyspace := fun key => if key = [115] then some (.set s) else none

theorem nodup_threeMembers : ([[97], [98], [99]] : List Bytes).Nodup := by decide

/-- The members `a`, `b` and `c`. -/
def threeMembers : RedisSet := ⟨[[97], [98], [99]], nodup_threeMembers⟩

/-- The filter of the three members, with 8-bit fingerprints. -/
def threeFilter : XorFilter :=
  { fingerprints := [184, 0, 6, 0, 10, 0], segmentSize := 2, seed := 0, fpSize := FP8
    reallocations := 2 }

theorem threeMembers_length :
    (memberHashes hashBuild insertionQsort threeMembers).length = 3 := by decide +kernel

theorem threeMembers_uncrowded (mem : Memory) :
    TriedUncrowded mem (memberHashes hashBuild insertionQsort threeMembers) :=
  fun seed _ _ => uncrowded_of_length_le (by rw [threeMembers_length]; decide) seed

theorem xorBuild_threeMembers (mem : Memory) :
    xorBuild mem (memberHashes hashBuild insertionQsort threeMembers) FP8 =
      some (some threeFilter) := by
  have hdefault : xorBuild default (memberHashes hashBuild insertionQsort threeMembers) FP8 =
      some (some threeFilter) := by decide +kernel
  obtain ⟨r, hr, hr'⟩ := xorBuild_same default mem (by rw [threeMembers_length]; decide)
    (by rw [threeMembers_length]; decide) (threeMembers_uncrowded default) FP8
  rw [hr', ← hr, hdefault]

/-- Two orders, two batchings and two memory images: one filter, under the key `d`. -/
theorem xorBuildCommand_three_members :
    ∃ db, xorBuildCommand hashBuild insertionQsort (heapOf 0) digitRedis
        [.batch 5 [[97]], .batch 0 [[98], [99]]] (oneSet threeMembers)
        [[], [100], [115], [56]] = some (.integer 3, db) ∧
      xorBuildCommand hashBuild insertionQsort (heapOf 1) digitRedis
        [.batch 7 [[99], [97]], .batch 3 [], .batch 0 [[98]]] (oneSet threeMembers)
        [[], [100], [115], [56]] = some (.integer 3, db) ∧
      db [100] = some (.xorFilter threeFilter) := by
  have hset : oneSet threeMembers [115] = some (.set threeMembers) := rfl
  have hbits : admittedBits digitRedis [56] = some FP8 := rfl
  have honce : DeliversOnce threeMembers [.batch 5 [[97]], .batch 0 [[98], [99]]] :=
    ⟨.more (by decide) (.last _), List.Perm.refl _⟩
  have honce' : DeliversOnce threeMembers [.batch 7 [[99], [97]], .batch 3 [], .batch 0 [[98]]] :=
    ⟨.more (by decide) (.more (by decide) (.last _)), by decide⟩
  have hrun : xorBuildCommand hashBuild insertionQsort (heapOf 0) digitRedis
      [.batch 5 [[97]], .batch 0 [[98], [99]]] (oneSet threeMembers) [[], [100], [115], [56]] =
        some (.integer 3, Function.update (oneSet threeMembers) [100]
          (some (.xorFilter threeFilter))) := by
    rw [xorBuildCommand_of_deliversOnce hashBuild insertionQsort insertionQsort _ hbits hset
      (List.cons_ne_nil _ _) honce, xorBuild_threeMembers]
    rfl
  obtain ⟨r, hr, hr'⟩ := xorBuildCommand_deterministic hashBuild insertionQsort insertionQsort
    digitRedis hset honce honce' (by rw [threeMembers_length]; decide)
    (threeMembers_uncrowded (heapOf 0)) (heapOf 1) [] [100] [56]
  obtain rfl := Option.some.inj (hrun.symm.trans hr)
  exact ⟨_, hr, hr', Function.update_self _ _ _⟩

/-! The crowd as a set -/

/-- Its members hash to the crowd. -/
def crowdSet : RedisSet :=
  ⟨crowd.map hashPreimage,
    List.Nodup.map hashPreimage_injective (crowd_sorted.imp fun h => UInt64.ne_of_lt h)⟩

theorem crowdSet_hashes (qsort : Qsort) : memberHashes hashBuild qsort crowdSet = crowd := by
  have hmap : crowdSet.members.map hashBuild = crowd := by
    rw [crowdSet, List.map_map]
    exact (List.map_congr_left fun hash _ => hashBuild_hashPreimage hash).trans (List.map_id crowd)
  rw [memberHashes, hmap]
  exact (dedup_sorted (qsort.pairwise_le crowd)).eq_of_mem_iff crowd_sorted fun a =>
    mem_dedup_qsort qsort crowd a

theorem crowdSet_run (hash : UInt64) :
    xorBuildCommand hashBuild insertionQsort (heapOf hash) digitRedis
        [.batch 0 crowdSet.members] (oneSet crowdSet) [[], [100], [115], [56]] =
      (xorBuild (heapOf hash) crowd FP8).map
        (buildReply digitRedis (oneSet crowdSet) [100] 311) := by
  have hlen : crowdSet.members.length = 311 := by
    rw [crowdSet, List.length_map, crowd_length]
  have honce : DeliversOnce crowdSet [.batch 0 crowdSet.members] :=
    ⟨.last _, by rw [delivered, delivered, List.append_nil]⟩
  have hne : crowdSet.members ≠ [] := List.ne_nil_of_length_pos (by omega)
  have hbits : admittedBits digitRedis [56] = some FP8 := rfl
  have hset : oneSet crowdSet [115] = some (.set crowdSet) := rfl
  rw [xorBuildCommand_of_deliversOnce hashBuild insertionQsort insertionQsort _ hbits hset hne
    honce, crowdSet_hashes, hlen]

/-- With the slots 0 and 128 at the word behind the array, seed 0 is accepted. -/
theorem xorBuild_crowd_found {hash : UInt64}
    (hslots : hashTransformNoFingerprint hash 128 0 = ⟨0, 128, 300⟩) :
    ∃ f, xorBuild (heapOf hash) crowd FP8 = some (some f) ∧ f.seed = 0 := by
  obtain ⟨st, hmap⟩ := crowd_map_found hslots
  have hloop : seedLoop (heapOf hash) crowd 128 101 0 (buildState 311) = some (some (0, st)) := by
    rw [seedLoop_succ hmap, if_pos rfl]
  refine ⟨buildFilter (heapOf hash) crowd FP8 128 0 st, ?_,
    (buildFilter_shape _ _ _ _ _ st).seed_eq⟩
  simp only [xorBuild, crowd_segmentSize]
  rw [crowd_length, hloop]
  rfl

theorem xorBuild_crowd_lost {hash : UInt64}
    (hslots : hashTransformNoFingerprint hash 128 0 = ⟨0, 200, 300⟩) {f : XorFilter}
    (hbuild : xorBuild (heapOf hash) crowd FP8 = some (some f)) : f.seed ≠ 0 := by
  intro hseed
  obtain ⟨st, hmap⟩ := crowd_map_lost hslots
  obtain ⟨sd, st', hloop, rfl⟩ := exists_seed_of_xorBuild hbuild
  rw [crowd_segmentSize, crowd_length, seedLoop_succ hmap, if_neg (by decide)] at hloop
  obtain ⟨hle, hlt⟩ := bounds_of_seedLoop hloop
  have hlen := crowd_length
  have hcrowd : crowd.length ≤ 2 ^ 30 := by omega
  have hsd := (buildFilter_builtAt (heapOf hash) FP8 hcrowd (show sd < 2 ^ 32 by omega) st').seed_eq
  rw [hseed] at hsd
  change 0 = sd at hsd
  omega

/-- One scan of one set, over two heaps: the first run stores a filter with seed
0, the second does not. -/
theorem xorBuildCommand_crowd :
    DeliversOnce crowdSet [.batch 0 crowdSet.members] ∧
      (∃ f db', xorBuildCommand hashBuild insertionQsort (heapOf 1065888) digitRedis
          [.batch 0 crowdSet.members] (oneSet crowdSet) [[], [100], [115], [56]] =
            some (.integer 311, db') ∧ db' [100] = some (.xorFilter f) ∧ f.seed = 0) ∧
      ¬ ∃ f db', xorBuildCommand hashBuild insertionQsort (heapOf 707723) digitRedis
          [.batch 0 crowdSet.members] (oneSet crowdSet) [[], [100], [115], [56]] =
            some (.integer 311, db') ∧ db' [100] = some (.xorFilter f) ∧ f.seed = 0 := by
  refine ⟨⟨.last _, by rw [delivered, delivered, List.append_nil]⟩, ?_, ?_⟩
  · have hslots : hashTransformNoFingerprint 1065888 128 0 = ⟨0, 128, 300⟩ := by decide +kernel
    obtain ⟨f, hbuild, hseed⟩ := xorBuild_crowd_found hslots
    refine ⟨f, Function.update (oneSet crowdSet) [100] (some (.xorFilter f)), ?_,
      Function.update_self _ _ _, hseed⟩
    rw [crowdSet_run, hbuild]
    rfl
  · rintro ⟨f, db', hrun, hdb, hseed⟩
    have hslots : hashTransformNoFingerprint 707723 128 0 = ⟨0, 200, 300⟩ := by decide +kernel
    rw [crowdSet_run] at hrun
    rcases hbuild : xorBuild (heapOf 707723) crowd FP8 with - | - | g
    · simp [hbuild] at hrun
    · simp [hbuild, buildReply] at hrun
    · simp only [hbuild, Option.map_some, buildReply, digitRedis, if_true, Option.some.injEq,
        Prod.mk.injEq] at hrun
      rw [← hrun.2, Function.update_self] at hdb
      simp only [Option.some.injEq, RedisValue.xorFilter.injEq] at hdb
      subst hdb
      exact xorBuild_crowd_lost hslots hbuild hseed

end RedisXor
