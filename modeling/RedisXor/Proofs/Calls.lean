import RedisXor.Proofs.Dump
import RedisXor.Proofs.Load
import RedisXor.Proofs.Rounds
import RedisXor.Spec.Server

/-! What one call of the server can do. A stored filter was stored before, was
built by this call, or is the payload of this call. -/

namespace RedisXor

/-! Filters that are built -/

section Built

variable {mem : Memory} {hashes : List UInt64} {fpSize : FingerprintSize} {f : XorFilter}

theorem seedLoop_tried (h0 : 1 ≤ hashes.length) (hn : hashes.length ≤ 2 ^ 30) {tries seed sd : ℕ}
    {st st' : MapState} (hst : MapReady hashes.length (buildSegmentSize hashes.length) st)
    (hfound : seedLoop mem hashes (buildSegmentSize hashes.length) tries seed st =
      some (some (sd, st'))) (hfail : ∀ j < seed, ¬ SeedPeelable mem hashes j)
    (hle : seed + tries ≤ 101) (hload : TriedUncrowded mem hashes) :
    ∀ i, seed ≤ i → i ≤ sd → Uncrowded mem hashes i := by
  induction tries generalizing seed st with
  | zero => cases hfound
  | succ tries ih =>
    have hseed := hload seed (by omega) hfail
    obtain ⟨ks, st₁, hmap, hks, hiff⟩ := map_spec h0 hn hseed hst
    rw [seedLoop_succ hmap] at hfound
    intro i hi hisd
    rcases Nat.eq_or_lt_of_le hi with rfl | hi
    · exact hseed
    by_cases hlen : ks.length = hashes.length
    · rw [if_pos (by simpa using hlen)] at hfound
      obtain ⟨rfl, -⟩ := Prod.mk.inj (Option.some.inj (Option.some.inj hfound))
      omega
    · rw [if_neg (by simpa using hlen)] at hfound
      refine ih hks.ready hfound (fun j hj => ?_) (by omega) i hi hisd
      rcases Nat.lt_succ_iff_lt_or_eq.1 hj with hj | rfl
      · exact hfail j hj
      · exact fun hp => hlen (hiff.2 hp)

/-- The seeds up to the one that is stored were all tried. -/
theorem uncrowded_of_tried (h0 : 1 ≤ hashes.length) (hn : hashes.length ≤ 2 ^ 30)
    (hload : TriedUncrowded mem hashes) (hbuild : xorBuild mem hashes fpSize = some (some f)) :
    ∀ seed ≤ f.seed.toNat, Uncrowded mem hashes seed := by
  obtain ⟨sd, st, hloop, rfl⟩ := exists_seed_of_xorBuild hbuild
  have hsd := (bounds_of_seedLoop hloop).2
  rw [(buildFilter_builtAt mem fpSize hn (show sd < 2 ^ 32 by omega) st).seed_eq]
  exact fun seed hseed => seedLoop_tried h0 hn (buildState_ready h0 hn) hloop
    (fun j hj => absurd hj (Nat.not_lt_zero j)) (by omega) hload seed (Nat.zero_le seed) hseed

/-- The table has the size that the header asks for. -/
theorem xorBuild_safeToUse (hfp : ValidFp fpSize) (h0 : 1 ≤ hashes.length)
    (hn : hashes.length ≤ 2 ^ 30) (hbuild : xorBuild mem hashes fpSize = some (some f)) :
    SafeToUse f := by
  obtain ⟨sd, st, hloop, rfl⟩ := exists_seed_of_xorBuild hbuild
  have hsd : sd < 2 ^ 32 := by
    have := (bounds_of_seedLoop hloop).2
    omega
  have hbuilt := buildFilter_builtAt mem fpSize hn hsd st
  refine safeToUse_iff.2 ⟨?_, ?_, ?_⟩
  · rw [hbuilt.segmentSize_eq]
    exact buildSegmentSize_pos h0 hn
  · rw [hbuilt.fpSize_eq]
    exact hfp
  · rw [hbuilt.segmentSize_eq, hbuilt.fpSize_eq]
    exact hbuilt.length_eq

end Built

/-! What one call does -/

section Call

variable {hashBuild : Bytes → UInt64} {qsort : Qsort} {mem : Memory} {redis : Redis}
  {replies : List ScanReply} {db db' : Keyspace} {argv : List Bytes} {reply : Reply}

/-- A build that has stored a filter. -/
structure Stores (hashBuild : Bytes → UInt64) (qsort : Qsort) (mem : Memory)
    (replies : List ScanReply) (db : Keyspace) (argv : List Bytes) (s : RedisSet)
    (hashes : List UInt64) (f : XorFilter) : Prop where
  argv_eq : ∃ cmd dest source bits, argv = [cmd, dest, source, bits] ∧
    db source = some (.set s)
  nonempty : s.members ≠ []
  scan : scanLoop hashBuild s.members.length replies [] = .loaded hashes
  fpSize_valid : ValidFp f.fpSize
  build : xorBuild mem (dedup (qsort.run hashes)) f.fpSize = some (some f)

theorem fpSize_of_xorBuild {hashes : List UInt64} {fpSize : FingerprintSize} {f : XorFilter}
    (h : xorBuild mem hashes fpSize = some (some f)) : f.fpSize = fpSize := by
  obtain ⟨sd, st, -, rfl⟩ := exists_seed_of_xorBuild h
  exact (buildFilter_shape mem hashes fpSize _ sd st).fpSize_eq

/-- XOR.BUILD changes nothing, or it stores what it built under one key. -/
theorem xorBuildCommand_cases
    (h : xorBuildCommand hashBuild qsort mem redis replies db argv = some (reply, db')) :
    db' = db ∨ ∃ dest s hashes f, Stores hashBuild qsort mem replies db argv s hashes f ∧
      reply = .integer s.members.length ∧
      db' = Function.update db dest (some (.xorFilter f)) := by
  rcases argv with - | ⟨cmd, - | ⟨dest, - | ⟨source, - | ⟨bits, - | ⟨_, _⟩⟩⟩⟩⟩
  · exact Or.inl (Prod.mk.inj (Option.some.inj h)).2.symm
  · exact Or.inl (Prod.mk.inj (Option.some.inj h)).2.symm
  · exact Or.inl (Prod.mk.inj (Option.some.inj h)).2.symm
  · exact Or.inl (Prod.mk.inj (Option.some.inj h)).2.symm
  · rcases hbits : admittedBits redis bits with - | fpSize
    · rw [xorBuildCommand_of_not_admitted hbits] at h
      exact Or.inl (Prod.mk.inj (Option.some.inj h)).2.symm
    rw [xorBuildCommand_of_admitted hbits] at h
    rcases hset : db source with - | s | f | -
    · rw [hset] at h
      exact Or.inl (Prod.mk.inj (Option.some.inj h)).2.symm
    · rw [hset] at h
      dsimp only at h
      split_ifs at h with hlen
      · exact Or.inl (Prod.mk.inj (Option.some.inj h)).2.symm
      rcases hscan : scanLoop hashBuild s.members.length replies [] with - | - | hashes
      · rw [hscan] at h
        exact Or.inl (Prod.mk.inj (Option.some.inj h)).2.symm
      · rw [hscan] at h
        cases h
      · rw [hscan] at h
        obtain ⟨r, hbuild, hreply⟩ := Option.map_eq_some_iff.1 h
        rcases r with - | f
        · exact Or.inl (Prod.mk.inj hreply).2.symm
        · rw [buildReply] at hreply
          split_ifs at hreply
          · have hfp := fpSize_of_xorBuild hbuild
            refine Or.inr ⟨dest, s, hashes, f, ⟨⟨cmd, dest, source, bits, rfl, hset⟩, ?_, hscan, ?_,
              ?_⟩, (Prod.mk.inj hreply).1.symm, (Prod.mk.inj hreply).2.symm⟩
            · exact fun hnil => hlen (List.length_eq_zero_iff.2 hnil)
            · rw [hfp]
              exact admittedBits_valid hbits
            · rw [hfp]
              exact hbuild
          · exact Or.inl (Prod.mk.inj hreply).2.symm
    · rw [hset] at h
      exact Or.inl (Prod.mk.inj (Option.some.inj h)).2.symm
    · rw [hset] at h
      exact Or.inl (Prod.mk.inj (Option.some.inj h)).2.symm
  · exact Or.inl (Prod.mk.inj (Option.some.inj h)).2.symm

/-- XOR.LOADCHUNK changes nothing, or it stores what its payload says. -/
theorem xorLoadChunkCommand_cases
    (h : xorLoadChunkCommand redis db argv = (reply, db')) :
    db' = db ∨ ∃ cmd name cursor data f, argv = [cmd, name, cursor, data] ∧
      loadChunk data = .ok f ∧ reply = .simpleString "OK" ∧
      db' = Function.update db name (some (.xorFilter f)) := by
  unfold xorLoadChunkCommand at h
  split at h
  next cmd name cursor data =>
    split_ifs at h with hcursor
    · exact Or.inl (Prod.mk.inj h).2.symm
    · split at h
      · exact Or.inl (Prod.mk.inj h).2.symm
      next f hload =>
        exact Or.inr ⟨cmd, name, cursor, data, f, rfl, hload, (Prod.mk.inj h).1.symm,
          (Prod.mk.inj h).2.symm⟩
  · exact Or.inl (Prod.mk.inj h).2.symm

theorem mem_of_update {key name : Bytes} {value : Option RedisValue} {f : XorFilter}
    (h : Function.update db name value key = some (.xorFilter f)) :
    db key = some (.xorFilter f) ∨ value = some (.xorFilter f) := by
  by_cases hkey : key = name
  · subst hkey
    rw [Function.update_self] at h
    exact Or.inr h
  · rw [Function.update_of_ne hkey] at h
    exact Or.inl h

/-- Where a filter that is stored after a call comes from. -/
inductive Origin (hashBuild : Bytes → UInt64) (qsort : Qsort) (db : Keyspace) (f : XorFilter) :
    Event → Reply → Prop
  | kept {event : Event} {reply : Reply} (key : Bytes) (stored : db key = some (.xorFilter f)) :
      Origin hashBuild qsort db f event reply
  | built {mem : Memory} {replies : List CallReply} {argv : List Bytes} {s : RedisSet}
      {hashes : List UInt64}
      (stores : Stores hashBuild qsort mem (replies.map CallReply.view) db argv s hashes f) :
      Origin hashBuild qsort db f (.xorBuild mem replies argv) (.integer s.members.length)
  | loaded {cmd name cursor data : Bytes} {reply : Reply} (load : loadChunk data = .ok f) :
      Origin hashBuild qsort db f (.xorLoadChunk [cmd, name, cursor, data]) reply

theorem execute_origin {event : Event}
    (h : execute hashBuild qsort redis db event = some (reply, db')) {key : Bytes} {f : XorFilter}
    (hf : db' key = some (.xorFilter f)) : Origin hashBuild qsort db f event reply := by
  cases event with
  | xorBuild mem replies argv =>
    rcases xorBuildCommand_cases h with rfl | ⟨dest, s, hashes, g, hstores, rfl, rfl⟩
    · exact .kept key hf
    · rcases mem_of_update hf with hf | hf
      · exact .kept key hf
      · obtain rfl : g = f := by simpa using hf
        exact .built hstores
  | xorInfo argv =>
    obtain ⟨-, rfl⟩ := Prod.mk.inj (Option.some.inj h)
    exact .kept key hf
  | xorExists argv =>
    obtain ⟨reply, -, hreply⟩ := Option.map_eq_some_iff.1 h
    obtain ⟨-, rfl⟩ := Prod.mk.inj hreply
    exact .kept key hf
  | xorScanDump mem argv =>
    obtain ⟨-, rfl⟩ := Prod.mk.inj (Option.some.inj h)
    exact .kept key hf
  | xorLoadChunk argv =>
    rcases xorLoadChunkCommand_cases (Option.some.inj h) with
      rfl | ⟨cmd, name, cursor, data, g, rfl, hload, -, rfl⟩
    · exact .kept key hf
    · rcases mem_of_update hf with hf | hf
      · exact .kept key hf
      · obtain rfl : g = f := by simpa using hf
        exact .loaded hload
  | write name value =>
    obtain ⟨-, rfl⟩ := Prod.mk.inj (Option.some.inj h)
    rcases mem_of_update hf with hf | hf
    · exact .kept key hf
    · rcases value with _ | _ | _ <;> cases hf
  | rename name newName =>
    obtain ⟨-, rfl⟩ := Prod.mk.inj (Option.some.inj h)
    split at hf
    · exact .kept key hf
    next value hvalue =>
      rcases mem_of_update hf with hf | hf
      · rcases mem_of_update hf with hf | hf
        · exact .kept key hf
        · cases hf
      · exact .kept name (hvalue.trans hf)

/-- A call that is answered with an error has changed nothing. -/
theorem execute_of_error {event : Event} {msg : String}
    (h : execute hashBuild qsort redis db event = some (.error msg, db')) : db' = db := by
  cases event with
  | xorBuild mem replies argv =>
    rcases xorBuildCommand_cases h with rfl | ⟨_, _, _, _, _, hreply, _⟩
    · rfl
    · cases hreply
  | xorLoadChunk argv =>
    rcases xorLoadChunkCommand_cases (Option.some.inj h) with rfl | ⟨_, _, _, _, _, _, _, hreply, _⟩
    · rfl
    · cases hreply
  | rename name newName =>
    have hrename : redisRename db name newName = (.error msg, db') := Option.some.inj h
    unfold redisRename at hrename
    split at hrename
    · exact (Prod.mk.inj hrename).2.symm
    · cases hrename
  | write name value => cases h
  | xorInfo argv => exact (Prod.mk.inj (Option.some.inj h)).2.symm
  | xorExists argv =>
    obtain ⟨reply, -, hreply⟩ := Option.map_eq_some_iff.1 h
    exact (Prod.mk.inj hreply).2.symm
  | xorScanDump mem argv => exact (Prod.mk.inj (Option.some.inj h)).2.symm

end Call

end RedisXor
