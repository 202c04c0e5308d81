import RedisXor.Proofs.Determinism

/-! `XOR.SCANDUMP` and `XOR.LOADCHUNK` are inverse to each other on every filter
that either command or `XOR.BUILD` can have stored. The copy can be trusted as
far as the original. -/

namespace RedisXor

open LittleEndian

/-- What both commands rely on: one of the four widths, and a table of the
length they compute. -/
structure DumpWf (f : XorFilter) : Prop where
  fpSize_valid : ValidFp f.fpSize
  length_eq : f.fingerprints.length = getFingerprintsBytes f.fpSize (slotCount f)

theorem Accepted.dumpWf {data : Bytes} {f : XorFilter} (h : Accepted data f) : DumpWf f :=
  ⟨h.fpSize_valid, h.length_fingerprints⟩

/-- Neither side of the header depends on memory when the table is as long as
it should be. -/
theorem dumpBytes_eq {f : XorFilter} (hf : DumpWf f) (mem : Memory) : dumpBytes mem f =
    bytesLE 4 f.segmentSize.toNat ++ bytesLE 4 f.seed.toNat ++ bytesLE 4 f.fpSize.toNat ++
      bytesLE 4 f.reallocations.toNat ++ f.fingerprints := by
  simp only [dumpBytes]
  rw [← slotCount, ← hf.length_eq, readBuffer_length]

theorem ofNat_mod (x : UInt32) : UInt32.ofNat (x.toNat % 256 ^ 4) = x := by
  apply UInt32.toNat_inj.1
  have := x.toNat_lt
  rw [UInt32.toNat_ofNat']
  omega

/-- Every dump is accepted, and gives the filter back. -/
theorem loadChunk_dumpBytes {f : XorFilter} (hf : DumpWf f) (mem : Memory) :
    loadChunk (dumpBytes mem f) = .ok f := by
  rw [loadChunk_eq_ok_iff, dumpBytes_eq hf]
  have h0 := readLE_field 4 [] (bytesLE 4 f.seed.toNat ++ (bytesLE 4 f.fpSize.toNat ++
    (bytesLE 4 f.reallocations.toNat ++ f.fingerprints))) f.segmentSize.toNat
  have h4 := readLE_field 4 (bytesLE 4 f.segmentSize.toNat) (bytesLE 4 f.fpSize.toNat ++
    (bytesLE 4 f.reallocations.toNat ++ f.fingerprints)) f.seed.toNat
  have h8 := readLE_field 4 (bytesLE 4 f.segmentSize.toNat ++ bytesLE 4 f.seed.toNat)
    (bytesLE 4 f.reallocations.toNat ++ f.fingerprints) f.fpSize.toNat
  have h12 := readLE_field 4 (bytesLE 4 f.segmentSize.toNat ++ bytesLE 4 f.seed.toNat ++
    bytesLE 4 f.fpSize.toNat) f.fingerprints f.reallocations.toNat
  simp only [List.length_append, length_bytesLE, List.append_assoc, List.nil_append,
    List.length_nil] at h0 h4 h8 h12
  simp only [List.append_assoc]
  refine ⟨?_, ?_, ?_, ?_, hf.fpSize_valid, ?_, ?_⟩
  · rw [h0, ofNat_mod]
  · rw [h4, ofNat_mod]
  · rw [h8, ofNat_mod]
  · rw [h12, ofNat_mod]
  · rw [← hf.length_eq]
    simp only [List.length_append, length_bytesLE]
    omega
  · simp only [← List.append_assoc]
    exact (List.drop_left' (by simp only [List.length_append, length_bytesLE])).symm

/-- An accepted payload is what the filter is dumped as. -/
theorem dumpBytes_loadChunk {data : Bytes} {f : XorFilter} (h : loadChunk data = .ok f)
    (mem : Memory) : dumpBytes mem f = data := by
  have hacc := loadChunk_eq_ok_iff.1 h
  have hlen := hacc.length_eq
  have hread (off : ℕ) : (UInt32.ofNat (readLE 4 data off)).toNat = readLE 4 data off :=
    UInt32.toNat_ofNat_of_lt' (readLE_lt 4 data off)
  rw [dumpBytes_eq hacc.dumpWf, hacc.segmentSize_eq, hacc.seed_eq, hacc.fpSize_eq,
    hacc.reallocations_eq, hacc.fingerprints_eq, hread, hread, hread, hread,
    bytesLE_readLE 4 data 0 (by omega), bytesLE_readLE 4 data 4 (by omega),
    bytesLE_readLE 4 data 8 (by omega), bytesLE_readLE 4 data 12 (by omega)]
  have hsplit (i : ℕ) : (data.drop i).take 4 ++ data.drop (i + 4) = data.drop i := by
    rw [← List.drop_drop, List.take_append_drop]
  simp only [List.append_assoc]
  rw [hsplit 12, hsplit 8, hsplit 4, hsplit 0, List.drop_zero]

/-! Filters that the commands have stored -/

theorem xorBuild_dumpWf {mem : Memory} {hashes : List UInt64} {fpSize : FingerprintSize}
    {f : XorFilter} (hfp : ValidFp fpSize) (hbuild : xorBuild mem hashes fpSize = some (some f))
    (hs : 3 * f.segmentSize.toNat < 2 ^ 32 - 1) : DumpWf f := by
  obtain ⟨sd, st, -, rfl⟩ := exists_seed_of_xorBuild hbuild
  have hshape := buildFilter_shape mem hashes fpSize (buildSegmentSize hashes.length) sd st
  have hsize : (buildFilter mem hashes fpSize (buildSegmentSize hashes.length) sd
      st).segmentSize.toNat = buildSegmentSize hashes.length :=
    (congrArg UInt32.toNat hshape.segmentSize_eq).trans
      (UInt32.toNat_ofNat_of_lt' (Nat.mod_lt _ (by decide)))
  rw [hsize] at hs
  have hfits : SizeFits fpSize (buildSegmentSize hashes.length) := ⟨by omega, fun h => by omega⟩
  have hfpf : (buildFilter mem hashes fpSize (buildSegmentSize hashes.length) sd st).fpSize =
      fpSize := hshape.fpSize_eq
  refine ⟨by rw [hfpf]; exact hfp, ?_⟩
  rw [slotCount, hsize, hfpf, (getFingerprintsBytes_eq_iff hfp).2 hfits, Nat.mul_comm]
  exact hshape.length_eq.trans (length_blankFilter fpSize (by omega) sd st)

/-- `key` holds a filter that `XOR.BUILD` or `XOR.LOADCHUNK` has put there. -/
inductive StoredBy (db : Keyspace) (key : Bytes) (f : XorFilter) : Prop
  | build {hashBuild : Bytes → UInt64} {qsort : Qsort} {mem : Memory} {redis : Redis}
      {replies : List ScanReply} {db₀ : Keyspace} {cmd source bits : Bytes} {k : ℤ}
      (run : xorBuildCommand hashBuild qsort mem redis replies db₀ [cmd, key, source, bits] =
        some (.integer k, db))
      (stored : db key = some (.xorFilter f)) (segmentSize_pos : 1 ≤ f.segmentSize.toNat)
      (segmentSize_lt : 3 * f.segmentSize.toNat < 2 ^ 32 - 1)
  | loadChunk {redis : Redis} {db₀ : Keyspace} {cmd cursor data : Bytes}
      (run : xorLoadChunkCommand redis db₀ [cmd, key, cursor, data] = (.simpleString "OK", db))
      (stored : db key = some (.xorFilter f))

theorem StoredBy.eq_some {db : Keyspace} {key : Bytes} {f : XorFilter} (h : StoredBy db key f) :
    db key = some (.xorFilter f) := by
  cases h with
  | build _ stored _ _ => exact stored
  | loadChunk _ stored => exact stored

theorem update_xorFilter_inj {db : Keyspace} {key : Bytes} {f g : XorFilter}
    (h : Function.update db key (some (.xorFilter f)) key = some (.xorFilter g)) : f = g := by
  rw [Function.update_self, Option.some.injEq, RedisValue.xorFilter.injEq] at h
  exact h

theorem StoredBy.dumpWf {db : Keyspace} {key : Bytes} {f : XorFilter} (h : StoredBy db key f) :
    DumpWf f := by
  cases h with
  | build run stored _ segmentSize_lt =>
    obtain ⟨_, _, _, _, _, _, g, hargv, hfp, hbuild, rfl⟩ := xorBuildCommand_integer run
    simp only [List.cons.injEq, and_true] at hargv
    obtain ⟨-, rfl, -, -⟩ := hargv
    obtain rfl := update_xorFilter_inj stored
    exact xorBuild_dumpWf hfp hbuild segmentSize_lt
  | loadChunk run stored =>
    obtain ⟨_, _, _, _, g, hargv, -, hload, rfl⟩ := xorLoadChunkCommand_ok run
    simp only [List.cons.injEq, and_true] at hargv
    obtain ⟨-, rfl, -, -⟩ := hargv
    obtain rfl := update_xorFilter_inj stored
    exact (loadChunk_eq_ok_iff.1 hload).dumpWf

theorem xorScanDumpCommand_of_stored {db : Keyspace} {key cursor : Bytes} {f : XorFilter}
    {redis : Redis} (h : db key = some (.xorFilter f))
    (hc : redis.stringToLongLong cursor = some 0) (mem : Memory) (cmd : Bytes) :
    xorScanDumpCommand mem redis db [cmd, key, cursor] =
      .array [.integer 0, .stringBuffer (dumpBytes mem f)] := by
  rw [xorScanDumpCommand, if_neg (not_not.2 hc), h]

/-- XOR.EXISTS has an answer for every item, and the same under both keys. -/
def AnswerAlike (db : Keyspace) (key : Bytes) (db' : Keyspace) (key' : Bytes) : Prop :=
  ∀ cmd item, ∃ reply, xorExistsCommand hashBuild db [cmd, key, item] = some reply ∧
    xorExistsCommand hashBuild db' [cmd, key', item] = some reply

theorem xorExistsCommand_of_stored {hashBuild : Bytes → UInt64} {db : Keyspace} {key : Bytes}
    {f : XorFilter} (h : db key = some (.xorFilter f)) (cmd item : Bytes) :
    xorExistsCommand hashBuild db [cmd, key, item] =
      (xorCheck hashBuild f item).map fun found => .integer (if found then 1 else 0) := by
  simp only [xorExistsCommand, h]

/-- Of one filter under two keys, where its lookups are defined. -/
theorem answerAlike_iff {db db' : Keyspace} {key key' : Bytes} {f : XorFilter}
    (h : db key = some (.xorFilter f)) (h' : db' key' = some (.xorFilter f)) (hf : DumpWf f) :
    AnswerAlike db key db' key' ↔
      1 ≤ f.segmentSize.toNat ∧ SizeFits f.fpSize f.segmentSize.toNat := by
  rw [← checkSafe_iff hf.fpSize_valid hf.length_eq]
  constructor
  · intro hall item
    obtain ⟨reply, hreply, -⟩ := hall [] item
    rw [xorExistsCommand_of_stored h, Option.map_eq_some_iff] at hreply
    obtain ⟨found, hfound, -⟩ := hreply
    exact xorCheck_isSome_iff.1 (by rw [hfound]; rfl)
  · intro hsafe cmd item
    obtain ⟨found, hfound⟩ := Option.isSome_iff_exists.1 (xorCheck_isSome_iff.2 (hsafe item))
    refine ⟨.integer (if found then 1 else 0), ?_, ?_⟩
    · rw [xorExistsCommand_of_stored h, hfound, Option.map_some]
    · rw [xorExistsCommand_of_stored h', hfound, Option.map_some]

/-- The two commands are inverse to each other. The first part is about the
stored filters: the copy is the same filter, byte for byte, and answers alike
exactly when lookups in it stay inside the table. The second part is about the
accepted payloads. -/
theorem scanDump_loadChunk_inverse (redis : Redis) :
    (∀ db key f, StoredBy db key f → ∀ cursor, redis.stringToLongLong cursor = some 0 →
      ∀ mem cmd, ∃ data,
        xorScanDumpCommand mem redis db [cmd, key, cursor] =
          .array [.integer 0, .stringBuffer data] ∧
        ∀ db₁ key₁ cmd₁, ∃ db₂,
          xorLoadChunkCommand redis db₁ [cmd₁, key₁, cursor, data] = (.simpleString "OK", db₂) ∧
          db₂ key₁ = some (.xorFilter f) ∧
          (∀ hash cmd item reply, xorExistsCommand hash db₂ [cmd, key₁, item] = some reply ↔
            xorExistsCommand hash db [cmd, key, item] = some reply) ∧
          (AnswerAlike db key db₂ key₁ ↔
            1 ≤ f.segmentSize.toNat ∧ SizeFits f.fpSize f.segmentSize.toNat) ∧
          ∀ cmd, xorInfoCommand db₂ [cmd, key₁] = xorInfoCommand db [cmd, key]) ∧
    ∀ db₀ db key cmd cursor data,
      xorLoadChunkCommand redis db₀ [cmd, key, cursor, data] = (.simpleString "OK", db) →
      ∀ mem cmd₁ cursor₁, redis.stringToLongLong cursor₁ = some 0 →
        xorScanDumpCommand mem redis db [cmd₁, key, cursor₁] =
          .array [.integer 0, .stringBuffer data] := by
  constructor
  · intro db key f hstored cursor hc mem cmd
    have hdb := hstored.eq_some
    refine ⟨dumpBytes mem f, xorScanDumpCommand_of_stored hdb hc mem cmd, fun db₁ key₁ cmd₁ => ?_⟩
    have hself : Function.update db₁ key₁ (some (.xorFilter f)) key₁ = some (.xorFilter f) :=
      Function.update_self _ _ _
    refine ⟨_, xorLoadChunkCommand_of_ok db₁ hc (loadChunk_dumpBytes hstored.dumpWf mem), hself,
      fun hash cmd item reply => ?_, answerAlike_iff hdb hself hstored.dumpWf, fun cmd => ?_⟩
    · rw [xorExistsCommand_of_stored hself, xorExistsCommand_of_stored hdb]
    · simp only [xorInfoCommand, hself, hdb]
  · intro db₀ db key cmd cursor data hrun mem cmd₁ cursor₁ hc
    obtain ⟨_, _, _, _, f, hargv, -, hload, rfl⟩ := xorLoadChunkCommand_ok hrun
    simp only [List.cons.injEq, and_true] at hargv
    obtain ⟨-, rfl, -, rfl⟩ := hargv
    rw [xorScanDumpCommand_of_stored (Function.update_self _ _ _) hc, dumpBytes_loadChunk hload]

/-- A filter of one segment is dumped and loaded under a second key. -/
theorem scanDump_loadChunk_one_segment :
    let db := (xorLoadChunkCommand digitRedis (fun _ => none)
      [[], [107], [48], payload 1 4 [7, 1]]).2
    ∃ data, xorScanDumpCommand default digitRedis db [[], [107], [48]] =
        .array [.integer 0, .stringBuffer data] ∧ data = payload 1 4 [7, 1] ∧
      ∃ db₂, xorLoadChunkCommand digitRedis db [[], [108], [48], data] =
          (.simpleString "OK", db₂) ∧ AnswerAlike db [107] db₂ [108] := by
  intro db
  have hrun : xorLoadChunkCommand digitRedis (fun _ => none)
      [[], [107], [48], payload 1 4 [7, 1]] = (.simpleString "OK", db) := rfl
  obtain ⟨hdump, hload⟩ := scanDump_loadChunk_inverse digitRedis
  obtain ⟨data, hdata, hagain⟩ := hdump db [107] _ (.loadChunk hrun rfl) [48] rfl default []
  obtain ⟨db₂, hrun₂, -, -, halike, -⟩ := hagain db [108] []
  have hback := hload _ db [107] [] [48] _ hrun default [] [48] rfl
  refine ⟨data, hdata, ?_, db₂, hrun₂,
    halike.2 ⟨by decide +kernel, by decide +kernel, by decide +kernel⟩⟩
  rw [hdata] at hback
  simpa using hback

/-- 18 bytes whose segment size makes the cut slot count two. -/
def wrappedPayload : Bytes := payload 0x55555556 8 [1, 2]

def wrappedFilter : XorFilter := ⟨[1, 2], 0x55555556, 0, 8, 0⟩

theorem loadChunk_wrappedPayload : loadChunk wrappedPayload = .ok wrappedFilter := rfl

/-- The copy is the same filter, but some item has no answer, because a slot of it
lies behind the two bytes of the tables. -/
theorem scanDump_loadChunk_unanswered :
    ∃ db db₂,
      xorLoadChunkCommand digitRedis (fun _ => none) [[], [107], [48], wrappedPayload] =
        (.simpleString "OK", db) ∧
      xorScanDumpCommand default digitRedis db [[], [107], [48]] =
        .array [.integer 0, .stringBuffer wrappedPayload] ∧
      xorLoadChunkCommand digitRedis db [[], [108], [48], wrappedPayload] =
        (.simpleString "OK", db₂) ∧
      ¬ AnswerAlike db [107] db₂ [108] := by
  have hzero : digitRedis.stringToLongLong [48] = some 0 := rfl
  refine ⟨_, _, xorLoadChunkCommand_of_ok _ hzero loadChunk_wrappedPayload, ?_,
    xorLoadChunkCommand_of_ok _ hzero loadChunk_wrappedPayload, fun halike => ?_⟩
  · rw [xorScanDumpCommand_of_stored (Function.update_self _ _ _) hzero,
      dumpBytes_loadChunk loadChunk_wrappedPayload]
  · have hwf := (loadChunk_eq_ok_iff.1 loadChunk_wrappedPayload).dumpWf
    have hfits := (answerAlike_iff (Function.update_self _ _ _) (Function.update_self _ _ _)
      hwf).1 halike
    exact absurd hfits.2.1 (by decide +kernel)

end RedisXor
