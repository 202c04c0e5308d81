import RedisXor.Lib.Runs
import RedisXor.Proofs.Calls

/-! Whole runs of the server, in which commands of the module and of Redis
itself follow one another in any order. What a run can be trusted with depends
on what its clients hand to `XOR.LOADCHUNK`. -/

namespace RedisXor

open Refinement Runs

/-- The calls of a run, each with the keyspace it found. -/
abbrev Log := List (Entry Keyspace Event Reply)

/-- A run of the server from the empty keyspace, by clients with a discipline. -/
def ServerRun (hashBuild : Bytes → UInt64) (qsort : Qsort) (redis : Redis)
    (Allowed : Log → Keyspace → Event → Prop) : Log → Keyspace → Prop :=
  Run (execute hashBuild qsort redis) Allowed fun _ => none

/-- A scan that ends without a failure has kept the promise of `SSCAN`. -/
def FullScans (hashBuild : Bytes → UInt64) (db : Keyspace) : Event → Prop
  | .xorBuild _ replies [_, _, source, _] => ∀ s hashes, db source = some (.set s) →
    scanLoop hashBuild s.members.length (replies.map CallReply.view) [] = .loaded hashes →
    Covers s (replies.map CallReply.view) ∧ s.members.length ≤ 2 ^ 30
  | _ => True

/-- A payload that is accepted has a segment, and its slot count fits. -/
def PayloadFits : Event → Prop
  | .xorLoadChunk [_, _, _, data] => ∀ f, loadChunk data = .ok f →
    1 ≤ f.segmentSize.toNat ∧ SizeFits f.fpSize f.segmentSize.toNat
  | _ => True

/-- No seed that the build tries crowds a bucket. -/
def UncrowdedBuilds (hashBuild : Bytes → UInt64) (qsort : Qsort) (db : Keyspace) : Event → Prop
  | .xorBuild mem replies [_, _, source, _] => ∀ s hashes, db source = some (.set s) →
    scanLoop hashBuild s.members.length (replies.map CallReply.view) [] = .loaded hashes →
    TriedUncrowded mem (dedup (qsort.run hashes))
  | _ => True

/-- A call after which nothing undefined has happened. -/
structure Fair (hashBuild : Bytes → UInt64) (qsort : Qsort) (db : Keyspace) (event : Event) :
    Prop where
  scans : FullScans hashBuild db event
  fits : PayloadFits event
  uncrowded : UncrowdedBuilds hashBuild qsort db event

/-- The server, in the hands of clients that make fair calls. -/
def fairMachine (hashBuild : Bytes → UInt64) (qsort : Qsort) (redis : Redis) :
    Machine Keyspace Event (Option Reply) :=
  (serverMachine hashBuild qsort redis).restrict (Fair hashBuild qsort)

theorem serverMachine_step {hashBuild : Bytes → UInt64} {qsort : Qsort} {redis : Redis}
    {db db' : Keyspace} {event : Event} {reply : Reply}
    (hrun : execute hashBuild qsort redis db event = some (reply, db')) :
    (serverMachine hashBuild qsort redis).step db event = (some reply, db') := by
  simp only [serverMachine, hrun]

theorem fairMachine_admits_cons {hashBuild : Bytes → UInt64} {qsort : Qsort} {redis : Redis}
    {db db' : Keyspace} {event : Event} {events : List Event} {reply : Reply}
    (hfair : Fair hashBuild qsort db event)
    (hrun : execute hashBuild qsort redis db event = some (reply, db'))
    (hrest : (fairMachine hashBuild qsort redis).Admits db' events) :
    (fairMachine hashBuild qsort redis).Admits db (event :: events) := by
  have hstep : ((fairMachine hashBuild qsort redis).step db event).2 = db' :=
    congrArg Prod.snd (serverMachine_step hrun)
  refine ⟨⟨?_, hfair⟩, by rwa [hstep]⟩
  simp only [serverMachine, hrun, Option.isSome_some]

/-! Clients that load only what the server has dumped -/

/-- A build whose scan delivers each member once, from a set that no seed tried
crowds into one bucket. -/
structure CleanBuild (hashBuild : Bytes → UInt64) (qsort : Qsort) (mem : Memory) (s : RedisSet)
    (replies : List ScanReply) : Prop where
  delivers : DeliversOnce s replies
  length_le : s.members.length ≤ 2 ^ 30
  uncrowded : TriedUncrowded mem (memberHashes hashBuild qsort s)

def CleanBuilds (hashBuild : Bytes → UInt64) (qsort : Qsort) (db : Keyspace) : Event → Prop
  | .xorBuild mem replies [_, _, source, _] => ∀ s, db source = some (.set s) →
    CleanBuild hashBuild qsort mem s (replies.map CallReply.view)
  | _ => True

/-- `data` was the reply to an earlier `XOR.SCANDUMP`, of whatever key. -/
def Dumped (log : Log) (data : Bytes) : Prop :=
  ∃ entry ∈ log, (∃ mem argv, entry.call = .xorScanDump mem argv) ∧
    entry.answer = .array [.integer 0, .stringBuffer data]

def PayloadDumped (log : Log) : Event → Prop
  | .xorLoadChunk [_, _, _, data] => Dumped log data
  | _ => True

/-- All of it together. -/
def Careful (hashBuild : Bytes → UInt64) (qsort : Qsort) (log : Log) (db : Keyspace)
    (event : Event) : Prop :=
  (CleanBuilds hashBuild qsort db event ∧ PayloadDumped log event) ∧ Fair hashBuild qsort db event

/-! A run of careful clients -/

theorem threeMembers_delivered : DeliversOnce threeMembers [.batch 0 [[97], [98], [99]]] :=
  ⟨.last _, List.Perm.refl _⟩

theorem threeFilter_dumpWf : DumpWf threeFilter :=
  xorBuild_dumpWf (Or.inr (Or.inl rfl)) (xorBuild_threeMembers default) (by decide)

theorem execute_threeMembers (mem : Memory) {db : Keyspace}
    (hset : db [115] = some (.set threeMembers)) :
    execute hashBuild insertionQsort digitRedis db
        (.xorBuild mem [.array 0 [[97], [98], [99]]] [[0], [100], [115], [56]]) =
      some (.integer 3, Function.update db [100] (some (.xorFilter threeFilter))) := by
  have hbits : admittedBits digitRedis [56] = some FP8 := rfl
  change xorBuildCommand hashBuild insertionQsort mem digitRedis
    [.batch 0 [[97], [98], [99]]] db [[0], [100], [115], [56]] = _
  rw [xorBuildCommand_of_deliversOnce hashBuild insertionQsort insertionQsort mem hbits hset
    (List.cons_ne_nil _ _) threeMembers_delivered, xorBuild_threeMembers]
  rfl

theorem careful_build (mem : Memory) {db : Keyspace}
    (hset : db [115] = some (.set threeMembers)) (log : Log) :
    Careful hashBuild insertionQsort log db
      (.xorBuild mem [.array 0 [[97], [98], [99]]] [[0], [100], [115], [56]]) := by
  have hthree (s : RedisSet) (h : db [115] = some (.set s)) : s = threeMembers := by
    rw [hset, Option.some.injEq, RedisValue.set.injEq] at h
    exact h.symm
  have honce := threeMembers_delivered
  refine ⟨⟨fun s h => ?_, trivial⟩, fun s hashes h _ => ?_, trivial, fun s hashes h hscan => ?_⟩
  · obtain rfl := hthree s h
    exact ⟨honce, by decide, threeMembers_uncrowded mem⟩
  · obtain rfl := hthree s h
    exact ⟨⟨honce.full, fun x => Iff.rfl⟩, by decide⟩
  · obtain rfl := hthree s h
    obtain rfl := ScanResult.loaded.inj ((scanLoop_deliversOnce hashBuild honce).symm.trans hscan)
    exact threeMembers_uncrowded mem

/-- The dump of the filter, loaded under a second key. -/
theorem execute_threeFilter (db : Keyspace) :
    execute hashBuild insertionQsort digitRedis db
        (.xorLoadChunk [[0], [101], [48], dumpBytes default threeFilter]) =
      some (.simpleString "OK", Function.update db [101] (some (.xorFilter threeFilter))) :=
  congrArg some (xorLoadChunkCommand_of_ok db rfl (loadChunk_dumpBytes threeFilter_dumpWf default))

theorem fair_threeFilter (db : Keyspace) : Fair hashBuild insertionQsort db
    (.xorLoadChunk [[0], [101], [48], dumpBytes default threeFilter]) := by
  refine ⟨trivial, fun f hf => ?_, trivial⟩
  obtain rfl := Except.ok.inj ((loadChunk_dumpBytes threeFilter_dumpWf default).symm.trans hf)
  exact ⟨by decide, by decide, fun h => absurd h.2 (by decide)⟩

/-- A set of three members is written, a filter is built from it, dumped, and
loaded under a second key. -/
theorem exists_careful_run : ∃ log db,
    ServerRun hashBuild insertionQsort digitRedis (Careful hashBuild insertionQsort) log db ∧
      db [101] = some (.xorFilter threeFilter) := by
  let db₁ : Keyspace := redisWrite (fun _ => none) [115] (some (.set threeMembers))
  let db₂ : Keyspace := Function.update db₁ [100] (some (.xorFilter threeFilter))
  have hsource : db₁ [115] = some (.set threeMembers) := rfl
  have hstored : db₂ [100] = some (.xorFilter threeFilter) := Function.update_self _ _ _
  have hzero : digitRedis.stringToLongLong [48] = some 0 := rfl
  have hfree (log : Log) (db : Keyspace) (event : Event)
      (h : event = .write [115] (some (.set threeMembers)) ∨
        event = .xorScanDump default [[0], [100], [48]]) :
      Careful hashBuild insertionQsort log db event := by
    rcases h with rfl | rfl <;> exact ⟨⟨trivial, trivial⟩, trivial, trivial, trivial⟩
  have hloads (log : Log) (hmem : Dumped log (dumpBytes default threeFilter)) :
      Careful hashBuild insertionQsort log db₂
        (.xorLoadChunk [[0], [101], [48], dumpBytes default threeFilter]) :=
    ⟨⟨trivial, hmem⟩, fair_threeFilter db₂⟩
  have run₁ : ServerRun hashBuild insertionQsort digitRedis (Careful hashBuild insertionQsort)
      _ db₁ := .snoc .nil (hfree _ _ _ (Or.inl rfl)) rfl
  have run₂ := Run.snoc run₁ (careful_build default hsource _)
    (execute_threeMembers default hsource)
  have run₃ := Run.snoc run₂ (hfree _ _ _ (Or.inr rfl))
    (congrArg (fun reply => some (reply, db₂)) (xorScanDumpCommand_of_stored hstored hzero _ [0]))
  have run₄ := Run.snoc run₃
    (hloads _ ⟨_, List.mem_append_right _ List.mem_cons_self, ⟨default, _, rfl⟩, rfl⟩)
    (execute_threeFilter db₂)
  exact ⟨_, _, run₄, Function.update_self _ _ _⟩

/-! Safety -/

theorem length_dedup_le {orig : List UInt64} (hsort : orig.Pairwise (· ≤ ·)) :
    (dedup orig).length ≤ orig.length :=
  (List.length_take_le' _ _).trans (Nat.le_of_eq (dedup_inv hsort).length_eq)

theorem scanned_length_le {hashBuild : Bytes → UInt64} {n : ℕ} {replies : List ScanReply}
    {hashes : List UInt64} (hfull : FullScan replies)
    (hscan : scanLoop hashBuild n replies [] = .loaded hashes) : hashes.length ≤ n := by
  rw [scanLoop_nil hashBuild n hfull, ScanResult.loaded.injEq] at hscan
  rw [← hscan, List.length_map]
  exact List.length_take_le _ _

theorem scanned_bounds {hashBuild : Bytes → UInt64} (qsort : Qsort) {s : RedisSet}
    {replies : List ScanReply} {hashes : List UInt64} (hcover : Covers s replies)
    (hne : s.members ≠ [])
    (hscan : scanLoop hashBuild s.members.length replies [] = .loaded hashes) :
    1 ≤ (dedup (qsort.run hashes)).length ∧
      (dedup (qsort.run hashes)).length ≤ s.members.length := by
  have hlen := scanned_length_le hcover.full hscan
  rw [scanLoop_nil hashBuild _ hcover.full, ScanResult.loaded.injEq] at hscan
  subst hscan
  constructor
  · obtain ⟨m, hm⟩ := List.exists_mem_of_ne_nil _ hne
    have hdelivered := List.length_pos_of_mem ((hcover.mem_iff m).2 hm)
    have hmembers := List.length_pos_of_mem hm
    have hloaded : 0 < (((delivered replies).take s.members.length).map hashBuild).length := by
      rw [List.length_map, List.length_take]
      omega
    obtain ⟨a, ha⟩ := List.exists_mem_of_length_pos hloaded
    exact List.length_pos_of_mem ((mem_dedup_qsort qsort _ a).2 ha)
  · refine (length_dedup_le (qsort.pairwise_le _)).trans ?_
    rwa [(qsort.perm _).length_eq]

/-- All filters that are stored are safe to use. -/
def StoredSafe (db : Keyspace) : Prop := ∀ key f, db key = some (.xorFilter f) → SafeToUse f

theorem StoredSafe.execute {hashBuild : Bytes → UInt64} {qsort : Qsort} {redis : Redis}
    {db db' : Keyspace} {event : Event} {reply : Reply} (h : StoredSafe db)
    (hscans : FullScans hashBuild db event) (hfits : PayloadFits event)
    (hrun : execute hashBuild qsort redis db event = some (reply, db')) : StoredSafe db' := by
  intro key f hf
  cases execute_origin hrun hf with
  | kept key hstored => exact h key f hstored
  | built hstores =>
    obtain ⟨⟨cmd, dest, source, bits, rfl, hset⟩, hne, hscan, hfp, hbuild⟩ := hstores
    obtain ⟨hcover, hmax⟩ := hscans _ _ hset hscan
    obtain ⟨h0, hle⟩ := scanned_bounds qsort hcover hne hscan
    exact xorBuild_safeToUse hfp h0 (hle.trans hmax) hbuild
  | loaded hload =>
    have hacc := loadChunk_eq_ok_iff.1 hload
    obtain ⟨hpos, hsize⟩ := hfits f hload
    refine safeToUse_iff.2 ⟨hpos, hacc.fpSize_valid, ?_⟩
    rw [hacc.length_fingerprints, slotCount, (getFingerprintsBytes_eq_iff hacc.fpSize_valid).2
      hsize, Nat.mul_comm]

/-- After every run of fair calls every stored filter can be looked up, dumped
and saved without a division by zero and inside its table, wherever it came from
and however often it was renamed. -/
theorem stored_filters_safe {hashBuild : Bytes → UInt64} {qsort : Qsort} {redis : Redis} {log : Log}
    {db : Keyspace} (h : ServerRun hashBuild qsort redis (fun _ => Fair hashBuild qsort) log db)
    {key : Bytes} {f : XorFilter} (hf : db key = some (.xorFilter f)) : SafeToUse f := by
  have hinv : StoredSafe db := by
    refine Run.inv (I := fun _ => StoredSafe) (fun key f hf => by cases hf) ?_ h
    rintro log db db' event reply ih hfair hrun
    exact ih.execute hfair.scans hfair.fits hrun
  exact hinv key f hf

theorem stored_filters_safe_copy : ∃ log db,
    ServerRun hashBuild insertionQsort digitRedis (fun _ => Fair hashBuild insertionQsort) log db ∧
      db [101] = some (.xorFilter threeFilter) ∧ SafeToUse threeFilter := by
  obtain ⟨log, db, hrun, hf⟩ := exists_careful_run
  have hrun' := Run.mono (fun _ _ _ h => h.2) hrun
  exact ⟨log, db, hrun', hf, stored_filters_safe hrun' hf⟩

/-! What the copies of a filter know -/

/-- The call found the set `s` and made of it the filter `f`, which knows it. -/
structure MadeBy (hashBuild : Bytes → UInt64) (entry : Entry Keyspace Event Reply) (s : RedisSet)
    (f : XorFilter) : Prop where
  call_eq : ∃ mem replies cmd dest source bits,
    entry.call = .xorBuild mem replies [cmd, dest, source, bits] ∧
      entry.before source = some (.set s)
  answer_eq : entry.answer = .integer s.members.length
  knows : ∀ item ∈ s.members, xorCheck hashBuild f item = some true
  safe : SafeToUse f
  dumpWf : DumpWf f
  seed_le : f.seed.toNat ≤ 100
  reallocations_le : f.reallocations.toNat ≤ 2

theorem Stores.madeBy {hashBuild : Bytes → UInt64} {qsort : Qsort} {mem : Memory}
    {replies : List CallReply} {db : Keyspace} {argv : List Bytes} {s : RedisSet}
    {hashes : List UInt64} {f : XorFilter}
    (h : Stores hashBuild qsort mem (replies.map CallReply.view) db argv s hashes f)
    (hclean : CleanBuilds hashBuild qsort db (.xorBuild mem replies argv)) :
    MadeBy hashBuild ⟨db, .xorBuild mem replies argv, .integer s.members.length⟩ s f := by
  obtain ⟨⟨cmd, dest, source, bits, rfl, hset⟩, hne, hscan, hfp, hbuild⟩ := h
  obtain ⟨honce, hmax, hload⟩ := hclean s hset
  have hcover : Covers s (replies.map CallReply.view) :=
    ⟨honce.full, fun x => honce.perm.mem_iff⟩
  obtain ⟨h0, hle⟩ := scanned_bounds qsort hcover hne hscan
  rw [scanLoop_deliversOnce hashBuild honce, ScanResult.loaded.injEq] at hscan
  subst hscan
  have hn := hle.trans hmax
  rw [memberHashes_eq hashBuild qsort qsort honce] at h0 hn hbuild
  have hsafe := xorBuild_safeToUse hfp h0 hn hbuild
  obtain ⟨sd, st, hloop, hf⟩ := exists_seed_of_xorBuild hbuild
  have hsd := (bounds_of_seedLoop hloop).2
  have hbuilt := buildFilter_builtAt mem f.fpSize hn (show sd < 2 ^ 32 by omega) st
  rw [← hf] at hbuilt
  refine ⟨⟨mem, replies, cmd, dest, source, bits, rfl, hset⟩, rfl, fun item hitem => ?_, hsafe,
    xorBuild_dumpWf hfp hbuild ?_, ?_, ?_⟩
  · refine xorCheck_of_hash_mem hashBuild hfp hn hbuild (uncrowded_of_tried h0 hn hload hbuild) ?_
    exact (mem_dedup_qsort qsort _ _).2 (List.mem_map_of_mem hitem)
  · have hlt := three_mul_buildSegmentSize_lt hn
    rw [hbuilt.segmentSize_eq]
    omega
  · rw [hbuilt.seed_eq]
    omega
  · obtain ⟨r, hr, hbound⟩ := xorBuild_bounded mem h0 hn f.fpSize
    exact hbound f (Option.some.inj (hr.symm.trans hbuild))

theorem xorScanDumpCommand_array {mem : Memory} {redis : Redis} {db : Keyspace}
    {argv : List Bytes} {data : Bytes}
    (h : xorScanDumpCommand mem redis db argv = .array [.integer 0, .stringBuffer data]) :
    ∃ key f, db key = some (.xorFilter f) ∧ data = dumpBytes mem f := by
  unfold xorScanDumpCommand at h
  split at h
  next cmd key cursor =>
    split_ifs at h
    split at h
    · cases h
    next f hf =>
      simp only [Reply.array.injEq, List.cons.injEq, Reply.stringBuffer.injEq, true_and,
        and_true] at h
      exact ⟨key, f, hf, h.symm⟩
    · cases h
  · cases h

/-- What holds along an honest run: everything stored was made by a call of the
log, and so was everything that was dumped. -/
structure HonestInv (hashBuild : Bytes → UInt64) (log : Log) (db : Keyspace) : Prop where
  stored : ∀ key f, db key = some (.xorFilter f) → ∃ entry ∈ log, ∃ s, MadeBy hashBuild entry s f
  dumped : ∀ data, Dumped log data → ∃ f, loadChunk data = .ok f ∧
    ∃ entry ∈ log, ∃ s, MadeBy hashBuild entry s f

section Honest

variable {hashBuild : Bytes → UInt64} {qsort : Qsort} {redis : Redis} {log : Log}
  {db db' : Keyspace} {event : Event} {reply : Reply}

theorem HonestInv.step (h : HonestInv hashBuild log db)
    (hclean : CleanBuilds hashBuild qsort db event) (hpayload : PayloadDumped log event)
    (hrun : execute hashBuild qsort redis db event = some (reply, db')) :
    HonestInv hashBuild (log ++ [⟨db, event, reply⟩]) db' := by
  have hkeep {f : XorFilter} : (∃ entry ∈ log, ∃ s, MadeBy hashBuild entry s f) →
      ∃ entry ∈ log ++ [⟨db, event, reply⟩], ∃ s, MadeBy hashBuild entry s f := by
    rintro ⟨entry, hmem, hmade⟩
    exact ⟨entry, List.mem_append_left _ hmem, hmade⟩
  constructor
  · intro key f hf
    cases execute_origin hrun hf with
    | kept key hstored => exact hkeep (h.stored key f hstored)
    | built hstores =>
      exact ⟨_, List.mem_append_right _ List.mem_cons_self, _, hstores.madeBy hclean⟩
    | loaded hload =>
      obtain ⟨g, hg, hmade⟩ := h.dumped _ hpayload
      obtain rfl : g = f := Except.ok.inj (hg.symm.trans hload)
      exact hkeep hmade
  · rintro data ⟨entry, hmem, ⟨mem, argv, hcall⟩, hanswer⟩
    rcases List.mem_append.1 hmem with hmem | hmem
    · obtain ⟨f, hf, hmade⟩ := h.dumped data ⟨entry, hmem, ⟨mem, argv, hcall⟩, hanswer⟩
      exact ⟨f, hf, hkeep hmade⟩
    · obtain rfl := List.mem_singleton.1 hmem
      obtain rfl : event = .xorScanDump mem argv := hcall
      obtain rfl : reply = .array [.integer 0, .stringBuffer data] := hanswer
      obtain ⟨key, f, hf, rfl⟩ :=
        xorScanDumpCommand_array (Prod.mk.inj (Option.some.inj hrun)).1
      obtain ⟨entry, hentry, s, hmade⟩ := h.stored key f hf
      exact ⟨f, loadChunk_dumpBytes hmade.dumpWf mem, hkeep ⟨entry, hentry, s, hmade⟩⟩

/-- Clients may copy filters as they like, by a dump and a load, under any names
and through any number of hands: each filter that is stored after the run was
built by one of its calls, and answers yes for every member of the set that this
call found, wherever that set is now. -/
theorem honest_filters_know_their_sets
    (h : ServerRun hashBuild qsort redis (fun log db event =>
      CleanBuilds hashBuild qsort db event ∧ PayloadDumped log event) log db)
    {key : Bytes} {f : XorFilter} (hf : db key = some (.xorFilter f)) :
    ∃ entry ∈ log, ∃ mem replies cmd dest source bits s,
      entry.call = .xorBuild mem replies [cmd, dest, source, bits] ∧
      entry.before source = some (.set s) ∧ entry.answer = .integer s.members.length ∧
      (∀ item ∈ s.members, ∀ cmd',
        xorExistsCommand hashBuild db [cmd', key, item] = some (.integer 1)) ∧
      SafeToUse f ∧ f.seed.toNat ≤ 100 ∧ f.reallocations.toNat ≤ 2 := by
  have hinv : HonestInv hashBuild log db := by
    refine Run.inv (I := HonestInv hashBuild) ?_ ?_ h
    · refine ⟨fun key f hf => (by cases hf), ?_⟩
      rintro data ⟨entry, hmem, -⟩
      cases hmem
    · rintro log db db' event reply ih ⟨hclean, hpayload⟩ hrun
      exact ih.step hclean hpayload hrun
  obtain ⟨entry, hmem, s, hmade⟩ := hinv.stored key f hf
  obtain ⟨mem, replies, cmd, dest, source, bits, hcall, hset⟩ := hmade.call_eq
  refine ⟨entry, hmem, mem, replies, cmd, dest, source, bits, s, hcall, hset, hmade.answer_eq,
    fun item hitem cmd' => ?_, hmade.safe, hmade.seed_le, hmade.reallocations_le⟩
  rw [xorExistsCommand_of_stored hf, hmade.knows item hitem]
  rfl

end Honest

theorem honest_filters_know_their_sets_copy : ∃ log db,
    ServerRun hashBuild insertionQsort digitRedis (fun log db event =>
      CleanBuilds hashBuild insertionQsort db event ∧ PayloadDumped log event) log db ∧
      db [101] = some (.xorFilter threeFilter) ∧ ∃ entry ∈ log, ∃ source s,
        entry.before source = some (.set s) ∧ ∀ item ∈ s.members,
          xorExistsCommand hashBuild db [[], [101], item] = some (.integer 1) := by
  obtain ⟨log, db, hrun, hf⟩ := exists_careful_run
  have hrun' := Run.mono (fun _ _ _ h => h.1) hrun
  obtain ⟨entry, hmem, _, _, _, _, source, _, s, -, hset, -, hknows, -⟩ :=
    honest_filters_know_their_sets hrun' hf
  exact ⟨log, db, hrun', hf, entry, hmem, source, s, hset, fun item hitem => hknows item hitem []⟩

/-! What is in memory where the program does not look -/

/-- The same call over another memory image. -/
def Event.withMemory (mem : Memory) : Event → Event
  | .xorBuild _ replies argv => .xorBuild mem replies argv
  | .xorScanDump _ argv => .xorScanDump mem argv
  | event => event

theorem readBuffer_eq_take (mem : Memory) {buf : Bytes} {len : ℕ} (h : len ≤ buf.length) :
    readBuffer mem buf len = buf.take len := by
  refine List.ext_getElem (by rw [length_readBuffer, List.length_take, Nat.min_eq_left h])
    fun i hi hi' => ?_
  rw [length_readBuffer] at hi
  simp only [readBuffer, List.getElem_map, List.getElem_range, List.getElem_take]
  rw [List.getD_eq_getElem?_getD, List.getElem?_eq_getElem (hi.trans_le h), Option.getD_some]

theorem SafeToUse.dumpBytes_eq {f : XorFilter} (h : SafeToUse f) (mem mem' : Memory) :
    dumpBytes mem f = dumpBytes mem' f := by
  have hdump := h.dump
  rw [slotCount] at hdump
  simp only [dumpBytes, readBuffer_eq_take _ hdump]

theorem xorBuildCommand_memory {hashBuild : Bytes → UInt64} {qsort : Qsort} {redis : Redis}
    {replies : List ScanReply} {db : Keyspace} {argv : List Bytes} (mem mem' : Memory)
    (h : ∀ cmd dest source bits s hashes fpSize, argv = [cmd, dest, source, bits] →
      db source = some (.set s) → s.members ≠ [] →
      scanLoop hashBuild s.members.length replies [] = .loaded hashes →
      xorBuild mem (dedup (qsort.run hashes)) fpSize =
        xorBuild mem' (dedup (qsort.run hashes)) fpSize) :
    xorBuildCommand hashBuild qsort mem redis replies db argv =
      xorBuildCommand hashBuild qsort mem' redis replies db argv := by
  rcases argv with - | ⟨cmd, - | ⟨dest, - | ⟨source, - | ⟨bits, - | ⟨_, _⟩⟩⟩⟩⟩
  · rfl
  · rfl
  · rfl
  · rfl
  · rcases hbits : admittedBits redis bits with - | fpSize
    · rw [xorBuildCommand_of_not_admitted hbits, xorBuildCommand_of_not_admitted hbits]
    rw [xorBuildCommand_of_admitted hbits, xorBuildCommand_of_admitted hbits]
    rcases hset : db source with - | s | f | -
    · rfl
    · dsimp only
      split_ifs with hlen
      · rfl
      rcases hscan : scanLoop hashBuild s.members.length replies [] with - | - | hashes
      · rfl
      · rfl
      · dsimp only
        rw [h cmd dest source bits s hashes fpSize rfl hset
          (fun hnil => hlen (List.length_eq_zero_iff.2 hnil)) hscan]
    · rfl
    · rfl
  · rfl

/-- A call is answered from what the keyspace holds. -/
theorem execute_withMemory {hashBuild : Bytes → UInt64} {qsort : Qsort} {redis : Redis}
    {db : Keyspace} {event : Event} (hsafe : StoredSafe db)
    (hfair : Fair hashBuild qsort db event) (mem' : Memory) :
    execute hashBuild qsort redis db (event.withMemory mem') =
      execute hashBuild qsort redis db event := by
  cases event with
  | xorBuild mem replies argv =>
    refine (xorBuildCommand_memory mem mem' ?_).symm
    rintro cmd dest source bits s hashes fpSize rfl hset hne hscan
    obtain ⟨hcover, hmax⟩ := hfair.scans s hashes hset hscan
    obtain ⟨h0, hle⟩ := scanned_bounds qsort hcover hne hscan
    obtain ⟨r, hr, hr'⟩ := xorBuild_same mem mem' h0 (hle.trans hmax)
      (hfair.uncrowded s hashes hset hscan) fpSize
    rw [hr, hr']
  | xorScanDump mem argv =>
    refine congrArg (fun reply => some (reply, db)) ?_
    simp only [xorScanDumpCommand]
    rcases argv with - | ⟨cmd, - | ⟨key, - | ⟨cursor, - | ⟨_, _⟩⟩⟩⟩
    · rfl
    · rfl
    · rfl
    · dsimp only
      rcases hkey : db key with - | s | f | -
      · rfl
      · rfl
      · dsimp only
        rw [(hsafe key f hkey).dumpBytes_eq mem' mem]
      · rfl
    · rfl
  | xorInfo argv => rfl
  | xorExists argv => rfl
  | xorLoadChunk argv => rfl
  | write key value => rfl
  | rename key newKey => rfl

/-- No reply and nothing stored depends on the bytes behind the arrays, on fresh
memory or on what earlier calls left in it: with any other images the same calls
run through the same keyspaces and get the same answers. -/
theorem memory_never_shows {hashBuild : Bytes → UInt64} {qsort : Qsort} {redis : Redis} {log : Log}
    {db : Keyspace} (h : ServerRun hashBuild qsort redis (fun _ => Fair hashBuild qsort) log db)
    (mems : ℕ → Memory) :
    ServerRun hashBuild qsort redis (fun _ _ _ => True)
      (log.mapIdx fun k entry => { entry with call := entry.call.withMemory (mems k) }) db := by
  have hinv : StoredSafe db ∧ ServerRun hashBuild qsort redis (fun _ _ _ => True)
      (log.mapIdx fun k entry => { entry with call := entry.call.withMemory (mems k) }) db := by
    refine Run.inv (I := fun log db => StoredSafe db ∧ ServerRun hashBuild qsort redis
      (fun _ _ _ => True) (log.mapIdx fun k entry =>
        { entry with call := entry.call.withMemory (mems k) }) db)
      ⟨fun key f hf => (by cases hf), .nil⟩ ?_ h
    rintro log db db' event reply ⟨hsafe, ih⟩ hfair hrun
    refine ⟨hsafe.execute hfair.scans hfair.fits hrun, ?_⟩
    rw [List.mapIdx_concat]
    refine .snoc ih trivial ?_
    rw [execute_withMemory hsafe hfair, hrun]
  exact hinv.2

theorem memory_never_shows_copy : ∃ (log : Log) (db : Keyspace),
    db [101] = some (.xorFilter threeFilter) ∧
      ServerRun hashBuild insertionQsort digitRedis (fun _ _ _ => True)
        (log.mapIdx fun _ entry => { entry with call := entry.call.withMemory (heapOf 7) }) db := by
  obtain ⟨log, db, hrun, hf⟩ := exists_careful_run
  have hrun' := Run.mono (fun _ _ _ h => h.2) hrun
  exact ⟨log, db, hf, memory_never_shows hrun' fun _ => heapOf 7⟩

end RedisXor
