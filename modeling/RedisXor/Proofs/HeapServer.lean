import RedisXor.Proofs.HeapBuild
import RedisXor.Proofs.RedisApi
import RedisXor.Proofs.Server
import RedisXor.Spec.HeapServer

/-! The commands keep the account of the blocks: at every moment between two
commands the live blocks are the structs and the tables of the stored filters.
It follows that the server with its heap answers as the server without one. -/

namespace RedisXor

open Ownership Refinement

/-! The store -/

theorem Store.filter_subset {db : Store} {name : Bytes} {filter : Obj XorFilter}
    (h : db.lookup name = some (.xorFilter filter)) (F : Multiset Block) :
    filter.own ⊆ F + db.own := by
  rw [db.own_erase name, h, add_left_comm]
  exact subset_left _ _

theorem StoredSafe.lookup {db : Store} (h : StoredSafe db.view) {name : Bytes}
    {filter : Obj XorFilter} (hvalue : db.lookup name = some (.xorFilter filter)) :
    SafeToUse filter.val :=
  h name filter.val (by rw [Store.view, hvalue]; rfl)

/-! The array of the hashes -/

section Hashes

variable {numItems hashes : ℕ} {P : Multiset Block}

theorem triple_loadBatchH (hashBuild : Bytes → UInt64) (hmem : ⟨hashes, numItems⟩ ∈ P)
    (loaded : List UInt64) (items : List Bytes) :
    Triple P (loadBatchH hashBuild numItems hashes loaded items)
      (fun r => r = loadBatch hashBuild numItems loaded items) fun _ => P := by
  refine (Triple.foldlM (fun _ => P) (I := fun _ => True) id (fun loaded item _ _ => ?_)
    trivial).conseq rfl fun r hr => ⟨hr.1, rfl⟩
  dsimp only [id]
  split_ifs with hlt
  · exact Triple.access_bind hmem hlt (Triple.ret ⟨rfl, trivial⟩ rfl)
  · exact Triple.ret ⟨rfl, trivial⟩ rfl

theorem dedupStep_count_le (s : List UInt64 × ℕ) (i : ℕ) : (dedupStep s i).2 ≤ s.2 + 1 := by
  rw [dedupStep]
  split_ifs
  · exact le_rfl
  · exact Nat.le_succ _

/-- The loop writes no further than it has read. -/
theorem triple_dedupH (hmem : ⟨hashes, numItems⟩ ∈ P) {sorted : List UInt64}
    (hlen : sorted.length ≤ numItems) :
    Triple P ((List.range sorted.length).foldlM (dedupStepH hashes) (sorted, 0))
      (fun s => s.1.take s.2 = dedup sorted) fun _ => P := by
  refine (Triple.foldlM_range (fun _ => P) (I := fun i s =>
    s = (List.range i).foldl dedupStep (sorted, 0) ∧ s.2 ≤ i) (fun i hi s ⟨hs, hcount⟩ => ?_)
    ⟨rfl, le_rfl⟩).conseq rfl fun s hs => ⟨?_, rfl⟩
  · have hnext : Triple P (pure (dedupStep s i) : HeapM (List UInt64 × ℕ)) (fun s =>
        s = (List.range (i + 1)).foldl dedupStep (sorted, 0) ∧ s.2 ≤ i + 1) fun _ => P := by
      refine Triple.ret ⟨?_, (dedupStep_count_le s i).trans (Nat.succ_le_succ hcount)⟩ rfl
      rw [hs, List.range_succ, List.foldl_append]
      rfl
    rw [dedupStepH]
    refine Triple.access_bind hmem (by omega) ?_
    split_ifs
    · exact Triple.access_bind hmem (by omega) (Triple.access_bind hmem (by omega) hnext)
    · exact Triple.access_bind hmem (by omega) hnext
    · exact Triple.access_bind hmem (by omega) hnext
    · exact hnext
  · rw [hs.1, dedup]

end Hashes

section Commands

variable {api : RedisApi} {redis : Redis} (hapi : api.Lawful redis) {hashBuild : Bytes → UInt64}
  {qsort : Qsort} {mem : Memory} (db : Store) (argv : List Bytes)

/-! Keys -/

section Keys

variable {db} {name : Bytes} {β : Type} {P : Multiset Block} {Ψ : β → Prop}
  {R : β → Multiset Block}

include hapi

theorem openKey_bind {g : Option ℕ → Option StoredValue → HeapM β}
    (hg : ∀ key, Triple (handleOwn key + P) (g key (db.lookup name)) Ψ R) :
    Triple P (api.openKeyRead db name >>= fun key => api.keyValue db name key >>= g key) Ψ R := by
  refine (hapi.openKeyRead db name).call P (zero_add P).symm fun key hkey => ?_
  refine (hapi.keyValue db name key hkey).call P rfl fun value hvalue => ?_
  subst hvalue
  exact hg key

theorem closeKey_bind {k : Option ℕ} {g : Unit → HeapM β} (hg : Triple P (g ()) Ψ R) :
    Triple (handleOwn k + P) (api.closeKey k >>= g) Ψ R := by
  refine (hapi.closeKey k).call P rfl fun _ _ => ?_
  rw [zero_add]
  exact hg

end Keys

/-! The commands that only read -/

include hapi

theorem triple_xorInfoCommandH : Triple db.own (xorInfoCommandH api db argv)
    (fun reply => reply = xorInfoCommand db.view argv) fun _ => db.own := by
  rcases argv with - | ⟨_, - | ⟨name, - | ⟨_, _⟩⟩⟩
  · exact Triple.ret rfl rfl
  · exact Triple.ret rfl rfl
  · refine openKey_bind hapi fun key => ?_
    simp only [xorInfoCommand, Store.view]
    rcases hvalue : db.lookup name with - | - | filter | -
    · exact closeKey_bind hapi (Triple.ret rfl rfl)
    · exact closeKey_bind hapi (Triple.ret rfl rfl)
    · refine Obj.fields_bind (Store.filter_subset hvalue _) ?_
      exact closeKey_bind hapi (Triple.ret rfl rfl)
    · exact closeKey_bind hapi (Triple.ret rfl rfl)
  · exact Triple.ret rfl rfl

/-- A lookup of a filter that is safe to use. -/
theorem triple_xorExistsCommandH (hsafe : StoredSafe db.view) :
    Triple db.own (xorExistsCommandH api hashBuild db argv)
      (fun reply => xorExistsCommand hashBuild db.view argv = some reply) fun _ => db.own := by
  rcases argv with - | ⟨_, - | ⟨name, - | ⟨item, - | ⟨_, _⟩⟩⟩⟩
  · exact Triple.ret rfl rfl
  · exact Triple.ret rfl rfl
  · exact Triple.ret rfl rfl
  · refine (hapi.openKeyRead db name).call db.own (zero_add _).symm fun key hkey => ?_
    simp only [xorExistsCommand]
    cases key with
    | none =>
      have hnone : db.lookup name = none := by
        rcases hvalue : db.lookup name with - | value
        · rfl
        · rw [hvalue] at hkey
          cases hkey
      exact Triple.ret (by rw [Store.view, hnone]; rfl) (zero_add _)
    | some key =>
      refine (hapi.keyValue db name _ hkey).call db.own rfl fun value hvalue => ?_
      rw [Store.view, ← hvalue]
      rcases value with - | s | filter | -
      · exact closeKey_bind hapi (Triple.ret rfl rfl)
      · exact closeKey_bind hapi (Triple.ret rfl rfl)
      · have hcheck := (hsafe.lookup hvalue.symm).check hashBuild item
        refine (triple_xorCheckH hcheck).call (handleOwn (some key) + Store.own (db.erase name)) ?_
          fun found hfound => ?_
        · rw [db.own_erase name, ← hvalue]
          exact add_left_comm _ _ _
        rw [add_left_comm]
        refine closeKey_bind hapi (Triple.ret ?_ ?_)
        · simp only [Option.map_some, StoredValue.view, hfound]
        · rw [db.own_erase name, ← hvalue]
          rfl
      · exact closeKey_bind hapi (Triple.ret rfl rfl)
  · exact Triple.ret rfl rfl

/-- A dump of a filter that is safe to use. -/
theorem triple_xorScanDumpCommandH (hsafe : StoredSafe db.view) :
    Triple db.own (xorScanDumpCommandH api mem redis db argv)
      (fun reply => reply = xorScanDumpCommand mem redis db.view argv) fun _ => db.own := by
  rcases argv with - | ⟨_, - | ⟨name, - | ⟨cursor, - | ⟨_, _⟩⟩⟩⟩
  · exact Triple.ret rfl rfl
  · exact Triple.ret rfl rfl
  · exact Triple.ret rfl rfl
  · simp only [xorScanDumpCommandH, xorScanDumpCommand, Store.view]
    split_ifs with hcursor
    · exact Triple.ret rfl rfl
    refine openKey_bind hapi fun key => ?_
    rcases hvalue : db.lookup name with - | s | filter | -
    · exact closeKey_bind hapi (Triple.ret rfl rfl)
    · exact closeKey_bind hapi (Triple.ret rfl rfl)
    · have hdump := (hsafe.lookup hvalue).dump
      rw [slotCount] at hdump
      generalize hsize : getFingerprintsBytes filter.val.fpSize
        (wrap32 (3 * filter.val.segmentSize.toNat)) = size at hdump
      refine Obj.fields_bind (Store.filter_subset hvalue _) ?_
      simp only [id, hsize]
      refine Triple.alloc_bind fun buffer => ?_
      have hbuffer : (⟨buffer, 16 + size⟩ : Block) ∈
          {⟨buffer, 16 + size⟩} + (handleOwn key + db.own) := by simp
      refine Triple.access_bind hbuffer (by omega) ?_
      refine Triple.access_bind hbuffer (by omega) ?_
      refine Triple.access_bind hbuffer (by omega) ?_
      refine Triple.access_bind hbuffer (by omega) ?_
      refine Triple.access_bind hbuffer le_rfl ?_
      rw [← add_assoc]
      refine Obj.array_bind (Store.filter_subset hvalue _) ((zero_add size).le.trans hdump) ?_
      rw [add_right_comm, add_comm]
      refine closeKey_bind hapi ?_
      refine Triple.access_bind (c := 16 + size) (by simp) (by omega) ?_
      exact Triple.free_bind db.own rfl (Triple.ret rfl rfl)
    · exact closeKey_bind hapi (Triple.ret rfl rfl)
  · exact Triple.ret rfl rfl

/-! The commands that write -/

theorem triple_xorLoadChunkCommandH (hopens : ∀ cmd name cursor data,
      argv = [cmd, name, cursor, data] → redis.opensForWriting name = true) :
    Triple db.own (xorLoadChunkCommandH api redis db argv)
      (fun p => Store.outcome p = xorLoadChunkCommand redis db.view argv) fun p => p.2.own := by
  rcases argv with - | ⟨_, - | ⟨name, - | ⟨cursor, - | ⟨data, - | ⟨_, _⟩⟩⟩⟩⟩
  · exact Triple.ret rfl rfl
  · exact Triple.ret rfl rfl
  · exact Triple.ret rfl rfl
  · exact Triple.ret rfl rfl
  · simp only [xorLoadChunkCommandH, xorLoadChunkCommand]
    split_ifs with hcursor
    · exact Triple.ret rfl rfl
    rcases hload : loadChunk data with msg | f
    · exact Triple.ret rfl rfl
    · have hlen := (loadChunk_eq_ok_iff.1 hload).length_fingerprints
      rw [slotCount] at hlen
      simp only [← hlen]
      refine Triple.alloc_bind fun filter => Triple.access_bind (by simp) le_rfl ?_
      refine Triple.alloc_bind fun fingerprints => ?_
      refine Triple.access_bind (c := f.fingerprints.length) (by simp) (by omega) ?_
      refine (hapi.openKeyWrite db name).call _ (zero_add _).symm fun key hkey => ?_
      rw [hopens _ _ _ _ rfl] at hkey
      obtain ⟨key, rfl⟩ := Option.isSome_iff_exists.1 hkey
      have hown : Obj.own ⟨filter, fingerprints, f⟩ =
          {⟨filter, 1⟩} + {⟨fingerprints, f.fingerprints.length⟩} := rfl
      refine (hapi.moduleTypeSetValue _ triple_xorFreeH db name key ⟨filter, fingerprints, f⟩).call
        0 (by rw [hown, handleOwn, Option.elim_some]; abel) fun db' hdb' => ?_
      rw [add_zero, add_comm]
      refine closeKey_bind (k := some key) hapi (Triple.ret ?_ rfl)
      rw [Store.outcome, hdb']
  · exact Triple.ret rfl rfl

/-- The scan frees every reply it gets. -/
theorem triple_scanLoopH {numItems hashes : ℕ} {P : Multiset Block}
    (hmem : ⟨hashes, numItems⟩ ∈ P) (replies : List CallReply) (loaded : List UInt64) :
    Triple P (scanLoopH api hashBuild numItems hashes replies loaded)
      (fun r => r = scanLoop hashBuild numItems (replies.map CallReply.view) loaded)
      fun _ => P := by
  induction replies generalizing loaded with
  | nil => exact Triple.ret rfl rfl
  | cons reply replies ih =>
    simp only [scanLoopH, List.map_cons, scanLoop.eq_def _ _ (_ :: _)]
    split_ifs with hlt
    · refine (hapi.call reply).call P (zero_add P).symm fun p hp => ?_
      cases p with
      | none =>
        obtain rfl := hp.1 rfl
        exact Triple.ret rfl (zero_add P)
      | some p =>
        refine (hapi.callReply reply p).call P rfl fun view hview => ?_
        rw [← hview]
        have hP := subset_right {(⟨p, 1⟩ : Block)} P hmem
        cases view with
        | failed => exact (hapi.freeCallReply p).call P rfl fun _ _ => Triple.ret rfl (zero_add P)
        | batch cursor items =>
          refine (triple_loadBatchH hashBuild hP loaded items).bind fun loaded' hloaded => ?_
          subst hloaded
          refine (hapi.freeCallReply p).call P rfl fun _ _ => ?_
          rw [zero_add]
          dsimp only
          split_ifs with hcursor
          · exact Triple.ret rfl rfl
          · exact ih _
    · exact Triple.ret rfl rfl

theorem triple_storeFilterH (dest : Bytes) (numItems : ℕ) (sourceKey : Option ℕ)
    (filter : Option (Obj XorFilter)) :
    Triple (handleOwn sourceKey + (filterOwn filter + db.own))
      (storeFilterH api db dest numItems sourceKey filter)
      (fun p => Store.outcome p = buildReply redis db.view dest numItems (filter.map Obj.val))
      fun p => p.2.own := by
  cases filter with
  | none => exact closeKey_bind hapi (Triple.ret rfl (zero_add _))
  | some filter =>
    simp only [storeFilterH, Option.map_some, buildReply]
    refine (hapi.openKeyWrite db dest).call _ (zero_add _).symm fun destKey hopens => ?_
    rw [← hopens]
    cases destKey with
    | none =>
      refine (triple_xorFreeH filter).call (handleOwn sourceKey + db.own)
        (by simp only [filterOwn, handleOwn, Option.elim]; abel) fun _ _ => ?_
      rw [zero_add]
      exact closeKey_bind hapi (Triple.ret rfl rfl)
    | some destKey =>
      refine (hapi.moduleTypeSetValue _ triple_xorFreeH db dest destKey filter).call
        (handleOwn sourceKey) (by simp only [filterOwn, handleOwn, Option.elim_some]; abel)
        fun db' hdb' => ?_
      rw [add_comm]
      refine closeKey_bind hapi ?_
      rw [add_comm]
      refine closeKey_bind (k := some destKey) hapi (Triple.ret ?_ rfl)
      rw [Store.outcome, hdb']
      rfl

/-- `XOR.BUILD` once its source is a set, for the calls that end and are fair. -/
theorem triple_buildFromSetH {replies : List CallReply} {dest : Bytes} {fpSize : FingerprintSize}
    {s : RedisSet} (hne : s.members.length ≠ 0) {sourceKey : Option ℕ} {r : Reply × Keyspace}
    (hfair : ∀ hashes, scanLoop hashBuild s.members.length (replies.map CallReply.view) [] =
        .loaded hashes → (Covers s (replies.map CallReply.view) ∧ s.members.length ≤ 2 ^ 30) ∧
      TriedUncrowded mem (dedup (qsort.run hashes)))
    (h : (match scanLoop hashBuild s.members.length (replies.map CallReply.view) [] with
      | .unanswered => none
      | .failed => some (.error "Failed to scan SET members", db.view)
      | .loaded hashes => (xorBuild mem (dedup (qsort.run hashes)) fpSize).map
          (buildReply redis db.view dest s.members.length)) = some r) :
    Triple (handleOwn sourceKey + db.own)
      (buildFromSetH api hashBuild qsort mem replies db dest fpSize s.members.length sourceKey)
      (fun p => p.map Store.outcome = some r) fun p => p.elim 0 fun p => p.2.own := by
  refine Triple.alloc_bind fun hashes => ?_
  have hmem := subset_left {(⟨hashes, s.members.length⟩ : Block)} (handleOwn sourceKey + db.own)
    (Multiset.mem_singleton_self _)
  refine (triple_scanLoopH hapi hmem replies []).bind fun scan hscan => ?_
  rw [← hscan] at h
  cases scan with
  | unanswered => cases h
  | failed => exact Triple.free_bind _ rfl (closeKey_bind hapi (Triple.ret h rfl))
  | loaded loaded =>
    obtain ⟨built, hbuild, rfl⟩ := Option.map_eq_some_iff.1 h
    obtain ⟨⟨hcover, hmax⟩, hload⟩ := hfair loaded hscan.symm
    have hloaded := scanned_length_le hcover.full hscan.symm
    obtain ⟨h0, hle⟩ := scanned_bounds qsort hcover
      (fun hnil => hne (List.length_eq_zero_iff.2 hnil)) hscan.symm
    have hlen := (qsort.perm loaded).length_eq
    refine Triple.access_bind hmem (by omega) ?_
    rw [← hlen]
    refine (triple_dedupH hmem (hlen.trans_le hloaded)).bind fun u hu => ?_
    rw [hu]
    let array : HashArray := ⟨hashes, dedup (qsort.run loaded)⟩
    refine (triple_xorBuildH (show 1 ≤ array.val.length from h0) (hle.trans hmax) hle hload
      hbuild).call _ rfl fun filter hfilter => ?_
    obtain ⟨filter, rfl, rfl⟩ := Option.map_eq_some_iff.1 hfilter
    refine Triple.free_bind (handleOwn sourceKey + (filterOwn filter + db.own))
      (by simp only [Option.elim_some]; abel) ?_
    refine (triple_storeFilterH hapi db dest s.members.length sourceKey filter).bind fun p hp => ?_
    exact Triple.ret (congrArg some hp) rfl

theorem triple_xorBuildCommandH {replies : List CallReply} {r : Reply × Keyspace}
    (hfair : Fair hashBuild qsort db.view (.xorBuild mem replies argv))
    (h : xorBuildCommand hashBuild qsort mem redis (replies.map CallReply.view) db.view argv =
      some r) :
    Triple db.own (xorBuildCommandH api hashBuild qsort mem redis replies db argv)
      (fun p => p.map Store.outcome = some r) fun p => p.elim 0 fun p => p.2.own := by
  rcases argv with - | ⟨_, - | ⟨dest, - | ⟨source, - | ⟨bits, - | ⟨_, _⟩⟩⟩⟩⟩
  · exact Triple.ret h rfl
  · exact Triple.ret h rfl
  · exact Triple.ret h rfl
  · exact Triple.ret h rfl
  · rcases hread : redis.stringToLongLong bits with - | fpBits
    · simp only [xorBuildCommand, hread] at h
      simp only [xorBuildCommandH, hread]
      exact Triple.ret h rfl
    by_cases hne : fpBits ≠ 4 ∧ fpBits ≠ 8 ∧ fpBits ≠ 16 ∧ fpBits ≠ 32
    · simp only [xorBuildCommand, hread, if_pos hne] at h
      simp only [xorBuildCommandH, hread, if_pos hne]
      exact Triple.ret h rfl
    have hbits : admittedBits redis bits = some (UInt32.ofNat fpBits.toNat) := by
      simp only [admittedBits, hread, if_neg hne]
    rw [xorBuildCommand_of_admitted hbits] at h
    simp only [xorBuildCommandH, hread, if_neg hne]
    refine openKey_bind hapi fun key => ?_
    rcases hvalue : db.lookup source with - | s | filter | -
    · rw [Store.view, hvalue] at h
      exact closeKey_bind hapi (Triple.ret h rfl)
    · have hset : db.view source = some (.set s) := by
        rw [Store.view, hvalue]
        rfl
      rw [hset] at h
      dsimp only at h ⊢
      split_ifs at h ⊢ with hlen
      · exact closeKey_bind hapi (Triple.ret h rfl)
      · exact triple_buildFromSetH hapi db hlen (fun hashes hscan =>
          ⟨hfair.scans s hashes hset hscan, hfair.uncrowded s hashes hset hscan⟩) h
    · rw [Store.view, hvalue] at h
      exact closeKey_bind hapi (Triple.ret h rfl)
    · rw [Store.view, hvalue] at h
      exact closeKey_bind hapi (Triple.ret h rfl)
  · exact Triple.ret h rfl

/-! Runs -/

/-- `XOR.LOADCHUNK` gets a handle for its key, which it does not check. -/
def GetsHandle (redis : Redis) : Event → Prop
  | .xorLoadChunk [_, name, _, _] => redis.opensForWriting name = true
  | _ => True

/-- What a fair call of the server does. -/
theorem triple_executeH {event : Event} (hsafe : StoredSafe db.view)
    (hfair : Fair hashBuild qsort db.view event) (hhandle : GetsHandle redis event)
    {r : Reply × Keyspace} (h : execute hashBuild qsort redis db.view event = some r) :
    Triple db.own (executeH api hashBuild qsort redis db event)
      (fun p => p.map Store.outcome = some r) fun p => p.elim 0 fun p => p.2.own := by
  cases event with
  | xorBuild mem replies argv => exact triple_xorBuildCommandH hapi db argv hfair h
  | xorInfo argv =>
    refine (triple_xorInfoCommandH hapi db argv).bind fun reply hreply => Triple.ret ?_ rfl
    rw [← h, execute, ← hreply]
    rfl
  | xorExists argv =>
    refine (triple_xorExistsCommandH hapi db argv hsafe).bind fun reply hreply => Triple.ret ?_ rfl
    rw [← h, execute, hreply]
    rfl
  | xorScanDump mem argv =>
    refine (triple_xorScanDumpCommandH hapi db argv hsafe).bind fun reply hreply =>
      Triple.ret ?_ rfl
    rw [← h, execute, ← hreply]
    rfl
  | xorLoadChunk argv =>
    refine (triple_xorLoadChunkCommandH hapi db argv ?_).bind fun p hp => Triple.ret ?_ rfl
    · rintro cmd name cursor data rfl
      exact hhandle
    · rw [← h, execute, ← hp]
      rfl
  | write key value =>
    refine (hapi.write _ triple_xorFreeH db key value).bind fun db' hdb' => Triple.ret ?_ rfl
    rw [← h, execute, ← hdb']
    rfl
  | rename key newKey =>
    refine (hapi.rename _ triple_xorFreeH db key newKey).bind fun p hp => Triple.ret ?_ rfl
    rw [← h, execute, ← hp]
    rfl

/-- The live blocks are those of the stored filters, which are safe to use. -/
structure Accounts (s : Heap × Store) (db : Keyspace) : Prop where
  view_eq : s.2.view = db
  live_eq : s.1.live = s.2.own
  safe : StoredSafe db

theorem heapMachine_step {s : Heap × Store} {db : Keyspace} (hs : Accounts s db) {event : Event}
    (hfair : Fair hashBuild qsort db event) (hhandle : GetsHandle redis event)
    {r : Reply × Keyspace} (hr : execute hashBuild qsort redis db event = some r) :
    (heapMachine api hashBuild qsort redis).pre s event ∧
      ∃ s', (heapMachine api hashBuild qsort redis).step s event = (some r.1, s') ∧
        Accounts s' r.2 := by
  obtain ⟨rfl, hlive, hsafe⟩ := hs
  obtain ⟨p, heap', hrun, hp, hlive'⟩ :=
    triple_executeH hapi s.2 hsafe hfair hhandle hr s.1 0 (by rw [hlive, add_zero])
  obtain ⟨⟨reply, db'⟩, rfl, rfl⟩ := Option.map_eq_some_iff.1 hp
  refine ⟨?_, (heap', db'), ?_, rfl, ?_, hsafe.execute hfair.scans hfair.fits hr⟩
  · simp only [heapMachine, hrun, Option.bind_some, Option.isSome_some]
  · simp only [heapMachine, hrun, Store.outcome]
  · rw [hlive', add_zero]
    rfl

/-- The server, in the hands of clients that make fair calls and get handles. -/
def handledMachine (hashBuild : Bytes → UInt64) (qsort : Qsort) (redis : Redis) :
    Machine Keyspace Event (Option Reply) :=
  (fairMachine hashBuild qsort redis).restrict fun _ event => GetsHandle redis event

variable (hashBuild qsort) in
theorem heap_implements : Implements (heapMachine api hashBuild qsort redis)
    (handledMachine hashBuild qsort redis) Accounts where
  pre s db event hs hpre := by
    obtain ⟨⟨hrun, hfair⟩, hhandle⟩ := hpre
    obtain ⟨r, hr⟩ := Option.isSome_iff_exists.1 hrun
    exact (heapMachine_step hapi hs hfair hhandle hr).1
  answer s db event hs hpre := by
    obtain ⟨⟨hrun, hfair⟩, hhandle⟩ := hpre
    obtain ⟨r, hr⟩ := Option.isSome_iff_exists.1 hrun
    obtain ⟨-, s', hstep, -⟩ := heapMachine_step hapi hs hfair hhandle hr
    rw [hstep]
    simp only [handledMachine, fairMachine, Machine.restrict, serverMachine, hr]
  step s db event hs hpre := by
    obtain ⟨⟨hrun, hfair⟩, hhandle⟩ := hpre
    obtain ⟨r, hr⟩ := Option.isSome_iff_exists.1 hrun
    obtain ⟨-, s', hstep, hs'⟩ := heapMachine_step hapi hs hfair hhandle hr
    rw [hstep]
    simp only [handledMachine, fairMachine, Machine.restrict, serverMachine, hr]
    exact hs'

end Commands

/-- A call that is allowed is answered. -/
theorem answers_isSome {hashBuild : Bytes → UInt64} {qsort : Qsort} {redis : Redis} {db : Keyspace}
    {events : List Event} (h : (fairMachine hashBuild qsort redis).Admits db events) :
    ∀ a ∈ (serverMachine hashBuild qsort redis).answers db events, a.isSome := by
  induction events generalizing db with
  | nil => exact fun a ha => absurd ha List.not_mem_nil
  | cons event events ih =>
    intro a ha
    rcases List.mem_cons.1 ha with rfl | ha
    · obtain ⟨r, hr⟩ := Option.isSome_iff_exists.1 h.1.1
      simp only [serverMachine, hr, Option.isSome_some]
    · exact ih h.2 a ha

def StoredValue.isFilter : StoredValue → Bool
  | .xorFilter _ => true
  | _ => false

theorem Store.card_own_eq_countP (db : Store) :
    db.own.card = 2 * db.entries.countP fun e => e.2.isFilter := by
  rw [own]
  induction db.entries with
  | nil => rfl
  | cons e entries ih =>
    rw [List.map_cons, List.sum_cons, Multiset.card_add, ih, List.countP_cons]
    rcases e with ⟨_, - | filter | -⟩
    · exact zero_add _
    · simp only [StoredValue.own, StoredValue.isFilter, Obj.own, Multiset.card_add,
        Multiset.card_singleton, if_true]
      omega
    · exact zero_add _

/-- Two blocks for each key that holds a filter. -/
theorem Store.card_own {db : Store} {keys : Finset Bytes}
    (hkeys : ∀ key, key ∈ keys ↔ ∃ f, db.view key = some (.xorFilter f)) :
    db.own.card = 2 * keys.card := by
  have hfilters : ((db.entries.filter fun e => e.2.isFilter).map Sigma.fst).toFinset = keys := by
    ext key
    rw [hkeys, List.mem_toFinset, List.mem_map]
    constructor
    · rintro ⟨⟨key, value⟩, he, rfl⟩
      obtain ⟨hmem, hfilter⟩ := List.mem_filter.1 he
      have hvalue : db.lookup key = some value := AList.mem_lookup_iff.2 hmem
      rcases value with s | filter | -
      · cases hfilter
      · exact ⟨filter.val, by rw [view, hvalue]; rfl⟩
      · cases hfilter
    · rintro ⟨f, hf⟩
      obtain ⟨value, hvalue, hview⟩ := Option.map_eq_some_iff.1 hf
      have hmem : (⟨key, value⟩ : Sigma fun _ : Bytes => StoredValue) ∈ db.entries :=
        AList.mem_lookup_iff.1 hvalue
      refine ⟨_, List.mem_filter.2 ⟨hmem, ?_⟩, rfl⟩
      rcases value with s | filter | -
      · cases hview
      · rfl
      · cases hview
  have hnodup : ((db.entries.filter fun e => e.2.isFilter).map Sigma.fst).Nodup :=
    List.NodupKeys.sublist List.filter_sublist db.nodupKeys
  rw [db.card_own_eq_countP, List.countP_eq_length_filter, ← hfilters,
    List.toFinset_card_of_nodup hnodup, List.length_map]

/-- A set is written, a filter is built from it twice under one key and loaded
under a second one, which is then deleted: the blocks of the filter that was
overwritten and of the one that was deleted are free again. -/
def twoBuilds : List Event :=
  let build := Event.xorBuild default [.array 0 [[97], [98], [99]]] [[0], [100], [115], [56]]
  [.write [115] (some (.set threeMembers)), build, build,
    .xorLoadChunk [[0], [101], [48], dumpBytes default threeFilter], .write [101] none]

/-- Its calls are fair, and one filter is left. -/
theorem twoBuilds_run :
    (fairMachine hashBuild insertionQsort digitRedis).Admits (fun _ => none) twoBuilds ∧
      ∀ key, key ∈ ({[100]} : Finset Bytes) ↔ ∃ f,
        (serverMachine hashBuild insertionQsort digitRedis).state (fun _ => none) twoBuilds key =
          some (.xorFilter f) := by
  let db₁ : Keyspace := redisWrite (fun _ => none) [115] (some (.set threeMembers))
  let db₂ : Keyspace := Function.update db₁ [100] (some (.xorFilter threeFilter))
  let db₃ : Keyspace := Function.update db₂ [100] (some (.xorFilter threeFilter))
  let db₄ : Keyspace := Function.update db₃ [101] (some (.xorFilter threeFilter))
  have hbuild₁ := execute_threeMembers default (show db₁ [115] = some (.set threeMembers) from rfl)
  have hbuild₂ := execute_threeMembers default (show db₂ [115] = some (.set threeMembers) from rfl)
  constructor
  · refine fairMachine_admits_cons ⟨trivial, trivial, trivial⟩ rfl ?_
    refine fairMachine_admits_cons (careful_build default rfl []).2 hbuild₁ ?_
    refine fairMachine_admits_cons (careful_build default rfl []).2 hbuild₂ ?_
    refine fairMachine_admits_cons (fair_threeFilter db₃) (execute_threeFilter db₃) ?_
    exact fairMachine_admits_cons ⟨trivial, trivial, trivial⟩ rfl trivial
  · intro key
    have hwrite : ((serverMachine hashBuild insertionQsort digitRedis).step (fun _ => none)
        (.write [115] (some (.set threeMembers)))).2 = db₁ := rfl
    have hdelete : ((serverMachine hashBuild insertionQsort digitRedis).step db₄
        (.write [101] none)).2 = Function.update db₄ [101] none := rfl
    rw [twoBuilds, Machine.state_cons, Machine.state_cons, Machine.state_cons, Machine.state_cons,
      Machine.state_cons, Machine.state_nil, hwrite, serverMachine_step hbuild₁,
      serverMachine_step hbuild₂, serverMachine_step (execute_threeFilter db₃), hdelete,
      Finset.mem_singleton]
    constructor
    · rintro rfl
      exact ⟨threeFilter, (Function.update_of_ne (by decide) _ _).trans
        ((Function.update_of_ne (by decide) _ _).trans (Function.update_self _ _ _))⟩
    · rintro ⟨f, hf⟩
      simp only [redisWrite, db₄, db₃, db₂, db₁, Function.update_apply] at hf
      split_ifs at hf with hdeleted hbuilt hset
      · exact hbuilt
      · cases hf

end RedisXor
