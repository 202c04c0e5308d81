import RedisXor.Spec.RedisApi

/-! The commands of `src/main.c` with the blocks they use: key handles, replies
to calls, the hashes, the dump buffer and the filters. Redis calls `xor_free` on
a filter whose key is overwritten or deleted. -/

namespace RedisXor

open Ownership Refinement

section Commands

variable (api : RedisApi) (hashBuild : Bytes → UInt64) (qsort : Qsort) (mem : Memory)
  (redis : Redis)

/-! XOR.BUILD -/

/-- The inner `for` loop. -/
def loadBatchH (numItems hashes : ℕ) (loaded : List UInt64) (items : List Bytes) :
    HeapM (List UInt64) :=
  items.foldlM (fun loaded item => do
    if loaded.length < numItems then
      access hashes loaded.length 1
      return loaded ++ [hashBuild item]
    else return loaded) loaded

/-- The `while` loop. A reply that is no array is freed, the caller frees the
rest. -/
def scanLoopH (numItems hashes : ℕ) : List CallReply → List UInt64 → HeapM ScanResult
  | [], loaded => return if loaded.length < numItems then .unanswered else .loaded loaded
  | callReply :: replies, loaded => do
    if loaded.length < numItems then
      match ← api.call callReply with
      | none => return .failed
      | some reply =>
        match ← api.callReply callReply reply with
        | .failed => do
          api.freeCallReply reply
          return .failed
        | .batch cursor items => do
          let loaded ← loadBatchH hashBuild numItems hashes loaded items
          api.freeCallReply reply
          if cursor = 0 then return .loaded loaded
          else scanLoopH numItems hashes replies loaded
    else return .loaded loaded

def dedupStepH (hashes : ℕ) (s : List UInt64 × ℕ) (i : ℕ) : HeapM (List UInt64 × ℕ) := do
  access hashes i 1
  if i ≠ 0 then access hashes (i - 1) 1
  if i = 0 ∨ s.1.getD i 0 ≠ s.1.getD (i - 1) 0 then access hashes s.2 1
  return dedupStep s i

/-- The end of `XorBuild_Command`, with the filter that `xor_build` returned. -/
def storeFilterH (db : Store) (dest : Bytes) (numItems : ℕ) (sourceKey : Option ℕ) :
    Option (Obj XorFilter) → HeapM (Reply × Store)
  | none => do
    api.closeKey sourceKey
    return (.error "Failed to build xor filter", db)
  | some filter => do
    match ← api.openKeyWrite db dest with
    | none => do
      xorFreeH filter
      api.closeKey sourceKey
      return (.error "Cannot open destination key", db)
    | some destKey => do
      let db ← api.moduleTypeSetValue xorFreeH db dest destKey filter
      api.closeKey sourceKey
      api.closeKey (some destKey)
      return (.integer numItems, db)

/-- The part of `XorBuild_Command` after the checks of the source. -/
def buildFromSetH (replies : List CallReply) (db : Store) (dest : Bytes) (fpSize : FingerprintSize)
    (numItems : ℕ) (sourceKey : Option ℕ) : HeapM (Option (Reply × Store)) := do
  let hashes ← alloc numItems
  match ← scanLoopH api hashBuild numItems hashes replies [] with
  | .unanswered => return none
  | .failed => do
    free hashes
    api.closeKey sourceKey
    return some (.error "Failed to scan SET members", db)
  | .loaded loaded => do
    access hashes 0 loaded.length
    let s ← (List.range loaded.length).foldlM (dedupStepH hashes) (qsort.run loaded, 0)
    match ← xorBuildH mem ⟨hashes, s.1.take s.2⟩ fpSize with
    | none => return none
    | some filter => do
      free hashes
      let r ← storeFilterH api db dest numItems sourceKey filter
      return some r

def xorBuildCommandH (replies : List CallReply) (db : Store) (argv : List Bytes) :
    HeapM (Option (Reply × Store)) :=
  match argv with
  | [_, dest, source, bits] =>
    match redis.stringToLongLong bits with
    | none => return some (.error "Fingerprint size must be 4, 8, 16 or 32", db)
    | some fpBits =>
      if fpBits ≠ 4 ∧ fpBits ≠ 8 ∧ fpBits ≠ 16 ∧ fpBits ≠ 32 then
        return some (.error "Fingerprint size must be 4, 8, 16 or 32", db)
      else do
        let sourceKey ← api.openKeyRead db source
        match ← api.keyValue db source sourceKey with
        | some (.set s) => do
          if s.members.length = 0 then
            api.closeKey sourceKey
            return some (.error "SET is empty", db)
          else
            buildFromSetH api hashBuild qsort mem replies db dest (UInt32.ofNat fpBits.toNat)
              s.members.length sourceKey
        | _ => do
          api.closeKey sourceKey
          return some (.error "key is not SET", db)
  | _ => return some (.wrongArity, db)

/-! The other commands -/

/-- Under `RedisModule_AutoMemory` Redis closes the key when the command
returns. -/
def xorInfoCommandH (db : Store) (argv : List Bytes) : HeapM Reply :=
  match argv with
  | [_, name] => do
    let key ← api.openKeyRead db name
    match ← api.keyValue db name key with
    | none => do
      api.closeKey key
      return .error "ERR key does not exist"
    | some (.xorFilter filter) => do
      let reply ← filter.fields fun f => Reply.map
        [("seed", f.seed.toNat), ("fp_size", f.fpSize.toNat),
          ("segment_size", f.segmentSize.toNat), ("reallocations", f.reallocations.toNat)]
      api.closeKey key
      return reply
    | some _ => do
      api.closeKey key
      return .error errorWrongType
  | _ => return .wrongArity

def xorExistsCommandH (db : Store) (argv : List Bytes) : HeapM Reply :=
  match argv with
  | [_, name, item] => do
    match ← api.openKeyRead db name with
    | none => return .integer 0
    | some key =>
      match ← api.keyValue db name (some key) with
      | some (.xorFilter filter) => do
        let found ← xorCheckH hashBuild filter item
        api.closeKey (some key)
        return .integer (if found then 1 else 0)
      | _ => do
        api.closeKey (some key)
        return .integer 0
  | _ => return .wrongArity

def xorScanDumpCommandH (db : Store) (argv : List Bytes) : HeapM Reply :=
  match argv with
  | [_, name, cursor] =>
    if redis.stringToLongLong cursor ≠ some 0 then return .error "Invalid cursor"
    else do
      let key ← api.openKeyRead db name
      match ← api.keyValue db name key with
      | none => do
        api.closeKey key
        return .error "ERR key does not exist"
      | some (.xorFilter filter) => do
        let f ← filter.fields id
        let fingerprintsSize := getFingerprintsBytes f.fpSize (wrap32 (3 * f.segmentSize.toNat))
        let buffer ← alloc (16 + fingerprintsSize)
        access buffer 0 4
        access buffer 4 4
        access buffer 8 4
        access buffer 12 4
        access buffer 16 fingerprintsSize
        let bytes ← filter.array 0 fingerprintsSize (dumpBytes mem)
        api.closeKey key
        access buffer 0 (16 + fingerprintsSize)
        free buffer
        return .array [.integer 0, .stringBuffer bytes]
      | some _ => do
        api.closeKey key
        return .error errorWrongType
  | _ => return .wrongArity

/-- The handle is passed on unchecked, so a NULL handle is a fault. -/
def xorLoadChunkCommandH (db : Store) (argv : List Bytes) : HeapM (Reply × Store) :=
  match argv with
  | [_, name, cursor, data] =>
    if redis.stringToLongLong cursor ≠ some 0 then return (.error "Invalid cursor", db)
    else
      match loadChunk data with
      | .error msg => return (.error msg, db)
      | .ok f => do
        let fpBytesNeeded := getFingerprintsBytes f.fpSize (wrap32 (3 * f.segmentSize.toNat))
        let filter ← alloc 1
        access filter 0 1
        let fingerprints ← alloc fpBytesNeeded
        access fingerprints 0 fpBytesNeeded
        match ← api.openKeyWrite db name with
        | none => fault
        | some key => do
          let db ← api.moduleTypeSetValue xorFreeH db name key ⟨filter, fingerprints, f⟩
          api.closeKey (some key)
          return (.simpleString "OK", db)
  | _ => return (.wrongArity, db)

/-! The server -/

/-- A command that leaves the keyspace alone. -/
def readOnly (db : Store) (command : HeapM Reply) : HeapM (Option (Reply × Store)) := do
  let reply ← command
  return some (reply, db)

def executeH (db : Store) : Event → HeapM (Option (Reply × Store))
  | .xorBuild mem replies argv => xorBuildCommandH api hashBuild qsort mem redis replies db argv
  | .xorInfo argv => readOnly db (xorInfoCommandH api db argv)
  | .xorExists argv => readOnly db (xorExistsCommandH api hashBuild db argv)
  | .xorScanDump mem argv => readOnly db (xorScanDumpCommandH api mem redis db argv)
  | .xorLoadChunk argv => do
    let r ← xorLoadChunkCommandH api redis db argv
    return some r
  | .write key value => do
    let db ← api.write xorFreeH db key value
    return some (.simpleString "OK", db)
  | .rename key newKey => do
    let r ← api.rename xorFreeH db key newKey
    return some r

/-- The server and its heap. A call is allowed when it ends without a fault. -/
def heapMachine : Machine (Heap × Store) Event (Option Reply) where
  pre s event := ((executeH api hashBuild qsort redis s.2 event s.1).bind Prod.fst).isSome
  step s event :=
    match executeH api hashBuild qsort redis s.2 event s.1 with
    | some (some (reply, db), heap) => (some reply, (heap, db))
    | _ => (none, s)

end Commands

end RedisXor
