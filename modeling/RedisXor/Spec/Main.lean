import Mathlib.Logic.Function.Basic
import Mathlib.Data.List.Nodup
import RedisXor.Spec.Xor

/-! The commands of `src/main.c`, as functions of the keyspace and of what
Redis answers to their calls. Set members and looked-up items are shorter than
2^31 bytes, so that their length survives the cast to `int`. -/

namespace RedisXor

open LittleEndian

abbrev Bytes := List UInt8

/-- A Redis set lists each member once. -/
structure RedisSet where
  members : List Bytes
  nodup : members.Nodup

inductive RedisValue where
  | set (s : RedisSet)
  | xorFilter (filter : XorFilter)
  | other

abbrev Keyspace := Bytes → Option RedisValue

inductive Reply where
  | wrongArity
  | error (msg : String)
  | integer (n : ℤ)
  | simpleString (s : String)
  | stringBuffer (s : Bytes)
  | array (elements : List Reply)
  | map (entries : List (String × ℤ))

def errorWrongType : String :=
  "WRONGTYPE Operation against a key holding the wrong kind of value"

def cmpUInt64 (va vb : UInt64) : ℤ :=
  (if va > vb then 1 else 0) - (if va < vb then 1 else 0)

/-- `qsort` of the C library called with `cmp_uint64`: some function that
permutes its array into an order the comparison accepts. -/
structure Qsort where
  run : List UInt64 → List UInt64
  perm : ∀ hashes, (run hashes).Perm hashes
  sorted : ∀ hashes, (run hashes).Pairwise fun a b => cmpUInt64 a b ≤ 0

/-- The parts of Redis the commands consult beside the keyspace. -/
structure Redis where
  stringToLongLong : Bytes → Option ℤ
  opensForWriting : Bytes → Bool

/-- A reply to `SSCAN`, its cursor read by `strtoull`; `failed` is a NULL reply
or one that is not an array. -/
inductive ScanReply where
  | failed
  | batch (cursor : ℕ) (items : List Bytes)

def getFingerprintsBytes (fpSize : FingerprintSize) (count : ℕ) : ℕ :=
  if fpSize = FP4 then wrap32 (count + 1) / 2 else count * (fpSize / 8).toNat

/-! XOR.BUILD -/

/-- The inner `for` loop: the array has room for `numItems` hashes. -/
def loadBatch (hashBuild : Bytes → UInt64) (numItems : ℕ) (hashes : List UInt64)
    (items : List Bytes) : List UInt64 :=
  items.foldl (fun hashes item =>
    if hashes.length < numItems then hashes ++ [hashBuild item] else hashes) hashes

inductive ScanResult where
  | failed
  | unanswered
  | loaded (hashes : List UInt64)
  deriving DecidableEq

/-- The `while` loop, over the replies Redis gives to its calls in turn. -/
def scanLoop (hashBuild : Bytes → UInt64) (numItems : ℕ) :
    List ScanReply → List UInt64 → ScanResult
  | [], hashes => if hashes.length < numItems then .unanswered else .loaded hashes
  | reply :: replies, hashes =>
    if hashes.length < numItems then
      match reply with
      | .failed => .failed
      | .batch cursor items =>
        let hashes := loadBatch hashBuild numItems hashes items
        if cursor = 0 then .loaded hashes else scanLoop hashBuild numItems replies hashes
    else .loaded hashes

/-- One round of the loop that drops repeats: the array is overwritten while it
is read, and the second component is `unique_count`. -/
def dedupStep (s : List UInt64 × ℕ) (i : ℕ) : List UInt64 × ℕ :=
  if i = 0 ∨ s.1.getD i 0 ≠ s.1.getD (i - 1) 0 then (s.1.set s.2 (s.1.getD i 0), s.2 + 1) else s

/-- The prefix of the array that is handed to `xor_build`. -/
def dedup (hashes : List UInt64) : List UInt64 :=
  let s := (List.range hashes.length).foldl dedupStep (hashes, 0)
  s.1.take s.2

/-- `none` when `replies` ends before the command does. -/
def xorBuildCommand (hashBuild : Bytes → UInt64) (qsort : Qsort) (mem : Memory) (redis : Redis)
    (replies : List ScanReply) (db : Keyspace) (argv : List Bytes) : Option (Reply × Keyspace) :=
  match argv with
  | [_, dest, source, bits] =>
    match redis.stringToLongLong bits with
    | none => some (.error "Fingerprint size must be 4, 8, 16 or 32", db)
    | some fpBits =>
      if fpBits ≠ 4 ∧ fpBits ≠ 8 ∧ fpBits ≠ 16 ∧ fpBits ≠ 32 then
        some (.error "Fingerprint size must be 4, 8, 16 or 32", db)
      else
        match db source with
        | some (.set s) =>
          let numItems := s.members.length
          if numItems = 0 then some (.error "SET is empty", db)
          else
            match scanLoop hashBuild numItems replies [] with
            | .unanswered => none
            | .failed => some (.error "Failed to scan SET members", db)
            | .loaded hashes =>
              match xorBuild mem (dedup (qsort.run hashes)) (UInt32.ofNat fpBits.toNat) with
              | none => none
              | some none => some (.error "Failed to build xor filter", db)
              | some (some filter) =>
                if redis.opensForWriting dest then
                  some (.integer numItems, Function.update db dest (some (.xorFilter filter)))
                else some (.error "Cannot open destination key", db)
        | _ => some (.error "key is not SET", db)
  | _ => some (.wrongArity, db)

/-! The other commands -/

def xorInfoCommand (db : Keyspace) (argv : List Bytes) : Reply :=
  match argv with
  | [_, key] =>
    match db key with
    | none => .error "ERR key does not exist"
    | some (.xorFilter filter) =>
      .map [("seed", filter.seed.toNat), ("fp_size", filter.fpSize.toNat),
        ("segment_size", filter.segmentSize.toNat), ("reallocations", filter.reallocations.toNat)]
    | some _ => .error errorWrongType
  | _ => .wrongArity

/-- `none` is a lookup that C leaves undefined. -/
def xorExistsCommand (hashBuild : Bytes → UInt64) (db : Keyspace) (argv : List Bytes) :
    Option Reply :=
  match argv with
  | [_, key, item] =>
    match db key with
    | some (.xorFilter filter) =>
      (xorCheck hashBuild filter item).map fun found => .integer (if found then 1 else 0)
    | _ => some (.integer 0)
  | _ => some .wrongArity

/-- The five `memcpy` calls into the reply buffer. -/
def dumpBytes (mem : Memory) (filter : XorFilter) : Bytes :=
  let count := wrap32 (3 * filter.segmentSize.toNat)
  bytesLE 4 filter.segmentSize.toNat ++ bytesLE 4 filter.seed.toNat ++
    bytesLE 4 filter.fpSize.toNat ++ bytesLE 4 filter.reallocations.toNat ++
    readBuffer mem filter.fingerprints (getFingerprintsBytes filter.fpSize count)

def xorScanDumpCommand (mem : Memory) (redis : Redis) (db : Keyspace) (argv : List Bytes) :
    Reply :=
  match argv with
  | [_, key, cursor] =>
    if redis.stringToLongLong cursor ≠ some 0 then .error "Invalid cursor"
    else
      match db key with
      | none => .error "ERR key does not exist"
      | some (.xorFilter filter) => .array [.integer 0, .stringBuffer (dumpBytes mem filter)]
      | some _ => .error errorWrongType
  | _ => .wrongArity

/-- The checks of `XorLoadChunk_Command` on its payload, and the filter it
allocates when they pass. -/
def loadChunk (data : Bytes) : Except String XorFilter :=
  let metadataSize := 16
  if data.length < metadataSize then .error "Invalid XOR filter data"
  else
    let segmentSize := UInt32.ofNat (readLE 4 data 0)
    let seed := UInt32.ofNat (readLE 4 data 4)
    let fpSize : FingerprintSize := UInt32.ofNat (readLE 4 data 8)
    let reallocations := UInt32.ofNat (readLE 4 data 12)
    if fpSize ≠ FP4 ∧ fpSize ≠ FP8 ∧ fpSize ≠ FP16 ∧ fpSize ≠ FP32 then
      .error "Invalid fingerprint size"
    else
      let count := wrap32 (3 * segmentSize.toNat)
      let fpBytesNeeded := getFingerprintsBytes fpSize count
      if data.length ≠ metadataSize + fpBytesNeeded then .error "Invalid XOR filter size"
      else .ok
        { fingerprints := (data.drop metadataSize).take fpBytesNeeded
          segmentSize := segmentSize, seed := seed, fpSize := fpSize
          reallocations := reallocations }

/-- The command does not check the handle it gets from `RedisModule_OpenKey`;
here the key can be opened for writing. -/
def xorLoadChunkCommand (redis : Redis) (db : Keyspace) (argv : List Bytes) : Reply × Keyspace :=
  match argv with
  | [_, key, cursor, data] =>
    if redis.stringToLongLong cursor ≠ some 0 then (.error "Invalid cursor", db)
    else
      match loadChunk data with
      | .error msg => (.error msg, db)
      | .ok filter => (.simpleString "OK", Function.update db key (some (.xorFilter filter)))
  | _ => (.wrongArity, db)

/-! The data type -/

/-- The encoding version `RedisModule_OnLoad` registers for `"xorfilt00"`;
Redis hands it to `rdb_load` for every value saved under it. -/
def xorFilterTypeEncver : ℤ := 1

end RedisXor
