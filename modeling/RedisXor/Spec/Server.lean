import RedisXor.Lib.Refinement
import RedisXor.Spec.Main

/-! The server: one keyspace, on which the commands of the module and those of
Redis itself run one after the other. -/

namespace RedisXor

open Refinement

/-- What `RedisModule_Call` returns for `SSCAN`: NULL, a reply of another type,
or an array of the cursor and the items. -/
inductive CallReply where
  | null
  | notArray
  | array (cursor : ℕ) (items : List Bytes)

def CallReply.view : CallReply → ScanReply
  | .array cursor items => .batch cursor items
  | _ => .failed

/-- The values that commands of Redis itself write. -/
inductive PlainValue where
  | set (s : RedisSet)
  | other

def PlainValue.toValue : PlainValue → RedisValue
  | .set s => .set s
  | .other => .other

/-- A call, with the memory it happens to find. `write` stands for the commands of
Redis that write a plain value or delete a key, and for the expiry of a key; a
filter that is put by `RESTORE` or `COPY` is no event, so filters come from
`XOR.BUILD` and `XOR.LOADCHUNK` alone. -/
inductive Event where
  | xorBuild (mem : Memory) (replies : List CallReply) (argv : List Bytes)
  | xorInfo (argv : List Bytes)
  | xorExists (argv : List Bytes)
  | xorScanDump (mem : Memory) (argv : List Bytes)
  | xorLoadChunk (argv : List Bytes)
  | write (key : Bytes) (value : Option PlainValue)
  | rename (key newKey : Bytes)

def redisWrite (db : Keyspace) (key : Bytes) (value : Option PlainValue) : Keyspace :=
  Function.update db key (value.map PlainValue.toValue)

def redisRename (db : Keyspace) (key newKey : Bytes) : Reply × Keyspace :=
  match db key with
  | none => (.error "ERR no such key", db)
  | some value =>
    (.simpleString "OK", Function.update (Function.update db key none) newKey (some value))

/-- `none` when the replies to `SSCAN` end before the command does, or when it
makes a lookup that C leaves undefined. -/
def execute (hashBuild : Bytes → UInt64) (qsort : Qsort) (redis : Redis) (db : Keyspace) :
    Event → Option (Reply × Keyspace)
  | .xorBuild mem replies argv =>
    xorBuildCommand hashBuild qsort mem redis (replies.map CallReply.view) db argv
  | .xorInfo argv => some (xorInfoCommand db argv, db)
  | .xorExists argv => (xorExistsCommand hashBuild db argv).map fun reply => (reply, db)
  | .xorScanDump mem argv => some (xorScanDumpCommand mem redis db argv, db)
  | .xorLoadChunk argv => some (xorLoadChunkCommand redis db argv)
  | .write key value => some (.simpleString "OK", redisWrite db key value)
  | .rename key newKey => some (redisRename db key newKey)

/-- A call is allowed when it ends. -/
def serverMachine (hashBuild : Bytes → UInt64) (qsort : Qsort) (redis : Redis) :
    Machine Keyspace Event (Option Reply) where
  pre db event := (execute hashBuild qsort redis db event).isSome
  step db event :=
    match execute hashBuild qsort redis db event with
    | none => (none, db)
    | some (reply, db') => (some reply, db')

end RedisXor
