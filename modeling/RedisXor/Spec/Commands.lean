import RedisXor.Spec.Server

/-! What `RedisModule_OnLoad` tells Redis about the commands: whether they write,
and which of their arguments are keys. Redis checks access rights and routes
commands by these, not by what the handlers do. -/

namespace RedisXor

/-- The arguments of `RedisModule_CreateCommand` beside the handler. The flags
are "write" or "readonly". -/
structure CommandInfo where
  name : String
  write : Bool
  firstKey : ℕ
  lastKey : ℕ
  keyStep : ℕ
  deriving DecidableEq, Repr

def xorBuildInfo : CommandInfo := ⟨"xor.build", true, 1, 1, 1⟩
def xorInfoInfo : CommandInfo := ⟨"xor.info", false, 1, 1, 1⟩
def xorExistsInfo : CommandInfo := ⟨"xor.exists", false, 1, 1, 1⟩
def xorScanDumpInfo : CommandInfo := ⟨"xor.scandump", false, 1, 1, 1⟩
def xorLoadChunkInfo : CommandInfo := ⟨"xor.loadchunk", true, 1, 1, 1⟩

/-- The arguments Redis takes to be keys. -/
def CommandInfo.keys (info : CommandInfo) (argv : List Bytes) : List Bytes :=
  (List.range' info.firstKey ((info.lastKey - info.firstKey) / info.keyStep + 1)
    info.keyStep).filterMap fun i => argv[i]?

/-- How a call of the module was registered, and its arguments. -/
def Event.registered : Event → Option (CommandInfo × List Bytes)
  | .xorBuild _ _ argv => some (xorBuildInfo, argv)
  | .xorInfo argv => some (xorInfoInfo, argv)
  | .xorExists argv => some (xorExistsInfo, argv)
  | .xorScanDump _ argv => some (xorScanDumpInfo, argv)
  | .xorLoadChunk argv => some (xorLoadChunkInfo, argv)
  | .write _ _ => none
  | .rename _ _ => none

/-- The keys Redis knows of before it runs the call. -/
def Event.declaredKeys : Event → List Bytes
  | .write key _ => [key]
  | .rename key newKey => [key, newKey]
  | event => (event.registered.map fun p => p.1.keys p.2).getD []

/-- With the set that XOR.BUILD opens and scans. -/
def Event.usedKeys : Event → List Bytes
  | .xorBuild mem replies argv =>
    (Event.xorBuild mem replies argv).declaredKeys ++ argv[2]?.toList
  | event => event.declaredKeys

end RedisXor
