import Mathlib.Data.List.AList
import RedisXor.Spec.Heap
import RedisXor.Spec.Server

/-! The functions of Redis that the module calls. Redis is not part of this
repository, so they are a parameter, with what the module API documents about
them: which blocks they give out and take back, and what they say of the keys. -/

namespace RedisXor

open Ownership

inductive StoredValue where
  | set (s : RedisSet)
  | xorFilter (filter : Obj XorFilter)
  | other

namespace StoredValue

def view : StoredValue → RedisValue
  | .set s => .set s
  | .xorFilter filter => .xorFilter filter.val
  | .other => .other

/-- The blocks of the module that a value holds. -/
def own : StoredValue → Multiset Block
  | .xorFilter filter => filter.own
  | _ => 0

end StoredValue

/-- The keys that exist, each once, with their values. -/
abbrev Store := AList fun _ : Bytes => StoredValue

def Store.view (db : Store) : Keyspace := fun key => (db.lookup key).map StoredValue.view

def Store.own (db : Store) : Multiset Block := (db.entries.map fun e => e.2.own).sum

/-- The reply and the keyspace, without the blocks. -/
def Store.outcome (p : Reply × Store) : Reply × Keyspace := (p.1, p.2.view)

/-- The block of a handle or of a reply, none for NULL. -/
def handleOwn (handle : Option ℕ) : Multiset Block := handle.elim 0 fun p => {⟨p, 1⟩}

/-- A callback that releases a filter. -/
abbrev FreeCallback := Obj XorFilter → HeapM Unit

structure RedisApi where
  openKeyRead : Store → Bytes → HeapM (Option ℕ)
  openKeyWrite : Store → Bytes → HeapM (Option ℕ)
  /-- What the type and the value of a key are read from. -/
  keyValue : Store → Bytes → Option ℕ → HeapM (Option StoredValue)
  closeKey : Option ℕ → HeapM Unit
  moduleTypeSetValue : FreeCallback → Store → Bytes → ℕ → Obj XorFilter → HeapM Store
  /-- `RedisModule_Call`, which comes back with the given reply. -/
  call : CallReply → HeapM (Option ℕ)
  /-- What the type and the elements of a reply are read from. -/
  callReply : CallReply → ℕ → HeapM ScanReply
  freeCallReply : ℕ → HeapM Unit
  /-- The commands of Redis that overwrite or delete a key. -/
  write : FreeCallback → Store → Bytes → Option PlainValue → HeapM Store
  rename : FreeCallback → Store → Bytes → Bytes → HeapM (Reply × Store)

/-- The callback releases the blocks of its filter. -/
def Frees (free : FreeCallback) : Prop :=
  ∀ filter : Obj XorFilter, Triple filter.own (free filter) (fun _ => True) fun _ => 0

/-- The documented behaviour. A key that does not exist opens to NULL for reading;
handles and replies stay valid until they are closed; a value that is overwritten
or deleted is handed to the callback of its type. -/
structure RedisApi.Lawful (api : RedisApi) (redis : Redis) : Prop where
  openKeyRead : ∀ db name, Triple 0 (api.openKeyRead db name)
    (fun key => key.isSome = (db.lookup name).isSome) handleOwn
  openKeyWrite : ∀ db name, Triple 0 (api.openKeyWrite db name)
    (fun key => key.isSome = redis.opensForWriting name) handleOwn
  keyValue : ∀ db name key, key.isSome = (db.lookup name).isSome →
    Triple (handleOwn key) (api.keyValue db name key) (fun value => value = db.lookup name)
      fun _ => handleOwn key
  closeKey : ∀ key, Triple (handleOwn key) (api.closeKey key) (fun _ => True) fun _ => 0
  moduleTypeSetValue : ∀ free, Frees free → ∀ db name key (filter : Obj XorFilter),
    Triple (db.own + filter.own + {⟨key, 1⟩}) (api.moduleTypeSetValue free db name key filter)
      (fun db' => db'.view = Function.update db.view name (some (.xorFilter filter.val)))
      fun db' => db'.own + {⟨key, 1⟩}
  call : ∀ reply, Triple 0 (api.call reply) (fun p => p = none ↔ reply = .null) handleOwn
  callReply : ∀ reply p, Triple {⟨p, 1⟩} (api.callReply reply p) (fun r => r = reply.view)
    fun _ => {⟨p, 1⟩}
  freeCallReply : ∀ p, Triple {⟨p, 1⟩} (api.freeCallReply p) (fun _ => True) fun _ => 0
  write : ∀ free, Frees free → ∀ db key value, Triple db.own (api.write free db key value)
    (fun db' => db'.view = redisWrite db.view key value) Store.own
  rename : ∀ free, Frees free → ∀ db key newKey, Triple db.own (api.rename free db key newKey)
    (fun p => Store.outcome p = redisRename db.view key newKey) fun p => p.2.own

end RedisXor
