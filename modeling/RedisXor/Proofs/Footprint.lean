import RedisXor.Lib.Footprint
import RedisXor.Proofs.Server
import RedisXor.Spec.Commands

/-! Which keys a command touches. All of them write only keys they were
registered with and read no others, except that XOR.BUILD reads the set it builds
from. With that key counted in, clients with disjoint keys never notice one
another, in whatever order their commands arrive. -/

namespace RedisXor

open Footprint Refinement

/-- The call is going to open a key that Redis was not told of. -/
def OpensUndeclared (redis : Redis) : Event → Prop
  | .xorBuild _ _ [_, dest, source, bits] => source ≠ dest ∧ admittedBits redis bits ≠ none
  | _ => False

section Calls

variable {hashBuild : Bytes → UInt64} {qsort : Qsort} {redis : Redis} {event : Event}
  {S : Set Bytes} {db : Keyspace}

variable (hashBuild qsort redis event S db) in
/-- `plan` is what the call does to every keyspace that agrees with `db` on `S`. -/
def DoesAlike (plan : Option (Reply × (Keyspace → Keyspace))) : Prop :=
  (∀ p ∈ plan, Writes S p.2) ∧ ∀ db', Set.EqOn db db' S →
    execute hashBuild qsort redis db' event = plan.map fun p => (p.1, p.2 db')

theorem confined_of_doesAlike
    (h : ∀ db, ∃ plan, DoesAlike hashBuild qsort redis event S db plan) :
    Confined (serverMachine hashBuild qsort redis) event S := by
  refine confined_of_writes fun db db' hdb => ?_
  obtain ⟨plan, hwrites, hrun⟩ := h db
  have h₁ := hrun db (Set.eqOn_refl db S)
  have h₂ := hrun db' hdb
  rcases plan with - | ⟨reply, w⟩
  · refine ⟨?_, none, fun s => s, Writes.id S, ?_, ?_⟩
    · simp only [serverMachine, h₁, h₂, Option.map_none]
    · simp only [serverMachine, h₁, Option.map_none]
    · simp only [serverMachine, h₂, Option.map_none]
  · refine ⟨?_, some reply, w, hwrites _ rfl, ?_, ?_⟩
    · simp only [serverMachine, h₁, h₂, Option.map_some, Option.isSome_some]
    · simp only [serverMachine, h₁, Option.map_some]
    · simp only [serverMachine, h₂, Option.map_some]

theorem DoesAlike.unanswered
    (h : ∀ db', Set.EqOn db db' S → execute hashBuild qsort redis db' event = none) :
    ∃ plan, DoesAlike hashBuild qsort redis event S db plan :=
  ⟨none, by simp, h⟩

theorem DoesAlike.reads (reply : Reply)
    (h : ∀ db', Set.EqOn db db' S →
      execute hashBuild qsort redis db' event = some (reply, db')) :
    ∃ plan, DoesAlike hashBuild qsort redis event S db plan := by
  refine ⟨some (reply, fun s => s), fun p hp => ?_, h⟩
  obtain rfl := Option.some.inj hp
  exact Writes.id S

theorem DoesAlike.updates (reply : Reply) {key : Bytes} (hkey : key ∈ S) (value : Option RedisValue)
    (h : ∀ db', Set.EqOn db db' S →
      execute hashBuild qsort redis db' event = some (reply, Function.update db' key value)) :
    ∃ plan, DoesAlike hashBuild qsort redis event S db plan := by
  refine ⟨some (reply, fun s => Function.update s key value), fun p hp => ?_, h⟩
  obtain rfl := Option.some.inj hp
  exact (Writes.id S).update hkey value

/-- What XOR.BUILD makes of the set it found. -/
theorem xorBuild_set_doesAlike {mem : Memory} {replies : List CallReply}
    {cmd dest source bits : Bytes} (hdest : dest ∈ S) {fpSize : FingerprintSize} {s : RedisSet}
    (hrun : ∀ db', Set.EqOn db db' S →
      execute hashBuild qsort redis db' (.xorBuild mem replies [cmd, dest, source, bits]) =
        if s.members.length = 0 then some (.error "SET is empty", db')
        else
          match scanLoop hashBuild s.members.length (replies.map CallReply.view) [] with
          | .unanswered => none
          | .failed => some (.error "Failed to scan SET members", db')
          | .loaded hashes =>
            (xorBuild mem (dedup (qsort.run hashes)) fpSize).map
              (buildReply redis db' dest s.members.length)) :
    ∃ plan, DoesAlike hashBuild qsort redis (.xorBuild mem replies [cmd, dest, source, bits]) S db
      plan := by
  by_cases hlen : s.members.length = 0
  · refine DoesAlike.reads (.error "SET is empty") fun db' hdb => (hrun db' hdb).trans ?_
    rw [if_pos hlen]
  simp only [if_neg hlen] at hrun
  rcases hscan : scanLoop hashBuild s.members.length (replies.map CallReply.view) [] with
    - | - | hashes
  · refine DoesAlike.reads (.error "Failed to scan SET members") fun db' hdb =>
      (hrun db' hdb).trans ?_
    rw [hscan]
  · refine DoesAlike.unanswered fun db' hdb => (hrun db' hdb).trans ?_
    rw [hscan]
  simp only [hscan] at hrun
  rcases hbuild : xorBuild mem (dedup (qsort.run hashes)) fpSize with - | - | f
  · refine DoesAlike.unanswered fun db' hdb => (hrun db' hdb).trans ?_
    rw [hbuild, Option.map_none]
  · refine DoesAlike.reads (.error "Failed to build xor filter") fun db' hdb =>
      (hrun db' hdb).trans ?_
    rw [hbuild, Option.map_some, buildReply]
  by_cases hopens : redis.opensForWriting dest = true
  · refine DoesAlike.updates (.integer s.members.length) hdest (some (.xorFilter f))
      fun db' hdb => (hrun db' hdb).trans ?_
    rw [hbuild, Option.map_some, buildReply, if_pos hopens]
  · refine DoesAlike.reads (.error "Cannot open destination key") fun db' hdb =>
      (hrun db' hdb).trans ?_
    rw [hbuild, Option.map_some, buildReply, if_neg hopens]

/-- A build opens its source only once the width is admitted. -/
theorem xorBuild_doesAlike (mem : Memory) (replies : List CallReply) {argv : List Bytes}
    (hS : ∀ cmd dest source bits, argv = [cmd, dest, source, bits] →
      admittedBits redis bits ≠ none → dest ∈ S ∧ source ∈ S) (db : Keyspace) :
    ∃ plan, DoesAlike hashBuild qsort redis (.xorBuild mem replies argv) S db plan := by
  rcases argv with - | ⟨cmd, - | ⟨dest, - | ⟨source, - | ⟨bits, - | ⟨_, _⟩⟩⟩⟩⟩
  · exact DoesAlike.reads .wrongArity fun _ _ => rfl
  · exact DoesAlike.reads .wrongArity fun _ _ => rfl
  · exact DoesAlike.reads .wrongArity fun _ _ => rfl
  · exact DoesAlike.reads .wrongArity fun _ _ => rfl
  · rcases hbits : admittedBits redis bits with - | fpSize
    · refine DoesAlike.reads (.error "Fingerprint size must be 4, 8, 16 or 32") fun db' _ => ?_
      exact @xorBuildCommand_of_not_admitted hashBuild qsort mem redis
        (replies.map CallReply.view) db' cmd dest source bits hbits
    obtain ⟨hdest, hsource⟩ := hS cmd dest source bits rfl
      (by rw [hbits]; exact Option.some_ne_none fpSize)
    -- the outcome depends on the keyspace through its value at `source`
    have hrun (db' : Keyspace) (hdb : Set.EqOn db db' S) :=
      (hdb hsource) ▸ @xorBuildCommand_of_admitted hashBuild qsort mem redis
        (replies.map CallReply.view) db' cmd dest source bits fpSize hbits
    rcases hval : db source with - | s | f | -
    · refine DoesAlike.reads (.error "key is not SET") fun db' hdb => (hrun db' hdb).trans ?_
      rw [hval]
    · simp only [hval] at hrun
      exact xorBuild_set_doesAlike hdest hrun
    · refine DoesAlike.reads (.error "key is not SET") fun db' hdb => (hrun db' hdb).trans ?_
      rw [hval]
    · refine DoesAlike.reads (.error "key is not SET") fun db' hdb => (hrun db' hdb).trans ?_
      rw [hval]
  · exact DoesAlike.reads .wrongArity fun _ _ => rfl

/-- The other commands of the module open one key, the declared one. -/
theorem command_doesAlike {info : CommandInfo} {argv : List Bytes}
    (hreg : event.registered = some (info, argv)) (hbuild : info ≠ xorBuildInfo)
    (hS : ∀ k ∈ event.declaredKeys, k ∈ S) (db : Keyspace) :
    ∃ plan, DoesAlike hashBuild qsort redis event S db plan := by
  cases event with
  | xorBuild mem replies argv =>
    obtain ⟨rfl, -⟩ := Prod.mk.inj (Option.some.inj hreg)
    exact absurd rfl hbuild
  | xorInfo argv =>
    refine DoesAlike.reads (xorInfoCommand db argv) fun db' hdb => ?_
    rcases argv with - | ⟨cmd, - | ⟨key, - | ⟨_, _⟩⟩⟩
    · rfl
    · rfl
    · have hget : db key = db' key := hdb (hS key List.mem_cons_self)
      simp only [execute, xorInfoCommand, hget]
    · rfl
  | xorExists argv =>
    have hrun (db' : Keyspace) (hdb : Set.EqOn db db' S) :
        xorExistsCommand hashBuild db' argv = xorExistsCommand hashBuild db argv := by
      rcases argv with - | ⟨cmd, - | ⟨key, - | ⟨item, - | ⟨_, _⟩⟩⟩⟩
      · rfl
      · rfl
      · rfl
      · have hget : db key = db' key := hdb (hS key List.mem_cons_self)
        simp only [xorExistsCommand, hget]
      · rfl
    rcases hreply : xorExistsCommand hashBuild db argv with - | reply
    · refine DoesAlike.unanswered fun db' hdb => ?_
      simp only [execute, hrun db' hdb, hreply, Option.map_none]
    · refine DoesAlike.reads reply fun db' hdb => ?_
      simp only [execute, hrun db' hdb, hreply, Option.map_some]
  | xorScanDump mem argv =>
    refine DoesAlike.reads (xorScanDumpCommand mem redis db argv) fun db' hdb => ?_
    rcases argv with - | ⟨cmd, - | ⟨key, - | ⟨cursor, - | ⟨_, _⟩⟩⟩⟩
    · rfl
    · rfl
    · rfl
    · have hget : db key = db' key := hdb (hS key List.mem_cons_self)
      simp only [execute, xorScanDumpCommand, hget]
    · rfl
  | xorLoadChunk argv =>
    rcases argv with - | ⟨cmd, - | ⟨key, - | ⟨cursor, - | ⟨data, - | ⟨_, _⟩⟩⟩⟩⟩
    · exact DoesAlike.reads .wrongArity fun _ _ => rfl
    · exact DoesAlike.reads .wrongArity fun _ _ => rfl
    · exact DoesAlike.reads .wrongArity fun _ _ => rfl
    · exact DoesAlike.reads .wrongArity fun _ _ => rfl
    · by_cases hzero : redis.stringToLongLong cursor = some 0
      · rcases hload : loadChunk data with msg | f
        · refine DoesAlike.reads (.error msg) fun db' _ => ?_
          simp only [execute, xorLoadChunkCommand, hzero, hload, ne_eq, not_true_eq_false, if_false]
        · refine DoesAlike.updates (.simpleString "OK") (hS key List.mem_cons_self)
            (some (.xorFilter f)) fun db' _ => ?_
          simp only [execute, xorLoadChunkCommand, hzero, hload, ne_eq, not_true_eq_false, if_false]
      · refine DoesAlike.reads (.error "Invalid cursor") fun db' _ => ?_
        simp only [execute, xorLoadChunkCommand, hzero, ne_eq, not_false_eq_true, if_true]
    · exact DoesAlike.reads .wrongArity fun _ _ => rfl
  | write key value => cases hreg
  | rename key newKey => cases hreg

theorem write_doesAlike {key : Bytes} (value : Option PlainValue) (hkey : key ∈ S)
    (db : Keyspace) : ∃ plan, DoesAlike hashBuild qsort redis (.write key value) S db plan :=
  DoesAlike.updates (.simpleString "OK") hkey (value.map PlainValue.toValue) fun _ _ => rfl

theorem rename_doesAlike {key newKey : Bytes} (hkey : key ∈ S) (hnew : newKey ∈ S)
    (db : Keyspace) : ∃ plan, DoesAlike hashBuild qsort redis (.rename key newKey) S db plan := by
  rcases hval : db key with - | value
  · refine DoesAlike.reads (.error "ERR no such key") fun db' hdb => ?_
    simp only [execute, redisRename, ← hdb hkey, hval]
  · refine ⟨some (.simpleString "OK", fun s =>
      Function.update (Function.update s key none) newKey (some value)), fun p hp => ?_,
      fun db' hdb => ?_⟩
    · obtain rfl := Option.some.inj hp
      exact ((Writes.id S).update hkey none).update hnew (some value)
    · simp only [execute, redisRename, ← hdb hkey, hval, Option.map_some]

theorem declaredKeys_xorBuild (mem : Memory) (replies : List CallReply)
    (cmd dest source bits : Bytes) :
    (Event.xorBuild mem replies [cmd, dest, source, bits]).declaredKeys = [dest] := by
  simp [Event.declaredKeys, Event.registered, CommandInfo.keys, xorBuildInfo]

theorem usedKeys_xorBuild (mem : Memory) (replies : List CallReply)
    (cmd dest source bits : Bytes) :
    (Event.xorBuild mem replies [cmd, dest, source, bits]).usedKeys = [dest, source] := by
  rw [Event.usedKeys, declaredKeys_xorBuild]
  rfl

theorem confined_usedKeys (event : Event) :
    Confined (serverMachine hashBuild qsort redis) event {k | k ∈ event.usedKeys} := by
  apply confined_of_doesAlike
  cases event with
  | xorBuild mem replies argv =>
    refine xorBuild_doesAlike mem replies ?_
    rintro cmd dest source bits rfl -
    simp only [usedKeys_xorBuild, Set.mem_ofPred_eq]
    exact ⟨List.mem_cons_self, List.mem_cons_of_mem dest List.mem_cons_self⟩
  | xorInfo argv => exact command_doesAlike rfl (by decide) fun k hk => hk
  | xorExists argv => exact command_doesAlike rfl (by decide) fun k hk => hk
  | xorScanDump mem argv => exact command_doesAlike rfl (by decide) fun k hk => hk
  | xorLoadChunk argv => exact command_doesAlike rfl (by decide) fun k hk => hk
  | write key value => exact write_doesAlike value List.mem_cons_self
  | rename key newKey =>
    exact rename_doesAlike List.mem_cons_self (List.mem_cons_of_mem key List.mem_cons_self)

theorem confined_declaredKeys (h : ¬ OpensUndeclared redis event) :
    Confined (serverMachine hashBuild qsort redis) event {k | k ∈ event.declaredKeys} := by
  cases event with
  | xorBuild mem replies argv =>
    apply confined_of_doesAlike
    refine xorBuild_doesAlike mem replies ?_
    rintro cmd dest source bits rfl hbits
    have hsource : source = dest := by
      by_contra hne
      exact h ⟨hne, hbits⟩
    subst hsource
    simp only [declaredKeys_xorBuild, Set.mem_ofPred_eq]
    exact ⟨List.mem_cons_self, List.mem_cons_self⟩
  | _ => exact confined_usedKeys _

/-- A set that is not empty gets past the check of its type. -/
theorem xorBuildCommand_of_set {mem : Memory} {replies : List ScanReply}
    {cmd dest source bits : Bytes} (hbits : admittedBits redis bits ≠ none) {s : RedisSet}
    (hset : db source = some (.set s)) {db' : Keyspace} :
    xorBuildCommand hashBuild qsort mem redis replies db [cmd, dest, source, bits] ≠
      some (.error "key is not SET", db') := by
  obtain ⟨fpSize, hsize⟩ := Option.ne_none_iff_exists'.1 hbits
  rw [xorBuildCommand_of_admitted hsize, hset]
  intro h
  by_cases hlen : s.members.length = 0
  · simp [hlen] at h
  · simp only [if_neg hlen] at h
    split at h
    · cases h
    · simp at h
    · obtain ⟨r, -, hr⟩ := Option.map_eq_some_iff.1 h
      rcases r with - | f
      · simp [buildReply] at hr
      · rw [buildReply] at hr
        split_ifs at hr <;> simp at hr

/-- Two keyspaces that differ at the source alone are told apart. -/
theorem not_confined_of_opensUndeclared (h : OpensUndeclared redis event) :
    ¬ Confined (serverMachine hashBuild qsort redis) event {k | k ∈ event.declaredKeys} := by
  unfold OpensUndeclared at h
  split at h
  next mem replies cmd dest source bits =>
    obtain ⟨hne, hbits⟩ := h
    intro hconf
    let s : RedisSet := ⟨[[]], List.nodup_singleton _⟩
    let empty : Keyspace := fun _ => none
    let full : Keyspace := Function.update empty source (some (.set s))
    have hagree : Set.EqOn empty full
        {k | k ∈ (Event.xorBuild mem replies [cmd, dest, source, bits]).declaredKeys} := by
      intro k hk
      rw [Set.mem_ofPred_eq, declaredKeys_xorBuild, List.mem_singleton] at hk
      rw [hk]
      exact (Function.update_of_ne hne.symm _ _).symm
    have hrun : execute hashBuild qsort redis empty
        (.xorBuild mem replies [cmd, dest, source, bits]) =
          some (.error "key is not SET", empty) := by
      obtain ⟨fpSize, hsize⟩ := Option.ne_none_iff_exists'.1 hbits
      exact @xorBuildCommand_of_admitted hashBuild qsort mem redis
        (replies.map CallReply.view) empty cmd dest source bits fpSize hsize
    have hpre := (hconf.pre_congr empty full hagree).1 (by
      simp only [serverMachine, hrun, Option.isSome_some])
    have hanswer := hconf.answer_congr empty full hagree
    obtain ⟨⟨reply, db'⟩, hfull⟩ := Option.isSome_iff_exists.1 hpre
    simp only [serverMachine, hrun, hfull] at hanswer
    obtain rfl := Option.some.inj hanswer
    exact @xorBuildCommand_of_set hashBuild qsort redis full mem (replies.map CallReply.view)
      cmd dest source bits hbits s (Function.update_self _ _ _) db' hfull
  · exact h.elim

theorem execute_writes_declared {reply : Reply} {db' : Keyspace}
    (h : execute hashBuild qsort redis db event = some (reply, db')) {k : Bytes}
    (hk : k ∉ event.declaredKeys) : db' k = db k := by
  by_cases hund : OpensUndeclared redis event
  · unfold OpensUndeclared at hund
    split at hund
    next mem replies cmd dest source bits =>
      rw [declaredKeys_xorBuild, List.mem_singleton] at hk
      change xorBuildCommand hashBuild qsort mem redis (replies.map CallReply.view) db
        [cmd, dest, source, bits] = some (reply, db') at h
      rcases xorBuildCommand_cases h with rfl | ⟨-, s, hashes, f, -, rfl, -⟩
      · rfl
      · obtain ⟨cmd', dest', source', bits', -, -, f', hargv, -, -, rfl⟩ :=
          xorBuildCommand_integer h
        obtain ⟨-, hargv⟩ := List.cons.inj hargv
        obtain ⟨rfl, -⟩ := List.cons.inj hargv
        exact Function.update_of_ne hk _ _
    · exact hund.elim
  · have hframe := (@confined_declaredKeys hashBuild qsort redis event hund).frame db k hk
    simpa only [serverMachine, h] using hframe

end Calls

/-- What the registration promises and what the handlers do: no command changes a
key it did not declare, the readonly ones change none, nor does a call that is
answered with an error, and the outcome depends on the declared keys alone,
unless it is a build that opens another key. -/
theorem declared_keys_exact (hashBuild : Bytes → UInt64) (qsort : Qsort) (redis : Redis)
    (event : Event) :
    (∀ db reply db', execute hashBuild qsort redis db event = some (reply, db') →
      (∀ k ∉ event.declaredKeys, db' k = db k) ∧
      (∀ info argv, event.registered = some (info, argv) → info.write = false → db' = db) ∧
      ∀ msg, reply = .error msg → db' = db) ∧
    (Confined (serverMachine hashBuild qsort redis) event {k | k ∈ event.declaredKeys} ↔
      ¬ OpensUndeclared redis event) := by
  refine ⟨fun db reply db' h => ⟨fun k hk => execute_writes_declared h hk,
    fun info argv hreg hwrite => ?_, fun msg hreply => execute_of_error (hreply ▸ h)⟩,
    fun hconf hund => not_confined_of_opensUndeclared hund hconf, confined_declaredKeys⟩
  cases event with
  | xorBuild mem replies argv =>
    obtain ⟨rfl, -⟩ := Prod.mk.inj (Option.some.inj hreg)
    cases hwrite
  | xorInfo argv => exact (Prod.mk.inj (Option.some.inj h)).2.symm
  | xorExists argv =>
    obtain ⟨reply, -, hreply⟩ := Option.map_eq_some_iff.1 h
    exact (Prod.mk.inj hreply).2.symm
  | xorScanDump mem argv => exact (Prod.mk.inj (Option.some.inj h)).2.symm
  | xorLoadChunk argv =>
    obtain ⟨rfl, -⟩ := Prod.mk.inj (Option.some.inj hreg)
    cases hwrite
  | write key value => cases hreg
  | rename key newKey => cases hreg

/-! Clients with keys of their own -/

section Tenants

variable {hashBuild : Bytes → UInt64} {qsort : Qsort} {redis : Redis} {event : Event}
  {S : Set Bytes} {mine : Event → Bool} {events : List Event} {db db' : Keyspace}

theorem Fair.congr (hdb : Set.EqOn db db' {k | k ∈ event.usedKeys})
    (h : Fair hashBuild qsort db event) : Fair hashBuild qsort db' event := by
  cases event with
  | xorBuild mem replies argv =>
    rcases argv with - | ⟨cmd, - | ⟨dest, - | ⟨source, - | ⟨bits, - | ⟨_, _⟩⟩⟩⟩⟩
    · exact ⟨trivial, trivial, trivial⟩
    · exact ⟨trivial, trivial, trivial⟩
    · exact ⟨trivial, trivial, trivial⟩
    · exact ⟨trivial, trivial, trivial⟩
    · have hget : db source = db' source := hdb (by simp [usedKeys_xorBuild])
      exact ⟨fun s hashes hset => h.scans s hashes (hget.trans hset), trivial,
        fun s hashes hset => h.uncrowded s hashes (hget.trans hset)⟩
    · exact ⟨trivial, trivial, trivial⟩
  | xorLoadChunk argv => exact ⟨trivial, h.fits, trivial⟩
  | _ => exact ⟨trivial, trivial, trivial⟩

theorem confined_fairMachine (event : Event) :
    Confined (fairMachine hashBuild qsort redis) event {k | k ∈ event.usedKeys} :=
  (confined_usedKeys event).restrict fun _ _ hdb => ⟨Fair.congr hdb, Fair.congr hdb.symm⟩

theorem tenant_of_usedKeys {M : Machine Keyspace Event (Option Reply)}
    (h : ∀ event, Confined M event {k | k ∈ event.usedKeys})
    (hkeys : ∀ event ∈ events, ∀ k ∈ event.usedKeys, (k ∈ S ↔ mine event = true)) :
    Tenant M S mine events := by
  refine ⟨fun event hevent hmine => ?_, fun event hevent hmine => ?_⟩
  · exact (h event).mono fun k hk => (hkeys event hevent k hk).2 hmine
  · refine (h event).mono fun k hk hkS => ?_
    rw [(hkeys event hevent k hk).1 hkS] at hmine
    cases hmine

/-- The call without the memory it finds. -/
def Event.forget (event : Event) : Event := event.withMemory default

theorem usedKeys_forget (event : Event) : event.forget.usedKeys = event.usedKeys := by
  cases event <;> rfl

/-- While what is stored is safe, fair calls do not need to find any memory. -/
theorem forget_implements : Implements ((serverMachine hashBuild qsort redis).comap Event.forget)
    (fairMachine hashBuild qsort redis) fun db db' => db = db' ∧ StoredSafe db' := by
  refine ⟨?_, ?_, ?_⟩
  · rintro db _ event ⟨rfl, hsafe⟩ ⟨hpre, hfair⟩
    simpa only [serverMachine, Machine.comap, Event.forget, execute_withMemory hsafe hfair]
      using hpre
  · rintro db _ event ⟨rfl, hsafe⟩ ⟨-, hfair⟩
    simp only [serverMachine, fairMachine, Machine.comap, Machine.restrict, Event.forget,
      execute_withMemory hsafe hfair]
  · rintro db _ event ⟨rfl, hsafe⟩ ⟨hpre, hfair⟩
    obtain ⟨⟨reply, db'⟩, hrun⟩ := Option.isSome_iff_exists.1 hpre
    simp only [serverMachine, fairMachine, Machine.comap, Machine.restrict, Event.forget,
      execute_withMemory hsafe hfair, hrun]
    exact ⟨trivial, hsafe.execute hfair.scans hfair.fits hrun⟩

theorem dialogue_forget (hsafe : StoredSafe db)
    (hfair : (fairMachine hashBuild qsort redis).Admits db events) :
    dialogue (serverMachine hashBuild qsort redis) db (events.map Event.forget) =
      (dialogue (serverMachine hashBuild qsort redis) db events).map
        (Prod.map Event.forget id) := by
  have hanswers := (@forget_implements hashBuild qsort redis).answers ⟨rfl, hsafe⟩ hfair
  rw [dialogue_comap, dialogue, hanswers, fairMachine, Machine.answers_restrict]
  rfl

theorem state_forget (hsafe : StoredSafe db)
    (hfair : (fairMachine hashBuild qsort redis).Admits db events) :
    (serverMachine hashBuild qsort redis).state db (events.map Event.forget) =
      (serverMachine hashBuild qsort redis).state db events := by
  have hstate := (@forget_implements hashBuild qsort redis).state ⟨rfl, hsafe⟩ hfair
  rw [← Machine.state_comap]
  exact hstate.1

theorem usedKeys_map_forget (hmine : ∀ event : Event, mine event.forget = mine event)
    (hkeys : ∀ event ∈ events, ∀ k ∈ event.usedKeys, (k ∈ S ↔ mine event = true)) :
    ∀ event ∈ events.map Event.forget, ∀ k ∈ event.usedKeys, (k ∈ S ↔ mine event = true) := by
  intro _ hforget k hk
  obtain ⟨event, hevent, rfl⟩ := List.mem_map.1 hforget
  rw [usedKeys_forget] at hk
  rw [hmine]
  exact hkeys event hevent k hk

end Tenants

/-- Clients with keys of their own, the sources of their builds among them, are
answered alike in any two interleavings, whatever the others do, however many
they are and whatever anyone's calls leave in memory, and find the same values in
the end. -/
theorem tenants_do_not_interfere (hashBuild : Bytes → UInt64) (qsort : Qsort) (redis : Redis)
    {S : Set Bytes} {mine : Event → Bool} (hmine : ∀ event : Event, mine event.forget = mine event)
    {events events' : List Event}
    (hkeys : ∀ event ∈ events ++ events', ∀ k ∈ event.usedKeys, (k ∈ S ↔ mine event = true))
    (hsame : (events.filter mine).map Event.forget = (events'.filter mine).map Event.forget)
    {db db' : Keyspace} (hsafe : StoredSafe db) (hsafe' : StoredSafe db')
    (hdb : Set.EqOn db db' S) (hfair : (fairMachine hashBuild qsort redis).Admits db events)
    (hfair' : (fairMachine hashBuild qsort redis).Admits db' events') :
    let M := serverMachine hashBuild qsort redis
    ((dialogue M db events).filter fun p => mine p.1).map (Prod.map Event.forget id) =
      ((dialogue M db' events').filter fun p => mine p.1).map (Prod.map Event.forget id) ∧
    Set.EqOn (M.state db events) (M.state db' events') S ∧
    (fairMachine hashBuild qsort redis).Admits db' (events.filter mine) := by
  intro M
  have hkeys₁ := fun event hevent => hkeys event (List.mem_append_left events' hevent)
  have hkeys₂ := fun event hevent => hkeys event (List.mem_append_right events hevent)
  have h : Tenant M S mine (events.map Event.forget) :=
    tenant_of_usedKeys confined_usedKeys (usedKeys_map_forget hmine hkeys₁)
  have h' : Tenant M S mine (events'.map Event.forget) :=
    tenant_of_usedKeys confined_usedKeys (usedKeys_map_forget hmine hkeys₂)
  have hcalls : (events.map Event.forget).filter mine = (events'.map Event.forget).filter mine := by
    simpa only [List.filter_map, Function.comp_def, hmine] using hsame
  have hfilter (d : List (Event × Option Reply)) :
      (d.filter fun p => mine p.1).map (Prod.map Event.forget id) =
        (d.map (Prod.map Event.forget id)).filter fun p => mine p.1 := by
    simp only [List.filter_map, Function.comp_def, Prod.map_fst, hmine]
  refine ⟨?_, ?_, ?_⟩
  · rw [hfilter, hfilter, ← dialogue_forget hsafe hfair, ← dialogue_forget hsafe' hfair',
      h.dialogue hdb, h'.dialogue (Set.eqOn_refl db' S), hcalls]
  · intro k hk
    rw [← state_forget hsafe hfair, ← state_forget hsafe' hfair', h.state hdb hk,
      h'.state (Set.eqOn_refl db' S) hk, hcalls]
  · exact (tenant_of_usedKeys confined_fairMachine hkeys₁).admits hdb hfair

/-- A client that builds a filter from a set of its own. -/
def builder (mem : Memory) : List Event :=
  [.write [115] (some (.set threeMembers)),
    .xorBuild mem [.array 0 [[97], [98], [99]]] [[0], [100], [115], [56]],
    .xorExists [[0], [100], [98]]]

theorem execute_builder_lookup {db : Keyspace}
    (hstored : db [100] = some (.xorFilter threeFilter)) :
    execute hashBuild insertionQsort digitRedis db (.xorExists [[0], [100], [98]]) =
      some (.integer 1, db) := by
  have hcheck : xorCheck hashBuild threeFilter [98] = some true := by decide +kernel
  rw [execute, xorExistsCommand_of_stored hstored, hcheck]
  rfl

/-- Alone, and with another client before, between and after its calls, over
other memory. -/
theorem tenants_do_not_interfere_builder :
    let M := serverMachine hashBuild insertionQsort digitRedis
    let mine := fun event : Event => event.usedKeys.all fun k => k == [100] || k == [115]
    let others : List Event := [.write [98] (some .other), .rename [98] [99]]
    let events := others ++ (builder default).take 2 ++ others ++ (builder default).drop 2
    ((dialogue M (fun _ => none) (builder (heapOf 7))).filter fun p => mine p.1).map
        (Prod.map Event.forget id) =
      ((dialogue M (fun _ => none) events).filter fun p => mine p.1).map
        (Prod.map Event.forget id) ∧
    M.state (fun _ => none) (builder (heapOf 7)) [100] = M.state (fun _ => none) events [100] := by
  intro M mine others events
  have hmine (event : Event) : mine event.forget = mine event := by
    simp only [mine, usedKeys_forget]
  have hkeys : ∀ event ∈ builder (heapOf 7) ++ events, ∀ k ∈ event.usedKeys,
      (k = [100] ∨ k = [115] ↔ mine event = true) := by decide +kernel
  have hsafe : StoredSafe fun _ => none := fun key f hf => by cases hf
  have hfair : (fairMachine hashBuild insertionQsort digitRedis).Admits (fun _ => none)
      (builder (heapOf 7)) := by
    refine fairMachine_admits_cons ⟨trivial, trivial, trivial⟩ rfl ?_
    refine fairMachine_admits_cons (careful_build (heapOf 7) rfl []).2
      (execute_threeMembers (heapOf 7) rfl) ?_
    exact fairMachine_admits_cons ⟨trivial, trivial, trivial⟩
      (execute_builder_lookup (Function.update_self _ _ _)) trivial
  have hfair' : (fairMachine hashBuild insertionQsort digitRedis).Admits (fun _ => none)
      events := by
    refine fairMachine_admits_cons ⟨trivial, trivial, trivial⟩ rfl ?_
    refine fairMachine_admits_cons ⟨trivial, trivial, trivial⟩ rfl ?_
    refine fairMachine_admits_cons ⟨trivial, trivial, trivial⟩ rfl ?_
    refine fairMachine_admits_cons (careful_build default rfl []).2
      (execute_threeMembers default rfl) ?_
    refine fairMachine_admits_cons ⟨trivial, trivial, trivial⟩ rfl ?_
    refine fairMachine_admits_cons ⟨trivial, trivial, trivial⟩ rfl ?_
    exact fairMachine_admits_cons ⟨trivial, trivial, trivial⟩ (execute_builder_lookup rfl) trivial
  obtain ⟨hanswers, hstate, -⟩ := @tenants_do_not_interfere hashBuild insertionQsort digitRedis
    {k | k = [100] ∨ k = [115]} mine hmine (builder (heapOf 7)) events hkeys rfl (fun _ => none)
    (fun _ => none) hsafe hsafe (Set.eqOn_refl _ _) hfair hfair'
  exact ⟨hanswers, hstate (Or.inl rfl)⟩

end RedisXor
