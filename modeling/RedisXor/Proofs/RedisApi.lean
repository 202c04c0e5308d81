import Mathlib.Tactic.Abel
import RedisXor.Spec.RedisApi

/-! The accounts of a store under its two operations, and a Redis that keeps the
documented laws: they can be met, whatever keys can be opened for writing. -/

namespace RedisXor

open Ownership

/-! The store -/

namespace Store

variable (db : Store) (name : Bytes) (value : StoredValue)

theorem own_erase : db.own = (db.lookup name).elim 0 StoredValue.own + own (db.erase name) := by
  change (db.entries.map fun e => e.2.own).sum = (db.entries.dlookup name).elim 0 StoredValue.own +
    ((db.entries.kerase name).map fun e => e.2.own).sum
  induction db.entries with
  | nil => rfl
  | cons e entries ih =>
    obtain ⟨key, value⟩ := e
    by_cases hkey : name = key
    · subst hkey
      have herase : List.kerase name (⟨name, value⟩ :: entries : List (Sigma fun _ : Bytes =>
        StoredValue)) = entries := List.kerase_cons_eq rfl
      rw [List.dlookup_cons_eq, herase]
      rfl
    · rw [List.dlookup_cons_ne _ _ hkey, List.kerase_cons_ne hkey, List.map_cons, List.sum_cons, ih,
        List.map_cons, List.sum_cons]
      abel

theorem own_insert : own (db.insert name value) = value.own + own (db.erase name) := by
  rw [own, AList.entries_insert, List.map_cons, List.sum_cons]
  rfl

variable {db name} in
theorem own_erase_of_none (h : db.lookup name = none) : own (db.erase name) = db.own := by
  rw [own_erase db name, h, Option.elim_none, zero_add]

theorem view_insert :
    view (db.insert name value) = Function.update db.view name (some value.view) := by
  funext key
  by_cases hkey : key = name
  · subst hkey
    rw [view, AList.lookup_insert, Function.update_self]
    rfl
  · rw [view, AList.lookup_insert_ne hkey, Function.update_of_ne hkey]
    rfl

theorem view_erase : view (db.erase name) = Function.update db.view name none := by
  funext key
  by_cases hkey : key = name
  · subst hkey
    rw [view, AList.lookup_erase, Function.update_self]
    rfl
  · rw [view, AList.lookup_erase_ne hkey, Function.update_of_ne hkey]
    rfl

end Store

/-! A Redis -/

def PlainValue.toStored : PlainValue → StoredValue
  | .set s => .set s
  | .other => .other

section PlainApi

variable (free : FreeCallback) (db : Store) (name : Bytes)

/-- A handle or a reply, if there is one to give out. -/
def giveHandle (given : Bool) : HeapM (Option ℕ) :=
  if given then do
    let handle ← alloc 1
    return some handle
  else return none

def takeHandle : Option ℕ → HeapM Unit
  | none => return ()
  | some handle => Ownership.free handle

def deleteKey : HeapM Store := do
  match db.lookup name with
  | some (.xorFilter filter) => do
    free filter
    return db.erase name
  | _ => return db.erase name

/-- The value moves with its blocks; a key renamed to itself is left alone. -/
def renameKey (newName : Bytes) : HeapM (Reply × Store) := do
  match db.lookup name with
  | none => return (.error "ERR no such key", db)
  | some value =>
    if name = newName then return (.simpleString "OK", db)
    else
      let db ← deleteKey free db newName
      return (.simpleString "OK", (db.erase name).insert newName value)

def plainApi (redis : Redis) : RedisApi where
  openKeyRead db name := giveHandle (db.lookup name).isSome
  openKeyWrite _ name := giveHandle (redis.opensForWriting name)
  keyValue db name
    | none => return none
    | some key => do
      access key 0 1
      return db.lookup name
  closeKey := takeHandle
  moduleTypeSetValue free db name key filter := do
    access key 0 1
    let db ← deleteKey free db name
    return db.insert name (.xorFilter filter)
  call reply := giveHandle (reply matches .notArray | .array _ _)
  callReply reply p := do
    access p 0 1
    return reply.view
  freeCallReply p := takeHandle (some p)
  write free db key value := do
    let db ← deleteKey free db key
    match value with
    | none => return db
    | some value => return db.insert key value.toStored
  rename := renameKey

theorem triple_giveHandle (given : Bool) :
    Triple 0 (giveHandle given) (fun handle => handle.isSome = given) handleOwn := by
  cases given with
  | false => exact Triple.ret rfl rfl
  | true => exact Triple.alloc_bind fun handle => Triple.ret rfl (add_zero _)

theorem triple_takeHandle (handle : Option ℕ) :
    Triple (handleOwn handle) (takeHandle handle) (fun _ => True) fun _ => 0 := by
  cases handle with
  | none => exact Triple.ret trivial rfl
  | some handle => exact Triple.free

variable {free}

theorem triple_deleteKey (hfree : Frees free) : Triple db.own (deleteKey free db name)
    (fun db' => db' = db.erase name) Store.own := by
  rw [db.own_erase name, deleteKey]
  rcases db.lookup name with - | - | filter | -
  · exact Triple.ret rfl (zero_add _)
  · exact Triple.ret rfl (zero_add _)
  · exact (hfree filter).call _ rfl fun _ _ => Triple.ret rfl (zero_add _)
  · exact Triple.ret rfl (zero_add _)

theorem triple_renameKey (hfree : Frees free) (newName : Bytes) :
    Triple db.own (renameKey free db name newName)
      (fun p => Store.outcome p = redisRename db.view name newName) fun p => p.2.own := by
  rw [renameKey]
  cases hvalue : db.lookup name with
  | none =>
    have hview : db.view name = none := by rw [Store.view, hvalue, Option.map_none]
    exact Triple.ret (by rw [redisRename, hview]; rfl) rfl
  | some value =>
    have hview : db.view name = some value.view := by rw [Store.view, hvalue, Option.map_some]
    simp only [redisRename, hview]
    split_ifs with hname
    · subst hname
      refine Triple.ret ?_ rfl
      rw [Function.update_idem, ← hview, Function.update_eq_self]
      rfl
    · refine (triple_deleteKey db newName hfree).bind fun db' hdb' => ?_
      subst hdb'
      have hold : (db.erase newName).lookup name = some value := by
        rw [AList.lookup_erase_ne hname, hvalue]
      have hnone : ((db.erase newName).erase name).lookup newName = none := by
        rw [AList.lookup_erase_ne (Ne.symm hname), AList.lookup_erase]
      refine Triple.ret ?_ ?_
      · rw [Store.outcome, Store.view_insert, Store.view_erase, Store.view_erase,
          Function.update_comm hname, Function.update_idem, Function.update_comm (Ne.symm hname)]
      · rw [Store.own_insert, Store.own_erase_of_none hnone,
          Store.own_erase (db.erase newName) name, hold, Option.elim_some]

end PlainApi

theorem plainApi_lawful (redis : Redis) : (plainApi redis).Lawful redis where
  openKeyRead db name := triple_giveHandle _
  openKeyWrite _ name := triple_giveHandle _
  keyValue db name key hkey := by
    cases key with
    | none =>
      refine Triple.ret ?_ rfl
      cases hvalue : db.lookup name with
      | none => rfl
      | some value => rw [hvalue] at hkey; cases hkey
    | some key =>
      exact Triple.access_bind (Multiset.mem_singleton_self _) le_rfl (Triple.ret rfl rfl)
  closeKey := triple_takeHandle
  moduleTypeSetValue free hfree db name key filter := by
    refine Triple.access_bind (c := 1) (by simp) le_rfl ?_
    refine (triple_deleteKey db name hfree).call (filter.own + {⟨key, 1⟩}) (add_assoc _ _ _)
      fun db' hdb' => ?_
    subst hdb'
    refine Triple.ret ?_ ?_
    · rw [Store.view_insert, Store.view_erase, Function.update_idem]
      rfl
    · rw [Store.own_insert, Store.own_erase_of_none (AList.lookup_erase _ _)]
      simp only [StoredValue.own]
      abel
  call reply := by
    refine (triple_giveHandle _).conseq rfl fun handle hhandle => ⟨?_, rfl⟩
    cases reply <;> cases handle <;> simp_all
  callReply reply p :=
    Triple.access_bind (Multiset.mem_singleton_self _) le_rfl (Triple.ret rfl rfl)
  freeCallReply p := triple_takeHandle (some p)
  write free hfree db key value := by
    refine (triple_deleteKey db key hfree).bind fun db' hdb' => ?_
    subst hdb'
    cases value with
    | none => exact Triple.ret (db.view_erase key) rfl
    | some value =>
      refine Triple.ret ?_ ?_
      · rw [Store.view_insert, Store.view_erase, Function.update_idem]
        cases value <;> rfl
      · rw [Store.own_insert, Store.own_erase_of_none (AList.lookup_erase _ _)]
        cases value <;> exact (zero_add _).symm
  rename free hfree db key newKey := triple_renameKey db key hfree newKey

end RedisXor
