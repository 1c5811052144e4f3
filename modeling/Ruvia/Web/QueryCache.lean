import Ruvia.Library.ByteString
import Ruvia.Library.StateMachine

/-!
# `Web.QueryCache` — the query-result cache of one database alias

`db_query_result_cache.cpp` on one worker. A query reads Redis; on a miss it joins the fill listed for its key, or
lists one, runs the statement and writes the rows back. `remove` and `clear` unlist the fills of the keys they
name and delete the keys. A coroutine goes from one await to the next in one action, and GET, SET, DEL and SCAN
are actions of the shared map. Deadlines, cancellation and Redis errors are the actions `abandon`, `getFailed`
and `failRemoval`, enabled wherever the frame can throw.

The clock counts the actions. The times in the state are history: no action of the source reads them.
-/

namespace Ruvia.Web

open Library

/-! ## Keys -/

inductive DbCacheShape where
  | rows
  | one
  | exist
  | count
  deriving DecidableEq, Repr

def dbCacheShapes : List DbCacheShape := [.rows, .one, .exist, .count]

def dbCacheShapeTag : DbCacheShape → Bytes
  | .rows => lit "rows"
  | .one => lit "one"
  | .exist => lit "exists"
  | .count => lit "count"

/-- What the keys of one alias share: `db_cache_prefix` and the digest of an id as hex text. -/
structure DbCacheKeys where
  keyPrefix : Bytes
  idDigest : Bytes → Bytes

namespace DbCacheKeys

variable (keys : DbCacheKeys)

def makeIdKey (shape : DbCacheShape) (id : Bytes) : Bytes :=
  keys.keyPrefix ++ lit "id:" ++ dbCacheShapeTag shape ++ lit ":" ++ keys.idDigest id

/-- The keys of one id, one for each result shape. -/
def appendDbCacheIdKeys (id : Bytes) : List Bytes := dbCacheShapes.map fun shape => keys.makeIdKey shape id

/-- Keyed by id and shape when the query names an id, otherwise by the digest of its SQL and parameters. -/
def dbCacheKey (id : Bytes) (shape : DbCacheShape) (sqlDigest : Bytes) : Bytes :=
  if id ≠ [] then keys.makeIdKey shape id else keys.keyPrefix ++ lit "sql:" ++ sqlDigest

/-- A query that names an id reads one of the keys that removing the id deletes. -/
theorem dbCacheKey_mem (id : Bytes) (shape : DbCacheShape) (sqlDigest : Bytes) (hid : id ≠ []) :
    keys.dbCacheKey id shape sqlDigest ∈ keys.appendDbCacheIdKeys id := by
  rw [dbCacheKey, if_pos hid]
  exact List.mem_map_of_mem (by cases shape <;> decide)

end DbCacheKeys

/-! ## State -/

/-- Encoded rows, with the time their statement was started. -/
structure CacheEntry (Rows : Type) where
  rows : Rows
  startedAt : Nat
  deriving DecidableEq, Repr

/-- A read-through fill: its leader runs the statement, later misses of the key wait for its end. -/
structure CacheFill (Rows : Type) where
  key : Bytes
  startedAt : Nat
  done : Bool := false
  result : Option (CacheEntry Rows) := none
  awaited : Bool := false
  deriving DecidableEq, Repr

/-- Where the frame of a query stands. A fill is named by its place among the fills made. -/
inductive QueryPhase (Rows : Type) where
  | getting
  | gotReply (bytes : Option (CacheEntry Rows))
  | joined (fill : Nat)
  | running (fill : Nat)
  | setting (rows : CacheEntry Rows)
  | returned (rows : CacheEntry Rows)
  | failed
  deriving DecidableEq, Repr

/-- One call of `query`. `write` is a SET that was issued and that Redis has not executed. -/
structure CacheQuery (Rows : Type) where
  id : Bytes
  key : Bytes
  startedAt : Nat
  phase : QueryPhase Rows := .getting
  write : Option (CacheEntry Rows) := none
  deriving DecidableEq, Repr

inductive RemovalTarget where
  | named (ids : List Bytes)
  | everything
  deriving DecidableEq, Repr

/-- Where a removal stands. SCAN may return any key that was there for a part of the iteration, and returns every
key that was there for all of it: `unseen` are those it has not returned. `rest` is the unseen behind the batch
whose DEL is to come, or nothing when the iteration is over. -/
inductive RemovalPhase where
  | called
  | scanned (batch : List Bytes) (rest : Option (List Bytes))
  | scanning (unseen : List Bytes)
  | deleted
  | completed (time : Nat)
  | failed
  deriving DecidableEq, Repr

structure CacheRemoval where
  target : RemovalTarget
  calledAt : Nat
  phase : RemovalPhase := .called
  deriving DecidableEq, Repr

structure QueryCache (Rows : Type) where
  clock : Nat := 0
  closed : Bool := false
  fills : List (CacheFill Rows) := []
  /-- `fills_`, by key. -/
  listed : List (Bytes × Nat) := []
  store : List (Bytes × CacheEntry Rows) := []
  queries : List (CacheQuery Rows) := []
  removals : List CacheRemoval := []
  deriving DecidableEq, Repr

inductive CacheAction (Rows : Type) where
  | startQuery (id : Bytes) (shape : DbCacheShape) (sqlDigest : Bytes)
  | get (query : Nat)
  | getFailed (query : Nat)
  | resume (query : Nat) (decodes : Bool)
  | wake (query : Nat) (decodes : Bool)
  | reply (query : Nat) (rows : Rows) (store fits : Bool)
  | set (query : Nat)
  | finishSet (query : Nat)
  | abandon (query : Nat)
  | expire (key : Bytes)
  | remove (ids : List Bytes)
  | clear
  | scan (removal : Nat) (batch : List Bytes) (last : Bool)
  | del (removal : Nat)
  | complete (removal : Nat)
  | failRemoval (removal : Nat)
  | closeNow
  deriving DecidableEq, Repr

/-! ## Keys a removal reaches -/

namespace RemovalTarget

variable (keys : DbCacheKeys)

/-- The keys of `remove`. -/
def removed (ids : List Bytes) : List Bytes := ids.flatMap keys.appendDbCacheIdKeys

def Covers (target : RemovalTarget) (key : Bytes) : Prop :=
  match target with
  | .named ids => key ∈ removed keys ids
  | .everything => True

instance (target : RemovalTarget) (key : Bytes) : Decidable (target.Covers keys key) :=
  match target with
  | .named ids => inferInstanceAs (Decidable (key ∈ removed keys ids))
  | .everything => inferInstanceAs (Decidable True)

/-- The target names the id of a query. -/
def Names (target : RemovalTarget) (id : Bytes) : Prop :=
  match target with
  | .named ids => id ∈ ids
  | .everything => True

end RemovalTarget

namespace RemovalPhase

/-- Keys that are gone are no longer unseen. -/
def forget (gone : List Bytes) : RemovalPhase → RemovalPhase
  | .scanned batch rest => .scanned batch (rest.map fun unseen => unseen.filter (· ∉ gone))
  | .scanning unseen => .scanning (unseen.filter (· ∉ gone))
  | phase => phase

/-- The removal has still to delete what stands under the key, or has given up. -/
def Pending (key : Bytes) : RemovalPhase → Prop
  | .called => True
  | .scanned batch rest => key ∈ batch ∨ key ∈ rest.getD []
  | .scanning unseen => key ∈ unseen
  | .deleted => False
  | .completed _ => False
  | .failed => True

instance (key : Bytes) (phase : RemovalPhase) : Decidable (phase.Pending key) :=
  match phase with
  | .called => inferInstanceAs (Decidable True)
  | .scanned batch rest => inferInstanceAs (Decidable (key ∈ batch ∨ key ∈ rest.getD []))
  | .scanning unseen => inferInstanceAs (Decidable (key ∈ unseen))
  | .deleted => inferInstanceAs (Decidable False)
  | .completed _ => inferInstanceAs (Decidable False)
  | .failed => inferInstanceAs (Decidable True)

end RemovalPhase

/-! ## Steps -/

namespace QueryCache

variable {Rows : Type}

/-- The entry under a key. -/
def lookup (cache : QueryCache Rows) (key : Bytes) : Option (CacheEntry Rows) :=
  (cache.store.find? (·.1 == key)).map (·.2)

/-- The fill listed for a key. -/
def findFill (cache : QueryCache Rows) (key : Bytes) : Option Nat :=
  (cache.listed.find? (·.1 == key)).map (·.2)

def setQuery (cache : QueryCache Rows) (query : Nat) (value : CacheQuery Rows) : QueryCache Rows :=
  { cache with queries := cache.queries.set query value }

def setRemoval (cache : QueryCache Rows) (removal : Nat) (value : CacheRemoval) : QueryCache Rows :=
  { cache with removals := cache.removals.set removal value }

def setFill (cache : QueryCache Rows) (fill : Nat) (value : CacheFill Rows) : QueryCache Rows :=
  { cache with fills := cache.fills.set fill value }

/-- `fill_lead::finish`: the fill is unlisted if it is still the one listed, and ended. -/
def finishFill (cache : QueryCache Rows) (fill : Nat) (value : CacheFill Rows) : QueryCache Rows :=
  { cache.setFill fill { value with done := true } with listed := cache.listed.filter (· ≠ (value.key, fill)) }

def setEntry (cache : QueryCache Rows) (key : Bytes) (entry : CacheEntry Rows) : QueryCache Rows :=
  { cache with store := (key, entry) :: cache.store.filter (·.1 ≠ key) }

/-- The entries under the keys go, by DEL or by expiry. -/
def deleteKeys (cache : QueryCache Rows) (gone : List Bytes) : QueryCache Rows :=
  { cache with
    store := cache.store.filter (·.1 ∉ gone)
    removals := cache.removals.map fun removal => { removal with phase := removal.phase.forget gone } }

/-- The frame of a query starts; `wrap` has checked that the cache is open. -/
def startQuery (keys : DbCacheKeys) (cache : QueryCache Rows) (id : Bytes) (shape : DbCacheShape)
    (sqlDigest : Bytes) : Option (QueryCache Rows) :=
  if cache.closed then none
  else some { cache with
    queries := cache.queries ++
      [{ id := id, key := keys.dbCacheKey id shape sqlDigest, startedAt := cache.clock }] }

def get (cache : QueryCache Rows) (query : Nat) : Option (QueryCache Rows) := do
  let value ← cache.queries[query]?
  match value.phase with
  | .getting => some (cache.setQuery query { value with phase := .gotReply (cache.lookup value.key) })
  | _ => none

/-- An ignored error of GET counts as a miss. -/
def getFailed (cache : QueryCache Rows) (query : Nat) : Option (QueryCache Rows) := do
  let value ← cache.queries[query]?
  match value.phase with
  | .getting => some (cache.setQuery query { value with phase := .gotReply none })
  | _ => none

/-- A miss joins the fill listed for the key; without one it lists a fill and starts its statement. -/
def miss (cache : QueryCache Rows) (query : Nat) (value : CacheQuery Rows) : Option (QueryCache Rows) :=
  match cache.findFill value.key with
  | some fill => do
    let joined ← cache.fills[fill]?
    some ((cache.setFill fill { joined with awaited := true }).setQuery query { value with phase := .joined fill })
  | none =>
    let leading : QueryCache Rows := { cache with
      fills := cache.fills ++ [{ key := value.key, startedAt := cache.clock }]
      listed := (value.key, cache.fills.length) :: cache.listed }
    some (leading.setQuery query { value with phase := .running cache.fills.length })

/-- The frame goes on behind GET. -/
def resume (cache : QueryCache Rows) (query : Nat) (decodes : Bool) : Option (QueryCache Rows) := do
  let value ← cache.queries[query]?
  match value.phase with
  | .gotReply (some rows) =>
    if decodes then some (cache.setQuery query { value with phase := .returned rows })
    else cache.miss query value
  | .gotReply none => cache.miss query value
  | _ => none

/-- A waiter goes on once its fill has ended: with its result, or back to the cache. -/
def wake (cache : QueryCache Rows) (query : Nat) (decodes : Bool) : Option (QueryCache Rows) := do
  let value ← cache.queries[query]?
  match value.phase with
  | .joined fill =>
    let joined ← cache.fills[fill]?
    if joined.done then
      match joined.result with
      | some rows =>
        some (cache.setQuery query { value with phase := if decodes then .returned rows else .getting })
      | none => some (cache.setQuery query { value with phase := .getting })
    else none
  | _ => none

/-- The database answers the leader. `store` says that the rows outlive the time the query took, `fits` that the
entry is small enough to be read back and its SET could be built. -/
def reply (cache : QueryCache Rows) (query : Nat) (rows : Rows) (store fits : Bool) :
    Option (QueryCache Rows) := do
  let value ← cache.queries[query]?
  match value.phase with
  | .running fill =>
    let filled ← cache.fills[fill]?
    let entry : CacheEntry Rows := { rows := rows, startedAt := filled.startedAt }
    if !store && !filled.awaited then
      some ((cache.finishFill fill filled).setQuery query { value with phase := .returned entry })
    else
      let published := { filled with result := if filled.awaited then some entry else none }
      if store && fits then
        some ((cache.finishFill fill published).setQuery query
          { value with phase := .setting entry, write := some entry })
      else some ((cache.finishFill fill published).setQuery query { value with phase := .returned entry })
  | _ => none

/-- Redis executes a SET, which may be that of a frame that has failed since. -/
def set (cache : QueryCache Rows) (query : Nat) : Option (QueryCache Rows) := do
  let value ← cache.queries[query]?
  let entry ← value.write
  some ((cache.setEntry value.key entry).setQuery query { value with write := none })

/-- The SET was answered, or failed with an error that is ignored. -/
def finishSet (cache : QueryCache Rows) (query : Nat) : Option (QueryCache Rows) := do
  let value ← cache.queries[query]?
  match value.phase with
  | .setting rows => some (cache.setQuery query { value with phase := .returned rows })
  | _ => none

/-- The frame throws: a leader ends its fill. -/
def abandon (cache : QueryCache Rows) (query : Nat) : Option (QueryCache Rows) := do
  let value ← cache.queries[query]?
  match value.phase with
  | .running fill =>
    let filled ← cache.fills[fill]?
    some ((cache.finishFill fill filled).setQuery query { value with phase := .failed })
  | .returned _ => none
  | .failed => none
  | _ => some (cache.setQuery query { value with phase := .failed })

/-- `remove` unlists the fills of its keys when it is called; its DEL comes later. -/
def remove (keys : DbCacheKeys) (cache : QueryCache Rows) (ids : List Bytes) : Option (QueryCache Rows) :=
  if cache.closed then none
  else if [] ∈ ids then none
  else some { cache with
    listed := cache.listed.filter (·.1 ∉ RemovalTarget.removed keys ids)
    removals := cache.removals ++ [{ target := .named ids, calledAt := cache.clock }] }

def clear (cache : QueryCache Rows) : Option (QueryCache Rows) :=
  if cache.closed then none
  else some { cache with
    listed := []
    removals := cache.removals ++ [{ target := .everything, calledAt := cache.clock }] }

/-- SCAN returns a batch; the last one leaves nothing unseen. -/
def scanFrom (cache : QueryCache Rows) (removal : Nat) (value : CacheRemoval) (unseen batch : List Bytes)
    (last : Bool) : Option (QueryCache Rows) :=
  if !last then
    some (cache.setRemoval removal
      { value with phase := .scanned batch (some (unseen.filter (· ∉ batch))) })
  else if unseen.all (· ∈ batch) then
    some (cache.setRemoval removal { value with phase := .scanned batch none })
  else none

def scan (cache : QueryCache Rows) (removal : Nat) (batch : List Bytes) (last : Bool) :
    Option (QueryCache Rows) := do
  let value ← cache.removals[removal]?
  match value.target, value.phase with
  | .everything, .called => cache.scanFrom removal value (cache.store.map (·.1)) batch last
  | .everything, .scanning unseen => cache.scanFrom removal value unseen batch last
  | _, _ => none

/-- Redis executes the DEL of a removal: all keys of `remove`, or the batch of `clear`. -/
def del (keys : DbCacheKeys) (cache : QueryCache Rows) (removal : Nat) : Option (QueryCache Rows) := do
  let value ← cache.removals[removal]?
  match value.target, value.phase with
  | .named ids, .called =>
    some ((cache.deleteKeys (RemovalTarget.removed keys ids)).setRemoval removal { value with phase := .deleted })
  | .everything, .scanned batch none =>
    some ((cache.deleteKeys batch).setRemoval removal { value with phase := .deleted })
  | .everything, .scanned batch (some unseen) =>
    some ((cache.deleteKeys batch).setRemoval removal { value with phase := .scanning unseen })
  | _, _ => none

/-- The frame of a removal returns. -/
def complete (cache : QueryCache Rows) (removal : Nat) : Option (QueryCache Rows) := do
  let value ← cache.removals[removal]?
  match value.phase with
  | .deleted => some (cache.setRemoval removal { value with phase := .completed cache.clock })
  | _ => none

def failRemoval (cache : QueryCache Rows) (removal : Nat) : Option (QueryCache Rows) := do
  let value ← cache.removals[removal]?
  match value.phase with
  | .completed _ => none
  | _ => some (cache.setRemoval removal { value with phase := .failed })

/-- What an action does, apart from the clock. -/
def act (keys : DbCacheKeys) (cache : QueryCache Rows) : CacheAction Rows → Option (QueryCache Rows)
  | .startQuery id shape sqlDigest => cache.startQuery keys id shape sqlDigest
  | .get query => cache.get query
  | .getFailed query => cache.getFailed query
  | .resume query decodes => cache.resume query decodes
  | .wake query decodes => cache.wake query decodes
  | .reply query rows store fits => cache.reply query rows store fits
  | .set query => cache.set query
  | .finishSet query => cache.finishSet query
  | .abandon query => cache.abandon query
  | .expire key => some (cache.deleteKeys [key])
  | .remove ids => cache.remove keys ids
  | .clear => cache.clear
  | .scan removal batch last => cache.scan removal batch last
  | .del removal => cache.del keys removal
  | .complete removal => cache.complete removal
  | .failRemoval removal => cache.failRemoval removal
  | .closeNow => some { cache with closed := true }

def tick (cache : QueryCache Rows) : QueryCache Rows := { cache with clock := cache.clock + 1 }

def step (keys : DbCacheKeys) (cache : QueryCache Rows) (action : CacheAction Rows) : Option (QueryCache Rows) :=
  (cache.act keys action).map tick

/-- The cache of one alias from the start of its worker; Redis may hold entries of earlier runs. -/
def machine (keys : DbCacheKeys) : StateMachine (QueryCache Rows) (CacheAction Rows) where
  init cache := cache = { store := cache.store }
  step := step keys

end QueryCache

end Ruvia.Web
