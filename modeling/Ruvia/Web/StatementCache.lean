import Mathlib.Data.List.MinMax
import Ruvia.Library.ByteString
import Ruvia.Library.LinearProbing
import Ruvia.Library.StateMachine

/-!
# `Web.StatementCache` — the prepared statements of one connection

`db_statement_cache`: at most `capacity` entries found through a `probe_index`, and the hashes of recent first uses
behind a second one. A position is what an index holds, `none` where the source keeps the code zero. The counters of
uses and generations are 64 bits wide in the source and are taken as numbers here, so they never come around.
-/

namespace Ruvia.Web

open Library Function

/-! ## The probing index -/

def statementCapacity : Nat := 128

def indexCapacity : Nat := 256

/-- `hash & mask`. -/
def indexSlot (hash : UInt64) : Fin indexCapacity := ⟨hash.toNat % indexCapacity, Nat.mod_lt _ (by decide)⟩

abbrev ProbeIndex (α : Type*) := Fin indexCapacity → Option α

namespace ProbeIndex

variable {α : Type*}

def find (index : ProbeIndex α) (hash : UInt64) (accepts : α → Bool) : Option α :=
  LinearProbing.find (indexSlot hash) accepts index

def insert (index : ProbeIndex α) (position : α) (hash : UInt64) : ProbeIndex α :=
  LinearProbing.insert (indexSlot hash) position index

def erase [DecidableEq α] (index : ProbeIndex α) (position : α) (hash : UInt64) (hashOf : α → UInt64) :
    ProbeIndex α :=
  LinearProbing.erase (fun stored => indexSlot (hashOf stored)) (indexSlot hash) position index

/-- **The index holds exactly the given positions**, each to be reached from the slot of its hash. -/
structure Holds (index : ProbeIndex α) (positions : α → Prop) (hashOf : α → UInt64) : Prop where
  probing : LinearProbing.Probing (fun position => indexSlot (hashOf position)) index
  mem : ∀ position, LinearProbing.Mem index position ↔ positions position

variable {index : ProbeIndex α} {positions : α → Prop} {hashOf : α → UInt64}

theorem Holds.empty (hashOf : α → UInt64) : Holds (fun _ => none) (fun _ : α => False) hashOf :=
  ⟨LinearProbing.probing_empty _, fun _ => ⟨fun ⟨_, h⟩ => (by cases h), False.elim⟩⟩

/-- The hashes of other positions do not matter. -/
theorem Holds.congr (h : Holds index positions hashOf) {positions' : α → Prop} {hashOf' : α → UInt64}
    (hpositions : ∀ position, positions' position ↔ positions position)
    (hhash : ∀ position, positions position → hashOf' position = hashOf position) :
    Holds index positions' hashOf' := by
  refine ⟨h.probing.congr fun position hmem => ?_, fun position => (h.mem position).trans (hpositions position).symm⟩
  rw [hhash position ((h.mem position).mp hmem)]

/-- At most `statementCapacity` positions leave a slot empty. -/
theorem Holds.exists_empty (h : Holds index positions hashOf) (number : α → Nat) (hnumber : Injective number)
    (hbound : ∀ position, positions position → number position < statementCapacity) :
    ∃ slot, index slot = none :=
  LinearProbing.exists_empty h.probing number (fun _ _ _ _ heq => hnumber heq)
    (fun x hx => hbound x ((h.mem x).mp hx)) (by decide)

variable {hash : UInt64}

section

variable (h : Holds index positions hashOf)
include h

theorem Holds.find_some {accepts : α → Bool} {position : α} (hfind : index.find hash accepts = some position) :
    positions position ∧ accepts position = true := by
  obtain ⟨hmem, haccepts⟩ := LinearProbing.find_some hfind
  exact ⟨(h.mem position).mp hmem, haccepts⟩

theorem Holds.find_none {accepts : α → Bool} (hfind : index.find hash accepts = none) (position : α)
    (hposition : positions position) (hhash : hashOf position = hash) : accepts position = false :=
  LinearProbing.find_none h.probing hfind ((h.mem position).mpr hposition) (by rw [hhash])

theorem Holds.insert (position : α) (hnew : ¬ positions position) (hhash : hashOf position = hash)
    (hempty : ∃ slot, index slot = none) :
    Holds (index.insert position hash) (fun other => positions other ∨ other = position) hashOf := by
  have hinserted := LinearProbing.insert_spec h.probing (x := position) (fun hmem => hnew ((h.mem position).mp hmem))
    hempty
  subst hhash
  exact ⟨hinserted.1, fun other => (hinserted.2 other).trans (or_congr (h.mem other) Iff.rfl)⟩

theorem Holds.erase [DecidableEq α] (position : α) (hposition : positions position) (hhash : hashOf position = hash)
    (hempty : ∃ slot, index slot = none) :
    Holds (index.erase position hash hashOf) (fun other => positions other ∧ other ≠ position) hashOf := by
  have herased := LinearProbing.erase_spec h.probing ((h.mem position).mpr hposition) hempty (by decide)
  subst hhash
  exact ⟨herased.1, fun other => (herased.2 other).trans (and_congr (h.mem other) Iff.rfl)⟩

theorem Holds.erase_of_not [DecidableEq α] {position : α} (hposition : ¬ positions position) :
    index.erase position hash hashOf = index :=
  LinearProbing.erase_of_not_mem _ fun hmem => hposition ((h.mem position).mp hmem)

end

end ProbeIndex

/-! ## The cache -/

structure DbStatementHandle where
  index : Nat
  generation : Nat
  deriving DecidableEq, Repr

/-- An entry; generation zero marks a forgotten one. -/
structure StatementEntry (Payload : Type*) where
  sql : Bytes
  types : List UInt32
  hash : UInt64
  lastUse : Nat
  generation : Nat
  payload : Payload

/-- What `find` returns. -/
structure StatementLookup (Payload : Type*) where
  statement : Option DbStatementHandle := none
  inserted : Bool := false
  evicted : Option Payload := none
  hash : UInt64 := 0
  repeated : Bool := false

/-- How building a new entry goes: an allocation or `make()` may throw, and `make()` may decline. -/
inductive Made (Payload : Type*) where
  | built (payload : Payload)
  | declined
  | threw

structure DbStatementCache (Payload : Type*) where
  entries : List (StatementEntry Payload) := []
  entryIndex : ProbeIndex Nat := fun _ => none
  firstUses : Fin statementCapacity → UInt64 := fun _ => 0
  firstUseIndex : ProbeIndex (Fin statementCapacity) := fun _ => none
  nextFirstUse : Fin statementCapacity := ⟨0, by decide⟩
  clock : Nat := 0
  generation : Nat := 0

def fnv1aPrime : UInt64 := 1099511628211

/-- The hash a key is kept under; `stringHash` is the library's `std::hash<std::string_view>`. -/
def keyHash (stringHash : Bytes → UInt64) (sql : Bytes) (types : List UInt32) : UInt64 :=
  let hash := types.foldl (fun hash type => (hash ^^^ type.toUInt64) * fnv1aPrime)
    (stringHash sql ^^^ UInt64.ofNat types.length)
  if hash = 0 then 1 else hash

theorem keyHash_ne_zero (stringHash : Bytes → UInt64) (sql : Bytes) (types : List UInt32) :
    keyHash stringHash sql types ≠ 0 := by
  unfold keyHash
  dsimp only
  split
  · decide
  · assumption

namespace DbStatementCache

variable {Payload : Type*}

def live (cache : DbStatementCache Payload) (statement : DbStatementHandle) : Option (StatementEntry Payload) :=
  cache.entries[statement.index]?.filter fun existing => existing.generation == statement.generation

def payload (cache : DbStatementCache Payload) (statement : DbStatementHandle) : Option Payload :=
  (cache.live statement).map (·.payload)

/-- The SQL of a live entry; nothing behind a stale handle. -/
def sql (cache : DbStatementCache Payload) (statement : DbStatementHandle) : Bytes :=
  ((cache.live statement).map (·.sql)).getD []

/-- The hash an indexed position was inserted under. -/
def hashAt (cache : DbStatementCache Payload) (position : Nat) : UInt64 :=
  (cache.entries[position]?.map (·.hash)).getD 0

def generationAt (cache : DbStatementCache Payload) (position : Nat) : Nat :=
  (cache.entries[position]?.map (·.generation)).getD 0

/-- The predicate `find` searches the index with. -/
def matchesKey (cache : DbStatementCache Payload) (hash : UInt64) (sql : Bytes) (types : List UInt32)
    (position : Nat) : Bool :=
  cache.entries[position]?.any fun existing =>
    existing.generation != 0 && existing.hash == hash && existing.sql == sql && existing.types == types

def findFirstUse (cache : DbStatementCache Payload) (hash : UInt64) : Option (Fin statementCapacity) :=
  cache.firstUseIndex.find hash fun position => cache.firstUses position == hash

def clearFirstUse (cache : DbStatementCache Payload) (position : Fin statementCapacity) (hash : UInt64) :
    DbStatementCache Payload :=
  { cache with
    firstUseIndex := cache.firstUseIndex.erase position hash cache.firstUses
    firstUses := update cache.firstUses position 0 }

/-- Remembers a first use, in the place of the oldest one. -/
def remember (cache : DbStatementCache Payload) (hash : UInt64) : DbStatementCache Payload :=
  if (cache.findFirstUse hash).isSome then cache
  else
    let position := cache.nextFirstUse
    let index :=
      if cache.firstUses position ≠ 0 then
        cache.firstUseIndex.erase position (cache.firstUses position) cache.firstUses
      else cache.firstUseIndex
    { cache with
      firstUses := update cache.firstUses position hash
      firstUseIndex := index.insert position hash
      nextFirstUse := LinearProbing.succ position }

/-- `std::ranges::min_element` by the last use. -/
def oldest (cache : DbStatementCache Payload) : Nat :=
  cache.entries.findIdx fun existing => cache.entries.all fun other => existing.lastUse ≤ other.lastUse

/-- Takes the oldest entry's position out of the index, and its payload with it. -/
def evict (cache : DbStatementCache Payload) : DbStatementCache Payload × Option Payload :=
  let index := cache.oldest
  ({ cache with entryIndex := cache.entryIndex.erase index (cache.hashAt index) cache.hashAt },
    cache.entries[index]?.map (·.payload))

/-- Puts a new entry in place: a forgotten one is reused before the table grows, and only a full table evicts. -/
def place (cache : DbStatementCache Payload) (created : StatementEntry Payload) :
    DbStatementCache Payload × Nat × Option Payload :=
  match cache.entries.findIdx? (fun existing => existing.generation == 0) with
  | some index => ({ cache with entries := cache.entries.set index created }, index, none)
  | none =>
    if cache.entries.length = statementCapacity then
      let evicted := cache.evict
      ({ evicted.1 with entries := cache.entries.set cache.oldest created }, cache.oldest, evicted.2)
    else ({ cache with entries := cache.entries ++ [created] }, cache.entries.length, none)

/-- The insertion of a statement whose entry was built. -/
def insert (cache : DbStatementCache Payload) (hash : UInt64) (sql : Bytes) (types : List UInt32)
    (firstUse : Fin statementCapacity) (payload : Payload) : DbStatementCache Payload × StatementLookup Payload :=
  let nextGeneration := cache.generation + 1
  let placed := cache.place
    { sql := sql, types := types, hash := hash, lastUse := cache.clock, generation := nextGeneration,
      payload := payload }
  let index := placed.2.1
  let indexed := { placed.1 with entryIndex := placed.1.entryIndex.insert index hash }
  ({ indexed.clearFirstUse firstUse hash with generation := nextGeneration },
    { statement := some ⟨index, nextGeneration⟩, inserted := true, evicted := placed.2.2, hash := hash })

variable (stringHash : Bytes → UInt64)

/-- Counts a use of a statement; the lookup is absent when building the entry threw. -/
def find (cache : DbStatementCache Payload) (sql : Bytes) (types : List UInt32) (mayInsert : Bool)
    (make : Made Payload) : DbStatementCache Payload × Option (StatementLookup Payload) :=
  let hash := keyHash stringHash sql types
  let cache := { cache with clock := cache.clock + 1 }
  match cache.entryIndex.find hash (cache.matchesKey hash sql types) with
  | some cached =>
    ({ cache with entries := cache.entries.modify cached fun existing => { existing with lastUse := cache.clock } },
      some { statement := some ⟨cached, cache.generationAt cached⟩, hash := hash })
  | none =>
    match cache.findFirstUse hash with
    | none => (cache.remember hash, some { hash := hash })
    | some firstUse =>
      if !mayInsert then (cache, some { hash := hash, repeated := true })
      else
        match make with
        | .threw => (cache, none)
        | .declined => (cache, some { hash := hash, repeated := true })
        | .built payload =>
          let inserted := cache.insert hash sql types firstUse payload
          (inserted.1, some inserted.2)

/-- Drops an entry and hands its payload back. -/
def forget (cache : DbStatementCache Payload) (statement : DbStatementHandle) (useAgain : Bool) :
    DbStatementCache Payload × Option Payload :=
  match cache.live statement with
  | none => (cache, none)
  | some found =>
    let erased := { cache with
      entryIndex := cache.entryIndex.erase statement.index found.hash cache.hashAt
      entries := cache.entries.modify statement.index fun existing => { existing with generation := 0 } }
    (if useAgain then erased.remember found.hash else erased, some found.payload)

/-- What a caller does through the pointer `payload` returns. -/
def updatePayload (cache : DbStatementCache Payload) (statement : DbStatementHandle) (change : Payload → Payload) :
    DbStatementCache Payload :=
  match cache.live statement with
  | none => cache
  | some _ =>
    { cache with
      entries := cache.entries.modify statement.index fun existing =>
        { existing with payload := change existing.payload } }

/-- A new connection starts without statements. -/
def clear (cache : DbStatementCache Payload) : DbStatementCache Payload :=
  { cache with entries := [], entryIndex := fun _ => none, firstUses := fun _ => 0, firstUseIndex := fun _ => none }

/-! ## First uses -/

/-- The remembered hashes are distinct, and their index holds exactly the places in use. -/
structure Remembers (cache : DbStatementCache Payload) : Prop where
  index : cache.firstUseIndex.Holds (fun position => cache.firstUses position ≠ 0) cache.firstUses
  distinct : ∀ position other, cache.firstUses position = cache.firstUses other → cache.firstUses position ≠ 0 →
    position = other

variable {stringHash} {cache : DbStatementCache Payload}

/-- A cache that remembers nothing. -/
theorem Remembers.of_zero (huses : cache.firstUses = fun _ => 0) (hindex : cache.firstUseIndex = fun _ => none) :
    cache.Remembers := by
  refine ⟨?_, fun position other _ hne => ?_⟩
  · rw [hindex, huses]
    exact (ProbeIndex.Holds.empty fun _ => 0).congr (fun _ => ⟨fun hne => hne rfl, False.elim⟩) fun _ => False.elim
  · rw [huses] at hne
    exact absurd rfl hne

section

variable (h : cache.Remembers)
include h

theorem Remembers.exists_empty : ∃ slot, cache.firstUseIndex slot = none :=
  h.index.exists_empty Fin.val Fin.val_injective fun position _ => position.isLt

theorem Remembers.found {hash : UInt64} {position : Fin statementCapacity}
    (hfind : cache.findFirstUse hash = some position) : cache.firstUses position = hash :=
  beq_iff_eq.mp (h.index.find_some hfind).2

theorem Remembers.not_found {hash : UInt64} (hzero : hash ≠ 0)
    (hfind : cache.findFirstUse hash = none) (position : Fin statementCapacity) :
    cache.firstUses position ≠ hash := by
  intro hposition
  have haccepts := h.index.find_none hfind position (by rw [hposition]; exact hzero) hposition
  rw [beq_eq_false_iff_ne] at haccepts
  exact haccepts hposition

/-- A place taken out of the index and emptied. -/
theorem Remembers.clearFirstUse {position : Fin statementCapacity} {hash : UInt64}
    (hposition : cache.firstUses position = hash) (hzero : hash ≠ 0) :
    (cache.clearFirstUse position hash).Remembers := by
  have herased := h.index.erase position (by rw [hposition]; exact hzero) hposition h.exists_empty
  refine ⟨herased.congr (fun other => ?_) (fun other hother => update_of_ne hother.2 _ _),
    fun other other' heq hne => ?_⟩
  · show update cache.firstUses position 0 other ≠ 0 ↔ _
    by_cases hother : other = position
    · rw [hother, update_self]
      simp
    · rw [update_of_ne hother]
      simp [hother]
  · have hkept : ∀ place, update cache.firstUses position 0 place ≠ 0 →
        place ≠ position ∧ update cache.firstUses position 0 place = cache.firstUses place := by
      intro place hplace
      have hplace' : place ≠ position := by
        rintro rfl
        rw [update_self] at hplace
        exact hplace rfl
      exact ⟨hplace', update_of_ne hplace' _ _⟩
    replace heq : update cache.firstUses position 0 other = update cache.firstUses position 0 other' := heq
    replace hne : update cache.firstUses position 0 other ≠ 0 := hne
    have hother := hkept other hne
    have hother' := hkept other' (heq ▸ hne)
    rw [hother.2, hother'.2] at heq
    rw [hother.2] at hne
    exact h.distinct other other' heq hne

end

/-- A hash put into an empty place, where the index already has none. -/
theorem Remembers.replace {firstUseIndex : ProbeIndex (Fin statementCapacity)} {position : Fin statementCapacity}
    {hash : UInt64} (hindex : firstUseIndex.Holds (fun other => cache.firstUses other ≠ 0 ∧ other ≠ position)
      cache.firstUses) (hdistinct : ∀ place other, cache.firstUses place = cache.firstUses other →
      cache.firstUses place ≠ 0 → place = other) (hzero : hash ≠ 0) (hnew : ∀ other, cache.firstUses other ≠ hash)
    (nextFirstUse : Fin statementCapacity) :
    Remembers { cache with
      firstUses := update cache.firstUses position hash
      firstUseIndex := firstUseIndex.insert position hash
      nextFirstUse := nextFirstUse } := by
  have hempty := hindex.exists_empty Fin.val Fin.val_injective fun place _ => place.isLt
  have hcongr : firstUseIndex.Holds (fun other => cache.firstUses other ≠ 0 ∧ other ≠ position)
      (update cache.firstUses position hash) :=
    hindex.congr (fun _ => Iff.rfl) fun other hother => update_of_ne hother.2 _ _
  have hinserted := hcongr.insert position (fun hposition => hposition.2 rfl) (update_self _ _ _) hempty
  refine ⟨hinserted.congr (fun other => ?_) (fun _ _ => rfl), fun place other heq hne => ?_⟩
  · show update cache.firstUses position hash other ≠ 0 ↔ _
    by_cases hother : other = position
    · rw [hother, update_self]
      simp [hzero]
    · rw [update_of_ne hother]
      simp [hother]
  · replace heq : update cache.firstUses position hash place = update cache.firstUses position hash other := heq
    replace hne : update cache.firstUses position hash place ≠ 0 := hne
    by_cases hplace : place = position <;> by_cases hother : other = position
    · rw [hplace, hother]
    · rw [hplace, update_self, update_of_ne hother] at heq
      exact absurd heq.symm (hnew other)
    · rw [hother, update_self, update_of_ne hplace] at heq
      exact absurd heq (hnew place)
    · rw [update_of_ne hplace, update_of_ne hother] at heq
      rw [update_of_ne hplace] at hne
      exact hdistinct place other heq hne

theorem Remembers.remember (h : cache.Remembers) {hash : UInt64} (hzero : hash ≠ 0) :
    (cache.remember hash).Remembers := by
  unfold DbStatementCache.remember
  split
  · exact h
  · rename_i hnone
    rw [Bool.not_eq_true, Option.isSome_eq_false_iff, Option.isNone_iff_eq_none] at hnone
    refine Remembers.replace ?_ h.distinct hzero (h.not_found hzero hnone) _
    split
    · rename_i hused
      exact h.index.erase _ hused rfl h.exists_empty
    · rename_i hfree
      rw [ne_eq, not_not] at hfree
      refine h.index.congr (fun other => ⟨fun hother => hother.1, fun hother => ⟨hother, ?_⟩⟩) fun _ _ => rfl
      rintro rfl
      exact hother hfree

/-- What was remembered is found, until it is cleared. -/
theorem Remembers.findFirstUse_isSome (h : cache.Remembers) {hash : UInt64} (hzero : hash ≠ 0) :
    (cache.findFirstUse hash).isSome ↔ ∃ position, cache.firstUses position = hash := by
  constructor
  · intro hsome
    obtain ⟨position, hposition⟩ := Option.isSome_iff_exists.mp hsome
    exact ⟨position, h.found hposition⟩
  · rintro ⟨position, hposition⟩
    cases hfind : cache.findFirstUse hash with
    | none => exact absurd hposition (h.not_found hzero hfind position)
    | some _ => rfl

theorem remember_mem (h : cache.Remembers) {hash : UInt64} (hzero : hash ≠ 0) :
    ∃ position, (cache.remember hash).firstUses position = hash := by
  unfold remember
  split
  · exact (h.findFirstUse_isSome hzero).mp ‹_›
  · exact ⟨cache.nextFirstUse, update_self _ _ _⟩

theorem remember_firstUses (hash : UInt64) (position : Fin statementCapacity) :
    (cache.remember hash).firstUses position = cache.firstUses position ∨
      (cache.remember hash).firstUses position = hash := by
  unfold remember
  split
  · exact .inl rfl
  · by_cases hposition : position = cache.nextFirstUse
    · subst hposition
      exact .inr (update_self _ _ _)
    · exact .inl (update_of_ne hposition _ _)

@[simp] theorem remember_entries (hash : UInt64) : (cache.remember hash).entries = cache.entries := by
  unfold remember
  split <;> rfl

@[simp] theorem remember_entryIndex (hash : UInt64) : (cache.remember hash).entryIndex = cache.entryIndex := by
  unfold remember
  split <;> rfl

@[simp] theorem remember_clock (hash : UInt64) : (cache.remember hash).clock = cache.clock := by
  unfold remember
  split <;> rfl

@[simp] theorem remember_generation (hash : UInt64) : (cache.remember hash).generation = cache.generation := by
  unfold remember
  split <;> rfl

/-! ## Entries -/

def Live (cache : DbStatementCache Payload) (position : Nat) : Prop :=
  ∃ existing, cache.entries[position]? = some existing ∧ existing.generation ≠ 0

variable (stringHash) in
/-- **What holds of the entries.** The index holds exactly the live ones, a key is cached once, and no two entries
were used last at the same time. -/
structure Consistent (cache : DbStatementCache Payload) : Prop where
  index : cache.entryIndex.Holds cache.Live cache.hashAt
  size : cache.entries.length ≤ statementCapacity
  hashes : ∀ (position : Nat) existing, cache.entries[position]? = some existing →
    existing.hash = keyHash stringHash existing.sql existing.types
  keys : ∀ (position other : Nat) existing existing', cache.entries[position]? = some existing →
    cache.entries[other]? = some existing' → existing.generation ≠ 0 → existing'.generation ≠ 0 →
    existing.sql = existing'.sql → existing.types = existing'.types → position = other
  generations : ∀ (position : Nat) existing, cache.entries[position]? = some existing →
    existing.generation ≤ cache.generation
  uses : ∀ (position : Nat) existing, cache.entries[position]? = some existing → existing.lastUse ≤ cache.clock
  distinctUses : ∀ (position other : Nat) existing existing', cache.entries[position]? = some existing →
    cache.entries[other]? = some existing' → existing.lastUse = existing'.lastUse → position = other

variable {position : Nat}

theorem Live.lt (h : cache.Live position) : position < cache.entries.length := by
  obtain ⟨_, hexisting, _⟩ := h
  exact (List.getElem?_eq_some_iff.mp hexisting).1

variable {existing : StatementEntry Payload}

theorem hashAt_eq (h : cache.entries[position]? = some existing) : cache.hashAt position = existing.hash := by
  unfold hashAt
  rw [h]
  rfl

theorem matchesKey_iff {hash : UInt64} {sql : Bytes} {types : List UInt32} :
    cache.matchesKey hash sql types position = true ↔ ∃ existing, cache.entries[position]? = some existing ∧
      existing.generation ≠ 0 ∧ existing.hash = hash ∧ existing.sql = sql ∧ existing.types = types := by
  unfold matchesKey
  rw [Option.any_eq_true]
  simp only [Bool.and_eq_true, bne_iff_ne, beq_iff_eq, and_assoc]

theorem live_eq_some {statement : DbStatementHandle} :
    cache.live statement = some existing ↔
      cache.entries[statement.index]? = some existing ∧ existing.generation = statement.generation := by
  unfold live
  rw [Option.filter_eq_some_iff, beq_iff_eq]

section

variable (h : cache.Consistent stringHash)
include h

theorem Consistent.exists_empty : ∃ slot, cache.entryIndex slot = none :=
  h.index.exists_empty id (fun _ _ heq => heq) fun _ hposition => Nat.lt_of_lt_of_le hposition.lt h.size

/-- **A live entry is found** by its key. -/
theorem Consistent.find_live (hexisting : cache.entries[position]? = some existing)
    (hlive : existing.generation ≠ 0) :
    cache.entryIndex.find (keyHash stringHash existing.sql existing.types)
      (cache.matchesKey (keyHash stringHash existing.sql existing.types) existing.sql existing.types) =
        some position := by
  have hhash := h.hashes position existing hexisting
  cases hfind : cache.entryIndex.find (keyHash stringHash existing.sql existing.types)
      (cache.matchesKey (keyHash stringHash existing.sql existing.types) existing.sql existing.types) with
  | none =>
    have hrejects := h.index.find_none hfind position ⟨existing, hexisting, hlive⟩ (by rw [hashAt_eq hexisting, hhash])
    rw [matchesKey_iff.mpr ⟨existing, hexisting, hlive, hhash, rfl, rfl⟩] at hrejects
    cases hrejects
  | some found =>
    obtain ⟨_, hmatches⟩ := h.index.find_some hfind
    obtain ⟨existing', hexisting', hlive', _, hsql, htypes⟩ := matchesKey_iff.mp hmatches
    rw [h.keys found position existing' existing hexisting' hexisting hlive' hlive hsql htypes]

/-- A key that is not found is not cached. -/
theorem Consistent.not_cached {sql : Bytes} {types : List UInt32}
    (hfind : cache.entryIndex.find (keyHash stringHash sql types) (cache.matchesKey
      (keyHash stringHash sql types) sql types) = none)
    (hexisting : cache.entries[position]? = some existing) (hlive : existing.generation ≠ 0)
    (hsql : existing.sql = sql) : existing.types ≠ types := by
  rintro rfl
  subst hsql
  rw [h.find_live hexisting hlive] at hfind
  cases hfind

end

/-- A cache without entries. -/
theorem Consistent.of_nil (hentries : cache.entries = []) (hindex : cache.entryIndex = fun _ => none) :
    cache.Consistent stringHash := by
  have hnone : ∀ (position : Nat) existing, cache.entries[position]? ≠ some existing := by
    intro position existing
    rw [hentries, List.getElem?_nil]
    exact nofun
  refine ⟨?_, by rw [hentries]; exact Nat.zero_le _, ?_, ?_, ?_, ?_, ?_⟩
  · rw [hindex]
    refine (ProbeIndex.Holds.empty cache.hashAt).congr (fun position => ⟨?_, False.elim⟩) fun _ => False.elim
    exact fun ⟨existing, hexisting, _⟩ => hnone position existing hexisting
  all_goals
    intros
    exact absurd ‹_› (hnone _ _)

/-- Nothing of the entries reads the first uses. -/
theorem Consistent.of_eq (h : cache.Consistent stringHash) {other : DbStatementCache Payload}
    (hentries : other.entries = cache.entries) (hindex : other.entryIndex = cache.entryIndex)
    (hgeneration : other.generation = cache.generation) (hclock : cache.clock ≤ other.clock) :
    other.Consistent stringHash := by
  have hlive : other.Live = cache.Live := by
    unfold Live
    rw [hentries]
  have hhash : other.hashAt = cache.hashAt := by
    unfold hashAt
    rw [hentries]
  refine ⟨?_, ?_, ?_, ?_, ?_, ?_, ?_⟩
  · rw [hindex, hlive, hhash]
    exact h.index
  · rw [hentries]
    exact h.size
  · rw [hentries]
    exact h.hashes
  · rw [hentries]
    exact h.keys
  · rw [hentries, hgeneration]
    exact h.generations
  · rw [hentries]
    exact fun position existing hexisting => Nat.le_trans (h.uses position existing hexisting) hclock
  · rw [hentries]
    exact h.distinctUses

variable {other : Nat} {entries : List (StatementEntry Payload)}
  {change : StatementEntry Payload → StatementEntry Payload}

theorem modify_eq_some (h : (entries.modify position change)[other]? = some existing) :
    ∃ old, entries[other]? = some old ∧
      (other = position ∧ existing = change old ∨ other ≠ position ∧ existing = old) := by
  rw [List.getElem?_modify] at h
  obtain ⟨old, hold, heq⟩ := Option.map_eq_some_iff.mp h
  refine ⟨old, hold, ?_⟩
  by_cases hother : position = other
  · rw [if_pos hother] at heq
    exact .inl ⟨hother.symm, heq.symm⟩
  · rw [if_neg hother] at heq
    exact .inr ⟨fun h => hother h.symm, heq.symm⟩

theorem modify_of_ne (hne : other ≠ position) (change : StatementEntry Payload → StatementEntry Payload) :
    (entries.modify position change)[other]? = entries[other]? := by
  simp [Ne.symm hne]

variable (stringHash) in
/-- What an entry at this position must not share with the others, and what the cache bounds. -/
structure Admits (cache : DbStatementCache Payload) (position : Nat) (entry : StatementEntry Payload)
    (generation clock : Nat) : Prop where
  hash : entry.hash = keyHash stringHash entry.sql entry.types
  generation : cache.generation ≤ generation ∧ entry.generation ≤ generation
  use : cache.clock ≤ clock ∧ entry.lastUse ≤ clock
  others : ∀ (other : Nat) existing, other ≠ position → cache.entries[other]? = some existing →
    existing.lastUse ≠ entry.lastUse ∧ (existing.generation ≠ 0 → entry.generation ≠ 0 → existing.sql = entry.sql →
      existing.types ≠ entry.types)

/-- **One entry changes.** -/
theorem Consistent.replace (h : cache.Consistent stringHash) {next : DbStatementCache Payload} (position : Nat)
    (entry : StatementEntry Payload) (hadmits : cache.Admits stringHash position entry next.generation next.clock)
    (hentries : ∀ (other : Nat) existing, next.entries[other]? = some existing →
      other = position ∧ existing = entry ∨ other ≠ position ∧ cache.entries[other]? = some existing)
    (hindex : next.entryIndex.Holds next.Live next.hashAt) (hsize : next.entries.length ≤ statementCapacity) :
    next.Consistent stringHash := by
  refine ⟨hindex, hsize, ?_, ?_, ?_, ?_, ?_⟩
  · intro other existing hexisting
    rcases hentries other existing hexisting with ⟨_, rfl⟩ | ⟨_, hold⟩
    · exact hadmits.hash
    · exact h.hashes other existing hold
  · intro other other' existing existing' hexisting hexisting' hne hne' hsql htypes
    rcases hentries other existing hexisting with ⟨rfl, rfl⟩ | ⟨hother, hold⟩ <;>
      rcases hentries other' existing' hexisting' with ⟨rfl, rfl⟩ | ⟨hother', hold'⟩
    · rfl
    · exact absurd htypes.symm ((hadmits.others other' existing' hother' hold').2 hne' hne hsql.symm)
    · exact absurd htypes ((hadmits.others other existing hother hold).2 hne hne' hsql)
    · exact h.keys other other' existing existing' hold hold' hne hne' hsql htypes
  · intro other existing hexisting
    rcases hentries other existing hexisting with ⟨_, rfl⟩ | ⟨_, hold⟩
    · exact hadmits.generation.2
    · exact Nat.le_trans (h.generations other existing hold) hadmits.generation.1
  · intro other existing hexisting
    rcases hentries other existing hexisting with ⟨_, rfl⟩ | ⟨_, hold⟩
    · exact hadmits.use.2
    · exact Nat.le_trans (h.uses other existing hold) hadmits.use.1
  · intro other other' existing existing' hexisting hexisting' heq
    rcases hentries other existing hexisting with ⟨rfl, rfl⟩ | ⟨hother, hold⟩ <;>
      rcases hentries other' existing' hexisting' with ⟨rfl, rfl⟩ | ⟨hother', hold'⟩
    · rfl
    · exact absurd heq.symm (hadmits.others other' existing' hother' hold').1
    · exact absurd heq (hadmits.others other existing hother hold).1
    · exact h.distinctUses other other' existing existing' hold hold' heq

variable {found : StatementEntry Payload}

/-- The one entry of a table that changed. -/
theorem modify_cases (hfound : entries[position]? = some found)
    (h : (entries.modify position change)[other]? = some existing) :
    other = position ∧ existing = change found ∨ other ≠ position ∧ entries[other]? = some existing := by
  obtain ⟨old, hold, ⟨rfl, rfl⟩ | ⟨hother, rfl⟩⟩ := modify_eq_some h
  · rw [hfound, Option.some.injEq] at hold
    exact .inl ⟨rfl, hold ▸ rfl⟩
  · exact .inr ⟨hother, hold⟩

section

variable (h : cache.Consistent stringHash)
include h

/-- An entry that changed in nothing but its payload and its last use. -/
theorem Consistent.modify (hfound : cache.entries[position]? = some found)
    {clock : Nat} (hclock : cache.clock ≤ clock)
    (hkey : (change found).sql = found.sql ∧ (change found).types = found.types ∧ (change found).hash = found.hash ∧
      (change found).generation = found.generation)
    (huse : (change found).lastUse = found.lastUse ∨
      cache.clock < (change found).lastUse ∧ (change found).lastUse ≤ clock) :
    Consistent stringHash { cache with entries := cache.entries.modify position change, clock := clock } := by
  obtain ⟨hsql, htypes, hhash, hgeneration⟩ := hkey
  have hself : (cache.entries.modify position change)[position]? = some (change found) := by simp [hfound]
  have hle := h.uses position found hfound
  refine h.replace position (change found) ⟨?_, ⟨Nat.le_refl _, ?_⟩, ⟨hclock, ?_⟩, ?_⟩
    (fun other existing => modify_cases hfound) (h.index.congr (fun other => ⟨?_, ?_⟩) ?_) ?_
  · rw [hhash, hsql, htypes]
    exact h.hashes position found hfound
  · rw [hgeneration]
    exact h.generations position found hfound
  · rcases huse with huse | huse
    · exact huse.symm ▸ Nat.le_trans hle hclock
    · exact huse.2
  · intro other existing hother hold
    rw [hsql, htypes, hgeneration]
    refine ⟨fun heq => ?_, fun hne hne' hsame hsame' =>
      hother (h.keys other position existing found hold hfound hne hne' hsame hsame')⟩
    rcases huse with huse | huse
    · exact hother (h.distinctUses other position existing found hold hfound (heq.trans huse))
    · exact absurd (h.uses other existing hold) (by omega)
  · rintro ⟨existing, hexisting, hlive⟩
    rcases modify_cases hfound hexisting with ⟨rfl, rfl⟩ | ⟨_, hold⟩
    · exact ⟨found, hfound, hgeneration ▸ hlive⟩
    · exact ⟨existing, hold, hlive⟩
  · rintro ⟨old, hold, hlive⟩
    by_cases hother : other = position
    · subst hother
      rw [hfound, Option.some.injEq] at hold
      exact ⟨_, hself, hgeneration.symm ▸ hold ▸ hlive⟩
    · exact ⟨old, (modify_of_ne hother change).trans hold, hlive⟩
  · rintro other ⟨old, hold, _⟩
    rw [hashAt_eq hold]
    by_cases hother : other = position
    · subst hother
      rw [hfound, Option.some.injEq] at hold
      exact (hashAt_eq hself).trans (hold ▸ hhash)
    · exact hashAt_eq ((modify_of_ne hother change).trans hold)
  · rw [List.length_modify]
    exact h.size

/-- The index without a position, which it need not hold. -/
theorem Consistent.erase
    (hfound : cache.entries[position]? = some found) :
    (cache.entryIndex.erase position found.hash cache.hashAt).Holds
      (fun other => cache.Live other ∧ other ≠ position) cache.hashAt := by
  by_cases hlive : found.generation = 0
  · have hdead : ¬ cache.Live position := by
      rintro ⟨existing, hexisting, hne⟩
      rw [hfound, Option.some.injEq] at hexisting
      exact hne (hexisting ▸ hlive)
    rw [h.index.erase_of_not hdead]
    refine h.index.congr (fun other => ⟨fun hother => hother.1, fun hother => ⟨hother, ?_⟩⟩) fun _ _ => rfl
    rintro rfl
    exact hdead hother
  · exact h.index.erase position ⟨found, hfound, hlive⟩ (hashAt_eq hfound) h.exists_empty

/-- A forgotten entry, whose position left the index. -/
theorem Consistent.drop (hfound : cache.entries[position]? = some found) :
    Consistent stringHash { cache with
      entryIndex := cache.entryIndex.erase position found.hash cache.hashAt
      entries := cache.entries.modify position fun existing => { existing with generation := 0 } } := by
  refine h.replace position { found with generation := 0 }
    ⟨h.hashes position found hfound, ⟨Nat.le_refl _, Nat.zero_le _⟩, ⟨Nat.le_refl _, h.uses position found hfound⟩, ?_⟩
    (fun other existing => modify_cases hfound) ((h.erase hfound).congr (fun other => ⟨?_, ?_⟩) ?_) ?_
  · exact fun other existing hother hold =>
      ⟨fun heq => hother (h.distinctUses other position existing found hold hfound heq), fun _ hne => absurd rfl hne⟩
  · rintro ⟨existing, hexisting, hne⟩
    rcases modify_cases hfound hexisting with ⟨_, rfl⟩ | ⟨hother, hold⟩
    · exact absurd rfl hne
    · exact ⟨⟨existing, hold, hne⟩, hother⟩
  · rintro ⟨⟨old, hold, hne⟩, hother⟩
    exact ⟨old, (modify_of_ne hother _).trans hold, hne⟩
  · rintro other ⟨⟨old, hold, _⟩, hother⟩
    rw [hashAt_eq hold]
    apply hashAt_eq
    exact (modify_of_ne hother _).trans hold
  · rw [List.length_modify]
    exact h.size

end

/-! ## Placing an entry -/

theorem oldest_spec (hne : cache.entries ≠ []) :
    ∃ existing, cache.entries[cache.oldest]? = some existing ∧
      ∀ other ∈ cache.entries, existing.lastUse ≤ other.lastUse := by
  obtain ⟨least, hleast⟩ := Option.ne_none_iff_exists'.mp
    (mt (List.argmin_eq_none (f := StatementEntry.lastUse)).mp hne)
  have hsome : cache.oldest < cache.entries.length := by
    refine List.findIdx_lt_length_of_exists ⟨least, List.argmin_mem hleast, ?_⟩
    rw [List.all_eq_true]
    exact fun other hother => decide_eq_true (List.le_of_mem_argmin hother hleast)
  refine ⟨cache.entries[cache.oldest], List.getElem?_eq_getElem hsome, fun other hother => ?_⟩
  have hall := List.findIdx_getElem (w := hsome)
  rw [List.all_eq_true] at hall
  exact of_decide_eq_true (hall other hother)

/-- **The rule of eviction**: the cache is full, nothing was forgotten, and the entry's last use is the oldest. -/
structure Evicts (cache : DbStatementCache Payload) (position : Nat) (payload : Payload) : Prop where
  full : cache.entries.length = statementCapacity
  live : ∀ existing ∈ cache.entries, existing.generation ≠ 0
  oldest : ∃ existing, cache.entries[position]? = some existing ∧ existing.payload = payload ∧
    ∀ other ∈ cache.entries, existing.lastUse ≤ other.lastUse

/-- **What `place` does**: the entry takes one position, which leaves the index if it was live. -/
structure Places (cache : DbStatementCache Payload) (created : StatementEntry Payload)
    (placed : DbStatementCache Payload × Nat × Option Payload) : Prop where
  entries : ∀ other : Nat, placed.1.entries[other]? =
    if other = placed.2.1 then some created else cache.entries[other]?
  index : placed.1.entryIndex.Holds (fun other => cache.Live other ∧ other ≠ placed.2.1) cache.hashAt
  size : placed.1.entries.length ≤ statementCapacity
  rest : placed.1 = { cache with entries := placed.1.entries, entryIndex := placed.1.entryIndex }
  evicted : ∀ payload, placed.2.2 = some payload → cache.Evicts placed.2.1 payload
  kept : placed.2.2 = none → ¬ cache.Live placed.2.1

/-- A position that was not in the index stays out of it. -/
theorem Consistent.index_of_not (h : cache.Consistent stringHash) (hnot : ¬ cache.Live position) :
    cache.entryIndex.Holds (fun other => cache.Live other ∧ other ≠ position) cache.hashAt := by
  refine h.index.congr (fun other => ⟨fun hother => hother.1, fun hother => ⟨hother, ?_⟩⟩) fun _ _ => rfl
  rintro rfl
  exact hnot hother

theorem Consistent.place (h : cache.Consistent stringHash) (created : StatementEntry Payload) :
    cache.Places created (cache.place created) := by
  unfold DbStatementCache.place
  cases hfree : cache.entries.findIdx? fun existing => existing.generation == 0 with
  | some index =>
    obtain ⟨hlt, hzero, _⟩ := List.findIdx?_eq_some_iff_getElem.mp hfree
    rw [beq_iff_eq] at hzero
    have hdead : ¬ cache.Live index := by
      rintro ⟨existing, hexisting, hne⟩
      rw [List.getElem?_eq_getElem hlt, Option.some.injEq] at hexisting
      exact hne (hexisting ▸ hzero)
    refine ⟨fun other => ?_, h.index_of_not hdead, ?_, rfl, nofun, fun _ => hdead⟩
    · rw [List.getElem?_set]
      by_cases hother : other = index
      · rw [if_pos hother.symm, if_pos hother, if_pos hlt]
      · rw [if_neg (Ne.symm hother), if_neg hother]
    · rw [List.length_set]
      exact h.size
  | none =>
    have hlive : ∀ existing ∈ cache.entries, existing.generation ≠ 0 := by
      intro existing hexisting
      have := List.findIdx?_eq_none_iff.mp hfree existing hexisting
      rwa [beq_eq_false_iff_ne] at this
    dsimp only
    split
    · rename_i hfull
      obtain ⟨oldest, holdest, hleast⟩ := cache.oldest_spec fun hnil => by
        rw [hnil] at hfull
        cases hfull
      have hlt := (List.getElem?_eq_some_iff.mp holdest).1
      refine ⟨fun other => ?_, ?_, ?_, rfl, fun payload heq => ?_, fun heq => ?_⟩
      · rw [List.getElem?_set]
        by_cases hother : other = cache.oldest
        · rw [if_pos hother.symm, if_pos hother, if_pos hlt]
        · rw [if_neg (Ne.symm hother), if_neg hother]
      · show (cache.entryIndex.erase cache.oldest (cache.hashAt cache.oldest) cache.hashAt).Holds _ _
        rw [hashAt_eq holdest]
        exact h.erase holdest
      · rw [List.length_set]
        exact h.size
      · replace heq : cache.entries[cache.oldest]?.map (·.payload) = some payload := heq
        rw [holdest, Option.map_some, Option.some.injEq] at heq
        exact ⟨hfull, hlive, oldest, holdest, heq, hleast⟩
      · replace heq : cache.entries[cache.oldest]?.map (·.payload) = none := heq
        rw [holdest] at heq
        cases heq
    · rename_i hroom
      have hdead : ¬ cache.Live cache.entries.length := fun hlive => Nat.lt_irrefl _ hlive.lt
      refine ⟨fun other => ?_, h.index_of_not hdead, ?_, rfl, nofun, fun _ => hdead⟩
      · show (cache.entries ++ [created])[other]? = if other = cache.entries.length then _ else _
        split
        · rename_i hother
          rw [hother]
          simp
        · rename_i hother
          rcases Nat.lt_or_gt_of_ne hother with hlt | hgt
          · exact List.getElem?_append_left hlt
          · rw [List.getElem?_eq_none (by rw [List.length_append, List.length_singleton]; omega),
              List.getElem?_eq_none (by omega)]
      · show (cache.entries ++ [created]).length ≤ statementCapacity
        have := h.size
        rw [List.length_append, List.length_singleton]
        omega

/-- Without a forgotten entry the table grows up to its capacity. -/
theorem place_append (hlive : ∀ existing ∈ cache.entries, existing.generation ≠ 0)
    (hroom : cache.entries.length ≠ statementCapacity) (created : StatementEntry Payload) :
    cache.place created = ({ cache with entries := cache.entries ++ [created] }, cache.entries.length, none) := by
  have hfree : (cache.entries.findIdx? fun existing => existing.generation == 0) = none := by
    rw [List.findIdx?_eq_none_iff]
    intro existing hexisting
    rw [beq_eq_false_iff_ne]
    exact hlive existing hexisting
  unfold place
  rw [hfree]
  exact if_neg hroom

/-- A full one takes the position of the oldest entry. -/
theorem place_full (hlive : ∀ existing ∈ cache.entries, existing.generation ≠ 0)
    (hfull : cache.entries.length = statementCapacity) (created : StatementEntry Payload) :
    (cache.place created).1.entries = cache.entries.set cache.oldest created := by
  have hfree : (cache.entries.findIdx? fun existing => existing.generation == 0) = none := by
    rw [List.findIdx?_eq_none_iff]
    intro existing hexisting
    rw [beq_eq_false_iff_ne]
    exact hlive existing hexisting
  unfold place
  rw [hfree]
  rw [if_pos hfull]

/-- The entry `insert` builds. -/
def created (cache : DbStatementCache Payload) (hash : UInt64) (sql : Bytes) (types : List UInt32)
    (payload : Payload) : StatementEntry Payload :=
  { sql := sql, types := types, hash := hash, lastUse := cache.clock, generation := cache.generation + 1,
    payload := payload }

variable {hash : UInt64} {sql : Bytes} {types : List UInt32} {firstUse : Fin statementCapacity} {payload : Payload}

theorem insert_entries : (cache.insert hash sql types firstUse payload).1.entries =
    (cache.place (cache.created hash sql types payload)).1.entries := rfl

section

variable (h : cache.Consistent stringHash)
include h

theorem Consistent.insert_clock : (cache.insert hash sql types firstUse payload).1.clock = cache.clock := by
  show (cache.place (cache.created hash sql types payload)).1.clock = cache.clock
  rw [(h.place _).rest]

theorem Consistent.insert_firstUses :
    (cache.insert hash sql types firstUse payload).1.firstUses = update cache.firstUses firstUse 0 := by
  show update (cache.place (cache.created hash sql types payload)).1.firstUses firstUse 0 = _
  rw [(h.place _).rest]

/-- **An inserted entry** under a key that was not cached, used now. -/
theorem Consistent.insert (hhash : hash = keyHash stringHash sql types)
    (hnew : ∀ (position : Nat) existing, cache.entries[position]? = some existing → existing.generation ≠ 0 →
      existing.sql = sql → existing.types ≠ types)
    (hnow : ∀ (position : Nat) existing, cache.entries[position]? = some existing → existing.lastUse < cache.clock) :
    (cache.insert hash sql types firstUse payload).1.Consistent stringHash := by
  have hplaced := h.place (cache.created hash sql types payload)
  generalize hresult : cache.place (cache.created hash sql types payload) = placed at hplaced
  have hentries : (cache.insert hash sql types firstUse payload).1.entries = placed.1.entries := by
    rw [insert_entries, hresult]
  have hindex : (cache.insert hash sql types firstUse payload).1.entryIndex =
      placed.1.entryIndex.insert placed.2.1 hash := by
    rw [← hresult]
    rfl
  have hclock : (cache.insert hash sql types firstUse payload).1.clock = cache.clock := h.insert_clock
  have hcases : ∀ (other : Nat) existing,
      (cache.insert hash sql types firstUse payload).1.entries[other]? = some existing →
      other = placed.2.1 ∧ existing = cache.created hash sql types payload ∨
        other ≠ placed.2.1 ∧ cache.entries[other]? = some existing := by
    intro other existing hexisting
    rw [hentries, hplaced.entries] at hexisting
    split at hexisting
    · exact .inl ⟨‹_›, (Option.some.inj hexisting).symm⟩
    · exact .inr ⟨‹_›, hexisting⟩
  have hself : (cache.insert hash sql types firstUse payload).1.entries[placed.2.1]? =
      some (cache.created hash sql types payload) := by
    rw [hentries, hplaced.entries, if_pos rfl]
  have hothers : ∀ other : Nat, other ≠ placed.2.1 →
      (cache.insert hash sql types firstUse payload).1.entries[other]? = cache.entries[other]? := by
    intro other hother
    rw [hentries, hplaced.entries, if_neg hother]
  refine h.replace placed.2.1 (cache.created hash sql types payload)
    ⟨hhash, ⟨Nat.le_succ _, Nat.le_refl _⟩, ⟨hclock.symm.le, hclock.symm.le⟩, fun other existing _ hold =>
      ⟨Nat.ne_of_lt (hnow other existing hold), fun hne _ => hnew other existing hold hne⟩⟩ hcases ?_ ?_
  · have hcongr : placed.1.entryIndex.Holds (fun other => cache.Live other ∧ other ≠ placed.2.1)
        (cache.insert hash sql types firstUse payload).1.hashAt := by
      refine hplaced.index.congr (fun _ => Iff.rfl) ?_
      rintro other ⟨⟨existing, hexisting, _⟩, hother⟩
      rw [hashAt_eq hexisting]
      exact hashAt_eq ((hothers other hother).trans hexisting)
    have hinserted := hcongr.insert placed.2.1 (fun hlive => hlive.2 rfl) (hashAt_eq hself)
      (hcongr.exists_empty id (fun _ _ heq => heq) fun _ hposition => Nat.lt_of_lt_of_le hposition.1.lt h.size)
    rw [hindex]
    refine hinserted.congr (fun other => ⟨?_, ?_⟩) fun _ _ => rfl
    · rintro ⟨existing, hexisting, hne⟩
      rcases hcases other existing hexisting with ⟨hother, _⟩ | ⟨hother, hold⟩
      · exact .inr hother
      · exact .inl ⟨⟨existing, hold, hne⟩, hother⟩
    · rintro (⟨⟨existing, hold, hne⟩, hother⟩ | rfl)
      · exact ⟨existing, (hothers other hother).trans hold, hne⟩
      · exact ⟨_, hself, Nat.succ_ne_zero _⟩
  · rw [hentries]
    exact hplaced.size

end

theorem Remembers.insert (h : cache.Remembers) (hconsistent : cache.Consistent stringHash)
    (hfound : cache.firstUses firstUse = hash) (hzero : hash ≠ 0) :
    (cache.insert hash sql types firstUse payload).1.Remembers := by
  have hrest := (hconsistent.place (cache.created hash sql types payload)).rest
  have huses : (cache.place (cache.created hash sql types payload)).1.firstUses = cache.firstUses := by rw [hrest]
  have hindex : (cache.place (cache.created hash sql types payload)).1.firstUseIndex = cache.firstUseIndex := by
    rw [hrest]
  have hcleared := h.clearFirstUse hfound hzero
  refine ⟨?_, ?_⟩
  · show ProbeIndex.Holds ((cache.place (cache.created hash sql types payload)).1.firstUseIndex.erase firstUse hash
      (cache.place (cache.created hash sql types payload)).1.firstUses)
      (fun position => update (cache.place (cache.created hash sql types payload)).1.firstUses firstUse 0 position ≠ 0)
      (update (cache.place (cache.created hash sql types payload)).1.firstUses firstUse 0)
    rw [huses, hindex]
    exact hcleared.index
  · show ∀ position other, update (cache.place (cache.created hash sql types payload)).1.firstUses firstUse 0 position =
      update (cache.place (cache.created hash sql types payload)).1.firstUses firstUse 0 other →
      update (cache.place (cache.created hash sql types payload)).1.firstUses firstUse 0 position ≠ 0 →
      position = other
    rw [huses]
    exact hcleared.distinct

/-! ## Looking up -/

/-- The cache as `find` counted its use. -/
def tick (cache : DbStatementCache Payload) : DbStatementCache Payload := { cache with clock := cache.clock + 1 }

/-- The key of no live entry. -/
def Uncached (cache : DbStatementCache Payload) (sql : Bytes) (types : List UInt32) : Prop :=
  ∀ (position : Nat) existing, cache.entries[position]? = some existing → existing.generation ≠ 0 →
    existing.sql = sql → existing.types ≠ types

/-- **What `find` does**: it returns a cached statement, remembers a first use, inserts nothing, or inserts. -/
inductive Finds (cache : DbStatementCache Payload) (hash : UInt64) (sql : Bytes) (types : List UInt32)
    (mayInsert : Bool) (make : Made Payload) :
    DbStatementCache Payload × Option (StatementLookup Payload) → Prop
  | cached (position : Nat) (existing : StatementEntry Payload)
      (hexisting : cache.entries[position]? = some existing) (hlive : existing.generation ≠ 0)
      (hsql : existing.sql = sql) (htypes : existing.types = types) :
      Finds cache hash sql types mayInsert make
        ({ cache with
            entries := cache.entries.modify position fun old => { old with lastUse := cache.clock + 1 }
            clock := cache.clock + 1 },
          some { statement := some ⟨position, existing.generation⟩, hash := hash })
  | remembered (hnew : cache.Uncached sql types) (hfirst : cache.findFirstUse hash = none) :
      Finds cache hash sql types mayInsert make (cache.tick.remember hash, some { hash := hash })
  | unchanged (lookup : Option (StatementLookup Payload)) (hnew : cache.Uncached sql types)
      (hfailed : lookup = none ∨ lookup = some { hash := hash, repeated := true })
      (hmake : mayInsert = false ∨ ∀ payload, make ≠ .built payload) :
      Finds cache hash sql types mayInsert make (cache.tick, lookup)
  | inserted (firstUse : Fin statementCapacity) (payload : Payload) (hnew : cache.Uncached sql types)
      (hfirst : cache.findFirstUse hash = some firstUse) (hmake : make = .built payload) :
      Finds cache hash sql types mayInsert make
        ((cache.tick.insert hash sql types firstUse payload).1,
          some (cache.tick.insert hash sql types firstUse payload).2)

theorem Consistent.finds (h : cache.Consistent stringHash) (sql : Bytes) (types : List UInt32) (mayInsert : Bool)
    (make : Made Payload) :
    cache.Finds (keyHash stringHash sql types) sql types mayInsert make
      (cache.find stringHash sql types mayInsert make) := by
  unfold find
  dsimp only
  cases hcached : cache.entryIndex.find (keyHash stringHash sql types)
      (DbStatementCache.matchesKey { cache with clock := cache.clock + 1 } (keyHash stringHash sql types) sql
        types) with
  | some position =>
    obtain ⟨_, hmatches⟩ := h.index.find_some hcached
    obtain ⟨existing, hexisting, hlive, _, hsql, htypes⟩ := matchesKey_iff.mp hmatches
    dsimp only
    have hgeneration : DbStatementCache.generationAt { cache with clock := cache.clock + 1 } position =
        existing.generation := by
      rw [DbStatementCache.generationAt, hexisting]
      rfl
    rw [hgeneration]
    exact .cached position existing hexisting hlive hsql htypes
  | none =>
    have hnew : cache.Uncached sql types := fun _ _ hexisting hlive hsql => h.not_cached hcached hexisting hlive hsql
    dsimp only
    cases hfirst : cache.findFirstUse (keyHash stringHash sql types) with
    | none =>
      rw [show DbStatementCache.findFirstUse { cache with clock := cache.clock + 1 } (keyHash stringHash sql types) =
        none from hfirst]
      exact .remembered hnew hfirst
    | some firstUse =>
      rw [show DbStatementCache.findFirstUse { cache with clock := cache.clock + 1 } (keyHash stringHash sql types) =
        some firstUse from hfirst]
      cases mayInsert with
      | false => exact .unchanged _ hnew (.inr rfl) (.inl rfl)
      | true =>
        cases make with
        | threw => exact .unchanged _ hnew (.inl rfl) (.inr nofun)
        | declined => exact .unchanged _ hnew (.inr rfl) (.inr nofun)
        | built payload => exact .inserted firstUse payload hnew hfirst rfl

end DbStatementCache

end Ruvia.Web
