import Ruvia.Web.StatementCache

/-!
# `Web.StatementCacheRuns` — what holds of the statement cache after every run

The calls of a driver in any order. Beside the cache two things are noted: which handle each `find` returned for which
key, and what was last written under a handle. A handle then resolves to its own key or to nothing, and what a full
cache evicts is what was used least recently (`statement_cache`).
-/

namespace Ruvia.Web

open Library Function
open DbStatementCache (live_eq_some modify_eq_some remember_entries remember_generation remember_entryIndex remember_clock insert_entries)

/-- A `find` that returned a handle. -/
structure StatementUse where
  clock : Nat
  handle : DbStatementHandle
  sql : Bytes
  types : List UInt32

/-- The payload last written under a handle, and the key it was made for. -/
structure WrittenPayload (Payload : Type*) where
  sql : Bytes
  types : List UInt32
  payload : Payload

structure StatementSession (Payload : Type*) where
  cache : DbStatementCache Payload := {}
  uses : List StatementUse := []
  written : DbStatementHandle → Option (WrittenPayload Payload) := fun _ => none

inductive StatementAction (Payload : Type*) where
  | find (sql : Bytes) (types : List UInt32) (mayInsert : Bool) (make : Made Payload)
  | forget (statement : DbStatementHandle) (useAgain : Bool)
  | updatePayload (statement : DbStatementHandle) (change : Payload → Payload)
  | clear

namespace StatementSession

variable {Payload : Type*}

/-- The history behind a call of `find`: a handle it returned, and the payload it made for a new entry. -/
def found (session : StatementSession Payload) (sql : Bytes) (types : List UInt32) (make : Made Payload)
    (result : DbStatementCache Payload × Option (StatementLookup Payload)) : StatementSession Payload :=
  match result.2 with
  | none => { session with cache := result.1 }
  | some lookup =>
    match lookup.statement with
    | none => { session with cache := result.1 }
    | some handle =>
      { cache := result.1
        uses := { clock := result.1.clock, handle := handle, sql := sql, types := types } :: session.uses
        written :=
          match make with
          | .built payload =>
            if lookup.inserted then
              update session.written handle (some { sql := sql, types := types, payload := payload })
            else session.written
          | _ => session.written }

/-- The history behind a change through the pointer `payload` returns, which is null for a stale handle. -/
def updated (session : StatementSession Payload) (statement : DbStatementHandle) (change : Payload → Payload) :
    StatementSession Payload :=
  match session.cache.live statement with
  | none => session
  | some _ =>
    { session with
      cache := session.cache.updatePayload statement change
      written := update session.written statement
        ((session.written statement).map fun old => { old with payload := change old.payload }) }

variable (stringHash : Bytes → UInt64)

def step (session : StatementSession Payload) : StatementAction Payload → StatementSession Payload
  | .find sql types mayInsert make =>
    session.found sql types make (session.cache.find stringHash sql types mayInsert make)
  | .forget statement useAgain => { session with cache := (session.cache.forget statement useAgain).1 }
  | .updatePayload statement change => session.updated statement change
  | .clear => { session with cache := session.cache.clear }

def machine : StateMachine (StatementSession Payload) (StatementAction Payload) where
  init session := session = {}
  step session action := some (session.step stringHash action)

/-- **What holds of the handles.** One that still resolves belongs to its key, every live entry was returned last at
its last use, and its payload is the one last written for its key. -/
structure Recorded (session : StatementSession Payload) : Prop where
  past : ∀ use ∈ session.uses, use.handle.generation ≠ 0 ∧ use.handle.generation ≤ session.cache.generation
  keyed : ∀ use ∈ session.uses, ∀ existing, session.cache.live use.handle = some existing →
    existing.sql = use.sql ∧ existing.types = use.types ∧ use.clock ≤ existing.lastUse
  recent : ∀ (position : Nat) existing, session.cache.entries[position]? = some existing →
    existing.generation ≠ 0 → ∃ use ∈ session.uses, use.handle = ⟨position, existing.generation⟩ ∧
      use.clock = existing.lastUse
  written : ∀ (position : Nat) existing, session.cache.entries[position]? = some existing →
    existing.generation ≠ 0 → session.written ⟨position, existing.generation⟩ =
      some { sql := existing.sql, types := existing.types, payload := existing.payload }

/-- **The invariant of every run.** -/
structure Good (session : StatementSession Payload) : Prop where
  consistent : session.cache.Consistent stringHash
  remembers : session.cache.Remembers
  recorded : session.Recorded

variable {stringHash} {session : StatementSession Payload}

theorem recorded_init : Recorded ({} : StatementSession Payload) := by
  refine ⟨?_, ?_, ?_, ?_⟩
  · rintro use huse
    cases huse
  · rintro use huse
    cases huse
  · rintro position existing hexisting
    cases hexisting
  · rintro position existing hexisting
    cases hexisting

theorem good_init : Good stringHash ({} : StatementSession Payload) :=
  ⟨.of_nil rfl rfl, .of_zero rfl rfl, recorded_init⟩

/-- Live entries that were there before, and no new handle. -/
theorem Recorded.sub (h : session.Recorded) {cache : DbStatementCache Payload}
    (hgeneration : session.cache.generation = cache.generation)
    (hback : ∀ (position : Nat) existing, cache.entries[position]? = some existing → existing.generation ≠ 0 →
      session.cache.entries[position]? = some existing) :
    Recorded { session with cache := cache } := by
  refine ⟨fun use huse => ?_, fun use huse existing hexisting => ?_, fun position existing hexisting hlive => ?_,
    fun position existing hexisting hlive => ?_⟩
  · rw [← hgeneration]
    exact h.past use huse
  · obtain ⟨hat, hsame⟩ := live_eq_some.mp hexisting
    have hlive : existing.generation ≠ 0 := by
      rw [hsame]
      exact (h.past use huse).1
    exact h.keyed use huse existing (live_eq_some.mpr ⟨hback _ _ hat hlive, hsame⟩)
  · exact h.recent position existing (hback _ _ hexisting hlive) hlive
  · exact h.written position existing (hback _ _ hexisting hlive) hlive

/-! ## Steps -/

variable {position : Nat} {existing : StatementEntry Payload}

theorem Recorded.cached (h : session.Recorded) (hconsistent : session.cache.Consistent stringHash)
    (hexisting : session.cache.entries[position]? = some existing) (hlive : existing.generation ≠ 0) :
    Recorded { session with
      cache := { session.cache with
        entries := session.cache.entries.modify position fun old =>
          { old with lastUse := session.cache.clock + 1 }
        clock := session.cache.clock + 1 }
      uses := { clock := session.cache.clock + 1, handle := ⟨position, existing.generation⟩, sql := existing.sql,
                types := existing.types } :: session.uses } := by
  refine ⟨fun use huse => ?_, fun use huse other hother => ?_, fun place other hother hne => ?_,
    fun place other hother hne => ?_⟩
  · rcases List.mem_cons.mp huse with rfl | huse
    · exact ⟨hlive, hconsistent.generations position existing hexisting⟩
    · exact h.past use huse
  · obtain ⟨hat, hsame⟩ := live_eq_some.mp hother
    obtain ⟨old, hold, hchange⟩ := modify_eq_some hat
    rcases List.mem_cons.mp huse with rfl | huse
    · rcases hchange with ⟨_, rfl⟩ | ⟨hne, _⟩
      · rw [hexisting, Option.some.injEq] at hold
        rw [hold]
        exact ⟨rfl, rfl, Nat.le_refl _⟩
      · exact absurd rfl hne
    · have holdLive : session.cache.live use.handle = some old := by
        rw [live_eq_some]
        refine ⟨hold, ?_⟩
        rcases hchange with ⟨_, rfl⟩ | ⟨_, rfl⟩ <;> exact hsame
      obtain ⟨hsql, htypes, hclock⟩ := h.keyed use huse old holdLive
      have hle := hconsistent.uses _ old hold
      rcases hchange with ⟨_, rfl⟩ | ⟨_, rfl⟩
      · exact ⟨hsql, htypes, by show use.clock ≤ session.cache.clock + 1; omega⟩
      · exact ⟨hsql, htypes, hclock⟩
  · obtain ⟨old, hold, ⟨rfl, rfl⟩ | ⟨_, rfl⟩⟩ := modify_eq_some hother
    · rw [hexisting, Option.some.injEq] at hold
      subst hold
      exact ⟨_, List.mem_cons_self, rfl, rfl⟩
    · obtain ⟨use, huse, hhandle, hclock⟩ := h.recent place other hold hne
      exact ⟨use, List.mem_cons_of_mem _ huse, hhandle, hclock⟩
  · obtain ⟨old, hold, ⟨rfl, rfl⟩ | ⟨_, rfl⟩⟩ := modify_eq_some hother
    · exact h.written place old hold hne
    · exact h.written place other hold hne

/-- A handle of a new generation was never returned before. -/
theorem Recorded.inserted (h : session.Recorded) {cache : DbStatementCache Payload} {position : Nat}
    {created : StatementEntry Payload} (hgeneration : cache.generation = session.cache.generation + 1)
    (hcreated : created.generation = session.cache.generation + 1)
    (hentries : ∀ other : Nat, cache.entries[other]? =
      if other = position then some created else session.cache.entries[other]?) :
    Recorded { cache := cache
               uses := { clock := created.lastUse, handle := ⟨position, created.generation⟩, sql := created.sql,
                         types := created.types } :: session.uses
               written := update session.written ⟨position, created.generation⟩
                 (some { sql := created.sql, types := created.types, payload := created.payload }) } := by
  have hcases : ∀ (other : Nat) existing, cache.entries[other]? = some existing →
      other = position ∧ existing = created ∨ other ≠ position ∧ session.cache.entries[other]? = some existing := by
    intro other existing hexisting
    rw [hentries] at hexisting
    split at hexisting
    · exact .inl ⟨‹_›, (Option.some.inj hexisting).symm⟩
    · exact .inr ⟨‹_›, hexisting⟩
  refine ⟨fun use huse => ?_, fun use huse other hother => ?_, fun place other hother hne => ?_,
    fun place other hother hne => ?_⟩
  · rw [hgeneration]
    rcases List.mem_cons.mp huse with rfl | huse
    · rw [hcreated]
      exact ⟨Nat.succ_ne_zero _, Nat.le_refl _⟩
    · exact ⟨(h.past use huse).1, Nat.le_succ_of_le (h.past use huse).2⟩
  · obtain ⟨hat, hsame⟩ := live_eq_some.mp hother
    rcases hcases _ _ hat with ⟨hposition, rfl⟩ | ⟨hposition, hold⟩
    · rcases List.mem_cons.mp huse with rfl | huse
      · exact ⟨rfl, rfl, Nat.le_refl _⟩
      · have hpast := (h.past use huse).2
        omega
    · rcases List.mem_cons.mp huse with rfl | huse
      · exact absurd rfl hposition
      · exact h.keyed use huse other (live_eq_some.mpr ⟨hold, hsame⟩)
  · rcases hcases _ _ hother with ⟨rfl, rfl⟩ | ⟨_, hold⟩
    · exact ⟨_, List.mem_cons_self, rfl, rfl⟩
    · obtain ⟨use, huse, hhandle, hclock⟩ := h.recent place other hold hne
      exact ⟨use, List.mem_cons_of_mem _ huse, hhandle, hclock⟩
  · rcases hcases _ _ hother with ⟨rfl, rfl⟩ | ⟨hposition, hold⟩
    · exact update_self _ _ _
    · have hhandle : (⟨place, other.generation⟩ : DbStatementHandle) ≠ ⟨position, created.generation⟩ := by
        intro heq
        exact hposition (congrArg DbStatementHandle.index heq)
      show update session.written _ _ _ = _
      rw [update_of_ne hhandle]
      exact h.written place other hold hne

section

variable (h : Good stringHash session)
include h

theorem Good.find (sql : Bytes) (types : List UInt32) (mayInsert : Bool)
    (make : Made Payload) : Good stringHash (session.step stringHash (.find sql types mayInsert make)) := by
  have hfinds := h.consistent.finds sql types mayInsert make
  have hzero := keyHash_ne_zero stringHash sql types
  have htick : session.cache.tick.Consistent stringHash := h.consistent.of_eq rfl rfl rfl (Nat.le_succ _)
  have hremembers : session.cache.tick.Remembers := ⟨h.remembers.index, h.remembers.distinct⟩
  show Good stringHash (session.found sql types make (session.cache.find stringHash sql types mayInsert make))
  generalize session.cache.find stringHash sql types mayInsert make = result at hfinds
  cases hfinds with
  | cached position existing hexisting hlive hsql htypes =>
    subst hsql
    subst htypes
    have hmodified : DbStatementCache.Consistent stringHash { session.cache with
        entries := session.cache.entries.modify position fun old => { old with lastUse := session.cache.clock + 1 }
        clock := session.cache.clock + 1 } :=
      h.consistent.modify hexisting (Nat.le_succ _) ⟨rfl, rfl, rfl, rfl⟩
        (.inr ⟨Nat.lt_succ_self _, Nat.le_refl _⟩)
    have hrecorded := h.recorded.cached h.consistent hexisting hlive
    refine ⟨hmodified, ⟨h.remembers.index, h.remembers.distinct⟩, ?_⟩
    cases make with
    | built payload | declined | threw => exact hrecorded
  | remembered hnew hfirst =>
    refine ⟨htick.of_eq (remember_entries _) (remember_entryIndex _)
        (remember_generation _) (Nat.le_of_eq (remember_clock _).symm),
      hremembers.remember hzero, h.recorded.sub ?_ fun position existing hexisting _ => ?_⟩
    · rw [remember_generation]
      rfl
    · rw [remember_entries] at hexisting
      exact hexisting
  | unchanged lookup hnew hfailed hmake =>
    have hrecorded : Recorded { session with cache := session.cache.tick } :=
      h.recorded.sub rfl fun _ _ hexisting _ => hexisting
    rcases hfailed with rfl | rfl
    all_goals exact ⟨htick, hremembers, hrecorded⟩
  | inserted firstUse payload hnew hfirst hmake =>
    subst hmake
    have hplaces := htick.place (session.cache.tick.created (keyHash stringHash sql types) sql types payload)
    refine ⟨htick.insert rfl hnew fun position existing hexisting =>
        Nat.lt_succ_of_le (h.consistent.uses position existing hexisting),
      hremembers.insert htick (hremembers.found hfirst) hzero, ?_⟩
    have hclock : (session.cache.tick.insert (keyHash stringHash sql types) sql types firstUse payload).1.clock =
        session.cache.tick.clock := htick.insert_clock
    have hinserted := @Recorded.inserted _ session h.recorded
      (session.cache.tick.insert (keyHash stringHash sql types) sql types firstUse payload).1 _ _ rfl rfl
      hplaces.entries
    show Recorded { cache := _, uses := { clock := _, handle := _, sql := sql, types := types } :: _, written := _ }
    rw [hclock]
    exact hinserted

theorem Good.forget (statement : DbStatementHandle) (useAgain : Bool) :
    Good stringHash (session.step stringHash (.forget statement useAgain)) := by
  show Good stringHash { session with cache := (session.cache.forget statement useAgain).1 }
  unfold DbStatementCache.forget
  cases hlive : session.cache.live statement with
  | none => exact h
  | some found =>
    obtain ⟨hfound, _⟩ := live_eq_some.mp hlive
    have hdropped := h.consistent.drop hfound
    have hzero : found.hash ≠ 0 := by
      rw [h.consistent.hashes _ _ hfound]
      exact keyHash_ne_zero _ _ _
    have hback : ∀ (position : Nat) existing,
        (session.cache.entries.modify statement.index fun old => { old with generation := 0 })[position]? =
          some existing →
        existing.generation ≠ 0 → session.cache.entries[position]? = some existing := by
      intro position existing hexisting hne
      obtain ⟨old, hold, ⟨_, rfl⟩ | ⟨_, rfl⟩⟩ := modify_eq_some hexisting
      · exact absurd rfl hne
      · exact hold
    dsimp only
    split
    · refine ⟨hdropped.of_eq (remember_entries _) (remember_entryIndex _)
          (remember_generation _) (Nat.le_of_eq (remember_clock _).symm),
        ?_, h.recorded.sub ?_ fun position existing hexisting => ?_⟩
      · refine DbStatementCache.Remembers.remember ?_ hzero
        exact ⟨h.remembers.index, h.remembers.distinct⟩
      · rw [remember_generation]
      · rw [remember_entries] at hexisting
        exact hback position existing hexisting
    · exact ⟨hdropped, ⟨h.remembers.index, h.remembers.distinct⟩, h.recorded.sub rfl hback⟩

theorem Good.updatePayload (statement : DbStatementHandle)
    (change : Payload → Payload) : Good stringHash (session.step stringHash (.updatePayload statement change)) := by
  show Good stringHash (session.updated statement change)
  unfold updated
  cases hlive : session.cache.live statement with
  | none => exact h
  | some found =>
    have heq : session.cache.updatePayload statement change = { session.cache with
        entries := session.cache.entries.modify statement.index fun old =>
          { old with payload := change old.payload } } := by
      unfold DbStatementCache.updatePayload
      rw [hlive]
    rw [heq]
    obtain ⟨hfound, hgeneration⟩ := live_eq_some.mp hlive
    refine ⟨h.consistent.modify hfound (Nat.le_refl _) ⟨rfl, rfl, rfl, rfl⟩ (.inl rfl),
      ⟨h.remembers.index, h.remembers.distinct⟩, fun use huse => h.recorded.past use huse,
      fun use huse existing hexisting => ?_, fun position existing hexisting hne => ?_,
      fun position existing hexisting hne => ?_⟩
    · obtain ⟨hat, hsame⟩ := live_eq_some.mp hexisting
      obtain ⟨old, hold, ⟨_, rfl⟩ | ⟨_, rfl⟩⟩ := modify_eq_some hat
      · exact h.recorded.keyed use huse old (live_eq_some.mpr ⟨hold, hsame⟩)
      · exact h.recorded.keyed use huse existing (live_eq_some.mpr ⟨hold, hsame⟩)
    · obtain ⟨old, hold, ⟨_, rfl⟩ | ⟨_, rfl⟩⟩ := modify_eq_some hexisting
      · exact h.recorded.recent position old hold hne
      · exact h.recorded.recent position existing hold hne
    · obtain ⟨old, hold, ⟨rfl, rfl⟩ | ⟨hposition, rfl⟩⟩ := modify_eq_some hexisting
      · rw [hfound, Option.some.injEq] at hold
        subst hold
        have hwritten := h.recorded.written _ _ hfound hne
        rw [hgeneration] at hwritten
        show update session.written statement _ ⟨statement.index, found.generation⟩ = _
        rw [hgeneration, update_self, hwritten]
        rfl
      · have hhandle : (⟨position, existing.generation⟩ : DbStatementHandle) ≠ statement := by
          intro heq
          exact hposition (congrArg DbStatementHandle.index heq)
        show update session.written statement _ _ = _
        rw [update_of_ne hhandle]
        exact h.recorded.written position existing hold hne

theorem Good.clear : Good stringHash (session.step stringHash .clear) :=
  ⟨.of_nil rfl rfl, .of_zero rfl rfl, h.recorded.sub rfl nofun⟩

end

theorem Good.step (h : Good stringHash session) (action : StatementAction Payload) :
    Good stringHash (session.step stringHash action) := by
  cases action with
  | find sql types mayInsert make => exact h.find sql types mayInsert make
  | forget statement useAgain => exact h.forget statement useAgain
  | updatePayload statement change => exact h.updatePayload statement change
  | clear => exact h.clear

theorem good_run (actions : List (StatementAction Payload)) :
    Good stringHash ((machine stringHash).run {} actions) := by
  refine StateMachine.Reachable.invariant (M := machine stringHash) ?_ ?_
    (StateMachine.Reachable.run (StateMachine.Reachable.start rfl) actions)
  · rintro session rfl
    exact good_init
  · intro session action next h heq
    cases heq
    exact h.step action

/-! ## Handles -/

/-- **A handle stays with its key**: it resolves to the payload written for this key, or to nothing. -/
theorem Good.resolves (h : Good stringHash session) {use : StatementUse} (huse : use ∈ session.uses) :
    session.cache.live use.handle = none ∨
      ∃ existing, session.cache.live use.handle = some existing ∧ existing.sql = use.sql ∧
        existing.types = use.types ∧ session.written use.handle =
          some { sql := use.sql, types := use.types, payload := existing.payload } := by
  cases hlive : session.cache.live use.handle with
  | none => exact .inl rfl
  | some existing =>
    obtain ⟨hsql, htypes, _⟩ := h.recorded.keyed use huse existing hlive
    obtain ⟨hexisting, hgeneration⟩ := live_eq_some.mp hlive
    have hwritten := h.recorded.written _ existing hexisting (by
      rw [hgeneration]
      exact (h.recorded.past use huse).1)
    rw [hgeneration, hsql, htypes] at hwritten
    exact .inr ⟨existing, rfl, hsql, htypes, hwritten⟩

/-! ## Eviction -/

/-- The last `find` that returned an entry was before the last one that returned the other. -/
def UsedBefore (session : StatementSession Payload) (earlier later : DbStatementHandle) : Prop :=
  ∃ use ∈ session.uses, use.handle = later ∧ ∀ use' ∈ session.uses, use'.handle = earlier → use'.clock < use.clock

section

variable (h : Good stringHash session)
include h

/-- **What a full cache evicts** is what was used least recently. -/
theorem Good.evicts {payload : Payload}
    (hevicts : session.cache.Evicts position payload) :
    ∃ existing, session.cache.entries[position]? = some existing ∧ existing.payload = payload ∧
      ∀ (other : Nat) existing', session.cache.entries[other]? = some existing' → other ≠ position →
        session.UsedBefore ⟨position, existing.generation⟩ ⟨other, existing'.generation⟩ := by
  obtain ⟨existing, hexisting, hpayload, hleast⟩ := hevicts.oldest
  refine ⟨existing, hexisting, hpayload, fun other existing' hexisting' hother => ?_⟩
  have hmem := List.mem_of_getElem? hexisting'
  obtain ⟨use, huse, hhandle, hclock⟩ := h.recorded.recent other existing' hexisting' (hevicts.live _ hmem)
  refine ⟨use, huse, hhandle, fun use' huse' hhandle' => ?_⟩
  have hkeyed := h.recorded.keyed use' huse' existing
    (live_eq_some.mpr (by rw [hhandle']; exact ⟨hexisting, rfl⟩))
  have hle := hleast existing' hmem
  have hne : existing.lastUse ≠ existing'.lastUse := fun heq =>
    hother (h.consistent.distinctUses other position existing' existing hexisting' hexisting heq.symm)
  omega

/-- **A live entry stays, or is evicted**: then the cache was full, and its payload is handed back. -/
theorem Good.find_evicts (sql : Bytes) (types : List UInt32) (mayInsert : Bool)
    (make : Made Payload) (hexisting : session.cache.entries[position]? = some existing)
    (hlive : existing.generation ≠ 0) :
    (∃ existing', (session.cache.find stringHash sql types mayInsert make).1.entries[position]? = some existing' ∧
        existing'.sql = existing.sql ∧ existing'.types = existing.types ∧
        existing'.generation = existing.generation ∧ existing'.payload = existing.payload) ∨
      session.cache.Evicts position existing.payload ∧
        ∃ lookup, (session.cache.find stringHash sql types mayInsert make).2 = some lookup ∧
          lookup.evicted = some existing.payload := by
  have hfinds := h.consistent.finds sql types mayInsert make
  generalize session.cache.find stringHash sql types mayInsert make = result at hfinds
  cases hfinds with
  | cached found _ _ _ _ _ =>
    left
    by_cases hposition : position = found
    · subst hposition
      exact ⟨{ existing with lastUse := session.cache.clock + 1 }, by simp [hexisting], rfl, rfl, rfl, rfl⟩
    · exact ⟨existing, (DbStatementCache.modify_of_ne hposition _).trans hexisting, rfl, rfl, rfl, rfl⟩
  | remembered _ _ =>
    left
    rw [remember_entries]
    exact ⟨existing, hexisting, rfl, rfl, rfl, rfl⟩
  | unchanged _ _ _ _ => exact .inl ⟨existing, hexisting, rfl, rfl, rfl, rfl⟩
  | inserted firstUse made _ _ _ =>
    have htick : session.cache.tick.Consistent stringHash := h.consistent.of_eq rfl rfl rfl (Nat.le_succ _)
    have hplaces := htick.place (session.cache.tick.created (keyHash stringHash sql types) sql types made)
    by_cases hposition : position = (session.cache.tick.place
        (session.cache.tick.created (keyHash stringHash sql types) sql types made)).2.1
    · right
      obtain ⟨payload, hpayload⟩ := Option.ne_none_iff_exists'.mp
        fun hnone => hplaces.kept hnone (hposition ▸ ⟨existing, hexisting, hlive⟩)
      obtain ⟨hfull, hall, evicted, hevicted, heq, hleast⟩ := hplaces.evicted payload hpayload
      rw [← hposition] at hevicted
      have hsame : existing = evicted := Option.some.inj (hexisting.symm.trans hevicted)
      subst hsame
      exact ⟨⟨hfull, hall, existing, hexisting, rfl, hleast⟩, _, rfl, by rw [heq]; exact hpayload⟩
    · refine .inl ⟨existing, ?_, rfl, rfl, rfl, rfl⟩
      rw [insert_entries, hplaces.entries, if_neg hposition]
      exact hexisting

/-- **A failed insertion** counts as a use and changes nothing else. -/
theorem Good.find_fails (sql : Bytes) (types : List UInt32) (mayInsert : Bool)
    (make : Made Payload)
    (hfails : (session.cache.find stringHash sql types mayInsert make).2 = none ∨
      ∃ lookup, (session.cache.find stringHash sql types mayInsert make).2 = some lookup ∧
        lookup.repeated = true) :
    (session.cache.find stringHash sql types mayInsert make).1 = session.cache.tick := by
  have hfinds := h.consistent.finds sql types mayInsert make
  generalize session.cache.find stringHash sql types mayInsert make = result at hfinds hfails
  cases hfinds with
  | unchanged _ _ _ _ => rfl
  | cached _ _ _ _ _ _ | remembered _ _ | inserted _ _ _ _ _ =>
    obtain hnone | ⟨lookup, hlookup, hrepeated⟩ := hfails
    · cases hnone
    · cases hlookup
      cases hrepeated

end

/-- The handle of an entry was returned, and still resolves to it. -/
def InUse (session : StatementSession Payload) (position : Nat) (existing : StatementEntry Payload) : Prop :=
  ∃ use ∈ session.uses, use.handle = ⟨position, existing.generation⟩ ∧
    session.cache.live use.handle = some existing

def fillingKey (n : Nat) : Bytes := List.replicate (n + 1) 0

/-- Each of the first keys is used twice, which inserts it. -/
def filling : Nat → List (StatementAction Unit)
  | 0 => []
  | n + 1 =>
    filling n ++ [.find (fillingKey n) [] true (.built ()),
      .find (fillingKey n) [] true (.built ())]

def lengthHash (sql : Bytes) : UInt64 := UInt64.ofNat sql.length

/-- The keys used so far are the entries, and no first use is remembered. -/
structure Filled (session : StatementSession Unit) (n : Nat) : Prop where
  good : Good lengthHash session
  length : session.cache.entries.length = n
  live : ∀ existing ∈ session.cache.entries, existing.generation ≠ 0 ∧ existing.sql.length ≤ n
  nothing : ∀ position, session.cache.firstUses position = 0

variable {session : StatementSession Unit} {n : Nat}

theorem Filled.uncached (h : Filled session n) : session.cache.Uncached (fillingKey n) [] := by
  intro position existing hexisting _ hsql
  have hle := (h.live existing (List.mem_of_getElem? hexisting)).2
  rw [hsql, fillingKey, List.length_replicate] at hle
  omega

/-- The first use of a new key is remembered. -/
theorem Filled.first (h : Filled session n) :
    session.step lengthHash (.find (fillingKey n) [] true (.built ())) =
      { session with
        cache := session.cache.tick.remember (keyHash lengthHash (fillingKey n) []) } := by
  have hfinds := h.good.consistent.finds (fillingKey n) [] true (.built ())
  unfold step
  dsimp only
  generalize session.cache.find lengthHash (fillingKey n) [] true (.built ()) = result at hfinds ⊢
  cases hfinds with
  | cached position existing hexisting hlive hsql htypes =>
    exact absurd htypes (h.uncached position existing hexisting hlive hsql)
  | remembered _ _ => rfl
  | unchanged lookup _ _ hmake =>
    rcases hmake with hmake | hmake
    · cases hmake
    · exact absurd rfl (hmake ())
  | inserted firstUse payload _ hfirst _ =>
    have hfound := h.good.remembers.found hfirst
    rw [h.nothing] at hfound
    exact absurd hfound.symm (keyHash_ne_zero _ _ _)

/-- The second one inserts it. -/
theorem Filled.second (h : Filled session n) :
    ∃ firstUse, (session.cache.tick.remember (keyHash lengthHash (fillingKey n) [])).firstUses firstUse =
        keyHash lengthHash (fillingKey n) [] ∧
      ((session.cache.tick.remember (keyHash lengthHash (fillingKey n) [])).find lengthHash
        (fillingKey n) [] true (.built ())).1 =
      ((session.cache.tick.remember (keyHash lengthHash (fillingKey n) [])).tick.insert
        (keyHash lengthHash (fillingKey n) []) (fillingKey n) [] firstUse ()).1 := by
  have hgood := h.good.find (fillingKey n) [] true (.built ())
  rw [h.first] at hgood
  have hfinds := hgood.consistent.finds (fillingKey n) [] true (.built ())
  have huncached : (session.cache.tick.remember (keyHash lengthHash (fillingKey n) [])).Uncached
      (fillingKey n) [] := by
    intro position existing hexisting
    rw [remember_entries] at hexisting
    exact h.uncached position existing hexisting
  have htick : session.cache.tick.Remembers := ⟨h.good.remembers.index, h.good.remembers.distinct⟩
  have hremembered := DbStatementCache.remember_mem htick (keyHash_ne_zero lengthHash (fillingKey n) [])
  generalize hnext : session.cache.tick.remember (keyHash lengthHash (fillingKey n) []) = next
    at hgood hfinds huncached hremembered ⊢
  replace hfinds : next.Finds _ _ _ _ _ (next.find lengthHash (fillingKey n) [] true (.built ())) := hfinds
  generalize next.find lengthHash (fillingKey n) [] true (.built ()) = result at hfinds ⊢
  cases hfinds with
  | cached position existing hexisting hlive hsql htypes =>
    exact absurd htypes (huncached position existing hexisting hlive hsql)
  | remembered _ hfirst =>
    have hsome := (hgood.remembers.findFirstUse_isSome (keyHash_ne_zero _ _ _)).mpr hremembered
    rw [hfirst] at hsome
    cases hsome
  | unchanged lookup _ _ hmake =>
    rcases hmake with hmake | hmake
    · cases hmake
    · exact absurd rfl (hmake ())
  | inserted firstUse payload _ hfirst _ => exact ⟨firstUse, hgood.remembers.found hfirst, rfl⟩

theorem run_concat (actions : List (StatementAction Unit)) (action : StatementAction Unit) :
    (machine lengthHash).run session (actions ++ [action]) =
      ((machine lengthHash).run session actions).step lengthHash action := by
  rw [StateMachine.run_append]
  rfl

/-- The cache behind a `find` is what the cache's own `find` leaves. -/
theorem step_find_cache (sql : Bytes) (types : List UInt32) (mayInsert : Bool) (make : Made Unit) :
    (session.step lengthHash (.find sql types mayInsert make)).cache =
      (session.cache.find lengthHash sql types mayInsert make).1 := by
  unfold step
  dsimp only
  unfold found
  split
  · rfl
  · split
    · rfl
    · rfl

/-- The cache behind both uses of the next key. -/
theorem Filled.twice (h : Filled session n) :
    ∃ (remembered : DbStatementCache Unit) (firstUse : Fin statementCapacity),
      remembered.Consistent lengthHash ∧ remembered.entries = session.cache.entries ∧
      (∀ position, position ≠ firstUse → remembered.firstUses position = 0) ∧
      (session.step lengthHash (.find (fillingKey n) [] true (.built ()))).cache = remembered ∧
      (remembered.find lengthHash (fillingKey n) [] true (.built ())).1 =
        (remembered.tick.insert (keyHash lengthHash (fillingKey n) []) (fillingKey n) [] firstUse ()).1 := by
  obtain ⟨firstUse, hfound, hsecond⟩ := h.second
  have hgood := h.good.find (fillingKey n) [] true (.built ())
  rw [h.first] at hgood
  refine ⟨_, firstUse, hgood.consistent, remember_entries _,
    fun position hposition => ?_, by rw [h.first], hsecond⟩
  rcases @DbStatementCache.remember_firstUses _ session.cache.tick
    (keyHash lengthHash (fillingKey n) []) position with hold | hnew
  · exact hold.trans (h.nothing position)
  · refine absurd (hgood.remembers.distinct position firstUse (hnew.trans hfound.symm) ?_) hposition
    rw [show DbStatementCache.firstUses _ position = _ from hnew]
    exact keyHash_ne_zero _ _ _

theorem Filled.succ (h : Filled session n) (hn : n ≠ statementCapacity) :
    Filled ((session.step lengthHash (.find (fillingKey n) [] true (.built ()))).step lengthHash
      (.find (fillingKey n) [] true (.built ()))) (n + 1) := by
  have hgood := (h.good.find (fillingKey n) [] true (.built ())).find (fillingKey n) [] true (.built ())
  obtain ⟨remembered, firstUse, hconsistent, hentries, hzero, hfirst, hsecond⟩ := h.twice
  have htick : remembered.tick.Consistent lengthHash := hconsistent.of_eq rfl rfl rfl (Nat.le_succ _)
  have hcache : ((session.step lengthHash (.find (fillingKey n) [] true (.built ()))).step lengthHash
      (.find (fillingKey n) [] true (.built ()))).cache =
      (remembered.tick.insert (keyHash lengthHash (fillingKey n) []) (fillingKey n) [] firstUse ()).1 := by
    rw [step_find_cache, hfirst, hsecond]
  have hplaced : (remembered.tick.insert (keyHash lengthHash (fillingKey n) []) (fillingKey n) []
      firstUse ()).1.entries = session.cache.entries ++
        [remembered.tick.created (keyHash lengthHash (fillingKey n) []) (fillingKey n) [] ()] := by
    rw [insert_entries, DbStatementCache.place_append]
    · exact congrArg (· ++ _) hentries
    · intro existing hexisting
      exact (h.live existing (hentries ▸ hexisting)).1
    · show remembered.entries.length ≠ statementCapacity
      rw [hentries, h.length]
      exact hn
  refine ⟨hgood, ?_, fun existing hexisting => ?_, fun position => ?_⟩
  · rw [hcache, hplaced, List.length_append, h.length]
    rfl
  · rw [hcache, hplaced] at hexisting
    rcases List.mem_append.mp hexisting with hexisting | hexisting
    · exact ⟨(h.live existing hexisting).1, Nat.le_succ_of_le (h.live existing hexisting).2⟩
    · rw [List.mem_singleton] at hexisting
      subst hexisting
      refine ⟨Nat.succ_ne_zero _, ?_⟩
      show (fillingKey n).length ≤ n + 1
      rw [fillingKey, List.length_replicate]
  · rw [hcache, htick.insert_firstUses]
    by_cases hposition : position = firstUse
    · rw [hposition, update_self]
    · rw [update_of_ne hposition]
      exact hzero position hposition

theorem filled_run (hn : n ≤ statementCapacity) : Filled ((machine lengthHash).run {} (filling n)) n := by
  induction n with
  | zero => exact ⟨good_init, rfl, nofun, fun _ => rfl⟩
  | succ n ih =>
    have hbefore := ih (by omega)
    show Filled ((machine lengthHash).run {} (filling n ++ [.find (fillingKey n) [] true (.built ()),
      .find (fillingKey n) [] true (.built ())])) (n + 1)
    rw [List.append_cons, run_concat, run_concat]
    exact hbefore.succ (by omega)

end StatementSession

end Ruvia.Web
