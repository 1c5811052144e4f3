import Ruvia.Web.QueryCache

/-!
# `Web.QueryCacheRuns` — what a removal invalidates

The fills keep the promise of `unlist_fills`: a query that joins a fill gets rows whose statement started behind
every removal completed before the query (`Wf.joined`, in every run). Redis does not: the leader of an unlisted
fill writes its rows when its statement ends, and a SET behind the DEL of the removal brings them back
(`set_behind_removal`). Without such a SET the entries are as fresh as the fills (`invalidation_timely`).
-/

namespace Ruvia.Web

open Library

variable {Rows : Type} {keys : DbCacheKeys}

/-! ## Fresh rows -/

/-- A statement of this start time saw every removal of the key that was completed before `since`. -/
def FreshFor (keys : DbCacheKeys) (removals : List CacheRemoval) (key : Bytes) (since startedAt : Nat) : Prop :=
  ∀ removal ∈ removals, ∀ time, removal.phase = .completed time → time < since →
    removal.target.Covers keys key → removal.calledAt ≤ startedAt

/-- Every removal of the key was called before. -/
def Calls (keys : DbCacheKeys) (removals : List CacheRemoval) (key : Bytes) (startedAt : Nat) : Prop :=
  ∀ removal ∈ removals, removal.target.Covers keys key → removal.calledAt ≤ startedAt

/-- Every removal of the key that was called after the statement started has still to delete the entry. -/
def Doomed (keys : DbCacheKeys) (removals : List CacheRemoval) (key : Bytes) (startedAt : Nat) : Prop :=
  ∀ removal ∈ removals, removal.target.Covers keys key → startedAt < removal.calledAt → removal.phase.Pending key

section

variable {removals : List CacheRemoval} {removal : CacheRemoval} {phase : RemovalPhase} {key : Bytes}
  {gone : List Bytes} {since startedAt position : Nat}

theorem Calls.freshFor (h : Calls keys removals key startedAt) : FreshFor keys removals key since startedAt :=
  fun removal hmem _ _ _ hcovers => h removal hmem hcovers

/-- A completed removal deletes nothing more. -/
theorem Doomed.freshFor (h : Doomed keys removals key startedAt) : FreshFor keys removals key since startedAt := by
  intro removal hmem time hphase _ hcovers
  by_contra hlt
  have hpending := h removal hmem hcovers (by omega)
  rw [hphase] at hpending
  exact hpending

/-! ### A removal is called -/

theorem FreshFor.append (h : FreshFor keys removals key since startedAt) (hphase : removal.phase = .called) :
    FreshFor keys (removals ++ [removal]) key since startedAt := by
  intro other hmem time htime
  rcases List.mem_append.mp hmem with hmem | hmem
  · exact h other hmem time htime
  · rw [List.mem_singleton] at hmem
    subst hmem
    rw [hphase] at htime
    cases htime

theorem Calls.append (h : Calls keys removals key startedAt) (hcovers : ¬ removal.target.Covers keys key) :
    Calls keys (removals ++ [removal]) key startedAt := by
  intro other hmem hother
  rcases List.mem_append.mp hmem with hmem | hmem
  · exact h other hmem hother
  · rw [List.mem_singleton] at hmem
    subst hmem
    exact absurd hother hcovers

theorem Doomed.append (h : Doomed keys removals key startedAt) (hphase : removal.phase = .called) :
    Doomed keys (removals ++ [removal]) key startedAt := by
  intro other hmem hcovers hlt
  rcases List.mem_append.mp hmem with hmem | hmem
  · exact h other hmem hcovers hlt
  · rw [List.mem_singleton] at hmem
    subst hmem
    rw [hphase]
    trivial

/-! ### A removal goes on -/

theorem FreshFor.set (h : FreshFor keys removals key since startedAt)
    (hphase : ∀ time, phase = .completed time → since ≤ time) :
    FreshFor keys (removals.set position { removal with phase := phase }) key since startedAt := by
  intro other hother time htime hlt hcovers
  rcases List.mem_or_eq_of_mem_set hother with hother | rfl
  · exact h other hother time htime hlt hcovers
  · have hle := hphase time htime
    omega

theorem Calls.set (h : Calls keys removals key startedAt) (hmem : removals[position]? = some removal) :
    Calls keys (removals.set position { removal with phase := phase }) key startedAt := by
  intro other hother hcovers
  rcases List.mem_or_eq_of_mem_set hother with hother | rfl
  · exact h other hother hcovers
  · exact h removal (List.mem_of_getElem? hmem) hcovers

theorem Doomed.set (h : Doomed keys removals key startedAt) (hmem : removals[position]? = some removal)
    (hphase : removal.target.Covers keys key → removal.phase.Pending key → phase.Pending key) :
    Doomed keys (removals.set position { removal with phase := phase }) key startedAt := by
  intro other hother hcovers hlt
  rcases List.mem_or_eq_of_mem_set hother with hother | rfl
  · exact h other hother hcovers hlt
  · exact hphase hcovers (h removal (List.mem_of_getElem? hmem) hcovers hlt)

/-! ### Keys go -/

theorem RemovalPhase.forget_completed {time : Nat} (h : phase.forget gone = .completed time) :
    phase = .completed time := by
  cases phase <;> first | exact h | cases h

/-- What a key that stays is doomed by stays. -/
theorem RemovalPhase.Pending.forget (h : phase.Pending key) (hkey : key ∉ gone) :
    (phase.forget gone).Pending key := by
  cases phase with
  | scanned batch rest =>
    rcases h with h | h
    · exact .inl h
    · refine .inr ?_
      cases rest with
      | none => cases h
      | some unseen => exact List.mem_filter.mpr ⟨h, decide_eq_true hkey⟩
  | scanning unseen => exact List.mem_filter.mpr ⟨h, decide_eq_true hkey⟩
  | _ => exact h

theorem FreshFor.forget (h : FreshFor keys removals key since startedAt) :
    FreshFor keys (removals.map fun removal => { removal with phase := removal.phase.forget gone })
      key since startedAt := by
  intro other hother time htime hlt hcovers
  obtain ⟨removal, hmem, rfl⟩ := List.mem_map.mp hother
  exact h removal hmem time (RemovalPhase.forget_completed htime) hlt hcovers

theorem Calls.forget (h : Calls keys removals key startedAt) :
    Calls keys (removals.map fun removal => { removal with phase := removal.phase.forget gone })
      key startedAt := by
  intro other hother hcovers
  obtain ⟨removal, hmem, rfl⟩ := List.mem_map.mp hother
  exact h removal hmem hcovers

theorem Doomed.forget (h : Doomed keys removals key startedAt) (hkey : key ∉ gone) :
    Doomed keys (removals.map fun removal => { removal with phase := removal.phase.forget gone })
      key startedAt := by
  intro other hother hcovers hlt
  obtain ⟨removal, hmem, rfl⟩ := List.mem_map.mp hother
  exact (h removal hmem hcovers hlt).forget hkey

end

/-! ## The invariants -/

namespace QueryPhase

/-- The fill a frame waits for or leads. -/
def fill : QueryPhase Rows → Option Nat
  | .joined fill => some fill
  | .running fill => some fill
  | _ => none

/-- The rows a frame has in hand. -/
def rows : QueryPhase Rows → Option (CacheEntry Rows)
  | .gotReply bytes => bytes
  | .setting rows => some rows
  | .returned rows => some rows
  | _ => none

end QueryPhase

namespace QueryCache

variable {cache next : QueryCache Rows} {query removal : Nat} {value changed : CacheQuery Rows}
  {filled ended : CacheFill Rows} {target : CacheRemoval} {phase : RemovalPhase}

/-- The fill a query refers to started behind every removal of its key completed before the query. -/
def FillFresh (keys : DbCacheKeys) (cache : QueryCache Rows) (query : CacheQuery Rows) : Prop :=
  ∀ fill, query.phase.fill = some fill →
    ∃ filled, cache.fills[fill]? = some filled ∧
      FreshFor keys cache.removals query.key query.startedAt filled.startedAt

/-- The rows a query has in hand are as fresh. -/
def RowsFresh (keys : DbCacheKeys) (cache : QueryCache Rows) (query : CacheQuery Rows) : Prop :=
  ∀ rows, query.phase.rows = some rows →
    FreshFor keys cache.removals query.key query.startedAt rows.startedAt

/-- What holds in every run. -/
structure Wf (keys : DbCacheKeys) (cache : QueryCache Rows) : Prop where
  started : ∀ query ∈ cache.queries, query.startedAt ≤ cache.clock
  called : ∀ removal ∈ cache.removals, removal.calledAt ≤ cache.clock
  keyed : ∀ query ∈ cache.queries, ∃ shape sqlDigest, query.key = keys.dbCacheKey query.id shape sqlDigest
  named : ∀ removal ∈ cache.removals, ∀ ids, removal.target = .named ids → [] ∉ ids
  listed : ∀ entry ∈ cache.listed, ∃ filled, cache.fills[entry.2]? = some filled ∧
    Calls keys cache.removals entry.1 filled.startedAt
  results : ∀ filled ∈ cache.fills, ∀ rows, filled.result = some rows → rows.startedAt = filled.startedAt
  joined : ∀ query ∈ cache.queries, FillFresh keys cache query

/-- What holds as long as every SET is timely. -/
structure Fresh (keys : DbCacheKeys) (cache : QueryCache Rows) : Prop where
  entries : ∀ entry ∈ cache.store, Doomed keys cache.removals entry.1 entry.2.startedAt
  rows : ∀ query ∈ cache.queries, RowsFresh keys cache query

/-- A SET is timely: every removal of the key called since its statement started has still to delete the entry. -/
def Timely (keys : DbCacheKeys) (cache : QueryCache Rows) : CacheAction Rows → Prop
  | .set query => ∀ value ∈ cache.queries[query]?, ∀ entry ∈ value.write, ∀ removal ∈ cache.removals,
      removal.target.Covers keys value.key → entry.startedAt < removal.calledAt → removal.phase.Pending value.key
  | _ => True

instance (cache : QueryCache Rows) (action : CacheAction Rows) : Decidable (cache.Timely keys action) :=
  match action with
  | .set query => inferInstanceAs (Decidable (∀ value ∈ cache.queries[query]?, ∀ entry ∈ value.write,
      ∀ removal ∈ cache.removals, removal.target.Covers keys value.key → entry.startedAt < removal.calledAt →
        removal.phase.Pending value.key))
  | .startQuery .. | .get _ | .getFailed _ | .resume .. | .wake .. | .reply .. | .finishSet _ | .abandon _
  | .expire _ | .remove _ | .clear | .scan .. | .del _ | .complete _ | .failRemoval _ | .closeNow =>
    inferInstanceAs (Decidable True)

/-- The removals completed before a query started have taken back all rows of older statements. -/
def Invalidated (cache : QueryCache Rows) : Prop :=
  ∀ removal ∈ cache.removals, ∀ query ∈ cache.queries, ∀ time rows,
    removal.phase = .completed time → query.phase = .returned rows → time < query.startedAt →
    removal.target.Names query.id → removal.calledAt ≤ rows.startedAt

/-- A removal that names the id of a query covers its key. -/
theorem Wf.covers (h : Wf keys cache) {removed : CacheRemoval} (hremoved : removed ∈ cache.removals)
    (hvalue : value ∈ cache.queries) (hnames : removed.target.Names value.id) :
    removed.target.Covers keys value.key := by
  obtain ⟨shape, sqlDigest, hkey⟩ := h.keyed value hvalue
  cases htarget : removed.target with
  | everything => trivial
  | named ids =>
    rw [htarget] at hnames
    have hid : value.id ≠ [] := fun hnil => h.named removed hremoved ids htarget (hnil ▸ hnames)
    rw [hkey]
    exact List.mem_flatMap.mpr ⟨value.id, hnames, keys.dbCacheKey_mem value.id shape sqlDigest hid⟩

theorem Fresh.invalidated (h : Wf keys cache) (hfresh : Fresh keys cache) : cache.Invalidated := by
  intro removed hremoved value hvalue time rows htime hrows hlt hnames
  exact hfresh.rows value hvalue rows (by rw [hrows]; rfl) removed hremoved time htime hlt
    (h.covers hremoved hvalue hnames)

/-! ## The parts of a step -/

/-! ### A query goes on -/

theorem Wf.setQuery (h : Wf keys cache) (hvalue : value ∈ cache.queries) (hid : changed.id = value.id)
    (hkey : changed.key = value.key) (hstarted : changed.startedAt = value.startedAt)
    (hfill : FillFresh keys cache changed) : Wf keys (cache.setQuery query changed) where
  started other hother := by
    rcases List.mem_or_eq_of_mem_set hother with hother | rfl
    · exact h.started other hother
    · rw [hstarted]
      exact h.started value hvalue
  called := h.called
  keyed other hother := by
    rcases List.mem_or_eq_of_mem_set hother with hother | rfl
    · exact h.keyed other hother
    · rw [hid, hkey]
      exact h.keyed value hvalue
  named := h.named
  listed := h.listed
  results := h.results
  joined other hother := by
    rcases List.mem_or_eq_of_mem_set hother with hother | rfl
    · exact h.joined other hother
    · exact hfill

theorem Fresh.setQuery (h : Fresh keys cache) (hrows : RowsFresh keys cache changed) :
    Fresh keys (cache.setQuery query changed) where
  entries := h.entries
  rows other hother := by
    rcases List.mem_or_eq_of_mem_set hother with hother | rfl
    · exact h.rows other hother
    · exact hrows

/-! ### A fill goes on -/

variable {place : Nat} {other : CacheFill Rows}

/-- No fill is lost or gets another start time. -/
theorem setFill_start {fill : Nat} (hfilled : cache.fills[fill]? = some filled) (ended : CacheFill Rows)
    (hstarted : ended.startedAt = filled.startedAt) (hother : cache.fills[place]? = some other) :
    ∃ kept, (cache.setFill fill ended).fills[place]? = some kept ∧ kept.startedAt = other.startedAt := by
  by_cases hplace : fill = place
  · subst hplace
    rw [hfilled] at hother
    cases hother
    obtain ⟨hlt, _⟩ := List.getElem?_eq_some_iff.mp hfilled
    exact ⟨ended, List.getElem?_set_self hlt, hstarted⟩
  · exact ⟨other, by rw [← hother]; exact List.getElem?_set_ne hplace, rfl⟩

theorem FillFresh.setFill {fill : Nat} (h : FillFresh keys cache value)
    (hfilled : cache.fills[fill]? = some filled) (hstarted : ended.startedAt = filled.startedAt) :
    FillFresh keys (cache.setFill fill ended) value := by
  intro place hplace
  obtain ⟨other, hother, hfresh⟩ := h place hplace
  obtain ⟨kept, hkept, hsame⟩ := setFill_start hfilled ended hstarted hother
  exact ⟨kept, hkept, hsame ▸ hfresh⟩

theorem Wf.setFill {fill : Nat} (h : Wf keys cache) (hfilled : cache.fills[fill]? = some filled)
    (hstarted : ended.startedAt = filled.startedAt)
    (hresult : ∀ rows, ended.result = some rows → rows.startedAt = filled.startedAt) :
    Wf keys (cache.setFill fill ended) where
  started := h.started
  called := h.called
  keyed := h.keyed
  named := h.named
  listed entry hentry := by
    obtain ⟨other, hother, hcalls⟩ := h.listed entry hentry
    obtain ⟨kept, hkept, hsame⟩ := setFill_start hfilled ended hstarted hother
    exact ⟨kept, hkept, hsame ▸ hcalls⟩
  results other hother := by
    rcases List.mem_or_eq_of_mem_set hother with hother | rfl
    · exact h.results other hother
    · rw [hstarted]
      exact hresult
  joined other hother := (h.joined other hother).setFill hfilled hstarted

theorem Wf.unlist (h : Wf keys cache) (kept : Bytes × Nat → Bool) :
    Wf keys { cache with listed := cache.listed.filter kept } where
  started := h.started
  called := h.called
  keyed := h.keyed
  named := h.named
  listed entry hentry := h.listed entry (List.mem_of_mem_filter hentry)
  results := h.results
  joined := h.joined

theorem Wf.finishFill {fill : Nat} (h : Wf keys cache) (hfilled : cache.fills[fill]? = some filled)
    (ended : CacheFill Rows)
    (hstarted : ended.startedAt = filled.startedAt)
    (hresult : ∀ rows, ended.result = some rows → rows.startedAt = filled.startedAt) :
    Wf keys (cache.finishFill fill ended) := by
  have hset : Wf keys (cache.setFill fill { ended with done := true }) := h.setFill hfilled hstarted hresult
  exact hset.unlist _

/-! ### A removal goes on -/

theorem Wf.setRemoval (h : Wf keys cache) (htarget : cache.removals[removal]? = some target)
    (hphase : ∀ time, phase = .completed time → cache.clock ≤ time) :
    Wf keys (cache.setRemoval removal { target with phase := phase }) where
  started := h.started
  called other hother := by
    rcases List.mem_or_eq_of_mem_set hother with hother | rfl
    · exact h.called other hother
    · exact h.called target (List.mem_of_getElem? htarget)
  keyed := h.keyed
  named other hother := by
    rcases List.mem_or_eq_of_mem_set hother with hother | rfl
    · exact h.named other hother
    · exact h.named target (List.mem_of_getElem? htarget)
  listed entry hentry := by
    obtain ⟨filled, hfilled, hcalls⟩ := h.listed entry hentry
    exact ⟨filled, hfilled, hcalls.set htarget⟩
  results := h.results
  joined other hother fill hfill := by
    obtain ⟨filled, hfilled, hfresh⟩ := h.joined other hother fill hfill
    exact ⟨filled, hfilled, hfresh.set fun time htime =>
      Nat.le_trans (h.started other hother) (hphase time htime)⟩

theorem Fresh.setRemoval (hwf : Wf keys cache) (h : Fresh keys cache)
    (htarget : cache.removals[removal]? = some target)
    (hphase : ∀ time, phase = .completed time → cache.clock ≤ time)
    (hpending : ∀ entry ∈ cache.store, target.target.Covers keys entry.1 → target.phase.Pending entry.1 →
      phase.Pending entry.1) :
    Fresh keys (cache.setRemoval removal { target with phase := phase }) where
  entries entry hentry := (h.entries entry hentry).set htarget (hpending entry hentry)
  rows other hother rows hrows := (h.rows other hother rows hrows).set fun time htime =>
    Nat.le_trans (hwf.started other hother) (hphase time htime)

theorem Wf.deleteKeys (h : Wf keys cache) (gone : List Bytes) : Wf keys (cache.deleteKeys gone) where
  started := h.started
  called other hother := by
    obtain ⟨removed, hremoved, rfl⟩ := List.mem_map.mp hother
    exact h.called removed hremoved
  keyed := h.keyed
  named other hother := by
    obtain ⟨removed, hremoved, rfl⟩ := List.mem_map.mp hother
    exact h.named removed hremoved
  listed entry hentry := by
    obtain ⟨filled, hfilled, hcalls⟩ := h.listed entry hentry
    exact ⟨filled, hfilled, hcalls.forget⟩
  results := h.results
  joined other hother fill hfill := by
    obtain ⟨filled, hfilled, hfresh⟩ := h.joined other hother fill hfill
    exact ⟨filled, hfilled, hfresh.forget⟩

theorem mem_deleteKeys {gone : List Bytes} {entry : Bytes × CacheEntry Rows}
    (h : entry ∈ (cache.deleteKeys gone).store) : entry ∈ cache.store ∧ entry.1 ∉ gone := by
  obtain ⟨hmem, hkey⟩ := List.mem_filter.mp h
  exact ⟨hmem, of_decide_eq_true hkey⟩

theorem Fresh.deleteKeys (h : Fresh keys cache) (gone : List Bytes) : Fresh keys (cache.deleteKeys gone) where
  entries entry hentry := by
    obtain ⟨hmem, hkey⟩ := mem_deleteKeys hentry
    exact (h.entries entry hmem).forget hkey
  rows other hother rows hrows := (h.rows other hother rows hrows).forget

/-- A removal is called: the fills of its keys are unlisted. -/
theorem Wf.call (h : Wf keys cache) (htime : target.calledAt = cache.clock) (hphase : target.phase = .called)
    (hids : ∀ ids, target.target = .named ids → [] ∉ ids) {listed : List (Bytes × Nat)}
    (hlisted : ∀ entry ∈ listed, entry ∈ cache.listed ∧ ¬ target.target.Covers keys entry.1) :
    Wf keys { cache with listed := listed, removals := cache.removals ++ [target] } where
  started := h.started
  called other hother := by
    rcases List.mem_append.mp hother with hother | hother
    · exact h.called other hother
    · rw [List.mem_singleton] at hother
      rw [hother, htime]
  keyed := h.keyed
  named other hother := by
    rcases List.mem_append.mp hother with hother | hother
    · exact h.named other hother
    · rw [List.mem_singleton] at hother
      rw [hother]
      exact hids
  listed entry hentry := by
    obtain ⟨hmem, hcovers⟩ := hlisted entry hentry
    obtain ⟨filled, hfilled, hcalls⟩ := h.listed entry hmem
    exact ⟨filled, hfilled, hcalls.append hcovers⟩
  results := h.results
  joined other hother fill hfill := by
    obtain ⟨filled, hfilled, hfresh⟩ := h.joined other hother fill hfill
    exact ⟨filled, hfilled, hfresh.append hphase⟩

theorem Fresh.call (h : Fresh keys cache) (hphase : target.phase = .called) (listed : List (Bytes × Nat)) :
    Fresh keys { cache with listed := listed, removals := cache.removals ++ [target] } where
  entries entry hentry := (h.entries entry hentry).append hphase
  rows other hother rows hrows := (h.rows other hother rows hrows).append hphase

/-! ## The steps -/

theorem lookup_mem {key : Bytes} {entry : CacheEntry Rows} (h : cache.lookup key = some entry) :
    (key, entry) ∈ cache.store := by
  obtain ⟨⟨found, _⟩, hfind, rfl⟩ := Option.map_eq_some_iff.mp h
  have hkey : found = key := by simpa using List.find?_some hfind
  subst hkey
  exact List.mem_of_find?_eq_some hfind

theorem findFill_mem {key : Bytes} {fill : Nat} (h : cache.findFill key = some fill) :
    (key, fill) ∈ cache.listed := by
  obtain ⟨⟨found, _⟩, hfind, rfl⟩ := Option.map_eq_some_iff.mp h
  have hkey : found = key := by simpa using List.find?_some hfind
  subst hkey
  exact List.mem_of_find?_eq_some hfind

/-- A phase that refers to no fill. -/
theorem fillFresh_none (h : changed.phase.fill = none) : FillFresh keys cache changed := by
  intro fill hfill
  rw [h] at hfill
  cases hfill

theorem rowsFresh_none (h : changed.phase.rows = none) : RowsFresh keys cache changed := by
  intro rows hrows
  rw [h] at hrows
  cases hrows

/-- Both invariants. -/
def Good (keys : DbCacheKeys) (cache : QueryCache Rows) : Prop := Wf keys cache ∧ Fresh keys cache

variable {write : Option (CacheEntry Rows)}

/-- A phase change that refers to no fill. -/
theorem Good.setPhase (h : Good keys cache) (hvalue : cache.queries[query]? = some value) {phase : QueryPhase Rows}
    (hphase : phase.fill = none)
    (hrows : ∀ rows, phase.rows = some rows → FreshFor keys cache.removals value.key value.startedAt rows.startedAt) :
    Good keys (cache.setQuery query { value with phase := phase, write := write }) :=
  ⟨h.1.setQuery (List.mem_of_getElem? hvalue) rfl rfl rfl (fillFresh_none hphase), h.2.setQuery hrows⟩

/-- A phase change that refers to no fill and to no rows. -/
theorem Good.setPlain (h : Good keys cache) (hvalue : cache.queries[query]? = some value) {phase : QueryPhase Rows}
    (hphase : phase.fill = none) (hrows : phase.rows = none) :
    Good keys (cache.setQuery query { value with phase := phase, write := write }) :=
  h.setPhase hvalue hphase fun rows hsome => by
    rw [hrows] at hsome
    cases hsome

/-! ### Start and GET -/

theorem Good.startQuery {id : Bytes} {shape : DbCacheShape} {sqlDigest : Bytes} (h : Good keys cache)
    (hnext : cache.startQuery keys id shape sqlDigest = some next) : Good keys next := by
  obtain ⟨hwf, hfresh⟩ := h
  rw [QueryCache.startQuery] at hnext
  split at hnext
  · cases hnext
  · cases hnext
    refine ⟨⟨fun other hother => ?_, hwf.called, fun other hother => ?_, hwf.named, hwf.listed, hwf.results,
      fun other hother => ?_⟩, hfresh.entries, fun other hother => ?_⟩
    all_goals rcases List.mem_append.mp hother with hother | hother
    · exact hwf.started other hother
    · rw [List.mem_singleton.mp hother]
    · exact hwf.keyed other hother
    · rw [List.mem_singleton.mp hother]
      exact ⟨shape, sqlDigest, rfl⟩
    · exact hwf.joined other hother
    · rw [List.mem_singleton.mp hother]
      exact fillFresh_none rfl
    · exact hfresh.rows other hother
    · rw [List.mem_singleton.mp hother]
      exact rowsFresh_none rfl

theorem Good.get (h : Good keys cache) (hnext : cache.get query = some next) : Good keys next := by
  obtain ⟨value, hvalue, hnext⟩ := Option.bind_eq_some_iff.mp hnext
  split at hnext
  · cases hnext
    exact h.setPhase hvalue rfl fun rows hrows => (h.2.entries _ (lookup_mem hrows)).freshFor
  · cases hnext

theorem Good.getFailed (h : Good keys cache) (hnext : cache.getFailed query = some next) : Good keys next := by
  obtain ⟨value, hvalue, hnext⟩ := Option.bind_eq_some_iff.mp hnext
  split at hnext
  · cases hnext
    exact h.setPlain hvalue rfl rfl
  · cases hnext

/-! ### The frame behind GET -/

/-- A new fill leaves the old ones in their places. -/
theorem getElem?_append_fill (h : cache.fills[place]? = some other) (added : CacheFill Rows) :
    (cache.fills ++ [added])[place]? = some other := by
  obtain ⟨hlt, _⟩ := List.getElem?_eq_some_iff.mp h
  rw [List.getElem?_append_left hlt, h]

theorem Wf.miss (h : Wf keys cache) (hvalue : cache.queries[query]? = some value)
    (hnext : cache.miss query value = some next) : Wf keys next := by
  rw [QueryCache.miss] at hnext
  split at hnext
  · rename_i fill hfill
    obtain ⟨filled, hfilled, hnext⟩ := Option.bind_eq_some_iff.mp hnext
    cases hnext
    obtain ⟨listed, hlisted, hcalls⟩ := h.listed _ (findFill_mem hfill)
    rw [hfilled] at hlisted
    cases hlisted
    have hset : Wf keys (cache.setFill fill { filled with awaited := true }) :=
      h.setFill hfilled rfl (h.results filled (List.mem_of_getElem? hfilled))
    refine hset.setQuery (List.mem_of_getElem? hvalue) rfl rfl rfl fun place hplace => ?_
    cases hplace
    obtain ⟨kept, hkept, hsame⟩ := setFill_start hfilled { filled with awaited := true } rfl hfilled
    exact ⟨kept, hkept, hsame ▸ hcalls.freshFor⟩
  · cases hnext
    -- the fill starts now, behind every removal called so far
    have hcalls : ∀ key, Calls keys cache.removals key cache.clock := fun key removed hremoved _ =>
      h.called removed hremoved
    have hnew : (cache.fills ++ [{ key := value.key, startedAt := cache.clock }])[cache.fills.length]? =
        some { key := value.key, startedAt := cache.clock } := List.getElem?_concat_length
    have hled : Wf keys { cache with
        fills := cache.fills ++ [{ key := value.key, startedAt := cache.clock }]
        listed := (value.key, cache.fills.length) :: cache.listed } := by
      refine ⟨h.started, h.called, h.keyed, h.named, ?_, ?_, ?_⟩
      · intro entry hentry
        rcases List.mem_cons.mp hentry with rfl | hentry
        · exact ⟨_, hnew, hcalls value.key⟩
        · obtain ⟨filled, hfilled, hold⟩ := h.listed entry hentry
          exact ⟨filled, getElem?_append_fill hfilled _, hold⟩
      · intro other hother
        rcases List.mem_append.mp hother with hother | hother
        · exact h.results other hother
        · rw [List.mem_singleton] at hother
          subst hother
          intro rows hrows
          cases hrows
      · intro other hother fill hfill
        obtain ⟨filled, hfilled, hfresh⟩ := h.joined other hother fill hfill
        exact ⟨filled, getElem?_append_fill hfilled _, hfresh⟩
    refine hled.setQuery (List.mem_of_getElem? hvalue) rfl rfl rfl fun place hplace => ?_
    cases hplace
    exact ⟨_, hnew, (hcalls value.key).freshFor⟩

theorem Good.miss (h : Good keys cache) (hvalue : cache.queries[query]? = some value)
    (hnext : cache.miss query value = some next) : Good keys next := by
  refine ⟨h.1.miss hvalue hnext, ?_⟩
  rw [QueryCache.miss] at hnext
  split at hnext
  · obtain ⟨filled, _, hnext⟩ := Option.bind_eq_some_iff.mp hnext
    cases hnext
    exact Fresh.setQuery ⟨h.2.entries, h.2.rows⟩ (rowsFresh_none rfl)
  · cases hnext
    exact Fresh.setQuery ⟨h.2.entries, h.2.rows⟩ (rowsFresh_none rfl)

variable {decodes : Bool}

theorem Good.resume (h : Good keys cache) (hnext : cache.resume query decodes = some next) : Good keys next := by
  obtain ⟨value, hvalue, hnext⟩ := Option.bind_eq_some_iff.mp hnext
  split at hnext
  · rename_i hphase
    split at hnext
    · cases hnext
      refine h.setPhase hvalue rfl fun rows hrows => h.2.rows value (List.mem_of_getElem? hvalue) rows ?_
      rw [hphase]
      exact hrows
    · exact h.miss hvalue hnext
  · exact h.miss hvalue hnext
  · cases hnext

/-- The fill that a query refers to is as fresh as the query needs it. -/
theorem Wf.joined_fresh {fill : Nat} (h : Wf keys cache) (hvalue : cache.queries[query]? = some value)
    (hphase : value.phase.fill = some fill) (hfilled : cache.fills[fill]? = some filled) :
    FreshFor keys cache.removals value.key value.startedAt filled.startedAt := by
  obtain ⟨joined, hjoined, hfresh⟩ := h.joined value (List.mem_of_getElem? hvalue) fill hphase
  rw [hfilled] at hjoined
  cases hjoined
  exact hfresh

section

variable (h : Good keys cache)
include h

/-- The result of a fill is as old as the fill. -/
theorem Good.wake (hnext : cache.wake query decodes = some next) : Good keys next := by
  obtain ⟨value, hvalue, hnext⟩ := Option.bind_eq_some_iff.mp hnext
  split at hnext
  · rename_i fill hphase
    obtain ⟨joined, hjoined, hnext⟩ := Option.bind_eq_some_iff.mp hnext
    split at hnext
    · split at hnext
      · rename_i rows hresult
        cases hnext
        refine h.setPhase hvalue (by cases decodes <;> rfl) fun rows' hrows => ?_
        cases decodes with
        | false => cases hrows
        | true =>
          cases hrows
          rw [h.1.results joined (List.mem_of_getElem? hjoined) rows hresult]
          exact h.1.joined_fresh hvalue (by rw [hphase]; rfl) hjoined
      · cases hnext
        exact h.setPlain hvalue rfl rfl
    · cases hnext
  · cases hnext

/-! ### The leader -/

theorem Good.finishFill {fill : Nat} (hfilled : cache.fills[fill]? = some filled) (ended : CacheFill Rows)
    (hstarted : ended.startedAt = filled.startedAt)
    (hresult : ∀ rows, ended.result = some rows → rows.startedAt = filled.startedAt) :
    Good keys (cache.finishFill fill ended) :=
  ⟨h.1.finishFill hfilled ended hstarted hresult, h.2.entries, h.2.rows⟩

theorem Good.reply {rows : Rows} {store fits : Bool} (hnext : cache.reply query rows store fits = some next) :
    Good keys next := by
  obtain ⟨value, hvalue, hnext⟩ := Option.bind_eq_some_iff.mp hnext
  split at hnext
  · rename_i fill hphase
    obtain ⟨filled, hfilled, hnext⟩ := Option.bind_eq_some_iff.mp hnext
    have hfresh := h.1.joined_fresh hvalue (by rw [hphase]; rfl) hfilled
    let published : CacheFill Rows :=
      { filled with result := if filled.awaited then some { rows := rows, startedAt := filled.startedAt } else none }
    have hpublished : ∀ entry, published.result = some entry → entry.startedAt = filled.startedAt := by
      intro entry hentry
      dsimp only [published] at hentry
      split at hentry
      · cases hentry
        rfl
      · cases hentry
    have hshared := h.finishFill hfilled published rfl hpublished
    dsimp only at hnext
    split at hnext
    · cases hnext
      have hkept := h.finishFill hfilled filled rfl (h.1.results filled (List.mem_of_getElem? hfilled))
      refine hkept.setPhase hvalue rfl fun entry hentry => ?_
      cases hentry
      exact hfresh
    · split at hnext
      all_goals
        cases hnext
        refine hshared.setPhase hvalue rfl fun entry hentry => ?_
        cases hentry
        exact hfresh
  · cases hnext

/-- A timely SET writes an entry whose removals are still to come. -/
theorem Good.set (htimely : Timely keys cache (.set query)) (hnext : cache.set query = some next) :
    Good keys next := by
  obtain ⟨value, hvalue, hnext⟩ := Option.bind_eq_some_iff.mp hnext
  obtain ⟨entry, hentry, hnext⟩ := Option.bind_eq_some_iff.mp hnext
  cases hnext
  obtain ⟨hwf, hfresh⟩ := h
  have hmem := List.mem_of_getElem? hvalue
  have hset : Wf keys (cache.setEntry value.key entry) :=
    ⟨hwf.started, hwf.called, hwf.keyed, hwf.named, hwf.listed, hwf.results, hwf.joined⟩
  have hwritten : Fresh keys (cache.setEntry value.key entry) := by
    refine ⟨fun other hother => ?_, hfresh.rows⟩
    rcases List.mem_cons.mp hother with rfl | hother
    · exact htimely value hvalue entry hentry
    · exact hfresh.entries other (List.mem_of_mem_filter hother)
  exact ⟨hset.setQuery hmem rfl rfl rfl (hset.joined value hmem), hwritten.setQuery (hwritten.rows value hmem)⟩

theorem Good.finishSet (hnext : cache.finishSet query = some next) : Good keys next := by
  obtain ⟨value, hvalue, hnext⟩ := Option.bind_eq_some_iff.mp hnext
  split at hnext
  · rename_i hphase
    cases hnext
    refine h.setPhase hvalue rfl fun rows hrows => h.2.rows value (List.mem_of_getElem? hvalue) rows ?_
    rw [hphase]
    exact hrows
  · cases hnext

theorem Good.abandon (hnext : cache.abandon query = some next) : Good keys next := by
  obtain ⟨value, hvalue, hnext⟩ := Option.bind_eq_some_iff.mp hnext
  split at hnext
  · obtain ⟨filled, hfilled, hnext⟩ := Option.bind_eq_some_iff.mp hnext
    cases hnext
    have hended := h.finishFill hfilled filled rfl (h.1.results filled (List.mem_of_getElem? hfilled))
    exact hended.setPlain hvalue rfl rfl
  · cases hnext
  · cases hnext
  · cases hnext
    exact h.setPlain hvalue rfl rfl

/-! ### Removals -/

theorem Good.setRemoval (htarget : cache.removals[removal]? = some target)
    (hphase : ∀ time, phase = .completed time → cache.clock ≤ time)
    (hpending : ∀ entry ∈ cache.store, target.target.Covers keys entry.1 → target.phase.Pending entry.1 → phase.Pending entry.1) :
    Good keys (cache.setRemoval removal { target with phase := phase }) :=
  ⟨h.1.setRemoval htarget hphase, h.2.setRemoval h.1 htarget hphase hpending⟩

theorem Good.deleteKeys (gone : List Bytes) : Good keys (cache.deleteKeys gone) :=
  ⟨h.1.deleteKeys gone, h.2.deleteKeys gone⟩

/-- The fills that stay listed have keys the removal does not cover. -/
theorem Good.remove {ids : List Bytes} (hnext : cache.remove keys ids = some next) : Good keys next := by
  rw [QueryCache.remove] at hnext
  split at hnext
  · cases hnext
  · split at hnext
    · cases hnext
    · rename_i hids
      cases hnext
      refine ⟨h.1.call rfl rfl (fun named hnamed => ?_) fun entry hentry => ?_, h.2.call rfl _⟩
      · cases hnamed
        exact hids
      · obtain ⟨hmem, hkey⟩ := List.mem_filter.mp hentry
        exact ⟨hmem, of_decide_eq_true hkey⟩

theorem Good.clear (hnext : cache.clear = some next) : Good keys next := by
  rw [QueryCache.clear] at hnext
  split at hnext
  · cases hnext
  · cases hnext
    refine ⟨h.1.call rfl rfl (fun _ hnamed => ?_) fun _ hentry => ?_, h.2.call rfl _⟩
    · cases hnamed
    · cases hentry

end

variable {batch : List Bytes} {last : Bool}

/-- What was to be deleted is in the batch or still unseen. -/
theorem Good.scanFrom {unseen : List Bytes} (h : Good keys cache) (htarget : cache.removals[removal]? = some target)
    (hunseen : ∀ entry ∈ cache.store, target.phase.Pending entry.1 → entry.1 ∈ unseen)
    (hnext : cache.scanFrom removal target unseen batch last = some next) : Good keys next := by
  rw [QueryCache.scanFrom] at hnext
  split at hnext
  · cases hnext
    refine h.setRemoval htarget nofun fun entry hentry _ hpending => ?_
    by_cases hbatch : entry.1 ∈ batch
    · exact .inl hbatch
    · exact .inr (List.mem_filter.mpr ⟨hunseen entry hentry hpending, decide_eq_true hbatch⟩)
  · split at hnext
    · rename_i hall
      cases hnext
      refine h.setRemoval htarget nofun fun entry hentry _ hpending => ?_
      exact .inl (of_decide_eq_true (List.all_eq_true.mp hall _ (hunseen entry hentry hpending)))
    · cases hnext

theorem Good.scan (h : Good keys cache) (hnext : cache.scan removal batch last = some next) : Good keys next := by
  obtain ⟨target, htarget, hnext⟩ := Option.bind_eq_some_iff.mp hnext
  split at hnext
  · exact h.scanFrom htarget (fun entry hentry _ => List.mem_map_of_mem hentry) hnext
  · rename_i unseen _ hphase
    refine h.scanFrom htarget (fun entry _ hpending => ?_) hnext
    rw [hphase] at hpending
    exact hpending
  · cases hnext

/-- The removal as DEL leaves it: its own keys are gone from it too. -/
theorem deleteKeys_removals (gone : List Bytes) (htarget : cache.removals[removal]? = some target) :
    (cache.deleteKeys gone).removals[removal]? = some { target with phase := target.phase.forget gone } := by
  show (cache.removals.map _)[removal]? = _
  rw [List.getElem?_map, htarget]
  rfl

section

variable (h : Good keys cache)
include h

/-- Behind a DEL only what is left of the keys is to come. -/
theorem Good.deleteBatch (gone : List Bytes) (htarget : cache.removals[removal]? = some target)
    (hphase : ∀ time, phase = .completed time → cache.clock ≤ time)
    (hpending : ∀ key, key ∉ gone → target.target.Covers keys key → (target.phase.forget gone).Pending key →
      phase.Pending key) :
    Good keys ((cache.deleteKeys gone).setRemoval removal { target with phase := phase }) := by
  have hset := (h.deleteKeys gone).setRemoval (deleteKeys_removals gone htarget) hphase
    fun entry hentry hcovers => hpending entry.1 (mem_deleteKeys hentry).2 hcovers
  exact hset

theorem Good.del (hnext : cache.del keys removal = some next) : Good keys next := by
  obtain ⟨target, htarget, hnext⟩ := Option.bind_eq_some_iff.mp hnext
  split at hnext
  · rename_i ids _ hnamed _
    cases hnext
    refine h.deleteBatch _ htarget nofun fun key hkey hcovers _ => ?_
    rw [hnamed] at hcovers
    exact absurd hcovers hkey
  · rename_i batch _ _ hphase
    cases hnext
    refine h.deleteBatch _ htarget nofun fun key hkey _ hpending => ?_
    rw [hphase] at hpending
    rcases hpending with hpending | hpending
    · exact absurd hpending hkey
    · cases hpending
  · rename_i batch unseen _ _ hphase
    cases hnext
    refine h.deleteBatch _ htarget nofun fun key hkey _ hpending => ?_
    rw [hphase] at hpending
    rcases hpending with hpending | hpending
    · exact absurd hpending hkey
    · exact List.mem_of_mem_filter hpending
  · cases hnext

theorem Good.complete (hnext : cache.complete removal = some next) : Good keys next := by
  obtain ⟨target, htarget, hnext⟩ := Option.bind_eq_some_iff.mp hnext
  split at hnext
  · rename_i hphase
    cases hnext
    refine h.setRemoval htarget (fun time htime => ?_) fun entry _ _ hpending => ?_
    · cases htime
      exact Nat.le_refl _
    · rw [hphase] at hpending
      exact hpending
  · cases hnext

theorem Good.failRemoval (hnext : cache.failRemoval removal = some next) : Good keys next := by
  obtain ⟨target, htarget, hnext⟩ := Option.bind_eq_some_iff.mp hnext
  split at hnext
  · cases hnext
  · cases hnext
    exact h.setRemoval htarget nofun fun _ _ _ _ => trivial

end

/-! ## Runs -/

theorem Good.act {action : CacheAction Rows} (h : Good keys cache) (htimely : Timely keys cache action)
    (hnext : cache.act keys action = some next) : Good keys next := by
  cases action with
  | startQuery id shape sqlDigest => exact h.startQuery hnext
  | get query => exact h.get hnext
  | getFailed query => exact h.getFailed hnext
  | resume query decodes => exact h.resume hnext
  | wake query decodes => exact h.wake hnext
  | reply query rows store fits => exact h.reply hnext
  | set query => exact h.set htimely hnext
  | finishSet query => exact h.finishSet hnext
  | abandon query => exact h.abandon hnext
  | expire key =>
    cases hnext
    exact h.deleteKeys [key]
  | remove ids => exact h.remove hnext
  | clear => exact h.clear hnext
  | scan removal batch last => exact h.scan hnext
  | del removal => exact h.del hnext
  | complete removal => exact h.complete hnext
  | failRemoval removal => exact h.failRemoval hnext
  | closeNow =>
    cases hnext
    obtain ⟨hwf, hfresh⟩ := h
    exact ⟨⟨hwf.started, hwf.called, hwf.keyed, hwf.named, hwf.listed, hwf.results, hwf.joined⟩, hfresh.entries,
      hfresh.rows⟩

theorem Good.step {action : CacheAction Rows} (h : Good keys cache) (htimely : Timely keys cache action)
    (hnext : cache.step keys action = some next) : Good keys next := by
  obtain ⟨acted, hacted, rfl⟩ := Option.map_eq_some_iff.mp hnext
  obtain ⟨hwf, hfresh⟩ := h.act htimely hacted
  exact ⟨⟨fun query hquery => Nat.le_succ_of_le (hwf.started query hquery),
    fun removal hremoval => Nat.le_succ_of_le (hwf.called removal hremoval),
    hwf.keyed, hwf.named, hwf.listed, hwf.results, hwf.joined⟩, hfresh.entries, hfresh.rows⟩

theorem wf_init (h : (machine keys).init cache) : Wf keys cache := by
  rw [show cache = { store := cache.store } from h]
  refine ⟨?_, ?_, ?_, ?_, ?_, ?_, ?_⟩ <;> exact nofun

theorem fresh_init (h : (machine keys).init cache) : Fresh keys cache := by
  rw [show cache = { store := cache.store } from h]
  exact ⟨nofun, nofun⟩

/-- **Invalidation**: where every SET is timely, no query returns rows of a statement started before a removal
that names its id and was completed before the query started. -/
theorem invalidation_timely (h : (machine keys).ReachableVia (Timely keys) cache) : cache.Invalidated := by
  have hgood : Good keys cache := by
    refine StateMachine.ReachableVia.invariant (P := Good keys) ?_ ?_ h
    · intro before hinit
      exact ⟨wf_init hinit, fresh_init hinit⟩
    · intro before action after hbefore hok hnext
      exact hbefore.step hok hnext
  exact hgood.2.invalidated hgood.1

/-! ### A removal behind which a query reads again, and one that is undone -/

/-- Keys with the id itself as its digest. -/
def plainKeys : DbCacheKeys := { keyPrefix := [], idDigest := fun id => id }

/-- A query stores its rows, `remove` deletes them, and the next query runs its own statement. -/
def removedRun : List (CacheAction Nat) :=
  [.startQuery [1] .rows [], .get 0, .resume 0 true, .reply 0 10 true true, .set 0, .finishSet 0,
    .remove [[1]], .del 0, .complete 0,
    .startQuery [1] .rows [], .get 1, .resume 1 true, .reply 1 20 true true, .set 1, .finishSet 1]

theorem invalidation_timely_removed :
    ∃ cache, (machine plainKeys).follow (Timely plainKeys) {} removedRun = some cache ∧
      (∃ query ∈ cache.queries, query.phase = .returned { rows := 20, startedAt := 11 }) ∧ cache.Invalidated := by
  obtain ⟨cache, hcache⟩ : ∃ cache, (machine plainKeys).follow (Timely plainKeys) {} removedRun = some cache :=
    ⟨_, rfl⟩
  refine ⟨cache, hcache, ?_, invalidation_timely ((StateMachine.ReachableVia.start rfl).follow hcache)⟩
  cases hcache
  decide

/-- The removal is called and completed while the statement of the first query runs; its SET comes behind the DEL. -/
def undoneRun : List (CacheAction Nat) :=
  [.startQuery [1] .rows [], .get 0, .resume 0 true, .remove [[1]], .del 0, .complete 0,
    .reply 0 10 true true, .set 0, .startQuery [1] .rows [], .get 1, .resume 1 true]

/-- **A removal undone**: the leader of an unlisted fill writes the removed rows back. -/
theorem set_behind_removal : ¬ ∀ cache : QueryCache Nat, (machine plainKeys).Reachable cache → cache.Invalidated := by
  intro hclaim
  have hreach : (machine plainKeys).Reachable ((machine plainKeys).run {} undoneRun) :=
    (StateMachine.Reachable.start rfl).run undoneRun
  have hremoval : ({ target := .named [[1]], calledAt := 3, phase := .completed 5 } : CacheRemoval) ∈
      ((machine plainKeys).run {} undoneRun).removals := by decide
  have hquery : ∃ query ∈ ((machine plainKeys).run {} undoneRun).queries, query.id = [1] ∧ query.startedAt = 8 ∧
      query.phase = .returned { rows := 10, startedAt := 2 } := by decide
  obtain ⟨query, hquery, hid, hstarted, hrows⟩ := hquery
  have hnames : (RemovalTarget.named [[1]]).Names query.id := by
    rw [hid]
    exact List.mem_singleton.mpr rfl
  have hle := hclaim _ hreach _ hremoval query hquery 5 _ rfl hrows (by omega) hnames
  exact absurd hle (by decide)

end QueryCache

end Ruvia.Web
